/-
The blank characters: those with the Unicode property White_Space.
Directives are trimmed and split at them. (The lexer's notion is
narrower and lives with the tokens.)
-/

namespace Script.Text

/-- Ranges, ends included, of the code points with the property
White_Space. -/
def blankRanges : List (Nat × Nat) :=
  [(0x09, 0x0D), (0x20, 0x20), (0x85, 0x85), (0xA0, 0xA0),
   (0x1680, 0x1680), (0x2000, 0x200A), (0x2028, 0x2029),
   (0x202F, 0x202F), (0x205F, 0x205F), (0x3000, 0x3000)]

/-- A character with the property White_Space. -/
def isBlank (c : Char) : Bool :=
  blankRanges.any fun (lo, hi) => lo ≤ c.toNat && c.toNat ≤ hi

/-- A text without the blanks in front. -/
def trimStart (cs : List Char) : List Char := cs.dropWhile isBlank

/-- A text without the blanks behind. -/
def trimEnd (cs : List Char) : List Char :=
  (cs.reverse.dropWhile isBlank).reverse

/-- A text without the blanks around it. -/
def trim (cs : List Char) : List Char := trimEnd (trimStart cs)

/-- The first word of a text, and the rest after it without the blanks
around. -/
def firstWord (cs : List Char) : List Char × List Char :=
  (cs.takeWhile (!isBlank ·), trim (cs.dropWhile (!isBlank ·)))

/-- Characters that core calls whitespace are blank. -/
theorem isBlank_of_isWhitespace {c : Char} (h : c.isWhitespace = true) :
    isBlank c = true := by
  simp only [Char.isWhitespace, Bool.or_eq_true, decide_eq_true_eq] at h
  rcases h with ((rfl | rfl) | rfl) | rfl <;> decide

/-- What `trimStart` leaves is empty or begins with no blank. -/
theorem head_trimStart {c : Char} {cs t : List Char}
    (h : trimStart cs = c :: t) : isBlank c = false := by
  have hne : cs.dropWhile isBlank ≠ [] := by
    rw [show cs.dropWhile isBlank = c :: t from h]; simp
  have := List.head_dropWhile_not isBlank hne
  simpa [show cs.dropWhile isBlank = c :: t from h] using this

end Script.Text
