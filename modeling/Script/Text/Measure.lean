/-
The two measures of a text. Positions in a text are byte offsets into
its UTF-8 form; people count lines and characters. A text is handled as
the list of its characters, and this file says how many bytes a run of
characters takes, and which offsets fall between two characters.

`dropBytes?` and `countIn?` are partial in the same way: an offset in
the middle of a character has no character boundary, and they say so
with `none`.
-/

namespace Script.Text

/-- The bytes that a run of characters takes in UTF-8. -/
def byteLength (cs : List Char) : Nat :=
  cs.foldr (fun c n => c.utf8Size + n) 0

@[simp] theorem byteLength_nil : byteLength [] = 0 := rfl

@[simp] theorem byteLength_cons (c : Char) (cs : List Char) :
    byteLength (c :: cs) = c.utf8Size + byteLength cs := rfl

@[simp] theorem byteLength_append (xs ys : List Char) :
    byteLength (xs ++ ys) = byteLength xs + byteLength ys := by
  induction xs with
  | nil => simp
  | cons c xs ih => simp [ih, Nat.add_assoc]

/-- The text after its first `n` bytes; `none` when a character
straddles that offset or the text is shorter. -/
def dropBytes? : Nat → List Char → Option (List Char)
  | 0, cs => some cs
  | _ + 1, [] => none
  | n + 1, c :: cs =>
      if c.utf8Size ≤ n + 1 then dropBytes? (n + 1 - c.utf8Size) cs
      else none

/-- The number of characters in the first `n` bytes, counted on top of
`seen`; `none` when a character straddles that offset. -/
def countInFrom? (seen : Nat) : Nat → List Char → Option Nat
  | 0, _ => some seen
  | _ + 1, [] => none
  | n + 1, c :: cs =>
      if c.utf8Size ≤ n + 1 then
        countInFrom? (seen + 1) (n + 1 - c.utf8Size) cs
      else none

/-- The number of characters in the first `n` bytes. -/
def countIn? (n : Nat) (cs : List Char) : Option Nat :=
  countInFrom? 0 n cs

/-- Cut after a run of characters: dropping the bytes of `xs` leaves
what follows it. -/
theorem dropBytes?_append (xs ys : List Char) :
    dropBytes? (byteLength xs) (xs ++ ys) = some ys := by
  induction xs with
  | nil => simp [dropBytes?]
  | cons c xs ih =>
    have hc : 0 < c.utf8Size := c.utf8Size_pos
    obtain ⟨n, hn⟩ : ∃ n, c.utf8Size + byteLength xs = n + 1 :=
      ⟨c.utf8Size + byteLength xs - 1, by omega⟩
    rw [byteLength_cons, hn, List.cons_append, dropBytes?, if_pos (by omega),
      show n + 1 - c.utf8Size = byteLength xs by omega, ih]

end Script.Text
