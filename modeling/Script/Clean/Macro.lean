/-
Macros: words that stand for other text. In a line every word that is
defined is replaced, and what takes its place is not looked at again.
Words are not looked for inside of strings, nor at the end of numbers.

Replacing also says where the pieces of the new line come from.
-/
import Script.Source.Origin
import Script.Text.Measure

namespace Script.Clean

/-- The macros defined at one place, in the order of their names. -/
abbrev Macros := List (String × List Char)

/-- Defines a macro, in place of what it stood for before. -/
def Macros.define (name : String) (body : List Char) : Macros → Macros
  | [] => [(name, body)]
  | (k, b) :: ms =>
      if name < k then (name, body) :: (k, b) :: ms
      else if name = k then (name, body) :: ms
      else (k, b) :: Macros.define name body ms

/-- Removes a macro. -/
def Macros.undefine (name : String) (ms : Macros) : Macros :=
  ms.filter (·.1 ≠ name)

/-- The characters a macro's name can begin with. -/
def isNameStart (c : Char) : Bool := c.isAlpha || c == '_'

/-- The characters a macro's name can go on with. -/
def isNameChar (c : Char) : Bool := c.isAlphanum || c == '_'

/-- Whether a text is the name of a macro. -/
def isMacroName : List Char → Bool
  | [] => false
  | c :: cs => isNameStart c && cs.all isNameChar

-- ============================================================== pieces

/-- A string behind its opening quote, up to its closing one or to the
end of the line. -/
def stringTail : List Char → List Char
  | [] => []
  | '"' :: _ => ['"']
  | '\\' :: c :: cs => '\\' :: c :: stringTail cs
  | c :: cs => c :: stringTail cs

/-- The characters behind the first one that belong to the same piece
of a line: a string, a number, a word, or else a single character. -/
def pieceTail (c : Char) (cs : List Char) : List Char :=
  if c == '"' then stringTail cs
  else if c.isDigit then cs.takeWhile fun d => isNameChar d || d == '.'
  else if isNameStart c then cs.takeWhile isNameChar
  else []

/-- A line cut into pieces. -/
def pieces : List Char → List (List Char)
  | [] => []
  | c :: cs =>
      let tail := pieceTail c cs
      (c :: tail) :: pieces (cs.drop tail.length)
termination_by cs => cs.length
decreasing_by simp only [List.length_cons, List.length_drop]; omega

/-- What a piece is replaced by, if it is a defined word. -/
def Macros.replacement? (ms : Macros) (piece : List Char) :
    Option (List Char) :=
  if isMacroName piece then ms.lookup (String.ofList piece) else none

-- =========================================================== expansion

/-- A line with its macros replaced, and where its pieces come from. -/
structure Expansion where
  text : List Char
  shifts : List Shift
deriving DecidableEq, Repr

/-- Replaces macros in the pieces of a line. The pieces begin at one
offset in the new line and at another one in the written line. The shifts
keep the one in the new line as far as it fits. -/
def expandPieces (ms : Macros) (derived origin : Nat) :
    List (List Char) → Expansion
  | [] => ⟨[], []⟩
  | p :: ps =>
      let originNext := origin + Text.byteLength p
      match ms.replacement? p with
      | none =>
          let rest :=
            expandPieces ms (derived + Text.byteLength p) originNext ps
          ⟨p ++ rest.text, rest.shifts⟩
      | some r =>
          let derivedNext := derived + Text.byteLength r
          let rest := expandPieces ms derivedNext originNext ps
          ⟨r ++ rest.text,
            ⟨derived, origin, false⟩ :: ⟨derivedNext, originNext, true⟩
              :: rest.shifts⟩

/-- Replaces the macros in a line. Without macros there is nothing to
look for. -/
def expand (ms : Macros) (line : List Char) : Expansion :=
  if ms.isEmpty then ⟨line, []⟩ else expandPieces ms 0 0 (pieces line)

/-- A name is found under what it was defined as. -/
theorem lookup_define (name : String) (body : List Char) (ms : Macros) :
    (Macros.define name body ms).lookup name = some body := by
  induction ms with
  | nil => simp [Macros.define]
  | cons m ms ih =>
    obtain ⟨k, b⟩ := m
    simp only [Macros.define]
    split
    · simp
    · split
      · simp
      · rename_i h
        have : (name == k) = false := by simpa using h
        simp [List.lookup_cons, this, ih]

end Script.Clean
