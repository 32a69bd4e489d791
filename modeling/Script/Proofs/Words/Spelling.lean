/-
The lexical grammar, in its own words: which texts spell a token, and how
a source text splits into such texts with white space between them. A text
is cut where the longest spelling ends, so a place has at most one.

A number may not run into a word. An exponent marker without digits is the
first character of a word behind a number, and so this rules it out too.

The grammar does not say how a text is read; that the reader agrees with
it is proved elsewhere.
-/
import Script.Number.Numeral
import Script.Text.Measure
import Script.Token.Basic

namespace Script

namespace Spelling

-- ========================================================= characters

/-- White space. -/
def Space (c : Char) : Prop := c ∈ [' ', '\t', '\r', '\n']

/-- The digits. -/
def Digit (c : Char) : Prop := '0' ≤ c ∧ c ≤ '9'

/-- What identifiers begin with. -/
def Initial (c : Char) : Prop :=
  ('a' ≤ c ∧ c ≤ 'z') ∨ ('A' ≤ c ∧ c ≤ 'Z') ∨ c = '_'

/-- What identifiers go on with. -/
def Inner (c : Char) : Prop := Initial c ∨ Digit c

-- ============================================================== words

/-- A word: an identifier, unless it is reserved. -/
inductive Word : List Char → Prop
  | mk {c : Char} {cs : List Char} (hc : Initial c)
      (hcs : ∀ d ∈ cs, Inner d) : Word (c :: cs)

-- ============================================================ numbers

/-- Digits, one at least. -/
def Digits (ds : List Char) : Prop := ds ≠ [] ∧ ∀ d ∈ ds, Digit d

/-- A fraction, and its digits. -/
inductive Fraction : List Char → List Char → Prop
  | absent : Fraction [] []
  | point {ds : List Char} (h : Digits ds) : Fraction ('.' :: ds) ds

/-- The sign of an exponent, and whether it makes it negative. -/
inductive Sign : List Char → Bool → Prop
  | absent : Sign [] false
  | plus : Sign ['+'] false
  | minus : Sign ['-'] true

/-- An exponent, and whether it is negative, with its digits. -/
inductive Exponent : List Char → Option (Bool × List Char) → Prop
  | absent : Exponent [] none
  | marked {m : Char} {s ds : List Char} {negative : Bool}
      (hm : m = 'e' ∨ m = 'E') (hs : Sign s negative) (h : Digits ds) :
      Exponent (m :: (s ++ ds)) (some (negative, ds))

/-- A number literal, and its parts. -/
inductive Numeral : List Char → Number.Numeral → Prop
  | mk {whole f fraction e : List Char} {exponent : Option (Bool × List Char)}
      (hwhole : Digits whole) (hf : Fraction f fraction)
      (he : Exponent e exponent) :
      Numeral (whole ++ (f ++ e)) ⟨whole, fraction, exponent⟩

-- ============================================================ strings

/-- The characters with a meaning of their own behind a backslash. -/
def escapes : List (Char × Char) :=
  [('n', '\n'), ('t', '\t'), ('r', '\r'), ('0', '\x00'), ('\\', '\\'),
   ('"', '"')]

/-- What a character behind a backslash stands for. One that no escape is
known for stands for itself; a line break cannot be escaped. -/
inductive Escape : Char → Char → Prop
  | known {c d : Char} (h : (c, d) ∈ escapes) : Escape c d
  | unknown {c : Char} (h : ∀ d, (c, d) ∉ escapes) (hline : c ≠ '\n') :
      Escape c c

/-- The characters between quotes, and the text they stand for. -/
inductive Decodes : List Char → List Char → Prop
  | nil : Decodes [] []
  | plain {c : Char} {cs ds : List Char} (h : c ∉ ['"', '\\', '\n'])
      (hcs : Decodes cs ds) : Decodes (c :: cs) (c :: ds)
  | escape {c d : Char} {cs ds : List Char} (h : Escape c d)
      (hcs : Decodes cs ds) : Decodes ('\\' :: c :: cs) (d :: ds)

-- ============================================================= tokens

/-- The characters of a token, and what the token is. -/
inductive Spells : List Char → Token.Kind → Prop
  | keyword (k : Keyword) : Spells k.text.toList (.keyword k)
  | identifier {w : List Char} (h : Word w)
      (hk : ∀ k : Keyword, k.text.toList ≠ w) : Spells w .identifier
  | number {w : List Char} {n : Number.Numeral} (h : Numeral w n) :
      Spells w (.number n.value)
  | string {cs ds : List Char} (h : Decodes cs ds) :
      Spells ('"' :: (cs ++ ['"'])) (.string (String.ofList ds))
  | operator (o : Operator) : Spells o.text.toList (.operator o)
  | punct (p : Punct) : Spells p.text.toList (.punct p)

/-- Whether no spelling is longer than the one in front of a rest. -/
def Longest (w rest : List Char) : Prop :=
  ∀ v k, Spells v k → v <+: w ++ rest → v.length ≤ w.length

/-- Whether a token stands clear of what follows: no word begins directly
behind a number. -/
def Clear (k : Token.Kind) (rest : List Char) : Prop :=
  ∀ x, k = .number x → ∀ c ∈ rest.head?, ¬ Inner c

/-- The tokens that a text, which begins at an offset of a file, splits
into. -/
inductive Splits (file : FileId) : Nat → List Char → List Token → Prop
  | done {offset : Nat} : Splits file offset [] [.endOfInput file offset]
  | space {offset : Nat} {c : Char} {cs : List Char} {ts : List Token}
      (hc : Space c) (h : Splits file (offset + c.utf8Size) cs ts) :
      Splits file offset (c :: cs) ts
  | token {offset : Nat} {w rest : List Char} {k : Token.Kind}
      {ts : List Token} (hw : Spells w k) (hlongest : Longest w rest)
      (hclear : Clear k rest)
      (h : Splits file (offset + Text.byteLength w) rest ts) :
      Splits file offset (w ++ rest)
        (⟨k, String.ofList w, ⟨file, offset, Text.byteLength w⟩⟩ :: ts)

end Spelling

end Script
