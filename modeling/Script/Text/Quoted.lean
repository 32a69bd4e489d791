/-
Quoted text: how a text is shown inside double quotes, so that it fits
on one line and no two texts look alike. Five characters have an escape
of their own besides the quote and the backslash, shapeless characters
are written by number in hexadecimal, and all others stand for
themselves.
-/
import Script.Text.Shapeless

namespace Script.Text

/-- A character by its number, in lower-case hexadecimal without
leading zeros: backslash, `u`, and the number in braces. -/
def byNumber (c : Char) : List Char :=
  ['\\', 'u', '\x7b'] ++ Nat.toDigits 16 c.toNat ++ ['\x7d']

/-- How one character is shown inside quotes. -/
def escape (c : Char) : List Char :=
  match c with
  | '\x00' => ['\\', '0']
  | '\t' => ['\\', 't']
  | '\r' => ['\\', 'r']
  | '\n' => ['\\', 'n']
  | '"' => ['\\', '"']
  | '\\' => ['\\', '\\']
  | c => if isShapeless c then byNumber c else [c]

/-- A text between double quotes. -/
def quoted (s : String) : String :=
  String.ofList ('"' :: s.toList.flatMap escape ++ ['"'])

example : (escape '\u0301', escape '\'', escape '\x00') =
    (['\\', 'u', '\x7b', '3', '0', '1', '\x7d'], ['\''], ['\\', '0']) := by
  decide +kernel

/-- Nothing is dropped: every character shows as something. -/
theorem escape_ne_nil (c : Char) : escape c ≠ [] := by
  unfold escape
  split <;> try simp
  split <;> simp [byNumber]

end Script.Text
