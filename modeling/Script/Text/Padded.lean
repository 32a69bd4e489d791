/-
Texts brought to a width: columns of a listing are filled up with
spaces behind the text, numbers with zeros in front.
-/

namespace Script.Text

/-- A text with spaces behind it up to `width` characters. A longer
text stays as it is. -/
def padEnd (width : Nat) (s : String) : String :=
  s ++ String.ofList (List.replicate (width - s.length) ' ')

/-- A number in decimal with zeros in front up to `width` digits. -/
def padNumber (width n : Nat) : String :=
  let digits := Nat.toDigits 10 n
  String.ofList (List.replicate (width - digits.length) '0' ++ digits)

example : padNumber 4 17 = "0017" ∧ padEnd 4 "ab" = "ab  " := by
  decide +kernel

theorem length_padEnd (width : Nat) (s : String) :
    (padEnd width s).length = max width s.length := by
  simp [padEnd]
  omega

end Script.Text
