/-
The text of a number. Numbers are written positionally, with the
shortest digits that read back and never an exponent, whole numbers
without a fraction. Programs see zero without its sign; token listings
show what was read, sign and all.
-/
import Script.Number.Shortest

namespace Script.Number

/-- The digits of a decimal in positional notation. -/
def Decimal.positional (d : Decimal) : List Char :=
  let ds := Nat.toDigits 10 d.digits
  if 0 ≤ d.exponent then ds ++ List.replicate d.exponent.toNat '0'
  else
    let places := (-d.exponent).toNat
    if places < ds.length then
      ds.take (ds.length - places) ++ '.' :: ds.drop (ds.length - places)
    else '0' :: '.' :: (List.replicate (places - ds.length) '0' ++ ds)

/-- A number in full: shortest digits, no exponent, signed zeros. -/
def full (x : Float) : String :=
  match parts x with
  | .nan => "NaN"
  | .infinite negative => if negative then "-inf" else "inf"
  | .finite negative m q =>
      let digits :=
        if m = 0 then ['0'] else (shortest m q).positional
      String.ofList (if negative then '-' :: digits else digits)

/-- A number as programs print it: like `full`, but zero has no
sign. -/
def text (x : Float) : String :=
  if x == 0.0 then "0" else full x

example : (text (-0.0), full (-0.0), text 1e21, text 1e-7, text 12.5) =
    ("0", "-0", "1000000000000000000000", "0.0000001", "12.5") := by
  decide +kernel

end Script.Number
