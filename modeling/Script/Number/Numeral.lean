/-
Numerals: the written form of a number literal, in the parts that a
reader tells apart, and the double it stands for (the nearest one, of
two equally near ones the one with the even mantissa).
-/

namespace Script.Number

/-- A written number: whole digits, digits after the point, and the
exponent as its sign and digits. An absent part is empty or `none`. -/
structure Numeral where
  whole : List Char
  fraction : List Char
  exponent : Option (Bool × List Char)
deriving DecidableEq, Repr

/-- The number that decimal digits stand for. -/
def ofDigits (ds : List Char) : Nat :=
  ds.foldl (fun n d => 10 * n + (d.toNat - '0'.toNat)) 0

/-- The power of ten that a numeral's digits, point left out, are
multiplied with. -/
def Numeral.scale (n : Numeral) : Int :=
  let e : Int :=
    match n.exponent with
    | none => 0
    | some (negative, ds) =>
        if negative then -(ofDigits ds : Int) else ofDigits ds
  e - n.fraction.length

/-- The double that a numeral stands for; beyond the largest one,
infinity. -/
def Numeral.value (n : Numeral) : Float :=
  let e := n.scale
  Float.ofScientific (ofDigits (n.whole ++ n.fraction)) (e < 0) e.natAbs

example : Numeral.value ⟨['1'], ['5'], some (true, ['3'])⟩ = 0.0015 := by
  decide +kernel

end Script.Number
