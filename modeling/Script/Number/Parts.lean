/-
A double taken apart and put together. A finite double is a sign, a
mantissa below 2 ^ 53 and a power of two not below 2 ^ -1074; the exact
algorithms on numbers (decimal text, remainder) work on these parts in
natural arithmetic.
-/

namespace Script.Number

/-- What a double is: not a number, an infinity, or a sign and
`mantissa * 2 ^ exponent`. -/
inductive Parts where
  | nan
  | infinite (negative : Bool)
  | finite (negative : Bool) (mantissa : Nat) (exponent : Int)
deriving DecidableEq, Repr

/-- Takes a double apart. -/
def parts (x : Float) : Parts :=
  let bits := x.toBits.toNat
  let negative := decide (1 <<< 63 ≤ bits)
  let biased : Nat := bits >>> 52 % (1 <<< 11)
  let fraction : Nat := bits % (1 <<< 52)
  if biased + 1 = 1 <<< 11 then
    if fraction = 0 then .infinite negative else .nan
  else if biased = 0 then .finite negative fraction (-1074)
  else .finite negative (1 <<< 52 + fraction) ((biased : Int) - 1075)

/-- Puts `mantissa * 2 ^ exponent` together. The result is exact when
the mantissa is below 2 ^ 53 and the exponent between -1074 and 971. -/
def assemble (negative : Bool) (mantissa : Nat) (exponent : Int) : Float :=
  let shift := min (52 - mantissa.log2) (exponent + 1074).toNat
  let m := mantissa <<< shift
  let e := exponent - shift
  let magnitude :=
    if m < 1 <<< 52 then m
    else (e + 1075).toNat <<< 52 + (m - 1 <<< 52)
  Float.ofBits <| UInt64.ofNat <|
    (if negative then 1 <<< 63 else 0) + magnitude

/-- A finite double's mantissa fits in 53 bits. -/
theorem mantissa_lt_of_parts {x : Float} {s : Bool} {m : Nat} {q : Int}
    (h : parts x = .finite s m q) : m < 1 <<< 53 := by
  simp only [parts] at h
  split at h
  · split at h <;> simp at h
  · have := Nat.mod_lt x.toBits.toNat (show 0 < 1 <<< 52 by decide)
    split at h <;> simp only [Parts.finite.injEq] at h <;> omega

/-- A finite double's exponent is at least that of the smallest
positive double. -/
theorem exponent_ge_of_parts {x : Float} {s : Bool} {m : Nat} {q : Int}
    (h : parts x = .finite s m q) : -1074 ≤ q := by
  simp only [parts] at h
  split at h
  · split at h <;> simp at h
  · split at h <;> simp only [Parts.finite.injEq] at h <;> omega

end Script.Number
