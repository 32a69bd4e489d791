/-
The remainder of a division whose quotient is rounded toward zero. It is
exact: on a common power of two both operands are whole numbers, and
what is left over has no more bits than the smaller of them.
-/
import Script.Number.Parts

namespace Script.Number

/-- `x` less the largest whole multiple of `y` that does not pass it;
the sign is that of `x`. A remainder by zero or of an infinity is not a
number, and a finite number is its own remainder by an infinity. -/
def remainder (x y : Float) : Float :=
  match parts x, parts y with
  | .finite s m e, .finite _ n f =>
      if n = 0 then 0.0 / 0.0
      else
        let g := min e f
        assemble s ((m <<< (e - g).toNat) % (n <<< (f - g).toNat)) g
  | .finite .., .infinite _ => x
  | _, _ => 0.0 / 0.0

example : remainder 7.25 2.0 = 1.25 ∧ remainder (-7.0) 3.0 = -1.0
    ∧ (remainder (-6.0) 3.0).toBits = (-0.0 : Float).toBits
    ∧ remainder 1e300 3.0 = 0.0 ∧ remainder 5e-324 1.0 = 5e-324 := by
  decide +kernel

end Script.Number
