/-
The shortest decimal that reads back as a given double.

Every double owns the interval of reals that round to it; the ends
belong to it when its mantissa is even. Among the decimals in that
interval the shortest is found by trying the grids of multiples of
10 ^ k from coarse to fine: on each grid only the two neighbours of the
value can be the nearest, and the first grid with a hit wins. Of two
hits the nearer wins, and of two equally near ones the larger.
-/
import Script.Number.Parts

namespace Script.Number

/-- The decimal `digits * 10 ^ exponent`. -/
structure Decimal where
  digits : Nat
  exponent : Int
deriving DecidableEq, Repr

/-- The reals that round to one double, each bound a numerator over the
denominator `unit`. -/
structure Interval where
  low : Nat
  value : Nat
  high : Nat
  unit : Nat
  closed : Bool

/-- The interval of `m * 2 ^ q`. It reaches half way to both
neighbours; below a power of two the neighbour is nearer. -/
def Interval.of (m : Nat) (q : Int) : Interval :=
  let below := if m = 1 <<< 52 ∧ -1074 < q then 1 else 2
  let scale := 1 <<< (q - 2).toNat
  { low := (4 * m - below) * scale
    value := 4 * m * scale
    high := (4 * m + 2) * scale
    unit := 1 <<< (2 - q).toNat
    closed := m % 2 == 0 }

/-- Whether `d * 10 ^ k` lies in the interval. -/
def Interval.holds (i : Interval) (k : Int) (d : Nat) : Bool :=
  let point := d * (i.unit * Nat.pow 10 k.toNat)
  let scale := Nat.pow 10 (-k).toNat
  if i.closed then i.low * scale ≤ point && point ≤ i.high * scale
  else i.low * scale < point && point < i.high * scale

/-- The multiple of `10 ^ k` in the interval that is nearest to its
value, the larger one of two. -/
def Interval.onGrid? (i : Interval) (k : Int) : Option Decimal :=
  let step := i.unit * Nat.pow 10 k.toNat
  let value := i.value * Nat.pow 10 (-k).toNat
  let down := value / step
  let nearer := value - down * step < (down + 1) * step - value
  if i.holds k down && (nearer || !i.holds k (down + 1)) then
    some ⟨down, k⟩
  else if i.holds k (down + 1) then some ⟨down + 1, k⟩
  else none

/-- The exponent `e` with `10 ^ (e - 1) ≤ num / den < 10 ^ e`. -/
def decimalExponent (num den : Nat) : Int :=
  let width (n : Nat) : Int := (Nat.toDigits 10 n).length
  if den ≤ num then width (num / den) else 1 - width ((den - 1) / num)

/-- A decimal with a trailing zero of its digits moved into the
exponent. -/
def Decimal.dropZero (d : Decimal) : Decimal :=
  if d.digits % 10 = 0 then ⟨d.digits / 10, d.exponent + 1⟩ else d

/-- The shortest decimal that rounds to `m * 2 ^ q`, for a positive
mantissa below 2 ^ 53. Seventeen digits always suffice. -/
def shortest (m : Nat) (q : Int) : Decimal :=
  let i := Interval.of m q
  let e := decimalExponent i.value i.unit
  let found :=
    (List.range 17).findSome? fun (n : Nat) => i.onGrid? (e - 1 - n)
  (found.getD ⟨m, q⟩).dropZero

example : (shortest 1 (-1074), shortest (1 <<< 52) (-77)) =
    (⟨5, -324⟩, ⟨29802322387695313, -24⟩) := by
  decide +kernel

/-- What the search returns lies in the interval: it reads back as the
double it was made from. -/
theorem Interval.holds_of_onGrid? {i : Interval} {k : Int} {d : Decimal}
    (h : i.onGrid? k = some d) :
    d.exponent = k ∧ i.holds k d.digits = true := by
  simp only [Interval.onGrid?] at h
  split at h
  · rename_i hin
    obtain rfl := Option.some.inj h
    exact ⟨rfl, (Bool.and_eq_true_iff.1 hin).1⟩
  · split at h
    · rename_i hin
      obtain rfl := Option.some.inj h
      exact ⟨rfl, hin⟩
    · simp at h

end Script.Number
