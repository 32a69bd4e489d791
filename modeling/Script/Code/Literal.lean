/-
The check of literal operands. An operator whose operands are written
down can be tried out ahead; if it fails, the program is refused. A zero
written as a divisor is refused whatever it divides.
-/
import Script.Code.Fault

namespace Script

/-- The value of a literal, parentheses aside. -/
def Expr.literal? (e : Expr) : Option Value :=
  match e.ungroup with
  | .number _ x => some (.number x)
  | .string _ s => some (.string s)
  | .bool _ b => some (.bool b)
  | .nil _ => some .nil
  | _ => none

/-- Whether an expression is a zero as it is written. -/
def Expr.isZero (e : Expr) : Bool :=
  match e.ungroup with
  | .number _ x => x == 0.0
  | _ => false

namespace Code

/-- The fault that an operator with a literal operand must lead to. -/
def unaryFault? (op : UnaryOp) (e : Expr) : Option OperandFault :=
  match e.literal?.map op.apply with
  | some (.error f) => some f
  | _ => none

/-- The fault that an operator must lead to by what is written of its
operands. -/
def binaryFault? (op : BinaryOp) (l r : Expr) : Option OperandFault :=
  if (op = .div ∨ op = .rem) ∧ r.isZero then some (.zeroDivisor op)
  else
    match l.literal?, r.literal? with
    | some v, some w =>
        match op.apply v w with
        | .error f => some f
        | .ok _ => none
    | _, _ => none

end Code

/-- Literals are the expressions that have a value as they are
written. -/
theorem Expr.isSome_literal? (e : Expr) :
    e.literal?.isSome = e.isLiteral := by
  rw [← Expr.isLiteral_ungroup]
  unfold Expr.literal?
  have hne : ∀ (s : Span) (i : Expr), e.ungroup ≠ .group s i := by
    intro s i
    fun_induction Expr.ungroup e with
    | case1 _ e ih => exact ih
    | case2 e h => exact fun he => h s i he
  cases h : e.ungroup <;> simp [Expr.isLiteral]
  exact (hne _ _ h).elim

end Script
