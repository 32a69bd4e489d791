/-
What the operators do to values. Both the evaluator and the check of
literal operands go by these rules. The two operators that may leave
their right operand alone are not among them: applied to two values they
fail whatever the values are.
-/
import Script.Diagnostic
import Script.Number.Remainder
import Script.Value

namespace Script

/-- Why an operator cannot be applied to its operands. -/
inductive OperandFault where
  | one (op : UnaryOp) (operand : ValueType)
  | two (op : BinaryOp) (left right : ValueType)
  /-- A division by zero, or the remainder of one. -/
  | zeroDivisor (op : BinaryOp)
deriving DecidableEq, Repr

/-- What a fault of operands is about. -/
def OperandFault.topic : OperandFault → Topic
  | .zeroDivisor _ => .arithmetic
  | _ => .type

/-- The wording of a fault of operands. -/
def OperandFault.message : OperandFault → String
  | .one op t => "cannot apply '" ++ op.text ++ "' to " ++ t.text
  | .two op l r =>
      "cannot apply '" ++ op.text ++ "' to " ++ l.text ++ " and " ++ r.text
  | .zeroDivisor .div => "division by zero"
  | .zeroDivisor _ => "modulo by zero"

/-- Applies an operator to one value. -/
def UnaryOp.apply : UnaryOp → Value → Except OperandFault Value
  | .negate, .number x => .ok (.number (-x))
  | .not, .bool b => .ok (.bool !b)
  | op, v => .error (.one op v.type)

/-- Applies an operator to two numbers. A comparison with something that
is not a number is false. -/
def BinaryOp.onNumbers (op : BinaryOp) (x y : Float) :
    Except OperandFault Value :=
  match op with
  | .add => .ok (.number (x + y))
  | .sub => .ok (.number (x - y))
  | .mul => .ok (.number (x * y))
  | .div =>
      if y == 0.0 then .error (.zeroDivisor .div) else .ok (.number (x / y))
  | .rem =>
      if y == 0.0 then .error (.zeroDivisor .rem)
      else .ok (.number (Number.remainder x y))
  | .lt => .ok (.bool (x < y))
  | .le => .ok (.bool (x ≤ y))
  | .gt => .ok (.bool (y < x))
  | .ge => .ok (.bool (y ≤ x))
  | op => .error (.two op .number .number)

/-- Applies an operator to two strings. The order is that of the
characters' numbers. -/
def BinaryOp.onStrings (op : BinaryOp) (s t : String) :
    Except OperandFault Value :=
  match op with
  | .add => .ok (.string (s ++ t))
  | .lt => .ok (.bool (s < t))
  | .le => .ok (.bool !(decide (t < s)))
  | .gt => .ok (.bool (t < s))
  | .ge => .ok (.bool !(decide (s < t)))
  | op => .error (.two op .string .string)

/-- Applies an operator to two values. Any two values can be compared
for being the same. -/
def BinaryOp.apply (op : BinaryOp) (l r : Value) :
    Except OperandFault Value :=
  match op with
  | .eq => .ok (.bool (l.same r))
  | .ne => .ok (.bool !(l.same r))
  | op =>
      match l, r with
      | .number x, .number y => op.onNumbers x y
      | .string s, .string t => op.onStrings s t
      | l, r => .error (.two op l.type r.type)

/-- An operator that may leave its right operand alone applies to no two
values. -/
theorem BinaryOp.apply_of_isShortCircuit {op : BinaryOp}
    (h : op.isShortCircuit = true) (l r : Value) :
    op.apply l r = .error (.two op l.type r.type) := by
  cases op <;> simp [isShortCircuit] at h <;> cases l <;> cases r <;> rfl

end Script
