/-
Operators on literals. Evaluating one comes to what the operator does to
the values that are written: if it does not apply to them, evaluation ends
with that fault, unless a limit ends it first. Making code tries the same
operator on the same values, and so refuses the same operands with the
same words.

There is one difference. A zero that is written as a divisor is refused
before anything is tried, so that it is found behind any dividend; where
the dividend is a literal as well, and no number, evaluation has the types
of the operands to complain of.
-/
import Script.Code.Emit
import Script.Proofs.Budget.Sessions
import Script.Proofs.Upholds

namespace Script

open Script.Action Eval

variable {limits : Limits} {fuel : Nat} {place : Place} {span : Span}
  {e l r : Expr} {u v w : Value} {f : OperandFault}

-- ========================================================== evaluation

/-- Nothing to say of a state. -/
def Eval.Machine.Any (_ : Machine) : Prop := True

/-- What may end a run: a limit, or else the fault of an operator that
stands at a span. -/
def Eval.Stop.Operand (span : Span) (outcome : Except OperandFault Value)
    (stop : Stop) (_ : Machine) : Prop :=
  Session.Spent stop
    ∨ ∃ f, outcome = .error f ∧ stop = .fault (.operands f) span

section

variable {E : Stop → Machine → Prop}

/-- Counting a step can only run into the limit. -/
theorem Eval.tick_upholds (hE : ∀ stop m, Session.Spent stop → E stop m)
    (limits : Limits) (span : Span) :
    Upholds Machine.Any E (fun _ => True) (Run.tick limits span) := by
  unfold Run.tick
  refine .bind (.modify fun _ _ => trivial) ?_
  intro _ _
  cases limits.steps with
  | none => exact .pure trivial
  | some limit =>
      apply Upholds.get_bind
      intro s _
      apply Upholds.ite
      · intro _
        exact .throw fun m _ => hE _ m (.limit rfl)
      · intro _
        exact .pure trivial

/-- A literal evaluates to the value that is written, whatever number of
parentheses is around it. -/
theorem Eval.eval_literal (hE : ∀ stop m, Session.Spent stop → E stop m)
    (hv : e.literal? = some v) :
    Upholds Machine.Any E (· = v) (eval limits fuel place e) := by
  induction fuel generalizing e with
  | zero => exact .throw fun m _ => hE _ m .starved
  | succ n ih =>
      unfold eval
      apply Upholds.bind (tick_upholds hE limits e.span)
      intro _ _
      cases e with
      | number _ x => exact .pure (Option.some.inj hv)
      | string _ s => exact .pure (Option.some.inj hv)
      | bool _ b => exact .pure (Option.some.inj hv)
      | nil _ => exact .pure (Option.some.inj hv)
      | group _ inner => exact ih hv
      | ident | unary | binary | assign | call => cases hv

end

/-- The outcome of an operator is its value, or ends the run. -/
theorem Eval.operation_upholds (span : Span)
    (outcome : Except OperandFault Value) :
    Upholds Machine.Any (Stop.Operand span outcome) (fun _ => True)
      (Run.operation span outcome) := by
  cases outcome with
  | ok v => exact .pure trivial
  | error f => exact .throw fun _ _ => .inr ⟨f, rfl, rfl⟩

/-- An operator on one literal. -/
theorem Eval.eval_unary {op : UnaryOp} (hv : e.literal? = some v) :
    Upholds Machine.Any (Stop.Operand span (op.apply v)) (fun _ => True)
      (eval limits fuel place (.unary span op e)) := by
  have hspent : ∀ stop m, Session.Spent stop →
      Stop.Operand span (op.apply v) stop m := fun _ _ h => .inl h
  cases fuel with
  | zero => exact .throw fun m _ => hspent _ m .starved
  | succ n =>
      unfold eval
      apply Upholds.bind (tick_upholds hspent limits _)
      intro _ _
      apply Upholds.bind (eval_literal hspent hv)
      rintro _ rfl
      exact operation_upholds span _

/-- An operator on two literals, which evaluates both. -/
theorem Eval.eval_binary {op : BinaryOp} (hop : op.isShortCircuit = false)
    (hv : l.literal? = some v) (hw : r.literal? = some w) :
    Upholds Machine.Any (Stop.Operand span (op.apply v w)) (fun _ => True)
      (eval limits fuel place (.binary span op l r)) := by
  have hspent : ∀ stop m, Session.Spent stop →
      Stop.Operand span (op.apply v w) stop m := fun _ _ h => .inl h
  cases fuel with
  | zero => exact .throw fun m _ => hspent _ m .starved
  | succ n =>
      unfold eval
      apply Upholds.bind (tick_upholds hspent limits _)
      intro _ _
      apply Upholds.bind (eval_literal hspent hv)
      rintro _ rfl
      simp only [hop]
      apply Upholds.bind (eval_literal hspent hw)
      rintro _ rfl
      exact operation_upholds span _

-- ================================================================ code

namespace Code

variable {start : Nat} {s : Emission}

/-- An operator on one literal is refused if it does not apply. -/
theorem exprCode_unary {op : UnaryOp} (hv : e.literal? = some v)
    (hf : op.apply v = .error f) :
    exprCode start (.unary span op e) s
      = .error ((Fault.operands f).report.at span) s := by
  have hfault : unaryFault? op e = some f := by
    unfold unaryFault?
    rw [hv, Option.map_some, hf]
  unfold exprCode
  rw [hfault]
  exact bind_of_error rfl _

/-- The check of an operator that evaluates both of its operands. -/
theorem exprCode_binary {op : BinaryOp} (hop : op.isShortCircuit = false)
    (hf : binaryFault? op l r = some f) :
    exprCode start (.binary span op l r) s
      = .error ((Fault.operands f).report.at span) s := by
  have hchecked : exprCode start (.binary span op l r) = do
      refuseAny span (binaryFault? op l r)
      let left ← exprCode start l
      let right ← exprCode (start + left.length) r
      return left ++ right ++ [.binary op] := by
    cases op with
    | and => cases hop
    | or => cases hop
    | _ => rw [exprCode] <;> rintro ⟨⟩
  rw [hchecked, hf]
  exact bind_of_error rfl _

end Code

/-- A divisor that is written as zero is a number. -/
theorem Expr.literal?_of_isZero (h : r.isZero = true) :
    ∃ x, r.literal? = some (.number x) ∧ (x == 0.0) = true := by
  unfold Expr.isZero at h
  unfold Expr.literal?
  split at h
  case h_1 x heq =>
      rw [heq]
      exact ⟨x, rfl, h⟩
  case h_2 => cases h

/-- Between numbers, a zero divisor is the fault that evaluation finds. -/
theorem BinaryOp.apply_zero {op : BinaryOp} {x y : Float}
    (hop : op = .div ∨ op = .rem) (hy : (y == 0.0) = true) :
    op.apply (.number x) (.number y) = .error (.zeroDivisor op) := by
  rcases hop with rfl | rfl
  · show (if y == 0.0 then _ else _) = _
    rw [if_pos hy]
  · show (if y == 0.0 then _ else _) = _
    rw [if_pos hy]

-- ============================================================ operands

/-- An operator that evaluates all of its operands, with literals for
these. -/
inductive Expr.OnLiterals : Expr → Prop
  | unary {span : Span} {op : UnaryOp} {e : Expr}
      (he : e.isLiteral = true) : OnLiterals (.unary span op e)
  | binary {span : Span} {op : BinaryOp} {l r : Expr}
      (hop : op.isShortCircuit = false) (hl : l.isLiteral = true)
      (hr : r.isLiteral = true) : OnLiterals (.binary span op l r)

/-- A literal that is no number, divided by a literal zero. -/
inductive Expr.DividedByZero : BinaryOp → Expr → Prop
  | intro {span : Span} {op : BinaryOp} {l r : Expr} {v : Value}
      (hop : op = .div ∨ op = .rem) (hl : l.literal? = some v)
      (hv : v.type ≠ .number) (hr : r.isZero = true) :
      DividedByZero op (.binary span op l r)

theorem Expr.exists_literal (h : e.isLiteral = true) :
    ∃ v, e.literal? = some v :=
  Option.isSome_iff_exists.1 (e.isSome_literal?.trans h)

/-- The fault that the check of two literals finds: the one that
evaluation ends with, but for zeros that divide no number. -/
theorem Code.binaryFault?_of_error {op : BinaryOp} (span : Span)
    (hv : l.literal? = some v) (hw : r.literal? = some w)
    (hf : op.apply v w = .error f) :
    binaryFault? op l r = some f
        ∧ (∀ o, ¬ Expr.DividedByZero o (.binary span op l r))
      ∨ binaryFault? op l r = some (.zeroDivisor op)
        ∧ Expr.DividedByZero op (.binary span op l r) := by
  unfold binaryFault?
  by_cases hzero : (op = .div ∨ op = .rem) ∧ r.isZero = true
  · rw [if_pos hzero]
    obtain ⟨hop, hr⟩ := hzero
    by_cases htype : v.type = .number
    · left
      obtain ⟨y, hy, hy0⟩ := Expr.literal?_of_isZero hr
      obtain rfl : w = .number y := Option.some.inj (hw.symm.trans hy)
      cases v with
      | number x =>
          rw [BinaryOp.apply_zero hop hy0] at hf
          cases hf
          refine ⟨rfl, ?_⟩
          rintro _ ⟨-, hl, hv', -⟩
          rw [hv] at hl
          cases hl
          exact hv' rfl
      | _ => cases htype
    · right
      exact ⟨rfl, .intro hop hv htype hr⟩
  · left
    rw [if_neg hzero, hv, hw]
    dsimp only
    rw [hf]
    refine ⟨rfl, ?_⟩
    rintro _ ⟨hop, -, -, hr⟩
    exact hzero ⟨hop, hr⟩

/-- Operators on literals that evaluation rejects for their operands are
refused when code is made, at the same place, as the same kind of error
and with the same words; only a zero that divides a literal which is no
number is refused as a zero. -/
theorem Expr.OnLiterals.refused (he : e.OnLiterals) {m m' : Machine}
    {fault : Eval.Fault}
    (hrun : eval limits fuel place e m = .error (.fault fault span) m')
    (hfault : fault.topic = .type ∨ fault.topic = .arithmetic)
    (start : Nat) (s : Code.Emission) :
    ∃ d : Diagnostic, Code.exprCode start e s = .error d s
      ∧ d.isError = true ∧ d.span = span
      ∧ ((∀ op, ¬ DividedByZero op e) →
          d.topic = fault.topic ∧ d.message = fault.message)
      ∧ ∀ op, DividedByZero op e →
          d.topic = .arithmetic
            ∧ d.message = (OperandFault.zeroDivisor op).message := by
  -- a limit is another kind of error
  have hlimit : ¬ Session.Spent (.fault fault span) := by
    intro hspent
    cases hspent with
    | limit hlimit =>
        rw [hlimit] at hfault
        rcases hfault with h | h <;> cases h
  cases he with
  | @unary at_ op e hlit =>
      obtain ⟨v, hv⟩ := exists_literal hlit
      obtain ⟨-, hstop⟩ := (eval_unary hv).of_error trivial hrun
      rcases hstop with hspent | ⟨f, hf, hstop⟩
      · exact absurd hspent hlimit
      · cases hstop
        refine ⟨_, Code.exprCode_unary hv hf, rfl, rfl, ?_, ?_⟩
        · intro _
          exact ⟨rfl, rfl⟩
        · rintro _ ⟨⟩
  | @binary at_ op l r hop hl hr =>
      obtain ⟨v, hv⟩ := exists_literal hl
      obtain ⟨w, hw⟩ := exists_literal hr
      obtain ⟨-, hstop⟩ := (eval_binary hop hv hw).of_error trivial hrun
      rcases hstop with hspent | ⟨f, hf, hstop⟩
      · exact absurd hspent hlimit
      · cases hstop
        rcases Code.binaryFault?_of_error span hv hw hf with
          ⟨hchecked, hnone⟩ | ⟨hchecked, hzero⟩
        · refine ⟨_, Code.exprCode_binary hop hchecked, rfl, rfl, ?_, ?_⟩
          · intro _
            exact ⟨rfl, rfl⟩
          · intro o ho
            exact absurd ho (hnone o)
        · refine ⟨_, Code.exprCode_binary hop hchecked, rfl, rfl, ?_, ?_⟩
          · intro hnone
            exact absurd hzero (hnone op)
          · rintro _ ⟨⟩
            exact ⟨rfl, rfl⟩

/-- A comparison of a number with a string in parentheses. -/
theorem Expr.comparison_refused :
    let e : Expr := .binary ⟨0, 0, 9⟩ .lt (.number ⟨0, 0, 1⟩ 1)
      (.group ⟨0, 4, 5⟩ (.string ⟨0, 5, 3⟩ "a"))
    ∃ fault span m' d,
      eval .standard 5 ⟨0, 0⟩ e ⟨.root, .unlimited, 0⟩
          = .error (.fault fault span) m'
        ∧ fault.message = "cannot apply '<' to number and string"
        ∧ Code.exprCode 0 e .start = .error d .start
        ∧ d.topic = .type ∧ d.span = span ∧ d.message = fault.message := by
  intro e
  have hrun : eval .standard 5 ⟨0, 0⟩ e ⟨.root, .unlimited, 0⟩
      = .error (.fault (.operands (.two .lt .number .string)) ⟨0, 0, 9⟩)
        ⟨.root, .unlimited, 4⟩ := by rfl
  obtain ⟨d, hd, -, hspan, hsame, -⟩ :=
    OnLiterals.refused (.binary rfl rfl rfl) hrun (.inl rfl) 0 .start
  have hnone : ∀ op, ¬ DividedByZero op e := by
    intro op hzero
    change DividedByZero op (.binary ..) at hzero
    obtain ⟨hop, -⟩ := hzero
    rcases hop with h | h <;> cases h
  obtain ⟨htopic, hmessage⟩ := hsame hnone
  exact ⟨_, _, _, d, hrun, by decide +kernel, hd, htopic, hspan, hmessage⟩

/-- Zeros that divide no number, and operators that may leave their right
operand alone: what evaluation says about a text, and what is said when
code is made of it. -/
theorem Expr.literals_refused_otherwise :
    let run (text : String) :=
      (Session.fresh.run .standard 0 (Program.ofText 0 text).1
        .unlimited).1.diagnostics.map fun d => (d.topic, d.message)
    let made (text : String) :=
      (Code.ofProgram (Program.ofText 0 text).1).2.map fun d =>
        (d.topic, d.message)
    run "\"a\" / 0" = [(.type, "cannot apply '/' to string and number")]
      ∧ made "\"a\" / 0" = [(.arithmetic, "division by zero")]
      ∧ run "1 && true"
        = [(.type, "operand of '&&' must be a bool, found number")]
      ∧ made "1 && true" = [] := by
  decide +kernel

end Script
