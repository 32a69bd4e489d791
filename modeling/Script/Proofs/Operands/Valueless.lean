/-
Refused expressions have no value. An operator is refused because of a
literal: it was tried on the literals that are all of its operands, or its
divisor is written as a zero. A call is refused because its callee is a
literal. Whatever else stands in such an expression, evaluating it may
call functions and change variables, but if it comes to the operator or
the call at all, the literal has the value that is written, and the run
ends there. So no program is refused for an expression that could have
been evaluated.
-/
import Script.Proofs.Complaints.Raised
import Script.Proofs.Operands.Refused

namespace Script

open Script.Action Eval

variable {limits : Limits} {fuel : Nat} {place : Place} {span : Span}
  {e l r : Expr} {d : Diagnostic} {v : Value}

-- =========================================================== evaluation

/-- An action that never yields a value, whatever it starts with. -/
abbrev Eval.Barren {α : Type} (x : Run α) : Prop :=
  Upholds Machine.Any (fun _ _ => True) (fun _ => False) x

namespace Eval

/-- Nothing is known of what an action does. -/
theorem upholds_any {α : Type} (x : Run α) :
    Upholds Machine.Any (fun _ _ => True) (fun _ => True) x := by
  intro m _
  cases x m <;> exact ⟨trivial, trivial⟩

theorem Barren.fail {α : Type} (f : Fault) (span : Span) :
    Barren (Run.fail f span : Run α) :=
  .throw fun _ _ => trivial

theorem Barren.operation {outcome : Except OperandFault Value}
    {f : OperandFault} (h : outcome = .error f) :
    Barren (Run.operation span outcome) :=
  h ▸ Barren.fail (.operands f) span

/-- A barren expression is one in which nothing that comes behind the
counting of the step yields a value. -/
theorem Barren.behind_tick {x : Run Value} (h : Barren x) :
    Barren (do Run.tick limits span; x) :=
  Upholds.bind (upholds_any _) fun _ _ => h

end Eval

/-- A zero divides nothing, number or not. -/
theorem BinaryOp.apply_zeroDivisor {op : BinaryOp} {y : Float}
    (hop : op = .div ∨ op = .rem) (hy : (y == 0.0) = true) (v : Value) :
    ∃ f, op.apply v (.number y) = .error f := by
  cases v with
  | number x => exact ⟨_, apply_zero hop hy⟩
  | _ => rcases hop with rfl | rfl <;> exact ⟨_, rfl⟩

/-- No function is written as a literal. -/
theorem Expr.literal?_ne_function (hv : e.literal? = some v)
    (c : Closure) : v ≠ .function c := by
  rintro rfl
  unfold Expr.literal? at hv
  split at hv <;> cases hv

/-- An operator that is refused for a literal operand. -/
theorem Eval.unary_barren {op : UnaryOp} {f : OperandFault}
    (hf : Code.unaryFault? op e = some f) :
    Barren (eval limits fuel place (.unary span op e)) := by
  obtain ⟨v, hv, happly⟩ : ∃ v, e.literal? = some v
      ∧ op.apply v = .error f := by
    unfold Code.unaryFault? at hf
    split at hf
    case h_1 g heq =>
        cases hf
        obtain ⟨v, hv, happly⟩ := Option.map_eq_some_iff.1 heq
        exact ⟨v, hv, happly⟩
    case h_2 => cases hf
  cases fuel with
  | zero => exact .throw fun _ _ => trivial
  | succ n =>
      unfold eval
      refine Barren.behind_tick (Upholds.bind
        (eval_literal (fun _ _ _ => trivial) hv) ?_)
      rintro _ rfl
      exact Barren.operation happly

/-- An operator that is refused for what is written of its operands. The
left operand of a written zero may be anything. -/
theorem Eval.binary_barren {op : BinaryOp} {f : OperandFault}
    (hop : op.isShortCircuit = false)
    (hf : Code.binaryFault? op l r = some f) :
    Barren (eval limits fuel place (.binary span op l r)) := by
  -- What is left to be shown: the operator fails on whatever the operands
  -- yield.
  have hfails {Q R : Value → Prop}
      (hl : ∀ n, Upholds Machine.Any (fun _ _ => True) Q
        (eval limits n place l))
      (hr : ∀ n, Upholds Machine.Any (fun _ _ => True) R
        (eval limits n place r))
      (happly : ∀ v w, Q v → R w → ∃ g, op.apply v w = .error g) :
      Barren (eval limits fuel place (.binary span op l r)) := by
    cases fuel with
    | zero => exact .throw fun _ _ => trivial
    | succ n =>
        unfold eval
        refine Barren.behind_tick (Upholds.bind (hl n) fun v hv => ?_)
        simp only [hop]
        refine Upholds.bind (hr n) fun w hw => ?_
        obtain ⟨g, hg⟩ := happly v w hv hw
        exact Barren.operation hg
  unfold Code.binaryFault? at hf
  split at hf
  case isTrue hzero =>
      obtain ⟨hdiv, hr⟩ := hzero
      obtain ⟨y, hy, hy0⟩ := Expr.literal?_of_isZero hr
      refine hfails (fun n => upholds_any _)
        (fun n => eval_literal (fun _ _ _ => trivial) hy) ?_
      rintro v _ - rfl
      exact BinaryOp.apply_zeroDivisor hdiv hy0 v
  case isFalse =>
      split at hf
      case h_1 v w hv hw =>
          refine hfails (fun n => eval_literal (fun _ _ _ => trivial) hv)
            (fun n => eval_literal (fun _ _ _ => trivial) hw) ?_
          intro v' w' hv' hw'
          rw [hv', hw']
          cases happly : op.apply v w with
          | ok u =>
              rw [happly] at hf
              cases hf
          | error g => exact ⟨g, rfl⟩
      case h_2 => cases hf

/-- A call of a literal. -/
theorem Eval.call_barren {args : List Expr} (h : e.isLiteral = true) :
    Barren (eval limits fuel place (.call span e args)) := by
  obtain ⟨v, hv⟩ := Expr.exists_literal h
  cases fuel with
  | zero => exact .throw fun _ _ => trivial
  | succ n =>
      unfold eval
      refine Barren.behind_tick (Upholds.bind
        (eval_literal (fun _ _ _ => trivial) hv) ?_)
      rintro _ rfl
      apply Upholds.bind_of_never
      unfold callable
      split
      · exact absurd rfl (Expr.literal?_ne_function hv _)
      · exact Barren.fail _ _

/-- An expression that is refused never has a value. -/
theorem Eval.refused_barren (h : e.refusal? = some d) :
    Barren (eval limits fuel place e) := by
  cases Expr.refused_of_refusal? h with
  | unary hf => exact unary_barren hf
  | binary hop hf => exact binary_barren hop hf
  | call hcallee => exact call_barren hcallee

-- ================================================================= code

/-- Making code for an expression that is refused ends there, before any
of its parts is looked at. -/
theorem Code.exprCode_of_refusal (h : e.refusal? = some d) (start : Nat)
    (s : Emission) : exprCode start e s = .error d s := by
  cases Expr.refused_of_refusal? h with
  | unary hf =>
      unfold exprCode
      rw [hf]
      exact bind_of_error rfl _
  | binary hop hf => exact exprCode_binary hop hf
  | call hcallee =>
      unfold exprCode
      rw [if_pos hcallee]
      exact bind_of_error rfl _

/-- The errors for which expressions are refused. -/
def Diagnostic.IsRefusal (d : Diagnostic) : Prop :=
  d.code = some "E0503" ∨ d.code = some "E0504"

theorem Code.Fault.not_isRefusal {f : Fault}
    (hoperands : ∀ g, f ≠ .operands g) (hcall : f ≠ .literalCall) :
    ¬(f.report.at span).IsRefusal := by
  cases f with
  | operands g => exact absurd rfl (hoperands g)
  | literalCall => exact absurd rfl hcall
  | _ => simp [Diagnostic.IsRefusal, report, Report.at]

/-- Where a program is refused for its operands or a callee, there is an
expression in it that is refused, and no such expression ever has a
value: evaluating it in any state, under any limits and with any output
ends with an error, or does not end. -/
theorem Program.refused_without_value {p : Program}
    (hd : d ∈ (Code.ofProgram p).2) (hrefusal : d.IsRefusal) :
    (∃ e ∈ p.expressions, e.refusal? = some d
        ∧ ∀ start s, Code.exprCode start e s = .error d s)
      ∧ ∀ e ∈ p.expressions, e.refusal? = some d →
        ∀ limits fuel place m, ∃ stop m',
          eval limits fuel place e m = .error stop m' := by
  constructor
  · have hraised : d.IsRefusal → ∃ e ∈ p.expressions,
        e.refusal? = some d := by
      refine Code.ofProgram_raised (P := fun d => d.IsRefusal →
        ∃ e ∈ p.expressions, e.refusal? = some d) ?_ ?_ d hd
      · intro e he d hraises hrefusal
        cases hraises with
        | refused h => exact ⟨e, he, h⟩
        | _ => exact absurd hrefusal (Code.Fault.not_isRefusal nofun nofun)
      · intro s _ hrefusal
        exact absurd hrefusal (Code.Fault.not_isRefusal nofun nofun)
    obtain ⟨e, he, hrefused⟩ := hraised hrefusal
    exact ⟨e, he, hrefused, Code.exprCode_of_refusal hrefused⟩
  · intro e _ hrefused limits fuel place m
    cases hrun : eval limits fuel place e m with
    | ok v m' =>
        exact ((refused_barren hrefused).of_ok trivial hrun).2.elim
    | error stop m' => exact ⟨stop, m', rfl⟩

/-- A zero in parentheses that divides what a call of a function with
effects of its own yields. -/
theorem Program.refused_without_value_of_call :
    let text := "let n = 8;
      fn f(k) \x7b n = n - k; print n; return n; \x7d
      if true \x7b f(1) / (0); \x7d"
    let p := (ofText 0 text).1
    let d := (Code.Fault.operands (.zeroDivisor .div)).report.at ⟨0, 75, 10⟩
    d ∈ (Code.ofProgram p).2 ∧ d.IsRefusal
      ∧ ∃ e ∈ p.expressions, e.refusal? = some d
        ∧ ∀ limits fuel place m, ∃ stop m',
          eval limits fuel place e m = .error stop m' := by
  intro text p d
  have hd : d ∈ (Code.ofProgram p).2 := by decide +kernel
  have hrefusal : d.IsRefusal := .inr rfl
  obtain ⟨⟨e, he, hrefused, -⟩, hnever⟩ :=
    refused_without_value hd hrefusal
  exact ⟨hd, hrefusal, e, he, hrefused, hnever e he hrefused⟩

end Script
