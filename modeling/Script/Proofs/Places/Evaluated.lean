/-
Where a program fails while it runs. Every fault stands at a span of the
tree: of the expression or statement at hand, or of one in the body of a
function that was called. Functions are values, so this body may come out
of any variable; but all functions in the scopes are from the tree.

What is needed is only that `P` holds of all spans in the tree; the
induction is on the fuel, for expressions and statements at once.
-/
import Script.Proofs.Heap
import Script.Proofs.Reading.Spanned
import Script.Proofs.Stack.Operators
import Script.Session

namespace Script

variable (P : Span → Prop)

/-- Whether `P` holds of every span in a value's declaration, if it is a
function. -/
def Value.Spanned (v : Value) : Prop :=
  ∀ c, v = .function c → c.decl.Spanned P

/-- Whether `P` holds of every span in the functions that are bound. -/
def Heap.Spanned (h : Heap) : Prop :=
  ∀ (i : ScopeId) (s : Scope), h.scopes[i]? = some s →
    ∀ b ∈ s.bindings, b.2.Spanned P

/-- Whether `P` holds of the place of a fault. -/
def Eval.Stop.Spanned (stop : Eval.Stop) : Prop :=
  ∀ f span, stop = .fault f span → P span

/-- Whether `P` holds of every span in what a statement gives back. -/
def Eval.Flow.Spanned (flow : Eval.Flow) : Prop :=
  ∀ v, flow = .returned v → v.Spanned P

variable {P}

-- ============================================================== values

namespace Value.Spanned

variable {v : Value}

theorem of_constant (k : Code.Constant) : k.value.Spanned P := by
  cases k <;> rintro _ ⟨⟩

theorem keptIn (h : v.Spanned P) (i : ScopeId) :
    (v.keptIn i).Spanned P := by
  cases v with
  | function c =>
      intro c' hc
      simp only [Value.keptIn] at hc
      split at hc
      · cases hc
        exact h c rfl
      · cases hc
        exact h c rfl
  | _ => rintro _ ⟨⟩

theorem handedOut (h : v.Spanned P) : v.handedOut.Spanned P := by
  cases v with
  | function c =>
      rintro _ ⟨⟩
      exact h c rfl
  | _ => rintro _ ⟨⟩

end Value.Spanned

theorem Eval.Flow.Spanned.next : Eval.Flow.next.Spanned P := by
  rintro _ ⟨⟩

namespace Heap.Spanned

variable {h : Heap}

theorem root : Heap.root.Spanned P := by
  intro i s hs b hb
  have hmem : s ∈ Heap.root.scopes := Array.mem_of_getElem? hs
  rw [Array.mem_singleton.1 hmem] at hb
  cases hb

theorem define (hh : h.Spanned P) (i : ScopeId) (name : String) {v : Value}
    (hv : v.Spanned P) : (h.define i name v).Spanned P := by
  intro j s hs b hb
  by_cases hji : j = i
  · subst hji
    cases hold : h.scopes[j]? with
    | none =>
        rw [Heap.define, Heap.getElem?_update, if_pos rfl, hold] at hs
        cases hs
    | some old =>
        rw [Heap.getElem?_define_self hold] at hs
        cases hs
        rcases mem_insert hb with rfl | hmem
        · exact hv.keptIn j
        · exact hh j old hold b hmem
  · rw [Heap.getElem?_define_of_ne h hji] at hs
    exact hh j s hs b hb

theorem child (hh : h.Spanned P) (parent : ScopeId) :
    (h.child parent).2.Spanned P := by
  intro i s hs b hb
  rcases Array.mem_push.1 (Array.mem_of_getElem? hs) with hmem | rfl
  · obtain ⟨j, hj⟩ := Array.mem_iff_getElem?.1 hmem
    exact hh j s hj b hb
  · cases hb

theorem get? (hh : h.Spanned P) {i : ScopeId} {name : String} {v : Value}
    (hv : h.get? i name = some v) : v.Spanned P := by
  obtain ⟨j, -, hlookup⟩ := Option.bind_eq_some_iff.1 hv
  obtain ⟨w, hw, rfl⟩ := Option.map_eq_some_iff.1 hlookup
  obtain ⟨front, back, hbindings, -⟩ := List.lookup_eq_some_iff.1 hw
  cases hs : h.scopes[j]? with
  | none =>
      rw [Heap.bindings, hs] at hbindings
      exact absurd hbindings (by simp)
  | some s =>
      rw [Heap.bindings_eq hs] at hbindings
      have hmem : (name, w) ∈ s.bindings := by
        rw [hbindings]
        simp
      exact Value.Spanned.handedOut (hh j s hs _ hmem)

end Heap.Spanned

namespace Eval

open Script.Action

variable {α : Type} {Q : α → Prop} {limits : Limits} {place : Place}
  {span : Span}

/-- A run that keeps all functions in place, and fails in places of which
`P` holds. -/
abbrev Placed (P : Span → Prop) {α : Type} (Q : α → Prop) (x : Run α) :
    Prop :=
  Upholds (fun m => m.heap.Spanned P) (fun stop _ => stop.Spanned P) Q x

namespace Placed

theorem starved : Placed P Q (throw .starved : Run α) :=
  .throw fun _ _ => by rintro _ _ ⟨⟩

theorem fail (f : Fault) (h : P span) :
    Placed P Q (Run.fail f span : Run α) :=
  .throw fun _ _ => by
    rintro _ _ ⟨⟩
    exact h

theorem tick (h : P span) :
    Placed P (fun _ => True) (Run.tick limits span) := by
  refine Upholds.bind (Q := fun _ => True) (.modify fun _ hm => hm)
    fun _ _ => ?_
  cases limits.steps with
  | none => exact .pure trivial
  | some limit =>
      exact .get_bind fun _ _ => .ite (fun _ => fail _ h)
        fun _ => .pure trivial

theorem lookup (h : P span) (name : String) :
    Placed P (Value.Spanned P) (Run.lookup place name span) := by
  refine .get_bind fun m hm => ?_
  cases hv : m.heap.get? place.scope name with
  | none => exact fail _ h
  | some v => exact .pure (hm.get? hv)

theorem define (name : String) {v : Value} (hv : v.Spanned P) :
    Placed P (fun _ => True) (Run.define place name v) :=
  .modify fun _ hm => hm.define place.scope name hv

theorem assign {target : Ident} (h : P target.span) {v : Value}
    (hv : v.Spanned P) :
    Placed P (fun _ => True) (Run.assign place target v) := by
  refine .get_bind fun m _ => ?_
  cases m.heap.owner? place.scope target.name with
  | none => exact fail _ h
  | some i => exact .modify fun _ hm => hm.define i target.name hv

theorem child (parent : ScopeId) :
    Placed P (fun _ => True) (Run.child parent) :=
  .modifyGet fun _ hm => ⟨hm.child parent, trivial⟩

theorem declare {d : FnDecl} (hd : d.Spanned P) :
    Placed P (fun _ => True) (Run.declare place d) :=
  define d.name.name <| by
    rintro _ ⟨⟩
    exact hd

theorem printLine (text : String) (h : P span) :
    Placed P (fun _ => True) (Run.printLine text span) :=
  Upholds.bind (Q := fun _ => True) (.modifyGet fun _ hm => ⟨hm, trivial⟩)
    fun _ _ => .ite (fun _ => .pure trivial) fun _ => fail _ h

/-- The outcome of an operator is no function. -/
theorem operation (h : P span) {r : Except OperandFault Value}
    (hr : ∀ v, r = .ok v → ∃ k : Code.Constant, k.value = v) :
    Placed P (Value.Spanned P) (Run.operation span r) := by
  cases r with
  | ok v =>
      obtain ⟨k, rfl⟩ := hr v rfl
      exact .pure (.of_constant k)
  | error f => exact fail _ h

theorem truth (op : BinaryOp) (h : P span) (v : Value) :
    Placed P (fun _ => True) (truth op span v) := by
  unfold Eval.truth
  split
  · exact .pure trivial
  · exact fail _ h

theorem conditionTruth (keyword : String) (h : P span) (v : Value) :
    Placed P (fun _ => True) (conditionTruth keyword span v) := by
  unfold Eval.conditionTruth
  split
  · exact .pure trivial
  · exact fail _ h

theorem callable {callee call : Span} (hcallee : P callee) (hcall : P call)
    (arguments : Nat) {v : Value} (hv : v.Spanned P) :
    Placed P (fun c => c.decl.Spanned P)
      (callable callee call arguments v) := by
  unfold Eval.callable
  split
  · rename_i c
    exact .ite (fun _ => .bind_of_never (fail _ hcall))
      fun _ => .pure (hv c rfl)
  · exact fail _ hcallee

theorem enter (h : P span) (c : Closure) {vs : List Value}
    (hvs : ∀ v ∈ vs, v.Spanned P) :
    Placed P (fun _ => True) (enter limits place c vs span) := by
  unfold Eval.enter
  refine .ite (fun _ => .bind_of_never (fail _ h)) fun _ => ?_
  refine (child c.scope).bind fun i _ => Upholds.bind
    (Q := fun _ => True) (.forM fun b hb => ?_) fun _ _ => .pure trivial
  exact define _ (hvs b.2 (List.of_mem_zip hb).2)

theorem sequence {run : Stmt → Run Flow} {ss : List Stmt}
    (h : ∀ s ∈ ss, Placed P (Flow.Spanned P) (run s)) :
    Placed P (Flow.Spanned P) (sequence run ss) := by
  induction ss with
  | nil => exact .pure .next
  | cons s ss ih =>
      obtain ⟨hs, hss⟩ := List.forall_mem_cons.1 h
      refine hs.bind fun flow hflow => ?_
      cases flow with
      | next => exact ih hss
      | returned v => exact .pure hflow

theorem repeatWhile {cond : Run Bool} {body : Run Flow} (fuel : Nat)
    (hcond : Placed P (fun _ => True) cond)
    (hbody : Placed P (Flow.Spanned P) body) :
    Placed P (Flow.Spanned P) (repeatWhile cond body fuel) := by
  induction fuel with
  | zero => exact starved
  | succ fuel ih =>
      refine hcond.bind fun _ _ => .ite (fun _ => ?_) fun _ => .pure .next
      refine hbody.bind fun flow hflow => ?_
      cases flow with
      | next => exact ih
      | returned v => exact .pure hflow

end Placed

-- ========================================================= evaluation

/-- What evaluation keeps up with some fuel. -/
structure PlacedAt (P : Span → Prop) (limits : Limits) (n : Nat) : Prop
    where
  eval : ∀ (place : Place) (e : Expr), e.Spanned P →
    Placed P (Value.Spanned P) (eval limits n place e)
  exec : ∀ (place : Place) (s : Stmt), s.Spanned P →
    Placed P (Flow.Spanned P) (exec limits n place s)

variable {n : Nat}

theorem PlacedAt.evalSucc (h : PlacedAt P limits n) (place : Place)
    (e : Expr) (he : e.Spanned P) :
    Placed P (Value.Spanned P) (Eval.eval limits (n + 1) place e) := by
  unfold Eval.eval
  refine (Placed.tick he.span).bind fun _ _ => ?_
  cases e with
  | number _ x => exact .pure (.of_constant (.number x))
  | string _ s => exact .pure (.of_constant (.string s))
  | bool _ b => exact .pure (.of_constant (.bool b))
  | nil => exact .pure (.of_constant .nil)
  | ident span name => exact Placed.lookup he name
  | group span inner => exact h.eval place inner he.2
  | unary span op operand =>
      refine (h.eval place operand he.2).bind fun v _ => ?_
      exact Placed.operation he.1 fun r hr => Stack.constant_of_unary hr
  | binary span op lhs rhs =>
      obtain ⟨hspan, hl, hr⟩ := he
      refine (h.eval place lhs hl).bind fun l _ => .ite (fun _ => ?_)
        fun _ => ?_
      · refine (Placed.truth op hl.span l).bind fun b _ =>
          .ite (fun _ => .pure (.of_constant (.bool _))) fun _ => ?_
        exact (h.eval place rhs hr).bind fun r _ =>
          (Placed.truth op hr.span r).bind fun _ _ =>
            .pure (.of_constant (.bool _))
      · exact (h.eval place rhs hr).bind fun r _ =>
          Placed.operation hspan fun u hu => Stack.constant_of_binary hu
  | assign span target value =>
      obtain ⟨-, htarget, hvalue⟩ := he
      exact (h.eval place value hvalue).bind fun v hv =>
        (Placed.assign htarget hv).bind fun _ _ => .pure hv
  | call span callee args =>
      obtain ⟨hspan, hcallee, hargs⟩ := he
      refine (h.eval place callee hcallee).bind fun f hf => ?_
      refine (Placed.callable hcallee.span hspan _ hf).bind fun c hc => ?_
      refine (Upholds.mapM fun a ha =>
        h.eval place a (argsSpanned_iff.1 hargs a ha)).bind fun vs hvs => ?_
      refine (Placed.enter hspan c hvs).bind fun inner _ => ?_
      refine (Placed.sequence fun s hs =>
        h.exec inner s (hc.body.statements s hs)).bind fun flow hflow => ?_
      cases flow with
      | next => exact .pure (.of_constant .nil)
      | returned v => exact .pure (hflow v rfl)

theorem PlacedAt.execSucc (h : PlacedAt P limits n) (place : Place)
    (s : Stmt) (hs : s.Spanned P) :
    Placed P (Flow.Spanned P) (Eval.exec limits (n + 1) place s) := by
  have hblock {b : Block} (hb : b.Spanned P) :
      Placed P (Flow.Spanned P) (do
        let inner : Place := ⟨← Run.child place.scope, place.depth⟩
        sequence (fun s => Eval.exec limits n inner s) b.statements) :=
    (Placed.child place.scope).bind fun i _ =>
      Placed.sequence fun s hs => h.exec _ s (hb.statements s hs)
  have hcondition (keyword : String) {e : Expr} (he : e.Spanned P) :
      Placed P (fun _ => True) (do
        Eval.conditionTruth keyword e.span
          (← Eval.eval limits n place e)) :=
    (h.eval place e he).bind fun v _ =>
      Placed.conditionTruth keyword he.span v
  unfold Eval.exec
  refine (Placed.tick hs.span).bind fun _ _ => ?_
  cases s with
  | declare span name init =>
      cases init with
      | none =>
          exact Upholds.bind (Q := Value.Spanned P)
            (.pure (.of_constant .nil)) fun v hv =>
              (Placed.define _ hv).bind fun _ _ => .pure .next
      | some e =>
          exact (h.eval place e (hs.2 e rfl)).bind fun v hv =>
            (Placed.define _ hv).bind fun _ _ => .pure .next
  | function d => exact (Placed.declare hs).bind fun _ _ => .pure .next
  | expression span e =>
      exact (h.eval place e hs.2).bind fun _ _ => .pure .next
  | block b => exact hblock hs
  | branch span cond thenPart elsePart =>
      obtain ⟨-, hcond, hthen, helse⟩ := hs
      refine (hcondition _ hcond).bind fun _ _ => .ite
        (fun _ => hblock hthen) fun _ => ?_
      cases elsePart with
      | none => exact .pure .next
      | some s => exact h.exec place s helse
  | loop span cond body =>
      exact Placed.repeatWhile n (hcondition _ hs.2.1) (hblock hs.2.2)
  | giveBack span value =>
      cases value with
      | none =>
          refine .pure ?_
          rintro _ ⟨⟩
          exact .of_constant .nil
      | some e =>
          refine (h.eval place e (hs.2 e rfl)).bind fun v hv => .pure ?_
          rintro _ ⟨⟩
          exact hv
  | print span e =>
      exact (h.eval place e hs.2).bind fun v _ =>
        (Placed.printLine _ hs.1).bind fun _ _ => .pure .next
  | empty span => exact .pure .next

theorem placedAt (P : Span → Prop) (limits : Limits) (n : Nat) :
    PlacedAt P limits n := by
  induction n with
  | zero =>
      refine ⟨fun place e he => ?_, fun place s hs => ?_⟩
      · unfold Eval.eval
        exact .starved
      · unfold Eval.exec
        exact .starved
  | succ n ih => exact ⟨ih.evalSucc, ih.execSucc⟩

-- =========================================================== programs

theorem Placed.topLevel (limits : Limits) (fuel : Nat) (place : Place)
    (last : Value) {ss : List Stmt} (hss : ∀ s ∈ ss, s.Spanned P) :
    Placed P (fun _ => True) (topLevel limits fuel place last ss) := by
  have hplaced := placedAt P limits fuel
  fun_induction Eval.topLevel limits fuel place last ss with
  | case1 last => exact .pure trivial
  | case2 last d ss ih => exact ih (List.forall_mem_cons.1 hss).2
  | case3 last span e ss ih =>
      obtain ⟨hs, hss⟩ := List.forall_mem_cons.1 hss
      exact (Placed.tick hs.1).bind fun _ _ =>
        (hplaced.eval place e hs.2).bind fun v _ => ih v hss
  | case4 last s ss _ _ ih =>
      obtain ⟨hs, hss⟩ := List.forall_mem_cons.1 hss
      refine (hplaced.exec place s hs).bind fun flow _ => ?_
      cases flow with
      | next => exact ih hss
      | returned v => exact .pure trivial

theorem Placed.program (limits : Limits) (fuel : Nat) (globals : ScopeId)
    {p : Program} (hp : ∀ s ∈ p.statements, s.Spanned P) :
    Placed P (fun _ => True) (program limits fuel globals p) := by
  refine Upholds.bind (Q := fun _ => True) (.forM fun d hd => ?_)
    fun _ _ => Placed.topLevel limits fuel _ _ hp
  exact Placed.declare (p.functions_spanned hp d hd)

end Eval

/-- A program fails in a place of which `P` holds. -/
theorem Session.failed_spanned {limits : Eval.Limits} {patience : Nat}
    {p : Program} (hp : ∀ s ∈ p.statements, s.Spanned P) {sink : Sink}
    {d : Diagnostic}
    (h : (Session.fresh.run limits patience p sink).1 = .failed d) :
    P d.span := by
  have hplaced := Eval.Placed.program limits (fuel limits patience)
    fresh.globals hp
  unfold run at h
  dsimp only at h
  split at h
  case h_1 => cases h
  case h_2 stop m hrun =>
    have hstop := (hplaced.of_error Heap.Spanned.root hrun).2
    cases stop with
    | starved => cases h
    | fault f span =>
        cases h
        exact hstop f span rfl

end Script
