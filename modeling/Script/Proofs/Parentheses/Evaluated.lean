/-
Evaluation and parentheses. Evaluating an expression in parentheses takes a
step and some fuel more than evaluating the expression, and nothing else.
Two trees that come to the same without parentheses are evaluated side by
side; where nothing limits the steps, the number of steps plays no part,
but the fuel does. What one of them does with the fuel that it has, the
other does once it has enough: how much that is depends on the run, since
the parentheses in functions that are called count as well. So a run is
compared with all runs of the other tree from some fuel on, and with each
part of evaluation this fuel only grows.
-/
import Mathlib.Data.List.Forall2
import Script.Eval.Basic
import Script.Proofs.Action
import Script.Proofs.Parentheses.Removed

namespace Script.Eval

-- ============================================================== machines

/-- Machines that come to the same without parentheses, whatever they have
counted. -/
structure Machine.Like (m m' : Machine) : Prop where
  heap : m.heap.ungrouped = m'.heap.ungrouped
  sink : m.sink = m'.sink

/-- Values that come to the same without parentheses. -/
def ValueLike (v v' : Value) : Prop := v.ungrouped = v'.ungrouped

/-- Functions that come to the same without parentheses. -/
def ClosureLike (c c' : Closure) : Prop := c.ungrouped = c'.ungrouped

/-- Ways to end a statement that come to the same without parentheses. -/
inductive Flow.Like : Flow → Flow → Prop
  | next : Like .next .next
  | returned {v v' : Value} (h : ValueLike v v') :
      Like (.returned v) (.returned v')

/-- Two values with nothing to say of them. -/
def Whatever {α β : Type} (_ : α) (_ : β) : Prop := True

/-- Two outcomes that come to the same without parentheses. Faults may be
at different places. -/
inductive Ended {α β : Type} (A : α → β → Prop) :
    EStateM.Result Stop Machine α → EStateM.Result Stop Machine β → Prop
  | ok {a : α} {b : β} {m m' : Machine} (hab : A a b) (hm : m.Like m') :
      Ended A (.ok a m) (.ok b m')
  | fault (f : Fault) (span span' : Span) {m m' : Machine}
      (hm : m.Like m') :
      Ended A (.error (.fault f span) m) (.error (.fault f span') m')

theorem Ended.ne_starved {α β : Type} {A : α → β → Prop}
    {r : EStateM.Result Stop Machine α} {r' : EStateM.Result Stop Machine β}
    (h : Ended A r r') (m : Machine) : r' ≠ .error .starved m := by
  cases h <;> exact nofun

/-- An action, and another one for each amount of fuel. Unless the first
one is cut off, it ends as the others do from some fuel on. -/
def Attained {α β : Type} (A : α → β → Prop) (x : Run α) (y : Nat → Run β) :
    Prop :=
  ∀ m m' : Machine, m.Like m' → (∀ t, x m ≠ .error .starved t) →
    ∃ r, Ended A (x m) r ∧ ∃ n₀, ∀ n, n₀ ≤ n → y n m' = r

variable {α β γ δ : Type} {A : α → β → Prop} {B : γ → δ → Prop}
  {limits : Limits} {m m' : Machine} {v v' w w' : Value} {c c' : Closure}

theorem ValueLike.type (h : ValueLike v v') : v.type = v'.type := by
  rw [← v.type_ungrouped, h, v'.type_ungrouped]

theorem ValueLike.text (h : ValueLike v v') : v.text = v'.text := by
  rw [← v.text_ungrouped, h, v'.text_ungrouped]

theorem ClosureLike.scope (h : ClosureLike c c') : c.scope = c'.scope := by
  show c.ungrouped.scope = c'.ungrouped.scope
  rw [h]

theorem ClosureLike.name (h : ClosureLike c c') : c.name = c'.name := by
  rw [← c.name_ungrouped, h, c'.name_ungrouped]

theorem ClosureLike.arity (h : ClosureLike c c') : c.arity = c'.arity := by
  rw [← c.arity_ungrouped, h, c'.arity_ungrouped]

theorem ClosureLike.decl (h : ClosureLike c c') :
    c.decl.params = c'.decl.params
      ∧ c.decl.body.statements.map Stmt.ungrouped =
        c'.decl.body.statements.map Stmt.ungrouped := by
  have hdecl : c.decl.ungrouped = c'.decl.ungrouped :=
    congrArg Closure.decl h
  rw [FnDecl.ungrouped_eq, FnDecl.ungrouped_eq] at hdecl
  obtain ⟨-, hparams, hbody, -⟩ := FnDecl.mk.inj hdecl
  rw [Block.ungrouped_eq, Block.ungrouped_eq] at hbody
  exact ⟨hparams, (Block.mk.inj hbody).1⟩

theorem Machine.Like.define (hm : m.Like m') (i : ScopeId) (name : String)
    (hv : ValueLike v v') :
    Machine.Like { m with heap := m.heap.define i name v }
      { m' with heap := m'.heap.define i name v' } := by
  refine ⟨?_, hm.sink⟩
  show (m.heap.define i name v).ungrouped
    = (m'.heap.define i name v').ungrouped
  rw [Heap.ungrouped_define, Heap.ungrouped_define, hm.heap, hv]

theorem Machine.Like.owner?_eq (hm : m.Like m') (i : ScopeId)
    (name : String) : m.heap.owner? i name = m'.heap.owner? i name := by
  rw [← Heap.owner?_ungrouped, hm.heap, Heap.owner?_ungrouped]

/-- Lists with the same images, one after the other. -/
theorem forall₂_of_map_eq {f : α → β} {as as' : List α}
    (h : as.map f = as'.map f) :
    List.Forall₂ (fun a a' => f a = f a') as as' := by
  rw [← List.forall₂_eq_eq_eq, List.forall₂_map_left_iff,
    List.forall₂_map_right_iff] at h
  exact h

-- =============================================================== actions

namespace Attained

variable {x : Run α} {y : Nat → Run β}

/-- An action that is cut off is attained by anything. -/
theorem starved : Attained A (throw .starved) y :=
  fun m _ _ h => (h m rfl).elim

/-- Actions that do not depend on the fuel. -/
theorem of_ended {z : Run β} (h : ∀ m m', m.Like m' → Ended A (x m) (z m')) :
    Attained A x fun _ => z :=
  fun m m' hm _ => ⟨z m', h m m' hm, 0, fun _ _ => rfl⟩

theorem pure {a : α} {b : β} (hab : A a b) :
    Attained A (pure a) fun _ => pure b :=
  of_ended fun _ _ hm => .ok hab hm

theorem fail (f : Fault) (span span' : Span) :
    Attained A (Run.fail f span) fun _ => Run.fail f span' :=
  of_ended fun _ _ hm => .fault f span span' hm

theorem bind {f : α → Run γ} {g : Nat → β → Run δ} (hx : Attained A x y)
    (hf : ∀ a b, A a b → Attained B (f a) fun n => g n b) :
    Attained B (x >>= f) fun n => y n >>= g n := by
  intro m m' hm h
  have hne (t : Machine) : x m ≠ .error .starved t := fun hx =>
    h t (Action.bind_of_error hx f)
  obtain ⟨r, hr, n₀, hn₀⟩ := hx m m' hm hne
  generalize hxm : x m = rx at hr
  cases hr with
  | fault fault span span' hm' =>
      rw [Action.bind_of_error hxm]
      exact ⟨_, .fault fault span span' hm', n₀, fun n hn =>
        Action.bind_of_error (hn₀ n hn) (g n)⟩
  | @ok a b t t' hab hm' =>
      rw [Action.bind_of_ok hxm] at h ⊢
      obtain ⟨r', hr', n₁, hn₁⟩ := hf a b hab t t' hm' h
      refine ⟨r', hr', max n₀ n₁, fun n hn => ?_⟩
      have hy := hn₀ n (Nat.le_trans (Nat.le_max_left ..) hn)
      have hg := hn₁ n (Nat.le_trans (Nat.le_max_right ..) hn)
      exact (Action.bind_of_ok hy (g n)).trans hg

/-- How the fuel is counted plays no part. -/
theorem shift_iff (k : Nat) :
    (Attained A x fun n => y (n + k)) ↔ Attained A x y := by
  constructor
  · intro h m m' hm hne
    obtain ⟨r, hr, n₀, hn₀⟩ := h m m' hm hne
    refine ⟨r, hr, n₀ + k, fun n hn => ?_⟩
    have hle : k ≤ n := Nat.le_trans (Nat.le_add_left ..) hn
    rw [← Nat.sub_add_cancel hle]
    exact hn₀ (n - k) (Nat.le_sub_of_add_le hn)
  · intro h m m' hm hne
    obtain ⟨r, hr, n₀, hn₀⟩ := h m m' hm hne
    exact ⟨r, hr, n₀, fun n hn =>
      hn₀ (n + k) (Nat.le_trans hn (Nat.le_add_right ..))⟩

theorem succ (h : Attained A x fun n => y (n + 1)) : Attained A x y :=
  (shift_iff 1).1 h

/-- Where nothing limits the steps, counting them ends nothing. -/
theorem tick (hlimits : limits.steps = none) (span span' : Span) :
    Attained Whatever (Run.tick limits span) fun _ =>
      Run.tick limits span' := by
  refine of_ended fun m m' hm => ?_
  unfold Run.tick
  rw [hlimits]
  exact .ok trivial ⟨hm.heap, hm.sink⟩

/-- A step more on the left. -/
theorem tick_left (hlimits : limits.steps = none) (span : Span)
    (h : Attained A x y) :
    Attained A (do Run.tick limits span; x) y := by
  intro m m' hm hne
  have htick : Run.tick limits span m =
      .ok () { m with steps := m.steps + 1 } := by
    unfold Run.tick
    rw [hlimits]
    rfl
  rw [Action.bind_of_ok htick] at hne ⊢
  exact h _ m' ⟨hm.heap, hm.sink⟩ hne

/-- A step more on the right. -/
theorem tick_right (hlimits : limits.steps = none) (span : Span)
    (h : Attained A x y) :
    Attained A x (fun n => do Run.tick limits span; y n) := by
  intro m m' hm hne
  have htick : Run.tick limits span m' =
      .ok () { m' with steps := m'.steps + 1 } := by
    unfold Run.tick
    rw [hlimits]
    rfl
  obtain ⟨r, hr, n₀, hn₀⟩ :=
    h m { m' with steps := m'.steps + 1 } ⟨hm.heap, hm.sink⟩ hne
  exact ⟨r, hr, n₀, fun n hn =>
    (Action.bind_of_ok htick fun _ => y n).trans (hn₀ n hn)⟩

theorem get :
    Attained Machine.Like (get : Run Machine) fun _ => MonadState.get :=
  of_ended fun _ _ hm => .ok hm hm

theorem lookup (place : Place) (name : String) (span span' : Span) :
    Attained ValueLike (Run.lookup place name span) fun _ =>
      Run.lookup place name span' := by
  refine bind get fun m m' hm => ?_
  have hget : (m.heap.get? place.scope name).map Value.ungrouped =
      (m'.heap.get? place.scope name).map Value.ungrouped := by
    rw [← Heap.get?_ungrouped, hm.heap, Heap.get?_ungrouped]
  cases hv : m.heap.get? place.scope name with
  | none =>
      rw [hv] at hget
      rw [Option.map_eq_none_iff.1 hget.symm]
      exact fail _ _ _
  | some v =>
      rw [hv] at hget
      obtain ⟨v', hv', hvv'⟩ := Option.map_eq_some_iff.1 hget.symm
      rw [hv']
      exact pure hvv'.symm

theorem define (place : Place) (name : String) (hv : ValueLike v v') :
    Attained Whatever (Run.define place name v) fun _ =>
      Run.define place name v' :=
  of_ended fun _ _ hm => .ok trivial (hm.define place.scope name hv)

theorem declare (place : Place) {d d' : FnDecl}
    (h : d.ungrouped = d'.ungrouped) :
    Attained Whatever (Run.declare place d) fun _ =>
      Run.declare place d' := by
  have hname : d.name = d'.name := by
    rw [FnDecl.ungrouped_eq, FnDecl.ungrouped_eq] at h
    exact (FnDecl.mk.inj h).1
  have hv : ValueLike (.function ⟨d, place.scope, false⟩)
      (.function ⟨d', place.scope, false⟩) :=
    congrArg (fun d => Value.function ⟨d, place.scope, false⟩) h
  unfold Run.declare
  rw [hname]
  exact define place d'.name.name hv

theorem assign (place : Place) (target : Ident) (hv : ValueLike v v') :
    Attained Whatever (Run.assign place target v) fun _ =>
      Run.assign place target v' := by
  refine bind get fun m m' hm => ?_
  rw [hm.owner?_eq place.scope target.name]
  cases m'.heap.owner? place.scope target.name with
  | none => exact fail _ _ _
  | some i =>
      exact of_ended fun _ _ hm => .ok trivial (hm.define i target.name hv)

theorem child (i : ScopeId) :
    Attained Eq (Run.child i) fun _ => Run.child i := by
  refine of_ended fun m m' hm => ?_
  have hsize : m.heap.scopes.size = m'.heap.scopes.size := by
    rw [← Heap.size_ungrouped, hm.heap, Heap.size_ungrouped]
  refine .ok hsize ⟨?_, hm.sink⟩
  show (m.heap.child i).2.ungrouped = (m'.heap.child i).2.ungrouped
  rw [Heap.ungrouped_child, Heap.ungrouped_child, hm.heap]

theorem printLine (text : String) (span span' : Span) :
    Attained Whatever (Run.printLine text span) fun _ =>
      Run.printLine text span' := by
  refine of_ended fun m m' hm => ?_
  show Ended Whatever
    ((do unless (m.sink.write (text ++ "\n")).1 do
          Run.fail (.output Sink.refusal) span : Run Unit)
      { m with sink := (m.sink.write (text ++ "\n")).2 })
    ((do unless (m'.sink.write (text ++ "\n")).1 do
          Run.fail (.output Sink.refusal) span' : Run Unit)
      { m' with sink := (m'.sink.write (text ++ "\n")).2 })
  rw [hm.sink]
  cases (m'.sink.write (text ++ "\n")).1 with
  | false => exact .fault _ _ _ ⟨hm.heap, rfl⟩
  | true => exact .ok trivial ⟨hm.heap, rfl⟩

/-- Operators never lead to functions. -/
theorem operation (span span' : Span) {r r' : Except OperandFault Value}
    (h : r = r') :
    Attained ValueLike (Run.operation span r) fun _ =>
      Run.operation span' r' := by
  subst h
  cases r with
  | ok v => exact pure rfl
  | error f => exact fail _ _ _

theorem truth (op : BinaryOp) (span span' : Span) (hv : ValueLike v v') :
    Attained Eq (Eval.truth op span v) fun _ => Eval.truth op span' v' := by
  have htype := hv.type
  cases v <;> cases v' <;> cases htype
  case bool b b' =>
    cases hv
    exact pure rfl
  all_goals exact fail _ _ _

theorem conditionTruth (keyword : String) (span span' : Span)
    (hv : ValueLike v v') :
    Attained Eq (Eval.conditionTruth keyword span v) fun _ =>
      Eval.conditionTruth keyword span' v' := by
  have htype := hv.type
  cases v <;> cases v' <;> cases htype
  case bool b b' =>
    cases hv
    exact pure rfl
  all_goals exact fail _ _ _

theorem callable (callee callee' call call' : Span) (count : Nat)
    (hv : ValueLike v v') :
    Attained ClosureLike (Eval.callable callee call count v) fun _ =>
      Eval.callable callee' call' count v' := by
  have htype := hv.type
  cases v <;> cases v' <;> cases htype
  case function c c' =>
    have hc : ClosureLike c c' := Value.function.inj hv
    show Attained ClosureLike
      (do if count ≠ c.arity then
            Run.fail (.argumentCount c.name c.arity count) call
          return c)
      (fun _ => do
          if count ≠ c'.arity then
            Run.fail (.argumentCount c'.name c'.arity count) call'
          return c')
    rw [hc.arity, hc.name]
    by_cases hcount : count = c'.arity
    · simp only [ne_eq, hcount, not_true_eq_false, if_false]
      exact pure hc
    · simp only [ne_eq, hcount, not_false_eq_true, if_true]
      exact bind (A := Whatever) (fail _ _ _) fun _ _ _ => pure hc
  all_goals exact fail _ _ _

-- ================================================================= lists

theorem forM {f : γ → Run Unit} {g : δ → Run Unit} {as : List γ}
    {bs : List δ} (h : List.Forall₂ B as bs)
    (hfg : ∀ a b, B a b → Attained Whatever (f a) fun _ => g b) :
    Attained Whatever (as.forM f) fun _ => bs.forM g := by
  induction h with
  | nil => exact pure trivial
  | cons hab _ ih => exact bind (hfg _ _ hab) fun _ _ _ => ih

theorem mapM {f : γ → Run α} {g : Nat → δ → Run β} {as : List γ}
    {bs : List δ} (h : List.Forall₂ B as bs)
    (hfg : ∀ a b, B a b → Attained A (f a) fun n => g n b) :
    Attained (List.Forall₂ A) (as.mapM f) fun n => bs.mapM (g n) := by
  induction h with
  | nil => exact pure .nil
  | cons hab _ ih =>
      simp only [List.mapM_cons]
      refine bind (hfg _ _ hab) fun a b hab => ?_
      exact bind ih fun as bs habs => pure (.cons hab habs)

theorem enter (place : Place) {vs vs' : List Value} (hc : ClosureLike c c')
    (hvs : List.Forall₂ ValueLike vs vs') (span span' : Span) :
    Attained Eq (Eval.enter limits place c vs span) fun _ =>
      Eval.enter limits place c' vs' span' := by
  have hinner : Attained Eq
      (do let inner : Place := ⟨← Run.child c.scope, place.depth + 1⟩
          (c.decl.params.zip vs).forM fun b => Run.define inner b.1.name b.2
          return inner)
      (fun _ => do
          let inner : Place := ⟨← Run.child c'.scope, place.depth + 1⟩
          (c'.decl.params.zip vs').forM fun b => Run.define inner b.1.name b.2
          return inner) := by
    rw [hc.scope, hc.decl.1]
    refine bind (child _) fun i i' hi => ?_
    subst hi
    refine bind (forM (B := fun a b => a.1 = b.1 ∧ ValueLike a.2 b.2) ?_ ?_)
      fun _ _ _ => pure rfl
    · generalize c'.decl.params = params
      induction hvs generalizing params with
      | nil => simp
      | cons hv _ ih =>
          cases params with
          | nil => exact .nil
          | cons p params => exact .cons ⟨rfl, hv⟩ (ih params)
    · rintro ⟨p, v⟩ ⟨p', v'⟩ ⟨rfl, hv⟩
      exact define _ _ hv
  unfold Eval.enter
  by_cases hdepth : limits.callDepth ≤ place.depth
  · simp only [hdepth, if_true]
    exact bind (A := Whatever) (fail _ _ _) fun _ _ _ => hinner
  · simp only [hdepth, if_false]
    exact hinner

theorem sequence {run : Stmt → Run Flow} {run' : Nat → Stmt → Run Flow}
    {ss ss' : List Stmt} (h : ss.map Stmt.ungrouped = ss'.map Stmt.ungrouped)
    (hrun : ∀ s s' : Stmt, s.ungrouped = s'.ungrouped →
      Attained Flow.Like (run s) fun n => run' n s') :
    Attained Flow.Like (Eval.sequence run ss) fun n =>
      Eval.sequence (run' n) ss' := by
  induction ss generalizing ss' with
  | nil =>
      rw [List.map_nil] at h
      rw [List.map_eq_nil_iff.1 h.symm]
      exact pure .next
  | cons s ss ih =>
      obtain ⟨s', ss', rfl, hs, hss⟩ := List.map_eq_cons_iff.1 h.symm
      refine bind (hrun s s' hs.symm) fun flow flow' hflow => ?_
      cases hflow with
      | next => exact ih hss.symm
      | returned hv => exact pure (.returned hv)

/-- A loop needs as many rounds on both sides. -/
theorem repeatWhile {cond : Run Bool} {cond' : Nat → Run Bool}
    {body : Run Flow} {body' : Nat → Run Flow}
    (hcond : Attained Eq cond cond')
    (hbody : Attained Flow.Like body body') {rounds : Nat} {k : Nat → Nat}
    (hk : ∀ n, rounds ≤ k n) :
    Attained Flow.Like (Eval.repeatWhile cond body rounds) fun n =>
      Eval.repeatWhile (cond' n) (body' n) (k n) := by
  induction rounds generalizing k with
  | zero => exact starved
  | succ rounds ih =>
      have hk' (n : Nat) : k n = (k n - 1) + 1 :=
        (Nat.sub_add_cancel (Nat.le_trans (Nat.le_add_left ..) (hk n))).symm
      rw [funext hk']
      refine bind hcond fun b b' hb => ?_
      subst hb
      cases b with
      | false => exact pure .next
      | true =>
          refine bind hbody fun flow flow' hflow => ?_
          cases hflow with
          | next => exact ih fun n => Nat.le_sub_of_add_le (hk n)
          | returned hv => exact pure (.returned hv)

end Attained

-- ============================================================ evaluation

/-- What an amount of fuel is enough for, the other tree does with some
amount as well. -/
structure Attains (limits : Limits) (fuel : Nat) : Prop where
  eval (place : Place) {e e' : Expr} (h : e.ungrouped = e'.ungrouped) :
    Attained ValueLike (Eval.eval limits fuel place e) fun n =>
      Eval.eval limits n place e'
  exec (place : Place) {s s' : Stmt} (h : s.ungrouped = s'.ungrouped) :
    Attained Flow.Like (Eval.exec limits fuel place s) fun n =>
      Eval.exec limits n place s'

section

variable {place : Place} {fuel : Nat}

/-- Parentheses on the right take a step and some fuel. -/
theorem Attained.of_ungroup {x : Run α} {A : α → Value → Prop}
    (hlimits : limits.steps = none) : ∀ e : Expr,
    (Attained A x fun n => Eval.eval limits n place e.ungroup) →
    Attained A x fun n => Eval.eval limits n place e
  | .group span e, h =>
      .succ (.tick_right hlimits span (.of_ungroup hlimits e h))
  | .number .., h => h
  | .string .., h => h
  | .bool .., h => h
  | .nil _, h => h
  | .ident .., h => h
  | .unary .., h => h
  | .binary .., h => h
  | .assign .., h => h
  | .call .., h => h

/-- An expression, with more fuel than its operands have. -/
theorem Attains.eval_succ (hlimits : limits.steps = none)
    (ih : Attains limits fuel) {e e' : Expr} (h : e.Paired e') :
    Attained ValueLike (Eval.eval limits (fuel + 1) place e) fun n =>
      Eval.eval limits n place e' := by
  refine .succ ?_
  unfold Eval.eval
  refine .bind (.tick hlimits _ _) fun _ _ _ => ?_
  cases h with
  | number span x => exact .pure rfl
  | string span s => exact .pure rfl
  | bool span b => exact .pure rfl
  | nil span => exact .pure rfl
  | ident span name => exact .lookup _ _ _ _
  | unary span op he =>
      refine .bind (ih.eval place he) fun v v' hv => .operation _ _ ?_
      rw [← op.apply_ungrouped v, hv, op.apply_ungrouped]
  | binary span op hl hr =>
      refine .bind (ih.eval place hl) fun v v' hv => ?_
      cases op.isShortCircuit with
      | true =>
          refine .bind (.truth op _ _ hv) fun b b' hb => ?_
          subst hb
          by_cases hdone : (b == (op == .or)) = true
          · simp only [hdone, if_true]
            exact .pure rfl
          · simp only [hdone]
            refine .bind (ih.eval place hr) fun w w' hw => ?_
            refine .bind (.truth op _ _ hw) fun b b' hb => .pure ?_
            rw [hb]
            rfl
      | false =>
          refine .bind (ih.eval place hr) fun w w' hw => .operation _ _ ?_
          rw [← op.apply_ungrouped v, hv, hw, op.apply_ungrouped]
  | assign span target he =>
      refine .bind (ih.eval place he) fun v v' hv => ?_
      exact .bind (.assign place target hv) fun _ _ _ => .pure hv
  | @call span callee callee' args args' hcallee hargs =>
      have hlength : args.length = args'.length := by
        rw [← List.length_map, hargs, List.length_map]
      have hpaired := forall₂_of_map_eq hargs
      refine .bind (ih.eval place hcallee) fun f f' hf => ?_
      rw [hlength]
      refine .bind (.callable _ _ _ _ _ hf) fun c c' hc => ?_
      refine .bind (.mapM hpaired fun a a' ha => ih.eval place ha)
        fun vs vs' hvs => ?_
      refine .bind (.enter place hc hvs _ _) fun inner inner' hinner => ?_
      subst hinner
      refine .bind (.sequence hc.decl.2 fun s s' hs => ih.exec inner hs)
        fun flow flow' hflow => ?_
      cases hflow with
      | next => exact .pure rfl
      | returned hv => exact .pure hv

/-- The statements of a block, in a scope of their own. -/
theorem Attains.block (ih : Attains limits fuel) (place : Place)
    {b b' : Block} (h : b.ungrouped = b'.ungrouped) :
    Attained Flow.Like
      (do let inner : Place := ⟨← Run.child place.scope, place.depth⟩
          sequence (fun s => Eval.exec limits fuel inner s) b.statements)
      (fun n => do
          let inner : Place := ⟨← Run.child place.scope, place.depth⟩
          sequence (fun s => Eval.exec limits n inner s) b'.statements) := by
  rw [Block.ungrouped_eq, Block.ungrouped_eq] at h
  refine .bind (.child _) fun i i' hi => ?_
  subst hi
  exact .sequence (Block.mk.inj h).1 fun s s' hs => ih.exec _ hs

theorem Attains.condition (ih : Attains limits fuel) (place : Place)
    (keyword : String) {e e' : Expr} (h : e.ungrouped = e'.ungrouped) :
    Attained Eq
      (do conditionTruth keyword e.span (← Eval.eval limits fuel place e))
      (fun n => do
          conditionTruth keyword e'.span (← Eval.eval limits n place e')) :=
  .bind (ih.eval place h) fun _ _ hv => .conditionTruth keyword _ _ hv

/-- A statement, with more fuel than its parts have. -/
theorem Attains.exec_succ (hlimits : limits.steps = none)
    (ih : Attains limits fuel) {s s' : Stmt} (h : s.Paired s') :
    Attained Flow.Like (Eval.exec limits (fuel + 1) place s) fun n =>
      Eval.exec limits n place s' := by
  refine .succ ?_
  unfold Eval.exec
  refine .bind (.tick hlimits _ _) fun _ _ _ => ?_
  cases h with
  | @declare span name init init' hinit =>
      have hdefine (v v' : Value) (hv : ValueLike v v') :
          Attained Flow.Like
            (do Run.define place name.name v; return .next)
            (fun _ => do Run.define place name.name v'; return .next) :=
        .bind (.define place name.name hv) fun _ _ _ => .pure .next
      cases init with
      | none =>
          obtain rfl := Option.map_eq_none_iff.1 hinit.symm
          exact .bind (A := ValueLike) (.pure rfl) hdefine
      | some e =>
          obtain ⟨e', rfl, he⟩ := Option.map_eq_some_iff.1 hinit.symm
          exact .bind (ih.eval place he.symm) hdefine
  | function hd =>
      exact .bind (.declare place hd) fun _ _ _ => .pure .next
  | expression span he =>
      exact .bind (ih.eval place he) fun _ _ _ => .pure .next
  | block hb => exact ih.block place hb
  | @branch span cond cond' b b' elsePart elsePart' hcond hb helse =>
      refine .bind (ih.condition place "if" hcond) fun holds holds' hsame => ?_
      subst hsame
      cases holds with
      | true => exact ih.block place hb
      | false =>
          cases elsePart with
          | none =>
              obtain rfl := Option.map_eq_none_iff.1 helse.symm
              exact .pure .next
          | some s =>
              obtain ⟨s', rfl, hs⟩ := Option.map_eq_some_iff.1 helse.symm
              exact ih.exec place hs.symm
  | @loop span cond cond' b b' hcond hb =>
      -- The fuel on the right is more than the rounds on the left.
      refine (Attained.shift_iff fuel).1 ?_
      have hloop := Attained.repeatWhile
        ((Attained.shift_iff fuel).2 (ih.condition place "while" hcond))
        ((Attained.shift_iff fuel).2 (ih.block place hb))
        fun n => Nat.le_add_left fuel n
      exact hloop
  | @giveBack span value value' hvalue =>
      cases value with
      | none =>
          obtain rfl := Option.map_eq_none_iff.1 hvalue.symm
          exact .pure (.returned rfl)
      | some e =>
          obtain ⟨e', rfl, he⟩ := Option.map_eq_some_iff.1 hvalue.symm
          exact .bind (ih.eval place he.symm) fun v v' hv =>
            .pure (.returned hv)
  | print span he =>
      refine .bind (ih.eval place he) fun v v' hv => ?_
      rw [hv.text]
      exact .bind (.printLine _ _ _) fun _ _ _ => .pure .next
  | empty span => exact .pure .next

/-- Whatever the fuel is enough for. -/
theorem attains (hlimits : limits.steps = none) (fuel : Nat) :
    Attains limits fuel := by
  induction fuel with
  | zero => exact ⟨fun _ _ _ _ => .starved, fun _ _ _ _ => .starved⟩
  | succ fuel ih =>
      refine ⟨fun place e e' h => ?_, fun place s s' h =>
        ih.exec_succ hlimits (.of_ungrouped h)⟩
      cases hgroup : e.isGroup with
      | true =>
          cases e with
          | group span e =>
              exact .tick_left hlimits span (ih.eval place h)
          | _ => cases hgroup
      | false =>
          refine .of_ungroup hlimits e' (ih.eval_succ hlimits ?_)
          rw [← e'.ungrouped_ungroup] at h
          exact .of_ungrouped hgroup e'.isGroup_ungroup h

-- ============================================================== programs

theorem topLevel_attained (hlimits : limits.steps = none) {ss ss' : List Stmt}
    (h : ss.map Stmt.ungrouped = ss'.map Stmt.ungrouped)
    (hv : ValueLike v v') :
    Attained ValueLike (topLevel limits fuel place v ss) fun n =>
      topLevel limits n place v' ss' := by
  induction ss generalizing ss' v v' with
  | nil =>
      rw [List.map_nil] at h
      rw [List.map_eq_nil_iff.1 h.symm]
      exact .pure hv
  | cons s ss ih =>
      obtain ⟨s', ss', rfl, hs, hss⟩ := List.map_eq_cons_iff.1 h.symm
      have hexec := (attains hlimits fuel).exec place hs.symm
      cases Stmt.Paired.of_ungrouped hs.symm with
      | function hd =>
          show Attained ValueLike (topLevel limits fuel place .nil ss)
            fun n => topLevel limits n place .nil ss'
          exact ih hss.symm rfl
      | expression span he =>
          refine .bind (.tick hlimits span span) fun _ _ _ => ?_
          exact .bind ((attains hlimits fuel).eval place he)
            fun w w' hw => ih hss.symm hw
      | _ =>
          refine .bind hexec fun flow flow' hflow => ?_
          cases hflow with
          | next => exact ih hss.symm rfl
          | returned hv => exact .pure hv

/-- A program and the program without parentheses, from some fuel on. -/
theorem program_attained (hlimits : limits.steps = none) {p p' : Program}
    (h : p.ungrouped = p'.ungrouped) (globals : ScopeId) :
    Attained ValueLike (program limits fuel globals p) fun n =>
      program limits n globals p' := by
  have hstatements : p.statements.map Stmt.ungrouped =
      p'.statements.map Stmt.ungrouped := by
    rw [← stmtsUngrouped_eq, ← stmtsUngrouped_eq]
    exact congrArg Program.statements h
  have hfunctions : List.Forall₂
      (fun d d' : FnDecl => d.ungrouped = d'.ungrouped)
      p.functions p'.functions := by
    refine forall₂_of_map_eq ?_
    rw [← p.functions_ungrouped, ← p'.functions_ungrouped, h]
  unfold Eval.program
  refine .bind (.forM hfunctions fun d d' hd => .declare _ hd)
    fun _ _ _ => ?_
  exact topLevel_attained hlimits hstatements rfl

end

end Script.Eval
