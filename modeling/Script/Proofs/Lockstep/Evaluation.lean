/-
Evaluation, related to itself. Two runs of one program may differ in
their limits, in their fuel, and in the scopes that they work on. Whether
a property relates such runs is settled by the actions that evaluation is
made of: if it relates each action to itself, and goes from two actions
to the two in order, then it relates all of evaluation to itself.

A pairing is a property of two actions that is told what their values
have in common. The values of expressions agree up to the scopes that
functions captured, which a relation pairs off. No operator can tell such
values apart, as long as the relation pairs each scope with one scope only.
-/
import Mathlib.Data.List.Forall2
import Mathlib.Logic.Relator
import Script.Eval.Basic
import Script.Eval.Machine
import Script.Proofs.Stack.Operators

namespace Script

-- ================================================================ values

section

variable {S : ScopeId → ScopeId → Prop} {v v' w w' : Value}

/-- Values that agree up to the scopes that functions captured. -/
inductive Value.Alike (S : ScopeId → ScopeId → Prop) :
    Value → Value → Prop
  | number (x : Float) : Alike S (.number x) (.number x)
  | string (s : String) : Alike S (.string s) (.string s)
  | bool (b : Bool) : Alike S (.bool b) (.bool b)
  | nil : Alike S .nil .nil
  | function {d : FnDecl} {i j : ScopeId} {weak : Bool} (h : S i j) :
      Alike S (.function ⟨d, i, weak⟩) (.function ⟨d, j, weak⟩)

namespace Value.Alike

/-- Scopes are told apart alike. -/
theorem beq_congr (hS : Relator.BiUnique S) {i j k l : ScopeId}
    (hij : S i j) (hkl : S k l) : (i == k) = (j == l) := by
  rw [Bool.eq_iff_iff, beq_iff_eq, beq_iff_eq]
  exact Relator.rel_eq hS hij hkl

theorem text (h : Alike S v v') : v.text = v'.text := by
  cases h <;> rfl

/-- Every value agrees with itself where scopes have kept their names. -/
theorem refl (v : Value) : Alike Eq v v := by
  cases v with
  | function c => exact .function rfl
  | _ => constructor

theorem eq_of_eq (h : Alike Eq v v') : v = v' := by
  cases h with
  | function h =>
      subst h
      rfl
  | _ => rfl

theorem same (hS : Relator.BiUnique S) (hv : Alike S v v') (hw : Alike S w w') :
    v.same w = v'.same w' := by
  cases hv with
  | function hi =>
      cases hw with
      | function hj =>
          simp only [Value.same, Closure.same, beq_congr hS hi hj]
      | _ => rfl
  | _ => cases hw <;> rfl

theorem keptIn (hS : Relator.BiUnique S) {i j : ScopeId} (hij : S i j)
    (h : Alike S v v') : Alike S (v.keptIn i) (v'.keptIn j) := by
  cases h with
  | @function d k l weak hkl =>
      simp only [Value.keptIn, beq_congr hS hkl hij]
      split
      · exact .function hkl
      · exact .function hkl
  | _ => constructor

theorem handedOut (h : Alike S v v') :
    Alike S v.handedOut v'.handedOut := by
  cases h with
  | function h => exact .function h
  | _ => constructor

/-- An operator does the same to values that agree. -/
theorem unary (op : UnaryOp) (h : Alike S v v') :
    op.apply v = op.apply v' := by
  cases h with
  | function h => cases op <;> rfl
  | _ => rfl

theorem binary (hS : Relator.BiUnique S) (op : BinaryOp) (hv : Alike S v v')
    (hw : Alike S w w') : op.apply v w = op.apply v' w' := by
  have hsame := hv.same hS hw
  cases op with
  | eq => exact congrArg (fun b => Except.ok (Value.bool b)) hsame
  | ne => exact congrArg (fun b => Except.ok (Value.bool !b)) hsame
  | _ => cases hv <;> cases hw <;> rfl

end Value.Alike

/-- A constant agrees with itself, whatever becomes of the scopes. -/
theorem Code.Constant.alike (S : ScopeId → ScopeId → Prop)
    (k : Code.Constant) : k.value.Alike S k.value := by
  cases k <;> constructor

end

-- ============================================================== pairings

namespace Eval

/-- A property of two actions, given what relates their values. -/
abbrev Pairing :=
  ∀ {α β : Type}, (α → β → Prop) → Run α → Run β → Prop

/-- Two values with nothing to say of them. -/
def Any {α β : Type} (_ : α) (_ : β) : Prop := True

/-- Two ways in which a statement ends. -/
inductive Flow.Alike (S : ScopeId → ScopeId → Prop) : Flow → Flow → Prop
  | next : Alike S .next .next
  | returned {v v' : Value} (h : v.Alike S v') :
      Alike S (.returned v) (.returned v')

/-- Two places, as many calls deep. -/
structure Place.Alike (S : ScopeId → ScopeId → Prop) (a b : Place) :
    Prop where
  scope : S a.scope b.scope
  depth : a.depth = b.depth

/-- With all scopes paired with themselves, there is one place only. -/
theorem Place.Alike.eq {a b : Place} (h : a.Alike Eq b) : a = b := by
  obtain ⟨i, depth⟩ := a
  obtain ⟨rfl, rfl⟩ := h
  rfl

/-- A pairing that relates every action of evaluation to itself, under two
limits and on scopes that a relation pairs off. -/
structure Lockstep (limits limits' : Limits)
    (S : ScopeId → ScopeId → Prop) (R : Pairing) : Prop where
  biUnique : Relator.BiUnique S
  pure {α β : Type} {A : α → β → Prop} {a : α} {b : β} :
    A a b → R A (pure a) (pure b)
  bind {α β γ δ : Type} {A : α → β → Prop} {B : γ → δ → Prop}
    {x : Run α} {y : Run β} {f : α → Run γ} {g : β → Run δ} :
    R A x y → (∀ a b, A a b → R B (f a) (g b)) →
      R B (x >>= f) (y >>= g)
  throw {α β : Type} {A : α → β → Prop} (e : Stop) :
    R A (throw e : Run α) (throw e : Run β)
  tick (span : Span) :
    R Any (Run.tick limits span) (Run.tick limits' span)
  /-- What is done in front of a call, unless it is too deep. -/
  deepen {α β : Type} {A : α → β → Prop} {x : Run α} {y : Run β}
    (depth : Nat) (span : Span) : R A x y →
      R A
        (if limits.callDepth ≤ depth then do
          Run.fail (.callDepth limits.callDepth) span; x
        else x)
        (if limits'.callDepth ≤ depth then do
          Run.fail (.callDepth limits'.callDepth) span; y
        else y)
  lookup {a b : Place} (name : String) (span : Span) : a.Alike S b →
    R (Value.Alike S) (Run.lookup a name span) (Run.lookup b name span)
  define {a b : Place} {v v' : Value} (name : String) : a.Alike S b →
    v.Alike S v' → R Any (Run.define a name v) (Run.define b name v')
  assign {a b : Place} {v v' : Value} (target : Ident) : a.Alike S b →
    v.Alike S v' → R Any (Run.assign a target v) (Run.assign b target v')
  child {i j : ScopeId} : S i j → R S (Run.child i) (Run.child j)
  printLine (text : String) (span : Span) :
    R Any (Run.printLine text span) (Run.printLine text span)

/-- Whether a run that is cut off may stand for any other. -/
def CutsOff (R : Pairing) : Prop :=
  ∀ ⦃α β : Type⦄ {A : α → β → Prop} {x : Run α} {y : Run β},
    R A x y → R A (throw .starved) y

-- =============================================================== actions

namespace Lockstep

variable {limits limits' : Limits} {S : ScopeId → ScopeId → Prop}
  {R : Pairing} {α β γ δ : Type} {A : α → β → Prop} {B : γ → δ → Prop}

theorem ite {c : Prop} [Decidable c] {x y : Run α} {x' y' : Run β}
    (hx : R A x x') (hy : R A y y') :
    R A (if c then x else y) (if c then x' else y') := by
  by_cases hc : c
  · rw [if_pos hc, if_pos hc]
    exact hx
  · rw [if_neg hc, if_neg hc]
    exact hy

theorem forM (h : Lockstep limits limits' S R) {f : α → Run Unit}
    {g : β → Run Unit} (hfg : ∀ a b, A a b → R Any (f a) (g b))
    {as : List α} {bs : List β} (has : List.Forall₂ A as bs) :
    R Any (as.forM f) (bs.forM g) := by
  induction has with
  | nil => exact h.pure trivial
  | cons hab _ ih => exact h.bind (hfg _ _ hab) fun _ _ _ => ih

theorem mapM (h : Lockstep limits limits' S R) {f : γ → Run α}
    {g : γ → Run β} {cs : List γ} (hfg : ∀ c ∈ cs, R A (f c) (g c)) :
    R (List.Forall₂ A) (cs.mapM f) (cs.mapM g) := by
  induction cs with
  | nil => exact h.pure .nil
  | cons c cs ih =>
      obtain ⟨hc, hcs⟩ := List.forall_mem_cons.1 hfg
      rw [List.mapM_cons, List.mapM_cons]
      exact h.bind hc fun a b hab => h.bind (ih hcs) fun as bs has =>
        h.pure (.cons hab has)

theorem sequence (h : Lockstep limits limits' S R) {f g : Stmt → Run Flow}
    (hfg : ∀ s, R (Flow.Alike S) (f s) (g s)) (ss : List Stmt) :
    R (Flow.Alike S) (sequence f ss) (sequence g ss) := by
  induction ss with
  | nil => exact h.pure .next
  | cons s ss ih =>
      refine h.bind (hfg s) fun flow flow' hflow => ?_
      cases hflow with
      | next => exact ih
      | returned hv => exact h.pure (.returned hv)

/-- A loop may be given more rounds, if it is only cut off without
them. -/
theorem repeatWhile (h : Lockstep limits limits' S R) {x x' : Run Bool}
    {y y' : Run Flow} (hx : R Eq x x') (hy : R (Flow.Alike S) y y')
    {n n' : Nat} (hle : n ≤ n') (hcut : n < n' → CutsOff R) :
    R (Flow.Alike S) (repeatWhile x y n) (repeatWhile x' y' n') := by
  -- One more round on both sides.
  have hround {m m' : Nat} (ih : R (Flow.Alike S) (Eval.repeatWhile x y m)
      (Eval.repeatWhile x' y' m')) : R (Flow.Alike S)
        (Eval.repeatWhile x y (m + 1)) (Eval.repeatWhile x' y' (m' + 1)) := by
    refine h.bind hx fun b b' hb => ?_
    subst hb
    refine ite (h.bind hy fun flow flow' hflow => ?_) (h.pure .next)
    cases hflow with
    | next => exact ih
    | returned hv => exact h.pure (.returned hv)
  induction n' generalizing n with
  | zero =>
      obtain rfl := Nat.le_zero.1 hle
      exact h.throw .starved
  | succ n' ih =>
      cases n with
      | succ n =>
          exact hround (ih (Nat.le_of_succ_le_succ hle) fun hlt =>
            hcut (Nat.succ_lt_succ hlt))
      | zero =>
          exact hcut (Nat.succ_pos n') (hround (ih (Nat.le_refl n')
            fun hlt => absurd hlt (Nat.lt_irrefl n')))

theorem truth (h : Lockstep limits limits' S R) (op : BinaryOp)
    (span : Span) {v v' : Value} (hv : v.Alike S v') :
    R Eq (truth op span v) (truth op span v') := by
  cases hv with
  | bool b => exact h.pure rfl
  | _ => exact h.throw _

theorem conditionTruth (h : Lockstep limits limits' S R)
    (keyword : String) (span : Span) {v v' : Value} (hv : v.Alike S v') :
    R Eq (conditionTruth keyword span v)
      (conditionTruth keyword span v') := by
  cases hv with
  | bool b => exact h.pure rfl
  | _ => exact h.throw _

theorem callable (h : Lockstep limits limits' S R) (callee call : Span)
    (arguments : Nat) {v v' : Value} (hv : v.Alike S v') :
    R (fun c c' => (Value.function c).Alike S (.function c'))
      (callable callee call arguments v)
      (callable callee call arguments v') := by
  cases hv with
  | function hij =>
      refine ite (h.bind (A := Any) (h.throw _) fun _ _ _ => ?_) ?_
      · exact h.pure (.function hij)
      · exact h.pure (.function hij)
  | _ => exact h.throw _

theorem operation (h : Lockstep limits limits' S R) (span : Span)
    {r : Except OperandFault Value}
    (hr : ∀ v, r = .ok v → ∃ k : Code.Constant, k.value = v) :
    R (Value.Alike S) (Run.operation span r) (Run.operation span r) := by
  cases r with
  | error f => exact h.throw _
  | ok v =>
      obtain ⟨k, rfl⟩ := hr v rfl
      exact h.pure (k.alike S)

theorem unary (h : Lockstep limits limits' S R) (span : Span)
    (op : UnaryOp) {v v' : Value} (hv : v.Alike S v') :
    R (Value.Alike S) (Run.operation span (op.apply v))
      (Run.operation span (op.apply v')) := by
  rw [← hv.unary op]
  exact h.operation span fun _ => Stack.constant_of_unary

theorem binary (h : Lockstep limits limits' S R) (span : Span)
    (op : BinaryOp) {v v' w w' : Value} (hv : v.Alike S v')
    (hw : w.Alike S w') :
    R (Value.Alike S) (Run.operation span (op.apply v w))
      (Run.operation span (op.apply v' w')) := by
  rw [← hv.binary h.biUnique op hw]
  exact h.operation span fun _ => Stack.constant_of_binary

theorem declare (h : Lockstep limits limits' S R) {a b : Place}
    (hab : a.Alike S b) (d : FnDecl) :
    R Any (Run.declare a d) (Run.declare b d) :=
  h.define d.name.name hab (.function hab.scope)

theorem forall₂_zip {vs : List α} {vs' : List β}
    (hvs : List.Forall₂ A vs vs') (xs : List γ) :
    List.Forall₂ (fun a b => a.1 = b.1 ∧ A a.2 b.2) (xs.zip vs)
      (xs.zip vs') := by
  induction hvs generalizing xs with
  | nil => simp
  | cons hv _ ih =>
      cases xs with
      | nil => exact .nil
      | cons x xs => exact .cons ⟨rfl, hv⟩ (ih xs)

theorem enter (h : Lockstep limits limits' S R) {a b : Place}
    (hab : a.Alike S b) {c c' : Closure}
    (hc : (Value.function c).Alike S (.function c')) {vs vs' : List Value}
    (hvs : List.Forall₂ (Value.Alike S) vs vs') (call : Span) :
    R (Place.Alike S) (enter limits a c vs call)
      (enter limits' b c' vs' call) := by
  obtain ⟨i, depth⟩ := a
  obtain ⟨j, depth'⟩ := b
  obtain rfl : depth = depth' := hab.depth
  cases hc with
  | @function d i j weak hij =>
      refine h.deepen depth call (h.bind (h.child hij) fun k l hkl => ?_)
      have hplace : Place.Alike S ⟨k, depth + 1⟩ ⟨l, depth + 1⟩ :=
        ⟨hkl, rfl⟩
      refine h.bind (h.forM ?_ (forall₂_zip hvs d.params)) fun _ _ _ =>
        h.pure hplace
      rintro ⟨p, v⟩ ⟨p', v'⟩ ⟨hp, hv⟩
      obtain rfl : p = p' := hp
      exact h.define p.name hplace hv

-- ============================================================ evaluation

section

variable {n n' : Nat}

/-- Every expression is related to itself, at two levels of fuel. -/
def Expressions (limits limits' : Limits) (S : ScopeId → ScopeId → Prop)
    (R : Pairing) (n n' : Nat) : Prop :=
  ∀ (e : Expr) ⦃a b : Place⦄, a.Alike S b →
    R (Value.Alike S) (eval limits n a e) (eval limits' n' b e)

/-- Every statement is related to itself, at two levels of fuel. -/
def Statements (limits limits' : Limits) (S : ScopeId → ScopeId → Prop)
    (R : Pairing) (n n' : Nat) : Prop :=
  ∀ (s : Stmt) ⦃a b : Place⦄, a.Alike S b →
    R (Flow.Alike S) (exec limits n a s) (exec limits' n' b s)

theorem Expressions.succ (h : Lockstep limits limits' S R)
    (heval : Expressions limits limits' S R n n')
    (hexec : Statements limits limits' S R n n') :
    Expressions limits limits' S R (n + 1) (n' + 1) := by
  intro e a b hab
  unfold eval
  refine h.bind (h.tick e.span) fun _ _ _ => ?_
  cases e with
  | number _ x => exact h.pure (.number x)
  | string _ s => exact h.pure (.string s)
  | bool _ b => exact h.pure (.bool b)
  | nil _ => exact h.pure .nil
  | ident span name => exact h.lookup name span hab
  | group _ e => exact heval e hab
  | unary span op e =>
      exact h.bind (heval e hab) fun v v' hv => h.unary span op hv
  | binary span op l r =>
      refine h.bind (heval l hab) fun v v' hv => ite ?_ ?_
      · refine h.bind (h.truth op l.span hv) fun b b' hb => ?_
        subst hb
        refine ite (h.pure (.bool b)) ?_
        refine h.bind (heval r hab) fun w w' hw => ?_
        refine h.bind (h.truth op r.span hw) fun c c' hc => ?_
        subst hc
        exact h.pure (.bool c)
      · exact h.bind (heval r hab) fun w w' hw => h.binary span op hv hw
  | assign _ target e =>
      exact h.bind (heval e hab) fun v v' hv =>
        h.bind (h.assign target hab hv) fun _ _ _ => h.pure hv
  | call span f args =>
      refine h.bind (heval f hab) fun v v' hv => ?_
      refine h.bind (h.callable f.span span args.length hv)
        fun c c' hc => ?_
      refine h.bind (h.mapM fun e _ => heval e hab) fun vs vs' hvs => ?_
      refine h.bind (h.enter hab hc hvs span) fun i j hij => ?_
      cases hc with
      | function =>
          refine h.bind (h.sequence (fun s => hexec s hij) _)
            fun flow flow' hflow => ?_
          cases hflow with
          | next => exact h.pure .nil
          | returned hv => exact h.pure hv

/-- A block on both sides, in a scope of its own. -/
theorem block (h : Lockstep limits limits' S R)
    (hexec : Statements limits limits' S R n n') {a b : Place}
    (hab : a.Alike S b) (ss : List Stmt) :
    R (Flow.Alike S)
      (do
        let inner : Place := ⟨← Run.child a.scope, a.depth⟩
        Eval.sequence (fun s => exec limits n inner s) ss)
      (do
        let inner : Place := ⟨← Run.child b.scope, b.depth⟩
        Eval.sequence (fun s => exec limits' n' inner s) ss) :=
  h.bind (h.child hab.scope) fun i j hij =>
    have hinner : Place.Alike S ⟨i, a.depth⟩ ⟨j, b.depth⟩ :=
      ⟨hij, hab.depth⟩
    h.sequence (fun s => hexec s hinner) ss

theorem Statements.succ (h : Lockstep limits limits' S R) (hle : n ≤ n')
    (hcut : n < n' → CutsOff R)
    (heval : Expressions limits limits' S R n n')
    (hexec : Statements limits limits' S R n n') :
    Statements limits limits' S R (n + 1) (n' + 1) := by
  intro s a b hab
  have hcond (keyword : String) (e : Expr) := h.bind (heval e hab)
    fun v v' hv => h.conditionTruth keyword e.span hv
  unfold exec
  refine h.bind (h.tick s.span) fun _ _ _ => ?_
  cases s with
  | declare _ x init =>
      have hrest (v v' : Value) (hv : v.Alike S v') :=
        h.bind (h.define x.name hab hv) fun _ _ _ =>
          h.pure (Flow.Alike.next (S := S))
      cases init with
      | none => exact h.bind (h.pure .nil) hrest
      | some e => exact h.bind (heval e hab) hrest
  | function d =>
      exact h.bind (h.declare hab d) fun _ _ _ => h.pure .next
  | expression _ e =>
      exact h.bind (heval e hab) fun _ _ _ => h.pure .next
  | block b => exact h.block hexec hab b.statements
  | branch _ cond thenPart elsePart =>
      refine h.bind (hcond "if" cond) fun b b' hb => ?_
      subst hb
      refine ite (h.block hexec hab thenPart.statements) ?_
      cases elsePart with
      | none => exact h.pure .next
      | some s => exact hexec s hab
  | loop _ cond body =>
      exact h.repeatWhile (hcond "while" cond)
        (h.block hexec hab body.statements) hle hcut
  | giveBack _ value =>
      cases value with
      | none => exact h.pure (.returned .nil)
      | some e =>
          exact h.bind (heval e hab) fun v v' hv => h.pure (.returned hv)
  | print span e =>
      refine h.bind (heval e hab) fun v v' hv => ?_
      rw [hv.text]
      exact h.bind (h.printLine v'.text span) fun _ _ _ => h.pure .next
  | empty _ => exact h.pure .next

/-- Evaluation is related to itself, with as much fuel on the right as on
the left; it may have more if running out is told apart from nothing. -/
theorem evaluation (h : Lockstep limits limits' S R) (hle : n ≤ n')
    (hcut : n < n' → CutsOff R) :
    Expressions limits limits' S R n n'
      ∧ Statements limits limits' S R n n' := by
  induction n' generalizing n with
  | zero =>
      obtain rfl := Nat.le_zero.1 hle
      refine ⟨fun e a b _ => ?_, fun s a b _ => ?_⟩
      · unfold eval
        exact h.throw .starved
      · unfold exec
        exact h.throw .starved
  | succ n' ih =>
      cases n with
      | succ n =>
          have hle' := Nat.le_of_succ_le_succ hle
          have hcut' (hlt : n < n') := hcut (Nat.succ_lt_succ hlt)
          obtain ⟨heval, hexec⟩ := ih hle' hcut'
          exact ⟨.succ h heval hexec, .succ h hle' hcut' heval hexec⟩
      | zero =>
          have hnot (hlt : n' < n') : CutsOff R :=
            absurd hlt (Nat.lt_irrefl n')
          obtain ⟨heval, hexec⟩ := ih (Nat.le_refl n') hnot
          have heval' := Expressions.succ h heval hexec
          have hexec' := Statements.succ h (Nat.le_refl n') hnot heval hexec
          refine ⟨fun e a b hab => ?_, fun s a b hab => ?_⟩
          · unfold eval
            exact hcut (Nat.succ_pos n') (heval' e hab)
          · unfold exec
            exact hcut (Nat.succ_pos n') (hexec' s hab)

theorem topLevel (h : Lockstep limits limits' S R) (hle : n ≤ n')
    (hcut : n < n' → CutsOff R) {a b : Place} (hab : a.Alike S b)
    {v v' : Value} (hv : v.Alike S v') (ss : List Stmt) :
    R (Value.Alike S) (topLevel limits n a v ss)
      (topLevel limits' n' b v' ss) := by
  obtain ⟨heval, hexec⟩ := h.evaluation hle hcut
  induction ss generalizing v v' with
  | nil => exact h.pure hv
  | cons s ss ih =>
      cases s with
      | function d => exact ih .nil
      | expression span e =>
          exact h.bind (h.tick span) fun _ _ _ =>
            h.bind (heval e hab) fun _ _ hv => ih hv
      | _ =>
          refine h.bind (hexec _ hab) fun flow flow' hflow => ?_
          cases hflow with
          | next => exact ih .nil
          | returned hv => exact h.pure hv

/-- A program is related to itself. -/
theorem program (h : Lockstep limits limits' S R) (hle : n ≤ n')
    (hcut : n < n' → CutsOff R) {i j : ScopeId} (hij : S i j)
    (p : Program) :
    R (Value.Alike S) (program limits n i p)
      (program limits' n' j p) := by
  have hab : Place.Alike S ⟨i, 0⟩ ⟨j, 0⟩ := ⟨hij, rfl⟩
  have hds : List.Forall₂ Eq p.functions p.functions :=
    List.forall₂_same.2 fun _ _ => rfl
  refine h.bind (h.forM ?_ hds) fun _ _ _ =>
    h.topLevel hle hcut hab .nil p.statements
  rintro d _ rfl
  exact h.declare hab d

end

end Lockstep

end Eval

end Script
