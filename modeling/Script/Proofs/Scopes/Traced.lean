/-
Evaluation, with glimpses of the scopes. Each action of a run leaves a
glimpse of the scopes that there are behind it and of the one that it
stands in, and each expression one of its value as well. Evaluation itself
is what it always is.

Every glimpse is sound: the scopes are well founded, the run stands in one
of them, and so does a function that is the value of an expression. Values
that were computed are kept aside while others are still computed, and what
was known of them has to hold of the scopes behind that. It does, as there
are never fewer scopes than before; so what is said of a value is said with
regard to a number of scopes (`Attests`).
-/
import Script.Proofs.Instrumented
import Script.Proofs.Lexical.Keeps
import Script.Proofs.Rollback.Sessions
import Script.Proofs.Scopes.Founded
import Script.Proofs.Stack.Simulates

namespace Script

/-- What a statement returns captured no scope, or one of the first `n`. -/
def Eval.Flow.Within (n : Nat) : Eval.Flow → Prop
  | .next => True
  | .returned v => v.Within n

namespace Traces

open Eval

/-- A glimpse of a run: the scopes that there are, the one that it stands
in, and the value of an expression, if one was just computed. -/
structure Glimpse where
  heap : Heap
  scope : ScopeId
  value? : Option Value

/-- A running program, with the glimpses of it, the latest one first. -/
structure Trace where
  machine : Machine
  glimpses : List Glimpse

/-- An action of a running program that leaves glimpses. -/
abbrev Traced := EStateM Stop Trace

/-- Before a program runs. -/
def Trace.start (heap : Heap) (globals : ScopeId) (sink : Sink) : Trace :=
  ⟨⟨heap, sink, 0⟩, [⟨heap, globals, none⟩]⟩

/-- One more glimpse. -/
def Trace.see (t : Trace) (scope : ScopeId) (value? : Option Value) :
    Trace :=
  { t with glimpses := ⟨t.machine.heap, scope, value?⟩ :: t.glimpses }

/-- The number of scopes. -/
def Trace.size (t : Trace) : Nat := t.machine.heap.scopes.size

namespace Traced

variable {α β : Type}

-- =============================================================== actions

/-- An action at a place, with a glimpse behind it. -/
def plain (place : Place) (x : Run α) : Traced α := fun t =>
  match x t.machine with
  | .ok a machine => .ok a ({ t with machine }.see place.scope none)
  | .error e machine => .error e ({ t with machine }.see place.scope none)

/-- Computes a value at a place, with a glimpse of it. -/
def valued (place : Place) (x : Traced Value) : Traced Value := fun t =>
  match x t with
  | .ok v t => .ok v (t.see place.scope (some v))
  | .error e t => .error e t

/-- The place where the body of a function runs. -/
def enter (limits : Limits) (place : Place) (c : Closure)
    (arguments : List Value) (call : Span) : Traced Place :=
  enterBy plain (fun inner x v => plain inner (Run.define inner x.name v))
    limits place c arguments call

/-- What evaluation is made of in a run that leaves glimpses. -/
def primitives : Primitives Place Trace where
  plain place x := plain place (x place)
  block place body := do
    body ⟨← plain place (Run.child place.scope), place.depth⟩
  call limits place c arguments span body := do
    body (← enter limits place c arguments span)
  valued := valued

-- ============================================================ evaluation

/-- The value of an expression. -/
def eval (limits : Limits) (fuel : Nat) (place : Place) (e : Expr) :
    Traced Value :=
  primitives.eval limits fuel place e

/-- Runs a statement. -/
def exec (limits : Limits) (fuel : Nat) (place : Place) (s : Stmt) :
    Traced Flow :=
  primitives.exec limits fuel place s

/-- Runs the statements at the top of a program. -/
def topLevel (limits : Limits) (fuel : Nat) (place : Place) (last : Value)
    (ss : List Stmt) : Traced Value :=
  primitives.topLevel limits fuel place last ss

/-- Runs a program. -/
def program (limits : Limits) (fuel : Nat) (globals : ScopeId)
    (p : Program) : Traced Value :=
  primitives.program limits fuel ⟨globals, 0⟩ p

-- =============================================================== erasure

/-- An outcome without the glimpses. -/
def erase : EStateM.Result Stop Trace α → EStateM.Result Stop Machine α :=
  forget Trace.machine

/-- The trace of a run, however it ends. -/
def traceOf : EStateM.Result Stop Trace α → Trace
  | .ok _ t => t
  | .error _ t => t

theorem erases_plain (place : Place) (x : Run α) :
    Erases Trace.machine (plain place x) x := by
  intro t
  unfold Traced.plain
  cases x t.machine with
  | ok a m => rfl
  | error e m => rfl

theorem erases_valued {x : Traced Value} {y : Run Value} (place : Place)
    (h : Erases Trace.machine x y) :
    Erases Trace.machine (valued place x) y := by
  intro t
  refine .trans ?_ (h t)
  unfold Traced.valued
  cases x t with
  | ok v u => rfl
  | error e u => rfl

/-- Leaving glimpses changes nothing. -/
theorem primitives_mirrors : primitives.Mirrors fun place x y =>
    Erases Trace.machine x (y place) where
  toComposes := .erases Trace.machine
  plain place x := erases_plain place (x place)
  tick _ _ _ := erases_plain _ _
  lookup _ _ := erases_plain _ _
  assign _ _ _ := erases_plain _ _
  define place x v := erases_plain place (Run.define place x.name v)
  declare place d := erases_plain place (Run.declare place d)
  block _ _ _ hbody := .bind (erases_plain _ _) fun _ => hbody _
  call limits place c vs span _ _ hbody :=
    .bind (.enterBy erases_plain (fun _ _ _ => erases_plain _ _) limits place
      c vs span) hbody
  valued := erases_valued _

/-- A traced run of a program is a run of the program. -/
theorem program_erases (limits : Limits) (fuel : Nat) (globals : ScopeId)
    (p : Program) :
    Erases Trace.machine (program limits fuel globals p)
      (Eval.program limits fuel globals p) :=
  primitives_mirrors.program_erases limits fuel globals p

end Traced

-- ================================================================= sound

variable {globals : ScopeId} {n k : Nat} {α β : Type}
  {Q : Nat → α → Prop} {R : Nat → β → Prop}

/-- A glimpse of scopes that are well founded, where the run stands in one
of them, and so does what the value captured. -/
structure Glimpse.Sound (globals : ScopeId) (g : Glimpse) : Prop where
  heap : g.heap.Founded globals
  scope : g.scope < g.heap.scopes.size
  value : ∀ v ∈ g.value?, v.Within g.heap.scopes.size

/-- A running program of which all glimpses are sound. There were never
more scopes than at a later time. -/
structure Trace.Sound (globals : ScopeId) (t : Trace) : Prop where
  heap : t.machine.heap.Founded globals
  glimpses : ∀ g ∈ t.glimpses, g.Sound globals
  fewer : ∀ g ∈ t.glimpses, g.heap.scopes.size ≤ t.size
  growing : t.glimpses.Pairwise fun later g =>
    g.heap.scopes.size ≤ later.heap.scopes.size

theorem Trace.Sound.see {t : Trace} (h : t.Sound globals) {scope : ScopeId}
    (hscope : scope < t.size) {value? : Option Value}
    (hvalue : ∀ v ∈ value?, v.Within t.size) :
    (t.see scope value?).Sound globals where
  heap := h.heap
  glimpses := List.forall_mem_cons.2
    ⟨⟨h.heap, hscope, hvalue⟩, h.glimpses⟩
  fewer := List.forall_mem_cons.2 ⟨Nat.le_refl _, h.fewer⟩
  growing := List.pairwise_cons.2 ⟨h.fewer, h.growing⟩

/-- The machine goes on. -/
theorem Trace.Sound.step {t : Trace} (h : t.Sound globals) {m : Machine}
    (hm : m.heap.Founded globals) (hle : t.size ≤ m.heap.scopes.size) :
    (Trace.mk m t.glimpses).Sound globals where
  heap := hm
  glimpses := h.glimpses
  fewer g hg := Nat.le_trans (h.fewer g hg) hle
  growing := h.growing

theorem Trace.sound_start {heap : Heap} (h : heap.Founded globals)
    (sink : Sink) : (start heap globals sink).Sound globals where
  heap := h
  glimpses := List.forall_mem_singleton.2
    ⟨h, Heap.lt_size_of_parent h.root, nofun⟩
  fewer := List.forall_mem_singleton.2 (Nat.le_refl _)
  growing := List.pairwise_singleton ..

-- ========================================================== safe actions

/-- An action that keeps scopes well founded where there are at least `n`.
It takes none away, and yields something of which `Q` holds with regard to
the number of them. -/
def Safe (globals : ScopeId) (n : Nat) (Q : Nat → α → Prop) (x : Run α) :
    Prop :=
  ∀ m, m.heap.Founded globals → n ≤ m.heap.scopes.size →
    match x m with
    | .ok a m' => m'.heap.Founded globals
        ∧ m.heap.scopes.size ≤ m'.heap.scopes.size
        ∧ Q m'.heap.scopes.size a
    | .error _ m' => m'.heap.Founded globals
        ∧ m.heap.scopes.size ≤ m'.heap.scopes.size

namespace Safe

variable {x : Run α} {place : Place} {v : Value}

/-- An action that leaves the scopes as they are. -/
theorem of_heap (hx : ∀ m, (behind (x m)).heap = m.heap)
    (hQ : ∀ m a m', m.heap.Founded globals → n ≤ m.heap.scopes.size →
      x m = .ok a m' → Q m.heap.scopes.size a) : Safe globals n Q x := by
  intro m hm hn
  have hheap := hx m
  cases hrun : x m with
  | ok a m' =>
      rw [hrun] at hheap
      have hheap : m'.heap = m.heap := hheap
      dsimp only
      rw [hheap]
      exact ⟨hm, Nat.le_refl _, hQ m a m' hm hn hrun⟩
  | error e m' =>
      rw [hrun] at hheap
      have hheap : m'.heap = m.heap := hheap
      dsimp only
      rw [hheap]
      exact ⟨hm, Nat.le_refl _⟩

/-- An action that has nothing to do with the scopes. -/
theorem of_quiet (hx : Lexical.Quiet x)
    (hQ : ∀ m a m', n ≤ m.heap.scopes.size → x m = .ok a m' →
      Q m.heap.scopes.size a) : Safe globals n Q x := by
  refine of_heap (fun m => ?_) fun m a m' _ => hQ m a m'
  have hm := hx m
  cases hrun : x m with
  | ok a m' =>
      rw [hrun] at hm
      exact hm
  | error e m' =>
      rw [hrun] at hm
      exact hm.1

theorem still (hx : Lexical.Quiet x) :
    Safe globals n (fun _ _ => True) x :=
  of_quiet hx fun _ _ _ _ _ => trivial

theorem fail (f : Fault) (span : Span) :
    Safe globals n Q (Run.fail f span : Run α) :=
  of_heap (fun _ => rfl) nofun

theorem lookup (place : Place) (name : String) (span : Span) :
    Safe globals n (fun k v => v.Within k) (Run.lookup place name span) := by
  refine of_heap (fun m => ?_) fun m v m' hm _ hrun =>
    hm.get? (Stack.lookup_ok hrun).2
  unfold Run.lookup
  rw [Lexical.get_bind]
  cases m.heap.get? place.scope name <;> rfl

/-- No operator yields a function. -/
theorem operation {r : Except OperandFault Value} (span : Span)
    (hr : ∀ v, r = .ok v → ∃ k : Code.Constant, k.value = v) :
    Safe globals n (fun k v => v.Within k) (Run.operation span r) := by
  refine of_quiet (.operation span r) fun m v m' _ hrun => ?_
  obtain ⟨k, rfl⟩ := hr v (Stack.operation_ok hrun).2
  exact Value.within_of_not_function (Lexical.Constant.not_function k)

theorem callable (callee call : Span) (count : Nat) (hv : v.Within n) :
    Safe globals n (fun k c => c.scope < k)
      (callable callee call count v) := by
  refine of_quiet (.callable callee call count v) fun m c m' hn hrun => ?_
  obtain ⟨-, rfl, -⟩ := Stack.callable_ok hrun
  exact hv.mono hn

theorem define (place : Place) (name : String) (hv : v.Within n) :
    Safe globals n (fun _ _ => True) (Run.define place name v) :=
  fun m hm hn => ⟨hm.define place.scope name (hv.mono hn),
    Nat.le_of_eq (m.heap.size_define ..).symm, trivial⟩

theorem assign (place : Place) (target : Ident) (hv : v.Within n) :
    Safe globals n (fun _ _ => True) (Run.assign place target v) := by
  intro m hm hn
  unfold Run.assign
  rw [Lexical.get_bind]
  cases m.heap.owner? place.scope target.name with
  | none => exact ⟨hm, Nat.le_refl _⟩
  | some i => exact define ⟨i, place.depth⟩ target.name hv m hm hn

/-- A new scope is one more. -/
theorem child {parent : ScopeId} (hparent : parent < n) :
    Safe globals n (fun k i => i < k) (Run.child parent) := by
  intro m hm hn
  have hsize := m.heap.size_child parent
  refine ⟨hm.child (Nat.lt_of_lt_of_le hparent hn), ?_, ?_⟩
  · exact hsize ▸ Nat.le_succ _
  · exact hsize ▸ Nat.lt_succ_self _

theorem declare (hplace : place.scope < n) (d : FnDecl) :
    Safe globals n (fun _ _ => True) (Run.declare place d) :=
  define place d.name.name (v := .function ⟨d, place.scope, false⟩) hplace

end Safe

-- ======================================================= traced actions

/-- A traced action where there are at least `n` scopes: all glimpses are
sound, no scopes are taken away, and `Q` holds of what the action yields,
with regard to the number of scopes behind it. -/
def Attests (globals : ScopeId) (n : Nat) (Q : Nat → α → Prop)
    (x : Traced α) : Prop :=
  ∀ t : Trace, t.Sound globals → n ≤ t.size →
    match x t with
    | .ok a t' => t'.Sound globals ∧ t.size ≤ t'.size ∧ Q t'.size a
    | .error _ t' => t'.Sound globals ∧ t.size ≤ t'.size

namespace Attests

variable {x : Traced α} {f : α → Traced β} {place : Place}

/-- What is attested of fewer scopes is so of more. -/
theorem mono (h : Attests globals n Q x) (hle : n ≤ k) :
    Attests globals k Q x :=
  fun t ht hn => h t ht (Nat.le_trans hle hn)

theorem pure {a : α} (ha : ∀ k, n ≤ k → Q k a) :
    Attests globals n Q (pure a) :=
  fun t ht hn => ⟨ht, Nat.le_refl _, ha t.size hn⟩

theorem throw (e : Stop) : Attests globals n Q (throw e) :=
  fun _ ht _ => ⟨ht, Nat.le_refl _⟩

/-- Behind an action there are as many scopes at least, and `Q` holds with
regard to their number. -/
theorem bind (hx : Attests globals n Q x)
    (hf : ∀ k, n ≤ k → ∀ a, Q k a → Attests globals k R (f a)) :
    Attests globals n R (x >>= f) := by
  intro t ht hn
  have hxt := hx t ht hn
  show match EStateM.bind x f t with
    | .ok b t' => t'.Sound globals ∧ t.size ≤ t'.size ∧ R t'.size b
    | .error _ t' => t'.Sound globals ∧ t.size ≤ t'.size
  unfold EStateM.bind
  cases hrun : x t with
  | error e t' =>
      rw [hrun] at hxt
      exact hxt
  | ok a t' =>
      rw [hrun] at hxt
      obtain ⟨ht', hle, ha⟩ := hxt
      have hrest :=
        hf t'.size (Nat.le_trans hn hle) a ha t' ht' (Nat.le_refl _)
      dsimp only
      cases hrun' : f a t' with
      | ok b t'' =>
          rw [hrun'] at hrest
          exact ⟨hrest.1, Nat.le_trans hle hrest.2.1, hrest.2.2⟩
      | error e t'' =>
          rw [hrun'] at hrest
          exact ⟨hrest.1, Nat.le_trans hle hrest.2⟩

theorem ite {c : Prop} [Decidable c] {x' : Traced α}
    (h : Attests globals n Q x) (h' : Attests globals n Q x') :
    Attests globals n Q (if c then x else x') := by
  by_cases hc : c
  · rw [if_pos hc]
    exact h
  · rw [if_neg hc]
    exact h'

/-- The glimpse behind an action is sound where the action is safe. -/
theorem plain {y : Run α} (hplace : place.scope < n)
    (hy : Safe globals n Q y) :
    Attests globals n Q (Traced.plain place y) := by
  intro t ht hn
  have hyt := hy t.machine ht.heap hn
  have hsee {m : Machine} (hm : m.heap.Founded globals)
      (hle : t.size ≤ m.heap.scopes.size) :
      ((Trace.mk m t.glimpses).see place.scope none).Sound globals :=
    (ht.step hm hle).see
      (Nat.lt_of_lt_of_le hplace (Nat.le_trans hn hle)) nofun
  unfold Traced.plain
  cases hrun : y t.machine with
  | ok a m =>
      rw [hrun] at hyt
      exact ⟨hsee hyt.1 hyt.2.1, hyt.2⟩
  | error e m =>
      rw [hrun] at hyt
      exact ⟨hsee hyt.1 hyt.2, hyt.2⟩

/-- The glimpse of a value is sound. -/
theorem valued {x : Traced Value} (hplace : place.scope < n)
    (hx : Attests globals n (fun k v => v.Within k) x) :
    Attests globals n (fun k v => v.Within k) (Traced.valued place x) := by
  intro t ht hn
  have hxt := hx t ht hn
  unfold Traced.valued
  cases hrun : x t with
  | ok v t' =>
      rw [hrun] at hxt
      obtain ⟨ht', hle, hv⟩ := hxt
      refine ⟨ht'.see ?_ ?_, hle, hv⟩
      · exact Nat.lt_of_lt_of_le hplace (Nat.le_trans hn hle)
      · rintro _ ⟨⟩
        exact hv
  | error e t' =>
      rw [hrun] at hxt
      exact hxt

theorem forM {f : β → Traced Unit} {bs : List β}
    (h : ∀ b ∈ bs, Attests globals n (fun _ _ => True) (f b)) :
    Attests globals n (fun _ _ => True) (bs.forM f) := by
  induction bs with
  | nil => exact .pure fun _ _ => trivial
  | cons b bs ih =>
      obtain ⟨hb, hbs⟩ := List.forall_mem_cons.1 h
      exact hb.bind fun k hk _ _ => (ih hbs).mono hk

/-- Values that are computed in order. -/
theorem mapM {f : β → Traced Value}
    (h : ∀ b, Attests globals n (fun k v => v.Within k) (f b))
    (bs : List β) :
    Attests globals n (fun k vs => ∀ v ∈ vs, v.Within k) (bs.mapM f) := by
  induction bs with
  | nil => exact .pure fun _ _ => List.forall_mem_nil _
  | cons b bs ih =>
      rw [List.mapM_cons]
      refine (h b).bind fun k hk v hv => (ih.mono hk).bind fun l hl vs hvs =>
        .pure fun m hm => List.forall_mem_cons.2 ⟨?_, fun w hw => ?_⟩
      · exact hv.mono (Nat.le_trans hl hm)
      · exact (hvs w hw).mono hm

theorem sequence {f : Stmt → Traced Flow}
    (h : ∀ s, Attests globals n Flow.Within (f s)) (ss : List Stmt) :
    Attests globals n Flow.Within (sequence f ss) := by
  induction ss with
  | nil => exact .pure fun _ _ => trivial
  | cons s ss ih =>
      refine (h s).bind fun k hk flow hflow => ?_
      cases flow with
      | next => exact ih.mono hk
      | returned v => exact .pure fun l hl => Value.Within.mono hflow hl

theorem repeatWhile {x : Traced Bool} {f : Traced Flow}
    (hx : Attests globals n (fun _ _ => True) x)
    (hf : Attests globals n Flow.Within f) (fuel : Nat) :
    Attests globals n Flow.Within (repeatWhile x f fuel) := by
  induction fuel with
  | zero => exact .throw _
  | succ fuel ih =>
      refine hx.bind fun k hk b _ => .ite ?_ (.pure fun _ _ => trivial)
      refine (hf.mono hk).bind fun l hl flow hflow => ?_
      cases flow with
      | next => exact ih.mono (Nat.le_trans hk hl)
      | returned v => exact .pure fun m hm => Value.Within.mono hflow hm

/-- The body of a function runs in a scope that is created for it, inside of
the one that the function captured. -/
theorem call (limits : Limits) (hplace : place.scope < n) {c : Closure}
    (hc : c.scope < n) {vs : List Value} (hvs : ∀ v ∈ vs, v.Within n)
    (span : Span) {body : Place → Traced Flow}
    (hbody : ∀ k inner, inner.scope < k →
      Attests globals k Flow.Within (body inner)) :
    Attests globals n Flow.Within
      (Traced.primitives.call limits place c vs span body) := by
  have hrest : Attests globals n (fun k inner => inner.scope < k) (do
      let inner : Place :=
        ⟨← Traced.plain place (Run.child c.scope), place.depth + 1⟩
      (c.decl.params.zip vs).forM fun b =>
        Traced.plain inner (Run.define inner b.1.name b.2)
      return inner) := by
    refine (plain hplace (.child hc)).bind fun k hk i hi => ?_
    refine (forM fun b hb => plain hi ?_).bind fun l hl _ _ =>
      .pure fun m hm => Nat.lt_of_lt_of_le hi (Nat.le_trans hl hm)
    exact .define _ _ ((hvs b.2 (List.of_mem_zip hb).2).mono hk)
  have henter : Attests globals n (fun k inner => inner.scope < k)
      (Traced.enter limits place c vs span) := by
    unfold Traced.enter enterBy
    refine .ite ?_ hrest
    exact (plain (Q := fun _ _ => True) hplace (.fail _ _)).bind
      fun k hk _ _ => hrest.mono hk
  exact henter.bind fun k _ inner hinner => hbody k inner hinner

end Attests

-- ====================================================== every evaluation

mutual

/-- Evaluating an expression in a scope that is there. -/
theorem eval_attests (limits : Limits) (fuel : Nat) {n : Nat}
    {place : Place} (hplace : place.scope < n) (e : Expr) :
    Attests globals n (fun k v => v.Within k)
      (Traced.eval limits fuel place e) := by
  cases fuel with
  | zero =>
      unfold Traced.eval Primitives.eval
      exact .throw _
  | succ fuel =>
      have heval {k : Nat} (hk : n ≤ k) (e : Expr) :=
        eval_attests limits fuel (Nat.lt_of_lt_of_le hplace hk) e
      unfold Traced.eval Primitives.eval
      refine .valued hplace ((Attests.plain hplace
        (.still (.tick limits e.span))).bind fun k hk _ _ => ?_)
      have hplain {α : Type} {l : Nat} (hl : k ≤ l) {Q : Nat → α → Prop}
          {y : Run α} (hy : Safe globals l Q y) :=
        Attests.plain (Nat.lt_of_lt_of_le hplace (Nat.le_trans hk hl)) hy
      cases e with
      | number _ x => exact .pure fun _ _ => trivial
      | string _ s => exact .pure fun _ _ => trivial
      | bool _ b => exact .pure fun _ _ => trivial
      | nil _ => exact .pure fun _ _ => trivial
      | ident span name =>
          exact hplain (Nat.le_refl _) (.lookup place name span)
      | group _ e => exact heval hk e
      | unary span op e =>
          refine (heval hk e).bind fun l hl v _ => hplain hl ?_
          exact .operation span fun _ => Stack.constant_of_unary
      | binary span op a b =>
          refine (heval hk a).bind fun l hl v _ => .ite ?_ ?_
          · refine (hplain hl (.still (.truth op _ v))).bind fun l' hl' c _ =>
              .ite (.pure fun _ _ => trivial) ?_
            refine (heval (Nat.le_trans hk (Nat.le_trans hl hl')) b).bind
              fun m hm w _ => ?_
            exact (hplain (Nat.le_trans hl (Nat.le_trans hl' hm))
              (.still (.truth op _ w))).bind fun _ _ _ _ =>
                .pure fun _ _ => trivial
          · refine (heval (Nat.le_trans hk hl) b).bind fun m hm w _ =>
              hplain (Nat.le_trans hl hm) ?_
            exact .operation span fun _ => Stack.constant_of_binary
      | assign _ target e =>
          refine (heval hk e).bind fun l hl v hv => ?_
          exact (hplain hl (.assign place target hv)).bind fun m hm _ _ =>
            .pure fun _ hle => hv.mono (Nat.le_trans hm hle)
      | call span f args =>
          refine (heval hk f).bind fun l hl v hv => ?_
          refine (hplain hl (.callable _ span _ hv)).bind
            fun m hm c hc => ?_
          have hkm := Nat.le_trans hl hm
          refine (Attests.mapM (heval (Nat.le_trans hk hkm)) args).bind
            fun q hq vs hvs => ?_
          -- the function captured a scope, and there are more by now
          have hkq := Nat.le_trans hk (Nat.le_trans hkm hq)
          refine (Attests.call limits (Nat.lt_of_lt_of_le hplace hkq)
            (Nat.lt_of_lt_of_le hc hq) hvs span fun r inner hinner =>
              .sequence (exec_attests limits fuel hinner) _).bind
                fun u _ flow hflow => ?_
          cases flow with
          | next => exact .pure fun _ _ => trivial
          | returned v => exact .pure fun _ hle => Value.Within.mono hflow hle

/-- Running a statement in a scope that is there. -/
theorem exec_attests (limits : Limits) (fuel : Nat) {n : Nat}
    {place : Place} (hplace : place.scope < n) (s : Stmt) :
    Attests globals n Flow.Within (Traced.exec limits fuel place s) := by
  cases fuel with
  | zero =>
      unfold Traced.exec Primitives.exec
      exact .throw _
  | succ fuel =>
      have hin {k : Nat} (hk : n ≤ k) := Nat.lt_of_lt_of_le hplace hk
      have heval {k : Nat} (hk : n ≤ k) (e : Expr) :=
        eval_attests limits fuel (hin hk) e
      have hblock {k : Nat} (hk : n ≤ k) (b : Block) :=
        (Attests.plain (hin hk) (Safe.child (hin hk))).bind
          fun _ _ i hi =>
            have hinner : (Place.mk i place.depth).scope < _ := hi
            Attests.sequence (exec_attests limits fuel hinner) b.statements
      have hcond {k : Nat} (hk : n ≤ k) (keyword : String) (e : Expr) :=
        (heval hk e).bind fun l hl v _ =>
          Attests.plain (hin (Nat.le_trans hk hl))
            (.still (.conditionTruth keyword e.span v))
      unfold Traced.exec Primitives.exec
      refine (Attests.plain hplace (.still (.tick limits s.span))).bind
        fun k hk _ _ => ?_
      cases s with
      | declare _ x init =>
          have hrest {l : Nat} (hl : k ≤ l) (v : Value) (hv : v.Within l) :=
            (Attests.plain (hin (Nat.le_trans hk hl))
              (Safe.define place x.name hv)).bind fun m _ _ _ =>
                (.pure fun _ _ => trivial : Attests globals m Flow.Within
                  (pure Flow.next))
          cases init with
          | none =>
              exact (Attests.pure (a := Value.nil)
                (Q := fun k v => v.Within k) fun _ _ => trivial).bind
                  fun _ hl => hrest hl
          | some e => exact (heval hk e).bind fun _ hl => hrest hl
      | function d =>
          exact (Attests.plain (hin hk) (.declare (hin hk) d)).bind
            fun _ _ _ _ => .pure fun _ _ => trivial
      | expression _ e =>
          exact (heval hk e).bind fun _ _ _ _ => .pure fun _ _ => trivial
      | block b => exact hblock hk b
      | branch _ cond thenPart elsePart =>
          refine (hcond hk "if" cond).bind fun l hl b _ =>
            .ite (hblock (Nat.le_trans hk hl) thenPart) ?_
          cases elsePart with
          | none => exact .pure fun _ _ => trivial
          | some s =>
              exact exec_attests limits fuel (hin (Nat.le_trans hk hl)) s
      | loop _ cond body =>
          exact .repeatWhile (hcond hk "while" cond) (hblock hk body) fuel
      | giveBack _ value =>
          cases value with
          | none => exact .pure fun _ _ => trivial
          | some e =>
              exact (heval hk e).bind fun _ _ v hv =>
                .pure fun _ hle => hv.mono hle
      | print span e =>
          refine (heval hk e).bind fun l hl v _ => ?_
          exact (Attests.plain (hin (Nat.le_trans hk hl))
            (.still (.printLine _ span))).bind fun _ _ _ _ =>
              .pure fun _ _ => trivial
      | empty _ => exact .pure fun _ _ => trivial

end

theorem topLevel_attests (limits : Limits) (fuel : Nat) {place : Place}
    (hplace : place.scope < n) {last : Value} (hlast : last.Within n)
    (ss : List Stmt) :
    Attests globals n (fun k v => v.Within k)
      (Traced.topLevel limits fuel place last ss) := by
  induction ss generalizing n last with
  | nil => exact .pure fun _ => hlast.mono
  | cons s ss ih =>
      cases s with
      | function d => exact ih hplace trivial
      | expression span e =>
          refine (Attests.plain hplace (.still (.tick limits span))).bind
            fun k hk _ _ => ?_
          have hk' := Nat.lt_of_lt_of_le hplace hk
          exact (eval_attests limits fuel hk' e).bind fun l hl v hv =>
            ih (Nat.lt_of_lt_of_le hk' hl) hv
      | _ =>
          refine (exec_attests limits fuel hplace _).bind
            fun k hk flow hflow => ?_
          cases flow with
          | next => exact ih (Nat.lt_of_lt_of_le hplace hk) trivial
          | returned v => exact .pure fun _ hle => Value.Within.mono hflow hle

/-- Running a program in a scope that is there. -/
theorem program_attests (limits : Limits) (fuel : Nat)
    (hglobals : globals < n) (p : Program) :
    Attests globals n (fun k v => v.Within k)
      (Traced.program limits fuel globals p) := by
  have hplace : (Place.mk globals 0).scope < n := hglobals
  refine (Attests.forM fun d _ => ?_).bind fun k hk _ _ => ?_
  · exact .plain hplace (.declare hplace d)
  · have hnil : Value.nil.Within k := trivial
    exact topLevel_attests limits fuel (Nat.lt_of_lt_of_le hplace hk) hnil
      p.statements

end Traces

open Eval Traces

namespace Session

variable {s : Session}

/-- A run, traced from well-founded scopes, leaves a sound trace and takes
no scopes away. -/
theorem traced_run (hs : s.heap.Founded s.globals) {limits : Limits}
    {fuel : Nat} {p : Program} {sink : Sink}
    {traced : EStateM.Result Stop Trace Value}
    (htraced : Traced.program limits fuel s.globals p
      (.start s.heap s.globals sink) = traced) :
    Traced.erase traced = s.outcome limits fuel p sink
      ∧ (Traced.traceOf traced).Sound s.globals
      ∧ s.heap.scopes.size ≤ (Traced.traceOf traced).size
      ∧ ∀ v t, traced = .ok v t → v.Within t.size := by
  have herase := Traced.program_erases limits fuel s.globals p
    (.start s.heap s.globals sink)
  have hrun := program_attests limits fuel (Heap.lt_size_of_parent hs.root) p
    (.start s.heap s.globals sink) (Trace.sound_start hs sink)
    (Nat.le_refl _)
  rw [htraced] at herase hrun
  refine ⟨herase, ?_⟩
  cases traced with
  | ok v t =>
      refine ⟨hrun.1, hrun.2.1, ?_⟩
      rintro _ _ ⟨⟩
      exact hrun.2.2
  | error e t => exact ⟨hrun.1, hrun.2, nofun⟩

/-- What a session makes of a traced run. Its scopes are well founded
however the run ended: a failed one leaves its scopes behind, and puts back
globals of which the functions captured scopes that are still there. -/
theorem founded_taken (hs : s.heap.Founded s.globals)
    {traced : EStateM.Result Stop Trace Value}
    (ht : (Traced.traceOf traced).Sound s.globals)
    (hsize : s.heap.scopes.size ≤ (Traced.traceOf traced).size) :
    (s.taken (Traced.erase traced)).2.1.heap.Founded s.globals := by
  cases traced with
  | ok v t => exact ht.heap
  | error e t =>
      have hrestored := ht.heap.restore s.globals fun b hb =>
        (hs.captured s.globals b hb).mono hsize
      cases e with
      | fault f span => exact hrestored
      | starved => exact hrestored

/-- A run is that of a traced one, with the trace left out. -/
theorem taken_traced (hs : s.heap.Founded s.globals) (limits : Limits)
    (patience : Nat) (p : Program) (sink : Sink) :
    s.taken (Traced.erase (Traced.program limits (fuel limits patience)
        s.globals p (.start s.heap s.globals sink)))
      = s.run limits patience p sink := by
  rw [(traced_run hs rfl).1, run_eq]

theorem globals_taken (s : Session)
    (x : EStateM.Result Stop Machine Value) :
    (s.taken x).2.1.globals = s.globals := by
  unfold taken
  split <;> rfl

/-- In every session that comes from runs, scopes are well founded. -/
theorem Reachable.founded (hs : s.Reachable) :
    s.heap.Founded s.globals := by
  induction hs with
  | fresh => exact Heap.founded_root
  | run _ limits patience p sink ih =>
      obtain ⟨-, ht, hsize, -⟩ := traced_run ih rfl
      rw [← taken_traced ih, globals_taken]
      exact founded_taken ih ht hsize

/-- Scopes are well founded in every session, in front of a run, at each
moment of it and behind it, whether it fails or not. The scope around one
is there, and it is older; so is the scope there that a function captured,
if it is kept in a scope, or if it is the value of an expression that was
evaluated so far. From every scope, looking up and assigning a name and
clearing come to an end: they visit scopes of one chain, each once, which
ends at the globals. Clearing leaves scopes well founded. -/
theorem scopes_founded (hs : s.Reachable) (limits : Limits)
    (patience : Nat) (p : Program) (sink : Sink) :
    let traced := Traced.program limits (fuel limits patience) s.globals p
      (.start s.heap s.globals sink)
    let glimpses := (Traced.traceOf traced).glimpses
    let r := s.run limits patience p sink
    s.taken (Traced.erase traced) = r
      ∧ (∀ g ∈ glimpses, g.Sound s.globals)
      ∧ (glimpses.Pairwise fun later g =>
        ∀ v ∈ g.value?, v.Within later.heap.scopes.size)
      ∧ (∀ v ∈ r.1.value?, v.Within r.2.1.heap.scopes.size)
      ∧ r.2.1.globals = s.globals
      ∧ ∀ h ∈ s.heap :: r.2.1.heap :: glimpses.map Glimpse.heap,
        h.Founded s.globals ∧ WellFounded h.Around
          ∧ ∀ i < h.scopes.size, h.EndsAt s.globals i
            ∧ (h.clearChain i).Founded s.globals := by
  intro traced glimpses r
  have hfounded := hs.founded
  have htaken : s.taken (Traced.erase traced) = r :=
    taken_traced hfounded limits patience p sink
  obtain ⟨-, ht, hsize, hvalue⟩ :=
    traced_run hfounded (rfl : _ = traced)
  refine ⟨htaken, ht.glimpses, ?_, ?_, ?_, fun h hh => ?_⟩
  · refine ht.growing.imp_of_mem fun _ hg hle v hv => ?_
    exact ((ht.glimpses _ hg).value v hv).mono hle
  · rw [← htaken]
    cases htraced : traced with
    | ok v t =>
        rintro _ ⟨⟩
        exact hvalue v t htraced
    | error e t =>
        cases e with
        | fault f span => exact nofun
        | starved => exact nofun
  · rw [← htaken, globals_taken]
  · have hh : h.Founded s.globals := by
      rcases List.mem_cons.1 hh with rfl | hh
      · exact hfounded
      rcases List.mem_cons.1 hh with rfl | hh
      · rw [← htaken]
        exact founded_taken hfounded ht hsize
      · obtain ⟨g, hg, rfl⟩ := List.mem_map.1 hh
        exact (ht.glimpses g hg).heap
    exact ⟨hh, hh.wellFounded, fun i hi =>
      ⟨hh.endsAt hi, hh.clearChain i⟩⟩

/-- A function leaves the block that it captured, and yields itself when it
is called. The run in front failed, and left the scopes of a call and of a
block behind. -/
theorem scopes_founded_of_escaped :
    let read (text : String) := (Program.ofText 0 text).1
    let s := (fresh.run .standard 0 (read "let f = nil; \x7b let n = 1;
      fn next() \x7b n = n + 1; return next; \x7d f = next; \x7d")
      .unlimited).2.1
    let failed := s.run .standard 0
      (read "f = f(); \x7b let g = f; missing; \x7d") .unlimited
    let s' := failed.2.1
    let traced := Traced.program .standard (fuel .standard 0) s'.globals
      (read "f()") (.start s'.heap s'.globals .unlimited)
    failed.1.diagnostics.map (·.topic) = [.name]
      ∧ s'.heap.scopes.size = 4
      ∧ s'.heap.chain 2 = [2, 1, 0]
      ∧ s'.heap.EndsAt s'.globals 2
      ∧ ∃ g ∈ (Traced.traceOf traced).glimpses, g.Sound s'.globals
        ∧ g.value?.map Value.text = some "<fn next>" := by
  intro read s failed s' traced
  obtain ⟨htopic, hsize, hchain, hcomputed⟩ :
      failed.1.diagnostics.map (·.topic) = [.name]
        ∧ s'.heap.scopes.size = 4
        ∧ s'.heap.chain 2 = [2, 1, 0]
        ∧ ((Traced.traceOf traced).glimpses.any fun g =>
          g.value?.map Value.text == some "<fn next>") = true := by
    decide +kernel
  obtain ⟨-, hsound, -, -, -, hheaps⟩ := scopes_founded (s := s')
    ((Reachable.fresh.run ..).run ..) .standard 0 (read "f()") .unlimited
  refine ⟨htopic, hsize, hchain, ?_, ?_⟩
  · obtain ⟨-, -, hends⟩ := hheaps s'.heap (List.mem_cons_self ..)
    exact (hends 2 (by rw [hsize]; decide)).1
  · obtain ⟨g, hg, htext⟩ := List.any_eq_true.1 hcomputed
    exact ⟨g, hg, hsound g hg, beq_iff_eq.1 htext⟩

end Session

end Script
