/-
One program, run with its output going to two sinks without a limit, one
of which already holds something in front. A run does not look back at
what was written: both runs come to the same, and what the front holds
stays where it is.

So a run into any sink without a limit is told by the run into an empty
one.
-/
import Script.Proofs.Budget.Limits
import Script.Proofs.Sessions

namespace Script

variable {front : ByteArray} {α β γ δ : Type} {A : α → β → Prop}
  {B : γ → δ → Prop}

/-- Two sinks without a limit, of which the second one holds the same
behind a front. -/
structure Sink.Prefixed (front : ByteArray) (s t : Sink) : Prop where
  unlimited : s.room = none
  eq : t = ⟨front ++ s.written, none⟩

/-- What a sink without a limit holds is the front of an empty one. -/
theorem Sink.prefixed_unlimited {t : Sink} (h : t.room = none) :
    Prefixed t.written .unlimited t := by
  obtain ⟨written, room⟩ := t
  obtain rfl : room = none := h
  refine ⟨rfl, congrArg (Sink.mk · none) ?_⟩
  exact (ByteArray.append_empty (b := written)).symm

theorem Sink.Prefixed.room {s t : Sink} (h : s.Prefixed front t) :
    t.room = none := by
  rw [h.eq]

theorem Sink.Prefixed.write {s t : Sink} (h : s.Prefixed front t)
    (text : String) :
    (s.write text).2.Prefixed front (t.write text).2 := by
  obtain ⟨hroom, rfl⟩ := h
  unfold Sink.write
  rw [hroom]
  exact ⟨rfl, congrArg (Sink.mk · none) ByteArray.append_assoc⟩

namespace Eval

/-- Two machines that differ in the front of their output only. -/
structure Machine.Prefixed (front : ByteArray) (m m' : Machine) :
    Prop where
  heap : m'.heap = m.heap
  steps : m'.steps = m.steps
  sink : m.sink.Prefixed front m'.sink

/-- The outcomes of two such runs: the same. -/
inductive Resumed (front : ByteArray) (A : α → β → Prop) :
    EStateM.Result Stop Machine α → EStateM.Result Stop Machine β → Prop
  | ok {a : α} {b : β} {m m' : Machine} (hab : A a b)
      (hm : m.Prefixed front m') : Resumed front A (.ok a m) (.ok b m')
  | error (e : Stop) {m m' : Machine} (hm : m.Prefixed front m') :
      Resumed front A (.error e m) (.error e m')

/-- Two actions with such outcomes. -/
def Resumes (front : ByteArray) {α β : Type} (A : α → β → Prop)
    (x : Run α) (y : Run β) : Prop :=
  ∀ m m', m.Prefixed front m' → Resumed front A (x m) (y m')

namespace Resumes

theorem pure {a : α} {b : β} (hab : A a b) :
    Resumes front A (pure a) (pure b) :=
  fun _ _ hm => .ok hab hm

theorem throw (e : Stop) :
    Resumes front A (throw e : Run α) (throw e : Run β) :=
  fun _ _ hm => .error e hm

theorem bind {x : Run α} {y : Run β} {f : α → Run γ} {g : β → Run δ}
    (hx : Resumes front A x y)
    (hf : ∀ a b, A a b → Resumes front B (f a) (g b)) :
    Resumes front B (x >>= f) (y >>= g) := by
  intro m m' hm
  have hrun := hx m m' hm
  show Resumed front B (EStateM.bind x f m) (EStateM.bind y g m')
  unfold EStateM.bind
  generalize x m = r, y m' = r' at hrun
  cases hrun with
  | ok hab hm => exact hf _ _ hab _ _ hm
  | error e hm => exact .error e hm

theorem tick (limits : Limits) (span : Span) :
    Resumes front Any (Run.tick limits span) (Run.tick limits span) := by
  intro m m' hm
  have hcounted : Machine.Prefixed front { m with steps := m.steps + 1 }
      { m' with steps := m'.steps + 1 } :=
    ⟨hm.heap, congrArg (· + 1) hm.steps, hm.sink⟩
  rw [tick_eq, tick_eq, hm.steps]
  rw [hm.steps] at hcounted
  cases limits.steps with
  | none => exact .ok trivial hcounted
  | some limit =>
      dsimp only
      split
      · exact .error _ hcounted
      · exact .ok trivial hcounted

/-- Looking up what a heap holds. -/
theorem look {f : Machine → Run α} {g : Machine → Run β}
    (h : ∀ m m' : Machine, m.Prefixed front m' →
      Resumed front A (f m m) (g m' m')) :
    Resumes front A (get >>= f) (get >>= g) := h

theorem lookup (place : Place) (name : String) (span : Span) :
    Resumes front (Value.Alike Eq) (Run.lookup place name span)
      (Run.lookup place name span) := by
  refine look fun m m' hm => ?_
  rw [hm.heap]
  cases m.heap.get? place.scope name with
  | some v => exact .ok (.refl v) hm
  | none => exact .error _ hm

theorem define (place : Place) (name : String) (v : Value) :
    Resumes front Any (Run.define place name v)
      (Run.define place name v) :=
  fun _ _ hm => .ok trivial
    ⟨congrArg (·.define place.scope name v) hm.heap, hm.steps, hm.sink⟩

theorem assign (place : Place) (target : Ident) (v : Value) :
    Resumes front Any (Run.assign place target v)
      (Run.assign place target v) := by
  refine look fun m m' hm => ?_
  rw [hm.heap]
  cases m.heap.owner? place.scope target.name with
  | some i =>
      exact .ok trivial ⟨congrArg (·.define i target.name v) hm.heap,
        hm.steps, hm.sink⟩
  | none => exact .error _ hm

theorem child (parent : ScopeId) :
    Resumes front Eq (Run.child parent) (Run.child parent) :=
  fun _ _ hm =>
    .ok (congrArg (fun h : Heap => (h.child parent).1) hm.heap.symm)
      ⟨congrArg (fun h : Heap => (h.child parent).2) hm.heap, hm.steps,
        hm.sink⟩

theorem printLine (text : String) (span : Span) :
    Resumes front Any (Run.printLine text span)
      (Run.printLine text span) := by
  intro m m' hm
  show Resumed front Any
    ((unless (m.sink.write (text ++ "\n")).1 do
        Run.fail (.output Sink.refusal) span : Run Unit)
      { m with sink := (m.sink.write (text ++ "\n")).2 })
    ((unless (m'.sink.write (text ++ "\n")).1 do
        Run.fail (.output Sink.refusal) span : Run Unit)
      { m' with sink := (m'.sink.write (text ++ "\n")).2 })
  rw [Sink.write_of_room_eq_none hm.sink.unlimited,
    Sink.write_of_room_eq_none hm.sink.room]
  exact .ok trivial ⟨hm.heap, hm.steps, hm.sink.write _⟩

/-- Evaluation does not look back at its output. -/
theorem lockstep (front : ByteArray) (limits : Limits) :
    Lockstep limits limits Eq (Resumes front) where
  biUnique := ⟨fun _ _ _ h h' => h.trans h'.symm,
    fun _ _ _ h h' => h.symm.trans h'⟩
  pure := .pure
  bind := .bind
  throw := .throw
  tick := .tick limits
  deepen _ _ hxy :=
    Lockstep.ite (.bind (A := Any) (.throw _) fun _ _ _ => hxy) hxy
  lookup name span hab := by
    obtain rfl := hab.eq
    exact .lookup _ name span
  define name hab hv := by
    obtain rfl := hab.eq
    obtain rfl := hv.eq_of_eq
    exact .define _ name _
  assign target hab hv := by
    obtain rfl := hab.eq
    obtain rfl := hv.eq_of_eq
    exact .assign _ target _
  child hij := by
    subst hij
    exact .child _
  printLine := .printLine

end Resumes

end Eval

namespace Session

open Eval

/-- A run into a sink that holds something already is the same run, with
its output behind that. -/
theorem run_prefixed (session : Session) (limits : Limits)
    (patience : Nat) (p : Program) {s t : Sink} (h : s.Prefixed front t) :
    let r := session.run limits patience p s
    let r' := session.run limits patience p t
    r'.1 = r.1 ∧ r'.2.1 = r.2.1 ∧ r.2.2.Prefixed front r'.2.2 := by
  dsimp only
  have hsame := (Resumes.lockstep front limits).program
    (Nat.le_refl (fuel limits patience))
    (fun hlt => absurd hlt (Nat.lt_irrefl _)) (Eq.refl session.globals) p
      ⟨session.heap, s, 0⟩ ⟨session.heap, t, 0⟩ ⟨rfl, rfl, h⟩
  rw [run_eq, run_eq]
  unfold outcome
  generalize program limits (fuel limits patience) session.globals p
    ⟨session.heap, s, 0⟩ = x, program limits (fuel limits patience)
    session.globals p ⟨session.heap, t, 0⟩ = x' at hsame
  have hheap {m m' : Machine} (hm : m.Prefixed front m')
      (f : Heap → Heap) : (⟨f m'.heap, session.globals⟩ : Session)
        = ⟨f m.heap, session.globals⟩ := by
    rw [hm.heap]
  let restored (heap : Heap) : Heap :=
    heap.restore session.globals session.globalBindings
  cases hsame with
  | ok hv hm =>
      obtain rfl := hv.eq_of_eq
      exact ⟨rfl, hheap hm id, hm.sink⟩
  | error e hm =>
      cases e with
      | fault f span => exact ⟨rfl, hheap hm restored, hm.sink⟩
      | starved => exact ⟨rfl, hheap hm restored, hm.sink⟩

end Session

end Script
