/-
One program, run with its output going to a sink without a limit and to a
sink with room for a number of bytes. Up to the first write that does not
fit the two sinks have the same bytes; from then on the limited one has as
many of them as there is room for, and changes no more. The runs are the
same up to there. Then the limited one ends, with a fault that says so; the
other one may do anything, but only adds to its output.

The facts of a run are those of its actions, as everywhere where two runs
are compared.
-/
import Script.Proofs.Budget.Growth
import Script.Proofs.Budget.Limits
import Script.Proofs.Sessions

namespace Script.Sink

/-- A sink with room for `n` bytes into which everything has fitted. -/
structure Keeps (n : Nat) (s t : Sink) : Prop where
  unlimited : s.room = none
  written : t.written = s.written
  fits : s.written.size ≤ n
  room : t.room = some (n - s.written.size)

/-- A sink with room for `n` bytes into which not everything has
fitted. -/
structure Full (n : Nat) (s t : Sink) : Prop where
  written : t.written = s.written.extract 0 n
  short : n < s.written.size
  room : t.room = some 0

variable {n : Nat} {s s' t : Sink}

theorem keeps_limited (n : Nat) : Keeps n .unlimited (.limited n) :=
  ⟨rfl, rfl, Nat.zero_le n, rfl⟩

/-- Bytes that are not more than so many are their own start. -/
theorem extract_of_size_le {b : ByteArray} (h : b.size ≤ n) :
    b.extract 0 n = b := by
  have hnone : b.extract b.size n = .empty := by
    rw [ByteArray.extract_eq_empty_iff]
    exact Nat.min_le_right ..
  rw [ByteArray.extract_eq_extract_append_extract b.size (Nat.zero_le _) h,
    ByteArray.extract_zero_size, hnone, ByteArray.append_empty]

/-- Everything that has fitted is the start of what was written. -/
theorem Keeps.extract (h : Keeps n s t) :
    t.written = s.written.extract 0 n := by
  rw [h.written, extract_of_size_le h.fits]

/-- A text fits or fills the sink. -/
theorem Keeps.write (h : Keeps n s t) (text : String) :
    ((t.write text).1 = true ∧ Keeps n (s.write text).2 (t.write text).2)
      ∨ ((t.write text).1 = false
        ∧ Full n (s.write text).2 (t.write text).2) := by
  obtain ⟨hunlimited, hwritten, hfits, hroom⟩ := h
  have hsize := ByteArray.size_append (a := s.written) (b := text.toUTF8)
  unfold Sink.write
  rw [hunlimited, hroom, hwritten]
  dsimp only
  by_cases hle : text.toUTF8.size ≤ n - s.written.size
  · rw [if_pos hle]
    refine .inl ⟨rfl, rfl, rfl, ?_, ?_⟩
    · show (s.written ++ text.toUTF8).size ≤ n
      omega
    · show some _ = some (n - (s.written ++ text.toUTF8).size)
      rw [hsize, Nat.sub_sub]
  · rw [if_neg hle]
    refine .inr ⟨rfl, ?_, ?_, rfl⟩
    · show _ = (s.written ++ text.toUTF8).extract 0 n
      rw [ByteArray.extract_append, extract_of_size_le hfits, Nat.zero_sub]
    · show n < (s.written ++ text.toUTF8).size
      omega

/-- Whatever else is written, a full sink has the start of it. -/
theorem Full.extends (h : Full n s t) (hs : s.Extends s') :
    Full n s' t := by
  obtain ⟨more, hmore⟩ := hs
  have hshort := h.short
  refine ⟨?_, ?_, h.room⟩
  · rw [hmore, ByteArray.extract_append, h.written,
      Nat.sub_eq_zero_of_le (Nat.le_of_lt h.short)]
    simp
  · rw [hmore, ByteArray.size_append]
    omega

/-- Into a sink without room nothing is written. -/
theorem write_of_room_eq_zero (h : t.room = some 0) (text : String) :
    (t.write text).2 = t := by
  obtain ⟨written, room⟩ := t
  obtain rfl : room = some 0 := h
  unfold Sink.write
  dsimp only
  split
  case isTrue hle =>
      have hempty := ByteArray.size_eq_zero_iff.1 (Nat.le_zero.1 hle)
      rw [hempty]
      simp
  case isFalse => simp

end Script.Sink

namespace Script

-- ================================================================== runs

namespace Eval

variable {n : Nat} {α β γ δ : Type} {A : α → β → Prop} {B : γ → δ → Prop}

/-- Two machines that differ in the room of their sinks only. -/
structure Machine.Keeps (n : Nat) (m m' : Machine) : Prop where
  heap : m'.heap = m.heap
  steps : m'.steps = m.steps
  sink : m.sink.Keeps n m'.sink

/-- The outcomes of two such runs: the same, or the second one has been
refused a write. -/
inductive Cut (n : Nat) (A : α → β → Prop) :
    EStateM.Result Stop Machine α → EStateM.Result Stop Machine β → Prop
  | ok {a : α} {b : β} {m m' : Machine} (hab : A a b)
      (hm : m.Keeps n m') : Cut n A (.ok a m) (.ok b m')
  | error (e : Stop) {m m' : Machine} (hm : m.Keeps n m') :
      Cut n A (.error e m) (.error e m')
  | refused {r : EStateM.Result Stop Machine α} (span : Span)
      {m' : Machine} (h : (behind r).sink.Full n m'.sink) :
      Cut n A r (.error (.fault (.output Sink.refusal) span) m')

/-- Two actions with such outcomes. -/
structure Cuts (n : Nat) {α β : Type} (A : α → β → Prop) (x : Run α)
    (y : Run β) : Prop where
  growing : Growing x
  /-- Whatever the first action yields, the second one might have. -/
  met : ∀ m a m', x m = .ok a m' → ∃ b, A a b
  cut : ∀ m m', m.Keeps n m' → Cut n A (x m) (y m')

namespace Cuts

/-- An action that leaves the sink alone. -/
theorem same {A : α → α → Prop} {x : Run α} (hA : ∀ a, A a a)
    (hx : Growing x) (hcut : ∀ m m', m.Keeps n m' → Cut n A (x m) (x m')) :
    Cuts n A x x :=
  ⟨hx, fun _ a _ _ => ⟨a, hA a⟩, hcut⟩

theorem pure {a : α} {b : β} (hab : A a b) :
    Cuts n A (pure a) (pure b) where
  growing := .pure a
  met _ a' _ h := by
    obtain ⟨rfl, -⟩ := Action.pure_ok.1 h
    exact ⟨b, hab⟩
  cut _ _ hm := .ok hab hm

theorem throw (e : Stop) :
    Cuts n A (throw e : Run α) (throw e : Run β) where
  growing := .throw e
  met _ _ _ h := (Action.throw_ok.1 h).elim
  cut _ _ hm := .error e hm

theorem bind {x : Run α} {y : Run β} {f : α → Run γ} {g : β → Run δ}
    (hx : Cuts n A x y) (hf : ∀ a b, A a b → Cuts n B (f a) (g b)) :
    Cuts n B (x >>= f) (y >>= g) where
  growing := hx.growing.bind fun m a m' ha => by
    obtain ⟨b, hab⟩ := hx.met m a m' ha
    exact (hf a b hab).growing
  met m c m'' h := by
    obtain ⟨a, m', ha, hc⟩ := Action.bind_ok.1 h
    obtain ⟨b, hab⟩ := hx.met m a m' ha
    exact (hf a b hab).met m' c m'' hc
  cut m m' hm := by
    have hmet := hx.met m
    have hrun := hx.cut m m' hm
    show Cut n B (EStateM.bind x f m) (EStateM.bind y g m')
    unfold EStateM.bind
    generalize x m = r, y m' = r' at hmet hrun
    cases hrun with
    | ok hab hm => exact (hf _ _ hab).cut _ _ hm
    | error e hm => exact .error e hm
    | refused span hfull =>
        refine .refused span ?_
        -- What follows on the left only adds to the output.
        cases r with
        | error e u => exact hfull
        | ok a u =>
            obtain ⟨b, hab⟩ := hmet a u rfl
            exact hfull.extends ((hf a b hab).growing u).printed

theorem tick (limits : Limits) (span : Span) :
    Cuts n Any (Run.tick limits span) (Run.tick limits span) := by
  refine .same (fun _ => trivial) (.tick limits span) fun m m' hm => ?_
  have hcounted : Machine.Keeps n { m with steps := m.steps + 1 }
      { m' with steps := m'.steps + 1 } :=
    ⟨hm.heap, congrArg (· + 1) hm.steps, hm.sink⟩
  rw [tick_eq, tick_eq, hm.steps]
  rw [hm.steps] at hcounted
  cases limits.steps with
  | none => exact .ok trivial hcounted
  | some limit =>
      dsimp only
      split
      · exact .error _ hcounted
      · exact .ok trivial hcounted

/-- The machine is seen as it is. -/
theorem get_eq (f : Machine → Run α) (m : Machine) :
    (get >>= f) m = f m m := rfl

theorem lookup (place : Place) (name : String) (span : Span) :
    Cuts n (Value.Alike Eq) (Run.lookup place name span)
      (Run.lookup place name span) := by
  refine .same .refl (.lookup place name span) fun m m' hm => ?_
  unfold Run.lookup
  rw [get_eq, get_eq, hm.heap]
  cases m.heap.get? place.scope name with
  | some v => exact .ok (.refl v) hm
  | none => exact .error _ hm

theorem define (place : Place) (name : String) (v : Value) :
    Cuts n Any (Run.define place name v) (Run.define place name v) :=
  .same (fun _ => trivial) (.define place name v) fun _ _ hm =>
    .ok trivial ⟨congrArg (·.define place.scope name v) hm.heap, hm.steps,
      hm.sink⟩

theorem assign (place : Place) (target : Ident) (v : Value) :
    Cuts n Any (Run.assign place target v) (Run.assign place target v) := by
  refine .same (fun _ => trivial) (.assign place target v) fun m m' hm => ?_
  unfold Run.assign
  rw [get_eq, get_eq, hm.heap]
  cases m.heap.owner? place.scope target.name with
  | some i =>
      exact .ok trivial ⟨congrArg (·.define i target.name v) hm.heap,
        hm.steps, hm.sink⟩
  | none => exact .error _ hm

theorem child (parent : ScopeId) :
    Cuts n Eq (Run.child parent) (Run.child parent) := by
  refine .same (fun _ => rfl) (.child parent) fun m m' hm => ?_
  exact .ok (congrArg (fun h : Heap => (h.child parent).1) hm.heap.symm)
    ⟨congrArg (fun h : Heap => (h.child parent).2) hm.heap, hm.steps,
      hm.sink⟩

/-- Writing is what may be refused. -/
theorem printLine (text : String) (span : Span) :
    Cuts n Any (Run.printLine text span) (Run.printLine text span) where
  growing := .printLine text span
  met _ _ _ _ := ⟨(), trivial⟩
  cut m m' hm := by
    have htaken := Sink.write_of_room_eq_none hm.sink.unlimited
      (text ++ "\n")
    show Cut n Any
      ((unless (m.sink.write (text ++ "\n")).1 do
          Run.fail (.output Sink.refusal) span : Run Unit)
        { m with sink := (m.sink.write (text ++ "\n")).2 })
      ((unless (m'.sink.write (text ++ "\n")).1 do
          Run.fail (.output Sink.refusal) span : Run Unit)
        { m' with sink := (m'.sink.write (text ++ "\n")).2 })
    rw [htaken]
    rcases hm.sink.write (text ++ "\n") with ⟨htaken', hsink⟩
      | ⟨htaken', hsink⟩
    · rw [htaken']
      exact .ok trivial ⟨hm.heap, hm.steps, hsink⟩
    · rw [htaken']
      exact .refused span hsink

/-- Evaluation is cut off at the first write that is refused. -/
theorem lockstep (n : Nat) (limits : Limits) :
    Lockstep limits limits Eq (Cuts n) where
  biUnique := ⟨fun _ _ _ h h' => h.trans h'.symm,
    fun _ _ _ h h' => h.symm.trans h'⟩
  pure := .pure
  bind := .bind
  throw := .throw
  tick := .tick limits
  deepen _ _ hxy :=
    Lockstep.ite (.bind (A := Any) (.throw _) fun _ _ _ => hxy) hxy
  lookup name span hab := by
    obtain rfl := hab.eq
    exact .lookup _ name span
  define name hab hv := by
    obtain rfl := hab.eq
    obtain rfl := hv.eq_of_eq
    exact .define _ name _
  assign target hab hv := by
    obtain rfl := hab.eq
    obtain rfl := hv.eq_of_eq
    exact .assign _ target _
  child hij := by
    subst hij
    exact .child _
  printLine := .printLine

end Cuts

end Eval

namespace Session

open Eval

variable {n : Nat} {s t : Sink}

/-- A run only adds to its output. -/
theorem extends_run (session : Session) (limits : Limits) (patience : Nat)
    (p : Program) (s : Sink) :
    s.Extends (session.run limits patience p s).2.2 := by
  rw [run_eq, sink_taken]
  exact (program_growing limits _ _ p ⟨session.heap, s, 0⟩).printed

/-- A run with limited room is the same, or it fails because its output
was refused, with as much of the output as there was room for. -/
theorem run_cut (session : Session) (limits : Limits) (patience : Nat)
    (p : Program) (h : s.Keeps n t) :
    let r := session.run limits patience p s
    let r' := session.run limits patience p t
    (r'.1 = r.1 ∧ r.2.2.Keeps n r'.2.2)
      ∨ (∃ span, r'.1 = .failed ((Fault.output Sink.refusal).report.at span))
        ∧ r.2.2.Full n r'.2.2 := by
  dsimp only
  have hcut := ((Cuts.lockstep n limits).program
    (Nat.le_refl (fuel limits patience))
    (fun hlt => absurd hlt (Nat.lt_irrefl _)) (Eq.refl session.globals) p).cut
      ⟨session.heap, s, 0⟩ ⟨session.heap, t, 0⟩ ⟨rfl, rfl, h⟩
  rw [run_eq, run_eq]
  unfold outcome
  generalize program limits (fuel limits patience) session.globals p
    ⟨session.heap, s, 0⟩ = x, program limits (fuel limits patience)
    session.globals p ⟨session.heap, t, 0⟩ = x' at hcut
  cases hcut with
  | ok hv hm =>
      obtain rfl := hv.eq_of_eq
      exact .inl ⟨rfl, hm.sink⟩
  | error e hm =>
      refine .inl ?_
      cases e with
      | fault f span => exact ⟨rfl, hm.sink⟩
      | starved => exact ⟨rfl, hm.sink⟩
  | refused span hfull =>
      refine .inr ⟨⟨span, rfl⟩, ?_⟩
      rw [sink_taken]
      exact hfull

end Session

end Script
