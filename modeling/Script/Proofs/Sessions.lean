/-
Runs of a session, by what the program does. A session hands its heap and
its globals to a program and keeps the heap that comes back; if the
program fails, it puts the globals back first.
-/
import Script.Proofs.Budget.Growth
import Script.Session

namespace Script.Session

open Eval

variable {s : Session}

/-- What a session makes of the outcome of a program. -/
def taken (s : Session) :
    EStateM.Result Stop Machine Value → Outcome × Session × Sink
  | .ok v m => (.value v, { s with heap := m.heap }, m.sink)
  | .error (.fault f span) m =>
      (.failed (f.report.at span),
        { s with heap := m.heap.restore s.globals s.globalBindings }, m.sink)
  | .error .starved m =>
      (.starved,
        { s with heap := m.heap.restore s.globals s.globalBindings }, m.sink)

/-- The outcome of a program with an amount of fuel. -/
def outcome (s : Session) (limits : Limits) (n : Nat) (p : Program)
    (sink : Sink) : EStateM.Result Stop Machine Value :=
  program limits n s.globals p ⟨s.heap, sink, 0⟩

theorem run_eq (s : Session) (limits : Limits) (patience : Nat)
    (p : Program) (sink : Sink) : s.run limits patience p sink =
      s.taken (s.outcome limits (fuel limits patience) p sink) := by
  unfold Session.run
  dsimp only
  unfold outcome
  cases program limits (fuel limits patience) s.globals p
    ⟨s.heap, sink, 0⟩ with
  | ok v m => rfl
  | error e m =>
      cases e with
      | fault f span => rfl
      | starved => rfl

/-- What a failed run leaves behind. -/
theorem outcome_of_failed {limits : Limits} {patience : Nat} {p : Program}
    {sink sink' : Sink} {s' : Session} {d : Diagnostic}
    (h : s.run limits patience p sink = (.failed d, s', sink')) :
    ∃ f span m, s.outcome limits (fuel limits patience) p sink =
        .error (.fault f span) m
      ∧ d = f.report.at span
      ∧ s' = { s with heap := m.heap.restore s.globals s.globalBindings } := by
  rw [run_eq] at h
  cases hx : s.outcome limits (fuel limits patience) p sink with
  | ok v m =>
      rw [hx] at h
      cases h
  | error e m =>
      rw [hx] at h
      cases e with
      | starved => cases h
      | fault f span =>
          cases h
          exact ⟨f, span, m, rfl, rfl, rfl⟩

theorem sink_taken (s : Session) (x : EStateM.Result Stop Machine Value) :
    (s.taken x).2.2 = (behind x).sink := by
  unfold taken
  split <;> rfl

theorem taken_ne_starved {x : EStateM.Result Stop Machine Value} :
    (s.taken x).1 ≠ .starved ↔ ∀ m, x ≠ .error .starved m := by
  unfold taken
  split <;> simp

end Script.Session
