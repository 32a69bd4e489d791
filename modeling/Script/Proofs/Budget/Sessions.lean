/-
Runs of a session under growing limits. A run ends if it is given the
patience for it, and all patience that is enough gives the same run. With
larger limits it is still the same run, unless it was a limit that ended
it; and then its output is where the larger run starts.
-/
import Script.Proofs.Budget.Fuel
import Script.Proofs.Sessions
import Script.Tree.Statement

namespace Script

open Eval

/-- Whether a run was ended by one of its limits. -/
def Outcome.isLimit : Outcome → Bool
  | .failed d => d.topic == .limit
  | _ => false

namespace Session

variable {limits limits' : Limits} {p : Program} {s : Session}
  {sink : Sink} {r r' : Outcome × Session × Sink}

/-- A run that comes to an end, with enough patience. -/
def Ends (s : Session) (limits : Limits) (p : Program) (sink : Sink)
    (r : Outcome × Session × Sink) : Prop :=
  ∃ patience, s.run limits patience p sink = r ∧ r.1 ≠ .starved

/-- A program that a limit ends. -/
theorem taken_isLimit {x : EStateM.Result Stop Machine Value} :
    (s.taken x).1.isLimit = true ↔
      ∃ f span m, x = .error (.fault f span) m ∧ f.topic = .limit := by
  unfold taken
  split
  case h_1 v m => simp [Outcome.isLimit]
  case h_2 f span m =>
      show (f.topic == .limit) = true ↔ _
      rw [beq_iff_eq]
      constructor
      · intro h
        exact ⟨f, span, m, rfl, h⟩
      · rintro ⟨f', span', m', heq, h⟩
        cases heq
        exact h
  case h_3 m => simp [Outcome.isLimit]

-- ============================================================= two runs

/-- Running out of fuel, and running into a limit. -/
inductive Spent : Stop → Prop
  | starved : Spent .starved
  | limit {f : Eval.Fault} {span : Span} (h : f.topic = .limit) :
      Spent (.fault f span)

/-- With more fuel and perhaps larger limits, a program ends the same or
prints more. -/
theorem outcome_outlasts (cut : Stop → Prop) {n n' : Nat} (hle : n ≤ n')
    (hstarved : cut .starved) (hlimits : limits = limits' ∨
      limits.Within limits' ∧ ∀ f span, f.topic = .limit →
        cut (.fault f span)) :
    Outlasts cut Eq (s.outcome limits n p sink)
      (s.outcome limits' n' p sink) := by
  have hrest := ((Spares.lockstep hlimits).program hle
    (fun _ => Spares.cutsOff hstarved) (Eq.refl s.globals) p).outlasts
      ⟨s.heap, sink, 0⟩
  unfold outcome
  cases hx : program limits n s.globals p ⟨s.heap, sink, 0⟩ with
  | ok v m =>
      rw [hx] at hrest
      obtain ⟨w, hw, hvw⟩ := hrest
      exact ⟨w, hw, hvw.eq_of_eq⟩
  | error e m =>
      rw [hx] at hrest
      exact hrest

/-- With more fuel, a program that has ended ends the same. -/
theorem outcome_of_le {n n' : Nat} (hle : n ≤ n')
    (h : ∀ m, s.outcome limits n p sink ≠ .error .starved m) :
    s.outcome limits n' p sink = s.outcome limits n p sink := by
  refine (outcome_outlasts (· = .starved) hle rfl (.inl rfl)).eq ?_
  rintro e m hx rfl
  exact h m hx

/-- A run that ends, by the fuel from which on it does. -/
theorem ends_iff : s.Ends limits p sink r ↔
    (∃ patience, s.taken (s.outcome limits (fuel limits patience) p sink) = r)
      ∧ r.1 ≠ .starved := by
  unfold Ends
  simp only [run_eq, exists_and_right]

/-- All runs that end are one. -/
theorem Ends.unique (h : s.Ends limits p sink r)
    (h' : s.Ends limits p sink r') : r' = r := by
  obtain ⟨⟨a, rfl⟩, ha⟩ := ends_iff.1 h
  obtain ⟨⟨b, rfl⟩, hb⟩ := ends_iff.1 h'
  rw [taken_ne_starved] at ha hb
  rcases Nat.le_total (fuel limits a) (fuel limits b) with hle | hle
  · rw [outcome_of_le hle ha]
  · rw [outcome_of_le hle hb]

/-- With a limit of steps, every run ends. -/
theorem exists_ends {limit : Nat} (h : limits.steps = some limit)
    (s : Session) (p : Program) (sink : Sink) :
    ∃ r, s.Ends limits p sink r := by
  refine ⟨s.run limits 0 p sink, 0, rfl, ?_⟩
  rw [run_eq, taken_ne_starved]
  have hfuel : limit < 0 + fuel limits 0 := by
    rw [Nat.zero_add]
    unfold fuel
    rw [h]
    exact Nat.lt_succ_self limit
  exact program_ne_starved h hfuel (Nat.zero_le limit) s.globals p

/-- Larger limits leave room for as much fuel. -/
theorem exists_fuel (h : limits.Within limits') (patience : Nat) :
    ∃ patience', fuel limits patience ≤ fuel limits' patience' := by
  cases hb : limits'.steps with
  | none =>
      refine ⟨fuel limits patience, Nat.le_of_eq ?_⟩
      unfold fuel
      rw [hb]
  | some b =>
      obtain ⟨a, ha, hab⟩ := h.steps b hb
      refine ⟨0, ?_⟩
      unfold fuel
      rw [ha, hb]
      exact Nat.succ_le_succ hab

/-- A run that no limit has ended is the one run with larger limits; and
where a limit has ended it, the run with larger limits prints what it has
printed first. -/
theorem Ends.monotone_in_limits (h : limits.Within limits')
    (hr : s.Ends limits p sink r) :
    (r.1.isLimit = false → s.Ends limits' p sink r
        ∧ ∀ r', s.Ends limits' p sink r' → r' = r)
      ∧ (r.1.isLimit = true → ∀ r', s.Ends limits' p sink r' →
        r.2.2.Extends r'.2.2) := by
  obtain ⟨⟨a, rfl⟩, ha⟩ := ends_iff.1 hr
  have hx := taken_ne_starved.1 ha
  constructor
  · intro hlimit
    obtain ⟨b, hle⟩ := exists_fuel h a
    have hsame : s.outcome limits' (fuel limits' b) p sink
        = s.outcome limits (fuel limits a) p sink := by
      refine (outcome_outlasts Spent hle .starved
        (.inr ⟨h, fun f span => .limit⟩)).eq fun e m he hspent => ?_
      cases hspent with
      | starved => exact hx m he
      | limit hf =>
          rw [taken_isLimit.2 ⟨_, _, m, he, hf⟩] at hlimit
          cases hlimit
    have hends : s.Ends limits' p sink
        (s.taken (s.outcome limits (fuel limits a) p sink)) :=
      ends_iff.2 ⟨⟨b, by rw [hsame]⟩, ha⟩
    exact ⟨hends, fun r' => hends.unique⟩
  · intro _ r' hr'
    obtain ⟨⟨b, rfl⟩, hb⟩ := ends_iff.1 hr'
    have hy := taken_ne_starved.1 hb
    -- Fuel that is enough for both runs.
    have hrest : Outlasts Spent Eq
        (s.outcome limits (fuel limits a) p sink)
        (s.outcome limits' (max (fuel limits a) (fuel limits' b)) p sink) :=
      outcome_outlasts Spent (Nat.le_max_left _ _) .starved
        (.inr ⟨h, fun f span => .limit⟩)
    rw [outcome_of_le (Nat.le_max_right _ _) hy] at hrest
    rw [sink_taken, sink_taken]
    exact hrest.printed

/-- A loop without an end, under two limits: what it prints within the
smaller one comes first within the larger one. -/
theorem endless_loop_within_limits :
    let p := (Program.ofText 0 "while true \x7b print \"a\"; \x7d").1
    let r := fresh.run ⟨some 9, 1⟩ 0 p .unlimited
    let r' := fresh.run ⟨some 12, 2⟩ 0 p .unlimited
    r.1.isLimit = true
      ∧ r.2.2.written.toList = "a\na\n".toUTF8.toList
      ∧ r'.2.2.written.toList = "a\na\na\n".toUTF8.toList
      ∧ r.2.2.Extends r'.2.2 := by
  intro p r r'
  have hlimit : r.1.isLimit = true := by decide +kernel
  have hlimit' : r'.1.isLimit = true := by decide +kernel
  have hends {limits : Limits} {r : Outcome × Session × Sink}
      (hr : fresh.run limits 0 p .unlimited = r)
      (hlimit : r.1.isLimit = true) : fresh.Ends limits p .unlimited r := by
    refine ⟨0, hr, fun h => ?_⟩
    rw [h] at hlimit
    cases hlimit
  have hle : Limits.Within ⟨some 9, 1⟩ ⟨some 12, 2⟩ := by
    refine ⟨fun b hb => ?_, by decide⟩
    cases hb
    exact ⟨9, rfl, by decide⟩
  refine ⟨hlimit, by decide +kernel, by decide +kernel, ?_⟩
  exact (Ends.monotone_in_limits hle (hends rfl hlimit)).2 hlimit r'
    (hends rfl hlimit')

end Session

end Script
