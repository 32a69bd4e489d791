/-
One run under two budgets. The run with more to spend does what the other
one does, for as long as that one lasts; so the two differ only if the
smaller budget is used up, and then what was printed until there is what
the larger run prints first.

Steps and calls are checked at different places, and either limit may
strike first. This makes no difference here: a run that a limit ends may
be followed by anything that leaves its output in place.
-/
import Script.Proofs.Budget.Growth
import Script.Proofs.Action
import Script.Proofs.Lockstep.Evaluation

namespace Script.Eval

/-- Limits that leave a program no more than others do. No limit of the
steps is the largest. -/
structure Limits.Within (limits limits' : Limits) : Prop where
  steps : ∀ b, limits'.steps = some b → ∃ a, limits.steps = some a ∧ a ≤ b
  callDepth : limits.callDepth ≤ limits'.callDepth

/-- Two outcomes of an action. They are the same, unless the first action
was cut off; then the second one has printed what the first one has. -/
def Outlasts {α β : Type} (cut : Stop → Prop) (A : α → β → Prop) :
    EStateM.Result Stop Machine α → EStateM.Result Stop Machine β → Prop
  | .ok a m, r => ∃ b, r = .ok b m ∧ A a b
  | .error e m, r =>
      r = .error e m ∨ cut e ∧ m.sink.Extends (behind r).sink

/-- Both ways, the second outcome has printed what the first one has. -/
theorem Outlasts.printed {α β : Type} {cut : Stop → Prop}
    {A : α → β → Prop} {x : EStateM.Result Stop Machine α}
    {y : EStateM.Result Stop Machine β} (h : Outlasts cut A x y) :
    (behind x).sink.Extends (behind y).sink := by
  cases x with
  | ok a m =>
      obtain ⟨b, rfl, -⟩ := h
      exact .refl _
  | error e m =>
      rcases h with rfl | ⟨-, hprinted⟩
      · exact .refl _
      · exact hprinted

/-- An outcome that was not cut off is the one of what outlasts it. -/
theorem Outlasts.eq {α : Type} {cut : Stop → Prop}
    {x y : EStateM.Result Stop Machine α} (h : Outlasts cut Eq x y)
    (hx : ∀ e m, x = .error e m → ¬ cut e) : y = x := by
  cases x with
  | ok a m =>
      obtain ⟨b, hb, rfl⟩ := h
      exact hb
  | error e m =>
      rcases h with hy | ⟨he, -⟩
      · exact hy
      · exact absurd he (hx e m rfl)

/-- Two actions of which the second one lasts at least as long. -/
structure Spares (cut : Stop → Prop) {α β : Type} (A : α → β → Prop)
    (x : Run α) (y : Run β) : Prop where
  growing : Growing y
  /-- Whatever the second action yields, the first one might have. -/
  met : ∀ m b m', y m = .ok b m' → ∃ a, A a b
  outlasts : ∀ m, Outlasts cut A (x m) (y m)

namespace Spares

variable {cut : Stop → Prop} {α β γ δ : Type} {A : α → β → Prop}
  {B : γ → δ → Prop}

/-- An action lasts as long as it does. -/
theorem same {A : α → α → Prop} {x : Run α} (hA : ∀ a, A a a)
    (hx : Growing x) : Spares cut A x x where
  growing := hx
  met _ b _ _ := ⟨b, hA b⟩
  outlasts m := by
    cases x m with
    | ok a m' => exact ⟨a, rfl, hA a⟩
    | error e m' => exact .inl rfl

theorem throw (e : Stop) :
    Spares cut A (throw e : Run α) (throw e : Run β) where
  growing := .throw e
  met _ _ _ h := (Action.throw_ok.1 h).elim
  outlasts _ := .inl rfl

theorem pure {a : α} {b : β} (hab : A a b) :
    Spares cut A (pure a) (pure b) where
  growing := .pure b
  met _ b' _ h := by
    obtain ⟨rfl, -⟩ := Action.pure_ok.1 h
    exact ⟨a, hab⟩
  outlasts _ := ⟨b, rfl, hab⟩

/-- An action that is cut off at once may be followed by any other. -/
theorem cutOff {e : Stop} {x : Run α} {y : Run β} (he : cut e)
    (hx : ∀ m, ∃ m', x m = .error e m' ∧ m'.sink = m.sink)
    (hy : Growing y) (hmet : ∀ m b m', y m = .ok b m' → ∃ a, A a b) :
    Spares cut A x y where
  growing := hy
  met := hmet
  outlasts m := by
    obtain ⟨m', hm', hsink⟩ := hx m
    rw [hm']
    refine .inr ⟨he, ?_⟩
    rw [hsink]
    exact (hy m).printed

theorem bind {x : Run α} {y : Run β} {f : α → Run γ} {g : β → Run δ}
    (hx : Spares cut A x y) (hf : ∀ a b, A a b → Spares cut B (f a) (g b)) :
    Spares cut B (x >>= f) (y >>= g) where
  growing := hx.growing.bind fun m b m' hb => by
    obtain ⟨a, hab⟩ := hx.met m b m' hb
    exact (hf a b hab).growing
  met m d m'' h := by
    obtain ⟨b, m', hb, hd⟩ := Action.bind_ok.1 h
    obtain ⟨a, hab⟩ := hx.met m b m' hb
    exact (hf a b hab).met m' d m'' hd
  outlasts m := by
    have hm := hx.outlasts m
    show Outlasts cut B (EStateM.bind x f m) (EStateM.bind y g m)
    unfold EStateM.bind
    cases hxm : x m with
    | ok a m' =>
        rw [hxm] at hm
        obtain ⟨b, hym, hab⟩ := hm
        rw [hym]
        exact (hf a b hab).outlasts m'
    | error e m' =>
        rw [hxm] at hm
        rcases hm with hym | ⟨he, hprinted⟩
        · rw [hym]
          exact .inl rfl
        · refine .inr ⟨he, hprinted.trans ?_⟩
          -- What follows on the right only adds to the output.
          cases hym : y m with
          | error e m'' => exact .refl _
          | ok b m'' =>
              obtain ⟨a, hab⟩ := hx.met m b m'' hym
              exact ((hf a b hab).growing m'').printed

theorem cutsOff (hcut : cut .starved) : CutsOff (Spares cut) := by
  intro α β A x y h
  exact .cutOff hcut (fun m => ⟨m, rfl, rfl⟩) h.growing h.met

end Spares

-- ================================================================ limits

variable {cut : Stop → Prop} {limits limits' : Limits}

/-- A step is counted first, and then there may be one too many. -/
theorem tick_eq (limits : Limits) (span : Span) (m : Machine) :
    Run.tick limits span m =
      match limits.steps with
      | some limit =>
          if limit < m.steps + 1 then
            .error (.fault (.stepLimit limit) span)
              { m with steps := m.steps + 1 }
          else .ok () { m with steps := m.steps + 1 }
      | none => .ok () { m with steps := m.steps + 1 } := by
  obtain ⟨steps, callDepth⟩ := limits
  cases steps with
  | none => rfl
  | some limit =>
      show (if limit < m.steps + 1 then Run.fail (.stepLimit limit) span
        else pure () : Run Unit) { m with steps := m.steps + 1 } = _
      dsimp only
      split
      · rfl
      · rfl

/-- With limits of its own on either side, each limit is one by which the
first action may be cut off. -/
theorem Spares.tick (hle : limits.Within limits')
    (hcut : ∀ f span, f.topic = .limit → cut (.fault f span))
    (span : Span) :
    Spares cut Any (Run.tick limits span) (Run.tick limits' span) where
  growing := .tick limits' span
  met _ _ _ _ := ⟨(), trivial⟩
  outlasts m := by
    rw [tick_eq]
    cases ha : limits.steps with
    | none =>
        -- Without a limit on the left there is none on the right.
        cases hb : limits'.steps with
        | none =>
            rw [tick_eq, hb]
            exact ⟨(), rfl, trivial⟩
        | some b =>
            obtain ⟨a, ha', -⟩ := hle.steps b hb
            rw [ha] at ha'
            cases ha'
    | some a =>
        dsimp only
        by_cases hlt : a < m.steps + 1
        · rw [if_pos hlt]
          exact .inr ⟨hcut _ span rfl, (Growing.tick limits' span m).printed⟩
        · rw [if_neg hlt, tick_eq]
          refine ⟨(), ?_, trivial⟩
          cases hb : limits'.steps with
          | none => rfl
          | some b =>
              obtain ⟨a', ha', hab⟩ := hle.steps b hb
              rw [ha] at ha'
              cases ha'
              exact if_neg fun h => hlt (Nat.lt_of_le_of_lt hab h)

theorem Spares.deepen {α β : Type} {A : α → β → Prop}
    (hle : limits.Within limits')
    (hcut : ∀ f span, f.topic = .limit → cut (.fault f span)) {x : Run α}
    {y : Run β} (depth : Nat) (span : Span) (h : Spares cut A x y) :
    Spares cut A
      (if limits.callDepth ≤ depth then do
        Run.fail (.callDepth limits.callDepth) span; x
      else x)
      (if limits'.callDepth ≤ depth then do
        Run.fail (.callDepth limits'.callDepth) span; y
      else y) := by
  by_cases hdeep : limits.callDepth ≤ depth
  · rw [if_pos hdeep]
    refine .cutOff (hcut (.callDepth _) span rfl) (fun m => ⟨m, rfl, rfl⟩)
      (.ite (.bind (.throw _) fun _ _ _ _ => h.growing) h.growing) ?_
    intro m b m' hb
    split at hb
    · obtain ⟨_, _, hfail, -⟩ := Action.bind_ok.1 hb
      exact (Action.throw_ok.1 hfail).elim
    · exact h.met m b m' hb
  · have hdeep' : ¬ limits'.callDepth ≤ depth := fun h' =>
      hdeep (Nat.le_trans hle.callDepth h')
    rw [if_neg hdeep, if_neg hdeep']
    exact h

/-- A run is spared by one with the same limits, and by one with larger
limits if the limits are what may cut it off. -/
theorem Spares.lockstep
    (h : limits = limits' ∨ limits.Within limits'
      ∧ ∀ f span, f.topic = .limit → cut (.fault f span)) :
    Lockstep limits limits' Eq (Spares cut) where
  biUnique := ⟨fun _ _ _ h h' => h.trans h'.symm,
    fun _ _ _ h h' => h.symm.trans h'⟩
  pure := .pure
  bind := .bind
  throw := .throw
  tick span := by
    rcases h with rfl | ⟨hle, hcut⟩
    · exact .same (fun _ => trivial) (.tick limits span)
    · exact .tick hle hcut span
  deepen depth span hxy := by
    rcases h with rfl | ⟨hle, hcut⟩
    · exact Lockstep.ite (.bind (A := Any) (.throw _) fun _ _ _ => hxy) hxy
    · exact .deepen hle hcut depth span hxy
  lookup name span hab := by
    obtain rfl := hab.eq
    exact .same .refl (.lookup _ name span)
  define name hab hv := by
    obtain rfl := hab.eq
    obtain rfl := hv.eq_of_eq
    exact .same (fun _ => trivial) (.define _ name _)
  assign target hab hv := by
    obtain rfl := hab.eq
    obtain rfl := hv.eq_of_eq
    exact .same (fun _ => trivial) (.assign _ target _)
  child hij := by
    subst hij
    exact .same (fun _ => rfl) (.child _)
  printLine text span := .same (fun _ => trivial) (.printLine text span)

/-- A machine grows under a program. -/
theorem program_growing (limits : Limits) (n : Nat) (globals : ScopeId)
    (p : Program) : Growing (program limits n globals p) := by
  have hlockstep : Lockstep limits limits Eq (Spares fun _ => False) :=
    Spares.lockstep (.inl rfl)
  exact (hlockstep.program (Nat.le_refl n)
    (fun hlt => absurd hlt (Nat.lt_irrefl n)) (Eq.refl globals) p).growing

end Script.Eval
