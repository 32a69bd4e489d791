/-
Actions, read backward. Every stage is an action on a state that may
end early, and the facts about it come from a run that is known: the
lemmas here say what a finished run of a compound action consists of.
-/

namespace Script.Action

variable {ε σ α β : Type}

/-- A run of two actions in order goes through a state in between. -/
theorem bind_ok {x : EStateM ε σ α} {f : α → EStateM ε σ β} {s t : σ}
    {b : β} :
    (x >>= f) s = .ok b t ↔ ∃ a u, x s = .ok a u ∧ f a u = .ok b t := by
  show EStateM.bind x f s = _ ↔ _
  unfold EStateM.bind
  cases x s with
  | ok a u =>
      constructor
      · intro h
        exact ⟨a, u, rfl, h⟩
      · rintro ⟨a', u', hx, h⟩
        cases hx
        exact h
  | error e u => simp

/-- A run of two actions of which the first one is known. -/
theorem bind_of_ok {x : EStateM ε σ α} {a : α} {s t : σ}
    (h : x s = .ok a t) (f : α → EStateM ε σ β) : (x >>= f) s = f a t := by
  show EStateM.bind x f s = _
  unfold EStateM.bind
  rw [h]

theorem bind_of_error {x : EStateM ε σ α} {e : ε} {s t : σ}
    (h : x s = .error e t) (f : α → EStateM ε σ β) :
    (x >>= f) s = .error e t := by
  show EStateM.bind x f s = _
  unfold EStateM.bind
  rw [h]

/-- Two runs that begin in the same way are the same if they go on so. -/
theorem bind_congr {x : EStateM ε σ α} {f g : α → EStateM ε σ β} {s : σ}
    (h : ∀ a t, x s = .ok a t → f a t = g a t) :
    (x >>= f) s = (x >>= g) s := by
  cases hx : x s with
  | ok a t => rw [bind_of_ok hx, bind_of_ok hx, h a t hx]
  | error e t => rw [bind_of_error hx, bind_of_error hx]

/-- Two runs that go on in the same way are the same if they begin so. -/
theorem bind_congr_left {x y : EStateM ε σ α} {s t : σ} (h : x s = y t)
    (f : α → EStateM ε σ β) : (x >>= f) s = (y >>= f) t := by
  cases hx : x s with
  | ok a u => rw [bind_of_ok hx, bind_of_ok (h.symm.trans hx)]
  | error e u => rw [bind_of_error hx, bind_of_error (h.symm.trans hx)]

theorem pure_ok {a b : α} {s t : σ} :
    (pure a : EStateM ε σ α) s = .ok b t ↔ a = b ∧ s = t := by
  show EStateM.Result.ok a s = _ ↔ _
  simp

theorem map_ok {x : EStateM ε σ α} {f : α → β} {s t : σ} {b : β} :
    (f <$> x) s = .ok b t ↔ ∃ a, x s = .ok a t ∧ f a = b := by
  show EStateM.map f x s = _ ↔ _
  unfold EStateM.map
  cases x s with
  | ok a u =>
      constructor
      · intro h
        cases h
        exact ⟨a, rfl, rfl⟩
      · rintro ⟨a', hx, rfl⟩
        cases hx
        rfl
  | error e u => simp

theorem get_ok {s t u : σ} :
    (get : EStateM ε σ σ) s = .ok t u ↔ s = t ∧ s = u := by
  show EStateM.Result.ok s s = _ ↔ _
  simp

theorem modify_ok {f : σ → σ} {a : Unit} {s t : σ} :
    (modify f : EStateM ε σ Unit) s = .ok a t ↔ f s = t := by
  show EStateM.Result.ok () (f s) = _ ↔ _
  simp

theorem modifyGet_ok {f : σ → α × σ} {a : α} {s t : σ} :
    (modifyGet f : EStateM ε σ α) s = .ok a t ↔ f s = (a, t) := by
  show EStateM.Result.ok (f s).1 (f s).2 = _ ↔ _
  simp [Prod.ext_iff]

theorem throw_ok {e : ε} {a : α} {s t : σ} :
    (throw e : EStateM ε σ α) s = .ok a t ↔ False := by
  show EStateM.Result.error e s = _ ↔ _
  simp

end Script.Action
