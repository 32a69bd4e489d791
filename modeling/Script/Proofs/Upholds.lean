/-
Actions that uphold an invariant. An action that begins where the
invariant holds ends where it holds, and there is something to say of the
value it yields, or of the error it ends with. Actions in order uphold
what each of them upholds.
-/
import Script.Proofs.Action

namespace Script.Action

variable {ε σ α β : Type}

/-- Upholding the invariant `I`, with values of which `Q` holds; where an
error ends the action, `E` holds of it and the state. -/
def Upholds (I : σ → Prop) (E : ε → σ → Prop) (Q : α → Prop)
    (x : EStateM ε σ α) : Prop :=
  ∀ s, I s →
    match x s with
    | .ok a t => I t ∧ Q a
    | .error e t => I t ∧ E e t

namespace Upholds

variable {I : σ → Prop} {E : ε → σ → Prop} {Q Q' : α → Prop}
  {R : β → Prop} {x : EStateM ε σ α} {f : α → EStateM ε σ β}

theorem of_ok (hx : Upholds I E Q x) {s t : σ} {a : α} (hs : I s)
    (h : x s = .ok a t) : I t ∧ Q a := by
  have := hx s hs
  rwa [h] at this

theorem of_error (hx : Upholds I E Q x) {s t : σ} {e : ε} (hs : I s)
    (h : x s = .error e t) : I t ∧ E e t := by
  have := hx s hs
  rwa [h] at this

theorem pure {a : α} (ha : Q a) :
    Upholds I E Q (pure a : EStateM ε σ α) :=
  fun _ hs => ⟨hs, ha⟩

theorem throw {e : ε} (he : ∀ s, I s → E e s) :
    Upholds I E Q (throw e : EStateM ε σ α) :=
  fun s hs => ⟨hs, he s hs⟩

theorem bind (hx : Upholds I E Q x) (hf : ∀ a, Q a → Upholds I E R (f a)) :
    Upholds I E R (x >>= f) := by
  intro s hs
  show match EStateM.bind x f s with
    | .ok b t => I t ∧ R b
    | .error e t => I t ∧ E e t
  unfold EStateM.bind
  cases h : x s with
  | ok a t =>
      obtain ⟨ht, ha⟩ := hx.of_ok hs h
      exact hf a ha t ht
  | error e t => exact hx.of_error hs h

/-- Behind an action that only ends with errors, nothing happens. -/
theorem bind_of_never (hx : Upholds I E (fun _ => False) x) :
    Upholds I E R (x >>= f) :=
  hx.bind fun _ => False.elim

/-- Reading the state in front of another action. -/
theorem get_bind {f : σ → EStateM ε σ β}
    (hf : ∀ s, I s → Upholds I E R (f s)) : Upholds I E R (get >>= f) :=
  fun s hs => hf s hs s hs

theorem modify {f : σ → σ} (hf : ∀ s, I s → I (f s)) :
    Upholds I E (fun _ => True) (modify f : EStateM ε σ Unit) :=
  fun s hs => ⟨hf s hs, trivial⟩

theorem modifyGet {f : σ → α × σ} (hf : ∀ s, I s → I (f s).2 ∧ Q (f s).1) :
    Upholds I E Q (modifyGet f : EStateM ε σ α) :=
  hf

/-- A change behind which more holds, for the rest of the actions. -/
theorem modifyGet_bind {f : σ → α × σ} {g : α → EStateM ε σ β}
    (hf : ∀ s, I s → ∃ J : σ → Prop, J (f s).2 ∧ (∀ t, J t → I t)
      ∧ Upholds J E R (g (f s).1)) :
    Upholds I E R (MonadStateOf.modifyGet f >>= g) := by
  intro s hs
  obtain ⟨J, hJ, himp, hg⟩ := hf s hs
  show match g (f s).1 (f s).2 with
    | .ok b t => I t ∧ R b
    | .error e t => I t ∧ E e t
  cases h : g (f s).1 (f s).2 with
  | ok b t =>
      obtain ⟨ht, hb⟩ := hg.of_ok hJ h
      exact ⟨himp t ht, hb⟩
  | error e t =>
      obtain ⟨ht, he⟩ := hg.of_error hJ h
      exact ⟨himp t ht, he⟩

/-- Less can be said of the values. -/
theorem imp (hx : Upholds I E Q x) (h : ∀ a, Q a → Q' a) :
    Upholds I E Q' x := by
  intro s hs
  cases hrun : x s with
  | ok a t =>
      obtain ⟨ht, ha⟩ := hx.of_ok hs hrun
      exact ⟨ht, h a ha⟩
  | error e t => exact hx.of_error hs hrun

theorem map (hx : Upholds I E Q x) {g : α → β} (h : ∀ a, Q a → R (g a)) :
    Upholds I E R (g <$> x) :=
  hx.bind fun a ha => pure (h a ha)

theorem ite {c : Prop} [Decidable c] {y : EStateM ε σ α}
    (hx : c → Upholds I E Q x) (hy : ¬ c → Upholds I E Q y) :
    Upholds I E Q (if c then x else y) := by
  by_cases hc : c
  · rw [if_pos hc]
    exact hx hc
  · rw [if_neg hc]
    exact hy hc

theorem forM {f : α → EStateM ε σ Unit} {as : List α}
    (hf : ∀ a ∈ as, Upholds I E (fun _ => True) (f a)) :
    Upholds I E (fun _ => True) (as.forM f) := by
  induction as with
  | nil => exact pure trivial
  | cons a as ih =>
      obtain ⟨ha, has⟩ := List.forall_mem_cons.1 hf
      exact ha.bind fun _ _ => ih has

theorem mapM {f : α → EStateM ε σ β} {as : List α}
    (hf : ∀ a ∈ as, Upholds I E R (f a)) :
    Upholds I E (fun bs => ∀ b ∈ bs, R b) (as.mapM f) := by
  induction as with
  | nil => exact pure (List.forall_mem_nil _)
  | cons a as ih =>
      obtain ⟨ha, has⟩ := List.forall_mem_cons.1 hf
      rw [List.mapM_cons]
      exact ha.bind fun b hb => (ih has).bind fun bs hbs =>
        pure (List.forall_mem_cons.2 ⟨hb, hbs⟩)

theorem foldlM {f : β → α → EStateM ε σ β} {as : List α} {b : β}
    (hb : R b) (hf : ∀ b, R b → ∀ a ∈ as, Upholds I E R (f b a)) :
    Upholds I E R (as.foldlM f b) := by
  induction as generalizing b with
  | nil => exact pure hb
  | cons a as ih =>
      rw [List.foldlM_cons]
      exact (hf b hb a (List.mem_cons_self ..)).bind fun b' hb' =>
        ih hb' fun c hc d hd => hf c hc d (List.mem_cons_of_mem a hd)

end Upholds

end Script.Action
