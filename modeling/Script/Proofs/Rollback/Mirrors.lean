/-
Heaps that mirror each other. A relation pairs scopes of one heap with
scopes of another; where it does, the scopes bind the same names to values
that agree, inside of scopes that are paired again. What is not paired
plays no part: no step leads from a scope with a partner to one without.

Both heaps grow at the same pace, so the scopes still to come are paired
in the order of their creation. Pairs are in order, older with older,
which makes a partner the only one.

On such heaps every action does the same, so they still mirror each other
behind it, and the same was written and counted. This holds of all of
evaluation once it holds of the actions that evaluation is made of.
-/
import Mathlib.Data.List.Forall2
import Script.Proofs.Action
import Script.Proofs.Heap
import Script.Proofs.Lockstep.Evaluation

namespace Script

/-- A relation under which older scopes belong to older ones. -/
def InOrder (S : ScopeId → ScopeId → Prop) : Prop :=
  ∀ ⦃p q i j⦄, S p q → S i j → (p < i ↔ q < j)

/-- What two scopes bind. -/
abbrev Bindings.Alike (S : ScopeId → ScopeId → Prop) :
    Bindings → Bindings → Prop :=
  List.Forall₂ fun b c => b.1 = c.1 ∧ b.2.Alike S c.2

/-- Two scopes that bind the same names to values that agree, inside of
scopes that are paired. -/
structure Scope.Alike (S : ScopeId → ScopeId → Prop) (a b : Scope) :
    Prop where
  bindings : a.bindings.Alike S b.bindings
  parent : Option.Rel S a.parent b.parent

/-- Two heaps that agree on all scopes that are paired. -/
structure Heap.Mirrors (S : ScopeId → ScopeId → Prop) (h h' : Heap) :
    Prop where
  scope : ∀ ⦃i j⦄, S i j → Option.Rel (Scope.Alike S) h.scopes[i]?
    h'.scopes[j]?
  /-- The scopes still to come. -/
  later : ∀ k, S (h.scopes.size + k) (h'.scopes.size + k)

variable {S : ScopeId → ScopeId → Prop} {h h' : Heap} {i j : ScopeId}
  {v v' : Value} {bs cs : Bindings}

/-- Two optional things that are related: neither is there, or both. -/
theorem inv_of_rel {α β : Type} {R : α → β → Prop} {x : Option α}
    {y : Option β} (h : Option.Rel R x y) :
    (x = none ∧ y = none) ∨ ∃ a b, x = some a ∧ y = some b ∧ R a b := by
  cases h with
  | none => exact .inl ⟨rfl, rfl⟩
  | some hab => exact .inr ⟨_, _, rfl, rfl, hab⟩

theorem InOrder.biUnique (hS : InOrder S) : Relator.BiUnique S := by
  constructor
  · intro i i' j hi hi'
    rcases Nat.lt_trichotomy i i' with hlt | heq | hlt
    · exact absurd ((hS hi hi').1 hlt) (Nat.lt_irrefl j)
    · exact heq
    · exact absurd ((hS hi' hi).1 hlt) (Nat.lt_irrefl j)
  · intro i j j' hj hj'
    rcases Nat.lt_trichotomy j j' with hlt | heq | hlt
    · exact absurd ((hS hj hj').2 hlt) (Nat.lt_irrefl i)
    · exact heq
    · exact absurd ((hS hj' hj).2 hlt) (Nat.lt_irrefl i)

-- ============================================================== bindings

theorem Bindings.Alike.lookup (hbs : bs.Alike S cs) (name : String) :
    Option.Rel (Value.Alike S) (bs.lookup name) (cs.lookup name) := by
  induction hbs with
  | nil => exact .none
  | @cons b c bs cs hbc _ ih =>
      obtain ⟨k, v⟩ := b
      obtain ⟨k', v'⟩ := c
      obtain ⟨rfl, hv⟩ := hbc
      rw [List.lookup_cons, List.lookup_cons]
      cases name == k with
      | true => exact .some hv
      | false => exact ih

theorem Bindings.Alike.insert (hbs : bs.Alike S cs) (name : String)
    (hv : v.Alike S v') :
    (bs.insert name v).Alike S (cs.insert name v') := by
  induction hbs with
  | nil => exact .cons ⟨rfl, hv⟩ .nil
  | @cons b c bs cs hbc hrest ih =>
      obtain ⟨k, w⟩ := b
      obtain ⟨k', w'⟩ := c
      obtain ⟨rfl, hw⟩ := hbc
      unfold Bindings.insert
      by_cases hk : k = name
      · rw [if_pos hk, if_pos hk]
        exact .cons ⟨rfl, hv⟩ hrest
      · rw [if_neg hk, if_neg hk]
        exact .cons ⟨rfl, hw⟩ ih

-- ================================================================= heaps

namespace Heap.Mirrors

theorem bindings (hh : h.Mirrors S h') (hij : S i j) :
    (h.bindings i).Alike S (h'.bindings j) := by
  rcases inv_of_rel (hh.scope hij) with ⟨hi, hj⟩ | ⟨a, b, hi, hj, hab⟩
  · unfold Heap.bindings
    rw [hi, hj]
    exact .nil
  · rw [bindings_eq hi, bindings_eq hj]
    exact hab.bindings

theorem binds (hh : h.Mirrors S h') (hij : S i j) (name : String) :
    h.binds name i = h'.binds name j := by
  unfold Heap.binds
  rcases inv_of_rel ((hh.bindings hij).lookup name) with
    ⟨hi, hj⟩ | ⟨v, v', hi, hj, -⟩
  · rw [hi, hj]
  · rw [hi, hj]
    rfl

/-- The ways outward lead through paired scopes. -/
theorem chain (hS : InOrder S) (hh : h.Mirrors S h') (hij : S i j) :
    List.Forall₂ S (h.chain i) (h'.chain j) := by
  induction i using Nat.strongRecOn generalizing j with
  | ind i ih =>
  unfold Heap.chain
  rcases inv_of_rel (hh.scope hij) with ⟨hi, hj⟩ | ⟨a, b, hi, hj, hab⟩
  · rw [hi, hj]
    exact .nil
  · rw [hi, hj]
    dsimp only
    rcases inv_of_rel hab.parent with ⟨ha, hb⟩ | ⟨p, q, ha, hb, hpq⟩
    · rw [ha, hb]
      exact .cons hij .nil
    · rw [ha, hb]
      dsimp only
      have hlt := hS hpq hij
      by_cases hp : p < i
      · rw [if_pos hp, if_pos (hlt.1 hp)]
        exact .cons hij (ih p hp hpq)
      · rw [if_neg hp, if_neg fun hq => hp (hlt.2 hq)]
        exact .cons hij .nil

theorem owner? (hS : InOrder S) (hh : h.Mirrors S h') (hij : S i j)
    (name : String) :
    Option.Rel S (h.owner? i name) (h'.owner? j name) := by
  have hchains := hh.chain hS hij
  unfold Heap.owner?
  generalize h.chain i = is, h'.chain j = js at hchains
  induction hchains with
  | nil => exact .none
  | cons hpq _ ih =>
      rw [List.find?_cons, List.find?_cons, hh.binds hpq name]
      split
      · exact .some hpq
      · exact ih

theorem get? (hS : InOrder S) (hh : h.Mirrors S h') (hij : S i j)
    (name : String) :
    Option.Rel (Value.Alike S) (h.get? i name) (h'.get? j name) := by
  unfold Heap.get?
  rcases inv_of_rel (hh.owner? hS hij name) with
    ⟨hi, hj⟩ | ⟨k, l, hi, hj, hkl⟩
  · rw [hi, hj]
    exact .none
  · rw [hi, hj]
    rcases inv_of_rel ((hh.bindings hkl).lookup name) with
      ⟨hk, hl⟩ | ⟨v, v', hk, hl, hv⟩
    · rw [Option.bind_some, Option.bind_some, hk, hl]
      exact .none
    · rw [Option.bind_some, Option.bind_some, hk, hl]
      exact .some hv.handedOut

-- =============================================================== changes

/-- The variables of two paired scopes are changed alike. -/
theorem update (hS : InOrder S) (hh : h.Mirrors S h') (hij : S i j)
    {f g : Bindings → Bindings} (hfg : ∀ bs cs, Bindings.Alike S bs cs →
      Bindings.Alike S (f bs) (g cs)) :
    (h.update i f).Mirrors S (h'.update j g) where
  scope k l hkl := by
    rw [getElem?_update, getElem?_update]
    have hk : k = i ↔ l = j := Relator.rel_eq hS.biUnique hkl hij
    by_cases hki : k = i
    · rw [if_pos hki, if_pos (hk.1 hki)]
      rcases inv_of_rel (hh.scope hij) with ⟨hi, hj⟩ | ⟨a, b, hi, hj, hab⟩
      · rw [hi, hj]
        exact .none
      · rw [hi, hj]
        exact .some ⟨hfg _ _ hab.bindings, hab.parent⟩
    · rw [if_neg hki, if_neg fun hl => hki (hk.2 hl)]
      exact hh.scope hkl
  later k := by
    rw [size_update, size_update]
    exact hh.later k

theorem define (hS : InOrder S) (hh : h.Mirrors S h') (hij : S i j)
    (name : String) (hv : v.Alike S v') :
    (h.define i name v).Mirrors S (h'.define j name v') :=
  hh.update hS hij fun _ _ hbs =>
    hbs.insert name (hv.keptIn hS.biUnique hij)

theorem restore (hS : InOrder S) (hh : h.Mirrors S h') (hij : S i j)
    (hbs : bs.Alike S cs) :
    (h.restore i bs).Mirrors S (h'.restore j cs) :=
  hh.update hS hij fun _ _ _ => hbs

/-- The next two scopes are paired. -/
theorem child (hS : InOrder S) (hh : h.Mirrors S h') (hij : S i j) :
    S (h.child i).1 (h'.child j).1
      ∧ (h.child i).2.Mirrors S (h'.child j).2 := by
  refine ⟨hh.later 0, ?_, fun k => ?_⟩
  · intro k l hkl
    show Option.Rel _ (h.scopes.push _)[k]? (h'.scopes.push _)[l]?
    rw [Array.getElem?_push, Array.getElem?_push]
    have hk : k = h.scopes.size ↔ l = h'.scopes.size :=
      Relator.rel_eq hS.biUnique hkl (hh.later 0)
    by_cases hnew : k = h.scopes.size
    · rw [if_pos hnew, if_pos (hk.1 hnew)]
      exact .some ⟨.nil, .some hij⟩
    · rw [if_neg hnew, if_neg fun hl => hnew (hk.2 hl)]
      exact hh.scope hkl
  · rw [size_child, size_child, Nat.add_assoc, Nat.add_assoc]
    exact hh.later (1 + k)

end Heap.Mirrors

end Script

namespace Script.Eval

-- ================================================================== runs

variable {S : ScopeId → ScopeId → Prop} {m m' : Machine}
  {limits : Limits} {a b : Place} {v v' : Value} {α β γ δ : Type}
  {A : α → β → Prop} {B : γ → δ → Prop}

/-- Two machines with heaps that mirror each other. -/
structure Machine.Mirrors (S : ScopeId → ScopeId → Prop)
    (m m' : Machine) : Prop where
  heap : m.heap.Mirrors S m'.heap
  sink : m.sink = m'.sink
  steps : m.steps = m'.steps

/-- Two outcomes that leave such machines behind: values with something in
common, or the same reason to stop. -/
inductive Echoed (S : ScopeId → ScopeId → Prop) (A : α → β → Prop) :
    EStateM.Result Stop Machine α → EStateM.Result Stop Machine β → Prop
  | ok {a : α} {b : β} {m m' : Machine} (hab : A a b)
      (hm : m.Mirrors S m') : Echoed S A (.ok a m) (.ok b m')
  | error (e : Stop) {m m' : Machine} (hm : m.Mirrors S m') :
      Echoed S A (.error e m) (.error e m')

/-- Two actions that do the same on such machines. -/
def Echoes (S : ScopeId → ScopeId → Prop) {α β : Type}
    (A : α → β → Prop) (x : Run α) (y : Run β) : Prop :=
  ∀ m m' : Machine, m.Mirrors S m' → Echoed S A (x m) (y m')

namespace Echoes

theorem pure {a : α} {b : β} (hab : A a b) :
    Echoes S A (pure a) (pure b) :=
  fun _ _ hm => .ok hab hm

theorem throw (e : Stop) :
    Echoes S A (throw e : Run α) (throw e : Run β) :=
  fun _ _ hm => .error e hm

theorem bind {x : Run α} {y : Run β} {f : α → Run γ} {g : β → Run δ}
    (hx : Echoes S A x y) (hf : ∀ a b, A a b → Echoes S B (f a) (g b)) :
    Echoes S B (x >>= f) (y >>= g) := by
  intro m m' hm
  have hxm := hx m m' hm
  show Echoed S B (EStateM.bind x f m) (EStateM.bind y g m')
  unfold EStateM.bind
  generalize x m = r, y m' = r' at hxm
  cases hxm with
  | ok hab hm => exact hf _ _ hab _ _ hm
  | error e hm => exact .error e hm

/-- Both sides look at what they have. -/
theorem get : Echoes S (Machine.Mirrors S) get get :=
  fun _ _ hm => .ok hm hm

theorem modify {f g : Machine → Machine}
    (hfg : ∀ m m', m.Mirrors S m' → (f m).Mirrors S (g m')) :
    Echoes S Any (modify f) (modify g) :=
  fun m m' hm => .ok trivial (hfg m m' hm)

theorem tick (limits : Limits) (span : Span) :
    Echoes S Any (Run.tick limits span) (Run.tick limits span) := by
  refine .bind (.modify fun m m' hm => ⟨hm.heap, hm.sink,
    congrArg (· + 1) hm.steps⟩) fun _ _ _ => ?_
  cases limits.steps with
  | none => exact .pure trivial
  | some limit =>
      refine .bind .get fun m m' hm => ?_
      rw [hm.steps]
      exact Lockstep.ite (.throw _) (.pure trivial)

theorem lookup (hS : InOrder S) (name : String) (span : Span)
    (hab : a.Alike S b) :
    Echoes S (Value.Alike S) (Run.lookup a name span)
      (Run.lookup b name span) := by
  refine .bind .get fun m m' hm => ?_
  rcases inv_of_rel (hm.heap.get? hS hab.scope name) with
    ⟨hi, hj⟩ | ⟨v, v', hi, hj, hv⟩
  · rw [hi, hj]
    exact .throw _
  · rw [hi, hj]
    exact .pure hv

theorem define (hS : InOrder S) (name : String) (hab : a.Alike S b)
    (hv : v.Alike S v') :
    Echoes S Any (Run.define a name v) (Run.define b name v') :=
  .modify fun _ _ hm =>
    ⟨hm.heap.define hS hab.scope name hv, hm.sink, hm.steps⟩

theorem assign (hS : InOrder S) (target : Ident) (hab : a.Alike S b)
    (hv : v.Alike S v') :
    Echoes S Any (Run.assign a target v) (Run.assign b target v') := by
  refine .bind .get fun m m' hm => ?_
  rcases inv_of_rel (hm.heap.owner? hS hab.scope target.name) with
    ⟨hi, hj⟩ | ⟨k, l, hi, hj, hkl⟩
  · rw [hi, hj]
    exact .throw _
  · rw [hi, hj]
    exact .modify fun _ _ hm =>
      ⟨hm.heap.define hS hkl target.name hv, hm.sink, hm.steps⟩

theorem child (hS : InOrder S) {i j : ScopeId} (hij : S i j) :
    Echoes S S (Run.child i) (Run.child j) := by
  intro m m' hm
  obtain ⟨hnew, hheap⟩ := hm.heap.child hS hij
  exact .ok hnew ⟨hheap, hm.sink, hm.steps⟩

theorem printLine (text : String) (span : Span) :
    Echoes S Any (Run.printLine text span) (Run.printLine text span) := by
  refine .bind (A := Eq) (fun m m' hm => ?_) fun taken _ htaken => ?_
  · refine .ok (congrArg (fun s : Sink => (s.write (text ++ "\n")).1)
      hm.sink) ⟨hm.heap, ?_, hm.steps⟩
    exact congrArg (fun s : Sink => (s.write (text ++ "\n")).2) hm.sink
  · subst htaken
    exact Lockstep.ite (.pure trivial) (.throw _)

/-- Evaluation does the same on heaps that mirror each other. -/
theorem lockstep (hS : InOrder S) (limits : Limits) :
    Lockstep limits limits S (Echoes S) where
  biUnique := hS.biUnique
  pure := .pure
  bind := .bind
  throw := .throw
  tick := .tick limits
  deepen _ _ hxy :=
    Lockstep.ite (.bind (A := Any) (.throw _) fun _ _ _ => hxy) hxy
  lookup := .lookup hS
  define := .define hS
  assign := .assign hS
  child := .child hS
  printLine := .printLine

end Echoes

end Script.Eval
