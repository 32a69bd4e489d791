/-
Scopes that are well founded. One scope is inside of no other one, and
every other scope is inside of an older one; so the way outward comes to
an end from everywhere, and at the same scope. Functions lead anywhere:
what they captured is only known to be there, and may have been created
later than the scope that they are kept in.

Looking up, assigning and clearing go outward by the parents alone, and do
not ask whether these are older. Such a walk is a relation, as it might
have no end (`Walk.Goes`). Where scopes are well founded it has one, and it
goes along the chain of the scope that it begins with (`Walk.goes_iff`).
-/
import Script.Proofs.Scopes.Plain

namespace Script

-- ================================================================ values

namespace Value

variable {v : Value} {n k : Nat}

/-- A value that captured no scope, or one of the first `n` scopes. -/
def Within (n : Nat) : Value → Prop
  | .function c => c.scope < n
  | _ => True

theorem Within.mono (h : v.Within n) (hle : n ≤ k) : v.Within k := by
  cases v with
  | function c => exact Nat.lt_of_lt_of_le h hle
  | _ => trivial

theorem within_of_not_function (h : v.type ≠ .function) : v.Within n := by
  cases v with
  | function c => exact (h rfl).elim
  | _ => trivial

theorem Within.keptIn (h : v.Within n) (i : ScopeId) :
    (v.keptIn i).Within n := by
  cases v with
  | function c =>
      unfold Value.keptIn
      dsimp only
      split
      · exact h
      · exact h
  | _ => trivial

theorem Within.handedOut (h : v.Within n) : v.handedOut.Within n := by
  cases v with
  | function c => exact h
  | _ => trivial

end Value

-- ================================================================= heaps

namespace Heap

variable {h h' : Heap} {globals i j p : ScopeId} {name : String} {v : Value}

/-- Whether a scope is the one around another one. -/
def Around (h : Heap) (p i : ScopeId) : Prop :=
  (h.scopes[i]?).map (·.parent) = some (some p)

theorem Around.unique {q : ScopeId} (hp : h.Around p i)
    (hq : h.Around q i) : p = q :=
  Option.some.inj (Option.some.inj (hp.symm.trans hq))

/-- One scope is inside of no other, and every other one inside of an older
one. -/
structure Nested (globals : ScopeId) (h : Heap) : Prop where
  root : (h.scopes[globals]?).map (·.parent) = some none
  parent : ∀ i < h.scopes.size, i ≠ globals → ∃ p < i, h.Around p i

/-- Scopes that are well founded, with functions that captured scopes which
are there. -/
structure Founded (globals : ScopeId) (h : Heap) : Prop
    extends Nested globals h where
  captured : ∀ i, ∀ b ∈ h.bindings i, b.2.Within h.scopes.size

/-- Two heaps with as many scopes, all of them inside of the same ones. -/
structure SameParents (h h' : Heap) : Prop where
  size : h'.scopes.size = h.scopes.size
  parent : ∀ i : ScopeId,
    (h'.scopes[i]?).map (·.parent) = (h.scopes[i]?).map (·.parent)

theorem SameParents.refl (h : Heap) : h.SameParents h := ⟨rfl, fun _ => rfl⟩

theorem lt_size_of_parent {q : Option ScopeId}
    (hs : (h.scopes[i]?).map (·.parent) = some q) : i < h.scopes.size := by
  obtain ⟨_, hscope, -⟩ := Option.map_eq_some_iff.1 hs
  exact lt_size_of_getElem? hscope

theorem sameParents_update (h : Heap) (i : ScopeId)
    (f : Bindings → Bindings) : h.SameParents (h.update i f) := by
  refine ⟨size_update .., fun j => ?_⟩
  rw [getElem?_update]
  by_cases hj : j = i
  · rw [if_pos hj, hj, Option.map_map]
    rfl
  · rw [if_neg hj]

theorem SameParents.chain (hsame : h.SameParents h') (i : ScopeId) :
    h'.chain i = h.chain i :=
  chain_congr fun j _ => hsame.parent j

theorem Nested.congr (hn : h.Nested globals) (hsame : h.SameParents h') :
    h'.Nested globals where
  root := (hsame.parent globals).trans hn.root
  parent i hi hne := by
    obtain ⟨p, hp, hs⟩ := hn.parent i (hsame.size ▸ hi) hne
    exact ⟨p, hp, (hsame.parent i).trans hs⟩

-- =============================================================== changes

theorem founded_root : root.Founded 0 where
  root := rfl
  parent i hi hne := absurd (Nat.lt_one_iff.1 hi) hne
  captured i b hb := by
    have hnone : root.bindings i = [] := by
      cases i with
      | zero => rfl
      | succ i => rfl
    rw [hnone] at hb
    cases hb

/-- The variables of a scope behind a change of those of one. -/
theorem bindings_update (h : Heap) (i j : ScopeId)
    (f : Bindings → Bindings) : (h.update i f).bindings j =
      if j = i ∧ i < h.scopes.size then f (h.bindings i)
      else h.bindings j := by
  unfold bindings
  rw [getElem?_update]
  by_cases hj : j = i
  · subst hj
    by_cases hi : j < h.scopes.size
    · rw [if_pos rfl, if_pos ⟨rfl, hi⟩, Array.getElem?_eq_getElem hi]
      rfl
    · rw [if_pos rfl, if_neg fun hand => hi hand.2,
        Array.getElem?_eq_none (Nat.le_of_not_lt hi)]
      rfl
  · rw [if_neg hj, if_neg fun hand => hj hand.1]

/-- Scopes stay well founded where variables are changed to such that their
functions captured scopes which are there. -/
theorem Founded.update (hf : h.Founded globals) (i : ScopeId)
    {f : Bindings → Bindings}
    (hchange : ∀ b ∈ f (h.bindings i), b.2.Within h.scopes.size) :
    (h.update i f).Founded globals where
  toNested := hf.toNested.congr (h.sameParents_update i f)
  captured j b hb := by
    rw [size_update]
    rw [bindings_update] at hb
    split at hb
    · exact hchange b hb
    · exact hf.captured j b hb

theorem Founded.define (hf : h.Founded globals) (i : ScopeId)
    (name : String) (hv : v.Within h.scopes.size) :
    (h.define i name v).Founded globals := by
  refine hf.update i fun b hb => ?_
  rcases mem_insert hb with rfl | hb
  · exact hv.keptIn i
  · exact hf.captured i b hb

theorem Founded.restore (hf : h.Founded globals) (i : ScopeId)
    {saved : Bindings} (hsaved : ∀ b ∈ saved, b.2.Within h.scopes.size) :
    (h.restore i saved).Founded globals :=
  hf.update i hsaved

theorem Founded.clear (hf : h.Founded globals) (i : ScopeId) :
    (h.clear i).Founded globals :=
  hf.restore i (List.forall_mem_nil _)

theorem Founded.clearChain (hf : h.Founded globals) (i : ScopeId) :
    (h.clearChain i).Founded globals := by
  unfold Heap.clearChain
  induction h.chain i generalizing h with
  | nil => exact hf
  | cons j js ih => exact ih (hf.clear j)

/-- A new scope is younger than the one that it is inside of. -/
theorem Founded.child (hf : h.Founded globals) (hp : p < h.scopes.size) :
    (h.child p).2.Founded globals where
  root := by
    rw [getElem?_child_of_lt h p (lt_size_of_parent hf.root)]
    exact hf.root
  parent i hi hne := by
    rw [size_child] at hi
    rcases Nat.lt_succ_iff_lt_or_eq.1 hi with hi | rfl
    · obtain ⟨q, hq, hs⟩ := hf.parent i hi hne
      refine ⟨q, hq, ?_⟩
      rw [Around, getElem?_child_of_lt h p hi]
      exact hs
    · exact ⟨p, hp, by rw [Around, getElem?_child_self]; rfl⟩
  captured i b hb := by
    rw [bindings_child] at hb
    rw [size_child]
    exact (hf.captured i b hb).mono (Nat.le_succ _)

/-- What is looked up captured a scope that is there. -/
theorem Founded.get? (hf : h.Founded globals)
    (hget : h.get? i name = some v) : v.Within h.scopes.size := by
  obtain ⟨j, -, hlookup⟩ := Option.bind_eq_some_iff.1 hget
  obtain ⟨w, hw, rfl⟩ := Option.map_eq_some_iff.1 hlookup
  obtain ⟨front, behind, heq, -⟩ := List.lookup_eq_some_iff.1 hw
  have hmem : (name, w) ∈ h.bindings j := heq ▸ List.mem_append_cons_self
  exact (hf.captured j (name, w) hmem).handedOut

-- =============================================================== outward

/-- A scope is the one that all others are inside of, or it is inside of an
older one, where the way outward goes on. -/
theorem Nested.step (hn : h.Nested globals) (hi : i < h.scopes.size) :
    (i = globals ∧ (h.scopes[i]?).map (·.parent) = some none
        ∧ h.chain i = [i])
      ∨ ∃ p < i, h.Around p i ∧ h.chain i = i :: h.chain p := by
  by_cases hglobals : i = globals
  · subst hglobals
    refine .inl ⟨rfl, hn.root, ?_⟩
    obtain ⟨⟨bs, q⟩, hscope, rfl⟩ := Option.map_eq_some_iff.1 hn.root
    exact chain_root hscope
  · obtain ⟨p, hp, hs⟩ := hn.parent i hi hglobals
    refine .inr ⟨p, hp, hs, ?_⟩
    obtain ⟨⟨bs, q⟩, hscope, rfl⟩ := Option.map_eq_some_iff.1 hs
    rw [Heap.chain, hscope]
    exact if_pos hp

/-- From no scope can one go outward forever. -/
theorem Nested.wellFounded (hn : h.Nested globals) :
    WellFounded h.Around := by
  refine Subrelation.wf (fun {p i} hs => ?_) Nat.lt_wfRel.wf
  have hs : h.Around p i := hs
  rcases hn.step (lt_size_of_parent hs) with ⟨-, hnone, -⟩ | ⟨q, hq, hs', -⟩
  · cases hs.symm.trans hnone
  · obtain rfl := hs.unique hs'
    exact hq

/-- Every way outward ends at the same scope. -/
theorem Nested.getLast?_chain (hn : h.Nested globals)
    (hi : i < h.scopes.size) : (h.chain i).getLast? = some globals := by
  induction i using Nat.strongRecOn with
  | ind i ih =>
  rcases hn.step hi with ⟨rfl, -, hchain⟩ | ⟨p, hp, -, hchain⟩
  · rw [hchain]
    rfl
  · rw [hchain, List.getLast?_cons, ih p hp (Nat.lt_trans hp hi)]
    rfl

/-- The scopes on the way outward are older and older. -/
theorem pairwise_chain (h : Heap) (i : ScopeId) :
    (h.chain i).Pairwise (· > ·) := by
  induction i using Nat.strongRecOn with
  | ind i ih =>
  cases hchain : h.chain i with
  | nil => exact .nil
  | cons j js =>
      have hj : j = i := head_of_chain hchain
      refine List.pairwise_cons.2 ⟨fun k hk => ?_, ?_⟩
      · rw [hj]
        exact lt_of_chain hchain hk
      · rw [chain_eq] at hchain
        split at hchain
        · obtain ⟨-, rfl⟩ := List.cons.inj hchain
          cases h.plain.outer? i with
          | none => exact .nil
          | some p => exact ih p.1 p.2
        · cases hchain

theorem nodup_chain (h : Heap) (i : ScopeId) : (h.chain i).Nodup :=
  (h.pairwise_chain i).imp fun hgt => Nat.ne_of_gt hgt

-- ================================================================= walks

/-- A way to go outward: what comes of it at a scope where it ends, what it
leaves behind where it passes a scope, and what comes of it behind the last
one. -/
structure Walk (β : Type) where
  ends : Heap → ScopeId → Option β
  pass : Heap → ScopeId → Heap
  out : Heap → β

namespace Walk

variable {β : Type} {w : Walk β} {b : β} {is : List ScopeId}

/-- Going to the nearest scope that binds a name. -/
def toOwner (name : String) (found : Heap → ScopeId → Value → β) :
    Walk (Option β) where
  ends h i := ((h.bindings i).lookup name).map fun v => some (found h i v)
  pass h _ := h
  out _ := none

/-- Looking up a name. -/
def getting (name : String) : Walk (Option Value) :=
  toOwner name fun _ _ v => v.handedOut

/-- Giving a new value to the variable that a name means. -/
def assigning (name : String) (v : Value) : Walk (Option Heap) :=
  toOwner name fun h i _ => h.define i name v

/-- Removing the variables of all scopes on the way. -/
def clearing : Walk Heap where
  ends _ _ := none
  pass := clear
  out := id

/-- Going from a scope, with what comes of it, and the scopes visited in
order. The way goes on to the scope around one, whatever scope that is. -/
inductive Goes (w : Walk β) : Heap → ScopeId → β → List ScopeId → Prop
  | here {h : Heap} {i : ScopeId} {b : β} (hi : i < h.scopes.size)
      (hends : w.ends h i = some b) : Goes w h i b [i]
  | last {h : Heap} {i : ScopeId}
      (hparent : (h.scopes[i]?).map (·.parent) = some none)
      (hends : w.ends h i = none) : Goes w h i (w.out (w.pass h i)) [i]
  | outward {h : Heap} {i p : ScopeId} {b : β} {is : List ScopeId}
      (hparent : h.Around p i) (hends : w.ends h i = none)
      (hrest : Goes w (w.pass h i) p b is) : Goes w h i b (i :: is)

/-- Going along a list of scopes. -/
def along (w : Walk β) (h : Heap) : List ScopeId → β × List ScopeId
  | [] => (w.out h, [])
  | i :: is =>
      match w.ends h i with
      | some b => (b, [i])
      | none =>
          let (b, js) := w.along (w.pass h i) is
          (b, i :: js)

theorem along_of_ends (hends : w.ends h i = some b) (is : List ScopeId) :
    w.along h (i :: is) = (b, [i]) := by
  rw [along, hends]

theorem along_of_passed (hends : w.ends h i = none) (is : List ScopeId) :
    w.along h (i :: is) = ((w.along (w.pass h i) is).1,
      i :: (w.along (w.pass h i) is).2) := by
  rw [along, hends]

/-- Where scopes are nested, going outward is going along the chain: it
comes to an end, in one way. -/
theorem goes_iff
    (hw : ∀ (h : Heap) (i : ScopeId), h.SameParents (w.pass h i))
    (hn : h.Nested globals) (hi : i < h.scopes.size) :
    w.Goes h i b is ↔ (b, is) = w.along h (h.chain i) := by
  induction i using Nat.strongRecOn generalizing h b is with
  | ind i ih =>
  rcases hn.step hi with ⟨-, hs, hchain⟩ | ⟨p, hp, hs, hchain⟩
  · -- the last scope
    rw [hchain]
    constructor
    · rintro (⟨-, hends⟩ | ⟨-, hends⟩ | ⟨hparent, -, -⟩)
      · rw [along_of_ends hends]
      · rw [along_of_passed hends]
        rfl
      · cases hs.symm.trans hparent
    · cases hends : w.ends h i with
      | some c =>
          rw [along_of_ends hends]
          rintro ⟨⟩
          exact .here hi hends
      | none =>
          rw [along_of_passed hends]
          rintro ⟨⟩
          exact .last hs hends
  · -- the way goes on
    have hrest {b : β} {js : List ScopeId} : w.Goes (w.pass h i) p b js
        ↔ (b, js) = w.along (w.pass h i) (h.chain p) := by
      have hsame := hw h i
      rw [← hsame.chain p]
      exact ih p hp (hn.congr hsame) (hsame.size ▸ Nat.lt_trans hp hi)
    rw [hchain]
    constructor
    · rintro (⟨-, hends⟩ | ⟨hparent, -⟩ | ⟨hparent, hends, hgoes⟩)
      · rw [along_of_ends hends]
      · cases hs.symm.trans hparent
      · obtain rfl := hs.unique hparent
        rw [along_of_passed hends, ← hrest.1 hgoes]
    · cases hends : w.ends h i with
      | some c =>
          rw [along_of_ends hends]
          rintro ⟨⟩
          exact .here hi hends
      | none =>
          rw [along_of_passed hends]
          rintro ⟨⟩
          exact .outward hs hends (hrest.2 rfl)

theorem along_prefix (w : Walk β) (h : Heap) (is : List ScopeId) :
    (w.along h is).2 <+: is := by
  induction is generalizing h with
  | nil => exact List.nil_prefix
  | cons i is ih =>
      cases hends : w.ends h i with
      | some b =>
          rw [along_of_ends hends]
          exact (List.prefix_cons_inj i).2 List.nil_prefix
      | none =>
          rw [along_of_passed hends]
          exact (List.prefix_cons_inj i).2 (ih _)

/-- Going to the owner of a name ends there, or else it is not ended by any
scope. -/
theorem along_toOwner (found : Heap → ScopeId → Value → β) (name : String)
    (h : Heap) (is : List ScopeId) :
    let r := (is.find? (h.binds name)).bind fun j =>
      ((h.bindings j).lookup name).map (found h j)
    ((toOwner name found).along h is).1 = r
      ∧ (r = none → ((toOwner name found).along h is).2 = is) := by
  induction is with
  | nil => exact ⟨rfl, fun _ => rfl⟩
  | cons i is ih =>
      rw [List.find?_cons]
      have hends : (toOwner name found).ends h i = ((h.bindings i).lookup
        name).map fun v => some (found h i v) := rfl
      unfold binds
      cases hlookup : (h.bindings i).lookup name with
      | some v =>
          rw [hlookup] at hends
          rw [along_of_ends hends]
          dsimp only [Option.isSome_some]
          rw [Option.bind_some, hlookup]
          exact ⟨rfl, nofun⟩
      | none =>
          rw [hlookup] at hends
          rw [along_of_passed hends]
          exact ⟨ih.1, fun hnone => congrArg (i :: ·) (ih.2 hnone)⟩

theorem along_clearing (h : Heap) (is : List ScopeId) :
    clearing.along h is = (is.foldl clear h, is) := by
  induction is generalizing h with
  | nil => rfl
  | cons i is ih =>
      have hends : clearing.ends h i = none := rfl
      have hpass : clearing.pass h i = h.clear i := rfl
      rw [along_of_passed hends, hpass, ih, List.foldl_cons]

end Walk

/-- From a scope, the way outward leads over scopes that are all different
and ends at the global one. Looking up and assigning a name and clearing go
this way and come to an end with one outcome; they visit each scope once at
most, and all of them unless they find an owner of the name. -/
structure EndsAt (h : Heap) (globals i : ScopeId) : Prop where
  nodup : (h.chain i).Nodup
  last : (h.chain i).getLast? = some globals
  get : ∀ name, ∃ is, is <+: h.chain i
    ∧ (h.get? i name = none → is = h.chain i)
    ∧ ∀ b js, (Walk.getting name).Goes h i b js
      ↔ b = h.get? i name ∧ js = is
  assign : ∀ name v, ∃ is, is <+: h.chain i
    ∧ (h.assign? i name v = none → is = h.chain i)
    ∧ ∀ b js, (Walk.assigning name v).Goes h i b js
      ↔ b = h.assign? i name v ∧ js = is
  clear : ∀ b js, Walk.clearing.Goes h i b js
    ↔ b = h.clearChain i ∧ js = h.chain i

/-- Where scopes are nested, going to the owner of a name comes to an
end. -/
theorem Nested.toOwner {β : Type} {found : Heap → ScopeId → Value → β}
    (hn : h.Nested globals) (hi : i < h.scopes.size) (name : String)
    {r : Option β} (hr : r = (h.owner? i name).bind fun j =>
      ((h.bindings j).lookup name).map (found h j)) :
    ∃ is, is <+: h.chain i ∧ (r = none → is = h.chain i)
      ∧ ∀ b js, (Walk.toOwner name found).Goes h i b js
        ↔ b = r ∧ js = is := by
  obtain ⟨hfst, hall⟩ := Walk.along_toOwner found name h (h.chain i)
  refine ⟨((Walk.toOwner name found).along h (h.chain i)).2,
    Walk.along_prefix _ h _, fun hnone => hall (hr.symm.trans hnone),
    fun b js => ?_⟩
  rw [Walk.goes_iff (fun h _ => .refl h) hn hi, Prod.ext_iff, hfst, hr]
  rfl

theorem Nested.endsAt (hn : h.Nested globals) (hi : i < h.scopes.size) :
    h.EndsAt globals i where
  nodup := h.nodup_chain i
  last := hn.getLast?_chain hi
  get name := hn.toOwner hi name rfl
  assign name v := by
    refine hn.toOwner hi name ?_
    unfold assign?
    cases howner : h.owner? i name with
    | none => rfl
    | some j =>
        have hbinds : h.binds name j = true := List.find?_some howner
        obtain ⟨w, hw⟩ := Option.isSome_iff_exists.1 hbinds
        rw [Option.map_some, Option.bind_some, hw]
        rfl
  clear b js := by
    have hsame (h : Heap) (i : ScopeId) :
        h.SameParents (Walk.clearing.pass h i) :=
      h.sameParents_update i fun _ => []
    rw [Walk.goes_iff hsame hn hi, Walk.along_clearing, Prod.ext_iff]
    rfl

end Heap

end Script
