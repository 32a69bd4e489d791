/-
Scopes, read one at a time. Creating a scope and binding a name touch one
scope each; the owner of a name is the scope itself or else the owner one
scope further out. The parent of a scope is older than it is, so this
ends at the root.
-/
import Script.Scope

namespace Script.Heap

/-- The scope at a place after a change of the variables of one. -/
theorem getElem?_update (h : Heap) (i j : ScopeId)
    (f : Bindings → Bindings) :
    (h.update i f).scopes[j]? =
      if j = i then
        (h.scopes[i]?).map fun s => { s with bindings := f s.bindings }
      else h.scopes[j]? := by
  unfold update
  rw [Array.getElem?_modify]
  by_cases hij : i = j
  · simp [hij]
  · simp [hij, Ne.symm hij]

theorem getElem?_define_of_ne (h : Heap) {i j : ScopeId} (hij : j ≠ i)
    (name : String) (v : Value) :
    (h.define i name v).scopes[j]? = h.scopes[j]? := by
  unfold define
  rw [getElem?_update, if_neg hij]

theorem getElem?_define_self {h : Heap} {i : ScopeId} {s : Scope}
    (hs : h.scopes[i]? = some s) (name : String) (v : Value) :
    (h.define i name v).scopes[i]?
      = some ⟨s.bindings.insert name (v.keptIn i), s.parent⟩ := by
  unfold define
  rw [getElem?_update, if_pos rfl, hs]
  rfl

@[simp] theorem size_define (h : Heap) (i : ScopeId) (name : String)
    (v : Value) : (h.define i name v).scopes.size = h.scopes.size :=
  size_update ..

/-- A new scope is the last one, and binds nothing. -/
theorem getElem?_child_self (h : Heap) (parent : ScopeId) :
    (h.child parent).2.scopes[h.scopes.size]? = some ⟨[], some parent⟩ :=
  Array.getElem?_push_size

theorem getElem?_child_of_lt (h : Heap) (parent : ScopeId) {i : ScopeId}
    (hi : i < h.scopes.size) :
    (h.child parent).2.scopes[i]? = h.scopes[i]? := by
  show (h.scopes.push _)[i]? = _
  rw [Array.getElem?_push, if_neg (Nat.ne_of_lt hi)]

@[simp] theorem size_child (h : Heap) (parent : ScopeId) :
    (h.child parent).2.scopes.size = h.scopes.size + 1 :=
  Array.size_push ..

theorem lt_size_of_getElem? {h : Heap} {i : ScopeId} {s : Scope}
    (hs : h.scopes[i]? = some s) : i < h.scopes.size :=
  (Array.getElem?_eq_some_iff.1 hs).1

theorem bindings_eq {h : Heap} {i : ScopeId} {s : Scope}
    (hs : h.scopes[i]? = some s) : h.bindings i = s.bindings := by
  unfold bindings
  rw [hs]
  rfl

theorem binds_eq {h : Heap} {i : ScopeId} {s : Scope}
    (hs : h.scopes[i]? = some s) (name : String) :
    h.binds name i = (s.bindings.lookup name).isSome := by
  unfold binds
  rw [bindings_eq hs]

/-- The owner of a name, from a scope inside of another one. -/
theorem owner?_eq {h : Heap} {i p : ScopeId} {bs : Bindings}
    (hs : h.scopes[i]? = some ⟨bs, some p⟩) (hp : p < i)
    (name : String) : h.owner? i name =
      if (bs.lookup name).isSome then some i else h.owner? p name := by
  have hchain : h.chain i = i :: h.chain p := by
    rw [chain, hs]
    simp [hp]
  unfold owner?
  rw [hchain, List.find?_cons, binds_eq hs]
  cases (bs.lookup name).isSome <;> rfl

/-- The way outward from a scope with none around it. -/
theorem chain_root {h : Heap} {i : ScopeId} {bs : Bindings}
    (hs : h.scopes[i]? = some ⟨bs, none⟩) : h.chain i = [i] := by
  rw [chain, hs]

/-- The owner of a name, from a scope with none around it. -/
theorem owner?_root {h : Heap} {i : ScopeId} {bs : Bindings}
    (hs : h.scopes[i]? = some ⟨bs, none⟩) (name : String) :
    h.owner? i name = if (bs.lookup name).isSome then some i else none := by
  unfold owner?
  rw [chain_root hs, List.find?_cons, binds_eq hs]
  cases (bs.lookup name).isSome <;> rfl

-- ================================================================ chains

/-- The way outward depends on the parents alone. -/
theorem chain_congr {h h' : Heap} {i : ScopeId}
    (hparent : ∀ j, j ≤ i → (h'.scopes[j]?).map (·.parent) =
      (h.scopes[j]?).map (·.parent)) : h'.chain i = h.chain i := by
  induction i using Nat.strongRecOn with
  | ind i ih =>
  have hi := hparent i (Nat.le_refl i)
  unfold chain
  cases hs : h.scopes[i]? with
  | none =>
      rw [hs] at hi
      rw [Option.map_eq_none_iff.1 hi]
  | some s =>
      rw [hs] at hi
      obtain ⟨s', hs', hparent'⟩ := Option.map_eq_some_iff.1 hi
      obtain ⟨bs, q⟩ := s
      obtain ⟨bs', q'⟩ := s'
      obtain rfl : q' = q := hparent'
      rw [hs']
      cases q' with
      | none => rfl
      | some q =>
          dsimp only
          by_cases hq : q < i
          · rw [if_pos hq, if_pos hq, ih q hq fun j hj =>
              hparent j (Nat.le_trans hj (Nat.le_of_lt hq))]
          · rw [if_neg hq, if_neg hq]

@[simp] theorem chain_define (h : Heap) (i j : ScopeId) (name : String)
    (v : Value) : (h.define i name v).chain j = h.chain j := by
  refine chain_congr fun k _ => ?_
  by_cases hk : k = i
  · subst hk
    cases hs : h.scopes[k]? with
    | none =>
        unfold define
        rw [getElem?_update, if_pos rfl, hs]
        rfl
    | some s =>
        rw [getElem?_define_self hs]
        rfl
  · rw [getElem?_define_of_ne h hk]

theorem chain_child_of_lt (h : Heap) (parent : ScopeId) {i : ScopeId}
    (hi : i < h.scopes.size) : (h.child parent).2.chain i = h.chain i :=
  chain_congr fun j hj => by
    rw [getElem?_child_of_lt h parent (Nat.lt_of_le_of_lt hj hi)]

theorem chain_child_self (h : Heap) {parent : ScopeId}
    (hparent : parent < h.scopes.size) :
    (h.child parent).2.chain h.scopes.size =
      h.scopes.size :: h.chain parent := by
  rw [chain, getElem?_child_self]
  dsimp only
  rw [if_pos hparent, chain_child_of_lt h parent hparent]

/-- A chain starts with its scope. -/
theorem head_of_chain {h : Heap} {i j : ScopeId} {js : List ScopeId}
    (hchain : h.chain i = j :: js) : j = i := by
  unfold chain at hchain
  split at hchain
  case h_1 => cases hchain
  case h_2 s hs =>
      split at hchain
      case h_1 =>
          cases hchain
          rfl
      case h_2 q hq =>
          split at hchain
          case isTrue =>
              cases hchain
              rfl
          case isFalse =>
              cases hchain
              rfl

/-- The scopes around one are older. -/
theorem lt_of_chain {h : Heap} {i j k : ScopeId} {js : List ScopeId}
    (hchain : h.chain i = j :: js) (hk : k ∈ js) : k < i := by
  induction i using Nat.strongRecOn generalizing j js with
  | ind i ih =>
  unfold chain at hchain
  split at hchain
  case h_1 => cases hchain
  case h_2 s hs =>
      split at hchain
      case h_1 =>
          cases hchain
          cases hk
      case h_2 q hq =>
          split at hchain
          case isTrue hlt =>
              obtain ⟨-, rfl⟩ := List.cons.inj hchain
              cases hrest : h.chain q with
              | nil =>
                  rw [hrest] at hk
                  cases hk
              | cons j' js' =>
                  rw [hrest] at hk
                  rcases List.mem_cons.1 hk with rfl | hk
                  · rw [head_of_chain hrest]
                    exact hlt
                  · exact Nat.lt_trans (ih q hlt hrest hk) hlt
          case isFalse =>
              obtain ⟨-, rfl⟩ := List.cons.inj hchain
              cases hk

-- ============================================================== bindings

/-- Binding a name brings in that binding and no other. -/
theorem mem_insert {name : String} {v : Value} {bs : Bindings}
    {b : String × Value} (h : b ∈ bs.insert name v) :
    b = (name, v) ∨ b ∈ bs := by
  induction bs with
  | nil => exact .inl (List.mem_singleton.1 h)
  | cons c bs ih =>
      unfold Bindings.insert at h
      split at h
      · exact (List.mem_cons.1 h).imp_right (List.mem_cons_of_mem c)
      · rcases List.mem_cons.1 h with rfl | h
        · exact .inr (List.mem_cons_self ..)
        · exact (ih h).imp_right (List.mem_cons_of_mem c)

theorem bindings_define {h : Heap} {i : ScopeId} (hi : i < h.scopes.size)
    (j : ScopeId) (name : String) (v : Value) :
    (h.define i name v).bindings j =
      if j = i then (h.bindings i).insert name (v.keptIn i)
      else h.bindings j := by
  by_cases hj : j = i
  · subst hj
    rw [if_pos rfl, bindings_eq (getElem?_define_self
      (Array.getElem?_eq_getElem hi) name v),
      bindings_eq (Array.getElem?_eq_getElem hi)]
  · rw [if_neg hj]
    unfold bindings
    rw [getElem?_define_of_ne h hj]

theorem bindings_child (h : Heap) (parent j : ScopeId) :
    (h.child parent).2.bindings j = h.bindings j := by
  by_cases hj : j < h.scopes.size
  · unfold bindings
    rw [getElem?_child_of_lt h parent hj]
  · -- A new scope binds nothing, as no scope does.
    have hnone : h.bindings j = [] := by
      unfold bindings
      rw [Array.getElem?_eq_none (Nat.le_of_not_lt hj)]
      rfl
    rw [hnone]
    by_cases heq : j = h.scopes.size
    · rw [heq, bindings_eq (getElem?_child_self h parent)]
    · unfold bindings
      rw [Array.getElem?_eq_none]
      · rfl
      · rw [size_child]
        exact Nat.succ_le_of_lt
          (Nat.lt_of_le_of_ne (Nat.le_of_not_lt hj) (Ne.symm heq))

theorem binds_define {h : Heap} {i : ScopeId} (hi : i < h.scopes.size)
    (j : ScopeId) (name other : String) (v : Value) :
    (h.define i name v).binds other j =
      (decide (j = i ∧ other = name) || h.binds other j) := by
  unfold binds
  rw [bindings_define hi]
  by_cases hj : j = i
  · subst hj
    rw [if_pos rfl, lookup_insert]
    by_cases hname : other = name
    · simp [hname]
    · simp [hname]
  · simp [hj]

theorem binds_child (h : Heap) (parent j : ScopeId) (name : String) :
    (h.child parent).2.binds name j = h.binds name j := by
  unfold binds
  rw [bindings_child]

end Script.Heap
