/-
Scopes without handles. A plain value is what a program can see of a value:
a function is its declaration and the scope it captured, and nothing is
said of how it holds this scope. A plain scope is a map from names to plain
values, with the scope around it; names are looked up and given new values
by going outward, one scope after the other. Forgetting the handles leads
from a heap to a plain one, and all that can be asked of a heap has the
same answer in both.
-/
import Script.Proofs.Heap

namespace Script

-- ================================================================ values

/-- A value as programs see it. -/
inductive PlainValue where
  | number (x : Float)
  | string (s : String)
  | bool (b : Bool)
  | nil
  | function (d : FnDecl) (scope : ScopeId)

/-- Whether programs take two values for equal. -/
def PlainValue.same : PlainValue → PlainValue → Bool
  | .number x, .number y => x == y
  | .string s, .string t => s == t
  | .bool a, .bool b => a == b
  | .nil, .nil => true
  | .function d i, .function e j => d.same e && i == j
  | _, _ => false

namespace Value

/-- What programs see of a value. -/
def plain : Value → PlainValue
  | .number x => .number x
  | .string s => .string s
  | .bool b => .bool b
  | .nil => .nil
  | .function c => .function c.decl c.scope

@[simp] theorem plain_keptIn (i : ScopeId) (v : Value) :
    (v.keptIn i).plain = v.plain := by
  cases v with
  | function c =>
      simp only [keptIn]
      split <;> rfl
  | _ => rfl

@[simp] theorem plain_handedOut (v : Value) :
    v.handedOut.plain = v.plain := by
  cases v <;> rfl

/-- How functions hold their scopes plays no part in comparisons. -/
theorem same_plain (v w : Value) : v.plain.same w.plain = v.same w := by
  cases v <;> cases w <;> rfl

end Value

-- ================================================================= heaps

/-- What a scope binds. -/
abbrev PlainBindings := String → Option PlainValue

/-- A scope, with the one around it. -/
structure PlainScope where
  bindings : PlainBindings
  parent : Option ScopeId

/-- All scopes in the order of their creation. -/
structure PlainHeap where
  scopes : Array PlainScope

namespace PlainHeap

/-- A heap with a root scope only. -/
def root : PlainHeap := ⟨#[⟨fun _ => none, none⟩]⟩

/-- Creates a scope inside of another one. -/
def child (h : PlainHeap) (parent : ScopeId) : ScopeId × PlainHeap :=
  (h.scopes.size, ⟨h.scopes.push ⟨fun _ => none, some parent⟩⟩)

/-- What a scope binds itself. -/
def bindings (h : PlainHeap) (i : ScopeId) : PlainBindings :=
  ((h.scopes[i]?).map (·.bindings)).getD fun _ => none

/-- Puts other variables in the place of those of a scope. -/
def restore (h : PlainHeap) (i : ScopeId) (bs : PlainBindings) : PlainHeap :=
  ⟨h.scopes.modify i fun s => { s with bindings := bs }⟩

/-- Binds a name in a scope itself. -/
def define (h : PlainHeap) (i : ScopeId) (name : String) (v : PlainValue) :
    PlainHeap :=
  h.restore i fun other => if other = name then some v else h.bindings i other

/-- Removes the variables of a scope. -/
def clear (h : PlainHeap) (i : ScopeId) : PlainHeap :=
  h.restore i fun _ => none

/-- The scope around a scope. A scope is newer than the one around it. -/
def outer? (h : PlainHeap) (i : ScopeId) : Option {p : ScopeId // p < i} :=
  ((h.scopes[i]?).bind (·.parent)).bind fun p =>
    if hp : p < i then some ⟨p, hp⟩ else none

/-- What a name means in a scope. -/
def get? (h : PlainHeap) (i : ScopeId) (name : String) :
    Option PlainValue :=
  match h.bindings i name with
  | some v => some v
  | none =>
      match h.outer? i with
      | some ⟨p, _⟩ => h.get? p name
      | none => none
termination_by i

/-- Gives a new value to the variable that a name means in a scope. -/
def assign? (h : PlainHeap) (i : ScopeId) (name : String)
    (v : PlainValue) : Option PlainHeap :=
  match h.bindings i name with
  | some _ => some (h.define i name v)
  | none =>
      match h.outer? i with
      | some ⟨p, _⟩ => h.assign? p name v
      | none => none
termination_by i

/-- Removes the variables of a scope and of all scopes around it. -/
def clearChain (h : PlainHeap) (i : ScopeId) : PlainHeap :=
  match h.outer? i with
  | some ⟨p, _⟩ => (h.clear i).clearChain p
  | none => h.clear i
termination_by i

end PlainHeap

-- ============================================================ forgetting

/-- Variables as programs see them. -/
def Bindings.plain (bs : Bindings) : PlainBindings := fun name =>
  (bs.lookup name).map Value.plain

/-- A scope as programs see it. -/
def Scope.plain (s : Scope) : PlainScope := ⟨s.bindings.plain, s.parent⟩

/-- A heap as programs see it. -/
def Heap.plain (h : Heap) : PlainHeap := ⟨h.scopes.map Scope.plain⟩

namespace Heap

variable (h : Heap) (i : ScopeId) (name : String) (v : Value)

theorem getElem?_plain : h.plain.scopes[i]? = (h.scopes[i]?).map Scope.plain :=
  Array.getElem?_map ..

theorem plain_root : root.plain = PlainHeap.root := by
  unfold root plain PlainHeap.root
  rw [List.map_toArray]
  rfl

theorem plain_child (parent : ScopeId) :
    h.plain.child parent = ((h.child parent).1, (h.child parent).2.plain) := by
  unfold PlainHeap.child child plain
  rw [Array.size_map, Array.map_push]
  rfl

@[simp] theorem plain_bindings :
    h.plain.bindings i = (h.bindings i).plain := by
  unfold PlainHeap.bindings bindings
  rw [getElem?_plain]
  cases h.scopes[i]? <;> rfl

/-- Changing variables is putting others in their place. -/
theorem plain_update (f : Bindings → Bindings) :
    (h.update i f).plain = h.plain.restore i (f (h.bindings i)).plain := by
  unfold PlainHeap.restore
  refine congrArg PlainHeap.mk (Array.ext_getElem? fun j => ?_)
  rw [Array.getElem?_modify]
  show (h.update i f).plain.scopes[j]?
    = if i = j then (h.plain.scopes[j]?).map _ else h.plain.scopes[j]?
  rw [getElem?_plain, getElem?_plain, getElem?_update]
  by_cases hj : j = i
  · subst hj
    rw [if_pos rfl, if_pos rfl]
    cases hs : h.scopes[j]? with
    | none => rfl
    | some s =>
        rw [bindings_eq hs]
        rfl
  · rw [if_neg hj, if_neg (Ne.symm hj)]

theorem plain_restore (saved : Bindings) :
    (h.restore i saved).plain = h.plain.restore i saved.plain :=
  h.plain_update i fun _ => saved

theorem plain_clear : (h.clear i).plain = h.plain.clear i :=
  h.plain_restore i []

theorem plain_define :
    (h.define i name v).plain = h.plain.define i name v.plain := by
  unfold define PlainHeap.define
  rw [plain_update, plain_bindings]
  refine congrArg _ (funext fun other => ?_)
  unfold Bindings.plain
  rw [lookup_insert]
  by_cases hother : other = name
  · rw [if_pos hother, if_pos hother, Option.map_some, Value.plain_keptIn]
  · rw [if_neg hother, if_neg hother]

-- ============================================================== outward

theorem outer?_plain : h.plain.outer? i =
    ((h.scopes[i]?).bind (·.parent)).bind fun p =>
      if hp : p < i then some ⟨p, hp⟩ else none := by
  unfold PlainHeap.outer?
  rw [getElem?_plain]
  cases h.scopes[i]? <;> rfl

theorem outer?_of_size_le {h : Heap} {i : ScopeId}
    (hi : h.scopes.size ≤ i) : h.plain.outer? i = none := by
  rw [outer?_plain, Array.getElem?_eq_none hi]
  rfl

/-- The way outward from a scope goes on with the scope around it. -/
theorem chain_eq : h.chain i =
    if i < h.scopes.size then
      i :: match h.plain.outer? i with
        | some ⟨p, _⟩ => h.chain p
        | none => []
    else [] := by
  rw [chain, outer?_plain]
  cases hs : h.scopes[i]? with
  | none => rw [if_neg (Nat.not_lt_of_le (Array.getElem?_eq_none_iff.1 hs))]
  | some s =>
      rw [if_pos (lt_size_of_getElem? hs)]
      obtain ⟨bs, _ | p⟩ := s
      · rfl
      · by_cases hp : p < i <;> simp [hp]

/-- The owner of a name, in terms of the scope around a scope. -/
theorem owner?_step : h.owner? i name =
    if h.binds name i = true then some i
    else match h.plain.outer? i with
      | some ⟨p, _⟩ => h.owner? p name
      | none => none := by
  unfold owner?
  rw [chain_eq]
  by_cases hi : i < h.scopes.size
  · rw [if_pos hi, List.find?_cons]
    cases h.binds name i with
    | true => rfl
    | false => cases h.plain.outer? i <;> rfl
  · -- No such scope binds anything, and there is none around it.
    have hle := Nat.le_of_not_lt hi
    rw [if_neg hi, outer?_of_size_le hle]
    unfold binds bindings
    rw [Array.getElem?_eq_none hle]
    rfl

theorem plain_get? :
    h.plain.get? i name = (h.get? i name).map Value.plain := by
  induction i using Nat.strongRecOn with
  | ind i ih =>
  unfold PlainHeap.get? get?
  rw [plain_bindings, owner?_step]
  unfold Bindings.plain binds
  cases hlookup : (h.bindings i).lookup name with
  | some v =>
      show some v.plain = Option.map Value.plain
        (((h.bindings i).lookup name).map Value.handedOut)
      rw [hlookup, Option.map_some, Option.map_some, Value.plain_handedOut]
  | none =>
      cases h.plain.outer? i with
      | none => rfl
      | some p => exact ih p.1 p.2

theorem plain_assign? : h.plain.assign? i name v.plain
    = (h.assign? i name v).map plain := by
  induction i using Nat.strongRecOn with
  | ind i ih =>
  unfold PlainHeap.assign? assign?
  rw [plain_bindings, owner?_step]
  unfold Bindings.plain binds
  cases hlookup : (h.bindings i).lookup name with
  | some w => exact congrArg some (h.plain_define i name v).symm
  | none =>
      cases h.plain.outer? i with
      | none => rfl
      | some p => exact ih p.1 p.2

theorem chain_clear (j : ScopeId) : (h.clear i).chain j = h.chain j := by
  refine chain_congr fun k _ => ?_
  unfold clear restore
  rw [getElem?_update]
  by_cases hk : k = i
  · rw [if_pos hk, hk, Option.map_map]
    rfl
  · rw [if_neg hk]

/-- Where there is no scope, there is nothing to remove. -/
theorem clear_of_size_le {h : Heap} {i : ScopeId}
    (hi : h.scopes.size ≤ i) : h.clear i = h := by
  refine congrArg mk (Array.ext_getElem? fun j => ?_)
  show (h.update i fun _ => []).scopes[j]? = _
  rw [getElem?_update]
  by_cases hj : j = i
  · rw [if_pos hj, hj, Array.getElem?_eq_none hi]
    rfl
  · rw [if_neg hj]

theorem plain_clearChain :
    (h.clearChain i).plain = h.plain.clearChain i := by
  induction i using Nat.strongRecOn generalizing h with
  | ind i ih =>
  unfold PlainHeap.clearChain clearChain
  rw [chain_eq]
  by_cases hi : i < h.scopes.size
  · rw [if_pos hi, List.foldl_cons, ← plain_clear]
    cases h.plain.outer? i with
    | none => rfl
    | some p =>
        show ((h.chain p.1).foldl clear (h.clear i)).plain = _
        rw [← chain_clear h i]
        exact ih p.1 p.2 (h.clear i)
  · have hle := Nat.le_of_not_lt hi
    rw [if_neg hi, outer?_of_size_le hle, ← plain_clear,
      clear_of_size_le hle]
    rfl

end Heap

end Script
