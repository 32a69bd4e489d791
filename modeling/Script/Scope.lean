/-
Scopes: nested tables of variables. All scopes of a run live in one
heap, which only grows; each scope but the root names the scope around
it, which is older. A name means the nearest scope that binds it, on the
way from a scope outward.
-/
import Script.Value

namespace Script

/-- The variables of one scope, each name once. -/
abbrev Bindings := List (String × Value)

/-- Binds a name, in place of what it was bound to before. -/
def Bindings.insert (name : String) (v : Value) : Bindings → Bindings
  | [] => [(name, v)]
  | (k, w) :: bs =>
      if k = name then (name, v) :: bs else (k, w) :: insert name v bs

/-- A scope, with the one around it. -/
structure Scope where
  bindings : Bindings
  parent : Option ScopeId

/-- All scopes of a run in the order of their creation. -/
structure Heap where
  scopes : Array Scope

namespace Heap

/-- A heap with a root scope only. -/
def root : Heap := ⟨#[⟨[], none⟩]⟩

/-- Creates a scope inside of another one. -/
def child (h : Heap) (parent : ScopeId) : ScopeId × Heap :=
  (h.scopes.size, ⟨h.scopes.push ⟨[], some parent⟩⟩)

/-- The variables that a scope binds itself. -/
def bindings (h : Heap) (i : ScopeId) : Bindings :=
  ((h.scopes[i]?).map (·.bindings)).getD []

/-- Whether a scope binds a name itself. -/
def binds (h : Heap) (name : String) (i : ScopeId) : Bool :=
  ((h.bindings i).lookup name).isSome

/-- The scopes from one outward. -/
def chain (h : Heap) (i : ScopeId) : List ScopeId :=
  match h.scopes[i]? with
  | none => []
  | some s =>
      match s.parent with
      | none => [i]
      | some p => if p < i then i :: h.chain p else [i]
termination_by i

/-- Changes the variables of one scope. -/
def update (h : Heap) (i : ScopeId) (f : Bindings → Bindings) : Heap :=
  ⟨h.scopes.modify i fun s => { s with bindings := f s.bindings }⟩

/-- Binds a name in a scope itself. -/
def define (h : Heap) (i : ScopeId) (name : String) (v : Value) : Heap :=
  h.update i (.insert name (v.keptIn i))

/-- The nearest scope outward that binds a name. -/
def owner? (h : Heap) (i : ScopeId) (name : String) : Option ScopeId :=
  (h.chain i).find? (h.binds name)

/-- What a name means in a scope. -/
def get? (h : Heap) (i : ScopeId) (name : String) : Option Value :=
  (h.owner? i name).bind fun j =>
    ((h.bindings j).lookup name).map Value.handedOut

/-- Gives a new value to the variable that a name means in a scope;
`none` if there is no such variable. -/
def assign? (h : Heap) (i : ScopeId) (name : String) (v : Value) :
    Option Heap :=
  (h.owner? i name).map fun j => h.define j name v

/-- Puts back the variables of a scope as they were. -/
def restore (h : Heap) (i : ScopeId) (saved : Bindings) : Heap :=
  h.update i fun _ => saved

/-- Removes the variables of a scope. -/
def clear (h : Heap) (i : ScopeId) : Heap := h.restore i []

/-- Removes the variables of a scope and of all scopes around it. -/
def clearChain (h : Heap) (i : ScopeId) : Heap :=
  (h.chain i).foldl clear h

/-- Looking up what was just bound. -/
theorem lookup_insert (name other : String) (v : Value) (bs : Bindings) :
    (Bindings.insert name v bs).lookup other =
      if other = name then some v else bs.lookup other := by
  induction bs with
  | nil =>
    by_cases h : other = name <;>
      simp [Bindings.insert, List.lookup_cons, h]
    split <;> simp_all
  | cons b bs ih =>
    obtain ⟨k, w⟩ := b
    by_cases hk : k = name
    · subst hk
      by_cases h : other = k
      · simp [Bindings.insert, h]
      · have : (other == k) = false := by simpa using h
        simp [Bindings.insert, List.lookup_cons, h, this]
    · simp only [Bindings.insert, hk, if_false, List.lookup_cons]
      cases hb : other == k with
      | true =>
        have : other = k := by simpa using hb
        simp [this, hk]
      | false => simpa using ih

/-- Changing variables neither creates nor removes scopes. -/
@[simp] theorem size_update (h : Heap) (i : ScopeId)
    (f : Bindings → Bindings) :
    (h.update i f).scopes.size = h.scopes.size := by
  simp [update]

end Heap

end Script
