/-
Whether a function holds its scope weakly cannot be found out. Somebody
who uses scopes creates them, binds, looks up and changes variables, saves
the variables of a scope and puts them back, and compares values; the
values are new ones, or they were looked up before, in any scope. Such a
use is a list of requests, and it can be carried out on scopes with
handles as well as on plain ones. The answers are the same.

Behind this stands what holds of every function that is kept: it holds its
scope weakly just where it is kept in that scope itself. All functions
that are handed out hold theirs strongly. What is saved of a scope keeps
the handles as they are there, and so it may only be put back into the
scope that it is from.
-/
import Script.Proofs.Scopes.Plain

namespace Script

/-- The value that programs see so, with its scope held strongly. -/
def PlainValue.strong : PlainValue → Value
  | .number x => .number x
  | .string s => .string s
  | .bool b => .bool b
  | .nil => .nil
  | .function d i => .function ⟨d, i, false⟩

theorem PlainValue.plain_strong (v : PlainValue) : v.strong.plain = v := by
  cases v <;> rfl

theorem PlainValue.isWeak_strong (v : PlainValue) :
    v.strong.isWeak = false := by
  cases v <;> rfl

namespace Handles

-- ============================================================== requests

/-- A value for a request: a new one, or one that was looked up. -/
inductive Operand where
  | made (v : PlainValue)
  | found (k : Nat)

/-- What can be done with scopes. -/
inductive Request where
  | child (parent : ScopeId)
  | define (i : ScopeId) (name : String) (v : Operand)
  | assign (i : ScopeId) (name : String) (v : Operand)
  | get (i : ScopeId) (name : String)
  | compare (v w : Operand)
  | snapshot (i : ScopeId)
  /-- Puts what was saved into the scope that it is from. -/
  | restore (k : Nat)
  | clear (i : ScopeId)
  | clearChain (i : ScopeId)

/-- What comes back from a request. -/
inductive Answer (V : Type) where
  | done
  | scope (i : ScopeId)
  | truth (b : Bool)
  | value (v : Option V)

/-- A way to keep scopes in heaps, with values and saved variables. -/
structure Store (H V S : Type) where
  start : H
  make : PlainValue → V
  same : V → V → Bool
  child : H → ScopeId → ScopeId × H
  define : H → ScopeId → String → V → H
  assign? : H → ScopeId → String → V → Option H
  get? : H → ScopeId → String → Option V
  snapshot : H → ScopeId → S
  restore : H → ScopeId → S → H
  clear : H → ScopeId → H
  clearChain : H → ScopeId → H

/-- Scopes in which functions hold their scopes weakly or strongly. -/
def handled : Store Heap Value Bindings where
  start := .root
  make := PlainValue.strong
  same := Value.same
  child := Heap.child
  define := Heap.define
  assign? := Heap.assign?
  get? := Heap.get?
  snapshot := Heap.bindings
  restore := Heap.restore
  clear := Heap.clear
  clearChain := Heap.clearChain

/-- Plain scopes. -/
def plain : Store PlainHeap PlainValue PlainBindings where
  start := .root
  make := id
  same := PlainValue.same
  child := PlainHeap.child
  define := PlainHeap.define
  assign? := PlainHeap.assign?
  get? := PlainHeap.get?
  snapshot := PlainHeap.bindings
  restore := PlainHeap.restore
  clear := PlainHeap.clear
  clearChain := PlainHeap.clearChain

/-- The state of somebody who uses scopes: the scopes, the values that
were looked up and the variables that were saved, in order. -/
structure User (H V S : Type) where
  heap : H
  found : List V
  saved : List (ScopeId × S)

namespace Store

variable {H V S : Type} (st : Store H V S)

/-- The value of an operand. What was not looked up yet is nil. -/
def operand (u : User H V S) : Operand → V
  | .made v => st.make v
  | .found k => u.found[k]?.getD (st.make .nil)

/-- Carries out a request. -/
def step (u : User H V S) : Request → User H V S × Answer V
  | .child parent =>
      let (i, heap) := st.child u.heap parent
      ({ u with heap }, .scope i)
  | .define i name v =>
      ({ u with heap := st.define u.heap i name (st.operand u v) }, .done)
  | .assign i name v =>
      match st.assign? u.heap i name (st.operand u v) with
      | some heap => ({ u with heap }, .truth true)
      | none => (u, .truth false)
  | .get i name =>
      let v := st.get? u.heap i name
      ({ u with found := u.found ++ v.toList }, .value v)
  | .compare v w => (u, .truth (st.same (st.operand u v) (st.operand u w)))
  | .snapshot i =>
      ({ u with saved := u.saved ++ [(i, st.snapshot u.heap i)] }, .done)
  | .restore k =>
      match u.saved[k]? with
      | some (i, bs) => ({ u with heap := st.restore u.heap i bs }, .done)
      | none => (u, .done)
  | .clear i => ({ u with heap := st.clear u.heap i }, .done)
  | .clearChain i => ({ u with heap := st.clearChain u.heap i }, .done)

/-- Carries out requests in order. -/
def run (u : User H V S) : List Request → User H V S × List (Answer V)
  | [] => (u, [])
  | r :: rs =>
      let (u, a) := st.step u r
      let (u, as) := run u rs
      (u, a :: as)

/-- What comes of requests, from the beginning. -/
def outcome (rs : List Request) : User H V S × List (Answer V) :=
  st.run ⟨st.start, [], []⟩ rs

end Store

-- ============================================================= agreement

/-- A way from one store to another one that every operation follows. -/
structure Store.Hom {H V S H' V' S' : Type} (st : Store H V S)
    (st' : Store H' V' S') where
  heap : H → H'
  value : V → V'
  saved : S → S'
  start : st'.start = heap st.start
  make : ∀ v, st'.make v = value (st.make v)
  same : ∀ v w, st'.same (value v) (value w) = st.same v w
  child : ∀ h i,
    st'.child (heap h) i = ((st.child h i).1, heap (st.child h i).2)
  define : ∀ h i name v, st'.define (heap h) i name (value v)
    = heap (st.define h i name v)
  assign? : ∀ h i name v, st'.assign? (heap h) i name (value v)
    = (st.assign? h i name v).map heap
  get? : ∀ h i name, st'.get? (heap h) i name = (st.get? h i name).map value
  snapshot : ∀ h i, st'.snapshot (heap h) i = saved (st.snapshot h i)
  restore : ∀ h i bs, st'.restore (heap h) i (saved bs)
    = heap (st.restore h i bs)
  clear : ∀ h i, st'.clear (heap h) i = heap (st.clear h i)
  clearChain : ∀ h i, st'.clearChain (heap h) i = heap (st.clearChain h i)

/-- An answer with another value in it. -/
def Answer.map {V W : Type} (f : V → W) : Answer V → Answer W
  | .done => .done
  | .scope i => .scope i
  | .truth b => .truth b
  | .value v => .value (v.map f)

namespace Store.Hom

variable {H V S H' V' S' : Type} {st : Store H V S} {st' : Store H' V' S'}
  (φ : Hom st st')

/-- The state of a user of the other store. -/
def user (u : User H V S) : User H' V' S' where
  heap := φ.heap u.heap
  found := u.found.map φ.value
  saved := u.saved.map fun p => (p.1, φ.saved p.2)

theorem operand (u : User H V S) (v : Operand) :
    st'.operand (φ.user u) v = φ.value (st.operand u v) := by
  cases v with
  | made v => exact φ.make v
  | found k =>
      simp only [Store.operand, user, List.getElem?_map, φ.make]
      cases u.found[k]? <;> rfl

/-- A request is followed. -/
theorem step (u : User H V S) (r : Request) :
    st'.step (φ.user u) r =
      (φ.user (st.step u r).1, (st.step u r).2.map φ.value) := by
  cases r with
  | child i => simp [Store.step, user, φ.child, Answer.map]
  | define i name v =>
      simp only [Store.step, φ.operand]
      simp [user, φ.define, Answer.map]
  | assign i name v =>
      simp only [Store.step, φ.operand]
      simp only [user, φ.assign?]
      cases st.assign? u.heap i name (st.operand u v) <;> rfl
  | get i name =>
      simp only [Store.step, user, φ.get?, Answer.map]
      cases st.get? u.heap i name <;> simp
  | compare v w => simp [Store.step, φ.operand, φ.same, Answer.map]
  | snapshot i => simp [Store.step, user, φ.snapshot, Answer.map]
  | restore k =>
      simp only [Store.step, user, List.getElem?_map]
      cases u.saved[k]? with
      | none => rfl
      | some p => simp [φ.restore, Answer.map]
  | clear i => simp [Store.step, user, φ.clear, Answer.map]
  | clearChain i => simp [Store.step, user, φ.clearChain, Answer.map]

/-- Requests in order are followed, and so the answers are the same. -/
theorem run (u : User H V S) (rs : List Request) :
    st'.run (φ.user u) rs =
      (φ.user (st.run u rs).1, (st.run u rs).2.map (Answer.map φ.value)) := by
  induction rs generalizing u with
  | nil => rfl
  | cons r rs ih =>
      unfold Store.run
      rw [φ.step u r]
      simp only [ih, List.map_cons]

theorem outcome (rs : List Request) :
    (st'.outcome rs).2 = (st.outcome rs).2.map (Answer.map φ.value) := by
  unfold Store.outcome
  rw [φ.start]
  exact congrArg Prod.snd (φ.run ⟨st.start, [], []⟩ rs)

end Store.Hom

/-- Forgetting how functions hold their scopes. -/
def forget : Store.Hom handled plain where
  heap := Heap.plain
  value := Value.plain
  saved := Bindings.plain
  start := Heap.plain_root.symm
  make v := v.plain_strong.symm
  same := Value.same_plain
  child h i := h.plain_child i
  define h i name v := (h.plain_define i name v).symm
  assign? h i name v := h.plain_assign? i name v
  get? h i name := h.plain_get? i name
  snapshot h i := h.plain_bindings i
  restore h i bs := (h.plain_restore i bs).symm
  clear h i := (h.plain_clear i).symm
  clearChain h i := (h.plain_clearChain i).symm

-- =============================================================== handles

/-- Functions that are kept in a scope hold it weakly if it is the one
they captured, and hold theirs strongly otherwise. -/
def Detached (i : ScopeId) (bs : Bindings) : Prop :=
  ∀ name c, (name, .function c) ∈ bs → (c.weak = true ↔ c.scope = i)

theorem Detached.nil (i : ScopeId) : Detached i [] :=
  fun _ _ h => absurd h List.not_mem_nil

/-- A value whose functions hold their scope strongly is kept as it
should be. -/
theorem weak_of_keptIn {v : Value} (hv : v.isWeak = false) {i : ScopeId}
    {c : Closure} (hc : v.keptIn i = .function c) :
    c.weak = true ↔ c.scope = i := by
  cases v with
  | function d =>
      have hweak : d.weak = false := hv
      simp only [Value.keptIn, hweak, Bool.not_false, Bool.true_and] at hc
      by_cases hd : d.scope = i
      · rw [if_pos (beq_iff_eq.2 hd)] at hc
        cases hc
        exact ⟨fun _ => hd, fun _ => rfl⟩
      · rw [if_neg (mt beq_iff_eq.1 hd)] at hc
        cases hc
        exact ⟨fun h => absurd (hweak.symm.trans h) Bool.false_ne_true,
          (absurd · hd)⟩
  | _ => cases hc

theorem Detached.insert {i : ScopeId} {bs : Bindings} (h : Detached i bs)
    (name : String) {v : Value} (hv : v.isWeak = false) :
    Detached i (bs.insert name (v.keptIn i)) := by
  intro other c hc
  rcases Heap.mem_insert hc with heq | hc
  · exact weak_of_keptIn hv (Prod.mk.inj heq).2.symm
  · exact h other c hc

/-- All that is kept in a heap is as it should be. -/
def Kept (h : Heap) : Prop := ∀ i, Detached i (h.bindings i)

namespace Kept

variable {h : Heap}

theorem root : Kept .root := by
  intro i
  match i with
  | 0 => exact .nil 0
  | i + 1 => exact .nil (i + 1)

theorem child (hh : Kept h) (parent : ScopeId) : Kept (h.child parent).2 := by
  intro i
  rw [Heap.bindings_child]
  exact hh i

theorem update (hh : Kept h) {i : ScopeId} {f : Bindings → Bindings}
    (hf : Detached i (f (h.bindings i))) : Kept (h.update i f) := by
  intro j
  unfold Heap.bindings
  rw [Heap.getElem?_update]
  by_cases hj : j = i
  · subst hj
    rw [if_pos rfl]
    cases hs : h.scopes[j]? with
    | none => exact .nil j
    | some s =>
        rw [Heap.bindings_eq hs] at hf
        exact hf
  · rw [if_neg hj]
    exact hh j

theorem define (hh : Kept h) (i : ScopeId) (name : String) {v : Value}
    (hv : v.isWeak = false) : Kept (h.define i name v) :=
  hh.update ((hh i).insert name hv)

theorem restore (hh : Kept h) {i : ScopeId} {saved : Bindings}
    (hsaved : Detached i saved) : Kept (h.restore i saved) :=
  hh.update hsaved

theorem clear (hh : Kept h) (i : ScopeId) : Kept (h.clear i) :=
  hh.restore (.nil i)

theorem clearChain (hh : Kept h) (i : ScopeId) : Kept (h.clearChain i) := by
  unfold Heap.clearChain
  generalize h.chain i = is
  induction is generalizing h with
  | nil => exact hh
  | cons j is ih => exact ih (hh.clear j)

end Kept

/-- What is handed out holds its scope strongly. -/
theorem isWeak_of_get? {h : Heap} {i : ScopeId} {name : String} {v : Value}
    (hv : h.get? i name = some v) : v.isWeak = false := by
  obtain ⟨j, -, hj⟩ := Option.bind_eq_some_iff.1 hv
  obtain ⟨w, -, rfl⟩ := Option.map_eq_some_iff.1 hj
  cases w <;> rfl

/-- How a user of scopes stands: what is kept and what is saved is as it
should be in its scope, and what was looked up is strong. -/
structure Sound (u : User Heap Value Bindings) : Prop where
  kept : Kept u.heap
  found : ∀ v ∈ u.found, v.isWeak = false
  saved : ∀ p ∈ u.saved, Detached p.1 p.2

namespace Sound

variable {u : User Heap Value Bindings}

theorem operand (hu : Sound u) (v : Operand) :
    (handled.operand u v).isWeak = false := by
  cases v with
  | made v => exact v.isWeak_strong
  | found k =>
      show (u.found[k]?.getD .nil).isWeak = false
      cases hk : u.found[k]? with
      | none => rfl
      | some v => exact hu.found v (List.mem_of_getElem? hk)

theorem step (hu : Sound u) (r : Request) : Sound (handled.step u r).1 := by
  cases r with
  | child parent => exact { hu with kept := hu.kept.child parent }
  | define i name v =>
      exact { hu with kept := hu.kept.define i name (hu.operand v) }
  | assign i name v =>
      unfold Store.step
      dsimp only
      cases hassign : handled.assign? u.heap i name (handled.operand u v) with
      | none => exact hu
      | some heap =>
          obtain ⟨j, -, rfl⟩ := Option.map_eq_some_iff.1 hassign
          exact { hu with kept := hu.kept.define j name (hu.operand v) }
  | get i name =>
      refine { hu with found := fun v hv => ?_ }
      rcases List.mem_append.1 hv with hv | hv
      · exact hu.found v hv
      · exact isWeak_of_get? (Option.mem_toList.1 hv)
  | compare v w => exact hu
  | snapshot i =>
      refine { hu with saved := fun p hp => ?_ }
      rcases List.mem_append.1 hp with hp | hp
      · exact hu.saved p hp
      · rw [List.mem_singleton.1 hp]
        exact hu.kept i
  | restore k =>
      unfold Store.step
      dsimp only
      cases hk : u.saved[k]? with
      | none => exact hu
      | some p =>
          have hp := hu.saved p (List.mem_of_getElem? hk)
          exact { hu with kept := hu.kept.restore hp }
  | clear i => exact { hu with kept := hu.kept.clear i }
  | clearChain i => exact { hu with kept := hu.kept.clearChain i }

theorem run (hu : Sound u) (rs : List Request) :
    Sound (handled.run u rs).1 := by
  induction rs generalizing u with
  | nil => exact hu
  | cons r rs ih => exact ih (hu.step r)

theorem start : Sound ⟨.root, [], []⟩ where
  kept := .root
  found := List.forall_mem_nil _
  saved := List.forall_mem_nil _

end Sound

/-- Every function that a request hands out holds its scope strongly. -/
theorem strong_of_step {u : User Heap Value Bindings} {r : Request}
    {v : Value} (hv : (handled.step u r).2 = .value (some v)) :
    v.isWeak = false := by
  cases r with
  | get i name => exact isWeak_of_get? (Answer.value.inj hv)
  | assign i name w =>
      unfold Store.step at hv
      dsimp only at hv
      split at hv <;> cases hv
  | restore k =>
      unfold Store.step at hv
      dsimp only at hv
      split at hv <;> cases hv
  | _ => cases hv

theorem strong_of_run {u : User Heap Value Bindings} {rs : List Request}
    {v : Value} (hv : .value (some v) ∈ (handled.run u rs).2) :
    v.isWeak = false := by
  induction rs generalizing u with
  | nil => cases hv
  | cons r rs ih =>
      rcases List.mem_cons.1 hv with hv | hv
      · exact strong_of_step hv.symm
      · exact ih hv

/-- Whatever is done with scopes: a function is held weakly just where it
is kept in the scope it captured, what is handed out is strong, and every
answer is that of plain scopes, in which there are no handles. -/
theorem weak_handles_unobservable (rs : List Request) :
    (∀ i name c, (name, .function c) ∈ (handled.outcome rs).1.heap.bindings i
        → (c.weak = true ↔ c.scope = i))
      ∧ (∀ v, .value (some v) ∈ (handled.outcome rs).2 → v.isWeak = false)
      ∧ (handled.outcome rs).2.map (Answer.map Value.plain)
        = (plain.outcome rs).2 :=
  ⟨(Sound.start.run rs).kept, fun _ => strong_of_run,
    (forget.outcome rs).symm⟩

-- Functions from one place are two of them if the text was read twice.
example :
    let decl (reading : Nat) : FnDecl :=
      ⟨⟨"f", ⟨0, 3, 1⟩⟩, [], ⟨[], ⟨0, 7, 2⟩⟩, ⟨⟨0, 0, 9⟩, reading⟩⟩
    let (_, answers) := handled.outcome [
      .define 0 "f" (.made (.function (decl 0) 0)),
      .define 0 "g" (.made (.function (decl 1) 0)),
      .get 0 "f", .get 0 "g",
      .compare (.found 0) (.found 0), .compare (.found 0) (.found 1)]
    answers.filterMap (fun | .truth b => some b | _ => none)
      = [true, false] := by
  decide +kernel

end Handles

end Script
