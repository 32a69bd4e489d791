/-
Scopes against slots. At a site, the scopes of the evaluator from the
innermost one outward match the tables of the site one by one: a scope of
a block binds exactly the names of its table, and the slot of each name
holds the item for its value. The scope at the root only has to bind no
more than the names at the top of the program, because a function knows
names that are bound after it is called.

Slots are never shared, so binding a name to a value and storing the item
in its slot keep the match.
-/
import Script.Eval.Basic
import Script.Proofs.Heap
import Script.Proofs.Stack.Placed

namespace Script.Stack

open Code Eval

-- ============================================================== values

/-- The item that stands for a value: functions are those at the top of
the program, which captured the root scope. The main function comes
before them. -/
inductive Represents (fs : List FnDecl) : Value → Item → Prop
  | constant (k : Constant) : Represents fs k.value (.constant k)
  | function {closure : Closure} {index : Nat}
      (hdecl : fs[index]? = some closure.decl) (hscope : closure.scope = 0) :
      Represents fs (.function closure) (.function (index + 1))

section

variable {fs : List FnDecl}

@[simp] theorem value_keptIn (k : Constant) (i : ScopeId) :
    k.value.keptIn i = k.value := by
  cases k <;> rfl

@[simp] theorem value_handedOut (k : Constant) :
    k.value.handedOut = k.value := by
  cases k <;> rfl

/-- How a function holds its scope does not matter. -/
theorem Represents.keptIn {v : Value} {item : Item}
    (h : Represents fs v item) (i : ScopeId) :
    Represents fs (v.keptIn i) item := by
  cases h with
  | constant k =>
      rw [value_keptIn]
      exact .constant k
  | @function closure index hdecl hscope =>
      show Represents fs (if !closure.weak && closure.scope == i then _
        else _) _
      split
      · exact @Represents.function fs closure.downgrade index hdecl hscope
      · exact .function hdecl hscope

theorem Represents.handedOut {v : Value} {item : Item}
    (h : Represents fs v item) : Represents fs v.handedOut item := by
  cases h with
  | constant k =>
      rw [value_handedOut]
      exact .constant k
  | @function closure index hdecl hscope =>
      exact @Represents.function fs closure.upgrade index hdecl hscope

end

-- =========================================================== variables

/-- The variables of a machine that code can see, and what it printed. -/
structure World where
  slots : List (Option Item)
  globals : List (Option Item)
  printed : String

/-- The value of a variable. -/
def World.read (w : World) : Symbol → Option Item
  | .own slot => w.slots[slot]?.join
  | .global slot => w.globals[slot]?.join
  | .captured => none

/-- Gives a variable a value. -/
def World.write (w : World) (item : Item) : Symbol → World
  | .own slot => { w with slots := w.slots.set slot (some item) }
  | .global slot => { w with globals := w.globals.set slot (some item) }
  | .captured => w

/-- Whether there is a place for a variable. -/
def World.has (w : World) : Symbol → Prop
  | .own slot => slot < w.slots.length
  | .global slot => slot < w.globals.length
  | .captured => False

/-- The variables that the inner names of a site are about. -/
def Site.vars (site : Site) (w : World) : List (Option Item) :=
  if site.own then w.slots else w.globals

/-- No two names share a slot; in the main function the inner names share
none with those at the top. -/
structure Site.Sound (roots : Names) (site : Site) : Prop where
  nodup : site.slots.Nodup
  apart : site.own = false → ∀ slot ∈ site.slots,
    ∀ name, roots.lookup name ≠ some slot

theorem Site.Sound.top (roots : Names) (limit : Nat) :
    (⟨false, limit, []⟩ : Site).Sound roots :=
  ⟨List.nodup_nil, fun _ _ hslot => absurd hslot List.not_mem_nil⟩

section Agreement

variable (fs : List FnDecl)

/-- Whether a slot holds the item for a value. -/
def Holds (vars : List (Option Item)) (slot : Nat) (v : Value) : Prop :=
  ∃ item, vars[slot]? = some (some item) ∧ Represents fs v item

/-- Whether a scope binds exactly the names of a table. -/
def Exact (bs : Bindings) (vars : List (Option Item)) (t : Names) : Prop :=
  ∀ name, Option.Rel (Holds fs vars) (t.lookup name) (bs.lookup name)

/-- The scopes of the open blocks, from the inside out to the root; none
of them is older than `base`. -/
def Blocks (h : Heap) (vars : List (Option Item)) (base : ScopeId) :
    ScopeId → List Names → Prop
  | i, [] => i = 0
  | i, t :: ts => ∃ bs p, h.scopes[i]? = some ⟨bs, some p⟩ ∧ p < i
      ∧ base ≤ i ∧ Exact fs bs vars t ∧ Blocks h vars base p ts

/-- The root scope: what it binds is known, and is in its slot. -/
def RootHolds (roots : Names) (h : Heap) (globals : List (Option Item)) :
    Prop :=
  ∃ bs, h.scopes[0]? = some ⟨bs, none⟩ ∧ ∀ name v,
    bs.lookup name = some v →
      ∃ slot, roots.lookup name = some slot ∧ Holds fs globals slot v

variable (roots : Names) (total : Nat) (before : ByteArray)

/-- What all functions share. The text printed so far stands behind what
was written `before`. -/
structure Shares (m : Machine) (w : World) : Prop where
  root : RootHolds fs roots m.heap w.globals
  total : w.globals.length = total
  printed : m.sink.written = before ++ w.printed.toUTF8

/-- A machine against the evaluator, at a site. -/
structure Agrees (site : Site) (base : ScopeId) (m : Machine)
    (i : ScopeId) (w : World) : Prop
    extends Shares fs roots total before m w where
  blocks : Blocks fs m.heap (site.vars w) base i site.tables
  limit : (site.vars w).length = site.limit
  based : base ≤ m.heap.scopes.size

/-- What evaluation leaves alone: scopes stay where they are, those below
`base` but the root keep their variables, and a function changes no other
globals than those at the top of the program. -/
structure Moved (own : Bool) (base : ScopeId) (m m' : Machine)
    (w w' : World) : Prop where
  size : m.heap.scopes.size ≤ m'.heap.scopes.size
  parent : ∀ (j : ScopeId) (s : Scope), m.heap.scopes[j]? = some s →
    ∃ bs, m'.heap.scopes[j]? = some (Scope.mk bs s.parent)
  same : ∀ j : ScopeId, 0 < j → j < base →
    m'.heap.scopes[j]? = m.heap.scopes[j]?
  globals : own = true → ∀ slot, (∀ name, roots.lookup name ≠ some slot) →
    w'.globals[slot]? = w.globals[slot]?

end Agreement

-- ============================================================ movement

namespace Moved

variable {roots : Names} {own : Bool} {base : ScopeId}
  {m m' m'' : Machine} {w w' w'' : World}

theorem refl (roots : Names) (own : Bool) (base : ScopeId) (m : Machine)
    (w : World) : Moved roots own base m m w w :=
  ⟨Nat.le_refl _, fun _ s hs => ⟨s.bindings, hs⟩, fun _ _ _ => rfl,
    fun _ _ _ => rfl⟩

theorem trans (h : Moved roots own base m m' w w')
    (h' : Moved roots own base m' m'' w' w'') :
    Moved roots own base m m'' w w'' where
  size := Nat.le_trans h.size h'.size
  parent j s hs := by
    obtain ⟨bs, hs'⟩ := h.parent j s hs
    obtain ⟨bs', hs''⟩ := h'.parent j _ hs'
    exact ⟨bs', hs''⟩
  same j hj hlt := (h'.same j hj hlt).trans (h.same j hj hlt)
  globals hown slot hslot :=
    (h'.globals hown slot hslot).trans (h.globals hown slot hslot)

/-- Counting steps and printing move nothing. -/
theorem of_heap_eq (h : m'.heap = m.heap)
    (hglobals : w'.globals = w.globals) :
    Moved roots own base m m' w w' where
  size := Nat.le_of_eq (by rw [h])
  parent j s hs := ⟨s.bindings, by rw [h, hs]⟩
  same j _ _ := by rw [h]
  globals _ _ _ := by rw [hglobals]

end Moved

-- ============================================================= look-up

section

variable {fs : List FnDecl} {roots : Names} {total : Nat}
  {before : ByteArray} {site : Site} {base i : ScopeId} {m : Machine}
  {w : World} {h : Heap} {vars : List (Option Item)} {ts : List Names}
  {name : String}

theorem Exact.of_some {bs : Bindings} {t : Names} {slot : Nat}
    (hexact : Exact fs bs vars t) (ht : t.lookup name = some slot) :
    ∃ v, bs.lookup name = some v ∧ Holds fs vars slot v := by
  have hname := hexact name
  rw [ht] at hname
  generalize bs.lookup name = found at hname ⊢
  cases hname with
  | some hholds => exact ⟨_, rfl, hholds⟩

theorem Exact.of_none {bs : Bindings} {t : Names}
    (hexact : Exact fs bs vars t) (ht : t.lookup name = none) :
    bs.lookup name = none := by
  have hname := hexact name
  rw [ht] at hname
  generalize bs.lookup name = found at hname ⊢
  cases hname
  rfl

/-- A name of the inner tables is owned by the scope of its table. -/
theorem Blocks.owner_of_slot {slot : Nat} (hb : Blocks fs h vars base i ts)
    (hslot : ts.findSome? (·.lookup name) = some slot) :
    ∃ j s v, h.owner? i name = some j ∧ h.scopes[j]? = some s
      ∧ s.bindings.lookup name = some v ∧ Holds fs vars slot v := by
  induction ts generalizing i with
  | nil => cases hslot
  | cons t ts ih =>
      obtain ⟨bs, p, hs, hp, -, hexact, hb⟩ := hb
      rw [Heap.owner?_eq hs hp]
      rw [List.findSome?_cons] at hslot
      cases ht : t.lookup name with
      | some slot' =>
          rw [ht] at hslot
          cases hslot
          obtain ⟨v, hv, hholds⟩ := hexact.of_some ht
          exact ⟨i, _, v, by rw [hv]; rfl, hs, hv, hholds⟩
      | none =>
          rw [ht] at hslot
          rw [hexact.of_none ht]
          exact ih hb hslot

/-- Any other name is owned by the root, if at all. -/
theorem Blocks.owner_of_none (hb : Blocks fs h vars base i ts)
    (hslot : ts.findSome? (·.lookup name) = none) :
    h.owner? i name = h.owner? 0 name := by
  induction ts generalizing i with
  | nil =>
      obtain rfl : i = 0 := hb
      rfl
  | cons t ts ih =>
      obtain ⟨bs, p, hs, hp, -, hexact, hb⟩ := hb
      rw [Heap.owner?_eq hs hp]
      rw [List.findSome?_cons] at hslot
      cases ht : t.lookup name with
      | some slot =>
          rw [ht] at hslot
          cases hslot
      | none =>
          rw [ht] at hslot
          rw [hexact.of_none ht]
          exact ih hb hslot

theorem RootHolds.owner {j : ScopeId} {globals : List (Option Item)}
    (hroot : RootHolds fs roots h globals)
    (hj : h.owner? 0 name = some j) :
    j = 0 ∧ ∃ s v slot, h.scopes[0]? = some s
      ∧ s.bindings.lookup name = some v ∧ roots.lookup name = some slot
      ∧ Holds fs globals slot v := by
  obtain ⟨bs, hs, hbinds⟩ := hroot
  rw [Heap.owner?_root hs] at hj
  cases hv : bs.lookup name with
  | none =>
      rw [hv] at hj
      cases hj
  | some v =>
      rw [hv] at hj
      cases hj
      obtain ⟨slot, hslot, hholds⟩ := hbinds name v hv
      exact ⟨rfl, _, v, slot, hs, hv, hslot, hholds⟩

/-- A slot that holds a value can be read and written. -/
theorem Holds.read {slot : Nat} {v : Value} (hholds : Holds fs vars slot v) :
    ∃ item, vars[slot]?.join = some item ∧ Represents fs v item := by
  obtain ⟨item, hitem, hrep⟩ := hholds
  exact ⟨item, by rw [hitem]; rfl, hrep⟩

theorem Holds.lt {slot : Nat} {v : Value} (hholds : Holds fs vars slot v) :
    slot < vars.length := by
  obtain ⟨item, hitem, -⟩ := hholds
  exact (List.getElem?_eq_some_iff.1 hitem).1

theorem Site.read_inner (site : Site) (w : World) (slot : Nat) :
    w.read (site.inner slot) = (site.vars w)[slot]?.join := by
  unfold Site.inner Site.vars
  split <;> rfl

theorem Site.has_inner (site : Site) (w : World) (slot : Nat) :
    w.has (site.inner slot) ↔ slot < (site.vars w).length := by
  unfold Site.inner Site.vars
  split <;> exact .rfl

/-- The owner of a name against the variable that the name means. -/
theorem Agrees.owner
    (hagree : Agrees fs roots total before site base m i w) {j : ScopeId}
    {x : Symbol} (hj : m.heap.owner? i name = some j)
    (hx : site.symbol? roots name = some x) :
    ∃ s v item, m.heap.scopes[j]? = some s
      ∧ s.bindings.lookup name = some v ∧ Represents fs v item
      ∧ w.read x = some item ∧ w.has x := by
  unfold Site.symbol? Site.slot? at hx
  split at hx
  case h_1 slot hslot =>
      cases hx
      obtain ⟨j', s, v, hj', hs, hv, hholds⟩ :=
        hagree.blocks.owner_of_slot hslot
      cases hj.symm.trans hj'
      obtain ⟨item, hitem, hrep⟩ := hholds.read
      exact ⟨s, v, item, hs, hv, hrep, (site.read_inner w slot).trans hitem,
        (site.has_inner w slot).2 hholds.lt⟩
  case h_2 hslot =>
      rw [hagree.blocks.owner_of_none hslot] at hj
      obtain ⟨rfl, s, v, slot, hs, hv, hroot, hholds⟩ :=
        hagree.root.owner hj
      rw [hroot] at hx
      cases hx
      obtain ⟨item, hitem, hrep⟩ := hholds.read
      exact ⟨s, v, item, hs, hv, hrep, hitem, hholds.lt⟩

/-- What the evaluator finds under a name is what code finds in the
variable that the name means. -/
theorem Agrees.read (hagree : Agrees fs roots total before site base m i w)
    {v : Value} {x : Symbol} (hv : m.heap.get? i name = some v)
    (hx : site.symbol? roots name = some x) :
    ∃ item, w.read x = some item ∧ Represents fs v item := by
  unfold Heap.get? at hv
  obtain ⟨j, hj, hv⟩ := Option.bind_eq_some_iff.1 hv
  obtain ⟨v', hv', rfl⟩ := Option.map_eq_some_iff.1 hv
  obtain ⟨s, v, item, hs, hlookup, hrep, hitem, -⟩ := hagree.owner hj hx
  rw [Heap.bindings_eq hs] at hv'
  cases hv'.symm.trans hlookup
  exact ⟨item, hitem, hrep.handedOut⟩

end

end Script.Stack
