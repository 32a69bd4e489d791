/-
Scopes inside of scopes: blocks and calls. A block gets a scope without
names and a table without names, and both are dropped at its end. A call
gets a scope inside of the root with the arguments in it, and slots that
start with them.

The scopes and slots of a caller do not take part in a call. What it may
change of them is the root scope, and of the globals those that the names
at the top of the program have; so the caller, the main function
included, finds its own names as it left them.
-/
import Script.Proofs.Stack.Changes

namespace Script.Stack

open Code Eval Script.Action

variable {fs : List FnDecl} {roots : Names} {total : Nat}
  {before : ByteArray} {site : Site} {base i : ScopeId} {m m' : Machine}
  {w w' : World} {t : Names}

-- =============================================================== blocks

/-- The evaluator with one more scope, inside of another one. -/
def inside (m : Machine) (i : ScopeId) : Machine :=
  { m with heap := (m.heap.child i).2 }

theorem Moved.nest {own : Bool} (hglobals : own = true → ∀ slot,
      (∀ name, roots.lookup name ≠ some slot) →
        w'.globals[slot]? = w.globals[slot]?)
    (hbase : base ≤ m.heap.scopes.size) :
    Moved roots own base m (inside m i) w w' where
  size := by
    show _ ≤ (m.heap.child i).2.scopes.size
    rw [Heap.size_child]
    exact Nat.le_succ _
  parent j s hs := ⟨s.bindings,
    (Heap.getElem?_child_of_lt m.heap i (Heap.lt_size_of_getElem? hs)).trans
      hs⟩
  same j _ hlt :=
    Heap.getElem?_child_of_lt m.heap i (Nat.lt_of_lt_of_le hlt hbase)
  globals := hglobals

theorem Shares.lt_size (hshares : Shares fs roots total before m w) :
    0 < m.heap.scopes.size := by
  obtain ⟨bs, hs, -⟩ := hshares.root
  exact Heap.lt_size_of_getElem? hs

theorem Agrees.lt_size
    (hagree : Agrees fs roots total before site base m i w) :
    i < m.heap.scopes.size :=
  hagree.blocks.lt_size hagree.root

/-- A new scope leaves alone what functions share. -/
theorem Shares.nest (hshares : Shares fs roots total before m w) :
    Shares fs roots total before (inside m i) w where
  root := hshares.root.congr
    (Heap.getElem?_child_of_lt m.heap i hshares.lt_size) fun _ _ _ => rfl
  total := hshares.total
  printed := hshares.printed

/-- At the beginning of a block. -/
theorem Agrees.openBlock
    (hagree : Agrees fs roots total before site base m i w) :
    Agrees fs roots total before site.openBlock base (inside m i)
      m.heap.scopes.size w where
  toShares := hagree.toShares.nest
  blocks := by
    refine ⟨[], i, Heap.getElem?_child_self m.heap i, hagree.lt_size,
      hagree.based, fun _ => .none, hagree.blocks.congr ?_ fun _ _ => rfl⟩
    exact fun j _ hj => Heap.getElem?_child_of_lt m.heap i
      (Nat.lt_of_le_of_lt hj hagree.lt_size)
  limit := hagree.limit
  based := Nat.le_trans hagree.based
    (Nat.le_trans (Nat.le_succ _) (Nat.le_of_eq (Heap.size_child ..).symm))

/-- At the end of a block, outside of it. -/
theorem Agrees.closeBlock
    (hagree : Agrees fs roots total before
      ⟨site.own, site.limit, t :: site.tables⟩ base m' m.heap.scopes.size w')
    (hmoved : Moved roots site.own base (inside m i) m' w w') :
    Agrees fs roots total before site base m' i w' where
  toShares := hagree.toShares
  blocks := by
    obtain ⟨bs, p, hs, -, -, -, hb⟩ := hagree.blocks
    obtain ⟨bs', hs'⟩ := hmoved.parent _ _ (Heap.getElem?_child_self m.heap i)
    obtain ⟨rfl, rfl⟩ : bs = bs' ∧ p = i := by
      simpa using hs.symm.trans hs'
    exact hb
  limit := hagree.limit
  based := hagree.based

theorem Site.Sound.openBlock (hsound : site.Sound roots) :
    site.openBlock.Sound roots :=
  ⟨hsound.nodup, hsound.apart⟩

-- ================================================================ calls

/-- The names of parameters from a slot on. -/
def paramsFrom (k : Nat) (params : List Ident) : Names :=
  (params.mapIdx fun n p => (p.name, k + n)).reverse

theorem paramsFrom_cons (k : Nat) (p : Ident) (params : List Ident) :
    paramsFrom k (p :: params) =
      paramsFrom (k + 1) params ++ [(p.name, k)] := by
  unfold paramsFrom
  rw [List.mapIdx_cons, List.reverse_cons]
  simp [Nat.add_assoc, Nat.add_comm 1]

theorem paramTable_eq (params : List Ident) :
    paramTable params = paramsFrom 0 params := by
  unfold paramTable paramsFrom
  simp

/-- What binding arguments changes: the variables of one scope. -/
structure Binds (i : ScopeId) (m m' : Machine) : Prop where
  size : m'.heap.scopes.size = m.heap.scopes.size
  other : ∀ j : ScopeId, j ≠ i → m'.heap.scopes[j]? = m.heap.scopes[j]?
  sink : m'.sink = m.sink

/-- Binding arguments, from a slot on. -/
theorem bind_arguments {params : List Ident} {vs : List Value}
    {items : List Item} {k depth : Nat} {slots : List (Option Item)}
    {u : Unit} (hreps : List.Forall₂ (Represents fs) vs items)
    (hb : Blocks fs m.heap slots base i [t])
    (hnodup : (t.map (·.2)).Nodup) (hlt : ∀ slot ∈ t.map (·.2), slot < k)
    (hlength : vs.length = params.length)
    (hslots : ∀ n item, items[n]? = some item →
      slots[k + n]? = some (some item))
    (hrun : ((params.zip vs).forM fun (p, v) =>
      Run.define ⟨i, depth⟩ p.name v : Run Unit) m = .ok u m') :
    Blocks fs m'.heap slots base i [paramsFrom k params ++ t]
      ∧ ((paramsFrom k params ++ t).map (·.2)).Nodup ∧ Binds i m m' := by
  induction params generalizing vs items k t m with
  | nil =>
      obtain rfl : vs = [] := List.eq_nil_of_length_eq_zero hlength
      obtain ⟨-, rfl⟩ := pure_ok.1 hrun
      exact ⟨hb, hnodup, rfl, fun _ _ => rfl, rfl⟩
  | cons p params ih =>
      cases hreps with
      | nil => cases hlength
      | @cons v item vs items hrep hreps =>
          obtain ⟨u', m₁, hdefine, hrun⟩ := bind_ok.1 hrun
          obtain rfl : bound m i p.name v = m₁ := modify_ok.1 hdefine
          have hfresh : k ∉ t.map (·.2) :=
            fun hk => Nat.lt_irrefl _ (hlt k hk)
          have hnodup' : (((p.name, k) :: t).map (·.2)).Nodup :=
            List.nodup_cons.2 ⟨hfresh, hnodup⟩
          have hb' : Blocks fs (bound m i p.name v).heap slots base i
              [(p.name, k) :: t] := by
            refine hb.bind (List.lookup_cons_self ..) ?_ ?_
              (hslots 0 item rfl) (fun _ _ => rfl) hrep
            · intro other hne
              rw [List.lookup_cons, beq_eq_false_iff_ne.2 hne]
            · simpa using hnodup'
          have hlt' : ∀ slot ∈ ((p.name, k) :: t).map (·.2),
              slot < k + 1 := by
            intro slot hslot
            rcases List.mem_cons.1 hslot with rfl | hslot
            · exact Nat.lt_succ_self _
            · exact Nat.lt_succ_of_lt (hlt slot hslot)
          have hslots' : ∀ n item, items[n]? = some item →
              slots[k + 1 + n]? = some (some item) := by
            intro n item' hitem
            rw [Nat.add_assoc, Nat.add_comm 1]
            exact hslots (n + 1) item' hitem
          obtain ⟨hblocks, hdistinct, hbinds⟩ :=
            ih hreps hb' hnodup' hlt' (Nat.succ.inj hlength) hslots' hrun
          rw [paramsFrom_cons, List.append_assoc]
          refine ⟨hblocks, hdistinct, ?_, fun j hj => ?_, hbinds.sink⟩
          · exact hbinds.size.trans (Heap.size_define ..)
          · exact (hbinds.other j hj).trans
              (Heap.getElem?_define_of_ne _ hj _ _)

/-- The variables at the beginning of a call. -/
def World.enter (w : World) (items : List Item) (count : Nat) : World :=
  { w with slots := items.map some
      ++ List.replicate (count - items.length) none }

/-- The site at the beginning of a function. -/
def Site.body (d : FnDecl) (f : Function) : Site :=
  ⟨true, f.locals.length, [paramTable d.params]⟩

/-- At the beginning of a call. -/
theorem Shares.enter {d : FnDecl} {f : Function} {vs : List Value}
    {items : List Item} {depth : Nat} {u : Unit}
    (hshares : Shares fs roots total before m w)
    (hreps : List.Forall₂ (Represents fs) vs items)
    (hlength : vs.length = d.params.length)
    (hroom : d.params.length ≤ f.locals.length)
    (hrun : ((d.params.zip vs).forM fun (p, v) =>
      Run.define ⟨m.heap.scopes.size, depth⟩ p.name v : Run Unit)
        (inside m 0) = .ok u m') :
    Agrees fs roots total before (.body d f) m.heap.scopes.size m'
        m.heap.scopes.size (w.enter items f.locals.length)
      ∧ Moved roots true m.heap.scopes.size m m' w
        (w.enter items f.locals.length)
      ∧ (Site.body d f).Sound roots := by
  have hitems : items.length = d.params.length :=
    hreps.length_eq.symm.trans hlength
  have hblocks : Blocks fs (inside m 0).heap
      (w.enter items f.locals.length).slots m.heap.scopes.size
      m.heap.scopes.size [[]] :=
    ⟨[], 0, Heap.getElem?_child_self m.heap 0, hshares.lt_size,
      Nat.le_refl _, fun _ => .none, rfl⟩
  have hslots : ∀ n item, items[n]? = some item →
      (w.enter items f.locals.length).slots[0 + n]? = some (some item) := by
    intro n item hitem
    show (items.map some ++ _)[0 + n]? = _
    rw [Nat.zero_add, List.getElem?_append_left, List.getElem?_map, hitem]
    · rfl
    · rw [List.length_map]
      exact (List.getElem?_eq_some_iff.1 hitem).1
  obtain ⟨hb, hnodup, hbinds⟩ := bind_arguments hreps hblocks
    List.nodup_nil (fun _ h => nomatch h) hlength hslots hrun
  rw [List.append_nil, ← paramTable_eq] at hb hnodup
  have hsize' : m'.heap.scopes.size = m.heap.scopes.size + 1 :=
    hbinds.size.trans (Heap.size_child m.heap 0)
  have holder : ∀ j : ScopeId, j < m.heap.scopes.size →
      m'.heap.scopes[j]? = m.heap.scopes[j]? := fun j hj =>
    (hbinds.other j (Nat.ne_of_lt hj)).trans
      (Heap.getElem?_child_of_lt m.heap 0 hj)
  refine ⟨⟨⟨?_, hshares.total, ?_⟩, hb, ?_, ?_⟩, ⟨?_, ?_, ?_, ?_⟩, ?_⟩
  · exact hshares.root.congr (holder 0 hshares.lt_size) fun _ _ _ => rfl
  · rw [hbinds.sink]
    exact hshares.printed
  · show (_ ++ _ : List _).length = _
    rw [List.length_append, List.length_map, List.length_replicate,
      hitems]
    exact Nat.add_sub_cancel' hroom
  · rw [hsize']
    exact Nat.le_succ _
  · rw [hsize']
    exact Nat.le_succ _
  · intro j s hs
    exact ⟨s.bindings, (holder j (Heap.lt_size_of_getElem? hs)).trans hs⟩
  · exact fun j _ hj => holder j hj
  · exact fun _ _ _ => rfl
  · refine ⟨?_, fun hown => nomatch hown⟩
    show ([_].flatten.map _).Nodup
    simpa using hnodup

/-- The variables of a caller behind a call. -/
def World.resume (w w' : World) : World := { w' with slots := w.slots }

/-- Behind a call, in the caller. -/
theorem Agrees.resume
    (hagree : Agrees fs roots total before site base m i w)
    (hsound : site.Sound roots)
    (hshares : Shares fs roots total before m' w')
    (hmoved : Moved roots true m.heap.scopes.size m m' w w') :
    Agrees fs roots total before site base m' i (w.resume w')
      ∧ Moved roots site.own base m m' w (w.resume w') := by
  have hvars : ∀ slot ∈ site.slots,
      (site.vars (w.resume w'))[slot]? = (site.vars w)[slot]? := by
    intro slot hslot
    unfold Site.vars
    split
    case isTrue => rfl
    case isFalse hown =>
        exact hmoved.globals rfl slot
          (hsound.apart (by simpa using hown) slot hslot)
  refine ⟨⟨⟨hshares.root, hshares.total, hshares.printed⟩, ?_, ?_, ?_⟩,
    ⟨hmoved.size, hmoved.parent, ?_, ?_⟩⟩
  · refine hagree.blocks.congr (fun j hj hle => ?_) hvars
    exact hmoved.same j hj (Nat.lt_of_le_of_lt hle hagree.lt_size)
  · rw [← hagree.limit]
    unfold Site.vars
    split
    · rfl
    · exact hshares.total.trans hagree.total.symm
  · exact Nat.le_trans hagree.based hmoved.size
  · exact fun j hj hlt =>
      hmoved.same j hj (Nat.lt_of_lt_of_le hlt hagree.based)
  · exact fun _ slot hslot => hmoved.globals rfl slot hslot

end Script.Stack
