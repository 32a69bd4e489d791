/-
What binding and storing do to the match of scopes and slots. Every
change touches one scope and one slot. The scope is that of the table
which has the slot, or the root; since slots are not shared, all other
tables still match, and so does the table itself for its other names.

Scopes are only ever added, so the scopes of a caller are as they were
when a call ends: the call was made on top of them.
-/
import Mathlib.Data.List.Nodup
import Script.Proofs.Action
import Script.Proofs.Stack.Agreement

namespace Script.Stack

open Code Eval Script.Action

variable {fs : List FnDecl} {roots : Names} {total : Nat}
  {before : ByteArray} {site : Site} {base i j : ScopeId} {m m' : Machine}
  {w w' : World} {h h' : Heap} {vars vars' globals' : List (Option Item)}
  {t t' : Names} {ts : List Names} {name : String} {slot : Nat} {v : Value}
  {item : Item}

-- ============================================================== tables

theorem mem_of_lookup (ht : t.lookup name = some slot) :
    (name, slot) ∈ t := by
  obtain ⟨l, r, rfl, -⟩ := List.lookup_eq_some_iff.1 ht
  simp

theorem slot_mem_of_lookup (ht : t.lookup name = some slot) :
    slot ∈ t.map (·.2) :=
  List.mem_map_of_mem (mem_of_lookup ht)

/-- Without shared slots, a slot tells its name. -/
theorem name_of_slot {other : String} (hnodup : (t.map (·.2)).Nodup)
    (ht : t.lookup name = some slot) (ht' : t.lookup other = some slot) :
    name = other := by
  have heq := List.inj_on_of_nodup_map hnodup (mem_of_lookup ht)
    (mem_of_lookup ht') rfl
  exact congrArg Prod.fst heq

theorem slot_mem_of_findSome
    (hslot : ts.findSome? (·.lookup name) = some slot) :
    slot ∈ ts.flatten.map (·.2) := by
  obtain ⟨t, ht, hlookup⟩ := List.exists_of_findSome?_eq_some hslot
  exact List.mem_map_of_mem (List.mem_flatten_of_mem ht
    (mem_of_lookup hlookup))

-- ====================================================== what stays as is

theorem Holds.congr (hvars : vars'[slot]? = vars[slot]?)
    (hholds : Holds fs vars slot v) : Holds fs vars' slot v := by
  obtain ⟨item, hitem, hrep⟩ := hholds
  exact ⟨item, hvars.trans hitem, hrep⟩

theorem Exact.congr {bs : Bindings}
    (hvars : ∀ slot ∈ t.map (·.2), vars'[slot]? = vars[slot]?)
    (hexact : Exact fs bs vars t) : Exact fs bs vars' t := by
  intro name
  have hname := hexact name
  generalize ht : t.lookup name = found at hname ⊢
  generalize bs.lookup name = bound at hname ⊢
  cases hname with
  | none => exact .none
  | some hholds => exact .some (hholds.congr (hvars _ (slot_mem_of_lookup ht)))

theorem Blocks.congr
    (hscopes : ∀ j : ScopeId, 0 < j → j ≤ i → h'.scopes[j]? = h.scopes[j]?)
    (hvars : ∀ slot ∈ ts.flatten.map (·.2), vars'[slot]? = vars[slot]?)
    (hb : Blocks fs h vars base i ts) : Blocks fs h' vars' base i ts := by
  induction ts generalizing i with
  | nil => exact hb
  | cons t ts ih =>
      obtain ⟨bs, p, hs, hp, hbase, hexact, hb⟩ := hb
      simp only [List.flatten_cons, List.map_append, List.mem_append]
        at hvars
      refine ⟨bs, p, ?_, hp, hbase, ?_, ?_⟩
      · rw [hscopes i (Nat.zero_lt_of_lt hp) (Nat.le_refl _), hs]
      · exact hexact.congr fun slot hslot => hvars slot (.inl hslot)
      · exact ih (fun j hj hle => hscopes j hj (Nat.le_trans hle (Nat.le_of_lt hp)))
          (fun slot hslot => hvars slot (.inr hslot)) hb

theorem RootHolds.congr {globals : List (Option Item)}
    (hscope : h'.scopes[0]? = h.scopes[0]?)
    (hglobals : ∀ name slot, roots.lookup name = some slot →
      globals'[slot]? = globals[slot]?)
    (hroot : RootHolds fs roots h globals) :
    RootHolds fs roots h' globals' := by
  obtain ⟨bs, hs, hbinds⟩ := hroot
  refine ⟨bs, hscope.trans hs, fun name v hv => ?_⟩
  obtain ⟨slot, hslot, hholds⟩ := hbinds name v hv
  exact ⟨slot, hslot, hholds.congr (hglobals name slot hslot)⟩

theorem Blocks.lt_size (hb : Blocks fs h vars base i ts)
    {globals : List (Option Item)} (hroot : RootHolds fs roots h globals) :
    i < h.scopes.size := by
  cases ts with
  | nil =>
      obtain rfl : i = 0 := hb
      obtain ⟨bs, hs, -⟩ := hroot
      exact Heap.lt_size_of_getElem? hs
  | cons t ts =>
      obtain ⟨bs, p, hs, -⟩ := hb
      exact Heap.lt_size_of_getElem? hs

-- =============================================== one scope and one slot

/-- The innermost scope and its table, with a new value for a name. The
table may have got the name only now. -/
theorem Blocks.bind (hb : Blocks fs h vars base i (t :: ts))
    (hself : t'.lookup name = some slot)
    (hother : ∀ other, other ≠ name → t'.lookup other = t.lookup other)
    (hnodup : ((t' :: ts).flatten.map (·.2)).Nodup)
    (hslot : vars'[slot]? = some (some item))
    (hrest : ∀ s, s ≠ slot → vars'[s]? = vars[s]?)
    (hrep : Represents fs v item) :
    Blocks fs (h.define i name v) vars' base i (t' :: ts) := by
  obtain ⟨bs, p, hs, hp, hbase, hexact, hb⟩ := hb
  rw [List.flatten_cons, List.map_append, List.nodup_append] at hnodup
  obtain ⟨htable, -, happart⟩ := hnodup
  refine ⟨_, p, Heap.getElem?_define_self hs name v, hp, hbase, ?_, ?_⟩
  · intro other
    rw [Heap.lookup_insert]
    split
    case isTrue heq =>
        rw [heq, hself]
        exact .some ⟨item, hslot, hrep.keptIn i⟩
    case isFalse hne =>
        -- Another name of the table has another slot.
        have hname := hexact other
        generalize ht : t.lookup other = found at hname
        rw [hother other hne, ht]
        generalize bs.lookup other = bound at hname ⊢
        cases hname with
        | none => exact .none
        | @some slot' v' hholds =>
            refine .some (hholds.congr (hrest slot' ?_))
            rintro rfl
            exact hne (name_of_slot htable
              ((hother other hne).trans ht) hself)
  · refine hb.congr (fun j _ hj => ?_) (fun s hs => hrest s ?_)
    · exact Heap.getElem?_define_of_ne h
        (Nat.ne_of_lt (Nat.lt_of_le_of_lt hj hp)) name v
    · rintro rfl
      exact happart s (slot_mem_of_lookup hself) s hs rfl

/-- A new value for a name of the inner tables, where it is bound. -/
theorem Blocks.assign (hb : Blocks fs h vars base i ts)
    (hfound : ts.findSome? (·.lookup name) = some slot)
    (hnodup : (ts.flatten.map (·.2)).Nodup)
    (hj : h.owner? i name = some j)
    (hslot : vars'[slot]? = some (some item))
    (hrest : ∀ s, s ≠ slot → vars'[s]? = vars[s]?)
    (hrep : Represents fs v item) :
    0 < j ∧ base ≤ j ∧ j ≤ i
      ∧ Blocks fs (h.define j name v) vars' base i ts := by
  induction ts generalizing i with
  | nil => cases hfound
  | cons t ts ih =>
      obtain ⟨bs, p, hs, hp, hbase, hexact, hb'⟩ := id hb
      rw [Heap.owner?_eq hs hp] at hj
      rw [List.findSome?_cons] at hfound
      cases ht : t.lookup name with
      | some slot' =>
          rw [ht] at hfound
          cases hfound
          obtain ⟨v', hv', -⟩ := hexact.of_some ht
          rw [hv'] at hj
          cases hj
          exact ⟨Nat.zero_lt_of_lt hp, hbase, Nat.le_refl _,
            hb.bind ht (fun _ _ => rfl) hnodup hslot hrest hrep⟩
      | none =>
          rw [ht] at hfound
          rw [hexact.of_none ht] at hj
          rw [List.flatten_cons, List.map_append, List.nodup_append]
            at hnodup
          obtain ⟨-, hinner, happart⟩ := hnodup
          obtain ⟨hpos, hbase', hle, hblocks⟩ := ih hb' hfound hinner hj
          have hlt : j < i := Nat.lt_of_le_of_lt hle hp
          refine ⟨hpos, hbase', Nat.le_of_lt hlt, bs, p, ?_, hp, hbase, ?_,
            hblocks⟩
          · rw [Heap.getElem?_define_of_ne h (Nat.ne_of_gt hlt) name v, hs]
          · refine hexact.congr fun s hs => hrest s ?_
            rintro rfl
            exact happart s hs s (slot_mem_of_findSome hfound) rfl

/-- A new value for a name at the top of the program. -/
theorem RootHolds.bind {globals : List (Option Item)}
    (hroot : RootHolds fs roots h globals)
    (hnodup : (roots.map (·.2)).Nodup)
    (hname : roots.lookup name = some slot)
    (hslot : globals'[slot]? = some (some item))
    (hrest : ∀ s, s ≠ slot → globals'[s]? = globals[s]?)
    (hrep : Represents fs v item) :
    RootHolds fs roots (h.define 0 name v) globals' := by
  obtain ⟨bs, hs, hbinds⟩ := hroot
  refine ⟨_, Heap.getElem?_define_self hs name v, fun other v' hv' => ?_⟩
  rw [Heap.lookup_insert] at hv'
  split at hv'
  case isTrue heq =>
      cases hv'
      exact ⟨slot, heq ▸ hname, item, hslot, hrep.keptIn 0⟩
  case isFalse hne =>
      obtain ⟨slot', hslot', hholds⟩ := hbinds other v' hv'
      refine ⟨slot', hslot', hholds.congr (hrest slot' ?_)⟩
      rintro rfl
      exact hne (name_of_slot hnodup hslot' hname)

-- ============================================================== storing

theorem Site.vars_write_inner (site : Site) (w : World) (item : Item)
    (slot : Nat) : site.vars (w.write item (site.inner slot))
      = (site.vars w).set slot (some item) := by
  unfold Site.vars Site.inner
  cases site.own <;> rfl

theorem Site.globals_write_inner (site : Site) (w : World) (item : Item)
    (slot : Nat) : (w.write item (site.inner slot)).globals =
      if site.own then w.globals else w.globals.set slot (some item) := by
  unfold Site.inner
  cases site.own <;> rfl

@[simp] theorem World.printed_write (w : World) (item : Item) (x : Symbol) :
    (w.write item x).printed = w.printed := by
  cases x <;> rfl

theorem World.read_write {x : Symbol} (hx : w.has x) (item : Item) :
    (w.write item x).read x = some item := by
  cases x with
  | own slot =>
      have hlt : slot < w.slots.length := hx
      simp [write, read, hlt]
  | global slot =>
      have hlt : slot < w.globals.length := hx
      simp [write, read, hlt]
  | captured => exact hx.elim

/-- The evaluator with a name bound to a value. -/
def bound (m : Machine) (j : ScopeId) (name : String) (v : Value) :
    Machine :=
  { m with heap := m.heap.define j name v }

/-- What one more value in one scope moves. -/
theorem Moved.bound {own : Bool} (hj : j = 0 ∨ base ≤ j)
    (hglobals : own = true → ∀ slot,
      (∀ name, roots.lookup name ≠ some slot) →
        w'.globals[slot]? = w.globals[slot]?) :
    Moved roots own base m (bound m j name v) w w' where
  size := Nat.le_of_eq (Heap.size_define ..).symm
  parent k s hs := by
    by_cases hk : k = j
    · subst hk
      exact ⟨_, Heap.getElem?_define_self hs name v⟩
    · exact ⟨s.bindings, (Heap.getElem?_define_of_ne _ hk ..).trans hs⟩
  same k hk hlt := by
    refine Heap.getElem?_define_of_ne _ ?_ name v
    rintro rfl
    rcases hj with rfl | hj
    · exact Nat.lt_irrefl _ hk
    · exact Nat.not_lt.2 hj hlt
  globals := hglobals

/-- A store to the slot of an inner name. -/
theorem Agrees.store_inner
    (hagree : Agrees fs roots total before site base m i w)
    (hj : 0 < j) (hbase : base ≤ j)
    (hapart : site.own = false → ∀ other, roots.lookup other ≠ some slot)
    (hblocks : Blocks fs (bound m j name v).heap
      ((site.vars w).set slot (some item)) base i ts) :
    Agrees fs roots total before ⟨site.own, site.limit, ts⟩ base
        (bound m j name v) i (w.write item (site.inner slot))
      ∧ Moved roots site.own base m (bound m j name v) w
        (w.write item (site.inner slot)) := by
  have hvars : (⟨site.own, site.limit, ts⟩ : Site).vars
      (w.write item (site.inner slot)) = (site.vars w).set slot (some item) :=
    site.vars_write_inner w item slot
  have hglobals := site.globals_write_inner w item slot
  refine ⟨⟨⟨?_, ?_, ?_⟩, ?_, ?_, ?_⟩, .bound (.inr hbase) ?_⟩
  · refine hagree.root.congr
      (Heap.getElem?_define_of_ne _ (Nat.ne_of_lt hj) name v)
      fun other s hs => ?_
    rw [hglobals]
    split
    case isTrue => rfl
    case isFalse hown =>
        refine List.getElem?_set_ne ?_
        rintro rfl
        exact hapart (by simpa using hown) other hs
  · rw [hglobals]
    split
    · exact hagree.total
    · rw [List.length_set, hagree.total]
  · rw [World.printed_write]
    exact hagree.printed
  · rw [hvars]
    exact hblocks
  · rw [hvars, List.length_set, hagree.limit]
  · exact Nat.le_trans hagree.based (Nat.le_of_eq (Heap.size_define ..).symm)
  · intro hown s _
    rw [hglobals, hown]
    rfl

/-- A store to the slot of a name at the top of the program. -/
theorem Agrees.store_root
    (hagree : Agrees fs roots total before site base m i w)
    (hsound : site.Sound roots) (hroots : (roots.map (·.2)).Nodup)
    (hname : roots.lookup name = some slot) (hslot : slot < total)
    (hrep : Represents fs v item) :
    Agrees fs roots total before site base (bound m 0 name v) i
        (w.write item (.global slot))
      ∧ Moved roots site.own base m (bound m 0 name v) w
        (w.write item (.global slot)) := by
  have hvars : ∀ s ∈ site.slots,
      (site.vars (w.write item (.global slot)))[s]? = (site.vars w)[s]? := by
    intro s hs
    unfold Site.vars
    split
    case isTrue => rfl
    case isFalse hown =>
        refine List.getElem?_set_ne ?_
        rintro rfl
        exact hsound.apart (by simpa using hown) slot hs name hname
  refine ⟨⟨⟨?_, ?_, ?_⟩, ?_, ?_, ?_⟩, .bound (.inl rfl) ?_⟩
  · refine hagree.root.bind hroots hname ?_ (fun s hs => ?_) hrep
    · exact List.getElem?_set_self (by rw [hagree.total]; exact hslot)
    · exact List.getElem?_set_ne (Ne.symm hs)
  · exact (List.length_set ..).trans hagree.total
  · exact hagree.printed
  · refine hagree.blocks.congr (fun k hk _ => ?_) hvars
    exact Heap.getElem?_define_of_ne _ (Nat.ne_of_gt hk) name v
  · rw [← hagree.limit]
    unfold Site.vars
    split
    · rfl
    · exact List.length_set ..
  · exact Nat.le_trans hagree.based (Nat.le_of_eq (Heap.size_define ..).symm)
  · intro _ s hs
    refine List.getElem?_set_ne ?_
    rintro rfl
    exact hs name hname

/-- An assignment. -/
theorem Agrees.assign {x : Symbol}
    (hagree : Agrees fs roots total before site base m i w)
    (hsound : site.Sound roots) (hroots : (roots.map (·.2)).Nodup)
    (hj : m.heap.owner? i name = some j)
    (hx : site.symbol? roots name = some x)
    (hrep : Represents fs v item) :
    Agrees fs roots total before site base (bound m j name v) i
        (w.write item x)
      ∧ Moved roots site.own base m (bound m j name v) w
        (w.write item x) := by
  obtain ⟨s, old, kept, -, -, -, -, hhas⟩ := hagree.owner hj hx
  unfold Site.symbol? at hx
  split at hx
  case h_1 slot hslot =>
      cases hx
      have hlt := (site.has_inner w slot).1 hhas
      have hset : ((site.vars w).set slot (some item))[slot]? =
          some (some item) := List.getElem?_set_self hlt
      obtain ⟨hpos, hbase, -, hblocks⟩ := hagree.blocks.assign hslot
        hsound.nodup hj hset
        (fun s hs => List.getElem?_set_ne (Ne.symm hs)) hrep
      exact hagree.store_inner hpos hbase
        (fun hown other => hsound.apart hown slot
          (slot_mem_of_findSome hslot) other) hblocks
  case h_2 hslot =>
      rw [hagree.blocks.owner_of_none hslot] at hj
      obtain ⟨rfl, s, v', slot, -, -, hroot, -⟩ := hagree.root.owner hj
      rw [hroot] at hx
      cases hx
      have hlt : slot < w.globals.length := hhas
      exact hagree.store_root hsound hroots hroot (hagree.total ▸ hlt) hrep

-- ========================================================= declarations

theorem Declares.sound {site' : Site} {x : Symbol}
    (hdecl : Declares roots name site x site') (hsound : site.Sound roots) :
    site'.Sound roots := by
  cases hdecl with
  | top => exact hsound
  | again => exact hsound
  | new hname hlimit hfree hroots =>
      refine ⟨List.nodup_cons.2 ⟨hfree, hsound.nodup⟩, ?_⟩
      intro hown s hs
      rcases List.mem_cons.1 hs with rfl | hs
      · exact hroots hown
      · exact hsound.apart hown s hs

/-- A declaration in a block changes the innermost table only. -/
theorem Declares.same_block {own : Bool} {limit : Nat} {site' : Site}
    {x : Symbol} (hdecl : Declares roots name ⟨own, limit, t :: ts⟩ x site') :
    ∃ t', site' = ⟨own, limit, t' :: ts⟩ := by
  cases hdecl with
  | again => exact ⟨t, rfl⟩
  | new => exact ⟨_, rfl⟩

/-- A declaration. -/
theorem Agrees.declare {x : Symbol} {site' : Site}
    (hagree : Agrees fs roots total before site base m i w)
    (hsound : site.Sound roots) (hroots : (roots.map (·.2)).Nodup)
    (hroom : ∀ name slot, roots.lookup name = some slot → slot < total)
    (hdecl : Declares roots name site x site')
    (hrep : Represents fs v item) :
    Agrees fs roots total before site' base (bound m i name v) i
        (w.write item x)
      ∧ Moved roots site.own base m (bound m i name v) w (w.write item x)
      ∧ w.has x := by
  have hsound' := hdecl.sound hsound
  cases hdecl with
  | @top own limit slot hroot hown =>
      obtain rfl : i = 0 := hagree.blocks
      have hlt := hroom name slot hroot
      obtain ⟨hagree', hmoved⟩ :=
        hagree.store_root hsound hroots hroot hlt hrep
      exact ⟨hagree', hmoved, Nat.lt_of_lt_of_eq hlt hagree.total.symm⟩
  | @again site t ts slot htables hslot =>
      obtain ⟨own, limit, _⟩ := site
      subst htables
      have hblocks := hagree.blocks
      obtain ⟨bs, p, -, hp, hbase, hexact, -⟩ := id hblocks
      obtain ⟨old, -, hholds⟩ := hexact.of_some hslot
      obtain ⟨hagree', hmoved⟩ := hagree.store_inner
        (Nat.zero_lt_of_lt hp) hbase
        (fun hown => hsound.apart hown slot
          (List.mem_map_of_mem (List.mem_append_left _
            (mem_of_lookup hslot))))
        (hblocks.bind hslot (fun _ _ => rfl) hsound.nodup
          (List.getElem?_set_self hholds.lt)
          (fun s hs => List.getElem?_set_ne (Ne.symm hs)) hrep)
      exact ⟨hagree', hmoved, (Site.has_inner _ w slot).2 hholds.lt⟩
  | @new own limit slot t ts hname hlimit hfree hapart =>
      have hblocks := hagree.blocks
      obtain ⟨bs, p, -, hp, hbase, -⟩ := id hblocks
      have hlt := Nat.lt_of_lt_of_eq hlimit hagree.limit.symm
      have hother : ∀ other, other ≠ name →
          ((name, slot) :: t).lookup other = t.lookup other := by
        intro other hne
        rw [List.lookup_cons, beq_eq_false_iff_ne.2 hne]
      obtain ⟨hagree', hmoved⟩ := hagree.store_inner
        (Nat.zero_lt_of_lt hp) hbase hapart
        (hblocks.bind (List.lookup_cons_self ..) hother hsound'.nodup
          (List.getElem?_set_self hlt)
          (fun s hs => List.getElem?_set_ne (Ne.symm hs)) hrep)
      exact ⟨hagree', hmoved, (Site.has_inner _ w slot).2 hlt⟩

end Script.Stack
