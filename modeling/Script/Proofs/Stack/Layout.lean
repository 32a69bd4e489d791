/-
Symbol tables while code is made, against the finished program. Making
code only adds to a table: what a name means at the top of the program, or
in the block where it was declared, stays what it was, and a new name gets
a slot that no name had before. So a table that fits the finished program
fits it at every earlier moment as well, and that is the direction in
which the facts here are used: from the end of a piece of code back to its
beginning.
-/
import Script.Proofs.Stack.Placed

namespace Script

namespace Code

-- =============================================================== frames

namespace Frame

/-- The tables of all open blocks, from the inside out. -/
def tables (f : Frame) : List Names := f.block :: f.outer

/-- The slots that open blocks use. -/
def taken (f : Frame) : List Nat := f.tables.flatten.map (·.2)

/-- The table of the outermost block. -/
def root (f : Frame) : Names := f.outer.getLastD f.block

/-- No two names share a slot, and all slots were handed out. -/
structure Wf (f : Frame) : Prop where
  nodup : f.taken.Nodup
  bound : ∀ slot ∈ f.taken, slot < f.slots.length

/-- What becomes of a frame between two moments at which the same blocks
are open: only the innermost block and the list of slots grow. -/
structure Grows (f f' : Frame) : Prop where
  outer : f'.outer = f.outer
  slots : f.slots.length ≤ f'.slots.length
  keeps : ∀ name slot, f.block.lookup name = some slot →
    f'.block.lookup name = some slot
  adds : ∀ name slot, f'.block.lookup name = some slot →
    f.block.lookup name = some slot ∨ f.slots.length ≤ slot
  wf : f.Wf → f'.Wf

variable {f f' f'' : Frame} {name : String}

theorem Wf.empty : Frame.empty.Wf :=
  ⟨List.nodup_nil, fun _ h => nomatch h⟩

theorem Wf.openBlock (h : f.Wf) : f.openBlock.Wf := ⟨h.nodup, h.bound⟩

theorem declare_of_some {slot : Nat} (h : f.block.lookup name = some slot) :
    f.declare name = (slot, f) := by
  unfold declare
  rw [h]

theorem declare_of_none (h : f.block.lookup name = none) :
    f.declare name = (f.slots.length,
      ⟨(name, f.slots.length) :: f.block, f.outer, f.slots ++ [name]⟩) := by
  unfold declare
  rw [h]

theorem Wf.declare (h : f.Wf) (name : String) : (f.declare name).2.Wf := by
  cases hname : f.block.lookup name with
  | some slot =>
      rw [declare_of_some hname]
      exact h
  | none =>
      rw [declare_of_none hname]
      refine ⟨List.nodup_cons.2 ⟨?_, h.nodup⟩, ?_⟩
      · exact fun hmem => Nat.lt_irrefl _ (h.bound _ hmem)
      · intro slot hslot
        rw [List.length_append]
        rcases List.mem_cons.1 hslot with rfl | hslot
        · exact Nat.lt_succ_self _
        · exact Nat.lt_succ_of_lt (h.bound slot hslot)

theorem Grows.refl (f : Frame) : f.Grows f :=
  ⟨rfl, Nat.le_refl _, fun _ _ h => h, fun _ _ h => .inl h, id⟩

theorem Grows.trans (h : f.Grows f') (h' : f'.Grows f'') : f.Grows f'' where
  outer := h'.outer.trans h.outer
  slots := Nat.le_trans h.slots h'.slots
  keeps name slot hname := h'.keeps name slot (h.keeps name slot hname)
  adds name slot hname := by
    rcases h'.adds name slot hname with hname | hle
    · exact h.adds name slot hname
    · exact .inr (Nat.le_trans h.slots hle)
  wf hwf := h'.wf (h.wf hwf)

theorem Grows.declare (f : Frame) (name : String) :
    f.Grows (f.declare name).2 := by
  cases hname : f.block.lookup name with
  | some slot =>
      rw [declare_of_some hname]
      exact .refl f
  | none =>
      rw [declare_of_none hname]
      refine ⟨rfl, ?_, fun other slot hother => ?_, fun other slot hother => ?_,
        fun hwf => ?_⟩
      · rw [List.length_append]
        exact Nat.le_add_right ..
      · rw [List.lookup_cons]
        split
        case h_1 heq =>
            rw [eq_of_beq heq, hname] at hother
            cases hother
        case h_2 => exact hother
      · rw [List.lookup_cons] at hother
        split at hother
        case h_1 =>
            cases hother
            exact .inr (Nat.le_refl _)
        case h_2 => exact .inl hother
      · have hdeclare := hwf.declare name
        rwa [declare_of_none hname] at hdeclare

/-- Closing a block leaves nothing of it but its slots. -/
theorem Grows.closeBlock_eq (h : f.openBlock.Grows f') :
    f'.closeBlock = ⟨f.block, f.outer, f'.slots⟩ := by
  unfold closeBlock
  rw [h.outer]
  rfl

theorem closeBlock_slots (f : Frame) : f.closeBlock.slots = f.slots := by
  unfold closeBlock
  split <;> rfl

/-- Closing a block takes its table away, unless it is the outermost. -/
theorem closeBlock_tables_suffix (f : Frame) :
    f.closeBlock.tables <:+ f.tables := by
  obtain ⟨t, _ | ⟨t', ts⟩, slots⟩ := f
  · exact List.suffix_refl _
  · exact List.suffix_cons t (t' :: ts)

theorem Wf.closeBlock (h : f.Wf) : f.closeBlock.Wf := by
  obtain ⟨ts, hts⟩ := f.closeBlock_tables_suffix
  have htaken : f.taken = ts.flatten.map (·.2) ++ f.closeBlock.taken := by
    unfold taken
    rw [← hts, List.flatten_append, List.map_append]
  have hnodup := h.nodup
  rw [htaken] at hnodup
  refine ⟨(List.nodup_append.1 hnodup).2.1, fun slot hslot => ?_⟩
  rw [closeBlock_slots]
  exact h.bound slot (htaken ▸ List.mem_append_right _ hslot)

/-- A block that is closed again leaves its slots behind. -/
theorem Grows.block (h : f.openBlock.Grows f') : f.Grows f'.closeBlock := by
  have hwf (hf : f.Wf) : f'.closeBlock.Wf :=
    (h.wf hf.openBlock).closeBlock
  rw [h.closeBlock_eq] at hwf ⊢
  exact ⟨rfl, h.slots, fun _ _ hname => hname, fun _ _ hname => .inl hname,
    hwf⟩

/-- The table at the top takes part in growth only when no other block is
open. -/
theorem Grows.root_lookup (h : f.Grows f') {slot : Nat}
    (hname : f.root.lookup name = some slot) :
    f'.root.lookup name = some slot := by
  unfold root at hname ⊢
  rw [h.outer]
  cases houter : f.outer with
  | nil =>
      rw [houter] at hname
      exact h.keeps name slot hname
  | cons t ts =>
      rw [houter] at hname
      exact hname

theorem Grows.root_adds (h : f.Grows f') {slot : Nat}
    (hname : f'.root.lookup name = some slot) :
    f.root.lookup name = some slot ∨ f.slots.length ≤ slot := by
  unfold root at hname ⊢
  rw [h.outer] at hname
  cases houter : f.outer with
  | nil =>
      rw [houter] at hname
      exact h.adds name slot hname
  | cons t ts =>
      rw [houter] at hname
      exact .inl hname

theorem root_openBlock (f : Frame) : f.openBlock.root = f.root := by
  unfold root openBlock
  cases f.outer with
  | nil => rfl
  | cons t ts => rfl

theorem dropLast_tables (f : Frame) :
    f.tables.dropLast ++ [f.root] = f.tables := by
  have hroot : f.root = f.tables.getLast (List.cons_ne_nil _ _) := by
    unfold root tables
    cases f.outer <;> rfl
  rw [hroot]
  exact List.dropLast_concat_getLast _

/-- Slots of the outermost block are in use. -/
theorem mem_taken_of_root {slot : Nat}
    (hname : f.root.lookup name = some slot) : slot ∈ f.taken := by
  have hroot : f.root ∈ f.tables := by
    unfold root tables
    cases f.outer with
    | nil => exact List.mem_cons_self
    | cons t ts =>
        refine List.mem_cons_of_mem _ ?_
        rw [List.getLastD_cons]
        exact List.getLastD_mem_cons ..
  obtain ⟨l, r, hsplit, -⟩ := List.lookup_eq_some_iff.1 hname
  exact List.mem_map.2 ⟨(name, slot),
    List.mem_flatten_of_mem hroot (by simp [hsplit]), rfl⟩

theorem lookup_declare (f : Frame) (name : String) :
    (f.declare name).2.block.lookup name = some (f.declare name).1 := by
  cases hname : f.block.lookup name with
  | some slot =>
      rw [declare_of_some hname]
      exact hname
  | none =>
      rw [declare_of_none hname]
      exact List.lookup_cons_self ..

/-- A declaration inside of a block. -/
theorem declares {roots : Names} {own : Bool} {limit : Nat}
    {ts : List Names} (hwf : f.Wf)
    (hts : ∀ slot ∈ ts.flatten.map (·.2), slot ∈ f.taken)
    (hroom : (f.declare name).2.slots.length ≤ limit)
    (hroots : own = false → ∀ other slot,
      roots.lookup other = some slot → slot < f.slots.length
        ∨ (f.declare name).2.slots.length ≤ slot) :
    Stack.Declares roots name ⟨own, limit, f.block :: ts⟩
      ((⟨own, limit, f.block :: ts⟩ : Stack.Site).inner (f.declare name).1)
      ⟨own, limit, (f.declare name).2.block :: ts⟩ := by
  cases hname : f.block.lookup name with
  | some slot =>
      rw [declare_of_some hname]
      exact .again rfl hname
  | none =>
      rw [declare_of_none hname] at hroom hroots ⊢
      simp only [List.length_append, List.length_singleton] at hroom hroots
      refine .new hname hroom (fun hmem => ?_) fun hown other hother => ?_
      · refine Nat.lt_irrefl _ (hwf.bound f.slots.length ?_)
        obtain ⟨p, hp, hslot⟩ := List.mem_map.1 hmem
        rcases List.mem_append.1 hp with hp | hp
        · exact List.mem_map.2 ⟨p, List.mem_append_left _ hp, hslot⟩
        · exact hts _ (List.mem_map.2 ⟨p, hp, hslot⟩)
      · rcases hroots hown other _ hother with hlt | hle
        · exact Nat.lt_irrefl _ hlt
        · exact Nat.not_succ_le_self _ hle

end Frame

-- ============================================================== symbols

namespace Symbols

/-- What becomes of the symbols between two moments with the same
functions and blocks open: only the innermost function takes part. -/
def Grows (s s' : Symbols) : Prop :=
  ∃ f, s.current.Grows f ∧ s' = s.onCurrent fun _ => f

/-- A symbol table while code is made, against the names at the top of the
finished program and the number of slots that the function which is open
ends up with. -/
inductive Fits (roots : Names) (limit : Nat) : Symbols → Prop
  /-- In the main function, whose outermost block has the names at the
  top. -/
  | main {f : Frame} (hroom : f.slots.length ≤ limit)
      (hknown : ∀ name slot, f.root.lookup name = some slot →
        roots.lookup name = some slot)
      (hlater : ∀ name slot, roots.lookup name = some slot →
        f.root.lookup name = some slot ∨ f.slots.length ≤ slot) :
      Fits roots limit ⟨[], f⟩
  /-- In a function at the top of the program. -/
  | function {f main : Frame} (hroom : f.slots.length ≤ limit)
      (houter : main.outer = [])
      (hknown : ∀ name slot, main.block.lookup name = some slot →
        roots.lookup name = some slot) :
      Fits roots limit ⟨[f], main⟩

/-- What the place where code is made knows about names. -/
def site (limit : Nat) (s : Symbols) : Stack.Site where
  own := !s.inMain
  limit := limit
  tables := if s.inMain then s.current.tables.dropLast else s.current.tables

variable {s s' s'' : Symbols} {roots : Names} {limit : Nat} {name : String}

theorem current_onCurrent (s : Symbols) (f : Frame → Frame) :
    (s.onCurrent f).current = f s.current := by
  obtain ⟨_ | ⟨frame, frames⟩, main⟩ := s <;> rfl

theorem onCurrent_onCurrent (s : Symbols) (f g : Frame → Frame) :
    (s.onCurrent f).onCurrent g = s.onCurrent fun frame => g (f frame) := by
  obtain ⟨_ | ⟨frame, frames⟩, main⟩ := s <;> rfl

theorem onCurrent_eq (s : Symbols) (f : Frame → Frame) :
    s.onCurrent f = s.onCurrent fun _ => f s.current := by
  obtain ⟨_ | ⟨frame, frames⟩, main⟩ := s <;> rfl

theorem Grows.refl (s : Symbols) : s.Grows s := by
  refine ⟨s.current, .refl _, ?_⟩
  obtain ⟨_ | ⟨frame, frames⟩, main⟩ := s <;> rfl

theorem Grows.trans (h : s.Grows s') (h' : s'.Grows s'') : s.Grows s'' := by
  obtain ⟨f, hf, rfl⟩ := h
  obtain ⟨g, hg, rfl⟩ := h'
  rw [current_onCurrent] at hg
  exact ⟨g, hf.trans hg, onCurrent_onCurrent ..⟩

theorem Grows.declare (s : Symbols) (name : String) :
    s.Grows (s.declare name).2 :=
  ⟨_, .declare s.current name,
    onCurrent_eq s fun f => (f.declare name).2⟩

theorem Grows.block (h : s.openBlock.Grows s') : s.Grows s'.closeBlock := by
  obtain ⟨f, hf, rfl⟩ := h
  refine ⟨f.closeBlock, .block ?_, ?_⟩
  · rwa [openBlock, current_onCurrent] at hf
  · unfold closeBlock openBlock
    rw [onCurrent_onCurrent, onCurrent_onCurrent]

theorem Grows.wf (h : s.Grows s') (hwf : s.current.Wf) : s'.current.Wf := by
  obtain ⟨f, hf, rfl⟩ := h
  rw [current_onCurrent]
  exact hf.wf hwf

/-- What fits the finished program fitted it at every earlier moment. -/
theorem Fits.before (h : s'.Fits roots limit) (hgrows : s.Grows s') :
    s.Fits roots limit := by
  obtain ⟨f, hf, rfl⟩ := hgrows
  obtain ⟨_ | ⟨frame, frames⟩, main⟩ := s
  · cases h with
    | main hroom hknown hlater =>
        refine .main (Nat.le_trans hf.slots hroom) ?_ ?_
        · exact fun name slot hname =>
            hknown name slot (hf.root_lookup hname)
        · intro name slot hname
          rcases hlater name slot hname with hname | hle
          · exact hf.root_adds hname
          · exact .inr (Nat.le_trans hf.slots hle)
  · cases h with
    | function hroom houter hknown =>
        exact .function (Nat.le_trans hf.slots hroom) houter hknown

/-- A block that is about to be closed fits the finished program, if what
is left of it does. -/
theorem Fits.inside (h : s'.closeBlock.Fits roots limit)
    (hgrows : s.openBlock.Grows s') : s'.Fits roots limit := by
  obtain ⟨f, hf, rfl⟩ := hgrows
  obtain ⟨_ | ⟨frame, frames⟩, main⟩ := s
  · have hclose := Frame.Grows.closeBlock_eq hf
    change (⟨[], f.closeBlock⟩ : Symbols).Fits roots limit at h
    rw [hclose] at h
    cases h with
    | main hroom hknown hlater =>
        have hroot : f.root = main.root := by
          refine Eq.trans ?_ main.root_openBlock
          unfold Frame.root
          rw [hf.outer]
          rfl
        exact .main hroom (hroot ▸ hknown) (hroot ▸ hlater)
  · have hclose := Frame.Grows.closeBlock_eq hf
    change (⟨f.closeBlock :: frames, main⟩ : Symbols).Fits roots limit at h
    rw [hclose] at h
    cases h with
    | function hroom houter hknown => exact .function hroom houter hknown

theorem wf_openBlock (hwf : s.current.Wf) : s.openBlock.current.Wf := by
  rw [openBlock, current_onCurrent]
  exact hwf.openBlock

theorem site_openBlock (limit : Nat) (s : Symbols) :
    s.openBlock.site limit = (s.site limit).openBlock := by
  obtain ⟨_ | ⟨frame, frames⟩, main⟩ := s <;> rfl

/-- The site behind a block is the one in front of it. -/
theorem site_closeBlock (limit : Nat) (h : s.openBlock.Grows s') :
    s'.closeBlock.site limit = s.site limit := by
  obtain ⟨f, hf, rfl⟩ := h
  obtain ⟨_ | ⟨frame, frames⟩, main⟩ := s
  · show (⟨[], f.closeBlock⟩ : Symbols).site limit = _
    rw [Frame.Grows.closeBlock_eq hf]
    rfl
  · show (⟨f.closeBlock :: frames, main⟩ : Symbols).site limit = _
    rw [Frame.Grows.closeBlock_eq hf]
    rfl

-- =========================================================== the program

/-- What a name means while code is made is what it means to the finished
program. -/
theorem Fits.variable {x : Symbol} (h : s.Fits roots limit)
    (hx : s.resolve? name = some x) (hx' : x ≠ .captured) :
    (s.site limit).symbol? roots name = some x := by
  cases h with
  | @main f hroom hknown hlater =>
      obtain ⟨slot, hslot, rfl⟩ := Option.map_eq_some_iff.1 hx
      unfold Frame.lookup? at hslot
      rw [← Frame.tables, ← f.dropLast_tables, List.findSome?_append]
        at hslot
      cases hinner : f.tables.dropLast.findSome? (·.lookup name) with
      | some slot' =>
          rw [hinner] at hslot
          obtain rfl : slot' = slot := Option.some.inj hslot
          have hsite : (site limit ⟨[], f⟩).slot? name = some slot' := hinner
          exact Stack.Site.symbol?_of_inner hsite
      | none =>
          rw [hinner, Option.none_or, List.findSome?_singleton] at hslot
          have hsite : (site limit ⟨[], f⟩).slot? name = none := hinner
          rw [Stack.Site.symbol?_of_outer hsite]
          rw [hknown name slot hslot]
          rfl
  | @function f main hroom houter hknown =>
      unfold resolve? at hx
      cases hinner : f.lookup? name with
      | some slot =>
          simp only [hinner] at hx
          have hsite : (site limit ⟨[f], main⟩).slot? name = some slot :=
            hinner
          exact (Stack.Site.symbol?_of_inner hsite).trans hx
      | none =>
          simp only [hinner, List.any_nil] at hx
          obtain ⟨slot, hslot, rfl⟩ := Option.map_eq_some_iff.1 hx
          unfold Frame.lookup? at hslot
          rw [houter, List.findSome?_singleton] at hslot
          have hsite : (site limit ⟨[f], main⟩).slot? name = none := hinner
          rw [Stack.Site.symbol?_of_outer hsite]
          rw [hknown name slot hslot]
          rfl

/-- Giving a name a slot. -/
theorem Fits.declares (hwf : s.current.Wf)
    (h : (s.declare name).2.Fits roots limit) :
    Stack.Declares roots name (s.site limit) (s.declare name).1
      ((s.declare name).2.site limit) := by
  obtain ⟨_ | ⟨frame, frames⟩, main⟩ := s
  · have houter : (main.declare name).2.outer = main.outer :=
      (Frame.Grows.declare main name).outer
    cases h with
    | main hroom hknown hlater =>
        cases hmain : main.outer with
        | nil =>
            -- At the top of the program.
            rw [hmain] at houter
            have hroots := hknown name _ (by
              unfold Frame.root
              rw [houter]
              exact main.lookup_declare name)
            have hsite : ∀ f : Frame, f.outer = [] →
                (⟨[], f⟩ : Symbols).site limit = ⟨false, limit, []⟩ := by
              intro f hf
              unfold site Frame.tables current
              simp [inMain, hf]
            show Stack.Declares roots name ((⟨[], main⟩ : Symbols).site limit)
              _ ((⟨[], (main.declare name).2⟩ : Symbols).site limit)
            rw [hsite _ hmain, hsite _ houter]
            exact .top hroots rfl
        | cons t ts =>
            -- In a block of the main function.
            have hsite : ∀ f : Frame, f.outer = main.outer →
                (⟨[], f⟩ : Symbols).site limit =
                  ⟨false, limit, f.block :: main.outer.dropLast⟩ := by
              intro f hf
              unfold site Frame.tables current
              simp [inMain, hf, hmain]
            show Stack.Declares roots name ((⟨[], main⟩ : Symbols).site limit)
              _ ((⟨[], (main.declare name).2⟩ : Symbols).site limit)
            rw [hsite _ rfl, hsite _ houter]
            refine Frame.declares hwf ?_ hroom fun _ other slot hother => ?_
            · intro slot hslot
              obtain ⟨p, hp, rfl⟩ := List.mem_map.1 hslot
              obtain ⟨table, htable, hp⟩ := List.mem_flatten.1 hp
              exact List.mem_map_of_mem (List.mem_flatten_of_mem
                (List.mem_cons_of_mem _ (List.dropLast_subset _ htable)) hp)
            · refine (hlater other slot hother).imp_left fun hroot => ?_
              have hsame : (main.declare name).2.root = main.root := by
                unfold Frame.root
                rw [houter, hmain]
                rfl
              rw [hsame] at hroot
              exact hwf.bound slot (Frame.mem_taken_of_root hroot)
  · have houter : (frame.declare name).2.outer = frame.outer :=
      (Frame.Grows.declare frame name).outer
    cases h with
    | function hroom hmain hknown =>
        show Stack.Declares roots name ⟨true, limit, frame.tables⟩ _
          ⟨true, limit, (frame.declare name).2.tables⟩
        rw [Frame.tables, Frame.tables, houter]
        refine Frame.declares hwf (fun slot hslot => ?_) hroom
          (fun hown => nomatch hown)
        obtain ⟨p, hp, rfl⟩ := List.mem_map.1 hslot
        exact List.mem_map_of_mem (List.mem_append_right _ hp)

end Symbols

end Code

end Script
