/-
The symbol table on its own: whoever asks, and in whatever order, it is a
lexical environment. What has been declared and not been closed since is
kept here as a plain record of requests and their answers, and what the
table says of a name is what this record says. The record knows nothing of
slots. Blocks and functions that are closed as often as they are opened
leave every meaning as it was, and the slots of a function tell its
bindings apart, also those of blocks that other blocks hide.

Requests to close a block or a function that was never opened do nothing,
so that every sequence of requests has an answer.
-/
import Mathlib.Data.List.Nodup
import Script.Proofs.Lexical.Compiled

namespace Script.Code

-- ============================================================= requests

namespace Symbols

/-- What can be asked of a table. -/
inductive Request where
  | declare (name : String)
  | resolve (name : String)
  | openBlock
  | closeBlock
  | openFrame
  | closeFrame
deriving DecidableEq, Repr

/-- What comes back from a request. -/
inductive Answer where
  | declared (x : Symbol)
  | resolved (x : Option Symbol)
  /-- The names of the slots of a function that was closed. -/
  | slots (names : List String)
  | done
deriving DecidableEq, Repr

/-- The answer to a request, and the table behind it. -/
def answer (s : Symbols) : Request → Answer × Symbols
  | .declare name => (.declared (s.declare name).1, (s.declare name).2)
  | .resolve name => (.resolved (s.resolve? name), s)
  | .openBlock => (.done, s.openBlock)
  | .closeBlock => (.done, s.closeBlock)
  | .openFrame => (.done, s.openFrame)
  | .closeFrame => (.slots s.closeFrame.1, s.closeFrame.2)

/-- The table behind requests. -/
def behind (s : Symbols) (rs : List Request) : Symbols :=
  rs.foldl (fun s r => (s.answer r).2) s

/-- Requests with their answers. -/
def transcript (s : Symbols) : List Request → List (Request × Answer)
  | [] => []
  | r :: rs => (r, (s.answer r).1) :: (s.answer r).2.transcript rs

/-- All frames, from the inside out. -/
def frames (s : Symbols) : List Frame := s.inner ++ [s.main]

/-- Requests that close what they open and nothing else, with the names
that they declare outside of these blocks and functions. -/
inductive Balanced : List String → List Request → Prop
  | nil : Balanced [] []
  | declare {names : List String} {rs : List Request} (name : String)
      (h : Balanced names rs) : Balanced (name :: names) (.declare name :: rs)
  | resolve {names : List String} {rs : List Request} (name : String)
      (h : Balanced names rs) : Balanced names (.resolve name :: rs)
  | block {names inside : List String} {rs body : List Request}
      (hbody : Balanced inside body) (h : Balanced names rs) :
      Balanced names (.openBlock :: (body ++ .closeBlock :: rs))
  | function {names inside : List String} {rs body : List Request}
      (hbody : Balanced inside body) (h : Balanced names rs) :
      Balanced names (.openFrame :: (body ++ .closeFrame :: rs))

variable {s s' s'' : Symbols} {names : List String} {rs : List Request}

theorem behind_cons (s : Symbols) (r : Request) (rs : List Request) :
    s.behind (r :: rs) = (s.answer r).2.behind rs := rfl

theorem behind_append (s : Symbols) (rs qs : List Request) :
    s.behind (rs ++ qs) = (s.behind rs).behind qs :=
  List.foldl_append

-- ============================================================= balanced

/-- What becomes of a table when some names are declared in its innermost
block. -/
structure GrowsBy (names : List String) (s s' : Symbols) : Prop where
  grows : s.Grows s'
  others : ∀ name ∉ names,
    s'.current.block.lookup name = s.current.block.lookup name

theorem GrowsBy.refl (s : Symbols) : GrowsBy [] s s :=
  ⟨.refl s, fun _ _ => rfl⟩

theorem GrowsBy.trans {names' : List String} (h : GrowsBy names s s')
    (h' : GrowsBy names' s' s'') : GrowsBy (names ++ names') s s'' := by
  refine ⟨h.grows.trans h'.grows, fun name hname => ?_⟩
  rw [List.mem_append, not_or] at hname
  exact (h'.others name hname.2).trans (h.others name hname.1)

theorem GrowsBy.declare (s : Symbols) (name : String) :
    GrowsBy [name] s (s.declare name).2 := by
  refine ⟨.declare s name, fun other hother => ?_⟩
  rw [List.mem_singleton] at hother
  show (s.onCurrent _).current.block.lookup other = _
  rw [current_onCurrent]
  cases hname : s.current.block.lookup name with
  | some slot => rw [Frame.declare_of_some hname]
  | none =>
      rw [Frame.declare_of_none hname, List.lookup_cons,
        beq_eq_false_iff_ne.2 hother]

/-- A closed block leaves no name behind. -/
theorem GrowsBy.block (h : s.openBlock.Grows s') :
    GrowsBy [] s s'.closeBlock := by
  refine ⟨h.block, fun name _ => ?_⟩
  obtain ⟨f, hf, rfl⟩ := h
  rw [openBlock, current_onCurrent] at hf
  rw [closeBlock, current_onCurrent, current_onCurrent, hf.closeBlock_eq]

/-- What other names mean is not changed. -/
theorem GrowsBy.resolve?_eq (h : GrowsBy names s s') {name : String}
    (hname : name ∉ names) : s'.resolve? name = s.resolve? name := by
  have hblock := h.others name hname
  obtain ⟨f, hf, rfl⟩ := h.grows
  rw [current_onCurrent] at hblock
  have hlookup : f.lookup? name = s.current.lookup? name := by
    unfold Frame.lookup?
    rw [hf.outer, List.findSome?_cons, List.findSome?_cons, hblock]
  obtain ⟨_ | ⟨frame, around⟩, main⟩ := s
  · show (f.lookup? name).map Symbol.global = _
    rw [hlookup]
    rfl
  · show (⟨f :: around, main⟩ : Symbols).resolve? name = _
    unfold resolve?
    dsimp only
    rw [hlookup]
    rfl

theorem Balanced.growsBy (h : Balanced names rs) (s : Symbols) :
    GrowsBy names s (s.behind rs) := by
  induction h generalizing s with
  | nil => exact .refl s
  | declare name _ ih => exact (GrowsBy.declare s name).trans (ih _)
  | resolve name _ ih => exact ih s
  | @block names inside rs body _ _ ihbody ih =>
      rw [behind_cons, behind_append, behind_cons]
      exact (GrowsBy.block (ihbody s.openBlock).grows).trans (ih _)
  | @function names inside rs body _ _ ihbody ih =>
      rw [behind_cons, behind_append, behind_cons]
      have hclose : (s.openFrame.behind body).closeFrame.2 = s :=
        (ihbody s.openFrame).grows.closeFrame
      show GrowsBy names s ((s.openFrame.behind body).closeFrame.2.behind rs)
      rw [hclose]
      exact ih s

end Symbols

-- ========================================================= environments

/-- What stands in a record of declarations. -/
inductive Mark where
  /-- A name was declared, and this is what it was said to mean. -/
  | declared (name : String) (x : Symbol)
  /-- A block was opened. -/
  | block
deriving DecidableEq, Repr

namespace Mark

/-- The meaning that a name was declared with last. -/
def latest? (name : String) : List Mark → Option Symbol
  | [] => none
  | .declared other x :: ms => if name = other then some x else latest? name ms
  | .block :: ms => latest? name ms

/-- What was recorded in front of the innermost block. -/
def beforeBlock : List Mark → List Mark
  | [] => []
  | .declared .. :: ms => beforeBlock ms
  | .block :: ms => ms

/-- Without what was recorded since the innermost block was opened, if one
is open. -/
def leaveBlock (ms : List Mark) : List Mark :=
  if .block ∈ ms then beforeBlock ms else ms

end Mark

/-- The declarations that stand, each list with the latest one first. -/
structure Environment where
  /-- Those of the innermost function. -/
  current : List Mark
  /-- Those of the functions around it, from the inside out. The last one
  is the main function. -/
  around : List (List Mark)
deriving DecidableEq, Repr

namespace Environment

open Symbols (Request Answer)

/-- Nothing is declared. -/
def empty : Environment := ⟨[], []⟩

/-- Records a request with its answer. -/
def record (env : Environment) : Request × Answer → Environment
  | (.declare name, .declared x) =>
      { env with current := .declared name x :: env.current }
  | (.openBlock, _) => { env with current := .block :: env.current }
  | (.closeBlock, _) => { env with current := Mark.leaveBlock env.current }
  | (.openFrame, _) => ⟨[], env.current :: env.around⟩
  | (.closeFrame, _) =>
      match env.around with
      | [] => env
      | ms :: around => ⟨ms, around⟩
  | _ => env

/-- What stands behind requests with their answers. -/
def recordAll (env : Environment) (ts : List (Request × Answer)) :
    Environment :=
  ts.foldl record env

/-- What a name means: the innermost declaration in the function itself,
or else it is captured when one of the functions between it and the main
one has a declaration, or else the innermost one in the main function. -/
def meaning? (env : Environment) (name : String) : Option Symbol :=
  match Mark.latest? name env.current with
  | some x => some x
  | none =>
      if env.around.dropLast.any fun ms => (Mark.latest? name ms).isSome then
        some .captured
      else Mark.latest? name (env.around.getLastD [])

end Environment

-- =============================================== tables and environments

/-- A record of declarations that a frame keeps by its tables. -/
inductive Mark.Kept (mk : Nat → Symbol) : List Mark → Names → List Names → Prop
  | start : Kept mk [] [] []
  | block {ms : List Mark} {t : Names} {ts : List Names}
      (h : Kept mk ms t ts) : Kept mk (.block :: ms) [] (t :: ts)
  | declared {ms : List Mark} {t t' : Names} {ts : List Names}
      {name : String} {slot : Nat} (h : Kept mk ms t ts)
      (hname : t'.lookup name = some slot)
      (hothers : ∀ other, other ≠ name → t'.lookup other = t.lookup other) :
      Kept mk (.declared name (mk slot) :: ms) t' ts

namespace Mark.Kept

variable {mk : Nat → Symbol} {ms : List Mark} {f : Frame} {t : Names}
  {ts : List Names}

theorem latest?_eq (h : Kept mk ms t ts) (name : String) :
    latest? name ms = ((t :: ts).findSome? (·.lookup name)).map mk := by
  induction h with
  | start => rfl
  | block _ ih => exact ih
  | @declared ms t t' ts other slot _ hname hothers ih =>
      unfold latest?
      split
      case isTrue heq =>
          rw [heq, List.findSome?_cons, hname]
          rfl
      case isFalse hne =>
          rw [ih, List.findSome?_cons, List.findSome?_cons, hothers name hne]

theorem declare (h : Kept mk ms f.block f.outer) (name : String) :
    Kept mk (.declared name (mk (f.declare name).1) :: ms)
      (f.declare name).2.block (f.declare name).2.outer := by
  have houter := (Frame.Grows.declare f name).outer
  rw [houter]
  refine .declared h (f.lookup_declare name) fun other hother => ?_
  cases hname : f.block.lookup name with
  | some slot => rw [Frame.declare_of_some hname]
  | none =>
      rw [Frame.declare_of_none hname, List.lookup_cons,
        beq_eq_false_iff_ne.2 hother]

/-- The marks of blocks are as many as the blocks that can be closed. -/
theorem block_mem (h : Kept mk ms t ts) : .block ∈ ms ↔ ts ≠ [] := by
  induction h with
  | start => simp
  | block => simp
  | declared _ _ _ ih => simpa using ih

theorem beforeBlock {t' : Names} (h : Kept mk ms t (t' :: ts)) :
    Kept mk (beforeBlock ms) t' ts := by
  generalize htables : t' :: ts = tables at h
  induction h with
  | start => cases htables
  | block h _ =>
      obtain ⟨rfl, rfl⟩ := List.cons.inj htables
      exact h
  | declared _ _ _ ih => exact ih htables

theorem leaveBlock (h : Kept mk ms f.block f.outer) :
    Kept mk (leaveBlock ms) f.closeBlock.block f.closeBlock.outer := by
  obtain ⟨t, _ | ⟨t', ts⟩, slots⟩ := f
  · have hnone : .block ∉ ms := fun hmem => h.block_mem.1 hmem rfl
    rw [Mark.leaveBlock, if_neg hnone]
    exact h
  · have hblock : .block ∈ ms := h.block_mem.2 (List.cons_ne_nil _ _)
    rw [Mark.leaveBlock, if_pos hblock]
    exact h.beforeBlock

end Mark.Kept

namespace Environment

/-- A table that stands for the declarations of an environment. -/
inductive KeptBy : Environment → Symbols → Prop
  | main {ms : List Mark} {f : Frame}
      (h : Mark.Kept .global ms f.block f.outer) : KeptBy ⟨ms, []⟩ ⟨[], f⟩
  | function {ms current : List Mark} {around : List (List Mark)}
      {f main : Frame} {inner : List Frame}
      (h : Mark.Kept .own ms f.block f.outer)
      (haround : KeptBy ⟨current, around⟩ ⟨inner, main⟩) :
      KeptBy ⟨ms, current :: around⟩ ⟨f :: inner, main⟩

variable {env : Environment} {s : Symbols}

/-- The functions between the innermost one and the main one, and the main
one. -/
theorem KeptBy.around_eq (h : KeptBy env s) (name : String) :
    ((env.current :: env.around).dropLast.any fun ms =>
        (Mark.latest? name ms).isSome) =
      s.inner.any (fun f => (f.lookup? name).isSome)
    ∧ Mark.latest? name ((env.current :: env.around).getLastD []) =
      (s.main.lookup? name).map .global := by
  induction h with
  | main h => exact ⟨rfl, h.latest?_eq name⟩
  | @function ms current around f main inner h _ ih =>
      obtain ⟨hany, hlast⟩ := ih
      refine ⟨?_, hlast⟩
      rw [List.dropLast_cons_cons, List.any_cons, List.any_cons, hany,
        h.latest?_eq name, Option.isSome_map]
      rfl

theorem KeptBy.resolve?_eq (h : KeptBy env s) (name : String) :
    s.resolve? name = env.meaning? name := by
  unfold Symbols.resolve? meaning?
  cases h with
  | @main ms f h =>
      dsimp only
      rw [h.latest?_eq name]
      show (f.lookup? name).map Symbol.global
        = match (f.lookup? name).map Symbol.global with
          | some x => some x
          | none => none
      cases f.lookup? name <;> rfl
  | @function ms current around f main inner h haround =>
      obtain ⟨hany, hlast⟩ := haround.around_eq name
      dsimp only at hany hlast ⊢
      rw [h.latest?_eq name, hany, hlast]
      show _ = match (f.lookup? name).map Symbol.own with
        | some x => some x
        | none => _
      cases f.lookup? name <;> rfl

/-- One request more. -/
theorem KeptBy.answer (h : KeptBy env s) (r : Symbols.Request) :
    KeptBy (env.record (r, (s.answer r).1)) (s.answer r).2 := by
  cases r with
  | declare name =>
      cases h with
      | main h => exact .main (h.declare name)
      | function h haround => exact .function (h.declare name) haround
  | resolve name => exact h
  | openBlock =>
      cases h with
      | main h => exact .main (.block h)
      | function h haround => exact .function (.block h) haround
  | closeBlock =>
      cases h with
      | main h => exact .main h.leaveBlock
      | function h haround => exact .function h.leaveBlock haround
  | openFrame => exact .function .start h
  | closeFrame =>
      cases h with
      | main h => exact .main h
      | function _ haround => exact haround

theorem KeptBy.behind (h : KeptBy env s) (rs : List Symbols.Request) :
    KeptBy (env.recordAll (s.transcript rs)) (s.behind rs) := by
  induction rs generalizing env s with
  | nil => exact h
  | cons r rs ih => exact ih (h.answer r)

theorem KeptBy.empty : KeptBy .empty .empty := .main .start

end Environment

-- ================================================================ slots

namespace Frame

variable {f : Frame} {name name' : String} {slot k k' : Nat}

/-- A name with its slot in one of the open blocks, which are counted from
the inside out. -/
def Binds (f : Frame) (k : Nat) (name : String) (slot : Nat) : Prop :=
  ∃ t, f.tables[k]? = some t ∧ t.lookup name = some slot

/-- Slots tell the bindings of a frame apart and know their names. -/
structure Faithful (f : Frame) : Prop where
  apart : ∀ {k k' : Nat} {name name' : String} {slot : Nat},
    f.Binds k name slot → f.Binds k' name' slot → k = k' ∧ name = name'
  below : ∀ {k : Nat} {name : String} {slot : Nat},
    f.Binds k name slot → slot < f.slots.length
  named : ∀ {k : Nat} {name : String} {slot : Nat},
    f.Binds k name slot → f.slots[slot]? = some name

/-- Whether the slots that tables give to names are called by them. -/
def Named (f : Frame) : Prop :=
  ∀ p ∈ f.tables.flatten, f.slots[p.2]? = some p.1

theorem Binds.mem (h : f.Binds k name slot) :
    ∃ t, f.tables[k]? = some t ∧ (name, slot) ∈ t := by
  obtain ⟨t, ht, hname⟩ := h
  obtain ⟨l, r, rfl, -⟩ := List.lookup_eq_some_iff.1 hname
  exact ⟨_, ht, List.mem_append_right _ List.mem_cons_self⟩

theorem Binds.mem_flatten (h : f.Binds k name slot) :
    (name, slot) ∈ f.tables.flatten := by
  obtain ⟨t, ht, hmem⟩ := h.mem
  exact List.mem_flatten_of_mem (List.mem_of_getElem? ht) hmem

/-- Blocks have no slot in common. -/
theorem Wf.apart (h : f.Wf) (hk : f.Binds k name slot)
    (hk' : f.Binds k' name' slot) : ¬ k < k' := by
  have hnodup : (f.tables.map (·.map (·.2))).flatten.Nodup := by
    rw [← List.map_flatten]
    exact h.nodup
  have hdisjoint := (List.nodup_flatten.1 hnodup).2
  rw [List.pairwise_map, List.pairwise_iff_getElem] at hdisjoint
  obtain ⟨t, ht, hmem⟩ := hk.mem
  obtain ⟨t', ht', hmem'⟩ := hk'.mem
  obtain ⟨hlt, rfl⟩ := List.getElem?_eq_some_iff.1 ht
  obtain ⟨hlt', rfl⟩ := List.getElem?_eq_some_iff.1 ht'
  have hslot : slot ∈ f.tables[k].map (·.2) :=
    List.mem_map.2 ⟨_, hmem, rfl⟩
  have hslot' : slot ∈ f.tables[k'].map (·.2) :=
    List.mem_map.2 ⟨_, hmem', rfl⟩
  exact fun hkk => hdisjoint k k' hlt hlt' hkk hslot hslot'

theorem Wf.faithful (h : f.Wf) (hnamed : f.Named) : f.Faithful where
  apart hk hk' := by
    refine ⟨?_, ?_⟩
    · exact Nat.le_antisymm (Nat.not_lt.1 (h.apart hk' hk))
        (Nat.not_lt.1 (h.apart hk hk'))
    · have hname := hnamed _ hk.mem_flatten
      rw [hnamed _ hk'.mem_flatten] at hname
      exact (Option.some.inj hname).symm
  below hk := h.bound _ (List.mem_map.2 ⟨_, hk.mem_flatten, rfl⟩)
  named hk := hnamed _ hk.mem_flatten

theorem Named.declare (h : f.Named) (hwf : f.Wf) (name : String) :
    (f.declare name).2.Named := by
  cases hname : f.block.lookup name with
  | some slot =>
      rw [declare_of_some hname]
      exact h
  | none =>
      rw [declare_of_none hname]
      intro p hp
      rcases List.mem_cons.1 hp with rfl | hp
      · exact List.getElem?_concat_length
      · have hlt := hwf.bound p.2 (List.mem_map_of_mem hp)
        rw [List.getElem?_append_left hlt]
        exact h p hp

theorem Named.closeBlock (h : f.Named) : f.closeBlock.Named := by
  obtain ⟨ts, hts⟩ := f.closeBlock_tables_suffix
  intro p hp
  rw [closeBlock_slots]
  refine h p ?_
  rw [← hts, List.flatten_append]
  exact List.mem_append_right _ hp

/-- What every frame of a table is. -/
structure Sound (f : Frame) : Prop where
  wf : f.Wf
  named : f.Named

theorem Sound.empty : Frame.empty.Sound :=
  ⟨.empty, fun _ h => nomatch h⟩

theorem Sound.declare (h : f.Sound) (name : String) :
    (f.declare name).2.Sound :=
  ⟨h.wf.declare name, h.named.declare h.wf name⟩

theorem Sound.openBlock (h : f.Sound) : f.openBlock.Sound :=
  ⟨h.wf.openBlock, h.named⟩

theorem Sound.closeBlock (h : f.Sound) : f.closeBlock.Sound :=
  ⟨h.wf.closeBlock, h.named.closeBlock⟩

end Frame

namespace Symbols

variable {s : Symbols}

theorem onCurrent_sound (h : ∀ f ∈ s.frames, f.Sound) {g : Frame → Frame}
    (hg : ∀ f : Frame, f.Sound → (g f).Sound) :
    ∀ f ∈ (s.onCurrent g).frames, f.Sound := by
  obtain ⟨_ | ⟨frame, inner⟩, main⟩ := s
  · obtain ⟨hmain, hnil⟩ := List.forall_mem_cons.1 h
    exact List.forall_mem_cons.2 ⟨hg main hmain, hnil⟩
  · obtain ⟨hframe, hinner⟩ := List.forall_mem_cons.1 h
    exact List.forall_mem_cons.2 ⟨hg frame hframe, hinner⟩

theorem answer_sound (h : ∀ f ∈ s.frames, f.Sound) (r : Request) :
    ∀ f ∈ (s.answer r).2.frames, f.Sound := by
  cases r with
  | declare name => exact onCurrent_sound h fun f hf => hf.declare name
  | resolve name => exact h
  | openBlock => exact onCurrent_sound h fun f hf => hf.openBlock
  | closeBlock => exact onCurrent_sound h fun f hf => hf.closeBlock
  | openFrame => exact List.forall_mem_cons.2 ⟨.empty, h⟩
  | closeFrame =>
      obtain ⟨_ | ⟨frame, inner⟩, main⟩ := s
      · exact h
      · exact (List.forall_mem_cons.1 h).2

theorem behind_sound (h : ∀ f ∈ s.frames, f.Sound) (rs : List Request) :
    ∀ f ∈ (s.behind rs).frames, f.Sound := by
  induction rs generalizing s with
  | nil => exact h
  | cons r rs ih => exact ih (answer_sound h r)

theorem empty_sound : ∀ f ∈ Symbols.empty.frames, f.Sound :=
  List.forall_mem_singleton.2 .empty

/-- The table is a lexical environment, whatever was asked of it before.
Requests that close what they open change no meaning, except of names that
they declare outside of that. A name means what the declarations that
stand make of it. Slots tell the bindings of a function apart. -/
theorem behind_lexical (rs : List Request) :
    (∀ names qs, Balanced names qs → ∀ name ∉ names,
        (empty.behind (rs ++ qs)).resolve? name =
          (empty.behind rs).resolve? name)
      ∧ (∀ name, (empty.behind rs).resolve? name =
          (Environment.empty.recordAll (empty.transcript rs)).meaning? name)
      ∧ ∀ f ∈ (empty.behind rs).frames, f.Faithful := by
  refine ⟨fun names qs hqs name hname => ?_, fun name => ?_, fun f hf => ?_⟩
  · rw [behind_append]
    exact (hqs.growsBy _).resolve?_eq hname
  · exact (Environment.KeptBy.empty.behind rs).resolve?_eq name
  · have hsound := behind_sound empty_sound rs f hf
    exact hsound.wf.faithful hsound.named

/-- A function within a function declares a name anew, and after it the
name is again that of the function around it. -/
theorem behind_lexical_inner :
    Balanced [] [.openFrame, .declare "a", .resolve "a", .closeFrame]
      ∧ "a" ∉ ([] : List String)
      ∧ (empty.behind ([.declare "g", .openFrame, .declare "a"]
        ++ [.openFrame, .declare "a", .resolve "a", .closeFrame])).resolve?
          "a" = some (.own 0) := by
  have hbalanced :
      Balanced [] [.openFrame, .declare "a", .resolve "a", .closeFrame] :=
    .function (.declare "a" (.resolve "a" .nil)) .nil
  refine ⟨hbalanced, List.not_mem_nil, ?_⟩
  rw [(behind_lexical [.declare "g", .openFrame, .declare "a"]).1 [] _
    hbalanced "a" List.not_mem_nil]
  decide

end Symbols

end Script.Code
