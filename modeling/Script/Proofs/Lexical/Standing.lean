/-
The symbol table at a place against the levels there. The compiler keeps
the blocks of every open function in the frame of this function; the
levels are the same blocks in one row. So a name means the same to both,
except that code can not reach a variable of a function in between, and
then there is no code for the program at all.
-/
import Script.Proofs.Lexical.Compiled
import Script.Proofs.Lexical.Levels
import Script.Proofs.Lexical.Spans

namespace Script.Lexical

open Code

-- ============================================================ variables

/-- The variable of a slot of a function; of the main one if there is
none. -/
def variableOf (owner : Option Span) (slot : Nat) : Variable :=
  match owner with
  | none => .global slot
  | some f => .own f slot

theorem variable_eq (h : Home) (slot : Nat) :
    h.variable slot = variableOf h.owner slot := rfl

theorem meaning?_append (ls ms : List Level) (name : String) :
    meaning? (ls ++ ms) name = (meaning? ls name).or (meaning? ms name) :=
  List.findSome?_append

/-- What a name means to blocks of one function. -/
theorem meaning?_owned {owner : Option Span} {ls : List Level}
    (h : ∀ l ∈ ls, l.home.owner = owner) (name : String) :
    meaning? ls name =
      ((ls.map (·.table)).findSome? (·.lookup name)).map
        (variableOf owner) := by
  induction ls with
  | nil => rfl
  | cons l ls ih =>
      have ih' := ih fun l' hl' => h l' (List.mem_cons_of_mem _ hl')
      unfold meaning? at ih' ⊢
      rw [List.findSome?_cons, List.map_cons, List.findSome?_cons]
      cases hname : l.table.lookup name with
      | none => exact ih'
      | some slot =>
          show some (l.home.variable slot) = some (variableOf owner slot)
          rw [variable_eq, h l (List.mem_cons_self ..)]

/-- Blocks that do not have a name do not say what it means. -/
theorem meaning?_none {ls : List Level} {name : String}
    (h : ∀ l ∈ ls, l.table.lookup name = none) :
    meaning? ls name = none :=
  List.findSome?_eq_none_iff.2 fun l hl => by
    rw [h l hl]
    rfl

-- =============================================================== tables

/-- Whether names have their slots in another table as well. -/
def Part (t t' : Names) : Prop :=
  ∀ name slot, t.lookup name = some slot → t'.lookup name = some slot

theorem Part.refl (t : Names) : Part t t := fun _ _ h => h

theorem Part.trans {t t' t'' : Names} (h : Part t t') (h' : Part t' t'') :
    Part t t'' := fun name slot hslot => h' name slot (h name slot hslot)

theorem part_of_grows {s s' : Symbols} (h : s.Grows s') :
    Part s.current.block s'.current.block := by
  obtain ⟨f, hf, rfl⟩ := h
  rw [Symbols.current_onCurrent]
  exact hf.keeps

/-- A name that was declared is in the table. -/
theorem lookup_declared (s : Symbols) (name : String) :
    (s.declare name).2.current.block.lookup name =
      some (s.current.declare name).1 := by
  unfold Symbols.declare
  rw [Symbols.current_onCurrent]
  exact s.current.lookup_declare name

/-- The other names are as they were. -/
theorem lookup_beside (s : Symbols) {name other : String}
    (h : other ≠ name) :
    (s.declare name).2.current.block.lookup other =
      s.current.block.lookup other := by
  unfold Symbols.declare
  rw [Symbols.current_onCurrent]
  cases hname : s.current.block.lookup name with
  | some slot => rw [Frame.declare_of_some hname]
  | none =>
      rw [Frame.declare_of_none hname, List.lookup_cons,
        beq_false_of_ne h]

theorem declareAll_has {xs : List Ident} (s : Symbols) {x : Ident}
    (hx : x ∈ xs) :
    ((declareAll s xs).current.block.lookup x.name).isSome := by
  induction xs generalizing s with
  | nil => cases hx
  | cons y ys ih =>
      rcases List.mem_cons.1 hx with rfl | hx
      · have hpart := part_of_grows
          (declareAll_grows (s.declare x.name).2 ys)
        exact Option.isSome_of_eq_some
          (hpart _ _ (lookup_declared s x.name))
      · exact ih _ hx

-- =============================================================== places

/-- The blocks around the function at a place: there are none in the main
one; in another, those of the functions in between come first, and those
of the main function last. -/
inductive Surrounds : Option Span → Symbols → List Level → Prop
  | main {main : Frame} : Surrounds none ⟨[], main⟩ []
  | function {f : Span} {frame main : Frame} {frames : List Frame}
      {ls ms : List Level}
      (hls : ls.map (·.table) = frames.flatMap Frame.tables)
      (hms : ms.map (·.table) = main.tables)
      (howner : ∀ m ∈ ms, m.home.owner = none) :
      Surrounds (some f) ⟨frame :: frames, main⟩ (ls ++ ms)

/-- A place in a function, by its levels and by the symbol table. -/
structure Stands (E : Env) (fn : Option Span) (s : Symbols) : Prop where
  tables : (E.here :: E.own).map (·.table) = s.current.tables
  owned : ∀ l ∈ E.here :: E.own, l.home.owner = fn
  around : Surrounds fn s E.around

section

variable {E : Env} {fn : Option Span} {s s' : Symbols}

theorem Stands.here (h : Stands E fn s) :
    E.here.table = s.current.block := (List.cons.inj h.tables).1

/-- A name with a variable has the same meaning to the levels. -/
theorem Stands.meaning {x : Ident} {v : Variable} (h : Stands E fn s)
    (hv : (useNote fn s x).2 = some v) :
    meaning? E.levels x.name = some v := by
  obtain ⟨symbol, hx, hsymbol⟩ := Option.bind_eq_some_iff.1 hv
  show meaning? ((E.here :: E.own) ++ E.around) x.name = some v
  rw [meaning?_append, meaning?_owned h.owned, h.tables]
  obtain ⟨htables, howned, haround⟩ := h
  generalize E.around = around at haround ⊢
  cases haround with
  | @main main =>
      obtain ⟨slot, hslot, rfl⟩ := Option.map_eq_some_iff.1 hx
      cases hsymbol
      change main.lookup? x.name = some slot at hslot
      show Option.or ((main.lookup? x.name).map _) none = _
      rw [hslot]
      rfl
  | @function f frame main frames ls ms hls hms howner =>
      show Option.or ((frame.lookup? x.name).map _) _ = _
      unfold Symbols.resolve? at hx
      cases hown : frame.lookup? x.name with
      | some slot =>
          simp only [hown] at hx
          cases hx
          cases hsymbol
          rfl
      | none =>
          simp only [hown] at hx
          by_cases hany : frames.any fun f => (f.lookup? x.name).isSome
          · -- A name of a function in between has no variable.
            rw [if_pos hany] at hx
            cases hx
            cases hsymbol
          · rw [if_neg hany] at hx
            obtain ⟨slot, hslot, rfl⟩ := Option.map_eq_some_iff.1 hx
            cases hsymbol
            have hbetween : meaning? ls x.name = none := by
              refine meaning?_none fun l hl => ?_
              have htable : l.table ∈ frames.flatMap Frame.tables :=
                hls ▸ List.mem_map_of_mem hl
              obtain ⟨f', hf', hl'⟩ := List.mem_flatMap.1 htable
              cases hname : l.table.lookup x.name with
              | none => rfl
              | some slot' =>
                  refine (hany (List.any_eq_true.2 ⟨f', hf', ?_⟩)).elim
                  exact List.findSome?_isSome_iff.2
                    ⟨_, hl', Option.isSome_of_eq_some hname⟩
            rw [Option.map_none, Option.none_or, meaning?_append,
              hbetween, Option.none_or, meaning?_owned howner, hms]
            exact congrArg (Option.map _) hslot

/-- Further on in the same block. -/
theorem Stands.grows (h : Stands E fn s) (hgrows : s.Grows s') :
    Stands (E.knowing s'.current.block) fn s' := by
  obtain ⟨f, hf, rfl⟩ := hgrows
  obtain ⟨htables, howned, haround⟩ := h
  have hown := (List.cons.inj htables).2
  refine ⟨?_, ?_, ?_⟩
  · show _ :: E.own.map (·.table) = _
    rw [hown, Symbols.current_onCurrent, ← hf.outer]
    rfl
  · exact List.forall_mem_cons.2 (List.forall_mem_cons.1 howned)
  · show Surrounds fn _ E.around
    generalize E.around = around at haround
    cases haround with
    | main => exact .main
    | function hls hms howner => exact .function hls hms howner

/-- At the beginning of a block. -/
theorem Stands.openBlock {home : Home} (h : Stands E fn s)
    (hhome : home.owner = fn) : Stands (E.openBlock home) fn s.openBlock := by
  refine ⟨?_, List.forall_mem_cons.2 ⟨hhome, h.owned⟩, ?_⟩
  · unfold Symbols.openBlock
    rw [Symbols.current_onCurrent]
    exact congrArg ([] :: ·) h.tables
  · obtain ⟨-, -, haround⟩ := h
    show Surrounds fn _ E.around
    generalize E.around = around at haround
    cases haround with
    | main => exact .main
    | function hls hms howner => exact .function hls hms howner

/-- At the beginning of a function. -/
theorem Stands.openFunction {home : Home} {f : Span} (h : Stands E fn s)
    (hhome : home.owner = some f) :
    Stands (E.openFunction home) (some f) s.openFrame := by
  refine ⟨rfl, List.forall_mem_singleton.2 hhome, ?_⟩
  obtain ⟨htables, howned, haround⟩ := h
  show Surrounds (some f) _ ((E.here :: E.own) ++ E.around)
  generalize E.around = around at haround
  cases haround with
  | main =>
      have hnone : ([] : List Level).map (·.table) =
          ([] : List Frame).flatMap Frame.tables := rfl
      rw [List.append_nil]
      exact .function hnone htables howned
  | @function f' frame main frames ls ms hls hms howner =>
      rw [← List.append_assoc]
      refine .function ?_ hms howner
      rw [List.map_append, htables, hls]
      rfl

theorem Stands.known (h : Stands E fn s) : fn.isSome = !s.inMain := by
  obtain ⟨-, -, haround⟩ := h
  generalize E.around = around at haround
  cases haround with
  | main => rfl
  | function hls hms howner => rfl

end

-- ================================================================ notes

/-- Whether the notes of a program settle it: every name has a variable,
and it has only one. -/
def Settled (p : Program) : Prop :=
  ∀ n ∈ p.notes, ∃ v, n.2 = some v ∧ p.variableAt n.1 = some v

theorem settled_of_known {p : Program} (hkeys : p.notes.keys.Nodup)
    (hknown : Known p.notes) : Settled p := by
  intro n hn
  obtain ⟨v, hv⟩ := Option.isSome_iff_exists.1 (hknown n hn)
  have hmem : (n.1, some v) ∈ p.notes := by
    rw [← hv]
    exact hn
  exact ⟨v, hv, Program.variableAt_of_mem hkeys hmem⟩

variable {p : Program} {E : Env} {fn : Option Span} {s : Symbols}

/-- A declaration that was noted is one of the block. -/
theorem Stands.makes {x : Ident} (hp : Settled p) (h : Stands E fn s)
    (hnote : makeNote fn s x ∈ p.notes) (hlisted : x ∈ E.here.home.declared)
    (hend : Part (s.declare x.name).2.current.block E.here.home.table) :
    Makes p E.here x (s.declare x.name).2.current.block := by
  refine ⟨hlisted, (s.current.declare x.name).1,
    hend _ _ (lookup_declared s x.name), ?_, fun name => ?_⟩
  · obtain ⟨v, hv, hat⟩ := hp _ hnote
    refine hat.trans (Eq.trans hv.symm ?_)
    have howner := h.owned E.here (List.mem_cons_self ..)
    have hin := h.known
    rw [variable_eq, howner]
    unfold makeNote Symbols.declare
    cases hmain : s.inMain with
    | true =>
        rw [hmain] at hin
        obtain rfl := Option.isNone_iff_eq_none.1
          (Option.isSome_eq_false_iff.1 hin)
        rfl
    | false =>
        rw [hmain] at hin
        obtain ⟨f, rfl⟩ := Option.isSome_iff_exists.1 hin
        rfl
  · by_cases hname : name = x.name
    · rw [if_pos hname, hname]
      exact lookup_declared s x.name
    · rw [if_neg hname, h.here]
      exact lookup_beside s hname

/-- Declarations one after the other. -/
theorem Stands.makesAll {xs : List Ident} (hp : Settled p)
    (h : Stands E fn s) (hnotes : makeNotes fn s xs ⊆ p.notes)
    (hlisted : xs ⊆ E.here.home.declared)
    (hend : Part (declareAll s xs).current.block E.here.home.table) :
    MakesAll p E.here xs (declareAll s xs).current.block := by
  induction xs generalizing E s with
  | nil =>
      rw [show (declareAll s []).current.block = E.here.table from
        h.here.symm]
      exact .nil
  | cons x xs ih =>
      obtain ⟨hnote, hnotes⟩ := List.cons_subset.1 hnotes
      obtain ⟨hx, hxs⟩ := List.cons_subset.1 hlisted
      have hpart := part_of_grows
        (declareAll_grows (s.declare x.name).2 xs)
      have hmakes := h.makes hp hnote hx (hpart.trans hend)
      exact .cons hmakes (ih (h.grows (.declare s x.name)) hnotes hxs hend)

/-- All names of an expression that were noted mean what the notes say. -/
theorem Stands.exprNamed {e : Expr} (hp : Settled p) (h : Stands E fn s)
    (hnotes : e.used.map (useNote fn s) ⊆ p.notes)
    (haround : ∀ l ∈ E.around, e.used ⊆ l.enclosed) : ExprNamed p E e := by
  intro x hx
  obtain ⟨v, hv, hat⟩ := hp _ (hnotes (List.mem_map_of_mem hx))
  exact ⟨⟨v, hat, h.meaning hv⟩, fun l hl => haround l hl hx⟩

end Script.Lexical
