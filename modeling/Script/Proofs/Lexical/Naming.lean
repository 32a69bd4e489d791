/-
A program with code is well named: the passage of the compiler goes through
the same places as the relations do, and what it notes of a name is what
the levels say. The induction is on the tree. Going into a block or a
function adds a level, going past a statement adds its names to the
innermost one; what is known of the levels around holds for all of a
statement or block and so for its parts.
-/
import Script.Proofs.Grammar.Shape
import Script.Proofs.Lexical.Standing

namespace Script

open Code Lexical

-- ============================================================ statements

theorem Stmt.declared?_of_isElse {t : Stmt} (h : t.isElse = true) :
    t.declared? = none := by
  cases t <;> first | rfl | cases h

/-- A block leaves the table around it as it was. -/
theorem Block.after_block (b : Block) (s : Symbols) :
    (b.after s).current.block = s.current.block := by
  obtain ⟨ss, span⟩ := b
  obtain ⟨f, hf, hs⟩ := stmtsAfter_grows ss s.openBlock
  show (stmtsAfter s.openBlock ss).closeBlock.current.block = _
  rw [hs]
  unfold Symbols.closeBlock Symbols.openBlock
  rw [Symbols.onCurrent_onCurrent, Symbols.onCurrent_onCurrent,
    Symbols.current_onCurrent]
  unfold Symbols.openBlock at hf
  rw [Symbols.current_onCurrent] at hf
  show f.closeBlock.block = _
  rw [hf.closeBlock_eq]

/-- A statement that declares nothing leaves the table of its block. -/
theorem Stmt.after_block : ∀ (t : Stmt), t.isBraced = true →
    t.declared? = none → ∀ s : Symbols,
      (t.after s).current.block = s.current.block
  | .block b, _, _, s => b.after_block s
  | .branch _ _ b none, _, _, s => b.after_block s
  | .branch _ _ b (some t), h, _, s => by
      obtain ⟨-, helse⟩ := Bool.and_eq_true_iff.1 h
      obtain ⟨ht, hbraced⟩ := Bool.and_eq_true_iff.1 helse
      exact (t.after_block hbraced (Stmt.declared?_of_isElse ht) _).trans
        (b.after_block s)
  | .loop _ _ b, _, _, s => b.after_block s
  | .expression .., _, _, _ => rfl
  | .giveBack .., _, _, _ => rfl
  | .print .., _, _, _ => rfl
  | .empty _, _, _, _ => rfl
  | .declare .., _, h, _ => nomatch h
  | .function _, _, h, _ => nomatch h

/-- What a statement declares is in the table behind it. -/
theorem Stmt.after_has (t : Stmt) (s : Symbols) :
    ∀ x ∈ t.declared?, ((t.after s).current.block.lookup x.name).isSome := by
  intro x hx
  cases t with
  | declare span y init =>
      cases hx
      exact Option.isSome_of_eq_some (lookup_declared s _)
  | function d =>
      cases hx
      exact Option.isSome_of_eq_some (lookup_declared s _)
  | _ => cases hx

theorem stmtsBodies_mem {ts : List Stmt} {t : Stmt} (ht : t ∈ ts) :
    t.bodies ⊆ stmtsBodies ts := by
  induction ts with
  | nil => cases ht
  | cons t' ts ih =>
      rcases List.mem_cons.1 ht with rfl | ht
      · exact List.subset_append_left ..
      · exact List.Subset.trans (ih ht) (List.subset_append_right ..)

theorem stmtsBodies_filter (f : Stmt → Bool) (ts : List Stmt) :
    stmtsBodies (ts.filter f) ⊆ stmtsBodies ts := by
  induction ts with
  | nil => exact List.Subset.refl _
  | cons t ts ih =>
      rw [List.filter_cons]
      split
      · exact List.append_subset.2 ⟨List.subset_append_left ..,
          List.Subset.trans ih (List.subset_append_right ..)⟩
      · exact List.Subset.trans ih (List.subset_append_right ..)

theorem stmtsAreBraced_iff {ts : List Stmt} :
    stmtsAreBraced ts = true ↔ ∀ t ∈ ts, t.isBraced = true := by
  induction ts with
  | nil => exact ⟨fun _ _ h => absurd h List.not_mem_nil, fun _ => rfl⟩
  | cons t ts ih =>
      rw [List.forall_mem_cons, ← ih]
      exact Bool.and_eq_true_iff

end Script

namespace Script.Lexical

open Code

variable {p : Program} {E : Env} {fn : Option Span} {s s' : Symbols}

-- ================================================================ places

/-- What is known where a piece of a program stands: its names used, those
of them in functions, its notes, and the blocks in it. -/
structure Nests (p : Program) (E : Env) (fn : Option Span) (s : Symbols)
    (used enclosed : List Ident) (notes : Notes) (bodies : List Body) :
    Prop where
  stands : Stands E fn s
  own : ∀ l ∈ E.own, l.Placed p ∧ enclosed ⊆ l.enclosed
  around : ∀ l ∈ E.around, l.Placed p ∧ used ⊆ l.enclosed
  notes : notes ⊆ p.notes
  bodies : bodies ⊆ stmtsBodies p.statements

/-- What is known where a statement stands. -/
structure Passing (p : Program) (E : Env) (fn : Option Span) (s : Symbols)
    (t : Stmt) : Prop where
  nests : Nests p E fn s t.used t.enclosed (t.notes fn s) t.bodies
  braced : t.isBraced = true
  here : t.enclosed ⊆ E.here.enclosed
  placed : (E.knowing (t.after s).current.block).here.Placed p
  listed : ∀ x ∈ t.declared?, x ∈ E.here.home.declared
  ends : Part (t.after s).current.block E.here.home.table

/-- What is known of a block that comes to statements. -/
structure Coming (p : Program) (l : Level) (ts : List Stmt) : Prop where
  known : l.ahead = false
  body : l.home.top = false → ∃ b ∈ stmtsBodies p.statements, ∃ before,
    b.statements = before ++ ts ∧ l.home.declared = b.declared
      ∧ ∀ z ∈ b.params ++ declaredIn before,
        (l.table.lookup z.name).isSome

section

variable {used enclosed used' enclosed' : List Ident} {ns ns' : Notes}
  {bs bs' : List Body}

/-- A part of a piece, at the same place. -/
theorem Nests.part (h : Nests p E fn s used enclosed ns bs)
    (hstands : Stands E fn s') (hused : used' ⊆ used)
    (henclosed : enclosed' ⊆ enclosed) (hns : ns' ⊆ ns) (hbs : bs' ⊆ bs) :
    Nests p E fn s' used' enclosed' ns' bs' where
  stands := hstands
  own l hl := ⟨(h.own l hl).1, List.Subset.trans henclosed (h.own l hl).2⟩
  around l hl :=
    ⟨(h.around l hl).1, List.Subset.trans hused (h.around l hl).2⟩
  notes := List.Subset.trans hns h.notes
  bodies := List.Subset.trans hbs h.bodies

/-- An expression of the piece. -/
theorem Nests.expr (h : Nests p E fn s used enclosed ns bs)
    (hp : Settled p) {e : Expr} (hused : e.used ⊆ used)
    (hns : e.used.map (useNote fn s) ⊆ ns) : ExprNamed p E e :=
  h.stands.exprNamed hp (List.Subset.trans hns h.notes) fun l hl =>
    List.Subset.trans hused (h.around l hl).2

theorem Stands.behindBlock (h : Stands E fn s) (b : Block) :
    Stands E fn (b.after s) := by
  have hgrows := h.grows (b.after_grows s)
  rw [b.after_block, ← h.here] at hgrows
  exact hgrows

theorem Stands.running (h : Stands E fn s) (t : Stmt) :
    Stands (E.running t) fn s :=
  ⟨h.tables, List.forall_mem_cons.2 (List.forall_mem_cons.1 h.owned),
    h.around⟩

/-- The same piece, when the block has come to a statement. -/
theorem Nests.running (h : Nests p E fn s used enclosed ns bs) (t : Stmt) :
    Nests p (E.running t) fn s used enclosed ns bs :=
  ⟨h.stands.running t, h.own, h.around, h.notes, h.bodies⟩

/-- The same piece, further on in the block. -/
theorem Nests.grows (h : Nests p E fn s used enclosed ns bs)
    (hgrows : s.Grows s') :
    Nests p (E.knowing s'.current.block) fn s' used enclosed ns bs :=
  ⟨h.stands.grows hgrows, h.own, h.around, h.notes, h.bodies⟩

/-- A block of the piece. -/
theorem Nests.openBlock {home : Home}
    (h : Nests p E fn s used enclosed ns bs) (hhome : home.owner = fn)
    (hhere : E.here.Placed p ∧ enclosed ⊆ E.here.enclosed) :
    Nests p (E.openBlock home) fn s.openBlock used enclosed ns bs :=
  ⟨h.stands.openBlock hhome, List.forall_mem_cons.2 ⟨hhere, h.own⟩,
    h.around, h.notes, h.bodies⟩

end

section

variable {t : Stmt}

/-- A statement that declares nothing. -/
theorem Passing.block_eq (h : Passing p E fn s t)
    (ht : t.declared? = none) : (t.after s).current.block = E.here.table :=
  (t.after_block h.braced ht s).trans h.nests.stands.here.symm

theorem Passing.still (h : Passing p E fn s t) (ht : t.declared? = none)
    (hs : StmtNamed p E t E.here.table) :
    StmtNamed p E t (t.after s).current.block := by
  rw [h.block_eq ht]
  exact hs

theorem Passing.here_placed (h : Passing p E fn s t)
    (ht : t.declared? = none) : E.here.Placed p := by
  have hplaced := h.placed
  rw [h.block_eq ht] at hplaced
  exact hplaced

/-- All blocks at the place of a function have come to it. -/
theorem Passing.levels {d : FnDecl}
    (h : Passing p E fn s (.function d)) :
    ∀ l ∈ (E.knowing (s.declare d.name.name).2.current.block).levels,
      l.Placed p ∧ d.used ⊆ l.enclosed :=
  List.forall_mem_cons.2 ⟨⟨h.placed, h.here⟩,
    List.forall_mem_append.2 ⟨h.nests.own, h.nests.around⟩⟩

section

variable {span : Span} {cond : Expr} {b : Block} {e : Option Stmt}

theorem Passing.condition (h : Passing p E fn s (.branch span cond b e))
    (hp : Settled p) : ExprNamed p E cond :=
  h.nests.expr hp (List.subset_append_left ..) (List.subset_append_left ..)

/-- The block behind a condition stands where the statement does. -/
theorem Passing.thenPart (h : Passing p E fn s (.branch span cond b e)) :
    Nests p E fn s b.used b.enclosed (b.notes fn s) b.bodies
      ∧ b.enclosed ⊆ E.here.enclosed := by
  have henclosed : b.enclosed ⊆ (Stmt.branch span cond b e).enclosed :=
    List.subset_append_left ..
  refine ⟨h.nests.part h.nests.stands ?_ henclosed ?_
    (List.subset_append_left ..), List.Subset.trans henclosed h.here⟩
  · exact List.subset_append_of_subset_right _ (List.subset_append_left ..)
  · exact List.subset_append_of_subset_right _ (List.subset_append_left ..)

/-- And so does the else part. -/
theorem Passing.elsePart
    (h : Passing p E fn s (.branch span cond b (some t)))
    (ht : t.isElse = true ∧ t.isBraced = true) :
    Passing p E fn (b.after s) t where
  nests := h.nests.part (h.nests.stands.behindBlock b)
    (List.subset_append_of_subset_right _ (List.subset_append_right ..))
    (List.subset_append_right ..)
    (List.subset_append_of_subset_right _ (List.subset_append_right ..))
    (List.subset_append_right ..)
  braced := ht.2
  here := List.Subset.trans (List.subset_append_right ..) h.here
  placed := h.placed
  listed x hx := by
    rw [Stmt.declared?_of_isElse ht.1] at hx
    cases hx
  ends := h.ends

end

end

section

variable {l : Level} {t : Stmt} {ts : List Stmt} {names : Names}

/-- The names of a block behind one of its statements. -/
theorem Coming.behind (h : Coming p l (t :: ts))
    (hpart : Part l.table names)
    (hnew : ∀ x ∈ t.declared?, (names.lookup x.name).isSome)
    (htop : l.home.top = false) :
    ∃ b ∈ stmtsBodies p.statements, ∃ before,
      b.statements = before ++ t :: ts ∧ l.home.declared = b.declared
        ∧ ∀ z ∈ b.params ++ declaredIn (before ++ [t]),
          (names.lookup z.name).isSome := by
  obtain ⟨b, hb, before, hsplit, hdeclared, hknown⟩ := h.body htop
  refine ⟨b, hb, before, hsplit, hdeclared, fun z hz => ?_⟩
  unfold declaredIn at hz hknown
  rw [List.filterMap_append, ← List.append_assoc] at hz
  rcases List.mem_append.1 hz with hz | hz
  · obtain ⟨slot, hslot⟩ := Option.isSome_iff_exists.1 (hknown z hz)
    exact Option.isSome_of_eq_some (hpart _ _ hslot)
  · obtain ⟨t', ht', hz'⟩ := List.mem_filterMap.1 hz
    obtain rfl := List.mem_singleton.1 ht'
    exact hnew z hz'

theorem Coming.next (h : Coming p l (t :: ts))
    (hpart : Part l.table names)
    (hnew : ∀ x ∈ t.declared?, (names.lookup x.name).isSome)
    (xs : List Ident) :
    Coming p { l with table := names, enclosed := xs } ts where
  known := h.known
  body htop := by
    obtain ⟨b, hb, before, hsplit, hdeclared, hknown⟩ :=
      h.behind hpart hnew htop
    refine ⟨b, hb, before ++ [t], ?_, hdeclared, hknown⟩
    rw [hsplit, List.append_assoc]
    rfl

theorem Coming.placed (h : Coming p l (t :: ts))
    (hpart : Part l.table names)
    (hnew : ∀ x ∈ t.declared?, (names.lookup x.name).isSome) :
    Level.Placed p { l with table := names, enclosed := t.enclosed } where
  reached htop := by
    obtain ⟨b, hb, before, hsplit, hdeclared, hknown⟩ :=
      h.behind hpart hnew htop
    exact ⟨b, hb, before, t, ts, hsplit, rfl, hdeclared, hknown⟩
  ahead hahead := by
    rw [show l.ahead = false from h.known] at hahead
    cases hahead

end

end Script.Lexical

namespace Script

open Code Lexical

variable {p : Program}

-- ================================================================= trees

mutual

/-- The names in a statement of a settled program. -/
theorem Stmt.named (hp : Settled p) : ∀ (t : Stmt) {E : Env}
    {fn : Option Span} {s : Symbols}, Passing p E fn s t →
      StmtNamed p E t (t.after s).current.block
  | .declare _ x init, E, fn, s, h => by
      obtain ⟨hmake, huse⟩ := List.cons_subset.1 h.nests.notes
      refine .declare ?_
        (h.nests.stands.makes hp hmake (h.listed x rfl) h.ends)
      rintro e rfl
      exact h.nests.expr hp (List.Subset.refl _)
        (List.subset_cons_self ..)
  | .function d, E, fn, s, h => by
      obtain ⟨hmake, hd⟩ := List.cons_subset.1 h.nests.notes
      have hgrows := h.nests.stands.grows (.declare s d.name.name)
      exact .function
        (h.nests.stands.makes hp hmake (h.listed d.name rfl) h.ends)
        (d.named hp hgrows h.levels h.braced hd h.nests.bodies)
  | .expression _ e, E, fn, s, h =>
      h.still rfl (.expression (h.nests.expr hp (List.Subset.refl _)
        (List.Subset.refl _)))
  | .block b, E, fn, s, h =>
      h.still rfl (.block (b.named hp h.nests h.here (h.here_placed rfl)
        h.braced))
  | .branch _ cond b none, E, fn, s, h => by
      obtain ⟨hb, -⟩ := Bool.and_eq_true_iff.1 h.braced
      obtain ⟨hnests, hhere⟩ := h.thenPart
      have hblock := b.named hp hnests hhere (h.here_placed rfl) hb
      exact h.still rfl (.branch (h.condition hp) hblock)
  | .branch _ cond b (some t), E, fn, s, h => by
      obtain ⟨hb, helse⟩ := Bool.and_eq_true_iff.1 h.braced
      obtain ⟨hnests, hhere⟩ := h.thenPart
      have hblock := b.named hp hnests hhere (h.here_placed rfl) hb
      have ht := Bool.and_eq_true_iff.1 helse
      have hpassing := h.elsePart ht
      have helsePart := t.named hp hpassing
      rw [hpassing.block_eq (Stmt.declared?_of_isElse ht.1)] at helsePart
      exact h.still rfl (.choice (h.condition hp) hblock helsePart)
  | .loop _ cond b, E, fn, s, h => by
      have hcond : ExprNamed p E cond :=
        h.nests.expr hp (List.subset_append_left ..)
          (List.subset_append_left ..)
      have hblock := b.named hp
        (h.nests.part h.nests.stands (List.subset_append_right ..)
          (List.Subset.refl _) (List.subset_append_right ..)
          (List.Subset.refl _))
        h.here (h.here_placed rfl) h.braced
      exact h.still rfl (.loop hcond hblock)
  | .giveBack _ value, E, fn, s, h => by
      refine h.still rfl (.giveBack ?_)
      rintro e rfl
      exact h.nests.expr hp (List.Subset.refl _) (List.Subset.refl _)
  | .print _ e, E, fn, s, h =>
      h.still rfl (.print (h.nests.expr hp (List.Subset.refl _)
        (List.Subset.refl _)))
  | .empty _, E, fn, s, h => h.still rfl .empty

/-- The names in a block of a settled program. -/
theorem Block.named (hp : Settled p) : ∀ (b : Block) {E : Env}
    {fn : Option Span} {s : Symbols},
      Nests p E fn s b.used b.enclosed (b.notes fn s) b.bodies →
        b.enclosed ⊆ E.here.enclosed → E.here.Placed p →
          b.isBraced = true → BlockNamed p E b.statements
  | ⟨ts, _⟩, E, fn, s, h, hhere, hplaced, hb => by
      let home : Home := ⟨fn, false,
        (stmtsAfter s.openBlock ts).current.block, declaredIn ts⟩
      obtain ⟨hbody, hbodies⟩ := List.cons_subset.1 h.bodies
      have hnests : Nests p (E.openBlock home) fn s.openBlock _ _ _ _ :=
        h.openBlock rfl ⟨hplaced, hhere⟩
      refine .mk home rfl (stmts_named hp ts
        (hnests.part hnests.stands (List.Subset.refl _)
          (List.Subset.refl _) (List.Subset.refl _)
          (List.subset_cons_self ..)) hb ⟨rfl, fun _ => ?_⟩
        (List.Subset.refl _) (.refl _))
      exact ⟨⟨[], ts⟩, hbody, [], rfl, rfl, fun z hz =>
        absurd hz List.not_mem_nil⟩

/-- The names in a function of a settled program. -/
theorem FnDecl.named (hp : Settled p) : ∀ (d : FnDecl) {E : Env}
    {fn : Option Span} {s : Symbols}, Stands E fn s →
      (∀ l ∈ E.levels, l.Placed p ∧ d.used ⊆ l.enclosed) →
        d.isBraced = true → d.notes s ⊆ p.notes →
          d.bodies ⊆ stmtsBodies p.statements → FnNamed p E d
  | ⟨x, params, ⟨ts, _⟩, _⟩, E, fn, s, h, hlevels, hb, hnotes, hbodies => by
      let inside := declareAll s.openFrame params
      let home : Home := ⟨some x.span, false,
        (stmtsAfter inside ts).current.block, params ++ declaredIn ts⟩
      obtain ⟨hbody, hbodies⟩ := List.cons_subset.1 hbodies
      obtain ⟨hparams, hbehind⟩ := List.append_subset.1 hnotes
      have hopen : Stands (E.openFunction home) (some x.span) s.openFrame :=
        h.openFunction rfl
      have hends : Part inside.current.block home.table :=
        part_of_grows (stmtsAfter_grows ts inside)
      have hinside : Nests p
          ((E.openFunction home).knowing inside.current.block)
          (some x.span) inside (stmtsUsed ts) (stmtsEnclosed ts)
          (stmtsNotes (some x.span) inside ts) (stmtsBodies ts) :=
        ⟨hopen.grows (declareAll_grows _ params),
          fun _ hl => absurd hl List.not_mem_nil, hlevels, hbehind, hbodies⟩
      refine .mk home rfl (fun l hl => (hlevels l hl).1)
        (hopen.makesAll hp hparams (List.subset_append_left ..) hends)
        (stmts_named hp ts hinside hb ⟨rfl, fun _ => ?_⟩
          (List.subset_append_right ..) (.refl _))
      refine ⟨⟨params, ts⟩, hbody, [], rfl, rfl, fun z hz => ?_⟩
      rw [declaredIn, List.filterMap_nil, List.append_nil] at hz
      exact declareAll_has _ hz

/-- The names in statements of a settled program. -/
theorem stmts_named (hp : Settled p) : ∀ (ts : List Stmt) {E : Env}
    {fn : Option Span} {s : Symbols},
      Nests p E fn s (stmtsUsed ts) (stmtsEnclosed ts)
        (stmtsNotes fn s ts) (stmtsBodies ts) → stmtsAreBraced ts = true →
          Coming p E.here ts → declaredIn ts ⊆ E.here.home.declared →
            Part (stmtsAfter s ts).current.block E.here.home.table →
              StmtsNamed p E ts
  | [], _, _, _, _, _, _, _, _ => .nil
  | t :: ts, E, fn, s, h, hb, hcoming, hlisted, hends => by
      obtain ⟨ht, hts⟩ := Bool.and_eq_true_iff.1 hb
      have hgrows := t.after_grows s
      have hpart : Part E.here.table (t.after s).current.block := by
        rw [h.stands.here]
        exact part_of_grows hgrows
      have hbehind := part_of_grows (stmtsAfter_grows ts (t.after s))
      have hrunning := h.stands.running t
      have hfirst : Passing p (E.running t) fn s t := {
        nests := (h.running t).part hrunning (List.subset_append_left ..)
          (List.subset_append_left ..) (List.subset_append_left ..)
          (List.subset_append_left ..)
        braced := ht
        here := List.Subset.refl _
        placed := hcoming.placed hpart (t.after_has s)
        listed := fun x hx => hlisted
          (List.mem_filterMap.2 ⟨t, List.mem_cons_self .., hx⟩)
        ends := hbehind.trans hends }
      have hrest : Nests p ((E.running t).knowing (t.after s).current.block)
          fn (t.after s) (stmtsUsed ts) (stmtsEnclosed ts)
          (stmtsNotes fn (t.after s) ts) (stmtsBodies ts) :=
        ((h.running t).grows hgrows).part
          (hrunning.grows hgrows) (List.subset_append_right ..)
          (List.subset_append_right ..) (List.subset_append_right ..)
          (List.subset_append_right ..)
      refine .cons (t.named hp hfirst) (stmts_named hp ts hrest hts
        (hcoming.next hpart (t.after_has s) t.enclosed) ?_ hends)
      exact List.Subset.trans
        ((List.sublist_cons_self t ts).filterMap _).subset hlisted

end

-- ============================================================== programs

namespace Program

theorem hoisted_grows (p : Program) : Symbols.empty.Grows p.hoisted :=
  declareAll_grows ..

theorem final_grows (p : Program) : p.hoisted.Grows p.final :=
  stmtsAfter_grows ..

/-- At the top of a program only the main function is open. -/
theorem current_of_grows {s : Symbols} (h : Symbols.empty.Grows s) :
    s.current = s.main := by
  obtain ⟨f, -, rfl⟩ := h
  rfl

theorem stands_top {s : Symbols} (h : Symbols.empty.Grows s) :
    Stands (topEnv p s.main.block) none s := by
  have hstart : Stands (topEnv p []) none .empty :=
    ⟨rfl, List.forall_mem_singleton.2 rfl, .main⟩
  rw [← current_of_grows h]
  exact hstart.grows h

/-- A settled program is well named. -/
theorem named (hp : Settled p)
    (hb : stmtsAreBraced p.statements = true) : Named p := by
  have hgrows := p.hoisted_grows.trans p.final_grows
  obtain ⟨hnames, hrest⟩ := List.append_subset.1 (List.Subset.refl p.notes)
  obtain ⟨hothers, hfunctions⟩ := List.append_subset.1 hrest
  have hends : Part p.hoisted.main.block p.final.main.block := by
    rw [← current_of_grows p.hoisted_grows, ← current_of_grows hgrows]
    exact part_of_grows p.final_grows
  have hbraced := stmtsAreBraced_iff.1 hb
  refine ⟨?_, fun d hd => ?_, ?_⟩
  · rw [← current_of_grows p.hoisted_grows] at hends ⊢
    exact (stands_top (s := .empty) (.refl _)).makesAll hp hnames
      (List.subset_append_left ..) hends
  · obtain ⟨t, ht, htd⟩ := List.mem_filterMap.1 hd
    obtain rfl : t = .function d := by
      cases t <;> cases htd
      rfl
    have hstands : Stands (topEnv p p.final.main.block) none p.final :=
      stands_top hgrows
    refine d.named hp (s := p.final) ⟨hstands.tables,
      List.forall_mem_singleton.2 rfl, hstands.around⟩ ?_ (hbraced _ ht)
      (fun n hn => hfunctions (List.mem_flatMap.2 ⟨d, hd, hn⟩))
      (stmtsBodies_mem ht)
    refine List.forall_mem_singleton.2 ⟨⟨fun htop => ?_, fun _ =>
      ⟨rfl, d, hd, rfl⟩⟩, List.Subset.refl _⟩
    cases htop
  · refine stmts_named hp p.others ⟨stands_top p.hoisted_grows,
      fun _ hl => absurd hl List.not_mem_nil,
      fun _ hl => absurd hl List.not_mem_nil, hothers,
      stmtsBodies_filter ..⟩ ?_ ⟨rfl, fun htop => ?_⟩
      (List.subset_append_right ..) ?_
    · exact stmtsAreBraced_iff.2 fun t ht =>
        hbraced t (List.mem_filter.1 ht).1
    · cases htop
    · show Part p.final.current.block p.final.main.block
      rw [current_of_grows hgrows]
      exact .refl _

end Program

end Script
