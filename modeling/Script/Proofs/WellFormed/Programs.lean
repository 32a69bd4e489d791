/-
Code that is made of a program is well formed. While code is made, the
places of some functions are reserved and not filled yet; all others are
well formed already, and more constants, globals and functions do not
change that. Making the code of a statement keeps this, whichever places
are waiting, and the code itself is level.

The body of a function is made while the code around it waits, so its
place is one more that is waiting until it is filled. At the end of a
program no place is left.
-/
import Script.Proofs.Grammar.Shape
import Script.Proofs.Lexical.Compiled
import Script.Proofs.Stack.Programs
import Script.Proofs.WellFormed.Pieces

namespace Script.Code

open Script.Action Lexical Stack

variable {s s' s₁ s₂ : Emission} {start : Nat} {code : List Instr}
  {span : Span} {u : Unit} {inside : Bool}

-- ============================================================= progress

namespace Emission

/-- What becomes of an emission while code is made: names are added in the
innermost function, and nothing is taken away. -/
structure Progress (s s' : Emission) : Prop where
  symbols : s.symbols.Grows s'.symbols
  constants : s.constants.size ≤ s'.constants.size
  functions : s.functions.size ≤ s'.functions.size
  arities : ∀ i, i < s.functions.size →
    (s'.functions[i]?).map (·.arity) = (s.functions[i]?).map (·.arity)

/-- Whether all functions are well formed but those whose places are
waiting. -/
def Settled (waiting : Nat → Prop) (s : Emission) : Prop :=
  ∀ i f, s.functions[i]? = some f → ¬ waiting i → f.WellFormed s.extent

theorem Progress.refl (s : Emission) : s.Progress s :=
  ⟨.refl _, Nat.le_refl _, Nat.le_refl _, fun _ _ => rfl⟩

theorem Progress.trans (h : s.Progress s₁) (h' : s₁.Progress s') :
    s.Progress s' where
  symbols := h.symbols.trans h'.symbols
  constants := Nat.le_trans h.constants h'.constants
  functions := Nat.le_trans h.functions h'.functions
  arities i hi := (h'.arities i (Nat.lt_of_lt_of_le hi h.functions)).trans
    (h.arities i hi)

/-- Only functions have arities. -/
theorem lt_of_arity {i n : Nat}
    (h : (s.functions[i]?).map (·.arity) = some n) :
    i < s.functions.size := by
  obtain ⟨f, hf, -⟩ := Option.map_eq_some_iff.1 h
  exact (Array.getElem?_eq_some_iff.1 hf).1

theorem Progress.arity {i n : Nat} (h : s.Progress s')
    (hi : (s.functions[i]?).map (·.arity) = some n) :
    (s'.functions[i]?).map (·.arity) = some n :=
  (h.arities i (lt_of_arity hi)).trans hi

theorem Progress.of_steady (h : Steady s s') : s.Progress s' := by
  have hsize := h.constants.length_le
  rw [Array.length_toList, Array.length_toList] at hsize
  exact ⟨h.symbols ▸ .refl _, hsize, Nat.le_of_eq (by rw [h.functions]),
    fun i _ => by rw [h.functions]⟩

theorem Progress.later (h : s.Progress s') : s.Later s' := by
  obtain ⟨f, hf, hsymbols⟩ := h.symbols
  have hboth : s.symbols.main.slots.length ≤ s'.symbols.main.slots.length
      ∧ s.locals ≤ s'.locals := by
    unfold Emission.locals
    rw [hsymbols]
    generalize s.symbols = t at hf
    obtain ⟨_ | ⟨frame, frames⟩, main⟩ := t
    · exact ⟨hf.slots, Nat.le_refl _⟩
    · exact ⟨Nat.le_refl _, hf.slots⟩
  exact ⟨⟨h.constants, hboth.1, h.functions⟩, hboth.2⟩

theorem Settled.later {waiting : Nat → Prop} (h : s.Settled waiting)
    (hfunctions : s'.functions = s.functions)
    (hextent : s.extent.Within s'.extent) : s'.Settled waiting := by
  intro i f hf hwaiting
  rw [hfunctions] at hf
  exact (h i f hf hwaiting).mono hextent

end Emission

/-- What is known of the code of statements, which start on an empty
stack. -/
structure Made (s s' : Emission) (start : Nat) (code : List Instr)
    (behind : Nat) : Prop where
  progress : s.Progress s'
  piece : Piece s' start code 0 behind
  settled : ∀ waiting : Nat → Prop,
    (∀ i, waiting i → i < s.functions.size) → s.Settled waiting →
      s'.Settled waiting

/-- What becomes of an emission while the code of a function is made, for
whose place one was waiting. -/
structure Filled (index : Nat) (s s' : Emission) : Prop where
  progress : s.Progress s'
  symbols : s'.symbols = s.symbols
  settled : ∀ waiting : Nat → Prop,
    (∀ i, waiting i → i < s.functions.size) →
      s.Settled (fun i => waiting i ∨ i = index) → s'.Settled waiting

section

variable {behind : Nat}

theorem Made.of_steady (h : Steady s s')
    (hpiece : Piece s' start code 0 behind) :
    Made s s' start code behind :=
  ⟨.of_steady h, hpiece, fun _ _ hsettled =>
    hsettled.later h.functions (Emission.Later.of_steady h).extent⟩

theorem Made.append {l r : List Instr} (h : Made s s₁ start l 0)
    (h' : Made s₁ s' (start + l.length) r behind) :
    Made s s' start (l ++ r) behind where
  progress := h.progress.trans h'.progress
  piece := (h.piece.later h'.progress.later).append h'.piece
  settled waiting hwaiting hsettled := h'.settled waiting
    (fun i hi => Nat.lt_of_lt_of_le (hwaiting i hi) h.progress.functions)
    (h.settled waiting hwaiting hsettled)

/-- Code that is made later is known from an earlier moment on. -/
theorem Made.since (h : Made s₁ s' start code behind)
    (hsteady : Steady s s₁) : Made s s' start code behind where
  progress := (Emission.Progress.of_steady hsteady).trans h.progress
  piece := h.piece
  settled waiting hwaiting hsettled := h.settled waiting
    (fun i hi => hsteady.functions ▸ hwaiting i hi)
    (hsettled.later hsteady.functions
      (Emission.Later.of_steady hsteady).extent)

end

-- ===================================================== plain statements

theorem declare_progress {name : String} {x : Symbol}
    (h : Code.declare name s = .ok x s') :
    s.Progress s' ∧ s'.functions = s.functions := by
  obtain ⟨-, rfl⟩ := declare_ok h
  exact ⟨⟨.declare s.symbols name, Nat.le_refl _, Nat.le_refl _,
    fun _ _ => rfl⟩, rfl⟩

theorem declare_has {name : String} {x : Symbol}
    (h : Code.declare name s = .ok x s') (hs : s.symbols.Bounded) :
    s'.symbols.Has x := by
  obtain ⟨rfl, rfl⟩ := declare_ok h
  exact hs.declare name

/-- A statement with a value and one more instruction that takes it. -/
theorem value_made {e : Option Expr} {instr : Instr}
    (h : (do return (← optionalCode start e) ++ [instr] : Emit _) s =
      .ok code s') (hs : s.symbols.Bounded)
    (hinstr : ∀ start, Piece s' start [instr] 1 0) :
    Made s s' start code 0 := by
  obtain ⟨value, s₁, hvalue, hcode⟩ := bind_ok.1 h
  obtain ⟨rfl, rfl⟩ := pure_ok.1 hcode
  exact .of_steady (optionalCode_ok hvalue).steady
    ((optionalCode_piece hvalue hs 0).append (hinstr _))

theorem variable_made {x : Ident} {init : Option Expr}
    (h : stmtCode start (.declare span x init) s = .ok code s')
    (hs : s.symbols.Bounded) : Made s s' start code 0 := by
  obtain ⟨value, s₁, hvalue, hrest⟩ := bind_ok.1 h
  obtain ⟨symbol, s₂, hdeclare, hcode⟩ := bind_ok.1 hrest
  obtain ⟨rfl, rfl⟩ := pure_ok.1 hcode
  have hsteady := (optionalCode_ok hvalue).steady
  obtain ⟨hprogress, hfunctions⟩ := declare_progress hdeclare
  have hhas := declare_has hdeclare (hsteady.symbols ▸ hs)
  refine ⟨(Emission.Progress.of_steady hsteady).trans hprogress,
    ((optionalCode_piece hvalue hs 0).later hprogress.later).append
      (.store hhas 0), fun waiting _ hsettled => ?_⟩
  have hvalueSettled := hsettled.later hsteady.functions
    (Emission.Later.of_steady hsteady).extent
  exact hvalueSettled.later hfunctions hprogress.later.extent

-- ================================================ conditions and blocks

theorem block_made {statements : List Stmt} {span : Span}
    (hstmts : ∀ {s s' code}, s.symbols.Bounded →
      statementCode start false false statements s = .ok code s' →
        Made s s' start code 0)
    (h : blockCode start ⟨statements, span⟩ s = .ok code s')
    (hs : s.symbols.Bounded) : Made s s' start code 0 := by
  obtain ⟨s₂, hmade, rfl⟩ := blockCode_steps h
  have hinner := hstmts (s := { s with symbols := s.symbols.openBlock })
    (bounded_openBlock hs) hmade
  have hgrows := hinner.progress.symbols.block
  have hextent : s₂.extent.Within
      { s₂ with symbols := s₂.symbols.closeBlock }.extent
      ∧ s₂.locals ≤ { s₂ with symbols := s₂.symbols.closeBlock }.locals := by
    unfold Emission.extent Emission.locals
    generalize s₂.symbols = t
    obtain ⟨_ | ⟨⟨_, _ | _, _⟩, _⟩, ⟨_, _ | _, _⟩⟩ := t <;>
      exact ⟨⟨Nat.le_refl _, Nat.le_refl _, Nat.le_refl _⟩, Nat.le_refl _⟩
  refine ⟨⟨hgrows, hinner.progress.constants, hinner.progress.functions,
    hinner.progress.arities⟩, hinner.piece.later ⟨hextent.1, hextent.2⟩,
    fun waiting hwaiting hsettled => ?_⟩
  have hopened : { s with symbols := s.symbols.openBlock }.Settled
      waiting := by
    refine hsettled.later rfl ⟨Nat.le_refl _, ?_, Nat.le_refl _⟩
    show s.symbols.main.slots.length ≤ s.symbols.openBlock.main.slots.length
    generalize s.symbols = t
    obtain ⟨_ | ⟨frame, frames⟩, main⟩ := t <;> exact Nat.le_refl _
  exact (hinner.settled waiting hwaiting hopened).later rfl hextent.1
where
  bounded_openBlock {t : Symbols} (h : t.Bounded) : t.openBlock.Bounded := by
    obtain ⟨_ | ⟨frame, frames⟩, main⟩ := t
    · exact ⟨h.inner, h.main.openBlock⟩
    · obtain ⟨hframe, hframes⟩ := List.forall_mem_cons.1 h.inner
      exact ⟨List.forall_mem_cons.2 ⟨hframe.openBlock, hframes⟩, h.main⟩

section

variable {cond : Expr} {b : Block}

theorem branch_made
    (hb : ∀ {start s s' code}, s.symbols.Bounded →
      blockCode start b s = .ok code s' → Made s s' start code 0)
    (h : stmtCode start (.branch span cond b none) s = .ok code s')
    (hs : s.symbols.Bounded) : Made s s' start code 0 := by
  obtain ⟨test, s₁, htest, hrest⟩ := bind_ok.1 h
  obtain ⟨yes, s₂, hyes, hcode⟩ := bind_ok.1 hrest
  obtain ⟨rfl, rfl⟩ := pure_ok.1 hcode
  have hsteady := (exprCode_ok cond htest).steady
  have hyes' := hb (hsteady.symbols ▸ hs) hyes
  exact ⟨(Emission.Progress.of_steady hsteady).trans hyes'.progress,
    ((exprCode_piece cond htest hs 0).later hyes'.progress.later).append
      (.branch hyes'.piece rfl), (hyes'.since hsteady).settled⟩

theorem choice_made {t : Stmt}
    (hb : ∀ {start s s' code}, s.symbols.Bounded →
      blockCode start b s = .ok code s' → Made s s' start code 0)
    (ht : ∀ {start s s' code}, s.symbols.Bounded →
      stmtCode start t s = .ok code s' → Made s s' start code 0)
    (h : stmtCode start (.branch span cond b (some t)) s = .ok code s')
    (hs : s.symbols.Bounded) : Made s s' start code 0 := by
  obtain ⟨test, s₁, htest, hrest⟩ := bind_ok.1 h
  obtain ⟨yes, s₂, hyes, hrest'⟩ := bind_ok.1 hrest
  obtain ⟨no, s₃, hno, hcode⟩ := bind_ok.1 hrest'
  obtain ⟨rfl, rfl⟩ := pure_ok.1 hcode
  have hsteady := (exprCode_ok cond htest).steady
  have hs₁ := hsteady.symbols ▸ hs
  have hyes' := hb hs₁ hyes
  have hno' := ht (hyes'.progress.symbols.bounded hs₁) hno
  have hprogress := hyes'.progress.trans hno'.progress
  rw [List.append_assoc, List.cons_append]
  refine ⟨(Emission.Progress.of_steady hsteady).trans hprogress,
    ((exprCode_piece cond htest hs 0).later hprogress.later).append
      (.choice (hyes'.piece.later hno'.progress.later) hno'.piece rfl rfl),
    fun waiting hwaiting hsettled => ?_⟩
  exact hno'.settled waiting
    (fun i hi => Nat.lt_of_lt_of_le (hwaiting i hi)
      (hyes'.since hsteady).progress.functions)
    ((hyes'.since hsteady).settled waiting hwaiting hsettled)

theorem loop_made
    (hb : ∀ {start s s' code}, s.symbols.Bounded →
      blockCode start b s = .ok code s' → Made s s' start code 0)
    (h : stmtCode start (.loop span cond b) s = .ok code s')
    (hs : s.symbols.Bounded) : Made s s' start code 0 := by
  obtain ⟨test, s₁, htest, hrest⟩ := bind_ok.1 h
  obtain ⟨body, s₂, hbody, hcode⟩ := bind_ok.1 hrest
  obtain ⟨rfl, rfl⟩ := pure_ok.1 hcode
  have hsteady := (exprCode_ok cond htest).steady
  have hbody' := hb (hsteady.symbols ▸ hs) hbody
  rw [List.append_assoc, List.cons_append]
  exact ⟨(Emission.Progress.of_steady hsteady).trans hbody'.progress,
    .loop ((exprCode_piece cond htest hs 0).later hbody'.progress.later)
      hbody'.piece rfl, (hbody'.since hsteady).settled⟩

end

-- ============================================================ functions

theorem Symbols.Bounded.openFrame {t : Symbols} (h : t.Bounded) :
    t.openFrame.Bounded :=
  ⟨List.forall_mem_cons.2 ⟨.empty, h.inner⟩, h.main⟩

/-- Parameters of different names get a slot each. -/
theorem length_declareAll {xs : List Ident} {t : Symbols}
    (hxs : (xs.map (·.name)).Nodup)
    (hnew : ∀ x ∈ xs, t.current.block.lookup x.name = none) :
    t.current.slots.length + xs.length ≤
      (declareAll t xs).current.slots.length := by
  induction xs generalizing t with
  | nil => exact Nat.le_refl _
  | cons x xs ih =>
      obtain ⟨hx, hxs⟩ := List.nodup_cons.1 hxs
      obtain ⟨hhere, hnew⟩ := List.forall_mem_cons.1 hnew
      have hcurrent : (t.declare x.name).2.current =
          (t.current.declare x.name).2 := Symbols.current_onCurrent ..
      have hrest := ih (t := (t.declare x.name).2) hxs fun y hy => by
        have hne : (y.name == x.name) = false :=
          beq_eq_false_iff_ne.2 fun heq =>
            hx (List.mem_map.2 ⟨y, hy, heq⟩)
        rw [hcurrent, Frame.declare_of_none hhere, List.lookup_cons, hne]
        exact hnew y hy
      rw [hcurrent, Frame.declare_of_none hhere] at hrest
      simp only [List.length_append, List.length_singleton] at hrest
      rw [List.length_cons]
      exact Nat.le_trans (by omega) hrest

/-- How much there is depends on the top of the symbol table alone. -/
theorem Emission.Settled.symbols {waiting : Nat → Prop} {t : Symbols}
    (h : s.Settled waiting) (hmain : t.main = s.symbols.main) :
    ({ s with symbols := t } : Emission).Settled waiting :=
  h.later rfl ⟨Nat.le_refl _, Nat.le_of_eq (congrArg (·.slots.length)
    hmain.symm), Nat.le_refl _⟩

theorem params_progress {params : List Ident}
    (h : (params.forM fun p => discard (Code.declare p.name) : Emit Unit)
      s = .ok u s') : s.Progress s' ∧ s'.functions = s.functions := by
  obtain rfl := params_passes h
  exact ⟨⟨declareAll_grows s.symbols params, Nat.le_refl _, Nat.le_refl _,
    fun _ _ => rfl⟩, rfl⟩

theorem fill_progress {index : Nat} {locals : List String}
    (h : fill index locals code s = .ok u s') : s.Progress s' := by
  obtain rfl := modify_ok.1 h
  refine ⟨.refl _, Nat.le_refl _, Nat.le_of_eq Array.size_modify.symm,
    fun i _ => ?_⟩
  dsimp only
  rw [Array.getElem?_modify]
  split
  · cases s.functions[i]? <;> rfl
  · rfl

/-- Filling the place of a function. -/
theorem fill_settled {index : Nat} {locals : List String}
    {waiting : Nat → Prop} (h : fill index locals code s = .ok u s')
    (hsettled : s.Settled fun i => waiting i ∨ i = index)
    (hfilled : ∀ f, s.functions[index]? = some f →
      ({ f with locals, code } : Function).WellFormed s.extent) :
    s'.Settled waiting := by
  have hextent := (fill_progress h).later.extent
  obtain rfl := modify_ok.1 h
  intro i f hf hwaiting
  dsimp only at hf
  rw [Array.getElem?_modify] at hf
  split at hf
  case isTrue heq =>
      subst heq
      obtain ⟨g, hg, rfl⟩ := Option.map_eq_some_iff.1 hf
      exact (hfilled g hg).mono hextent
  case isFalse hne =>
      exact (hsettled i f hf fun h =>
        h.elim hwaiting fun heq => hne heq.symm).mono hextent

/-- Each parameter has a slot of its own. -/
theorem params_room {params : List Ident} {s₁ : Emission} {u₁ : Unit}
    (hnames : (params.map (·.name)).Nodup)
    (hopen : s.symbols = s₁.symbols.openFrame)
    (h : (params.forM fun p => discard (Code.declare p.name) : Emit Unit) s =
      .ok u₁ s') : params.length ≤ s'.locals := by
  have hdeclared := length_declareAll (t := s₁.symbols.openFrame) hnames
    fun _ _ => rfl
  have hsymbols : s'.symbols = declareAll s.symbols params :=
    congrArg (·.symbols) (params_passes h)
  unfold Emission.locals
  rw [hsymbols, hopen, (declareAll_grows _ _).inMain]
  exact Nat.le_trans (Nat.le_add_left ..) hdeclared

theorem function_filled {d : FnDecl} {index : Nat}
    (hbody : ∀ {start s s' code}, s.symbols.Bounded →
      statementCode start false false d.body.statements s = .ok code s' →
        Made s s' start code 0)
    (hnames : (d.params.map (·.name)).Nodup)
    (h : functionCode index d s = .ok u s') (hs : s.symbols.Bounded)
    (harity : (s.functions[index]?).map (·.arity) = some d.params.length) :
    Filled index s s' := by
  have hsymbols := (functionCode_passes d h).symbols
  obtain ⟨s₂, s₃, s₄, code, result, hparams, hcode, hresult, hfill⟩ :=
    functionCode_steps h
  obtain ⟨name, params, ⟨statements, bodySpan⟩, span⟩ := d
  obtain ⟨hprogress₂, hfunctions₂⟩ := params_progress hparams
  have hs₂ := hprogress₂.symbols.bounded hs.openFrame
  have hmade := hbody hs₂ hcode
  have hsteady := (push_ok hresult).1
  have hprogress₄ := hmade.progress.trans (.of_steady hsteady)
  have hprogress := hprogress₂.trans hprogress₄
  have hfilling := fill_progress hfill
  obtain ⟨f, -, hs₄⟩ := hprogress.symbols
  refine ⟨⟨hsymbols ▸ .refl _,
    Nat.le_trans hprogress.constants hfilling.constants,
    Nat.le_trans hprogress.functions hfilling.functions, fun i hi =>
      (hfilling.arities i (Nat.lt_of_lt_of_le hi hprogress.functions)).trans
        (hprogress.arities i hi)⟩, hsymbols,
    fun waiting hwaiting hsettled => ?_⟩
  have hwaiting' : ∀ i, waiting i ∨ i = index → i < s₂.functions.size := by
    rw [hfunctions₂]
    rintro i (hi | rfl)
    · exact hwaiting i hi
    · exact Emission.lt_of_arity harity
  have hsettled₂ := (hsettled.symbols (t := s.symbols.openFrame) rfl).later
    hfunctions₂ hprogress₂.later.extent
  have hsettled₄ := (hmade.settled _ hwaiting' hsettled₂).later
    hsteady.functions (Emission.Later.of_steady hsteady).extent
  refine fill_settled hfill (hsettled₄.symbols ?_) fun g hg => ?_
  · rw [hs₄]
    rfl
  · -- The slots of the frame that is closed are those of the function.
    have hlocals : s₄.locals = s₄.symbols.closeFrame.1.length := by
      unfold Emission.locals
      rw [hs₄]
      rfl
    have hroom : params.length ≤ s₄.locals :=
      Nat.le_trans (params_room hnames rfl hparams)
        hprogress₄.later.locals
    have harity' := hprogress.arity harity
    rw [hg] at harity'
    have hpiece := (hmade.piece.later
      (Emission.Later.of_steady hsteady)).append (.push hresult 0)
    refine Level.wellFormed hpiece.level rfl (fun instr hinstr => ?_) ?_
    · refine (hpiece.indices instr hinstr).mono ⟨Nat.le_refl _, ?_,
        Nat.le_refl _⟩ (Nat.le_of_eq hlocals)
      refine Nat.le_of_eq ?_
      show s₄.symbols.main.slots.length =
        s₄.symbols.closeFrame.2.main.slots.length
      rw [hs₄]
      rfl
    · exact Nat.le_trans (Nat.le_of_eq (Option.some.inj harity'))
        (Nat.le_trans hroom (Nat.le_of_eq hlocals))

/-- A place that is reserved is one more that is waiting. -/
structure Reserved (d : FnDecl) (index : Nat) (s s' : Emission) : Prop where
  progress : s.Progress s'
  symbols : s'.symbols = s.symbols
  old : s.functions.size ≤ index
  arity : (s'.functions[index]?).map (·.arity) = some d.params.length
  settled : ∀ waiting : Nat → Prop, s.Settled waiting →
    s'.Settled fun i => waiting i ∨ i = index

theorem Reserved.lt {d : FnDecl} {index : Nat} (h : Reserved d index s s') :
    index < s'.functions.size := Emission.lt_of_arity h.arity

theorem reserve_reserved {d : FnDecl} {index : Nat}
    (h : reserve d s = .ok index s') : Reserved d index s s' := by
  obtain ⟨rfl, rfl⟩ := Prod.mk.inj (modifyGet_ok.1 h)
  have hprogress : s.Progress
      { s with functions :=
          s.functions.push ⟨d.name.name, d.params.length, [], []⟩ } := by
    refine ⟨.refl _, Nat.le_refl _, ?_, fun i hi => ?_⟩
    · rw [Array.size_push]
      exact Nat.le_succ _
    · rw [Array.getElem?_push, if_neg (Nat.ne_of_lt hi)]
  refine ⟨hprogress, rfl, Nat.le_refl _, ?_,
    fun waiting hsettled i f hf hnot => ?_⟩
  · rw [Array.getElem?_push_size]
    rfl
  · obtain ⟨hi, hne⟩ := not_or.1 hnot
    dsimp only at hf
    rw [Array.getElem?_push, if_neg hne] at hf
    exact (hsettled i f hf hi).mono hprogress.later.extent

/-- The code that binds a function to its name. -/
theorem Piece.bind {index : Nat} {x : Symbol}
    (hindex : index < s.functions.size) (hx : s.symbols.Has x) :
    Piece s start (bindFunction x index) 0 0 :=
  (Piece.single (.makeFunction index) hindex rfl nofun
    (Nat.zero_le _)).append (.store hx 0)

/-- A statement that declares a function. -/
theorem function_made {d : FnDecl}
    (hbody : ∀ {index s s' u}, s.symbols.Bounded →
      (s.functions[index]?).map (·.arity) = some d.params.length →
        functionCode index d s = .ok u s' → Filled index s s')
    (h : stmtCode start (.function d) s = .ok code s')
    (hs : s.symbols.Bounded) : Made s s' start code 0 := by
  obtain ⟨symbol, s₁, hdeclare, h₁⟩ := bind_ok.1 h
  obtain ⟨index, s₂, hreserve, h₂⟩ := bind_ok.1 h₁
  obtain ⟨u, s₃, hfunction, hcode⟩ := bind_ok.1 h₂
  obtain ⟨rfl, rfl⟩ := pure_ok.1 hcode
  obtain ⟨hprogress₁, hfunctions₁⟩ := declare_progress hdeclare
  have hreserved := reserve_reserved hreserve
  have hhas := declare_has hdeclare hs
  rw [← hreserved.symbols] at hhas
  have hs₂ := hreserved.symbols ▸ hprogress₁.symbols.bounded hs
  have hfilled := hbody hs₂ hreserved.arity hfunction
  refine ⟨(hprogress₁.trans hreserved.progress).trans hfilled.progress,
    .bind (Nat.lt_of_lt_of_le hreserved.lt hfilled.progress.functions)
      (hfilled.symbols ▸ hhas), fun waiting hwaiting hsettled => ?_⟩
  refine hfilled.settled waiting (fun i hi => ?_) (hreserved.settled waiting
    (hsettled.later hfunctions₁ hprogress₁.later.extent))
  exact Nat.lt_of_lt_of_le (hfunctions₁ ▸ hwaiting i hi)
    hreserved.progress.functions

mutual

theorem stmtCode_made : ∀ (t : Stmt) {inside : Bool},
    t.isLawful inside = true → ∀ {start : Nat} {s s' : Emission}
      {code : List Instr}, s.symbols.Bounded →
        stmtCode start t s = .ok code s' → Made s s' start code 0
  | .declare _ _ _, _, _, _, _, _, _, hs, h => variable_made h hs
  | .function d, _, hlawful, _, _, _, _, hs, h =>
      function_made (fun hs harity h =>
        functionCode_filled d hlawful hs harity h) h hs
  | .expression _ e, _, _, _, _, _, _, hs, h =>
      value_made (e := some e) h hs fun _ =>
        .single _ trivial rfl nofun (Nat.le_refl 1)
  | .block b, _, hlawful, _, _, _, _, hs, h =>
      blockCode_made b hlawful hs h
  | .branch _ _ b none, _, hlawful, _, _, _, _, hs, h => by
      obtain ⟨hlawful, -⟩ := Bool.and_eq_true_iff.1 hlawful
      exact branch_made (blockCode_made b hlawful) h hs
  | .branch _ _ b (some t), _, hlawful, _, _, _, _, hs, h => by
      obtain ⟨hlawful, hlawful'⟩ := Bool.and_eq_true_iff.1 hlawful
      exact choice_made (blockCode_made b hlawful)
        (stmtCode_made t hlawful') h hs
  | .loop _ _ b, _, hlawful, _, _, _, _, hs, h =>
      loop_made (blockCode_made b hlawful) h hs
  | .giveBack _ _, _, _, _, _, _, _, hs, h =>
      value_made h hs fun _ => .leave 0
  | .print _ e, _, _, _, _, _, _, hs, h =>
      value_made (e := some e) h hs fun _ =>
        .single _ trivial rfl nofun (Nat.le_refl 1)
  | .empty _, _, _, _, s, _, _, _, h => by
      obtain ⟨rfl, rfl⟩ := pure_ok.1 h
      exact .of_steady (.refl s) .nil

theorem functionCode_filled : ∀ (d : FnDecl), d.isLawful = true →
    ∀ {index : Nat} {s s' : Emission} {u : Unit}, s.symbols.Bounded →
      (s.functions[index]?).map (·.arity) = some d.params.length →
        functionCode index d s = .ok u s' → Filled index s s'
  | ⟨_, _, ⟨ts, _⟩, _⟩, hlawful, _, _, _, _, hs, harity, h => by
      obtain ⟨hnames, hlawful⟩ := Bool.and_eq_true_iff.1 hlawful
      exact function_filled (fun hs h => statementCode_made ts hlawful hs h)
        (of_decide_eq_true hnames) h hs harity

theorem blockCode_made : ∀ (b : Block) {inside : Bool},
    b.isLawful inside = true → ∀ {start : Nat} {s s' : Emission}
      {code : List Instr}, s.symbols.Bounded →
        blockCode start b s = .ok code s' → Made s s' start code 0
  | ⟨ts, _⟩, _, hlawful, _, _, _, _, hs, h =>
      block_made (fun hs h => statementCode_made ts hlawful hs h) h hs

theorem statementCode_made : ∀ (ts : List Stmt) {inside : Bool},
    stmtsAreLawful inside ts = true → ∀ {start : Nat}
      {returned warned : Bool} {s s' : Emission} {code : List Instr},
        s.symbols.Bounded →
          statementCode start returned warned ts s = .ok code s' →
            Made s s' start code 0
  | [], _, _, _, _, _, s, _, _, _, h => by
      obtain ⟨rfl, rfl⟩ := pure_ok.1 h
      exact .of_steady (.refl s) .nil
  | t :: ts, _, hlawful, start, returned, warned, s, s', code, hs, h => by
      obtain ⟨hlawful, hlawful'⟩ := Bool.and_eq_true_iff.1 hlawful
      obtain ⟨_, _, _, first, rest, hsteady, hfirst, hrest, rfl⟩ :=
        statementCode_cons h
      have hs₁ := hsteady.symbols ▸ hs
      have ht := stmtCode_made t hlawful hs₁ hfirst
      have hts := statementCode_made ts hlawful'
        (ht.progress.symbols.bounded hs₁) hrest
      exact (ht.since hsteady).append hts

end

-- ============================================================= programs

/-- What is known of the code that binds the functions at the top. Their
places wait for their bodies. -/
structure Hoisted (bodies : List (Nat × FnDecl)) (s s' : Emission)
    (code : List Instr) : Prop where
  progress : s.Progress s'
  piece : ∀ start, Piece s' start code 0 0
  arities : ∀ b ∈ bodies,
    (s'.functions[b.1]?).map (·.arity) = some b.2.params.length
  settled : ∀ waiting : Nat → Prop, s.Settled waiting →
    s'.Settled fun i => waiting i ∨ ∃ b ∈ bodies, b.1 = i

theorem hoist_hoisted {ds : List FnDecl} {bodies : List (Nat × FnDecl)}
    (h : hoist ds s = .ok (code, bodies) s') (hs : s.symbols.Bounded) :
    Hoisted bodies s s' code := by
  induction ds generalizing s code bodies with
  | nil =>
      obtain ⟨hcode, rfl⟩ := pure_ok.1 h
      obtain ⟨rfl, rfl⟩ := Prod.mk.inj hcode
      exact ⟨.refl s, fun _ => .nil, fun _ hb => absurd hb List.not_mem_nil,
        fun _ hsettled i f hf hnot => hsettled i f hf fun hi =>
          hnot (.inl hi)⟩
  | cons d ds ih =>
      obtain ⟨symbol, s₁, hdeclare, h₁⟩ := bind_ok.1 h
      obtain ⟨index, s₂, hreserve, h₂⟩ := bind_ok.1 h₁
      obtain ⟨⟨rest, others⟩, s₃, hrest, hcode⟩ := bind_ok.1 h₂
      obtain ⟨hpair, rfl⟩ := pure_ok.1 hcode
      obtain ⟨rfl, rfl⟩ := Prod.mk.inj hpair
      obtain ⟨hprogress₁, hfunctions₁⟩ := declare_progress hdeclare
      have hreserved := reserve_reserved hreserve
      have hhas := declare_has hdeclare hs
      rw [← hreserved.symbols] at hhas
      have hs₂ := hreserved.symbols ▸ hprogress₁.symbols.bounded hs
      have hothers := ih hrest hs₂
      refine ⟨(hprogress₁.trans hreserved.progress).trans hothers.progress,
        fun start => (Piece.bind hreserved.lt hhas).later
          hothers.progress.later |>.append (hothers.piece _),
        List.forall_mem_cons.2 ⟨?_, hothers.arities⟩,
        fun waiting hsettled => ?_⟩
      · exact hothers.progress.arity hreserved.arity
      · refine fun i f hf hnot => hothers.settled _ (hreserved.settled
          waiting (hsettled.later hfunctions₁ hprogress₁.later.extent))
            i f hf fun hi => hnot ?_
        rcases hi with (hi | rfl) | ⟨b, hb, hi⟩
        · exact .inl hi
        · exact .inr ⟨_, List.mem_cons_self, rfl⟩
        · exact .inr ⟨b, List.mem_cons_of_mem _ hb, hi⟩

/-- The code of the statements at the top leaves the result of the program
on the stack. -/
theorem topLevelCode_made {ts : List Stmt} {start : Nat}
    (hlawful : stmtsAreLawful false ts = true)
    (h : topLevelCode start ts s = .ok code s') (hs : s.symbols.Bounded) :
    Made s s' start code 1 := by
  induction ts generalizing s start code with
  | nil => exact .of_steady (push_ok h).1 (.push h 0)
  | cons t ts ih =>
      obtain ⟨ht, hts⟩ := Bool.and_eq_true_iff.1 hlawful
      rcases topLevelCode_cons h with ⟨d, rfl, hrest⟩
        | ⟨span, e, rfl, rfl, he⟩
        | ⟨-, -, s₁, first, rest, hfirst, hrest, rfl⟩
      · exact ih hts hrest hs
      · exact .of_steady (exprCode_ok e he).steady
          (exprCode_piece e he hs 0)
      · have hfirst' := stmtCode_made t ht hs hfirst
        exact hfirst'.append
          (ih hts hrest (hfirst'.progress.symbols.bounded hs))

/-- When the bodies are made, no place is left waiting. -/
theorem bodies_settled {bodies : List (Nat × FnDecl)}
    (hlawful : ∀ b ∈ bodies, b.2.isLawful = true)
    (h : (bodies.forM fun (index, d) => functionCode index d : Emit Unit)
      s = .ok u s') (hs : s.symbols.Bounded)
    (harities : ∀ b ∈ bodies,
      (s.functions[b.1]?).map (·.arity) = some b.2.params.length)
    (hsettled : s.Settled fun i => ∃ b ∈ bodies, b.1 = i) :
    s'.Settled fun _ => False := by
  induction bodies generalizing s with
  | nil =>
      obtain ⟨-, rfl⟩ := pure_ok.1 h
      exact fun i f hf _ => hsettled i f hf nofun
  | cons b bodies ih =>
      obtain ⟨index, d⟩ := b
      obtain ⟨u', s₁, hfirst, hrest⟩ := bind_ok.1 h
      obtain ⟨hd, hlawful⟩ := List.forall_mem_cons.1 hlawful
      obtain ⟨harity, harities⟩ := List.forall_mem_cons.1 harities
      have hfilled := functionCode_filled d hd hs harity hfirst
      refine ih hlawful hrest (hfilled.symbols ▸ hs)
        (fun b hb => hfilled.progress.arity (harities b hb))
        (hfilled.settled _ (fun i ⟨b, hb, hi⟩ => hi ▸ Emission.lt_of_arity
          (harities b hb)) fun i f hf hnot => hsettled i f hf ?_)
      rintro ⟨b, hb, hi⟩
      rcases List.mem_cons.1 hb with rfl | hb
      · exact hnot (.inr hi.symm)
      · exact hnot (.inl ⟨b, hb, hi⟩)

theorem lawful_functions {ts : List Stmt}
    (h : stmtsAreLawful false ts = true) :
    ∀ d ∈ ts.filterMap Stmt.function?, d.isLawful = true := by
  induction ts with
  | nil => exact fun _ hd => absurd hd List.not_mem_nil
  | cons t ts ih =>
      obtain ⟨ht, hts⟩ := Bool.and_eq_true_iff.1 h
      intro d hd
      cases t with
      | function e =>
          rcases List.mem_cons.1 hd with rfl | hd
          · exact ht
          · exact ih hts d hd
      | _ => exact ih hts d hd

/-- When a program has become code, all functions are well formed. -/
theorem programCode_settled {p : Program} (hlawful : p.isLawful = true)
    (h : programCode p .start = .ok u s') :
    s'.Settled fun _ => False := by
  obtain ⟨⟨bound, bodies⟩, s₁, hhoist, h₁⟩ := bind_ok.1 h
  obtain ⟨code, s₂, hcode, h₂⟩ := bind_ok.1 h₁
  obtain ⟨u₃, s₃, hfill, hbodies⟩ := bind_ok.1 h₂
  have hs : Emission.start.symbols.Bounded :=
    ⟨fun _ hf => absurd hf List.not_mem_nil, .empty⟩
  have hmain : Emission.start.Settled fun i => i = 0 := by
    rintro (_ | i) f hf hne
    · exact (hne rfl).elim
    · cases hf
  obtain ⟨hsymbols, hds⟩ := hoist_passes hhoist
  have hhoisted := hoist_hoisted hhoist hs
  have hs₁ := hhoisted.progress.symbols.bounded hs
  have hfinished := topLevelCode_made hlawful hcode hs₁
  have hs₂ := hfinished.progress.symbols.bounded hs₁
  have hprogress := hfinished.progress.trans (fill_progress hfill)
  have hpiece := ((hhoisted.piece 0).later hfinished.progress.later).append
    (hfinished.piece.cast (Nat.zero_add _))
  have hsettled₂ := hfinished.settled _ (fun i hi => ?_)
    (hhoisted.settled _ hmain)
  · refine bodies_settled (fun b hb => ?_) hbodies
      ((fill_progress hfill).symbols.bounded hs₂) (fun b hb => ?_)
      (fill_settled hfill (fun i f hf hnot => hsettled₂ i f hf fun hi =>
        hnot (hi.elim .inr .inl)) fun f hf => ?_)
    · refine lawful_functions hlawful b.2 ?_
      have hmem : b.2 ∈ bodies.map (·.2) := List.mem_map_of_mem hb
      rw [hds] at hmem
      exact hmem
    · exact hprogress.arity (hhoisted.arities b hb)
    · -- The main function has no slots of its own and takes no arguments.
      have harity : f.arity = 0 := by
        have hsame := (hhoisted.progress.trans hfinished.progress).arities 0
          Nat.zero_lt_one
        rw [hf] at hsame
        exact Option.some.inj hsame
      refine Level.wellFormed hpiece.level rfl (fun instr hinstr => ?_)
        (Nat.le_of_eq harity)
      refine (hpiece.indices instr hinstr).mono ⟨Nat.le_refl _,
        Nat.le_refl _, Nat.le_refl _⟩ (Nat.le_of_eq ?_)
      unfold Emission.locals
      rw [((hhoisted.progress.trans hfinished.progress).symbols).inMain]
      rfl
  · rcases hi with rfl | ⟨b, hb, rfl⟩
    · exact Nat.lt_of_lt_of_le Nat.zero_lt_one hhoisted.progress.functions
    · exact Emission.lt_of_arity (hhoisted.arities b hb)

end Script.Code

namespace Script

open Code

/-- The code of a program that was read without an error is well
formed. -/
theorem Program.code_wellFormed {file : FileId} {text : String} {c : Code}
    (hread : hasErrors (ofText file text).2 = false)
    (hcode : (Code.ofProgram (ofText file text).1).1 = some c) :
    c.WellFormed := by
  obtain ⟨body, -, -, hlawful⟩ := ofText_of_no_error hread
  unfold Code.ofProgram at hcode
  split at hcode
  case h_1 s hmade =>
      cases hcode
      have hsettled := programCode_settled hlawful hmade
      intro f hf
      obtain ⟨i, hi⟩ := List.mem_iff_getElem?.1 hf
      rw [Array.getElem?_toList] at hi
      have hextent : (⟨s.constants.toList, s.symbols.globals,
          s.functions.toList⟩ : Code).extent = s.extent := rfl
      rw [hextent]
      exact hsettled i f hi id
  case h_2 => cases hcode

/-- A loop with a return in it, a function that is declared in a block of
another one, and conditions that need not be evaluated as a whole. -/
theorem Program.code_wellFormed_nested :
    let text := "fn f(n, k) \x7b
        while n > 0 && !(k == n || k < 0) \x7b
          fn g(m) \x7b return m - 1; m; \x7d
          if k == 1 \x7b return n; \x7d else \x7b n = g(n); \x7d
        \x7d
      \x7d
      f(3, 1)"
    hasErrors (ofText 0 text).2 = false
      ∧ ∃ c, (Code.ofProgram (ofText 0 text).1).1 = some c
        ∧ c.functions.length = 3 ∧ c.WellFormed := by
  intro text
  have hread : hasErrors (ofText 0 text).2 = false := by decide +kernel
  have hcode : ((Code.ofProgram (ofText 0 text).1).1).map
      (·.functions.length) = some 3 := by decide +kernel
  obtain ⟨c, hc, hlength⟩ := Option.map_eq_some_iff.1 hcode
  exact ⟨hread, c, hc, hlength, code_wellFormed hread hc⟩

end Script
