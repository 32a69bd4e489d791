/-
Code that is made of a program reads no variable of its own function that
has no value. While code is made, what the symbol table offers has a value
wherever the machine can be, so the marks of a statement begin with what is
offered in front of it and end with what is offered behind it. This holds
of every way, also of one that goes round a loop again, since a block gives
up the names that it declared.

Functions are made in the middle of other code. Their places have no code
until they are filled, so at each moment all functions that there are read
nothing but what has a value.
-/
import Script.Proofs.Assigned.Variables
import Script.Proofs.WellFormed.Programs

namespace Script.Code

open Script.Action Lexical Stack

-- ============================================================ functions

/-- The variables that are there when a function begins: its parameters,
and those of the main function, of which it knows nothing. -/
def Function.given (f : Function) : Symbol → Prop
  | .global _ => True
  | .own slot => slot < f.arity
  | .captured => False

/-- Whether a function reads only variables of its own that have a
value. -/
def Function.Assigned (f : Function) : Prop := Code.Assigned f.given f.code

/-- Whether all functions that have code read only variables of their own
that have a value. -/
def Emission.Assigned (s : Emission) : Prop :=
  ∀ (i : Nat) f, s.functions[i]? = some f → f.Assigned

/-- What is known of the code of statements. -/
structure Valued (s s' : Emission) (start : Nat) (code : List Instr) :
    Prop where
  marked : valued.Marked start code s.symbols.Offers s'.symbols.Offers
  functions : s.Assigned → s'.Assigned

variable {s s' s₁ s₂ : Emission} {start : Nat} {code : List Instr}
  {span : Span} {u : Unit}

/-- A place that was reserved has no code. -/
theorem Function.assigned_nil (name : String) (arity : Nat)
    (locals : List String) : (⟨name, arity, locals, []⟩ : Function).Assigned :=
  fun _ _ _ _ _ hinstr => nomatch hinstr

theorem Emission.Assigned.congr (h : s.Assigned)
    (hfunctions : s'.functions = s.functions) : s'.Assigned := by
  unfold Assigned
  rw [hfunctions]
  exact h

theorem reserve_assigned {d : FnDecl} {index : Nat}
    (h : reserve d s = .ok index s') (hs : s.Assigned) : s'.Assigned := by
  obtain ⟨-, rfl⟩ := Prod.mk.inj (modifyGet_ok.1 h)
  intro i f hf
  dsimp only at hf
  rw [Array.getElem?_push] at hf
  split at hf
  · cases hf
    exact Function.assigned_nil _ _ _
  · exact hs i f hf

/-- Filling the place of a function. -/
theorem fill_assigned {index : Nat} {locals : List String}
    (h : fill index locals code s = .ok u s') (hs : s.Assigned)
    (hfilled : ∀ f, s.functions[index]? = some f →
      Code.Assigned f.given code) : s'.Assigned := by
  obtain rfl := modify_ok.1 h
  intro i f hf
  dsimp only at hf
  rw [Array.getElem?_modify] at hf
  split at hf
  case isTrue heq =>
      subst heq
      obtain ⟨g, hg, rfl⟩ := Option.map_eq_some_iff.1 hf
      exact hfilled g hg
  case isFalse => exact hs i f hf

theorem Symbols.Bounded.current {t : Symbols} (h : t.Bounded) :
    t.current.Wf := by
  obtain ⟨_ | ⟨frame, frames⟩, main⟩ := t
  · exact h.main
  · exact h.inner frame List.mem_cons_self

/-- Each parameter has one slot at most. -/
theorem length_declareAll_le (t : Symbols) (xs : List Ident) :
    (declareAll t xs).current.slots.length
      ≤ t.current.slots.length + xs.length := by
  induction xs generalizing t with
  | nil => exact Nat.le_refl _
  | cons x xs ih =>
      have hcurrent : (t.declare x.name).2.current =
          (t.current.declare x.name).2 := Symbols.current_onCurrent ..
      have hfirst : (t.declare x.name).2.current.slots.length
          ≤ t.current.slots.length + 1 := by
        rw [hcurrent]
        cases hname : t.current.block.lookup x.name with
        | some slot =>
            rw [Frame.declare_of_some hname]
            exact Nat.le_succ _
        | none =>
            rw [Frame.declare_of_none hname]
            exact Nat.le_of_eq (List.length_append ..)
      have hrest := ih (t.declare x.name).2
      rw [List.length_cons]
      refine Nat.le_trans hrest ?_
      omega

/-- What is offered where the body of a function begins is given. -/
theorem given_of_params {params : List Ident} {t : Symbols}
    (ht : t.Bounded) {f : Function} (harity : f.arity = params.length)
    {x : Symbol} (hx : (declareAll t.openFrame params).Offers x) :
    f.given x := by
  have hbounded := (declareAll_grows t.openFrame params).bounded ht.openFrame
  have hle := length_declareAll_le t.openFrame params
  cases x with
  | global slot => trivial
  | own slot =>
      have hlt := hbounded.current.bound slot hx.2
      show slot < f.arity
      rw [harity]
      exact Nat.lt_of_lt_of_le hlt (Nat.zero_add params.length ▸ hle)
  | captured => exact hx.elim

theorem function_assigned {d : FnDecl} {index : Nat}
    (hbody : ∀ {start s s' code}, s.symbols.Bounded →
      statementCode start false false d.body.statements s = .ok code s' →
        Valued s s' start code ∧ s.Progress s')
    (h : functionCode index d s = .ok u s') (hs : s.symbols.Bounded)
    (harity : (s.functions[index]?).map (·.arity) = some d.params.length)
    (hassigned : s.Assigned) : s'.Assigned := by
  obtain ⟨s₂, s₃, s₄, code, result, hparams, hcode, hresult, hfill⟩ :=
    functionCode_steps h
  obtain ⟨name, params, ⟨statements, bodySpan⟩, span⟩ := d
  have hdeclared := params_passes hparams
  have hsymbols₂ : s₂.symbols = declareAll s.symbols.openFrame params :=
    congrArg (·.symbols) hdeclared
  have hfunctions₂ : s₂.functions = s.functions :=
    congrArg (·.functions) hdeclared
  have hs₂ := (params_progress hparams).1.symbols.bounded hs.openFrame
  obtain ⟨⟨hmarked, hfunctions⟩, hprogress⟩ := hbody hs₂ hcode
  have hfunctions₄ := (push_ok hresult).1.functions
  have hassigned₄ : s₄.Assigned :=
    (hfunctions (hassigned.congr hfunctions₂)).congr hfunctions₄
  refine fill_assigned hfill hassigned₄ fun f hf => ?_
  have hf' : s₃.functions[index]? = some f := by
    rw [← hfunctions₄]
    exact hf
  have harity' := hprogress.arity (hfunctions₂ ▸ harity)
  rw [hf'] at harity'
  have hwhole := (hmarked.append (.push hresult)).append (.leave fun _ => True)
  refine (hwhole.strengthen fun x hx => ?_).assigned
  rw [hsymbols₂] at hx
  exact given_of_params hs (Option.some.inj harity') hx

-- =========================================================== statements

theorem Valued.append {l r : List Instr} (h : Valued s s₁ start l)
    (h' : Valued s₁ s' (start + l.length) r) :
    Valued s s' start (l ++ r) :=
  ⟨h.marked.append h'.marked, fun hs => h'.functions (h.functions hs)⟩

/-- Code that is made later is known from an earlier moment on. -/
theorem Valued.since (h : Valued s₁ s' start code) (hsteady : Steady s s₁) :
    Valued s s' start code :=
  ⟨hsteady.symbols ▸ h.marked, fun hs =>
    h.functions (hs.congr hsteady.functions)⟩

/-- A statement with a value and one more instruction that takes it. -/
theorem value_valued {e : Option Expr} {instr : Instr}
    (h : (do return (← optionalCode start e) ++ [instr] : Emit _) s =
      .ok code s') (hs : s.symbols.Bounded)
    (hinstr : ∀ start, valued.Marked start [instr] s.symbols.Offers
      s.symbols.Offers) : Valued s s' start code := by
  obtain ⟨value, s₁, hvalue, hcode⟩ := bind_ok.1 h
  obtain ⟨rfl, rfl⟩ := pure_ok.1 hcode
  have hsteady := (optionalCode_ok hvalue).steady
  refine ⟨?_, fun hassigned => hassigned.congr hsteady.functions⟩
  rw [hsteady.symbols]
  exact (optionalCode_marked hvalue hs).append (hinstr _)

/-- A store to the variable that was declared. -/
theorem declare_marked (start : Nat) {name : String} {x : Symbol}
    (h : Code.declare name s = .ok x s') :
    valued.Marked start (store x) s.symbols.Offers s'.symbols.Offers := by
  obtain ⟨rfl, rfl⟩ := declare_ok h
  exact .store (Symbols.Bounded.declare.symbol_ne_captured s.symbols name)
    fun _ hy => Symbols.offers_declare hy

theorem variable_valued {x : Ident} {init : Option Expr}
    (h : stmtCode start (.declare span x init) s = .ok code s')
    (hs : s.symbols.Bounded) : Valued s s' start code := by
  obtain ⟨value, s₁, hvalue, hrest⟩ := bind_ok.1 h
  obtain ⟨symbol, s₂, hdeclare, hcode⟩ := bind_ok.1 hrest
  obtain ⟨rfl, rfl⟩ := pure_ok.1 hcode
  have hsteady := (optionalCode_ok hvalue).steady
  have hstore := declare_marked (start + value.length) hdeclare
  rw [hsteady.symbols] at hstore
  refine ⟨(optionalCode_marked hvalue hs).append hstore, fun hassigned => ?_⟩
  exact (hassigned.congr hsteady.functions).congr (declare_progress hdeclare).2

/-- The code that binds a function to the name that was declared for
it. -/
theorem bind_marked (start index : Nat) {name : String} {x : Symbol}
    (h : Code.declare name s = .ok x s') :
    valued.Marked start (bindFunction x index) s.symbols.Offers
      s'.symbols.Offers :=
  .append (l := [.makeFunction index]) (.other rfl rfl) (declare_marked _ h)

/-- A statement that declares a function. -/
theorem function_valued {d : FnDecl}
    (hbody : ∀ {index s s' u}, s.symbols.Bounded →
      (s.functions[index]?).map (·.arity) = some d.params.length →
        functionCode index d s = .ok u s' → s.Assigned → s'.Assigned)
    (h : stmtCode start (.function d) s = .ok code s')
    (hs : s.symbols.Bounded) : Valued s s' start code := by
  obtain ⟨symbol, s₁, hdeclare, h₁⟩ := bind_ok.1 h
  obtain ⟨index, s₂, hreserve, h₂⟩ := bind_ok.1 h₁
  obtain ⟨u, s₃, hfunction, hcode⟩ := bind_ok.1 h₂
  obtain ⟨rfl, rfl⟩ := pure_ok.1 hcode
  obtain ⟨hprogress₁, hfunctions₁⟩ := declare_progress hdeclare
  have hreserved := reserve_reserved hreserve
  have hs₂ := hreserved.symbols ▸ hprogress₁.symbols.bounded hs
  have hsymbols : s₃.symbols = s₁.symbols :=
    (functionCode_passes d hfunction).symbols.trans hreserved.symbols
  refine ⟨hsymbols ▸ bind_marked _ index hdeclare, fun hassigned => ?_⟩
  exact hbody hs₂ hreserved.arity hfunction
    (reserve_assigned hreserve (hassigned.congr hfunctions₁))

-- ================================================ conditions and blocks

/-- The passage does not depend on the function that it is in. -/
theorem stmtCode_symbols {t : Stmt} (h : stmtCode start t s = .ok code s') :
    s'.symbols = t.after s.symbols := by
  have hpasses (fn : Option Span) (hfn : fn.isSome = !s.symbols.inMain) :=
    (stmtCode_passes t hfn h).symbols
  cases hmain : s.symbols.inMain with
  | true => exact hpasses none (hmain ▸ rfl)
  | false => exact hpasses (some t.span) (hmain ▸ rfl)

/-- Behind an else part, the same is offered as in front of it. -/
theorem elseCode_offers {t : Stmt} (ht : t.isElse = true)
    (hbraced : t.isBraced = true) (h : stmtCode start t s = .ok code s') :
    s'.symbols.Offers = s.symbols.Offers := by
  rw [stmtCode_symbols h]
  exact (t.after_grows s.symbols).offers_eq
    (t.after_block hbraced (Stmt.declared?_of_isElse ht) s.symbols)

/-- Behind a block, the same is offered as in front of it. -/
theorem blockCode_offers {b : Block} (h : blockCode start b s = .ok code s') :
    s'.symbols.Offers = s.symbols.Offers := by
  have hsymbols : s'.symbols = b.after s.symbols :=
    stmtCode_symbols (t := .block b) h
  rw [hsymbols]
  exact (b.after_grows s.symbols).offers_eq (b.after_block s.symbols)

theorem block_valued {statements : List Stmt}
    (hstmts : ∀ {s s' code}, s.symbols.Bounded →
      statementCode start false false statements s = .ok code s' →
        Valued s s' start code)
    (h : blockCode start ⟨statements, span⟩ s = .ok code s')
    (hs : s.symbols.Bounded) : Valued s s' start code := by
  obtain ⟨s₁, hmade, rfl⟩ := blockCode_steps h
  have hinner := hstmts (s := { s with symbols := s.symbols.openBlock })
    (block_made.bounded_openBlock hs) hmade
  exact ⟨(hinner.marked.strengthen fun _ => Symbols.offers_of_openBlock).weaken
    fun _ => Symbols.offers_of_closeBlock, hinner.functions⟩

section

variable {cond : Expr} {b : Block}

theorem branch_valued
    (hb : ∀ {start s s' code}, s.symbols.Bounded →
      blockCode start b s = .ok code s' → Valued s s' start code)
    (h : stmtCode start (.branch span cond b none) s = .ok code s')
    (hs : s.symbols.Bounded) : Valued s s' start code := by
  obtain ⟨test, s₁, htest, hrest⟩ := bind_ok.1 h
  obtain ⟨yes, s₂, hyes, hcode⟩ := bind_ok.1 hrest
  obtain ⟨rfl, rfl⟩ := pure_ok.1 hcode
  have hsteady := (exprCode_ok cond htest).steady
  have hoffers := blockCode_offers hyes
  obtain ⟨hmarked, hfunctions⟩ :=
    (hb (hsteady.symbols ▸ hs) hyes).since hsteady
  rw [hsteady.symbols] at hoffers
  rw [hoffers] at hmarked
  obtain ⟨hasks, hleads⟩ := valued_test (start + test.length + 1 + yes.length)
    s.symbols.Offers
  refine ⟨?_, hfunctions⟩
  rw [hoffers]
  exact (exprCode_marked htest hs).append (.branch hasks hleads hmarked rfl)

theorem choice_valued {t : Stmt}
    (hb : ∀ {start s s' code}, s.symbols.Bounded →
      blockCode start b s = .ok code s' →
        Valued s s' start code ∧ s.Progress s')
    (ht : ∀ {start s s' code}, s.symbols.Bounded →
      stmtCode start t s = .ok code s' → Valued s s' start code)
    (helse : t.isElse = true ∧ t.isBraced = true)
    (h : stmtCode start (.branch span cond b (some t)) s = .ok code s')
    (hs : s.symbols.Bounded) : Valued s s' start code := by
  obtain ⟨test, s₁, htest, hrest⟩ := bind_ok.1 h
  obtain ⟨yes, s₂, hyes, hrest'⟩ := bind_ok.1 hrest
  obtain ⟨no, s₃, hno, hcode⟩ := bind_ok.1 hrest'
  obtain ⟨rfl, rfl⟩ := pure_ok.1 hcode
  have hsteady := (exprCode_ok cond htest).steady
  have hs₁ := hsteady.symbols ▸ hs
  obtain ⟨hvalued, hprogress⟩ := hb hs₁ hyes
  obtain ⟨hyesMarked, hyesFunctions⟩ := hvalued.since hsteady
  obtain ⟨hnoMarked, hnoFunctions⟩ := ht (hprogress.symbols.bounded hs₁) hno
  -- Neither part leaves a name behind.
  have hoffers₂ := blockCode_offers hyes
  have hoffers₃ := elseCode_offers helse.1 helse.2 hno
  rw [hsteady.symbols] at hoffers₂
  rw [hoffers₂] at hyesMarked hnoMarked hoffers₃
  rw [hoffers₃] at hnoMarked
  obtain ⟨hasks, hleads⟩ := valued_test
    (start + test.length + 1 + yes.length + 1) s.symbols.Offers
  refine ⟨?_, fun hassigned => hnoFunctions (hyesFunctions hassigned)⟩
  rw [hoffers₃, List.append_assoc, List.cons_append]
  exact (exprCode_marked htest hs).append
    (.choice hasks hleads hyesMarked hnoMarked rfl rfl)

theorem loop_valued
    (hb : ∀ {start s s' code}, s.symbols.Bounded →
      blockCode start b s = .ok code s' → Valued s s' start code)
    (h : stmtCode start (.loop span cond b) s = .ok code s')
    (hs : s.symbols.Bounded) : Valued s s' start code := by
  obtain ⟨test, s₁, htest, hrest⟩ := bind_ok.1 h
  obtain ⟨body, s₂, hbody, hcode⟩ := bind_ok.1 hrest
  obtain ⟨rfl, rfl⟩ := pure_ok.1 hcode
  have hsteady := (exprCode_ok cond htest).steady
  have hoffers := blockCode_offers hbody
  obtain ⟨hmarked, hfunctions⟩ :=
    (hb (hsteady.symbols ▸ hs) hbody).since hsteady
  rw [hsteady.symbols] at hoffers
  rw [hoffers] at hmarked
  obtain ⟨hasks, hleads⟩ := valued_test
    (start + test.length + 1 + body.length + 1) s.symbols.Offers
  refine ⟨?_, hfunctions⟩
  rw [hoffers, List.append_assoc, List.cons_append]
  exact .loop hasks hleads (exprCode_marked htest hs) hmarked rfl

end

mutual

theorem stmtCode_valued : ∀ (t : Stmt) {inside : Bool},
    t.isLawful inside = true → t.isBraced = true → ∀ {start : Nat}
      {s s' : Emission} {code : List Instr}, s.symbols.Bounded →
        stmtCode start t s = .ok code s' → Valued s s' start code
  | .declare _ _ _, _, _, _, _, _, _, _, hs, h => variable_valued h hs
  | .function d, _, hlawful, hbraced, _, _, _, _, hs, h =>
      function_valued (fun hs harity h =>
        functionCode_assigned d hlawful hbraced hs harity h) h hs
  | .expression _ e, _, _, _, _, _, _, _, hs, h =>
      value_valued (e := some e) h hs fun _ => .other rfl rfl
  | .block b, _, hlawful, hbraced, _, _, _, _, hs, h =>
      blockCode_valued b hlawful hbraced hs h
  | .branch _ _ b none, _, hlawful, hbraced, _, _, _, _, hs, h => by
      obtain ⟨hlawful, -⟩ := Bool.and_eq_true_iff.1 hlawful
      obtain ⟨hbraced, -⟩ := Bool.and_eq_true_iff.1 hbraced
      exact branch_valued (blockCode_valued b hlawful hbraced) h hs
  | .branch _ _ b (some t), _, hlawful, hbraced, _, _, _, _, hs, h => by
      obtain ⟨hlawful, hlawful'⟩ := Bool.and_eq_true_iff.1 hlawful
      obtain ⟨hbraced, helse⟩ := Bool.and_eq_true_iff.1 hbraced
      obtain ⟨ht, hbraced'⟩ := Bool.and_eq_true_iff.1 helse
      exact choice_valued (fun hs h =>
        ⟨blockCode_valued b hlawful hbraced hs h,
          (blockCode_made b hlawful hs h).progress⟩)
        (stmtCode_valued t hlawful' hbraced') ⟨ht, hbraced'⟩ h hs
  | .loop _ _ b, _, hlawful, hbraced, _, _, _, _, hs, h =>
      loop_valued (blockCode_valued b hlawful hbraced) h hs
  | .giveBack _ _, _, _, _, _, _, _, _, hs, h =>
      value_valued h hs fun _ => .leave _
  | .print _ e, _, _, _, _, _, _, _, hs, h =>
      value_valued (e := some e) h hs fun _ => .other rfl rfl
  | .empty _, _, _, _, _, _, _, _, _, h => by
      obtain ⟨rfl, rfl⟩ := pure_ok.1 h
      exact ⟨.nil, id⟩

theorem functionCode_assigned : ∀ (d : FnDecl), d.isLawful = true →
    d.isBraced = true → ∀ {index : Nat} {s s' : Emission} {u : Unit},
      s.symbols.Bounded →
        (s.functions[index]?).map (·.arity) = some d.params.length →
          functionCode index d s = .ok u s' → s.Assigned → s'.Assigned
  | ⟨_, _, ⟨ts, _⟩, _⟩, hlawful, hbraced, _, _, _, _, hs, harity, h => by
      obtain ⟨-, hlawful⟩ := Bool.and_eq_true_iff.1 hlawful
      exact function_assigned (fun hs h =>
        ⟨statementCode_valued ts hlawful hbraced hs h,
          (statementCode_made ts hlawful hs h).progress⟩) h hs harity

theorem blockCode_valued : ∀ (b : Block) {inside : Bool},
    b.isLawful inside = true → b.isBraced = true → ∀ {start : Nat}
      {s s' : Emission} {code : List Instr}, s.symbols.Bounded →
        blockCode start b s = .ok code s' → Valued s s' start code
  | ⟨ts, _⟩, _, hlawful, hbraced, _, _, _, _, hs, h =>
      block_valued (fun hs h => statementCode_valued ts hlawful hbraced hs h)
        h hs

theorem statementCode_valued : ∀ (ts : List Stmt) {inside : Bool},
    stmtsAreLawful inside ts = true → stmtsAreBraced ts = true →
      ∀ {start : Nat} {returned warned : Bool} {s s' : Emission}
        {code : List Instr}, s.symbols.Bounded →
          statementCode start returned warned ts s = .ok code s' →
            Valued s s' start code
  | [], _, _, _, _, _, _, _, _, _, _, h => by
      obtain ⟨rfl, rfl⟩ := pure_ok.1 h
      exact ⟨.nil, id⟩
  | t :: ts, _, hlawful, hbraced, start, returned, warned, s, s', code, hs,
      h => by
      obtain ⟨hlawful, hlawful'⟩ := Bool.and_eq_true_iff.1 hlawful
      obtain ⟨hbraced, hbraced'⟩ := Bool.and_eq_true_iff.1 hbraced
      obtain ⟨_, _, _, first, rest, hsteady, hfirst, hrest, rfl⟩ :=
        statementCode_cons h
      have hs₁ := hsteady.symbols ▸ hs
      have hprogress := (stmtCode_made t hlawful hs₁ hfirst).progress
      have ht := stmtCode_valued t hlawful hbraced hs₁ hfirst
      have hts := statementCode_valued ts hlawful' hbraced'
        (hprogress.symbols.bounded hs₁) hrest
      exact (ht.since hsteady).append hts

end

-- ============================================================= programs

/-- The functions at the top are bound in front of everything, and their
places are reserved. -/
theorem hoist_valued {ds : List FnDecl} {bodies : List (Nat × FnDecl)}
    (h : hoist ds s = .ok (code, bodies) s') : Valued s s' start code := by
  induction ds generalizing s start code bodies with
  | nil =>
      obtain ⟨hcode, rfl⟩ := pure_ok.1 h
      obtain ⟨rfl, -⟩ := Prod.mk.inj hcode
      exact ⟨.nil, id⟩
  | cons d ds ih =>
      obtain ⟨symbol, s₁, hdeclare, h₁⟩ := bind_ok.1 h
      obtain ⟨index, s₂, hreserve, h₂⟩ := bind_ok.1 h₁
      obtain ⟨⟨rest, others⟩, s₃, hrest, hcode⟩ := bind_ok.1 h₂
      obtain ⟨hpair, rfl⟩ := pure_ok.1 hcode
      obtain ⟨rfl, -⟩ := Prod.mk.inj hpair
      have hbind := bind_marked start index hdeclare
      rw [← (reserve_reserved hreserve).symbols] at hbind
      have hfirst : Valued s s₂ start (bindFunction symbol index) :=
        ⟨hbind, fun hassigned => reserve_assigned hreserve
          (hassigned.congr (declare_progress hdeclare).2)⟩
      exact hfirst.append (ih hrest)

theorem topLevelCode_valued {ts : List Stmt}
    (hlawful : stmtsAreLawful false ts = true)
    (hbraced : stmtsAreBraced ts = true)
    (h : topLevelCode start ts s = .ok code s') (hs : s.symbols.Bounded) :
    Valued s s' start code := by
  induction ts generalizing s start code with
  | nil =>
      have hsteady := (push_ok h).1
      exact ⟨hsteady.symbols ▸ .push h, fun hassigned =>
        hassigned.congr hsteady.functions⟩
  | cons t ts ih =>
      obtain ⟨hlawful, hlawful'⟩ := Bool.and_eq_true_iff.1 hlawful
      obtain ⟨hbraced, hbraced'⟩ := Bool.and_eq_true_iff.1 hbraced
      rcases topLevelCode_cons h with ⟨d, rfl, hrest⟩
        | ⟨span, e, rfl, rfl, he⟩
        | ⟨-, -, s₁, first, rest, hfirst, hrest, rfl⟩
      · exact ih hlawful' hbraced' hrest hs
      · have hsteady := (exprCode_ok e he).steady
        refine ⟨?_, fun hassigned => hassigned.congr hsteady.functions⟩
        rw [hsteady.symbols]
        exact exprCode_marked he hs
      · have hprogress := (stmtCode_made t hlawful hs hfirst).progress
        exact (stmtCode_valued t hlawful hbraced hs hfirst).append
          (ih hlawful' hbraced' hrest (hprogress.symbols.bounded hs))

theorem bodies_assigned {bodies : List (Nat × FnDecl)}
    (hgood : ∀ b ∈ bodies, b.2.isLawful = true ∧ b.2.isBraced = true)
    (h : (bodies.forM fun (index, d) => functionCode index d : Emit Unit)
      s = .ok u s') (hs : s.symbols.Bounded)
    (harities : ∀ b ∈ bodies,
      (s.functions[b.1]?).map (·.arity) = some b.2.params.length)
    (hassigned : s.Assigned) : s'.Assigned := by
  induction bodies generalizing s with
  | nil =>
      obtain ⟨-, rfl⟩ := pure_ok.1 h
      exact hassigned
  | cons b bodies ih =>
      obtain ⟨index, d⟩ := b
      obtain ⟨u', s₁, hfirst, hrest⟩ := bind_ok.1 h
      obtain ⟨⟨hlawful, hbraced⟩, hgood⟩ := List.forall_mem_cons.1 hgood
      obtain ⟨harity, harities⟩ := List.forall_mem_cons.1 harities
      have hfilled := functionCode_filled d hlawful hs harity hfirst
      exact ih hgood hrest (hfilled.symbols ▸ hs)
        (fun b hb => hfilled.progress.arity (harities b hb))
        (functionCode_assigned d hlawful hbraced hs harity hfirst hassigned)

theorem braced_functions {ts : List Stmt} (h : stmtsAreBraced ts = true) :
    ∀ d ∈ ts.filterMap Stmt.function?, d.isBraced = true := by
  intro d hd
  obtain ⟨t, ht, hfunction⟩ := List.mem_filterMap.1 hd
  have hbraced := stmtsAreBraced_iff.1 h t ht
  cases t with
  | function e =>
      cases hfunction
      exact hbraced
  | _ => cases hfunction

/-- When a program has become code, all functions read only variables of
their own that have a value. The main function is the first of them, and
nothing has a value when it begins. -/
theorem programCode_assigned {p : Program} (hlawful : p.isLawful = true)
    (hbraced : stmtsAreBraced p.statements = true)
    (h : programCode p .start = .ok u s') :
    s'.Assigned ∧ ∃ code others,
      s'.functions.toList = ⟨mainName, 0, [], code⟩ :: others
        ∧ Code.Assigned (fun _ => False) code := by
  obtain ⟨⟨bound, bodies⟩, s₁, hhoist, h₁⟩ := bind_ok.1 h
  obtain ⟨code, s₂, hcode, h₂⟩ := bind_ok.1 h₁
  obtain ⟨u₃, s₃, hfill, hbodies⟩ := bind_ok.1 h₂
  have hs : Emission.start.symbols.Bounded :=
    ⟨fun _ hf => absurd hf List.not_mem_nil, .empty⟩
  have hstart : Emission.start.Assigned := by
    rintro (_ | i) f hf
    · cases hf
      exact Function.assigned_nil _ _ _
    · cases hf
  have hhoisted := hoist_hoisted hhoist hs
  have hs₁ := hhoisted.progress.symbols.bounded hs
  have hfinished := topLevelCode_made hlawful hcode hs₁
  have hvalued : Valued .start s₂ 0 (bound ++ code) :=
    (hoist_valued hhoist).append ((Nat.zero_add bound.length).symm ▸
      topLevelCode_valued hlawful hbraced hcode hs₁)
  have hmain : Code.Assigned (fun _ => False) (bound ++ code ++ [.leave]) := by
    refine ((hvalued.marked.append (.leave fun _ => True)).strengthen
      fun x hx => ?_).assigned
    -- Before the first statement there is no name.
    cases x with
    | global slot => exact absurd (hx rfl) List.not_mem_nil
    | own slot => exact nomatch hx.1
    | captured => exact hx
  have hassigned := fill_assigned hfill (hvalued.functions hstart)
    fun f _ => hmain.mono nofun
  have hprogress := hfinished.progress.trans (fill_progress hfill)
  obtain ⟨-, hds⟩ := hoist_passes hhoist
  refine ⟨bodies_assigned (fun b hb => ?_) hbodies
    (hprogress.symbols.bounded hs₁)
    (fun b hb => hprogress.arity (hhoisted.arities b hb)) hassigned, ?_⟩
  · have hmem : b.2 ∈ p.functions := hds ▸ List.mem_map_of_mem hb
    exact ⟨lawful_functions hlawful b.2 hmem,
      braced_functions hbraced b.2 hmem⟩
  · -- The bodies leave the first place as it is.
    obtain ⟨fs, hfs, hlength, hplaces, -⟩ := hoist_places none hhoist
    have hmain₁ : s₁.symbols.inMain = true := hhoisted.progress.symbols.inMain
    obtain ⟨-, -, m, hm, -⟩ := topLevelCode_passes hmain₁ hcode
    obtain rfl := modify_ok.1 hfill
    let filled : Function := ⟨mainName, 0, [], bound ++ code ++ [.leave]⟩
    obtain ⟨gs, hs, hsplit, -⟩ := (bodies_passes hbodies).2.2 [filled] fs m
      (by rw [Array.toList_modify, hm, hfs]; rfl) hlength hplaces
    exact ⟨_, _, hsplit, hmain⟩

end Script.Code

namespace Script

open Code

/-- The code of a program that was read without an error reads only
variables that have a value. -/
theorem Program.code_assigned {file : FileId} {text : String} {c : Code}
    (hread : hasErrors (ofText file text).2 = false)
    (hcode : (Code.ofProgram (ofText file text).1).1 = some c) :
    (∀ f ∈ c.functions, f.Assigned) ∧ ∃ code others,
      c.functions = ⟨mainName, 0, [], code⟩ :: others
        ∧ Code.Assigned (fun _ => False) code := by
  obtain ⟨body, -, hstmts, hlawful⟩ := ofText_of_no_error hread
  unfold Code.ofProgram at hcode
  split at hcode
  case h_1 s hmade =>
      cases hcode
      obtain ⟨hassigned, hmain⟩ :=
        programCode_assigned hlawful hstmts.isBraced hmade
      refine ⟨fun f hf => ?_, hmain⟩
      obtain ⟨i, hi⟩ := List.mem_iff_getElem?.1 hf
      rw [Array.getElem?_toList] at hi
      exact hassigned i f hi
  case h_2 => cases hcode

/-- On each way to a place where a function reads one of its own slots,
this is the slot of a parameter or something was stored in it; and on each
way to a place where the main function reads a global variable, something
was stored in this variable. -/
theorem Program.reads_stored {file : FileId} {text : String} {c : Code}
    (hread : hasErrors (ofText file text).2 = false)
    (hcode : (Code.ofProgram (ofText file text).1).1 = some c) :
    (∀ f ∈ c.functions, ∀ run place k, Way f.code run place →
        f.code[place]? = some (.loadLocal k) →
          k < f.arity ∨ .storeLocal k ∈ run)
      ∧ ∃ main others, c.functions = main :: others ∧ main.name = mainName
        ∧ ∀ run place k, Way main.code run place →
          main.code[place]? = some (.loadGlobal k) →
            .storeGlobal k ∈ run := by
  obtain ⟨hassigned, code, others, hfunctions, hmain⟩ :=
    code_assigned hread hcode
  refine ⟨fun f hf run place k hway hload => ?_, _, _, hfunctions, rfl,
    fun run place k hway hload => ?_⟩
  · refine (hassigned f hf run place _ (.own k) hway hload
      rfl).imp_right fun ⟨instr, hinstr, hwrites⟩ => ?_
    exact Instr.writes?_own.1 hwrites ▸ hinstr
  · obtain hgiven | ⟨instr, hinstr, hwrites⟩ :=
      hmain run place _ (.global k) hway hload rfl
    · exact hgiven.elim
    · exact Instr.writes?_global.1 hwrites ▸ hinstr

/-- A loop round a block that declares a variable again, for whose second
value it reads the first one. -/
theorem Program.reads_stored_again :
    let text := "fn f(n) \x7b
        while n > 0 \x7b let m = n - 1; let m = m && n; n = m; \x7d
        n;
      \x7d
      f(3)"
    hasErrors (ofText 0 text).2 = false
      ∧ ∃ c, (Code.ofProgram (ofText 0 text).1).1 = some c
        ∧ c.functions.length = 2
        ∧ (∀ f ∈ c.functions, ∀ run place k, Way f.code run place →
            f.code[place]? = some (.loadLocal k) →
              k < f.arity ∨ .storeLocal k ∈ run)
        ∧ ∃ main others, c.functions = main :: others
          ∧ main.name = mainName
          ∧ ∀ run place k, Way main.code run place →
            main.code[place]? = some (.loadGlobal k) →
              .storeGlobal k ∈ run := by
  intro text
  have hread : hasErrors (ofText 0 text).2 = false := by decide +kernel
  have hcode : ((Code.ofProgram (ofText 0 text).1).1).map
      (·.functions.length) = some 2 := by decide +kernel
  obtain ⟨c, hc, hlength⟩ := Option.map_eq_some_iff.1 hcode
  exact ⟨hread, c, hc, hlength, reads_stored hread hc⟩

end Script
