/-
The code of statements and of functions. The names that a statement
declares are known behind it, so the site behind its code is another one
than the site in front of it; behind a block the site is the same. A
function is made in a frame of its own, whose first names are its
parameters, and only its place among the functions is filled.
-/
import Script.Proofs.Grammar.Shape
import Script.Proofs.Stack.Emitted

namespace Script.Stack

open Code Script.Action

/-- What becomes of an emission while the code of a statement without
functions is made. -/
structure Growing (s s' : Emission) : Prop where
  symbols : s.symbols.Grows s'.symbols
  functions : s'.functions = s.functions
  constants : s.constants.toList <+: s'.constants.toList

theorem Growing.refl (s : Emission) : Growing s s :=
  ⟨.refl _, rfl, List.prefix_refl _⟩

theorem Growing.trans {s s' s'' : Emission} (h : Growing s s')
    (h' : Growing s' s'') : Growing s s'' :=
  ⟨h.symbols.trans h'.symbols, h'.functions.trans h.functions,
    h.constants.trans h'.constants⟩

theorem Steady.growing {s s' : Emission} (h : Steady s s') :
    Growing s s' :=
  ⟨h.symbols ▸ .refl _, h.functions, h.constants⟩

/-- What is known of the code of a statement. -/
structure MakesStmt (s s' : Emission) (start : Nat) (t : Stmt)
    (code : List Instr) : Prop where
  growing : Growing s s'
  placed : ∀ {constants roots limit full},
    s'.constants.toList <+: constants → s.symbols.current.Wf →
      s'.symbols.Fits roots limit → At full start code →
        StmtAt constants roots full (s.symbols.site limit) start t
          (start + code.length) (s'.symbols.site limit)

/-- What is known of the code of statements in order. -/
structure MakesStmts (s s' : Emission) (start : Nat) (ts : List Stmt)
    (code : List Instr) : Prop where
  growing : Growing s s'
  placed : ∀ {constants roots limit full},
    s'.constants.toList <+: constants → s.symbols.current.Wf →
      s'.symbols.Fits roots limit → At full start code →
        StmtsAt constants roots full (s.symbols.site limit) start ts
          (start + code.length) (s'.symbols.site limit)

/-- What is known of the code of a block. -/
structure MakesBlock (s s' : Emission) (start : Nat) (b : Block)
    (code : List Instr) : Prop where
  growing : Growing s s'
  site : ∀ limit, s'.symbols.site limit = s.symbols.site limit
  placed : ∀ {constants roots limit full},
    s'.constants.toList <+: constants → s.symbols.current.Wf →
      s'.symbols.Fits roots limit → At full start code →
        BlockAt constants roots full (s.symbols.site limit) start b
          (start + code.length)

variable {s s' s₁ : Emission} {code : List Instr} {start : Nat}
  {constants : List Constant} {roots : Names} {limit : Nat}
  {full : List Instr} {span : Span}

-- =============================================================== pieces

theorem onSymbols_ok {f : Symbols → Symbols} {u : Unit}
    (h : onSymbols f s = .ok u s') :
    s' = { s with symbols := f s.symbols } :=
  (modify_ok.1 h).symm

/-- The code of a block is the code of its statements, with a table of its
own. -/
theorem blockCode_steps {b : Block} (h : blockCode start b s = .ok code s') :
    ∃ s₁, statementCode start false false b.statements
        { s with symbols := s.symbols.openBlock } = .ok code s₁
      ∧ s' = { s₁ with symbols := s₁.symbols.closeBlock } := by
  obtain ⟨ss, span⟩ := b
  obtain ⟨u, s₁, hopen, hrest⟩ := bind_ok.1 h
  obtain ⟨inner, s₂, hmade, hrest'⟩ := bind_ok.1 hrest
  obtain ⟨u', s₃, hclose, hcode⟩ := bind_ok.1 hrest'
  obtain ⟨rfl, rfl⟩ := pure_ok.1 hcode
  obtain rfl := onSymbols_ok hopen
  obtain rfl := onSymbols_ok hclose
  exact ⟨s₂, hmade, rfl⟩

/-- Parameters are declared one after the other. -/
theorem declareParams_cons {p : Ident} {params : List Ident} {u : Unit}
    (h : ((p :: params).forM fun p => discard (Code.declare p.name) :
      Emit Unit) s = .ok u s') :
    (params.forM fun p => discard (Code.declare p.name) : Emit Unit)
      { s with symbols := (s.symbols.declare p.name).2 } = .ok u s' := by
  obtain ⟨u', s₁, hfirst, hrest⟩ := bind_ok.1 h
  have hfirst' : ((fun _ => ()) <$> Code.declare p.name : Emit Unit) s =
      .ok u' s₁ := hfirst
  obtain ⟨x, hdeclare, -⟩ := map_ok.1 hfirst'
  obtain ⟨-, rfl⟩ := declare_ok hdeclare
  exact hrest

/-- The steps in which the code of a function is made and put into its
place. -/
theorem functionCode_steps {d : FnDecl} {index : Nat} {u : Unit}
    (h : functionCode index d s = .ok u s') :
    ∃ s₁ s₂ s₃ code result,
      (d.params.forM fun p => discard (Code.declare p.name) : Emit Unit)
          { s with symbols := s.symbols.openFrame } = .ok () s₁
        ∧ statementCode 0 false false d.body.statements s₁ = .ok code s₂
        ∧ push .nil s₂ = .ok result s₃
        ∧ fill index s₃.symbols.closeFrame.1 (code ++ result ++ [.leave])
          { s₃ with symbols := s₃.symbols.closeFrame.2 } = .ok u s' := by
  obtain ⟨name, params, ⟨statements, bodySpan⟩, span⟩ := d
  obtain ⟨u₁, s₁, hopen, h₁⟩ := bind_ok.1 h
  obtain ⟨u₂, s₂, hparams, h₂⟩ := bind_ok.1 h₁
  obtain ⟨code, s₃, hcode, h₃⟩ := bind_ok.1 h₂
  obtain ⟨result, s₄, hresult, h₄⟩ := bind_ok.1 h₃
  obtain ⟨s₅, s₆, hget, h₅⟩ := bind_ok.1 h₄
  obtain ⟨u₇, s₇, hclose, hfill⟩ := bind_ok.1 h₅
  obtain ⟨rfl, rfl⟩ := get_ok.1 hget
  obtain rfl := onSymbols_ok hopen
  obtain rfl := onSymbols_ok hclose
  exact ⟨s₂, s₃, s₄, code, result, hparams, hcode, hresult, hfill⟩

theorem symbol_ne_captured (s : Symbols) (name : String) :
    (s.declare name).1 ≠ .captured := by
  unfold Symbols.declare
  show (if s.inMain then Symbol.global _ else Symbol.own _) ≠ _
  split <;> exact nofun

/-- What is known of the code of a value that may be left out. -/
structure MakesOption (s s' : Emission) (start : Nat) (e : Option Expr)
    (code : List Instr) : Prop where
  steady : Steady s s'
  placed : ∀ {constants roots limit full},
    s'.constants.toList <+: constants → s.symbols.Fits roots limit →
      At full start code → OptionAt constants roots full
        (s.symbols.site limit) start e (start + code.length)

theorem optionalCode_ok {e : Option Expr}
    (h : optionalCode start e s = .ok code s') :
    MakesOption s s' start e code := by
  cases e with
  | none =>
      obtain ⟨hsteady, index, rfl, hindex⟩ := push_ok h
      exact ⟨hsteady, fun hconstants _ hat =>
        .none (pushAt hindex hconstants (hat.head rfl))⟩
  | some e =>
      have he := exprCode_ok e h
      exact ⟨he.steady, fun hconstants hfits hat =>
        .some (he.placed hconstants hfits hat)⟩

theorem StmtAt.cast {site site' site'' : Site} {t : Stmt} {i j k : Nat}
    (h : StmtAt constants roots full site i t j site') (hk : k = j)
    (hsite : site'' = site') :
    StmtAt constants roots full site i t k site'' :=
  hk ▸ hsite ▸ h

/-- Blocks and conditions leave the site as it is. -/
theorem StmtAt.site_eq {site site' : Site} {t : Stmt} {i j : Nat}
    (h : StmtAt constants roots full site i t j site')
    (ht : t.isElse = true) : site' = site := by
  cases h with
  | declare => cases ht
  | _ => rfl

-- ===================================================== plain statements

theorem MakesStmt.declare {x : Ident} {init : Option Expr}
    (h : stmtCode start (.declare span x init) s = .ok code s') :
    MakesStmt s s' start (.declare span x init) code := by
  obtain ⟨value, s₁, hvalue, hrest⟩ := bind_ok.1 h
  obtain ⟨symbol, s₂, hdeclare, hcode⟩ := bind_ok.1 hrest
  obtain ⟨rfl, rfl⟩ := pure_ok.1 hcode
  have hinit := optionalCode_ok hvalue
  obtain ⟨rfl, rfl⟩ := declare_ok hdeclare
  obtain ⟨instr, hinstr, hstore⟩ :=
    store_eq (symbol_ne_captured s₁.symbols x.name)
  rw [hinstr]
  have hgrows := Symbols.Grows.declare s₁.symbols x.name
  refine ⟨hinit.steady.growing.trans ⟨hgrows, rfl, List.prefix_refl _⟩,
    fun hconstants hwf hfits hat => ?_⟩
  rw [← hinit.steady.symbols] at hwf
  have hfits₁ := hfits.before hgrows
  have hdeclares := Symbols.Fits.declares hwf hfits
  rw [hinit.steady.symbols] at hfits₁ hdeclares
  refine .cast (.declare (hinit.placed hconstants hfits₁ hat.left) hdeclares
    (hinit.steady.symbols ▸ hstore) (hat.right.head rfl)) ?_ ?_
  · simp [Nat.add_assoc]
  · rw [← hinit.steady.symbols]

/-- A statement with a value and one more instruction. -/
theorem MakesStmt.value {t : Stmt} {e : Option Expr} {instr : Instr}
    (h : (do return (← optionalCode start e) ++ [instr] : Emit _) s =
      .ok code s')
    (ht : ∀ {constants roots full site j},
      OptionAt constants roots full site start e j →
        full[j]? = some instr →
          StmtAt constants roots full site start t (j + 1) site) :
    MakesStmt s s' start t code := by
  obtain ⟨value, s₁, hvalue, hcode⟩ := bind_ok.1 h
  obtain ⟨rfl, rfl⟩ := pure_ok.1 hcode
  have he := optionalCode_ok hvalue
  refine ⟨he.steady.growing, fun hconstants _ hfits hat => ?_⟩
  rw [he.steady.symbols] at hfits ⊢
  refine .cast (ht (he.placed hconstants hfits hat.left)
    (hat.right.head rfl)) ?_ rfl
  simp [Nat.add_assoc]

theorem OptionAt.of_some {site : Site} {e : Expr} {i j : Nat}
    (h : OptionAt constants roots full site i (Option.some e) j) :
    ExprAt constants roots full site i e j := by
  cases h with
  | some h => exact h

-- =============================================================== blocks

theorem MakesBlock.of_statements {b : Block}
    (hstmts : ∀ {s s' code},
      statementCode start false false b.statements s = .ok code s' →
        MakesStmts s s' start b.statements code)
    (h : blockCode start b s = .ok code s') : MakesBlock s s' start b code := by
  obtain ⟨s₁, hmade, rfl⟩ := blockCode_steps h
  obtain ⟨ss, span⟩ := b
  have hss := hstmts hmade
  have hgrows := hss.growing.symbols
  refine ⟨⟨hgrows.block, hss.growing.functions, hss.growing.constants⟩,
    fun limit => Symbols.site_closeBlock limit hgrows,
    fun hconstants hwf hfits hat => ?_⟩
  have hss' := hss.placed hconstants (Symbols.wf_openBlock hwf)
    (hfits.inside hgrows) hat
  rw [Symbols.site_openBlock] at hss'
  exact .mk hss'

-- ================================================ conditions and loops

/-- Code that is made later is known from an earlier moment on. -/
theorem MakesBlock.since {b : Block} (h : MakesBlock s₁ s' start b code)
    (hsteady : Steady s s₁) : MakesBlock s s' start b code := by
  refine ⟨hsteady.growing.trans h.growing, fun limit => ?_,
    fun hconstants hwf hfits hat => ?_⟩
  · rw [h.site, hsteady.symbols]
  · have hb := h.placed hconstants (hsteady.symbols.symm ▸ hwf) hfits hat
    rwa [hsteady.symbols] at hb

section

variable {cond : Expr} {b : Block}

theorem MakesStmt.branch
    (hb : ∀ {start s s' code}, blockCode start b s = .ok code s' →
      MakesBlock s s' start b code)
    (h : stmtCode start (.branch span cond b none) s = .ok code s') :
    MakesStmt s s' start (.branch span cond b none) code := by
  obtain ⟨test, s₁, htest, hrest⟩ := bind_ok.1 h
  obtain ⟨yes, s₂, hyes, hcode⟩ := bind_ok.1 hrest
  obtain ⟨rfl, rfl⟩ := pure_ok.1 hcode
  have he := exprCode_ok cond htest
  have hb₁ := hb hyes
  have hb' := hb₁.since he.steady
  refine ⟨hb'.growing, fun hconstants hwf hfits hat => ?_⟩
  have hfits₀ := hfits.before hb'.growing.symbols
  have hconstants₁ := hb₁.growing.constants.trans hconstants
  refine .cast (.branch (he.placed hconstants₁ hfits₀ hat.left)
    (hat.right.head rfl) (hb'.placed hconstants hwf hfits hat.right.tail)) ?_
    (hb'.site _)
  simp only [List.length_append, List.length_cons]
  omega

theorem MakesStmt.choice {t : Stmt} (ht : t.isElse = true)
    (hb : ∀ {start s s' code}, blockCode start b s = .ok code s' →
      MakesBlock s s' start b code)
    (hno : ∀ {start s s' code}, stmtCode start t s = .ok code s' →
      MakesStmt s s' start t code)
    (h : stmtCode start (.branch span cond b (some t)) s = .ok code s') :
    MakesStmt s s' start (.branch span cond b (some t)) code := by
  obtain ⟨test, s₁, htest, hrest⟩ := bind_ok.1 h
  obtain ⟨yes, s₂, hyes, hrest'⟩ := bind_ok.1 hrest
  obtain ⟨no, s₃, hno', hcode⟩ := bind_ok.1 hrest'
  obtain ⟨rfl, rfl⟩ := pure_ok.1 hcode
  have he := exprCode_ok cond htest
  have hb₁ := hb hyes
  have hb' := hb₁.since he.steady
  have ht' := hno hno'
  refine ⟨hb'.growing.trans ht'.growing, fun hconstants hwf hfits hat => ?_⟩
  have hfits₂ := hfits.before ht'.growing.symbols
  have hfits₀ := hfits₂.before hb'.growing.symbols
  have hconstants₂ := ht'.growing.constants.trans hconstants
  have hconstants₁ := hb₁.growing.constants.trans hconstants₂
  have hbranch := hat.left.right
  have hskip := hat.right
  have hplaced := ht'.placed hconstants (hb'.growing.symbols.wf hwf) hfits
    (hskip.tail.cast (by
      simp only [List.length_append, List.length_cons]
      omega))
  have hsite := hplaced.site_eq ht
  rw [hsite, hb'.site] at hplaced
  refine .cast (.choice (he.placed hconstants₁ hfits₀ hat.left.left)
    (hbranch.head rfl) (hb'.placed hconstants₂ hwf hfits₂ hbranch.tail)
    (hskip.head ?_) hplaced) ?_ (hsite.trans (hb'.site _))
  · simp only [List.length_append, List.length_cons]
    omega
  · simp only [List.length_append, List.length_cons]
    omega

theorem MakesStmt.loop
    (hb : ∀ {start s s' code}, blockCode start b s = .ok code s' →
      MakesBlock s s' start b code)
    (h : stmtCode start (.loop span cond b) s = .ok code s') :
    MakesStmt s s' start (.loop span cond b) code := by
  obtain ⟨test, s₁, htest, hrest⟩ := bind_ok.1 h
  obtain ⟨body, s₂, hbody, hcode⟩ := bind_ok.1 hrest
  obtain ⟨rfl, rfl⟩ := pure_ok.1 hcode
  have he := exprCode_ok cond htest
  have hb₁ := hb hbody
  have hb' := hb₁.since he.steady
  refine ⟨hb'.growing, fun hconstants hwf hfits hat => ?_⟩
  have hfits₀ := hfits.before hb'.growing.symbols
  have hconstants₁ := hb₁.growing.constants.trans hconstants
  have hbranch := hat.left.right
  refine .cast (.loop (he.placed hconstants₁ hfits₀ hat.left.left)
    (hbranch.head rfl) (hb'.placed hconstants hwf hfits hbranch.tail)
    (hat.right.head ?_)) ?_ (hb'.site _)
  · simp only [List.length_append, List.length_cons]
    omega
  · simp only [List.length_append, List.length_cons, List.length_nil]
    omega

end

-- =========================================================== statements

theorem MakesStmts.cons {t : Stmt} {ts : List Stmt} {first rest : List Instr}
    (ht : MakesStmt s s₁ start t first)
    (hts : MakesStmts s₁ s' (start + first.length) ts rest) :
    MakesStmts s s' start (t :: ts) (first ++ rest) := by
  refine ⟨ht.growing.trans hts.growing, fun hconstants hwf hfits hat => ?_⟩
  have hplaced := hts.placed hconstants (ht.growing.symbols.wf hwf) hfits
    hat.right
  rw [Nat.add_assoc, ← List.length_append] at hplaced
  exact .cons (ht.placed (hts.growing.constants.trans hconstants) hwf
    (hfits.before hts.growing.symbols) hat.left) hplaced

theorem MakesStmt.since {t : Stmt} (h : MakesStmt s₁ s' start t code)
    (hsteady : Steady s s₁) : MakesStmt s s' start t code := by
  refine ⟨hsteady.growing.trans h.growing,
    fun hconstants hwf hfits hat => ?_⟩
  have ht := h.placed hconstants (hsteady.symbols.symm ▸ hwf) hfits hat
  rwa [hsteady.symbols] at ht

/-- A warning is no code. -/
theorem warnUnreachable_ok {u : Unit}
    (h : warnUnreachable span s = .ok u s') : Steady s s' := by
  obtain rfl := modify_ok.1 h
  exact ⟨rfl, rfl, List.prefix_refl _⟩

/-- Code that is made in two parts, the second one behind the first. -/
theorem append_ok {x : Emit (List Instr)}
    {y : List Instr → Emit (List Instr)}
    (h : (do let first ← x; return first ++ (← y first) : Emit _) s =
      .ok code s') :
    ∃ s₁ first rest, x s = .ok first s₁ ∧ y first s₁ = .ok rest s'
      ∧ code = first ++ rest := by
  obtain ⟨first, s₁, hfirst, hbehind⟩ := bind_ok.1 h
  obtain ⟨rest, s₂, hrest, hcode⟩ := bind_ok.1 hbehind
  obtain ⟨rfl, rfl⟩ := pure_ok.1 hcode
  exact ⟨s₁, first, rest, hfirst, hrest, rfl⟩

/-- The code of statements in order is that of the first one, in front of
which there may be a warning, and that of the others. -/
theorem statementCode_cons {t : Stmt} {ts : List Stmt}
    {returned warned : Bool}
    (h : statementCode start returned warned (t :: ts) s = .ok code s') :
    ∃ warned' s₁ s₂ first rest, Steady s s₁
      ∧ stmtCode start t s₁ = .ok first s₂
      ∧ statementCode (start + first.length) (returned || t.isGiveBack)
        warned' ts s₂ = .ok rest s'
      ∧ code = first ++ rest := by
  unfold statementCode at h
  dsimp only at h
  split at h
  · obtain ⟨u, s₁, hwarn, h⟩ := bind_ok.1 h
    exact ⟨_, s₁, (append_ok h).imp fun _ h => h.imp fun _ h => h.imp
      fun _ h => ⟨warnUnreachable_ok hwarn, h⟩⟩
  · exact ⟨_, s, (append_ok h).imp fun _ h => h.imp fun _ h => h.imp
      fun _ h => ⟨.refl s, h⟩⟩

/-- At the top of a program, functions are left out, and the last
statement may be the result. -/
theorem topLevelCode_cons {t : Stmt} {ts : List Stmt}
    (h : topLevelCode start (t :: ts) s = .ok code s') :
    (∃ d, t = .function d ∧ topLevelCode start ts s = .ok code s')
      ∨ (∃ span e, t = .expression span e ∧ ts = []
        ∧ exprCode start e s = .ok code s')
      ∨ t.function? = none ∧ (∀ span e, t :: ts ≠ [.expression span e])
        ∧ ∃ s₁ first rest, stmtCode start t s = .ok first s₁
          ∧ topLevelCode (start + first.length) ts s₁ = .ok rest s'
          ∧ code = first ++ rest := by
  cases t with
  | function d => exact .inl ⟨d, rfl, h⟩
  | expression span e =>
      cases ts with
      | nil => exact .inr (.inl ⟨span, e, rfl, rfl, h⟩)
      | cons t ts => exact .inr (.inr ⟨rfl, by simp, append_ok h⟩)
  | _ => exact .inr (.inr ⟨rfl, by simp, append_ok h⟩)

mutual

theorem stmtCode_ok : ∀ (t : Stmt), t.isPlain = true → t.isBraced = true →
    ∀ {start : Nat} {s s' : Emission} {code : List Instr},
      stmtCode start t s = .ok code s' → MakesStmt s s' start t code
  | .declare _ _ _, _, _, _, _, _, _, h => .declare h
  | .function _, hplain, _, _, _, _, _, _ => nomatch hplain
  | .expression _ e, _, _, _, _, _, _, h =>
      .value (e := some e) h fun he hpop => .expression he.of_some hpop
  | .block b, hplain, hbraced, _, _, _, _, h => by
      have hb := blockCode_ok b hplain hbraced h
      exact ⟨hb.growing, fun hconstants hwf hfits hat =>
        .cast (.block (hb.placed hconstants hwf hfits hat)) rfl (hb.site _)⟩
  | .branch _ _ b none, hplain, hbraced, _, _, _, _, h => by
      obtain ⟨hplain, -⟩ := Bool.and_eq_true_iff.1 hplain
      obtain ⟨hbraced, -⟩ := Bool.and_eq_true_iff.1 hbraced
      exact .branch (blockCode_ok b hplain hbraced) h
  | .branch _ _ b (some t), hplain, hbraced, _, _, _, _, h => by
      obtain ⟨hplain, hplain'⟩ := Bool.and_eq_true_iff.1 hplain
      obtain ⟨hbraced, hbraced'⟩ := Bool.and_eq_true_iff.1 hbraced
      obtain ⟨helse, hbraced'⟩ := Bool.and_eq_true_iff.1 hbraced'
      exact .choice helse (blockCode_ok b hplain hbraced)
        (stmtCode_ok t hplain' hbraced') h
  | .loop _ _ b, hplain, hbraced, _, _, _, _, h =>
      .loop (blockCode_ok b hplain hbraced) h
  | .giveBack _ _, _, _, _, _, _, _, h => .value h .giveBack
  | .print _ e, _, _, _, _, _, _, h =>
      .value (e := some e) h fun he hprint => .print he.of_some hprint
  | .empty _, _, _, _, _, _, _, h => by
      obtain ⟨rfl, rfl⟩ := pure_ok.1 h
      exact ⟨.refl _, fun _ _ _ _ => .empty⟩

theorem blockCode_ok : ∀ (b : Block), b.isPlain = true →
    b.isBraced = true → ∀ {start : Nat} {s s' : Emission}
      {code : List Instr}, blockCode start b s = .ok code s' →
        MakesBlock s s' start b code
  | ⟨ss, _⟩, hplain, hbraced, _, _, _, _, h =>
      .of_statements (statementCode_ok ss hplain hbraced) h

theorem statementCode_ok : ∀ (ts : List Stmt), stmtsArePlain ts = true →
    stmtsAreBraced ts = true → ∀ {start : Nat} {returned warned : Bool}
      {s s' : Emission} {code : List Instr},
        statementCode start returned warned ts s = .ok code s' →
          MakesStmts s s' start ts code
  | [], _, _, _, _, _, _, _, _, h => by
      obtain ⟨rfl, rfl⟩ := pure_ok.1 h
      exact ⟨.refl _, fun _ _ _ _ => .nil⟩
  | t :: ts, hplain, hbraced, start, returned, warned, s, s', code, h => by
      obtain ⟨hplain, hplain'⟩ := Bool.and_eq_true_iff.1 hplain
      obtain ⟨hbraced, hbraced'⟩ := Bool.and_eq_true_iff.1 hbraced
      obtain ⟨_, _, _, first, rest, hsteady, hfirst, hrest, rfl⟩ :=
        statementCode_cons h
      exact .cons ((stmtCode_ok t hplain hbraced hfirst).since hsteady)
        (statementCode_ok ts hplain' hbraced' hrest)

end

end Script.Stack
