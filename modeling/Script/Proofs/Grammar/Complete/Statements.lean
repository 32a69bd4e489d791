/-
Every lawful statement of the grammar is read, and read as the tree that
the grammar gives it. Where a statement inside of a block is nested too
deeply, the statement around it is read without it; so a reading of
statements can end well and still have found the nesting too deep.
-/
import Script.Proofs.Grammar.Complete.Expressions
import Script.Proofs.Grammar.Sound.Statements

namespace Script

open Grammar

namespace Grammar

/-- No expression goes on behind itself with the end of a statement. -/
theorem Ends.closes {next : Token.Kind} {seg : List Token}
    (h : Ends next seg) : Closes (firstKind next seg) := by
  cases h with
  | semicolon h => exact closes_punct h (by decide)
  | brace h => exact closes_punct h (by decide)
  | endOfInput h =>
      subst h
      exact ⟨by simp [firstKind], by simp [firstKind], fun _ _ h => nomatch h⟩

theorem NamesIn.kind {seg : List Token} {ps : List Ident}
    {next : Token.Kind} (h : NamesIn seg ps) :
    firstKind next seg = .identifier := by
  cases h with
  | one hx | more hx => exact hx

theorem BlockIn.closes {seg : List Token} {b : Block} {next : Token.Kind}
    (h : BlockIn seg b) : Closes (firstKind next seg) := by
  obtain ⟨h⟩ := h
  exact closes_punct h (by decide)

/-- A statement begins with none of what can stand behind one. -/
structure Opens (t : Token.Kind) : Prop where
  rightBrace : t ≠ .punct .rightBrace
  endOfInput : t ≠ .endOfInput
  elseK : t ≠ .keyword .elseK

theorem opens_of_startsExpression {t : Token.Kind}
    (h : startsExpression t = true) : Opens t := by
  constructor <;> (rintro rfl; cases h)

theorem StmtIn.opens {next : Token.Kind} {seg : List Token} {s : Stmt}
    (h : StmtIn next seg s) (next' : Token.Kind) :
    Opens (firstKind next' seg) := by
  cases h with
  | declare h | function h | loop h | giveBack h | print h | empty h =>
      constructor <;> simp [h]
  | branch h =>
      obtain ⟨h⟩ := h
      constructor <;> simp [h]
  | block h =>
      obtain ⟨h⟩ := h
      constructor <;> simp [h]
  | expression h =>
      rw [firstKind_append h.ne_nil]
      exact opens_of_startsExpression h.starts

/-- What stands behind a statement does not go on with its
condition. -/
theorem StmtsIn.not_else {next : Token.Kind} {seg : List Token}
    {ss : List Stmt} (h : StmtsIn next seg ss)
    (hnext : next ≠ .keyword .elseK) :
    firstKind next seg ≠ .keyword .elseK := by
  cases h with
  | nil => exact hnext
  | cons hs _ =>
      rw [firstKind_append hs.ne_nil]
      exact (hs.opens next).elseK

end Grammar

namespace Tree

-- ============================================================ readings

/-- A reading that passes over the tokens `seg` and returns `a`, or that
has found the nesting too deep somewhere. -/
def Finishes {α : Type} (r : EStateM.Result Unit Cursor α) (a : α)
    (c : Cursor) (seg : List Token) : Prop :=
  (∃ d, r = .ok a d ∧ Over c seg d) ∨ (finalCursor r).IsDeep

section Finishes

variable {α β : Type} {r : EStateM.Result Unit Cursor α} {a : α} {b : β}
  {p : Parse α} {f : α → Parse β} {c d c' : Cursor} {l seg : List Token}

theorem Finishes.of_ok (h : Over c seg d) : Finishes (.ok a d) a c seg :=
  .inl ⟨d, rfl, h⟩

theorem Yields.finishes (h : Yields r a c seg) : Finishes r a c seg := by
  rcases yields_iff.1 h with h | ⟨d, rfl, hdeep⟩
  · exact .inl h
  · exact .inr hdeep

theorem Finishes.after (h : Finishes r a d seg) (hover : Over c l d) :
    Finishes r a c (l ++ seg) :=
  h.imp_left fun ⟨e, h, hover'⟩ => ⟨e, h, hover.trans hover'⟩

theorem Yields.bind (hp : Yields (p c') a c l)
    (hf : ∀ d, Over c l d → Finishes (f a d) b c seg) :
    Finishes ((p >>= f) c') b c seg := by
  rcases yields_iff.1 hp with ⟨d, h, hover⟩ | ⟨d, h, hdeep⟩
  · rw [bind_eq h]
    exact hf d hover
  · refine .inr ?_
    show (finalCursor (EStateM.bind p f c')).IsDeep
    unfold EStateM.bind
    rw [h]
    exact hdeep

/-- What was found too deep stays among the reports. -/
theorem Finishes.bind (hp : Finishes (p c') a c l)
    (hcareful : ∀ a, Careful (f a))
    (hf : ∀ d, Over c l d → Finishes (f a d) b c seg) :
    Finishes ((p >>= f) c') b c seg := by
  rcases hp with ⟨d, h, hover⟩ | hdeep
  · rw [bind_eq h]
    exact hf d hover
  · refine .inr ?_
    show (finalCursor (EStateM.bind p f c')).IsDeep
    unfold EStateM.bind
    cases h : p c' with
    | ok a' d =>
        rw [h] at hdeep
        exact (hcareful a' d).1.isDeep hdeep
    | error e d =>
        rw [h] at hdeep
        exact hdeep

theorem Finishes.map (hp : Finishes (p c') a c seg) (g : α → β) :
    Finishes ((g <$> p) c') (g a) c seg :=
  hp.bind (fun _ => Careful.pure _) fun _ hover => .of_ok hover

theorem finishes_tooDeep (hc : c'.lastErrorAt = none) :
    Finishes (Parse.tooDeep c') a c seg :=
  Yields.finishes (goesOn_tooDeep hc)

theorem Finishes.recovering {p : Parse Stmt} {s : Stmt}
    (h : Finishes (p c') s c seg) :
    Finishes (recovering p c') (some s) c seg := by
  unfold Tree.recovering
  rcases h with ⟨d, h, hover⟩ | hdeep
  · rw [h]
    exact .of_ok hover
  · refine .inr ?_
    cases h : p c' with
    | ok s' d =>
        rw [h] at hdeep
        exact hdeep
    | error e d =>
        rw [h] at hdeep
        exact (Later.skipStatement d).isDeep hdeep

/-- The last step of a statement that begins with a word. -/
theorem Finishes.spanFrom {w : Token} {mk : Span → Stmt}
    (h : Over c (w :: seg) d) :
    Finishes ((Parse.spanFrom w.span >>= fun span => pure (mk span)) d)
      (mk (cover (w :: seg))) c (w :: seg) := by
  rw [← h.join_previous]
  exact .of_ok h

end Finishes

-- ==================================================== ends and names

variable {n bound : Nat} {inside : Bool} {c : Cursor} {t w : Token}
  {seg final : List Token} {next : Token.Kind}

theorem terminator_yields {behind : String} (h : Ends next final)
    (hc : Facing c final next) :
    Yields (terminator behind c) () c final := by
  unfold terminator
  cases h with
  | semicolon h =>
      rw [bind_eq (eat_eq (hc.kind_cons.trans h)), if_pos rfl]
      exact Yields.of_ok hc.over_advance
  | brace h =>
      have hk : c.kind = .punct .rightBrace := hc.kind.trans h
      rw [bind_eq (eat_eq_false (by simp [hk])), if_neg Bool.false_ne_true,
        kind_bind, if_pos (.inl hk)]
      exact Yields.of_ok (.refl c)
  | endOfInput h =>
      have hk : c.kind = .endOfInput := hc.kind.trans h
      rw [bind_eq (eat_eq_false (by simp [hk])), if_neg Bool.false_ne_true,
        kind_bind, if_pos (.inr hk)]
      exact Yields.of_ok (.refl c)

theorem parameter_eq {seen : List Ident} (hc : Facing c (t :: seg) next)
    (ht : t.kind = .identifier) (hnew : ∀ p ∈ seen, p.name ≠ t.text) :
    parameter seen c = .ok (seen ++ [t.ident]) c.advance := by
  have hseen : ¬ seen.any (·.name == t.ident.name) = true := by
    intro h
    obtain ⟨p, hp, hname⟩ := List.any_eq_true.1 h
    exact hnew p hp (beq_iff_eq.1 hname)
  unfold parameter
  rw [bind_eq (identifier_eq hc ht)]
  dsimp only
  rw [if_neg hseen]
  rfl

/-- Names that are all different are different from those before. -/
theorem ne_of_nodup {seen names : List Ident} {x : Ident}
    (h : ((seen ++ x :: names).map (·.name)).Nodup) :
    ∀ p ∈ seen, p.name ≠ x.name := by
  intro p hp
  rw [List.map_append, List.nodup_append] at h
  exact h.2.2 p.name (List.mem_map_of_mem hp) x.name (by simp)

theorem parameters_yields {names : List Ident} (h : NamesIn seg names) :
    ∀ {seen : List Ident} {bound : Nat} {c : Cursor}, Facing c seg next →
      next ≠ .punct .comma → seg.length ≤ bound →
      ((seen ++ names).map (·.name)).Nodup →
      Yields (parameters seen bound c) (seen ++ names) c seg := by
  induction h with
  | one hx =>
      intro seen bound c hc hcomma hbound hnodup
      have hone := parameter_eq hc hx (ne_of_nodup hnodup)
      cases bound with
      | zero => simp at hbound
      | succ bound =>
          unfold parameters
          have hk := hc.advance.kind
          rw [bind_eq hone, bind_eq (eat_eq_false (hk ▸ hcomma)),
            if_neg Bool.false_ne_true]
          exact Yields.of_ok hc.over_advance
  | @more x comma seg names hx ht _ ih =>
      intro seen bound c hc hcomma hbound hnodup
      have hone := parameter_eq hc hx (ne_of_nodup hnodup)
      cases bound with
      | zero => simp at hbound
      | succ bound =>
          unfold parameters
          rw [bind_eq hone,
            bind_eq (eat_eq (hc.advance.kind_cons.trans ht)), if_pos rfl]
          have hover := hc.over_advance.trans hc.advance.over_advance
          have happend := List.append_cons seen x.ident names
          rw [happend] at hnodup ⊢
          have hle : seg.length ≤ bound := by
            simp only [List.length_cons] at hbound
            omega
          exact (ih hc.advance.advance hcomma hle hnodup).after hover

-- ========================================================== statements

/-- Behind all tokens of a statement but those that end it. -/
theorem ending_finishes (behind : String) (mk : Span → Stmt)
    {c₁ : Cursor} (hfinal : Ends next final)
    (hover : Over c (w :: seg) c₁)
    (hc : Facing c (w :: (seg ++ final)) next) :
    Finishes ((do
      terminator behind
      return mk (← Parse.spanFrom w.span) : Parse Stmt) c₁)
      (mk (cover (w :: (seg ++ final)))) c (w :: (seg ++ final)) := by
  have hc₁ : Facing c₁ final next := Facing.behind (l := w :: seg) hc hover
  exact Yields.bind ((terminator_yields hfinal hc₁).after hover)
    fun d hall => .spanFrom hall

theorem declaration_finishes {x : Token} {init : List Token}
    {i : Option Expr} (hx : x.kind = .identifier) (hinit : InitIn init i)
    (hfinal : Ends next final)
    (hc : Facing c (w :: x :: (init ++ final)) next) :
    Finishes (declaration n w.span c.advance)
      (.declare (cover (w :: x :: (init ++ final))) x.ident i)
      c (w :: x :: (init ++ final)) := by
  have hname := hc.advance
  have hover := hc.over_advance.trans hname.over_advance
  have ending {c₁ : Cursor} (h : Over c (w :: x :: init) c₁) :=
    ending_finishes "let declaration"
      (fun span => .declare span x.ident i) hfinal h hc
  unfold declaration
  rw [bind_eq (identifier_eq hname hx)]
  cases hinit with
  | none =>
      have hk : c.advance.advance.kind ≠ .operator .assign := by
        rw [hname.advance.kind]
        exact hfinal.closes.assign
      rw [bind_eq (eat_eq_false hk), if_neg Bool.false_ne_true]
      exact ending hover
  | some heq he =>
      have hsign := hname.advance
      rw [bind_eq (eat_eq (hsign.kind_cons.trans heq)), if_pos rfl]
      have hvalue := expression_yields (n := n) (isRead he)
        hsign.advance.left hfinal.closes
      have hover := hover.trans hsign.over_advance
      exact Yields.bind ((hvalue.map some).after hover) fun d => ending

theorem returnStatement_finishes {v : Option Expr} (hv : ValueIn seg v)
    (hfinal : Ends next final)
    (hc : Facing c (w :: (seg ++ final)) next) :
    Finishes (returnStatement n true w.span c.advance)
      (.giveBack (cover (w :: (seg ++ final))) v)
      c (w :: (seg ++ final)) := by
  have hvalue := hc.advance
  have ending {c₁ : Cursor} (h : Over c (w :: seg) c₁) :=
    ending_finishes "return statement"
      (fun span => .giveBack span v) hfinal h hc
  show Finishes ((Parse.kind >>= fun k => _ : Parse Stmt) c.advance) _ _ _
  rw [kind_bind]
  cases hv with
  | none =>
      have hk : c.advance.kind = .punct .semicolon
          ∨ c.advance.kind = .punct .rightBrace
          ∨ c.advance.kind = .endOfInput := by
        rw [hvalue.kind]
        cases hfinal with
        | semicolon h => exact .inl h
        | brace h => exact .inr (.inl h)
        | endOfInput h => exact .inr (.inr h)
      rw [if_pos hk]
      exact ending hc.over_advance
  | some he =>
      have hk : ¬ (c.advance.kind = .punct .semicolon
          ∨ c.advance.kind = .punct .rightBrace
          ∨ c.advance.kind = .endOfInput) := by
        rw [hvalue.left.kind]
        have hstarts : startsExpression
            (firstKind (firstKind next final) seg) = true := he.starts
        rintro (h | h | h) <;> (rw [h] at hstarts; cases hstarts)
      rw [if_neg hk]
      have hyields := expression_yields (n := n) (isRead he)
        hvalue.left hfinal.closes
      exact Yields.bind ((hyields.map some).after hc.over_advance)
        fun d => ending

/-- Behind the parameters of a function. Its body is read in the state that
is reached there. -/
theorem functionBody_finishes (ps : List Ident) {x o close : Token}
    {names : List Token} {b : Block} {c₁ : Cursor}
    (hclose : close.kind = .punct .rightParen) (hb : BlockIn seg b)
    (hbody : ∀ d, Facing d seg next → Finishes (block n true d) b d seg)
    (hover : Over c (w :: x :: o :: names) c₁)
    (hc : Facing c (w :: x :: o :: (names ++ close :: seg)) next) :
    Finishes ((do
      let _ ← Parse.expect (.punct .rightParen) "')' after parameters"
      let body ← block n true
      return .function ⟨x.ident, ps, body, w.span.join body.span⟩ :
        Parse Stmt) c₁)
      (.function ⟨x.ident, ps, b,
        cover (w :: x :: o :: (names ++ close :: seg))⟩)
      c (w :: x :: o :: (names ++ close :: seg)) := by
  have hc₁ : Facing c₁ (close :: seg) next :=
    Facing.behind (l := w :: x :: o :: names) hc hover
  rw [bind_eq (expect_eq (hc₁.kind_cons.trans hclose))]
  have hblock := hbody _ hc₁.advance
  refine ((hblock.after hc₁.over_advance).after hover).bind
    (fun _ => Careful.pure _) fun d hall => ?_
  have hspan := cover_join (x :: o :: (names ++ [close]))
    (by simpa using hc.ordered_seg) (List.cons_ne_nil w []) hb.span.1
  rw [cover_singleton, ← hb.span.2] at hspan
  have hall : Over c (w :: x :: o :: (names ++ close :: seg)) d := by
    simpa using hall
  rw [hspan]
  simp only [List.cons_append, List.nil_append, List.append_assoc]
  exact .of_ok hall

theorem function_finishes {x o close : Token} {names : List Token}
    {ps : List Ident} {b : Block} (hx : x.kind = .identifier)
    (ho : o.kind = .punct .leftParen) (hps : ParamsIn names ps)
    (hclose : close.kind = .punct .rightParen) (hb : BlockIn seg b)
    (hnodup : decide (ps.map (·.name)).Nodup = true)
    (hbody : ∀ d, Facing d seg next → Finishes (block n true d) b d seg)
    (hc : Facing c (w :: x :: o :: (names ++ close :: seg)) next) :
    Finishes (function n w.span c.advance)
      (.function ⟨x.ident, ps, b,
        cover (w :: x :: o :: (names ++ close :: seg))⟩)
      c (w :: x :: o :: (names ++ close :: seg)) := by
  have hname := hc.advance
  have hparen := hname.advance
  have hnames := hparen.advance
  have hover := (hc.over_advance.trans hname.over_advance).trans
    hparen.over_advance
  have ending {c₁ : Cursor} (h : Over c (w :: x :: o :: names) c₁) :=
    functionBody_finishes ps hclose hb hbody h hc
  unfold function
  rw [bind_eq (identifier_eq hname hx),
    bind_eq (expect_eq (hparen.kind_cons.trans ho)), kind_bind]
  cases hps with
  | none =>
      rw [if_pos (hnames.kind_cons.trans hclose)]
      exact ending hover
  | some h =>
      have hk : c.advance.advance.advance.kind ≠ .punct .rightParen := by
        rw [hnames.left.kind, h.kind]
        simp
      rw [if_neg hk, tokensLeft_bind]
      have hnodup : ((([] : List Ident) ++ ps).map (·.name)).Nodup :=
        of_decide_eq_true hnodup
      have hyields := parameters_yields h hnames.left
        (by simp [hclose]) hnames.left.length_le hnodup
      exact Yields.bind (hyields.after hover) fun d => ending

/-- A statement that begins like an expression is one. -/
theorem statement_eq (h : startsExpression c.kind = true) :
    statement n inside c = (expression n >>= fun value =>
      terminator "expression" >>= fun _ =>
      Parse.spanFrom c.here >>= fun span =>
      pure (.expression span value)) c := by
  unfold statement
  rw [get_bind]
  generalize hk : c.kind = k at h
  split <;> first | cases h | rfl

/-- The else part of a condition, and what is done behind it. -/
def elsePart (n : Nat) (inside : Bool) (f : Option Stmt → Parse Stmt) :
    Parse Stmt := do
  if ← Parse.eat (.keyword .elseK) then
    if (← Parse.kind) = .keyword .ifK then
      match n with
      | 0 => Parse.tooDeep >>= f
      | n + 1 => some <$> branch n inside >>= f
    else some <$> Stmt.block <$> block n inside >>= f
  else pure none >>= f

theorem branch_eq : branch n inside c = (expression n >>= fun cond =>
    block n inside >>= fun thenPart => elsePart n inside fun elsePart =>
    Parse.spanFrom c.here >>= fun span =>
    pure (.branch span cond thenPart elsePart)) c.advance := by
  unfold branch
  rw [here_bind, skip_bind]
  rfl

theorem Careful.elsePart {f : Option Stmt → Parse Stmt}
    (hf : ∀ i, Careful (f i)) : Careful (elsePart n inside f) := by
  refine (Careful.eat _).bind fun _ => .ite (Careful.kind.bind fun _ =>
    .ite ?_ ((((Careful.block n inside).map _).map _).bind hf))
    ((Careful.pure none).bind hf)
  cases n with
  | zero => exact Careful.tooDeep.bind hf
  | succ n => exact ((Careful.branch n inside).map some).bind hf

mutual

theorem stmt_finishes {next : Token.Kind} {seg : List Token} {s : Stmt} :
    StmtIn next seg s →
    ∀ n inside c, Facing c seg next → s.isLawful inside = true →
      next ≠ .keyword .elseK → Finishes (statement n inside c) s c seg
  | .declare hw hx hinit hfinal => by
      intro n inside c hc hlawful hnext
      unfold statement
      rw [get_bind, hc.kind_cons, hw]
      dsimp only
      rw [skip_bind, hc.here]
      exact declaration_finishes hx hinit hfinal hc
  | .function hw hx ho hps hclose hb => by
      intro n inside c hc hlawful hnext
      obtain ⟨hnodup, hlawful⟩ := Bool.and_eq_true_iff.1 hlawful
      unfold statement
      rw [get_bind, hc.kind_cons, hw]
      dsimp only
      rw [skip_bind, hc.here]
      exact function_finishes hx ho hps hclose hb hnodup
        (fun d hd => block_finishes hb n true d hd hlawful) hc
  | .branch hs => by
      intro n inside c hc hlawful hnext
      have hk : c.kind = .keyword .ifK := by
        rw [hc.kind]
        obtain ⟨hw⟩ := hs
        exact hw
      unfold statement
      rw [get_bind, hk]
      exact branch_finishes hs n inside c hc hlawful hnext
  | .loop (w := w) hw he hb => by
      intro n inside c hc hlawful hnext
      unfold statement
      rw [get_bind, hc.kind_cons, hw]
      dsimp only
      rw [skip_bind, hc.here]
      have hvalue := expression_yields (n := n) (isRead he)
        hc.advance.left hb.closes
      refine Yields.bind (hvalue.after hc.over_advance) fun d hover => ?_
      have hd := Facing.behind (l := w :: _) hc hover
      have hblock := block_finishes hb n inside d hd hlawful
      exact (hblock.after hover).bind
        (fun _ => (Careful.spanFrom _).bind fun _ => Careful.pure _)
        fun d' hall => Finishes.spanFrom hall
  | .giveBack hw hv hfinal => by
      intro n inside c hc hlawful hnext
      unfold statement
      rw [get_bind, hc.kind_cons, hw]
      dsimp only
      rw [skip_bind, hc.here]
      obtain rfl : inside = true := hlawful
      exact returnStatement_finishes hv hfinal hc
  | .print hw he hfinal => by
      intro n inside c hc hlawful hnext
      unfold statement
      rw [get_bind, hc.kind_cons, hw]
      dsimp only
      rw [skip_bind, hc.here]
      have hvalue := expression_yields (n := n) (isRead he)
        hc.advance.left hfinal.closes
      exact Yields.bind (hvalue.after hc.over_advance) fun d hover =>
        ending_finishes _ _ hfinal hover hc
  | .block hb => by
      intro n inside c hc hlawful hnext
      have hk : c.kind = .punct .leftBrace := by
        rw [hc.kind]
        obtain ⟨ho⟩ := hb
        exact ho
      unfold statement
      rw [get_bind, hk]
      exact (block_finishes hb n inside c hc hlawful).bind
        (fun _ => Careful.pure _) fun d hover => .of_ok hover
  | .expression he hfinal => by
      intro n inside c hc hlawful hnext
      have hstarts := hc.left.kind ▸ he.starts
      rw [statement_eq hstarts]
      have hvalue := expression_yields (n := n) (isRead he)
        hc.left hfinal.closes
      refine Yields.bind hvalue fun d hover => ?_
      have hd := hc.behind hover
      refine Yields.bind ((terminator_yields hfinal hd).after hover)
        fun d' hall => ?_
      obtain ⟨t, ts, rfl⟩ := List.exists_cons_of_ne_nil he.ne_nil
      rw [hc.here]
      exact .spanFrom hall
  | .empty (t := t) ht => by
      intro n inside c hc hlawful hnext
      unfold statement
      rw [get_bind, hc.kind_cons, ht]
      dsimp only
      rw [skip_bind, hc.here]
      have hover := hc.over_advance
      have hnoted : Over c [t] (c.advance.note .emptyStatement t.span) :=
        ⟨hover.rest, hover.previous, hover.endOfInput, hover.lastErrorAt⟩
      exact .spanFrom hnoted

theorem branch_finishes {next : Token.Kind} {seg : List Token} {s : Stmt} :
    BranchIn seg s →
    ∀ n inside c, Facing c seg next → s.isLawful inside = true →
      next ≠ .keyword .elseK → Finishes (branch n inside c) s c seg
  | @BranchIn.mk w seg yes no e b i hw he hb hs => by
      intro n inside c hc hlawful hnext
      obtain ⟨hlawful, hlawful'⟩ := Bool.and_eq_true_iff.1 hlawful
      rw [branch_eq, hc.here]
      have hcloses : Closes (firstKind next (yes ++ no)) := by
        rw [firstKind_append hb.span.1]
        exact hb.closes
      have hvalue := expression_yields (n := n) (isRead he)
        hc.advance.left hcloses
      refine Yields.bind (hvalue.after hc.over_advance) fun d hover => ?_
      have hd := Facing.behind (l := w :: seg) hc hover
      have hblock := block_finishes hb n inside d hd.left hlawful
      refine (hblock.after hover).bind
        (fun _ => Careful.elsePart fun i =>
          (Careful.spanFrom _).bind fun _ => Careful.pure _)
        fun d' hover' => ?_
      have hd' : Facing d' no next :=
        Facing.behind (by simpa using hc) hover'
      refine else_finishes hs n inside d' hd' hlawful' hnext _ _ c _ _ hover'
        (fun _ => (Careful.spanFrom _).bind fun _ => Careful.pure _)
        fun d'' hall => ?_
      have hall : Over c (w :: (seg ++ (yes ++ no))) d'' := by
        simpa using hall
      exact .spanFrom hall

theorem else_finishes {next : Token.Kind} {no : List Token}
    {i : Option Stmt} : ElseIn no i →
    ∀ n inside c, Facing c no next → elseIsLawful inside i = true →
      next ≠ .keyword .elseK →
      ∀ (f : Option Stmt → Parse Stmt) (s : Stmt) (c₀ : Cursor) (seg all),
        Over c₀ seg c → (∀ i, Careful (f i)) →
        (∀ d, Over c₀ (seg ++ no) d → Finishes (f i d) s c₀ all) →
        Finishes (elsePart n inside f c) s c₀ all
  | .none => by
      intro n inside c hc hlawful hnext f s c₀ seg all hover hcareful hf
      unfold elsePart
      rw [bind_eq (eat_eq_false (hc.kind ▸ hnext)),
        if_neg Bool.false_ne_true]
      exact hf c (by simpa using hover)
  | .block ht hb => by
      intro n inside c hc hlawful hnext f s c₀ seg all hover hcareful hf
      have hk : c.advance.kind ≠ .keyword .ifK := by
        rw [hc.advance.kind]
        obtain ⟨ho⟩ := hb
        simp [ho]
      unfold elsePart
      rw [bind_eq (eat_eq (hc.kind_cons.trans ht)), if_pos rfl, kind_bind,
        if_neg hk]
      have hblock := block_finishes hb n inside _ hc.advance hlawful
      have hblock := (hblock.after hc.over_advance).after hover
      exact ((hblock.map Stmt.block).map some).bind hcareful hf
  | .branch ht hs => by
      intro n inside c hc hlawful hnext f s c₀ seg all hover hcareful hf
      have hk : c.advance.kind = .keyword .ifK := by
        rw [hc.advance.kind]
        obtain ⟨hw⟩ := hs
        exact hw
      unfold elsePart
      rw [bind_eq (eat_eq (hc.kind_cons.trans ht)), if_pos rfl, kind_bind,
        if_pos hk]
      cases n with
      | zero =>
          exact Yields.bind (goesOn_tooDeep hc.advance.clean) hf
      | succ n =>
          have hbranch :=
            branch_finishes hs n inside _ hc.advance hlawful hnext
          have hbranch := (hbranch.after hc.over_advance).after hover
          exact (hbranch.map some).bind hcareful hf

theorem block_finishes {next : Token.Kind} {seg : List Token} {b : Block} :
    BlockIn seg b →
    ∀ n inside c, Facing c seg next → b.isLawful inside = true →
      Finishes (block n inside c) b c seg
  | @BlockIn.mk o close seg ss ho hss hclose => by
      intro n inside c hc hlawful
      unfold block
      cases n with
      | zero => exact finishes_tooDeep hc.clean
      | succ n =>
          dsimp only
          rw [bind_eq (expect_eq (hc.kind_cons.trans ho)),
            tokensLeft_bind, hc.here]
          have hinner := hc.advance.left
          rw [firstKind_cons, hclose] at hinner
          have hss := stmts_finish hss n inside _ _ hinner hlawful rfl
            hinner.length_le
          refine (hss.after hc.over_advance).bind
            (fun _ => (Careful.expect _ _).bind fun _ => Careful.pure _)
            fun d hover => ?_
          have hd := Facing.behind (l := o :: seg) hc hover
          rw [bind_eq (expect_eq (hd.kind_cons.trans hclose)), hd.here,
            ← cover_between]
          exact .of_ok (hover.trans hd.over_advance)

theorem stmts_finish {next : Token.Kind} {seg : List Token}
    {ss : List Stmt} : StmtsIn next seg ss →
    ∀ n inside bound c, Facing c seg next →
      stmtsAreLawful inside ss = true →
      next = .punct .rightBrace → seg.length ≤ bound →
      Finishes (statementsInBlock (statement n inside) bound c) ss c seg
  | .nil => by
      intro n inside bound c hc hlawful hnext hbound
      cases bound with
      | zero => exact .of_ok (.refl c)
      | succ bound =>
          unfold statementsInBlock
          rw [kind_bind, if_pos (.inl (hc.kind.trans hnext))]
          exact .of_ok (.refl c)
  | .cons hs hss => by
      intro n inside bound c hc hlawful hnext hbound
      obtain ⟨hlawful, hlawful'⟩ := Bool.and_eq_true_iff.1 hlawful
      have hopens := hc.left.kind ▸ hs.opens _
      have hlength := List.length_pos_iff.2 hs.ne_nil
      rw [List.length_append] at hbound
      cases bound with
      | zero => omega
      | succ bound =>
          unfold statementsInBlock
          have hk := not_or.2 ⟨hopens.rightBrace, hopens.endOfInput⟩
          rw [kind_bind, if_neg hk]
          have hstmt := stmt_finishes hs n inside c hc.left hlawful
            (hss.not_else (by simp [hnext]))
          refine hstmt.recovering.bind
            (fun _ => (Careful.statementsInBlock (Careful.statement _ _)
              _).bind fun _ => Careful.pure _) fun d hover => ?_
          have hrest := stmts_finish hss n inside bound d
            (hc.behind hover) hlawful' hnext (by omega)
          exact (hrest.after hover).bind (fun _ => Careful.pure _)
            fun d' hover' => .of_ok hover'

end

/-- The statements of a program are read up to the end of input. -/
theorem program_finishes {seg : List Token} {ss : List Stmt} :
    StmtsIn .endOfInput seg ss → ∀ bound c, Facing c seg .endOfInput →
      stmtsAreLawful false ss = true → seg.length ≤ bound →
      Finishes (statementsOfProgram bound c) ss c seg
  | .nil => by
      intro bound c hc hlawful hbound
      cases bound with
      | zero => exact .of_ok (.refl c)
      | succ bound =>
          unfold statementsOfProgram
          rw [kind_bind, hc.kind]
          exact .of_ok (.refl c)
  | @StmtsIn.cons _ seg rest s ss hs hss => by
      intro bound c hc hlawful hbound
      obtain ⟨hlawful, hlawful'⟩ := Bool.and_eq_true_iff.1 hlawful
      have hopens := hc.left.kind ▸ hs.opens _
      have hlength := List.length_pos_iff.2 hs.ne_nil
      rw [List.length_append] at hbound
      cases bound with
      | zero => omega
      | succ bound =>
          have hstmt := stmt_finishes hs maxNesting false c hc.left hlawful
            (hss.not_else (by simp))
          have hround : Finishes ((recovering (statement maxNesting false)
              >>= fun s => statementsOfProgram bound >>= fun ss =>
                pure (s.toList ++ ss)) c) (s :: ss) c (seg ++ rest) := by
            refine hstmt.recovering.bind
              (fun _ => (Careful.statementsOfProgram _).bind
                fun _ => Careful.pure _) fun d hover => ?_
            have hrest := program_finishes hss bound d
              (hc.behind hover) hlawful' (by omega)
            exact (hrest.after hover).bind (fun _ => Careful.pure _)
              fun d' hover' => .of_ok hover'
          unfold statementsOfProgram
          rw [kind_bind]
          generalize c.kind = k at hopens
          split
          case h_1 => exact absurd rfl hopens.endOfInput
          case h_2 => exact absurd rfl hopens.rightBrace
          case h_3 => exact hround

end Tree

end Script
