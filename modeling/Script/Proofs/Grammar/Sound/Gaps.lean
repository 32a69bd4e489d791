/-
What a reader of statements returns is in the grammar with gaps, whatever
errors there were. An expression is returned whole or not at all, so only
statements can be left out; and a statement that is left out has had its
tokens passed over from the front, as every reading does.
-/
import Script.Proofs.Grammar.Gaps
import Script.Proofs.Reading.Rounds

namespace Script

open Grammar Script.Action

namespace Tree

/-- `d` is where the cursor `c` is behind the tokens `seg`, with errors
on the way or without. -/
structure Past (c : Cursor) (seg : List Token) (d : Cursor) : Prop where
  rest : c.rest = seg ++ d.rest
  previous : d.previous = lastSpan c.previous seg

theorem Over.past {c d : Cursor} {seg : List Token} (h : Over c seg d) :
    Past c seg d :=
  ⟨h.rest, h.previous⟩

/-- The kind in front of a run of tokens. -/
theorem Cursor.kind_of_rest {c d : Cursor} {seg : List Token}
    (h : c.rest = seg ++ d.rest) : c.kind = firstKind d.kind seg := by
  unfold Cursor.kind
  rw [h]
  cases seg <;> rfl

namespace Past

variable {c d e : Cursor} {l r seg : List Token}

theorem refl (c : Cursor) : Past c [] c := ⟨rfl, rfl⟩

theorem trans (h : Past c l d) (h' : Past d r e) : Past c (l ++ r) e where
  rest := by rw [h.rest, h'.rest, List.append_assoc]
  previous := by rw [h'.previous, h.previous, lastSpan_append]

theorem ordered (h : Past c seg d) (hc : Ordered c.rest) :
    Ordered seg ∧ Ordered d.rest := by
  rw [h.rest] at hc
  exact hc.of_append

/-- The span from the start of a run of tokens to where it ends. -/
theorem join_previous {t : Token} (h : Past c (t :: seg) d) :
    t.span.join d.previous = cover (t :: seg) := by
  rw [h.previous]
  rfl

theorem blame (c : Cursor) (f : Fault) (span : Span) :
    Past c [] (c.blame f span) := by
  unfold Cursor.blame
  split
  · exact .refl c
  · exact ⟨rfl, rfl⟩

theorem note (h : Past c seg d) (f : Fault) (span : Span) :
    Past c seg (d.note f span) :=
  ⟨h.rest, h.previous⟩

end Past

-- =============================================================== names

/-- A parameter is a name, whether or not it is a new one. -/
theorem parameter_past {seen ps : List Ident} {c d : Cursor}
    (h : parameter seen c = .ok ps d) :
    ∃ t : Token, t.kind = .identifier ∧ Past c [t] d
      ∧ ps = seen ++ [t.ident] := by
  obtain ⟨x, c₁, hname, h⟩ := bind_ok.1 h
  obtain ⟨t, ht, rfl, hover⟩ := identifier_ok hname
  dsimp only at h
  split at h
  case isTrue =>
      obtain ⟨u, c₂, hblame, h⟩ := bind_ok.1 h
      obtain rfl := modify_ok.1 hblame
      obtain ⟨rfl, rfl⟩ := pure_ok.1 h
      exact ⟨t, ht, hover.past.trans (.blame _ _ _), rfl⟩
  case isFalse =>
      obtain ⟨rfl, rfl⟩ := pure_ok.1 h
      exact ⟨t, ht, hover.past, rfl⟩

theorem parameters_past {seen ps : List Ident} {bound : Nat} {c d : Cursor}
    (h : parameters seen bound c = .ok ps d) :
    ∃ seg names, Past c seg d ∧ NamesIn seg names ∧ ps = seen ++ names := by
  induction bound generalizing seen c with
  | zero =>
      obtain ⟨t, ht, hpast, rfl⟩ := parameter_past h
      exact ⟨[t], [t.ident], hpast, .one ht, rfl⟩
  | succ bound ih =>
      obtain ⟨ps', c₁, hone, h⟩ := bind_ok.1 h
      obtain ⟨t, ht, hfirst, rfl⟩ := parameter_past hone
      obtain ⟨b, c₂, heat, h⟩ := bind_ok.1 h
      rcases eat_ok (by simp) heat with
        ⟨rfl, comma, hcomma, hover⟩ | ⟨rfl, -, rfl⟩
      · obtain ⟨seg, names, hrest, hnames, rfl⟩ := ih h
        exact ⟨t :: comma :: seg, t.ident :: names,
          (hfirst.trans hover.past).trans hrest, .more ht hcomma hnames,
          List.append_assoc ..⟩
      · obtain ⟨rfl, rfl⟩ := pure_ok.1 h
        exact ⟨[t], [t.ident], hfirst, .one ht, rfl⟩

-- ================================================== lists of statements

/-- What a reader of statements has to return, errors or not. -/
def YieldsStmt (p : Parse Stmt) : Prop :=
  ∀ {c d : Cursor} {s : Stmt}, Ordered c.rest → p c = .ok s d →
    ∃ seg, Past c seg d ∧ Gaps.StmtIn d.kind seg s

/-- A round that reads a statement or leaves a gap. -/
def Round.Yields (c : Cursor) (r : Round) : Prop :=
  Later c r.behind ∧ ∀ s ∈ r.piece, ∃ seg,
    c.rest = seg ++ r.behind.rest ∧ Gaps.StmtIn r.behind.kind seg s

/-- Round after round, there are statements and gaps. -/
theorem Rounds.derived {round? : Cursor → Option Round}
    (hround : ∀ {c r}, Ordered c.rest → round? c = some r → r.Yields c)
    {c d : Cursor} {rs : List Round} (hc : Ordered c.rest)
    (h : Rounds round? c rs d) :
    ∃ seg, c.rest = seg ++ d.rest
      ∧ Gaps.StmtsIn d.kind seg (rs.filterMap Round.piece) := by
  induction h with
  | stop => exact ⟨[], rfl, .nil⟩
  | @next c d r rs hsome _ ih =>
      obtain ⟨hlater, hyields⟩ := hround hc hsome
      obtain ⟨passed, hpassed⟩ := hlater.rest_suffix
      obtain ⟨rest, hrest, hss⟩ := ih (hpassed ▸ hc).of_append.2
      rw [List.filterMap_cons]
      cases hpiece : r.piece with
      | none =>
          exact ⟨passed ++ rest,
            by rw [← hpassed, hrest, List.append_assoc], hss.gaps passed⟩
      | some s =>
          obtain ⟨seg, hseg, hs⟩ := hyields s hpiece
          rw [Cursor.kind_of_rest hrest] at hs
          exact ⟨seg ++ rest, by rw [hseg, hrest, List.append_assoc],
            .cons hs hss⟩

theorem Cursor.round_yields {n : Nat} {inside : Bool} {c : Cursor}
    (hp : YieldsStmt (statement n inside)) (hc : Ordered c.rest) :
    (c.round (statement n inside)).Yields c := by
  refine ⟨.round n inside c, fun s hs => ?_⟩
  unfold Cursor.round at hs ⊢
  cases h : statement n inside c with
  | error e d =>
      rw [h] at hs
      cases hs
  | ok s' d =>
      rw [h] at hs
      cases hs
      obtain ⟨seg, hpast, hs⟩ := hp hc h
      exact ⟨seg, hpast.rest, hs⟩

theorem statementsInBlock_past {n : Nat} {inside : Bool}
    (hp : YieldsStmt (statement n inside)) {c d : Cursor} {ss : List Stmt}
    (hc : Ordered c.rest)
    (h : statementsInBlock (statement n inside) c.rest.length c
      = .ok ss d) :
    ∃ seg, c.rest = seg ++ d.rest ∧ Gaps.StmtsIn d.kind seg ss := by
  obtain ⟨rs, d', hrounds, hread⟩ :=
    statementsInBlock_rounds n inside (Nat.le_refl c.rest.length)
  cases hread.symm.trans h
  refine hrounds.derived (fun {c r} hc hr => ?_) hc
  unfold Cursor.roundOfBlock? at hr
  split at hr
  case isTrue => cases hr
  case isFalse =>
      cases hr
      exact Cursor.round_yields hp hc

-- ========================================================== statements

theorem declaration_past {n : Nat} {w : Token} {c₀ c d : Cursor} {s : Stmt}
    (hw : w.kind = .keyword .letK) (hc : Ordered c.rest)
    (hover : Past c₀ [w] c) (h : declaration n w.span c = .ok s d) :
    ∃ seg, Past c₀ seg d ∧ Gaps.StmtIn d.kind seg s := by
  obtain ⟨name, c₁, hname, h⟩ := bind_ok.1 h
  obtain ⟨x, hx, rfl, hx'⟩ := identifier_ok hname
  have behind {init : List Token} {i : Option Expr} {c₂ : Cursor}
      (hinit : Over c₁ init c₂) (hi : InitIn init i)
      (h : (do
        terminator "let declaration"
        return .declare (← Parse.spanFrom w.span) x.ident i : Parse Stmt) c₂
          = .ok s d) :
      ∃ seg, Past c₀ seg d ∧ Gaps.StmtIn d.kind seg s := by
    obtain ⟨final, hfinal, hends, rfl⟩ := ending_ok h
    have hall : Past c₀ (w :: x :: (init ++ final)) d :=
      (hover.trans hx'.past).trans (hinit.trans hfinal).past
    rw [hall.join_previous]
    exact ⟨_, hall, .declare hw hx hi hends⟩
  obtain ⟨b, c₂, heat, h⟩ := bind_ok.1 h
  rcases eat_ok (by simp) heat with ⟨rfl, eq, heq, heq'⟩ | ⟨rfl, -, rfl⟩
  · obtain ⟨i, c₃, hsome, h⟩ := bind_ok.1 h
    obtain ⟨e, hvalue, rfl⟩ := map_ok.1 hsome
    obtain ⟨seg, hseg, he⟩ := expression_ok
      ((hx'.trans heq').ordered hc).2 hvalue
    exact behind (heq'.trans hseg) (.some heq he) h
  · obtain ⟨i, c₃, hinit, h⟩ := bind_ok.1 h
    obtain ⟨rfl, rfl⟩ := pure_ok.1 hinit
    exact behind (.refl _) .none h

theorem returnStatement_past {n : Nat} {w : Token} {c₀ c d : Cursor}
    {s : Stmt} {inside : Bool} (hw : w.kind = .keyword .returnK)
    (hc : Ordered c.rest) (hover : Past c₀ [w] c)
    (h : returnStatement n inside w.span c = .ok s d) :
    ∃ seg, Past c₀ seg d ∧ Gaps.StmtIn d.kind seg s := by
  have inFunction {c : Cursor} (hc : Ordered c.rest) (hover : Past c₀ [w] c)
      (h : returnStatement n true w.span c = .ok s d) :
      ∃ seg, Past c₀ seg d ∧ Gaps.StmtIn d.kind seg s := by
    have behind {seg : List Token} {v : Option Expr} {c₁ : Cursor}
        (hvalue : Over c seg c₁) (hv : ValueIn seg v)
        (h : (do
          terminator "return statement"
          return .giveBack (← Parse.spanFrom w.span) v : Parse Stmt) c₁
            = .ok s d) :
        ∃ seg, Past c₀ seg d ∧ Gaps.StmtIn d.kind seg s := by
      obtain ⟨final, hfinal, hends, rfl⟩ := ending_ok h
      have hall : Past c₀ (w :: (seg ++ final)) d :=
        hover.trans (hvalue.trans hfinal).past
      rw [hall.join_previous]
      exact ⟨_, hall, .giveBack hw hv hends⟩
    obtain ⟨k, c₁, hkind, h⟩ := bind_ok.1 h
    obtain ⟨rfl, rfl⟩ := kind_ok hkind
    split at h
    case isTrue =>
        obtain ⟨v, c₁, hvalue, h⟩ := bind_ok.1 h
        obtain ⟨rfl, rfl⟩ := pure_ok.1 hvalue
        exact behind (.refl c) .none h
    case isFalse =>
        obtain ⟨v, c₁, hsome, h⟩ := bind_ok.1 h
        obtain ⟨e, hvalue, rfl⟩ := map_ok.1 hsome
        obtain ⟨seg, hseg, he⟩ := expression_ok hc hvalue
        exact behind hseg (.some he) h
  cases inside with
  | true => exact inFunction hc hover h
  | false =>
      -- behind the blame, it is read as in a function
      obtain ⟨u, c₁, hblame, h⟩ := bind_ok.1 h
      obtain rfl := modify_ok.1 hblame
      have hblamed := Past.blame c .returnOutside w.span
      exact inFunction (hblamed.ordered hc).2 (hover.trans hblamed) h

mutual

theorem statement_past (n : Nat) (inside : Bool) :
    YieldsStmt (statement n inside) := by
  intro c d s hc h
  unfold statement at h
  obtain ⟨c', d', hget, h⟩ := bind_ok.1 h
  obtain ⟨rfl, rfl⟩ := get_ok.1 hget
  generalize hk : c.kind = k at h
  split at h
  case h_1 =>
      obtain ⟨u, c₁, hskip, h⟩ := bind_ok.1 h
      obtain ⟨w, hw, hhere, hover⟩ := Cursor.over_skip hk (by simp) hskip
      rw [hhere] at h
      exact declaration_past hw (hover.ordered hc).2 hover.past h
  case h_2 =>
      obtain ⟨u, c₁, hskip, h⟩ := bind_ok.1 h
      obtain ⟨w, hw, hhere, hover⟩ := Cursor.over_skip hk (by simp) hskip
      rw [hhere] at h
      exact function_past hw hc hover.past h
  case h_3 =>
      obtain ⟨seg, hpast, hs⟩ := branch_past hk hc h
      exact ⟨seg, hpast, .branch hs⟩
  case h_4 =>
      obtain ⟨u, c₁, hskip, h⟩ := bind_ok.1 h
      obtain ⟨w, hw, hhere, hover⟩ := Cursor.over_skip hk (by simp) hskip
      obtain ⟨e, c₂, hvalue, h⟩ := bind_ok.1 h
      obtain ⟨seg, hseg, he⟩ := expression_ok (hover.ordered hc).2 hvalue
      obtain ⟨b, c₃, hblock, h⟩ := bind_ok.1 h
      obtain ⟨rfl, rfl⟩ := spanning_ok h
      have hvalue := hover.trans hseg
      obtain ⟨body, hbody, hb⟩ := block_past (hvalue.ordered hc).2 hblock
      have hall : Past c (w :: (seg ++ body)) c₃ :=
        hover.past.trans (hseg.past.trans hbody)
      rw [hhere, hall.join_previous]
      exact ⟨_, hall, .loop hw he hb⟩
  case h_5 =>
      obtain ⟨u, c₁, hskip, h⟩ := bind_ok.1 h
      obtain ⟨w, hw, hhere, hover⟩ := Cursor.over_skip hk (by simp) hskip
      rw [hhere] at h
      exact returnStatement_past hw (hover.ordered hc).2 hover.past h
  case h_6 =>
      obtain ⟨u, c₁, hskip, h⟩ := bind_ok.1 h
      obtain ⟨w, hw, hhere, hover⟩ := Cursor.over_skip hk (by simp) hskip
      obtain ⟨e, c₂, hvalue, h⟩ := bind_ok.1 h
      obtain ⟨seg, hseg, he⟩ := expression_ok (hover.ordered hc).2 hvalue
      obtain ⟨final, hfinal, hends, rfl⟩ := ending_ok h
      have hall : Past c (w :: (seg ++ final)) d :=
        (hover.trans (hseg.trans hfinal)).past
      rw [hhere, hall.join_previous]
      exact ⟨_, hall, .print hw he hends⟩
  case h_7 =>
      obtain ⟨b, c₁, hblock, h⟩ := bind_ok.1 h
      obtain ⟨rfl, rfl⟩ := pure_ok.1 h
      obtain ⟨seg, hpast, hb⟩ := block_past hc hblock
      exact ⟨seg, hpast, .block hb⟩
  case h_8 =>
      obtain ⟨u, c₁, hskip, h⟩ := bind_ok.1 h
      obtain ⟨w, hw, hhere, hover⟩ := Cursor.over_skip hk (by simp) hskip
      obtain ⟨u, c₂, hnote, h⟩ := bind_ok.1 h
      obtain rfl := modify_ok.1 hnote
      obtain ⟨rfl, rfl⟩ := spanning_ok h
      have hall := hover.past.note .emptyStatement c.here
      rw [hhere] at hall ⊢
      rw [hall.join_previous]
      exact ⟨_, hall, .empty hw⟩
  case h_9 =>
      obtain ⟨e, c₁, hvalue, h⟩ := bind_ok.1 h
      obtain ⟨seg, hseg, he⟩ := expression_ok hc hvalue
      obtain ⟨final, hfinal, hends, rfl⟩ := ending_ok h
      have hall := hseg.trans hfinal
      obtain ⟨t, ts, rfl⟩ := List.exists_cons_of_ne_nil he.ne_nil
      rw [hseg.here, hall.join_previous]
      exact ⟨_, hall.past, .expression he hends⟩
termination_by n * 4 + 3

theorem function_past {n : Nat} {w : Token} {c₀ c d : Cursor} {s : Stmt}
    (hw : w.kind = .keyword .fnK) (hc : Ordered c₀.rest)
    (hover : Past c₀ [w] c) (h : function n w.span c = .ok s d) :
    ∃ seg, Past c₀ seg d ∧ Gaps.StmtIn d.kind seg s := by
  unfold function at h
  obtain ⟨name, c₁, hname, h⟩ := bind_ok.1 h
  obtain ⟨x, hx, rfl, hx'⟩ := identifier_ok hname
  obtain ⟨s', c₂, hparen, h⟩ := bind_ok.1 h
  obtain ⟨o, ho, -, ho'⟩ := expect_ok (by simp) hparen
  have behind {seg : List Token} {names : List Ident} {c₃ : Cursor}
      (hseg : Past c₂ seg c₃) (hnames : ParamsIn seg names)
      (h : (do
        let _ ← Parse.expect (.punct .rightParen) "')' after parameters"
        let body ← block n true
        return .function ⟨x.ident, names, body, w.span.join body.span⟩ :
          Parse Stmt) c₃ = .ok s d) :
      ∃ seg, Past c₀ seg d ∧ Gaps.StmtIn d.kind seg s := by
    obtain ⟨s', c₄, hparen, h⟩ := bind_ok.1 h
    obtain ⟨close, hclose, -, hclose'⟩ := expect_ok (by simp) hparen
    obtain ⟨b, c₅, hblock, h⟩ := bind_ok.1 h
    obtain ⟨rfl, rfl⟩ := pure_ok.1 h
    have hfront := (hover.trans (hx'.trans ho').past).trans
      (hseg.trans hclose'.past)
    obtain ⟨body, hbody, hb⟩ := block_past (hfront.ordered hc).2 hblock
    have hall : Past c₀ ([w] ++ (x :: o :: (seg ++ [close]) ++ body)) c₅ := by
      simpa using hfront.trans hbody
    have hspan := cover_join _ (hall.ordered hc).1
      (List.cons_ne_nil w []) hb.span.1
    rw [cover_singleton, ← hb.span.2] at hspan
    rw [hspan]
    simp only [List.cons_append, List.nil_append, List.append_assoc]
      at hall ⊢
    exact ⟨_, hall, .function hw hx ho hnames hclose hb⟩
  obtain ⟨k, c₃, hkind, h⟩ := bind_ok.1 h
  obtain ⟨rfl, rfl⟩ := kind_ok hkind
  split at h
  case isTrue =>
      obtain ⟨names, c₃, hnone, h⟩ := bind_ok.1 h
      obtain ⟨rfl, rfl⟩ := pure_ok.1 hnone
      exact behind (.refl _) .none h
  case isFalse =>
      obtain ⟨bound, c₃, htokens, h⟩ := bind_ok.1 h
      obtain ⟨rfl, rfl⟩ := tokensLeft_ok htokens
      obtain ⟨names, c₃, hsome, h⟩ := bind_ok.1 h
      obtain ⟨seg, names, hseg, hnames, rfl⟩ := parameters_past hsome
      exact behind hseg (.some hnames) h
termination_by n * 4 + 2

theorem branch_past {n : Nat} {inside : Bool} {c d : Cursor} {s : Stmt}
    (hk : c.kind = .keyword .ifK) (hc : Ordered c.rest)
    (h : branch n inside c = .ok s d) :
    ∃ seg, Past c seg d ∧ Gaps.BranchIn seg s := by
  unfold branch at h
  obtain ⟨start, c₁, hhere, h⟩ := bind_ok.1 h
  obtain ⟨rfl, rfl⟩ := here_ok hhere
  obtain ⟨u, c₁, hskip, h⟩ := bind_ok.1 h
  obtain ⟨w, hw, hhere, hover⟩ := Cursor.over_skip hk (by simp) hskip
  rw [hhere] at h
  obtain ⟨e, c₂, hvalue, h⟩ := bind_ok.1 h
  obtain ⟨seg, hseg, he⟩ := expression_ok (hover.ordered hc).2 hvalue
  obtain ⟨b, c₃, hblock, h⟩ := bind_ok.1 h
  obtain ⟨yes, hyes, hb⟩ := block_past
    ((hover.trans hseg).ordered hc).2 hblock
  have hfront := hover.past.trans (hseg.past.trans hyes)
  have hc₃ : Ordered c₃.rest := (hfront.ordered hc).2
  have behind {no : List Token} {i : Option Stmt} {c₄ : Cursor}
      (hno : Past c₃ no c₄) (hi : Gaps.ElseIn no i)
      (h : (do return .branch (← Parse.spanFrom w.span) e b i :
        Parse Stmt) c₄ = .ok s d) :
      ∃ seg, Past c seg d ∧ Gaps.BranchIn seg s := by
    obtain ⟨rfl, rfl⟩ := spanning_ok h
    have hall : Past c (w :: (seg ++ (yes ++ no))) c₄ :=
      hover.past.trans (hseg.past.trans (hyes.trans hno))
    rw [hall.join_previous]
    exact ⟨_, hall, .mk hw he hb hi⟩
  obtain ⟨there, c₄, heat, h⟩ := bind_ok.1 h
  rcases eat_ok (by simp) heat with ⟨rfl, t, ht, ht'⟩ | ⟨rfl, -, rfl⟩
  · obtain ⟨k, c₅, hkind, h⟩ := bind_ok.1 h
    obtain ⟨rfl, rfl⟩ := kind_ok hkind
    split at h
    case isTrue hif =>
        cases n with
        | zero =>
            obtain ⟨i, c₅, hdeep, -⟩ := bind_ok.1 h
            exact (tooDeep_ok hdeep).elim
        | succ n =>
            obtain ⟨i, c₅, hsome, h⟩ := bind_ok.1 h
            obtain ⟨s', hbranch, rfl⟩ := map_ok.1 hsome
            obtain ⟨no, hno, hs⟩ :=
              branch_past hif (ht'.ordered hc₃).2 hbranch
            exact behind (ht'.past.trans hno) (.branch ht hs) h
    case isFalse =>
        obtain ⟨i, c₅, hsome, h⟩ := bind_ok.1 h
        obtain ⟨s', hmap, rfl⟩ := map_ok.1 hsome
        obtain ⟨b', hblock', rfl⟩ := map_ok.1 hmap
        obtain ⟨no, hno, hb'⟩ := block_past (ht'.ordered hc₃).2 hblock'
        exact behind (ht'.past.trans hno) (.block ht hb') h
  · obtain ⟨i, c₅, hnone, h⟩ := bind_ok.1 h
    obtain ⟨rfl, rfl⟩ := pure_ok.1 hnone
    exact behind (.refl _) .none h
termination_by n * 4 + 2

theorem block_past {n : Nat} {inside : Bool} {c d : Cursor} {b : Block}
    (hc : Ordered c.rest) (h : block n inside c = .ok b d) :
    ∃ seg, Past c seg d ∧ Gaps.BlockIn seg b := by
  unfold block at h
  cases n with
  | zero => exact (tooDeep_ok h).elim
  | succ n =>
      obtain ⟨s, c₁, hopen, h⟩ := bind_ok.1 h
      obtain ⟨o, ho, rfl, ho'⟩ := expect_ok (by simp) hopen
      obtain ⟨bound, c₂, htokens, h⟩ := bind_ok.1 h
      obtain ⟨rfl, rfl⟩ := tokensLeft_ok htokens
      obtain ⟨ss, c₂, hss, h⟩ := bind_ok.1 h
      obtain ⟨s, c₃, hexpect, h⟩ := bind_ok.1 h
      obtain ⟨close, hclose, rfl, hclose'⟩ := expect_ok (by simp) hexpect
      obtain ⟨rfl, rfl⟩ := pure_ok.1 h
      obtain ⟨seg, hseg, hss⟩ := statementsInBlock_past
        (statement_past n inside) (ho'.ordered hc).2 hss
      rw [hclose'.kind, firstKind_cons, hclose] at hss
      rw [← cover_between]
      refine ⟨o :: (seg ++ [close]), ⟨?_, ?_⟩, .mk ho hss hclose⟩
      · rw [ho'.rest, hseg, hclose'.rest]
        simp
      · -- the closing brace is the last one, whatever came before
        rw [hclose'.previous]
        simp [lastSpan]
termination_by n * 4

end

/-- A closing brace that matches nothing is a gap of its own. -/
theorem Cursor.roundOfProgram_yields {c : Cursor} {r : Round}
    (hc : Ordered c.rest) (h : c.roundOfProgram? = some r) :
    r.Yields c := by
  have hlater : Later c r.behind := .roundOfProgram h
  rcases Cursor.roundOfProgram_cases h with ⟨-, rfl⟩ | ⟨-, -, rfl⟩
  · exact ⟨hlater, fun _ hs => nomatch hs⟩
  · exact Cursor.round_yields (statement_past _ _) hc

end Tree

end Script
