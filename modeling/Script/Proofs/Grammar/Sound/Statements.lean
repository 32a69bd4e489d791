/-
What a reader of statements returns without an error is in the grammar,
and lawful. Statements are read on behind errors, so unlike expressions
they can be returned with a part left out; but then there is an error
among the reports, and reports stay.
-/
import Script.Proofs.Grammar.Care
import Script.Proofs.Grammar.Sound.Expressions

namespace Script

open Grammar Script.Action

namespace Tree

-- ==================================================== ends and names

theorem terminator_ok {behind : String} {c d : Cursor} {u : Unit}
    (h : terminator behind c = .ok u d) :
    ∃ seg, Over c seg d ∧ Ends d.kind seg := by
  obtain ⟨b, c₁, heat, h⟩ := bind_ok.1 h
  rcases eat_ok (by simp) heat with ⟨rfl, t, ht, hover⟩ | ⟨rfl, -, rfl⟩
  · obtain ⟨rfl, rfl⟩ := pure_ok.1 h
    exact ⟨[t], hover, .semicolon ht⟩
  · obtain ⟨k, c₂, hkind, h⟩ := bind_ok.1 h
    obtain ⟨rfl, rfl⟩ := kind_ok hkind
    split at h
    case isTrue hk =>
        obtain ⟨rfl, rfl⟩ := pure_ok.1 h
        exact ⟨[], .refl c, hk.elim .brace .endOfInput⟩
    case isFalse => exact (expected_ok h).elim

/-- The last step of a statement, behind all its tokens. -/
theorem spanning_ok {start : Span} {mk : Span → Stmt} {c d : Cursor}
    {s : Stmt} (h : (do return mk (← Parse.spanFrom start) : Parse Stmt) c
      = .ok s d) : c = d ∧ s = mk (start.join d.previous) := by
  obtain ⟨span, c₁, hspan, h⟩ := bind_ok.1 h
  obtain ⟨rfl, rfl⟩ := spanFrom_ok hspan
  obtain ⟨rfl, rfl⟩ := pure_ok.1 h
  exact ⟨rfl, rfl⟩

/-- The last steps of a statement that is ended by a semicolon or by what
stands behind it. -/
theorem ending_ok {behind : String} {start : Span} {mk : Span → Stmt}
    {c d : Cursor} {s : Stmt}
    (h : (do
      terminator behind
      return mk (← Parse.spanFrom start) : Parse Stmt) c = .ok s d) :
    ∃ final, Over c final d ∧ Ends d.kind final
      ∧ s = mk (start.join d.previous) := by
  obtain ⟨u, c₁, hend, h⟩ := bind_ok.1 h
  obtain ⟨rfl, rfl⟩ := spanning_ok h
  obtain ⟨final, hfinal, hends⟩ := terminator_ok hend
  exact ⟨final, hfinal, hends, rfl⟩

/-- Without an error, the next parameter has a name of its own. -/
theorem parameter_ok {seen ps : List Ident} {c d : Cursor}
    (hd : d.lastErrorAt = none) (h : parameter seen c = .ok ps d) :
    ∃ t : Token, t.kind = .identifier ∧ Over c [t] d
      ∧ ps = seen ++ [t.ident] ∧ ∀ p ∈ seen, p.name ≠ t.text := by
  obtain ⟨x, c₁, hname, h⟩ := bind_ok.1 h
  obtain ⟨t, ht, rfl, hover⟩ := identifier_ok hname
  dsimp only at h
  split at h
  case isTrue =>
      obtain ⟨u, c₂, hblame, h⟩ := bind_ok.1 h
      obtain rfl := modify_ok.1 hblame
      obtain ⟨rfl, rfl⟩ := pure_ok.1 h
      exact absurd hd (lastErrorAt_blame _ _ _)
  case isFalse hnew =>
      obtain ⟨rfl, rfl⟩ := pure_ok.1 h
      refine ⟨t, ht, hover, rfl, fun p hp hname => hnew ?_⟩
      exact List.any_eq_true.2 ⟨p, hp, beq_iff_eq.2 hname⟩

/-- A new name leaves names different. -/
theorem nodup_concat {seen : List Ident} {t : Token}
    (hseen : (seen.map (·.name)).Nodup)
    (hnew : ∀ p ∈ seen, p.name ≠ t.text) :
    ((seen ++ [t.ident]).map (·.name)).Nodup := by
  rw [List.map_append, List.nodup_append]
  refine ⟨hseen, List.pairwise_singleton .., ?_⟩
  intro x hx y hy hxy
  obtain ⟨p, hp, rfl⟩ := List.mem_map.1 hx
  obtain rfl := List.mem_singleton.1 hy
  exact hnew p hp hxy

theorem parameters_ok {seen ps : List Ident} {bound : Nat} {c d : Cursor}
    (hseen : (seen.map (·.name)).Nodup) (hd : d.lastErrorAt = none)
    (h : parameters seen bound c = .ok ps d) :
    ∃ seg names, Over c seg d ∧ NamesIn seg names ∧ ps = seen ++ names
      ∧ (ps.map (·.name)).Nodup := by
  induction bound generalizing seen c with
  | zero =>
      obtain ⟨t, ht, hover, rfl, hnew⟩ := parameter_ok hd h
      exact ⟨[t], [t.ident], hover, .one ht, rfl, nodup_concat hseen hnew⟩
  | succ bound ih =>
      obtain ⟨ps', c₁, hone, h⟩ := bind_ok.1 h
      obtain ⟨b, c₂, heat, h⟩ := bind_ok.1 h
      rcases eat_ok (by simp) heat with
        ⟨rfl, comma, hcomma, hover⟩ | ⟨rfl, -, rfl⟩
      · have hc₁ : c₁.lastErrorAt = none := by
          rw [← hover.lastErrorAt]
          exact ((Careful.parameters _ _).later_ok h).lastErrorAt_eq_none hd
        obtain ⟨t, ht, hfirst, rfl, hnew⟩ := parameter_ok hc₁ hone
        obtain ⟨seg, names, hrest, hnames, rfl, hps⟩ := 
          ih (nodup_concat hseen hnew) h
        exact ⟨t :: comma :: seg, t.ident :: names,
          (hfirst.trans hover).trans hrest, .more ht hcomma hnames,
          List.append_assoc .., hps⟩
      · obtain ⟨rfl, rfl⟩ := pure_ok.1 h
        obtain ⟨t, ht, hover, rfl, hnew⟩ := parameter_ok hd hone
        exact ⟨[t], [t.ident], hover, .one ht, rfl, nodup_concat hseen hnew⟩

-- ================================================== lists of statements

/-- Where reading recovers without an error, it had nothing to recover
from. -/
theorem recovering_ok {p : Parse Stmt} (hp : Careful p) {c d : Cursor}
    {s : Option Stmt} (hd : d.lastErrorAt = none)
    (h : recovering p c = .ok s d) : ∃ s', s = some s' ∧ p c = .ok s' d := by
  unfold recovering at h
  cases hpc : p c with
  | ok s' c' =>
      rw [hpc] at h
      cases h
      exact ⟨s', rfl, rfl⟩
  | error u c' =>
      rw [hpc] at h
      cases h
      exact absurd hd ((hp c).2 c' hpc)

/-- What a reader of statements has to return, unless there is an
error. -/
def ReadsStmt (inside : Bool) (p : Parse Stmt) : Prop :=
  ∀ {c d : Cursor} {s : Stmt}, Ordered c.rest → d.lastErrorAt = none →
    p c = .ok s d → ∃ seg, Over c seg d ∧ StmtIn d.kind seg s
      ∧ s.isLawful inside = true

theorem statementsInBlock_ok {p : Parse Stmt} {inside : Bool}
    (hcareful : Careful p) (hp : ReadsStmt inside p) {bound : Nat}
    {c d : Cursor} {ss : List Stmt} (hc : Ordered c.rest)
    (hd : d.lastErrorAt = none)
    (h : statementsInBlock p bound c = .ok ss d) :
    ∃ seg, Over c seg d ∧ StmtsIn d.kind seg ss
      ∧ stmtsAreLawful inside ss = true := by
  induction bound generalizing c ss with
  | zero =>
      obtain ⟨rfl, rfl⟩ := pure_ok.1 h
      exact ⟨[], .refl c, .nil, rfl⟩
  | succ bound ih =>
      obtain ⟨k, c', hkind, h⟩ := bind_ok.1 h
      obtain ⟨rfl, rfl⟩ := kind_ok hkind
      split at h
      case isTrue =>
          obtain ⟨rfl, rfl⟩ := pure_ok.1 h
          exact ⟨[], .refl c, .nil, rfl⟩
      case isFalse =>
          obtain ⟨s, c₁, hone, h⟩ := bind_ok.1 h
          obtain ⟨ss', c₂, hmore, h⟩ := bind_ok.1 h
          obtain ⟨rfl, rfl⟩ := pure_ok.1 h
          have hc₁ := ((Careful.statementsInBlock hcareful
            bound).later_ok hmore).lastErrorAt_eq_none hd
          obtain ⟨s, rfl, hs⟩ := recovering_ok hcareful hc₁ hone
          obtain ⟨seg, hover, hs, hlawful⟩ := hp hc hc₁ hs
          obtain ⟨rest, hrest, hss, hlawful'⟩ :=
            ih (hover.ordered hc).2 hmore
          rw [hrest.kind] at hs
          refine ⟨seg ++ rest, hover.trans hrest, .cons hs hss, ?_⟩
          exact Bool.and_eq_true_iff.2 ⟨hlawful, hlawful'⟩

-- ========================================================== statements

theorem declaration_ok {n : Nat} {w : Token} {c₀ c d : Cursor} {s : Stmt}
    {inside : Bool} (hw : w.kind = .keyword .letK) (hc : Ordered c.rest)
    (hover : Over c₀ [w] c) (h : declaration n w.span c = .ok s d) :
    ∃ seg, Over c₀ seg d ∧ StmtIn d.kind seg s
      ∧ s.isLawful inside = true := by
  obtain ⟨name, c₁, hname, h⟩ := bind_ok.1 h
  obtain ⟨x, hx, rfl, hx'⟩ := identifier_ok hname
  have behind {init : List Token} {i : Option Expr} {c₂ : Cursor}
      (hinit : Over c₁ init c₂) (hi : InitIn init i)
      (h : (do
        terminator "let declaration"
        return .declare (← Parse.spanFrom w.span) x.ident i : Parse Stmt) c₂
          = .ok s d) :
      ∃ seg, Over c₀ seg d ∧ StmtIn d.kind seg s
        ∧ s.isLawful inside = true := by
    obtain ⟨final, hfinal, hends, rfl⟩ := ending_ok h
    have hall : Over c₀ (w :: x :: (init ++ final)) d :=
      (hover.trans hx').trans (hinit.trans hfinal)
    rw [hall.join_previous]
    exact ⟨_, hall, .declare hw hx hi hends, rfl⟩
  obtain ⟨b, c₂, heat, h⟩ := bind_ok.1 h
  rcases eat_ok (by simp) heat with ⟨rfl, eq, heq, heq'⟩ | ⟨rfl, -, rfl⟩
  · obtain ⟨i, c₃, hsome, h⟩ := bind_ok.1 h
    obtain ⟨e, hvalue, rfl⟩ := map_ok.1 hsome
    obtain ⟨seg, hseg, he⟩ := expression_ok
      ((hx'.trans heq').ordered hc).2 hvalue
    exact behind (heq'.trans hseg) (.some heq he) h
  · obtain ⟨i, c₃, hinit, h⟩ := bind_ok.1 h
    obtain ⟨rfl, rfl⟩ := pure_ok.1 hinit
    exact behind (.refl _) .none h

theorem returnStatement_ok {n : Nat} {w : Token} {c₀ c d : Cursor}
    {s : Stmt} {inside : Bool} (hw : w.kind = .keyword .returnK)
    (hc : Ordered c.rest) (hover : Over c₀ [w] c)
    (hd : d.lastErrorAt = none)
    (h : returnStatement n inside w.span c = .ok s d) :
    ∃ seg, Over c₀ seg d ∧ StmtIn d.kind seg s
      ∧ s.isLawful inside = true := by
  cases inside with
  | false =>
      -- The blame comes first, so the rest cannot end without an error.
      obtain ⟨u, c₁, hblame, h'⟩ := bind_ok.1 h
      have hcareful := Careful.returnStatement n true w.span
      have hlater : Later c₁ d := hcareful.later_ok h'
      obtain rfl := modify_ok.1 hblame
      exact absurd (hlater.lastErrorAt_eq_none hd) (lastErrorAt_blame _ _ _)
  | true =>
      have behind {seg : List Token} {v : Option Expr} {c₁ : Cursor}
          (hvalue : Over c seg c₁) (hv : ValueIn seg v)
          (h : (do
            terminator "return statement"
            return .giveBack (← Parse.spanFrom w.span) v : Parse Stmt) c₁
              = .ok s d) :
          ∃ seg, Over c₀ seg d ∧ StmtIn d.kind seg s
            ∧ s.isLawful true = true := by
        obtain ⟨final, hfinal, hends, rfl⟩ := ending_ok h
        have hall : Over c₀ (w :: (seg ++ final)) d :=
          hover.trans (hvalue.trans hfinal)
        rw [hall.join_previous]
        exact ⟨_, hall, .giveBack hw hv hends, rfl⟩
      obtain ⟨k, c₁, hkind, h⟩ := bind_ok.1 h
      obtain ⟨rfl, rfl⟩ := kind_ok hkind
      split at h
      case isTrue =>
          obtain ⟨v, c₁, hvalue, h⟩ := bind_ok.1 h
          obtain ⟨rfl, rfl⟩ := pure_ok.1 hvalue
          exact behind (.refl c) .none h
      case isFalse =>
          obtain ⟨v, c₁, hsome, h⟩ := bind_ok.1 h
          obtain ⟨e, hvalue, rfl⟩ := map_ok.1 hsome
          obtain ⟨seg, hseg, he⟩ := expression_ok hc hvalue
          exact behind hseg (.some he) h

/-- A word that a statement begins with. -/
theorem Cursor.over_skip {c d : Cursor} {k : Token.Kind} {u : Unit}
    (hk : c.kind = k) (hend : k ≠ .endOfInput)
    (h : Parse.skip c = .ok u d) :
    ∃ w, w.kind = k ∧ c.here = w.span ∧ Over c [w] d := by
  obtain rfl := skip_ok h
  obtain ⟨w, ts, hrest, hw⟩ := Cursor.exists_of_kind hk hend
  have hover := Cursor.over_advance hrest
  exact ⟨w, hw, hover.here, hover⟩

end Tree

namespace Grammar

theorem BlockIn.span {seg : List Token} {b : Block} (h : BlockIn seg b) :
    seg ≠ [] ∧ b.span = cover seg := by
  cases h with
  | mk => exact ⟨List.cons_ne_nil _ _, rfl⟩

theorem StmtIn.ne_nil {next : Token.Kind} {seg : List Token} {s : Stmt}
    (h : StmtIn next seg s) : seg ≠ [] := by
  cases h with
  | branch h =>
      cases h
      exact List.cons_ne_nil _ _
  | block h => exact h.span.1
  | expression h =>
      intro hnil
      exact h.ne_nil (List.append_eq_nil_iff.1 hnil).1
  | _ => exact List.cons_ne_nil _ _

end Grammar

namespace Tree

mutual

theorem statement_ok (n : Nat) (inside : Bool) :
    ReadsStmt inside (statement n inside) := by
  intro c d s hc hd h
  unfold statement at h
  obtain ⟨c', d', hget, h⟩ := bind_ok.1 h
  obtain ⟨rfl, rfl⟩ := get_ok.1 hget
  generalize hk : c.kind = k at h
  split at h
  case h_1 =>
      obtain ⟨u, c₁, hskip, h⟩ := bind_ok.1 h
      obtain ⟨w, hw, hhere, hover⟩ := Cursor.over_skip hk (by simp) hskip
      rw [hhere] at h
      exact declaration_ok hw (hover.ordered hc).2 hover h
  case h_2 =>
      obtain ⟨u, c₁, hskip, h⟩ := bind_ok.1 h
      obtain ⟨w, hw, hhere, hover⟩ := Cursor.over_skip hk (by simp) hskip
      rw [hhere] at h
      exact function_ok hw hc hover hd h
  case h_3 =>
      obtain ⟨seg, hover, hs, hlawful⟩ := branch_ok hk hc hd h
      exact ⟨seg, hover, .branch hs, hlawful⟩
  case h_4 =>
      obtain ⟨u, c₁, hskip, h⟩ := bind_ok.1 h
      obtain ⟨w, hw, hhere, hover⟩ := Cursor.over_skip hk (by simp) hskip
      obtain ⟨e, c₂, hvalue, h⟩ := bind_ok.1 h
      obtain ⟨seg, hseg, he⟩ := expression_ok (hover.ordered hc).2 hvalue
      obtain ⟨b, c₃, hblock, h⟩ := bind_ok.1 h
      obtain ⟨rfl, rfl⟩ := spanning_ok h
      have hvalue := hover.trans hseg
      obtain ⟨body, hbody, hb, hlawful⟩ :=
        block_ok (hvalue.ordered hc).2 hd hblock
      have hall : Over c (w :: (seg ++ body)) c₃ :=
        hover.trans (hseg.trans hbody)
      rw [hhere, hall.join_previous]
      exact ⟨_, hall, .loop hw he hb, hlawful⟩
  case h_5 =>
      obtain ⟨u, c₁, hskip, h⟩ := bind_ok.1 h
      obtain ⟨w, hw, hhere, hover⟩ := Cursor.over_skip hk (by simp) hskip
      rw [hhere] at h
      exact returnStatement_ok hw (hover.ordered hc).2 hover hd h
  case h_6 =>
      obtain ⟨u, c₁, hskip, h⟩ := bind_ok.1 h
      obtain ⟨w, hw, hhere, hover⟩ := Cursor.over_skip hk (by simp) hskip
      obtain ⟨e, c₂, hvalue, h⟩ := bind_ok.1 h
      obtain ⟨seg, hseg, he⟩ := expression_ok (hover.ordered hc).2 hvalue
      obtain ⟨final, hfinal, hends, rfl⟩ := ending_ok h
      have hall : Over c (w :: (seg ++ final)) d :=
        hover.trans (hseg.trans hfinal)
      rw [hhere, hall.join_previous]
      exact ⟨_, hall, .print hw he hends, rfl⟩
  case h_7 =>
      obtain ⟨b, c₁, hblock, h⟩ := bind_ok.1 h
      obtain ⟨rfl, rfl⟩ := pure_ok.1 h
      obtain ⟨seg, hover, hb, hlawful⟩ := block_ok hc hd hblock
      exact ⟨seg, hover, .block hb, hlawful⟩
  case h_8 =>
      obtain ⟨u, c₁, hskip, h⟩ := bind_ok.1 h
      obtain ⟨w, hw, hhere, hover⟩ := Cursor.over_skip hk (by simp) hskip
      obtain ⟨u, c₂, hnote, h⟩ := bind_ok.1 h
      obtain rfl := modify_ok.1 hnote
      obtain ⟨rfl, rfl⟩ := spanning_ok h
      have hall : Over c [w] (c₁.note .emptyStatement c.here) :=
        ⟨hover.rest, hover.previous, hover.endOfInput, hover.lastErrorAt⟩
      rw [hhere, hall.join_previous] at *
      exact ⟨_, hall, .empty hw, rfl⟩
  case h_9 =>
      obtain ⟨e, c₁, hvalue, h⟩ := bind_ok.1 h
      obtain ⟨seg, hseg, he⟩ := expression_ok hc hvalue
      obtain ⟨final, hfinal, hends, rfl⟩ := ending_ok h
      have hall := hseg.trans hfinal
      obtain ⟨t, ts, rfl⟩ := List.exists_cons_of_ne_nil he.ne_nil
      rw [hseg.here, hall.join_previous]
      exact ⟨_, hall, .expression he hends, rfl⟩
termination_by n * 4 + 3

theorem function_ok {n : Nat} {w : Token} {c₀ c d : Cursor} {s : Stmt}
    {inside : Bool} (hw : w.kind = .keyword .fnK) (hc : Ordered c₀.rest)
    (hover : Over c₀ [w] c) (hd : d.lastErrorAt = none)
    (h : function n w.span c = .ok s d) :
    ∃ seg, Over c₀ seg d ∧ StmtIn d.kind seg s
      ∧ s.isLawful inside = true := by
  unfold function at h
  obtain ⟨name, c₁, hname, h⟩ := bind_ok.1 h
  obtain ⟨x, hx, rfl, hx'⟩ := identifier_ok hname
  obtain ⟨s', c₂, hparen, h⟩ := bind_ok.1 h
  obtain ⟨o, ho, -, ho'⟩ := expect_ok (by simp) hparen
  have behind {params : Parse (List Ident)} {names : List Ident}
      {c₃ : Cursor} (hparams : params c₂ = .ok names c₃)
      (hnames : c₃.lastErrorAt = none → ∃ seg, Over c₂ seg c₃
        ∧ ParamsIn seg names ∧ (names.map (·.name)).Nodup)
      (h : (do
        let _ ← Parse.expect (.punct .rightParen) "')' after parameters"
        let body ← block n true
        return .function ⟨x.ident, names, body, w.span.join body.span⟩ :
          Parse Stmt) c₃ = .ok s d) :
      ∃ seg, Over c₀ seg d ∧ StmtIn d.kind seg s
        ∧ s.isLawful inside = true := by
    obtain ⟨s', c₄, hparen, h⟩ := bind_ok.1 h
    obtain ⟨close, hclose, -, hclose'⟩ := expect_ok (by simp) hparen
    obtain ⟨b, c₅, hblock, h⟩ := bind_ok.1 h
    obtain ⟨rfl, rfl⟩ := pure_ok.1 h
    have hc₄ : c₄.lastErrorAt = none :=
      ((Careful.block n true).later_ok hblock).lastErrorAt_eq_none hd
    obtain ⟨seg, hseg, hps, hnodup⟩ :=
      hnames (hclose'.lastErrorAt.symm.trans hc₄)
    have hfront := ((hover.trans hx').trans ho').trans
      (hseg.trans hclose')
    obtain ⟨body, hbody, hb, hlawful⟩ :=
      block_ok (hfront.ordered hc).2 hd hblock
    have hall : Over c₀ ([w] ++ (x :: o :: (seg ++ [close]) ++ body)) c₅ := by
      simpa using hfront.trans hbody
    have hspan := cover_join _ (hall.ordered hc).1
      (List.cons_ne_nil w []) hb.span.1
    rw [cover_singleton, ← hb.span.2] at hspan
    rw [hspan]
    simp only [List.cons_append, List.nil_append, List.append_assoc]
      at hall ⊢
    refine ⟨_, hall, .function hw hx ho hps hclose hb, ?_⟩
    exact Bool.and_eq_true_iff.2 ⟨decide_eq_true hnodup, hlawful⟩
  obtain ⟨k, c₃, hkind, h⟩ := bind_ok.1 h
  obtain ⟨rfl, rfl⟩ := kind_ok hkind
  split at h
  case isTrue =>
      obtain ⟨names, c₃, hnone, h⟩ := bind_ok.1 h
      refine behind hnone (fun _ => ?_) h
      obtain ⟨rfl, rfl⟩ := pure_ok.1 hnone
      exact ⟨[], .refl _, .none, List.nodup_nil⟩
  case isFalse =>
      obtain ⟨bound, c₃, htokens, h⟩ := bind_ok.1 h
      obtain ⟨rfl, rfl⟩ := tokensLeft_ok htokens
      obtain ⟨names, c₃, hsome, h⟩ := bind_ok.1 h
      refine behind hsome (fun hc₃ => ?_) h
      have hnil : (([] : List Ident).map (·.name)).Nodup := List.nodup_nil
      obtain ⟨seg, names, hseg, hnames, rfl, hnodup⟩ :=
        parameters_ok hnil hc₃ hsome
      exact ⟨seg, hseg, .some hnames, hnodup⟩
termination_by n * 4 + 2

theorem branch_ok {n : Nat} {inside : Bool} {c d : Cursor} {s : Stmt}
    (hk : c.kind = .keyword .ifK) (hc : Ordered c.rest)
    (hd : d.lastErrorAt = none) (h : branch n inside c = .ok s d) :
    ∃ seg, Over c seg d ∧ BranchIn seg s ∧ s.isLawful inside = true := by
  unfold branch at h
  obtain ⟨start, c₁, hhere, h⟩ := bind_ok.1 h
  obtain ⟨rfl, rfl⟩ := here_ok hhere
  obtain ⟨u, c₁, hskip, h⟩ := bind_ok.1 h
  obtain ⟨w, hw, hhere, hover⟩ := Cursor.over_skip hk (by simp) hskip
  rw [hhere] at h
  obtain ⟨e, c₂, hvalue, h⟩ := bind_ok.1 h
  obtain ⟨seg, hseg, he⟩ := expression_ok (hover.ordered hc).2 hvalue
  have hvalue := hover.trans hseg
  obtain ⟨b, c₃, hblock, h⟩ := bind_ok.1 h
  have behind {no : List Token} {i : Option Stmt} (hno : Over c₃ no d)
      (hi : ElseIn no i) (hlawful : elseIsLawful inside i = true)
      (hs : s = .branch (w.span.join d.previous) e b i) :
      ∃ seg, Over c seg d ∧ BranchIn seg s ∧ s.isLawful inside = true := by
    obtain ⟨yes, hyes, hb, hlawful'⟩ := block_ok (hvalue.ordered hc).2
      (hno.lastErrorAt.symm.trans hd) hblock
    have hall : Over c (w :: (seg ++ (yes ++ no))) d :=
      hover.trans (hseg.trans (hyes.trans hno))
    rw [hs, hall.join_previous]
    exact ⟨_, hall, .mk hw he hb hi,
      Bool.and_eq_true_iff.2 ⟨hlawful', hlawful⟩⟩
  have hc₃ (h : Later c₃ d) : Ordered c₃.rest := by
    have hc₃ := h.lastErrorAt_eq_none hd
    obtain ⟨yes, hyes, -⟩ := block_ok (hvalue.ordered hc).2 hc₃ hblock
    exact ((hvalue.trans hyes).ordered hc).2
  obtain ⟨there, c₄, heat, h⟩ := bind_ok.1 h
  have hlater := (Careful.eat _).later_ok heat
  rcases eat_ok (by simp) heat with ⟨rfl, t, ht, ht'⟩ | ⟨rfl, -, rfl⟩
  · obtain ⟨k, c₅, hkind, h⟩ := bind_ok.1 h
    obtain ⟨rfl, rfl⟩ := kind_ok hkind
    split at h
    case isTrue hif =>
        cases n with
        | zero =>
            obtain ⟨i, c₅, hdeep, -⟩ := bind_ok.1 h
            exact (tooDeep_ok hdeep).elim
        | succ n =>
            obtain ⟨i, c₅, hsome, h⟩ := bind_ok.1 h
            obtain ⟨s', hbranch, rfl⟩ := map_ok.1 hsome
            obtain ⟨rfl, hs⟩ := spanning_ok h
            have hlater := hlater.trans
              ((Careful.branch n inside).later_ok hbranch)
            obtain ⟨no, hno, hs', hlawful⟩ :=
              branch_ok hif (ht'.ordered (hc₃ hlater)).2 hd hbranch
            exact behind (ht'.trans hno) (.branch ht hs') hlawful hs
    case isFalse =>
        obtain ⟨i, c₅, hsome, h⟩ := bind_ok.1 h
        obtain ⟨s', hmap, rfl⟩ := map_ok.1 hsome
        obtain ⟨b', hblock', rfl⟩ := map_ok.1 hmap
        obtain ⟨rfl, hs⟩ := spanning_ok h
        have hlater := hlater.trans
          ((Careful.block n inside).later_ok hblock')
        obtain ⟨no, hno, hb', hlawful⟩ :=
          block_ok (ht'.ordered (hc₃ hlater)).2 hd hblock'
        exact behind (ht'.trans hno) (.block ht hb') hlawful hs
  · obtain ⟨i, c₅, hnone, h⟩ := bind_ok.1 h
    obtain ⟨rfl, rfl⟩ := pure_ok.1 hnone
    obtain ⟨rfl, hs⟩ := spanning_ok h
    exact behind (.refl _) .none rfl hs
termination_by n * 4 + 2

theorem block_ok {n : Nat} {inside : Bool} {c d : Cursor} {b : Block}
    (hc : Ordered c.rest) (hd : d.lastErrorAt = none)
    (h : block n inside c = .ok b d) :
    ∃ seg, Over c seg d ∧ BlockIn seg b ∧ b.isLawful inside = true := by
  unfold block at h
  cases n with
  | zero => exact (tooDeep_ok h).elim
  | succ n =>
      obtain ⟨s, c₁, hopen, h⟩ := bind_ok.1 h
      obtain ⟨o, ho, rfl, ho'⟩ := expect_ok (by simp) hopen
      obtain ⟨bound, c₂, htokens, h⟩ := bind_ok.1 h
      obtain ⟨rfl, rfl⟩ := tokensLeft_ok htokens
      obtain ⟨ss, c₂, hss, h⟩ := bind_ok.1 h
      obtain ⟨s, c₃, hexpect, h⟩ := bind_ok.1 h
      obtain ⟨close, hclose, rfl, hclose'⟩ := expect_ok (by simp) hexpect
      obtain ⟨rfl, rfl⟩ := pure_ok.1 h
      obtain ⟨seg, hseg, hss, hlawful⟩ := statementsInBlock_ok
        (Careful.statement n inside) (statement_ok n inside)
        (ho'.ordered hc).2 (hclose'.lastErrorAt.symm.trans hd) hss
      rw [hclose'.kind] at hss
      rw [← cover_between]
      exact ⟨_, ho'.trans (hseg.trans hclose'),
        .mk ho (hclose ▸ hss) hclose, hlawful⟩
termination_by n * 4

end

/-- Without an error, the statements of a program take all its
tokens. -/
theorem statementsOfProgram_ok {bound : Nat} {c d : Cursor}
    {ss : List Stmt} (hc : Ordered c.rest) (hbound : c.rest.length ≤ bound)
    (hkinds : ∀ t ∈ c.rest, t.kind ≠ .endOfInput)
    (hd : d.lastErrorAt = none)
    (h : statementsOfProgram bound c = .ok ss d) :
    Over c c.rest d ∧ StmtsIn .endOfInput c.rest ss
      ∧ stmtsAreLawful false ss = true := by
  induction bound generalizing c ss with
  | zero =>
      obtain ⟨rfl, rfl⟩ := pure_ok.1 h
      have hrest := List.eq_nil_of_length_eq_zero (Nat.le_zero.1 hbound)
      rw [hrest]
      exact ⟨.refl c, .nil, rfl⟩
  | succ bound ih =>
      obtain ⟨k, c', hkind, h⟩ := bind_ok.1 h
      obtain ⟨hk, rfl⟩ := kind_ok hkind
      split at h
      case h_1 =>
          obtain ⟨rfl, rfl⟩ := pure_ok.1 h
          have hrest : c.rest = [] := by
            unfold Cursor.kind at hk
            split at hk
            case h_1 t ts hts =>
                exact absurd hk (hkinds t (by rw [hts]; simp))
            case h_2 hrest => exact hrest
          rw [hrest]
          exact ⟨.refl c, .nil, rfl⟩
      case h_2 =>
          obtain ⟨s, c₁, hhere, h⟩ := bind_ok.1 h
          obtain ⟨rfl, rfl⟩ := here_ok hhere
          obtain ⟨u, c₁, hblame, h⟩ := bind_ok.1 h
          have hlater := (Careful.skip.bind fun _ =>
            Careful.statementsOfProgram bound).later_ok h
          obtain rfl := modify_ok.1 hblame
          exact absurd (hlater.lastErrorAt_eq_none hd)
            (lastErrorAt_blame _ _ _)
      case h_3 =>
          obtain ⟨s, c₁, hone, h⟩ := bind_ok.1 h
          obtain ⟨ss', c₂, hmore, h⟩ := bind_ok.1 h
          obtain ⟨rfl, rfl⟩ := pure_ok.1 h
          have hc₁ := ((Careful.statementsOfProgram
            bound).later_ok hmore).lastErrorAt_eq_none hd
          obtain ⟨s, rfl, hs⟩ :=
            recovering_ok (Careful.statement _ _) hc₁ hone
          obtain ⟨seg, hover, hs, hlawful⟩ := statement_ok _ _ hc hc₁ hs
          have hlength := List.length_pos_iff.2 hs.ne_nil
          have hrest := hover.rest
          have hbound' : c₁.rest.length ≤ bound := by
            rw [hrest, List.length_append] at hbound
            omega
          obtain ⟨hover', hss, hlawful'⟩ := ih (hover.ordered hc).2 hbound'
            (fun t ht => hkinds t (by rw [hrest]; simp [ht])) hmore
          have hend : c₂.rest = [] := List.self_eq_append_right.1 hover'.rest
          have hkind : c₂.kind = .endOfInput := by
            unfold Cursor.kind
            rw [hend]
          rw [hover'.kind, hkind] at hs
          rw [hrest]
          exact ⟨hover.trans hover', .cons hs hss,
            Bool.and_eq_true_iff.2 ⟨hlawful, hlawful'⟩⟩

end Tree

end Script
