/-
The reader of programs accepts the grammar, no more and no less. On the
tokens of a text, and apart from programs that are nested too deeply,
there is no error exactly if the tokens derive a lawful program; and then
the program that is read is the one that they derive. So a token list has
one lawful tree at most.
-/
import Script.Proofs.Grammar.Complete.Statements

namespace Script

open Grammar Script.Tree

variable (file : FileId) (size : Nat) {body : List Token} {last : Token}

-- ======================================================== both ends

/-- The cursor in front of tokens and the end of input. -/
theorem Tree.Cursor.start_eq (hlast : last.kind = .endOfInput)
    (hbody : ∀ t ∈ body, t.kind ≠ .endOfInput) :
    (Cursor.start file size (body ++ [last])).rest = body
      ∧ (Cursor.start file size (body ++ [last])).endOfInput
        = last.span := by
  constructor
  · show (body ++ [last]).takeWhile _ = body
    rw [List.takeWhile_append_of_pos
      fun t ht => decide_eq_true (hbody t ht)]
    simp [hlast]
  · have hfind : (body ++ [last]).find? (·.kind = .endOfInput)
        = some last := by
      have hnone : body.find? (·.kind = .endOfInput) = none :=
        List.find?_eq_none.2 fun t ht h => hbody t ht (of_decide_eq_true h)
      rw [List.find?_append, hnone]
      simp [hlast]
    unfold Cursor.start
    dsimp only
    rw [hfind]

/-- A program reaches from its first token to the end of input. -/
theorem Tree.Cursor.join_here {c d : Cursor} (hrest : d.rest = [])
    (hsame : d.endOfInput = c.endOfInput) (hend : c.endOfInput = last.span) :
    c.here.join d.here = cover (c.rest ++ [last]) := by
  have hd : d.here = last.span := by
    unfold Cursor.here
    rw [hrest]
    exact hsame.trans hend
  rw [hd]
  cases hc : c.rest with
  | nil =>
      unfold Cursor.here
      rw [hc, List.nil_append, cover_singleton]
      show c.endOfInput.join _ = _
      rw [hend, Span.join_self]
  | cons t ts =>
      unfold Cursor.here
      rw [hc]
      exact (cover_between t last ts).symm

/-- Tokens that derive a program end with the only end of input. -/
theorem Grammar.ProgramIn.stmtsIn {p : Program}
    (h : ProgramIn (body ++ [last]) p) :
    StmtsIn .endOfInput body p.statements
      ∧ p.span = cover (body ++ [last]) := by
  generalize hts : body ++ [last] = ts at h
  obtain @⟨body', last', ss, hlast, hss⟩ := h
  obtain ⟨rfl, -⟩ := List.append_inj' hts rfl
  exact ⟨hss, rfl⟩

-- ============================================================ programs

/-- Where a program starts, nothing has been reported. -/
theorem Tree.Cursor.isFair_start (tokens : List Token) :
    (Cursor.start file size tokens).IsFair :=
  ⟨fun _ => rfl, fun _ => rfl⟩

/-- Without an error, the program that is read is derived. -/
theorem Program.ofTokens_of_no_error (hlast : last.kind = .endOfInput)
    (hbody : ∀ t ∈ body, t.kind ≠ .endOfInput) (hordered : Ordered body)
    (h : hasErrors (ofTokens file size (body ++ [last])).2 = false) :
    ProgramIn (body ++ [last]) (ofTokens file size (body ++ [last])).1
      ∧ (ofTokens file size (body ++ [last])).1.isLawful = true := by
  obtain ⟨hrest, hend⟩ := Cursor.start_eq file size hlast hbody
  have hfair := Cursor.isFair_start file size (body ++ [last])
  have hcareful := Careful.statementsOfProgram body.length
  unfold ofTokens readFrom at h ⊢
  dsimp only at h ⊢
  rw [hrest] at h ⊢
  generalize Cursor.start file size (body ++ [last]) = c at *
  cases hread : statementsOfProgram body.length c with
  | ok ss d =>
      rw [hread] at h
      have hd := ((hcareful.later_ok hread).isFair hfair).2 h
      subst hrest
      obtain ⟨hover, hss, hlawful⟩ :=
        statementsOfProgram_ok hordered (Nat.le_refl _) hbody hd hread
      have hrest : d.rest = [] := List.self_eq_append_right.1 hover.rest
      dsimp only
      rw [Cursor.join_here hrest hover.endOfInput hend]
      exact ⟨.mk hlast hss, hlawful⟩
  | error e d =>
      rw [hread] at h
      have hd := ((hcareful.later_error hread).isFair hfair).2 h
      exact absurd hd ((hcareful c).2 d hread)

/-- A lawful derivation is read, unless it is nested too deeply. -/
theorem Program.ofTokens_of_programIn {p : Program}
    (hlast : last.kind = .endOfInput)
    (hbody : ∀ t ∈ body, t.kind ≠ .endOfInput) (hordered : Ordered body)
    (hp : ProgramIn (body ++ [last]) p) (hlawful : p.isLawful = true) :
    ((ofTokens file size (body ++ [last])).1 = p
      ∧ hasErrors (ofTokens file size (body ++ [last])).2 = false)
    ∨ ∃ span, Fault.tooDeep.report.at span
        ∈ (ofTokens file size (body ++ [last])).2 := by
  obtain ⟨hrest, hend⟩ := Cursor.start_eq file size hlast hbody
  have hfair := Cursor.isFair_start file size (body ++ [last])
  have hclean : (Cursor.start file size (body ++ [last])).lastErrorAt
      = none := rfl
  have hcareful := Careful.statementsOfProgram body.length
  obtain ⟨hss, hspan⟩ := hp.stmtsIn
  unfold ofTokens readFrom
  dsimp only
  rw [hrest]
  generalize Cursor.start file size (body ++ [last]) = c at *
  have hc : Facing c body .endOfInput :=
    ⟨⟨[], by rw [hrest, List.append_nil], rfl⟩, hrest ▸ hordered, hclean⟩
  rcases program_finishes hss body.length c hc hlawful (Nat.le_refl _)
    with ⟨d, hread, hover⟩ | hdeep
  · have hd := (hcareful.later_ok hread).isFair hfair
    subst hrest
    rw [hread]
    refine .inl ⟨?_, hd.1 (hover.lastErrorAt.trans hclean)⟩
    have hrest : d.rest = [] := List.self_eq_append_right.1 hover.rest
    dsimp only
    rw [Cursor.join_here hrest hover.endOfInput hend, ← hspan]
  · refine .inr ?_
    obtain ⟨span, hmem⟩ := hdeep
    refine ⟨span, ?_⟩
    cases hread : statementsOfProgram body.length c with
    | ok ss d | error e d =>
        rw [hread] at hmem
        exact Array.mem_toList_iff.2 hmem

/-- The reader of programs accepts exactly what the grammar derives, and
returns the tree that is derived. -/
theorem Program.accepts_iff_derives (text : String)
    (hdeep : ∀ d ∈ (ofTokens file text.utf8ByteSize
      (Token.ofText file text).1).2, d.code ≠ some "E0307") :
    (hasErrors (ofTokens file text.utf8ByteSize
        (Token.ofText file text).1).2 = false
      ↔ ∃ p, ProgramIn (Token.ofText file text).1 p ∧ p.isLawful = true)
    ∧ ∀ p, ProgramIn (Token.ofText file text).1 p → p.isLawful = true →
        (ofTokens file text.utf8ByteSize (Token.ofText file text).1).1
          = p := by
  obtain ⟨hordered, -, body, last, htokens, hlast, hbody⟩ :=
    Token.ofText_complete file text
  rw [htokens] at hdeep hordered ⊢
  have hread {p : Program} (hp : ProgramIn (body ++ [last]) p)
      (hlawful : p.isLawful = true) :=
    (ofTokens_of_programIn file text.utf8ByteSize hlast hbody
      hordered.of_append.1 hp hlawful).resolve_right
      fun ⟨span, hspan⟩ => hdeep _ hspan rfl
  refine ⟨⟨fun h => ?_, fun ⟨p, hp, hlawful⟩ => (hread hp hlawful).2⟩,
    fun p hp hlawful => (hread hp hlawful).1⟩
  exact ⟨_, ofTokens_of_no_error file _ hlast hbody
    hordered.of_append.1 h⟩

/-- A function whose last statement needs no semicolon is derived, and
so is a chain of differences behind an assignment. -/
theorem Program.derives_function_and_chain :
    ∃ p, ProgramIn (Token.ofText 0
        "fn f(a, b) \x7b return a\x7d x = 3 - 2 - f(1, 0)").1 p
      ∧ p.isLawful = true :=
  (accepts_iff_derives 0 _ (by decide +kernel)).1.1 (by decide +kernel)

end Script
