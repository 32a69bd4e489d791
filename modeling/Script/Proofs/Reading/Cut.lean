/-
Programs that are cut off. Of a program without errors, the first tokens
are read. The statements that end within them are what they were, and
behind them there is one more statement at most: round after round both
runs do the same, until there is a round in which the short run is cut
off, and behind that it is at its end. All that it can report there is one
error, about the end of input.

Nearly always the error says what was expected. Where the last token is
the opening parenthesis of a call that has no arguments, and no level of
nesting is left for one, the error is about the nesting.
-/
import Script.Proofs.Reading.Follows
import Script.Proofs.Reading.Whole

namespace Script

namespace Tree

variable {x : Context} {c d : Cursor} {r : Round}

-- ============================================================== rounds

/-- The round of the long run that goes with one of the short run. -/
def Round.within (x : Context) (r : Round) : Round :=
  ⟨r.piece, r.behind.within x⟩

/-- The short run is cut off in a round. -/
structure Round.CutOff (x : Context) (r r' : Round) : Prop where
  cut : ¬ x.Sees r'.behind
  passed : r.behind.lastErrorAt = none →
    r.behind.rest.length < x.tail.length ∧ AtEnd x r'.behind

/-- Where the short run sees a token, a round is the same in both runs, or
the short run is cut off in it. -/
theorem Cursor.round_within (hc : x.Knows c) (h : x.Sees c) (n : Nat)
    (inside : Bool) :
    (c.within x).round (statement n inside)
        = (c.round (statement n inside)).within x
      ∨ Round.CutOff x ((c.within x).round (statement n inside))
        (c.round (statement n inside)) := by
  have hmeets := (Follows.statement (C := True) n inside c.kind).recovering
    |>.meets trivial hc h rfl
  rw [recovering_eq, recovering_eq] at hmeets
  rcases hmeets with hstep | ⟨hcut, hpassed⟩
  · refine .inl ?_
    have hok := EStateM.Result.ok.inj hstep
    unfold Round.within
    rw [← hok.1, ← hok.2]
  · exact .inr ⟨hcut, hpassed rfl⟩

theorem Context.Knows.round (hc : x.Knows c) (n : Nat) (inside : Bool) :
    x.Knows (c.round (statement n inside)).behind := by
  have hbuilds := (Follows.statement (x := x) (C := True) n inside
    .endOfInput).recovering.builds trivial
  obtain ⟨hd, -⟩ := hbuilds.of_ok hc.spanned (recovering_eq _ c)
  exact hc.later (.round n inside c) hd

/-- Without an error so far, and without tokens, a run is at its end. -/
theorem Context.Knows.atEnd (hc : x.Knows c) (hrest : c.rest = [])
    (hlater : Later (c.within x) d) (hclean : d.lastErrorAt = none) :
    AtEnd x c :=
  .of_clean hrest hc.fair
    (Option.or_eq_none_iff.1 (hlater.lastErrorAt_eq_none hclean)).1

/-- A round that gets on behind the tokens of the short run is not one of
those that end within them. -/
theorem Rounds.kept_beyond {rs : List Round}
    (h : Rounds Cursor.roundOfProgram? c rs d)
    (hle : c.rest.length ≤ x.tail.length) :
    rs.filter (x.tail.length ≤ ·.behind.rest.length) = [] := by
  refine List.filter_eq_nil_iff.2 fun r hr hkept => ?_
  have hlt := h.length_lt r hr
  have hge := of_decide_eq_true hkept
  omega

/-- Where the long run ends, so has the short one. -/
theorem Context.Knows.rest_eq_nil (hkinds : ∀ t ∈ x.read,
    t.kind ≠ .endOfInput) (hc : x.Knows c)
    (hkind : (c.within x).kind = .endOfInput) : c.rest = [] := by
  by_contra hne
  rw [Cursor.kind_within (.of_ne_nil hne)] at hkind
  obtain ⟨t, ts, hrest⟩ := List.exists_cons_of_ne_nil hne
  unfold Cursor.kind at hkind
  rw [hrest] at hkind
  exact hkinds t (hc.rest.subset (by simp [hrest])) hkind

/-- A program that is cut off is read up to where it is, with one more
statement at most behind those that end there. -/
theorem Rounds.cut {rs rs' : List Round} {c' d' : Cursor}
    (hkinds : ∀ t ∈ x.read, t.kind ≠ .endOfInput)
    (hlong : Rounds Cursor.roundOfProgram? c rs d)
    (hclean : d.lastErrorAt = none) (hc : c = c'.within x)
    (hknows : x.Knows c') (hshort : Rounds Cursor.roundOfProgram? c' rs' d') :
    ∃ more, rs'.filterMap Round.piece
        = (rs.filter (x.tail.length ≤ ·.behind.rest.length)).filterMap
          Round.piece ++ more
      ∧ more.length ≤ 1 ∧ AtEnd x d' := by
  induction hlong generalizing c' rs' with
  | @stop c hnone =>
      subst hc
      have hrest := hknows.rest_eq_nil hkinds (Rounds.kind (.stop hnone))
      obtain ⟨rfl, rfl⟩ := hshort.eq_of_rest hrest
      exact ⟨[], rfl, Nat.zero_le _, hknows.atEnd hrest .refl hclean⟩
  | @next c d r rs hsome hmore ih =>
      subst hc
      have hlater := (Later.roundOfProgram hsome).trans
        (hmore.later fun _ _ => .roundOfProgram)
      by_cases hrest : c'.rest = []
      · obtain ⟨rfl, rfl⟩ := hshort.eq_of_rest hrest
        refine ⟨[], ?_, Nat.zero_le _, hknows.atEnd hrest hlater hclean⟩
        rw [(Rounds.next hsome hmore).kept_beyond
          (by simp [Cursor.within, hrest])]
        rfl
      · have hsees := Context.Sees.of_ne_nil (x := x) hrest
        rcases Cursor.roundOfProgram_cases hsome
          with ⟨hbrace, rfl⟩ | ⟨hend, hbrace, rfl⟩
        · -- a closing brace that matches nothing is an error
          have hblamed := (hmore.later fun _ _ => .roundOfProgram)
            |>.lastErrorAt_eq_none hclean
          exact absurd ((Later.advance _).lastErrorAt_eq_none hblamed)
            (lastErrorAt_blame _ _ _)
        · rw [Cursor.kind_within hsees] at hend hbrace
          have hround := Cursor.roundOfProgram_eq hend hbrace
          cases hshort with
          | stop hnone => cases hnone.symm.trans hround
          | next hsome' hmore' =>
              cases hsome'.symm.trans hround
              rcases Cursor.round_within hknows hsees maxNesting false
                with hstep | ⟨hcut, hpassed⟩
              · have hbehind := congrArg Round.behind hstep
                have hpiece := congrArg Round.piece hstep
                obtain ⟨more, hmore, hone, hend⟩ := ih hclean hbehind
                  (hknows.round maxNesting false) hmore'
                refine ⟨more, ?_, hone, hend⟩
                rw [List.filter_cons_of_pos (by
                  rw [hbehind]
                  simp [Round.within, Cursor.within])]
                rw [Round.pieces_cons, Round.pieces_cons, hmore, hpiece,
                  List.append_assoc]
                rfl
              · obtain ⟨hlt, hend⟩ := hpassed
                  ((hmore.later fun _ _ => .roundOfProgram)
                    |>.lastErrorAt_eq_none hclean)
                obtain ⟨rfl, rfl⟩ := hmore'.eq_of_rest hend.rest
                rw [List.filter_cons_of_neg (by simpa using hlt),
                  hmore.kept_beyond (Nat.le_of_lt hlt)]
                exact ⟨_, Round.pieces_cons _ [],
                  by simp [Option.length_toList_le], hend⟩

end Tree

open Script.Tree

-- ============================================================== tokens

/-- What stands behind the end of input is not looked at. -/
theorem Tree.Cursor.start_append (file : FileId) (size : Nat)
    {body : List Token} {last : Token} (hlast : last.kind = .endOfInput)
    (hbody : ∀ t ∈ body, t.kind ≠ .endOfInput) (more : List Token) :
    Cursor.start file size (body ++ last :: more)
      = Cursor.start file size (body ++ [last]) := by
  have hnone : body.find? (·.kind = .endOfInput) = none :=
    List.find?_eq_none.2 fun t ht h => hbody t ht (of_decide_eq_true h)
  have hfind (more : List Token) :
      (body ++ last :: more).find? (·.kind = .endOfInput) = some last := by
    rw [List.find?_append, hnone]
    simp [hlast]
  have hrest (more : List Token) :
      (body ++ last :: more).takeWhile (·.kind ≠ .endOfInput) = body := by
    rw [List.takeWhile_append_of_pos
      fun t ht => decide_eq_true (hbody t ht)]
    simp [hlast]
  unfold Cursor.start
  simp only [hfind, hrest]

/-- A cursor without an end of input among its tokens. -/
theorem Tree.Cursor.start_of_body (file : FileId) (size : Nat)
    {body : List Token} (hbody : ∀ t ∈ body, t.kind ≠ .endOfInput) :
    (Cursor.start file size body).rest = body
      ∧ (Cursor.start file size body).endOfInput = .point file size := by
  constructor
  · show body.takeWhile (·.kind ≠ .endOfInput) = body
    have hrest := @List.takeWhile_append_of_pos _ _ body []
      fun t ht => decide_eq_true (hbody t ht)
    simpa using hrest
  · have hnone : body.find? (·.kind = .endOfInput) = none :=
      List.find?_eq_none.2 fun t ht h => hbody t ht (of_decide_eq_true h)
    unfold Cursor.start
    simp only [hnone]

/-- The first tokens of a list go up to its end of input or are all in
front of that. -/
theorem Tree.Cursor.start_take (file : FileId) (size : Nat)
    (tokens : List Token) (k : Nat) :
    (Cursor.start file size (tokens.take k) = .start file size tokens
      ∧ (Cursor.start file size tokens).rest.length ≤ k)
    ∨ ((Cursor.start file size (tokens.take k)).rest = tokens.take k
      ∧ (Cursor.start file size (tokens.take k)).endOfInput
        = .point file size
      ∧ ∃ more, tokens = (Cursor.start file size tokens).rest ++ more
        ∧ k ≤ (Cursor.start file size tokens).rest.length) := by
  have infront {body : List Token} (more : List Token) (hbody : ∀ t ∈ body,
      t.kind ≠ .endOfInput) (hk : k ≤ body.length) :
      (Cursor.start file size ((body ++ more).take k)).rest
          = (body ++ more).take k
        ∧ (Cursor.start file size ((body ++ more).take k)).endOfInput
          = .point file size := by
    rw [List.take_append_of_le_length hk]
    exact start_of_body file size fun t ht => hbody t (List.mem_of_mem_take ht)
  cases hfind : tokens.find? (·.kind = .endOfInput) with
  | none =>
      have hbody : ∀ t ∈ tokens, t.kind ≠ .endOfInput :=
        fun t ht hk => List.find?_eq_none.1 hfind t ht (decide_eq_true hk)
      rw [(start_of_body file size hbody).1]
      rcases Nat.le_total tokens.length k with hle | hge
      · rw [List.take_of_length_le hle]
        exact .inl ⟨rfl, hle⟩
      · obtain ⟨hrest, hend⟩ := infront [] hbody hge
        rw [List.append_nil] at hrest hend
        exact .inr ⟨hrest, hend, [], (List.append_nil _).symm, hge⟩
  | some last =>
      obtain ⟨hlast, body, more, rfl, hbody⟩ :=
        List.find?_eq_some_iff_append.1 hfind
      have hlast : last.kind = .endOfInput := of_decide_eq_true hlast
      have hbody : ∀ t ∈ body, t.kind ≠ .endOfInput :=
        fun t ht hk => by simpa [hk] using hbody t ht
      have hstart := start_append file size hlast hbody
      rw [hstart more, (start_eq file size hlast hbody).1]
      rcases Nat.lt_or_ge body.length k with hlt | hge
      · obtain ⟨j, rfl⟩ := Nat.exists_eq_add_of_lt hlt
        refine .inl ⟨?_, Nat.le_of_lt hlt⟩
        rw [Nat.add_assoc, List.take_length_add_append, List.take_succ_cons,
          hstart]
      · obtain ⟨hrest, hend⟩ := infront (last :: more) hbody hge
        exact .inr ⟨hrest, hend, _, rfl, hge⟩

-- ============================================================ programs

/-- The number of tokens from a cursor to the end of a round. -/
def Tree.Round.reach (c : Cursor) (r : Round) : Nat :=
  c.rest.length - r.behind.rest.length

/-- What is around the first `k` tokens of a list. -/
def Tree.Context.ofTake (c : Cursor) (k : Nat) : Context where
  reports := #[]
  lastErrorAt := none
  read := c.rest.take k
  tail := c.rest.drop k
  endOfInput := some c.endOfInput

/-- What a run over the first tokens reports where it is at its end. -/
theorem Tree.AtEnd.reported {c d : Cursor} {k : Nat}
    {tokens more : List Token} (h : AtEnd (.ofTake c k) d)
    (htokens : tokens = c.rest ++ more)
    (hfront : tokens.take k = c.rest.take k) :
    d.errors = [] ∨ ∃ e, d.errors = [e] ∧ e.span = d.endOfInput
      ∧ (e.code = some "E0301" ∨ e.code = some "E0307"
        ∧ (∃ t, (tokens.take k).getLast? = some t
          ∧ t.kind = .punct .leftParen)
        ∧ ∃ t, tokens[k]? = some t ∧ t.kind = .punct .rightParen) := by
  rcases h.errors with ⟨hnone, -⟩ | ⟨f, hf, hone, -⟩
  · exact .inl hnone
  · refine .inr ⟨_, hone, rfl, ?_⟩
    rcases hf with ⟨what, found, rfl⟩ | ⟨rfl, hopen, t, ht, hclose⟩
    · exact .inl rfl
    · have hnext : c.rest[k]? = some t := List.head?_drop.symm.trans ht
      have hlt := (List.getElem?_eq_some_iff.1 hnext).1
      refine .inr ⟨rfl, hfront ▸ hopen, t, ?_, hclose⟩
      rw [htokens, List.getElem?_append_left hlt, hnext]

/-- Where the first token is, a cursor starts. -/
theorem Tree.Cursor.previous_start {file : FileId} {size : Nat}
    {tokens : List Token} {t : Token} {ts : List Token}
    (h : (Cursor.start file size tokens).rest = t :: ts) :
    (Cursor.start file size tokens).previous
      = .point file t.span.start := by
  have h : tokens.takeWhile (·.kind ≠ .endOfInput) = t :: ts := h
  unfold Cursor.start
  simp only [h]
  rfl

/-- A run over the tokens in front is within the one over all of them. -/
theorem Tree.Cursor.start_within {file : FileId} {size : Nat}
    {front all : List Token} (read : List Token) {tail : List Token}
    (hne : (Cursor.start file size front).rest ≠ [])
    (hrest : (Cursor.start file size all).rest
      = (Cursor.start file size front).rest ++ tail) :
    Cursor.start file size all = (Cursor.start file size front).within
      ⟨#[], none, read, tail,
        some (Cursor.start file size all).endOfInput⟩ := by
  have hprevious : (Cursor.start file size all).previous
      = (Cursor.start file size front).previous := by
    obtain ⟨t, ts, hfront⟩ := List.exists_cons_of_ne_nil hne
    rw [hfront, List.cons_append] at hrest
    rw [previous_start hrest, previous_start hfront]
  show (⟨(Cursor.start file size all).rest, _,
    (Cursor.start file size all).previous, #[], none⟩ : Cursor) = ⟨_, _,
      (Cursor.start file size front).previous, #[] ++ #[], none⟩
  rw [← hprevious]
  exact congrArg (Cursor.mk · _ _ _ _) hrest

/-- All rounds end within all tokens. -/
theorem Tree.Round.filter_reach_of_length_le {c : Cursor} {k : Nat}
    (h : c.rest.length ≤ k) (rounds : List Round) :
    rounds.filter (·.reach c ≤ k) = rounds :=
  List.filter_eq_self.2 fun _ _ =>
    decide_eq_true (Nat.le_trans (Nat.sub_le ..) h)

/-- A round ends behind a token, so none ends within no tokens. -/
theorem Tree.Rounds.filter_reach_eq_nil {c d : Cursor}
    {rounds : List Round} {k : Nat}
    (h : Rounds Cursor.roundOfProgram? c rounds d)
    (hnil : c.rest.take k = []) : rounds.filter (·.reach c ≤ k) = [] := by
  refine List.filter_eq_nil_iff.2 fun r hr hkept => ?_
  have hlt := h.length_lt r hr
  have hle : c.rest.length - r.behind.rest.length ≤ k :=
    of_decide_eq_true hkept
  rcases List.take_eq_nil_iff.1 hnil with rfl | hrest
  · omega
  · simp [hrest] at hlt

/-- The rounds that end within the first tokens are those that leave all
the others. -/
theorem Tree.Round.filter_reach_of_ofTake (c : Cursor) (k : Nat)
    (rounds : List Round) :
    rounds.filter
        ((Context.ofTake c k).tail.length ≤ ·.behind.rest.length)
      = rounds.filter (·.reach c ≤ k) := by
  refine List.filter_congr fun r _ => decide_eq_decide.2 ?_
  show (c.rest.drop k).length ≤ r.behind.rest.length
    ↔ c.rest.length - r.behind.rest.length ≤ k
  rw [List.length_drop]
  omega

/-- The run over the first tokens, in front of the end of input, is within
the one over all of them. -/
theorem Tree.Cursor.start_ofTake {file : FileId} {size k : Nat}
    {tokens : List Token}
    (hrest : (Cursor.start file size (tokens.take k)).rest = tokens.take k)
    (hfront : tokens.take k = (Cursor.start file size tokens).rest.take k)
    (hne : tokens.take k ≠ []) :
    Cursor.start file size tokens
        = (Cursor.start file size (tokens.take k)).within
          (.ofTake (.start file size tokens) k)
      ∧ (Context.ofTake (.start file size tokens) k).Knows
        (.start file size (tokens.take k)) := by
  refine ⟨?_, ?_, Cursor.isFair_start file size _, ?_⟩
  · refine Cursor.start_within _ (by rwa [hrest]) ?_
    rw [hrest, hfront]
    exact (List.take_append_drop ..).symm
  · exact Cursor.spanned_start (fun _ _ => nofun) nofun fun _ _ => nofun
  · exact hrest.trans hfront ▸ List.suffix_refl _

/-- Of a program without errors, the first tokens make the statements that
end within them, and one more at most. There is one error at most then, at
the end of input. It says what was expected there; unless the tokens end
with an opening parenthesis that the next token closes, where it can be
about the nesting. -/
theorem Program.reads_first_tokens (file : FileId) (size : Nat)
    (tokens : List Token)
    (h : hasErrors (ofTokens file size tokens).2 = false) (k : Nat) :
    ∃ rounds d more,
      let c := Cursor.start file size tokens
      let firsts := ofTokens file size (tokens.take k)
      let errors := firsts.2.filter (·.isError)
      Rounds Cursor.roundOfProgram? c rounds d
        ∧ (ofTokens file size tokens).1.statements
          = rounds.filterMap Round.piece
        ∧ firsts.1.statements
          = (rounds.filter (·.reach c ≤ k)).filterMap Round.piece ++ more
        ∧ more.length ≤ 1
        ∧ (errors = [] ∨ ∃ e, errors = [e] ∧ e.span = .point file size
          ∧ (e.code = some "E0301" ∨ e.code = some "E0307"
            ∧ (∃ t, (tokens.take k).getLast? = some t
              ∧ t.kind = .punct .leftParen)
            ∧ ∃ t, tokens[k]? = some t ∧ t.kind = .punct .rightParen)) := by
  obtain ⟨rounds, d, hrounds, hd, hread⟩ := ofTokens_rounds file size tokens
  rw [hread] at h ⊢
  have hlater := hrounds.later fun _ _ => .roundOfProgram
  have hclean := (hlater.isFair (Cursor.isFair_start file size tokens)).2 h
  rcases Cursor.start_take file size tokens k
    with ⟨hsame, hlength⟩ | ⟨hrest, hend, behind, htokens, hk⟩
  · -- all tokens up to the end of input are read
    have hall : ofTokens file size (tokens.take k)
        = ofTokens file size tokens := by
      unfold ofTokens
      rw [hsame]
    rw [hall, hread]
    refine ⟨rounds, d, [], hrounds, rfl, ?_, Nat.zero_le _, .inl ?_⟩
    · rw [Round.filter_reach_of_length_le hlength, List.append_nil]
    · exact List.filter_eq_nil_iff.2 (List.any_eq_false.1 h)
  · have hfront : tokens.take k
        = (Cursor.start file size tokens).rest.take k := by
      have hfront := congrArg (List.take k) htokens
      rwa [List.take_append_of_le_length hk] at hfront
    obtain ⟨rounds', d', hrounds', -, hread'⟩ :=
      ofTokens_rounds file size (tokens.take k)
    rw [hread']
    by_cases hne : tokens.take k = []
    · obtain ⟨rfl, rfl⟩ := hrounds'.eq_of_rest (hrest.trans hne)
      refine ⟨rounds, d, [], hrounds, rfl, ?_, Nat.zero_le _, .inl rfl⟩
      rw [hrounds.filter_reach_eq_nil (hfront.symm.trans hne)]
      rfl
    · obtain ⟨hwithin, hknows⟩ := Cursor.start_ofTake hrest hfront hne
      have hkinds : ∀ t ∈ (Cursor.start file size tokens).rest.take k,
          t.kind ≠ .endOfInput := fun t ht => of_decide_eq_true
        (List.all_eq_true.1 List.all_takeWhile t (List.mem_of_mem_take ht))
      obtain ⟨more, hstatements, hone, hatEnd⟩ :=
        hrounds.cut hkinds hclean hwithin hknows hrounds'
      rw [Round.filter_reach_of_ofTake] at hstatements
      refine ⟨rounds, d, more, hrounds, rfl, hstatements, hone, ?_⟩
      have hpoint := (hrounds'.later fun _ _ => .roundOfProgram)
        |>.endOfInput_eq.trans hend
      exact hpoint ▸ hatEnd.reported htokens hfront

/-- A loop that is cut off in a call, behind a statement that is not. -/
theorem Program.reads_first_tokens_of_loop :
    let tokens := (Token.ofText 0 "print 1; while x \x7b f(2); \x7d g();").1
    hasErrors (ofTokens 0 32 tokens).2 = false
      ∧ ∃ (rounds : List Round) (more : List Stmt),
        (ofTokens 0 32 (tokens.take 8)).1.statements
            = rounds.filterMap Round.piece ++ more
          ∧ (∀ r ∈ rounds, r.reach (.start 0 32 tokens) ≤ 8)
          ∧ more.length ≤ 1 := by
  have hclean : hasErrors (ofTokens 0 32 (Token.ofText 0
      "print 1; while x \x7b f(2); \x7d g();").1).2 = false := by
    decide +kernel
  obtain ⟨rounds, d, more, -, -, hread, hone, -⟩ :=
    reads_first_tokens 0 32 _ hclean 8
  exact ⟨hclean, _, more, hread,
    fun r hr => of_decide_eq_true (List.mem_filter.1 hr).2, hone⟩

/-- A row of tokens of one punctuation mark. -/
def Token.row (p : Punct) (start n : Nat) : List Token :=
  (List.range n).map fun i => ⟨.punct p, p.text, ⟨0, start + i, 1⟩⟩

/-- A call without arguments, so deep in parentheses that there is no
level of nesting left for one. -/
def Token.deepCall : List Token :=
  row .leftParen 0 254 ++ ⟨.identifier, "f", ⟨0, 254, 1⟩⟩
    :: row .leftParen 255 1 ++ row .rightParen 256 255

/-- The error at the end of input can be about the nesting. -/
theorem Program.first_tokens_blame_nesting :
    ¬ ∀ file size tokens, hasErrors (ofTokens file size tokens).2 = false →
      ∀ k, let errors :=
        (ofTokens file size (tokens.take k)).2.filter (·.isError)
      errors = [] ∨ ∃ e, errors = [e] ∧ e.code = some "E0301"
        ∧ e.span = .point file size := by
  intro h
  have hdeep : (ofTokens 0 511 (Token.deepCall.take 256)).2
      = [Fault.tooDeep.report.at (.point 0 511)] := by
    decide +kernel
  have herrors := h 0 511 Token.deepCall (by decide +kernel) 256
  rw [hdeep] at herrors
  rcases herrors with hnone | ⟨e, hone, hcode, -⟩
  · exact absurd hnone (List.cons_ne_nil _ _)
  · cases hone
    exact absurd hcode (by decide)

end Script
