/-
Programs one behind the other. Where the first one ends with a semicolon,
reading both is reading the one and then the other: statements and reports
are those of the first and then those of the second. So an error stays
with its statement, whatever that is; it takes no other statement away,
and no error is added or dropped because of it.

The first program is read in a run within a longer one (`Rounds.settle`).
The second is read with reports in front of it, which are about other
places (`Rounds.within`). And it begins behind a token of the first one,
which only matters as long as none of its own has been read
(`Cursor.roundOfProgram_after`).
-/
import Script.Proofs.Reading.Settles

namespace Script

namespace Tree

open Script.Action

variable {α β : Type} {x : Context} {c d : Cursor} {s : Span}

-- ============================================== with reports in front

/-- A run that sees what the long one does is never cut off. -/
theorem Rounds.within {rs : List Round} (hsees : ∀ c, x.Sees c)
    (h : Rounds Cursor.roundOfProgram? c rs d) (hknows : x.Knows c) :
    Rounds Cursor.roundOfProgram? (c.within x) (rs.map (Round.within x))
      (d.within x) := by
  induction h with
  | @stop c hnone =>
      have hkind := Rounds.kind (.stop hnone)
      rw [← Cursor.kind_within (hsees c)] at hkind
      exact .stop (if_pos hkind)
  | @next c d r rs hsome hmore ih =>
      have hkind := Cursor.kind_within (hsees c)
      rcases Cursor.roundOfProgram_cases hsome
        with ⟨hbrace, rfl⟩ | ⟨hend, hbrace, rfl⟩
      · have hround : (c.within x).roundOfProgram? = some (Round.within x
            ⟨none, (c.blame .unmatchedBrace c.here).advance⟩) := by
          have hblame := Cursor.blame_within c .unmatchedBrace
            hknows.spanned.here
          unfold Cursor.roundOfProgram?
          rw [if_neg (by simp [hkind, hbrace]), if_pos (hkind.trans hbrace),
            Cursor.here_within (hsees c), hblame,
            Cursor.advance_within (hsees _)]
          rfl
        have hspanned := hknows.spanned.blame .unmatchedBrace
          hknows.spanned.here
        exact .next hround (ih (hknows.later (.roundOfProgram hsome)
          hspanned.advance))
      · have hround := Cursor.roundOfProgram_eq (hkind ▸ hend)
          (hkind ▸ hbrace)
        have hstep := (Cursor.round_within hknows (hsees c) maxNesting
          false).resolve_right fun hoff => hoff.cut (hsees _)
        rw [hstep] at hround
        exact .next hround (ih (hknows.round _ _))

-- ====================================================== behind a token

/-- The cursor behind another token. -/
def Cursor.after (s : Span) (c : Cursor) : Cursor :=
  { c with previous := s }

/-- Reading that does not depend on the token in front, or gives up
without taking one. -/
def Restarts (p : Parse α) (s : Span) (c : Cursor) : Prop :=
  p (c.after s) = p c ∨ ∃ d, p c = .error () d
    ∧ p (c.after s) = .error () (d.after s) ∧ d.rest = c.rest

theorem Cursor.advance_after (h : c.rest ≠ []) :
    (c.after s).advance = c.advance := by
  obtain ⟨t, ts, hrest⟩ := List.exists_cons_of_ne_nil h
  unfold advance after
  rw [hrest]

theorem Cursor.blame_after (c : Cursor) (f : Fault) (t : Span) :
    (c.after s).blame f t = (c.blame f t).after s := by
  unfold blame after
  split
  · rfl
  · rfl

namespace Restarts

variable {p : Parse α} {f : α → Parse β}

theorem bind (h : Restarts p s c) : Restarts (p >>= f) s c := by
  rcases h with h | ⟨d, hrun, hafter, hrest⟩
  · exact .inl (bind_congr_left h f)
  · exact .inr ⟨d, bind_of_error hrun f, bind_of_error hafter f, hrest⟩

theorem expected (what : String) :
    Restarts (Parse.expected what : Parse α) s c := by
  refine .inr ⟨_, rfl, ?_, rest_blame ..⟩
  rw [← Cursor.blame_after]
  rfl

theorem skip_bind {f : Unit → Parse β} (h : c.rest ≠ []) :
    Restarts (Parse.skip >>= f) s c := by
  refine .inl ?_
  rw [Tree.skip_bind, Tree.skip_bind, Cursor.advance_after h]

theorem eat_bind {f : Bool → Parse β} {k : Token.Kind} (h : c.rest ≠ [])
    (hf : Restarts (f false) s c) : Restarts (Parse.eat k >>= f) s c := by
  by_cases hk : c.kind = k
  · have hafter : Parse.eat k (c.after s) = Parse.eat k c := by
      have hk' : (c.after s).kind = k := hk
      rw [eat_eq hk, eat_eq hk', Cursor.advance_after h]
    exact .inl (bind_congr_left hafter f)
  · have hk' : (c.after s).kind ≠ k := hk
    unfold Restarts at hf ⊢
    rwa [bind_eq (eat_eq_false hk), bind_eq (eat_eq_false hk')]

theorem expect {k : Token.Kind} (h : c.rest ≠ []) (what : String) :
    Restarts (Parse.expect k what) s c := by
  show Restarts (Parse.eat k >>= fun there => if there then pure c.here
    else Parse.expected what) s c
  exact eat_bind h (expected what)

theorem get_bind {f : Cursor → Parse β} (h : Restarts (f c) s c)
    (hsame : f (c.after s) = f c) : Restarts (get >>= f) s c := by
  unfold Restarts at h ⊢
  rwa [Tree.get_bind, Tree.get_bind, hsame]

theorem primary (h : c.rest ≠ []) (n : Nat) :
    Restarts (primary n) s c := by
  unfold Tree.primary
  refine get_bind ?_ rfl
  cases c.atom? with
  | some e => exact skip_bind h
  | none => exact eat_bind h (expected _)

theorem unary (h : c.rest ≠ []) (n : Nat) : Restarts (unary n) s c := by
  unfold Tree.unary
  refine get_bind ?_ rfl
  cases unaryOperator? c.kind with
  | some op => exact skip_bind h
  | none =>
      unfold callChain
      exact (primary h n).bind

theorem expression (h : c.rest ≠ []) (n : Nat) :
    Restarts (expression (n + 1)) s c := by
  unfold Tree.expression assignment binary
  exact (unary h n).bind.bind

theorem block (h : c.rest ≠ []) (n : Nat) (inside : Bool) :
    Restarts (block (n + 1) inside) s c := by
  unfold Tree.block
  exact (expect h _).bind

/-- Where there is a level of nesting, a statement begins with a token. -/
theorem statement (h : c.rest ≠ []) {n : Nat} (hn : 0 < n)
    (inside : Bool) : Restarts (statement n inside) s c := by
  obtain ⟨n, rfl⟩ := Nat.exists_eq_add_of_le' hn
  have hbranch : Restarts (branch (n + 1) inside) s c := by
    unfold Restarts
    rw [branch_eq, branch_eq, Cursor.advance_after h]
    exact .inl rfl
  unfold Tree.statement
  refine get_bind ?_ rfl
  dsimp only
  split
  case h_1 | h_2 | h_4 | h_5 | h_6 | h_8 => exact skip_bind h
  case h_3 => exact hbranch
  case h_7 => exact (block h n inside).bind
  case h_9 => exact (expression h n).bind

end Restarts

theorem Cursor.skipStatement_after (h : c.rest ≠ [])
    (hbrace : c.kind ≠ .punct .rightBrace) :
    (c.after s).skipStatement = c.skipStatement := by
  obtain ⟨t, ts, hrest⟩ := List.exists_cons_of_ne_nil h
  have ht : t.kind ≠ .punct .rightBrace := by
    unfold kind at hbrace
    rwa [hrest] at hbrace
  unfold skipStatement after nextStatement
  simp only [hrest]
  split
  case h_1 hk => exact absurd hk ht
  case h_2 => rfl
  case h_3 => rfl

theorem Cursor.round_after (h : c.rest ≠ [])
    (hbrace : c.kind ≠ .punct .rightBrace) :
    (c.after s).round (statement maxNesting false)
      = c.round (statement maxNesting false) := by
  unfold round
  rcases Restarts.statement (s := s) h (by decide : 0 < maxNesting) false
    with hsame | ⟨d, hrun, hafter, hd⟩
  · rw [hsame]
  · have hskip : (d.after s).skipStatement = d.skipStatement := by
      refine skipStatement_after (hd ▸ h) ?_
      unfold kind at hbrace ⊢
      rwa [hd]
    rw [hrun, hafter]
    exact congrArg (Round.mk none) hskip

/-- In front of a token, a round is the same behind whatever token. -/
theorem Cursor.roundOfProgram_after (h : c.rest ≠ []) :
    (c.after s).roundOfProgram? = c.roundOfProgram? := by
  unfold Cursor.roundOfProgram?
  show (if c.kind = .endOfInput then none
    else if c.kind = .punct .rightBrace then _ else _) = _
  split
  case isTrue => rfl
  case isFalse =>
      split
      case isTrue =>
          have hblame := Cursor.blame_after (s := s) c .unmatchedBrace c.here
          have hadvance := Cursor.advance_after (s := s)
            (c := c.blame .unmatchedBrace c.here) (rest_blame c .. ▸ h)
          show some (Round.mk none ((c.after s).blame _ c.here).advance) = _
          rw [hblame, hadvance]
      case isFalse hbrace => exact congrArg some (round_after h hbrace)

/-- A cursor goes through the same rounds behind another token. -/
theorem Rounds.after {rs : List Round}
    (h : Rounds Cursor.roundOfProgram? c rs d) (s : Span) :
    ∃ e, Rounds Cursor.roundOfProgram? (c.after s) rs e
      ∧ e.reports = d.reports := by
  cases h with
  | stop hnone =>
      have hkind : c.kind = .endOfInput := Rounds.kind (.stop hnone)
      exact ⟨c.after s, .stop (if_pos hkind), rfl⟩
  | next hsome hmore =>
      refine ⟨d, .next ?_ hmore, rfl⟩
      rwa [Cursor.roundOfProgram_after]
      intro hrest
      cases (Rounds.next hsome hmore).eq_of_rest hrest with
      | intro hnil => cases hnil

/-- Where the end of input is not among the first tokens, the others end
as they do. -/
theorem Cursor.start_behind (file : FileId) (size : Nat)
    {u : List Token} (hu : ∀ t ∈ u, t.kind ≠ .endOfInput) (b : List Token) :
    (Cursor.start file size (u ++ b)).rest
        = u ++ (Cursor.start file size b).rest
      ∧ (Cursor.start file size (u ++ b)).endOfInput
        = (Cursor.start file size b).endOfInput := by
  constructor
  · exact List.takeWhile_append_of_pos fun t ht => decide_eq_true (hu t ht)
  · have hnone : u.find? (·.kind = .endOfInput) = none :=
      List.find?_eq_none.2 fun t ht h => hu t ht (of_decide_eq_true h)
    unfold Cursor.start
    simp only [List.find?_append, hnone, Option.none_or]

/-- What there is around a run over the tokens `u` in front of those of a
cursor. -/
def Context.inFront (u : List Token) (c : Cursor) : Context where
  reports := #[]
  lastErrorAt := none
  read := u
  tail := c.rest
  endOfInput := some c.endOfInput

/-- What there is around a run over the tokens of a cursor behind the
reports of another one. -/
def Context.behind (d c : Cursor) : Context where
  reports := d.reports
  lastErrorAt := d.lastErrorAt
  read := c.rest
  tail := []
  endOfInput := none

variable {file : FileId} {size : Nat} {u b : List Token} {rs : List Round}

/-- The run over the tokens in front, and what comes behind it. -/
theorem Rounds.inFront (hu : Plain u)
    (h : Rounds Cursor.roundOfProgram? (.start file size u) rs d)
    (hlost : ¬ Lost u d) :
    Settled u d ∧ ∀ {rs' e},
      Rounds Cursor.roundOfProgram?
        (d.within (.inFront u (.start file size b))) rs' e →
      Rounds Cursor.roundOfProgram? (.start file size (u ++ b))
        (rs.map (Round.within (.inFront u (.start file size b))) ++ rs')
        e := by
  have hends : ∀ t ∈ u, t.kind ≠ .endOfInput := fun t ht => (hu.kinds t ht).1
  obtain ⟨hrest, -⟩ := Cursor.start_of_body file size hends
  obtain ⟨hall, hend⟩ := Cursor.start_behind file size hends b
  have hne : (Cursor.start file size u).rest ≠ [] := by
    rw [hrest]
    rintro rfl
    obtain ⟨t, ht, -⟩ := hu.last
    cases ht
  have hwithin := Cursor.start_within u hne
    (hall.trans (congrArg (· ++ _) hrest.symm))
  rw [hend] at hwithin
  rw [hwithin]
  have hsuffix : (Cursor.start file size u).rest <:+ u :=
    hrest.symm ▸ List.suffix_refl u
  have hspanned : (Cursor.start file size u).Spanned
      (Context.inFront u (.start file size b)).Free :=
    Cursor.spanned_start (fun _ _ => nofun) nofun fun _ _ => nofun
  exact h.settle hu (fun _ => nofun)
    ⟨hspanned, Cursor.isFair_start file size u, hsuffix⟩
    ⟨hsuffix, nofun, fun _ _ _ => nofun⟩ hlost

/-- The run over the tokens behind. -/
theorem Rounds.behind {c : Cursor} (hd : Settled u c) (hc : c.rest = [])
    (hbefore : ∀ t ∈ u, ∀ s ∈ b ++ [Token.endOfInput file size],
      t.span.start < s.span.start)
    (h : Rounds Cursor.roundOfProgram? (.start file size b) rs d) :
    ∃ e, Rounds Cursor.roundOfProgram?
        (c.within (.inFront u (.start file size b)))
        (rs.map (Round.within (.behind c (.start file size b)))) e
      ∧ e.reports = c.reports ++ d.reports := by
  have hfree : ∀ s ∈ b ++ [Token.endOfInput file size],
      (Context.behind c (.start file size b)).Free s.span := by
    intro s hs hlast
    obtain ⟨t, ht, hsame⟩ := hd.blamed _ hlast
    exact absurd hsame (Nat.ne_of_lt (hbefore t ht s hs))
  have hspanned : (Cursor.start file size b).Spanned
      (Context.behind c (.start file size b)).Free :=
    Cursor.spanned_start (fun t ht => hfree t (List.mem_append_left _ ht))
      (hfree _ (List.mem_append_right _ (List.mem_singleton_self _)))
      fun _ hs => hs
  obtain ⟨e, hafter, hreports⟩ := (h.within (fun _ _ => ⟨rfl, rfl⟩)
    ⟨hspanned, Cursor.isFair_start file size b, List.suffix_refl _⟩).after
      c.previous
  refine ⟨e, ?_, hreports⟩
  have hsame : c.within (.inFront u (.start file size b))
      = ((Cursor.start file size b).within
        (.behind c (.start file size b))).after c.previous := by
    unfold Cursor.within Cursor.after Context.inFront Context.behind
    simp [hc, Cursor.start]
  rwa [hsame]

end Tree

open Script.Tree

-- ============================================================ programs

/-- Tokens in order, as those of a text are, are at different places. -/
theorem Grammar.Ordered.nodup {ts : List Token} (h : Ordered ts) :
    (ts.map (·.span.start)).Nodup :=
  List.pairwise_map.2 (h.imp fun h => Nat.ne_of_lt h.2.1)

/-- The first of two programs ends with a semicolon and has no braces, but
may otherwise be anything. Then what is read of both is what is read of
the one and then of the other, and so are the reports. The parentheses of
the first one have to be well nested, or it must not be nested too deeply.
That shows in its reports, unless two of its tokens are at one place, which
those of a text never are: there the second of two errors is dropped. -/
theorem Program.recovers_at_semicolon (file : FileId) (size : Nat)
    {u b : List Token}
    (hkinds : ∀ t ∈ u, t.kind ≠ .endOfInput ∧ t.kind ≠ .punct .leftBrace
      ∧ t.kind ≠ .punct .rightBrace)
    (hlast : ∃ t, u.getLast? = some t ∧ t.kind = .punct .semicolon)
    (hbefore : ∀ t ∈ u, ∀ s ∈ b ++ [Token.endOfInput file size],
      t.span.start < s.span.start)
    (hnesting : Token.wellNested 0 u = true
      ∨ ((u.map (·.span.start)).Nodup
        ∧ ∀ d ∈ (ofTokens file size u).2, d.code ≠ some "E0307")) :
    (ofTokens file size (u ++ b)).1.statements
        = (ofTokens file size u).1.statements
          ++ (ofTokens file size b).1.statements
      ∧ (ofTokens file size (u ++ b)).2
        = (ofTokens file size u).2 ++ (ofTokens file size b).2 := by
  have hu : Plain u :=
    ⟨hkinds, hlast, fun hn => (hnesting.resolve_left (by simp [hn])).1⟩
  obtain ⟨rs, d, hrounds, hd, hread⟩ := ofTokens_rounds file size u
  obtain ⟨rs', d', hrounds', -, hread'⟩ := ofTokens_rounds file size b
  obtain ⟨rs'', d'', hrounds'', -, hread''⟩ :=
    ofTokens_rounds file size (u ++ b)
  rw [hread] at hnesting
  rw [hread, hread', hread'']
  have hlost : ¬ Lost u d := fun ⟨hn, span, hdeep⟩ =>
    (hnesting.resolve_left (by simp [hn])).2 _
      (Array.mem_toList_iff.2 hdeep) rfl
  obtain ⟨hsettled, hgo⟩ := hrounds.inFront (b := b) hu hlost
  obtain ⟨e, hbehind, hreports⟩ := hrounds'.behind hsettled hd hbefore
  obtain ⟨rfl, rfl⟩ := hrounds''.unique (hgo hbehind)
  constructor
  · show List.filterMap _ (_ ++ _) = _ ++ _
    rw [List.filterMap_append, List.filterMap_map, List.filterMap_map]
    rfl
  · show d''.reports.toList = _ ++ _
    rw [hreports, Array.toList_append]

/-- Two statements with an error each, the first one with a parenthesis
that is not closed, and a third one behind them. -/
theorem Program.recovers_at_semicolon_in_group :
    let tokens := (Token.ofText 0 "print (1; let x 2; print 3;").1
    let u := tokens.take 8
    let b := tokens.drop 8
    Token.wellNested 0 u = false
      ∧ (ofTokens 0 27 (u ++ b)).1.statements
        = (ofTokens 0 27 u).1.statements ++ (ofTokens 0 27 b).1.statements
      ∧ (ofTokens 0 27 (u ++ b)).2
        = (ofTokens 0 27 u).2 ++ (ofTokens 0 27 b).2 := by
  intro tokens u b
  have hlast : u.getLast?.map (·.kind) = some (.punct .semicolon) := by
    decide +kernel
  have hordered : Grammar.Ordered (u ++ b) := by
    rw [List.take_append_drop]
    exact (Token.ofText_complete 0 _).ordered
  exact ⟨by decide +kernel, recovers_at_semicolon 0 27
    (by decide +kernel) (Option.map_eq_some_iff.1 hlast)
    (by decide +kernel) (.inr ⟨hordered.of_append.1.nodup,
      by decide +kernel⟩)⟩

/-- A statement that is nested too deeply, with all of its tokens at one place:
behind the report about `return`, the one about the nesting is dropped. -/
def Token.crowded : List Token :=
  ⟨.keyword .returnK, "return", ⟨0, 0, 1⟩⟩
    :: List.replicate 300 ⟨.punct .leftParen, "(", ⟨0, 0, 1⟩⟩
    ++ [⟨.punct .semicolon, ";", ⟨0, 0, 1⟩⟩]

/-- Tokens at one place have to be excluded: behind those of `crowded`, whose
parentheses are skipped to their end, another statement is swallowed. -/
theorem Program.swallows_behind_crowded :
    ¬ ∀ (file : FileId) (size : Nat) (u b : List Token),
      (∀ t ∈ u, t.kind ≠ .endOfInput ∧ t.kind ≠ .punct .leftBrace
        ∧ t.kind ≠ .punct .rightBrace) →
      (∃ t, u.getLast? = some t ∧ t.kind = .punct .semicolon) →
      (∀ t ∈ u, ∀ s ∈ b ++ [Token.endOfInput file size],
        t.span.start < s.span.start) →
      (Token.wellNested 0 u = true
        ∨ ∀ d ∈ (ofTokens file size u).2, d.code ≠ some "E0307") →
      (ofTokens file size (u ++ b)).1.statements
          = (ofTokens file size u).1.statements
            ++ (ofTokens file size b).1.statements
        ∧ (ofTokens file size (u ++ b)).2
          = (ofTokens file size u).2 ++ (ofTokens file size b).2 := by
  intro h
  let b : List Token := [⟨.punct .semicolon, ";", ⟨0, 1, 1⟩⟩]
  have hreports : (ofTokens 0 2 Token.crowded).2
      = [Fault.returnOutside.report.at ⟨0, 0, 1⟩] := by decide +kernel
  obtain ⟨hstatements, -⟩ := h 0 2 Token.crowded b (by decide +kernel)
    ⟨⟨.punct .semicolon, ";", ⟨0, 0, 1⟩⟩, by decide +kernel, rfl⟩
    (by decide +kernel) (.inr (by rw [hreports]; decide +kernel))
  have hnone : (ofTokens 0 2 (Token.crowded ++ b)).1.statements.length = 0 := by
    decide +kernel
  have hsome : (ofTokens 0 2 b).1.statements.length = 1 := by decide +kernel
  have hlength := congrArg List.length hstatements
  rw [List.length_append, hnone, hsome] at hlength
  exact Nat.zero_ne_add_one _ hlength

end Script
