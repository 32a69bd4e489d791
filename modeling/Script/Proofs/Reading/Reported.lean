/-
No place of a text is reported twice. Whatever is wrong with a text, the
reports about the order of its tokens come in the order of the text, each
about a place of its own.

Readers of statements report and go on, so they are not quiet; they begin
and end where every report is about what was passed over. Between the
rounds of a loop there is one more case. Behind a statement that was
skipped, the cursor can be in front of a closing brace or at the end of
the input, with an error about it. No statement begins there.
-/
import Script.Proofs.Reading.Orderly
import Script.Proofs.Reading.Whole
import Script.Proofs.Words.Splits

namespace Script

open Grammar Script.Action

namespace Tree

variable {c d : Cursor} {n : Nat} {inside : Bool}

-- =============================================================== rounds

/-- A cursor in front of the next statement, or where no other begins. -/
def Cursor.Between (c : Cursor) : Prop :=
  c.Clear
    ∨ (c.Tidy ∧ (c.kind = .punct .rightBrace ∨ c.kind = .endOfInput))

namespace Cursor

theorem Between.tidy (h : c.Between) : c.Tidy :=
  h.elim (·.tidy) (·.1)

theorem Between.clear (h : c.Between) (hend : c.kind ≠ .endOfInput)
    (hbrace : c.kind ≠ .punct .rightBrace) : c.Clear :=
  h.resolve_right fun h => h.2.elim hbrace hend

/-- Skipping the statement passes over what was blamed, unless that is
where the statement ends. -/
theorem Tidy.skipStatement (hc : c.Tidy) : c.skipStatement.Between := by
  have hsuffix := Later.nextStatement_suffix c.previous c.rest
  -- the statement may end where it was given up
  have hstay (h : Cursor.nextStatement c.previous c.rest
      = (c.previous, c.rest)) : c.skipStatement = c := by
    unfold Cursor.skipStatement
    rw [h]
  cases hrest : c.rest with
  | nil =>
      rw [hstay (by rw [hrest]; rfl)]
      refine .inr ⟨hc, .inr ?_⟩
      unfold Cursor.kind
      rw [hrest]
  | cons t ts =>
      by_cases hbrace : t.kind = .punct .rightBrace
      · rw [hstay (by rw [hrest]; unfold Cursor.nextStatement; rw [hbrace])]
        refine .inr ⟨hc, .inl ?_⟩
        unfold Cursor.kind
        rw [hrest]
        exact hbrace
      · refine .inl (hc.clear_moved hsuffix ?_ _)
        rw [hrest]
        unfold Cursor.nextStatement
        split
        case h_1 hk => exact (hbrace hk).elim
        case h_2 => exact Nat.lt_succ_self _
        case h_3 =>
            exact Nat.lt_succ_of_le
              (Later.nextStatement_suffix t.span ts).length_le

/-- A statement is read or passed over. -/
theorem Clear.round {p : Parse Stmt} (hp : Orderly False p c) :
    (c.round p).behind.Between := by
  unfold Cursor.round
  cases hrun : p c with
  | ok s d => exact .inl (hp.of_ok hrun).1
  | error e d => exact (hp.of_error hrun).skipStatement

end Cursor

/-- What holds between two rounds holds behind all of them. -/
theorem Rounds.between {round? : Cursor → Option Round} {rs : List Round}
    (hround : ∀ c r, round? c = some r → c.Between → r.behind.Between)
    (h : Rounds round? c rs d) (hc : c.Between) : d.Between := by
  induction h with
  | stop => exact hc
  | next hsome _ ih => exact ih (hround _ _ hsome hc)

namespace Orderly

variable {quiet : Prop}

-- =========================================================== statements

theorem terminator (hc : c.Clear) (behind : String) :
    Orderly quiet (terminator behind) c := by
  refine (eat hc _).bind fun there d _ hd => ?_
  cases there with
  | true => exact pure hd ()
  | false =>
      show Orderly quiet (if d.kind = .punct .rightBrace
        ∨ d.kind = .endOfInput then _ else _) d
      split
      · exact pure hd ()
      · exact expected hd.tidy _

/-- A name that was read before is blamed once it is passed over. -/
theorem parameter (seen : List Ident) (hc : c.Clear) :
    Orderly False (parameter seen) c := by
  refine (identifier hc _).bind fun x d hrun hd => ?_
  have hsame := ((identifier hc _).of_ok hrun).2 trivial
  obtain ⟨t, -, rfl, hover⟩ := identifier_ok hrun
  dsimp only
  split
  case isTrue =>
      have hfree : d.Free t.ident.span :=
        hc.free ((Careful.identifier _).later_ok hrun)
          (Advances.identifier _ _ _ _ hrun) hsame (by rw [hover.here]; rfl)
      exact (blame hd hfree _).bind fun _ _ _ hd => pure hd _
  case isFalse => exact pure hd _

theorem parameters (seen : List Ident) (bound : Nat) (hc : c.Clear) :
    Orderly False (parameters seen bound) c := by
  induction bound generalizing c seen with
  | zero => exact parameter seen hc
  | succ bound ih =>
      refine (parameter seen hc).bind fun seen d _ hd => (eat hd _).bind
        fun there d _ hd => ?_
      cases there with
      | true => exact ih seen hd
      | false => exact pure hd seen

theorem something (n : Nat) (hc : c.Clear) :
    Orderly False (some <$> Tree.expression n) c :=
  (expression n hc).loud.map some

theorem declaration (n : Nat) (start : Span) (hc : c.Clear) :
    Orderly False (declaration n start) c := by
  have behind (name : Ident) (init : Option Expr) {c : Cursor}
      (hc : c.Clear) : Orderly False (do
        Tree.terminator "let declaration"
        return .declare (← Parse.spanFrom start) name init : Parse Stmt) c :=
    (terminator hc _).bind fun _ _ _ hd => (spanFrom hd start).bind
      fun _ _ _ hd => pure hd _
  refine (identifier hc _).bind fun name d _ hd => (eat hd _).bind
    fun there d _ hd => ?_
  cases there with
  | true => exact (something n hd).bind fun init _ _ hd => behind name init hd
  | false => exact behind name none hd

/-- The word is blamed once it is passed over. -/
theorem returnStatement (n : Nat) (inside : Bool) {start : Span}
    (hc : c.Clear) (hstart : c.Free start) :
    Orderly False (returnStatement n inside start) c := by
  have ending (value : Option Expr) {c : Cursor} (hc : c.Clear) :
      Orderly False (do
        Tree.terminator "return statement"
        return .giveBack (← Parse.spanFrom start) value : Parse Stmt) c :=
    (terminator hc _).bind fun _ _ _ hd => (spanFrom hd start).bind
      fun _ _ _ hd => pure hd _
  have behind {c : Cursor} (hc : c.Clear) :
      Orderly False (Tree.returnStatement n true start) c := by
    show Orderly False (if c.kind = .punct .semicolon
      ∨ c.kind = .punct .rightBrace ∨ c.kind = .endOfInput
      then _ else _) c
    split
    · exact ending none hc
    · exact (something n hc).bind fun value _ _ hd => ending value hd
  cases inside with
  | true => exact behind hc
  | false => exact (blame hc hstart _).bind fun _ _ _ hd => behind hd

mutual

theorem statement (n : Nat) (inside : Bool) {c : Cursor} (hc : c.Clear) :
    Orderly False (statement n inside) c := by
  unfold Tree.statement
  refine get_bind ?_
  dsimp only
  split
  case h_1 => exact (skip hc).bind fun _ _ _ hd => declaration n c.here hd
  case h_2 => exact (skip hc).bind fun _ _ _ hd => function n c.here hd
  case h_3 => exact branch n inside hc
  case h_4 =>
      exact (skip hc).bind fun _ _ _ hd => (expression n hd).loud.bind
        fun _ _ _ hd => (block n inside hd).bind fun _ _ _ hd =>
        (spanFrom hd _).bind fun _ _ _ hd => pure hd _
  case h_5 hk =>
      refine (skip hc).bind fun _ d hrun hd => returnStatement n inside hd ?_
      obtain rfl := skip_ok hrun
      exact hc.free_advance (by simp [hk])
  case h_6 =>
      exact (skip hc).bind fun _ _ _ hd => (expression n hd).loud.bind
        fun _ _ _ hd => (terminator hd _).bind fun _ _ _ hd =>
        (spanFrom hd _).bind fun _ _ _ hd => pure hd _
  case h_7 => exact (block n inside hc).bind fun _ _ _ hd => pure hd _
  case h_8 hk =>
      refine (skip hc).bind fun _ d hrun hd => ?_
      obtain rfl := skip_ok hrun
      refine (note hd (hc.free_advance (by simp [hk])) _).bind
        fun _ _ _ hd => (spanFrom hd _).bind fun _ _ _ hd => pure hd _
  case h_9 =>
      exact (expression n hc).loud.bind fun _ _ _ hd =>
        (terminator hd _).bind fun _ _ _ hd => (spanFrom hd _).bind
        fun _ _ _ hd => pure hd _
termination_by n * 4 + 3

theorem function (n : Nat) (start : Span) {c : Cursor} (hc : c.Clear) :
    Orderly False (function n start) c := by
  have behind (name : Ident) (params : List Ident) {c : Cursor}
      (hc : c.Clear) : Orderly False (do
        let _ ← Parse.expect (.punct .rightParen) "')' after parameters"
        let body ← Tree.block n true
        return .function ⟨name, params, body, start.join body.span⟩ :
          Parse Stmt) c :=
    (expect hc.tidy (by simp) _).bind fun _ _ _ hd =>
      (block n true hd).bind fun _ _ _ hd => pure hd _
  unfold Tree.function
  refine (identifier hc _).bind fun name d _ hd =>
    (expect hd.tidy (by simp) _).bind fun _ d _ hd => ?_
  show Orderly False (if d.kind = .punct .rightParen then _ else _) d
  split
  · exact behind name [] hd
  · exact (parameters [] _ hd).bind fun params _ _ hd => behind name params hd
termination_by n * 4 + 2

theorem branch (n : Nat) (inside : Bool) {c : Cursor} (hc : c.Clear) :
    Orderly False (branch n inside) c := by
  have behind (start : Span) (cond : Expr) (body : Block)
      (elsePart : Option Stmt) {c : Cursor} (hc : c.Clear) :
      Orderly False (do
        return .branch (← Parse.spanFrom start) cond body elsePart :
          Parse Stmt) c :=
    (spanFrom hc start).bind fun _ _ _ hd => pure hd _
  unfold Tree.branch
  refine (here hc).bind fun start d _ hd => (skip hd).bind
    fun _ d _ hd => (expression n hd).loud.bind fun cond d _ hd =>
    (block n inside hd).bind fun body d _ hd => (eat hd _).bind
    fun there d _ hd => ?_
  cases there with
  | false => exact behind start cond body none hd
  | true =>
      show Orderly False (if d.kind = .keyword .ifK then _ else _) d
      split
      · cases n with
        | zero =>
            exact (tooDeep hd.tidy).bind
              fun i _ _ hd => behind start cond body i hd
        | succ n =>
            exact ((branch n inside hd).map some).bind
              fun i _ _ hd => behind start cond body i hd
      · exact (((block n inside hd).map .block).map some).bind
          fun i _ _ hd => behind start cond body i hd
termination_by n * 4 + 2

/-- In a block, statements that cannot be read are passed over, up to the
closing brace. -/
theorem block (n : Nat) (inside : Bool) {c : Cursor} (hc : c.Clear) :
    Orderly False (block n inside) c := by
  unfold Tree.block
  cases n with
  | zero => exact tooDeep hc.tidy
  | succ n =>
      refine (expect hc.tidy (by simp) _).bind fun opening d _ hd => ?_
      obtain ⟨rs, e, hrounds, hread⟩ :=
        statementsInBlock_rounds n inside (Nat.le_refl d.rest.length)
      have he : e.Between := by
        refine hrounds.between (fun c r hr hc => ?_) (.inl hd)
        unfold Cursor.roundOfBlock? at hr
        split at hr
        case isTrue => cases hr
        case isFalse hk =>
            obtain ⟨hbrace, hend⟩ := not_or.1 hk
            cases hr
            exact Cursor.Clear.round
              (statement n inside (hc.clear hend hbrace))
      exact bind_ok (p := Parse.tokensLeft) rfl <| bind_ok hread <|
        (expect he.tidy (by simp) _).bind fun _ _ _ hd => pure hd _
termination_by n * 4

end

end Orderly

-- ============================================================== programs

/-- A closing brace that matches nothing is blamed and passed over. -/
theorem Cursor.Between.roundOfProgram {r : Round} (hc : c.Between)
    (h : c.roundOfProgram? = some r) : r.behind.Between := by
  rcases Cursor.roundOfProgram_cases h with ⟨hbrace, rfl⟩
    | ⟨hend, hbrace, rfl⟩
  · refine .inl ((hc.tidy.blame_here _).advance ?_)
    rw [Cursor.kind_blame, hbrace]
    simp
  · exact Cursor.Clear.round
      (Orderly.statement _ false (hc.clear hend hbrace))

/-- What is reported on the way is about the order of tokens. -/
theorem Later.reports_cases (h : Later c d) {r : Diagnostic}
    (hr : r ∈ d.reports) :
    r ∈ c.reports ∨ ∃ f : Fault, r.toReport = f.report := by
  induction h with
  | refl => exact .inl hr
  | moved _ _ _ ih => exact ih hr
  | noted span _ ih =>
      rcases Array.mem_push.1 hr with hr | rfl
      · exact ih hr
      · exact .inr ⟨.emptyStatement, rfl⟩
  | @blamed d f span _ _ ih =>
      unfold Cursor.blame at hr
      split at hr
      · exact ih hr
      · rcases Array.mem_push.1 hr with hr | rfl
        · exact ih hr
        · exact .inr ⟨f, rfl⟩

end Tree

theorem Tree.Fault.topic_report (f : Tree.Fault) :
    f.report.topic = .parse := by
  cases f <;> rfl

theorem Token.Fault.topic_report (f : Token.Fault) :
    f.report.topic = .lex := by
  cases f <;> rfl

/-- What is reported about the characters of a text. -/
theorem Token.ofText_faults (file : FileId) (text : String) :
    ∀ d ∈ (ofText file text).2, ∃ f : Fault, d.toReport = f.report := by
  have hscan := (scanned_scan file text).forall_mem
    (P := fun i => ∀ d, i = .report d → ∃ f : Fault, d.toReport = f.report)
    (fun _ _ h => nomatch h) ?_
  · exact fun d hd => hscan _ (mem_report.1 hd) d rfl
  · intro offset c cs i hi d hd
    rcases mem_items hi with ⟨p, -, rfl⟩ | ⟨k, -, rfl⟩ | ⟨f, -, rfl⟩
    · cases hd
      exact ⟨.unknownEscape p.2, rfl⟩
    · cases hd
    · cases hd
      exact ⟨f, rfl⟩

namespace Program

/-- In front of the tokens of a text nothing is reported yet. -/
theorem start_clear (file : FileId) (text : String) :
    (Tree.Cursor.start file text.utf8ByteSize
      (Token.ofText file text).1).Clear := by
  obtain ⟨hordered, -, body, last, htokens, hlast, hbody⟩ :=
    Token.ofText_complete file text
  rw [htokens] at hordered ⊢
  have hreports : (Tree.Cursor.start file text.utf8ByteSize
      (body ++ [last])).reports = #[] := rfl
  obtain ⟨hrest, hend⟩ :=
    Tree.Cursor.start_eq file text.utf8ByteSize hlast hbody
  generalize Tree.Cursor.start file _ (body ++ [last]) = c at *
  obtain ⟨hbefore, -, hlt⟩ := List.pairwise_append.1 hordered
  refine ⟨⟨hrest ▸ hbefore, fun t ht => ?_, ?_⟩, by simp [hreports]⟩
  · rw [hend]
    exact (hlt t (hrest ▸ ht) last (List.mem_singleton_self last)).2.1
  · rw [hreports]
    exact List.Pairwise.nil

/-- What is reported about the tokens of a text is in their order. -/
theorem ofTokens_reports (file : FileId) (text : String) :
    let reports := (ofTokens file text.utf8ByteSize
      (Token.ofText file text).1).2
    Increasing reports
      ∧ ∀ d ∈ reports, ∃ f : Tree.Fault, d.toReport = f.report := by
  obtain ⟨rounds, d, hrounds, -, hread⟩ := ofTokens_rounds file
    text.utf8ByteSize (Token.ofText file text).1
  have hbetween := hrounds.between (fun _ _ h hc => hc.roundOfProgram h)
    (.inl (start_clear file text))
  have hlater := hrounds.later fun _ _ => .roundOfProgram
  rw [hread]
  refine ⟨hbetween.tidy.reports, fun r hr => ?_⟩
  refine (hlater.reports_cases (Array.mem_toList_iff.1 hr)).resolve_left ?_
  exact Array.not_mem_empty r

/-- What is reported about the order of tokens is what reading them
reports. -/
theorem filter_ofText (file : FileId) (text : String) :
    (ofText file text).2.filter (·.topic = .parse)
      = (ofTokens file text.utf8ByteSize (Token.ofText file text).1).2 := by
  have hfaults :
      (Token.ofText file text).2.filter (·.topic = .parse) = [] := by
    refine List.filter_eq_nil_iff.2 fun d hd => ?_
    obtain ⟨f, hf⟩ := Token.ofText_faults file text d hd
    simp [hf, Token.Fault.topic_report]
  have hreports := List.filter_eq_self.2 fun d hd => by
    obtain ⟨f, hf⟩ := (ofTokens_reports file text).2 d hd
    exact decide_eq_true (hf ▸ f.topic_report : d.topic = .parse)
  rw [ofText_eq]
  dsimp only
  rw [List.filter_append, hfaults, hreports, List.nil_append]

/-- What is wrong with the order of the tokens of a text is reported in
that order, and no two reports are about one place. -/
theorem reports_increasing (file : FileId) (text : String) :
    let reports := (ofText file text).2.filter (·.topic = .parse)
    Increasing reports
      ∧ ∀ d ∈ (ofText file text).2,
        d ∈ reports ↔ ∃ f : Tree.Fault, d.toReport = f.report := by
  obtain ⟨hincreasing, hreports⟩ := ofTokens_reports file text
  dsimp only
  rw [← filter_ofText] at hincreasing hreports
  refine ⟨hincreasing, fun d hd => ⟨hreports d, fun ⟨f, hf⟩ => ?_⟩⟩
  have htopic : d.topic = .parse := by rw [hf, f.topic_report]
  exact List.mem_filter.2 ⟨hd, decide_eq_true htopic⟩

end Program

end Script
