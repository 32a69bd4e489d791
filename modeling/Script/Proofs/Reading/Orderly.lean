/-
Reading reports in order. The tokens of a text stand one behind the other,
and while a reading goes on, every report made so far is about something
that was passed over. Where it gives up, there can be one about the next
token as well. That one is the last error, so another error at the same
place is dropped.

Most errors are about the next token. The others are about what was just
passed over: a name, a word, or the target of an assignment, whose value
was read since. No report was made in between, because a reader of
expressions that goes on reports nothing.
-/
import Script.Proofs.Reading.Rounds

namespace Script

open Grammar Script.Action

/-- Reports that stand one behind the other. -/
def Increasing (ds : List Diagnostic) : Prop :=
  ds.Pairwise fun d e => d.span.start < e.span.start

theorem Increasing.concat {ds : List Diagnostic} (h : Increasing ds)
    {e : Diagnostic} (he : ∀ d ∈ ds, d.span.start < e.span.start) :
    Increasing (ds ++ [e]) := by
  refine List.pairwise_append.2 ⟨h, List.pairwise_singleton .., ?_⟩
  intro d hd e' he'
  rw [List.mem_singleton.1 he']
  exact he d hd

namespace Tree

-- ============================================================== cursors

/-- The tokens left and the end of input behind them are in order, and so
are the reports. -/
structure Cursor.Ranked (c : Cursor) : Prop where
  rest : Ordered c.rest
  endOfInput : ∀ t ∈ c.rest, t.span.start < c.endOfInput.start
  reports : Increasing c.reports.toList

/-- Every report is about what was passed over. -/
structure Cursor.Clear (c : Cursor) : Prop extends c.Ranked where
  behind : ∀ r ∈ c.reports, r.span.start < c.here.start

/-- Every report is about what was passed over, or it is the last error,
and about the next token. -/
structure Cursor.Tidy (c : Cursor) : Prop extends c.Ranked where
  behind : ∀ r ∈ c.reports, r.span.start < c.here.start
    ∨ (r.span.start = c.here.start ∧ c.lastErrorAt = some c.here.start)

/-- A place behind all reports that was passed over. -/
structure Cursor.Free (c : Cursor) (s : Span) : Prop where
  behind : ∀ r ∈ c.reports, r.span.start < s.start
  ahead : s.start < c.here.start

variable {α β : Type} {c d : Cursor} {s : Span} {ts : List Token}
  {quiet : Prop}

namespace Cursor

theorem Clear.tidy (hc : c.Clear) : c.Tidy :=
  ⟨hc.toRanked, fun r hr => .inl (hc.behind r hr)⟩

/-- Where tokens are passed over, the next one is further on. -/
theorem Ranked.here_lt (hc : c.Ranked) (hlater : Later c d)
    (hlt : d.rest.length < c.rest.length) : c.here.start < d.here.start := by
  obtain ⟨t, seg, hrest⟩ := hlater.exists_passed hlt
  have hhere : c.here = t.span := by
    unfold here
    rw [hrest]
  rw [hhere]
  unfold here
  split
  case h_1 u us hd =>
      have hordered := hc.rest
      rw [hrest] at hordered
      exact (List.rel_of_pairwise_cons hordered (by simp [hd])).2.1
  case h_2 =>
      rw [hlater.endOfInput_eq]
      exact hc.endOfInput t (by simp [hrest])

theorem Ranked.moved (hc : c.Ranked) (h : ts <:+ c.rest) (previous : Span) :
    { c with rest := ts, previous }.Ranked where
  rest := List.Pairwise.sublist h.sublist hc.rest
  endOfInput := fun t ht => hc.endOfInput t (h.subset ht)
  reports := hc.reports

/-- Behind the next token, it is passed over with all that was reported
about it. -/
theorem Tidy.clear_moved (hc : c.Tidy) (h : ts <:+ c.rest)
    (hlt : ts.length < c.rest.length) (previous : Span) :
    { c with rest := ts, previous }.Clear := by
  refine ⟨hc.toRanked.moved h previous, fun r hr => ?_⟩
  have hhere := hc.here_lt (.moved previous h .refl) hlt
  rcases hc.behind r hr with hbehind | ⟨hsame, -⟩
  · exact Nat.lt_trans hbehind hhere
  · exact hsame ▸ hhere

theorem Tidy.moved (hc : c.Tidy) (h : ts <:+ c.rest) (previous : Span) :
    { c with rest := ts, previous }.Tidy := by
  rcases Nat.lt_or_ge ts.length c.rest.length with hlt | hge
  · exact (hc.clear_moved h hlt previous).tidy
  · obtain rfl := h.eq_of_length_le hge
    exact ⟨hc.toRanked.moved h previous, hc.behind⟩

theorem Tidy.advance (hc : c.Tidy) (hk : c.kind ≠ .endOfInput) :
    c.advance.Clear := by
  obtain ⟨t, us, hrest, -⟩ := exists_of_kind rfl hk
  unfold Cursor.advance
  rw [hrest]
  exact hc.clear_moved (hrest ▸ List.suffix_cons t us) (by simp [hrest]) _

theorem Clear.advance (hc : c.Clear) : c.advance.Clear := by
  unfold Cursor.advance
  split
  case h_1 t us hrest =>
      exact hc.tidy.clear_moved (hrest ▸ List.suffix_cons t us)
        (by simp [hrest]) _
  case h_2 => exact hc

-- ============================================================== reports

/-- An error about the next token, unless that one was reported before. -/
theorem Tidy.blame_here (hc : c.Tidy) (f : Fault) :
    (c.blame f c.here).Tidy := by
  unfold Cursor.blame
  split
  case isTrue => exact hc
  case isFalse hnew =>
      have hbehind : ∀ r ∈ c.reports, r.span.start < c.here.start :=
        fun r hr => (hc.behind r hr).resolve_right fun h => hnew h.2
      refine ⟨⟨hc.rest, hc.endOfInput, ?_⟩, fun r hr => ?_⟩
      · show Increasing (c.reports.push _).toList
        rw [Array.toList_push]
        exact hc.reports.concat fun r hr =>
          hbehind r (Array.mem_toList_iff.1 hr)
      · rcases Array.mem_push.1 hr with hr | rfl
        · exact .inl (hbehind r hr)
        · exact .inr ⟨rfl, rfl⟩

/-- A report about a place that is free. -/
theorem Clear.note (hc : c.Clear) (hs : c.Free s) (f : Fault) :
    (c.note f s).Clear := by
  refine ⟨⟨hc.rest, hc.endOfInput, ?_⟩, fun r hr => ?_⟩
  · show Increasing (c.reports.push _).toList
    rw [Array.toList_push]
    exact hc.reports.concat fun r hr =>
      hs.behind r (Array.mem_toList_iff.1 hr)
  · rcases Array.mem_push.1 hr with hr | rfl
    · exact hc.behind r hr
    · exact hs.ahead

theorem Clear.blame (hc : c.Clear) (hs : c.Free s) (f : Fault) :
    (c.blame f s).Clear := by
  have hnote := hc.note hs f
  unfold Cursor.blame
  split
  · exact hc
  · exact ⟨⟨hnote.rest, hnote.endOfInput, hnote.reports⟩, hnote.behind⟩

/-- What begins with the next token is free behind it, as long as nothing
is reported. -/
theorem Clear.free (hc : c.Clear) (hlater : Later c d)
    (hlt : d.rest.length < c.rest.length) (hsame : d.reports = c.reports)
    (hs : s.start = c.here.start) : d.Free s where
  behind := by
    rw [hsame, hs]
    exact hc.behind
  ahead := hs ▸ hc.here_lt hlater hlt

theorem Clear.free_advance (hc : c.Clear) (hk : c.kind ≠ .endOfInput) :
    c.advance.Free c.here := by
  refine hc.free (.advance c) (length_advance hk) ?_ rfl
  unfold Cursor.advance
  split <;> rfl

end Cursor

-- ================================================================ rules

/-- Reading from a cursor on that goes on where every report is about what
was passed over, or gives up with reports in order. A quiet reading has
reported nothing where it goes on. -/
def Orderly (quiet : Prop) (p : Parse α) (c : Cursor) : Prop :=
  match p c with
  | .ok _ d => d.Clear ∧ (quiet → d.reports = c.reports)
  | .error _ d => d.Tidy

namespace Orderly

variable {p : Parse α} {f : α → Parse β}

theorem of_ok (h : Orderly quiet p c) {a : α} (hrun : p c = .ok a d) :
    d.Clear ∧ (quiet → d.reports = c.reports) := by
  unfold Orderly at h
  rwa [hrun] at h

theorem of_error (h : Orderly quiet p c) {e : Unit}
    (hrun : p c = .error e d) : d.Tidy := by
  unfold Orderly at h
  rwa [hrun] at h

/-- What is read quietly can be read where that does not matter. -/
theorem loud (h : Orderly True p c) : Orderly quiet p c := by
  unfold Orderly
  cases hrun : p c with
  | ok a d =>
      obtain ⟨hd, hsame⟩ := h.of_ok hrun
      exact ⟨hd, fun _ => hsame trivial⟩
  | error e d => exact h.of_error hrun

theorem pure (hc : c.Clear) (a : α) : Orderly quiet (pure a) c :=
  ⟨hc, fun _ => rfl⟩

theorem bind (hp : Orderly quiet p c)
    (hf : ∀ a d, p c = .ok a d → d.Clear → Orderly quiet (f a) d) :
    Orderly quiet (p >>= f) c := by
  unfold Orderly
  cases hrun : p c with
  | error e d =>
      rw [bind_of_error hrun]
      exact hp.of_error hrun
  | ok a d =>
      obtain ⟨hd, hsame⟩ := hp.of_ok hrun
      rw [bind_of_ok hrun]
      cases hnext : f a d with
      | ok b e =>
          obtain ⟨he, hsame'⟩ := (hf a d hrun hd).of_ok hnext
          exact ⟨he, fun h => (hsame' h).trans (hsame h)⟩
      | error u e => exact (hf a d hrun hd).of_error hnext

/-- Reading on behind what is known to go well. -/
theorem bind_ok {a : α} (hrun : p c = .ok a d)
    (hf : Orderly False (f a) d) : Orderly False (p >>= f) c := by
  unfold Orderly
  rw [bind_of_ok hrun]
  cases hnext : f a d with
  | ok b e => exact ⟨(hf.of_ok hnext).1, False.elim⟩
  | error u e => exact hf.of_error hnext

theorem get_bind {f : Cursor → Parse β} (hf : Orderly quiet (f c) c) :
    Orderly quiet (get >>= f) c :=
  hf

theorem map (hp : Orderly quiet p c) (g : α → β) :
    Orderly quiet (g <$> p) c :=
  hp.bind fun a _ _ hd => pure hd (g a)

theorem skip (hc : c.Clear) : Orderly quiet Parse.skip c := by
  refine ⟨hc.advance, fun _ => ?_⟩
  unfold Cursor.advance
  split <;> rfl

theorem eat (hc : c.Clear) (k : Token.Kind) :
    Orderly quiet (Parse.eat k) c := by
  show Orderly quiet (if c.kind = k then _ else _) c
  split
  · exact (skip hc).bind fun _ _ _ hd => pure hd true
  · exact pure hc false

theorem here (hc : c.Clear) : Orderly quiet Parse.here c :=
  pure hc c.here

theorem spanFrom (hc : c.Clear) (start : Span) :
    Orderly quiet (Parse.spanFrom start) c :=
  pure hc (start.join c.previous)

/-- An error about what was passed over. -/
theorem blame (hc : c.Clear) (hs : c.Free s) (f : Fault) :
    Orderly False (Parse.blame f s) c :=
  ⟨hc.blame hs f, False.elim⟩

/-- A warning about what was passed over. -/
theorem note (hc : c.Clear) (hs : c.Free s) (f : Fault) :
    Orderly False (modify (·.note f s) : Parse Unit) c :=
  ⟨hc.note hs f, False.elim⟩

/-- Giving up because of the next token. -/
theorem expected (hc : c.Tidy) (what : String) :
    Orderly quiet (Parse.expected what : Parse α) c :=
  hc.blame_here _

theorem tooDeep (hc : c.Tidy) : Orderly quiet (Parse.tooDeep : Parse α) c :=
  (hc.blame_here .tooDeep).moved (Later.behindGroup_suffix _ _ _) _

/-- Behind a token that was asked for, its reports are passed over. -/
theorem expect (hc : c.Tidy) {k : Token.Kind} (hend : k ≠ .endOfInput)
    (what : String) : Orderly quiet (Parse.expect k what) c := by
  by_cases hk : c.kind = k
  · unfold Orderly
    rw [expect_eq hk]
    refine ⟨hc.advance (hk ▸ hend), fun _ => ?_⟩
    unfold Cursor.advance
    split <;> rfl
  · show Orderly quiet (Parse.eat k >>= fun there => _) c
    unfold Orderly
    rw [bind_eq (eat_eq_false hk)]
    exact hc.blame_here _

theorem identifier (hc : c.Clear) (what : String) :
    Orderly quiet (Parse.identifier what) c :=
  (expect hc.tidy (by simp) what).bind fun _ _ _ hd => pure hd _

theorem separated (hp : ∀ {c : Cursor}, c.Clear → Orderly quiet p c)
    (bound : Nat) (hc : c.Clear) :
    Orderly quiet (Parse.separated p bound) c := by
  induction bound generalizing c with
  | zero => exact (hp hc).bind fun x _ _ hd => pure hd [x]
  | succ bound ih =>
      refine (hp hc).bind fun x d _ hd => (eat hd _).bind
        fun there d _ hd => ?_
      cases there with
      | true => exact (ih hd).bind fun xs _ _ hd => pure hd (x :: xs)
      | false => exact pure hd [x]

-- ========================================================= expressions

mutual

theorem expression (n : Nat) {c : Cursor} (hc : c.Clear) :
    Orderly True (expression n) c := by
  unfold Tree.expression
  cases n with
  | zero => exact tooDeep hc.tidy
  | succ n => exact assignment n hc
termination_by n * 8

theorem primary (n : Nat) {c : Cursor} (hc : c.Clear) :
    Orderly True (primary n) c := by
  unfold Tree.primary
  show Orderly True (match c.atom? with | some e => _ | none => _) c
  cases c.atom? with
  | some e => exact (skip hc).bind fun _ _ _ hd => pure hd e
  | none =>
      refine (eat hc _).bind fun opened d _ hd => ?_
      cases opened with
      | false => exact expected hd.tidy _
      | true =>
          exact (expression n hd).bind fun _ _ _ hd =>
            (expect hd.tidy (by simp) _).bind fun _ _ _ hd => pure hd _
termination_by n * 8 + 1

theorem calls (n : Nat) (callee : Expr) {c : Cursor} (hc : c.Clear) :
    Orderly True (calls n callee) c := by
  have behind (m : Nat) (hm : m < n) (args : List Expr) {c : Cursor}
      (hc : c.Clear) : Orderly True (do
        let close ← Parse.expect (.punct .rightParen) "')' after arguments"
        Tree.calls m (.call (callee.span.join close) callee args)) c :=
    (expect hc.tidy (by simp) _).bind fun _ _ _ hd => calls m _ hd
  unfold Tree.calls
  show Orderly True (if c.kind = .punct .leftParen then _ else _) c
  split
  case isFalse => exact pure hc callee
  case isTrue =>
      cases n with
      | zero => exact tooDeep hc.tidy
      | succ n =>
          refine (skip hc).bind fun _ d _ hd => ?_
          show Orderly True (if d.kind = .punct .rightParen then _ else _) d
          split
          case isTrue => exact behind n (Nat.lt_succ_self n) [] hd
          case isFalse =>
              exact (separated (expression n) _ hd).bind
                fun args _ _ hd => behind n (Nat.lt_succ_self n) args hd
termination_by n * 8 + 1

theorem callChain (n : Nat) {c : Cursor} (hc : c.Clear) :
    Orderly True (callChain n) c := by
  unfold Tree.callChain
  exact (primary n hc).bind fun callee _ _ hd => calls n callee hd
termination_by n * 8 + 2

theorem unary (n : Nat) {c : Cursor} (hc : c.Clear) :
    Orderly True (unary n) c := by
  unfold Tree.unary
  show Orderly True (match unaryOperator? c.kind with
    | some op => _
    | none => _) c
  cases unaryOperator? c.kind with
  | none => exact callChain n hc
  | some op =>
      refine (skip hc).bind fun _ _ _ hd => ?_
      cases n with
      | zero => exact tooDeep hd.tidy
      | succ n => exact (unary n hd).bind fun _ _ _ hd => pure hd _
termination_by n * 8 + 3

theorem operators (n least : Nat) (lhs : Expr) {c : Cursor}
    (hc : c.Clear) : Orderly True (operators n least lhs) c := by
  unfold Tree.operators
  show Orderly True (match binaryOperator? c.kind with
    | some (op, precedence) => _
    | none => _) c
  cases binaryOperator? c.kind with
  | none => exact pure hc lhs
  | some o =>
      dsimp only
      split
      · exact pure hc lhs
      · cases n with
        | zero => exact tooDeep hc.tidy
        | succ n =>
            exact (skip hc).bind fun _ _ _ hd => (binary n _ hd).bind
              fun _ _ _ hd => operators n least _ hd
termination_by n * 8 + 1

theorem binary (n least : Nat) {c : Cursor} (hc : c.Clear) :
    Orderly True (binary n least) c := by
  unfold Tree.binary
  exact (unary n hc).bind fun lhs _ _ hd => operators n least lhs hd
termination_by n * 8 + 4

/-- The target of an assignment begins with the first token, and nothing
is reported while its value is read. -/
theorem assignment (n : Nat) {c : Cursor} (hc : c.Clear) :
    Orderly True (assignment n) c := by
  unfold Tree.assignment
  refine (binary n 1 hc).bind fun target d hrun hd => ?_
  have hsame := ((binary n 1 hc).of_ok hrun).2 trivial
  refine (eat hd _).bind fun there d' hrun' hd' => ?_
  have hsame' := ((eat hd _).of_ok hrun').2 trivial
  cases there with
  | false => exact pure hd' target
  | true =>
      cases n with
      | zero => exact tooDeep hd'.tidy
      | succ n =>
          refine (assignment n hd').bind fun value e hvalue he => ?_
          have hsame'' := ((assignment n hd').of_ok hvalue).2 trivial
          have hfree : e.Free target.span := by
            have hlater := ((Careful.eat _).later_ok hrun').trans
              ((Careful.assignment n).later_ok hvalue)
            obtain ⟨seg, hover, hreads, -⟩ :=
              binary_ok hc.rest (by decide) hrun
            obtain ⟨t, ts, rfl⟩ := List.exists_cons_of_ne_nil hreads.ne_nil
            refine hc.free (((Careful.binary _ 1).later_ok hrun).trans
              hlater) ?_ (hsame''.trans (hsame'.trans hsame)) ?_
            · exact Nat.lt_of_le_of_lt hlater.rest_suffix.length_le
                (Advances.binary _ 1 _ _ _ hrun)
            · rw [hreads.span, cover_eq (hover.ordered hc.rest).1,
                hover.here]
              rfl
          cases target with
          | ident span name => exact pure he _
          | _ => exact (he.blame hfree _).tidy
termination_by n * 8 + 5

end

end Orderly

end Tree

end Script
