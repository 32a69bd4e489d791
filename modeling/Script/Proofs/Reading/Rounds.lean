/-
Rounds of the loops over statements. The loops are bounded by the number
of tokens; here they are told without a bound, as rounds that follow each
other until one of them has nothing to read. A round that reads a
statement has passed over a token of it at least, and behind one that
cannot be read the cursor goes on to the next statement. So each round
gets on, the rounds come to an end, and no bound is ever what ends them.

None of this asks for tokens in order: the spans do not matter.
-/
import Script.Proofs.Grammar.Complete.Statements

namespace Script

namespace Tree

open Script.Action

variable {α β : Type} {c d e : Cursor} {n : Nat} {inside : Bool}

-- ============================================================ getting on

theorem Cursor.kind_blame (c : Cursor) (f : Fault) (span : Span) :
    (c.blame f span).kind = c.kind := by
  unfold Cursor.blame
  split
  · rfl
  · rfl

theorem Cursor.length_advance (hk : c.kind ≠ .endOfInput) :
    c.advance.rest.length < c.rest.length := by
  obtain ⟨t, ts, hrest, -⟩ := Cursor.exists_of_kind rfl hk
  unfold Cursor.advance
  rw [hrest]
  exact Nat.lt_succ_self _

/-- Where no token is left, the end of input comes next. -/
theorem Cursor.kind_ne_of_length (h : c.rest.length ≤ 0) {k : Token.Kind}
    (hk : k ≠ .endOfInput) : c.kind ≠ k := by
  unfold Cursor.kind
  rw [List.length_eq_zero_iff.1 (Nat.le_zero.1 h)]
  exact hk.symm

theorem Careful.length_le {p : Parse α} (hp : Careful p) {a : α}
    (h : p c = .ok a d) : d.rest.length ≤ c.rest.length :=
  (hp.later_ok h).rest_suffix.length_le

/-- Reading that begins behind a token takes that token. -/
theorem Careful.length_lt_of_skip {p : Unit → Parse α}
    (hp : ∀ u, Careful (p u)) (hk : c.kind ≠ .endOfInput) {a : α}
    (h : (Parse.skip >>= p) c = .ok a d) :
    d.rest.length < c.rest.length := by
  obtain ⟨u, c', hskip, h⟩ := bind_ok.1 h
  obtain rfl := skip_ok hskip
  exact Nat.lt_of_le_of_lt ((hp u).length_le h) (Cursor.length_advance hk)

/-- Reading that takes a token at least whenever it yields something. -/
def Advances (p : Parse α) : Prop :=
  ∀ c a d, p c = .ok a d → d.rest.length < c.rest.length

namespace Advances

variable {p : Parse α} {f : α → Parse β}

theorem bind (hp : Advances p) (hf : ∀ a, Careful (f a)) :
    Advances (p >>= f) := by
  intro c b d h
  obtain ⟨a, c', ha, h⟩ := bind_ok.1 h
  exact Nat.lt_of_le_of_lt ((hf a).length_le h) (hp _ _ _ ha)

theorem map (hp : Advances p) (g : α → β) : Advances (g <$> p) :=
  hp.bind fun a => Careful.pure (g a)

theorem tooDeep : Advances (Parse.tooDeep : Parse α) :=
  fun _ _ _ h => (tooDeep_ok h).elim

theorem expect {k : Token.Kind} (hend : k ≠ .endOfInput) (what : String) :
    Advances (Parse.expect k what) := by
  intro c s d h
  obtain ⟨t, -, -, hover⟩ := expect_ok hend h
  rw [hover.rest]
  exact Nat.lt_succ_self _

theorem identifier (what : String) : Advances (Parse.identifier what) := by
  intro c x d h
  obtain ⟨t, -, -, hover⟩ := identifier_ok h
  rw [hover.rest]
  exact Nat.lt_succ_self _

theorem parameter (seen : List Ident) : Advances (parameter seen) := by
  refine (identifier _).bind fun p => ?_
  dsimp only
  split
  · exact (Careful.blame (by simp) _).bind fun _ => Careful.pure _
  · exact Careful.pure _

-- ========================================================= expressions

theorem primary (n : Nat) : Advances (primary n) := by
  intro c e d h
  unfold Tree.primary at h
  obtain ⟨c', d', hget, h⟩ := bind_ok.1 h
  obtain ⟨rfl, rfl⟩ := get_ok.1 hget
  cases hatom : c.atom? with
  | some e' =>
      rw [hatom] at h
      obtain ⟨t, ts, hrest, -⟩ := Cursor.atom?_eq_some.1 hatom
      obtain ⟨u, d', hskip, h⟩ := bind_ok.1 h
      obtain rfl := skip_ok hskip
      obtain ⟨-, rfl⟩ := pure_ok.1 h
      have hover := Cursor.over_advance hrest
      rw [hover.rest]
      exact Nat.lt_succ_self _
  | none =>
      rw [hatom] at h
      obtain ⟨b, c', heat, h⟩ := bind_ok.1 h
      rcases eat_ok (by simp) heat with ⟨rfl, t, -, hover⟩ | ⟨rfl, -, -⟩
      · have hbehind : Careful (do
            let inner ← Tree.expression n
            let close ← Parse.expect (.punct .rightParen) "')'"
            return .group (c.here.join close) inner : Parse Expr) :=
          (Careful.expression n).bind fun _ =>
            (Careful.expect _ _).bind fun _ => Careful.pure _
        rw [hover.rest]
        exact Nat.lt_succ_of_le (hbehind.length_le h)
      · exact (expected_ok h).elim

theorem callChain (n : Nat) : Advances (callChain n) := by
  unfold Tree.callChain
  exact (primary n).bind (Careful.calls n)

theorem unary (n : Nat) : Advances (unary n) := by
  intro c e d h
  unfold Tree.unary at h
  obtain ⟨c', d', hget, h⟩ := bind_ok.1 h
  obtain ⟨rfl, rfl⟩ := get_ok.1 hget
  cases hop : unaryOperator? c.kind with
  | none =>
      rw [hop] at h
      exact callChain n _ _ _ h
  | some op =>
      rw [hop] at h
      refine Careful.length_lt_of_skip (fun _ => ?_)
        (unaryOperator?_eq_some.1 hop).ne_endOfInput h
      cases n with
      | zero => exact Careful.tooDeep
      | succ n => exact (Careful.unary n).bind fun _ => Careful.pure _

theorem binary (n least : Nat) : Advances (binary n least) := by
  unfold Tree.binary
  exact (unary n).bind (Careful.operators n least)

theorem assignment (n : Nat) : Advances (assignment n) := by
  unfold Tree.assignment
  refine (binary n 1).bind fun target => (Careful.eat _).bind fun _ =>
    .ite ?_ (Careful.pure _)
  cases n with
  | zero => exact Careful.tooDeep
  | succ n =>
      refine (Careful.assignment n).bind fun value => ?_
      cases target with
      | ident span name => exact Careful.pure _
      | _ => exact Careful.blame_throw (by simp) _

theorem expression (n : Nat) : Advances (expression n) := by
  unfold Tree.expression
  cases n with
  | zero => exact tooDeep
  | succ n => exact assignment n

-- ========================================================== statements

theorem block (n : Nat) (inside : Bool) : Advances (block n inside) := by
  unfold Tree.block
  cases n with
  | zero => exact tooDeep
  | succ n =>
      exact (expect (by simp) _).bind fun _ =>
        Careful.tokensLeft.bind fun bound =>
        (Careful.statementsInBlock (.statement n inside) bound).bind
          fun _ => (Careful.expect _ _).bind fun _ => Careful.pure _

theorem branch_of_kind (hk : c.kind ≠ .endOfInput) {s : Stmt}
    (h : branch n inside c = .ok s d) : d.rest.length < c.rest.length := by
  rw [branch_eq] at h
  have hbehind : Careful (Tree.expression n >>= fun cond =>
      Tree.block n inside >>= fun thenPart =>
      elsePart n inside fun elsePart =>
      Parse.spanFrom c.here >>= fun span =>
      pure (.branch span cond thenPart elsePart)) :=
    (Careful.expression n).bind fun _ => (Careful.block n inside).bind
      fun _ => Careful.elsePart fun _ => (Careful.spanFrom _).bind
        fun _ => Careful.pure _
  exact Nat.lt_of_le_of_lt (hbehind.length_le h)
    (Cursor.length_advance hk)

/-- A statement has a token at least. -/
theorem statement (n : Nat) (inside : Bool) :
    Advances (statement n inside) := by
  intro c s d h
  unfold Tree.statement at h
  obtain ⟨c', d', hget, h⟩ := bind_ok.1 h
  obtain ⟨rfl, rfl⟩ := get_ok.1 hget
  generalize hk : c.kind = k at h
  have hend {k' : Token.Kind} (hk' : k = k') (hne : k' ≠ .endOfInput) :
      c.kind ≠ .endOfInput := by rwa [hk, hk']
  split at h
  case h_1 =>
      exact Careful.length_lt_of_skip (fun _ => .declaration n c.here)
        (hend rfl (by simp)) h
  case h_2 =>
      exact Careful.length_lt_of_skip (fun _ => .function n c.here)
        (hend rfl (by simp)) h
  case h_3 => exact branch_of_kind (hend rfl (by simp)) h
  case h_4 =>
      refine Careful.length_lt_of_skip (fun _ => ?_) (hend rfl (by simp)) h
      exact (Careful.expression n).bind fun _ => (Careful.block n inside).bind
        fun _ => (Careful.spanFrom _).bind fun _ => Careful.pure _
  case h_5 =>
      exact Careful.length_lt_of_skip
        (fun _ => .returnStatement n inside c.here) (hend rfl (by simp)) h
  case h_6 =>
      refine Careful.length_lt_of_skip (fun _ => ?_) (hend rfl (by simp)) h
      exact (Careful.expression n).bind fun _ => (Careful.terminator _).bind
        fun _ => (Careful.spanFrom _).bind fun _ => Careful.pure _
  case h_7 => exact (block n inside).map Stmt.block _ _ _ h
  case h_8 =>
      refine Careful.length_lt_of_skip (fun _ => ?_) (hend rfl (by simp)) h
      exact (Careful.modify fun _ => .noted _ .refl).bind fun _ =>
        (Careful.spanFrom _).bind fun _ => Careful.pure _
  case h_9 =>
      have hbehind : Advances (do
          let value ← Tree.expression n
          Tree.terminator "expression"
          return .expression (← Parse.spanFrom c.here) value :
            Parse Stmt) :=
        (expression n).bind fun _ => (Careful.terminator _).bind fun _ =>
          (Careful.spanFrom _).bind fun _ => Careful.pure _
      exact hbehind _ _ _ h

end Advances

-- ================================================================ bounds

/-- A list with commas between its pieces has no more of them than there
are tokens, so all bounds from there on are the same. -/
theorem separated_bounds {p : Parse α} (hp : Careful p) {b b' : Nat}
    (hb : c.rest.length ≤ b) (hb' : c.rest.length ≤ b') :
    Parse.separated p b c = Parse.separated p b' c := by
  -- where no token is left, no comma is
  have hlast {c : Cursor} (h : c.rest.length ≤ 0) (m : Nat) :
      Parse.separated p 0 c = Parse.separated p m c := by
    cases m with
    | zero => rfl
    | succ m =>
        refine bind_congr fun x d hone => ?_
        have hk : d.kind ≠ .punct .comma :=
          Cursor.kind_ne_of_length (Nat.le_trans (hp.length_le hone) h) nofun
        rw [bind_eq (eat_eq_false hk)]
        rfl
  induction b generalizing b' c with
  | zero => exact hlast hb b'
  | succ b ih =>
      cases b' with
      | zero => exact (hlast hb' (b + 1)).symm
      | succ b' =>
          refine bind_congr fun x d hone => bind_congr fun there d' heat => ?_
          have hd := hp.length_le hone
          rcases eat_ok (by simp) heat with ⟨rfl, t, -, hover⟩ | ⟨rfl, -, -⟩
          · rw [hover.rest, List.length_append, List.length_singleton] at hd
            exact bind_congr_left (ih (by omega) (by omega)) _
          · rfl

/-- The same for the parameters of a function. -/
theorem parameters_bounds {seen : List Ident} {b b' : Nat}
    (hb : c.rest.length ≤ b) (hb' : c.rest.length ≤ b') :
    parameters seen b c = parameters seen b' c := by
  have hlast (seen : List Ident) {c : Cursor} (h : c.rest.length ≤ 0)
      (m : Nat) : parameters seen 0 c = parameters seen m c := by
    cases m with
    | zero => rfl
    | succ m =>
        have hnone {d : Cursor} {ps : List Ident} :
            parameter seen c ≠ .ok ps d := fun hone =>
          absurd (Advances.parameter seen _ _ _ hone) (by omega)
        unfold parameters
        cases hone : parameter seen c with
        | ok ps d => exact absurd hone hnone
        | error e d => rw [bind_of_error hone]
  induction b generalizing b' c seen with
  | zero => exact hlast seen hb b'
  | succ b ih =>
      cases b' with
      | zero => exact (hlast seen hb' (b + 1)).symm
      | succ b' =>
          refine bind_congr fun ps d hone => bind_congr fun there d' heat => ?_
          have hd := Advances.parameter seen _ _ _ hone
          have hd' := (Careful.eat _).length_le heat
          rcases there with _ | _
          · rfl
          · exact ih (by omega) (by omega)

-- ================================================================ rounds

/-- A round of a loop over statements: the statement that was read, if it
was in order, and the cursor behind it. -/
structure Round where
  piece : Option Stmt
  behind : Cursor

/-- A round that reads a statement, or passes over it. -/
def Cursor.round (statement : Parse Stmt) (c : Cursor) : Round :=
  match statement c with
  | .ok s d => ⟨some s, d⟩
  | .error () d => ⟨none, d.skipStatement⟩

/-- The next round in a block, unless the block ends here. -/
def Cursor.roundOfBlock? (n : Nat) (inside : Bool) (c : Cursor) :
    Option Round :=
  if c.kind = .punct .rightBrace ∨ c.kind = .endOfInput then none
  else some (c.round (statement n inside))

/-- The next round of a program, unless the input ends here. A closing
brace that matches nothing is a round of its own. -/
def Cursor.roundOfProgram? (c : Cursor) : Option Round :=
  if c.kind = .endOfInput then none
  else if c.kind = .punct .rightBrace then
    some ⟨none, (c.blame .unmatchedBrace c.here).advance⟩
  else some (c.round (statement maxNesting false))

/-- What a round of a program is. -/
theorem Cursor.roundOfProgram_cases {r : Round}
    (h : c.roundOfProgram? = some r) :
    (c.kind = .punct .rightBrace
      ∧ r = ⟨none, (c.blame .unmatchedBrace c.here).advance⟩)
    ∨ (c.kind ≠ .endOfInput ∧ c.kind ≠ .punct .rightBrace
      ∧ r = c.round (statement maxNesting false)) := by
  unfold Cursor.roundOfProgram? at h
  split at h
  case isTrue => cases h
  case isFalse hend =>
      split at h
      case isTrue hbrace => exact .inl ⟨hbrace, (Option.some.inj h).symm⟩
      case isFalse hbrace =>
          exact .inr ⟨hend, hbrace, (Option.some.inj h).symm⟩

theorem Cursor.roundOfProgram_eq (hend : c.kind ≠ .endOfInput)
    (hbrace : c.kind ≠ .punct .rightBrace) :
    c.roundOfProgram? = some (c.round (statement maxNesting false)) := by
  unfold Cursor.roundOfProgram?
  rw [if_neg hend, if_neg hbrace]

/-- A loop, told by its rounds: from a cursor on, round after round, up to
where there is no further one. -/
inductive Rounds (round? : Cursor → Option Round) :
    Cursor → List Round → Cursor → Prop
  | stop {c : Cursor} (h : round? c = none) : Rounds round? c [] c
  | next {c d : Cursor} {r : Round} {rs : List Round}
      (h : round? c = some r) (hmore : Rounds round? r.behind rs d) :
      Rounds round? c (r :: rs) d

variable {round? : Cursor → Option Round} {r : Round} {rs : List Round}

theorem Round.pieces_cons (r : Round) (rs : List Round) :
    (r :: rs).filterMap Round.piece
      = r.piece.toList ++ rs.filterMap Round.piece := by
  rw [List.filterMap_cons]
  cases r.piece <;> rfl

/-- What is passed over where the cursor gets on. -/
theorem Later.exists_passed (h : Later c d)
    (hlt : d.rest.length < c.rest.length) :
    ∃ t seg, c.rest = t :: (seg ++ d.rest) := by
  obtain ⟨passed, hrest⟩ := h.rest_suffix
  cases passed with
  | nil => exact absurd (congrArg List.length hrest) (Nat.ne_of_lt hlt)
  | cons t seg => exact ⟨t, seg, hrest.symm⟩

/-- There is but one way to go through a loop. -/
theorem Rounds.unique {rs' : List Round} (h : Rounds round? c rs d)
    (h' : Rounds round? c rs' e) : rs = rs' ∧ d = e := by
  induction h generalizing rs' with
  | stop hnone =>
      cases h' with
      | stop => exact ⟨rfl, rfl⟩
      | next hsome => cases hnone.symm.trans hsome
  | next hsome _ ih =>
      cases h' with
      | stop hnone => cases hnone.symm.trans hsome
      | next hsome' hmore =>
          cases hsome.symm.trans hsome'
          obtain ⟨rfl, rfl⟩ := ih hmore
          exact ⟨rfl, rfl⟩

theorem recovering_eq (p : Parse Stmt) (c : Cursor) :
    recovering p c = .ok (c.round p).piece (c.round p).behind := by
  unfold recovering Cursor.round
  cases p c with
  | ok s d => rfl
  | error u d => rfl

theorem Later.round (n : Nat) (inside : Bool) (c : Cursor) :
    Later c (c.round (statement n inside)).behind := by
  have h := (Careful.recovering (.statement n inside) c).1
  rwa [recovering_eq] at h

theorem Later.roundOfBlock (h : c.roundOfBlock? n inside = some r) :
    Later c r.behind := by
  unfold Cursor.roundOfBlock? at h
  split at h
  case isTrue => cases h
  case isFalse =>
      cases h
      exact .round n inside c

theorem Later.roundOfProgram (h : c.roundOfProgram? = some r) :
    Later c r.behind := by
  rcases Cursor.roundOfProgram_cases h with ⟨-, rfl⟩ | ⟨-, -, rfl⟩
  · exact (Later.blamed _ (by simp) .refl).trans (.advance _)
  · exact .round _ _ c

/-- Skipping a statement gets on, unless it ends where it began. -/
theorem Cursor.length_skipStatement (hend : c.kind ≠ .endOfInput)
    (hbrace : c.kind ≠ .punct .rightBrace) :
    c.skipStatement.rest.length < c.rest.length := by
  obtain ⟨t, ts, hrest, ht⟩ := Cursor.exists_of_kind rfl hend
  unfold Cursor.skipStatement Cursor.nextStatement
  rw [hrest]
  dsimp only
  split
  case h_1 h => exact absurd (ht.symm.trans h) hbrace
  case h_2 => exact Nat.lt_succ_self _
  case h_3 =>
      exact Nat.lt_succ_of_le (Later.nextStatement_suffix _ _).length_le

/-- A statement is read or passed over, and takes a token either way. -/
theorem Cursor.length_round (hend : c.kind ≠ .endOfInput)
    (hbrace : c.kind ≠ .punct .rightBrace) (n : Nat) (inside : Bool) :
    (c.round (statement n inside)).behind.rest.length < c.rest.length := by
  unfold Cursor.round
  cases h : statement n inside c with
  | ok s d => exact Advances.statement n inside _ _ _ h
  | error e d =>
      have hsuffix := ((Careful.statement n inside).later_error h).rest_suffix
      have hskip := (Later.skipStatement d).rest_suffix.length_le
      rcases Nat.lt_or_ge d.rest.length c.rest.length with hlt | hge
      · exact Nat.lt_of_le_of_lt hskip hlt
      · -- nothing was read before giving up
        have hsame := hsuffix.eq_of_length_le hge
        have hkind : d.kind = c.kind := by
          unfold Cursor.kind
          rw [hsame]
        have hlt := Cursor.length_skipStatement (hkind ▸ hend)
          (hkind ▸ hbrace)
        rwa [hsame] at hlt

/-- Each round in a block takes a token. -/
theorem Cursor.length_roundOfBlock (h : c.roundOfBlock? n inside = some r) :
    r.behind.rest.length < c.rest.length := by
  unfold Cursor.roundOfBlock? at h
  split at h
  case isTrue => cases h
  case isFalse hk =>
      obtain ⟨hbrace, hend⟩ := not_or.1 hk
      cases h
      exact Cursor.length_round hend hbrace n inside

/-- Each round of a program takes a token. -/
theorem Cursor.length_roundOfProgram (h : c.roundOfProgram? = some r) :
    r.behind.rest.length < c.rest.length := by
  rcases Cursor.roundOfProgram_cases h
    with ⟨hbrace, rfl⟩ | ⟨hend, hbrace, rfl⟩
  · have hblamed : Later c (c.blame .unmatchedBrace c.here) :=
      .blamed _ (by simp) .refl
    refine Nat.lt_of_lt_of_le (Cursor.length_advance ?_)
      hblamed.rest_suffix.length_le
    rw [Cursor.kind_blame, hbrace]
    simp
  · exact Cursor.length_round hend hbrace _ _

/-- A loop of which a round takes a token at least, or is none. -/
def Takes (round? : Cursor → Option Round) : Prop :=
  ∀ c, round? c = none
    ∨ ∃ r, round? c = some r ∧ ∃ t seg, c.rest = t :: (seg ++ r.behind.rest)

theorem Takes.of_length {round? : Cursor → Option Round}
    (h : ∀ c r, round? c = some r →
      Later c r.behind ∧ r.behind.rest.length < c.rest.length) :
    Takes round? := by
  intro c
  cases hround : round? c with
  | none => exact .inl rfl
  | some r =>
      obtain ⟨hlater, hlt⟩ := h c r hround
      exact .inr ⟨r, rfl, hlater.exists_passed hlt⟩

theorem takes_roundOfBlock (n : Nat) (inside : Bool) :
    Takes (Cursor.roundOfBlock? n inside) :=
  .of_length fun _ _ h => ⟨.roundOfBlock h, Cursor.length_roundOfBlock h⟩

theorem takes_roundOfProgram : Takes Cursor.roundOfProgram? :=
  .of_length fun _ _ h => ⟨.roundOfProgram h, Cursor.length_roundOfProgram h⟩

-- ================================================================= loops

/-- The loop in a block goes through its rounds, whatever bound there is
above the number of tokens. -/
theorem statementsInBlock_rounds (n : Nat) (inside : Bool) {bound : Nat}
    (hbound : c.rest.length ≤ bound) :
    ∃ rs d, Rounds (Cursor.roundOfBlock? n inside) c rs d
      ∧ statementsInBlock (statement n inside) bound c
        = .ok (rs.filterMap Round.piece) d := by
  induction bound generalizing c with
  | zero =>
      refine ⟨[], c, .stop (if_pos (.inr ?_)), rfl⟩
      unfold Cursor.kind
      rw [List.length_eq_zero_iff.1 (Nat.le_zero.1 hbound)]
  | succ bound ih =>
      unfold statementsInBlock
      rw [kind_bind]
      by_cases hk : c.kind = .punct .rightBrace ∨ c.kind = .endOfInput
      · rw [if_pos hk]
        exact ⟨[], c, .stop (if_pos hk), rfl⟩
      · have hround : c.roundOfBlock? n inside
            = some (c.round (statement n inside)) := if_neg hk
        have hlt := Cursor.length_roundOfBlock hround
        obtain ⟨rs, d, hmore, hrest⟩ :=
          ih (c := (c.round (statement n inside)).behind) (by omega)
        refine ⟨_, d, .next hround hmore, ?_⟩
        rw [if_neg hk, bind_eq (recovering_eq _ c), bind_eq hrest,
          Round.pieces_cons]
        rfl

/-- All bounds of the loop in a block are the same from there on. -/
theorem statementsInBlock_bounds {b b' : Nat} (hb : c.rest.length ≤ b)
    (hb' : c.rest.length ≤ b') :
    statementsInBlock (statement n inside) b c
      = statementsInBlock (statement n inside) b' c := by
  obtain ⟨rs, d, hrounds, hread⟩ :=
    statementsInBlock_rounds n inside hb
  obtain ⟨rs', d', hrounds', hread'⟩ :=
    statementsInBlock_rounds n inside hb'
  obtain ⟨rfl, rfl⟩ := hrounds.unique hrounds'
  rw [hread, hread']

/-- The loop over a program goes through its rounds. -/
theorem statementsOfProgram_rounds {bound : Nat}
    (hbound : c.rest.length ≤ bound) :
    ∃ rs d, Rounds Cursor.roundOfProgram? c rs d
      ∧ statementsOfProgram bound c = .ok (rs.filterMap Round.piece) d := by
  induction bound generalizing c with
  | zero =>
      refine ⟨[], c, .stop (if_pos ?_), rfl⟩
      unfold Cursor.kind
      rw [List.length_eq_zero_iff.1 (Nat.le_zero.1 hbound)]
  | succ bound ih =>
      have hnext {r : Round} (hround : c.roundOfProgram? = some r) :
          ∃ rs d, Rounds Cursor.roundOfProgram? r.behind rs d
            ∧ statementsOfProgram bound r.behind
              = .ok (rs.filterMap Round.piece) d := by
        have hlt := Cursor.length_roundOfProgram hround
        exact ih (by omega)
      unfold statementsOfProgram
      rw [kind_bind]
      generalize hk : c.kind = k
      split
      case h_1 => exact ⟨[], c, .stop (if_pos hk), rfl⟩
      case h_2 =>
          have hround : c.roundOfProgram?
              = some ⟨none, (c.blame .unmatchedBrace c.here).advance⟩ := by
            unfold Cursor.roundOfProgram?
            rw [if_neg (by simp [hk]), if_pos hk]
          obtain ⟨rs, d, hmore, hrest⟩ := hnext hround
          exact ⟨_, d, .next hround hmore, hrest⟩
      case h_3 hend hbrace =>
          have hround := Cursor.roundOfProgram_eq (hk ▸ hend) (hk ▸ hbrace)
          obtain ⟨rs, d, hmore, hrest⟩ := hnext hround
          refine ⟨_, d, .next hround hmore, ?_⟩
          rw [bind_eq (recovering_eq _ c), bind_eq hrest,
            Round.pieces_cons]
          rfl

/-- Round after round, tokens are passed over from the front. -/
theorem Rounds.later (hround : ∀ c r, round? c = some r → Later c r.behind)
    (h : Rounds round? c rs d) : Later c d := by
  induction h with
  | stop => exact .refl
  | next hsome _ ih => exact (hround _ _ hsome).trans ih

/-- Every round of a program gets on from where the loop began. -/
theorem Rounds.length_lt (h : Rounds Cursor.roundOfProgram? c rs d) :
    ∀ r ∈ rs, r.behind.rest.length < c.rest.length := by
  induction h with
  | stop => exact List.forall_mem_nil _
  | next hsome _ ih =>
      have hlt := Cursor.length_roundOfProgram hsome
      exact List.forall_mem_cons.2
        ⟨hlt, fun r hr => Nat.lt_trans (ih r hr) hlt⟩

/-- Without a token there is no round. -/
theorem Rounds.eq_of_rest (h : Rounds Cursor.roundOfProgram? c rs d)
    (hc : c.rest = []) : rs = [] ∧ d = c := by
  have hkind : c.kind = .endOfInput := by
    unfold Cursor.kind
    rw [hc]
  obtain ⟨hrs, hd⟩ := h.unique (.stop (if_pos hkind))
  exact ⟨hrs, hd⟩

/-- A program is over where the input ends. -/
theorem Rounds.kind (h : Rounds Cursor.roundOfProgram? c rs d) :
    d.kind = .endOfInput := by
  induction h with
  | stop hnone =>
      unfold Cursor.roundOfProgram? at hnone
      split at hnone
      case isTrue hk => exact hk
      case isFalse => split at hnone <;> cases hnone
  | next _ _ ih => exact ih

end Tree

/-- The program that is read is made of the pieces of its rounds. -/
theorem Program.readFrom_rounds (c : Tree.Cursor) :
    ∃ rs d, Tree.Rounds Tree.Cursor.roundOfProgram? c rs d
      ∧ readFrom c
        = (⟨rs.filterMap Tree.Round.piece, c.here.join d.here⟩, d) := by
  obtain ⟨rs, d, hrounds, hread⟩ :=
    Tree.statementsOfProgram_rounds (Nat.le_refl c.rest.length)
  refine ⟨rs, d, hrounds, ?_⟩
  unfold readFrom
  rw [hread]

end Script
