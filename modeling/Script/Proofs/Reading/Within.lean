/-
A run within a longer one. The long run has the tokens of the short one
and others behind them, and something may have been reported before it
that the short run does not know of. While the short run has a token in
front of it, both do the same. They part where it has none and the long
one goes on; from there on the short run is at its end, where it reports
one error at most, since all of them would be at one place.

So the outcomes of one reading in the two runs either meet, or the short
run is cut off. It may have had an error before that, and then so had the
long one; what is said of a run that is cut off is said for long runs
without one.
-/
import Script.Proofs.Reading.Rounds
import Script.Proofs.Reading.Spanned

namespace Script.Tree

open Script.Action

/-- What there is around a short run: the reports made before it, with the
place of the last error among them; its tokens; and the tokens behind
them, with the end of input if that is elsewhere. -/
structure Context where
  reports : Array Diagnostic
  lastErrorAt : Option Nat
  read : List Token
  tail : List Token
  endOfInput : Option Span

/-- The cursor of the long run that goes with one of the short run. -/
def Cursor.within (x : Context) (c : Cursor) : Cursor where
  rest := c.rest ++ x.tail
  endOfInput := x.endOfInput.getD c.endOfInput
  previous := c.previous
  reports := x.reports ++ c.reports
  lastErrorAt := c.lastErrorAt.or x.lastErrorAt

namespace Context

variable (x : Context)

/-- Whether the short run sees what the long one does. -/
def Sees (c : Cursor) : Prop :=
  c.rest = [] → x.tail = [] ∧ x.endOfInput = none

/-- Whether the last error before was elsewhere. -/
def Free (s : Span) : Prop := x.lastErrorAt ≠ some s.start

/-- Whether the short run stops behind an opening parenthesis, with the
closing one next. -/
def Hollow : Prop :=
  (∃ t, x.read.getLast? = some t ∧ t.kind = .punct .leftParen)
    ∧ ∃ t, x.tail.head? = some t ∧ t.kind = .punct .rightParen

/-- What the short run can blame where it has no token left. -/
def Blames (f : Fault) : Prop :=
  (∃ what found, f = .unexpected what found) ∨ (f = .tooDeep ∧ x.Hollow)

/-- A cursor of the short run. -/
structure Knows (c : Cursor) : Prop where
  spanned : c.Spanned x.Free
  fair : c.IsFair
  rest : c.rest <:+ x.read

end Context

/-- The errors among the reports of a cursor. -/
def Cursor.errors (c : Cursor) : List Diagnostic :=
  c.reports.toList.filter (·.isError)

/-- A short run at its end: no token is left, and no error was reported
but one at most, which is about the end of input. -/
structure AtEnd (x : Context) (c : Cursor) : Prop where
  rest : c.rest = []
  errors : (c.errors = [] ∧ c.lastErrorAt = none)
    ∨ ∃ f, x.Blames f ∧ c.errors = [f.report.at c.endOfInput]
      ∧ c.lastErrorAt = some c.endOfInput.start

variable {α β : Type} {x : Context} {c d : Cursor} {s : Span}

-- ============================================================== cursors

namespace Context

theorem joinClosed_free : JoinClosed x.Free := by
  intro a b ha hb
  show x.lastErrorAt ≠ some (min a.start b.start)
  rcases Nat.le_total a.start b.start with h | h
  · rwa [Nat.min_eq_left h]
  · rwa [Nat.min_eq_right h]

theorem Sees.of_ne_nil (h : c.rest ≠ []) : x.Sees c := fun hc => absurd hc h

theorem rest_of_not_sees (h : ¬ x.Sees c) : c.rest = [] :=
  (Classical.not_imp.1 h).1

theorem kind_of_not_sees (h : ¬ x.Sees c) : c.kind = .endOfInput := by
  unfold Cursor.kind
  rw [rest_of_not_sees h]

theorem length_of_not_sees (h : ¬ x.Sees c) :
    (c.within x).rest.length = x.tail.length := by
  unfold Cursor.within
  rw [rest_of_not_sees h]
  rfl

/-- A run that is cut off stays cut off. -/
theorem not_sees_later (h : ¬ x.Sees c) (hlater : Later c d) :
    ¬ x.Sees d := by
  obtain ⟨hc, hsame⟩ := Classical.not_imp.1 h
  have hd := hlater.rest_suffix
  rw [hc] at hd
  exact fun h => hsame (h (List.suffix_nil.1 hd))

theorem Knows.later (hc : x.Knows c) (hlater : Later c d)
    (hd : d.Spanned x.Free) : x.Knows d :=
  ⟨hd, hlater.isFair hc.fair, hlater.rest_suffix.trans hc.rest⟩

theorem Knows.advance (hc : x.Knows c) : x.Knows c.advance :=
  hc.later (.advance c) hc.spanned.advance

end Context

namespace Cursor

theorem kind_within (h : x.Sees c) : (c.within x).kind = c.kind := by
  unfold kind within
  dsimp only
  cases hrest : c.rest with
  | nil => rw [(h hrest).1]; rfl
  | cons t ts => rfl

theorem here_within (h : x.Sees c) : (c.within x).here = c.here := by
  unfold here within
  dsimp only
  cases hrest : c.rest with
  | nil =>
      obtain ⟨htail, hend⟩ := h hrest
      rw [htail, hend]
      rfl
  | cons t ts => rfl

theorem word_within (h : x.Sees c) : (c.within x).word = c.word := by
  unfold word within
  dsimp only
  cases hrest : c.rest with
  | nil => rw [(h hrest).1]; rfl
  | cons t ts => rfl

theorem describe_within (h : x.Sees c) :
    (c.within x).describe = c.describe := by
  unfold describe
  rw [kind_within h, word_within h]

theorem atom?_within (h : x.Sees c) : (c.within x).atom? = c.atom? := by
  unfold atom?
  rw [kind_within h, here_within h, word_within h]

theorem advance_within (h : x.Sees c) :
    (c.within x).advance = c.advance.within x := by
  unfold advance within
  dsimp only
  cases hrest : c.rest with
  | nil =>
      obtain ⟨htail, -⟩ := h hrest
      simp [hrest, htail]
  | cons t ts => rfl

theorem note_within (c : Cursor) (f : Fault) (s : Span) :
    (c.within x).note f s = (c.note f s).within x := by
  unfold note within
  simp

theorem blame_within (c : Cursor) (f : Fault) (hs : x.Free s) :
    (c.within x).blame f s = (c.blame f s).within x := by
  have hsame : (c.within x).lastErrorAt = some s.start
      ↔ c.lastErrorAt = some s.start := by
    show c.lastErrorAt.or x.lastErrorAt = _ ↔ _
    cases c.lastErrorAt with
    | none => simpa [Context.Free] using hs
    | some e => rfl
  unfold blame
  by_cases h : c.lastErrorAt = some s.start
  · rw [if_pos h, if_pos (hsame.2 h)]
  · rw [if_neg h, if_neg (mt hsame.1 h), note_within]
    rfl

/-- A group that ends in front of a token is the same in the long run. -/
theorem behindGroup_append {opened : Nat} {previous : Span}
    {ts : List Token} (tail : List Token)
    (h : (behindGroup opened previous ts).2 ≠ []) :
    behindGroup opened previous (ts ++ tail)
      = ((behindGroup opened previous ts).1,
        (behindGroup opened previous ts).2 ++ tail) := by
  induction ts generalizing opened previous with
  | nil => exact absurd rfl h
  | cons t ts ih =>
      rw [List.cons_append]
      unfold behindGroup at h ⊢
      split
      case h_1 hk | h_2 hk =>
          simp only [hk] at h
          exact ih h
      case h_3 hk | h_4 hk =>
          simp only [hk] at h
          split
          · rfl
          · rfl
          · exact ih h
      case h_5 h₁ h₂ h₃ h₄ =>
          split
          · rfl
          · next hopened =>
              refine ih ?_
              revert h
              split
              case h_1 hk => exact absurd hk h₁
              case h_2 hk => exact absurd hk h₂
              case h_3 hk => exact absurd hk h₃
              case h_4 hk => exact absurd hk h₄
              case h_5 => rw [if_neg hopened]; exact id

/-- Where there is a place to go on in the short run, the long one goes on
there. -/
theorem nextStatement_append {previous : Span} {ts : List Token}
    (tail : List Token) (h : ∃ t ∈ ts, t.kind = .punct .semicolon
      ∨ t.kind = .punct .rightBrace) :
    nextStatement previous (ts ++ tail)
      = ((nextStatement previous ts).1,
        (nextStatement previous ts).2 ++ tail) := by
  induction ts generalizing previous with
  | nil =>
      obtain ⟨t, ht, -⟩ := h
      exact absurd ht List.not_mem_nil
  | cons t ts ih =>
      rw [List.cons_append]
      unfold nextStatement
      split
      · rfl
      · rfl
      case h_3 h₁ h₂ =>
          obtain ⟨t', ht', hk⟩ := h
          rcases List.mem_cons.1 ht' with rfl | ht'
          · exact absurd hk (not_or.2 ⟨h₂, h₁⟩)
          · exact ih ⟨t', ht', hk⟩

/-- If there is none, the short run ends. -/
theorem nextStatement_eq_nil (previous : Span) {ts : List Token}
    (h : ¬ ∃ t ∈ ts, t.kind = .punct .semicolon
      ∨ t.kind = .punct .rightBrace) :
    (nextStatement previous ts).2 = [] := by
  induction ts generalizing previous with
  | nil => rfl
  | cons t ts ih =>
      simp only [List.mem_cons, not_exists, not_and] at h
      obtain ⟨h₂, h₁⟩ := not_or.1 (h t (.inl rfl))
      unfold nextStatement
      split
      case h_1 hk => exact absurd hk h₁
      case h_2 hk => exact absurd hk h₂
      case h_3 =>
          refine ih _ ?_
          rintro ⟨t', ht', hk⟩
          exact h t' (.inr ht') hk

theorem skipStatement_within_of_exists
    (h : ∃ t ∈ c.rest, t.kind = .punct .semicolon
      ∨ t.kind = .punct .rightBrace) :
    (c.within x).skipStatement = c.skipStatement.within x := by
  unfold skipStatement within
  simp only [nextStatement_append x.tail h]

theorem skipStatement_within (h : x.Sees c.skipStatement) :
    (c.within x).skipStatement = c.skipStatement.within x := by
  by_cases hplace : ∃ t ∈ c.rest, t.kind = .punct .semicolon
      ∨ t.kind = .punct .rightBrace
  · exact skipStatement_within_of_exists hplace
  · have hnil := nextStatement_eq_nil c.previous hplace
    obtain ⟨htail, -⟩ := h hnil
    unfold skipStatement within
    simp only [htail, List.append_nil]

theorem skipGroup_within (h : x.Sees c.skipGroup) :
    (c.within x).skipGroup = c.skipGroup.within x := by
  have hbehind : behindGroup 0 c.previous (c.rest ++ x.tail)
      = ((behindGroup 0 c.previous c.rest).1,
        (behindGroup 0 c.previous c.rest).2 ++ x.tail) := by
    by_cases hrest : (behindGroup 0 c.previous c.rest).2 = []
    · obtain ⟨htail, -⟩ := h hrest
      rw [htail, List.append_nil, List.append_nil]
    · exact behindGroup_append x.tail hrest
  unfold skipGroup within
  simp only [hbehind]

end Cursor

-- ========================================================= at the end

theorem Cursor.errors_blame {f : Fault} (hf : f ≠ .emptyStatement)
    (h : c.lastErrorAt ≠ some s.start) :
    (c.blame f s).errors = c.errors ++ [f.report.at s] := by
  unfold Cursor.blame Cursor.errors
  rw [if_neg h]
  simp [Cursor.note, isError_report hf]

theorem Cursor.IsFair.errors_eq_nil (h : c.IsFair)
    (hc : c.lastErrorAt = none) : c.errors = [] :=
  List.filter_eq_nil_iff.2 (List.any_eq_false.1 (h.1 hc))

namespace AtEnd

theorem kind (h : AtEnd x c) : c.kind = .endOfInput := by
  unfold Cursor.kind
  rw [h.rest]

theorem here (h : AtEnd x c) : c.here = c.endOfInput := by
  unfold Cursor.here
  rw [h.rest]

/-- A cursor without a token and without an error. -/
theorem of_clean (hrest : c.rest = []) (hfair : c.IsFair)
    (hclean : c.lastErrorAt = none) : AtEnd x c :=
  ⟨hrest, .inl ⟨hfair.errors_eq_nil hclean, hclean⟩⟩

/-- The first error at the end is the only one. -/
theorem blame (h : AtEnd x c) {f : Fault} (hf : x.Blames f) :
    AtEnd x (c.blame f c.here) := by
  rw [h.here]
  rcases h.errors with ⟨herrors, hclean⟩ | ⟨g, hg, herrors, hlast⟩
  · have hne : f ≠ .emptyStatement := by
      rcases hf with ⟨what, found, rfl⟩ | ⟨rfl, -⟩ <;> simp
    have hfirst : c.lastErrorAt ≠ some c.endOfInput.start := by
      simp [hclean]
    have herrors := (Cursor.errors_blame hne hfirst).trans
      (congrArg (· ++ [f.report.at c.endOfInput]) herrors)
    unfold Cursor.blame at herrors ⊢
    rw [if_neg hfirst] at herrors ⊢
    exact ⟨h.rest, .inr ⟨f, hf, herrors, rfl⟩⟩
  · unfold Cursor.blame
    rw [if_pos hlast]
    exact h

end AtEnd

end Script.Tree
