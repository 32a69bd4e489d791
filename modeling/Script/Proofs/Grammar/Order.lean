/-
The tokens of a text stand one behind the other: each is a run of bytes
of its own, with one end of input behind them all. This is what lets the
span of a tree be told from its first and its last token alone.
-/
import Script.Proofs.Grammar.Basic
import Script.Proofs.Words.Splits

namespace Script

-- =============================================================== spans

namespace Span

/-- Whether a span starts and ends in front of another one. -/
def Before (a b : Span) : Prop :=
  a.file = b.file ∧ a.start < b.start ∧ a.stop ≤ b.start

theorem join_of_le {a b : Span} (hstart : a.start ≤ b.start)
    (hstop : a.stop ≤ b.stop) : a.join b = between a.file a.start b.stop := by
  unfold join
  rw [Nat.min_eq_left hstart, Nat.max_eq_right hstop]

theorem between_start_stop (a : Span) : between a.file a.start a.stop = a := by
  simp [between, stop]

theorem join_self (a : Span) : a.join a = a := by
  rw [join_of_le (Nat.le_refl _) (Nat.le_refl _), between_start_stop]

end Span

namespace Grammar

/-- Tokens that stand one behind the other. -/
def Ordered (ts : List Token) : Prop :=
  ts.Pairwise fun s t => s.span.Before t.span

theorem Ordered.of_append {l r : List Token} (h : Ordered (l ++ r)) :
    Ordered l ∧ Ordered r :=
  ⟨(List.pairwise_append.1 h).1, (List.pairwise_append.1 h).2.1⟩

@[simp] theorem lastSpan_append (before : Span) (l r : List Token) :
    lastSpan before (l ++ r) = lastSpan (lastSpan before l) r := by
  induction l generalizing before with
  | nil => rfl
  | cons t ts ih => exact ih t.span

@[simp] theorem cover_singleton (t : Token) : cover [t] = t.span :=
  t.span.join_self

theorem cover_between (t u : Token) (ts : List Token) :
    cover (t :: (ts ++ [u])) = t.span.join u.span := by
  show t.span.join (lastSpan t.span (ts ++ [u])) = _
  rw [lastSpan_append]
  rfl

/-- The last span of a run is that of one of its tokens. -/
theorem lastSpan_mem (t : Token) (ts : List Token) :
    ∃ u ∈ t :: ts, lastSpan t.span ts = u.span := by
  induction ts generalizing t with
  | nil => exact ⟨t, List.mem_cons_self .., rfl⟩
  | cons t' ts ih =>
      obtain ⟨u, hu, h⟩ := ih t'
      exact ⟨u, List.mem_cons_of_mem t hu, h⟩

theorem lastSpan_bounds {t : Token} {ts : List Token}
    (h : Ordered (t :: ts)) :
    t.span.start ≤ (lastSpan t.span ts).start
      ∧ t.span.stop ≤ (lastSpan t.span ts).stop := by
  obtain ⟨u, hu, hlast⟩ := lastSpan_mem t ts
  rw [hlast]
  rcases List.mem_cons.1 hu with rfl | hu
  · exact ⟨Nat.le_refl _, Nat.le_refl _⟩
  · obtain ⟨-, hstart, hstop⟩ := List.rel_of_pairwise_cons h hu
    have := u.span.start_le_stop
    omega

/-- The span of tokens in order, from the first start to the last
stop. -/
theorem cover_eq {t : Token} {ts : List Token} (h : Ordered (t :: ts)) :
    cover (t :: ts)
      = .between t.span.file t.span.start (lastSpan t.span ts).stop :=
  Span.join_of_le (lastSpan_bounds h).1 (lastSpan_bounds h).2

/-- The spans of two runs together cover what stands between them. -/
theorem cover_join {l r : List Token} (m : List Token)
    (h : Ordered (l ++ (m ++ r))) (hl : l ≠ []) (hr : r ≠ []) :
    (cover l).join (cover r) = cover (l ++ (m ++ r)) := by
  obtain ⟨t, ts, rfl⟩ := List.exists_cons_of_ne_nil hl
  obtain ⟨u, us, rfl⟩ := List.exists_cons_of_ne_nil hr
  obtain ⟨v, hv, hlast⟩ := lastSpan_mem t ts
  have hl := h.of_append.1
  have hr := h.of_append.2.of_append.2
  obtain ⟨-, -, hvu⟩ :=
    (List.pairwise_append.1 h).2.2 v hv u (by simp)
  obtain ⟨-, htu, htu'⟩ :=
    (List.pairwise_append.1 h).2.2 t (List.mem_cons_self ..) u (by simp)
  obtain ⟨huw, huw'⟩ := lastSpan_bounds hr
  have htv := (lastSpan_bounds hl).2
  have hu := u.span.start_le_stop
  have ht := t.span.start_le_stop
  rw [List.cons_append] at h ⊢
  rw [cover_eq h, cover_eq hl, cover_eq hr]
  rw [hlast] at *
  simp only [lastSpan_append, lastSpan]
  rw [Span.join_of_le]
  · rw [Span.stop_between (by omega)]
    rfl
  · show t.span.start ≤ u.span.start
    omega
  · rw [Span.stop_between (by omega), Span.stop_between (by omega)]
    omega

-- ============================================== the tokens of a text

end Grammar

namespace Token

open Grammar

/-- The tokens behind an offset of a file: others in order, and the end
of input behind them. -/
structure Complete (file : FileId) (offset : Nat) (ts : List Token) :
    Prop where
  ordered : Ordered ts
  behind : ∀ t ∈ ts, t.span.file = file ∧ offset ≤ t.span.start
  closed : ∃ body last, ts = body ++ [last] ∧ last.kind = .endOfInput
    ∧ ∀ t ∈ body, t.kind ≠ .endOfInput

/-- No character stands for the end of input. -/
theorem outcome_lexemeAt (c : Char) (cs : List Char) :
    (lexemeAt c cs).outcome ≠ .ok .endOfInput := by
  have hequals (one two : Operator) :
      (withEquals cs one two).outcome ≠ .ok .endOfInput := by
    unfold withEquals
    split <;> simp [Lexeme.plain]
  have hdoubled (c : Char) (o : Operator) :
      (doubled c cs o).outcome ≠ .ok .endOfInput := by
    unfold doubled
    split <;> simp [Lexeme.plain, Lexeme.faulty]
  have hstring : (stringLexeme cs).outcome ≠ .ok .endOfInput := by
    unfold stringLexeme
    dsimp only
    split <;> simp
  have hnumber : (numberLexeme c cs).outcome ≠ .ok .endOfInput := by
    unfold numberLexeme
    dsimp only
    split
    · split <;> simp [Lexeme.plain, Lexeme.faulty]
    · split <;> simp [Lexeme.plain, Lexeme.faulty]
    · simp [Lexeme.faulty]
  have hword : (wordLexeme c cs).outcome ≠ .ok .endOfInput := by
    unfold wordLexeme
    dsimp only
    split <;> simp [Lexeme.plain]
  unfold lexemeAt
  split
  case h_18 => exact hstring
  case h_19 =>
      split
      · exact hnumber
      · split
        · exact hword
        · simp [Lexeme.faulty]
  all_goals first
    | exact hequals _ _
    | exact hdoubled _ _
    | simp [Lexeme.plain]

/-- The tokens of one lexeme: at most one, which covers the lexeme. -/
theorem tokens_items (file : FileId) (offset : Nat) (c : Char)
    (l : Lexeme) (hl : l.outcome ≠ .ok .endOfInput) :
    (l.items file offset c).filterMap Item.token? = []
      ∨ ∃ t, (l.items file offset c).filterMap Item.token? = [t]
        ∧ t.kind ≠ .endOfInput
        ∧ t.span = ⟨file, offset, Text.byteLength (c :: l.tail)⟩ := by
  have hreports (f : Nat × Char → Item) (hf : ∀ p, (f p).token? = none) :
      (l.strays.map f).filterMap Item.token? = [] := by
    rw [List.filterMap_map]
    exact List.filterMap_eq_nil_iff.2 fun p _ => hf p
  unfold Lexeme.items
  dsimp only
  rw [List.filterMap_append, hreports _ fun _ => rfl, List.nil_append]
  cases hk : l.outcome with
  | ok k => exact .inr ⟨_, rfl, fun h => hl (hk.trans (congrArg _ h)), rfl⟩
  | error f => exact .inl rfl

/-- A token in front of the tokens behind it. -/
theorem Complete.cons {file : FileId} {offset stop : Nat} {t : Token}
    {ts : List Token} (h : Complete file stop ts)
    (hkind : t.kind ≠ .endOfInput) (hfile : t.span.file = file)
    (hstart : t.span.start = offset) (hlt : offset < stop)
    (hstop : t.span.stop = stop) : Complete file offset (t :: ts) := by
  refine ⟨List.pairwise_cons.2 ⟨fun u hu => ?_, h.ordered⟩, ?_, ?_⟩
  · obtain ⟨hu, hle⟩ := h.behind u hu
    exact ⟨hfile.trans hu.symm, by omega, by omega⟩
  · intro u hu
    rcases List.mem_cons.1 hu with rfl | hu
    · exact ⟨hfile, by omega⟩
    · obtain ⟨hu, hle⟩ := h.behind u hu
      exact ⟨hu, by omega⟩
  · obtain ⟨body, last, rfl, hlast, hbody⟩ := h.closed
    exact ⟨t :: body, last, rfl, hlast, List.forall_mem_cons.2 ⟨hkind, hbody⟩⟩

theorem Complete.mono {file : FileId} {offset offset' : Nat}
    {ts : List Token} (h : Complete file offset ts)
    (hle : offset' ≤ offset) : Complete file offset' ts :=
  ⟨h.ordered, fun t ht =>
    ⟨(h.behind t ht).1, Nat.le_trans hle (h.behind t ht).2⟩, h.closed⟩

/-- The tokens that are found in a text are complete. -/
theorem Scanned.complete {file : FileId} {offset : Nat} {cs : List Char}
    {items : List Item} (h : Scanned file offset cs items) :
    Complete file offset (items.filterMap Item.token?) := by
  induction h with
  | @done offset =>
      refine ⟨List.pairwise_singleton .., ?_, [], endOfInput file offset,
        rfl, rfl, fun _ h => absurd h List.not_mem_nil⟩
      intro t ht
      obtain rfl := List.mem_singleton.1 ht
      exact ⟨rfl, Nat.le_refl _⟩
  | space _ _ ih => exact ih.mono (Nat.le_add_right ..)
  | @lexeme offset c l rest items _ hl _ ih =>
      have hend : l.outcome ≠ .ok .endOfInput :=
        hl ▸ outcome_lexemeAt c (l.tail ++ rest)
      rw [List.filterMap_append]
      rcases tokens_items file offset c l hend with h | ⟨t, h, hkind, hspan⟩
      · rw [h]
        exact ih.mono (Nat.le_add_right ..)
      · rw [h]
        have hc := c.utf8Size_pos
        refine ih.cons hkind (congrArg Span.file hspan)
          (congrArg Span.start hspan) ?_ (congrArg Span.stop hspan)
        rw [Text.byteLength_cons]
        omega

/-- The tokens of a text are complete. -/
theorem ofText_complete (file : FileId) (text : String) :
    Complete file 0 (ofText file text).1 :=
  (scanned_scan file text).complete

end Token

end Script
