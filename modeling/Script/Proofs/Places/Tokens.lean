/-
The spans of tokens, and of the reports about a text. Lexemes are cut off
one behind the other, and each takes no more than what is left of the
text, so their spans lie in the file. A stray escape lies in the string
that it was found in.
-/
import Script.Proofs.Places.Lines
import Script.Proofs.Reading.Spanned
import Script.Proofs.Words.Splits

namespace Script

open Text

/-- A span in a file of some size. -/
def Span.Inside (file : FileId) (size : Nat) (s : Span) : Prop :=
  s.file = file ∧ s.stop ≤ size

namespace Span

variable {file : FileId} {size : Nat}

/-- A span that covers two spans in a file is in it. -/
theorem joinClosed_inside : Tree.JoinClosed (Inside file size) := by
  rintro a b ⟨hfile, ha⟩ ⟨-, hb⟩
  refine ⟨hfile, ?_⟩
  rw [stop_join]
  exact Nat.max_le.2 ⟨ha, hb⟩

theorem inside_point {offset : Nat} (h : offset ≤ size) :
    Inside file size (.point file offset) := ⟨rfl, h⟩

theorem Inside.start_le {s : Span} (h : Inside file size s) :
    s.start ≤ size :=
  Nat.le_trans s.start_le_stop h.2

end Span

namespace Token

-- ============================================================= escapes

/-- An unknown escape lies in the characters that were taken. -/
theorem strays_read (offset : Nat) (cs : List Char) :
    ∀ p ∈ (StringBody.read offset cs).strays,
      p.1 + 1 + p.2.utf8Size
        ≤ offset + byteLength (StringBody.read offset cs).taken := by
  have hslash : '\\'.utf8Size = 1 := rfl
  fun_induction StringBody.read offset cs with
  | case1 | case2 | case3 | case4 | case5 => exact List.forall_mem_nil _
  | case6 offset c cs _ body taken _ _ ih =>
      intro p hp
      have := ih p hp
      simp only [taken, body, byteLength_cons]
      omega
  | case7 offset c cs _ body taken _ ih =>
      refine List.forall_mem_cons.2 ⟨?_, fun p hp => ?_⟩
      · simp only [taken, byteLength_cons]
        omega
      · have := ih p hp
        simp only [taken, body, byteLength_cons]
        omega
  | case8 offset c cs _ _ _ _ _ body ih =>
      intro p hp
      have := ih p hp
      simp only [body, byteLength_cons]
      omega

/-- Only strings have escapes. -/
theorem strays_eq_nil {c : Char} (hc : c ≠ '"') (cs : List Char) :
    (lexemeAt c cs).strays = [] := by
  have hequals (one two : Operator) :
      (withEquals cs one two).strays = [] := by
    unfold withEquals
    split <;> rfl
  have hdoubled (c : Char) (o : Operator) :
      (doubled c cs o).strays = [] := by
    unfold doubled
    split <;> rfl
  have hnumber : (numberLexeme c cs).strays = [] := by
    obtain ⟨whole, fraction, e, behind, hparts⟩ := parts_exist cs
    rcases numberLexeme_cases (c := c) hparts with ⟨h, -⟩ | ⟨f, h, -⟩
    · rw [h]
      rfl
    · rw [h]
      rfl
  have hword : (wordLexeme c cs).strays = [] := by
    unfold wordLexeme
    dsimp only
    split <;> rfl
  unfold lexemeAt
  split
  case h_18 => exact absurd rfl hc
  case h_19 =>
      split
      · exact hnumber
      · split
        · exact hword
        · rfl
  all_goals first
    | rfl
    | exact hequals _ _
    | exact hdoubled _ _

/-- An unknown escape lies in its lexeme. -/
theorem strays_lexemeAt (c : Char) (cs : List Char) :
    ∀ p ∈ (lexemeAt c cs).strays,
      p.1 + 1 + p.2.utf8Size
        ≤ byteLength (c :: (lexemeAt c cs).tail) := by
  by_cases hc : c = '"'
  · subst hc
    exact strays_read 1 cs
  · rw [strays_eq_nil hc cs]
    exact List.forall_mem_nil _

-- =============================================================== items

/-- The span of what was found in a text. -/
def Item.span : Item → Span
  | .token t => t.span
  | .report d => d.span

/-- What was found at a place lies in the lexeme there. -/
theorem items_inside (file : FileId) (offset : Nat) {c : Char}
    {cs : List Char} {l : Lexeme} (hl : lexemeAt c cs = l) :
    ∀ i ∈ l.items file offset c,
      i.span.Inside file (offset + byteLength (c :: l.tail)) := by
  subst hl
  intro i hi
  rcases List.mem_append.1 hi with hi | hi
  · obtain ⟨p, hp, rfl⟩ := List.mem_map.1 hi
    have := strays_lexemeAt c cs p hp
    refine ⟨rfl, ?_⟩
    simp only [Item.span, Report.at, Span.stop]
    omega
  · rw [List.mem_singleton.1 hi]
    split <;> exact ⟨rfl, Nat.le_refl _⟩

/-- What is found in a text lies in it. -/
theorem Scanned.inside {file : FileId} {size offset : Nat} {cs : List Char}
    {items : List Item} (h : Scanned file offset cs items)
    (hsize : offset + byteLength cs = size) :
    ∀ i ∈ items, i.span.Inside file size := by
  induction h with
  | done =>
      intro i hi
      rw [List.mem_singleton.1 hi]
      exact Span.inside_point (Nat.le_of_eq hsize)
  | space _ _ ih => exact ih (by rw [← hsize, byteLength_cons, Nat.add_assoc])
  | @lexeme offset c l rest items _ hl _ ih =>
      rw [← List.cons_append, byteLength_append, ← Nat.add_assoc] at hsize
      refine List.forall_mem_append.2 ⟨fun i hi => ?_, ih hsize⟩
      obtain ⟨hfile, hle⟩ := items_inside file offset hl i hi
      exact ⟨hfile, by omega⟩

/-- Tokens lie in their file, and so do reports about it. -/
theorem ofText_inside (file : FileId) (text : String) :
    (∀ t ∈ (ofText file text).1, t.span.Inside file text.utf8ByteSize)
      ∧ ∀ d ∈ (ofText file text).2,
        d.span.Inside file text.utf8ByteSize := by
  have hscan := (scanned_scan file text).inside
    (by rw [← utf8ByteSize_eq, Nat.zero_add])
  exact ⟨fun t ht => hscan _ (mem_token.1 ht),
    fun d hd => hscan _ (mem_report.1 hd)⟩

end Token

end Script
