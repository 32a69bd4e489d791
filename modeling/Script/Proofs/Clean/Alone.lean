/-
Files that include nothing. Each line is read once, in order, and so the
history is the lines of the file, and what they leave is put together as it
comes, with an origin for each of them.
-/
import Script.Proofs.Clean.Unchanged
import Script.Proofs.Places.Columns

namespace Script.Clean

open Script.Action Text

-- =============================================================== lines

/-- Where a line of a text is: behind the lines in front of it, which all
end with a line break. -/
theorem linesFrom_split {number start : Nat} {body text : List Char}
    {front back : List Line} {l : Line}
    (h : linesFrom number start body text = front ++ l :: back) :
    l.number = number + front.length
      ∧ l.start = start + byteLength (front.flatMap Line.written)
      ∧ ∀ l' ∈ front, l'.broken = true := by
  induction text generalizing number start body front with
  | nil =>
      unfold linesFrom at h
      split at h
      · simp at h
      · cases front with
        | nil =>
            obtain ⟨rfl, -⟩ := List.cons.inj h
            exact ⟨rfl, rfl, List.forall_mem_nil _⟩
        | cons => simp at h
  | cons c cs ih =>
      by_cases hc : c = '\n'
      · rw [linesFrom_break _ _ _ hc] at h
        cases front with
        | nil =>
            obtain ⟨rfl, -⟩ := List.cons.inj h
            exact ⟨rfl, rfl, List.forall_mem_nil _⟩
        | cons l' front =>
            obtain ⟨rfl, hrest⟩ := List.cons.inj h
            obtain ⟨hnumber, hstart, hbroken⟩ := ih hrest
            refine ⟨?_, ?_, List.forall_mem_cons.2 ⟨rfl, hbroken⟩⟩
            · rw [hnumber, List.length_cons]
              omega
            · have hbreak : byteLength ['\n'] = 1 := rfl
              rw [hstart, List.flatMap_cons, byteLength_append, Line.written,
                if_pos rfl, byteLength_append, byteLength_reverse, hbreak]
              omega
      · rw [linesFrom_char _ _ _ hc] at h
        exact ih h

theorem lines_split {text : List Char} {front back : List Line} {l : Line}
    (h : lines text = front ++ l :: back) :
    l.number = front.length + 1
      ∧ l.start = byteLength (front.flatMap Line.written)
      ∧ ∀ l' ∈ front, l'.broken = true := by
  obtain ⟨hnumber, hstart, hbroken⟩ := linesFrom_split h
  exact ⟨by omega, by omega, hbroken⟩

-- =============================================================== a run

/-- What a source line leaves in the cleaned text, with its line break. -/
def Made.left (m : Made) : List Char :=
  m.text ++ if m.line.broken then ['\n'] else []

/-- A line that asks for no file, whatever conditionals are open. -/
theorem pasteOf?_eq_none {line : Line} (h : pasteOf? [] line = none)
    (conditionals : List Conditional) : pasteOf? conditionals line = none := by
  unfold pasteOf? at h ⊢
  split at h
  case h_2 => rfl
  case h_1 =>
      split at h
      · cases h
      · rfl

/-- A text of which no line asks for a file, comments aside. -/
def IncludesNothing (text : String) : Prop :=
  ∀ blanked, blankComments text.toList = .ok blanked →
    ∀ l ∈ lines blanked, pasteOf? [] l = none

/-- Lines that ask for no file are the history of their own. -/
theorem foldlM_alone {file : FileId}
    {splice : List Char → Span → Cleaning Unit}
    (pasted : List Char → State → List Made) {ls : List Line}
    (halone : ∀ l ∈ ls, pasteOf? [] l = none)
    {before after : List Conditional} {s s' : State}
    (h : ls.foldlM (cleanLine file splice) before s = .ok after s') :
    let made := madeLines file splice pasted before ls s
    made.map (·.line) = ls ∧ (∀ m ∈ made, m.file = file)
      ∧ s'.draft.text = s.draft.text ++ made.flatMap Made.left
      ∧ s'.draft.origins.toList
        = s.draft.origins.toList ++ made.map Made.origin := by
  induction ls generalizing before s with
  | nil =>
      obtain ⟨-, rfl⟩ := pure_ok.1 h
      simp [madeLines]
  | cons line ls ih =>
      obtain ⟨hline, hls⟩ := List.forall_mem_cons.1 halone
      rw [List.foldlM_cons, bind_ok] at h
      obtain ⟨between, t, hfirst, hrest⟩ := h
      obtain ⟨hlines, hfile, htext, horigins⟩ := ih hls hrest
      have hnone := pasteOf?_eq_none hline before
      simp only [madeLines, hfirst, madeLine, hnone]
      rcases cleanLine_ok hfirst with
        ⟨rest, span, hpaste, -⟩ | ⟨-, ms, rfl, -⟩
      · rw [hnone] at hpaste
        cases hpaste
      · refine ⟨congrArg _ hlines, List.forall_mem_cons.2 ⟨rfl, hfile⟩,
          ?_, ?_⟩
        · rw [htext, Draft.text_addLine]
          simp [Made.left]
        · rw [horigins]
          simp [Draft.addLine]

/-- What cleaning a file that includes nothing puts together. -/
theorem cleanFile_alone {file : FileId} {resolver : Resolver} {deeper : Nat}
    {s s' : State} {f : SourceFile} (hf : s.sources.get? file = some f)
    (halone : IncludesNothing f.text)
    (h : cleanFile resolver deeper [] file s = .ok () s') :
    ∃ blanked, blankComments f.text.toList = .ok blanked
      ∧ let made := madeFile resolver deeper [] file s
        made.map (·.line) = lines blanked ∧ (∀ m ∈ made, m.file = file)
          ∧ s'.draft.text = s.draft.text ++ made.flatMap Made.left
          ∧ s'.draft.origins.toList
            = s.draft.origins.toList ++ made.map Made.origin := by
  obtain ⟨source, blanked, t, hsource, hblanked, hlines, rfl⟩ :=
    cleanFile_ok h
  obtain rfl := Option.some.inj (hf.symm.trans hsource)
  refine ⟨blanked, hblanked, ?_⟩
  rw [madeFile_eq hf hblanked]
  exact foldlM_alone _ (halone blanked hblanked) hlines

end Script.Clean
