/-
Texts that cleaning leaves as they are: those with no comment in them and
no line that is a directive. Macros are defined by directives only, so in
such a text there are none, and each line is what it was.
-/
import Script.Proofs.Pasting.Pasted

namespace Script

namespace Clean

variable (file : FileId) (splice : List Char → Span → Cleaning Unit)

/-- A line with the break that ends it. -/
def Line.written (l : Line) : List Char :=
  l.body ++ if l.broken then ['\n'] else []

/-- A text is its lines. -/
theorem flatMap_linesFrom (number start : Nat) (body text : List Char) :
    (linesFrom number start body text).flatMap Line.written
      = body.reverse ++ text := by
  induction text generalizing number start body with
  | nil =>
      unfold linesFrom
      split
      case isTrue h => rw [List.isEmpty_iff.1 h]; rfl
      case isFalse => simp [Line.written]
  | cons c cs ih =>
      by_cases hc : c = '\n'
      · rw [linesFrom_break _ _ _ hc, List.flatMap_cons, ih, hc]
        simp [Line.written]
      · rw [linesFrom_char _ _ _ hc, ih]
        simp

theorem flatMap_lines (text : List Char) :
    (lines text).flatMap Line.written = text :=
  flatMap_linesFrom 1 0 [] text

/-- Where there are no macros, a line that is no directive stays. -/
theorem cleanLine_plain {line : Line} {s : State}
    (h : hashLine? line.body = none) (hs : s.macros = []) :
    ∃ origin, cleanLine file splice [] line s
      = .ok [] { s with
          draft := s.draft.addLine line.body line.broken origin } := by
  obtain ⟨sources, macros, draft, includes⟩ := s
  obtain rfl : macros = [] := hs
  unfold cleanLine
  dsimp only
  rw [h]
  exact ⟨_, rfl⟩

theorem foldlM_plain {ls : List Line}
    (h : ∀ l ∈ ls, hashLine? l.body = none) {s : State}
    (hs : s.macros = []) :
    ∃ t, ls.foldlM (cleanLine file splice) [] s = .ok [] t
      ∧ t.draft.text = s.draft.text ++ ls.flatMap Line.written := by
  induction ls generalizing s with
  | nil => exact ⟨s, rfl, (List.append_nil _).symm⟩
  | cons l ls ih =>
      obtain ⟨hl, hls⟩ := List.forall_mem_cons.1 h
      obtain ⟨origin, hline⟩ := cleanLine_plain file splice hl hs
      obtain ⟨t, hrun, htext⟩ := ih hls (s := { s with
        draft := s.draft.addLine l.body l.broken origin }) hs
      refine ⟨t, ?_, ?_⟩
      · rw [List.foldlM_cons, Action.bind_of_ok hline, hrun]
      · rw [htext, Draft.text_addLine, List.flatMap_cons]
        simp only [Line.written, List.append_assoc]

end Clean

open Clean

/-- A text without comments and directives is not changed. -/
theorem cleanText_eq_self {text : String}
    (hblanked : blankComments text.toList = .ok text.toList)
    (hplain : ∀ l ∈ lines text.toList, hashLine? l.body = none) :
    cleanText text = .ok text := by
  obtain ⟨t, hrun, htext⟩ := foldlM_plain
    (Sources.empty.add "<input>" text).1
    (spliceInside (fun _ _ => none) (maxOpenFiles - 1) ["<input>"])
    hplain (s := .start (Sources.empty.add "<input>" text).2) rfl
  have hentry : cleanEntry .empty "<input>" text (fun _ _ => none)
      = .ok () t := by
    rw [cleanEntry_of_ok hblanked, Action.bind_of_ok hrun]
    rfl
  have htexts := Cleaned.texts_of_ok hentry
  rw [htext, flatMap_lines] at htexts
  unfold Cleaned.texts at htexts
  unfold cleanText
  dsimp only at htexts ⊢
  generalize Cleaned.ofFile (Sources.empty.add "<input>" text).2
    (Sources.empty.add "<input>" text).1 (fun _ _ => none) = r at htexts ⊢
  obtain ⟨r, sources⟩ := r
  cases r with
  | error e => cases htexts
  | ok cleaned =>
      have hsame := congrArg Prod.fst (Except.ok.inj htexts)
      exact congrArg Except.ok (hsame.trans String.ofList_toList)

end Script
