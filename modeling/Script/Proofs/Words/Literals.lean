/-
String literals, written from the text that they stand for: the characters
with an escape by their escapes, the others as they are. Whatever the text,
its literal is read as that text, and cleaning has let it through as it is.

Both readers go through the literal one character of the text at a time,
and neither stops in between: what is written for a character is never a
quote alone, and never a line break. So no comment begins in it, it is one
line, and the quote in front keeps that line from being a directive.
-/
import Script.Proofs.Clean.Unchanged
import Script.Proofs.Words.Splits

namespace Script

open Spelling Text

-- ============================================================== writing

namespace Spelling

/-- A character between quotes: its escape, if it has one. -/
def encodeChar (c : Char) : List Char :=
  match escapes.find? (·.2 = c) with
  | some (e, _) => ['\\', e]
  | none => [c]

/-- A text between quotes. -/
def encode (cs : List Char) : List Char := cs.flatMap encodeChar

/-- A text as a string literal. -/
def literal (s : String) : String :=
  .ofList ('"' :: (encode s.toList ++ ['"']))

example : literal "a\n\"é\\\" // #\x00"
    = "\"a\\n\\\"é\\\\\\\" // #\\0\"" := by
  decide +kernel

/-- A character is written by its escape, or it has none. -/
theorem encodeChar_cases (c : Char) :
    (∃ e, Token.unescape? e = some c ∧ e ≠ '\n' ∧ encodeChar c = ['\\', e])
      ∨ (c ∉ ['"', '\\', '\n'] ∧ encodeChar c = [c]) := by
  unfold encodeChar
  cases hfind : escapes.find? (·.2 = c) with
  | some p =>
      obtain ⟨e, d⟩ := p
      obtain rfl : d = c := by simpa using List.find?_some hfind
      have he := Token.unescape?_eq_some.2 (List.mem_of_find?_eq_some hfind)
      refine .inl ⟨e, he, ?_, rfl⟩
      rintro rfl
      cases he
  | none =>
      refine .inr ⟨?_, rfl⟩
      have hnone := List.find?_eq_none.1 hfind
      simp only [List.mem_cons, List.not_mem_nil, or_false]
      rintro (rfl | rfl | rfl)
      · exact hnone ('"', '"') (by decide) (by decide)
      · exact hnone ('\\', '\\') (by decide) (by decide)
      · exact hnone ('n', '\n') (by decide) (by decide)

/-- A literal has no line break in it. -/
theorem newline_not_mem_encode (cs : List Char) : '\n' ∉ encode cs := by
  unfold encode
  simp only [List.mem_flatMap, not_exists, not_and]
  intro c _
  rcases encodeChar_cases c with ⟨e, -, he, h⟩ | ⟨hc, h⟩
  · rw [h]
    simp [he.symm]
  · rw [h]
    simp only [List.mem_cons, List.not_mem_nil, or_false, not_or] at hc ⊢
    exact hc.2.2 ∘ Eq.symm

end Spelling

-- ============================================================== reading

namespace Token

/-- What is written between quotes is read as the text. -/
theorem read_encode (offset : Nat) (cs rest : List Char) :
    StringBody.read offset (encode cs ++ '"' :: rest)
      = ⟨encode cs ++ ['"'], cs, [], true⟩ := by
  induction cs generalizing offset with
  | nil => rfl
  | cons c cs ih =>
      have hcons : encode (c :: cs) = encodeChar c ++ encode cs := rfl
      rw [hcons]
      rcases encodeChar_cases c with ⟨e, he, hline, h⟩ | ⟨hc, h⟩
      · rw [h, List.append_assoc, List.cons_append, List.cons_append,
          List.nil_append, StringBody.read.eq_6 _ _ _ hline, ih, he]
        rfl
      · rw [h, List.append_assoc, List.cons_append, List.nil_append,
          read_plain hc, ih]
        rfl

/-- A literal is one token. -/
theorem ofText_literal (file : FileId) (s : String) :
    ofText file (literal s)
      = ([⟨.string s, literal s, ⟨file, 0, (literal s).utf8ByteSize⟩⟩,
          .endOfInput file (literal s).utf8ByteSize], []) := by
  have hlexeme : lexemeAt '"' (encode s.toList ++ ['"'])
      = ⟨encode s.toList ++ ['"'], .ok (.string s), []⟩ := by
    show stringLexeme _ = _
    unfold stringLexeme
    rw [read_encode]
    simp
  have hscan : scan file (literal s)
      = [.token ⟨.string s, literal s, ⟨file, 0, (literal s).utf8ByteSize⟩⟩,
        .token (.endOfInput file (literal s).utf8ByteSize)] := by
    unfold scan
    rw [utf8ByteSize_eq]
    unfold literal
    rw [String.toList_ofList, scanFrom_lexeme rfl, hlexeme, List.drop_length,
      scanFrom, Nat.zero_add]
    rfl
  unfold ofText
  rw [hscan]
  rfl

end Token

-- ============================================================= cleaning

namespace Clean

/-- What is written for a character stays, and the literal goes on. -/
theorem blankCommentsFrom_encodeChar (offset : Nat) (done : List Char)
    (c : Char) (behind : List Char) :
    ∃ next, blankCommentsFrom offset .string done (encodeChar c ++ behind)
      = blankCommentsFrom next .string ((encodeChar c).reverse ++ done)
        behind := by
  rcases encodeChar_cases c with ⟨e, -, hline, h⟩ | ⟨hc, h⟩
  · obtain ⟨next, hnext⟩ :=
      blankCommentsFrom_cons offset .string done '\\' (e :: behind)
    have hpiece : pieceAt offset .string '\\' (e :: behind)
        = ⟨true, [e, '\\'], .string⟩ := by
      unfold pieceAt
      split <;> simp_all
    rw [hpiece] at hnext
    rw [h]
    exact ⟨next, hnext⟩
  · simp only [List.mem_cons, List.not_mem_nil, or_false, not_or] at hc
    obtain ⟨hquote, hbackslash, hline⟩ := hc
    rw [h]
    refine blankCommentsFrom_keep (fun d hd offset ds => ?_) offset done behind
    obtain rfl := List.mem_singleton.1 hd
    unfold pieceAt
    split <;> simp_all

theorem blankCommentsFrom_encode (offset : Nat)
    (done cs behind : List Char) :
    ∃ next, blankCommentsFrom offset .string done (encode cs ++ behind)
      = blankCommentsFrom next .string ((encode cs).reverse ++ done)
        behind := by
  induction cs generalizing offset done with
  | nil => exact ⟨offset, rfl⟩
  | cons c cs ih =>
      have hcons : encode (c :: cs) = encodeChar c ++ encode cs := rfl
      rw [hcons, List.append_assoc, List.reverse_append, List.append_assoc]
      obtain ⟨next, hfirst⟩ :=
        blankCommentsFrom_encodeChar offset done c (encode cs ++ behind)
      rw [hfirst]
      exact ih next _

/-- No comment begins in a literal. -/
theorem blankComments_literal (s : String) :
    blankComments (literal s).toList = .ok (literal s).toList := by
  unfold literal
  rw [String.toList_ofList]
  unfold blankComments
  obtain ⟨next, hopening⟩ :=
    blankCommentsFrom_cons 0 .code [] '"' (encode s.toList ++ ['"'])
  refine hopening.trans ?_
  obtain ⟨next', hbody⟩ :=
    blankCommentsFrom_encode next ['"'] s.toList ['"']
  refine hbody.trans ?_
  simp [blankCommentsFrom]

/-- A text without a line break is one line. -/
theorem lines_of_newline_not_mem {c : Char} {cs : List Char}
    (h : '\n' ∉ c :: cs) : lines (c :: cs) = [⟨1, 0, c :: cs, false⟩] := by
  have hfrom (body : List Char) {cs : List Char} (hbody : body ≠ [])
      (hcs : '\n' ∉ cs) :
      linesFrom 1 0 body cs = [⟨1, 0, body.reverse ++ cs, false⟩] := by
    induction cs generalizing body with
    | nil => simp [linesFrom, hbody]
    | cons d cs ih =>
        rw [List.mem_cons, not_or] at hcs
        rw [linesFrom_char 1 0 body (Ne.symm hcs.1),
          ih _ (List.cons_ne_nil _ _) hcs.2]
        simp
  rw [List.mem_cons, not_or] at h
  unfold lines
  rw [linesFrom_char 1 0 [] (Ne.symm h.1),
    hfrom [c] (List.cons_ne_nil _ _) h.2]
  rfl

/-- A literal is a line that is no directive. -/
theorem hashLine?_literal (s : String) :
    ∀ l ∈ lines (literal s).toList, hashLine? l.body = none := by
  have hnewline : '\n' ∉ '"' :: (encode s.toList ++ ['"']) := by
    simp [newline_not_mem_encode]
  unfold literal
  rw [String.toList_ofList, lines_of_newline_not_mem hnewline]
  intro l hl
  rw [List.mem_singleton.1 hl]
  rfl

end Clean

/-- The literal of a text is not changed by cleaning, and it is read as one
token that stands for the text. -/
theorem cleanText_literal (file : FileId) (s : String) :
    cleanText (literal s) = .ok (literal s)
      ∧ Token.ofText file (literal s)
        = ([⟨.string s, literal s, ⟨file, 0, (literal s).utf8ByteSize⟩⟩,
            .endOfInput file (literal s).utf8ByteSize], []) :=
  ⟨cleanText_eq_self (Clean.blankComments_literal s)
    (Clean.hashLine?_literal s), Token.ofText_literal file s⟩

end Script
