/-
Comments and tokens keep out of each other's way. Blanking and the lexer
each tell for themselves where a string literal ends, and they agree: what
blanking takes for a literal is what the lexer reads behind a quote, and
no other part of a text has a quote that is left.

So a lexeme takes one literal, or a run of code, and goes on into no
comment (`Scanned.apart`): a lexeme of code has no white space in it, and
white space is all that is left of a comment.
-/
import Script.Proofs.Comments.Parts
import Script.Proofs.Words.Joined

namespace Script

open Text

-- ============================================================== lexemes

namespace Token

open Spelling

theorem solid_of_mem_takeWhile {p : Char → Bool} {cs : List Char}
    (hp : ∀ c, p c = true → Solid c) : ∀ c ∈ cs.takeWhile p, Solid c :=
  fun c hc => hp c (List.mem_takeWhile_imp hc)

theorem solid_exponentAt (cs : List Char) :
    ∀ d ∈ (exponentAt cs).taken, Solid d := by
  have hsign (cs : List Char) : ∀ d ∈ signAt cs, Solid d := by
    unfold signAt
    split <;> simp [Solid, isSpace]
  have hdigit (d : Char) (hd : d.isDigit = true) : Solid d :=
    solid_of_inner (.inr (isDigit_iff.1 hd))
  cases cs with
  | nil => exact List.forall_mem_nil _
  | cons m cs =>
      unfold exponentAt
      dsimp only
      split
      case isFalse => exact List.forall_mem_nil _
      case isTrue hm =>
          have hm : Solid m := by
            have hm : m = 'e' ∨ m = 'E' := by simpa using hm
            rcases hm with rfl | rfl <;> simp [Solid, isSpace]
          split
          · exact List.forall_mem_append.2
              ⟨List.forall_mem_cons.2 ⟨hm, hsign cs⟩,
                solid_of_mem_takeWhile hdigit⟩
          · split
            · exact List.forall_mem_cons.2 ⟨hm, hsign cs⟩
            · exact List.forall_mem_singleton.2 hm

/-- A number has neither white space nor a quote in it, be it
malformed. -/
theorem solid_numberLexeme {c : Char} (hc : Digit c) (cs : List Char) :
    ∀ d ∈ (numberLexeme c cs).tail, Solid d := by
  obtain ⟨whole, fraction, e, behind, hparts⟩ := parts_exist cs
  have hnumber : ∀ d ∈ whole ++ fraction ++ e.taken, Solid d := by
    have hdigits : Digits (c :: whole) := by
      refine ⟨List.cons_ne_nil _ _, List.forall_mem_cons.2 ⟨hc, ?_⟩⟩
      rw [← hparts.whole]
      exact fun d hd => isDigit_iff.1 (List.mem_takeWhile_imp hd)
    have hfraction := fraction_fractionAt (fraction ++ (e.taken ++ behind))
    rw [hparts.fraction] at hfraction
    have hsolid := solid_numeral (.mk hdigits hfraction .absent)
    have he := solid_exponentAt (e.taken ++ behind)
    rw [hparts.exponent] at he
    rw [List.append_nil, List.cons_append] at hsolid
    exact List.forall_mem_append.2 ⟨(List.forall_mem_cons.1 hsolid).2, he⟩
  rcases numberLexeme_cases (c := c) hparts with ⟨h, -⟩ | ⟨f, h, -⟩
  · rw [h]
    exact hnumber
  · rw [h]
    refine List.forall_mem_append.2 ⟨hnumber, solid_of_mem_takeWhile ?_⟩
    intro d hd
    rcases Bool.or_eq_true_iff.1 hd with hd | hd
    · exact solid_of_inner (isWordChar_iff.1 hd)
    · rw [eq_of_beq hd]
      simp [Solid, isSpace]

/-- No white space is in a lexeme that is no string, and no quote. -/
theorem solid_tail {c : Char} (hc : c ≠ '"') (cs : List Char) :
    ∀ d ∈ (lexemeAt c cs).tail, Solid d := by
  have hequals (one two : Operator) :
      ∀ d ∈ (withEquals cs one two).tail, Solid d := by
    unfold withEquals
    split <;> simp [Lexeme.plain, Solid, isSpace]
  have hdoubled {c : Char} (hc : Solid c) (o : Operator) :
      ∀ d ∈ (doubled c cs o).tail, Solid d := by
    unfold doubled
    split
    · exact List.forall_mem_singleton.2 hc
    · exact List.forall_mem_nil _
  unfold lexemeAt
  split
  case h_18 => exact absurd rfl hc
  case h_19 =>
      split
      case isTrue h => exact solid_numberLexeme (isDigit_iff.1 h) cs
      case isFalse =>
          split
          · rw [wordLexeme_tail]
            exact solid_of_mem_takeWhile fun d hd =>
              solid_of_inner (isWordChar_iff.1 hd)
          · exact List.forall_mem_nil _
  all_goals first
    | exact List.forall_mem_nil _
    | exact hequals _ _
    | exact hdoubled (by simp [Solid, isSpace]) _

-- =============================================================== scans

variable {file : FileId} {offset : Nat} {c : Char} {cs : List Char}
  {items : List Item}

/-- White space in front of a text adds nothing to what is found. -/
theorem Scanned.of_spaces {spaces : List Char}
    (hspaces : ∀ c ∈ spaces, isSpace c = true)
    (h : Scanned file offset (spaces ++ cs) items) :
    Scanned file (offset + byteLength spaces) cs items := by
  induction spaces generalizing offset with
  | nil => exact h
  | cons c spaces ih =>
      obtain ⟨hc, hspaces⟩ := List.forall_mem_cons.1 hspaces
      rw [List.cons_append] at h
      generalize hrest : spaces ++ cs = rest at h
      cases h with
      | space _ h =>
          rw [byteLength_cons, ← Nat.add_assoc]
          exact ih hspaces (hrest ▸ h)
      | lexeme hc' => rw [hc] at hc'; cases hc'

/-- What is found in a text that does not begin with white space: what is
in its first lexeme, and what is behind it. -/
theorem Scanned.of_lexeme (hc : isSpace c = false)
    (h : Scanned file offset (c :: cs) items) :
    ∃ rest items', cs = (lexemeAt c cs).tail ++ rest
      ∧ items = (lexemeAt c cs).items file offset c ++ items'
      ∧ Scanned file (offset + byteLength (c :: (lexemeAt c cs).tail)) rest
        items' := by
  cases h with
  | space hc' => rw [hc] at hc'; cases hc'
  | @lexeme _ _ l rest items' _ hl h =>
      rw [hl]
      exact ⟨rest, items', rfl, rfl, h⟩

end Token

namespace Clean

open Token

variable {file : FileId} {offset : Nat} {text : List Char}
  {parts : List Part} {items : List Item}

-- =============================================================== parts

theorem isSpace_of_mem_cleared {c d : Char} (h : d ∈ cleared c) :
    isSpace d = true := by
  rcases mem_cleared h with rfl | rfl <;> rfl

/-- What is left begins with a line break where the text does. -/
theorem Parted.head_left (h : Parted text parts)
    (hhead : ∀ c ∈ text.head?, c = '\n') :
    ∀ c ∈ (parts.flatMap Part.left).head?, c = '\n' := by
  cases h with
  | nil => exact hhead
  | code => exact hhead
  | literal | lineComment | blockComment => cases hhead _ rfl

/-- Solid characters in front of what is left are code. -/
theorem Parted.run {word rest : List Char} (h : Parted text parts)
    (hword : ∀ c ∈ word, Solid c)
    (hleft : parts.flatMap Part.left = word ++ rest) :
    ∃ text' parts', Parted text' parts'
      ∧ parts = word.map .code ++ parts'
      ∧ parts'.flatMap Part.left = rest := by
  induction word generalizing text parts with
  | nil => exact ⟨text, parts, h, rfl, hleft⟩
  | cons c word ih =>
      obtain ⟨⟨hspace, hquote⟩, htail⟩ := List.forall_mem_cons.1 hword
      cases h with
      | nil => cases hleft
      | code _ _ h =>
          obtain ⟨rfl, hbehind⟩ := List.cons.inj hleft
          obtain ⟨text', parts', h', rfl, hrest⟩ := ih h htail hbehind
          exact ⟨text', parts', h', rfl, hrest⟩
      | literal => exact absurd (List.cons.inj hleft).1.symm hquote
      | lineComment | blockComment =>
          -- a comment leaves white space
          have hc : c ∈ cleared '/' := by
            obtain ⟨h, -⟩ := List.cons.inj hleft
            rw [← h]
            decide
          rw [isSpace_of_mem_cleared hc] at hspace
          cases hspace

end Clean

/-- Whether no byte of a span is in one of some spans. -/
def Span.ClearOf (s : Span) (spans : List Span) : Prop :=
  ∀ k ∈ spans, k.stop ≤ s.start ∨ s.stop ≤ k.start

namespace Clean

open Token

variable {file : FileId} {offset : Nat} {text : List Char}
  {parts : List Part} {items : List Item}

theorem Part.comments_code (file : FileId) (offset : Nat) (word : List Char)
    (parts : List Part) :
    comments file offset (word.map .code ++ parts)
      = comments file (offset + byteLength word) parts := by
  induction word generalizing offset with
  | nil => rfl
  | cons c word ih =>
      rw [byteLength_cons, ← Nat.add_assoc, ← ih]
      rfl

end Clean

namespace Token

open Clean

variable {file : FileId} {offset : Nat} {text : List Char}
  {parts : List Part} {items : List Item}

/-- Nothing is found in a comment. -/
theorem Scanned.of_comment {cs : List Char} (h : Scanned file offset
    ((Part.comment cs :: parts).flatMap Part.left) items) :
    Scanned file (offset + byteLength cs) (parts.flatMap Part.left)
      items := by
  rw [← byteLength_flatMap_cleared]
  refine of_spaces (fun c hc => ?_) h
  obtain ⟨d, -, hd⟩ := List.mem_flatMap.1 hc
  exact isSpace_of_mem_cleared hd

/-- The items of a lexeme are clear of the comments behind it. -/
theorem clearOf_items (file : FileId) (offset : Nat) (c : Char)
    (cs : List Char) (parts : List Part) :
    ∀ i ∈ (lexemeAt c cs).items file offset c,
      i.span.ClearOf (Part.comments file
        (offset + byteLength (c :: (lexemeAt c cs).tail)) parts) := by
  intro i hi k hk
  obtain ⟨-, hstop⟩ := items_inside file offset rfl i hi
  exact .inr (hstop.trans (Part.start_le_of_mem_comments hk))

/-- What is found in a text with its comments blanked is clear of them. -/
theorem Scanned.clearOf_comments (hparts : Parted text parts)
    (h : Scanned file offset (parts.flatMap Part.left) items) :
    ∀ i ∈ items, i.span.ClearOf (Part.comments file offset parts) := by
  induction hn : parts.length using Nat.strongRecOn
    generalizing offset text parts items with
  | ind n ih =>
  subst hn
  have hcomment {cs rest : List Char} {parts' : List Part}
      (hparts : parts = .comment cs :: parts') (h' : Parted rest parts') :
      ∀ i ∈ items, i.span.ClearOf (Part.comments file offset parts) := by
    subst hparts
    have hbehind := h.of_comment
    have hrest := ih _ (Nat.lt_succ_self _) h' hbehind rfl
    intro i hi
    exact List.forall_mem_cons.2 ⟨.inl (hbehind.from i hi).start, hrest i hi⟩
  cases hparts with
  | nil => exact fun _ _ _ hk => nomatch hk
  | lineComment _ _ h' => exact hcomment rfl h'
  | blockComment _ h' => exact hcomment rfl h'
  | @literal body rest parts hbody h' =>
      -- the lexeme is the literal
      have h : Scanned file offset ('"' :: (body ++ parts.flatMap Part.left))
          items := h
      obtain ⟨rest', items', hcut, rfl, hrest⟩ := h.of_lexeme rfl
      have htail : (lexemeAt '"' (body ++ parts.flatMap Part.left)).tail
          = body := (hbody.of_head h'.head_left).taken 1
      have hclear := clearOf_items file offset '"'
        (body ++ parts.flatMap Part.left) parts
      rw [htail] at hcut hrest hclear
      rw [← List.append_cancel_left hcut] at hrest
      have hbehind := ih _ (Nat.lt_succ_self _) h' hrest rfl
      exact List.forall_mem_append.2 ⟨hclear, hbehind⟩
  | @code c rest parts hc hslash h' =>
      have h : Scanned file offset (c :: parts.flatMap Part.left) items := h
      cases hspace : isSpace c with
      | true =>
          have h : Scanned file offset ([c] ++ parts.flatMap Part.left)
              items := h
          have hrest := h.of_spaces (List.forall_mem_singleton.2 hspace)
          have hbehind := ih _ (Nat.lt_succ_self _) h' hrest rfl
          exact hbehind
      | false =>
          -- the lexeme is a run of code
          obtain ⟨rest', items', hcut, rfl, hrest⟩ := h.of_lexeme hspace
          have hclear := clearOf_items file offset c
            (parts.flatMap Part.left)
          have hsolid := solid_tail hc (parts.flatMap Part.left)
          generalize (lexemeAt c (parts.flatMap Part.left)).tail = word at *
          obtain ⟨text', parts', hparts', rfl, rfl⟩ := h'.run hsolid hcut
          have hsame := Part.comments_code file offset (c :: word) parts'
          rw [List.map_cons, List.cons_append] at hsame
          rw [hsame]
          have hbehind := ih _ (by grind) hparts' hrest rfl
          exact List.forall_mem_append.2 ⟨hclear parts', hbehind⟩

end Token

-- =============================================================== texts

open Clean

theorem Span.spells_iff {text word : String} {s : Span} :
    s.Spells text word ↔ ∃ before behind,
      text.toList = before ++ word.toList ++ behind
        ∧ byteLength before = s.start ∧ byteLength word.toList = s.length := by
  constructor
  · rintro ⟨before, behind, rfl, hstart, hlength⟩
    refine ⟨before.toList, behind.toList, by simp, ?_, ?_⟩
    · rw [← hstart, utf8ByteSize_eq]
    · rw [← hlength, utf8ByteSize_eq]
  · rintro ⟨before, behind, htext, hstart, hlength⟩
    refine ⟨.ofList before, .ofList behind, String.toList_inj.1 ?_, ?_, ?_⟩
    · simpa using htext
    · rw [utf8ByteSize_eq, String.toList_ofList, hstart]
    · rw [utf8ByteSize_eq, hlength]

/-- A line break is spelled in front of a place behind one. -/
theorem Span.spells_newline {text : String} {s : Span} :
    s.Spells text "\n"
      ↔ s.length = 1 ∧ s.start + 1 ∈ behindBreaks 0 text.toList := by
  rw [spells_iff, mem_behindBreaks]
  constructor
  · rintro ⟨before, behind, htext, hstart, hlength⟩
    refine ⟨hlength.symm, before, behind, ?_, ?_⟩
    · simpa using htext
    · rw [hstart, Nat.zero_add]
  · rintro ⟨hlength, before, behind, htext, hstart⟩
    refine ⟨before, behind, ?_, by omega, hlength.symm⟩
    simpa using htext

/-- What a text with its comments blanked spells clear of them, it spelled
there before. -/
theorem Span.Spells.written {file : FileId} {parts : List Part}
    {blanked text word : String} {s : Span} (h : s.Spells blanked word)
    (hleft : blanked.toList = parts.flatMap Part.left)
    (hwritten : parts.flatMap Part.written = text.toList)
    (hclear : s.ClearOf (Part.comments file 0 parts)) (hs : 0 < s.length) :
    s.Spells text word := by
  obtain ⟨before, behind, htext, hstart, hlength⟩ := spells_iff.1 h
  have hword : word.toList ≠ [] := by
    intro hnil
    rw [← hlength, hnil] at hs
    cases hs
  have hout : ∀ front c back, word.toList = front ++ c :: back →
      ¬ Part.Covered (Part.comments file 0 parts)
        (0 + byteLength (before ++ front)) := by
    rintro front c back hword ⟨k, hk, hstart', hstop⟩
    have := hclear k hk
    have hc := c.utf8Size_pos
    rw [hword, byteLength_append, byteLength_cons] at hlength
    rw [byteLength_append] at hstart' hstop
    simp only [Span.stop] at this hstop
    omega
  obtain ⟨before', behind', hsplit, hbefore⟩ :=
    Part.kept_word hword (hleft.symm.trans htext) hout
  exact spells_iff.2 ⟨before', behind', hwritten ▸ hsplit,
    hbefore.trans hstart, hlength⟩

namespace Token

variable {file : FileId} {text : String}

theorem tile_of_token {t : Token} (ht : t ∈ (ofText file text).1)
    (hkind : t.kind ≠ .endOfInput) :
    t.span ∈ (scan file text).filterMap Item.tile? :=
  List.mem_filterMap.2 ⟨_, mem_token.1 ht, if_neg hkind⟩

theorem tile_of_error {d : Diagnostic} (hd : d ∈ (ofText file text).2)
    (herror : d.isError = true) :
    d.span ∈ (scan file text).filterMap Item.tile? :=
  List.mem_filterMap.2 ⟨_, mem_report.1 hd, if_pos herror⟩

/-- Blanking and the lexer agree on what is a string. The text keeps its
bytes and its line breaks; each token that is found in it, and each string
that is not closed, was written there just so; and all that is found is
clear of the comments, the parts of the text that became spaces. -/
theorem ofText_blankComments (file : FileId) {out : List Char}
    (h : blankComments text.toList = .ok out) :
    let blanked := String.ofList out
    let (tokens, reports) := ofText file blanked
    blanked.utf8ByteSize = text.utf8ByteSize
      ∧ (∀ s : Span, s.Spells blanked "\n" ↔ s.Spells text "\n")
      ∧ (∀ t ∈ tokens,
          t.span.Spells blanked t.text ∧ t.span.Spells text t.text)
      ∧ (∀ s, Fault.unterminatedString.report.at s ∈ reports →
          ∃ word, s.Spells blanked word ∧ s.Spells text word)
      ∧ ∃ parts, Parted text.toList parts ∧ out = parts.flatMap Part.left
        ∧ (∀ t ∈ tokens, t.span.ClearOf (Part.comments file 0 parts))
        ∧ ∀ d ∈ reports, d.span.ClearOf (Part.comments file 0 parts) := by
  obtain ⟨parts, hparts, hleft⟩ := exists_parted h
  have hwritten := hparts.written
  have hblanked : (String.ofList out).toList = parts.flatMap Part.left := by
    rw [String.toList_ofList, hleft]
  have hsize : (String.ofList out).utf8ByteSize = text.utf8ByteSize := by
    rw [utf8ByteSize_eq, utf8ByteSize_eq, hblanked, ← hwritten,
      Part.byteLength_flatMap_left]
  have hbreaks (offset : Nat) : behindBreaks offset (String.ofList out).toList
      = behindBreaks offset text.toList := by
    rw [hblanked, ← hwritten, Part.behindBreaks_left]
  have hclear := (hblanked ▸ scanned_scan file (String.ofList out) :
    Scanned file 0 (parts.flatMap Part.left) _).clearOf_comments hparts
  have htiles := (scanned_scan file (String.ofList out)).tiled.tiles
  refine ⟨hsize, fun s => ?_, fun t ht => ?_, fun s hs => ?_,
    parts, hparts, hleft, fun t ht => hclear _ (mem_token.1 ht),
    fun d hd => hclear _ (mem_report.1 hd)⟩
  · rw [Span.spells_newline, Span.spells_newline, hbreaks]
  · have hspelled := ofText_spelled file _ t ht
    have hcases : t ∈ (ofText file (String.ofList out)).1 := ht
    refine ⟨hspelled, ?_⟩
    rw [ofText_closed] at hcases
    rcases List.mem_append.1 hcases with hword | hend
    · have hkind := of_decide_eq_true (List.mem_filter.1 hword).2
      exact hspelled.written hblanked hwritten (hclear _ (mem_token.1 ht))
        (htiles.occupied _ (tile_of_token ht hkind))
    · rw [List.mem_singleton.1 hend, hsize]
      exact ⟨text, "", by simp [Token.endOfInput], rfl, rfl⟩
  · have htile := tile_of_error hs rfl
    obtain ⟨word, hword⟩ := htiles.whole _ htile
    exact ⟨word, hword, hword.written hblanked hwritten
      (hclear _ (mem_report.1 hs)) (htiles.occupied _ htile)⟩

/-- In a string `//` begins no comment, and in a comment a quote begins no
string. -/
theorem ofText_blankComments_quotes :
    let text := "\"//\"; // \"é\n\"/*"
    let blanked := "\"//\";       \n\"/*"
    blankComments text.toList = .ok blanked.toList
      ∧ ∀ t ∈ (ofText 1 blanked).1, t.span.Spells text t.text := by
  have h : blankComments "\"//\"; // \"é\n\"/*".toList
      = .ok "\"//\";       \n\"/*".toList := by decide +kernel
  have htokens := (ofText_blankComments 1 h).2.2.1
  rw [String.ofList_toList] at htokens
  exact ⟨h, fun t ht => (htokens t ht).2⟩

end Token

end Script
