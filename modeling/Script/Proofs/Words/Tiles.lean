/-
What is found in a text takes its place there. Tokens and errors take up
the text, whatever it is: each has some whole characters for itself, and
what no one takes is white space. A warning is about an escape, and lies
in the string that has it.

The reports that stand in front of a token are the ones that end no later
than the token. So whoever reads token by token knows, at each of them,
what there is to say about the text up to its end.
-/
import Script.Proofs.Places.Exact
import Script.Proofs.Words.Splits

namespace Script

open Text Spelling

variable {file : FileId} {offset : Nat} {c : Char} {cs : List Char}
  {spans : List Span}

-- =============================================================== tiles

/-- The spans of the words of a text that begins at an offset, where
white space is all there is between them. -/
inductive Tiled (file : FileId) : Nat → List Char → List Span → Prop
  | done {offset : Nat} : Tiled file offset [] []
  | space {offset : Nat} {c : Char} {cs : List Char} {spans : List Span}
      (hc : Space c) (h : Tiled file (offset + c.utf8Size) cs spans) :
      Tiled file offset (c :: cs) spans
  | word {offset : Nat} {word rest : List Char} {spans : List Span}
      (hword : word ≠ [])
      (h : Tiled file (offset + byteLength word) rest spans) :
      Tiled file offset (word ++ rest)
        (⟨file, offset, byteLength word⟩ :: spans)

/-- Spans that take up a text, all but white space. -/
structure Tiles (text : String) (spans : List Span) : Prop where
  occupied : ∀ s ∈ spans, 0 < s.length
  /-- Both ends are between two characters. -/
  whole : ∀ s ∈ spans, ∃ word, s.Spells text word
  apart : spans.Pairwise fun a b => a.stop ≤ b.start ∨ b.stop ≤ a.start
  /-- A byte that is in none of them is white space. -/
  gaps : ∀ i byte, text.toUTF8[i]? = some byte →
    (∀ s ∈ spans, ¬(s.start ≤ i ∧ i < s.stop)) →
    ∃ c, Space c ∧ byte = c.toUInt8

theorem Text.byteLength_pos {cs : List Char} (h : cs ≠ []) :
    0 < byteLength cs := by
  obtain ⟨c, cs, rfl⟩ := List.exists_cons_of_ne_nil h
  have := c.utf8Size_pos
  rw [byteLength_cons]
  omega

theorem Text.length_encode (cs : List Char) :
    (cs.flatMap String.utf8EncodeChar).length = byteLength cs := by
  induction cs with
  | nil => rfl
  | cons c cs ih =>
      rw [List.flatMap_cons, List.length_append, ih, byteLength_cons,
        String.length_utf8EncodeChar]

/-- White space is written with one byte. -/
theorem Spelling.Space.encode (h : Space c) :
    String.utf8EncodeChar c = [c.toUInt8] := by
  have hcases : c = ' ' ∨ c = '\t' ∨ c = '\r' ∨ c = '\n' := by
    simpa [Space] using h
  refine String.utf8EncodeChar_eq_singleton ?_
  rcases hcases with rfl | rfl | rfl | rfl <;> rfl

/-- In what order the spans are told does not matter. -/
theorem Tiles.perm {text : String} {spans' : List Span}
    (h : Tiles text spans) (hperm : spans.Perm spans') :
    Tiles text spans' where
  occupied s hs := h.occupied s (hperm.mem_iff.2 hs)
  whole s hs := h.whole s (hperm.mem_iff.2 hs)
  apart := (hperm.pairwise_iff fun h => h.symm).1 h.apart
  gaps i byte hbyte hout :=
    h.gaps i byte hbyte fun s hs => hout s (hperm.mem_iff.1 hs)

namespace Tiled

theorem start_le (h : Tiled file offset cs spans) :
    ∀ s ∈ spans, offset ≤ s.start := by
  induction h with
  | done => exact List.forall_mem_nil _
  | space _ _ ih => exact fun s hs => Nat.le_of_add_right_le (ih s hs)
  | word _ _ ih =>
      exact List.forall_mem_cons.2 ⟨Nat.le_refl _,
        fun s hs => Nat.le_of_add_right_le (ih s hs)⟩

theorem occupied (h : Tiled file offset cs spans) :
    ∀ s ∈ spans, 0 < s.length := by
  induction h with
  | done => exact List.forall_mem_nil _
  | space _ _ ih => exact ih
  | word hword _ ih => exact List.forall_mem_cons.2 ⟨byteLength_pos hword, ih⟩

theorem ordered (h : Tiled file offset cs spans) :
    spans.Pairwise fun a b => a.stop ≤ b.start := by
  induction h with
  | done => exact List.Pairwise.nil
  | space _ _ ih => exact ih
  | word _ h ih => exact List.pairwise_cons.2 ⟨h.start_le, ih⟩

/-- Each span has characters of its own. -/
theorem whole (h : Tiled file offset cs spans) : ∀ s ∈ spans,
    ∃ before word behind, cs = before ++ word ++ behind
      ∧ offset + byteLength before = s.start
      ∧ byteLength word = s.length := by
  induction h with
  | done => exact List.forall_mem_nil _
  | @space offset c cs spans _ _ ih =>
      intro s hs
      obtain ⟨before, word, behind, rfl, hstart, hlength⟩ := ih s hs
      refine ⟨c :: before, word, behind, rfl, ?_, hlength⟩
      rw [← hstart, byteLength_cons, Nat.add_assoc]
  | @word offset first rest spans _ _ ih =>
      refine List.forall_mem_cons.2 ⟨⟨[], first, rest, rfl, rfl, rfl⟩, ?_⟩
      intro s hs
      obtain ⟨before, word, behind, rfl, hstart, hlength⟩ := ih s hs
      refine ⟨first ++ before, word, behind, ?_, ?_, hlength⟩
      · simp only [List.append_assoc]
      · rw [← hstart, byteLength_append, Nat.add_assoc]

/-- A byte that is in none of the words is white space. -/
theorem gaps (h : Tiled file offset cs spans) {i : Nat} {byte : UInt8}
    (hbyte : (cs.flatMap String.utf8EncodeChar)[i]? = some byte)
    (hout : ∀ s ∈ spans, ¬(s.start ≤ offset + i ∧ offset + i < s.stop)) :
    ∃ c, Space c ∧ byte = c.toUInt8 := by
  induction h generalizing i with
  | done => cases hbyte
  | @space offset c cs spans hc _ ih =>
      rw [List.flatMap_cons, hc.encode] at hbyte
      cases i with
      | zero => exact ⟨c, hc, (Option.some.inj hbyte).symm⟩
      | succ i =>
          refine ih hbyte ?_
          have hsize : c.utf8Size = 1 := by
            rw [← String.length_utf8EncodeChar, hc.encode]
            rfl
          rwa [hsize, Nat.add_assoc, Nat.add_comm 1 i]
  | @word offset word rest spans _ _ ih =>
      obtain ⟨hfirst, hout⟩ := List.forall_mem_cons.1 hout
      have hbehind : byteLength word ≤ i := by
        by_contra hlt
        exact hfirst ⟨Nat.le_add_right .., by
          simp only [Span.stop]
          omega⟩
      rw [List.flatMap_append, List.getElem?_append_right
        (by rwa [length_encode]), length_encode] at hbyte
      refine ih hbyte ?_
      rwa [Nat.add_assoc, Nat.add_sub_cancel' hbehind]

/-- Words that are cut off a text one behind the other take it up. -/
theorem tiles {text : String} (h : Tiled file 0 text.toList spans) :
    Tiles text spans where
  occupied := h.occupied
  whole := by
    intro s hs
    obtain ⟨before, word, behind, htext, hstart, hlength⟩ := h.whole s hs
    refine ⟨.ofList word, .ofList before, .ofList behind,
      String.toList_inj.1 ?_, ?_, ?_⟩
    · simpa using htext
    · rw [utf8ByteSize_eq, String.toList_ofList, ← hstart, Nat.zero_add]
    · rw [utf8ByteSize_eq, String.toList_ofList, hlength]
  apart := h.ordered.imp .inl
  gaps := by
    intro i byte hbyte hout
    refine h.gaps (i := i) ?_ ?_
    · rw [← hbyte]
      show _ = text.toByteArray.data[i]?
      rw [← String.utf8Encode_toList]
      simp [List.utf8Encode]
    · rwa [Nat.zero_add]

end Tiled

namespace Token

variable {l : Lexeme} {items : List Item}

-- =============================================================== items

/-- The span that an item has for itself: that of a token or an error.
The end of input and warnings have none. -/
def Item.tile? : Item → Option Span
  | .token t => if t.kind = .endOfInput then none else some t.span
  | .report d => if d.isError then some d.span else none

/-- A lexeme has its place for itself. -/
theorem tiles_items (offset : Nat) (hl : lexemeAt c cs = l) :
    (l.items file offset c).filterMap Item.tile?
      = [⟨file, offset, byteLength (c :: l.tail)⟩] := by
  have hstrays (xs : List (Nat × Char)) : (xs.map fun p => Item.report
      ((Fault.unknownEscape p.2).report.at
        ⟨file, offset + p.1, 1 + p.2.utf8Size⟩)).filterMap Item.tile?
      = [] := by
    rw [List.filterMap_map]
    exact List.filterMap_eq_nil_iff.2 fun _ _ => rfl
  have herror := (fits_lexemeAt c cs).error
  have hend := outcome_lexemeAt c cs
  rw [hl] at herror hend
  unfold Lexeme.items
  dsimp only
  rw [List.filterMap_append, hstrays, List.nil_append]
  cases hk : l.outcome with
  | ok k =>
      have hk : k ≠ .endOfInput := fun h => hend (hk.trans (congrArg _ h))
      simp [Item.tile?, hk]
  | error f => simp [Item.tile?, Diagnostic.isError, Report.at, herror f hk]

/-- What is found in a text takes up all of it but white space. -/
theorem Scanned.tiled (h : Scanned file offset cs items) :
    Tiled file offset cs (items.filterMap Item.tile?) := by
  induction h with
  | done => exact .done
  | space hc _ ih => exact .space (isSpace_iff.1 hc) ih
  | lexeme _ hl _ ih =>
      rw [List.filterMap_append, tiles_items _ hl]
      exact .word (List.cons_ne_nil _ _) ih

-- ============================================================= escapes

/-- A string, closed or not. -/
inductive Item.IsString : Item → Prop
  | closed (value text : String) (s : Span) :
      IsString (.token ⟨.string value, text, s⟩)
  | unterminated (s : Span) :
      IsString (.report (Fault.unterminatedString.report.at s))

/-- What is behind a quote is a string, closed or not. -/
theorem outcome_stringLexeme (cs : List Char) :
    (∃ v, (stringLexeme cs).outcome = .ok (.string v))
      ∨ (stringLexeme cs).outcome = .error .unterminatedString := by
  unfold stringLexeme
  dsimp only
  split
  · exact .inl ⟨_, rfl⟩
  · exact .inr rfl

/-- A string has all of its lexeme. -/
theorem string_items (file : FileId) (offset : Nat)
    (hl : lexemeAt '"' cs = l) :
    ∃ i ∈ l.items file offset '"', i.IsString
      ∧ i.span = ⟨file, offset, byteLength ('"' :: l.tail)⟩ := by
  refine ⟨_, List.mem_append_right _ (List.mem_singleton_self _), ?_⟩
  rcases (hl ▸ outcome_stringLexeme cs : (∃ v, l.outcome = .ok (.string v))
    ∨ l.outcome = .error .unterminatedString) with ⟨v, h⟩ | h
  · rw [h]
    exact ⟨.closed .., rfl⟩
  · rw [h]
    exact ⟨.unterminated _, rfl⟩

/-- An unknown escape is found in a string. -/
theorem stray_items (offset : Nat) (hl : lexemeAt c cs = l) {d : Char}
    {s : Span} (h : Item.report ((Fault.unknownEscape d).report.at s)
      ∈ l.items file offset c) :
    ∃ i ∈ l.items file offset c, i.IsString ∧ i.span.contains s = true := by
  rcases mem_items h with ⟨p, hp, heq⟩ | ⟨k, hk, heq⟩ | ⟨f, hf, heq⟩
  · have hc : c = '"' := by
      by_contra hc
      rw [← hl, strays_eq_nil hc cs] at hp
      cases hp
    subst hc
    obtain ⟨i, hi, hstring, hspan⟩ := string_items file offset hl
    have hinside := strays_lexemeAt '"' cs p (hl ▸ hp)
    have hs : s = ⟨file, offset + p.1, 1 + p.2.utf8Size⟩ :=
      congrArg Diagnostic.span (Item.report.inj heq)
    refine ⟨i, hi, hstring, ?_⟩
    rw [hl] at hinside
    simp only [hspan, hs, Span.contains, Span.stop, beq_self_eq_true,
      Bool.true_and, Bool.and_eq_true, decide_eq_true_eq]
    omega
  · cases heq
  · have hreport : (Fault.unknownEscape d).report = f.report :=
      congrArg Diagnostic.toReport (Item.report.inj heq)
    have herror := (fits_lexemeAt c cs).error f (hl ▸ hf)
    rw [← hreport] at herror
    cases herror

/-- An unknown escape in a text is in a string of it. -/
theorem Scanned.stray (h : Scanned file offset cs items) {d : Char}
    {s : Span}
    (hs : Item.report ((Fault.unknownEscape d).report.at s) ∈ items) :
    ∃ i ∈ items, i.IsString ∧ i.span.contains s = true := by
  induction h with
  | done => cases List.mem_singleton.1 hs
  | space _ _ ih => exact ih hs
  | lexeme _ hl _ ih =>
      rcases List.mem_append.1 hs with hs | hs
      · obtain ⟨i, hi, hin⟩ := stray_items _ hl hs
        exact ⟨i, List.mem_append_left _ hi, hin⟩
      · obtain ⟨i, hi, hin⟩ := ih hs
        exact ⟨i, List.mem_append_right _ hi, hin⟩

-- ======================================================== held reports

/-- A report in front of a token ends no later than the token does, and a
report behind it ends later. -/
def Item.Timely : Item → Item → Prop
  | .report d, .token t => d.span.stop ≤ t.span.stop
  | .token t, .report d => t.span.stop < d.span.stop
  | _, _ => True

/-- What is found from an offset on does not begin before it, and a report
ends behind it. -/
structure Item.From (offset : Nat) (i : Item) : Prop where
  start : offset ≤ i.span.start
  stop : ∀ d, i = .report d → offset < d.span.stop

theorem Item.From.mono {offset' : Nat} {i : Item} (h : i.From offset')
    (hle : offset ≤ offset') : i.From offset :=
  ⟨Nat.le_trans hle h.start,
    fun d hd => Nat.lt_of_le_of_lt hle (h.stop d hd)⟩

theorem items_from {i : Item} (h : i ∈ l.items file offset c) :
    i.From offset := by
  have hsize := c.utf8Size_pos
  rcases mem_items h with ⟨p, -, rfl⟩ | ⟨k, -, rfl⟩ | ⟨f, -, rfl⟩
  · refine ⟨Nat.le_add_right .., ?_⟩
    rintro _ ⟨⟩
    simp only [Report.at, Span.stop]
    omega
  · exact ⟨Nat.le_refl _, by rintro _ ⟨⟩⟩
  · refine ⟨Nat.le_refl _, ?_⟩
    rintro _ ⟨⟩
    simp only [Report.at, Span.stop, byteLength_cons]
    omega

theorem Scanned.from (h : Scanned file offset cs items) :
    ∀ i ∈ items, i.From offset := by
  induction h with
  | done =>
      intro i hi
      rw [List.mem_singleton.1 hi]
      exact ⟨Nat.le_refl _, by rintro _ ⟨⟩⟩
  | space _ _ ih => exact fun i hi => (ih i hi).mono (Nat.le_add_right ..)
  | lexeme _ _ _ ih =>
      intro i hi
      rcases List.mem_append.1 hi with hi | hi
      · exact items_from hi
      · exact (ih i hi).mono (Nat.le_add_right ..)

/-- What ends before an offset comes in good time for what is found from
there on. -/
theorem Item.From.timely {i j : Item} (hi : i.span.stop ≤ offset)
    (hj : j.From offset) : i.Timely j := by
  cases i with
  | token t =>
      cases j with
      | token u => trivial
      | report d => exact Nat.lt_of_le_of_lt hi (hj.stop d rfl)
  | report d =>
      cases j with
      | token t =>
          exact hi.trans (hj.start.trans t.span.start_le_stop)
      | report e => trivial

/-- The reports about a lexeme come in front of its token. -/
theorem timely_items (offset : Nat) (hl : lexemeAt c cs = l) :
    (l.items file offset c).Pairwise Item.Timely := by
  refine List.pairwise_append.2 ⟨?_, List.pairwise_singleton .., ?_⟩
  · exact List.pairwise_map.2 (List.pairwise_of_forall fun _ _ => trivial)
  · intro i hi j hj
    have hinside := items_inside file offset hl i
      (List.mem_append_left _ hi)
    obtain ⟨p, -, rfl⟩ := List.mem_map.1 hi
    obtain rfl := List.mem_singleton.1 hj
    cases l.outcome with
    | ok k => exact hinside.2
    | error f => trivial

theorem Scanned.timely (h : Scanned file offset cs items) :
    items.Pairwise Item.Timely := by
  induction h with
  | done => exact List.pairwise_singleton ..
  | space _ _ ih => exact ih
  | lexeme _ hl hrest ih =>
      refine List.pairwise_append.2 ⟨timely_items _ hl, ih, ?_⟩
      intro i hi j hj
      exact (hrest.from j hj).timely (items_inside file _ hl i hi).2

/-- What is known when a token is read. -/
theorem reports_upTo (h : items.Pairwise Item.Timely) {n : Nat} {t : Token}
    (ht : (items.filterMap Item.token?)[n]? = some t) :
    (upTo (n + 1) items).filterMap Item.report?
      = (items.filterMap Item.report?).filter
        (·.span.stop ≤ t.span.stop) := by
  induction items generalizing n with
  | nil => cases ht
  | cons i items ih =>
      obtain ⟨hi, hmore⟩ := List.pairwise_cons.1 h
      cases i with
      | report d =>
          have ht : (items.filterMap Item.token?)[n]? = some t := ht
          have hd : d.span.stop ≤ t.span.stop :=
            hi _ (mem_token.1 (List.mem_of_getElem? ht))
          show d :: (upTo (n + 1) items).filterMap Item.report? = List.filter
            (·.span.stop ≤ t.span.stop) (d :: items.filterMap Item.report?)
          rw [ih hmore ht, List.filter_cons_of_pos (by simpa using hd)]
      | token u =>
          cases n with
          | zero =>
              obtain rfl : u = t := Option.some.inj ht
              have hseen : upTo 1 (.token u :: items) = [.token u] := by
                simp only [upTo]
              rw [hseen]
              show [] = (items.filterMap Item.report?).filter
                (·.span.stop ≤ u.span.stop)
              refine (List.filter_eq_nil_iff.2 fun d hd => ?_).symm
              have hlt : u.span.stop < d.span.stop := hi _ (mem_report.1 hd)
              simpa using hlt
          | succ n => exact ih hmore ht

-- =============================================================== texts

/-- The end of input is the last token, and only that one. -/
theorem ofText_closed (file : FileId) (text : String) :
    (ofText file text).1 = (ofText file text).1.filter (·.kind ≠ .endOfInput)
      ++ [.endOfInput file text.utf8ByteSize] := by
  obtain ⟨-, -, body, last, htokens, -, hbody⟩ := ofText_complete file text
  obtain ⟨found, hitems⟩ := (scanned_scan file text).concat
  have hconcat : (ofText file text).1 = found.filterMap Item.token?
      ++ [.endOfInput file text.utf8ByteSize] := by
    show (scan file text).filterMap Item.token? = _
    rw [hitems, List.filterMap_append, Nat.zero_add, ← utf8ByteSize_eq]
    rfl
  obtain ⟨hfound, -⟩ := List.append_inj' (hconcat.symm.trans htokens) rfl
  have hwords : (found.filterMap Item.token?).filter
      (·.kind ≠ .endOfInput) = found.filterMap Item.token? := by
    refine List.filter_eq_self.2 fun t ht => ?_
    exact decide_eq_true (hbody t (hfound ▸ ht))
  rw [hconcat, List.filter_append, hwords]
  simp [Token.endOfInput]

/-- The places of tokens and errors, the tokens first. -/
theorem perm_tiles (items : List Item) :
    (items.filterMap Item.tile?).Perm
      (((items.filterMap Item.token?).filter (·.kind ≠ .endOfInput)).map
          (·.span)
        ++ ((items.filterMap Item.report?).filter (·.isError)).map
          (·.span)) := by
  induction items with
  | nil => exact .nil
  | cons i items ih =>
      cases i with
      | token t =>
          simp only [List.filterMap_cons, Item.tile?, Item.token?,
            Item.report?, List.filter_cons]
          by_cases ht : t.kind = .endOfInput
          · simpa [ht] using ih
          · simpa [ht] using ih
      | report d =>
          simp only [List.filterMap_cons, Item.tile?, Item.token?,
            Item.report?, List.filter_cons]
          cases hd : d.isError with
          | false => exact ih
          | true => exact (ih.cons _).trans List.perm_middle.symm

/-- Tokens and errors take up a text, and the end of input comes last. An
unknown escape is in a string. At each token, what was reported so far is
what there is to report up to the end of the token. -/
theorem ofText_tiles (file : FileId) (text : String) :
    let (tokens, reports) := ofText file text
    let words := tokens.filter (·.kind ≠ .endOfInput)
    tokens = words ++ [.endOfInput file text.utf8ByteSize]
      ∧ Tiles text (words.map (·.span)
          ++ (reports.filter (·.isError)).map (·.span))
      ∧ (∀ c s, (Fault.unknownEscape c).report.at s ∈ reports →
          (∃ t ∈ words, (∃ v, t.kind = .string v)
            ∧ t.span.contains s = true)
          ∨ ∃ outer, Fault.unterminatedString.report.at outer ∈ reports
            ∧ outer.contains s = true)
      ∧ ∀ n t, tokens[n]? = some t →
          (upTo (n + 1) (scan file text)).filterMap Item.report?
            = reports.filter (·.span.stop ≤ t.span.stop) := by
  have hscan := scanned_scan file text
  refine ⟨ofText_closed file text, hscan.tiled.tiles.perm (perm_tiles _),
    fun c s hs => ?_, fun n t ht => reports_upTo hscan.timely ht⟩
  obtain ⟨i, hi, hstring, hin⟩ := hscan.stray (mem_report.1 hs)
  cases hstring with
  | closed v text s =>
      have hword := mem_token.2 hi
      exact .inl ⟨_, List.mem_filter.2 ⟨hword, by simp⟩, ⟨v, rfl⟩, hin⟩
  | unterminated s => exact .inr ⟨s, mem_report.2 hi, hin⟩

end Token

end Script
