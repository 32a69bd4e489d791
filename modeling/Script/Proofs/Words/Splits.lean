/-
The reader of tokens accepts the lexical grammar: no error is reported if
and only if the text splits into tokens and white space, and then these
are the tokens that are read.

What is read is cut off lexeme by lexeme, so the induction is on the text
that is left; the other way it is on the way the text splits. The scan goes
on behind a lexeme of any length; in the end that becomes one case of a
relation, so whatever is said of all that is found is proved lexeme by
lexeme, and no longer by the length of what is left.
-/
import Script.Proofs.Words.Lexemes
import Script.Token.Scan

namespace Script

namespace Token

open Spelling

variable {file : FileId} {offset : Nat} {c : Char} {cs : List Char}

-- ============================================================== items

/-- A token, with what is known of its escapes, is no error. -/
theorem items_of_ok {l : Lexeme} {k : Kind} (file : FileId) (offset : Nat)
    (c : Char) (h : l.outcome = .ok k) :
    (l.items file offset c).filterMap Item.token?
        = [⟨k, String.ofList (c :: l.tail),
            ⟨file, offset, Text.byteLength (c :: l.tail)⟩⟩]
      ∧ hasErrors ((l.items file offset c).filterMap Item.report?)
        = false := by
  have htokens (f : Nat × Char → Item) (hf : ∀ p, (f p).token? = none) :
      (l.strays.map f).filterMap Item.token? = [] := by
    rw [List.filterMap_map]
    exact List.filterMap_eq_nil_iff.2 fun p _ => hf p
  unfold Lexeme.items
  dsimp only
  rw [h, List.filterMap_append, List.filterMap_append, htokens _ fun _ => rfl]
  refine ⟨rfl, ?_⟩
  simp only [hasErrors, List.any_eq_false, List.mem_append,
    List.mem_filterMap, List.mem_map]
  rintro d (⟨_, ⟨p, -, rfl⟩, ⟨⟩⟩ | ⟨_, hmem, hd⟩)
  · exact Bool.false_ne_true
  · obtain rfl := List.mem_singleton.1 hmem
    cases hd

/-- What is no token is reported as an error. -/
theorem items_of_error {l : Lexeme} {f : Fault} (h : l.outcome = .error f)
    (hf : f.report.severity = .error) :
    hasErrors ((l.items file offset c).filterMap Item.report?) = true := by
  unfold Lexeme.items
  dsimp only
  rw [h, List.filterMap_append, hasErrors_append]
  have hself : hasErrors ([Item.report (f.report.at ⟨file, offset,
      Text.byteLength (c :: l.tail)⟩)].filterMap Item.report?) = true := by
    simp [Item.report?, hasErrors, Diagnostic.isError, Report.at, hf]
  rw [hself, Bool.or_true]

-- =============================================================== scan

/-- What is read from a text that begins at an offset: these tokens, and
no error. -/
def Reads (file : FileId) (offset : Nat) (cs : List Char)
    (ts : List Token) : Prop :=
  let items := (scanFrom file offset #[] cs).toList
  hasErrors (items.filterMap Item.report?) = false
    ∧ items.filterMap Item.token? = ts

theorem scanFrom_space (h : isSpace c = true) :
    scanFrom file offset #[] (c :: cs)
      = scanFrom file (offset + c.utf8Size) #[] cs := by
  simp only [scanFrom, h, if_true]

theorem scanFrom_lexeme (h : isSpace c = false) :
    (scanFrom file offset #[] (c :: cs)).toList
      = (lexemeAt c cs).items file offset c
        ++ (scanFrom file
          (offset + Text.byteLength (c :: (lexemeAt c cs).tail)) #[]
          (cs.drop (lexemeAt c cs).tail.length)).toList := by
  simp only [scanFrom, h, if_false, Bool.false_eq_true]
  rw [scanFrom_eq]
  simp only [Array.empty_append, Array.toList_append]

/-- Behind a token, what is left is read. -/
theorem reads_token {k : Kind} {ts : List Token} (hspace : isSpace c = false)
    (hk : (lexemeAt c cs).outcome = .ok k) :
    Reads file offset (c :: cs) ts ↔ ∃ us,
      Reads file (offset + Text.byteLength (c :: (lexemeAt c cs).tail))
        (cs.drop (lexemeAt c cs).tail.length) us
      ∧ ts = ⟨k, String.ofList (c :: (lexemeAt c cs).tail),
        ⟨file, offset, Text.byteLength (c :: (lexemeAt c cs).tail)⟩⟩
          :: us := by
  obtain ⟨htokens, herrors⟩ := items_of_ok file offset c hk
  unfold Reads
  dsimp only
  rw [scanFrom_lexeme hspace, List.filterMap_append, List.filterMap_append,
    htokens, hasErrors_append, herrors, Bool.false_or]
  constructor
  · rintro ⟨h, rfl⟩
    exact ⟨_, ⟨h, rfl⟩, rfl⟩
  · rintro ⟨us, ⟨h, rfl⟩, rfl⟩
    exact ⟨h, rfl⟩

-- ========================================================== the grammar

theorem isSpace_of_inner (h : Inner c) : isSpace c = false := by
  rw [← isWordChar_iff] at h
  refine Bool.eq_false_iff.2 fun hspace => ?_
  have hspace := isSpace_iff.1 hspace
  simp only [Space, List.mem_cons, List.not_mem_nil, or_false] at hspace
  rcases hspace with rfl | rfl | rfl | rfl <;> cases h

/-- A token has a first character, which is no white space. -/
theorem spells_head {w : List Char} {k : Kind} (h : Spells w k) :
    ∃ c cs, w = c :: cs ∧ isSpace c = false := by
  have hword {w : List Char} (h : Word w) :
      ∃ c cs, w = c :: cs ∧ isSpace c = false := by
    cases h with
    | mk hc => exact ⟨_, _, rfl, isSpace_of_inner (.inl hc)⟩
  cases h with
  | keyword k => exact hword (word_keyword k)
  | identifier h => exact hword h
  | string => exact ⟨_, _, rfl, rfl⟩
  | operator o => cases o <;> exact ⟨_, _, rfl, rfl⟩
  | punct p => cases p <;> exact ⟨_, _, rfl, rfl⟩
  | number h =>
      obtain ⟨d, ds, rfl, hd⟩ := numeral_head h
      exact ⟨d, ds, rfl, isSpace_of_inner (.inr hd)⟩

/-- Tokens that are read without an error are tokens of the grammar. -/
theorem splits_of_reads {ts : List Token} (h : Reads file offset cs ts) :
    Splits file offset cs ts := by
  -- a token takes any number of characters
  induction hlength : cs.length using Nat.strongRecOn
    generalizing offset cs ts with
  | ind n ih =>
  cases cs with
  | nil =>
      obtain ⟨-, rfl⟩ := h
      rw [scanFrom]
      exact .done
  | cons c cs =>
      rw [List.length_cons] at hlength
      cases hspace : isSpace c with
      | true =>
          unfold Reads at h
          rw [scanFrom_space hspace] at h
          exact .space (isSpace_iff.1 hspace) (ih _ (by omega) h rfl)
      | false =>
          have hfits := fits_lexemeAt c cs
          cases hk : (lexemeAt c cs).outcome with
          | error f =>
              have herror := h.1
              rw [scanFrom_lexeme hspace, List.filterMap_append,
                hasErrors_append, items_of_error hk (hfits.error f hk),
                Bool.true_or] at herror
              cases herror
          | ok k =>
              obtain ⟨us, hus, rfl⟩ := (reads_token hspace hk).1 h
              have hrest := List.prefix_iff_eq_append.1 hfits.tail
              have hlt : (cs.drop (lexemeAt c cs).tail.length).length < n := by
                rw [List.length_drop]
                omega
              have hlongest : Longest (c :: (lexemeAt c cs).tail)
                  (cs.drop (lexemeAt c cs).tail.length) := by
                rintro v k' hv ⟨r, hr⟩
                rw [List.cons_append, hrest] at hr
                exact length_le_lexemeAt hv hr
              have := Splits.token (hfits.spells k hk) hlongest
                (hfits.clear k hk) (ih _ hlt hus rfl)
              rwa [List.cons_append, hrest] at this

/-- The tokens of the grammar are read. -/
theorem reads_of_splits {ts : List Token}
    (h : Splits file offset cs ts) : Reads file offset cs ts := by
  induction h with
  | done =>
      unfold Reads
      rw [scanFrom]
      exact ⟨rfl, rfl⟩
  | space hc _ ih =>
      unfold Reads at ih ⊢
      rwa [scanFrom_space (isSpace_iff.2 hc)]
  | @token _ _ _ _ ts hw hlongest hclear _ ih =>
      obtain ⟨c, cs, rfl, hspace⟩ := spells_head hw
      obtain ⟨htail, hk⟩ := lexemeAt_of_spells hw hlongest hclear
      rw [List.cons_append]
      refine (reads_token hspace hk).2 ⟨ts, ?_, ?_⟩
      · rw [htail, List.drop_left]
        exact ih
      · rw [htail]

/-- No error is reported about a text if and only if it splits into white
space and tokens, each the longest at its place; and then these are the
tokens that are read. -/
theorem ofText_accepts_iff (file : FileId) (text : String) :
    (hasErrors (ofText file text).2 = false
      ↔ ∃ ts, Splits file 0 text.toList ts)
    ∧ ∀ ts, Splits file 0 text.toList ts → (ofText file text).1 = ts := by
  refine ⟨⟨fun h => ?_, ?_⟩, fun ts h => (reads_of_splits h).2⟩
  · exact ⟨_, splits_of_reads ⟨h, rfl⟩⟩
  · rintro ⟨ts, h⟩
    exact (reads_of_splits h).1

-- ================================================================= scans

open Text

variable {rest : List Char} {l : Lexeme} {items : List Item}

theorem mem_token {t : Token} :
    t ∈ items.filterMap Item.token? ↔ .token t ∈ items := by
  refine List.mem_filterMap.trans
    ⟨fun ⟨i, hi, hit⟩ => ?_, fun h => ⟨_, h, rfl⟩⟩
  cases i with
  | token => cases hit; exact hi
  | report => cases hit

theorem mem_report {d : Diagnostic} :
    d ∈ items.filterMap Item.report? ↔ .report d ∈ items := by
  refine List.mem_filterMap.trans
    ⟨fun ⟨i, hi, hid⟩ => ?_, fun h => ⟨_, h, rfl⟩⟩
  cases i with
  | token => cases hid
  | report => cases hid; exact hi

/-- What is found in a lexeme: its unknown escapes, and then a token or an
error that takes all of it. -/
theorem mem_items {i : Item} (h : i ∈ l.items file offset c) :
    (∃ p ∈ l.strays, i = .report ((Fault.unknownEscape p.2).report.at
      ⟨file, offset + p.1, 1 + p.2.utf8Size⟩))
    ∨ (∃ k, l.outcome = .ok k ∧ i = .token ⟨k, .ofList (c :: l.tail),
      ⟨file, offset, byteLength (c :: l.tail)⟩⟩)
    ∨ ∃ f, l.outcome = .error f ∧ i = .report (f.report.at
      ⟨file, offset, byteLength (c :: l.tail)⟩) := by
  rcases List.mem_append.1 h with h | h
  · obtain ⟨p, hp, rfl⟩ := List.mem_map.1 h
    exact .inl ⟨p, hp, rfl⟩
  · obtain rfl := List.mem_singleton.1 h
    cases hl : l.outcome with
    | ok k => exact .inr (.inl ⟨k, rfl, rfl⟩)
    | error f => exact .inr (.inr ⟨f, rfl, rfl⟩)

/-- What is found in a text that begins at an offset. -/
inductive Scanned (file : FileId) : Nat → List Char → List Item → Prop
  | done {offset : Nat} :
      Scanned file offset [] [.token (.endOfInput file offset)]
  | space {offset : Nat} {c : Char} {cs : List Char} {items : List Item}
      (hc : isSpace c = true)
      (h : Scanned file (offset + c.utf8Size) cs items) :
      Scanned file offset (c :: cs) items
  | lexeme {offset : Nat} {c : Char} {l : Lexeme} {rest : List Char}
      {items : List Item} (hc : isSpace c = false)
      (hl : lexemeAt c (l.tail ++ rest) = l)
      (h : Scanned file (offset + byteLength (c :: l.tail)) rest items) :
      Scanned file offset (c :: (l.tail ++ rest))
        (l.items file offset c ++ items)

/-- A scan cuts the text so. -/
theorem scanned_scanFrom (file : FileId) (offset : Nat) (cs : List Char) :
    Scanned file offset cs (scanFrom file offset #[] cs).toList := by
  match cs with
  | [] =>
      rw [scanFrom]
      exact .done
  | c :: cs =>
      cases hspace : isSpace c with
      | true =>
          rw [scanFrom_space hspace]
          exact .space hspace (scanned_scanFrom file _ cs)
      | false =>
          rw [scanFrom_lexeme hspace]
          have hrest := List.prefix_iff_eq_append.1 (fits_lexemeAt c cs).tail
          have h := Scanned.lexeme hspace (congrArg (lexemeAt c) hrest)
            (scanned_scanFrom file
              (offset + byteLength (c :: (lexemeAt c cs).tail))
              (cs.drop (lexemeAt c cs).tail.length))
          rwa [hrest] at h
termination_by cs.length
decreasing_by all_goals (simp; try omega)

/-- What holds of the end of input and of each lexeme holds of all that is
found. -/
theorem Scanned.forall_mem {P : Item → Prop}
    (hend : ∀ offset, P (.token (.endOfInput file offset)))
    (hlexeme : ∀ offset c cs,
      ∀ i ∈ (lexemeAt c cs).items file offset c, P i)
    (h : Scanned file offset cs items) : ∀ i ∈ items, P i := by
  induction h with
  | done => exact fun i hi => List.mem_singleton.1 hi ▸ hend _
  | space _ _ ih => exact ih
  | lexeme _ hl _ ih =>
      intro i hi
      rcases List.mem_append.1 hi with hi | hi
      · exact hlexeme _ _ _ i (hl ▸ hi)
      · exact ih i hi

/-- The end of input is found behind all else. -/
theorem Scanned.concat (h : Scanned file offset cs items) :
    ∃ found, items
      = found ++ [.token (.endOfInput file (offset + byteLength cs))] := by
  induction h with
  | done => exact ⟨[], rfl⟩
  | space _ _ ih => rwa [byteLength_cons, ← Nat.add_assoc]
  | @lexeme offset c l rest items _ _ _ ih =>
      obtain ⟨found, rfl⟩ := ih
      refine ⟨l.items file offset c ++ found, ?_⟩
      rw [List.append_assoc, ← List.cons_append, byteLength_append,
        ← Nat.add_assoc]

theorem scanned_scan (file : FileId) (text : String) :
    Scanned file 0 text.toList (scan file text) :=
  scanned_scanFrom file 0 text.toList

end Token

end Script
