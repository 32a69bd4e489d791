/-
Tokens stand on their own. Whatever is wrong with a text, each of its
tokens is spelled as the grammar says, so the tokens that are found in it
can be written down with a space between them and are found again.

No space is in a token that is not a string, and a string ends with its
closing quote. So a token in front of a space is the longest one at its
place, whatever follows.
-/
import Script.Proofs.Words.Tiles

namespace Script

open Text Spelling

namespace Token

variable {file : FileId} {offset : Nat} {k : Kind} {w rest : List Char}
  {c : Char}

-- ============================================================ spellings

/-- Neither white space nor a quote. -/
def Solid (c : Char) : Prop := isSpace c = false ∧ c ≠ '"'

theorem solid_of_inner (hc : Inner c) : Solid c := by
  refine ⟨isSpace_of_inner hc, ?_⟩
  rintro rfl
  rw [← isWordChar_iff] at hc
  cases hc

theorem solid_word (h : Word w) : ∀ c ∈ w, Solid c := by
  cases h with
  | mk hc hcs =>
      exact List.forall_mem_cons.2
        ⟨solid_of_inner (.inl hc), fun d hd => solid_of_inner (hcs d hd)⟩

theorem solid_numeral {n : Number.Numeral} (h : Numeral w n) :
    ∀ c ∈ w, Solid c := by
  have hdigits {ds : List Char} (h : Digits ds) : ∀ c ∈ ds, Solid c :=
    fun c hc => solid_of_inner (.inr (h.2 c hc))
  obtain ⟨hwhole, hf, he⟩ := h
  refine List.forall_mem_append.2 ⟨hdigits hwhole, ?_⟩
  refine List.forall_mem_append.2 ⟨?_, ?_⟩
  · cases hf with
    | absent => exact List.forall_mem_nil _
    | point h =>
        exact List.forall_mem_cons.2
          ⟨by simp [Solid, isSpace], hdigits h⟩
  · cases he with
    | absent => exact List.forall_mem_nil _
    | marked hm hs h =>
        refine List.forall_mem_cons.2 ⟨?_, List.forall_mem_append.2
          ⟨?_, hdigits h⟩⟩
        · rcases hm with rfl | rfl <;> simp [Solid, isSpace]
        · cases hs <;> simp [Solid, isSpace]

/-- A string is the only token with white space or a quote in it. -/
theorem spells_cases (h : Spells w k) :
    (∃ cs ds, w = '"' :: (cs ++ ['"']) ∧ Decodes cs ds)
      ∨ ∀ c ∈ w, Solid c := by
  cases h with
  | keyword k => exact .inr (solid_word (word_keyword k))
  | identifier h => exact .inr (solid_word h)
  | number h => exact .inr (solid_numeral h)
  | string h => exact .inl ⟨_, _, rfl, h⟩
  | operator o =>
      right
      cases o <;> simp [Operator.text, Solid, isSpace]
  | punct p =>
      right
      cases p <;> simp [Punct.text, Solid, isSpace]

/-- In front of white space a token is as long as can be. -/
theorem longest_of_space (h : Spells w k) (hc : isSpace c = true) :
    Longest w (c :: rest) := by
  rintro v k' hv ⟨behind, hv'⟩
  rcases spells_cases h with ⟨cs, ds, rfl, hcs⟩ | hsolid
  · -- the string is read up to its closing quote
    have hle := length_le_lexemeAt hv hv'
    obtain ⟨strays, hread⟩ := read_decodes hcs 1 (c :: rest)
    have htail : (stringLexeme (cs ++ ['"'] ++ c :: rest)).tail
        = cs ++ ['"'] := by
      rw [List.append_assoc]
      unfold stringLexeme
      rw [List.singleton_append, hread]
    exact Nat.le_trans hle (Nat.le_of_eq (congrArg (·.length + 1) htail))
  · by_contra hlt
    -- a longer one has the white space in it, and so it is a string
    have hfront : w ++ [c] <+: w ++ c :: rest := ⟨rest, by simp⟩
    have hlonger : w ++ [c] <+: v := by
      refine List.prefix_of_prefix_length_le hfront ⟨behind, hv'⟩ ?_
      rw [List.length_append, List.length_singleton]
      omega
    obtain ⟨d, ds, rfl, -⟩ := spells_head h
    rcases spells_cases hv with ⟨cs, -, rfl, -⟩ | hsolid'
    · obtain ⟨hd, -⟩ := List.cons_prefix_cons.1 hlonger
      exact (hsolid d (List.mem_cons_self ..)).2 hd
    · have := (hsolid' c (hlonger.subset (by simp))).1
      rw [hc] at this
      cases this

theorem clear_of_space (hc : isSpace c = true) : Clear k (c :: rest) := by
  rintro x - d ⟨⟩ hinner
  rw [isSpace_of_inner hinner] at hc
  cases hc

-- ============================================================== tokens

/-- The tokens of a text are spelled as the grammar says. -/
theorem ofText_spells (file : FileId) (text : String) :
    ∀ t ∈ (ofText file text).1, t.kind ≠ .endOfInput →
      Spells t.text.toList t.kind := by
  have hscan := (scanned_scan file text).forall_mem
    (P := fun i => ∀ t, i = .token t → t.kind ≠ .endOfInput →
      Spells t.text.toList t.kind) ?_ ?_
  · exact fun t ht => hscan _ (mem_token.1 ht) t rfl
  · rintro offset _ ⟨⟩ hend
    exact absurd rfl hend
  · intro offset c cs i hi t ht _
    rcases mem_items hi with ⟨p, -, rfl⟩ | ⟨k, hk, rfl⟩ | ⟨f, -, rfl⟩
    · cases ht
    · cases ht
      dsimp only
      rw [String.toList_ofList]
      exact (fits_lexemeAt c cs).spells k hk
    · cases ht

/-- Spellings with a space between them split into their tokens. -/
theorem splits_joined (file : FileId) (offset : Nat) {ts : List Token}
    (h : ∀ t ∈ ts, Spells t.text.toList t.kind) :
    ∃ us, Splits file offset (" ".intercalate (ts.map (·.text))).toList us
      ∧ us.map (fun t => (t.kind, t.text))
        = ts.map (fun t => (t.kind, t.text)) ++ [(.endOfInput, "")] := by
  induction ts generalizing offset with
  | nil => exact ⟨_, .done, rfl⟩
  | cons t ts ih =>
      obtain ⟨ht, hts⟩ := List.forall_mem_cons.1 h
      -- what is in front of what is left, be that a space or nothing
      have hfirst {rest : List Char} {us : List Token}
          (hlongest : Longest t.text.toList rest) (hclear : Clear t.kind rest)
          (hsplits : Splits file (offset + byteLength t.text.toList) rest us)
          (hus : us.map (fun t => (t.kind, t.text))
            = ts.map (fun t => (t.kind, t.text)) ++ [(.endOfInput, "")]) :
          ∃ us, Splits file offset (t.text.toList ++ rest) us
            ∧ us.map (fun t => (t.kind, t.text)) = (t :: ts).map
              (fun t => (t.kind, t.text)) ++ [(.endOfInput, "")] := by
        refine ⟨_, .token ht hlongest hclear hsplits, ?_⟩
        rw [List.map_cons, hus, String.ofList_toList]
        rfl
      cases ts with
      | nil =>
          obtain ⟨us, hsplits, hus⟩ :=
            hfirst (fun _ _ _ h => by simpa using h.length_le)
              (by rintro _ _ _ ⟨⟩) .done rfl
          refine ⟨us, ?_, hus⟩
          simpa using hsplits
      | cons u ts =>
          obtain ⟨us, hsplits, hus⟩ :=
            ih (offset + byteLength t.text.toList + ' '.utf8Size) hts
          obtain ⟨us, hsplits, hus⟩ := hfirst (longest_of_space ht rfl)
            (clear_of_space rfl) (.space (by simp [Space]) hsplits) hus
          refine ⟨us, ?_, hus⟩
          rw [List.map_cons, List.map_cons, String.intercalate_cons_cons,
            String.toList_append, String.toList_append, List.append_assoc]
          exact hsplits

/-- The tokens of a text, written with a space between them, are found
again and no error is. -/
theorem ofText_joined (file other : FileId) (text : String) :
    let tokens := (ofText file text).1
    let joined := " ".intercalate
      ((tokens.filter (·.kind ≠ .endOfInput)).map (·.text))
    hasErrors (ofText other joined).2 = false
      ∧ (ofText other joined).1.map (fun t => (t.kind, t.text))
        = tokens.map (fun t => (t.kind, t.text)) := by
  have hspells : ∀ t ∈ (ofText file text).1.filter (·.kind ≠ .endOfInput),
      Spells t.text.toList t.kind := by
    intro t ht
    obtain ⟨ht, hend⟩ := List.mem_filter.1 ht
    exact ofText_spells file text t ht (of_decide_eq_true hend)
  obtain ⟨us, hsplits, hus⟩ := splits_joined other 0 hspells
  have haccepts := ofText_accepts_iff other (" ".intercalate
    (((ofText file text).1.filter (·.kind ≠ .endOfInput)).map (·.text)))
  refine ⟨haccepts.1.2 ⟨us, hsplits⟩, ?_⟩
  rw [haccepts.2 us hsplits, hus]
  conv => rhs; rw [ofText_closed]
  rw [List.map_append]
  rfl

end Token

end Script
