/-
A lexeme that is a token is what the grammar calls one: it spells the
token, nothing that begins at the same place and spells a token is longer,
and no word follows directly on a number. The other way round, where the
grammar has a token, the lexeme is this token.

The lexeme is chosen by its first character, and so are the cases here:
words, strings, operators and brackets; numbers have a file of their own.
-/
import Script.Proofs.Words.Numbers

namespace Script

namespace Token

open Spelling

variable {cs : List Char}

-- ============================================================== words

/-- What a digit begins is read as a number. -/
theorem lexemeAt_digit {c : Char} (h : Digit c) (cs : List Char) :
    lexemeAt c cs = numberLexeme c cs := by
  rw [← isDigit_iff] at h
  unfold lexemeAt
  split
  case h_19 => rw [if_pos h]
  all_goals cases h

/-- What a letter begins is read as a word. -/
theorem lexemeAt_initial {c : Char} (h : Initial c) (cs : List Char) :
    lexemeAt c cs = wordLexeme c cs := by
  rw [← isWordStart_iff] at h
  unfold lexemeAt
  split
  case h_19 =>
      rw [if_neg (mt isDigit_iff.1 (not_digit_of_initial
        (isWordStart_iff.1 h))), if_pos h]
  all_goals cases h

/-- A word spells a reserved word or an identifier. -/
theorem spells_word {w : List Char} (h : Word w) : ∃ k, Spells w k := by
  by_cases hk : ∃ k : Keyword, k.text.toList = w
  · obtain ⟨k, rfl⟩ := hk
    exact ⟨_, .keyword k⟩
  · exact ⟨_, .identifier h fun k hw => hk ⟨k, hw⟩⟩

theorem word_keyword (k : Keyword) : Word k.text.toList := by
  have hinner {cs : List Char} (h : cs.all isWordChar = true) :
      ∀ c ∈ cs, Spelling.Inner c :=
    fun c hc => isWordChar_iff.1 (List.all_eq_true.1 h c hc)
  cases k <;> exact ⟨isWordStart_iff.1 rfl, hinner rfl⟩

theorem wordLexeme_tail (c : Char) (cs : List Char) :
    (wordLexeme c cs).tail = cs.takeWhile isWordChar := by
  unfold wordLexeme
  dsimp only
  split <;> rfl

theorem wordLexeme_tail_eq {c : Char} {cs rest : List Char}
    (h : Word (c :: cs)) (hrest : ∀ d ∈ rest.head?, ¬ Inner d) :
    (cs ++ rest).takeWhile isWordChar = cs := by
  obtain ⟨-, hcs⟩ := h
  refine takeWhile_eq (fun d hd => isWordChar_iff.2 (hcs d hd)) fun d hd => ?_
  exact Bool.eq_false_iff.2 (mt isWordChar_iff.1 (hrest d hd))

/-- A word that is read is spelled as the grammar says. -/
theorem spells_wordLexeme {c : Char} (hc : Initial c) (cs : List Char) :
    ∃ k, (wordLexeme c cs).outcome = .ok k
      ∧ Spells (c :: cs.takeWhile isWordChar) k ∧ ∀ x, k ≠ .number x := by
  have hword : Word (c :: cs.takeWhile isWordChar) :=
    ⟨hc, fun d hd => isWordChar_iff.1 (List.mem_takeWhile_imp hd)⟩
  unfold wordLexeme
  dsimp only
  cases hk : Keyword.ofText? (String.ofList (c :: cs.takeWhile isWordChar)) with
  | some k =>
      refine ⟨_, rfl, ?_, by simp⟩
      have htext := congrArg String.toList (Keyword.text_of_ofText? hk)
      rw [String.toList_ofList] at htext
      rw [← htext]
      exact .keyword k
  | none =>
      refine ⟨_, rfl, .identifier hword fun k h => ?_, by simp⟩
      rw [← h, String.ofList_toList, Keyword.ofText?_text] at hk
      cases hk

/-- A reserved word that ends where the text goes on otherwise. -/
theorem wordLexeme_keyword {k : Keyword} {c : Char} {cs rest : List Char}
    (h : k.text.toList = c :: cs) (hrest : ∀ d ∈ rest.head?, ¬ Inner d) :
    wordLexeme c (cs ++ rest) = .plain cs (.keyword k) := by
  have htail := wordLexeme_tail_eq (h ▸ word_keyword k) hrest
  have htext : String.ofList (c :: cs) = k.text := by
    rw [← h, String.ofList_toList]
  unfold wordLexeme
  dsimp only
  rw [htail, htext, Keyword.ofText?_text]

/-- An identifier that ends where the text goes on otherwise. -/
theorem wordLexeme_identifier {c : Char} {cs rest : List Char}
    (h : Word (c :: cs)) (hk : ∀ k : Keyword, k.text.toList ≠ c :: cs)
    (hrest : ∀ d ∈ rest.head?, ¬ Inner d) :
    wordLexeme c (cs ++ rest) = .plain cs .identifier := by
  have htail := wordLexeme_tail_eq h hrest
  unfold wordLexeme
  dsimp only
  rw [htail]
  cases hk' : Keyword.ofText? (String.ofList (c :: cs)) with
  | none => rfl
  | some k =>
      refine absurd ?_ (hk k)
      rw [Keyword.text_of_ofText? hk', String.toList_ofList]

-- ============================================================ strings

theorem unescape?_eq_some {c d : Char} :
    unescape? c = some d ↔ (c, d) ∈ escapes := by
  refine ⟨fun h => ?_, fun h => ?_⟩
  · unfold unescape? at h
    split at h
    case h_7 => cases h
    all_goals
      cases h
      decide
  · simp only [escapes, List.mem_cons, List.not_mem_nil, or_false,
      Prod.mk.injEq] at h
    rcases h with ⟨rfl, rfl⟩ | ⟨rfl, rfl⟩ | ⟨rfl, rfl⟩ | ⟨rfl, rfl⟩
      | ⟨rfl, rfl⟩ | ⟨rfl, rfl⟩ <;> rfl

theorem unescape?_eq_none {c : Char} :
    unescape? c = none ↔ ∀ d, (c, d) ∉ escapes := by
  simp only [← unescape?_eq_some]
  exact Option.eq_none_iff_forall_ne_some

/-- A literal that is closed is read up to its closing quote, as the
grammar decodes it. -/
theorem decodes_read (offset : Nat) (cs : List Char)
    (h : (StringBody.read offset cs).closed = true) :
    ∃ body, (StringBody.read offset cs).taken = body ++ ['"']
      ∧ Decodes body (StringBody.read offset cs).value := by
  fun_induction StringBody.read offset cs with
  | case1 | case2 | case4 | case5 => cases h
  | case3 => exact ⟨[], rfl, .nil⟩
  | case6 offset c cs hc body taken d hd ih =>
      obtain ⟨inner, htaken, hdecodes⟩ := ih h
      refine ⟨'\\' :: c :: inner, ?_,
        .escape (.known (unescape?_eq_some.1 hd)) hdecodes⟩
      simp only [taken, body, htaken, List.cons_append]
  | case7 offset c cs hc body taken hd ih =>
      obtain ⟨inner, htaken, hdecodes⟩ := ih h
      refine ⟨'\\' :: c :: inner, ?_,
        .escape (.unknown (unescape?_eq_none.1 hd) hc) hdecodes⟩
      simp only [taken, body, htaken, List.cons_append]
  | case8 offset c cs hline hquote hback hback' hback'' body ih =>
      obtain ⟨inner, htaken, hdecodes⟩ := ih h
      refine ⟨c :: inner, ?_, .plain ?_ hdecodes⟩
      · simp only [body, htaken, List.cons_append]
      · have hbackslash : c ≠ '\\' := by
          rintro rfl
          cases cs with
          | nil => exact hback rfl rfl
          | cons d cs => exact hback'' d cs rfl rfl
        simp only [List.mem_cons, List.not_mem_nil, or_false, not_or]
        exact ⟨hquote, hbackslash, hline⟩

theorem read_plain {c : Char} (h : c ∉ ['"', '\\', '\n']) (offset : Nat)
    (cs : List Char) :
    StringBody.read offset (c :: cs) =
      let body := StringBody.read (offset + c.utf8Size) cs
      ⟨c :: body.taken, c :: body.value, body.strays, body.closed⟩ := by
  simp only [List.mem_cons, List.not_mem_nil, or_false, not_or] at h
  obtain ⟨hquote, hbackslash, hline⟩ := h
  exact StringBody.read.eq_7 offset c cs hline hquote
    (fun h _ => hbackslash h) (fun _ h _ => hbackslash h)
    fun _ _ h _ => hbackslash h

/-- A literal of the grammar is read as it is decoded. -/
theorem read_decodes {cs ds : List Char} (h : Decodes cs ds) (offset : Nat)
    (rest : List Char) :
    ∃ strays, StringBody.read offset (cs ++ '"' :: rest)
      = ⟨cs ++ ['"'], ds, strays, true⟩ := by
  induction h generalizing offset with
  | nil => exact ⟨[], rfl⟩
  | @plain c cs ds hc _ ih =>
      obtain ⟨strays, ih⟩ := ih (offset + c.utf8Size)
      refine ⟨strays, ?_⟩
      rw [List.cons_append, read_plain hc, ih]
      rfl
  | @escape c d cs ds hc _ ih =>
      obtain ⟨strays, ih⟩ := ih (offset + 1 + c.utf8Size)
      rw [List.cons_append, List.cons_append]
      cases hc with
      | known h =>
          have hline : c ≠ '\n' := by
            rintro rfl
            cases unescape?_eq_some.2 h
          refine ⟨strays, ?_⟩
          rw [StringBody.read.eq_6 _ _ _ hline, ih, unescape?_eq_some.2 h]
          rfl
      | unknown h hline =>
          refine ⟨(offset, c) :: strays, ?_⟩
          rw [StringBody.read.eq_6 _ _ _ hline, ih, unescape?_eq_none.2 h]
          rfl

theorem taken_isPrefix (offset : Nat) (cs : List Char) :
    (StringBody.read offset cs).taken <+: cs := by
  fun_induction StringBody.read offset cs with
  | case1 | case2 => exact List.nil_prefix
  | case3 | case4 | case5 =>
      exact (List.prefix_cons_inj _).2 List.nil_prefix
  | case6 _ _ _ _ _ _ _ _ ih =>
      exact (List.prefix_cons_inj _).2 ((List.prefix_cons_inj _).2 ih)
  | case7 _ _ _ _ _ _ _ ih =>
      exact (List.prefix_cons_inj _).2 ((List.prefix_cons_inj _).2 ih)
  | case8 _ _ _ _ _ _ _ _ _ ih => exact (List.prefix_cons_inj _).2 ih

-- ============================================================ lexemes

/-- A lexeme that agrees with the grammar: it is a run of the text, and a
token is spelled as the grammar says, and clear of what follows. What is no
token is an error. -/
structure Lexeme.Fits (c : Char) (cs : List Char) (l : Lexeme) : Prop where
  tail : l.tail <+: cs
  spells : ∀ k, l.outcome = .ok k → Spells (c :: l.tail) k
  clear : ∀ k, l.outcome = .ok k → Clear k (cs.drop l.tail.length)
  error : ∀ f, l.outcome = .error f → f.report.severity = .error

namespace Lexeme.Fits

variable {c : Char} {tail : List Char}

theorem operator {o : Operator} (ho : o.text.toList = c :: tail)
    (htail : tail <+: cs) : (Lexeme.plain tail (.operator o)).Fits c cs where
  tail := htail
  spells := by
    rintro _ ⟨⟩
    exact ho ▸ .operator o
  clear := by
    rintro _ ⟨⟩ _ ⟨⟩
  error _ h := nomatch h

theorem punct {p : Punct} (hp : p.text.toList = [c]) :
    (Lexeme.plain [] (.punct p)).Fits c cs where
  tail := List.nil_prefix
  spells := by
    rintro _ ⟨⟩
    exact hp ▸ .punct p
  clear := by
    rintro _ ⟨⟩ _ ⟨⟩
  error _ h := nomatch h

theorem unexpected (hint : Option String) :
    (Lexeme.faulty [] (.unexpectedCharacter c hint)).Fits c cs where
  tail := List.nil_prefix
  spells _ h := nomatch h
  clear _ h := nomatch h
  error := by
    rintro _ ⟨⟩
    rfl

theorem withEquals {one two : Operator} (hone : one.text.toList = [c])
    (htwo : two.text.toList = [c, '=']) :
    (withEquals cs one two).Fits c cs := by
  unfold Token.withEquals
  split
  · exact operator htwo ((List.prefix_cons_inj _).2 List.nil_prefix)
  · exact operator hone List.nil_prefix

theorem doubled {o : Operator} (ho : o.text.toList = [c, c]) :
    (doubled c cs o).Fits c cs := by
  unfold Token.doubled
  split
  case isTrue h =>
      refine operator ho ?_
      obtain ⟨cs, rfl⟩ := List.head?_eq_some_iff.1 h
      exact (List.prefix_cons_inj _).2 List.nil_prefix
  case isFalse => exact unexpected _

theorem string (cs : List Char) : (stringLexeme cs).Fits '"' cs := by
  have htaken := taken_isPrefix 1 cs
  have hdecodes := decodes_read 1 cs
  unfold stringLexeme
  dsimp only
  cases hclosed : (StringBody.read 1 cs).closed with
  | true =>
      refine ⟨htaken, ?_, ?_, fun _ h => nomatch h⟩
      · rintro _ ⟨⟩
        obtain ⟨body, htaken, hbody⟩ := hdecodes hclosed
        rw [htaken]
        exact .string hbody
      · rintro _ ⟨⟩ _ ⟨⟩
  | false =>
      refine ⟨htaken, (fun _ h => nomatch h), (fun _ h => nomatch h), ?_⟩
      rintro _ ⟨⟩
      rfl

theorem word (hc : Initial c) (cs : List Char) :
    (wordLexeme c cs).Fits c cs := by
  obtain ⟨k, hk, hspells, hnumber⟩ := spells_wordLexeme hc cs
  rw [← wordLexeme_tail c cs] at hspells
  refine ⟨?_, ?_, ?_, ?_⟩
  · rw [wordLexeme_tail]
    exact cs.takeWhile_prefix _
  · intro k' hk'
    rw [hk] at hk'
    cases hk'
    exact hspells
  · intro k' hk' x hx
    rw [hk] at hk'
    cases hk'
    exact absurd hx (hnumber x)
  · intro f hf
    rw [hk] at hf
    cases hf

theorem number (hc : Digit c) (cs : List Char) :
    (numberLexeme c cs).Fits c cs := by
  obtain ⟨whole, fraction, e, behind, hparts⟩ := parts_exist cs
  rcases numberLexeme_cases (c := c) hparts with
    ⟨h, hbehind, hbroken⟩ | ⟨f, h, -⟩
  · rw [h]
    have hspells := hparts.spells hc hbroken
    have htext : cs = whole ++ fraction ++ e.taken ++ behind := by
      simpa only [List.append_assoc] using hparts.text
    refine ⟨⟨behind, htext.symm⟩, ?_, ?_, fun _ h => nomatch h⟩
    · rintro _ ⟨⟩
      exact hspells
    · rintro _ ⟨⟩ _ -
      rw [htext]
      dsimp only [Lexeme.plain]
      rw [List.drop_left]
      exact startsInWord_eq_false.1 hbehind
  · rw [h]
    refine ⟨?_, (fun _ h => nomatch h), (fun _ h => nomatch h), ?_⟩
    · dsimp only [Lexeme.faulty]
      rw [hparts.text]
      simp only [List.append_assoc, List.prefix_append_right_inj]
      exact behind.takeWhile_prefix _
    · rintro _ ⟨⟩
      rfl

end Lexeme.Fits

/-- Every lexeme agrees with the grammar. -/
theorem fits_lexemeAt (c : Char) (cs : List Char) :
    (lexemeAt c cs).Fits c cs := by
  unfold lexemeAt
  split
  case h_18 => exact .string cs
  case h_19 => 
      split
      case isTrue h => exact .number (isDigit_iff.1 h) cs
      case isFalse =>
          split
          case isTrue h => exact .word (isWordStart_iff.1 h) cs
          case isFalse => exact .unexpected none
  all_goals first
    | exact .punct rfl
    | exact .operator rfl List.nil_prefix
    | exact .withEquals rfl rfl
    | exact .doubled rfl

/-- No spelling is longer than the lexeme at its place. -/
theorem length_le_lexemeAt {c : Char} {v rest : List Char} {k : Kind}
    (hv : Spells v k) (h : v ++ rest = c :: cs) :
    v.length ≤ (lexemeAt c cs).tail.length + 1 := by
  have hword (hv : Word v) : v.length ≤ (lexemeAt c cs).tail.length + 1 := by
    cases hv with
    | mk hd hds =>
        obtain ⟨rfl, rfl⟩ := List.cons.inj h
        rw [lexemeAt_initial hd, wordLexeme_tail]
        exact Nat.succ_le_succ (length_le_takeWhile
          (fun d hd => isWordChar_iff.2 (hds d hd)) rest)
  cases hv with
  | keyword k => exact hword (word_keyword k)
  | identifier hv => exact hword hv
  | number hv =>
      obtain ⟨d, ds, rfl, hd⟩ := numeral_head hv
      have hle := length_le_numberLexeme hv h
      obtain ⟨rfl, -⟩ := List.cons.inj h
      rwa [lexemeAt_digit hd]
  | @string body ds hv =>
      obtain ⟨rfl, rfl⟩ := List.cons.inj h
      obtain ⟨strays, hread⟩ := read_decodes hv 1 rest
      have htail : (stringLexeme (body ++ ['"'] ++ rest)).tail
          = body ++ ['"'] := by
        rw [List.append_assoc]
        unfold stringLexeme
        rw [List.singleton_append, hread]
      exact Nat.le_of_eq (congrArg (·.length + 1) htail.symm)
  | operator o =>
      cases o
      case equal | notEqual | lessEqual | greaterEqual | and | or =>
          cases h
          exact Nat.le_refl _
      all_goals exact Nat.le_add_left ..
  | punct p => cases p <;> exact Nat.le_add_left ..

/-- A word that is as long as can be ends where the text goes on
otherwise. -/
theorem not_inner_of_longest {w rest : List Char} (h : Longest w rest)
    (hw : Word w) : ∀ d ∈ rest.head?, ¬ Inner d := by
  intro d hd hinner
  obtain ⟨rest, rfl⟩ := List.head?_eq_some_iff.1 hd
  cases hw with
  | @mk c cs hc hcs =>
      have hlonger : Word (c :: (cs ++ [d])) := by
        refine ⟨hc, fun x hx => ?_⟩
        rcases List.mem_append.1 hx with hx | hx
        · exact hcs x hx
        · rwa [List.mem_singleton.1 hx]
      obtain ⟨k, hk⟩ := spells_word hlonger
      have := h _ k hk ⟨rest, by simp⟩
      simp only [List.length_append, List.length_cons] at this
      omega

/-- An operator that is as long as can be is read as it is. -/
theorem withEquals_of_longest {c : Char} {rest : List Char}
    {one : Operator} (two : Operator) (htwo : two.text.toList = [c, '='])
    (hlongest : Longest [c] rest) :
    withEquals rest one two = .plain [] (.operator one) := by
  unfold withEquals
  split
  case h_1 rest =>
      have := hlongest _ _ (.operator two) ⟨rest, by rw [htwo]; rfl⟩
      rw [htwo] at this
      simp at this
  case h_2 => rfl

/-- Where the grammar has a token, the lexeme is this token. -/
theorem lexemeAt_of_spells {c : Char} {rest : List Char} {k : Kind}
    (h : Spells (c :: cs) k) (hlongest : Longest (c :: cs) rest)
    (hclear : Clear k rest) :
    (lexemeAt c (cs ++ rest)).tail = cs
      ∧ (lexemeAt c (cs ++ rest)).outcome = .ok k := by
  have hone {o : Operator}
      (h : lexemeAt c (cs ++ rest) = .plain cs (.operator o)) :
      (lexemeAt c (cs ++ rest)).tail = cs
        ∧ (lexemeAt c (cs ++ rest)).outcome = .ok (.operator o) := by
    rw [h]
    exact ⟨rfl, rfl⟩
  generalize hv : c :: cs = v at h
  cases h with
  | keyword k =>
      have hword := hv ▸ word_keyword k
      have hrest := not_inner_of_longest hlongest hword
      cases hword with
      | mk hc =>
          rw [lexemeAt_initial hc, wordLexeme_keyword hv.symm hrest]
          exact ⟨rfl, rfl⟩
  | identifier hword hk =>
      subst hv
      have hrest := not_inner_of_longest hlongest hword
      have hlexeme := wordLexeme_identifier hword hk hrest
      cases hword with
      | mk hc =>
          rw [lexemeAt_initial hc, hlexeme]
          exact ⟨rfl, rfl⟩
  | number hnumeral =>
      subst hv
      have hlexeme := numberLexeme_of_numeral hnumeral hlongest
        (hclear _ rfl)
      obtain ⟨d, ds, hd, hdigit⟩ := numeral_head hnumeral
      obtain ⟨rfl, -⟩ := List.cons.inj hd
      rw [lexemeAt_digit hdigit, hlexeme]
      exact ⟨rfl, rfl⟩
  | @string body ds hbody =>
      obtain ⟨rfl, rfl⟩ := List.cons.inj hv
      obtain ⟨strays, hread⟩ := read_decodes hbody 1 rest
      show (stringLexeme (body ++ ['"'] ++ rest)).tail = _
        ∧ (stringLexeme (body ++ ['"'] ++ rest)).outcome = _
      rw [List.append_assoc]
      unfold stringLexeme
      rw [List.singleton_append, hread]
      exact ⟨rfl, rfl⟩
  | operator o =>
      cases o
      case assign =>
          cases hv
          exact hone (withEquals_of_longest .equal rfl hlongest)
      case bang =>
          cases hv
          exact hone (withEquals_of_longest .notEqual rfl hlongest)
      case less =>
          cases hv
          exact hone (withEquals_of_longest .lessEqual rfl hlongest)
      case greater =>
          cases hv
          exact hone (withEquals_of_longest .greaterEqual rfl hlongest)
      all_goals
        cases hv
        exact ⟨rfl, rfl⟩
  | punct p =>
      cases p <;>
        cases hv <;>
        exact ⟨rfl, rfl⟩

end Token

end Script
