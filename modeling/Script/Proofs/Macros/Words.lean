/-
Macros stand for whole words. Replacing cuts a line into pieces for itself,
and does not ask the lexer; but where the lexer has no error to report, the
line splits into tokens, and each token is a run of pieces
(`pieces_token`). A word and a string are one piece each. A number is one
too, or is cut at the sign of its exponent: there are no names in it, as
each piece begins with a digit or is the sign.

So what a defined word stands for takes the place of the token that is this
word, and of nothing else.
-/
import Script.Proofs.Clean.Step
import Script.Proofs.Words.Splits

namespace Script.Clean

open Text Token Spelling

variable {ms : Macros} {c : Char} {cs w rest : List Char} {k : Kind}

-- ========================================================== characters

theorem isNameStart_iff : isNameStart c = true ↔ Initial c :=
  isWordStart_iff

theorem isNameChar_iff : isNameChar c = true ↔ Inner c := by
  rw [← isWordChar_iff]
  unfold isNameChar isWordChar isWordStart Char.isAlphanum
  simp only [Bool.or_eq_true, or_right_comm]

/-- A character that goes on with a number, as far as a piece does. -/
def Numeric (c : Char) : Prop := Inner c ∨ c = '.'

theorem numeric_iff : (isNameChar c || c == '.') = true ↔ Numeric c := by
  rw [Bool.or_eq_true, isNameChar_iff, beq_iff_eq]
  rfl

instance : DecidablePred Numeric :=
  fun _ => decidable_of_iff _ numeric_iff

-- ============================================================== pieces

theorem stringTail_isPrefix (cs : List Char) : stringTail cs <+: cs := by
  fun_induction stringTail cs with
  | case1 => exact List.nil_prefix
  | case2 => exact (List.prefix_cons_inj _).2 List.nil_prefix
  | case3 c cs ih =>
      exact (List.prefix_cons_inj _).2 ((List.prefix_cons_inj _).2 ih)
  | case4 _ _ _ _ ih => exact (List.prefix_cons_inj _).2 ih

theorem pieceTail_isPrefix (c : Char) (cs : List Char) :
    pieceTail c cs <+: cs := by
  unfold pieceTail
  split
  · exact stringTail_isPrefix cs
  · split
    · exact List.takeWhile_prefix _
    · split
      · exact List.takeWhile_prefix _
      · exact List.nil_prefix

theorem pieces_cons (c : Char) (cs : List Char) :
    pieces (c :: cs)
      = (c :: pieceTail c cs) :: pieces (cs.drop (pieceTail c cs).length) := by
  rw [pieces]

/-- A piece in front of the others. -/
theorem pieces_of_tail {tail : List Char}
    (h : pieceTail c (tail ++ rest) = tail) :
    pieces (c :: tail ++ rest) = (c :: tail) :: pieces rest := by
  rw [List.cons_append, pieces_cons, h, List.drop_left]

/-- The pieces of a line are all of it. -/
theorem flatten_pieces (cs : List Char) : (pieces cs).flatten = cs := by
  fun_induction pieces cs with
  | case1 => rfl
  | case2 c cs tail ih =>
      rw [List.flatten_cons, ih, List.cons_append]
      exact congrArg _
        (List.prefix_iff_eq_append.1 (pieceTail_isPrefix c cs))

theorem pieces_string {cs ds : List Char} (h : Decodes cs ds) :
    pieces ('"' :: (cs ++ ['"']) ++ rest)
      = ('"' :: (cs ++ ['"'])) :: pieces rest := by
  refine pieces_of_tail (?_ : stringTail (cs ++ ['"'] ++ rest) = _)
  induction h with
  | nil => rfl
  | @plain c cs ds hc _ ih =>
      simp only [List.mem_cons, List.not_mem_nil, or_false, not_or] at hc
      obtain ⟨hquote, hbackslash, -⟩ := hc
      rw [List.cons_append, List.cons_append, stringTail.eq_4 _ _ hquote
        fun _ _ h _ => hbackslash h, ih]
  | @escape c d cs ds _ _ ih =>
      show '\\' :: c :: stringTail (cs ++ ['"'] ++ rest) = _
      rw [ih]
      rfl

/-- A piece that begins as a name does is a word. -/
theorem pieceTail_of_start (h : isNameStart c = true) (cs : List Char) :
    pieceTail c cs = cs.takeWhile isNameChar := by
  have hquote : (c == '"') = false := by
    refine beq_eq_false_iff_ne.2 ?_
    rintro rfl
    cases h
  have hdigit : c.isDigit = false := Bool.eq_false_iff.2 fun hdigit =>
    not_digit_of_initial (isNameStart_iff.1 h) (isDigit_iff.1 hdigit)
  simp only [pieceTail, hquote, hdigit, h, if_true, if_false,
    Bool.false_eq_true]

theorem pieces_word (h : Word w) (hrest : ∀ d ∈ rest.head?, ¬ Inner d) :
    pieces (w ++ rest) = w :: pieces rest := by
  cases h with
  | @mk c cs hc hcs =>
      refine pieces_of_tail ?_
      rw [pieceTail_of_start (isNameStart_iff.2 hc)]
      exact takeWhile_eq (fun d hd => isNameChar_iff.2 (hcs d hd))
        fun d hd => Bool.eq_false_iff.2 (mt isNameChar_iff.1 (hrest d hd))

/-- A piece that begins with a digit goes on as far as it can. -/
theorem pieces_digit (hc : Digit c) (hcs : ∀ d ∈ cs, Numeric d)
    (hrest : ∀ d ∈ rest.head?, ¬ Numeric d) :
    pieces (c :: cs ++ rest) = (c :: cs) :: pieces rest := by
  refine pieces_of_tail ?_
  have hdigit : c.isDigit = true := isDigit_iff.2 hc
  have hquote : (c == '"') = false := by
    refine beq_eq_false_iff_ne.2 ?_
    rintro rfl
    cases hdigit
  simp only [pieceTail, hquote, hdigit, if_true, if_false,
    Bool.false_eq_true]
  exact takeWhile_eq (fun d hd => numeric_iff.2 (hcs d hd))
    fun d hd => Bool.eq_false_iff.2 (mt numeric_iff.1 (hrest d hd))

/-- A character that begins neither a string nor a number nor a word. -/
def Mark (c : Char) : Prop :=
  c ≠ '"' ∧ c.isDigit = false ∧ isNameStart c = false

instance : DecidablePred Mark :=
  fun _ => inferInstanceAs (Decidable (_ ∧ _ ∧ _))

theorem Mark.pieceTail (h : Mark c) (cs : List Char) :
    pieceTail c cs = [] := by
  obtain ⟨hquote, hdigit, hstart⟩ := h
  simp only [Clean.pieceTail, beq_eq_false_iff_ne.2 hquote, hdigit, hstart,
    if_false, Bool.false_eq_true]

theorem marks {cs : List Char} (h : cs.all (Mark ·) = true) :
    ∀ c ∈ cs, Mark c :=
  fun c hc => of_decide_eq_true (List.all_eq_true.1 h c hc)

theorem marks_operator (o : Operator) : ∀ c ∈ o.text.toList, Mark c :=
  marks (by cases o <;> rfl)

theorem marks_punct (p : Punct) : ∀ c ∈ p.text.toList, Mark c :=
  marks (by cases p <;> rfl)

theorem mark_of_space (h : Space c) : Mark c := by
  simp only [Space, List.mem_cons, List.not_mem_nil, or_false] at h
  rcases h with rfl | rfl | rfl | rfl <;> decide

/-- Pieces in front of others, which take some characters and are no
names. -/
def Nameless (w rest : List Char) : Prop :=
  ∃ ps, pieces (w ++ rest) = ps ++ pieces rest ∧ ps.flatten = w
    ∧ ∀ p ∈ ps, isMacroName p = false

theorem Nameless.append {w' : List Char} (h : Nameless w (w' ++ rest))
    (h' : Nameless w' rest) : Nameless (w ++ w') rest := by
  obtain ⟨ps, hps, hw, hnames⟩ := h
  obtain ⟨ps', hps', hw', hnames'⟩ := h'
  refine ⟨ps ++ ps', ?_, ?_, List.forall_mem_append.2 ⟨hnames, hnames'⟩⟩
  · rw [List.append_assoc, hps, hps', List.append_assoc]
  · rw [List.flatten_append, hw, hw']

/-- A piece that does not begin as a name does. -/
theorem nameless_of_piece (h : pieces (c :: cs ++ rest)
    = (c :: cs) :: pieces rest) (hc : isNameStart c = false) :
    Nameless (c :: cs) rest :=
  ⟨[c :: cs], h, by simp, by simp [isMacroName, hc]⟩

theorem nameless_marks (h : ∀ c ∈ w, Mark c) : Nameless w rest := by
  induction w with
  | nil => exact ⟨[], rfl, rfl, List.forall_mem_nil _⟩
  | cons c cs ih =>
      obtain ⟨hc, hcs⟩ := List.forall_mem_cons.1 h
      have hpiece : pieces (c :: [] ++ (cs ++ rest))
          = [c] :: pieces (cs ++ rest) :=
        pieces_of_tail (hc.pieceTail (cs ++ rest))
      exact (nameless_of_piece hpiece hc.2.2).append (ih hcs)

theorem nameless_string {ds : List Char} (h : Decodes cs ds) :
    Nameless ('"' :: (cs ++ ['"'])) rest :=
  nameless_of_piece (pieces_string h) rfl

/-- A number is cut at the sign of its exponent, and else it is one
piece. -/
theorem nameless_numeral {n : Number.Numeral} (h : Numeral w n)
    (hrest : ∀ d ∈ rest.head?, ¬ Numeric d) : Nameless w rest := by
  have hrun {c : Char} {cs rest : List Char} (hc : Digit c)
      (hcs : ∀ d ∈ cs, Numeric d) (hrest : ∀ d ∈ rest.head?, ¬ Numeric d) :
      Nameless (c :: cs) rest :=
    nameless_of_piece (pieces_digit hc hcs hrest)
      (Bool.eq_false_iff.2 fun h =>
        not_digit_of_initial (isNameStart_iff.1 h) hc)
  have hdigits {ds : List Char} (h : ∀ d ∈ ds, Digit d) :
      ∀ d ∈ ds, Numeric d := fun d hd => .inl (.inr (h d hd))
  cases h with
  | @mk whole f fraction e exponent hwhole hf he =>
  obtain ⟨d, whole, rfl⟩ := List.exists_cons_of_ne_nil hwhole.1
  obtain ⟨hd, hwhole⟩ := List.forall_mem_cons.1 hwhole.2
  have hfront : ∀ d ∈ whole ++ f, Numeric d := by
    refine List.forall_mem_append.2 ⟨hdigits hwhole, ?_⟩
    cases hf with
    | absent => exact List.forall_mem_nil _
    | point h => exact List.forall_mem_cons.2 ⟨.inr rfl, hdigits h.2⟩
  cases he with
  | absent =>
      rw [List.append_nil]
      exact hrun hd hfront hrest
  | @marked m s ds negative hm hs hds =>
      have hmarked : ∀ d ∈ whole ++ f ++ [m], Numeric d :=
        List.forall_mem_append.2 ⟨hfront,
          List.forall_mem_singleton.2 (.inl (inner_of_marker hm))⟩
      have hsigned {c : Char} (hc : Mark c) (hc' : ¬ Numeric c) :
          Nameless (d :: whole ++ (f ++ m :: ([c] ++ ds))) rest := by
        obtain ⟨x, xs, rfl⟩ := List.exists_cons_of_ne_nil hds.1
        obtain ⟨hx, hxs⟩ := List.forall_mem_cons.1 hds.2
        have hfront : Nameless (d :: (whole ++ f ++ [m]))
            (([c] ++ x :: xs) ++ rest) :=
          hrun hd hmarked (by rintro _ ⟨⟩; exact hc')
        have hcut := hfront.append
          ((nameless_marks (List.forall_mem_singleton.2 hc)).append
            (hrun hx (hdigits hxs) hrest))
        simpa using hcut
      cases hs with
      | absent =>
          have hall := List.forall_mem_append.2 ⟨hmarked, hdigits hds.2⟩
          simpa using hrun hd hall hrest
      | plus => exact hsigned (by decide) (by decide)
      | minus => exact hsigned (by decide) (by decide)

-- ============================================================== tokens

/-- What is put for a piece. -/
def Macros.put (ms : Macros) (piece : List Char) : List Char :=
  (ms.replacement? piece).getD piece

/-- What a token is replaced by, if it is a defined word. -/
def Macros.entry? (ms : Macros) (t : Token) : Option (List Char) :=
  match t.kind with
  | .identifier | .keyword _ => ms.lookup t.text
  | _ => none

theorem text_expandPieces (ms : Macros) (derived origin : Nat)
    (ps : List (List Char)) :
    (expandPieces ms derived origin ps).text = ps.flatMap ms.put := by
  induction ps generalizing derived origin with
  | nil => rfl
  | cons p ps ih =>
      rw [List.flatMap_cons, Macros.put]
      unfold expandPieces
      dsimp only
      split
      case h_1 h => rw [h, ih]; rfl
      case h_2 r h => rw [h, ih]; rfl

theorem flatMap_put_eq_flatten {ps : List (List Char)}
    (h : ∀ p ∈ ps, ms.put p = p) : ps.flatMap ms.put = ps.flatten := by
  induction ps with
  | nil => rfl
  | cons p ps ih =>
      obtain ⟨hp, hps⟩ := List.forall_mem_cons.1 h
      rw [List.flatMap_cons, List.flatten_cons, hp, ih hps]

theorem expandPieces_nil (derived origin : Nat) (ps : List (List Char)) :
    expandPieces [] derived origin ps = ⟨ps.flatten, []⟩ := by
  have hnone (p : List Char) : Macros.replacement? [] p = none := by
    unfold Macros.replacement?
    split <;> rfl
  induction ps generalizing derived origin with
  | nil => rfl
  | cons p ps ih =>
      unfold expandPieces
      simp only [hnone, ih, List.flatten_cons]

/-- Without macros the pieces of a line are put together again. -/
theorem expand_eq (ms : Macros) (line : List Char) :
    expand ms line = expandPieces ms 0 0 (pieces line) := by
  unfold expand
  split
  case isTrue h =>
      rw [List.isEmpty_iff.1 h, expandPieces_nil, flatten_pieces]
  case isFalse => rfl

/-- Replacing puts something for each piece of a line. -/
theorem text_expand (ms : Macros) (line : List Char) :
    (expand ms line).text = (pieces line).flatMap ms.put := by
  rw [expand_eq, text_expandPieces]

theorem put_of_unnamed {p : List Char} (h : isMacroName p = false) :
    ms.put p = p := by
  unfold Macros.put Macros.replacement?
  rw [h]
  rfl

/-- A token is a run of pieces, and its entry is put in place of them. -/
theorem pieces_token (ms : Macros) (s : Span) (hw : Spells w k)
    (hlongest : Longest w rest) (hclear : Clear k rest)
    (hpoint : ∀ d ∈ rest.head?, d ≠ '.') :
    ∃ ps, pieces (w ++ rest) = ps ++ pieces rest
      ∧ ps.flatMap ms.put = (ms.entry? ⟨k, String.ofList w, s⟩).getD w := by
  have hname (h : Word w) : pieces (w ++ rest) = [w] ++ pieces rest
      ∧ [w].flatMap ms.put = (ms.lookup (String.ofList w)).getD w := by
    refine ⟨pieces_word h (not_inner_of_longest hlongest h), ?_⟩
    have hname : isMacroName w = true := by
      cases h with
      | mk hc hcs =>
          exact Bool.and_eq_true_iff.2 ⟨isNameStart_iff.2 hc,
            List.all_eq_true.2 fun d hd => isNameChar_iff.2 (hcs d hd)⟩
    simp [Macros.put, Macros.replacement?, hname]
  have hother (h : Nameless w rest) :
      ∃ ps, pieces (w ++ rest) = ps ++ pieces rest
        ∧ ps.flatMap ms.put = w := by
    obtain ⟨ps, hps, hw, hnames⟩ := h
    exact ⟨ps, hps, (flatMap_put_eq_flatten fun p hp =>
      put_of_unnamed (hnames p hp)).trans hw⟩
  cases hw with
  | keyword k => exact ⟨_, hname (word_keyword k)⟩
  | identifier h => exact ⟨_, hname h⟩
  | string h => exact hother (nameless_string h)
  | operator o => exact hother (nameless_marks (marks_operator o))
  | punct p => exact hother (nameless_marks (marks_punct p))
  | number h =>
      refine hother (nameless_numeral h ?_)
      rintro d hd (hinner | rfl)
      · exact hclear _ rfl d hd hinner
      · exact hpoint _ hd rfl

-- =============================================================== lines

/-- The token with an entry that a place is in. -/
def Macros.wordAt? (ms : Macros) (ts : List Token) (x : Nat) :
    Option Token :=
  ts.find? fun t =>
    (ms.entry? t).isSome && (t.span.start ≤ x && x < t.span.stop)

/-- What becomes of the character at a place. The entry of a word is put
for its first character, and nothing for the others. -/
def Macros.putAt (ms : Macros) (ts : List Token) (x : Nat) (c : Char) :
    List Char :=
  match ms.wordAt? ts x with
  | none => [c]
  | some t => if x = t.span.start then (ms.entry? t).getD [] else []

/-- A text that begins at an offset, with the entries of tokens in place of
them, and all its other characters as they are. -/
def Macros.replaceWords (ms : Macros) (ts : List Token) (offset : Nat) :
    List Char → List Char
  | [] => []
  | c :: cs =>
      ms.putAt ts offset c ++ ms.replaceWords ts (offset + c.utf8Size) cs

section Lines

variable {ts ts' : List Token} {t : Token} {offset x : Nat} {file : FileId}

theorem wordAt?_eq_none (h : ∀ t ∈ ts, x < t.span.start) :
    ms.wordAt? ts x = none := by
  refine List.find?_eq_none.2 fun t ht => ?_
  have := h t ht
  simp only [Bool.and_eq_true, decide_eq_true_eq]
  omega

theorem wordAt?_cons_of_not (h : ms.entry? t = none ∨ t.span.stop ≤ x) :
    ms.wordAt? (t :: ts) x = ms.wordAt? ts x := by
  refine List.find?_cons_of_neg ?_
  simp only [Bool.and_eq_true, decide_eq_true_eq]
  rintro ⟨hentry, -, hlt⟩
  rcases h with h | h
  · rw [h] at hentry
    cases hentry
  · omega

theorem wordAt?_cons_of_entry {r : List Char} (h : ms.entry? t = some r)
    (hstart : t.span.start ≤ x) (hstop : x < t.span.stop) :
    ms.wordAt? (t :: ts) x = some t := by
  refine List.find?_cons_of_pos ?_
  simp [h, hstart, hstop]

theorem replaceWords_append (ms : Macros) (ts : List Token) (offset : Nat)
    (xs ys : List Char) :
    ms.replaceWords ts offset (xs ++ ys)
      = ms.replaceWords ts offset xs
        ++ ms.replaceWords ts (offset + byteLength xs) ys := by
  induction xs generalizing offset with
  | nil => rfl
  | cons c xs ih =>
      rw [List.cons_append, Macros.replaceWords, Macros.replaceWords, ih,
        byteLength_cons, List.append_assoc, Nat.add_assoc]

/-- Where the same words are, the same becomes of a text. -/
theorem replaceWords_congr (h : ∀ x, offset ≤ x →
      ms.wordAt? ts x = ms.wordAt? ts' x) (cs : List Char) :
    ms.replaceWords ts offset cs = ms.replaceWords ts' offset cs := by
  induction cs generalizing offset with
  | nil => rfl
  | cons c cs ih =>
      rw [Macros.replaceWords, Macros.replaceWords, Macros.putAt,
        Macros.putAt, h offset (Nat.le_refl _),
        ih fun x hx => h x (Nat.le_of_add_right_le hx)]

/-- Where no words are, a text stays. -/
theorem replaceWords_eq_self (h : ∀ x, offset ≤ x →
      x < offset + byteLength cs → ms.wordAt? ts x = none) :
    ms.replaceWords ts offset cs = cs := by
  induction cs generalizing offset with
  | nil => rfl
  | cons c cs ih =>
      have hc := c.utf8Size_pos
      rw [byteLength_cons] at h
      rw [Macros.replaceWords, Macros.putAt,
        h offset (Nat.le_refl _) (by omega),
        ih fun x hx hx' => h x (by omega) (by omega)]
      rfl

/-- Nothing is put behind the first character of a word. -/
theorem replaceWords_inside (hstart : t.span.start < offset)
    (h : ∀ x, offset ≤ x → x < offset + byteLength cs →
      ms.wordAt? ts x = some t) : ms.replaceWords ts offset cs = [] := by
  induction cs generalizing offset with
  | nil => rfl
  | cons c cs ih =>
      have hc := c.utf8Size_pos
      rw [byteLength_cons] at h
      rw [Macros.replaceWords, Macros.putAt,
        h offset (Nat.le_refl _) (by omega),
        ih (by omega) fun x hx hx' => h x (by omega) (by omega),
        List.append_nil]
      exact if_neg (Nat.ne_of_gt hstart)

theorem start_le_of_splits (h : Splits file offset cs ts) :
    ∀ t ∈ ts, offset ≤ t.span.start := by
  induction h with
  | done => exact List.forall_mem_singleton.2 (Nat.le_refl _)
  | space _ _ ih => exact fun t ht => Nat.le_of_add_right_le (ih t ht)
  | token _ _ _ _ ih =>
      exact List.forall_mem_cons.2 ⟨Nat.le_refl _,
        fun t ht => Nat.le_of_add_right_le (ih t ht)⟩

/-- A point begins no token. -/
theorem ne_point_of_splits (h : Splits file offset cs ts) :
    ∀ d ∈ cs.head?, d ≠ '.' := by
  cases h with
  | done => exact fun d hd => nomatch hd
  | space hc =>
      rintro _ ⟨⟩ rfl
      simp [Space] at hc
  | token hw hlongest hclear =>
      obtain ⟨c, cs, rfl, -⟩ := spells_head hw
      rintro _ ⟨⟩ rfl
      obtain ⟨-, htoken⟩ := lexemeAt_of_spells hw hlongest hclear
      cases htoken

/-- What is put for the pieces of a text that splits into tokens. -/
theorem flatMap_put_of_splits (h : Splits file offset cs ts) :
    (pieces cs).flatMap ms.put = ms.replaceWords ts offset cs := by
  induction h with
  | done =>
      rw [pieces]
      rfl
  | @space offset c cs ts hc h ih =>
      have hsize := c.utf8Size_pos
      have hnone : ms.wordAt? ts offset = none := wordAt?_eq_none fun t ht => by
        have := start_le_of_splits h t ht
        omega
      have hmark := mark_of_space hc
      rw [pieces_cons, hmark.pieceTail, List.flatMap_cons,
        put_of_unnamed (by simp [isMacroName, hmark.2.2]), List.length_nil,
        List.drop_zero, ih, Macros.replaceWords, Macros.putAt, hnone]
  | @token offset w rest k ts hw hlongest hclear h ih =>
      have hlater := start_le_of_splits h
      obtain ⟨ps, hps, hput⟩ := pieces_token ms
        ⟨file, offset, byteLength w⟩ hw hlongest hclear (ne_point_of_splits h)
      generalize ht : (⟨k, String.ofList w, ⟨file, offset, byteLength w⟩⟩
        : Token) = t at hput
      have hstart : t.span.start = offset := by rw [← ht]
      have hstop : t.span.stop = offset + byteLength w := by rw [← ht]; rfl
      have hrest : ms.replaceWords (t :: ts) (offset + byteLength w) rest
          = ms.replaceWords ts (offset + byteLength w) rest :=
        replaceWords_congr
          (fun x hx => wordAt?_cons_of_not (.inr (hstop ▸ hx))) rest
      rw [hps, List.flatMap_append, hput, ih, replaceWords_append, hrest]
      congr 1
      cases hentry : ms.entry? t with
      | none =>
          refine (replaceWords_eq_self fun x _ hx => ?_).symm
          rw [wordAt?_cons_of_not (.inl hentry)]
          exact wordAt?_eq_none fun u hu => Nat.lt_of_lt_of_le hx (hlater u hu)
      | some r =>
          -- the entry is put for the first character
          obtain ⟨c, cs, rfl, -⟩ := spells_head hw
          have hsize := c.utf8Size_pos
          rw [byteLength_cons] at hstop
          rw [Macros.replaceWords, Macros.putAt, wordAt?_cons_of_entry hentry
            (by omega) (by omega), replaceWords_inside (t := t) (by omega)
            fun x hx hx' => wordAt?_cons_of_entry hentry (by omega) (by omega)]
          simp [hstart, hentry]

end Lines

/-- Macros stand for whole tokens. Where the lexer has no error to report
about a line, replacing puts the entries of its identifiers and reserved
words in place of those that have one, and leaves all the rest as it is. -/
theorem expand_eq_replaceWords (ms : Macros) (file : FileId) (line : String)
    (h : hasErrors (Token.ofText file line).2 = false) :
    (expand ms line.toList).text
      = ms.replaceWords (Token.ofText file line).1 0 line.toList := by
  obtain ⟨haccepts, htokens⟩ := ofText_accepts_iff file line
  obtain ⟨ts, hts⟩ := haccepts.1 h
  rw [text_expand, htokens ts hts]
  exact flatMap_put_of_splits hts

/-- A name is replaced as a whole word, and not in a string. A reserved word
can have an entry too, and an entry is not looked at again. -/
theorem expand_words_only :
    hasErrors (Token.ofText 0 "print n+1e+5-\"\\n n\"*nn").2 = false
      ∧ (expand [("n", "n nn".toList), ("print", [])]
          "print n+1e+5-\"\\n n\"*nn".toList).text
        = " n nn+1e+5-\"\\n n\"*nn".toList := by
  have h : hasErrors (Token.ofText 0 "print n+1e+5-\"\\n n\"*nn").2
      = false := by decide +kernel
  refine ⟨h, (expand_eq_replaceWords _ 0 _ h).trans ?_⟩
  decide +kernel

end Script.Clean
