/-
Number lexemes. They are read in parts, whole digits, fraction and
exponent, each as far as it goes; where a part of the grammar ends, the
same part of the lexeme does not end earlier. So no number of the grammar
is longer than the lexeme, and the two agree where the number is clear of
what follows.
-/
import Mathlib.Data.List.TakeWhile
import Script.Proofs.Words.Spelling
import Script.Token.Lexeme

namespace Script

namespace Token

open Spelling

-- ========================================================= characters

theorem isSpace_iff {c : Char} : isSpace c = true ↔ Space c := by
  simp only [isSpace, Space, Bool.or_eq_true, beq_iff_eq, List.mem_cons,
    List.not_mem_nil, or_false]
  grind

theorem isDigit_iff {c : Char} : c.isDigit = true ↔ Digit c := by
  simp [Char.isDigit, Digit, Char.le_def]

theorem isWordStart_iff {c : Char} : isWordStart c = true ↔ Initial c := by
  have halpha : c.isAlpha = (decide (c.val ≥ 'A'.val ∧ c.val ≤ 'Z'.val)
      || (decide (c.val ≥ 'a'.val) && decide (c.val ≤ 'z'.val))) := rfl
  simp only [isWordStart, halpha, Initial, Char.le_def, Bool.or_eq_true,
    Bool.and_eq_true, decide_eq_true_eq, beq_iff_eq, ge_iff_le]
  exact or_assoc.trans or_left_comm

theorem isWordChar_iff {c : Char} :
    isWordChar c = true ↔ Spelling.Inner c := by
  simp [isWordChar, isWordStart_iff, isDigit_iff, Spelling.Inner]

theorem startsInWord_eq_false {cs : List Char} :
    startsInWord cs = false ↔ ∀ c ∈ cs.head?, ¬ Inner c := by
  cases cs <;> simp [startsInWord, ← isWordChar_iff]

theorem inner_of_digit {c : Char} (h : Digit c) : Inner c := .inr h

theorem inner_of_marker {m : Char} (h : m = 'e' ∨ m = 'E') : Inner m := by
  refine isWordChar_iff.1 ?_
  rcases h with rfl | rfl <;> decide

theorem not_digit_of_marker {m : Char} (h : m = 'e' ∨ m = 'E') :
    ¬ Digit m := by
  rw [← isDigit_iff]
  rcases h with rfl | rfl <;> decide

theorem not_digit_of_initial {c : Char} (h : Initial c) : ¬ Digit c := by
  rintro ⟨-, hdigit⟩
  rcases h with ⟨h, -⟩ | ⟨h, -⟩ | rfl
  · exact absurd (Char.le_trans h hdigit) (by decide)
  · exact absurd (Char.le_trans h hdigit) (by decide)
  · exact absurd hdigit (by decide)

-- =============================================================== runs

variable {p : Char → Bool} {xs rest : List Char}

/-- A run that ends where the characters are of another kind. -/
theorem takeWhile_eq (h : ∀ c ∈ xs, p c = true)
    (hrest : ∀ c ∈ rest.head?, p c = false) :
    (xs ++ rest).takeWhile p = xs := by
  rw [List.takeWhile_append_of_pos h]
  cases rest with
  | nil => rw [List.takeWhile_nil, List.append_nil]
  | cons c cs =>
      rw [List.takeWhile_cons_of_neg (by simp [hrest c rfl]), List.append_nil]

theorem length_le_takeWhile (h : ∀ c ∈ xs, p c = true) (rest : List Char) :
    xs.length ≤ ((xs ++ rest).takeWhile p).length := by
  rw [List.takeWhile_append_of_pos h, List.length_append]
  exact Nat.le_add_right ..

theorem isDigit_of_digits {ds : List Char} (h : Digits ds) :
    ∀ d ∈ ds, d.isDigit = true :=
  fun d hd => isDigit_iff.2 (h.2 d hd)

/-- Digits that end where the text goes on otherwise. -/
theorem takeWhile_digits {ds rest : List Char} (h : ∀ d ∈ ds, Digit d)
    (hrest : ∀ d ∈ rest.head?, ¬ Digit d) :
    (ds ++ rest).takeWhile Char.isDigit = ds :=
  takeWhile_eq (fun d hd => isDigit_iff.2 (h d hd))
    fun d hd => Bool.eq_false_iff.2 (mt isDigit_iff.1 (hrest d hd))

theorem digits_takeWhile {cs : List Char}
    (h : cs.takeWhile Char.isDigit ≠ []) :
    Digits (cs.takeWhile Char.isDigit) :=
  ⟨h, fun _ hd => isDigit_iff.1 (List.mem_takeWhile_imp hd)⟩

-- =========================================================== fractions

variable {f fraction e cs : List Char}
  {exponent : Option (Bool × List Char)}

theorem fractionAt_isPrefix (cs : List Char) : fractionAt cs <+: cs := by
  unfold fractionAt
  split
  case h_1 d cs =>
      split
      · exact List.prefix_cons_inj _ |>.2 <| List.prefix_cons_inj _ |>.2 <|
          List.takeWhile_prefix _
      · exact List.nil_prefix
  case h_2 => exact List.nil_prefix

theorem fraction_fractionAt (cs : List Char) :
    Fraction (fractionAt cs) ((fractionAt cs).drop 1) := by
  unfold fractionAt
  split
  case h_1 d cs =>
      split
      case isTrue h =>
          refine .point ⟨List.cons_ne_nil _ _, List.forall_mem_cons.2
            ⟨isDigit_iff.1 h, fun d hd => ?_⟩⟩
          exact isDigit_iff.1 (List.mem_takeWhile_imp hd)
      case isFalse => exact .absent
  case h_2 => exact .absent

/-- A fraction in front of a text is read, with the digits behind it. -/
theorem fractionAt_point {ds : List Char} (h : Digits ds) (rest : List Char) :
    fractionAt ('.' :: (ds ++ rest))
      = '.' :: (ds ++ rest).takeWhile Char.isDigit := by
  obtain ⟨d, ds, rfl⟩ := List.exists_cons_of_ne_nil h.1
  have hd := isDigit_iff.2 (h.2 d (List.mem_cons_self ..))
  unfold fractionAt
  rw [List.cons_append, List.takeWhile_cons_of_pos hd]
  exact if_pos hd

theorem fractionAt_eq_nil {rest : List Char}
    (h : ∀ d ds, rest = '.' :: d :: ds → ¬ Digit d) :
    fractionAt rest = [] := by
  unfold fractionAt
  split
  case h_1 d ds =>
      exact if_neg (mt isDigit_iff.1 (h d ds rfl))
  case h_2 => rfl

/-- A fraction that ends where the text goes on otherwise. -/
theorem fractionAt_eq {ds rest : List Char} (hf : Fraction f ds)
    (hrest : ∀ d ∈ rest.head?, ¬ Digit d)
    (hpoint : f = [] → ∀ d ds, rest = '.' :: d :: ds → ¬ Digit d) :
    fractionAt (f ++ rest) = f := by
  cases hf with
  | absent => exact fractionAt_eq_nil (hpoint rfl)
  | point h =>
      rw [List.cons_append, fractionAt_point h, takeWhile_digits h.2 hrest]

-- =========================================================== exponents

theorem signAt_isPrefix (cs : List Char) : signAt cs <+: cs := by
  unfold signAt
  split
  · exact List.prefix_cons_inj _ |>.2 List.nil_prefix
  · exact List.prefix_cons_inj _ |>.2 List.nil_prefix
  · exact List.nil_prefix

theorem sign_signAt (cs : List Char) :
    Sign (signAt cs) (signAt cs == ['-']) := by
  unfold signAt
  split
  · exact .plus
  · exact .minus
  · exact .absent

theorem exponentAt_isPrefix (cs : List Char) :
    (exponentAt cs).taken <+: cs := by
  cases cs with
  | nil => exact List.nil_prefix
  | cons m cs =>
      have hsign := List.prefix_iff_eq_append.1 (signAt_isPrefix cs)
      have hdigits := List.takeWhile_prefix (l := cs.drop (signAt cs).length)
        (p := Char.isDigit)
      unfold exponentAt
      dsimp only
      split
      · split
        · refine List.prefix_cons_inj _ |>.2 ?_
          conv => rhs; rw [← hsign]
          exact (List.prefix_append_right_inj _).2 hdigits
        · split
          · exact List.prefix_cons_inj _ |>.2 (signAt_isPrefix cs)
          · exact List.prefix_cons_inj _ |>.2 List.nil_prefix
      · exact List.nil_prefix

/-- An exponent that is read, as the grammar has it. -/
def ExponentPart.value : ExponentPart → Option (Bool × List Char)
  | .digits _ negative ds => some (negative, ds)
  | .absent | .broken _ => none

theorem exponent_exponentAt (cs : List Char)
    (h : ∀ t, exponentAt cs ≠ .broken t) :
    Exponent (exponentAt cs).taken (exponentAt cs).value := by
  cases cs with
  | nil => exact .absent
  | cons m cs =>
      unfold exponentAt at h ⊢
      dsimp only at h ⊢
      split
      case isTrue hm =>
          rw [if_pos hm] at h
          split
          case isTrue hds =>
              refine .marked ?_ (sign_signAt cs) (digits_takeWhile hds)
              simpa using hm
          case isFalse hds =>
              rw [if_neg hds] at h
              split
              case isTrue hw => exact absurd (if_pos hw) (h _)
              case isFalse hw => exact absurd (if_neg hw) (h _)
      case isFalse => exact .absent

/-- An exponent in front of a text is read, with the digits behind it. -/
theorem exponentAt_marked {m : Char} {s ds : List Char} {negative : Bool}
    (hm : m = 'e' ∨ m = 'E') (hs : Sign s negative) (h : Digits ds)
    (rest : List Char) :
    exponentAt (m :: (s ++ (ds ++ rest)))
      = .digits (m :: (s ++ (ds ++ rest).takeWhile Char.isDigit)) negative
        ((ds ++ rest).takeWhile Char.isDigit) := by
  have hsign : signAt (s ++ (ds ++ rest)) = s := by
    cases hs with
    | plus => rfl
    | minus => rfl
    | absent =>
        obtain ⟨d, ds, rfl⟩ := List.exists_cons_of_ne_nil h.1
        have hd := isDigit_iff.2 (h.2 d (List.mem_cons_self ..))
        rw [List.nil_append, List.cons_append]
        unfold signAt
        split
        · cases ‹d :: (ds ++ rest) = _›
          cases hd
        · cases ‹d :: (ds ++ rest) = _›
          cases hd
        · rfl
  have hnegative : (s == ['-']) = negative := by
    cases hs <;> rfl
  have hdigits : (ds ++ rest).takeWhile Char.isDigit ≠ [] := by
    rw [List.takeWhile_append_of_pos (isDigit_of_digits h)]
    exact List.append_ne_nil_of_left_ne_nil h.1 _
  unfold exponentAt
  dsimp only
  rw [if_pos (by simpa using hm), hsign, List.drop_left, if_pos hdigits,
    hnegative, List.cons_append]

theorem exponentAt_absent {rest : List Char}
    (h : ∀ m ∈ rest.head?, ¬ (m = 'e' ∨ m = 'E')) :
    exponentAt rest = .absent := by
  cases rest with
  | nil => rfl
  | cons m cs =>
      have hm : ¬ (m == 'e' || m == 'E') = true := by
        simpa using h m rfl
      unfold exponentAt
      exact if_neg hm

/-- An exponent that ends where the text goes on otherwise. -/
theorem exponentAt_eq {rest : List Char} (he : Exponent e exponent)
    (hrest : ∀ d ∈ rest.head?, ¬ Inner d) :
    ∃ part, exponentAt (e ++ rest) = part ∧ part.taken = e
      ∧ part.value = exponent ∧ ∀ t, part ≠ .broken t := by
  cases he with
  | absent =>
      refine ⟨.absent, exponentAt_absent fun m hm hmarker => ?_, rfl, rfl,
        by simp⟩
      exact hrest m hm (inner_of_marker hmarker)
  | @marked m s ds negative hm hs h =>
      have hdigits := takeWhile_digits h.2 fun d hd hdigit =>
        hrest d hd (inner_of_digit hdigit)
      refine ⟨.digits (m :: (s ++ ds)) negative ds, ?_, rfl, rfl, by simp⟩
      rw [List.cons_append, List.append_assoc, exponentAt_marked hm hs h,
        hdigits]

-- ============================================================ numbers

/-- The parts of a text behind the first digit of a number, as they are
read. -/
structure Parts (cs whole fraction : List Char) (e : ExponentPart)
    (behind : List Char) : Prop where
  text : cs = whole ++ (fraction ++ (e.taken ++ behind))
  whole : (whole ++ (fraction ++ (e.taken ++ behind))).takeWhile Char.isDigit
    = whole
  fraction : fractionAt (fraction ++ (e.taken ++ behind)) = fraction
  exponent : exponentAt (e.taken ++ behind) = e

theorem parts_exist (cs : List Char) : ∃ whole fraction e behind,
    Parts cs whole fraction e behind := by
  obtain ⟨cs₁, hwhole⟩ := cs.takeWhile_prefix (p := Char.isDigit)
  obtain ⟨cs₂, hfraction⟩ := fractionAt_isPrefix cs₁
  obtain ⟨cs₃, hexponent⟩ := exponentAt_isPrefix cs₂
  refine ⟨cs.takeWhile Char.isDigit, fractionAt cs₁, exponentAt cs₂, cs₃,
    ?_, ?_, ?_, ?_⟩
  · rw [hexponent, hfraction, hwhole]
  · rw [hexponent, hfraction, hwhole]
  · rw [hexponent, hfraction]
  · rw [hexponent]

/-- A number is read if its exponent is not broken and no word follows;
else it is malformed, and takes more than its parts. -/
theorem numberLexeme_cases {c : Char} {whole fraction behind : List Char}
    {e : ExponentPart} (h : Parts cs whole fraction e behind) :
    (numberLexeme c cs = .plain (whole ++ fraction ++ e.taken)
        (.number (Number.Numeral.value ⟨c :: whole, fraction.drop 1, e.value⟩))
      ∧ startsInWord behind = false ∧ ∀ t, e ≠ .broken t)
    ∨ (∃ f, numberLexeme c cs = .faulty (whole ++ fraction ++ e.taken
          ++ behind.takeWhile fun c => isWordChar c || c == '.')
            (.malformedNumber f)
      ∧ (startsInWord behind = true ∨ ∃ t, e = .broken t)) := by
  obtain ⟨rfl, hwhole, hfraction, hexponent⟩ := h
  unfold numberLexeme
  dsimp only
  rw [hwhole, List.drop_left, hfraction, List.drop_left, hexponent,
    List.drop_left]
  cases e with
  | broken t => exact .inr ⟨_, rfl, .inr ⟨t, rfl⟩⟩
  | absent =>
      dsimp only
      cases startsInWord behind with
      | false => exact .inl ⟨rfl, rfl, by simp⟩
      | true => exact .inr ⟨_, rfl, .inl rfl⟩
  | digits t negative ds =>
      dsimp only
      cases startsInWord behind with
      | false => exact .inl ⟨rfl, rfl, by simp⟩
      | true => exact .inr ⟨_, rfl, .inl rfl⟩

/-- The parts of a number are what the grammar calls them. -/
theorem Parts.spells {c : Char} {whole fraction behind : List Char}
    {e : ExponentPart} (h : Parts cs whole fraction e behind) (hc : Digit c)
    (hbroken : ∀ t, e ≠ .broken t) :
    Spells (c :: (whole ++ fraction ++ e.taken)) (.number
      (Number.Numeral.value ⟨c :: whole, fraction.drop 1, e.value⟩)) := by
  obtain ⟨rfl, hwhole, hfraction, hexponent⟩ := h
  have hdigits : Digits (c :: whole) := by
    refine ⟨List.cons_ne_nil _ _, List.forall_mem_cons.2 ⟨hc, ?_⟩⟩
    rw [← hwhole]
    exact fun d hd => isDigit_iff.1 (List.mem_takeWhile_imp hd)
  have hf := fraction_fractionAt (fraction ++ (e.taken ++ behind))
  have he := exponent_exponentAt (e.taken ++ behind) (by rwa [hexponent])
  rw [hfraction] at hf
  rw [hexponent] at he
  rw [List.append_assoc]
  exact .number (.mk hdigits hf he)

/-- A fraction or an exponent does not begin with a digit. -/
theorem not_digit_head {ds rest : List Char} (hf : Fraction f ds)
    (he : Exponent e exponent)
    (hrest : f = [] → e = [] → ∀ d ∈ rest.head?, ¬ Digit d) :
    ∀ d ∈ (f ++ (e ++ rest)).head?, ¬ Digit d := by
  cases hf with
  | point =>
      rintro _ ⟨⟩
      rw [← isDigit_iff]
      decide
  | absent =>
      cases he with
      | absent => exact hrest rfl rfl
      | marked hm =>
          rintro _ ⟨⟩
          exact not_digit_of_marker hm

theorem not_point_of_marker {m d : Char} {ds ds' : List Char}
    (hm : m = 'e' ∨ m = 'E') : m :: ds ≠ '.' :: d :: ds' := by
  rintro h
  obtain ⟨rfl, -⟩ := List.cons.inj h
  exact absurd hm (by decide)

theorem Parts.length_le {whole fraction behind : List Char}
    {part : ExponentPart} {w ds rest : List Char}
    (h : Parts (w ++ (f ++ (e ++ rest))) whole fraction part behind)
    (hw : ∀ d ∈ w, Digit d) (hf : Fraction f ds)
    (he : Exponent e exponent) :
    (w ++ (f ++ e)).length ≤ (whole ++ (fraction ++ part.taken)).length := by
  obtain ⟨htext, hwhole, hfraction, hexponent⟩ := h
  rw [← htext] at hwhole
  by_cases hnone : f = [] ∧ e = []
  · -- digits alone
    obtain ⟨rfl, rfl⟩ := hnone
    have := length_le_takeWhile (fun d hd => isDigit_iff.2 (hw d hd)) rest
    rw [List.nil_append, List.nil_append] at hwhole
    rw [hwhole] at this
    simp only [List.length_append, List.length_nil]
    omega
  have hhead : ∀ d ∈ (f ++ (e ++ rest)).head?, ¬ Digit d :=
    not_digit_head hf he fun hf he => absurd ⟨hf, he⟩ hnone
  rw [takeWhile_digits hw hhead] at hwhole
  subst hwhole
  have hbehind := List.append_cancel_left htext
  rw [← hbehind] at hfraction
  cases he with
  | absent =>
      cases hf with
      | absent => exact absurd ⟨rfl, rfl⟩ hnone
      | point hds =>
          rw [List.cons_append, List.nil_append, fractionAt_point hds]
            at hfraction
          have := length_le_takeWhile (isDigit_of_digits hds) rest
          rw [← hfraction]
          simp only [List.length_append, List.length_cons, List.length_nil]
          omega
  | @marked m s ds _ hm hs hds =>
      rw [fractionAt_eq hf] at hfraction
      · subst hfraction
        have hbehind := List.append_cancel_left hbehind
        rw [← hbehind, List.cons_append, List.append_assoc,
          exponentAt_marked hm hs hds] at hexponent
        have := length_le_takeWhile (isDigit_of_digits hds) rest
        rw [← hexponent]
        simp only [ExponentPart.taken, List.length_append, List.length_cons]
        omega
      · rintro _ ⟨⟩
        exact not_digit_of_marker hm
      · exact fun _ _ _ heq => absurd heq (not_point_of_marker hm)

/-- A number begins with a digit. -/
theorem numeral_head {v : List Char} {n : Number.Numeral}
    (hv : Numeral v n) : ∃ d ds, v = d :: ds ∧ Digit d := by
  cases hv with
  | mk hw =>
      obtain ⟨d, w, rfl⟩ := List.exists_cons_of_ne_nil hw.1
      exact ⟨d, _, rfl, hw.2 d (List.mem_cons_self ..)⟩

/-- No number is longer than the one that is read, be it malformed. -/
theorem length_le_numberLexeme {c : Char} {v rest : List Char}
    {n : Number.Numeral} (hv : Numeral v n) (h : v ++ rest = c :: cs) :
    v.length ≤ (numberLexeme c cs).tail.length + 1 := by
  obtain ⟨whole, fraction, part, behind, hparts⟩ := parts_exist cs
  have hlength : (whole ++ (fraction ++ part.taken)).length
      ≤ (numberLexeme c cs).tail.length := by
    rcases numberLexeme_cases (c := c) hparts with ⟨h, -⟩ | ⟨f, h, -⟩
    · rw [h, ← List.append_assoc]
      exact Nat.le_refl _
    · rw [h, ← List.append_assoc]
      exact (List.prefix_append ..).length_le
  cases hv with
  | @mk w f ds e _ hw hf he =>
  obtain ⟨d, w, rfl⟩ := List.exists_cons_of_ne_nil hw.1
  obtain ⟨rfl, hcs⟩ := List.cons.inj h
  have hcs : w ++ (f ++ (e ++ rest)) = cs := by
    rw [← hcs]
    simp only [List.append_eq, List.append_assoc]
  subst hcs
  have := hparts.length_le (List.forall_mem_cons.1 hw.2).2 hf he
  simp only [List.length_append, List.length_cons] at this hlength ⊢
  omega

/-- A number of the grammar that is as long as can be, and clear of what
follows, is read. -/
theorem numberLexeme_of_numeral {c : Char} {rest : List Char}
    {n : Number.Numeral} (h : Numeral (c :: cs) n)
    (hlongest : Longest (c :: cs) rest)
    (hclear : ∀ d ∈ rest.head?, ¬ Inner d) :
    numberLexeme c (cs ++ rest) = .plain cs (.number n.value) := by
  have hrest : ∀ d ∈ rest.head?, ¬ Digit d := fun d hd hdigit =>
    hclear d hd (inner_of_digit hdigit)
  generalize hv : c :: cs = v at h
  cases h with
  | @mk w f ds e exponent hw hf he =>
  obtain ⟨d, w, rfl⟩ := List.exists_cons_of_ne_nil hw.1
  obtain ⟨rfl, rfl⟩ := List.cons.inj hv
  have hpoint : f = [] → ∀ d ds, e ++ rest = '.' :: d :: ds → ¬ Digit d := by
    rintro rfl x xs heq hx
    cases hf
    cases he with
    | marked hm => exact not_point_of_marker hm heq
    | absent =>
        -- the number would be longer
        have hx : Digits [x] := ⟨List.cons_ne_nil _ _, by simpa using hx⟩
        have := hlongest _ _ (.number (.mk hw (.point hx) .absent))
          ⟨xs, by rw [List.nil_append] at heq; simp [heq]⟩
        simp only [List.append_eq, List.append_nil, List.length_append,
          List.length_cons] at this
        omega
  obtain ⟨part, hpart, rfl, rfl, hbroken⟩ := exponentAt_eq he hclear
  have hparts : Parts (w ++ (f ++ part.taken) ++ rest) w f part rest := by
    refine ⟨by simp only [List.append_assoc], ?_, ?_, hpart⟩
    · exact takeWhile_digits (List.forall_mem_cons.1 hw.2).2
        (not_digit_head hf he fun _ _ => hrest)
    · exact fractionAt_eq hf
        (not_digit_head .absent he fun _ _ => hrest) hpoint
  have hfraction : f.drop 1 = ds := by
    cases hf <;> rfl
  rcases numberLexeme_cases (c := c) hparts with
    ⟨h, -⟩ | ⟨_, -, h | ⟨t, h⟩⟩
  · simp only [hfraction, List.append_assoc] at h
    simp only [List.append_eq, List.append_assoc]
    exact h
  · rw [startsInWord_eq_false.2 hclear] at h
    cases h
  · exact absurd h (hbroken t)

end Token

end Script
