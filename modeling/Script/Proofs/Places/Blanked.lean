/-
The lines that cleaning reads, against the text as it was written.
Blanking the comments of a text moves nothing: it keeps the bytes and the
line breaks. So a line that is read has the number of a written line and
lies in the written text, and so does the directive on it.
-/
import Script.Clean.Comment
import Script.Clean.Directive
import Script.Clean.Draft
import Script.Proofs.Clean.Alignment
import Script.Proofs.Places.Lines

namespace Script

open Text

namespace Clean

-- ============================================================= comments

theorem byteLength_blank (c : Char) : byteLength (blank c) = c.utf8Size := by
  have hspace : ' '.utf8Size = 1 := rfl
  rw [blank, byteLength_replicate, hspace, Nat.mul_one]

theorem count_blank (c : Char) : (blank c).count '\n' = 0 := by
  rw [blank, List.count_replicate]
  rfl

theorem byteLength_reverse (cs : List Char) :
    byteLength cs.reverse = byteLength cs := by
  induction cs with
  | nil => rfl
  | cons c cs ih =>
      rw [List.reverse_cons, byteLength_append, ih, byteLength_cons,
        byteLength_cons, byteLength_nil]
      omega

/-- What blanking makes of a text that begins at an offset in a region: a
text of the same bytes and line breaks, behind what is done; or the offset
of a comment that begins in the text, unless it was open before. -/
structure Blanks (offset : Nat) (region : Region) (done text : List Char)
    (result : Except Nat (List Char)) : Prop where
  bytes : ∀ out, result = .ok out →
    byteLength out = byteLength done + byteLength text
  breaks : ∀ out, result = .ok out →
    out.count '\n' = done.count '\n' + text.count '\n'
  opened : ∀ start, result = .error start →
    region = .blockComment start ∨ start ≤ offset + byteLength text

/-- Some characters are put in place of others, and blanking goes on
behind them, in the same comment or in one that begins here. -/
theorem Blanks.step {offset next : Nat} {region region' : Region}
    {done text : List Char} {result : Except Nat (List Char)}
    (taken put : List Char) (hbytes : byteLength put = byteLength taken)
    (hbreaks : put.count '\n' = taken.count '\n')
    (hnext : next = offset + byteLength taken)
    (h : Blanks next region' (put ++ done) text result)
    (hregion : ∀ start, region' = .blockComment start →
      region = .blockComment start ∨ start ≤ offset) :
    Blanks offset region done (taken ++ text) result where
  bytes out hout := by
    have := h.bytes out hout
    rw [byteLength_append] at this ⊢
    omega
  breaks out hout := by
    have := h.breaks out hout
    rw [List.count_append] at this ⊢
    omega
  opened start hstart := by
    rw [byteLength_append]
    rcases h.opened start hstart with hopen | hle
    · rcases hregion start hopen with hopen | hle
      · exact .inl hopen
      · exact .inr (by omega)
    · exact .inr (by omega)

/-- A character of a comment is blanked, if it is no line break. -/
theorem Blanks.blank {offset : Nat} {region : Region}
    {done text : List Char} {result : Except Nat (List Char)} {c : Char}
    (hc : c ≠ '\n')
    (h : Blanks (offset + c.utf8Size) region (blank c ++ done) text
      result) : Blanks offset region done (c :: text) result :=
  .step [c] (Clean.blank c) (byteLength_blank c)
    (by rw [count_blank, List.count_singleton, beq_eq_false_iff_ne.2 hc]; rfl)
    rfl h fun _ h => .inl h

theorem blankCommentsFrom_blanks (offset : Nat) (region : Region)
    (done text : List Char) :
    Blanks offset region done text
      (blankCommentsFrom offset region done text) := by
  fun_induction blankCommentsFrom offset region done text
  case case1 =>
    refine ⟨(fun _ h => nomatch h), (fun _ h => nomatch h), ?_⟩
    rintro _ ⟨⟩
    exact .inl rfl
  case case2 =>
    refine ⟨?_, ?_, (fun _ h => nomatch h)⟩
    · rintro _ ⟨⟩
      exact byteLength_reverse _
    · rintro _ ⟨⟩
      exact List.count_reverse
  case case3 ih => exact .step ['/', '/'] [' ', ' '] rfl rfl rfl ih nofun
  case case4 ih =>
    refine .step ['/', '*'] [' ', ' '] rfl rfl rfl ih ?_
    rintro _ ⟨⟩
    exact .inr (Nat.le_refl _)
  case case5 ih => exact .step ['"'] ['"'] rfl rfl rfl ih nofun
  case case6 c cs _ _ _ _ ih => exact .step [c] [c] rfl rfl rfl ih nofun
  case case7 ih =>
    exact .step ['\\', '\n'] ['\n', '\\'] rfl rfl rfl ih nofun
  case case8 d cs _ ih =>
    refine .step ['\\', d] [d, '\\'] ?_ ?_ (Nat.add_assoc ..) ih nofun
    · exact Nat.add_comm ..
    · simp [List.count_cons]
  case case9 ih => exact .step ['"'] ['"'] rfl rfl rfl ih nofun
  case case10 ih => exact .step ['\n'] ['\n'] rfl rfl rfl ih nofun
  case case11 c cs _ _ _ _ _ ih => exact .step [c] [c] rfl rfl rfl ih nofun
  case case12 ih => exact .step ['\n'] ['\n'] rfl rfl rfl ih nofun
  case case13 hc ih => exact .blank hc ih
  case case14 ih =>
    exact .step ['*', '/'] [' ', ' '] rfl rfl rfl ih nofun
  case case15 ih =>
    exact .step ['\n'] ['\n'] rfl rfl rfl ih fun _ h => .inl h
  case case16 hc _ ih => exact .blank hc ih

/-- Blanked comments leave the bytes and the lines of a text as they
are. -/
theorem blankComments_ok {text out : List Char}
    (h : blankComments text = .ok out) :
    byteLength out = byteLength text
      ∧ out.count '\n' = text.count '\n' := by
  have hblanks := blankCommentsFrom_blanks 0 .code [] text
  have hbytes := hblanks.bytes out h
  have hbreaks := hblanks.breaks out h
  rw [byteLength_nil, Nat.zero_add] at hbytes
  rw [List.count_nil, Nat.zero_add] at hbreaks
  exact ⟨hbytes, hbreaks⟩

/-- A comment that does not end begins in the text. -/
theorem blankComments_error {text : List Char} {start : Nat}
    (h : blankComments text = .error start) : start ≤ byteLength text := by
  rcases (blankCommentsFrom_blanks 0 .code [] text).opened start h
    with hopen | hle
  · cases hopen
  · rwa [Nat.zero_add] at hle

-- ================================================================ lines

/-- The lines of the rest of a text: their numbers go up by one at each
line break, and they lie in the rest. -/
theorem linesFrom_bounds (number start : Nat) (body cs : List Char) :
    ∀ l ∈ linesFrom number start body cs,
      number ≤ l.number ∧ l.number ≤ number + cs.count '\n'
        ∧ l.start + byteLength l.body
          ≤ start + byteLength body + byteLength cs := by
  induction cs generalizing number start body with
  | nil =>
      intro l hl
      unfold linesFrom at hl
      split at hl
      · cases hl
      · rw [List.mem_singleton.1 hl]
        refine ⟨Nat.le_refl _, Nat.le_refl _, ?_⟩
        rw [byteLength_reverse]
        exact Nat.le_refl _
  | cons c cs ih =>
      intro l hl
      unfold linesFrom at hl
      split at hl
      case isTrue hc =>
        subst hc
        rw [List.count_cons_self, byteLength_cons]
        rcases List.mem_cons.1 hl with rfl | hl
        · refine ⟨Nat.le_refl _, Nat.le_add_right .., ?_⟩
          rw [byteLength_reverse]
          exact Nat.le_add_right ..
        · obtain ⟨hle, hcount, hstop⟩ := ih _ _ _ l hl
          have hbreak : '\n'.utf8Size = 1 := rfl
          rw [byteLength_nil] at hstop
          omega
      case isFalse hc =>
        obtain ⟨hle, hcount, hstop⟩ := ih _ _ _ l hl
        rw [List.count_cons_of_ne hc, byteLength_cons]
        rw [byteLength_cons] at hstop
        omega

/-- The lines of the rest of a text start in front of it or behind its line
breaks, each at the place that its number says. -/
theorem linesFrom_start (number start : Nat) (body cs : List Char) :
    ∀ l ∈ linesFrom number start body cs,
      (start :: behindBreaks (start + byteLength body) cs)[l.number
        - number]? = some l.start := by
  induction cs generalizing number start body with
  | nil =>
      intro l hl
      unfold linesFrom at hl
      split at hl
      · cases hl
      · rw [List.mem_singleton.1 hl, Nat.sub_self]
        rfl
  | cons c cs ih =>
      intro l hl
      unfold linesFrom at hl
      unfold behindBreaks
      dsimp only
      split at hl
      case isTrue hc =>
        subst hc
        have hbreak : '\n'.utf8Size = 1 := rfl
        rcases List.mem_cons.1 hl with rfl | hl
        · rw [Nat.sub_self]
          rfl
        · have hnumber := (linesFrom_bounds _ _ _ _ l hl).1
          have hstart := ih _ _ _ l hl
          rw [byteLength_nil, Nat.add_zero] at hstart
          rw [if_pos rfl, hbreak, show l.number - number
            = l.number - (number + 1) + 1 by omega]
          exact hstart
      case isFalse hc =>
        have hstart := ih _ _ _ l hl
        rw [byteLength_cons, Nat.add_comm c.utf8Size, ← Nat.add_assoc]
          at hstart
        rwa [if_neg hc]

-- =========================================================== directives

/-- The blanks at the end of a line stand behind every other
character. -/
theorem trimEnd_append_cons (front : List Char) {c : Char}
    (hc : Text.isBlank c = false) (behind : List Char) :
    Text.trimEnd (front ++ c :: behind)
      = front ++ c :: Text.trimEnd behind := by
  unfold Text.trimEnd
  rw [List.reverse_append, List.reverse_cons, List.append_assoc,
    List.dropWhile_append]
  cases hrest : behind.reverse.dropWhile Text.isBlank with
  | nil =>
      rw [List.isEmpty_nil, if_pos rfl, List.singleton_append,
        List.dropWhile_cons_of_neg (by rw [hc]; exact Bool.false_ne_true)]
      simp
  | cons d ds => simp

theorem byteLength_trimEnd_le (cs : List Char) :
    byteLength (Text.trimEnd cs) ≤ byteLength cs := by
  have hsuffix := List.dropWhile_suffix (l := cs.reverse) Text.isBlank
  obtain ⟨blanks, hblanks⟩ := hsuffix
  have hlength := congrArg byteLength hblanks
  rw [byteLength_append, byteLength_reverse] at hlength
  rw [Text.trimEnd, byteLength_reverse]
  omega

/-- The offsets between which a directive stands are in order. -/
theorem le_of_hashLine? {body front behind : List Char}
    (h : hashLine? body = some (front, behind)) :
    byteLength front ≤ byteLength (Text.trimEnd body) := by
  have hbody : body = front ++ '#' :: behind := by
    unfold hashLine? at h
    split at h
    case h_1 behind' hstart =>
      cases h
      have hsplit : body.takeWhile Text.isBlank
          ++ body.dropWhile Text.isBlank = body :=
        List.takeWhile_append_dropWhile
      exact hsplit.symm.trans
        (congrArg (body.takeWhile Text.isBlank ++ ·) hstart)
    case h_2 => cases h
  rw [hbody, trimEnd_append_cons front (by decide) behind,
    byteLength_append]
  exact Nat.le_add_right ..

end Clean

end Script
