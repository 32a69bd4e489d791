/-
The exact line and column of a place in a text. A place is told by the
characters in front of it: their line breaks give the line, and those
behind the last break give the column. This is what is computed from
offsets, whatever the text (`lineCol_behind`), and tracing a place of a
derived file back to a written one keeps to it (`locate_eq`).

Offsets know bytes, and the characters in front of a place are not told
apart by them where a place lies inside of a character. So every statement
here begins with a text that is cut in two.
-/
import Mathlib.Data.List.DropRight
import Script.Proofs.Places.Blanked

namespace Script

namespace Text

/-- The characters behind the last line break. -/
def lastLine (cs : List Char) : List Char := cs.rtakeWhile (· ≠ '\n')

/-- The line and the column of the place behind some characters. -/
def placeBehind (cs : List Char) : Nat × Nat :=
  (cs.count '\n' + 1, (lastLine cs).length + 1)

example : placeBehind "é\n\nab".toList = (3, 3) := by decide +kernel

variable {cs front last before behind : List Char} {offset x : Nat}

-- ========================================================== last lines

theorem lastLine_of_newline_not_mem (h : '\n' ∉ cs) : lastLine cs = cs := by
  refine List.rtakeWhile_eq_self_iff.2 fun c hc => ?_
  simpa using ne_of_mem_of_not_mem hc h

theorem lastLine_append_newline (h : '\n' ∉ last) :
    lastLine (front ++ '\n' :: last) = last := by
  have hlast : ∀ c ∈ last.reverse, decide (c ≠ '\n') = true := by
    intro c hc
    simpa using ne_of_mem_of_not_mem (List.mem_reverse.1 hc) h
  unfold lastLine List.rtakeWhile
  rw [List.reverse_append, List.reverse_cons, List.append_assoc,
    List.takeWhile_append_of_pos hlast]
  simp

/-- A text is one line, or goes on behind its last line break. -/
theorem lastLine_cases (cs : List Char) :
    ('\n' ∉ cs ∧ lastLine cs = cs)
      ∨ ∃ front, cs = front ++ '\n' :: lastLine cs
        ∧ '\n' ∉ lastLine cs := by
  by_cases h : '\n' ∈ cs
  · obtain ⟨last, front, hsplit, hlast⟩ :=
      List.append_of_mem (List.mem_reverse.2 h) |>.elim fun _ _ =>
        List.eq_append_cons_of_mem (List.mem_reverse.2 h)
    have hcs : cs = front.reverse ++ '\n' :: last.reverse := by
      rw [← List.reverse_reverse cs, hsplit]
      simp
    have hlast : '\n' ∉ last.reverse := mt List.mem_reverse.1 hlast
    refine .inr ⟨front.reverse, ?_⟩
    rw [hcs, lastLine_append_newline hlast]
    exact ⟨rfl, hlast⟩
  · exact .inl ⟨h, lastLine_of_newline_not_mem h⟩

-- ========================================================= line starts

theorem behindBreaks_append (offset : Nat) (front cs : List Char) :
    behindBreaks offset (front ++ cs)
      = behindBreaks offset front
        ++ behindBreaks (offset + byteLength front) cs := by
  induction front generalizing offset with
  | nil => rfl
  | cons c front ih =>
      rw [List.cons_append, behindBreaks, behindBreaks, byteLength_cons,
        ← Nat.add_assoc]
      split <;> simp [ih]

theorem behindBreaks_of_newline_not_mem (offset : Nat) (h : '\n' ∉ cs) :
    behindBreaks offset cs = [] := by
  induction cs generalizing offset with
  | nil => rfl
  | cons c cs ih =>
      rw [List.mem_cons, not_or] at h
      rw [behindBreaks, if_neg (Ne.symm h.1), ih _ h.2]

/-- The places behind the line breaks of a text. -/
theorem mem_behindBreaks {offset x : Nat} :
    x ∈ behindBreaks offset cs ↔ ∃ before behind,
      cs = before ++ '\n' :: behind ∧ x = offset + byteLength before + 1 := by
  have hbreak : '\n'.utf8Size = 1 := rfl
  constructor
  · intro h
    induction cs generalizing offset with
    | nil => cases h
    | cons c cs ih =>
        have hlater (h : x ∈ behindBreaks (offset + c.utf8Size) cs) :
            ∃ before behind, c :: cs = before ++ '\n' :: behind
              ∧ x = offset + byteLength before + 1 := by
          obtain ⟨before, behind, rfl, rfl⟩ := ih h
          refine ⟨c :: before, behind, rfl, ?_⟩
          rw [byteLength_cons, ← Nat.add_assoc]
        rw [behindBreaks] at h
        split at h
        case isTrue hc =>
            rcases List.mem_cons.1 h with rfl | h
            · exact ⟨[], cs, by rw [hc]; rfl, by rw [hc]; rfl⟩
            · exact hlater h
        case isFalse => exact hlater h
  · rintro ⟨before, behind, rfl, rfl⟩
    rw [behindBreaks_append, behindBreaks, if_pos rfl, hbreak]
    exact List.mem_append_right _ (List.mem_cons_self ..)

theorem length_behindBreaks (offset : Nat) (cs : List Char) :
    (behindBreaks offset cs).length = cs.count '\n' := by
  induction cs generalizing offset with
  | nil => rfl
  | cons c cs ih =>
      rw [behindBreaks]
      by_cases hc : c = '\n'
      · rw [if_pos hc, hc, List.count_cons_self, List.length_cons, ih]
      · rw [if_neg hc, List.count_cons_of_ne hc, ih]

/-- A line break is behind the place where the text begins, and no further
than where it ends. -/
theorem behindBreaks_bounds (offset : Nat) (cs : List Char) :
    ∀ n ∈ behindBreaks offset cs,
      offset < n ∧ n ≤ offset + byteLength cs := by
  induction cs generalizing offset with
  | nil => exact List.forall_mem_nil _
  | cons c cs ih =>
      have hc := c.utf8Size_pos
      have hrest : ∀ n ∈ behindBreaks (offset + c.utf8Size) cs,
          offset < n ∧ n ≤ offset + byteLength (c :: cs) := by
        intro n hn
        have := ih _ n hn
        rw [byteLength_cons]
        omega
      rw [behindBreaks]
      split
      · refine List.forall_mem_cons.2 ⟨?_, hrest⟩
        rw [byteLength_cons]
        omega
      · exact hrest

/-- The last of the lines that start in a text starts where its last line
does. -/
theorem getLast_behindBreaks (offset : Nat) (cs : List Char) :
    (offset :: behindBreaks offset cs).getLast?
      = some (offset + byteLength cs - byteLength (lastLine cs)) := by
  rcases lastLine_cases cs with ⟨h, hcs⟩ | ⟨front, hsplit, hlast⟩
  · rw [hcs, behindBreaks_of_newline_not_mem _ h, Nat.add_sub_cancel]
    rfl
  · generalize lastLine cs = last at hsplit hlast
    have hbreak : '\n'.utf8Size = 1 := rfl
    rw [hsplit, behindBreaks_append, behindBreaks, if_pos rfl,
      behindBreaks_of_newline_not_mem _ hlast, ← List.cons_append,
      List.getLast?_concat, byteLength_append, byteLength_cons]
    congr 1
    omega

/-- The last line is no longer than the text. -/
theorem byteLength_lastLine_le (cs : List Char) :
    byteLength (lastLine cs) ≤ byteLength cs := by
  obtain ⟨front, hfront⟩ := List.rtakeWhile_suffix (· ≠ '\n') cs
  have := congrArg byteLength hfront
  rw [byteLength_append] at this
  unfold lastLine
  omega

-- ============================================================ counting

/-- Counting behind a run of characters. -/
theorem countIn?_append (xs ys : List Char) :
    countIn? (byteLength xs) (xs ++ ys) = some xs.length := by
  have hfrom (seen : Nat) (xs : List Char) :
      countInFrom? seen (byteLength xs) (xs ++ ys)
        = some (seen + xs.length) := by
    induction xs generalizing seen with
    | nil => simp [countInFrom?]
    | cons c xs ih =>
        have hc := c.utf8Size_pos
        obtain ⟨n, hn⟩ : ∃ n, c.utf8Size + byteLength xs = n + 1 :=
          ⟨c.utf8Size + byteLength xs - 1, by omega⟩
        rw [byteLength_cons, hn, List.cons_append, countInFrom?,
          if_pos (by omega), show n + 1 - c.utf8Size = byteLength xs by omega,
          ih, List.length_cons]
        congr 1
        omega
  have := hfrom 0 xs
  rwa [Nat.zero_add] at this

/-- An element of two lists is in the first one or in the second. -/
theorem cut_append {α : Type} {xs ys front back : List α} {a : α}
    (h : xs ++ ys = front ++ a :: back) :
    (∃ rest, xs = front ++ a :: rest ∧ back = rest ++ ys)
      ∨ ∃ front', front = xs ++ front' ∧ ys = front' ++ a :: back := by
  rcases List.append_eq_append_iff.1 h with
    ⟨front', rfl, hys⟩ | ⟨inner, rfl, hinner⟩
  · exact .inr ⟨front', rfl, hys⟩
  · cases inner with
    | nil => exact .inr ⟨[], by simp, hinner.symm⟩
    | cons b inner =>
        obtain ⟨rfl, rfl⟩ := List.cons.inj hinner
        exact .inl ⟨inner, rfl, rfl⟩

/-- Two cuts of a text with as many bytes in front are the same. -/
theorem append_inj_of_byteLength {xs ys xs' ys' : List Char}
    (h : xs ++ ys = xs' ++ ys') (hlength : byteLength xs = byteLength xs') :
    xs = xs' ∧ ys = ys' := by
  induction xs generalizing xs' with
  | nil =>
      cases xs' with
      | nil => exact ⟨rfl, h⟩
      | cons c cs =>
          have := c.utf8Size_pos
          rw [byteLength_nil, byteLength_cons] at hlength
          omega
  | cons c cs ih =>
      cases xs' with
      | nil =>
          have := c.utf8Size_pos
          rw [byteLength_nil, byteLength_cons] at hlength
          omega
      | cons d ds =>
          obtain ⟨rfl, hrest⟩ := List.cons.inj h
          rw [byteLength_cons, byteLength_cons] at hlength
          obtain ⟨rfl, rfl⟩ := ih hrest (by omega)
          exact ⟨rfl, rfl⟩

end Text

open Text

variable {f d w : SourceFile} {before behind before' behind' : List Char}

namespace SourceFile

theorem lineStarts_of_append (h : f.text.toList = before ++ behind) :
    f.lineStarts = (0 :: behindBreaks 0 before)
      ++ behindBreaks (byteLength before) behind := by
  rw [lineStarts_eq, h, behindBreaks_append, Nat.zero_add]
  rfl

theorem byteLength_le_size (h : f.text.toList = before ++ behind) :
    byteLength before ≤ f.size := by
  rw [f.size_eq, h, byteLength_append]
  exact Nat.le_add_right ..

/-- The line that a place is in starts in front of its last line. -/
theorem lineStart?_behind (h : f.text.toList = before ++ behind) :
    f.lineStart? (before.count '\n' + 1)
      = some (byteLength before - byteLength (lastLine before)) := by
  have hlast := getLast_behindBreaks 0 before
  rw [List.getLast?_eq_getElem?, List.length_cons, length_behindBreaks,
    Nat.zero_add, Nat.add_sub_cancel] at hlast
  rw [lineStart?, if_neg (Nat.succ_ne_zero _), Nat.add_sub_cancel,
    lineStarts_of_append h, List.getElem?_append_left, hlast]
  rw [List.length_cons, length_behindBreaks]
  exact Nat.lt_succ_self _

/-- The next line starts behind the place, and in the text. -/
theorem lineStart?_succ_bounds (h : f.text.toList = before ++ behind)
    {next : Nat} (hnext : f.lineStart? (before.count '\n' + 1 + 1)
      = some next) : byteLength before < next
        ∧ next ≤ byteLength before + byteLength behind := by
  rw [lineStart?, if_neg (Nat.succ_ne_zero _), Nat.add_sub_cancel,
    lineStarts_of_append h, List.getElem?_append_right (by
      rw [List.length_cons, length_behindBreaks])] at hnext
  exact behindBreaks_bounds _ _ next (List.mem_of_getElem? hnext)

/-- The line and the column of a place, by the characters in front of
it. -/
theorem lineCol_behind (h : f.text.toList = before ++ behind) :
    f.lineCol (byteLength before) = placeBehind before := by
  have hstarts : f.lineStarts.takeWhile (· ≤ byteLength before)
      = 0 :: behindBreaks 0 before := by
    rw [lineStarts_of_append h, List.takeWhile_append_of_pos]
    · have hnone : (behindBreaks (byteLength before) behind).takeWhile
          (· ≤ byteLength before) = [] := by
        rw [List.takeWhile_eq_nil_iff]
        intro hpos hle
        have hbounds := behindBreaks_bounds _ _ _ (List.getElem_mem hpos)
        exact absurd (of_decide_eq_true hle) (Nat.not_le_of_lt hbounds.1)
      rw [hnone, List.append_nil]
    · refine List.forall_mem_cons.2 ⟨decide_eq_true (Nat.zero_le _), ?_⟩
      intro n hn
      have := behindBreaks_bounds 0 before n hn
      exact decide_eq_true (by omega)
  have hle := byteLength_lastLine_le before
  -- the text from the start of the line on
  obtain ⟨front, hfront⟩ : ∃ front, front ++ lastLine before = before :=
    List.rtakeWhile_suffix (· ≠ '\n') before
  have hlength := congrArg byteLength hfront
  rw [byteLength_append] at hlength
  have hdrop : dropBytes? (byteLength before - byteLength (lastLine before))
      f.text.toList = some (lastLine before ++ behind) := by
    have := dropBytes?_append front (lastLine before ++ behind)
    rw [← List.append_assoc, hfront, ← h] at this
    rwa [← hlength, Nat.add_sub_cancel]
  unfold lineCol placeBehind
  dsimp only
  rw [Nat.min_eq_left (byteLength_le_size h), hstarts, getLast_behindBreaks,
    List.length_cons, length_behindBreaks, Nat.zero_add, Option.getD_some,
    hdrop, Option.bind_some, Nat.sub_sub_self hle, countIn?_append]
  rfl

end SourceFile

/-- The location of a place, by the characters in front of it. -/
theorem Sources.locate_behind {s : Sources} {span : Span}
    (hd : s.get? span.file = some d)
    (htext : d.text.toList = before ++ behind)
    (hstart : span.start = byteLength before) :
    s.locate span
      = (s.traceBack? d (before.count '\n' + 1) span.start).getD
        ⟨d.name, (placeBehind before).1, (placeBehind before).2⟩ := by
  unfold locate
  rw [hd]
  dsimp only
  rw [hstart, SourceFile.lineCol_behind htext]
  rfl

/-- A place on a line of a derived file is shown at the place of the
written line that its origin maps it to. The end of the last written line is
also shown where the origin maps to a place behind it. -/
theorem Sources.locate_eq {s : Sources} {span : Span} {o : LineOrigin}
    {origins : List LineOrigin} (hd : s.get? span.file = some d)
    (horigins : d.origins = some origins)
    (htext : d.text.toList = before ++ behind)
    (hstart : span.start = byteLength before)
    (ho : origins[before.count '\n']? = some o)
    (hw : s.get? o.file = some w)
    (hwritten : w.text.toList = before' ++ behind')
    (hline : o.line = before'.count '\n' + 1)
    (hle : byteLength (lastLine before')
      ≤ o.mapOffset (byteLength (lastLine before)))
    (hend : behind' = [] ∨ o.mapOffset (byteLength (lastLine before))
      ≤ byteLength (lastLine before')) :
    s.locate span
      = ⟨w.name, (placeBehind before').1, (placeBehind before').2⟩ := by
  have hlast := byteLength_lastLine_le before
  have hlast' := byteLength_lastLine_le before'
  have horigin : (origins[before.count '\n' + 1 - 1]? <|> origins.getLast?)
      = some o := by
    rw [Nat.add_sub_cancel, ho]
    rfl
  -- the place is in its written line, or behind the last one
  have hshown (stop : Nat) (hstop : byteLength before' ≤ stop)
      (hnil : behind' = [] → stop = byteLength before') :
      min (byteLength before' - byteLength (lastLine before')
          + o.mapOffset (byteLength (lastLine before))) stop
        = byteLength before' := by
    rcases hend with hend | hend
    · have := hnil hend
      omega
    · omega
  have htrace : s.traceBack? d (before.count '\n' + 1) span.start
      = some ⟨w.name, (placeBehind before').1, (placeBehind before').2⟩ := by
    unfold traceBack?
    simp only [horigins, Option.bind_eq_bind, Option.bind_some, horigin, hw,
      SourceFile.lineStart?_behind htext, hstart,
      Nat.min_eq_left (SourceFile.byteLength_le_size htext),
      Nat.sub_sub_self hlast, hline, SourceFile.lineStart?_behind hwritten]
    cases hnext : w.lineStart? (before'.count '\n' + 1 + 1) with
    | some next =>
        obtain ⟨hlt, hnext⟩ := SourceFile.lineStart?_succ_bounds hwritten hnext
        have hplace := hshown (next - 1) (Nat.le_sub_one_of_lt hlt)
          fun hnil => by rw [hnil, byteLength_nil] at hnext; omega
        dsimp only
        rw [hplace, SourceFile.lineCol_behind hwritten]
        rfl
    | none =>
        have hplace := hshown w.size (SourceFile.byteLength_le_size hwritten)
          fun hnil => by rw [w.size_eq, hwritten, hnil, List.append_nil]
        dsimp only
        rw [hplace, SourceFile.lineCol_behind hwritten]
        rfl
  rw [locate_behind hd htext hstart, htrace]
  rfl

/-- A place on a line of a derived file is shown in that file, or on the
written line of its origin. -/
theorem Sources.locate_line {s : Sources} {span : Span} {o : LineOrigin}
    {origins : List LineOrigin} (hd : s.get? span.file = some d)
    (horigins : d.origins = some origins)
    (htext : d.text.toList = before ++ behind)
    (hstart : span.start = byteLength before)
    (ho : origins[before.count '\n']? = some o) :
    (s.locate span).name = d.name
      ∨ ∃ w, s.get? o.file = some w ∧ (s.locate span).name = w.name
        ∧ (s.locate span).line = o.line := by
  rw [locate_behind hd htext hstart]
  cases htrace : s.traceBack? d (before.count '\n' + 1) span.start with
  | none => exact .inl rfl
  | some l =>
      unfold traceBack? at htrace
      rw [horigins, Option.bind_eq_bind, Option.bind_some,
        Nat.add_sub_cancel, ho] at htrace
      obtain ⟨origin, horigin, htrace⟩ := Option.bind_eq_some_iff.1 htrace
      obtain rfl : o = origin := Option.some.inj horigin
      obtain ⟨w, hw, htrace⟩ := Option.bind_eq_some_iff.1 htrace
      obtain ⟨start, -, htrace⟩ := Option.bind_eq_some_iff.1 htrace
      obtain ⟨writtenStart, -, htrace⟩ := Option.bind_eq_some_iff.1 htrace
      cases htrace
      exact .inr ⟨w, hw, rfl, rfl⟩

end Script
