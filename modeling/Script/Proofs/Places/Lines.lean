/-
The lines of a text and the offsets where they start. A line break ends a
line and belongs to none, so that lines and breaks in turn make up the
text. Every offset in a text, its end included, lies in exactly one line,
or behind the last character of one; line and column of the offset are
read off that line.

A span in a written file is shown in the line it starts in. One in a
derived file is traced back by the origin of its line; where that is a line
of a written file, it is shown in that line, however far the two lines have
drifted apart, because a place behind the end of the written line counts as
its end.
-/
import Script.Source.File
import Script.Source.Registry

namespace Script

namespace Text

/-- The number of characters in some bytes is no larger than the number
of bytes. -/
theorem countIn?_le {n m : Nat} {cs : List Char}
    (h : countIn? n cs = some m) : m ≤ n := by
  have hfrom {seen n : Nat} {cs : List Char}
      (h : countInFrom? seen n cs = some m) : m ≤ seen + n := by
    induction cs generalizing seen n with
    | nil =>
        cases n with
        | zero =>
            cases h
            exact Nat.le_refl _
        | succ n => cases h
    | cons c cs ih =>
        cases n with
        | zero =>
            cases h
            exact Nat.le_refl _
        | succ n =>
            unfold countInFrom? at h
            split at h
            · have := ih h
              have := c.utf8Size_pos
              omega
            · cases h
  have := hfrom h
  omega

/-- So is the number that stands for it where it is missing. -/
theorem countIn?_getD_le (start n : Nat) (cs : List Char) :
    ((dropBytes? start cs).bind (countIn? n)).getD n ≤ n := by
  cases h : (dropBytes? start cs).bind (countIn? n) with
  | none => exact Nat.le_refl n
  | some m =>
      obtain ⟨_, _, hm⟩ := Option.bind_eq_some_iff.1 h
      exact countIn?_le hm

/-- A text has as many bytes as its characters take. -/
theorem utf8ByteSize_eq (s : String) :
    s.utf8ByteSize = byteLength s.toList := by
  have hencode (cs : List Char) : cs.utf8Encode.size = byteLength cs := by
    induction cs with
    | nil => rfl
    | cons c cs ih =>
        rw [List.utf8Encode_cons, ByteArray.size_append, ih,
          byteLength_cons, List.utf8Encode_singleton]
        exact congrArg (· + _) (by simp)
  rw [← hencode, String.utf8Encode_toList]
  rfl

theorem byteLength_replicate (n : Nat) (c : Char) :
    byteLength (List.replicate n c) = n * c.utf8Size := by
  induction n with
  | zero => rw [List.replicate_zero, byteLength_nil, Nat.zero_mul]
  | succ n ih =>
      rw [List.replicate_succ, byteLength_cons, ih, Nat.succ_mul,
        Nat.add_comm]

-- ================================================================ lines

/-- The offsets behind the line breaks of a text that begins at an
offset. -/
def behindBreaks (offset : Nat) : List Char → List Nat
  | [] => []
  | c :: cs =>
      let next := offset + c.utf8Size
      if c = '\n' then next :: behindBreaks next cs
      else behindBreaks next cs

/-- Lines from an offset on, with the offsets where they start and the
one where the last of them stops; a break stands between two lines. -/
inductive Lined : Nat → List (List Char) → List Nat → Nat → Prop
  | last (offset : Nat) (line : List Char) :
      Lined offset [line] [offset] (offset + byteLength line)
  | cons {offset stop : Nat} (line : List Char) {lines : List (List Char)}
      {starts : List Nat}
      (h : Lined (offset + byteLength line + 1) lines starts stop) :
      Lined offset (line :: lines) (offset :: starts) stop

/-- A character in front of the first line. -/
theorem Lined.push {offset stop : Nat} {c : Char}
    {lines : List (List Char)} {starts : List Nat}
    (h : Lined (offset + c.utf8Size) lines starts stop) :
    Lined offset (lines.modifyHead (c :: ·)) (offset :: starts.tail)
      stop := by
  cases h with
  | last _ line =>
      have hlast := Lined.last offset (c :: line)
      rwa [byteLength_cons, ← Nat.add_assoc] at hlast
  | cons line h =>
      refine .cons (c :: line) ?_
      rwa [byteLength_cons, ← Nat.add_assoc]

/-- The lines of a text are those between its line breaks. -/
theorem lined (offset : Nat) (cs : List Char) :
    Lined offset (cs.splitOn '\n') (offset :: behindBreaks offset cs)
      (offset + byteLength cs) := by
  induction cs generalizing offset with
  | nil => exact .last offset []
  | cons c cs ih =>
      have hrest := ih (offset + c.utf8Size)
      rw [List.splitOn_cons_eq_if_modifyHead, byteLength_cons,
        ← Nat.add_assoc]
      unfold behindBreaks
      by_cases hc : c = '\n'
      · subst hc
        exact .cons [] hrest
      · simp only [beq_iff_eq, if_neg hc]
        exact hrest.push

/-- One of the lines, by its place among them: its characters, where it
starts, and where the next line starts or all of them stop. -/
structure LineAt (lines : List (List Char)) (starts : List Nat)
    (stop k : Nat) (line : List Char) (start : Nat) : Prop where
  isLine : lines[k]? = some line
  isStart : starts[k]? = some start
  next : ∀ next ∈ starts[k + 1]?, next = start + byteLength line + 1
  last : starts[k + 1]? = none → stop = start + byteLength line

namespace Lined

variable {offset stop k start x : Nat} {lines : List (List Char)}
  {line : List Char} {starts : List Nat}

theorem head (h : Lined offset lines starts stop) :
    starts[0]? = some offset := by
  cases h <;> rfl

/-- Behind a first line, the places of the others are one further. -/
theorem lineAt_cons {first : List Char} {other : Nat}
    (h : LineAt lines starts stop k line start) :
    LineAt (first :: lines) (other :: starts) stop (k + 1) line start :=
  ⟨h.isLine, h.isStart, h.next, h.last⟩

theorem lineAt_zero (h : Lined offset lines starts stop)
    (hline : lines[0]? = some line) :
    LineAt lines starts stop 0 line offset := by
  cases h with
  | last =>
      cases hline
      exact ⟨rfl, rfl, (fun _ h => nomatch h), fun _ => rfl⟩
  | cons _ h =>
      cases hline
      refine ⟨rfl, rfl, fun next hnext => ?_, fun hnone => ?_⟩
      · rw [List.getElem?_cons_succ, h.head] at hnext
        cases hnext
        rfl
      · rw [List.getElem?_cons_succ, h.head] at hnone
        cases hnone

/-- Lines do not go back. -/
theorem le_stop (h : Lined offset lines starts stop) : offset ≤ stop := by
  induction h with
  | last => exact Nat.le_add_right ..
  | cons _ _ ih => omega

theorem length_eq (h : Lined offset lines starts stop) :
    lines.length = starts.length := by
  induction h with
  | last => rfl
  | cons _ _ ih => exact congrArg (· + 1) ih

/-- Each of the lines starts somewhere, and stops. -/
theorem exists_start (h : Lined offset lines starts stop)
    (hline : lines[k]? = some line) :
    ∃ start, LineAt lines starts stop k line start ∧ offset ≤ start
      ∧ start + byteLength line ≤ stop := by
  induction h generalizing k with
  | last offset l =>
      cases k with
      | zero =>
          cases hline
          exact ⟨offset, lineAt_zero (.last ..) rfl, Nat.le_refl _,
            Nat.le_refl _⟩
      | succ k => cases hline
  | @cons offset stop l ls ss h ih =>
      cases k with
      | zero =>
          cases hline
          have := h.le_stop
          refine ⟨offset, lineAt_zero (.cons _ h) rfl, Nat.le_refl _, ?_⟩
          omega
      | succ k =>
          obtain ⟨start, hat, hle, hstop⟩ := ih hline
          exact ⟨start, lineAt_cons hat, by omega, hstop⟩

theorem bounds (h : Lined offset lines starts stop)
    (hat : LineAt lines starts stop k line start) :
    offset ≤ start ∧ start + byteLength line ≤ stop := by
  obtain ⟨start', hat', hbounds⟩ := h.exists_start hat.isLine
  cases hat.isStart.symm.trans hat'.isStart
  exact hbounds

/-- Each offset lies in a line, or right behind one. -/
theorem exists_line (h : Lined offset lines starts stop)
    (hle : offset ≤ x) (hx : x ≤ stop) :
    ∃ k line start, LineAt lines starts stop k line start
      ∧ start ≤ x ∧ x ≤ start + byteLength line := by
  induction h with
  | last offset l =>
      exact ⟨0, l, offset, lineAt_zero (.last ..) rfl, hle, hx⟩
  | @cons offset stop l ls ss h ih =>
      by_cases hin : x ≤ offset + byteLength l
      · exact ⟨0, l, offset, lineAt_zero (.cons l h) rfl, hle, hin⟩
      · obtain ⟨k, line, start, hat, hbounds⟩ := ih (by omega) hx
        exact ⟨k + 1, line, start, lineAt_cons hat, hbounds⟩

/-- The lines that start at or before an offset in a line are that line
and those before it. -/
theorem takeWhile_eq (h : Lined offset lines starts stop)
    (hat : LineAt lines starts stop k line start) (hle : start ≤ x)
    (hx : x ≤ start + byteLength line) :
    starts.takeWhile (· ≤ x) = starts.take (k + 1) := by
  induction h generalizing k with
  | last offset l =>
      have hpos := decide_eq_true
        (Nat.le_trans ((Lined.last offset l).bounds hat).1 hle)
      rw [List.takeWhile_cons_of_pos (p := fun y => decide (y ≤ x)) hpos,
        List.take_succ_cons, List.takeWhile_nil, List.take_nil]
  | @cons offset stop l ls ss h ih =>
      have hpos := decide_eq_true
        (Nat.le_trans ((Lined.cons l h).bounds hat).1 hle)
      rw [List.takeWhile_cons_of_pos (p := fun y => decide (y ≤ x)) hpos,
        List.take_succ_cons]
      congr 1
      cases k with
      | zero =>
          -- the next line starts behind the offset
          cases hat.isLine
          cases hat.isStart
          cases ss with
          | nil => rfl
          | cons next ss =>
              cases h.head
              rw [List.takeWhile_cons_of_neg, List.take_zero]
              rw [decide_eq_true_eq]
              omega
      | succ k =>
          have hrest : LineAt ls ss stop k line start :=
            ⟨hat.isLine, hat.isStart, hat.next, hat.last⟩
          exact ih hrest

end Lined

end Text

-- ================================================================ files

namespace SourceFile

open Text

variable {f : SourceFile} {n start x : Nat} {line : List Char}

/-- The lines of the text. -/
def lines (f : SourceFile) : List (List Char) := f.text.toList.splitOn '\n'

theorem size_eq (f : SourceFile) : f.size = byteLength f.text.toList :=
  utf8ByteSize_eq f.text

theorem lineStartsFrom_eq (offset : Nat) (starts : List Nat)
    (cs : List Char) :
    lineStartsFrom offset starts cs
      = (behindBreaks offset cs).reverse ++ starts := by
  induction cs generalizing offset starts with
  | nil => rfl
  | cons c cs ih =>
      unfold lineStartsFrom behindBreaks
      dsimp only
      rw [ih]
      split
      · simp
      · rfl

theorem lineStarts_eq (f : SourceFile) :
    f.lineStarts = 0 :: behindBreaks 0 f.text.toList := by
  rw [lineStarts, lineStartsFrom_eq]
  simp

theorem lined (f : SourceFile) : Lined 0 f.lines f.lineStarts f.size := by
  have := Text.lined 0 f.text.toList
  rwa [Nat.zero_add, ← size_eq, ← lineStarts_eq] at this

/-- Line `n` of a file, counted from one: its characters, and the offset
where it starts. -/
structure LineAt (f : SourceFile) (n : Nat) (line : List Char)
    (start : Nat) : Prop where
  pos : 1 ≤ n
  row : Text.LineAt f.lines f.lineStarts f.size (n - 1) line start

namespace LineAt

theorem lineStart? (h : f.LineAt n line start) :
    f.lineStart? n = some start := by
  have := h.pos
  rw [SourceFile.lineStart?, if_neg (by omega)]
  exact h.row.isStart

theorem lineStart?_succ (h : f.LineAt n line start) :
    f.lineStart? (n + 1) = f.lineStarts[n - 1 + 1]? := by
  rw [SourceFile.lineStart?, if_neg (by omega), Nat.sub_add_cancel h.pos]
  rfl

/-- The next line starts behind the break that ends a line. -/
theorem next (h : f.LineAt n line start) {next : Nat}
    (hnext : f.lineStart? (n + 1) = some next) :
    next = start + byteLength line + 1 :=
  h.row.next next (h.lineStart?_succ ▸ hnext)

/-- The last line ends with its file. -/
theorem last (h : f.LineAt n line start)
    (hnone : f.lineStart? (n + 1) = none) :
    f.size = start + byteLength line :=
  h.row.last (h.lineStart?_succ ▸ hnone)

/-- A line lies in its file. -/
theorem stop_le (h : f.LineAt n line start) :
    start + byteLength line ≤ f.size :=
  (f.lined.bounds h.row).2

/-- The lines that start in front of an offset in a line, and the line and
column of the offset. -/
theorem lineCol_eq (h : f.LineAt n line start) (hle : start ≤ x)
    (hx : x ≤ start + byteLength line) :
    (f.lineStarts.takeWhile (· ≤ x)).length = n
      ∧ f.lineCol x = (n, ((dropBytes? start f.text.toList).bind
        (countIn? (x - start))).getD (x - start) + 1) := by
  have htake := f.lined.takeWhile_eq h.row hle hx
  have hpos := h.pos
  have hlt : n - 1 < f.lineStarts.length :=
    (List.getElem?_eq_some_iff.1 h.row.isStart).1
  have hlength : (f.lineStarts.takeWhile (· ≤ x)).length = n := by
    rw [htake, List.length_take]
    omega
  have hlast : (f.lineStarts.takeWhile (· ≤ x)).getLast? = some start := by
    rw [htake, List.getLast?_take, if_neg (Nat.succ_ne_zero _),
      Nat.add_sub_cancel, h.row.isStart]
    rfl
  refine ⟨hlength, ?_⟩
  unfold SourceFile.lineCol
  dsimp only
  rw [Nat.min_eq_left (Nat.le_trans hx h.stop_le), hlast, hlength,
    Option.getD_some]

/-- An offset in a line is shown in that line, with a column in it or
right behind it. -/
theorem lineCol (h : f.LineAt n line start) (hle : start ≤ x)
    (hx : x ≤ start + byteLength line) :
    ∃ column, f.lineCol x = (n, column) ∧ 1 ≤ column
      ∧ column ≤ byteLength line + 1 := by
  refine ⟨_, (h.lineCol_eq hle hx).2, Nat.le_add_left ..,
    Nat.succ_le_succ ?_⟩
  have := countIn?_getD_le start (x - start) f.text.toList
  omega

end LineAt

/-- Each of the lines of a file starts somewhere. -/
theorem exists_lineAt (f : SourceFile) (hpos : 1 ≤ n)
    (hn : n ≤ f.lines.length) : ∃ line start, f.LineAt n line start := by
  have hlt : n - 1 < f.lines.length := by omega
  obtain ⟨start, hat, -⟩ :=
    f.lined.exists_start (List.getElem?_eq_getElem hlt)
  exact ⟨_, start, hpos, hat⟩

/-- Each line that starts somewhere is one. -/
theorem lineAt_of_lineStart? (h : f.lineStart? n = some start) :
    ∃ line, f.LineAt n line start := by
  unfold lineStart? at h
  split at h
  case isTrue => cases h
  case isFalse hzero =>
    obtain ⟨hlt, -⟩ := List.getElem?_eq_some_iff.1 h
    rw [← f.lined.length_eq] at hlt
    obtain ⟨line, start', hat⟩ :=
      f.exists_lineAt (Nat.one_le_iff_ne_zero.2 hzero) (by omega)
    cases h.symm.trans hat.row.isStart
    exact ⟨line, hat⟩

/-- An offset behind the end counts as the end. -/
theorem lineCol_min (f : SourceFile) (x : Nat) :
    f.lineCol (min x f.size) = f.lineCol x := by
  unfold SourceFile.lineCol
  rw [Nat.min_assoc, Nat.min_self]

/-- Each offset in a file lies in a line. -/
theorem exists_lineCol (f : SourceFile) (hx : x ≤ f.size) :
    ∃ n line start column, f.LineAt n line start ∧ start ≤ x
      ∧ f.lineCol x = (n, column) ∧ 1 ≤ column
      ∧ column ≤ byteLength line + 1 := by
  obtain ⟨k, line, start, hat, hle, hbehind⟩ :=
    f.lined.exists_line (Nat.zero_le _) hx
  have hline : f.LineAt (k + 1) line start :=
    ⟨Nat.le_add_left .., by rwa [Nat.add_sub_cancel]⟩
  obtain ⟨column, hcol⟩ := hline.lineCol hle hbehind
  exact ⟨k + 1, line, start, column, hline, hle, hcol⟩

end SourceFile

open Text

-- ============================================================= locations

/-- A location in a file: under its name, in one of its lines, at most
right behind the end of that line. -/
structure SourceFile.Shows (f : SourceFile) (l : Location) : Prop where
  name : l.name = f.name
  line : 1 ≤ l.line
  column : ∃ line, f.lines[l.line - 1]? = some line ∧ 1 ≤ l.column
    ∧ l.column ≤ byteLength line + 1

namespace Sources

variable {s : Sources} {f : SourceFile} {span : Span}

/-- A span in a file is shown somewhere: columns are counted from one. -/
theorem locate_ne_unknown (hf : s.get? span.file = some f) :
    s.locate span ≠ .unknown := by
  intro hunknown
  have hcolumn := congrArg Location.column hunknown
  unfold locate at hcolumn
  rw [hf] at hcolumn
  dsimp only at hcolumn
  cases htrace : s.traceBack? f (f.lineCol span.start).1 span.start with
  | none =>
      rw [htrace] at hcolumn
      exact Nat.succ_ne_zero _ hcolumn
  | some l =>
      rw [htrace] at hcolumn
      obtain ⟨origins, -, h⟩ := Option.bind_eq_some_iff.1 htrace
      obtain ⟨origin, -, h⟩ := Option.bind_eq_some_iff.1 h
      obtain ⟨written, -, h⟩ := Option.bind_eq_some_iff.1 h
      obtain ⟨start, -, h⟩ := Option.bind_eq_some_iff.1 h
      obtain ⟨writtenStart, -, h⟩ := Option.bind_eq_some_iff.1 h
      cases h
      exact Nat.succ_ne_zero _ hcolumn

/-- A span in a written file is shown there. -/
theorem locate_written (hf : s.get? span.file = some f)
    (hwritten : f.origins = none) (hspan : span.start ≤ f.size) :
    f.Shows (s.locate span) := by
  obtain ⟨n, line, start, column, hline, -, hcol, hpos, hle⟩ :=
    f.exists_lineCol hspan
  have htrace : s.traceBack? f n span.start = none := by
    unfold traceBack?
    rw [hwritten]
    rfl
  have hlocate : s.locate span = ⟨f.name, n, column⟩ := by
    unfold locate
    rw [hf]
    dsimp only
    rw [hcol]
    dsimp only
    rw [htrace]
    rfl
  rw [hlocate]
  exact ⟨rfl, hline.pos, line, hline.row.isLine, hpos, hle⟩

/-- The origin of a line that was written, if it is one. -/
structure Genuine (s : Sources) (o : LineOrigin) (w : SourceFile) : Prop
    where
  file : s.get? o.file = some w
  line : 1 ≤ o.line
  line_le : o.line ≤ w.lines.length

/-- A span in a derived file is shown in the written line of one of the
origins. -/
theorem locate_derived {origins : List LineOrigin}
    (hf : s.get? span.file = some f) (hderived : f.origins = some origins)
    (hne : origins ≠ [])
    (hgenuine : ∀ o ∈ origins, ∃ w, s.Genuine o w)
    (hspan : span.start ≤ f.size) :
    ∃ o ∈ origins, ∃ w, s.Genuine o w ∧ w.Shows (s.locate span) := by
  obtain ⟨n, line, start, column, hline, hstart, hcol, -, -⟩ :=
    f.exists_lineCol hspan
  -- the origin of the line, or the last one
  obtain ⟨o, ho, hmem⟩ : ∃ o,
      (origins[n - 1]? <|> origins.getLast?) = some o ∧ o ∈ origins := by
    cases ho : origins[n - 1]? with
    | some o => exact ⟨o, rfl, List.mem_of_getElem? ho⟩
    | none =>
        exact ⟨origins.getLast hne, List.getLast?_eq_some_getLast hne,
          List.getLast_mem hne⟩
  obtain ⟨w, hw⟩ := hgenuine o hmem
  obtain ⟨line', start', hline'⟩ := w.exists_lineAt hw.line hw.line_le
  -- the place in the written line, or its end
  let place := start' + o.mapOffset (min span.start f.size - start)
  obtain ⟨column', hcol', hpos, hle⟩ : ∃ column',
      w.lineCol (min place (start' + byteLength line')) = (o.line, column')
        ∧ 1 ≤ column' ∧ column' ≤ byteLength line' + 1 :=
    hline'.lineCol (Nat.le_min.2 ⟨Nat.le_add_right .., Nat.le_add_right ..⟩)
      (Nat.min_le_right ..)
  have hshown {l : Nat × Nat} (h : l = (o.line, column')) :
      some (⟨w.name, o.line, l.2⟩ : Location)
        = some ⟨w.name, o.line, column'⟩ := by
    rw [h]
  have htrace : s.traceBack? f n span.start
      = some ⟨w.name, o.line, column'⟩ := by
    unfold traceBack?
    simp only [hderived, ho, hw.file, hline.lineStart?, hline'.lineStart?,
      Option.bind_eq_bind, Option.bind_some]
    cases hnext : w.lineStart? (o.line + 1) with
    | none =>
        rw [← hline'.last hnext] at hcol'
        exact hshown hcol'
    | some next =>
        have hend : next - 1 = start' + byteLength line' := by
          rw [hline'.next hnext, Nat.add_sub_cancel]
        rw [← hend] at hcol'
        exact hshown hcol'
  have hlocate : s.locate span = ⟨w.name, o.line, column'⟩ := by
    unfold locate
    rw [hf]
    dsimp only
    rw [hcol]
    dsimp only
    rw [htrace]
    rfl
  rw [hlocate]
  exact ⟨o, hmem, w, hw, rfl, hw.line, line', hline'.row.isLine, hpos, hle⟩

end Sources

end Script
