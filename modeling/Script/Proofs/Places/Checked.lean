/-
Locating with every step checked. Offsets and lines are added, subtracted
from one another and looked up in tables all along, in 32 bits. Here a number
exists only where it fits in those, a difference only where it is not
negative, and a look-up only where the table has an entry.

Nothing is ever missing if the files are so short that two offsets in them
can be added, and if the shifts of an origin lead into its file
(`Sources.Leads`). Without that bound, the sum of where a line starts and how
far a shift leads into it need not fit.
-/
import Script.Clean.Basic
import Script.Proofs.Places.Columns

namespace Script

/-- A number, where it fits in 32 bits. -/
def narrow? (a : Nat) : Option Nat := if a < UInt32.size then some a else none

/-- The sum of two numbers, where it fits in 32 bits. -/
def plus? (a b : Nat) : Option Nat := narrow? (a + b)

/-- The difference of two numbers, where it is not negative. -/
def minus? (a b : Nat) : Option Nat := if b ≤ a then some (a - b) else none

theorem narrow?_eq {a : Nat} (h : a < UInt32.size) : narrow? a = some a :=
  if_pos h

theorem plus?_eq {a b : Nat} (h : a + b < UInt32.size) :
    plus? a b = some (a + b) :=
  narrow?_eq h

theorem minus?_eq {a b : Nat} (h : b ≤ a) : minus? a b = some (a - b) :=
  if_pos h

/-- A length below which two offsets can be added in 32 bits. -/
def halfRange : Nat := 2147483648

theorem add_lt_size {a b : Nat} (ha : a < halfRange) (hb : b < halfRange) :
    a + b < UInt32.size := by
  unfold halfRange at ha hb
  unfold UInt32.size
  omega

theorem lt_size {a : Nat} (ha : a < halfRange) : a < UInt32.size :=
  Nat.lt_of_add_right_lt (add_lt_size ha (by decide : 0 < halfRange))

/-- `Shift.apply`, checked. -/
def Shift.apply? (s : Shift) (offset : Nat) : Option Nat := do
  let origin ← narrow? s.origin
  if s.verbatim then plus? origin (← minus? offset s.derived.toNat)
  else return origin

/-- `LineOrigin.mapOffset`, checked. -/
def LineOrigin.mapOffset? (o : LineOrigin) (offset : Nat) : Option Nat :=
  match o.shifts.reverse.find? (·.derived.toNat ≤ offset) with
  | some s => s.apply? offset
  | none => some offset

/-- A place is led as far behind the origin of a shift as it is in front. -/
theorem Shift.apply_le (s : Shift) (offset : Nat) :
    s.apply offset ≤ s.origin + offset := by
  unfold apply
  split
  · exact Nat.add_le_add_left (Nat.sub_le ..) _
  · exact Nat.le_add_right ..

theorem LineOrigin.mapOffset?_eq {o : LineOrigin} {offset : Nat}
    (bound : Nat) (hshifts : ∀ s ∈ o.shifts, s.origin ≤ bound)
    (hfit : bound + offset < UInt32.size) :
    o.mapOffset? offset = some (o.mapOffset offset)
      ∧ o.mapOffset offset ≤ bound + offset := by
  unfold mapOffset? mapOffset
  cases h : o.shifts.reverse.find? (·.derived.toNat ≤ offset) with
  | none => exact ⟨rfl, Nat.le_add_left ..⟩
  | some s =>
      have hle : s.derived.toNat ≤ offset := by
        simpa using List.find?_some h
      have horigin :=
        hshifts s (List.mem_reverse.1 (List.mem_of_find?_eq_some h))
      have happly := s.apply_le offset
      refine ⟨?_, by dsimp only; omega⟩
      show s.apply? offset = some (s.apply offset)
      unfold Shift.apply? Shift.apply
      rw [narrow?_eq (by omega), minus?_eq hle, Option.bind_eq_bind,
        Option.bind_some]
      split
      · exact plus?_eq (by omega)
      · rfl

namespace SourceFile

/-- `SourceFile.lineStarts`, checked. -/
def lineStarts? (f : SourceFile) : Option (List Nat) :=
  if ∀ start ∈ f.lineStarts, start < UInt32.size then some f.lineStarts
  else none

/-- `SourceFile.lineStart?`, checked. -/
def checkedStart? (f : SourceFile) (line : Nat) : Option (Option Nat) := do
  let starts ← f.lineStarts?
  if line = 0 then return none
  return starts[← minus? line 1]?

/-- `SourceFile.lineCol`, checked. -/
def lineCol? (f : SourceFile) (offset : Nat) : Option (Nat × Nat) := do
  let offset := min offset (← narrow? f.size)
  let starts ← f.lineStarts?
  let index ← minus? (starts.takeWhile (· ≤ offset)).length 1
  let start ← starts[index]?
  let behind ← minus? offset start
  let column :=
    ((Text.dropBytes? start f.text.toList).bind
      (Text.countIn? behind)).getD behind
  return (← plus? index 1, ← plus? column 1)

variable {f : SourceFile}

theorem lineStarts?_eq (hsize : f.size < UInt32.size) :
    f.lineStarts? = some f.lineStarts := by
  refine if_pos fun start hstart => ?_
  obtain ⟨k, hk⟩ := List.mem_iff_getElem?.1 hstart
  have hline : f.lineStart? (k + 1) = some start := by
    rwa [lineStart?, if_neg (Nat.succ_ne_zero k), Nat.add_sub_cancel]
  obtain ⟨line, hat⟩ := lineAt_of_lineStart? hline
  have := hat.stop_le
  omega

theorem checkedStart?_eq (hsize : f.size < UInt32.size) (line : Nat) :
    f.checkedStart? line = some (f.lineStart? line) := by
  unfold checkedStart? lineStart?
  rw [lineStarts?_eq hsize, Option.bind_eq_bind, Option.bind_some]
  split
  · rfl
  · rw [minus?_eq (by omega)]
    rfl

/-- A file has at most one line more than bytes. -/
theorem length_lines_le (f : SourceFile) : f.lines.length ≤ f.size + 1 := by
  have hcount : f.text.toList.count '\n'
      ≤ Text.byteLength f.text.toList := by
    induction f.text.toList with
    | nil => exact Nat.le_refl 0
    | cons c cs ih =>
        have := c.utf8Size_pos
        rw [List.count_cons, Text.byteLength_cons]
        split <;> omega
  rw [lines, Clean.length_splitOn_newline, f.size_eq]
  exact Nat.add_le_add_right hcount 1

theorem lineCol?_eq (hsize : f.size < halfRange) (offset : Nat) :
    f.lineCol? offset = some (f.lineCol offset) := by
  obtain ⟨k, line, start, hat, hle, hbehind⟩ :=
    f.lined.exists_line (Nat.zero_le _) (Nat.min_le_right offset f.size)
  have hline : f.LineAt (k + 1) line start :=
    ⟨Nat.le_add_left .., by rwa [Nat.add_sub_cancel]⟩
  obtain ⟨hlength, hcol⟩ := hline.lineCol_eq hle hbehind
  -- neither the line nor the column is too large
  have hindex : k + 1 < UInt32.size := by
    have := f.length_lines_le
    have := (List.getElem?_eq_some_iff.1 hat.isLine).1
    exact add_lt_size (by omega) (by decide)
  have hcolumn : ((Text.dropBytes? start f.text.toList).bind
      (Text.countIn? (min offset f.size - start))).getD
        (min offset f.size - start) + 1 < UInt32.size := by
    have := Text.countIn?_getD_le start (min offset f.size - start)
      f.text.toList
    exact add_lt_size (by omega) (by decide)
  rw [← f.lineCol_min, hcol]
  unfold lineCol?
  simp only [narrow?_eq (lt_size hsize), lineStarts?_eq (lt_size hsize),
    hlength, minus?_eq (Nat.le_add_left 1 k), Nat.add_sub_cancel,
    hat.isStart, minus?_eq hle, plus?_eq hindex, plus?_eq hcolumn,
    Option.bind_eq_bind, Option.bind_some]
  rfl

end SourceFile

/-- `Clean.endOrigin`, checked. -/
def Clean.endOrigin? (file : FileId) (source : SourceFile) :
    Option LineOrigin := do
  let size ← narrow? source.size
  let (line, _) ← source.lineCol? size
  let start := (← source.checkedStart? line).getD size
  let column ← minus? size start
  return ⟨file, line, [⟨0, column, false⟩]⟩

theorem Clean.endOrigin?_eq (file : FileId) {source : SourceFile}
    (hsize : source.size < halfRange) :
    endOrigin? file source = some (endOrigin file source) := by
  obtain ⟨n, line, start, column, hline, hle, hcol, -, -⟩ :=
    source.exists_lineCol (Nat.le_refl source.size)
  unfold endOrigin? endOrigin
  simp only [narrow?_eq (lt_size hsize), SourceFile.lineCol?_eq hsize, hcol,
    SourceFile.checkedStart?_eq (lt_size hsize), hline.lineStart?,
    minus?_eq hle, Option.getD_some, Option.bind_eq_bind, Option.bind_some]
  rfl

namespace Sources

/-- `Sources.traceBack?`, checked: there may be nothing to trace back to,
but there is always an answer. -/
def traced? (s : Sources) (f : SourceFile) (line offset : Nat) :
    Option (Option Location) := do
  let some origins := f.origins | return none
  let index ← minus? line 1
  let some origin := origins[index]? <|> origins.getLast? | return none
  let some written := s.get? origin.file | return none
  let size ← narrow? f.size
  let some start ← f.checkedStart? line | return none
  let ahead ← minus? (min offset size) start
  let some writtenStart ← written.checkedStart? origin.line | return none
  let writtenEnd ←
    match ← written.checkedStart? (← plus? origin.line 1) with
    | some next => minus? next 1
    | none => narrow? written.size
  let mapped ← origin.mapOffset? ahead
  let place ← plus? writtenStart mapped
  let (_, column) ← written.lineCol? (min place writtenEnd)
  return some ⟨written.name, origin.line, column⟩

/-- `Sources.locate`, checked. -/
def locate? (s : Sources) (span : Span) : Option Location :=
  match s.get? span.file with
  | none => some .unknown
  | some f => do
      let (line, column) ← f.lineCol? span.start
      let traced ← s.traced? f line span.start
      return traced.getD ⟨f.name, line, column⟩

/-- An origin in a file that is short enough, with shifts that lead into the
file from where its line starts. -/
structure Leads (s : Sources) (o : LineOrigin) : Prop where
  short : ∀ w, s.get? o.file = some w → w.size < halfRange
  shifts : ∀ w start, s.get? o.file = some w →
    w.lineStart? o.line = some start →
    ∀ t ∈ o.shifts, start + t.origin ≤ w.size

variable {s : Sources} {f : SourceFile}

/-- A line behind another one does not start at zero. -/
theorem pos_of_lineStart?_succ {line start next : Nat}
    (hstart : f.lineStart? line = some start)
    (hnext : f.lineStart? (line + 1) = some next) : 1 ≤ next := by
  obtain ⟨text, hline⟩ := SourceFile.lineAt_of_lineStart? hstart
  rw [hline.next hnext]
  exact Nat.le_add_left ..

theorem mem_of_chosen {origins : List LineOrigin} {o : LineOrigin} {n : Nat}
    (h : (origins[n]? <|> origins.getLast?) = some o) : o ∈ origins := by
  cases ho : origins[n]? with
  | some o' =>
      rw [ho] at h
      cases h
      exact List.mem_of_getElem? ho
  | none =>
      rw [ho] at h
      exact List.mem_of_getLast? h

theorem traced?_eq {line offset start : Nat} (hsize : f.size < halfRange)
    (hpos : 1 ≤ line) (hstart : f.lineStart? line = some start)
    (hle : start ≤ min offset f.size)
    (hleads : ∀ origins, f.origins = some origins →
      ∀ o ∈ origins, s.Leads o) :
    s.traced? f line offset = some (s.traceBack? f line offset) := by
  unfold traced? traceBack?
  cases horigins : f.origins with
  | none => rfl
  | some origins =>
  simp only [minus?_eq hpos, narrow?_eq (lt_size hsize),
    SourceFile.checkedStart?_eq (lt_size hsize), hstart, minus?_eq hle,
    Option.bind_eq_bind, Option.bind_some]
  cases horigin : origins[line - 1]? <|> origins.getLast? with
  | none => rfl
  | some origin =>
  cases hwritten : s.get? origin.file with
  | none =>
      simp only [Option.bind_some, hwritten]
      rfl
  | some written =>
  have hleads := hleads origins horigins origin (mem_of_chosen horigin)
  have hshort := hleads.short written hwritten
  cases hline : written.lineStart? origin.line with
  | none =>
      simp only [hwritten, Option.bind_some,
        SourceFile.checkedStart?_eq (lt_size hshort), hline]
      rfl
  | some writtenStart =>
  obtain ⟨text, hat⟩ := SourceFile.lineAt_of_lineStart? hline
  have hstop := hat.stop_le
  -- the next line has a number
  have hnumber : origin.line + 1 < UInt32.size := by
    have := written.length_lines_le
    have := (List.getElem?_eq_some_iff.1 hat.row.isLine).1
    unfold halfRange at hshort
    unfold UInt32.size
    omega
  -- the shifts lead into the file, and no further behind than the line goes
  have hshifts : ∀ t ∈ origin.shifts,
      t.origin ≤ written.size - writtenStart := fun t ht =>
    Nat.le_sub_of_add_le' (hleads.shifts written _ hwritten hline t ht)
  have hsum := add_lt_size hshort hsize
  have hahead : written.size - writtenStart
      + (min offset f.size - start) < UInt32.size := by omega
  obtain ⟨hmap, hmapped⟩ := LineOrigin.mapOffset?_eq _ hshifts hahead
  have hplace : writtenStart
      + origin.mapOffset (min offset f.size - start) < UInt32.size := by omega
  simp only [hwritten, Option.bind_some,
    SourceFile.checkedStart?_eq (lt_size hshort), hline, plus?_eq hnumber,
    hmap, plus?_eq hplace, SourceFile.lineCol?_eq hshort]
  cases hnext : written.lineStart? (origin.line + 1) with
  | none =>
      simp only [narrow?_eq (lt_size hshort)]
      rfl
  | some next =>
      simp only [minus?_eq (pos_of_lineStart?_succ hline hnext)]
      rfl

theorem locate?_eq {span : Span} (hf : s.get? span.file = some f)
    (hsize : f.size < halfRange)
    (hleads : ∀ origins, f.origins = some origins →
      ∀ o ∈ origins, s.Leads o) :
    s.locate? span = some (s.locate span) := by
  obtain ⟨n, text, start, column, hline, hle, hcol, -, -⟩ :=
    f.exists_lineCol (Nat.min_le_right span.start f.size)
  rw [f.lineCol_min] at hcol
  unfold locate? locate
  simp only [hf, SourceFile.lineCol?_eq hsize, hcol, Option.bind_eq_bind,
    Option.bind_some,
    traced?_eq hsize hline.pos hline.lineStart? hle hleads]
  rfl

end Sources

end Script
