/-
What cleaning leaves behind, whether it is finished or not. Files that
were registered before stay what they are; each file that is registered
on the way was found for an include directive; and the origin of each line
of the draft is a line of such a file or of the entry file. A refusal is
about a span in one of these files.

A file is cleaned while others are open, and those must still be there
when it is done. So the invariant knows the files of some earlier time,
and is taken up anew whenever a file is opened.
-/
import Script.Proofs.Comments.Parts
import Script.Proofs.Macros.Shifts
import Script.Proofs.Upholds

namespace Script

/-- A registry in which the files of an earlier one are what they were. -/
def Sources.Keeps (s t : Sources) : Prop :=
  ∀ id f, s.get? id = some f → t.get? id = some f

theorem Sources.Keeps.trans {s t u : Sources} (h : s.Keeps t)
    (h' : t.Keeps u) : s.Keeps u :=
  fun id f hf => h' id f (h id f hf)

theorem Sources.keeps_push (s : Sources) (f : SourceFile) :
    s.Keeps (s.push f).2 :=
  fun _ _ => Sources.get?_push_of_get?

theorem Sources.Genuine.mono {s t : Sources} (h : s.Keeps t)
    {o : LineOrigin} {w : SourceFile} (ho : s.Genuine o w) :
    t.Genuine o w :=
  ⟨h _ _ ho.file, ho.line, ho.line_le⟩

/-- The files that people wrote, for a run on an entry file that begins
with some files registered: the entry file as it was then, and files that
were found for include directives. -/
inductive Written (before : Sources) (entry : FileId)
    (resolver : Clean.Resolver) : FileId → SourceFile → Prop
  | entry {f : SourceFile} (h : before.get? entry = some f) :
      Written before entry resolver entry f
  | included {id : FileId} {asking path : String} {found : Clean.Included}
      (hid : before.files.size ≤ id)
      (h : resolver asking path = some found) :
      Written before entry resolver id ⟨found.name, found.text, none⟩

namespace Clean

open Script.Action Text

-- ================================================================ lines

/-- A line that is read, with its comments blanked, against the file that
it was written in. -/
structure Line.Fits (l : Line) (f : SourceFile) : Prop where
  number : 1 ≤ l.number
  number_le : l.number ≤ f.lines.length
  start : f.lineStart? l.number = some l.start
  stop_le : l.start + byteLength l.body ≤ f.size

theorem Line.fits {f : SourceFile} {text : List Char} {l : Line}
    (htext : blankComments f.text.toList = .ok text)
    (hl : l ∈ lines text) : l.Fits f := by
  obtain ⟨hbytes, hbreaks⟩ := blankComments_ok htext
  obtain ⟨hnumber, hle, hstop⟩ := linesFrom_bounds 1 0 [] text l hl
  have hstart := linesFrom_start 1 0 [] text l hl
  rw [byteLength_nil, hbytes, ← f.size_eq] at hstop
  refine ⟨hnumber, ?_, ?_, by omega⟩
  · rw [SourceFile.lines, length_splitOn_newline, ← hbreaks]
    omega
  · -- the line breaks are where they were written
    obtain ⟨parts, hparts, rfl⟩ := exists_parted htext
    rw [byteLength_nil, Nat.add_zero, Part.behindBreaks_left,
      hparts.written, ← SourceFile.lineStarts_eq] at hstart
    rwa [SourceFile.lineStart?, if_neg (by omega)]

-- =========================================================== invariants

variable (before : Sources) (entry : FileId) (resolver : Resolver)

/-- A span in a file that people wrote. -/
def Held (s : Sources) (span : Span) : Prop :=
  ∃ f, s.get? span.file = some f
    ∧ Written before entry resolver span.file f ∧ span.stop ≤ f.size

/-- An origin in a file that people wrote, with shifts that lead into that
file. -/
def Traced (s : Sources) (o : LineOrigin) : Prop :=
  ∃ w start, s.Genuine o w ∧ Written before entry resolver o.file w
    ∧ w.lineStart? o.line = some start
    ∧ ∀ t ∈ o.shifts, start + t.origin ≤ w.size

/-- A state of cleaning, later than the time at which some files were
known. -/
structure Sound (known : Sources) (s : State) : Prop where
  kept : known.Keeps s.sources
  grown : before.files.size ≤ s.sources.files.size
  origins : ∀ o ∈ s.draft.origins, Traced before entry resolver s.sources o
  lines : s.draft.atLineStart = false → s.draft.origins ≠ #[]

/-- A step of cleaning that keeps states sound, with results of which `Q`
holds. -/
abbrev Cleans (known : Sources) {α : Type} (Q : α → Prop)
    (x : Cleaning α) : Prop :=
  Upholds (Sound before entry resolver known)
    (fun r s => Held before entry resolver s.sources r.span) Q x

variable {before entry resolver}

theorem Held.mono {s t : Sources} {span : Span} (h : s.Keeps t)
    (hspan : Held before entry resolver s span) :
    Held before entry resolver t span := by
  obtain ⟨f, hf, hwritten, hle⟩ := hspan
  exact ⟨f, h _ _ hf, hwritten, hle⟩

theorem Traced.mono {s t : Sources} {o : LineOrigin} (h : s.Keeps t)
    (ho : Traced before entry resolver s o) :
    Traced before entry resolver t o := by
  obtain ⟨w, start, hw, hwritten⟩ := ho
  exact ⟨w, start, hw.mono h, hwritten⟩

/-- What is known now was known later. -/
theorem Sound.of_keeps {known later : Sources} {s : State}
    (h : known.Keeps later) (hs : Sound before entry resolver later s) :
    Sound before entry resolver known s :=
  ⟨h.trans hs.kept, hs.grown, hs.origins, hs.lines⟩

-- ======================================================== conditionals

section

variable {known : Sources} {cs cs' : List Conditional}

theorem otherBranch_held (h : otherBranch cs = .ok cs')
    (hcs : ∀ c ∈ cs, Held before entry resolver known c.span) :
    ∀ c ∈ cs', Held before entry resolver known c.span := by
  cases cs with
  | nil => cases h
  | cons c cs =>
      simp only [otherBranch] at h
      split at h
      · cases h
      · cases h
        exact List.forall_mem_cons.2 (List.forall_mem_cons.1 hcs)

theorem closeConditional_held (h : closeConditional cs = .ok cs')
    (hcs : ∀ c ∈ cs, Held before entry resolver known c.span) :
    ∀ c ∈ cs', Held before entry resolver known c.span := by
  cases cs with
  | nil => cases h
  | cons c cs =>
      cases h
      exact (List.forall_mem_cons.1 hcs).2

end

-- =============================================================== steps

namespace Cleans

variable {known : Sources} {α : Type} {Q : α → Prop} {span : Span}

theorem refuse (f : Fault) (hspan : Held before entry resolver known span) :
    Cleans before entry resolver known Q (refuse f span : Cleaning α) :=
  .throw fun _ hs => hspan.mono hs.kept

theorem orRefuse (hspan : Held before entry resolver known span)
    {r : Except Fault α} (h : ∀ a, r = .ok a → Q a) :
    Cleans before entry resolver known Q (orRefuse span r) := by
  cases r with
  | ok a => exact .pure (h a rfl)
  | error f => exact refuse f hspan

theorem macroName (hspan : Held before entry resolver known span)
    (directive : String) (text : List Char) :
    Cleans before entry resolver known (fun _ => True)
      (macroName directive text span) := by
  unfold Clean.macroName
  split
  · exact .pure trivial
  · exact refuse _ hspan

/-- Macros do not matter here. -/
theorem setMacros (f : State → Macros) :
    Cleans before entry resolver known (fun _ => True)
      (modify fun s => { s with macros := f s }) :=
  .modify fun _ hs => ⟨hs.kept, hs.grown, hs.origins, hs.lines⟩

theorem define (hspan : Held before entry resolver known span)
    (rest : List Char) :
    Cleans before entry resolver known (fun _ => True)
      (define rest span) :=
  (macroName hspan _ _).bind fun _ _ => setMacros _

theorem addLine {origin : LineOrigin}
    (horigin : Traced before entry resolver known origin)
    (body : List Char) (broken : Bool) :
    Cleans before entry resolver known (fun _ => True)
      (addLine body broken origin) := by
  refine .modify fun s hs => ⟨hs.kept, hs.grown, fun o ho => ?_, fun _ => ?_⟩
  · rcases Array.mem_push.1 ho with ho | rfl
    · exact hs.origins o ho
    · exact horigin.mono hs.kept
  · exact Array.push_ne_empty

theorem endLine : Cleans before entry resolver known (fun _ => True)
    (modify fun s => { s with draft := s.draft.endLine }) := by
  refine .modify fun s hs => ⟨hs.kept, hs.grown, ?_, fun h => ?_⟩
  · rw [Draft.origins_endLine]
    exact hs.origins
  · rw [Draft.atLineStart_endLine] at h
    cases h

/-- An include directive registers a file that was found for it, and goes
on with that file. -/
theorem includeFile (hspan : Held before entry resolver known span)
    {deeper : Option (FileId → Cleaning Unit)}
    (hdeeper : ∀ run ∈ deeper, ∀ (later : Sources) (id : FileId)
      (f : SourceFile), later.get? id = some f →
      Written before entry resolver id f →
      Cleans before entry resolver later (fun _ => True) (run id))
    (opened : List String) (rest : List Char) :
    Cleans before entry resolver known (fun _ => True)
      (includeFile resolver opened deeper rest span) := by
  unfold Clean.includeFile
  split
  case h_2 => exact refuse _ hspan
  case h_1 path _ =>
    cases deeper with
    | none => exact refuse _ hspan
    | some run =>
        dsimp only
        split
        case h_2 => exact refuse _ hspan
        case h_1 found hfound =>
          refine .ite (fun _ => .bind_of_never (refuse _ hspan))
            fun _ => ?_
          refine .modifyGet_bind fun s hs => ?_
          have hkeeps := s.sources.keeps_push
            ⟨found.name, found.text, none⟩
          refine ⟨Sound before entry resolver
            (s.sources.push ⟨found.name, found.text, none⟩).2, ?_, ?_, ?_⟩
          · refine ⟨fun _ _ hf => hf, ?_, fun o ho => ?_, hs.lines⟩
            · have := hs.grown
              simp only [Sources.add, Sources.push, Array.size_push]
              omega
            · exact (hs.origins o ho).mono hkeeps
          · exact fun t ht => ht.of_keeps (hs.kept.trans hkeeps)
          · exact hdeeper run rfl _ _ _ (Sources.get?_push ..)
              (.included hs.grown hfound)

/-- A line of a file that people wrote. -/
theorem cleanLine {file : FileId} {f : SourceFile}
    (hf : known.get? file = some f)
    (hwritten : Written before entry resolver file f)
    {splice : List Char → Span → Cleaning Unit}
    (hsplice : ∀ rest span, Held before entry resolver known span →
      Cleans before entry resolver known (fun _ => True)
        (splice rest span))
    {cs : List Conditional}
    (hcs : ∀ c ∈ cs, Held before entry resolver known c.span)
    {line : Line} (hline : line.Fits f) :
    Cleans before entry resolver known
      (fun cs => ∀ c ∈ cs, Held before entry resolver known c.span)
      (cleanLine file splice cs line) := by
  have horigin {shifts : List Shift}
      (hshifts : ∀ t ∈ shifts, t.origin ≤ byteLength line.body) :
      Traced before entry resolver known
        { LineOrigin.copied file line.number with shifts } := by
    refine ⟨f, line.start, ⟨hf, hline.number, hline.number_le⟩, hwritten,
      hline.start, fun t ht => ?_⟩
    exact (Nat.add_le_add_left (hshifts t ht) _).trans hline.stop_le
  have hcopied := horigin (List.forall_mem_nil _)
  unfold Clean.cleanLine
  dsimp only
  split
  case h_1 =>
    refine .ite (fun _ => .get_bind fun s hs => ?_) fun _ => ?_
    · exact (addLine (horigin fun _ ht => (shifts_within_lines ht).2) _
        _).bind fun _ _ => .pure hcs
    · exact (addLine hcopied _ _).bind fun _ _ => .pure hcs
  case h_2 front behind hhash =>
    have hspan : Held before entry resolver known (Span.between file
        (line.start + byteLength front)
        (line.start + byteLength (Text.trimEnd line.body))) := by
      have hordered := Nat.add_le_add_left (le_of_hashLine? hhash) line.start
      have := byteLength_trimEnd_le line.body
      have := hline.stop_le
      refine ⟨f, hf, hwritten, ?_⟩
      rw [Span.stop_between hordered]
      omega
    have hempty {after : List Conditional}
        (hafter : ∀ c ∈ after, Held before entry resolver known c.span) :
        Cleans before entry resolver known
          (fun cs => ∀ c ∈ cs, Held before entry resolver known c.span)
          (do
            Clean.addLine [] line.broken (.copied file line.number)
            return after) :=
      (addLine hcopied _ _).bind fun _ _ => .pure hafter
    have hopen (holds : Bool) := @hempty (openConditional cs holds
      (Span.between file (line.start + byteLength front)
        (line.start + byteLength (Text.trimEnd line.body))))
      (List.forall_mem_cons.2 ⟨hspan, hcs⟩)
    split
    case h_1 rest hdir =>
      exact (macroName hspan _ _).bind fun name _ => .get_bind fun s hs =>
        hopen _
    case h_2 rest hdir =>
      exact (macroName hspan _ _).bind fun name _ => .get_bind fun s hs =>
        hopen _
    case h_3 hdir =>
      exact (orRefuse hspan fun after hafter =>
        otherBranch_held hafter hcs).bind fun _ hafter => hempty hafter
    case h_4 hdir =>
      exact (orRefuse hspan fun after hafter =>
        closeConditional_held hafter hcs).bind fun _ hafter => hempty hafter
    case h_5 hdir =>
      refine .ite (fun _ => hempty hcs) fun _ => ?_
      split
      · exact (define hspan _).bind fun _ _ => hempty hcs
      · exact (macroName hspan _ _).bind fun _ _ =>
          (setMacros _).bind fun _ _ => hempty hcs
      · exact (hsplice _ _ hspan).bind fun _ _ => .pure hcs
      · exact refuse _ hspan
      · exact refuse _ hspan

/-- A file that people wrote, if include directives in it are carried
out. -/
theorem cleanFile_of_splice {file : FileId} {f : SourceFile}
    (hf : known.get? file = some f)
    (hwritten : Written before entry resolver file f) {deeper : Nat}
    {opened : List String}
    (hsplice : ∀ name rest span, Held before entry resolver known span →
      Cleans before entry resolver known (fun _ => True)
        (spliceInside resolver deeper (name :: opened) rest span)) :
    Cleans before entry resolver known (fun _ => True)
      (cleanFile resolver deeper opened file) := by
  unfold cleanFile
  refine .get_bind fun s hs => ?_
  rw [hs.kept file f hf]
  dsimp only
  cases htext : blankComments f.text.toList with
  | error start =>
      have hspan : Held before entry resolver known
          (.between file start f.size) := by
        refine ⟨f, hf, hwritten, Nat.le_of_eq (Span.stop_between ?_)⟩
        rw [f.size_eq]
        exact blankComments_error htext
      exact .bind_of_never (refuse _ hspan)
  | ok text =>
      dsimp only
      rw [pure_bind]
      have hlines : Cleans before entry resolver known
          (fun cs => ∀ c ∈ cs, Held before entry resolver known c.span)
          ((lines text).foldlM (Clean.cleanLine file
            (spliceInside resolver deeper (f.name :: opened))) []) :=
        .foldlM (List.forall_mem_nil _) fun cs hcs line hline =>
          cleanLine hf hwritten (hsplice f.name) hcs (Line.fits htext hline)
      refine hlines.bind fun cs hcs => ?_
      cases cs with
      | cons c cs => exact refuse _ (hcs c (List.mem_cons_self ..))
      | nil =>
          exact .ite (fun _ => .pure trivial) fun _ => endLine

/-- A file that people wrote, inside of open ones. -/
theorem cleanFile {file : FileId} {f : SourceFile} (deeper : Nat)
    (opened : List String) (hf : known.get? file = some f)
    (hwritten : Written before entry resolver file f) :
    Cleans before entry resolver known (fun _ => True)
      (cleanFile resolver deeper opened file) := by
  induction deeper generalizing known opened file f with
  | zero =>
      exact cleanFile_of_splice hf hwritten fun name rest span hspan =>
        includeFile hspan (by rintro _ ⟨⟩) _ _
  | succ n ih =>
      refine cleanFile_of_splice hf hwritten fun name rest span hspan =>
        includeFile hspan ?_ _ _
      rintro _ ⟨⟩ later id g hg hwritten
      exact ih _ hg hwritten

end Cleans

-- ======================================================== whole texts

theorem Sound.start : Sound before entry resolver before
    ⟨before, [], .empty, #[]⟩ where
  kept _ _ hf := hf
  grown := Nat.le_refl _
  origins o ho := absurd ho (Array.not_mem_empty o)
  lines h := nomatch h

/-- The end of the entry file is a place in it. -/
theorem endOrigin_traced {known : Sources} {f : SourceFile}
    (hf : known.get? entry = some f)
    (hwritten : Written before entry resolver entry f) :
    Traced before entry resolver known (endOrigin entry f) := by
  obtain ⟨n, line, start, column, hline, hstart, hcol, -, -⟩ :=
    f.exists_lineCol (Nat.le_refl f.size)
  have hlt := (List.getElem?_eq_some_iff.1 hline.row.isLine).1
  have hpos := hline.pos
  have hend : endOrigin entry f
      = ⟨entry, n, [⟨0, f.size - start, false⟩]⟩ := by
    unfold endOrigin
    simp only [hcol, hline.lineStart?, Option.getD_some]
  rw [hend]
  refine ⟨f, start, ⟨hf, hpos, by dsimp only; omega⟩, hwritten,
    hline.lineStart?, List.forall_mem_singleton.2 ?_⟩
  exact (Nat.add_sub_of_le hstart).le

/-- A draft with its end marked has origins, all of them in files that
people wrote. -/
theorem Sound.markEnd {known : Sources} {s : State} {f : SourceFile}
    (hs : Sound before entry resolver known s)
    (hf : s.sources.get? entry = some f)
    (hwritten : Written before entry resolver entry f) :
    (s.draft.markEnd (endOrigin entry f)).origins ≠ #[]
      ∧ ∀ o ∈ (s.draft.markEnd (endOrigin entry f)).origins,
        Traced before entry resolver s.sources o := by
  unfold Draft.markEnd
  split
  case isTrue =>
    refine ⟨Array.push_ne_empty, fun o ho => ?_⟩
    rcases Array.mem_push.1 ho with ho | rfl
    · exact hs.origins o ho
    · exact endOrigin_traced hf hwritten
  case isFalse hstart =>
    exact ⟨hs.lines (Bool.eq_false_iff.2 hstart), hs.origins⟩

end Clean

open Clean

section

variable {before after : Sources} {entry : FileId} {resolver : Resolver}
  {f : SourceFile}

/-- What cleaning refuses stands in a file that people wrote. -/
theorem Cleaned.ofFile_refused {refusal : Refusal}
    (hentry : before.get? entry = some f)
    (h : Cleaned.ofFile before entry resolver = (.error refusal, after)) :
    after.get? entry = some f
      ∧ Held before entry resolver after refusal.span := by
  have hclean := Cleans.cleanFile (maxOpenFiles - 1) [] hentry
    (Written.entry hentry : Written before entry resolver entry f)
  unfold Cleaned.ofFile at h
  dsimp only at h
  split at h
  case h_1 refusal s hrun =>
    cases h
    obtain ⟨hs, hspan⟩ := hclean.of_error Sound.start hrun
    exact ⟨hs.kept entry f hentry, hspan⟩
  case h_2 s hrun =>
    have hs := (hclean.of_ok Sound.start hrun).1
    rw [hs.kept entry f hentry] at h
    cases h

/-- A cleaned text is a new file. It has origins, and each of them is in a
file that people wrote. -/
theorem Cleaned.ofFile_traced {cleaned : Cleaned}
    (hentry : before.get? entry = some f)
    (h : Cleaned.ofFile before entry resolver = (.ok cleaned, after)) :
    after.get? entry = some f ∧ before.files.size ≤ cleaned.file
      ∧ ∃ derived origins, after.get? cleaned.file = some derived
        ∧ derived.origins = some origins ∧ origins ≠ []
        ∧ ∀ o ∈ origins, Traced before entry resolver after o := by
  have hclean := Cleans.cleanFile (maxOpenFiles - 1) [] hentry
    (Written.entry hentry : Written before entry resolver entry f)
  unfold Cleaned.ofFile at h
  dsimp only at h
  split at h
  case h_1 => cases h
  case h_2 s hrun =>
    have hs := (hclean.of_ok Sound.start hrun).1
    have hf := hs.kept entry f hentry
    obtain ⟨hne, horigins⟩ := hs.markEnd hf (.entry hentry)
    rw [hf] at h
    cases h
    refine ⟨Sources.get?_push_of_get? hf, hs.grown, _, _,
      Sources.get?_push _ _, rfl, fun hnil => hne ?_, fun o ho => ?_⟩
    · exact Array.toList_eq_nil_iff.1 hnil
    · exact (horigins o (Array.mem_toList_iff.1 ho)).mono
        (s.sources.keeps_push _)

end

end Script
