/-
The alignment of a cleaned text with its origins. Every line that was
read adds one origin, but not every line that was read becomes a line of
the text: the last line of a file that has no line break and leaves no
characters adds nothing to it. Such a line is called silent. The text is
made of the lines that are not silent, one by one, and so the origins
are aligned with it exactly if no silent line was read
(`origins_aligned_iff`).

The invariant of the whole run is that every line begins at the start of
a line of the draft (`Ready`), so that the draft with its last line ended
is the draft before with the lines laid one after the other (`Laid`).
-/
import Script.Proofs.Clean.Step

namespace Script

/-- Where the written line of an origin stands. -/
def LineOrigin.place (o : LineOrigin) : FileId × Nat := (o.file, o.line)

namespace Clean

open Script.Action

-- ============================================================= drafts

namespace Draft

/-- At the start of a line there is no line to end. -/
theorem endLine_of_atLineStart {d : Draft} (h : d.atLineStart = true) :
    d.endLine = d := by
  simp [endLine, h]

theorem atLineStart_endLine (d : Draft) : d.endLine.atLineStart = true := by
  unfold endLine
  split
  case isTrue h => exact h
  case isFalse h => rfl

theorem origins_endLine (d : Draft) : d.endLine.origins = d.origins := by
  unfold endLine
  split <;> rfl

theorem atLineStart_addLine_true (d : Draft) (body : List Char)
    (origin : LineOrigin) : (d.addLine body true origin).atLineStart = true :=
  rfl

/-- A draft in the middle of a line ends that line with a break. -/
theorem text_endLine_of_not_atLineStart {d : Draft}
    (h : d.atLineStart = false) : d.endLine.text = d.text ++ ['\n'] := by
  simp [endLine, h, text]

/-- The origin of the end adds no characters. -/
theorem text_markEnd (d : Draft) (origin : LineOrigin) :
    (d.markEnd origin).text = d.text := by
  unfold markEnd
  split <;> rfl

/-- A line without a break leaves the draft at the start of a line only
if it has no characters. -/
theorem atLineStart_addLine_false {d : Draft} {body : List Char}
    (hbody : '\n' ∉ body) (hne : body ≠ []) (origin : LineOrigin) :
    (d.addLine body false origin).atLineStart = false := by
  have hrev : body.reverse ≠ [] := by simpa using hne
  obtain ⟨c, cs, hcs⟩ := List.exists_cons_of_ne_nil hrev
  have hc : c ≠ '\n' := by
    rintro rfl
    exact hbody (List.mem_reverse.1 (by rw [hcs]; simp))
  simp [addLine, atLineStart, hcs, hc]

/-- A line laid at the start of a line of the draft. -/
theorem text_endLine_addLine {d : Draft} (h : d.atLineStart = true)
    {m : Made} (hm : '\n' ∉ m.text) (origin : LineOrigin) :
    (d.addLine m.text m.line.broken origin).endLine.text =
      d.text ++ m.laid := by
  cases hbroken : m.line.broken with
  | true =>
      rw [endLine_of_atLineStart (atLineStart_addLine_true ..)]
      simp [Made.laid, Made.isSilent, hbroken]
  | false =>
      by_cases hnil : m.text = []
      · -- a silent line
        have hstart : (d.addLine m.text false origin).atLineStart = true := by
          simpa [addLine, atLineStart, hnil] using h
        rw [endLine_of_atLineStart hstart]
        simp [Made.laid, Made.isSilent, hbroken, hnil]
      · rw [text_endLine_of_not_atLineStart
          (atLineStart_addLine_false hm hnil origin)]
        simp [Made.laid, Made.isSilent, hbroken, hnil]

end Draft

-- ====================================================== the invariant

/-- A line of the history is a line of a registered file, its comments
blanked. -/
def Made.Genuine (sources : Sources) (m : Made) : Prop :=
  ∃ f text, sources.get? m.file = some f
    ∧ blankComments f.text.toList = .ok text ∧ m.line ∈ lines text

/-- A state in which a line can begin. -/
structure Ready (s : State) : Prop where
  atLineStart : s.draft.atLineStart = true
  flat : s.macros.Flat

/-- What a run that laid the lines of a history did. -/
structure Laid (s : State) (ms : List Made) (s' : State) : Prop where
  origins : s'.draft.origins.toList.map LineOrigin.place =
    s.draft.origins.toList.map LineOrigin.place ++ ms.map Made.place
  text : s'.draft.endLine.text = s.draft.text ++ ms.flatMap Made.laid
  flat : s'.macros.Flat
  sources : ∀ id f, s.sources.get? id = some f →
    s'.sources.get? id = some f
  genuine : ∀ m ∈ ms, m.Genuine s'.sources
  plain : ∀ m ∈ ms, '\n' ∉ m.text

theorem Laid.nil {s : State} (h : Ready s) : Laid s [] s where
  origins := by simp
  text := by simp [Draft.endLine_of_atLineStart h.atLineStart]
  flat := h.flat
  sources := fun _ _ hf => hf
  genuine := by simp
  plain := by simp

/-- A genuine line stays one when more files are registered. -/
theorem Made.Genuine.mono {sources sources' : Sources}
    (h : ∀ id f, sources.get? id = some f → sources'.get? id = some f)
    {m : Made} (hm : m.Genuine sources) : m.Genuine sources' := by
  obtain ⟨f, text, hf, htext, hline⟩ := hm
  exact ⟨f, text, h _ _ hf, htext, hline⟩

/-- Two runs in order lay the lines of both, if a line can begin in
between. -/
theorem Laid.append {s t s' : State} {ms ns : List Made}
    (h : Laid s ms t) (ht : Ready t) (h' : Laid t ns s') :
    Laid s (ms ++ ns) s' where
  origins := by rw [h'.origins, h.origins, List.map_append,
    List.append_assoc]
  text := by
    have hend := h.text
    rw [Draft.endLine_of_atLineStart ht.atLineStart] at hend
    rw [h'.text, hend, List.flatMap_append, List.append_assoc]
  flat := h'.flat
  sources := fun id f hf => h'.sources id f (h.sources id f hf)
  genuine := by
    intro m hm
    rcases List.mem_append.1 hm with hm | hm
    · exact (h.genuine m hm).mono h'.sources
    · exact h'.genuine m hm
  plain := by
    intro m hm
    rcases List.mem_append.1 hm with hm | hm
    · exact h.plain m hm
    · exact h'.plain m hm

/-- What ends the last line keeps what was laid. -/
theorem Laid.endLine {s s' : State} {ms : List Made} (h : Laid s ms s') :
    Laid s ms { s' with draft := s'.draft.endLine } where
  origins := by rw [Draft.origins_endLine]; exact h.origins
  text := by
    rw [Draft.endLine_of_atLineStart (Draft.atLineStart_endLine _)]
    exact h.text
  flat := h.flat
  sources := h.sources
  genuine := h.genuine
  plain := h.plain

/-- One line that is not replaced by a file. -/
theorem Laid.single {s : State} (hs : Ready s) {m : Made}
    (hms : m.macros = s.macros) (hbody : '\n' ∉ m.line.body)
    (hgenuine : m.Genuine s.sources) {ms : Macros} (hflat : ms.Flat)
    {origin : LineOrigin} (horigin : origin.place = m.place) :
    Laid s [m] { s with
      macros := ms
      draft := s.draft.addLine m.text m.line.broken origin } := by
  have hplain : '\n' ∉ m.text := by
    unfold Made.text
    split
    · rw [hms]
      exact newline_not_mem_expand hs.flat hbody
    · simp
  exact {
    origins := by simp [Draft.addLine, horigin]
    text := by
      rw [Draft.text_endLine_addLine hs.atLineStart hplain]
      simp
    flat := hflat
    sources := fun _ _ hf => hf
    genuine := by
      intro m' hm'
      rw [List.mem_singleton.1 hm']
      exact hgenuine
    plain := by
      intro m' hm'
      rw [List.mem_singleton.1 hm']
      exact hplain }

-- ============================================================ the run

/-- Cleaning a line lays its history, if carrying out an include directive
does. Behind a line with a line break another one can follow. -/
theorem laid_of_cleanLine {file : FileId}
    {splice : List Char → Span → Cleaning Unit}
    {pasted : List Char → State → List Made}
    (hsplice : ∀ rest span s s', Ready s → splice rest span s = .ok () s' →
      Laid s (pasted rest s) s' ∧ s'.draft.atLineStart = true)
    {line : Line} {before after : List Conditional} {s s' : State}
    (hs : Ready s) (hplain : '\n' ∉ line.body)
    (hgenuine : ∀ ms active, Made.Genuine s.sources ⟨file, line, ms, active⟩)
    (h : cleanLine file splice before line s = .ok after s') :
    Laid s (madeLine file pasted before line s) s'
      ∧ (line.broken = true → s'.draft.atLineStart = true) := by
  unfold madeLine
  rcases cleanLine_ok h with
    ⟨rest, span, hpaste, -, hrun⟩ | ⟨hpaste, ms, rfl, hflat⟩
  · rw [hpaste]
    obtain ⟨hlaid, hstart⟩ := hsplice rest span s s' hs hrun
    exact ⟨hlaid, fun _ => hstart⟩
  · rw [hpaste]
    refine ⟨Laid.single hs rfl hplain (hgenuine _ _)
      (hflat hplain hs.flat) rfl, fun hbroken => ?_⟩
    rw [hbroken]
    exact Draft.atLineStart_addLine_true ..

/-- Cleaning lines lays their history, if carrying out an include
directive does. The last line may be without a line break, so that
nothing is said about where the draft stands behind it. -/
theorem laid_of_foldlM {file : FileId}
    {splice : List Char → Span → Cleaning Unit}
    {pasted : List Char → State → List Made}
    (hsplice : ∀ rest span s s', Ready s → splice rest span s = .ok () s' →
      Laid s (pasted rest s) s' ∧ s'.draft.atLineStart = true)
    {ls : List Line} {before after : List Conditional} {s s' : State}
    (hs : Ready s) (hplain : ∀ l ∈ ls, '\n' ∉ l.body)
    (hbroken : ∀ l ∈ ls.dropLast, l.broken = true)
    (hgenuine : ∀ l ∈ ls, ∀ ms active,
      Made.Genuine s.sources ⟨file, l, ms, active⟩)
    (h : ls.foldlM (cleanLine file splice) before s = .ok after s') :
    Laid s (madeLines file splice pasted before ls s) s' := by
  induction ls generalizing before s with
  | nil =>
      obtain ⟨-, rfl⟩ := pure_ok.1 h
      exact .nil hs
  | cons line ls ih =>
      rw [List.foldlM_cons, bind_ok] at h
      obtain ⟨between, t, hline, hrest⟩ := h
      obtain ⟨hplain, hplains⟩ := List.forall_mem_cons.1 hplain
      obtain ⟨hlaid, hstart⟩ := laid_of_cleanLine hsplice hs hplain
        (hgenuine line (List.mem_cons_self ..)) hline
      simp only [madeLines, hline]
      cases ls with
      | nil =>
          obtain ⟨-, rfl⟩ := pure_ok.1 hrest
          simpa [madeLines] using hlaid
      | cons next ls =>
          rw [List.dropLast_cons_cons] at hbroken
          obtain ⟨hbroken, hbrokens⟩ := List.forall_mem_cons.1 hbroken
          have ht : Ready t := ⟨hstart hbroken, hlaid.flat⟩
          refine hlaid.append ht (ih ht hplains hbrokens ?_ hrest)
          intro l hl ms active
          exact (hgenuine l (List.mem_cons_of_mem _ hl) ms active).mono
            hlaid.sources

/-- The history of include directives inside of open files. -/
def pastedInside (resolver : Resolver) (deeper : Nat)
    (inside : List String) : List Char → State → List Made :=
  match deeper with
  | 0 => fun _ _ => []
  | n + 1 => pastedLines resolver inside (madeFile resolver n inside)

/-- The history of a file is that of its lines. -/
theorem madeFile_eq {resolver : Resolver} {deeper : Nat}
    {opened : List String} {file : FileId} {s : State}
    {source : SourceFile} {text : List Char}
    (hsource : s.sources.get? file = some source)
    (htext : blankComments source.text.toList = .ok text) :
    madeFile resolver deeper opened file s =
      madeLines file (spliceInside resolver deeper (source.name :: opened))
        (pastedInside resolver deeper (source.name :: opened)) []
        (lines text) s := by
  cases deeper <;>
    simp only [madeFile, hsource, htext, spliceInside, pastedInside]

/-- Registering a file leaves a state ready. -/
theorem Ready.opening {s : State} (hs : Ready s) (found : Included) :
    Ready (s.opening found).2 := ⟨hs.atLineStart, hs.flat⟩

/-- What is laid behind the registering of a file is laid. -/
theorem Laid.of_opening {s s' : State} {found : Included}
    {ms : List Made} (h : Laid (s.opening found).2 ms s') :
    Laid s ms s' where
  origins := h.origins
  text := h.text
  flat := h.flat
  sources := fun id f hf =>
    h.sources id f (Sources.get?_push_of_get? hf)
  genuine := h.genuine
  plain := h.plain

/-- Cleaning a file lays its history, if include directives inside of it
do; inside of another file it ends at the start of a line. -/
theorem laid_of_splice {resolver : Resolver} {deeper : Nat}
    {opened : List String} {file : FileId} {s s' : State} (hs : Ready s)
    (h : cleanFile resolver deeper opened file s = .ok () s')
    (hsplice : ∀ name rest span t t', Ready t →
      spliceInside resolver deeper (name :: opened) rest span t
        = .ok () t' →
      Laid t (pastedInside resolver deeper (name :: opened) rest t) t'
        ∧ t'.draft.atLineStart = true) :
    Laid s (madeFile resolver deeper opened file s) s'
      ∧ (opened ≠ [] → s'.draft.atLineStart = true) := by
  obtain ⟨source, text, t, hsource, htext, hlines, rfl⟩ := cleanFile_ok h
  have hlaid := laid_of_foldlM (hsplice source.name) hs
    (fun _ hl => newline_not_mem_of_mem_lines hl)
    (fun _ hl => broken_of_mem_dropLast_lines hl)
    (fun _ hl _ _ => ⟨source, text, hsource, htext, hl⟩) hlines
  rw [madeFile_eq hsource htext]
  cases opened with
  | nil => exact ⟨hlaid, fun hne => absurd rfl hne⟩
  | cons name names =>
      exact ⟨hlaid.endLine, fun _ => Draft.atLineStart_endLine _⟩

/-- Cleaning a file lays its history; inside of another file it ends at
the start of a line. -/
theorem laid_of_cleanFile {resolver : Resolver} {deeper : Nat}
    {opened : List String} {file : FileId} {s s' : State} (hs : Ready s)
    (h : cleanFile resolver deeper opened file s = .ok () s') :
    Laid s (madeFile resolver deeper opened file s) s'
      ∧ (opened ≠ [] → s'.draft.atLineStart = true) := by
  induction deeper generalizing opened file s s' with
  | zero =>
      refine laid_of_splice hs h fun name rest span s s' _ hrun => ?_
      obtain ⟨run, _, hnone, -⟩ := includeFile_ok hrun
      cases hnone
  | succ n ih =>
      refine laid_of_splice hs h
        fun name rest span s s' hs hrun => ?_
      obtain ⟨run, found, hsome, hfound, -, hrun⟩ := includeFile_ok hrun
      cases hsome
      have hlaid := ih (hs.opening found) hrun
      have hpasted : pastedInside resolver (n + 1) (name :: opened) rest s =
          madeFile resolver n (name :: opened) (s.opening found).1
            (s.opening found).2 := by
        simp only [pastedInside, pastedLines, hfound]
      rw [hpasted]
      exact ⟨hlaid.1.of_opening, hlaid.2 (by simp)⟩

-- ======================================================== whole texts

/-- Whether a text ends at the start of a line. -/
def endsLine (text : List Char) : Bool := text.getLast?.all (· == '\n')

theorem endsLine_text (d : Draft) : endsLine d.text = d.atLineStart := by
  unfold endsLine Draft.text Draft.atLineStart
  rw [List.getLast?_reverse]
  cases d.reversed <;> rfl

/-- The written lines that the lines of a text were made of, each with
its characters: the lines that are not silent, and the end of the entry
file for the empty line behind a final line break. -/
def lineWriters (made : List Made) (text : List Char)
    (entryEnd : FileId × Nat) : List ((FileId × Nat) × List Char) :=
  (made.filter (!·.isSilent)).map (fun m => (m.place, m.text))
    ++ if endsLine text then [(entryEnd, [])] else []

/-- Lines laid one after the other are cut apart again at the line
breaks. -/
theorem splitOn_flatMap_laid {made : List Made}
    (hplain : ∀ m ∈ made, '\n' ∉ m.text) :
    (made.flatMap Made.laid).splitOn '\n' =
      (made.filter (!·.isSilent)).map Made.text ++ [[]] := by
  induction made with
  | nil => rfl
  | cons m ms ih =>
      have hms := ih fun m' hm' => hplain m' (List.mem_cons_of_mem _ hm')
      rw [List.flatMap_cons]
      cases hsilent : m.isSilent with
      | true => simpa [Made.laid, hsilent] using hms
      | false =>
          have hm := hplain m (List.mem_cons_self ..)
          simp only [Made.laid, hsilent, Bool.false_eq_true, if_false,
            List.append_assoc, List.cons_append, List.nil_append,
            Bool.not_false, List.filter_cons_of_pos, List.map_cons]
          rw [List.splitOn_append_cons_self, List.splitOn_eq_singleton hm,
            hms, List.singleton_append]

/-- A text has one line more than it has line breaks. -/
theorem length_splitOn_newline (text : List Char) :
    (text.splitOn '\n').length = text.count '\n' + 1 := by
  induction text with
  | nil => rfl
  | cons c cs ih =>
      by_cases hc : c = '\n'
      · subst hc
        have := List.splitOn_append_cons_self (a := '\n') [] cs
        rw [List.nil_append] at this
        rw [this, List.length_append, ih, List.count_cons_self]
        simp
        omega
      · rw [List.count_cons_of_ne hc, ← ih,
          List.splitOn_cons_eq_if_modifyHead]
        simp [hc]

/-- The lines of the draft behind a run from an empty draft. -/
theorem splitOn_text_of_laid {s s' : State} {made : List Made}
    (hs : s.draft.text = []) (h : Laid s made s')
    (entryEnd : FileId × Nat) :
    s'.draft.text.splitOn '\n' =
      (lineWriters made s'.draft.text entryEnd).map (·.2) := by
  have hlaid := h.text
  rw [hs, List.nil_append] at hlaid
  have hsplit := splitOn_flatMap_laid h.plain
  rw [← hlaid] at hsplit
  unfold lineWriters
  rw [endsLine_text, List.map_append, List.map_map]
  cases hstart : s'.draft.atLineStart with
  | true =>
      rw [Draft.endLine_of_atLineStart hstart] at hsplit
      simpa [Function.comp_def] using hsplit
  | false =>
      rw [Draft.text_endLine_of_not_atLineStart hstart,
        List.splitOn_append_cons_self, List.splitOn_nil] at hsplit
      simpa [Function.comp_def] using (List.append_left_inj [[]]).1 hsplit

/-- A text aligned with origins: there is one for each of its lines, and
it names the written line that the line was made of. -/
structure Aligned (text : List Char) (origins : List LineOrigin)
    (writers : List (FileId × Nat)) : Prop where
  count : origins.length = text.count '\n' + 1
  names : ∀ k : Nat, origins[k]?.map LineOrigin.place = writers[k]?

/-- Leaving out the silent lines leaves out none exactly if there is
none. -/
theorem length_filter_loud_iff (made : List Made) :
    (made.filter (!·.isSilent)).length = made.length ↔
      ∀ m ∈ made, m.isSilent = false := by
  rw [List.length_filter_eq_length_iff]
  simp

/-- The origins of the draft behind a run from an empty draft, with the
origin of the empty line at the end. -/
theorem aligned_iff_of_laid {s s' : State} {made : List Made}
    (hs : s.draft = .empty) (h : Laid s made s') (ending : LineOrigin) :
    Aligned s'.draft.text (s'.draft.markEnd ending).origins.toList
        ((lineWriters made s'.draft.text ending.place).map (·.1))
      ↔ ∀ m ∈ made, m.isSilent = false := by
  let tail := if endsLine s'.draft.text then [ending.place] else []
  have horigins : (s'.draft.markEnd ending).origins.toList.map
      LineOrigin.place = made.map Made.place ++ tail := by
    have hmade := h.origins
    rw [hs] at hmade
    unfold Draft.markEnd
    simp only [tail, endsLine_text]
    split <;> simpa [Draft.empty] using hmade
  have hwriters : (lineWriters made s'.draft.text ending.place).map (·.1) =
      (made.filter (!·.isSilent)).map Made.place ++ tail := by
    unfold lineWriters
    simp only [tail]
    split <;> simp [Function.comp_def]
  have hcount : s'.draft.text.count '\n' + 1 =
      (made.filter (!·.isSilent)).length + tail.length := by
    have hsplit := splitOn_text_of_laid (by rw [hs]; rfl) h ending.place
    have hlen := congrArg List.length hwriters
    rw [← length_splitOn_newline, hsplit, List.length_map]
    rw [List.length_map, List.length_append, List.length_map] at hlen
    exact hlen
  have hlength : (s'.draft.markEnd ending).origins.toList.length =
      made.length + tail.length := by
    have := congrArg List.length horigins
    simpa using this
  rw [← length_filter_loud_iff, hwriters]
  constructor
  · intro haligned
    have := haligned.count
    omega
  · intro hfilter
    refine ⟨by omega, fun k => ?_⟩
    have hmade : made.filter (!·.isSilent) = made :=
      List.filter_eq_self.2 (by
        simpa using (length_filter_loud_iff made).1 hfilter)
    rw [hmade, ← horigins, List.getElem?_map]

/-- The lines of a cleaned text are what the lines that were read left
behind, one by one, the silent ones left out; and there is exactly one
origin for each line of the text, naming the line that it was made of,
exactly if no silent line was read. -/
theorem origins_aligned_iff {sources sources' : Sources} {file : FileId}
    {resolver : Resolver} {cleaned : Cleaned}
    (h : Cleaned.ofFile sources file resolver = (.ok cleaned, sources')) :
    ∃ source derived origins,
      sources.get? file = some source
        ∧ sources'.get? cleaned.file = some derived
        ∧ derived.origins = some origins
        ∧ (∀ m ∈ history sources file resolver, m.Genuine sources')
        ∧ derived.text.toList.splitOn '\n' =
            (lineWriters (history sources file resolver)
              derived.text.toList (endOrigin file source).place).map (·.2)
        ∧ (Aligned derived.text.toList origins
            ((lineWriters (history sources file resolver)
              derived.text.toList (endOrigin file source).place).map (·.1))
          ↔ ∀ m ∈ history sources file resolver, m.isSilent = false) := by
  unfold Cleaned.ofFile at h
  simp only [] at h
  cases hrun : cleanFile resolver (maxOpenFiles - 1) [] file
      (.start sources) with
  | error refusal t =>
      simp only [State.start] at hrun
      simp [hrun] at h
  | ok u t =>
      obtain ⟨source, _, _, hsource, -, -, -⟩ := cleanFile_ok hrun
      have hready : Ready (.start sources) := ⟨rfl, by simp [State.start,
        Macros.Flat]⟩
      obtain ⟨hlaid, -⟩ := laid_of_cleanFile hready hrun
      have ht := hlaid.sources file source hsource
      simp only [State.start] at hrun
      simp only [hrun, ht, Prod.mk.injEq, Except.ok.injEq] at h
      obtain ⟨rfl, rfl⟩ := h
      refine ⟨source, _, _, hsource, Sources.get?_push _ _, rfl, ?_, ?_, ?_⟩
      · intro m hm
        exact (hlaid.genuine m hm).mono fun _ _ => Sources.get?_push_of_get?
      · rw [String.toList_ofList, Draft.text_markEnd]
        exact splitOn_text_of_laid rfl hlaid _
      · rw [String.toList_ofList, Draft.text_markEnd]
        exact aligned_iff_of_laid rfl hlaid _

/-- An entry file that begins with an included file which is nothing but
a directive without a line break. -/
def silentSources : Sources :=
  (Sources.empty.add "main.q" "#include \"a\"\nprint 1;").2

/-- The included file. -/
def silentInclude : Resolver := fun _ _ => some ⟨"a", "#define X"⟩

/-- Behind a silent line the origins are not aligned: the one line of the
text was made of the second line of the entry file, and its origin is the
directive in the included file. -/
theorem not_aligned_behind_silent_line :
    ∃ cleaned sources' derived origins,
      Cleaned.ofFile silentSources 0 silentInclude = (.ok cleaned, sources')
        ∧ sources'.get? cleaned.file = some derived
        ∧ derived.origins = some origins
        ∧ derived.text = "print 1;"
        ∧ origins = [.copied 1 1, .copied 0 2]
        ∧ ¬ Aligned derived.text.toList origins
            ((lineWriters (history silentSources 0 silentInclude)
              derived.text.toList (0, 2)).map (·.1)) := by
  have hrun : Cleaned.ofFile silentSources 0 silentInclude =
      (.ok ⟨2, [1], ["X"]⟩,
        (Cleaned.ofFile silentSources 0 silentInclude).2) := by
    refine Prod.ext ?_ rfl
    have hok : (Cleaned.ofFile silentSources 0 silentInclude).1.toOption =
        some ⟨2, [1], ["X"]⟩ := by decide +kernel
    generalize (Cleaned.ofFile silentSources 0 silentInclude).1 = outcome
      at hok ⊢
    cases outcome with
    | ok cleaned =>
        cases hok
        rfl
    | error refusal => cases hok
  obtain ⟨source, derived, origins, hsource, hderived, horigins, -, -,
    haligned⟩ := origins_aligned_iff hrun
  have hsource' : silentSources.get? 0 =
      some ⟨"main.q", "#include \"a\"\nprint 1;", none⟩ := rfl
  have hderived' :
      (Cleaned.ofFile silentSources 0 silentInclude).2.get? 2 =
      some ⟨"main.q (preprocessed)", "print 1;",
        some [.copied 1 1, .copied 0 2]⟩ := by
    decide +kernel
  cases hsource.symm.trans hsource'
  cases hderived.symm.trans hderived'
  cases horigins
  refine ⟨_, _, _, _, hrun, hderived', rfl, rfl, rfl, fun h => ?_⟩
  -- the directive of the included file is silent
  have hsilent := haligned.1 h
    ⟨1, ⟨1, 0, "#define X".toList, false⟩, [], true⟩ (by decide +kernel)
  exact absurd hsilent (by decide +kernel)

end Clean

end Script
