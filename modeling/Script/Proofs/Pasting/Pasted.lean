/-
An include directive takes the text of a file in place of its line.
Cleaning the line that asks for a file, and cleaning the text of that
file where the line stands, leave the same text and the same macros, and
one is refused if the other is; only the nesting of files may set them
apart.

Both runs clean the same lines in front of the include line, and behind
it. In between, one of them cleans a file of its own, with no conditional
open and with one more file around it, and the other one goes on with the
conditionals of the lines in front, which all count. Since the file closes
what it opens, and no more, it does not reach them.
-/
import Script.Proofs.Clean.Alignment
import Script.Proofs.Pasting.Alike

namespace Script

open Clean

/-- Finds files in a table of texts, by the path that is asked for. -/
def Clean.Resolver.ofTable (table : String → Option String) : Resolver :=
  fun _ path => (table path).map (⟨path, ·⟩)

/-- Cleans a text, behind other files: the cleaned text, and the macros
that are left. -/
def Cleaned.texts (sources : Sources) (name text : String)
    (resolver : Resolver) : Except Refusal (String × List String) :=
  let (file, sources) := sources.add name text
  match Cleaned.ofFile sources file resolver with
  | (.ok cleaned, sources) =>
      .ok (sources.textOf cleaned.file, cleaned.macros)
  | (.error refusal, _) => .error refusal

namespace Clean

/-- Cleans a text that is not included, behind other files. -/
def cleanEntry (sources : Sources) (name text : String)
    (resolver : Resolver) : EStateM.Result Refusal State Unit :=
  let (file, sources) := sources.add name text
  cleanFile resolver (maxOpenFiles - 1) [] file (.start sources)

/-- The conditionals that are open behind a text, if its lines can be
cleaned. -/
def openBehind (sources : Sources) (name text : String)
    (resolver : Resolver) : Option (List Conditional) :=
  let (file, sources) := sources.add name text
  match blankComments text.toList with
  | .error _ => none
  | .ok blanked =>
      match (lines blanked).foldlM
          (cleanLine file (spliceInside resolver (maxOpenFiles - 1) [name]))
          [] (.start sources) with
      | .error _ _ => none
      | .ok conditionals _ => some conditionals

/-- A text behind which the lines of another one can be put: it ends where
a line ends, in no comment, and where all open conditionals count. -/
structure Leading (sources : Sources) (name text : String)
    (resolver : Resolver) : Prop where
  closed : Closed text.toList
  blanked : (blankComments text.toList).toOption ≠ none
  active : ∀ cs ∈ openBehind sources name text resolver,
    ∀ c ∈ cs, c.active = true

/-- A text of whole lines, which closes the comments and the conditionals
that it opens. -/
structure Whole (text : String) : Prop where
  closed : Closed text.toList
  balanced : ((blankComments text.toList).toOption.bind
    fun blanked => nestingOf 0 (lines blanked)) = some 0

theorem exists_blanked {text : List Char}
    (h : (blankComments text).toOption ≠ none) :
    ∃ blanked, blankComments text = .ok blanked := by
  cases hblanked : blankComments text with
  | error start => exact absurd (congrArg Except.toOption hblanked) h
  | ok blanked => exact ⟨blanked, rfl⟩

theorem Whole.blanked {text : String} (h : Whole text) :
    (blankComments text.toList).toOption ≠ none := by
  intro hnone
  have hbalanced := h.balanced
  rw [hnone] at hbalanced
  cases hbalanced

/-- What blanking leaves of a whole text. -/
theorem Whole.of_blanked {text : String} {blanked : List Char}
    (h : Whole text) (hblanked : blankComments text.toList = .ok blanked) :
    Closed blanked ∧ nestingOf 0 (lines blanked) = some 0 := by
  have hbalanced := h.balanced
  rw [hblanked] at hbalanced
  exact ⟨(blankComments_append h.closed hblanked []).1, hbalanced⟩

-- ======================================================== line starts

variable {resolver : Resolver} {deeper : Nat} {opened : List String}
  {file : FileId}

/-- Behind an include directive the draft is at the start of a line. -/
theorem atLineStart_of_spliceInside {rest : List Char} {span : Span}
    {s s' : State} (hopened : opened ≠ [])
    (h : spliceInside resolver deeper opened rest span s = .ok () s') :
    s'.draft.atLineStart = true := by
  obtain ⟨run, found, hrun, -, -, h⟩ := includeFile_ok h
  cases deeper with
  | zero => cases hrun
  | succ n =>
      cases hrun
      obtain ⟨-, -, t, -, -, -, rfl⟩ := cleanFile_ok h
      rw [if_neg (by simpa using hopened)]
      exact Draft.atLineStart_endLine _

/-- Behind lines that are broken, as well. -/
theorem atLineStart_of_foldlM {ls : List Line} {cs after : List Conditional}
    {s s' : State} (hopened : opened ≠ [])
    (hbroken : ∀ l ∈ ls, l.broken = true) (hs : s.draft.atLineStart = true)
    (h : ls.foldlM (cleanLine file (spliceInside resolver deeper opened)) cs
      s = .ok after s') : s'.draft.atLineStart = true := by
  induction ls generalizing cs s with
  | nil =>
      obtain ⟨-, rfl⟩ := Action.pure_ok.1 h
      exact hs
  | cons line ls ih =>
      obtain ⟨hline, hls⟩ := List.forall_mem_cons.1 hbroken
      rw [List.foldlM_cons, Action.bind_ok] at h
      obtain ⟨between, t, hfirst, h⟩ := h
      refine ih hls ?_ h
      rcases cleanLine_ok hfirst with
        ⟨rest, span, -, -, hsplice⟩ | ⟨-, ms, rfl, -⟩
      · exact atLineStart_of_spliceInside hopened hsplice
      · rw [hline]
        exact Draft.atLineStart_addLine_true ..

-- ======================================================== include lines

variable {table : String → Option String} {name : String} {f : String}
  {path blanked : List Char}

theorem Resolver.ofTable_eq_some {path text : String}
    (h : table path = some text) (asker : String) :
    Resolver.ofTable table asker path = some ⟨path, text⟩ := by
  unfold Resolver.ofTable
  rw [h]
  rfl

/-- An include directive cleans the file that it finds, unless the file
is open. -/
theorem spliceInside_eq (s : State) (span : Span) (hpath : path ≠ [])
    (htable : table (String.ofList path) = some f)
    (hopen : opened.contains (String.ofList path) = false) :
    spliceInside (.ofTable table) (deeper + 1) opened (quoted path) span s
      = cleanFile (.ofTable table) deeper opened
        (s.opening ⟨String.ofList path, f⟩).1
        (s.opening ⟨String.ofList path, f⟩).2 := by
  unfold spliceInside includeFile
  rw [includePath?_quoted hpath]
  dsimp only
  rw [Resolver.ofTable_eq_some htable]
  dsimp only
  rw [hopen]
  rfl

/-- An include directive that is refused since its file is open. -/
theorem spliceInside_recursive (s : State) (span : Span) (hpath : path ≠ [])
    (htable : table (String.ofList path) = some f)
    (hopen : opened.contains (String.ofList path) = true) :
    spliceInside (.ofTable table) (deeper + 1) opened (quoted path) span s
      = .error ⟨.recursive (String.ofList path), span⟩ s := by
  unfold spliceInside includeFile
  rw [includePath?_quoted hpath]
  dsimp only
  rw [Resolver.ofTable_eq_some htable]
  dsimp only
  rw [hopen]
  rfl

/-- A file that ends at the start of a line, and closes its conditionals,
leaves nothing behind its lines. -/
theorem closeFile_of_atLineStart {s : State} (hopened : opened ≠ [])
    (h : s.draft.atLineStart = true) : closeFile opened [] s = .ok () s := by
  unfold closeFile
  dsimp only
  rw [List.isEmpty_eq_false_iff.2 hopened]
  show EStateM.Result.ok () { s with draft := s.draft.endLine } = _
  rw [Draft.endLine_of_atLineStart h]

/-- A file inside of others leaves what its lines leave around it, where
they are put inside of conditionals that count. -/
theorem cleanFile_matches_lines {base : List Conditional}
    {deeper' : Nat} {file' : FileId} {opened' : List String}
    {source : SourceFile} {ls : List Line} {s t : State}
    (hopened : opened ≠ []) (hopened' : opened' ≠ [])
    (hsource : s.sources.get? file = some source)
    (hwhole : Whole source.text)
    (hblanked : blankComments source.text.toList = .ok blanked)
    (hls : List.Forall₂ Line.Same (lines blanked) ls)
    (hbase : isActive base = true) (hst : s.Alike t)
    (hstart : s.draft.atLineStart = true) :
    Matched True (fun _ cs => cs = base)
      (cleanFile (.ofTable table) deeper opened file s)
      (ls.foldlM (cleanLine file'
        (spliceInside (.ofTable table) deeper' opened')) base t) := by
  obtain ⟨hclosed, hnesting⟩ := hwhole.of_blanked hblanked
  rw [cleanFile_eq, Action.bind_of_ok (openFile_of_ok hsource hblanked),
    ← bind_pure (ls.foldlM _ base)]
  dsimp only
  have hempty : (source.name :: opened).isEmpty = opened'.isEmpty :=
    (List.isEmpty_eq_false_iff.2 hopened').symm
  have hsplice (rest : List Char) (span span' : Span) :
      Matches True Any
        (spliceInside (.ofTable table) deeper (source.name :: opened) rest
          span)
        (spliceInside (.ofTable table) deeper' opened' rest span') :=
    spliceInside_matches (.inr trivial) hempty rfl rest span span'
  have hsome : (nestingOf 0 (lines blanked)).isSome = true := by
    rw [hnesting]
    rfl
  have hfold : Matches True (Follows base (nestingOf 0 (lines blanked)))
      ((lines blanked).foldlM (cleanLine file _) [])
      (ls.foldlM (cleanLine file' _) base) :=
    foldlM_matches hbase hsplice hls ⟨[], rfl, rfl⟩ (.inr hsome)
  refine (hfold hst).bind fun after after' u v hrun hafter huv => ?_
  -- the file has closed all that it opened
  obtain rfl : after = [] := by
    have hlength := hafter.nesting
    rw [hnesting] at hlength
    exact List.length_eq_zero_iff.1 (Option.some.inj hlength).symm
  have hbroken := (linesFrom_append 1 0 hclosed []).1
  rw [closeFile_of_atLineStart hopened
    (atLineStart_of_foldlM (List.cons_ne_nil _ _) hbroken hstart hrun)]
  exact .ok hafter.inside.eq_of_nil huv

/-- An include line leaves what the lines of its file leave. -/
theorem cleanLine_matches_lines {cs cs' : List Conditional} {line : Line}
    {file' : FileId} {ls : List Line} {s t : State} (h : Plain path)
    (hline : line.body = includeWord ++ quoted path)
    (htable : table (String.ofList path) = some f) (hwhole : Whole f)
    (hblanked : blankComments f.toList = .ok blanked)
    (hls : List.Forall₂ Line.Same (lines blanked) ls)
    (hcs : Inside [] cs cs') (hactive : isActive cs = true)
    (hst : s.Alike t) (hstart : s.draft.atLineStart = true) :
    Matched True (Inside [])
      (cleanLine file (spliceInside (.ofTable table) (deeper + 1) [name]) cs
        line s)
      (ls.foldlM (cleanLine file'
        (spliceInside (.ofTable table) (deeper + 1) [name])) cs' t) := by
  rw [cleanLine_paste (pasteOf?_includeLine hline hactive),
    ← bind_pure (ls.foldlM _ cs')]
  refine Matched.bind (A := fun _ after => after = cs') ?_ ?_
  · cases hopen : [name].contains (String.ofList path) with
    | true =>
        rw [spliceInside_recursive s _ h.nonempty htable hopen]
        exact .left trivial (.inr ⟨_, rfl⟩)
    | false =>
        rw [spliceInside_eq s _ h.nonempty htable hopen]
        exact cleanFile_matches_lines (List.cons_ne_nil _ _)
          (List.cons_ne_nil _ _) (Sources.get?_push ..) hwhole hblanked hls
          ((hcs.isActive_eq rfl).trans hactive) ⟨hst.macros, hst.written⟩
          hstart
  · rintro _ _ u v - rfl huv
    exact .ok hcs huv

-- ========================================================= whole texts

/-- A text that is not included is its lines and its end. -/
theorem cleanEntry_of_ok {sources : Sources} {text : String}
    (hblanked : blankComments text.toList = .ok blanked) :
    cleanEntry sources name text resolver
      = ((lines blanked).foldlM (cleanLine (sources.add name text).1
          (spliceInside resolver (maxOpenFiles - 1) [name])) []
        >>= closeFile []) (.start (sources.add name text).2) := by
  unfold cleanEntry
  dsimp only
  rw [cleanFile_eq,
    Action.bind_of_ok (openFile_of_ok (Sources.get?_push ..) hblanked)]

theorem cleanEntry_of_error {sources : Sources} {text : String} {start : Nat}
    (hblanked : blankComments text.toList = .error start) :
    ∃ e s, cleanEntry sources name text resolver = .error e s := by
  unfold cleanEntry
  dsimp only
  rw [cleanFile_eq,
    Action.bind_of_error (openFile_of_error (Sources.get?_push ..) hblanked)]
  exact ⟨_, _, rfl⟩

/-- The conditionals behind the lines of a leading text count, whatever
follows it. -/
theorem Leading.isActive {sources : Sources} {text : String}
    (h : Leading sources name text resolver)
    (hblanked : blankComments text.toList = .ok blanked)
    {cs : List Conditional} {s t : State}
    (hs : (State.start (sources.add name text).2).Alike s)
    (hrun : (lines blanked).foldlM (cleanLine file
      (spliceInside resolver (maxOpenFiles - 1) [name])) [] s = .ok cs t) :
    isActive cs = true := by
  let splice := spliceInside resolver (maxOpenFiles - 1) [name]
  have hfold : Matches False (Inside [])
      ((lines blanked).foldlM (cleanLine (sources.add name text).1 splice) [])
      ((lines blanked).foldlM (cleanLine file splice) []) :=
    foldlM_matches_here (linesFrom_same ..) ⟨[], rfl, rfl⟩
  have hmatched := hfold hs
  rw [hrun] at hmatched
  obtain ⟨cs', t', hrun', hinside⟩ := hmatched.exists_left
  have hopen : openBehind sources name text resolver = some cs' := by
    unfold openBehind
    dsimp only
    rw [hblanked]
    dsimp only
    rw [hrun']
  rw [hinside.isActive_eq rfl]
  cases cs' with
  | nil => rfl
  | cons c tail => exact h.active _ hopen c (List.mem_cons_self ..)

/-- With the same lines in front and behind, an include line and the lines
of its file lead to the same. -/
theorem foldlM_matches_paste {sources : Sources} {a : String}
    {file' : FileId} {front inner : List Char} {ls' : List Line}
    {s t : State} (ha : Leading sources name a (.ofTable table))
    (hfront : blankComments a.toList = .ok front) (hpath : Plain path)
    (htable : table (String.ofList path) = some f) (hf : Whole f)
    (hinner : blankComments f.toList = .ok inner) {line : Line}
    (hline : line.body = includeWord ++ quoted path)
    (hpasted : List.Forall₂ Line.Same (lines inner) ls')
    {rest rest' : List Line} (hrest : List.Forall₂ Line.Same rest rest')
    (hstart : (State.start (sources.add name a).2).Alike s)
    (hst : s.Alike t) :
    Matched True (Inside [])
      ((lines front ++ line :: rest).foldlM (cleanLine file
        (spliceInside (.ofTable table) (maxOpenFiles - 1) [name])) [] s)
      ((lines front ++ (ls' ++ rest')).foldlM (cleanLine file'
        (spliceInside (.ofTable table) (maxOpenFiles - 1) [name])) [] t) := by
  have hbroken : ∀ l ∈ lines front, l.broken = true :=
    (linesFrom_append 1 0 (blankComments_append ha.closed hfront []).1 []).1
  have hsame : List.Forall₂ Line.Same (lines front) (lines front) :=
    linesFrom_same ..
  rw [List.foldlM_append, List.foldlM_append]
  refine (foldlM_matches_here hsame ⟨[], rfl, rfl⟩ hst).bind
    fun cs cs' u v hrun hcs huv => ?_
  have hactive : isActive cs = true := ha.isActive hfront hstart hrun
  have hat : u.draft.atLineStart = true := by
    refine atLineStart_of_foldlM (List.cons_ne_nil _ _) hbroken ?_ hrun
    unfold Draft.atLineStart
    rw [← hstart.written]
    rfl
  rw [List.foldlM_cons, List.foldlM_append]
  exact (cleanLine_matches_lines hpath hline htable hf hinner hpasted hcs
    hactive huv hat).bind fun _ _ _ _ _ hcs huv =>
      foldlM_matches_here hrest hcs huv

/-- The line that includes a path, as a text. -/
def includeText (path : String) : String := "#include \"" ++ path ++ "\"\n"

theorem toList_includeText (path : String) :
    (includeText path).toList = includeLine path.toList := by
  unfold includeText includeLine includeWord quoted
  rw [String.toList_append, String.toList_append]
  simp

/-- With the same text in front and behind, an include line and the text
of its file lead to the same. -/
theorem cleanEntry_matches_paste {sources : Sources} {a path : String}
    (ha : Leading sources name a (.ofTable table)) (hf : Whole f)
    (hpath : Plain path.toList) (htable : table path = some f)
    (b : String) :
    Matched True Any
      (cleanEntry sources name (a ++ includeText path ++ b) (.ofTable table))
      (cleanEntry sources name (a ++ f ++ b) (.ofTable table)) := by
  have htext : (a ++ includeText path ++ b).toList
      = a.toList ++ (includeLine path.toList ++ b.toList) := by
    simp only [String.toList_append, List.append_assoc, toList_includeText]
  have htext' : (a ++ f ++ b).toList
      = a.toList ++ (f.toList ++ b.toList) := by
    simp only [String.toList_append, List.append_assoc]
  have htable' : table (String.ofList path.toList) = some f :=
    String.ofList_toList.symm ▸ htable
  obtain ⟨front, hfront⟩ := exists_blanked ha.blanked
  obtain ⟨inner, hinner⟩ := exists_blanked hf.blanked
  have hasked := blankComments_includeLine hpath
  have haskedClosed := closed_includeLine path.toList
  cases hbehind : blankComments b.toList with
  | error start =>
      obtain ⟨_, hrest⟩ :=
        blankComments_append_of_error haskedClosed hasked hbehind
      obtain ⟨_, hwhole⟩ :=
        blankComments_append_of_error ha.closed hfront hrest
      obtain ⟨_, hrest'⟩ :=
        blankComments_append_of_error hf.closed hinner hbehind
      obtain ⟨_, hwhole'⟩ :=
        blankComments_append_of_error ha.closed hfront hrest'
      obtain ⟨_, _, hrun⟩ := cleanEntry_of_error (htext ▸ hwhole)
      obtain ⟨_, _, hrun'⟩ := cleanEntry_of_error (htext' ▸ hwhole')
      rw [hrun, hrun']
      exact .error
  | ok behind =>
      have hwhole := blankComments_append_of_ok ha.closed hfront
        (blankComments_append_of_ok haskedClosed hasked hbehind)
      have hwhole' := blankComments_append_of_ok ha.closed hfront
        (blankComments_append_of_ok hf.closed hinner hbehind)
      have hfrontClosed := (blankComments_append ha.closed hfront []).1
      obtain ⟨_, _, _, _, hlines⟩ :=
        lines_append hfrontClosed haskedClosed behind
      obtain ⟨_, _, _, _, hlines'⟩ :=
        lines_append hfrontClosed (hf.of_blanked hinner).1 behind
      rw [cleanEntry_of_ok (htext ▸ hwhole),
        cleanEntry_of_ok (htext' ▸ hwhole'), hlines, hlines',
        linesFrom_includeLine _ _ hpath.newline]
      refine Matched.bind (A := Inside []) ?_
        fun _ _ _ _ _ hcs huv => closeFile_matches rfl hcs huv
      exact foldlM_matches_paste ha hfront hpath htable' hf hinner rfl
        (linesFrom_same ..) (linesFrom_same ..) ⟨rfl, rfl⟩ ⟨rfl, rfl⟩

end Clean

namespace Cleaned

variable {sources : Sources} {name text : String} {resolver : Resolver}
  {s : State}

theorem texts_of_ok
    (h : cleanEntry sources name text resolver = .ok () s) :
    texts sources name text resolver
      = .ok (String.ofList s.draft.text, s.macros.map (·.1)) := by
  have hready : Ready (.start (sources.add name text).2) :=
    ⟨rfl, by simp [State.start, Macros.Flat]⟩
  have hsource : s.sources.get? (sources.add name text).1
      = some ⟨name, text, none⟩ :=
    (laid_of_cleanFile hready h).1.sources _ _ (Sources.get?_push ..)
  unfold cleanEntry State.start at h
  unfold texts ofFile
  dsimp only at h ⊢
  rw [h]
  dsimp only
  rw [hsource]
  dsimp only
  unfold Sources.textOf Sources.addDerived
  rw [Sources.get?_push]
  dsimp only [Option.map_some, Option.getD_some]
  rw [Draft.text_markEnd]

theorem texts_of_error {e : Refusal}
    (h : cleanEntry sources name text resolver = .error e s) :
    texts sources name text resolver = .error e := by
  unfold cleanEntry State.start at h
  unfold texts ofFile
  dsimp only at h ⊢
  rw [h]

/-- Texts that are cleaned alike come to the same, unless one of them is
refused for its open files. -/
theorem texts_of_matched {text' : String}
    (h : Matched True Any (cleanEntry sources name text resolver)
      (cleanEntry sources name text' resolver))
    (hnesting : ∀ e, texts sources name text resolver = .error e →
      ¬ e.OfNesting)
    (hnesting' : ∀ e, texts sources name text' resolver = .error e →
      ¬ e.OfNesting)
    (out : String × List String) :
    texts sources name text resolver = .ok out
      ↔ texts sources name text' resolver = .ok out := by
  cases hrun : cleanEntry sources name text resolver with
  | ok u s =>
      cases hrun' : cleanEntry sources name text' resolver with
      | ok u' s' =>
          rw [hrun, hrun'] at h
          obtain ⟨-, hst⟩ := h
          rw [texts_of_ok hrun, texts_of_ok hrun']
          unfold Draft.text
          rw [hst.written, hst.macros]
      | error e' s' =>
          rw [hrun, hrun'] at h
          cases h with
          | right _ h => exact absurd h (hnesting' _ (texts_of_error hrun'))
  | error e s =>
      cases hrun' : cleanEntry sources name text' resolver with
      | ok u' s' =>
          rw [hrun, hrun'] at h
          cases h with
          | left _ h => exact absurd h (hnesting _ (texts_of_error hrun))
      | error e' s' =>
          rw [texts_of_error hrun, texts_of_error hrun']
          exact ⟨nofun, nofun⟩

/-- An include line is as good as the text that it asks for: with one in
place of the other cleaning succeeds or not, and leaves the same text and
the same macros, unless files are nested too deep or in themselves. -/
theorem texts_include {table : String → Option String}
    {a f b path : String} (ha : Leading sources name a (.ofTable table))
    (hf : Whole f) (hpath : Plain path.toList) (htable : table path = some f)
    (hasked : ∀ e, texts sources name (a ++ includeText path ++ b)
      (.ofTable table) = .error e → ¬ e.OfNesting)
    (hpasted : ∀ e, texts sources name (a ++ f ++ b)
      (.ofTable table) = .error e → ¬ e.OfNesting)
    (out : String × List String) :
    texts sources name (a ++ includeText path ++ b) (.ofTable table)
        = .ok out
      ↔ texts sources name (a ++ f ++ b) (.ofTable table) = .ok out :=
  texts_of_matched (cleanEntry_matches_paste ha hf hpath htable b)
    hasked hpasted out

/-- A file that asks for another one in a conditional of its own. -/
def nestedIncludes (path : String) : Option String :=
  if path = "outer" then
    some "#define M N\n#ifdef M\n#include \"inner\"\n#else\n#endif\n"
  else if path = "inner" then some "print N; // in\n"
  else none

/-- It is included where a conditional is open, and in front of a last line
that is not ended. -/
theorem texts_include_nested :
    texts .empty "entry" ("#define N 1\n#ifdef N\n" ++ includeText "outer"
        ++ "print M;\n#endif") (.ofTable nestedIncludes)
      = .ok ("\n\n\n\nprint 1;      \n\n\nprint 1;\n", ["M", "N"]) := by
  let outer := (nestedIncludes "outer").getD ""
  have hleading : Leading .empty "entry" "#define N 1\n#ifdef N\n"
      (.ofTable nestedIncludes) :=
    ⟨.inr (by decide +kernel), by decide +kernel, by decide +kernel⟩
  have hwhole : Whole outer :=
    ⟨.inr (by decide +kernel), by decide +kernel⟩
  have hplain : Plain "outer".toList :=
    ⟨by decide +kernel, by decide +kernel, by decide +kernel,
      by decide +kernel⟩
  have hok : (texts .empty "entry" ("#define N 1\n#ifdef N\n"
      ++ includeText "outer" ++ "print M;\n#endif")
      (.ofTable nestedIncludes)).isOk = true := by decide +kernel
  have hpasted : texts .empty "entry" ("#define N 1\n#ifdef N\n" ++ outer
      ++ "print M;\n#endif") (.ofTable nestedIncludes)
      = .ok ("\n\n\n\nprint 1;      \n\n\nprint 1;\n", ["M", "N"]) := by
    decide +kernel
  refine (texts_include hleading hwhole hplain rfl (fun e h => ?_)
    (fun e h => ?_) _).2 hpasted
  · rw [h] at hok
    cases hok
  · rw [h] at hpasted
    cases hpasted

end Cleaned

end Script
