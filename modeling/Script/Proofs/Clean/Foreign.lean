/-
Which lines of a history are those of the file that is cleaned. The others
stand in for a line that asked for a file, and no file is read inside of
itself: what is read there has another name than all files that are open
(`spliceInside_foreign`). So the two can be told apart, and of the lines of the
file only the last one can be without a line break.

That is what the end of the text comes down to (`foldlM_ending`). Either
it is at the start of a line, behind lines that had a line break or were read
in another file; or the last line of the file has left what stands there, and
its origin is the last one.
-/
import Script.Proofs.Pasting.Pasted
import Script.Proofs.Places.Cleaned

namespace Script.Clean

open Script.Action

variable {resolver : Resolver} {deeper : Nat} {opened : List String}
  {file : FileId} {splice : List Char → Span → Cleaning Unit}
  {pasted : List Char → State → List Made} {ls : List Line} {line : Line}
  {before between after : List Conditional} {s t s' : State} {made : List Made}
  {m : Made}

-- ======================================================== other files

/-- A line of a file of another name than those of the open ones. -/
def Made.Foreign (opened : List String) (sources : Sources) (m : Made) :
    Prop :=
  ∃ g, sources.get? m.file = some g ∧ g.name ∉ opened

theorem Made.Foreign.mono {sources later : Sources}
    (h : sources.Keeps later) (hm : m.Foreign opened sources) :
    m.Foreign opened later := by
  obtain ⟨g, hg, hname⟩ := hm
  exact ⟨g, h _ _ hg, hname⟩

/-- Lines of a file are read in that file, or in one that was asked for. -/
theorem foldlM_foreign
    (h : ls.foldlM (cleanLine file splice) before s = .ok after s')
    (hsplice : ∀ rest span s s', splice rest span s = .ok () s' →
      s.sources.Keeps s'.sources
        ∧ ∀ m ∈ pasted rest s, m.Foreign opened s'.sources) :
    s.sources.Keeps s'.sources
      ∧ ∀ m ∈ madeLines file splice pasted before ls s,
        (m.file = file ∧ m.line ∈ ls) ∨ m.Foreign opened s'.sources := by
  induction ls generalizing before s with
  | nil =>
      obtain ⟨-, rfl⟩ := pure_ok.1 h
      exact ⟨fun _ _ hf => hf, List.forall_mem_nil _⟩
  | cons line ls ih =>
      rw [List.foldlM_cons, bind_ok] at h
      obtain ⟨between, t, hfirst, hrest⟩ := h
      obtain ⟨hkeeps, hmade⟩ := ih hrest
      simp only [madeLines, hfirst, List.forall_mem_append]
      have hrest : ∀ m ∈ madeLines file splice pasted between ls t,
          (m.file = file ∧ m.line ∈ line :: ls)
            ∨ m.Foreign opened s'.sources :=
        fun m hm => (hmade m hm).imp_left fun hm =>
          ⟨hm.1, List.mem_cons_of_mem _ hm.2⟩
      unfold madeLine
      rcases cleanLine_ok hfirst with
        ⟨rest, span, hpaste, -, hrun⟩ | ⟨hpaste, ms, rfl, -⟩
      · obtain ⟨hfirst, hpasted⟩ := hsplice _ _ _ _ hrun
        rw [hpaste]
        exact ⟨hfirst.trans hkeeps,
          fun m hm => .inr ((hpasted m hm).mono hkeeps), hrest⟩
      · rw [hpaste]
        exact ⟨hkeeps, by simp, hrest⟩

/-- What is read for an include directive is read in files of other names
than those of the open ones. -/
theorem spliceInside_foreign {rest : List Char} {span : Span}
    (h : spliceInside resolver deeper opened rest span s = .ok () s') :
    s.sources.Keeps s'.sources
      ∧ ∀ m ∈ pastedInside resolver deeper opened rest s,
        m.Foreign opened s'.sources := by
  induction deeper generalizing opened rest span s s' with
  | zero =>
      obtain ⟨run, found, hrun, -⟩ := includeFile_ok h
      cases hrun
  | succ n ih =>
      obtain ⟨run, found, hrun, hfound, hnew, hclean⟩ := includeFile_ok h
      cases hrun
      obtain ⟨source, text, t, hsource, htext, hlines, rfl⟩ :=
        cleanFile_ok hclean
      have hpasted : pastedInside resolver (n + 1) opened rest s
          = madeFile resolver n opened (s.opening found).1
            (s.opening found).2 := by
        simp only [pastedInside, pastedLines, hfound]
      have hopened : s.sources.Keeps (s.opening found).2.sources :=
        s.sources.keeps_push _
      obtain rfl : ⟨found.name, found.text, none⟩ = source :=
        Option.some.inj ((Sources.get?_push ..).symm.trans hsource)
      obtain ⟨hkeeps, hmade⟩ := foldlM_foreign hlines fun _ _ _ _ => ih
      have hsources : (if opened.isEmpty then t
          else { t with draft := t.draft.endLine }).sources = t.sources := by
        split <;> rfl
      rw [hpasted, madeFile_eq hsource htext, hsources]
      refine ⟨hopened.trans hkeeps, fun m hm => ?_⟩
      rcases hmade m hm with ⟨hfile, -⟩ | ⟨g, hg, hname⟩
      · exact ⟨_, hkeeps _ _ (hfile ▸ hsource), hnew⟩
      · exact ⟨g, hg, fun hmem => hname (List.mem_cons_of_mem _ hmem)⟩

-- ============================================================= the end

/-- The history of lines and of one more. -/
theorem madeLines_concat
    (h : ls.foldlM (cleanLine file splice) before s = .ok between t)
    (hlast : cleanLine file splice between line t = .ok after s') :
    madeLines file splice pasted before (ls ++ [line]) s
      = madeLines file splice pasted before ls s
        ++ madeLine file pasted between line t := by
  induction ls generalizing before s with
  | nil =>
      obtain ⟨rfl, rfl⟩ := pure_ok.1 h
      simp [madeLines, hlast]
  | cons l ls ih =>
      rw [List.foldlM_cons, bind_ok] at h
      obtain ⟨next, u, hfirst, hrest⟩ := h
      simp only [List.cons_append, madeLines, hfirst, ih hrest,
        List.append_assoc]

/-- A line of a history that is not the last one of the file without a line
break: it has one, or it was read in another file. -/
def Made.Inside (file : FileId) (ls : List Line) (opened : List String)
    (sources : Sources) (m : Made) : Prop :=
  (m.file = file ∧ m.line ∈ ls ∧ m.line.broken = true)
    ∨ m.Foreign opened sources

theorem inside_of_broken (hbroken : ∀ l ∈ ls, l.broken = true)
    (h : ls.foldlM (cleanLine file (spliceInside resolver deeper opened))
      before s = .ok after s') :
    ∀ m ∈ madeLines file (spliceInside resolver deeper opened)
      (pastedInside resolver deeper opened) before ls s,
      m.Inside file ls opened s'.sources := by
  intro m hm
  rcases (foldlM_foreign h fun _ _ _ _ => spliceInside_foreign).2 m hm with
    ⟨hfile, hline⟩ | hforeign
  · exact .inl ⟨hfile, hline, hbroken _ hline⟩
  · exact .inr hforeign

theorem Made.Inside.mono {sources later : Sources} {more : List Line}
    (h : sources.Keeps later) (hls : ls ⊆ more)
    (hm : m.Inside file ls opened sources) :
    m.Inside file more opened later :=
  hm.imp (fun hm => ⟨hm.1, hls hm.2.1, hm.2.2⟩) (·.mono h)

/-- How the lines of a file end: at the start of a line of the draft, or with
a line that was laid there and has no line break. -/
theorem foldlM_ending (hopened : opened ≠ [])
    (hs : s.draft.atLineStart = true)
    (hbroken : ∀ l ∈ ls.dropLast, l.broken = true)
    (h : ls.foldlM (cleanLine file (spliceInside resolver deeper opened))
      before s = .ok after s') :
    let made := madeLines file (spliceInside resolver deeper opened)
      (pastedInside resolver deeper opened) before ls s
    (s'.draft.atLineStart = true
        ∧ ∀ m ∈ made, m.Inside file ls opened s'.sources)
      ∨ ∃ earlier m, ∃ d : Draft, made = earlier ++ [m]
        ∧ (∀ m' ∈ earlier, m'.Inside file ls opened s'.sources)
        ∧ m.file = file ∧ m.line ∈ ls ∧ m.line.broken = false
        ∧ d.atLineStart = true
        ∧ s'.draft = d.addLine m.text false m.origin := by
  by_cases hall : ∀ l ∈ ls, l.broken = true
  · exact .inl ⟨atLineStart_of_foldlM hopened hall hs h,
      inside_of_broken hall h⟩
  rcases List.eq_nil_or_concat ls with rfl | ⟨front, line, rfl⟩
  · exact absurd (List.forall_mem_nil _) hall
  rw [List.concat_eq_append] at *
  rw [List.dropLast_concat] at hbroken
  have hline : line.broken = false := by
    by_contra hline
    refine hall (List.forall_mem_append.2 ⟨hbroken, ?_⟩)
    simpa using hline
  rw [List.foldlM_append, bind_ok] at h
  obtain ⟨between, t, hfront, hlast⟩ := h
  obtain ⟨hkeeps, -⟩ :=
    foldlM_foreign hlast fun _ _ _ _ => spliceInside_foreign
  have hinside := fun m hm => (inside_of_broken hbroken hfront m hm).mono hkeeps
    (List.subset_append_left front [line])
  have ht := atLineStart_of_foldlM hopened hbroken hs hfront
  rw [List.foldlM_cons, bind_ok] at hlast
  obtain ⟨_, _, hlast, hnil⟩ := hlast
  obtain ⟨rfl, rfl⟩ := pure_ok.1 hnil
  dsimp only
  rw [madeLines_concat hfront hlast]
  unfold madeLine
  rcases cleanLine_ok hlast with
    ⟨rest, span, hpaste, -, hrun⟩ | ⟨hpaste, ms, rfl, -⟩
  · rw [hpaste]
    refine .inl ⟨atLineStart_of_spliceInside hopened hrun,
      List.forall_mem_append.2 ⟨hinside, fun m hm => .inr ?_⟩⟩
    exact (spliceInside_foreign hrun).2 m hm
  · rw [hpaste]
    exact .inr ⟨_, _, t.draft, rfl, hinside, rfl, by simp, hline, ht,
      by rw [hline]⟩

end Script.Clean
