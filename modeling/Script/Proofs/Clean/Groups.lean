/-
Conditionals as a tree. The lines of a file are groups inside of each other:
a directive opens a group, perhaps one divides it into two branches, and one
closes it. What they come to is told by recursion on the tree
(`Groups.mean`): a group takes the branch that the macros select where it
opens, and the other branch and the directives are only line breaks.

Cleaning knows no tree, but a stack of flags. A group that is read in a state
goes back to the conditionals that were open in front of it
(`Passes.group`, `Passes.choice`), so an induction on the tree says what
cleaning makes of all of it. The other way round, lines behind which no
conditional is open can be put together to a tree (`exists_groups`): on the
way there is a tree in front of each directive that still has to come
(`Closes`).
-/
import Script.Proofs.Clean.Directives
import Script.Proofs.Pasting.Alike

namespace Script.Clean

open Script.Action

variable {file : FileId} {splice : List Char → Span → Cleaning Unit}
  {line : Line} {cs cs' : List Conditional} {ms ms' : Macros}

-- ============================================================== the tree

/-- Lines as groups inside of each other. -/
inductive Groups where
  | nil
  | plain (l : Line) (rest : Groups)
  /-- A group with one branch. -/
  | group (opening : Line) (branch : Groups) (closing : Line)
      (rest : Groups)
  /-- A group with two branches. -/
  | choice (opening : Line) (first : Groups) (middle : Line)
      (second : Groups) (closing : Line) (rest : Groups)

namespace Groups

/-- The lines of a tree, in order. -/
def lines : Groups → List Line
  | nil => []
  | plain l rest => l :: rest.lines
  | group opening branch closing rest =>
      opening :: (branch.lines ++ closing :: rest.lines)
  | choice opening first middle second closing rest =>
      opening :: ((first.lines ++ middle :: second.lines)
        ++ closing :: rest.lines)

/-- Each line of a tree stands where its directive belongs. -/
def Valid : Groups → Prop
  | nil => True
  | plain l rest => l.kind = .plain ∧ rest.Valid
  | group opening branch closing rest =>
      opening.kind = .opening ∧ branch.Valid ∧ closing.kind = .closing
        ∧ rest.Valid
  | choice opening first middle second closing rest =>
      opening.kind = .opening ∧ first.Valid ∧ middle.kind = .middle
        ∧ second.Valid ∧ closing.kind = .closing ∧ rest.Valid

instance decidableValid : (g : Groups) → Decidable g.Valid
  | nil => .isTrue trivial
  | plain _ rest =>
      have := decidableValid rest
      inferInstanceAs (Decidable (_ ∧ _))
  | group _ branch _ rest =>
      have := decidableValid branch
      have := decidableValid rest
      inferInstanceAs (Decidable (_ ∧ _ ∧ _ ∧ _))
  | choice _ first _ second _ rest =>
      have := decidableValid first
      have := decidableValid second
      have := decidableValid rest
      inferInstanceAs (Decidable (_ ∧ _ ∧ _ ∧ _ ∧ _ ∧ _))

/-- The lines of a list are those of a tree. -/
structure Lays (g : Groups) (ls : List Line) : Prop where
  valid : g.Valid
  lines : g.lines = ls

/-- The line breaks of a tree: what is left of it where it does not
count. -/
def breaks (g : Groups) : List Char := g.lines.flatMap Line.ending

/-- What is left of a tree that counts, and the macros behind it. A group
takes the branch that the macros in front of it select. -/
def mean : Groups → Macros → List Char × Macros
  | nil, ms => ([], ms)
  | plain l rest, ms =>
      let behind := rest.mean (l.macros ms)
      (l.leaves ms ++ behind.1, behind.2)
  | group opening branch closing rest, ms =>
      let inside :=
        if opening.selects ms then branch.mean ms else (branch.breaks, ms)
      let behind := rest.mean inside.2
      (opening.ending ++ (inside.1 ++ (closing.ending ++ behind.1)),
        behind.2)
  | choice opening first middle second closing rest, ms =>
      let inside :=
        if opening.selects ms then
          let taken := first.mean ms
          (taken.1 ++ (middle.ending ++ second.breaks), taken.2)
        else
          let taken := second.mean ms
          (first.breaks ++ (middle.ending ++ taken.1), taken.2)
      let behind := rest.mean inside.2
      (opening.ending ++ (inside.1 ++ (closing.ending ++ behind.1)),
        behind.2)

/-- Trees that differ in nothing but branches that the macros do not select,
and there in anything but the number of line breaks. -/
inductive Agree : Macros → Groups → Groups → Prop
  | nil {ms : Macros} : Agree ms nil nil
  | plain {ms : Macros} {l : Line} {rest rest' : Groups}
      (h : Agree (l.macros ms) rest rest') :
      Agree ms (plain l rest) (plain l rest')
  | taken {ms : Macros} {opening closing : Line}
      {branch branch' rest rest' : Groups}
      (hselects : opening.selects ms = true)
      (hbranch : Agree ms branch branch')
      (h : Agree (branch.mean ms).2 rest rest') :
      Agree ms (group opening branch closing rest)
        (group opening branch' closing rest')
  | skipped {ms : Macros} {opening closing : Line}
      {branch branch' rest rest' : Groups}
      (hselects : opening.selects ms = false)
      (hbranch : branch.breaks = branch'.breaks) (h : Agree ms rest rest') :
      Agree ms (group opening branch closing rest)
        (group opening branch' closing rest')
  | first {ms : Macros} {opening middle closing : Line}
      {first first' second second' rest rest' : Groups}
      (hselects : opening.selects ms = true)
      (hfirst : Agree ms first first')
      (hsecond : second.breaks = second'.breaks)
      (h : Agree (first.mean ms).2 rest rest') :
      Agree ms (choice opening first middle second closing rest)
        (choice opening first' middle second' closing rest')
  | second {ms : Macros} {opening middle closing : Line}
      {first first' second second' rest rest' : Groups}
      (hselects : opening.selects ms = false)
      (hfirst : first.breaks = first'.breaks)
      (hsecond : Agree ms second second')
      (h : Agree (second.mean ms).2 rest rest') :
      Agree ms (choice opening first middle second closing rest)
        (choice opening first' middle second' closing rest')

/-- What is not selected has no influence. -/
theorem Agree.mean_eq {g g' : Groups} (h : Agree ms g g') :
    g'.mean ms = g.mean ms := by
  induction h with
  | nil => rfl
  | plain _ ih => simp only [mean, ih]
  | taken hselects _ _ ihbranch ih =>
      simp only [mean, hselects, if_true, ihbranch, ih]
  | skipped hselects hbranch _ ih =>
      simp only [mean, hselects, Bool.false_eq_true, if_false, hbranch, ih]
  | first hselects _ hsecond _ ihfirst ih =>
      simp only [mean, hselects, if_true, hsecond, ihfirst, ih]
  | second hselects hfirst _ _ ihsecond ih =>
      simp only [mean, hselects, Bool.false_eq_true, if_false, hfirst,
        ihsecond, ih]

end Groups

-- ================================================================= runs

/-- Whether the directives of lines are in form, as far as the lines are
reached. -/
def linesInForm (file : FileId)
    (splice : List Char → Span → Cleaning Unit) :
    List Conditional → List Line → State → Bool
  | _, [], _ => true
  | cs, line :: ls, s =>
      line.inForm (isActive cs)
        && match cleanLine file splice cs line s with
          | .ok cs' t => linesInForm file splice cs' ls t
          | .error .. => true

theorem linesInForm_cons {ls : List Line} {s : State}
    (h : linesInForm file splice cs (line :: ls) s = true) :
    line.inForm (isActive cs) = true
      ∧ ∀ cs' t, cleanLine file splice cs line s = .ok cs' t →
        linesInForm file splice cs' ls t = true := by
  unfold linesInForm at h
  obtain ⟨hline, hrest⟩ := Bool.and_eq_true_iff.1 h
  refine ⟨hline, fun cs' t hrun => ?_⟩
  rwa [hrun] at hrest

theorem linesInForm_append {ls ls' : List Line} {s : State}
    (h : linesInForm file splice cs (ls ++ ls') s = true) :
    linesInForm file splice cs ls s = true
      ∧ ∀ cs' t, ls.foldlM (cleanLine file splice) cs s = .ok cs' t →
        linesInForm file splice cs' ls' t = true := by
  induction ls generalizing cs s with
  | nil =>
      refine ⟨rfl, fun cs' t hrun => ?_⟩
      obtain ⟨rfl, rfl⟩ := pure_ok.1 hrun
      exact h
  | cons line ls ih =>
      obtain ⟨hline, hrest⟩ := linesInForm_cons h
      constructor
      · unfold linesInForm
        rw [hline, Bool.true_and]
        split
        case h_1 cs' t hrun => exact (ih (hrest cs' t hrun)).1
        case h_2 => rfl
      · intro cs' t hrun
        rw [List.foldlM_cons, bind_ok] at hrun
        obtain ⟨between, u, hfirst, hrun⟩ := hrun
        exact (ih (hrest between u hfirst)).2 cs' t hrun

/-- Lines that lead from some conditionals to others, and from some macros
to others, and leave a text. -/
def Passes (file : FileId) (splice : List Char → Span → Cleaning Unit)
    (ls : List Line) (cs cs' : List Conditional) (ms ms' : Macros)
    (text : List Char) : Prop :=
  ∀ s, s.macros = ms → linesInForm file splice cs ls s = true →
    ∃ t, ls.foldlM (cleanLine file splice) cs s = .ok cs' t
      ∧ t.macros = ms' ∧ t.draft.text = s.draft.text ++ text

namespace Passes

variable {ls ls' : List Line} {cs'' : List Conditional} {ms'' : Macros}
  {text text' : List Char} {opening middle closing : Line}

theorem nil : Passes file splice [] cs cs ms ms [] :=
  fun s hs _ => ⟨s, rfl, hs, (List.append_nil _).symm⟩

theorem append (h : Passes file splice ls cs cs' ms ms' text)
    (h' : Passes file splice ls' cs' cs'' ms' ms'' text') :
    Passes file splice (ls ++ ls') cs cs'' ms ms'' (text ++ text') := by
  intro s hs hform
  obtain ⟨hfront, hback⟩ := linesInForm_append hform
  obtain ⟨t, hrun, ht, htext⟩ := h s hs hfront
  obtain ⟨u, hrun', hu, htext'⟩ := h' t ht (hback cs' t hrun)
  refine ⟨u, ?_, hu, ?_⟩
  · rw [List.foldlM_append, bind_of_ok hrun, hrun']
  · rw [htext', htext, List.append_assoc]

theorem cons (hturn : line.turn file cs ms = .ok cs')
    (h : Passes file splice ls cs' cs''
      (if isActive cs then line.macros ms else ms) ms' text) :
    Passes file splice (line :: ls) cs cs'' ms ms'
      ((if isActive cs then line.leaves ms else line.ending) ++ text) := by
  rintro s rfl hform
  obtain ⟨hline, hrest⟩ := linesInForm_cons hform
  have hcarries : Carries file splice cs line s := cleanLine_of_inForm hline s
  unfold Carries at hcarries
  rw [hturn] at hcarries
  obtain ⟨t, hrun, ht, htext⟩ := hcarries
  obtain ⟨u, hrun', hu, htext'⟩ := h t ht (hrest cs' t hrun)
  refine ⟨u, ?_, hu, ?_⟩
  · rw [List.foldlM_cons, bind_of_ok hrun, hrun']
  · rw [htext', htext, List.append_assoc]

/-- A line that is no directive of a group. -/
theorem plain (hkind : line.kind = .plain)
    (h : Passes file splice ls cs cs'
      (if isActive cs then line.macros ms else ms) ms' text) :
    Passes file splice (line :: ls) cs cs' ms ms'
      ((if isActive cs then line.leaves ms else line.ending) ++ text) :=
  cons (by rw [Line.turn, hkind]) h

/-- A directive of a group. -/
theorem directive (hkind : line.kind ≠ .plain)
    (hturn : line.turn file cs ms = .ok cs')
    (h : Passes file splice ls cs' cs'' ms ms' text) :
    Passes file splice (line :: ls) cs cs'' ms ms' (line.ending ++ text) := by
  have hmacros : (if isActive cs then line.macros ms else ms) = ms := by
    rw [Line.macros_of_kind hkind, ite_self]
  have hleaves : (if isActive cs then line.leaves ms else line.ending)
      = line.ending := by
    rw [Line.leaves_of_kind hkind, ite_self]
  rw [← hmacros] at h
  have hline := cons hturn h
  rwa [hleaves] at hline

/-- What is in a group stands between the directives that open and close
it. -/
theorem group {c : Conditional} (hopening : opening.kind = .opening)
    (hclosing : closing.kind = .closing)
    (hinside : Passes file splice ls (openConditional cs
      (opening.selects ms) (directiveSpan file opening)) (c :: cs) ms ms'
      text)
    (hrest : Passes file splice ls' cs cs ms' ms'' text') :
    Passes file splice (opening :: (ls ++ closing :: ls')) cs cs ms ms''
      (opening.ending ++ (text ++ (closing.ending ++ text'))) := by
  apply directive (by rw [hopening]; decide) (by rw [Line.turn, hopening])
  apply hinside.append
  apply directive (by rw [hclosing]; decide) _ hrest
  rw [Line.turn, hclosing]
  rfl

/-- In front of the directive in the middle and behind it there are the two
branches. -/
theorem choice {c : Conditional} (hmiddle : middle.kind = .middle)
    (hc : c.seenElse = false)
    (hfirst : Passes file splice ls (c :: cs) (c :: cs) ms ms' text)
    (hsecond : Passes file splice ls'
      ({ c with active := c.around && !c.active, seenElse := true } :: cs)
      ({ c with active := c.around && !c.active, seenElse := true } :: cs)
      ms' ms'' text') :
    Passes file splice (ls ++ middle :: ls') (c :: cs)
      ({ c with active := c.around && !c.active, seenElse := true } :: cs)
      ms ms'' (text ++ (middle.ending ++ text')) := by
  apply hfirst.append
  apply directive (by rw [hmiddle]; decide) _ hsecond
  rw [Line.turn, hmiddle]
  show otherBranch (c :: cs) = _
  rw [otherBranch, hc]
  rfl

end Passes

namespace Groups

variable {g : Groups}

theorem breaks_group (opening closing : Line) (branch rest : Groups) :
    (group opening branch closing rest).breaks = opening.ending
      ++ (branch.breaks ++ (closing.ending ++ rest.breaks)) := by
  simp [breaks, lines]

theorem breaks_choice (opening middle closing : Line)
    (first second rest : Groups) :
    (choice opening first middle second closing rest).breaks
      = opening.ending ++ ((first.breaks ++ (middle.ending ++ second.breaks))
        ++ (closing.ending ++ rest.breaks)) := by
  simp [breaks, lines]

/-- Where it does not count, a tree leaves its line breaks. -/
theorem passes_inactive (hvalid : g.Valid) {cs : List Conditional}
    (hactive : isActive cs = false) (ms : Macros) :
    Passes file splice g.lines cs cs ms ms g.breaks := by
  induction g generalizing cs with
  | nil => exact .nil
  | plain l rest ih =>
      obtain ⟨hl, hrest⟩ := hvalid
      have hline : Passes file splice (l :: rest.lines) cs cs ms ms
          ((if isActive cs then l.leaves ms else l.ending)
            ++ rest.breaks) := by
        apply Passes.plain hl
        rw [hactive]
        exact ih hrest hactive
      rw [hactive] at hline
      exact hline
  | group opening branch closing rest ihbranch ih =>
      obtain ⟨ho, hbranch, hc, hrest⟩ := hvalid
      rw [breaks_group]
      refine .group ho hc (ihbranch hbranch ?_) (ih hrest hactive)
      show (isActive cs && opening.selects ms) = false
      rw [hactive, Bool.false_and]
  | choice opening first middle second closing rest ihfirst ihsecond ih =>
      obtain ⟨ho, hfirst, hm, hsecond, hc, hrest⟩ := hvalid
      rw [breaks_choice]
      refine .group ho hc (.choice hm rfl (ihfirst hfirst ?_)
        (ihsecond hsecond ?_)) (ih hrest hactive)
      · show (isActive cs && opening.selects ms) = false
        rw [hactive, Bool.false_and]
      · show (isActive cs && !(isActive cs && opening.selects ms)) = false
        rw [hactive, Bool.false_and]

/-- Where it counts, it leaves what it means. -/
theorem passes_active (hvalid : g.Valid) {cs : List Conditional}
    (hactive : isActive cs = true) (ms : Macros) :
    Passes file splice g.lines cs cs ms (g.mean ms).2 (g.mean ms).1 := by
  induction g generalizing cs ms with
  | nil => exact .nil
  | plain l rest ih =>
      obtain ⟨hl, hrest⟩ := hvalid
      have hline : Passes file splice (l :: rest.lines) cs cs ms
          (rest.mean (l.macros ms)).2
          ((if isActive cs then l.leaves ms else l.ending)
            ++ (rest.mean (l.macros ms)).1) := by
        apply Passes.plain hl
        rw [hactive]
        exact ih hrest hactive (l.macros ms)
      rw [hactive] at hline
      exact hline
  | group opening branch closing rest ihbranch ih =>
      obtain ⟨ho, hbranch, hc, hrest⟩ := hvalid
      unfold mean
      dsimp only
      cases hselects : opening.selects ms with
      | true =>
          refine .group ho hc (ihbranch hbranch ?_ ms) (ih hrest hactive _)
          show (isActive cs && opening.selects ms) = true
          rw [hactive, hselects]
          rfl
      | false =>
          refine .group ho hc (passes_inactive hbranch ?_ ms)
            (ih hrest hactive _)
          show (isActive cs && opening.selects ms) = false
          rw [hselects, Bool.and_false]
  | choice opening first middle second closing rest ihfirst ihsecond ih =>
      obtain ⟨ho, hfirst, hm, hsecond, hc, hrest⟩ := hvalid
      unfold mean
      dsimp only
      cases hselects : opening.selects ms with
      | true =>
          refine .group ho hc (.choice hm rfl (ihfirst hfirst ?_ ms)
            (passes_inactive hsecond ?_ _)) (ih hrest hactive _)
          · show (isActive cs && opening.selects ms) = true
            rw [hactive, hselects]
            rfl
          · show (isActive cs && !(isActive cs && opening.selects ms)) = false
            rw [hactive, hselects]
            rfl
      | false =>
          refine .group ho hc (.choice hm rfl (passes_inactive hfirst ?_ ms)
            (ihsecond hsecond ?_ ms)) (ih hrest hactive _)
          · show (isActive cs && opening.selects ms) = false
            rw [hselects, Bool.and_false]
          · show (isActive cs && !(isActive cs && opening.selects ms)) = true
            rw [hactive, hselects]
            rfl

end Groups

-- ========================================================== well nested

/-- Lines that close the groups that are open in front of them, the
innermost one first; of each group it is told whether the line in its middle
has been seen. What stands in front of a line that goes on with such a group
is a tree. -/
inductive Closes : List Bool → List Line → Prop
  | done {g : Groups} (hg : g.Valid) : Closes [] g.lines
  | middle {g : Groups} {l : Line} {seen : List Bool} {ls : List Line}
      (hg : g.Valid) (hl : l.kind = .middle) (h : Closes (true :: seen) ls) :
      Closes (false :: seen) (g.lines ++ l :: ls)
  | closing {g : Groups} {l : Line} {first : Bool} {seen : List Bool}
      {ls : List Line} (hg : g.Valid) (hl : l.kind = .closing)
      (h : Closes seen ls) : Closes (first :: seen) (g.lines ++ l :: ls)

namespace Closes

variable {seen : List Bool} {ls : List Line}

/-- The tree in front can be another one. -/
theorem front (h : Closes seen ls) :
    ∃ (g : Groups) (back : List Line), g.Valid ∧ ls = g.lines ++ back
      ∧ ∀ g' : Groups, g'.Valid → Closes seen (g'.lines ++ back) := by
  cases h with
  | @done g hg =>
      refine ⟨g, [], hg, (List.append_nil _).symm, fun g' hg' => ?_⟩
      rw [List.append_nil]
      exact .done hg'
  | middle hg hl h => exact ⟨_, _, hg, rfl, fun g' hg' => .middle hg' hl h⟩
  | closing hg hl h =>
      exact ⟨_, _, hg, rfl, fun g' hg' => .closing hg' hl h⟩

theorem plain (hl : line.kind = .plain) (h : Closes seen ls) :
    Closes seen (line :: ls) := by
  obtain ⟨g, back, hg, rfl, hback⟩ := h.front
  exact hback (.plain line g) ⟨hl, hg⟩

/-- A line that opens a group belongs to the next that closes one. -/
theorem opening (hl : line.kind = .opening) (h : Closes (false :: seen) ls) :
    Closes seen (line :: ls) := by
  cases h with
  | @closing branch closing _ _ _ hbranch hclosing h =>
      obtain ⟨g, back, hg, rfl, hback⟩ := h.front
      have hgroup := hback (.group line branch closing g)
        ⟨hl, hbranch, hclosing, hg⟩
      simpa [Groups.lines] using hgroup
  | @middle first middle _ _ hfirst hmiddle h =>
      cases h with
      | @closing second closing _ _ _ hsecond hclosing h =>
          obtain ⟨g, back, hg, rfl, hback⟩ := h.front
          have hchoice := hback
            (.choice line first middle second closing g)
            ⟨hl, hfirst, hmiddle, hsecond, hclosing, hg⟩
          simpa [Groups.lines] using hchoice

end Closes

/-- Lines that are cleaned and leave no conditional open close those that
were open in front of them. -/
theorem closes_of_foldlM {ls : List Line} {s t : State}
    (hform : linesInForm file splice cs ls s = true)
    (h : ls.foldlM (cleanLine file splice) cs s = .ok [] t) :
    Closes (cs.map (·.seenElse)) ls := by
  induction ls generalizing cs s with
  | nil =>
      obtain ⟨rfl, -⟩ := pure_ok.1 h
      exact .done (g := .nil) trivial
  | cons line ls ih =>
      obtain ⟨hline, hrest⟩ := linesInForm_cons hform
      rw [List.foldlM_cons, bind_ok] at h
      obtain ⟨between, u, hrun, h⟩ := h
      have hcloses := ih (hrest between u hrun) h
      have hturn := turn_of_cleanLine hline hrun
      unfold Line.turn at hturn
      split at hturn
      case h_1 hkind =>
          cases hturn
          exact hcloses.plain hkind
      case h_2 hkind =>
          cases hturn
          exact hcloses.opening hkind
      case h_3 hkind =>
          cases cs with
          | nil => cases hturn
          | cons c cs =>
              unfold otherBranch at hturn
              dsimp only at hturn
              split at hturn
              case isTrue => cases hturn
              case isFalse hseen =>
                  cases hturn
                  rw [List.map_cons, Bool.eq_false_iff.2 hseen]
                  exact .middle (g := .nil) trivial hkind hcloses
      case h_4 hkind =>
          cases cs with
          | nil => cases hturn
          | cons c cs =>
              cases hturn
              exact .closing (g := .nil) trivial hkind hcloses

theorem exists_groups {ls : List Line} {s t : State}
    (hform : linesInForm file splice [] ls s = true)
    (h : ls.foldlM (cleanLine file splice) [] s = .ok [] t) :
    ∃ g : Groups, g.Lays ls := by
  have hcloses := closes_of_foldlM hform h
  generalize hseen : List.map _ [] = seen at hcloses
  cases hcloses with
  | @done g hg => exact ⟨g, hg, rfl⟩
  | middle | closing => cases hseen

/-- Where directives are in form, lines are refused for their nesting
only. -/
theorem code_of_foldlM {ls : List Line} {s t : State} {e : Refusal}
    (hform : linesInForm file splice cs ls s = true)
    (h : ls.foldlM (cleanLine file splice) cs s = .error e t) :
    e.fault.code = "E0103" := by
  induction ls generalizing cs s with
  | nil => cases h
  | cons line ls ih =>
      obtain ⟨hline, hrest⟩ := linesInForm_cons hform
      have hcarries : Carries file splice cs line s :=
        cleanLine_of_inForm hline s
      unfold Carries at hcarries
      rw [List.foldlM_cons] at h
      split at hcarries
      case h_1 cs' _ =>
          obtain ⟨u, hrun, -⟩ := hcarries
          rw [bind_of_ok hrun] at h
          exact ih (hrest cs' u hrun) h
      case h_2 f hturn =>
          rw [bind_of_error hcarries] at h
          cases h
          exact Line.code_of_turn hturn

-- ============================================================== a file

section

variable {resolver : Resolver} {deeper : Nat} {opened : List String}
  {source : SourceFile} {text : List Char} {s : State}

/-- Cleaning a file whose comments are blanked goes over its lines. -/
theorem cleanFile_of_lines (hsource : s.sources.get? file = some source)
    (htext : blankComments source.text.toList = .ok text) :
    cleanFile resolver deeper opened file s
      = ((lines text).foldlM (cleanLine file (spliceInside resolver deeper
          (source.name :: opened))) [] >>= closeFile opened) s := by
  rw [cleanFile_eq, bind_of_ok (openFile_of_ok hsource htext)]

/-- A file whose lines are those of a tree comes to what the tree means. -/
theorem cleanFile_of_lays {g : Groups} (hg : g.Lays (lines text))
    (hsource : s.sources.get? file = some source)
    (htext : blankComments source.text.toList = .ok text)
    (hform : linesInForm file (spliceInside resolver deeper
      (source.name :: opened)) [] (lines text) s = true) :
    ∃ t draft, cleanFile resolver deeper opened file s = .ok () t
      ∧ draft.text = s.draft.text ++ (g.mean s.macros).1
      ∧ t.draft = (if opened.isEmpty then draft else draft.endLine)
      ∧ t.macros = (g.mean s.macros).2 := by
  have hpasses : Passes file (spliceInside resolver deeper
      (source.name :: opened)) g.lines [] [] s.macros
      (g.mean s.macros).2 (g.mean s.macros).1 :=
    Groups.passes_active hg.valid rfl s.macros
  rw [hg.lines] at hpasses
  obtain ⟨t, hrun, ht, hdraft⟩ := hpasses s rfl hform
  rw [cleanFile_of_lines hsource htext, bind_of_ok hrun]
  unfold closeFile
  dsimp only
  cases opened.isEmpty with
  | true => exact ⟨_, t.draft, rfl, hdraft, rfl, ht⟩
  | false => exact ⟨_, t.draft, rfl, hdraft, rfl, ht⟩

/-- A file whose lines are those of no tree is refused. -/
theorem cleanFile_of_no_groups (hnone : ¬ ∃ g : Groups, g.Lays (lines text))
    (hsource : s.sources.get? file = some source)
    (htext : blankComments source.text.toList = .ok text)
    (hform : linesInForm file (spliceInside resolver deeper
      (source.name :: opened)) [] (lines text) s = true) :
    ∃ e t, cleanFile resolver deeper opened file s = .error e t
      ∧ e.fault.code = "E0103" := by
  rw [cleanFile_of_lines hsource htext]
  cases hrun : (lines text).foldlM (cleanLine file (spliceInside resolver
      deeper (source.name :: opened))) [] s with
  | error e t => exact ⟨e, t, bind_of_error hrun _, code_of_foldlM hform hrun⟩
  | ok after t =>
      rw [bind_of_ok hrun]
      cases after with
      | nil => exact absurd (exists_groups hform hrun) hnone
      | cons c after => exact ⟨_, t, rfl, rfl⟩

end

/-- Conditionals are what they look like. Where directives are in form and
include nothing, a file is refused for its conditionals if and only if they
are not well nested. If they are, what is left of the file and the macros
behind it are those of its groups, each of which takes the branch that the
macros select; what stands in other branches has no influence. -/
theorem cleanFile_groups (resolver : Resolver) (deeper : Nat)
    (opened : List String) (file : FileId) (s : State)
    {source : SourceFile} {text : List Char}
    (hsource : s.sources.get? file = some source)
    (htext : blankComments source.text.toList = .ok text)
    (hform : linesInForm file (spliceInside resolver deeper
      (source.name :: opened)) [] (lines text) s = true) :
    ((∃ e t, cleanFile resolver deeper opened file s = .error e t
        ∧ e.fault.code = "E0103")
      ↔ ¬ ∃ g : Groups, g.Lays (lines text))
      ∧ ∀ g : Groups, g.Lays (lines text) →
        (∃ t draft, cleanFile resolver deeper opened file s = .ok () t
          ∧ draft.text = s.draft.text ++ (g.mean s.macros).1
          ∧ t.draft = (if opened.isEmpty then draft else draft.endLine)
          ∧ t.macros = (g.mean s.macros).2)
        ∧ ∀ g', Groups.Agree s.macros g g' →
          g'.mean s.macros = g.mean s.macros := by
  refine ⟨⟨?_, fun hnone => cleanFile_of_no_groups hnone hsource htext hform⟩,
    fun g hg => ⟨cleanFile_of_lays hg hsource htext hform, ?_⟩⟩
  · rintro ⟨e, t, hrun, -⟩ ⟨g, hg⟩
    obtain ⟨t', _, hok, -⟩ := cleanFile_of_lays hg hsource htext hform
    rw [hok] at hrun
    cases hrun
  · intro g' hagree
    exact hagree.mean_eq

/-- A group inside of another one: where `A` is defined and `B` is not, only
the definition counts, and it is used behind the groups. -/
theorem cleanFile_groups_nested :
    let sources := (Sources.empty.add "main.q"
      ("#ifdef A\n#ifdef B\n#undef A\n#endif\n#define B A\n#else\n"
        ++ "#bogus\n#endif\nprint B;")).2
    ∃ t, cleanFile (fun _ _ => none) 31 [] 0
        ⟨sources, [("A", ['1'])], .empty, #[]⟩ = .ok () t
      ∧ t.draft.text = "\n\n\n\n\n\n\n\nprint 1;".toList
      ∧ t.macros = [("A", ['1']), ("B", ['1'])] := by
  intro sources
  let g : Groups :=
    .choice ⟨1, 0, "#ifdef A".toList, true⟩
      (.group ⟨2, 9, "#ifdef B".toList, true⟩
        (.plain ⟨3, 18, "#undef A".toList, true⟩ .nil)
        ⟨4, 27, "#endif".toList, true⟩
        (.plain ⟨5, 34, "#define B A".toList, true⟩ .nil))
      ⟨6, 46, "#else".toList, true⟩
      (.plain ⟨7, 52, "#bogus".toList, true⟩ .nil)
      ⟨8, 59, "#endif".toList, true⟩
      (.plain ⟨9, 66, "print B;".toList, false⟩ .nil)
  let text := ("#ifdef A\n#ifdef B\n#undef A\n#endif\n#define B A\n#else\n"
    ++ "#bogus\n#endif\nprint B;").toList
  have hblanked : blankComments text = .ok text := by decide +kernel
  have hg : g.Lays (lines text) := ⟨by decide +kernel, by decide +kernel⟩
  obtain ⟨-, hmean⟩ := cleanFile_groups (fun _ _ => none) 31 [] 0
    ⟨sources, [("A", ['1'])], .empty, #[]⟩ rfl hblanked (by decide +kernel)
  obtain ⟨⟨t, draft, hrun, hdraft, ht, hmacros⟩, -⟩ := hmean g hg
  obtain rfl : t.draft = draft := ht
  have htext : (g.mean [("A", ['1'])]).1
      = "\n\n\n\n\n\n\n\nprint 1;".toList := by decide +kernel
  have htable : (g.mean [("A", ['1'])]).2
      = [("A", ['1']), ("B", ['1'])] := by decide +kernel
  exact ⟨t, hrun, hdraft.trans htext, hmacros.trans htable⟩

end Script.Clean
