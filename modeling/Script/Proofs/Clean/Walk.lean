/-
Cleaning as a walk through files. The files that are open form a stack,
the innermost one on top; each step takes a line of that file, and an
include directive puts another file on top of it. Whether a file can be
opened is settled by the stack alone, and nothing else bounds the walk.

Cleaning itself recurs on the number of files that may still be opened.
The two agree: the walk leads, in a number of steps, to what cleaning
yields (`leads_of_cleanFile`). So a walk always ends, whatever the
resolver answers. The induction is on the number of files to be opened,
and inside of it on the lines of a file.
-/
import Mathlib.Logic.Function.Iterate
import Script.Proofs.Clean.Step

namespace Script.Clean

open Script.Action

-- ============================================================ the steps

/-- A file that is open, with the lines still to be read. -/
structure OpenFile where
  file : FileId
  name : String
  conditionals : List Conditional
  rest : List Line

/-- A walk through files, the innermost of the open ones first. -/
inductive Walk where
  | going (opened : List OpenFile) (s : State)
  | ended (r : EStateM.Result Refusal State Unit)

/-- Opens a file. -/
def openFile (file : FileId) : Cleaning OpenFile := do
  let some source := (← get).sources.get? file
    | refuse .unknownFile (.point file 0)
  match blankComments source.text.toList with
  | .ok text => return ⟨file, source.name, [], lines text⟩
  | .error start => refuse .openComment (.between file start source.size)

/-- Ends a file with the conditionals that are still open in it; around
it there are other open files. -/
def closeFile (opened : List String) : List Conditional → Cleaning Unit
  | conditional :: _ => refuse .openConditional conditional.span
  | [] =>
      unless opened.isEmpty do
        modify fun s => { s with draft := s.draft.endLine }

/-- Finds the file that an include directive asks for inside of the open
ones, if it can be opened there, and registers it. -/
def request (resolver : Resolver) (opened : List String)
    (asked : List Char) (span : Span) : Cleaning FileId := do
  let some path := includePath? asked | refuse .includePath span
  if maxOpenFiles ≤ opened.length then refuse .tooDeep span
  let some found := resolver (opened.headD "") path
    | refuse (.unresolved path) span
  if opened.contains found.name then refuse (.recursive path) span
  modifyGet fun s => s.opening found

namespace Walk

/-- Goes on with what an action yields, if it does not end the walk. -/
def next {α : Type} (r : EStateM.Result Refusal State α)
    (goOn : α → State → Walk) : Walk :=
  match r with
  | .ok a s => goOn a s
  | .error e s => .ended (.error e s)

/-- One step of a walk. -/
def step (resolver : Resolver) : Walk → Walk
  | .ended r => .ended r
  | .going [] s => .ended (.ok () s)
  | .going (top :: below) s =>
      match top.rest with
      | [] =>
          next (closeFile (below.map (·.name)) top.conditionals s)
            fun _ => going below
      | line :: rest =>
          match pasteOf? top.conditionals line with
          | some asked =>
              let names := top.name :: below.map (·.name)
              let span := directiveSpan top.file line
              next ((request resolver names asked span >>= openFile) s)
                fun file => going (file :: { top with rest } :: below)
          | none =>
              next (cleanLine top.file (fun _ _ => pure ())
                top.conditionals line s)
                fun conditionals =>
                  going ({ top with conditionals, rest } :: below)

/-- A walk before its first step. -/
def start (sources : Sources) (file : FileId) : Walk :=
  next (openFile file (.start sources)) fun file => going [file]

/-- A walk that comes to another one. -/
def Leads (resolver : Resolver) (w w' : Walk) : Prop :=
  ∃ n, (step resolver)^[n] w = w'

variable {resolver : Resolver} {v w w' : Walk} {α β : Type}

theorem Leads.refl : Leads resolver w w := ⟨0, rfl⟩

theorem Leads.trans (h : Leads resolver v w) (h' : Leads resolver w w') :
    Leads resolver v w' := by
  obtain ⟨m, rfl⟩ := h
  obtain ⟨n, rfl⟩ := h'
  exact ⟨n + m, Function.iterate_add_apply ..⟩

theorem Leads.step (h : Leads resolver (step resolver w) w') :
    Leads resolver w w' :=
  Leads.trans ⟨1, rfl⟩ h

theorem next_bind (x : Cleaning α) (f : α → Cleaning β)
    (goOn : β → State → Walk) (s : State) :
    next ((x >>= f) s) goOn = next (x s) fun a t => next (f a t) goOn := by
  show next (EStateM.bind x f s) goOn = _
  unfold EStateM.bind
  cases x s <;> rfl

/-- Two ways to go on, of which one leads to the other. -/
theorem Leads.next {goOn goOn' : α → State → Walk}
    {r : EStateM.Result Refusal State α}
    (h : ∀ a s, r = .ok a s → Leads resolver (goOn a s) (goOn' a s)) :
    Leads resolver (next r goOn) (next r goOn') := by
  cases r with
  | ok a s => exact h a s rfl
  | error e s => exact .refl

end Walk

-- ============================================================= one line

variable {resolver : Resolver} {file : FileId} {line : Line}
  {conditionals : List Conditional} {asked : List Char}
  {splice splice' : List Char → Span → Cleaning Unit}

/-- On other lines nothing is pasted. -/
theorem cleanLine_of_pasteOf?_eq_none
    (h : pasteOf? conditionals line = none) :
    cleanLine file splice conditionals line
      = cleanLine file splice' conditionals line := by
  unfold pasteOf? at h
  unfold cleanLine
  cases hhash : hashLine? line.body with
  | none => rfl
  | some split =>
      obtain ⟨front, behind⟩ := split
      simp only [hhash] at h ⊢
      cases hdir : Directive.ofText behind with
      | paste rest =>
          simp only [hdir] at h ⊢
          split at h
          case isTrue => cases h
          case isFalse hactive => simp only [hactive, Bool.not_false, if_true]
      | _ => rfl

-- ============================================================= one file

/-- What is known of a file that was opened. -/
theorem openFile_ok {f : OpenFile} {s t : State}
    (h : openFile file s = .ok f t) :
    s = t ∧ ∃ source text, s.sources.get? file = some source
      ∧ blankComments source.text.toList = .ok text
      ∧ f = ⟨file, source.name, [], lines text⟩ := by
  unfold openFile at h
  obtain ⟨_, _, hget, h⟩ := bind_ok.1 h
  obtain ⟨rfl, rfl⟩ := get_ok.1 hget
  cases hsource : s.sources.get? file with
  | none =>
      rw [hsource] at h
      exact (refuse_ok.1 h).elim
  | some source =>
      rw [hsource] at h
      dsimp only at h
      cases htext : blankComments source.text.toList with
      | error start =>
          rw [htext] at h
          exact (refuse_ok.1 h).elim
      | ok text =>
          rw [htext] at h
          obtain ⟨rfl, rfl⟩ := pure_ok.1 h
          exact ⟨rfl, source, text, rfl, htext, rfl⟩

/-- Cleaning a file opens it, cleans its lines, and ends it. -/
theorem cleanFile_eq (deeper : Nat) (opened : List String) :
    cleanFile resolver deeper opened file =
      openFile file >>= fun f =>
        f.rest.foldlM (cleanLine file
          (spliceInside resolver deeper (f.name :: opened))) []
        >>= closeFile opened := by
  unfold cleanFile openFile
  rw [bind_assoc]
  refine congrArg (get >>= ·) (funext fun s => ?_)
  cases s.sources.get? file with
  | none => rfl
  | some source =>
      dsimp only
      cases blankComments source.text.toList with
      | error start => rfl
      | ok text =>
          refine congrArg ((lines text).foldlM (cleanLine file
            (spliceInside resolver deeper (source.name :: opened))) [] >>= ·)
            (funext fun cs => ?_)
          cases cs <;> rfl

/-- Where one more file can be opened, an include directive finds a file
and cleans it. -/
theorem includeFile_eq {opened : List String} {span : Span}
    (h : opened.length < maxOpenFiles) (run : FileId → Cleaning Unit) :
    includeFile resolver opened (some run) asked span =
      request resolver opened asked span >>= run := by
  unfold includeFile request
  cases includePath? asked with
  | none => rfl
  | some path =>
      dsimp only
      rw [if_neg (Nat.not_le_of_lt h)]
      cases resolver (opened.headD "") path with
      | none => rfl
      | some found =>
          dsimp only
          split
          · rfl
          · rfl

/-- Where none can be opened, it ends cleaning. -/
theorem includeFile_none {opened : List String}
    (h : maxOpenFiles ≤ opened.length) (resolver : Resolver)
    (asked : List Char) (span : Span) (s : State) :
    ∃ e, includeFile resolver opened none asked span s = .error e s
      ∧ request resolver opened asked span s = .error e s := by
  unfold includeFile request
  cases includePath? asked with
  | none => exact ⟨_, rfl, rfl⟩
  | some path =>
      dsimp only
      rw [if_pos h]
      exact ⟨_, rfl, rfl⟩

-- ============================================================= the walk

namespace Walk

variable {deeper : Nat} {name : String} {below : List OpenFile}

/-- A step that carries out an include directive. -/
theorem step_paste {rest : List Line} {s : State}
    (h : pasteOf? conditionals line = some asked) :
    step resolver
        (going (⟨file, name, conditionals, line :: rest⟩ :: below) s)
      = next ((request resolver (name :: below.map (·.name)) asked
          (directiveSpan file line) >>= openFile) s)
          fun f => going (f :: ⟨file, name, conditionals, rest⟩ :: below) := by
  simp only [step, h]

/-- A step over any other line. -/
theorem step_line {rest : List Line} {s : State}
    (h : pasteOf? conditionals line = none) :
    step resolver
        (going (⟨file, name, conditionals, line :: rest⟩ :: below) s)
      = next (cleanLine file (fun _ _ => pure ()) conditionals line s)
          fun cs => going (⟨file, name, cs, rest⟩ :: below) := by
  simp only [step, h]

/-- What carrying out include directives comes to, with files inside of
which they stand. -/
def Splices (resolver : Resolver) (deeper : Nat) (inside : List String) :
    Prop :=
  ∀ (opened : List OpenFile) asked span s, opened.map (·.name) = inside →
    Leads resolver
      (next ((request resolver inside asked span >>= openFile) s)
        fun file => going (file :: opened))
      (next (spliceInside resolver deeper inside asked span s)
        fun _ => going opened)

/-- The lines of a file are walked through one by one. -/
theorem leads_of_lines
    (h : Splices resolver deeper (name :: below.map (·.name)))
    (ls : List Line) (cs : List Conditional) (s : State) :
    Leads resolver (going (⟨file, name, cs, ls⟩ :: below) s)
      (next (ls.foldlM (cleanLine file (spliceInside resolver deeper
          (name :: below.map (·.name)))) cs s)
        fun cs => going (⟨file, name, cs, []⟩ :: below)) := by
  induction ls generalizing cs s with
  | nil => exact .refl
  | cons line ls ih =>
      rw [List.foldlM_cons, next_bind]
      refine .step ?_
      cases hpaste : pasteOf? cs line with
      | some asked =>
          rw [step_paste hpaste, cleanLine_paste hpaste,
            next_bind (spliceInside resolver deeper _ asked _)]
          exact (h (⟨file, name, cs, ls⟩ :: below) asked _ s rfl).trans
            (.next fun _ t _ => ih cs t)
      | none =>
          rw [step_line hpaste, cleanLine_of_pasteOf?_eq_none hpaste]
          exact .next fun cs t _ => ih cs t

/-- Cleaning a file is a walk from where it is opened to where it is
closed. -/
theorem leads_of_splices
    (h : ∀ name, Splices resolver deeper (name :: below.map (·.name)))
    (file : FileId) (s : State) :
    Leads resolver
      (next (openFile file s) fun f => going (f :: below))
      (next (cleanFile resolver deeper (below.map (·.name)) file s)
        fun _ => going below) := by
  rw [cleanFile_eq, next_bind]
  refine .next fun f t hopen => ?_
  obtain ⟨rfl, source, text, -, -, rfl⟩ := openFile_ok hopen
  rw [next_bind]
  refine (leads_of_lines (h source.name) (lines text) [] s).trans ?_
  exact .next fun cs t _ => .step .refl

theorem splices_zero {inside : List String}
    (h : maxOpenFiles ≤ inside.length) : Splices resolver 0 inside := by
  intro opened asked span s _
  obtain ⟨e, hinclude, hrequest⟩ :=
    includeFile_none h resolver asked span s
  rw [next_bind, hrequest]
  show Leads resolver _ (next (includeFile resolver inside none asked span s) _)
  rw [hinclude]
  exact .refl

/-- The walk agrees with cleaning, as long as both leave room for as many
files. -/
theorem leads_of_cleanFile (below : List OpenFile)
    (h : below.length + deeper + 1 = maxOpenFiles) (file : FileId)
    (s : State) :
    Leads resolver
      (next (openFile file s) fun f => going (f :: below))
      (next (cleanFile resolver deeper (below.map (·.name)) file s)
        fun _ => going below) := by
  induction deeper generalizing below file s with
  | zero =>
      refine leads_of_splices (fun name => splices_zero ?_) file s
      rw [List.length_cons, List.length_map]
      omega
  | succ n ih =>
      refine leads_of_splices (fun name => ?_) file s
      intro opened asked span s hopened
      have hlength := congrArg List.length hopened
      rw [List.length_map, List.length_cons, List.length_map] at hlength
      show Leads resolver _ (next (includeFile resolver _
        (some (cleanFile resolver n _)) asked span s) _)
      rw [includeFile_eq (by rw [List.length_cons, List.length_map]; omega),
        next_bind, next_bind]
      refine .next fun id t _ => ?_
      rw [← hopened]
      exact ih opened (by omega) id t

end Walk

end Script.Clean
