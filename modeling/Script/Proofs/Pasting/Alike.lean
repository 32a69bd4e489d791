/-
Two cleanings side by side. The lines of one stand elsewhere in the other:
in another file, at another number, inside of other conditionals that
count, with other files open around them. None of that changes what they
leave, or whether they are refused. What the open files may change is
only how deep files nest, and whether one asks for itself; a cleaning
that ends for that reason is told apart (`Refusal.OfNesting`).

The step is one line (`cleanLine_matches`); the runs over lines and over
files are built on it, the latter by induction on the number of files
that may still be opened.
-/
import Script.Proofs.Clean.Walk
import Script.Proofs.Pasting.Texts

namespace Script.Clean

-- ============================================================== results

/-- States with the same macros and the same text written so far. -/
structure State.Alike (s t : State) : Prop where
  macros : s.macros = t.macros
  written : s.draft.reversed = t.draft.reversed

/-- A refusal that is about the files that are open. -/
def Refusal.OfNesting (e : Refusal) : Prop :=
  e.fault = .tooDeep ∨ ∃ path, e.fault = .recursive path

/-- Two results that agree: both are values that a relation holds of, with
states alike, or both are refusals. Where `loose` holds, a refusal about
the open files agrees with everything. -/
inductive Matched {α β : Type} (loose : Prop) (A : α → β → Prop) :
    EStateM.Result Refusal State α → EStateM.Result Refusal State β → Prop
  | ok {a : α} {b : β} {s t : State} (h : A a b) (hst : s.Alike t) :
      Matched loose A (.ok a s) (.ok b t)
  | error {e e' : Refusal} {s t : State} :
      Matched loose A (.error e s) (.error e' t)
  | left {e : Refusal} {s : State} {r : EStateM.Result Refusal State β}
      (hloose : loose) (h : e.OfNesting) : Matched loose A (.error e s) r
  | right {e : Refusal} {t : State} {r : EStateM.Result Refusal State α}
      (hloose : loose) (h : e.OfNesting) : Matched loose A r (.error e t)

/-- Two actions with results that agree, on states alike. -/
def Matches {α β : Type} (loose : Prop) (A : α → β → Prop)
    (x : Cleaning α) (y : Cleaning β) : Prop :=
  ∀ ⦃s t⦄, s.Alike t → Matched loose A (x s) (y t)

/-- Two values with nothing to say of them. -/
def Any {α β : Type} (_ : α) (_ : β) : Prop := True

section Rules

variable {loose : Prop} {α β γ δ : Type} {A : α → β → Prop}
  {B : γ → δ → Prop} {x : Cleaning α} {y : Cleaning β}

theorem Matches.pure {a : α} {b : β} (h : A a b) :
    Matches loose A (pure a) (pure b) :=
  fun _ _ hst => .ok h hst

/-- Two actions in order, of which the first ones are known to agree. -/
theorem Matched.bind {f : α → Cleaning γ} {g : β → Cleaning δ}
    {s t : State} (h : Matched loose A (x s) (y t))
    (hrest : ∀ a b u v, x s = .ok a u → A a b → u.Alike v →
      Matched loose B (f a u) (g b v)) :
    Matched loose B ((x >>= f) s) ((y >>= g) t) := by
  show Matched loose B (EStateM.bind x f s) (EStateM.bind y g t)
  unfold EStateM.bind
  revert h hrest
  generalize x s = r
  generalize y t = r'
  intro h hrest
  cases h with
  | ok hA hst => exact hrest _ _ _ _ rfl hA hst
  | error => exact .error
  | left hloose hnesting => exact .left hloose hnesting
  | right hloose hnesting => exact .right hloose hnesting

theorem Matches.bind {f : α → Cleaning γ} {g : β → Cleaning δ}
    (h : Matches loose A x y)
    (hrest : ∀ a b, A a b → Matches loose B (f a) (g b)) :
    Matches loose B (x >>= f) (y >>= g) :=
  fun _ _ hst => (h hst).bind fun a b _ _ _ hA huv => hrest a b hA huv

theorem Matched.mono {A' : α → β → Prop}
    {r : EStateM.Result Refusal State α}
    {r' : EStateM.Result Refusal State β} (h : Matched loose A r r')
    (hA : ∀ a b, A a b → A' a b) : Matched loose A' r r' := by
  cases h with
  | ok h hst => exact .ok (hA _ _ h) hst
  | error => exact .error
  | left hloose h => exact .left hloose h
  | right hloose h => exact .right hloose h

/-- Where nothing is loose, a value stands on both sides. -/
theorem Matched.exists_left {r : EStateM.Result Refusal State α} {b : β}
    {t : State} (h : Matched False A r (.ok b t)) :
    ∃ a s, r = .ok a s ∧ A a b := by
  cases h with
  | ok h hst => exact ⟨_, _, rfl, h⟩
  | left hloose => exact hloose.elim

theorem Matches.refuse (f f' : Fault) (span span' : Span) :
    Matches loose A (refuse f span) (refuse f' span') :=
  fun _ _ _ => .error

theorem Matches.get : Matches loose State.Alike get get :=
  fun _ _ hst => .ok hst hst

theorem Matches.modify {f g : State → State}
    (h : ∀ s t : State, s.Alike t → (f s).Alike (g t)) :
    Matches loose Any (modify f) (modify g) :=
  fun _ _ hst => .ok trivial (h _ _ hst)

theorem addLine_matches (body : List Char) (broken : Bool)
    (origin origin' : LineOrigin) :
    Matches loose Any (addLine body broken origin)
      (addLine body broken origin') :=
  .modify fun s t hst => ⟨hst.macros, by
    simp only [Draft.addLine, hst.written]⟩

theorem macroName_matches (directive : String) (text : List Char)
    (span span' : Span) :
    Matches loose Eq (macroName directive text span)
      (macroName directive text span') := by
  unfold macroName
  cases macroName? text with
  | none => exact .refuse ..
  | some name => exact .pure rfl

theorem define_matches (rest : List Char) (span span' : Span) :
    Matches loose Any (define rest span) (define rest span') := by
  refine .bind (macroName_matches ..) ?_
  rintro name _ rfl
  refine .modify fun s t hst => ⟨?_, hst.written⟩
  dsimp only
  rw [hst.macros]

end Rules

-- ========================================================= conditionals

/-- What matters of a conditional. -/
def Conditional.flags (c : Conditional) : Bool × Bool × Bool :=
  (c.active, c.around, c.seenElse)

/-- Open conditionals and the same ones, perhaps opened elsewhere, inside
of others. -/
def Inside (base cs cs' : List Conditional) : Prop :=
  ∃ front, cs' = front ++ base
    ∧ front.map Conditional.flags = cs.map Conditional.flags

variable {base cs cs' : List Conditional} {loose : Prop}

/-- Where all conditionals are closed, those around are left. -/
theorem Inside.eq_of_nil (h : Inside base [] cs') : cs' = base := by
  obtain ⟨front, rfl, hflags⟩ := h
  obtain rfl := List.map_eq_nil_iff.1 hflags
  rfl

/-- Inside of conditionals that count, the same lines count. -/
theorem Inside.isActive_eq (h : Inside base cs cs')
    (hbase : isActive base = true) : isActive cs' = isActive cs := by
  cases cs with
  | nil => rwa [h.eq_of_nil]
  | cons c cs =>
      obtain ⟨front, rfl, hflags⟩ := h
      cases front with
      | nil => cases hflags
      | cons d front =>
          injection hflags with hhead
          exact congrArg (·.1) hhead

theorem Inside.openConditional (h : Inside base cs cs')
    (hbase : isActive base = true) (holds : Bool) (span span' : Span) :
    Inside base (openConditional cs holds span)
      (openConditional cs' holds span') := by
  have hactive := h.isActive_eq hbase
  obtain ⟨front, rfl, hflags⟩ := h
  refine ⟨⟨isActive cs && holds, isActive cs, false, span'⟩ :: front, ?_, ?_⟩
  · unfold Clean.openConditional
    rw [hactive]
    rfl
  · unfold Clean.openConditional
    rw [List.map_cons, List.map_cons, hflags]
    rfl

/-- How many conditionals are open behind a line, if each `#else` and each
`#endif` has one of them to go with. -/
def nestingBehind (depth : Nat) (line : Line) : Option Nat :=
  match hashLine? line.body with
  | none => some depth
  | some (_, behind) =>
      match Directive.ofText behind with
      | .ifDefined _ | .ifUndefined _ => some (depth + 1)
      | .otherwise => if depth = 0 then none else some depth
      | .endIf => if depth = 0 then none else some (depth - 1)
      | _ => some depth

/-- What is known behind a line: the conditionals agree, and there are as
many of them as its nesting says. -/
structure Follows (base : List Conditional) (nesting : Option Nat)
    (cs cs' : List Conditional) : Prop where
  inside : Inside base cs cs'
  nesting : nesting = some cs.length

/-- Conditionals that are open on both sides. -/
theorem Inside.cases (h : Inside base cs cs') (houter : cs = [] → base = []) :
    (cs = [] ∧ cs' = []) ∨ ∃ c c' tail tail', cs = c :: tail
      ∧ cs' = c' :: tail' ∧ c.flags = c'.flags ∧ Inside base tail tail' := by
  cases cs with
  | nil => exact .inl ⟨rfl, h.eq_of_nil.trans (houter rfl)⟩
  | cons c tail =>
      obtain ⟨front, rfl, hflags⟩ := h
      cases front with
      | nil => cases hflags
      | cons c' front =>
          injection hflags with hhead htail
          exact .inr ⟨c, c', tail, front ++ base, rfl, rfl, hhead.symm,
            front, rfl, htail⟩

theorem otherBranch_matches (h : Inside base cs cs')
    (houter : cs = [] → base = []) (span span' : Span) :
    Matches loose
      (Follows base (if cs.length = 0 then none else some cs.length))
      (orRefuse span (otherBranch cs)) (orRefuse span' (otherBranch cs')) := by
  obtain ⟨rfl, rfl⟩ | ⟨c, c', tail, tail', rfl, rfl, hflags, hinside⟩ :=
    h.cases houter
  · exact .refuse ..
  · obtain ⟨active, around, seenElse, opener⟩ := c
    obtain ⟨active', around', seenElse', opener'⟩ := c'
    injection hflags with hactive hflags
    injection hflags with haround hseen
    subst hactive haround hseen
    obtain ⟨front, rfl, hfront⟩ := hinside
    cases seenElse with
    | true => exact .refuse ..
    | false =>
        exact .pure ⟨⟨⟨around && !active, around, true, opener'⟩ :: front,
          rfl, congrArg (_ :: ·) hfront⟩, rfl⟩

theorem closeConditional_matches (h : Inside base cs cs')
    (houter : cs = [] → base = []) (span span' : Span) :
    Matches loose
      (Follows base (if cs.length = 0 then none else some (cs.length - 1)))
      (orRefuse span (closeConditional cs))
      (orRefuse span' (closeConditional cs')) := by
  obtain ⟨rfl, rfl⟩ | ⟨c, c', tail, tail', rfl, rfl, -, hinside⟩ :=
    h.cases houter
  · exact .refuse ..
  · exact .pure ⟨hinside, rfl⟩

-- =============================================================== lines

variable {file file' : FileId}
  {splice splice' : List Char → Span → Cleaning Unit}

/-- What a directive does that leaves an empty line. -/
theorem leaveEmpty_matches {nesting : Option Nat} {broken : Bool}
    (origin origin' : LineOrigin) (h : Follows base nesting cs cs') :
    Matches loose (Follows base nesting)
      (do addLine [] broken origin; return cs)
      (do addLine [] broken origin'; return cs') :=
  .bind (addLine_matches ..) fun _ _ _ => .pure h

/-- One line, cleaned in two places. -/
theorem cleanLine_matches (hactive : isActive base = true)
    (hsplice : ∀ rest span span',
      Matches loose Any (splice rest span) (splice' rest span'))
    {line line' : Line} (hline : line.Same line') (h : Inside base cs cs')
    (hnesting : base = [] ∨ (nestingBehind cs.length line).isSome = true) :
    Matches loose (Follows base (nestingBehind cs.length line))
      (cleanLine file splice cs line) (cleanLine file' splice' cs' line') := by
  have hsame := h.isActive_eq hactive
  unfold cleanLine nestingBehind
  unfold nestingBehind at hnesting
  simp only [hsame, ← hline.body, ← hline.broken]
  cases hhash : hashLine? line.body with
  | none =>
      dsimp only
      split
      · refine .bind .get fun s t hst => ?_
        rw [hst.macros]
        exact .bind (addLine_matches ..) fun _ _ _ => .pure ⟨h, rfl⟩
      · exact leaveEmpty_matches _ _ ⟨h, rfl⟩
  | some split =>
      obtain ⟨front, behind⟩ := split
      simp only [hhash] at hnesting ⊢
      cases hdir : Directive.ofText behind with
      | ifDefined rest =>
          simp only [hdir] at hnesting ⊢
          refine .bind (macroName_matches ..) ?_
          rintro name _ rfl
          refine .bind .get fun s t hst => ?_
          rw [hst.macros]
          exact leaveEmpty_matches _ _
            ⟨h.openConditional hactive _ _ _, rfl⟩
      | ifUndefined rest =>
          simp only [hdir] at hnesting ⊢
          refine .bind (macroName_matches ..) ?_
          rintro name _ rfl
          refine .bind .get fun s t hst => ?_
          rw [hst.macros]
          exact leaveEmpty_matches _ _
            ⟨h.openConditional hactive _ _ _, rfl⟩
      | otherwise =>
          simp only [hdir] at hnesting ⊢
          have houter : cs = [] → base = [] := by
            rintro rfl
            simpa using hnesting
          exact .bind (otherBranch_matches h houter ..)
            fun _ _ h => leaveEmpty_matches _ _ h
      | endIf =>
          simp only [hdir] at hnesting ⊢
          have houter : cs = [] → base = [] := by
            rintro rfl
            simpa using hnesting
          exact .bind (closeConditional_matches h houter ..)
            fun _ _ h => leaveEmpty_matches _ _ h
      | define rest =>
          dsimp only
          split
          · exact leaveEmpty_matches _ _ ⟨h, rfl⟩
          · exact .bind (define_matches ..)
              fun _ _ _ => leaveEmpty_matches _ _ ⟨h, rfl⟩
      | undefine rest =>
          dsimp only
          split
          · exact leaveEmpty_matches _ _ ⟨h, rfl⟩
          · refine .bind (macroName_matches ..) ?_
            rintro name _ rfl
            refine .bind (.modify fun s t hst => ⟨?_, hst.written⟩)
              fun _ _ _ => leaveEmpty_matches _ _ ⟨h, rfl⟩
            dsimp only
            rw [hst.macros]
      | paste rest =>
          dsimp only
          split
          · exact leaveEmpty_matches _ _ ⟨h, rfl⟩
          · exact .bind (hsplice ..) fun _ _ _ => .pure ⟨h, rfl⟩
      | unnamed | unknown =>
          dsimp only
          split
          · exact leaveEmpty_matches _ _ ⟨h, rfl⟩
          · exact .refuse ..

/-- How many conditionals are open behind lines. -/
def nestingOf (depth : Nat) (ls : List Line) : Option Nat :=
  ls.foldlM nestingBehind depth

/-- Lines, cleaned in two places. -/
theorem foldlM_matches (hactive : isActive base = true)
    (hsplice : ∀ rest span span',
      Matches loose Any (splice rest span) (splice' rest span'))
    {ls ls' : List Line} (hlines : List.Forall₂ Line.Same ls ls')
    (h : Inside base cs cs')
    (hnesting : base = [] ∨ (nestingOf cs.length ls).isSome = true) :
    Matches loose (Follows base (nestingOf cs.length ls))
      (ls.foldlM (cleanLine file splice) cs)
      (ls'.foldlM (cleanLine file' splice') cs') := by
  induction hlines generalizing cs cs' with
  | nil => exact .pure ⟨h, rfl⟩
  | @cons line line' ls ls' hline hlines ih =>
      rw [List.foldlM_cons, List.foldlM_cons]
      unfold nestingOf at hnesting ⊢
      rw [List.foldlM_cons] at hnesting ⊢
      have hfirst : base = []
          ∨ (nestingBehind cs.length line).isSome = true :=
        hnesting.imp_right fun hsome => by
          cases hn : nestingBehind cs.length line with
          | none => rw [hn] at hsome; cases hsome
          | some n => rfl
      refine .bind (cleanLine_matches hactive hsplice hline h hfirst) ?_
      rintro between between' ⟨hinside, hn⟩
      rw [hn] at hnesting ⊢
      exact ih hinside hnesting

-- =============================================================== files

variable {resolver : Resolver} {opened opened' : List String}

/-- An include directive, carried out in two places. -/
theorem includeFile_matches
    (hresolver : resolver (opened.headD "") = resolver (opened'.headD ""))
    (hopened : opened = opened' ∨ loose)
    {deeper deeper' : Option (FileId → Cleaning Unit)}
    (hdeeper : deeper.isSome = deeper'.isSome ∨ loose)
    (hrun : ∀ run ∈ deeper, ∀ run' ∈ deeper', ∀ found (s t : State), s.Alike t →
      Matched loose Any (run (s.opening found).1 (s.opening found).2)
        (run' (t.opening found).1 (t.opening found).2))
    (rest : List Char) (span span' : Span) :
    Matches loose Any (includeFile resolver opened deeper rest span)
      (includeFile resolver opened' deeper' rest span') := by
  unfold includeFile
  rw [hresolver]
  cases includePath? rest with
  | none => exact .refuse ..
  | some path =>
      dsimp only
      cases deeper with
      | none =>
          cases deeper' with
          | none => exact .refuse ..
          | some run' =>
              exact fun s t _ => .left (hdeeper.resolve_left nofun) (.inl rfl)
      | some run =>
          cases deeper' with
          | none =>
              exact fun s t _ => .right (hdeeper.resolve_left nofun) (.inl rfl)
          | some run' =>
              dsimp only
              cases resolver (opened'.headD "") path with
              | none => exact .refuse ..
              | some found =>
                  dsimp only
                  by_cases hmem : opened.contains found.name = true <;>
                    by_cases hmem' : opened'.contains found.name = true
                  · rw [if_pos hmem, if_pos hmem']
                    exact fun s t _ => .error
                  · rw [if_pos hmem]
                    have hloose : loose :=
                      hopened.resolve_left fun h => hmem' (h ▸ hmem)
                    exact fun s t _ => .left hloose (.inr ⟨path, rfl⟩)
                  · rw [if_pos hmem']
                    have hloose : loose :=
                      hopened.resolve_left fun h => hmem (h ▸ hmem')
                    exact fun s t _ => .right hloose (.inr ⟨path, rfl⟩)
                  · rw [if_neg hmem, if_neg hmem']
                    exact fun s t hst => hrun run rfl run' rfl found s t hst

theorem State.Alike.endLine {s t : State} (h : s.Alike t) :
    State.Alike { s with draft := s.draft.endLine }
      { t with draft := t.draft.endLine } := by
  have hstart : s.draft.atLineStart = t.draft.atLineStart := by
    unfold Draft.atLineStart
    rw [h.written]
  refine ⟨h.macros, ?_⟩
  dsimp only
  unfold Draft.endLine
  rw [hstart]
  split
  · exact h.written
  · exact congrArg ('\n' :: ·) h.written

/-- The end of a file, in two places. -/
theorem closeFile_matches (hempty : opened.isEmpty = opened'.isEmpty)
    (h : Inside [] cs cs') :
    Matches loose Any (closeFile opened cs) (closeFile opened' cs') := by
  obtain ⟨rfl, rfl⟩ | ⟨c, c', tail, tail', rfl, rfl, -⟩ :=
    h.cases fun _ => rfl
  · unfold closeFile
    dsimp only
    rw [hempty]
    split
    · exact .pure trivial
    · exact .modify fun s t hst => hst.endLine
  · exact .refuse ..

/-- Opening a file without open comments. -/
theorem openFile_of_ok {f : SourceFile} {s : State} {text : List Char}
    (hf : s.sources.get? file = some f)
    (htext : blankComments f.text.toList = .ok text) :
    openFile file s = .ok ⟨file, f.name, [], lines text⟩ s := by
  have hget : (get : Cleaning State) s = .ok s s := rfl
  unfold openFile
  rw [Action.bind_of_ok hget, hf]
  dsimp only
  rw [htext]
  rfl

theorem openFile_of_error {f : SourceFile} {s : State} {start : Nat}
    (hf : s.sources.get? file = some f)
    (htext : blankComments f.text.toList = .error start) :
    openFile file s
      = .error ⟨.openComment, .between file start f.size⟩ s := by
  have hget : (get : Cleaning State) s = .ok s s := rfl
  unfold openFile
  rw [Action.bind_of_ok hget, hf]
  dsimp only
  rw [htext]
  rfl

/-- A file cleaned in two places, if include directives inside of it agree
there. -/
theorem cleanFile_matches_of_splice {deeper deeper' : Nat}
    (hsplice : ∀ name rest span span', Matches loose Any
      (spliceInside resolver deeper (name :: opened) rest span)
      (spliceInside resolver deeper' (name :: opened') rest span'))
    (hempty : opened.isEmpty = opened'.isEmpty) {f f' : SourceFile}
    (hname : f.name = f'.name) (htext : f.text = f'.text) {s t : State}
    (hst : s.Alike t) (hf : s.sources.get? file = some f)
    (hf' : t.sources.get? file' = some f') :
    Matched loose Any (cleanFile resolver deeper opened file s)
      (cleanFile resolver deeper' opened' file' t) := by
  rw [cleanFile_eq, cleanFile_eq]
  cases hblank : blankComments f.text.toList with
  | error start =>
      rw [Action.bind_of_error (openFile_of_error hf hblank),
        Action.bind_of_error (openFile_of_error hf' (htext ▸ hblank))]
      exact .error
  | ok text =>
      rw [Action.bind_of_ok (openFile_of_ok hf hblank),
        Action.bind_of_ok (openFile_of_ok hf' (htext ▸ hblank)), hname]
      exact Matches.bind
        (foldlM_matches rfl (hsplice f'.name) (linesFrom_same ..)
          ⟨[], rfl, rfl⟩ (.inl rfl))
        (fun _ _ h => closeFile_matches hempty h.inside) hst

/-- Include directives with files around them that are the same, or that
may differ. -/
theorem spliceInside_matches {deeper deeper' : Nat}
    (hopened : (deeper = deeper' ∧ opened = opened') ∨ loose)
    (hempty : opened.isEmpty = opened'.isEmpty)
    (hresolver : resolver (opened.headD "") = resolver (opened'.headD ""))
    (rest : List Char) (span span' : Span) :
    Matches loose Any (spliceInside resolver deeper opened rest span)
      (spliceInside resolver deeper' opened' rest span') := by
  induction deeper generalizing deeper' opened opened' rest span span' with
  | zero =>
      unfold spliceInside
      refine includeFile_matches hresolver (hopened.imp_left (·.2)) ?_ ?_
        rest span span'
      · cases deeper' with
        | zero => exact .inl rfl
        | succ n' => exact .inr (hopened.resolve_left nofun)
      · rintro _ ⟨⟩
  | succ n ih =>
      unfold spliceInside
      cases deeper' with
      | zero =>
          refine includeFile_matches hresolver (hopened.imp_left (·.2))
            (.inr (hopened.resolve_left nofun)) ?_ rest span span'
          rintro _ - _ ⟨⟩
      | succ n' =>
          refine includeFile_matches hresolver (hopened.imp_left (·.2))
            ?_ ?_ rest span span'
          · exact .inl rfl
          rintro _ ⟨⟩ _ ⟨⟩ found s t hst
          refine cleanFile_matches_of_splice (fun name rest span span' => ?_)
            hempty rfl rfl ⟨hst.macros, hst.written⟩
            (Sources.get?_push ..) (Sources.get?_push ..)
          refine ih (hopened.imp_left ?_) ?_ ?_ rest span span'
          · rintro ⟨hn, rfl⟩
            exact ⟨Nat.succ.inj hn, rfl⟩
          · rfl
          · rfl

/-- The same lines with the same files open around them, cleaned in two
places. -/
theorem foldlM_matches_here {deeper : Nat} {ls ls' : List Line}
    (hlines : List.Forall₂ Line.Same ls ls') (h : Inside [] cs cs') :
    Matches loose (Inside [])
      (ls.foldlM (cleanLine file (spliceInside resolver deeper opened)) cs)
      (ls'.foldlM (cleanLine file'
        (spliceInside resolver deeper opened)) cs') := by
  have hsplice (rest : List Char) (span span' : Span) : Matches loose Any
      (spliceInside resolver deeper opened rest span)
      (spliceInside resolver deeper opened rest span') :=
    spliceInside_matches (.inl ⟨rfl, rfl⟩) rfl rfl rest span span'
  intro s t hst
  exact (foldlM_matches rfl hsplice hlines h (.inl rfl) hst).mono
    fun _ _ h => h.inside

end Script.Clean
