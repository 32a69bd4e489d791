/-
One line of a cleaning. A line that is finished either was replaced by a
file or laid exactly one line, whatever its directive was; that is all
the later files need to know about directives. No step brings a line
break into the inside of a line: bodies of macros come from lines, and
lines end where a break is.
-/
import Script.Proofs.Action
import Script.Proofs.Clean.History

namespace Script.Clean

open Script.Action

-- ================================================= lines of one text

/-- A line holds no line break, and only the last one of a text can be
without the break that ends it. -/
theorem linesFrom_shape (number start : Nat) {body : List Char}
    (hbody : '\n' ∉ body) (text : List Char) :
    (∀ l ∈ linesFrom number start body text, '\n' ∉ l.body)
      ∧ ∀ l ∈ (linesFrom number start body text).dropLast,
          l.broken = true := by
  induction text generalizing number start body with
  | nil =>
      unfold linesFrom
      split
      · simp
      · simpa using hbody
  | cons c cs ih =>
      unfold linesFrom
      split
      case isTrue hc =>
        obtain ⟨hplain, hbroken⟩ :=
          ih (number + 1) (start + Text.byteLength body + 1)
            (List.not_mem_nil)
        constructor
        · intro l hl
          rcases List.mem_cons.1 hl with rfl | hl
          · simpa using hbody
          · exact hplain l hl
        · intro l hl
          cases hls : linesFrom (number + 1)
              (start + Text.byteLength body + 1) [] cs with
          | nil => simp [hls] at hl
          | cons l' ls =>
              rw [hls, List.dropLast_cons_cons] at hl
              rcases List.mem_cons.1 hl with rfl | hl
              · rfl
              · exact hbroken l (by rwa [hls])
      case isFalse hc =>
        exact ih number start (by
          intro hmem
          rcases List.mem_cons.1 hmem with h | h
          · exact hc h.symm
          · exact hbody h)

/-- No line of a text holds a line break. -/
theorem newline_not_mem_of_mem_lines {text : List Char} {l : Line}
    (hl : l ∈ lines text) : '\n' ∉ l.body :=
  (linesFrom_shape 1 0 List.not_mem_nil text).1 l hl

/-- Every line of a text but the last one ends with a line break. -/
theorem broken_of_mem_dropLast_lines {text : List Char} {l : Line}
    (hl : l ∈ (lines text).dropLast) : l.broken = true :=
  (linesFrom_shape 1 0 List.not_mem_nil text).2 l hl

-- ============================================ line breaks and macros

/-- Bodies of macros that hold no line break. -/
def Macros.Flat (ms : Macros) : Prop := ∀ m ∈ ms, '\n' ∉ m.2

theorem stringTail_subset (cs : List Char) : stringTail cs ⊆ cs := by
  fun_induction stringTail cs <;> grind

theorem pieceTail_subset (c : Char) (cs : List Char) :
    pieceTail c cs ⊆ cs := by
  unfold pieceTail
  split
  · exact stringTail_subset cs
  · split
    · exact List.takeWhile_subset _
    · split
      · exact List.takeWhile_subset _
      · simp

/-- The characters of a line's pieces are those of the line. -/
theorem subset_of_mem_pieces {cs p : List Char} (hp : p ∈ pieces cs) :
    p ⊆ cs := by
  fun_induction pieces cs with
  | case1 => simp at hp
  | case2 c cs tail ih =>
      rcases List.mem_cons.1 hp with rfl | hp
      · exact List.cons_subset_cons c (pieceTail_subset c cs)
      · intro x hx
        exact List.mem_cons_of_mem c (List.mem_of_mem_drop (ih hp hx))

/-- What stands for a word is the body of a macro. -/
theorem mem_of_replacement? {ms : Macros} {p r : List Char}
    (h : ms.replacement? p = some r) : ∃ name, (name, r) ∈ ms := by
  unfold Macros.replacement? at h
  split at h
  · obtain ⟨front, back, hms, -⟩ := List.lookup_eq_some_iff.1 h
    exact ⟨String.ofList p, by rw [hms]; simp⟩
  · cases h

/-- Replacing macros brings no line break into a line. -/
theorem newline_not_mem_expand {ms : Macros} {line : List Char}
    (hms : ms.Flat) (hline : '\n' ∉ line) :
    '\n' ∉ (expand ms line).text := by
  have hpieces (ps : List (List Char)) (hps : ∀ p ∈ ps, '\n' ∉ p)
      (derived origin : Nat) :
      '\n' ∉ (expandPieces ms derived origin ps).text := by
    induction ps generalizing derived origin with
    | nil => simp [expandPieces]
    | cons p ps ih =>
        have hrest := ih fun q hq => hps q (List.mem_cons_of_mem p hq)
        unfold expandPieces
        dsimp only
        split
        case h_1 =>
          intro hmem
          rcases List.mem_append.1 hmem with h | h
          · exact hps p (List.mem_cons_self ..) h
          · exact hrest _ _ h
        case h_2 r hr =>
          obtain ⟨name, hr⟩ := mem_of_replacement? hr
          intro hmem
          rcases List.mem_append.1 hmem with h | h
          · exact hms _ hr h
          · exact hrest _ _ h
  unfold expand
  split
  · exact hline
  · exact hpieces _
      (fun p hp hmem => hline (subset_of_mem_pieces hp hmem)) 0 0

theorem Macros.Flat.define {ms : Macros} (hms : ms.Flat) {name : String}
    {body : List Char} (hbody : '\n' ∉ body) :
    (Macros.define name body ms).Flat := by
  induction ms with
  | nil => simpa [Macros.define, Macros.Flat] using hbody
  | cons m ms ih =>
      obtain ⟨hm, hms⟩ := List.forall_mem_cons.1 hms
      unfold Macros.define
      split
      · exact List.forall_mem_cons.2
          ⟨hbody, List.forall_mem_cons.2 ⟨hm, hms⟩⟩
      · split
        · exact List.forall_mem_cons.2 ⟨hbody, hms⟩
        · exact List.forall_mem_cons.2 ⟨hm, ih hms⟩

theorem Macros.Flat.undefine {ms : Macros} (hms : ms.Flat)
    (name : String) : (ms.undefine name).Flat :=
  fun m hm => hms m (List.mem_filter.1 hm).1

-- ========================================================= directives

theorem trimEnd_subset (cs : List Char) : Text.trimEnd cs ⊆ cs := by
  intro x hx
  have := List.dropWhile_subset _ (List.mem_reverse.1 hx)
  exact List.mem_reverse.1 this

theorem trim_subset (cs : List Char) : Text.trim cs ⊆ cs :=
  fun _ hx => List.dropWhile_subset _ (trimEnd_subset _ hx)

theorem firstWord_snd_subset (cs : List Char) :
    (Text.firstWord cs).2 ⊆ cs :=
  fun _ hx => List.dropWhile_subset _ (trim_subset _ hx)

theorem hashLine?_subset {line front behind : List Char}
    (h : hashLine? line = some (front, behind)) : behind ⊆ line := by
  unfold hashLine? at h
  split at h
  case h_1 behind' htrim =>
    cases h
    intro x hx
    have : x ∈ Text.trimStart line := by
      rw [htrim]
      exact List.mem_cons_of_mem _ hx
    exact List.dropWhile_subset _ this
  case h_2 => cases h

/-- What a definition defines stands behind its hash sign. -/
theorem define_rest_subset {behind rest : List Char}
    (h : Directive.ofText behind = .define rest) : rest ⊆ behind := by
  have hrest : (Text.firstWord (Text.trim behind)).2 = rest := by
    unfold Directive.ofText at h
    dsimp only at h
    split at h <;> first | exact Directive.define.inj h | cases h
  rw [← hrest]
  exact fun x hx => trim_subset _ (firstWord_snd_subset _ hx)

-- ============================================================ actions

theorem addLine_ok {body : List Char} {broken : Bool} {origin : LineOrigin}
    {u : Unit} {s s' : State} :
    addLine body broken origin s = .ok u s' ↔
      { s with draft := s.draft.addLine body broken origin } = s' :=
  modify_ok

theorem refuse_ok {α : Type} {f : Fault} {span : Span} {a : α}
    {s s' : State} : (refuse f span : Cleaning α) s = .ok a s' ↔ False :=
  throw_ok

theorem orRefuse_ok {α : Type} {span : Span} {r : Except Fault α} {a : α}
    {s s' : State} :
    orRefuse span r s = .ok a s' ↔ r = .ok a ∧ s = s' := by
  cases r with
  | ok b => simp [orRefuse, pure_ok]
  | error f => simp [orRefuse, refuse_ok]

theorem macroName_ok {directive : String} {text : List Char} {span : Span}
    {name : String} {s s' : State} :
    macroName directive text span s = .ok name s' ↔
      macroName? text = some name ∧ s = s' := by
  unfold macroName
  cases macroName? text with
  | some n => simp [pure_ok]
  | none => simp [refuse_ok]

/-- A definition changes only the macros, and keeps line breaks out of
them. -/
theorem define_ok {rest : List Char} {span : Span} {u : Unit}
    {s s' : State} (h : define rest span s = .ok u s') :
    ∃ ms, s' = { s with macros := ms }
      ∧ ('\n' ∉ rest → s.macros.Flat → ms.Flat) := by
  unfold define at h
  simp only [bind_ok, macroName_ok, modify_ok] at h
  obtain ⟨name, t, ⟨-, rfl⟩, rfl⟩ := h
  refine ⟨_, rfl, fun hrest hms => hms.define ?_⟩
  exact newline_not_mem_expand hms
    fun hmem => hrest (firstWord_snd_subset rest hmem)

-- =========================================================== one line

/-- The origin that a source line leaves: where the pieces of what is left
of it come from, and just the line where nothing was replaced. -/
def Made.origin (m : Made) : LineOrigin :=
  ⟨m.file, m.line.number,
    if m.active && (hashLine? m.line.body).isNone then
      (expand m.macros m.line.body).shifts
    else []⟩

/-- Where the directive of a line stands. -/
def directiveSpan (file : FileId) (line : Line) : Span :=
  .between file
    (line.start + Text.byteLength (line.body.takeWhile Text.isBlank))
    (line.start + Text.byteLength (Text.trimEnd line.body))

section Line

variable {file : FileId} {splice : List Char → Span → Cleaning Unit}
  {before after : List Conditional} {line : Line} {s s' : State}

theorem hashLine?_fst {body front behind : List Char}
    (h : hashLine? body = some (front, behind)) :
    front = body.takeWhile Text.isBlank := by
  unfold hashLine? at h
  split at h
  · cases h
    rfl
  · cases h

/-- An include directive that counts is carried out. -/
theorem cleanLine_paste {rest : List Char}
    (h : pasteOf? before line = some rest) :
    cleanLine file splice before line = do
      splice rest (directiveSpan file line)
      return before := by
  unfold pasteOf? at h
  split at h
  case h_2 => cases h
  case h_1 front behind hhash =>
      split at h
      case h_2 => cases h
      case h_1 rest hdir =>
          split at h
          case isFalse => cases h
          case isTrue hactive =>
              cases h
              unfold cleanLine directiveSpan
              simp only [hhash, hdir, hactive, hashLine?_fst hhash,
                Bool.not_true, Bool.false_eq_true, if_false]

/-- What a line does that leaves an empty one. It can change the macros,
and keeps line breaks out of them. -/
def LeavesEmpty (file : FileId) (line : Line) (s s' : State) : Prop :=
  ∃ ms, s' = { s with
        macros := ms
        draft := s.draft.addLine [] line.broken (.copied file line.number) }
    ∧ ('\n' ∉ line.body → s.macros.Flat → ms.Flat)

theorem LeavesEmpty.same_macros : LeavesEmpty file line s { s with
    draft := s.draft.addLine [] line.broken
      (.copied file line.number) } :=
  ⟨s.macros, rfl, fun _ hms => hms⟩

theorem leaveEmpty_ok {cs : List Conditional}
    (h : (do
      addLine [] line.broken (.copied file line.number)
      return cs : Cleaning (List Conditional)) s = .ok after s') :
    s' = { s with
      draft := s.draft.addLine [] line.broken
        (.copied file line.number) } := by
  obtain ⟨u, t, hadd, h⟩ := bind_ok.1 h
  obtain rfl := addLine_ok.1 hadd
  exact (pure_ok.1 h).2.symm

/-- A finished directive that pastes nothing leaves an empty line. -/
theorem directive_ok {front behind : List Char}
    (hhash : hashLine? line.body = some (front, behind))
    (hpaste : pasteOf? before line = none)
    (h : cleanLine file splice before line s = .ok after s') :
    LeavesEmpty file line s s' := by
  unfold cleanLine at h
  simp only [hhash] at h
  cases hdir : Directive.ofText behind with
  | ifDefined rest | ifUndefined rest =>
      simp only [hdir] at h
      obtain ⟨name, t, hname, h⟩ := bind_ok.1 h
      obtain ⟨-, rfl⟩ := macroName_ok.1 hname
      obtain ⟨u, t', hget, h⟩ := bind_ok.1 h
      obtain ⟨rfl, rfl⟩ := get_ok.1 hget
      obtain rfl := leaveEmpty_ok h
      exact .same_macros
  | otherwise | endIf =>
      simp only [hdir] at h
      obtain ⟨cs, t, hchange, h⟩ := bind_ok.1 h
      obtain ⟨-, rfl⟩ := orRefuse_ok.1 hchange
      obtain rfl := leaveEmpty_ok h
      exact .same_macros
  | define rest =>
      simp only [hdir] at h
      split at h
      case isTrue =>
        obtain rfl := leaveEmpty_ok h
        exact .same_macros
      case isFalse =>
        obtain ⟨u, t, hdefine, h⟩ := bind_ok.1 h
        obtain ⟨ms, rfl, hms⟩ := define_ok hdefine
        obtain rfl := leaveEmpty_ok h
        refine ⟨ms, rfl, fun hline => hms fun hmem => hline ?_⟩
        exact hashLine?_subset hhash (define_rest_subset hdir hmem)
  | undefine rest =>
      simp only [hdir] at h
      split at h
      case isTrue =>
        obtain rfl := leaveEmpty_ok h
        exact .same_macros
      case isFalse =>
        obtain ⟨name, t, hname, h⟩ := bind_ok.1 h
        obtain ⟨-, rfl⟩ := macroName_ok.1 hname
        obtain ⟨u, t', hundefine, h⟩ := bind_ok.1 h
        obtain rfl := modify_ok.1 hundefine
        obtain rfl := leaveEmpty_ok h
        exact ⟨_, rfl, fun _ hms => hms.undefine name⟩
  | paste rest =>
      have hactive : isActive before = false := by
        simpa [pasteOf?, hhash, hdir] using hpaste
      simp only [hdir, hactive, Bool.not_false, if_true] at h
      obtain rfl := leaveEmpty_ok h
      exact .same_macros
  | unnamed | unknown name =>
      simp only [hdir] at h
      split at h
      case isTrue =>
        obtain rfl := leaveEmpty_ok h
        exact .same_macros
      case isFalse => exact (refuse_ok.1 h).elim

/-- A line without a hash sign at its front is laid from what is left of
it. -/
theorem plainLine_ok (hhash : hashLine? line.body = none)
    (h : cleanLine file splice before line s = .ok after s') :
    s' = { s with
      draft := s.draft.addLine
        (Made.text ⟨file, line, s.macros, isActive before⟩) line.broken
        (Made.origin ⟨file, line, s.macros, isActive before⟩) } := by
  unfold cleanLine at h
  simp only [hhash] at h
  split at h
  case isTrue hactive =>
    simp only [bind_ok, get_ok, addLine_ok, pure_ok] at h
    obtain ⟨_, _, ⟨rfl, rfl⟩, _, _, rfl, _, rfl⟩ := h
    simp [Made.text, Made.origin, hhash, hactive, LineOrigin.copied]
  case isFalse hactive =>
    simp only [bind_ok, addLine_ok, pure_ok] at h
    obtain ⟨_, _, rfl, _, rfl⟩ := h
    simp [Made.text, Made.origin, hactive, LineOrigin.copied]

/-- What a finished line was: an include directive, or a line that was
laid from what it leaves. -/
theorem cleanLine_ok
    (h : cleanLine file splice before line s = .ok after s') :
    (∃ rest span, pasteOf? before line = some rest ∧ after = before
        ∧ splice rest span s = .ok () s')
      ∨ pasteOf? before line = none
        ∧ ∃ ms, s' = { s with
              macros := ms
              draft := s.draft.addLine
                (Made.text ⟨file, line, s.macros, isActive before⟩)
                line.broken
                (Made.origin ⟨file, line, s.macros, isActive before⟩) }
          ∧ ('\n' ∉ line.body → s.macros.Flat → ms.Flat) := by
  cases hpaste : pasteOf? before line with
  | some rest =>
      rw [cleanLine_paste hpaste] at h
      obtain ⟨_, _, hsplice, hafter⟩ := bind_ok.1 h
      obtain ⟨rfl, rfl⟩ := pure_ok.1 hafter
      exact .inl ⟨rest, _, rfl, rfl, hsplice⟩
  | none =>
      refine .inr ⟨rfl, ?_⟩
      cases hhash : hashLine? line.body with
      | none =>
          exact ⟨s.macros, plainLine_ok hhash h, fun _ hms => hms⟩
      | some parts =>
          obtain ⟨ms, rfl, hms⟩ := directive_ok hhash hpaste h
          refine ⟨ms, ?_, hms⟩
          simp [Made.text, Made.origin, hhash, LineOrigin.copied]

end Line

/-- A finished include directive found a file that was not open, and was
finished by cleaning it. -/
theorem includeFile_ok {resolver : Resolver} {opened : List String}
    {deeper : Option (FileId → Cleaning Unit)} {rest : List Char}
    {span : Span} {u : Unit} {s s' : State}
    (h : includeFile resolver opened deeper rest span s = .ok u s') :
    ∃ run found, deeper = some run
      ∧ (includePath? rest).bind (resolver (opened.headD "")) = some found
      ∧ found.name ∉ opened
      ∧ run (s.opening found).1 (s.opening found).2 = .ok () s' := by
  unfold includeFile at h
  cases hpath : includePath? rest with
  | none => simp [hpath, refuse_ok] at h
  | some path =>
      cases deeper with
      | none => simp [hpath, refuse_ok] at h
      | some run =>
          simp only [hpath] at h
          cases hfound : resolver (opened.headD "") path with
          | none => simp only [hfound, refuse_ok] at h
          | some found =>
              simp only [hfound] at h
              split at h
              case isTrue =>
                simp only [bind_ok, refuse_ok] at h
                obtain ⟨_, _, hfalse, -⟩ := h
                exact hfalse.elim
              case isFalse hnew =>
                simp only [bind_ok, modifyGet_ok] at h
                obtain ⟨id, t, hopen, hrun⟩ := h
                have hid : id = (s.opening found).1 :=
                  (congrArg Prod.fst hopen).symm
                have ht : t = (s.opening found).2 :=
                  (congrArg Prod.snd hopen).symm
                subst hid ht
                exact ⟨run, found, rfl, by simpa using hfound,
                  by simpa using hnew, hrun⟩

/-- How include directives are carried out inside of open files. -/
def spliceInside (resolver : Resolver) (deeper : Nat)
    (inside : List String) : List Char → Span → Cleaning Unit :=
  includeFile resolver inside <|
    match deeper with
    | 0 => none
    | n + 1 => some (cleanFile resolver n inside)

/-- A finished file was cleaned line by line, and its last line was
ended if it stands inside of another file. -/
theorem cleanFile_ok {resolver : Resolver} {deeper : Nat}
    {opened : List String} {file : FileId} {u : Unit} {s s' : State}
    (h : cleanFile resolver deeper opened file s = .ok u s') :
    ∃ source text t, s.sources.get? file = some source
      ∧ blankComments source.text.toList = .ok text
      ∧ (lines text).foldlM (cleanLine file
          (spliceInside resolver deeper (source.name :: opened))) [] s
        = .ok [] t
      ∧ s' = if opened.isEmpty then t
          else { t with draft := t.draft.endLine } := by
  unfold cleanFile at h
  simp only [bind_ok, get_ok] at h
  obtain ⟨_, _, ⟨rfl, rfl⟩, h⟩ := h
  cases hsource : s.sources.get? file with
  | none => simp only [hsource, refuse_ok] at h
  | some source =>
      simp only [hsource] at h
      cases htext : blankComments source.text.toList with
      | error start =>
          simp only [htext, bind_ok, refuse_ok, false_and,
            exists_false] at h
      | ok text =>
          simp only [htext, bind_ok, pure_ok] at h
          obtain ⟨_, _, ⟨rfl, rfl⟩, open', t, hlines, h⟩ := h
          cases open' with
          | cons conditional tail => simp only [refuse_ok] at h
          | nil =>
              refine ⟨source, text, t, rfl, htext, hlines, ?_⟩
              simp only at h
              split at h
              case isTrue hempty =>
                obtain ⟨-, rfl⟩ := pure_ok.1 h
                simp [hempty]
              case isFalse hempty =>
                simp [hempty, modify_ok.1 h]

end Script.Clean
