/-
Diagnostics are about what people wrote. A refusal to clean stands in a
written file. Everything that is said later stands in the cleaned text,
because tokens do, and with them the tree, and what is found in the tree
or while it runs; and each line of the cleaned text has an origin in a
written file.

What code is refused for, and what is warned of, is raised by nodes of the
tree, and a node raises it at one of its own spans.
-/
import Script.Proofs.Complaints.Raised
import Script.Proofs.Places.Checked
import Script.Proofs.Places.Cleaned
import Script.Proofs.Places.Evaluated
import Script.Proofs.Places.Tokens
import Script.Proofs.Reading.Built
import Script.Proofs.Reading.Spanned
import Script.Proofs.Stages

namespace Script

section

variable {P : Span → Prop}

-- =============================================================== nodes

mutual

theorem Expr.Spanned.all :
    ∀ e : Expr, e.Spanned P → ∀ f ∈ e.all, f.Spanned P
  | .number .., h | .string .., h | .bool .., h | .nil _, h | .ident .., h =>
      List.forall_mem_singleton.2 h
  | .unary _ _ e, h | .group _ e, h =>
      List.forall_mem_cons.2 ⟨h, Expr.Spanned.all e h.2⟩
  | .assign _ _ e, h =>
      List.forall_mem_cons.2 ⟨h, Expr.Spanned.all e h.2.2⟩
  | .binary _ _ l r, h =>
      List.forall_mem_cons.2 ⟨h, List.forall_mem_append.2
        ⟨Expr.Spanned.all l h.2.1, Expr.Spanned.all r h.2.2⟩⟩
  | .call _ callee args, h =>
      List.forall_mem_cons.2 ⟨h, List.forall_mem_append.2
        ⟨Expr.Spanned.all callee h.2.1, spanned_allOf args h.2.2⟩⟩

theorem spanned_allOf :
    ∀ es : List Expr, argsSpanned P es → ∀ f ∈ allOf es, f.Spanned P
  | [], _ => List.forall_mem_nil _
  | e :: es, h => List.forall_mem_append.2
      ⟨Expr.Spanned.all e h.1, spanned_allOf es h.2⟩

end

theorem spanned_optionalAll {e? : Option Expr}
    (h : ∀ e ∈ e?, e.Spanned P) : ∀ f ∈ optionalAll e?, f.Spanned P := by
  cases e? with
  | none => exact List.forall_mem_nil _
  | some e => exact (h e rfl).all

/-- Whether `P` holds of every span in these nodes. -/
def NodesSpanned (P : Span → Prop) (es : List Expr) (ss : List Stmt) :
    Prop :=
  (∀ e ∈ es, e.Spanned P) ∧ ∀ s ∈ ss, s.Spanned P

theorem NodesSpanned.append {es es' : List Expr} {ss ss' : List Stmt}
    (h : NodesSpanned P es ss) (h' : NodesSpanned P es' ss') :
    NodesSpanned P (es ++ es') (ss ++ ss') :=
  ⟨List.forall_mem_append.2 ⟨h.1, h'.1⟩, List.forall_mem_append.2
    ⟨h.2, h'.2⟩⟩

theorem NodesSpanned.of_expressions {es : List Expr}
    (h : ∀ e ∈ es, e.Spanned P) : NodesSpanned P es [] :=
  ⟨h, List.forall_mem_nil _⟩

mutual

theorem Stmt.Spanned.nodes :
    ∀ s : Stmt, s.Spanned P → NodesSpanned P s.expressions s.parts
  | .declare _ _ _, h | .giveBack _ _, h =>
      .of_expressions (spanned_optionalAll h.2)
  | .function d, h => FnDecl.Spanned.nodes d h
  | .expression _ _, h | .print _ _, h => .of_expressions h.2.all
  | .block b, h => Block.Spanned.nodes b h
  | .branch _ _ b none, ⟨_, hcond, hb, _⟩ =>
      (NodesSpanned.of_expressions hcond.all).append
        ((Block.Spanned.nodes b hb).append (.of_expressions nofun))
  | .branch _ _ b (some s), ⟨_, hcond, hb, hs⟩ =>
      (NodesSpanned.of_expressions hcond.all).append
        ((Block.Spanned.nodes b hb).append (Stmt.Spanned.nodes s hs))
  | .loop _ _ b, ⟨_, hcond, hb⟩ =>
      (NodesSpanned.of_expressions hcond.all).append
        (Block.Spanned.nodes b hb)
  | .empty _, _ => .of_expressions nofun

theorem FnDecl.Spanned.nodes :
    ∀ d : FnDecl, d.Spanned P → NodesSpanned P d.expressions d.parts
  | ⟨_, _, b, _⟩, h => Block.Spanned.nodes b h.2

theorem Block.Spanned.nodes :
    ∀ b : Block, b.Spanned P → NodesSpanned P b.expressions b.parts
  | ⟨ss, _⟩, h => stmtsSpanned_nodes ss h.2

theorem stmtsSpanned_nodes : ∀ ss : List Stmt, stmtsSpanned P ss →
    NodesSpanned P (stmtsExpressions ss) (stmtsAll ss)
  | [], _ => .of_expressions nofun
  | s :: ss, ⟨hs, hss⟩ => by
      obtain ⟨hexpressions, hparts⟩ := Stmt.Spanned.nodes s hs
      exact .append ⟨hexpressions, List.forall_mem_cons.2 ⟨hs, hparts⟩⟩
        (stmtsSpanned_nodes ss hss)

end

-- ============================================================ programs

/-- An expression raises what it raises at one of its own spans. -/
theorem Expr.Spanned.of_raises {e : Expr} {d : Diagnostic}
    (h : e.Spanned P) (hd : e.Raises d) : P d.span := by
  cases hd with
  | undefined | captured => exact h
  | undefinedTarget | capturedTarget => exact h.2.1
  | refused hd =>
      cases Expr.refused_of_refusal? hd with
      | unary | binary => exact h.1
      | call => exact h.2.1.span

/-- What is said of a program is said at places of which `P` holds. -/
theorem Code.ofProgram_spanned {p : Program}
    (h : ∀ s ∈ p.statements, s.Spanned P) :
    ∀ d ∈ (Code.ofProgram p).2, P d.span := by
  obtain ⟨hexpressions, hstatements⟩ :=
    stmtsSpanned_nodes p.statements (stmtsSpanned_iff.2 h)
  exact Code.ofProgram_raised
    (fun e he _ hd => (hexpressions e he).of_raises hd)
    fun s hs => (hstatements s hs).span

end

-- ============================================================== stages

namespace Pipeline

open Script.Action

variable {P : Span → Prop}

/-- Stages whose diagnostics are all at spans of which `P` holds. -/
abbrev Blames (P : Span → Prop) (x : Writing (List Diagnostic)) : Prop :=
  Upholds (fun _ => True) (fun _ _ => True) (fun ds => ∀ d ∈ ds, P d.span) x

namespace Blames

/-- Stages after an action that says nothing, such as writing. -/
theorem after {α : Type} (x : Writing α) {f : α → Writing (List Diagnostic)}
    (hf : ∀ a, Blames P (f a)) : Blames P (x >>= f) := by
  refine Upholds.bind (Q := fun _ => True) (fun s _ => ?_) fun a _ => hf a
  cases x s <;> exact ⟨trivial, trivial⟩

variable {mode : Mode} {limits : Eval.Limits} {patience : Nat}
  {said : List Diagnostic} {p : Program}

theorem showing {own : Mode} {title text : String}
    {rest : Writing (List Diagnostic)} (hsaid : ∀ d ∈ said, P d.span)
    (hrest : Blames P rest) :
    Blames P (showing mode own title text said rest) :=
  .ite (fun _ => after _ fun _ => after _ fun _ =>
    .ite (fun _ => hrest) fun _ => .pure hsaid) fun _ => hrest

theorem execute (hp : ∀ s ∈ p.statements, s.Spanned P) :
    Blames P (execute limits patience p) := by
  refine Upholds.bind (Q := fun o => ∀ d, o = .failed d → P d.span)
    (.modifyGet fun sink _ => ⟨trivial, fun d h =>
      Session.failed_spanned hp h⟩) fun o ho => ?_
  cases o with
  | value v =>
      have hnone : Blames P (return []) := .pure (List.forall_mem_nil _)
      exact .ite (fun _ => hnone) fun _ => after _ fun _ => hnone
  | failed d => exact .pure (by simpa using ho d rfl)
  | starved => exact .throw fun _ _ => trivial

theorem compile (hp : ∀ s ∈ p.statements, s.Spanned P) :
    Blames P (compile p) := by
  have hsaid : Blames P (return (Code.ofProgram p).2) :=
    .pure (Code.ofProgram_spanned hp)
  unfold Pipeline.compile
  dsimp only
  cases (Code.ofProgram p).1 with
  | some code => exact after _ fun _ => hsaid
  | none => exact hsaid

theorem compiling (hsaid : ∀ d ∈ said, P d.span)
    (hp : ∀ s ∈ p.statements, s.Spanned P) :
    Blames P (compiling mode p said) :=
  .ite (fun _ => after _ fun _ => (compile hp).bind fun _ hds =>
    .pure (List.forall_mem_append.2 ⟨hsaid, hds⟩)) fun _ => .pure hsaid

theorem executing (hsaid : ∀ d ∈ said, P d.span)
    (hp : ∀ s ∈ p.statements, s.Spanned P) :
    Blames P (executing mode limits patience p said) :=
  .ite (fun _ => after _ fun _ => (execute hp).bind fun _ hds =>
    compiling (List.forall_mem_append.2 ⟨hsaid, hds⟩) hp)
    fun _ => compiling hsaid hp

theorem running (hsaid : ∀ d ∈ said, P d.span)
    (hp : ∀ s ∈ p.statements, s.Spanned P) :
    Blames P (running mode limits patience p said) :=
  .ite (fun _ => .pure hsaid) fun _ => executing hsaid hp

/-- Whatever is said of a text stands in it. -/
theorem stages (mode : Mode) (limits : Eval.Limits) (patience : Nat)
    (file : FileId) (text : String) :
    Blames (Span.Inside file text.utf8ByteSize)
      (stages mode limits patience file text) := by
  obtain ⟨htokens, hfaults⟩ := Token.ofText_inside file text
  obtain ⟨hstatements, hreports⟩ := Program.ofTokens_built
    Span.joinClosed_inside htokens (Span.inside_point (Nat.le_refl _))
    fun s hs => Span.inside_point hs.start_le
  have hfound := List.forall_mem_append.2 ⟨hfaults, hreports⟩
  rw [stages_eq]
  exact showing (List.forall_mem_nil _) <| showing hfaults <|
    showing hfound <| running hfound fun s hs => (hstatements s hs).spanned

end Blames

end Pipeline

-- =========================================================== locations

variable {before after : Sources} {entry : FileId}
  {resolver : Clean.Resolver} {span : Span}

/-- Whether the entry file and the files that a run has registered are so
short that any two offsets in them can be added in 32 bits. -/
def Short (before : Sources) (entry : FileId) (after : Sources) : Prop :=
  ∀ id f, after.get? id = some f → id = entry ∨ before.files.size ≤ id →
    f.size < halfRange

/-- If the entry file is as people wrote it, so are all files that people
wrote: included ones are. -/
theorem Written.origins_eq_none {id : FileId} {f w : SourceFile}
    (h : Written before entry resolver id w)
    (hentry : before.get? entry = some f) (hf : f.origins = none) :
    w.origins = none := by
  cases h with
  | entry hw =>
      cases hentry.symm.trans hw
      exact hf
  | included => rfl

theorem Written.short {id : FileId} {w : SourceFile}
    (h : Written before entry resolver id w)
    (hshort : Short before entry after) (hw : after.get? id = some w) :
    w.size < halfRange := by
  cases h with
  | entry => exact hshort _ _ hw (.inl rfl)
  | included hid => exact hshort _ _ hw (.inr hid)

/-- A span that people can be shown in what they wrote, after a run. -/
structure Located (before : Sources) (entry : FileId)
    (resolver : Clean.Resolver) (after : Sources) (span : Span) : Prop
    where
  /-- It lies in a registered file. -/
  inside : ∃ f, after.get? span.file = some f ∧ span.start ≤ span.stop
    ∧ span.stop ≤ f.size
  /-- On the way to its location nothing is missing, and nothing becomes
  negative or too large. -/
  checked : after.locate? span = some (after.locate span)
  known : after.locate span ≠ .unknown
  /-- Its location is in the entry file or in one that was included, and
  these are no derived files. -/
  shown : ∃ id w, after.get? id = some w ∧ Written before entry resolver id w
    ∧ w.origins = none ∧ w.Shows (after.locate span)

namespace Located

variable {f : SourceFile}

/-- A span in a file that people wrote is located there. -/
theorem of_held (hentry : before.get? entry = some f)
    (hwhole : f.origins = none) (hshort : Short before entry after)
    (h : Clean.Held before entry resolver after span) :
    Located before entry resolver after span := by
  obtain ⟨w, hw, hwritten, hle⟩ := h
  have horigins := hwritten.origins_eq_none hentry hwhole
  have hchecked := Sources.locate?_eq hw (hwritten.short hshort hw)
    fun _ h => nomatch horigins.symm.trans h
  exact ⟨⟨w, hw, span.start_le_stop, hle⟩, hchecked,
    Sources.locate_ne_unknown hw, span.file, w, hw, hwritten, horigins,
    Sources.locate_written hw horigins
      (Nat.le_trans span.start_le_stop hle)⟩

/-- A span in a cleaned file is located in what it was made of. -/
theorem of_traced {derived : SourceFile} {origins : List LineOrigin}
    (hentry : before.get? entry = some f) (hwhole : f.origins = none)
    (hshort : Short before entry after)
    (hnew : before.files.size ≤ span.file)
    (hf : after.get? span.file = some derived)
    (hderived : derived.origins = some origins) (hne : origins ≠ [])
    (htraced : ∀ o ∈ origins, Clean.Traced before entry resolver after o)
    (hle : span.stop ≤ derived.size) :
    Located before entry resolver after span := by
  have hchecked : after.locate? span = some (after.locate span) := by
    refine Sources.locate?_eq hf (hshort _ _ hf (.inr hnew)) ?_
    intro _ h o ho
    cases hderived.symm.trans h
    obtain ⟨w, start, hw, hwritten, hstart, hshifts⟩ := htraced o ho
    constructor
    · intro w' hw'
      cases hw.file.symm.trans hw'
      exact hwritten.short hshort hw.file
    · intro w' start' hw' hstart'
      cases hw.file.symm.trans hw'
      cases hstart.symm.trans hstart'
      exact hshifts
  refine ⟨⟨derived, hf, span.start_le_stop, hle⟩, hchecked,
    Sources.locate_ne_unknown hf, ?_⟩
  obtain ⟨o, ho, w, hw, hshows⟩ := Sources.locate_derived hf hderived hne
    (fun o ho => (htraced o ho).imp fun _ ⟨_, h⟩ => h.1)
    (Nat.le_trans span.start_le_stop hle)
  obtain ⟨w', -, hw', hwritten, -⟩ := htraced o ho
  cases hw.file.symm.trans hw'.file
  exact ⟨o.file, w, hw.file, hwritten,
    hwritten.origins_eq_none hentry hwhole, hshows⟩

end Located

-- ======================================================= diagnostics

namespace Pipeline

/-- Every diagnostic of a run on a file that people wrote can be shown to
them in what they wrote, whatever the mode, the resolver and the limits are.
Neither on the way to its place nor where cleaning marks the end of the text
is anything missing, negative or too large, if the texts of the run are short
enough: macros can make a long text of a short one. -/
theorem diagnostics_located (mode : Mode) (resolver : Clean.Resolver)
    (limits : Eval.Limits) (patience : Nat) (sink : Sink) {f : SourceFile}
    (hentry : before.get? entry = some f) (hwhole : f.origins = none) :
    ∀ after ds s,
      run mode before entry resolver limits patience sink
        = ⟨.ok ds, after, s⟩ →
      Short before entry after →
      Clean.endOrigin? entry f = some (Clean.endOrigin entry f)
        ∧ ∀ d ∈ ds, Located before entry resolver after d.span := by
  intro after ds s h hshort
  unfold run at h
  split at h
  case h_1 refusal sources hclean =>
    cases h
    obtain ⟨hf, hheld⟩ := Cleaned.ofFile_refused hentry hclean
    refine ⟨Clean.endOrigin?_eq entry (hshort _ _ hf (.inl rfl)),
      fun d hd => ?_⟩
    rw [List.mem_singleton.1 hd]
    exact .of_held hentry hwhole hshort hheld
  case h_2 cleaned sources hclean =>
    obtain ⟨hf, hnew, derived, origins, hcleaned, hderived, hne, htraced⟩ :=
      Cleaned.ofFile_traced hentry hclean
    have hblames := Blames.stages mode limits patience cleaned.file
      (sources.textOf cleaned.file)
    have htext : sources.textOf cleaned.file = derived.text := by
      rw [Sources.textOf, hcleaned]
      rfl
    dsimp only at h
    split at h
    case h_2 => cases h
    case h_1 said sink' hstages =>
      cases h
      refine ⟨Clean.endOrigin?_eq entry (hshort _ _ hf (.inl rfl)),
        fun d hd => ?_⟩
      obtain ⟨hfile, hle⟩ := (hblames.of_ok trivial hstages).2 d hd
      rw [htext] at hle
      rw [← hfile] at hcleaned hnew
      exact .of_traced hentry hwhole hshort hnew hcleaned hderived hne
        htraced hle

/-- A name that is unknown in an included file, behind a macro that is
longer than its text: it is shown where it stands in that file. -/
theorem unknown_name_located :
    let sources := (Sources.empty.add "main" "#include \"lib\"\n").2
    let resolver : Clean.Resolver := fun _ path =>
      some ⟨path, "#define NOTHING nil\nNOTHING; x;"⟩
    let r := run .execute sources 0 resolver ⟨some 9, 1⟩ 0 .unlimited
    ∃ d, r.outcome = .ok [d]
      ∧ (r.sources.locate d.span).text = "lib:2:10"
      ∧ Located sources 0 resolver r.sources d.span := by
  intro sources resolver r
  let d : Diagnostic := (Eval.Fault.undefinedVariable "x").report.at ⟨2, 6, 1⟩
  have hd : r.outcome = .ok [d] := by decide +kernel
  have hrun : r = ⟨.ok [d], r.sources, r.sink⟩ := by rw [← hd]
  have hsizes : ∀ f ∈ r.sources.files, f.size < halfRange := by
    decide +kernel
  have hshort : Short sources 0 r.sources := fun id f hf _ =>
    hsizes f (Array.mem_of_getElem? hf)
  refine ⟨d, hd, by decide +kernel, ?_⟩
  exact (diagnostics_located .execute resolver ⟨some 9, 1⟩ 0 .unlimited
    rfl rfl _ _ _ hrun hshort).2 d (List.mem_singleton_self d)

/-- An entry file may itself be derived from another one. What is said of it
is shown in that one then, and this is neither the entry file nor one that was
included. -/
theorem derived_entry_located_elsewhere :
    let lib := (Sources.empty.add "lib.q" "").2
    let sources := (lib.addDerived "main.q" "#endif" [.copied 0 1]).2
    let resolver : Clean.Resolver := fun _ _ => none
    let r := run .preprocess sources 1 resolver ⟨some 9, 1⟩ 0 .unlimited
    ∃ d, r.outcome = .ok [d]
      ∧ (r.sources.locate d.span).text = "lib.q:1:1"
      ∧ ¬ ∃ id w, r.sources.get? id = some w
        ∧ Written sources 1 resolver id w
        ∧ w.Shows (r.sources.locate d.span) := by
  intro lib sources resolver r
  obtain ⟨d, hd, hplace⟩ : ∃ d, r.outcome = .ok [d]
      ∧ r.sources.locate d.span = ⟨"lib.q", 1, 1⟩ :=
    ⟨Clean.Fault.endOutside.report.at ⟨1, 0, 6⟩, by decide +kernel,
      by decide +kernel⟩
  refine ⟨d, hd, by rw [hplace]; decide +kernel, ?_⟩
  rintro ⟨id, w, -, hwritten, hshows⟩
  rw [hplace] at hshows
  cases hwritten with
  | entry hentry =>
      obtain rfl := Option.some.inj hentry
      exact absurd hshows.name (by decide)
  | included _ hfound => cases hfound

end Pipeline

end Script
