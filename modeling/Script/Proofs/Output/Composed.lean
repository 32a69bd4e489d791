/-
The mode for everything does what the other modes do, one after the
other. Each action of the pipeline has a text that it writes and a value
that it yields, whatever was written before, as long as nothing is
refused; the texts and values of the stages make up those of a mode.

Only the program itself may go on forever. Where it ends in the mode that
executes, it ends in the mode for everything.
-/
import Script.Proofs.Output.Prefixed
import Script.Proofs.Output.Truncation

namespace Script.Pipeline

variable {α β : Type} {text text' : ByteArray} {a : α} {b : β}
  {x : Writing α} {f : α → Writing β}

-- =============================================================== writes

/-- An action that writes a text to every sink without a limit, and
yields a value. -/
def Writes (text : ByteArray) (a : α) (x : Writing α) : Prop :=
  ∀ s : Sink, s.room = none → x s = .ok a ⟨s.written ++ text, none⟩

namespace Writes

theorem pure (a : α) : Writes .empty a (pure a : Writing α) := by
  rintro ⟨written, room⟩ rfl
  show _ = EStateM.Result.ok a (⟨written ++ .empty, none⟩ : Sink)
  rw [ByteArray.append_empty]
  rfl

theorem bind (hx : Writes text a x) (hf : Writes text' b (f a)) :
    Writes (text ++ text') b (x >>= f) := by
  intro s hs
  show EStateM.bind x f s = _
  unfold EStateM.bind
  rw [hx s hs]
  show f a _ = _
  rw [hf _ rfl, ByteArray.append_assoc]

/-- An action that writes nothing, in front of another. -/
theorem andThen (hx : Writes .empty a x) (hf : Writes text b (f a)) :
    Writes text b (x >>= f) := by
  rw [← ByteArray.empty_append (b := text)]
  exact hx.bind hf

/-- An action that only makes something of the value. -/
theorem map (hx : Writes text a x) (g : α → β) :
    Writes text (g a) (x >>= fun a => (Pure.pure (g a) : Writing β)) := by
  rw [← ByteArray.append_empty (b := text)]
  exact hx.bind (pure (g a))

theorem write (text : String) :
    Writes text.toUTF8 () (Pipeline.write text) := by
  rintro ⟨written, room⟩ rfl
  rfl

end Writes

-- =============================================================== stages

/-- What a run adds to what was there: a text in the sink, and
diagnostics. -/
structure Added where
  text : ByteArray
  said : List Diagnostic

/-- A text behind the name of its stage. -/
def titled (stage : String) (text : ByteArray) : ByteArray :=
  ("== " ++ stage ++ " ==\n").toUTF8 ++ text

/-- What running a program adds to a tree and what was found in it: unless
that is an error, what the run adds itself. -/
def afterTree (tree x : Added) : Added :=
  if hasErrors tree.said then ⟨.empty, tree.said⟩
  else ⟨x.text, tree.said ++ x.said⟩

/-- What executing and compiling add, one behind the other. -/
def bothTitled (runs makes : Added) : Added :=
  ⟨titled "execute" runs.text ++ titled "compile" makes.text,
    runs.said ++ makes.said⟩

/-- What the modes add, if three of them show a cleaned text, its tokens
and its tree, and executing and compiling add `runs` and `makes`. -/
def assembled (cleaned tokens tree runs makes : Added) : Mode → Added
  | .preprocess => cleaned
  | .tokenize => tokens
  | .parse => tree
  | .execute => afterTree tree runs
  | .compile => afterTree tree makes
  | .monolith =>
      let all := afterTree tree (bothTitled runs makes)
      ⟨titled "preprocess" cleaned.text ++ titled "tokens" tokens.text
        ++ titled "ast" tree.text ++ all.text, all.said⟩

section

variable {mode own : Mode} {stage shown : String}
  {said : List Diagnostic} {rest : Writing (List Diagnostic)}

theorem header_of_ne (h : mode ≠ .monolith) (stage : String) :
    header mode stage = pure () :=
  if_neg h

theorem header_monolith (stage : String) :
    Writes (titled stage .empty) () (header .monolith stage) := by
  unfold titled
  rw [ByteArray.append_empty]
  exact .write _

/-- What follows the name of a stage. -/
theorem titled_append (stage : String) (text text' : ByteArray) :
    titled stage text ++ text' = titled stage (text ++ text') :=
  ByteArray.append_assoc

/-- A stage on its own. -/
theorem showing_own (h : own ≠ .monolith) :
    Writes shown.toUTF8 said (showing own own stage shown said rest) := by
  unfold showing
  rw [if_pos (.inl rfl), if_neg h, header_of_ne h]
  exact (Writes.pure ()).andThen ((Writes.write shown).map fun _ => said)

/-- A stage that is passed over. -/
theorem showing_other (hown : mode ≠ own) (h : mode ≠ .monolith) :
    showing mode own stage shown said rest = rest :=
  if_neg fun hor => hor.elim hown h

/-- A stage with those behind it. -/
theorem showing_monolith {ds : List Diagnostic}
    (h : Writes text ds rest) :
    Writes (titled stage shown.toUTF8 ++ text) ds
      (showing .monolith own stage shown said rest) := by
  unfold showing
  rw [if_pos (.inr rfl), if_pos rfl, titled_append,
    ← ByteArray.empty_append (b := shown.toUTF8 ++ text), ← titled_append]
  exact (header_monolith stage).bind ((Writes.write shown).bind h)

end

section

variable {limits : Eval.Limits} {patience : Nat} {p : Program}
  {found : List Diagnostic} {runs makes : Added}

theorem exists_writes_bind {f : α → Writing (List Diagnostic)}
    (hx : Writes text a x)
    (hf : ∃ y : Added, Writes y.text y.said (f a)) :
    ∃ y : Added, Writes y.text y.said (x >>= f) := by
  obtain ⟨y, hy⟩ := hf
  exact ⟨⟨_, _⟩, hx.bind hy⟩

/-- Compiling writes the listing, if there is code. -/
theorem exists_writes_compile (p : Program) :
    ∃ makes : Added, Writes makes.text makes.said (compile p) := by
  unfold compile
  dsimp only
  cases (Code.ofProgram p).1 with
  | none => exact ⟨⟨.empty, _⟩, (Writes.pure ()).map fun _ => _⟩
  | some code => exact ⟨⟨_, _⟩, (Writes.write code.listing).map fun _ => _⟩

/-- Executing a program that ends writes what it prints, and its
value. -/
theorem exists_writes_execute
    (h : (Session.fresh.run limits patience p .unlimited).1 ≠ .starved) :
    ∃ runs : Added,
      Writes runs.text runs.said (execute limits patience p) := by
  generalize hrun : Session.fresh.run limits patience p .unlimited = r at h
  obtain ⟨outcome, session, sink⟩ := r
  -- into any other sink the run comes to the same
  have hinto : Writes sink.written outcome
      (modifyGet fun sink =>
        ((Session.fresh.run limits patience p sink).1,
          (Session.fresh.run limits patience p sink).2.2)) := by
    intro t ht
    obtain ⟨houtcome, -, hsink⟩ := Session.run_prefixed Session.fresh
      limits patience p (Sink.prefixed_unlimited ht)
    rw [hrun] at houtcome hsink
    show EStateM.Result.ok _ _ = _
    rw [houtcome, hsink.eq]
  unfold execute
  refine exists_writes_bind hinto ?_
  cases outcome with
  | starved => exact absurd rfl h
  | failed d => exact ⟨⟨_, [d]⟩, .pure [d]⟩
  | value v =>
      dsimp only
      split
      · exact ⟨⟨_, []⟩, .pure []⟩
      · exact ⟨⟨_, []⟩, (Writes.write _).map fun _ => []⟩

/-- Nothing is run behind an error. -/
theorem running_write {mode : Mode} {x : Added} (shown : ByteArray)
    (h : hasErrors found = false →
      Writes x.text (found ++ x.said) (executing mode limits patience p found)) :
    Writes (afterTree ⟨shown, found⟩ x).text
      (afterTree ⟨shown, found⟩ x).said
      (running mode limits patience p found) := by
  unfold afterTree running
  dsimp only
  by_cases hfound : hasErrors found = true
  · rw [if_pos hfound, if_pos hfound]
    exact .pure found
  · rw [if_neg hfound, if_neg hfound]
    exact h (Bool.eq_false_iff.2 hfound)

theorem executing_execute
    (hruns : Writes runs.text runs.said (execute limits patience p)) :
    Writes runs.text (found ++ runs.said)
      (executing .execute limits patience p found) :=
  (Writes.pure ()).andThen (hruns.map (found ++ ·))

theorem executing_compile
    (hmakes : Writes makes.text makes.said (compile p)) :
    Writes makes.text (found ++ makes.said)
      (executing .compile limits patience p found) :=
  (Writes.pure ()).andThen (hmakes.map (found ++ ·))

theorem executing_monolith
    (hruns : Writes runs.text runs.said (execute limits patience p))
    (hmakes : Writes makes.text makes.said (compile p)) :
    Writes (bothTitled runs makes).text
      (found ++ (bothTitled runs makes).said)
      (executing .monolith limits patience p found) := by
  have hcompile : Writes (titled "compile" makes.text)
      (found ++ runs.said ++ makes.said)
      (compiling .monolith p (found ++ runs.said)) :=
    (Writes.write _).bind (hmakes.map (found ++ runs.said ++ ·))
  unfold bothTitled
  dsimp only
  rw [titled_append, ← List.append_assoc]
  exact (Writes.write _).bind (hruns.bind hcompile)

/-- Reading a text, the stages write what the modes add. -/
theorem stages_write (file : FileId) (text : String) (mode : Mode)
    (hmakes : Writes makes.text makes.said
      (compile (Program.ofText file text).1))
    (hruns : hasErrors (Program.ofText file text).2 = false →
      Writes runs.text runs.said
        (execute limits patience (Program.ofText file text).1)) :
    let all := assembled ⟨(closed text).toUTF8, []⟩
      ⟨(Token.listing (Token.ofText file text).1).toUTF8,
        (Token.ofText file text).2⟩
      ⟨((Program.ofText file text).1.text ++ "\n").toUTF8,
        (Program.ofText file text).2⟩ runs makes mode
    Writes all.text all.said (stages mode limits patience file text) := by
  rw [stages_eq]
  rw [Program.ofText_eq] at hmakes hruns ⊢
  generalize Token.ofText file text = read at *
  obtain ⟨tokens, faults⟩ := read
  dsimp only at hmakes hruns ⊢
  generalize Program.ofTokens file text.utf8ByteSize tokens = tree at *
  obtain ⟨program, reports⟩ := tree
  dsimp only at hmakes hruns ⊢
  generalize faults ++ reports = found at *
  unfold assembled
  cases mode with
  | preprocess => exact showing_own (by decide)
  | tokenize =>
      rw [showing_other (by decide) (by decide)]
      exact showing_own (by decide)
  | parse =>
      rw [showing_other (by decide) (by decide),
        showing_other (by decide) (by decide)]
      exact showing_own (by decide)
  | execute =>
      rw [showing_other (by decide) (by decide),
        showing_other (by decide) (by decide),
        showing_other (by decide) (by decide)]
      exact running_write _ fun h => executing_execute (hruns h)
  | compile =>
      rw [showing_other (by decide) (by decide),
        showing_other (by decide) (by decide),
        showing_other (by decide) (by decide)]
      exact running_write _ fun _ => executing_compile hmakes
  | monolith =>
      dsimp only
      rw [ByteArray.append_assoc, ByteArray.append_assoc]
      refine showing_monolith (showing_monolith (showing_monolith ?_))
      exact running_write _ fun h => executing_monolith (hruns h) hmakes

theorem exists_stages_write {file : FileId} {text : String}
    (h : hasErrors (Program.ofText file text).2 = false →
      (Session.fresh.run limits patience (Program.ofText file text).1
        .unlimited).1 ≠ .starved) :
    ∃ cleaned tokens tree runs makes : Added, ∀ mode,
      let all := assembled cleaned tokens tree runs makes mode
      Writes all.text all.said (stages mode limits patience file text) := by
  obtain ⟨makes, hmakes⟩ :=
    exists_writes_compile (Program.ofText file text).1
  by_cases hread : hasErrors (Program.ofText file text).2 = true
  · exact ⟨_, _, _, ⟨.empty, []⟩, makes, fun mode =>
      stages_write file text mode hmakes fun h =>
        absurd (h.symm.trans hread) nofun⟩
  · obtain ⟨runs, hruns⟩ :=
      exists_writes_execute (h (Bool.eq_false_iff.2 hread))
    exact ⟨_, _, _, runs, makes, fun mode =>
      stages_write file text mode hmakes fun _ => hruns⟩

theorem execute_of_starved {s : Sink}
    (h : (Session.fresh.run limits patience p s).1 = .starved) :
    execute limits patience p s = .error .unfinished
      (Session.fresh.run limits patience p s).2.2 := by
  have hrun (f : Outcome → Writing (List Diagnostic)) :
      ((modifyGet fun sink =>
          ((Session.fresh.run limits patience p sink).1,
            (Session.fresh.run limits patience p sink).2.2)) >>= f) s
        = f (Session.fresh.run limits patience p s).1
          (Session.fresh.run limits patience p s).2.2 := rfl
  unfold execute
  rw [hrun, h]
  rfl

/-- The stages that execute a program only end if it does. -/
theorem executed_of_ended {file : FileId} {text : String} {sink : Sink}
    (hsink : sink.room = none)
    (h : ∀ t, stages .execute limits patience file text sink
      ≠ .error .unfinished t)
    (hread : hasErrors (Program.ofText file text).2 = false) :
    (Session.fresh.run limits patience (Program.ofText file text).1
      .unlimited).1 ≠ .starved := by
  intro hstarved
  have hsame := (Session.run_prefixed Session.fresh limits patience
    (Program.ofText file text).1 (Sink.prefixed_unlimited hsink)).1
  rw [hstarved] at hsame
  have hexecute := execute_of_starved hsame
  refine h (Session.fresh.run limits patience
    (Program.ofText file text).1 sink).2.2 ?_
  rw [stages_eq]
  rw [Program.ofText_eq] at hread hexecute ⊢
  dsimp only at hread hexecute ⊢
  rw [showing_other (by decide) (by decide),
    showing_other (by decide) (by decide),
    showing_other (by decide) (by decide)]
  unfold running
  rw [if_neg (by rw [hread]; exact nofun)]
  show EStateM.bind (execute limits patience _) _ sink = _
  unfold EStateM.bind
  rw [hexecute]

end

-- ================================================================ runs

section

variable {mode : Mode} {sources : Sources} {file : FileId}
  {resolver : Clean.Resolver} {limits : Eval.Limits} {sink : Sink}
  {r : Result}

/-- What comes of a run that adds to a sink without a limit. -/
def Added.result (x : Added) (sources : Sources) (sink : Sink) : Result :=
  ⟨.ok x.said, sources, ⟨sink.written ++ x.text, none⟩⟩

/-- A mode whose runs into sinks without a limit end, and all add the
same. -/
def Adds (mode : Mode) (sources : Sources) (file : FileId)
    (resolver : Clean.Resolver) (limits : Eval.Limits)
    (sources' : Sources) (x : Added) : Prop :=
  ∀ s : Sink, s.room = none → ∀ r,
    Ends mode sources file resolver limits s r ↔ r = x.result sources' s

theorem Adds.of_run {sources' : Sources} {x : Added} (patience : Nat)
    (h : ∀ s : Sink, s.room = none →
      run mode sources file resolver limits patience s
        = x.result sources' s) :
    Adds mode sources file resolver limits sources' x := by
  intro s hs r
  have hends : Ends mode sources file resolver limits s
      (x.result sources' s) :=
    ⟨patience, h s hs, nofun⟩
  constructor
  · exact hends.unique
  · rintro rfl
    exact hends

/-- The mode for everything is composed of the others. If cleaning fails,
no mode writes anything, and all say why; else each mode adds what it
shows itself, and the mode for everything adds all of that, behind the
names of the stages. -/
theorem Ends.composed (hsink : sink.room = none)
    (h : Ends .execute sources file resolver limits sink r) :
    match Cleaned.ofFile sources file resolver with
    | (.error refusal, sources') =>
        ∀ mode, Adds mode sources file resolver limits sources'
          ⟨.empty, [refusal.diagnostic]⟩
    | (.ok _, sources') =>
        ∃ cleaned tokens tree runs makes : Added, ∀ mode,
          Adds mode sources file resolver limits sources'
            (assembled cleaned tokens tree runs makes mode) := by
  obtain ⟨patience, hrun, hended⟩ := h
  have hall {mode : Mode} {sources' : Sources} {x : Added}
      (h : ∀ s : Sink, s.room = none →
        run mode sources file resolver limits patience s
          = x.result sources' s) :
      Adds mode sources file resolver limits sources' x := .of_run patience h
  unfold run at hrun hall
  split
  case h_1 refusal sources' hcleaned =>
      rw [hcleaned] at hall
      refine fun mode => hall fun s hs => ?_
      obtain ⟨written, room⟩ := s
      obtain rfl : room = none := hs
      unfold Added.result
      rw [ByteArray.append_empty]
  case h_2 cleaned sources' hcleaned =>
      rw [hcleaned] at hrun hall
      dsimp only at hrun hall
      generalize sources'.textOf cleaned.file = text at hrun hall
      obtain ⟨makes, hmakes⟩ :=
        exists_writes_compile (Program.ofText cleaned.file text).1
      obtain ⟨shown, tokens, tree, runs, makes, hwrite⟩ :=
        exists_stages_write (executed_of_ended hsink fun t ht => hended <| by
          rw [← hrun, ht])
      refine ⟨shown, tokens, tree, runs, makes, fun mode =>
        hall fun s hs => ?_⟩
      rw [hwrite mode s hs]
      rfl

/-- A program that prints, and then fails: its code is shown behind
that. -/
theorem composed_failing_program :
    let sources := (Sources.empty.add "main" "print \"a\"; print -nil;").2
    let resolver : Clean.Resolver := fun _ _ => none
    let limits : Eval.Limits := ⟨some 9, 1⟩
    (∃ r, Ends .execute sources 0 resolver limits .unlimited r)
      ∧ ∃ sources' cleaned tokens tree runs makes,
        hasErrors tree.said = false
        ∧ runs.text.toList = "a\n".toUTF8.toList
        ∧ hasErrors (tree.said ++ runs.said) = true
        ∧ ∀ mode, Adds mode sources 0 resolver limits sources'
          (assembled cleaned tokens tree runs makes mode) := by
  intro sources resolver limits
  have hends (mode : Mode)
      (h : (run mode sources 0 resolver limits 0 .unlimited).outcome
        ≠ .error .unfinished) :
      Ends mode sources 0 resolver limits .unlimited
        (run mode sources 0 resolver limits 0 .unlimited) :=
    ⟨0, rfl, h⟩
  have hexecute := hends .execute (by decide +kernel)
  refine ⟨⟨_, hexecute⟩, ?_⟩
  have hall := Ends.composed rfl hexecute
  split at hall
  case h_1 refusal sources' hcleaned =>
      have hclean : (Cleaned.ofFile sources 0 resolver).1.toOption.isSome
          = true := by decide +kernel
      rw [hcleaned] at hclean
      cases hclean
  case h_2 sources' _ =>
      obtain ⟨cleaned, tokens, tree, runs, makes, hadds⟩ := hall
      have htree := (hadds .parse .unlimited rfl _).1
        (hends .parse (by decide +kernel))
      have hruns := (hadds .execute .unlimited rfl _).1 hexecute
      have hfound : hasErrors tree.said = false := by
        have hsaid : (run .parse sources 0 resolver limits 0
            .unlimited).outcome.toOption.map hasErrors = some false := by
          decide +kernel
        rw [htree] at hsaid
        exact Option.some.inj hsaid
      have hafter : afterTree tree runs = ⟨runs.text, tree.said ++ runs.said⟩ :=
        if_neg (by rw [hfound]; exact nofun)
      rw [assembled, hafter] at hruns
      refine ⟨sources', cleaned, tokens, tree, runs, makes, hfound, ?_, ?_,
        hadds⟩
      · have hwritten : (run .execute sources 0 resolver limits 0
            .unlimited).sink.written.toList = "a\n".toUTF8.toList := by
          decide +kernel
        rw [hruns] at hwritten
        rw [← ByteArray.empty_append (b := runs.text)]
        exact hwritten
      · have hsaid : (run .execute sources 0 resolver limits 0
            .unlimited).outcome.toOption.map hasErrors = some true := by
          decide +kernel
        rw [hruns] at hsaid
        exact Option.some.inj hsaid

end

end Script.Pipeline
