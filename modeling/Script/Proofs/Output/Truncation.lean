/-
The pipeline, with its output going to a sink without a limit and to one
with room for a number of bytes. Where a write is refused, the limited run
ends with that as the reason; or the program was writing, and then the
refusal is among the diagnostics. The stages behind the program have no
room left, so they write nothing, and drop no diagnostic.

A run has a patience, which is enough for programs that end; all patience
that is enough gives the same run.
-/
import Script.Proofs.Budget.Sessions
import Script.Proofs.Output.Runs
import Script.Proofs.Stages
import Script.Proofs.Upholds

namespace Script.Pipeline

open Script.Action

variable {n : Nat} {α β : Type} {Q : α → Prop} {R : β → Prop}

-- ============================================================ outcomes

/-- The sink behind an action, however the action ended. -/
def sinkBehind : EStateM.Result Host.Fault Sink α → Sink
  | .ok _ s => s
  | .error _ s => s

/-- The outcomes of an action on the two sinks: the same; or a write was
refused, which the second one says, or its value does. -/
inductive Cut (n : Nat) (Q : α → Prop) :
    EStateM.Result Host.Fault Sink α → EStateM.Result Host.Fault Sink α →
      Prop
  | ok {a : α} {s t : Sink} (h : s.Keeps n t) : Cut n Q (.ok a s) (.ok a t)
  | error (f : Host.Fault) {s t : Sink} (h : s.Keeps n t) :
      Cut n Q (.error f s) (.error f t)
  | refused {r : EStateM.Result Host.Fault Sink α} (reason : String)
      {t : Sink} (h : (sinkBehind r).Full n t) :
      Cut n Q r (.error (.output reason) t)
  | told {r : EStateM.Result Host.Fault Sink α} {a : α} {t : Sink}
      (ha : Q a) (h : (sinkBehind r).Full n t) : Cut n Q r (.ok a t)

/-- An action with such outcomes. -/
structure Cuts (n : Nat) (Q : α → Prop) (x : Writing α) : Prop where
  growing : ∀ s : Sink, s.Extends (sinkBehind (x s))
  cut : ∀ s t : Sink, s.Keeps n t → Cut n Q (x s) (x t)

/-- An action that has no room to write: it ends with that as the reason,
or with a value of which `Q` holds. -/
def Shut (Q : α → Prop) (x : Writing α) : Prop :=
  ∀ t : Sink, t.room = some 0 →
    Upholds (· = t) (fun f _ => ∃ reason, f = .output reason) Q x

namespace Shut

theorem pure {a : α} (ha : Q a) : Shut Q (pure a : Writing α) :=
  fun _ _ => .pure ha

theorem bind {x : Writing α} {f : α → Writing β} (hx : Shut Q x)
    (hf : ∀ a, Q a → Shut R (f a)) : Shut R (x >>= f) :=
  fun t ht => (hx t ht).bind fun a ha => hf a ha t ht

theorem ite {c : Prop} [Decidable c] {x y : Writing α} (hx : Shut Q x)
    (hy : Shut Q y) : Shut Q (if c then x else y) :=
  fun t ht => .ite (fun _ => hx t ht) fun _ => hy t ht

theorem write (text : String) : Shut (fun _ => True) (write text) := by
  intro t ht
  refine .bind (Q := fun _ => True) (.modifyGet ?_) fun taken _ => ?_
  · rintro _ rfl
    exact ⟨Sink.write_of_room_eq_zero ht text, trivial⟩
  · cases taken with
    | true => exact .pure trivial
    | false => exact .throw fun _ _ => ⟨_, rfl⟩

end Shut

namespace Cuts

theorem pure (a : α) : Cuts n Q (pure a : Writing α) :=
  ⟨fun s => .refl s, fun _ _ h => .ok h⟩

theorem fails (f : Host.Fault) : Cuts n Q (throw f : Writing α) :=
  ⟨fun s => .refl s, fun _ _ h => .error f h⟩

/-- What follows only adds to the output. -/
theorem extends_bind {f : α → Writing β} (x : Writing α)
    (hf : ∀ a, Cuts n R (f a)) (s : Sink) :
    (sinkBehind (x s)).Extends (sinkBehind (EStateM.bind x f s)) := by
  unfold EStateM.bind
  cases x s with
  | ok a u => exact (hf a).growing u
  | error e u => exact .refl u

/-- What follows on a value that tells of the refusal has no room to
write. -/
theorem bind {x : Writing α} {f : α → Writing β} (hx : Cuts n Q x)
    (hf : ∀ a, Cuts n R (f a)) (hshut : ∀ a, Q a → Shut R (f a)) :
    Cuts n R (x >>= f) where
  growing s := (hx.growing s).trans (extends_bind x hf s)
  cut s t h := by
    have hrun := hx.cut s t h
    have hmore := extends_bind x hf s
    show Cut n R (EStateM.bind x f s) (EStateM.bind x f t)
    unfold EStateM.bind at hmore ⊢
    generalize x s = r, x t = r' at hrun hmore
    cases hrun with
    | ok h => exact (hf _).cut _ _ h
    | error e h => exact .error e h
    | refused reason hfull => exact .refused reason (hfull.extends hmore)
    | @told _ a t ha hfull =>
        have hkept := hshut a ha t hfull.room t rfl
        dsimp only
        cases hbehind : f a t with
        | ok b u =>
            rw [hbehind] at hkept
            obtain ⟨rfl, hb⟩ := hkept
            exact .told hb (hfull.extends hmore)
        | error e u =>
            rw [hbehind] at hkept
            obtain ⟨rfl, reason, rfl⟩ := hkept
            exact .refused reason (hfull.extends hmore)

/-- An action whose value does not tell of a refusal. -/
theorem andThen {x : Writing α} {f : α → Writing β}
    (hx : Cuts n (fun _ => False) x) (hf : ∀ a, Cuts n R (f a)) :
    Cuts n R (x >>= f) :=
  hx.bind hf fun _ ha => ha.elim

theorem ite {c : Prop} [Decidable c] {x y : Writing α} (hx : Cuts n Q x)
    (hy : Cuts n Q y) : Cuts n Q (if c then x else y) := by
  by_cases hc : c
  · rw [if_pos hc]
    exact hx
  · rw [if_neg hc]
    exact hy

/-- Writing tells of a refusal by ending the run. -/
theorem write {Q : Unit → Prop} (text : String) :
    Cuts n Q (write text) where
  growing s := by
    have hs := s.extends_write text
    show s.Extends (sinkBehind ((unless (s.write text).1 do
      throw (.output Sink.refusal) : Writing Unit) (s.write text).2))
    cases (s.write text).1 with
    | true => exact hs
    | false => exact hs
  cut s t h := by
    show Cut n Q
      ((unless (s.write text).1 do
        throw (.output Sink.refusal) : Writing Unit) (s.write text).2)
      ((unless (t.write text).1 do
        throw (.output Sink.refusal) : Writing Unit) (t.write text).2)
    rw [Sink.write_of_room_eq_none h.unlimited]
    rcases h.write text with ⟨htaken, hsink⟩ | ⟨htaken, hsink⟩
    · rw [htaken]
      exact .ok hsink
    · rw [htaken]
      exact .refused _ hsink

end Cuts

-- ============================================================== stages

/-- Diagnostics that tell of a refused write. -/
def Told (ds : List Diagnostic) : Prop :=
  ∃ d ∈ ds, d.isError = true ∧ d.code = some "E0405"

variable (mode : Mode) (limits : Eval.Limits) (patience : Nat)
  (p : Program)

theorem header_cuts {Q : Unit → Prop} (stage : String) :
    Cuts n Q (header mode stage) :=
  .ite (.write _) (.pure ())

theorem header_shut (stage : String) :
    Shut (fun _ => True) (header mode stage) :=
  .ite (.write _) (.pure trivial)

/-- Executing a program tells of a refusal by failing. -/
theorem execute_cuts : Cuts n Told (execute limits patience p) := by
  unfold execute
  refine .bind (Q := fun o => ∃ span, o = .failed
    ((Eval.Fault.output Sink.refusal).report.at span)) ⟨?_, ?_⟩ ?_ ?_
  · intro s
    exact Session.extends_run Session.fresh limits patience p s
  · intro s t h
    rcases Session.run_cut Session.fresh limits patience p h with
      ⟨houtcome, hsink⟩ | ⟨houtcome, hsink⟩
    · show Cut n _
        (.ok (Session.fresh.run limits patience p s).1
          (Session.fresh.run limits patience p s).2.2)
        (.ok (Session.fresh.run limits patience p t).1
          (Session.fresh.run limits patience p t).2.2)
      rw [houtcome]
      exact .ok hsink
    · exact .told houtcome hsink
  · intro outcome
    cases outcome with
    | failed d => exact .pure _
    | starved => exact .fails _
    | value v =>
        exact .ite (.pure _) (.andThen (.write _) fun _ => .pure _)
  · rintro _ ⟨span, rfl⟩
    exact .pure ⟨_, List.mem_singleton_self _, rfl, rfl⟩

theorem compile_cuts {Q : List Diagnostic → Prop} :
    Cuts n Q (compile p) := by
  unfold compile
  dsimp only
  cases (Code.ofProgram p).1 with
  | none => exact .pure _
  | some code => exact .andThen (.write _) fun _ => .pure _

theorem compile_shut : Shut (fun _ => True) (compile p) := by
  unfold compile
  dsimp only
  cases (Code.ofProgram p).1 with
  | none => exact .pure trivial
  | some code => exact .bind (.write _) fun _ _ => .pure trivial

theorem compiling_cuts (said : List Diagnostic) :
    Cuts n Told (compiling mode p said) :=
  .ite (.andThen (header_cuts mode _) fun _ =>
    .andThen (compile_cuts p) fun _ => .pure _) (.pure _)

/-- Behind a program whose output was refused, the diagnostics still tell
of it. -/
theorem compiling_shut {said : List Diagnostic} (h : Told said) :
    Shut Told (compiling mode p said) := by
  refine .ite (.bind (header_shut mode _) fun _ _ =>
    .bind (compile_shut p) fun ds _ => .pure ?_) (.pure h)
  obtain ⟨d, hd, htold⟩ := h
  exact ⟨d, List.mem_append_left ds hd, htold⟩

theorem executing_cuts (said : List Diagnostic) :
    Cuts n Told (executing mode limits patience p said) := by
  refine .ite (.andThen (header_cuts mode _) fun _ => ?_)
    (compiling_cuts mode p said)
  refine (execute_cuts limits patience p).bind
    (fun ds => compiling_cuts mode p _) fun ds hds => ?_
  obtain ⟨d, hd, htold⟩ := hds
  exact compiling_shut mode p ⟨d, List.mem_append_right said hd, htold⟩

theorem showing_cuts (own : Mode) (title text : String)
    (said : List Diagnostic) {rest : Writing (List Diagnostic)}
    (hrest : Cuts n Told rest) :
    Cuts n Told (showing mode own title text said rest) :=
  .ite (.andThen (header_cuts mode _) fun _ => .andThen (.write _) fun _ =>
    .ite hrest (.pure _)) hrest

theorem stages_cuts (file : FileId) (text : String) :
    Cuts n Told (stages mode limits patience file text) := by
  rw [stages_eq]
  exact showing_cuts mode _ _ _ _ <| showing_cuts mode _ _ _ _ <|
    showing_cuts mode _ _ _ _ <|
      .ite (.pure _) (executing_cuts mode limits patience _ _)

-- ============================================================ patience

/-- Two actions of which the second one does what the first one does, if
that is not cut off. -/
def Lasts (x y : Writing α) : Prop :=
  ∀ s, (∀ t, x s ≠ .error .unfinished t) → y s = x s

namespace Lasts

theorem refl (x : Writing α) : Lasts x x := fun _ _ => rfl

theorem bind {x y : Writing α} {f g : α → Writing β} (hx : Lasts x y)
    (hf : ∀ a, Lasts (f a) (g a)) : Lasts (x >>= f) (y >>= g) := by
  intro s h
  show EStateM.bind y g s = EStateM.bind x f s
  have hbind : ∀ t, EStateM.bind x f s ≠ .error .unfinished t := h
  unfold EStateM.bind at hbind ⊢
  have hs := hx s
  cases hrun : x s with
  | ok a u =>
      rw [hrun] at hs hbind
      rw [hs fun _ h => nomatch h]
      exact hf a u hbind
  | error e u =>
      rw [hrun] at hs hbind
      have hfinished (t : Sink) :
          (.error e u : EStateM.Result Host.Fault Sink α)
            ≠ .error .unfinished t := by
        rintro ⟨⟩
        exact hbind u rfl
      rw [hs hfinished]

theorem ite {c : Prop} [Decidable c] {x y x' y' : Writing α}
    (hx : Lasts x x') (hy : Lasts y y') :
    Lasts (if c then x else y) (if c then x' else y') := by
  by_cases hc : c
  · rw [if_pos hc, if_pos hc]
    exact hx
  · rw [if_neg hc, if_neg hc]
    exact hy

end Lasts

section

variable {mode : Mode} {limits : Eval.Limits} {p : Program} {a b : Nat}

theorem execute_lasts
    (hle : Session.fuel limits a ≤ Session.fuel limits b) :
    Lasts (execute limits a p) (execute limits b p) := by
  intro s h
  have hsame (hne : (Session.fresh.run limits a p s).1 ≠ .starved) :
      Session.fresh.run limits b p s = Session.fresh.run limits a p s := by
    rw [Session.run_eq, Session.taken_ne_starved] at hne
    rw [Session.run_eq, Session.run_eq, Session.outcome_of_le hle hne]
  have hrun {α : Type} (patience : Nat) (f : Outcome → Writing α) :
      ((modifyGet fun sink =>
          ((Session.fresh.run limits patience p sink).1,
            (Session.fresh.run limits patience p sink).2.2)) >>= f) s
        = f (Session.fresh.run limits patience p s).1
          (Session.fresh.run limits patience p s).2.2 := rfl
  unfold execute at h ⊢
  rw [hrun] at h ⊢
  rw [hrun, hsame]
  intro hstarved
  rw [hstarved] at h
  exact h _ rfl

theorem stages_lasts (mode : Mode)
    (hle : Session.fuel limits a ≤ Session.fuel limits b) (file : FileId)
    (text : String) :
    Lasts (stages mode limits a file text)
      (stages mode limits b file text) := by
  have hshowing (own : Mode) (title text : String) (said : List Diagnostic)
      {x y : Writing (List Diagnostic)} (h : Lasts x y) :
      Lasts (showing mode own title text said x)
        (showing mode own title text said y) :=
    .ite (.bind (.refl _) fun _ => .bind (.refl _) fun _ =>
      .ite h (.refl _)) h
  rw [stages_eq, stages_eq]
  refine hshowing _ _ _ _ <| hshowing _ _ _ _ <| hshowing _ _ _ _ <|
    .ite (.refl _) (.ite ?_ (.refl _))
  exact .bind (.refl _) fun _ => .bind (execute_lasts hle) fun _ => .refl _

end

-- ================================================================ runs

/-- An outcome that tells of a refused write, as the reason why there is
no other one or among its diagnostics. -/
def Tells : Except Host.Fault (List Diagnostic) → Prop
  | .error f => ∃ reason, f = .output reason
  | .ok ds => Told ds

/-- A run that comes to an end, with enough patience. -/
def Ends (mode : Mode) (sources : Sources) (file : FileId)
    (resolver : Clean.Resolver) (limits : Eval.Limits) (sink : Sink)
    (r : Result) : Prop :=
  ∃ patience, run mode sources file resolver limits patience sink = r
    ∧ r.outcome ≠ .error .unfinished

section

variable {mode : Mode} {sources : Sources} {file : FileId}
  {resolver : Clean.Resolver} {limits : Eval.Limits} {sink : Sink}
  {r r' : Result}

/-- With more patience, a run that has ended ends the same. -/
theorem run_of_le {a b : Nat}
    (hle : Session.fuel limits a ≤ Session.fuel limits b)
    (h : (run mode sources file resolver limits a sink).outcome
      ≠ .error .unfinished) :
    run mode sources file resolver limits b sink
      = run mode sources file resolver limits a sink := by
  unfold run at h ⊢
  split at h
  case h_1 => rfl
  case h_2 cleaned sources' _ =>
      dsimp only at h ⊢
      have hstages := stages_lasts mode hle cleaned.file
        (sources'.textOf cleaned.file) sink
      rw [hstages]
      intro t hunfinished
      rw [hunfinished] at h
      exact h rfl

/-- All runs that end are one. -/
theorem Ends.unique
    (h : Ends mode sources file resolver limits sink r)
    (h' : Ends mode sources file resolver limits sink r') : r' = r := by
  obtain ⟨a, rfl, ha⟩ := h
  obtain ⟨b, rfl, hb⟩ := h'
  rcases Nat.le_total (Session.fuel limits a) (Session.fuel limits b)
    with hle | hle
  · exact run_of_le hle ha
  · exact (run_of_le hle hb).symm

/-- A run with limited room is the same, or it tells of a refused write,
with as much of the output as there was room for. -/
theorem run_cut (mode : Mode) (sources : Sources) (file : FileId)
    (resolver : Clean.Resolver) (limits : Eval.Limits) (patience : Nat)
    {s t : Sink} (h : s.Keeps n t) :
    let full := run mode sources file resolver limits patience s
    let cut := run mode sources file resolver limits patience t
    cut.sources = full.sources
      ∧ (cut.outcome = full.outcome ∧ full.sink.Keeps n cut.sink
        ∨ Tells cut.outcome ∧ full.sink.Full n cut.sink) := by
  unfold run
  dsimp only
  split
  case h_1 => exact ⟨rfl, .inl ⟨rfl, h⟩⟩
  case h_2 cleaned sources' _ =>
      have hcut := (stages_cuts mode limits patience cleaned.file
        (sources'.textOf cleaned.file)).cut s t h
      generalize stages mode limits patience cleaned.file
        (sources'.textOf cleaned.file) s = x at hcut ⊢
      generalize stages mode limits patience cleaned.file
        (sources'.textOf cleaned.file) t = y at hcut ⊢
      cases hcut with
      | ok h => exact ⟨rfl, .inl ⟨rfl, h⟩⟩
      | error f h => exact ⟨rfl, .inl ⟨rfl, h⟩⟩
      | refused reason hfull =>
          cases x <;> exact ⟨rfl, .inr ⟨⟨reason, rfl⟩, hfull⟩⟩
      | told hds hfull =>
          cases x <;> exact ⟨rfl, .inr ⟨hds, hfull⟩⟩

/-- A sink that keeps what fits into `n` bytes, and refuses every further
write, has the first `n` bytes of the output. If all of it fits, the run
is the one without a limit; if not, its outcome tells so. -/
theorem Ends.truncated {full : Result}
    (h : Ends mode sources file resolver limits .unlimited full) (n : Nat) :
    ∃ cut : Result,
      (∀ r, Ends mode sources file resolver limits (.limited n) r ↔ r = cut)
      ∧ cut.sink.written = full.sink.written.extract 0 n
      ∧ (full.sink.written.size ≤ n →
        cut.outcome = full.outcome ∧ cut.sources = full.sources)
      ∧ (n < full.sink.written.size → Tells cut.outcome) := by
  obtain ⟨patience, rfl, hended⟩ := h
  obtain ⟨hsources, hcut⟩ := run_cut mode sources file resolver limits
    patience (Sink.keeps_limited n)
  generalize hcutrun : run mode sources file resolver limits patience
    (.limited n) = cut at hsources hcut
  have hends : Ends mode sources file resolver limits (.limited n) cut := by
    refine ⟨patience, hcutrun, fun hunfinished => ?_⟩
    rcases hcut with ⟨hsame, -⟩ | ⟨htells, -⟩
    · exact hended (hsame ▸ hunfinished)
    · rw [hunfinished] at htells
      obtain ⟨reason, h⟩ := htells
      cases h
  refine ⟨cut, fun r => ⟨hends.unique, ?_⟩, ?_⟩
  · rintro rfl
    exact hends
  rcases hcut with ⟨hsame, hkeeps⟩ | ⟨htells, hfull⟩
  · exact ⟨hkeeps.extract, fun _ => ⟨hsame, hsources⟩,
      fun hlt => absurd hkeeps.fits (Nat.not_le_of_lt hlt)⟩
  · exact ⟨hfull.written, fun hle => absurd hfull.short (Nat.not_lt_of_le hle),
      fun _ => htells⟩

/-- A program that prints two lines, into four bytes: the second line is
cut off, and this is reported. -/
theorem truncated_second_line :
    let sources := (Sources.empty.add "main" "print \"ab\"; print \"cd\";").2
    let full := run .execute sources 0 (fun _ _ => none) ⟨some 9, 1⟩ 0
      .unlimited
    full.sink.written.toList = "ab\ncd\n".toUTF8.toList
      ∧ ∃ cut : Result,
        Ends .execute sources 0 (fun _ _ => none) ⟨some 9, 1⟩ (.limited 4) cut
          ∧ cut.sink.written = full.sink.written.extract 0 4
          ∧ Tells cut.outcome := by
  intro sources full
  have hended : full.outcome ≠ .error .unfinished := by decide +kernel
  have hends : Ends .execute sources 0 (fun _ _ => none) ⟨some 9, 1⟩
      .unlimited full :=
    ⟨0, rfl, hended⟩
  obtain ⟨cut, hcut, hwritten, -, htells⟩ := hends.truncated 4
  exact ⟨by decide +kernel, cut, (hcut cut).2 rfl, hwritten,
    htells (by decide +kernel)⟩

end

end Script.Pipeline
