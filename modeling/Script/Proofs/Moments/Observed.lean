/-
Evaluation, moment by moment. Beside the machine stand the calls that are
active and the steps that were counted, and everything that there was
before: each action of a run makes a new moment. Evaluation itself is
what it always is. The record is written but never read, so leaving it
out of an observed run gives the plain one.

A call is active while the body of its function runs, however the body
ends.
-/
import Script.Proofs.Instrumented

namespace Script.Moments

open Eval

/-- A moment of a run. -/
structure Moment where
  machine : Machine
  /-- The calls that are active, the innermost one first. -/
  calls : List Span
  /-- The steps counted so far, the latest one first. -/
  ticks : List Span

/-- A call begins to be active. -/
def Moment.enter (call : Span) (m : Moment) : Moment :=
  { m with calls := call :: m.calls }

/-- The innermost call is over. -/
def Moment.leave (m : Moment) : Moment := { m with calls := m.calls.tail }

/-- The moments of a run up to now, the latest one first. -/
structure Record where
  now : Moment
  past : List Moment

/-- An action of a running program under observation. -/
abbrev Observed := EStateM Stop Record

/-- Before a program runs: no call is active, and no step is counted. -/
def Record.start (heap : Heap) (sink : Sink) : Record :=
  ⟨⟨⟨heap, sink, 0⟩, [], []⟩, []⟩

/-- The next moment. -/
def Record.next (r : Record) (m : Moment) : Record := ⟨m, r.now :: r.past⟩

/-- The machine as it is now. -/
def Record.machine (r : Record) : Machine := r.now.machine

/-- All moments. -/
def Record.moments (r : Record) : List Moment := r.now :: r.past

namespace Observed

variable {α : Type}

-- =============================================================== actions

/-- An action that changes the machine, with what else changes. -/
def after (note : Moment → Moment) (x : Run α) : Observed α := fun r =>
  match x r.now.machine with
  | .ok a machine => .ok a (r.next { note r.now with machine })
  | .error e machine => .error e (r.next { note r.now with machine })

/-- An action that changes the machine only. -/
def plain (x : Run α) : Observed α := after id x

/-- Counts a step. -/
def tick (limits : Limits) (span : Span) : Observed Unit :=
  after (fun m => { m with ticks := span :: m.ticks }) (Run.tick limits span)

/-- Runs the body of a function, with its call active. -/
def during (call : Span) (body : Observed α) : Observed α := fun r =>
  match body (r.next (r.now.enter call)) with
  | .ok a r => .ok a (r.next r.now.leave)
  | .error e r => .error e (r.next r.now.leave)

/-- The place where the body of a function runs. -/
def enter (limits : Limits) (place : Place) (c : Closure)
    (arguments : List Value) (call : Span) : Observed Place :=
  enterBy (fun _ => plain)
    (fun inner x v => plain (Run.define inner x.name v))
    limits place c arguments call

/-- What evaluation is made of under observation. -/
def primitives : Primitives Place Record where
  plain place x := plain (x place)
  tick limits _ := tick limits
  block place body := do
    body ⟨← plain (Run.child place.scope), place.depth⟩
  call limits place c arguments span body := do
    during span (body (← enter limits place c arguments span))

-- ============================================================ evaluation

/-- The value of an expression. -/
def eval (limits : Limits) (fuel : Nat) (place : Place) (e : Expr) :
    Observed Value :=
  primitives.eval limits fuel place e

/-- Runs a statement. -/
def exec (limits : Limits) (fuel : Nat) (place : Place) (s : Stmt) :
    Observed Flow :=
  primitives.exec limits fuel place s

/-- Runs the statements at the top of a program. -/
def topLevel (limits : Limits) (fuel : Nat) (place : Place) (last : Value)
    (ss : List Stmt) : Observed Value :=
  primitives.topLevel limits fuel place last ss

/-- Runs a program. -/
def program (limits : Limits) (fuel : Nat) (globals : ScopeId)
    (p : Program) : Observed Value :=
  primitives.program limits fuel ⟨globals, 0⟩ p

-- =============================================================== erasure

/-- An outcome without the record. -/
def erase : EStateM.Result Stop Record α → EStateM.Result Stop Machine α :=
  forget Record.machine

/-- The record of a run, however it ends. -/
def recordOf : EStateM.Result Stop Record α → Record
  | .ok _ r => r
  | .error _ r => r

theorem erases_after (note : Moment → Moment) (x : Run α) :
    Erases Record.machine (after note x) x := by
  intro r
  show forget Record.machine (after note x r) = x r.now.machine
  unfold Observed.after
  cases x r.now.machine with
  | ok a m => rfl
  | error e m => rfl

theorem erases_tick (limits : Limits) (span : Span) :
    Erases Record.machine (tick limits span) (Run.tick limits span) :=
  erases_after _ _

theorem erases_during {x : Observed α} {y : Run α} (call : Span)
    (h : Erases Record.machine x y) :
    Erases Record.machine (during call x) y := by
  intro r
  refine .trans ?_ (h (r.next (r.now.enter call)))
  unfold Observed.during
  cases x (r.next (r.now.enter call)) with
  | ok a u => rfl
  | error e u => rfl

/-- Watching an action changes nothing. -/
theorem primitives_mirrors : primitives.Mirrors fun place x y =>
    Erases Record.machine x (y place) where
  toComposes := .erases Record.machine
  plain place x := erases_after id (x place)
  tick limits _ := erases_tick limits
  lookup _ _ := erases_after _ _
  assign _ _ _ := erases_after _ _
  define place x v := erases_after id (Run.define place x.name v)
  declare place d := erases_after id (Run.declare place d)
  block _ _ _ hbody := .bind (erases_after _ _) fun _ => hbody _
  call limits place c vs span _ _ hbody :=
    .bind (.enterBy (fun _ => erases_after id)
      (fun _ _ _ => erases_after _ _) limits place c vs span)
      fun inner => erases_during span (hbody inner)
  valued := id

/-- An observed run of a program is a run of the program. -/
theorem program_erases (limits : Limits) (fuel : Nat) (globals : ScopeId)
    (p : Program) :
    Erases Record.machine (program limits fuel globals p)
      (Eval.program limits fuel globals p) :=
  primitives_mirrors.program_erases limits fuel globals p

end Observed

end Script.Moments
