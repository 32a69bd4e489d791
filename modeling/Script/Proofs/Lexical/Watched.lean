/-
Evaluation under observation. Beside the machine stands an account of
where its variables come from: for every name that a scope binds, the
declaration that bound it last, and for every use of a variable, the
declaration behind the binding that the use found. Evaluation itself is
what it always is. The account is written but never read, so leaving it
out of an observed run gives the plain one.
-/
import Script.Proofs.Instrumented

namespace Script.Lexical

open Eval

/-- A variable in use: the place of the name, and the declaration that
made the binding found for it. -/
structure Sighting where
  use : Span
  maker : Option Span
deriving DecidableEq, Repr

/-- A running program with the account of its variables. -/
structure Watch where
  machine : Machine
  /-- The declaration that bound a name in a scope, by the span of the
  name there. -/
  maker : ScopeId → String → Option Span
  /-- The variables used so far, the latest first. -/
  sightings : List Sighting

/-- An action of a running program under observation. -/
abbrev Watched := EStateM Stop Watch

/-- Before a program runs: an empty root scope, and nothing seen. -/
def Watch.start (sink : Sink) : Watch :=
  ⟨⟨.root, sink, 0⟩, fun _ _ => none, []⟩

namespace Watched

-- =============================================================== actions

/-- An action that leaves the account alone. -/
def plain (x : Run α) : Watched α := fun w =>
  match x w.machine with
  | .ok a m => .ok a { w with machine := m }
  | .error e m => .error e { w with machine := m }

/-- Enters the use of a variable into the account. -/
def see (place : Place) (x : Ident) : Watched Unit :=
  modify fun w =>
    match w.machine.heap.owner? place.scope x.name with
    | some i =>
        { w with sightings := ⟨x.span, w.maker i x.name⟩ :: w.sightings }
    | none => w

/-- The value of a variable. -/
def lookup (place : Place) (x : Ident) : Watched Value := do
  see place x
  plain (Run.lookup place x.name x.span)

/-- Gives a variable a new value. -/
def assign (place : Place) (target : Ident) (v : Value) : Watched Unit := do
  see place target
  plain (Run.assign place target v)

/-- Enters a declaration into the account. -/
def mark (place : Place) (x : Ident) : Watched Unit :=
  modify fun w =>
    { w with maker := fun i name =>
        if i = place.scope ∧ name = x.name then some x.span
        else w.maker i name }

/-- Binds the name of a declaration in the innermost scope. -/
def define (place : Place) (x : Ident) (v : Value) : Watched Unit := do
  mark place x
  plain (Run.define place x.name v)

/-- Binds the name of a function to it. -/
def declare (place : Place) (d : FnDecl) : Watched Unit :=
  define place d.name (.function ⟨d, place.scope, false⟩)

/-- The place where the body of a function runs. -/
def enter (limits : Limits) (place : Place) (c : Closure)
    (arguments : List Value) (call : Span) : Watched Place :=
  enterBy (fun _ => plain) define limits place c arguments call

/-- What evaluation is made of under observation. -/
def primitives : Primitives Place Watch where
  plain place x := plain (x place)
  lookup := lookup
  assign := assign
  define := define
  declare := declare
  block place body := do
    body ⟨← plain (Run.child place.scope), place.depth⟩
  call limits place c arguments span body := do
    body (← enter limits place c arguments span)

-- ============================================================ evaluation

/-- The value of an expression. -/
def eval (limits : Limits) (fuel : Nat) (place : Place) (e : Expr) :
    Watched Value :=
  primitives.eval limits fuel place e

/-- Runs a statement. -/
def exec (limits : Limits) (fuel : Nat) (place : Place) (s : Stmt) :
    Watched Flow :=
  primitives.exec limits fuel place s

/-- Runs the statements at the top of a program. -/
def topLevel (limits : Limits) (fuel : Nat) (place : Place) (last : Value)
    (ss : List Stmt) : Watched Value :=
  primitives.topLevel limits fuel place last ss

/-- Runs a program. -/
def program (limits : Limits) (fuel : Nat) (globals : ScopeId)
    (p : Program) : Watched Value :=
  primitives.program limits fuel ⟨globals, 0⟩ p

-- =============================================================== erasure

/-- An outcome without the account. -/
def erase : EStateM.Result Stop Watch α → EStateM.Result Stop Machine α :=
  forget Watch.machine

/-- The variables that a run has used, however it ends. -/
def seen : EStateM.Result Stop Watch α → List Sighting
  | .ok _ w => w.sightings
  | .error _ w => w.sightings

theorem erases_plain (x : Run α) : Erases Watch.machine (plain x) x := by
  intro w
  unfold Watched.plain
  cases x w.machine with
  | ok a m => rfl
  | error e m => rfl

theorem erases_lookup (place : Place) (x : Ident) :
    Erases Watch.machine (lookup place x)
      (Run.lookup place x.name x.span) := by
  refine .after (fun w => rfl) (fun w => ?_) (erases_plain _)
  split <;> rfl

theorem erases_assign (place : Place) (target : Ident) (v : Value) :
    Erases Watch.machine (assign place target v)
      (Run.assign place target v) := by
  refine .after (fun w => rfl) (fun w => ?_) (erases_plain _)
  split <;> rfl

theorem erases_define (place : Place) (x : Ident) (v : Value) :
    Erases Watch.machine (define place x v) (Run.define place x.name v) :=
  .after (fun _ => rfl) (fun _ => rfl) (erases_plain _)

/-- Watching an action changes nothing. -/
theorem primitives_mirrors : primitives.Mirrors fun place x y =>
    Erases Watch.machine x (y place) where
  toComposes := .erases Watch.machine
  plain place x := erases_plain (x place)
  tick _ _ _ := erases_plain _
  lookup := erases_lookup
  assign := erases_assign
  define := erases_define
  declare _ _ := erases_define _ _ _
  block _ _ _ hbody := .bind (erases_plain _) fun _ => hbody _
  call limits place c vs span _ _ hbody :=
    .bind (.enterBy (fun _ => erases_plain) erases_define limits place c vs
      span) hbody
  valued := id

/-- An observed run of a program is a run of the program. -/
theorem program_erases (limits : Limits) (fuel : Nat) (globals : ScopeId)
    (p : Program) :
    Erases Watch.machine (program limits fuel globals p)
      (Eval.program limits fuel globals p) :=
  primitives_mirrors.program_erases limits fuel globals p

end Watched

end Script.Lexical
