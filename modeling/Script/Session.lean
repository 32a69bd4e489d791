/-
Sessions: programs run one after the other with the same global
variables. A run is all or nothing for these: if it fails, each of them
is bound again to what it was before. What a failed run did to variables
of inner scopes stays.
-/
import Script.Eval.Basic

namespace Script

open Eval

/-- The scopes of all runs so far, with the one of the globals. -/
structure Session where
  heap : Heap
  globals : ScopeId

/-- How a run ends. -/
inductive Outcome where
  | value (v : Value)
  | failed (d : Diagnostic)
  /-- The run was cut off for lack of fuel. -/
  | starved

namespace Outcome

/-- The value of a run that did not fail. -/
def value? : Outcome → Option Value
  | .value v => some v
  | _ => none

/-- The report of a run that failed. -/
def diagnostics : Outcome → List Diagnostic
  | .failed d => [d]
  | _ => []

end Outcome

namespace Session

/-- A session before its first run. -/
def fresh : Session := ⟨.root, 0⟩

/-- The global variables of a session. -/
def globalBindings (s : Session) : Bindings := s.heap.bindings s.globals

/-- The fuel for a run: what a limit of steps asks for, and without one
the given patience. -/
def fuel (limits : Limits) (patience : Nat) : Nat :=
  match limits.steps with
  | some n => n + 1
  | none => patience

/-- Runs a program with the session's globals. -/
def run (s : Session) (limits : Limits) (patience : Nat) (p : Program)
    (sink : Sink) : Outcome × Session × Sink :=
  let start : Machine := ⟨s.heap, sink, 0⟩
  match Eval.program limits (fuel limits patience) s.globals p start with
  | .ok v m => (.value v, { s with heap := m.heap }, m.sink)
  | .error stop m =>
      let heap := m.heap.restore s.globals s.globalBindings
      let outcome : Outcome :=
        match stop with
        | .fault f span => .failed (f.report.at span)
        | .starved => .starved
      (outcome, { s with heap }, m.sink)

end Session

end Script
