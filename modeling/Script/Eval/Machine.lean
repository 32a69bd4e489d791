/-
The state of a running program, and the steps that all of evaluation is
made of: counting, looking up, binding, writing, and failing.

A run can end early in two ways. A fault ends it with a report. Apart
from that the evaluator is given fuel, which bounds how deep it recurses;
a run that needs more is cut off, and no answer is taken from it.
-/
import Script.Eval.Fault
import Script.Scope
import Script.Sink

namespace Script.Eval

/-- How much a program may do: steps, if they are limited, and calls
inside of calls. -/
structure Limits where
  steps : Option Nat
  callDepth : Nat
deriving DecidableEq, Repr

/-- The limits where nobody sets others. -/
def Limits.standard : Limits := ⟨some 1000000, 200⟩

/-- Where evaluation stands: the innermost scope, and the number of
calls around it. -/
structure Place where
  scope : ScopeId
  depth : Nat
deriving DecidableEq, Repr

/-- What a running program changes. -/
structure Machine where
  heap : Heap
  sink : Sink
  steps : Nat

/-- Why a run ends early. -/
inductive Stop where
  | fault (f : Fault) (span : Span)
  /-- The fuel was used up. -/
  | starved
deriving DecidableEq, Repr

/-- How a statement ends. -/
inductive Flow where
  | next
  | returned (v : Value)

/-- An action of a running program. -/
abbrev Run := EStateM Stop Machine

namespace Run

/-- Ends the run with a fault. -/
def fail (f : Fault) (span : Span) : Run α := throw (.fault f span)

/-- Counts a step; one more than the limit is a fault. -/
def tick (limits : Limits) (span : Span) : Run Unit := do
  modify fun m => { m with steps := m.steps + 1 }
  match limits.steps with
  | some limit =>
      if limit < (← get).steps then fail (.stepLimit limit) span
  | none => pure ()

/-- The value of a variable. -/
def lookup (place : Place) (name : String) (span : Span) : Run Value := do
  match (← get).heap.get? place.scope name with
  | some v => return v
  | none => fail (.undefinedVariable name) span

/-- Binds a name in the innermost scope. -/
def define (place : Place) (name : String) (v : Value) : Run Unit :=
  modify fun m => { m with heap := m.heap.define place.scope name v }

/-- Gives a variable a new value. -/
def assign (place : Place) (target : Ident) (v : Value) : Run Unit := do
  match (← get).heap.owner? place.scope target.name with
  | some i => modify fun m => { m with heap := m.heap.define i target.name v }
  | none => fail (.undeclaredAssignment target.name) target.span

/-- Creates a scope inside of another one. -/
def child (parent : ScopeId) : Run ScopeId :=
  modifyGet fun m =>
    let (i, heap) := m.heap.child parent
    (i, { m with heap })

/-- Binds the name of a function to it, with the innermost scope
captured. -/
def declare (place : Place) (d : FnDecl) : Run Unit :=
  define place d.name.name (.function ⟨d, place.scope, false⟩)

/-- Writes a line of output. -/
def printLine (text : String) (span : Span) : Run Unit := do
  let taken ← modifyGet fun m =>
    let (taken, sink) := m.sink.write (text ++ "\n")
    (taken, { m with sink })
  unless taken do fail (.output Sink.refusal) span

/-- The outcome of an operator at a span. -/
def operation (span : Span) : Except OperandFault Value → Run Value
  | .ok v => return v
  | .error f => fail (.operands f) span

end Run

end Script.Eval
