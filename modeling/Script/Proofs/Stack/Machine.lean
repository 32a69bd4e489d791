/-
The machine that stack code is for. It has a stack of values and numbered
slots for each call that is under way, one set of globals, and the text
printed so far. Each instruction does what `Code.Instr` says of it; one
that does not apply (a slot that was never stored to, a jump on something
that is not a truth value, a call of something that is not a function)
leaves the machine stuck, and so does a missing instruction.

Operators and texts are those of the language: an item of the stack is
handed to them as the value that it stands for.
-/
import Script.Code.Basic
import Script.Operation

namespace Script

open Code

/-- The value that a constant stands for. -/
def Code.Constant.value : Constant → Value
  | .number x => .number x
  | .string s => .string s
  | .bool b => .bool b
  | .nil => .nil

/-- The constant for a value, unless it is a function. -/
def Code.Constant.ofValue? : Value → Option Constant
  | .number x => some (.number x)
  | .string s => some (.string s)
  | .bool b => some (.bool b)
  | .nil => some .nil
  | .function _ => none

namespace Stack

/-- What the stack, the slots and the globals hold: constants, and
functions by their place in the code. -/
inductive Item where
  | constant (k : Constant)
  | function (index : Nat)
deriving DecidableEq, Repr

/-- An item as the operators see it. Of a function they see its name, and
whether it is the same as another one. -/
def Item.value (c : Code) : Item → Value
  | .constant k => k.value
  | .function index =>
      let name := ((c.functions[index]?).map (·.name)).getD ""
      let here : Span := .point 0 index
      .function ⟨⟨⟨name, here⟩, [], ⟨[], here⟩, here⟩, 0, false⟩

/-- A call that is under way. -/
structure Call where
  code : List Instr
  /-- The place of the next instruction. -/
  place : Nat
  slots : List (Option Item)
  stack : List Item
deriving DecidableEq, Repr

/-- The machine at one moment. -/
structure State where
  current : Call
  /-- The calls that wait for a result, the innermost one first. -/
  callers : List Call
  globals : List (Option Item)
  printed : String
deriving DecidableEq, Repr

/-- What becomes of a machine. -/
inductive Outcome where
  | running (s : State)
  | finished (result : Item) (printed : String)
  | stuck
deriving DecidableEq, Repr

namespace State

/-- Goes on at a place with a stack. -/
def goOn (s : State) (place : Nat) (stack : List Item) : Outcome :=
  .running { s with current := { s.current with place, stack } }

/-- Goes on behind the instruction with a stack. -/
def next (s : State) (stack : List Item) : Outcome :=
  s.goOn (s.current.place + 1) stack

/-- Goes on with the value of a variable on the stack, if it has one. -/
def load (s : State) (found : Option (Option Item)) : Outcome :=
  match found with
  | some (some item) => s.next (item :: s.current.stack)
  | _ => .stuck

/-- Calls a function with the topmost items as its arguments. -/
def call (c : Code) (s : State) (count : Nat) : Outcome :=
  match s.current.stack.drop count with
  | .function index :: stack =>
      match c.functions[index]? with
      | some f =>
          if f.arity = count ∧ count ≤ s.current.stack.length then
            let arguments := (s.current.stack.take count).reverse
            let rest := List.replicate (f.locals.length - count) none
            .running { s with
              current := ⟨f.code, 0, arguments.map some ++ rest, []⟩
              callers :=
                { s.current with place := s.current.place + 1, stack }
                  :: s.callers }
          else .stuck
      | none => .stuck
  | _ => .stuck

/-- Leaves a function with a result. -/
def leave (s : State) (result : Item) : Outcome :=
  match s.callers with
  | [] => .finished result s.printed
  | caller :: callers =>
      .running { s with
        current := { caller with stack := result :: caller.stack }
        callers }

/-- Goes on with the outcome of an operator on the stack. -/
def operate (s : State) (stack : List Item) :
    Except OperandFault Value → Outcome
  | .ok v =>
      match Constant.ofValue? v with
      | some k => s.next (.constant k :: stack)
      | none => .stuck
  | .error _ => .stuck

end State

/-- One instruction. -/
def step (c : Code) (s : State) : Outcome :=
  let stack := s.current.stack
  match s.current.code[s.current.place]? with
  | none => .stuck
  | some instr =>
      match instr, stack with
      | .pushConst index, _ =>
          match c.constants[index]? with
          | some k => s.next (.constant k :: stack)
          | none => .stuck
      | .loadGlobal slot, _ => s.load s.globals[slot]?
      | .loadLocal slot, _ => s.load s.current.slots[slot]?
      | .storeGlobal slot, item :: stack =>
          if slot < s.globals.length then
            { s with globals := s.globals.set slot (some item) }.next stack
          else .stuck
      | .storeLocal slot, item :: stack =>
          if slot < s.current.slots.length then
            { s with current :=
              { s.current with
                slots := s.current.slots.set slot (some item) } }.next stack
          else .stuck
      | .makeFunction index, _ =>
          if index < c.functions.length then s.next (.function index :: stack)
          else .stuck
      | .unary op, item :: stack =>
          s.operate stack (op.apply (item.value c))
      | .binary op, right :: left :: stack =>
          s.operate stack (op.apply (left.value c) (right.value c))
      | .jump target, _ => s.goOn target stack
      | .jumpIfFalse target, .constant (.bool b) :: stack =>
          if b then s.next stack else s.goOn target stack
      | .pop, _ :: stack => s.next stack
      | .print, item :: stack =>
          { s with printed :=
            s.printed ++ ((item.value c).text ++ "\n") }.next stack
      | .call count, _ => s.call c count
      | .leave, result :: _ => s.leave result
      | _, _ => .stuck

/-- So many instructions, or fewer if the machine stops before. -/
def run (c : Code) : Nat → State → Outcome
  | 0, s => .running s
  | n + 1, s =>
      match step c s with
      | .running s => run c n s
      | o => o

/-- The machine in front of the first instruction of the main
function. -/
def start (c : Code) : State where
  current := ⟨((c.functions[0]?).map (·.code)).getD [], 0, [], []⟩
  callers := []
  globals := List.replicate c.globals.length none
  printed := ""

end Stack

end Script
