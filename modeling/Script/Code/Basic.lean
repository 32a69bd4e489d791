/-
Stack code: a program as instructions for a machine with a stack. Each
function has a list of instructions and numbered slots for its own
variables, the first of which hold its arguments; the variables of the
main function are the globals. Constants are kept in one pool for the
whole program.
-/
import Script.Tree.Basic

namespace Script.Code

/-- A value that instructions can push. -/
inductive Constant where
  | number (x : Float)
  | string (s : String)
  | bool (b : Bool)
  | nil
deriving DecidableEq, Repr

/-- An instruction. Jumps go to a place in the list of the same
function. -/
inductive Instr where
  /-- Pushes a constant. -/
  | pushConst (index : Nat)
  /-- Pushes the value of a global. -/
  | loadGlobal (slot : Nat)
  /-- Pops a value into a global. -/
  | storeGlobal (slot : Nat)
  /-- Pushes the value of a local variable. -/
  | loadLocal (slot : Nat)
  /-- Pops a value into a local variable. -/
  | storeLocal (slot : Nat)
  /-- Pushes a function. -/
  | makeFunction (index : Nat)
  /-- Replaces the topmost value by what an operator makes of it. -/
  | unary (op : UnaryOp)
  /-- Replaces the two topmost values by what an operator makes of
  them. -/
  | binary (op : BinaryOp)
  | jump (target : Nat)
  /-- Pops a truth value and jumps if it is false. -/
  | jumpIfFalse (target : Nat)
  /-- Drops the topmost value. -/
  | pop
  /-- Pops a value and writes it on a line. -/
  | print
  /-- Calls the function below so many arguments. -/
  | call (arguments : Nat)
  /-- Pops the result and leaves the function. -/
  | leave
deriving DecidableEq, Repr

/-- A function in code. -/
structure Function where
  name : String
  arity : Nat
  /-- The names of the slots, those of the parameters first. -/
  locals : List String
  code : List Instr
deriving DecidableEq, Repr

end Code

/-- A program in code. Its first function is the main one. -/
structure Code where
  constants : List Code.Constant
  globals : List String
  functions : List Code.Function
deriving DecidableEq, Repr

namespace Code

/-- The name of the function that runs first. -/
def mainName : String := "<main>"

/-- The number of instructions in all functions. -/
def size (c : Code) : Nat := (c.functions.flatMap (·.code)).length

end Code

end Script
