/-
The listing of code: the constants, the globals, and the functions with
one instruction on each line. Behind an instruction that uses a number
for something stands what the number means.
-/
import Script.Number.Text
import Script.Text.Padded
import Script.Text.Quoted
import Script.Code.Basic

namespace Script.Code

/-- A constant as it would be written in a program. -/
def Constant.text : Constant → String
  | .number x => Number.text x
  | .string s => Text.quoted s
  | .bool b => if b then "true" else "false"
  | .nil => "nil"

/-- An instruction with its operand. -/
def Instr.text : Instr → String
  | .pushConst i => "push_const #" ++ toString i
  | .loadGlobal i => "load_global @" ++ toString i
  | .storeGlobal i => "store_global @" ++ toString i
  | .loadLocal i => "load_local %" ++ toString i
  | .storeLocal i => "store_local %" ++ toString i
  | .makeFunction i => "make_function " ++ toString i
  | .unary op => "unary " ++ op.text
  | .binary op => "binary " ++ op.text
  | .jump target => "jump " ++ toString target
  | .jumpIfFalse target => "jump_if_false " ++ toString target
  | .pop => "pop"
  | .print => "print"
  | .call n => "call " ++ toString n
  | .leave => "return"

/-- What the number in an instruction means. -/
def note? (c : Code) (f : Function) : Instr → Option String
  | .pushConst i => (c.constants[i]?).map Constant.text
  | .loadGlobal i | .storeGlobal i => c.globals[i]?
  | .loadLocal i | .storeLocal i => f.locals[i]?
  | .makeFunction i => (c.functions[i]?).map (·.name)
  | _ => none

/-- The line of an instruction at a place in its function. -/
def instrLine (c : Code) (f : Function) (place : Nat) (i : Instr) :
    String :=
  let note :=
    match c.note? f i with
    | some text => "  ; " ++ text
    | none => ""
  "  " ++ Text.padNumber 4 place ++ "  " ++ i.text ++ note ++ "\n"

/-- The lines of a function. -/
def functionText (c : Code) (index : Nat) (f : Function) : String :=
  "fn " ++ toString index ++ " " ++ f.name ++ " (arity "
    ++ toString f.arity ++ ", locals " ++ toString f.locals.length
    ++ "):\n"
    ++ String.join (f.code.mapIdx fun place i => c.instrLine f place i)

/-- A numbered table under a heading; nothing if it is empty. -/
def tableText (heading sign : String) (lines : List String) : String :=
  if lines.isEmpty then ""
  else
    heading ++ ":\n" ++ String.join (lines.mapIdx fun index line =>
      "  " ++ sign ++ toString index ++ " = " ++ line ++ "\n")

/-- The listing of a program in code. -/
def listing (c : Code) : String :=
  tableText "constants" "#" (c.constants.map Constant.text)
    ++ tableText "globals" "@" c.globals
    ++ String.join (c.functions.mapIdx fun index f =>
      c.functionText index f)

end Script.Code
