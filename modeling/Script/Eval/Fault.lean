/-
What can go wrong while a program runs. The first fault ends the run.
-/
import Script.Operation

namespace Script.Eval

/-- A fault of a running program. -/
inductive Fault where
  | undefinedVariable (name : String)
  | undeclaredAssignment (name : String)
  | operands (f : OperandFault)
  /-- The operand of an operator that may leave its right operand
  alone. -/
  | notTruth (op : BinaryOp) (found : ValueType)
  /-- The condition behind a keyword. -/
  | condition (keyword : String) (found : ValueType)
  | notCallable (found : ValueType)
  | argumentCount (name : String) (expected found : Nat)
  | stepLimit (limit : Nat)
  | callDepth (limit : Nat)
  | output (reason : String)
deriving DecidableEq, Repr

/-- What a fault is about. -/
def Fault.topic : Fault → Topic
  | .undefinedVariable _ | .undeclaredAssignment _ => .name
  | .operands f => f.topic
  | .notTruth .. | .condition .. | .notCallable _ | .argumentCount .. => .type
  | .stepLimit _ | .callDepth _ => .limit
  | .output _ => .io

/-- The code of a fault. -/
def Fault.code (f : Fault) : String :=
  match f.topic with
  | .name => "E0401"
  | .type => "E0402"
  | .arithmetic => "E0403"
  | .limit => "E0404"
  | _ => "E0405"

/-- The wording of a fault. -/
def Fault.message : Fault → String
  | .undefinedVariable name => "undefined variable '" ++ name ++ "'"
  | .undeclaredAssignment name =>
      "assignment to undeclared variable '" ++ name ++ "'"
  | .operands f => f.message
  | .notTruth op found =>
      "operand of '" ++ op.text ++ "' must be a bool, found " ++ found.text
  | .condition keyword found =>
      keyword ++ " condition must be a bool, found " ++ found.text
  | .notCallable found => "cannot call a value of type " ++ found.text
  | .argumentCount name expected found =>
      "function '" ++ name ++ "' expects " ++ toString expected
        ++ " argument(s), got " ++ toString found
  | .stepLimit limit => "step limit of " ++ toString limit ++ " exceeded"
  | .callDepth limit =>
      "maximum call depth of " ++ toString limit ++ " exceeded"
  | .output reason => "failed to write output: " ++ reason

/-- What a fault reports. -/
def Fault.report (f : Fault) : Report :=
  ⟨.error, f.topic, some f.code, f.message⟩

end Script.Eval
