/-
What keeps a program from becoming code, or is worth a warning. Names
have to be known where they stand, functions cannot use the locals of
the functions around them, and operators that must fail are refused.
-/
import Script.Operation

namespace Script.Code

/-- A fault found while code is made. -/
inductive Fault where
  | undefined (name : String)
  | captured (name : String)
  | operands (f : OperandFault)
  | literalCall
  /-- A statement behind a return. -/
  | unreachable
deriving DecidableEq, Repr

/-- What a fault reports. -/
def Fault.report : Fault → Report
  | .undefined name =>
      ⟨.error, .name, some "E0501", "undefined variable '" ++ name ++ "'"⟩
  | .captured name =>
      ⟨.error, .name, some "E0502",
        "'" ++ name ++ "' is a local of an enclosing function (capture not "
          ++ "supported)"⟩
  | .operands f =>
      let code := if f.topic = .arithmetic then "E0504" else "E0503"
      ⟨.error, f.topic, some code, f.message⟩
  | .literalCall =>
      ⟨.error, .type, some "E0503", "cannot call a literal value"⟩
  | .unreachable =>
      ⟨.warning, .unreachable, some "E0505", "unreachable statement"⟩

end Script.Code
