/-
What can be wrong with comments and directives. The first fault ends
preprocessing.
-/
import Script.Diagnostic

namespace Script.Clean

/-- How many files can be open inside of each other, the entry file
included. -/
def maxOpenFiles : Nat := 32

/-- A fault in comments or directives. -/
inductive Fault where
  | unknownFile
  | unnamedDirective
  | unknownDirective (name : String)
  /-- A directive that needs the name of a macro. -/
  | macroName (directive : String)
  | includePath
  | elseOutside
  | secondElse
  | endOutside
  | openConditional
  | unresolved (path : String)
  | tooDeep
  | recursive (path : String)
  | openComment
deriving DecidableEq, Repr

/-- The code of a fault. -/
def Fault.code : Fault → String
  | .unknownFile => "E0100"
  | .unnamedDirective | .unknownDirective _ => "E0101"
  | .macroName _ | .includePath => "E0102"
  | .elseOutside | .secondElse | .endOutside | .openConditional => "E0103"
  | .unresolved _ => "E0104"
  | .tooDeep | .recursive _ => "E0105"
  | .openComment => "E0106"

/-- The wording of a fault. -/
def Fault.message : Fault → String
  | .unknownFile => "unknown source file"
  | .unnamedDirective => "expected directive name after '#'"
  | .unknownDirective name => "unknown directive #" ++ name
  | .macroName directive => "#" ++ directive ++ " expects a macro name"
  | .includePath => "expected #include \"path\""
  | .elseOutside => "#else without matching #ifdef"
  | .secondElse => "duplicate #else in conditional"
  | .endOutside => "#endif without matching #ifdef"
  | .openConditional =>
      "unterminated conditional directive: missing #endif"
  | .unresolved path => "unresolved include \"" ++ path ++ "\""
  | .tooDeep => "include depth exceeds " ++ toString maxOpenFiles
  | .recursive path => "recursive include of \"" ++ path ++ "\""
  | .openComment => "unterminated block comment"

/-- What a fault reports. -/
def Fault.report (f : Fault) : Report :=
  ⟨.error, .preprocess, some f.code, f.message⟩

end Script.Clean
