/-
What can be wrong with the order of tokens. A missing or surplus token
ends the statement that it stands in; the other faults leave the tree as
it would be without them.
-/
import Script.Diagnostic

namespace Script.Tree

/-- The deepest nesting that is read. Later stages walk the tree by
recursion, so deeper programs are refused here. -/
def maxNesting : Nat := 256

/-- A fault in the order of tokens. -/
inductive Fault where
  | unexpected (expected found : String)
  | unmatchedBrace
  | invalidTarget
  | returnOutside
  | duplicateParameter (name : String)
  | emptyStatement
  | tooDeep
deriving DecidableEq, Repr

/-- What a fault reports. -/
def Fault.report : Fault → Report
  | .unexpected expected found =>
      ⟨.error, .parse, some "E0301",
        "expected " ++ expected ++ ", found " ++ found⟩
  | .unmatchedBrace =>
      ⟨.error, .parse, some "E0302", "unmatched '\x7d'"⟩
  | .invalidTarget =>
      ⟨.error, .parse, some "E0303", "invalid assignment target"⟩
  | .returnOutside =>
      ⟨.error, .parse, some "E0304", "'return' outside of a function"⟩
  | .duplicateParameter name =>
      ⟨.error, .parse, some "E0305", "duplicate parameter `" ++ name ++ "`"⟩
  | .emptyStatement =>
      ⟨.warning, .parse, some "E0306", "empty statement"⟩
  | .tooDeep =>
      ⟨.error, .parse, some "E0307",
        "nesting exceeds " ++ toString maxNesting ++ " levels"⟩

end Script.Tree
