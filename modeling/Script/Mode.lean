/-
Modes: what a run is asked for. Five of them stop at one stage and show
its result; the sixth shows all results one after the other.
-/

namespace Script

/-- What a run is asked for. -/
inductive Mode where
  /-- The cleaned text. -/
  | preprocess
  /-- The tokens. -/
  | tokenize
  /-- The syntax tree. -/
  | parse
  /-- Everything. -/
  | monolith
  /-- What the program prints, and its value. -/
  | execute
  /-- The program as stack code. -/
  | compile
deriving DecidableEq, Repr

namespace Mode

/-- The flag that asks for a mode. -/
def flag : Mode → String
  | .preprocess => "--preprocess"
  | .tokenize => "--tokenize"
  | .parse => "--parse"
  | .monolith => "--monolith"
  | .execute => "--execute"
  | .compile => "--compile"

/-- The name of a mode. -/
def name : Mode → String
  | .preprocess => "Preprocess"
  | .tokenize => "Tokenize"
  | .parse => "Parse"
  | .monolith => "Monolith"
  | .execute => "Execute"
  | .compile => "Compile"

/-- All modes. -/
def all : List Mode :=
  [.preprocess, .tokenize, .parse, .monolith, .execute, .compile]

/-- The mode that a flag asks for. -/
def ofFlag? (flag : String) : Option Mode := all.find? (·.flag == flag)

/-- Every mode can be asked for. -/
theorem ofFlag?_flag (m : Mode) : ofFlag? m.flag = some m := by
  cases m <;> decide +kernel

end Mode

end Script
