/-
Diagnostics: what a stage has to say about a program, and where. A stage
has its own type of faults; each fault says what it reports, and a
report at a span is a diagnostic. Diagnostics are values: only the host
writes them.

Codes are grouped by stage: `E01` preprocessing, `E02` tokens, `E03`
syntax, `E04` evaluation, `E05` stack code.
-/
import Script.Source.Registry

namespace Script

/-- A warning lets the later stages run, an error does not. -/
inductive Severity where
  | warning
  | error
deriving DecidableEq, Repr

/-- The word for a severity. -/
def Severity.text : Severity → String
  | .warning => "warning"
  | .error => "error"

/-- What a diagnostic is about. -/
inductive Topic where
  | usage
  | preprocess
  | lex
  | parse
  | name
  | type
  | arithmetic
  /-- A budget of steps or calls is used up. -/
  | limit
  | io
  /-- A statement that can never run. -/
  | unreachable
deriving DecidableEq, Repr

/-- The word for a topic. -/
def Topic.text : Topic → String
  | .usage => "UsageError"
  | .preprocess => "PreprocessError"
  | .lex => "LexError"
  | .parse => "ParseError"
  | .name => "NameError"
  | .type => "TypeError"
  | .arithmetic => "ArithmeticError"
  | .limit => "LimitError"
  | .io => "IoError"
  | .unreachable => "UnreachableCode"

/-- What a diagnostic says, without the place. -/
structure Report where
  severity : Severity
  topic : Topic
  code : Option String
  message : String
deriving DecidableEq, Repr

/-- A report about a piece of source text. -/
structure Diagnostic extends Report where
  span : Span
deriving DecidableEq, Repr

/-- A report at a span. -/
def Report.at (r : Report) (span : Span) : Diagnostic := ⟨r, span⟩

namespace Diagnostic

/-- Whether a diagnostic stops the later stages. -/
def isError (d : Diagnostic) : Bool := d.severity == .error

/-- A diagnostic on one line, with the place of its span. -/
def render (d : Diagnostic) (sources : Sources) : String :=
  let code :=
    match d.code with
    | some code => "[" ++ code ++ "]"
    | none => ""
  d.severity.text ++ code ++ ": " ++ d.topic.text ++ ": " ++ d.message
    ++ " at " ++ (sources.locate d.span).text

end Diagnostic

/-- Whether there is an error among diagnostics. -/
def hasErrors (ds : List Diagnostic) : Bool := ds.any Diagnostic.isError

/-- The number of errors among diagnostics. -/
def errorCount (ds : List Diagnostic) : Nat :=
  ds.countP Diagnostic.isError

theorem hasErrors_append (xs ys : List Diagnostic) :
    hasErrors (xs ++ ys) = (hasErrors xs || hasErrors ys) :=
  List.any_append

end Script
