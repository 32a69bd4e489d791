/-
The listing of tokens, one on each line: the span, the class of the
token, its text, and the value of a literal. Columns are filled up with
spaces, and none is left at the end of a line.
-/
import Script.Number.Text
import Script.Text.Blank
import Script.Text.Padded
import Script.Text.Quoted
import Script.Token.Basic

namespace Script.Token

/-- The class of a token as listings name it. -/
def Kind.label : Kind → String
  | .identifier => "ident"
  | .number _ => "number"
  | .string _ => "string"
  | .keyword _ => "keyword"
  | .operator _ => "operator"
  | .punct _ => "punct"
  | .endOfInput => "eof"

/-- The value of a literal behind an equals sign. -/
def Kind.valueText : Kind → String
  | .number x => " = " ++ Number.full x
  | .string s => " = " ++ Text.quoted s
  | _ => ""

/-- The line of one token. -/
def line (t : Token) : String :=
  let columns := Text.padEnd 10 t.span.text ++ " "
    ++ Text.padEnd 8 t.kind.label ++ " " ++ t.text ++ t.kind.valueText
  String.ofList (Text.trimEnd columns.toList)

/-- The lines of tokens, each with a line break. -/
def listing (ts : List Token) : String :=
  String.join (ts.map fun t => t.line ++ "\n")

end Script.Token
