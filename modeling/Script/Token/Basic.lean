/-
Tokens: the words of the language. A token carries its kind, the text it
was written with, and its span; literals carry the value they stand for
in their kind. Every token list that comes from a text ends with one
end-of-input token, which is empty.
-/
import Script.Source.Span

namespace Script

/-- The reserved words. -/
inductive Keyword where
  | letK | fnK | ifK | elseK | whileK | returnK | printK
  | trueK | falseK | nilK
deriving DecidableEq, Repr

/-- The spelling of a reserved word. -/
def Keyword.text : Keyword → String
  | .letK => "let"
  | .fnK => "fn"
  | .ifK => "if"
  | .elseK => "else"
  | .whileK => "while"
  | .returnK => "return"
  | .printK => "print"
  | .trueK => "true"
  | .falseK => "false"
  | .nilK => "nil"

/-- All reserved words. -/
def Keyword.all : List Keyword :=
  [.letK, .fnK, .ifK, .elseK, .whileK, .returnK, .printK,
   .trueK, .falseK, .nilK]

/-- The reserved word with a given spelling. -/
def Keyword.ofText? (s : String) : Option Keyword :=
  Keyword.all.find? (·.text == s)

/-- The operators, one or two characters each. -/
inductive Operator where
  | plus | minus | star | slash | percent
  | assign | equal | notEqual
  | less | lessEqual | greater | greaterEqual
  | bang | and | or
deriving DecidableEq, Repr

/-- The spelling of an operator. -/
def Operator.text : Operator → String
  | .plus => "+"
  | .minus => "-"
  | .star => "*"
  | .slash => "/"
  | .percent => "%"
  | .assign => "="
  | .equal => "=="
  | .notEqual => "!="
  | .less => "<"
  | .lessEqual => "<="
  | .greater => ">"
  | .greaterEqual => ">="
  | .bang => "!"
  | .and => "&&"
  | .or => "||"

/-- The brackets and separators. -/
inductive Punct where
  | leftParen | rightParen | leftBrace | rightBrace | comma | semicolon
deriving DecidableEq, Repr

/-- The spelling of a bracket or separator. -/
def Punct.text : Punct → String
  | .leftParen => "("
  | .rightParen => ")"
  | .leftBrace => "\x7b"
  | .rightBrace => "\x7d"
  | .comma => ","
  | .semicolon => ";"

namespace Token

/-- What a token is. A literal comes with its value. -/
inductive Kind where
  | identifier
  | number (value : Float)
  | string (value : String)
  | keyword (k : Keyword)
  | operator (o : Operator)
  | punct (p : Punct)
  | endOfInput
deriving DecidableEq, Repr

/-- A kind as messages name it: the spelling in quotes where there is
only one. -/
def Kind.text : Kind → String
  | .identifier => "identifier"
  | .number _ => "number"
  | .string _ => "string"
  | .keyword k => "'" ++ k.text ++ "'"
  | .operator o => "'" ++ o.text ++ "'"
  | .punct p => "'" ++ p.text ++ "'"
  | .endOfInput => "end of input"

end Token

/-- A word of the source text. -/
structure Token where
  kind : Token.Kind
  text : String
  span : Span
deriving DecidableEq, Repr

/-- The empty token behind the last one. -/
def Token.endOfInput (file : FileId) (offset : Nat) : Token :=
  ⟨.endOfInput, "", .point file offset⟩

/-- Different words are spelled differently. -/
theorem Keyword.ofText?_text (k : Keyword) :
    Keyword.ofText? k.text = some k := by
  cases k <;> decide +kernel

theorem Keyword.text_of_ofText? {s : String} {k : Keyword}
    (h : Keyword.ofText? s = some k) : k.text = s := by
  simpa using List.find?_some h

end Script
