/-
Lexemes: what stands at one place of a text. The first character decides
what is read, and every lexeme is as long as it can be. A lexeme is given
by the characters it takes behind the first one and by what they are: a
token, or a fault. Numbers that go wrong take the rest of the word with
them, strings that are not closed the rest of the line.
-/
import Script.Number.Numeral
import Script.Token.Basic
import Script.Token.Fault

namespace Script.Token

/-- The characters between tokens. -/
def isSpace (c : Char) : Bool :=
  c == ' ' || c == '\t' || c == '\n' || c == '\r'

/-- The characters an identifier can begin with: ASCII letters and the
underscore. -/
def isWordStart (c : Char) : Bool := c.isAlpha || c == '_'

/-- The characters an identifier can go on with. -/
def isWordChar (c : Char) : Bool := isWordStart c || c.isDigit

/-- Whether a text goes on with a character of identifiers. -/
def startsInWord (cs : List Char) : Bool := cs.head?.any isWordChar

/-- What stands at one place of a text: the characters behind the first
one, what they are, and the unknown escapes among them, each with its
distance in bytes from the start. -/
structure Lexeme where
  tail : List Char
  outcome : Except Fault Kind
  strays : List (Nat × Char)

/-- A token without unknown escapes. -/
def Lexeme.plain (tail : List Char) (kind : Kind) : Lexeme :=
  ⟨tail, .ok kind, []⟩

/-- Characters that are no token. -/
def Lexeme.faulty (tail : List Char) (f : Fault) : Lexeme :=
  ⟨tail, .error f, []⟩

-- ============================================================ strings

/-- The character that a letter behind a backslash stands for. -/
def unescape? : Char → Option Char
  | 'n' => some '\n'
  | 't' => some '\t'
  | 'r' => some '\r'
  | '0' => some '\x00'
  | '\\' => some '\\'
  | '"' => some '"'
  | _ => none

/-- A string literal behind its opening quote: the characters taken, the
text they stand for, the unknown escapes, and whether the closing quote
is among them. -/
structure StringBody where
  taken : List Char
  value : List Char
  strays : List (Nat × Char)
  closed : Bool

/-- Reads a string literal behind its opening quote; `offset` is the
distance in bytes from that quote. A line break ends the literal, and
no escape reaches over it. -/
def StringBody.read (offset : Nat) : List Char → StringBody
  | [] => ⟨[], [], [], false⟩
  | '\n' :: _ => ⟨[], [], [], false⟩
  | '"' :: _ => ⟨['"'], [], [], true⟩
  | ['\\'] => ⟨['\\'], [], [], false⟩
  | '\\' :: '\n' :: _ => ⟨['\\'], [], [], false⟩
  | '\\' :: c :: cs =>
      let body := read (offset + 1 + c.utf8Size) cs
      let taken := '\\' :: c :: body.taken
      match unescape? c with
      | some d => ⟨taken, d :: body.value, body.strays, body.closed⟩
      | none =>
          ⟨taken, c :: body.value, (offset, c) :: body.strays, body.closed⟩
  | c :: cs =>
      let body := read (offset + c.utf8Size) cs
      ⟨c :: body.taken, c :: body.value, body.strays, body.closed⟩

/-- The lexeme at a double quote. -/
def stringLexeme (cs : List Char) : Lexeme :=
  let body := StringBody.read 1 cs
  { tail := body.taken
    outcome :=
      if body.closed then .ok (.string (String.ofList body.value))
      else .error .unterminatedString
    strays := body.strays }

-- ============================================================ numbers

/-- The point and the digits behind it. A point without a digit behind
it is no part of a number. -/
def fractionAt : List Char → List Char
  | '.' :: d :: cs => if d.isDigit then '.' :: d :: cs.takeWhile Char.isDigit else []
  | _ => []

/-- What a number's exponent looks like. -/
inductive ExponentPart where
  | absent
  | digits (taken : List Char) (negative : Bool) (digits : List Char)
  /-- A marker without digits. -/
  | broken (taken : List Char)
deriving DecidableEq

/-- The characters of an exponent that belong to the number. -/
def ExponentPart.taken : ExponentPart → List Char
  | .absent => []
  | .digits taken .. => taken
  | .broken taken => taken

/-- The sign in front of a text, if there is one. -/
def signAt : List Char → List Char
  | '+' :: _ => ['+']
  | '-' :: _ => ['-']
  | _ => []

/-- The exponent in front of a text. A sign without digits belongs to
the number only if a word goes on behind it. -/
def exponentAt : List Char → ExponentPart
  | [] => .absent
  | m :: cs =>
      if m == 'e' || m == 'E' then
        let sign := signAt cs
        let behind := cs.drop sign.length
        let ds := behind.takeWhile Char.isDigit
        if ds ≠ [] then .digits (m :: sign ++ ds) (sign == ['-']) ds
        else if startsInWord behind then .broken (m :: sign)
        else .broken [m]
      else .absent

/-- The lexeme at a digit. A number with a broken exponent or a word
right behind it is malformed, and takes words and points with it. -/
def numberLexeme (first : Char) (cs : List Char) : Lexeme :=
  let whole := cs.takeWhile Char.isDigit
  let behindWhole := cs.drop whole.length
  let fraction := fractionAt behindWhole
  let behindFraction := behindWhole.drop fraction.length
  let exponent := exponentAt behindFraction
  let behind := behindFraction.drop exponent.taken.length
  let number := whole ++ fraction ++ exponent.taken
  let malformed : Lexeme :=
    let tail := number ++ behind.takeWhile fun c => isWordChar c || c == '.'
    .faulty tail (.malformedNumber (String.ofList (first :: tail)))
  let good (e : Option (Bool × List Char)) : Lexeme :=
    if startsInWord behind then malformed
    else .plain number
      (.number (Number.Numeral.value ⟨first :: whole, fraction.drop 1, e⟩))
  match exponent with
  | .absent => good none
  | .digits _ negative ds => good (some (negative, ds))
  | .broken _ => malformed

-- ============================================== words and operators

/-- The lexeme at the start of a word: a reserved word, or an
identifier. -/
def wordLexeme (first : Char) (cs : List Char) : Lexeme :=
  let tail := cs.takeWhile isWordChar
  match Keyword.ofText? (String.ofList (first :: tail)) with
  | some k => .plain tail (.keyword k)
  | none => .plain tail .identifier

/-- An operator that becomes another one with an equals sign behind
it. -/
def withEquals (cs : List Char) (one two : Operator) : Lexeme :=
  match cs with
  | '=' :: _ => .plain ['='] (.operator two)
  | _ => .plain [] (.operator one)

/-- An operator that is written twice; alone it is no token. -/
def doubled (c : Char) (cs : List Char) (o : Operator) : Lexeme :=
  if cs.head? = some c then .plain [c] (.operator o)
  else .faulty [] (.unexpectedCharacter c (some o.text))

/-- The lexeme at a character that is no space. -/
def lexemeAt (c : Char) (cs : List Char) : Lexeme :=
  match c with
  | '(' => .plain [] (.punct .leftParen)
  | ')' => .plain [] (.punct .rightParen)
  | '\x7b' => .plain [] (.punct .leftBrace)
  | '\x7d' => .plain [] (.punct .rightBrace)
  | ',' => .plain [] (.punct .comma)
  | ';' => .plain [] (.punct .semicolon)
  | '+' => .plain [] (.operator .plus)
  | '-' => .plain [] (.operator .minus)
  | '*' => .plain [] (.operator .star)
  | '/' => .plain [] (.operator .slash)
  | '%' => .plain [] (.operator .percent)
  | '=' => withEquals cs .assign .equal
  | '!' => withEquals cs .bang .notEqual
  | '<' => withEquals cs .less .lessEqual
  | '>' => withEquals cs .greater .greaterEqual
  | '&' => doubled '&' cs .and
  | '|' => doubled '|' cs .or
  | '"' => stringLexeme cs
  | c =>
      if c.isDigit then numberLexeme c cs
      else if isWordStart c then wordLexeme c cs
      else .faulty [] (.unexpectedCharacter c none)

end Script.Token
