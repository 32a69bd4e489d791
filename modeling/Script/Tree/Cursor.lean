/-
Reading tokens in order. A cursor holds the tokens still to be read, the
span of the one read last, and what was reported on the way. Reading a
piece of the tree is an action on the cursor that either yields the
piece or gives up; whoever gives up has reported why, and the statement
that was being read is skipped.

No place is reported twice: an error at the offset of the error before
it is dropped.
-/
import Script.Token.Basic
import Script.Tree.Basic
import Script.Tree.Fault

namespace Script.Tree

/-- A place in a token list, with the reports made up to it. -/
structure Cursor where
  /-- The tokens to be read, without the end of input. -/
  rest : List Token
  endOfInput : Span
  /-- The span of the last token read. -/
  previous : Span
  reports : Array Diagnostic
  lastErrorAt : Option Nat

namespace Cursor

/-- The start of a token list in a text of a given size. The end of
input is where the list says, or else the end of the text. -/
def start (file : FileId) (size : Nat) (tokens : List Token) : Cursor :=
  let rest := tokens.takeWhile (·.kind ≠ .endOfInput)
  let endOfInput :=
    match tokens.find? (·.kind = .endOfInput) with
    | some t => t.span
    | none => .point file size
  let first := (rest.head?.map (·.span)).getD endOfInput
  ⟨rest, endOfInput, .point file first.start, #[], none⟩

/-- The kind of the next token. -/
def kind (c : Cursor) : Token.Kind :=
  match c.rest with
  | t :: _ => t.kind
  | [] => .endOfInput

/-- The span of the next token. -/
def here (c : Cursor) : Span :=
  match c.rest with
  | t :: _ => t.span
  | [] => c.endOfInput

/-- The text of the next token. -/
def word (c : Cursor) : String :=
  match c.rest with
  | t :: _ => t.text
  | [] => ""

/-- The next token as messages name it; names and literals with their
text. -/
def describe (c : Cursor) : String :=
  match c.kind with
  | .identifier | .number _ | .string _ =>
      c.kind.text ++ " `" ++ c.word ++ "`"
  | k => k.text

/-- Moves behind the next token. -/
def advance (c : Cursor) : Cursor :=
  match c.rest with
  | t :: ts => { c with rest := ts, previous := t.span }
  | [] => c

/-- Adds a report. -/
def note (c : Cursor) (f : Fault) (span : Span) : Cursor :=
  { c with reports := c.reports.push (f.report.at span) }

/-- Adds a report of an error, unless the last one was at the same
offset. -/
def blame (c : Cursor) (f : Fault) (span : Span) : Cursor :=
  if c.lastErrorAt = some span.start then c
  else { c.note f span with lastErrorAt := some span.start }

/-- The tokens from the next statement on, with the span of the last
one passed over: behind the next semicolon, or at a closing brace. -/
def nextStatement (previous : Span) : List Token → Span × List Token
  | [] => (previous, [])
  | t :: ts =>
      match t.kind with
      | .punct .rightBrace => (previous, t :: ts)
      | .punct .semicolon => (t.span, ts)
      | _ => nextStatement t.span ts

/-- The tokens behind the group in brackets that starts here, with the
span of the last one passed over; `opened` brackets are open. Where no
group starts, nothing is passed over. -/
def behindGroup (opened : Nat) (previous : Span) :
    List Token → Span × List Token
  | [] => (previous, [])
  | t :: ts =>
      match t.kind with
      | .punct .leftParen | .punct .leftBrace =>
          behindGroup (opened + 1) t.span ts
      | .punct .rightParen | .punct .rightBrace =>
          match opened with
          | 0 => (previous, t :: ts)
          | 1 => (t.span, ts)
          | n + 2 => behindGroup (n + 1) t.span ts
      | _ =>
          if opened = 0 then (previous, t :: ts)
          else behindGroup opened t.span ts

/-- Goes on at the next statement. -/
def skipStatement (c : Cursor) : Cursor :=
  let (previous, rest) := nextStatement c.previous c.rest
  { c with rest, previous }

/-- Goes on behind the group that starts here. -/
def skipGroup (c : Cursor) : Cursor :=
  let (previous, rest) := behindGroup 0 c.previous c.rest
  { c with rest, previous }

end Cursor

/-- Reading a piece of the tree. Giving up carries no information: the
reason is among the reports. -/
abbrev Parse := EStateM Unit Cursor

namespace Parse

/-- The kind of the next token. -/
def kind : Parse Token.Kind := return (← get).kind

/-- The span of the next token. -/
def here : Parse Span := return (← get).here

/-- Moves behind the next token. -/
def skip : Parse Unit := modify Cursor.advance

/-- Reports an error and goes on. -/
def blame (f : Fault) (span : Span) : Parse Unit := modify (·.blame f span)

/-- Reports that something else was expected here, and gives up. -/
def expected (what : String) : Parse α := do
  let c ← get
  blame (.unexpected what c.describe) c.here
  throw ()

/-- Moves behind the next token if it is of a kind. -/
def eat (k : Token.Kind) : Parse Bool := do
  if (← kind) = k then
    skip
    return true
  else return false

/-- Reads a token of a kind. -/
def expect (k : Token.Kind) (what : String) : Parse Span := do
  let span ← here
  if ← eat k then return span
  else expected what

/-- Reads a name. -/
def identifier (what : String) : Parse Ident := do
  let c ← get
  let span ← expect .identifier what
  return ⟨c.word, span⟩

/-- The span from a start to the last token read. -/
def spanFrom (start : Span) : Parse Span :=
  return start.join (← get).previous

/-- No level of nesting is left: reports that, passes over the group
that starts here, and gives up. -/
def tooDeep : Parse α := do
  blame .tooDeep (← here)
  modify Cursor.skipGroup
  throw ()

/-- Pieces with commas between them. There are no more of them than
`bound`, the number of tokens left, and one. -/
def separated (piece : Parse α) : Nat → Parse (List α)
  | 0 => do return [← piece]
  | bound + 1 => do
      let x ← piece
      if ← eat (.punct .comma) then return x :: (← separated piece bound)
      else return [x]

/-- The number of tokens left. -/
def tokensLeft : Parse Nat := return (← get).rest.length

end Parse

end Script.Tree
