/-
Reading statements. A statement ends with a semicolon, or with nothing
at the end of its block or of the program. Where a statement cannot be
read it is left out, and reading goes on behind it; so the tree holds
every statement that was in order.

Blocks and the conditions of an else chain go one nesting level down,
as expressions do. `inside` says whether the statement stands in a
function, the only place to return from.
-/
import Script.Token.Scan
import Script.Tree.Expression

namespace Script.Tree

open Parse

/-- The end of a statement: a semicolon, or nothing in front of a
closing brace or the end of input. -/
def terminator (behind : String) : Parse Unit := do
  if ← eat (.punct .semicolon) then return ()
  let k ← kind
  if k = .punct .rightBrace ∨ k = .endOfInput then return ()
  expected ("';' after " ++ behind)

/-- Reads a statement, or passes over it. -/
def recovering (statement : Parse Stmt) : Parse (Option Stmt) :=
  fun c =>
    match statement c with
    | .ok s c => .ok (some s) c
    | .error () c => .ok none c.skipStatement

/-- The statements up to a closing brace or the end of input. Each round
takes a token at least, so there are no more of them than `bound`, the
number of tokens left. -/
def statementsInBlock (statement : Parse Stmt) : Nat → Parse (List Stmt)
  | 0 => return []
  | bound + 1 => do
      let k ← kind
      if k = .punct .rightBrace ∨ k = .endOfInput then return []
      let s ← recovering statement
      return s.toList ++ (← statementsInBlock statement bound)

/-- The next parameter of a function, behind those already read; all
names have to differ. -/
def parameter (seen : List Ident) : Parse (List Ident) := do
  let p ← identifier "parameter name"
  if seen.any (·.name == p.name) then
    blame (.duplicateParameter p.name) p.span
  return seen ++ [p]

/-- The parameters of a function behind those already read. There are
no more of them than `bound`, the number of tokens left, and one. -/
def parameters (seen : List Ident) : Nat → Parse (List Ident)
  | 0 => parameter seen
  | bound + 1 => do
      let seen ← parameter seen
      if ← eat (.punct .comma) then parameters seen bound
      else return seen

/-- The declaration of a variable, behind its first word. -/
def declaration (levels : Nat) (start : Span) : Parse Stmt := do
  let name ← identifier "variable name after 'let'"
  let init ←
    if ← eat (.operator .assign) then some <$> expression levels
    else pure none
  terminator "let declaration"
  return .declare (← spanFrom start) name init

/-- A return, behind its first word. -/
def returnStatement (levels : Nat) (inside : Bool) (start : Span) :
    Parse Stmt := do
  unless inside do blame .returnOutside start
  let k ← kind
  let value ←
    if k = .punct .semicolon ∨ k = .punct .rightBrace ∨ k = .endOfInput then
      pure none
    else some <$> expression levels
  terminator "return statement"
  return .giveBack (← spanFrom start) value

mutual

/-- A statement. -/
def statement (levels : Nat) (inside : Bool) : Parse Stmt := do
  let c ← get
  let start := c.here
  match c.kind with
  | .keyword .letK =>
      skip
      declaration levels start
  | .keyword .fnK =>
      skip
      function levels start
  | .keyword .ifK => branch levels inside
  | .keyword .whileK =>
      skip
      let cond ← expression levels
      let body ← block levels inside
      return .loop (← spanFrom start) cond body
  | .keyword .returnK =>
      skip
      returnStatement levels inside start
  | .keyword .printK =>
      skip
      let value ← expression levels
      terminator "print statement"
      return .print (← spanFrom start) value
  | .punct .leftBrace => return .block (← block levels inside)
  | .punct .semicolon =>
      skip
      modify (·.note .emptyStatement start)
      return .empty (← spanFrom start)
  | _ =>
      let value ← expression levels
      terminator "expression"
      return .expression (← spanFrom start) value
termination_by levels * 4 + 3

/-- The declaration of a function, behind its first word. -/
def function (levels : Nat) (start : Span) : Parse Stmt := do
  let name ← identifier "function name after 'fn'"
  let _ ← expect (.punct .leftParen) "'(' after function name"
  let params ←
    if (← kind) = .punct .rightParen then pure []
    else parameters [] (← tokensLeft)
  let _ ← expect (.punct .rightParen) "')' after parameters"
  let body ← block levels true
  return .function ⟨name, params, body, start.join body.span⟩
termination_by levels * 4 + 2

/-- A condition with its parts, from its first word on. -/
def branch (levels : Nat) (inside : Bool) : Parse Stmt := do
  let start ← here
  skip
  let cond ← expression levels
  let thenPart ← block levels inside
  let elsePart ←
    if ← eat (.keyword .elseK) then
      if (← kind) = .keyword .ifK then
        match levels with
        | 0 => tooDeep
        | n + 1 => some <$> branch n inside
      else some <$> Stmt.block <$> block levels inside
    else pure none
  return .branch (← spanFrom start) cond thenPart elsePart
termination_by levels * 4 + 2

/-- Statements in braces. -/
def block (levels : Nat) (inside : Bool) : Parse Block := do
  match levels with
  | 0 => tooDeep
  | n + 1 =>
      let opening ← expect (.punct .leftBrace) "'\x7b'"
      let statements ←
        statementsInBlock (statement n inside) (← tokensLeft)
      let close ← expect (.punct .rightBrace) "'\x7d' to close block"
      return ⟨statements, opening.join close⟩
termination_by levels * 4

end

/-- The statements up to the end of input, closing braces that match
nothing left out. Each round takes a token at least, so there are no
more of them than `bound`, the number of tokens left. -/
def statementsOfProgram : Nat → Parse (List Stmt)
  | 0 => return []
  | bound + 1 => do
      match ← kind with
      | .endOfInput => return []
      | .punct .rightBrace =>
          blame .unmatchedBrace (← here)
          skip
          statementsOfProgram bound
      | _ =>
          let s ← recovering (statement maxNesting false)
          return s.toList ++ (← statementsOfProgram bound)

end Tree

/-- The program that is read from a cursor on, and the cursor behind
it. -/
def Program.readFrom (start : Tree.Cursor) : Program × Tree.Cursor :=
  match Tree.statementsOfProgram start.rest.length start with
  | .ok statements c => (⟨statements, start.here.join c.here⟩, c)
  | .error () c => (⟨[], start.here.join c.here⟩, c)

/-- The program that tokens of a text of a given size make, and what is
wrong with them. Tokens behind an end of input are not read. -/
def Program.ofTokens (file : FileId) (size : Nat) (tokens : List Token) :
    Program × List Diagnostic :=
  let (program, c) := readFrom (.start file size tokens)
  (program, c.reports.toList)

/-- The program that a text makes, and what is wrong with it: first the
faults in its characters, then those in the order of its tokens. The
text is scanned on demand: a cursor has asked for the tokens that it
passed over and for the one where it stands, and the faults are those
that were come across until then. -/
def Program.ofText (file : FileId) (text : String) :
    Program × List Diagnostic :=
  let items := Token.scan file text
  let tokens := items.filterMap Token.Item.token?
  let (program, c) := readFrom (.start file text.utf8ByteSize tokens)
  let seen := Token.upTo (tokens.length - c.rest.length) items
  (program, seen.filterMap Token.Item.report? ++ c.reports.toList)

end Script
