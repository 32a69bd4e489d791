/-
Reading expressions, by precedence. From the loosest to the tightest:

    assignment      x = e            to the right
    or, and         ||   &&          to the left
    equality        ==   !=          to the left
    order           <  <=  >  >=     to the left
    sum             +  -             to the left
    product         *  /  %          to the left
    operator        -e   !e
    call            f(e, ...)
    primary         literal, name, (e)

Every reader takes the number of nesting levels left. A group, an
operand of an operator, an assigned value, and each further operator or
call in a chain go one level down; where none is left, reading gives up.
The levels are what the recursion ends by.
-/
import Script.Tree.Cursor

namespace Script.Tree

open Parse

/-- The operator of a token that can stand between two operands, with
its precedence. -/
def binaryOperator? : Token.Kind → Option (BinaryOp × Nat)
  | .operator .or => some (.or, 1)
  | .operator .and => some (.and, 2)
  | .operator .equal => some (.eq, 3)
  | .operator .notEqual => some (.ne, 3)
  | .operator .less => some (.lt, 4)
  | .operator .lessEqual => some (.le, 4)
  | .operator .greater => some (.gt, 4)
  | .operator .greaterEqual => some (.ge, 4)
  | .operator .plus => some (.add, 5)
  | .operator .minus => some (.sub, 5)
  | .operator .star => some (.mul, 6)
  | .operator .slash => some (.div, 6)
  | .operator .percent => some (.rem, 6)
  | _ => none

/-- The operator of a token that can stand in front of an operand. -/
def unaryOperator? : Token.Kind → Option UnaryOp
  | .operator .minus => some .negate
  | .operator .bang => some .not
  | _ => none

/-- The expression that one token makes. -/
def Cursor.atom? (c : Cursor) : Option Expr :=
  match c.kind with
  | .number x => some (.number c.here x)
  | .string s => some (.string c.here s)
  | .keyword .trueK => some (.bool c.here true)
  | .keyword .falseK => some (.bool c.here false)
  | .keyword .nilK => some (.nil c.here)
  | .identifier => some (.ident c.here c.word)
  | _ => none

mutual

/-- An expression. -/
def expression (levels : Nat) : Parse Expr :=
  match levels with
  | 0 => tooDeep
  | n + 1 => assignment n
termination_by levels * 8

/-- A literal, a name, or an expression in parentheses. -/
def primary (levels : Nat) : Parse Expr := do
  let c ← get
  match c.atom? with
  | some e =>
      skip
      return e
  | none =>
      if ← eat (.punct .leftParen) then
        let inner ← expression levels
        let close ← expect (.punct .rightParen) "')'"
        return .group (c.here.join close) inner
      else expected "expression"
termination_by levels * 8 + 1

/-- The calls behind a callee. -/
def calls (levels : Nat) (callee : Expr) : Parse Expr := do
  if (← kind) = .punct .leftParen then
    match levels with
    | 0 => tooDeep
    | n + 1 =>
        skip
        let args ←
          if (← kind) = .punct .rightParen then pure []
          else separated (expression n) (← tokensLeft)
        let close ← expect (.punct .rightParen) "')' after arguments"
        calls n (.call (callee.span.join close) callee args)
  else return callee
termination_by levels * 8 + 1

/-- A primary expression and the calls behind it. -/
def callChain (levels : Nat) : Parse Expr := do
  calls levels (← primary levels)
termination_by levels * 8 + 2

/-- An operand, with the operators in front of it. -/
def unary (levels : Nat) : Parse Expr := do
  let c ← get
  match unaryOperator? c.kind with
  | some op =>
      skip
      match levels with
      | 0 => tooDeep
      | n + 1 =>
          let operand ← unary n
          return .unary (c.here.join operand.span) op operand
  | none => callChain levels
termination_by levels * 8 + 3

/-- The operators of at least a precedence behind an operand, with
their right operands. -/
def operators (levels least : Nat) (lhs : Expr) : Parse Expr := do
  match binaryOperator? (← kind) with
  | some (op, precedence) =>
      if precedence < least then return lhs
      else
        match levels with
        | 0 => tooDeep
        | n + 1 =>
            skip
            let rhs ← binary n (precedence + 1)
            operators n least (.binary (lhs.span.join rhs.span) op lhs rhs)
  | none => return lhs
termination_by levels * 8 + 1

/-- Operands with operators of at least a precedence between them. -/
def binary (levels least : Nat) : Parse Expr := do
  operators levels least (← unary levels)
termination_by levels * 8 + 4

/-- An assignment, or what can stand in front of one. Only a bare name
can be assigned to. -/
def assignment (levels : Nat) : Parse Expr := do
  let target ← binary levels 1
  if ← eat (.operator .assign) then
    match levels with
    | 0 => tooDeep
    | n + 1 =>
        let value ← assignment n
        match target with
        | .ident span name =>
            return .assign (span.join value.span) ⟨name, span⟩ value
        | _ =>
            blame .invalidTarget target.span
            throw ()
  else return target
termination_by levels * 8 + 5

end

end Script.Tree
