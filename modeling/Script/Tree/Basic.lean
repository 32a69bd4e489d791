/-
The syntax tree of a program. Every node carries the span of the text it
was read from; the tree never changes after reading. Parentheses are
nodes of their own, so that spans cover them.
-/
import Script.Source.Span

namespace Script

/-- The operators with one operand. -/
inductive UnaryOp where
  | negate
  | not
deriving DecidableEq, Repr

/-- The spelling of an operator with one operand. -/
def UnaryOp.text : UnaryOp → String
  | .negate => "-"
  | .not => "!"

/-- The operators with two operands. -/
inductive BinaryOp where
  | add | sub | mul | div | rem
  | eq | ne | lt | le | gt | ge
  /-- Evaluates its right operand only if the left one is true. -/
  | and
  /-- Evaluates its right operand only if the left one is false. -/
  | or
deriving DecidableEq, Repr

/-- The spelling of an operator with two operands. -/
def BinaryOp.text : BinaryOp → String
  | .add => "+"
  | .sub => "-"
  | .mul => "*"
  | .div => "/"
  | .rem => "%"
  | .eq => "=="
  | .ne => "!="
  | .lt => "<"
  | .le => "<="
  | .gt => ">"
  | .ge => ">="
  | .and => "&&"
  | .or => "||"

/-- Whether an operator may leave its right operand alone. -/
def BinaryOp.isShortCircuit : BinaryOp → Bool
  | .and | .or => true
  | _ => false

/-- A name at the place where it is written. -/
structure Ident where
  name : String
  span : Span
deriving DecidableEq, Repr

/-- An expression. -/
inductive Expr where
  | number (span : Span) (value : Float)
  | string (span : Span) (value : String)
  | bool (span : Span) (value : Bool)
  | nil (span : Span)
  | ident (span : Span) (name : String)
  | unary (span : Span) (op : UnaryOp) (operand : Expr)
  | binary (span : Span) (op : BinaryOp) (lhs rhs : Expr)
  | assign (span : Span) (target : Ident) (value : Expr)
  | call (span : Span) (callee : Expr) (args : List Expr)
  /-- An expression in parentheses. -/
  | group (span : Span) (inner : Expr)
deriving Repr

/-- The text that an expression was read from. -/
def Expr.span : Expr → Span
  | .number s _ | .string s _ | .bool s _ | .nil s | .ident s _
  | .unary s _ _ | .binary s _ _ _ | .assign s _ _ | .call s _ _
  | .group s _ => s

/-- An expression without the parentheses around it. -/
def Expr.ungroup : Expr → Expr
  | .group _ e => e.ungroup
  | e => e

/-- Whether an expression is a literal, parentheses aside. -/
def Expr.isLiteral : Expr → Bool
  | .number .. | .string .. | .bool .. | .nil _ => true
  | .group _ e => e.isLiteral
  | _ => false

/-- What a declaration is told apart by: the text that it was read from, and
which reading of that text made it. To read a text again makes declarations
that are other ones, however alike they are. -/
structure DeclId where
  span : Span
  reading : Nat
deriving DecidableEq, Repr

/-- Where nothing else is said, a text is read for the first time. -/
instance : Coe Span DeclId := ⟨fun span => ⟨span, 0⟩⟩

mutual

/-- A statement. -/
inductive Stmt where
  /-- Declares a variable; without an initial value it is nil. -/
  | declare (span : Span) (name : Ident) (init : Option Expr)
  | function (decl : FnDecl)
  | expression (span : Span) (value : Expr)
  | block (body : Block)
  /-- A condition; a chain of conditions nests in the else part. -/
  | branch (span : Span) (cond : Expr) (thenPart : Block)
      (elsePart : Option Stmt)
  | loop (span : Span) (cond : Expr) (body : Block)
  | giveBack (span : Span) (value : Option Expr)
  | print (span : Span) (value : Expr)
  | empty (span : Span)

/-- Statements in braces. -/
structure Block where
  statements : List Stmt
  span : Span

/-- The declaration of a function. -/
structure FnDecl where
  name : Ident
  params : List Ident
  body : Block
  id : DeclId

end

/-- The text that a declaration was read from. -/
abbrev FnDecl.span (d : FnDecl) : Span := d.id.span

/-- Whether two declarations are one and the same. -/
def FnDecl.same (d e : FnDecl) : Bool := d.id == e.id

/-- The text that a statement was read from. -/
def Stmt.span : Stmt → Span
  | .declare s _ _ | .expression s _ | .branch s _ _ _ | .loop s _ _
  | .giveBack s _ | .print s _ | .empty s => s
  | .function d => d.span
  | .block b => b.span

/-- The function that a statement declares. -/
def Stmt.function? : Stmt → Option FnDecl
  | .function d => some d
  | _ => none

/-- Whether a statement leaves its function. -/
def Stmt.isGiveBack : Stmt → Bool
  | .giveBack .. => true
  | _ => false

/-- Whether a statement is a lone semicolon. -/
def Stmt.isEmpty : Stmt → Bool
  | .empty _ => true
  | _ => false

/-- The statements of a source text in order. -/
structure Program where
  statements : List Stmt
  span : Span

/-- The functions declared at the top of a program. They exist before
its first statement runs. -/
def Program.functions (p : Program) : List FnDecl :=
  p.statements.filterMap Stmt.function?

/-- Parentheses do not make or unmake a literal. -/
@[simp] theorem Expr.isLiteral_ungroup (e : Expr) :
    e.ungroup.isLiteral = e.isLiteral := by
  fun_induction Expr.ungroup e with
  | case1 _ e ih => simpa [Expr.isLiteral] using ih
  | case2 e h => rfl

end Script
