/-
The nodes of a tree: all expressions in it and all statements, those in
functions included. What is said of a program is said by one of them.
-/
import Script.Tree.Basic

namespace Script

-- =========================================================== expressions

mutual

/-- The expressions that an expression consists of, without itself. -/
def Expr.parts : Expr → List Expr
  | .number .. | .string .. | .bool .. | .nil _ | .ident .. => []
  | .unary _ _ e | .assign _ _ e | .group _ e => e :: e.parts
  | .binary _ _ l r => (l :: l.parts) ++ (r :: r.parts)
  | .call _ f args => (f :: f.parts) ++ allOf args

/-- All expressions in the arguments of a call. -/
def allOf : List Expr → List Expr
  | [] => []
  | e :: es => (e :: e.parts) ++ allOf es

end

/-- All expressions in an expression, itself first. -/
def Expr.all (e : Expr) : List Expr := e :: e.parts

/-- All expressions in one that may be left out. -/
def optionalAll : Option Expr → List Expr
  | none => []
  | some e => e.all

mutual

/-- All expressions in a statement. -/
def Stmt.expressions : Stmt → List Expr
  | .declare _ _ init => optionalAll init
  | .function d => d.expressions
  | .expression _ e | .print _ e => e.all
  | .block b => b.expressions
  | .branch _ cond thenPart elsePart =>
      cond.all ++ (thenPart.expressions ++ elseExpressions elsePart)
  | .loop _ cond body => cond.all ++ body.expressions
  | .giveBack _ value => optionalAll value
  | .empty _ => []

/-- All expressions in an else part, if there is one. -/
def elseExpressions : Option Stmt → List Expr
  | none => []
  | some s => s.expressions

/-- All expressions in a function. -/
def FnDecl.expressions : FnDecl → List Expr
  | ⟨_, _, body, _⟩ => body.expressions

/-- All expressions in a block. -/
def Block.expressions : Block → List Expr
  | ⟨ss, _⟩ => stmtsExpressions ss

/-- All expressions in statements. -/
def stmtsExpressions : List Stmt → List Expr
  | [] => []
  | s :: ss => s.expressions ++ stmtsExpressions ss

end

/-- All expressions in a program. -/
def Program.expressions (p : Program) : List Expr :=
  stmtsExpressions p.statements

-- ============================================================ statements

mutual

/-- The statements that stand in blocks of a statement. -/
def Stmt.parts : Stmt → List Stmt
  | .function d => d.parts
  | .block b => b.parts
  | .branch _ _ thenPart elsePart => thenPart.parts ++ elseParts elsePart
  | .loop _ _ body => body.parts
  | .declare .. | .expression .. | .giveBack .. | .print .. | .empty _ => []

/-- The statements that stand in blocks of an else part, if there is
one. -/
def elseParts : Option Stmt → List Stmt
  | none => []
  | some s => s.parts

/-- The statements that stand in the body of a function and its blocks. -/
def FnDecl.parts : FnDecl → List Stmt
  | ⟨_, _, body, _⟩ => body.parts

/-- The statements that stand in a block and the blocks in it. -/
def Block.parts : Block → List Stmt
  | ⟨ss, _⟩ => stmtsAll ss

/-- Statements, and those that stand in blocks of them. -/
def stmtsAll : List Stmt → List Stmt
  | [] => []
  | s :: ss => (s :: s.parts) ++ stmtsAll ss

end

theorem mem_stmtsExpressions {ss : List Stmt} {e : Expr} :
    e ∈ stmtsExpressions ss ↔ ∃ s ∈ ss, e ∈ s.expressions := by
  induction ss with
  | nil => simp [stmtsExpressions]
  | cons s ss ih => simp [stmtsExpressions, ih]

theorem mem_stmtsAll {ss : List Stmt} {t : Stmt} :
    t ∈ stmtsAll ss ↔ ∃ s ∈ ss, t ∈ s :: s.parts := by
  induction ss with
  | nil => simp [stmtsAll]
  | cons s ss ih => simp [stmtsAll, ih, or_assoc]

end Script
