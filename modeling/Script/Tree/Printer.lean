/-
The printed tree: a program as nested lists in parentheses, one
statement on a line and two spaces for each level. Expressions stay on
the line of their statement. Spans are not shown.
-/
import Script.Number.Text
import Script.Text.Quoted
import Script.Tree.Basic

namespace Script

mutual

/-- An expression on one line. -/
def Expr.text : Expr → String
  | .number _ x => Number.text x
  | .string _ s => Text.quoted s
  | .bool _ b => if b then "true" else "false"
  | .nil _ => "nil"
  | .ident _ name => name
  | .unary _ op e => "(" ++ op.text ++ " " ++ e.text ++ ")"
  | .binary _ op l r =>
      "(" ++ op.text ++ " " ++ l.text ++ " " ++ r.text ++ ")"
  | .assign _ target e => "(= " ++ target.name ++ " " ++ e.text ++ ")"
  | .call _ callee args => "(call " ++ callee.text ++ argumentText args ++ ")"
  | .group _ e => "(group " ++ e.text ++ ")"

/-- The arguments of a call, a space in front of each. -/
def argumentText : List Expr → String
  | [] => ""
  | e :: es => " " ++ e.text ++ argumentText es

end

/-- Two spaces for each level. -/
def indent (depth : Nat) : String :=
  String.ofList (List.replicate (2 * depth) ' ')

mutual

/-- A statement at a level, without a line break behind it. -/
def Stmt.text (depth : Nat) : Stmt → String
  | .declare _ name (some e) =>
      indent depth ++ "(let " ++ name.name ++ " " ++ e.text ++ ")"
  | .declare _ name none => indent depth ++ "(let " ++ name.name ++ ")"
  | .function d => d.text depth
  | .expression _ e => indent depth ++ "(expr " ++ e.text ++ ")"
  | .block b => b.text depth
  | .branch _ cond thenPart elsePart =>
      let elseText :=
        match elsePart with
        | some s =>
            "\n" ++ indent (depth + 1) ++ "(else\n" ++ s.text (depth + 2)
              ++ ")"
        | none => ""
      indent depth ++ "(if " ++ cond.text ++ "\n"
        ++ thenPart.text (depth + 1) ++ elseText ++ ")"
  | .loop _ cond body =>
      indent depth ++ "(while " ++ cond.text ++ "\n"
        ++ body.text (depth + 1) ++ ")"
  | .giveBack _ (some e) => indent depth ++ "(return " ++ e.text ++ ")"
  | .giveBack _ none => indent depth ++ "(return)"
  | .print _ e => indent depth ++ "(print " ++ e.text ++ ")"
  | .empty _ => indent depth ++ "(empty)"

/-- A block at a level. -/
def Block.text (depth : Nat) : Block → String
  | ⟨statements, _⟩ =>
      indent depth ++ "(block" ++ statementText (depth + 1) statements
        ++ ")"

/-- The declaration of a function at a level. -/
def FnDecl.text (depth : Nat) : FnDecl → String
  | ⟨name, params, body, _⟩ =>
      indent depth ++ "(fn " ++ name.name ++ " ("
        ++ " ".intercalate (params.map (·.name)) ++ ")\n"
        ++ body.text (depth + 1) ++ ")"

/-- Statements at a level, a line break in front of each. -/
def statementText (depth : Nat) : List Stmt → String
  | [] => ""
  | s :: ss => "\n" ++ s.text depth ++ statementText depth ss

end

/-- A program without a line break behind it. -/
def Program.text (p : Program) : String :=
  "(program" ++ statementText 1 p.statements ++ ")"

end Script
