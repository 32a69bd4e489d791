/-
Bare trees: trees without spans, in which a number is the text that it is
printed as. The printed tree is a nested list, and from this list the bare
tree is read back. A list is told by its first word and by how many others
there are; a word that is no list is a number, a text in quotes, a reserved
word or a name, and its first character tells which, provided that names
are spelled as names are and numbers as numbers are.
-/
import Script.Proofs.Printed.Words
import Script.Proofs.Words.Numbers
import Script.Tree.Printer

namespace Script

open Printed

-- ============================================================ bare trees

/-- An expression without spans. -/
inductive BareExpr where
  /-- A number, by its text. -/
  | number (text : String)
  | string (s : String)
  | bool (b : Bool)
  | nil
  | ident (name : String)
  | unary (op : UnaryOp) (operand : BareExpr)
  | binary (op : BinaryOp) (lhs rhs : BareExpr)
  | assign (target : String) (value : BareExpr)
  | call (callee : BareExpr) (args : List BareExpr)
  | group (inner : BareExpr)

/-- A statement without spans. -/
inductive BareStmt where
  | declare (name : String) (init : Option BareExpr)
  | function (name : String) (params : List String) (body : List BareStmt)
  | expression (value : BareExpr)
  | block (body : List BareStmt)
  | branch (cond : BareExpr) (thenPart : List BareStmt)
      (elsePart : Option BareStmt)
  | loop (cond : BareExpr) (body : List BareStmt)
  | giveBack (value : Option BareExpr)
  | print (value : BareExpr)
  | empty

mutual

/-- An expression, bare. -/
def Expr.bare : Expr → BareExpr
  | .number _ x => .number (Number.text x)
  | .string _ s => .string s
  | .bool _ b => .bool b
  | .nil _ => .nil
  | .ident _ name => .ident name
  | .unary _ op e => .unary op e.bare
  | .binary _ op l r => .binary op l.bare r.bare
  | .assign _ target e => .assign target.name e.bare
  | .call _ callee args => .call callee.bare (bareArguments args)
  | .group _ e => .group e.bare

/-- Arguments, bare. -/
def bareArguments : List Expr → List BareExpr
  | [] => []
  | e :: es => e.bare :: bareArguments es

end

mutual

/-- A statement, bare. -/
def Stmt.bare : Stmt → BareStmt
  | .declare _ name init => .declare name.name (init.map Expr.bare)
  | .function d => d.bare
  | .expression _ e => .expression e.bare
  | .block b => .block b.bare
  | .branch _ cond thenPart elsePart =>
      .branch cond.bare thenPart.bare (elseBare elsePart)
  | .loop _ cond body => .loop cond.bare body.bare
  | .giveBack _ value => .giveBack (value.map Expr.bare)
  | .print _ e => .print e.bare
  | .empty _ => .empty

/-- An else part, bare. -/
def elseBare : Option Stmt → Option BareStmt
  | none => none
  | some s => some s.bare

/-- The statements of a block, bare. -/
def Block.bare : Block → List BareStmt
  | ⟨statements, _⟩ => bareStatements statements

/-- The declaration of a function, bare. -/
def FnDecl.bare : FnDecl → BareStmt
  | ⟨name, params, body, _⟩ =>
      .function name.name (params.map (·.name)) body.bare

/-- Statements, bare. -/
def bareStatements : List Stmt → List BareStmt
  | [] => []
  | s :: ss => s.bare :: bareStatements ss

end

/-- A program, bare. -/
def Program.bare (p : Program) : List BareStmt := bareStatements p.statements

-- ========================================================== nested lists

mutual

/-- An expression as a nested list. -/
def Expr.sexp : Expr → Sexp
  | .number _ x => .leaf (Number.text x)
  | .string _ s => .leaf (Text.quoted s)
  | .bool _ b => .leaf (if b then "true" else "false")
  | .nil _ => .leaf "nil"
  | .ident _ name => .leaf name
  | .unary _ op e => .list [.leaf op.text, e.sexp]
  | .binary _ op l r => .list [.leaf op.text, l.sexp, r.sexp]
  | .assign _ target e => .list [.leaf "=", .leaf target.name, e.sexp]
  | .call _ callee args =>
      .list (.leaf "call" :: callee.sexp :: argumentSexps args)
  | .group _ e => .list [.leaf "group", e.sexp]

/-- Arguments as nested lists. -/
def argumentSexps : List Expr → List Sexp
  | [] => []
  | e :: es => e.sexp :: argumentSexps es

end

mutual

/-- A statement as a nested list. -/
def Stmt.sexp : Stmt → Sexp
  | .declare _ name (some e) =>
      .list [.leaf "let", .leaf name.name, e.sexp]
  | .declare _ name none => .list [.leaf "let", .leaf name.name]
  | .function d => d.sexp
  | .expression _ e => .list [.leaf "expr", e.sexp]
  | .block b => b.sexp
  | .branch _ cond thenPart elsePart =>
      .list (.leaf "if" :: cond.sexp :: thenPart.sexp :: elseSexp elsePart)
  | .loop _ cond body => .list [.leaf "while", cond.sexp, body.sexp]
  | .giveBack _ (some e) => .list [.leaf "return", e.sexp]
  | .giveBack _ none => .list [.leaf "return"]
  | .print _ e => .list [.leaf "print", e.sexp]
  | .empty _ => .list [.leaf "empty"]

/-- An else part as nested lists. -/
def elseSexp : Option Stmt → List Sexp
  | none => []
  | some s => [.list [.leaf "else", s.sexp]]

/-- A block as a nested list. -/
def Block.sexp : Block → Sexp
  | ⟨statements, _⟩ => .list (.leaf "block" :: statementSexps statements)

/-- The declaration of a function as a nested list. -/
def FnDecl.sexp : FnDecl → Sexp
  | ⟨name, params, body, _⟩ =>
      .list [.leaf "fn", .leaf name.name,
        .list (params.map fun p => .leaf p.name), body.sexp]

/-- Statements as nested lists. -/
def statementSexps : List Stmt → List Sexp
  | [] => []
  | s :: ss => s.sexp :: statementSexps ss

end

/-- A program as a nested list. -/
def Program.sexp (p : Program) : Sexp :=
  .list (.leaf "program" :: statementSexps p.statements)

-- ======================================================== names, numbers

mutual

/-- Whether `N` holds of all names in an expression, and `F` of all
numbers. -/
def Expr.Leaves (N : String → Prop) (F : Float → Prop) : Expr → Prop
  | .number _ x => F x
  | .string .. | .bool .. | .nil _ => True
  | .ident _ name => N name
  | .unary _ _ e | .group _ e => e.Leaves N F
  | .binary _ _ l r => l.Leaves N F ∧ r.Leaves N F
  | .assign _ target e => N target.name ∧ e.Leaves N F
  | .call _ callee args => callee.Leaves N F ∧ argumentLeaves N F args

/-- Whether they hold of arguments. -/
def argumentLeaves (N : String → Prop) (F : Float → Prop) :
    List Expr → Prop
  | [] => True
  | e :: es => e.Leaves N F ∧ argumentLeaves N F es

end

/-- Whether they hold of an expression, if there is one. -/
def optionalLeaves (N : String → Prop) (F : Float → Prop) :
    Option Expr → Prop
  | none => True
  | some e => e.Leaves N F

mutual

/-- Whether `N` holds of all names in a statement, and `F` of all
numbers. -/
def Stmt.Leaves (N : String → Prop) (F : Float → Prop) : Stmt → Prop
  | .declare _ name init => N name.name ∧ optionalLeaves N F init
  | .function d => d.Leaves N F
  | .expression _ e | .print _ e => e.Leaves N F
  | .block b => b.Leaves N F
  | .branch _ cond thenPart elsePart =>
      cond.Leaves N F ∧ thenPart.Leaves N F ∧ elseLeaves N F elsePart
  | .loop _ cond body => cond.Leaves N F ∧ body.Leaves N F
  | .giveBack _ value => optionalLeaves N F value
  | .empty _ => True

/-- Whether they hold of an else part, if there is one. -/
def elseLeaves (N : String → Prop) (F : Float → Prop) :
    Option Stmt → Prop
  | none => True
  | some s => s.Leaves N F

/-- Whether they hold of a block. -/
def Block.Leaves (N : String → Prop) (F : Float → Prop) : Block → Prop
  | ⟨statements, _⟩ => statementLeaves N F statements

/-- Whether they hold of a function. -/
def FnDecl.Leaves (N : String → Prop) (F : Float → Prop) : FnDecl → Prop
  | ⟨name, params, body, _⟩ =>
      N name.name ∧ (∀ p ∈ params, N p.name) ∧ body.Leaves N F

/-- Whether they hold of statements. -/
def statementLeaves (N : String → Prop) (F : Float → Prop) :
    List Stmt → Prop
  | [] => True
  | s :: ss => s.Leaves N F ∧ statementLeaves N F ss

end

/-- Whether `N` holds of all names in a program, and `F` of all numbers. -/
def Program.Leaves (N : String → Prop) (F : Float → Prop) (p : Program) :
    Prop :=
  statementLeaves N F p.statements

namespace Printed

-- ================================================================ leaves

/-- A text that is spelled as names are. -/
structure IsName (s : String) : Prop where
  word : Spelling.Word s.toList
  free : ∀ k : Keyword, k.text ≠ s

/-- A text that numbers can be printed as. -/
structure IsNumeral (s : String) : Prop where
  nonempty : s ≠ ""
  digits : ∀ c ∈ s.toList, c.isDigit = true ∨ c = '.' ∨ c = '-'

/-- What a word that is no list stands for. -/
def leafOf (text : String) : BareExpr :=
  if text.toList.head? = some '"' then .string (Text.unquoted text)
  else if text.toList.head?.any Token.isWordStart then
    match text with
    | "true" => .bool true
    | "false" => .bool false
    | "nil" => .nil
    | name => .ident name
  else .number text

theorem leafOf_word {s : String} (h : Spelling.Word s.toList) :
    s.toList.head? ≠ some '"'
      ∧ s.toList.head?.any Token.isWordStart = true := by
  generalize s.toList = cs at h
  obtain ⟨hc, -⟩ := h
  rw [← Token.isWordStart_iff] at hc
  refine ⟨?_, hc⟩
  rintro ⟨⟩
  cases hc

theorem leafOf_name {s : String} (h : IsName s) : leafOf s = .ident s := by
  obtain ⟨hquote, hstart⟩ := leafOf_word h.word
  unfold leafOf
  rw [if_neg hquote, if_pos hstart]
  split
  · exact absurd rfl (h.free .trueK)
  · exact absurd rfl (h.free .falseK)
  · exact absurd rfl (h.free .nilK)
  · rfl

theorem leafOf_numeral {s : String} (h : IsNumeral s) :
    leafOf s = .number s := by
  have hne : s.toList ≠ [] := mt String.toList_eq_nil_iff.1 h.nonempty
  obtain ⟨c, cs, hcs⟩ := List.exists_cons_of_ne_nil hne
  have hc := h.digits c (hcs ▸ List.mem_cons_self ..)
  have hquote : c ≠ '"' := by
    rintro rfl
    exact absurd hc (by decide)
  have hstart : ¬ Token.isWordStart c = true := by
    rcases hc with hc | rfl | rfl
    · rw [Token.isWordStart_iff]
      exact fun h => Token.not_digit_of_initial h (Token.isDigit_iff.1 hc)
    all_goals decide
  unfold leafOf
  rw [hcs, if_neg (by simpa using hquote)]
  exact if_neg hstart

theorem leafOf_quoted (s : String) :
    leafOf (Text.quoted s) = .string s := by
  have hquote : (Text.quoted s).toList.head? = some '"' := by
    unfold Text.quoted
    rw [String.toList_ofList]
    rfl
  unfold leafOf
  rw [if_pos hquote, Text.unquoted_quoted]

theorem leafOf_bool (b : Bool) :
    leafOf (if b then "true" else "false") = .bool b := by
  cases b <;> rfl

-- ================================================================= lists

/-- The operator with one operand that a word spells. -/
def unaryOf? (text : String) : Option UnaryOp :=
  [UnaryOp.negate, .not].find? (·.text = text)

/-- The operator with two operands that a word spells. -/
def binaryOf? (text : String) : Option BinaryOp :=
  [BinaryOp.add, .sub, .mul, .div, .rem, .eq, .ne, .lt, .le, .gt, .ge,
    .and, .or].find? (·.text = text)

/-- The expression with a first word and operands. -/
def nodeOf? : String → List BareExpr → Option BareExpr
  | "call", callee :: args => some (.call callee args)
  | "group", [e] => some (.group e)
  | "=", [.ident name, e] => some (.assign name e)
  | head, [e] => (unaryOf? head).map (.unary · e)
  | head, [l, r] => (binaryOf? head).map (.binary · l r)
  | _, _ => none

mutual

/-- The expression that a nested list is. -/
def exprOf? : Sexp → Option BareExpr
  | .leaf text => some (leafOf text)
  | .list (.leaf head :: items) => do nodeOf? head (← exprsOf? items)
  | .list _ => none

/-- The expressions that nested lists are. -/
def exprsOf? : List Sexp → Option (List BareExpr)
  | [] => some []
  | x :: xs => do return (← exprOf? x) :: (← exprsOf? xs)

end

theorem nodeOf?_unary (op : UnaryOp) (e : BareExpr) :
    nodeOf? op.text [e] = some (.unary op e) := by
  cases op <;> rfl

theorem nodeOf?_binary (op : BinaryOp) (l r : BareExpr) :
    nodeOf? op.text [l, r] = some (.binary op l r) := by
  cases op <;> rfl

/-- The names that words are. -/
def namesOf? : List Sexp → Option (List String)
  | [] => some []
  | .leaf name :: xs => do return name :: (← namesOf? xs)
  | .list _ :: _ => none

mutual

/-- The statement that a nested list is. -/
def stmtOf? : Sexp → Option BareStmt
  | .list [.leaf "let", .leaf name] => some (.declare name none)
  | .list [.leaf "let", .leaf name, e] => do
      return .declare name (some (← exprOf? e))
  | .list [.leaf "fn", .leaf name, .list params, body] => do
      return .function name (← namesOf? params) (← bodyOf? body)
  | .list [.leaf "expr", e] => do return .expression (← exprOf? e)
  | .list (.leaf "block" :: items) => do return .block (← stmtsOf? items)
  | .list [.leaf "if", cond, body] => do
      return .branch (← exprOf? cond) (← bodyOf? body) none
  | .list [.leaf "if", cond, body, .list [.leaf "else", s]] => do
      return .branch (← exprOf? cond) (← bodyOf? body) (some (← stmtOf? s))
  | .list [.leaf "while", cond, body] => do
      return .loop (← exprOf? cond) (← bodyOf? body)
  | .list [.leaf "return"] => some (.giveBack none)
  | .list [.leaf "return", e] => do return .giveBack (some (← exprOf? e))
  | .list [.leaf "print", e] => do return .print (← exprOf? e)
  | .list [.leaf "empty"] => some .empty
  | _ => none

/-- The statements of the block that a nested list is. -/
def bodyOf? : Sexp → Option (List BareStmt)
  | .list (.leaf "block" :: items) => stmtsOf? items
  | _ => none

/-- The statements that nested lists are. -/
def stmtsOf? : List Sexp → Option (List BareStmt)
  | [] => some []
  | x :: xs => do return (← stmtOf? x) :: (← stmtsOf? xs)

end

/-- The program that a printed tree is. -/
def programOf? (text : String) : Option (List BareStmt) := do
  match ← sexpOf? text with
  | .list (.leaf "program" :: items) => stmtsOf? items
  | _ => none

-- =========================================================== round trips

/-- A number whose text reads as a number. -/
def Legible (x : Float) : Prop := IsNumeral (Number.text x)

mutual

theorem exprOf?_sexp : ∀ e : Expr, e.Leaves IsName Legible →
    exprOf? e.sexp = some e.bare
  | .number _ x, h => congrArg some (leafOf_numeral h)
  | .string _ s, _ => congrArg some (leafOf_quoted s)
  | .bool _ b, _ => congrArg some (leafOf_bool b)
  | .nil _, _ => rfl
  | .ident _ name, h => congrArg some (leafOf_name h)
  | .unary _ op e, h => by
      simp only [Expr.sexp, exprOf?, exprsOf?, exprOf?_sexp e h]
      exact nodeOf?_unary op _
  | .binary _ op l r, h => by
      simp only [Expr.sexp, exprOf?, exprsOf?, exprOf?_sexp l h.1,
        exprOf?_sexp r h.2]
      exact nodeOf?_binary op _ _
  | .assign _ target e, h => by
      simp only [Expr.sexp, exprOf?, exprsOf?, exprOf?_sexp e h.2,
        leafOf_name h.1]
      rfl
  | .call _ callee args, h => by
      simp only [Expr.sexp, exprOf?, exprsOf?, exprOf?_sexp callee h.1,
        exprsOf?_sexps args h.2]
      rfl
  | .group _ e, h => by
      simp only [Expr.sexp, exprOf?, exprsOf?, exprOf?_sexp e h]
      rfl

theorem exprsOf?_sexps : ∀ es : List Expr, argumentLeaves IsName Legible es →
    exprsOf? (argumentSexps es) = some (bareArguments es)
  | [], _ => rfl
  | e :: es, h => by
      simp only [argumentSexps, exprsOf?, exprOf?_sexp e h.1,
        exprsOf?_sexps es h.2]
      rfl

end

theorem namesOf?_leaves (names : List Ident) :
    namesOf? (names.map fun x => .leaf x.name) =
      some (names.map (·.name)) := by
  induction names with
  | nil => rfl
  | cons x xs ih =>
      simp only [List.map_cons, namesOf?, ih]
      rfl

mutual

theorem stmtOf?_sexp : ∀ s : Stmt, s.Leaves IsName Legible →
    stmtOf? s.sexp = some s.bare
  | .declare _ name none, _ => rfl
  | .declare _ name (some e), h => by
      simp only [Stmt.sexp, stmtOf?, exprOf?_sexp e h.2]
      rfl
  | .function d, h => stmtOf?_function d h
  | .expression _ e, h => by
      simp only [Stmt.sexp, stmtOf?, exprOf?_sexp e h]
      rfl
  | .block ⟨statements, _⟩, h => by
      simp only [Stmt.sexp, Block.sexp, stmtOf?, stmtsOf?_sexps statements h]
      rfl
  | .branch _ cond thenPart none, h => by
      simp only [Stmt.sexp, elseSexp, stmtOf?, exprOf?_sexp cond h.1,
        bodyOf?_sexp thenPart h.2.1]
      rfl
  | .branch _ cond thenPart (some s), h => by
      simp only [Stmt.sexp, elseSexp, stmtOf?, exprOf?_sexp cond h.1,
        bodyOf?_sexp thenPart h.2.1, stmtOf?_sexp s h.2.2]
      rfl
  | .loop _ cond body, h => by
      simp only [Stmt.sexp, stmtOf?, exprOf?_sexp cond h.1,
        bodyOf?_sexp body h.2]
      rfl
  | .giveBack _ none, _ => rfl
  | .giveBack _ (some e), h => by
      simp only [Stmt.sexp, stmtOf?, exprOf?_sexp e h]
      rfl
  | .print _ e, h => by
      simp only [Stmt.sexp, stmtOf?, exprOf?_sexp e h]
      rfl
  | .empty _, _ => rfl

theorem stmtOf?_function : ∀ d : FnDecl, d.Leaves IsName Legible →
    stmtOf? d.sexp = some d.bare
  | ⟨name, params, body, _⟩, h => by
      simp only [FnDecl.sexp, stmtOf?, namesOf?_leaves params,
        bodyOf?_sexp body h.2.2]
      rfl

theorem bodyOf?_sexp : ∀ b : Block, b.Leaves IsName Legible →
    bodyOf? b.sexp = some b.bare
  | ⟨statements, _⟩, h => by
      simp only [Block.sexp, bodyOf?, stmtsOf?_sexps statements h]
      rfl

theorem stmtsOf?_sexps : ∀ ss : List Stmt,
    statementLeaves IsName Legible ss →
      stmtsOf? (statementSexps ss) = some (bareStatements ss)
  | [], _ => rfl
  | s :: ss, h => by
      simp only [statementSexps, stmtsOf?, stmtOf?_sexp s h.1,
        stmtsOf?_sexps ss h.2]
      rfl

end

end Printed

end Script
