/-
Where names stand in a tree. A name is used as an operand or as the target
of an assignment, and declared by a variable, a function or a parameter.
Some uses stand in functions that a statement declares: these are
evaluated when the function is called, and that may be long after the
statement. In between, the block around the statement can go on and
declare more names. A declaration that a use could meet in this way only
is late for it.

Then the variables that the compiler gives to names. The symbol table goes
through a tree in the order in which code is made, and at each name it
says what the name means or which slot its declaration gets. Here is this
passage without the code: the table behind a piece of a program, and the
notes taken of all names in the piece. A function is passed in a frame of
its own, which is gone behind it.
-/
import Script.Code.Symbols
import Script.Tree.Basic

namespace Script

-- ================================================================== uses

mutual

/-- The names that an expression uses, in the order of the text. -/
def Expr.used : Expr → List Ident
  | .number .. | .string .. | .bool .. | .nil _ => []
  | .ident span name => [⟨name, span⟩]
  | .unary _ _ e | .group _ e => e.used
  | .binary _ _ l r => l.used ++ r.used
  | .assign _ target e => target :: e.used
  | .call _ f args => f.used ++ usedInAll args

/-- The names that expressions use. -/
def usedInAll : List Expr → List Ident
  | [] => []
  | e :: es => e.used ++ usedInAll es

end

/-- The names that an expression uses, if there is one. -/
def optionalUsed : Option Expr → List Ident
  | none => []
  | some e => e.used

mutual

/-- The names used anywhere in a statement. -/
def Stmt.used : Stmt → List Ident
  | .declare _ _ init => optionalUsed init
  | .function d => d.used
  | .expression _ e | .print _ e => e.used
  | .block b => b.used
  | .branch _ cond thenPart elsePart =>
      cond.used ++ (thenPart.used ++ elseUsed elsePart)
  | .loop _ cond body => cond.used ++ body.used
  | .giveBack _ value => optionalUsed value
  | .empty _ => []

/-- The names used in an else part, if there is one. -/
def elseUsed : Option Stmt → List Ident
  | none => []
  | some s => s.used

/-- The names used in a function. -/
def FnDecl.used : FnDecl → List Ident
  | ⟨_, _, body, _⟩ => body.used

/-- The names used in a block. -/
def Block.used : Block → List Ident
  | ⟨ss, _⟩ => stmtsUsed ss

/-- The names used in statements. -/
def stmtsUsed : List Stmt → List Ident
  | [] => []
  | s :: ss => s.used ++ stmtsUsed ss

end

-- ============================================================= all names

mutual

/-- All names in a statement, used or declared, in the order of the
text. -/
def Stmt.names : Stmt → List Ident
  | .declare _ x init => x :: optionalUsed init
  | .function d => d.names
  | .expression _ e | .print _ e => e.used
  | .block b => b.names
  | .branch _ cond thenPart elsePart =>
      cond.used ++ (thenPart.names ++ elseNames elsePart)
  | .loop _ cond body => cond.used ++ body.names
  | .giveBack _ value => optionalUsed value
  | .empty _ => []

/-- All names in an else part, if there is one. -/
def elseNames : Option Stmt → List Ident
  | none => []
  | some s => s.names

/-- All names in a function, its own first. -/
def FnDecl.names : FnDecl → List Ident
  | ⟨x, params, body, _⟩ => x :: (params ++ body.names)

/-- All names in a block. -/
def Block.names : Block → List Ident
  | ⟨ss, _⟩ => stmtsNames ss

/-- All names in statements. -/
def stmtsNames : List Stmt → List Ident
  | [] => []
  | s :: ss => s.names ++ stmtsNames ss

end

-- ======================================================= uses in functions

mutual

/-- The names used in functions that a statement declares. -/
def Stmt.enclosed : Stmt → List Ident
  | .function d => d.used
  | .block b => b.enclosed
  | .branch _ _ thenPart elsePart => thenPart.enclosed ++ elseEnclosed elsePart
  | .loop _ _ body => body.enclosed
  | .declare .. | .expression .. | .giveBack .. | .print .. | .empty _ => []

/-- The names used in functions of an else part, if there is one. -/
def elseEnclosed : Option Stmt → List Ident
  | none => []
  | some s => s.enclosed

/-- The names used in functions of a block. -/
def Block.enclosed : Block → List Ident
  | ⟨ss, _⟩ => stmtsEnclosed ss

/-- The names used in functions of statements. -/
def stmtsEnclosed : List Stmt → List Ident
  | [] => []
  | s :: ss => s.enclosed ++ stmtsEnclosed ss

end

-- ========================================================== declarations

/-- The name that a statement declares in the block where it stands. -/
def Stmt.declared? : Stmt → Option Ident
  | .declare _ x _ => some x
  | .function d => some d.name
  | _ => none

/-- The names that statements declare in the block where they stand. -/
def declaredIn (ss : List Stmt) : List Ident := ss.filterMap Stmt.declared?

/-- The statements of a block, with the parameters if it is the body of a
function. -/
structure Body where
  params : List Ident
  statements : List Stmt

/-- The names declared in a block. -/
def Body.declared (b : Body) : List Ident :=
  b.params ++ declaredIn b.statements

mutual

/-- All blocks in a statement. -/
def Stmt.bodies : Stmt → List Body
  | .function d => d.bodies
  | .block b => b.bodies
  | .branch _ _ thenPart elsePart => thenPart.bodies ++ elseBodies elsePart
  | .loop _ _ body => body.bodies
  | .declare .. | .expression .. | .giveBack .. | .print .. | .empty _ => []

/-- All blocks in an else part, if there is one. -/
def elseBodies : Option Stmt → List Body
  | none => []
  | some s => s.bodies

/-- The body of a function, and all blocks in it. -/
def FnDecl.bodies : FnDecl → List Body
  | ⟨_, params, ⟨ss, _⟩, _⟩ => ⟨params, ss⟩ :: stmtsBodies ss

/-- A block, and all blocks in it. -/
def Block.bodies : Block → List Body
  | ⟨ss, _⟩ => ⟨[], ss⟩ :: stmtsBodies ss

/-- All blocks in statements. -/
def stmtsBodies : List Stmt → List Body
  | [] => []
  | s :: ss => s.bodies ++ stmtsBodies ss

end

/-- Whether a declaration is late for a use: it stands in a block behind
the statement with a function that the use is in, and neither up to this
statement nor as a parameter was its name declared in the block. The top
of the program is no block. -/
def Program.Late (p : Program) (use made : Span) : Prop :=
  ∃ b ∈ stmtsBodies p.statements, ∃ before s behind,
    b.statements = before ++ s :: behind
      ∧ ∃ x ∈ s.enclosed, ∃ y ∈ declaredIn behind,
        x.span = use ∧ y.span = made ∧ x.name = y.name
          ∧ ∀ z ∈ b.params ++ declaredIn (before ++ [s]), z.name ≠ y.name

end Script

namespace Script.Lexical

-- ============================================================= variables

open Code

/-- A variable of the finished code. -/
inductive Variable where
  | global (slot : Nat)
  /-- A slot of a function, which is known by the span of its name. -/
  | own (function : Span) (slot : Nat)
deriving DecidableEq, Repr

/-- The variable that a symbol stands for in a function. -/
def ofSymbol? (fn : Option Span) : Symbol → Option Variable
  | .global slot => some (.global slot)
  | .own slot => fn.map (.own · slot)
  | .captured => none

/-- For each name, by its span, the variable that it stands for. -/
abbrev Notes := List (Span × Option Variable)

/-- The note of a name in use. -/
def useNote (fn : Option Span) (s : Symbols) (x : Ident) :
    Span × Option Variable :=
  (x.span, (s.resolve? x.name).bind (ofSymbol? fn))

/-- The note of a name that is declared. -/
def makeNote (fn : Option Span) (s : Symbols) (x : Ident) :
    Span × Option Variable :=
  (x.span, ofSymbol? fn (s.declare x.name).1)

/-- The table behind declarations of names. -/
def declareAll (s : Symbols) (xs : List Ident) : Symbols :=
  xs.foldl (fun s x => (s.declare x.name).2) s

/-- The notes of names that are declared one after the other. -/
def makeNotes (fn : Option Span) (s : Symbols) : List Ident → Notes
  | [] => []
  | x :: xs => makeNote fn s x :: makeNotes fn (s.declare x.name).2 xs

end Script.Lexical

namespace Script

open Code Lexical

mutual

/-- The table behind a statement. -/
def Stmt.after (s : Symbols) : Stmt → Symbols
  | .declare _ x _ => (s.declare x.name).2
  | .function d => (s.declare d.name.name).2
  | .block b => b.after s
  | .branch _ _ thenPart elsePart => elseAfter (thenPart.after s) elsePart
  | .loop _ _ body => body.after s
  | .expression .. | .giveBack .. | .print .. | .empty _ => s

/-- The table behind an else part, if there is one. -/
def elseAfter (s : Symbols) : Option Stmt → Symbols
  | none => s
  | some t => t.after s

/-- The table behind a block. -/
def Block.after (s : Symbols) : Block → Symbols
  | ⟨ss, _⟩ => (stmtsAfter s.openBlock ss).closeBlock

/-- The table behind statements. -/
def stmtsAfter (s : Symbols) : List Stmt → Symbols
  | [] => s
  | t :: ts => stmtsAfter (t.after s) ts

end

mutual

/-- The notes of a statement in a function; of the main one if there is
none. -/
def Stmt.notes (fn : Option Span) (s : Symbols) : Stmt → Notes
  | .declare _ x init =>
      makeNote fn s x :: (optionalUsed init).map (useNote fn s)
  | .function d =>
      makeNote fn s d.name :: d.notes (s.declare d.name.name).2
  | .expression _ e | .print _ e => e.used.map (useNote fn s)
  | .block b => b.notes fn s
  | .branch _ cond thenPart elsePart =>
      cond.used.map (useNote fn s)
        ++ (thenPart.notes fn s ++ elseNotes fn (thenPart.after s) elsePart)
  | .loop _ cond body => cond.used.map (useNote fn s) ++ body.notes fn s
  | .giveBack _ value => (optionalUsed value).map (useNote fn s)
  | .empty _ => []

/-- The notes of an else part, if there is one. -/
def elseNotes (fn : Option Span) (s : Symbols) : Option Stmt → Notes
  | none => []
  | some t => t.notes fn s

/-- The notes of the parameters and the body of a function. -/
def FnDecl.notes (s : Symbols) : FnDecl → Notes
  | ⟨x, params, ⟨ss, _⟩, _⟩ =>
      makeNotes (some x.span) s.openFrame params
        ++ stmtsNotes (some x.span) (declareAll s.openFrame params) ss

/-- The notes of a block. -/
def Block.notes (fn : Option Span) (s : Symbols) : Block → Notes
  | ⟨ss, _⟩ => stmtsNotes fn s.openBlock ss

/-- The notes of statements. -/
def stmtsNotes (fn : Option Span) (s : Symbols) : List Stmt → Notes
  | [] => []
  | t :: ts => t.notes fn s ++ stmtsNotes fn (t.after s) ts

end

/-- The statements of a list that are no functions. -/
def otherStatements (ts : List Stmt) : List Stmt :=
  ts.filter fun t => t.function?.isNone

theorem otherStatements_cons {t : Stmt} (h : t.function? = none)
    (ts : List Stmt) :
    otherStatements (t :: ts) = t :: otherStatements ts := by
  unfold otherStatements
  rw [List.filter_cons, h]
  rfl

namespace Program

/-- The names of the functions at the top of a program. -/
def functionNames (p : Program) : List Ident := p.functions.map (·.name)

/-- The statements at the top of a program that are no functions. -/
def others (p : Program) : List Stmt := otherStatements p.statements

/-- The table in front of the first statement. -/
def hoisted (p : Program) : Symbols := declareAll .empty p.functionNames

/-- The table behind the last statement. -/
def final (p : Program) : Symbols := stmtsAfter p.hoisted p.others

/-- The notes of a whole program. The functions at its top are declared
before its first statement, and their bodies come last. -/
def notes (p : Program) : Notes :=
  makeNotes none .empty p.functionNames
    ++ (stmtsNotes none p.hoisted p.others
      ++ p.functions.flatMap (FnDecl.notes p.final))

/-- The variable that the compiler gives to the name at a span, whether it
is used or declared there. -/
def variableAt (p : Program) (span : Span) : Option Variable :=
  (p.notes.lookup span).join

end Program

end Script
