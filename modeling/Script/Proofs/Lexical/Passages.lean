/-
The names of a program in the order in which code is made of them. Each
function of the program becomes one of the code, the main function first,
and so it gives a passage of its own: the names in the function, without
those in functions that stand in it. The instructions that read or write a
variable follow these names, one after the other; the target of an
assignment is written and then read again.
-/
import Mathlib.Data.List.Forall2
import Script.Code.Emit
import Script.Proofs.Lexical.Occurrences

namespace Script

-- =========================================================== expressions

mutual

/-- The names of an expression in the order of its code. -/
def Expr.accessed : Expr → List Ident
  | .number .. | .string .. | .bool .. | .nil _ => []
  | .ident span name => [⟨name, span⟩]
  | .unary _ _ e | .group _ e => e.accessed
  | .binary _ _ l r => l.accessed ++ r.accessed
  | .assign _ target e => e.accessed ++ [target] ++ [target]
  | .call _ f args => f.accessed ++ accessedInAll args

/-- The names of expressions in the order of their code. -/
def accessedInAll : List Expr → List Ident
  | [] => []
  | e :: es => e.accessed ++ accessedInAll es

end

/-- The names of an expression in the order of its code, if there is
one. -/
def optionalAccessed : Option Expr → List Ident
  | none => []
  | some e => e.accessed

-- ============================================================ statements

mutual

/-- The names of a statement in the order of its code. -/
def Stmt.accessed : Stmt → List Ident
  | .declare _ x init => optionalAccessed init ++ [x]
  | .function d => [d.name]
  | .expression _ e | .print _ e => e.accessed
  | .block b => b.accessed
  | .branch _ cond thenPart elsePart =>
      cond.accessed ++ (thenPart.accessed ++ elseAccessed elsePart)
  | .loop _ cond body => cond.accessed ++ body.accessed
  | .giveBack _ value => optionalAccessed value
  | .empty _ => []

/-- The names of an else part, if there is one. -/
def elseAccessed : Option Stmt → List Ident
  | none => []
  | some s => s.accessed

/-- The names of a block in the order of its code. -/
def Block.accessed : Block → List Ident
  | ⟨ss, _⟩ => stmtsAccessed ss

/-- The names of statements in the order of their code. -/
def stmtsAccessed : List Stmt → List Ident
  | [] => []
  | s :: ss => s.accessed ++ stmtsAccessed ss

end

-- ============================================================== passages

/-- A function of a program, known by the span of its name, or the main one:
with its names in the order of its code. -/
structure Passage where
  owner : Option Span
  names : List Ident

/-- The passage of a function. -/
def FnDecl.passage : FnDecl → Passage
  | ⟨x, _, body, _⟩ => ⟨some x.span, body.accessed⟩

mutual

/-- The passages of the functions in a statement, in the order in which the
compiler comes to them. -/
def Stmt.inner : Stmt → List Passage
  | .function d => d.passage :: d.inner
  | .block b => b.inner
  | .branch _ _ thenPart elsePart => thenPart.inner ++ elseInner elsePart
  | .loop _ _ body => body.inner
  | .declare .. | .expression .. | .giveBack .. | .print .. | .empty _ => []

/-- The passages of the functions in an else part, if there is one. -/
def elseInner : Option Stmt → List Passage
  | none => []
  | some s => s.inner

/-- The passages of the functions in a function. -/
def FnDecl.inner : FnDecl → List Passage
  | ⟨_, _, body, _⟩ => body.inner

/-- The passages of the functions in a block. -/
def Block.inner : Block → List Passage
  | ⟨ss, _⟩ => stmtsInner ss

/-- The passages of the functions in statements. -/
def stmtsInner : List Stmt → List Passage
  | [] => []
  | s :: ss => s.inner ++ stmtsInner ss

end

/-- The passages of a program: that of the main function, those of the
functions at the top, and those of the functions in all of these. -/
def Program.passages (p : Program) : List Passage :=
  ⟨none, p.functionNames ++ stmtsAccessed p.others⟩
    :: (p.functions.map FnDecl.passage
      ++ (stmtsInner p.others ++ p.functions.flatMap FnDecl.inner))

namespace Lexical

open Code

-- ========================================================== instructions

/-- The variable that an instruction reads or writes. -/
def symbolOf? : Instr → Option Symbol
  | .loadGlobal slot | .storeGlobal slot => some (.global slot)
  | .loadLocal slot | .storeLocal slot => some (.own slot)
  | _ => none

/-- The variables that instructions read or write, in their order. -/
def accesses (code : List Instr) : List Symbol := code.filterMap symbolOf?

@[simp] theorem accesses_nil : accesses [] = [] := rfl

@[simp] theorem accesses_append (l r : List Instr) :
    accesses (l ++ r) = accesses l ++ accesses r := List.filterMap_append

theorem accesses_cons {instr : Instr} (h : symbolOf? instr = none)
    (code : List Instr) : accesses (instr :: code) = accesses code :=
  List.filterMap_cons_none h

theorem accesses_load {symbol : Symbol} (h : symbol ≠ .captured) :
    accesses (load symbol) = [symbol] := by
  cases symbol with
  | captured => exact (h rfl).elim
  | _ => rfl

theorem accesses_store {symbol : Symbol} (h : symbol ≠ .captured) :
    accesses (store symbol) = [symbol] := by
  cases symbol with
  | captured => exact (h rfl).elim
  | _ => rfl

-- ================================================================= names

section

variable (vars : Span → Option Variable)

/-- Whether names, one after the other, have the variables that code of a
function reads or writes. -/
def Tells (fn : Option Span) (symbols : List Symbol) (xs : List Ident) :
    Prop :=
  symbols.map (ofSymbol? fn) = xs.map fun x => vars x.span

/-- Whether a function of the code is made of a passage, with these
variables for the names. -/
def Told (f : Function) (q : Passage) : Prop :=
  Tells vars q.owner (accesses f.code) q.names

/-- Whether notes give these variables to names. -/
def Hold (ns : Notes) : Prop := ∀ n ∈ ns, vars n.1 = n.2

end

variable {vars : Span → Option Variable} {fn : Option Span}

theorem Tells.nil : Tells vars fn [] [] := rfl

theorem Tells.append {ss ts : List Symbol} {xs ys : List Ident}
    (h : Tells vars fn ss xs) (h' : Tells vars fn ts ys) :
    Tells vars fn (ss ++ ts) (xs ++ ys) := by
  unfold Tells
  rw [List.map_append, List.map_append, h, h']

theorem Hold.left {ms ns : Notes} (h : Hold vars (ms ++ ns)) :
    Hold vars ms := (List.forall_mem_append.1 h).1

theorem Hold.right {ms ns : Notes} (h : Hold vars (ms ++ ns)) :
    Hold vars ns := (List.forall_mem_append.1 h).2

/-- A name in use. -/
theorem Tells.use {t : Symbols} {x : Ident} {symbol : Symbol}
    (hx : t.resolve? x.name = some symbol)
    (hvar : vars x.span = (useNote fn t x).2) :
    Tells vars fn [symbol] [x] := by
  show [ofSymbol? fn symbol] = [vars x.span]
  rw [hvar]
  unfold useNote
  rw [hx]
  rfl

/-- A name that is declared. -/
theorem Tells.make {t : Symbols} {x : Ident}
    (hvar : vars x.span = (makeNote fn t x).2) :
    Tells vars fn [(t.declare x.name).1] [x] := by
  show [ofSymbol? fn _] = [vars x.span]
  rw [hvar]
  rfl

end Lexical

end Script
