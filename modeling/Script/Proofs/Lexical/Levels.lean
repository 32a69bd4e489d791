/-
What names mean at a place of a program, block by block. A level is a
block around the place, with the names it has declared up to there; the
levels of the function that the place is in come first, those around the
function follow. A name means the first level that has it. For each kind
of tree there is a relation which says that all of its names mean what the
notes of the program say.

A level also knows the statement that it has come to, by the names used in
functions which this statement declares. This is what tells later that a
use is inside of the statement while a declaration is behind it. The top
of the program is ahead for the functions that are hoisted there: these
know its names before they are bound.
-/
import Script.Proofs.Lexical.Occurrences

namespace Script.Lexical

open Code

-- ================================================================ levels

/-- A block as a whole. -/
structure Home where
  /-- The function whose slots it uses; none for the main one. -/
  owner : Option Span
  /-- Whether it is the top of the program. -/
  top : Bool
  /-- All its names in the end. -/
  table : Names
  /-- The declarations in it. -/
  declared : List Ident

/-- The variable of a slot. -/
def Home.variable (h : Home) (slot : Nat) : Variable :=
  match h.owner with
  | none => .global slot
  | some f => .own f slot

/-- A block around a place. -/
structure Level where
  home : Home
  /-- Its names so far. -/
  table : Names
  /-- The names used in functions of the statement it has come to. -/
  enclosed : List Ident
  /-- Whether it has names that may not be bound yet. -/
  ahead : Bool

/-- What a name means, from the first level outward. -/
def meaning? (ls : List Level) (name : String) : Option Variable :=
  ls.findSome? fun l => (l.table.lookup name).map l.home.variable

/-- The levels at a place, from the inside out. -/
structure Env where
  here : Level
  /-- The other levels of the same function. -/
  own : List Level
  /-- The levels around this function. -/
  around : List Level

namespace Env

/-- All levels from the inside out. -/
def levels (E : Env) : List Level := E.here :: (E.own ++ E.around)

/-- The innermost block with other names so far. -/
def knowing (E : Env) (t : Names) : Env :=
  { E with here := { E.here with table := t } }

/-- The innermost block has come to a statement. -/
def running (E : Env) (s : Stmt) : Env :=
  { E with here := { E.here with enclosed := s.enclosed } }

/-- At the beginning of a block. -/
def openBlock (E : Env) (h : Home) : Env :=
  ⟨⟨h, [], [], false⟩, E.here :: E.own, E.around⟩

/-- At the beginning of a function. -/
def openFunction (E : Env) (h : Home) : Env :=
  ⟨⟨h, [], [], false⟩, [], E.levels⟩

end Env

-- ============================================================== programs

/-- The top of a program as a block. -/
def top (p : Program) : Home :=
  ⟨none, true, p.final.main.block, p.functionNames ++ declaredIn p.others⟩

/-- At the top of a program, with the names so far. -/
def topEnv (p : Program) (t : Names) : Env := ⟨⟨top p, t, [], false⟩, [], []⟩

/-- At the declaration of a function that is hoisted: all names of the top
are known, whether or not they are bound. -/
def hoistedEnv (p : Program) (d : FnDecl) : Env :=
  ⟨⟨top p, p.final.main.block, d.used, true⟩, [], []⟩

-- ============================================================= relations

section

variable (p : Program)

/-- A block has come to a statement of the program and has all names
declared up to the end of it. -/
def Level.Reached (l : Level) : Prop :=
  ∃ b ∈ stmtsBodies p.statements, ∃ before s behind,
    b.statements = before ++ s :: behind ∧ l.enclosed = s.enclosed
      ∧ l.home.declared = b.declared
      ∧ ∀ z ∈ b.params ++ declaredIn (before ++ [s]),
        (l.table.lookup z.name).isSome

/-- What is known of a block around a function: it has come to a statement
or it is the top, ahead for a function that is hoisted. -/
structure Level.Placed (l : Level) : Prop where
  reached : l.home.top = false → l.Reached p
  ahead : l.ahead = true →
    l.home = top p ∧ ∃ d ∈ p.functions, l.enclosed = d.used

/-- A use of a name means what the notes say, and the blocks around its
function have come to a statement with this function. -/
structure UseNamed (E : Env) (x : Ident) : Prop where
  means : ∃ v, p.variableAt x.span = some v
    ∧ meaning? E.levels x.name = some v
  enclosed : ∀ l ∈ E.around, x ∈ l.enclosed

/-- All names of an expression mean what the notes say. -/
def ExprNamed (E : Env) (e : Expr) : Prop := ∀ x ∈ e.used, UseNamed p E x

/-- A declaration in a block, with the names behind it. -/
structure Makes (l : Level) (x : Ident) (t : Names) : Prop where
  listed : x ∈ l.home.declared
  slot : ∃ slot, l.home.table.lookup x.name = some slot
    ∧ p.variableAt x.span = some (l.home.variable slot)
    ∧ ∀ name, t.lookup name =
      if name = x.name then some slot else l.table.lookup name

/-- Declarations one after the other, with the names behind them. -/
inductive MakesAll : Level → List Ident → Names → Prop
  | nil {l : Level} : MakesAll l [] l.table
  | cons {l : Level} {x : Ident} {xs : List Ident} {t t' : Names}
      (hx : Makes p l x t) (hxs : MakesAll { l with table := t } xs t') :
      MakesAll l (x :: xs) t'

mutual

/-- A statement, with the names of its block behind it. -/
inductive StmtNamed : Env → Stmt → Names → Prop
  | declare {E : Env} {span : Span} {x : Ident} {init : Option Expr}
      {t : Names} (hinit : ∀ e, init = some e → ExprNamed p E e)
      (hx : Makes p E.here x t) : StmtNamed E (.declare span x init) t
  | function {E : Env} {d : FnDecl} {t : Names}
      (hx : Makes p E.here d.name t) (hd : FnNamed (E.knowing t) d) :
      StmtNamed E (.function d) t
  | expression {E : Env} {span : Span} {e : Expr} (he : ExprNamed p E e) :
      StmtNamed E (.expression span e) E.here.table
  | block {E : Env} {b : Block} (hb : BlockNamed E b.statements) :
      StmtNamed E (.block b) E.here.table
  | branch {E : Env} {span : Span} {e : Expr} {b : Block}
      (he : ExprNamed p E e) (hb : BlockNamed E b.statements) :
      StmtNamed E (.branch span e b none) E.here.table
  | choice {E : Env} {span : Span} {e : Expr} {b : Block} {s : Stmt}
      (he : ExprNamed p E e) (hb : BlockNamed E b.statements)
      (hs : StmtNamed E s E.here.table) :
      StmtNamed E (.branch span e b (some s)) E.here.table
  | loop {E : Env} {span : Span} {e : Expr} {b : Block}
      (he : ExprNamed p E e) (hb : BlockNamed E b.statements) :
      StmtNamed E (.loop span e b) E.here.table
  | giveBack {E : Env} {span : Span} {e : Option Expr}
      (he : ∀ e', e = some e' → ExprNamed p E e') :
      StmtNamed E (.giveBack span e) E.here.table
  | print {E : Env} {span : Span} {e : Expr} (he : ExprNamed p E e) :
      StmtNamed E (.print span e) E.here.table
  | empty {E : Env} {span : Span} : StmtNamed E (.empty span) E.here.table

/-- The statements of a block from a place on. -/
inductive StmtsNamed : Env → List Stmt → Prop
  | nil {E : Env} : StmtsNamed E []
  | cons {E : Env} {s : Stmt} {ss : List Stmt} {t : Names}
      (hs : StmtNamed (E.running s) s t)
      (hss : StmtsNamed ((E.running s).knowing t) ss) :
      StmtsNamed E (s :: ss)

/-- The statements of a block inside of the function. -/
inductive BlockNamed : Env → List Stmt → Prop
  | mk {E : Env} {ss : List Stmt} (h : Home) (htop : h.top = false)
      (hss : StmtsNamed (E.openBlock h) ss) : BlockNamed E ss

/-- The declaration of a function, at the place where it stands. -/
inductive FnNamed : Env → FnDecl → Prop
  | mk {E : Env} {d : FnDecl} {t : Names} (h : Home) (htop : h.top = false)
      (hplaced : ∀ l ∈ E.levels, l.Placed p)
      (hparams : MakesAll p (E.openFunction h).here d.params t)
      (hss : StmtsNamed ((E.openFunction h).knowing t) d.body.statements) :
      FnNamed E d

end

end

-- ============================================================ everything

/-- All names of a program mean what its notes say. The functions at the
top are declared in front of the first statement, and their bodies know
all names of the top. -/
structure Named (p : Program) : Prop where
  hoisted : MakesAll p (topEnv p []).here p.functionNames
    p.hoisted.main.block
  functions : ∀ d ∈ p.functions, FnNamed p (hoistedEnv p d) d
  others : StmtsNamed p (topEnv p p.hoisted.main.block) p.others

end Script.Lexical
