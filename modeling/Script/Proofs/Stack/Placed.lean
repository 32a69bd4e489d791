/-
What the code of a piece of the tree looks like where it stands. The
relations here say which instructions are found between two places of a
function, and what they have to do with the tree; how code is made does
not matter to them. A site is what a place knows about names: the tables
of the blocks around it, and whose slots these tables are about.

The names at the top of the program have one table for the whole program.
Each of its slots belongs to one name, and in the main function no inner
table shares a slot with it.
-/
import Script.Code.Symbols
import Script.Proofs.Stack.Machine

namespace Script.Stack

open Code

/-- What a place in the code knows about names. -/
structure Site where
  /-- Whether the inner names are locals of a function. Those of the main
  function are globals. -/
  own : Bool
  /-- How many slots there are for the inner names. -/
  limit : Nat
  /-- The tables of the blocks that are open, from the inside out. -/
  tables : List Names

namespace Site

/-- The variable of a slot that an inner table names. -/
def inner (site : Site) (slot : Nat) : Symbol :=
  if site.own then .own slot else .global slot

/-- The slot of a name in the inner tables. -/
def slot? (site : Site) (name : String) : Option Nat :=
  site.tables.findSome? (·.lookup name)

/-- What a name means at a site, `roots` being the names at the top of
the program. -/
def symbol? (roots : Names) (site : Site) (name : String) :
    Option Symbol :=
  match site.slot? name with
  | some slot => some (site.inner slot)
  | none => (roots.lookup name).map .global

theorem symbol?_of_inner {roots : Names} {site : Site} {name : String}
    {slot : Nat} (h : site.slot? name = some slot) :
    site.symbol? roots name = some (site.inner slot) := by
  unfold symbol?
  rw [h]

theorem symbol?_of_outer {roots : Names} {site : Site} {name : String}
    (h : site.slot? name = none) :
    site.symbol? roots name = (roots.lookup name).map .global := by
  unfold symbol?
  rw [h]

/-- Opens a block. -/
def openBlock (site : Site) : Site :=
  { site with tables := [] :: site.tables }

/-- All slots of the inner tables. -/
def slots (site : Site) : List Nat := site.tables.flatten.map (·.2)

end Site

/-- The effect of giving a name a slot. -/
inductive Declares (roots : Names) (name : String) :
    Site → Symbol → Site → Prop
  /-- At the top of the program. -/
  | top {own : Bool} {limit slot : Nat} (hroot : roots.lookup name = some slot)
      (hown : own = false) :
      Declares roots name ⟨own, limit, []⟩ (.global slot) ⟨own, limit, []⟩
  /-- A name that the block has already. -/
  | again {site : Site} {t : Names} {ts : List Names} {slot : Nat}
      (htables : site.tables = t :: ts) (hslot : t.lookup name = some slot) :
      Declares roots name site (site.inner slot) site
  /-- A name that is new to the block, with a slot that is in no use. -/
  | new {own : Bool} {limit slot : Nat} {t : Names} {ts : List Names}
      (hname : t.lookup name = none) (hlimit : slot < limit)
      (hfree : slot ∉ (⟨own, limit, t :: ts⟩ : Site).slots)
      (hroots : own = false → ∀ other, roots.lookup other ≠ some slot) :
      Declares roots name ⟨own, limit, t :: ts⟩
        ((⟨own, limit, t :: ts⟩ : Site).inner slot)
        ⟨own, limit, ((name, slot) :: t) :: ts⟩

/-- Pushes the value of a variable. -/
inductive IsLoad : Symbol → Instr → Prop
  | global (slot : Nat) : IsLoad (.global slot) (.loadGlobal slot)
  | own (slot : Nat) : IsLoad (.own slot) (.loadLocal slot)

/-- Pops a value into a variable. -/
inductive IsStore : Symbol → Instr → Prop
  | global (slot : Nat) : IsStore (.global slot) (.storeGlobal slot)
  | own (slot : Nat) : IsStore (.own slot) (.storeLocal slot)

section Placed

variable (constants : List Constant) (roots : Names) (full : List Instr)

/-- The constant that is pushed at a place. -/
def PushAt (i : Nat) (k : Constant) : Prop :=
  ∃ index, full[i]? = some (.pushConst index)
    ∧ constants[index]? = some k

mutual

/-- The code of an expression from one place to another. -/
inductive ExprAt : Site → Nat → Expr → Nat → Prop
  | number {site : Site} {i : Nat} {span : Span} {x : Float}
      (h : PushAt constants full i (.number x)) :
      ExprAt site i (.number span x) (i + 1)
  | string {site : Site} {i : Nat} {span : Span} {s : String}
      (h : PushAt constants full i (.string s)) :
      ExprAt site i (.string span s) (i + 1)
  | bool {site : Site} {i : Nat} {span : Span} {b : Bool}
      (h : PushAt constants full i (.bool b)) :
      ExprAt site i (.bool span b) (i + 1)
  | nil {site : Site} {i : Nat} {span : Span}
      (h : PushAt constants full i .nil) :
      ExprAt site i (.nil span) (i + 1)
  | ident {site : Site} {i : Nat} {span : Span} {name : String}
      {symbol : Symbol} {load : Instr}
      (hvar : site.symbol? roots name = some symbol)
      (hload : IsLoad symbol load) (h : full[i]? = some load) :
      ExprAt site i (.ident span name) (i + 1)
  | group {site : Site} {i j : Nat} {span : Span} {e : Expr}
      (he : ExprAt site i e j) : ExprAt site i (.group span e) j
  | unary {site : Site} {i j : Nat} {span : Span} {op : UnaryOp}
      {e : Expr} (he : ExprAt site i e j)
      (h : full[j]? = some (.unary op)) :
      ExprAt site i (.unary span op e) (j + 1)
  | binary {site : Site} {i j k : Nat} {span : Span} {op : BinaryOp}
      {l r : Expr} (hop : op.isShortCircuit = false)
      (hl : ExprAt site i l j) (hr : ExprAt site j r k)
      (h : full[k]? = some (.binary op)) :
      ExprAt site i (.binary span op l r) (k + 1)
  | and {site : Site} {i j k : Nat} {span : Span} {l r : Expr}
      (hl : ExprAt site i l j)
      (htest : full[j]? = some (.jumpIfFalse (k + 1)))
      (hr : ExprAt site (j + 1) r k)
      (hskip : full[k]? = some (.jump (k + 2)))
      (hfalse : PushAt constants full (k + 1) (.bool false)) :
      ExprAt site i (.binary span .and l r) (k + 2)
  | or {site : Site} {i j k : Nat} {span : Span} {l r : Expr}
      (hl : ExprAt site i l j)
      (htest : full[j]? = some (.jumpIfFalse (j + 3)))
      (htrue : PushAt constants full (j + 1) (.bool true))
      (hskip : full[j + 2]? = some (.jump k))
      (hr : ExprAt site (j + 3) r k) :
      ExprAt site i (.binary span .or l r) k
  | assign {site : Site} {i j : Nat} {span : Span} {target : Ident}
      {e : Expr} {symbol : Symbol} {store load : Instr}
      (he : ExprAt site i e j)
      (hvar : site.symbol? roots target.name = some symbol)
      (hstore : IsStore symbol store) (h : full[j]? = some store)
      (hload : IsLoad symbol load) (h' : full[j + 1]? = some load) :
      ExprAt site i (.assign span target e) (j + 2)
  | call {site : Site} {i j k : Nat} {span : Span} {callee : Expr}
      {args : List Expr} (hcallee : ExprAt site i callee j)
      (hargs : ExprsAt site j args k)
      (h : full[k]? = some (.call args.length)) :
      ExprAt site i (.call span callee args) (k + 1)

/-- The code of expressions in order. -/
inductive ExprsAt : Site → Nat → List Expr → Nat → Prop
  | nil {site : Site} {i : Nat} : ExprsAt site i [] i
  | cons {site : Site} {i j k : Nat} {e : Expr} {es : List Expr}
      (he : ExprAt site i e j) (hes : ExprsAt site j es k) :
      ExprsAt site i (e :: es) k

end

/-- The code of a value that may be left out, and is nil then. -/
inductive OptionAt (site : Site) (i : Nat) : Option Expr → Nat → Prop
  | none (h : PushAt constants full i .nil) : OptionAt site i none (i + 1)
  | some {e : Expr} {j : Nat} (h : ExprAt constants roots full site i e j) :
      OptionAt site i (some e) j

mutual

/-- The code of a statement, with the sites in front of it and behind
it. -/
inductive StmtAt : Site → Nat → Stmt → Nat → Site → Prop
  | declare {site site' : Site} {i j : Nat} {span : Span} {x : Ident}
      {init : Option Expr} {symbol : Symbol} {store : Instr}
      (hinit : OptionAt constants roots full site i init j)
      (hdecl : Declares roots x.name site symbol site')
      (hstore : IsStore symbol store) (h : full[j]? = some store) :
      StmtAt site i (.declare span x init) (j + 1) site'
  | expression {site : Site} {i j : Nat} {span : Span} {e : Expr}
      (he : ExprAt constants roots full site i e j)
      (h : full[j]? = some .pop) :
      StmtAt site i (.expression span e) (j + 1) site
  | block {site : Site} {i j : Nat} {b : Block} (hb : BlockAt site i b j) :
      StmtAt site i (.block b) j site
  | branch {site : Site} {i j k : Nat} {span : Span} {e : Expr}
      {yes : Block} (he : ExprAt constants roots full site i e j)
      (htest : full[j]? = some (.jumpIfFalse k))
      (hyes : BlockAt site (j + 1) yes k) :
      StmtAt site i (.branch span e yes none) k site
  | choice {site : Site} {i j k l : Nat} {span : Span} {e : Expr}
      {yes : Block} {no : Stmt}
      (he : ExprAt constants roots full site i e j)
      (htest : full[j]? = some (.jumpIfFalse (k + 1)))
      (hyes : BlockAt site (j + 1) yes k)
      (hskip : full[k]? = some (.jump l))
      (hno : StmtAt site (k + 1) no l site) :
      StmtAt site i (.branch span e yes (some no)) l site
  | loop {site : Site} {i j k : Nat} {span : Span} {e : Expr}
      {body : Block} (he : ExprAt constants roots full site i e j)
      (htest : full[j]? = some (.jumpIfFalse (k + 1)))
      (hbody : BlockAt site (j + 1) body k)
      (hback : full[k]? = some (.jump i)) :
      StmtAt site i (.loop span e body) (k + 1) site
  | giveBack {site : Site} {i j : Nat} {span : Span} {v : Option Expr}
      (hv : OptionAt constants roots full site i v j)
      (h : full[j]? = some .leave) :
      StmtAt site i (.giveBack span v) (j + 1) site
  | print {site : Site} {i j : Nat} {span : Span} {e : Expr}
      (he : ExprAt constants roots full site i e j)
      (h : full[j]? = some .print) :
      StmtAt site i (.print span e) (j + 1) site
  | empty {site : Site} {i : Nat} {span : Span} :
      StmtAt site i (.empty span) i site

/-- The code of a block. -/
inductive BlockAt : Site → Nat → Block → Nat → Prop
  | mk {site site' : Site} {i j : Nat} {ss : List Stmt} {span : Span}
      (hss : StmtsAt site.openBlock i ss j site') :
      BlockAt site i ⟨ss, span⟩ j

/-- The code of statements in order, with the sites in front of them and
behind them. -/
inductive StmtsAt : Site → Nat → List Stmt → Nat → Site → Prop
  | nil {site : Site} {i : Nat} : StmtsAt site i [] i site
  | cons {site site' site'' : Site} {i j k : Nat} {s : Stmt}
      {ss : List Stmt} (hs : StmtAt site i s j site')
      (hss : StmtsAt site' j ss k site'') :
      StmtsAt site i (s :: ss) k site''

end

/-- The code of the statements at the top of a program, with the result
of the program behind it. -/
inductive TopAt (site : Site) : Nat → List Stmt → Nat → Prop
  | nil {i : Nat} (h : PushAt constants full i .nil) : TopAt site i [] (i + 1)
  | last {i j : Nat} {span : Span} {e : Expr}
      (he : ExprAt constants roots full site i e j) :
      TopAt site i [.expression span e] j
  | function {i j : Nat} {d : FnDecl} {ss : List Stmt}
      (h : TopAt site i ss j) : TopAt site i (.function d :: ss) j
  | cons {i j k : Nat} {s : Stmt} {ss : List Stmt}
      (hlast : ∀ span e, s :: ss ≠ [.expression span e])
      (hs : StmtAt constants roots full site i s j site)
      (hss : TopAt site j ss k) : TopAt site i (s :: ss) k

/-- The code that binds functions, the first of which has the place
`index` in the code. -/
inductive BindsAt : Nat → Nat → List FnDecl → Nat → Prop
  | nil {i index : Nat} : BindsAt i index [] i
  | cons {i index slot j : Nat} {d : FnDecl} {ds : List FnDecl}
      (hslot : roots.lookup d.name.name = some slot)
      (hmake : full[i]? = some (.makeFunction index))
      (hstore : full[i + 1]? = some (.storeGlobal slot))
      (h : BindsAt (i + 2) (index + 1) ds j) :
      BindsAt i index (d :: ds) j

end Placed

/-- The table of the parameters of a function, the first slots of which
hold its arguments. -/
def paramTable (params : List Ident) : Names :=
  (params.mapIdx fun k p => (p.name, k)).reverse

/-- The code of a function. -/
structure FunctionAt (c : Code) (roots : Names) (d : FnDecl)
    (f : Function) : Prop where
  name : f.name = d.name.name
  arity : f.arity = d.params.length
  room : d.params.length ≤ f.locals.length
  body : ∃ j site', StmtsAt c.constants roots f.code
      ⟨true, f.locals.length, [paramTable d.params]⟩ 0 d.body.statements
      j site'
    ∧ PushAt c.constants f.code j .nil
    ∧ f.code[j + 1]? = some .leave

/-- The code of a program. -/
structure ProgramAt (c : Code) (roots : Names) (p : Program) : Prop where
  distinct : (roots.map (·.2)).Nodup
  room : ∀ name slot, roots.lookup name = some slot →
    slot < c.globals.length
  functions : ∀ k d, p.functions[k]? = some d →
    ∃ f, c.functions[k + 1]? = some f ∧ FunctionAt c roots d f
  main : ∃ f i j, c.functions[0]? = some f
    ∧ BindsAt roots f.code 0 1 p.functions i
    ∧ TopAt c.constants roots f.code ⟨false, c.globals.length, []⟩ i
      p.statements j
    ∧ f.code[j]? = some .leave

end Script.Stack
