/-
The grammar, as a relation between runs of tokens and trees. Each rule is
an inductive predicate whose constructors are its alternatives; a rule
holds of exactly the tokens it is about, so that nothing can be dropped
or read twice. Nothing here says how a program is read.

    program     statement*  end-of-input
    statement   let name (= value)? end  |  fn name ( names ) block
              | branch  |  while value block  |  return value? end
              | print value end  |  block  |  value end  |  ;
    branch      if value block (else (branch | block))?
    block       { statement* }
    end         ;  |  nothing, before } or the end of input
    value       name = value  |  chain 1
    chain k     chain k joins-at-k chain k+1  |  chain k+1     (k from 1 to 6)
    chain 7     operand
    operand     (- | !) operand  |  call
    call        call ( values )  |  primary
    primary     literal  |  name  |  ( value )

Chains lean to the left because their left part is the chain of the same
precedence; an assignment leans to the right because only its value is
another assignment.
-/
import Script.Token.Basic
import Script.Tree.Basic

namespace Script

/-- The name that a token spells. -/
def Token.ident (t : Token) : Ident := ⟨t.text, t.span⟩

namespace Grammar

-- =============================================================== spans

/-- The span of the last token of a run; of an empty one, the span
before it. -/
def lastSpan (before : Span) : List Token → Span
  | [] => before
  | t :: ts => lastSpan t.span ts

/-- The span from the first token of a run to its last. -/
def cover : List Token → Span
  | [] => .point 0 0
  | t :: ts => t.span.join (lastSpan t.span ts)

/-- The kind of the first token of a run; of an empty one, the kind
behind it. -/
def firstKind (next : Token.Kind) : List Token → Token.Kind
  | [] => next
  | t :: _ => t.kind

-- ========================================================= expressions

/-- The operators that join two operands, by precedence. -/
inductive Joins : Nat → Token.Kind → BinaryOp → Prop
  | or : Joins 1 (.operator .or) .or
  | and : Joins 2 (.operator .and) .and
  | eq : Joins 3 (.operator .equal) .eq
  | ne : Joins 3 (.operator .notEqual) .ne
  | lt : Joins 4 (.operator .less) .lt
  | le : Joins 4 (.operator .lessEqual) .le
  | gt : Joins 4 (.operator .greater) .gt
  | ge : Joins 4 (.operator .greaterEqual) .ge
  | add : Joins 5 (.operator .plus) .add
  | sub : Joins 5 (.operator .minus) .sub
  | mul : Joins 6 (.operator .star) .mul
  | div : Joins 6 (.operator .slash) .div
  | rem : Joins 6 (.operator .percent) .rem

/-- The operators in front of an operand. -/
inductive Leads : Token.Kind → UnaryOp → Prop
  | negate : Leads (.operator .minus) .negate
  | not : Leads (.operator .bang) .not

/-- The expressions of one token. -/
inductive Atom (t : Token) : Expr → Prop
  | number {x} (h : t.kind = .number x) : Atom t (.number t.span x)
  | string {s} (h : t.kind = .string s) : Atom t (.string t.span s)
  | yes (h : t.kind = .keyword .trueK) : Atom t (.bool t.span true)
  | no (h : t.kind = .keyword .falseK) : Atom t (.bool t.span false)
  | nil (h : t.kind = .keyword .nilK) : Atom t (.nil t.span)
  | name (h : t.kind = .identifier) : Atom t (.ident t.span t.text)

/-- What an expression is read as. -/
inductive Level where
  | value
  | chain (precedence : Nat)
  | operand
  | call
  | primary

mutual

/-- The tokens of an expression. -/
inductive Reads : Level → List Token → Expr → Prop
  | assign {x eq : Token} {seg : List Token} {e : Expr}
      (hx : x.kind = .identifier) (heq : eq.kind = .operator .assign)
      (he : Reads .value seg e) :
      Reads .value (x :: eq :: seg)
        (.assign (cover (x :: eq :: seg)) x.ident e)
  | loosest {seg : List Token} {e : Expr} (he : Reads (.chain 1) seg e) :
      Reads .value seg e
  | join {k : Nat} {l r : List Token} {t : Token} {op : BinaryOp}
      {a b : Expr} (ha : Reads (.chain k) l a) (ht : Joins k t.kind op)
      (hb : Reads (.chain (k + 1)) r b) :
      Reads (.chain k) (l ++ t :: r)
        (.binary (cover (l ++ t :: r)) op a b)
  | tighter {k : Nat} {seg : List Token} {e : Expr}
      (he : Reads (.chain (k + 1)) seg e) : Reads (.chain k) seg e
  | tightest {seg : List Token} {e : Expr} (he : Reads .operand seg e) :
      Reads (.chain 7) seg e
  | lead {t : Token} {seg : List Token} {op : UnaryOp} {e : Expr}
      (ht : Leads t.kind op) (he : Reads .operand seg e) :
      Reads .operand (t :: seg) (.unary (cover (t :: seg)) op e)
  | alone {seg : List Token} {e : Expr} (he : Reads .call seg e) :
      Reads .operand seg e
  | call {f args : List Token} {opening close : Token} {callee : Expr}
      {es : List Expr} (hf : Reads .call f callee)
      (hopening : opening.kind = .punct .leftParen)
      (hargs : ReadsArgs args es)
      (hclose : close.kind = .punct .rightParen) :
      Reads .call (f ++ opening :: (args ++ [close]))
        (.call (cover (f ++ opening :: (args ++ [close]))) callee es)
  | callee {seg : List Token} {e : Expr} (he : Reads .primary seg e) :
      Reads .call seg e
  | atom {t : Token} {e : Expr} (ht : Atom t e) : Reads .primary [t] e
  | group {opening close : Token} {seg : List Token} {e : Expr}
      (hopening : opening.kind = .punct .leftParen)
      (he : Reads .value seg e)
      (hclose : close.kind = .punct .rightParen) :
      Reads .primary (opening :: (seg ++ [close]))
        (.group (cover (opening :: (seg ++ [close]))) e)

/-- The tokens of the arguments of a call. -/
inductive ReadsArgs : List Token → List Expr → Prop
  | none : ReadsArgs [] []
  | some {seg : List Token} {es : List Expr} (h : ReadsList seg es) :
      ReadsArgs seg es

/-- The tokens of expressions with commas between them. -/
inductive ReadsList : List Token → List Expr → Prop
  | one {seg : List Token} {e : Expr} (he : Reads .value seg e) :
      ReadsList seg [e]
  | more {seg rest : List Token} {comma : Token} {e : Expr}
      {es : List Expr} (he : Reads .value seg e)
      (hcomma : comma.kind = .punct .comma) (hes : ReadsList rest es) :
      ReadsList (seg ++ comma :: rest) (e :: es)

end

-- ========================================================== statements

/-- The end of a statement in front of a token of kind `next`. -/
inductive Ends (next : Token.Kind) : List Token → Prop
  | semicolon {t : Token} (h : t.kind = .punct .semicolon) : Ends next [t]
  | brace (h : next = .punct .rightBrace) : Ends next []
  | endOfInput (h : next = .endOfInput) : Ends next []

/-- The tokens of the initial value of a variable, if it has one. -/
inductive InitIn : List Token → Option Expr → Prop
  | none : InitIn [] none
  | some {eq : Token} {seg : List Token} {e : Expr}
      (heq : eq.kind = .operator .assign) (he : Reads .value seg e) :
      InitIn (eq :: seg) (some e)

/-- The tokens of a returned value, if there is one. -/
inductive ValueIn : List Token → Option Expr → Prop
  | none : ValueIn [] none
  | some {seg : List Token} {e : Expr} (he : Reads .value seg e) :
      ValueIn seg (some e)

/-- The tokens of names with commas between them. -/
inductive NamesIn : List Token → List Ident → Prop
  | one {x : Token} (hx : x.kind = .identifier) : NamesIn [x] [x.ident]
  | more {x comma : Token} {seg : List Token} {ps : List Ident}
      (hx : x.kind = .identifier) (hcomma : comma.kind = .punct .comma)
      (hps : NamesIn seg ps) :
      NamesIn (x :: comma :: seg) (x.ident :: ps)

/-- The tokens of the parameters of a function. -/
inductive ParamsIn : List Token → List Ident → Prop
  | none : ParamsIn [] []
  | some {seg : List Token} {ps : List Ident} (h : NamesIn seg ps) :
      ParamsIn seg ps

mutual

/-- The tokens of a statement in front of a token of kind `next`. -/
inductive StmtIn : Token.Kind → List Token → Stmt → Prop
  | declare {next : Token.Kind} {w x : Token} {init final : List Token}
      {i : Option Expr} (hw : w.kind = .keyword .letK)
      (hx : x.kind = .identifier) (hinit : InitIn init i)
      (hfinal : Ends next final) :
      StmtIn next (w :: x :: (init ++ final))
        (.declare (cover (w :: x :: (init ++ final))) x.ident i)
  | function {next : Token.Kind} {w x opening close : Token}
      {names seg : List Token} {ps : List Ident} {b : Block}
      (hw : w.kind = .keyword .fnK) (hx : x.kind = .identifier)
      (hopening : opening.kind = .punct .leftParen)
      (hnames : ParamsIn names ps)
      (hclose : close.kind = .punct .rightParen) (hb : BlockIn seg b) :
      StmtIn next (w :: x :: opening :: (names ++ close :: seg))
        (.function ⟨x.ident, ps, b,
          cover (w :: x :: opening :: (names ++ close :: seg))⟩)
  | branch {next : Token.Kind} {seg : List Token} {s : Stmt}
      (hs : BranchIn seg s) : StmtIn next seg s
  | loop {next : Token.Kind} {w : Token} {seg body : List Token}
      {e : Expr} {b : Block} (hw : w.kind = .keyword .whileK)
      (he : Reads .value seg e) (hb : BlockIn body b) :
      StmtIn next (w :: (seg ++ body))
        (.loop (cover (w :: (seg ++ body))) e b)
  | giveBack {next : Token.Kind} {w : Token} {seg final : List Token}
      {v : Option Expr} (hw : w.kind = .keyword .returnK)
      (hv : ValueIn seg v) (hfinal : Ends next final) :
      StmtIn next (w :: (seg ++ final))
        (.giveBack (cover (w :: (seg ++ final))) v)
  | print {next : Token.Kind} {w : Token} {seg final : List Token}
      {e : Expr} (hw : w.kind = .keyword .printK)
      (he : Reads .value seg e) (hfinal : Ends next final) :
      StmtIn next (w :: (seg ++ final))
        (.print (cover (w :: (seg ++ final))) e)
  | block {next : Token.Kind} {seg : List Token} {b : Block}
      (hb : BlockIn seg b) : StmtIn next seg (.block b)
  | expression {next : Token.Kind} {seg final : List Token} {e : Expr}
      (he : Reads .value seg e) (hfinal : Ends next final) :
      StmtIn next (seg ++ final) (.expression (cover (seg ++ final)) e)
  | empty {next : Token.Kind} {t : Token}
      (ht : t.kind = .punct .semicolon) :
      StmtIn next [t] (.empty (cover [t]))

/-- The tokens of a condition with its parts. -/
inductive BranchIn : List Token → Stmt → Prop
  | mk {w : Token} {seg yes no : List Token} {e : Expr} {b : Block}
      {s : Option Stmt} (hw : w.kind = .keyword .ifK)
      (he : Reads .value seg e) (hb : BlockIn yes b) (hs : ElseIn no s) :
      BranchIn (w :: (seg ++ (yes ++ no)))
        (.branch (cover (w :: (seg ++ (yes ++ no)))) e b s)

/-- The tokens of the else part of a condition, if it has one. -/
inductive ElseIn : List Token → Option Stmt → Prop
  | none : ElseIn [] none
  | block {w : Token} {seg : List Token} {b : Block}
      (hw : w.kind = .keyword .elseK) (hb : BlockIn seg b) :
      ElseIn (w :: seg) (some (.block b))
  | branch {w : Token} {seg : List Token} {s : Stmt}
      (hw : w.kind = .keyword .elseK) (hs : BranchIn seg s) :
      ElseIn (w :: seg) (some s)

/-- The tokens of statements in braces. -/
inductive BlockIn : List Token → Block → Prop
  | mk {opening close : Token} {seg : List Token} {ss : List Stmt}
      (hopening : opening.kind = .punct .leftBrace)
      (hss : StmtsIn (.punct .rightBrace) seg ss)
      (hclose : close.kind = .punct .rightBrace) :
      BlockIn (opening :: (seg ++ [close]))
        ⟨ss, cover (opening :: (seg ++ [close]))⟩

/-- The tokens of statements in order, in front of a token of kind
`next`. -/
inductive StmtsIn : Token.Kind → List Token → List Stmt → Prop
  | nil {next : Token.Kind} : StmtsIn next [] []
  | cons {next : Token.Kind} {seg rest : List Token} {s : Stmt}
      {ss : List Stmt} (hs : StmtIn (firstKind next rest) seg s)
      (hss : StmtsIn next rest ss) : StmtsIn next (seg ++ rest) (s :: ss)

end

/-- The tokens of a program. -/
inductive ProgramIn : List Token → Program → Prop
  | mk {body : List Token} {last : Token} {ss : List Stmt}
      (hlast : last.kind = .endOfInput)
      (hss : StmtsIn .endOfInput body ss) :
      ProgramIn (body ++ [last]) ⟨ss, cover (body ++ [last])⟩

end Grammar

-- ================================================= rules on whole trees

mutual

/-- Whether functions alone return, and no function has two parameters
of one name; `inside` says whether the statement is in a function. -/
def Stmt.isLawful (inside : Bool) : Stmt → Bool
  | .function d => d.isLawful
  | .block b => b.isLawful inside
  | .branch _ _ thenPart elsePart =>
      thenPart.isLawful inside && elseIsLawful inside elsePart
  | .loop _ _ body => body.isLawful inside
  | .giveBack .. => inside
  | .declare .. | .expression .. | .print .. | .empty _ => true

/-- Whether an else part is lawful, if there is one. -/
def elseIsLawful (inside : Bool) : Option Stmt → Bool
  | none => true
  | some s => s.isLawful inside

/-- Whether the statements of a block are lawful. -/
def Block.isLawful (inside : Bool) : Block → Bool
  | ⟨ss, _⟩ => stmtsAreLawful inside ss

/-- Whether a function is lawful: its parameters have different names,
and its body is lawful inside a function. -/
def FnDecl.isLawful : FnDecl → Bool
  | ⟨_, params, body, _⟩ =>
      decide (params.map (·.name)).Nodup && body.isLawful true

/-- Whether all statements of a list are lawful. -/
def stmtsAreLawful (inside : Bool) : List Stmt → Bool
  | [] => true
  | s :: ss => s.isLawful inside && stmtsAreLawful inside ss

end

/-- Whether a program is lawful. -/
def Program.isLawful (p : Program) : Bool :=
  stmtsAreLawful false p.statements

end Script
