/-
The grammar, with gaps. A program that is read with errors has a tree all
the same: a statement that cannot be read is left out, and its tokens are
passed over. This file is the grammar of such trees. Each rule is the one
of the grammar, but that between statements there may be tokens that
belong to none. So it tells of every node of a tree which tokens it was
read from, whether or not there were errors.
-/
import Script.Proofs.Grammar.Sound.Statements

namespace Script.Grammar.Gaps

mutual

/-- The tokens of a statement in front of a token of kind `next`. -/
inductive StmtIn : Token.Kind → List Token → Stmt → Prop
  | declare {next : Token.Kind} {w x : Token} {init final : List Token}
      {i : Option Expr} (hw : w.kind = .keyword .letK)
      (hx : x.kind = .identifier) (hinit : InitIn init i)
      (hfinal : Ends next final) :
      StmtIn next (w :: x :: (init ++ final))
        (.declare (cover (w :: x :: (init ++ final))) x.ident i)
  | function {next : Token.Kind} {w x opening close : Token}
      {names seg : List Token} {ps : List Ident} {b : Block}
      (hw : w.kind = .keyword .fnK) (hx : x.kind = .identifier)
      (hopening : opening.kind = .punct .leftParen)
      (hnames : ParamsIn names ps)
      (hclose : close.kind = .punct .rightParen) (hb : BlockIn seg b) :
      StmtIn next (w :: x :: opening :: (names ++ close :: seg))
        (.function ⟨x.ident, ps, b,
          cover (w :: x :: opening :: (names ++ close :: seg))⟩)
  | branch {next : Token.Kind} {seg : List Token} {s : Stmt}
      (hs : BranchIn seg s) : StmtIn next seg s
  | loop {next : Token.Kind} {w : Token} {seg body : List Token}
      {e : Expr} {b : Block} (hw : w.kind = .keyword .whileK)
      (he : Reads .value seg e) (hb : BlockIn body b) :
      StmtIn next (w :: (seg ++ body))
        (.loop (cover (w :: (seg ++ body))) e b)
  | giveBack {next : Token.Kind} {w : Token} {seg final : List Token}
      {v : Option Expr} (hw : w.kind = .keyword .returnK)
      (hv : ValueIn seg v) (hfinal : Ends next final) :
      StmtIn next (w :: (seg ++ final))
        (.giveBack (cover (w :: (seg ++ final))) v)
  | print {next : Token.Kind} {w : Token} {seg final : List Token}
      {e : Expr} (hw : w.kind = .keyword .printK)
      (he : Reads .value seg e) (hfinal : Ends next final) :
      StmtIn next (w :: (seg ++ final))
        (.print (cover (w :: (seg ++ final))) e)
  | block {next : Token.Kind} {seg : List Token} {b : Block}
      (hb : BlockIn seg b) : StmtIn next seg (.block b)
  | expression {next : Token.Kind} {seg final : List Token} {e : Expr}
      (he : Reads .value seg e) (hfinal : Ends next final) :
      StmtIn next (seg ++ final) (.expression (cover (seg ++ final)) e)
  | empty {next : Token.Kind} {t : Token}
      (ht : t.kind = .punct .semicolon) :
      StmtIn next [t] (.empty (cover [t]))

/-- The tokens of a condition with its parts. -/
inductive BranchIn : List Token → Stmt → Prop
  | mk {w : Token} {seg yes no : List Token} {e : Expr} {b : Block}
      {s : Option Stmt} (hw : w.kind = .keyword .ifK)
      (he : Reads .value seg e) (hb : BlockIn yes b) (hs : ElseIn no s) :
      BranchIn (w :: (seg ++ (yes ++ no)))
        (.branch (cover (w :: (seg ++ (yes ++ no)))) e b s)

/-- The tokens of the else part of a condition, if it has one. -/
inductive ElseIn : List Token → Option Stmt → Prop
  | none : ElseIn [] none
  | block {w : Token} {seg : List Token} {b : Block}
      (hw : w.kind = .keyword .elseK) (hb : BlockIn seg b) :
      ElseIn (w :: seg) (some (.block b))
  | branch {w : Token} {seg : List Token} {s : Stmt}
      (hw : w.kind = .keyword .elseK) (hs : BranchIn seg s) :
      ElseIn (w :: seg) (some s)

/-- The tokens of statements in braces. -/
inductive BlockIn : List Token → Block → Prop
  | mk {opening close : Token} {seg : List Token} {ss : List Stmt}
      (hopening : opening.kind = .punct .leftBrace)
      (hss : StmtsIn (.punct .rightBrace) seg ss)
      (hclose : close.kind = .punct .rightBrace) :
      BlockIn (opening :: (seg ++ [close]))
        ⟨ss, cover (opening :: (seg ++ [close]))⟩

/-- The tokens of statements in order, in front of a token of kind
`next`. A token of a gap belongs to no statement. -/
inductive StmtsIn : Token.Kind → List Token → List Stmt → Prop
  | nil {next : Token.Kind} : StmtsIn next [] []
  | gap {next : Token.Kind} {t : Token} {rest : List Token}
      {ss : List Stmt} (hss : StmtsIn next rest ss) :
      StmtsIn next (t :: rest) ss
  | cons {next : Token.Kind} {seg rest : List Token} {s : Stmt}
      {ss : List Stmt} (hs : StmtIn (firstKind next rest) seg s)
      (hss : StmtsIn next rest ss) : StmtsIn next (seg ++ rest) (s :: ss)

end

/-- The tokens of a program. -/
inductive ProgramIn : List Token → Program → Prop
  | mk {body : List Token} {last : Token} {ss : List Stmt}
      (hlast : last.kind = .endOfInput)
      (hss : StmtsIn .endOfInput body ss) :
      ProgramIn (body ++ [last]) ⟨ss, cover (body ++ [last])⟩

theorem BlockIn.span {seg : List Token} {b : Block} (h : BlockIn seg b) :
    seg ≠ [] ∧ b.span = cover seg := by
  cases h with
  | mk => exact ⟨List.cons_ne_nil _ _, rfl⟩

/-- A gap of any length. -/
theorem StmtsIn.gaps {next : Token.Kind} {rest : List Token}
    {ss : List Stmt} (h : StmtsIn next rest ss) (passed : List Token) :
    StmtsIn next (passed ++ rest) ss := by
  induction passed with
  | nil => exact h
  | cons t passed ih => exact .gap ih

end Script.Grammar.Gaps
