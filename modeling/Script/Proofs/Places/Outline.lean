/-
The outline of a tree: its pieces with their spans, and nothing else but
the names. What is to be said about the spans of a tree is said of every
piece of its outline in the same way, be it a statement, a block, an
expression or a name.

A tree that is derived has its outline laid over the tokens: every piece
takes a run of them, and its parts take runs of that run, one behind the
other. All that holds of spans follows from there.
-/
import Script.Proofs.Grammar.Gaps

namespace Script

open Grammar

/-- A piece of a tree: its span, the name that it is if it is one, and its
parts in the order of the text. -/
inductive Outline where
  | node (span : Span) (name? : Option String) (parts : List Outline)

namespace Outline

def span : Outline → Span
  | node s _ _ => s

def name? : Outline → Option String
  | node _ x _ => x

def parts : Outline → List Outline
  | node _ _ ps => ps

/-- The piece that is a name. -/
def ofIdent (x : Ident) : Outline := node x.span (some x.name) []

/-- Whether `P` holds of a piece, of its parts, of their parts, and so
on. -/
inductive All (P : Outline → Prop) : Outline → Prop
  | mk {o : Outline} (h : P o) (hparts : ∀ p ∈ o.parts, All P p) : All P o

end Outline

-- ============================================================ of trees

mutual

/-- The outline of an expression. -/
def Expr.outline : Expr → Outline
  | .number s _ | .string s _ | .bool s _ | .nil s => .node s none []
  | .ident s x => .node s (some x) []
  | .unary s _ e | .group s e => .node s none [e.outline]
  | .binary s _ l r => .node s none [l.outline, r.outline]
  | .assign s x e => .node s none [.ofIdent x, e.outline]
  | .call s callee args =>
      .node s none (callee.outline :: argsOutline args)

/-- The outlines of the arguments of a call. -/
def argsOutline : List Expr → List Outline
  | [] => []
  | e :: es => e.outline :: argsOutline es

end

/-- The outline of an expression that may be left out. -/
def valueOutline : Option Expr → List Outline
  | none => []
  | some e => [e.outline]

mutual

/-- The outline of a statement. -/
def Stmt.outline : Stmt → Outline
  | .declare s x init => .node s none (.ofIdent x :: valueOutline init)
  | .function d => d.outline
  | .expression s e | .print s e => .node s none [e.outline]
  | .block b => b.outline
  | .branch s cond thenPart elsePart => .node s none
      (cond.outline :: thenPart.outline :: elseOutline elsePart)
  | .loop s cond body => .node s none [cond.outline, body.outline]
  | .giveBack s value => .node s none (valueOutline value)
  | .empty s => .node s none []

/-- The outline of an else part that may be left out. -/
def elseOutline : Option Stmt → List Outline
  | none => []
  | some s => [s.outline]

/-- The outline of a block. -/
def Block.outline : Block → Outline
  | ⟨ss, s⟩ => .node s none (stmtsOutline ss)

/-- The outline of a function: its name, its parameters, its body. -/
def FnDecl.outline : FnDecl → Outline
  | ⟨x, params, body, id⟩ => .node id.span none
      (.ofIdent x :: (params.map Outline.ofIdent ++ [body.outline]))

/-- The outlines of statements. -/
def stmtsOutline : List Stmt → List Outline
  | [] => []
  | s :: ss => s.outline :: stmtsOutline ss

end

/-- The outline of a program. -/
def Program.outline (p : Program) : Outline :=
  .node p.span none (stmtsOutline p.statements)

-- ========================================================= over tokens

namespace Grammar

mutual

/-- A piece over the tokens that it takes. -/
inductive Laid : List Token → Outline → Prop
  | name {t : Token} (ht : t.kind = .identifier) : Laid [t] (.ofIdent t.ident)
  | node {seg : List Token} {os : List Outline} (hseg : seg ≠ [])
      (hparts : LaidParts seg os) : Laid seg (.node (cover seg) none os)

/-- Pieces over tokens, one behind the other. There may be more tokens in
front of each of them and behind them all. -/
inductive LaidParts : List Token → List Outline → Prop
  | nil {seg : List Token} : LaidParts seg []
  | cons {front seg rest : List Token} {o : Outline} {os : List Outline}
      (ho : Laid seg o) (hos : LaidParts rest os) :
      LaidParts (front ++ (seg ++ rest)) (o :: os)

end

namespace LaidParts

variable {l r seg : List Token} {os ps : List Outline}

/-- More tokens in front. -/
theorem behind (h : LaidParts seg os) (front : List Token) :
    LaidParts (front ++ seg) os := by
  cases h with
  | nil => exact .nil
  | cons ho hos =>
      rw [← List.append_assoc]
      exact .cons ho hos

theorem append {l : List Token} {os : List Outline} (h : LaidParts l os)
    (h' : LaidParts r ps) : LaidParts (l ++ r) (os ++ ps) := by
  match h with
  | .nil => exact h'.behind l
  | .cons ho hos =>
      rw [List.append_assoc, List.append_assoc]
      exact .cons ho (hos.append h')

/-- More tokens behind. -/
theorem before (h : LaidParts seg os) (back : List Token) :
    LaidParts (seg ++ back) os := by
  simpa using h.append (@nil back)

end LaidParts

/-- A piece alone. -/
theorem Laid.parts {seg : List Token} {o : Outline} (h : Laid seg o) :
    LaidParts seg [o] := by
  simpa using @LaidParts.cons [] seg [] o [] h .nil

-- ========================================================= derivations

mutual

theorem Reads.laid {l : Level} {seg : List Token} {e : Expr} :
    Reads l seg e → Laid seg e.outline
  | @Reads.assign _ eq _ _ hx _ he => .node (List.cons_ne_nil _ _)
      ((Laid.name hx).parts.append (he.laid.parts.behind [eq]))
  | .loosest h | .tighter h | .tightest h | .alone h | .callee h => h.laid
  | .join (t := t) ha _ hb => .node (by simp)
      (ha.laid.parts.append (hb.laid.parts.behind [t]))
  | .lead (t := t) _ he => .node (List.cons_ne_nil _ _)
      (he.laid.parts.behind [t])
  | @Reads.call _ _ o c _ _ hf _ hargs _ => .node (by simp)
      (hf.laid.parts.append ((hargs.parts.before [c]).behind [o]))
  | .atom (t := t) ht => by
      have hnode := Laid.node (List.cons_ne_nil t []) .nil
      rw [cover_singleton] at hnode
      cases ht with
      | name hk => exact .name hk
      | _ => exact hnode
  | @Reads.group o c _ _ _ he _ =>
      .node (List.cons_ne_nil _ _) ((he.laid.parts.before [c]).behind [o])

theorem ReadsArgs.parts {seg : List Token} {es : List Expr} :
    ReadsArgs seg es → LaidParts seg (argsOutline es)
  | .none => .nil
  | .some h => h.parts

theorem ReadsList.parts {seg : List Token} {es : List Expr} :
    ReadsList seg es → LaidParts seg (argsOutline es)
  | .one he => he.laid.parts
  | @ReadsList.more _ _ c _ _ he _ hes =>
      he.laid.parts.append (hes.parts.behind [c])

end

theorem InitIn.parts {seg : List Token} {e? : Option Expr}
    (h : InitIn seg e?) : LaidParts seg (valueOutline e?) := by
  cases h with
  | none => exact .nil
  | @some eq seg e _ he => exact he.laid.parts.behind [eq]

theorem ValueIn.parts {seg : List Token} {e? : Option Expr}
    (h : ValueIn seg e?) : LaidParts seg (valueOutline e?) := by
  cases h with
  | none => exact .nil
  | some he => exact he.laid.parts

theorem NamesIn.parts {seg : List Token} {ps : List Ident}
    (h : NamesIn seg ps) : LaidParts seg (ps.map Outline.ofIdent) := by
  induction h with
  | one hx => exact (Laid.name hx).parts
  | @more x comma seg ps hx _ _ ih =>
      exact (Laid.name hx).parts.append (ih.behind [comma])

theorem ParamsIn.parts {seg : List Token} {ps : List Ident}
    (h : ParamsIn seg ps) : LaidParts seg (ps.map Outline.ofIdent) := by
  cases h with
  | none => exact .nil
  | some h => exact h.parts

namespace Gaps

mutual

theorem StmtIn.laid {next : Token.Kind} {seg : List Token} {s : Stmt} :
    StmtIn next seg s → Laid seg s.outline
  | @StmtIn.declare _ w _ _ final _ _ hx hinit _ =>
      .node (List.cons_ne_nil _ _) <|
        ((Laid.name hx).parts.append (hinit.parts.before final)).behind [w]
  | @StmtIn.function _ w _ o c _ _ _ _ _ hx _ hps _ hb =>
      .node (List.cons_ne_nil _ _) <|
        ((Laid.name hx).parts.append
          ((hps.parts.append (hb.laid.parts.behind [c])).behind [o])).behind
          [w]
  | .branch hs => hs.laid
  | .loop (w := w) _ he hb => .node (List.cons_ne_nil _ _)
      ((he.laid.parts.append hb.laid.parts).behind [w])
  | @StmtIn.giveBack _ w _ final _ _ hv _ =>
      .node (List.cons_ne_nil _ _) ((hv.parts.before final).behind [w])
  | @StmtIn.print _ w _ final _ _ he _ =>
      .node (List.cons_ne_nil _ _) ((he.laid.parts.before final).behind [w])
  | .block hb => hb.laid
  | @StmtIn.expression _ _ final _ he _ => .node
      (fun h => he.ne_nil (List.append_eq_nil_iff.1 h).1)
      (he.laid.parts.before final)
  | .empty _ => .node (List.cons_ne_nil _ _) .nil

theorem BranchIn.laid {seg : List Token} {s : Stmt} :
    BranchIn seg s → Laid seg s.outline
  | .mk (w := w) _ he hb hs => .node (List.cons_ne_nil _ _)
      ((he.laid.parts.append (hb.laid.parts.append hs.parts)).behind [w])

theorem ElseIn.parts {seg : List Token} {s? : Option Stmt} :
    ElseIn seg s? → LaidParts seg (elseOutline s?)
  | .none => .nil
  | .block (w := w) _ hb => hb.laid.parts.behind [w]
  | .branch (w := w) _ hs => hs.laid.parts.behind [w]

theorem BlockIn.laid {seg : List Token} {b : Block} :
    BlockIn seg b → Laid seg b.outline
  | @BlockIn.mk o c _ _ _ hss _ =>
      .node (List.cons_ne_nil _ _) ((hss.parts.before [c]).behind [o])

theorem StmtsIn.parts {next : Token.Kind} {seg : List Token}
    {ss : List Stmt} : StmtsIn next seg ss → LaidParts seg (stmtsOutline ss)
  | .nil => .nil
  | .gap (t := t) hss => hss.parts.behind [t]
  | .cons hs hss => hs.laid.parts.append hss.parts

end

/-- The outline of a program lies over its tokens. -/
theorem ProgramIn.laid {ts : List Token} {p : Program}
    (h : ProgramIn ts p) : Laid ts p.outline := by
  cases h with
  | @mk body last ss _ hss => exact .node (by simp) (hss.parts.before [last])

end Gaps

end Grammar

end Script
