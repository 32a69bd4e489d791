/-
How deep a tree is. Groups, operators, assignments, calls, blocks, and
conditions that hang off an else are nested nodes; the nesting of a tree
is the number of them on the path that has the most.

Levels are counted as reading counts them. A chain of operators or calls
grows to the left around its first operand, and this operand was read
before there was a chain. So a node takes up no level for what is behind
its first operand, and a path has more nested nodes than levels wherever
it goes on into a first operand.
-/
import Script.Proofs.Reading.Spanned
import Script.Tree.Expression

namespace Script

-- ================================================================ depth

mutual

/-- The depth of an expression: what the nested nodes on a path count
for, at most. A node counts for one, but for `w` where the path goes on
into its first operand. -/
def Expr.depth (w : Nat) : Expr → Nat
  | .number .. | .string .. | .bool .. | .nil _ | .ident .. => 0
  | .unary _ _ e | .assign _ _ e | .group _ e => e.depth w + 1
  | .binary _ _ l r => max (l.depth w + w) (r.depth w + 1)
  | .call _ callee args => max (callee.depth w + w) (argsDepth w args + 1)

/-- The depth of the arguments of a call. -/
def argsDepth (w : Nat) : List Expr → Nat
  | [] => 0
  | e :: es => max (e.depth w) (argsDepth w es)

end

mutual

/-- The depth of a statement. -/
def Stmt.depth (w : Nat) : Stmt → Nat
  | .declare _ _ init => (init.map (Expr.depth w)).getD 0
  | .function d => d.depth w
  | .expression _ e | .print _ e => e.depth w
  | .block b => b.depth w
  | .branch _ cond thenPart elsePart =>
      max (cond.depth w) (max (thenPart.depth w) (elseDepth w elsePart))
  | .loop _ cond body => max (cond.depth w) (body.depth w)
  | .giveBack _ value => (value.map (Expr.depth w)).getD 0
  | .empty _ => 0

/-- The depth of an else part: a condition that hangs off an else is a
nested node. -/
def elseDepth (w : Nat) : Option Stmt → Nat
  | none => 0
  | some s => s.depth w + if s matches .branch .. then 1 else 0

/-- The depth of a block. -/
def Block.depth (w : Nat) : Block → Nat
  | ⟨ss, _⟩ => stmtsDepth w ss + 1

/-- The depth of a function. -/
def FnDecl.depth (w : Nat) : FnDecl → Nat
  | ⟨_, _, body, _⟩ => body.depth w

/-- The depth of statements side by side. -/
def stmtsDepth (w : Nat) : List Stmt → Nat
  | [] => 0
  | s :: ss => max (s.depth w) (stmtsDepth w ss)

end

/-- The nested nodes on a path through a program, at most. -/
def Program.nesting (p : Program) : Nat := stmtsDepth 1 p.statements

/-- The levels of a program: the nested nodes on a path that the path
does not leave by their first operand, at most. -/
def Program.levels (p : Program) : Nat := stmtsDepth 0 p.statements

variable {w n m b c : Nat}

theorem argsDepth_le {es : List Expr} :
    argsDepth w es ≤ n ↔ ∀ e ∈ es, e.depth w ≤ n := by
  induction es with
  | nil => simp [argsDepth]
  | cons e es ih => rw [argsDepth, Nat.max_le, ih, List.forall_mem_cons]

theorem stmtsDepth_le {ss : List Stmt} :
    stmtsDepth w ss ≤ n ↔ ∀ s ∈ ss, s.depth w ≤ n := by
  induction ss with
  | nil => simp [stmtsDepth]
  | cons s ss ih => rw [stmtsDepth, Nat.max_le, ih, List.forall_mem_cons]

/-- An else part is at most a level deeper than its statement. -/
theorem elseDepth_some_le (s : Stmt) :
    elseDepth w (some s) ≤ s.depth w + 1 := by
  cases s <;> simp [elseDepth]

-- ================================================================= built

variable {P : Span → Prop}

/-- An expression built from spans of which `P` holds, with a number of
levels and of nested nodes at most. -/
structure Expr.Built (P : Span → Prop) (levels nesting : Nat) (e : Expr) :
    Prop where
  spanned : e.Spanned P
  levels : e.depth 0 ≤ levels
  nesting : e.depth 1 ≤ nesting

/-- A statement built from spans of which `P` holds, with a number of
levels and of nested nodes at most. -/
structure Stmt.Built (P : Span → Prop) (levels nesting : Nat) (s : Stmt) :
    Prop where
  spanned : s.Spanned P
  levels : s.depth 0 ≤ levels
  nesting : s.depth 1 ≤ nesting

/-- A block built from spans of which `P` holds, with a number of levels
and of nested nodes at most. -/
structure Block.Built (P : Span → Prop) (levels nesting : Nat) (b : Block) :
    Prop where
  spanned : b.Spanned P
  levels : b.depth 0 ≤ levels
  nesting : b.depth 1 ≤ nesting

namespace Expr.Built

variable {e l r : Expr} {s : Span}

theorem mono (h : e.Built P m b) (hn : m ≤ n) (hb : b ≤ c) :
    e.Built P n c :=
  ⟨h.spanned, Nat.le_trans h.levels hn, Nat.le_trans h.nesting hb⟩

theorem group (hs : P s) (h : e.Built P n b) :
    (Expr.group s e).Built P (n + 1) (b + 1) :=
  ⟨⟨hs, h.spanned⟩, Nat.succ_le_succ h.levels, Nat.succ_le_succ h.nesting⟩

theorem unary (hs : P s) (op : UnaryOp) (h : e.Built P n b) :
    (Expr.unary s op e).Built P (n + 1) (b + 1) :=
  ⟨⟨hs, h.spanned⟩, Nat.succ_le_succ h.levels, Nat.succ_le_succ h.nesting⟩

theorem assign {x : Ident} (hs : P s) (hx : P x.span)
    (h : e.Built P n b) : (Expr.assign s x e).Built P (n + 1) (b + 1) :=
  ⟨⟨hs, hx, h.spanned⟩, Nat.succ_le_succ h.levels,
    Nat.succ_le_succ h.nesting⟩

/-- The right operand goes a level down, the left one does not. -/
theorem binary (hs : P s) (op : BinaryOp) (hl : l.Built P n b)
    (hr : r.Built P m b) (hm : m < n) :
    (Expr.binary s op l r).Built P n (b + 1) where
  spanned := ⟨hs, hl.spanned, hr.spanned⟩
  levels := by
    have := hl.levels
    have := hr.levels
    simp only [Expr.depth]
    omega
  nesting := by
    have := hl.nesting
    have := hr.nesting
    simp only [Expr.depth]
    omega

/-- The arguments go a level down, the callee does not. -/
theorem call {args : List Expr} (hs : P s) (hf : e.Built P n b)
    (hargs : ∀ a ∈ args, a.Built P m b) (hm : m < n) :
    (Expr.call s e args).Built P n (b + 1) where
  spanned := ⟨hs, hf.spanned,
    argsSpanned_iff.2 fun a ha => (hargs a ha).spanned⟩
  levels := by
    have := hf.levels
    have := argsDepth_le.2 fun a ha => (hargs a ha).levels
    simp only [Expr.depth]
    omega
  nesting := by
    have := hf.nesting
    have := argsDepth_le.2 fun a ha => (hargs a ha).nesting
    simp only [Expr.depth]
    omega

theorem atom {c : Tree.Cursor} (hc : c.Spanned P) (h : c.atom? = some e)
    (n b : Nat) : e.Built P n b := by
  have hhere := hc.here
  unfold Tree.Cursor.atom? at h
  split at h
  case h_7 => cases h
  all_goals
    cases h
    exact ⟨hhere, Nat.zero_le _, Nat.zero_le _⟩

end Expr.Built

/-- A block goes a level down. -/
theorem Block.built {ss : List Stmt} {s : Span} (hs : P s)
    (h : ∀ t ∈ ss, t.Built P n b) :
    Block.Built P (n + 1) (b + 1) ⟨ss, s⟩ where
  spanned := ⟨hs, stmtsSpanned_iff.2 fun t ht => (h t ht).spanned⟩
  levels := Nat.succ_le_succ (stmtsDepth_le.2 fun t ht => (h t ht).levels)
  nesting := Nat.succ_le_succ
    (stmtsDepth_le.2 fun t ht => (h t ht).nesting)

namespace Stmt.Built

variable {e : Expr} {body : Block} {s : Span}

theorem expression (hs : P s) (h : e.Built P n b) :
    (Stmt.expression s e).Built P n b :=
  ⟨⟨hs, h.spanned⟩, h.levels, h.nesting⟩

theorem print (hs : P s) (h : e.Built P n b) :
    (Stmt.print s e).Built P n b :=
  ⟨⟨hs, h.spanned⟩, h.levels, h.nesting⟩

theorem declare {init : Option Expr} (hs : P s) (x : Ident)
    (h : ∀ e ∈ init, e.Built P n b) : (Stmt.declare s x init).Built P n b := by
  cases init with
  | none =>
      exact ⟨⟨hs, fun _ he => nomatch he⟩, Nat.zero_le _, Nat.zero_le _⟩
  | some e =>
      have he := h e rfl
      refine ⟨⟨hs, ?_⟩, he.levels, he.nesting⟩
      rintro _ ⟨⟩
      exact he.spanned

theorem giveBack {value : Option Expr} (hs : P s)
    (h : ∀ e ∈ value, e.Built P n b) :
    (Stmt.giveBack s value).Built P n b := by
  have := declare hs ⟨"", s⟩ h
  exact ⟨this.spanned, this.levels, this.nesting⟩

theorem block (h : body.Built P n b) : (Stmt.block body).Built P n b :=
  ⟨h.spanned, h.levels, h.nesting⟩

theorem function {x : Ident} {params : List Ident} (hs : P s)
    (h : body.Built P n b) :
    (Stmt.function ⟨x, params, body, s⟩).Built P n b :=
  ⟨⟨hs, h.spanned⟩, h.levels, h.nesting⟩

theorem loop (hs : P s) (he : e.Built P n b) (h : body.Built P n b) :
    (Stmt.loop s e body).Built P n b :=
  ⟨⟨hs, he.spanned, h.spanned⟩, Nat.max_le.2 ⟨he.levels, h.levels⟩,
    Nat.max_le.2 ⟨he.nesting, h.nesting⟩⟩

/-- An else part goes a level down if it is a condition. -/
theorem branch {elsePart : Option Stmt} (hs : P s) (he : e.Built P n b)
    (h : body.Built P n b) (helse : ∀ t ∈ elsePart, t.Spanned P)
    (hlevels : elseDepth 0 elsePart ≤ n)
    (hnesting : elseDepth 1 elsePart ≤ b) :
    (Stmt.branch s e body elsePart).Built P n b where
  spanned := by
    refine ⟨hs, he.spanned, h.spanned, ?_⟩
    cases elsePart with
    | none => trivial
    | some t => exact helse t rfl
  levels := Nat.max_le.2 ⟨he.levels, Nat.max_le.2 ⟨h.levels, hlevels⟩⟩
  nesting := Nat.max_le.2 ⟨he.nesting, Nat.max_le.2 ⟨h.nesting, hnesting⟩⟩

end Stmt.Built

end Script
