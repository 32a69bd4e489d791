/-
The paths down a tree, as far as depth goes: how many nested nodes a path
passes through, apart for those it leaves by their first operand. The
depth of a tree is what the nested nodes on one of its paths count for.
-/
import Script.Proofs.Reading.Nesting

namespace Script

/-- The nested nodes on a path: those that take up a level for what comes
behind them, and those the path leaves by their first operand. -/
structure Path where
  levels : Nat
  firsts : Nat
deriving DecidableEq, Repr

namespace Path

/-- A path without a nested node. -/
def leaf : Path := ⟨0, 0⟩

/-- A path from a nested node on, by no first operand. -/
def deeper (π : Path) : Path := ⟨π.levels + 1, π.firsts⟩

/-- A path from a nested node on, by its first operand. -/
def first (π : Path) : Path := ⟨π.levels, π.firsts + 1⟩

/-- All nested nodes on a path. -/
def nested (π : Path) : Nat := π.levels + π.firsts

/-- What the nested nodes on a path count for, those left by their first
operand for `w` each. -/
def weight (w : Nat) (π : Path) : Nat := π.levels + w * π.firsts

variable {w : Nat} {π : Path}

@[simp] theorem weight_leaf : leaf.weight w = 0 := by
  simp [weight, leaf]

@[simp] theorem weight_deeper : π.deeper.weight w = π.weight w + 1 := by
  simp only [weight, deeper]
  omega

@[simp] theorem weight_first : π.first.weight w = π.weight w + w := by
  simp only [weight, first, Nat.mul_add_one]
  omega

theorem weight_zero : π.weight 0 = π.levels := by
  simp [weight]

theorem weight_one : π.weight 1 = π.nested := by
  simp [weight, nested]

end Path

-- ================================================================ paths

mutual

/-- The paths down an expression; one that ends in a call goes to no
argument. -/
def Expr.paths : Expr → List Path
  | .number .. | .string .. | .bool .. | .nil _ | .ident .. => [.leaf]
  | .unary _ _ e | .assign _ _ e | .group _ e => e.paths.map .deeper
  | .binary _ _ l r => l.paths.map .first ++ r.paths.map .deeper
  | .call _ callee args =>
      callee.paths.map .first ++ (argsPaths args).map .deeper

/-- The paths down the arguments of a call. -/
def argsPaths : List Expr → List Path
  | [] => [.leaf]
  | e :: es => e.paths ++ argsPaths es

end

mutual

/-- The paths down a statement. -/
def Stmt.paths : Stmt → List Path
  | .declare _ _ init => (init.map Expr.paths).getD [.leaf]
  | .function d => d.paths
  | .expression _ e | .print _ e => e.paths
  | .block b => b.paths
  | .branch _ cond thenPart elsePart =>
      cond.paths ++ (thenPart.paths ++ elsePaths elsePart)
  | .loop _ cond body => cond.paths ++ body.paths
  | .giveBack _ value => (value.map Expr.paths).getD [.leaf]
  | .empty _ => [.leaf]

/-- The paths down an else part. -/
def elsePaths : Option Stmt → List Path
  | none => [.leaf]
  | some s => if s matches .branch .. then s.paths.map .deeper else s.paths

/-- The paths down a block. -/
def Block.paths : Block → List Path
  | ⟨ss, _⟩ => (stmtsPaths ss).map .deeper

/-- The paths down a function. -/
def FnDecl.paths : FnDecl → List Path
  | ⟨_, _, body, _⟩ => body.paths

/-- The paths down statements side by side. -/
def stmtsPaths : List Stmt → List Path
  | [] => [.leaf]
  | s :: ss => s.paths ++ stmtsPaths ss

end

/-- The paths down a program. -/
def Program.paths (p : Program) : List Path := stmtsPaths p.statements

-- ================================================================ depth

variable {w n m : Nat} {ps qs : List Path}

/-- A depth is what the nested nodes on a path count for, at most. -/
structure Deepest (w : Nat) (ps : List Path) (n : Nat) : Prop where
  bound : ∀ π ∈ ps, π.weight w ≤ n
  reached : ∃ π ∈ ps, π.weight w = n

namespace Deepest

theorem leaf : Deepest w [.leaf] 0 :=
  ⟨by simp, .leaf, List.mem_singleton_self _, Path.weight_leaf⟩

theorem deeper (h : Deepest w ps n) :
    Deepest w (ps.map .deeper) (n + 1) where
  bound := List.forall_mem_map.2 fun π hπ => by
    rw [Path.weight_deeper]
    exact Nat.succ_le_succ (h.bound π hπ)
  reached := by
    obtain ⟨π, hπ, hreached⟩ := h.reached
    exact ⟨π.deeper, List.mem_map_of_mem hπ,
      by rw [Path.weight_deeper, hreached]⟩

theorem first (h : Deepest w ps n) : Deepest w (ps.map .first) (n + w) where
  bound := List.forall_mem_map.2 fun π hπ => by
    rw [Path.weight_first]
    exact Nat.add_le_add_right (h.bound π hπ) w
  reached := by
    obtain ⟨π, hπ, hreached⟩ := h.reached
    exact ⟨π.first, List.mem_map_of_mem hπ,
      by rw [Path.weight_first, hreached]⟩

theorem append (h : Deepest w ps n) (h' : Deepest w qs m) :
    Deepest w (ps ++ qs) (max n m) where
  bound := List.forall_mem_append.2
    ⟨fun π hπ => Nat.le_trans (h.bound π hπ) (Nat.le_max_left ..),
      fun π hπ => Nat.le_trans (h'.bound π hπ) (Nat.le_max_right ..)⟩
  reached := by
    rcases Nat.le_total n m with hle | hle
    · obtain ⟨π, hπ, hreached⟩ := h'.reached
      exact ⟨π, List.mem_append_right _ hπ,
        by rw [Nat.max_eq_right hle, hreached]⟩
    · obtain ⟨π, hπ, hreached⟩ := h.reached
      exact ⟨π, List.mem_append_left _ hπ,
        by rw [Nat.max_eq_left hle, hreached]⟩

end Deepest

mutual

theorem Expr.deepest (w : Nat) : ∀ e : Expr, Deepest w e.paths (e.depth w)
  | .number .. | .string .. | .bool .. | .nil _ | .ident .. => .leaf
  | .unary _ _ e | .assign _ _ e | .group _ e => (e.deepest w).deeper
  | .binary _ _ l r => (l.deepest w).first.append (r.deepest w).deeper
  | .call _ callee args =>
      (callee.deepest w).first.append (argsDeepest w args).deeper

theorem argsDeepest (w : Nat) :
    ∀ es : List Expr, Deepest w (argsPaths es) (argsDepth w es)
  | [] => .leaf
  | e :: es => (e.deepest w).append (argsDeepest w es)

end

theorem valueDeepest (w : Nat) : ∀ e? : Option Expr,
    Deepest w ((e?.map Expr.paths).getD [.leaf])
      ((e?.map (Expr.depth w)).getD 0)
  | none => .leaf
  | some e => e.deepest w

mutual

theorem Stmt.deepest (w : Nat) : ∀ s : Stmt, Deepest w s.paths (s.depth w)
  | .declare _ _ init => valueDeepest w init
  | .function d => d.deepest w
  | .expression _ e | .print _ e => e.deepest w
  | .block b => b.deepest w
  | .branch _ cond thenPart elsePart =>
      (cond.deepest w).append
        ((thenPart.deepest w).append (elseDeepest w elsePart))
  | .loop _ cond body => (cond.deepest w).append (body.deepest w)
  | .giveBack _ value => valueDeepest w value
  | .empty _ => .leaf

theorem elseDeepest (w : Nat) : ∀ s? : Option Stmt,
    Deepest w (elsePaths s?) (elseDepth w s?)
  | none => .leaf
  | some s => by
      have hs := s.deepest w
      cases s with
      | branch => exact hs.deeper
      | _ => exact hs

theorem Block.deepest (w : Nat) : ∀ b : Block, Deepest w b.paths (b.depth w)
  | ⟨ss, _⟩ => (stmtsDeepest w ss).deeper

theorem FnDecl.deepest (w : Nat) :
    ∀ d : FnDecl, Deepest w d.paths (d.depth w)
  | ⟨_, _, body, _⟩ => body.deepest w

theorem stmtsDeepest (w : Nat) :
    ∀ ss : List Stmt, Deepest w (stmtsPaths ss) (stmtsDepth w ss)
  | [] => .leaf
  | s :: ss => (s.deepest w).append (stmtsDeepest w ss)

end

/-- The levels of a program are those on one of its paths, at most. -/
theorem Program.levels_le (p : Program) :
    ∀ π ∈ p.paths, π.levels ≤ p.levels := by
  intro π hπ
  rw [← Path.weight_zero]
  exact (stmtsDeepest 0 p.statements).bound π hπ

/-- The nesting of a program are the nested nodes on one of its paths, at
most. -/
theorem Program.nested_le (p : Program) :
    ∀ π ∈ p.paths, π.nested ≤ p.nesting := by
  intro π hπ
  rw [← Path.weight_one]
  exact (stmtsDeepest 1 p.statements).bound π hπ

theorem Program.exists_nested (p : Program) :
    ∃ π ∈ p.paths, π.nested = p.nesting := by
  obtain ⟨π, hπ, hreached⟩ := (stmtsDeepest 1 p.statements).reached
  exact ⟨π, hπ, by rw [← Path.weight_one, hreached]; rfl⟩

end Script
