/-
Code and parentheses. An expression in parentheses has the code of the
expression, and wherever the compiler looks at an operand it looks through
the parentheses. So a tree and the tree without parentheses lead to the
same code, with the same warnings, or to errors that say the same. The
place of an error may differ: that of a literal which is called is the
whole callee, parentheses included.
-/
import Script.Code.Emit
import Script.Proofs.Action
import Script.Proofs.Parentheses.Removed

namespace Script

namespace Code

/-- Making code, with errors that say what is wrong but not where. -/
def unplaced {α : Type} (x : Emit α) : EStateM Report Emission α :=
  x.adaptExcept Diagnostic.toReport

section Rules

variable {α β : Type}

theorem unplaced_apply (x : Emit α) (s : Emission) :
    unplaced x s = match x s with
      | .ok a t => .ok a t
      | .error d t => .error d.toReport t := by
  unfold unplaced EStateM.adaptExcept
  cases x s <;> rfl

@[simp] theorem unplaced_pure (a : α) :
    unplaced (pure a : Emit α) = pure a := rfl

@[simp] theorem unplaced_bind (x : Emit α) (f : α → Emit β) :
    unplaced (x >>= f) = unplaced x >>= fun a => unplaced (f a) := by
  funext s
  show unplaced (EStateM.bind x f) s
    = EStateM.bind (unplaced x) (fun a => unplaced (f a)) s
  rw [unplaced_apply]
  unfold EStateM.bind
  rw [unplaced_apply]
  cases x s with
  | ok a t => exact (unplaced_apply (f a) t).symm
  | error d t => rfl

theorem unplaced_ite (c : Prop) [Decidable c] (x y : Emit α) :
    unplaced (if c then x else y) =
      if c then unplaced x else unplaced y :=
  apply_ite unplaced c x y

/-- Errors that say the same are the same, wherever they are. -/
theorem unplaced_refuse (f : Fault) (span span' : Span) :
    unplaced (refuse f span : Emit α) = unplaced (refuse f span') := rfl

end Rules

theorem unaryFault?_ungrouped (op : UnaryOp) (e : Expr) :
    unaryFault? op e.ungrouped = unaryFault? op e := by
  unfold unaryFault?
  rw [e.literal?_ungrouped]

theorem binaryFault?_ungrouped (op : BinaryOp) (l r : Expr) :
    binaryFault? op l.ungrouped r.ungrouped = binaryFault? op l r := by
  unfold binaryFault?
  rw [l.literal?_ungrouped, r.literal?_ungrouped, r.isZero_ungrouped]

-- =========================================================== expressions

mutual

theorem exprCode_ungrouped : ∀ (e : Expr) (start : Nat),
    unplaced (exprCode start e.ungrouped) = unplaced (exprCode start e)
  | .number .., _ => rfl
  | .string .., _ => rfl
  | .bool .., _ => rfl
  | .nil _, _ => rfl
  | .ident .., _ => rfl
  | .group _ e, start => exprCode_ungrouped e start
  | .unary span op e, start => by
      unfold Expr.ungrouped exprCode
      simp only [unplaced_bind, unaryFault?_ungrouped, exprCode_ungrouped e]
  | .binary span op l r, start => by
      unfold Expr.ungrouped
      cases op <;>
      · simp only [exprCode, unplaced_bind, binaryFault?_ungrouped,
          exprCode_ungrouped l, exprCode_ungrouped r]
  | .assign span target e, start => by
      unfold Expr.ungrouped exprCode
      simp only [unplaced_bind, exprCode_ungrouped e]
  | .call span callee args, start => by
      unfold Expr.ungrouped exprCode
      rw [callee.isLiteral_ungrouped, ungroupedAll_eq, List.length_map,
        ← ungroupedAll_eq]
      simp only [unplaced_ite, unplaced_bind, exprCode_ungrouped callee,
        argumentCode_ungrouped args,
        unplaced_refuse _ callee.ungrouped.span callee.span]

theorem argumentCode_ungrouped : ∀ (es : List Expr) (start : Nat),
    unplaced (argumentCode start (ungroupedAll es)) =
      unplaced (argumentCode start es)
  | [], _ => rfl
  | e :: es, start => by
      unfold ungroupedAll argumentCode
      simp only [unplaced_bind, exprCode_ungrouped e,
        argumentCode_ungrouped es]

end

theorem optionalCode_ungrouped (e : Option Expr) (start : Nat) :
    unplaced (optionalCode start (e.map Expr.ungrouped)) =
      unplaced (optionalCode start e) := by
  cases e with
  | none => rfl
  | some e => exact exprCode_ungrouped e start

-- ============================================================ statements

mutual

theorem stmtCode_ungrouped : ∀ (s : Stmt) (start : Nat),
    unplaced (stmtCode start s.ungrouped) = unplaced (stmtCode start s)
  | .declare span name init, start => by
      unfold Stmt.ungrouped stmtCode
      simp only [unplaced_bind, optionalCode_ungrouped]
  | .function d, start => by
      unfold Stmt.ungrouped stmtCode reserve
      simp only [unplaced_bind, functionCode_ungrouped d]
      rw [d.ungrouped_eq]
  | .expression _ e, start => by
      unfold Stmt.ungrouped stmtCode
      simp only [unplaced_bind, exprCode_ungrouped e]
  | .block b, start => by
      unfold Stmt.ungrouped stmtCode
      exact blockCode_ungrouped b start
  | .branch _ cond b none, start => by
      unfold Stmt.ungrouped stmtCode
      simp only [elseUngrouped, unplaced_bind, exprCode_ungrouped cond,
        blockCode_ungrouped b]
  | .branch _ cond b (some s), start => by
      unfold Stmt.ungrouped stmtCode
      simp only [elseUngrouped, unplaced_bind, exprCode_ungrouped cond,
        blockCode_ungrouped b, stmtCode_ungrouped s]
  | .loop _ cond b, start => by
      unfold Stmt.ungrouped stmtCode
      simp only [unplaced_bind, exprCode_ungrouped cond,
        blockCode_ungrouped b]
  | .giveBack _ value, start => by
      unfold Stmt.ungrouped stmtCode
      simp only [unplaced_bind, optionalCode_ungrouped]
  | .print _ e, start => by
      unfold Stmt.ungrouped stmtCode
      simp only [unplaced_bind, exprCode_ungrouped e]
  | .empty _, _ => rfl

theorem blockCode_ungrouped : ∀ (b : Block) (start : Nat),
    unplaced (blockCode start b.ungrouped) = unplaced (blockCode start b)
  | ⟨ss, _⟩, start => by
      unfold Block.ungrouped blockCode
      simp only [unplaced_bind, statementCode_ungrouped ss]

theorem functionCode_ungrouped : ∀ (d : FnDecl) (index : Nat),
    unplaced (functionCode index d.ungrouped) =
      unplaced (functionCode index d)
  | ⟨name, params, ⟨ss, _⟩, _⟩, index => by
      unfold FnDecl.ungrouped Block.ungrouped functionCode
      simp only [unplaced_bind, statementCode_ungrouped ss]

theorem statementCode_ungrouped : ∀ (ss : List Stmt) (start : Nat)
    (returned warned : Bool),
    unplaced (statementCode start returned warned (stmtsUngrouped ss)) =
      unplaced (statementCode start returned warned ss)
  | [], _, _, _ => rfl
  | s :: ss, start, returned, warned => by
      unfold stmtsUngrouped statementCode
      simp only [unplaced_ite, unplaced_bind, stmtCode_ungrouped s,
        statementCode_ungrouped ss, s.isEmpty_ungrouped, s.span_ungrouped,
        s.isGiveBack_ungrouped]

end

-- ============================================================== programs

/-- The functions at the top of a program keep their places. -/
theorem hoist_ungrouped (ds : List FnDecl) :
    hoist (ds.map FnDecl.ungrouped) =
      (fun r => (r.1, r.2.map fun b => (b.1, b.2.ungrouped))) <$> hoist ds := by
  induction ds with
  | nil => rfl
  | cons d ds ih =>
      obtain ⟨name, params, body, id⟩ := d
      rw [List.map_cons]
      unfold hoist
      rw [ih]
      simp only [map_bind, bind_map_left, map_pure, List.map_cons]
      rfl

theorem topLevelCode_ungrouped (ss : List Stmt) (start : Nat) :
    unplaced (topLevelCode start (stmtsUngrouped ss)) =
      unplaced (topLevelCode start ss) := by
  induction ss generalizing start with
  | nil => rfl
  | cons s ss ih =>
      have hrest : unplaced (do
            let code ← stmtCode start s.ungrouped
            return code ++ (← topLevelCode (start + code.length)
              (stmtsUngrouped ss))) =
          unplaced (do
            let code ← stmtCode start s
            return code ++ (← topLevelCode (start + code.length) ss)) := by
        simp only [unplaced_bind, stmtCode_ungrouped, ih]
      cases s with
      | function d => exact ih start
      | expression span e =>
          cases ss with
          | nil => exact exprCode_ungrouped e start
          | cons t ts => exact hrest
      | _ => exact hrest

theorem bodies_ungrouped (bodies : List (Nat × FnDecl)) :
    unplaced ((bodies.map fun b => (b.1, b.2.ungrouped)).forM
        fun (index, d) => functionCode index d) =
      unplaced (bodies.forM fun (index, d) => functionCode index d) := by
  induction bodies with
  | nil => rfl
  | cons b bodies ih =>
      rw [List.map_cons, List.forM, List.forM, unplaced_bind, unplaced_bind,
        ih, functionCode_ungrouped]

theorem programCode_ungrouped (p : Program) :
    unplaced (programCode p.ungrouped) = unplaced (programCode p) := by
  unfold programCode
  rw [p.functions_ungrouped, hoist_ungrouped]
  simp only [bind_map_left, unplaced_bind, Program.ungrouped,
    topLevelCode_ungrouped, bodies_ungrouped]

/-- What becomes of a program, with reports that say what is wrong but not
where. -/
def unplacedOutcome (r : Option Code × List Diagnostic) :
    Option Code × List Report :=
  (r.1, r.2.map Diagnostic.toReport)

theorem unplacedOutcome_ofProgram (p : Program) :
    unplacedOutcome (ofProgram p) =
      match unplaced (programCode p) .start with
      | .ok () s =>
          (some ⟨s.constants.toList, s.symbols.globals, s.functions.toList⟩,
            s.warnings.toList.map Diagnostic.toReport)
      | .error r s =>
          (none, s.warnings.toList.map Diagnostic.toReport ++ [r]) := by
  rw [unplaced_apply]
  unfold ofProgram unplacedOutcome
  cases programCode p .start with
  | ok u s => rfl
  | error d s =>
      dsimp only
      rw [List.map_append]
      rfl

/-- Parentheses make no difference to the code of a program, nor to what
is said of it. -/
theorem ofProgram_ungrouped (p : Program) :
    unplacedOutcome (ofProgram p.ungrouped) =
      unplacedOutcome (ofProgram p) := by
  rw [unplacedOutcome_ofProgram, unplacedOutcome_ofProgram,
    programCode_ungrouped]

end Code

end Script
