/-
What is said of a program while code is made, and by which of its nodes.
An expression may use a name that means nothing there, or nothing that
code can reach, and it may be refused for what is written of its operands
or for its callee. A statement may stand behind a return. Nothing else is
said: whatever holds of all that the nodes of a tree can raise holds of
every warning and of the error that making code for the tree ends with.
-/
import Script.Code.Emit
import Script.Proofs.Complaints.Nodes
import Script.Proofs.Upholds

namespace Script

open Code

-- =============================================================== nodes

/-- The error for which an expression is refused itself, whatever names
mean there and whatever its parts are refused for. -/
def Expr.refusal? : Expr → Option Diagnostic
  | .unary span op e =>
      (unaryFault? op e).map fun f => (Fault.operands f).report.at span
  | .binary span op l r =>
      if op.isShortCircuit then none
      else (binaryFault? op l r).map fun f =>
        (Fault.operands f).report.at span
  | .call _ callee _ =>
      if callee.isLiteral then some (Fault.literalCall.report.at callee.span)
      else none
  | _ => none

/-- How an expression is refused. -/
inductive Expr.Refused : Expr → Diagnostic → Prop
  | unary {span : Span} {op : UnaryOp} {e : Expr} {f : OperandFault}
      (h : unaryFault? op e = some f) :
      Refused (.unary span op e) ((Fault.operands f).report.at span)
  | binary {span : Span} {op : BinaryOp} {l r : Expr} {f : OperandFault}
      (hop : op.isShortCircuit = false) (h : binaryFault? op l r = some f) :
      Refused (.binary span op l r) ((Fault.operands f).report.at span)
  | call {span : Span} {callee : Expr} {args : List Expr}
      (h : callee.isLiteral = true) :
      Refused (.call span callee args)
        (Fault.literalCall.report.at callee.span)

theorem Expr.refused_of_refusal? {e : Expr} {d : Diagnostic}
    (h : e.refusal? = some d) : e.Refused d := by
  cases e with
  | unary span op e =>
      obtain ⟨f, hf, rfl⟩ := Option.map_eq_some_iff.1 h
      exact .unary hf
  | binary span op l r =>
      change (if op.isShortCircuit then none else _) = some d at h
      cases hop : op.isShortCircuit with
      | true =>
          rw [hop] at h
          cases h
      | false =>
          rw [hop] at h
          obtain ⟨f, hf, rfl⟩ := Option.map_eq_some_iff.1 h
          exact .binary hop hf
  | call span callee args =>
      change (if callee.isLiteral then _ else none) = some d at h
      cases hcallee : callee.isLiteral with
      | true =>
          rw [hcallee] at h
          cases h
          exact .call hcallee
      | false =>
          rw [hcallee] at h
          cases h
  | _ => cases h

theorem Expr.Refused.refusal? {e : Expr} {d : Diagnostic}
    (h : e.Refused d) : e.refusal? = some d := by
  cases h with
  | unary h => exact Option.map_eq_some_iff.2 ⟨_, h, rfl⟩
  | @binary span op l r f hop h =>
      show (if op.isShortCircuit then none else _) = _
      rw [hop]
      exact Option.map_eq_some_iff.2 ⟨_, h, rfl⟩
  | call h => exact if_pos h

/-- Whether a diagnostic is about an expression itself. -/
inductive Expr.Raises : Expr → Diagnostic → Prop
  | undefined (span : Span) (name : String) :
      Raises (.ident span name) ((Fault.undefined name).report.at span)
  | captured (span : Span) (name : String) :
      Raises (.ident span name) ((Fault.captured name).report.at span)
  | undefinedTarget (span : Span) (target : Ident) (e : Expr) :
      Raises (.assign span target e)
        ((Fault.undefined target.name).report.at target.span)
  | capturedTarget (span : Span) (target : Ident) (e : Expr) :
      Raises (.assign span target e)
        ((Fault.captured target.name).report.at target.span)
  | refused {e : Expr} {d : Diagnostic} (h : e.refusal? = some d) :
      Raises e d

section

variable (P : Diagnostic → Prop)

/-- Whether `P` holds of all that expressions can raise. -/
def Raise (es : List Expr) : Prop := ∀ e ∈ es, ∀ d, e.Raises d → P d

/-- Whether `P` holds of the warnings that statements can get. -/
def Warn (ss : List Stmt) : Prop :=
  ∀ s ∈ ss, P (Fault.unreachable.report.at s.span)

end

variable {P : Diagnostic → Prop}

theorem Raise.left {es fs : List Expr} (h : Raise P (es ++ fs)) :
    Raise P es := (List.forall_mem_append.1 h).1

theorem Raise.right {es fs : List Expr} (h : Raise P (es ++ fs)) :
    Raise P fs := (List.forall_mem_append.1 h).2

theorem Raise.head {e : Expr} {es : List Expr} (h : Raise P (e :: es)) :
    ∀ d, e.Raises d → P d := h e List.mem_cons_self

theorem Raise.tail {e : Expr} {es : List Expr} (h : Raise P (e :: es)) :
    Raise P es := (List.forall_mem_cons.1 h).2

theorem Warn.left {ss ts : List Stmt} (h : Warn P (ss ++ ts)) :
    Warn P ss := (List.forall_mem_append.1 h).1

theorem Warn.right {ss ts : List Stmt} (h : Warn P (ss ++ ts)) :
    Warn P ts := (List.forall_mem_append.1 h).2

namespace Code

open Script.Action

variable {α β : Type} {start : Nat}

-- ============================================================== actions

/-- Making code with warnings of which `P` holds, and with an error of
which it holds if there is one. -/
abbrev Says (P : Diagnostic → Prop) {α : Type} (x : Emit α) : Prop :=
  Upholds (fun s : Emission => ∀ d ∈ s.warnings, P d) (fun d _ => P d)
    (fun _ => True) x

namespace Says

theorem pure (a : α) : Says P (pure a : Emit α) := Upholds.pure trivial

theorem bind {x : Emit α} {f : α → Emit β} (hx : Says P x)
    (hf : ∀ a, Says P (f a)) : Says P (x >>= f) :=
  Upholds.bind hx fun a _ => hf a

theorem refuse {f : Fault} {span : Span} (h : P (f.report.at span)) :
    Says P (refuse f span : Emit α) :=
  Upholds.throw fun _ _ => h

theorem refuseAny {span : Span} {f? : Option OperandFault}
    (h : ∀ f, f? = some f → P ((Fault.operands f).report.at span)) :
    Says P (refuseAny span f?) := by
  cases f? with
  | none => exact pure ()
  | some f => exact refuse (h f rfl)

/-- Warnings are only ever added. -/
theorem modify {f : Emission → Emission}
    (hf : ∀ s, (f s).warnings = s.warnings) :
    Says P (modify f : Emit Unit) :=
  Upholds.modify fun s hs => (hf s).symm ▸ hs

theorem onSymbols (f : Symbols → Symbols) : Says P (onSymbols f) :=
  modify fun _ => rfl

theorem push (c : Constant) : Says P (push c) := by
  refine Upholds.modifyGet fun s hs => ?_
  split
  · exact ⟨hs, trivial⟩
  · exact ⟨hs, trivial⟩

theorem declare (name : String) : Says P (declare name) :=
  Upholds.modifyGet fun _ hs => ⟨hs, trivial⟩

theorem declareAll (params : List Ident) :
    Says P (params.forM fun p => discard (Code.declare p.name)) :=
  Upholds.forM fun p _ => (declare p.name).bind fun _ => pure _

theorem resolve {name : String} {span : Span}
    (hundefined : P ((Fault.undefined name).report.at span))
    (hcaptured : P ((Fault.captured name).report.at span)) :
    Says P (resolve name span) := by
  refine Upholds.get_bind fun s _ => ?_
  split
  · exact refuse hcaptured
  · exact pure _
  · exact refuse hundefined

theorem reserve (d : FnDecl) : Says P (reserve d) :=
  Upholds.modifyGet fun _ hs => ⟨hs, trivial⟩

theorem fill (index : Nat) (locals : List String) (code : List Instr) :
    Says P (fill index locals code) :=
  modify fun _ => rfl

theorem warnUnreachable {span : Span}
    (h : P (Fault.unreachable.report.at span)) :
    Says P (warnUnreachable span) := by
  refine Upholds.modify fun s hs d hd => ?_
  rcases Array.mem_push.1 hd with hd | rfl
  · exact hs d hd
  · exact h

-- ========================================================== expressions

/-- The check of operands and the code of both of them. -/
theorem strict {span : Span} {op : BinaryOp} {l r : Expr}
    (hop : op.isShortCircuit = false)
    (h : ∀ d, (Expr.binary span op l r).Raises d → P d)
    (hl : Says P (Code.exprCode start l))
    (hr : ∀ start, Says P (Code.exprCode start r)) :
    Says P (do
      Code.refuseAny span (binaryFault? op l r)
      let left ← Code.exprCode start l
      let right ← Code.exprCode (start + left.length) r
      return left ++ right ++ [.binary op]) := by
  refine (refuseAny fun f hf => ?_).bind fun _ =>
    hl.bind fun _ => (hr _).bind fun _ => pure _
  exact h _ (.refused (Expr.Refused.binary hop hf).refusal?)

mutual

theorem exprCode (start : Nat) :
    ∀ e : Expr, Raise P e.all → Says P (exprCode start e)
  | .number .., _ | .string .., _ | .bool .., _ | .nil _, _ => push _
  | .ident span name, h =>
      (resolve (h.head _ (.undefined span name))
        (h.head _ (.captured span name))).bind fun _ => pure _
  | .group _ inner, h => exprCode start inner h.tail
  | .unary span op e, h => by
      refine (refuseAny fun f hf => ?_).bind fun _ =>
        (exprCode start e h.tail).bind fun _ => pure _
      exact h.head _ (.refused (Expr.Refused.unary hf).refusal?)
  | .binary span op l r, h => by
      have hleft := exprCode start l h.tail.left
      have hright (start : Nat) := exprCode start r h.tail.right
      cases op with
      | and =>
          exact hleft.bind fun _ => (hright _).bind fun _ =>
            (push _).bind fun _ => pure _
      | or =>
          exact hleft.bind fun _ => (push _).bind fun _ =>
            (hright _).bind fun _ => pure _
      | _ => exact strict rfl h.head hleft hright
  | .assign span target e, h =>
      (exprCode start e h.tail).bind fun _ =>
        (resolve (h.head _ (.undefinedTarget span target e))
          (h.head _ (.capturedTarget span target e))).bind fun _ => pure _
  | .call span callee args, h => by
      have hrest : Says P (do
          let function ← Code.exprCode start callee
          let arguments ← Code.argumentCode (start + function.length) args
          return function ++ arguments ++ [.call args.length]) :=
        (exprCode start callee h.tail.left).bind fun _ =>
          (argumentCode _ args h.tail.right).bind fun _ => pure _
      refine Upholds.ite (fun hcallee => ?_) fun _ => hrest
      refine (refuse (h.head _ (.refused ?_))).bind fun _ => hrest
      exact (Expr.Refused.call hcallee).refusal?

theorem argumentCode (start : Nat) :
    ∀ es : List Expr, Raise P (allOf es) → Says P (argumentCode start es)
  | [], _ => pure _
  | e :: es, h =>
      (exprCode start e h.left).bind fun code =>
        (argumentCode (start + code.length) es h.right).bind fun _ => pure _

end

theorem optionalCode (start : Nat) (e? : Option Expr)
    (h : Raise P (optionalAll e?)) : Says P (optionalCode start e?) := by
  cases e? with
  | none => exact push _
  | some e => exact exprCode start e h

-- ============================================================ statements

mutual

theorem stmtCode (start : Nat) :
    ∀ s : Stmt, Raise P s.expressions → Warn P s.parts →
      Says P (stmtCode start s)
  | .declare _ name init, h, _ =>
      (optionalCode start init h).bind fun _ =>
        (declare name.name).bind fun _ => pure _
  | .function d, h, hw =>
      (declare d.name.name).bind fun _ => (reserve d).bind fun index =>
        (functionCode index d h hw).bind fun _ => pure _
  | .expression _ e, h, _ => (exprCode start e h).bind fun _ => pure _
  | .block b, h, hw => blockCode start b h hw
  | .branch _ cond thenPart none, h, hw =>
      (exprCode start cond h.left).bind fun _ =>
        (blockCode _ thenPart h.right.left hw.left).bind fun _ => pure _
  | .branch _ cond thenPart (some s), h, hw =>
      (exprCode start cond h.left).bind fun _ =>
        (blockCode _ thenPart h.right.left hw.left).bind fun _ =>
          (stmtCode _ s h.right.right hw.right).bind fun _ => pure _
  | .loop _ cond body, h, hw =>
      (exprCode start cond h.left).bind fun _ =>
        (blockCode _ body h.right hw).bind fun _ => pure _
  | .giveBack _ value, h, _ =>
      (optionalCode start value h).bind fun _ => pure _
  | .print _ e, h, _ => (exprCode start e h).bind fun _ => pure _
  | .empty _, _, _ => pure _

theorem blockCode (start : Nat) :
    ∀ b : Block, Raise P b.expressions → Warn P b.parts →
      Says P (blockCode start b)
  | ⟨ss, _⟩, h, hw =>
      (onSymbols _).bind fun _ =>
        (statementCode start false false ss h hw).bind fun _ =>
          (onSymbols _).bind fun _ => pure _

theorem functionCode (index : Nat) :
    ∀ d : FnDecl, Raise P d.expressions → Warn P d.parts →
      Says P (functionCode index d)
  | ⟨_, params, ⟨ss, _⟩, _⟩, h, hw =>
      (onSymbols _).bind fun _ => (declareAll params).bind fun _ =>
        (statementCode 0 false false ss h hw).bind fun _ =>
          (push _).bind fun _ => Upholds.get_bind fun _ _ =>
            (onSymbols _).bind fun _ => fill _ _ _

theorem statementCode (start : Nat) (returned warned : Bool) :
    ∀ ss : List Stmt, Raise P (stmtsExpressions ss) →
      Warn P (stmtsAll ss) →
        Says P (statementCode start returned warned ss)
  | [], _, _ => pure _
  | s :: ss, h, hw => by
      obtain ⟨hwarn, hbelow⟩ := List.forall_mem_cons.1 hw.left
      have hrest (warn : Bool) : Says P (do
          let code ← Code.stmtCode start s
          return code ++ (← Code.statementCode (start + code.length)
            (returned || s.isGiveBack) (warned || warn) ss)) :=
        (stmtCode start s h.left hbelow).bind fun _ =>
          (statementCode _ _ _ ss h.right hw.right).bind fun _ => pure _
      exact Upholds.ite
        (fun _ => (warnUnreachable hwarn).bind fun _ => hrest _)
        fun _ => hrest _

end

-- ============================================================== programs

/-- Whether `P` holds of all that a statement can raise. -/
def Within (P : Diagnostic → Prop) (s : Stmt) : Prop :=
  Raise P s.expressions ∧ Warn P s.parts

/-- The bodies that are still to come are those of the functions. -/
theorem hoist {ds : List FnDecl}
    (h : ∀ d ∈ ds, Within P (.function d)) :
    Upholds (fun s : Emission => ∀ d ∈ s.warnings, P d) (fun d _ => P d)
      (fun r => ∀ b ∈ r.2, Within P (.function b.2)) (hoist ds) := by
  induction ds with
  | nil => exact Upholds.pure (List.forall_mem_nil _)
  | cons d ds ih =>
      obtain ⟨hd, hds⟩ := List.forall_mem_cons.1 h
      refine Upholds.bind (declare d.name.name) fun _ _ =>
        Upholds.bind (reserve d) fun _ _ => (ih hds).bind fun r hr => ?_
      exact Upholds.pure (List.forall_mem_cons.2 ⟨hd, hr⟩)

theorem topLevelCode (start : Nat) {ss : List Stmt}
    (h : ∀ s ∈ ss, Within P s) : Says P (topLevelCode start ss) := by
  fun_induction Code.topLevelCode start ss with
  | case1 => exact push _
  | case2 start span e =>
      obtain ⟨⟨hs, -⟩, -⟩ := List.forall_mem_cons.1 h
      exact exprCode start e hs
  | case3 start d ss ih => exact ih (List.forall_mem_cons.1 h).2
  | case4 start s ss _ _ ih =>
      obtain ⟨⟨hs, hw⟩, hss⟩ := List.forall_mem_cons.1 h
      exact (stmtCode start s hs hw).bind fun _ =>
        (ih _ hss).bind fun _ => pure _

theorem programCode {p : Program} (h : ∀ s ∈ p.statements, Within P s) :
    Says P (programCode p) := by
  refine (hoist fun d hd => ?_).bind fun r hr => ?_
  · obtain ⟨s, hs, hfunction⟩ := List.mem_filterMap.1 hd
    cases s with
    | function d' =>
        cases hfunction
        exact h _ hs
    | _ => cases hfunction
  · exact (topLevelCode _ h).bind fun _ => (fill _ _ _).bind fun _ =>
      Upholds.forM fun b hb => functionCode b.1 b.2 (hr b hb).1 (hr b hb).2

end Says

/-- All that is said of a program is raised by its nodes. -/
theorem ofProgram_raised {p : Program}
    (hraise : Raise P p.expressions) (hwarn : Warn P (stmtsAll p.statements)) :
    ∀ d ∈ (ofProgram p).2, P d := by
  have hmade : Says P (programCode p) := by
    refine Says.programCode fun s hs => ⟨fun e he => ?_, fun t ht => ?_⟩
    · exact hraise e (mem_stmtsExpressions.2 ⟨s, hs, he⟩)
    · exact hwarn t (mem_stmtsAll.2 ⟨s, hs, List.mem_cons_of_mem s ht⟩)
  have hstart : ∀ d ∈ Emission.start.warnings, P d := nofun
  intro d hd
  unfold ofProgram at hd
  split at hd
  case h_1 s hrun =>
    exact (hmade.of_ok hstart hrun).1 d (Array.mem_toList_iff.1 hd)
  case h_2 refusal s hrun =>
    obtain ⟨hs, hrefusal⟩ := hmade.of_error hstart hrun
    rcases List.mem_append.1 hd with hd | hd
    · exact hs d (Array.mem_toList_iff.1 hd)
    · rw [List.mem_singleton.1 hd]
      exact hrefusal

end Code

end Script
