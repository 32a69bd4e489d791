/-
Evaluation, by walking the tree. Every expression and every statement
counts as a step before anything else happens; blocks and calls run in a
scope of their own.

The fuel bounds the depth of recursion and the rounds of each loop. Each
level and each round takes a step of its own, so under a limit of `n`
steps a fuel of `n + 1` is never used up.
-/
import Script.Eval.Machine

namespace Script.Eval

open Run

variable {σ : Type}

/-- Runs statements in order up to the first one that returns. -/
def sequence (run : Stmt → EStateM Stop σ Flow) :
    List Stmt → EStateM Stop σ Flow
  | [] => return .next
  | s :: ss => do
      match ← run s with
      | .next => sequence run ss
      | .returned v => return .returned v

/-- Runs a body as long as a condition holds, for less than `fuel`
rounds. -/
def repeatWhile (cond : EStateM Stop σ Bool) (body : EStateM Stop σ Flow) :
    Nat → EStateM Stop σ Flow
  | 0 => throw .starved
  | fuel + 1 => do
      if ← cond then
        match ← body with
        | .next => repeatWhile cond body fuel
        | .returned v => return .returned v
      else return .next

/-- The truth value of an operand. -/
def truth (op : BinaryOp) (span : Span) : Value → Run Bool
  | .bool b => return b
  | v => fail (.notTruth op v.type) span

/-- The truth value of the condition behind a keyword. -/
def conditionTruth (keyword : String) (span : Span) : Value → Run Bool
  | .bool b => return b
  | v => fail (.condition keyword v.type) span

/-- The function to be called with a number of arguments: `callee` is
where it stands in the call. -/
def callable (callee call : Span) (arguments : Nat) : Value → Run Closure
  | .function c => do
      if arguments ≠ c.arity then
        fail (.argumentCount c.name c.arity arguments) call
      return c
  | v => fail (.notCallable v.type) callee

/-- The place where the body of a function runs: a new scope inside of
the captured one, with the arguments bound to the parameters. -/
def enter (limits : Limits) (place : Place) (c : Closure)
    (arguments : List Value) (call : Span) : Run Place := do
  if limits.callDepth ≤ place.depth then
    fail (.callDepth limits.callDepth) call
  let inner : Place := ⟨← child c.scope, place.depth + 1⟩
  (c.decl.params.zip arguments).forM fun (p, v) => define inner p.name v
  return inner

mutual

/-- The value of an expression. -/
def eval (limits : Limits) (fuel : Nat) (place : Place) (e : Expr) :
    Run Value :=
  match fuel with
  | 0 => throw .starved
  | n + 1 => do
      tick limits e.span
      match e with
      | .number _ x => return .number x
      | .string _ s => return .string s
      | .bool _ b => return .bool b
      | .nil _ => return .nil
      | .ident span name => lookup place name span
      | .group _ inner => eval limits n place inner
      | .unary span op operand =>
          let v ← eval limits n place operand
          operation span (op.apply v)
      | .binary span op lhs rhs =>
          let l ← eval limits n place lhs
          if op.isShortCircuit then
            let l ← truth op lhs.span l
            if l == (op == .or) then return .bool l
            else
              let r ← eval limits n place rhs
              return .bool (← truth op rhs.span r)
          else
            let r ← eval limits n place rhs
            operation span (op.apply l r)
      | .assign _ target value =>
          let v ← eval limits n place value
          assign place target v
          return v
      | .call span callee args =>
          let f ← eval limits n place callee
          let c ← callable callee.span span args.length f
          let vs ← args.mapM fun a => eval limits n place a
          let inner ← enter limits place c vs span
          match ← sequence (fun s => exec limits n inner s)
              c.decl.body.statements with
          | .next => return .nil
          | .returned v => return v

/-- Runs a statement. -/
def exec (limits : Limits) (fuel : Nat) (place : Place) (s : Stmt) :
    Run Flow :=
  match fuel with
  | 0 => throw .starved
  | n + 1 =>
      let block (b : Block) : Run Flow := do
        let inner : Place := ⟨← child place.scope, place.depth⟩
        sequence (fun s => exec limits n inner s) b.statements
      let condition (keyword : String) (e : Expr) : Run Bool := do
        conditionTruth keyword e.span (← eval limits n place e)
      do
      tick limits s.span
      match s with
      | .declare _ name init =>
          let v ←
            match init with
            | some e => eval limits n place e
            | none => pure .nil
          define place name.name v
          return .next
      | .function d =>
          declare place d
          return .next
      | .expression _ e =>
          let _ ← eval limits n place e
          return .next
      | .block b => block b
      | .branch _ cond thenPart elsePart =>
          if ← condition "if" cond then block thenPart
          else
            match elsePart with
            | some s => exec limits n place s
            | none => return .next
      | .loop _ cond body =>
          repeatWhile (condition "while" cond) (block body) n
      | .giveBack _ value =>
          match value with
          | some e => return .returned (← eval limits n place e)
          | none => return .returned .nil
      | .print span e =>
          let v ← eval limits n place e
          printLine v.text span
          return .next
      | .empty _ => return .next

end

/-- Runs the statements at the top of a program. The value of a program
is that of its last statement, if that is an expression, and nil
otherwise; a return ends the program with its value. -/
def topLevel (limits : Limits) (fuel : Nat) (place : Place) :
    Value → List Stmt → Run Value
  | last, [] => return last
  | _, .function _ :: ss => topLevel limits fuel place .nil ss
  | _, .expression span e :: ss => do
      tick limits span
      let v ← eval limits fuel place e
      topLevel limits fuel place v ss
  | _, s :: ss => do
      match ← exec limits fuel place s with
      | .next => topLevel limits fuel place .nil ss
      | .returned v => return v

/-- Runs a program. The functions at its top are bound before its first
statement runs. -/
def program (limits : Limits) (fuel : Nat) (globals : ScopeId)
    (p : Program) : Run Value := do
  let place : Place := ⟨globals, 0⟩
  p.functions.forM (declare place)
  topLevel limits fuel place .nil p.statements

end Script.Eval
