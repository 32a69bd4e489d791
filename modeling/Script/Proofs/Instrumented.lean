/-
Evaluation over actions of one's own. A run can carry more than a machine:
an account, a record, a trace, or the place where it stands. What sets it
apart from the plain run is what it does at a few actions, and all the rest
is put together from these; so evaluation over such actions stands here
once. If each of them does what the plain one does, then so does every
expression, every statement and every program.
-/
import Script.Eval.Basic

namespace Script.Eval

variable {P σ α β : Type}

-- ============================================================ primitives

/-- What evaluation is made of in runs with a state `σ`, which hand down a
`P` that tells where they stand. -/
structure Primitives (P σ : Type) where
  /-- An action of the machine, at the place where the run stands. -/
  plain : {α : Type} → P → (Place → Run α) → EStateM Stop σ α
  tick (limits : Limits) (p : P) (span : Span) : EStateM Stop σ Unit :=
    plain p fun _ => Run.tick limits span
  lookup (p : P) (x : Ident) : EStateM Stop σ Value :=
    plain p fun place => Run.lookup place x.name x.span
  assign (p : P) (target : Ident) (v : Value) : EStateM Stop σ Unit :=
    plain p fun place => Run.assign place target v
  define (p : P) (x : Ident) (v : Value) : EStateM Stop σ Unit :=
    plain p fun place => Run.define place x.name v
  declare (p : P) (d : FnDecl) : EStateM Stop σ Unit :=
    plain p fun place => Run.declare place d
  /-- Runs a body in a scope of its own. -/
  block : P → (P → EStateM Stop σ Flow) → EStateM Stop σ Flow
  /-- Runs the body of a function that is called with arguments. -/
  call : Limits → P → Closure → List Value → Span →
    (P → EStateM Stop σ Flow) → EStateM Stop σ Flow
  /-- Computes the value of an expression. -/
  valued (p : P) (x : EStateM Stop σ Value) : EStateM Stop σ Value := x

/-- The place where the body of a function runs, in runs that hand down
their place. -/
def enterBy (plain : {α : Type} → Place → Run α → EStateM Stop σ α)
    (define : Place → Ident → Value → EStateM Stop σ Unit)
    (limits : Limits) (place : Place) (c : Closure)
    (arguments : List Value) (call : Span) : EStateM Stop σ Place := do
  if limits.callDepth ≤ place.depth then
    plain place (Run.fail (.callDepth limits.callDepth) call)
  let inner : Place := ⟨← plain place (Run.child c.scope), place.depth + 1⟩
  (c.decl.params.zip arguments).forM fun (p, v) => define inner p v
  return inner

namespace Primitives

variable (A : Primitives P σ)

mutual

/-- The value of an expression. -/
def eval (limits : Limits) (fuel : Nat) (p : P) (e : Expr) :
    EStateM Stop σ Value :=
  match fuel with
  | 0 => throw .starved
  | n + 1 => A.valued p do
      A.tick limits p e.span
      match e with
      | .number _ x => return .number x
      | .string _ s => return .string s
      | .bool _ b => return .bool b
      | .nil _ => return .nil
      | .ident span name => A.lookup p ⟨name, span⟩
      | .group _ inner => eval limits n p inner
      | .unary span op operand =>
          let v ← eval limits n p operand
          A.plain p fun _ => Run.operation span (op.apply v)
      | .binary span op lhs rhs =>
          let l ← eval limits n p lhs
          if op.isShortCircuit then
            let l ← A.plain p fun _ => truth op lhs.span l
            if l == (op == .or) then return .bool l
            else
              let r ← eval limits n p rhs
              return .bool (← A.plain p fun _ => truth op rhs.span r)
          else
            let r ← eval limits n p rhs
            A.plain p fun _ => Run.operation span (op.apply l r)
      | .assign _ target value =>
          let v ← eval limits n p value
          A.assign p target v
          return v
      | .call span callee args =>
          let f ← eval limits n p callee
          let c ← A.plain p fun _ => callable callee.span span args.length f
          let vs ← args.mapM fun a => eval limits n p a
          match ← A.call limits p c vs span fun inner =>
              sequence (fun s => exec limits n inner s)
                c.decl.body.statements with
          | .next => return .nil
          | .returned v => return v

/-- Runs a statement. -/
def exec (limits : Limits) (fuel : Nat) (p : P) (s : Stmt) :
    EStateM Stop σ Flow :=
  match fuel with
  | 0 => throw .starved
  | n + 1 =>
      let block (b : Block) : EStateM Stop σ Flow :=
        A.block p fun inner =>
          sequence (fun s => exec limits n inner s) b.statements
      let condition (keyword : String) (e : Expr) : EStateM Stop σ Bool := do
        let v ← eval limits n p e
        A.plain p fun _ => conditionTruth keyword e.span v
      do
      A.tick limits p s.span
      match s with
      | .declare _ x init =>
          let v ←
            match init with
            | some e => eval limits n p e
            | none => pure .nil
          A.define p x v
          return .next
      | .function d =>
          A.declare p d
          return .next
      | .expression _ e =>
          let _ ← eval limits n p e
          return .next
      | .block b => block b
      | .branch _ cond thenPart elsePart =>
          if ← condition "if" cond then block thenPart
          else
            match elsePart with
            | some s => exec limits n p s
            | none => return .next
      | .loop _ cond body =>
          repeatWhile (condition "while" cond) (block body) n
      | .giveBack _ value =>
          match value with
          | some e => return .returned (← eval limits n p e)
          | none => return .returned .nil
      | .print span e =>
          let v ← eval limits n p e
          A.plain p fun _ => Run.printLine v.text span
          return .next
      | .empty _ => return .next

end

/-- Runs the statements at the top of a program. -/
def topLevel (limits : Limits) (fuel : Nat) (p : P) :
    Value → List Stmt → EStateM Stop σ Value
  | last, [] => return last
  | _, .function _ :: ss => topLevel limits fuel p .nil ss
  | _, .expression span e :: ss => do
      A.tick limits p span
      let v ← A.eval limits fuel p e
      topLevel limits fuel p v ss
  | _, s :: ss => do
      match ← A.exec limits fuel p s with
      | .next => topLevel limits fuel p .nil ss
      | .returned v => return v

/-- Runs a program. -/
def program (limits : Limits) (fuel : Nat) (p : P) (tree : Program) :
    EStateM Stop σ Value := do
  tree.functions.forM (A.declare p)
  A.topLevel limits fuel p .nil tree.statements

end Primitives

-- ============================================================= mirroring

/-- A relation between an action where a run stands at `p`, and an action at
a place. What it says of actions, it says of one behind the other. -/
structure Composes
    (R : {α : Type} → P → EStateM Stop σ α → (Place → Run α) → Prop) :
    Prop where
  pure {α : Type} (p : P) (a : α) : R p (pure a) fun _ => pure a
  throw {α : Type} (p : P) (e : Stop) :
    R p (throw e : EStateM Stop σ α) fun _ => throw e
  bind {α β : Type} {p : P} {x : EStateM Stop σ α} {y : Place → Run α}
    {f : α → EStateM Stop σ β} {g : α → Place → Run β} :
    R p x y → (∀ a, R p (f a) (g a)) →
      R p (x >>= f) fun place => y place >>= fun a => g a place

section

variable {R : {α : Type} → P → EStateM Stop σ α → (Place → Run α) → Prop}
  {p : P}

theorem Composes.ite {x x' : EStateM Stop σ α} {y y' : Place → Run α}
    {c : Prop} [Decidable c] (hx : R p x y) (hx' : R p x' y') :
    R p (if c then x else x') fun place =>
      if c then y place else y' place := by
  by_cases hc : c
  · simp only [if_pos hc]
    exact hx
  · simp only [if_neg hc]
    exact hx'

variable (h : Composes R)

include h

theorem Composes.forM {f : α → EStateM Stop σ Unit}
    {g : α → Place → Run Unit} (hf : ∀ a, R p (f a) (g a)) (as : List α) :
    R p (as.forM f) fun place => as.forM fun a => g a place := by
  induction as with
  | nil => exact h.pure p ()
  | cons a as ih => exact h.bind (hf a) fun _ => ih

theorem Composes.mapM {f : α → EStateM Stop σ β} {g : α → Place → Run β}
    (hf : ∀ a, R p (f a) (g a)) (as : List α) :
    R p (as.mapM f) fun place => as.mapM fun a => g a place := by
  induction as with
  | nil => exact h.pure p []
  | cons a as ih =>
      simp only [List.mapM_cons]
      exact h.bind (hf a) fun _ => h.bind ih fun _ => h.pure p _

theorem Composes.sequence {run : Stmt → EStateM Stop σ Flow}
    {run' : Place → Stmt → Run Flow}
    (hrun : ∀ s, R p (run s) fun place => run' place s) (ss : List Stmt) :
    R p (sequence run ss) fun place => Eval.sequence (run' place) ss := by
  induction ss with
  | nil => exact h.pure p _
  | cons s ss ih =>
      refine h.bind (hrun s) fun flow => ?_
      cases flow with
      | next => exact ih
      | returned v => exact h.pure p _

theorem Composes.repeatWhile {cond : EStateM Stop σ Bool}
    {body : EStateM Stop σ Flow} {cond' : Place → Run Bool}
    {body' : Place → Run Flow} (hcond : R p cond cond')
    (hbody : R p body body') (fuel : Nat) :
    R p (repeatWhile cond body fuel) fun place =>
      Eval.repeatWhile (cond' place) (body' place) fuel := by
  induction fuel with
  | zero => exact h.throw p _
  | succ fuel ih =>
      refine h.bind hcond fun b => ite ?_ (h.pure p _)
      refine h.bind hbody fun flow => ?_
      cases flow with
      | next => exact ih
      | returned v => exact h.pure p _

/-- What a call makes of the flow behind a body. -/
theorem Composes.value {x : EStateM Stop σ Flow} {y : Place → Run β}
    {g : Place → β → Run Flow}
    (hx : R p x fun place => y place >>= fun b => g place b) :
    R p (do
      match ← x with
      | .next => return Value.nil
      | .returned v => return v) fun place => do
        match ← g place (← y place) with
        | .next => return Value.nil
        | .returned v => return v := by
  have hvalue (flow : Flow) : R p
      (match flow with
        | .next => return .nil
        | .returned v => return v : EStateM Stop σ Value)
      fun _ => match flow with
        | .next => return .nil
        | .returned v => return v := by
    cases flow with
    | next => exact h.pure p _
    | returned v => exact h.pure p _
  have hwhole := h.bind hx hvalue
  simp only [bind_assoc] at hwhole
  exact hwhole

end

namespace Primitives

/-- Actions that do what the plain ones do, as `R` tells it. -/
structure Mirrors (A : Primitives P σ)
    (R : {α : Type} → P → EStateM Stop σ α → (Place → Run α) → Prop) :
    Prop extends Composes R where
  plain {α : Type} (p : P) (y : Place → Run α) : R p (A.plain p y) y
  tick (limits : Limits) (p : P) (span : Span) :
    R p (A.tick limits p span) fun _ => Run.tick limits span
  lookup (p : P) (x : Ident) :
    R p (A.lookup p x) fun place => Run.lookup place x.name x.span
  assign (p : P) (target : Ident) (v : Value) :
    R p (A.assign p target v) fun place => Run.assign place target v
  define (p : P) (x : Ident) (v : Value) :
    R p (A.define p x v) fun place => Run.define place x.name v
  declare (p : P) (d : FnDecl) :
    R p (A.declare p d) fun place => Run.declare place d
  block (p : P) {body : P → EStateM Stop σ Flow} {body' : Place → Run Flow} :
    (∀ inner, R inner (body inner) body') →
      R p (A.block p body) fun place => do
        body' ⟨← Run.child place.scope, place.depth⟩
  call (limits : Limits) (p : P) (c : Closure) (vs : List Value)
    (span : Span) {body : P → EStateM Stop σ Flow}
    {body' : Place → Run Flow} :
    (∀ inner, R inner (body inner) body') →
      R p (A.call limits p c vs span body) fun place => do
        body' (← enter limits place c vs span)
  valued {p : P} {x : EStateM Stop σ Value} {y : Place → Run Value} :
    R p x y → R p (A.valued p x) y

namespace Mirrors

variable {A : Primitives P σ}
  {R : {α : Type} → P → EStateM Stop σ α → (Place → Run α) → Prop}
  (h : A.Mirrors R) {p : P}

include h

mutual

/-- An expression is evaluated as it is by the plain actions. -/
theorem eval (limits : Limits) (fuel : Nat) (p : P) (e : Expr) :
    R p (A.eval limits fuel p e) fun place =>
      Eval.eval limits fuel place e := by
  cases fuel with
  | zero =>
      unfold Primitives.eval Eval.eval
      exact h.throw p _
  | succ n =>
      have heval := eval limits n p
      unfold Primitives.eval Eval.eval
      refine h.valued (h.bind (h.tick limits p _) fun _ => ?_)
      cases e with
      | number _ x => exact h.pure p _
      | string _ s => exact h.pure p _
      | bool _ b => exact h.pure p _
      | nil _ => exact h.pure p _
      | ident span name => exact h.lookup p ⟨name, span⟩
      | group _ e => exact heval e
      | unary span op e => exact h.bind (heval e) fun v => h.plain p _
      | binary span op l r =>
          refine h.bind (heval l) fun v => Composes.ite ?_ ?_
          · refine h.bind (h.plain p _) fun b => Composes.ite (h.pure p _) ?_
            exact h.bind (heval r) fun w =>
              h.bind (h.plain p _) fun _ => h.pure p _
          · exact h.bind (heval r) fun w => h.plain p _
      | assign _ target e =>
          exact h.bind (heval e) fun v =>
            h.bind (h.assign p target v) fun _ => h.pure p _
      | call span f args =>
          refine h.bind (heval f) fun v => h.bind (h.plain p _) fun c => ?_
          refine h.bind (h.mapM heval args) fun vs => ?_
          exact h.value (h.call limits p c vs span fun inner =>
            h.sequence (exec limits n inner) c.decl.body.statements)

/-- A statement runs as it does by the plain actions. -/
theorem exec (limits : Limits) (fuel : Nat) (p : P) (s : Stmt) :
    R p (A.exec limits fuel p s) fun place =>
      Eval.exec limits fuel place s := by
  cases fuel with
  | zero =>
      unfold Primitives.exec Eval.exec
      exact h.throw p _
  | succ n =>
      have heval := eval limits n p
      have hblock (b : Block) := h.block p fun inner =>
        h.sequence (exec limits n inner) b.statements
      have hcond (keyword : String) (e : Expr) := h.bind (heval e)
        fun v => h.plain p fun _ => conditionTruth keyword e.span v
      unfold Primitives.exec Eval.exec
      refine h.bind (h.tick limits p _) fun _ => ?_
      cases s with
      | declare _ x init =>
          have hrest (v : Value) := h.bind (h.define p x v)
            fun _ => h.pure p Flow.next
          cases init with
          | none => exact h.bind (h.pure p Value.nil) hrest
          | some e => exact h.bind (heval e) hrest
      | function d => exact h.bind (h.declare p d) fun _ => h.pure p _
      | expression _ e => exact h.bind (heval e) fun _ => h.pure p _
      | block b => exact hblock b
      | branch _ cond thenPart elsePart =>
          refine h.bind (hcond "if" cond) fun b => Composes.ite (hblock thenPart) ?_
          cases elsePart with
          | none => exact h.pure p _
          | some s => exact exec limits n p s
      | loop _ cond body =>
          exact h.repeatWhile (hcond "while" cond) (hblock body) n
      | giveBack _ value =>
          cases value with
          | none => exact h.pure p _
          | some e => exact h.bind (heval e) fun _ => h.pure p _
      | print span e =>
          exact h.bind (heval e) fun v =>
            h.bind (h.plain p _) fun _ => h.pure p _
      | empty _ => exact h.pure p _

end

theorem topLevel (limits : Limits) (fuel : Nat) (last : Value)
    (ss : List Stmt) :
    R p (A.topLevel limits fuel p last ss) fun place =>
      Eval.topLevel limits fuel place last ss := by
  induction ss generalizing last with
  | nil => exact h.pure p _
  | cons s ss ih =>
      cases s with
      | function d => exact ih .nil
      | expression span e =>
          exact h.bind (h.tick limits p span) fun _ =>
            h.bind (h.eval limits fuel p e) fun v => ih v
      | _ =>
          refine h.bind (h.exec limits fuel p _) fun flow => ?_
          cases flow with
          | next => exact ih .nil
          | returned v => exact h.pure p _

/-- A program runs as it does by the plain actions. -/
theorem program (limits : Limits) (fuel : Nat) (tree : Program) :
    R p (A.program limits fuel p tree) fun place => (do
      tree.functions.forM (Run.declare place)
      Eval.topLevel limits fuel place .nil tree.statements) :=
  h.bind (h.forM (h.declare p) tree.functions) fun _ =>
    h.topLevel limits fuel .nil tree.statements

end Mirrors

end Primitives

-- =============================================================== erasure

/-- An outcome with nothing but the machine. -/
def forget (machine : σ → Machine) :
    EStateM.Result Stop σ α → EStateM.Result Stop Machine α
  | .ok a s => .ok a (machine s)
  | .error e s => .error e (machine s)

variable {machine : σ → Machine}

/-- Leaving out of one action what is carried beside the machine gives the
other. -/
def Erases (machine : σ → Machine) (x : EStateM Stop σ α) (y : Run α) :
    Prop :=
  ∀ s, forget machine (x s) = y (machine s)

theorem Erases.pure (a : α) : Erases machine (pure a) (pure a) :=
  fun _ => rfl

theorem Erases.bind {x : EStateM Stop σ α} {y : Run α}
    {f : α → EStateM Stop σ β} {g : α → Run β} (hx : Erases machine x y)
    (hf : ∀ a, Erases machine (f a) (g a)) :
    Erases machine (x >>= f) (y >>= g) := by
  intro s
  show forget machine (EStateM.bind x f s) = EStateM.bind y g (machine s)
  unfold EStateM.bind
  rw [← hx s]
  cases x s with
  | ok a u => exact hf a u
  | error e u => rfl

/-- What only writes beside the machine comes before an action for free. -/
theorem Erases.after {x : EStateM Stop σ Unit} {y : EStateM Stop σ α}
    {z : Run α} {f : σ → σ} (hx : ∀ s, x s = .ok () (f s))
    (hf : ∀ s, machine (f s) = machine s) (hy : Erases machine y z) :
    Erases machine (do x; y) z := by
  intro s
  show forget machine (EStateM.bind x (fun _ => y) s) = z (machine s)
  unfold EStateM.bind
  rw [hx s, ← hf s]
  exact hy (f s)

theorem Composes.erases (machine : σ → Machine) :
    Composes fun place x y => Erases machine x (y place) where
  pure _ := .pure
  throw _ _ _ := rfl
  bind hx hf := hx.bind hf

theorem Erases.forM {f : α → EStateM Stop σ Unit} {g : α → Run Unit}
    (h : ∀ a, Erases machine (f a) (g a)) (as : List α) :
    Erases machine (as.forM f) (as.forM g) :=
  (Composes.erases machine).forM (p := ⟨0, 0⟩) (g := fun a _ => g a) h as

theorem Erases.enterBy
    {plain : {α : Type} → Place → Run α → EStateM Stop σ α}
    {define : Place → Ident → Value → EStateM Stop σ Unit}
    (hplain : ∀ {α : Type} (place : Place) (x : Run α),
      Erases machine (plain place x) x)
    (hdefine : ∀ place x v,
      Erases machine (define place x v) (Run.define place x.name v))
    (limits : Limits) (place : Place) (c : Closure) (vs : List Value)
    (call : Span) :
    Erases machine (enterBy plain define limits place c vs call)
      (enter limits place c vs call) := by
  have hparams (inner : Place) (bs : List (Ident × Value)) :
      Erases machine (bs.forM fun (x, v) => define inner x v)
        (bs.forM fun (x, v) => Run.define inner x.name v) :=
    .forM (fun b => hdefine inner b.1 b.2) bs
  have hinner := Erases.bind (hplain place (Run.child c.scope)) fun i =>
    .bind (hparams ⟨i, place.depth + 1⟩ (c.decl.params.zip vs)) fun _ =>
      .pure (⟨i, place.depth + 1⟩ : Place)
  unfold Eval.enterBy enter
  by_cases hdeep : limits.callDepth ≤ place.depth
  · rw [if_pos hdeep, if_pos hdeep]
    exact .bind (hplain place _) fun _ => hinner
  · rw [if_neg hdeep, if_neg hdeep]
    exact hinner

/-- A run that hands down its place is the plain one from there. -/
theorem Primitives.Mirrors.program_erases {A : Primitives Place σ}
    (h : A.Mirrors fun place x y => Erases machine x (y place))
    (limits : Limits) (fuel : Nat) (globals : ScopeId) (tree : Program) :
    Erases machine (A.program limits fuel ⟨globals, 0⟩ tree)
      (Eval.program limits fuel globals tree) :=
  h.program limits fuel tree

end Script.Eval
