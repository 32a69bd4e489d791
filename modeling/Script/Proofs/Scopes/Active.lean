/-
Evaluation with an active scope. Elsewhere the place where evaluation
stands is handed down; here it is a part of the state, and it is moved:
a block makes its scope the active one and afterwards makes the scope
active that was so before, and a call also counts itself among the calls
around and afterwards stops counting. The two ways to tell where
evaluation stands agree if and only if every action leaves the place as
it was, on every way out, and this is how the agreement is proved here:
each action of this evaluator is the plain one at the active place,
behind which the place is what it was.
-/
import Script.Proofs.Instrumented
import Script.Proofs.Scopes.Shape
import Script.Tree.Statement

namespace Script

open Eval

/-- A machine, with the place where evaluation stands. -/
structure Interpreter where
  place : Place
  machine : Machine

namespace Interpreter

/-- An action of an interpreter. -/
abbrev Action := EStateM Stop Interpreter

variable {α β : Type}

-- =============================================================== actions

/-- An outcome, with evaluation standing at a place. -/
def standing (place : Place) :
    EStateM.Result Stop Machine α → EStateM.Result Stop Interpreter α
  | .ok a machine => .ok a ⟨place, machine⟩
  | .error e machine => .error e ⟨place, machine⟩

/-- An action of a machine at the active place, which it only reads. -/
def here (x : Place → Run α) : Action α := fun s =>
  standing s.place (x s.place s.machine)

/-- Moves the place behind an action, however the action ended. -/
def moved (f : Place → Place) :
    EStateM.Result Stop Interpreter α → EStateM.Result Stop Interpreter α
  | .ok a s => .ok a { s with place := f s.place }
  | .error e s => .error e { s with place := f s.place }

/-- The interpreter behind an action, however the action ended. -/
def left : EStateM.Result Stop Interpreter α → Interpreter
  | .ok _ s | .error _ s => s

theorem left_standing (place : Place) (r : EStateM.Result Stop Machine α) :
    left (standing place r) = ⟨place, behind r⟩ := by
  cases r <;> rfl

theorem moved_standing (f : Place → Place) (place : Place)
    (r : EStateM.Result Stop Machine α) :
    moved f (standing place r) = standing (f place) r := by
  cases r <;> rfl

/-- Runs an action with another scope as the active one. -/
def withScope (scope : ScopeId) (x : Action α) : Action α := fun s =>
  moved (fun place => { place with scope := s.place.scope })
    (x { s with place := { s.place with scope } })

/-- Runs an action inside of one more call. -/
def deeper (x : Action α) : Action α := fun s =>
  moved (fun place => { place with depth := place.depth - 1 })
    (x { s with place := { s.place with depth := s.place.depth + 1 } })

/-- Runs a body in a scope inside of the active one. -/
def inBlock (body : Action Flow) : Action Flow := do
  let scope ← here fun place => Run.child place.scope
  withScope scope body

/-- Runs the body of a function that is called with arguments. -/
def inCall (limits : Limits) (c : Closure) (arguments : List Value)
    (span : Span) (body : Action Flow) : Action Flow := do
  let inner ← here fun place => enter limits place c arguments span
  deeper (withScope inner.scope body)

/-- What evaluation is made of with an active scope. No place is handed
down. -/
def primitives : Primitives Unit Interpreter where
  plain _ := here
  block _ body := inBlock (body ())
  call limits _ c arguments span body :=
    inCall limits c arguments span (body ())

-- ============================================================ evaluation

/-- Runs a block. -/
def block (run : Stmt → Action Flow) (b : Block) : Action Flow :=
  inBlock (sequence run b.statements)

/-- Calls a function with arguments. -/
def call (limits : Limits) (run : Stmt → Action Flow) (c : Closure)
    (arguments : List Value) (span : Span) : Action Value := do
  match ← inCall limits c arguments span
      (sequence run c.decl.body.statements) with
  | .next => return .nil
  | .returned v => return v

/-- The value of an expression. -/
def eval (limits : Limits) (fuel : Nat) (e : Expr) : Action Value :=
  primitives.eval limits fuel () e

/-- Runs a statement. -/
def exec (limits : Limits) (fuel : Nat) (s : Stmt) : Action Flow :=
  primitives.exec limits fuel () s

-- ============================================================= agreement

/-- An action does what another one does at the active place, and leaves
the place as it was. -/
def Stays (x : Action α) (y : Place → Run α) : Prop :=
  ∀ s, x s = here y s

namespace Stays

variable {x : Action α} {y : Place → Run α} {f : α → Action β}
  {g : α → Place → Run β} {limits : Limits}

theorem pure (a : α) : Stays (pure a) fun _ => pure a := fun _ => rfl

theorem throw (e : Stop) :
    Stays (throw e : Action α) fun _ => throw e := fun _ => rfl

theorem here (y : Place → Run α) : Stays (here y) y := fun _ => rfl

/-- An action that moves nothing goes on from where the first one was. -/
theorem bind_of (hx : Stays x y)
    (hf : ∀ (s : Interpreter) a m, y s.place s.machine = .ok a m →
      f a ⟨s.place, m⟩ = Interpreter.here (g a) ⟨s.place, m⟩) :
    Stays (x >>= f) fun place => y place >>= fun a => g a place := by
  intro s
  have hstep : x s = standing s.place (y s.place s.machine) := hx s
  show _ = standing s.place ((y s.place >>= fun a => g a s.place) s.machine)
  cases hy : y s.place s.machine with
  | ok a m =>
      rw [hy] at hstep
      rw [Action.bind_of_ok hstep, Action.bind_of_ok hy, hf s a m hy]
      rfl
  | error e m =>
      rw [hy] at hstep
      rw [Action.bind_of_error hstep, Action.bind_of_error hy]
      rfl

theorem bind (hx : Stays x y) (hf : ∀ a, Stays (f a) (g a)) :
    Stays (x >>= f) fun place => y place >>= fun a => g a place :=
  hx.bind_of fun _ a _ _ => hf a _

theorem composes : Composes fun (_ : Unit) x y => Stays x y where
  pure _ := .pure
  throw _ := .throw
  bind := .bind

/-- Behind an action that stays, the active scope is put back. -/
theorem withScope (scope : ScopeId) (h : Stays x y) :
    Stays (withScope scope x) fun place => y { place with scope } := by
  intro s
  unfold Interpreter.withScope
  rw [h]
  exact moved_standing ..

/-- Behind an action that stays, there are as many calls around as in
front of it. -/
theorem deeper (h : Stays x y) :
    Stays (deeper x) fun place =>
      y { place with depth := place.depth + 1 } := by
  intro s
  unfold Interpreter.deeper
  rw [h]
  exact moved_standing ..

theorem inBlock {body : Action Flow} {body' : Place → Run Flow}
    (h : Stays body body') :
    Stays (inBlock body) fun place => (do
      body' ⟨← Run.child place.scope, place.depth⟩) :=
  .bind (.here _) fun scope => .withScope scope h

/-- The body of a function runs where `enter` says: in the new scope, one
call deeper. -/
theorem inCall {body : Action Flow} {body' : Place → Run Flow}
    (h : Stays body body') (limits : Limits) (c : Closure)
    (vs : List Value) (span : Span) :
    Stays (inCall limits c vs span body) fun place => (do
      body' (← enter limits place c vs span)) := by
  refine bind_of (.here _) fun s inner m henter => ?_
  obtain ⟨rfl, -⟩ := Stack.enter_ok henter
  exact deeper (.withScope s.machine.heap.scopes.size h) ⟨s.place, m⟩

theorem block {run : Stmt → Action Flow} {plain : Place → Stmt → Run Flow}
    (h : ∀ s, Stays (run s) fun place => plain place s) (b : Block) :
    Stays (block run b) fun place => (do
      let i ← Run.child place.scope
      sequence (plain ⟨i, place.depth⟩) b.statements) :=
  .inBlock (composes.sequence (p := ()) h b.statements)

theorem call {run : Stmt → Action Flow} {plain : Place → Stmt → Run Flow}
    (h : ∀ s, Stays (run s) fun place => plain place s) (limits : Limits)
    (c : Closure) (vs : List Value) (span : Span) :
    Stays (call limits run c vs span) fun place => (do
      let inner ← enter limits place c vs span
      match ← sequence (plain inner) c.decl.body.statements with
      | .next => return .nil
      | .returned v => return v) :=
  composes.value (p := ()) <| .inCall
    (composes.sequence (p := ()) h c.decl.body.statements) limits c vs span

end Stays

/-- Every action leaves the place as it was. -/
theorem primitives_mirrors : primitives.Mirrors fun _ x y => Stays x y where
  toComposes := Stays.composes
  plain _ := .here
  tick limits _ span := .here fun _ => Run.tick limits span
  lookup _ x := .here fun place => Run.lookup place x.name x.span
  assign _ target v := .here fun place => Run.assign place target v
  define _ x v := .here fun place => Run.define place x.name v
  declare _ d := .here fun place => Run.declare place d
  block _ _ _ hbody := .inBlock (hbody ())
  call limits _ c vs span _ _ hbody := .inCall (hbody ()) limits c vs span
  valued := id

/-- The value of an expression is that at the active place. -/
theorem eval_stays (limits : Limits) (fuel : Nat) (e : Expr) :
    Stays (eval limits fuel e) fun place => Eval.eval limits fuel place e :=
  primitives_mirrors.eval limits fuel () e

/-- A statement runs as it does at the active place. -/
theorem exec_stays (limits : Limits) (fuel : Nat) (s : Stmt) :
    Stays (exec limits fuel s) fun place => Eval.exec limits fuel place s :=
  primitives_mirrors.exec limits fuel () s

-- ================================================================ frames

/-- Nothing has moved: evaluation stands where it stood, and the scopes
that were there have the names that they had, inside of the same ones. -/
structure Keeps (s s' : Interpreter) : Prop where
  place : s'.place = s.place
  shape : s.machine.heap.SameShape s'.machine.heap

theorem Stays.keeps {x : Action α} {y : Place → Run α} (hx : Stays x y)
    {s : Interpreter} (hy : AddingOnly (fun _ _ => False) (y s.place)) :
    s.Keeps (left (x s)) := by
  have hleft : left (x s) = ⟨s.place, behind (y s.place s.machine)⟩ :=
    (congrArg left (hx s)).trans (left_standing ..)
  rw [hleft]
  exact ⟨rfl, (hy s.machine).sameShape⟩

/-- Evaluating an expression, running a block and calling a function leave
the scopes that were there as they were, but for the values of their
variables, and evaluation stands where it stood, whether there is a value,
a return or an error. A statement leaves the place as well, and adds names
to the active scope only, and only the name that it declares. An
interpreter does what evaluation does at its place. -/
theorem keeps_scopes (limits : Limits) (fuel : Nat) (s : Interpreter) :
    (∀ e, s.Keeps (left (eval limits fuel e s))
        ∧ eval limits fuel e s
          = standing s.place (Eval.eval limits fuel s.place e s.machine))
      ∧ (∀ b, s.Keeps (left (block (exec limits fuel) b s)))
      ∧ (∀ c vs span,
        s.Keeps (left (call limits (exec limits fuel) c vs span s)))
      ∧ ∀ t, let s' := left (exec limits fuel t s)
        s'.place = s.place
          ∧ s.machine.AddsOnly
            (fun i name => i = s.place.scope ∧ name ∈ t.bound?) s'.machine
          ∧ (t.isBraced = true → t.bound? = t.declared?.map Ident.name)
          ∧ exec limits fuel t s
            = standing s.place (Eval.exec limits fuel s.place t s.machine)
            := by
  have hexec := exec_stays limits fuel
  have hrun (inner : Place) (t : Stmt) :
      AddingOnly (fun i _ => i = inner.scope)
        (Eval.exec limits fuel inner t) :=
    (exec_addingOnly limits fuel inner t).imp fun _ _ => And.left
  refine ⟨fun e => ⟨?_, eval_stays limits fuel e s⟩, fun b => ?_,
    fun c vs span => ?_, fun t => ?_⟩
  · exact (eval_stays limits fuel e).keeps
      (eval_addingOnly _ limits fuel s.place e)
  · exact (Stays.block hexec b).keeps (.block hrun s.place b)
  · refine (Stays.call hexec limits c vs span).keeps
      (.call hrun s.place c vs span fun flow => ?_)
    cases flow with
    | next => exact .pure _
    | returned v => exact .pure _
  · have hleft : left (exec limits fuel t s)
        = ⟨s.place, behind (Eval.exec limits fuel s.place t s.machine)⟩ :=
      (congrArg left (hexec t s)).trans (left_standing ..)
    rw [hleft]
    exact ⟨rfl, exec_addingOnly limits fuel s.place t s.machine,
      Stmt.bound?_of_isBraced, hexec t s⟩

/-- A condition with declarations in both of its parts. -/
theorem keeps_scopes_of_branch :
    let text := "if n < 2 \x7b let a = n; \x7d
      else if f(n) \x7b fn g() \x7b n = a; \x7d \x7d"
    ∃ t ∈ (Program.ofText 0 text).1.statements, t.isBraced = true
      ∧ t.declared? = none
      ∧ ∀ limits fuel (s : Interpreter), s.machine.heap.SameShape
        (left (exec limits fuel t s)).machine.heap := by
  intro text
  have hbraced :
      stmtsAreBraced (Program.ofText 0 text).1.statements = true := by
    decide +kernel
  have hnone : ((Program.ofText 0 text).1.statements.map Stmt.declared?)
      = [none] := by
    decide +kernel
  obtain ⟨t, hts, ht⟩ := List.map_eq_singleton_iff.1 hnone
  have hmem : t ∈ (Program.ofText 0 text).1.statements :=
    hts ▸ List.mem_singleton_self t
  have htbraced := stmtsAreBraced_iff.1 hbraced t hmem
  refine ⟨t, hmem, htbraced, ht, fun limits fuel s => ?_⟩
  obtain ⟨-, -, -, hstmt⟩ := keeps_scopes limits fuel s
  obtain ⟨-, hadds, hbound, -⟩ := hstmt t
  refine (hadds.imp fun i name h => ?_).sameShape
  rw [hbound htbraced, ht] at h
  cases h.2

end Interpreter

end Script
