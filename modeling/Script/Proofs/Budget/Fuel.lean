/-
Fuel is enough. Under a limit of `n` steps a run never needs more than
`n + 1` units of fuel: whatever uses up a unit, a level of recursion or a
round of a loop, counts a step of its own. So a run that is cut off for
lack of fuel would have counted as many steps as it had fuel, and it was
stopped by the limit before that.
-/
import Script.Proofs.Budget.Limits

namespace Script.Eval

variable {limit least least' fuel fuel' : Nat} {α β : Type} {m : Machine}

/-- The outcome of an action that counts at least some steps, never more
than the limit, and is cut off only if its fuel and the steps before it
are within the limit together. -/
def Paid (limit least fuel : Nat) (m : Machine) :
    EStateM.Result Stop Machine α → Prop
  | .ok _ m' => m.steps + least ≤ m'.steps ∧ m'.steps ≤ limit
  | .error (.fault _ _) _ => True
  | .error .starved _ => m.steps + fuel ≤ limit

/-- An action that pays for its fuel in steps. -/
def Pays (limit least fuel : Nat) (x : Run α) : Prop :=
  ∀ m : Machine, m.steps ≤ limit → Paid limit least fuel m (x m)

namespace Pays

theorem pure (a : α) : Pays limit 0 fuel (pure a : Run α) :=
  fun _ hm => ⟨Nat.le_refl _, hm⟩

theorem fail (f : Eval.Fault) (span : Span) :
    Pays limit least fuel (Run.fail f span : Run α) :=
  fun _ _ => trivial

theorem starved : Pays limit least 0 (throw .starved : Run α) :=
  fun _ hm => hm

/-- An action that counts nothing. -/
theorem still {x : Run α}
    (h : ∀ m, ∃ a m', x m = .ok a m' ∧ m'.steps = m.steps) :
    Pays limit 0 fuel x := by
  intro m hm
  obtain ⟨a, m', hx, hsteps⟩ := h m
  rw [hx]
  exact ⟨Nat.le_of_eq hsteps.symm, hsteps ▸ hm⟩

theorem mono {x : Run α} (h : Pays limit least fuel x)
    (hleast : least' ≤ least) (hfuel : fuel' ≤ fuel) :
    Pays limit least' fuel' x := by
  intro m hm
  have hx := h m hm
  cases hrun : x m with
  | ok a m' =>
      rw [hrun] at hx
      exact ⟨Nat.le_trans (Nat.add_le_add_left hleast _) hx.1, hx.2⟩
  | error e m' =>
      rw [hrun] at hx
      cases e with
      | fault f span => trivial
      | starved => exact Nat.le_trans (Nat.add_le_add_left hfuel _) hx

/-- The steps that an action counts, left out of sight. -/
theorem forget {x : Run α} (h : Pays limit least fuel x) :
    Pays limit 0 fuel x :=
  h.mono (Nat.zero_le _) (Nat.le_refl _)

/-- The steps of an action make up for the fuel that is missing behind
it. -/
theorem bind {x : Run α} {f : α → Run β} (hx : Pays limit least fuel x)
    (hf : ∀ a, Pays limit least' fuel' (f a)) (hfuel : fuel ≤ least + fuel') :
    Pays limit (least + least') fuel (x >>= f) := by
  intro m hm
  have hxm := hx m hm
  show Paid _ _ _ m (EStateM.bind x f m)
  unfold EStateM.bind
  cases hrun : x m with
  | error e m' =>
      rw [hrun] at hxm
      cases e with
      | fault f span => trivial
      | starved => exact hxm
  | ok a m' =>
      rw [hrun] at hxm
      obtain ⟨hmore, hlimit⟩ := hxm
      have hfm := hf a m' hlimit
      dsimp only
      cases hrest : f a m' with
      | ok b m'' =>
          rw [hrest] at hfm
          obtain ⟨hmore', hlimit'⟩ := hfm
          exact ⟨by omega, hlimit'⟩
      | error e m'' =>
          rw [hrest] at hfm
          cases e with
          | fault f span => trivial
          | starved =>
              have hfm : m'.steps + fuel' ≤ limit := hfm
              show m.steps + fuel ≤ limit
              omega

/-- One action behind another, with the same fuel. -/
theorem andThen {x : Run α} {f : α → Run β} (hx : Pays limit least fuel x)
    (hf : ∀ a, Pays limit 0 fuel (f a)) :
    Pays limit least fuel (x >>= f) :=
  bind hx hf (Nat.le_add_left _ _)

theorem ite {c : Prop} [Decidable c] {x y : Run α}
    (hx : Pays limit least fuel x) (hy : Pays limit least fuel y) :
    Pays limit least fuel (if c then x else y) := by
  by_cases hc : c
  · rw [if_pos hc]
    exact hx
  · rw [if_neg hc]
    exact hy

-- =============================================================== actions

theorem tick {limits : Limits} (h : limits.steps = some limit)
    (span : Span) : Pays limit 1 fuel (Run.tick limits span) := by
  intro m hm
  rw [tick_eq, h]
  dsimp only
  by_cases hlt : limit < m.steps + 1
  · rw [if_pos hlt]
    trivial
  · rw [if_neg hlt]
    exact ⟨Nat.le_refl _, Nat.le_of_not_lt hlt⟩

theorem lookup (place : Place) (name : String) (span : Span) :
    Pays limit 0 fuel (Run.lookup place name span) := by
  refine andThen (still fun m => ⟨m, m, rfl, rfl⟩) fun m => ?_
  cases m.heap.get? place.scope name with
  | none => exact fail _ _
  | some v => exact pure v

theorem define (place : Place) (name : String) (v : Value) :
    Pays limit 0 fuel (Run.define place name v) :=
  still fun _ => ⟨(), _, rfl, rfl⟩

theorem assign (place : Place) (target : Ident) (v : Value) :
    Pays limit 0 fuel (Run.assign place target v) := by
  refine andThen (still fun m => ⟨m, m, rfl, rfl⟩) fun m => ?_
  cases m.heap.owner? place.scope target.name with
  | none => exact fail _ _
  | some i => exact still fun _ => ⟨(), _, rfl, rfl⟩

theorem child (parent : ScopeId) :
    Pays limit 0 fuel (Run.child parent) :=
  still fun _ => ⟨_, _, rfl, rfl⟩

theorem printLine (text : String) (span : Span) :
    Pays limit 0 fuel (Run.printLine text span) :=
  andThen (still fun _ => ⟨_, _, rfl, rfl⟩) fun _ =>
    ite (pure _) (fail _ _)

theorem operation (span : Span) (r : Except OperandFault Value) :
    Pays limit 0 fuel (Run.operation span r) := by
  cases r with
  | error f => exact fail _ _
  | ok v => exact pure v

theorem truth (op : BinaryOp) (span : Span) (v : Value) :
    Pays limit 0 fuel (truth op span v) := by
  cases v with
  | bool b => exact pure b
  | _ => exact fail _ _

theorem conditionTruth (keyword : String) (span : Span) (v : Value) :
    Pays limit 0 fuel (conditionTruth keyword span v) := by
  cases v with
  | bool b => exact pure b
  | _ => exact fail _ _

theorem callable (callee call : Span) (arguments : Nat) (v : Value) :
    Pays limit 0 fuel (callable callee call arguments v) := by
  cases v with
  | function c =>
      exact ite (andThen (fail _ _) fun _ => pure c) (pure c)
  | _ => exact fail _ _

theorem forM {f : α → Run Unit} (hf : ∀ a, Pays limit 0 fuel (f a))
    (as : List α) : Pays limit 0 fuel (as.forM f) := by
  induction as with
  | nil => exact pure ()
  | cons a as ih => exact andThen (hf a) fun _ => ih

theorem mapM {f : α → Run β} (hf : ∀ a, Pays limit 0 fuel (f a))
    (as : List α) : Pays limit 0 fuel (as.mapM f) := by
  induction as with
  | nil => exact pure []
  | cons a as ih =>
      rw [List.mapM_cons]
      exact andThen (hf a) fun _ => andThen ih fun _ => pure _

theorem enter (limits : Limits) (place : Place) (c : Closure)
    (arguments : List Value) (call : Span) :
    Pays limit 0 fuel (enter limits place c arguments call) := by
  unfold Eval.enter
  refine ite (andThen (fail _ _) fun _ => ?_) ?_
  all_goals
    exact andThen (child c.scope) fun _ =>
      andThen (forM (fun _ => define _ _ _) _) fun _ => pure _

theorem sequence {f : Stmt → Run Flow} (hf : ∀ s, Pays limit 0 fuel (f s))
    (ss : List Stmt) : Pays limit 0 fuel (sequence f ss) := by
  induction ss with
  | nil => exact pure _
  | cons s ss ih =>
      refine andThen (hf s) fun flow => ?_
      cases flow with
      | next => exact ih
      | returned v => exact pure _

/-- The rounds of a loop: each has a condition, which counts a step. -/
theorem repeatWhile {cond : Run Bool} {body : Run Flow}
    (hcond : Pays limit 1 fuel cond) (hbody : Pays limit 0 fuel body)
    {rounds : Nat} (hle : rounds ≤ fuel) :
    Pays limit 0 rounds (repeatWhile cond body rounds) := by
  induction rounds with
  | zero => exact starved
  | succ rounds ih =>
      have hle' : rounds ≤ fuel := Nat.le_of_succ_le hle
      refine forget (bind (hcond.mono (Nat.le_refl 1) hle) (fun b => ?_)
        (Nat.le_of_eq (Nat.add_comm rounds 1)) :
          Pays limit (1 + 0) (rounds + 1) _)
      refine ite (andThen (hbody.mono (Nat.le_refl 0) hle')
        fun flow => ?_) (pure _)
      cases flow with
      | next => exact ih hle'
      | returned v => exact pure _

end Pays

-- ============================================================ evaluation

variable {limits : Limits}

/-- One level of recursion: a step is counted, and what follows has less
fuel. -/
theorem Pays.level (h : limits.steps = some limit) (span : Span)
    {x : Run α} (hx : Pays limit 0 fuel x) :
    Pays limit 1 (fuel + 1) (do Run.tick limits span; x) :=
  bind (tick h span) (fun _ => hx) (Nat.le_of_eq (Nat.add_comm _ _))

mutual

theorem eval_pays (h : limits.steps = some limit) (fuel : Nat)
    (place : Place) (e : Expr) :
    Pays limit 1 fuel (eval limits fuel place e) := by
  cases fuel with
  | zero =>
      unfold eval
      exact .starved
  | succ n =>
      have heval (e : Expr) := (eval_pays h n place e).forget
      unfold eval
      refine .level h e.span ?_
      cases e with
      | number _ x => exact .pure _
      | string _ s => exact .pure _
      | bool _ b => exact .pure _
      | nil _ => exact .pure _
      | ident span name => exact .lookup place name span
      | group _ e => exact heval e
      | unary span op e =>
          exact .andThen (heval e) fun v => .operation _ _
      | binary span op l r =>
          refine .andThen (heval l) fun v => .ite ?_ ?_
          · refine .andThen (.truth _ _ _) fun b => .ite (.pure _) ?_
            exact .andThen (heval r) fun w =>
              .andThen (.truth _ _ _) fun _ => .pure _
          · exact .andThen (heval r) fun w => .operation _ _
      | assign _ target e =>
          exact .andThen (heval e) fun v =>
            .andThen (.assign place target v) fun _ => .pure _
      | call span f args =>
          refine .andThen (heval f) fun v =>
            .andThen (.callable _ _ _ _) fun c => ?_
          refine .andThen (.mapM (fun a => heval a) args) fun vs => ?_
          refine .andThen (.enter limits place c vs span) fun inner => ?_
          refine .andThen (.sequence
            (fun s => (exec_pays h n inner s).forget) _) fun flow => ?_
          cases flow with
          | next => exact .pure _
          | returned v => exact .pure _

theorem exec_pays (h : limits.steps = some limit) (fuel : Nat)
    (place : Place) (s : Stmt) :
    Pays limit 1 fuel (exec limits fuel place s) := by
  cases fuel with
  | zero =>
      unfold exec
      exact .starved
  | succ n =>
      have heval (e : Expr) := (eval_pays h n place e).forget
      have hblock (b : Block) := Pays.andThen (.child place.scope)
        fun i => .sequence (fun s =>
          (exec_pays h n ⟨i, place.depth⟩ s).forget) b.statements
      have hcond (keyword : String) (e : Expr) :=
        (eval_pays h n place e).andThen fun v =>
          .conditionTruth keyword e.span v
      unfold exec
      refine .level h s.span ?_
      cases s with
      | declare _ x init =>
          have hrest (v : Value) := Pays.andThen (.define place x.name v)
            fun _ => (.pure Flow.next : Pays limit 0 n _)
          cases init with
          | none => exact .andThen (.pure Value.nil) hrest
          | some e => exact .andThen (heval e) hrest
      | function d =>
          exact .andThen (.define place _ _) fun _ => .pure _
      | expression _ e => exact .andThen (heval e) fun _ => .pure _
      | block b => exact hblock b
      | branch _ cond thenPart elsePart =>
          refine .andThen (hcond "if" cond).forget fun b =>
            .ite (hblock thenPart) ?_
          cases elsePart with
          | none => exact .pure _
          | some s => exact (exec_pays h n place s).forget
      | loop _ cond body =>
          exact .repeatWhile (hcond "while" cond) (hblock body)
            (Nat.le_refl n)
      | giveBack _ value =>
          cases value with
          | none => exact .pure _
          | some e => exact .andThen (heval e) fun _ => .pure _
      | print span e =>
          exact .andThen (heval e) fun v =>
            .andThen (.printLine _ _) fun _ => .pure _
      | empty _ => exact .pure _

end

theorem topLevel_pays (h : limits.steps = some limit) (fuel : Nat)
    (place : Place) (last : Value) (ss : List Stmt) :
    Pays limit 0 fuel (topLevel limits fuel place last ss) := by
  induction ss generalizing last with
  | nil => exact .pure _
  | cons s ss ih =>
      cases s with
      | function d => exact ih .nil
      | expression span e =>
          exact .andThen (Pays.tick h span).forget fun _ =>
            .andThen (eval_pays h fuel place e).forget fun v => ih v
      | _ =>
          refine .andThen (exec_pays h fuel place _).forget fun flow => ?_
          cases flow with
          | next => exact ih .nil
          | returned v => exact .pure _

/-- With a limit of steps, a program is not cut off for lack of fuel. -/
theorem program_ne_starved (h : limits.steps = some limit)
    (hfuel : limit < m.steps + fuel) (hm : m.steps ≤ limit)
    (globals : ScopeId) (p : Program) (m' : Machine) :
    program limits fuel globals p m ≠ .error .starved m' := by
  have hpays : Pays limit 0 fuel (program limits fuel globals p) :=
    .andThen (.forM (fun _ => .define _ _ _) _) fun _ =>
      topLevel_pays h fuel _ .nil p.statements
  intro hrun
  have hpaid := hpays m hm
  rw [hrun] at hpaid
  exact absurd hpaid (Nat.not_le_of_lt hfuel)

end Script.Eval
