/-
What limits mean moment by moment. Steps are counted before anything else
is done, and one more than the limit ends the run; a call is active only
if there was room for it among the active ones, and whatever ends its
body, it is active no longer. So what holds of every moment of a run is
kept by each of its actions, and an action leaves the active calls as it
found them, also where it ends with an error.

That all of this comes to an end is shown by the fuel: it is never used up
under a limit of steps.
-/
import Script.Proofs.Budget.Sessions
import Script.Proofs.Moments.Observed

namespace Script

namespace Moments

open Eval

variable {limit depth : Nat} {calls : List Span} {α β : Type}
  {Q : α → Prop} {R : β → Prop} {x : Observed α} {f : α → Observed β}

/-- A moment within limits: the step that is one too many ends the
run. -/
structure Moment.Within (limit depth : Nat) (m : Moment) : Prop where
  calls : m.calls.length ≤ depth
  ticks : m.ticks.length ≤ limit + 1

/-- A record within limits, where certain calls are active and not more
than a number of steps are counted. -/
structure Record.Within (limit depth : Nat) (calls : List Span)
    (steps : Nat) (r : Record) : Prop where
  calls : r.now.calls = calls
  counted : r.now.machine.steps = r.now.ticks.length
  steps : r.now.ticks.length ≤ steps
  moments : ∀ m ∈ r.moments, m.Within limit depth

/-- An action that stays within limits. It leaves as many calls active as
there were, however it ends, and a limit that is exceeded ends it. -/
def Stays (limit depth : Nat) (calls : List Span) (Q : α → Prop)
    (x : Observed α) : Prop :=
  ∀ r, r.Within limit depth calls limit →
    match x r with
    | .ok a r' => r'.Within limit depth calls limit ∧ Q a
    | .error _ r' => r'.Within limit depth calls (limit + 1)

theorem Record.Within.mono {steps steps' : Nat} {r : Record}
    (h : r.Within limit depth calls steps) (hle : steps ≤ steps') :
    r.Within limit depth calls steps' :=
  ⟨h.calls, h.counted, Nat.le_trans h.steps hle, h.moments⟩

/-- One more moment. -/
theorem Record.Within.next {calls calls' : List Span} {steps steps' : Nat}
    {r : Record} (h : r.Within limit depth calls steps) {m : Moment}
    (hcalls : m.calls = calls') (hcounted : m.machine.steps = m.ticks.length)
    (hsteps : m.ticks.length ≤ steps') (hle : steps' ≤ limit + 1)
    (hdepth : calls'.length ≤ depth) :
    (r.next m).Within limit depth calls' steps' where
  calls := hcalls
  counted := hcounted
  steps := hsteps
  moments := List.forall_mem_cons.2
    ⟨⟨hcalls ▸ hdepth, Nat.le_trans hsteps hle⟩, h.moments⟩

theorem Record.Within.room {steps : Nat} {r : Record}
    (h : r.Within limit depth calls steps) : calls.length ≤ depth :=
  h.calls ▸ (h.moments r.now (List.mem_cons_self ..)).calls

-- ============================================================= actions

/-- An action that counts no step. -/
def Still (x : Run α) : Prop := ∀ m, (behind (x m)).steps = m.steps

namespace Still

theorem pure (a : α) : Still (pure a : Run α) := fun _ => rfl

theorem throw (e : Stop) : Still (throw e : Run α) := fun _ => rfl

theorem bind {x : Run α} {f : α → Run β} (hx : Still x)
    (hf : ∀ a, Still (f a)) : Still (x >>= f) := by
  intro m
  have hm := hx m
  show (behind (EStateM.bind x f m)).steps = m.steps
  unfold EStateM.bind
  cases hrun : x m with
  | ok a m' =>
      rw [hrun] at hm
      exact (hf a m').trans hm
  | error e m' =>
      rw [hrun] at hm
      exact hm

theorem lookup (place : Place) (name : String) (span : Span) :
    Still (Run.lookup place name span) := by
  refine .bind (fun _ => rfl) fun m => ?_
  split
  · exact .pure _
  · exact .throw _

theorem define (place : Place) (name : String) (v : Value) :
    Still (Run.define place name v) := fun _ => rfl

theorem assign (place : Place) (target : Ident) (v : Value) :
    Still (Run.assign place target v) := by
  refine .bind (fun _ => rfl) fun m => ?_
  split
  · exact fun _ => rfl
  · exact .throw _

theorem child (parent : ScopeId) : Still (Run.child parent) :=
  fun _ => rfl

theorem printLine (text : String) (span : Span) :
    Still (Run.printLine text span) := by
  refine .bind (fun _ => rfl) fun taken => ?_
  split
  · exact .pure _
  · exact .throw _

theorem operation (span : Span) (r : Except OperandFault Value) :
    Still (Run.operation span r) := by
  cases r with
  | ok v => exact .pure v
  | error f => exact .throw _

theorem truth (op : BinaryOp) (span : Span) (v : Value) :
    Still (truth op span v) := by
  cases v with
  | bool b => exact .pure b
  | _ => exact .throw _

theorem conditionTruth (keyword : String) (span : Span) (v : Value) :
    Still (conditionTruth keyword span v) := by
  cases v with
  | bool b => exact .pure b
  | _ => exact .throw _

theorem callable (callee call : Span) (arguments : Nat) (v : Value) :
    Still (callable callee call arguments v) := by
  cases v with
  | function c =>
      unfold Eval.callable
      dsimp only
      split
      · exact .bind (.throw _) fun _ => .pure c
      · exact .pure c
  | _ => exact .throw _

end Still

namespace Stays

/-- The record behind an action; a value comes of it within the limit. -/
theorem record {r : Record} (hx : Stays limit depth calls Q x)
    (hr : r.Within limit depth calls limit) :
    (Observed.recordOf (x r)).Within limit depth calls (limit + 1)
      ∧ ∀ a r', x r = .ok a r' → r'.now.ticks.length ≤ limit := by
  have hxr := hx r hr
  cases hrun : x r with
  | ok a r' =>
      rw [hrun] at hxr
      refine ⟨hxr.1.mono (Nat.le_succ _), ?_⟩
      rintro _ _ ⟨⟩
      exact hxr.1.steps
  | error e r' =>
      rw [hrun] at hxr
      exact ⟨hxr, nofun⟩

theorem pure {a : α} (ha : Q a) :
    Stays limit depth calls Q (pure a : Observed α) :=
  fun _ hr => ⟨hr, ha⟩

theorem throw (e : Stop) :
    Stays limit depth calls Q (throw e : Observed α) :=
  fun _ hr => hr.mono (Nat.le_succ _)

theorem bind (hx : Stays limit depth calls Q x)
    (hf : ∀ a, Q a → Stays limit depth calls R (f a)) :
    Stays limit depth calls R (x >>= f) := by
  intro r hr
  have hxr := hx r hr
  show match EStateM.bind x f r with
    | .ok b r' => r'.Within limit depth calls limit ∧ R b
    | .error _ r' => r'.Within limit depth calls (limit + 1)
  unfold EStateM.bind
  cases hrun : x r with
  | ok a r' =>
      rw [hrun] at hxr
      exact hf a hxr.2 r' hxr.1
  | error e r' =>
      rw [hrun] at hxr
      exact hxr

/-- One action behind another, whatever the value between them. -/
theorem andThen (hx : Stays limit depth calls Q x)
    (hf : ∀ a, Stays limit depth calls R (f a)) :
    Stays limit depth calls R (x >>= f) :=
  hx.bind fun a _ => hf a

theorem ite {c : Prop} [Decidable c] {y : Observed α}
    (hx : c → Stays limit depth calls Q x)
    (hy : ¬c → Stays limit depth calls Q y) :
    Stays limit depth calls Q (if c then x else y) := by
  by_cases hc : c
  · rw [if_pos hc]
    exact hx hc
  · rw [if_neg hc]
    exact hy hc

theorem plain {x : Run α} (hx : Still x) :
    Stays limit depth calls (fun _ => True) (Observed.plain x) := by
  intro r hr
  have hsteps := hx r.now.machine
  unfold Observed.plain Observed.after
  cases hrun : x r.now.machine with
  | ok a m =>
      rw [hrun] at hsteps
      exact ⟨hr.next hr.calls (hsteps.trans hr.counted) hr.steps
        (Nat.le_succ _) hr.room, trivial⟩
  | error e m =>
      rw [hrun] at hsteps
      exact hr.next hr.calls (hsteps.trans hr.counted)
        (Nat.le_succ_of_le hr.steps) (Nat.le_refl _) hr.room

/-- Behind a fault there is nothing. -/
theorem fail (fault : Eval.Fault) (span : Span) :
    Stays limit depth calls Q
      (Observed.plain (Run.fail fault span : Run α)) :=
  fun _ hr => hr.next hr.calls hr.counted (Nat.le_succ_of_le hr.steps)
    (Nat.le_refl _) hr.room

/-- The step that is one too many is counted, and ends the run. -/
theorem tick (span : Span) :
    Stays limit depth calls (fun _ => True)
      (Observed.tick ⟨some limit, depth⟩ span) := by
  intro r hr
  have hcounted : r.now.machine.steps + 1 = (span :: r.now.ticks).length :=
    congrArg (· + 1) hr.counted
  unfold Observed.tick Observed.after
  rw [tick_eq]
  dsimp only
  by_cases hlt : limit < r.now.machine.steps + 1
  · rw [if_pos hlt]
    exact hr.next hr.calls hcounted (Nat.succ_le_succ hr.steps)
      (Nat.le_refl _) hr.room
  · rw [if_neg hlt]
    exact ⟨hr.next hr.calls hcounted (hcounted ▸ Nat.le_of_not_lt hlt)
      (Nat.le_succ _) hr.room, trivial⟩

theorem during {call : Span} (hroom : calls.length < depth)
    (h : Stays limit depth (call :: calls) Q x) :
    Stays limit depth calls Q (Observed.during call x) := by
  intro r hr
  have hbody := h (r.next (r.now.enter call)) <|
    hr.next (congrArg (call :: ·) hr.calls) hr.counted hr.steps
      (Nat.le_succ _) hroom
  unfold Observed.during
  cases hrun : x (r.next (r.now.enter call)) with
  | ok a r' =>
      rw [hrun] at hbody
      obtain ⟨hr', ha⟩ := hbody
      exact ⟨hr'.next (congrArg List.tail hr'.calls) hr'.counted hr'.steps
        (Nat.le_succ _) hr.room, ha⟩
  | error e r' =>
      rw [hrun] at hbody
      exact hbody.next (congrArg List.tail hbody.calls) hbody.counted
        hbody.steps (Nat.le_refl _) hr.room

theorem forM {g : β → Observed Unit}
    (hg : ∀ b, Stays limit depth calls (fun _ => True) (g b))
    (bs : List β) :
    Stays limit depth calls (fun _ => True) (bs.forM g) := by
  induction bs with
  | nil => exact .pure trivial
  | cons b bs ih => exact (hg b).andThen fun _ => ih

theorem mapM {g : β → Observed α}
    (hg : ∀ b, Stays limit depth calls (fun _ => True) (g b))
    (bs : List β) :
    Stays limit depth calls (fun _ => True) (bs.mapM g) := by
  induction bs with
  | nil => exact .pure trivial
  | cons b bs ih =>
      rw [List.mapM_cons]
      exact (hg b).andThen fun _ => ih.andThen fun _ => .pure trivial

theorem sequence {g : Stmt → Observed Flow}
    (hg : ∀ s, Stays limit depth calls (fun _ => True) (g s))
    (ss : List Stmt) :
    Stays limit depth calls (fun _ => True) (Eval.sequence g ss) := by
  induction ss with
  | nil => exact .pure trivial
  | cons s ss ih =>
      refine (hg s).andThen fun flow => ?_
      cases flow with
      | next => exact ih
      | returned v => exact .pure trivial

theorem repeatWhile {cond : Observed Bool} {body : Observed Flow}
    (hcond : Stays limit depth calls (fun _ => True) cond)
    (hbody : Stays limit depth calls (fun _ => True) body) (fuel : Nat) :
    Stays limit depth calls (fun _ => True)
      (Eval.repeatWhile cond body fuel) := by
  induction fuel with
  | zero => exact .throw _
  | succ fuel ih =>
      refine hcond.andThen fun b => .ite (fun _ => ?_) fun _ => .pure trivial
      refine hbody.andThen fun flow => ?_
      cases flow with
      | next => exact ih
      | returned v => exact .pure trivial

/-- The body of a function is only reached if there is room for the
call. -/
theorem enter (place : Place) (c : Closure) (arguments : List Value)
    (call : Span) :
    Stays limit depth calls
      (fun inner => inner.depth = place.depth + 1 ∧ place.depth < depth)
      (Observed.enter ⟨some limit, depth⟩ place c arguments call) := by
  unfold Observed.enter
  refine .ite (fun _ => (fail _ _ : Stays _ _ _ (fun _ => False) _).bind
    fun _ h => h.elim) fun hroom => ?_
  refine (plain (.child c.scope)).andThen fun i => ?_
  exact (forM (fun _ => .plain (.define _ _ _)) _).andThen fun _ =>
    .pure ⟨rfl, Nat.lt_of_not_le hroom⟩

/-- A call is active while the body of its function runs. -/
theorem call {place : Place} (hplace : place.depth = calls.length)
    (c : Closure) (arguments : List Value) (span : Span)
    {body : Place → Observed Flow}
    (hbody : ∀ inner, inner.depth = (span :: calls).length →
      Stays limit depth (span :: calls) (fun _ => True) (body inner)) :
    Stays limit depth calls (fun _ => True) (Observed.primitives.call
      ⟨some limit, depth⟩ place c arguments span body) := by
  refine (Stays.enter place c arguments span).bind fun inner hinner => ?_
  obtain ⟨hinner, hroom⟩ := hinner
  exact .during (hplace ▸ hroom)
    (hbody inner (hinner.trans (congrArg (· + 1) hplace)))

end Stays

-- ========================================================== evaluation

mutual

theorem eval_stays (fuel : Nat) {calls : List Span} (place : Place)
    (hplace : place.depth = calls.length) (e : Expr) :
    Stays limit depth calls (fun _ => True)
      (Observed.eval ⟨some limit, depth⟩ fuel place e) := by
  cases fuel with
  | zero =>
      unfold Observed.eval Primitives.eval
      exact .throw _
  | succ n =>
      have heval (e : Expr) : Stays limit depth calls (fun _ => True)
          (Observed.eval ⟨some limit, depth⟩ n place e) :=
        eval_stays n place hplace e
      unfold Observed.eval Primitives.eval
      refine (Stays.tick e.span).andThen fun _ => ?_
      cases e with
      | number _ x => exact .pure trivial
      | string _ s => exact .pure trivial
      | bool _ b => exact .pure trivial
      | nil _ => exact .pure trivial
      | ident span name => exact .plain (.lookup place name span)
      | group _ e => exact heval e
      | unary span op e =>
          exact (heval e).andThen fun v => .plain (.operation _ _)
      | binary span op l r =>
          refine (heval l).andThen fun v => .ite (fun _ => ?_) fun _ => ?_
          · refine (Stays.plain (.truth _ _ _)).andThen fun b =>
              .ite (fun _ => .pure trivial) fun _ => ?_
            exact (heval r).andThen fun w =>
              (Stays.plain (.truth _ _ _)).andThen fun _ => .pure trivial
          · exact (heval r).andThen fun w => .plain (.operation _ _)
      | assign _ target e =>
          exact (heval e).andThen fun v =>
            (Stays.plain (.assign place target v)).andThen fun _ =>
              .pure trivial
      | call span f args =>
          refine (heval f).andThen fun v =>
            (Stays.plain (.callable _ _ _ _)).andThen fun c => ?_
          refine (Stays.mapM (fun a => heval a) args).andThen fun vs => ?_
          refine (Stays.call hplace c vs span fun inner hinner =>
            .sequence (exec_stays n inner hinner) _).andThen fun flow => ?_
          cases flow with
          | next => exact .pure trivial
          | returned v => exact .pure trivial

theorem exec_stays (fuel : Nat) {calls : List Span} (place : Place)
    (hplace : place.depth = calls.length) (s : Stmt) :
    Stays limit depth calls (fun _ => True)
      (Observed.exec ⟨some limit, depth⟩ fuel place s) := by
  cases fuel with
  | zero =>
      unfold Observed.exec Primitives.exec
      exact .throw _
  | succ n =>
      have heval (e : Expr) : Stays limit depth calls (fun _ => True)
          (Observed.eval ⟨some limit, depth⟩ n place e) :=
        eval_stays n place hplace e
      have hblock (b : Block) :=
        (Stays.plain (.child place.scope)).andThen fun i =>
          Stays.sequence (fun s =>
            exec_stays n ⟨i, place.depth⟩ hplace s) b.statements
      have hcond (keyword : String) (e : Expr) :=
        (heval e).andThen fun v =>
          Stays.plain (.conditionTruth keyword e.span v)
      unfold Observed.exec Primitives.exec
      refine (Stays.tick s.span).andThen fun _ => ?_
      cases s with
      | declare _ x init =>
          have hrest (v : Value) :=
            (Stays.plain (.define place x.name v)).andThen fun _ =>
              (.pure trivial : Stays limit depth calls (fun _ => True)
                (pure Flow.next))
          cases init with
          | none =>
              exact (Stays.pure trivial : Stays _ _ _ (fun _ => True)
                (pure Value.nil)).andThen hrest
          | some e => exact (heval e).andThen hrest
      | function d =>
          exact (Stays.plain (.define _ _ _)).andThen fun _ => .pure trivial
      | expression _ e => exact (heval e).andThen fun _ => .pure trivial
      | block b => exact hblock b
      | branch _ cond thenPart elsePart =>
          refine (hcond "if" cond).andThen fun b =>
            .ite (fun _ => hblock thenPart) fun _ => ?_
          cases elsePart with
          | none => exact .pure trivial
          | some s => exact exec_stays n place hplace s
      | loop _ cond body =>
          exact .repeatWhile (hcond "while" cond) (hblock body) n
      | giveBack _ value =>
          cases value with
          | none => exact .pure trivial
          | some e => exact (heval e).andThen fun _ => .pure trivial
      | print span e =>
          exact (heval e).andThen fun v =>
            (Stays.plain (.printLine _ _)).andThen fun _ => .pure trivial
      | empty _ => exact .pure trivial

end

theorem topLevel_stays (fuel : Nat) (place : Place)
    (hplace : place.depth = calls.length) (last : Value) (ss : List Stmt) :
    Stays limit depth calls (fun _ => True)
      (Observed.topLevel ⟨some limit, depth⟩ fuel place last ss) := by
  induction ss generalizing last with
  | nil => exact .pure trivial
  | cons s ss ih =>
      cases s with
      | function d => exact ih .nil
      | expression span e =>
          exact (Stays.tick span).andThen fun _ =>
            (eval_stays fuel place hplace e).andThen fun v => ih v
      | _ =>
          refine (exec_stays fuel place hplace _).andThen fun flow => ?_
          cases flow with
          | next => exact ih .nil
          | returned v => exact .pure trivial

/-- A program stays within limits, and no call is active outside of
it. -/
theorem program_stays (fuel : Nat) (globals : ScopeId) (p : Program) :
    Stays limit depth [] (fun _ => True)
      (Observed.program ⟨some limit, depth⟩ fuel globals p) :=
  (Stays.forM (fun _ => .plain (.define _ _ _)) p.functions).andThen
    fun _ => topLevel_stays fuel _ rfl .nil p.statements

theorem Record.within_start (limit depth : Nat) (heap : Heap)
    (sink : Sink) :
    (Record.start heap sink).Within limit depth [] limit where
  calls := rfl
  counted := rfl
  steps := Nat.zero_le _
  moments := List.forall_mem_cons.2
    ⟨⟨Nat.zero_le _, Nat.zero_le _⟩, fun _ h => absurd h List.not_mem_nil⟩

end Moments

open Eval Moments

/-- Under a limit of steps, a run is not cut off, and more fuel changes
nothing. -/
theorem Session.outcome_of_limit (session : Session) (limit depth : Nat)
    (p : Program) (sink : Sink) (more : Nat) :
    (∀ m, session.outcome ⟨some limit, depth⟩ (limit + 1) p sink
        ≠ .error .starved m)
      ∧ session.outcome ⟨some limit, depth⟩ (limit + 1 + more) p sink
        = session.outcome ⟨some limit, depth⟩ (limit + 1) p sink := by
  have hfed : ∀ m, session.outcome ⟨some limit, depth⟩ (limit + 1) p sink
      ≠ .error .starved m :=
    program_ne_starved rfl (by omega) (Nat.zero_le limit) session.globals p
  exact ⟨hfed, outcome_of_le (Nat.le_add_right _ more) hfed⟩

/-- A run of a session under limits comes to an end. It has counted one
step more than the limit at most, and not that one if it yields a value;
at every moment there are no more calls active than the limit, and none at
the end. -/
theorem Session.run_within_limits (session : Session) (limit depth : Nat)
    (p : Program) (sink : Sink) (patience more : Nat) :
    let run := session.run ⟨some limit, depth⟩ patience p sink
    let observed := Observed.program ⟨some limit, depth⟩ (limit + 1 + more)
      session.globals p (.start session.heap sink)
    let record := Observed.recordOf observed
    run.1 ≠ .starved
      ∧ session.taken (Observed.erase observed) = run
      ∧ record.now.ticks.length ≤ limit + 1
      ∧ (run.1.value?.isSome → record.now.ticks.length ≤ limit)
      ∧ record.now.calls = []
      ∧ ∀ m ∈ record.moments,
        m.calls.length ≤ depth ∧ m.ticks.length ≤ limit + 1 := by
  intro run observed record
  obtain ⟨hfed, hmore⟩ := session.outcome_of_limit limit depth p sink more
  have herase : Observed.erase observed
      = session.outcome ⟨some limit, depth⟩ (limit + 1) p sink :=
    (Observed.program_erases _ _ _ p _).trans hmore
  have hrun : run = session.taken (Observed.erase observed) := by
    rw [herase]
    exact session.run_eq _ patience p sink
  have hfinished : run.1 ≠ .starved := by
    rw [hrun, taken_ne_starved, herase]
    exact hfed
  refine ⟨hfinished, hrun.symm, ?_⟩
  obtain ⟨hwithin, hvalue⟩ := (program_stays (limit + 1 + more)
    session.globals p).record
      (Record.within_start limit depth session.heap sink)
  refine ⟨hwithin.steps, fun hsome => ?_, hwithin.calls, fun m hm =>
    ⟨(hwithin.moments m hm).calls, (hwithin.moments m hm).ticks⟩⟩
  -- only a run that ends well has a value
  rw [hrun] at hsome
  cases hobserved : observed with
  | ok v r =>
      show (Observed.recordOf observed).now.ticks.length ≤ limit
      rw [hobserved]
      exact hvalue v r hobserved
  | error e r =>
      rw [hobserved] at hsome
      cases e <;> cases hsome

-- As many calls are active as the limit allows.
example :
    let p := (Program.ofText 0 "fn f() \x7b f(); \x7d f();").1
    let observed := Observed.program ⟨some 99, 2⟩ 100 0 p
      (.start .root .unlimited)
    ((Observed.recordOf observed).moments.map (·.calls.length)).max?
      = some 2 := by
  decide +kernel

end Script
