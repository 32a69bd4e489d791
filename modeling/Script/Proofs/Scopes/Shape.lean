/-
What a run leaves of the scopes that it found. It creates scopes and gives
variables new values, but a name is only ever added to a scope where a
declaration stands: a block and a call run in a new scope, and an
assignment goes to a scope that has the name already. So in the scopes
that were there before, an expression adds no names at all, and a
statement adds at most the one that it declares, to the scope it runs in.
-/
import Script.Proofs.Budget.Growth
import Script.Proofs.Lexical.Naming
import Script.Proofs.Stack.Expressions

namespace Script

-- ================================================================= heaps

/-- The scopes of a heap are in another one, inside of the same scopes and
with the same names. -/
def Heap.SameShape (h h' : Heap) : Prop :=
  ∀ i < h.scopes.size,
    (h'.scopes[i]?).map (·.parent) = (h.scopes[i]?).map (·.parent)
      ∧ ∀ name, h'.binds name i = h.binds name i

theorem Heap.lt_size_of_binds {h : Heap} {name : String} {i : ScopeId}
    (hbinds : h.binds name i = true) : i < h.scopes.size := by
  refine Nat.lt_of_not_le fun hle => ?_
  unfold binds bindings at hbinds
  rw [Array.getElem?_eq_none hle] at hbinds
  cases hbinds

theorem Heap.binds_of_owner? {h : Heap} {i j : ScopeId} {name : String}
    (howner : h.owner? i name = some j) : h.binds name j = true :=
  List.find?_some howner

/-- The name that a statement binds in the scope it runs in. An else part
runs in this scope as well. -/
def Stmt.bound? : Stmt → Option String
  | .declare _ name _ => some name.name
  | .function d => some d.name.name
  | .branch _ _ _ (some s) => s.bound?
  | _ => none

/-- Where else parts are blocks or conditions, a statement binds a name
only if it is a declaration itself. -/
theorem Stmt.bound?_of_isBraced : ∀ {s : Stmt}, s.isBraced = true →
    s.bound? = s.declared?.map Ident.name
  | .branch _ _ _ (some s), h => by
      obtain ⟨-, helse⟩ := Bool.and_eq_true_iff.1 h
      obtain ⟨hs, hbraced⟩ := Bool.and_eq_true_iff.1 helse
      have hnone : s.bound? = none := by
        rw [bound?_of_isBraced hbraced, declared?_of_isElse hs]
        rfl
      exact hnone
  | .branch _ _ _ none, _ => rfl
  | .declare .., _ | .function _, _ | .expression .., _ | .block _, _ => rfl
  | .loop .., _ | .giveBack .., _ | .print .., _ | .empty _, _ => rfl

namespace Eval

-- ============================================================== machines

/-- A run may have bound names in scopes that were there before, but only
such as `added` allows. -/
structure Machine.AddsOnly (added : ScopeId → String → Prop)
    (m m' : Machine) : Prop extends m.Grows m' where
  kept : ∀ i name, m.heap.binds name i = true →
    m'.heap.binds name i = true
  added : ∀ i < m.heap.scopes.size, ∀ name, m'.heap.binds name i = true →
    m.heap.binds name i = true ∨ added i name

namespace Machine.AddsOnly

variable {added added' : ScopeId → String → Prop} {m m' m'' : Machine}

/-- Where no name is bound, nothing is added. -/
theorem of_binds (h : m.Grows m')
    (hbinds : ∀ i name, m'.heap.binds name i = m.heap.binds name i) :
    m.AddsOnly added m' where
  toGrows := h
  kept i name := (hbinds i name).trans
  added i _ name hname := .inl ((hbinds i name).symm.trans hname)

theorem refl (m : Machine) : m.AddsOnly added m :=
  .of_binds (.refl m) fun _ _ => rfl

/-- What the later part of a run may bind is allowed by `added` where it
concerns the scopes at the beginning. -/
theorem trans (h : m.AddsOnly added m') (h' : m'.AddsOnly added' m'')
    (hadded : ∀ i < m.heap.scopes.size, ∀ name, added' i name →
      added i name) : m.AddsOnly added m'' where
  toGrows := h.toGrows.trans h'.toGrows
  kept i name hname := h'.kept i name (h.kept i name hname)
  added i hi name hname := by
    rcases h'.added i (Nat.lt_of_lt_of_le hi h.size) name hname with
      hname | hnew
    · exact h.added i hi name hname
    · exact .inr (hadded i hi name hnew)

theorem imp (h : m.AddsOnly added m')
    (hadded : ∀ i name, added i name → added' i name) :
    m.AddsOnly added' m' :=
  { h with
    added := fun i hi name hname =>
      (h.added i hi name hname).imp_right (hadded i name) }

theorem define (m : Machine) (i : ScopeId) (name : String) (v : Value) :
    m.AddsOnly (fun j other => j = i ∧ other = name)
      { m with heap := m.heap.define i name v } := by
  by_cases hi : i < m.heap.scopes.size
  · refine ⟨.define m i name v, fun j other hother => ?_,
      fun j _ other hother => ?_⟩
    · exact (m.heap.binds_define hi j name other v).trans
        (Bool.or_eq_true_iff.2 (.inr hother))
    · rw [m.heap.binds_define hi] at hother
      exact (Bool.or_eq_true_iff.1 hother).symm.imp_right
        of_decide_eq_true
  · -- There is no such scope, and so nothing changes.
    refine .of_binds (.define m i name v) fun j other => ?_
    show (m.heap.define i name v).binds other j = _
    unfold Heap.binds Heap.bindings
    by_cases hj : j = i
    · rw [hj, Array.getElem?_eq_none (Nat.le_of_not_lt hi),
        Array.getElem?_eq_none]
      rw [Heap.size_define]
      exact Nat.le_of_not_lt hi
    · rw [Heap.getElem?_define_of_ne _ hj]

/-- A name that the scope has already is not added to it. -/
theorem redefine {i : ScopeId} {name : String}
    (h : m.heap.binds name i = true) (v : Value) :
    m.AddsOnly added { m with heap := m.heap.define i name v } := by
  refine .of_binds (.define m i name v) fun j other => ?_
  show (m.heap.define i name v).binds other j = _
  rw [m.heap.binds_define (Heap.lt_size_of_binds h)]
  by_cases hj : j = i ∧ other = name
  · rw [hj.1, hj.2, h, Bool.or_true]
  · rw [decide_eq_false hj, Bool.false_or]

theorem child (m : Machine) (parent : ScopeId) :
    m.AddsOnly added { m with heap := (m.heap.child parent).2 } :=
  .of_binds (.child m parent) fun i name => m.heap.binds_child parent i name

theorem sameShape (h : m.AddsOnly (fun _ _ => False) m') :
    m.heap.SameShape m'.heap := by
  refine fun i hi => ⟨h.parent i hi, fun name => ?_⟩
  rw [Bool.eq_iff_iff]
  exact ⟨fun hname => (h.added i hi name hname).resolve_right id,
    h.kept i name⟩

end Machine.AddsOnly

-- =============================================================== actions

/-- An action that adds only such names to scopes as `A` allows. -/
def AddingOnly (A : ScopeId → String → Prop) {α : Type}
    (x : Run α) : Prop :=
  ∀ m : Machine, m.AddsOnly A (behind (x m))

namespace AddingOnly

variable {A A' : ScopeId → String → Prop} {α β : Type}
  {x : Run α} {limits : Limits}

theorem pure (a : α) : AddingOnly A (pure a : Run α) :=
  fun m => .refl m

theorem throw (e : Stop) : AddingOnly A (throw e : Run α) :=
  fun m => .refl m

theorem imp (hx : AddingOnly A x)
    (h : ∀ i name, A i name → A' i name) : AddingOnly A' x :=
  fun m => (hx m).imp h

/-- What the second action adds is allowed where it concerns the scopes in
front of the first one. -/
theorem bind_of {f : α → Run β} {later : α → ScopeId → String → Prop}
    (hx : AddingOnly A x) (hf : ∀ a, AddingOnly (later a) (f a))
    (hlater : ∀ m a m', x m = .ok a m' → ∀ i < m.heap.scopes.size,
      ∀ name, later a i name → A i name) :
    AddingOnly A (x >>= f) := by
  intro m
  have hm := hx m
  show m.AddsOnly A (behind (EStateM.bind x f m))
  unfold EStateM.bind
  cases hrun : x m with
  | ok a m' =>
      rw [hrun] at hm
      exact hm.trans (hf a m') (hlater m a m' hrun)
  | error e m' =>
      rw [hrun] at hm
      exact hm

theorem bind {f : α → Run β} (hx : AddingOnly A x)
    (hf : ∀ a, AddingOnly A (f a)) : AddingOnly A (x >>= f) :=
  hx.bind_of hf fun _ _ _ _ _ _ _ => id

/-- Names of a scope that is created first are not added to any scope that
was there before. -/
theorem bind_inside {f : α → Run β} (scope : α → ScopeId)
    (hx : AddingOnly A x)
    (hscope : ∀ m a m', x m = .ok a m' → scope a = m.heap.scopes.size)
    (hf : ∀ a, AddingOnly (fun i _ => i = scope a) (f a)) :
    AddingOnly A (x >>= f) :=
  hx.bind_of hf fun m a m' hrun _ hi _ heq =>
    absurd (heq.trans (hscope m a m' hrun)) (Nat.ne_of_lt hi)

theorem ite {c : Prop} [Decidable c] {y : Run α}
    (hx : AddingOnly A x) (hy : AddingOnly A y) :
    AddingOnly A (if c then x else y) := by
  by_cases hc : c
  · rw [if_pos hc]
    exact hx
  · rw [if_neg hc]
    exact hy

theorem get_bind {f : Machine → Run β}
    (hf : ∀ m : Machine, m.AddsOnly A (behind (f m m))) :
    AddingOnly A (get >>= f) :=
  fun m => hf m

theorem get : AddingOnly A (get : Run Machine) := fun m => .refl m

theorem fail (f : Fault) (span : Span) :
    AddingOnly A (Run.fail f span : Run α) :=
  .throw _

theorem forM {f : α → Run Unit} (hf : ∀ a, AddingOnly A (f a))
    (as : List α) : AddingOnly A (as.forM f) := by
  induction as with
  | nil => exact .pure ()
  | cons a as ih => exact .bind (hf a) fun _ => ih

theorem mapM {f : α → Run β} (hf : ∀ a, AddingOnly A (f a))
    (as : List α) : AddingOnly A (as.mapM f) := by
  induction as with
  | nil => exact .pure []
  | cons a as ih =>
      rw [List.mapM_cons]
      exact .bind (hf a) fun _ => .bind ih fun _ => .pure _

theorem tick (span : Span) : AddingOnly A (Run.tick limits span) := by
  refine .bind (fun m => .of_binds (.count m _) fun _ _ => rfl) fun _ => ?_
  cases limits.steps with
  | none => exact .pure ()
  | some limit => exact .bind .get fun _ => .ite (.fail _ _) (.pure _)

theorem lookup (place : Place) (name : String) (span : Span) :
    AddingOnly A (Run.lookup place name span) := by
  refine .bind .get fun m => ?_
  cases m.heap.get? place.scope name with
  | none => exact .fail _ _
  | some v => exact .pure v

theorem define (place : Place) (name : String) (v : Value) :
    AddingOnly (fun i other => i = place.scope ∧ other = name)
      (Run.define place name v) :=
  fun m => .define m place.scope name v

/-- A variable that is given a new value is there already. -/
theorem assign (place : Place) (target : Ident) (v : Value) :
    AddingOnly A (Run.assign place target v) := by
  refine .get_bind fun m => ?_
  cases howner : m.heap.owner? place.scope target.name with
  | none => exact .refl m
  | some i => exact .redefine (Heap.binds_of_owner? howner) v

theorem child (parent : ScopeId) : AddingOnly A (Run.child parent) :=
  fun m => .child m parent

theorem printLine (text : String) (span : Span) :
    AddingOnly A (Run.printLine text span) :=
  .bind (fun m => .of_binds (.write m (text ++ "\n")) fun _ _ => rfl)
    fun _ => .ite (.pure _) (.fail _ _)

theorem operation (span : Span) (outcome : Except OperandFault Value) :
    AddingOnly A (Run.operation span outcome) := by
  cases outcome with
  | ok v => exact .pure v
  | error f => exact .fail _ _

theorem truth (op : BinaryOp) (span : Span) (v : Value) :
    AddingOnly A (truth op span v) := by
  cases v with
  | bool b => exact .pure b
  | _ => exact .fail _ _

theorem conditionTruth (keyword : String) (span : Span) (v : Value) :
    AddingOnly A (conditionTruth keyword span v) := by
  cases v with
  | bool b => exact .pure b
  | _ => exact .fail _ _

theorem callable (callee call : Span) (count : Nat) (v : Value) :
    AddingOnly A (callable callee call count v) := by
  cases v with
  | function c => exact .ite (.bind (.fail _ _) fun _ => .pure c) (.pure c)
  | _ => exact .fail _ _

/-- Arguments are bound in the new scope of a call. -/
theorem enter (place : Place) (c : Closure) (vs : List Value)
    (call : Span) : AddingOnly A (enter limits place c vs call) := by
  unfold Eval.enter
  refine .ite (.bind (.fail _ _) fun _ => ?_) ?_
  all_goals
    refine (child c.scope).bind_inside id
      (fun m a m' h => by cases h; rfl) fun i => .bind (.forM ?_ _) fun _ =>
        .pure _
    exact fun _ => (define _ _ _).imp fun _ _ => And.left

theorem sequence {run : Stmt → Run Flow}
    (hrun : ∀ s, AddingOnly A (run s)) (ss : List Stmt) :
    AddingOnly A (sequence run ss) := by
  induction ss with
  | nil => exact .pure _
  | cons s ss ih =>
      refine .bind (hrun s) fun flow => ?_
      cases flow with
      | next => exact ih
      | returned v => exact .pure _

theorem repeatWhile {cond : Run Bool} {body : Run Flow}
    (hcond : AddingOnly A cond) (hbody : AddingOnly A body)
    (fuel : Nat) : AddingOnly A (repeatWhile cond body fuel) := by
  induction fuel with
  | zero => exact .throw _
  | succ fuel ih =>
      refine .bind hcond fun b => .ite ?_ (.pure _)
      refine .bind hbody fun flow => ?_
      cases flow with
      | next => exact ih
      | returned v => exact .pure _

/-- A call of a function, once its arguments are known. -/
theorem call {run : Place → Stmt → Run Flow}
    (hrun : ∀ inner s, AddingOnly (fun i _ => i = inner.scope)
      (run inner s)) (place : Place) (c : Closure) (vs : List Value)
    (span : Span) {f : Flow → Run Value}
    (hf : ∀ flow, AddingOnly (fun _ _ => False) (f flow)) :
    AddingOnly A (do
      let inner ← Eval.enter limits place c vs span
      let flow ← Eval.sequence (run inner) c.decl.body.statements
      f flow) :=
  (enter place c vs span).bind_inside Place.scope
    (fun m inner m' h => by rw [(Stack.enter_ok h).1])
    fun inner => .bind (.sequence (hrun inner) _) fun flow =>
      (hf flow).imp fun _ _ => False.elim

/-- A block, whatever its statements add to its scope. -/
theorem block {run : Place → Stmt → Run Flow}
    (hrun : ∀ inner s, AddingOnly (fun i _ => i = inner.scope)
      (run inner s)) (place : Place) (b : Block) :
    AddingOnly A (do
      let i ← Run.child place.scope
      Eval.sequence (run ⟨i, place.depth⟩) b.statements) :=
  (child place.scope).bind_inside id (fun m a m' h => by cases h; rfl)
    fun i => .sequence (hrun ⟨i, place.depth⟩) _

end AddingOnly

-- ============================================================ evaluation

mutual

/-- No name is added by an expression. -/
theorem eval_addingOnly (A : ScopeId → String → Prop)
    (limits : Limits) (fuel : Nat) (place : Place) (e : Expr) :
    AddingOnly A (eval limits fuel place e) := by
  cases fuel with
  | zero =>
      unfold eval
      exact .throw _
  | succ n =>
      have heval := eval_addingOnly A limits n place
      unfold eval
      refine .bind (.tick _) fun _ => ?_
      cases e with
      | number _ x => exact .pure _
      | string _ s => exact .pure _
      | bool _ b => exact .pure _
      | nil _ => exact .pure _
      | ident span name => exact .lookup place name span
      | group _ e => exact heval e
      | unary span op e => exact .bind (heval e) fun v => .operation span _
      | binary span op l r =>
          refine .bind (heval l) fun v => .ite ?_ ?_
          · refine .bind (.truth op _ v) fun b => .ite (.pure _) ?_
            exact .bind (heval r) fun w => .bind (.truth op _ w) fun _ =>
              .pure _
          · exact .bind (heval r) fun w => .operation span _
      | assign _ target e =>
          exact .bind (heval e) fun v =>
            .bind (.assign place target v) fun _ => .pure _
      | call span f args =>
          refine .bind (heval f) fun v =>
            .bind (.callable _ span _ v) fun c => ?_
          refine .bind (.mapM heval args) fun vs => ?_
          refine .call (fun inner s => (exec_addingOnly limits n inner s).imp
            fun _ _ => And.left) place c vs span fun flow => ?_
          cases flow with
          | next => exact .pure _
          | returned v => exact .pure _

/-- A statement adds the name that it binds, to the scope it runs in. -/
theorem exec_addingOnly (limits : Limits) (fuel : Nat) (place : Place)
    (s : Stmt) :
    AddingOnly (fun i name => i = place.scope ∧ name ∈ s.bound?)
      (exec limits fuel place s) := by
  cases fuel with
  | zero =>
      unfold exec
      exact .throw _
  | succ n =>
      have heval {A} := eval_addingOnly A limits n place
      have hblock {A} : ∀ b, AddingOnly A _ :=
        AddingOnly.block (A := A) (fun inner s =>
          (exec_addingOnly limits n inner s).imp fun _ _ => And.left) place
      have hcond {A} (keyword : String) (e : Expr) :=
        AddingOnly.bind (A := A) (heval e)
          fun v => .conditionTruth keyword e.span v
      unfold exec
      refine .bind (.tick _) fun _ => ?_
      cases s with
      | declare _ x init =>
          have hrest (v : Value) := AddingOnly.bind
            ((AddingOnly.define place x.name v).imp fun i other h =>
              (⟨h.1, congrArg some h.2.symm⟩ : i = place.scope
                ∧ some x.name = some other))
            fun _ => .pure Flow.next
          cases init with
          | none => exact .bind (.pure Value.nil) hrest
          | some e => exact .bind (heval e) hrest
      | function d =>
          exact .bind ((AddingOnly.define place d.name.name _).imp
            fun i other h => ⟨h.1, congrArg some h.2.symm⟩) fun _ => .pure _
      | expression _ e => exact .bind (heval e) fun _ => .pure _
      | block b => exact hblock b
      | branch _ cond thenPart elsePart =>
          refine .bind (hcond "if" cond) fun b => .ite (hblock thenPart) ?_
          cases elsePart with
          | none => exact .pure _
          | some s => exact exec_addingOnly limits n place s
      | loop _ cond body =>
          exact .repeatWhile (hcond "while" cond) (hblock body) n
      | giveBack _ value =>
          cases value with
          | none => exact .pure _
          | some e => exact .bind (heval e) fun _ => .pure _
      | print span e =>
          exact .bind (heval e) fun v => .bind (.printLine v.text span)
            fun _ => .pure _
      | empty _ => exact .pure _

end

end Eval

end Script
