/-
What the actions of evaluation keep. However an action ends, the uses seen
so far are explained; if it ends with a value, the account is sound, and
there is more to say of the value and of the scopes. Most actions leave
the scopes alone. The others are few: a new scope, a declaration, and an
assignment, which changes a value but binds nothing.
-/
import Script.Proofs.Lexical.Account
import Script.Proofs.Stack.Expressions

namespace Script.Lexical

open Code Eval

variable {p : Program} {w w' : Watch} {homes homes' : List Home}
  {E : Env} {i : ScopeId} {v : Value} {α β : Type}

-- ============================================================== outcomes

/-- What is claimed of a fault that is about a name: the name stands in a
function that is hoisted and has a variable of the main function. -/
def Blamed (p : Program) : Stop → Prop
  | .fault (.undefinedVariable name) span
  | .fault (.undeclaredAssignment name) span =>
      ∃ d ∈ p.functions, ⟨name, span⟩ ∈ d.used
        ∧ ∃ slot, p.variableAt span = some (.global slot)
  | _ => True

/-- What there is to blame for a fault about a name. -/
theorem Blamed.of_name {f : Eval.Fault} {span : Span}
    (h : Blamed p (.fault f span)) (htopic : f.topic = .name) :
    ∃ x : Ident, x.span = span
      ∧ (f = .undefinedVariable x.name ∨ f = .undeclaredAssignment x.name)
      ∧ ∃ d ∈ p.functions, x ∈ d.used
        ∧ ∃ slot, p.variableAt x.span = some (.global slot) := by
  cases f with
  | undefinedVariable name => exact ⟨⟨name, span⟩, rfl, .inl rfl, h⟩
  | undeclaredAssignment name => exact ⟨⟨name, span⟩, rfl, .inr rfl, h⟩
  | operands f => cases f <;> cases htopic
  | _ => cases htopic

/-- What an action is good for: a sound account with some more to it if it
yields a value, and else at least explained uses and a reason that can be
blamed on something. -/
def Keeps (p : Program) (x : Watched α) (w : Watch)
    (Q : α → Watch → List Home → Prop) : Prop :=
  match x w with
  | .ok a w' => ∃ homes, Sound p w' homes ∧ Q a w' homes
  | .error e w' => (∀ s ∈ w'.sightings, Explained p s) ∧ Blamed p e

section

variable {x : Watched α} {f : α → Watched β}
  {Q Q' : α → Watch → List Home → Prop} {R : β → Watch → List Home → Prop}

theorem Keeps.of_ok {a : α} (hx : x w = .ok a w') (h : Sound p w' homes)
    (hQ : Q a w' homes) : Keeps p x w Q := by
  unfold Keeps
  rw [hx]
  exact ⟨homes, h, hQ⟩

theorem Keeps.of_error {e : Stop} (hx : x w = .error e w')
    (h : ∀ s ∈ w'.sightings, Explained p s) (he : Blamed p e) :
    Keeps p x w Q := by
  unfold Keeps
  rw [hx]
  exact ⟨h, he⟩

theorem Keeps.pure {a : α} (h : Sound p w homes) (hQ : Q a w homes) :
    Keeps p (pure a) w Q :=
  .of_ok rfl h hQ

theorem Keeps.starved (h : Sound p w homes) :
    Keeps p (throw .starved : Watched α) w Q :=
  .of_error rfl h.seen trivial

theorem Keeps.bind (hx : Keeps p x w Q)
    (hf : ∀ a w' homes, Sound p w' homes → Q a w' homes →
      Keeps p (f a) w' R) : Keeps p (x >>= f) w R := by
  unfold Keeps at hx
  have hbind : (x >>= f) w = EStateM.bind x f w := rfl
  unfold EStateM.bind at hbind
  cases hrun : x w with
  | ok a w' =>
      rw [hrun] at hx hbind
      obtain ⟨homes, hsound, hQ⟩ := hx
      have hrest := hf a w' homes hsound hQ
      unfold Keeps at hrest ⊢
      rw [hbind]
      exact hrest
  | error e w' =>
      rw [hrun] at hx hbind
      exact .of_error hbind hx.1 hx.2

theorem Keeps.imp (hx : Keeps p x w Q)
    (h : ∀ a w' homes, Sound p w' homes → Q a w' homes → Q' a w' homes) :
    Keeps p x w Q' := by
  unfold Keeps at hx ⊢
  cases hrun : x w with
  | ok a w' =>
      rw [hrun] at hx
      obtain ⟨homes, hsound, hQ⟩ := hx
      exact ⟨homes, hsound, h a w' homes hsound hQ⟩
  | error e w' =>
      rw [hrun] at hx
      exact hx

theorem Keeps.ite {c : Prop} [Decidable c] {y : Watched α}
    (hx : c → Keeps p x w Q) (hy : ¬ c → Keeps p y w Q) :
    Keeps p (if c then x else y) w Q := by
  by_cases hc : c
  · rw [if_pos hc]
    exact hx hc
  · rw [if_neg hc]
    exact hy hc

end

-- ========================================================= quiet actions

/-- Whether a fault is about a name. -/
def aboutName : Stop → Prop
  | .fault f _ => f.topic = .name
  | .starved => False

/-- Whatever is not about a name need not be blamed on one. -/
theorem Blamed.of_other {e : Stop} (h : ¬ aboutName e) : Blamed p e := by
  cases e with
  | starved => trivial
  | fault f span =>
      cases f with
      | undefinedVariable name => exact (h rfl).elim
      | undeclaredAssignment name => exact (h rfl).elim
      | _ => trivial

/-- Whether an action leaves the scopes alone, and ends early for no name's
sake. -/
def Quiet (x : Run α) : Prop :=
  ∀ m, match x m with
    | .ok _ m' => m'.heap = m.heap
    | .error e m' => m'.heap = m.heap ∧ ¬ aboutName e

theorem Quiet.pure (a : α) : Quiet (pure a) := fun _ => rfl

theorem Quiet.fail {f : Eval.Fault} (hf : (f.topic == .name) = false)
    (span : Span) : Quiet (Run.fail f span : Run α) :=
  fun _ => ⟨rfl, fun hname => by
    have hname : f.topic = .name := hname
    rw [hname] at hf
    cases hf⟩

theorem Quiet.bind {x : Run α} {f : α → Run β} (hx : Quiet x)
    (hf : ∀ a, Quiet (f a)) : Quiet (x >>= f) := by
  intro m
  have hm := hx m
  have hbind : (x >>= f) m = EStateM.bind x f m := rfl
  unfold EStateM.bind at hbind
  cases hrun : x m with
  | ok a m' =>
      rw [hrun] at hm hbind
      have hrest := hf a m'
      rw [hbind]
      dsimp only at hm ⊢
      rwa [hm] at hrest
  | error e m' =>
      rw [hrun] at hm hbind
      rw [hbind]
      exact hm

theorem Quiet.ite {c : Prop} [Decidable c] {x y : Run α} (hx : Quiet x)
    (hy : Quiet y) : Quiet (if c then x else y) := by
  by_cases hc : c
  · rwa [if_pos hc]
  · rwa [if_neg hc]

theorem Quiet.tick (limits : Limits) (span : Span) :
    Quiet (Run.tick limits span) := by
  refine .bind (fun _ => rfl) fun _ => ?_
  cases limits.steps with
  | none => exact .pure ()
  | some limit =>
      exact .bind (fun _ => rfl) fun _ => .ite (.fail rfl _) (.pure ())

theorem Quiet.operation (span : Span) (r : Except OperandFault Value) :
    Quiet (Run.operation span r) := by
  cases r with
  | ok v => exact .pure v
  | error f =>
      cases f <;> exact .fail rfl span

theorem Quiet.truth (op : BinaryOp) (span : Span) (v : Value) :
    Quiet (truth op span v) := by
  cases v with
  | bool b => exact .pure b
  | _ => exact .fail rfl _

theorem Quiet.conditionTruth (keyword : String) (span : Span)
    (v : Value) : Quiet (conditionTruth keyword span v) := by
  cases v with
  | bool b => exact .pure b
  | _ => exact .fail rfl _

theorem Quiet.callable (callee call : Span) (n : Nat) (v : Value) :
    Quiet (callable callee call n v) := by
  cases v with
  | function c =>
      unfold Eval.callable
      refine .ite (.bind (.fail rfl _) fun _ => .pure c) (.pure c)
  | _ => exact .fail rfl _

theorem Quiet.printLine (text : String) (span : Span) :
    Quiet (Run.printLine text span) := by
  refine .bind (fun _ => rfl) fun taken => ?_
  cases taken with
  | true => exact .pure ()
  | false => exact .fail rfl _

/-- Nothing is seen of a change outside of the scopes. -/
theorem Still.quiet {m : Machine} (hheap : m.heap = w.machine.heap) :
    Still w homes { w with machine := m } homes := fun _ =>
  { homes := List.prefix_refl _
    size := Nat.le_of_eq (congrArg (·.scopes.size) hheap.symm)
    chain := fun j _ => congrArg (·.chain j) hheap
    keeps := fun _ _ _ => id
    adds := fun _ _ _ _ => id }

theorem Sound.quiet {m : Machine} (h : Sound p w homes)
    (hheap : m.heap = w.machine.heap) :
    Sound p { w with machine := m } homes where
  size := by
    rw [h.size]
    exact congrArg (·.scopes.size) hheap.symm
  made := h.made
  binds i name := by
    show m.heap.binds name i = _
    rw [hheap]
    exact h.binds i name
  values i name v hv := by
    have hv' : (m.heap.bindings i).lookup name = some v := hv
    rw [hheap] at hv'
    exact (h.values i name v hv').later h.size (Still.quiet hheap 0)
  seen := h.seen

theorem Keeps.plain {x : Run α} {Q : α → Watch → List Home → Prop}
    (hquiet : Quiet x) (h : Sound p w homes)
    (hQ : ∀ a m, x w.machine = .ok a m →
      Still w homes { w with machine := m } homes →
        Q a { w with machine := m } homes) :
    Keeps p (Watched.plain x) w Q := by
  have hheap := hquiet w.machine
  cases hrun : x w.machine with
  | ok a m =>
      rw [hrun] at hheap
      have hheap : m.heap = w.machine.heap := hheap
      have hplain : Watched.plain x w = .ok a { w with machine := m } := by
        unfold Watched.plain
        rw [hrun]
      exact .of_ok hplain (h.quiet hheap) (hQ a m hrun (.quiet hheap))
  | error e m =>
      have hplain : Watched.plain x w = .error e { w with machine := m } := by
        unfold Watched.plain
        rw [hrun]
      rw [hrun] at hheap
      exact .of_error hplain h.seen (.of_other hheap.2)

-- ================================================================ values

/-- Only functions have to fit anything. -/
theorem ValueFits.of_not_function (hv : v.type ≠ .function) :
    ValueFits p w homes v := by
  rintro c rfl
  exact (hv rfl).elim

theorem ValueFits.handedOut (h : ValueFits p w homes v) :
    ValueFits p w homes v.handedOut := by
  cases v with
  | function c =>
      rintro c' hc
      cases hc
      exact h c rfl
  | _ => exact h

theorem ValueFits.keptIn (h : ValueFits p w homes v) (i : ScopeId) :
    ValueFits p w homes (v.keptIn i) := by
  cases v with
  | function c =>
      intro c' hc'
      unfold Value.keptIn at hc'
      dsimp only at hc'
      split at hc'
      · cases hc'
        exact h c rfl
      · cases hc'
        exact h c rfl
  | _ => exact h

theorem Constant.not_function (k : Constant) : k.value.type ≠ .function := by
  cases k <;> exact nofun

/-- No operator yields a function. -/
theorem ValueFits.of_unary {op : UnaryOp} {l r : Value}
    (h : op.apply l = .ok r) : ValueFits p w homes r := by
  obtain ⟨k, rfl⟩ := Stack.constant_of_unary h
  exact .of_not_function (Constant.not_function k)

theorem ValueFits.of_binary {op : BinaryOp} {l r s : Value}
    (h : op.apply l r = .ok s) : ValueFits p w homes s := by
  obtain ⟨k, rfl⟩ := Stack.constant_of_binary h
  exact .of_not_function (Constant.not_function k)

-- ================================================================== uses

/-- A use whose name the levels know is explained. -/
theorem Keeps.see {place : Place} {x : Ident} (h : Sound p w homes)
    (hrun : Running p w homes E place.scope) (hx : UseNamed p E x) :
    Keeps p (Watched.see place x) w fun _ w' homes' =>
      Still w homes w' homes' := by
  cases hfound : w.machine.heap.owner? place.scope x.name with
  | none =>
      have hsee : Watched.see place x w = .ok () w := by
        show EStateM.Result.ok () _ = _
        dsimp only
        rw [hfound]
      exact .of_ok hsee h (.refl w homes)
  | some j =>
      have hsee : Watched.see place x w = .ok () { w with
          sightings := ⟨x.span, w.maker j x.name⟩ :: w.sightings } := by
        show EStateM.Result.ok () _ = _
        dsimp only
        rw [hfound]
      have hstill : Still w homes { w with
          sightings := ⟨x.span, w.maker j x.name⟩ :: w.sightings } homes :=
        fun _ => ⟨List.prefix_refl _, Nat.le_refl _, fun _ _ => rfl,
          fun _ _ _ => id, fun _ _ _ _ => id⟩
      refine .of_ok hsee ⟨h.size, h.made, h.binds, fun i name v hv => ?_,
        List.forall_mem_cons.2 ⟨hrun.explained h hx hfound, h.seen⟩⟩ hstill
      exact (h.values i name v hv).later h.size (hstill 0)

theorem get_bind {f : Machine → Run α} (m : Machine) :
    (get >>= f) m = f m m := rfl

/-- A variable that is found has a value. -/
theorem lookup_found {place : Place} {x : Ident} {j : ScopeId}
    (hfound : w.machine.heap.owner? place.scope x.name = some j) :
    ∃ v, (w.machine.heap.bindings j).lookup x.name = some v
      ∧ Watched.plain (Run.lookup place x.name x.span) w =
        .ok v.handedOut w := by
  have hbinds : w.machine.heap.binds x.name j = true :=
    List.find?_some hfound
  obtain ⟨v, hv⟩ := Option.isSome_iff_exists.1 hbinds
  refine ⟨v, hv, ?_⟩
  have hget : w.machine.heap.get? place.scope x.name =
      some v.handedOut := by
    unfold Heap.get?
    rw [hfound, Option.bind_some, hv]
    rfl
  unfold Watched.plain Run.lookup
  rw [get_bind, hget]
  rfl

theorem lookup_missing {place : Place} {x : Ident}
    (hnone : w.machine.heap.owner? place.scope x.name = none) :
    Watched.plain (Run.lookup place x.name x.span) w =
      .error (.fault (.undefinedVariable x.name) x.span) w := by
  have hget : w.machine.heap.get? place.scope x.name = none := by
    unfold Heap.get?
    rw [hnone]
    rfl
  unfold Watched.plain Run.lookup
  rw [get_bind, hget]
  rfl

theorem Keeps.lookup {place : Place} {x : Ident} (h : Sound p w homes)
    (hrun : Running p w homes E place.scope) (hx : UseNamed p E x) :
    Keeps p (Watched.lookup place x) w fun v w' homes' =>
      Still w homes w' homes' ∧ ValueFits p w' homes' v := by
  refine .bind (.see h hrun hx) fun _ w₁ homes₁ h₁ hstill => ?_
  cases hfound : w₁.machine.heap.owner? place.scope x.name with
  | none =>
      exact .of_error (lookup_missing hfound) h₁.seen
        ((hrun.later h.size hstill).unbound h₁ hx hfound)
  | some j =>
      obtain ⟨v, hv, hlookup⟩ := lookup_found hfound
      exact .of_ok hlookup h₁ ⟨hstill, (h₁.values j _ v hv).handedOut⟩

-- ============================================================ new scopes

/-- A new scope, as a block of the program at work. -/
theorem Keeps.child {parent : ScopeId} (home : Home) (h : Sound p w homes)
    (hparent : parent < w.machine.heap.scopes.size) :
    Keeps p (Watched.plain (Run.child parent)) w fun id w' homes' =>
      id = w.machine.heap.scopes.size ∧ Still w homes w' homes'
        ∧ w'.machine.heap.chain id = id :: w.machine.heap.chain parent
        ∧ homes'[id]? = some home ∧ ∀ name, w'.maker id name = none := by
  have hnone : ∀ name, w.maker w.machine.heap.scopes.size name = none := by
    intro name
    have hbinds := h.binds w.machine.heap.scopes.size name
    unfold Heap.binds Heap.bindings at hbinds
    rw [Array.getElem?_eq_none (Nat.le_refl _)] at hbinds
    exact Option.isNone_iff_eq_none.1 (Option.isSome_eq_false_iff.1 hbinds.symm)
  have hstill : Still w homes { w with machine := { w.machine with
      heap := (w.machine.heap.child parent).2 } } (homes ++ [home]) := fun _ =>
    { homes := List.prefix_append ..
      size := by simp
      chain := fun j hj => w.machine.heap.chain_child_of_lt parent hj
      keeps := fun _ _ _ => id
      adds := fun _ _ _ _ => id }
  refine .of_ok rfl ⟨?_, fun i h' name d hhome hmaker => ?_,
    fun i name => ?_, fun i name v hv => ?_, h.seen⟩
    ⟨rfl, hstill, w.machine.heap.chain_child_self hparent, ?_, hnone⟩
  · rw [List.length_append, h.size]
    exact (w.machine.heap.size_child parent).symm
  · refine h.made i h' name d ?_ hmaker
    rcases Nat.lt_trichotomy i homes.length with hlt | heq | hlt
    · rwa [List.getElem?_append_left hlt] at hhome
    · have hmaker' : w.maker i name = some d := hmaker
      rw [heq, h.size, hnone name] at hmaker'
      cases hmaker'
    · rw [List.getElem?_eq_none] at hhome
      · cases hhome
      · rw [List.length_append]
        exact hlt
  · exact (w.machine.heap.binds_child parent i name).trans (h.binds i name)
  · have hv' : ((w.machine.heap.child parent).2.bindings i).lookup name =
        some v := hv
    rw [Heap.bindings_child] at hv'
    exact (h.values i name v hv').later h.size (hstill 0)
  · rw [← h.size]
    exact List.getElem?_concat_length ..

/-- A new scope fits the beginning of its block. -/
theorem Fits.beginning {home : Home} (hhome : homes[i]? = some home) :
    Fits w homes ⟨home, [], [], false⟩ i :=
  { home := hhome
    part := fun _ _ h => by cases h
    bound := fun _ _ h => by cases h
    top := nofun }

theorem Exact.beginning {home : Home} (hnone : ∀ name, w.maker i name = none) :
    Exact w ⟨home, [], [], false⟩ i := by
  intro name hname
  rw [hnone name] at hname
  cases hname

/-- The scope of a block in the running function. -/
theorem Keeps.openBlock {parent : ScopeId} {home : Home}
    (htop : home.top = false) (h : Sound p w homes)
    (hrun : Running p w homes E parent) :
    Keeps p (Watched.plain (Run.child parent)) w fun id w' homes' =>
      id = w.machine.heap.scopes.size ∧ Still w homes w' homes'
        ∧ Running p w' homes' (E.openBlock home) id := by
  refine (Keeps.child home h (hrun.captured.lt h.size)).imp
    fun id w' homes' h' hid => ?_
  obtain ⟨rfl, hstill, hchain, hhome, hnone⟩ := hid
  have hrun' := hrun.later h.size hstill
  obtain ⟨is, js, hsplit, hown, haround⟩ := hrun'.fits
  refine ⟨rfl, hstill, ⟨w.machine.heap.scopes.size :: is, js, ?_,
    .cons ?_ hown, haround⟩,
    .cons (fun _ _ => htop) hrun.last,
    List.forall_mem_cons.2 ⟨rfl, hrun.known⟩, hrun.placed⟩
  · rw [hchain, ← (hstill 0).chain parent (hrun.captured.lt h.size), hsplit]
    rfl
  · exact ⟨.beginning hhome, .beginning hnone⟩

/-- The scope of a function that is called. -/
theorem Keeps.openFunction {parent : ScopeId} {home : Home}
    (htop : home.top = false) (h : Sound p w homes)
    (hcaptured : Captured w homes E parent)
    (hplaced : ∀ l ∈ E.levels, l.Placed p) :
    Keeps p (Watched.plain (Run.child parent)) w fun id w' homes' =>
      id = w.machine.heap.scopes.size ∧ Still w homes w' homes'
        ∧ Running p w' homes' (E.openFunction home) id := by
  refine (Keeps.child home h (hcaptured.lt h.size)).imp
    fun id w' homes' h' hid => ?_
  obtain ⟨rfl, hstill, hchain, hhome, hnone⟩ := hid
  have hcaptured' := hcaptured.later h.size (hstill 0)
  refine ⟨rfl, hstill, ⟨[w.machine.heap.scopes.size], _, ?_,
    .cons ?_ .nil, hcaptured'.fits⟩,
    .cons (fun _ _ => htop) hcaptured.last,
    List.forall_mem_cons.2 ⟨rfl, fun _ hl => absurd hl List.not_mem_nil⟩,
    hplaced⟩
  · rw [List.singleton_append, hchain,
      (hstill 0).chain parent (hcaptured.lt h.size)]
  · exact ⟨.beginning hhome, .beginning hnone⟩

-- ============================================================== bindings

/-- A run in which a name of a scope was given a value, and perhaps a new
maker. -/
theorem Moved.store {name : String} {d : Span} {m : Machine}
    {maker : ScopeId → String → Option Span}
    (hheap : m.heap = w.machine.heap.define i name v)
    (hmaker : ∀ j other, maker j other =
      if j = i ∧ other = name then some d else w.maker j other) :
    Moved i w homes ⟨m, maker, w.sightings⟩ homes where
  homes := List.prefix_refl _
  size := by
    refine Nat.le_of_eq (m := m.heap.scopes.size) ?_
    rw [hheap, Heap.size_define]
  chain j _ := by
    show m.heap.chain j = _
    rw [hheap, Heap.chain_define]
  keeps j other _ hother := by
    show (maker j other).isSome = true
    rw [hmaker]
    split
    · rfl
    · exact hother
  adds j other _ hne hother := by
    have hother' : (maker j other).isSome = true := hother
    rwa [hmaker, if_neg (fun hj => hne hj.1)] at hother'

theorem Sound.store {name : String} {d : Span} {m : Machine}
    {maker : ScopeId → String → Option Span} (h : Sound p w homes)
    (hi : i < w.machine.heap.scopes.size)
    (hheap : m.heap = w.machine.heap.define i name v)
    (hmaker : ∀ j other, maker j other =
      if j = i ∧ other = name then some d else w.maker j other)
    (hmade : ∀ home, homes[i]? = some home → ⟨name, d⟩ ∈ home.declared
      ∧ p.variableAt d = (home.table.lookup name).map home.variable)
    (hv : ValueFits p ⟨m, maker, w.sightings⟩ homes v) :
    Sound p ⟨m, maker, w.sightings⟩ homes := by
  refine ⟨?_, fun j home other e hhome hother => ?_,
    fun j other => ?_, fun j other u hu => ?_, h.seen⟩
  · show _ = m.heap.scopes.size
    rw [hheap, Heap.size_define]
    exact h.size
  · have hother' : maker j other = some e := hother
    rw [hmaker] at hother'
    split at hother'
    case isTrue hj =>
        obtain ⟨rfl, rfl⟩ := hj
        obtain rfl := Option.some.inj hother'
        exact hmade home hhome
    case isFalse => exact h.made j home other e hhome hother'
  · show m.heap.binds other j = (maker j other).isSome
    rw [hheap, Heap.binds_define hi, hmaker, h.binds]
    by_cases hj : j = i ∧ other = name
    · rw [if_pos hj, decide_eq_true hj]
      rfl
    · rw [if_neg hj, decide_eq_false hj]
      rfl
  · have hu' : (m.heap.bindings j).lookup other = some u := hu
    rw [hheap, Heap.bindings_define hi] at hu'
    -- All values but the new one fitted before.
    have hold (hu : (w.machine.heap.bindings j).lookup other = some u) :=
      (h.values j other u hu).later h.size (Moved.store hheap hmaker)
    by_cases hj : j = i
    · subst hj
      rw [if_pos rfl, Heap.lookup_insert] at hu'
      split at hu'
      · obtain rfl := Option.some.inj hu'
        exact hv.keptIn j
      · exact hold hu'
    · rw [if_neg hj] at hu'
      exact hold hu'

/-- A run behind a declaration. -/
def Watch.declared (w : Watch) (i : ScopeId) (x : Ident) (v : Value) :
    Watch :=
  ⟨{ w.machine with heap := w.machine.heap.define i x.name v },
    fun j name =>
      if j = i ∧ name = x.name then some x.span else w.maker j name,
    w.sightings⟩

theorem Moved.declared (i : ScopeId) (x : Ident) (v : Value) :
    Moved i w homes (w.declared i x v) homes := .store rfl fun _ _ => rfl

theorem Sound.declared {x : Ident} {t : Names} (h : Sound p w homes)
    (hfits : Fits w homes E.here i) (hx : Makes p E.here x t)
    (hv : ValueFits p (w.declared i x v) homes v) :
    Sound p (w.declared i x v) homes := by
  refine h.store (hfits.lt h.size) rfl (fun _ _ => rfl) ?_ hv
  intro home hhome
  obtain rfl : E.here.home = home :=
    Option.some.inj (hfits.home.symm.trans hhome)
  obtain ⟨slot, hslot, hvariable, -⟩ := hx.slot
  refine ⟨hx.listed, ?_⟩
  rw [hslot]
  exact hvariable

/-- The scope of a declaration has the names behind it. -/
theorem Fits.declared {x : Ident} {t : Names}
    (hfits : Fits w homes E.here i) (hexact : Exact w E.here i)
    (hx : Makes p E.here x t) :
    Fits (w.declared i x v) homes (E.knowing t).here i
      ∧ Exact (w.declared i x v) (E.knowing t).here i := by
  obtain ⟨slot, hslot, -, ht⟩ := hx.slot
  refine ⟨⟨hfits.home, fun name slot' hname => ?_,
    fun hknown name hname => ?_, hfits.top⟩, fun name hname => ?_⟩
  · have hname' : t.lookup name = some slot' := hname
    rw [ht] at hname'
    split at hname'
    case isTrue heq =>
        rw [heq, ← hname']
        exact hslot
    case isFalse => exact hfits.part name slot' hname'
  · have hname' : (t.lookup name).isSome = true := hname
    rw [ht] at hname'
    show (if i = i ∧ name = x.name then some x.span
      else w.maker i name).isSome = true
    split at hname'
    case isTrue heq => rw [if_pos ⟨rfl, heq⟩]; rfl
    case isFalse hne =>
        rw [if_neg fun h => hne h.2]
        exact hfits.bound hknown name hname'
  · have hname' : (if i = i ∧ name = x.name then some x.span
      else w.maker i name).isSome = true := hname
    show (t.lookup name).isSome = true
    rw [ht]
    by_cases heq : name = x.name
    · rw [if_pos heq]
      rfl
    · rw [if_neg fun h => heq h.2] at hname'
      rw [if_neg heq]
      exact hexact name hname'

theorem forall₂_and_of_right {R : α → β → Prop} {P : β → Prop}
    {as : List α} {bs : List β} (h : List.Forall₂ R as bs)
    (hP : ∀ b ∈ bs, P b) : List.Forall₂ (fun a b => R a b ∧ P b) as bs := by
  induction h with
  | nil => exact .nil
  | cons h _ ih =>
      obtain ⟨hb, hbs⟩ := List.forall_mem_cons.1 hP
      exact .cons ⟨h, hb⟩ (ih hbs)

theorem Running.declared {x : Ident} {t : Names} (h : Sound p w homes)
    (hrun : Running p w homes E i) (hx : Makes p E.here x t) :
    Running p (w.declared i x v) homes (E.knowing t) i := by
  obtain ⟨is, js, hchain, hown, haround⟩ := hrun.fits
  cases hown with
  | @cons _ j _ is hhere hown =>
  obtain rfl : j = i := Heap.head_of_chain hchain
  have hmoved : Moved j w homes (w.declared j x v) homes := .declared j x v
  refine ⟨⟨j :: is, js, ?_, .cons (hhere.1.declared hhere.2 hx) ?_, ?_⟩,
    ?_, ?_, hrun.placed⟩
  · rw [hmoved.chain j (hhere.1.lt h.size), hchain]
  · -- The other scopes are older, so they are not the one that changes.
    have holder : ∀ k ∈ is, k ≠ j := fun k hk =>
      Nat.ne_of_lt (Heap.lt_of_chain hchain (List.mem_append_left _ hk))
    refine (forall₂_and_of_right hown holder).imp fun l k hl => ?_
    exact ⟨hl.1.1.later h.size hmoved,
      hl.1.2.later h.size hl.1.1 hmoved hl.2⟩
  · exact haround.imp fun l k hl => hl.later h.size hmoved
  · obtain ⟨hhead, htail⟩ := List.pairwise_cons.1 hrun.last
    exact .cons hhead htail
  · obtain ⟨hhere, hown⟩ := List.forall_mem_cons.1 hrun.known
    exact List.forall_mem_cons.2 ⟨hhere, hown⟩

/-- A declaration. The value may need the name that it is bound to, as a
function does. -/
theorem Keeps.define {place : Place} {x : Ident} {t : Names}
    (h : Sound p w homes) (hrun : Running p w homes E place.scope)
    (hx : Makes p E.here x t)
    (hv : ∀ w', Moved place.scope w homes w' homes →
      Running p w' homes (E.knowing t) place.scope →
        ValueFits p w' homes v) :
    Keeps p (Watched.define place x v) w fun _ w' homes' =>
      Moved place.scope w homes w' homes'
        ∧ Running p w' homes' (E.knowing t) place.scope := by
  have hmoved : Moved place.scope w homes (w.declared place.scope x v)
      homes := .declared ..
  have hrun' := hrun.declared (v := v) h hx
  have hdefine : Watched.define place x v w =
      .ok () (w.declared place.scope x v) := rfl
  obtain ⟨is, js, hchain, hown, -⟩ := hrun.fits
  cases hown with
  | cons hhere _ =>
  obtain rfl := Heap.head_of_chain hchain
  exact .of_ok hdefine (h.declared hhere.1 hx (hv _ hmoved hrun'))
    ⟨hmoved, hrun'⟩

/-- A run behind an assignment. -/
def Watch.assigned (w : Watch) (i : ScopeId) (x : Ident) (v : Value) :
    Watch :=
  { w with machine := { w.machine with
      heap := w.machine.heap.define i x.name v } }

/-- An assignment. -/
theorem Keeps.assign {place : Place} {x : Ident} (h : Sound p w homes)
    (hrun : Running p w homes E place.scope) (hx : UseNamed p E x)
    (hv : ValueFits p w homes v) :
    Keeps p (Watched.assign place x v) w fun _ w' homes' =>
      Still w homes w' homes' := by
  refine .bind (.see h hrun hx) fun _ w₁ homes₁ h₁ hstill => ?_
  cases hfound : w₁.machine.heap.owner? place.scope x.name with
  | none =>
      have hassign : Watched.plain (Run.assign place x v) w₁ =
          .error (.fault (.undeclaredAssignment x.name) x.span) w₁ := by
        unfold Watched.plain Run.assign
        rw [get_bind, hfound]
        rfl
      exact .of_error hassign h₁.seen
        ((hrun.later h.size hstill).unbound h₁ hx hfound)
  | some j =>
      have hassign : Watched.plain (Run.assign place x v) w₁ =
          .ok () (w₁.assigned j x v) := by
        unfold Watched.plain Run.assign
        rw [get_bind, hfound]
        rfl
      have hbinds : w₁.machine.heap.binds x.name j = true :=
        List.find?_some hfound
      have hlt : j < w₁.machine.heap.scopes.size := by
        unfold Heap.binds Heap.bindings at hbinds
        by_contra hge
        rw [Array.getElem?_eq_none (Nat.le_of_not_lt hge)] at hbinds
        cases hbinds
      rw [h₁.binds] at hbinds
      obtain ⟨d, hd⟩ := Option.isSome_iff_exists.1 hbinds
      have hmaker (i : ScopeId) (name : String) : w₁.maker i name =
          if i = j ∧ name = x.name then some d else w₁.maker i name := by
        by_cases hi : i = j ∧ name = x.name
        · rw [if_pos hi, hi.1, hi.2]
          exact hd
        · rw [if_neg hi]
      have hmoved : Moved j w₁ homes₁ (w₁.assigned j x v) homes₁ :=
        .store rfl hmaker
      have hv₁ := hv.later h.size (hstill 0)
      have hsound : Sound p (w₁.assigned j x v) homes₁ :=
        h₁.store hlt rfl hmaker
          (fun home hhome => h₁.made j home x.name d hhome hd)
          (hv₁.later h₁.size hmoved)
      exact .of_ok hassign hsound (hstill.trans fun _ =>
        { hmoved with adds := fun _ _ _ _ => id })

end Script.Lexical
