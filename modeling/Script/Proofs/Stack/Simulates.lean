/-
What it means that code does the same as an action of the evaluator, and
how such code is put together. If the two sides match in front of the
code and the action ends well, the machine comes to the place behind the
code with the item for the action's value on the stack, and the two sides
match again. Nothing is said of actions that fail.

Code and its action are given independently of each other, so the lemmas
here hold wherever the code stands and whatever is on the stack below.
-/
import Script.Proofs.Stack.Operators
import Script.Proofs.Stack.Runs

namespace Script.Stack

open Code Eval Script.Action

/-- What is known of a program in code: its names at the top have slots
of their own, its functions have their code, and are told apart. -/
structure Linked (c : Code) (roots : Names) (fs : List FnDecl) :
    Prop where
  distinct : (roots.map (·.2)).Nodup
  room : ∀ name slot, roots.lookup name = some slot →
    slot < c.globals.length
  functions : ∀ k d, fs[k]? = some d →
    ∃ f, c.functions[k + 1]? = some f ∧ FunctionAt c roots d f
  named : Named c fs

section

variable (c : Code) (roots : Names) (fs : List FnDecl) (before : ByteArray)
  (full : List Instr) (callers : List Call) (site : Site)
  (base i : ScopeId)

/-- A machine against the evaluator where there is the code to link
to. -/
abbrev Meets (m : Machine) (w : World) : Prop :=
  Agrees fs roots c.globals.length before site base m i w

/-- Whether the code between two places does what an action does, and
leaves the item for its value on the stack. -/
def Simulates (x : Run Value) (start stop : Nat) : Prop :=
  ∀ stack m w v m', Meets c roots fs before site base i m w →
    x m = .ok v m' → ∃ item w',
      Reaches c (w.state full callers start stack)
        (w'.state full callers stop (item :: stack))
      ∧ Represents fs v item ∧ Meets c roots fs before site base i m' w'
      ∧ Moved roots site.own base m m' w w'

/-- The same for an action with several values, the last of which comes
to lie on top. -/
def SimulatesAll (x : Run (List Value)) (start stop : Nat) : Prop :=
  ∀ stack m w vs m', Meets c roots fs before site base i m w →
    x m = .ok vs m' → ∃ items w',
      Reaches c (w.state full callers start stack)
        (w'.state full callers stop (items.reverse ++ stack))
      ∧ List.Forall₂ (Represents fs) vs items
      ∧ Meets c roots fs before site base i m' w'
      ∧ Moved roots site.own base m m' w w'

/-- How a statement ends, from a state of the machine on: at another
site, in front of what follows; or in front of a return, with the result
on the stack. -/
def Ends (site' : Site) (m : Machine) (w : World) (s : State) (stop : Nat)
    (stack : List Item) (m' : Machine) : Flow → Prop
  | .next => ∃ w', Reaches c s (w'.state full callers stop stack)
      ∧ Meets c roots fs before site' base i m' w'
      ∧ Moved roots site.own base m m' w w'
  | .returned v => ∃ item w' place rest, full[place]? = some .leave
      ∧ Reaches c s (w'.state full callers place (item :: rest))
      ∧ Represents fs v item
      ∧ Shares fs roots c.globals.length before m' w'
      ∧ Moved roots site.own base m m' w w'

/-- Whether the code between two places does what a statement does, and
leads to another site. -/
def Follows (x : Run Flow) (start stop : Nat) (site' : Site) : Prop :=
  ∀ stack m w flow m', Meets c roots fs before site base i m w →
    x m = .ok flow m' →
      Ends c roots fs before full callers site base i site' m w
        (w.state full callers start stack) stop stack m' flow

end

variable {c : Code} {roots : Names} {fs : List FnDecl} {before : ByteArray}
  {full : List Instr} {callers : List Call} {site : Site}
  {base i : ScopeId} {start j stop : Nat} {x y : Run Value}

-- ================================================================ steps

theorem tick_ok {limits : Limits} {span : Span} {m m' : Machine} {u : Unit}
    (h : Run.tick limits span m = .ok u m') :
    m'.heap = m.heap ∧ m'.sink = m.sink := by
  unfold Run.tick at h
  obtain ⟨u', m₁, hcount, h⟩ := bind_ok.1 h
  obtain rfl := modify_ok.1 hcount
  cases hlimit : limits.steps with
  | none =>
      rw [hlimit] at h
      obtain ⟨-, rfl⟩ := pure_ok.1 h
      exact ⟨rfl, rfl⟩
  | some limit =>
      rw [hlimit] at h
      obtain ⟨m₂, m₃, hget, h⟩ := bind_ok.1 h
      obtain ⟨rfl, rfl⟩ := get_ok.1 hget
      split at h
      · exact (throw_ok.1 h).elim
      · obtain ⟨-, rfl⟩ := pure_ok.1 h
        exact ⟨rfl, rfl⟩

/-- The match is about variables and output only. -/
theorem Agrees.of_eq {total : Nat} {m m' : Machine} {w : World}
    (hagree : Agrees fs roots total before site base m i w)
    (hheap : m'.heap = m.heap) (hsink : m'.sink = m.sink) :
    Agrees fs roots total before site base m' i w where
  root := hheap ▸ hagree.root
  total := hagree.total
  printed := hsink ▸ hagree.printed
  blocks := hheap ▸ hagree.blocks
  limit := hagree.limit
  based := hheap ▸ hagree.based

theorem Simulates.of_eq (heq : x = y)
    (h : Simulates c roots fs before full callers site base i y start stop) :
    Simulates c roots fs before full callers site base i x start stop :=
  heq ▸ h

theorem Simulates.tick {limits : Limits} {span : Span}
    (h : Simulates c roots fs before full callers site base i x start stop) :
    Simulates c roots fs before full callers site base i
      (do Run.tick limits span; x) start stop := by
  intro stack m w v m' hagree hrun
  obtain ⟨u, m₁, htick, hrun⟩ := bind_ok.1 hrun
  obtain ⟨hheap, hsink⟩ := tick_ok htick
  obtain ⟨item, w', hreach, hrep, hagree', hmoved⟩ :=
    h stack m₁ w v m' (hagree.of_eq hheap hsink) hrun
  exact ⟨item, w', hreach, hrep, hagree',
    (Moved.of_heap_eq hheap rfl).trans hmoved⟩

/-- What comes before does not matter for how a statement ends. -/
theorem Ends.after {site' : Site} {m m₁ m' : Machine} {w w₁ : World}
    {s s₁ : State} {stack : List Item} {flow : Flow}
    (h : Ends c roots fs before full callers site base i site' m₁ w₁ s₁ stop
      stack m' flow) (hreach : Reaches c s s₁)
    (hmoved : Moved roots site.own base m m₁ w w₁) :
    Ends c roots fs before full callers site base i site' m w s stop stack m'
      flow := by
  cases flow with
  | next =>
      obtain ⟨w', hreach', hagree, hmoved'⟩ := h
      exact ⟨w', hreach.trans hreach', hagree, hmoved.trans hmoved'⟩
  | returned v =>
      obtain ⟨item, w', place, rest, hleave, hreach', hrep, hshares,
        hmoved'⟩ := h
      exact ⟨item, w', place, rest, hleave, hreach.trans hreach', hrep,
        hshares, hmoved.trans hmoved'⟩

theorem Follows.tick {limits : Limits} {span : Span} {x : Run Flow}
    {site' : Site} (h : Follows c roots fs before full callers site base i x
      start stop site') :
    Follows c roots fs before full callers site base i
      (do Run.tick limits span; x) start stop site' := by
  intro stack m w flow m' hagree hrun
  obtain ⟨u, m₁, htick, hrun⟩ := bind_ok.1 hrun
  obtain ⟨hheap, hsink⟩ := tick_ok htick
  exact (h stack m₁ w flow m' (hagree.of_eq hheap hsink) hrun).after
    (.refl ..) (.of_heap_eq hheap rfl)

-- ============================================================== literals

theorem Simulates.constant {k : Constant}
    (h : PushAt c.constants full start k) :
    Simulates c roots fs before full callers site base i (pure k.value) start
      (start + 1) := by
  intro stack m w v m' hagree hrun
  obtain ⟨rfl, rfl⟩ := pure_ok.1 hrun
  exact ⟨.constant k, w, .push h, .constant k, hagree, .refl ..⟩

-- ============================================================ variables

theorem lookup_ok {place : Place} {name : String} {span : Span} {v : Value}
    {m m' : Machine} (h : Run.lookup place name span m = .ok v m') :
    m' = m ∧ m.heap.get? place.scope name = some v := by
  unfold Run.lookup at h
  obtain ⟨m₁, m₂, hget, h⟩ := bind_ok.1 h
  obtain ⟨rfl, rfl⟩ := get_ok.1 hget
  cases hv : m.heap.get? place.scope name with
  | none =>
      rw [hv] at h
      exact (throw_ok.1 h).elim
  | some v' =>
      rw [hv] at h
      obtain ⟨rfl, rfl⟩ := pure_ok.1 h
      exact ⟨rfl, rfl⟩

theorem assign_ok {place : Place} {target : Ident} {v : Value} {u : Unit}
    {m m' : Machine} (h : Run.assign place target v m = .ok u m') :
    ∃ j, m.heap.owner? place.scope target.name = some j
      ∧ m' = bound m j target.name v := by
  unfold Run.assign at h
  obtain ⟨m₁, m₂, hget, h⟩ := bind_ok.1 h
  obtain ⟨rfl, rfl⟩ := get_ok.1 hget
  cases hj : m.heap.owner? place.scope target.name with
  | none =>
      rw [hj] at h
      exact (throw_ok.1 h).elim
  | some j =>
      rw [hj] at h
      exact ⟨j, rfl, (modify_ok.1 h).symm⟩

theorem Simulates.variable {place : Place} {name : String} {span : Span}
    {s : Symbol} {load : Instr} (hvar : site.symbol? roots name = some s)
    (hload : IsLoad s load) (h : full[start]? = some load) :
    Simulates c roots fs before full callers site base place.scope
      (Run.lookup place name span) start (start + 1) := by
  intro stack m w v m' hagree hrun
  obtain ⟨rfl, hv⟩ := lookup_ok hrun
  obtain ⟨item, hread, hrep⟩ := hagree.read hv hvar
  exact ⟨item, w, .load hload h hread, hrep, hagree, .refl ..⟩

theorem Simulates.assign (hlinked : Linked c roots fs)
    (hsound : site.Sound roots) {place : Place} {target : Ident}
    {s : Symbol} {load store : Instr}
    (hx : Simulates c roots fs before full callers site base place.scope x
      start j)
    (hvar : site.symbol? roots target.name = some s)
    (hstore : IsStore s store) (h : full[j]? = some store)
    (hload : IsLoad s load) (h' : full[j + 1]? = some load) :
    Simulates c roots fs before full callers site base place.scope
      (do let v ← x; Run.assign place target v; return v) start (j + 2) := by
  intro stack m w v m' hagree hrun
  obtain ⟨v', m₁, hvalue, hrun⟩ := bind_ok.1 hrun
  obtain ⟨u, m₂, hassign, hrun⟩ := bind_ok.1 hrun
  obtain ⟨rfl, rfl⟩ := pure_ok.1 hrun
  obtain ⟨owner, howner, rfl⟩ := assign_ok hassign
  obtain ⟨item, w₁, hreach, hrep, hagree₁, hmoved₁⟩ :=
    hx stack m w v' m₁ hagree hvalue
  obtain ⟨scope, old, kept, -, -, -, -, hhas⟩ := hagree₁.owner howner hvar
  obtain ⟨hagree₂, hmoved₂⟩ :=
    hagree₁.assign hsound hlinked.distinct howner hvar hrep
  refine ⟨item, w₁.write item s, ?_, hrep, hagree₂, hmoved₁.trans hmoved₂⟩
  exact hreach.trans ((Reaches.store hstore h hhas).trans
    (.load hload h' (World.read_write hhas item)))

-- ============================================================ operators

theorem operation_ok {span : Span} {r : Except OperandFault Value}
    {v : Value} {m m' : Machine} (h : Run.operation span r m = .ok v m') :
    m' = m ∧ r = .ok v := by
  unfold Run.operation at h
  split at h
  case h_1 =>
      obtain ⟨rfl, rfl⟩ := pure_ok.1 h
      exact ⟨rfl, rfl⟩
  case h_2 => exact (throw_ok.1 h).elim

theorem Simulates.unary {op : UnaryOp} {span : Span}
    (hx : Simulates c roots fs before full callers site base i x start j)
    (h : full[j]? = some (.unary op)) :
    Simulates c roots fs before full callers site base i
      (do let v ← x; Run.operation span (op.apply v)) start (j + 1) := by
  intro stack m w r m' hagree hrun
  obtain ⟨v, m₁, hvalue, hrun⟩ := bind_ok.1 hrun
  obtain ⟨rfl, hop⟩ := operation_ok hrun
  obtain ⟨a, w', hreach, hrep, hagree', hmoved⟩ :=
    hx stack m w v m' hagree hvalue
  obtain ⟨k, rfl⟩ := constant_of_unary hop
  exact ⟨.constant k, w',
    hreach.trans (.unary h (hrep.unary hop) (ofValue?_value k)),
    .constant k, hagree', hmoved⟩

theorem Simulates.binary (hlinked : Linked c roots fs) {op : BinaryOp}
    {span : Span}
    (hx : Simulates c roots fs before full callers site base i x start j)
    (hy : Simulates c roots fs before full callers site base i y j stop)
    (h : full[stop]? = some (.binary op)) :
    Simulates c roots fs before full callers site base i
      (do let l ← x; let r ← y; Run.operation span (op.apply l r)) start
      (stop + 1) := by
  intro stack m w u m' hagree hrun
  obtain ⟨l, m₁, hleft, hrun⟩ := bind_ok.1 hrun
  obtain ⟨r, m₂, hright, hrun⟩ := bind_ok.1 hrun
  obtain ⟨rfl, hop⟩ := operation_ok hrun
  obtain ⟨a, w₁, hreach₁, hrep₁, hagree₁, hmoved₁⟩ :=
    hx stack m w l m₁ hagree hleft
  obtain ⟨b, w₂, hreach₂, hrep₂, hagree₂, hmoved₂⟩ :=
    hy (a :: stack) m₁ w₁ r m' hagree₁ hright
  obtain ⟨k, rfl⟩ := constant_of_binary hop
  refine ⟨.constant k, w₂, ?_, .constant k, hagree₂, hmoved₁.trans hmoved₂⟩
  exact hreach₁.trans (hreach₂.trans (.binary h
    (hrep₁.binary hlinked.named hrep₂ hop) (ofValue?_value k)))

-- ================================================================ tests

theorem Represents.bool {b : Bool} {item : Item}
    (h : Represents fs (.bool b) item) : item = .constant (.bool b) := by
  generalize hv : Value.bool b = v at h
  cases h with
  | constant k =>
      cases k <;> cases hv
      rfl
  | function => cases hv

theorem truth_ok {op : BinaryOp} {span : Span} {v : Value} {b : Bool}
    {m m' : Machine} (h : truth op span v m = .ok b m') :
    m' = m ∧ v = .bool b := by
  unfold truth at h
  split at h
  case h_1 =>
      obtain ⟨rfl, rfl⟩ := pure_ok.1 h
      exact ⟨rfl, rfl⟩
  case h_2 => exact (throw_ok.1 h).elim

theorem conditionTruth_ok {keyword : String} {span : Span} {v : Value}
    {b : Bool} {m m' : Machine}
    (h : conditionTruth keyword span v m = .ok b m') :
    m' = m ∧ v = .bool b := by
  unfold conditionTruth at h
  split at h
  case h_1 =>
      obtain ⟨rfl, rfl⟩ := pure_ok.1 h
      exact ⟨rfl, rfl⟩
  case h_2 => exact (throw_ok.1 h).elim

/-- Whether the code between two places does what a test does. -/
abbrev Tests (c : Code) (roots : Names) (fs : List FnDecl)
    (before : ByteArray) (full : List Instr) (callers : List Call)
    (site : Site) (base i : ScopeId) (x : Run Bool) (start stop : Nat) :
    Prop :=
  Simulates c roots fs before full callers site base i (Value.bool <$> x)
    start stop

/-- A test takes nothing but truth values, and leaves them as they
are. -/
theorem Simulates.tests {f : Value → Run Bool}
    (hf : ∀ {v b m m'}, f v m = .ok b m' → m' = m ∧ v = .bool b)
    (hx : Simulates c roots fs before full callers site base i x start
      stop) :
    Tests c roots fs before full callers site base i (x >>= f) start stop := by
  intro stack m w v m' hagree hrun
  obtain ⟨b, htest, rfl⟩ := map_ok.1 hrun
  obtain ⟨u, m₁, hvalue, hf'⟩ := bind_ok.1 htest
  obtain ⟨rfl, rfl⟩ := hf hf'
  exact hx stack m w _ _ hagree hvalue

/-- A test with two outcomes. -/
theorem Simulates.branch {no : Nat} {z : Run Value} {cond : Run Bool}
    (hcond : Tests c roots fs before full callers site base i cond start j)
    (htest : full[j]? = some (.jumpIfFalse no))
    (htrue : Simulates c roots fs before full callers site base i y (j + 1)
      stop)
    (hfalse : Simulates c roots fs before full callers site base i z no
      stop) :
    Simulates c roots fs before full callers site base i
      (do if ← cond then y else z) start stop := by
  intro stack m w v m' hagree hrun
  obtain ⟨b, m₁, hb, hrest⟩ := bind_ok.1 hrun
  obtain ⟨item, w₁, hreach₁, hrep₁, hagree₁, hmoved₁⟩ :=
    hcond stack m w (.bool b) m₁ hagree (map_ok.2 ⟨b, hb, rfl⟩)
  obtain rfl := hrep₁.bool
  cases b with
  | true =>
      obtain ⟨item, w₂, hreach₂, hrep₂, hagree₂, hmoved₂⟩ :=
        htrue stack m₁ w₁ v m' hagree₁ hrest
      exact ⟨item, w₂,
        hreach₁.trans ((Reaches.jumpIfTrue htest).trans hreach₂), hrep₂,
        hagree₂, hmoved₁.trans hmoved₂⟩
  | false =>
      obtain ⟨item, w₂, hreach₂, hrep₂, hagree₂, hmoved₂⟩ :=
        hfalse stack m₁ w₁ v m' hagree₁ hrest
      exact ⟨item, w₂,
        hreach₁.trans ((Reaches.jumpIfFalse htest).trans hreach₂), hrep₂,
        hagree₂, hmoved₁.trans hmoved₂⟩

/-- Code with a jump behind it. -/
theorem Simulates.jump {target : Nat}
    (hx : Simulates c roots fs before full callers site base i x start stop)
    (h : full[stop]? = some (.jump target)) :
    Simulates c roots fs before full callers site base i x start target := by
  intro stack m w v m' hagree hrun
  obtain ⟨item, w', hreach, hrep, hagree', hmoved⟩ :=
    hx stack m w v m' hagree hrun
  exact ⟨item, w', hreach.trans (.jump h), hrep, hagree', hmoved⟩

-- ============================================================ arguments

theorem SimulatesAll.nil :
    SimulatesAll c roots fs before full callers site base i (pure []) start
      start := by
  intro stack m w vs m' hagree hrun
  obtain ⟨rfl, rfl⟩ := pure_ok.1 hrun
  exact ⟨[], w, .refl .., .nil, hagree, .refl ..⟩

theorem SimulatesAll.cons {xs : Run (List Value)}
    (hx : Simulates c roots fs before full callers site base i x start j)
    (hxs : SimulatesAll c roots fs before full callers site base i xs j
      stop) :
    SimulatesAll c roots fs before full callers site base i
      (do return (← x) :: (← xs)) start stop := by
  intro stack m w vs m' hagree hrun
  obtain ⟨v, m₁, hfirst, hrun⟩ := bind_ok.1 hrun
  obtain ⟨vs', m₂, hrest, hrun⟩ := bind_ok.1 hrun
  obtain ⟨rfl, rfl⟩ := pure_ok.1 hrun
  obtain ⟨item, w₁, hreach₁, hrep, hagree₁, hmoved₁⟩ :=
    hx stack m w v m₁ hagree hfirst
  obtain ⟨items, w₂, hreach₂, hreps, hagree₂, hmoved₂⟩ :=
    hxs (item :: stack) m₁ w₁ vs' m₂ hagree₁ hrest
  refine ⟨item :: items, w₂, ?_, .cons hrep hreps, hagree₂,
    hmoved₁.trans hmoved₂⟩
  rw [List.reverse_cons, List.append_assoc]
  exact hreach₁.trans hreach₂

end Script.Stack
