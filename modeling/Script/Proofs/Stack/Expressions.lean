/-
The code of expressions does what evaluating them does. The proof is by
the fuel of the evaluator, since a call leads to a body that is not a part
of the call; what is assumed of less fuel is `Expressions` and
`Statements`, for every place in every function.
-/
import Script.Proofs.Stack.Simulates

namespace Script.Stack

open Code Eval Script.Action

section

variable (c : Code) (roots : Names) (fs : List FnDecl) (before : ByteArray)
  (limits : Limits)

/-- With a fuel, the code of every expression does what evaluating it
does. -/
def Expressions (fuel : Nat) : Prop :=
  ∀ full callers site base place e start stop, site.Sound roots →
    ExprAt c.constants roots full site start e stop →
      Simulates c roots fs before full callers site base place.scope
        (eval limits fuel place e) start stop

/-- With a fuel, the code of every statement does what running it
does. -/
def Statements (fuel : Nat) : Prop :=
  ∀ full callers site base place s start stop site', site.Sound roots →
    StmtAt c.constants roots full site start s stop site' →
      Follows c roots fs before full callers site base place.scope
        (exec limits fuel place s) start stop site'

end

variable {c : Code} {roots : Names} {fs : List FnDecl} {before : ByteArray}
  {full : List Instr} {callers : List Call} {site site' site'' : Site}
  {base i : ScopeId} {start j stop : Nat} {limits : Limits} {fuel : Nat}
  {place : Place}

-- ============================================================ sequences

theorem Declares.own_eq {name : String} {x : Symbol}
    (h : Declares roots name site x site') : site'.own = site.own := by
  cases h <;> rfl

theorem StmtAt.own_eq {s : Stmt}
    (h : StmtAt c.constants roots full site start s stop site') :
    site'.own = site.own := by
  cases h with
  | declare hinit hdecl hstore h => exact hdecl.own_eq
  | _ => rfl

theorem StmtAt.sound {s : Stmt}
    (h : StmtAt c.constants roots full site start s stop site')
    (hsound : site.Sound roots) : site'.Sound roots := by
  cases h with
  | declare hinit hdecl hstore h => exact hdecl.sound hsound
  | _ => exact hsound

theorem Follows.done :
    Follows c roots fs before full callers site base i (pure .next) start
      start site := by
  intro stack m w flow m' hagree hrun
  obtain ⟨rfl, rfl⟩ := pure_ok.1 hrun
  exact ⟨w, .refl .., hagree, .refl ..⟩

/-- One action behind the other, unless the first one returns. -/
theorem Follows.andThen {x y : Run Flow}
    (hx : Follows c roots fs before full callers site base i x start j site')
    (hown : site'.own = site.own)
    (hy : Follows c roots fs before full callers site' base i y j stop
      site'') :
    Follows c roots fs before full callers site base i
      (do match ← x with
          | .next => y
          | .returned v => return .returned v) start stop site'' := by
  intro stack m w flow m' hagree hrun
  obtain ⟨flow₁, m₁, hfirst, hrest⟩ := bind_ok.1 hrun
  have hflow₁ := hx stack m w flow₁ m₁ hagree hfirst
  cases flow₁ with
  | returned v =>
      obtain ⟨rfl, rfl⟩ := pure_ok.1 hrest
      exact hflow₁
  | next =>
      obtain ⟨w₁, hreach₁, hagree₁, hmoved₁⟩ := hflow₁
      have hflow := hy stack m₁ w₁ flow m' hagree₁ hrest
      unfold Ends at hflow ⊢
      rw [hown] at hflow
      exact Ends.after hflow hreach₁ hmoved₁

theorem Follows.sequence {ss : List Stmt}
    (hexec : Statements c roots fs before limits fuel)
    (hsound : site.Sound roots)
    (h : StmtsAt c.constants roots full site start ss stop site') :
    Follows c roots fs before full callers site base place.scope
      (sequence (fun s => exec limits fuel place s) ss) start stop site' := by
  induction ss generalizing site start with
  | nil =>
      cases h
      exact .done
  | cons s ss ih =>
      cases h with
      | cons hs hss =>
          exact .andThen (hexec _ _ _ _ _ s _ _ _ hsound hs) hs.own_eq
            (ih (hs.sound hsound) hss)

-- ================================================================ calls

theorem callable_ok {callee call : Span} {count : Nat} {v : Value}
    {closure : Closure} {m m' : Machine}
    (h : callable callee call count v m = .ok closure m') :
    m' = m ∧ v = .function closure ∧ count = closure.arity := by
  unfold callable at h
  split at h
  case h_1 closure' =>
      split at h
      · exact (throw_ok.1 h).elim
      · rename_i hcount
        obtain ⟨rfl, rfl⟩ := pure_ok.1 h
        exact ⟨rfl, rfl, by simpa using hcount⟩
  case h_2 => exact (throw_ok.1 h).elim

/-- A call is made in a new scope, inside of the captured one. -/
theorem enter_ok {closure : Closure} {vs : List Value} {call : Span}
    {inner : Place} {m m' : Machine}
    (h : enter limits place closure vs call m = .ok inner m') :
    inner = ⟨m.heap.scopes.size, place.depth + 1⟩
      ∧ ∃ u, ((closure.decl.params.zip vs).forM fun (p, v) =>
        Run.define inner p.name v : Run Unit)
          (inside m closure.scope) = .ok u m' := by
  unfold enter at h
  split at h
  case isTrue => exact (throw_ok.1 h).elim
  case isFalse =>
      obtain ⟨id, m₁, hchild, h⟩ := bind_ok.1 h
      obtain ⟨u, m₂, hbind, h⟩ := bind_ok.1 h
      obtain ⟨rfl, rfl⟩ := pure_ok.1 h
      obtain ⟨rfl, rfl⟩ := Prod.mk.inj (modifyGet_ok.1 hchild)
      exact ⟨rfl, u, hbind⟩

/-- Goes on behind statements for a value, unless they return one. -/
def thenValue (x : Run Flow) (y : Run Value) : Run Value := do
  match ← x with
  | .next => y
  | .returned v => return v

/-- The value of a call whose body is run by an action. -/
def bodyValue (x : Run Flow) : Run Value := thenValue x (return .nil)

theorem Represents.of_function {closure : Closure} {item : Item}
    (h : Represents fs (.function closure) item) :
    ∃ index, item = .function (index + 1) ∧ fs[index]? = some closure.decl
      ∧ closure.scope = 0 := by
  generalize hv : Value.function closure = v at h
  cases h with
  | constant k => cases k <;> cases hv
  | @function closure' index hdecl hscope =>
      cases hv
      exact ⟨index, rfl, hdecl, hscope⟩

/-- The body of a function, from a call of it to the place behind the
call. -/
theorem Shares.body (hexec : Statements c roots fs before limits fuel)
    {f : Function} {d : FnDecl} (hf : FunctionAt c roots d f)
    {m m₁ m' : Machine} {w : World} {items : List Item} {vs : List Value}
    {depth : Nat} {u : Unit} {v : Value} (full : List Instr)
    (callers : List Call) (stop : Nat) (stack : List Item)
    (hshares : Shares fs roots c.globals.length before m w)
    (hreps : List.Forall₂ (Represents fs) vs items)
    (hlength : vs.length = d.params.length)
    (hbind : ((d.params.zip vs).forM fun (p, v) =>
      Run.define ⟨m.heap.scopes.size, depth⟩ p.name v : Run Unit)
        (inside m 0) = .ok u m₁)
    (hrun : bodyValue (sequence
      (fun s => exec limits fuel ⟨m.heap.scopes.size, depth⟩ s)
      d.body.statements) m₁ = .ok v m') :
    ∃ item w', Reaches c
        ((w.enter items f.locals.length).state f.code
          (⟨full, stop, w.slots, stack⟩ :: callers) 0 [])
        ((w.resume w').state full callers stop (item :: stack))
      ∧ Represents fs v item
      ∧ Shares fs roots c.globals.length before m' w'
      ∧ Moved roots true m.heap.scopes.size m m' w w' := by
  obtain ⟨k, site', hbody, hnil, hleave⟩ := hf.body
  obtain ⟨hagree, hmoved, hsound⟩ :=
    hshares.enter hreps hlength hf.room hbind
  obtain ⟨flow, m₂, hflow, hrest⟩ := bind_ok.1 hrun
  have hfollows : Follows c roots fs before f.code
      (⟨full, stop, w.slots, stack⟩ :: callers) (.body d f)
      m.heap.scopes.size (Place.mk m.heap.scopes.size depth).scope
      (sequence (fun s => exec limits fuel ⟨m.heap.scopes.size, depth⟩ s)
        d.body.statements) 0 k site' := .sequence hexec hsound hbody
  have hends := hfollows [] m₁ _ flow m₂ hagree hflow
  cases flow with
  | next =>
      obtain ⟨rfl, rfl⟩ := pure_ok.1 hrest
      obtain ⟨w', hreach, hagree', hmoved'⟩ := hends
      exact ⟨.constant .nil, w',
        hreach.trans ((Reaches.push hnil).trans (.leave hleave)),
        .constant .nil, hagree'.toShares, hmoved.trans hmoved'⟩
  | returned v' =>
      obtain ⟨rfl, rfl⟩ := pure_ok.1 hrest
      obtain ⟨item, w', k', rest, hleave', hreach, hrep, hshares',
        hmoved'⟩ := hends
      exact ⟨item, w', hreach.trans (.leave hleave'), hrep, hshares',
        hmoved.trans hmoved'⟩

theorem Simulates.call (hlinked : Linked c roots fs)
    (hexec : Statements c roots fs before limits fuel)
    (hsound : site.Sound roots) {x : Run Value} {xs : Run (List Value)}
    {count : Nat} {callee span : Span}
    (hx : Simulates c roots fs before full callers site base i x start j)
    (hxs : SimulatesAll c roots fs before full callers site base i xs j
      stop)
    (hcount : ∀ m vs m', xs m = .ok vs m' → vs.length = count)
    (h : full[stop]? = some (.call count)) :
    Simulates c roots fs before full callers site base i
      (do
        let f ← x
        let closure ← callable callee span count f
        let vs ← xs
        let inner ← enter limits place closure vs span
        bodyValue (sequence (fun s => exec limits fuel inner s)
          closure.decl.body.statements)) start (stop + 1) := by
  intro stack m w v m' hagree hrun
  obtain ⟨fv, m₁, hcallee, hrun₁⟩ := bind_ok.1 hrun
  obtain ⟨closure, m₂, hcallable, hrun₂⟩ := bind_ok.1 hrun₁
  obtain ⟨rfl, rfl, harity⟩ := callable_ok hcallable
  obtain ⟨vs, m₃, hargs, hrun₃⟩ := bind_ok.1 hrun₂
  obtain ⟨inner, m₄, henter, hbody⟩ := bind_ok.1 hrun₃
  obtain ⟨rfl, u, hbind⟩ := enter_ok henter
  obtain ⟨fitem, w₁, hreach₁, hrep₁, hagree₁, hmoved₁⟩ :=
    hx stack m w _ _ hagree hcallee
  obtain ⟨items, w₂, hreach₂, hreps, hagree₂, hmoved₂⟩ :=
    hxs (fitem :: stack) _ w₁ vs m₃ hagree₁ hargs
  obtain ⟨index, rfl, hdecl, hscope⟩ := hrep₁.of_function
  obtain ⟨f, hf, hfunction⟩ := hlinked.functions index closure.decl hdecl
  have hlength := hcount _ vs m₃ hargs
  have hitems : items.length = count := hreps.length_eq.symm.trans hlength
  rw [hscope] at hbind
  obtain ⟨item, w₃, hreach₃, hrep, hshares, hmoved₃⟩ :=
    hagree₂.toShares.body hexec hfunction full callers (stop + 1) stack
      hreps (hlength.trans harity) hbind hbody
  obtain ⟨hagree₄, hmoved₄⟩ := hagree₂.resume hsound hshares hmoved₃
  refine ⟨item, w₂.resume w₃, ?_, hrep, hagree₄,
    hmoved₁.trans (hmoved₂.trans hmoved₄)⟩
  have hcall : Reaches c (w₂.state full callers stop
        (items.reverse ++ .function (index + 1) :: stack))
      ((w₂.enter items f.locals.length).state f.code
        (⟨full, stop + 1, w₂.slots, stack⟩ :: callers) 0 []) :=
    .call (hitems.symm ▸ h) hf
      (hfunction.arity.trans (harity.symm.trans hitems.symm))
  exact hreach₁.trans (hreach₂.trans (hcall.trans hreach₃))

-- ========================================================== expressions

theorem length_of_mapM {es : List Expr} {f : Expr → Run Value}
    {m m' : Machine} {vs : List Value} (h : es.mapM f m = .ok vs m') :
    vs.length = es.length := by
  induction es generalizing m m' vs with
  | nil =>
      obtain ⟨rfl, -⟩ := pure_ok.1 h
      rfl
  | cons e es ih =>
      rw [List.mapM_cons] at h
      obtain ⟨v, m₁, -, h⟩ := bind_ok.1 h
      obtain ⟨vs', m₂, hrest, h⟩ := bind_ok.1 h
      obtain ⟨rfl, -⟩ := pure_ok.1 h
      rw [List.length_cons, List.length_cons, ih hrest]

theorem SimulatesAll.arguments {es : List Expr}
    (heval : Expressions c roots fs before limits fuel)
    (hsound : site.Sound roots)
    (h : ExprsAt c.constants roots full site start es stop) :
    SimulatesAll c roots fs before full callers site base place.scope
      (es.mapM fun e => eval limits fuel place e) start stop := by
  induction es generalizing start with
  | nil =>
      cases h
      exact .nil
  | cons e es ih =>
      cases h with
      | cons he hes =>
          rw [List.mapM_cons]
          exact .cons (heval _ _ _ _ _ _ _ _ hsound he) (ih hes)

/-- A conjunction is a test for the right operand. -/
theorem and_eq (x y : Run Value) (f g : Value → Run Bool) :
    (do
      let l ← x
      let l ← f l
      if l == (BinaryOp.and == BinaryOp.or) then return .bool l
      else
        let r ← y
        return .bool (← g r) : Run Value) =
    (do if ← x >>= f then Value.bool <$> (y >>= g)
        else pure (.bool false)) := by
  simp only [bind_assoc, map_eq_pure_bind]
  refine congrArg _ (funext fun l => congrArg _ (funext fun b => ?_))
  cases b <;> rfl

/-- A disjunction is a test against the right operand. -/
theorem or_eq (x y : Run Value) (f g : Value → Run Bool) :
    (do
      let l ← x
      let l ← f l
      if l == (BinaryOp.or == BinaryOp.or) then return .bool l
      else
        let r ← y
        return .bool (← g r) : Run Value) =
    (do if ← x >>= f then pure (.bool true)
        else Value.bool <$> (y >>= g)) := by
  simp only [bind_assoc, map_eq_pure_bind]
  refine congrArg _ (funext fun l => congrArg _ (funext fun b => ?_))
  cases b <;> rfl

/-- One more unit of fuel. -/
theorem Expressions.succ (hlinked : Linked c roots fs)
    (heval : Expressions c roots fs before limits fuel)
    (hexec : Statements c roots fs before limits fuel) :
    Expressions c roots fs before limits (fuel + 1) := by
  intro full callers site base place e start stop hsound h
  have hpart {e : Expr} {i j : Nat}
      (h : ExprAt c.constants roots full site i e j) :=
    heval full callers site base place e i j hsound h
  unfold eval
  refine .tick ?_
  cases h with
  | number h => exact .constant h
  | string h => exact .constant h
  | bool h => exact .constant h
  | nil h => exact .constant h
  | ident hvar hload h => exact .variable hvar hload h
  | group he => exact hpart he
  | unary he h => exact .unary (hpart he) h
  | binary hop hl hr h =>
      simp only [hop]
      exact .binary hlinked (hpart hl) (hpart hr) h
  | and hl htest hr hskip hfalse =>
      refine .of_eq (and_eq _ _ _ _) ?_
      exact .branch ((hpart hl).tests truth_ok) htest
        (((hpart hr).tests truth_ok).jump hskip) (.constant hfalse)
  | or hl htest htrue hskip hr =>
      refine .of_eq (or_eq _ _ _ _) ?_
      exact .branch ((hpart hl).tests truth_ok) htest
        (.jump (.constant htrue) hskip) ((hpart hr).tests truth_ok)
  | assign he hvar hstore h hload h' =>
      exact .assign hlinked hsound (hpart he) hvar hstore h hload h'
  | call hcallee hargs h =>
      exact .call hlinked hexec hsound (hpart hcallee)
        (.arguments heval hsound hargs) (fun _ _ _ => length_of_mapM) h

end Script.Stack
