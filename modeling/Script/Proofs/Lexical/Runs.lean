/-
Runs of well named trees. Evaluating an expression leaves all scopes with
the names they had; a statement adds to its own scope the names that it
declares, and to no other. Both are shown together, by induction on the
fuel. Calls are where the levels change: the body of a function runs in
the scopes around its declaration, and those of the caller wait.
-/
import Script.Proofs.Lexical.Keeps

namespace Script.Lexical

open Code Eval

variable {p : Program} {w w' : Watch} {homes homes' : List Home}
  {E : Env} {i : ScopeId} {v : Value} {α β : Type} {limits : Limits}
  {fuel : Nat} {place : Place} {t : Names}

/-- What an action keeps that leaves all scopes with the names they
had. -/
def KeepsStill (p : Program) (x : Watched α) (w : Watch)
    (homes : List Home) (R : α → Watch → List Home → Prop) : Prop :=
  Keeps p x w fun a w' homes' =>
    Still w homes w' homes' ∧ R a w' homes'

/-- What evaluating expressions keeps. -/
def Expressions (p : Program) (limits : Limits) (fuel : Nat) : Prop :=
  ∀ (place : Place) (e : Expr) (E : Env) (w : Watch) (homes : List Home),
    Sound p w homes → Running p w homes E place.scope → ExprNamed p E e →
      KeepsStill p (Watched.eval limits fuel place e) w homes
        fun v w' homes' => ValueFits p w' homes' v

/-- What holds behind a statement: if it goes on, the block knows the
names declared. -/
def FlowFits (p : Program) (w : Watch) (homes : List Home) (E : Env)
    (i : ScopeId) : Flow → Prop
  | .next => Running p w homes E i
  | .returned v => ValueFits p w homes v

/-- What running statements keeps. -/
def Statements (p : Program) (limits : Limits) (fuel : Nat) : Prop :=
  ∀ (place : Place) (s : Stmt) (E : Env) (t : Names) (w : Watch)
    (homes : List Home),
    Sound p w homes → Running p w homes E place.scope → StmtNamed p E s t →
      Keeps p (Watched.exec limits fuel place s) w fun flow w' homes' =>
        Moved place.scope w homes w' homes'
          ∧ FlowFits p w' homes' (E.knowing t) place.scope flow

-- =============================================================== actions

section

variable {x : Watched α} {f : α → Watched β}
  {R : α → Watch → List Home → Prop} {S : β → Watch → List Home → Prop}

theorem KeepsStill.pure {a : α} (h : Sound p w homes) (hR : R a w homes) :
    KeepsStill p (pure a) w homes R :=
  Keeps.pure h ⟨.refl w homes, hR⟩

theorem KeepsStill.bind (hx : KeepsStill p x w homes R)
    (hf : ∀ a w' homes', Sound p w' homes' → Still w homes w' homes' →
      R a w' homes' → KeepsStill p (f a) w' homes' S) :
    KeepsStill p (x >>= f) w homes S := by
  refine Keeps.bind hx fun a w' homes' h' hx' => ?_
  refine (hf a w' homes' h' hx'.1 hx'.2).imp fun b w'' homes'' _ hb => ?_
  exact ⟨hx'.1.trans hb.1, hb.2⟩

theorem KeepsStill.plain {x : Run α} (hquiet : Quiet x)
    (h : Sound p w homes)
    (hR : ∀ a m, x w.machine = .ok a m →
      Still w homes { w with machine := m } homes →
        R a { w with machine := m } homes) :
    KeepsStill p (Watched.plain x) w homes R :=
  Keeps.plain hquiet h fun a m hx hstill => ⟨hstill, hR a m hx hstill⟩

/-- A fault ends everything. -/
theorem KeepsStill.fail {g : Eval.Fault} {span : Span}
    (hg : (g.topic == .name) = false) (h : Sound p w homes) :
    KeepsStill p (Watched.plain (Run.fail g span) : Watched α) w homes R :=
  .plain (.fail hg span) h fun _ _ hfail _ => (Action.throw_ok.1 hfail).elim

theorem KeepsStill.ite {c : Prop} [Decidable c] {y : Watched α}
    (hx : KeepsStill p x w homes R) (hy : KeepsStill p y w homes R) :
    KeepsStill p (if c then x else y) w homes R :=
  Keeps.ite (fun _ => hx) fun _ => hy

/-- Counting a step in front of an action. -/
theorem KeepsStill.tick {span : Span} {y : Watched α}
    (h : Sound p w homes)
    (hy : ∀ w', Sound p w' homes → Still w homes w' homes →
      KeepsStill p y w' homes R) :
    KeepsStill p (do Watched.plain (Run.tick limits span); y) w homes R := by
  refine Keeps.bind (Q := fun _ w' homes' => homes' = homes
    ∧ Still w homes w' homes) (.plain (.tick limits span) h
      fun _ _ _ hstill => ⟨rfl, hstill⟩) fun _ w' homes' h' hx' => ?_
  obtain ⟨rfl, hstill⟩ := hx'
  refine (hy w' h' hstill).imp fun b w'' homes'' _ hb => ?_
  exact ⟨hstill.trans hb.1, hb.2⟩

end

theorem Running.running (h : Running p w homes E i) (s : Stmt) :
    Running p w homes (E.running s) i := by
  obtain ⟨is, js, hchain, hown, haround⟩ := h.fits
  obtain ⟨hhead, htail⟩ := List.pairwise_cons.1 h.last
  cases hown with
  | @cons _ j _ is hhere hown =>
  obtain ⟨⟨hhome, hpart, hbound, htop⟩, hexact⟩ := hhere
  obtain ⟨hknown, hothers⟩ := List.forall_mem_cons.1 h.known
  exact ⟨⟨j :: is, js, hchain,
    .cons ⟨⟨hhome, hpart, hbound, htop⟩, hexact⟩ hown, haround⟩,
    .cons hhead htail, List.forall_mem_cons.2 ⟨hknown, hothers⟩, h.placed⟩

-- ============================================================ statements

/-- What is left of the flow behind a block. -/
def Returns (p : Program) (flow : Flow) (w : Watch) (homes : List Home) :
    Prop :=
  ∀ v, flow = .returned v → ValueFits p w homes v

theorem Returns.next : Returns p .next w homes := fun _ h => by cases h

theorem Returns.returned (h : ValueFits p w homes v) :
    Returns p (.returned v) w homes := by
  intro u hu
  cases hu
  exact h

theorem Keeps.sequence (place : Place)
    (hexec : Statements p limits fuel) {ss : List Stmt}
    (h : Sound p w homes) (hrun : Running p w homes E place.scope)
    (hss : StmtsNamed p E ss) :
    Keeps p (sequence (fun s => Watched.exec limits fuel place s) ss)
      w fun flow w' homes' =>
        Moved place.scope w homes w' homes' ∧ Returns p flow w' homes' := by
  induction ss generalizing E w homes with
  | nil => exact .pure h ⟨.refl .., .next⟩
  | cons s ss ih =>
      cases hss with
      | cons hs hss =>
          refine .bind (hexec place s _ _ w homes h (hrun.running s) hs)
            fun flow w₁ homes₁ h₁ hflow => ?_
          obtain ⟨hmoved, hfits⟩ := hflow
          cases flow with
          | next =>
              refine (ih h₁ hfits hss).imp fun flow w₂ homes₂ _ hrest => ?_
              exact ⟨hmoved.trans hrest.1, hrest.2⟩
          | returned v => exact .pure h₁ ⟨hmoved, .returned hfits⟩

/-- A block runs in a scope of its own, so no scope that there was gets a
name. -/
theorem KeepsStill.block (hexec : Statements p limits fuel)
    {ss : List Stmt} (h : Sound p w homes)
    (hrun : Running p w homes E place.scope) (hss : BlockNamed p E ss) :
    KeepsStill p (do
      let inner : Place :=
        ⟨← Watched.plain (Run.child place.scope), place.depth⟩
      sequence (fun s => Watched.exec limits fuel inner s) ss)
      w homes (Returns p) := by
  cases hss with
  | mk home htop hss =>
      refine Keeps.bind (Keeps.openBlock htop h hrun)
        fun id w₁ homes₁ h₁ hid => ?_
      obtain ⟨rfl, hstill, hrun₁⟩ := hid
      refine (Keeps.sequence ⟨_, place.depth⟩ hexec h₁ hrun₁ hss).imp
        fun flow w₂ homes₂ _ hflow => ?_
      exact ⟨((hstill _).trans hflow.1).still (Nat.le_refl _), hflow.2⟩

theorem KeepsStill.repeatWhile {cond : Watched Bool} {body : Watched Flow}
    (hcond : ∀ w homes, Sound p w homes → Running p w homes E i →
      KeepsStill p cond w homes fun _ _ _ => True)
    (hbody : ∀ w homes, Sound p w homes → Running p w homes E i →
      KeepsStill p body w homes (Returns p))
    (h : Sound p w homes) (hrun : Running p w homes E i) (fuel : Nat) :
    KeepsStill p (repeatWhile cond body fuel) w homes
      (Returns p) := by
  induction fuel generalizing w homes with
  | zero => exact Keeps.starved h
  | succ fuel ih =>
      refine .bind (hcond w homes h hrun) fun b w₁ homes₁ h₁ hstill _ => ?_
      have hrun₁ := hrun.later h.size hstill
      refine .ite ?_ (.pure h₁ .next)
      refine .bind (hbody w₁ homes₁ h₁ hrun₁)
        fun flow w₂ homes₂ h₂ hstill₂ hflow => ?_
      cases flow with
      | next => exact ih h₂ (hrun₁.later h₁.size hstill₂)
      | returned v => exact .pure h₂ hflow

-- ================================================================= calls

theorem KeepsStill.arguments (heval : Expressions p limits fuel)
    {es : List Expr} (h : Sound p w homes)
    (hrun : Running p w homes E place.scope)
    (hes : ∀ e ∈ es, ExprNamed p E e) :
    KeepsStill p (es.mapM fun e => Watched.eval limits fuel place e) w homes
      fun vs w' homes' => vs.length = es.length
        ∧ ∀ v ∈ vs, ValueFits p w' homes' v := by
  induction es generalizing w homes with
  | nil =>
      exact .pure h ⟨rfl, fun _ hv => absurd hv List.not_mem_nil⟩
  | cons e es ih =>
      obtain ⟨he, hes⟩ := List.forall_mem_cons.1 hes
      rw [List.mapM_cons]
      refine .bind (heval place e E w homes h hrun he)
        fun v w₁ homes₁ h₁ hstill₁ hv => ?_
      refine .bind (ih h₁ (hrun.later h.size hstill₁) hes)
        fun vs w₂ homes₂ h₂ hstill₂ hvs => ?_
      refine .pure h₂ ⟨congrArg (· + 1) hvs.1, ?_⟩
      exact List.forall_mem_cons.2
        ⟨hv.later h₁.size (hstill₂ 0), hvs.2⟩

/-- Binding the arguments of a call to the parameters. -/
theorem Keeps.parameters (place : Place) {ps : List Ident}
    {vs : List Value} (hlength : ps.length = vs.length) (h : Sound p w homes)
    (hrun : Running p w homes E place.scope)
    (hps : MakesAll p E.here ps t)
    (hvs : ∀ v ∈ vs, ValueFits p w homes v) :
    Keeps p ((ps.zip vs).forM fun (x, v) => Watched.define place x v) w
      fun _ w' homes' => Moved place.scope w homes w' homes'
        ∧ Running p w' homes' (E.knowing t) place.scope := by
  induction ps generalizing E vs w homes with
  | nil =>
      cases hps
      exact .pure h ⟨.refl .., hrun⟩
  | cons x ps ih =>
      cases vs with
      | nil => cases hlength
      | cons v vs =>
          obtain ⟨hv, hvs⟩ := List.forall_mem_cons.1 hvs
          cases hps with
          | cons hx hps =>
              refine .bind (.define h hrun hx fun _ hmoved _ =>
                hv.later h.size hmoved) fun _ w₁ homes₁ h₁ hdefine => ?_
              obtain ⟨hmoved, hrun₁⟩ := hdefine
              have hvs₁ : ∀ v ∈ vs, ValueFits p w₁ homes₁ v := fun v hv =>
                (hvs v hv).later h.size hmoved
              refine (ih (Nat.succ.inj hlength) h₁ hrun₁ hps hvs₁).imp
                fun _ w₂ homes₂ _ hrest => ?_
              exact ⟨hmoved.trans hrest.1, hrest.2⟩

/-- Entering a function: its body is well named in the new scope, which no
one else has seen. -/
theorem KeepsStill.enter {c : Closure} {vs : List Value} {call : Span}
    (h : Sound p w homes) (hc : ValueFits p w homes (.function c))
    (hlength : c.decl.params.length = vs.length)
    (hvs : ∀ v ∈ vs, ValueFits p w homes v) :
    KeepsStill p (Watched.enter limits place c vs call) w homes
      fun inner w' homes' => w.machine.heap.scopes.size ≤ inner.scope
        ∧ ∃ E, Running p w' homes' E inner.scope
          ∧ StmtsNamed p E c.decl.body.statements := by
  obtain ⟨E, hd, hcaptured⟩ := hc c rfl
  cases hd with
  | @mk _ _ t home htop hplaced hparams hss =>
  unfold Watched.enter
  refine .ite (.bind (R := fun _ _ _ => False) (.fail rfl h)
    fun _ _ _ _ _ hfalse => hfalse.elim) ?_
  refine Keeps.bind (Keeps.openFunction htop h hcaptured hplaced)
    fun id w₁ homes₁ h₁ hid => ?_
  obtain ⟨rfl, hstill, hrun⟩ := hid
  have hvs₁ : ∀ v ∈ vs, ValueFits p w₁ homes₁ v := fun v hv =>
    (hvs v hv).later h.size (hstill 0)
  let inner : Place := ⟨w.machine.heap.scopes.size, place.depth + 1⟩
  refine Keeps.bind (Keeps.parameters inner hlength h₁ hrun hparams hvs₁)
    fun _ w₂ homes₂ h₂ hbound => ?_
  obtain ⟨hmoved, hrun₂⟩ := hbound
  exact .pure h₂ ⟨((hstill _).trans hmoved).still (Nat.le_refl _),
    Nat.le_refl _, _, hrun₂, hss⟩

/-- The body of a function runs in the new scope. -/
theorem KeepsStill.body (hexec : Statements p limits fuel) {c : Closure}
    {vs : List Value} {call : Span} (h : Sound p w homes)
    (hc : ValueFits p w homes (.function c))
    (hlength : c.decl.params.length = vs.length)
    (hvs : ∀ v ∈ vs, ValueFits p w homes v) :
    KeepsStill p (Watched.primitives.call limits place c vs call fun inner =>
      sequence (fun s => Watched.exec limits fuel inner s)
        c.decl.body.statements) w homes (Returns p) := by
  refine Keeps.bind (KeepsStill.enter h hc hlength hvs)
    fun inner w₁ homes₁ h₁ hinner => ?_
  obtain ⟨hstill₁, hle, E, hrun, hss⟩ := hinner
  refine (Keeps.sequence inner hexec h₁ hrun hss).imp
    fun flow w₂ homes₂ _ hflow => ?_
  exact ⟨((hstill₁ inner.scope).trans hflow.1).still hle, hflow.2⟩

/-- A call: what the body returns is the value. -/
theorem KeepsStill.call (heval : Expressions p limits fuel)
    (hexec : Statements p limits fuel) {callee : Expr} {args : List Expr}
    {span : Span} (h : Sound p w homes)
    (hrun : Running p w homes E place.scope)
    (hcallee : ExprNamed p E callee) (hargs : ∀ e ∈ args, ExprNamed p E e) :
    KeepsStill p (do
      let f ← Watched.eval limits fuel place callee
      let c ← Watched.plain (callable callee.span span args.length f)
      let vs ← args.mapM fun a => Watched.eval limits fuel place a
      match ← Watched.primitives.call limits place c vs span fun inner =>
          sequence (fun s => Watched.exec limits fuel inner s)
            c.decl.body.statements with
      | .next => return .nil
      | .returned v => return v) w homes
      fun v w' homes' => ValueFits p w' homes' v := by
  refine .bind (heval place callee E w homes h hrun hcallee)
    fun f w₁ homes₁ h₁ hstill₁ hf => ?_
  have hrun₁ := hrun.later h.size hstill₁
  refine .bind (R := fun c w' homes' =>
    ValueFits p w' homes' (.function c) ∧ args.length = c.arity)
    (.plain (.callable _ _ _ _) h₁ fun c m hc hstill => ?_)
    fun c w₂ homes₂ h₂ hstill₂ hc => ?_
  · obtain ⟨-, rfl, harity⟩ := Stack.callable_ok hc
    exact ⟨hf.later h₁.size (hstill 0), harity⟩
  obtain ⟨hc, harity⟩ := hc
  have hrun₂ := hrun₁.later h₁.size hstill₂
  refine .bind (.arguments heval h₂ hrun₂ hargs)
    fun vs w₃ homes₃ h₃ hstill₃ hvs => ?_
  obtain ⟨hlength, hvs⟩ := hvs
  refine .bind (.body hexec h₃ (hc.later h₂.size (hstill₃ 0))
    (harity.symm.trans hlength.symm) hvs)
    fun flow w₄ homes₄ h₄ _ hflow => ?_
  cases flow with
  | next => exact .pure h₄ (.of_not_function nofun)
  | returned v => exact .pure h₄ (hflow v rfl)

-- ============================================================= induction

theorem usedInAll_mem {es : List Expr} {e : Expr} {x : Ident} (he : e ∈ es)
    (hx : x ∈ e.used) : x ∈ usedInAll es := by
  induction es with
  | nil => cases he
  | cons e' es ih =>
      rcases List.mem_cons.1 he with rfl | he
      · exact List.mem_append_left _ hx
      · exact List.mem_append_right _ (ih he)

/-- One more unit of fuel. -/
theorem Expressions.succ (heval : Expressions p limits fuel)
    (hexec : Statements p limits fuel) :
    Expressions p limits (fuel + 1) := by
  intro place e E w₀ homes h₀ hrun₀ he
  unfold Watched.eval Primitives.eval
  refine .tick h₀ fun w h hstill => ?_
  have hrun := hrun₀.later h₀.size hstill
  cases e with
  | number _ x => exact .pure h (.of_not_function nofun)
  | string _ s => exact .pure h (.of_not_function nofun)
  | bool _ b => exact .pure h (.of_not_function nofun)
  | nil _ => exact .pure h (.of_not_function nofun)
  | ident span name =>
      exact Keeps.lookup h hrun (he _ (List.mem_singleton_self _))
  | group _ e => exact heval place e E w homes h hrun he
  | unary span op e =>
      refine .bind (heval place e E w homes h hrun he)
        fun v w₁ homes₁ h₁ _ _ => ?_
      exact .plain (.operation _ _) h₁ fun r m hr _ =>
        .of_unary (Stack.operation_ok hr).2
  | binary span op l r =>
      have hl : ExprNamed p E l := fun x hx =>
        he x (List.mem_append_left _ hx)
      have hr : ExprNamed p E r := fun x hx =>
        he x (List.mem_append_right _ hx)
      refine .bind (heval place l E w homes h hrun hl)
        fun v w₁ homes₁ h₁ hstill₁ _ => ?_
      have hrun₁ := hrun.later h.size hstill₁
      refine .ite ?_ ?_
      · refine .bind (R := fun _ _ _ => True)
          (.plain (.truth _ _ _) h₁ fun _ _ _ _ => trivial)
          fun b w₂ homes₂ h₂ hstill₂ _ => ?_
        refine .ite (.pure h₂ (.of_not_function nofun)) ?_
        refine .bind (heval place r E w₂ homes₂ h₂
          (hrun₁.later h₁.size hstill₂) hr) fun u w₃ homes₃ h₃ _ _ => ?_
        refine .bind (R := fun _ _ _ => True)
          (.plain (.truth _ _ _) h₃ fun _ _ _ _ => trivial)
          fun c w₄ homes₄ h₄ _ _ => ?_
        exact .pure h₄ (.of_not_function nofun)
      · refine .bind (heval place r E w₁ homes₁ h₁ hrun₁ hr)
          fun u w₂ homes₂ h₂ _ _ => ?_
        exact .plain (.operation _ _) h₂ fun r m hr _ =>
          .of_binary (Stack.operation_ok hr).2
  | assign _ target e =>
      obtain ⟨htarget, he⟩ := List.forall_mem_cons.1 he
      refine .bind (heval place e E w homes h hrun he)
        fun v w₁ homes₁ h₁ hstill₁ hv => ?_
      refine Keeps.bind (Keeps.assign h₁ (hrun.later h.size hstill₁)
        htarget hv) fun _ w₂ homes₂ h₂ hstill₂ => ?_
      exact Keeps.pure h₂ ⟨hstill₂, hv.later h₁.size (hstill₂ 0)⟩
  | call span f args =>
      refine .call heval hexec h hrun (fun x hx => ?_) fun e he' x hx => ?_
      · exact he x (List.mem_append_left _ hx)
      · exact he x (List.mem_append_right _ (usedInAll_mem he' hx))

/-- A statement that declares nothing. -/
theorem Keeps.flow {x : Watched Flow} (hsize : homes.length =
      w.machine.heap.scopes.size) (hrun : Running p w homes E i)
    (hx : KeepsStill p x w homes (Returns p)) :
    Keeps p x w fun flow w' homes' => Moved i w homes w' homes'
      ∧ FlowFits p w' homes' (E.knowing E.here.table) i flow := by
  refine Keeps.imp hx fun flow w' homes' _ hflow => ⟨hflow.1 i, ?_⟩
  cases flow with
  | next => exact hrun.later hsize hflow.1
  | returned v => exact hflow.2 v rfl

theorem Statements.succ (heval : Expressions p limits fuel)
    (hexec : Statements p limits fuel) :
    Statements p limits (fuel + 1) := by
  intro place s E t w₀ homes h₀ hrun₀ hs
  unfold Watched.exec Primitives.exec
  refine Keeps.bind (Q := fun _ w' homes' => homes' = homes
    ∧ Still w₀ homes w' homes) (.plain (.tick limits s.span) h₀
      fun _ _ _ hstill => ⟨rfl, hstill⟩) fun _ w homes' h hx => ?_
  obtain ⟨rfl, hstill⟩ := hx
  have hrun := hrun₀.later h₀.size hstill
  refine Keeps.imp (Q := fun flow w' homes'' =>
    Moved place.scope w homes' w' homes''
      ∧ FlowFits p w' homes'' (E.knowing t) place.scope flow) ?_
      fun flow w' homes'' _ hflow =>
        ⟨(hstill place.scope).trans hflow.1, hflow.2⟩
  -- A condition in front of a block.
  have hcond (keyword : String) {e : Expr} (he : ExprNamed p E e)
      (w : Watch) (homes : List Home) (h : Sound p w homes)
      (hrun : Running p w homes E place.scope) :
      KeepsStill p (do
        let v ← Watched.eval limits fuel place e
        Watched.plain (conditionTruth keyword e.span v)) w homes
        fun _ _ _ => True :=
    .bind (heval place e E w homes h hrun he) fun v w₁ homes₁ h₁ _ _ =>
      .plain (.conditionTruth _ _ _) h₁ fun _ _ _ _ => trivial
  cases hs with
  | @declare _ _ x init _ hinit hx =>
      have hrest (v : Value) (w₁ : Watch) (homes₁ : List Home)
          (h₁ : Sound p w₁ homes₁) (hstill₁ : Still w homes' w₁ homes₁)
          (hv : ValueFits p w₁ homes₁ v) :
          Keeps p (do Watched.define place x v; return Flow.next) w₁
            fun flow w' homes'' => Moved place.scope w homes' w' homes''
              ∧ FlowFits p w' homes'' (E.knowing t) place.scope flow := by
        have hrun₁ := hrun.later h.size hstill₁
        refine .bind (.define h₁ hrun₁ hx fun _ hmoved _ =>
          hv.later h₁.size hmoved) fun _ w₂ homes₂ h₂ hdefine => ?_
        exact .pure h₂ ⟨(hstill₁ _).trans hdefine.1, hdefine.2⟩
      cases init with
      | none =>
          exact hrest .nil w homes' h (.refl w homes')
            (.of_not_function nofun)
      | some e =>
          exact .bind (heval place e E w homes' h hrun (hinit e rfl))
            fun v w₁ homes₁ h₁ hv => hrest v w₁ homes₁ h₁ hv.1 hv.2
  | @function _ d _ hx hd =>
      refine .bind (.define h hrun hx fun w' _ hrun' c hc => ?_)
        fun _ w₁ homes₁ h₁ hdefine => .pure h₁ hdefine
      cases hc
      exact ⟨E.knowing t, hd, hrun'.captured⟩
  | expression he =>
      refine .flow h.size hrun (.bind (heval place _ E w homes' h hrun he)
        fun v w₁ homes₁ h₁ _ _ => .pure h₁ .next)
  | block hb => exact .flow h.size hrun (.block hexec h hrun hb)
  | branch he hb =>
      refine .flow h.size hrun (.bind (hcond "if" he w homes' h hrun)
        fun b w₁ homes₁ h₁ hstill₁ _ => .ite ?_ (.pure h₁ .next))
      exact .block hexec h₁ (hrun.later h.size hstill₁) hb
  | choice he hb hs =>
      refine .bind (hcond "if" he w homes' h hrun)
        fun b w₁ homes₁ h₁ hb₁ => ?_
      have hrun₁ := hrun.later h.size hb₁.1
      refine Keeps.imp (Q := fun flow w' homes'' =>
        Moved place.scope w₁ homes₁ w' homes''
          ∧ FlowFits p w' homes'' (E.knowing E.here.table) place.scope flow)
          (.ite (fun _ => ?_) fun _ => ?_)
          fun flow w' homes'' _ hflow =>
            ⟨(hb₁.1 place.scope).trans hflow.1, hflow.2⟩
      · exact .flow h₁.size hrun₁ (.block hexec h₁ hrun₁ hb)
      · exact hexec place _ E _ w₁ homes₁ h₁ hrun₁ hs
  | loop he hb =>
      exact .flow h.size hrun (.repeatWhile (hcond "while" he)
        (fun w homes h hrun => .block hexec h hrun hb) h hrun fuel)
  | @giveBack _ _ e he =>
      cases e with
      | none =>
          exact .pure h ⟨.refl .., .of_not_function nofun⟩
      | some e =>
          exact .flow h.size hrun (.bind
            (heval place e E w homes' h hrun (he e rfl))
            fun v w₁ homes₁ h₁ _ hv => .pure h₁ (.returned hv))
  | print he =>
      refine .flow h.size hrun (.bind (heval place _ E w homes' h hrun he)
        fun v w₁ homes₁ h₁ _ _ => .bind (R := fun _ _ _ => True)
          (.plain (.printLine _ _) h₁ fun _ _ _ _ => trivial)
          fun _ w₂ homes₂ h₂ _ _ => .pure h₂ .next)
  | empty => exact .pure h ⟨.refl .., hrun⟩

/-- Whatever the fuel, expressions and statements keep what they should. -/
theorem keeps_all (p : Program) (limits : Limits) (fuel : Nat) :
    Expressions p limits fuel ∧ Statements p limits fuel := by
  induction fuel with
  | zero =>
      refine ⟨fun place e E w homes h _ _ => ?_,
        fun place s E t w homes h _ _ => ?_⟩
      · unfold Watched.eval Primitives.eval
        exact Keeps.starved h
      · unfold Watched.exec Primitives.exec
        exact Keeps.starved h
  | succ fuel ih =>
      obtain ⟨heval, hexec⟩ := ih
      exact ⟨.succ heval hexec, .succ heval hexec⟩

-- ============================================================== programs

/-- At the top of a program, a function that is hoisted knows all names,
bound or not. -/
theorem Captured.hoisted (h : Captured w homes (topEnv p t) i)
    (d : FnDecl) : Captured w homes (hoistedEnv p d) i := by
  obtain ⟨hfits, -⟩ := h
  refine ⟨?_, List.pairwise_singleton ..⟩
  cases hchain : w.machine.heap.chain i with
  | nil =>
      rw [hchain] at hfits
      cases hfits
  | cons j js =>
      rw [hchain] at hfits
      obtain _ | ⟨hj, hjs⟩ := hfits
      cases hjs
      exact .cons ⟨hj.home, fun _ _ => id, nofun, fun _ => rfl⟩ .nil

/-- The functions at the top, in front of the first statement. -/
theorem Keeps.hoisted {ds : List FnDecl}
    (hds : ∀ d ∈ ds, FnNamed p (hoistedEnv p d) d)
    {t t' : Names} (h : Sound p w homes)
    (hrun : Running p w homes (topEnv p t) place.scope)
    (hmakes : MakesAll p (topEnv p t).here (ds.map (·.name)) t') :
    Keeps p (ds.forM (Watched.declare place)) w fun _ w' homes' =>
      Running p w' homes' (topEnv p t') place.scope := by
  induction ds generalizing t w homes with
  | nil =>
      cases hmakes
      exact .pure h hrun
  | cons d ds ih =>
      obtain ⟨hd, hds⟩ := List.forall_mem_cons.1 hds
      cases hmakes with
      | cons hx hmakes =>
          refine .bind (.define h hrun hx fun w' _ hrun' c hc => ?_)
            fun _ w₁ homes₁ h₁ hdefine => ih hds h₁ hdefine.2 hmakes
          cases hc
          exact ⟨_, hd, hrun'.captured.hoisted d⟩

/-- The statements at the top, in the order in which they run. -/
theorem Keeps.topLevel (limits : Limits) (fuel : Nat) (last : Value)
    {ss : List Stmt} (h : Sound p w homes)
    (hrun : Running p w homes E place.scope)
    (hss : StmtsNamed p E (otherStatements ss)) :
    Keeps p (Watched.topLevel limits fuel place last ss) w
      fun _ _ _ => True := by
  obtain ⟨heval, hexec⟩ := keeps_all p limits fuel
  induction ss generalizing last E w homes with
  | nil => exact .pure h trivial
  | cons s ss ih =>
      cases s with
      | function d => exact ih .nil h hrun hss
      | expression span e =>
          obtain _ | ⟨hs, hss⟩ := hss
          cases hs with
          | expression he =>
              refine .bind (Q := fun _ w' homes' => Still w homes w' homes')
                (.plain (.tick limits span) h fun _ _ _ => id)
                fun _ w₁ homes₁ h₁ hstill₁ => ?_
              have hrun₁ := (hrun.running (.expression span e)).later h.size
                hstill₁
              refine .bind (heval place e _ w₁ homes₁ h₁ hrun₁ he)
                fun v w₂ homes₂ h₂ hv => ?_
              exact ih v h₂ (hrun₁.later h₁.size hv.1) hss
      | _ =>
          obtain _ | ⟨hs, hss⟩ := hss
          refine .bind (hexec place _ _ _ w homes h (hrun.running _) hs)
            fun flow w₁ homes₁ h₁ hflow => ?_
          cases flow with
          | next => exact ih .nil h₁ hflow.2 hss
          | returned v => exact .pure h₁ trivial

/-- A program that is about to run. -/
theorem Sound.start (p : Program) (sink : Sink) :
    Sound p (Watch.start sink) [top p] where
  size := rfl
  made _ _ _ _ _ hmaker := by cases hmaker
  binds i name := by
    cases i with
    | zero => rfl
    | succ i => rfl
  values i name v hv := by
    cases i with
    | zero => cases hv
    | succ i => cases hv
  seen _ hs := absurd hs List.not_mem_nil

theorem Running.start (p : Program) (sink : Sink) :
    Running p (Watch.start sink) [top p] (topEnv p []) 0 where
  fits := ⟨[0], [], Heap.chain_root rfl,
    .cons ⟨.beginning rfl, .beginning fun _ => rfl⟩ .nil, .nil⟩
  last := List.pairwise_singleton ..
  known := List.forall_mem_cons.2 ⟨rfl, fun _ hl =>
    absurd hl List.not_mem_nil⟩
  placed _ hl := absurd hl List.not_mem_nil

/-- A well named program keeps its account sound. -/
theorem Named.keeps (hnamed : Named p) (limits : Limits) (fuel : Nat)
    (sink : Sink) :
    Keeps p (Watched.program limits fuel 0 p) (Watch.start sink)
      fun _ _ _ => True :=
  .bind (.hoisted hnamed.functions (.start p sink) (.start p sink)
    hnamed.hoisted) fun _ _ _ h hrun =>
      .topLevel limits fuel .nil h hrun hnamed.others

/-- All uses of names in a run of a well named program are explained. -/
theorem Named.explained (hnamed : Named p) (limits : Limits) (fuel : Nat)
    (sink : Sink) :
    ∀ s ∈ Watched.seen
      (Watched.program limits fuel 0 p (Watch.start sink)), Explained p s := by
  have hkeeps := hnamed.keeps limits fuel sink
  unfold Keeps at hkeeps
  cases hrun : Watched.program limits fuel 0 p (Watch.start sink) with
  | ok v w =>
      rw [hrun] at hkeeps
      obtain ⟨homes, hsound, -⟩ := hkeeps
      exact hsound.seen
  | error e w =>
      rw [hrun] at hkeeps
      exact hkeeps.1

/-- A fault about a name in a run of a well named program is to be blamed
on a function that is hoisted. -/
theorem Named.blamed (hnamed : Named p) {limits : Limits} {fuel : Nat}
    {sink : Sink} {e : Stop} {m : Machine}
    (hrun : Eval.program limits fuel 0 p ⟨.root, sink, 0⟩ = .error e m) :
    Blamed p e := by
  have hkeeps := hnamed.keeps limits fuel sink
  have herase := Watched.program_erases limits fuel 0 p (Watch.start sink)
  unfold Keeps at hkeeps
  cases hwatched : Watched.program limits fuel 0 p (Watch.start sink) with
  | ok v w =>
      rw [hwatched] at herase
      cases herase.trans hrun
  | error e' w =>
      rw [hwatched] at herase hkeeps
      cases herase.trans hrun
      exact hkeeps.2

end Script.Lexical
