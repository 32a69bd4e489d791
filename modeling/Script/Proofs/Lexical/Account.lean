/-
The account of a run against the program. Every scope is a block of the
program at work, its home, and whatever binds a name in it is a
declaration in this block, with the variable that the block has for the
name. This does not depend on how far the block has come.

How far it has come shows in the levels. A scope of the running function
binds exactly the names that its level has. A scope around the function is
only known from the time when the function was declared; since then it can
have bound more. Only the top of the program may have bound less: the
functions that are hoisted there know its names before they are bound.

So a lookup and the levels agree on a name unless a scope around the
function binds it that did not when the function was declared, and then
the declaration behind the binding is late.
-/
import Mathlib.Data.List.Forall2
import Script.Proofs.Heap
import Script.Proofs.Lexical.Levels
import Script.Proofs.Lexical.Watched

namespace Script.Lexical

open Code Eval

-- ================================================================ scopes

/-- A scope against a level. -/
structure Fits (w : Watch) (homes : List Home) (l : Level) (i : ScopeId) :
    Prop where
  home : homes[i]? = some l.home
  part : ∀ name slot, l.table.lookup name = some slot →
    l.home.table.lookup name = some slot
  bound : l.ahead = false → ∀ name, (l.table.lookup name).isSome →
    (w.maker i name).isSome
  /-- Only the top of the program can be ahead. -/
  top : l.ahead = true → l.home.top = true

/-- Whether a scope binds no other names than a level has. -/
def Exact (w : Watch) (l : Level) (i : ScopeId) : Prop :=
  ∀ name, (w.maker i name).isSome → (l.table.lookup name).isSome

/-- The scopes from one outward, against the levels at the declaration of
a function. -/
structure Captured (w : Watch) (homes : List Home) (E : Env)
    (i : ScopeId) : Prop where
  fits : List.Forall₂ (Fits w homes) E.levels (w.machine.heap.chain i)
  last : E.levels.Pairwise fun l _ => l.home.top = false

/-- The scopes from one outward, against the levels at the place where a
function runs: first those of the function itself. -/
structure Running (p : Program) (w : Watch) (homes : List Home) (E : Env)
    (i : ScopeId) : Prop where
  fits : ∃ is js, w.machine.heap.chain i = is ++ js
    ∧ List.Forall₂ (fun l j => Fits w homes l j ∧ Exact w l j)
      (E.here :: E.own) is
    ∧ List.Forall₂ (Fits w homes) E.around js
  last : E.levels.Pairwise fun l _ => l.home.top = false
  known : ∀ l ∈ E.here :: E.own, l.ahead = false
  placed : ∀ l ∈ E.around, l.Placed p

/-- Whether a value, if it is a function, is one of the program in scopes
that fit the place of its declaration. -/
def ValueFits (p : Program) (w : Watch) (homes : List Home) (v : Value) :
    Prop :=
  ∀ c, v = .function c →
    ∃ E, FnNamed p E c.decl ∧ Captured w homes E c.scope

/-- What is claimed of a use: the binding was made by a declaration, and
this has the variable of the use unless it is late. -/
def Explained (p : Program) (s : Sighting) : Prop :=
  ∃ made v, s.maker = some made ∧ p.variableAt s.use = some v
    ∧ (p.variableAt made = some v ∨ p.Late s.use made)

/-- The account of a run against the program. -/
structure Sound (p : Program) (w : Watch) (homes : List Home) : Prop where
  size : homes.length = w.machine.heap.scopes.size
  made : ∀ i h name d, homes[i]? = some h → w.maker i name = some d →
    ⟨name, d⟩ ∈ h.declared
      ∧ p.variableAt d = (h.table.lookup name).map h.variable
  binds : ∀ i name, w.machine.heap.binds name i = (w.maker i name).isSome
  values : ∀ i name v, (w.machine.heap.bindings i).lookup name = some v →
    ValueFits p w homes v
  seen : ∀ s ∈ w.sightings, Explained p s

/-- What becomes of a run in which only one of the scopes there were can
bind more names. -/
structure Moved (i : ScopeId) (w : Watch) (homes : List Home) (w' : Watch)
    (homes' : List Home) : Prop where
  homes : homes <+: homes'
  size : w.machine.heap.scopes.size ≤ w'.machine.heap.scopes.size
  chain : ∀ j, j < w.machine.heap.scopes.size →
    w'.machine.heap.chain j = w.machine.heap.chain j
  keeps : ∀ j name, j < w.machine.heap.scopes.size →
    (w.maker j name).isSome → (w'.maker j name).isSome
  adds : ∀ j name, j < w.machine.heap.scopes.size → j ≠ i →
    (w'.maker j name).isSome → (w.maker j name).isSome

/-- What becomes of a run in which none of the scopes there were binds
more names. -/
def Still (w : Watch) (homes : List Home) (w' : Watch)
    (homes' : List Home) : Prop :=
  ∀ i, Moved i w homes w' homes'

variable {p : Program} {w w' w'' : Watch} {homes homes' homes'' : List Home}
  {E : Env} {l : Level} {i j : ScopeId} {name : String} {v : Value}

theorem Moved.refl (i : ScopeId) (w : Watch) (homes : List Home) :
    Moved i w homes w homes :=
  ⟨List.prefix_refl _, Nat.le_refl _, fun _ _ => rfl, fun _ _ _ => id,
    fun _ _ _ _ => id⟩

theorem Moved.trans (h : Moved i w homes w' homes')
    (h' : Moved i w' homes' w'' homes'') : Moved i w homes w'' homes'' where
  homes := h.homes.trans h'.homes
  size := Nat.le_trans h.size h'.size
  chain j hj := (h'.chain j (Nat.lt_of_lt_of_le hj h.size)).trans
    (h.chain j hj)
  keeps j name hj hname :=
    h'.keeps j name (Nat.lt_of_lt_of_le hj h.size) (h.keeps j name hj hname)
  adds j name hj hne hname := h.adds j name hj hne
    (h'.adds j name (Nat.lt_of_lt_of_le hj h.size) hne hname)

theorem Still.refl (w : Watch) (homes : List Home) :
    Still w homes w homes :=
  fun i => .refl i w homes

theorem Still.trans (h : Still w homes w' homes')
    (h' : Still w' homes' w'' homes'') : Still w homes w'' homes'' :=
  fun i => (h i).trans (h' i)

/-- Nothing is seen of a scope that is new. -/
theorem Moved.still (h : Moved i w homes w' homes')
    (hi : w.machine.heap.scopes.size ≤ i) : Still w homes w' homes' :=
  fun _ => { h with
    adds := fun j name hj _ =>
      h.adds j name hj (Nat.ne_of_lt (Nat.lt_of_lt_of_le hj hi)) }

-- ================================================================== time

section

variable (hsize : homes.length = w.machine.heap.scopes.size)

include hsize

theorem Fits.lt (h : Fits w homes l i) : i < w.machine.heap.scopes.size := by
  rw [← hsize]
  exact (List.getElem?_eq_some_iff.1 h.home).1

theorem Fits.later (h : Fits w homes l j) (hmoved : Moved i w homes w' homes') :
    Fits w' homes' l j := by
  refine ⟨?_, h.part, fun hknown name hname => ?_, h.top⟩
  · obtain ⟨r, hr⟩ := hmoved.homes
    rw [← hr, List.getElem?_append_left
      (List.getElem?_eq_some_iff.1 h.home).1]
    exact h.home
  · exact hmoved.keeps j name (h.lt hsize) (h.bound hknown name hname)

theorem Exact.later (h : Exact w l j) (hfits : Fits w homes l j)
    (hmoved : Moved i w homes w' homes') (hne : j ≠ i) : Exact w' l j :=
  fun name hname => h name (hmoved.adds j name (hfits.lt hsize) hne hname)

/-- A scope that fits levels exists. -/
theorem Captured.lt (h : Captured w homes E i) :
    i < w.machine.heap.scopes.size := by
  obtain ⟨hfits, -⟩ := h
  unfold Env.levels at hfits
  cases hchain : w.machine.heap.chain i with
  | nil =>
      rw [hchain] at hfits
      cases hfits
  | cons j js =>
      rw [hchain] at hfits
      obtain rfl := Heap.head_of_chain hchain
      cases hfits with
      | cons h _ => exact h.lt hsize

theorem Captured.later (h : Captured w homes E j)
    (hmoved : Moved i w homes w' homes') : Captured w' homes' E j := by
  refine ⟨?_, h.last⟩
  rw [hmoved.chain j (h.lt hsize)]
  exact h.fits.imp fun l k hl => hl.later hsize hmoved

theorem ValueFits.later (h : ValueFits p w homes v)
    (hmoved : Moved i w homes w' homes') : ValueFits p w' homes' v := by
  intro c hc
  obtain ⟨E, hd, hcaptured⟩ := h c hc
  exact ⟨E, hd, hcaptured.later hsize hmoved⟩

omit hsize in
theorem Running.captured (h : Running p w homes E i) :
    Captured w homes E i := by
  obtain ⟨is, js, hchain, hown, haround⟩ := h.fits
  refine ⟨?_, h.last⟩
  rw [hchain]
  exact List.rel_append (hown.imp fun _ _ hl => hl.1) haround

theorem Running.later (h : Running p w homes E i)
    (hstill : Still w homes w' homes') : Running p w' homes' E i := by
  obtain ⟨is, js, hchain, hown, haround⟩ := h.fits
  refine ⟨⟨is, js, ?_, ?_, ?_⟩, h.last, h.known, h.placed⟩
  · rw [(hstill i).chain i (h.captured.lt hsize), hchain]
  · refine hown.imp fun l j hl => ⟨hl.1.later hsize (hstill 0), ?_⟩
    exact hl.2.later hsize hl.1 (hstill (j + 1)) (Nat.succ_ne_self j).symm
  · exact haround.imp fun l j hl => hl.later hsize (hstill 0)

end

-- =============================================================== lookups

theorem exists_of_forall₂ {α β : Type} {R : α → β → Prop} {as : List α}
    {bs : List β} (h : List.Forall₂ R as bs) {a : α} (ha : a ∈ as) :
    ∃ b ∈ bs, R a b := by
  induction h with
  | nil => cases ha
  | cons hab _ ih =>
      rcases List.mem_cons.1 ha with rfl | ha
      · exact ⟨_, List.mem_cons_self, hab⟩
      · obtain ⟨b, hb, hR⟩ := ih ha
        exact ⟨b, List.mem_cons_of_mem _ hb, hR⟩

/-- A scope binds the names of its level, unless it is the top. -/
theorem Fits.binds {slot : Nat} (h : Fits w homes l i)
    (hsound : Sound p w homes) (htop : l.home.top = false)
    (hname : l.table.lookup name = some slot) :
    w.machine.heap.binds name i = true := by
  have hahead : l.ahead = false := by
    cases hahead : l.ahead with
    | false => rfl
    | true =>
        rw [h.top hahead] at htop
        cases htop
  rw [hsound.binds]
  exact h.bound hahead name (Option.isSome_of_eq_some hname)

/-- The scope that a name is found in, against its level: either the level
gives the name its meaning, or it does not have the name. -/
theorem level_of_found {R : Level → ScopeId → Prop} {ls : List Level}
    {is : List ScopeId} {v : Variable} (hsound : Sound p w homes)
    (hR : ∀ l i, R l i → Fits w homes l i) (hfits : List.Forall₂ R ls is)
    (hlast : ls.Pairwise fun l _ => l.home.top = false)
    (hmeans : meaning? ls name = some v)
    (hfound : is.find? (w.machine.heap.binds name) = some j) :
    ∃ l ∈ ls, R l j
      ∧ ((l.table.lookup name).map l.home.variable = some v
        ∨ l.table.lookup name = none ∧ l.home.top = false) := by
  induction hfits with
  | nil => cases hmeans
  | @cons l i ls is hl hls ih =>
      obtain ⟨htop, hlast⟩ := List.pairwise_cons.1 hlast
      -- A level with another one around it is not the top.
      have hinner (hmeans : meaning? ls name = some v) :
          l.home.top = false := by
        cases ls with
        | nil => cases hmeans
        | cons l' ls => exact htop l' List.mem_cons_self
      unfold meaning? at hmeans
      rw [List.findSome?_cons] at hmeans
      rw [List.find?_cons] at hfound
      cases hbinds : w.machine.heap.binds name i with
      | true =>
          rw [hbinds] at hfound
          obtain rfl : i = j := Option.some.inj hfound
          refine ⟨l, List.mem_cons_self, hl, ?_⟩
          cases hname : l.table.lookup name with
          | some slot =>
              rw [hname] at hmeans
              exact .inl hmeans
          | none =>
              rw [hname] at hmeans
              exact .inr ⟨rfl, hinner hmeans⟩
      | false =>
          rw [hbinds] at hfound
          have hfits := hR l i hl
          cases hname : l.table.lookup name with
          | some slot =>
              -- Only the top can lack it, and no scope is around this one.
              have htop' : l.home.top = true := by
                cases htop' : l.home.top with
                | true => rfl
                | false =>
                    rw [hfits.binds hsound htop' hname] at hbinds
                    cases hbinds
              cases hls with
              | nil => cases hfound
              | cons =>
                  rw [htop _ List.mem_cons_self] at htop'
                  cases htop'
          | none =>
              rw [hname] at hmeans
              obtain ⟨l', hl', h⟩ := ih hlast hmeans hfound
              exact ⟨l', List.mem_cons_of_mem _ hl', h⟩

/-- A name that a block has declared by the end of it but not up to a
statement is declared behind the statement. -/
theorem mem_behind {b : Body} {before behind : List Stmt} {s : Stmt}
    {t : Names} {y : Ident} (hsplit : b.statements = before ++ s :: behind)
    (hy : y ∈ b.declared) (hnone : t.lookup y.name = none)
    (hknown : ∀ z ∈ b.params ++ declaredIn (before ++ [s]),
      (t.lookup z.name).isSome) :
    y ∈ declaredIn behind
      ∧ ∀ z ∈ b.params ++ declaredIn (before ++ [s]), z.name ≠ y.name := by
  have hnot : ∀ z ∈ b.params ++ declaredIn (before ++ [s]),
      z.name ≠ y.name := by
    intro z hz heq
    have hsome := hknown z hz
    rw [heq, hnone] at hsome
    cases hsome
  refine ⟨?_, hnot⟩
  have hall : b.declared =
      (b.params ++ declaredIn (before ++ [s])) ++ declaredIn behind := by
    unfold Body.declared declaredIn
    rw [hsplit, List.append_cons, List.filterMap_append, List.append_assoc]
  rw [hall] at hy
  rcases List.mem_append.1 hy with hy | hy
  · exact (hnot y hy rfl).elim
  · exact hy

theorem Running.either (h : Running p w homes E i) :
    List.Forall₂ (fun l j => Fits w homes l j
      ∧ (l ∈ E.around ∨ Exact w l j)) E.levels
        (w.machine.heap.chain i) := by
  obtain ⟨is, js, hchain, hown, haround⟩ := h.fits
  rw [hchain]
  refine List.rel_append (hown.imp fun _ _ hl => ⟨hl.1, .inr hl.2⟩) ?_
  exact ((List.forall₂_and_left _ _).2 ⟨fun _ => id, haround⟩).imp
    fun _ _ hl => ⟨hl.2, .inl hl.1⟩

/-- The binding that a name is found to have is explained. -/
theorem Running.explained {x : Ident} (h : Running p w homes E i)
    (hsound : Sound p w homes) (hx : UseNamed p E x)
    (hfound : w.machine.heap.owner? i x.name = some j) :
    Explained p ⟨x.span, w.maker j x.name⟩ := by
  obtain ⟨v, hv, hmeans⟩ := hx.means
  obtain ⟨l, hl, ⟨hfits, hexact⟩, hcase⟩ := level_of_found hsound
    (fun _ _ h => h.1) h.either h.last hmeans hfound
  have hbinds : w.machine.heap.binds x.name j = true :=
    List.find?_some hfound
  rw [hsound.binds] at hbinds
  obtain ⟨d, hd⟩ := Option.isSome_iff_exists.1 hbinds
  obtain ⟨hlisted, hvariable⟩ := hsound.made j l.home x.name d hfits.home hd
  refine ⟨d, v, hd, hv, ?_⟩
  rcases hcase with hmap | ⟨hnone, htop⟩
  · obtain ⟨slot, hslot, rfl⟩ := Option.map_eq_some_iff.1 hmap
    rw [hfits.part _ _ hslot] at hvariable
    exact .inl hvariable
  · have hl : l ∈ E.around := by
      refine hexact.resolve_right fun hexact => ?_
      have hsome := hexact x.name hbinds
      rw [hnone] at hsome
      cases hsome
    obtain ⟨b, hb, before, s, behind, hsplit, henclosed, hdeclared, hknown⟩ :=
      (h.placed l hl).reached htop
    rw [hdeclared] at hlisted
    obtain ⟨hbehind, hnot⟩ := mem_behind hsplit hlisted hnone hknown
    have hin := hx.enclosed l hl
    rw [henclosed] at hin
    exact .inr ⟨b, hb, before, s, behind, hsplit, x, hin, ⟨x.name, d⟩,
      hbehind, rfl, rfl, rfl, hnot⟩

/-- A name that is not found is one of the top, used in a function that is
hoisted. -/
theorem Running.unbound {x : Ident} (h : Running p w homes E i)
    (hsound : Sound p w homes) (hx : UseNamed p E x)
    (hnone : w.machine.heap.owner? i x.name = none) :
    ∃ d ∈ p.functions, x ∈ d.used
      ∧ ∃ slot, p.variableAt x.span = some (.global slot) := by
  obtain ⟨v, hv, hmeans⟩ := hx.means
  obtain ⟨l, hl, hlevel⟩ := List.exists_of_findSome?_eq_some hmeans
  obtain ⟨slot, hslot, rfl⟩ := Option.map_eq_some_iff.1 hlevel
  -- The level is ahead, for else its name would be bound.
  have hahead : l.ahead = true := by
    cases hahead : l.ahead with
    | true => rfl
    | false =>
        obtain ⟨j, hj, hfits⟩ := exists_of_forall₂ h.captured.fits hl
        have hbound := hfits.bound hahead x.name (by rw [hslot]; rfl)
        rw [← hsound.binds] at hbound
        exact absurd hbound (List.find?_eq_none.1 hnone j hj)
  have haround : l ∈ E.around := by
    rcases List.mem_append.1 (List.cons_append ▸ hl :
      l ∈ (E.here :: E.own) ++ E.around) with hown | haround
    · rw [h.known l hown] at hahead
      cases hahead
    · exact haround
  obtain ⟨htop, d, hd, hused⟩ := (h.placed l haround).ahead hahead
  refine ⟨d, hd, hused ▸ hx.enclosed l haround, slot, ?_⟩
  rw [hv, htop]
  rfl

end Script.Lexical
