/-
A failed run cannot be told from no run. It may have left scopes behind,
and changed variables of scopes that are still there; but the globals are
bound to what they were, and if their functions captured nothing but the
globals, nothing leads from there to what the failed run has touched. So
the two sessions mirror each other, with the scopes created later paired
in order, and all that programs can show of them is the same.
-/
import Mathlib.Logic.Function.Basic
import Script.Proofs.Budget.Limits
import Script.Proofs.Rollback.Mirrors
import Script.Proofs.Sessions
import Script.Tree.Statement

namespace Script

open Eval

-- ============================================================== renaming

/-- A value with its scopes renamed. -/
def Value.rename (ρ : ScopeId → ScopeId) : Value → Value
  | .function c => .function { c with scope := ρ c.scope }
  | v => v

/-- Variables with the scopes of their values renamed. -/
def Bindings.rename (ρ : ScopeId → ScopeId) (bs : Bindings) : Bindings :=
  bs.map fun b => (b.1, b.2.rename ρ)

/-- An outcome with its scopes renamed. -/
def Outcome.rename (ρ : ScopeId → ScopeId) : Outcome → Outcome
  | .value v => .value (v.rename ρ)
  | o => o

/-- The value of a run as programs print it. -/
def Outcome.display? (o : Outcome) : Option String := o.value?.map Value.text

@[simp] theorem Outcome.display?_rename (ρ : ScopeId → ScopeId)
    (o : Outcome) : (o.rename ρ).display? = o.display? := by
  cases o with
  | value v => cases v <;> rfl
  | _ => rfl

@[simp] theorem Outcome.diagnostics_rename (ρ : ScopeId → ScopeId)
    (o : Outcome) : (o.rename ρ).diagnostics = o.diagnostics := by
  cases o <;> rfl

/-- A run that is asked of a session. -/
structure Request where
  program : Program
  limits : Limits
  patience : Nat
  sink : Sink

/-- What can be seen of a run: how it ends, what is in its sink, and the
globals behind it. -/
structure Answer where
  outcome : Outcome
  sink : Sink
  globals : Bindings

/-- An answer with its scopes renamed. -/
def Answer.rename (ρ : ScopeId → ScopeId) (a : Answer) : Answer :=
  ⟨a.outcome.rename ρ, a.sink, a.globals.rename ρ⟩

/-- The answers of a session to requests one after the other. -/
def Session.answers (s : Session) : List Request → List Answer
  | [] => []
  | q :: qs =>
      let (outcome, s', sink) := s.run q.limits q.patience q.program q.sink
      ⟨outcome, sink, s'.globalBindings⟩ :: s'.answers qs

-- ============================================================== mirrored

variable {S : ScopeId → ScopeId → Prop} {s s' : Session}
  {ρ : ScopeId → ScopeId}

theorem Value.Alike.eq_rename (hρ : ∀ i j, S i j → j = ρ i) {v v' : Value}
    (h : v.Alike S v') : v' = v.rename ρ := by
  cases h with
  | function hij =>
      obtain rfl := hρ _ _ hij
      rfl
  | _ => rfl

theorem Bindings.Alike.eq_rename (hρ : ∀ i j, S i j → j = ρ i)
    {bs cs : Bindings} (h : bs.Alike S cs) : cs = bs.rename ρ := by
  induction h with
  | nil => rfl
  | @cons b c bs cs hbc _ ih =>
      obtain ⟨k, v⟩ := b
      obtain ⟨k', v'⟩ := c
      obtain ⟨hk, hv⟩ := hbc
      obtain rfl : k = k' := hk
      obtain rfl : v' = v.rename ρ := hv.eq_rename hρ
      rw [ih]
      rfl

/-- Two outcomes with values that agree, or with the same report. -/
inductive Outcome.Alike (S : ScopeId → ScopeId → Prop) :
    Outcome → Outcome → Prop
  | value {v v' : Value} (h : v.Alike S v') : Alike S (.value v) (.value v')
  | failed (d : Diagnostic) : Alike S (.failed d) (.failed d)
  | starved : Alike S .starved .starved

theorem Outcome.Alike.eq_rename (hρ : ∀ i j, S i j → j = ρ i)
    {o o' : Outcome} (h : o.Alike S o') : o' = o.rename ρ := by
  cases h with
  | value hv => exact congrArg Outcome.value (hv.eq_rename hρ)
  | _ => rfl

namespace Session

/-- Two sessions that mirror each other. -/
structure Mirrors (S : ScopeId → ScopeId → Prop) (s s' : Session) :
    Prop where
  heap : s.heap.Mirrors S s'.heap
  globals : S s.globals s'.globals

/-- Sessions that mirror each other do so behind a run, too. -/
theorem Mirrors.run (hS : InOrder S) (h : s.Mirrors S s')
    (limits : Limits) (patience : Nat) (p : Program) (sink : Sink) :
    let r := s.run limits patience p sink
    let r' := s'.run limits patience p sink
    r.1.Alike S r'.1 ∧ r.2.1.Mirrors S r'.2.1 ∧ r.2.2 = r'.2.2 := by
  intro r r'
  have hprogram := (Echoes.lockstep hS limits).program
    (Nat.le_refl (fuel limits patience))
    (fun hlt => absurd hlt (Nat.lt_irrefl _)) h.globals p
    ⟨s.heap, sink, 0⟩ ⟨s'.heap, sink, 0⟩ ⟨h.heap, rfl, rfl⟩
  have hr : r = s.taken _ := run_eq s limits patience p sink
  have hr' : r' = s'.taken _ := run_eq s' limits patience p sink
  rw [hr, hr']
  unfold outcome
  generalize program limits (fuel limits patience) s.globals p
    ⟨s.heap, sink, 0⟩ = x, program limits (fuel limits patience) s'.globals
      p ⟨s'.heap, sink, 0⟩ = y at hprogram
  have hrestore {m m' : Machine} (hm : m.Mirrors S m') :=
    hm.heap.restore hS h.globals (h.heap.bindings h.globals)
  cases hprogram with
  | ok hv hm => exact ⟨.value hv, ⟨hm.heap, h.globals⟩, hm.sink⟩
  | error e hm =>
      cases e with
      | fault f span =>
          exact ⟨.failed _, ⟨hrestore hm, h.globals⟩, hm.sink⟩
      | starved => exact ⟨.starved, ⟨hrestore hm, h.globals⟩, hm.sink⟩

/-- Sessions that mirror each other answer alike. -/
theorem Mirrors.answers (hS : InOrder S) (hρ : ∀ i j, S i j → j = ρ i)
    (h : s.Mirrors S s') (qs : List Request) :
    s'.answers qs = (s.answers qs).map (Answer.rename ρ) := by
  induction qs generalizing s s' with
  | nil => rfl
  | cons q qs ih =>
      obtain ⟨houtcome, hsession, hsink⟩ :=
        h.run hS q.limits q.patience q.program q.sink
      have hglobals := hsession.heap.bindings hsession.globals
      unfold Session.answers
      rw [List.map_cons]
      refine congrArg₂ List.cons ?_ (ih hsession)
      unfold Answer.rename
      rw [← houtcome.eq_rename hρ, hsink]
      exact congrArg _ (hglobals.eq_rename hρ)

-- =========================================================== failed runs

/-- A session whose globals are not inside of any other scope. -/
def Rooted (s : Session) : Prop :=
  (s.heap.scopes[s.globals]?).map (·.parent) = some none

/-- The sessions that come from runs. -/
inductive Reachable : Session → Prop
  | fresh : Reachable fresh
  | run {s : Session} (h : Reachable s) (limits : Limits) (patience : Nat)
      (p : Program) (sink : Sink) :
      Reachable (s.run limits patience p sink).2.1

theorem Rooted.lt_size (h : s.Rooted) : s.globals < s.heap.scopes.size := by
  obtain ⟨_, hscope, -⟩ := Option.map_eq_some_iff.1 h
  exact Heap.lt_size_of_getElem? hscope

/-- Putting back the globals changes no parent. -/
theorem rooted_restore {h : Heap} {i : ScopeId}
    (hroot : (h.scopes[i]?).map (·.parent) = some none) (bs : Bindings) :
    (h.restore i bs).scopes[i]? = some ⟨bs, none⟩ := by
  obtain ⟨scope, hscope, hparent⟩ := Option.map_eq_some_iff.1 hroot
  unfold Heap.restore
  rw [Heap.getElem?_update, if_pos rfl, hscope]
  exact congrArg (fun p => some (Scope.mk bs p)) hparent

/-- Behind a program, the globals are where they were. -/
theorem Rooted.behind (h : s.Rooted) (limits : Limits) (n : Nat)
    (p : Program) (sink : Sink) :
    s.heap.scopes.size ≤
        (behind (s.outcome limits n p sink)).heap.scopes.size
      ∧ ((behind (s.outcome limits n p sink)).heap.scopes[s.globals]?).map
        (·.parent) = some none := by
  have hgrows := program_growing limits n s.globals p ⟨s.heap, sink, 0⟩
  exact ⟨hgrows.size, (hgrows.parent _ h.lt_size).trans h⟩

theorem Rooted.run (h : s.Rooted) (limits : Limits) (patience : Nat)
    (p : Program) (sink : Sink) :
    (s.run limits patience p sink).2.1.Rooted := by
  have hbehind := (h.behind limits (fuel limits patience) p sink).2
  rw [run_eq]
  cases hx : s.outcome limits (fuel limits patience) p sink with
  | ok v m =>
      rw [hx] at hbehind
      exact hbehind
  | error e m =>
      rw [hx] at hbehind
      have hrestored := rooted_restore hbehind s.globalBindings
      cases e <;> exact congrArg (Option.map (·.parent)) hrestored

theorem Reachable.rooted (h : Reachable s) : s.Rooted := by
  induction h with
  | fresh => rfl
  | run _ limits patience p sink ih => exact ih.run limits patience p sink

/-- The globals are paired with themselves, and so are the scopes to come,
from two places on. -/
def Paired (globals next shift i j : Nat) : Prop :=
  (i = globals ∧ j = globals) ∨ (next ≤ i ∧ j = i + shift)

/-- The second of two paired scopes, by the first one. -/
def shifted (next shift i : Nat) : Nat :=
  if i < next then i else i + shift

theorem Paired.lt_iff {globals next shift p q i j : Nat}
    (h : globals < next) (hpq : Paired globals next shift p q)
    (hij : Paired globals next shift i j) : p < i ↔ q < j := by
  unfold Paired at hpq hij
  omega

theorem Paired.eq_shifted {globals next shift i j : Nat}
    (h : globals < next) (hij : Paired globals next shift i j) :
    j = shifted next shift i := by
  unfold Paired at hij
  unfold shifted
  split <;> omega

theorem shifted_injective (next shift : Nat) :
    Function.Injective (shifted next shift) := by
  intro i j hij
  unfold shifted at hij
  split at hij <;> split at hij <;> omega

/-- When its globals are put back, a heap that has grown is one that mirrors
the heap before, with the new scopes in between. -/
theorem Rooted.mirrors_restored (hroot : s.Rooted)
    (hown : ∀ name c, (name, Value.function c) ∈ s.globalBindings →
      c.scope = s.globals) {heap : Heap} {shift : Nat}
    (hshift : heap.scopes.size = s.heap.scopes.size + shift)
    (hparent : (heap.scopes[s.globals]?).map (·.parent) = some none) :
    s.Mirrors (Paired s.globals s.heap.scopes.size shift)
      { s with heap := heap.restore s.globals s.globalBindings } := by
  refine ⟨⟨fun i j hij => ?_, fun k => ?_⟩, .inl ⟨rfl, rfl⟩⟩
  · rcases hij with ⟨rfl, rfl⟩ | ⟨hi, rfl⟩
    · -- The globals, as they were put back.
      obtain ⟨⟨bs, parent⟩, hscope, hnone⟩ := Option.map_eq_some_iff.1 hroot
      obtain rfl : parent = none := hnone
      have hbs : s.globalBindings = bs := Heap.bindings_eq hscope
      rw [rooted_restore hparent, hscope, hbs]
      refine .some ⟨?_, .none⟩
      rw [hbs] at hown
      refine List.forall₂_same.2 fun b hb => ⟨rfl, ?_⟩
      obtain ⟨name, v⟩ := b
      cases v with
      | function c =>
          exact .function (.inl ⟨hown name c hb, hown name c hb⟩)
      | _ => constructor
    · -- A scope that is not there yet.
      have hj : heap.scopes.size ≤ i + shift :=
        hshift ▸ Nat.add_le_add_right hi shift
      rw [Array.getElem?_eq_none hi, Array.getElem?_eq_none]
      · exact .none
      · exact Nat.le_trans (Nat.le_of_eq (Heap.size_update ..)) hj
  · refine .inr ⟨Nat.le_add_right _ k, ?_⟩
    show (Heap.restore ..).scopes.size + k = _
    unfold Heap.restore
    rw [Heap.size_update, hshift]
    omega

/-- Behind a failed run, a session mirrors the one before it. -/
theorem Rooted.mirrors_of_failed (hroot : s.Rooted)
    (hown : ∀ name c, (name, Value.function c) ∈ s.globalBindings →
      c.scope = s.globals) {limits : Limits} {patience : Nat} {p : Program}
    {sink sink' : Sink} {d : Diagnostic}
    (hrun : s.run limits patience p sink = (.failed d, s', sink')) :
    ∃ shift, s.Mirrors (Paired s.globals s.heap.scopes.size shift) s' := by
  obtain ⟨hsize, hparent⟩ :=
    hroot.behind limits (fuel limits patience) p sink
  obtain ⟨f, span, m, hx, -, rfl⟩ := outcome_of_failed hrun
  rw [hx] at hsize hparent
  obtain ⟨shift, hshift⟩ := Nat.exists_eq_add_of_le hsize
  exact ⟨shift, hroot.mirrors_restored hown hshift hparent⟩

/-- A failed run is invisible to later ones: whatever is asked of the
session afterwards, it answers as if the run had not been, up to the names
of its scopes. -/
theorem answers_of_failed (hroot : s.Rooted)
    (hown : ∀ name c, (name, Value.function c) ∈ s.globalBindings →
      c.scope = s.globals) {limits : Limits} {patience : Nat} {p : Program}
    {sink sink' : Sink} {d : Diagnostic}
    (hrun : s.run limits patience p sink = (.failed d, s', sink')) :
    ∃ ρ : ScopeId → ScopeId, Function.Injective ρ ∧
      ∀ qs, s'.answers qs = (s.answers qs).map (Answer.rename ρ) := by
  obtain ⟨shift, hmirrors⟩ := hroot.mirrors_of_failed hown hrun
  have hlt := hroot.lt_size
  exact ⟨shifted s.heap.scopes.size shift, shifted_injective _ _,
    hmirrors.answers (fun _ _ _ _ => Paired.lt_iff hlt)
      fun _ _ => Paired.eq_shifted hlt⟩

/-- A run that changes a global, replaces a function and then fails. -/
theorem failed_replacement_invisible :
    let read (text : String) := (Program.ofText 0 text).1
    let s := (fresh.run .standard 0
      (read "let x = \"a\"; fn loud() \x7b return x + \"!\"; \x7d")
      .unlimited).2.1
    let r := s.run .standard 0
      (read "x = \"b\"; \x7b let y = x; fn f() \x7b return y; \x7d
        loud = f; \x7d missing") .unlimited
    r.1.diagnostics.map (·.topic) = [.name]
      ∧ (r.2.1.run .standard 0 (read "loud()") .unlimited).1.display?
        = some "a!"
      ∧ ∃ ρ : ScopeId → ScopeId, Function.Injective ρ ∧
        ∀ qs, r.2.1.answers qs = (s.answers qs).map (Answer.rename ρ) := by
  intro read s r
  have htopic : r.1.diagnostics.map (·.topic) = [.name] := by
    decide +kernel
  have hown : (s.globalBindings.all fun b =>
      match b.2 with
      | .function c => c.scope == s.globals
      | _ => true) = true := by decide +kernel
  refine ⟨htopic, by decide +kernel, ?_⟩
  cases houtcome : r.1 with
  | failed d =>
      refine answers_of_failed (Reachable.fresh.run ..).rooted
        (fun name c hc => ?_) (Prod.ext houtcome rfl)
      exact beq_iff_eq.1 (List.all_eq_true.1 hown _ hc)
  | value v =>
      rw [houtcome] at htopic
      cases htopic
  | starved =>
      rw [houtcome] at htopic
      cases htopic

end Session

end Script
