/-
Parentheses are transparent, to code and to evaluation. A program and the
program without parentheses lead to the same code, or to errors that say
the same. Where nothing limits the steps, they also end alike: what one of
them prints the other prints, a value or the report of a fault is the same,
and so are the variables behind it, with no difference but the parentheses
in functions. One of them ends if the other does. With a limit on the steps
none of this holds, since parentheses take steps.
-/
import Script.Proofs.Budget.Sessions
import Script.Proofs.Parentheses.Compiled
import Script.Proofs.Parentheses.Evaluated

namespace Script

open Eval

/-- Outcomes that come to the same without parentheses: values, or reports
that say the same. -/
inductive Outcome.Like : Outcome → Outcome → Prop
  | value {v v' : Value} (h : v.ungrouped = v'.ungrouped) :
      Like (.value v) (.value v')
  | failed {d d' : Diagnostic} (h : d.toReport = d'.toReport) :
      Like (.failed d) (.failed d')

theorem Outcome.Like.symm {o o' : Outcome} (h : o.Like o') : o'.Like o := by
  cases h with
  | value hv => exact .value hv.symm
  | failed hd => exact .failed hd.symm

namespace Session

/-- Sessions with the same variables, parentheses aside. -/
structure Like (s s' : Session) : Prop where
  heap : s.heap.ungrouped = s'.heap.ungrouped
  globals : s.globals = s'.globals

/-- Runs that come to the same without parentheses. -/
structure RunLike (r r' : Outcome × Session × Sink) : Prop where
  outcome : r.1.Like r'.1
  session : r.2.1.Like r'.2.1
  printed : r.2.2 = r'.2.2

variable {s s' : Session} {limits : Limits} {p p' : Program}
  {sink : Sink} {r r' : Outcome × Session × Sink}

theorem Like.refl (s : Session) : s.Like s := ⟨rfl, rfl⟩

theorem Like.symm (h : s.Like s') : s'.Like s :=
  ⟨h.heap.symm, h.globals.symm⟩

theorem RunLike.symm (h : RunLike r r') : RunLike r' r :=
  ⟨h.outcome.symm, h.session.symm, h.printed.symm⟩

theorem Like.globalBindings (h : s.Like s') :
    s.globalBindings.ungrouped = s'.globalBindings.ungrouped := by
  unfold Session.globalBindings
  rw [← Heap.bindings_ungrouped, h.heap, h.globals,
    Heap.bindings_ungrouped]

/-- What sessions make of outcomes that come to the same. -/
theorem Like.taken (h : s.Like s')
    {x y : EStateM.Result Stop Machine Value} (hxy : Ended ValueLike x y) :
    RunLike (s.taken x) (s'.taken y) := by
  cases hxy with
  | ok hv hm => exact ⟨.value hv, ⟨hm.heap, h.globals⟩, hm.sink⟩
  | @fault f span span' m m' hm =>
      refine ⟨.failed rfl, ⟨?_, h.globals⟩, hm.sink⟩
      show (m.heap.restore s.globals s.globalBindings).ungrouped
        = (m'.heap.restore s'.globals s'.globalBindings).ungrouped
      rw [Heap.ungrouped_restore, Heap.ungrouped_restore, hm.heap,
        h.globals, h.globalBindings]

/-- A run that ends, and one of a program that comes to the same. -/
theorem Ends.alike (hlimits : limits.steps = none) (hs : s.Like s')
    (hp : p.ungrouped = p'.ungrouped) (h : s.Ends limits p sink r) :
    ∃ r', s'.Ends limits p' sink r' ∧ RunLike r r' := by
  obtain ⟨⟨patience, rfl⟩, hne⟩ := ends_iff.1 h
  have hx := taken_ne_starved.1 hne
  obtain ⟨y, hxy, n₀, hn₀⟩ := program_attained hlimits hp s.globals
    ⟨s.heap, sink, 0⟩ ⟨s'.heap, sink, 0⟩ ⟨hs.heap, rfl⟩ hx
  have hfuel : fuel limits n₀ = n₀ := by
    unfold fuel
    rw [hlimits]
  have hy : s'.outcome limits (fuel limits n₀) p' sink = y := by
    rw [hfuel]
    unfold Session.outcome
    rw [← hs.globals]
    exact hn₀ n₀ (Nat.le_refl n₀)
  refine ⟨s'.taken y, ends_iff.2 ⟨⟨n₀, by rw [hy]⟩, ?_⟩, hs.taken hxy⟩
  exact taken_ne_starved.2 hxy.ne_starved

/-- A program and the program without parentheses: the same code or errors
that say the same, and, with any number of steps, runs that come to the
same in sessions that do. -/
theorem parentheses_transparent (p : Program) :
    Code.unplacedOutcome (Code.ofProgram p.ungrouped) =
        Code.unplacedOutcome (Code.ofProgram p)
      ∧ ∀ (s s' : Session) (limits : Limits) (sink : Sink), s.Like s' →
        limits.steps = none →
          (∀ r, s.Ends limits p sink r →
              ∃ r', s'.Ends limits p.ungrouped sink r' ∧ RunLike r r')
            ∧ ∀ r', s'.Ends limits p.ungrouped sink r' →
              ∃ r, s.Ends limits p sink r ∧ RunLike r r' := by
  refine ⟨Code.ofProgram_ungrouped p, fun s s' limits sink hs hlimits =>
    ⟨fun r hr => ?_, fun r' hr' => ?_⟩⟩
  · exact hr.alike hlimits hs p.ungrouped_ungrouped.symm
  · obtain ⟨r, hr, hlike⟩ :=
      hr'.alike hlimits hs.symm p.ungrouped_ungrouped
    exact ⟨r, hr, hlike.symm⟩

/-- A function and a call in parentheses. -/
theorem parentheses_transparent_call :
    let p := (Program.ofText 0
      "fn f(x) \x7b return ((x)); \x7d print (f)((\"a\"));").1
    (⟨none, 5⟩ : Limits).steps = none ∧ fresh.Like fresh
      ∧ ∃ r', fresh.Ends ⟨none, 5⟩ p.ungrouped .unlimited r'
        ∧ r'.2.2.written.toList = "a\n".toUTF8.toList := by
  intro p
  let r := fresh.run ⟨none, 5⟩ 9 p .unlimited
  have hvalue : r.1.value?.isSome = true := by decide +kernel
  have hprinted : r.2.2.written.toList = "a\n".toUTF8.toList := by
    decide +kernel
  have hends : fresh.Ends ⟨none, 5⟩ p .unlimited r := by
    refine ⟨9, rfl, fun h => ?_⟩
    rw [h] at hvalue
    cases hvalue
  obtain ⟨r', hr', hlike⟩ := ((parentheses_transparent p).2 fresh fresh
    ⟨none, 5⟩ .unlimited (.refl fresh) rfl).1 r hends
  exact ⟨rfl, .refl fresh, r', hr', hlike.printed ▸ hprinted⟩

end Session

end Script
