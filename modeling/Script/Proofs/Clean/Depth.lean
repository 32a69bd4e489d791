/-
How deep a cleaning goes. Among the files that are open at a moment of
the walk there are never more than a file can stand in, and no two of one
name: a file is only put on top of the others if there is room and its
name is new. An include directive that comes back to a name finds one of
the two wanting, and ends the walk.

Both facts are about single steps. With the end of every walk, they hold
of cleaning whatever the resolver answers.
-/
import Script.Proofs.Clean.Walk

namespace Script

namespace Clean

open Script.Action

variable {resolver : Resolver} {opened : List String}
  {asked : List Char} {span : Span} {s t : State} {id : FileId}

/-- A request that is granted: there is room for one more file, and its
name is new. -/
theorem request_ok (h : request resolver opened asked span s = .ok id t) :
    opened.length < maxOpenFiles
      ∧ ∃ found, found.name ∉ opened ∧ s.opening found = (id, t) := by
  unfold request at h
  cases hpath : includePath? asked with
  | none =>
      rw [hpath] at h
      exact (refuse_ok.1 h).elim
  | some path =>
      rw [hpath] at h
      dsimp only at h
      split at h
      case isTrue =>
          obtain ⟨_, _, hfull, -⟩ := bind_ok.1 h
          exact (refuse_ok.1 hfull).elim
      case isFalse hroom =>
          refine ⟨Nat.lt_of_not_le hroom, ?_⟩
          cases hfound : resolver (opened.headD "") path with
          | none =>
              rw [hfound] at h
              exact (refuse_ok.1 h).elim
          | some found =>
              rw [hfound] at h
              dsimp only at h
              split at h
              case isTrue =>
                  obtain ⟨_, _, hopen, -⟩ := bind_ok.1 h
                  exact (refuse_ok.1 hopen).elim
              case isFalse hnew =>
                  exact ⟨found, by simpa using hnew, modifyGet_ok.1 h⟩

/-- A request for a file that is open: there is no room for it, or its
name is known. -/
theorem request_of_mem {path : String} {found : Included}
    (hpath : includePath? asked = some path)
    (hfound : resolver (opened.headD "") path = some found)
    (hopen : found.name ∈ opened) (span : Span) (s : State) :
    ∃ e, request resolver opened asked span s = .error e s
      ∧ e.fault.code = "E0105" := by
  unfold request
  rw [hpath]
  dsimp only
  by_cases hroom : maxOpenFiles ≤ opened.length
  · rw [if_pos hroom]
    exact ⟨_, rfl, rfl⟩
  · rw [if_neg hroom, hfound]
    dsimp only
    rw [if_pos (List.contains_iff_mem.2 hopen)]
    exact ⟨_, rfl, rfl⟩

namespace Walk

/-- A walk within bounds: not too many files are open, and none of them
twice. -/
def Bounded : Walk → Prop
  | going opened _ =>
      opened.length ≤ maxOpenFiles ∧ (opened.map (·.name)).Nodup
  | ended _ => True

/-- The files that are open. -/
def files : Walk → List OpenFile
  | going opened _ => opened
  | ended _ => []

/-- The file that an include directive finds, if one is next and the path
is readable. -/
def found? (resolver : Resolver) : List OpenFile → Option Included
  | ⟨_, name, conditionals, line :: _⟩ :: _ =>
      ((pasteOf? conditionals line).bind includePath?).bind (resolver name)
  | _ => none

theorem Bounded.next {α : Type} {r : EStateM.Result Refusal State α}
    {goOn : α → State → Walk}
    (h : ∀ a s, r = .ok a s → (goOn a s).Bounded) :
    (next r goOn).Bounded := by
  cases r with
  | ok a s => exact h a s rfl
  | error e s => trivial

/-- A file that is put on top of others by request stays within the
bounds. -/
theorem Bounded.push (opened : List OpenFile)
    (h : (opened.map (·.name)).Nodup)
    (asked : List Char) (span : Span) (s : State) :
    (Walk.next ((request resolver (opened.map (·.name)) asked span
      >>= openFile) s) fun file => going (file :: opened)).Bounded := by
  rw [next_bind]
  refine .next fun id t hrequest => .next fun file u hopen => ?_
  obtain ⟨hroom, found, hnew, hopening⟩ := request_ok hrequest
  obtain ⟨rfl, source, text, hsource, -, rfl⟩ := openFile_ok hopen
  obtain ⟨rfl, rfl⟩ := Prod.ext_iff.1 hopening
  obtain rfl := Option.some.inj ((Sources.get?_push _ _).symm.trans hsource)
  rw [List.length_map] at hroom
  exact ⟨hroom, List.nodup_cons.2 ⟨hnew, h⟩⟩

theorem Bounded.step {w : Walk} (h : w.Bounded) :
    (w.step resolver).Bounded := by
  cases w with
  | ended r => trivial
  | going opened s =>
      cases opened with
      | nil => trivial
      | cons top below =>
          obtain ⟨file, name, conditionals, rest⟩ := top
          obtain ⟨hlength, hnames⟩ := h
          cases rest with
          | nil =>
              exact .next fun _ _ _ => ⟨Nat.le_of_succ_le hlength,
                (List.nodup_cons.1 hnames).2⟩
          | cons line rest =>
              unfold Walk.step
              dsimp only
              split
              · exact .push (⟨file, name, conditionals, rest⟩ :: below)
                  hnames _ _ _
              · exact .next fun _ _ _ => ⟨hlength, hnames⟩

theorem Bounded.iterate (resolver : Resolver) {w : Walk} (h : w.Bounded)
    (n : Nat) :
    ((Walk.step resolver)^[n] w).Bounded := by
  induction n generalizing w with
  | zero => exact h
  | succ n ih => exact ih h.step

theorem bounded_start (sources : Sources) (file : FileId) :
    (start sources file).Bounded := by
  refine .next fun f s _ => ⟨?_, List.pairwise_singleton ..⟩
  exact Nat.succ_le_of_lt (by decide)

-- ============================================================== the end

/-- A walk that has ended goes on no more. -/
theorem iterate_ended (r : EStateM.Result Refusal State Unit) (n : Nat) :
    (step resolver)^[n] (ended r) = ended r := by
  induction n with
  | zero => rfl
  | succ n ih => exact ih

/-- All steps at which a walk has ended show one end. -/
theorem ended_unique {w : Walk} {r r' : EStateM.Result Refusal State Unit}
    {m n : Nat} (hm : (step resolver)^[m] w = ended r)
    (hn : (step resolver)^[n] w = ended r') : r = r' := by
  have hlater (k l : Nat) {r : EStateM.Result Refusal State Unit}
      (h : (step resolver)^[k] w = ended r) :
      (step resolver)^[l + k] w = ended r := by
    rw [Function.iterate_add_apply, h, iterate_ended]
  have hboth := hlater m n hm
  rw [Nat.add_comm, hlater n m hn] at hboth
  exact (ended.inj hboth).symm

/-- Cleaning an entry file is a walk that ends. -/
theorem leads_start (sources : Sources) (file : FileId) :
    Leads resolver (start sources file)
      (ended (cleanFile resolver (maxOpenFiles - 1) [] file
        (.start sources))) := by
  have hroom : (List.length ([] : List OpenFile)) + (maxOpenFiles - 1) + 1
      = maxOpenFiles := by decide
  refine (leads_of_cleanFile [] hroom file _).trans ?_
  rw [List.map_nil]
  cases cleanFile resolver (maxOpenFiles - 1) [] file (.start sources) with
  | ok u s => exact .step .refl
  | error e s => exact .refl

/-- A file that is open is not opened again. -/
theorem step_of_found? {opened : List OpenFile} {found : Included}
    (h : found? resolver opened = some found)
    (hopen : found.name ∈ opened.map (·.name)) (s : State) :
    ∃ e, step resolver (going opened s) = ended (.error e s)
      ∧ e.fault.code = "E0105" := by
  unfold found? at h
  split at h
  case h_2 => cases h
  case h_1 file name conditionals line rest below =>
      obtain ⟨path, hasked, hfound⟩ := Option.bind_eq_some_iff.1 h
      obtain ⟨asked, hpaste, hpath⟩ := Option.bind_eq_some_iff.1 hasked
      rw [List.map_cons] at hopen
      obtain ⟨e, hrequest, hcode⟩ := request_of_mem
        hpath hfound hopen (directiveSpan file line) s
      rw [step_paste hpaste, next_bind, hrequest]
      exact ⟨e, rfl, hcode⟩

end Walk

end Clean

open Clean

/-- Cleaning ends, for every entry file and every resolver. On the way
there are never more files open than are allowed, and no two of one name;
an include directive that comes back to an open file is the end, and an
error. -/
theorem Cleaned.ends_within_bounds (sources : Sources) (file : FileId)
    (resolver : Resolver) :
    let walk (n : Nat) := (Walk.step resolver)^[n] (.start sources file)
    (∃ n, walk n = .ended
        (cleanFile resolver (maxOpenFiles - 1) [] file (.start sources)))
      ∧ (∀ n opened s, walk n = .going opened s →
        opened.length ≤ maxOpenFiles
          ∧ (opened.map (·.name)).Nodup)
      ∧ ∀ n opened s found, walk n = .going opened s →
        Walk.found? resolver opened = some found →
        found.name ∈ opened.map (·.name) →
        ∃ refusal sources',
          ofFile sources file resolver = (.error refusal, sources')
            ∧ refusal.diagnostic.code = some "E0105" := by
  intro walk
  have hend : ∃ n, walk n = .ended (cleanFile resolver (maxOpenFiles - 1)
      [] file (.start sources)) := Walk.leads_start sources file
  refine ⟨hend, fun n opened s h => ?_, fun n opened s found h hfound hopen => ?_⟩
  · have hbounded := (Walk.bounded_start sources file).iterate
      resolver n
    change (walk n).Bounded at hbounded
    rwa [h] at hbounded
  · obtain ⟨e, hstep, hcode⟩ := Walk.step_of_found? hfound hopen s
    obtain ⟨m, hm⟩ := hend
    have hn : walk (n + 1) = .ended (.error e s) := by
      show (Walk.step resolver)^[n + 1] _ = _
      rw [Function.iterate_succ_apply']
      exact (congrArg _ h).trans hstep
    have hsame := Walk.ended_unique hm hn
    unfold ofFile
    dsimp only
    unfold State.start at hsame
    rw [hsame]
    exact ⟨e, _, rfl, congrArg some hcode⟩

/-- Two files that ask for each other: the walk is in both of them when
it comes back to the first. -/
theorem Cleaned.cycle_ends :
    let resolver : Resolver := fun _ path =>
      some ⟨path, if path = "a" then "#include \"b\"" else "#include \"a\""⟩
    let sources := (Sources.empty.add "main" "#include \"a\"").2
    let walk (n : Nat) := (Walk.step resolver)^[n] (.start sources 0)
    (walk 2).files.map (·.name) = ["b", "a", "main"]
      ∧ (Walk.found? resolver (walk 2).files).map (·.name) = some "a"
      ∧ ∃ refusal sources',
        ofFile sources 0 resolver = (.error refusal, sources')
          ∧ refusal.diagnostic.code = some "E0105" := by
  intro resolver sources walk
  have hopened : (walk 2).files.map (·.name) = ["b", "a", "main"] := by
    decide +kernel
  have hfound : (Walk.found? resolver (walk 2).files).map (·.name)
      = some "a" := by decide +kernel
  refine ⟨hopened, hfound, ?_⟩
  obtain ⟨found, hfound, hname⟩ := Option.map_eq_some_iff.1 hfound
  cases hwalk : walk 2 with
  | ended r =>
      rw [hwalk] at hopened
      cases hopened
  | going opened s =>
      rw [hwalk] at hopened hfound
      refine (ends_within_bounds sources 0 resolver).2.2 2 opened s found
        hwalk hfound ?_
      change opened.map (·.name) = _ at hopened
      rw [hopened, hname]
      decide

end Script
