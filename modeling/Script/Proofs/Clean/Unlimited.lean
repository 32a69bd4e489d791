/-
How many files a cleaning has room for. Beside the walk, which stops where
too many files would be open, goes one that has room for any number of them
and does not care whether one of them is open already. It tells how deep
the include directives of a text are nested, whatever the limit is: where
one more than `depth` files are open, a chain of `depth` directives leads to
the innermost of them.

The two walks take the same steps as long as the free one stays within the
bounds (`iterate_eq_roam`); where it leaves them first, the limited one ends
(`step_of_crowded`). The entry file counts among the files that are open,
so what is reached is one include directive less than there may be files.
-/
import Mathlib.Data.Nat.Find
import Script.Proofs.Clean.Alignment
import Script.Proofs.Clean.Depth

namespace Script

namespace Clean

open Script.Action

/-- Finds the file that an include directive asks for, and registers it,
whatever files are open. -/
def fetch (resolver : Resolver) (asker : String) (asked : List Char)
    (span : Span) : Cleaning FileId := do
  let some path := includePath? asked | refuse .includePath span
  let some found := resolver asker path | refuse (.unresolved path) span
  modifyGet fun s => s.opening found

variable {resolver : Resolver} {opened : List String}
  {asked : List Char} {span : Span} {s t : State} {id : FileId}

theorem fetch_ok {asker : String}
    (h : fetch resolver asker asked span s = .ok id t) :
    ∃ path found, includePath? asked = some path
      ∧ resolver asker path = some found ∧ s.opening found = (id, t) := by
  unfold fetch at h
  cases hpath : includePath? asked with
  | none =>
      rw [hpath] at h
      exact (refuse_ok.1 h).elim
  | some path =>
      rw [hpath] at h
      dsimp only at h
      cases hfound : resolver asker path with
      | none =>
          rw [hfound] at h
          exact (refuse_ok.1 h).elim
      | some found =>
          rw [hfound] at h
          exact ⟨path, found, rfl, hfound, modifyGet_ok.1 h⟩

/-- Where there is room, a file that is fetched and whose name is new is
granted. -/
theorem request_of_fetch (hroom : opened.length < maxOpenFiles)
    (h : fetch resolver (opened.headD "") asked span s = .ok id t)
    (hnew : ∀ found, s.opening found = (id, t) → found.name ∉ opened) :
    request resolver opened asked span s = .ok id t := by
  obtain ⟨path, found, hpath, hfound, hopening⟩ := fetch_ok h
  have hname : ¬ opened.contains found.name = true :=
    fun hmem => hnew found hopening (List.contains_iff_mem.1 hmem)
  unfold request
  rw [hpath]
  dsimp only
  rw [if_neg (Nat.not_le_of_lt hroom), hfound]
  dsimp only
  rw [if_neg hname]
  exact modifyGet_ok.2 hopening

/-- Where there is none, it is refused. -/
theorem request_of_crowded (hfull : maxOpenFiles ≤ opened.length)
    (h : fetch resolver (opened.headD "") asked span s = .ok id t) :
    request resolver opened asked span s = .error ⟨.tooDeep, span⟩ s := by
  obtain ⟨path, _, hpath, -⟩ := fetch_ok h
  unfold request
  rw [hpath]
  dsimp only
  rw [if_pos hfull]
  rfl

namespace Walk

-- ======================================================== the free walk

/-- One step of a walk that has room for any number of files. -/
def roam (resolver : Resolver) : Walk → Walk
  | going (⟨file, name, conditionals, line :: rest⟩ :: below) s =>
      match pasteOf? conditionals line with
      | some asked =>
          next ((fetch resolver name asked (directiveSpan file line)
            >>= openFile) s)
            fun f => going (f :: ⟨file, name, conditionals, rest⟩ :: below)
      | none =>
          step resolver
            (going (⟨file, name, conditionals, line :: rest⟩ :: below) s)
  | w => step resolver w

/-- A walk that ended with a fault. -/
def Failed : Walk → Prop
  | ended (.error ..) => True
  | _ => False

instance : DecidablePred Failed
  | going .. => .isFalse not_false
  | ended (.ok ..) => .isFalse not_false
  | ended (.error ..) => .isTrue trivial

/-- An entry file that is cleaned without a fault, if there is always
room. -/
def Faultless (resolver : Resolver) (sources : Sources) (file : FileId) :
    Prop :=
  ∀ n, ¬ ((roam resolver)^[n] (start sources file)).Failed

/-- An entry file from which no file comes to be opened inside of
itself. -/
def Acyclic (resolver : Resolver) (sources : Sources) (file : FileId) :
    Prop :=
  ∀ n, (((roam resolver)^[n] (start sources file)).files.map
    (·.name)).Nodup

/-- An entry file under which include directives are nested so deep: each
of them counts, and stands in the file that the one around it asks for. -/
def Nests (resolver : Resolver) (sources : Sources) (file : FileId)
    (depth : Nat) : Prop :=
  ∃ n, ((roam resolver)^[n] (start sources file)).files.length = depth + 1

/-- The bounds are about the files that are open. -/
theorem bounded_iff {w : Walk} : w.Bounded ↔
    w.files.length ≤ maxOpenFiles ∧ (w.files.map (·.name)).Nodup := by
  cases w with
  | going opened s => exact Iff.rfl
  | ended r =>
      constructor
      · intro _
        exact ⟨Nat.zero_le _, List.nodup_nil⟩
      · intro _
        trivial

-- ============================================================= one step

/-- What the free walk does next: an include directive is carried out, or
it takes the step of the limited one. -/
theorem roam_cases (resolver : Resolver) (w : Walk) :
    roam resolver w = step resolver w
      ∨ ∃ file name conditionals line rest below asked s,
        w = going (⟨file, name, conditionals, line :: rest⟩ :: below) s
          ∧ pasteOf? conditionals line = some asked
          ∧ roam resolver w = next ((fetch resolver name asked
              (directiveSpan file line) >>= openFile) s)
            fun f =>
              going (f :: ⟨file, name, conditionals, rest⟩ :: below) := by
  unfold roam
  split
  case h_1 file name conditionals line rest below s =>
      cases hpaste : pasteOf? conditionals line with
      | none => exact .inl rfl
      | some asked =>
          exact .inr ⟨file, name, conditionals, line, rest, below, asked, s,
            rfl, hpaste, rfl⟩
  case h_2 => exact .inl rfl

/-- A directive that the free walk carries out without a fault: the file
is found, and stands on top of the others. -/
theorem next_fetch {name : String} {goOn : OpenFile → State → Walk}
    (h : ¬ (next ((fetch resolver name asked span >>= openFile) s)
      goOn).Failed) :
    ∃ id t f u, fetch resolver name asked span s = .ok id t
      ∧ openFile id t = .ok f u
      ∧ next ((fetch resolver name asked span >>= openFile) s) goOn
        = goOn f u := by
  rw [next_bind] at h ⊢
  cases hfetch : fetch resolver name asked span s with
  | error e t =>
      rw [hfetch] at h
      exact (h trivial).elim
  | ok id t =>
      rw [hfetch] at h
      cases hopen : openFile id t with
      | error e u =>
          refine (h ?_).elim
          show (next (openFile id t) goOn).Failed
          rw [hopen]
          trivial
      | ok f u =>
          refine ⟨id, t, f, u, rfl, hopen, ?_⟩
          show next (openFile id t) goOn = _
          rw [hopen]
          rfl

/-- Within the bounds both walks take the same step. -/
theorem step_eq_roam {w : Walk} (hfault : ¬ (roam resolver w).Failed)
    (hbounded : (roam resolver w).Bounded) :
    step resolver w = roam resolver w := by
  rcases roam_cases resolver w with hsame | ⟨file, name, conditionals, line,
    rest, below, asked, s, rfl, hpaste, hroam⟩
  · exact hsame.symm
  · rw [hroam] at hfault hbounded ⊢
    obtain ⟨id, t, f, u, hfetch, hopen, hnext⟩ := next_fetch hfault
    rw [hnext] at hbounded ⊢
    obtain ⟨hlength, hnames⟩ := hbounded
    obtain ⟨rfl, source, text, hsource, -, rfl⟩ := openFile_ok hopen
    have hrequest : request resolver (name :: below.map (·.name)) asked
        (directiveSpan file line) s = .ok id t := by
      apply request_of_fetch
      · rw [List.length_cons, List.length_cons] at hlength
        rw [List.length_cons, List.length_map]
        omega
      · exact hfetch
      · intro found hopening
        obtain ⟨rfl, rfl⟩ := Prod.ext_iff.1 hopening
        obtain rfl :=
          Option.some.inj ((Sources.get?_push _ _).symm.trans hsource)
        exact (List.nodup_cons.1 hnames).1
    rw [step_paste hpaste, next_bind, hrequest]
    show next (openFile id t) _ = _
    rw [hopen]
    rfl

/-- Where the free walk has no room left among the files that may be open,
the limited one ends. -/
theorem step_of_crowded {w : Walk} (hfault : ¬ (roam resolver w).Failed)
    (hroom : w.files.length ≤ maxOpenFiles)
    (hcrowded : maxOpenFiles < (roam resolver w).files.length)
    (hnames : (w.files.map (·.name)).Nodup) :
    ∃ e t, step resolver w = ended (.error e t)
      ∧ e.fault.code = "E0105" := by
  rcases roam_cases resolver w with hsame | ⟨file, name, conditionals, line,
    rest, below, asked, s, rfl, hpaste, hroam⟩
  · -- a step of the limited walk keeps to the bounds
    have hbounded : (step resolver w).Bounded :=
      (bounded_iff.2 ⟨hroom, hnames⟩).step
    rw [← hsame] at hbounded
    exact absurd (bounded_iff.1 hbounded).1 (Nat.not_le_of_lt hcrowded)
  · rw [hroam] at hfault hcrowded
    obtain ⟨id, t, f, u, hfetch, -, hnext⟩ := next_fetch hfault
    rw [hnext] at hcrowded
    have hfull : maxOpenFiles
        ≤ (name :: below.map (·.name)).length := by
      change maxOpenFiles < (below.length + 1) + 1 at hcrowded
      rw [List.length_cons, List.length_map]
      omega
    rw [step_paste hpaste, next_bind, request_of_crowded hfull hfetch]
    exact ⟨⟨.tooDeep, directiveSpan file line⟩, s, rfl, rfl⟩

-- ========================================================= a whole walk

variable {sources : Sources} {file : FileId}

/-- Both walks are the same up to a moment, if there is room for all files
that the free one has opened until then. -/
theorem iterate_eq_roam (hfault : Faultless resolver sources file)
    (hacyclic : Acyclic resolver sources file) (n : Nat)
    (h : ∀ m ≤ n, ((roam resolver)^[m] (start sources file)).files.length
      ≤ maxOpenFiles) :
    (step resolver)^[n] (start sources file)
      = (roam resolver)^[n] (start sources file) := by
  induction n with
  | zero => rfl
  | succ n ih =>
      have hbefore := ih fun m hm => h m (Nat.le_succ_of_le hm)
      have hbounded :=
        bounded_iff.2 ⟨h (n + 1) (Nat.le_refl _), hacyclic (n + 1)⟩
      have hgood := hfault (n + 1)
      rw [Function.iterate_succ_apply'] at hbounded hgood
      rw [Function.iterate_succ_apply', Function.iterate_succ_apply',
        hbefore]
      exact step_eq_roam hgood hbounded

/-- If the free walk always has room, cleaning succeeds. -/
theorem cleanFile_of_room (hfault : Faultless resolver sources file)
    (hacyclic : Acyclic resolver sources file)
    (h : ∀ n, ((roam resolver)^[n] (start sources file)).files.length
      ≤ maxOpenFiles) :
    ∃ t, cleanFile resolver (maxOpenFiles - 1) [] file (.start sources)
      = .ok () t := by
  obtain ⟨n, hend⟩ := @leads_start resolver sources file
  rw [iterate_eq_roam hfault hacyclic n fun m _ => h m] at hend
  have hgood := hfault n
  rw [hend] at hgood
  cases hclean : cleanFile resolver (maxOpenFiles - 1) [] file
      (.start sources) with
  | ok u t => exact ⟨t, rfl⟩
  | error e t =>
      rw [hclean] at hgood
      exact (hgood trivial).elim

/-- If the free walk runs out of room, cleaning fails. The moment is the
first one at which too many files are open. -/
theorem cleanFile_of_crowded (hfault : Faultless resolver sources file)
    (hacyclic : Acyclic resolver sources file)
    (h : ∃ n, maxOpenFiles
      < ((roam resolver)^[n] (start sources file)).files.length) :
    ∃ e t, cleanFile resolver (maxOpenFiles - 1) [] file (.start sources)
        = .error e t
      ∧ e.fault.code = "E0105" := by
  obtain ⟨n, hcrowded, hfirst⟩ : ∃ n, maxOpenFiles
        < ((roam resolver)^[n] (start sources file)).files.length
      ∧ ∀ m < n, ((roam resolver)^[m] (start sources file)).files.length
        ≤ maxOpenFiles := by
    classical
    exact ⟨Nat.find h, Nat.find_spec h,
      fun m hm => Nat.le_of_not_lt (Nat.find_min h hm)⟩
  cases n with
  | zero =>
      have hstart := (bounded_iff.1 (bounded_start sources file)).1
      exact absurd hstart (Nat.not_le_of_lt hcrowded)
  | succ n =>
      have hsame := iterate_eq_roam hfault hacyclic n
        fun m hm => hfirst m (Nat.lt_succ_of_le hm)
      have hgood := hfault (n + 1)
      rw [Function.iterate_succ_apply'] at hcrowded hgood
      obtain ⟨e, t, hstep, hcode⟩ := step_of_crowded hgood
        (hfirst n (Nat.lt_succ_self n)) hcrowded (hacyclic n)
      obtain ⟨m, hend⟩ := @leads_start resolver sources file
      have hlast : (step resolver)^[n + 1] (start sources file)
          = ended (.error e t) := by
        rw [Function.iterate_succ_apply', hsame, hstep]
      exact ⟨e, t, ended_unique hend hlast, hcode⟩

-- ======================================================== walks that end

/-- Whether a walk has ended. -/
def isOver : Walk → Bool
  | going .. => false
  | ended _ => true

/-- A free walk that has ended goes on no more. -/
theorem iterate_roam_of_isOver {w : Walk} (h : w.isOver = true) (n : Nat) :
    (roam resolver)^[n] w = w := by
  cases w with
  | going opened s => cases h
  | ended r =>
      induction n with
      | zero => rfl
      | succ n ih => exact ih

/-- What holds of a free walk until it has ended holds of all of it. -/
theorem forall_iterate_roam {p : Walk → Prop} {last : Nat} {w : Walk}
    (hover : ((roam resolver)^[last] w).isOver = true)
    (h : ∀ n < last + 1, p ((roam resolver)^[n] w)) (n : Nat) :
    p ((roam resolver)^[n] w) := by
  by_cases hn : n < last + 1
  · exact h n hn
  · have hlater : n = (n - last) + last := by omega
    rw [hlater, Function.iterate_add_apply, iterate_roam_of_isOver hover]
    exact h last (Nat.lt_succ_self last)

end Walk

end Clean

open Clean

/-- A file that is cleaned is registered. -/
theorem Cleaned.ofFile_of_ok {sources : Sources} {file : FileId}
    {resolver : Resolver} {t : State}
    (h : cleanFile resolver (maxOpenFiles - 1) [] file (.start sources)
      = .ok () t) :
    ∃ cleaned after, ofFile sources file resolver = (.ok cleaned, after) := by
  have hready : Ready (.start sources) := ⟨rfl, nofun⟩
  obtain ⟨source, -, -, hsource, -⟩ := cleanFile_ok h
  have ht := (laid_of_cleanFile hready h).1.sources file source hsource
  unfold State.start at h
  unfold ofFile
  dsimp only
  rw [h]
  dsimp only
  rw [ht]
  exact ⟨_, _, rfl⟩

/-- How deep include directives may be nested, for files that are free of
other faults and never come back to an open one: the limit counts the files
that are open, and the entry file is one of them. So cleaning fails if and
only if as many directives are nested as there may be open files; anything
less is accepted. -/
theorem Cleaned.too_deep_iff (sources : Sources) (file : FileId)
    (resolver : Resolver)
    (hfault : Walk.Faultless resolver sources file)
    (hacyclic : Walk.Acyclic resolver sources file) :
    ((∃ refusal after,
        ofFile sources file resolver = (.error refusal, after)
          ∧ refusal.diagnostic.code = some "E0105")
      ↔ ∃ depth, maxOpenFiles ≤ depth
        ∧ Walk.Nests resolver sources file depth)
      ∧ ((∀ depth, Walk.Nests resolver sources file depth →
          depth < maxOpenFiles) →
        ∃ cleaned after,
          ofFile sources file resolver = (.ok cleaned, after)) := by
  have hcrowded (h : ∃ depth, maxOpenFiles ≤ depth
      ∧ Walk.Nests resolver sources file depth) :
      ∃ refusal after,
        ofFile sources file resolver = (.error refusal, after)
          ∧ refusal.diagnostic.code = some "E0105" := by
    obtain ⟨depth, hdepth, n, hn⟩ := h
    obtain ⟨e, t, hclean, hcode⟩ := Walk.cleanFile_of_crowded hfault
      hacyclic ⟨n, by omega⟩
    unfold State.start at hclean
    unfold ofFile
    dsimp only
    rw [hclean]
    exact ⟨e, t.sources, rfl, congrArg some hcode⟩
  have hroom (h : ∀ depth, Walk.Nests resolver sources file depth →
      depth < maxOpenFiles) :
      ∃ cleaned after,
        ofFile sources file resolver = (.ok cleaned, after) := by
    have hlength (n : Nat) : ((Walk.roam resolver)^[n]
        (.start sources file)).files.length ≤ maxOpenFiles := by
      cases hn : ((Walk.roam resolver)^[n]
          (.start sources file)).files.length with
      | zero => exact Nat.zero_le _
      | succ depth => exact h depth ⟨n, hn⟩
    obtain ⟨t, hclean⟩ :=
      Walk.cleanFile_of_room hfault hacyclic hlength
    exact ofFile_of_ok hclean
  refine ⟨⟨?_, hcrowded⟩, hroom⟩
  rintro ⟨refusal, after, hrun, -⟩
  by_contra hnone
  obtain ⟨cleaned, after', hok⟩ := hroom fun depth hnests => by
    by_contra hdepth
    exact hnone ⟨depth, Nat.le_of_not_lt hdepth, hnests⟩
  rw [hok] at hrun
  cases hrun

/-- A chain of files: the entry file asks for `0`, each file for the one
named by the next character, and the 32nd of them, `O`, for nothing. No
directive is nested in more than 31 others, and the innermost one is
refused. -/
theorem Cleaned.too_deep_at_limit :
    let resolver : Resolver := fun _ path =>
      path.toList.head?.map fun c => ⟨path, if c = 'O' then "" else
        String.ofList
          ("#include \"".toList ++ [Char.ofNat (c.toNat + 1), '"'])⟩
    let sources := (Sources.empty.add "main" "#include \"0\"").2
    (∀ depth, Walk.Nests resolver sources 0 depth → depth ≤ 32)
      ∧ ∃ refusal after,
        ofFile sources 0 resolver = (.error refusal, after)
          ∧ refusal.diagnostic.code = some "E0105" := by
  intro resolver sources
  let roams (n : Nat) := (Walk.roam resolver)^[n] (.start sources 0)
  -- one walk is looked at as a whole: it has to be computed only once
  obtain ⟨hseen, hdeep, hover⟩ : (∀ n < 67, ¬ (roams n).Failed
        ∧ ((roams n).files.map (·.name)).Nodup
        ∧ (roams n).files.length ≤ 33)
      ∧ (roams 32).files.length = 33 ∧ (roams 66).isOver = true := by
    decide +kernel
  have hall := Walk.forall_iterate_roam (p := fun w => ¬ w.Failed
    ∧ (w.files.map (·.name)).Nodup ∧ w.files.length ≤ 33) hover hseen
  constructor
  · rintro depth ⟨n, hn⟩
    have hlength := (hall n).2.2
    omega
  · apply (Cleaned.too_deep_iff sources 0 resolver (fun n => (hall n).1)
      (fun n => (hall n).2.1)).1.2
    exact ⟨32, Nat.le_refl _, 32, hdeep⟩

end Script
