/-
Names in a run of a program, against the variables that the compiler gave
to them. A use finds a binding that was made by a declaration with the same
variable, unless the declaration is late: a function in a block gets its
variables where it is declared, but looks its names up when it is called,
and by then the block can have declared more. And a name that is not bound
is one of the main function, in a function that was called before it.
-/
import Script.Proofs.Lexical.Naming
import Script.Proofs.Lexical.Runs
import Script.Proofs.Sessions
import Script.Proofs.Stack.Programs

namespace Script

open Eval Lexical

-- ================================================================= names

theorem append_subset_append {xs xs' ys ys' : List Ident} (h : xs ⊆ xs')
    (h' : ys ⊆ ys') : xs ++ ys ⊆ xs' ++ ys' :=
  List.append_subset.2
    ⟨List.Subset.trans h (List.subset_append_left ..),
      List.Subset.trans h' (List.subset_append_right ..)⟩

mutual

/-- A name in use is one of the names. -/
theorem Stmt.used_names : ∀ t : Stmt, t.used ⊆ t.names
  | .declare .. => List.subset_cons_self ..
  | .function d => d.used_names
  | .expression .. => List.Subset.refl _
  | .print .. => List.Subset.refl _
  | .block b => b.used_names
  | .branch _ _ b e =>
      append_subset_append (List.Subset.refl _)
        (append_subset_append b.used_names (elseUsed_names e))
  | .loop _ _ b =>
      append_subset_append (List.Subset.refl _) b.used_names
  | .giveBack .. => List.Subset.refl _
  | .empty _ => List.Subset.refl _

theorem elseUsed_names : ∀ t : Option Stmt, elseUsed t ⊆ elseNames t
  | none => List.Subset.refl _
  | some t => t.used_names

theorem FnDecl.used_names : ∀ d : FnDecl, d.used ⊆ d.names
  | ⟨_, _, b, _⟩ =>
      List.Subset.trans b.used_names (List.Subset.trans
        (List.subset_append_right ..) (List.subset_cons_self ..))

theorem Block.used_names : ∀ b : Block, b.used ⊆ b.names
  | ⟨ts, _⟩ => stmtsUsed_names ts

theorem stmtsUsed_names : ∀ ts : List Stmt, stmtsUsed ts ⊆ stmtsNames ts
  | [] => List.Subset.refl _
  | t :: ts => append_subset_append t.used_names (stmtsUsed_names ts)

end

namespace Program

variable {file : FileId} {text : String} {c : Code}

-- ============================================================ resolution

theorem nodup_keys_of_read
    (hread : hasErrors (ofText file text).2 = false) :
    (ofText file text).1.notes.keys.Nodup := by
  obtain ⟨body, hordered, hstmts, -⟩ := ofText_of_no_error hread
  exact nodup_keys hstmts hordered

/-- Whether the functions of the code are made of the passages of a program,
with the variables that were noted of the names. -/
def ResolvedIn (p : Program) (c : Code) : Prop :=
  List.Forall₂ (Told p.variableAt) c.functions p.passages

/-- The names of a program with code mean what was noted of them, to the
levels around them and to the code. -/
theorem named_of_code (hread : hasErrors (ofText file text).2 = false)
    (hcode : (Code.ofProgram (ofText file text).1).1 = some c) :
    Named (ofText file text).1 ∧ (ofText file text).1.ResolvedIn c := by
  obtain ⟨body, -, hstmts, -⟩ := ofText_of_no_error hread
  unfold Code.ofProgram at hcode
  split at hcode
  case h_1 s hmade =>
      cases hcode
      obtain ⟨-, hknown, htold⟩ := Code.programCode_passes hmade
      have hsettled := settled_of_known (nodup_keys_of_read hread) hknown
      refine ⟨named hsettled hstmts.isBraced, htold _ fun n hn => ?_⟩
      obtain ⟨v, hv, hat⟩ := hsettled n hn
      exact hat.trans hv.symm
  case h_2 => cases hcode

/-- The code of a program accesses the variables of its names. Whatever the
limits, an observed run of the program is its run from an empty root scope,
and every use of a name in it finds a binding that was made by a declaration
with the variable of the use or by one that is late. -/
theorem uses_explained (hread : hasErrors (ofText file text).2 = false)
    (hcode : (Code.ofProgram (ofText file text).1).1 = some c)
    (limits : Limits) (fuel : Nat) (sink : Sink) :
    let p := (ofText file text).1
    let run := Watched.program limits fuel 0 p (Watch.start sink)
    p.ResolvedIn c
      ∧ Watched.erase run = Eval.program limits fuel 0 p ⟨.root, sink, 0⟩
      ∧ ∀ s ∈ Watched.seen run, Explained p s := by
  obtain ⟨hnamed, hresolved⟩ := named_of_code hread hcode
  exact ⟨hresolved,
    Watched.program_erases limits fuel 0 _ (Watch.start sink),
    hnamed.explained limits fuel sink⟩

/-- A function in a block that is called behind a late declaration finds
this one, while the variable of its use is another. -/
theorem use_of_late_declaration :
    let text := "let x = \"a\";
      \x7b
        fn g() \x7b print x; \x7d
        let x = \"b\";
        g();
      \x7d"
    let p := (ofText 0 text).1
    hasErrors (ofText 0 text).2 = false
      ∧ (Code.ofProgram p).1.isSome
      ∧ ∃ s ∈ Watched.seen
          (Watched.program .standard 100 0 p (Watch.start .unlimited)),
        p.variableAt s.use = some (.global 0)
          ∧ s.maker.bind p.variableAt = some (.global 2) := by
  decide +kernel

/-- A recursive function in a block, with a shadowed parameter and a global
that is assigned in between. -/
theorem uses_explained_recursive :
    let text := "let a = false; \x7b
      fn g(x) \x7b
        if a \x7b let x = \"b\"; return x; \x7d
        a = true; return g(x);
      \x7d
      g(\"c\"); \x7d"
    let p := (ofText 0 text).1
    let run := Watched.program .standard 100 0 p (Watch.start .unlimited)
    hasErrors (ofText 0 text).2 = false
      ∧ (∃ c, (Code.ofProgram p).1 = some c ∧ p.ResolvedIn c)
      ∧ (Watched.seen run).length = 7
      ∧ ∀ s ∈ Watched.seen run, Explained p s := by
  intro text p run
  have hread : hasErrors (ofText 0 text).2 = false := by decide +kernel
  have hcode : ((Code.ofProgram (ofText 0 text).1).1).isSome = true := by
    decide +kernel
  obtain ⟨c, hc⟩ := Option.isSome_iff_exists.1 hcode
  obtain ⟨hresolved, -, hseen⟩ :=
    uses_explained hread hc .standard 100 .unlimited
  exact ⟨hread, ⟨c, hc, hresolved⟩, by decide +kernel, hseen⟩

-- ================================================================ faults

/-- Names of functions that are hoisted stand outside of the other
statements. -/
theorem others_apart {p : Program} (hkeys : p.notes.keys.Nodup)
    {d : FnDecl} (hd : d ∈ p.functions) {x y : Ident} (hx : x ∈ d.used)
    (hy : y ∈ stmtsNames p.others) : y.span ≠ x.span := by
  unfold notes at hkeys
  rw [keys_append, keys_append, stmtsKeys_notes] at hkeys
  have hapart := (List.nodup_append.1
    (List.nodup_append.1 hkeys).2.1).2.2
  refine hapart _ (List.mem_map_of_mem hy) _ ?_
  have hx' : x.span ∈ (d.notes p.final).keys := by
    obtain ⟨z, params, ⟨ts, s⟩, s'⟩ := d
    unfold FnDecl.notes
    rw [keys_append, stmtsKeys_notes]
    exact List.mem_append_right _
      (List.mem_map_of_mem (stmtsUsed_names ts hx))
  obtain ⟨n, hn, hspan⟩ := List.mem_map.1 hx'
  exact List.mem_map.2 ⟨n, List.mem_flatMap.2 ⟨d, hd, hn⟩, hspan⟩

/-- A run from an empty root scope that fails over a name does so in a
function at the top of the program, over a name that has a variable of the
main function; no name of the other statements is to blame. -/
theorem name_fault_in_hoisted
    (hread : hasErrors (ofText file text).2 = false)
    (hcode : (Code.ofProgram (ofText file text).1).1 = some c)
    {limits : Limits} {patience : Nat} {sink sink' : Sink} {s : Session}
    {d : Diagnostic}
    (hrun : Session.fresh.run limits patience (ofText file text).1 sink =
      (.failed d, s, sink')) (htopic : d.topic = .name) :
    let p := (ofText file text).1
    p.ResolvedIn c
      ∧ ∃ x, (d = (Eval.Fault.undefinedVariable x.name).report.at x.span
          ∨ d = (Eval.Fault.undeclaredAssignment x.name).report.at x.span)
        ∧ (∃ f ∈ p.functions, x ∈ f.used)
        ∧ (∃ slot, p.variableAt x.span = some (.global slot))
        ∧ ∀ y ∈ stmtsNames p.others, y.span ≠ x.span := by
  intro p
  have hkeys : p.notes.keys.Nodup := nodup_keys_of_read hread
  obtain ⟨fault, span, m, hx, rfl, -⟩ := Session.outcome_of_failed hrun
  obtain ⟨hnamed, hresolved⟩ := named_of_code hread hcode
  obtain ⟨x, rfl, hfault, f, hf, hused, hslot⟩ :=
    (hnamed.blamed hx).of_name htopic
  refine ⟨hresolved, x, ?_, ⟨f, hf, hused⟩, hslot, fun y hy =>
    others_apart hkeys hf hused hy⟩
  rcases hfault with rfl | rfl
  · exact .inl rfl
  · exact .inr rfl

/-- A function that is called in front of the global it uses. -/
theorem name_fault_of_early_call :
    let text := "fn f() \x7b return x; \x7d f(); let x = \"a\";"
    let p := (ofText 0 text).1
    hasErrors (ofText 0 text).2 = false
      ∧ (∃ c, (Code.ofProgram p).1 = some c ∧ p.ResolvedIn c)
      ∧ ∃ d s sink, Session.fresh.run .standard 0 p .unlimited =
          (.failed d, s, sink) ∧ d.topic = .name
        ∧ ∃ x, (d = (Eval.Fault.undefinedVariable x.name).report.at x.span
            ∨ d = (Eval.Fault.undeclaredAssignment x.name).report.at x.span)
          ∧ (∃ f ∈ p.functions, x ∈ f.used)
          ∧ (∃ slot, p.variableAt x.span = some (.global slot))
          ∧ ∀ y ∈ stmtsNames p.others, y.span ≠ x.span := by
  intro text p
  have hread : hasErrors (ofText 0 text).2 = false := by decide +kernel
  have hcode : ((Code.ofProgram p).1).isSome = true := by decide +kernel
  obtain ⟨c, hc⟩ := Option.isSome_iff_exists.1 hcode
  have htopics : (Session.fresh.run .standard 0 p .unlimited).1.diagnostics.map
      (·.topic) = [.name] := by decide +kernel
  generalize hrun : Session.fresh.run .standard 0 p .unlimited = outcome
    at htopics
  obtain ⟨outcome, s, sink⟩ := outcome
  cases outcome with
  | failed d =>
      have htopic : d.topic = .name := List.singleton_inj.1 htopics
      obtain ⟨hresolved, hblame⟩ :=
        name_fault_in_hoisted hread hc hrun htopic
      exact ⟨hread, ⟨c, hc, hresolved⟩, d, s, sink, rfl, htopic, hblame⟩
  | value v => cases htopics
  | starved => cases htopics

end Program

end Script
