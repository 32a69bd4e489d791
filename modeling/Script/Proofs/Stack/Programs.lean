/-
The code of a program does what running the program does, from an empty
root scope on. The functions at the top of the program are bound on both
sides first; then the statements run in the root scope itself, for which
the site has no table: a name that is declared there has its slot from the
beginning.

So code preserves runs: a program that was read without an error, that has
its functions at the top and that was made into code yields the same value
and prints the same text on the machine as in the evaluator. The tree
gives the shape that code needs, the code is placed by the tree, and
placed code does what its tree does.
-/
import Script.Proofs.Reading.Whole
import Script.Proofs.Stack.Linking
import Script.Proofs.Stack.Statements
import Script.Session

namespace Script.Stack

open Code Eval Script.Action

variable {c : Code} {roots : Names} {fs : List FnDecl} {before : ByteArray}
  {full : List Instr} {site : Site} {base : ScopeId} {i stop : Nat}
  {limits : Limits} {fuel : Nat} {place : Place} {m m' : Machine}
  {w : World} {v : Value} {p : Program}

/-- The main function in front of its return, with the result of the
program. -/
def Finishes (c : Code) (roots : Names) (fs : List FnDecl)
    (before : ByteArray) (full : List Instr) (s : State) (v : Value)
    (m' : Machine) : Prop :=
  ∃ item w' k rest, full[k]? = some .leave
    ∧ Reaches c s (w'.state full [] k (item :: rest)) ∧ Represents fs v item
    ∧ Shares fs roots c.globals.length before m' w'

theorem Finishes.after {s s' : State} (hreach : Reaches c s s')
    (h : Finishes c roots fs before full s' v m') :
    Finishes c roots fs before full s v m' := by
  obtain ⟨item, w', k, rest, hleave, hreach', hrep, hshares⟩ := h
  exact ⟨item, w', k, rest, hleave, hreach.trans hreach', hrep, hshares⟩

-- ============================================================ functions

theorem Agrees.bindFunctions {limit : Nat} {ds : List FnDecl} {k : Nat}
    {u : Unit} {depth : Nat} (stack : List Item) (callers : List Call)
    (hlinked : Linked c roots fs)
    (hds : ∀ n d, ds[n]? = some d → fs[k + n]? = some d)
    (h : BindsAt roots full i (k + 1) ds stop)
    (hagree : Agrees fs roots c.globals.length before ⟨false, limit, []⟩ base
      m 0 w)
    (hrun : (ds.forM (Run.declare ⟨0, depth⟩) : Run Unit) m = .ok u m') :
    ∃ w', Reaches c (w.state full callers i stack)
        (w'.state full callers stop stack)
      ∧ Agrees fs roots c.globals.length before ⟨false, limit, []⟩ base m' 0
        w' := by
  induction ds generalizing i k m w with
  | nil =>
      cases h
      obtain ⟨-, rfl⟩ := pure_ok.1 hrun
      exact ⟨w, .refl .., hagree⟩
  | cons d ds ih =>
      cases h with
      | cons hslot hmake hstore h =>
          rename_i slot
          obtain ⟨u', m₁, hdeclare, hrun⟩ := bind_ok.1 hrun
          obtain rfl : bound m 0 d.name.name (.function ⟨d, 0, false⟩) = m₁ :=
            modify_ok.1 hdeclare
          have hd : fs[k]? = some d := hds 0 d rfl
          have hrep : Represents fs (.function ⟨d, 0, false⟩)
              (.function (k + 1)) := .function hd rfl
          have hlt := hlinked.room _ _ hslot
          obtain ⟨hagree', -⟩ := hagree.store_root (.top roots limit)
            hlinked.distinct hslot hlt hrep
          obtain ⟨f, hf, -⟩ := hlinked.functions k d hd
          have hindex : k + 1 < c.functions.length :=
            (List.getElem?_eq_some_iff.1 hf).1
          have hhas : w.has (.global slot) :=
            Nat.lt_of_lt_of_eq hlt hagree.total.symm
          obtain ⟨w', hreach, hagree''⟩ := ih (k := k + 1)
            (fun n e he => by
              rw [Nat.add_assoc, Nat.add_comm 1]
              exact hds (n + 1) e he) h hagree' hrun
          exact ⟨w', ((Reaches.makeFunction hmake hindex).trans
            (.store (.global slot) hstore hhas)).trans hreach, hagree''⟩

-- =========================================================== statements

theorem TopAt.simulates (hlinked : Linked c roots fs) {ss : List Stmt}
    {last : Value} (hsound : site.Sound roots)
    (h : TopAt c.constants roots full site i ss stop)
    (hleave : full[stop]? = some .leave) (hlast : ss = [] → last = .nil)
    (hagree : Meets c roots fs before site base place.scope m w)
    (hrun : topLevel limits fuel place last ss m = .ok v m') :
    Finishes c roots fs before full (w.state full [] i []) v m' := by
  obtain ⟨heval, hexec⟩ : Expressions c roots fs before limits fuel
      ∧ Statements c roots fs before limits fuel := hlinked.simulates fuel
  induction ss generalizing i last m w with
  | nil =>
      cases h with
      | nil h =>
          obtain ⟨rfl, rfl⟩ := pure_ok.1 hrun
          rw [hlast rfl]
          exact ⟨.constant .nil, w, _, [], hleave, .push h, .constant .nil,
            hagree.toShares⟩
  | cons s ss ih =>
      cases h with
      | @last _ _ span e he =>
          obtain ⟨u, m₁, htick, hrun⟩ := bind_ok.1 hrun
          obtain ⟨hheap, hsink⟩ := tick_ok htick
          obtain ⟨v', m₂, hvalue, hrun⟩ := bind_ok.1 hrun
          obtain ⟨rfl, rfl⟩ := pure_ok.1 hrun
          obtain ⟨item, w', hreach, hrep, hagree', -⟩ :=
            heval _ [] _ _ _ _ _ _ hsound he [] m₁ w _ _
              (hagree.of_eq hheap hsink) hvalue
          exact ⟨item, w', _, [], hleave, hreach, hrep, hagree'.toShares⟩
      | function h => exact ih h (fun _ => rfl) hagree hrun
      | cons hnot hs hss =>
          -- Any statement but an expression is run as everywhere.
          have hstmt (hrun : thenValue (exec limits fuel place s)
              (topLevel limits fuel place .nil ss) m = .ok v m') :
              Finishes c roots fs before full
                (w.state full [] i []) v m' := by
            obtain ⟨flow, m₁, hflow, hrest⟩ := bind_ok.1 hrun
            have hends := hexec _ [] _ _ _ _ _ _ _ hsound hs [] m w flow m₁
              hagree hflow
            cases flow with
            | next =>
                obtain ⟨w', hreach, hagree', -⟩ := hends
                exact (ih hss (fun _ => rfl) hagree' hrest).after hreach
            | returned v' =>
                obtain ⟨rfl, rfl⟩ := pure_ok.1 hrest
                obtain ⟨item, w', k, rest, hleave', hreach, hrep, hshares,
                  -⟩ := hends
                exact ⟨item, w', k, rest, hleave', hreach, hrep, hshares⟩
          cases s with
          | function d => cases hs
          | expression span e =>
              cases hs with
              | expression he hpop =>
                  obtain ⟨u, m₁, htick, hrun⟩ := bind_ok.1 hrun
                  obtain ⟨hheap, hsink⟩ := tick_ok htick
                  obtain ⟨v', m₂, hvalue, hrun⟩ := bind_ok.1 hrun
                  obtain ⟨item, w', hreach, -, hagree', -⟩ :=
                    heval _ [] _ _ _ _ _ _ hsound he [] m₁ w _ _
                      (hagree.of_eq hheap hsink) hvalue
                  refine (ih hss (fun hnil => ?_) hagree' hrun).after
                    (hreach.trans (.pop hpop))
                  exact (hnot span e (hnil ▸ rfl)).elim
          | _ => exact hstmt hrun

-- ============================================================= programs

/-- A machine before the first instruction, against the evaluator before
the first statement. -/
theorem Agrees.start (c : Code) (roots : Names) (fs : List FnDecl)
    (sink : Sink) :
    Agrees fs roots c.globals.length sink.written
      ⟨false, c.globals.length, []⟩ 1 ⟨.root, sink, 0⟩ 0
      ⟨[], List.replicate c.globals.length none, ""⟩ where
  root := ⟨[], rfl, fun _ _ hv => nomatch hv⟩
  total := List.length_replicate ..
  printed := by
    show sink.written = sink.written ++ "".toUTF8
    simp
  blocks := rfl
  limit := List.length_replicate ..
  based := Nat.le_refl _

/-- If the code of a program is as it should be, a run of the program that
yields a value is matched by a run of the code. -/
theorem ProgramAt.simulates (hplaced : ProgramAt c roots p)
    (hapart : ∀ (k l : Nat) (d e : FnDecl), p.functions[k]? = some d →
      p.functions[l]? = some e → d.id = e.id → k = l)
    {sink : Sink} (hrun : program limits fuel 0 p ⟨.root, sink, 0⟩ =
      .ok v m') :
    ∃ n item printed, run c n (start c) = .finished item printed
      ∧ m'.sink.written = sink.written ++ printed.toUTF8
      ∧ Represents p.functions v item := by
  have hlinked : Linked c roots p.functions :=
    { distinct := hplaced.distinct
      room := hplaced.room
      functions := hplaced.functions
      named :=
        { name := fun k d hd => by
            obtain ⟨f, hf, hfunction⟩ := hplaced.functions k d hd
            exact ⟨f, hf, hfunction.name⟩
          apart := hapart } }
  obtain ⟨f, i, j, hf, hbinds, htop, hleave⟩ := hplaced.main
  obtain ⟨u, m₁, hbind, hrest⟩ := bind_ok.1 hrun
  obtain ⟨w, hreach, hagree⟩ := Agrees.bindFunctions [] [] hlinked
    (fun n d hd => by rwa [Nat.zero_add]) hbinds
    (.start c roots p.functions sink) hbind
  obtain ⟨item, w', k, rest, hleave', hreach', hrep, hshares⟩ :=
    htop.simulates hlinked (.top roots _) hleave (fun _ => rfl) hagree hrest
  have hstart : start c = (⟨[], List.replicate c.globals.length none, ""⟩ :
      World).state f.code [] 0 [] := by
    unfold start
    rw [hf]
    rfl
  obtain ⟨n, hn⟩ := (hreach.trans hreach').finished hleave'
  rw [← hstart] at hn
  exact ⟨n, item, w'.printed, hn, hshares.printed, hrep⟩

end Script.Stack

namespace Script

-- ================================================================= texts

open Grammar

/-- A text without errors makes a tree that the grammar derives from
tokens in order. -/
theorem Program.ofText_of_no_error {file : FileId} {text : String}
    (h : hasErrors (ofText file text).2 = false) :
    ∃ body, Ordered body
      ∧ StmtsIn .endOfInput body (ofText file text).1.statements
      ∧ (ofText file text).1.isLawful = true := by
  obtain ⟨hordered, -, body, last, htokens, hlast, hbody⟩ :=
    Token.ofText_complete file text
  rw [ofText_eq] at h ⊢
  have hreports : hasErrors (ofTokens file text.utf8ByteSize
      (Token.ofText file text).1).2 = false := by
    have hboth : hasErrors ((Token.ofText file text).2
        ++ (ofTokens file text.utf8ByteSize
          (Token.ofText file text).1).2) = false := h
    rw [hasErrors_append, Bool.or_eq_false_iff] at hboth
    exact hboth.2
  rw [htokens] at hordered hreports
  obtain ⟨hp, hlawful⟩ := ofTokens_of_no_error file _ hlast hbody
    hordered.of_append.1 hreports
  show ∃ body, Ordered body
    ∧ StmtsIn .endOfInput body (ofTokens file text.utf8ByteSize
        (Token.ofText file text).1).1.statements
    ∧ (ofTokens file text.utf8ByteSize
        (Token.ofText file text).1).1.isLawful = true
  rw [htokens]
  exact ⟨body, hordered.of_append.1, hp.stmtsIn.1, hlawful⟩

/-- Functions side by side are told apart by where they stand. -/
theorem Program.functions_apart {p : Program}
    (h : p.functions.Pairwise fun d e => d.span.start < e.span.start)
    (k l : Nat) (d e : FnDecl) (hd : p.functions[k]? = some d)
    (he : p.functions[l]? = some e) (hid : d.id = e.id) : k = l := by
  have hspan : d.span = e.span := congrArg DeclId.span hid
  obtain ⟨hk, rfl⟩ := List.getElem?_eq_some_iff.1 hd
  obtain ⟨hl, rfl⟩ := List.getElem?_eq_some_iff.1 he
  rw [List.pairwise_iff_getElem] at h
  rcases Nat.lt_trichotomy k l with hlt | heq | hlt
  · exact absurd (hspan ▸ h k l hk hl hlt) (Nat.lt_irrefl _)
  · exact heq
  · exact absurd (hspan ▸ h l k hl hk hlt) (Nat.lt_irrefl _)

/-- If a run of a program from an empty root scope yields a value, the
machine finishes with the item for this value, after printing exactly what
the run wrote. -/
theorem Program.code_preserves_run {file : FileId} {text : String}
    {c : Code} {limits : Eval.Limits} {patience : Nat} {v : Value}
    {s : Session} {sink sink' : Sink}
    (hread : hasErrors (ofText file text).2 = false)
    (hflat : (ofText file text).1.isFlat = true)
    (hcode : (Code.ofProgram (ofText file text).1).1 = some c)
    (hrun : Session.fresh.run limits patience (ofText file text).1 sink =
      (.value v, s, sink')) :
    ∃ n item printed,
      Stack.run c n (Stack.start c) = .finished item printed
      ∧ sink'.written = sink.written ++ printed.toUTF8
      ∧ Stack.Represents (ofText file text).1.functions v item := by
  obtain ⟨body, hordered, hstmts, hlawful⟩ := ofText_of_no_error hread
  generalize ofText file text = read at *
  obtain ⟨p, ds⟩ := read
  have hplaced : ∃ roots, Stack.ProgramAt c roots p := by
    unfold Code.ofProgram at hcode
    split at hcode
    case h_1 emission hmade =>
        cases hcode
        exact ⟨_, Stack.programCode_ok hflat hstmts.isBraced hlawful hmade⟩
    case h_2 => cases hcode
  obtain ⟨roots, hplaced⟩ := hplaced
  unfold Session.run at hrun
  dsimp only at hrun
  split at hrun
  case h_1 v' m hprogram =>
      cases hrun
      exact hplaced.simulates
        (functions_apart (hstmts.functions_apart hordered)) hprogram
  case h_2 stop m hprogram =>
      cases stop <;> cases hrun

/-- In a loop a function is called and a name is shadowed; behind it the
function itself is the result. -/
theorem Program.code_preserves_loop_with_call :
    let text := "fn loud(s) \x7b return s + \"!\"; \x7d
      let s = \"a\"; let go = true;
      while go \x7b let s = loud(s); print s; go = false; \x7d
      loud"
    ∃ c n item printed, (Code.ofProgram (ofText 0 text).1).1 = some c
      ∧ Stack.run c n (Stack.start c) = .finished item printed
      ∧ printed.toUTF8.toList = "a!\n".toUTF8.toList := by
  intro text
  have hcode : ((Code.ofProgram (ofText 0 text).1).1).isSome = true := by
    decide +kernel
  obtain ⟨c, hc⟩ := Option.isSome_iff_exists.1 hcode
  have hvalue : (Session.fresh.run .standard 0 (ofText 0 text).1
      .unlimited).1.value?.isSome = true := by decide +kernel
  have hwritten : (Session.fresh.run .standard 0 (ofText 0 text).1
      .unlimited).2.2.written.toList = "a!\n".toUTF8.toList := by
    decide +kernel
  generalize hrun : Session.fresh.run .standard 0 (ofText 0 text).1
    .unlimited = outcome at hvalue hwritten
  obtain ⟨outcome, s, sink⟩ := outcome
  cases outcome with
  | value v =>
      obtain ⟨n, item, printed, hfinished, hprinted, -⟩ :=
        code_preserves_run (by decide +kernel) (by decide +kernel) hc hrun
      refine ⟨c, n, item, printed, hc, hfinished, ?_⟩
      rw [← hwritten, hprinted]
      simp [Sink.unlimited]
  | failed d => cases hvalue
  | starved => cases hvalue

end Script
