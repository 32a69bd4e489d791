/-
The code of statements does what running them does. A statement may leave
its function; the machine is then in front of a return, wherever that is,
and nothing else is asked of it. A loop is a second induction, by the
rounds that are left; both inductions end together, because rounds are
counted in fuel.
-/
import Script.Proofs.Stack.Expressions

namespace Script.Stack

open Code Eval Script.Action

variable {c : Code} {roots : Names} {fs : List FnDecl} {before : ByteArray}
  {full : List Instr} {callers : List Call} {site site' : Site}
  {base i : ScopeId} {start j k stop : Nat} {limits : Limits} {fuel : Nat}
  {place : Place} {x : Run Value} {y z : Run Flow}

-- ====================================================== plain statements

theorem Follows.of_eq (heq : y = z)
    (h : Follows c roots fs before full callers site base i z start stop
      site') :
    Follows c roots fs before full callers site base i y start stop site' :=
  heq ▸ h

theorem Follows.declare (hlinked : Linked c roots fs)
    (hsound : site.Sound roots) {name : String} {s : Symbol} {store : Instr}
    (hx : Simulates c roots fs before full callers site base place.scope x
      start j)
    (hdecl : Declares roots name site s site') (hstore : IsStore s store)
    (h : full[j]? = some store) :
    Follows c roots fs before full callers site base place.scope
      (do let v ← x; Run.define place name v; return .next) start (j + 1)
      site' := by
  intro stack m w flow m' hagree hrun
  obtain ⟨v, m₁, hvalue, hrun⟩ := bind_ok.1 hrun
  obtain ⟨u, m₂, hdefine, hrun⟩ := bind_ok.1 hrun
  obtain ⟨rfl, rfl⟩ := pure_ok.1 hrun
  obtain rfl : bound m₁ place.scope name v = m₂ := modify_ok.1 hdefine
  obtain ⟨item, w₁, hreach, hrep, hagree₁, hmoved₁⟩ :=
    hx stack m w v m₁ hagree hvalue
  obtain ⟨hagree₂, hmoved₂, hhas⟩ :=
    hagree₁.declare hsound hlinked.distinct hlinked.room hdecl hrep
  exact ⟨w₁.write item s, hreach.trans (.store hstore h hhas), hagree₂,
    hmoved₁.trans hmoved₂⟩

theorem Follows.expression
    (hx : Simulates c roots fs before full callers site base i x start j)
    (h : full[j]? = some .pop) :
    Follows c roots fs before full callers site base i
      (do let _ ← x; return .next) start (j + 1) site := by
  intro stack m w flow m' hagree hrun
  obtain ⟨v, m₁, hvalue, hrun⟩ := bind_ok.1 hrun
  obtain ⟨rfl, rfl⟩ := pure_ok.1 hrun
  obtain ⟨item, w', hreach, -, hagree', hmoved⟩ :=
    hx stack m w v m₁ hagree hvalue
  exact ⟨w', hreach.trans (.pop h), hagree', hmoved⟩

theorem Follows.giveBack
    (hx : Simulates c roots fs before full callers site base i x start j)
    (h : full[j]? = some .leave) :
    Follows c roots fs before full callers site base i
      (do return .returned (← x)) start (j + 1) site := by
  intro stack m w flow m' hagree hrun
  obtain ⟨v, m₁, hvalue, hrun⟩ := bind_ok.1 hrun
  obtain ⟨rfl, rfl⟩ := pure_ok.1 hrun
  obtain ⟨item, w', hreach, hrep, hagree', hmoved⟩ :=
    hx stack m w v m₁ hagree hvalue
  exact ⟨item, w', j, stack, h, hreach, hrep, hagree'.toShares, hmoved⟩

/-- A write that is taken is written whole. -/
theorem written_of_taken {sink sink' : Sink} {text : String}
    (h : sink.write text = (true, sink')) :
    sink'.written = sink.written ++ text.toUTF8 := by
  unfold Sink.write at h
  split at h
  case h_1 =>
      cases h
      rfl
  case h_2 room _ =>
      by_cases hle : text.toUTF8.size ≤ room
      · simp only [hle, if_true] at h
        cases h
        rfl
      · simp only [hle, if_false] at h
        cases h

theorem printLine_ok {text : String} {span : Span} {u : Unit}
    {m m' : Machine} (h : Run.printLine text span m = .ok u m') :
    m'.heap = m.heap
      ∧ m'.sink.written = m.sink.written ++ (text ++ "\n").toUTF8 := by
  unfold Run.printLine at h
  obtain ⟨taken, m₁, hwrite, h⟩ := bind_ok.1 h
  have hwritten := modifyGet_ok.1 hwrite
  generalize hsink : m.sink.write (text ++ "\n") = written at hwritten
  obtain ⟨taken', sink⟩ := written
  obtain ⟨rfl, rfl⟩ := Prod.mk.inj hwritten
  cases taken' with
  | true =>
      obtain ⟨-, rfl⟩ := pure_ok.1 h
      exact ⟨rfl, written_of_taken hsink⟩
  | false => exact (throw_ok.1 h).elim

/-- A line of output stands behind what was written, on both sides. -/
theorem Agrees.line {total : Nat} {m m' : Machine} {w : World}
    {text : String}
    (hagree : Agrees fs roots total before site base m i w)
    (hheap : m'.heap = m.heap)
    (hsink : m'.sink.written = m.sink.written ++ (text ++ "\n").toUTF8) :
    Agrees fs roots total before site base m' i (w.line text) where
  root := hheap ▸ hagree.root
  total := hagree.total
  printed := by
    show _ = before ++ (w.printed ++ (text ++ "\n")).toUTF8
    rw [hsink, hagree.printed, String.toUTF8_eq_toByteArray,
      String.toUTF8_eq_toByteArray, String.toUTF8_eq_toByteArray,
      String.toByteArray_append (s := w.printed), ByteArray.append_assoc]
  blocks := hheap ▸ hagree.blocks
  limit := hagree.limit
  based := hheap ▸ hagree.based

theorem Follows.print (hlinked : Linked c roots fs) {span : Span}
    (hx : Simulates c roots fs before full callers site base i x start j)
    (h : full[j]? = some .print) :
    Follows c roots fs before full callers site base i
      (do let v ← x; Run.printLine v.text span; return .next) start (j + 1)
      site := by
  intro stack m w flow m' hagree hrun
  obtain ⟨v, m₁, hvalue, hrun⟩ := bind_ok.1 hrun
  obtain ⟨u, m₂, hprint, hrun⟩ := bind_ok.1 hrun
  obtain ⟨rfl, rfl⟩ := pure_ok.1 hrun
  obtain ⟨item, w', hreach, hrep, hagree', hmoved⟩ :=
    hx stack m w v m₁ hagree hvalue
  obtain ⟨hheap, hsink⟩ := printLine_ok hprint
  rw [← hrep.text hlinked.named] at hsink
  exact ⟨_, hreach.trans (.print h), hagree'.line hheap hsink,
    hmoved.trans (.of_heap_eq hheap rfl)⟩

-- ================================================================ jumps

/-- Code with a jump in front of it. -/
theorem Follows.jumped
    (hy : Follows c roots fs before full callers site base i y start stop
      site') (h : full[j]? = some (.jump start)) :
    Follows c roots fs before full callers site base i y j stop site' :=
  fun stack m w flow m' hagree hrun =>
    (hy stack m w flow m' hagree hrun).after (.jump h) (.refl ..)

/-- Code with a jump behind it. -/
theorem Follows.jump
    (hy : Follows c roots fs before full callers site base i y start stop
      site') {target : Nat} (h : full[stop]? = some (.jump target)) :
    Follows c roots fs before full callers site base i y start target
      site' := by
  intro stack m w flow m' hagree hrun
  have hflow := hy stack m w flow m' hagree hrun
  cases flow with
  | next =>
      obtain ⟨w', hreach, hagree', hmoved⟩ := hflow
      exact ⟨w', hreach.trans (.jump h), hagree', hmoved⟩
  | returned v => exact hflow

/-- A condition with two outcomes. -/
theorem Follows.branch {no : Nat} {cond : Run Bool}
    (hcond : Tests c roots fs before full callers site base i cond start j)
    (htest : full[j]? = some (.jumpIfFalse no))
    (htrue : Follows c roots fs before full callers site base i y (j + 1)
      stop site)
    (hfalse : Follows c roots fs before full callers site base i z no stop
      site) :
    Follows c roots fs before full callers site base i
      (do if ← cond then y else z) start stop site := by
  intro stack m w flow m' hagree hrun
  obtain ⟨b, m₁, hb, hrest⟩ := bind_ok.1 hrun
  obtain ⟨item, w₁, hreach₁, hrep₁, hagree₁, hmoved₁⟩ :=
    hcond stack m w (.bool b) m₁ hagree (map_ok.2 ⟨b, hb, rfl⟩)
  obtain rfl := hrep₁.bool
  cases b with
  | true =>
      exact (htrue stack m₁ w₁ flow m' hagree₁ hrest).after
        (hreach₁.trans (.jumpIfTrue htest)) hmoved₁
  | false =>
      exact (hfalse stack m₁ w₁ flow m' hagree₁ hrest).after
        (hreach₁.trans (.jumpIfFalse htest)) hmoved₁

/-- A loop, for any number of rounds. -/
theorem Follows.loop {cond : Run Bool}
    (hcond : Tests c roots fs before full callers site base i cond start j)
    (htest : full[j]? = some (.jumpIfFalse (k + 1)))
    (hbody : Follows c roots fs before full callers site base i y (j + 1) k
      site)
    (hback : full[k]? = some (.jump start)) (rounds : Nat) :
    Follows c roots fs before full callers site base i
      (repeatWhile cond y rounds) start (k + 1) site := by
  induction rounds with
  | zero => exact fun _ _ _ _ _ _ hrun => (throw_ok.1 hrun).elim
  | succ rounds ih =>
      exact .branch hcond htest (.andThen hbody rfl (ih.jumped hback)) .done

-- =============================================================== blocks

/-- Running a block. -/
def runBlock (limits : Limits) (fuel : Nat) (place : Place) (b : Block) :
    Run Flow := do
  let inner : Place := ⟨← Run.child place.scope, place.depth⟩
  sequence (fun s => exec limits fuel inner s) b.statements

theorem StmtsAt.same_block {own : Bool} {limit : Nat} {t : Names}
    {ts : List Names} {ss : List Stmt}
    (h : StmtsAt c.constants roots full ⟨own, limit, t :: ts⟩ start ss stop
      site') : ∃ t', site' = ⟨own, limit, t' :: ts⟩ := by
  induction ss generalizing t start with
  | nil =>
      cases h
      exact ⟨t, rfl⟩
  | cons s ss ih =>
      cases h with
      | cons hs hss =>
          cases hs with
          | declare hinit hdecl hstore h =>
              obtain ⟨t', rfl⟩ := hdecl.same_block
              exact ih hss
          | _ => exact ih hss

theorem Follows.block (hexec : Statements c roots fs before limits fuel)
    (hsound : site.Sound roots) {b : Block}
    (h : BlockAt c.constants roots full site start b stop) :
    Follows c roots fs before full callers site base place.scope
      (runBlock limits fuel place b) start stop site := by
  intro stack m w flow m' hagree hrun
  obtain ⟨id, m₁, hchild, hrun⟩ := bind_ok.1 hrun
  obtain ⟨rfl, rfl⟩ := Prod.mk.inj (modifyGet_ok.1 hchild)
  cases h with
  | mk hss =>
      have hfollows : Follows c roots fs before full callers site.openBlock
          base (Place.mk m.heap.scopes.size place.depth).scope
          (Eval.sequence (fun s =>
            exec limits fuel ⟨m.heap.scopes.size, place.depth⟩ s) _)
          start stop _ := .sequence hexec hsound.openBlock hss
      have hflow := hfollows stack _ w flow m' hagree.openBlock hrun
      obtain ⟨t, rfl⟩ := hss.same_block
      have hopen : Moved roots site.own base m (inside m place.scope) w w :=
        .nest (fun _ _ _ => rfl) hagree.based
      cases flow with
      | next =>
          obtain ⟨w', hreach, hagree', hmoved⟩ := hflow
          exact ⟨w', hreach, hagree'.closeBlock hmoved, hopen.trans hmoved⟩
      | returned v =>
          obtain ⟨item, w', place', rest, hleave, hreach, hrep, hshares,
            hmoved⟩ := hflow
          exact ⟨item, w', place', rest, hleave, hreach, hrep, hshares,
            hopen.trans hmoved⟩

-- =========================================================== statements

/-- A value that may be left out. -/
def optionValue (limits : Limits) (fuel : Nat) (place : Place) :
    Option Expr → Run Value
  | some e => eval limits fuel place e
  | none => pure .nil

theorem Simulates.option
    (heval : Expressions c roots fs before limits fuel)
    (hsound : site.Sound roots) {e : Option Expr}
    (h : OptionAt c.constants roots full site start e stop) :
    Simulates c roots fs before full callers site base place.scope
      (optionValue limits fuel place e) start stop := by
  cases h with
  | none h => exact .constant h
  | some h => exact heval _ _ _ _ _ _ _ _ hsound h

/-- One more unit of fuel. -/
theorem Statements.succ (hlinked : Linked c roots fs)
    (heval : Expressions c roots fs before limits fuel)
    (hexec : Statements c roots fs before limits fuel) :
    Statements c roots fs before limits (fuel + 1) := by
  intro full callers site base place s start stop site' hsound h
  have hpart {e : Expr} {i j : Nat}
      (h : ExprAt c.constants roots full site i e j) :=
    heval full callers site base place e i j hsound h
  have hblock {b : Block} {i j : Nat}
      (h : BlockAt c.constants roots full site i b j) :
      Follows c roots fs before full callers site base place.scope
        (runBlock limits fuel place b) i j site :=
    .block hexec hsound h
  unfold exec
  refine .tick ?_
  cases h with
  | declare hinit hdecl hstore h =>
      refine .of_eq ?_
        (.declare hlinked hsound (.option heval hsound hinit) hdecl hstore h)
      rename_i init _ _
      cases init <;> rfl
  | expression he h => exact .expression (hpart he) h
  | block hb => exact hblock hb
  | branch he htest hyes =>
      exact .branch ((hpart he).tests conditionTruth_ok) htest (hblock hyes)
        .done
  | choice he htest hyes hskip hno =>
      exact .branch ((hpart he).tests conditionTruth_ok) htest
        ((hblock hyes).jump hskip) (hexec _ _ _ _ _ _ _ _ _ hsound hno)
  | loop he htest hbody hback =>
      exact .loop ((hpart he).tests conditionTruth_ok) htest (hblock hbody)
        hback fuel
  | giveBack hv h =>
      refine .of_eq ?_ (.giveBack (.option heval hsound hv) h)
      rename_i v
      cases v <;> rfl
  | print he h => exact .print hlinked (hpart he) h
  | empty => exact .done

/-- The code of a linked program does what its tree does, with any
fuel. -/
theorem Linked.simulates (hlinked : Linked c roots fs) (fuel : Nat) :
    Expressions c roots fs before limits fuel
      ∧ Statements c roots fs before limits fuel := by
  induction fuel with
  | zero =>
      constructor
      · intro full callers site base place e start stop _ _
        unfold eval
        exact fun _ _ _ _ _ _ hrun => (throw_ok.1 hrun).elim
      · intro full callers site base place s start stop site' _ _
        unfold exec
        exact fun _ _ _ _ _ _ hrun => (throw_ok.1 hrun).elim
  | succ fuel ih =>
      exact ⟨ih.1.succ hlinked ih.2, .succ hlinked ih.1 ih.2⟩

end Script.Stack
