/-
What reading builds. Every reader is given a number of levels, and what it
returns has no more of them. The nested nodes are more: a chain of `n`
operators can stand around a chain of `n` calls, and this one around a
group that is read with `n - 1` levels in the same way. So with `n` levels
left the nodes add up as odd numbers do, to `n * (n + 2)` for a whole
expression, and there is no room for more.

The spans of the tree go along: they come from the tokens and by joining.
The induction is the recursion of the readers.
-/
import Mathlib.Tactic.Ring
import Script.Proofs.Reading.Nesting
import Script.Tree.Statement

namespace Script.Tree

open Script.Action

variable {P : Span → Prop}

/-- An expression that was read with `n` levels left: the first of them
was taken for the expression as a whole. -/
def ReadWith (P : Span → Prop) (n : Nat) (e : Expr) : Prop :=
  ∃ m, n = m + 1 ∧ e.Built P m (m * (m + 2))

theorem ReadWith.group {n : Nat} {e : Expr} {s : Span} (h : ReadWith P n e)
    (hs : P s) : (Expr.group s e).Built P n (n * n) := by
  obtain ⟨m, rfl, he⟩ := h
  have hsquare : (m + 1) * (m + 1) = m * (m + 2) + 1 := by ring
  rw [hsquare]
  exact .group hs he

/-- The room for expressions that are read with `n` levels left, and for
blocks. -/
def room (n : Nat) : Nat := max n (n * n - 1)

theorem ReadWith.built {n : Nat} {e : Expr} (h : ReadWith P n e) :
    e.Built P n (room n) := by
  obtain ⟨m, rfl, he⟩ := h
  have hsquare : (m + 1) * (m + 1) - 1 = m * (m + 2) := by
    have : (m + 1) * (m + 1) = m * (m + 2) + 1 := by ring
    omega
  refine he.mono (Nat.le_succ m) ?_
  unfold room
  omega

/-- There is room for a level more. -/
theorem room_succ (n : Nat) : room n + 1 ≤ room (n + 1) := by
  have hsquare : (n + 1) * (n + 1) = n * n + 2 * n + 1 := by ring
  unfold room
  omega

namespace Builds

-- ========================================================= expressions

mutual

theorem expression (hP : JoinClosed P) (n : Nat) :
    Builds P (ReadWith P n) (expression n) := by
  unfold Tree.expression
  cases n with
  | zero => exact tooDeep
  | succ n => exact (assignment hP n).imp fun e he => ⟨n, rfl, he⟩
termination_by n * 8

theorem primary (hP : JoinClosed P) (n : Nat) :
    Builds P (Expr.Built P n (n * n)) (primary n) := by
  unfold Tree.primary
  refine .get_bind fun c hc => ?_
  cases hatom : c.atom? with
  | some e => exact skip.bind fun _ _ => .pure (.atom hc hatom n (n * n))
  | none =>
      refine (eat _).bind fun _ _ => .ite (fun _ => ?_) fun _ => expected _
      refine (expression hP n).bind fun inner hinner => ?_
      refine (expect _ _).bind fun close hclose => .pure ?_
      exact hinner.group (hP _ _ hc.here hclose)
termination_by n * 8 + 1

theorem calls (hP : JoinClosed P) (n : Nat) {callee : Expr} {levels b : Nat}
    (hcallee : callee.Built P levels b) (hn : n ≤ levels)
    (hb : n * n ≤ b) :
    Builds P (Expr.Built P levels (b + n)) (calls n callee) := by
  unfold Tree.calls
  refine kind.bind fun k _ => .ite (fun _ => ?_) fun _ => ?_
  · cases n with
    | zero => exact tooDeep
    | succ n =>
        have hsquare : (n + 1) * (n + 1) = n * n + 2 * n + 1 := by ring
        refine skip.bind fun _ _ => ?_
        have behind (args : List Expr) (hargs : ∀ a ∈ args, ReadWith P n a) :
            Builds P (Expr.Built P levels (b + (n + 1))) (do
              let close ← Parse.expect (.punct .rightParen)
                "')' after arguments"
              Tree.calls n
                (.call (callee.span.join close) callee args)) := by
          refine (expect _ _).bind fun close hclose => ?_
          have hargs (a : Expr) (ha : a ∈ args) : a.Built P n b := by
            refine (hargs a ha).built.mono (Nat.le_refl n) ?_
            unfold room
            omega
          have hcall := Expr.Built.call
            (hP _ _ hcallee.spanned.span hclose) hcallee hargs hn
          have hmore := calls hP n hcall (by omega) (by omega)
          rwa [Nat.add_assoc, Nat.add_comm 1 n] at hmore
        refine kind.bind fun _ _ => .ite (fun _ => ?_) fun _ => ?_
        · exact (Upholds.pure (Q := fun as => as = []) rfl).bind
            fun args hargs => behind args (by simp [hargs])
        · exact tokensLeft.bind fun bound _ =>
            (separated (expression hP n) bound).bind behind
  · exact .pure (hcallee.mono (Nat.le_refl _) (Nat.le_add_right b n))
termination_by n * 8 + 1

theorem callChain (hP : JoinClosed P) (n : Nat) :
    Builds P (Expr.Built P n (n * n + n)) (callChain n) := by
  unfold Tree.callChain
  exact (primary hP n).bind fun callee hcallee =>
    calls hP n hcallee (Nat.le_refl n) (Nat.le_refl _)
termination_by n * 8 + 2

theorem unary (hP : JoinClosed P) (n : Nat) :
    Builds P (Expr.Built P n (n * n + n)) (unary n) := by
  unfold Tree.unary
  refine .get_bind fun c hc => ?_
  cases unaryOperator? c.kind with
  | none => exact callChain hP n
  | some op =>
      refine skip.bind fun _ _ => ?_
      cases n with
      | zero => exact tooDeep
      | succ n =>
          have hsquare : (n + 1) * (n + 1) = n * n + 2 * n + 1 := by ring
          refine (unary hP n).bind fun operand hoperand => .pure ?_
          have hspan := hP _ _ hc.here hoperand.spanned.span
          exact (hoperand.unary hspan op).mono (Nat.le_refl _) (by omega)
termination_by n * 8 + 3

theorem operators (hP : JoinClosed P) (n least : Nat) {lhs : Expr}
    {levels b : Nat}
    (hlhs : lhs.Built P levels b) (hn : n ≤ levels) (hb : n * n ≤ b) :
    Builds P (Expr.Built P levels (b + n)) (operators n least lhs) := by
  have done : Builds P (Expr.Built P levels (b + n))
      (Pure.pure lhs : Parse Expr) :=
    .pure (hlhs.mono (Nat.le_refl _) (Nat.le_add_right b n))
  unfold Tree.operators
  refine kind.bind fun k _ => ?_
  cases binaryOperator? k with
  | none => exact done
  | some o =>
      refine .ite (fun _ => done) fun _ => ?_
      cases n with
      | zero => exact tooDeep
      | succ n =>
          have hsquare : (n + 1) * (n + 1) = n * n + 2 * n + 1 := by ring
          have hroom : n * (n + 2) = n * n + 2 * n := by ring
          refine skip.bind fun _ _ => (binary hP n _).bind fun rhs hrhs => ?_
          have hspan := hP _ _ hlhs.spanned.span hrhs.spanned.span
          have hmore := operators hP n least
            (hlhs.binary hspan o.1
              (hrhs.mono (Nat.le_refl n) (by omega)) hn)
            (by omega) (by omega)
          rwa [Nat.add_assoc, Nat.add_comm 1 n] at hmore
termination_by n * 8 + 1

theorem binary (hP : JoinClosed P) (n least : Nat) :
    Builds P (Expr.Built P n (n * (n + 2))) (binary n least) := by
  have hroom : n * (n + 2) = n * n + n + n := by ring
  unfold Tree.binary
  rw [hroom]
  exact (unary hP n).bind fun lhs hlhs =>
    operators hP n least hlhs (Nat.le_refl n) (Nat.le_add_right _ _)
termination_by n * 8 + 4

theorem assignment (hP : JoinClosed P) (n : Nat) :
    Builds P (Expr.Built P n (n * (n + 2))) (assignment n) := by
  unfold Tree.assignment
  refine (binary hP n 1).bind fun target htarget => (eat _).bind fun _ _ =>
    .ite (fun _ => ?_) fun _ => .pure htarget
  cases n with
  | zero => exact tooDeep
  | succ n =>
      refine (assignment hP n).bind fun value hvalue => ?_
      have hspan := hP _ _ htarget.spanned.span hvalue.spanned.span
      cases target with
      | ident span name =>
          have hassign := hvalue.assign (x := ⟨name, span⟩) hspan
            htarget.spanned
          refine .pure (hassign.mono (Nat.le_refl _) ?_)
          have : (n + 1) * (n + 1 + 2) = n * (n + 2) + 2 * n + 3 := by ring
          omega
      | _ =>
          exact (blame _ htarget.spanned.span).bind fun _ _ => giveUp
termination_by n * 8 + 5

end

-- ========================================================== statements

theorem terminator (behind : String) :
    Builds P (fun _ => True) (terminator behind) := by
  refine (eat _).bind fun _ _ => .ite (fun _ => .pure trivial) fun _ => ?_
  refine kind.bind fun k _ => .ite (fun _ => .pure trivial) fun _ => ?_
  exact (Upholds.pure (Q := fun _ => True) trivial).bind fun _ _ => expected _

theorem recovering {Q : Stmt → Prop} {p : Parse Stmt} (hp : Builds P Q p) :
    Builds P (fun s? => ∀ s ∈ s?, Q s) (recovering p) := by
  intro c hc
  unfold Tree.recovering
  cases h : p c with
  | ok s d =>
      obtain ⟨hd, hs⟩ := hp.of_ok hc h
      refine ⟨hd, ?_⟩
      rintro _ ⟨⟩
      exact hs
  | error e d =>
      have hd := (hp.of_error hc h).1
      refine ⟨?_, fun _ hs => nomatch hs⟩
      exact hd.moved (Cursor.nextStatement_spanned hd.rest hd.previous)

theorem statementsInBlock {Q : Stmt → Prop} {p : Parse Stmt}
    (hp : Builds P Q p) (bound : Nat) :
    Builds P (fun ss => ∀ s ∈ ss, Q s) (statementsInBlock p bound) := by
  induction bound with
  | zero => exact .pure (by simp)
  | succ bound ih =>
      refine kind.bind fun _ _ => .ite (fun _ => .pure (by simp)) fun _ => ?_
      refine (recovering hp).bind fun s? hs => ih.bind fun ss hss => ?_
      refine .pure fun s hmem => ?_
      rcases List.mem_append.1 hmem with h | h
      · exact hs s (by simpa using h)
      · exact hss s h

theorem parameter (seen : List Ident) :
    Builds P (fun _ => True) (parameter seen) := by
  refine (identifier _).bind fun p hp => ?_
  dsimp only
  split
  · exact (blame _ hp).bind fun _ _ => .pure trivial
  · exact .pure trivial

theorem parameters (seen : List Ident) (bound : Nat) :
    Builds P (fun _ => True) (parameters seen bound) := by
  induction bound generalizing seen with
  | zero => exact parameter seen
  | succ bound ih =>
      exact (parameter seen).bind fun seen _ => (eat _).bind fun _ _ =>
        .ite (fun _ => ih seen) fun _ => .pure trivial

/-- An optional piece that is left out. -/
theorem nothing {Q : Expr → Prop} : Builds P (fun e? => ∀ e ∈ e?, Q e)
    (Pure.pure none : Parse (Option Expr)) :=
  .pure fun _ he => nomatch he

/-- An optional piece that is there. -/
theorem something (hP : JoinClosed P) (n : Nat) :
    Builds P (fun e? => ∀ e ∈ e?, e.Built P n (room n))
      (some <$> Tree.expression n) := by
  refine (expression hP n).map fun e he => ?_
  rintro _ ⟨⟩
  exact he.built

theorem declaration (hP : JoinClosed P) (n : Nat) {start : Span}
    (hstart : P start) :
    Builds P (Stmt.Built P n (room n)) (declaration n start) := by
  have behind (name : Ident) (init : Option Expr)
      (hinit : ∀ e ∈ init, e.Built P n (room n)) :
      Builds P (Stmt.Built P n (room n)) (do
        Tree.terminator "let declaration"
        return .declare (← Parse.spanFrom start) name init) :=
    (terminator _).bind fun _ _ => (spanFrom hP hstart).bind
      fun _ hspan => .pure (.declare hspan name hinit)
  refine (identifier _).bind fun name _ => (eat _).bind fun _ _ =>
    .ite (fun _ => ?_) fun _ => ?_
  · exact (something hP n).bind (behind name)
  · exact nothing.bind (behind name)

theorem returnStatement (hP : JoinClosed P) (n : Nat) (inside : Bool)
    {start : Span}
    (hstart : P start) :
    Builds P (Stmt.Built P n (room n)) (returnStatement n inside start) := by
  have ending (value : Option Expr)
      (hvalue : ∀ e ∈ value, e.Built P n (room n)) :
      Builds P (Stmt.Built P n (room n)) (do
        Tree.terminator "return statement"
        return .giveBack (← Parse.spanFrom start) value) :=
    (terminator _).bind fun _ _ => (spanFrom hP hstart).bind
      fun _ hspan => .pure (.giveBack hspan hvalue)
  have behind : Builds P (Stmt.Built P n (room n)) (do
      let k ← Parse.kind
      let value ←
        if k = .punct .semicolon ∨ k = .punct .rightBrace
            ∨ k = .endOfInput then Pure.pure none
        else some <$> Tree.expression n
      Tree.terminator "return statement"
      return .giveBack (← Parse.spanFrom start) value) :=
    kind.bind fun _ _ => .ite (fun _ => nothing.bind ending)
      fun _ => (something hP n).bind ending
  unfold Tree.returnStatement
  cases inside with
  | true => exact behind
  | false => exact (blame _ hstart).bind fun _ _ => behind

mutual

theorem statement (hP : JoinClosed P) (n : Nat) (inside : Bool) :
    Builds P (Stmt.Built P n (room n)) (statement n inside) := by
  unfold Tree.statement
  refine .get_bind fun c hc => ?_
  dsimp only
  split
  case h_1 => exact skip.bind fun _ _ => declaration hP n hc.here
  case h_2 => exact skip.bind fun _ _ => function hP n hc.here
  case h_3 => exact branch hP n inside
  case h_4 =>
      refine skip.bind fun _ _ => (expression hP n).bind fun cond hcond =>
        (block hP n inside).bind fun body hbody => ?_
      exact (spanFrom hP hc.here).bind fun _ hspan =>
        .pure (.loop hspan hcond.built hbody)
  case h_5 =>
      exact skip.bind fun _ _ => returnStatement hP n inside hc.here
  case h_6 =>
      refine skip.bind fun _ _ => (expression hP n).bind fun value hvalue =>
        (terminator _).bind fun _ _ => ?_
      exact (spanFrom hP hc.here).bind fun _ hspan =>
        .pure (.print hspan hvalue.built)
  case h_7 => exact (block hP n inside).bind fun _ hb => .pure (.block hb)
  case h_8 =>
      refine skip.bind fun _ _ => Upholds.bind (Q := fun _ => True)
        (.modify fun d hd => hd.note _ hc.here) fun _ _ => ?_
      exact (spanFrom hP hc.here).bind fun _ hspan =>
        .pure ⟨hspan, Nat.zero_le _, Nat.zero_le _⟩
  case h_9 =>
      refine (expression hP n).bind fun value hvalue =>
        (terminator _).bind fun _ _ => ?_
      exact (spanFrom hP hc.here).bind fun _ hspan =>
        .pure (.expression hspan hvalue.built)
termination_by n * 4 + 3

theorem function (hP : JoinClosed P) (n : Nat) {start : Span}
    (hstart : P start) :
    Builds P (Stmt.Built P n (room n)) (function n start) := by
  have behind (name : Ident) (params : List Ident) :
      Builds P (Stmt.Built P n (room n)) (do
        let _ ← Parse.expect (.punct .rightParen) "')' after parameters"
        let body ← Tree.block n true
        return .function ⟨name, params, body, start.join body.span⟩) :=
    (expect _ _).bind fun _ _ => (block hP n true).bind fun _ hbody =>
      .pure (.function (hP _ _ hstart hbody.spanned.span) hbody)
  unfold Tree.function
  refine (identifier _).bind fun name _ => (expect _ _).bind fun _ _ =>
    kind.bind fun _ _ => .ite (fun _ => ?_) fun _ => ?_
  · exact (Upholds.pure (Q := fun _ => True) trivial).bind
      fun params _ => behind name params
  · exact tokensLeft.bind fun bound _ =>
      (parameters [] bound).bind fun params _ => behind name params
termination_by n * 4 + 2

theorem branch (hP : JoinClosed P) (n : Nat) (inside : Bool) :
    Builds P (Stmt.Built P n (room n)) (branch n inside) := by
  unfold Tree.branch
  refine here.bind fun start hstart => skip.bind fun _ _ =>
    (expression hP n).bind fun cond hcond =>
    (block hP n inside).bind fun body hbody => ?_
  have behind (elsePart : Option Stmt)
      (h : (∀ t ∈ elsePart, t.Spanned P) ∧ elseDepth 0 elsePart ≤ n
        ∧ elseDepth 1 elsePart ≤ room n) :
      Builds P (Stmt.Built P n (room n)) (do
        return .branch (← Parse.spanFrom start) cond body elsePart) :=
    (spanFrom hP hstart).bind fun _ hspan =>
      .pure (.branch hspan hcond.built hbody h.1 h.2.1 h.2.2)
  refine (eat _).bind fun _ _ => .ite (fun _ => ?_) fun _ => ?_
  · refine kind.bind fun _ _ => .ite (fun _ => ?_) fun _ => ?_
    · cases n with
      | zero => exact tooDeep.bind behind
      | succ n =>
          refine ((branch hP n inside).map fun t ht => ?_).bind behind
          have hroom := room_succ n
          have hlevels := ht.levels
          have hnesting := ht.nesting
          refine ⟨?_, ?_, ?_⟩
          · rintro _ ⟨⟩
            exact ht.spanned
          · exact Nat.le_trans (elseDepth_some_le t) (by omega)
          · exact Nat.le_trans (elseDepth_some_le t) (by omega)
    · refine (((block hP n inside).map fun b hb => ?_).map
        (R := fun elsePart => (∀ t ∈ elsePart, t.Spanned P)
          ∧ elseDepth 0 elsePart ≤ n ∧ elseDepth 1 elsePart ≤ room n)
        fun t ht => ht).bind behind
      refine ⟨?_, hb.levels, hb.nesting⟩
      rintro _ ⟨⟩
      exact hb.spanned
  · exact (Upholds.pure (Q := fun s? => s? = none) rfl).bind
      fun elsePart h => behind elsePart (by simp [h, elseDepth])
termination_by n * 4 + 2

theorem block (hP : JoinClosed P) (n : Nat) (inside : Bool) :
    Builds P (Block.Built P n (room n)) (block n inside) := by
  unfold Tree.block
  cases n with
  | zero => exact tooDeep
  | succ n =>
      refine (expect _ _).bind fun opening hopening => tokensLeft.bind
        fun bound _ => (statementsInBlock (statement hP n inside) bound).bind
        fun ss hss => (expect _ _).bind fun close hclose => .pure ?_
      have hblock := Block.built (hP _ _ hopening hclose) hss
      exact ⟨hblock.spanned, hblock.levels,
        Nat.le_trans hblock.nesting (room_succ n)⟩
termination_by n * 4

end

theorem statementsOfProgram (hP : JoinClosed P) (bound : Nat) :
    Builds P (fun ss => ∀ s ∈ ss, s.Built P maxNesting (room maxNesting))
      (statementsOfProgram bound) := by
  induction bound with
  | zero => exact .pure (by simp)
  | succ bound ih =>
      refine kind.bind fun k _ => ?_
      split
      · exact .pure (by simp)
      · exact here.bind fun _ hspan => (blame _ hspan).bind fun _ _ =>
          skip.bind fun _ _ => ih
      · refine (recovering (statement hP _ _)).bind fun s? hs =>
          ih.bind fun ss hss => .pure fun s hmem => ?_
        rcases List.mem_append.1 hmem with h | h
        · exact hs s (by simpa using h)
        · exact hss s h

end Builds

-- ============================================================ programs

/-- At the start, a cursor knows the spans of the tokens and of the end
of input, and the place where the first of them begins. -/
theorem Cursor.spanned_start {file : FileId} {size : Nat}
    {tokens : List Token} (htokens : ∀ t ∈ tokens, P t.span)
    (hend : P (.point file size))
    (hpoint : ∀ s, P s → P (.point file s.start)) :
    (Cursor.start file size tokens).Spanned P := by
  have hrest : ∀ t ∈ tokens.takeWhile (·.kind ≠ .endOfInput), P t.span :=
    fun t ht => htokens t (List.takeWhile_subset _ ht)
  have hlast : P (Cursor.start file size tokens).endOfInput := by
    unfold Cursor.start
    dsimp only
    split
    case h_1 t h => exact htokens t (List.mem_of_find?_eq_some h)
    case h_2 => exact hend
  refine ⟨hrest, hlast, hpoint _ ?_, fun d hd => nomatch hd⟩
  cases h : tokens.takeWhile (·.kind ≠ .endOfInput) with
  | nil => exact hlast
  | cons t ts => exact hrest t (by rw [h]; exact List.mem_cons_self ..)

end Tree

open Script.Tree

/-- What the reader of programs builds and reports, whatever the tokens
are. -/
theorem Program.ofTokens_built {P : Span → Prop} {file : FileId}
    {size : Nat} {tokens : List Token}
    (hP : JoinClosed P)
    (htokens : ∀ t ∈ tokens, P t.span) (hend : P (.point file size))
    (hpoint : ∀ s, P s → P (.point file s.start)) :
    (∀ s ∈ (ofTokens file size tokens).1.statements,
        s.Built P maxNesting (room maxNesting))
      ∧ ∀ d ∈ (ofTokens file size tokens).2, P d.span := by
  have hstart := Cursor.spanned_start htokens hend hpoint
  have hread := Builds.statementsOfProgram hP
    (Cursor.start file size tokens).rest.length
  unfold ofTokens readFrom
  dsimp only
  cases h : statementsOfProgram (Cursor.start file size tokens).rest.length
    (Cursor.start file size tokens) with
  | ok ss c =>
      obtain ⟨hc, hss⟩ := hread.of_ok hstart h
      exact ⟨hss, fun d hd => hc.reports d (Array.mem_toList_iff.1 hd)⟩
  | error e c =>
      obtain ⟨hc, -⟩ := hread.of_error hstart h
      exact ⟨fun s hs => absurd hs List.not_mem_nil,
        fun d hd => hc.reports d (Array.mem_toList_iff.1 hd)⟩

end Script
