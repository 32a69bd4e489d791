/-
Reading takes care of its reports: it never takes one back, the first
error is never dropped, and whoever gives up has reported an error. So a
cursor without an error came from reading without any, and a program
that is nested too deeply is refused by name whenever that is the first
thing wrong with it. Tokens are only ever passed over, from the front.
-/
import Script.Tree.Statement

namespace Script.Tree

-- ==================================================== later cursors

/-- A cursor that reading can reach from another one: tokens are passed
over, warnings are noted, errors are blamed. -/
inductive Later (c : Cursor) : Cursor → Prop
  | refl : Later c c
  | moved {d : Cursor} (previous : Span) {rest : List Token}
      (hrest : rest <:+ d.rest) (h : Later c d) :
      Later c { d with previous, rest }
  | noted {d : Cursor} (span : Span) (h : Later c d) :
      Later c (d.note .emptyStatement span)
  | blamed {d : Cursor} {f : Fault} (span : Span)
      (hf : f ≠ .emptyStatement) (h : Later c d) : Later c (d.blame f span)

namespace Later

variable {c d e : Cursor}

theorem trans (h : Later c d) (h' : Later d e) : Later c e := by
  induction h' with
  | refl => exact h
  | moved previous hrest _ ih => exact .moved previous hrest ih
  | noted span _ ih => exact .noted span ih
  | blamed span hf _ ih => exact .blamed span hf ih

theorem advance (c : Cursor) : Later c c.advance := by
  unfold Cursor.advance
  split
  case h_1 t ts h => exact .moved _ (h ▸ List.suffix_cons t ts) .refl
  case h_2 => exact .refl

theorem nextStatement_suffix (previous : Span) (ts : List Token) :
    (Cursor.nextStatement previous ts).2 <:+ ts := by
  induction ts generalizing previous with
  | nil => exact List.suffix_refl []
  | cons t ts ih =>
      unfold Cursor.nextStatement
      split
      · exact List.suffix_refl _
      · exact List.suffix_cons t ts
      · exact (ih t.span).trans (List.suffix_cons t ts)

theorem behindGroup_suffix (opened : Nat) (previous : Span)
    (ts : List Token) :
    (Cursor.behindGroup opened previous ts).2 <:+ ts := by
  induction ts generalizing opened previous with
  | nil => exact List.suffix_refl []
  | cons t ts ih =>
      have hmore (opened : Nat) :=
        (ih opened t.span).trans (List.suffix_cons t ts)
      unfold Cursor.behindGroup
      split
      · exact hmore _
      · exact hmore _
      · split
        · exact List.suffix_refl _
        · exact List.suffix_cons t ts
        · exact hmore _
      · split
        · exact List.suffix_refl _
        · exact List.suffix_cons t ts
        · exact hmore _
      · split
        · exact List.suffix_refl _
        · exact hmore _

theorem skipStatement (c : Cursor) : Later c c.skipStatement :=
  .moved _ (nextStatement_suffix _ _) .refl

theorem skipGroup (c : Cursor) : Later c c.skipGroup :=
  .moved _ (behindGroup_suffix _ _ _) .refl

/-- The tokens left are the last ones of those before. -/
theorem rest_suffix (h : Later c d) : d.rest <:+ c.rest := by
  induction h with
  | refl => exact List.suffix_refl _
  | moved _ hrest _ ih => exact hrest.trans ih
  | noted _ _ ih => exact ih
  | @blamed d f span _ _ ih =>
      unfold Cursor.blame
      split
      · exact ih
      · exact ih

/-- The input ends where it did. -/
theorem endOfInput_eq (h : Later c d) : d.endOfInput = c.endOfInput := by
  induction h with
  | refl => rfl
  | moved _ _ _ ih | noted _ _ ih => exact ih
  | @blamed d f span _ _ ih =>
      unfold Cursor.blame
      split
      · exact ih
      · exact ih

/-- A report that was made stays. -/
theorem mem_reports (h : Later c d) {r : Diagnostic}
    (hr : r ∈ c.reports) : r ∈ d.reports := by
  induction h with
  | refl => exact hr
  | moved _ _ _ ih => exact ih
  | noted span _ ih => exact Array.mem_push_of_mem _ ih
  | @blamed d f span _ _ ih =>
      unfold Cursor.blame
      split
      · exact ih
      · exact Array.mem_push_of_mem _ ih

/-- Where there is no error in the end, there was none before. -/
theorem lastErrorAt_eq_none (h : Later c d) (hd : d.lastErrorAt = none) :
    c.lastErrorAt = none := by
  induction h with
  | refl => exact hd
  | moved _ _ _ ih => exact ih hd
  | noted _ _ ih => exact ih hd
  | @blamed d f span _ _ ih =>
      unfold Cursor.blame at hd
      split at hd
      · exact ih hd
      · cases hd

end Later

/-- Whether the place of the last error is known exactly if there is an
error. -/
def Cursor.IsFair (c : Cursor) : Prop :=
  c.lastErrorAt = none ↔ hasErrors c.reports.toList = false

theorem isError_report {f : Fault} (hf : f ≠ .emptyStatement)
    (span : Span) : (f.report.at span).isError = true := by
  cases f <;> first | rfl | exact absurd rfl hf

theorem Later.isFair {c d : Cursor} (h : Later c d) (hc : c.IsFair) :
    d.IsFair := by
  induction h with
  | refl => exact hc
  | moved _ _ _ ih => exact ih
  | noted span _ ih =>
      unfold Cursor.IsFair Cursor.note at *
      rw [Array.toList_push, hasErrors_append]
      simpa [hasErrors, Diagnostic.isError, Report.at, Fault.report] using ih
  | @blamed d f span hf _ ih =>
      unfold Cursor.IsFair Cursor.blame at *
      split
      · exact ih
      · have := isError_report hf span
        simp [Cursor.note, hasErrors, this]

/-- A cursor whose reports name a nesting that is too deep. -/
def Cursor.IsDeep (c : Cursor) : Prop :=
  ∃ span, Fault.tooDeep.report.at span ∈ c.reports

theorem Later.isDeep {c d : Cursor} (h : Later c d) (hc : c.IsDeep) :
    d.IsDeep :=
  hc.imp fun _ hr => h.mem_reports hr

/-- After an error has been blamed, there is one. -/
theorem lastErrorAt_blame (c : Cursor) (f : Fault) (span : Span) :
    (c.blame f span).lastErrorAt ≠ none := by
  unfold Cursor.blame
  split
  case isTrue h => simp [h]
  case isFalse => exact Option.some_ne_none _

-- ==================================================== careful reading

/-- Where a reading ends. -/
def finalCursor {α : Type} : EStateM.Result Unit Cursor α → Cursor
  | .ok _ c => c
  | .error _ c => c

/-- Reading that only moves on and reports, and that gives up on errors
alone. -/
def Careful {α : Type} (p : Parse α) : Prop :=
  ∀ c, Later c (finalCursor (p c))
    ∧ ∀ d, p c = .error () d → d.lastErrorAt ≠ none

namespace Careful

variable {α β : Type} {p : Parse α} {f : α → Parse β}

theorem later_ok (hp : Careful p) {c d : Cursor} {a : α}
    (h : p c = .ok a d) : Later c d := by
  have := (hp c).1
  rwa [h] at this

theorem later_error (hp : Careful p) {c d : Cursor}
    (h : p c = .error () d) : Later c d := by
  have := (hp c).1
  rwa [h] at this

theorem pure (a : α) : Careful (pure a : Parse α) :=
  fun _ => ⟨.refl, fun _ h => nomatch h⟩

theorem bind (hp : Careful p) (hf : ∀ a, Careful (f a)) :
    Careful (p >>= f) := by
  intro c
  show Later c (finalCursor (EStateM.bind p f c))
    ∧ ∀ d, EStateM.bind p f c = .error () d → d.lastErrorAt ≠ none
  unfold EStateM.bind
  cases h : p c with
  | ok a d =>
      have hd := hf a d
      exact ⟨(hp.later_ok h).trans hd.1, hd.2⟩
  | error e d =>
      refine ⟨hp.later_error h, fun d' h' => ?_⟩
      cases h'
      exact (hp c).2 d h

theorem map (hp : Careful p) (g : α → β) : Careful (g <$> p) :=
  hp.bind fun a => pure (g a)

theorem get_bind {f : Cursor → Parse β} (hf : ∀ c, Careful (f c)) :
    Careful (get >>= f) :=
  fun c => hf c c

theorem modify {f : Cursor → Cursor} (hf : ∀ c, Later c (f c)) :
    Careful (modify f : Parse Unit) :=
  fun c => ⟨hf c, fun _ h => nomatch h⟩

theorem ite {P : Prop} [Decidable P] {q : Parse α} (hp : Careful p)
    (hq : Careful q) : Careful (if P then p else q) := by
  split
  · exact hp
  · exact hq

theorem kind : Careful Parse.kind := get_bind fun _ => pure _

theorem here : Careful Parse.here := get_bind fun _ => pure _

theorem skip : Careful Parse.skip := modify Later.advance

theorem blame {f : Fault} (hf : f ≠ .emptyStatement) (span : Span) :
    Careful (Parse.blame f span) :=
  modify fun _ => .blamed span hf .refl

theorem spanFrom (start : Span) : Careful (Parse.spanFrom start) :=
  get_bind fun _ => pure _

theorem tokensLeft : Careful Parse.tokensLeft := get_bind fun _ => pure _

/-- Giving up right behind an error that was blamed. -/
theorem blame_throw {f : Fault} (hf : f ≠ .emptyStatement) (span : Span) :
    Careful (Parse.blame f span >>= fun _ => throw () : Parse α) := by
  refine fun c => ⟨.blamed span hf .refl, fun d h => ?_⟩
  cases h
  exact lastErrorAt_blame c f span

theorem expected (what : String) : Careful (Parse.expected what : Parse α) :=
  get_bind fun _ => blame_throw (by simp) _

theorem eat (k : Token.Kind) : Careful (Parse.eat k) :=
  kind.bind fun _ => ite (skip.bind fun _ => pure _) (pure _)

theorem expect (k : Token.Kind) (what : String) :
    Careful (Parse.expect k what) :=
  here.bind fun _ => (eat k).bind fun _ => ite (pure _) (expected what)

theorem identifier (what : String) : Careful (Parse.identifier what) :=
  get_bind fun _ => (expect _ what).bind fun _ => pure _

theorem tooDeep : Careful (Parse.tooDeep : Parse α) := by
  refine here.bind fun span c => ⟨?_, fun d h => ?_⟩
  · exact (Later.blamed span (by simp) .refl).trans (.skipGroup _)
  · cases h
    exact lastErrorAt_blame c _ span

theorem separated (hp : Careful p) (bound : Nat) :
    Careful (Parse.separated p bound) := by
  induction bound with
  | zero => exact hp.bind fun _ => pure _
  | succ bound ih =>
      exact hp.bind fun _ => (eat _).bind fun _ =>
        ite (ih.bind fun _ => pure _) (pure _)

theorem recovering {p : Parse Stmt} (hp : Careful p) :
    Careful (recovering p) := by
  intro c
  unfold Tree.recovering
  cases h : p c with
  | ok s d => exact ⟨hp.later_ok h, fun _ h' => nomatch h'⟩
  | error e d =>
      exact ⟨(hp.later_error h).trans (.skipStatement d),
        fun _ h' => nomatch h'⟩

-- ========================================================= expressions

mutual

theorem expression (n : Nat) : Careful (expression n) := by
  unfold Tree.expression
  cases n with
  | zero => exact tooDeep
  | succ n => exact assignment n
termination_by n * 8

theorem primary (n : Nat) : Careful (primary n) := by
  unfold Tree.primary
  refine get_bind fun c => ?_
  cases c.atom? with
  | some e => exact skip.bind fun _ => pure e
  | none =>
      refine (eat _).bind fun opened => ite ?_ (expected _)
      exact (expression n).bind fun _ => (expect _ _).bind fun _ => pure _
termination_by n * 8 + 1

theorem calls (n : Nat) (callee : Expr) : Careful (calls n callee) := by
  unfold Tree.calls
  refine kind.bind fun k => ite ?_ (pure _)
  cases n with
  | zero => exact tooDeep
  | succ n =>
      refine skip.bind fun _ => ?_
      have behind (args : List Expr) : Careful (do
          let close ← Parse.expect (.punct .rightParen) "')' after arguments"
          Tree.calls n (.call (callee.span.join close) callee args)) :=
        (expect _ _).bind fun _ => calls n _
      refine kind.bind fun _ => ite ((pure _).bind behind) ?_
      exact tokensLeft.bind fun bound =>
        (separated (expression n) bound).bind behind
termination_by n * 8 + 1

theorem callChain (n : Nat) : Careful (callChain n) := by
  unfold Tree.callChain
  exact (primary n).bind (calls n)
termination_by n * 8 + 2

theorem unary (n : Nat) : Careful (unary n) := by
  unfold Tree.unary
  refine get_bind fun c => ?_
  cases unaryOperator? c.kind with
  | none => exact callChain n
  | some op =>
      refine skip.bind fun _ => ?_
      cases n with
      | zero => exact tooDeep
      | succ n => exact (unary n).bind fun _ => pure _
termination_by n * 8 + 3

theorem operators (n least : Nat) (lhs : Expr) :
    Careful (operators n least lhs) := by
  unfold Tree.operators
  refine kind.bind fun k => ?_
  cases binaryOperator? k with
  | none => exact pure lhs
  | some o =>
      refine ite (pure lhs) ?_
      cases n with
      | zero => exact tooDeep
      | succ n =>
          exact skip.bind fun _ => (binary n _).bind fun _ => operators n _ _
termination_by n * 8 + 1

theorem binary (n least : Nat) : Careful (binary n least) := by
  unfold Tree.binary
  exact (unary n).bind (operators n least)
termination_by n * 8 + 4

theorem assignment (n : Nat) : Careful (assignment n) := by
  unfold Tree.assignment
  refine (binary n 1).bind fun target => (eat _).bind fun _ =>
    ite ?_ (pure _)
  cases n with
  | zero => exact tooDeep
  | succ n =>
      refine (assignment n).bind fun value => ?_
      cases target with
      | ident span name => exact pure _
      | _ => exact blame_throw (by simp) _
termination_by n * 8 + 5

end

-- ========================================================== statements

theorem terminator (behind : String) : Careful (terminator behind) := by
  refine (eat _).bind fun _ => ite (pure _) (kind.bind fun k => ?_)
  exact ite (pure _) ((pure _).bind fun _ => expected _)

theorem statementsInBlock {p : Parse Stmt} (hp : Careful p)
    (bound : Nat) : Careful (statementsInBlock p bound) := by
  induction bound with
  | zero => exact pure []
  | succ bound ih =>
      exact kind.bind fun _ => ite (pure _) <| (recovering hp).bind
        fun _ => ih.bind fun _ => pure _

theorem parameter (seen : List Ident) : Careful (parameter seen) := by
  refine (identifier _).bind fun p => ?_
  dsimp only
  split
  · exact (blame (by simp) _).bind fun _ => pure _
  · exact pure _

theorem parameters (seen : List Ident) (bound : Nat) :
    Careful (parameters seen bound) := by
  induction bound generalizing seen with
  | zero => exact parameter seen
  | succ bound ih =>
      exact (parameter seen).bind fun seen => (eat _).bind fun _ =>
        ite (ih seen) (pure seen)

theorem declaration (n : Nat) (start : Span) :
    Careful (declaration n start) := by
  have behind (name : Ident) (init : Option Expr) : Careful (do
      Tree.terminator "let declaration"
      return .declare (← Parse.spanFrom start) name init : Parse Stmt) :=
    (terminator _).bind fun _ => (spanFrom start).bind fun _ => pure _
  refine (identifier _).bind fun name => (eat _).bind fun _ => ite ?_ ?_
  · exact ((expression n).map some).bind (behind name)
  · exact (pure none).bind (behind name)

theorem returnStatement (n : Nat) (inside : Bool) (start : Span) :
    Careful (returnStatement n inside start) := by
  have ending (value : Option Expr) : Careful (do
      Tree.terminator "return statement"
      return .giveBack (← Parse.spanFrom start) value : Parse Stmt) :=
    (terminator _).bind fun _ => (spanFrom start).bind fun _ => pure _
  have behind : Careful (do
      let k ← Parse.kind
      let value ←
        if k = .punct .semicolon ∨ k = .punct .rightBrace
            ∨ k = .endOfInput then Pure.pure none
        else some <$> Tree.expression n
      Tree.terminator "return statement"
      return .giveBack (← Parse.spanFrom start) value : Parse Stmt) :=
    kind.bind fun _ => ite ((pure none).bind ending)
      (((expression n).map some).bind ending)
  unfold Tree.returnStatement
  cases inside with
  | true => exact behind
  | false => exact (blame (by simp) _).bind fun _ => behind

mutual

theorem statement (n : Nat) (inside : Bool) :
    Careful (statement n inside) := by
  unfold Tree.statement
  refine get_bind fun c => ?_
  dsimp only
  split
  case h_1 => exact skip.bind fun _ => declaration n c.here
  case h_2 => exact skip.bind fun _ => function n c.here
  case h_3 => exact branch n inside
  case h_4 =>
      exact skip.bind fun _ => (expression n).bind fun _ =>
        (block n inside).bind fun _ => (spanFrom _).bind fun _ => pure _
  case h_5 => exact skip.bind fun _ => returnStatement n inside c.here
  case h_6 =>
      exact skip.bind fun _ => (expression n).bind fun _ =>
        (terminator _).bind fun _ => (spanFrom _).bind fun _ => pure _
  case h_7 => exact (block n inside).bind fun _ => pure _
  case h_8 =>
      exact skip.bind fun _ => (modify fun _ => .noted _ .refl).bind
        fun _ => (spanFrom _).bind fun _ => pure _
  case h_9 =>
      exact (expression n).bind fun _ => (terminator _).bind fun _ =>
        (spanFrom _).bind fun _ => pure _
termination_by n * 4 + 3

theorem function (n : Nat) (start : Span) :
    Careful (function n start) := by
  have behind (name : Ident) (params : List Ident) : Careful (do
      let _ ← Parse.expect (.punct .rightParen) "')' after parameters"
      let body ← Tree.block n true
      return .function ⟨name, params, body, start.join body.span⟩ :
        Parse Stmt) :=
    (expect _ _).bind fun _ => (block n true).bind fun _ => pure _
  unfold Tree.function
  refine (identifier _).bind fun name => (expect _ _).bind fun _ =>
    kind.bind fun _ => ite ((pure []).bind (behind name)) ?_
  exact tokensLeft.bind fun bound =>
    (parameters [] bound).bind (behind name)
termination_by n * 4 + 2

theorem branch (n : Nat) (inside : Bool) : Careful (branch n inside) := by
  have behind (start : Span) (cond : Expr) (thenPart : Block)
      (elsePart : Option Stmt) : Careful (do
        return .branch (← Parse.spanFrom start) cond thenPart elsePart :
          Parse Stmt) :=
    (spanFrom start).bind fun _ => pure _
  unfold Tree.branch
  refine here.bind fun start => skip.bind fun _ =>
    (expression n).bind fun cond => (block n inside).bind fun body =>
    (eat _).bind fun _ => ite (kind.bind fun _ => ite ?_ ?_)
      ((pure none).bind (behind start cond body))
  · cases n with
    | zero => exact tooDeep.bind (behind start cond body)
    | succ n =>
        exact ((branch n inside).map some).bind (behind start cond body)
  · exact (((block n inside).map .block).map some).bind
      (behind start cond body)
termination_by n * 4 + 2

theorem block (n : Nat) (inside : Bool) : Careful (block n inside) := by
  unfold Tree.block
  cases n with
  | zero => exact tooDeep
  | succ n =>
      exact (expect _ _).bind fun _ => tokensLeft.bind fun bound =>
        (statementsInBlock (statement n inside) bound).bind fun _ =>
        (expect _ _).bind fun _ => pure _
termination_by n * 4

end

theorem statementsOfProgram (bound : Nat) :
    Careful (statementsOfProgram bound) := by
  induction bound with
  | zero => exact pure []
  | succ bound ih =>
      refine kind.bind fun k => ?_
      split
      · exact pure []
      · exact here.bind fun _ => (blame (by simp) _).bind fun _ =>
          skip.bind fun _ => ih
      · exact (recovering (statement _ _)).bind fun _ =>
          ih.bind fun _ => pure _

end Careful

end Script.Tree
