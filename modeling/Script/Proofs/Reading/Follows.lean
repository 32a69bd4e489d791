/-
All readers follow: whatever is read in a run within a longer one, the
outcomes in both go together. The induction is the recursion of the
readers. What each of them needs besides is what it does at the end of the
short run, and there it looks at one token at most.

One place is not like the others. A call without arguments asks for no
level of nesting, but where the closing parenthesis is cut off an argument
is expected, and that does. So a short run that stops there can blame the
nesting.
-/
import Script.Proofs.Reading.Meets

namespace Script.Tree

open Script.Action

variable {α β : Type} {x : Context}

-- ======================================================= at the end

namespace Fails

theorem atom?_eq_none {c : Cursor} (h : c.kind = .endOfInput) :
    c.atom? = none := by
  unfold Cursor.atom?
  rw [h]

theorem primary (n : Nat) : Fails x (primary n) := by
  intro c hc
  unfold Tree.primary
  rw [get_bind, atom?_eq_none hc.kind]
  exact eat_bind (f := fun opened => if opened then _
    else Parse.expected "expression") (by simp) (expected _) c hc

theorem callChain (n : Nat) : Fails x (callChain n) := by
  unfold Tree.callChain
  exact (primary n).bind _

theorem unary (n : Nat) : Fails x (unary n) := by
  intro c hc
  unfold Tree.unary
  rw [get_bind, hc.kind]
  exact callChain n c hc

theorem binary (n least : Nat) : Fails x (binary n least) := by
  unfold Tree.binary
  exact (unary n).bind _

theorem assignment (n : Nat) : Fails x (assignment n) := by
  unfold Tree.assignment
  exact (binary n 1).bind _

/-- The nesting can be blamed where the short run is hollow. -/
theorem tooDeep (h : x.Hollow) : Fails x (Parse.tooDeep : Parse α) := by
  intro c hc
  have hblame := hc.blame (.inr ⟨rfl, h⟩)
  refine ⟨_, rfl, ?_⟩
  have hrest := hblame.rest
  have hsame : (c.blame .tooDeep c.here).skipGroup
      = c.blame .tooDeep c.here := by
    unfold Cursor.skipGroup
    rw [hrest]
    generalize c.blame .tooDeep c.here = d at *
    cases d
    cases hrest
    rfl
  rwa [hsame]

theorem expression {n : Nat} (h : 0 < n ∨ x.Hollow) :
    Fails x (expression n) := by
  unfold Tree.expression
  cases n with
  | zero => exact tooDeep (h.resolve_left (Nat.lt_irrefl 0))
  | succ n => exact assignment n

theorem block {n : Nat} (h : 0 < n) (inside : Bool) :
    Fails x (block n inside) := by
  unfold Tree.block
  cases n with
  | zero => exact absurd h (Nat.lt_irrefl 0)
  | succ n => exact (expect (by simp) _).bind _

end Fails

/-- An expression takes a level of nesting. -/
theorem levels_of_expression {n : Nat} {c d : Cursor} {e : Expr}
    (h : expression n c = .ok e d) : 0 < n := by
  unfold expression at h
  cases n with
  | zero => exact (tooDeep_ok h).elim
  | succ n => exact Nat.succ_pos n

theorem levels_of_block {n : Nat} {inside : Bool} {c d : Cursor} {b : Block}
    (h : block n inside c = .ok b d) : 0 < n := by
  unfold block at h
  cases n with
  | zero => exact (tooDeep_ok h).elim
  | succ n => exact Nat.succ_pos n

namespace Keeps

theorem calls (n : Nat) (callee : Expr) : Keeps x (calls n callee) := by
  unfold Tree.calls
  refine kind_bind ?_
  exact .pure callee

theorem operators (n least : Nat) (lhs : Expr) :
    Keeps x (operators n least lhs) := by
  unfold Tree.operators
  refine kind_bind ?_
  exact .pure lhs

theorem reaching (start : Span) (g : Span → Stmt) :
    Keeps x (do return g (← Parse.spanFrom start)) :=
  (spanFrom start).map g

theorem ending (behind : String) (start : Span) (g : Span → Stmt) :
    Keeps x (do
      Tree.terminator behind
      return g (← Parse.spanFrom start)) :=
  (terminator behind).bind fun _ => reaching start g

theorem statementsInBlock (p : Parse Stmt) (bound : Nat) :
    Keeps x (statementsInBlock p bound) := by
  cases bound with
  | zero => exact .pure []
  | succ bound =>
      refine kind_bind ?_
      exact .pure []

end Keeps

/-- An expression of one token has the span of that. -/
theorem Cursor.span_of_atom? {c : Cursor} {e : Expr}
    (h : c.atom? = some e) : e.span = c.here := by
  unfold Cursor.atom? at h
  split at h <;> cases h <;> rfl

namespace Advances

/-- Reading that takes a token behind another reading. -/
theorem behind {p : Parse α} {f : α → Parse β} (hp : Careful p)
    (hf : ∀ a, Advances (f a)) : Advances (p >>= f) := by
  intro c b d h
  obtain ⟨a, c', ha, h⟩ := bind_ok.1 h
  exact Nat.lt_of_lt_of_le (hf a _ _ _ h) (hp.length_le ha)

end Advances

/-- A call behind its opening parenthesis, and the calls behind it. -/
def callBehind (n : Nat) (callee : Expr) : Parse Expr := do
  let args ←
    if (← Parse.kind) = .punct .rightParen then pure []
    else Parse.separated (expression n) (← Parse.tokensLeft)
  let close ← Parse.expect (.punct .rightParen) "')' after arguments"
  calls n (.call (callee.span.join close) callee args)

theorem calls_eq_bind (n : Nat) (callee : Expr) :
    calls n callee = Parse.kind >>= fun k =>
      if k = .punct .leftParen then
        match n with
        | 0 => Parse.tooDeep
        | n + 1 => Parse.skip >>= fun _ => callBehind n callee
      else pure callee := by
  unfold calls
  rfl

theorem Careful.callBehind (n : Nat) (callee : Expr) :
    Careful (Tree.callBehind n callee) := by
  have behind (args : List Expr) : Careful (do
      let close ← Parse.expect (.punct .rightParen) "')' after arguments"
      Tree.calls n (.call (callee.span.join close) callee args)) :=
    (expect _ _).bind fun _ => calls n _
  exact kind.bind fun _ => ite ((pure []).bind behind)
    (tokensLeft.bind fun bound =>
      (separated (expression n) bound).bind behind)

/-- A call has a closing parenthesis at least. -/
theorem Advances.callBehind (n : Nat) (callee : Expr) :
    Advances (Tree.callBehind n callee) := by
  have closing (args : List Expr) : Advances (do
      let close ← Parse.expect (.punct .rightParen) "')' after arguments"
      Tree.calls n (.call (callee.span.join close) callee args)) :=
    (expect (by simp) _).bind fun _ => Careful.calls n _
  refine behind .kind fun k => ?_
  split
  · exact behind (.pure []) closing
  · exact behind .tokensLeft fun bound =>
      behind (.separated (.expression n) bound) closing

/-- Where a call is cut off, an argument is expected. -/
theorem Fails.callBehind {n : Nat} (h : 0 < n ∨ x.Hollow) (callee : Expr) :
    Fails x (Tree.callBehind n callee) := by
  refine kind_bind ?_
  exact tokensLeft_bind fun bound => (separated (expression h) bound).bind _

/-- A call without a level of nesting has no arguments. -/
theorem kind_of_callBehind {callee e : Expr} {c d : Cursor}
    (h : callBehind 0 callee c = .ok e d) : c.kind = .punct .rightParen := by
  unfold callBehind at h
  rw [kind_bind] at h
  split at h
  case isTrue hk => exact hk
  case isFalse =>
      rw [tokensLeft_bind] at h
      obtain ⟨args, c', hargs, -⟩ := bind_ok.1 h
      have hnone (bound : Nat) :
          Parse.separated (expression 0) bound c ≠ .ok args c' := by
        intro h
        cases bound with
        | zero | succ bound =>
            obtain ⟨a, c₁, hone, -⟩ := bind_ok.1 h
            exact absurd (levels_of_expression hone) (Nat.lt_irrefl 0)
      exact absurd hargs (hnone _)

/-- A run that ends behind the opening parenthesis of a call, which the
long run closes there, is hollow. -/
theorem Context.hollow_of_kind (x : Context) {c : Cursor} (hc : x.Knows c)
    (hopen : c.kind = .punct .leftParen) (h : ¬ x.Sees c.advance)
    (hclose : (c.advance.within x).kind = .punct .rightParen) :
    x.Hollow := by
  have hnil := x.rest_of_not_sees h
  obtain ⟨t, ts, hrest, ht⟩ := Cursor.exists_of_kind hopen nofun
  obtain ⟨u, us, htail, hu⟩ := Cursor.exists_of_kind hclose nofun
  constructor
  · obtain ⟨front, hread⟩ := hc.rest
    have hts : ts = [] := by
      unfold Cursor.advance at hnil
      rw [hrest] at hnil
      exact hnil
    refine ⟨t, ?_, ht⟩
    rw [← hread, hrest, hts, List.getLast?_concat]
  · unfold Cursor.within at htail
    rw [hnil] at htail
    exact ⟨u, congrArg List.head? htail, hu⟩

namespace Follows

-- ========================================================= expressions

mutual

theorem expression (n : Nat) {C : Prop} :
    Follows x C (fun e => x.Free e.span) (expression n) := by
  unfold Tree.expression
  cases n with
  | zero => exact tooDeep
  | succ n => exact assignment n
termination_by n * 8

theorem primary (n : Nat) {C : Prop} :
    Follows x C (fun e => x.Free e.span) (primary n) := by
  refine .of_seen ?_ (.primary n)
    (Keeps.waits fun _ => (Fails.primary n).keeps)
  unfold Tree.primary
  refine .get_bind (fun c => ?_) fun c h => ?_
  · cases hatom : c.atom? with
    | some e =>
        refine .skip_bind (.pure fun hC => ?_)
        rw [Cursor.span_of_atom? hatom]
        exact hC.2
    | none =>
        refine .of_follows (.eat_bind (by simp) ?_ (expected _)
          (Fails.expected _).keeps)
        refine (expression n).bind (fun inner => ?_)
          (Keeps.waits fun _ => (Fails.expect_bind (by simp) _ _).keeps)
        refine (expect (by simp) _).bind (fun close => ?_)
          (Keeps.waits fun _ => .pure _)
        exact .pure fun hC => x.joinClosed_free _ _ hC.1.1.2 hC.2
  · simp only [Cursor.atom?_within h, Cursor.here_within h]
termination_by n * 8 + 1

theorem calls (n : Nat) {C : Prop} {callee : Expr}
    (hcallee : C → x.Free callee.span) :
    Follows x C (fun e => x.Free e.span) (calls n callee) := by
  have done : Follows x C (fun e => x.Free e.span)
      (Pure.pure callee : Parse Expr) := .pure hcallee
  rw [calls_eq_bind]
  refine .kind_bind (fun k => ?_) done (fun _ => .pure callee) fun k => ?_
  · split
    case isFalse => exact .of_follows done
    case isTrue hk =>
        cases n with
        | zero => exact .of_follows tooDeep
        | succ n => exact hk ▸ call n hcallee
  · split
    case isFalse => exact .inl rfl
    case isTrue hopen =>
        refine .inr fun {c e d} hk h => ?_
        cases n with
        | zero => exact (tooDeep_ok h).elim
        | succ n =>
            exact Careful.length_lt_of_skip
              (fun _ => .callBehind n callee)
              (by rw [hk, hopen]; exact nofun) h
termination_by n * 8 + 1

theorem call (n : Nat) {C : Prop} {callee : Expr}
    (hcallee : C → x.Free callee.span) :
    FollowsAt (.punct .leftParen) x C (fun e => x.Free e.span)
      (Parse.skip >>= fun _ => callBehind n callee) := by
  have behind (args : List Expr) : Follows x C (fun e => x.Free e.span) (do
      let close ← Parse.expect (.punct .rightParen) "')' after arguments"
      Tree.calls n (.call (callee.span.join close) callee args)) :=
    (expect (by simp) _).bind
      (fun close => calls n fun hC =>
        x.joinClosed_free _ _ (hcallee hC.1) hC.2)
      (Keeps.waits fun _ => .calls n _)
  have hcall (k : Token.Kind) : FollowsAt k x C (fun e => x.Free e.span)
      (callBehind n callee) := by
    refine .kind_bind fun k => .ite (.of_follows (behind []))
      (.of_follows (.tokensLeft_bind (fun bound => ?_) fun hb hb' => ?_))
    · exact (separated (expression n) bound).bind
        (fun args => (behind args).when And.left)
        (Keeps.waits fun _ => (Fails.expect_bind (by simp) _ _).keeps)
    · exact bind_congr_left (separated_bounds (.expression n) hb hb') _
  refine ⟨Careful.skip.bind fun _ => .callBehind n callee,
    fun hC => Builds.skip.bind fun _ _ => (hcall .endOfInput).builds hC,
    fun hC c hc h hk => .skip_bind h ?_⟩
  by_cases h' : x.Sees c.advance
  · exact (hcall _).meets hC hc.advance h' rfl
  · refine .of_cut hc.advance h' (.callBehind n callee)
      (.callBehind n callee) fun {e d} hr => ?_
    have hlt := Advances.callBehind n callee _ _ _ hr
    rw [Context.length_of_not_sees h'] at hlt
    refine ⟨hlt, (Fails.callBehind ?_ callee).keeps⟩
    cases n with
    | zero =>
        exact .inr (x.hollow_of_kind hc hk h' (kind_of_callBehind hr))
    | succ n => exact .inl n.succ_pos
termination_by n * 8 + 7

theorem callChain (n : Nat) {C : Prop} :
    Follows x C (fun e => x.Free e.span) (callChain n) := by
  unfold Tree.callChain
  exact (primary n).bind (fun callee => calls n And.right)
    (Keeps.waits fun _ => .calls n _)
termination_by n * 8 + 2

theorem unary (n : Nat) {C : Prop} :
    Follows x C (fun e => x.Free e.span) (unary n) := by
  refine .of_seen ?_ (.unary n) (Keeps.waits fun _ => (Fails.unary n).keeps)
  unfold Tree.unary
  refine .get_bind (fun c => ?_) fun c h => ?_
  · cases unaryOperator? c.kind with
    | none => exact .of_follows (callChain n)
    | some op =>
        refine .skip_bind ?_
        cases n with
        | zero => exact tooDeep
        | succ n =>
            exact (unary n).bind
              (fun operand => .pure fun hC =>
                x.joinClosed_free _ _ hC.1.2 hC.2)
              (Keeps.waits fun _ => .pure _)
  · simp only [Cursor.kind_within h, Cursor.here_within h]
termination_by n * 8 + 3

theorem operators (n least : Nat) {C : Prop} {lhs : Expr}
    (hlhs : C → x.Free lhs.span) :
    Follows x C (fun e => x.Free e.span) (operators n least lhs) := by
  have done : Follows x C (fun e => x.Free e.span)
      (Pure.pure lhs : Parse Expr) := .pure hlhs
  unfold Tree.operators
  refine .kind_bind (fun k => ?_) done (fun _ => .pure lhs) fun k => ?_
  · cases binaryOperator? k with
    | none => exact .of_follows done
    | some o =>
        refine .ite (.of_follows done) ?_
        cases n with
        | zero => exact .of_follows tooDeep
        | succ n =>
            refine .skip_bind ((binary n _).bind (fun rhs => ?_)
              (Keeps.waits fun _ => .operators n least _))
            exact operators n least fun hC =>
              x.joinClosed_free _ _ (hlhs hC.1) hC.2
  · cases hop : binaryOperator? k with
    | none => exact .inl rfl
    | some o =>
        dsimp only
        split
        · exact .inl rfl
        · refine .inr fun {c e d} hk h => ?_
          have hend := (binaryOperator?_eq_some.1 hop).ne_endOfInput
          cases n with
          | zero => exact (tooDeep_ok h).elim
          | succ n =>
              refine Careful.length_lt_of_skip (fun _ => ?_) (hk ▸ hend) h
              exact (Careful.binary n _).bind fun _ => .operators n _ _
termination_by n * 8 + 1

theorem binary (n least : Nat) {C : Prop} :
    Follows x C (fun e => x.Free e.span) (binary n least) := by
  unfold Tree.binary
  exact (unary n).bind (fun lhs => operators n least And.right)
    (Keeps.waits fun _ => .operators n least _)
termination_by n * 8 + 4

theorem assignment (n : Nat) {C : Prop} :
    Follows x C (fun e => x.Free e.span) (assignment n) := by
  unfold Tree.assignment
  refine (binary n 1).bind (fun target => ?_)
    (Keeps.waits fun target => .eat_bind (by simp) (Keeps.pure target))
  refine .eat_bind (by simp) ?_ (.pure And.right) (Keeps.pure target)
  cases n with
  | zero => exact tooDeep
  | succ n =>
      cases target with
      | ident span name =>
          exact (assignment n).bind
            (fun value => .pure fun hC => x.joinClosed_free _ _ hC.1.2 hC.2)
            (Keeps.waits fun _ => .pure _)
      | _ =>
          exact (assignment n).bind
            (fun value => .blame_throw (by simp) fun hC => hC.1.2)
            (fun _ _ _ _ h => nomatch h)
termination_by n * 8 + 5

end

-- ========================================================== statements

theorem terminator {C : Prop} (behind : String) :
    Follows x C (fun _ => True) (terminator behind) := by
  have done : Follows x C (fun _ => True) (Pure.pure () : Parse Unit) :=
    .pure fun _ => trivial
  unfold Tree.terminator
  refine .eat_bind (by simp) done ?_ (Keeps.kind_bind (.pure ()))
  refine .kind_bind (fun k => .of_follows ?_) done (fun _ => .pure ())
    fun k => ?_
  · exact .ite done (expected _)
  · split
    case isTrue => exact .inl rfl
    case isFalse => exact .inr fun _ h => (expected_ok h).elim

theorem parameter {C : Prop} (seen : List Ident) :
    Follows x C (fun _ => True) (parameter seen) := by
  -- at the end there is no name, whatever would be said of one
  refine .of_seen (fun k => ⟨.parameter seen, fun _ => .parameter seen, ?_⟩)
    (.parameter seen)
    (Keeps.waits fun _ => ((Fails.identifier _).bind _).keeps)
  intro _ c hc h _
  refine identifier_bind _ hc h ?_
  dsimp only
  split
  · exact ((blame (C := True) (by simp) fun _ => hc.spanned.here).bind
      (R := fun _ => True) (fun _ => .pure fun _ => trivial)
      (Keeps.waits fun _ => .pure _)).meets trivial hc.advance
  · exact .step (.ok _ c.advance)

theorem parameters {C : Prop} (seen : List Ident) (bound : Nat) :
    Follows x C (fun _ => True) (parameters seen bound) := by
  induction bound generalizing C seen with
  | zero => exact parameter seen
  | succ bound ih =>
      exact (parameter seen).bind
        (fun seen => .eat_bind (by simp) (ih seen) (.pure fun _ => trivial)
          (Keeps.pure seen))
        (Keeps.waits fun seen => .eat_bind (by simp) (Keeps.pure seen))

/-- A statement with the span up to the last token read. -/
theorem reaching {C : Prop} (start : Span) (g : Span → Stmt) :
    Follows x C (fun _ => True) (do return g (← Parse.spanFrom start)) :=
  (spanFrom start).map fun _ _ _ => trivial

/-- The end of a statement, whose span reaches up to it. -/
theorem ending {C : Prop} (behind : String) (start : Span)
    (g : Span → Stmt) : Follows x C (fun _ => True) (do
      Tree.terminator behind
      return g (← Parse.spanFrom start)) :=
  (terminator behind).bind (fun _ => reaching start g)
    (Keeps.waits fun _ => .reaching start g)

theorem something {C : Prop} (n : Nat) :
    Follows x C (fun _ => True) (some <$> Tree.expression n) :=
  (expression n).map fun _ _ _ => trivial

theorem declaration {C : Prop} (n : Nat) (start : Span) :
    Follows x C (fun _ => True) (declaration n start) := by
  have hkeeps (name : Ident) (init : Option Expr) :=
    Keeps.ending (x := x) "let declaration" start (.declare · name init)
  have behind {C : Prop} (name : Ident) (init : Option Expr) :=
    ending (x := x) (C := C) "let declaration" start (.declare · name init)
  unfold Tree.declaration
  refine (identifier _).bind (fun name => ?_) (Keeps.waits fun name =>
    .eat_bind (by simp) (hkeeps name none))
  refine .eat_bind (by simp) ?_ (behind name none) (hkeeps name none)
  exact (something n).bind (behind name) (Keeps.waits (hkeeps name))

theorem returnStatement {C : Prop} (n : Nat) (inside : Bool) {start : Span}
    (hstart : C → x.Free start) :
    Follows x C (fun _ => True) (Tree.returnStatement n inside start) := by
  have hkeeps (value : Option Expr) :=
    Keeps.ending (x := x) "return statement" start (.giveBack · value)
  have behind {C : Prop} (value : Option Expr) :=
    ending (x := x) (C := C) "return statement" start (.giveBack · value)
  have inFunction {C : Prop} :
      Follows x C (fun _ => True) (Tree.returnStatement n true start) := by
    have hvalue := (something (x := x) (C := C) n).bind behind
      (Keeps.waits hkeeps)
    refine .kind_bind (fun k => .of_follows (.ite (behind none) hvalue))
      (behind none) (fun _ => hkeeps none) fun k => ?_
    split
    case isTrue => exact .inl rfl
    case isFalse =>
        refine .inr fun {c s d} _ h => ?_
        exact ((Advances.expression n).map some).bind
          (fun value => (behind (C := True) value).careful) _ _ _ h
  cases inside with
  | true => exact inFunction
  | false =>
      exact (blame (by simp) hstart).bind (fun _ => inFunction)
        (Keeps.waits fun _ => .kind_bind (hkeeps none))

theorem statementsInBlock {C : Prop} {n : Nat} {inside : Bool}
    (hstatement : ∀ k, FollowsAt k x C (fun _ => True)
      (statement n inside)) (bound : Nat) :
    Follows x C (fun _ => True)
      (statementsInBlock (Tree.statement n inside) bound) := by
  induction bound with
  | zero => exact .pure fun _ => trivial
  | succ bound ih =>
      have done : Follows x C (fun _ => True)
          (Pure.pure [] : Parse (List Stmt)) := .pure fun _ => trivial
      have hmore (k : Token.Kind) := (hstatement k).recovering.bind
        (f := fun s? => (s?.toList ++ ·) <$> Tree.statementsInBlock
          (Tree.statement n inside) bound)
        (fun s? => (ih.when And.left).map (R := fun _ => True)
          fun _ _ _ => trivial)
        (Keeps.waits fun s? => (Keeps.statementsInBlock _ bound).map _)
      refine .kind_bind (fun k => .ite (.of_follows done) (hmore k)) done
        (fun _ => .pure []) fun k => ?_
      split
      case isTrue => exact .inl rfl
      case isFalse hk =>
          refine .inr fun {c ss d} hck h => ?_
          obtain ⟨s?, c', hone, h⟩ := bind_ok.1 h
          rw [recovering_eq] at hone
          cases hone
          obtain ⟨hbrace, hend⟩ := not_or.1 hk
          have hlt := Cursor.length_round (hck ▸ hend) (hck ▸ hbrace)
            n inside
          exact Nat.lt_of_le_of_lt ((ih.careful.map _).length_le h) hlt

/-- A block needs a level of nesting in both runs. -/
theorem waits_block {n : Nat} {inside : Bool} {g : α → Block → Parse β} :
    Waits x fun a => Tree.block n inside >>= g a := by
  intro a c b d h a'
  obtain ⟨body, c', hbody, -⟩ := bind_ok.1 h
  exact (Fails.block (levels_of_block hbody) inside).bind_keeps _

mutual

theorem statement (n : Nat) (inside : Bool) {C : Prop} (k : Token.Kind) :
    FollowsAt k x C (fun _ => True) (statement n inside) := by
  unfold Tree.statement
  refine .get_bind (fun c => ?_) (fun c h => ?_) k
  · dsimp only
    split
    case h_1 => exact .skip_bind (declaration n c.here)
    case h_2 => exact .skip_bind (function n c.here)
    case h_3 => exact branch n inside _
    case h_4 =>
        refine .skip_bind ((expression n).bind (fun cond => ?_) waits_block)
        exact (block n inside).bind
          (fun body => reaching c.here (.loop · cond body))
          (Keeps.waits fun body => .reaching c.here (.loop · cond body))
    case h_5 => exact .skip_bind (returnStatement n inside And.right)
    case h_6 =>
        exact .skip_bind ((expression n).bind
          (fun value => ending "print statement" c.here (.print · value))
          (Keeps.waits fun value => .ending _ c.here (.print · value)))
    case h_7 =>
        exact .of_follows ((block n inside).map fun _ _ _ => trivial)
    case h_8 =>
        exact .skip_bind ((note .emptyStatement rfl And.right).bind
          (fun _ => reaching c.here .empty)
          (Keeps.waits fun _ => .reaching c.here .empty))
    case h_9 =>
        exact .of_follows ((expression n).bind
          (fun value => ending "expression" c.here (.expression · value))
          (Keeps.waits fun value => .ending _ c.here (.expression · value)))
  · simp only [Cursor.kind_within h, Cursor.here_within h]
termination_by n * 4 + 3

theorem function (n : Nat) {C : Prop} (start : Span) :
    Follows x C (fun _ => True) (function n start) := by
  have behind {C : Prop} (name : Ident) (params : List Ident) :
      Follows x C (fun _ => True) (do
        let _ ← Parse.expect (.punct .rightParen) "')' after parameters"
        let body ← Tree.block n true
        return .function ⟨name, params, body, start.join body.span⟩ :
          Parse Stmt) :=
    (expect (by simp) _).bind
      (fun _ => (block n true).map fun _ _ _ => trivial) waits_block
  have hkeeps {name : Ident} : Keeps x (Parse.tokensLeft >>= fun bound =>
      Tree.parameters [] bound >>= fun params => do
        let _ ← Parse.expect (.punct .rightParen) "')' after parameters"
        let body ← Tree.block n true
        return .function ⟨name, params, body, start.join body.span⟩ :
          Parse Stmt) :=
    (Fails.tokensLeft_bind fun bound =>
      (Fails.parameters [] bound).bind _).keeps
  have more {C : Prop} (name : Ident) :
      Follows x C (fun _ => True) (Parse.tokensLeft >>= fun bound =>
        Tree.parameters [] bound >>= fun params => do
          let _ ← Parse.expect (.punct .rightParen) "')' after parameters"
          let body ← Tree.block n true
          return .function ⟨name, params, body, start.join body.span⟩ :
            Parse Stmt) :=
    .tokensLeft_bind
      (fun bound => (parameters [] bound).bind (fun _ => behind name _)
        (Keeps.waits fun _ => (Fails.expect_bind (by simp) _ _).keeps))
      fun hb hb' => bind_congr_left (parameters_bounds hb hb') _
  unfold Tree.function
  refine (identifier _).bind (fun name => ?_)
    (Keeps.waits fun name => (Fails.expect_bind (by simp) _ _).keeps)
  refine (expect (by simp) _).bind (fun _ => ?_)
    (Keeps.waits fun _ => .kind_bind hkeeps)
  refine .kind_bind
    (fun k => .of_follows (.ite (behind name []) (more name)))
    (more name) (fun _ => hkeeps) fun k => ?_
  split
  case isTrue =>
      refine .inr fun _ h => ?_
      exact (Advances.expect (by simp) _).bind
        (fun _ => (Careful.block n true).bind fun _ => .pure _) _ _ _ h
  case isFalse => exact .inl rfl
termination_by n * 4 + 2

theorem branch (n : Nat) (inside : Bool) {C : Prop} (k : Token.Kind) :
    FollowsAt k x C (fun _ => True) (branch n inside) := by
  unfold Tree.branch
  refine .here_bind fun start => .skip_bind ?_
  refine (expression n).bind (fun cond => ?_) waits_block
  refine (block n inside).bind (fun thenPart => ?_) 
    (Keeps.waits fun thenPart => ?_)
  · exact elsePart n inside
      (fun i => reaching start (.branch · cond thenPart i))
      fun i => .reaching start (.branch · cond thenPart i)
  · exact .eat_bind (by simp)
      (.reaching start (.branch · cond thenPart none))
termination_by n * 4 + 2

theorem elsePart (n : Nat) (inside : Bool) {C : Prop}
    {f : Option Stmt → Parse Stmt}
    (hf : ∀ {C : Prop} i, Follows x C (fun _ => True) (f i))
    (hkeeps : ∀ i, Keeps x (f i)) :
    Follows x C (fun _ => True) (elsePart n inside f) := by
  have part : Follows x C (fun _ => True)
      (some <$> Stmt.block <$> Tree.block n inside) :=
    ((block n inside).map (R := fun _ => True) fun _ _ _ => trivial).map
      fun _ _ _ => trivial
  have braced := part.bind (R := fun _ => True) (fun i => hf i)
    (Keeps.waits hkeeps)
  have hbraced (h : 0 < n) :
      Keeps x (some <$> Stmt.block <$> Tree.block n inside >>= f) :=
    ((((Fails.block h inside).bind _).bind _).bind f).keeps
  unfold Tree.elsePart
  refine .eat_bind (by simp) ?_ (hf none) (hkeeps none)
  refine .kind_bind (fun k => .ite ?_ (.of_follows braced)) braced
    (fun h => ?_) fun k => ?_
  · cases n with
    | zero =>
        exact .of_follows ((tooDeep (Q := fun _ => True)).bind
          (fun i => hf i) (Keeps.waits hkeeps))
    | succ n =>
        exact ((branch n inside k).map (R := fun _ => True)
          fun _ _ _ => trivial).bind (fun i => hf i) (Keeps.waits hkeeps)
  · split at h
    case isTrue =>
        cases n with
        | zero => exact (tooDeep_ok h).elim
        | succ n => exact hbraced n.succ_pos
    case isFalse =>
        obtain ⟨i, c', h, -⟩ := bind_ok.1 h
        obtain ⟨s, h, -⟩ := map_ok.1 h
        obtain ⟨b, h, -⟩ := map_ok.1 h
        exact hbraced (levels_of_block h)
  · split
    case isTrue hif =>
        refine .inr fun hk h => ?_
        cases n with
        | zero => exact (tooDeep_ok h).elim
        | succ n =>
            obtain ⟨i, c', h, hmore⟩ := bind_ok.1 h
            obtain ⟨s, h, -⟩ := map_ok.1 h
            have hlt := Advances.branch_of_kind (by simp [hk, hif]) h
            have hcareful := (hf (C := True) i).careful
            exact Nat.lt_of_le_of_lt (hcareful.length_le hmore) hlt
    case isFalse => exact .inl rfl
termination_by n * 4 + 1

theorem block (n : Nat) (inside : Bool) {C : Prop} :
    Follows x C (fun _ => True) (block n inside) := by
  unfold Tree.block
  cases n with
  | zero => exact tooDeep
  | succ n =>
      refine (expect (by simp) _).bind (fun opening => ?_)
        (Keeps.waits fun _ => .tokensLeft_bind fun bound =>
          (Keeps.statementsInBlock _ bound).bind fun _ =>
            (Fails.expect_bind (by simp) _ _).keeps)
      refine .tokensLeft_bind (fun bound => ?_) fun hb hb' =>
        bind_congr_left (statementsInBlock_bounds hb hb') _
      refine (statementsInBlock (statement n inside) bound).bind
        (fun ss => ?_)
        (Keeps.waits fun _ => (Fails.expect_bind (by simp) _ _).keeps)
      exact (expect (by simp) _).map fun _ _ _ => trivial
termination_by n * 4

end

end Follows

end Script.Tree
