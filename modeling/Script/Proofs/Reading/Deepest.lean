/-
The deepest program that is read. A chain is read around its first operand
when that operand is complete, and has all its levels for itself. So
groups, calls and additions can be stacked: with `n + 1` levels left, the
deepest expression of one level less goes into a group, `n + 1` calls stand
around the group, and as many additions around the calls. Its levels are
`n + 1`, its nested nodes `2 * n + 3` more than before.
-/
import Mathlib.Data.List.TakeWhile
import Script.Proofs.Grammar.Complete.Statements
import Script.Proofs.Reading.Built
import Script.Proofs.Reading.Paths

namespace Script

namespace Tree

open Grammar

-- ============================================================== tokens

/-- A token of a kind; text and place do not matter. -/
def sign (k : Token.Kind) : Token := ⟨k, "", .point 0 0⟩

/-- A number of calls without arguments. -/
def callSigns : Nat → List Token
  | 0 => []
  | k + 1 =>
      sign (.punct .leftParen) :: sign (.punct .rightParen) :: callSigns k

/-- A number of additions of nil. -/
def plusSigns : Nat → List Token
  | 0 => []
  | k + 1 =>
      sign (.operator .plus) :: sign (.keyword .nilK) :: plusSigns k

/-- The tokens of the deepest expression. -/
def deepSigns : Nat → List Token
  | 0 => [sign (.keyword .nilK)]
  | n + 1 =>
      sign (.punct .leftParen) :: (deepSigns n
        ++ sign (.punct .rightParen)
          :: (callSigns (n + 1) ++ plusSigns (n + 1)))

/-- A cursor with other tokens in front of it. -/
def Cursor.onto (c : Cursor) (previous : Span) (rest : List Token) : Cursor :=
  { c with rest, previous }

-- ============================================================ readings

/-- A reading that yields an expression of a depth and has nothing to
report. -/
def Deepens (r : EStateM.Result Unit Cursor Expr) (c : Cursor)
    (rest : List Token) (depth : Nat) : Prop :=
  ∃ e previous, r = .ok e (c.onto previous rest) ∧ e.depth 1 = depth

variable {c : Cursor} {previous : Span} {rest : List Token} {n k : Nat}

/-- What can stand behind a chain. -/
def Ending (rest : List Token) : Prop :=
  Closes (firstKind .endOfInput rest)

theorem kind_onto : (c.onto previous rest).kind
    = firstKind .endOfInput rest := by
  cases rest <;> rfl

theorem calls_deepens (callee : Expr) (previous : Span) (hk : k ≤ n)
    (hrest : firstKind .endOfInput rest ≠ .punct .leftParen) :
    Deepens (calls n callee (c.onto previous (callSigns k ++ rest))) c rest
      (callee.depth 1 + k) := by
  induction k generalizing n callee previous with
  | zero =>
      rw [calls_eq (by rwa [callSigns, List.nil_append, kind_onto])]
      exact ⟨callee, previous, rfl, rfl⟩
  | succ k ih =>
      obtain ⟨n, rfl⟩ : ∃ m, n = m + 1 := ⟨n - 1, by omega⟩
      rw [calls_succ rfl]
      obtain ⟨e, previous', hmore, hdepth⟩ := ih
        (.call (callee.span.join (.point 0 0)) callee []) (.point 0 0)
        (Nat.le_of_succ_le_succ hk)
      refine ⟨e, previous', hmore, ?_⟩
      rw [hdepth]
      simp only [Expr.depth, argsDepth]
      omega

/-- Nil in front of something that is no call is read as it stands. -/
theorem binary_nil (least : Nat) (previous : Span)
    (hcall : firstKind .endOfInput rest ≠ .punct .leftParen)
    (hjoin : ∀ m op, Joins m (firstKind .endOfInput rest) op → m < least) :
    binary n least (c.onto previous (sign (.keyword .nilK) :: rest))
      = .ok (.nil (.point 0 0)) (c.onto (.point 0 0) rest) := by
  have hprimary : primary n
      (c.onto previous (sign (.keyword .nilK) :: rest))
      = .ok (.nil (.point 0 0)) (c.onto (.point 0 0) rest) := by
    unfold primary
    rfl
  unfold binary
  rw [bind_eq (p := unary n) (a := .nil (.point 0 0))
    (d := c.onto (.point 0 0) rest)]
  · exact operators_eq (by rwa [kind_onto])
  · rw [unary_eq (by rintro op ⟨⟩)]
    unfold callChain
    rw [bind_eq hprimary]
    exact calls_eq (by rwa [kind_onto])

theorem operators_deepens (lhs : Expr) (previous : Span) (hk : k ≤ n)
    (hrest : Ending rest) :
    Deepens (operators n 1 lhs (c.onto previous (plusSigns k ++ rest))) c
      rest (lhs.depth 1 + k) := by
  induction k generalizing n lhs previous with
  | zero =>
      have hstop (m : Nat) (op : BinaryOp)
          (h : Joins m (c.onto previous rest).kind op) : m < 1 := by
        rw [kind_onto] at h
        exact absurd h (hrest.chain m op)
      rw [plusSigns, List.nil_append, operators_eq hstop]
      exact ⟨lhs, previous, rfl, rfl⟩
  | succ k ih =>
      obtain ⟨n, rfl⟩ : ∃ m, n = m + 1 := ⟨n - 1, by omega⟩
      have hbehind : firstKind .endOfInput (plusSigns k ++ rest)
            ≠ .punct .leftParen
          ∧ ∀ m op, Joins m
            (firstKind .endOfInput (plusSigns k ++ rest)) op → m < 6 := by
        cases k with
        | zero => exact ⟨hrest.call, fun m op h => absurd h (hrest.chain m op)⟩
        | succ k => exact ⟨by simp [plusSigns, sign], by rintro _ _ ⟨⟩; decide⟩
      have hrhs := binary_nil (n := n) (c := c) 6 (.point 0 0) hbehind.1
        hbehind.2
      have hplus : Joins 5 (c.onto previous (plusSigns (k + 1) ++ rest)).kind
          .add := .add
      rw [operators_succ hplus (by decide)]
      obtain ⟨e, previous', hmore, hdepth⟩ := ih
        (.binary (lhs.span.join (.point 0 0)) .add lhs (.nil (.point 0 0)))
        (.point 0 0) (Nat.le_of_succ_le_succ hk)
      refine ⟨e, previous', (bind_eq hrhs).trans hmore, ?_⟩
      rw [hdepth]
      simp only [Expr.depth]
      omega

/-- The deepest expression is read in front of whatever can stand behind
an expression. -/
theorem assignment_deepens (n : Nat) (previous : Span) {rest : List Token}
    (hrest : Ending rest) :
    Deepens (assignment n (c.onto previous (deepSigns n ++ rest))) c rest
      (n * (n + 2)) := by
  induction n generalizing previous rest with
  | zero =>
      have hbinary := binary_nil (n := 0) (c := c) 1 previous hrest.call
        fun m op h => absurd h (hrest.chain m op)
      unfold assignment
      rw [deepSigns, List.singleton_append, bind_eq hbinary,
        bind_eq (eat_eq_false (by rw [kind_onto]; exact hrest.assign))]
      exact ⟨_, _, rfl, rfl⟩
  | succ n ih =>
      -- the group, then the calls, then the additions
      have hending : Ending (sign (.punct .rightParen)
          :: (callSigns (n + 1) ++ (plusSigns (n + 1) ++ rest))) :=
        closes_punct rfl (by decide)
      obtain ⟨inner, q, hinner, hdepth⟩ := ih (.point 0 0) hending
      have hgroup : primary (n + 1)
          (c.onto previous (deepSigns (n + 1) ++ rest))
          = .ok (.group (.join (.point 0 0) (.point 0 0)) inner)
            (c.onto (.point 0 0)
              (callSigns (n + 1) ++ (plusSigns (n + 1) ++ rest))) := by
        have hexpression : expression (n + 1)
            (c.onto (.point 0 0) (deepSigns n ++ sign (.punct .rightParen)
              :: (callSigns (n + 1) ++ (plusSigns (n + 1) ++ rest))))
            = .ok inner (c.onto q (sign (.punct .rightParen)
              :: (callSigns (n + 1) ++ (plusSigns (n + 1) ++ rest)))) := by
          unfold expression
          exact hinner
        unfold primary
        rw [deepSigns, List.cons_append, List.append_assoc,
          List.cons_append, List.append_assoc]
        exact bind_eq hexpression
      have hplus : firstKind .endOfInput (plusSigns (n + 1) ++ rest)
          ≠ .punct .leftParen := by
        simp [plusSigns, sign]
      obtain ⟨callee, q', hcalls, hcallee⟩ := calls_deepens (c := c)
        (.group (.join (.point 0 0) (.point 0 0)) inner) (.point 0 0)
        (Nat.le_refl (n + 1)) hplus
      obtain ⟨e, q'', hsum, he⟩ := operators_deepens (c := c) callee q'
        (Nat.le_refl (n + 1)) hrest
      have hunary : unary (n + 1)
          (c.onto previous (deepSigns (n + 1) ++ rest))
          = .ok callee (c.onto q' (plusSigns (n + 1) ++ rest)) := by
        rw [unary_eq (by rintro op ⟨⟩)]
        unfold callChain
        rw [bind_eq hgroup]
        exact hcalls
      refine ⟨e, q'', ?_, ?_⟩
      · unfold assignment binary
        rw [bind_eq ((bind_eq hunary).trans hsum),
          bind_eq (eat_eq_false (by rw [kind_onto]; exact hrest.assign))]
        rfl
      · rw [he, hcallee, Expr.depth, hdepth]
        ring

-- ============================================================ programs

theorem startsExpression_deepSigns (n : Nat) :
    startsExpression (firstKind .endOfInput (deepSigns n)) = true := by
  cases n <;> rfl

theorem kind_of_mem_deepSigns {t : Token} (n : Nat)
    (h : t ∈ deepSigns n) : t.kind ≠ .endOfInput := by
  have hcalls (k : Nat) (h : t ∈ callSigns k) : t.kind ≠ .endOfInput := by
    induction k with
    | zero => cases h
    | succ k ih =>
        rcases List.mem_cons.1 h with rfl | h
        · simp [sign]
        rcases List.mem_cons.1 h with rfl | h
        · simp [sign]
        · exact ih h
  have hplus (k : Nat) (h : t ∈ plusSigns k) : t.kind ≠ .endOfInput := by
    induction k with
    | zero => cases h
    | succ k ih =>
        rcases List.mem_cons.1 h with rfl | h
        · simp [sign]
        rcases List.mem_cons.1 h with rfl | h
        · simp [sign]
        · exact ih h
  induction n with
  | zero =>
      rw [List.mem_singleton.1 h]
      simp [sign]
  | succ n ih =>
      rcases List.mem_cons.1 h with rfl | h
      · simp [sign]
      rcases List.mem_append.1 h with h | h
      · exact ih h
      rcases List.mem_cons.1 h with rfl | h
      · simp [sign]
      rcases List.mem_append.1 h with h | h
      · exact hcalls _ h
      · exact hplus _ h

/-- The deepest expression is a statement in front of the end of
input. -/
theorem statement_deepens (n : Nat) (previous : Span) : ∃ s previous',
    statement (n + 1) false (c.onto previous (deepSigns n))
      = .ok s (c.onto previous' []) ∧ s.depth 1 = n * (n + 2) := by
  have hending : Ending [] := ⟨by decide, by decide, by rintro _ _ ⟨⟩⟩
  obtain ⟨e, q, he, hdepth⟩ := assignment_deepens (c := c) n previous hending
  rw [List.append_nil] at he
  have hexpression : expression (n + 1) (c.onto previous (deepSigns n))
      = .ok e (c.onto q []) := by
    unfold expression
    exact he
  rw [statement_eq (by rw [kind_onto]; exact startsExpression_deepSigns n),
    bind_eq hexpression]
  exact ⟨_, q, rfl, hdepth⟩

end Tree

open Script.Tree

/-- A text without an end of input is read from its first token on. -/
theorem Tree.Cursor.start_rest (file : FileId) (size : Nat)
    {tokens : List Token} (h : ∀ t ∈ tokens, t.kind ≠ .endOfInput) :
    (Cursor.start file size tokens).rest = tokens :=
  List.takeWhile_eq_self_iff.2 fun t ht => decide_eq_true (h t ht)

/-- A program of one statement. -/
theorem Tree.statementsOfProgram_one {c d : Cursor} {s : Stmt} (bound : Nat)
    (hstart : Grammar.startsExpression c.kind = true)
    (hread : statement maxNesting false c = .ok s d) (hd : d.rest = []) :
    statementsOfProgram (bound + 1) c = .ok [s] d := by
  have hone : recovering (statement maxNesting false) c = .ok (some s) d := by
    unfold recovering
    rw [hread]
  have hrest : statementsOfProgram bound d = .ok [] d := by
    cases bound with
    | zero => rfl
    | succ bound =>
        have hkind : d.kind = .endOfInput := by rw [Cursor.kind, hd]
        unfold statementsOfProgram
        rw [kind_bind, hkind]
        rfl
  unfold statementsOfProgram
  rw [kind_bind]
  generalize c.kind = k at hstart
  split
  case h_1 => cases hstart
  case h_2 => cases hstart
  case h_3 =>
      rw [bind_eq hone, bind_eq hrest]
      rfl

/-- The deepest expression is a program that is read without a report. -/
theorem Program.nesting_deepSigns {n : Nat} (hn : n + 1 = maxNesting) :
    (ofTokens 0 0 (deepSigns n)).1.nesting = n * (n + 2)
      ∧ (ofTokens 0 0 (deepSigns n)).2 = [] := by
  have hrest := Cursor.start_rest 0 0
    fun t ht => kind_of_mem_deepSigns (t := t) n ht
  have hreports : (Cursor.start 0 0 (deepSigns n)).reports = #[] := rfl
  unfold ofTokens readFrom
  dsimp only
  rw [hrest]
  generalize Cursor.start 0 0 (deepSigns n) = c at hrest hreports
  have hc : c = c.onto c.previous (deepSigns n) := by
    rw [← hrest]
    rfl
  obtain ⟨s, q, hs, hdepth⟩ := statement_deepens (c := c) n c.previous
  rw [← hc, hn] at hs
  have hstart : Grammar.startsExpression c.kind = true := by
    rw [hc, kind_onto]
    exact startsExpression_deepSigns n
  obtain ⟨bound, hbound⟩ : ∃ m, (deepSigns n).length = m + 1 := by
    cases n <;> exact ⟨_, rfl⟩
  rw [hbound, statementsOfProgram_one bound hstart hs rfl]
  refine ⟨?_, ?_⟩
  · simp [nesting, stmtsDepth, hdepth]
  · simp [Cursor.onto, hreports]

/-- The nested nodes on a path that the path does not leave by their first
operand are bounded by the nesting limit, all of them only by one less
than the square of the limit. So the limit holds for the nested nodes of
a program exactly if it does on the paths that go into a first operand. -/
theorem Program.nesting_bounds (file : FileId) (size : Nat)
    (tokens : List Token) :
    let p := (ofTokens file size tokens).1
    (∀ π ∈ p.paths, π.levels ≤ maxNesting ∧ π.nested ≤ maxNesting ^ 2 - 1)
      ∧ ((∀ π ∈ p.paths, π.nested ≤ maxNesting)
        ↔ ∀ π ∈ p.paths, 0 < π.firsts → π.nested ≤ maxNesting) := by
  intro p
  have hbuilt : ∀ s ∈ p.statements,
      s.Built (fun _ => True) maxNesting (room maxNesting) :=
    (ofTokens_built (fun _ _ _ _ => trivial) (fun _ _ => trivial) trivial
      fun _ _ => trivial).1
  have hlevels (π : Path) (hπ : π ∈ p.paths) : π.levels ≤ maxNesting :=
    Nat.le_trans (p.levels_le π hπ)
      (stmtsDepth_le.2 fun s hs => (hbuilt s hs).levels)
  have hroom : room maxNesting = maxNesting ^ 2 - 1 := by decide
  have hnested (π : Path) (hπ : π ∈ p.paths) :
      π.nested ≤ maxNesting ^ 2 - 1 := by
    rw [← hroom]
    exact Nat.le_trans (p.nested_le π hπ)
      (stmtsDepth_le.2 fun s hs => (hbuilt s hs).nesting)
  refine ⟨fun π hπ => ⟨hlevels π hπ, hnested π hπ⟩,
    fun h π hπ _ => h π hπ, fun h π hπ => ?_⟩
  rcases Nat.eq_zero_or_pos π.firsts with hzero | hpos
  · -- a path that goes into no first operand
    rw [Path.nested, hzero]
    exact hlevels π hπ
  · exact h π hπ hpos

/-- A program that is read without a report, with as many nested nodes on
a path as there can be. -/
theorem Program.nesting_bound_reached : ∃ tokens,
    (ofTokens 0 0 tokens).2 = []
      ∧ ∃ π ∈ (ofTokens 0 0 tokens).1.paths,
        π.nested = maxNesting ^ 2 - 1 := by
  obtain ⟨hnesting, hreports⟩ := nesting_deepSigns (n := 255) rfl
  obtain ⟨π, hπ, hnested⟩ := exists_nested (ofTokens 0 0 (deepSigns 255)).1
  have hsquare : maxNesting ^ 2 - 1 = 255 * (255 + 2) := by decide
  exact ⟨deepSigns 255, hreports, π, hπ, by rw [hnested, hnesting, hsquare]⟩

end Script
