/-
Every expression of the grammar is read, and read as the tree that the
grammar gives it. The induction is on the derivation. A chain is not read
as a whole: its left part leaves the loop over operators running with
that part as its operand, whatever precedence the loop was started with.
-/
import Script.Proofs.Grammar.Facing
import Script.Proofs.Grammar.Sound.Expressions

namespace Script

open Grammar

namespace Grammar

/-- Whether an expression can begin with a token of this kind. -/
def startsExpression : Token.Kind → Bool
  | .identifier | .number _ | .string _ => true
  | .keyword .trueK | .keyword .falseK | .keyword .nilK => true
  | .operator .minus | .operator .bang => true
  | .punct .leftParen => true
  | _ => false

theorem Leads.starts {t : Token.Kind} {op : UnaryOp} (h : Leads t op) :
    startsExpression t = true := by
  cases h <;> rfl

theorem Reads.starts {l : Level} {seg : List Token} {e : Expr}
    {next : Token.Kind} :
    Reads l seg e → startsExpression (firstKind next seg) = true
  | .assign hx .. => by simp [hx, startsExpression]
  | .loosest h | .tighter h | .tightest h | .alone h | .callee h => h.starts
  | .join h .. | .call h .. => by
      rw [firstKind_append h.ne_nil]
      exact h.starts
  | .lead ht _ => ht.starts
  | .atom ht => by
      cases ht <;> simp [startsExpression, *]
  | .group h .. => by simp [h, startsExpression]

theorem ReadsList.starts {seg : List Token} {es : List Expr}
    {next : Token.Kind} (h : ReadsList seg es) :
    startsExpression (firstKind next seg) = true := by
  cases h with
  | one he => exact he.starts
  | more he =>
      rw [firstKind_append he.ne_nil]
      exact he.starts

theorem Atom.not_leads {t : Token} {e : Expr} {op : UnaryOp}
    (ht : Atom t e) : ¬ Leads t.kind op := by
  intro h
  cases ht with
  | _ hk =>
      rw [hk] at h
      cases h

/-- What is called does not begin with an operator. -/
theorem Reads.not_leads {l : Level} {seg : List Token} {e : Expr}
    {next : Token.Kind} {op : UnaryOp} : Reads l seg e →
      l = .call ∨ l = .primary → ¬ Leads (firstKind next seg) op
  | .call h .. => by
      rw [firstKind_append h.ne_nil]
      exact h.not_leads
  | .callee h => fun _ => h.not_leads (.inr rfl)
  | .atom ht => fun _ => ht.not_leads
  | .group ht .. => fun _ h => by
      rw [firstKind_cons, ht] at h
      cases h
  | .assign .. | .loosest _ | .join .. | .tighter _ | .tightest _
  | .lead .. | .alone _ => fun h => by simp at h

theorem Joins.unique {k k' : Nat} {t : Token.Kind} {op op' : BinaryOp}
    (h : Joins k t op) (h' : Joins k' t op') : k = k' := by
  cases h <;> cases h' <;> rfl

/-- Whether an expression is over in front of a token of this kind: no
call, no operator and no assignment goes on with it. -/
structure Closes (t : Token.Kind) : Prop where
  call : t ≠ .punct .leftParen
  assign : t ≠ .operator .assign
  chain : ∀ k op, ¬ Joins k t op

/-- A bracket or separator is the end of an expression, unless it opens
the arguments of a call. -/
theorem closes_punct {t : Token.Kind} {p : Punct} (h : t = .punct p)
    (hp : p ≠ .leftParen) : Closes t := by
  subst h
  exact ⟨by simpa using hp, by simp, fun _ _ h => nomatch h⟩

end Grammar

namespace Tree

/-- What reading makes of the tokens of an expression. -/
def IsRead (seg : List Token) (e : Expr) : Level → Prop
  | .value => ∀ n c next, Facing c seg next → Closes next →
      Yields (assignment n c) e c seg
  | .chain k => ∀ n least c next, Facing c seg next → least ≤ k →
      next ≠ .punct .leftParen → (∀ m op, Joins m next op → m ≤ k) →
      GoesOn (binary n least c) (fun n => operators n least e) c seg
  | .operand => ∀ n c next, Facing c seg next →
      next ≠ .punct .leftParen → Yields (unary n c) e c seg
  | .call => ∀ n c next, Facing c seg next →
      GoesOn (callChain n c) (fun n => calls n e) c seg
  | .primary => ∀ n c next, Facing c seg next →
      Yields (primary n c) e c seg

-- ==================================================== single rounds

variable {n least k : Nat} {c d : Cursor} {e : Expr} {t : Token}
  {seg l r : List Token} {next : Token.Kind}

theorem primary_eq (hc : Facing c (t :: seg) next) (ht : Atom t e) :
    primary n c = .ok e c.advance := by
  have hatom : c.atom? = some e := by
    obtain ⟨rest, hrest, -⟩ := hc.rest
    exact Cursor.atom?_eq_some.2 ⟨t, _, hrest, ht⟩
  unfold primary
  rw [get_bind, hatom]
  rfl

theorem calls_eq (h : c.kind ≠ .punct .leftParen) :
    calls n e c = .ok e c := by
  unfold calls
  rw [kind_bind, if_neg h]
  rfl

theorem unary_eq (h : ∀ op, ¬ Leads c.kind op) :
    unary n c = callChain n c := by
  have hop : unaryOperator? c.kind = none :=
    Option.eq_none_iff_forall_ne_some.2 fun op hop =>
      h op (unaryOperator?_eq_some.1 hop)
  unfold unary
  rw [get_bind, hop]

theorem operators_eq (h : ∀ m op, Joins m c.kind op → m < least) :
    operators n least e c = .ok e c := by
  unfold operators
  rw [kind_bind]
  cases hop : binaryOperator? c.kind with
  | none => rfl
  | some o =>
      dsimp only
      rw [if_pos (h _ _ (binaryOperator?_eq_some.1 hop))]
      rfl

theorem operators_zero {op : BinaryOp} (h : Joins k c.kind op)
    (hk : least ≤ k) : operators 0 least e c = Parse.tooDeep c := by
  unfold operators
  rw [kind_bind, binaryOperator?_eq_some.2 h]
  dsimp only
  rw [if_neg (Nat.not_lt.2 hk)]

theorem calls_zero (h : c.kind = .punct .leftParen) :
    calls 0 e c = Parse.tooDeep c := by
  unfold calls
  rw [kind_bind, if_pos h]

/-- The loop over calls at a call. -/
theorem calls_succ (h : c.kind = .punct .leftParen) :
    calls (n + 1) e c =
      ((if c.advance.kind = .punct .rightParen then pure []
        else Parse.separated (expression n) c.advance.rest.length) >>=
      fun args => Parse.expect (.punct .rightParen) "')' after arguments"
        >>= fun close => calls n (.call (e.span.join close) e args))
      c.advance := by
  rw [calls, kind_bind, if_pos h]
  dsimp only
  rw [skip_bind, kind_bind]
  split
  · rfl
  · rw [tokensLeft_bind]

/-- The loop over operators at an operator that is not too loose. -/
theorem operators_succ {op : BinaryOp} (h : Joins k c.kind op)
    (hk : least ≤ k) : operators (n + 1) least e c =
      (binary n (k + 1) >>= fun rhs => operators n least
        (.binary (e.span.join rhs.span) op e rhs)) c.advance := by
  rw [operators, kind_bind, binaryOperator?_eq_some.2 h]
  dsimp only
  rw [if_neg (Nat.not_lt.2 hk)]
  rfl

-- ===================================================== whole readings

/-- A chain is read as a whole where no operator of its precedence
follows. -/
theorem binary_yields (he : IsRead seg e (.chain least))
    (hc : Facing c seg next) (hparen : next ≠ .punct .leftParen)
    (hnext : ∀ m op, Joins m next op → m < least) :
    Yields (binary n least c) e c seg := by
  have hgoes := he n least c next hc (Nat.le_refl _) hparen
    fun m op h => Nat.le_of_lt (hnext m op h)
  refine hgoes.trans fun n d hover => ?_
  rw [operators_eq (by rwa [hc.kind_behind hover])]
  exact Yields.of_ok hover

/-- A callee is read as a whole where no call follows. -/
theorem callChain_yields (he : IsRead seg e .call)
    (hc : Facing c seg next) (hparen : next ≠ .punct .leftParen) :
    Yields (callChain n c) e c seg := by
  refine (he n c next hc).trans fun n d hover => ?_
  rw [calls_eq (by rwa [hc.kind_behind hover])]
  exact Yields.of_ok hover

/-- A name that is assigned to is read as a name. -/
theorem binary_name (hc : Facing c (t :: seg) next)
    (ht : t.kind = .identifier)
    (hnext : firstKind next seg = .operator .assign) :
    binary n 1 c = .ok (.ident t.span t.text) c.advance := by
  have hkind : c.advance.kind = .operator .assign :=
    hc.advance.kind.trans hnext
  have hunary : unary n c = .ok (.ident t.span t.text) c.advance := by
    rw [unary_eq]
    · unfold callChain
      rw [bind_eq (primary_eq hc (.name ht)), calls_eq (by simp [hkind])]
    · intro op hop
      have hk : c.kind = .identifier := hc.kind.trans ht
      rw [hk] at hop
      cases hop
  unfold binary
  rw [bind_eq hunary, operators_eq]
  intro m op h
  rw [hkind] at h
  cases h

theorem expression_yields (he : IsRead seg e .value)
    (hc : Facing c seg next) (hnext : Closes next) :
    Yields (expression n c) e c seg := by
  unfold expression
  cases n with
  | zero => exact goesOn_tooDeep hc.clean
  | succ n => exact he n c next hc hnext

-- ======================================================= derivations

mutual

theorem isRead {l : Level} {seg : List Token} {e : Expr} :
    Reads l seg e → IsRead seg e l
  | @Reads.assign x eq _ _ hx heq he => by
      intro n c next hc hnext
      unfold assignment
      rw [bind_eq (binary_name hc hx heq),
        bind_eq (eat_eq (hc.advance.kind_cons.trans heq)), if_pos rfl]
      cases n with
      | zero => exact goesOn_tooDeep hc.advance.advance.clean
      | succ n =>
          have hvalue := isRead he n _ next hc.advance.advance hnext
          have hover := hc.over_advance.trans hc.advance.over_advance
          refine .bind (hvalue.after hover) fun d hover' => ?_
          have hspan := cover_join [eq] (hover'.ordered hc.ordered).1
            (List.cons_ne_nil x []) he.ne_nil
          rw [cover_singleton, ← he.span] at hspan
          dsimp only
          rw [hspan]
          exact Yields.of_ok hover'
  | .loosest he => by
      intro n c next hc hnext
      have hbinary := binary_yields (n := n) (isRead he) hc hnext.call
        fun m op h => absurd h (hnext.chain m op)
      unfold assignment
      refine .bind hbinary fun d hover => ?_
      have hkind := hc.kind_behind hover
      rw [bind_eq (eat_eq_false (hkind ▸ hnext.assign)),
        if_neg Bool.false_ne_true]
      exact Yields.of_ok hover
  | .join (t := t) ha ht hb => by
      intro n least c next hc hle hparen hnext
      have hleft := isRead ha n least c _ hc.left hle
        (by rintro (h : t.kind = _); rw [h] at ht; cases ht)
        (fun m op h => Nat.le_of_eq (h.unique ht))
      refine hleft.trans fun n d hover => ?_
      have hd := hc.behind hover
      rw [← hd.kind_cons] at ht
      cases n with
      | zero =>
          rw [operators_zero ht hle]
          exact goesOn_tooDeep hd.clean
      | succ n =>
          rw [operators_succ ht hle]
          have hright := binary_yields (n := n) (isRead hb) hd.advance
            hparen fun m op h => Nat.lt_succ_of_le (hnext m op h)
          have hright := (hright.after hd.over_advance).after hover
          refine .bind hright fun d' hover' => .inl ⟨n, d', ?_, hover'⟩
          have hspan := cover_join [t] (hover'.ordered hc.ordered).1
            ha.ne_nil hb.ne_nil
          rw [← ha.span, ← hb.span] at hspan
          rw [hspan]
          rfl
  | .tighter he => by
      intro n least c next hc hle hparen hnext
      exact isRead he n least c next hc (Nat.le_succ_of_le hle) hparen
        fun m op h => Nat.le_succ_of_le (hnext m op h)
  | .tightest he => by
      intro n least c next hc hle hparen hnext
      unfold binary
      exact .bind (isRead he n c next hc hparen) fun d hover =>
        .inl ⟨n, d, rfl, hover⟩
  | .lead (t := t) ht he => by
      intro n c next hc hparen
      rw [← hc.kind_cons] at ht
      unfold unary
      rw [get_bind, unaryOperator?_eq_some.2 ht]
      dsimp only
      rw [skip_bind]
      cases n with
      | zero => exact goesOn_tooDeep hc.advance.clean
      | succ n =>
          have hoperand := isRead he n _ next hc.advance hparen
          refine .bind (hoperand.after hc.over_advance) fun d hover => ?_
          have hspan := cover_join [] (hover.ordered hc.ordered).1
            (List.cons_ne_nil t []) he.ne_nil
          rw [cover_singleton, ← he.span, List.nil_append] at hspan
          rw [hc.here, hspan]
          exact Yields.of_ok hover
  | .alone he => by
      intro n c next hc hparen
      rw [unary_eq fun op => hc.kind ▸ he.not_leads (.inl rfl)]
      exact callChain_yields (isRead he) hc hparen
  | @Reads.call _ args o close _ _ hf ho hargs hclose => by
      intro n c next hc
      refine (isRead hf n c _ hc.left).trans fun n d hover => ?_
      have hd := hc.behind hover
      have hopen := hd.kind_cons.trans ho
      cases n with
      | zero =>
          rw [calls_zero hopen]
          exact goesOn_tooDeep hd.clean
      | succ n =>
          rw [calls_succ hopen]
          have hyields := isRead_args hargs n _ _ hd.advance hclose
          have hyields := (hyields.after hd.over_advance).after hover
          refine .bind hyields fun d' hover' => ?_
          have hend : Facing d' [close] next :=
            Facing.behind (by simpa using hc) hover'
          rw [bind_eq (expect_eq (hend.kind_cons.trans hclose)), hend.here]
          have hall := hover'.trans hend.over_advance
          have hspan := cover_join (o :: args) (r := [close])
            (by simpa using (hall.ordered hc.ordered).1) hf.ne_nil
            (List.cons_ne_nil close [])
          rw [cover_singleton, ← hf.span] at hspan
          rw [hspan]
          refine .inl ⟨n, _, rfl, ?_⟩
          simpa using hall
  | .callee he => by
      intro n c next hc
      unfold callChain
      exact .bind (isRead he n c next hc) fun d hover =>
        .inl ⟨n, d, rfl, hover⟩
  | .atom ht => by
      intro n c next hc
      rw [primary_eq hc ht]
      exact Yields.of_ok hc.over_advance
  | @Reads.group o close _ _ ho he hclose => by
      intro n c next hc
      have hatom : c.atom? = none := by
        unfold Cursor.atom?
        rw [hc.kind_cons, ho]
      unfold primary
      rw [get_bind, hatom]
      dsimp only
      rw [bind_eq (eat_eq (hc.kind_cons.trans ho)), if_pos rfl]
      have hinner := expression_yields (n := n) (isRead he)
        hc.advance.left (closes_punct hclose (by decide))
      refine .bind (hinner.after hc.over_advance) fun d hover => ?_
      have hd := Facing.behind (l := o :: _) hc hover
      rw [bind_eq (expect_eq (hd.kind_cons.trans hclose)), hc.here,
        hd.here, ← cover_between]
      exact Yields.of_ok (hover.trans hd.over_advance)

theorem isRead_args {args : List Token} {es : List Expr} :
    ReadsArgs args es → ∀ n c next {close : Token},
      Facing c (args ++ [close]) next → close.kind = .punct .rightParen →
      Yields ((if c.kind = .punct .rightParen then pure []
        else Parse.separated (expression n) c.rest.length : Parse _) c)
        es c args
  | .none => by
      intro n c next close hc hclose
      rw [if_pos (hc.kind_cons.trans hclose)]
      exact Yields.of_ok (.refl c)
  | .some h => by
      intro n c next close hc hclose
      have hstart : c.kind ≠ .punct .rightParen := by
        intro hk
        have hstarts := hc.left.kind ▸ h.starts
        rw [hk] at hstarts
        cases hstarts
      rw [if_neg hstart]
      have hlength := hc.left.length_le
      exact isRead_list h n _ c _ hc.left
        (closes_punct hclose (by decide)) (by simp [hclose]) hlength

theorem isRead_list {seg : List Token} {es : List Expr} :
    ReadsList seg es → ∀ n bound c next, Facing c seg next →
      Closes next → next ≠ .punct .comma → seg.length ≤ bound →
      Yields (Parse.separated (expression n) bound c) es c seg
  | .one he => by
      intro n bound c next hc hnext hcomma hbound
      have hone := expression_yields (n := n) (isRead he) hc hnext
      cases bound with
      | zero => exact .bind hone fun d hover => Yields.of_ok hover
      | succ bound =>
          refine .bind hone fun d hover => ?_
          have hkind := hc.kind_behind hover
          rw [bind_eq (eat_eq_false (hkind ▸ hcomma)),
            if_neg Bool.false_ne_true]
          exact Yields.of_ok hover
  | .more he ht hes => by
      intro n bound c next hc hnext hcomma hbound
      cases bound with
      | zero => simp at hbound
      | succ bound =>
          have hone := expression_yields (n := n) (isRead he) hc.left
            (closes_punct ht (by decide))
          refine .bind hone fun d hover => ?_
          have hd := hc.behind hover
          rw [bind_eq (eat_eq (hd.kind_cons.trans ht)), if_pos rfl]
          have hmore := isRead_list hes n bound _ next hd.advance hnext
            hcomma (by simp at hbound; omega)
          have hmore := (hmore.after hd.over_advance).after hover
          exact .bind hmore fun d' hover' => Yields.of_ok hover'

end

end Tree

end Script
