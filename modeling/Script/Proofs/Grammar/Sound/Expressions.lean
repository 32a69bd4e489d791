/-
What a reader of expressions returns is in the grammar. A reader that
finishes has passed over the tokens of a derivation of its result. The
loop over operators carries the precedence of what it has read so far:
the next operator never binds tighter than that, because the last right
operand has taken everything that does.
-/
import Script.Proofs.Grammar.Over

namespace Script

open Grammar Script.Action

namespace Grammar

-- ================================================== shape of readings

@[simp] theorem firstKind_cons (next : Token.Kind) (t : Token)
    (ts : List Token) : firstKind next (t :: ts) = t.kind := rfl

theorem firstKind_append {next : Token.Kind} {l r : List Token}
    (hl : l ≠ []) : firstKind next (l ++ r) = firstKind next l := by
  obtain ⟨t, ts, rfl⟩ := List.exists_cons_of_ne_nil hl
  rfl

theorem Reads.ne_nil {l : Level} {seg : List Token} {e : Expr} :
    Reads l seg e → seg ≠ []
  | .assign .. => List.cons_ne_nil _ _
  | .loosest h | .tighter h | .tightest h | .alone h | .callee h => h.ne_nil
  | .join .. | .call .. => by simp
  | .lead .. | .atom .. | .group .. => List.cons_ne_nil _ _

/-- An expression carries the span of its tokens. -/
theorem Reads.span {l : Level} {seg : List Token} {e : Expr} :
    Reads l seg e → e.span = cover seg
  | .assign .. | .join .. | .lead .. | .call .. | .group .. => rfl
  | .loosest h | .tighter h | .tightest h | .alone h | .callee h => h.span
  | .atom (t := t) h => by
      rw [cover_singleton]
      cases h <;> rfl

theorem Atom.of_ident {t : Token} {e : Expr} {s : Span} {x : String}
    (h : Atom t e) (he : e = .ident s x) :
    t.kind = .identifier ∧ t.span = s ∧ t.text = x := by
  cases h with
  | name ht =>
      cases he
      exact ⟨ht, rfl, rfl⟩
  | _ => cases he

/-- A bare name is one token. -/
theorem Reads.of_ident {l : Level} {seg : List Token} {e : Expr} {s : Span}
    {x : String} : Reads l seg e → e = .ident s x →
      ∃ t, seg = [t] ∧ t.kind = .identifier ∧ t.span = s ∧ t.text = x
  | .loosest h | .tighter h | .tightest h | .alone h | .callee h =>
      h.of_ident
  | .atom h => fun he => ⟨_, rfl, h.of_ident he⟩
  | .assign .. | .join .. | .lead .. | .call .. | .group .. =>
      fun he => nomatch he

/-- What is read at a precedence is read at every looser one. -/
theorem Reads.looser {k m : Nat} {seg : List Token} {e : Expr}
    (h : Reads (.chain m) seg e) (hk : k ≤ m) : Reads (.chain k) seg e := by
  induction hk with
  | refl => exact h
  | step _ ih => exact ih (.tighter h)

theorem Joins.bounds {k : Nat} {t : Token.Kind} {op : BinaryOp}
    (h : Joins k t op) : 1 ≤ k ∧ k ≤ 6 := by
  cases h <;> decide

theorem Joins.ne_endOfInput {k : Nat} {t : Token.Kind} {op : BinaryOp}
    (h : Joins k t op) : t ≠ .endOfInput := by
  cases h <;> simp

theorem Leads.ne_endOfInput {t : Token.Kind} {op : UnaryOp}
    (h : Leads t op) : t ≠ .endOfInput := by
  cases h <;> simp

end Grammar

namespace Tree

-- ============================================ the tables of operators

theorem binaryOperator?_eq_some {t : Token.Kind} {op : BinaryOp}
    {k : Nat} : binaryOperator? t = some (op, k) ↔ Joins k t op := by
  constructor
  · intro h
    unfold binaryOperator? at h
    split at h <;> cases h <;> constructor
  · rintro (_ | _) <;> rfl

theorem unaryOperator?_eq_some {t : Token.Kind} {op : UnaryOp} :
    unaryOperator? t = some op ↔ Leads t op := by
  constructor
  · intro h
    unfold unaryOperator? at h
    split at h <;> cases h <;> constructor
  · rintro (_ | _) <;> rfl

/-- The expression of one token, at the cursor in front of it. -/
theorem Cursor.atom?_eq_some {c : Cursor} {e : Expr} :
    c.atom? = some e ↔ ∃ t ts, c.rest = t :: ts ∧ Atom t e := by
  unfold Cursor.atom? Cursor.kind Cursor.here Cursor.word
  cases c.rest with
  | nil => simp
  | cons t ts =>
      dsimp only
      constructor
      · intro h
        refine ⟨t, ts, rfl, ?_⟩
        split at h <;> cases h
        case h_1 hk => exact .number hk
        case h_2 hk => exact .string hk
        case h_3 hk => exact .yes hk
        case h_4 hk => exact .no hk
        case h_5 hk => exact .nil hk
        case h_6 hk => exact .name hk
      · rintro ⟨t', ts', h, ht⟩
        cases h
        cases ht with
        | _ hk => rw [hk]

-- ========================================================= separation

/-- What a reader reads, in order and with commas between. -/
theorem separated_ok {p : Parse Expr} (hp : ∀ {c d : Cursor} {e : Expr},
      Ordered c.rest → p c = .ok e d → ∃ seg, Over c seg d
        ∧ Reads .value seg e) (bound : Nat) {c d : Cursor}
    {es : List Expr} (hc : Ordered c.rest)
    (h : Parse.separated p bound c = .ok es d) :
    ∃ seg, Over c seg d ∧ ReadsList seg es := by
  induction bound generalizing c es with
  | zero =>
      obtain ⟨e, d', hone, h⟩ := bind_ok.1 h
      obtain ⟨rfl, rfl⟩ := pure_ok.1 h
      obtain ⟨seg, hover, he⟩ := hp hc hone
      exact ⟨seg, hover, .one he⟩
  | succ bound ih =>
      obtain ⟨e, c₁, hone, h⟩ := bind_ok.1 h
      obtain ⟨seg, hover, he⟩ := hp hc hone
      obtain ⟨b, c₂, heat, h⟩ := bind_ok.1 h
      rcases eat_ok (by simp) heat with ⟨rfl, t, ht, hcomma⟩ | ⟨rfl, -, rfl⟩
      · obtain ⟨es', c₃, hmore, h⟩ := bind_ok.1 h
        obtain ⟨rfl, rfl⟩ := pure_ok.1 h
        have hover := hover.trans hcomma
        obtain ⟨rest, hrest, hes⟩ := ih (hover.ordered hc).2 hmore
        refine ⟨seg ++ t :: rest, ?_, .more he ht hes⟩
        simpa using hover.trans hrest
      · obtain ⟨rfl, rfl⟩ := pure_ok.1 h
        exact ⟨seg, hover, .one he⟩

-- ============================================================ soundness

mutual

theorem expression_ok {n : Nat} {c d : Cursor} {e : Expr}
    (hc : Ordered c.rest) (h : expression n c = .ok e d) :
    ∃ seg, Over c seg d ∧ Reads .value seg e := by
  unfold expression at h
  cases n with
  | zero => exact (tooDeep_ok h).elim
  | succ n => exact assignment_ok hc h
termination_by n * 8

theorem primary_ok {n : Nat} {c d : Cursor} {e : Expr}
    (hc : Ordered c.rest) (h : primary n c = .ok e d) :
    ∃ seg, Over c seg d ∧ Reads .primary seg e := by
  unfold primary at h
  obtain ⟨c', d', hget, h⟩ := bind_ok.1 h
  obtain ⟨rfl, rfl⟩ := get_ok.1 hget
  cases he : c.atom? with
  | some e' =>
      rw [he] at h
      obtain ⟨u, d', hskip, h⟩ := bind_ok.1 h
      obtain rfl := skip_ok hskip
      obtain ⟨rfl, rfl⟩ := pure_ok.1 h
      obtain ⟨t, ts, hrest, ht⟩ := Cursor.atom?_eq_some.1 he
      exact ⟨[t], Cursor.over_advance hrest, .atom ht⟩
  | none =>
      rw [he] at h
      obtain ⟨b, c₁, heat, h⟩ := bind_ok.1 h
      rcases eat_ok (by simp) heat with ⟨rfl, t, ht, hopen⟩ | ⟨rfl, -, rfl⟩
      · obtain ⟨inner, c₂, hinner, h⟩ := bind_ok.1 h
        obtain ⟨seg, hover, hreads⟩ :=
          expression_ok (hopen.ordered hc).2 hinner
        obtain ⟨s, c₃, hexpect, h⟩ := bind_ok.1 h
        obtain ⟨rfl, rfl⟩ := pure_ok.1 h
        obtain ⟨close, hclose, rfl, hend⟩ := expect_ok (by simp) hexpect
        have hall := hopen.trans (hover.trans hend)
        rw [hopen.here, ← cover_between t close seg]
        exact ⟨_, hall, .group ht hreads hclose⟩
      · exact (expected_ok h).elim
termination_by n * 8 + 1

theorem calls_ok {n : Nat} {callee : Expr} {c₀ c d : Cursor} {e : Expr}
    {seg : List Token} (hc : Ordered c₀.rest) (hseg : Over c₀ seg c)
    (hcallee : Reads .call seg callee) (h : calls n callee c = .ok e d) :
    ∃ seg, Over c₀ seg d ∧ Reads .call seg e := by
  unfold calls at h
  obtain ⟨k, c', hkind, h⟩ := bind_ok.1 h
  obtain ⟨rfl, rfl⟩ := kind_ok hkind
  split at h
  case isTrue hk =>
      cases n with
      | zero => exact (tooDeep_ok h).elim
      | succ n =>
          obtain ⟨u, c₁, hskip, h⟩ := bind_ok.1 h
          obtain rfl := skip_ok hskip
          obtain ⟨o, ts, hrest, ho⟩ := Cursor.exists_of_kind hk (by simp)
          have hopen := hseg.trans (Cursor.over_advance hrest)
          have behind {args : List Token} {es : List Expr} {c₁ : Cursor}
              (hargs : Over c.advance args c₁) (hes : ReadsArgs args es)
              (h : (do
                let close ← Parse.expect (.punct .rightParen)
                  "')' after arguments"
                calls n (.call (callee.span.join close) callee es)) c₁
                  = .ok e d) :
              ∃ seg, Over c₀ seg d ∧ Reads .call seg e := by
            obtain ⟨s, c₂, hexpect, h⟩ := bind_ok.1 h
            obtain ⟨close, hclose, rfl, hend⟩ := expect_ok (by simp) hexpect
            have hall : Over c₀ (seg ++ o :: (args ++ [close])) c₂ := by
              simpa using (hopen.trans hargs).trans hend
            have hspan := cover_join (o :: args) (hall.ordered hc).1
              hcallee.ne_nil (List.cons_ne_nil close [])
            rw [cover_singleton, ← hcallee.span] at hspan
            rw [hspan] at h
            exact calls_ok hc hall (.call hcallee ho hes hclose) h
          obtain ⟨k, c₁, hkind, h⟩ := bind_ok.1 h
          obtain ⟨rfl, rfl⟩ := kind_ok hkind
          split at h
          case isTrue =>
              obtain ⟨es, c₁, hnone, h⟩ := bind_ok.1 h
              obtain ⟨rfl, rfl⟩ := pure_ok.1 hnone
              exact behind (.refl _) .none h
          case isFalse =>
              obtain ⟨bound, c₁, htokens, h⟩ := bind_ok.1 h
              obtain ⟨rfl, rfl⟩ := tokensLeft_ok htokens
              obtain ⟨es, c₁, hsome, h⟩ := bind_ok.1 h
              obtain ⟨args, hargs, hes⟩ := separated_ok
                (fun hc h => expression_ok hc h) _ (hopen.ordered hc).2 hsome
              exact behind hargs (.some hes) h
  case isFalse =>
      obtain ⟨rfl, rfl⟩ := pure_ok.1 h
      exact ⟨seg, hseg, hcallee⟩
termination_by n * 8 + 1

theorem callChain_ok {n : Nat} {c d : Cursor} {e : Expr}
    (hc : Ordered c.rest) (h : callChain n c = .ok e d) :
    ∃ seg, Over c seg d ∧ Reads .call seg e := by
  unfold callChain at h
  obtain ⟨callee, c₁, hcallee, h⟩ := bind_ok.1 h
  obtain ⟨seg, hover, hreads⟩ := primary_ok hc hcallee
  exact calls_ok hc hover (.callee hreads) h
termination_by n * 8 + 2

theorem unary_ok {n : Nat} {c d : Cursor} {e : Expr}
    (hc : Ordered c.rest) (h : unary n c = .ok e d) :
    ∃ seg, Over c seg d ∧ Reads .operand seg e := by
  unfold unary at h
  obtain ⟨c', d', hget, h⟩ := bind_ok.1 h
  obtain ⟨rfl, rfl⟩ := get_ok.1 hget
  cases hop : unaryOperator? c.kind with
  | some op =>
      rw [hop] at h
      have hlead := unaryOperator?_eq_some.1 hop
      obtain ⟨u, c₁, hskip, h⟩ := bind_ok.1 h
      obtain rfl := skip_ok hskip
      cases n with
      | zero => exact (tooDeep_ok h).elim
      | succ n =>
          obtain ⟨operand, c₂, hunary, h⟩ := bind_ok.1 h
          obtain ⟨rfl, rfl⟩ := pure_ok.1 h
          obtain ⟨t, ts, hrest, ht⟩ :=
            Cursor.exists_of_kind rfl hlead.ne_endOfInput
          have hfirst := Cursor.over_advance hrest
          obtain ⟨seg, hover, hreads⟩ :=
            unary_ok (hfirst.ordered hc).2 hunary
          have hall := hfirst.trans hover
          have hspan := cover_join [] (hall.ordered hc).1
            (List.cons_ne_nil t []) hreads.ne_nil
          rw [cover_singleton, ← hreads.span, ← hfirst.here] at hspan
          rw [hspan]
          exact ⟨_, hall, .lead (ht ▸ hlead) hreads⟩
  | none =>
      rw [hop] at h
      obtain ⟨seg, hover, hreads⟩ := callChain_ok hc h
      exact ⟨seg, hover, .alone hreads⟩
termination_by n * 8 + 3

theorem operators_ok {n least k : Nat} {lhs : Expr} {c₀ c d : Cursor}
    {e : Expr} {seg : List Token} (hc : Ordered c₀.rest)
    (hseg : Over c₀ seg c) (hlhs : Reads (.chain k) seg lhs)
    (hleast : least ≤ k)
    (hnext : ∀ op m, Joins m c.kind op → m ≤ k)
    (h : operators n least lhs c = .ok e d) :
    ∃ seg, Over c₀ seg d ∧ Reads (.chain least) seg e
      ∧ ∀ op m, Joins m d.kind op → m < least := by
  unfold operators at h
  obtain ⟨t, c', hkind, h⟩ := bind_ok.1 h
  obtain ⟨rfl, rfl⟩ := kind_ok hkind
  cases hop : binaryOperator? c.kind with
  | none =>
      rw [hop] at h
      obtain ⟨rfl, rfl⟩ := pure_ok.1 h
      refine ⟨seg, hseg, hlhs.looser hleast, fun op m hm => ?_⟩
      cases hop.symm.trans (binaryOperator?_eq_some.2 hm)
  | some o =>
      rw [hop] at h
      have hjoins := binaryOperator?_eq_some.1 hop
      dsimp only at h
      split at h
      case isTrue hlt =>
          obtain ⟨rfl, rfl⟩ := pure_ok.1 h
          refine ⟨seg, hseg, hlhs.looser hleast, fun op m hm => ?_⟩
          cases hop.symm.trans (binaryOperator?_eq_some.2 hm)
          exact hlt
      case isFalse hge =>
          cases n with
          | zero => exact (tooDeep_ok h).elim
          | succ n =>
              obtain ⟨u, c₁, hskip, h⟩ := bind_ok.1 h
              obtain rfl := skip_ok hskip
              obtain ⟨t, ts, hrest, ht⟩ :=
                Cursor.exists_of_kind rfl hjoins.ne_endOfInput
              have hop := hseg.trans (Cursor.over_advance hrest)
              obtain ⟨rhs, c₁, hbinary, h⟩ := bind_ok.1 h
              obtain ⟨r, hr, hrhs, hnext'⟩ := binary_ok (hop.ordered hc).2
                (Nat.succ_le_succ hjoins.bounds.2) hbinary
              have hall : Over c₀ (seg ++ t :: r) c₁ := by
                simpa using hop.trans hr
              have hspan := cover_join [t] (hall.ordered hc).1
                hlhs.ne_nil hrhs.ne_nil
              rw [← hlhs.span, ← hrhs.span] at hspan
              rw [hspan] at h
              exact operators_ok hc hall
                (.join (hlhs.looser (hnext _ _ hjoins)) (ht ▸ hjoins) hrhs)
                (Nat.le_of_not_lt hge)
                (fun op m hm => Nat.le_of_lt_succ (hnext' op m hm)) h
termination_by n * 8 + 1

theorem binary_ok {n least : Nat} {c d : Cursor} {e : Expr}
    (hc : Ordered c.rest) (hleast : least ≤ 7)
    (h : binary n least c = .ok e d) :
    ∃ seg, Over c seg d ∧ Reads (.chain least) seg e
      ∧ ∀ op m, Joins m d.kind op → m < least := by
  unfold binary at h
  obtain ⟨lhs, c₁, hunary, h⟩ := bind_ok.1 h
  obtain ⟨seg, hover, hreads⟩ := unary_ok hc hunary
  exact operators_ok hc hover (.tightest hreads) hleast
    (fun op m hm => Nat.le_trans hm.bounds.2 (by decide)) h
termination_by n * 8 + 4

theorem assignment_ok {n : Nat} {c d : Cursor} {e : Expr}
    (hc : Ordered c.rest) (h : assignment n c = .ok e d) :
    ∃ seg, Over c seg d ∧ Reads .value seg e := by
  unfold assignment at h
  obtain ⟨target, c₁, hbinary, h⟩ := bind_ok.1 h
  obtain ⟨seg, hover, hreads, -⟩ := binary_ok hc (by decide) hbinary
  obtain ⟨b, c₂, heat, h⟩ := bind_ok.1 h
  rcases eat_ok (by simp) heat with ⟨rfl, eq, heq, hsign⟩ | ⟨rfl, -, rfl⟩
  · cases n with
    | zero => exact (tooDeep_ok h).elim
    | succ n =>
        have hsign := hover.trans hsign
        obtain ⟨value, c₃, hvalue, h⟩ := bind_ok.1 h
        obtain ⟨r, hr, hrhs⟩ := assignment_ok (hsign.ordered hc).2 hvalue
        have hall := hsign.trans hr
        cases target with
        | ident s x =>
            obtain ⟨rfl, rfl⟩ := pure_ok.1 h
            obtain ⟨t, rfl, ht, rfl, rfl⟩ := hreads.of_ident rfl
            have hspan := cover_join [eq] (hall.ordered hc).1
              (List.cons_ne_nil t []) hrhs.ne_nil
            rw [cover_singleton, ← hrhs.span] at hspan
            rw [hspan]
            exact ⟨_, hall, .assign ht heq hrhs⟩
        | _ => exact nomatch h
  · obtain ⟨rfl, rfl⟩ := pure_ok.1 h
    exact ⟨seg, hover, .loosest hreads⟩
termination_by n * 8 + 5

end

end Tree

end Script
