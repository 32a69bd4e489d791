/-
How the outcomes of a reading in a long run and in a short run go
together, and the rules by which readings are put together that have such
outcomes. Where the short run sees a token, the rules say that both do the
same there. Where it sees none, a reader either fails in the short run, or
it leaves out what it could have read; and if the long run reads something
there, it takes a token.
-/
import Script.Proofs.Reading.Built
import Script.Proofs.Reading.Within

namespace Script.Tree

open Script.Action

variable {α β : Type} {x : Context} {c d : Cursor}

-- ============================================================ outcomes

/-- The outcome of the long run that goes with one of the short run. -/
def Context.around (x : Context) :
    EStateM.Result Unit Cursor α → EStateM.Result Unit Cursor α
  | .ok a c => .ok a (c.within x)
  | .error e c => .error e (c.within x)

/-- The short run is cut off: it has no token left. And if the long run
goes on without an error, it has taken a token behind those of the short
one, which is at its end. -/
structure CutOff (x : Context) (r r' : EStateM.Result Unit Cursor α) :
    Prop where
  cut : ¬ x.Sees (finalCursor r')
  passed : ∀ {a d}, r = .ok a d → d.lastErrorAt = none →
    d.rest.length < x.tail.length ∧ AtEnd x (finalCursor r')

/-- The outcomes of a reading in the long run and in the short run. -/
def Meets (x : Context) (r r' : EStateM.Result Unit Cursor α) : Prop :=
  r = x.around r' ∨ CutOff x r r'

/-- Reading that keeps a short run at its end. -/
def Keeps (x : Context) (p : Parse α) : Prop :=
  ∀ c, AtEnd x c → AtEnd x (finalCursor (p c))

/-- Reading that needs a token. -/
def Fails (x : Context) (p : Parse α) : Prop :=
  ∀ c, AtEnd x c → ∃ d, p c = .error () d ∧ AtEnd x d

/-- Reading that keeps a short run at its end, if it can be done at all.
Without a level of nesting it cannot, and says so at the end as well. -/
def Waits (x : Context) (f : α → Parse β) : Prop :=
  ∀ a c b d, f a c = .ok b d → ∀ a', Keeps x (f a')

/-- Reading whose outcomes in both runs go together, under a condition `C`
on the spans it is given; `Q` holds of what it reads. -/
structure Follows (x : Context) (C : Prop) (Q : α → Prop) (p : Parse α) :
    Prop where
  careful : Careful p
  builds : C → Builds x.Free Q p
  meets : C → ∀ {c}, x.Knows c → Meets x (p (c.within x)) (p c)

/-- The same, where the short run sees a token of kind `k` as the long one
does. -/
structure FollowsAt (k : Token.Kind) (x : Context) (C : Prop)
    (Q : α → Prop) (p : Parse α) : Prop where
  careful : Careful p
  builds : C → Builds x.Free Q p
  meets : C → ∀ {c}, x.Knows c → x.Sees c → c.kind = k →
    Meets x (p (c.within x)) (p c)

-- ========================================================== at the end

namespace Keeps

variable {p : Parse α} {f : α → Parse β}

theorem pure (a : α) : Keeps x (pure a : Parse α) := fun _ h => h

theorem bind (hp : Keeps x p) (hf : ∀ a, Keeps x (f a)) :
    Keeps x (p >>= f) := by
  intro c hc
  cases h : p c with
  | error e d =>
      have hd := hp c hc
      rw [h] at hd
      rwa [bind_of_error h]
  | ok a d =>
      have hd := hp c hc
      rw [h] at hd
      rw [bind_of_ok h]
      exact hf a d hd

theorem map (hp : Keeps x p) (g : α → β) : Keeps x (g <$> p) :=
  hp.bind fun a => pure (g a)

theorem kind_bind {g : Token.Kind → Parse α}
    (hg : Keeps x (g .endOfInput)) : Keeps x (Parse.kind >>= g) := by
  intro c hc
  rw [Tree.kind_bind, hc.kind]
  exact hg c hc

theorem eat_bind {k : Token.Kind} (hk : k ≠ .endOfInput)
    {f : Bool → Parse α} (hf : Keeps x (f false)) :
    Keeps x (Parse.eat k >>= f) := by
  intro c hc
  rw [bind_eq (eat_eq_false (by rw [hc.kind]; exact hk.symm))]
  exact hf c hc

theorem spanFrom (start : Span) : Keeps x (Parse.spanFrom start) :=
  fun _ h => h

theorem terminator (behind : String) : Keeps x (terminator behind) :=
  eat_bind (by simp) (kind_bind (pure ()))

theorem tokensLeft_bind {g : Nat → Parse α} (hg : ∀ n, Keeps x (g n)) :
    Keeps x (Parse.tokensLeft >>= g) :=
  fun c hc => hg _ c hc

/-- What is kept anyhow. -/
theorem waits {f : α → Parse β} (hf : ∀ a, Keeps x (f a)) : Waits x f :=
  fun _ _ _ _ _ a => hf a

end Keeps

namespace Fails

variable {p : Parse α}

theorem keeps (hp : Fails x p) : Keeps x p := by
  intro c hc
  obtain ⟨d, h, hd⟩ := hp c hc
  rwa [h]

theorem bind (hp : Fails x p) (f : α → Parse β) : Fails x (p >>= f) := by
  intro c hc
  obtain ⟨d, h, hd⟩ := hp c hc
  exact ⟨d, bind_of_error h f, hd⟩

/-- Behind a reading that fails, nothing more is read. -/
theorem bind_keeps (hp : Fails x p) (f : α → Parse β) : Keeps x (p >>= f) :=
  (hp.bind f).keeps

theorem expected (what : String) :
    Fails x (Parse.expected what : Parse α) :=
  fun _ hc => ⟨_, rfl, hc.blame (.inl ⟨_, _, rfl⟩)⟩

theorem kind_bind {g : Token.Kind → Parse α}
    (hg : Fails x (g .endOfInput)) : Fails x (Parse.kind >>= g) := by
  intro c hc
  obtain ⟨d, h, hd⟩ := hg c hc
  exact ⟨d, by rw [Tree.kind_bind, hc.kind, h], hd⟩

theorem eat_bind {k : Token.Kind} (hk : k ≠ .endOfInput)
    {f : Bool → Parse α} (hf : Fails x (f false)) :
    Fails x (Parse.eat k >>= f) := by
  intro c hc
  obtain ⟨d, h, hd⟩ := hf c hc
  refine ⟨d, ?_, hd⟩
  rwa [bind_eq (eat_eq_false (by rw [hc.kind]; exact hk.symm))]

theorem expect {k : Token.Kind} (hk : k ≠ .endOfInput) (what : String) :
    Fails x (Parse.expect k what) := by
  intro c hc
  exact eat_bind (f := fun there => if there then pure c.here
    else Parse.expected what) hk (expected what) c hc

theorem identifier (what : String) : Fails x (Parse.identifier what) :=
  fun c hc => (expect (by simp) what).bind _ c hc

theorem expect_bind {k : Token.Kind} (hk : k ≠ .endOfInput) (what : String)
    (f : Span → Parse α) : Fails x (Parse.expect k what >>= f) :=
  (expect hk what).bind f

theorem tokensLeft_bind {g : Nat → Parse α} (hg : ∀ n, Fails x (g n)) :
    Fails x (Parse.tokensLeft >>= g) :=
  fun c hc => hg _ c hc

theorem separated (hp : Fails x p) (bound : Nat) :
    Fails x (Parse.separated p bound) := by
  cases bound with
  | zero => exact hp.bind _
  | succ bound => exact hp.bind _

theorem parameters (seen : List Ident) (bound : Nat) :
    Fails x (parameters seen bound) := by
  cases bound with
  | zero => exact (identifier _).bind _
  | succ bound => exact ((identifier _).bind _).bind _

end Fails

-- =============================================================== meets

namespace Meets

variable {p : Parse α} {f : α → Parse β}

theorem step (r : EStateM.Result Unit Cursor α) : Meets x (x.around r) r :=
  .inl rfl

/-- Where the long run fails, the short one may be cut off. -/
theorem of_error {r r' : EStateM.Result Unit Cursor α}
    (h : ∀ a d, r ≠ .ok a d) (hcut : ¬ x.Sees (finalCursor r')) :
    Meets x r r' :=
  .inr ⟨hcut, fun hr => absurd hr (h _ _)⟩

/-- Where the short run sees nothing, the long one fails or takes a
token. -/
theorem of_cut {p q : Parse α} (hc : x.Knows c) (hcut : ¬ x.Sees c)
    (hp : Careful p) (hq : Careful q)
    (h : ∀ {a d}, q (c.within x) = .ok a d →
      d.rest.length < x.tail.length ∧ Keeps x p) :
    Meets x (q (c.within x)) (p c) := by
  refine .inr ⟨x.not_sees_later hcut (hp c).1, fun hr hclean => ?_⟩
  obtain ⟨hlt, hkeeps⟩ := h hr
  have hlong := (hq.later_ok hr).lastErrorAt_eq_none hclean
  have hshort : c.lastErrorAt = none := (Option.or_eq_none_iff.1 hlong).1
  exact ⟨hlt, hkeeps c
    (.of_clean (x.rest_of_not_sees hcut) hc.fair hshort)⟩

/-- One reading behind another. -/
theorem bind (hc : x.Knows c) (hp : Careful p) {Q : α → Prop}
    (hb : Builds x.Free Q p) (hf : ∀ a, Careful (f a)) (hwaits : Waits x f)
    (h : Meets x (p (c.within x)) (p c))
    (hmore : ∀ {a d}, Q a → x.Knows d → p c = .ok a d →
      Meets x (f a (d.within x)) (f a d)) :
    Meets x ((p >>= f) (c.within x)) ((p >>= f) c) := by
  rcases h with hstep | hoff
  · cases hrun : p c with
    | error e d =>
        rw [hrun] at hstep
        rw [bind_of_error hstep, bind_of_error hrun]
        exact .step (.error e d)
    | ok a d =>
        rw [hrun] at hstep
        rw [bind_of_ok hstep, bind_of_ok hrun]
        obtain ⟨hd, ha⟩ := hb.of_ok hc.spanned hrun
        exact hmore ha (hc.later (hp.later_ok hrun) hd) hrun
  · refine .inr ⟨?_, fun hr hclean => ?_⟩
    · cases hrun : p c with
      | error e d =>
          have hcut := hoff.cut
          rw [hrun] at hcut
          rwa [bind_of_error hrun]
      | ok a d =>
          have hcut := hoff.cut
          rw [hrun] at hcut
          rw [bind_of_ok hrun]
          exact x.not_sees_later hcut (hf a d).1
    · obtain ⟨a, d, ha, hr⟩ := bind_ok.1 hr
      obtain ⟨hlt, hend⟩ := hoff.passed ha
        (((hf a).later_ok hr).lastErrorAt_eq_none hclean)
      refine ⟨Nat.lt_of_le_of_lt ((hf a).length_le hr) hlt, ?_⟩
      cases hrun : p c with
      | error e d =>
          rw [hrun] at hend
          rwa [bind_of_error hrun]
      | ok a' d' =>
          rw [hrun] at hend
          rw [bind_of_ok hrun]
          exact hwaits _ _ _ _ hr a' d' hend

theorem skip_bind {f : Unit → Parse α} (h : x.Sees c)
    (hf : Meets x (f () (c.advance.within x)) (f () c.advance)) :
    Meets x ((Parse.skip >>= f) (c.within x)) ((Parse.skip >>= f) c) := by
  rw [Tree.skip_bind, Tree.skip_bind, Cursor.advance_within h]
  exact hf

theorem eat_bind {f : Bool → Parse α} {k : Token.Kind} (h : x.Sees c)
    (ht : c.kind = k →
      Meets x (f true (c.advance.within x)) (f true c.advance))
    (hf : c.kind ≠ k → Meets x (f false (c.within x)) (f false c)) :
    Meets x ((Parse.eat k >>= f) (c.within x)) ((Parse.eat k >>= f) c) := by
  have hkind := Cursor.kind_within h
  by_cases hk : c.kind = k
  · rw [bind_eq (eat_eq hk), bind_eq (eat_eq (hkind.trans hk)),
      Cursor.advance_within h]
    exact ht hk
  · rw [bind_eq (eat_eq_false hk),
      bind_eq (eat_eq_false (hkind ▸ hk))]
    exact hf hk

/-- A statement that is passed over. -/
theorem recovering {p : Parse Stmt} (hp : Careful p)
    (h : Meets x (p (c.within x)) (p c)) :
    Meets x (recovering p (c.within x)) (recovering p c) := by
  unfold Tree.recovering
  rcases h with hstep | hoff
  · rw [hstep]
    cases hrun : p c with
    | ok s d => exact .step (.ok (some s) d)
    | error e d =>
        show Meets x (.ok none (d.within x).skipStatement)
          (.ok none d.skipStatement)
        by_cases hsees : x.Sees d.skipStatement
        · rw [Cursor.skipStatement_within hsees]
          exact .step (.ok none d.skipStatement)
        · refine .inr ⟨hsees, fun hr hclean => ?_⟩
          cases hr
          have herror : (d.within x).lastErrorAt = none := hclean
          exact absurd (Option.or_eq_none_iff.1 herror).1
            ((hp c).2 d hrun)
  · refine .inr ⟨?_, fun hr hclean => ?_⟩
    · have hcut := hoff.cut
      cases hrun : p c with
      | ok s d => rwa [hrun] at hcut
      | error e d =>
          rw [hrun] at hcut
          exact x.not_sees_later hcut (.skipStatement d)
    · cases hlong : p (c.within x) with
      | error e d =>
          rw [hlong] at hr
          cases hr
          exact absurd hclean ((hp _).2 d hlong)
      | ok s d =>
          rw [hlong] at hr
          cases hr
          obtain ⟨hlt, hend⟩ := hoff.passed hlong hclean
          refine ⟨hlt, ?_⟩
          cases hrun : p c with
          | ok s d => rwa [hrun] at hend
          | error e d =>
              -- where there is no token, none is passed over
              rw [hrun] at hend
              have hsame : d.skipStatement = d := by
                have hrest : d.rest = [] := hend.rest
                unfold Cursor.skipStatement
                rw [hrest]
                cases d
                cases hrest
                rfl
              show AtEnd x d.skipStatement
              rwa [hsame]

end Meets

-- ============================================================= follows

theorem identifier_of_kind {what : String} (h : c.kind = .identifier) :
    Parse.identifier what c = .ok ⟨c.word, c.here⟩ c.advance := by
  unfold Parse.identifier
  rw [get_bind, bind_eq (expect_eq h)]
  rfl

theorem identifier_eq_expected {what : String} (h : c.kind ≠ .identifier) :
    Parse.identifier what c = Parse.expected what c := by
  have hexpect : Parse.expect .identifier what c
      = .error () (c.blame (.unexpected what c.describe) c.here) := by
    unfold Parse.expect
    rw [here_bind, bind_eq (eat_eq_false h)]
    rfl
  unfold Parse.identifier
  rw [get_bind, bind_of_error hexpect]
  rfl

namespace Follows

variable {C : Prop} {Q : α → Prop} {R : β → Prop} {p : Parse α}
  {f : α → Parse β}

theorem pure {a : α} (ha : C → Q a) : Follows x C Q (pure a : Parse α) where
  careful := .pure a
  builds hC := .pure (ha hC)
  meets _ c _ := .step (.ok a c)

theorem bind (hp : Follows x C Q p) (hf : ∀ a, Follows x (C ∧ Q a) R (f a))
    (hwaits : Waits x f) : Follows x C R (p >>= f) where
  careful := hp.careful.bind fun a => (hf a).careful
  builds hC := (hp.builds hC).bind fun a ha => (hf a).builds ⟨hC, ha⟩
  meets hC _ hc :=
    .bind hc hp.careful (hp.builds hC) (fun a => (hf a).careful) hwaits
      (hp.meets hC hc) fun {a _} ha hd _ => (hf a).meets ⟨hC, ha⟩ hd

theorem map (hp : Follows x C Q p) {g : α → β}
    (hg : C → ∀ a, Q a → R (g a)) : Follows x C R (g <$> p) :=
  hp.bind (fun a => .pure fun hC => hg hC.1 a hC.2)
    (Keeps.waits fun a => .pure (g a))

/-- Under a condition that says more. -/
theorem when {C' : Prop} (hp : Follows x C Q p) (h : C' → C) :
    Follows x C' Q p where
  careful := hp.careful
  builds hC := hp.builds (h hC)
  meets hC := hp.meets (h hC)

theorem ite {P : Prop} [Decidable P] {q : Parse α} (hp : Follows x C Q p)
    (hq : Follows x C Q q) : Follows x C Q (if P then p else q) := by
  split
  · exact hp
  · exact hq

/-- A reader that needs a token is looked at where there is one. -/
theorem of_seen (hp : ∀ k, FollowsAt k x C Q p) (hadvances : Advances p)
    (hwaits : Waits x fun _ : Unit => p) : Follows x C Q p where
  careful := (hp .endOfInput).careful
  builds := (hp .endOfInput).builds
  meets hC c hc := by
    by_cases h : x.Sees c
    · exact (hp c.kind).meets hC hc h rfl
    · have hcareful := (hp .endOfInput).careful
      refine .of_cut hc h hcareful hcareful fun {a d} hr => ?_
      have hlt := hadvances _ _ _ hr
      rw [Context.length_of_not_sees h] at hlt
      exact ⟨hlt, hwaits () _ _ _ hr ()⟩

/-- What is read next depends on the kind of the next token. Where the
short run sees none, it reads what is read at the end of input; the long
run does the same, or takes a token. -/
theorem kind_bind {g : Token.Kind → Parse α}
    (hg : ∀ k, FollowsAt k x C Q (g k)) (hend : Follows x C Q (g .endOfInput))
    (hkeeps : ∀ {k c a d}, g k c = .ok a d → Keeps x (g .endOfInput))
    (hcut : ∀ k, g k = g .endOfInput ∨ ∀ {c a d}, c.kind = k →
      g k c = .ok a d → d.rest.length < c.rest.length) :
    Follows x C Q (Parse.kind >>= g) where
  careful := Careful.kind.bind fun k => (hg k).careful
  builds hC := Builds.kind.bind fun k _ => (hg k).builds hC
  meets hC c hc := by
    rw [Tree.kind_bind, Tree.kind_bind]
    by_cases h : x.Sees c
    · rw [Cursor.kind_within h]
      exact (hg c.kind).meets hC hc h rfl
    · rw [Context.kind_of_not_sees h]
      rcases hcut (c.within x).kind with hsame | htakes
      · rw [hsame]
        exact hend.meets hC hc
      · refine .of_cut hc h hend.careful (hg _).careful fun {a d} hr => ?_
        have hlt := htakes rfl hr
        rw [Context.length_of_not_sees h] at hlt
        exact ⟨hlt, hkeeps hr⟩

theorem eat_bind {f : Bool → Parse α} {k : Token.Kind}
    (hk : k ≠ .endOfInput) (ht : Follows x C Q (f true))
    (hf : Follows x C Q (f false)) (hkeeps : Keeps x (f false)) :
    Follows x C Q (Parse.eat k >>= f) where
  careful := (Careful.eat k).bind fun there => by
    cases there
    · exact hf.careful
    · exact ht.careful
  builds hC := (Builds.eat k).bind fun there _ => by
    cases there
    · exact hf.builds hC
    · exact ht.builds hC
  meets hC c hc := by
    by_cases h : x.Sees c
    · exact .eat_bind h (fun _ => ht.meets hC hc.advance)
        fun _ => hf.meets hC hc
    · have hend : c.kind ≠ k := by
        rw [Context.kind_of_not_sees h]
        exact hk.symm
      rw [bind_eq (eat_eq_false hend)]
      by_cases hlong : (c.within x).kind = k
      · rw [bind_eq (eat_eq hlong)]
        refine .of_cut (q := fun c => f true c.advance) hc h hf.careful
          (fun d => ?_) fun {a d} hr => ⟨?_, hkeeps⟩
        · exact ⟨(Later.advance d).trans (ht.careful d.advance).1,
            (ht.careful d.advance).2⟩
        · have hlt := Cursor.length_advance (hlong ▸ hk)
          have hle := ht.careful.length_le hr
          rw [← Context.length_of_not_sees h]
          omega
      · rw [bind_eq (eat_eq_false hlong)]
        exact hf.meets hC hc

theorem tokensLeft_bind {g : Nat → Parse α}
    (hg : ∀ bound, Follows x C Q (g bound))
    (hbounds : ∀ {c : Cursor} {b b' : Nat}, c.rest.length ≤ b →
      c.rest.length ≤ b' → g b c = g b' c) :
    Follows x C Q (Parse.tokensLeft >>= g) where
  careful := Careful.tokensLeft.bind fun n => (hg n).careful
  builds hC := Builds.tokensLeft.bind fun n _ => (hg n).builds hC
  meets hC c hc := by
    -- the bound of the long run will do for both
    have hle : c.rest.length ≤ (c.within x).rest.length := by
      unfold Cursor.within
      rw [List.length_append]
      exact Nat.le_add_right ..
    rw [Tree.tokensLeft_bind, Tree.tokensLeft_bind,
      hbounds (Nat.le_refl _) hle]
    exact (hg _).meets hC hc

theorem spanFrom (start : Span) :
    Follows x C (fun _ => True) (Parse.spanFrom start) where
  careful := .spanFrom start
  builds _ := .get_bind fun _ _ => .pure trivial
  meets _ c _ := .step (.ok (start.join c.previous) c)

theorem blame {f : Fault} (hf : f ≠ .emptyStatement) {s : Span}
    (hs : C → x.Free s) :
    Follows x C (fun _ => True) (Parse.blame f s) where
  careful := .blame hf s
  builds hC := .blame f (hs hC)
  meets hC c _ := .inl (congrArg (EStateM.Result.ok ())
    (Cursor.blame_within c f (hs hC)))

theorem note (f : Fault) (hf : f = .emptyStatement) {s : Span}
    (hs : C → x.Free s) : Follows x C (fun _ => True)
      (modify (·.note f s) : Parse Unit) where
  careful := .modify fun _ => hf ▸ .noted _ .refl
  builds hC := .modify fun _ hc => hc.note f (hs hC)
  meets _ c _ := .inl (congrArg (EStateM.Result.ok ())
    (Cursor.note_within c f s))

/-- Giving up behind an error that was blamed. -/
theorem blame_throw {f : Fault} (hf : f ≠ .emptyStatement) {s : Span}
    (hs : C → x.Free s) :
    Follows x C Q (Parse.blame f s >>= fun _ => throw () : Parse α) where
  careful := .blame_throw hf s
  builds hC := (Builds.blame f (hs hC)).bind fun _ _ => Builds.giveUp
  meets hC c _ := .inl (congrArg (EStateM.Result.error ())
    (Cursor.blame_within c f (hs hC)))

theorem expected (what : String) :
    Follows x C Q (Parse.expected what : Parse α) where
  careful := .expected what
  builds _ := .expected what
  meets _ c hc := by
    by_cases h : x.Sees c
    · have hblame := Cursor.blame_within c (.unexpected what c.describe)
        hc.spanned.here
      refine .inl ?_
      show EStateM.Result.error () ((c.within x).blame
        (.unexpected what (c.within x).describe) (c.within x).here) = _
      rw [Cursor.describe_within h, Cursor.here_within h, hblame]
      rfl
    · exact .of_error (fun _ _ => nofun)
        (x.not_sees_later h ((Careful.expected what) c).1)

theorem tooDeep : Follows x C Q (Parse.tooDeep : Parse α) where
  careful := .tooDeep
  builds _ := .tooDeep
  meets _ c hc := by
    by_cases h : x.Sees (c.blame .tooDeep c.here).skipGroup
    · have hc' : x.Sees c := fun hrest => h <| by
        have := (Later.blamed c.here (by simp) .refl).trans
          (.skipGroup (c.blame .tooDeep c.here)) |>.rest_suffix
        rw [hrest] at this
        exact List.suffix_nil.1 this
      refine .inl ?_
      show EStateM.Result.error () ((c.within x).blame .tooDeep
        (c.within x).here).skipGroup = _
      rw [Cursor.here_within hc', Cursor.blame_within c _ hc.spanned.here,
        Cursor.skipGroup_within h]
      rfl
    · exact .of_error (fun _ _ => nofun) h

theorem expect {k : Token.Kind} (hk : k ≠ .endOfInput) (what : String) :
    Follows x C x.Free (Parse.expect k what) := by
  refine .of_seen (fun _ => ⟨.expect k what, fun _ => .expect k what, ?_⟩)
    (.expect hk what) (Keeps.waits fun _ => (Fails.expect hk what).keeps)
  intro _ c hc h _
  unfold Parse.expect
  rw [here_bind, here_bind, Cursor.here_within h]
  exact .eat_bind h (fun _ => .step (.ok c.here c.advance))
    fun _ => (expected (C := True) (Q := x.Free) what).meets trivial hc

theorem identifier (what : String) :
    Follows x C (fun n => x.Free n.span) (Parse.identifier what) := by
  refine .of_seen
    (fun _ => ⟨.identifier what, fun _ => .identifier what, ?_⟩)
    (.identifier what) (Keeps.waits fun _ => (Fails.identifier what).keeps)
  intro _ c hc h _
  unfold Parse.identifier
  rw [Tree.get_bind, Tree.get_bind, Cursor.word_within h]
  have hname := (expect (C := True) (k := .identifier) nofun what).map
    (g := fun span => (⟨c.word, span⟩ : Ident))
    (R := fun n => x.Free n.span) fun _ _ hs => hs
  exact hname.meets trivial hc

/-- Where the short run sees a token, a name is read in both runs or in
none. -/
theorem identifier_bind {f : Ident → Parse α} (what : String)
    (hc : x.Knows c) (h : x.Sees c)
    (hf : Meets x (f ⟨c.word, c.here⟩ (c.advance.within x))
      (f ⟨c.word, c.here⟩ c.advance)) :
    Meets x ((Parse.identifier what >>= f) (c.within x))
      ((Parse.identifier what >>= f) c) := by
  have hkind := Cursor.kind_within h
  by_cases hk : c.kind = .identifier
  · rw [bind_eq (identifier_of_kind hk),
      bind_eq (identifier_of_kind (hkind.trans hk)), Cursor.word_within h,
      Cursor.here_within h, Cursor.advance_within h]
    exact hf
  · rw [bind_congr_left (identifier_eq_expected hk) f,
      bind_congr_left (identifier_eq_expected (hkind ▸ hk)) f]
    exact (expected (C := True) (Q := fun _ => True) what).meets trivial hc

theorem separated (hp : Follows x C Q p) (bound : Nat) :
    Follows x C (fun _ => True) (Parse.separated p bound) := by
  induction bound with
  | zero =>
      exact hp.bind (fun _ => .pure fun _ => trivial)
        (Keeps.waits fun _ => .pure _)
  | succ bound ih =>
      refine hp.bind (fun a => .eat_bind (by simp) ?_ ?_ (Keeps.pure [a]))
        (Keeps.waits fun a => .eat_bind (by simp) (Keeps.pure [a]))
      · exact (ih.when And.left).bind (fun _ => .pure fun _ => trivial)
          (Keeps.waits fun _ => .pure _)
      · exact .pure fun _ => trivial

end Follows

namespace FollowsAt

variable {k : Token.Kind} {C : Prop} {Q : α → Prop} {p : Parse α}

theorem of_follows (hp : Follows x C Q p) : FollowsAt k x C Q p :=
  ⟨hp.careful, hp.builds, fun hC _ hc _ _ => hp.meets hC hc⟩

theorem ite {P : Prop} [Decidable P] {q : Parse α}
    (hp : FollowsAt k x C Q p) (hq : FollowsAt k x C Q q) :
    FollowsAt k x C Q (if P then p else q) := by
  split
  · exact hp
  · exact hq

theorem kind_bind {g : Token.Kind → Parse α}
    (hg : ∀ k, FollowsAt k x C Q (g k)) :
    FollowsAt k x C Q (Parse.kind >>= g) where
  careful := Careful.kind.bind fun k => (hg k).careful
  builds hC := Builds.kind.bind fun k _ => (hg k).builds hC
  meets hC c hc h _ := by
    rw [Tree.kind_bind, Tree.kind_bind, Cursor.kind_within h]
    exact (hg c.kind).meets hC hc h rfl

theorem bind {R : β → Prop} {f : α → Parse β} (hp : FollowsAt k x C Q p)
    (hf : ∀ a, Follows x (C ∧ Q a) R (f a)) (hwaits : Waits x f) :
    FollowsAt k x C R (p >>= f) where
  careful := hp.careful.bind fun a => (hf a).careful
  builds hC := (hp.builds hC).bind fun a ha => (hf a).builds ⟨hC, ha⟩
  meets hC _ hc h hk :=
    .bind hc hp.careful (hp.builds hC) (fun a => (hf a).careful) hwaits
      (hp.meets hC hc h hk) fun {a _} ha hd _ => (hf a).meets ⟨hC, ha⟩ hd

theorem map {R : β → Prop} (hp : FollowsAt k x C Q p) {g : α → β}
    (hg : C → ∀ a, Q a → R (g a)) : FollowsAt k x C R (g <$> p) :=
  hp.bind (fun a => .pure fun hC => hg hC.1 a hC.2)
    (Keeps.waits fun a => .pure (g a))

theorem recovering {p : Parse Stmt} {Q : Stmt → Prop}
    (hp : FollowsAt k x C Q p) :
    FollowsAt k x C (fun _ => True) (recovering p) where
  careful := .recovering hp.careful
  builds hC := (Builds.recovering (hp.builds hC)).imp fun _ _ => trivial
  meets hC _ hc h hk := .recovering hp.careful (hp.meets hC hc h hk)

theorem here_bind {f : Span → Parse α}
    (hf : ∀ s, FollowsAt k x (C ∧ x.Free s) Q (f s)) :
    FollowsAt k x C Q (Parse.here >>= f) where
  careful := Careful.here.bind fun s => (hf s).careful
  builds hC := Builds.here.bind fun s hs => (hf s).builds ⟨hC, hs⟩
  meets hC c hc h hk := by
    rw [Tree.here_bind, Tree.here_bind, Cursor.here_within h]
    exact (hf c.here).meets ⟨hC, hc.spanned.here⟩ hc h hk

theorem skip_bind {f : Unit → Parse α} (hf : Follows x C Q (f ())) :
    FollowsAt k x C Q (Parse.skip >>= f) where
  careful := Careful.skip.bind fun _ => hf.careful
  builds hC := Builds.skip.bind fun _ _ => hf.builds hC
  meets hC _ hc h _ := .skip_bind h (hf.meets hC hc.advance)

/-- What is read next depends on the next token, and the span of that may
be used. -/
theorem get_bind {f : Cursor → Parse α}
    (hf : ∀ c, FollowsAt c.kind x (C ∧ x.Free c.here) Q (f c))
    (hsame : ∀ c, x.Sees c → f (c.within x) = f c) (k : Token.Kind) :
    FollowsAt k x C Q (get >>= f) where
  careful := Careful.get_bind fun c => (hf c).careful
  builds hC := .get_bind fun c hc => (hf c).builds ⟨hC, hc.here⟩
  meets hC c hc h _ := by
    rw [Tree.get_bind, Tree.get_bind, hsame c h]
    exact (hf c).meets ⟨hC, hc.spanned.here⟩ hc h rfl

end FollowsAt

end Script.Tree
