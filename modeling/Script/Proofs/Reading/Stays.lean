/-
Reading among tokens that end with a semicolon, without braces. No reader
of expressions takes a semicolon. So it ends in front of one, whether it
yields something or gives up, and the tokens behind the last semicolon are
never asked for.

Passing over a group is what could go wrong: where no level of nesting is
left, everything up to the closing parenthesis is passed over, semicolons
as well. If the parentheses are well nested, the group ends among the
tokens. If not, the error about the nesting is reported; it is not dropped
as long as no two tokens are at one place.
-/
import Mathlib.Data.List.Basic
import Script.Proofs.Reading.Follows

namespace Script

/-- Whether the parentheses among tokens are well nested, where `depth`
of them are open. -/
def Token.wellNested : Nat → List Token → Bool
  | depth, [] => depth == 0
  | depth, t :: ts =>
      match t.kind with
      | .punct .leftParen => wellNested (depth + 1) ts
      | .punct .rightParen =>
          match depth with
          | 0 => false
          | depth + 1 => wellNested depth ts
      | _ => wellNested depth ts

namespace Token

theorem depth_of_nil {depth : Nat} (h : wellNested depth [] = true) :
    depth = 0 :=
  eq_of_beq h

/-- Behind some of the tokens, the others are well nested with those that
are still open. -/
theorem wellNested_suffix {depth : Nat} {l r : List Token}
    (h : wellNested depth (l ++ r) = true) :
    ∃ depth', wellNested depth' r = true := by
  induction l generalizing depth with
  | nil => exact ⟨depth, h⟩
  | cons t l ih =>
      rw [List.cons_append] at h
      unfold wellNested at h
      split at h
      · exact ih h
      · split at h
        · cases h
        · exact ih h
      · exact ih h

end Token

namespace Tree

open Script.Action Token

/-- Among parentheses that are well nested, a group ends in front of the
last token, if that one is no parenthesis. -/
theorem Cursor.behindGroup_ne_nil {depth opened : Nat} {previous : Span}
    {ts : List Token} (hopened : 0 < opened)
    (hlast : ∀ t ∈ ts.getLast?, t.kind ≠ .punct .rightParen)
    (hkinds : ∀ t ∈ ts, t.kind ≠ .punct .leftBrace
      ∧ t.kind ≠ .punct .rightBrace)
    (h : wellNested (depth + opened) ts = true) :
    (behindGroup opened previous ts).2 ≠ [] := by
  induction ts generalizing opened previous with
  | nil =>
      have hdepth := depth_of_nil h
      omega
  | cons t ts ih =>
      obtain ⟨⟨hleft, hright⟩, hkinds⟩ := List.forall_mem_cons.1 hkinds
      have hlast' : ∀ t ∈ ts.getLast?, t.kind ≠ .punct .rightParen :=
        fun t' ht' => hlast t' (List.mem_getLast?_cons ht')
      unfold wellNested at h
      unfold behindGroup
      split
      case h_1 hk =>
          rw [hk] at h
          exact ih (Nat.succ_pos _) hlast' hkinds h
      case h_2 hk => exact absurd hk hleft
      case h_3 hk =>
          rw [hk] at h
          split
          · exact absurd hopened (Nat.lt_irrefl 0)
          · rintro rfl
            exact hlast t rfl hk
          · exact ih (Nat.succ_pos _) hlast' hkinds h
      case h_4 hk => exact absurd hk hright
      case h_5 h₁ _ h₃ _ =>
          rw [if_neg (Nat.ne_of_gt hopened)]
          refine ih hopened hlast' hkinds ?_
          split at h
          case h_1 hk => exact absurd hk h₁
          case h_2 hk => exact absurd hk h₃
          case h_3 => exact h

/-- Where no group starts, none is passed over. -/
theorem Cursor.skipGroup_ne_nil {depth : Nat} {c : Cursor}
    (hne : c.rest ≠ [])
    (hlast : ∀ t ∈ c.rest.getLast?, t.kind ≠ .punct .rightParen)
    (hkinds : ∀ t ∈ c.rest, t.kind ≠ .punct .leftBrace
      ∧ t.kind ≠ .punct .rightBrace)
    (h : wellNested depth c.rest = true) : c.skipGroup.rest ≠ [] := by
  unfold skipGroup
  obtain ⟨t, ts, hrest⟩ := List.exists_cons_of_ne_nil hne
  rw [hrest] at hlast hkinds h ⊢
  obtain ⟨⟨hleft, -⟩, hkinds⟩ := List.forall_mem_cons.1 hkinds
  unfold behindGroup
  unfold wellNested at h
  dsimp only
  split
  case h_1 hk =>
      rw [hk] at h
      exact behindGroup_ne_nil Nat.one_pos
        (fun t' ht' => hlast t' (List.mem_getLast?_cons ht')) hkinds h
  case h_2 hk => exact absurd hk hleft
  case h_3 => exact List.cons_ne_nil _ _
  case h_4 => exact List.cons_ne_nil _ _
  case h_5 => exact List.cons_ne_nil _ _

/-- Tokens that end with a semicolon, without braces. Either the
parentheses are well nested, or the tokens are at different places. -/
structure Plain (u : List Token) : Prop where
  kinds : ∀ t ∈ u, t.kind ≠ .endOfInput ∧ t.kind ≠ .punct .leftBrace
    ∧ t.kind ≠ .punct .rightBrace
  last : ∃ t, u.getLast? = some t ∧ t.kind = .punct .semicolon
  apart : wellNested 0 u = false → (u.map (·.span.start)).Nodup

/-- A cursor among tokens, or behind the last one. The last error was
about one of them, and not about one that is still to be read. -/
structure Settled (u : List Token) (c : Cursor) : Prop where
  rest : c.rest <:+ u
  blamed : ∀ e, c.lastErrorAt = some e → ∃ t ∈ u, t.span.start = e
  fresh : wellNested 0 u = false →
    ∀ t ∈ c.rest, c.lastErrorAt ≠ some t.span.start

/-- A cursor in front of one of the tokens. -/
structure Among (u : List Token) (c : Cursor) : Prop extends Settled u c where
  ne_nil : c.rest ≠ []

/-- A cursor where reading gave up, in front of one of the tokens. The
last error can be about that one. -/
structure Stuck (u : List Token) (c : Cursor) : Prop where
  rest : c.rest <:+ u
  ne_nil : c.rest ≠ []
  blamed : ∀ e, c.lastErrorAt = some e → ∃ t ∈ u, t.span.start = e
  fresh : wellNested 0 u = false →
    ∀ t ∈ c.rest.tail, c.lastErrorAt ≠ some t.span.start

/-- The nesting was blamed, and the group that was passed over may have no
end. -/
def Lost (u : List Token) (c : Cursor) : Prop :=
  wellNested 0 u = false ∧ c.IsDeep

/-- A span that begins with one of the tokens, which is passed over. -/
structure Behind (u : List Token) (c : Cursor) (s : Span) : Prop where
  start : ∃ t ∈ u, t.span.start = s.start
  apart : wellNested 0 u = false →
    ∀ t ∈ c.rest, s.start ≠ t.span.start

variable {α β : Type} {u : List Token} {c d : Cursor} {s : Span}

-- ============================================================== cursors

/-- The last tokens end with a semicolon as well. -/
theorem Plain.last_of_suffix (hu : Plain u) {ts : List Token}
    (h : ts <:+ u) (hne : ts ≠ []) :
    ∃ t, ts.getLast? = some t ∧ t.kind = .punct .semicolon := by
  obtain ⟨last, hlast, hk⟩ := hu.last
  obtain ⟨front, rfl⟩ := h
  rw [List.getLast?_append_of_ne_nil _ hne] at hlast
  exact ⟨last, hlast, hk⟩

theorem lastErrorAt_blame_eq (c : Cursor) (f : Fault) (s : Span) :
    (c.blame f s).lastErrorAt = some s.start := by
  unfold Cursor.blame
  split
  case isTrue h => exact h
  case isFalse => rfl

theorem rest_blame (c : Cursor) (f : Fault) (s : Span) :
    (c.blame f s).rest = c.rest := by
  unfold Cursor.blame
  split
  · rfl
  · rfl

namespace Behind

theorem later (h : Behind u c s) (hlater : Later c d) : Behind u d s :=
  ⟨h.start, fun hn t ht => h.apart hn t (hlater.rest_suffix.subset ht)⟩

theorem join {a b : Span} (ha : Behind u c a) (hb : Behind u c b) :
    Behind u c (a.join b) := by
  have hjoin : (a.join b).start = min a.start b.start := rfl
  rcases Nat.le_total a.start b.start with h | h
  · rw [Nat.min_eq_left h] at hjoin
    exact ⟨hjoin ▸ ha.start, hjoin ▸ ha.apart⟩
  · rw [Nat.min_eq_right h] at hjoin
    exact ⟨hjoin ▸ hb.start, hjoin ▸ hb.apart⟩

end Behind

namespace Among

theorem exists_token (h : Among u c) : ∃ t ts, c.rest = t :: ts ∧ t ∈ u
    ∧ c.kind = t.kind ∧ c.here = t.span ∧ c.advance.rest = ts := by
  obtain ⟨t, ts, hrest⟩ := List.exists_cons_of_ne_nil h.ne_nil
  refine ⟨t, ts, hrest, h.rest.subset (by simp [hrest]), ?_, ?_, ?_⟩
  · unfold Cursor.kind
    rw [hrest]
  · unfold Cursor.here
    rw [hrest]
  · unfold Cursor.advance
    rw [hrest]

theorem kind_ne (h : Among u c) (hu : Plain u) : c.kind ≠ .endOfInput
    ∧ c.kind ≠ .punct .leftBrace ∧ c.kind ≠ .punct .rightBrace := by
  obtain ⟨t, ts, -, ht, hk, -⟩ := h.exists_token
  rw [hk]
  exact hu.kinds t ht

theorem settled_advance (h : Among u c) : Settled u c.advance := by
  have hsame : c.advance.lastErrorAt = c.lastErrorAt := by
    unfold Cursor.advance
    split
    · rfl
    · rfl
  have hlater := (Later.advance c).rest_suffix
  exact ⟨hlater.trans h.rest, hsame ▸ h.blamed,
    fun hn t ht => hsame ▸ h.fresh hn t (hlater.subset ht)⟩

/-- There is a token behind every one that is not the last semicolon. -/
theorem advance (h : Among u c) (hu : Plain u)
    (hk : c.kind ≠ .punct .semicolon) : Among u c.advance := by
  refine ⟨h.settled_advance, fun hnil => hk ?_⟩
  obtain ⟨t, ts, hrest, -, hkind, -, hadvance⟩ := h.exists_token
  obtain ⟨last, hlast, hsemicolon⟩ := hu.last_of_suffix h.rest h.ne_nil
  rw [hrest, ← hadvance, hnil] at hlast
  cases hlast
  exact hkind.trans hsemicolon

/-- A token that is passed over was at a place of its own. -/
theorem behind_here (h : Among u c) (hu : Plain u) :
    Behind u c.advance c.here := by
  obtain ⟨t, ts, hrest, ht, -, hhere, hadvance⟩ := h.exists_token
  refine ⟨⟨t, ht, by rw [hhere]⟩, fun hn t' ht' hsame => ?_⟩
  have hnodup := (hu.apart hn).sublist (h.rest.sublist.map _)
  rw [hrest, List.map_cons, List.nodup_cons] at hnodup
  rw [hadvance] at ht'
  rw [hhere] at hsame
  exact hnodup.1 (hsame ▸ List.mem_map_of_mem ht')

/-- An error about what was passed over. -/
theorem blame (h : Among u c) (hs : Behind u c s) (f : Fault) :
    Among u (c.blame f s) := by
  have hlast := lastErrorAt_blame_eq c f s
  have hrest := rest_blame c f s
  refine ⟨⟨hrest ▸ h.rest, fun e he => ?_, fun hn t ht heq => ?_⟩,
    hrest ▸ h.ne_nil⟩
  · cases hlast.symm.trans he
    exact hs.start
  · exact hs.apart hn t (hrest ▸ ht) (Option.some.inj (hlast.symm.trans heq))

theorem stuck (h : Among u c) : Stuck u c :=
  ⟨h.rest, h.ne_nil, h.blamed,
    fun hn t ht => h.fresh hn t (List.mem_of_mem_tail ht)⟩

/-- An error about the next token. -/
theorem stuck_here (h : Among u c) (hu : Plain u) (f : Fault) :
    Stuck u (c.blame f c.here) := by
  obtain ⟨t, ts, hrest, ht, -, hhere, hadvance⟩ := h.exists_token
  have hlast := lastErrorAt_blame_eq c f c.here
  have hsame := rest_blame c f c.here
  refine ⟨hsame ▸ h.rest, hsame ▸ h.ne_nil, fun e he => ?_,
    fun hn t' ht' heq => ?_⟩
  · cases hlast.symm.trans he
    exact ⟨t, ht, by rw [hhere]⟩
  · rw [hsame, hrest, List.tail_cons, ← hadvance] at ht'
    exact (h.behind_here hu).apart hn t' ht'
      (Option.some.inj (hlast.symm.trans heq))

/-- Where no level is left, the group ends among the tokens, or the error
is reported. -/
theorem tooDeep (h : Among u c) (hu : Plain u) :
    Lost u (c.blame .tooDeep c.here).skipGroup
      ∨ Stuck u (c.blame .tooDeep c.here).skipGroup := by
  obtain ⟨t, ts, hrest, ht, hkind, hhere, hadvance⟩ := h.exists_token
  have hstuck := h.stuck_here hu .tooDeep
  generalize hd : c.blame .tooDeep c.here = d at *
  have hlater := (Later.skipGroup d).rest_suffix
  cases hn : wellNested 0 u with
  | false =>
      have hfresh := h.fresh hn t (by simp [hrest])
      refine .inl ⟨hn, c.here, ?_⟩
      rw [← hhere] at hfresh
      rw [← hd]
      unfold Cursor.blame
      rw [if_neg hfresh]
      exact Array.mem_push_self
  | true =>
      have hnever : ¬ wellNested 0 u = false := by simp [hn]
      obtain ⟨front, hfront⟩ := hstuck.rest
      obtain ⟨depth, hnested⟩ := wellNested_suffix (hfront ▸ hn)
      refine .inr ⟨hlater.trans hstuck.rest, ?_, hstuck.blamed,
        fun hn => absurd hn hnever⟩
      obtain ⟨last, hlast, hk⟩ := hu.last_of_suffix hstuck.rest hstuck.ne_nil
      refine Cursor.skipGroup_ne_nil hstuck.ne_nil (fun t ht hparen => ?_)
        (fun t ht => (hu.kinds t (hstuck.rest.subset ht)).2) hnested
      cases hlast.symm.trans ht
      cases hk.symm.trans hparen

end Among

namespace Stuck

/-- There is a semicolon ahead. -/
theorem exists_semicolon (h : Stuck u c) (hu : Plain u) :
    ∃ t ∈ c.rest, t.kind = .punct .semicolon := by
  obtain ⟨last, hlast, hk⟩ := hu.last_of_suffix h.rest h.ne_nil
  exact ⟨last, List.mem_of_getLast? hlast, hk⟩

/-- The next statement begins behind what was blamed. -/
theorem skipStatement (h : Stuck u c) (hu : Plain u) :
    Settled u c.skipStatement := by
  obtain ⟨t, ts, hrest⟩ := List.exists_cons_of_ne_nil h.ne_nil
  have htail : c.skipStatement.rest <:+ c.rest.tail := by
    have ht := (hu.kinds t (h.rest.subset (by simp [hrest]))).2.2
    unfold Cursor.skipStatement Cursor.nextStatement
    rw [hrest]
    dsimp only
    split
    case h_1 hk => exact absurd hk ht
    case h_2 => exact List.suffix_refl _
    case h_3 => exact Later.nextStatement_suffix _ _
  exact ⟨(Later.skipStatement c).rest_suffix.trans h.rest, h.blamed,
    fun hn t ht => h.fresh hn t (htail.subset ht)⟩

end Stuck

-- ================================================================ rules

/-- Reading that ends in front of one of the tokens; `Q` holds of what it
reads and where it ends. -/
def Stays (u : List Token) (Q : α → Cursor → Prop) (p : Parse α)
    (c : Cursor) : Prop :=
  match p c with
  | .ok a d => Among u d ∧ Q a d
  | .error _ d => Lost u d ∨ Stuck u d

namespace Stays

variable {Q : α → Cursor → Prop} {R : β → Cursor → Prop} {p : Parse α}
  {f : α → Parse β}

theorem of_ok (h : Stays u Q p c) {a : α} (hrun : p c = .ok a d) :
    Among u d ∧ Q a d := by
  unfold Stays at h
  rwa [hrun] at h

theorem of_error (h : Stays u Q p c) {e : Unit} (hrun : p c = .error e d) :
    Lost u d ∨ Stuck u d := by
  unfold Stays at h
  rwa [hrun] at h

theorem bind (hp : Stays u Q p c) (hcareful : Careful p)
    (hf : ∀ a d, Later c d → Among u d → Q a d → Stays u R (f a) d) :
    Stays u R (p >>= f) c := by
  unfold Stays
  cases hrun : p c with
  | ok a d =>
      obtain ⟨hd, ha⟩ := hp.of_ok hrun
      rw [bind_of_ok hrun]
      exact hf a d (hcareful.later_ok hrun) hd ha
  | error e d =>
      rw [bind_of_error hrun]
      exact hp.of_error hrun

theorem imp {Q' : α → Cursor → Prop} (hp : Stays u Q p c)
    (h : ∀ a d, Among u d → Q a d → Q' a d) : Stays u Q' p c := by
  unfold Stays
  cases hrun : p c with
  | ok a d =>
      obtain ⟨hd, ha⟩ := hp.of_ok hrun
      exact ⟨hd, h a d hd ha⟩
  | error e d => exact hp.of_error hrun

theorem pure {a : α} (hc : Among u c) (ha : Q a c) :
    Stays u Q (pure a) c :=
  ⟨hc, ha⟩

theorem skip_bind {f : Unit → Parse β} (hf : Stays u R (f ()) c.advance) :
    Stays u R (Parse.skip >>= f) c :=
  hf

theorem blame_bind {fault : Fault} {f : Unit → Parse β}
    (hf : Stays u R (f ()) (c.blame fault s)) :
    Stays u R (Parse.blame fault s >>= f) c :=
  hf

theorem eat_bind {f : Bool → Parse α} {k : Token.Kind}
    (ht : c.kind = k → Stays u Q (f true) c.advance)
    (hf : c.kind ≠ k → Stays u Q (f false) c) :
    Stays u Q (Parse.eat k >>= f) c := by
  unfold Stays
  by_cases hk : c.kind = k
  · rw [bind_eq (eat_eq hk)]
    exact ht hk
  · rw [bind_eq (eat_eq_false hk)]
    exact hf hk

section

variable (hu : Plain u) (hc : Among u c)

include hu hc

theorem expected (what : String) :
    Stays u Q (Parse.expected what : Parse α) c :=
  .inr (hc.stuck_here hu _)

theorem tooDeep : Stays u Q (Parse.tooDeep : Parse α) c :=
  hc.tooDeep hu

theorem expect {k : Token.Kind} (hk : k ≠ .punct .semicolon)
    (what : String) :
    Stays u (fun s d => Behind u d s) (Parse.expect k what) c := by
  show Stays u _ (Parse.eat k >>= fun there => _) c
  refine eat_bind (fun h => ?_) fun _ => expected hu hc what
  exact pure (hc.advance hu (h ▸ hk)) (hc.behind_here hu)

theorem identifier (what : String) :
    Stays u (fun x d => Behind u d x.span) (Parse.identifier what) c :=
  (expect hu hc (by simp) what).bind (.expect _ what)
    fun _ _ _ hd hs => pure hd hs

/-- A token of a kind that is not there. -/
theorem expect_never {k : Token.Kind} (hk : c.kind ≠ k) (what : String) :
    Stays u (fun _ _ => False) (Parse.expect k what) c := by
  show Stays u _ (Parse.eat k >>= fun there => _) c
  exact eat_bind (fun h => absurd h hk) fun _ => expected hu hc what

/-- Without braces, no block is read. -/
theorem block (n : Nat) (inside : Bool) :
    Stays u (fun _ _ => False) (block n inside) c := by
  unfold Tree.block
  cases n with
  | zero => exact tooDeep hu hc
  | succ n =>
      exact (expect_never hu hc (hc.kind_ne hu).2.1 _).bind (.expect _ _)
        fun _ _ _ _ h => h.elim

omit hu in
/-- Giving up behind an error about what was passed over. -/
theorem blame_throw (hs : Behind u c s) (f : Fault) :
    Stays u Q (Parse.blame f s >>= fun _ => throw () : Parse α) c :=
  .inr (hc.blame hs f).stuck

omit hc in
theorem separated (hp : ∀ {c}, Among u c → Stays u (fun _ _ => True) p c)
    (hcareful : Careful p) (bound : Nat) (hc : Among u c) :
    Stays u (fun _ _ => True) (Parse.separated p bound) c := by
  have last (x : α) {c : Cursor} (hc : Among u c) :
      Stays u (fun _ _ => True) (Pure.pure [x] : Parse (List α)) c :=
    pure hc trivial
  induction bound generalizing c with
  | zero => exact (hp hc).bind hcareful fun x d _ hd _ => last x hd
  | succ bound ih =>
      refine (hp hc).bind hcareful fun x d _ hd _ =>
        eat_bind (fun hk => ?_) fun _ => last x hd
      refine (ih (hd.advance hu (by simp [hk]))).bind
        (.separated hcareful bound) fun xs d' _ hd' _ => pure hd' trivial

end

-- ========================================================= expressions

mutual

theorem expression (hu : Plain u) (n : Nat) {c : Cursor} (hc : Among u c) :
    Stays u (fun e d => Behind u d e.span) (expression n) c := by
  unfold Tree.expression
  cases n with
  | zero => exact tooDeep hu hc
  | succ n => exact assignment hu n hc
termination_by n * 8

theorem primary (hu : Plain u) (n : Nat) {c : Cursor} (hc : Among u c) :
    Stays u (fun e d => Behind u d e.span) (primary n) c := by
  unfold Tree.primary
  show Stays u _ (match c.atom? with | some e => _ | none => _) c
  cases hatom : c.atom? with
  | some e =>
      have hk : c.kind ≠ .punct .semicolon := by
        intro hk
        unfold Cursor.atom? at hatom
        rw [hk] at hatom
        cases hatom
      refine skip_bind (pure (hc.advance hu hk) ?_)
      rw [Cursor.span_of_atom? hatom]
      exact hc.behind_here hu
  | none =>
      refine eat_bind (fun hk => ?_) fun _ => expected hu hc _
      refine (expression hu n (hc.advance hu (by simp [hk]))).bind
        (.expression n) fun inner d hlater hd _ => ?_
      refine (expect hu hd (by simp) _).bind (.expect _ _)
        fun close d' hlater' hd' hclose => pure hd' ?_
      exact ((hc.behind_here hu).later (hlater.trans hlater')).join hclose
termination_by n * 8 + 1

theorem calls (hu : Plain u) (n : Nat) {callee : Expr} {c : Cursor}
    (hc : Among u c)
    (hcallee : Behind u c callee.span) :
    Stays u (fun e d => Behind u d e.span) (calls n callee) c := by
  rw [calls_eq_bind]
  show Stays u _ (if c.kind = .punct .leftParen then _ else _) c
  split
  case isFalse => exact pure hc hcallee
  case isTrue hk =>
      cases n with
      | zero => exact tooDeep hu hc
      | succ n =>
          exact callBehind hu n (hc.advance hu (by simp [hk]))
            (hcallee.later (.advance c))
termination_by n * 8 + 1

theorem callBehind (hu : Plain u) (n : Nat) {callee : Expr} {c : Cursor}
    (hc : Among u c) (hcallee : Behind u c callee.span) :
    Stays u (fun e d => Behind u d e.span) (callBehind n callee) c := by
  have behind (args : List Expr) {c : Cursor} (hc : Among u c)
      (hcallee : Behind u c callee.span) :
      Stays u (fun e d => Behind u d e.span) (do
        let close ← Parse.expect (.punct .rightParen) "')' after arguments"
        Tree.calls n (.call (callee.span.join close) callee args)) c :=
    (expect hu hc (by simp) _).bind (.expect _ _)
      fun close d hlater hd hclose =>
        calls hu n hd ((hcallee.later hlater).join hclose)
  show Stays u _ (if c.kind = .punct .rightParen then _ else _) c
  split
  case isTrue => exact behind [] hc hcallee
  case isFalse =>
      exact (separated hu (fun hc => (expression hu n hc).imp
        fun _ _ _ _ => trivial) (.expression n) _ hc).bind
          (.separated (.expression n) _)
          fun args d hlater hd _ => behind args hd (hcallee.later hlater)
termination_by n * 8 + 7

theorem callChain (hu : Plain u) (n : Nat) {c : Cursor} (hc : Among u c) :
    Stays u (fun e d => Behind u d e.span) (callChain n) c := by
  unfold Tree.callChain
  exact (primary hu n hc).bind (.primary n)
    fun callee d _ hd hcallee => calls hu n hd hcallee
termination_by n * 8 + 2

theorem unary (hu : Plain u) (n : Nat) {c : Cursor} (hc : Among u c) :
    Stays u (fun e d => Behind u d e.span) (unary n) c := by
  unfold Tree.unary
  show Stays u _ (match unaryOperator? c.kind with
    | some op => _
    | none => _) c
  cases hop : unaryOperator? c.kind with
  | none => exact callChain hu n hc
  | some op =>
      have hk : c.kind ≠ .punct .semicolon := by
        intro hk
        rw [hk] at hop
        cases hop
      have hskip := hc.advance hu hk
      refine skip_bind ?_
      cases n with
      | zero => exact tooDeep hu hskip
      | succ n =>
          refine (unary hu n hskip).bind (.unary n)
            fun operand d hlater hd hoperand => pure hd ?_
          exact ((hc.behind_here hu).later hlater).join hoperand
termination_by n * 8 + 3

theorem operators (hu : Plain u) (n least : Nat) {lhs : Expr} {c : Cursor}
    (hc : Among u c) (hlhs : Behind u c lhs.span) :
    Stays u (fun e d => Behind u d e.span) (operators n least lhs) c := by
  unfold Tree.operators
  show Stays u _ (match binaryOperator? c.kind with
    | some (op, precedence) => _
    | none => _) c
  cases hop : binaryOperator? c.kind with
  | none => exact pure hc hlhs
  | some o =>
      have hk : c.kind ≠ .punct .semicolon := by
        intro hk
        rw [hk] at hop
        cases hop
      dsimp only
      split
      case isTrue => exact pure hc hlhs
      case isFalse =>
          cases n with
          | zero => exact tooDeep hu hc
          | succ n =>
              refine skip_bind ?_
              refine (binary hu n _ (hc.advance hu hk)).bind (.binary n _)
                fun rhs d hlater hd hrhs => operators hu n least hd ?_
              exact (hlhs.later ((Later.advance c).trans hlater)).join hrhs
termination_by n * 8 + 1

theorem binary (hu : Plain u) (n least : Nat) {c : Cursor} (hc : Among u c) :
    Stays u (fun e d => Behind u d e.span) (binary n least) c := by
  unfold Tree.binary
  exact (unary hu n hc).bind (.unary n)
    fun lhs d _ hd hlhs => operators hu n least hd hlhs
termination_by n * 8 + 4

theorem assignment (hu : Plain u) (n : Nat) {c : Cursor} (hc : Among u c) :
    Stays u (fun e d => Behind u d e.span) (assignment n) c := by
  unfold Tree.assignment
  refine (binary hu n 1 hc).bind (.binary n 1)
    fun target d _ hd htarget => eat_bind (fun hk => ?_)
      fun _ => pure hd htarget
  have hskip := hd.advance hu (by simp [hk])
  cases n with
  | zero => exact tooDeep hu hskip
  | succ n =>
      refine (assignment hu n hskip).bind (.assignment n)
        fun value d' hlater hd' hvalue => ?_
      have htarget := htarget.later ((Later.advance d).trans hlater)
      cases target with
      | ident span name => exact pure hd' (htarget.join hvalue)
      | _ => exact blame_throw hd' htarget _
termination_by n * 8 + 5

end

theorem something (hu : Plain u) (n : Nat) (hc : Among u c) :
    Stays u (fun _ _ => True) (some <$> Tree.expression n) c :=
  (expression hu n hc).bind (.expression n) fun _ _ _ hd _ =>
    pure hd trivial

-- ========================================================== statements

theorem parameter (hu : Plain u) (seen : List Ident) (hc : Among u c) :
    Stays u (fun _ _ => True) (parameter seen) c := by
  unfold Tree.parameter
  refine (identifier hu hc _).bind (.identifier _) fun x d _ hd hx => ?_
  dsimp only
  split
  case isTrue => exact blame_bind (pure (hd.blame hx _) trivial)
  case isFalse => exact pure hd trivial

theorem parameters (hu : Plain u) (seen : List Ident) (bound : Nat)
    (hc : Among u c) :
    Stays u (fun _ _ => True) (parameters seen bound) c := by
  induction bound generalizing c seen with
  | zero => exact parameter hu seen hc
  | succ bound ih =>
      refine (parameter hu seen hc).bind (.parameter seen)
        fun seen d _ hd _ => eat_bind (fun hk => ?_)
          fun _ => pure hd trivial
      exact ih seen (hd.advance hu (by simp [hk]))

/-- Without braces, no function is read. -/
theorem function (hu : Plain u) (n : Nat) (start : Span) (hc : Among u c) :
    Stays u (fun _ _ => False) (function n start) c := by
  have behind (name : Ident) (params : List Ident) {c : Cursor}
      (hc : Among u c) : Stays u (fun _ _ => False) (do
        let _ ← Parse.expect (.punct .rightParen) "')' after parameters"
        let body ← Tree.block n true
        return .function ⟨name, params, body, start.join body.span⟩ :
          Parse Stmt) c :=
    (expect hu hc (by simp) _).bind (.expect _ _) fun _ _ _ hd _ =>
      (block hu hd n true).bind (.block n true) fun _ _ _ _ h => h.elim
  unfold Tree.function
  refine (identifier hu hc _).bind (.identifier _) fun name d _ hd _ =>
    (expect hu hd (by simp) _).bind (.expect _ _) fun _ d _ hd _ => ?_
  show Stays u _ (if d.kind = .punct .rightParen then _ else _) d
  split
  case isTrue => exact behind name [] hd
  case isFalse =>
      exact (parameters hu [] _ hd).bind (.parameters [] _)
        fun params d _ hd _ => behind name params hd

/-- The end of a statement that is not there. -/
theorem terminator (hu : Plain u) (hc : Among u c)
    (hk : c.kind ≠ .punct .semicolon) (behind : String) :
    Stays u (fun _ _ => False) (terminator behind) c := by
  unfold Tree.terminator
  refine eat_bind (fun h => absurd h hk) fun _ => ?_
  obtain ⟨hend, -, hbrace⟩ := hc.kind_ne hu
  show Stays u _ (if c.kind = .punct .rightBrace ∨ c.kind = .endOfInput
    then _ else _) c
  rw [if_neg (not_or.2 ⟨hbrace, hend⟩)]
  exact expected hu hc _

end Stays

end Tree

end Script
