/-
Reading what is there. A cursor that faces the tokens of a derivation is
taken through them by the readers; here is what the small readers do at
such a cursor, and how readings are put together. The only way to fail is
a nesting that is too deep, which then is among the reports.
-/
import Script.Proofs.Grammar.Care
import Script.Proofs.Grammar.Over

namespace Script.Tree

open Grammar

/-- A cursor without an error in front of the tokens `seg`, with a token
of kind `next` behind them. -/
structure Facing (c : Cursor) (seg : List Token) (next : Token.Kind) :
    Prop where
  rest : ∃ rest, c.rest = seg ++ rest ∧ firstKind .endOfInput rest = next
  ordered : Ordered c.rest
  clean : c.lastErrorAt = none

namespace Facing

variable {c d : Cursor} {l r seg : List Token} {t : Token}
  {next : Token.Kind}

theorem left (h : Facing c (l ++ r) next) :
    Facing c l (firstKind next r) := by
  obtain ⟨rest, hrest, rfl⟩ := h.rest
  refine ⟨⟨r ++ rest, by rw [hrest, List.append_assoc], ?_⟩,
    h.ordered, h.clean⟩
  cases r <;> rfl

theorem behind (h : Facing c (l ++ r) next) (hover : Over c l d) :
    Facing d r next := by
  obtain ⟨rest, hrest, hnext⟩ := h.rest
  refine ⟨⟨rest, ?_, hnext⟩, (hover.ordered h.ordered).2,
    hover.lastErrorAt.trans h.clean⟩
  rw [hover.rest, List.append_assoc] at hrest
  exact List.append_cancel_left hrest

theorem ordered_seg (h : Facing c seg next) : Ordered seg := by
  obtain ⟨rest, hrest, -⟩ := h.rest
  have hc := h.ordered
  rw [hrest] at hc
  exact hc.of_append.1

theorem kind (h : Facing c seg next) : c.kind = firstKind next seg := by
  obtain ⟨rest, hrest, rfl⟩ := h.rest
  unfold Cursor.kind
  rw [hrest]
  cases seg with
  | nil => cases rest <;> rfl
  | cons t ts => rfl

theorem kind_cons (h : Facing c (t :: seg) next) : c.kind = t.kind :=
  h.kind

theorem kind_behind (h : Facing c seg next) (hover : Over c seg d) :
    d.kind = next := by
  rw [← List.append_nil seg] at h
  exact (h.behind hover).kind

theorem over_advance (h : Facing c (t :: seg) next) :
    Over c [t] c.advance := by
  obtain ⟨rest, hrest, -⟩ := h.rest
  exact Cursor.over_advance hrest

theorem advance (h : Facing c (t :: seg) next) :
    Facing c.advance seg next :=
  behind (l := [t]) h h.over_advance

theorem here (h : Facing c (t :: seg) next) : c.here = t.span :=
  h.over_advance.here

theorem word (h : Facing c (t :: seg) next) : c.word = t.text :=
  h.over_advance.word

/-- There are at least as many tokens left as are faced. -/
theorem length_le (h : Facing c seg next) :
    seg.length ≤ c.rest.length := by
  obtain ⟨rest, hrest, -⟩ := h.rest
  rw [hrest, List.length_append]
  exact Nat.le_add_right ..

end Facing

-- ======================================================= small readers

variable {c : Cursor} {t : Token} {seg : List Token} {next : Token.Kind}

theorem bind_eq {α β : Type} {p : Parse α} {f : α → Parse β} {d : Cursor}
    {a : α} (h : p c = .ok a d) : (p >>= f) c = f a d := by
  show EStateM.bind p f c = _
  unfold EStateM.bind
  rw [h]

theorem get_bind {α : Type} {f : Cursor → Parse α} :
    (get >>= f) c = f c c := rfl

theorem kind_bind {α : Type} {f : Token.Kind → Parse α} :
    (Parse.kind >>= f) c = f c.kind c := rfl

theorem here_bind {α : Type} {f : Span → Parse α} :
    (Parse.here >>= f) c = f c.here c := rfl

theorem skip_bind {α : Type} {f : Unit → Parse α} :
    (Parse.skip >>= f) c = f () c.advance := rfl

theorem tokensLeft_bind {α : Type} {f : Nat → Parse α} :
    (Parse.tokensLeft >>= f) c = f c.rest.length c := rfl

theorem eat_eq {k : Token.Kind} (h : c.kind = k) :
    Parse.eat k c = .ok true c.advance := by
  show (if c.kind = k then _ else _ : Parse Bool) c = _
  rw [if_pos h]
  rfl

theorem eat_eq_false {k : Token.Kind} (h : c.kind ≠ k) :
    Parse.eat k c = .ok false c := by
  show (if c.kind = k then _ else _ : Parse Bool) c = _
  rw [if_neg h]
  rfl

theorem expect_eq {k : Token.Kind} {what : String} (h : c.kind = k) :
    Parse.expect k what c = .ok c.here c.advance := by
  show (Parse.eat k >>= fun b => if b then _ else _ : Parse Span) c = _
  rw [bind_eq (eat_eq h)]
  rfl

theorem identifier_eq {what : String} (hc : Facing c (t :: seg) next)
    (ht : t.kind = .identifier) :
    Parse.identifier what c = .ok t.ident c.advance := by
  show (Parse.expect .identifier what >>= fun _ => _ : Parse Ident) c = _
  rw [bind_eq (expect_eq (hc.kind.trans ht)), hc.word, hc.here]
  rfl

-- ============================================================ readings

/-- A reading that passes over the tokens `seg` and goes on as `f`, or
that finds the nesting too deep and gives up. -/
def GoesOn {α : Type} (r : EStateM.Result Unit Cursor α)
    (f : Nat → Parse α) (c : Cursor) (seg : List Token) : Prop :=
  (∃ n d, r = f n d ∧ Over c seg d) ∨ ∃ d, r = .error () d ∧ d.IsDeep

/-- A reading that passes over the tokens `seg` and returns `a`, or that
finds the nesting too deep and gives up. -/
def Yields {α : Type} (r : EStateM.Result Unit Cursor α) (a : α)
    (c : Cursor) (seg : List Token) : Prop :=
  GoesOn r (fun _ => pure a) c seg

theorem Yields.of_ok {α : Type} {a : α} {d : Cursor} (h : Over c seg d) :
    Yields (.ok a d) a c seg :=
  .inl ⟨0, d, rfl, h⟩

theorem yields_iff {α : Type} {r : EStateM.Result Unit Cursor α} {a : α} :
    Yields r a c seg ↔ (∃ d, r = .ok a d ∧ Over c seg d)
      ∨ ∃ d, r = .error () d ∧ d.IsDeep :=
  or_congr ⟨fun ⟨_, d, h⟩ => ⟨d, h⟩, fun ⟨d, h⟩ => ⟨0, d, h⟩⟩ .rfl

/-- A reading behind tokens that were passed over before. -/
theorem GoesOn.after {α : Type} {r : EStateM.Result Unit Cursor α}
    {f : Nat → Parse α} {d : Cursor} {l : List Token} (h : GoesOn r f d seg)
    (hover : Over c l d) : GoesOn r f c (l ++ seg) :=
  h.imp_left fun ⟨n, e, h, hover'⟩ => ⟨n, e, h, hover.trans hover'⟩

/-- A reading goes on where the reading in front of it ends. -/
theorem GoesOn.bind {α β : Type} {p : Parse α} {f : α → Parse β} {a : α}
    {g : Nat → Parse β} {c' : Cursor} {l : List Token}
    (hp : Yields (p c') a c l)
    (hf : ∀ d, Over c l d → GoesOn (f a d) g c seg) :
    GoesOn ((p >>= f) c') g c seg := by
  rcases yields_iff.1 hp with ⟨d, h, hover⟩ | ⟨d, h, hdeep⟩
  · rw [bind_eq h]
    exact hf d hover
  · refine .inr ⟨d, ?_, hdeep⟩
    show EStateM.bind p f c' = _
    unfold EStateM.bind
    rw [h]

theorem Yields.map {α β : Type} {p : Parse α} {a : α} {c' : Cursor}
    (hp : Yields (p c') a c seg) (g : α → β) :
    Yields ((g <$> p) c') (g a) c seg :=
  GoesOn.bind hp fun _ hover => Yields.of_ok hover

/-- A reading that goes on is followed to its end. -/
theorem GoesOn.trans {α : Type} {r : EStateM.Result Unit Cursor α}
    {f g : Nat → Parse α} {l : List Token} (h : GoesOn r f c l)
    (hf : ∀ n d, Over c l d → GoesOn (f n d) g c seg) :
    GoesOn r g c seg := by
  rcases h with ⟨n, d, rfl, hover⟩ | hdeep
  · exact hf n d hover
  · exact .inr hdeep

theorem Cursor.isDeep_blame (hc : c.lastErrorAt = none) (span : Span) :
    (c.blame .tooDeep span).IsDeep := by
  unfold Cursor.blame
  rw [hc, if_neg (Option.some_ne_none _).symm]
  exact ⟨span, Array.mem_push_self⟩

/-- The first thing that is wrong is reported. -/
theorem goesOn_tooDeep {α : Type} {f : Nat → Parse α} {d : Cursor}
    (hc : c.lastErrorAt = none) : GoesOn (Parse.tooDeep c) f d seg :=
  .inr ⟨_, rfl, (Later.skipGroup _).isDeep (c.isDeep_blame hc c.here)⟩

end Script.Tree
