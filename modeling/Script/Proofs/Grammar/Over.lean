/-
Reading over tokens. A reading that finishes has passed over a run of
tokens; this file says what is left of the cursor then, and which tokens
the small readers pass over.
-/
import Script.Proofs.Action
import Script.Proofs.Grammar.Order
import Script.Tree.Statement

namespace Script.Tree

open Grammar Script.Action

/-- `d` is where the cursor `c` is behind the tokens `seg`, with no
error on the way. -/
structure Over (c : Cursor) (seg : List Token) (d : Cursor) : Prop where
  rest : c.rest = seg ++ d.rest
  previous : d.previous = lastSpan c.previous seg
  endOfInput : d.endOfInput = c.endOfInput
  lastErrorAt : d.lastErrorAt = c.lastErrorAt

namespace Over

variable {c d e : Cursor} {l r seg : List Token}

theorem refl (c : Cursor) : Over c [] c := ⟨rfl, rfl, rfl, rfl⟩

theorem trans (h : Over c l d) (h' : Over d r e) : Over c (l ++ r) e where
  rest := by rw [h.rest, h'.rest, List.append_assoc]
  previous := by rw [h'.previous, h.previous, lastSpan_append]
  endOfInput := h'.endOfInput.trans h.endOfInput
  lastErrorAt := h'.lastErrorAt.trans h.lastErrorAt

/-- The kind in front of a run of tokens. -/
theorem kind (h : Over c seg d) : c.kind = firstKind d.kind seg := by
  unfold Cursor.kind
  rw [h.rest]
  cases seg <;> rfl

theorem ordered (h : Over c seg d) (hc : Ordered c.rest) :
    Ordered seg ∧ Ordered d.rest := by
  rw [h.rest] at hc
  exact hc.of_append

theorem here {t : Token} (h : Over c (t :: seg) d) : c.here = t.span := by
  unfold Cursor.here
  rw [h.rest]
  rfl

theorem word {t : Token} (h : Over c (t :: seg) d) : c.word = t.text := by
  unfold Cursor.word
  rw [h.rest]
  rfl

/-- The span from the start of a run of tokens to where it ends. -/
theorem join_previous {t : Token} (h : Over c (t :: seg) d) :
    t.span.join d.previous = cover (t :: seg) := by
  rw [h.previous]
  rfl

end Over

variable {c d : Cursor}

/-- A cursor in front of a token that is not the end of input. -/
theorem Cursor.exists_of_kind {k : Token.Kind} (hk : c.kind = k)
    (hend : k ≠ .endOfInput) : ∃ t ts, c.rest = t :: ts ∧ t.kind = k := by
  unfold Cursor.kind at hk
  split at hk
  case h_1 t ts h => exact ⟨t, ts, h, hk⟩
  case h_2 => exact absurd hk.symm hend

theorem Cursor.over_advance {t : Token} {ts : List Token}
    (h : c.rest = t :: ts) : Over c [t] c.advance := by
  unfold Cursor.advance
  rw [h]
  exact ⟨h, rfl, rfl, rfl⟩

theorem kind_ok {k : Token.Kind} (h : Parse.kind c = .ok k d) :
    c.kind = k ∧ c = d := by
  cases h
  exact ⟨rfl, rfl⟩

theorem here_ok {s : Span} (h : Parse.here c = .ok s d) :
    c.here = s ∧ c = d := by
  cases h
  exact ⟨rfl, rfl⟩

theorem tokensLeft_ok {n : Nat} (h : Parse.tokensLeft c = .ok n d) :
    c.rest.length = n ∧ c = d := by
  cases h
  exact ⟨rfl, rfl⟩

theorem skip_ok {u : Unit} (h : Parse.skip c = .ok u d) :
    c.advance = d := by
  cases h
  rfl

theorem spanFrom_ok {start s : Span}
    (h : Parse.spanFrom start c = .ok s d) :
    start.join c.previous = s ∧ c = d := by
  cases h
  exact ⟨rfl, rfl⟩

theorem expected_ok {α : Type} {what : String} {a : α}
    (h : Parse.expected what c = .ok a d) : False :=
  nomatch h

theorem tooDeep_ok {α : Type} {a : α}
    (h : Parse.tooDeep c = .ok a d) : False :=
  nomatch h

/-- A token is taken exactly if it is of the kind asked for. -/
theorem eat_ok {k : Token.Kind} {b : Bool} (hend : k ≠ .endOfInput)
    (h : Parse.eat k c = .ok b d) :
    (b = true ∧ ∃ t, t.kind = k ∧ Over c [t] d)
      ∨ (b = false ∧ c.kind ≠ k ∧ c = d) := by
  obtain ⟨k', e, hkind, h⟩ := bind_ok.1 h
  obtain ⟨rfl, rfl⟩ := kind_ok hkind
  split at h
  case isTrue hk =>
      obtain ⟨u, e', hskip, h⟩ := bind_ok.1 h
      obtain rfl := skip_ok hskip
      obtain ⟨rfl, rfl⟩ := pure_ok.1 h
      obtain ⟨t, ts, hrest, ht⟩ := Cursor.exists_of_kind hk hend
      exact .inl ⟨rfl, t, ht, Cursor.over_advance hrest⟩
  case isFalse hk =>
      obtain ⟨rfl, rfl⟩ := pure_ok.1 h
      exact .inr ⟨rfl, hk, rfl⟩

theorem expect_ok {k : Token.Kind} {what : String} {s : Span}
    (hend : k ≠ .endOfInput) (h : Parse.expect k what c = .ok s d) :
    ∃ t, t.kind = k ∧ s = t.span ∧ Over c [t] d := by
  obtain ⟨s', e, hhere, h⟩ := bind_ok.1 h
  obtain ⟨rfl, rfl⟩ := here_ok hhere
  obtain ⟨b, e', heat, h⟩ := bind_ok.1 h
  rcases eat_ok hend heat with ⟨rfl, t, ht, hover⟩ | ⟨rfl, -, -⟩
  · obtain ⟨rfl, rfl⟩ := pure_ok.1 h
    exact ⟨t, ht, hover.here, hover⟩
  · exact (expected_ok h).elim

theorem identifier_ok {what : String} {x : Ident}
    (h : Parse.identifier what c = .ok x d) :
    ∃ t : Token, t.kind = .identifier ∧ x = t.ident ∧ Over c [t] d := by
  obtain ⟨c', e, hget, h⟩ := bind_ok.1 h
  obtain ⟨rfl, rfl⟩ := get_ok.1 hget
  obtain ⟨s, e', hexpect, h⟩ := bind_ok.1 h
  obtain ⟨rfl, rfl⟩ := pure_ok.1 h
  obtain ⟨t, ht, rfl, hover⟩ := expect_ok (by simp) hexpect
  exact ⟨t, ht, by rw [hover.word]; rfl, hover⟩

end Script.Tree
