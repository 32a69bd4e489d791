/-
The spans of a tree are exact. Each piece of the tree that a text is read
as reaches from its first token to its last, whatever errors there are in
the text. The pieces nest as the tree does, those with one parent stand
one behind the other, and a name is spelled where its span says.

The tokens of a piece are those of its rule in the grammar with gaps. All
the rest follows from the tokens being in order.
-/
import Script.Proofs.Grammar.Sound.Gaps
import Script.Proofs.Places.Outline
import Script.Proofs.Places.Tokens
import Script.Proofs.Reading.Whole

namespace Script

open Grammar

-- ======================================================= runs of tokens

/-- Whether a span reaches from the start of the first token of a run to
the end of the last one. -/
def Span.Reaches (s : Span) (seg : List Token) : Prop :=
  ∃ first last, seg.head? = some first ∧ seg.getLast? = some last
    ∧ s.file = first.span.file ∧ s.start = first.span.start
    ∧ s.stop = last.span.stop

namespace Grammar

variable {seg l : List Token} {t first last : Token}

theorem Ordered.of_infix (h : Ordered seg) (hl : l <:+: seg) : Ordered l :=
  List.Pairwise.sublist hl.sublist h

/-- No token starts in front of the first one. -/
theorem Ordered.head_le (h : Ordered seg) (hfirst : seg.head? = some first)
    (ht : t ∈ seg) : first.span.file = t.span.file
      ∧ first.span.start ≤ t.span.start := by
  cases seg with
  | nil => cases hfirst
  | cons u us =>
      cases hfirst
      rcases List.mem_cons.1 ht with rfl | ht
      · exact ⟨rfl, Nat.le_refl _⟩
      · obtain ⟨hfile, hstart, -⟩ := List.rel_of_pairwise_cons h ht
        exact ⟨hfile, Nat.le_of_lt hstart⟩

/-- No token ends behind the last one. -/
theorem Ordered.le_last (h : Ordered seg) (hlast : seg.getLast? = some last)
    (ht : t ∈ seg) : t.span.stop ≤ last.span.stop := by
  obtain ⟨us, rfl⟩ := List.getLast?_eq_some_iff.1 hlast
  rcases List.mem_append.1 ht with ht | ht
  · obtain ⟨-, -, hstop⟩ :=
      (List.pairwise_append.1 h).2.2 t ht last (List.mem_singleton_self _)
    exact Nat.le_trans hstop last.span.start_le_stop
  · rw [List.mem_singleton.1 ht]

theorem lastSpan_eq (t : Token) (ts : List Token) :
    ∃ u, (t :: ts).getLast? = some u ∧ lastSpan t.span ts = u.span := by
  induction ts generalizing t with
  | nil => exact ⟨t, rfl, rfl⟩
  | cons t' ts ih =>
      obtain ⟨u, hu, hlast⟩ := ih t'
      exact ⟨u, by rw [List.getLast?_cons_cons, hu], hlast⟩

theorem reaches_cover (h : Ordered seg) (hne : seg ≠ []) :
    (cover seg).Reaches seg := by
  obtain ⟨t, ts, rfl⟩ := List.exists_cons_of_ne_nil hne
  obtain ⟨u, hu, hlast⟩ := lastSpan_eq t ts
  refine ⟨t, u, rfl, hu, ?_⟩
  have htu := h.le_last hu (List.mem_cons_self ..)
  rw [cover_eq h, hlast]
  refine ⟨rfl, rfl, Span.stop_between ?_⟩
  exact Nat.le_trans t.span.start_le_stop htu

end Grammar

namespace Span.Reaches

variable {seg l r : List Token} {s s' : Span}

/-- A run of tokens reaches as far as each run in it. -/
theorem contains (h : Ordered seg) (hs : s.Reaches seg)
    (hl : l <:+: seg) (hs' : s'.Reaches l) : s.contains s' = true := by
  obtain ⟨t, u, ht, hu, hfile, hstart, hstop⟩ := hs
  obtain ⟨t', u', ht', hu', hfile', hstart', hstop'⟩ := hs'
  obtain ⟨hfiles, hle⟩ :=
    h.head_le ht (hl.subset (List.mem_of_mem_head? ht'))
  have hge := h.le_last hu (hl.subset (List.mem_of_getLast? hu'))
  unfold Span.contains
  rw [hfile, hfile', hfiles, hstart, hstart', hstop, hstop']
  simp [hle, hge]

/-- Runs of tokens one behind the other. -/
theorem before (h : Ordered (l ++ r)) (hs : s.Reaches l)
    {r' : List Token} (hr : r' <:+: r) (hs' : s'.Reaches r') :
    s.Before s' := by
  obtain ⟨t, u, ht, hu, hfile, hstart, hstop⟩ := hs
  obtain ⟨t', u', ht', hu', hfile', hstart', -⟩ := hs'
  have ht' := hr.subset (List.mem_of_mem_head? ht')
  have hbetween := (List.pairwise_append.1 h).2.2
  obtain ⟨hfiles, hlt, -⟩ := hbetween t (List.mem_of_mem_head? ht) t' ht'
  obtain ⟨-, -, hle⟩ := hbetween u (List.mem_of_getLast? hu) t' ht'
  refine ⟨?_, ?_, ?_⟩
  · rw [hfile, hfile', hfiles]
  · rw [hstart, hstart']
    exact hlt
  · rw [hstop, hstart']
    exact hle

end Span.Reaches

-- =============================================================== pieces

namespace Grammar

variable {P : Outline → Prop} {seg : List Token} {o : Outline}
  {os : List Outline}

mutual

/-- What holds of every piece over a run of the tokens. -/
theorem Laid.all {seg : List Token} {o : Outline}
    (hP : ∀ {l : List Token} {p : Outline}, l <:+: seg → Laid l p → P p) :
    Laid seg o → o.All P
  | .name ht =>
      .mk (hP (List.infix_refl _) (.name ht)) (List.forall_mem_nil _)
  | .node hseg hparts =>
      .mk (hP (List.infix_refl _) (.node hseg hparts)) (hparts.all hP)

theorem LaidParts.all {seg : List Token} {os : List Outline}
    (hP : ∀ {l : List Token} {p : Outline}, l <:+: seg → Laid l p → P p) :
    LaidParts seg os → ∀ p ∈ os, p.All P
  | .nil => List.forall_mem_nil _
  | @LaidParts.cons front seg rest _ _ ho hos =>
      List.forall_mem_cons.2
        ⟨ho.all fun hl => hP (hl.trans ⟨front, rest, by simp⟩),
          hos.all fun hl => hP (hl.trans ⟨front ++ seg, [], by simp⟩)⟩

end

/-- A part takes a run of the tokens. -/
theorem LaidParts.exists_run {seg : List Token} {os : List Outline}
    (h : LaidParts seg os) :
    ∀ p ∈ os, ∃ l, l <:+: seg ∧ Laid l p := by
  match h with
  | .nil => exact List.forall_mem_nil _
  | @LaidParts.cons front l rest _ _ ho hos =>
      refine List.forall_mem_cons.2 ⟨⟨l, ⟨front, rest, by simp⟩, ho⟩, ?_⟩
      intro p hp
      obtain ⟨l', hl, hp⟩ := hos.exists_run p hp
      exact ⟨l', hl.trans ⟨front ++ l, [], by simp⟩, hp⟩

theorem Laid.reaches (h : Laid seg o) (hseg : Ordered seg) :
    o.span.Reaches seg := by
  cases h with
  | name ht => exact ⟨_, _, rfl, rfl, rfl, rfl, rfl⟩
  | node hne hparts => exact reaches_cover hseg hne

/-- The parts of a piece lie in it. -/
theorem Laid.contains (h : Laid seg o) (hseg : Ordered seg) :
    ∀ p ∈ o.parts, o.span.contains p.span = true := by
  have hreaches := h.reaches hseg
  cases h with
  | name ht => exact List.forall_mem_nil _
  | node hne hparts =>
      intro p hp
      obtain ⟨l, hl, hp⟩ := hparts.exists_run p hp
      exact hreaches.contains hseg hl (hp.reaches (hseg.of_infix hl))

/-- Parts stand one behind the other. -/
theorem LaidParts.apart {seg : List Token} {os : List Outline}
    (h : LaidParts seg os) (hseg : Ordered seg) :
    os.Pairwise fun p q => p.span.Before q.span := by
  match h with
  | .nil => exact .nil
  | .cons ho hos =>
      have hseg := hseg.of_append.2
      obtain ⟨hl, hr⟩ := hseg.of_append
      refine List.pairwise_cons.2 ⟨fun q hq => ?_, hos.apart hr⟩
      obtain ⟨l, hl', hq⟩ := hos.exists_run q hq
      exact (ho.reaches hl).before hseg hl' (hq.reaches (hr.of_infix hl'))

theorem Laid.apart (h : Laid seg o) (hseg : Ordered seg) :
    o.parts.Pairwise fun p q => p.span.Before q.span := by
  cases h with
  | name ht => exact .nil
  | node hne hparts => exact hparts.apart hseg

/-- A piece that is a name is one token, an identifier. -/
theorem Laid.name_eq {x : String} (h : Laid seg o) (hx : o.name? = some x) :
    ∃ t, seg = [t] ∧ t.kind = .identifier ∧ o.span = t.span ∧ x = t.text := by
  cases h with
  | @name t ht =>
      cases hx
      exact ⟨t, rfl, ht, rfl, rfl⟩
  | node => cases hx

end Grammar

-- ============================================================ spelling

/-- Whether the bytes of a span in a text are those of a word. -/
def Span.Spells (text : String) (s : Span) (word : String) : Prop :=
  ∃ before behind, text = before ++ word ++ behind
    ∧ before.utf8ByteSize = s.start ∧ word.utf8ByteSize = s.length

namespace Token

open Text

/-- The token of a lexeme is written as the lexeme is. -/
theorem items_token {file : FileId} {offset : Nat} {c : Char} {l : Lexeme}
    {t : Token} (h : Item.token t ∈ l.items file offset c) :
    t.text = String.ofList (c :: l.tail)
      ∧ t.span = ⟨file, offset, byteLength (c :: l.tail)⟩ := by
  rcases List.mem_append.1 h with h | h
  · obtain ⟨p, -, hp⟩ := List.mem_map.1 h
    cases hp
  · have h := List.mem_singleton.1 h
    split at h
    · cases h
      exact ⟨rfl, rfl⟩
    · cases h

/-- The tokens that are found in a text stand where their spans say. -/
theorem Scanned.spelled {file : FileId} {offset : Nat} {cs : List Char}
    {items : List Item} (h : Scanned file offset cs items) {t : Token}
    (ht : .token t ∈ items) :
    ∃ before behind, cs = before ++ t.text.toList ++ behind
      ∧ offset + byteLength before = t.span.start
      ∧ byteLength t.text.toList = t.span.length := by
  induction h with
  | done =>
      cases List.mem_singleton.1 ht
      exact ⟨[], [], rfl, rfl, rfl⟩
  | @space offset c cs items _ _ ih =>
      obtain ⟨before, behind, rfl, hstart, hlength⟩ := ih ht
      refine ⟨c :: before, behind, rfl, ?_, hlength⟩
      rw [← hstart, byteLength_cons, Nat.add_assoc]
  | @lexeme offset c l rest items _ _ _ ih =>
      rcases List.mem_append.1 ht with ht | ht
      · obtain ⟨htext, hspan⟩ := items_token ht
        rw [htext, hspan, String.toList_ofList]
        exact ⟨[], rest, rfl, rfl, rfl⟩
      · obtain ⟨before, behind, rfl, hstart, hlength⟩ := ih ht
        refine ⟨c :: (l.tail ++ before), behind, ?_, ?_, hlength⟩
        · simp
        · rw [← hstart, ← List.cons_append, byteLength_append, Nat.add_assoc]

/-- The tokens of a text stand in it where their spans say. -/
theorem ofText_spelled (file : FileId) (text : String) :
    ∀ t ∈ (ofText file text).1, t.span.Spells text t.text := by
  intro t ht
  obtain ⟨before, behind, htext, hstart, hlength⟩ :=
    (scanned_scan file text).spelled (mem_token.1 ht)
  refine ⟨.ofList before, .ofList behind, String.toList_inj.1 ?_, ?_, ?_⟩
  · simpa using htext
  · rw [Text.utf8ByteSize_eq, String.toList_ofList, ← hstart, Nat.zero_add]
  · rw [Text.utf8ByteSize_eq, hlength]

end Token

-- ============================================================ programs

/-- A program is derived with gaps, whatever is wrong with its text. -/
theorem Program.ofText_derived (file : FileId) (text : String) :
    Gaps.ProgramIn (Token.ofText file text).1 (ofText file text).1 := by
  obtain ⟨hordered, -, body, last, htokens, hlast, hbody⟩ :=
    Token.ofText_complete file text
  rw [ofText_eq]
  show Gaps.ProgramIn _
    (ofTokens file text.utf8ByteSize (Token.ofText file text).1).1
  rw [htokens] at hordered ⊢
  obtain ⟨hrest, hend⟩ :=
    Tree.Cursor.start_eq file text.utf8ByteSize hlast hbody
  unfold ofTokens
  generalize Tree.Cursor.start file _ (body ++ [last]) = c at *
  obtain ⟨rounds, d, hrounds, hd, hread⟩ := readFrom_whole (hrest ▸ hbody)
  obtain ⟨seg, hseg, hss⟩ := hrounds.derived
    Tree.Cursor.roundOfProgram_yields (hrest ▸ hordered.of_append.1)
  have hlater := hrounds.later fun _ _ => .roundOfProgram
  rw [hread]
  subst hrest
  rw [hd, List.append_nil] at hseg
  rw [← hseg, hrounds.kind] at hss
  dsimp only
  rw [Tree.Cursor.join_here hd hlater.endOfInput_eq hend]
  exact .mk hlast hss

/-- What is right about a piece of the tree of a text. -/
structure Outline.Placed (file : FileId) (text : String) (o : Outline) :
    Prop where
  /-- It reaches from the first token of a run to the last. -/
  reaches : ∃ seg, seg <:+: (Token.ofText file text).1
    ∧ o.span.Reaches seg
  inside : o.span.Inside file text.utf8ByteSize
  /-- Its parts lie in it. -/
  contains : ∀ p ∈ o.parts, o.span.contains p.span = true
  /-- Its parts stand one behind the other. -/
  apart : o.parts.Pairwise fun p q => p.span.Before q.span
  /-- A name is what stands in its place. -/
  spelled : ∀ x ∈ o.name?, o.span.Spells text x

/-- A piece over tokens of a text is in its place. -/
theorem Grammar.Laid.placed {file : FileId} {text : String}
    {seg : List Token} {o : Outline} (h : Laid seg o)
    (hseg : seg <:+: (Token.ofText file text).1) : o.Placed file text := by
  have hordered := (Token.ofText_complete file text).ordered.of_infix hseg
  have hreaches := h.reaches hordered
  refine ⟨⟨seg, hseg, hreaches⟩, ?_, h.contains hordered, h.apart hordered,
    fun x hx => ?_⟩
  · obtain ⟨t, u, ht, hu, hfile, -, hstop⟩ := hreaches
    have hinside := (Token.ofText_inside file text).1
    have ht := hinside t (hseg.subset (List.mem_of_mem_head? ht))
    have hu := hinside u (hseg.subset (List.mem_of_getLast? hu))
    exact ⟨hfile.trans ht.1, hstop ▸ hu.2⟩
  · obtain ⟨t, rfl, -, hspan, rfl⟩ := h.name_eq hx
    rw [hspan]
    exact Token.ofText_spelled file text t
      (hseg.subset (List.mem_singleton_self t))

/-- The spans of the tree of a text are exact and nested. The tree is
derived from the tokens of the text, gaps aside: so each of its nodes
covers the tokens of its rule, the semicolon of a statement among them.
And each piece of its outline reaches from its first token to its last,
lies in the text and holds its parts, one behind the other; a name is
spelled as the text is there. -/
theorem Program.spans_exact_and_nested (file : FileId) (text : String) :
    Gaps.ProgramIn (Token.ofText file text).1 (ofText file text).1
      ∧ (ofText file text).1.outline.All (Outline.Placed file text) := by
  have hderived := ofText_derived file text
  exact ⟨hderived, hderived.laid.all fun hl hp => hp.placed hl⟩

end Script
