/-
The shifts of a line lead each of its characters back. A character was
copied from the written line, or it is put for a macro, and then it comes
from where the name begins. The pieces of the line tell which (`carry`), in
what order the characters come, and what stands in the written line where
they come from; there are no shifts in that.

Shifts say the same, as far as a place can be told by one of them: the last
one that begins at the place or in front of it decides. In the induction on
the pieces that one is the shift in force (`Shift.reach`), which is a verbatim
one wherever a piece begins; what later shifts do begins behind the piece.

All that holds of a new line whose offsets fit in 32 bits. Behind those the
offsets of shifts wrap around, and a shift is in force far in front of its
piece. Only the end of a line is led no further to the front then than it
should be (`le_mapOffset_end`).
-/
import Script.Proofs.Macros.Words
import Script.Proofs.Places.Columns

namespace Script

open Text

-- ============================================================== shifts

/-- The place that a shift in force leads to, or the last one of some
shifts that begins at the place or in front of it. -/
def Shift.reach (s : Shift) (shifts : List Shift) (x : Nat) : Nat :=
  ((shifts.reverse.find? (·.derived.toNat ≤ x)).getD s).apply x

namespace Shift

variable {s t : Shift} {shifts : List Shift} {x : Nat}

theorem mapOffset_eq_reach (o : LineOrigin) (x : Nat) :
    o.mapOffset x = reach ⟨0, 0, true⟩ o.shifts x := by
  unfold LineOrigin.mapOffset reach
  cases o.shifts.reverse.find? (·.derived.toNat ≤ x) with
  | some s => rfl
  | none => simp [apply]

theorem reach_of_lt (h : ∀ t ∈ shifts, x < t.derived.toNat) :
    s.reach shifts x = s.apply x := by
  have hnone : shifts.reverse.find? (·.derived.toNat ≤ x) = none := by
    refine List.find?_eq_none.2 fun t ht => ?_
    simpa using h t (List.mem_reverse.1 ht)
  rw [reach, hnone]
  rfl

/-- A shift that begins in front of a place is in force there, unless a
later one is. -/
theorem reach_cons_of_le (h : t.derived.toNat ≤ x) :
    s.reach (t :: shifts) x = t.reach shifts x := by
  unfold reach
  rw [List.reverse_cons, List.find?_append,
    List.find?_cons_of_pos (by simpa using h)]
  cases shifts.reverse.find? (·.derived.toNat ≤ x) <;> rfl

/-- A verbatim shift leads on byte for byte. -/
theorem apply_add {derived origin : Nat} (hs : s.verbatim = true)
    (hle : s.derived.toNat ≤ derived) (h : s.apply derived = origin)
    (n : Nat) :
    s.apply (derived + n) = origin + n := by
  rw [apply, if_pos hs] at h ⊢
  omega

theorem origin_le_apply (s : Shift) (x : Nat) : s.origin ≤ s.apply x := by
  unfold Shift.apply
  split
  · exact Nat.le_add_right ..
  · exact Nat.le_refl _

/-- Offsets are kept as far as they fit. -/
theorem toNat_ofNat_le (n : Nat) : (UInt32.ofNat n).toNat ≤ n := by
  rw [UInt32.toNat_ofNat']
  exact Nat.mod_le ..

/-- A verbatim shift leads the place where it begins to its origin. -/
theorem apply_start {n origin : Nat} (h : (UInt32.ofNat n).toNat = n) :
    apply ⟨.ofNat n, origin, true⟩ n = origin := by
  rw [apply, if_pos rfl, h, Nat.sub_self]
  rfl

end Shift

namespace Clean

variable {ms : Macros} {place derived origin : Nat} {cs line : List Char}
  {ps qs rs : List (List Char)} {p : List Char}

-- =============================================================== pieces

/-- What is put for pieces that begin at an offset ends at one that fits in
32 bits. -/
def Fits (ms : Macros) (derived : Nat) (ps : List (List Char)) : Prop :=
  derived + byteLength (ps.flatMap ms.put) < UInt32.size

/-- Where the pieces begin, the offset is kept. -/
theorem Fits.toNat (h : Fits ms derived ps) :
    (UInt32.ofNat derived).toNat = derived :=
  UInt32.toNat_ofNat_of_lt' (Nat.lt_of_add_right_lt h)

theorem Fits.tail (h : Fits ms derived (p :: ps)) :
    Fits ms (derived + byteLength (ms.put p)) ps := by
  unfold Fits at h ⊢
  rwa [List.flatMap_cons, byteLength_append, ← Nat.add_assoc] at h

/-- A piece that is replaced brings two shifts. -/
theorem shifts_cons (ms : Macros) (derived origin : Nat) (p : List Char)
    (ps : List (List Char)) :
    let derivedNext := derived + byteLength (ms.put p)
    let originNext := origin + byteLength p
    let rest := (expandPieces ms derivedNext originNext ps).shifts
    (expandPieces ms derived origin (p :: ps)).shifts
      = if (ms.replacement? p).isSome then
          ⟨derived, origin, false⟩ :: ⟨derivedNext, originNext, true⟩ :: rest
        else rest := by
  unfold Macros.put
  rw [expandPieces]
  cases ms.replacement? p <;> rfl

theorem put_of_not_isSome (h : ¬ (ms.replacement? p).isSome) :
    ms.put p = p := by
  rw [Macros.put, Option.not_isSome_iff_eq_none.1 h, Option.getD_none]

/-- The shifts of pieces begin where the pieces do, or behind. -/
theorem le_of_mem_shifts {s : Shift} (hfit : Fits ms derived ps)
    (h : s ∈ (expandPieces ms derived origin ps).shifts) :
    derived ≤ s.derived.toNat := by
  induction ps generalizing derived origin with
  | nil => cases h
  | cons p ps ih =>
      have hrest (h : s ∈ (expandPieces ms (derived + byteLength (ms.put p))
          (origin + byteLength p) ps).shifts) : derived ≤ s.derived.toNat :=
        Nat.le_of_add_right_le (ih hfit.tail h)
      rw [shifts_cons] at h
      split at h
      case isTrue =>
          rcases List.mem_cons.1 h with rfl | h
          · exact hfit.toNat.ge
          rcases List.mem_cons.1 h with rfl | h
          · exact hfit.tail.toNat.symm ▸ Nat.le_add_right ..
          · exact hrest h
      case isFalse => exact hrest h

/-- The shifts of pieces begin in what is put for the pieces or behind it,
and lead into the pieces or behind them. -/
theorem shifts_within {s : Shift}
    (h : s ∈ (expandPieces ms derived origin ps).shifts) :
    s.derived.toNat ≤ derived + byteLength (ps.flatMap ms.put)
      ∧ s.origin ≤ origin + byteLength ps.flatten := by
  induction ps generalizing derived origin with
  | nil => cases h
  | cons p ps ih =>
      rw [List.flatMap_cons, List.flatten_cons, byteLength_append,
        byteLength_append, ← Nat.add_assoc, ← Nat.add_assoc]
      rw [shifts_cons] at h
      split at h
      case isTrue =>
          rcases List.mem_cons.1 h with rfl | h
          · have := Shift.toNat_ofNat_le derived
            exact ⟨by dsimp only; omega, by dsimp only; omega⟩
          rcases List.mem_cons.1 h with rfl | h
          · have := Shift.toNat_ofNat_le (derived + byteLength (ms.put p))
            exact ⟨Nat.le_add_right_of_le this, Nat.le_add_right ..⟩
          · exact ih h
      case isFalse => exact ih h

theorem shifts_within_lines {s : Shift} (h : s ∈ (expand ms line).shifts) :
    s.derived.toNat ≤ byteLength (expand ms line).text
      ∧ s.origin ≤ byteLength line := by
  rw [expand_eq] at h
  have := shifts_within h
  rwa [Nat.zero_add, Nat.zero_add, ← text_expand, flatten_pieces] at this

/-- With a verbatim shift in force where the pieces begin, the shifts of
the pieces lead each byte of what is put for a piece to the same byte of
the piece, or to where the piece begins if it is replaced. -/
theorem reach_expandPieces {s : Shift} (hs : s.verbatim = true)
    (hle : s.derived.toNat ≤ derived) (horigin : s.apply derived = origin)
    (hfit : Fits ms derived ps) (hps : ps = qs ++ p :: rs) {k : Nat}
    (hk : k < byteLength (ms.put p)) :
    s.reach (expandPieces ms derived origin ps).shifts
        (derived + (byteLength (qs.flatMap ms.put) + k))
      = origin + byteLength qs.flatten
        + if (ms.replacement? p).isSome then 0 else k := by
  subst hps
  induction qs generalizing s derived origin with
  | nil =>
      simp only [List.nil_append, List.flatMap_nil, byteLength_nil,
        Nat.zero_add, List.flatten_nil, Nat.add_zero]
      have hlt := Nat.add_lt_add_left hk derived
      have hlater : ∀ u ∈ (expandPieces ms (derived + byteLength (ms.put p))
          (origin + byteLength p) rs).shifts, derived + k < u.derived.toNat :=
        fun u hu => Nat.lt_of_lt_of_le hlt (le_of_mem_shifts hfit.tail hu)
      rw [shifts_cons]
      split
      case isTrue =>
          -- the first of the two shifts is in force
          rw [Shift.reach_cons_of_le (hfit.toNat.symm ▸ Nat.le_add_right ..)]
          refine Shift.reach_of_lt (List.forall_mem_cons.2 ⟨?_, hlater⟩)
          rwa [hfit.tail.toNat]
      case isFalse =>
          -- no shift begins in the piece
          rw [Shift.reach_of_lt hlater]
          exact Shift.apply_add hs hle horigin k
  | cons q qs ih =>
      have hfit' : Fits ms (derived + byteLength (ms.put q))
        (qs ++ p :: rs) := hfit.tail
      rw [List.cons_append, List.flatMap_cons, List.flatten_cons,
        byteLength_append, byteLength_append, Nat.add_assoc, ← Nat.add_assoc,
        ← Nat.add_assoc origin, shifts_cons]
      split
      case isTrue =>
          -- the second one of these shifts goes on behind the name
          rw [Shift.reach_cons_of_le (by rw [hfit.toNat]; omega),
            Shift.reach_cons_of_le (by rw [hfit'.toNat]; omega)]
          exact ih rfl hfit'.toNat.le (Shift.apply_start hfit'.toNat) hfit'
      case isFalse hq =>
          rw [put_of_not_isSome hq] at hfit' ⊢
          exact ih hs (Nat.le_add_right_of_le hle)
            (Shift.apply_add hs hle horigin _) hfit'

/-- The pieces of a line whose new line fits. -/
theorem fits_pieces (hfit : byteLength (expand ms line).text < UInt32.size) :
    Fits ms 0 (pieces line) := by
  rwa [text_expand, ← Nat.zero_add (byteLength _)] at hfit

theorem reach_expand {o : LineOrigin}
    (ho : o.shifts = (expand ms line).shifts) (x : Nat) :
    Shift.reach ⟨0, 0, true⟩ (expandPieces ms 0 0 (pieces line)).shifts x
      = o.mapOffset x := by
  rw [← expand_eq, ← ho, Shift.mapOffset_eq_reach]

/-- The origin of a line maps what is put for its pieces. -/
theorem mapOffset_piece {o : LineOrigin}
    (ho : o.shifts = (expand ms line).shifts)
    (hfit : byteLength (expand ms line).text < UInt32.size)
    (hps : pieces line = qs ++ p :: rs) {k : Nat}
    (hk : k < byteLength (ms.put p)) :
    o.mapOffset (byteLength (qs.flatMap ms.put) + k)
      = byteLength qs.flatten
        + if (ms.replacement? p).isSome then 0 else k := by
  have hstart : Shift.apply ⟨0, 0, true⟩ 0 = 0 := rfl
  have := reach_expandPieces rfl (Nat.le_refl 0) hstart (fits_pieces hfit)
    hps hk
  rwa [Nat.zero_add, Nat.zero_add, reach_expand ho] at this

/-- The place where the pieces end is led no further to the front than behind
the pieces, and exactly there if it fits. It is behind all shifts, even where
their offsets wrap around. -/
theorem reach_end (ms : Macros) (ps : List (List Char)) {s : Shift}
    (hs : s.verbatim = true) (hle : s.derived.toNat ≤ derived)
    (horigin : origin ≤ s.apply derived) :
    let place := s.reach (expandPieces ms derived origin ps).shifts
      (derived + byteLength (ps.flatMap ms.put))
    origin + byteLength ps.flatten ≤ place
      ∧ (Fits ms derived ps → s.apply derived = origin →
        place = origin + byteLength ps.flatten) := by
  induction ps generalizing s derived origin with
  | nil => exact ⟨horigin, fun _ h => h⟩
  | cons p ps ih =>
      rw [shifts_cons, List.flatMap_cons, List.flatten_cons,
        byteLength_append, byteLength_append, ← Nat.add_assoc,
        ← Nat.add_assoc]
      have hstop : derived + byteLength (ms.put p)
          ≤ derived + byteLength (ms.put p)
            + byteLength (ps.flatMap ms.put) := Nat.le_add_right ..
      split
      case isTrue =>
          have hfirst := Shift.toNat_ofNat_le derived
          have hsecond := Shift.toNat_ofNat_le
            (derived + byteLength (ms.put p))
          rw [Shift.reach_cons_of_le (by dsimp only; omega),
            Shift.reach_cons_of_le (by dsimp only; omega)]
          obtain ⟨hbehind, hexact⟩ := ih rfl hsecond
            (Shift.origin_le_apply ⟨_, origin + byteLength p, true⟩ _)
          exact ⟨hbehind, fun hfit _ => hexact hfit.tail
            (Shift.apply_start hfit.tail.toNat)⟩
      case isFalse hp =>
          rw [put_of_not_isSome hp]
          have hnext := Shift.apply_add hs hle rfl (byteLength p)
          obtain ⟨hbehind, hexact⟩ := ih hs
            (Nat.le_add_right_of_le hle)
            (hnext.symm ▸ Nat.add_le_add_right horigin _)
          refine ⟨hbehind, fun hfit h => hexact ?_ (by rw [hnext, h])⟩
          have := hfit.tail
          rwa [put_of_not_isSome hp] at this

/-- The origin of a line maps the place behind it no further to the front
than behind the written line. -/
theorem le_mapOffset_end {o : LineOrigin}
    (ho : o.shifts = (expand ms line).shifts) :
    byteLength line ≤ o.mapOffset (byteLength (expand ms line).text) := by
  have hstart : 0 ≤ Shift.apply ⟨0, 0, true⟩ 0 := Nat.le_refl 0
  have := (reach_end ms (pieces line) rfl (Nat.le_refl 0) hstart).1
  rwa [reach_expand ho, flatten_pieces, Nat.zero_add, Nat.zero_add,
    ← text_expand] at this

/-- The origin of a line maps the place behind it to the one behind the
written line. -/
theorem mapOffset_end {o : LineOrigin}
    (ho : o.shifts = (expand ms line).shifts)
    (hfit : byteLength (expand ms line).text < UInt32.size) :
    o.mapOffset (byteLength (expand ms line).text) = byteLength line := by
  have hstart : 0 ≤ Shift.apply ⟨0, 0, true⟩ 0 := Nat.le_refl 0
  have := (reach_end ms (pieces line) rfl (Nat.le_refl 0) hstart).2
    (fits_pieces hfit) rfl
  rwa [reach_expand ho, flatten_pieces, Nat.zero_add, Nat.zero_add,
    ← text_expand] at this

-- =========================================================== characters

/-- A character of a cleaned line: the place in the written text where it
comes from, and the name that it is put for, unless it was copied. -/
structure Carried where
  char : Char
  place : Nat
  name? : Option (List Char)
deriving DecidableEq, Repr

/-- What stands where a character comes from: the character, or the name
that it is put for. -/
def Carried.From (ms : Macros) (t : Carried) (behind : List Char) : Prop :=
  match t.name? with
  | none => [t.char] <+: behind
  | some name =>
      name <+: behind ∧ ∃ r, ms.replacement? name = some r ∧ t.char ∈ r

/-- What a character was made of, with more behind it. -/
theorem Carried.From.append {ms : Macros} {t : Carried} {behind : List Char}
    (h : t.From ms behind) (more : List Char) : t.From ms (behind ++ more) := by
  unfold From at h ⊢
  split at h
  · exact h.trans (List.prefix_append ..)
  · exact ⟨h.1.trans (List.prefix_append ..), h.2⟩

/-- The characters of a text that begins at a place. -/
def copied (place : Nat) : List Char → List Carried
  | [] => []
  | c :: cs => ⟨c, place, none⟩ :: copied (place + c.utf8Size) cs

/-- What is put for pieces that begin at a place. -/
def carryPieces (ms : Macros) (place : Nat) :
    List (List Char) → List Carried
  | [] => []
  | p :: ps =>
      (match ms.replacement? p with
        | none => copied place p
        | some r => r.map (⟨·, place, some p⟩))
      ++ carryPieces ms (place + byteLength p) ps

/-- The characters of a line with its macros replaced; the written line
begins at a place. -/
def carry (ms : Macros) (place : Nat) (line : List Char) : List Carried :=
  carryPieces ms place (pieces line)

variable {front back : List Carried} {t : Carried}

theorem char_copied (place : Nat) (cs : List Char) :
    (copied place cs).map (·.char) = cs := by
  induction cs generalizing place with
  | nil => rfl
  | cons c cs ih => rw [copied, List.map_cons, ih]

theorem char_carryPieces (ms : Macros) (place : Nat)
    (ps : List (List Char)) :
    (carryPieces ms place ps).map (·.char) = ps.flatMap ms.put := by
  induction ps generalizing place with
  | nil => rfl
  | cons p ps ih =>
      rw [carryPieces, List.map_append, ih, List.flatMap_cons]
      congr 1
      unfold Macros.put
      cases ms.replacement? p with
      | none => exact char_copied place p
      | some r => simp [Function.comp_def]

theorem char_carry (ms : Macros) (place : Nat) (line : List Char) :
    (carry ms place line).map (·.char) = (expand ms line).text := by
  rw [text_expand, carry, char_carryPieces]

/-- A character that is copied stands where it comes from. -/
theorem split_copied (h : copied place cs = front ++ t :: back) :
    t.name? = none ∧ ∃ before behind, cs = before ++ t.char :: behind
      ∧ front.map (·.char) = before ∧ place + byteLength before = t.place := by
  induction front generalizing place cs with
  | nil =>
      cases cs with
      | nil => cases h
      | cons c cs =>
          obtain ⟨rfl, -⟩ := List.cons.inj h
          exact ⟨rfl, [], cs, rfl, rfl, rfl⟩
  | cons u front ih =>
      cases cs with
      | nil => cases h
      | cons c cs =>
          obtain ⟨rfl, hrest⟩ := List.cons.inj h
          obtain ⟨hname, before, behind, rfl, hfront, hplace⟩ := ih hrest
          refine ⟨hname, c :: before, behind, rfl, ?_, ?_⟩
          · rw [List.map_cons, hfront]
          · rw [byteLength_cons, ← Nat.add_assoc, hplace]

/-- What is put for a piece, with a character of it: how many bytes are in
front of it tells where it comes from, and there is what it was made of. -/
theorem split_piece (h : carryPieces ms place [p] = front ++ t :: back) :
    let k := byteLength (front.map (·.char))
    k < byteLength (ms.put p)
      ∧ t.place = place + (if (ms.replacement? p).isSome then 0 else k)
      ∧ ∃ before behind, p = before ++ behind
        ∧ place + byteLength before = t.place ∧ t.From ms behind := by
  intro k
  have hchars := congrArg (List.map (·.char)) h
  rw [char_carryPieces, List.flatMap_singleton, List.map_append,
    List.map_cons] at hchars
  refine ⟨?_, ?_⟩
  · have hc := t.char.utf8Size_pos
    rw [hchars, byteLength_append, byteLength_cons]
    omega
  rw [carryPieces, carryPieces, List.append_nil] at h
  cases hr : ms.replacement? p with
  | none =>
      rw [hr] at h
      obtain ⟨hname, before, behind, rfl, hfront, hplace⟩ := split_copied h
      refine ⟨?_, before, t.char :: behind, rfl, hplace, ?_⟩
      · rw [← hplace, ← hfront]
        rfl
      · simp [Carried.From, hname]
  | some r =>
      rw [hr] at h
      dsimp only at h
      obtain ⟨c, hc, rfl⟩ : ∃ c ∈ r, ⟨c, place, some p⟩ = t :=
        List.mem_map.1 (by rw [h]; simp)
      exact ⟨rfl, [], p, rfl, rfl, List.prefix_rfl, r, hr, hc⟩

/-- A character that is put for pieces is put for one of them. -/
theorem split_pieces (h : carryPieces ms place ps = front ++ t :: back) :
    ∃ qs p rs inner rest, ps = qs ++ p :: rs
      ∧ front = carryPieces ms place qs ++ inner
      ∧ carryPieces ms (place + byteLength qs.flatten) [p]
        = inner ++ t :: rest := by
  induction ps generalizing place front with
  | nil => simp [carryPieces] at h
  | cons p ps ih =>
      rw [carryPieces] at h
      rcases cut_append h with ⟨rest, hpiece, -⟩ | ⟨front', rfl, hrest⟩
      · refine ⟨[], p, ps, front, rest, rfl, rfl, ?_⟩
        rw [carryPieces, carryPieces, List.append_nil]
        exact hpiece
      · obtain ⟨qs, q, rs, inner, rest, rfl, rfl, hpiece⟩ := ih hrest
        refine ⟨p :: qs, q, rs, inner, rest, rfl, ?_, ?_⟩
        · rw [carryPieces, List.append_assoc]
        · rw [List.flatten_cons, byteLength_append, ← Nat.add_assoc]
          exact hpiece

/-- The origin of a line maps each of its characters to where it comes
from. -/
theorem mapOffset_carry {o : LineOrigin}
    (ho : o.shifts = (expand ms line).shifts)
    (hfit : byteLength (expand ms line).text < UInt32.size)
    (h : carry ms place line = front ++ t :: back) :
    place + o.mapOffset (byteLength (front.map (·.char))) = t.place := by
  obtain ⟨qs, p, rs, inner, rest, hps, rfl, hpiece⟩ := split_pieces h
  obtain ⟨hk, hplace, -⟩ := split_piece hpiece
  rw [List.map_append, char_carryPieces, byteLength_append,
    mapOffset_piece ho hfit hps hk, hplace, Nat.add_assoc]

/-- Where a character of a line comes from there is what it was made
of. -/
theorem from_carry (h : carry ms place line = front ++ t :: back) :
    ∃ before behind, line = before ++ behind
      ∧ place + byteLength before = t.place ∧ t.From ms behind := by
  obtain ⟨qs, p, rs, inner, rest, hps, -, hpiece⟩ := split_pieces h
  obtain ⟨-, -, before, behind, rfl, hplace, hfrom⟩ := split_piece hpiece
  refine ⟨qs.flatten ++ before, behind ++ rs.flatten, ?_, ?_,
    hfrom.append rs.flatten⟩
  · rw [← flatten_pieces line, hps, List.flatten_append, List.flatten_cons]
    simp only [List.append_assoc]
  · rw [byteLength_append, ← Nat.add_assoc, hplace]

end Clean

end Script
