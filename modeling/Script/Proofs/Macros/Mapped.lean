/-
The shifts of a line are a map back to the written line. The map is
monotone and ends where the written line does. On what was copied it is
one to one, and leads each byte to an equal one; what is put for a word is
mapped to where the word begins.

That the map is monotone can be read off the shifts alone: each leads at
most to where the next one begins to lead (`Shift.Leads`). The rest is said
piece by piece. A byte of the line is in one piece only, and one of the new
line is put for one piece only (`Falls.unique`).
-/
import Mathlib.Order.Monotone.Basic
import Script.Proofs.Macros.Bytes
import Script.Proofs.Macros.Shifts

namespace Script

open Text

-- ================================================================= order

namespace Shift

variable {s t : Shift} {shifts : List Shift} {x y : Nat}

/-- A shift in front of another one. Where the other one begins, it leads
no further than that one does. -/
structure Leads (s t : Shift) : Prop where
  derived : s.derived ≤ t.derived
  apply : s.apply t.derived.toNat ≤ t.origin

/-- A shift that begins no later than another one, and at no later
place. -/
def Precedes (s t : Shift) : Prop :=
  s.derived ≤ t.derived ∧ s.origin ≤ t.origin

instance : DecidableRel Precedes :=
  fun s t => inferInstanceAs (Decidable (s.derived ≤ t.derived ∧ _))

instance : IsTrans Shift Precedes :=
  ⟨fun _ _ _ h h' => ⟨UInt32.le_trans h.1 h'.1, h.2.trans h'.2⟩⟩

theorem apply_mono (s : Shift) (h : x ≤ y) : s.apply x ≤ s.apply y := by
  unfold Shift.apply
  split
  · omega
  · exact Nat.le_refl _

theorem Leads.precedes (h : s.Leads t) : s.Precedes t :=
  ⟨h.derived, (s.origin_le_apply _).trans h.apply⟩

/-- In a row where each shift leads to the next one, those further on begin
no earlier, and at no earlier places. -/
theorem pairwise_precedes (h : shifts.IsChain Leads) :
    shifts.Pairwise Precedes :=
  List.isChain_iff_pairwise.1 (h.imp fun _ _ => Leads.precedes)

/-- A row of shifts leads nowhere in front of where it begins to lead. -/
theorem origin_le_reach (h : (s :: shifts).IsChain Leads) (x : Nat) :
    s.origin ≤ s.reach shifts x := by
  have hle := (List.pairwise_cons.1 (pairwise_precedes h)).1
  unfold reach
  cases hfind : shifts.reverse.find? (·.derived.toNat ≤ x) with
  | none => exact s.origin_le_apply x
  | some t =>
      have ht := List.mem_reverse.1 (List.mem_of_find?_eq_some hfind)
      exact (hle t ht).2.trans (t.origin_le_apply x)

/-- A row of shifts leads no further back at places further on. -/
theorem monotone_reach (h : (s :: shifts).IsChain Leads) :
    Monotone (s.reach shifts) := by
  intro x y hxy
  induction shifts generalizing s with
  | nil => exact s.apply_mono hxy
  | cons t shifts ih =>
      obtain ⟨hlead, hrest⟩ := List.isChain_cons_cons.1 h
      by_cases hx : t.derived.toNat ≤ x
      · rw [reach_cons_of_le hx, reach_cons_of_le (hx.trans hxy)]
        exact ih hrest
      -- the shift in front is in force at the first place
      have hlater := (List.pairwise_cons.1 (pairwise_precedes hrest)).1
      have hfirst : s.reach (t :: shifts) x = s.apply x :=
        reach_of_lt (List.forall_mem_cons.2 ⟨Nat.lt_of_not_le hx,
          fun u hu => (Nat.lt_of_not_le hx).trans_le (hlater u hu).1⟩)
      by_cases hy : t.derived.toNat ≤ y
      · rw [hfirst, reach_cons_of_le hy]
        calc s.apply x
          _ ≤ s.apply t.derived.toNat := s.apply_mono (Nat.le_of_not_le hx)
          _ ≤ t.origin := hlead.apply
          _ ≤ t.reach shifts y := origin_le_reach hrest y
      · have hsecond : s.reach (t :: shifts) y = s.apply y :=
          reach_of_lt (List.forall_mem_cons.2 ⟨Nat.lt_of_not_le hy,
            fun u hu => (Nat.lt_of_not_le hy).trans_le (hlater u hu).1⟩)
        rw [hfirst, hsecond]
        exact s.apply_mono hxy

end Shift

namespace Clean

variable {ms : Macros} {derived origin x y k k' : Nat} {line : List Char}
  {ps qs rs qs' rs' : List (List Char)} {p p' : List Char}
  {f : List Char → List Char} {o : LineOrigin}

/-- The shifts of pieces are a row, with a verbatim shift in front of them
that leads to where the pieces begin. -/
theorem isChain_expandPieces {s : Shift} (hs : s.verbatim = true)
    (hle : s.derived.toNat ≤ derived) (horigin : s.apply derived = origin)
    (hfit : Fits ms derived ps) :
    (s :: (expandPieces ms derived origin ps).shifts).IsChain
      Shift.Leads := by
  induction ps generalizing s derived origin with
  | nil => exact List.IsChain.singleton s
  | cons p ps ih =>
      have hfit' := hfit.tail
      rw [shifts_cons]
      split
      case isTrue =>
          have hstart := hfit.toNat
          have hstop := hfit'.toNat
          refine List.isChain_cons_cons.2 ⟨⟨?_, ?_⟩,
            List.isChain_cons_cons.2 ⟨⟨?_, Nat.le_add_right origin _⟩, ?_⟩⟩
          · rwa [UInt32.le_iff_toNat_le, hstart]
          · rw [hstart, horigin]
          · rw [UInt32.le_iff_toNat_le, hstart, hstop]
            exact Nat.le_add_right ..
          · exact ih rfl hstop.le (Shift.apply_start hstop) hfit'
      case isFalse hp =>
          rw [put_of_not_isSome hp] at hfit' ⊢
          exact ih hs (Nat.le_add_right_of_le hle)
            (Shift.apply_add hs hle horigin _) hfit'

theorem isChain_expand
    (hfit : byteLength (expand ms line).text < UInt32.size) :
    ((⟨0, 0, true⟩ : Shift) :: (expand ms line).shifts).IsChain
      Shift.Leads := by
  have hstart : Shift.apply ⟨0, 0, true⟩ 0 = 0 := rfl
  rw [expand_eq]
  exact isChain_expandPieces rfl (Nat.le_refl 0) hstart (fits_pieces hfit)

theorem monotone_mapOffset (ho : o.shifts = (expand ms line).shifts)
    (hfit : byteLength (expand ms line).text < UInt32.size) :
    Monotone o.mapOffset := by
  rw [funext (Shift.mapOffset_eq_reach o), ho]
  exact Shift.monotone_reach (isChain_expand hfit)

-- ================================================================ pieces

/-- Something is put together for pieces, and the byte at an offset in it
falls on one piece, with others in front and some bytes into what is put
for it. -/
structure Falls (f : List Char → List Char) (ps : List (List Char))
    (x : Nat) (qs : List (List Char)) (p : List Char) (k : Nat) : Prop where
  isPrefix : qs ++ [p] <+: ps
  inside : k < byteLength (f p)
  offset : x = byteLength (qs.flatMap f) + k

theorem exists_falls (h : x < byteLength (ps.flatMap f)) :
    ∃ qs p k, Falls f ps x qs p k := by
  induction ps generalizing x with
  | nil => exact absurd h (Nat.not_lt_zero x)
  | cons p ps ih =>
      rw [List.flatMap_cons, byteLength_append] at h
      by_cases hx : x < byteLength (f p)
      · exact ⟨[], p, x, List.prefix_append [p] ps, hx, (Nat.zero_add x).symm⟩
      · obtain ⟨qs, q, k, hprefix, hk, hoffset⟩ :=
          ih (x := x - byteLength (f p)) (by omega)
        refine ⟨p :: qs, q, k, (List.prefix_cons_inj p).2 hprefix, hk, ?_⟩
        rw [List.flatMap_cons, byteLength_append]
        omega

/-- Behind the piece that a byte falls on there is nothing in front of
it. -/
theorem Falls.length_le (h : Falls f ps x qs p k)
    (h' : Falls f ps x qs' p' k') : qs'.length ≤ qs.length := by
  by_contra hlt
  obtain ⟨rest, rfl⟩ : qs ++ [p] <+: qs' :=
    List.prefix_of_prefix_length_le h.isPrefix
      ((List.prefix_append qs' [p']).trans h'.isPrefix) (by simp; omega)
  have hx := h'.offset
  have hx' := h.offset
  have hk := h.inside
  rw [List.flatMap_append, List.flatMap_append, List.flatMap_singleton,
    byteLength_append, byteLength_append] at hx
  omega

/-- A byte falls on one piece. -/
theorem Falls.unique (h : Falls f ps x qs p k)
    (h' : Falls f ps x qs' p' k') : qs = qs' ∧ p = p' ∧ k = k' := by
  have hlength : (qs ++ [p]).length = (qs' ++ [p']).length := by
    rw [List.length_append, List.length_append, List.length_singleton,
      List.length_singleton, (h'.length_le h).antisymm (h.length_le h')]
  have heq : qs ++ [p] = qs' ++ [p'] :=
    (List.prefix_of_prefix_length_le h.isPrefix h'.isPrefix
      hlength.le).eq_of_length hlength
  obtain ⟨rfl, hp⟩ := List.append_inj' heq rfl
  obtain ⟨rfl, -⟩ := List.cons.inj hp
  exact ⟨rfl, rfl, Nat.add_left_cancel (h.offset.symm.trans h'.offset)⟩

/-- The byte at an offset is one of the piece that it falls on. -/
theorem Falls.byte (h : Falls f ps x qs p k) :
    (bytes (ps.flatMap f))[x]? = (bytes (f p))[k]? := by
  obtain ⟨rs, rfl⟩ := h.isPrefix
  have hk := h.inside
  rw [← length_bytes] at hk
  rw [h.offset, List.flatMap_append, List.flatMap_append,
    List.flatMap_singleton, List.append_assoc, bytes_append, bytes_append,
    ← length_bytes, List.getElem?_append_right (Nat.le_add_right ..),
    Nat.add_sub_cancel_left, List.getElem?_append_left hk]

theorem flatMap_id_pieces (line : List Char) :
    (pieces line).flatMap id = line := by
  rw [List.flatMap_id, flatten_pieces]

theorem piece_ne_nil (h : p ∈ pieces line) : p ≠ [] := by
  fun_induction pieces line with
  | case1 => cases h
  | case2 c cs tail ih =>
      rcases List.mem_cons.1 h with rfl | h
      · exact List.cons_ne_nil c tail
      · exact ih h

/-- A byte of the new line is mapped into the piece that it is put for: to
the same byte, or to the first one if the piece is replaced. -/
theorem Falls.mapOffset (ho : o.shifts = (expand ms line).shifts)
    (hfit : byteLength (expand ms line).text < UInt32.size)
    (h : Falls ms.put (pieces line) y qs p k) :
    Falls id (pieces line) (o.mapOffset y) qs p
      (if (ms.replacement? p).isSome then 0 else k) := by
  obtain ⟨rs, hrs⟩ := h.isPrefix
  have hps : pieces line = qs ++ p :: rs := by
    rw [← hrs, List.append_assoc, List.singleton_append]
  refine ⟨h.isPrefix, ?_, ?_⟩
  · cases hr : ms.replacement? p with
    | none =>
        have hk := h.inside
        rw [Macros.put, hr] at hk
        exact hk
    | some r =>
        have hne : p ≠ [] := piece_ne_nil (hps ▸ List.mem_append_cons_self)
        obtain ⟨c, cs, rfl⟩ := List.exists_cons_of_ne_nil hne
        have hc := c.utf8Size_pos
        show 0 < byteLength (c :: cs)
        rw [byteLength_cons]
        omega
  · rw [h.offset, mapOffset_piece ho hfit hps h.inside, List.flatMap_id]

-- ================================================================== bytes

/-- Whether the byte at an offset of a line is in a word that is
replaced. -/
def Macros.Replaces (ms : Macros) (line : List Char) (x : Nat) : Prop :=
  ∃ qs p k, Falls id (pieces line) x qs p k ∧ (ms.replacement? p).isSome

/-- Whether the byte at an offset of the new line is put for a word. -/
def Macros.Inserts (ms : Macros) (line : List Char) (y : Nat) : Prop :=
  ∃ qs p k, Falls ms.put (pieces line) y qs p k
    ∧ (ms.replacement? p).isSome

/-- A byte that is not put for a word is mapped to an equal one. -/
theorem byte_mapOffset (ho : o.shifts = (expand ms line).shifts)
    (hfit : byteLength (expand ms line).text < UInt32.size)
    (hy : y < byteLength (expand ms line).text)
    (hcopied : ¬ ms.Inserts line y) :
    (bytes (expand ms line).text)[y]? = (bytes line)[o.mapOffset y]? := by
  rw [text_expand] at hy ⊢
  obtain ⟨qs, p, k, hfalls⟩ := exists_falls hy
  have hp : ¬ (ms.replacement? p).isSome :=
    fun hp => hcopied ⟨qs, p, k, hfalls, hp⟩
  have hmapped := hfalls.mapOffset ho hfit
  rw [if_neg hp] at hmapped
  calc (bytes ((pieces line).flatMap ms.put))[y]?
    _ = (bytes (ms.put p))[k]? := hfalls.byte
    _ = (bytes p)[k]? := by rw [put_of_not_isSome hp]
    _ = (bytes ((pieces line).flatMap id))[o.mapOffset y]? :=
        hmapped.byte.symm
    _ = (bytes line)[o.mapOffset y]? := by rw [flatMap_id_pieces]

/-- One byte is mapped to each byte that is not in a replaced word. -/
theorem existsUnique_mapOffset (ho : o.shifts = (expand ms line).shifts)
    (hfit : byteLength (expand ms line).text < UInt32.size)
    (hx : x < byteLength line) (hcopied : ¬ ms.Replaces line x) :
    ∃! y, y < byteLength (expand ms line).text ∧ o.mapOffset y = x := by
  rw [← flatMap_id_pieces line] at hx
  rw [text_expand]
  obtain ⟨qs, p, k, hfalls⟩ := exists_falls hx
  have hp : ¬ (ms.replacement? p).isSome :=
    fun hp => hcopied ⟨qs, p, k, hfalls, hp⟩
  have hput : Falls ms.put (pieces line)
      (byteLength (qs.flatMap ms.put) + k) qs p k :=
    ⟨hfalls.isPrefix, by rw [put_of_not_isSome hp]; exact hfalls.inside, rfl⟩
  refine ⟨byteLength (qs.flatMap ms.put) + k, ⟨?_, ?_⟩, ?_⟩
  · obtain ⟨rs, hrs⟩ := hput.isPrefix
    have hk := hput.inside
    rw [← hrs, List.flatMap_append, List.flatMap_append,
      List.flatMap_singleton, byteLength_append, byteLength_append]
    omega
  · have hmapped := hput.mapOffset ho hfit
    rw [if_neg hp] at hmapped
    rw [hmapped.offset, hfalls.offset]
  · -- another such byte falls on the same piece
    rintro y ⟨hy, rfl⟩
    obtain ⟨qs', p', k', hother⟩ := exists_falls hy
    obtain ⟨rfl, rfl, hk⟩ := (hother.mapOffset ho hfit).unique hfalls
    rw [if_neg hp] at hk
    rw [hother.offset, hk]

/-- Where no word is defined, a line stays, and there are no shifts. -/
theorem expand_of_undefined
    (h : ∀ p ∈ pieces line, ms.replacement? p = none) :
    expand ms line = ⟨line, []⟩ := by
  have hcopied {derived origin : Nat} {ps : List (List Char)}
      (h : ∀ p ∈ ps, ms.replacement? p = none) :
      expandPieces ms derived origin ps = ⟨ps.flatten, []⟩ := by
    induction ps generalizing derived origin with
    | nil => rfl
    | cons p ps ih =>
        obtain ⟨hp, hps⟩ := List.forall_mem_cons.1 h
        unfold expandPieces
        simp only [hp, ih hps, List.flatten_cons]
  rw [expand_eq, hcopied h, flatten_pieces]

/-- Replacing macros among the bytes of a line never cuts a character. Where
no word of the line is defined, nothing becomes of it, as without macros. The
shifts begin and lead within the two lines.

If the offsets in the new line fit in 32 bits, the shifts are a map back to
the line. They begin in order, and lead to places in order. The map is
monotone, and within the new line it leads nowhere behind the written one. It
leads each byte that is not put for a word to an equal one, and of each byte
that is not in a replaced word it is the place of one byte only. -/
theorem expand_maps_back (ms : Macros) (line : List Char) (file : FileId)
    (number : Nat) :
    let e := expand ms line
    let o : LineOrigin := ⟨file, number, e.shifts⟩
    expandBytes? ms line = some e
      ∧ ((∀ p ∈ pieces line, ms.replacement? p = none) →
        e = expand [] line)
      ∧ expand [] line = ⟨line, []⟩
      ∧ (∀ s ∈ e.shifts, s.derived.toNat ≤ byteLength e.text
        ∧ s.origin ≤ byteLength line)
      ∧ (byteLength e.text < UInt32.size →
        e.shifts.Pairwise Shift.Precedes
          ∧ Monotone o.mapOffset
          ∧ (∀ y ≤ byteLength e.text, o.mapOffset y ≤ byteLength line)
          ∧ (∀ y < byteLength e.text, ¬ ms.Inserts line y →
            (bytes e.text)[y]? = (bytes line)[o.mapOffset y]?)
          ∧ ∀ x < byteLength line, ¬ ms.Replaces line x →
            ∃! y, y < byteLength e.text ∧ o.mapOffset y = x) := by
  intro e o
  have hempty : expand [] line = ⟨line, []⟩ := rfl
  refine ⟨expandBytes?_eq ms line,
    fun h => (expand_of_undefined h).trans hempty.symm, hempty,
    fun _ => shifts_within_lines, fun hfit => ?_⟩
  have hmono : Monotone o.mapOffset := monotone_mapOffset rfl hfit
  have hend : o.mapOffset (byteLength e.text) = byteLength line :=
    mapOffset_end rfl hfit
  exact ⟨(List.pairwise_cons.1
      (Shift.pairwise_precedes (isChain_expand hfit))).2,
    hmono, fun _ hy => (hmono hy).trans hend.le,
    fun _ => byte_mapOffset rfl hfit, fun _ => existsUnique_mapOffset rfl hfit⟩

/-- A macro of half the length that offsets can tell, put twice: the offset of
the last shift wraps around. The shifts are out of order then, and a place in
what is put for the first name is led behind the end of the line. -/
theorem expand_wraps :
    let ms : Macros := [("A", List.replicate 2147483648 'x')]
    let e := expand ms "A A".toList
    let o : LineOrigin := ⟨0, 1, e.shifts⟩
    e.shifts = [⟨0, 0, false⟩, ⟨2147483648, 1, true⟩,
        ⟨2147483649, 2, false⟩, ⟨1, 3, true⟩]
      ∧ ¬ e.shifts.Pairwise Shift.Precedes
      ∧ 5 ≤ byteLength e.text
      ∧ o.mapOffset 5 = 7 := by
  intro ms e o
  have hpieces : pieces "A A".toList = [['A'], [' '], ['A']] := by
    decide +kernel
  have hname : ms.replacement? ['A'] = some (List.replicate 2147483648 'x') :=
    rfl
  have hspace : ms.replacement? [' '] = none := rfl
  have hlength : byteLength (List.replicate 2147483648 'x') = 2147483648 :=
    byteLength_replicate ..
  have hshifts : e.shifts = [⟨0, 0, false⟩, ⟨2147483648, 1, true⟩,
      ⟨2147483649, 2, false⟩, ⟨1, 3, true⟩] := by
    show (expand ms _).shifts = _
    rw [expand_eq, hpieces]
    simp only [expandPieces, hname, hspace, hlength]
    decide
  refine ⟨hshifts, ?_, ?_, ?_⟩
  · rw [hshifts]
    decide
  · show 5 ≤ byteLength (expand ms _).text
    rw [text_expand, hpieces, List.flatMap_cons, byteLength_append,
      Macros.put, hname, Option.getD_some, hlength]
    exact Nat.le_add_right_of_le (by decide)
  · show LineOrigin.mapOffset ⟨0, 1, e.shifts⟩ 5 = 7
    rw [hshifts]
    decide

/-- A backslash in a string takes the first byte of a longer character
along. The word behind the string is replaced, and the one at the end of a
number is not; in the string, a byte is mapped to the middle of that
character. -/
theorem expand_maps_back_escape :
    let ms : Macros := [("n", "m n".toList)]
    let line := "\"\\é\"n 1n".toList
    let o : LineOrigin := ⟨0, 1, [⟨5, 5, false⟩, ⟨8, 6, true⟩]⟩
    expandBytes? ms line = some ⟨"\"\\é\"m n 1n".toList, o.shifts⟩
      ∧ ¬ ms.Replaces line 3
      ∧ (∃! y, y < 11 ∧ o.mapOffset y = 3)
      ∧ ms.Replaces line 5 := by
  intro ms line o
  have he : expand ms line = ⟨"\"\\é\"m n 1n".toList, o.shifts⟩ := by
    decide +kernel
  have hstring : Falls id (pieces line) 3 [] "\"\\é\"".toList 3 :=
    ⟨by decide +kernel, by decide, by decide⟩
  have hword : Falls id (pieces line) 5 ["\"\\é\"".toList] ['n'] 0 :=
    ⟨by decide +kernel, by decide, by decide⟩
  have hcopied : ¬ ms.Replaces line 3 := by
    rintro ⟨qs, p, k, hfalls, hp⟩
    obtain ⟨-, rfl, -⟩ := hstring.unique hfalls
    cases hp
  obtain ⟨hbytes, -, -, -, hfits⟩ := expand_maps_back ms line 0 1
  rw [he] at hbytes hfits
  obtain ⟨-, -, -, -, hunique⟩ := hfits (by decide)
  exact ⟨hbytes, hcopied, hunique 3 (by decide) hcopied,
    _, _, _, hword, by decide⟩

end Clean

end Script
