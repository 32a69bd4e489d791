/-
Macros replaced among the bytes of a line. An offset moves forward over the
bytes; the byte where a piece begins tells what it is, and further bytes
are tested one by one for where it ends. Then the text between the two
offsets is cut out of the line, which is possible only if neither of them
is inside of a character.

Whatever the line, every cut is possible, and the outcome is that of
replacing piece by piece (`expandBytes?_eq`). This rests on what is
invisible in characters. No byte of a longer character passes a test, so
the byte that ends a piece is the first one of a character. A backslash in
a string takes the next byte along, which may be the first one of a longer
character; its other bytes are no quotes, and so nothing ends among them.
Or it leads behind the end of the line, and then the string ends with the
line.
-/
import Script.Proofs.Macros.Words
import Script.Proofs.Places.Checked

namespace Script

namespace Text

variable {cs front behind piece : List Char} {c : Char} {b : UInt8}
  {bs : List UInt8} {test : Char → Bool}

-- ================================================================= bytes

/-- The bytes of a text. -/
def bytes (cs : List Char) : List UInt8 := cs.flatMap String.utf8EncodeChar

theorem bytes_append (xs ys : List Char) :
    bytes (xs ++ ys) = bytes xs ++ bytes ys := List.flatMap_append

theorem bytes_cons (c : Char) (cs : List Char) :
    bytes (c :: cs) = String.utf8EncodeChar c ++ bytes cs :=
  List.flatMap_cons ..

theorem length_bytes (cs : List Char) :
    (bytes cs).length = byteLength cs := by
  induction cs with
  | nil => rfl
  | cons c cs ih =>
      rw [bytes_cons, List.length_append, String.length_utf8EncodeChar, ih,
        byteLength_cons]

/-- Whether a byte goes on with a character that began in front of it. -/
def continues (b : UInt8) : Bool := 128 ≤ b && b < 192

/-- A character is one byte, or a first byte and others that go on with
it. -/
theorem utf8EncodeChar_cases (c : Char) :
    (c.toNat < 128 ∧ String.utf8EncodeChar c = [UInt8.ofNat c.toNat])
      ∨ (128 ≤ c.toNat ∧ ∃ b bs, String.utf8EncodeChar c = b :: bs
        ∧ 192 ≤ b ∧ ∀ d ∈ bs, continues d = true) := by
  have hlead {n : Nat} (h : 192 ≤ n ∧ n < 256) : 192 ≤ UInt8.ofNat n := by
    rw [UInt8.le_iff_toNat_le, UInt8.toNat_ofNat_of_lt' h.2]
    exact h.1
  have hnext (n : Nat) : continues (UInt8.ofNat (n % 64 + 128)) = true := by
    have hlt : n % 64 + 128 < 256 := by omega
    unfold continues
    rw [Bool.and_eq_true, decide_eq_true_eq, decide_eq_true_eq,
      UInt8.le_iff_toNat_le, UInt8.lt_iff_toNat_lt,
      UInt8.toNat_ofNat_of_lt' hlt]
    exact ⟨Nat.le_add_left .., by show _ < 192; omega⟩
  show (c.val.toNat < 128 ∧ _ = [UInt8.ofNat c.val.toNat])
    ∨ (128 ≤ c.val.toNat ∧ _)
  unfold String.utf8EncodeChar
  dsimp only
  by_cases h1 : c.val.toNat ≤ 127
  · rw [if_pos h1]
    exact .inl ⟨by omega, rfl⟩
  · rw [if_neg h1]
    refine .inr ⟨by omega, ?_⟩
    split
    · refine ⟨_, _, rfl, hlead (by omega), ?_⟩
      exact List.forall_mem_singleton.2 (hnext _)
    · split
      · refine ⟨_, _, rfl, hlead (by omega), ?_⟩
        exact List.forall_mem_cons.2
          ⟨hnext _, List.forall_mem_singleton.2 (hnext _)⟩
      · refine ⟨_, _, rfl, hlead (by omega), ?_⟩
        exact List.forall_mem_cons.2 ⟨hnext _, List.forall_mem_cons.2
          ⟨hnext _, List.forall_mem_singleton.2 (hnext _)⟩⟩

/-- Whether a test is passed by characters of a single byte only. -/
def Ascii (test : Char → Bool) : Prop :=
  ∀ c, test c = true → c.toNat < 128

/-- No byte of a longer character passes a test. -/
theorem Ascii.of_le (h : Ascii test) (hb : 128 ≤ b) :
    test (.ofUInt8 b) = false := by
  refine Bool.eq_false_iff.2 fun htest => ?_
  have hlt := h _ htest
  rw [UInt8.le_iff_toNat_le] at hb
  exact absurd hlt (Nat.not_lt_of_le hb)

theorem le_of_continues (hb : continues b = true) : 128 ≤ b :=
  of_decide_eq_true (Bool.and_eq_true_iff.1 hb).1

/-- A test of a character can be made on its first byte. -/
theorem Ascii.first (h : Ascii test) (hc : String.utf8EncodeChar c = b :: bs) :
    test (.ofUInt8 b) = test c := by
  rcases utf8EncodeChar_cases c with ⟨hlt, heq⟩ | ⟨hle, b', bs', heq, hb, -⟩
  · obtain ⟨rfl, -⟩ := List.cons.inj (hc.symm.trans heq)
    congr 1
    refine Char.ext (UInt32.toNat_inj.1 ?_)
    show (UInt8.ofNat c.toNat).toNat = c.toNat
    exact UInt8.toNat_ofNat_of_lt' (Nat.lt_trans hlt (by decide))
  · obtain ⟨rfl, -⟩ := List.cons.inj (hc.symm.trans heq)
    rw [h.of_le (UInt8.le_trans (by decide) hb)]
    exact (Bool.eq_false_iff.2 fun htest => absurd (h c htest)
      (Nat.not_lt_of_le hle)).symm

/-- The bytes of a character behind its first one go on with it. -/
theorem continues_of_mem (hc : String.utf8EncodeChar c = b :: bs) :
    ∀ d ∈ bs, continues d = true := by
  rcases utf8EncodeChar_cases c with ⟨-, heq⟩ | ⟨-, b', bs', heq, -, hbs⟩
  · obtain ⟨-, rfl⟩ := List.cons.inj (hc.symm.trans heq)
    exact List.forall_mem_nil _
  · obtain ⟨-, rfl⟩ := List.cons.inj (hc.symm.trans heq)
    exact hbs

/-- No first byte of a character goes on with another one. -/
theorem not_continues (hc : String.utf8EncodeChar c = b :: bs) :
    continues b = false := by
  unfold continues
  rcases utf8EncodeChar_cases c with ⟨hlt, heq⟩ | ⟨-, b', bs', heq, hb, -⟩
  · obtain ⟨rfl, -⟩ := List.cons.inj (hc.symm.trans heq)
    have hlt' : UInt8.ofNat c.toNat < 128 := by
      rw [UInt8.lt_iff_toNat_lt,
        UInt8.toNat_ofNat_of_lt' (Nat.lt_trans hlt (by decide))]
      exact hlt
    rw [decide_eq_false (UInt8.not_le.2 hlt'), Bool.false_and]
  · obtain ⟨rfl, -⟩ := List.cons.inj (hc.symm.trans heq)
    rw [decide_eq_false (UInt8.not_lt.2 hb), Bool.and_false]

theorem exists_first (c : Char) :
    ∃ b bs, String.utf8EncodeChar c = b :: bs :=
  List.exists_cons_of_ne_nil (String.utf8EncodeChar_ne_nil)

/-- A run of characters that pass a test is a run of bytes. -/
theorem Ascii.length_takeWhile (h : Ascii test) (cs : List Char) :
    ((bytes cs).takeWhile fun b => test (.ofUInt8 b)).length
      = byteLength (cs.takeWhile test) := by
  induction cs with
  | nil => rfl
  | cons c cs ih =>
      obtain ⟨b, bs, hc⟩ := exists_first c
      rw [bytes_cons, hc, List.cons_append, List.takeWhile_cons,
        List.takeWhile_cons, h.first hc]
      by_cases htest : test c = true
      · -- the character is a single byte
        have hbs : bs = [] := by
          rcases utf8EncodeChar_cases c with ⟨-, heq⟩ | ⟨hle, -⟩
          · exact (List.cons.inj (hc.symm.trans heq)).2
          · exact absurd (h c htest) (Nat.not_lt_of_le hle)
        have hsize := String.length_utf8EncodeChar c
        rw [hc, hbs] at hsize
        rw [if_pos htest, if_pos htest, hbs, List.nil_append,
          List.length_cons, ih, byteLength_cons, ← hsize,
          List.length_singleton, Nat.add_comm]
      · rw [if_neg htest, if_neg htest]
        rfl

-- ================================================================== cuts

/-- The text in front of an offset; `none` when a character straddles
that offset or the text is shorter. -/
def takeBytes? : Nat → List Char → Option (List Char)
  | 0, _ => some []
  | _ + 1, [] => none
  | n + 1, c :: cs =>
      if c.utf8Size ≤ n + 1 then
        (takeBytes? (n + 1 - c.utf8Size) cs).map (c :: ·)
      else none

/-- The text between two offsets; `none` when they are not in order, or
when one of them is inside of a character or behind the text. -/
def slice? (start stop : Nat) (cs : List Char) : Option (List Char) := do
  let n ← minus? stop start
  takeBytes? n (← dropBytes? start cs)

theorem takeBytes?_append (xs ys : List Char) :
    takeBytes? (byteLength xs) (xs ++ ys) = some xs := by
  induction xs with
  | nil => simp [takeBytes?]
  | cons c xs ih =>
      have hc := c.utf8Size_pos
      obtain ⟨n, hn⟩ : ∃ n, c.utf8Size + byteLength xs = n + 1 :=
        ⟨c.utf8Size + byteLength xs - 1, by omega⟩
      rw [byteLength_cons, hn, List.cons_append, takeBytes?,
        if_pos (by omega), show n + 1 - c.utf8Size = byteLength xs by omega,
        ih, Option.map_some]

/-- A run of characters can be cut out. -/
theorem slice?_append (front piece behind : List Char) :
    slice? (byteLength front) (byteLength front + byteLength piece)
      (front ++ (piece ++ behind)) = some piece := by
  unfold slice?
  rw [minus?_eq (Nat.le_add_right ..), Nat.add_sub_cancel_left,
    Option.bind_eq_bind, Option.bind_some, dropBytes?_append,
    Option.bind_eq_bind, Option.bind_some, takeBytes?_append]

end Text

namespace Clean

open Text Token Spelling

-- =============================================================== offsets

/-- The first offset from `i` on where no byte passes a test. -/
def skip (test : UInt8 → Bool) (bs : List UInt8) (i : Nat) : Nat :=
  if h : i < bs.length then
    if test bs[i] then skip test bs (i + 1) else i
  else i
termination_by bs.length - i

/-- The offset of the quote that closes a string, from `i` on. A backslash
takes the next byte along. If there is no such quote, the offset is that
of the end, or one behind it. -/
def closing (bs : List UInt8) (i : Nat) : Nat :=
  if h : i < bs.length then
    let c := Char.ofUInt8 bs[i]
    if c == '"' then i
    else if c == '\\' then closing bs (i + 2)
    else closing bs (i + 1)
  else i
termination_by bs.length - i

/-- The offset where a piece ends that begins at `i` with a byte. -/
def pieceStop (bs : List UInt8) (i : Nat) (b : UInt8) : Nat :=
  let c := Char.ofUInt8 b
  if c == '"' then min (closing bs (i + 1) + 1) bs.length
  else if c.isDigit then
    skip (fun b => isNameChar (.ofUInt8 b) || Char.ofUInt8 b == '.') bs i
  else if isNameStart c then skip (fun b => isNameChar (.ofUInt8 b)) bs i
  else skip continues bs (i + 1)

variable {ms : Macros} {bs : List UInt8} {i : Nat} {b : UInt8} {c : Char}
  {cs front : List Char} {test : UInt8 → Bool}

theorem le_skip (test : UInt8 → Bool) (bs : List UInt8) (i : Nat) :
    i ≤ skip test bs i := by
  fun_induction skip test bs i with
  | case1 i h htest ih => exact Nat.le_of_succ_le ih
  | case2 => exact Nat.le_refl _
  | case3 => exact Nat.le_refl _

theorem lt_skip (h : i < bs.length) (htest : test bs[i] = true) :
    i < skip test bs i := by
  rw [skip, dif_pos h, if_pos htest]
  exact le_skip test bs (i + 1)

theorem le_closing (bs : List UInt8) (i : Nat) : i ≤ closing bs i := by
  fun_induction closing bs i with
  | case1 => exact Nat.le_refl _
  | case2 i h c hq hb ih => exact Nat.le_trans (Nat.le_add_right i 2) ih
  | case3 i h c hq hb ih => exact Nat.le_of_succ_le ih
  | case4 => exact Nat.le_refl _

theorem isNameChar_of_start (h : isNameStart c = true) :
    isNameChar c = true := by
  rw [isNameChar_iff]
  exact .inl (isNameStart_iff.1 h)

/-- A piece has at least one byte, and so the offset moves forward. -/
theorem lt_pieceStop (h : i < bs.length) : i < pieceStop bs i bs[i] := by
  unfold pieceStop
  dsimp only
  split
  · have := le_closing bs (i + 1)
    omega
  · split
    · rename_i hdigit
      refine lt_skip h (Bool.or_eq_true_iff.2 (.inl ?_))
      unfold isNameChar Char.isAlphanum
      rw [hdigit, Bool.or_true, Bool.true_or]
    · split
      · rename_i hstart
        exact lt_skip h (isNameChar_of_start hstart)
      · exact le_skip continues bs (i + 1)

-- ================================================================ pieces

/-- Skipping, by the first byte that is looked at. -/
theorem skip_step (test : UInt8 → Bool) (xs : List UInt8) (b : UInt8)
    (ys : List UInt8) : skip test (xs ++ b :: ys) xs.length =
      if test b then skip test (xs ++ b :: ys) (xs.length + 1)
      else xs.length := by
  have hlt : xs.length < (xs ++ b :: ys).length := by simp
  have hb : (xs ++ b :: ys)[xs.length] = b := List.getElem_of_append rfl rfl
  rw [skip, dif_pos hlt, hb]

/-- Skipping goes on as long as the bytes behind an offset pass. -/
theorem skip_append (test : UInt8 → Bool) (xs ys : List UInt8) :
    skip test (xs ++ ys) xs.length
      = xs.length + (ys.takeWhile test).length := by
  induction ys generalizing xs with
  | nil =>
      rw [skip, dif_neg (by simp)]
      rfl
  | cons y ys ih =>
      have hrest := ih (xs ++ [y])
      rw [List.append_assoc, List.singleton_append, List.length_append,
        List.length_singleton] at hrest
      rw [skip_step, hrest, List.takeWhile_cons]
      split
      · rw [List.length_cons, Nat.add_assoc, Nat.add_comm 1]
      · rfl

/-- The search for a quote, by the first byte that is looked at. -/
theorem closing_step (xs : List UInt8) (b : UInt8) (ys : List UInt8) :
    closing (xs ++ b :: ys) xs.length =
      if Char.ofUInt8 b == '"' then xs.length
      else if Char.ofUInt8 b == '\\' then
        closing (xs ++ b :: ys) (xs.length + 2)
      else closing (xs ++ b :: ys) (xs.length + 1) := by
  have hlt : xs.length < (xs ++ b :: ys).length := by simp
  have hb : (xs ++ b :: ys)[xs.length] = b := List.getElem_of_append rfl rfl
  rw [closing, dif_pos hlt, hb]

theorem closing_of_length_le (h : bs.length ≤ i) : closing bs i = i := by
  rw [closing, dif_neg (Nat.not_lt_of_le h)]

theorem ascii_eq {d : Char} (h : d.toNat < 128) : Ascii (· == d) := by
  intro c hc
  rw [beq_iff_eq.1 hc]
  exact h

/-- A string does not end among bytes that go on with a character. -/
theorem closing_continues {ys : List UInt8} (xs zs : List UInt8)
    (h : ∀ b ∈ ys, continues b = true) :
    closing (xs ++ (ys ++ zs)) xs.length
      = closing (xs ++ (ys ++ zs)) (xs.length + ys.length) := by
  induction ys generalizing xs with
  | nil => rfl
  | cons y ys ih =>
      obtain ⟨hy, hys⟩ := List.forall_mem_cons.1 h
      have hother {d : Char} (hd : d.toNat < 128) :
          (Char.ofUInt8 y == d) = false :=
        (ascii_eq hd).of_le (le_of_continues hy)
      have hrest := ih (xs ++ [y]) hys
      rw [List.append_assoc, List.singleton_append, List.length_append,
        List.length_singleton] at hrest
      rw [List.cons_append, closing_step, hother (by decide),
        hother (by decide), if_neg nofun, if_neg nofun, hrest,
        List.length_cons, Nat.add_assoc, Nat.add_comm 1]

/-- The search for a quote passes a character that is neither a quote nor
a backslash. -/
theorem closing_pass (xs : List UInt8) (cs : List Char) (hq : c ≠ '"')
    (hb : c ≠ '\\') : closing (xs ++ bytes (c :: cs)) xs.length
      = closing (xs ++ bytes (c :: cs)) (xs.length + c.utf8Size) := by
  obtain ⟨b, bs, hc⟩ := exists_first c
  have hsize := String.length_utf8EncodeChar c
  rw [hc, List.length_cons] at hsize
  have hother {d : Char} (hd : d.toNat < 128) (hne : c ≠ d) :
      (Char.ofUInt8 b == d) = false :=
    ((ascii_eq hd).first hc).trans (beq_eq_false_iff_ne.2 hne)
  have hrest := closing_continues (xs ++ [b]) (bytes cs)
    (continues_of_mem hc)
  rw [List.append_assoc, List.singleton_append, List.length_append,
    List.length_singleton] at hrest
  rw [bytes_cons, hc, List.cons_append, closing_step,
    hother (by decide) hq, hother (by decide) hb, if_neg nofun,
    if_neg nofun, hrest, Nat.add_assoc, Nat.add_comm 1, hsize]

/-- The search for a quote passes a backslash with the character behind
it. -/
theorem closing_escape (xs : List UInt8) (c : Char) (cs : List Char) :
    closing (xs ++ bytes ('\\' :: c :: cs)) xs.length
      = closing (xs ++ bytes ('\\' :: c :: cs))
        (xs.length + (1 + c.utf8Size)) := by
  obtain ⟨b, bs, hc⟩ := exists_first c
  have hsize := String.length_utf8EncodeChar c
  rw [hc, List.length_cons] at hsize
  have hbytes : bytes ('\\' :: c :: cs) = 92 :: b :: (bs ++ bytes cs) := by
    rw [bytes_cons, bytes_cons, hc]
    rfl
  have hrest := closing_continues (xs ++ [92, b]) (bytes cs)
    (continues_of_mem hc)
  rw [List.append_assoc, List.length_append] at hrest
  rw [hbytes, closing_step, if_neg (by decide), if_pos (by decide)]
  refine hrest.trans (congrArg _ ?_)
  rw [← hsize]
  show xs.length + 2 + bs.length = _
  omega

/-- A string ends behind its quote, or with the line. -/
theorem closing_bytes (xs : List UInt8) (cs : List Char) :
    min (closing (xs ++ bytes cs) xs.length + 1) (xs ++ bytes cs).length
      = xs.length + byteLength (stringTail cs) := by
  -- the search has passed some characters of the string
  have hpassed {w cs : List Char} (ih : ∀ xs : List UInt8,
      min (closing (xs ++ bytes cs) xs.length + 1) (xs ++ bytes cs).length
        = xs.length + byteLength (stringTail cs)) (xs : List UInt8) :
      min (closing (xs ++ bytes (w ++ cs)) (xs.length + byteLength w) + 1)
          (xs ++ bytes (w ++ cs)).length
        = xs.length + byteLength (w ++ stringTail cs) := by
    have := ih (xs ++ bytes w)
    rwa [List.append_assoc, ← bytes_append, @List.length_append _ xs,
      length_bytes, Nat.add_assoc, ← byteLength_append] at this
  fun_induction stringTail cs generalizing xs with
  | case1 =>
      rw [closing_of_length_le (by simp [bytes])]
      simp [bytes]
  | case2 cs =>
      have hquote : String.utf8EncodeChar '"' = [34] := rfl
      have hsize : byteLength ['"'] = 1 := rfl
      rw [bytes_cons, hquote, List.singleton_append, closing_step,
        if_pos (by decide), hsize, List.length_append, List.length_cons]
      omega
  | case3 c cs ih =>
      rw [closing_escape]
      exact hpassed (w := ['\\', c]) ih xs
  | case4 c cs hq hb ih =>
      by_cases hc : c = '\\'
      · cases cs with
        | cons d cs => exact (hb d cs hc rfl).elim
        | nil =>
            -- the backslash leads behind the end of the line
            subst hc
            have hbackslash : bytes ['\\'] = [92] := rfl
            have hsize : byteLength ['\\'] = 1 := rfl
            have hlength : (xs ++ [(92 : UInt8)]).length = xs.length + 1 :=
              List.length_append
            rw [hbackslash, closing_step, if_neg (by decide),
              if_pos (by decide), closing_of_length_le (by omega)]
            show _ = xs.length + byteLength ['\\']
            omega
      · rw [closing_pass xs cs hq hc]
        exact hpassed (w := [c]) ih xs

theorem ascii_isNameChar : Ascii isNameChar := by
  intro c hc
  have hle {d : Char} (h : c ≤ d) : c.toNat ≤ d.toNat := h
  rcases isNameChar_iff.1 hc with (⟨-, h⟩ | ⟨-, h⟩ | rfl) | ⟨-, h⟩
  · exact Nat.lt_of_le_of_lt (hle h) (by decide)
  · exact Nat.lt_of_le_of_lt (hle h) (by decide)
  · decide
  · exact Nat.lt_of_le_of_lt (hle h) (by decide)

theorem ascii_numeric : Ascii fun c => isNameChar c || c == '.' := by
  intro c hc
  rcases Bool.or_eq_true_iff.1 hc with hc | hc
  · exact ascii_isNameChar c hc
  · exact ascii_eq (by decide) c hc

theorem isNameChar_of_isDigit (h : c.isDigit = true) :
    isNameChar c = true := by
  unfold isNameChar Char.isAlphanum
  rw [h, Bool.or_true, Bool.true_or]

/-- A piece of the line, found among its bytes. -/
theorem pieceStop_bytes (xs : List UInt8) (cs : List Char)
    (hc : String.utf8EncodeChar c = b :: bs) :
    pieceStop (xs ++ bytes (c :: cs)) xs.length b
      = xs.length + byteLength (c :: pieceTail c cs) := by
  have hsize := String.length_utf8EncodeChar c
  rw [hc, List.length_cons] at hsize
  have hskip {test : Char → Bool} (h : Ascii test) (htest : test c = true) :
      skip (fun b => test (.ofUInt8 b)) (xs ++ bytes (c :: cs)) xs.length
        = xs.length + byteLength (c :: cs.takeWhile test) := by
    rw [skip_append, h.length_takeWhile, List.takeWhile_cons, if_pos htest]
  unfold pieceStop pieceTail
  dsimp only
  rw [(ascii_eq (by decide)).first hc,
    (show Ascii Char.isDigit from fun d hd =>
      ascii_isNameChar d (isNameChar_of_isDigit hd)).first hc,
    (show Ascii isNameStart from fun d hd =>
      ascii_isNameChar d (isNameChar_of_start hd)).first hc]
  by_cases hquote : (c == '"') = true
  · rw [if_pos hquote, if_pos hquote]
    obtain rfl := beq_iff_eq.1 hquote
    have := closing_bytes (xs ++ bytes ['"']) cs
    rwa [List.append_assoc, ← bytes_append, @List.length_append _ xs,
      length_bytes, Nat.add_assoc, ← byteLength_append] at this
  · rw [if_neg hquote, if_neg hquote]
    by_cases hdigit : c.isDigit = true
    · rw [if_pos hdigit, if_pos hdigit]
      exact hskip ascii_numeric (Bool.or_eq_true_iff.2
        (.inl (isNameChar_of_isDigit hdigit)))
    · rw [if_neg hdigit, if_neg hdigit]
      by_cases hstart : isNameStart c = true
      · rw [if_pos hstart, if_pos hstart]
        exact hskip ascii_isNameChar (isNameChar_of_start hstart)
      · -- a character that is a piece of its own
        rw [if_neg hstart, if_neg hstart]
        have hnext : (bytes cs).takeWhile continues = [] := by
          cases cs with
          | nil => rfl
          | cons d cs =>
              obtain ⟨b', bs', hd⟩ := exists_first d
              rw [bytes_cons, hd, List.cons_append,
                List.takeWhile_cons_of_neg (by simp [not_continues hd])]
        have := skip_append continues (xs ++ [b]) (bs ++ bytes cs)
        rw [List.takeWhile_append_of_pos (continues_of_mem hc), hnext,
          List.append_nil, List.append_assoc, List.length_append,
          List.length_singleton] at this
        rw [bytes_cons, hc]
        refine this.trans ?_
        rw [byteLength_cons, ← hsize]
        show _ = xs.length + (bs.length + 1)
        omega

-- ============================================================ expansion

/-- Replaces the macros in a line from an offset on; in front of it there
is already an expansion. `none` if a piece cannot be cut out. -/
def expandFrom? (ms : Macros) (line : List Char) (i : Nat)
    (e : Expansion) : Option Expansion :=
  if h : i < (bytes line).length then do
    let b := (bytes line)[i]
    let stop := pieceStop (bytes line) i b
    let piece ← slice? i stop line
    let replacement? :=
      if isNameStart (.ofUInt8 b) then ms.lookup (String.ofList piece)
      else none
    match replacement? with
    | none => expandFrom? ms line stop { e with text := e.text ++ piece }
    | some r =>
        let text := e.text ++ r
        expandFrom? ms line stop
          ⟨text, e.shifts ++ [⟨byteLength e.text, i, false⟩,
            ⟨byteLength text, stop, true⟩]⟩
  else some e
termination_by (bytes line).length - i
decreasing_by
  all_goals
    have := lt_pieceStop h
    omega

/-- Replaces the macros in a line. -/
def expandBytes? (ms : Macros) (line : List Char) : Option Expansion :=
  if ms.isEmpty then some ⟨line, []⟩ else expandFrom? ms line 0 ⟨[], []⟩

/-- A piece is looked up if it begins as a name does. -/
theorem replacement?_piece (ms : Macros) (c : Char) (cs : List Char) :
    ms.replacement? (c :: pieceTail c cs) =
      if isNameStart c then ms.lookup (String.ofList (c :: pieceTail c cs))
      else none := by
  have hname : isMacroName (c :: pieceTail c cs) = isNameStart c := by
    show (isNameStart c && (pieceTail c cs).all isNameChar) = _
    by_cases hstart : isNameStart c = true
    · rw [hstart, pieceTail_of_start hstart, List.all_takeWhile,
        Bool.and_self]
    · rw [Bool.eq_false_iff.2 hstart, Bool.false_and]
  unfold Macros.replacement?
  rw [hname]

/-- One piece is replaced. -/
theorem expandFrom?_piece (ms : Macros) (front : List Char) (c : Char)
    (cs : List Char) (e : Expansion) :
    let p := c :: pieceTail c cs
    let origin := byteLength front
    let stop := origin + byteLength p
    expandFrom? ms (front ++ c :: cs) origin e =
      match ms.replacement? p with
      | none => expandFrom? ms (front ++ c :: cs) stop
          { e with text := e.text ++ p }
      | some r => expandFrom? ms (front ++ c :: cs) stop
          ⟨e.text ++ r, e.shifts ++ [⟨byteLength e.text, origin, false⟩,
            ⟨byteLength (e.text ++ r), stop, true⟩]⟩ := by
  intro p origin stop
  obtain ⟨b, bs, hc⟩ := exists_first c
  have hbytes : bytes (front ++ c :: cs)
      = bytes front ++ b :: (bs ++ bytes cs) := by
    rw [bytes_append, bytes_cons, hc, List.cons_append]
  have horigin : (bytes front).length = origin := length_bytes front
  have hlt : origin < (bytes (front ++ c :: cs)).length := by
    rw [hbytes, List.length_append, horigin, List.length_cons]
    omega
  have hb : (bytes (front ++ c :: cs))[origin] = b :=
    List.getElem_of_append hbytes horigin
  have hstop : pieceStop (bytes (front ++ c :: cs)) origin b = stop := by
    have := pieceStop_bytes (bytes front) cs hc
    rwa [← bytes_append, horigin] at this
  obtain ⟨behind, hbehind⟩ := pieceTail_isPrefix c cs
  have hslice : slice? origin stop (front ++ c :: cs) = some p := by
    have := slice?_append front p behind
    rwa [show p ++ behind = c :: cs from congrArg _ hbehind] at this
  have hstart : isNameStart (.ofUInt8 b) = isNameStart c :=
    Ascii.first (fun d hd => ascii_isNameChar d (isNameChar_of_start hd)) hc
  rw [expandFrom?, dif_pos hlt]
  dsimp only
  rw [hb, hstop, hslice, Option.bind_eq_bind, Option.bind_some, hstart,
    ← replacement?_piece]

theorem expandFrom?_eq (ms : Macros) (front rest : List Char)
    (e : Expansion) :
    expandFrom? ms (front ++ rest) (byteLength front) e =
      let e' := expandPieces ms (byteLength e.text) (byteLength front)
        (pieces rest)
      some ⟨e.text ++ e'.text, e.shifts ++ e'.shifts⟩ := by
  fun_induction pieces rest generalizing front e with
  | case1 =>
      rw [expandFrom?, dif_neg (by simp [length_bytes])]
      simp [expandPieces]
  | case2 c cs tail ih =>
      have hline : front ++ c :: cs
          = (front ++ c :: tail) ++ cs.drop tail.length := by
        rw [List.append_assoc, List.cons_append]
        exact congrArg (front ++ c :: ·)
          (List.prefix_iff_eq_append.1 (pieceTail_isPrefix c cs)).symm
      have hstop : byteLength front + byteLength (c :: tail)
          = byteLength (front ++ c :: tail) := (byteLength_append ..).symm
      rw [expandFrom?_piece, expandPieces]
      dsimp only
      cases ms.replacement? (c :: tail) with
      | none =>
          dsimp only
          rw [hline, hstop, ih]
          dsimp only
          rw [byteLength_append, List.append_assoc]
      | some r =>
          dsimp only
          rw [hline, hstop, ih]
          dsimp only
          rw [byteLength_append e.text, List.append_assoc, List.append_assoc]
          rfl

/-- Replacing among bytes never cuts a character, and puts the same. -/
theorem expandBytes?_eq (ms : Macros) (line : List Char) :
    expandBytes? ms line = some (expand ms line) := by
  unfold expandBytes? expand
  split
  · rfl
  · exact expandFrom?_eq ms [] line ⟨[], []⟩

end Clean

end Script
