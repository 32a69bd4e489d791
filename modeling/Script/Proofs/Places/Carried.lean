/-
Columns in a cleaned text. Where nothing is included, line by line the text
is what the lines of the entry file left, and each character of it is traced
back to where it was written: the character that it was copied from, or the
name that it is put for (`Cleaned.locate_carried`).

The line is that of the written text, as each line of the cleaned text was
made of one written line. The column is counted in the written text as well,
from the bytes that the origin of the line gives. Comments are out of the way
by then: to blank them moves no line break, and no character that is in none
of them.
-/
import Script.Proofs.Clean.Alone
import Script.Proofs.Comments.Parts
import Script.Proofs.Macros.Shifts

namespace Script

open Text

-- ============================================================== places

/-- In two texts with the same line breaks, places with as many bytes in
front of them are on the same line, and as far from where it starts. -/
theorem Text.place_of_behindBreaks {before behind before' behind' : List Char}
    (hlength : byteLength before = byteLength before')
    (hbreaks : behindBreaks 0 (before ++ behind)
      = behindBreaks 0 (before' ++ behind')) :
    before.count '\n' = before'.count '\n'
      ∧ byteLength (lastLine before) = byteLength (lastLine before') := by
  -- the line breaks in front of the place
  have hfront (before behind : List Char) :
      (behindBreaks 0 (before ++ behind)).filter (· ≤ byteLength before)
        = behindBreaks 0 before := by
    rw [behindBreaks_append, List.filter_append, Nat.zero_add,
      List.filter_eq_self.2, List.filter_eq_nil_iff.2, List.append_nil]
    · intro n hn
      have := behindBreaks_bounds _ _ n hn
      simp only [decide_eq_true_eq]
      omega
    · intro n hn
      have := behindBreaks_bounds _ _ n hn
      simp only [decide_eq_true_eq]
      omega
  have hsame : behindBreaks 0 before = behindBreaks 0 before' := by
    rw [← hfront before behind, ← hfront before' behind', hbreaks, hlength]
  have hlast := getLast_behindBreaks 0 before
  rw [hsame, getLast_behindBreaks 0 before', hlength] at hlast
  have hlast := Option.some.inj hlast
  have hle := byteLength_lastLine_le before
  have hle' := byteLength_lastLine_le before'
  rw [← length_behindBreaks 0, ← length_behindBreaks 0, hsame]
  exact ⟨rfl, by omega⟩

namespace Clean

-- =========================================================== characters

/-- The characters that a source line leaves. -/
def Made.carried (m : Made) : List Carried :=
  (if m.active && (hashLine? m.line.body).isNone then
    carry m.macros m.line.start m.line.body
  else [])
    ++ if m.line.broken then
      copied (m.line.start + byteLength m.line.body) ['\n']
    else []

theorem Made.char_carried (m : Made) :
    m.carried.map (·.char) = m.left := by
  unfold carried left text
  rw [List.map_append]
  congr 1
  · split
    · exact char_carry ..
    · rfl
  · split <;> rfl

/-- A character that a line leaves, other than its line break, is one of the
line with its macros replaced. -/
theorem Made.carried_split {m : Made} {front back : List Carried}
    {t : Carried} (h : m.carried = front ++ t :: back)
    (ht : t.char ≠ '\n') :
    (m.active && (hashLine? m.line.body).isNone) = true
      ∧ ∃ rest, carry m.macros m.line.start m.line.body
        = front ++ t :: rest := by
  rcases cut_append h with ⟨rest, hline, -⟩ | ⟨front', -, hbreak⟩
  · split at hline
    case isTrue hcounts => exact ⟨hcounts, rest, hline⟩
    case isFalse => simp at hline
  · split at hbreak
    · obtain ⟨-, before, behind, hcs, -⟩ := split_copied hbreak
      have hmem : t.char ∈ ['\n'] := by
        rw [hcs]
        simp
      exact absurd (List.mem_singleton.1 hmem) ht
    · simp at hbreak

/-- Such a character is part of what the line leaves, and comes from the
line. -/
theorem Made.carried_from {m : Made} {front back : List Carried}
    {t : Carried} (h : m.carried = front ++ t :: back)
    (ht : t.char ≠ '\n') :
    front.map (·.char) <+: m.text
      ∧ ∃ before behind, m.line.body = before ++ behind
        ∧ m.line.start + byteLength before = t.place
        ∧ t.From m.macros behind := by
  obtain ⟨hcounts, rest, hline⟩ := carried_split h ht
  refine ⟨?_, from_carry hline⟩
  rw [text, hcounts, if_pos rfl, ← char_carry _ m.line.start, hline,
    List.map_append]
  exact List.prefix_append ..

/-- The origin of the line says where it comes from, if the offsets in what
the line leaves fit in 32 bits. -/
theorem Made.carried_place {m : Made} {front back : List Carried}
    {t : Carried} (h : m.carried = front ++ t :: back)
    (ht : t.char ≠ '\n') (hfit : byteLength m.text < UInt32.size) :
    m.line.start + m.origin.mapOffset (byteLength (front.map (·.char)))
      = t.place := by
  obtain ⟨hcounts, rest, hline⟩ := carried_split h ht
  rw [text, hcounts, if_pos rfl] at hfit
  refine mapOffset_carry ?_ hfit hline
  rw [origin, hcounts, if_pos rfl]

/-- Names have no white space in them. -/
theorem ne_of_mem_name {name : List Char} (h : isMacroName name = true) :
    ∀ c ∈ name, c ≠ ' ' ∧ c ≠ '\n' := by
  have hchar : ∀ c ∈ name, isNameChar c = true := by
    cases name with
    | nil => exact List.forall_mem_nil _
    | cons c cs =>
        obtain ⟨hc, hcs⟩ := Bool.and_eq_true_iff.1 h
        refine List.forall_mem_cons.2 ⟨?_, List.all_eq_true.1 hcs⟩
        exact isNameChar_iff.2 (.inl (isNameStart_iff.1 hc))
  intro c hc
  have := hchar c hc
  constructor <;>
  · rintro rfl
    cases this

/-- What a character was made of stood in the text before its comments were
blanked, if the character is none of a comment. -/
theorem Carried.From.written {ms : Macros} {t : Carried} {file : FileId}
    {parts : List Part} {before behind : List Char}
    (h : t.From ms behind)
    (hleft : parts.flatMap Part.left = before ++ behind)
    (hout : t.name? = none →
      ¬ Part.Covered (Part.comments file 0 parts) (byteLength before)) :
    ∃ before' behind', parts.flatMap Part.written = before' ++ behind'
      ∧ byteLength before' = byteLength before ∧ t.From ms behind' := by
  unfold From at h ⊢
  cases hname : t.name? with
  | none =>
      rw [hname] at h
      obtain ⟨rest, rfl⟩ := h
      have hout := hout hname
      rw [← Nat.zero_add (byteLength before)] at hout
      obtain ⟨before', behind', hwritten, hlength⟩ := Part.kept hleft hout
      exact ⟨before', t.char :: behind', hwritten, hlength,
        List.prefix_append [t.char] behind'⟩
  | some name =>
      rw [hname] at h
      obtain ⟨⟨rest, rfl⟩, r, hr, ht⟩ := h
      have hmacro : isMacroName name = true := by
        by_contra hmacro
        rw [Macros.replacement?, if_neg hmacro] at hr
        cases hr
      have hleft : parts.flatMap Part.left = before ++ name ++ rest := by
        rw [hleft, List.append_assoc]
      have hname : name ≠ [] := by
        rintro rfl
        cases hmacro
      have hout : ∀ front c back, name = front ++ c :: back →
          ¬ Part.Covered (Part.comments file 0 parts)
            (0 + byteLength (before ++ front)) := by
        rintro front c back rfl
        obtain ⟨hspace, hbreak⟩ := ne_of_mem_name hmacro c (by simp)
        have hchar : parts.flatMap Part.left
            = (before ++ front) ++ c :: (back ++ rest) := by
          rw [hleft]
          simp
        exact Part.not_covered hchar hspace hbreak
      obtain ⟨before', behind', hwritten, hlength⟩ :=
        Part.kept_word hname hleft hout
      refine ⟨before', name ++ behind', ?_, hlength,
        List.prefix_append .., r, hr, ht⟩
      rw [hwritten, List.append_assoc]

-- =============================================================== lines

/-- The origin of the end comes behind those of the lines. -/
theorem Draft.origins_markEnd (d : Draft) (origin : LineOrigin) :
    ∃ rest, (d.markEnd origin).origins.toList = d.origins.toList ++ rest := by
  unfold markEnd
  split
  · exact ⟨[origin], by simp⟩
  · exact ⟨[], by simp⟩

variable {made earlier later : List Made} {m : Made} {cs : List Char}

/-- The origin of a line is where the line is in the history. -/
theorem Draft.getElem?_origins_markEnd {d : Draft}
    (h : d.origins.toList = made.map Made.origin)
    (hmade : made = earlier ++ m :: later) (origin : LineOrigin) :
    (d.markEnd origin).origins.toList[earlier.length]? = some m.origin := by
  obtain ⟨rest, hrest⟩ := d.origins_markEnd origin
  rw [hrest, h, hmade, List.map_append, List.map_cons, List.append_assoc,
    List.getElem?_append_right (by simp)]
  simp

/-- A place on the line behind some lines that have ended. -/
theorem place_flatMap {α : Type} {xs : List α} {line : α → List Char}
    (h : ∀ x ∈ xs, ∃ body, '\n' ∉ body ∧ line x = body ++ ['\n'])
    (hcs : '\n' ∉ cs) :
    (xs.flatMap line ++ cs).count '\n' = xs.length
      ∧ lastLine (xs.flatMap line ++ cs) = cs := by
  constructor
  · rw [List.count_append, List.count_eq_zero.2 hcs, Nat.add_zero]
    induction xs with
    | nil => rfl
    | cons x xs ih =>
        obtain ⟨⟨body, hbody, hx⟩, hxs⟩ := List.forall_mem_cons.1 h
        rw [List.flatMap_cons, List.count_append, ih hxs, hx,
          List.count_append, List.count_eq_zero.2 hbody, List.length_cons,
          Nat.zero_add, Nat.add_comm]
        rfl
  · rcases List.eq_nil_or_concat xs with rfl | ⟨front, x, rfl⟩
    · exact lastLine_of_newline_not_mem hcs
    · obtain ⟨body, -, hx⟩ := h x (by simp)
      rw [List.concat_eq_append, List.flatMap_append, List.flatMap_singleton,
        hx, ← List.append_assoc, List.append_assoc]
      exact lastLine_append_newline hcs

theorem Made.left_eq (hbroken : m.line.broken = true) :
    m.left = m.text ++ ['\n'] := by
  rw [left, if_pos hbroken]

theorem Line.written_eq {l : Line} (hbroken : l.broken = true) :
    l.written = l.body ++ ['\n'] := by
  rw [written, if_pos hbroken]

theorem char_flatMap_carried (made : List Made) :
    (made.flatMap Made.carried).map (·.char) = made.flatMap Made.left := by
  rw [List.map_flatMap]
  exact congrArg (made.flatMap ·) (funext Made.char_carried)

/-- The lines of a history that are those of a text. -/
theorem newline_not_mem_of_history {text : List Char}
    (hlines : made.map (·.line) = lines text) (hm : m ∈ made) :
    '\n' ∉ m.line.body := by
  refine newline_not_mem_of_mem_lines (?_ : m.line ∈ lines text)
  rw [← hlines]
  exact List.mem_map_of_mem hm

/-- Lines leave the line breaks that they have. -/
theorem count_flatMap_left {text : List Char}
    (hlines : made.map (·.line) = lines text)
    (hplain : ∀ m ∈ made, '\n' ∉ m.text) :
    (made.flatMap Made.left).count '\n' = text.count '\n' := by
  have hbody : ∀ m ∈ made, '\n' ∉ m.line.body :=
    fun _ => newline_not_mem_of_history hlines
  rw [← flatMap_lines text, ← hlines]
  clear hlines
  induction made with
  | nil => rfl
  | cons m made ih =>
      obtain ⟨hm, hplain⟩ := List.forall_mem_cons.1 hplain
      obtain ⟨hm', hbody⟩ := List.forall_mem_cons.1 hbody
      rw [List.flatMap_cons, List.map_cons, List.flatMap_cons,
        List.count_append, List.count_append, ih hplain hbody, Made.left,
        Line.written, List.count_append, List.count_append,
        List.count_eq_zero.2 hm, List.count_eq_zero.2 hm']

-- ========================================================== characters

variable {front back : List Carried} {t : Carried} {parts : List Part}
  {file : FileId}

/-- The lines of a text that are the lines of a history. -/
theorem lines_of_history {text : List Char} (hlines : made.map (·.line)
    = lines text) (hmade : made = earlier ++ m :: later) :
    m.line.number = earlier.length + 1
      ∧ m.line.start
        = byteLength (earlier.flatMap fun m => m.line.written)
      ∧ (∀ m' ∈ earlier, m'.line.broken = true)
      ∧ ∃ rest, text = (earlier.flatMap fun m => m.line.written)
        ++ (m.line.body ++ rest) := by
  have hsplit : lines text
      = earlier.map (·.line) ++ m.line :: later.map (·.line) := by
    rw [← hlines, hmade, List.map_append, List.map_cons]
  obtain ⟨hnumber, hstart, hbroken⟩ := lines_split hsplit
  rw [List.length_map] at hnumber
  rw [List.flatMap_map] at hstart
  refine ⟨hnumber, hstart,
    fun m' hm' => hbroken _ (List.mem_map_of_mem hm'), ?_⟩
  refine ⟨(if m.line.broken then ['\n'] else [])
    ++ (later.map (·.line)).flatMap Line.written, ?_⟩
  rw [← flatMap_lines text, hsplit, List.flatMap_append, List.flatMap_cons,
    List.flatMap_map, Line.written]
  simp only [List.append_assoc]

/-- Where a character of a line comes from in the written text: on the line
that it was made of, as far from its start as the origin of the line says. -/
theorem written_of_split (hlines : made.map (·.line)
      = lines (parts.flatMap Part.left))
    (hmade : made = earlier ++ m :: later)
    (hcarried : m.carried = front ++ t :: back) (ht : t.char ≠ '\n')
    (hfit : byteLength m.text < UInt32.size)
    (hout : t.name? = none →
      ¬ Part.Covered (Part.comments file 0 parts) t.place) :
    ∃ before behind, parts.flatMap Part.written = before ++ behind
      ∧ byteLength before = t.place ∧ t.From m.macros behind
      ∧ before.count '\n' = earlier.length
      ∧ m.origin.mapOffset (byteLength (front.map (·.char)))
        = byteLength (lastLine before) := by
  obtain ⟨-, hstart, hbroken, rest, htext⟩ := lines_of_history hlines hmade
  obtain ⟨-, inner, behind, hbody, hplace, hfrom⟩ :=
    Made.carried_from hcarried ht
  have hmap := Made.carried_place hcarried ht hfit
  have hplain : ∀ m' ∈ earlier ++ m :: later, '\n' ∉ m'.line.body :=
    fun _ hm' => newline_not_mem_of_history hlines (hmade ▸ hm')
  have hinner : '\n' ∉ inner := fun h =>
    hplain m (by simp) (hbody ▸ List.mem_append_left _ h)
  have hearlier : ∀ m' ∈ earlier, ∃ body, '\n' ∉ body
      ∧ m'.line.written = body ++ ['\n'] :=
    fun m' hm' => ⟨m'.line.body, hplain m' (List.mem_append_left _ hm'),
      Line.written_eq (hbroken m' hm')⟩
  obtain ⟨hcount, hlast⟩ := place_flatMap hearlier hinner
  have hleft : parts.flatMap Part.left
      = ((earlier.flatMap fun m => m.line.written) ++ inner)
        ++ (behind ++ rest) := by
    rw [htext, hbody]
    simp only [List.append_assoc]
  have hlength : byteLength
      ((earlier.flatMap fun m => m.line.written) ++ inner) = t.place := by
    rw [byteLength_append, ← hstart, hplace]
  obtain ⟨before, behind', hwritten, hbefore, hfrom'⟩ :=
    (hfrom.append rest).written hleft (by rwa [hlength])
  have hbreaks := Part.behindBreaks_left 0 parts
  rw [hleft, hwritten] at hbreaks
  obtain ⟨hsame, hsame'⟩ := place_of_behindBreaks hbefore.symm hbreaks
  refine ⟨before, behind', hwritten, hbefore.trans hlength, hfrom',
    hsame.symm.trans hcount, ?_⟩
  rw [← hsame', hlast]
  omega

/-- What a line leaves is no longer than the cleaned text. -/
theorem byteLength_text_le (hmade : made = earlier ++ m :: later) :
    byteLength m.text ≤ byteLength (made.flatMap Made.left) := by
  rw [hmade, List.flatMap_append, List.flatMap_cons, byteLength_append,
    byteLength_append, Made.left, byteLength_append]
  omega

/-- Where a character of a line is in the cleaned text. -/
theorem left_of_split (hbroken : ∀ m ∈ earlier, m.line.broken = true)
    (hplain : ∀ m ∈ made, '\n' ∉ m.text)
    (hmade : made = earlier ++ m :: later)
    (hcarried : m.carried = front ++ t :: back) (ht : t.char ≠ '\n') :
    let before := (earlier.flatMap Made.carried ++ front).map (·.char)
    (∃ behind, (made.flatMap Made.carried).map (·.char) = before ++ behind)
      ∧ before.count '\n' = earlier.length
      ∧ lastLine before = front.map (·.char) := by
  obtain ⟨hfront, -⟩ := Made.carried_from hcarried ht
  have hm : m ∈ made := by
    rw [hmade]
    simp
  have hbefore : (earlier.flatMap Made.carried ++ front).map (·.char)
      = earlier.flatMap Made.left ++ front.map (·.char) := by
    rw [List.map_append, char_flatMap_carried]
  have hearlier : ∀ m' ∈ earlier, ∃ body, '\n' ∉ body
      ∧ m'.left = body ++ ['\n'] :=
    fun m' hm' => ⟨m'.text, hplain m' (by rw [hmade]; simp [hm']),
      Made.left_eq (hbroken m' hm')⟩
  dsimp only
  refine ⟨⟨(t :: back ++ later.flatMap Made.carried).map (·.char), ?_⟩, ?_⟩
  · rw [← List.map_append, hmade, List.flatMap_append, List.flatMap_cons,
      hcarried]
    simp only [List.append_assoc, List.cons_append]
  · rw [hbefore]
    exact place_flatMap hearlier fun h => hplain m hm (hfront.subset h)

end Clean

open Clean

variable {sources after : Sources} {file : FileId} {resolver : Resolver}
  {cleaned : Cleaned} {f : SourceFile}

/-- What a finished cleaning has registered. -/
theorem Cleaned.ofFile_ok
    (h : ofFile sources file resolver = (.ok cleaned, after))
    (hf : sources.get? file = some f) :
    ∃ t, cleanFile resolver (maxOpenFiles - 1) [] file (.start sources)
        = .ok () t
      ∧ Laid (.start sources) (history sources file resolver) t
      ∧ after.get? cleaned.file = some ⟨f.name ++ " (preprocessed)",
          String.ofList t.draft.text,
          some (t.draft.markEnd (endOrigin file f)).origins.toList⟩
      ∧ ∀ id g, t.sources.get? id = some g → after.get? id = some g := by
  unfold ofFile at h
  simp only [] at h
  cases hrun : cleanFile resolver (maxOpenFiles - 1) [] file
      (.start sources) with
  | error refusal t =>
      simp only [State.start] at hrun
      simp [hrun] at h
  | ok u t =>
      have hready : Ready (.start sources) := ⟨rfl, by simp [State.start,
        Macros.Flat]⟩
      obtain ⟨hlaid, -⟩ := laid_of_cleanFile hready hrun
      have ht := hlaid.sources file f hf
      simp only [State.start] at hrun
      simp only [hrun, ht, Prod.mk.injEq, Except.ok.injEq] at h
      obtain ⟨rfl, rfl⟩ := h
      refine ⟨t, rfl, hlaid, ?_, fun _ _ => Sources.get?_push_of_get?⟩
      rw [← Draft.text_markEnd t.draft (endOrigin file f)]
      exact Sources.get?_push ..

/-- Columns survive the replacing of macros. A file that includes nothing
leaves as many line breaks as it has, and each line of the cleaned text is
made of the written line of the same number. If the offsets in the cleaned
text fit in 32 bits, each of its characters is shown where it comes from: a
character that was copied where it was written, unless it stands for one of a
comment, and one that was put for a macro where the name begins. -/
theorem Cleaned.locate_carried
    (h : ofFile sources file resolver = (.ok cleaned, after))
    (hf : sources.get? file = some f) (halone : IncludesNothing f.text) :
    ∃ derived parts, after.get? cleaned.file = some derived
      ∧ Parted f.text.toList parts
      ∧ let made := history sources file resolver
        made.map (·.line) = lines (parts.flatMap Part.left)
          ∧ derived.text.toList = (made.flatMap Made.carried).map (·.char)
          ∧ derived.text.toList.count '\n' = f.text.toList.count '\n'
          ∧ (derived.size < UInt32.size →
            ∀ earlier m later front t back, made = earlier ++ m :: later →
            m.carried = front ++ t :: back → t.char ≠ '\n' →
            (t.name? = none →
              ¬ Part.Covered (Part.comments file 0 parts) t.place) →
            ∃ before behind column, f.text.toList = before ++ behind
              ∧ byteLength before = t.place ∧ t.From m.macros behind
              ∧ placeBehind before = (earlier.length + 1, column)
              ∧ ∀ length, after.locate ⟨cleaned.file, byteLength
                  ((earlier.flatMap Made.carried ++ front).map (·.char)),
                  length⟩
                = ⟨f.name, earlier.length + 1, column⟩) := by
  obtain ⟨t, hrun, hlaid, hderived, hkept⟩ := ofFile_ok h hf
  obtain ⟨blanked, hblanked, hlines, hfile, htext, horigins⟩ :=
    cleanFile_alone hf halone hrun
  rw [← history] at hlines hfile htext horigins
  obtain ⟨parts, hparts, rfl⟩ := exists_parted hblanked
  have hwritten := hparts.written
  have hderived_text : (String.ofList t.draft.text).toList
      = (history sources file resolver).flatMap Made.left := by
    rw [String.toList_ofList, htext]
    rfl
  refine ⟨_, parts, hderived, hparts, hlines, ?_, ?_, ?_⟩
  · rw [char_flatMap_carried, hderived_text]
  · rw [hderived_text, count_flatMap_left hlines hlaid.plain]
    exact (blankComments_ok hblanked).2
  · intro hsize earlier m later front u back hmade hcarried hu hout
    have hfit : byteLength m.text < UInt32.size := by
      rw [SourceFile.size_eq, hderived_text] at hsize
      exact Nat.lt_of_le_of_lt (byteLength_text_le hmade) hsize
    obtain ⟨hnumber, -, hbroken, -⟩ := lines_of_history hlines hmade
    obtain ⟨before, behind, hsplit, hplace, hfrom, hcount, hmap⟩ :=
      written_of_split hlines hmade hcarried hu hfit hout
    obtain ⟨⟨behind', hsplit'⟩, hcount', hlast'⟩ :=
      left_of_split hbroken hlaid.plain hmade hcarried hu
    have horigin := t.draft.getElem?_origins_markEnd horigins hmade
      (endOrigin file f)
    rw [← hcount'] at horigin
    have hw : after.get? m.origin.file = some f := by
      have : m.origin.file = file := hfile m (by rw [hmade]; simp)
      rw [this]
      exact hkept _ _ (hlaid.sources _ _ hf)
    have hline : m.origin.line = before.count '\n' + 1 := by
      rw [hcount]
      exact hnumber
    have hpos : f.text.toList = before ++ behind := hwritten ▸ hsplit
    have hplaced : placeBehind before
        = (earlier.length + 1, (lastLine before).length + 1) := by
      rw [placeBehind, hcount]
    refine ⟨before, behind, _, hpos, hplace, hfrom, hplaced, fun length => ?_⟩
    have hlocate : after.locate ⟨cleaned.file, byteLength
        ((earlier.flatMap Made.carried ++ front).map (·.char)), length⟩
          = ⟨f.name, (placeBehind before).1, (placeBehind before).2⟩ :=
      Sources.locate_eq hderived rfl (by
        rw [hderived_text, ← char_flatMap_carried, hsplit']) rfl horigin hw
        hpos hline (by rw [hlast', hmap])
        (.inr (by rw [hlast', hmap]))
    rw [hlocate, hplaced]

theorem Cleaned.run_eq {run : Except Refusal Cleaned × Sources}
    (h : run.1.toOption = some cleaned) : run = (.ok cleaned, run.2) := by
  obtain ⟨outcome, after⟩ := run
  cases outcome with
  | ok cleaned' =>
      cases h
      rfl
  | error refusal => cases h

/-- A file with a macro that is longer than its name, behind a character
that is longer than a byte. -/
def macroFile : SourceFile := ⟨"main.q", "#define N 12\nprint \"é\"+N;", none⟩

/-- What is read of its two lines. -/
def macroLines : List Made :=
  [⟨0, ⟨1, 0, "#define N 12".toList, true⟩, [], true⟩,
    ⟨0, ⟨2, 13, "print \"é\"+N;".toList, false⟩, [("N", "12".toList)], true⟩]

/-- The second digit that is put for the macro is shown where the name is. -/
theorem Cleaned.locate_put_for_name :
    ∃ cleaned after, ofFile ⟨#[macroFile]⟩ 0 (fun _ _ => none)
        = (.ok cleaned, after)
      ∧ after.locate ⟨cleaned.file, 13, 1⟩ = ⟨"main.q", 2, 11⟩ := by
  have hok : (ofFile ⟨#[macroFile]⟩ 0 (fun _ _ => none)).1.toOption
      = some ⟨1, [], ["N"]⟩ := by decide +kernel
  have hrun := run_eq hok
  have halone : IncludesNothing macroFile.text := by
    intro blanked hblanked
    have hsame : blankComments macroFile.text.toList
        = .ok macroFile.text.toList := by decide +kernel
    obtain rfl := Except.ok.inj (hsame.symm.trans hblanked)
    decide +kernel
  obtain ⟨derived, parts, -, -, -, htext, -, hplaced⟩ :=
    locate_carried hrun rfl halone
  have hmade : history ⟨#[macroFile]⟩ 0 (fun _ _ => none)
      = macroLines.take 1 ++ macroLines[1] :: [] := by decide +kernel
  have hsize : derived.size < UInt32.size := by
    rw [SourceFile.size_eq, htext, hmade]
    decide +kernel
  have hcarried : macroLines[1].carried = macroLines[1].carried.take 11
      ++ ⟨'2', 24, some ['N']⟩ :: macroLines[1].carried.drop 12 := by
    decide +kernel
  obtain ⟨before, behind, column, hsplit, hbefore, -, hcolumn, hlocate⟩ :=
    hplaced hsize _ _ _ _ _ _ hmade hcarried (by decide) nofun
  -- the characters in front of the name
  have hsplit' : macroFile.text.toList
      = "#define N 12\nprint \"é\"+".toList ++ "N;".toList := by decide +kernel
  obtain ⟨rfl, -⟩ := append_inj_of_byteLength (hsplit.symm.trans hsplit')
    (hbefore.trans (by decide +kernel))
  obtain rfl : column = 11 := by
    have : placeBehind "#define N 12\nprint \"é\"+".toList = (2, 11) := by
      decide +kernel
    exact (congrArg Prod.snd (hcolumn.symm.trans this))
  refine ⟨_, _, hrun, ?_⟩
  have hoffset : byteLength (((macroLines.take 1).flatMap Made.carried
      ++ macroLines[1].carried.take 11).map (·.char)) = 13 := by
    decide +kernel
  have := hlocate 1
  rwa [hoffset] at this

end Script
