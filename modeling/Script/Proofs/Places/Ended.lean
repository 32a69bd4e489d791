/-
The end of a cleaned text. It is shown at the end of the entry file, unless a
silent line is in the way (`Cleaned.locate_end_iff`). Silent lines have
origins, but there are no lines of the text for them, and so the end of the text
takes an origin in front of the one that was meant for it.

Only one silent line does no harm: the last line of the entry file, if it is
made of macros with nothing in them. The end of the text has the origin of
that line then, and its shifts lead behind the last macro. A directive
has no shifts, and is shown where its line begins.

How long the text is does not matter. Where it is so long that the offsets of
shifts wrap around, its end is led further than it should be, and what is
behind the end of the written line is shown there.
-/
import Script.Proofs.Clean.Foreign
import Script.Proofs.Places.Carried

namespace Script

open Text Clean

-- =============================================================== lines

namespace Text

/-- The last line of a text, and what is in front of it. -/
theorem exists_front (cs : List Char) :
    ∃ front, cs = front ++ lastLine cs ∧ lastLine front = []
      ∧ front.count '\n' = cs.count '\n' := by
  rcases lastLine_cases cs with ⟨hnone, hlast⟩ | ⟨front, hcs, hlast⟩
  · exact ⟨[], by rw [hlast]; rfl, rfl, (List.count_eq_zero.2 hnone).symm⟩
  · refine ⟨front ++ ['\n'], ?_, ?_, ?_⟩
    · rw [List.append_assoc]
      exact hcs
    · exact lastLine_append_newline List.not_mem_nil
    · have hcount := congrArg (List.count '\n') hcs
      rw [List.count_append, List.count_cons_self,
        List.count_eq_zero.2 hlast] at hcount
      rw [List.count_append, hcount]
      rfl

end Text

namespace Clean

variable {text body : List Char} {number start : Nat} {l : Line}

theorem body_ne_nil_of_mem_linesFrom
    (hl : l ∈ linesFrom number start body text) (h : l.broken = false) :
    l.body ≠ [] := by
  induction text generalizing number start body with
  | nil =>
      unfold linesFrom at hl
      split at hl
      case isTrue => cases hl
      case isFalse hbody =>
        rw [List.mem_singleton.1 hl]
        simpa using hbody
  | cons c cs ih =>
      by_cases hc : c = '\n'
      · rw [linesFrom_break _ _ _ hc] at hl
        rcases List.mem_cons.1 hl with rfl | hl
        · cases h
        · exact ih hl
      · rw [linesFrom_char _ _ _ hc] at hl
        exact ih hl

/-- Where the lines of a text end: those with a line break are in front of
the last line of the text, and one without is the last line. -/
theorem number_of_mem_lines (hl : l ∈ lines text) :
    (l.broken = true → l.number ≤ text.count '\n')
      ∧ (l.broken = false → l.number = text.count '\n' + 1
        ∧ l.body = lastLine text) := by
  obtain ⟨front, back, hsplit⟩ := List.append_of_mem hl
  obtain ⟨hnumber, -, hbroken⟩ := lines_split hsplit
  have hfront : ∀ l' ∈ front, ∃ body, '\n' ∉ body
      ∧ l'.written = body ++ ['\n'] := by
    intro l' hl'
    refine ⟨l'.body, ?_, Line.written_eq (hbroken l' hl')⟩
    exact newline_not_mem_of_mem_lines
      (hsplit ▸ List.mem_append_left _ hl')
  have htext := flatMap_lines text
  rw [hsplit, List.flatMap_append, List.flatMap_cons] at htext
  obtain ⟨hcount, hlast⟩ := place_flatMap hfront
    (newline_not_mem_of_mem_lines hl)
  constructor
  · intro h
    have hfrontCount := (place_flatMap hfront List.not_mem_nil).1
    rw [List.append_nil] at hfrontCount
    rw [hnumber, ← htext, List.count_append, hfrontCount, List.count_append,
      Line.written_eq h, List.count_append, List.count_singleton_self]
    omega
  · intro h
    have hback : back = [] := by
      by_contra hne
      have hmem : l ∈ (lines text).dropLast := by
        rw [hsplit, List.dropLast_append_cons, List.dropLast_cons_of_ne_nil hne]
        simp
      rw [broken_of_mem_dropLast_lines hmem] at h
      cases h
    have hwritten : l.written = l.body := by
      rw [Line.written, h]
      simp
    rw [hback, hwritten, List.flatMap_nil, List.append_nil] at htext
    rw [← htext, hcount, hlast]
    exact ⟨hnumber, rfl⟩

-- ============================================================= silence

variable {made earlier : List Made} {m : Made}

theorem count_flatMap_laid (hplain : ∀ m ∈ made, '\n' ∉ m.text) :
    (made.flatMap Made.laid).count '\n'
      = (made.filter (!·.isSilent)).length := by
  have := length_splitOn_newline (made.flatMap Made.laid)
  rw [splitOn_flatMap_laid hplain, List.length_append, List.length_map]
    at this
  exact (Nat.succ.inj this).symm

theorem Made.laid_of_loud (h : m.isSilent = false) :
    m.laid = m.text ++ ['\n'] := by
  rw [laid, h]
  rfl

/-- Whether a line is kept: it counts, and is no directive. -/
def Made.Kept (m : Made) : Prop :=
  m.active = true ∧ hashLine? m.line.body = none

/-- The place behind a line that is kept is led behind the written line. -/
theorem Made.Kept.le_mapOffset (h : m.Kept) :
    byteLength m.line.body ≤ m.origin.mapOffset (byteLength m.text) := by
  have htext : m.text = (expand m.macros m.line.body).text := by
    rw [text, h.1, h.2]
    rfl
  rw [htext]
  refine le_mapOffset_end ?_
  rw [origin, h.1, h.2]
  rfl

/-- A line that is left out has no characters and no shifts. -/
theorem Made.left_out (h : ¬ m.Kept) :
    m.text = [] ∧ m.origin.mapOffset (byteLength m.text) = 0 := by
  have h : (m.active && (hashLine? m.line.body).isNone) = false := by
    simpa [Kept, Option.isSome_iff_ne_none] using h
  rw [text, origin, h]
  exact ⟨rfl, rfl⟩

/-- The place behind the last line of a file is led behind the written line,
unless the line is left out. -/
theorem Made.le_mapOffset_iff (hbroken : m.line.broken = false)
    (hbody : m.line.body ≠ []) :
    byteLength m.line.body ≤ m.origin.mapOffset (byteLength m.text)
      ↔ (m.isSilent = true → m.Kept) := by
  by_cases hkept : m.Kept
  · exact iff_of_true hkept.le_mapOffset fun _ => hkept
  · obtain ⟨htext, hmap⟩ := left_out hkept
    have hsilent : m.isSilent = true := by
      rw [isSilent, hbroken, htext]
      rfl
    refine iff_of_false ?_ fun h => hkept (h hsilent)
    obtain ⟨c, cs, hcs⟩ := List.exists_cons_of_ne_nil hbody
    have hc := c.utf8Size_pos
    rw [hmap, hcs, byteLength_cons]
    omega

end Clean

-- ============================================================= the end

/-- The end of a derived file: the lines of the history in front of what
stands behind its last line break, and the origin that is meant for that. -/
structure SourceFile.Ending (d : SourceFile) (after : Sources)
    (file : FileId) (f : SourceFile) (earlier : List Made) (tail : List Char)
    (o : LineOrigin) : Prop where
  name : d.name ≠ f.name
  text : d.text.toList = earlier.flatMap Made.laid ++ tail
  plain : ∀ m ∈ earlier, '\n' ∉ m.text
  tail : '\n' ∉ tail
  origins : ∃ front rest, d.origins = some (front ++ o :: rest)
    ∧ front.map LineOrigin.place = earlier.map Made.place
  entry : after.get? file = some f
  file : o.file = file
  line : o.line = f.text.toList.count '\n' + 1
  inside : ∀ m ∈ earlier, ∀ w, after.get? m.file = some w →
    w.name = f.name →
      m.line.broken = true ∧ m.line.number ≤ f.text.toList.count '\n'

namespace SourceFile.Ending

variable {d f : SourceFile} {after : Sources} {target file : FileId}
  {earlier : List Made} {tail before behind : List Char} {o : LineOrigin}

theorem loud_of_entry (h : d.Ending after file f earlier tail o) {m : Made}
    (hm : m ∈ earlier) (hfile : m.file = file) : m.isSilent = false := by
  obtain ⟨hbroken, -⟩ := h.inside m hm f (hfile ▸ h.entry) rfl
  rw [Made.isSilent, hbroken]
  rfl

/-- If all lines in front left one in the text, the end is shown where the
origin that was meant for it says. -/
theorem locate (h : d.Ending after file f earlier tail o)
    (hd : after.get? target = some d)
    (hloud : ∀ m ∈ earlier, m.isSilent = false)
    (hf : f.text.toList = before ++ behind)
    (hcount : before.count '\n' = f.text.toList.count '\n')
    (hle : byteLength (lastLine before) ≤ o.mapOffset (byteLength tail))
    (hend : behind = []
      ∨ o.mapOffset (byteLength tail) ≤ byteLength (lastLine before)) :
    after.locate (.point target d.size)
      = ⟨f.name, (placeBehind before).1, (placeBehind before).2⟩ := by
  obtain ⟨front, rest, horigins, hplaces⟩ := h.origins
  have hlaid : ∀ m ∈ earlier, ∃ body, '\n' ∉ body
      ∧ m.laid = body ++ ['\n'] :=
    fun m hm => ⟨m.text, h.plain m hm, Made.laid_of_loud (hloud m hm)⟩
  obtain ⟨hlines, hlast⟩ := place_flatMap hlaid h.tail
  rw [← h.text] at hlines hlast
  have hfront : front.length = earlier.length := by
    simpa using congrArg List.length hplaces
  refine Sources.locate_eq hd horigins (List.append_nil _).symm d.size_eq ?_
    (h.file ▸ h.entry) hf (by rw [h.line, hcount]) (by rwa [hlast])
    (by rwa [hlast])
  rw [hlines, ← hfront, List.getElem?_append_right (Nat.le_refl _),
    Nat.sub_self]
  rfl

/-- If the end is shown on the last line of the entry file, all lines in front
left one in the text. -/
theorem loud (h : d.Ending after file f earlier tail o)
    (hd : after.get? target = some d)
    (hname : (after.locate (.point target d.size)).name = f.name)
    (hline : (after.locate (.point target d.size)).line
      = f.text.toList.count '\n' + 1) :
    ∀ m ∈ earlier, m.isSilent = false := by
  rw [← length_filter_loud_iff]
  by_contra hne
  obtain ⟨front, rest, horigins, hplaces⟩ := h.origins
  have hcount : d.text.toList.count '\n'
      = (earlier.filter (!·.isSilent)).length := by
    rw [h.text, List.count_append, List.count_eq_zero.2 h.tail,
      count_flatMap_laid h.plain, Nat.add_zero]
  -- the origin of a line that ended
  have hlt : d.text.toList.count '\n' < earlier.length := by
    have := List.length_filter_le (fun m => !Made.isSilent m) earlier
    omega
  have hplace : front[d.text.toList.count '\n']?.map LineOrigin.place
      = some earlier[d.text.toList.count '\n'].place := by
    rw [← List.getElem?_map, hplaces, List.getElem?_map,
      List.getElem?_eq_getElem hlt]
    rfl
  obtain ⟨o', ho', hplace⟩ := Option.map_eq_some_iff.1 hplace
  have horigin : (front ++ o :: rest)[d.text.toList.count '\n']?
      = some o' := by
    rw [List.getElem?_append_left (List.getElem?_eq_some_iff.1 ho').1, ho']
  have hstart : (Span.point target d.size).start = byteLength d.text.toList :=
    d.size_eq
  rcases Sources.locate_line hd horigins (List.append_nil _).symm hstart
    horigin with hderived | ⟨w, hw, hwritten, hnumber⟩
  · exact h.name (hderived.symm.trans hname)
  · obtain ⟨hfile, hplace⟩ := Prod.mk.inj hplace
    rw [hfile] at hw
    obtain ⟨-, hle⟩ := h.inside _ (List.getElem_mem hlt) w hw
      (hwritten.symm.trans hname)
    rw [hline, hplace] at hnumber
    omega

/-- The end is shown at the end of the entry file exactly if all lines in front
left one in the text, and the origin that was meant for the end leads
there. An origin without shifts leads to where the last line begins. -/
theorem locate_iff (h : d.Ending after file f earlier tail o)
    (hd : after.get? target = some d)
    (hmap : byteLength (lastLine f.text.toList)
        ≤ o.mapOffset (byteLength tail)
      ∨ o.mapOffset (byteLength tail) = 0) :
    after.locate (.point target d.size)
        = ⟨f.name, (placeBehind f.text.toList).1,
          (placeBehind f.text.toList).2⟩
      ↔ (∀ m ∈ earlier, m.isSilent = false)
        ∧ byteLength (lastLine f.text.toList)
          ≤ o.mapOffset (byteLength tail) := by
  constructor
  · intro hshown
    have hloud := h.loud hd (congrArg Location.name hshown)
      (congrArg Location.line hshown)
    refine ⟨hloud, hmap.elim (·) fun hmap => ?_⟩
    obtain ⟨front, hsplit, hfront, hcount⟩ := exists_front f.text.toList
    have hbegin := h.locate hd hloud hsplit hcount
      (by rw [hmap, hfront, byteLength_nil]) (.inr (hmap ▸ Nat.zero_le _))
    have hcolumn := congrArg Location.column (hshown.symm.trans hbegin)
    simp only [placeBehind, hfront, List.length_nil] at hcolumn
    rw [hmap, List.length_eq_zero_iff.1 (Nat.succ.inj hcolumn),
      byteLength_nil]
  · rintro ⟨hloud, hmap⟩
    exact h.locate hd hloud (List.append_nil _).symm rfl hmap (.inl rfl)

end SourceFile.Ending

namespace Clean

theorem endOrigin_eq (file : FileId) (f : SourceFile) :
    endOrigin file f = ⟨file, f.text.toList.count '\n' + 1,
      [⟨0, byteLength (lastLine f.text.toList), false⟩]⟩ := by
  have htext := (List.append_nil f.text.toList).symm
  have hline : (f.lineCol (byteLength f.text.toList)).1
      = f.text.toList.count '\n' + 1 := by
    rw [SourceFile.lineCol_behind htext]
    rfl
  unfold endOrigin
  simp only [f.size_eq, hline, SourceFile.lineStart?_behind htext,
    Option.getD_some, Nat.sub_sub_self (byteLength_lastLine_le _)]

/-- A draft that ends with a line that was laid without a line break. -/
theorem Laid.concat {s s' : State} {earlier : List Made} {m : Made}
    {d : Draft} (hs : s.draft = .empty) (h : Laid s (earlier ++ [m]) s')
    (hstart : d.atLineStart = true) (hbroken : m.line.broken = false)
    (hdraft : s'.draft = d.addLine m.text false m.origin) :
    s'.draft.text = earlier.flatMap Made.laid ++ m.text
      ∧ s'.draft.origins.toList = d.origins.toList ++ [m.origin]
      ∧ d.origins.toList.map LineOrigin.place = earlier.map Made.place := by
  have htext := h.text
  have horigins := h.origins
  rw [hs, hdraft, ← hbroken,
    Draft.text_endLine_addLine hstart (h.plain m (by simp)),
    List.flatMap_append, List.flatMap_singleton] at htext
  rw [hs, hdraft, List.map_append] at horigins
  rw [hdraft]
  refine ⟨?_, Array.toList_push, ?_⟩
  · rw [Draft.text_addLine, List.append_cancel_right htext]
    simp
  · refine List.append_inj_left' (Eq.trans ?_ horigins) rfl
    rw [Draft.addLine, Array.toList_push, List.map_append]
    rfl

/-- Blanking comments leaves the last line as long as it is. -/
theorem byteLength_lastLine_blanked {text blanked : List Char}
    (h : blankComments text = .ok blanked) :
    byteLength (lastLine blanked) = byteLength (lastLine text) := by
  obtain ⟨parts, hparts, rfl⟩ := exists_parted h
  have hbreaks := Part.behindBreaks_left 0 parts
  rw [hparts.written, ← List.append_nil text,
    ← List.append_nil (parts.flatMap Part.left)] at hbreaks
  exact (place_of_behindBreaks (blankComments_ok h).1 hbreaks).2

/-- A line of a history that was read under the name of the entry file is a
line with a line break. -/
theorem Made.Inside.of_name {sources after : Sources} {file : FileId}
    {f w : SourceFile} {blanked : List Char} {m : Made}
    (hm : m.Inside file (lines blanked) [f.name] sources)
    (hkeeps : sources.Keeps after)
    (hblanked : blankComments f.text.toList = .ok blanked)
    (hw : after.get? m.file = some w) (hname : w.name = f.name) :
    m.line.broken = true
      ∧ m.line.number ≤ f.text.toList.count '\n' := by
  rcases hm with ⟨-, hline, hbroken⟩ | ⟨g, hg, hother⟩
  · rw [← (blankComments_ok hblanked).2]
    exact ⟨hbroken, (number_of_mem_lines hline).1 hbroken⟩
  · obtain rfl := Option.some.inj (hw.symm.trans (hkeeps _ _ hg))
    exact absurd (List.mem_singleton.2 hname) hother

end Clean

variable {sources after : Sources} {file : FileId} {resolver : Resolver}
  {cleaned : Cleaned} {f : SourceFile}

/-- How the end of a cleaned text comes about: it has the origin of the end of
the entry file, or that of the last line of the entry file. -/
theorem Cleaned.ending
    (h : ofFile sources file resolver = (.ok cleaned, after))
    (hf : sources.get? file = some f) :
    ∃ derived earlier tail o, after.get? cleaned.file = some derived
      ∧ derived.Ending after file f earlier tail o
      ∧ ((history sources file resolver = earlier ∧ tail = []
          ∧ o = endOrigin file f)
        ∨ ∃ m, history sources file resolver = earlier ++ [m]
          ∧ m.file = file ∧ m.line.broken = false ∧ m.line.body ≠ []
          ∧ byteLength m.line.body = byteLength (lastLine f.text.toList)
          ∧ tail = m.text ∧ o = m.origin) := by
  obtain ⟨t, hrun, hlaid, hderived, hkept⟩ := ofFile_ok h hf
  obtain ⟨source, blanked, u, hsource, hblanked, hlines, ht⟩ :=
    cleanFile_ok hrun
  obtain rfl : u = t := ht.symm
  obtain rfl := Option.some.inj (hf.symm.trans hsource)
  have hend := foldlM_ending (List.cons_ne_nil _ _) rfl
    (fun _ hl => broken_of_mem_dropLast_lines hl) hlines
  have hmade : history sources file resolver = _ := madeFile_eq hf hblanked
  rw [← hmade] at hend
  have hentry := hkept _ _ (hlaid.sources _ _ hf)
  have hname : f.name ++ " (preprocessed)" ≠ f.name := by
    intro h
    simpa using congrArg String.length h
  have hlaid : Laid (.start sources) (history sources file resolver) u :=
    hlaid
  rcases hend with ⟨hstart, hall⟩ |
    ⟨earlier, m, d, hhistory, hall, hfile, hline, hbroken, hd, hdraft⟩
  · -- the origin of the end is added
    refine ⟨_, _, [], endOrigin file f, hderived, ?_, .inl ⟨rfl, rfl, rfl⟩⟩
    have htext := hlaid.text
    rw [Draft.endLine_of_atLineStart hstart] at htext
    exact {
      name := hname
      text := by
        rw [String.toList_ofList, htext, List.append_nil]
        rfl
      plain := hlaid.plain
      tail := List.not_mem_nil
      origins := ⟨u.draft.origins.toList, [], by
        simp [Draft.markEnd, hstart], hlaid.origins⟩
      entry := hentry
      file := by rw [endOrigin_eq]
      line := by rw [endOrigin_eq]
      inside := fun m hm _ => (hall m hm).of_name hkept hblanked }
  · -- the last line of the entry file has one
    obtain ⟨hnumber, hbody⟩ := (number_of_mem_lines hline).2 hbroken
    rw [hhistory] at hlaid
    obtain ⟨htext, horigins, hplaces⟩ := hlaid.concat rfl hd hbroken hdraft
    obtain ⟨rest, hrest⟩ := Draft.origins_markEnd u.draft (endOrigin file f)
    rw [horigins, List.append_assoc] at hrest
    refine ⟨_, earlier, m.text, m.origin, hderived, ?_,
      .inr ⟨m, hhistory, hfile, hbroken, body_ne_nil_of_mem_linesFrom hline
        hbroken, ?_, rfl, rfl⟩⟩
    · exact {
        name := hname
        text := by rw [String.toList_ofList, htext]
        plain := fun m' hm' => hlaid.plain m' (List.mem_append_left _ hm')
        tail := hlaid.plain m (by simp)
        origins := ⟨d.origins.toList, rest, congrArg some hrest, hplaces⟩
        entry := hentry
        file := hfile
        line := hnumber.trans
          (congrArg (· + 1) (blankComments_ok hblanked).2)
        inside := fun m' hm' _ => (hall m' hm').of_name hkept hblanked }
    · rw [hbody, byteLength_lastLine_blanked hblanked]

/-- The end of a cleaned text is shown at the end of the entry file exactly if
no silent line was read, other than a last line of the entry file that is no
directive and counts. -/
theorem Cleaned.locate_end_iff
    (h : ofFile sources file resolver = (.ok cleaned, after))
    (hf : sources.get? file = some f) :
    ∃ derived, after.get? cleaned.file = some derived
      ∧ (after.locate (.point cleaned.file derived.size)
          = ⟨f.name, (placeBehind f.text.toList).1,
            (placeBehind f.text.toList).2⟩
        ↔ ∀ m ∈ history sources file resolver, m.isSilent = true →
          m.file = file ∧ m.active = true
            ∧ hashLine? m.line.body = none) := by
  obtain ⟨derived, earlier, tail, o, hderived, hend, hcases⟩ := ending h hf
  refine ⟨derived, hderived, ?_⟩
  have hloud (hsilent : ∀ m ∈ earlier, m.isSilent = true → m.file = file) :
      ∀ m ∈ earlier, m.isSilent = false := by
    intro m hm
    by_contra h
    exact h (hend.loud_of_entry hm (hsilent m hm (by simpa using h)))
  rcases hcases with ⟨hhistory, rfl, rfl⟩ |
    ⟨m, hhistory, hfile, hbroken, hbody, hlength, rfl, rfl⟩
  · have hmap : byteLength (lastLine f.text.toList)
        ≤ (endOrigin file f).mapOffset (byteLength []) := by
      rw [endOrigin_eq]
      exact Nat.le_refl _
    rw [hend.locate_iff hderived (.inl hmap), hhistory]
    constructor
    · rintro ⟨hloud, -⟩ m hm hsilent
      rw [hloud m hm] at hsilent
      cases hsilent
    · exact fun hsilent => ⟨hloud fun m hm h => (hsilent m hm h).1, hmap⟩
  · have hmap : byteLength (lastLine f.text.toList)
          ≤ m.origin.mapOffset (byteLength m.text)
        ∨ m.origin.mapOffset (byteLength m.text) = 0 := by
      rw [← hlength]
      by_cases hkept : m.Kept
      · exact .inl hkept.le_mapOffset
      · exact .inr (Made.left_out hkept).2
    rw [hend.locate_iff hderived hmap, hhistory, ← hlength,
      Made.le_mapOffset_iff hbroken hbody]
    constructor
    · rintro ⟨hloud, hkept⟩ m' hm' hsilent
      rcases List.mem_append.1 hm' with hm' | hm'
      · rw [hloud m' hm'] at hsilent
        cases hsilent
      · obtain rfl := List.mem_singleton.1 hm'
        exact ⟨hfile, hkept hsilent⟩
    · intro hsilent
      exact ⟨hloud fun m' hm' h => (hsilent m' (by simp [hm']) h).1,
        fun h => (hsilent m (by simp) h).2⟩

/-- A file that is nothing but a directive, with no line break behind it. -/
def directiveFile : SourceFile := ⟨"main.q", "#define A 1", none⟩

/-- The end of its cleaned text is not shown at its end, but where it
begins. -/
theorem Cleaned.locate_end_of_directive :
    ∃ cleaned after derived,
      ofFile ⟨#[directiveFile]⟩ 0 (fun _ _ => none) = (.ok cleaned, after)
        ∧ after.get? cleaned.file = some derived
        ∧ placeBehind directiveFile.text.toList = (1, 12)
        ∧ after.locate (.point cleaned.file derived.size) ≠ ⟨"main.q", 1, 12⟩
        ∧ after.locate (.point cleaned.file derived.size)
          = ⟨"main.q", 1, 1⟩ := by
  have hok : (ofFile ⟨#[directiveFile]⟩ 0 (fun _ _ => none)).1.toOption
      = some ⟨1, [], ["A"]⟩ := by decide +kernel
  have hrun := run_eq hok
  have hplace : placeBehind directiveFile.text.toList = (1, 12) := by
    decide +kernel
  have hf : (⟨#[directiveFile]⟩ : Sources).get? 0 = some directiveFile := rfl
  obtain ⟨derived, hderived, hshown⟩ := locate_end_iff hrun hf
  rw [hplace] at hshown
  refine ⟨_, _, derived, hrun, hderived, hplace, fun hend => ?_, ?_⟩
  · -- the line is silent, and a directive
    have hsilent := hshown.1 hend
      ⟨0, ⟨1, 0, "#define A 1".toList, false⟩, [], true⟩
      (by decide +kernel) (by decide +kernel)
    exact absurd hsilent.2.2 (by decide +kernel)
  · have hderived' : (ofFile ⟨#[directiveFile]⟩ 0 (fun _ _ => none)).2.get? 1
        = some ⟨"main.q (preprocessed)", "",
          some [.copied 0 1, ⟨0, 1, [⟨0, 11, false⟩]⟩]⟩ := by decide +kernel
    cases hderived.symm.trans hderived'
    decide +kernel

end Script
