/-
Cleaning a cleaned text. A text in which nothing is left to be cleaned has
no comment and no directive, and cleaning leaves it as it is. What comes
out of a cleaning that put nothing in place of a word is such a text: its
lines are lines that were read, or empty.

That lines without comments stay so when they are put together is the point
of `uncommented_iff`. A literal ends with its line, and the mark that begins
a comment stands on one line; so a line break neither makes a comment nor
ends one, and a text is without comments if each of its lines is, whatever
texts the lines come from.
-/
import Script.Proofs.Macros.Words
import Script.Proofs.Places.Carried

namespace Script

namespace Clean

open Text

-- ==================================================== without comments

/-- A text that has no comments. -/
inductive Uncommented : List Char → Prop
  | nil : Uncommented []
  | code {c : Char} {rest : List Char} (hc : c ≠ '"')
      (hslash : c = '/' → ∀ d ∈ rest.head?, d ≠ '/' ∧ d ≠ '*')
      (h : Uncommented rest) : Uncommented (c :: rest)
  | literal {body rest : List Char} (hbody : Literal body rest)
      (h : Uncommented rest) : Uncommented ('"' :: (body ++ rest))

/-- A character of code that begins no comment. -/
theorem pieceAt_code {c : Char} {rest : List Char} (hc : c ≠ '"')
    (hslash : c = '/' → ∀ d ∈ rest.head?, d ≠ '/' ∧ d ≠ '*')
    (offset : Nat) : pieceAt offset .code c rest = ⟨false, [c], .code⟩ := by
  unfold pieceAt
  split
  case h_1 => exact absurd rfl (hslash rfl '/' rfl).1
  case h_2 => exact absurd rfl (hslash rfl '*' rfl).2
  case h_3 => exact absurd rfl hc
  all_goals simp_all

/-- Where there is no comment, blanking changes nothing. -/
theorem Uncommented.blankCommentsFrom {text : List Char}
    (h : Uncommented text) (offset : Nat) (done : List Char) :
    Clean.blankCommentsFrom offset .code done text
      = .ok (done.reverse ++ text) := by
  induction h generalizing offset done with
  | nil => exact congrArg Except.ok (List.append_nil _).symm
  | @code c rest hc hslash _ ih =>
      obtain ⟨next, hstep⟩ :=
        blankCommentsFrom_piece (pieceAt_code hc hslash offset) done
      exact hstep.trans ((ih next _).trans (by simp))
  | @literal body rest hbody _ ih =>
      obtain ⟨next, hstep⟩ := blankCommentsFrom_piece
        (rfl : pieceAt offset .code '"' (body ++ rest)
          = ⟨false, ['"'], .string⟩) done
      obtain ⟨next', hliteral⟩ := hbody.blankCommentsFrom next ('"' :: done)
      exact hstep.trans (hliteral.trans ((ih next' _).trans (by simp)))

-- =============================================== cutting and joining

theorem Literal.newline_not_mem {body rest : List Char}
    (h : Literal body rest) : '\n' ∉ body := by
  induction h with
  | closed => decide
  | ended hslash => rcases hslash with rfl | rfl <;> decide
  | plain hc _ ih =>
      intro hmem
      rcases List.mem_cons.1 hmem with rfl | hmem
      · exact hc (by decide)
      · exact ih hmem
  | escape hc _ ih =>
      intro hmem
      rcases List.mem_cons.1 hmem with h | hmem
      · cases h
      · rcases List.mem_cons.1 hmem with rfl | hmem
        · exact hc rfl
        · exact ih hmem

/-- What stands in front of a line break and what stands behind it. -/
theorem Uncommented.cut {front back : List Char}
    (h : Uncommented (front ++ '\n' :: back)) :
    Uncommented front ∧ Uncommented back := by
  generalize htext : front ++ '\n' :: back = text at h
  induction h generalizing front with
  | nil => cases front <;> cases htext
  | @code c rest hc hslash h ih =>
      cases front with
      | nil =>
          obtain ⟨rfl, rfl⟩ := List.cons.inj htext
          exact ⟨.nil, h⟩
      | cons d front =>
          obtain ⟨rfl, hrest⟩ := List.cons.inj htext
          change front ++ '\n' :: back = rest at hrest
          subst hrest
          obtain ⟨hfront, hback⟩ := ih rfl
          refine ⟨.code hc (fun hd e he => ?_) hfront, hback⟩
          apply hslash hd
          rw [List.head?_append, Option.mem_def.1 he]
          rfl
  | @literal body rest hbody h ih =>
      cases front with
      | nil =>
          obtain ⟨hquote, -⟩ := List.cons.inj htext
          cases hquote
      | cons d front =>
          obtain ⟨rfl, hrest⟩ := List.cons.inj htext
          rcases cut_append hrest.symm with
            ⟨between, rfl, -⟩ | ⟨front', rfl, rfl⟩
          · exact absurd (by simp) hbody.newline_not_mem
          · obtain ⟨hfront, hback⟩ := ih rfl
            refine ⟨.literal (hbody.of_head ?_) hfront, hback⟩
            intro hhead e he
            apply hhead
            rw [List.head?_append, Option.mem_def.1 he]
            rfl

/-- A text and another one on the lines below. -/
theorem Uncommented.join {front back : List Char} (h : Uncommented front)
    (hback : Uncommented back) : Uncommented (front ++ '\n' :: back) := by
  have hhead {p : Char → Prop} {rest : List Char}
      (hrest : ∀ c ∈ rest.head?, p c) (hbreak : p '\n') :
      ∀ c ∈ (rest ++ '\n' :: back).head?, p c := by
    cases rest with
    | nil => rintro _ ⟨⟩; exact hbreak
    | cons d rest => exact hrest
  induction h with
  | nil =>
      exact .code (by decide) (fun h => absurd h (by decide)) hback
  | code hc hslash _ ih =>
      exact .code hc (fun hc => hhead (hslash hc) (by decide)) ih
  | literal hbody _ ih =>
      rw [List.cons_append, List.append_assoc]
      exact .literal (hbody.of_head fun hrest => hhead hrest rfl) ih

/-- Comments are a matter of single lines: a text has none if none of its
lines has. -/
theorem uncommented_iff {text : List Char} :
    Uncommented text ↔ ∀ line ∈ text.splitOn '\n', Uncommented line := by
  induction hn : text.length using Nat.strongRecOn generalizing text with
  | ind n ih =>
  subst hn
  by_cases hbreak : '\n' ∈ text
  · obtain ⟨front, back, rfl, hfront⟩ := List.eq_append_cons_of_mem hbreak
    have hback : Uncommented back
        ↔ ∀ line ∈ back.splitOn '\n', Uncommented line :=
      ih back.length (by simp; omega) rfl
    rw [List.splitOn_append_cons_self, List.splitOn_eq_singleton hfront,
      List.singleton_append, List.forall_mem_cons, ← hback]
    constructor
    · exact Uncommented.cut
    · rintro ⟨hfront, hback⟩
      exact hfront.join hback
  · rw [List.splitOn_eq_singleton hbreak, List.forall_mem_singleton]

-- =========================================================== blanking

/-- What is left of a text begins as the text does, or with a space if a
comment began there. -/
theorem Parted.mem_head_left {text : List Char} {parts : List Part}
    (h : Parted text parts) {d : Char}
    (hd : d ∈ (parts.flatMap Part.left).head?) :
    d ∈ text.head? ∨ d = ' ' ∧ '/' ∈ text.head? := by
  have hmark : cleared '/' = [' '] := by decide
  cases h with
  | nil => cases hd
  | code | literal => exact .inl hd
  | lineComment | blockComment =>
      rw [List.flatMap_cons, Part.left, List.flatMap_cons, hmark] at hd
      exact .inr ⟨(Option.some.inj hd).symm, rfl⟩

/-- Spaces and line breaks in front of a text are no comment. -/
theorem Uncommented.behind {front rest : List Char}
    (hfront : ∀ c ∈ front, c = ' ' ∨ c = '\n') (h : Uncommented rest) :
    Uncommented (front ++ rest) := by
  induction front with
  | nil => exact h
  | cons c front ih =>
      obtain ⟨hc, hfront⟩ := List.forall_mem_cons.1 hfront
      have hquote : c ≠ '"' := by rcases hc with rfl | rfl <;> decide
      have hslash : c ≠ '/' := by rcases hc with rfl | rfl <;> decide
      exact .code hquote (fun h => absurd h hslash) (ih hfront)

/-- When the comments of a text are blanked, none are left. -/
theorem Parted.uncommented {text : List Char} {parts : List Part}
    (h : Parted text parts) : Uncommented (parts.flatMap Part.left) := by
  have hcleared (cs : List Char) : ∀ c ∈ cs.flatMap cleared,
      c = ' ' ∨ c = '\n' := by
    intro c hc
    obtain ⟨d, -, hd⟩ := List.mem_flatMap.1 hc
    exact mem_cleared hd
  induction h with
  | nil => exact .nil
  | @code c rest parts hc hslash h ih =>
      refine .code hc (fun hd d hmem => ?_) ih
      rcases h.mem_head_left hmem with hmem | ⟨rfl, -⟩
      · exact hslash hd d hmem
      · decide
  | @literal body rest parts hbody h ih =>
      rw [List.flatMap_cons]
      refine .literal (hbody.of_head fun hrest d hmem => ?_) ih
      rcases h.mem_head_left hmem with hmem | ⟨-, hmem⟩
      · exact hrest d hmem
      · cases hrest _ hmem
  | lineComment _ _ _ ih | blockComment _ _ ih =>
      rw [List.flatMap_cons]
      exact ih.behind (hcleared _)

-- ============================================================== lines

/-- The lines of a text are the pieces between its line breaks. -/
theorem body_mem_splitOn_of_linesFrom {number start : Nat}
    {body text : List Char} (hbody : '\n' ∉ body) {l : Line}
    (hl : l ∈ linesFrom number start body text) :
    l.body ∈ (body.reverse ++ text).splitOn '\n' := by
  have hplain : '\n' ∉ body.reverse := fun h => hbody (List.mem_reverse.1 h)
  induction text generalizing number start body with
  | nil =>
      unfold linesFrom at hl
      split at hl
      · cases hl
      · obtain rfl := List.mem_singleton.1 hl
        rw [List.append_nil, List.splitOn_eq_singleton hplain]
        exact List.mem_singleton_self _
  | cons c cs ih =>
      by_cases hc : c = '\n'
      · subst hc
        rw [linesFrom_break _ _ _ rfl] at hl
        rw [List.splitOn_append_cons_self, List.splitOn_eq_singleton hplain,
          List.singleton_append]
        rcases List.mem_cons.1 hl with rfl | hl
        · exact List.mem_cons_self ..
        · exact List.mem_cons_of_mem _
            (ih List.not_mem_nil hl List.not_mem_nil)
      · rw [linesFrom_char _ _ _ hc] at hl
        have hmore : '\n' ∉ c :: body := by
          intro hmem
          rcases List.mem_cons.1 hmem with h | h
          · exact hc h.symm
          · exact hbody h
        have hrest := ih hmore hl fun h => hmore (List.mem_reverse.1 h)
        rwa [List.reverse_cons, List.append_assoc] at hrest

theorem body_mem_splitOn {text : List Char} {l : Line}
    (hl : l ∈ lines text) : l.body ∈ text.splitOn '\n' :=
  body_mem_splitOn_of_linesFrom List.not_mem_nil hl

/-- A line that was read and in which no word is replaced. -/
def Made.Untouched (m : Made) : Prop :=
  m.active = true → hashLine? m.line.body = none →
    ∀ p ∈ pieces m.line.body, m.macros.replacement? p = none

instance : DecidablePred Made.Untouched := fun m =>
  inferInstanceAs (Decidable (m.active = true →
    hashLine? m.line.body = none →
      ∀ p ∈ pieces m.line.body, m.macros.replacement? p = none))

/-- Such a line is left as it is, if anything is left of it. -/
theorem Made.Untouched.text {m : Made} (h : m.Untouched) :
    m.text = []
      ∨ m.text = m.line.body ∧ hashLine? m.line.body = none := by
  unfold Made.text
  split
  case isFalse => exact .inl rfl
  case isTrue hleft =>
      obtain ⟨hactive, hplain⟩ := Bool.and_eq_true_iff.1 hleft
      have hnone := Option.isNone_iff_eq_none.1 hplain
      refine .inr ⟨?_, hnone⟩
      have hput (p : List Char) (hp : p ∈ pieces m.line.body) :
          m.macros.put p = p := by
        unfold Macros.put
        rw [h hactive hnone p hp]
        rfl
      rw [text_expand, flatMap_put_eq_flatten hput, flatten_pieces]

/-- A line of a registered file has no comments. -/
theorem Made.Genuine.uncommented {sources : Sources} {m : Made}
    (h : m.Genuine sources) : Uncommented m.line.body := by
  obtain ⟨f, text, -, hblanked, hline⟩ := h
  obtain ⟨parts, hparts, rfl⟩ := exists_parted hblanked
  exact uncommented_iff.1 hparts.uncommented _ (body_mem_splitOn hline)

/-- What is left of it is a line without comments, and no directive. -/
theorem Made.Untouched.clean {sources : Sources} {m : Made}
    (h : m.Untouched) (hgenuine : m.Genuine sources) :
    Uncommented m.text ∧ hashLine? m.text = none := by
  rcases h.text with htext | ⟨htext, hnone⟩
  · rw [htext]
    exact ⟨.nil, rfl⟩
  · rw [htext]
    exact ⟨hgenuine.uncommented, hnone⟩

end Clean

open Clean

/-- A file that can be cleaned is registered. -/
theorem Cleaned.get?_of_ofFile_ok {sources after : Sources} {file : FileId}
    {resolver : Resolver} {cleaned : Cleaned}
    (h : ofFile sources file resolver = (.ok cleaned, after)) :
    ∃ f, sources.get? file = some f := by
  unfold ofFile at h
  dsimp only at h
  cases hrun : cleanFile resolver (maxOpenFiles - 1) [] file
      ⟨sources, [], .empty, #[]⟩ with
  | ok u t =>
      obtain ⟨f, -, -, hf, -⟩ := cleanFile_ok hrun
      exact ⟨f, hf⟩
  | error e t =>
      rw [hrun] at h
      cases h

/-- Cleaning a cleaned text changes nothing, if no word of it was put for a
macro: whatever was read, there are no comments and no directives in what
it left. -/
theorem Cleaned.cleanText_again {sources after : Sources} {file : FileId}
    {resolver : Resolver} {cleaned : Cleaned}
    (h : ofFile sources file resolver = (.ok cleaned, after))
    (huntouched : ∀ m ∈ history sources file resolver, m.Untouched) :
    ∃ derived, after.get? cleaned.file = some derived
      ∧ cleanText derived.text = .ok derived.text := by
  obtain ⟨f, hf⟩ := get?_of_ofFile_ok h
  obtain ⟨t, -, hlaid, hderived, -⟩ := ofFile_ok h hf
  refine ⟨_, hderived, ?_⟩
  have hlines : ∀ line ∈ t.draft.text.splitOn '\n',
      Uncommented line ∧ hashLine? line = none := by
    rw [splitOn_text_of_laid rfl hlaid (file, 0)]
    intro line hline
    obtain ⟨writer, hwriter, rfl⟩ := List.mem_map.1 hline
    rcases List.mem_append.1 hwriter with hmade | hend
    · obtain ⟨m, hm, rfl⟩ := List.mem_map.1 hmade
      have hm := (List.mem_filter.1 hm).1
      exact (huntouched m hm).clean (hlaid.genuine m hm)
    · split at hend
      · obtain rfl := List.mem_singleton.1 hend
        exact ⟨.nil, rfl⟩
      · cases hend
  apply cleanText_eq_self
  · rw [String.toList_ofList]
    exact (uncommented_iff.2 fun line hline =>
      (hlines line hline).1).blankCommentsFrom 0 []
  · rw [String.toList_ofList]
    intro l hl
    exact (hlines _ (body_mem_splitOn hl)).2

/-- Comments, directives and a file that is included, and a macro that is
only asked for: the cleaned text has none of them, and is cleaned again
without a change. -/
theorem Cleaned.cleanText_again_of_branches :
    let resolver : Resolver := fun _ path =>
      some ⟨path, "/* of b */ print \"//\"; // rest"⟩
    let sources := (Sources.empty.add "main.q"
      ("#define A 1\n#ifdef A\n /* */ #include \"b\"\n#else\n"
        ++ "print A;\n#endif\nlet x = 1; // one")).2
    ∃ cleaned after derived, ofFile sources 0 resolver = (.ok cleaned, after)
      ∧ after.get? cleaned.file = some derived
      ∧ derived.text
        = "\n\n           print \"//\";        \n\n\n\nlet x = 1;       "
      ∧ cleanText derived.text = .ok derived.text := by
  intro resolver sources
  have hok : (ofFile sources 0 resolver).1.toOption
      = some ⟨2, [1], ["A"]⟩ := by decide +kernel
  have htext : ((ofFile sources 0 resolver).2.get? 2).map (·.text) = some
      "\n\n           print \"//\";        \n\n\n\nlet x = 1;       " := by
    decide +kernel
  have hrun := run_eq hok
  obtain ⟨derived, hderived, hagain⟩ :=
    cleanText_again hrun (by decide +kernel)
  rw [hderived] at htext
  exact ⟨_, _, derived, hrun, hderived, Option.some.inj htext, hagain⟩

end Script
