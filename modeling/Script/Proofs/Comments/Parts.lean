/-
Comments, in their own words. A text is made of characters of code, of
string literals and of comments, one behind the other, and what stands at
a place is settled by what comes before it: a quote in a comment opens no
literal, and in a literal no comment begins. A literal that is not closed
ends with its line, as one does for the lexer.

Blanking leaves code and literals alone and turns all of a comment but
its line breaks into spaces (`exists_parted`). So nothing moves: every
character that is in no comment is where it was (`Part.kept`), and so is
every line break (`Part.behindBreaks_left`).
-/
import Script.Proofs.Pasting.Texts
import Script.Proofs.Places.Columns
import Script.Proofs.Words.Lexemes

namespace Script.Clean

open Text

-- ============================================================ literals

/-- The characters of a string literal behind its opening quote, in front
of a rest. A literal that is not closed ends where its line does, and no
escape reaches over that end. -/
inductive Literal : List Char → List Char → Prop
  | closed (rest : List Char) : Literal ['"'] rest
  | ended {slash rest : List Char} (hslash : slash = [] ∨ slash = ['\\'])
      (hrest : ∀ c ∈ rest.head?, c = '\n') : Literal slash rest
  | plain {c : Char} {cs rest : List Char} (hc : c ∉ ['"', '\\', '\n'])
      (h : Literal cs rest) : Literal (c :: cs) rest
  | escape {c : Char} {cs rest : List Char} (hc : c ≠ '\n')
      (h : Literal cs rest) : Literal ('\\' :: c :: cs) rest

/-- Whatever is behind a quote, there is a literal. -/
theorem exists_literal (cs : List Char) :
    ∃ body rest, cs = body ++ rest ∧ Literal body rest := by
  -- the lexer tells the same cases apart
  fun_induction Token.StringBody.read 0 cs with
  | case1 => exact ⟨[], [], rfl, .ended (.inl rfl) (by simp)⟩
  | case2 _ cs =>
      exact ⟨[], '\n' :: cs, rfl, .ended (.inl rfl) (by rintro _ ⟨⟩; rfl)⟩
  | case3 _ cs => exact ⟨['"'], cs, rfl, .closed cs⟩
  | case4 => exact ⟨['\\'], [], rfl, .ended (.inr rfl) (by simp)⟩
  | case5 _ cs =>
      exact ⟨['\\'], '\n' :: cs, rfl, .ended (.inr rfl) (by rintro _ ⟨⟩; rfl)⟩
  | case6 _ c cs hc _ _ _ _ ih | case7 _ c cs hc _ _ _ ih =>
      obtain ⟨body, rest, rfl, h⟩ := ih
      exact ⟨'\\' :: c :: body, rest, rfl, .escape hc h⟩
  | case8 _ c cs hline hquote hback hback' hback'' _ ih =>
      have hbackslash : c ≠ '\\' := by
        rintro rfl
        cases cs with
        | nil => exact hback rfl rfl
        | cons d cs => exact hback'' d cs rfl rfl
      obtain ⟨body, rest, rfl, h⟩ := ih
      refine ⟨c :: body, rest, rfl, .plain ?_ h⟩
      simp only [List.mem_cons, List.not_mem_nil, or_false, not_or]
      exact ⟨hquote, hbackslash, hline⟩

/-- Where a rest begins is all that matters of it for a literal. -/
theorem Literal.of_head {body rest rest' : List Char} (h : Literal body rest)
    (hrest : (∀ c ∈ rest.head?, c = '\n') → ∀ c ∈ rest'.head?, c = '\n') :
    Literal body rest' := by
  induction h with
  | closed => exact .closed rest'
  | ended hslash h => exact .ended hslash (hrest h)
  | plain hc _ ih => exact .plain hc (ih hrest)
  | escape hc _ ih => exact .escape hc (ih hrest)

/-- The lexer takes the same characters behind a quote. -/
theorem Literal.taken {body rest : List Char} (h : Literal body rest)
    (offset : Nat) :
    (Token.StringBody.read offset (body ++ rest)).taken = body := by
  induction h generalizing offset with
  | closed rest => rfl
  | @ended slash rest hslash hrest =>
      rcases hslash with rfl | rfl <;> cases rest with
      | nil => rfl
      | cons c cs => obtain rfl := hrest c rfl; rfl
  | plain hc _ ih =>
      rw [List.cons_append, Token.read_plain hc]
      exact congrArg _ (ih _)
  | @escape c cs rest hc _ ih =>
      rw [List.cons_append, List.cons_append,
        Token.StringBody.read.eq_6 _ _ _ hc]
      split <;> exact congrArg (['\\', c] ++ ·) (ih _)

/-- One piece of a text, of which it is known what becomes of it. -/
theorem blankCommentsFrom_piece {offset : Nat} {region behind : Region}
    {c : Char} {cs put : List Char} {both : Bool}
    (h : pieceAt offset region c cs = ⟨both, put, behind⟩)
    (done : List Char) :
    ∃ next, blankCommentsFrom offset region done (c :: cs)
      = blankCommentsFrom next behind (put ++ done)
        (if both then cs.tail else cs) := by
  obtain ⟨next, hnext⟩ := blankCommentsFrom_cons offset region done c cs
  rw [h] at hnext
  exact ⟨next, hnext⟩

/-- Where a line ends, so does a literal. -/
theorem blankCommentsFrom_lineEnd {rest : List Char}
    (h : ∀ c ∈ rest.head?, c = '\n') {region : Region}
    (hregion : region = .string ∨ region = .lineComment) (offset : Nat)
    (done : List Char) :
    blankCommentsFrom offset region done rest
      = blankCommentsFrom offset .code done rest := by
  cases rest with
  | nil => rcases hregion with rfl | rfl <;> rfl
  | cons c cs =>
      obtain rfl := h c rfl
      rcases hregion with rfl | rfl <;> simp [blankCommentsFrom]

/-- A literal is left alone, and behind it there is code. -/
theorem Literal.blankCommentsFrom {body rest : List Char}
    (h : Literal body rest) (offset : Nat) (done : List Char) :
    ∃ next, Clean.blankCommentsFrom offset .string done (body ++ rest)
      = Clean.blankCommentsFrom next .code (body.reverse ++ done) rest := by
  induction h generalizing offset done with
  | closed rest => exact blankCommentsFrom_piece rfl done
  | @ended slash rest hslash hrest =>
      rcases hslash with rfl | rfl
      · exact ⟨offset, blankCommentsFrom_lineEnd hrest (.inl rfl) offset done⟩
      · cases rest with
        | nil => exact ⟨offset, rfl⟩
        | cons c cs =>
            obtain rfl := hrest c rfl
            exact ⟨offset + 1, by simp [Clean.blankCommentsFrom]; rfl⟩
  | @plain c cs rest hc _ ih =>
      simp only [List.mem_cons, List.not_mem_nil, or_false, not_or] at hc
      have hpiece : pieceAt offset .string c (cs ++ rest)
          = ⟨false, [c], .string⟩ := by
        unfold pieceAt
        split <;> simp_all
      obtain ⟨next, hstep⟩ := blankCommentsFrom_piece hpiece done
      obtain ⟨next', hrest⟩ := ih next (c :: done)
      refine ⟨next', hstep.trans (hrest.trans ?_)⟩
      rw [List.reverse_cons, List.append_assoc]
      rfl
  | @escape c cs rest hc _ ih =>
      have hpiece : pieceAt offset .string '\\' (c :: (cs ++ rest))
          = ⟨true, [c, '\\'], .string⟩ := by
        unfold pieceAt
        split <;> simp_all
      obtain ⟨next, hstep⟩ := blankCommentsFrom_piece hpiece done
      obtain ⟨next', hrest⟩ := ih next (c :: '\\' :: done)
      refine ⟨next', hstep.trans (hrest.trans ?_)⟩
      simp

-- =============================================================== parts

/-- A part of a text. -/
inductive Part where
  | code (c : Char)
  /-- A string literal, quotes included. -/
  | literal (cs : List Char)
  /-- A comment, with the marks around it. -/
  | comment (cs : List Char)

/-- What stands for a character of a comment. -/
def cleared (c : Char) : List Char := if c = '\n' then ['\n'] else blank c

namespace Part

/-- The characters of a part. -/
def written : Part → List Char
  | .code c => [c]
  | .literal cs | .comment cs => cs

/-- What blanking leaves of a part. -/
def left : Part → List Char
  | .code c => [c]
  | .literal cs => cs
  | .comment cs => cs.flatMap cleared

/-- The places of the comments of a text, which begins at an offset of a
file, by its parts. -/
def comments (file : FileId) (offset : Nat) : List Part → List Span
  | [] => []
  | .comment cs :: parts =>
      ⟨file, offset, byteLength cs⟩
        :: comments file (offset + byteLength cs) parts
  | part :: parts => comments file (offset + byteLength part.written) parts

end Part

/-- The parts of a text. A character of code is no quote, and begins no
comment; a line comment goes on to the end of its line, and a block
comment to the first mark that can end it. -/
inductive Parted : List Char → List Part → Prop
  | nil : Parted [] []
  | code {c : Char} {rest : List Char} {parts : List Part} (hc : c ≠ '"')
      (hslash : c = '/' → ∀ d ∈ rest.head?, d ≠ '/' ∧ d ≠ '*')
      (h : Parted rest parts) : Parted (c :: rest) (.code c :: parts)
  | literal {body rest : List Char} {parts : List Part}
      (hbody : Literal body rest) (h : Parted rest parts) :
      Parted ('"' :: (body ++ rest)) (.literal ('"' :: body) :: parts)
  | lineComment {body rest : List Char} {parts : List Part}
      (hbody : '\n' ∉ body) (hrest : ∀ c ∈ rest.head?, c = '\n')
      (h : Parted rest parts) :
      Parted ('/' :: '/' :: (body ++ rest))
        (.comment ('/' :: '/' :: body) :: parts)
  | blockComment {body rest : List Char} {parts : List Part}
      (hbody : ¬ ['*', '/'] <:+: body ++ ['*']) (h : Parted rest parts) :
      Parted ('/' :: '*' :: (body ++ '*' :: '/' :: rest))
        (.comment ('/' :: '*' :: (body ++ ['*', '/'])) :: parts)

-- ============================================================ comments

theorem mem_cleared {c d : Char} (h : d ∈ cleared c) :
    d = ' ' ∨ d = '\n' := by
  unfold cleared at h
  split at h
  · exact .inr (List.mem_singleton.1 h)
  · exact .inl (List.eq_of_mem_replicate h)

theorem reverse_cleared (c : Char) : (cleared c).reverse = cleared c := by
  unfold cleared blank
  split
  · rfl
  · exact List.reverse_replicate

theorem byteLength_cleared (c : Char) :
    byteLength (cleared c) = c.utf8Size := by
  unfold cleared
  split
  case isTrue h => rw [h]; rfl
  case isFalse => exact byteLength_blank c

/-- A character that a comment goes on behind. -/
theorem blankCommentsFrom_inside {offset : Nat} {region : Region}
    {c : Char} {rest : List Char}
    (h : pieceAt offset region c rest = ⟨false, cleared c, region⟩)
    (done : List Char) :
    ∃ next, blankCommentsFrom offset region done (c :: rest)
      = blankCommentsFrom next region ((cleared c).reverse ++ done) rest := by
  rw [reverse_cleared]
  exact blankCommentsFrom_piece h done

/-- What is on a line, and what is behind it. -/
theorem exists_lineComment (cs : List Char) :
    ∃ body rest, cs = body ++ rest ∧ '\n' ∉ body
      ∧ ∀ c ∈ rest.head?, c = '\n' := by
  refine ⟨cs.takeWhile (· ≠ '\n'), cs.dropWhile (· ≠ '\n'),
    List.takeWhile_append_dropWhile.symm, fun h => ?_, fun c hc => ?_⟩
  · simpa using List.mem_takeWhile_imp h
  · have hne : cs.dropWhile (· ≠ '\n') ≠ [] := by
      rintro hnil
      rw [hnil] at hc
      cases hc
    have hhead := List.head_dropWhile_not (· ≠ '\n') hne
    rw [List.head_eq_iff_head?_eq_some hne |>.2 hc] at hhead
    simpa using hhead

/-- A line comment is cleared up to the end of its line. -/
theorem blankCommentsFrom_lineComment {body rest : List Char}
    (hbody : '\n' ∉ body) (hrest : ∀ c ∈ rest.head?, c = '\n')
    (offset : Nat) (done : List Char) :
    ∃ next, blankCommentsFrom offset .lineComment done (body ++ rest)
      = blankCommentsFrom next .code
        ((body.flatMap cleared).reverse ++ done) rest := by
  induction body generalizing offset done with
  | nil =>
      exact ⟨offset, blankCommentsFrom_lineEnd hrest (.inr rfl) offset done⟩
  | cons c body ih =>
      rw [List.mem_cons, not_or] at hbody
      have hpiece : pieceAt offset .lineComment c (body ++ rest)
          = ⟨false, cleared c, .lineComment⟩ := by
        unfold pieceAt cleared
        split <;> simp_all [Ne.symm hbody.1]
      obtain ⟨next, hstep⟩ := blankCommentsFrom_inside hpiece done
      obtain ⟨next', hrest⟩ := ih hbody.2 next ((cleared c).reverse ++ done)
      refine ⟨next', hstep.trans (hrest.trans ?_)⟩
      simp

/-- A block comment that ends is cleared up to the first mark that can end
it. -/
theorem exists_blockComment {offset start : Nat}
    {done text out : List Char}
    (h : blankCommentsFrom offset (.blockComment start) done text
      = .ok out) :
    ∃ body rest, text = body ++ '*' :: '/' :: rest
      ∧ ¬ ['*', '/'] <:+: body ++ ['*']
      ∧ ∃ next, blankCommentsFrom next .code
          (((body ++ ['*', '/']).flatMap cleared).reverse ++ done) rest
        = .ok out := by
  induction text generalizing offset done with
  | nil => cases h
  | cons c cs ih =>
      by_cases hmark : c = '*' ∧ cs.head? = some '/'
      · obtain ⟨rfl, hhead⟩ := hmark
        obtain ⟨rest, rfl⟩ := List.head?_eq_some_iff.1 hhead
        obtain ⟨next, hstep⟩ := blankCommentsFrom_piece
          (rfl : pieceAt offset (.blockComment start) '*' ('/' :: rest)
            = ⟨true, [' ', ' '], .code⟩) done
        exact ⟨[], rest, rfl, by decide, next, hstep.symm.trans h⟩
      · have hpiece : pieceAt offset (.blockComment start) c cs
            = ⟨false, cleared c, .blockComment start⟩ := by
          unfold pieceAt cleared
          split <;> simp_all
        obtain ⟨next, hstep⟩ := blankCommentsFrom_inside hpiece done
        obtain ⟨body, rest, rfl, hbody, next', hrest⟩ :=
          ih (hstep.symm.trans h)
        refine ⟨c :: body, rest, rfl, ?_, next', ?_⟩
        · rw [List.cons_append, List.infix_cons_iff, not_or]
          refine ⟨?_, hbody⟩
          rw [List.cons_prefix_cons]
          rintro ⟨rfl, hprefix⟩
          refine hmark ⟨rfl, ?_⟩
          cases body with
          | nil => simp at hprefix
          | cons d ds =>
              obtain ⟨rfl, -⟩ := List.cons_prefix_cons.1 hprefix
              rfl
        · rw [← hrest]
          simp

/-- A text of which the comments can be blanked has parts, and blanking
leaves what it leaves of each part. -/
theorem exists_parted_from {offset : Nat} {done text out : List Char}
    (h : blankCommentsFrom offset .code done text = .ok out) :
    ∃ parts, Parted text parts
      ∧ out = done.reverse ++ parts.flatMap Part.left := by
  induction hn : text.length using Nat.strongRecOn
    generalizing offset done text with
  | ind n ih =>
  subst hn
  cases text with
  | nil =>
      cases h
      exact ⟨[], .nil, by simp⟩
  | cons c cs =>
      by_cases hquote : c = '"'
      · -- a literal
        subst hquote
        obtain ⟨body, rest, rfl, hbody⟩ := exists_literal cs
        obtain ⟨next, hstep⟩ := blankCommentsFrom_piece
          (rfl : pieceAt offset .code '"' (body ++ rest)
            = ⟨false, ['"'], .string⟩) done
        obtain ⟨next', hliteral⟩ := hbody.blankCommentsFrom next ('"' :: done)
        obtain ⟨parts, hparts, rfl⟩ := ih rest.length
          (by grind) (hliteral.symm.trans (hstep.symm.trans h)) rfl
        exact ⟨.literal ('"' :: body) :: parts, .literal hbody hparts,
          by simp [Part.left]⟩
      by_cases hline : c = '/' ∧ cs.head? = some '/'
      · -- a line comment
        obtain ⟨rfl, hhead⟩ := hline
        obtain ⟨rest, rfl⟩ := List.head?_eq_some_iff.1 hhead
        obtain ⟨next, hstep⟩ := blankCommentsFrom_piece
          (rfl : pieceAt offset .code '/' ('/' :: rest)
            = ⟨true, [' ', ' '], .lineComment⟩) done
        obtain ⟨body, rest, rfl, hbody, hrest⟩ := exists_lineComment rest
        obtain ⟨next', hcomment⟩ := blankCommentsFrom_lineComment hbody
          hrest next ([' ', ' '] ++ done)
        obtain ⟨parts, hparts, rfl⟩ := ih rest.length
          (by grind) (hcomment.symm.trans (hstep.symm.trans h)) rfl
        refine ⟨.comment ('/' :: '/' :: body) :: parts,
          .lineComment hbody hrest hparts, ?_⟩
        have hmark : cleared '/' = [' '] := by decide
        simp [Part.left, hmark]
      by_cases hblock : c = '/' ∧ cs.head? = some '*'
      · -- a block comment
        obtain ⟨rfl, hhead⟩ := hblock
        obtain ⟨rest, rfl⟩ := List.head?_eq_some_iff.1 hhead
        obtain ⟨next, hstep⟩ := blankCommentsFrom_piece
          (rfl : pieceAt offset .code '/' ('*' :: rest)
            = ⟨true, [' ', ' '], .blockComment offset⟩) done
        obtain ⟨body, rest, rfl, hbody, next', hcomment⟩ :=
          exists_blockComment (hstep.symm.trans h)
        obtain ⟨parts, hparts, rfl⟩ := ih rest.length
          (by grind) hcomment rfl
        refine ⟨.comment ('/' :: '*' :: (body ++ ['*', '/'])) :: parts,
          .blockComment hbody hparts, ?_⟩
        have hslash : cleared '/' = [' '] := by decide
        have hstar : cleared '*' = [' '] := by decide
        simp [Part.left, hslash, hstar]
      · have hpiece : pieceAt offset .code c cs = ⟨false, [c], .code⟩ := by
          unfold pieceAt
          split <;> simp_all
        obtain ⟨next, hstep⟩ := blankCommentsFrom_piece hpiece done
        obtain ⟨parts, hparts, rfl⟩ := ih cs.length (by simp)
          (hstep.symm.trans h) rfl
        refine ⟨.code c :: parts, .code hquote (fun hc d hd => ?_) hparts,
          by simp [Part.left]⟩
        exact ⟨fun hd' => hline ⟨hc, hd' ▸ hd⟩,
          fun hd' => hblock ⟨hc, hd' ▸ hd⟩⟩

/-- Blanking turns the comments of a text into spaces, and leaves the rest
as it is. -/
theorem exists_parted {text out : List Char}
    (h : blankComments text = .ok out) :
    ∃ parts, Parted text parts ∧ out = parts.flatMap Part.left :=
  exists_parted_from h

-- ============================================================== places

theorem Parted.written {text : List Char} {parts : List Part}
    (h : Parted text parts) : parts.flatMap Part.written = text := by
  induction h with
  | nil => rfl
  | code _ _ _ ih | literal _ _ ih | lineComment _ _ _ ih =>
      rw [List.flatMap_cons, ih]
      rfl
  | blockComment _ _ ih =>
      rw [List.flatMap_cons, ih]
      simp [Part.written]

theorem byteLength_flatMap_cleared (cs : List Char) :
    byteLength (cs.flatMap cleared) = byteLength cs := by
  induction cs with
  | nil => rfl
  | cons c cs ih =>
      rw [List.flatMap_cons, byteLength_append, byteLength_cleared, ih,
        byteLength_cons]

theorem behindBreaks_flatMap_cleared (offset : Nat) (cs : List Char) :
    behindBreaks offset (cs.flatMap cleared) = behindBreaks offset cs := by
  induction cs generalizing offset with
  | nil => rfl
  | cons c cs ih =>
      rw [List.flatMap_cons, behindBreaks_append, byteLength_cleared, ih,
        behindBreaks]
      by_cases hc : c = '\n'
      · subst hc
        rfl
      · have hblank : '\n' ∉ blank c := by simp [blank, List.mem_replicate]
        rw [if_neg hc, cleared, if_neg hc,
          behindBreaks_of_newline_not_mem _ hblank, List.nil_append]

namespace Part

theorem byteLength_left (p : Part) :
    byteLength p.left = byteLength p.written := by
  cases p with
  | code | literal => rfl
  | comment cs => exact byteLength_flatMap_cleared cs

theorem byteLength_flatMap_left (parts : List Part) :
    byteLength (parts.flatMap left) = byteLength (parts.flatMap written) := by
  induction parts with
  | nil => rfl
  | cons p parts ih =>
      rw [List.flatMap_cons, List.flatMap_cons, byteLength_append,
        byteLength_append, byteLength_left, ih]

/-- The line breaks stay where they are. -/
theorem behindBreaks_left (offset : Nat) (parts : List Part) :
    behindBreaks offset (parts.flatMap left)
      = behindBreaks offset (parts.flatMap written) := by
  induction parts generalizing offset with
  | nil => rfl
  | cons p parts ih =>
      rw [List.flatMap_cons, List.flatMap_cons, behindBreaks_append,
        behindBreaks_append, byteLength_left, ih]
      congr 1
      cases p with
      | code | literal => rfl
      | comment cs => exact behindBreaks_flatMap_cleared offset cs

variable {file : FileId} {offset : Nat} {parts : List Part}

/-- Comments are where the parts of the text are. -/
theorem start_le_of_mem_comments {s : Span}
    (h : s ∈ comments file offset parts) : offset ≤ s.start := by
  fun_induction comments file offset parts with
  | case1 => cases h
  | case2 offset cs parts ih =>
      rcases List.mem_cons.1 h with rfl | h
      · exact Nat.le_refl _
      · exact Nat.le_of_add_right_le (ih h)
  | case3 offset part parts _ ih => exact Nat.le_of_add_right_le (ih h)

/-- Whether a place is in one of some spans. -/
def Covered (spans : List Span) (x : Nat) : Prop :=
  ∃ s ∈ spans, s.start ≤ x ∧ x < s.stop

theorem mem_comments_cons {p : Part} {s : Span} :
    s ∈ comments file offset (p :: parts)
      ↔ (∃ cs, p = .comment cs ∧ s = ⟨file, offset, byteLength cs⟩)
        ∨ s ∈ comments file (offset + byteLength p.written) parts := by
  cases p with
  | code | literal => simp [comments]
  | comment cs => simp [comments, written]

/-- A character that is in no comment stays where it is. -/
theorem kept {before behind : List Char} {c : Char}
    (h : parts.flatMap left = before ++ c :: behind)
    (hout : ¬ Covered (comments file offset parts)
      (offset + byteLength before)) :
    ∃ before' behind', parts.flatMap written = before' ++ c :: behind'
      ∧ byteLength before' = byteLength before := by
  induction parts generalizing offset before with
  | nil => simp at h
  | cons p parts ih =>
      rw [List.flatMap_cons] at h ⊢
      rcases cut_append h with ⟨rest, hleft, -⟩ | ⟨front, rfl, hrest⟩
      · cases p with
        | code | literal =>
            refine ⟨before, rest ++ parts.flatMap written, ?_, rfl⟩
            exact (congrArg (· ++ parts.flatMap written) hleft).trans
              (List.append_assoc ..)
        | comment cs =>
            -- the character would be one of the comment
            refine absurd ⟨_, mem_comments_cons.2 (.inl ⟨cs, rfl, rfl⟩),
              Nat.le_add_right .., ?_⟩ hout
            have hlength := congrArg byteLength hleft
            have hc := c.utf8Size_pos
            rw [byteLength_left, byteLength_append, byteLength_cons]
              at hlength
            simp only [Span.stop, written] at hlength ⊢
            omega
      · rw [byteLength_append, byteLength_left, ← Nat.add_assoc] at hout
        obtain ⟨before', behind', hsplit, hlength⟩ := ih hrest (by
          rintro ⟨s, hs, hin⟩
          exact hout ⟨s, mem_comments_cons.2 (.inr hs), hin⟩)
        refine ⟨p.written ++ before', behind', ?_, ?_⟩
        · rw [hsplit, List.append_assoc]
        · rw [byteLength_append, byteLength_append, byteLength_left, hlength]

/-- A run of characters that are in no comment stays where it is. -/
theorem kept_word {before word behind : List Char} (hword : word ≠ [])
    (h : parts.flatMap left = before ++ word ++ behind)
    (hout : ∀ front c back, word = front ++ c :: back →
      ¬ Covered (comments file offset parts)
        (offset + byteLength (before ++ front))) :
    ∃ before' behind', parts.flatMap written = before' ++ word ++ behind'
      ∧ byteLength before' = byteLength before := by
  induction word generalizing before with
  | nil => exact absurd rfl hword
  | cons c cs ih =>
      have hfirst : parts.flatMap left = before ++ c :: (cs ++ behind) := by
        rw [h, List.append_assoc, List.cons_append]
      have hout' := hout [] c cs rfl
      rw [List.append_nil] at hout'
      obtain ⟨before', behind', hsplit, hlength⟩ := kept hfirst hout'
      cases cs with
      | nil => exact ⟨before', behind', by simpa using hsplit, hlength⟩
      | cons d ds =>
          have hrest : parts.flatMap left
              = (before ++ [c]) ++ (d :: ds) ++ behind := by
            rw [h]
            simp
          obtain ⟨before'', behind'', hsplit', hlength'⟩ :=
            ih (List.cons_ne_nil _ _) hrest (by
              intro front e back hcut
              have := hout (c :: front) e back (by rw [hcut]; rfl)
              rwa [List.append_assoc])
          -- the rest is behind the first character
          have hsame : before'' ++ (d :: ds ++ behind'')
              = (before' ++ [c]) ++ behind' := by
            rw [← List.append_assoc, ← hsplit', hsplit]
            simp
          have hcut := (append_inj_of_byteLength hsame (by
            rw [hlength', byteLength_append, byteLength_append, hlength])).1
          subst hcut
          exact ⟨before', behind'', by rw [hsplit']; simp, hlength⟩

/-- Spaces and line breaks are all that is left of a comment. -/
theorem not_covered {before behind : List Char} {c : Char}
    (h : parts.flatMap left = before ++ c :: behind) (hspace : c ≠ ' ')
    (hbreak : c ≠ '\n') :
    ¬ Covered (comments file offset parts)
      (offset + byteLength before) := by
  induction parts generalizing offset before with
  | nil => simp at h
  | cons p parts ih =>
      rintro ⟨k, hk, hstart, hstop⟩
      have hlength := p.byteLength_left
      rw [List.flatMap_cons] at h
      rcases cut_append h with ⟨rest, hleft, -⟩ | ⟨front, rfl, hrest⟩
      · rcases mem_comments_cons.1 hk with ⟨cs, rfl, rfl⟩ | hk
        · have hc : c ∈ (Part.comment cs).left := by
            rw [hleft]
            exact List.mem_append_right before (List.mem_cons_self ..)
          obtain ⟨d, -, hd⟩ := List.mem_flatMap.1 hc
          exact (mem_cleared hd).elim hspace hbreak
        · have := start_le_of_mem_comments hk
          have hc := c.utf8Size_pos
          rw [hleft, byteLength_append, byteLength_cons] at hlength
          omega
      · rw [byteLength_append, hlength, ← Nat.add_assoc] at hstart hstop
        rcases mem_comments_cons.1 hk with ⟨cs, rfl, rfl⟩ | hk
        · simp only [Span.stop, written] at hstop
          omega
        · exact ih hrest ⟨k, hk, hstart, hstop⟩

end Part

end Script.Clean
