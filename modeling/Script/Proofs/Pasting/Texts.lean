/-
Texts put together from others that end where a line ends. Comments and
lines of such a text are those of its parts: a comment that is closed in
one part is no matter of the next, and neither is a string, which ends
with its line.

Blanking takes one or two characters at a time, and what it does with
them is settled by the two of them alone (`pieceAt`). No such pair lies
across the end of a line, and that is all that the facts about blanking
rest on.
-/
import Mathlib.Data.List.Forall2
import Script.Clean.Comment
import Script.Clean.Draft
import Script.Proofs.Clean.History
import Script.Proofs.Places.Blanked

namespace Script.Clean

open Text

/-- A text that ends where a line ends. -/
def Closed (text : List Char) : Prop :=
  text = [] ∨ text.getLast? = some '\n'

-- ============================================================== pieces

/-- What blanking does with a character and the one behind it: whether it
takes both, what it puts in their place, the last character first, and the
region behind them. -/
structure Piece where
  both : Bool
  put : List Char
  behind : Region

/-- The piece at a character, of the text behind it. -/
def pieceAt (offset : Nat) (region : Region) (c : Char)
    (cs : List Char) : Piece :=
  match region, c, cs with
  | .code, '/', '/' :: _ => ⟨true, [' ', ' '], .lineComment⟩
  | .code, '/', '*' :: _ => ⟨true, [' ', ' '], .blockComment offset⟩
  | .code, '"', _ => ⟨false, ['"'], .string⟩
  | .code, c, _ => ⟨false, [c], .code⟩
  | .string, '\\', '\n' :: _ => ⟨true, ['\n', '\\'], .code⟩
  | .string, '\\', d :: _ => ⟨true, [d, '\\'], .string⟩
  | .string, '"', _ => ⟨false, ['"'], .code⟩
  | .string, '\n', _ => ⟨false, ['\n'], .code⟩
  | .string, c, _ => ⟨false, [c], .string⟩
  | .lineComment, '\n', _ => ⟨false, ['\n'], .code⟩
  | .lineComment, c, _ => ⟨false, blank c, .lineComment⟩
  | .blockComment _, '*', '/' :: _ => ⟨true, [' ', ' '], .code⟩
  | .blockComment start, '\n', _ => ⟨false, ['\n'], .blockComment start⟩
  | .blockComment start, c, _ => ⟨false, blank c, .blockComment start⟩

/-- What a piece leaves of the text behind its first character. -/
def Piece.rest (p : Piece) (cs : List Char) : List Char :=
  if p.both then cs.tail else cs

theorem Piece.length_rest_le (p : Piece) (cs : List Char) :
    (p.rest cs).length ≤ cs.length := by
  unfold rest
  split
  · simp
  · exact Nat.le_refl _

/-- Blanking goes piece by piece. -/
theorem blankCommentsFrom_cons (offset : Nat) (region : Region)
    (done : List Char) (c : Char) (cs : List Char) :
    ∃ next, blankCommentsFrom offset region done (c :: cs) =
      blankCommentsFrom next (pieceAt offset region c cs).behind
        ((pieceAt offset region c cs).put ++ done)
        ((pieceAt offset region c cs).rest cs) := by
  fun_cases pieceAt offset region c cs
  case case6 => exact ⟨_, by rw [blankCommentsFrom]; rfl; assumption⟩
  case case11 hc => exact ⟨_, by rw [blankCommentsFrom, if_neg hc]; rfl⟩
  case case4 | case9 | case14 =>
      exact ⟨_, by rw [blankCommentsFrom]; rfl; all_goals assumption⟩
  all_goals exact ⟨_, by rw [blankCommentsFrom]; rfl⟩

/-- The same region, perhaps of a comment that began elsewhere. -/
def Region.Like : Region → Region → Prop
  | .blockComment _, .blockComment _ => True
  | r, r' => r = r'

theorem Region.Like.refl (r : Region) : r.Like r := by
  cases r <;> trivial

/-- Where a text and its comments begin does not matter for a piece. -/
theorem pieceAt_like (offset offset' : Nat) {region region' : Region}
    (h : region.Like region') (c : Char) (cs : List Char) :
    (pieceAt offset region c cs).both = (pieceAt offset' region' c cs).both
      ∧ (pieceAt offset region c cs).put = (pieceAt offset' region' c cs).put
      ∧ (pieceAt offset region c cs).behind.Like
        (pieceAt offset' region' c cs).behind := by
  fun_cases pieceAt offset region c cs <;> cases region' <;>
    simp_all [Region.Like, pieceAt]

/-- Only the first character behind it matters for a piece. -/
theorem pieceAt_cons (offset : Nat) (region : Region) (c d : Char)
    (ds : List Char) :
    pieceAt offset region c (d :: ds) = pieceAt offset region c [d] := by
  unfold pieceAt
  split
  all_goals first | rfl | (split <;> grind)

/-- A piece of a text that ends with a line lies in that text. -/
theorem pieceAt_append (offset : Nat) (region : Region) {c : Char}
    {cs : List Char} (h : (c :: cs).getLast? = some '\n')
    (behind : List Char) :
    pieceAt offset region c (cs ++ behind) = pieceAt offset region c cs
      ∧ (pieceAt offset region c cs).rest (cs ++ behind)
        = (pieceAt offset region c cs).rest cs ++ behind := by
  cases cs with
  | nil =>
      obtain rfl : c = '\n' := Option.some.inj h
      cases region <;> exact ⟨rfl, rfl⟩
  | cons d ds =>
      rw [List.cons_append, pieceAt_cons offset region c d (ds ++ behind),
        pieceAt_cons offset region c d ds]
      refine ⟨rfl, ?_⟩
      unfold Piece.rest
      split <;> rfl

/-- The place behind a line break: what blanking has put there ends with
a line, and only a block comment goes on. -/
structure LineEnd (put : List Char) (region : Region) : Prop where
  broken : put.head? = some '\n'
  notString : region ≠ .string
  notLineComment : region ≠ .lineComment

/-- What a piece leaves of a text that ends with a line does so, too. -/
theorem pieceAt_last (offset : Nat) (region : Region) {c : Char}
    {cs : List Char} (h : (c :: cs).getLast? = some '\n')
    (done : List Char) :
    ((pieceAt offset region c cs).rest cs).getLast? = some '\n'
      ∨ (pieceAt offset region c cs).rest cs = []
        ∧ LineEnd ((pieceAt offset region c cs).put ++ done)
          (pieceAt offset region c cs).behind := by
  cases cs with
  | nil =>
      obtain rfl : c = '\n' := Option.some.inj h
      cases region <;> exact .inr ⟨rfl, rfl, nofun, nofun⟩
  | cons d ds =>
      have hrest : (d :: ds).getLast? = some '\n' := by
        rwa [List.getLast?_cons_cons] at h
      unfold Piece.rest
      split
      case isFalse => exact .inl hrest
      case isTrue hboth =>
        cases ds with
        | cons e es =>
            rw [List.getLast?_cons_cons] at hrest
            exact .inl hrest
        | nil =>
            obtain rfl : d = '\n' := Option.some.inj hrest
            refine .inr ⟨rfl, ?_⟩
            -- only behind a backslash a line break is taken as well
            have hpiece : pieceAt offset region c ['\n']
                = ⟨true, ['\n', '\\'], .code⟩ := by
              unfold pieceAt at hboth ⊢
              split at hboth <;> simp_all
            rw [hpiece]
            exact ⟨rfl, nofun, nofun⟩

-- ============================================================ comments

/-- What a text leaves is not affected by where it and its comments begin,
and comes behind what was put in front of it. -/
theorem blankCommentsFrom_like (offset offset' : Nat)
    {region region' : Region} (h : region.Like region')
    (done front text : List Char) :
    (blankCommentsFrom offset region (done ++ front) text).toOption
      = (blankCommentsFrom offset' region' done text).toOption.map
        (front.reverse ++ ·) := by
  induction hn : text.length using Nat.strongRecOn
    generalizing offset offset' region region' done text with
  | _ n ih =>
    cases text with
    | nil =>
        cases region <;> cases region' <;>
          simp_all [Region.Like, blankCommentsFrom, Except.toOption]
    | cons c cs =>
        obtain ⟨next, hstep⟩ :=
          blankCommentsFrom_cons offset region (done ++ front) c cs
        obtain ⟨next', hstep'⟩ :=
          blankCommentsFrom_cons offset' region' done c cs
        obtain ⟨hboth, hput, hlike⟩ := pieceAt_like offset offset' h c cs
        have hlength := (pieceAt offset region c cs).length_rest_le cs
        have hrest : (pieceAt offset' region' c cs).rest cs
            = (pieceAt offset region c cs).rest cs := by
          unfold Piece.rest
          rw [hboth]
        rw [hstep, hstep', ← hput, hrest, ← List.append_assoc]
        subst hn
        exact ih _ (Nat.lt_succ_of_le hlength) next next' hlike _ _ rfl

/-- Blanking a text that ends with a line leaves a line break at its end,
and goes on with what is behind it as with a text of its own. -/
theorem blankCommentsFrom_append (offset : Nat) {region : Region}
    {done text out : List Char}
    (h : text.getLast? = some '\n' ∨ text = [] ∧ LineEnd done region)
    (hout : (blankCommentsFrom offset region done text).toOption = some out)
    (behind : List Char) :
    out.getLast? = some '\n'
      ∧ (blankCommentsFrom offset region done (text ++ behind)).toOption
        = (blankComments behind).toOption.map (out ++ ·) := by
  induction hn : text.length using Nat.strongRecOn
    generalizing offset region done text with
  | _ n ih =>
    cases text with
    | nil =>
        obtain hlast | ⟨-, hend⟩ := h
        · cases hlast
        · cases region with
          | string => exact absurd rfl hend.notString
          | lineComment => exact absurd rfl hend.notLineComment
          | blockComment start => cases hout
          | code =>
              obtain rfl : done.reverse = out := Option.some.inj hout
              refine ⟨?_, ?_⟩
              · rw [List.getLast?_reverse, hend.broken]
              · exact blankCommentsFrom_like offset 0 (.refl _) [] done behind
    | cons c cs =>
        obtain hlast | ⟨hnil, -⟩ := h
        case inr => cases hnil
        obtain ⟨hpiece, hrest⟩ := pieceAt_append offset region hlast behind
        obtain ⟨next, hstep⟩ := blankCommentsFrom_cons offset region done c cs
        obtain ⟨next', hstep'⟩ :=
          blankCommentsFrom_cons offset region done c (cs ++ behind)
        have hlength := (pieceAt offset region c cs).length_rest_le cs
        -- the offsets differ only in the errors
        have hout' := blankCommentsFrom_like next' next
          (.refl (pieceAt offset region c cs).behind)
          ((pieceAt offset region c cs).put ++ done) []
          ((pieceAt offset region c cs).rest cs)
        rw [List.append_nil, ← hstep, hout] at hout'
        rw [List.cons_append, hstep', hpiece, hrest]
        subst hn
        exact ih _ (Nat.lt_succ_of_le hlength) next'
          (pieceAt_last offset region hlast done) hout' rfl

/-- The comments of a text that begins with whole lines are those of its
two parts. -/
theorem blankComments_append {text out : List Char} (h : Closed text)
    (hout : blankComments text = .ok out) (behind : List Char) :
    Closed out ∧ (blankComments (text ++ behind)).toOption
      = (blankComments behind).toOption.map (out ++ ·) := by
  obtain rfl | hlast := h
  · cases hout
    refine ⟨.inl rfl, ?_⟩
    rw [List.nil_append]
    cases blankComments behind <;> rfl
  · obtain ⟨hbroken, happend⟩ := blankCommentsFrom_append 0 (.inl hlast)
      (congrArg Except.toOption hout) behind
    exact ⟨.inr hbroken, happend⟩

theorem blankComments_append_of_ok {text out behind rest : List Char}
    (h : Closed text) (hout : blankComments text = .ok out)
    (hrest : blankComments behind = .ok rest) :
    blankComments (text ++ behind) = .ok (out ++ rest) := by
  have happend := (blankComments_append h hout behind).2
  rw [hrest] at happend
  cases hwhole : blankComments (text ++ behind) <;> rw [hwhole] at happend
  · cases happend
  · exact congrArg Except.ok (Option.some.inj happend)

theorem blankComments_append_of_error {text out behind : List Char}
    {start : Nat} (h : Closed text) (hout : blankComments text = .ok out)
    (hrest : blankComments behind = .error start) :
    ∃ start', blankComments (text ++ behind) = .error start' := by
  have happend := (blankComments_append h hout behind).2
  rw [hrest] at happend
  cases hwhole : blankComments (text ++ behind) <;> rw [hwhole] at happend
  · exact ⟨_, rfl⟩
  · cases happend

-- =============================================================== lines

/-- The same line, perhaps at another place. -/
structure Line.Same (l l' : Line) : Prop where
  body : l.body = l'.body
  broken : l.broken = l'.broken

theorem linesFrom_break (number start : Nat) (body : List Char) {c : Char}
    (h : c = '\n') (cs : List Char) :
    linesFrom number start body (c :: cs) =
      ⟨number, start, body.reverse, true⟩ ::
        linesFrom (number + 1) (start + byteLength body + 1) [] cs := by
  rw [linesFrom, if_pos h]

theorem linesFrom_char (number start : Nat) (body : List Char) {c : Char}
    (h : c ≠ '\n') (cs : List Char) :
    linesFrom number start body (c :: cs)
      = linesFrom number start (c :: body) cs := by
  rw [linesFrom, if_neg h]

/-- Where a text begins does not matter for its lines. -/
theorem linesFrom_same (number number' start start' : Nat)
    (body text : List Char) :
    List.Forall₂ Line.Same (linesFrom number start body text)
      (linesFrom number' start' body text) := by
  induction text generalizing number number' start start' body with
  | nil =>
      unfold linesFrom
      split
      · exact .nil
      · exact .cons ⟨rfl, rfl⟩ .nil
  | cons c cs ih =>
      unfold linesFrom
      split
      · exact .cons ⟨rfl, rfl⟩ (ih ..)
      · exact ih ..

/-- The lines of a text that begins with whole lines are those of its two
parts. -/
theorem linesFrom_append (number start : Nat) {text : List Char}
    (h : Closed text) (behind : List Char) :
    (∀ l ∈ linesFrom number start [] text, l.broken = true)
      ∧ ∃ number' start', linesFrom number start [] (text ++ behind)
        = linesFrom number start [] text
          ++ linesFrom number' start' [] behind := by
  have hlast (number start : Nat) (body : List Char) {text : List Char}
      (h : text.getLast? = some '\n') :
      (∀ l ∈ linesFrom number start body text, l.broken = true)
        ∧ ∃ number' start', linesFrom number start body (text ++ behind)
          = linesFrom number start body text
            ++ linesFrom number' start' [] behind := by
    induction text generalizing number start body with
    | nil => cases h
    | cons c cs ih =>
        cases cs with
        | nil =>
            obtain rfl : c = '\n' := Option.some.inj h
            refine ⟨?_, _, _, rfl⟩
            intro l hl
            obtain rfl := List.mem_singleton.1 hl
            rfl
        | cons d ds =>
            rw [List.getLast?_cons_cons] at h
            rw [List.cons_append]
            by_cases hc : c = '\n'
            · obtain ⟨hbroken, number', start', happend⟩ :=
                ih (number + 1) (start + byteLength body + 1) [] h
              rw [linesFrom_break number start body hc,
                linesFrom_break number start body hc, happend]
              exact ⟨List.forall_mem_cons.2 ⟨rfl, hbroken⟩,
                number', start', rfl⟩
            · rw [linesFrom_char number start body hc,
                linesFrom_char number start body hc]
              exact ih number start (c :: body) h
  obtain rfl | h := h
  · exact ⟨nofun, number, start, rfl⟩
  · exact hlast number start [] h

/-- The lines of a text that begins with two texts of whole lines. -/
theorem lines_append {text text' : List Char} (h : Closed text)
    (h' : Closed text') (behind : List Char) :
    ∃ number start number' start', lines (text ++ (text' ++ behind))
      = lines text ++ (linesFrom number start [] text'
        ++ linesFrom number' start' [] behind) := by
  obtain ⟨-, number, start, hrest⟩ := linesFrom_append 1 0 h (text' ++ behind)
  obtain ⟨-, number', start', hrest'⟩ :=
    linesFrom_append number start h' behind
  refine ⟨number, start, number', start', hrest.trans ?_⟩
  rw [hrest']
  rfl

-- ======================================================== include lines

/-- What stands in front of the path on an include line. -/
def includeWord : List Char := "#include ".toList

/-- The path of an include line, in its quotes. -/
def quoted (path : List Char) : List Char := '"' :: (path ++ ['"'])

/-- The line that includes a path. -/
def includeLine (path : List Char) : List Char :=
  includeWord ++ (quoted path ++ ['\n'])

/-- A path that can stand in quotes on a line. -/
structure Plain (path : List Char) : Prop where
  nonempty : path ≠ []
  quote : '"' ∉ path
  backslash : '\\' ∉ path
  newline : '\n' ∉ path

variable {path : List Char}

theorem closed_includeLine (path : List Char) : Closed (includeLine path) := by
  refine .inr ?_
  unfold includeLine
  rw [← List.append_assoc]
  exact List.getLast?_concat

/-- Characters that a region keeps. -/
theorem blankCommentsFrom_keep {region : Region} {cs : List Char}
    (h : ∀ c ∈ cs, ∀ offset ds,
      pieceAt offset region c ds = ⟨false, [c], region⟩)
    (offset : Nat) (done behind : List Char) :
    ∃ next, blankCommentsFrom offset region done (cs ++ behind)
      = blankCommentsFrom next region (cs.reverse ++ done) behind := by
  induction cs generalizing offset done with
  | nil => exact ⟨offset, rfl⟩
  | cons c cs ih =>
      obtain ⟨hc, hcs⟩ := List.forall_mem_cons.1 h
      obtain ⟨next, hstep⟩ :=
        blankCommentsFrom_cons offset region done c (cs ++ behind)
      rw [hc] at hstep
      obtain ⟨next', hrest⟩ := ih hcs next (c :: done)
      refine ⟨next', hstep.trans (hrest.trans ?_)⟩
      rw [List.reverse_cons, List.append_assoc]
      rfl

/-- There are no comments in an include line. -/
theorem blankComments_includeLine (h : Plain path) :
    blankComments (includeLine path) = .ok (includeLine path) := by
  have hword : ∀ c ∈ includeWord, ∀ offset ds,
      pieceAt offset .code c ds = ⟨false, [c], .code⟩ := by
    intro c hc offset ds
    have hslash : c ≠ '/' := fun heq => by subst heq; revert hc; decide
    have hquote : c ≠ '"' := fun heq => by subst heq; revert hc; decide
    unfold pieceAt
    split <;> simp_all
  have hpath : ∀ c ∈ path, ∀ offset ds,
      pieceAt offset .string c ds = ⟨false, [c], .string⟩ := by
    intro c hc offset ds
    have hquote : c ≠ '"' := fun heq => h.quote (heq ▸ hc)
    have hbackslash : c ≠ '\\' := fun heq => h.backslash (heq ▸ hc)
    have hnewline : c ≠ '\n' := fun heq => h.newline (heq ▸ hc)
    unfold pieceAt
    split <;> simp_all
  have hopening (offset : Nat) (cs : List Char) :
      pieceAt offset .code '"' cs = ⟨false, ['"'], .string⟩ := rfl
  have hline : includeLine path
      = includeWord ++ '"' :: (path ++ ['"', '\n']) := by
    simp only [includeLine, quoted, List.append_assoc, List.cons_append,
      List.nil_append]
  rw [hline]
  obtain ⟨start, hstart⟩ := blankCommentsFrom_keep hword 0 []
    ('"' :: (path ++ ['"', '\n']))
  obtain ⟨next, hnext⟩ := blankCommentsFrom_cons start .code
    (includeWord.reverse ++ []) '"' (path ++ ['"', '\n'])
  rw [hopening] at hnext
  obtain ⟨stop, hstop⟩ := blankCommentsFrom_keep hpath next
    (['"'] ++ (includeWord.reverse ++ [])) ['"', '\n']
  refine hstart.trans (hnext.trans (hstop.trans ?_))
  simp [blankCommentsFrom]

/-- An include line is one line. -/
theorem linesFrom_includeLine (number start : Nat) (h : '\n' ∉ path) :
    linesFrom number start [] (includeLine path)
      = [⟨number, start, includeWord ++ quoted path, true⟩] := by
  have hline (body : List Char) {cs : List Char} (hcs : '\n' ∉ cs) :
      linesFrom number start body (cs ++ ['\n'])
        = [⟨number, start, body.reverse ++ cs, true⟩] := by
    induction cs generalizing body with
    | nil => simp [linesFrom]
    | cons c cs ih =>
        rw [List.mem_cons, not_or] at hcs
        rw [List.cons_append, linesFrom_char number start body
          (Ne.symm hcs.1), ih _ hcs.2]
        simp
  have hword : '\n' ∉ includeWord := by decide
  rw [includeLine, ← List.append_assoc]
  refine hline [] ?_
  simp [quoted, h, hword]

/-- What an include line asks for. -/
theorem pasteOf?_includeLine {line : Line}
    (hline : line.body = includeWord ++ quoted path)
    {conditionals : List Conditional}
    (hactive : isActive conditionals = true) :
    pasteOf? conditionals line = some (quoted path) := by
  have htrim (front : List Char) :
      Text.trimEnd (front ++ ['"']) = front ++ ['"'] :=
    trimEnd_append_cons front (by decide) []
  have hhash : hashLine? line.body
      = some ([], "include ".toList ++ quoted path) := by
    rw [hline]
    rfl
  have hrest : Text.trim (' ' :: quoted path) = quoted path :=
    htrim ('"' :: path)
  have hbehind : Text.trim ("include ".toList ++ quoted path)
      = "include ".toList ++ quoted path :=
    htrim ("include ".toList ++ '"' :: path)
  have hword : Text.firstWord ("include ".toList ++ quoted path)
      = ("include".toList, quoted path) :=
    congrArg (Prod.mk _) hrest
  have hdirective : Directive.ofText ("include ".toList ++ quoted path)
      = .paste (quoted path) := by
    unfold Directive.ofText
    rw [hbehind, hword]
    rfl
  unfold pasteOf?
  rw [hhash]
  simp only [hdirective, hactive, if_true]

/-- The path that stands in quotes. -/
theorem includePath?_quoted (h : path ≠ []) :
    includePath? (quoted path) = some (String.ofList path) := by
  unfold includePath? quoted
  simp only [List.reverse_append, List.reverse_singleton]
  cases hcs : path.reverse with
  | nil => exact absurd (List.reverse_eq_nil_iff.1 hcs) h
  | cons c cs =>
      show some (String.ofList (c :: cs).reverse) = _
      rw [← hcs, List.reverse_reverse]

end Script.Clean
