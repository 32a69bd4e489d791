/-
Words of the printed tree. It is cut at spaces and line breaks, and each
parenthesis is a word of its own; between quotes nothing cuts. From its
words a nested list is put together again. So a text that is cut into the
words of a nested list determines it, however it is indented.

What comes of a piece of text depends on whether a word goes on where the
piece begins. So a piece is told by its words, and it either ends where a
word may go on, or behind one.

A text in quotes is read back as well. Behind a backslash a letter stands
for a character as it does in a string literal, except for the letter that
a number in hexadecimal comes behind; all other characters stand for
themselves.
-/
import Script.Text.Quoted
import Script.Token.Lexeme

namespace Script.Text

-- =========================================================== hexadecimal

/-- What a digit of a number in hexadecimal stands for. -/
def hexValue (c : Char) : Nat := "0123456789abcdef".toList.idxOf c

theorem hexValue_digitChar : ∀ d < 16, hexValue (Nat.digitChar d) = d := by
  decide

/-- The digits of a number, one after the other. -/
theorem toDigits_induction {P : Nat → List Char → Prop}
    (hone : ∀ d < 16, P d [Nat.digitChar d])
    (hmore : ∀ n ds, ∀ d < 16, P n ds →
      P (16 * n + d) (ds ++ [Nat.digitChar d])) (n : Nat) :
    P n (Nat.toDigits 16 n) := by
  induction n using Nat.strongRecOn with
  | ind n ih =>
      rw [Nat.toDigits_eq_if (by decide)]
      split
      case isTrue hlt => exact hone n hlt
      case isFalse hge =>
          have hmod := Nat.mod_lt n (show 16 > 0 by decide)
          have hrest := hmore _ _ _ hmod (ih (n / 16) (by omega))
          rwa [Nat.div_add_mod] at hrest

theorem mem_toDigits (n : Nat) :
    ∀ c ∈ Nat.toDigits 16 n, ∃ d < 16, c = Nat.digitChar d := by
  refine toDigits_induction
    (P := fun _ ds => ∀ c ∈ ds, ∃ d < 16, c = Nat.digitChar d) ?_ ?_ n
  · exact fun d hd => List.forall_mem_singleton.2 ⟨d, hd, rfl⟩
  · exact fun _ _ d hd h => List.forall_mem_append.2
      ⟨h, List.forall_mem_singleton.2 ⟨d, hd, rfl⟩⟩

/-- Digits in hexadecimal stand for the number that they were made from. -/
theorem foldl_toDigits (n : Nat) :
    (Nat.toDigits 16 n).foldl (fun m c => 16 * m + hexValue c) 0 = n := by
  refine toDigits_induction
    (P := fun n ds => ds.foldl (fun m c => 16 * m + hexValue c) 0 = n) ?_ ?_ n
  · intro d hd
    rw [List.foldl_cons, List.foldl_nil, hexValue_digitChar d hd,
      Nat.mul_zero, Nat.zero_add]
  · intro m ds d hd h
    rw [List.foldl_append, h, List.foldl_cons, List.foldl_nil,
      hexValue_digitChar d hd]

-- =============================================================== escapes

/-- How a character is shown: by a letter behind a backslash, by its number,
or by itself. -/
theorem escape_cases (c : Char) :
    (∃ e, escape c = ['\\', e] ∧ e ≠ 'u' ∧ Token.unescape? e = some c)
      ∨ escape c = byNumber c
      ∨ (escape c = [c] ∧ c ≠ '"' ∧ c ≠ '\\') := by
  unfold escape
  split
  case h_7 hzero htab hreturn hline hquote hslash =>
      split
      · exact .inr (.inl rfl)
      · exact .inr (.inr ⟨rfl, hquote, hslash⟩)
  all_goals exact .inl ⟨_, rfl, by decide, rfl⟩

/-- Where reading a quoted text stands. -/
inductive Unquoting where
  | plain
  /-- Behind a backslash. -/
  | escaped
  /-- In a number, with what its digits stand for so far. -/
  | number (n : Nat)

/-- What characters between quotes stand for. -/
def unescaped : Unquoting → List Char → List Char
  | _, [] => []
  | .plain, c :: cs =>
      if c = '\\' then unescaped .escaped cs else c :: unescaped .plain cs
  | .escaped, c :: cs =>
      if c = 'u' then unescaped (.number 0) cs
      else (Token.unescape? c).getD c :: unescaped .plain cs
  | .number n, c :: cs =>
      if c = '\x7b' then unescaped (.number n) cs
      else if c = '\x7d' then Char.ofNat n :: unescaped .plain cs
      else unescaped (.number (16 * n + hexValue c)) cs

/-- The text between the quotes of a quoted text. -/
def unquoted (s : String) : String :=
  .ofList (unescaped .plain (s.toList.drop 1).dropLast)

theorem unescaped_digits {ds : List Char}
    (hds : ∀ c ∈ ds, ∃ d < 16, c = Nat.digitChar d) (n : Nat)
    (rest : List Char) :
    unescaped (.number n) (ds ++ rest) = unescaped
      (.number (ds.foldl (fun m c => 16 * m + hexValue c) n)) rest := by
  induction ds generalizing n with
  | nil => rfl
  | cons c ds ih =>
      obtain ⟨⟨d, hd, rfl⟩, hrest⟩ := List.forall_mem_cons.1 hds
      have hbrace : ∀ d < 16, Nat.digitChar d ≠ '\x7b'
          ∧ Nat.digitChar d ≠ '\x7d' := by decide
      obtain ⟨hopen, hclose⟩ := hbrace d hd
      rw [List.cons_append, unescaped, if_neg hopen, if_neg hclose, ih hrest]
      rfl

/-- What a character is shown as stands for it. -/
theorem unescaped_escape (c : Char) (rest : List Char) :
    unescaped .plain (escape c ++ rest) = c :: unescaped .plain rest := by
  rcases escape_cases c with ⟨e, h, he, hc⟩ | h | ⟨h, -, hc⟩
  · rw [h]
    show unescaped .escaped (e :: rest) = _
    rw [unescaped, if_neg he, hc]
    rfl
  · rw [h]
    unfold byNumber
    rw [List.append_assoc, List.append_assoc]
    show unescaped (.number 0) (Nat.toDigits 16 c.toNat ++ '\x7d' :: rest) = _
    rw [unescaped_digits (mem_toDigits _), foldl_toDigits]
    show Char.ofNat c.toNat :: _ = _
    rw [Char.ofNat_toNat]
  · rw [h, List.cons_append, unescaped, if_neg hc]
    rfl

theorem unescaped_flatMap (cs : List Char) :
    unescaped .plain (cs.flatMap escape) = cs := by
  induction cs with
  | nil => rfl
  | cons c cs ih => rw [List.flatMap_cons, unescaped_escape, ih]

/-- A quoted text, read back. -/
theorem unquoted_quoted (s : String) : unquoted (quoted s) = s := by
  unfold unquoted quoted
  rw [String.toList_ofList, List.cons_append, List.drop_one, List.tail_cons,
    List.dropLast_concat, unescaped_flatMap, String.ofList_toList]

/-- No two texts look alike in quotes. -/
theorem quoted_injective {s t : String} (h : quoted s = quoted t) : s = t := by
  rw [← unquoted_quoted s, h, unquoted_quoted]

example : unquoted (quoted "a\"\\\n\x01é") = "a\"\\\n\x01é" := by
  decide +kernel

end Script.Text

namespace Script.Printed

-- ================================================================= words

/-- A word of the printed tree. -/
inductive Word where
  | opening
  | closing
  | leaf (text : String)
deriving DecidableEq, Repr

/-- Whether a character is between quotes. -/
inductive Mode where
  | plain
  | quoted
  /-- Between quotes, behind a backslash. -/
  | escaped
deriving DecidableEq, Repr

/-- Where the reading of words stands. -/
structure Reader where
  /-- The words read so far, the latest first. -/
  found : List Word
  /-- The characters of a word that may go on, the latest first. -/
  part : List Char
  mode : Mode
deriving DecidableEq, Repr

namespace Reader

/-- A reader where no word goes on. -/
def fresh (found : List Word) : Reader := ⟨found, [], .plain⟩

/-- Ends the word that goes on, if there is one. -/
def flush (r : Reader) : Reader :=
  if r.part = [] then r
  else ⟨.leaf (.ofList r.part.reverse) :: r.found, [], r.mode⟩

/-- Adds a word. -/
def add (r : Reader) (w : Word) : Reader := { r with found := w :: r.found }

/-- Reads a character. -/
def step (r : Reader) (c : Char) : Reader :=
  match r.mode with
  | .plain =>
      if c = ' ' ∨ c = '\n' then r.flush
      else if c = '(' then r.flush.add .opening
      else if c = ')' then r.flush.add .closing
      else { r with
        part := c :: r.part
        mode := if c = '"' then .quoted else .plain }
  | .quoted =>
      { r with
        part := c :: r.part
        mode :=
          if c = '"' then .plain
          else if c = '\\' then .escaped
          else .quoted }
  | .escaped => { r with part := c :: r.part, mode := .quoted }

/-- Reads characters in order. -/
def read (r : Reader) (cs : List Char) : Reader := cs.foldl step r

theorem read_append (r : Reader) (cs ds : List Char) :
    r.read (cs ++ ds) = (r.read cs).read ds :=
  List.foldl_append

end Reader

/-- The words of a text. -/
def words (text : String) : List Word :=
  (Reader.read (.fresh []) text.toList).flush.found.reverse

/-- A piece of text with its words, behind which no word goes on. -/
def Cut (text : String) (ws : List Word) : Prop :=
  ∀ found, (Reader.fresh found).read text.toList = .fresh (ws.reverse ++ found)

/-- A piece of text with its words, the last of which may go on behind
it. -/
def Ends (text : String) (ws : List Word) : Prop :=
  ∀ found, ((Reader.fresh found).read text.toList).mode = .plain
    ∧ ((Reader.fresh found).read text.toList).flush =
      .fresh (ws.reverse ++ found)

section

variable {s t : String} {ws vs : List Word} {r : Reader}

theorem Cut.ends (h : Cut s ws) : Ends s ws := by
  intro found
  rw [h found]
  exact ⟨rfl, rfl⟩

theorem Ends.words_eq (h : Ends s ws) : words s = ws := by
  unfold words
  rw [(h []).2]
  show (ws.reverse ++ []).reverse = ws
  rw [List.append_nil, List.reverse_reverse]

theorem Cut.append (h : Cut s ws) (h' : Cut t vs) :
    Cut (s ++ t) (ws ++ vs) := by
  intro found
  rw [String.toList_append, Reader.read_append, h, h', List.reverse_append,
    List.append_assoc]

/-- Where no word goes on, the next one begins. -/
theorem Cut.followed (h : Cut s ws) (h' : Ends t vs) :
    Ends (s ++ t) (ws ++ vs) := by
  intro found
  rw [String.toList_append, Reader.read_append, h, List.reverse_append,
    List.append_assoc]
  exact h' _

/-- A space or a line break ends a word. -/
theorem Ends.blank (h : Ends s ws) {blank : String}
    (hblank : blank = " " ∨ blank = "\n") : Cut (s ++ blank) ws := by
  intro found
  obtain ⟨hmode, hflush⟩ := h found
  rw [String.toList_append, Reader.read_append]
  generalize (Reader.fresh found).read s.toList = r at hmode hflush
  rcases hblank with rfl | rfl
  all_goals
    show r.step _ = _
    unfold Reader.step
    rw [hmode]
    exact hflush

theorem Ends.space (h : Ends s ws) : Cut (s ++ " ") ws :=
  h.blank (.inl rfl)

theorem Ends.newline (h : Ends s ws) : Cut (s ++ "\n") ws :=
  h.blank (.inr rfl)

/-- A parenthesis ends a word, and is one. -/
theorem Ends.close (h : Ends s ws) : Cut (s ++ ")") (ws ++ [.closing]) := by
  intro found
  obtain ⟨hmode, hflush⟩ := h found
  rw [String.toList_append, Reader.read_append]
  generalize (Reader.fresh found).read s.toList = r at hmode hflush
  show r.step ')' = _
  unfold Reader.step
  rw [hmode]
  show r.flush.add .closing = _
  rw [hflush, List.reverse_append]
  rfl

end

-- ================================================================ leaves

/-- A character that neither cuts nor begins a quoted text. -/
def Solid (c : Char) : Prop := c ∉ [' ', '\n', '(', ')', '"']

instance : DecidablePred Solid := fun c =>
  inferInstanceAs (Decidable (c ∉ [' ', '\n', '(', ')', '"']))

section

variable {found : List Word} {part : List Char}

/-- Characters that all become part of the word, in a mode that they do not
change. -/
theorem read_kept {mode : Mode} {cs : List Char}
    (h : ∀ c ∈ cs, ∀ part, Reader.step ⟨found, part, mode⟩ c =
      ⟨found, c :: part, mode⟩) :
    Reader.read ⟨found, part, mode⟩ cs =
      ⟨found, cs.reverse ++ part, mode⟩ := by
  induction cs generalizing part with
  | nil => rfl
  | cons c cs ih =>
      obtain ⟨hc, hcs⟩ := List.forall_mem_cons.1 h
      show Reader.read (Reader.step _ c) cs = _
      rw [hc, ih hcs, List.reverse_cons, List.append_assoc]
      rfl

theorem step_solid {c : Char} (h : Solid c) :
    Reader.step ⟨found, part, .plain⟩ c = ⟨found, c :: part, .plain⟩ := by
  unfold Solid at h
  simp only [List.mem_cons, List.not_mem_nil, or_false, not_or] at h
  obtain ⟨hspace, hline, hopen, hclose, hquote⟩ := h
  simp [Reader.step, hspace, hline, hopen, hclose, hquote]

theorem step_quoted {c : Char} (h : c ≠ '"' ∧ c ≠ '\\') :
    Reader.step ⟨found, part, .quoted⟩ c = ⟨found, c :: part, .quoted⟩ := by
  simp [Reader.step, h.1, h.2]

end

/-- What was read of a word ends as the word. -/
theorem ends_leaf {s : String} (hne : s ≠ "")
    (h : ∀ found, (Reader.fresh found).read s.toList =
      ⟨found, s.toList.reverse, .plain⟩) : Ends s [.leaf s] := by
  intro found
  rw [h found]
  refine ⟨rfl, ?_⟩
  have hpart : s.toList.reverse ≠ [] := by simpa using hne
  unfold Reader.flush
  rw [if_neg hpart, List.reverse_reverse, String.ofList_toList]
  rfl

/-- A word of solid characters. -/
theorem Ends.leaf {s : String} (hne : s ≠ "")
    (h : ∀ c ∈ s.toList, Solid c) : Ends s [.leaf s] := by
  refine ends_leaf hne fun found => ?_
  rw [Reader.fresh, read_kept fun c hc _ => step_solid (h c hc),
    List.append_nil]

/-- Behind the letter for a number no character is special. -/
theorem byNumber_eq (c : Char) :
    ∃ cs, Text.byNumber c = '\\' :: 'u' :: cs
      ∧ ∀ d ∈ cs, d ≠ '"' ∧ d ≠ '\\' := by
  have hdigit : ∀ d < 16, Nat.digitChar d ≠ '"'
      ∧ Nat.digitChar d ≠ '\\' := by decide
  refine ⟨'\x7b' :: (Nat.toDigits 16 c.toNat ++ ['\x7d']), rfl,
    List.forall_mem_cons.2 ⟨by decide, List.forall_mem_append.2
      ⟨fun d hd => ?_, List.forall_mem_singleton.2 (by decide)⟩⟩⟩
  obtain ⟨n, hn, rfl⟩ := Text.mem_toDigits _ d hd
  exact hdigit n hn

/-- No character of a text ends the quotes around it. -/
theorem read_escape (c : Char) (found : List Word) (part : List Char) :
    Reader.read ⟨found, part, .quoted⟩ (Text.escape c) =
      ⟨found, (Text.escape c).reverse ++ part, .quoted⟩ := by
  rcases Text.escape_cases c with ⟨e, h, -, -⟩ | h | ⟨h, hc⟩
  · rw [h]
    rfl
  · obtain ⟨cs, hcs, hplain⟩ := byNumber_eq c
    rw [h, hcs]
    show Reader.read ⟨found, 'u' :: '\\' :: part, .quoted⟩ cs = _
    rw [read_kept fun d hd _ => step_quoted (hplain d hd)]
    simp
  · rw [h]
    exact step_quoted hc

theorem read_escapes (cs : List Char) (found : List Word)
    (part : List Char) :
    Reader.read ⟨found, part, .quoted⟩ (cs.flatMap Text.escape) =
      ⟨found, (cs.flatMap Text.escape).reverse ++ part, .quoted⟩ := by
  induction cs generalizing part with
  | nil => rfl
  | cons c cs ih =>
      rw [List.flatMap_cons, Reader.read_append, read_escape, ih,
        List.reverse_append, List.append_assoc]

/-- A quoted text is one word. -/
theorem Ends.quoted (s : String) :
    Ends (Text.quoted s) [.leaf (Text.quoted s)] := by
  have htext : (Text.quoted s).toList =
      '"' :: (s.toList.flatMap Text.escape ++ ['"']) := by
    unfold Text.quoted
    rw [String.toList_ofList]
    rfl
  refine ends_leaf (fun h => ?_) fun found => ?_
  · rw [h] at htext
    cases htext
  · rw [htext]
    show Reader.read ⟨found, ['"'], .quoted⟩ _ = _
    rw [Reader.read_append, read_escapes]
    simp [Reader.read, Reader.step]

-- ========================================================== nested lists

/-- A nested list. -/
inductive Sexp where
  | leaf (text : String)
  | list (items : List Sexp)

mutual

/-- The words of a nested list. -/
def Sexp.words : Sexp → List Word
  | .leaf text => [.leaf text]
  | .list items => .opening :: (wordsOfAll items ++ [.closing])

/-- The words of nested lists, one behind the other. -/
def wordsOfAll : List Sexp → List Word
  | [] => []
  | x :: xs => x.words ++ wordsOfAll xs

end

/-- Puts lists together: those that are finished and those that are still
open around them, each with the latest first. -/
def assembled (done : List Sexp) : List (List Sexp) → List Word → List Sexp
  | _, [] => done.reverse
  | outer, .leaf text :: ws => assembled (.leaf text :: done) outer ws
  | outer, .opening :: ws => assembled [] (done :: outer) ws
  | [], .closing :: ws => assembled done [] ws
  | before :: outer, .closing :: ws =>
      assembled (.list done.reverse :: before) outer ws

mutual

theorem assembled_words : ∀ (x : Sexp) (done : List Sexp)
    (outer : List (List Sexp)) (ws : List Word),
    assembled done outer (x.words ++ ws) = assembled (x :: done) outer ws
  | .leaf text, done, outer, ws => by
      rw [Sexp.words, List.singleton_append, assembled]
  | .list items, done, outer, ws => by
      rw [Sexp.words, List.cons_append, assembled, List.append_assoc,
        assembled_wordsOfAll items, List.singleton_append, assembled,
        List.append_nil, List.reverse_reverse]

theorem assembled_wordsOfAll : ∀ (xs : List Sexp) (done : List Sexp)
    (outer : List (List Sexp)) (ws : List Word),
    assembled done outer (wordsOfAll xs ++ ws) =
      assembled (xs.reverse ++ done) outer ws
  | [], _, _, _ => rfl
  | x :: xs, done, outer, ws => by
      rw [wordsOfAll, List.append_assoc, assembled_words x,
        assembled_wordsOfAll xs, List.reverse_cons, List.append_assoc]
      rfl

end

/-- The first nested list of a text. -/
def sexpOf? (text : String) : Option Sexp :=
  (assembled [] [] (words text)).head?

/-- A text that is cut into the words of a nested list is that list. -/
theorem Ends.sexpOf?_eq {text : String} {x : Sexp} (h : Ends text x.words) :
    sexpOf? text = some x := by
  unfold sexpOf?
  rw [h.words_eq, ← List.append_nil x.words, assembled_words]
  rfl

end Script.Printed
