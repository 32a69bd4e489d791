/-
Reading a program takes all of its tokens. Each round of the loop over
statements gets on, so reading ends at the end of input only, and then
every token has been asked for.

This is what makes scanning on demand the same as scanning everything
first. Faults are found in front of the token that was asked for, and
there is none behind the end of input.
-/
import Script.Proofs.Grammar.Accepts
import Script.Proofs.Reading.Rounds

namespace Script

open Grammar Script.Action

open Script.Tree

-- ============================================================= programs

/-- Reading a program leaves nothing, and returns what its rounds made. -/
theorem Program.readFrom_whole {c : Cursor}
    (hkinds : ∀ t ∈ c.rest, t.kind ≠ .endOfInput) :
    ∃ rounds d, Rounds Cursor.roundOfProgram? c rounds d ∧ d.rest = []
      ∧ readFrom c = (⟨rounds.filterMap Round.piece, c.here.join d.here⟩, d)
    := by
  obtain ⟨rounds, d, hrounds, hread⟩ := readFrom_rounds c
  refine ⟨rounds, d, hrounds, ?_, hread⟩
  have hsuffix := (hrounds.later fun _ _ => .roundOfProgram).rest_suffix
  cases hrest : d.rest with
  | nil => rfl
  | cons t ts =>
      have hkind := hrounds.kind
      unfold Cursor.kind at hkind
      rw [hrest] at hkind hsuffix
      exact absurd hkind (hkinds t (hsuffix.subset (List.mem_cons_self ..)))

/-- Reading the tokens of a program goes through its rounds, up to the end
of input. -/
theorem Program.ofTokens_rounds (file : FileId) (size : Nat)
    (tokens : List Token) :
    ∃ rounds d,
      Rounds Cursor.roundOfProgram? (.start file size tokens) rounds d
      ∧ d.rest = []
      ∧ ofTokens file size tokens = (⟨rounds.filterMap Round.piece,
          (Cursor.start file size tokens).here.join d.here⟩,
        d.reports.toList) := by
  obtain ⟨rounds, d, hrounds, hd, hread⟩ :=
    readFrom_whole (c := .start file size tokens) fun t ht =>
      of_decide_eq_true (List.all_eq_true.1 List.all_takeWhile t ht)
  refine ⟨rounds, d, hrounds, hd, ?_⟩
  unfold ofTokens
  rw [hread]

-- =============================================================== texts

namespace Token

/-- Up to the last token, everything is come across that is not behind
it. -/
theorem upTo_concat (items : List Item) (last : Token) :
    upTo ((items ++ [Item.token last]).filterMap Item.token?).length
      (items ++ [Item.token last]) = items ++ [Item.token last] := by
  rw [List.filterMap_append, List.length_append]
  show upTo ((items.filterMap Item.token?).length + 1) _ = _
  induction items with
  | nil => rfl
  | cons item items ih =>
      cases item with
      | token t => exact congrArg (Item.token t :: ·) ih
      | report d => exact congrArg (Item.report d :: ·) ih

end Token

/-- Reading a text on demand finds what scanning all of it first
finds. -/
theorem Program.ofText_eq (file : FileId) (text : String) :
    ofText file text =
      let (tokens, faults) := Token.ofText file text
      let (program, reports) := ofTokens file text.utf8ByteSize tokens
      (program, faults ++ reports) := by
  obtain ⟨-, -, body, last, htokens, hlast, hbody⟩ :=
    Token.ofText_complete file text
  obtain ⟨items, hitems⟩ := (Token.scanned_scan file text).concat
  generalize hcursor : Tree.Cursor.start file text.utf8ByteSize
    (Token.ofText file text).1 = c
  have hrest : c.rest = body := by
    rw [← hcursor, htokens]
    exact (Tree.Cursor.start_eq file _ hlast hbody).1
  have hread : (readFrom c).2.rest = [] := by
    obtain ⟨rounds, d, -, hd, hread⟩ := readFrom_whole (hrest ▸ hbody)
    rwa [hread]
  have hseen : Token.upTo (Token.ofText file text).1.length
      (Token.scan file text) = Token.scan file text := by
    unfold Token.ofText
    rw [hitems]
    exact Token.upTo_concat items _
  show ((readFrom (.start file _ (Token.ofText file text).1)).1,
    (Token.upTo ((Token.ofText file text).1.length
      - (readFrom (.start file _ (Token.ofText file text).1)).2.rest.length)
      (Token.scan file text)).filterMap Token.Item.report?
    ++ (readFrom (.start file _ (Token.ofText file text).1)).2.reports.toList)
    = _
  rw [hcursor, hread]
  show (_, (Token.upTo (Token.ofText file text).1.length _).filterMap _
    ++ _) = _
  rw [hseen, ← hcursor]
  rfl

/-- Reading ends, and takes all tokens up to the first end of input.
Every round of a loop over statements takes a token, and the numbers that
bound the loops never come to bear. So it does not matter whether a text
is scanned on demand or in full before. -/
theorem Program.reads_whole_input (file : FileId) :
    (∀ size tokens, ∃ rounds d,
        let c := Cursor.start file size tokens
        c.rest = tokens.takeWhile (·.kind ≠ .endOfInput)
          ∧ Rounds Cursor.roundOfProgram? c rounds d ∧ d.rest = []
          ∧ ofTokens file size tokens
            = (⟨rounds.filterMap Round.piece, c.here.join d.here⟩,
              d.reports.toList))
    ∧ Takes Cursor.roundOfProgram?
    ∧ (∀ n inside, Takes (Cursor.roundOfBlock? n inside))
    ∧ (∀ n inside c more, ∃ rounds d,
        Rounds (Cursor.roundOfBlock? n inside) c rounds d
          ∧ statementsInBlock (statement n inside) (c.rest.length + more) c
            = .ok (rounds.filterMap Round.piece) d)
    ∧ (∀ n c more,
        Parse.separated (expression n) (c.rest.length + more) c
          = Parse.separated (expression n) c.rest.length c)
    ∧ (∀ seen c more, parameters seen (c.rest.length + more) c
        = parameters seen c.rest.length c)
    ∧ ∀ text, ofText file text =
        let (tokens, faults) := Token.ofText file text
        let (program, reports) := ofTokens file text.utf8ByteSize tokens
        (program, faults ++ reports) := by
  refine ⟨fun size tokens => ?_, takes_roundOfProgram, takes_roundOfBlock,
    fun n inside _ _ => statementsInBlock_rounds n inside
      (Nat.le_add_right ..),
    fun n c more => separated_bounds (.expression n) (Nat.le_add_right ..)
      (Nat.le_refl _),
    fun seen c more => parameters_bounds (Nat.le_add_right ..)
      (Nat.le_refl _), ofText_eq file⟩
  obtain ⟨rounds, d, hread⟩ := ofTokens_rounds file size tokens
  exact ⟨rounds, d, rfl, hread⟩

end Script
