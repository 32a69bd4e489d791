/-
Reading a text as tokens. The text is cut into lexemes from left to
right, spaces between them; each lexeme yields a token or a report, and
the reports about a token's own characters come in front of it. The
result keeps both in their order, so that it also says what was known
when a token was read.
-/
import Script.Text.Measure
import Script.Token.Lexeme

namespace Script.Token

/-- What reading comes across: tokens and reports. -/
inductive Item where
  | token (t : Token)
  | report (d : Diagnostic)
deriving DecidableEq, Repr

/-- The token of an item. -/
def Item.token? : Item → Option Token
  | .token t => some t
  | .report _ => none

/-- The diagnostic of an item. -/
def Item.report? : Item → Option Diagnostic
  | .token _ => none
  | .report d => some d

/-- The items of a lexeme at an offset: its unknown escapes, then
itself. -/
def Lexeme.items (file : FileId) (offset : Nat) (first : Char)
    (l : Lexeme) : List Item :=
  let text := first :: l.tail
  let span : Span := ⟨file, offset, Text.byteLength text⟩
  let strays := l.strays.map fun (distance, c) =>
    Item.report <| (Fault.unknownEscape c).report.at
      ⟨file, offset + distance, 1 + c.utf8Size⟩
  let itself :=
    match l.outcome with
    | .ok kind => Item.token ⟨kind, String.ofList text, span⟩
    | .error f => Item.report (f.report.at span)
  strays ++ [itself]

/-- The items of a text that begins at an offset, behind those already
found. -/
def scanFrom (file : FileId) (offset : Nat) (found : Array Item) :
    List Char → Array Item
  | [] => found.push (.token (Token.endOfInput file offset))
  | c :: cs =>
      if isSpace c then scanFrom file (offset + c.utf8Size) found cs
      else
        let l := lexemeAt c cs
        scanFrom file (offset + Text.byteLength (c :: l.tail))
          (found ++ (l.items file offset c).toArray)
          (cs.drop l.tail.length)
termination_by cs => cs.length
decreasing_by all_goals (simp; try omega)

/-- Everything found in a text, in order. -/
def scan (file : FileId) (text : String) : List Item :=
  (scanFrom file 0 #[] text.toList).toList

/-- The tokens of a text and the reports about it, each in order. -/
def ofText (file : FileId) (text : String) : List Token × List Diagnostic :=
  let items := scan file text
  (items.filterMap Item.token?, items.filterMap Item.report?)

/-- What is come across until a number of tokens is found. -/
def upTo : Nat → List Item → List Item
  | 0, _ => []
  | _ + 1, [] => []
  | n + 1, .token t :: items => .token t :: upTo n items
  | n + 1, .report d :: items => .report d :: upTo (n + 1) items

/-- What was already found stays in front. -/
theorem scanFrom_eq (file : FileId) (offset : Nat) (found : Array Item) :
    (cs : List Char) → scanFrom file offset found cs =
      found ++ scanFrom file offset #[] cs
  | [] => by simp [scanFrom]
  | c :: cs => by
    by_cases h : isSpace c
    · simp only [scanFrom, h, if_true]
      exact scanFrom_eq file _ found cs
    · simp only [scanFrom, h, if_false, Bool.false_eq_true]
      rw [scanFrom_eq file _ (found ++ _), scanFrom_eq file _ (#[] ++ _)]
      simp [Array.append_assoc]
termination_by cs => cs.length
decreasing_by all_goals (simp; try omega)

end Script.Token
