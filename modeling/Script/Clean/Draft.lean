/-
The cleaned text while it is written: the text so far, and the origin of
each line. Lines are added one at a time, with the line break that the
written line had; a line that is left out leaves its break behind.
-/
import Script.Source.Origin
import Script.Text.Measure

namespace Script.Clean

/-- A line of a text: its number, the offset where it starts, its
characters, and whether a line break ends it. -/
structure Line where
  number : Nat
  start : Nat
  body : List Char
  broken : Bool
deriving DecidableEq, Repr

/-- The lines of a text that goes on with a line of a number, which
starts at an offset and of which `body` is read, last character first.
Behind the last line break there is only a line if it is not empty. -/
def linesFrom (number start : Nat) (body : List Char) :
    List Char → List Line
  | [] =>
      if body.isEmpty then [] else [⟨number, start, body.reverse, false⟩]
  | c :: cs =>
      if c = '\n' then
        ⟨number, start, body.reverse, true⟩ ::
          linesFrom (number + 1) (start + Text.byteLength body + 1) [] cs
      else linesFrom number start (c :: body) cs

/-- The lines of a text. -/
def lines (text : List Char) : List Line := linesFrom 1 0 [] text

/-- The text written so far, last character first, and the origin of
each of its lines. -/
structure Draft where
  reversed : List Char
  origins : Array LineOrigin
deriving DecidableEq, Repr

namespace Draft

/-- Nothing written. -/
def empty : Draft := ⟨[], #[]⟩

/-- The text written so far. -/
def text (d : Draft) : List Char := d.reversed.reverse

/-- Whether the next character begins a line. -/
def atLineStart (d : Draft) : Bool :=
  match d.reversed with
  | [] => true
  | c :: _ => c == '\n'

/-- Adds characters and a line break, if there is one. -/
def addLine (d : Draft) (body : List Char) (broken : Bool)
    (origin : LineOrigin) : Draft :=
  let written := body.reverse ++ d.reversed
  ⟨if broken then '\n' :: written else written, d.origins.push origin⟩

/-- Ends a line that is not empty. -/
def endLine (d : Draft) : Draft :=
  if d.atLineStart then d else { d with reversed := '\n' :: d.reversed }

/-- Adds the origin of the empty line behind the last line break. -/
def markEnd (d : Draft) (origin : LineOrigin) : Draft :=
  if d.atLineStart then { d with origins := d.origins.push origin } else d

@[simp] theorem text_addLine (d : Draft) (body : List Char) (broken : Bool)
    (origin : LineOrigin) :
    (d.addLine body broken origin).text =
      d.text ++ body ++ if broken then ['\n'] else [] := by
  cases broken <;> simp [addLine, text]

end Draft

end Script.Clean
