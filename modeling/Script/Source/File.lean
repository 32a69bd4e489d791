/-
Source files and positions in them. A file is a named text; one that the
preprocessor made also knows the origin of each of its lines. Positions
are shown to people as a line and a column, both counted from one, and
columns count characters.

Offsets and line numbers take 32 bits. Here they are numbers without a
bound, which are the same for texts of less than `2 ^ 32` bytes.
-/
import Script.Source.Origin
import Script.Text.Measure

namespace Script

/-- A named text, with the origins of its lines if it was derived from
other files. -/
structure SourceFile where
  name : String
  text : String
  origins : Option (List LineOrigin)
deriving DecidableEq, Repr

namespace SourceFile

/-- The bytes of the text. -/
def size (f : SourceFile) : Nat := f.text.utf8ByteSize

/-- The offsets at which lines start, the last one first: `offset` is
that of the text still to be read, and `starts` are those already
known. -/
def lineStartsFrom (offset : Nat) (starts : List Nat) :
    List Char → List Nat
  | [] => starts
  | c :: cs =>
      let next := offset + c.utf8Size
      lineStartsFrom next (if c = '\n' then next :: starts else starts) cs

/-- The offsets at which the lines of a text start: zero, and the place
behind each line break. -/
def lineStarts (f : SourceFile) : List Nat :=
  (lineStartsFrom 0 [0] f.text.toList).reverse

/-- The offset at which a line starts; lines are counted from one. -/
def lineStart? (f : SourceFile) (line : Nat) : Option Nat :=
  if line = 0 then none else f.lineStarts[line - 1]?

/-- The line and column of an offset; one behind the end counts as the
end. Inside of a character the bytes since the line start stand for the
missing count. -/
def lineCol (f : SourceFile) (offset : Nat) : Nat × Nat :=
  let offset := min offset f.size
  let before := f.lineStarts.takeWhile (· ≤ offset)
  let start := before.getLast?.getD 0
  let column :=
    ((Text.dropBytes? start f.text.toList).bind
      (Text.countIn? (offset - start))).getD (offset - start)
  (before.length, column + 1)

end SourceFile

end Script
