/-
Origins: where a line of preprocessed text was written. A line that was
copied as it stands needs only its file and number; one in which macros
were replaced also carries shifts, which say piece by piece which bytes
of the written line the bytes of the new line stand for.

Offsets take 32 bits. The texts that are read are short enough for that, but
what macros make of a line need not be, and then the offsets of its pieces
wrap around. So the offset of a piece in the new line is a `UInt32`, while
that in the written line is a number.
-/
import Script.Source.Span

namespace Script

/-- A number as an offset of 32 bits; what does not fit is cut off. -/
instance offsetOfNat : Coe Nat UInt32 := ⟨.ofNat⟩

/-- An offset as a number. -/
instance natOfOffset : CoeOut UInt32 Nat := ⟨UInt32.toNat⟩

/-- The start of a piece of a derived line. From the offset `derived`
on, the line stands for the written line from `origin` on: byte for byte
if the piece is verbatim, and as a whole for that one place if it was
substituted. -/
structure Shift where
  derived : UInt32
  origin : Nat
  verbatim : Bool
deriving DecidableEq, Repr

/-- The written line that a derived line stands for. Lines are numbered
from one; the shifts are in the order of the derived line. -/
structure LineOrigin where
  file : FileId
  line : Nat
  shifts : List Shift
deriving DecidableEq, Repr

/-- The place in the written line that an offset in the piece stands
for. -/
def Shift.apply (s : Shift) (offset : Nat) : Nat :=
  if s.verbatim then s.origin + (offset - s.derived.toNat) else s.origin

/-- The place in the written line that an offset in the derived line
stands for: the last piece that starts at or before it decides, and in
front of all pieces the two lines agree. -/
def LineOrigin.mapOffset (o : LineOrigin) (offset : Nat) : Nat :=
  match o.shifts.reverse.find? (·.derived.toNat ≤ offset) with
  | some s => s.apply offset
  | none => offset

/-- A line copied as it stands. -/
def LineOrigin.copied (file : FileId) (line : Nat) : LineOrigin :=
  ⟨file, line, []⟩

@[simp] theorem LineOrigin.mapOffset_copied (file line offset : Nat) :
    (copied file line).mapOffset offset = offset := rfl

end Script
