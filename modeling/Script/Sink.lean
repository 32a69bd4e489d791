/-
Where output goes. A sink keeps what is written to it; one with limited
room takes the bytes that still fit, and refuses every further write.
-/

namespace Script

/-- The bytes written so far, and how many more there is room for. -/
structure Sink where
  written : ByteArray
  room : Option Nat

namespace Sink

/-- A sink with room for everything. -/
def unlimited : Sink := ⟨.empty, none⟩

/-- A sink with room for a number of bytes. -/
def limited (room : Nat) : Sink := ⟨.empty, some room⟩

/-- Why a sink refuses a write. -/
def refusal : String := "closed"

/-- Writes a text; whether all of it was taken, and the sink behind
it. -/
def write (s : Sink) (text : String) : Bool × Sink :=
  let bytes := text.toUTF8
  match s.room with
  | none => (true, ⟨s.written ++ bytes, none⟩)
  | some room =>
      if bytes.size ≤ room then
        (true, ⟨s.written ++ bytes, some (room - bytes.size)⟩)
      else (false, ⟨s.written ++ bytes.extract 0 room, some 0⟩)

/-- A sink without a limit refuses nothing. -/
theorem write_of_room_eq_none {s : Sink} (h : s.room = none)
    (text : String) : (s.write text).1 = true := by
  simp [write, h]

end Sink

end Script
