/-
The symbol table: which slot a name means, at one place of a program.
Every function has a frame, the main function included; a frame has a
table of names for each block that is open, and hands out its slots one
after the other. A slot is never handed out twice, so it outlives the
block it was for.

A name of the function itself is a local. One of a function between it
and the main function is captured, which code cannot express. One of the
main function is a global.

Slots take 32 bits. Here they are numbers without a bound, which are the
same for functions with less than `2 ^ 32` declarations.
-/

namespace Script.Code

/-- The slots of names, each name once. -/
abbrev Names := List (String × Nat)

/-- The names and slots of one function. -/
structure Frame where
  /-- The names of the innermost open block. -/
  block : Names
  /-- Those of the blocks around it, from the inside out. -/
  outer : List Names
  /-- The variable of each slot. -/
  slots : List String
deriving DecidableEq, Repr

namespace Frame

/-- A frame without names. -/
def empty : Frame := ⟨[], [], []⟩

/-- The slot of a name: that of the innermost block which has one. -/
def lookup? (f : Frame) (name : String) : Option Nat :=
  (f.block :: f.outer).findSome? (·.lookup name)

/-- Gives a name a slot in the innermost block. A name that has one
there keeps it. -/
def declare (f : Frame) (name : String) : Nat × Frame :=
  match f.block.lookup name with
  | some slot => (slot, f)
  | none =>
      let slot := f.slots.length
      (slot, { f with
        block := (name, slot) :: f.block
        slots := f.slots ++ [name] })

/-- Opens a block. -/
def openBlock (f : Frame) : Frame :=
  { f with block := [], outer := f.block :: f.outer }

/-- Closes the innermost block; the outermost one stays open. -/
def closeBlock (f : Frame) : Frame :=
  match f.outer with
  | [] => f
  | block :: outer => { f with block, outer }

/-- A block that declares nothing leaves no trace. -/
@[simp] theorem closeBlock_openBlock (f : Frame) :
    f.openBlock.closeBlock = f := rfl

end Frame

/-- What a name means. -/
inductive Symbol where
  /-- A variable of the main function. -/
  | global (slot : Nat)
  /-- A variable of the function itself, if that is not the main one. -/
  | own (slot : Nat)
  /-- A local of another function around this one. -/
  | captured
deriving DecidableEq, Repr

/-- The frames of the functions around a place, from the inside out, and
that of the main function. -/
structure Symbols where
  inner : List Frame
  main : Frame
deriving DecidableEq, Repr

namespace Symbols

/-- A table without names. -/
def empty : Symbols := ⟨[], .empty⟩

/-- Whether no function is open but the main one. -/
def inMain (s : Symbols) : Bool := s.inner.isEmpty

/-- The frame of the innermost function. -/
def current (s : Symbols) : Frame := s.inner.headD s.main

/-- Changes the frame of the innermost function. -/
def onCurrent (s : Symbols) (f : Frame → Frame) : Symbols :=
  match s.inner with
  | [] => { s with main := f s.main }
  | frame :: frames => { s with inner := f frame :: frames }

/-- Opens a function. -/
def openFrame (s : Symbols) : Symbols :=
  { s with inner := .empty :: s.inner }

/-- Closes the innermost function and yields the names of its slots; the
main function stays open. -/
def closeFrame (s : Symbols) : List String × Symbols :=
  match s.inner with
  | [] => ([], s)
  | frame :: inner => (frame.slots, { s with inner })

/-- Opens a block in the innermost function. -/
def openBlock (s : Symbols) : Symbols := s.onCurrent Frame.openBlock

/-- Closes the innermost block of the innermost function. -/
def closeBlock (s : Symbols) : Symbols := s.onCurrent Frame.closeBlock

/-- Gives a name a slot in the innermost block. -/
def declare (s : Symbols) (name : String) : Symbol × Symbols :=
  let slot := (s.current.declare name).1
  (if s.inMain then .global slot else .own slot,
    s.onCurrent fun f => (f.declare name).2)

/-- What a name means here. -/
def resolve? (s : Symbols) (name : String) : Option Symbol :=
  let global := (s.main.lookup? name).map Symbol.global
  match s.inner with
  | [] => global
  | frame :: around =>
      match frame.lookup? name with
      | some slot => some (.own slot)
      | none =>
          if around.any fun f => (f.lookup? name).isSome then some .captured
          else global

/-- The names of the slots of the main function. -/
def globals (s : Symbols) : List String := s.main.slots

/-- A name means what it was declared as last. -/
theorem resolve?_declare (s : Symbols) (name : String) :
    (s.declare name).2.resolve? name = some (s.declare name).1 := by
  have hframe (f : Frame) :
      (f.declare name).2.lookup? name = some (f.declare name).1 := by
    unfold Frame.declare
    split
    · rename_i slot h
      simp [Frame.lookup?, h]
    · simp [Frame.lookup?]
  unfold declare resolve? onCurrent current inMain
  cases s.inner with
  | nil => simp [hframe]
  | cons f fs => simp [hframe]

end Symbols

end Script.Code
