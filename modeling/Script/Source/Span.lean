/-
Spans: runs of bytes in one file. A span is kept as a start and a
length, so its end never lies before its start.

Offsets take 32 bits, and so do the numbers of files. Here both are
numbers without a bound, which are the same for less than `2 ^ 32` files
of less than `2 ^ 32` bytes each.
-/

namespace Script

/-- A file, by its place in the order of registration. -/
abbrev FileId := Nat

/-- `length` bytes of a file, from the offset `start` on. -/
structure Span where
  file : FileId
  start : Nat
  length : Nat
deriving DecidableEq, Repr

namespace Span

/-- The offset just behind a span. -/
def stop (s : Span) : Nat := s.start + s.length

/-- The empty span at an offset. -/
def point (file : FileId) (offset : Nat) : Span := ⟨file, offset, 0⟩

/-- The span between two offsets. They are in order wherever one is made:
in a join by itself, for a directive by `le_of_hashLine?`, and for an open
comment by `blankComments_error`. -/
def between (file : FileId) (start stop : Nat) : Span :=
  ⟨file, start, stop - start⟩

/-- The smallest span that covers two spans of one file. -/
def join (a b : Span) : Span :=
  between a.file (min a.start b.start) (max a.stop b.stop)

/-- Whether `b` lies in `a`, ends included. -/
def contains (a b : Span) : Bool :=
  a.file == b.file && a.start ≤ b.start && b.stop ≤ a.stop

/-- A span as its two offsets. -/
def text (s : Span) : String := toString s.start ++ ".." ++ toString s.stop

theorem start_le_stop (s : Span) : s.start ≤ s.stop :=
  Nat.le_add_right ..

@[simp] theorem stop_between {file start stop : Nat} (h : start ≤ stop) :
    (between file start stop).stop = stop := by
  simp [between, Span.stop]
  omega

@[simp] theorem start_join (a b : Span) :
    (a.join b).start = min a.start b.start := rfl

@[simp] theorem stop_join (a b : Span) :
    (a.join b).stop = max a.stop b.stop := by
  have := a.start_le_stop
  exact stop_between (by omega)

/-- A join covers its first span. -/
theorem contains_join_left (a b : Span) : (a.join b).contains a = true := by
  simp only [contains, start_join, stop_join, Bool.and_eq_true, beq_iff_eq]
  exact ⟨⟨rfl, decide_eq_true (Nat.min_le_left ..)⟩,
    decide_eq_true (Nat.le_max_left ..)⟩

/-- A join covers its second span. -/
theorem contains_join_right {a b : Span} (h : a.file = b.file) :
    (a.join b).contains b = true := by
  simp only [contains, start_join, stop_join, Bool.and_eq_true, beq_iff_eq]
  exact ⟨⟨h, decide_eq_true (Nat.min_le_right ..)⟩,
    decide_eq_true (Nat.le_max_right ..)⟩

end Span

end Script
