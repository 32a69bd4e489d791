/-
The registry of source files of one run, and how a span is shown to
people. A span in a derived file is traced back to the line that was
written; one that cannot be traced is shown where it stands.
-/
import Script.Source.File

namespace Script

/-- The files of one run in the order of registration. -/
structure Sources where
  files : Array SourceFile
deriving DecidableEq, Repr

/-- A place as it is shown to people. -/
structure Location where
  name : String
  line : Nat
  column : Nat
deriving DecidableEq, Repr

/-- A location as `name:line:column`. -/
def Location.text (l : Location) : String :=
  l.name ++ ":" ++ toString l.line ++ ":" ++ toString l.column

/-- The location of a span in no registered file. -/
def Location.unknown : Location := ⟨"<unknown>", 0, 0⟩

namespace Sources

/-- No files. -/
def empty : Sources := ⟨#[]⟩

/-- The file of an identifier. -/
def get? (s : Sources) (id : FileId) : Option SourceFile := s.files[id]?

/-- Registers a file. -/
def push (s : Sources) (f : SourceFile) : FileId × Sources :=
  (s.files.size, ⟨s.files.push f⟩)

/-- Registers a text as it was written. -/
def add (s : Sources) (name text : String) : FileId × Sources :=
  s.push ⟨name, text, none⟩

/-- Registers a text that was derived from other files. -/
def addDerived (s : Sources) (name text : String)
    (origins : List LineOrigin) : FileId × Sources :=
  s.push ⟨name, text, some origins⟩

/-- The text of a file, empty for an unknown one. -/
def textOf (s : Sources) (id : FileId) : String :=
  ((s.get? id).map (·.text)).getD ""

/-- The name of a file, empty for an unknown one. -/
def nameOf (s : Sources) (id : FileId) : String :=
  ((s.get? id).map (·.name)).getD ""

/-- Traces an offset on a line of a derived file back to the line that
was written. Lines behind the last origin use the last one, and a place
behind the end of the written line is its end. -/
def traceBack? (s : Sources) (f : SourceFile) (line offset : Nat) :
    Option Location := do
  let origins ← f.origins
  let origin ← origins[line - 1]? <|> origins.getLast?
  let written ← s.get? origin.file
  let start ← f.lineStart? line
  let writtenStart ← written.lineStart? origin.line
  let writtenEnd :=
    match written.lineStart? (origin.line + 1) with
    | some next => next - 1
    | none => written.size
  let place := writtenStart + origin.mapOffset (min offset f.size - start)
  pure ⟨written.name, origin.line,
    (written.lineCol (min place writtenEnd)).2⟩

/-- The location of the start of a span. -/
def locate (s : Sources) (span : Span) : Location :=
  match s.get? span.file with
  | none => .unknown
  | some f =>
      let (line, column) := f.lineCol span.start
      (s.traceBack? f line span.start).getD ⟨f.name, line, column⟩

/-- A registered file can be looked up by the identifier it was
given. -/
@[simp] theorem get?_push (s : Sources) (f : SourceFile) :
    (s.push f).2.get? (s.push f).1 = some f := by
  simp [push, get?]

/-- Registering a file leaves those before it alone. -/
theorem get?_push_of_get? {s : Sources} {id : FileId} {f g : SourceFile}
    (h : s.get? id = some g) : (s.push f).2.get? id = some g := by
  obtain ⟨hlt, rfl⟩ := Array.getElem?_eq_some_iff.1 h
  simp [push, get?, Array.getElem?_push, Nat.ne_of_lt hlt, hlt]

end Sources

end Script
