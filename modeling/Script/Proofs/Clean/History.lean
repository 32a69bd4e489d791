/-
The history of a cleaning: which source lines were read, in the order in
which they were read, and what each of them left behind. It is computed
beside the cleaning itself, which does every step; the history only
writes down what the step was about. An include directive that counts is
no entry of its own: the lines of the included file stand in its place.

The history is the second reading of a cleaned text, next to the draft.
The draft knows characters and origins but not which of them belong
together; the history knows, line by line, and knows nothing of how lines
are put together to a text. `Alignment.lean` compares the two.
-/
import Script.Clean.Basic

namespace Script.Clean

/-- A source line as it was read: its file, the macros defined when it
was read, and whether it counted. -/
structure Made where
  file : FileId
  line : Line
  macros : Macros
  active : Bool
deriving DecidableEq, Repr

namespace Made

/-- What a source line leaves in the cleaned text: the line with its
macros replaced, or nothing if it is a directive or does not count. -/
def text (m : Made) : List Char :=
  if m.active && (hashLine? m.line.body).isNone then
    (expand m.macros m.line.body).text
  else []

/-- Where a source line stands. -/
def place (m : Made) : FileId × Nat := (m.file, m.line.number)

/-- Whether a source line leaves no trace in the cleaned text: neither
characters, nor a line break. -/
def isSilent (m : Made) : Bool := !m.line.broken && m.text.isEmpty

/-- What a source line contributes to a text in which every line ends
with a line break. -/
def laid (m : Made) : List Char :=
  if m.isSilent then [] else m.text ++ ['\n']

end Made

/-- What stands behind the word of an include directive that counts. -/
def pasteOf? (conditionals : List Conditional) (line : Line) :
    Option (List Char) :=
  match hashLine? line.body with
  | some (_, behind) =>
      match Directive.ofText behind with
      | .paste rest => if isActive conditionals then some rest else none
      | _ => none
  | none => none

/-- The state in which the lines of an included file are read. -/
def State.opening (s : State) (found : Included) : FileId × State :=
  let (id, sources) := s.sources.add found.name found.text
  (id, { s with sources, includes := s.includes.push id })

/-- The history of one line: `pasted` is that of an include
directive. -/
def madeLine (file : FileId) (pasted : List Char → State → List Made)
    (conditionals : List Conditional) (line : Line) (s : State) :
    List Made :=
  match pasteOf? conditionals line with
  | some rest => pasted rest s
  | none => [⟨file, line, s.macros, isActive conditionals⟩]

/-- The history of lines, given how include directives are carried
out. -/
def madeLines (file : FileId) (splice : List Char → Span → Cleaning Unit)
    (pasted : List Char → State → List Made)
    (conditionals : List Conditional) : List Line → State → List Made
  | [], _ => []
  | line :: ls, s =>
      match cleanLine file splice conditionals line s with
      | .error _ _ => []
      | .ok after s' =>
          madeLine file pasted conditionals line s
            ++ madeLines file splice pasted after ls s'

/-- The history of an include directive in the innermost of the open
files; `further` is that of a file inside of these. -/
def pastedLines (resolver : Resolver) (opened : List String)
    (further : FileId → State → List Made) (rest : List Char) (s : State) :
    List Made :=
  match (includePath? rest).bind (resolver (opened.headD "")) with
  | some found =>
      let (id, s) := s.opening found
      further id s
  | none => []

/-- The history of a file inside of the open ones. -/
def madeFile (resolver : Resolver) (deeper : Nat) (opened : List String)
    (file : FileId) (s : State) : List Made :=
  match s.sources.get? file with
  | none => []
  | some source =>
      match blankComments source.text.toList with
      | .error _ => []
      | .ok text =>
          let inside := source.name :: opened
          match deeper with
          | 0 =>
              madeLines file (includeFile resolver inside none)
                (fun _ _ => []) [] (lines text) s
          | n + 1 =>
              madeLines file
                (includeFile resolver inside
                  (some (cleanFile resolver n inside)))
                (pastedLines resolver inside (madeFile resolver n inside))
                [] (lines text) s

/-- The state before the first line of the entry file. -/
def State.start (sources : Sources) : State := ⟨sources, [], .empty, #[]⟩

/-- The history of cleaning an entry file. -/
def history (sources : Sources) (file : FileId) (resolver : Resolver) :
    List Made :=
  madeFile resolver (maxOpenFiles - 1) [] file (.start sources)

end Script.Clean
