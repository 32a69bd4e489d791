/-
Cleaning: from source files to the text that the later stages read.
Comments are blanked, directives are carried out and leave empty lines,
macros are replaced, and the text of an included file takes the place of
the line that asks for it. The result is registered as a file derived
from the others, which knows the origin of each of its lines.

Files that are open inside of each other must have different names, and
there cannot be more of them than `maxOpenFiles`; the recursion ends by
the number of further files that may be opened.
-/
import Script.Clean.Comment
import Script.Clean.Directive
import Script.Clean.Draft
import Script.Source.Registry

namespace Script.Clean

/-- A file found for an include directive. The name tells it apart from
the files that are open. -/
structure Included where
  name : String
  text : String
deriving DecidableEq, Repr

/-- Finds included files: the name of the asking file, then the path
asked for. -/
abbrev Resolver := String → String → Option Included

/-- What is collected while files are cleaned. -/
structure State where
  sources : Sources
  macros : Macros
  draft : Draft
  includes : Array FileId

/-- Why cleaning ends early. -/
structure Refusal where
  fault : Fault
  span : Span
deriving DecidableEq, Repr

/-- The diagnostic of a refusal. -/
def Refusal.diagnostic (r : Refusal) : Diagnostic := r.fault.report.at r.span

/-- A step of cleaning. -/
abbrev Cleaning := EStateM Refusal State

/-- Ends with a fault. -/
def refuse (f : Fault) (span : Span) : Cleaning α := throw ⟨f, span⟩

/-- Ends with the fault, if there is one. -/
def orRefuse (span : Span) : Except Fault α → Cleaning α
  | .ok a => return a
  | .error f => refuse f span

/-- The name of a macro that a directive asks for, or the end. -/
def macroName (directive : String) (text : List Char) (span : Span) :
    Cleaning String :=
  match macroName? text with
  | some name => return name
  | none => refuse (.macroName directive) span

/-- Adds a line to the cleaned text. -/
def addLine (body : List Char) (broken : Bool) (origin : LineOrigin) :
    Cleaning Unit :=
  modify fun s => { s with draft := s.draft.addLine body broken origin }

/-- Carries out a definition. Macros in the body are replaced at
once. -/
def define (rest : List Char) (span : Span) : Cleaning Unit := do
  let (word, body) := Text.firstWord rest
  let name ← macroName "define" word span
  modify fun s =>
    let body := (expand s.macros body).text
    { s with macros := s.macros.define name body }

/-- Carries out an include directive. `deeper` cleans a file inside of
the open ones, if one more can be opened. -/
def includeFile (resolver : Resolver) (opened : List String)
    (deeper : Option (FileId → Cleaning Unit)) (rest : List Char)
    (span : Span) : Cleaning Unit := do
  let some path := includePath? rest | refuse .includePath span
  let some deeper := deeper | refuse .tooDeep span
  let some found := resolver (opened.headD "") path
    | refuse (.unresolved path) span
  if opened.contains found.name then refuse (.recursive path) span
  let id ← modifyGet fun s =>
    let (id, sources) := s.sources.add found.name found.text
    (id, { s with sources, includes := s.includes.push id })
  deeper id

/-- Cleans a line; the conditionals that are open behind it. -/
def cleanLine (file : FileId)
    (splice : List Char → Span → Cleaning Unit)
    (conditionals : List Conditional) (line : Line) :
    Cleaning (List Conditional) := do
  let origin := LineOrigin.copied file line.number
  let active := isActive conditionals
  match hashLine? line.body with
  | none =>
      if active then
        let e := expand (← get).macros line.body
        addLine e.text line.broken { origin with shifts := e.shifts }
      else addLine [] line.broken origin
      return conditionals
  | some (front, behind) =>
      let span := Span.between file
        (line.start + Text.byteLength front)
        (line.start + Text.byteLength (Text.trimEnd line.body))
      let leaveEmpty (after : List Conditional) :
          Cleaning (List Conditional) := do
        addLine [] line.broken origin
        return after
      match Directive.ofText behind with
      | .ifDefined rest =>
          let name ← macroName "ifdef" rest span
          let isDefined := ((← get).macros.lookup name).isSome
          leaveEmpty (openConditional conditionals isDefined span)
      | .ifUndefined rest =>
          let name ← macroName "ifndef" rest span
          let isDefined := ((← get).macros.lookup name).isSome
          leaveEmpty (openConditional conditionals (!isDefined) span)
      | .otherwise => leaveEmpty (← orRefuse span (otherBranch conditionals))
      | .endIf => leaveEmpty (← orRefuse span (closeConditional conditionals))
      | directive =>
          if !active then leaveEmpty conditionals
          else
            match directive with
            | .define rest =>
                define rest span
                leaveEmpty conditionals
            | .undefine rest =>
                let name ← macroName "undef" rest span
                modify fun s => { s with macros := s.macros.undefine name }
                leaveEmpty conditionals
            | .paste rest =>
                splice rest span
                return conditionals
            | .unknown name => refuse (.unknownDirective name) span
            | _ => refuse .unnamedDirective span

/-- Cleans a file inside of the open ones, whose names are given from
the inside out; `deeper` files can be opened inside of it. -/
def cleanFile (resolver : Resolver) (deeper : Nat) (opened : List String)
    (file : FileId) : Cleaning Unit := do
  let some source := (← get).sources.get? file
    | refuse .unknownFile (.point file 0)
  let text ←
    match blankComments source.text.toList with
    | .ok text => pure text
    | .error start =>
        refuse .openComment (.between file start source.size)
  let inside := source.name :: opened
  let splice := includeFile resolver inside <|
    match deeper with
    | 0 => none
    | n + 1 => some (cleanFile resolver n inside)
  match ← (lines text).foldlM (cleanLine file splice) [] with
  | conditional :: _ => refuse .openConditional conditional.span
  | [] =>
      unless opened.isEmpty do
        modify fun s => { s with draft := s.draft.endLine }

/-- The origin of the empty line behind the last line break: the end of
the entry file, however it ends. -/
def endOrigin (file : FileId) (source : SourceFile) : LineOrigin :=
  let line := (source.lineCol source.size).1
  let start := (source.lineStart? line).getD source.size
  ⟨file, line, [⟨0, source.size - start, false⟩]⟩

end Clean

/-- A cleaned text: the derived file, the files included in order, and
the names of the macros that are still defined. -/
structure Cleaned where
  file : FileId
  includes : List FileId
  macros : List String
deriving DecidableEq, Repr

/-- Cleans a file, and registers the result and all included files. -/
def Cleaned.ofFile (sources : Sources) (file : FileId)
    (resolver : Clean.Resolver) : Except Clean.Refusal Cleaned × Sources :=
  let start : Clean.State := ⟨sources, [], .empty, #[]⟩
  match Clean.cleanFile resolver (Clean.maxOpenFiles - 1) [] file start with
  | .error refusal s => (.error refusal, s.sources)
  | .ok () s =>
      match s.sources.get? file with
      | none => (.error ⟨.unknownFile, .point file 0⟩, s.sources)
      | some source =>
          let draft := s.draft.markEnd (Clean.endOrigin file source)
          let (id, sources) :=
            s.sources.addDerived (source.name ++ " (preprocessed)")
              (String.ofList draft.text) draft.origins.toList
          (.ok ⟨id, s.includes.toList, s.macros.map (·.1)⟩, sources)

/-- Cleans a text of its own, which includes nothing. -/
def cleanText (text : String) : Except Diagnostic String :=
  let (file, sources) := Sources.empty.add "<input>" text
  match Cleaned.ofFile sources file fun _ _ => none with
  | (.ok cleaned, sources) => .ok (sources.textOf cleaned.file)
  | (.error refusal, _) => .error refusal.diagnostic

end Script
