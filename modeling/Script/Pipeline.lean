/-
The pipeline: from an entry file to the output of a mode. Text goes to
a sink stage by stage; what is to be said about the program is handed
back. An error in one of the stages that read the program keeps the
stages that run it from starting. A sink that refuses output ends the
run, except while the program itself is writing: then that is the
program's fault.
-/
import Script.Clean.Basic
import Script.Code.Emit
import Script.Code.Listing
import Script.Host.Fault
import Script.Mode
import Script.Session
import Script.Token.Listing
import Script.Tree.Printer
import Script.Tree.Statement

namespace Script.Pipeline

/-- Writing to a sink, which may end the run. -/
abbrev Writing := EStateM Host.Fault Sink

/-- Writes a text. -/
def write (text : String) : Writing Unit := do
  let taken ← modifyGet fun s => s.write text
  unless taken do throw (.output Sink.refusal)

/-- Writes the name of a stage, where several stages follow each
other. -/
def header (mode : Mode) (stage : String) : Writing Unit := do
  if mode = .monolith then write ("== " ++ stage ++ " ==\n")

/-- A text with a line break at its end, unless it is empty. -/
def closed (text : String) : String :=
  match text.toList.getLast? with
  | none => text
  | some c => if c = '\n' then text else text ++ "\n"

/-- Runs a program and writes its value, unless that is nil. -/
def execute (limits : Eval.Limits) (patience : Nat) (p : Program) :
    Writing (List Diagnostic) := do
  let outcome ← modifyGet fun sink =>
    let (outcome, _, sink) := Session.fresh.run limits patience p sink
    (outcome, sink)
  match outcome with
  | .value v =>
      unless v.isNil do write (v.text ++ "\n")
      return []
  | .failed d => return [d]
  | .starved => throw .unfinished

/-- Makes code of a program and writes its listing. -/
def compile (p : Program) : Writing (List Diagnostic) := do
  let (code?, ds) := Code.ofProgram p
  match code? with
  | some code => write code.listing
  | none => pure ()
  return ds

/-- The stages behind preprocessing, on a cleaned file. Tokens that are
shown are all found before they are read as a tree; otherwise they are
found while the tree is read. -/
def stages (mode : Mode) (limits : Eval.Limits) (patience : Nat)
    (file : FileId) (text : String) : Writing (List Diagnostic) := do
  let whole := mode = .monolith
  if mode = .preprocess ∨ whole then
    header mode "preprocess"
    write (closed text)
    unless whole do return []
  let (program, found) ←
    if mode = .tokenize ∨ whole then
      let (tokens, faults) := Token.ofText file text
      header mode "tokens"
      write (Token.listing tokens)
      unless whole do return faults
      let (program, reports) :=
        Program.ofTokens file text.utf8ByteSize tokens
      pure (program, faults ++ reports)
    else pure (Program.ofText file text)
  if mode = .parse ∨ whole then
    header mode "ast"
    write (program.text ++ "\n")
    unless whole do return found
  if hasErrors found then return found
  let mut said := found
  if mode = .execute ∨ whole then
    header mode "execute"
    said := said ++ (← execute limits patience program)
  if mode = .compile ∨ whole then
    header mode "compile"
    said := said ++ (← compile program)
  return said

/-- What comes of a run: its diagnostics or the reason why there are
none, all files that they may point into, and the sink. -/
structure Result where
  outcome : Except Host.Fault (List Diagnostic)
  sources : Sources
  sink : Sink

/-- Runs a mode on a registered file. -/
def run (mode : Mode) (sources : Sources) (file : FileId)
    (resolver : Clean.Resolver) (limits : Eval.Limits) (patience : Nat)
    (sink : Sink) : Result :=
  match Cleaned.ofFile sources file resolver with
  | (.error refusal, sources) => ⟨.ok [refusal.diagnostic], sources, sink⟩
  | (.ok cleaned, sources) =>
      let text := sources.textOf cleaned.file
      match stages mode limits patience cleaned.file text sink with
      | .ok ds sink => ⟨.ok ds, sources, sink⟩
      | .error f sink => ⟨.error f, sources, sink⟩

end Script.Pipeline
