/-
The program: reads the command line and the files that it leads to, and
prints the answer.
-/
import Script.CommandLine.Answer
import Script.Host.Gradual

namespace Script.CommandLine

open Host

/-- Fuel for a program whose steps are not limited: more than any machine
uses up. -/
def patience : Nat := 1 <<< 60

/-- An error number of the system, which may come negated. -/
def errorNumber (code : UInt32) : UInt32 :=
  if code < 0x80000000 then code else 0 - code

/-- The fault behind an error of the system. -/
def faultOf (e : IO.Error) : ReadFault :=
  match e with
  | .noFileOrDirectory .. | .noSuchThing .. => .notFound
  | .inappropriateType _ code _ =>
      match errorNumber code with
      | 20 => .notDirectory
      | 21 => .isDirectory
      | _ => .other (toString e)
  | e => .other (toString e)

/-- Reads a file as text. -/
def readFile (path : String) : IO (Except ReadFault String) := do
  match ← (IO.FS.readBinFile path).toBaseIO with
  | .error e => return .error (faultOf e)
  | .ok bytes =>
      match String.fromUTF8? bytes with
      | some text => return .ok text
      | none => return .error .notText

/-- Reads all files that a job comes to need. -/
partial def gather (job : Job) (known : Known) : IO Known := do
  match known.wanted job.directories job.entry with
  | [] => return known
  | paths =>
      let found ← paths.mapM fun path => do
        return (path, ← readFile path)
      gather job (found ++ known)

/-- The files that a request needs. -/
def filesFor : Request → IO Known
  | .run job =>
      if (Mode.ofFlag? job.flag).isSome then gather job [] else return []
  | _ => return []

/-- Prints an answer. Output that nobody takes is a fault of its own. -/
def print (a : Answer) : IO UInt32 := do
  let output ← IO.getStdout
  let printed := do
    output.write a.output
    output.flush
  match ← printed.toBaseIO with
  | .ok () =>
      IO.eprint a.messages
      return a.status
  | .error e =>
      IO.eprintln ("error: " ++ (Fault.output (toString e)).chain)
      return Answer.failure

/-- Answers a command line; the exit status. -/
def answer (words : List String) : IO UInt32 := do
  let request := Request.ofWords words (← IO.getEnv "QUILL_STEP_LIMIT")
  let known ← filesFor request
  print (Answer.ofRequest known.reader patience request)

end Script.CommandLine

/-- Answers the command line. -/
def main (words : List String) : IO UInt32 :=
  Script.CommandLine.answer words
