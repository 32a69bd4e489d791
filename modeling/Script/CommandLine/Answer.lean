/-
What a command line leaves behind: the output of the run, what there is
to say about it, and a status that tells if all went well.
-/
import Script.CommandLine.Arguments

namespace Script.CommandLine

/-- Output, messages and exit status. -/
structure Answer where
  output : ByteArray
  messages : String
  status : UInt32

namespace Answer

/-- The status of a run without errors. -/
def success : UInt32 := 0

/-- The status of everything else that goes wrong. -/
def failure : UInt32 := 1

/-- How the program is called. -/
def usage : String :=
  "Usage: quill-cli [OPTIONS] <MODE> <SOURCE>\n"

/-- What the program does, and what it can be told. -/
def help : String :=
  "Run stages of the Quill pipeline\n\n" ++ usage
    ++ "\nModes:\n  " ++ ", ".intercalate (Mode.all.map Mode.flag) ++ "\n"
    ++ "\nOptions:\n"
    ++ "  -I, --include-dir <DIR>   Directory to search for included files\n"
    ++ "  --step-limit <STEPS>      Most steps of a program; 0 for no limit\n"
    ++ "  --max-call-depth <CALLS>  Most calls inside of each other\n"
    ++ "  -h, --help                This text\n"
    ++ "  -V, --version             The version\n"

/-- The answer to a question. -/
def toTopic : Topic → Answer
  | .help => ⟨help.toUTF8, "", success⟩
  | .version => ⟨"quill-cli 0.1.0\n".toUTF8, "", success⟩

/-- The answer to words that make no sense. -/
def toMisuse : Answer := ⟨.empty, usage, failure⟩

/-- The answer that the result of a run amounts to: output that was
written stays, whatever happens later. Warnings are shown like errors,
but do no harm to the status. -/
def ofResult (r : Pipeline.Result) : Answer :=
  match r.outcome with
  | .ok ds =>
      ⟨r.sink.written, String.join (ds.map (·.render r.sources ++ "\n")),
        if hasErrors ds then failure else success⟩
  | .error f => ⟨r.sink.written, "error: " ++ f.chain ++ "\n", failure⟩

/-- The answer to a request, with the files that a reader can read. -/
def ofRequest (read : Host.Reader) (patience : Nat) : Request → Answer
  | .run job => ofResult (job.run read patience .unlimited)
  | .tell t => toTopic t
  | .misuse => toMisuse

/-- A run succeeds exactly if it is finished and none of its diagnostics
is an error. -/
theorem status_ofResult (r : Pipeline.Result) :
    (ofResult r).status = success ↔
      ∃ ds, r.outcome = .ok ds ∧ hasErrors ds = false := by
  unfold ofResult
  cases h : r.outcome with
  | error f => simp [success, failure]
  | ok ds => cases hasErrors ds <;> simp [success, failure]

end Answer

end Script.CommandLine
