/-
Jobs: a mode and a file to run it on, both by name. A mode that does not
exist keeps the file from being read, and a file that cannot be read
keeps the run from starting.
-/
import Script.Host.Includes
import Script.Pipeline

namespace Script.Host

/-- What to run: the flag of a mode, the path of the entry file, the
directories to search for included files, and the limits. -/
structure Job where
  flag : String
  entry : String
  directories : List String
  limits : Eval.Limits

/-- Runs a job with the files that a reader can read. -/
def Job.run (job : Job) (read : Reader) (patience : Nat) (sink : Sink) :
    Pipeline.Result :=
  match Mode.ofFlag? job.flag with
  | none => ⟨.error (.unknownMode job.flag), .empty, sink⟩
  | some mode =>
      match load read .empty job.entry with
      | .error f => ⟨.error f, .empty, sink⟩
      | .ok (file, sources) =>
          Pipeline.run mode sources file (resolver read job.directories)
            job.limits patience sink

/-- A job whose entry file cannot be read writes nothing. -/
theorem Job.run_of_unreadable {job : Job} {read : Reader} {m : Mode}
    {f : ReadFault} (hm : Mode.ofFlag? job.flag = some m)
    (hr : read job.entry = .error f) (patience : Nat) (sink : Sink) :
    job.run read patience sink =
      ⟨.error (.unreadable job.entry f), .empty, sink⟩ := by
  simp [run, hm, load, hr]

end Script.Host
