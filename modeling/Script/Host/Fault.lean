/-
What keeps a run from taking place at all, or from being finished:
nothing that is wrong with the program itself.
-/

namespace Script.Host

/-- Why a file cannot be read as text. -/
inductive ReadFault where
  | notFound
  | isDirectory
  | notDirectory
  | notText
  | other (reason : String)
deriving DecidableEq, Repr

/-- The reason as the system words it. -/
def ReadFault.text : ReadFault → String
  | .notFound => "No such file or directory (os error 2)"
  | .isDirectory => "Is a directory (os error 21)"
  | .notDirectory => "Not a directory (os error 20)"
  | .notText => "stream did not contain valid UTF-8"
  | .other reason => reason

/-- Why there is no result. -/
inductive Fault where
  | unknownMode (flag : String)
  | unreadable (path : String) (f : ReadFault)
  | output (reason : String)
  /-- The program was cut off for lack of fuel. -/
  | unfinished
deriving DecidableEq, Repr

/-- The cause behind a fault, in the words of whoever it comes from. -/
def Fault.cause? : Fault → Option String
  | .unreadable _ f => some f.text
  | .output reason => some reason
  | _ => none

/-- The wording of a fault. -/
def Fault.message : Fault → String
  | .unknownMode flag => "Unknown mode: " ++ flag
  | .unreadable path f => "failed to read source " ++ path ++ ": " ++ f.text
  | .output reason => "failed to write stage output: " ++ reason
  | .unfinished => "the program did not end"

/-- A fault with its cause behind it. -/
def Fault.chain (f : Fault) : String :=
  match f.cause? with
  | some cause => f.message ++ ": " ++ cause
  | none => f.message

end Script.Host
