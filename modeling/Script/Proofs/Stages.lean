/-
The stages of the pipeline, one behind the other. A stage that shows its
result is the same for tokens, trees and cleaned texts: in a mode of its
own the run ends there, and in the mode for everything it goes on. The
stages behind the tree are only reached without an error.
-/
import Script.Pipeline
import Script.Proofs.Reading.Whole

namespace Script.Pipeline

variable (mode : Mode) (limits : Eval.Limits) (patience : Nat)

/-- A stage that shows a text, and ends there if the mode asks for it
alone; `said` is what is then handed back. -/
def showing (own : Mode) (title text : String) (said : List Diagnostic)
    (rest : Writing (List Diagnostic)) : Writing (List Diagnostic) :=
  if mode = own ∨ mode = .monolith then do
    header mode title
    write text
    if mode = .monolith then rest else return said
  else rest

/-- The stage that compiles a program. -/
def compiling (p : Program) (said : List Diagnostic) :
    Writing (List Diagnostic) :=
  if mode = .compile ∨ mode = .monolith then do
    header mode "compile"
    return said ++ (← compile p)
  else return said

/-- The stage that executes a program. -/
def executing (p : Program) (said : List Diagnostic) :
    Writing (List Diagnostic) :=
  if mode = .execute ∨ mode = .monolith then do
    header mode "execute"
    compiling mode p (said ++ (← execute limits patience p))
  else compiling mode p said

/-- The stages that run a program, unless it has an error. -/
def running (p : Program) (found : List Diagnostic) :
    Writing (List Diagnostic) :=
  if hasErrors found then return found
  else executing mode limits patience p found

/-- The stages in order. -/
theorem stages_eq (file : FileId) (text : String) :
    stages mode limits patience file text =
      let (tokens, faults) := Token.ofText file text
      let (program, reports) :=
        Program.ofTokens file text.utf8ByteSize tokens
      showing mode .preprocess "preprocess" (closed text) [] <|
      showing mode .tokenize "tokens" (Token.listing tokens) faults <|
      showing mode .parse "ast" (program.text ++ "\n") (faults ++ reports) <|
      running mode limits patience program (faults ++ reports) := by
  unfold stages running executing compiling showing
  rw [Program.ofText_eq]
  cases mode with
  | preprocess => rfl
  | tokenize => rfl
  | parse => rfl
  | execute => rfl
  | compile => rfl
  | monolith => rfl

end Script.Pipeline
