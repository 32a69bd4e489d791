/-
Directives: lines whose first visible character is a hash sign. The word
behind it says what they do; blanks around the word and around the rest
of the line do not matter.
-/
import Script.Clean.Fault
import Script.Clean.Macro
import Script.Text.Blank

namespace Script.Clean

/-- A directive by its word, with the rest of the line. -/
inductive Directive where
  /-- Opens a conditional that is active if the macro is defined. -/
  | ifDefined (rest : List Char)
  /-- Opens a conditional that is active if the macro is not defined. -/
  | ifUndefined (rest : List Char)
  | otherwise
  | endIf
  | define (rest : List Char)
  | undefine (rest : List Char)
  /-- Takes the text of a file in place of the line. -/
  | paste (rest : List Char)
  | unnamed
  | unknown (name : String)
deriving DecidableEq, Repr

/-- The directive that stands behind a hash sign. -/
def Directive.ofText (behindHash : List Char) : Directive :=
  let (word, rest) := Text.firstWord (Text.trim behindHash)
  match String.ofList word with
  | "ifdef" => .ifDefined rest
  | "ifndef" => .ifUndefined rest
  | "else" => .otherwise
  | "endif" => .endIf
  | "define" => .define rest
  | "undef" => .undefine rest
  | "include" => .paste rest
  | "" => .unnamed
  | name => .unknown name

/-- The text of a line behind its hash sign, and what is in front of the
sign; `none` for lines that are no directives. -/
def hashLine? (line : List Char) : Option (List Char × List Char) :=
  match Text.trimStart line with
  | '#' :: behind => some (line.takeWhile Text.isBlank, behind)
  | _ => none

/-- The name of a macro that a directive asks for. -/
def macroName? (text : List Char) : Option String :=
  if isMacroName text then some (String.ofList text) else none

/-- The path that an include directive asks for: not empty, and in
double quotes. -/
def includePath? (rest : List Char) : Option String :=
  match rest with
  | '"' :: quoted =>
      match quoted.reverse with
      | '"' :: c :: cs => some (String.ofList (c :: cs).reverse)
      | _ => none
  | _ => none

-- ======================================================== conditionals

/-- An open conditional. -/
structure Conditional where
  /-- Whether the lines of the current branch count. -/
  active : Bool
  /-- Whether the lines around the conditional count. -/
  around : Bool
  seenElse : Bool
  /-- The directive that opened it. -/
  span : Span
deriving DecidableEq, Repr

/-- Whether lines count inside of the open conditionals, the innermost
one first. -/
def isActive (cs : List Conditional) : Bool :=
  (cs.head?.map (·.active)).getD true

/-- Opens a conditional. -/
def openConditional (cs : List Conditional) (holds : Bool) (span : Span) :
    List Conditional :=
  ⟨isActive cs && holds, isActive cs, false, span⟩ :: cs

/-- Goes over to the other branch of the innermost conditional. -/
def otherBranch : List Conditional → Except Fault (List Conditional)
  | [] => .error .elseOutside
  | c :: cs =>
      if c.seenElse then .error .secondElse
      else .ok ({ c with
        active := c.around && !c.active, seenElse := true } :: cs)

/-- Closes the innermost conditional. -/
def closeConditional : List Conditional → Except Fault (List Conditional)
  | [] => .error .endOutside
  | _ :: cs => .ok cs

end Script.Clean
