/-
The words of a command line. There are two words of its own, the mode and
the entry file; all else sets options. A word that looks like an option
and is none is taken for the mode, as long as that is missing: modes are
written with dashes.

An option takes its value out of its own word or from the next word. Two
dashes alone end the options: whatever follows is a word of its own.
-/
import Script.Host.Job

namespace Script.CommandLine

/-- What can be set. -/
inductive Setting where
  | includeDirectory
  | stepLimit
  | callDepth
deriving DecidableEq, Repr

/-- What can be asked for instead of a run. -/
inductive Topic where
  | help
  | version
deriving DecidableEq, Repr

/-- An option by its name. -/
inductive Switch where
  | set (s : Setting)
  | tell (t : Topic)
deriving DecidableEq, Repr

namespace Switch

/-- Options by their long names. -/
def ofName? : String → Option Switch
  | "include-dir" => some (.set .includeDirectory)
  | "step-limit" => some (.set .stepLimit)
  | "max-call-depth" => some (.set .callDepth)
  | "help" => some (.tell .help)
  | "version" => some (.tell .version)
  | _ => none

/-- Options by their letters. -/
def ofLetter? : Char → Option Switch
  | 'I' => some (.set .includeDirectory)
  | 'h' => some (.tell .help)
  | 'V' => some (.tell .version)
  | _ => none

end Switch

/-- The first number beyond those that can be given. -/
def tooLarge : Nat := 1 <<< 64

/-- A number in decimal digits, with or without a plus in front. -/
def number? (text : String) : Option Nat :=
  let digits :=
    match text.toList with
    | '+' :: cs => cs
    | cs => cs
  if digits ≠ [] ∧ digits.all Char.isDigit then
    let n := digits.foldl (fun n c => 10 * n + (c.toNat - '0'.toNat)) 0
    if n < tooLarge then some n else none
  else none

/-- What has been read of a command line. -/
structure Arguments where
  mode : Option String
  entry : Option String
  directories : List String
  steps : Option Nat
  callDepth : Option Nat
  /-- The option whose value has to be the next word. -/
  pending : Option Setting

namespace Arguments

/-- A command line of which nothing has been read. -/
def unread : Arguments := ⟨none, none, [], none, none, none⟩

/-- What reading ends early with: words that make no sense, or a
question that is answered without a run. -/
inductive Stop where
  | misuse
  | asked (t : Topic)
deriving DecidableEq, Repr

/-- A step of reading. -/
abbrev Read := Except Stop Arguments

/-- Sets an option. Only directories can be given more than once, and
paths are not empty. -/
def set (a : Arguments) (s : Setting) (value : String) : Read :=
  match s with
  | .includeDirectory =>
      if value.isEmpty then .error .misuse
      else .ok { a with directories := a.directories ++ [value] }
  | .stepLimit =>
      match a.steps, number? value with
      | none, some n => .ok { a with steps := n }
      | _, _ => .error .misuse
  | .callDepth =>
      match a.callDepth, number? value with
      | none, some n => .ok { a with callDepth := n }
      | _, _ => .error .misuse

/-- Takes a word of its own: the mode, then the entry file. -/
def place (a : Arguments) (word : String) : Read :=
  match a.mode, a.entry with
  | none, _ => .ok { a with mode := word }
  | some _, none =>
      if word.isEmpty then .error .misuse else .ok { a with entry := word }
  | some _, some _ => .error .misuse

/-- Takes a word that is no option: a value that is waited for, or a word
of its own. -/
def take (a : Arguments) (word : String) : Read :=
  match a.pending with
  | some s => { a with pending := none }.set s word
  | none => a.place word

/-- Takes an option that stands by itself, or with its value. No other
option may be waiting for its value. -/
def switch (a : Arguments) (w : Switch) (value : Option String) : Read :=
  match a.pending, w, value with
  | some _, _, _ => .error .misuse
  | none, .set s, some value => a.set s value
  | none, .set s, none => .ok { a with pending := s }
  | none, .tell t, none => .error (.asked t)
  | none, .tell _, some _ => .error .misuse

/-- Takes an option with two dashes: its name, and its value behind an
equals sign. -/
def takeLong (a : Arguments) (word : String) (name : List Char) : Read :=
  let value :=
    match name.dropWhile (· != '=') with
    | [] => none
    | _ :: value => some (String.ofList value)
  match Switch.ofName? (String.ofList (name.takeWhile (· != '='))) with
  | some w => a.switch w value
  | none => if a.mode.isNone then a.take word else .error .misuse

/-- Takes an option with one dash: its letter, and its value at once
behind it, where an equals sign may stand between. -/
def takeShort (a : Arguments) (word : String) (letters : List Char) :
    Read :=
  if a.mode.isNone ∧ letters.any fun c => (Switch.ofLetter? c).isNone then
    a.take word
  else
    match letters with
    | [] => a.take word
    | c :: value =>
        let value :=
          match value with
          | [] => none
          | '=' :: value => some (String.ofList value)
          | value => some (String.ofList value)
        match Switch.ofLetter? c with
        | some (.set s) => a.switch (.set s) value
        | some (.tell t) => a.switch (.tell t) none
        | none => .error .misuse

/-- Takes a word in front of the end of the options. -/
def takeAny (a : Arguments) (word : String) : Read :=
  match word.toList with
  | '-' :: '-' :: name => a.takeLong word name
  | '-' :: letters => a.takeShort word letters
  | _ => a.take word

/-- Reads the words of a command line. -/
def read (a : Arguments) : List String → Read
  | [] => if a.pending.isSome then .error .misuse else .ok a
  | "--" :: words =>
      if a.pending.isSome then .error .misuse else words.foldlM place a
  | word :: words => do (← a.takeAny word).read words

end Arguments

/-- What a command line asks for. -/
inductive Request where
  | run (job : Host.Job)
  | tell (t : Topic)
  /-- The words make no sense. -/
  | misuse

namespace Request

/-- The limit of steps that a number stands for: zero is none. -/
def stepLimit : Nat → Option Nat
  | 0 => none
  | n => some n

/-- What the words of a command line ask for. The limit of steps may be
preset; that is looked at only if no option gives it. -/
def ofWords (words : List String) (preset : Option String) : Request :=
  match Arguments.unread.read words with
  | .error (.asked t) => .tell t
  | .error .misuse => .misuse
  | .ok a =>
      let standard := Eval.Limits.standard
      let steps : Option (Option Nat) :=
        match a.steps, preset with
        | some n, _ => some (stepLimit n)
        | none, some text => (number? text).map stepLimit
        | none, none => some standard.steps
      match a.mode, a.entry, steps with
      | some flag, some entry, some steps =>
          .run ⟨flag, entry, a.directories,
            ⟨steps, a.callDepth.getD standard.callDepth⟩⟩
      | _, _, _ => .misuse

end Request

end Script.CommandLine
