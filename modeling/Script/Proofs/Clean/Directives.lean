/-
Directives that are in form. Such a line does what it is for, whatever
conditionals are open: it leaves its text or only its line break, defines
and ends macros if it counts, and makes of the conditionals in front of it
those behind it (`Line.turn`). The only thing that can go wrong is that
there is no group for it to belong to.

`cleanLine_of_inForm` says all of this of a line once; runs over lines are
put together from it.
-/
import Script.Proofs.Clean.Walk

namespace Script.Clean

open Script.Action

namespace Line

/-- The directive of a line. -/
def directive? (l : Line) : Option Directive :=
  (hashLine? l.body).map fun split => .ofText split.2

/-- What a line is among conditionals. -/
inductive Kind where
  | plain
  | opening
  | middle
  | closing
deriving DecidableEq, Repr

def kind (l : Line) : Kind :=
  match l.directive? with
  | some (.ifDefined _) | some (.ifUndefined _) => .opening
  | some .otherwise => .middle
  | some .endIf => .closing
  | _ => .plain

/-- Whether macros select the first branch of the group that a line
opens. -/
def selects (l : Line) (ms : Macros) : Bool :=
  match l.directive? with
  | some (.ifDefined name) => (ms.lookup (String.ofList name)).isSome
  | some (.ifUndefined name) => !(ms.lookup (String.ofList name)).isSome
  | _ => false

/-- The line break of a line: what is left of one that does not count. -/
def ending (l : Line) : List Char := if l.broken then ['\n'] else []

/-- What is left of a line that counts. -/
def leaves (l : Line) (ms : Macros) : List Char :=
  (if l.directive?.isNone then (expand ms l.body).text else []) ++ l.ending

/-- The macros behind a line that counts. -/
def macros (l : Line) (ms : Macros) : Macros :=
  match l.directive? with
  | some (.define rest) =>
      let (name, body) := Text.firstWord rest
      ms.define (String.ofList name) (expand ms body).text
  | some (.undefine name) => ms.undefine (String.ofList name)
  | _ => ms

/-- Whether the directive of a line is in form. One that opens a group
always names a macro. Any other is a definition or the end of one, with a
name, if the line counts: directives that include files are not looked at
here. -/
def inForm (l : Line) (active : Bool) : Bool :=
  match l.directive? with
  | none | some .otherwise | some .endIf => true
  | some (.ifDefined name) | some (.ifUndefined name) => isMacroName name
  | some (.define rest) => !active || isMacroName (Text.firstWord rest).1
  | some (.undefine name) => !active || isMacroName name
  | some (.paste _) | some .unnamed | some (.unknown _) => !active

/-- What a line makes of the conditionals that are open in front of it. -/
def turn (file : FileId) (l : Line) (cs : List Conditional) (ms : Macros) :
    Except Fault (List Conditional) :=
  match l.kind with
  | .plain => .ok cs
  | .opening =>
      .ok (openConditional cs (l.selects ms) (directiveSpan file l))
  | .middle => otherBranch cs
  | .closing => closeConditional cs

end Line

variable {file : FileId} {splice : List Char → Span → Cleaning Unit}
  {line : Line} {cs cs' : List Conditional} {ms : Macros}

theorem macroName_of_isMacroName {text : List Char}
    (h : isMacroName text = true) (directive : String) (span : Span)
    (s : State) :
    macroName directive text span s = .ok (String.ofList text) s := by
  unfold macroName macroName?
  rw [if_pos h]
  rfl

theorem define_of_isMacroName {rest : List Char}
    (h : isMacroName (Text.firstWord rest).1 = true) (span : Span)
    (s : State) :
    define rest span s = .ok () { s with
      macros := s.macros.define (String.ofList (Text.firstWord rest).1)
        (expand s.macros (Text.firstWord rest).2).text } := by
  unfold define
  dsimp only
  rw [bind_of_ok (macroName_of_isMacroName h ..)]
  rfl

/-- What a line in form does: the conditionals behind it are those that it
makes, if there are any for it to go with. -/
def Carries (file : FileId) (splice : List Char → Span → Cleaning Unit)
    (cs : List Conditional) (line : Line) (s : State) : Prop :=
  match line.turn file cs s.macros with
  | .ok cs' =>
      ∃ t, cleanLine file splice cs line s = .ok cs' t
        ∧ t.macros
          = (if isActive cs then line.macros s.macros else s.macros)
        ∧ t.draft.text = s.draft.text
          ++ if isActive cs then line.leaves s.macros else line.ending
  | .error f =>
      cleanLine file splice cs line s
        = .error ⟨f, directiveSpan file line⟩ s

theorem cleanLine_of_inForm (h : line.inForm (isActive cs) = true)
    (s : State) : Carries file splice cs line s := by
  unfold Line.inForm at h
  unfold Carries Line.turn Line.kind Line.selects Line.leaves Line.macros
    Line.ending cleanLine
  cases hhash : hashLine? line.body with
  | none =>
      have hdir : line.directive? = none := by simp [Line.directive?, hhash]
      simp only [hdir]
      cases hactive : isActive cs with
      | true => exact ⟨_, rfl, rfl, by simp⟩
      | false => exact ⟨_, rfl, rfl, by simp⟩
  | some split =>
      obtain ⟨front, behind⟩ := split
      have hdir : line.directive? = some (.ofText behind) := by
        simp [Line.directive?, hhash]
      obtain rfl := hashLine?_fst hhash
      simp only [hdir] at h ⊢
      generalize Directive.ofText behind = directive at h ⊢
      cases directive with
      | ifDefined rest =>
          have hname := macroName_of_isMacroName h "ifdef"
            (directiveSpan file line) s
          exact ⟨_, bind_of_ok hname _, by simp, by simp⟩
      | ifUndefined rest =>
          have hname := macroName_of_isMacroName h "ifndef"
            (directiveSpan file line) s
          exact ⟨_, bind_of_ok hname _, by simp, by simp⟩
      | otherwise =>
          dsimp only
          cases otherBranch cs with
          | ok cs' => exact ⟨_, rfl, by simp, by simp⟩
          | error f => rfl
      | endIf =>
          dsimp only
          cases closeConditional cs with
          | ok cs' => exact ⟨_, rfl, by simp, by simp⟩
          | error f => rfl
      | define rest =>
          cases hactive : isActive cs with
          | false => exact ⟨_, rfl, rfl, by simp⟩
          | true =>
              rw [hactive] at h
              have hdefine := define_of_isMacroName h
                (directiveSpan file line) s
              exact ⟨_, bind_of_ok hdefine _, rfl, by simp⟩
      | undefine rest =>
          cases hactive : isActive cs with
          | false => exact ⟨_, rfl, rfl, by simp⟩
          | true =>
              rw [hactive] at h
              have hname := macroName_of_isMacroName h "undef"
                (directiveSpan file line) s
              exact ⟨_, bind_of_ok hname _, rfl, by simp⟩
      | paste rest | unnamed | unknown =>
          cases hactive : isActive cs with
          | false => exact ⟨_, rfl, rfl, by simp⟩
          | true =>
              rw [hactive] at h
              cases h

theorem turn_of_cleanLine {t s : State}
    (hform : line.inForm (isActive cs) = true)
    (h : cleanLine file splice cs line s = .ok cs' t) :
    line.turn file cs s.macros = .ok cs' := by
  have hcarries : Carries file splice cs line s := cleanLine_of_inForm hform s
  unfold Carries at hcarries
  split at hcarries
  case h_1 after hturn =>
      obtain ⟨_, hrun, -⟩ := hcarries
      rw [h] at hrun
      cases hrun
      exact hturn
  case h_2 =>
      rw [h] at hcarries
      cases hcarries

/-- The directives of a group leave the line break of their line. -/
theorem Line.leaves_of_kind (h : line.kind ≠ .plain) (ms : Macros) :
    line.leaves ms = line.ending := by
  unfold kind at h
  unfold leaves
  cases hdir : line.directive? with
  | none =>
      rw [hdir] at h
      exact absurd rfl h
  | some directive => rfl

theorem Line.macros_of_kind (h : line.kind ≠ .plain) (ms : Macros) :
    line.macros ms = ms := by
  unfold kind at h
  unfold macros
  cases hdir : line.directive? with
  | none => rfl
  | some directive =>
      rw [hdir] at h
      cases directive with
      | define | undefine => exact absurd rfl h
      | _ => rfl

theorem Line.code_of_turn {f : Fault}
    (h : line.turn file cs ms = .error f) : f.code = "E0103" := by
  unfold turn at h
  split at h
  case h_1 | h_2 => cases h
  case h_3 =>
      unfold otherBranch at h
      split at h
      · cases h
        rfl
      · split at h
        · cases h
          rfl
        · cases h
  case h_4 =>
      unfold closeConditional at h
      split at h
      · cases h
        rfl
      · cases h

end Script.Clean
