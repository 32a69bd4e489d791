/-
What holds of every span: of all those in a tree, and of all those that a
cursor knows. Reading makes its spans from the ones of the tokens and by
joining, so whatever holds of these and of every join holds of all spans
that reading builds a tree with or reports at.
-/
import Script.Proofs.Upholds
import Script.Tree.Cursor

namespace Script

variable (P : Span → Prop)

-- =============================================================== trees

mutual

/-- Whether `P` holds of every span in an expression. -/
def Expr.Spanned : Expr → Prop
  | .number s _ | .string s _ | .bool s _ | .nil s | .ident s _ => P s
  | .unary s _ e | .group s e => P s ∧ e.Spanned
  | .binary s _ l r => P s ∧ l.Spanned ∧ r.Spanned
  | .assign s target e => P s ∧ P target.span ∧ e.Spanned
  | .call s callee args => P s ∧ callee.Spanned ∧ argsSpanned args

/-- Whether `P` holds of every span in the arguments of a call. -/
def argsSpanned : List Expr → Prop
  | [] => True
  | e :: es => e.Spanned ∧ argsSpanned es

end

mutual

/-- Whether `P` holds of every span in a statement. -/
def Stmt.Spanned : Stmt → Prop
  | .declare s _ init => P s ∧ ∀ e ∈ init, e.Spanned P
  | .function d => d.Spanned
  | .expression s e | .print s e => P s ∧ e.Spanned P
  | .block b => b.Spanned
  | .branch s cond thenPart elsePart =>
      P s ∧ cond.Spanned P ∧ thenPart.Spanned ∧ elseSpanned elsePart
  | .loop s cond body => P s ∧ cond.Spanned P ∧ body.Spanned
  | .giveBack s value => P s ∧ ∀ e ∈ value, e.Spanned P
  | .empty s => P s

/-- Whether `P` holds of every span in an else part, if there is one. -/
def elseSpanned : Option Stmt → Prop
  | none => True
  | some s => s.Spanned

/-- Whether `P` holds of every span in a block. -/
def Block.Spanned : Block → Prop
  | ⟨ss, s⟩ => P s ∧ stmtsSpanned ss

/-- Whether `P` holds of every span in a function. -/
def FnDecl.Spanned : FnDecl → Prop
  | ⟨_, _, body, id⟩ => P id.span ∧ body.Spanned

/-- Whether `P` holds of every span in a list of statements. -/
def stmtsSpanned : List Stmt → Prop
  | [] => True
  | s :: ss => s.Spanned ∧ stmtsSpanned ss

end

variable {P}

theorem argsSpanned_iff {es : List Expr} :
    argsSpanned P es ↔ ∀ e ∈ es, e.Spanned P := by
  induction es with
  | nil => simp [argsSpanned]
  | cons e es ih => simp [argsSpanned, ih]

theorem stmtsSpanned_iff {ss : List Stmt} :
    stmtsSpanned P ss ↔ ∀ s ∈ ss, s.Spanned P := by
  induction ss with
  | nil => simp [stmtsSpanned]
  | cons s ss ih => simp [stmtsSpanned, ih]

theorem Expr.Spanned.span {e : Expr} (h : e.Spanned P) : P e.span := by
  cases e with
  | number | string | bool | nil | ident => exact h
  | unary | binary | assign | call | group => exact h.1

theorem Block.Spanned.span {b : Block} (h : b.Spanned P) : P b.span := by
  obtain ⟨ss, s⟩ := b
  exact h.1

theorem Block.Spanned.statements {b : Block} (h : b.Spanned P) :
    ∀ s ∈ b.statements, s.Spanned P := by
  obtain ⟨ss, s⟩ := b
  exact stmtsSpanned_iff.1 h.2

theorem FnDecl.Spanned.body {d : FnDecl} (h : d.Spanned P) :
    d.body.Spanned P := by
  obtain ⟨name, params, body, id⟩ := d
  exact h.2

theorem Stmt.Spanned.span {s : Stmt} (h : s.Spanned P) : P s.span := by
  cases s with
  | function d =>
      obtain ⟨name, params, body, id⟩ := d
      exact h.1
  | block b => exact Block.Spanned.span h
  | empty => exact h
  | declare | expression | branch | loop | giveBack | print => exact h.1

/-- Functions at the top of a program are some of its statements. -/
theorem Program.functions_spanned {p : Program}
    (h : ∀ s ∈ p.statements, s.Spanned P) :
    ∀ d ∈ p.functions, d.Spanned P := by
  intro d hd
  obtain ⟨s, hs, hfunction⟩ := List.mem_filterMap.1 hd
  cases s with
  | function d' =>
      cases hfunction
      exact h _ hs
  | _ => cases hfunction

-- ============================================================= cursors

namespace Tree

open Script.Action

variable (P) in
/-- Whether `P` holds of a join if it holds of both spans. -/
def JoinClosed : Prop := ∀ a b, P a → P b → P (a.join b)

variable (P) in
/-- Whether `P` holds of every span that a cursor knows. -/
structure Cursor.Spanned (c : Cursor) : Prop where
  rest : ∀ t ∈ c.rest, P t.span
  endOfInput : P c.endOfInput
  previous : P c.previous
  reports : ∀ d ∈ c.reports, P d.span

namespace Cursor.Spanned

variable {c : Cursor}

theorem here (h : c.Spanned P) : P c.here := by
  unfold Cursor.here
  split
  case h_1 t ts hrest => exact h.rest t (by simp [hrest])
  case h_2 => exact h.endOfInput

theorem advance (h : c.Spanned P) : c.advance.Spanned P := by
  unfold Cursor.advance
  split
  case h_1 t ts hrest =>
    have hts := h.rest
    rw [hrest] at hts
    obtain ⟨ht, hts⟩ := List.forall_mem_cons.1 hts
    exact ⟨hts, h.endOfInput, ht, h.reports⟩
  case h_2 => exact h

theorem note (h : c.Spanned P) (f : Fault) {span : Span} (hspan : P span) :
    (c.note f span).Spanned P where
  rest := h.rest
  endOfInput := h.endOfInput
  previous := h.previous
  reports := by
    intro d hd
    rcases Array.mem_push.1 hd with hd | rfl
    · exact h.reports d hd
    · exact hspan

theorem blame (h : c.Spanned P) (f : Fault) {span : Span} (hspan : P span) :
    (c.blame f span).Spanned P := by
  have hnote := h.note f hspan
  unfold Cursor.blame
  split
  · exact h
  · exact ⟨hnote.rest, hnote.endOfInput, hnote.previous, hnote.reports⟩

/-- Passing over tokens. -/
theorem moved (h : c.Spanned P) {previous : Span} {rest : List Token}
    (hmoved : P previous ∧ ∀ t ∈ rest, P t.span) :
    { c with rest, previous }.Spanned P :=
  ⟨hmoved.2, h.endOfInput, hmoved.1, h.reports⟩

end Cursor.Spanned

theorem Cursor.nextStatement_spanned {ts : List Token}
    (hts : ∀ t ∈ ts, P t.span) {previous : Span} (h : P previous) :
    P (Cursor.nextStatement previous ts).1
      ∧ ∀ t ∈ (Cursor.nextStatement previous ts).2, P t.span := by
  induction ts generalizing previous with
  | nil => exact ⟨h, hts⟩
  | cons t ts ih =>
      obtain ⟨ht, hrest⟩ := List.forall_mem_cons.1 hts
      unfold Cursor.nextStatement
      split
      · exact ⟨h, hts⟩
      · exact ⟨ht, hrest⟩
      · exact ih hrest ht

theorem Cursor.behindGroup_spanned {ts : List Token}
    (hts : ∀ t ∈ ts, P t.span) {previous : Span} (h : P previous)
    (opened : Nat) :
    P (Cursor.behindGroup opened previous ts).1
      ∧ ∀ t ∈ (Cursor.behindGroup opened previous ts).2, P t.span := by
  induction ts generalizing previous opened with
  | nil => exact ⟨h, hts⟩
  | cons t ts ih =>
      obtain ⟨ht, hrest⟩ := List.forall_mem_cons.1 hts
      unfold Cursor.behindGroup
      split
      · exact ih hrest ht _
      · exact ih hrest ht _
      · split
        · exact ⟨h, hts⟩
        · exact ⟨ht, hrest⟩
        · exact ih hrest ht _
      · split
        · exact ⟨h, hts⟩
        · exact ⟨ht, hrest⟩
        · exact ih hrest ht _
      · split
        · exact ⟨h, hts⟩
        · exact ih hrest ht _

-- ============================================================ readings

variable {α β : Type} {Q : α → Prop} {R : β → Prop}

variable (P) in
/-- Reading at spans of which `P` holds, with pieces of which `Q`
holds. -/
abbrev Builds (Q : α → Prop) (p : Parse α) : Prop :=
  Upholds (Cursor.Spanned P) (fun _ _ => True) Q p

namespace Builds

theorem kind : Builds P (fun _ => True) Parse.kind :=
  .get_bind fun _ _ => .pure trivial

theorem here : Builds P P Parse.here :=
  .get_bind fun _ hc => .pure hc.here

theorem skip : Builds P (fun _ => True) Parse.skip :=
  .modify fun _ hc => hc.advance

theorem blame (f : Fault) {span : Span} (hspan : P span) :
    Builds P (fun _ => True) (Parse.blame f span) :=
  .modify fun _ hc => hc.blame f hspan

theorem tokensLeft : Builds P (fun _ => True) Parse.tokensLeft :=
  .get_bind fun _ _ => .pure trivial

theorem giveUp : Builds P Q (throw () : Parse α) :=
  .throw fun _ _ => trivial

theorem expected (what : String) :
    Builds P Q (Parse.expected what : Parse α) :=
  .get_bind fun _ hc => (blame _ hc.here).bind fun _ _ => giveUp

theorem eat (k : Token.Kind) : Builds P (fun _ => True) (Parse.eat k) :=
  kind.bind fun _ _ => .ite (fun _ => skip.bind fun _ _ => .pure trivial)
    fun _ => .pure trivial

theorem expect (k : Token.Kind) (what : String) :
    Builds P P (Parse.expect k what) :=
  here.bind fun _ hspan => (eat k).bind fun _ _ =>
    .ite (fun _ => .pure hspan) fun _ => expected what

theorem identifier (what : String) :
    Builds P (fun x => P x.span) (Parse.identifier what) :=
  .get_bind fun _ _ => (expect _ what).bind fun _ hspan => .pure hspan

theorem tooDeep : Builds P Q (Parse.tooDeep : Parse α) := by
  refine here.bind fun span hspan => (blame _ hspan).bind fun _ _ => ?_
  refine Upholds.bind (Q := fun _ => True) (.modify fun c hc => ?_)
    fun _ _ => giveUp
  exact hc.moved (Cursor.behindGroup_spanned hc.rest hc.previous 0)

theorem separated {p : Parse α} (hp : Builds P Q p) (bound : Nat) :
    Builds P (fun as => ∀ a ∈ as, Q a) (Parse.separated p bound) := by
  induction bound with
  | zero => exact hp.bind fun a ha => .pure (by simpa using ha)
  | succ bound ih =>
      refine hp.bind fun a ha => (eat _).bind fun _ _ => .ite (fun _ => ?_) ?_
      · exact ih.bind fun as has => .pure (List.forall_mem_cons.2 ⟨ha, has⟩)
      · exact fun _ => .pure (by simpa using ha)

theorem spanFrom (hP : JoinClosed P) {start : Span} (hstart : P start) :
    Builds P P (Parse.spanFrom start) :=
  .get_bind fun _ hc => .pure (hP _ _ hstart hc.previous)

end Builds

end Tree

end Script
