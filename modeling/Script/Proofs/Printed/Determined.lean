/-
The printed tree determines the program. What a text is read as has names
only where the text has identifiers, so its names are spelled as names are;
and finite numbers are printed as digits. So its bare tree can be read from
its printed tree, and two programs that are printed alike are alike, apart
from spans and from how their numbers were written.
-/
import Script.Proofs.Places.Exact
import Script.Proofs.Printed.Cut
import Script.Proofs.Words.Joined

namespace Script

open Printed

-- =============================================================== numbers

namespace Number

/-- Neither an infinity nor not a number. -/
def IsFinite (x : Float) : Prop :=
  match parts x with
  | .finite .. => True
  | _ => False

instance : DecidablePred IsFinite := fun x => by
  unfold IsFinite
  split <;> infer_instance

/-- A decimal is written with digits and at most a point. -/
theorem mem_positional {d : Decimal} :
    ∀ c ∈ d.positional, c.isDigit = true ∨ c = '.' := by
  have hds : ∀ c ∈ Nat.toDigits 10 d.digits, c.isDigit = true ∨ c = '.' :=
    fun c hc =>
      .inl (Nat.isDigit_of_mem_toDigits (by decide) (by decide) hc)
  have hzero : '0'.isDigit = true ∨ '0' = '.' := .inl rfl
  have hpoint : '.'.isDigit = true ∨ '.' = '.' := .inr rfl
  have hzeros (n : Nat) :
      ∀ c ∈ List.replicate n '0', c.isDigit = true ∨ c = '.' :=
    fun c hc => List.eq_of_mem_replicate hc ▸ hzero
  unfold Decimal.positional
  dsimp only
  split
  · exact List.forall_mem_append.2 ⟨hds, hzeros _⟩
  · split
    · refine List.forall_mem_append.2
        ⟨fun c hc => hds c (List.mem_of_mem_take hc), ?_⟩
      exact List.forall_mem_cons.2
        ⟨hpoint, fun c hc => hds c (List.mem_of_mem_drop hc)⟩
    · exact List.forall_mem_cons.2 ⟨hzero, List.forall_mem_cons.2
        ⟨hpoint, List.forall_mem_append.2 ⟨hzeros _, hds⟩⟩⟩

theorem positional_ne_nil (d : Decimal) : d.positional ≠ [] := by
  unfold Decimal.positional
  dsimp only
  split
  · exact List.append_ne_nil_of_left_ne_nil Nat.toDigits_ne_nil _
  · split <;> simp

/-- A finite number is printed as a number. -/
theorem IsFinite.legible {x : Float} (h : IsFinite x) : Legible x := by
  unfold Legible text
  split
  · exact ⟨by decide, List.forall_mem_singleton.2 (.inl rfl)⟩
  · unfold IsFinite at h
    unfold full
    split at h
    case h_2 => cases h
    case h_1 negative m q hparts =>
        rw [hparts]
        dsimp only
        generalize hds : (if m = 0 then ['0'] else _) = ds
        have hne : ds ≠ [] := by
          rw [← hds]
          split
          · exact List.cons_ne_nil _ _
          · exact positional_ne_nil _
        have hmem : ∀ c ∈ ds, c.isDigit = true ∨ c = '.' ∨ c = '-' := by
          rw [← hds]
          split
          · exact List.forall_mem_singleton.2 (.inl rfl)
          · exact fun c hc => (mem_positional c hc).imp_right .inl
        cases negative with
        | false =>
            exact ⟨by simpa using hne, by simpa using hmem⟩
        | true =>
            exact ⟨by simp, by simpa using hmem⟩

end Number

mutual

/-- The number literals of an expression. -/
def Expr.numbers : Expr → List Float
  | .number _ x => [x]
  | .string .. | .bool .. | .nil _ | .ident .. => []
  | .unary _ _ e | .assign _ _ e | .group _ e => e.numbers
  | .binary _ _ l r => l.numbers ++ r.numbers
  | .call _ callee args => callee.numbers ++ argumentNumbers args

/-- Those of arguments. -/
def argumentNumbers : List Expr → List Float
  | [] => []
  | e :: es => e.numbers ++ argumentNumbers es

end

/-- Those of an expression, if there is one. -/
def optionalNumbers : Option Expr → List Float
  | none => []
  | some e => e.numbers

mutual

/-- The number literals of a statement. -/
def Stmt.numbers : Stmt → List Float
  | .declare _ _ value | .giveBack _ value => optionalNumbers value
  | .function d => d.numbers
  | .expression _ e | .print _ e => e.numbers
  | .block b => b.numbers
  | .branch _ cond thenPart elsePart =>
      cond.numbers ++ (thenPart.numbers ++ elseNumbers elsePart)
  | .loop _ cond body => cond.numbers ++ body.numbers
  | .empty _ => []

/-- Those of an else part, if there is one. -/
def elseNumbers : Option Stmt → List Float
  | none => []
  | some s => s.numbers

/-- Those of a block. -/
def Block.numbers : Block → List Float
  | ⟨statements, _⟩ => statementNumbers statements

/-- Those of a function. -/
def FnDecl.numbers : FnDecl → List Float
  | ⟨_, _, body, _⟩ => body.numbers

/-- Those of statements. -/
def statementNumbers : List Stmt → List Float
  | [] => []
  | s :: ss => s.numbers ++ statementNumbers ss

end

/-- The number literals of a program. -/
def Program.numbers (p : Program) : List Float :=
  statementNumbers p.statements

-- ================================================================ leaves

namespace Outline

/-- Whether `N` holds of a piece that is a name. -/
def Named (N : String → Prop) (o : Outline) : Prop := ∀ x ∈ o.name?, N x

variable {N : String → Prop} {o : Outline}

theorem All.here {P : Outline → Prop} (h : o.All P) : P o := by
  cases h with
  | mk h => exact h

theorem All.forall_parts {P : Outline → Prop} (h : o.All P) :
    ∀ p ∈ o.parts, p.All P := by
  cases h with
  | mk _ hparts => exact hparts

theorem All.ident {x : Ident} (h : (ofIdent x).All (Named N)) : N x.name :=
  h.here x.name rfl

end Outline

open Outline

section

variable {N : String → Prop} {F : Float → Prop}

mutual

/-- The leaves of a tree are the names of its outline and its numbers. -/
theorem Expr.leaves : ∀ e : Expr, e.outline.All (Named N) →
    (∀ x ∈ e.numbers, F x) → e.Leaves N F
  | .number _ x, _, h => h x (List.mem_singleton_self x)
  | .string .., _, _ | .bool .., _, _ | .nil _, _, _ => trivial
  | .ident _ name, ho, _ => ho.here name rfl
  | .unary _ _ e, ho, h | .group _ e, ho, h =>
      e.leaves (List.forall_mem_singleton.1 ho.forall_parts) h
  | .binary _ _ l r, ho, h =>
      have ⟨hl, hr⟩ := List.forall_mem_cons.1 ho.forall_parts
      have ⟨hl', hr'⟩ := List.forall_mem_append.1 h
      ⟨l.leaves hl hl', r.leaves (List.forall_mem_singleton.1 hr) hr'⟩
  | .assign _ _ e, ho, h =>
      have ⟨hx, he⟩ := List.forall_mem_cons.1 ho.forall_parts
      ⟨hx.ident, e.leaves (List.forall_mem_singleton.1 he) h⟩
  | .call _ callee args, ho, h =>
      have ⟨hf, hargs⟩ := List.forall_mem_cons.1 ho.forall_parts
      have ⟨hf', hargs'⟩ := List.forall_mem_append.1 h
      ⟨callee.leaves hf hf', argumentLeaves_of args hargs hargs'⟩

theorem argumentLeaves_of : ∀ es : List Expr,
    (∀ o ∈ argsOutline es, o.All (Named N)) →
      (∀ x ∈ argumentNumbers es, F x) → argumentLeaves N F es
  | [], _, _ => trivial
  | e :: es, ho, h =>
      have ⟨he, hes⟩ := List.forall_mem_cons.1 ho
      have ⟨he', hes'⟩ := List.forall_mem_append.1 h
      ⟨e.leaves he he', argumentLeaves_of es hes hes'⟩

end

theorem optionalLeaves_of : ∀ value : Option Expr,
    (∀ o ∈ valueOutline value, o.All (Named N)) →
      (∀ x ∈ optionalNumbers value, F x) → optionalLeaves N F value
  | none, _, _ => trivial
  | some e, ho, h => e.leaves (List.forall_mem_singleton.1 ho) h

mutual

theorem Stmt.leaves : ∀ s : Stmt, s.outline.All (Named N) →
    (∀ x ∈ s.numbers, F x) → s.Leaves N F
  | .declare _ _ init, ho, h =>
      have ⟨hx, hinit⟩ := List.forall_mem_cons.1 ho.forall_parts
      ⟨hx.ident, optionalLeaves_of init hinit h⟩
  | .function d, ho, h => d.leaves ho h
  | .expression _ e, ho, h | .print _ e, ho, h =>
      e.leaves (List.forall_mem_singleton.1 ho.forall_parts) h
  | .block b, ho, h => b.leaves ho h
  | .branch _ cond thenPart elsePart, ho, h =>
      have ⟨hc, ho⟩ := List.forall_mem_cons.1 ho.forall_parts
      have ⟨ht, he⟩ := List.forall_mem_cons.1 ho
      have ⟨hc', h⟩ := List.forall_mem_append.1 h
      have ⟨ht', he'⟩ := List.forall_mem_append.1 h
      ⟨cond.leaves hc hc', thenPart.leaves ht ht',
        elseLeaves_of elsePart he he'⟩
  | .loop _ cond body, ho, h =>
      have ⟨hc, hb⟩ := List.forall_mem_cons.1 ho.forall_parts
      have ⟨hc', hb'⟩ := List.forall_mem_append.1 h
      ⟨cond.leaves hc hc', body.leaves (List.forall_mem_singleton.1 hb) hb'⟩
  | .giveBack _ value, ho, h => optionalLeaves_of value ho.forall_parts h
  | .empty _, _, _ => trivial

theorem elseLeaves_of : ∀ elsePart : Option Stmt,
    (∀ o ∈ elseOutline elsePart, o.All (Named N)) →
      (∀ x ∈ elseNumbers elsePart, F x) → elseLeaves N F elsePart
  | none, _, _ => trivial
  | some s, ho, h => s.leaves (List.forall_mem_singleton.1 ho) h

theorem Block.leaves : ∀ b : Block, b.outline.All (Named N) →
    (∀ x ∈ b.numbers, F x) → b.Leaves N F
  | ⟨statements, _⟩, ho, h =>
      statementLeaves_of statements ho.forall_parts h

theorem FnDecl.leaves : ∀ d : FnDecl, d.outline.All (Named N) →
    (∀ x ∈ d.numbers, F x) → d.Leaves N F
  | ⟨_, _, body, _⟩, ho, h =>
      have ⟨hx, ho⟩ := List.forall_mem_cons.1 ho.forall_parts
      have ⟨hparams, hb⟩ := List.forall_mem_append.1 ho
      ⟨hx.ident,
        fun _ hp => (hparams _ (List.mem_map_of_mem hp)).ident,
        body.leaves (List.forall_mem_singleton.1 hb) h⟩

theorem statementLeaves_of : ∀ ss : List Stmt,
    (∀ o ∈ stmtsOutline ss, o.All (Named N)) →
      (∀ x ∈ statementNumbers ss, F x) → statementLeaves N F ss
  | [], _, _ => trivial
  | s :: ss, ho, h =>
      have ⟨hs, hss⟩ := List.forall_mem_cons.1 ho
      have ⟨hs', hss'⟩ := List.forall_mem_append.1 h
      ⟨s.leaves hs hs', statementLeaves_of ss hss hss'⟩

end

theorem Program.leaves (p : Program) (ho : p.outline.All (Named N))
    (h : ∀ x ∈ p.numbers, F x) : p.Leaves N F :=
  statementLeaves_of p.statements ho.forall_parts h

end

-- ============================================================== programs

/-- An identifier is spelled as names are. -/
theorem Spelling.Spells.isName {s : String}
    (h : Spells s.toList .identifier) : IsName s := by
  generalize hcs : s.toList = cs at h
  cases h with
  | identifier hw hk =>
      exact ⟨hcs ▸ hw, fun k hks => hk k (hks ▸ hcs)⟩

namespace Program

/-- The names in the tree of a text are spelled as names are. -/
theorem ofText_named (file : FileId) (text : String) :
    (ofText file text).1.outline.All (Named IsName) := by
  refine (ofText_derived file text).laid.all fun hl hp x hx => ?_
  obtain ⟨t, rfl, hkind, -, rfl⟩ := hp.name_eq hx
  have ht := hl.subset (List.mem_singleton_self t)
  have hspells := Token.ofText_spells file text t ht (by simp [hkind])
  rw [hkind] at hspells
  exact hspells.isName

/-- The tree of a text, read from its printed tree. -/
theorem programOf?_ofText (file : FileId) (text : String)
    (hfinite : ∀ x ∈ (ofText file text).1.numbers, Number.IsFinite x) :
    programOf? (ofText file text).1.text =
      some (ofText file text).1.bare :=
  programOf?_text _ <| leaves _ (ofText_named file text)
    fun x hx => (hfinite x hx).legible

/-- The printed tree determines the program: two texts with finite numbers
that are printed alike are read as the same tree, apart from spans. -/
theorem bare_eq_of_text_eq (file file' : FileId) (text text' : String)
    (hfinite : ∀ x ∈ (ofText file text).1.numbers, Number.IsFinite x)
    (hfinite' : ∀ x ∈ (ofText file' text').1.numbers, Number.IsFinite x)
    (htext : (ofText file text).1.text = (ofText file' text').1.text) :
    (ofText file text).1.bare = (ofText file' text').1.bare := by
  have h := programOf?_ofText file text hfinite
  rw [htext, programOf?_ofText file' text' hfinite'] at h
  exact (Option.some.inj h).symm

/-- Neither spaces nor the digits of a number are in the printed tree. -/
theorem bare_eq_of_text_eq_spaced :
    (∀ x ∈ (ofText 0 "if (a) { print 2.50; }").1.numbers,
        Number.IsFinite x)
      ∧ (∀ x ∈ (ofText 1 "if(a){print 25e-1 ;}").1.numbers,
        Number.IsFinite x)
      ∧ (ofText 0 "if (a) { print 2.50; }").1.text =
        (ofText 1 "if(a){print 25e-1 ;}").1.text
      ∧ (ofText 0 "if (a) { print 2.50; }").1.bare =
        (ofText 1 "if(a){print 25e-1 ;}").1.bare := by
  have hfinite : ∀ x ∈ (ofText 0 "if (a) { print 2.50; }").1.numbers,
      Number.IsFinite x := by decide +kernel
  have hfinite' : ∀ x ∈ (ofText 1 "if(a){print 25e-1 ;}").1.numbers,
      Number.IsFinite x := by decide +kernel
  have htext : (ofText 0 "if (a) { print 2.50; }").1.text =
      (ofText 1 "if(a){print 25e-1 ;}").1.text := by decide +kernel
  exact ⟨hfinite, hfinite', htext,
    bare_eq_of_text_eq 0 1 _ _ hfinite hfinite' htext⟩

-- An infinity is printed as a name is.
example : (ofText 0 "print 1e999;").1.text =
    (ofText 0 "print inf;").1.text := by
  decide +kernel

end Program

end Script
