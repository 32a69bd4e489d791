/-
The printed tree is cut into the words of its nested list. The text of a
node is built from its front: an open list is a text that so far has the
opening parenthesis and the words of some items; an item, a space or a line
break behind it keeps it one, and the closing parenthesis makes it a list.
Spaces in front of a line are no words, so the level of a statement does not
matter.
-/
import Script.Proofs.Printed.Bare
import Script.Proofs.Words.Lexemes

namespace Script

namespace Printed

-- ============================================================ open lists

theorem wordsOfAll_append (xs ys : List Sexp) :
    wordsOfAll (xs ++ ys) = wordsOfAll xs ++ wordsOfAll ys := by
  induction xs with
  | nil => rfl
  | cons x xs ih =>
      rw [List.cons_append, wordsOfAll, wordsOfAll, ih, List.append_assoc]

/-- A text that is an open list with items, the last of which may go on. -/
def Open (text : String) (items : List Sexp) : Prop :=
  Ends text (.opening :: wordsOfAll items)

/-- A text that is an open list with items, behind which another item may
begin. -/
def Waits (text : String) (items : List Sexp) : Prop :=
  Cut text (.opening :: wordsOfAll items)

section

variable {s t : String} {x : Sexp} {xs : List Sexp}

theorem Waits.opened (h : Waits s xs) : Open s xs := Cut.ends h

theorem Waits.item (h : Waits s xs) (hx : Ends t x.words) :
    Open (s ++ t) (xs ++ [x]) := by
  unfold Open
  rw [wordsOfAll_append, wordsOfAll, wordsOfAll, List.append_nil]
  exact h.followed hx

theorem Open.space (h : Open s xs) : Waits (s ++ " ") xs := Ends.space h

theorem Open.newline (h : Open s xs) : Waits (s ++ "\n") xs :=
  Ends.newline h

theorem Open.next (h : Open s xs) (hx : Ends t x.words) :
    Open (s ++ " " ++ t) (xs ++ [x]) :=
  h.space.item hx

theorem Open.close (h : Open s xs) :
    Ends (s ++ ")") (Sexp.list xs).words :=
  (Ends.close h).ends

/-- Spaces in front of a text. -/
theorem cut_indent (depth : Nat) : Cut (indent depth) [] := by
  intro found
  unfold indent
  rw [String.toList_ofList]
  induction 2 * depth with
  | zero => rfl
  | succ n ih => exact ih

theorem ends_indent (depth : Nat) {ws : List Word} (h : Ends t ws) :
    Ends (indent depth ++ t) ws :=
  (cut_indent depth).followed h

theorem waits_indent (depth : Nat) (h : Waits t xs) :
    Waits (indent depth ++ t) xs :=
  (cut_indent depth).append h

end

-- ================================================================= words

theorem solid_of_inner {c : Char} (h : Spelling.Inner c) : Solid c := by
  intro hc
  rw [← Token.isWordChar_iff] at h
  have hnone : [' ', '\n', '(', ')', '"'].any Token.isWordChar = false := rfl
  exact List.any_eq_false.1 hnone c hc h

theorem ends_word {s : String} (h : Spelling.Word s.toList) :
    Ends s (Sexp.leaf s).words := by
  refine .leaf (fun hs => ?_) ?_
  · rw [hs] at h
    cases h
  · generalize s.toList = cs at h
    obtain ⟨hc, hcs⟩ := h
    exact List.forall_mem_cons.2
      ⟨solid_of_inner (.inl hc), fun d hd => solid_of_inner (hcs d hd)⟩

theorem ends_keyword (k : Keyword) :
    Ends k.text (Sexp.leaf k.text).words :=
  ends_word (Token.word_keyword k)

theorem ends_numeral {s : String} (h : IsNumeral s) :
    Ends s (Sexp.leaf s).words := by
  refine .leaf h.nonempty fun c hc => ?_
  rcases h.digits c hc with h | rfl | rfl
  · exact solid_of_inner (.inr (Token.isDigit_iff.1 h))
  all_goals decide

theorem ends_unary (op : UnaryOp) :
    Ends op.text (Sexp.leaf op.text).words := by
  refine .leaf (by cases op <;> decide) ?_
  cases op <;> simp [UnaryOp.text, Solid]

theorem ends_binary (op : BinaryOp) :
    Ends op.text (Sexp.leaf op.text).words := by
  refine .leaf (by cases op <;> decide) ?_
  cases op <;> simp [BinaryOp.text, Solid]

/-- Names with spaces between them, in an open list. -/
theorem Waits.names {s : String} {xs : List Sexp} {names : List Ident}
    (h : Waits s xs) (hnames : ∀ x ∈ names, IsName x.name) :
    Open (s ++ " ".intercalate (names.map (·.name)))
      (xs ++ names.map fun x => .leaf x.name) := by
  induction names generalizing s xs with
  | nil =>
      rw [List.map_nil, List.map_nil, List.append_nil,
        String.intercalate_nil, String.append_empty]
      exact h.opened
  | cons x names ih =>
      obtain ⟨hx, hrest⟩ := List.forall_mem_cons.1 hnames
      have hfirst := h.item (ends_word hx.word)
      cases names with
      | nil => exact hfirst
      | cons y names =>
          rw [List.map_cons, List.map_cons, String.intercalate_cons_cons,
            ← String.append_assoc, ← String.append_assoc, List.map_cons,
            List.append_cons]
          exact ih hfirst.space hrest

end Printed

-- =========================================================== expressions

open Printed

mutual

theorem Expr.ends : ∀ e : Expr, e.Leaves IsName Legible →
    Ends e.text e.sexp.words
  | .number .., h => ends_numeral h
  | .string _ s, _ => .quoted s
  | .bool _ true, _ => ends_keyword .trueK
  | .bool _ false, _ => ends_keyword .falseK
  | .nil _, _ => ends_keyword .nilK
  | .ident .., h => ends_word h.word
  | .unary _ op e, h =>
      have hop : Waits "(" [] := fun _ => rfl
      ((hop.item (ends_unary op)).next (e.ends h)).close
  | .binary _ op l r, h =>
      have hop : Waits "(" [] := fun _ => rfl
      (((hop.item (ends_binary op)).next (l.ends h.1)).next
        (r.ends h.2)).close
  | .assign _ _ e, h =>
      have hhead : Waits "(= " [.leaf "="] := fun _ => rfl
      ((hhead.item (ends_word h.1.word)).next (e.ends h.2)).close
  | .call _ callee args, h =>
      have hhead : Waits "(call " [.leaf "call"] := fun _ => rfl
      (argumentText_open args h.2 (hhead.item (callee.ends h.1))).close
  | .group _ e, h =>
      have hhead : Waits "(group " [.leaf "group"] := fun _ => rfl
      (hhead.item (e.ends h)).close

theorem argumentText_open : ∀ es : List Expr,
    argumentLeaves IsName Legible es → ∀ {s : String} {xs : List Sexp},
      Open s xs → Open (s ++ argumentText es) (xs ++ argumentSexps es)
  | [], _, s, xs, hs => by
      rw [argumentText, argumentSexps, String.append_empty, List.append_nil]
      exact hs
  | e :: es, h, s, xs, hs => by
      rw [argumentText, argumentSexps, List.append_cons,
        ← String.append_assoc, ← String.append_assoc]
      exact argumentText_open es h.2 (hs.next (e.ends h.1))

end

-- ============================================================ statements

mutual

theorem Stmt.ends (depth : Nat) : ∀ s : Stmt, s.Leaves IsName Legible →
    Ends (s.text depth) s.sexp.words
  | .declare _ name (some e), h =>
      have hhead : Waits "(let " [.leaf "let"] := fun _ => rfl
      (((waits_indent depth hhead).item (ends_word h.1.word)).next
        (e.ends h.2)).close
  | .declare _ name none, h =>
      have hhead : Waits "(let " [.leaf "let"] := fun _ => rfl
      ((waits_indent depth hhead).item (ends_word h.1.word)).close
  | .function d, h => d.ends depth h
  | .expression _ e, h =>
      have hhead : Waits "(expr " [.leaf "expr"] := fun _ => rfl
      ((waits_indent depth hhead).item (e.ends h)).close
  | .block b, h => b.ends depth h
  | .branch span cond thenPart elsePart, h => by
      have hhead : Waits "(if " [.leaf "if"] := fun _ => rfl
      have hcond := (waits_indent depth hhead).item (cond.ends h.1)
      have hthen := hcond.newline.item (thenPart.ends (depth + 1) h.2.1)
      cases elsePart with
      | none =>
          simp only [Stmt.text, String.append_empty]
          exact hthen.close
      | some s =>
          have hhead : Waits "(else\n" [.leaf "else"] := fun _ => rfl
          have helse := ((waits_indent (depth + 1) hhead).item
            (s.ends (depth + 2) h.2.2)).close
          have hall : Ends _
              (Stmt.branch span cond thenPart (some s)).sexp.words :=
            (hthen.newline.item helse).close
          simpa only [Stmt.text, String.append_assoc] using hall
  | .loop _ cond body, h =>
      have hhead : Waits "(while " [.leaf "while"] := fun _ => rfl
      (((waits_indent depth hhead).item (cond.ends h.1)).newline.item
        (body.ends (depth + 1) h.2)).close
  | .giveBack _ (some e), h =>
      have hhead : Waits "(return " [.leaf "return"] := fun _ => rfl
      ((waits_indent depth hhead).item (e.ends h)).close
  | .giveBack _ none, _ =>
      ends_indent depth (Cut.ends fun _ => rfl)
  | .print _ e, h =>
      have hhead : Waits "(print " [.leaf "print"] := fun _ => rfl
      ((waits_indent depth hhead).item (e.ends h)).close
  | .empty _, _ => ends_indent depth (Cut.ends fun _ => rfl)

theorem Block.ends (depth : Nat) : ∀ b : Block, b.Leaves IsName Legible →
    Ends (b.text depth) b.sexp.words
  | ⟨statements, _⟩, h =>
      have hhead : Open "(block" [.leaf "block"] :=
        fun _ => ⟨rfl, rfl⟩
      (statementText_open (depth + 1) statements h
        (ends_indent depth hhead)).close

theorem FnDecl.ends (depth : Nat) : ∀ d : FnDecl,
    d.Leaves IsName Legible → Ends (d.text depth) d.sexp.words
  | ⟨name, params, body, id⟩, h => by
      have hhead : Waits "(fn " [.leaf "fn"] := fun _ => rfl
      have hname := (waits_indent depth hhead).item (ends_word h.1.word)
      have hopen : Waits "(" [] := fun _ => rfl
      have hparams := (hopen.names h.2.1).close
      have hall : Ends _ (FnDecl.mk name params body id).sexp.words :=
        ((hname.next hparams).newline.item
          (body.ends (depth + 1) h.2.2)).close
      have hfront : " (" = " " ++ "(" := rfl
      have hback : ")\n" = ")" ++ "\n" := rfl
      rw [FnDecl.text, hfront, hback]
      simpa only [String.append_assoc] using hall

theorem statementText_open (depth : Nat) : ∀ ss : List Stmt,
    statementLeaves IsName Legible ss → ∀ {s : String} {xs : List Sexp},
      Open s xs →
        Open (s ++ statementText depth ss) (xs ++ statementSexps ss)
  | [], _, s, xs, hs => by
      rw [statementText, statementSexps, String.append_empty,
        List.append_nil]
      exact hs
  | stmt :: ss, h, s, xs, hs => by
      rw [statementText, statementSexps, List.append_cons,
        ← String.append_assoc, ← String.append_assoc]
      exact statementText_open depth ss h.2
        (hs.newline.item (stmt.ends depth h.1))

end

/-- A printed program is cut into the words of its nested list. -/
theorem Program.ends (p : Program) (h : p.Leaves IsName Legible) :
    Ends p.text p.sexp.words :=
  have hhead : Open "(program" [.leaf "program"] := fun _ => ⟨rfl, rfl⟩
  (statementText_open 1 p.statements h hhead).close

/-- The bare tree of a program, read from its printed tree. -/
theorem Program.programOf?_text (p : Program)
    (h : p.Leaves IsName Legible) : programOf? p.text = some p.bare := by
  unfold programOf?
  rw [(p.ends h).sexpOf?_eq]
  exact stmtsOf?_sexps p.statements h

end Script
