/-
Every name of a program has a span of its own. The names of a tree are
tokens it was read from, in the same order, and tokens stand one behind
the other. So there is one note for each span, and the variable at a span
is the one that was noted there.
-/
import Script.Proofs.Grammar.Order
import Script.Proofs.Lexical.Occurrences

namespace Script

-- ================================================================ tokens

namespace Grammar

variable {next : Token.Kind} {seg : List Token} {e : Expr}
  {ss : List Stmt} {ps : List Ident}

/-- The names that tokens would spell. -/
abbrev idents (seg : List Token) : List Ident := seg.map Token.ident

/-- Names in front of other tokens. -/
theorem sublist_ended {xs : List Ident} {final : List Token}
    (h : xs.Sublist (idents seg)) : xs.Sublist (idents (seg ++ final)) := by
  rw [idents, List.map_append]
  exact h.trans (List.sublist_append_left ..)

/-- Names of two parts of a tree, one behind the other. -/
theorem sublist_both {xs ys : List Ident} {rest : List Token}
    (h : xs.Sublist (idents seg)) (h' : ys.Sublist (idents rest)) :
    (xs ++ ys).Sublist (idents (seg ++ rest)) := by
  rw [idents, List.map_append]
  exact h.append h'

theorem Atom.used {t : Token} (h : Atom t e) :
    e.used.Sublist (idents [t]) := by
  cases h with
  | name => exact .refl _
  | _ => exact List.nil_sublist _

mutual

theorem Reads.used {level : Level} {seg : List Token} {e : Expr} :
    Reads level seg e → e.used.Sublist (idents seg)
  | .assign _ _ he => (he.used.cons _).cons_cons _
  | .loosest he => he.used
  | .join ha _ hb => sublist_both ha.used (hb.used.cons _)
  | .tighter he => he.used
  | .tightest he => he.used
  | .lead _ he => he.used.cons _
  | .alone he => he.used
  | .call hf _ hargs _ =>
      sublist_both hf.used ((sublist_ended hargs.used).cons _)
  | .callee he => he.used
  | .atom ht => ht.used
  | .group _ he _ => (sublist_ended he.used).cons _

theorem ReadsArgs.used {seg : List Token} {es : List Expr} :
    ReadsArgs seg es → (usedInAll es).Sublist (idents seg)
  | .none => List.nil_sublist _
  | .some h => h.used

theorem ReadsList.used {seg : List Token} {es : List Expr} :
    ReadsList seg es → (usedInAll es).Sublist (idents seg)
  | .one he => by
      show (Expr.used _ ++ []).Sublist _
      rw [List.append_nil]
      exact he.used
  | .more he _ hes => sublist_both he.used (hes.used.cons _)

end

theorem InitIn.used {init : Option Expr} (h : InitIn seg init) :
    (optionalUsed init).Sublist (idents seg) := by
  cases h with
  | none => exact List.nil_sublist _
  | some _ he => exact he.used.cons _

theorem ValueIn.used {v : Option Expr} (h : ValueIn seg v) :
    (optionalUsed v).Sublist (idents seg) := by
  cases h with
  | none => exact List.nil_sublist _
  | some he => exact he.used

theorem NamesIn.sublist (h : NamesIn seg ps) : ps.Sublist (idents seg) := by
  induction h with
  | one => exact .refl _
  | more _ _ _ ih => exact (ih.cons _).cons_cons _

theorem ParamsIn.sublist (h : ParamsIn seg ps) :
    ps.Sublist (idents seg) := by
  cases h with
  | none => exact List.nil_sublist _
  | some h => exact h.sublist

mutual

theorem StmtIn.names {next : Token.Kind} {seg : List Token} {s : Stmt} :
    StmtIn next seg s → s.names.Sublist (idents seg)
  | .declare _ _ hinit _ => ((sublist_ended hinit.used).cons_cons _).cons _
  | .function _ _ _ hnames _ hb =>
      (((sublist_both hnames.sublist (hb.names.cons _)).cons _).cons_cons
        _).cons _
  | .branch hs => hs.names
  | .loop _ he hb => (sublist_both he.used hb.names).cons _
  | .giveBack _ hv _ => (sublist_ended hv.used).cons _
  | .print _ he _ => (sublist_ended he.used).cons _
  | .block hb => hb.names
  | .expression he _ => sublist_ended he.used
  | .empty _ => List.nil_sublist _

theorem BranchIn.names {seg : List Token} {s : Stmt} :
    BranchIn seg s → s.names.Sublist (idents seg)
  | .mk _ he hb hs =>
      (sublist_both he.used (sublist_both hb.names hs.names)).cons _

theorem ElseIn.names {seg : List Token} {s : Option Stmt} :
    ElseIn seg s → (elseNames s).Sublist (idents seg)
  | .none => List.nil_sublist _
  | .block _ hb => hb.names.cons _
  | .branch _ hs => hs.names.cons _

theorem BlockIn.names {seg : List Token} {b : Block} :
    BlockIn seg b → b.names.Sublist (idents seg)
  | .mk _ hss _ => (sublist_ended hss.names).cons _

theorem StmtsIn.names {next : Token.Kind} {seg : List Token}
    {ss : List Stmt} :
    StmtsIn next seg ss → (stmtsNames ss).Sublist (idents seg)
  | .nil => List.nil_sublist _
  | .cons hs hss => sublist_both hs.names hss.names

end

/-- No two names of statements have one span. -/
theorem StmtsIn.nodup (h : StmtsIn next seg ss) (hordered : Ordered seg) :
    ((stmtsNames ss).map (·.span)).Nodup := by
  have hspans : (seg.map (·.span)).Nodup := by
    refine List.pairwise_map.2 (hordered.imp fun hlt heq => ?_)
    rw [heq] at hlt
    exact Nat.lt_irrefl _ hlt.2.1
  have hsub := h.names.map (·.span)
  rw [List.map_map] at hsub
  exact hspans.sublist hsub

end Grammar

-- ================================================================= notes

namespace Lexical

/-- The spans that notes are about. -/
def Notes.keys (ns : Notes) : List Span := ns.map (·.1)

theorem keys_uses (fn : Option Span) (s : Code.Symbols) (xs : List Ident) :
    Notes.keys (xs.map (useNote fn s)) = xs.map (·.span) := by
  unfold Notes.keys
  rw [List.map_map]
  rfl

theorem keys_makes (fn : Option Span) (s : Code.Symbols)
    (xs : List Ident) :
    Notes.keys (makeNotes fn s xs) = xs.map (·.span) := by
  induction xs generalizing s with
  | nil => rfl
  | cons x xs ih => exact congrArg (x.span :: ·) (ih _)

theorem keys_append (ms ns : Notes) :
    Notes.keys (ms ++ ns) = ms.keys ++ ns.keys :=
  List.map_append

end Lexical

open Lexical

mutual

/-- There is one note for each name, in the order of the text. -/
theorem Stmt.keys_notes : ∀ (t : Stmt) (fn : Option Span)
    (s : Code.Symbols), (t.notes fn s).keys = t.names.map (·.span)
  | .declare _ x init, fn, s =>
      congrArg (x.span :: ·) (keys_uses fn s (optionalUsed init))
  | .function d, _, _ => d.keys_notes _
  | .expression _ e, fn, s => keys_uses fn s e.used
  | .print _ e, fn, s => keys_uses fn s e.used
  | .block b, fn, s => b.keys_notes fn s
  | .branch _ cond b e, fn, s => by
      unfold Stmt.notes Stmt.names
      rw [keys_append, keys_append, keys_uses, b.keys_notes,
        elseKeys_notes e, List.map_append, List.map_append]
  | .loop _ cond b, fn, s => by
      unfold Stmt.notes Stmt.names
      rw [keys_append, keys_uses, b.keys_notes, List.map_append]
  | .giveBack _ v, fn, s => keys_uses fn s (optionalUsed v)
  | .empty _, _, _ => rfl

theorem elseKeys_notes : ∀ (t : Option Stmt) (fn : Option Span)
    (s : Code.Symbols), (elseNotes fn s t).keys = (elseNames t).map (·.span)
  | none, _, _ => rfl
  | some t, fn, s => t.keys_notes fn s

theorem FnDecl.keys_notes : ∀ (d : FnDecl) (s : Code.Symbols),
    d.name.span :: (d.notes s).keys = d.names.map (·.span)
  | ⟨x, params, ⟨ss, span⟩, _⟩, s => by
      unfold FnDecl.notes FnDecl.names Block.names
      rw [keys_append, keys_makes, stmtsKeys_notes ss, List.map_cons,
        List.map_append]

theorem Block.keys_notes : ∀ (b : Block) (fn : Option Span)
    (s : Code.Symbols), (b.notes fn s).keys = b.names.map (·.span)
  | ⟨ss, _⟩, fn, s => stmtsKeys_notes ss fn s.openBlock

theorem stmtsKeys_notes : ∀ (ts : List Stmt) (fn : Option Span)
    (s : Code.Symbols), (stmtsNotes fn s ts).keys =
      (stmtsNames ts).map (·.span)
  | [], _, _ => rfl
  | t :: ts, fn, s => by
      unfold stmtsNotes stmtsNames
      rw [keys_append, t.keys_notes, stmtsKeys_notes ts, List.map_append]

end

namespace Program

/-- The notes of functions that are hoisted and of what is left are those
of the text, in another order. -/
theorem keys_perm (s : Code.Symbols) (ts : List Stmt) :
    (((ts.filterMap Stmt.function?).map (·.name)).map (·.span)
      ++ ((stmtsNames (otherStatements ts)).map (·.span)
        ++ Notes.keys ((ts.filterMap Stmt.function?).flatMap
          (FnDecl.notes s)))).Perm ((stmtsNames ts).map (·.span)) := by
  induction ts with
  | nil => exact .refl _
  | cons t ts ih =>
      have hnames : (stmtsNames (t :: ts)).map (·.span) =
          t.names.map (·.span) ++ (stmtsNames ts).map (·.span) :=
        List.map_append
      rw [hnames]
      cases ht : t.function? with
      | some d =>
          obtain rfl : t = .function d := by
            cases t <;> cases ht
            rfl
          rw [List.filterMap_cons_some ht, List.map_cons, List.map_cons,
            List.flatMap_cons, keys_append]
          show List.Perm _ (d.names.map (·.span) ++ _)
          rw [← d.keys_notes s]
          refine .cons d.name.span (.trans ?_ (ih.append_left _))
          -- The notes of the function move to the front.
          exact ((List.perm_append_comm_assoc _ _ _).append_left _).trans
            (List.perm_append_comm_assoc _ _ _)
      | none =>
          have hothers : (stmtsNames (otherStatements (t :: ts))).map
              (·.span) = t.names.map (·.span)
                ++ (stmtsNames (otherStatements ts)).map (·.span) := by
            rw [otherStatements_cons ht]
            exact List.map_append
          rw [List.filterMap_cons_none ht, hothers, List.append_assoc]
          exact (List.perm_append_comm_assoc _ _ _).trans
            (ih.append_left _)

/-- A span with two notes does not exist in a program that was read from
tokens in order. -/
theorem nodup_keys {p : Program} {next : Token.Kind} {body : List Token}
    (h : Grammar.StmtsIn next body p.statements)
    (hordered : Grammar.Ordered body) : p.notes.keys.Nodup := by
  have hkeys : p.notes.keys.Perm ((stmtsNames p.statements).map (·.span)) := by
    unfold notes
    rw [keys_append, keys_makes, keys_append, stmtsKeys_notes]
    exact keys_perm p.final p.statements
  exact hkeys.nodup_iff.2 (h.nodup hordered)

/-- So what was noted of a span is the variable there. -/
theorem variableAt_of_mem {p : Program} (hkeys : p.notes.keys.Nodup)
    {span : Span} {v : Variable} (h : (span, some v) ∈ p.notes) :
    p.variableAt span = some v := by
  have hlookup : p.notes.lookup span = some (some v) := by
    obtain ⟨l, r, hsplit⟩ := List.append_of_mem h
    refine List.lookup_eq_some_iff.2 ⟨l, r, hsplit, fun n hn => ?_⟩
    rw [hsplit] at hkeys
    unfold Notes.keys at hkeys
    rw [List.map_append] at hkeys
    have hne := (List.nodup_append.1 hkeys).2.2 n.1
      (List.mem_map_of_mem hn) span (List.mem_cons_self ..)
    exact bne_iff_ne.2 (Ne.symm hne)
  unfold variableAt
  rw [hlookup]
  rfl

end Program

end Script
