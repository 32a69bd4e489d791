/-
Shapes of trees. Two are asked of programs: that they declare functions at
the top only, and that an else part is a block or another condition. The
second one is a matter of the grammar, so every tree that was read has it.
In the same way the grammar keeps functions apart that stand side by side:
each of their spans begins with a token of its own.
-/
import Script.Proofs.Grammar.Order

namespace Script

-- ============================================================= functions

mutual

/-- Whether a statement declares no functions. -/
def Stmt.isPlain : Stmt → Bool
  | .function _ => false
  | .block b => b.isPlain
  | .branch _ _ thenPart elsePart => thenPart.isPlain && elseIsPlain elsePart
  | .loop _ _ body => body.isPlain
  | .declare .. | .expression .. | .giveBack .. | .print .. | .empty _ => true

/-- Whether an else part declares no functions, if there is one. -/
def elseIsPlain : Option Stmt → Bool
  | none => true
  | some s => s.isPlain

/-- Whether a block declares no functions. -/
def Block.isPlain : Block → Bool
  | ⟨ss, _⟩ => stmtsArePlain ss

/-- Whether no statement of a list declares functions. -/
def stmtsArePlain : List Stmt → Bool
  | [] => true
  | s :: ss => s.isPlain && stmtsArePlain ss

end

/-- Whether a statement at the top of a program has no function inside of
another statement. -/
def Stmt.isFlat : Stmt → Bool
  | .function d => d.body.isPlain
  | s => s.isPlain

/-- Whether all functions of a program are declared at its top. -/
def Program.isFlat (p : Program) : Bool := p.statements.all Stmt.isFlat

-- ============================================================ else parts

/-- Whether a statement may be an else part. -/
def Stmt.isElse : Stmt → Bool
  | .block _ | .branch .. => true
  | _ => false

mutual

/-- Whether all else parts of a statement are blocks or conditions. -/
def Stmt.isBraced : Stmt → Bool
  | .function d => d.isBraced
  | .block b => b.isBraced
  | .branch _ _ thenPart elsePart =>
      thenPart.isBraced && elseIsBraced elsePart
  | .loop _ _ body => body.isBraced
  | .declare .. | .expression .. | .giveBack .. | .print .. | .empty _ => true

/-- Whether an else part is as it should be, if there is one. -/
def elseIsBraced : Option Stmt → Bool
  | none => true
  | some s => s.isElse && s.isBraced

/-- Whether all else parts of a function are blocks or conditions. -/
def FnDecl.isBraced : FnDecl → Bool
  | ⟨_, _, body, _⟩ => body.isBraced

/-- Whether all else parts of a block are blocks or conditions. -/
def Block.isBraced : Block → Bool
  | ⟨ss, _⟩ => stmtsAreBraced ss

/-- Whether all else parts of statements are blocks or conditions. -/
def stmtsAreBraced : List Stmt → Bool
  | [] => true
  | s :: ss => s.isBraced && stmtsAreBraced ss

end

namespace Grammar

theorem BranchIn.isElse {seg : List Token} {s : Stmt} (h : BranchIn seg s) :
    s.isElse = true := by
  cases h
  rfl

mutual

theorem StmtIn.isBraced {next : Token.Kind} {seg : List Token} {s : Stmt} :
    StmtIn next seg s → s.isBraced = true
  | .declare _ _ _ _ => rfl
  | .function _ _ _ _ _ hb => hb.isBraced
  | .branch hs => hs.isBraced
  | .loop _ _ hb => hb.isBraced
  | .giveBack _ _ _ => rfl
  | .print _ _ _ => rfl
  | .block hb => hb.isBraced
  | .expression _ _ => rfl
  | .empty _ => rfl

theorem BranchIn.isBraced {seg : List Token} {s : Stmt} :
    BranchIn seg s → s.isBraced = true
  | .mk _ _ hb hs => Bool.and_eq_true_iff.2 ⟨hb.isBraced, hs.isBraced⟩

theorem ElseIn.isBraced {seg : List Token} {s : Option Stmt} :
    ElseIn seg s → elseIsBraced s = true
  | .none => rfl
  | .block _ hb => hb.isBraced
  | .branch _ hs => Bool.and_eq_true_iff.2 ⟨hs.isElse, hs.isBraced⟩

theorem BlockIn.isBraced {seg : List Token} {b : Block} :
    BlockIn seg b → b.isBraced = true
  | .mk _ hss _ => hss.isBraced

theorem StmtsIn.isBraced {next : Token.Kind} {seg : List Token}
    {ss : List Stmt} : StmtsIn next seg ss → stmtsAreBraced ss = true
  | .nil => rfl
  | .cons hs hss => Bool.and_eq_true_iff.2 ⟨hs.isBraced, hss.isBraced⟩

end

-- ================================================================= spans

/-- A function begins with a token of its statement. -/
theorem StmtIn.function_start {next : Token.Kind} {seg : List Token}
    {s : Stmt} {d : FnDecl} (h : StmtIn next seg s)
    (hd : s.function? = some d) (hordered : Ordered seg) :
    ∃ t ∈ seg, d.span.start = t.span.start := by
  cases h with
  | @function _ w x opening close names seg ps b =>
      cases hd
      refine ⟨w, List.mem_cons_self .., ?_⟩
      show (cover _).start = _
      rw [cover_eq hordered]
      rfl
  | branch hs =>
      cases hs
      cases hd
  | _ => cases hd

theorem StmtsIn.function_start {next : Token.Kind} {seg : List Token}
    {ss : List Stmt} {d : FnDecl} (h : StmtsIn next seg ss)
    (hd : d ∈ ss.filterMap Stmt.function?) (hordered : Ordered seg) :
    ∃ t ∈ seg, d.span.start = t.span.start := by
  induction ss generalizing seg with
  | nil => cases hd
  | cons s ss ih =>
      cases h with
      | @cons _ seg rest _ _ hs hss =>
          obtain ⟨hl, hr⟩ := hordered.of_append
          rw [List.filterMap_cons] at hd
          cases hs' : s.function? with
          | none =>
              rw [hs'] at hd
              obtain ⟨t, ht, hstart⟩ := ih hss hd hr
              exact ⟨t, List.mem_append_right _ ht, hstart⟩
          | some e =>
              rw [hs'] at hd
              rcases List.mem_cons.1 hd with rfl | hd
              · obtain ⟨t, ht, hstart⟩ := hs.function_start hs' hl
                exact ⟨t, List.mem_append_left _ ht, hstart⟩
              · obtain ⟨t, ht, hstart⟩ := ih hss hd hr
                exact ⟨t, List.mem_append_right _ ht, hstart⟩

/-- The functions among statements begin one behind the other. -/
theorem StmtsIn.functions_apart {next : Token.Kind} {seg : List Token}
    {ss : List Stmt} (h : StmtsIn next seg ss) (hordered : Ordered seg) :
    (ss.filterMap Stmt.function?).Pairwise
      fun d e => d.span.start < e.span.start := by
  induction ss generalizing seg with
  | nil => exact .nil
  | cons s ss ih =>
      cases h with
      | @cons _ seg rest _ _ hs hss =>
          obtain ⟨hl, hr⟩ := hordered.of_append
          rw [List.filterMap_cons]
          cases hs' : s.function? with
          | none => exact ih hss hr
          | some d =>
              refine .cons (fun e he => ?_) (ih hss hr)
              obtain ⟨t, ht, hd⟩ := hs.function_start hs' hl
              obtain ⟨u, hu, he⟩ := hss.function_start he hr
              obtain ⟨-, hlt, -⟩ := (List.pairwise_append.1 hordered).2.2
                t ht u hu
              rw [hd, he]
              exact hlt

end Grammar

end Script
