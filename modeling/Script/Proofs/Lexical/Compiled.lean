/-
The passage of the symbol table is that of the compiler: where code is
made, the table behind it is the one that the passage ends with, every
name in the piece has its variable, and these variables are the ones that
the instructions read and write. Nothing is asked of the shape of the
program here; functions may stand anywhere. Each of them fills a place that
was reserved for it, and those that stand in it come behind all others.
-/
import Script.Proofs.Lexical.Passages
import Script.Proofs.Stack.Bodies

namespace Script

open Code Lexical

-- ================================================================ growth

namespace Code.Symbols

variable {s s' : Symbols}

theorem Grows.inMain (h : s.Grows s') : s'.inMain = s.inMain := by
  obtain ⟨f, -, rfl⟩ := h
  obtain ⟨_ | ⟨frame, frames⟩, main⟩ := s <;> rfl

/-- Closing a function leaves nothing of it. -/
theorem Grows.closeFrame (h : s.openFrame.Grows s') :
    s'.closeFrame.2 = s := by
  obtain ⟨f, -, rfl⟩ := h
  rfl

end Code.Symbols

theorem Lexical.declareAll_grows (s : Symbols) (xs : List Ident) :
    s.Grows (declareAll s xs) := by
  induction xs generalizing s with
  | nil => exact .refl s
  | cons x xs ih => exact (Symbols.Grows.declare s x.name).trans (ih _)

mutual

theorem Stmt.after_grows : ∀ (t : Stmt) (s : Symbols), s.Grows (t.after s)
  | .declare _ x _, s => .declare s x.name
  | .function d, s => .declare s d.name.name
  | .block b, s => b.after_grows s
  | .branch _ _ b e, s => (b.after_grows s).trans (elseAfter_grows e _)
  | .loop _ _ b, s => b.after_grows s
  | .expression .., s => .refl s
  | .giveBack .., s => .refl s
  | .print .., s => .refl s
  | .empty _, s => .refl s

theorem elseAfter_grows : ∀ (t : Option Stmt) (s : Symbols),
    s.Grows (elseAfter s t)
  | none, s => .refl s
  | some t, s => t.after_grows s

theorem Block.after_grows : ∀ (b : Block) (s : Symbols),
    s.Grows (b.after s)
  | ⟨ts, _⟩, s => (stmtsAfter_grows ts s.openBlock).block

theorem stmtsAfter_grows : ∀ (ts : List Stmt) (s : Symbols),
    s.Grows (stmtsAfter s ts)
  | [], s => .refl s
  | t :: ts, s => (t.after_grows s).trans (stmtsAfter_grows ts _)

end

-- =========================================================== expressions

namespace Lexical

/-- Whether all names of notes have their variables. -/
def Known (ns : Notes) : Prop := ∀ n ∈ ns, n.2.isSome

variable {fn : Option Span} {t : Symbols}

theorem Known.nil : Known [] := fun _ h => absurd h List.not_mem_nil

theorem Known.cons {n : Span × Option Variable} {ns : Notes}
    (h : n.2.isSome) (hs : Known ns) : Known (n :: ns) :=
  List.forall_mem_cons.2 ⟨h, hs⟩

theorem Known.append {ms ns : Notes} (h : Known ms) (h' : Known ns) :
    Known (ms ++ ns) :=
  List.forall_mem_append.2 ⟨h, h'⟩

/-- A name that means a variable where code can use it. -/
def Resolves (t : Symbols) (x : Ident) : Prop :=
  ∃ symbol, t.resolve? x.name = some symbol ∧ symbol ≠ .captured

theorem Resolves.known {x : Ident} (h : Resolves t x)
    (hfn : fn.isSome = !t.inMain) : (useNote fn t x).2.isSome := by
  obtain ⟨symbol, hx, hne⟩ := h
  show ((t.resolve? x.name).bind (ofSymbol? fn)).isSome = true
  rw [hx]
  cases symbol with
  | captured => exact (hne rfl).elim
  | global slot => rfl
  | own slot =>
      obtain ⟨_ | ⟨frame, frames⟩, main⟩ := t
      · -- In the main function nothing means a local.
        obtain ⟨slot', -, hslot'⟩ := Option.map_eq_some_iff.1 hx
        cases hslot'
      · obtain ⟨span, rfl⟩ := Option.isSome_iff_exists.1 hfn
        rfl

theorem known_uses {xs : List Ident} (h : ∀ x ∈ xs, Resolves t x)
    (hfn : fn.isSome = !t.inMain) : Known (xs.map (useNote fn t)) := by
  intro n hn
  obtain ⟨x, hx, rfl⟩ := List.mem_map.1 hn
  exact (h x hx).known hfn

theorem known_make (x : Ident) (hfn : fn.isSome = !t.inMain) :
    (makeNote fn t x).2.isSome := by
  unfold makeNote Symbols.declare
  cases hmain : t.inMain with
  | true => rfl
  | false =>
      rw [hmain] at hfn
      obtain ⟨span, rfl⟩ := Option.isSome_iff_exists.1 hfn
      rfl

theorem known_makes {xs : List Ident} (hfn : fn.isSome = !t.inMain) :
    Known (makeNotes fn t xs) := by
  induction xs generalizing t with
  | nil => exact .nil
  | cons x xs ih =>
      refine .cons (known_make x hfn) (ih ?_)
      rw [(Symbols.Grows.declare t x.name).inMain]
      exact hfn

end Lexical

namespace Code

open Script.Action Stack

variable {s s' : Emission} {code : List Instr} {start : Nat} {u : Unit}

theorem resolve_resolves {x : Ident} {symbol : Symbol}
    (h : resolve x.name x.span s = .ok symbol s') :
    Resolves s.symbols x :=
  ⟨symbol, (resolve_ok h).2⟩

theorem accesses_push {k : Constant} (h : push k s = .ok code s') :
    accesses code = [] := by
  obtain ⟨-, index, rfl, -⟩ := push_ok h
  rfl

/-- Both operands have code, whatever the operator, and there are no other
variables in the code. -/
theorem operands_ok {span : Span} {op : BinaryOp} {l r : Expr}
    (h : exprCode start (.binary span op l r) s = .ok code s') :
    ∃ i j s₁ s₂ t₁ t₂ left right,
      exprCode i l s₁ = .ok left t₁ ∧ exprCode j r s₂ = .ok right t₂
        ∧ s₁.symbols = s.symbols ∧ s₂.symbols = t₁.symbols
        ∧ accesses code = accesses left ++ accesses right := by
  cases op with
  | and =>
      obtain ⟨left, s₁, hl, hrest⟩ := bind_ok.1 h
      obtain ⟨right, s₂, hr, hrest'⟩ := bind_ok.1 hrest
      obtain ⟨constant, s₃, hpush, hcode⟩ := bind_ok.1 hrest'
      obtain ⟨rfl, -⟩ := pure_ok.1 hcode
      refine ⟨_, _, _, _, _, _, _, _, hl, hr, rfl, rfl, ?_⟩
      rw [accesses_append, accesses_append, accesses_cons rfl,
        accesses_cons rfl, accesses_push hpush, List.append_nil]
  | or =>
      obtain ⟨left, s₁, hl, hrest⟩ := bind_ok.1 h
      obtain ⟨constant, s₂, hpush, hrest'⟩ := bind_ok.1 hrest
      obtain ⟨right, s₃, hr, hcode⟩ := bind_ok.1 hrest'
      obtain ⟨rfl, -⟩ := pure_ok.1 hcode
      refine ⟨_, _, _, _, _, _, _, _, hl, hr, rfl,
        (push_ok hpush).1.symbols, ?_⟩
      rw [accesses_append, accesses_append, accesses_cons rfl,
        accesses_cons rfl, accesses_push hpush, List.append_nil]
  | _ =>
      obtain ⟨u, s₁, hrefuse, hrest⟩ := bind_ok.1 h
      obtain ⟨left, s₂, hl, hrest'⟩ := bind_ok.1 hrest
      obtain ⟨right, s₃, hr, hcode⟩ := bind_ok.1 hrest'
      obtain ⟨rfl, -⟩ := pure_ok.1 hcode
      obtain rfl := refuseAny_ok hrefuse
      refine ⟨_, _, _, _, _, _, _, _, hl, hr, rfl, rfl, ?_⟩
      rw [accesses_append, accesses_append, accesses_cons rfl, accesses_nil,
        List.append_nil]

mutual

/-- All names of an expression with code mean variables. -/
theorem exprCode_resolves : ∀ (e : Expr) {start : Nat} {s s' : Emission}
    {code : List Instr}, exprCode start e s = .ok code s' →
      ∀ x ∈ e.used, Resolves s.symbols x
  | .number _ _, _, _, _, _, _, _, hx => absurd hx List.not_mem_nil
  | .string _ _, _, _, _, _, _, _, hx => absurd hx List.not_mem_nil
  | .bool _ _, _, _, _, _, _, _, hx => absurd hx List.not_mem_nil
  | .nil _, _, _, _, _, _, _, hx => absurd hx List.not_mem_nil
  | .ident span name, _, _, _, _, h, x, hx => by
      obtain rfl : x = ⟨name, span⟩ := List.mem_singleton.1 hx
      obtain ⟨symbol, s₁, hresolve, -⟩ := bind_ok.1 h
      exact resolve_resolves (x := ⟨name, span⟩) hresolve
  | .group _ e, _, _, _, _, h, x, hx => exprCode_resolves e h x hx
  | .unary _ _ e, _, _, _, _, h, x, hx => by
      obtain ⟨u, s₁, hrefuse, hrest⟩ := bind_ok.1 h
      obtain ⟨operand, s₂, hmade, -⟩ := bind_ok.1 hrest
      obtain rfl := refuseAny_ok hrefuse
      exact exprCode_resolves e hmade x hx
  | .binary _ _ l r, _, s, _, _, h, x, hx => by
      obtain ⟨i, j, s₁, s₂, t₁, t₂, left, right, hl, hr, h₁, h₂, -⟩ :=
        operands_ok h
      rcases List.mem_append.1 hx with hx | hx
      · rw [← h₁]
        exact exprCode_resolves l hl x hx
      · rw [← h₁, ← (exprCode_ok l hl).steady.symbols, ← h₂]
        exact exprCode_resolves r hr x hx
  | .assign _ target e, _, s, _, _, h, x, hx => by
      obtain ⟨value, s₁, hmade, hrest⟩ := bind_ok.1 h
      obtain ⟨symbol, s₂, hresolve, -⟩ := bind_ok.1 hrest
      rcases List.mem_cons.1 hx with rfl | hx
      · rw [← (exprCode_ok e hmade).steady.symbols]
        exact resolve_resolves hresolve
      · exact exprCode_resolves e hmade x hx
  | .call _ callee args, _, s, _, _, h, x, hx => by
      obtain ⟨s₁, function, arguments, hf, has, -⟩ := callCode_steps h
      rcases List.mem_append.1 hx with hx | hx
      · exact exprCode_resolves callee hf x hx
      · rw [← (exprCode_ok callee hf).steady.symbols]
        exact argumentCode_resolves args has x hx

theorem argumentCode_resolves : ∀ (es : List Expr) {start : Nat}
    {s s' : Emission} {code : List Instr},
      argumentCode start es s = .ok code s' →
        ∀ x ∈ usedInAll es, Resolves s.symbols x
  | [], _, _, _, _, _, _, hx => absurd hx List.not_mem_nil
  | e :: es, _, s, _, _, h, x, hx => by
      obtain ⟨first, s₁, he, hrest⟩ := bind_ok.1 h
      obtain ⟨rest, s₂, hes, -⟩ := bind_ok.1 hrest
      rcases List.mem_append.1 hx with hx | hx
      · exact exprCode_resolves e he x hx
      · rw [← (exprCode_ok e he).steady.symbols]
        exact argumentCode_resolves es hes x hx

end

theorem optionalCode_resolves {e : Option Expr}
    (h : optionalCode start e s = .ok code s') :
    ∀ x ∈ optionalUsed e, Resolves s.symbols x := by
  cases e with
  | none => exact fun x hx => absurd hx List.not_mem_nil
  | some e => exact exprCode_resolves e h

section

variable {vars : Span → Option Variable} {fn : Option Span}

mutual

/-- The code of an expression accesses the variables of its names, in their
order. -/
theorem exprCode_tells : ∀ (e : Expr) {start : Nat} {s s' : Emission}
    {code : List Instr}, exprCode start e s = .ok code s' →
      Hold vars (e.used.map (useNote fn s.symbols)) →
        Tells vars fn (accesses code) e.accessed
  | .number _ _, _, _, _, _, h, _ => accesses_push h ▸ .nil
  | .string _ _, _, _, _, _, h, _ => accesses_push h ▸ .nil
  | .bool _ _, _, _, _, _, h, _ => accesses_push h ▸ .nil
  | .nil _, _, _, _, _, h, _ => accesses_push h ▸ .nil
  | .ident span name, _, _, _, _, h, hvars => by
      obtain ⟨symbol, s₁, hresolve, hcode⟩ := bind_ok.1 h
      obtain ⟨rfl, -⟩ := pure_ok.1 hcode
      obtain ⟨-, hx, hne⟩ := resolve_ok hresolve
      rw [accesses_load hne]
      exact .use hx (hvars _ (List.mem_cons_self ..))
  | .group _ e, _, _, _, _, h, hvars => exprCode_tells e h hvars
  | .unary _ _ e, _, _, _, _, h, hvars => by
      obtain ⟨u, s₁, hrefuse, hrest⟩ := bind_ok.1 h
      obtain ⟨operand, s₂, hmade, hcode⟩ := bind_ok.1 hrest
      obtain ⟨rfl, -⟩ := pure_ok.1 hcode
      obtain rfl := refuseAny_ok hrefuse
      rw [accesses_append, accesses_cons rfl, accesses_nil, List.append_nil]
      exact exprCode_tells e hmade hvars
  | .binary _ _ l r, _, s, _, _, h, hvars => by
      obtain ⟨i, j, s₁, s₂, t₁, t₂, left, right, hl, hr, h₁, h₂, hcode⟩ :=
        operands_ok h
      have hvars : Hold vars ((l.used ++ r.used).map (useNote fn s.symbols)) :=
        hvars
      rw [List.map_append] at hvars
      rw [hcode]
      refine .append (exprCode_tells l hl ?_) (exprCode_tells r hr ?_)
      · rw [h₁]
        exact hvars.left
      · rw [h₂, (exprCode_ok l hl).steady.symbols, h₁]
        exact hvars.right
  | .assign _ target e, _, s, _, _, h, hvars => by
      obtain ⟨value, s₁, hmade, hrest⟩ := bind_ok.1 h
      obtain ⟨symbol, s₂, hresolve, hcode⟩ := bind_ok.1 hrest
      obtain ⟨rfl, -⟩ := pure_ok.1 hcode
      obtain ⟨-, hx, hne⟩ := resolve_ok hresolve
      rw [(exprCode_ok e hmade).steady.symbols] at hx
      obtain ⟨htarget, hvalue⟩ := List.forall_mem_cons.1 hvars
      rw [accesses_append, accesses_append, accesses_store hne,
        accesses_load hne]
      exact ((exprCode_tells e hmade hvalue).append (.use hx htarget)).append
        (.use hx htarget)
  | .call _ callee args, _, s, _, _, h, hvars => by
      obtain ⟨s₁, function, arguments, hf, has, rfl⟩ := callCode_steps h
      have hvars : Hold vars ((callee.used ++ usedInAll args).map
          (useNote fn s.symbols)) := hvars
      rw [List.map_append] at hvars
      rw [accesses_append, accesses_append, accesses_cons rfl,
        accesses_nil, List.append_nil]
      refine .append (exprCode_tells callee hf hvars.left)
        (argumentCode_tells args has ?_)
      rw [(exprCode_ok callee hf).steady.symbols]
      exact hvars.right

theorem argumentCode_tells : ∀ (es : List Expr) {start : Nat}
    {s s' : Emission} {code : List Instr},
      argumentCode start es s = .ok code s' →
        Hold vars ((usedInAll es).map (useNote fn s.symbols)) →
          Tells vars fn (accesses code) (accessedInAll es)
  | [], _, _, _, _, h, _ => by
      obtain ⟨rfl, -⟩ := pure_ok.1 h
      exact .nil
  | e :: es, _, s, _, _, h, hvars => by
      obtain ⟨first, s₁, he, hrest⟩ := bind_ok.1 h
      obtain ⟨rest, s₂, hes, hcode⟩ := bind_ok.1 hrest
      obtain ⟨rfl, -⟩ := pure_ok.1 hcode
      have hvars : Hold vars ((e.used ++ usedInAll es).map
          (useNote fn s.symbols)) := hvars
      rw [List.map_append] at hvars
      rw [accesses_append]
      refine .append (exprCode_tells e he hvars.left)
        (argumentCode_tells es hes ?_)
      rw [(exprCode_ok e he).steady.symbols]
      exact hvars.right

end

theorem optionalCode_tells {e : Option Expr}
    (h : optionalCode start e s = .ok code s')
    (hvars : Hold vars ((optionalUsed e).map (useNote fn s.symbols))) :
    Tells vars fn (accesses code) (optionalAccessed e) := by
  cases e with
  | none => exact accesses_push h ▸ .nil
  | some e => exact exprCode_tells e h hvars

end

-- =============================================================== pieces

/-- What is known of a piece of a program with code: the names in it have
variables, the code accesses them one after the other, and the functions in
it were added to those there were. -/
structure Passes (fn : Option Span) (s s' : Emission) (code : List Instr)
    (xs : List Ident) (qs : List Passage) (after : Symbols → Symbols)
    (notes : Symbols → Notes) : Prop where
  symbols : s'.symbols = after s.symbols
  known : Known (notes s.symbols)
  functions : ∃ fs, s'.functions.toList = s.functions.toList ++ fs
    ∧ ∀ vars, Hold vars (notes s.symbols) →
      Tells vars fn (accesses code) xs ∧ List.Forall₂ (Told vars) fs qs

section

variable {s₁ : Emission} {fn : Option Span} {l r code' : List Instr}
  {xs ys : List Ident} {qs rs : List Passage}
  {after after' : Symbols → Symbols} {notes notes' : Symbols → Notes}

/-- Nothing but names in use. -/
theorem Passes.of_steady (hsteady : Steady s s')
    (hknown : Known (notes s.symbols))
    (htells : ∀ vars, Hold vars (notes s.symbols) →
      Tells vars fn (accesses code) xs) :
    Passes fn s s' code xs [] id notes where
  symbols := hsteady.symbols
  known := hknown
  functions := by
    refine ⟨[], ?_, fun vars hvars => ⟨htells vars hvars, .nil⟩⟩
    rw [hsteady.functions, List.append_nil]

theorem Passes.nothing (s : Emission) :
    Passes fn s s [] [] [] id (fun _ => []) :=
  .of_steady (.refl s) .nil fun _ _ => .nil

theorem Passes.append (h : Passes fn s s₁ l xs qs after notes)
    (h' : Passes fn s₁ s' r ys rs after' notes') :
    Passes fn s s' (l ++ r) (xs ++ ys) (qs ++ rs)
      (fun t => after' (after t))
      (fun t => notes t ++ notes' (after t)) where
  symbols := by rw [h'.symbols, h.symbols]
  known := h.known.append (h.symbols ▸ h'.known)
  functions := by
    obtain ⟨fs, hfs, htells⟩ := h.functions
    obtain ⟨gs, hgs, htells'⟩ := h'.functions
    refine ⟨fs ++ gs, ?_, fun vars hvars => ?_⟩
    · rw [hgs, hfs, List.append_assoc]
    · obtain ⟨hl, hqs⟩ := htells vars hvars.left
      obtain ⟨hr, hrs⟩ := htells' vars (h.symbols ▸ hvars.right)
      rw [accesses_append]
      exact ⟨hl.append hr, List.rel_append hqs hrs⟩

/-- Instructions that access no variable make no difference. -/
theorem Passes.recode (h : Passes fn s s' code xs qs after notes)
    (hcode : accesses code' = accesses code) :
    Passes fn s s' code' xs qs after notes where
  symbols := h.symbols
  known := h.known
  functions := by
    rw [hcode]
    exact h.functions

/-- Nor does what is done to the emission beside symbols and functions. -/
theorem Passes.since (h : Passes fn s₁ s' code xs qs after notes)
    (hsteady : Steady s s₁) : Passes fn s s' code xs qs after notes := by
  obtain ⟨hsymbols, hknown, hfunctions⟩ := h
  rw [hsteady.symbols] at hsymbols hknown hfunctions
  rw [hsteady.functions] at hfunctions
  exact ⟨hsymbols, hknown, hfunctions⟩

theorem expr_passes {e : Expr} (hfn : fn.isSome = !s.symbols.inMain)
    (h : exprCode start e s = .ok code s') :
    Passes fn s s' code e.accessed [] id
      (fun t => e.used.map (useNote fn t)) :=
  .of_steady (exprCode_ok e h).steady
    (known_uses (exprCode_resolves e h) hfn)
    fun _ hvars => exprCode_tells e h hvars

/-- Behind an expression, the function is the same. -/
theorem same_function {e : Expr} (hfn : fn.isSome = !s.symbols.inMain)
    (h : exprCode start e s = .ok code s') :
    fn.isSome = !s'.symbols.inMain := by
  rw [(exprCode_ok e h).steady.symbols]
  exact hfn

theorem optional_passes {e : Option Expr}
    (hfn : fn.isSome = !s.symbols.inMain)
    (h : optionalCode start e s = .ok code s') :
    Passes fn s s' code (optionalAccessed e) [] id
      (fun t => (optionalUsed e).map (useNote fn t)) :=
  .of_steady (optionalCode_ok h).steady
    (known_uses (optionalCode_resolves h) hfn)
    fun _ hvars => optionalCode_tells h hvars

/-- Binding a name that is declared. -/
theorem accesses_declared {x : Ident} {symbol : Symbol}
    (h : Code.declare x.name s = .ok symbol s') :
    accesses (store symbol) = [(s.symbols.declare x.name).1] := by
  obtain ⟨rfl, -⟩ := declare_ok h
  exact accesses_store (symbol_ne_captured s.symbols x.name)

end

-- ============================================================= functions

/-- Filling a place in the middle of a list. -/
theorem modify_middle {α : Type} (l : List α) (a : α) (m : List α)
    (f : α → α) : (l ++ a :: m).modify l.length f = l ++ f a :: m := by
  induction l with
  | nil => rfl
  | cons b l ih => exact congrArg (b :: ·) ih

/-- What is known of a function with code: only its place was filled, and
the functions in it were added behind the others. -/
structure FnPasses (s s' : Emission) (index : Nat) (d : FnDecl) :
    Prop where
  symbols : s'.symbols = s.symbols
  known : Known (d.notes s.symbols)
  functions : ∀ l f m, s.functions.toList = l ++ f :: m →
    l.length = index → ∃ g fs, s'.functions.toList = l ++ g :: (m ++ fs)
      ∧ ∀ vars, Hold vars (d.notes s.symbols) →
        Told vars g d.passage ∧ List.Forall₂ (Told vars) fs d.inner

/-- Parameters change the symbol table and nothing else. -/
theorem params_passes {params : List Ident}
    (h : (params.forM fun p => discard (Code.declare p.name) : Emit Unit) s =
      .ok u s') :
    s' = { s with symbols := declareAll s.symbols params } := by
  induction params generalizing s with
  | nil =>
      obtain ⟨-, rfl⟩ := pure_ok.1 h
      rfl
  | cons p params ih => exact ih (declareParams_cons h)

/-- A function leaves the table as it was, if its body goes through. -/
theorem function_passes {d : FnDecl} {index : Nat}
    (hbody : ∀ {start s code s'},
      (some d.name.span).isSome = !s.symbols.inMain →
        statementCode start false false d.body.statements s =
          .ok code s' → Passes (some d.name.span) s s' code
            (stmtsAccessed d.body.statements)
            (stmtsInner d.body.statements)
            (stmtsAfter · d.body.statements)
            (stmtsNotes (some d.name.span) · d.body.statements))
    (h : functionCode index d s = .ok u s') : FnPasses s s' index d := by
  obtain ⟨s₂, s₃, s₄, code, result, hparams, hcode, hresult, hfill⟩ :=
    functionCode_steps h
  obtain ⟨name, params, ⟨statements, bodySpan⟩, span⟩ := d
  obtain rfl := (modify_ok.1 hfill).symm
  have hdeclared := params_passes hparams
  have hs₂ : s₂.symbols = declareAll s.symbols.openFrame params :=
    congrArg (·.symbols) hdeclared
  have hfunctions₂ : s₂.functions = s.functions :=
    congrArg (·.functions) hdeclared
  have hgrows := declareAll_grows s.symbols.openFrame params
  have hin : (some name.span).isSome = !s₂.symbols.inMain := by
    rw [hs₂, hgrows.inMain]
    rfl
  obtain ⟨hs₃, hknown, fs, hfs, htells⟩ := hbody hin hcode
  have hsteady := (push_ok hresult).1
  rw [hs₂] at hs₃ hknown htells
  refine ⟨?_, .append (known_makes rfl) hknown, fun l f m hsplit hl => ?_⟩
  · show s₄.symbols.closeFrame.2 = s.symbols
    rw [hsteady.symbols, hs₃]
    exact (hgrows.trans (stmtsAfter_grows statements _)).closeFrame
  · have hbefore : s₄.functions.toList = l ++ f :: (m ++ fs) := by
      rw [hsteady.functions, hfs, hfunctions₂]
      show s.functions.toList ++ fs = _
      rw [hsplit, List.append_assoc]
      rfl
    refine ⟨{ f with
      locals := s₄.symbols.closeFrame.1
      code := code ++ result ++ [.leave] }, fs, ?_, fun vars hvars => ?_⟩
    · show (s₄.functions.modify index _).toList = _
      rw [Array.toList_modify, hbefore, ← hl, modify_middle]
    · obtain ⟨hcodeTells, hinner⟩ := htells vars hvars.right
      refine ⟨?_, hinner⟩
      unfold Told
      rw [accesses_append, accesses_append, accesses_push hresult,
        accesses_cons rfl, accesses_nil, List.append_nil, List.append_nil]
      exact hcodeTells

/-- A function that is declared: it is bound to its name, and its place is
the one behind all others. -/
theorem declared_passes {d : FnDecl} {fn : Option Span}
    (hd : ∀ {index : Nat} {s s' : Emission} {u : Unit},
      functionCode index d s = .ok u s' → FnPasses s s' index d)
    (hfn : fn.isSome = !s.symbols.inMain)
    (h : stmtCode start (.function d) s = .ok code s') :
    Passes fn s s' code [d.name] (d.passage :: d.inner)
      (fun t => (t.declare d.name.name).2)
      (fun t => makeNote fn t d.name
        :: d.notes (t.declare d.name.name).2) := by
  obtain ⟨symbol, s₁, hdeclare, h₁⟩ := bind_ok.1 h
  obtain ⟨index, s₂, hreserve, h₂⟩ := bind_ok.1 h₁
  obtain ⟨u, s₃, hbody, hcode⟩ := bind_ok.1 h₂
  obtain ⟨rfl, rfl⟩ := pure_ok.1 hcode
  have hstore := accesses_declared hdeclare
  obtain ⟨-, rfl⟩ := declare_ok hdeclare
  obtain ⟨rfl, rfl⟩ := Prod.mk.inj (modifyGet_ok.1 hreserve)
  obtain ⟨hs₃, hknown, hfunctions⟩ := hd hbody
  refine ⟨hs₃, .cons (known_make d.name hfn) hknown, ?_⟩
  obtain ⟨g, fs, hs', htold⟩ := hfunctions s.functions.toList _ []
    Array.toList_push Array.length_toList
  refine ⟨g :: fs, hs', fun vars hvars => ?_⟩
  obtain ⟨hname, hnotes⟩ := List.forall_mem_cons.1 hvars
  obtain ⟨hg, hinner⟩ := htold vars hnotes
  unfold bindFunction
  rw [accesses_cons rfl, hstore]
  exact ⟨.make hname, .cons hg hinner⟩

/-- A variable that is declared: the names in its value come first. -/
theorem variable_passes {span : Span} {x : Ident} {init : Option Expr}
    {fn : Option Span} (hfn : fn.isSome = !s.symbols.inMain)
    (h : stmtCode start (.declare span x init) s = .ok code s') :
    Passes fn s s' code (optionalAccessed init ++ [x]) []
      (fun t => (t.declare x.name).2)
      (fun t => makeNote fn t x
        :: (optionalUsed init).map (useNote fn t)) := by
  obtain ⟨value, s₁, hvalue, hrest⟩ := bind_ok.1 h
  obtain ⟨symbol, s₂, hdeclare, hcode⟩ := bind_ok.1 hrest
  obtain ⟨rfl, rfl⟩ := pure_ok.1 hcode
  obtain ⟨hs₁, hinit, fs, hfs, htells⟩ := optional_passes hfn hvalue
  have hstore := accesses_declared hdeclare
  obtain ⟨-, rfl⟩ := declare_ok hdeclare
  have hs₁ : s₁.symbols = s.symbols := hs₁
  rw [hs₁] at hstore ⊢
  refine ⟨rfl, .cons (known_make x hfn) hinit, fs, hfs, fun vars hvars => ?_⟩
  obtain ⟨hname, hnotes⟩ := List.forall_mem_cons.1 hvars
  obtain ⟨hvalue, hinner⟩ := htells vars hnotes
  rw [accesses_append, hstore]
  exact ⟨hvalue.append (.make hname), hinner⟩

-- ============================================================ statements

mutual

/-- The compiler passes a statement as the notes say. -/
theorem stmtCode_passes : ∀ (t : Stmt) {fn : Option Span} {start : Nat}
    {s s' : Emission} {code : List Instr},
      fn.isSome = !s.symbols.inMain → stmtCode start t s = .ok code s' →
        Passes fn s s' code t.accessed t.inner t.after (t.notes fn)
  | .declare _ x init, _, _, _, _, _, hfn, h => variable_passes hfn h
  | .function d, _, _, _, _, _, hfn, h =>
      declared_passes (fun h => functionCode_passes d h) hfn h
  | .expression _ e, _, _, _, _, _, hfn, h => by
      obtain ⟨value, s₁, hvalue, hcode⟩ := bind_ok.1 h
      obtain ⟨rfl, rfl⟩ := pure_ok.1 hcode
      refine (expr_passes hfn hvalue).recode ?_
      rw [accesses_append, accesses_cons rfl, accesses_nil, List.append_nil]
  | .block b, _, _, _, _, _, hfn, h => blockCode_passes b hfn h
  | .branch _ cond b none, _, _, _, _, _, hfn, h => by
      obtain ⟨test, s₁, htest, hrest⟩ := bind_ok.1 h
      obtain ⟨yes, s₂, hyes, hcode⟩ := bind_ok.1 hrest
      obtain ⟨rfl, rfl⟩ := pure_ok.1 hcode
      have hcond := expr_passes hfn htest
      have hb := blockCode_passes b (same_function hfn htest) hyes
      refine (hcond.append (hb.append (.nothing _))).recode ?_
      rw [accesses_append, accesses_append, accesses_append,
        accesses_cons rfl, accesses_nil, List.append_nil]
  | .branch _ cond b (some t), fn, _, s, _, _, hfn, h => by
      obtain ⟨test, s₁, htest, hrest⟩ := bind_ok.1 h
      obtain ⟨yes, s₂, hyes, hrest'⟩ := bind_ok.1 hrest
      obtain ⟨no, s₃, hno, hcode⟩ := bind_ok.1 hrest'
      obtain ⟨rfl, rfl⟩ := pure_ok.1 hcode
      have hcond := expr_passes hfn htest
      have hfn₁ := same_function hfn htest
      have hb := blockCode_passes b hfn₁ hyes
      have hfn₂ : fn.isSome = !s₂.symbols.inMain := by
        rw [hb.symbols, (b.after_grows s₁.symbols).inMain]
        exact hfn₁
      have ht := stmtCode_passes t hfn₂ hno
      refine (hcond.append (hb.append ht)).recode ?_
      rw [List.append_assoc, accesses_append, List.cons_append,
        accesses_cons rfl, accesses_append, accesses_cons rfl,
        accesses_append, accesses_append]
  | .loop _ cond b, _, _, _, _, _, hfn, h => by
      obtain ⟨test, s₁, htest, hrest⟩ := bind_ok.1 h
      obtain ⟨body, s₂, hbody, hcode⟩ := bind_ok.1 hrest
      obtain ⟨rfl, rfl⟩ := pure_ok.1 hcode
      have hcond := expr_passes hfn htest
      have hb := blockCode_passes b (same_function hfn htest) hbody
      refine (hcond.append hb).recode ?_
      rw [accesses_append, accesses_append, accesses_append,
        accesses_cons rfl, accesses_cons rfl, accesses_nil, List.append_nil]
  | .giveBack _ value, _, _, _, _, _, hfn, h => by
      obtain ⟨result, s₁, hresult, hcode⟩ := bind_ok.1 h
      obtain ⟨rfl, rfl⟩ := pure_ok.1 hcode
      refine (optional_passes hfn hresult).recode ?_
      rw [accesses_append, accesses_cons rfl, accesses_nil, List.append_nil]
  | .print _ e, _, _, _, _, _, hfn, h => by
      obtain ⟨value, s₁, hvalue, hcode⟩ := bind_ok.1 h
      obtain ⟨rfl, rfl⟩ := pure_ok.1 hcode
      refine (expr_passes hfn hvalue).recode ?_
      rw [accesses_append, accesses_cons rfl, accesses_nil, List.append_nil]
  | .empty _, _, _, _, _, _, _, h => by
      obtain ⟨rfl, rfl⟩ := pure_ok.1 h
      exact .nothing _

theorem blockCode_passes : ∀ (b : Block) {fn : Option Span} {start : Nat}
    {s s' : Emission} {code : List Instr},
      fn.isSome = !s.symbols.inMain → blockCode start b s = .ok code s' →
        Passes fn s s' code b.accessed b.inner b.after (b.notes fn)
  | ⟨ts, _⟩, fn, _, s, _, _, hfn, h => by
      obtain ⟨s₁, hmade, rfl⟩ := blockCode_steps h
      have hfn₁ : fn.isSome = !s.symbols.openBlock.inMain := by
        rw [hfn]
        obtain ⟨⟨_ | ⟨frame, frames⟩, main⟩, _, _, _⟩ := s <;> rfl
      obtain ⟨hs₂, hknown, hfunctions⟩ := statementCode_passes ts hfn₁ hmade
      exact ⟨congrArg Symbols.closeBlock hs₂, hknown, hfunctions⟩

theorem functionCode_passes : ∀ (d : FnDecl) {index : Nat}
    {s s' : Emission} {u : Unit}, functionCode index d s = .ok u s' →
      FnPasses s s' index d
  | ⟨_, _, ⟨ts, _⟩, _⟩, _, _, _, _, h =>
      function_passes (fun hin hcode => statementCode_passes ts hin hcode) h

theorem statementCode_passes : ∀ (ts : List Stmt) {fn : Option Span}
    {start : Nat} {returned warned : Bool} {s s' : Emission}
    {code : List Instr}, fn.isSome = !s.symbols.inMain →
      statementCode start returned warned ts s = .ok code s' →
        Passes fn s s' code (stmtsAccessed ts) (stmtsInner ts)
          (stmtsAfter · ts) (stmtsNotes fn · ts)
  | [], _, _, _, _, _, _, _, _, h => by
      obtain ⟨rfl, rfl⟩ := pure_ok.1 h
      exact .nothing _
  | t :: ts, fn, start, returned, warned, s, s', code, hfn, h => by
      obtain ⟨_, _, s₂, first, rest, hsteady, hfirst, hrest, rfl⟩ :=
        statementCode_cons h
      have ht := (stmtCode_passes t (hsteady.symbols.symm ▸ hfn)
        hfirst).since hsteady
      have hfn₂ : fn.isSome = !s₂.symbols.inMain := by
        rw [ht.symbols, (t.after_grows s.symbols).inMain]
        exact hfn
      exact ht.append (statementCode_passes ts hfn₂ hrest)

end

-- ============================================================== programs

/-- The functions at the top are declared in front of everything. -/
theorem hoist_passes {ds : List FnDecl} {bodies : List (Nat × FnDecl)}
    (h : hoist ds s = .ok (code, bodies) s') :
    s'.symbols = declareAll s.symbols (ds.map (·.name))
      ∧ bodies.map (·.2) = ds := by
  induction ds generalizing s code bodies with
  | nil =>
      obtain ⟨hcode, rfl⟩ := pure_ok.1 h
      obtain ⟨-, rfl⟩ := Prod.mk.inj hcode
      exact ⟨rfl, rfl⟩
  | cons d ds ih =>
      obtain ⟨x, s₁, hdeclare, h₁⟩ := bind_ok.1 h
      obtain ⟨place, s₂, hreserve, h₂⟩ := bind_ok.1 h₁
      obtain ⟨made, s₃, hrest, hcode⟩ := bind_ok.1 h₂
      obtain ⟨code', bodies'⟩ := made
      obtain ⟨hpair, rfl⟩ := pure_ok.1 hcode
      obtain ⟨-, rfl⟩ := Prod.mk.inj hpair
      obtain ⟨-, rfl⟩ := declare_ok hdeclare
      obtain ⟨-, rfl⟩ := Prod.mk.inj (modifyGet_ok.1 hreserve)
      obtain ⟨hs₃, hbodies⟩ := ih hrest
      exact ⟨hs₃, congrArg (d :: ·) hbodies⟩

/-- They have the next places, one after the other, and their names are
bound in this order. -/
theorem hoist_places (fn : Option Span) {ds : List FnDecl}
    {bodies : List (Nat × FnDecl)}
    (h : hoist ds s = .ok (code, bodies) s') :
    ∃ fs, s'.functions.toList = s.functions.toList ++ fs
      ∧ fs.length = bodies.length
      ∧ bodies.map (·.1) = List.range' s.functions.size bodies.length
      ∧ ∀ vars, Hold vars (makeNotes fn s.symbols (ds.map (·.name))) →
        Tells vars fn (accesses code) (ds.map (·.name)) := by
  induction ds generalizing s code bodies with
  | nil =>
      obtain ⟨hcode, rfl⟩ := pure_ok.1 h
      obtain ⟨rfl, rfl⟩ := Prod.mk.inj hcode
      exact ⟨[], (List.append_nil _).symm, rfl, rfl, fun _ _ => .nil⟩
  | cons d ds ih =>
      obtain ⟨x, s₁, hdeclare, h₁⟩ := bind_ok.1 h
      obtain ⟨place, s₂, hreserve, h₂⟩ := bind_ok.1 h₁
      obtain ⟨made, s₃, hrest, hcode⟩ := bind_ok.1 h₂
      obtain ⟨code', bodies'⟩ := made
      obtain ⟨hpair, rfl⟩ := pure_ok.1 hcode
      obtain ⟨rfl, rfl⟩ := Prod.mk.inj hpair
      have hstore := accesses_declared (x := d.name) hdeclare
      obtain ⟨-, rfl⟩ := declare_ok hdeclare
      obtain ⟨rfl, rfl⟩ := Prod.mk.inj (modifyGet_ok.1 hreserve)
      obtain ⟨fs, hfs, hlength, hplaces, htells⟩ := ih hrest
      refine ⟨⟨d.name.name, d.params.length, [], []⟩ :: fs, ?_,
        congrArg (· + 1) hlength, ?_, fun vars hvars => ?_⟩
      · rw [hfs, Array.toList_push, List.append_assoc]
        rfl
      · rw [List.map_cons, hplaces, Array.size_push]
        rfl
      · obtain ⟨hname, hnames⟩ := List.forall_mem_cons.1 hvars
        have hrest := htells vars hnames
        rw [accesses_append, bindFunction, accesses_cons rfl, hstore]
        exact Tells.append (.make hname) hrest

theorem topLevelCode_passes {ts : List Stmt}
    (hmain : s.symbols.inMain = true)
    (h : topLevelCode start ts s = .ok code s') :
    Passes none s s' code (stmtsAccessed (otherStatements ts))
      (stmtsInner (otherStatements ts)) (stmtsAfter · (otherStatements ts))
      (stmtsNotes none · (otherStatements ts)) := by
  induction ts generalizing s start code with
  | nil =>
      refine .of_steady (push_ok h).1 .nil fun vars _ => ?_
      rw [accesses_push h]
      exact .nil
  | cons t ts ih =>
      have hfn : (none : Option Span).isSome = !s.symbols.inMain := by
        rw [hmain]
        rfl
      rcases topLevelCode_cons h with ⟨d, rfl, hrest⟩
        | ⟨span, e, rfl, rfl, he⟩
        | ⟨hother, -, s₁, first, rest, hfirst, hrest, rfl⟩
      · exact ih hmain hrest
      · refine ((expr_passes hfn he).append (.nothing s')).recode ?_
        rw [List.append_nil]
      · have ht := stmtCode_passes t hfn hfirst
        have hmain₁ : s₁.symbols.inMain = true := by
          rw [ht.symbols, (t.after_grows s.symbols).inMain]
          exact hmain
        rw [otherStatements_cons hother]
        exact ht.append (ih hmain₁ hrest)

/-- The functions at the top fill their places one after the other, each
with the functions in it behind all that there were before. -/
theorem bodies_passes {bodies : List (Nat × FnDecl)}
    (h : (bodies.forM fun (index, d) => functionCode index d : Emit Unit) s =
      .ok u s') :
    s'.symbols = s.symbols
      ∧ Known ((bodies.map (·.2)).flatMap (FnDecl.notes s.symbols))
      ∧ ∀ l fs m, s.functions.toList = l ++ (fs ++ m) →
        fs.length = bodies.length →
          bodies.map (·.1) = List.range' l.length bodies.length →
            ∃ gs hs, s'.functions.toList = l ++ (gs ++ (m ++ hs))
              ∧ ∀ vars, Hold vars ((bodies.map (·.2)).flatMap
                  (FnDecl.notes s.symbols)) →
                List.Forall₂ (Told vars) gs
                    ((bodies.map (·.2)).map FnDecl.passage)
                  ∧ List.Forall₂ (Told vars) hs
                    ((bodies.map (·.2)).flatMap FnDecl.inner) := by
  induction bodies generalizing s with
  | nil =>
      obtain ⟨-, rfl⟩ := pure_ok.1 h
      refine ⟨rfl, .nil, fun l fs m hsplit hlength _ => ?_⟩
      obtain rfl := List.eq_nil_of_length_eq_zero hlength
      exact ⟨[], [], by rw [hsplit, List.append_nil],
        fun _ _ => ⟨.nil, .nil⟩⟩
  | cons b bodies ih =>
      obtain ⟨index, d⟩ := b
      obtain ⟨u', s₁, hfirst, hrest⟩ := bind_ok.1 h
      obtain ⟨hs₁, hd, hfunctions⟩ := functionCode_passes d hfirst
      obtain ⟨hs', hds, hall⟩ := ih hrest
      rw [hs₁] at hs' hds hall
      refine ⟨hs', .append hd hds, fun l fs m hsplit hlength hplaces => ?_⟩
      obtain _ | ⟨f, fs⟩ := fs
      · cases hlength
      obtain ⟨hindex, hplaces⟩ := List.cons.inj hplaces
      obtain ⟨g, ks, hs₁', htold⟩ := hfunctions l f (fs ++ m) hsplit
        hindex.symm
      obtain ⟨gs, hs, hs'', hrest⟩ := hall (l ++ [g]) fs (m ++ ks)
        (by rw [hs₁', List.append_assoc, List.append_assoc]; rfl)
        (Nat.succ.inj hlength) (by rw [List.length_append]; exact hplaces)
      refine ⟨g :: gs, ks ++ hs, ?_, fun vars hvars => ?_⟩
      · rw [hs'', List.append_assoc, List.append_assoc]
        rfl
      · obtain ⟨hg, hks⟩ := htold vars hvars.left
        obtain ⟨hgs, hhs⟩ := hrest vars hvars.right
        exact ⟨.cons hg hgs, List.rel_append hks hhs⟩

/-- A program with code is passed as its notes say, all its names have
their variables, and these are the ones that its code accesses. -/
theorem programCode_passes {p : Program}
    (h : programCode p .start = .ok u s') :
    s'.symbols = p.final ∧ Known p.notes
      ∧ ∀ vars, Hold vars p.notes →
        List.Forall₂ (Told vars) s'.functions.toList p.passages := by
  obtain ⟨⟨bound, bodies⟩, s₁, hhoist, h₁⟩ := bind_ok.1 h
  obtain ⟨code, s₂, hcode, h₂⟩ := bind_ok.1 h₁
  obtain ⟨u₃, s₃, hfill, hbodies⟩ := bind_ok.1 h₂
  obtain ⟨hs₁, hds⟩ := hoist_passes hhoist
  obtain ⟨fs, hfs, hlength, hplaces, hbound⟩ := hoist_places none hhoist
  have hs₁' : s₁.symbols = p.hoisted := hs₁
  have hmain : s₁.symbols.inMain = true := by
    rw [hs₁', Program.hoisted, (declareAll_grows .empty _).inMain]
    rfl
  obtain ⟨hs₂, hknown, m, hm, htop⟩ := topLevelCode_passes hmain hcode
  rw [hs₁'] at hs₂ hknown htop
  obtain rfl := (modify_ok.1 hfill).symm
  obtain ⟨hs', hfunctions, hall⟩ := bodies_passes hbodies
  have hfinal : s₂.symbols = p.final := hs₂
  rw [hds] at hfunctions hall
  dsimp only at hs' hfunctions hall
  rw [hfinal] at hs' hfunctions hall
  -- The main function has the first place.
  let filled : Function := ⟨mainName, 0, [], bound ++ code ++ [.leave]⟩
  have hplaced : (s₂.functions.modify 0 fun f =>
      { f with locals := [], code := bound ++ code ++ [.leave] }).toList =
        [filled] ++ (fs ++ m) := by
    rw [Array.toList_modify, hm, hfs]
    rfl
  obtain ⟨gs, hs, hsplit, htold⟩ := hall [filled] fs m hplaced hlength hplaces
  refine ⟨hs', .append (known_makes rfl) (.append hknown hfunctions),
    fun vars hvars => ?_⟩
  obtain ⟨htopTells, hinner⟩ := htop vars hvars.right.left
  obtain ⟨hgs, hhs⟩ := htold vars hvars.right.right
  rw [hsplit]
  refine .cons ?_ (List.rel_append hgs (List.rel_append hinner hhs))
  show Tells vars none (accesses (bound ++ code ++ [.leave])) _
  rw [accesses_append, accesses_append, accesses_cons rfl, accesses_nil,
    List.append_nil]
  exact (hbound vars hvars.left).append htopTells

end Code

end Script
