/-
The code that is made for a tree is code of that tree, wherever it ends
up. Each piece of code is made at a state of the emission and looks up
names there; what is said of it holds for every finished program that the
state behind it fits. The code of expressions leaves the names alone, that
of statements lets them grow.
-/
import Script.Code.Emit
import Script.Proofs.Action
import Script.Proofs.Stack.Layout

namespace Script.Stack

open Code Script.Action

-- ================================================================ places

/-- Whether code stands at a place of a function. -/
def At (full : List Instr) (start : Nat) (code : List Instr) : Prop :=
  ∀ k, k < code.length → full[start + k]? = code[k]?

namespace At

variable {full code l r : List Instr} {start place : Nat} {instr : Instr}

theorem left (h : At full start (l ++ r)) : At full start l := by
  intro k hk
  rw [h k (by rw [List.length_append]; omega),
    List.getElem?_append_left hk]

theorem right (h : At full start (l ++ r)) :
    At full (start + l.length) r := by
  intro k hk
  rw [Nat.add_assoc, h _ (by rw [List.length_append]; omega),
    List.getElem?_append_right (Nat.le_add_right ..),
    Nat.add_sub_cancel_left]

theorem tail (h : At full start (instr :: code)) :
    At full (start + 1) code :=
  right (l := [instr]) h

theorem head (h : At full start (instr :: code)) (hplace : place = start) :
    full[place]? = some instr := by
  subst hplace
  exact h 0 (Nat.succ_pos _)

theorem cast (h : At full start code) (hplace : place = start) :
    At full place code :=
  hplace ▸ h

theorem all (full : List Instr) : At full 0 full := fun k _ => by
  rw [Nat.zero_add]

end At

-- =============================================================== pieces

/-- What stays as it is while the code of an expression is made. -/
structure Steady (s s' : Emission) : Prop where
  symbols : s'.symbols = s.symbols
  functions : s'.functions = s.functions
  constants : s.constants.toList <+: s'.constants.toList

theorem Steady.refl (s : Emission) : Steady s s :=
  ⟨rfl, rfl, List.prefix_refl _⟩

theorem Steady.trans {s s' s'' : Emission} (h : Steady s s')
    (h' : Steady s' s'') : Steady s s'' :=
  ⟨h'.symbols.trans h.symbols, h'.functions.trans h.functions,
    h.constants.trans h'.constants⟩

variable {s s' s₁ : Emission} {code : List Instr} {start : Nat}
  {constants : List Constant} {roots : Names} {limit : Nat}
  {full : List Instr}

theorem push_ok {k : Constant} (h : push k s = .ok code s') :
    Steady s s' ∧ ∃ index, code = [.pushConst index]
      ∧ s'.constants.toList[index]? = some k := by
  have hpush := modifyGet_ok.1 h
  split at hpush
  case h_1 index hindex =>
      obtain ⟨rfl, rfl⟩ := Prod.mk.inj hpush
      rw [Array.idxOf?_eq_map_finIdxOf?_val] at hindex
      obtain ⟨n, hn, rfl⟩ := Option.map_eq_some_iff.1 hindex
      refine ⟨.refl s, n, rfl, ?_⟩
      rw [Array.getElem?_toList, Array.getElem?_eq_getElem n.isLt]
      exact congrArg some (Array.finIdxOf?_eq_some_iff.1 hn).1
  case h_2 =>
      obtain ⟨rfl, rfl⟩ := Prod.mk.inj hpush
      refine ⟨⟨rfl, rfl, ?_⟩, _, rfl, ?_⟩
      · rw [Array.toList_push]
        exact List.prefix_append ..
      · rw [Array.toList_push, ← Array.length_toList]
        exact List.getElem?_concat_length ..

/-- A constant that was pushed is pushed in the finished program. -/
theorem pushAt {index : Nat} {k : Constant}
    (hindex : s'.constants.toList[index]? = some k)
    (hconstants : s'.constants.toList <+: constants) {place : Nat}
    (h : full[place]? = some (.pushConst index)) :
    PushAt constants full place k := by
  obtain ⟨r, rfl⟩ := hconstants
  refine ⟨index, h, ?_⟩
  rw [List.getElem?_append_left (List.getElem?_eq_some_iff.1 hindex).1]
  exact hindex

theorem resolve_ok {name : String} {span : Span} {x : Symbol}
    (h : resolve name span s = .ok x s') :
    s' = s ∧ s.symbols.resolve? name = some x ∧ x ≠ .captured := by
  unfold resolve at h
  obtain ⟨s₁, s₂, hget, h⟩ := bind_ok.1 h
  obtain ⟨rfl, rfl⟩ := get_ok.1 hget
  cases hx : s.symbols.resolve? name with
  | none =>
      rw [hx] at h
      exact (throw_ok.1 h).elim
  | some y =>
      rw [hx] at h
      cases y with
      | captured => exact (throw_ok.1 h).elim
      | _ =>
          obtain ⟨rfl, rfl⟩ := pure_ok.1 h
          exact ⟨rfl, rfl, nofun⟩

theorem refuseAny_ok {span : Span} {f : Option OperandFault} {u : Unit}
    (h : refuseAny span f s = .ok u s') : s' = s := by
  cases f with
  | none => exact (pure_ok.1 h).2.symm
  | some f => exact (throw_ok.1 h).elim

theorem declare_ok {name : String} {x : Symbol}
    (h : Code.declare name s = .ok x s') :
    x = (s.symbols.declare name).1
      ∧ s' = { s with symbols := (s.symbols.declare name).2 } := by
  have hdeclare := modifyGet_ok.1 h
  obtain ⟨rfl, rfl⟩ := Prod.mk.inj hdeclare
  exact ⟨rfl, rfl⟩

/-- The steps in which the code of a call is made. -/
theorem callCode_steps {span : Span} {callee : Expr} {args : List Expr}
    (h : exprCode start (.call span callee args) s = .ok code s') :
    ∃ s₁ function arguments, exprCode start callee s = .ok function s₁
      ∧ argumentCode (start + function.length) args s₁ = .ok arguments s'
      ∧ code = function ++ arguments ++ [.call args.length] := by
  unfold exprCode at h
  split at h
  case isTrue =>
      obtain ⟨u, s₁, hrefuse, -⟩ := bind_ok.1 h
      exact (throw_ok.1 hrefuse).elim
  case isFalse =>
      obtain ⟨function, s₁, hf, hrest⟩ := bind_ok.1 h
      obtain ⟨arguments, s₂, has, hcode⟩ := bind_ok.1 hrest
      obtain ⟨rfl, rfl⟩ := pure_ok.1 hcode
      exact ⟨s₁, function, arguments, hf, has, rfl⟩

theorem load_eq {x : Symbol} (hx : x ≠ .captured) :
    ∃ instr, load x = [instr] ∧ IsLoad x instr := by
  cases x with
  | global slot => exact ⟨_, rfl, .global slot⟩
  | own slot => exact ⟨_, rfl, .own slot⟩
  | captured => exact (hx rfl).elim

theorem store_eq {x : Symbol} (hx : x ≠ .captured) :
    ∃ instr, store x = [instr] ∧ IsStore x instr := by
  cases x with
  | global slot => exact ⟨_, rfl, .global slot⟩
  | own slot => exact ⟨_, rfl, .own slot⟩
  | captured => exact (hx rfl).elim

-- ========================================================== expressions

/-- What is known of the code of an expression. -/
structure MakesExpr (s s' : Emission) (start : Nat) (e : Expr)
    (code : List Instr) : Prop where
  steady : Steady s s'
  placed : ∀ {constants roots limit full},
    s'.constants.toList <+: constants → s.symbols.Fits roots limit →
      At full start code → ExprAt constants roots full
        (s.symbols.site limit) start e (start + code.length)

/-- What is known of the code of the arguments of a call. -/
structure MakesExprs (s s' : Emission) (start : Nat) (es : List Expr)
    (code : List Instr) : Prop where
  steady : Steady s s'
  placed : ∀ {constants roots limit full},
    s'.constants.toList <+: constants → s.symbols.Fits roots limit →
      At full start code → ExprsAt constants roots full
        (s.symbols.site limit) start es (start + code.length)

theorem ExprAt.cast {site : Site} {e : Expr} {i j k : Nat}
    (h : ExprAt constants roots full site i e j) (hk : k = j) :
    ExprAt constants roots full site i e k :=
  hk ▸ h

section

variable {e : Expr} {span : Span}

/-- Code that is made later is known from an earlier moment on. -/
theorem MakesExpr.since (h : MakesExpr s₁ s' start e code)
    (hsteady : Steady s s₁) : MakesExpr s s' start e code := by
  refine ⟨hsteady.trans h.steady, fun hconstants hfits hat => ?_⟩
  have he := h.placed hconstants (hsteady.symbols.symm ▸ hfits) hat
  rwa [hsteady.symbols] at he

theorem MakesExprs.since {es : List Expr}
    (h : MakesExprs s₁ s' start es code) (hsteady : Steady s s₁) :
    MakesExprs s s' start es code := by
  refine ⟨hsteady.trans h.steady, fun hconstants hfits hat => ?_⟩
  have hes := h.placed hconstants (hsteady.symbols.symm ▸ hfits) hat
  rwa [hsteady.symbols] at hes

theorem MakesExpr.push {k : Constant} (h : push k s = .ok code s')
    (hexpr : ∀ {constants roots full site},
      PushAt constants full start k →
        ExprAt constants roots full site start e (start + 1)) :
    MakesExpr s s' start e code := by
  obtain ⟨hsteady, index, rfl, hindex⟩ := push_ok h
  exact ⟨hsteady, fun hconstants _ hat =>
    hexpr (pushAt hindex hconstants (hat.head rfl))⟩

/-- The parts of an operator with two operands, each with its code. -/
theorem MakesExpr.strict {op : BinaryOp} {l r : Expr}
    (hop : op.isShortCircuit = false)
    (hl : ∀ {start s code s'}, exprCode start l s = .ok code s' →
      MakesExpr s s' start l code)
    (hr : ∀ {start s code s'}, exprCode start r s = .ok code s' →
      MakesExpr s s' start r code)
    (h : (do
      refuseAny span (binaryFault? op l r)
      let left ← exprCode start l
      let right ← exprCode (start + left.length) r
      return left ++ right ++ [.binary op] : Emit _) s = .ok code s') :
    MakesExpr s s' start (.binary span op l r) code := by
  obtain ⟨u, s₁, hrefuse, hrest⟩ := bind_ok.1 h
  obtain ⟨left, s₂, hleft, hrest'⟩ := bind_ok.1 hrest
  obtain ⟨right, s₃, hright, hcode⟩ := bind_ok.1 hrest'
  obtain ⟨rfl, rfl⟩ := pure_ok.1 hcode
  obtain rfl := refuseAny_ok hrefuse
  have hl' := hl hleft
  have hr' := (hr hright).since hl'.steady
  refine ⟨hr'.steady, fun hconstants hfits hat => ?_⟩
  refine .cast (.binary hop
    (hl'.placed ((hr hright).steady.constants.trans hconstants) hfits
      hat.left.left)
    (hr'.placed hconstants hfits hat.left.right)
    (hat.right.head ?_)) ?_
  · simp [Nat.add_assoc]
  · simp [Nat.add_assoc]

theorem MakesExpr.and {l r : Expr}
    (hl : ∀ {start s code s'}, exprCode start l s = .ok code s' →
      MakesExpr s s' start l code)
    (hr : ∀ {start s code s'}, exprCode start r s = .ok code s' →
      MakesExpr s s' start r code)
    (h : exprCode start (.binary span .and l r) s = .ok code s') :
    MakesExpr s s' start (.binary span .and l r) code := by
  obtain ⟨left, s₁, hleft, hrest⟩ := bind_ok.1 h
  obtain ⟨right, s₂, hright, hrest'⟩ := bind_ok.1 hrest
  obtain ⟨constant, s₃, hpush, hcode⟩ := bind_ok.1 hrest'
  obtain ⟨rfl, rfl⟩ := pure_ok.1 hcode
  obtain ⟨hsteady, index, rfl, hindex⟩ := push_ok hpush
  have hl' := hl hleft
  have hr' := (hr hright).since hl'.steady
  refine ⟨hr'.steady.trans hsteady, fun hconstants hfits hat => ?_⟩
  have hconstants₂ := hsteady.constants.trans hconstants
  have hbranch := hat.left.right
  have hskip := hat.right
  refine .cast (.and
    (hl'.placed ((hr hright).steady.constants.trans hconstants₂) hfits
      hat.left.left)
    (hbranch.head rfl)
    (hr'.placed hconstants₂ hfits hbranch.tail)
    (hskip.head ?_)
    (pushAt hindex hconstants (hskip.tail.head ?_))) ?_
  · simp; omega
  · simp; omega
  · simp; omega

theorem MakesExpr.or {l r : Expr}
    (hl : ∀ {start s code s'}, exprCode start l s = .ok code s' →
      MakesExpr s s' start l code)
    (hr : ∀ {start s code s'}, exprCode start r s = .ok code s' →
      MakesExpr s s' start r code)
    (h : exprCode start (.binary span .or l r) s = .ok code s') :
    MakesExpr s s' start (.binary span .or l r) code := by
  obtain ⟨left, s₁, hleft, hrest⟩ := bind_ok.1 h
  obtain ⟨constant, s₂, hpush, hrest'⟩ := bind_ok.1 hrest
  obtain ⟨right, s₃, hright, hcode⟩ := bind_ok.1 hrest'
  obtain ⟨rfl, rfl⟩ := pure_ok.1 hcode
  obtain ⟨hsteady, index, rfl, hindex⟩ := push_ok hpush
  have hl' := hl hleft
  have hr' := (hr hright).since (hl'.steady.trans hsteady)
  refine ⟨hr'.steady, fun hconstants hfits hat => ?_⟩
  have hconstants₂ := (hr hright).steady.constants.trans hconstants
  have hbranch := hat.left.right
  have hskip := hat.right
  refine .cast (.or
    (hl'.placed (hsteady.constants.trans hconstants₂) hfits hat.left.left)
    (hbranch.head rfl)
    (pushAt hindex hconstants₂ (hbranch.tail.head rfl))
    (hskip.head ?_)
    (hr'.placed hconstants hfits (hskip.tail.cast ?_))) ?_
  · simp; omega
  · simp; omega
  · simp; omega

end

mutual

theorem exprCode_ok : ∀ (e : Expr) {start : Nat} {s s' : Emission}
    {code : List Instr}, exprCode start e s = .ok code s' →
      MakesExpr s s' start e code
  | .number _ _, _, _, _, _, h => .push h .number
  | .string span x, start, s, s', code, h => .push h .string
  | .bool _ _, _, _, _, _, h => .push h .bool
  | .nil _, _, _, _, _, h => .push h .nil
  | .ident span name, start, s, s', code, h => by
      obtain ⟨x, s₁, hresolve, h⟩ := bind_ok.1 h
      obtain ⟨rfl, rfl⟩ := pure_ok.1 h
      obtain ⟨rfl, hx, hx'⟩ := resolve_ok hresolve
      obtain ⟨instr, hcode, hload⟩ := load_eq hx'
      rw [hcode]
      exact ⟨.refl _, fun _ hfits hat =>
        .ident (hfits.variable hx hx') hload (hat.head rfl)⟩
  | .group span e, start, s, s', code, h => by
      have he := exprCode_ok e h
      exact ⟨he.steady, fun hconstants hfits hat =>
        .group (he.placed hconstants hfits hat)⟩
  | .unary span op e, start, s, s', code, h => by
      obtain ⟨u, s₁, hrefuse, hrest⟩ := bind_ok.1 h
      obtain ⟨operand, s₂, hmade, hcode⟩ := bind_ok.1 hrest
      obtain ⟨rfl, rfl⟩ := pure_ok.1 hcode
      obtain rfl := refuseAny_ok hrefuse
      have he := exprCode_ok e hmade
      refine ⟨he.steady, fun hconstants hfits hat => ?_⟩
      refine .cast (.unary (he.placed hconstants hfits hat.left)
        (hat.right.head rfl)) ?_
      rw [List.length_append]
      rfl
  | .binary span op l r, start, s, s', code, h => by
      have hl {start s code s'} := @exprCode_ok l start s s' code
      have hr {start s code s'} := @exprCode_ok r start s s' code
      cases op with
      | and => exact .and hl hr h
      | or => exact .or hl hr h
      | _ => exact .strict rfl hl hr h
  | .assign span target e, start, s, s', code, h => by
      obtain ⟨value, s₁, hmade, h⟩ := bind_ok.1 h
      obtain ⟨x, s₂, hresolve, h⟩ := bind_ok.1 h
      obtain ⟨rfl, rfl⟩ := pure_ok.1 h
      obtain ⟨rfl, hx, hx'⟩ := resolve_ok hresolve
      obtain ⟨save, hsave, hstore⟩ := store_eq hx'
      obtain ⟨fetch, hfetch, hload⟩ := load_eq hx'
      have he := exprCode_ok e hmade
      rw [he.steady.symbols] at hx
      rw [hsave, hfetch]
      refine ⟨he.steady, fun hconstants hfits hat => ?_⟩
      refine .cast (.assign (he.placed hconstants hfits hat.left.left)
        (hfits.variable hx hx') hstore (hat.left.right.head rfl) hload
        (hat.right.head ?_)) ?_
      · simp [Nat.add_assoc]
      · simp [Nat.add_assoc]
  | .call span callee args, start, s, s', code, h => by
      obtain ⟨s₁, function, arguments, hfunction, harguments, rfl⟩ :=
        callCode_steps h
      have hf := exprCode_ok callee hfunction
      have has := argumentCode_ok args harguments
      have has' := has.since hf.steady
      refine ⟨has'.steady, fun hconstants hfits hat => ?_⟩
      refine .cast (.call
        (hf.placed (has.steady.constants.trans hconstants) hfits
          hat.left.left)
        (has'.placed hconstants hfits hat.left.right)
        (hat.right.head ?_)) ?_
      · simp [Nat.add_assoc]
      · simp [Nat.add_assoc]

theorem argumentCode_ok : ∀ (es : List Expr) {start : Nat}
    {s s' : Emission} {code : List Instr},
      argumentCode start es s = .ok code s' →
        MakesExprs s s' start es code
  | [], start, s, s', code, h => by
      obtain ⟨rfl, rfl⟩ := pure_ok.1 h
      exact ⟨.refl _, fun _ _ _ => .nil⟩
  | e :: es, start, s, s', code, h => by
      obtain ⟨first, s₁, hfirst, h⟩ := bind_ok.1 h
      obtain ⟨rest, s₂, hrest, h⟩ := bind_ok.1 h
      obtain ⟨rfl, rfl⟩ := pure_ok.1 h
      have he := exprCode_ok e hfirst
      have hes := argumentCode_ok es hrest
      have hes' := hes.since he.steady
      refine ⟨hes'.steady, fun hconstants hfits hat => ?_⟩
      have hes'' := hes'.placed hconstants hfits hat.right
      rw [Nat.add_assoc, ← List.length_append] at hes''
      exact .cons (he.placed (hes.steady.constants.trans hconstants) hfits
        hat.left) hes''

end

end Script.Stack
