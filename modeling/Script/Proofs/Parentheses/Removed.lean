/-
Trees without parentheses. Every node for an expression in parentheses is
replaced by the expression; all other nodes stay, with the spans that they
have. What looks at an expression through the parentheses around it sees
the same in both trees.

Two trees that come to the same without parentheses have the same node at
the top, parentheses aside, and their parts come to the same as well. That
is how two such trees are gone through side by side.

A function carries its declaration with it, so the parentheses of a program
get into its values and from there into the scopes. Programs cannot see
them there: functions are told apart by the places where they are declared,
and their names and parameters have no parentheses. Taking the parentheses
out of all scopes goes along with everything that can be done with scopes.
-/
import Script.Code.Literal
import Script.Operation
import Script.Proofs.Heap

namespace Script

-- =========================================================== expressions

mutual

/-- An expression without any parentheses in it. -/
def Expr.ungrouped : Expr → Expr
  | .number span x => .number span x
  | .string span s => .string span s
  | .bool span b => .bool span b
  | .nil span => .nil span
  | .ident span name => .ident span name
  | .unary span op e => .unary span op e.ungrouped
  | .binary span op l r => .binary span op l.ungrouped r.ungrouped
  | .assign span target e => .assign span target e.ungrouped
  | .call span callee args => .call span callee.ungrouped (ungroupedAll args)
  | .group _ e => e.ungrouped

/-- Expressions without any parentheses in them. -/
def ungroupedAll : List Expr → List Expr
  | [] => []
  | e :: es => e.ungrouped :: ungroupedAll es

end

theorem ungroupedAll_eq (es : List Expr) :
    ungroupedAll es = es.map Expr.ungrouped := by
  induction es with
  | nil => rfl
  | cons e es ih => exact congrArg (e.ungrouped :: ·) ih

mutual

/-- Where no parentheses are left, none can be removed. -/
theorem Expr.ungrouped_ungrouped : ∀ e : Expr,
    e.ungrouped.ungrouped = e.ungrouped
  | .number .. | .string .. | .bool .. | .nil _ | .ident .. => rfl
  | .unary span op e => by
      rw [Expr.ungrouped, Expr.ungrouped, e.ungrouped_ungrouped]
  | .binary span op l r => by
      rw [Expr.ungrouped, Expr.ungrouped, l.ungrouped_ungrouped,
        r.ungrouped_ungrouped]
  | .assign span target e => by
      rw [Expr.ungrouped, Expr.ungrouped, e.ungrouped_ungrouped]
  | .call span callee args => by
      rw [Expr.ungrouped, Expr.ungrouped, callee.ungrouped_ungrouped,
        ungroupedAll_ungroupedAll args]
  | .group _ e => e.ungrouped_ungrouped

theorem ungroupedAll_ungroupedAll : ∀ es : List Expr,
    ungroupedAll (ungroupedAll es) = ungroupedAll es
  | [] => rfl
  | e :: es => by
      rw [ungroupedAll, ungroupedAll, e.ungrouped_ungrouped,
        ungroupedAll_ungroupedAll es]

end

namespace Expr

theorem ungrouped_ungroup : ∀ e : Expr, e.ungroup.ungrouped = e.ungrouped
  | .group _ e => e.ungrouped_ungroup
  | .number .. | .string .. | .bool .. | .nil _ | .ident .. | .unary ..
  | .binary .. | .assign .. | .call .. => rfl

theorem literal?_ungrouped : ∀ e : Expr, e.ungrouped.literal? = e.literal?
  | .group _ e => e.literal?_ungrouped
  | .number .. | .string .. | .bool .. | .nil _ | .ident .. | .unary ..
  | .binary .. | .assign .. | .call .. => rfl

theorem isZero_ungrouped : ∀ e : Expr, e.ungrouped.isZero = e.isZero
  | .group _ e => e.isZero_ungrouped
  | .number .. | .string .. | .bool .. | .nil _ | .ident .. | .unary ..
  | .binary .. | .assign .. | .call .. => rfl

theorem isLiteral_ungrouped (e : Expr) :
    e.ungrouped.isLiteral = e.isLiteral := by
  rw [← isSome_literal?, literal?_ungrouped, isSome_literal?]

/-- Two expressions with the same node at the top, and with operands that
come to the same without parentheses. -/
inductive Paired : Expr → Expr → Prop
  | number (span : Span) (x : Float) : Paired (.number span x) (.number span x)
  | string (span : Span) (s : String) :
      Paired (.string span s) (.string span s)
  | bool (span : Span) (b : Bool) : Paired (.bool span b) (.bool span b)
  | nil (span : Span) : Paired (.nil span) (.nil span)
  | ident (span : Span) (name : String) :
      Paired (.ident span name) (.ident span name)
  | unary (span : Span) (op : UnaryOp) {e e' : Expr}
      (h : e.ungrouped = e'.ungrouped) :
      Paired (.unary span op e) (.unary span op e')
  | binary (span : Span) (op : BinaryOp) {l l' r r' : Expr}
      (hl : l.ungrouped = l'.ungrouped) (hr : r.ungrouped = r'.ungrouped) :
      Paired (.binary span op l r) (.binary span op l' r')
  | assign (span : Span) (target : Ident) {e e' : Expr}
      (h : e.ungrouped = e'.ungrouped) :
      Paired (.assign span target e) (.assign span target e')
  | call (span : Span) {callee callee' : Expr} {args args' : List Expr}
      (hcallee : callee.ungrouped = callee'.ungrouped)
      (hargs : args.map ungrouped = args'.map ungrouped) :
      Paired (.call span callee args) (.call span callee' args')

/-- Whether an expression is in parentheses. -/
def isGroup : Expr → Bool
  | .group .. => true
  | _ => false

theorem isGroup_ungroup : ∀ e : Expr, e.ungroup.isGroup = false
  | .group _ e => e.isGroup_ungroup
  | .number .. | .string .. | .bool .. | .nil _ | .ident .. | .unary ..
  | .binary .. | .assign .. | .call .. => rfl

/-- Expressions outside of parentheses that come to the same without the
parentheses in them. -/
theorem Paired.of_ungrouped {e e' : Expr} (he : e.isGroup = false)
    (he' : e'.isGroup = false) (h : e.ungrouped = e'.ungrouped) :
    Paired e e' := by
  cases e with
  | group span e => cases he
  | number span x =>
      cases e' <;> cases he' <;> cases h
      exact .number ..
  | string span s =>
      cases e' <;> cases he' <;> cases h
      exact .string ..
  | bool span b =>
      cases e' <;> cases he' <;> cases h
      exact .bool ..
  | nil span =>
      cases e' <;> cases he' <;> cases h
      exact .nil _
  | ident span name =>
      cases e' <;> cases he' <;> cases h
      exact .ident ..
  | unary span op e =>
      cases e' with
      | unary span' op' e' =>
          obtain ⟨rfl, rfl, he⟩ := Expr.unary.inj h
          exact .unary _ _ he
      | group => cases he'
      | _ => cases h
  | binary span op l r =>
      cases e' with
      | binary span' op' l' r' =>
          obtain ⟨rfl, rfl, hl, hr⟩ := Expr.binary.inj h
          exact .binary _ _ hl hr
      | group => cases he'
      | _ => cases h
  | assign span target e =>
      cases e' with
      | assign span' target' e' =>
          obtain ⟨rfl, rfl, he⟩ := Expr.assign.inj h
          exact .assign _ _ he
      | group => cases he'
      | _ => cases h
  | call span callee args =>
      cases e' with
      | call span' callee' args' =>
          obtain ⟨rfl, hcallee, hargs⟩ := Expr.call.inj h
          rw [ungroupedAll_eq, ungroupedAll_eq] at hargs
          exact .call _ hcallee hargs
      | group => cases he'
      | _ => cases h

end Expr

-- ============================================================ statements

mutual

/-- A statement without any parentheses in it. -/
def Stmt.ungrouped : Stmt → Stmt
  | .declare span name init =>
      .declare span name (init.map Expr.ungrouped)
  | .function d => .function d.ungrouped
  | .expression span e => .expression span e.ungrouped
  | .block b => .block b.ungrouped
  | .branch span cond thenPart elsePart =>
      .branch span cond.ungrouped thenPart.ungrouped
        (elseUngrouped elsePart)
  | .loop span cond body => .loop span cond.ungrouped body.ungrouped
  | .giveBack span value => .giveBack span (value.map Expr.ungrouped)
  | .print span e => .print span e.ungrouped
  | .empty span => .empty span

/-- An else part without any parentheses in it. -/
def elseUngrouped : Option Stmt → Option Stmt
  | none => none
  | some s => some s.ungrouped

/-- A block without any parentheses in it. -/
def Block.ungrouped : Block → Block
  | ⟨statements, span⟩ => ⟨stmtsUngrouped statements, span⟩

/-- A function without any parentheses in it. -/
def FnDecl.ungrouped : FnDecl → FnDecl
  | ⟨name, params, body, id⟩ => ⟨name, params, body.ungrouped, id⟩

/-- Statements without any parentheses in them. -/
def stmtsUngrouped : List Stmt → List Stmt
  | [] => []
  | s :: ss => s.ungrouped :: stmtsUngrouped ss

end

theorem optionUngrouped_ungrouped (e : Option Expr) :
    (e.map Expr.ungrouped).map Expr.ungrouped = e.map Expr.ungrouped := by
  cases e with
  | none => rfl
  | some e => exact congrArg some e.ungrouped_ungrouped

mutual

theorem Stmt.ungrouped_ungrouped : ∀ s : Stmt,
    s.ungrouped.ungrouped = s.ungrouped
  | .declare span name init => by
      rw [Stmt.ungrouped, Stmt.ungrouped, optionUngrouped_ungrouped]
  | .function d => by
      rw [Stmt.ungrouped, Stmt.ungrouped, d.ungrouped_ungrouped]
  | .expression span e => by
      rw [Stmt.ungrouped, Stmt.ungrouped, e.ungrouped_ungrouped]
  | .block b => by
      rw [Stmt.ungrouped, Stmt.ungrouped, b.ungrouped_ungrouped]
  | .branch span cond b s => by
      rw [Stmt.ungrouped, Stmt.ungrouped, cond.ungrouped_ungrouped,
        b.ungrouped_ungrouped, elseUngrouped_elseUngrouped s]
  | .loop span cond b => by
      rw [Stmt.ungrouped, Stmt.ungrouped, cond.ungrouped_ungrouped,
        b.ungrouped_ungrouped]
  | .giveBack span value => by
      rw [Stmt.ungrouped, Stmt.ungrouped, optionUngrouped_ungrouped]
  | .print span e => by
      rw [Stmt.ungrouped, Stmt.ungrouped, e.ungrouped_ungrouped]
  | .empty _ => rfl

theorem elseUngrouped_elseUngrouped : ∀ s : Option Stmt,
    elseUngrouped (elseUngrouped s) = elseUngrouped s
  | none => rfl
  | some s => by
      rw [elseUngrouped, elseUngrouped, s.ungrouped_ungrouped]

theorem Block.ungrouped_ungrouped : ∀ b : Block,
    b.ungrouped.ungrouped = b.ungrouped
  | ⟨ss, span⟩ => by
      rw [Block.ungrouped, Block.ungrouped, stmtsUngrouped_stmtsUngrouped ss]

theorem FnDecl.ungrouped_ungrouped : ∀ d : FnDecl,
    d.ungrouped.ungrouped = d.ungrouped
  | ⟨name, params, body, id⟩ => by
      rw [FnDecl.ungrouped, FnDecl.ungrouped, body.ungrouped_ungrouped]

theorem stmtsUngrouped_stmtsUngrouped : ∀ ss : List Stmt,
    stmtsUngrouped (stmtsUngrouped ss) = stmtsUngrouped ss
  | [] => rfl
  | s :: ss => by
      rw [stmtsUngrouped, stmtsUngrouped, s.ungrouped_ungrouped,
        stmtsUngrouped_stmtsUngrouped ss]

end

/-- A program without any parentheses in it. -/
def Program.ungrouped (p : Program) : Program :=
  ⟨stmtsUngrouped p.statements, p.span⟩

theorem stmtsUngrouped_eq (ss : List Stmt) :
    stmtsUngrouped ss = ss.map Stmt.ungrouped := by
  induction ss with
  | nil => rfl
  | cons s ss ih => exact congrArg (s.ungrouped :: ·) ih

theorem elseUngrouped_eq (s : Option Stmt) :
    elseUngrouped s = s.map Stmt.ungrouped := by
  cases s <;> rfl

theorem Block.ungrouped_eq (b : Block) :
    b.ungrouped = ⟨b.statements.map Stmt.ungrouped, b.span⟩ := by
  obtain ⟨statements, span⟩ := b
  exact congrArg (Block.mk · span) (stmtsUngrouped_eq statements)

theorem FnDecl.ungrouped_eq (d : FnDecl) :
    d.ungrouped = ⟨d.name, d.params, d.body.ungrouped, d.id⟩ := by
  obtain ⟨name, params, body, id⟩ := d
  rfl

namespace Stmt

@[simp] theorem span_ungrouped (s : Stmt) : s.ungrouped.span = s.span := by
  cases s with
  | function d =>
      show d.ungrouped.span = d.span
      rw [d.ungrouped_eq]
  | block b =>
      show b.ungrouped.span = b.span
      rw [b.ungrouped_eq]
  | _ => rfl

@[simp] theorem isEmpty_ungrouped (s : Stmt) :
    s.ungrouped.isEmpty = s.isEmpty := by
  cases s <;> rfl

@[simp] theorem isGiveBack_ungrouped (s : Stmt) :
    s.ungrouped.isGiveBack = s.isGiveBack := by
  cases s <;> rfl

@[simp] theorem function?_ungrouped (s : Stmt) :
    s.ungrouped.function? = s.function?.map FnDecl.ungrouped := by
  cases s <;> rfl

/-- Two statements of the same form, with parts that come to the same
without parentheses. -/
inductive Paired : Stmt → Stmt → Prop
  | declare (span : Span) (name : Ident) {init init' : Option Expr}
      (h : init.map Expr.ungrouped = init'.map Expr.ungrouped) :
      Paired (.declare span name init) (.declare span name init')
  | function {d d' : FnDecl} (h : d.ungrouped = d'.ungrouped) :
      Paired (.function d) (.function d')
  | expression (span : Span) {e e' : Expr}
      (h : e.ungrouped = e'.ungrouped) :
      Paired (.expression span e) (.expression span e')
  | block {b b' : Block} (h : b.ungrouped = b'.ungrouped) :
      Paired (.block b) (.block b')
  | branch (span : Span) {cond cond' : Expr} {b b' : Block}
      {elsePart elsePart' : Option Stmt}
      (hcond : cond.ungrouped = cond'.ungrouped)
      (hb : b.ungrouped = b'.ungrouped)
      (helse : elsePart.map ungrouped = elsePart'.map ungrouped) :
      Paired (.branch span cond b elsePart) (.branch span cond' b' elsePart')
  | loop (span : Span) {cond cond' : Expr} {b b' : Block}
      (hcond : cond.ungrouped = cond'.ungrouped)
      (hb : b.ungrouped = b'.ungrouped) :
      Paired (.loop span cond b) (.loop span cond' b')
  | giveBack (span : Span) {value value' : Option Expr}
      (h : value.map Expr.ungrouped = value'.map Expr.ungrouped) :
      Paired (.giveBack span value) (.giveBack span value')
  | print (span : Span) {e e' : Expr} (h : e.ungrouped = e'.ungrouped) :
      Paired (.print span e) (.print span e')
  | empty (span : Span) : Paired (.empty span) (.empty span)

theorem Paired.of_ungrouped {s s' : Stmt} (h : s.ungrouped = s'.ungrouped) :
    Paired s s' := by
  cases s with
  | declare span name init =>
      cases s' with
      | declare span' name' init' =>
          obtain ⟨rfl, rfl, hinit⟩ := Stmt.declare.inj h
          exact .declare _ _ hinit
      | _ => cases h
  | function d =>
      cases s' with
      | function d' => exact .function (Stmt.function.inj h)
      | _ => cases h
  | expression span e =>
      cases s' with
      | expression span' e' =>
          obtain ⟨rfl, he⟩ := Stmt.expression.inj h
          exact .expression _ he
      | _ => cases h
  | block b =>
      cases s' with
      | block b' => exact .block (Stmt.block.inj h)
      | _ => cases h
  | branch span cond b elsePart =>
      cases s' with
      | branch span' cond' b' elsePart' =>
          obtain ⟨rfl, hcond, hb, helse⟩ := Stmt.branch.inj h
          rw [elseUngrouped_eq, elseUngrouped_eq] at helse
          exact .branch _ hcond hb helse
      | _ => cases h
  | loop span cond b =>
      cases s' with
      | loop span' cond' b' =>
          obtain ⟨rfl, hcond, hb⟩ := Stmt.loop.inj h
          exact .loop _ hcond hb
      | _ => cases h
  | giveBack span value =>
      cases s' with
      | giveBack span' value' =>
          obtain ⟨rfl, hvalue⟩ := Stmt.giveBack.inj h
          exact .giveBack _ hvalue
      | _ => cases h
  | print span e =>
      cases s' with
      | print span' e' =>
          obtain ⟨rfl, he⟩ := Stmt.print.inj h
          exact .print _ he
      | _ => cases h
  | empty span =>
      cases s' <;> cases h
      exact .empty _

end Stmt

theorem Program.ungrouped_ungrouped (p : Program) :
    p.ungrouped.ungrouped = p.ungrouped :=
  congrArg (Program.mk · p.span) (stmtsUngrouped_stmtsUngrouped p.statements)

theorem Program.functions_ungrouped (p : Program) :
    p.ungrouped.functions = p.functions.map FnDecl.ungrouped := by
  unfold functions ungrouped
  rw [stmtsUngrouped_eq, List.filterMap_map, List.map_filterMap]
  congr 1
  funext s
  exact s.function?_ungrouped

-- ================================================================ values

/-- A function without any parentheses in it. -/
def Closure.ungrouped (c : Closure) : Closure :=
  { c with decl := c.decl.ungrouped }

namespace Closure

variable {c c' : Closure}

theorem name_ungrouped (c : Closure) : c.ungrouped.name = c.name := by
  show c.decl.ungrouped.name.name = _
  rw [c.decl.ungrouped_eq]
  rfl

theorem arity_ungrouped (c : Closure) : c.ungrouped.arity = c.arity := by
  show c.decl.ungrouped.params.length = _
  rw [c.decl.ungrouped_eq]
  rfl

theorem same_ungrouped (c c' : Closure) :
    c.ungrouped.same c'.ungrouped = c.same c' := by
  have hid (d : FnDecl) : d.ungrouped.id = d.id := by
    rw [d.ungrouped_eq]
  show (c.decl.ungrouped.id == c'.decl.ungrouped.id && _) = _
  rw [hid, hid]
  rfl

end Closure

namespace Value

/-- A value without any parentheses in it. -/
def ungrouped : Value → Value
  | .function c => .function c.ungrouped
  | v => v

theorem type_ungrouped (v : Value) : v.ungrouped.type = v.type := by
  cases v <;> rfl

theorem text_ungrouped (v : Value) : v.ungrouped.text = v.text := by
  cases v with
  | function c =>
      show "<fn " ++ c.ungrouped.name ++ ">" = _
      rw [c.name_ungrouped]
      rfl
  | _ => rfl

theorem same_ungrouped (v w : Value) :
    v.ungrouped.same w.ungrouped = v.same w := by
  cases v <;> cases w <;> first | rfl | exact Closure.same_ungrouped ..

theorem ungrouped_keptIn (i : ScopeId) (v : Value) :
    (v.keptIn i).ungrouped = v.ungrouped.keptIn i := by
  cases v with
  | function c => exact apply_ite Value.ungrouped ..
  | _ => rfl

theorem ungrouped_handedOut (v : Value) :
    v.handedOut.ungrouped = v.ungrouped.handedOut := by
  cases v <;> rfl

end Value

/-- No operator sees parentheses in its operand. -/
theorem UnaryOp.apply_ungrouped (op : UnaryOp) (v : Value) :
    op.apply v.ungrouped = op.apply v := by
  cases op <;> cases v <;> rfl

/-- Nor in one of two. -/
theorem BinaryOp.apply_ungrouped (op : BinaryOp) (v w : Value) :
    op.apply v.ungrouped w.ungrouped = op.apply v w := by
  have hsame := v.same_ungrouped w
  cases op with
  | eq => exact congrArg (fun b => Except.ok (Value.bool b)) hsame
  | ne => exact congrArg (fun b => Except.ok (Value.bool !b)) hsame
  | _ => cases v <;> cases w <;> rfl

-- ================================================================ scopes

/-- Variables without any parentheses in them. -/
def Bindings.ungrouped (bs : Bindings) : Bindings :=
  bs.map fun b => (b.1, b.2.ungrouped)

namespace Bindings

theorem lookup_ungrouped (bs : Bindings) (name : String) :
    bs.ungrouped.lookup name = (bs.lookup name).map Value.ungrouped := by
  induction bs with
  | nil => rfl
  | cons b bs ih =>
      show List.lookup name ((b.1, b.2.ungrouped) :: ungrouped bs) = _
      rw [List.lookup_cons, List.lookup_cons, ih]
      split <;> rfl

theorem ungrouped_insert (bs : Bindings) (name : String) (v : Value) :
    (bs.insert name v).ungrouped = bs.ungrouped.insert name v.ungrouped := by
  induction bs with
  | nil => rfl
  | cons b bs ih =>
      obtain ⟨k, w⟩ := b
      show ungrouped (if k = name then (name, v) :: bs
          else (k, w) :: insert name v bs) =
        if k = name then (name, v.ungrouped) :: ungrouped bs
        else (k, w.ungrouped) :: insert name v.ungrouped (ungrouped bs)
      split
      · rfl
      · exact congrArg ((k, w.ungrouped) :: ·) ih

end Bindings

/-- Scopes without any parentheses in them. -/
def Heap.ungrouped (h : Heap) : Heap :=
  ⟨h.scopes.map fun s => { s with bindings := s.bindings.ungrouped }⟩

namespace Heap

theorem getElem?_ungrouped (h : Heap) (i : ScopeId) :
    h.ungrouped.scopes[i]? = (h.scopes[i]?).map fun s =>
      { s with bindings := s.bindings.ungrouped } :=
  Array.getElem?_map

theorem bindings_ungrouped (h : Heap) (i : ScopeId) :
    h.ungrouped.bindings i = (h.bindings i).ungrouped := by
  unfold bindings
  rw [getElem?_ungrouped]
  cases h.scopes[i]? <;> rfl

theorem binds_ungrouped (h : Heap) (name : String) (i : ScopeId) :
    h.ungrouped.binds name i = h.binds name i := by
  unfold binds
  rw [bindings_ungrouped, Bindings.lookup_ungrouped, Option.isSome_map]

theorem chain_ungrouped (h : Heap) (i : ScopeId) :
    h.ungrouped.chain i = h.chain i :=
  chain_congr fun j _ => by
    rw [getElem?_ungrouped, Option.map_map]
    rfl

theorem owner?_ungrouped (h : Heap) (i : ScopeId) (name : String) :
    h.ungrouped.owner? i name = h.owner? i name := by
  unfold owner?
  rw [chain_ungrouped, funext (h.binds_ungrouped name)]

theorem get?_ungrouped (h : Heap) (i : ScopeId) (name : String) :
    h.ungrouped.get? i name = (h.get? i name).map Value.ungrouped := by
  unfold get?
  rw [owner?_ungrouped]
  cases h.owner? i name with
  | none => rfl
  | some j =>
      show (List.lookup name (h.ungrouped.bindings j)).map Value.handedOut
        = ((List.lookup name (h.bindings j)).map Value.handedOut).map _
      rw [bindings_ungrouped, Bindings.lookup_ungrouped, Option.map_map,
        Option.map_map]
      refine congrArg (Option.map · _) (funext fun v => ?_)
      exact v.ungrouped_handedOut.symm

theorem ungrouped_update (h : Heap) (i : ScopeId) {f g : Bindings → Bindings}
    (hfg : ∀ bs, (f bs).ungrouped = g bs.ungrouped) :
    (h.update i f).ungrouped = h.ungrouped.update i g := by
  refine congrArg Heap.mk (Array.ext_getElem? fun j => ?_)
  have hleft := (h.update i f).getElem?_ungrouped j
  have hright := h.ungrouped.getElem?_update i j g
  refine hleft.trans (Eq.trans ?_ hright.symm)
  rw [getElem?_update, getElem?_ungrouped, getElem?_ungrouped]
  split
  · rw [Option.map_map, Option.map_map]
    refine congrArg (Option.map · _) (funext fun s => ?_)
    exact congrArg (Scope.mk · s.parent) (hfg s.bindings)
  · rfl

theorem ungrouped_define (h : Heap) (i : ScopeId) (name : String)
    (v : Value) :
    (h.define i name v).ungrouped =
      h.ungrouped.define i name v.ungrouped :=
  h.ungrouped_update i fun bs => by
    rw [bs.ungrouped_insert, v.ungrouped_keptIn]

theorem ungrouped_restore (h : Heap) (i : ScopeId) (saved : Bindings) :
    (h.restore i saved).ungrouped =
      h.ungrouped.restore i saved.ungrouped :=
  h.ungrouped_update i fun _ => rfl

theorem size_ungrouped (h : Heap) :
    h.ungrouped.scopes.size = h.scopes.size :=
  Array.size_map

theorem ungrouped_child (h : Heap) (parent : ScopeId) :
    (h.child parent).2.ungrouped = (h.ungrouped.child parent).2 :=
  congrArg Heap.mk Array.map_push

end Heap

end Script
