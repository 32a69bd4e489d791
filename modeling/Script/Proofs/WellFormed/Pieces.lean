/-
The code of expressions is level: it leaves one value on the stack,
whatever is there already. Its indices are in range as soon as it is made.
Constants are in the pool when they are pushed, and every slot that the
symbol table has for a name was handed out.
-/
import Script.Proofs.Stack.Emitted
import Script.Proofs.WellFormed.Heights

namespace Script.Code

open Script.Action Stack

-- ============================================================== symbols

/-- Whether every slot that a frame has for a name was handed out. -/
structure Symbols.Bounded (s : Symbols) : Prop where
  inner : ∀ f ∈ s.inner, f.Wf
  main : s.main.Wf

/-- Whether the variable of a symbol is there. -/
def Symbols.Has (s : Symbols) : Symbol → Prop
  | .global slot => slot < s.main.slots.length
  | .own slot => s.inMain = false ∧ slot < s.current.slots.length
  | .captured => False

/-- What a frame has a name for is in use. -/
theorem Frame.mem_taken_of_lookup? {f : Frame} {name : String} {slot : Nat}
    (hname : f.lookup? name = some slot) : slot ∈ f.taken := by
  obtain ⟨t, ht, hslot⟩ := List.exists_of_findSome?_eq_some hname
  obtain ⟨l, r, hsplit, -⟩ := List.lookup_eq_some_iff.1 hslot
  exact List.mem_map.2 ⟨(name, slot),
    List.mem_flatten_of_mem ht (by simp [hsplit]), rfl⟩

theorem Frame.Wf.lookup_lt {f : Frame} (h : f.Wf) {name : String}
    {slot : Nat} (hname : f.lookup? name = some slot) :
    slot < f.slots.length :=
  h.bound slot (mem_taken_of_lookup? hname)

namespace Symbols

variable {s s' : Symbols} {name : String} {x : Symbol}

/-- What a name means is there. -/
theorem Bounded.resolve (h : s.Bounded) (hx : s.resolve? name = some x)
    (hne : x ≠ .captured) : s.Has x := by
  have hglobal (hx : (s.main.lookup? name).map Symbol.global = some x) :
      s.Has x := by
    obtain ⟨slot, hslot, rfl⟩ := Option.map_eq_some_iff.1 hx
    exact h.main.lookup_lt hslot
  obtain ⟨_ | ⟨frame, frames⟩, main⟩ := s
  · exact hglobal hx
  · unfold resolve? at hx
    dsimp only at hx
    split at hx
    case h_1 slot hslot =>
        cases hx
        exact ⟨rfl, (h.inner frame List.mem_cons_self).lookup_lt hslot⟩
    case h_2 =>
        split at hx
        · exact (hne (Option.some.inj hx).symm).elim
        · exact hglobal hx

theorem Grows.bounded (h : s.Grows s') (hs : s.Bounded) : s'.Bounded := by
  obtain ⟨f, hf, rfl⟩ := h
  obtain ⟨_ | ⟨frame, frames⟩, main⟩ := s
  · exact ⟨hs.inner, hf.wf hs.main⟩
  · obtain ⟨hframe, hframes⟩ := List.forall_mem_cons.1 hs.inner
    exact ⟨List.forall_mem_cons.2 ⟨hf.wf hframe, hframes⟩, hs.main⟩

/-- A name that is declared is there. -/
theorem Bounded.declare (h : s.Bounded) (name : String) :
    (s.declare name).2.Has (s.declare name).1 := by
  refine Bounded.resolve ((Grows.declare s name).bounded h)
    (resolve?_declare s name) (symbol_ne_captured s name)
where
  symbol_ne_captured (s : Symbols) (name : String) :
      (s.declare name).1 ≠ .captured := by
    show (if s.inMain then Symbol.global _ else Symbol.own _) ≠ _
    split <;> exact nofun

end Symbols

-- =============================================================== pieces

namespace Emission

/-- How much there is of everything so far. -/
def extent (s : Emission) : Extent :=
  ⟨s.constants.size, s.symbols.main.slots.length, s.functions.size⟩

/-- How many slots the function that is open has so far. The variables of
the main function are the globals, so it has none. -/
def locals (s : Emission) : Nat :=
  if s.symbols.inMain then 0 else s.symbols.current.slots.length

/-- Whether nothing has become less. -/
structure Later (s s' : Emission) : Prop where
  extent : s.extent.Within s'.extent
  locals : s.locals ≤ s'.locals

end Emission

variable {s s' s₁ : Emission} {start before between behind : Nat}
  {l r code : List Instr} {instr : Instr} {x : Symbol}

theorem Emission.Later.of_steady (h : Steady s s') : s.Later s' := by
  have hsize := h.constants.length_le
  rw [Array.length_toList, Array.length_toList] at hsize
  refine ⟨⟨hsize, ?_, ?_⟩, ?_⟩
  · exact Nat.le_of_eq (by rw [Emission.extent, Emission.extent, h.symbols])
  · exact Nat.le_of_eq
      (by rw [Emission.extent, Emission.extent, h.functions])
  · exact Nat.le_of_eq (by rw [Emission.locals, Emission.locals, h.symbols])

/-- Level code with its indices in range. -/
structure Piece (s : Emission) (start : Nat) (code : List Instr)
    (before behind : Nat) : Prop where
  level : Level start code before behind
  indices : ∀ instr ∈ code, instr.InRange s.extent s.locals

namespace Piece

theorem later (h : Piece s start code before behind) (hs : s.Later s') :
    Piece s' start code before behind :=
  ⟨h.level, fun instr hinstr =>
    (h.indices instr hinstr).mono hs.extent hs.locals⟩

theorem cast {start' : Nat} (h : Piece s start code before behind)
    (hstart : start' = start) : Piece s start' code before behind :=
  hstart ▸ h

theorem nil : Piece s start [] before before :=
  ⟨.nil, fun _ h => absurd h List.not_mem_nil⟩

theorem single (instr : Instr) (hrange : instr.InRange s.extent s.locals)
    (htarget : instr.target? = none) (hleave : instr ≠ .leave)
    (henough : instr.pops ≤ before) :
    Piece s start [instr] before (before - instr.pops + instr.pushes) :=
  ⟨.single htarget hleave henough, fun _ h =>
    List.mem_singleton.1 h ▸ hrange⟩

theorem leave (behind : Nat) : Piece s start [.leave] 1 behind :=
  ⟨.leave behind, fun _ h => List.mem_singleton.1 h ▸ trivial⟩

theorem append (hl : Piece s start l before between)
    (hr : Piece s (start + l.length) r between behind) :
    Piece s start (l ++ r) before behind :=
  ⟨hl.level.append hr.level,
    List.forall_mem_append.2 ⟨hl.indices, hr.indices⟩⟩

theorem choice {yes no : List Instr} {isFalse done : Nat}
    (hyes : Piece s (start + 1) yes before behind)
    (hno : Piece s isFalse no before behind)
    (hisFalse : isFalse = start + 1 + yes.length + 1)
    (hdone : done = isFalse + no.length) :
    Piece s start (.jumpIfFalse isFalse :: (yes ++ .jump done :: no))
      (before + 1) behind :=
  ⟨hyes.level.choice hno.level hisFalse hdone,
    List.forall_mem_cons.2 ⟨trivial, List.forall_mem_append.2
      ⟨hyes.indices, List.forall_mem_cons.2 ⟨trivial, hno.indices⟩⟩⟩⟩

theorem branch {yes : List Instr} {done : Nat}
    (hyes : Piece s (start + 1) yes before before)
    (hdone : done = start + 1 + yes.length) :
    Piece s start (.jumpIfFalse done :: yes) (before + 1) before :=
  ⟨hyes.level.branch hdone, List.forall_mem_cons.2 ⟨trivial, hyes.indices⟩⟩

theorem loop {test body : List Instr} {done : Nat}
    (htest : Piece s start test before (before + 1))
    (hbody : Piece s (start + test.length + 1) body before before)
    (hdone : done = start + test.length + 1 + body.length + 1) :
    Piece s start (test ++ .jumpIfFalse done :: (body ++ [.jump start]))
      before before :=
  ⟨htest.level.loop hbody.level hdone, List.forall_mem_append.2
    ⟨htest.indices, List.forall_mem_cons.2 ⟨trivial,
      List.forall_mem_append.2 ⟨hbody.indices, fun _ h =>
        List.mem_singleton.1 h ▸ trivial⟩⟩⟩⟩

theorem push {k : Constant} (h : Code.push k s = .ok code s')
    (before : Nat) : Piece s' start code before (before + 1) := by
  obtain ⟨-, index, rfl, hindex⟩ := push_ok h
  refine single (.pushConst index) ?_ rfl nofun (Nat.zero_le _)
  have hlt := (List.getElem?_eq_some_iff.1 hindex).1
  exact Nat.lt_of_lt_of_eq hlt Array.length_toList

/-- A call takes the function and its arguments, and puts the result. -/
theorem call (count before : Nat) :
    Piece s start [.call count] (before + 1 + count) (before + 1) := by
  have hcall : Piece s start [.call count] (before + 1 + count) _ :=
    single _ trivial rfl nofun (by show count + 1 ≤ _; omega)
  have hheight : before + 1 + count - (Instr.call count).pops
      + (Instr.call count).pushes = before + 1 := by
    show before + 1 + count - (count + 1) + 1 = before + 1
    omega
  rwa [hheight] at hcall

/-- The variable of a symbol is in range. -/
theorem load (h : s.symbols.Has x) (before : Nat) :
    Piece s start (Code.load x) before (before + 1) := by
  cases x with
  | global slot => exact single _ h rfl nofun (Nat.zero_le _)
  | own slot =>
      refine single (.loadLocal slot) ?_ rfl nofun (Nat.zero_le _)
      show slot < s.locals
      unfold Emission.locals
      rw [h.1]
      exact h.2
  | captured => exact h.elim

theorem store (h : s.symbols.Has x) (behind : Nat) :
    Piece s start (Code.store x) (behind + 1) behind := by
  cases x with
  | global slot => exact single _ h rfl nofun (Nat.le_add_left ..)
  | own slot =>
      refine single (.storeLocal slot) ?_ rfl nofun
        (Nat.le_add_left ..)
      show slot < s.locals
      unfold Emission.locals
      rw [h.1]
      exact h.2
  | captured => exact h.elim

end Piece

-- ========================================================== expressions

theorem resolve_has {name : String} {span : Span}
    (h : resolve name span s = .ok x s') (hs : s.symbols.Bounded) :
    s'.symbols.Has x := by
  obtain ⟨rfl, hx, hne⟩ := resolve_ok h
  exact hs.resolve hx hne

/-- What the code of an expression is good for. -/
def MakesPiece (e : Expr) : Prop :=
  ∀ {start : Nat} {s s' : Emission} {code : List Instr},
    exprCode start e s = .ok code s' → s.symbols.Bounded → ∀ before,
      Piece s' start code before (before + 1)

/-- An operator with two operands, each with its piece of code. One that
may leave its right operand alone jumps over it. -/
theorem binary_piece {span : Span} {op : BinaryOp} {l r : Expr} {start : Nat}
    {s s' : Emission} {code : List Instr} (hl : MakesPiece l)
    (hr : MakesPiece r)
    (h : exprCode start (.binary span op l r) s = .ok code s')
    (hs : s.symbols.Bounded) (before : Nat) :
    Piece s' start code before (before + 1) := by
  have hls {start s code s'} (h : exprCode start l s = .ok code s') :=
    (exprCode_ok l h).steady
  have hrs {start s code s'} (h : exprCode start r s = .ok code s') :=
    (exprCode_ok r h).steady
  have hstrict (h : (do
      refuseAny span (binaryFault? op l r)
      let left ← exprCode start l
      let right ← exprCode (start + left.length) r
      return left ++ right ++ [.binary op] : Emit _) s = .ok code s') :
      Piece s' start code before (before + 1) := by
    obtain ⟨u, s₁, hrefuse, hrest⟩ := bind_ok.1 h
    obtain ⟨left, s₂, hleft, hrest'⟩ := bind_ok.1 hrest
    obtain ⟨right, s₃, hright, hcode⟩ := bind_ok.1 hrest'
    obtain ⟨rfl, rfl⟩ := pure_ok.1 hcode
    obtain rfl := refuseAny_ok hrefuse
    have hs₂ := (hls hleft).symbols ▸ hs
    exact (((hl hleft hs before).later (.of_steady (hrs hright))).append
      (hr hright hs₂ _)).append
        (.single _ trivial rfl nofun (Nat.le_add_left ..))
  cases op with
  | and =>
      obtain ⟨left, s₁, hleft, hrest⟩ := bind_ok.1 h
      obtain ⟨right, s₂, hright, hrest'⟩ := bind_ok.1 hrest
      obtain ⟨constant, s₃, hpush, hcode⟩ := bind_ok.1 hrest'
      obtain ⟨rfl, rfl⟩ := pure_ok.1 hcode
      have hsteady := (push_ok hpush).1
      have hs₁ := (hls hleft).symbols ▸ hs
      have hlength : constant.length = 1 := by
        obtain ⟨-, index, rfl, -⟩ := push_ok hpush
        rfl
      rw [List.append_assoc, List.cons_append]
      exact ((hl hleft hs before).later
        (.of_steady ((hrs hright).trans hsteady))).append
          (.choice ((hr hright hs₁ before).later (.of_steady hsteady))
            (.push hpush before) rfl (by omega))
  | or =>
      obtain ⟨left, s₁, hleft, hrest⟩ := bind_ok.1 h
      obtain ⟨constant, s₂, hpush, hrest'⟩ := bind_ok.1 hrest
      obtain ⟨right, s₃, hright, hcode⟩ := bind_ok.1 hrest'
      obtain ⟨rfl, rfl⟩ := pure_ok.1 hcode
      have hsteady := (push_ok hpush).1
      have hs₂ := ((hls hleft).trans hsteady).symbols ▸ hs
      have hlength : constant.length = 1 := by
        obtain ⟨-, index, rfl, -⟩ := push_ok hpush
        rfl
      rw [List.append_assoc, List.cons_append]
      exact ((hl hleft hs before).later
        (.of_steady (hsteady.trans (hrs hright)))).append
          (.choice
            ((Piece.push hpush before).later (.of_steady (hrs hright)))
            (hr hright hs₂ before) (by omega) rfl)
  | _ => exact hstrict h

mutual

/-- The code of an expression leaves its value on the stack. -/
theorem exprCode_piece : ∀ (e : Expr) {start : Nat} {s s' : Emission}
    {code : List Instr}, exprCode start e s = .ok code s' →
      s.symbols.Bounded → ∀ before,
        Piece s' start code before (before + 1)
  | .number _ _, _, _, _, _, h, _, before => .push h before
  | .string _ _, _, _, _, _, h, _, before => .push h before
  | .bool _ _, _, _, _, _, h, _, before => .push h before
  | .nil _, _, _, _, _, h, _, before => .push h before
  | .ident _ _, _, _, _, _, h, hs, before => by
      obtain ⟨x, s₁, hresolve, hcode⟩ := bind_ok.1 h
      obtain ⟨rfl, rfl⟩ := pure_ok.1 hcode
      exact .load (resolve_has hresolve hs) before
  | .group _ e, _, _, _, _, h, hs, before => exprCode_piece e h hs before
  | .unary _ op e, _, s, _, _, h, hs, before => by
      obtain ⟨u, s₁, hrefuse, hrest⟩ := bind_ok.1 h
      obtain ⟨operand, s₂, hmade, hcode⟩ := bind_ok.1 hrest
      obtain ⟨rfl, rfl⟩ := pure_ok.1 hcode
      obtain rfl := refuseAny_ok hrefuse
      exact (exprCode_piece e hmade hs before).append
        (.single _ trivial rfl nofun (Nat.le_add_left ..))
  | .binary _ _ l r, _, _, _, _, h, hs, before =>
      binary_piece (fun hl => exprCode_piece l hl)
        (fun hr => exprCode_piece r hr) h hs before
  | .assign _ target e, _, s, _, _, h, hs, before => by
      obtain ⟨value, s₁, hmade, hrest⟩ := bind_ok.1 h
      obtain ⟨x, s₂, hresolve, hcode⟩ := bind_ok.1 hrest
      obtain ⟨rfl, rfl⟩ := pure_ok.1 hcode
      have hs₁ := (exprCode_ok e hmade).steady.symbols ▸ hs
      have hx := resolve_has hresolve hs₁
      obtain ⟨rfl, -⟩ := resolve_ok hresolve
      exact ((exprCode_piece e hmade hs before).append
        (.store hx before)).append (.load hx before)
  | .call _ callee args, _, s, _, _, h, hs, before => by
      obtain ⟨s₁, function, arguments, hf, has, rfl⟩ := callCode_steps h
      have hs₁ := (exprCode_ok callee hf).steady.symbols ▸ hs
      exact (((exprCode_piece callee hf hs before).later
        (.of_steady (argumentCode_ok args has).steady)).append
          (argumentCode_piece args has hs₁ _)).append (.call ..)

/-- The code of arguments leaves all of their values on the stack. -/
theorem argumentCode_piece : ∀ (es : List Expr) {start : Nat}
    {s s' : Emission} {code : List Instr},
      argumentCode start es s = .ok code s' → s.symbols.Bounded →
        ∀ before, Piece s' start code before (before + es.length)
  | [], _, _, _, _, h, _, before => by
      obtain ⟨rfl, rfl⟩ := pure_ok.1 h
      exact .nil
  | e :: es, _, s, _, _, h, hs, before => by
      obtain ⟨first, s₁, he, hrest⟩ := bind_ok.1 h
      obtain ⟨rest, s₂, hes, hcode⟩ := bind_ok.1 hrest
      obtain ⟨rfl, rfl⟩ := pure_ok.1 hcode
      have hs₁ := (exprCode_ok e he).steady.symbols ▸ hs
      have hrest := argumentCode_piece es hes hs₁ (before + 1)
      rw [Nat.add_right_comm] at hrest
      exact ((exprCode_piece e he hs before).later
        (.of_steady (argumentCode_ok es hes).steady)).append hrest

end

theorem optionalCode_piece {e : Option Expr}
    (h : optionalCode start e s = .ok code s') (hs : s.symbols.Bounded)
    (before : Nat) : Piece s' start code before (before + 1) := by
  cases e with
  | none => exact .push h before
  | some e => exact exprCode_piece e h hs before

end Script.Code
