/-
Variables that have a value. A function starts with values for its
parameters, and the main function starts with none; each store gives one
variable a value. Which variables have a value on every way to a place is
a mark of this place, and it agrees with an instruction that reads a
variable if this variable is one of them.

At a place of a program, the symbol table says which variables there are
names for. These are the ones that code may read there, and so they are
the marks to choose: a name is declared where its variable gets a value,
and it is given up again with the block that it is declared in.
-/
import Script.Proofs.Lexical.Naming
import Script.Proofs.WellFormed.Pieces

namespace Script.Code

open Script.Action Lexical Stack

-- ========================================================= instructions

/-- The variable that an instruction reads. -/
def Instr.reads? : Instr → Option Symbol
  | .loadGlobal slot => some (.global slot)
  | .loadLocal slot => some (.own slot)
  | _ => none

/-- The variable that an instruction writes. -/
def Instr.writes? : Instr → Option Symbol
  | .storeGlobal slot => some (.global slot)
  | .storeLocal slot => some (.own slot)
  | _ => none

theorem Instr.writes?_own {instr : Instr} {slot : Nat} :
    instr.writes? = some (.own slot) ↔ instr = .storeLocal slot := by
  cases instr <;> simp [Instr.writes?]

theorem Instr.writes?_global {instr : Instr} {slot : Nat} :
    instr.writes? = some (.global slot) ↔ instr = .storeGlobal slot := by
  cases instr <;> simp [Instr.writes?]

/-- The ways that the machine can take through code from its start, each
with the instructions that it carries out and the place that it comes
to. -/
inductive Way (code : List Instr) : List Instr → Nat → Prop
  | start : Way code [] 0
  | step {run : List Instr} {place next : Nat} {instr : Instr}
      (h : Way code run place) (hinstr : code[place]? = some instr)
      (hnext : instr.Leads place next) : Way code (run ++ [instr]) next

/-- Whether each variable that is read, on any way, is a given one or was
written on the way. -/
def Assigned (given : Symbol → Prop) (code : List Instr) : Prop :=
  ∀ run place instr x, Way code run place → code[place]? = some instr →
    instr.reads? = some x → given x ∨ ∃ w ∈ run, w.writes? = some x

theorem Assigned.mono {given given' : Symbol → Prop} {code : List Instr}
    (h : Assigned given code) (hgiven : ∀ x, given x → given' x) :
    Assigned given' code :=
  fun run place instr x hway hinstr hreads =>
    (h run place instr x hway hinstr hreads).imp_left (hgiven x)

/-- The variables that have a value, as marks. -/
def valued : Marking (Symbol → Prop) where
  asks instr known := ∀ x, instr.reads? = some x → known x
  leads instr known next := ∀ x, next x → known x ∨ instr.writes? = some x
  below a b := ∀ x, a x → b x
  below_refl _ _ := id
  below_trans h h' x hx := h' x (h x hx)
  leads_below h h' x hx := h x (h' x hx)
  jump _ _ := ⟨nofun, fun _ => .inl⟩

variable {start : Nat} {code : List Instr} {known behind : Symbol → Prop}

/-- What is marked is given in the beginning, or was written on every way
to the place of the mark. -/
theorem Marking.Marked.assigned (h : valued.Marked 0 code known behind) :
    Assigned known code := by
  obtain ⟨mark, h₀, -, htyped, hin⟩ := h
  have hway (run : List Instr) (place : Nat) (hw : Way code run place) :
      ∀ x, mark place x → known x ∨ ∃ w ∈ run, w.writes? = some x := by
    induction hw with
    | start => exact fun x hx => .inl (h₀ x hx)
    | @step run place next instr _ hinstr hnext ih =>
        have hagrees := htyped place instr hinstr
        rw [Nat.zero_add] at hagrees
        intro x hx
        rcases hagrees.leads next hnext x hx with hhere | hwrites
        · refine (ih x hhere).imp_right fun ⟨w, hw, hx⟩ => ⟨w, ?_, hx⟩
          exact List.mem_append_left _ hw
        · exact .inr ⟨instr, List.mem_append_right _
            (List.mem_singleton_self _), hwrites⟩
  intro run place instr x hw hinstr hreads
  have hagrees := htyped place instr hinstr
  rw [Nat.zero_add] at hagrees
  exact hway run place hw x (hagrees.asks x hreads)

/-- A test changes no variable. -/
theorem valued_test (target : Nat) (known : Symbol → Prop) :
    valued.asks (.jumpIfFalse target) known
      ∧ valued.leads (.jumpIfFalse target) known known :=
  ⟨nofun, fun _ => .inl⟩

namespace Marking.Marked

/-- An instruction that has nothing to do with variables. -/
theorem other {instr : Instr} (htarget : instr.target? = none)
    (hreads : instr.reads? = none) :
    valued.Marked start [instr] known known :=
  .single htarget (fun _ hx => nomatch hreads.symm.trans hx)
    fun _ _ => .inl

/-- Behind a function that is left, all variables may count as having a
value. -/
theorem leave (behind : Symbol → Prop) :
    valued.Marked start [.leave] known behind :=
  .single rfl nofun nofun

theorem push {k : Constant} {s s' : Emission}
    (h : Code.push k s = .ok code s') :
    valued.Marked start code known known := by
  obtain ⟨-, index, rfl, -⟩ := push_ok h
  exact .other rfl rfl

/-- A store gives its variable a value. -/
theorem store {x : Symbol} (hx : x ≠ .captured)
    (hbehind : ∀ y, behind y → known y ∨ y = x) :
    valued.Marked start (Code.store x) known behind := by
  have hleads (instr : Instr) (hwrites : instr.writes? = some x) (y : Symbol)
      (hy : behind y) : known y ∨ instr.writes? = some y := by
    refine (hbehind y hy).imp_right ?_
    rintro rfl
    exact hwrites
  cases x with
  | global slot => exact .single rfl nofun fun _ => hleads _ rfl
  | own slot => exact .single rfl nofun fun _ => hleads _ rfl
  | captured => exact (hx rfl).elim

/-- Code in which only variables with a value are read, whatever it
writes. -/
theorem reading (hin : Inside start code)
    (hreads : ∀ x ∈ accesses code, known x) :
    valued.Marked start code known known := by
  refine ⟨fun _ => known, fun _ => id, rfl, fun k instr hinstr => ⟨?_, ?_⟩,
    hin⟩
  · intro x hx
    refine hreads x (List.mem_filterMap.2
      ⟨instr, List.mem_of_getElem? hinstr, ?_⟩)
    cases instr <;> first | exact hx | cases hx
  · exact fun _ _ _ => .inl

end Marking.Marked

-- =============================================================== offers

theorem Frame.taken_closeBlock_subset (f : Frame) :
    f.closeBlock.taken ⊆ f.taken := by
  obtain ⟨block, _ | ⟨t, ts⟩, slots⟩ := f
  · exact List.Subset.refl _
  · intro slot hslot
    show slot ∈ (block ++ (t :: ts).flatten).map (·.2)
    rw [List.map_append]
    exact List.mem_append_right _ hslot

namespace Symbols

/-- Whether there is a name for a variable of the innermost function.
Inside of a function nothing is said of the variables of the main one. -/
def Offers (s : Symbols) : Symbol → Prop
  | .global slot => s.inMain = true → slot ∈ s.current.taken
  | .own slot => s.inMain = false ∧ slot ∈ s.current.taken
  | .captured => False

variable {s s' : Symbols} {name : String} {x : Symbol}

theorem Offers.mono (hmain : s'.inMain = s.inMain)
    (htaken : s.current.taken ⊆ s'.current.taken) (hx : s.Offers x) :
    s'.Offers x := by
  cases x with
  | global slot => exact fun h => htaken (hx (hmain ▸ h))
  | own slot => exact ⟨hmain ▸ hx.1, htaken hx.2⟩
  | captured => exact hx

/-- What a name means is offered. -/
theorem offers_of_resolve? (hx : s.resolve? name = some x)
    (hne : x ≠ .captured) : s.Offers x := by
  obtain ⟨_ | ⟨frame, frames⟩, main⟩ := s
  · obtain ⟨slot, hslot, rfl⟩ := Option.map_eq_some_iff.1 hx
    exact fun _ => Frame.mem_taken_of_lookup? hslot
  · unfold resolve? at hx
    dsimp only at hx
    split at hx
    case h_1 slot hslot =>
        cases hx
        exact ⟨rfl, Frame.mem_taken_of_lookup? hslot⟩
    case h_2 =>
        split at hx
        · exact (hne (Option.some.inj hx).symm).elim
        · obtain ⟨slot, -, rfl⟩ := Option.map_eq_some_iff.1 hx
          exact nofun

theorem inMain_onCurrent (s : Symbols) (f : Frame → Frame) :
    (s.onCurrent f).inMain = s.inMain := by
  obtain ⟨_ | ⟨frame, frames⟩, main⟩ := s <;> rfl

/-- A declaration adds its variable to what is offered, and no other. -/
theorem offers_declare (hx : (s.declare name).2.Offers x) :
    s.Offers x ∨ x = (s.declare name).1 := by
  have hmain : (s.declare name).2.inMain = s.inMain := inMain_onCurrent ..
  have hcurrent : (s.declare name).2.current = (s.current.declare name).2 :=
    current_onCurrent ..
  have htaken (slot : Nat) (h : slot ∈ (s.declare name).2.current.taken) :
      slot ∈ s.current.taken ∨ slot = (s.current.declare name).1 := by
    rw [hcurrent] at h
    cases hname : s.current.block.lookup name with
    | some slot' =>
        rw [Frame.declare_of_some hname] at h
        exact .inl h
    | none =>
        rw [Frame.declare_of_none hname] at h ⊢
        exact (List.mem_cons.1 h).symm
  cases x with
  | global slot =>
      cases hin : s.inMain with
      | false => exact .inl fun h => absurd (hin.symm.trans h) nofun
      | true =>
          refine (htaken slot (hx (hmain.trans hin))).imp (fun h _ => h) ?_
          rintro rfl
          show _ = if s.inMain then Symbol.global _ else Symbol.own _
          rw [hin]
          rfl
  | own slot =>
      obtain ⟨hin, hslot⟩ := hx
      rw [hmain] at hin
      refine (htaken slot hslot).imp (fun h => ⟨hin, h⟩) ?_
      rintro rfl
      show _ = if s.inMain then Symbol.global _ else Symbol.own _
      rw [hin]
      rfl
  | captured => exact hx.elim

/-- Where a block begins, no more is offered than in front of it. -/
theorem offers_of_openBlock (hx : s.openBlock.Offers x) : s.Offers x := by
  refine hx.mono (inMain_onCurrent ..).symm fun slot h => ?_
  rw [current_onCurrent] at h
  exact h

/-- What is offered behind a block was offered in it as well. -/
theorem offers_of_closeBlock (hx : s.closeBlock.Offers x) : s.Offers x := by
  refine hx.mono (inMain_onCurrent ..).symm fun slot h => ?_
  rw [current_onCurrent] at h
  exact s.current.taken_closeBlock_subset h

/-- Where the tables of all open blocks are the same, the same is
offered. -/
theorem Grows.offers_eq (h : s.Grows s')
    (hblock : s'.current.block = s.current.block) :
    s'.Offers = s.Offers := by
  have htaken : s'.current.taken = s.current.taken := by
    obtain ⟨f, hf, rfl⟩ := h
    rw [current_onCurrent] at hblock ⊢
    unfold Frame.taken Frame.tables
    rw [hblock, hf.outer]
  refine funext fun x => propext ⟨fun hx => ?_, fun hx => ?_⟩
  · exact hx.mono h.inMain.symm fun _ hslot => htaken ▸ hslot
  · exact hx.mono h.inMain fun _ hslot => htaken ▸ hslot

end Symbols

-- ========================================================== expressions

mutual

/-- The code of an expression reads and writes what is offered. -/
theorem exprCode_offers : ∀ (e : Expr) {start : Nat} {s s' : Emission}
    {code : List Instr}, exprCode start e s = .ok code s' →
      ∀ x ∈ accesses code, s.symbols.Offers x
  | .number _ _, _, _, _, _, h, _, hx => nomatch accesses_push h ▸ hx
  | .string _ _, _, _, _, _, h, _, hx => nomatch accesses_push h ▸ hx
  | .bool _ _, _, _, _, _, h, _, hx => nomatch accesses_push h ▸ hx
  | .nil _, _, _, _, _, h, _, hx => nomatch accesses_push h ▸ hx
  | .ident _ _, _, _, _, _, h, x, hx => by
      obtain ⟨symbol, s₁, hresolve, hcode⟩ := bind_ok.1 h
      obtain ⟨rfl, -⟩ := pure_ok.1 hcode
      obtain ⟨-, hsymbol, hne⟩ := resolve_ok hresolve
      rw [accesses_load hne, List.mem_singleton] at hx
      exact hx ▸ Symbols.offers_of_resolve? hsymbol hne
  | .group _ e, _, _, _, _, h, x, hx => exprCode_offers e h x hx
  | .unary _ _ e, _, _, _, _, h, x, hx => by
      obtain ⟨u, s₁, hrefuse, hrest⟩ := bind_ok.1 h
      obtain ⟨operand, s₂, hmade, hcode⟩ := bind_ok.1 hrest
      obtain ⟨rfl, -⟩ := pure_ok.1 hcode
      obtain rfl := refuseAny_ok hrefuse
      rw [accesses_append, accesses_cons rfl, accesses_nil, List.append_nil]
        at hx
      exact exprCode_offers e hmade x hx
  | .binary _ _ l r, _, s, _, _, h, x, hx => by
      obtain ⟨i, j, s₁, s₂, t₁, t₂, left, right, hl, hr, h₁, h₂, hcode⟩ :=
        operands_ok h
      rw [hcode] at hx
      rcases List.mem_append.1 hx with hx | hx
      · exact h₁ ▸ exprCode_offers l hl x hx
      · have hsame : s₂.symbols = s.symbols := by
          rw [h₂, (exprCode_ok l hl).steady.symbols, h₁]
        exact hsame ▸ exprCode_offers r hr x hx
  | .assign _ target e, _, s, _, _, h, x, hx => by
      obtain ⟨value, s₁, hmade, hrest⟩ := bind_ok.1 h
      obtain ⟨symbol, s₂, hresolve, hcode⟩ := bind_ok.1 hrest
      obtain ⟨rfl, -⟩ := pure_ok.1 hcode
      obtain ⟨-, hsymbol, hne⟩ := resolve_ok hresolve
      rw [(exprCode_ok e hmade).steady.symbols] at hsymbol
      rw [accesses_append, accesses_append, accesses_store hne,
        accesses_load hne, List.append_assoc] at hx
      rcases List.mem_append.1 hx with hx | hx
      · exact exprCode_offers e hmade x hx
      · obtain rfl : x = symbol := by simpa using hx
        exact Symbols.offers_of_resolve? hsymbol hne
  | .call _ callee args, _, s, _, _, h, x, hx => by
      obtain ⟨s₁, function, arguments, hf, has, rfl⟩ := callCode_steps h
      rw [accesses_append, accesses_append, accesses_cons rfl,
        accesses_nil, List.append_nil] at hx
      rcases List.mem_append.1 hx with hx | hx
      · exact exprCode_offers callee hf x hx
      · rw [← (exprCode_ok callee hf).steady.symbols]
        exact argumentCode_offers args has x hx

theorem argumentCode_offers : ∀ (es : List Expr) {start : Nat}
    {s s' : Emission} {code : List Instr},
      argumentCode start es s = .ok code s' →
        ∀ x ∈ accesses code, s.symbols.Offers x
  | [], _, _, _, _, h, x, hx => by
      obtain ⟨rfl, -⟩ := pure_ok.1 h
      exact absurd hx List.not_mem_nil
  | e :: es, _, s, _, _, h, x, hx => by
      obtain ⟨first, s₁, he, hrest⟩ := bind_ok.1 h
      obtain ⟨rest, s₂, hes, hcode⟩ := bind_ok.1 hrest
      obtain ⟨rfl, -⟩ := pure_ok.1 hcode
      rw [accesses_append] at hx
      rcases List.mem_append.1 hx with hx | hx
      · exact exprCode_offers e he x hx
      · rw [← (exprCode_ok e he).steady.symbols]
        exact argumentCode_offers es hes x hx

end

variable {s s' : Emission}

/-- An expression reads only variables that have a value. -/
theorem exprCode_marked {e : Expr} (h : exprCode start e s = .ok code s')
    (hs : s.symbols.Bounded) :
    valued.Marked start code s.symbols.Offers s.symbols.Offers := by
  obtain ⟨-, -, -, -, hin⟩ := (exprCode_piece e h hs 0).level
  exact .reading hin (exprCode_offers e h)

theorem optionalCode_marked {e : Option Expr}
    (h : optionalCode start e s = .ok code s') (hs : s.symbols.Bounded) :
    valued.Marked start code s.symbols.Offers s.symbols.Offers := by
  cases e with
  | none => exact .push h
  | some e => exact exprCode_marked h hs

end Script.Code
