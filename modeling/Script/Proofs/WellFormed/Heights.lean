/-
Well-formed code. Indices are in range, jumps stay inside of their
function, and the stack has one height at each place that can be reached,
whatever way leads there. The height is never too low for an instruction,
and it is one where a function is left.

Heights are marks at the places of code. A piece of code is level if it is
marked with heights, one for each of its places, and so level pieces are
put together by the rules for marked ones.
-/
import Script.Proofs.WellFormed.Marks

namespace Script.Code

-- ========================================================= instructions

namespace Instr

/-- How many values an instruction takes from the stack. -/
def pops : Instr → Nat
  | .pushConst _ | .loadGlobal _ | .loadLocal _ | .makeFunction _
  | .jump _ => 0
  | .storeGlobal _ | .storeLocal _ | .unary _ | .jumpIfFalse _ | .pop
  | .print | .leave => 1
  | .binary _ => 2
  | .call count => count + 1

/-- How many values an instruction puts on the stack. -/
def pushes : Instr → Nat
  | .pushConst _ | .loadGlobal _ | .loadLocal _ | .makeFunction _
  | .unary _ | .binary _ | .call _ => 1
  | .storeGlobal _ | .storeLocal _ | .jump _ | .jumpIfFalse _ | .pop
  | .print | .leave => 0

end Instr

/-- How many constants, globals and functions there are. -/
structure Extent where
  constants : Nat
  globals : Nat
  functions : Nat

/-- Whether there is at least as much of everything. -/
structure Extent.Within (x y : Extent) : Prop where
  constants : x.constants ≤ y.constants
  globals : x.globals ≤ y.globals
  functions : x.functions ≤ y.functions

/-- Whether the index of an instruction is in range, in a function with so
many slots. -/
def Instr.InRange (x : Extent) (locals : Nat) : Instr → Prop
  | .pushConst index => index < x.constants
  | .loadGlobal slot | .storeGlobal slot => slot < x.globals
  | .loadLocal slot | .storeLocal slot => slot < locals
  | .makeFunction index => index < x.functions
  | _ => True

-- ============================================================ functions

/-- The places that the machine can come to in a function, each with the
height of the stack that the way there makes. -/
inductive Along (code : List Instr) : Nat → Int → Prop
  | start : Along code 0 0
  | step {place next : Nat} {height : Int} {instr : Instr}
      (h : Along code place height) (hinstr : code[place]? = some instr)
      (hnext : instr.Leads place next) :
      Along code next (height - instr.pops + instr.pushes)

/-- Whether all ways to a place make the same height, there is always an
instruction with enough on the stack, and nothing but the result is there
when the function is left. -/
def HasHeights (code : List Instr) : Prop :=
  ∃ height : Nat → Nat, ∀ place h, Along code place h →
    h = height place ∧ ∃ instr, code[place]? = some instr
      ∧ instr.pops ≤ height place ∧ (instr = .leave → height place = 1)

/-- Whether a function is well formed among so many others. -/
structure Function.WellFormed (x : Extent) (f : Function) : Prop where
  targets : ∀ instr ∈ f.code, ∀ target, instr.target? = some target →
    target < f.code.length
  indices : ∀ instr ∈ f.code, instr.InRange x f.locals.length
  arity : f.arity ≤ f.locals.length
  heights : HasHeights f.code

end Code

/-- How much there is of everything in a program. -/
def Code.extent (c : Code) : Code.Extent :=
  ⟨c.constants.length, c.globals.length, c.functions.length⟩

/-- Whether all functions of a program are well formed. -/
def Code.WellFormed (c : Code) : Prop :=
  ∀ f ∈ c.functions, f.WellFormed c.extent

namespace Code

variable {x y : Extent} {locals locals' : Nat} {instr : Instr}

theorem Instr.InRange.mono (h : instr.InRange x locals) (hxy : x.Within y)
    (hlocals : locals ≤ locals') : instr.InRange y locals' := by
  cases instr with
  | pushConst index => exact Nat.lt_of_lt_of_le h hxy.constants
  | loadGlobal slot => exact Nat.lt_of_lt_of_le h hxy.globals
  | storeGlobal slot => exact Nat.lt_of_lt_of_le h hxy.globals
  | loadLocal slot => exact Nat.lt_of_lt_of_le h hlocals
  | storeLocal slot => exact Nat.lt_of_lt_of_le h hlocals
  | makeFunction index => exact Nat.lt_of_lt_of_le h hxy.functions
  | _ => trivial

theorem Function.WellFormed.mono {f : Function} (h : f.WellFormed x)
    (hxy : x.Within y) : f.WellFormed y :=
  { h with
    indices := fun instr hinstr =>
      (h.indices instr hinstr).mono hxy (Nat.le_refl _) }

-- =============================================================== pieces

/-- Whether heights agree with an instruction at a place. -/
structure Agrees (height : Nat → Nat) (place : Nat) (instr : Instr) :
    Prop where
  enough : instr.pops ≤ height place
  result : instr = .leave → height place = 1
  next : ∀ next, instr.Leads place next →
    height next = height place - instr.pops + instr.pushes

/-- Whether heights agree with code that starts at a place. -/
def Typed (height : Nat → Nat) (start : Nat) (code : List Instr) : Prop :=
  ∀ k instr, code[k]? = some instr → Agrees height (start + k) instr

/-- Whether code that starts at a place takes the stack from one height to
another. -/
def Level (start : Nat) (code : List Instr) (before behind : Nat) : Prop :=
  ∃ height, height start = before ∧ height (start + code.length) = behind
    ∧ Typed height start code ∧ Inside start code

variable {start before between behind : Nat} {l r code : List Instr}
  {height : Nat → Nat}

/-- Heights are marks of which all is known. -/
def heights : Marking Nat where
  asks instr h := instr.pops ≤ h ∧ (instr = .leave → h = 1)
  leads instr h next := next = h - instr.pops + instr.pushes
  below := Eq
  below_refl := Eq.refl
  below_trans := Eq.trans
  leads_below hleads hbelow := hbelow.trans hleads
  jump _ _ := ⟨⟨Nat.zero_le _, nofun⟩, rfl⟩

theorem agrees_iff {place : Nat} :
    heights.Agrees height place instr ↔ Agrees height place instr :=
  ⟨fun ⟨⟨henough, hresult⟩, hnext⟩ => ⟨henough, hresult, hnext⟩,
    fun ⟨henough, hresult, hnext⟩ => ⟨⟨henough, hresult⟩, hnext⟩⟩

/-- A piece is level if it is marked with heights. -/
theorem level_iff :
    heights.Marked start code before behind
      ↔ Level start code before behind :=
  exists_congr fun _ => and_congr_right fun _ => and_congr_right fun _ =>
    and_congr_left fun _ => forall_congr' fun _ => forall_congr' fun _ =>
      imp_congr_right fun _ => agrees_iff

/-- A test takes the truth value from the stack. -/
theorem heights_test (target before : Nat) :
    heights.asks (.jumpIfFalse target) (before + 1)
      ∧ heights.leads (.jumpIfFalse target) (before + 1) before :=
  ⟨⟨Nat.le_add_left .., nofun⟩, rfl⟩

-- ================================================================ rules

namespace Level

theorem nil : Level start [] before before := level_iff.1 .nil

/-- An instruction without a jump. -/
theorem single (htarget : instr.target? = none)
    (hleave : instr ≠ .leave) (henough : instr.pops ≤ before) :
    Level start [instr] before (before - instr.pops + instr.pushes) :=
  level_iff.1 (.single htarget ⟨henough, (absurd · hleave)⟩ fun _ => rfl)

/-- Behind a function that is left, any height will do. -/
theorem leave (behind : Nat) : Level start [.leave] 1 behind :=
  level_iff.1 (.single rfl ⟨Nat.le_refl 1, fun _ => rfl⟩ nofun)

theorem append (hl : Level start l before between)
    (hr : Level (start + l.length) r between behind) :
    Level start (l ++ r) before behind :=
  level_iff.1 ((level_iff.2 hl).append (level_iff.2 hr))

/-- One of two pieces, by the truth value on the stack. -/
theorem choice {yes no : List Instr} {isFalse done : Nat}
    (hyes : Level (start + 1) yes before behind)
    (hno : Level isFalse no before behind)
    (hisFalse : isFalse = start + 1 + yes.length + 1)
    (hdone : done = isFalse + no.length) :
    Level start (.jumpIfFalse isFalse :: (yes ++ .jump done :: no))
      (before + 1) behind :=
  have ⟨hasks, hleads⟩ := heights_test isFalse before
  level_iff.1 (.choice hasks hleads (level_iff.2 hyes) (level_iff.2 hno)
    hisFalse hdone)

/-- A piece or nothing, by the truth value on the stack. -/
theorem branch {yes : List Instr} {done : Nat}
    (hyes : Level (start + 1) yes before before)
    (hdone : done = start + 1 + yes.length) :
    Level start (.jumpIfFalse done :: yes) (before + 1) before :=
  have ⟨hasks, hleads⟩ := heights_test done before
  level_iff.1 (.branch hasks hleads (level_iff.2 hyes) hdone)

/-- A piece that is run again and again, with a test in front of it. -/
theorem loop {test body : List Instr} {done : Nat}
    (htest : Level start test before (before + 1))
    (hbody : Level (start + test.length + 1) body before before)
    (hdone : done = start + test.length + 1 + body.length + 1) :
    Level start (test ++ .jumpIfFalse done :: (body ++ [.jump start]))
      before before :=
  have ⟨hasks, hleads⟩ := heights_test done before
  level_iff.1 (.loop hasks hleads (level_iff.2 htest) (level_iff.2 hbody)
    hdone)

end Level

-- ====================================================== whole functions

/-- A level piece that leaves its result on the stack makes a function. -/
theorem Level.hasHeights (h : Level 0 code 0 1) :
    HasHeights (code ++ [.leave]) := by
  obtain ⟨height, h₀, h₁, htyped, hin⟩ := h
  rw [Nat.zero_add] at h₁
  refine ⟨height, fun place i hplace => ?_⟩
  -- No way leads out of the code, since the last instruction ends it.
  have halong : i = height place ∧ place ≤ code.length := by
    induction hplace with
    | start => exact ⟨by rw [h₀]; rfl, Nat.zero_le _⟩
    | @step place next i instr _ hinstr hnext ih =>
        obtain ⟨rfl, hle⟩ := ih
        by_cases hlt : place < code.length
        · rw [List.getElem?_append_left hlt] at hinstr
          have hplace : place = 0 + place := (Nat.zero_add _).symm
          have hagrees := htyped place instr hinstr
          rw [← hplace] at hagrees
          have hinside := hin.leads hinstr (hplace ▸ hnext)
          refine ⟨?_, by omega⟩
          rw [hagrees.next next hnext]
          have := hagrees.enough
          omega
        · obtain rfl : place = code.length := by omega
          rw [List.getElem?_concat_length] at hinstr
          cases hinstr
          rcases hnext with hnext | ⟨hnext, -⟩ <;> cases hnext
  obtain ⟨rfl, hle⟩ := halong
  refine ⟨rfl, ?_⟩
  by_cases hlt : place < code.length
  · obtain ⟨henough, hresult, -⟩ :=
      htyped place _ (List.getElem?_eq_getElem hlt)
    rw [Nat.zero_add] at henough hresult
    refine ⟨code[place], ?_, henough, hresult⟩
    rw [List.getElem?_append_left hlt, List.getElem?_eq_getElem hlt]
  · obtain rfl : place = code.length := by omega
    exact ⟨.leave, List.getElem?_concat_length .., Nat.le_of_eq h₁.symm,
      fun _ => h₁⟩

/-- A level piece with its indices in range makes a well-formed function
when the result that it leaves on the stack is returned. -/
theorem Level.wellFormed {f : Function} (h : Level 0 code 0 1)
    (hcode : f.code = code ++ [.leave])
    (hindices : ∀ instr ∈ code, instr.InRange x f.locals.length)
    (harity : f.arity ≤ f.locals.length) : f.WellFormed x where
  targets instr hinstr target htarget := by
    rw [hcode] at hinstr ⊢
    rw [List.length_append]
    rcases List.mem_append.1 hinstr with hinstr | hinstr
    · obtain ⟨-, -, -, -, hin⟩ := h
      obtain ⟨-, hle⟩ := hin instr hinstr target htarget
      exact Nat.lt_succ_of_le (Nat.zero_add code.length ▸ hle)
    · obtain rfl := List.mem_singleton.1 hinstr
      cases htarget
  indices instr hinstr := by
    rw [hcode] at hinstr
    rcases List.mem_append.1 hinstr with hinstr | hinstr
    · exact hindices instr hinstr
    · obtain rfl := List.mem_singleton.1 hinstr
      trivial
  arity := harity
  heights := hcode ▸ h.hasHeights

end Code

end Script
