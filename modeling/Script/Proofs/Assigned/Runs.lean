/-
The machine on code that reads nothing but what has a value. Each call
that is under way has come along some way through the code of its
function, since that is what an instruction does to a call: it leads it
one place further, it lets it wait, or it ends it. The slots that were
stored to on this way hold items, and so do those of the parameters. So
whatever the machine has carried out, it does not get stuck at a variable
of the function that it is in.
-/
import Script.Proofs.Assigned.Programs

namespace Script

open Code

namespace Stack

variable {c : Code} {s s' : State} {instr : Instr}

-- ================================================================= steps

/-- What an instruction does to the machine, if that goes on. -/
inductive Moves (c : Code) (s : State) : Instr → State → Prop
  | on {instr : Instr} {next : Nat} {stack : List Item} {printed : String}
      (hnext : instr.Leads s.current.place next)
      (hwrites : instr.writes? = none) :
      Moves c s instr
        { s with current := { s.current with place := next, stack }, printed }
  | storeGlobal {slot : Nat} {item : Item} {stack : List Item}
      (hslot : slot < s.globals.length) :
      Moves c s (.storeGlobal slot)
        { s with
          current := { s.current with place := s.current.place + 1, stack }
          globals := s.globals.set slot (some item) }
  | storeLocal {slot : Nat} {item : Item} {stack : List Item}
      (hslot : slot < s.current.slots.length) :
      Moves c s (.storeLocal slot)
        { s with current :=
          { s.current with
            place := s.current.place + 1, stack
            slots := s.current.slots.set slot (some item) } }
  | call {count : Nat} {f : Function} {arguments stack : List Item}
      {rest : List (Option Item)} (hf : f ∈ c.functions)
      (harity : f.arity = count) (hlength : arguments.length = count) :
      Moves c s (.call count)
        { s with
          current := ⟨f.code, 0, arguments.map some ++ rest, []⟩
          callers :=
            { s.current with place := s.current.place + 1, stack }
              :: s.callers }
  | leave {caller : Call} {callers : List Call} {result : Item}
      (hcallers : s.callers = caller :: callers) :
      Moves c s .leave
        { s with
          current := { caller with stack := result :: caller.stack }
          callers }

/-- An instruction behind which the next one follows. -/
theorem Moves.next {stack : List Item} (hgoes : instr.goesOn = true)
    (hwrites : instr.writes? = none)
    (h : s.next stack = .running s') : Moves c s instr s' := by
  cases h
  exact .on (.inr ⟨hgoes, rfl⟩) hwrites

theorem Moves.load {found : Option (Option Item)}
    (hgoes : instr.goesOn = true) (hwrites : instr.writes? = none)
    (h : s.load found = .running s') : Moves c s instr s' := by
  unfold State.load at h
  split at h
  · exact .next hgoes hwrites h
  · cases h

theorem Moves.operate {stack : List Item}
    {outcome : Except OperandFault Value} (hgoes : instr.goesOn = true)
    (hwrites : instr.writes? = none)
    (h : s.operate stack outcome = .running s') : Moves c s instr s' := by
  unfold State.operate at h
  split at h
  · split at h
    · exact .next hgoes hwrites h
    · cases h
  · cases h

theorem Moves.of_call {count : Nat} (h : s.call c count = .running s') :
    Moves c s (.call count) s' := by
  unfold State.call at h
  split at h
  · split at h
    case h_1 f hf =>
        split at h
        case isTrue hcount =>
            obtain ⟨harity, hcount⟩ := hcount
            cases h
            refine .call (List.mem_of_getElem? hf) harity ?_
            rw [List.length_reverse, List.length_take, Nat.min_eq_left hcount]
        case isFalse => cases h
    · cases h
  · cases h

/-- Everything that a step of the machine can be. -/
theorem step_moves (h : step c s = .running s') :
    ∃ instr, s.current.code[s.current.place]? = some instr
      ∧ Moves c s instr s' := by
  unfold step at h
  dsimp only at h
  split at h
  case h_1 => cases h
  case h_2 instr hinstr =>
      refine ⟨instr, hinstr, ?_⟩
      cases instr with
      | pushConst index =>
          dsimp only at h
          split at h
          · exact .next rfl rfl h
          · cases h
      | loadGlobal slot => exact .load rfl rfl h
      | loadLocal slot => exact .load rfl rfl h
      | makeFunction index =>
          dsimp only at h
          split at h
          · exact .next rfl rfl h
          · cases h
      | jump target =>
          cases h
          exact .on (.inl rfl) rfl
      | call count => exact .of_call h
      | storeGlobal slot =>
          rcases hstack : s.current.stack with _ | ⟨item, stack⟩ <;>
            rw [hstack] at h
          · cases h
          · dsimp only at h
            split at h
            case isTrue hslot =>
                cases h
                exact .storeGlobal hslot
            case isFalse => cases h
      | storeLocal slot =>
          rcases hstack : s.current.stack with _ | ⟨item, stack⟩ <;>
            rw [hstack] at h
          · cases h
          · dsimp only at h
            split at h
            case isTrue hslot =>
                cases h
                exact .storeLocal hslot
            case isFalse => cases h
      | unary op =>
          rcases hstack : s.current.stack with _ | ⟨item, stack⟩ <;>
            rw [hstack] at h
          · cases h
          · exact .operate rfl rfl h
      | binary op =>
          rcases hstack : s.current.stack with _ | ⟨r, _ | ⟨l, stack⟩⟩ <;>
            rw [hstack] at h
          · cases h
          · cases h
          · exact .operate rfl rfl h
      | jumpIfFalse target =>
          rcases hstack : s.current.stack with
            _ | ⟨(_ | _ | (_ | _) | _) | _, stack⟩ <;> rw [hstack] at h
          case cons.constant.bool.false =>
              cases h
              exact .on (.inl rfl) rfl
          case cons.constant.bool.true => exact .next rfl rfl h
          all_goals cases h
      | pop =>
          rcases hstack : s.current.stack with _ | ⟨item, stack⟩ <;>
            rw [hstack] at h
          · cases h
          · exact .next rfl rfl h
      | print =>
          rcases hstack : s.current.stack with _ | ⟨item, stack⟩ <;>
            rw [hstack] at h
          · cases h
          · cases h
            exact .on (.inr ⟨rfl, rfl⟩) rfl
      | leave =>
          rcases hstack : s.current.stack with _ | ⟨item, stack⟩ <;>
            rw [hstack] at h
          · cases h
          · dsimp only at h
            unfold State.leave at h
            split at h
            case h_1 => cases h
            case h_2 caller callers hcallers =>
                cases h
                exact .leave hcallers

-- ================================================================= calls

/-- Whether a slot holds an item. -/
def HasItem (slots : List (Option Item)) (slot : Nat) : Prop :=
  ∃ item, slots[slot]? = some (some item)

theorem HasItem.set {slots : List (Option Item)} {slot : Nat}
    (h : HasItem slots slot) (other : Nat) (item : Item) :
    HasItem (slots.set other (some item)) slot := by
  obtain ⟨held, hheld⟩ := h
  unfold HasItem
  rw [List.getElem?_set]
  split
  case isTrue heq =>
      obtain ⟨hlt, -⟩ := List.getElem?_eq_some_iff.1 hheld
      exact ⟨item, if_pos (heq ▸ hlt)⟩
  case isFalse => exact ⟨held, hheld⟩

theorem hasItem_set {slots : List (Option Item)} {slot : Nat}
    (hslot : slot < slots.length) (item : Item) :
    HasItem (slots.set slot (some item)) slot :=
  ⟨item, List.getElem?_set_self hslot⟩

/-- How a call stands in its function: at the end of a way through the
code, with items in the slots of the parameters and in those that were
stored to on this way. -/
structure Call.Arrived (f : Function) (k : Call) (run : List Instr) :
    Prop where
  code : k.code = f.code
  way : Way k.code run k.place
  params : ∀ slot < f.arity, HasItem k.slots slot
  written : ∀ slot, .storeLocal slot ∈ run → HasItem k.slots slot

/-- The calls that are under way, the innermost one first. The outermost
one is that of the main function, and the globals that it stored to hold
items. -/
inductive Calls (c : Code) (globals : List (Option Item)) :
    List Call → Prop
  | main {k : Call} {main : Function} {others : List Function}
      {run : List Instr} (hmain : c.functions = main :: others)
      (h : k.Arrived main run)
      (hglobals : ∀ slot, .storeGlobal slot ∈ run → HasItem globals slot) :
      Calls c globals [k]
  | inner {k : Call} {f : Function} {run : List Instr} {ks : List Call}
      (hf : f ∈ c.functions) (h : k.Arrived f run)
      (hks : Calls c globals ks) : Calls c globals (k :: ks)

variable {globals globals' : List (Option Item)} {k k' : Call}
  {ks : List Call}

theorem Calls.mono (h : Calls c globals ks)
    (hglobals : ∀ slot, HasItem globals slot → HasItem globals' slot) :
    Calls c globals' ks := by
  induction h with
  | main hmain h hwritten =>
      exact .main hmain h fun slot hslot => hglobals slot (hwritten slot hslot)
  | inner hf h _ ih => exact .inner hf h ih

/-- The innermost call is led one place further. -/
theorem Calls.advance (h : Calls c globals (k :: ks))
    (hinstr : k.code[k.place]? = some instr) (hcode : k'.code = k.code)
    (hnext : instr.Leads k.place k'.place)
    (hslots : ∀ slot, HasItem k.slots slot ∨ instr = .storeLocal slot →
      HasItem k'.slots slot)
    (hglobals : ∀ slot, HasItem globals slot ∨ instr = .storeGlobal slot →
      HasItem globals' slot) : Calls c globals' (k' :: ks) := by
  have harrived {f : Function} {run : List Instr} (h : k.Arrived f run) :
      k'.Arrived f (run ++ [instr]) := by
    refine ⟨hcode.trans h.code, hcode ▸ h.way.step hinstr hnext,
      fun slot hslot => hslots slot (.inl (h.params slot hslot)),
      fun slot hslot => hslots slot ?_⟩
    rcases List.mem_append.1 hslot with hslot | hslot
    · exact .inl (h.written slot hslot)
    · exact .inr (List.mem_singleton.1 hslot).symm
  cases h with
  | main hmain h hwritten =>
      refine .main hmain (harrived h) fun slot hslot => hglobals slot ?_
      rcases List.mem_append.1 hslot with hslot | hslot
      · exact .inl (hwritten slot hslot)
      · exact .inr (List.mem_singleton.1 hslot).symm
  | inner hf h hks =>
      exact .inner hf (harrived h)
        (hks.mono fun slot hslot => hglobals slot (.inl hslot))

/-- The stack of a call does not matter. -/
theorem Calls.restack (h : Calls c globals (k :: ks)) (stack : List Item) :
    Calls c globals ({ k with stack } :: ks) := by
  cases h with
  | main hmain h hwritten => exact .main hmain { h with } hwritten
  | inner hf h hks => exact .inner hf { h with } hks

theorem Calls.behind (h : Calls c globals (k :: k' :: ks)) :
    Calls c globals (k' :: ks) := by
  cases h with
  | inner _ _ hks => exact hks

-- ================================================================== runs

/-- Whatever an instruction does, all calls stand as they should. -/
theorem Moves.calls (h : Moves c s instr s')
    (hinstr : s.current.code[s.current.place]? = some instr)
    (hs : Calls c s.globals (s.current :: s.callers)) :
    Calls c s'.globals (s'.current :: s'.callers) := by
  cases h with
  | on hnext hwrites =>
      refine hs.advance hinstr rfl hnext ?_ ?_
      all_goals
        rintro slot (hslot | rfl)
        · exact hslot
        · cases hwrites
  | storeGlobal hslot =>
      refine hs.advance hinstr rfl (.inr ⟨rfl, rfl⟩) ?_ ?_
      · rintro other (hother | hother)
        · exact hother
        · cases hother
      · rintro other (hother | hother)
        · exact hother.set ..
        · cases hother
          exact hasItem_set hslot _
  | storeLocal hslot =>
      refine hs.advance hinstr rfl (.inr ⟨rfl, rfl⟩) ?_ ?_
      · rintro other (hother | hother)
        · exact hother.set ..
        · cases hother
          exact hasItem_set hslot _
      · rintro other (hother | hother)
        · exact hother
        · cases hother
  | @call count f arguments stack rest hf harity hlength =>
      have hparams (slot : Nat) (hslot : slot < f.arity) :
          HasItem (arguments.map some ++ rest) slot := by
        have hlt : slot < arguments.length := by omega
        refine ⟨arguments[slot], ?_⟩
        rw [List.getElem?_append_left (by simpa using hlt)]
        simp [hlt]
      refine .inner hf ⟨rfl, .start, hparams, nofun⟩
        (hs.advance hinstr rfl (.inr ⟨rfl, rfl⟩) ?_ ?_)
      all_goals
        rintro slot (hslot | hslot)
        · exact hslot
        · cases hslot
  | leave hcallers =>
      rw [hcallers] at hs
      exact hs.behind.restack _

theorem run_calls {n : Nat} (h : run c n s = .running s')
    (hs : Calls c s.globals (s.current :: s.callers)) :
    Calls c s'.globals (s'.current :: s'.callers) := by
  induction n generalizing s with
  | zero =>
      cases h
      exact hs
  | succ n ih =>
      unfold run at h
      split at h
      case h_1 s₁ hstep =>
          obtain ⟨instr, hinstr, hmoves⟩ := step_moves hstep
          exact ih h (hmoves.calls hinstr hs)
      case h_2 hstops => exact (hstops _ h).elim

/-- In the beginning only the main function is called. -/
theorem start_calls {code : List Instr} {others : List Function}
    (h : c.functions = ⟨mainName, 0, [], code⟩ :: others) :
    Calls c (start c).globals [(start c).current] := by
  unfold start
  rw [h]
  exact .main h ⟨rfl, .start, nofun, nofun⟩ nofun

end Stack

/-- Running the code of a program, the machine never comes to a variable
of the function it is in that holds nothing: neither to one of the
function's own slots, nor, in the main function, to a global. -/
theorem Program.loads_find {file : FileId} {text : String} {c : Code}
    (hread : hasErrors (ofText file text).2 = false)
    (hcode : (Code.ofProgram (ofText file text).1).1 = some c)
    {n : Nat} {s : Stack.State}
    (hrun : Stack.run c n (Stack.start c) = .running s) :
    (∀ slot, s.current.code[s.current.place]? = some (.loadLocal slot) →
        Stack.HasItem s.current.slots slot)
      ∧ (s.callers = [] →
        ∀ slot, s.current.code[s.current.place]? = some (.loadGlobal slot) →
          Stack.HasItem s.globals slot) := by
  obtain ⟨hassigned, code, others, hfunctions, hmain⟩ :=
    code_assigned hread hcode
  have hcalls := Stack.run_calls hrun (Stack.start_calls hfunctions)
  have hlocal {f : Function} {run : List Instr} {slot : Nat}
      (hf : f ∈ c.functions) (harrived : s.current.Arrived f run)
      (hload : s.current.code[s.current.place]? = some (.loadLocal slot)) :
      Stack.HasItem s.current.slots slot := by
    rw [harrived.code] at hload
    rcases hassigned f hf run _ _ (.own slot) (harrived.code ▸ harrived.way)
      hload rfl with hgiven | ⟨instr, hinstr, hwrites⟩
    · exact harrived.params slot hgiven
    · exact harrived.written slot (Instr.writes?_own.1 hwrites ▸ hinstr)
  generalize s.callers = callers at hcalls
  cases hcalls with
  | inner hf harrived hcallers =>
      refine ⟨fun slot => hlocal hf harrived, ?_⟩
      rintro rfl
      cases hcallers
  | main hfirst harrived hwritten =>
      have hf := hfirst ▸ List.mem_cons_self
      obtain ⟨rfl, -⟩ := List.cons.inj (hfirst.symm.trans hfunctions)
      refine ⟨fun slot => hlocal hf harrived, fun _ slot hload => ?_⟩
      rw [harrived.code] at hload
      rcases hmain _ _ _ (.global slot) (harrived.code ▸ harrived.way) hload
        rfl with hgiven | ⟨instr, hinstr, hwrites⟩
      · exact hgiven.elim
      · exact hwritten slot (Instr.writes?_global.1 hwrites ▸ hinstr)

end Script
