/-
Runs of the machine, instruction by instruction. For each instruction
there is one lemma that says where it leads, from one place of a function
to another; runs are put together from these.
-/
import Script.Proofs.Stack.Nested

namespace Script.Stack

open Code

/-- The machine at a place of a function. -/
def World.state (w : World) (full : List Instr) (callers : List Call)
    (place : Nat) (stack : List Item) : State :=
  ⟨⟨full, place, w.slots, stack⟩, callers, w.globals, w.printed⟩

/-- The variables of a machine that printed one more line. -/
def World.line (w : World) (text : String) : World :=
  { w with printed := w.printed ++ (text ++ "\n") }

/-- Whether the machine comes from one state to another. -/
def Reaches (c : Code) (s s' : State) : Prop :=
  ∃ n, run c n s = .running s'

variable {c : Code} {s s' s'' : State} {full : List Instr}
  {callers : List Call} {i j : Nat} {stack : List Item} {w w' : World}
  {item a b : Item}

theorem run_add {n : Nat} (h : run c n s = .running s') (k : Nat) :
    run c (n + k) s = run c k s' := by
  induction n generalizing s with
  | zero =>
      cases h
      rw [Nat.zero_add]
  | succ n ih =>
      rw [Nat.add_right_comm, run]
      rw [run] at h
      split at h
      case h_1 => exact ih h
      case h_2 hstop => exact (hstop s' h).elim

namespace Reaches

theorem refl (c : Code) (s : State) : Reaches c s s := ⟨0, rfl⟩

theorem trans (h : Reaches c s s') (h' : Reaches c s' s'') :
    Reaches c s s'' := by
  obtain ⟨n, hn⟩ := h
  obtain ⟨k, hk⟩ := h'
  exact ⟨n + k, (run_add hn k).trans hk⟩

theorem one (h : step c s = .running s') : Reaches c s s' :=
  ⟨1, by rw [run, h]; rfl⟩

/-- A machine that comes to a leave in the main function is finished. -/
theorem finished (h : Reaches c s (w.state full [] i (item :: stack)))
    (hleave : full[i]? = some .leave) :
    ∃ n, run c n s = .finished item w.printed := by
  obtain ⟨n, hn⟩ := h
  refine ⟨n + 1, (run_add hn 1).trans ?_⟩
  have hstep : step c (w.state full [] i (item :: stack)) =
      .finished item w.printed := by
    unfold step
    simp only [World.state, hleave]
    rfl
  rw [run, hstep]

-- ======================================================== instructions

theorem push {k : Constant} (h : PushAt c.constants full i k) :
    Reaches c (w.state full callers i stack)
      (w.state full callers (i + 1) (.constant k :: stack)) := by
  obtain ⟨index, hinstr, hk⟩ := h
  refine .one ?_
  unfold step
  simp only [World.state, hinstr, hk]
  rfl

theorem load {x : Symbol} {instr : Instr} (hload : IsLoad x instr)
    (h : full[i]? = some instr) (hread : w.read x = some item) :
    Reaches c (w.state full callers i stack)
      (w.state full callers (i + 1) (item :: stack)) := by
  refine .one ?_
  unfold step
  cases hload with
  | global slot =>
      have hslot : w.globals[slot]? = some (some item) :=
        Option.join_eq_some_iff.1 hread
      simp only [World.state, h, hslot]
      rfl
  | own slot =>
      have hslot : w.slots[slot]? = some (some item) :=
        Option.join_eq_some_iff.1 hread
      simp only [World.state, h, hslot]
      rfl

theorem store {x : Symbol} {instr : Instr} (hstore : IsStore x instr)
    (h : full[i]? = some instr) (hhas : w.has x) :
    Reaches c (w.state full callers i (item :: stack))
      ((w.write item x).state full callers (i + 1) stack) := by
  refine .one ?_
  unfold step
  cases hstore with
  | global slot =>
      have hslot : slot < w.globals.length := hhas
      simp only [World.state, h, hslot, if_true]
      rfl
  | own slot =>
      have hslot : slot < w.slots.length := hhas
      simp only [World.state, h, hslot, if_true]
      rfl

theorem makeFunction {index : Nat}
    (h : full[i]? = some (.makeFunction index))
    (hindex : index < c.functions.length) :
    Reaches c (w.state full callers i stack)
      (w.state full callers (i + 1) (.function index :: stack)) := by
  refine .one ?_
  unfold step
  simp only [World.state, h, hindex, if_true]
  rfl

theorem unary {op : UnaryOp} {k : Constant}
    (h : full[i]? = some (.unary op))
    (hop : op.apply (a.value c) = .ok k.value)
    (hk : Constant.ofValue? k.value = some k) :
    Reaches c (w.state full callers i (a :: stack))
      (w.state full callers (i + 1) (.constant k :: stack)) := by
  refine .one ?_
  unfold step
  simp only [World.state, h, hop, State.operate, hk]
  rfl

theorem binary {op : BinaryOp} {k : Constant}
    (h : full[i]? = some (.binary op))
    (hop : op.apply (a.value c) (b.value c) = .ok k.value)
    (hk : Constant.ofValue? k.value = some k) :
    Reaches c (w.state full callers i (b :: a :: stack))
      (w.state full callers (i + 1) (.constant k :: stack)) := by
  refine .one ?_
  unfold step
  simp only [World.state, h, hop, State.operate, hk]
  rfl

theorem jump (h : full[i]? = some (.jump j)) :
    Reaches c (w.state full callers i stack)
      (w.state full callers j stack) := by
  refine .one ?_
  unfold step
  simp only [World.state, h]
  rfl

theorem jumpIfTrue (h : full[i]? = some (.jumpIfFalse j)) :
    Reaches c (w.state full callers i (.constant (.bool true) :: stack))
      (w.state full callers (i + 1) stack) := by
  refine .one ?_
  unfold step
  simp only [World.state, h]
  rfl

theorem jumpIfFalse (h : full[i]? = some (.jumpIfFalse j)) :
    Reaches c (w.state full callers i (.constant (.bool false) :: stack))
      (w.state full callers j stack) := by
  refine .one ?_
  unfold step
  simp only [World.state, h]
  rfl

theorem pop (h : full[i]? = some .pop) :
    Reaches c (w.state full callers i (item :: stack))
      (w.state full callers (i + 1) stack) := by
  refine .one ?_
  unfold step
  simp only [World.state, h]
  rfl

theorem print (h : full[i]? = some .print) :
    Reaches c (w.state full callers i (item :: stack))
      ((w.line (item.value c).text).state full callers (i + 1) stack) := by
  refine .one ?_
  unfold step
  simp only [World.state, h]
  rfl

/-- A call lays the arguments out in the slots, in the order in which
they were pushed. -/
theorem call {index : Nat} {f : Function} {items : List Item}
    (h : full[i]? = some (.call items.length))
    (hf : c.functions[index]? = some f) (harity : f.arity = items.length) :
    Reaches c
      (w.state full callers i (items.reverse ++ .function index :: stack))
      ((w.enter items f.locals.length).state f.code
        (⟨full, i + 1, w.slots, stack⟩ :: callers) 0 []) := by
  refine .one ?_
  unfold step
  have hdrop : (items.reverse ++ .function index :: stack).drop
      items.length = .function index :: stack :=
    List.drop_left' (List.length_reverse ..)
  have htake : (items.reverse ++ .function index :: stack).take
      items.length = items.reverse :=
    List.take_left' (List.length_reverse ..)
  have hle : items.length ≤
      (items.reverse ++ .function index :: stack).length := by
    rw [List.length_append, List.length_reverse]
    exact Nat.le_add_right ..
  simp only [World.state, h, State.call, hdrop, htake, hf, harity, hle,
    and_self, if_true, List.reverse_reverse]
  rfl

/-- A return goes on in the caller with the result. -/
theorem leave {code : List Instr} {stack' : List Item}
    (h : code[j]? = some .leave) :
    Reaches c
      (w'.state code (⟨full, i, w.slots, stack⟩ :: callers) j
        (item :: stack'))
      ((w.resume w').state full callers i (item :: stack)) := by
  refine .one ?_
  unfold step
  simp only [World.state, h]
  rfl

end Reaches

end Script.Stack
