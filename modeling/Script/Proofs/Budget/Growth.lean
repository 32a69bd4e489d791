/-
What every run leaves in place. Output is only ever added to, scopes are
only ever created, and none of them changes the scope around it. These
facts hold of a run however it ends, and so of one that is cut off in the
middle as well.
-/
import Script.Eval.Basic
import Script.Proofs.Heap

namespace Script

/-- Behind some writes, the bytes that a sink had come first. -/
def Sink.Extends (s t : Sink) : Prop :=
  ∃ more, t.written = s.written ++ more

theorem Sink.Extends.refl (s : Sink) : s.Extends s :=
  ⟨.empty, ByteArray.append_empty.symm⟩

theorem Sink.Extends.trans {s t u : Sink} (h : s.Extends t)
    (h' : t.Extends u) : s.Extends u := by
  obtain ⟨a, ha⟩ := h
  obtain ⟨b, hb⟩ := h'
  exact ⟨a ++ b, by rw [hb, ha, ByteArray.append_assoc]⟩

theorem Sink.extends_write (s : Sink) (text : String) :
    s.Extends (s.write text).2 := by
  obtain ⟨written, room⟩ := s
  unfold Sink.write
  cases room with
  | none => exact ⟨_, rfl⟩
  | some room =>
      dsimp only
      split
      · exact ⟨_, rfl⟩
      · exact ⟨_, rfl⟩

theorem Sink.room_write {s : Sink} (h : s.room = none) (text : String) :
    (s.write text).2.room = none := by
  unfold Sink.write
  rw [h]

namespace Eval

/-- What a run may have done to a machine. -/
structure Machine.Grows (m m' : Machine) : Prop where
  printed : m.sink.Extends m'.sink
  room : m.sink.room = none → m'.sink.room = none
  size : m.heap.scopes.size ≤ m'.heap.scopes.size
  parent : ∀ i < m.heap.scopes.size,
    (m'.heap.scopes[i]?).map (·.parent) = (m.heap.scopes[i]?).map (·.parent)

/-- The machine behind an action, however the action ended. -/
def behind {α : Type} : EStateM.Result Stop Machine α → Machine
  | .ok _ m => m
  | .error _ m => m

namespace Machine.Grows

variable {m m' m'' : Machine}

theorem refl (m : Machine) : m.Grows m where
  printed := .refl m.sink
  room := id
  size := Nat.le_refl _
  parent _ _ := rfl

theorem trans (h : m.Grows m') (h' : m'.Grows m'') : m.Grows m'' where
  printed := h.printed.trans h'.printed
  room hroom := h'.room (h.room hroom)
  size := Nat.le_trans h.size h'.size
  parent i hi := (h'.parent i (Nat.lt_of_lt_of_le hi h.size)).trans
    (h.parent i hi)

theorem count (m : Machine) (steps : Nat) : m.Grows { m with steps } where
  printed := .refl m.sink
  room := id
  size := Nat.le_refl _
  parent _ _ := rfl

theorem define (m : Machine) (i : ScopeId) (name : String) (v : Value) :
    m.Grows { m with heap := m.heap.define i name v } where
  printed := .refl m.sink
  room := id
  size := Nat.le_of_eq (m.heap.size_define i name v).symm
  parent j hj := by
    show ((m.heap.define i name v).scopes[j]?).map (·.parent) = _
    by_cases hji : j = i
    · subst hji
      have hs := Array.getElem?_eq_getElem hj
      rw [Heap.getElem?_define_self hs, hs]
      rfl
    · rw [Heap.getElem?_define_of_ne _ hji]

theorem child (m : Machine) (parent : ScopeId) :
    m.Grows { m with heap := (m.heap.child parent).2 } where
  printed := .refl m.sink
  room := id
  size := by
    show _ ≤ (m.heap.child parent).2.scopes.size
    rw [Heap.size_child]
    exact Nat.le_succ _
  parent j hj := congrArg _ (m.heap.getElem?_child_of_lt parent hj)

theorem write (m : Machine) (text : String) :
    m.Grows { m with sink := (m.sink.write text).2 } where
  printed := m.sink.extends_write text
  room h := Sink.room_write h text
  size := Nat.le_refl _
  parent _ _ := rfl

end Machine.Grows

/-- An action under which a machine grows. -/
def Growing {α : Type} (x : Run α) : Prop :=
  ∀ m : Machine, m.Grows (behind (x m))

namespace Growing

variable {α β : Type}

theorem pure (a : α) : Growing (pure a : Run α) :=
  fun m => .refl m

theorem throw (e : Stop) : Growing (throw e : Run α) :=
  fun m => .refl m

theorem bind {x : Run α} {f : α → Run β} (hx : Growing x)
    (hf : ∀ m a m', x m = .ok a m' → Growing (f a)) : Growing (x >>= f) := by
  intro m
  have hm := hx m
  show m.Grows (behind (EStateM.bind x f m))
  unfold EStateM.bind
  cases hrun : x m with
  | ok a m' =>
      rw [hrun] at hm
      exact hm.trans (hf m a m' hrun m')
  | error e m' =>
      rw [hrun] at hm
      exact hm

theorem ite {c : Prop} [Decidable c] {x y : Run α} (hx : Growing x)
    (hy : Growing y) : Growing (if c then x else y) := by
  by_cases hc : c
  · rw [if_pos hc]
    exact hx
  · rw [if_neg hc]
    exact hy

theorem tick (limits : Limits) (span : Span) :
    Growing (Run.tick limits span) := by
  refine .bind (fun m => .count m _) fun _ _ _ _ => ?_
  cases limits.steps with
  | none => exact .pure ()
  | some limit =>
      exact .bind (fun m => .refl m) fun _ _ _ _ => .ite (.throw _) (.pure _)

theorem lookup (place : Place) (name : String) (span : Span) :
    Growing (Run.lookup place name span) := by
  refine .bind (fun m => .refl m) fun _ m _ _ => ?_
  cases m.heap.get? place.scope name with
  | none => exact .throw _
  | some v => exact .pure v

theorem define (place : Place) (name : String) (v : Value) :
    Growing (Run.define place name v) :=
  fun m => .define m place.scope name v

theorem assign (place : Place) (target : Ident) (v : Value) :
    Growing (Run.assign place target v) := by
  refine .bind (fun m => .refl m) fun _ m _ _ => ?_
  cases m.heap.owner? place.scope target.name with
  | none => exact .throw _
  | some i => exact fun m => .define m i target.name v

theorem child (parent : ScopeId) : Growing (Run.child parent) :=
  fun m => .child m parent

theorem printLine (text : String) (span : Span) :
    Growing (Run.printLine text span) :=
  .bind (fun m => .write m (text ++ "\n")) fun _ _ _ _ =>
    .ite (.pure _) (.throw _)

end Growing

end Eval

end Script
