/-
Operators on items. A constant is handed to an operator as its own value,
so there is nothing to show for it. A function is handed over as a
stand-in, which all operators but the comparison for being the same
refuse, as they do the function itself; the stand-ins of two functions
are the same exactly if these have one place in the code, which is to
say one declaration. What an operator yields is never a function.
-/
import Script.Proofs.Stack.Agreement

namespace Script.Stack

open Code

/-- The code knows the functions of a program by their names, and no
declaration of the program stands in two places. -/
structure Named (c : Code) (fs : List FnDecl) : Prop where
  name : ∀ (k : Nat) (d : FnDecl), fs[k]? = some d →
    ∃ f, c.functions[k + 1]? = some f ∧ f.name = d.name.name
  apart : ∀ (k l : Nat) (d e : FnDecl), fs[k]? = some d →
    fs[l]? = some e → d.id = e.id → k = l

@[simp] theorem ofValue?_value (k : Constant) :
    Constant.ofValue? k.value = some k := by
  cases k <;> rfl

/-- An operator with one operand yields a constant. -/
theorem constant_of_unary {op : UnaryOp} {v r : Value}
    (h : op.apply v = .ok r) : ∃ k : Constant, k.value = r := by
  unfold UnaryOp.apply at h
  split at h
  case h_1 x =>
      cases h
      exact ⟨.number (-x), rfl⟩
  case h_2 b =>
      cases h
      exact ⟨.bool !b, rfl⟩
  case h_3 => cases h

theorem constant_of_numbers {op : BinaryOp} {x y : Float} {r : Value}
    (h : op.onNumbers x y = .ok r) : ∃ k : Constant, k.value = r := by
  unfold BinaryOp.onNumbers at h
  split at h <;> try split at h
  all_goals cases h
  all_goals first
    | exact ⟨.number _, rfl⟩
    | exact ⟨.bool _, rfl⟩

theorem constant_of_strings {op : BinaryOp} {s t : String} {r : Value}
    (h : op.onStrings s t = .ok r) : ∃ k : Constant, k.value = r := by
  unfold BinaryOp.onStrings at h
  split at h
  all_goals cases h
  all_goals first
    | exact ⟨.string _, rfl⟩
    | exact ⟨.bool _, rfl⟩

/-- An operator with two operands yields a constant. -/
theorem constant_of_binary {op : BinaryOp} {l r u : Value}
    (h : op.apply l r = .ok u) : ∃ k : Constant, k.value = u := by
  unfold BinaryOp.apply at h
  split at h
  case h_1 =>
      cases h
      exact ⟨.bool _, rfl⟩
  case h_2 =>
      cases h
      exact ⟨.bool _, rfl⟩
  case h_3 =>
      split at h
      · exact constant_of_numbers h
      · exact constant_of_strings h
      · cases h

section

variable {c : Code} {fs : List FnDecl} {v w r : Value} {a b : Item}

/-- A constant is handed over as it is. -/
theorem Represents.value_eq (h : Represents fs v a)
    (hv : v.type ≠ .function) : a.value c = v := by
  cases h with
  | constant k => rfl
  | function => exact (hv rfl).elim

/-- An item is printed as the value that it stands for. -/
theorem Represents.text (hnamed : Named c fs) (h : Represents fs v a) :
    (a.value c).text = v.text := by
  cases h with
  | constant k => rfl
  | @function closure index hdecl hscope =>
      obtain ⟨f, hf, hname⟩ := hnamed.name index closure.decl hdecl
      simp [Item.value, Value.text, Closure.name, hf, hname]

/-- Items are the same exactly if the values are that they stand for. -/
theorem Represents.same (hnamed : Named c fs) (hv : Represents fs v a)
    (hw : Represents fs w b) : (a.value c).same (b.value c) = v.same w := by
  cases hv with
  | constant k =>
      cases hw with
      | constant l => rfl
      | function => cases k <;> rfl
  | @function f index hf hscope =>
      cases hw with
      | constant l => cases l <;> rfl
      | @function g index' hg hscope' =>
          have hid : f.decl.id = g.decl.id ↔ index = index' := by
            refine ⟨hnamed.apart index index' _ _ hf hg, ?_⟩
            rintro rfl
            have heq : f.decl = g.decl := Option.some.inj (hf.symm.trans hg)
            rw [heq]
          rw [Bool.eq_iff_iff]
          simp [Item.value, Value.same, Closure.same, FnDecl.same, hscope,
            hscope', hid, Span.point]

/-- An operator that applies to a value applies to its item. -/
theorem Represents.unary {op : UnaryOp} (hv : Represents fs v a)
    (h : op.apply v = .ok r) : op.apply (a.value c) = .ok r := by
  cases hv with
  | constant k => exact h
  | function => cases op <;> cases h

/-- An operator that applies to two values applies to their items. -/
theorem Represents.binary {op : BinaryOp} (hnamed : Named c fs)
    (hv : Represents fs v a) (hw : Represents fs w b)
    (h : op.apply v w = .ok r) :
    op.apply (a.value c) (b.value c) = .ok r := by
  unfold BinaryOp.apply at h ⊢
  split at h
  case h_1 => rwa [hv.same hnamed hw]
  case h_2 => rwa [hv.same hnamed hw]
  case h_3 =>
      split at h
      case h_1 => rwa [hv.value_eq nofun, hw.value_eq nofun]
      case h_2 => rwa [hv.value_eq nofun, hw.value_eq nofun]
      case h_3 => cases h

end

end Script.Stack
