/-
# `Cartridge.Proofs.Ty.Relations` — how the relations between types behave

`alike` is an equivalence, on all types; `accepts` contains it on resolved
types, and lets an array be shorter besides (`accepts_cases`).  What a type is
`alike` keeps its outermost constructor, which is all that storing a value
looks at.
-/
import Cartridge.Proofs.Typing.Judgment

namespace Cartridge.Ty

/-! ## The same type of the language -/

theorem alike_refl : ∀ ty : Ty, ty.alike ty = true
  | .unknown | .byte | .word => rfl
  | .named _ | .record _ _ => beq_self_eq_true _
  | .array e n => by simp [alike, alike_refl e]
  | .ref e => alike_refl e

theorem alike_symm : ∀ {a b : Ty}, a.alike b = true → b.alike a = true
  | .unknown, b, h => by cases b <;> first | rfl | cases h
  | .byte, b, h => by cases b <;> first | rfl | cases h
  | .word, b, h => by cases b <;> first | rfl | cases h
  | .named _, b, h => by
      cases b with
      | named _ => exact beq_iff_eq.2 (eq_of_beq h).symm
      | _ => cases h
  | .array e n, b, h => by
      cases b with
      | array e' n' =>
          obtain ⟨hn, he⟩ := Bool.and_eq_true_iff.1 h
          exact Bool.and_eq_true_iff.2 ⟨beq_iff_eq.2 (eq_of_beq hn).symm, alike_symm he⟩
      | _ => cases h
  | .ref e, b, h => by
      cases b with
      | ref e' => exact alike_symm (a := e) (b := e') h
      | _ => cases h
  | .record _ _, b, h => by
      cases b with
      | record _ _ => exact beq_iff_eq.2 (eq_of_beq h).symm
      | _ => cases h

theorem alike_trans : ∀ {a b c : Ty}, a.alike b = true → b.alike c = true → a.alike c = true
  | .unknown, b, c, h, h' => by cases b <;> first | exact h' | cases h
  | .byte, b, c, h, h' => by cases b <;> first | exact h' | cases h
  | .word, b, c, h, h' => by cases b <;> first | exact h' | cases h
  | .named _, b, c, h, h' => by
      cases b with
      | named _ => rwa [eq_of_beq h]
      | _ => cases h
  | .array e n, b, c, h, h' => by
      cases b with
      | array e₁ n₁ =>
          cases c with
          | array e₂ n₂ =>
              obtain ⟨hn, he⟩ := Bool.and_eq_true_iff.1 h
              obtain ⟨hn', he'⟩ := Bool.and_eq_true_iff.1 h'
              refine Bool.and_eq_true_iff.2 ⟨beq_iff_eq.2 ?_, alike_trans he he'⟩
              exact (eq_of_beq hn).trans (eq_of_beq hn')
          | _ => cases h'
      | _ => cases h
  | .ref e, b, c, h, h' => by
      cases b with
      | ref e₁ =>
          cases c with
          | ref e₂ => exact alike_trans (a := e) (b := e₁) (c := e₂) h h'
          | _ => cases h'
      | _ => cases h
  | .record name _, b, c, h, h' => by
      cases b with
      | record name₁ _ =>
          cases c with
          | record name₂ _ => exact beq_iff_eq.2 ((eq_of_beq h).trans (eq_of_beq h'))
          | _ => cases h'
      | _ => cases h

/-! ## Values that may be stored -/

theorem accepts_refl {ty : Ty} (h : ty.isResolved = true) : ty.accepts ty = true :=
  Typing.accepts_of_alike h h ty.alike_refl

theorem isResolved_of_accepts {target value : Ty} (h : target.accepts value = true) :
    target.isResolved = true ∧ value.isResolved = true := by
  obtain ⟨hresolved, -⟩ := Bool.and_eq_true_iff.1 h
  exact Bool.and_eq_true_iff.1 hresolved

/-- A value that may be stored is of the type of the position, or a shorter
array of such elements. -/
theorem accepts_cases {target value : Ty} (h : target.accepts value = true) :
    target.alike value = true ∨
      ∃ e n e' k, target = .array e n ∧ value = .array e' k ∧ k ≤ n ∧ e.alike e' = true := by
  obtain ⟨-, h⟩ := Bool.and_eq_true_iff.1 h
  split at h
  · obtain ⟨hle, halike⟩ := Bool.and_eq_true_iff.1 h
    exact .inr ⟨_, _, _, _, rfl, rfl, of_decide_eq_true hle, halike⟩
  · exact .inl h

/-- Only an array takes an array. -/
theorem accepts_array {target e : Ty} {k : Nat} (h : target.accepts (.array e k) = true) :
    ∃ e' n, target = .array e' n ∧ k ≤ n ∧ e'.alike e = true := by
  rcases accepts_cases h with halike | ⟨e', n, _, _, rfl, hvalue, hle, halike⟩
  · cases target with
    | array e' n =>
        obtain ⟨hn, he⟩ := Bool.and_eq_true_iff.1 halike
        exact ⟨e', n, rfl, Nat.le_of_eq (eq_of_beq hn).symm, he⟩
    | _ => cases halike
  · cases hvalue
    exact ⟨e', n, rfl, hle, halike⟩

/-- Only a number of the same width takes a number. -/
theorem eq_of_accepts_primitive {target value : Ty} (h : target.accepts value = true)
    (hvalue : value.isPrimitive = true) : target = value := by
  rcases accepts_cases h with halike | ⟨_, _, _, _, -, rfl, -, -⟩
  · cases value with
    | byte => cases target <;> first | rfl | cases halike
    | word => cases target <;> first | rfl | cases halike
    | _ => cases hvalue
  · cases hvalue

end Cartridge.Ty
