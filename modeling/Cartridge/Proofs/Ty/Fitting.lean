/-
# `Cartridge.Proofs.Ty.Fitting` — how large a value is that may be stored

Whether a value may be stored is a question of names, how many bytes it takes is
one of members.  The two agree wherever types are compared by their shape:

    byte, word     the same number
    ref            an address, of whatever it is
    array          no more elements than there is room for, and alike ones
    record         the same name, and nothing is said about the members

An array is looked into down to its *cell*, which is no array; so it is the last
line alone that can go wrong, and it goes wrong under arrays as well.

Proved here: a value that may be stored is no larger than its position, and types
that are alike have the same size, unless two records of one name with different
members are the cells (`size_le_or_outgrows`).
-/
import Cartridge.Proofs.Ty.Extent
import Cartridge.Proofs.Ty.Relations

namespace Cartridge.Ty

/-- What the storage of a type is a row of: an array, at any depth, is a row of
its cells. -/
def cell : Ty → Ty
  | .array e _ => e.cell
  | ty => ty

/-- The cells of both types are records of one name, and that of `a` is the larger
one. -/
def Outgrows (a b : Ty) : Prop :=
  ∃ name members members' s s', a.cell = .record name members ∧
    b.cell = .record name members' ∧ a.cell.size = .ok s ∧ b.cell.size = .ok s' ∧ s' < s

theorem record?_of_cell {name : String} {members : List Ty} :
    ∀ {ty : Ty}, ty.cell = .record name members → ty.record? = some (name, members)
  | .array e _, h => @record?_of_cell name members e h
  | .record _ _, h => by
      cases h
      rfl

/-- Records of one name and with the same members are equally large. -/
theorem not_outgrows_of_compatible {a b : Ty} (h : a.compatible b = true) : ¬ a.Outgrows b := by
  rintro ⟨name, members, members', s, s', ha, hb, hs, hs', hlt⟩
  rw [compatible, record?_of_cell ha, record?_of_cell hb] at h
  have hmembers : members = members' := by simpa using h
  rw [ha, hmembers, ← hb, hs'] at hs
  cases hs
  exact absurd hlt (Nat.lt_irrefl s)

/-! ## Sizes -/

/-- Of two types that are alike the second is no larger, unless its cell is. -/
theorem size_le_of_alike : ∀ {a b : Ty} {n m : Nat}, a.alike b = true → a.size = .ok n →
    b.size = .ok m → m ≤ n ∨ b.Outgrows a
  | .unknown, b, n, m, _, hn, _ => by cases hn
  | .named _, b, n, m, _, hn, _ => by cases hn
  | .byte, b, n, m, h, hn, hm => by
      cases b with
      | byte =>
          cases hn
          cases hm
          exact .inl (Nat.le_refl 1)
      | _ => cases h
  | .word, b, n, m, h, hn, hm => by
      cases b with
      | word =>
          cases hn
          cases hm
          exact .inl (Nat.le_refl 2)
      | _ => cases h
  | .ref _, b, n, m, h, hn, hm => by
      cases b with
      | ref _ =>
          cases hn
          cases hm
          exact .inl (Nat.le_refl 2)
      | _ => cases h
  | .array e k, b, n, m, h, hn, hm => by
      cases b with
      | array e' k' =>
          obtain ⟨hlength, halike⟩ := Bool.and_eq_true_iff.1 h
          obtain ⟨s, hs, rfl, -⟩ := size_array_eq_ok_iff.1 hn
          obtain ⟨s', hs', rfl, -⟩ := size_array_eq_ok_iff.1 hm
          obtain rfl := eq_of_beq hlength
          -- arrays have the cells of their elements
          exact (size_le_of_alike halike hs hs').imp_left fun hle => Nat.mul_le_mul_right k hle
      | _ => cases h
  | .record name members, b, n, m, h, hn, hm => by
      cases b with
      | record name' members' =>
          obtain rfl := eq_of_beq h
          rcases Nat.lt_or_ge n m with hlt | hle
          · exact .inr ⟨name, members', members, m, n, rfl, rfl, hm, hn, hlt⟩
          · exact .inl hle
      | _ => cases h

/-- A value that may be stored is no larger than its position, unless its cell is
larger. -/
theorem size_le_of_accepts {target value : Ty} {n m : Nat} (h : target.accepts value = true)
    (hn : target.size = .ok n) (hm : value.size = .ok m) : m ≤ n ∨ value.Outgrows target := by
  rcases accepts_cases h with halike | ⟨e, k, e', k', rfl, rfl, hle, halike⟩
  · exact size_le_of_alike halike hn hm
  · obtain ⟨s, hs, rfl, -⟩ := size_array_eq_ok_iff.1 hn
    obtain ⟨s', hs', rfl, -⟩ := size_array_eq_ok_iff.1 hm
    exact (size_le_of_alike halike hs hs').imp_left fun hsize => Nat.mul_le_mul hsize hle

/-- A value that may be stored is no larger than its position, and types that are
alike have the same size.  The exception are rows of records of one name of which
one is larger than the other, so there is none where records of one name have the
same members. -/
theorem size_le_or_outgrows :
    (∀ {target value : Ty} {n m : Nat}, target.accepts value = true → target.size = .ok n →
      value.size = .ok m → m ≤ n ∨ value.Outgrows target) ∧
    (∀ {a b : Ty} {n m : Nat}, a.alike b = true → a.size = .ok n → b.size = .ok m →
      m = n ∨ a.Outgrows b ∨ b.Outgrows a) ∧
    ∀ {a b : Ty}, a.compatible b = true → ¬ a.Outgrows b := by
  refine ⟨size_le_of_accepts, fun h hn hm => ?_, not_outgrows_of_compatible⟩
  rcases size_le_of_alike h hn hm with hle | hlarger
  · rcases size_le_of_alike (alike_symm h) hm hn with hge | hlarger
    · exact .inl (Nat.le_antisymm hle hge)
    · exact .inr (.inl hlarger)
  · exact .inr (.inr hlarger)

/-- A row of records with the given members. -/
def points (members : List Ty) (k : Nat) : Ty := .array (.record "P" members) k

/-- Three records go into a row of four; rows of two kinds of records with one name
are alike, and one of them is the larger one. -/
theorem fitting_points :
    ((points [.word, .byte] 4).accepts (points [.word, .byte] 3) = true ∧
      (points [.word, .byte] 4).size = .ok 12 ∧ (points [.word, .byte] 3).size = .ok 9 ∧
      ¬ (points [.word, .byte] 3).Outgrows (points [.word, .byte] 4) ∧ 9 ≤ 12) ∧
    (points [.word] 2).alike (points [.word, .byte] 2) = true ∧
      (points [.word] 2).size = .ok 4 ∧ (points [.word, .byte] 2).size = .ok 6 ∧
      ((points [.word] 2).Outgrows (points [.word, .byte] 2) ∨
        (points [.word, .byte] 2).Outgrows (points [.word] 2)) := by
  obtain ⟨haccepted, halike, hcompatible⟩ := size_le_or_outgrows
  have hsame : ¬ (points [.word, .byte] 3).Outgrows (points [.word, .byte] 4) := hcompatible rfl
  refine ⟨⟨rfl, rfl, rfl, hsame, ?_⟩, rfl, rfl, rfl, ?_⟩
  · exact (haccepted (show (points [.word, .byte] 4).accepts (points [.word, .byte] 3) = true
      from rfl) rfl rfl).resolve_right hsame
  · exact (halike (show (points [.word] 2).alike (points [.word, .byte] 2) = true from rfl)
      rfl rfl).resolve_left (show ¬ 6 = 4 by decide)

/-- The rule is broken by records of one name: the larger one is accepted where
the smaller one belongs. -/
theorem larger_record_accepted :
    (Ty.record "P" [.word]).accepts (.record "P" [.byte, .word]) = true ∧
      (Ty.record "P" [.word]).size = .ok 2 ∧ (Ty.record "P" [.byte, .word]).size = .ok 3 ∧
      ¬ (∀ {target value : Ty} {n m : Nat}, target.accepts value = true → target.size = .ok n →
        value.size = .ok m → m ≤ n) ∧
      ¬ ∀ {a b : Ty} {n m : Nat}, a.alike b = true → a.size = .ok n → b.size = .ok m → m = n := by
  have haccepts : (Ty.record "P" [.word]).accepts (.record "P" [.byte, .word]) = true := rfl
  have hsmall : (Ty.record "P" [.word]).size = .ok 2 := rfl
  have hlarge : (Ty.record "P" [.byte, .word]).size = .ok 3 := rfl
  refine ⟨haccepts, hsmall, hlarge, fun h => ?_, fun h => ?_⟩
  · exact absurd (h haccepts hsmall hlarge) (by decide)
  · exact absurd (h rfl hsmall hlarge) (by decide)

end Cartridge.Ty
