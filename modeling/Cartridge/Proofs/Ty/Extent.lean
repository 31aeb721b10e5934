/-
# `Cartridge.Proofs.Ty.Extent` — a size is the number of bytes, or there is none

How many bytes a type takes is a sum over its parts, whatever comes of it:

    byte              one
    word, address     two
    array             as many times its element as it has elements
    record            its members one by one

What an address leads to lies somewhere else and does not count.  A size is worked
out part by part and has a bound at each of them, so a part that is too large is
refused even where the whole takes no bytes at all, as in a row of none of them.
The members of a record are added up one at a time; the sum is checked on the way,
which is no different from a check at the end, since it never gets smaller.

Products have a bound of their own, that of a length, and an array is measured
before it is refused.  An array `Overflows` whose product reaches that bound.  It is
far larger than a size can say, so it takes no size from any type; what it takes is
the complaint, in place of which there is a fault.

Proved here: a type has a size exactly if each of its stored parts is known and
within the bound, and the size is the number of bytes then; otherwise the complaint
is about a stored part that is not, unless an array overflows (`size_exact`).  A
size fits a word (`size_le`), the complaint is of a single kind (`size_error`), and
so is the fault (`size_fault`).
-/
import Cartridge.Ty.Size

namespace Cartridge.Ty

/-- A part that lies where values of the type lie. -/
inductive Stored (p : Ty) : Ty → Prop where
  | self : Stored p p
  | element {e : Ty} {n : Nat} (h : Stored p e) : Stored p (.array e n)
  | member {name : String} {members : List Ty} {m : Ty} (hm : m ∈ members) (h : Stored p m) :
      Stored p (.record name members)

mutual

/-- The number of bytes that a value takes, however many these are.  Nothing is
counted for a type that is not known. -/
def extent : Ty → Nat
  | .byte => 1
  | .word | .ref _ => 2
  | .array e n => e.extent * n
  | .record _ members => extentAll members
  | .unknown | .named _ => 0

/-- The number of bytes of values in a row. -/
def extentAll : List Ty → Nat
  | [] => 0
  | m :: ms => m.extent + extentAll ms

end

/-- Nothing is known about values of the type. -/
def isBare : Ty → Bool
  | .unknown | .named _ => true
  | _ => false

/-- No storage holds a value of the type: there is nothing known about it, or it
takes more bytes than a size can say. -/
def Unstorable (ty : Ty) : Prop := ty.isBare = true ∨ maxSize < ty.extent

/-- All that is stored of a type can be. -/
def Sized (ty : Ty) : Prop := ∀ p, Stored p ty → ¬ p.Unstorable

/-- An array is stored whose elements have a size, and so many of them that the
product reaches the bound of a length. -/
def Overflows (ty : Ty) : Prop :=
  ∃ e n s, Stored (.array e n) ty ∧ e.size = .ok s ∧ lengthLimit ≤ s * n

/-- Why a type has no size. -/
inductive Objection (ty : Ty) : Stop TypeError → Prop where
  | unsized {p : Ty} (hp : Stored p ty) (h : p.Unstorable) : Objection ty (.error (.unsized p))
  | overflow (h : ty.Overflows) : Objection ty (.fault .overflow)

/-- What is wrong with a part is wrong with the whole. -/
theorem Objection.of_part {part whole : Ty} (hpart : ∀ p, Stored p part → Stored p whole)
    {stop : Stop TypeError} (h : Objection part stop) : Objection whole stop := by
  cases h with
  | unsized hp h => exact .unsized (hpart _ hp) h
  | overflow h =>
      obtain ⟨e, n, s, hp, hs, hlimit⟩ := h
      exact .overflow ⟨e, n, s, hpart _ hp, hs, hlimit⟩

theorem not_unstorable {ty : Ty} (hknown : ty.isBare = false) (hle : ty.extent ≤ maxSize) :
    ¬ ty.Unstorable := by
  rintro (hbare | hlt)
  · rw [hknown] at hbare
    cases hbare
  · omega

/-! ## Arrays and records -/

theorem sized_array {e : Ty} {n : Nat} (he : e.Sized) (hle : e.extent * n ≤ maxSize) :
    (Ty.array e n).Sized := by
  intro p hp
  cases hp with
  | self => exact not_unstorable rfl hle
  | element h => exact he p h

theorem sized_record {name : String} {members : List Ty} (hmembers : ∀ m ∈ members, m.Sized)
    (hle : extentAll members ≤ maxSize) : (Ty.record name members).Sized := by
  intro p hp
  cases hp with
  | self => exact not_unstorable rfl hle
  | member hm h => exact hmembers _ hm p h

/-! ## The size, part by part -/

/-- An array of elements that have a size: it has one too, or it is too large, or
it overflows. -/
theorem sizeElements_cases {e : Ty} (hsize : e.size = .ok e.extent) (hsized : e.Sized) (n : Nat) :
    sizeElements (.array e n) e.extent n = .ok (e.extent * n) ∧ (Ty.array e n).Sized ∨
      ∃ stop, sizeElements (.array e n) e.extent n = .error stop ∧
        Objection (.array e n) stop := by
  rw [sizeElements]
  by_cases hlimit : e.extent * n < lengthLimit
  · rw [if_pos hlimit]
    by_cases hle : e.extent * n ≤ maxSize
    · exact .inl ⟨if_pos hle, sized_array hsized hle⟩
    · exact .inr ⟨_, if_neg hle, .unsized .self (.inr (Nat.lt_of_not_le hle))⟩
  · rw [if_neg hlimit]
    exact .inr ⟨_, rfl, .overflow ⟨e, n, _, .self, hsize, Nat.le_of_not_lt hlimit⟩⟩

mutual

/-- A type has its extent as its size and all its stored parts have one, or it is
refused with a reason. -/
theorem size_cases : ∀ ty : Ty, ty.size = .ok ty.extent ∧ ty.Sized ∨
    ∃ stop, ty.size = .error stop ∧ Objection ty stop
  | .byte | .word | .ref _ => by
      refine .inl ⟨rfl, fun p hp => ?_⟩
      cases hp
      exact not_unstorable rfl (by simp [extent, maxSize])
  | .unknown | .named _ => .inr ⟨_, rfl, .unsized .self (.inl rfl)⟩
  | .array e n => by
      rcases size_cases e with ⟨hsize, hsized⟩ | ⟨stop, hsize, hreason⟩
      · simp only [size, hsize, extent]
        exact sizeElements_cases hsize hsized n
      · refine .inr ⟨stop, ?_, hreason.of_part fun _ hp => .element hp⟩
        simp only [size, hsize]
  | .record name members => by
      rcases sizeMembers_cases (.record name members) members (Nat.zero_le maxSize) with
        ⟨hsize, hsized, hle⟩ | ⟨m, hm, stop, hsize, hreason⟩ | ⟨hsize, hlt⟩
      · rw [Nat.zero_add] at hsize hle
        exact .inl ⟨hsize, sized_record hsized hle⟩
      · exact .inr ⟨stop, hsize, hreason.of_part fun _ hp => .member hm hp⟩
      · rw [Nat.zero_add] at hlt
        exact .inr ⟨_, hsize, .unsized .self (.inr hlt)⟩

/-- Members after `total` bytes: they have a size and fit, or one of them is
refused, or they do not fit. -/
theorem sizeMembers_cases (whole : Ty) : ∀ (ms : List Ty) {total : Nat}, total ≤ maxSize →
    (sizeMembers whole total ms = .ok (total + extentAll ms) ∧ (∀ m ∈ ms, m.Sized) ∧
        total + extentAll ms ≤ maxSize) ∨
      (∃ m ∈ ms, ∃ stop, sizeMembers whole total ms = .error stop ∧ Objection m stop) ∨
      sizeMembers whole total ms = .error (.error (.unsized whole)) ∧
        maxSize < total + extentAll ms
  | [], total, htotal => .inl ⟨rfl, List.forall_mem_nil _, htotal⟩
  | m :: ms, total, htotal => by
      rcases size_cases m with ⟨hsize, hsized⟩ | ⟨stop, hsize, hreason⟩
      · by_cases hle : total + m.extent ≤ maxSize
        · have hrest := sizeMembers_cases whole ms hle
          rw [Nat.add_assoc] at hrest
          simp only [sizeMembers, hsize, if_pos hle, extentAll]
          rcases hrest with ⟨hrest, hall, hfits⟩ | ⟨m', hm', stop, hrest, hreason⟩ | ⟨hrest, hlt⟩
          · exact .inl ⟨hrest, List.forall_mem_cons.2 ⟨hsized, hall⟩, hfits⟩
          · exact .inr (.inl ⟨m', List.mem_cons_of_mem m hm', stop, hrest, hreason⟩)
          · exact .inr (.inr ⟨hrest, hlt⟩)
        · -- later members make the sum no smaller
          refine .inr (.inr ⟨?_, ?_⟩)
          · simp only [sizeMembers, hsize, if_neg hle]
          · rw [extentAll]
            omega
      · refine .inr (.inl ⟨m, List.mem_cons_self, stop, ?_, hreason⟩)
        simp only [sizeMembers, hsize]

end

/-- A size is the number of bytes, and all that is stored can be. -/
theorem size_ok {ty : Ty} {n : Nat} (h : ty.size = .ok n) : n = ty.extent ∧ ty.Sized := by
  rcases size_cases ty with ⟨hsize, hsized⟩ | ⟨stop, hsize, -⟩
  · exact ⟨Except.ok.inj (h.symm.trans hsize), hsized⟩
  · cases h.symm.trans hsize

/-- A type without a size is refused with a reason. -/
theorem objection_of_size {ty : Ty} {stop : Stop TypeError} (h : ty.size = .error stop) :
    Objection ty stop := by
  rcases size_cases ty with ⟨hsize, -⟩ | ⟨stop', hsize, hreason⟩
  · cases h.symm.trans hsize
  · cases h.symm.trans hsize
    exact hreason

/-- A size fits a word. -/
theorem size_le (ty : Ty) {n : Nat} (h : ty.size = .ok n) : n ≤ maxSize := by
  obtain ⟨rfl, hsized⟩ := size_ok h
  exact Nat.le_of_not_lt fun hlt => hsized ty .self (.inr hlt)

/-- The only complaint about a size is that there is none. -/
theorem size_error (ty : Ty) {e : TypeError} (h : ty.size = .error (.error e)) :
    ∃ part, e = .unsized part := by
  cases objection_of_size h with
  | unsized _ _ => exact ⟨_, rfl⟩

/-- The only fault of a size is that an array overflows. -/
theorem size_fault {ty : Ty} {f : Fault} (h : ty.size = .error (.fault f)) :
    f = .overflow ∧ ty.Overflows := by
  cases objection_of_size h with
  | overflow hoverflows => exact ⟨rfl, hoverflows⟩

/-- No part that has a size overflows. -/
theorem Overflows.not_sized {ty : Ty} (h : ty.Overflows) : ¬ ty.Sized := by
  obtain ⟨e, n, s, hp, hs, hlimit⟩ := h
  obtain ⟨rfl, -⟩ := size_ok hs
  exact fun hsized => hsized _ hp (.inr (Nat.lt_of_lt_of_le (by decide) hlimit))

/-- An array overflows if its elements do. -/
theorem Overflows.array {e : Ty} (h : e.Overflows) {n : Nat} : (Ty.array e n).Overflows := by
  obtain ⟨e', n', s, hp, hs, hlimit⟩ := h
  exact ⟨e', n', s, .element hp, hs, hlimit⟩

/-- An array has as many times the size of its elements, if that fits a word. -/
theorem size_array_eq_ok_iff {e : Ty} {k n : Nat} :
    (Ty.array e k).size = .ok n ↔ ∃ s, e.size = .ok s ∧ n = s * k ∧ n ≤ maxSize := by
  constructor
  · intro h
    have hle := size_le _ h
    obtain ⟨rfl, -⟩ := size_ok h
    rw [size] at h
    split at h
    · cases h
    · next s hs =>
        obtain ⟨rfl, -⟩ := size_ok hs
        exact ⟨_, hs, rfl, hle⟩
  · rintro ⟨s, hs, rfl, hle⟩
    have hlimit : s * k < lengthLimit := Nat.lt_of_le_of_lt hle (by decide)
    rw [size, hs]
    exact (if_pos hlimit).trans (if_pos hle)

/-- Sizes are exact.  A type has the size `n` if and only if all its stored parts
are known and take no more bytes than a size can say, and `n` is the number of bytes
that it takes itself.  Otherwise it is refused: the complaint names a stored part of
which nothing is known or which takes more bytes, or there is a fault, and then a
product of an element's size and a length does not fit the word of a length. -/
theorem size_exact (ty : Ty) :
    (∀ n, ty.size = .ok n ↔ ty.Sized ∧ n = ty.extent) ∧
    (¬ ty.Sized → ¬ ty.Overflows →
      ∃ p, ty.size = .error (.error (.unsized p)) ∧ Stored p ty ∧ p.Unstorable) ∧
    ∀ f, ty.size = .error (.fault f) → f = .overflow ∧ ty.Overflows ∧ ¬ ty.Sized := by
  refine ⟨fun n => ⟨fun h => (size_ok h).symm, fun ⟨hsized, hn⟩ => ?_⟩, fun hsized hfits => ?_,
    fun f h => ?_⟩
  · rcases size_cases ty with ⟨hsize, -⟩ | ⟨stop, hsize, hreason⟩
    · exact hn ▸ hsize
    · cases hreason with
      | unsized hp h => exact absurd h (hsized _ hp)
      | overflow h => exact absurd hsized h.not_sized
  · rcases size_cases ty with ⟨-, hsized'⟩ | ⟨stop, hsize, hreason⟩
    · exact absurd hsized' hsized
    · cases hreason with
      | unsized hp h => exact ⟨_, hsize, hp, h⟩
      | overflow h => exact absurd h hfits
  · obtain ⟨rfl, hoverflows⟩ := size_fault h
    exact ⟨rfl, hoverflows, hoverflows.not_sized⟩

/-- A row of no arrays, each of which is too large, is refused.  A record without
members takes no bytes, nor does a row of many of them.  An address takes two,
wherever it leads.  Where a row of bytes is refused, a row of as many words may be a
fault. -/
example :
    (Ty.array (.array .word 40000) 0).size = .error (.error (.unsized (.array .word 40000))) ∧
      (Ty.array (.record "E" []) 70000).size = .ok 0 ∧
      (Ty.ref (.array .word 40000)).size = .ok 2 ∧
      (Ty.array .word 0x8000000000000000).size = .error (.fault .overflow) ∧
      (Ty.array .byte 0x8000000000000000).size =
        .error (.error (.unsized (.array .byte 0x8000000000000000))) :=
  ⟨rfl, rfl, rfl, rfl, rfl⟩

end Cartridge.Ty
