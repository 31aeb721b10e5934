/-
# `Cartridge.Proofs.Image.Window` — the scan for zeros finds the first window

A window is a row of zero bytes.  The scan goes over the bank once and counts
the zeros that it has just seen.  What it knows at every byte (`Scanned`):

    zeros     the last `run` bytes are zero
    stop      the byte before them, if there is one, is not
    none      no window ends in what has been seen

A byte that is not zero starts the count again; a zero that completes the count
completes the first window, because a window that begins earlier would have to
hold the byte before the zeros.

Proved here: the search answers with an offset exactly if that is the first one
from which on there is room in the bank and all of it is zero, and with nothing
exactly if there is no such offset or no byte to place (`zeroWindow_exact`).
-/
import Cartridge.Image.Bank

namespace Cartridge.Bank

/-- `len` zero bytes from offset `i` on. -/
def IsWindow (bank : List UInt8) (len i : Nat) : Prop := ∀ j < len, bank[i + j]? = some 0

/-- A window lies inside the bank. -/
theorem IsWindow.le_length {bank : List UInt8} {len i : Nat} (h : IsWindow bank len i)
    (hlen : 0 < len) : i + len ≤ bank.length := by
  obtain ⟨hlt, -⟩ := List.getElem?_eq_some_iff.1 (h (len - 1) (by omega))
  omega

/-- The first window of its length. -/
def IsFirst (bank : List UInt8) (len i : Nat) : Prop :=
  IsWindow bank len i ∧ ∀ i' < i, ¬ IsWindow bank len i'

/-- What the scan knows about the bytes that it has seen. -/
structure Scanned (len run : Nat) (seen : List UInt8) : Prop where
  short : run < len
  le : run ≤ seen.length
  zeros : ∀ p, seen.length - run ≤ p → p < seen.length → seen[p]? = some 0
  stop : ∀ p, p + run + 1 = seen.length → seen[p]? ≠ some 0
  none : ∀ i, i + len ≤ seen.length → ¬ IsWindow seen len i

namespace Scanned

theorem start {len : Nat} (h : 0 < len) : Scanned len 0 [] := by
  refine ⟨h, Nat.le_refl 0, fun p _ hp => ?_, fun p hp => ?_, fun i hi => ?_⟩
  · cases hp
  · cases hp
  · rw [List.length_nil] at hi
    omega

variable {len run : Nat} {seen : List UInt8}

/-- A window that ends before the next byte is a window of what has been seen. -/
theorem not_isWindow_append (h : Scanned len run seen) {rest : List UInt8} {i : Nat}
    (hi : i + len ≤ seen.length) : ¬ IsWindow (seen ++ rest) len i := by
  intro hw
  refine h.none i hi fun j hj => ?_
  rw [← hw j hj, List.getElem?_append_left (by omega)]

theorem nonzero (h : Scanned len run seen) {b : UInt8} (hb : b ≠ 0) :
    Scanned len 0 (seen ++ [b]) := by
  have hlast : (seen ++ [b])[seen.length]? = some b := List.getElem?_concat_length
  refine ⟨Nat.zero_lt_of_lt h.short, Nat.zero_le _, fun p hp hlt => ?_, fun p hp => ?_,
    fun i hi hw => ?_⟩
  · omega
  · simp only [List.length_append, List.length_singleton] at hp
    obtain rfl : p = seen.length := by omega
    rw [hlast]
    simpa using hb
  · simp only [List.length_append, List.length_singleton] at hi
    rcases Nat.lt_or_ge seen.length (i + len) with hend | hend
    · -- the window would hold the new byte
      have hlen := h.short
      have := hw (len - 1) (by omega)
      rw [show i + (len - 1) = seen.length by omega, hlast] at this
      exact hb (Option.some.inj this)
    · exact h.not_isWindow_append hend hw

theorem zero (h : Scanned len run seen) (hrun : run + 1 < len) :
    Scanned len (run + 1) (seen ++ [0]) := by
  have hle := h.le
  refine ⟨hrun, by simpa using hle, fun p hp hlt => ?_, fun p hp => ?_, fun i hi hw => ?_⟩
  · simp only [List.length_append, List.length_singleton] at hp hlt
    rcases Nat.lt_or_ge p seen.length with hold | hnew
    · rw [List.getElem?_append_left hold]
      exact h.zeros p (by omega) hold
    · obtain rfl : p = seen.length := by omega
      exact List.getElem?_concat_length
  · simp only [List.length_append, List.length_singleton] at hp
    rw [List.getElem?_append_left (by omega)]
    exact h.stop p (by omega)
  · simp only [List.length_append, List.length_singleton] at hi
    rcases Nat.lt_or_ge seen.length (i + len) with hend | hend
    · -- the window would hold the byte before the zeros
      have := hw (len - run - 2) (by omega)
      rw [List.getElem?_append_left (by omega)] at this
      exact h.stop _ (by omega) this
    · exact h.not_isWindow_append hend hw

theorem found (h : Scanned len run seen) (hrun : run + 1 = len) (rest : List UInt8) :
    IsFirst (seen ++ 0 :: rest) len (seen.length + 1 - len) := by
  have hle := h.le
  refine ⟨fun j hj => ?_, fun i hi => ?_⟩
  · rcases Nat.lt_or_ge (seen.length + 1 - len + j) seen.length with hold | hnew
    · rw [List.getElem?_append_left hold]
      exact h.zeros _ (by omega) hold
    · rw [show seen.length + 1 - len + j = seen.length by omega]
      simp
  · exact h.not_isWindow_append (by omega)

end Scanned

/-- The scan answers with the first window, and with nothing only if there is
none. -/
theorem scan_spec {len run : Nat} {seen bank : List UInt8} (h : Scanned len run seen) :
    match scan len run seen.length bank with
    | some i => IsFirst (seen ++ bank) len i
    | none => ∀ i, ¬ IsWindow (seen ++ bank) len i := by
  induction bank generalizing run seen with
  | nil =>
      intro i hw
      rw [List.append_nil] at hw
      exact h.none i (hw.le_length (Nat.zero_lt_of_lt h.short)) hw
  | cons b bank ih =>
      have hnext : ∀ b : UInt8, (seen ++ [b]).length = seen.length + 1 := by simp
      have happend : ∀ b : UInt8, seen ++ b :: bank = seen ++ [b] ++ bank := by simp
      rw [scan]
      by_cases hb : b = 0
      · subst hb
        rw [if_pos rfl]
        by_cases hrun : run + 1 = len
        · rw [if_pos hrun]
          exact h.found hrun bank
        · rw [if_neg hrun, happend, ← hnext 0]
          have hlt := h.short
          exact ih (h.zero (by omega))
      · rw [if_neg hb, happend, ← hnext b]
        exact ih (h.nonzero hb)

/-- A window that is found is the first one. -/
theorem isFirst_of_zeroWindow {bank : Bytes} {len i : Nat} (h : zeroWindow bank len = some i) :
    0 < len ∧ IsFirst bank.toList len i := by
  unfold zeroWindow at h
  split at h
  · cases h
  · next hlen =>
      have hpos : 0 < len := by omega
      have hspec := @scan_spec len 0 [] bank.toList (Scanned.start hpos)
      rw [List.length_nil, h] at hspec
      exact ⟨hpos, hspec⟩

/-- Where there is a window, one is found. -/
theorem zeroWindow_of_isWindow {bank : Bytes} {len i : Nat} (hlen : 0 < len)
    (h : IsWindow bank.toList len i) : ∃ i', zeroWindow bank len = some i' := by
  have hle := h.le_length hlen
  rw [Array.length_toList] at hle
  unfold zeroWindow
  rw [if_neg (by omega)]
  have hspec := @scan_spec len 0 [] bank.toList (Scanned.start hlen)
  rw [List.length_nil] at hspec
  cases hscan : scan len 0 0 bank.toList with
  | some i' => exact ⟨i', rfl⟩
  | none =>
      rw [hscan] at hspec
      exact absurd h (hspec i)

/-! ## What the search answers -/

/-- There is one first window. -/
theorem IsFirst.unique {bank : List UInt8} {len i i' : Nat} (h : IsFirst bank len i)
    (h' : IsFirst bank len i') : i = i' :=
  Nat.le_antisymm (Nat.le_of_not_lt fun hlt => h.2 i' hlt h'.1)
    (Nat.le_of_not_lt fun hlt => h'.2 i hlt h.1)

/-- The bank reaches `len` bytes beyond the offset `i`, and these bytes are zero. -/
structure Blank (bank : Bytes) (len i : Nat) : Prop where
  inside : i + len ≤ bank.size
  zeros : ∀ b ∈ bank.extract i (i + len), b = 0

theorem blank_iff_isWindow {bank : Bytes} {len i : Nat} (hlen : 0 < len) :
    Blank bank len i ↔ IsWindow bank.toList len i := by
  constructor
  · intro h j hj
    have hinside := h.inside
    have hlt : i + j < bank.size := by omega
    rw [Array.getElem?_toList, Array.getElem?_eq_getElem hlt]
    refine congrArg some (h.zeros _ (Array.mem_extract_iff_getElem.2 ⟨j, by omega, rfl⟩))
  · intro h
    have hinside := h.le_length hlen
    rw [Array.length_toList] at hinside
    refine ⟨hinside, fun b hb => ?_⟩
    obtain ⟨j, hj, rfl⟩ := Array.mem_extract_iff_getElem.1 hb
    have hzero := h j (by omega)
    rw [Array.getElem?_toList, Array.getElem?_eq_getElem (by omega)] at hzero
    exact Option.some.inj hzero

/-- The search is exact.  It answers with an offset if and only if there is
something to place, the bank is blank from there on, and from no smaller offset on;
it answers with nothing if and only if there is nothing to place or no blank
stretch. -/
theorem zeroWindow_exact (bank : Bytes) (len : Nat) :
    (∀ i, zeroWindow bank len = some i ↔
      0 < len ∧ Blank bank len i ∧ ∀ i' < i, ¬ Blank bank len i') ∧
    (zeroWindow bank len = none ↔ len = 0 ∨ ∀ i, ¬ Blank bank len i) := by
  have hblank := fun hpos i => @blank_iff_isWindow bank len i hpos
  refine ⟨fun i => ⟨fun h => ?_, fun ⟨hpos, hb, hnone⟩ => ?_⟩, fun h => ?_, fun h => ?_⟩
  · obtain ⟨hpos, hwindow, hnone⟩ := isFirst_of_zeroWindow h
    refine ⟨hpos, (hblank hpos i).2 hwindow, fun i' hlt hb => ?_⟩
    exact hnone i' hlt ((hblank hpos i').1 hb)
  · obtain ⟨i', hfound⟩ := zeroWindow_of_isWindow hpos ((hblank hpos i).1 hb)
    have hfirst : IsFirst bank.toList len i :=
      ⟨(hblank hpos i).1 hb, fun j hlt hw => hnone j hlt ((hblank hpos j).2 hw)⟩
    rw [hfound, hfirst.unique (isFirst_of_zeroWindow hfound).2]
  · rcases Nat.eq_zero_or_pos len with hzero | hpos
    · exact .inl hzero
    · refine .inr fun i hb => ?_
      obtain ⟨i', hfound⟩ := zeroWindow_of_isWindow hpos ((hblank hpos i).1 hb)
      cases h.symm.trans hfound
  · cases hfound : zeroWindow bank len with
    | none => rfl
    | some i =>
        obtain ⟨hpos, hwindow, -⟩ := isFirst_of_zeroWindow hfound
        rcases h with hzero | hnone
        · exact absurd hzero (Nat.ne_of_gt hpos)
        · exact absurd ((hblank hpos i).2 hwindow) (hnone i)

/-- A row that is too short starts the count again, and the last byte counts. -/
example : zeroWindow #[0, 0, 1, 0, 0, 0] 3 = some 3 ∧ zeroWindow #[0, 0, 1, 0, 0] 3 = none := by
  decide +kernel

end Cartridge.Bank
