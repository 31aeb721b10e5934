/-
# `Cartridge.Proofs.Cpu.Memory` — the address space as a function

A memory gives a byte for every address.  Addresses are words, so the byte
after the last one is the first one again.

    m.set a b        one byte changed
    m.setAll a bs    the bytes `bs` from `a` on, one after the other
    m.read a n       the `n` bytes from `a` on

Proved here: bytes in a row can be stored in two parts (`setAll_append`), and
reading sees nothing of a store that lies elsewhere (`read_setAll`).
-/
import Cartridge.Word

namespace Cartridge

/-! ## Arithmetic of addresses -/

/-- The distance to the address `i` bytes further on is `i`. -/
theorem toNat_add_ofNat_sub {a : UInt16} {i : Nat} (h : i < 65536) :
    (a + UInt16.ofNat i - a).toNat = i := by
  have ha := a.toNat_lt
  simp only [UInt16.toNat_sub, UInt16.toNat_add, UInt16.toNat_ofNat']
  omega

theorem eq_of_add_ofNat_eq {a : UInt16} {i j : Nat} (hi : i < 65536) (hj : j < 65536)
    (h : a + UInt16.ofNat i = a + UInt16.ofNat j) : i = j := by
  rw [← toNat_add_ofNat_sub hi, h, toNat_add_ofNat_sub hj]

theorem toNat_add_ofNat {a : UInt16} {i : Nat} (h : a.toNat + i < 65536) :
    (a + UInt16.ofNat i).toNat = a.toNat + i := by
  simp only [UInt16.toNat_add, UInt16.toNat_ofNat']
  omega

theorem add_one_add_ofNat (a : UInt16) (i : Nat) :
    a + 1 + UInt16.ofNat i = a + UInt16.ofNat (i + 1) := by
  apply UInt16.toNat_inj.1
  have ha := a.toNat_lt
  simp only [UInt16.toNat_add, UInt16.toNat_ofNat', UInt16.reduceToNat]
  omega

theorem add_ofNat_add_ofNat (a : UInt16) (i j : Nat) :
    a + UInt16.ofNat i + UInt16.ofNat j = a + UInt16.ofNat (i + j) := by
  rw [UInt16.ofNat_add, UInt16.add_assoc]

@[simp] theorem add_ofNat_zero (a : UInt16) : a + UInt16.ofNat 0 = a :=
  UInt16.add_zero a

/-! ## Memories -/

/-- The contents of the address space. -/
def Memory : Type := UInt16 → UInt8

namespace Memory

/-- The memory after one byte is stored. -/
def set (m : Memory) (a : UInt16) (b : UInt8) : Memory := fun x => if x = a then b else m x

/-- The memory after bytes are stored from address `a` on. -/
def setAll (m : Memory) (a : UInt16) : List UInt8 → Memory
  | [] => m
  | b :: bs => (m.set a b).setAll (a + 1) bs

/-- The `n` bytes from address `a` on. -/
def read (m : Memory) (a : UInt16) : Nat → List UInt8
  | 0 => []
  | n + 1 => m a :: m.read (a + 1) n

theorem set_other (m : Memory) {a x : UInt16} (b : UInt8) (h : x ≠ a) : m.set a b x = m x :=
  if_neg h

theorem setAll_append (m : Memory) (a : UInt16) (bs cs : List UInt8) :
    m.setAll a (bs ++ cs) = (m.setAll a bs).setAll (a + UInt16.ofNat bs.length) cs := by
  induction bs generalizing m a with
  | nil => simp [setAll]
  | cons b bs ih =>
      rw [List.cons_append, setAll, ih, setAll, List.length_cons, add_one_add_ofNat]

/-- An address that is not stored to keeps its byte. -/
theorem setAll_other (m : Memory) {a x : UInt16} {bs : List UInt8}
    (h : ∀ i < bs.length, x ≠ a + UInt16.ofNat i) : m.setAll a bs x = m x := by
  induction bs generalizing m a with
  | nil => rfl
  | cons b bs ih =>
      have hfirst : x ≠ a := by simpa using h 0 (by simp)
      rw [setAll, ih, set_other m b hfirst]
      intro i hi
      rw [add_one_add_ofNat]
      exact h (i + 1) (by simpa using hi)

@[simp] theorem length_read (m : Memory) (a : UInt16) (n : Nat) : (m.read a n).length = n := by
  induction n generalizing a with
  | zero => rfl
  | succ n ih => rw [read, List.length_cons, ih]

theorem getElem?_read (m : Memory) (a : UInt16) {n i : Nat} (h : i < n) :
    (m.read a n)[i]? = some (m (a + UInt16.ofNat i)) := by
  induction n generalizing a i with
  | zero => omega
  | succ n ih =>
      cases i with
      | zero => simp [read]
      | succ i => rw [read, List.getElem?_cons_succ, ih _ (by omega), add_one_add_ofNat]

/-- Two memories that agree on the bytes read give the same bytes. -/
theorem read_congr {m m' : Memory} {a : UInt16} {n : Nat}
    (h : ∀ i < n, m (a + UInt16.ofNat i) = m' (a + UInt16.ofNat i)) : m.read a n = m'.read a n := by
  apply List.ext_getElem?
  intro i
  by_cases hi : i < n
  · rw [getElem?_read m a hi, getElem?_read m' a hi, h i hi]
  · rw [List.getElem?_eq_none (by simpa using hi), List.getElem?_eq_none (by simpa using hi)]

/-- What is read elsewhere is not changed by a store. -/
theorem read_setAll (m : Memory) {a d : UInt16} {bs : List UInt8} {n : Nat}
    (h : ∀ i < bs.length, ∀ j < n, d + UInt16.ofNat i ≠ a + UInt16.ofNat j) :
    (m.setAll d bs).read a n = m.read a n :=
  read_congr fun j hj => setAll_other m fun i hi e => h i hi j hj e.symm

end Memory

end Cartridge
