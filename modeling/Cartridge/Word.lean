/-
# `Cartridge.Word` — bytes and little-endian words

A word stands in memory with its low byte first.  Reading and writing inside a
buffer answers `none` where the buffer ends.

Proved here: a word and its two bytes determine each other, and writing keeps
the size of a buffer and succeeds wherever the bytes fit.
-/

namespace Cartridge

/-- A buffer of bytes. -/
abbrev Bytes := Array UInt8

/-- The low byte of a word. -/
def lowByte (w : UInt16) : UInt8 := w.toUInt8

/-- The high byte of a word. -/
def highByte (w : UInt16) : UInt8 := (w / 256).toUInt8

/-- The two bytes of a word as they stand in memory. -/
def wordBytes (w : UInt16) : List UInt8 := [lowByte w, highByte w]

/-- The word of a low and a high byte. -/
def wordOf (low high : UInt8) : UInt16 := low.toUInt16 + 256 * high.toUInt16

@[simp] theorem length_wordBytes (w : UInt16) : (wordBytes w).length = 2 := rfl

@[simp] theorem lowByte_wordOf (low high : UInt8) : lowByte (wordOf low high) = low := by
  apply UInt8.toNat_inj.1
  have hl := low.toNat_lt
  have hh := high.toNat_lt
  simp only [lowByte, wordOf, UInt16.toNat_toUInt8, UInt16.toNat_add, UInt16.toNat_mul,
    UInt8.toNat_toUInt16, UInt16.reduceToNat]
  omega

@[simp] theorem highByte_wordOf (low high : UInt8) : highByte (wordOf low high) = high := by
  apply UInt8.toNat_inj.1
  have hl := low.toNat_lt
  have hh := high.toNat_lt
  simp only [highByte, wordOf, UInt16.toNat_toUInt8, UInt16.toNat_div, UInt16.toNat_add,
    UInt16.toNat_mul, UInt8.toNat_toUInt16, UInt16.reduceToNat]
  omega

@[simp] theorem wordOf_lowByte_highByte (w : UInt16) :
    wordOf (lowByte w) (highByte w) = w := by
  apply UInt16.toNat_inj.1
  have hw := w.toNat_lt
  simp only [lowByte, highByte, wordOf, UInt16.toNat_toUInt8, UInt16.toNat_div,
    UInt16.toNat_add, UInt16.toNat_mul, UInt8.toNat_toUInt16, UInt16.reduceToNat]
  omega

namespace Bytes

/-- The word that stands at offset `i`. -/
def word? (bytes : Bytes) (i : Nat) : Option UInt16 :=
  match bytes[i]?, bytes[i + 1]? with
  | some low, some high => some (wordOf low high)
  | _, _ => none

/-- Overwrite the byte at offset `i`. -/
def put? (bytes : Bytes) (i : Nat) (b : UInt8) : Option Bytes :=
  if h : i < bytes.size then some (bytes.set i b h) else none

/-- Overwrite the bytes from offset `i` on. -/
def putAll? (bytes : Bytes) (i : Nat) : List UInt8 → Option Bytes
  | [] => some bytes
  | b :: bs =>
      match put? bytes i b with
      | some bytes' => putAll? bytes' (i + 1) bs
      | none => none

/-- Overwrite the word at offset `i`. -/
def putWord? (bytes : Bytes) (i : Nat) (w : UInt16) : Option Bytes :=
  putAll? bytes i (wordBytes w)

theorem size_of_put? {bytes bytes' : Bytes} {i : Nat} {b : UInt8}
    (h : put? bytes i b = some bytes') : bytes'.size = bytes.size := by
  unfold put? at h
  split at h
  · cases h; exact Array.size_set ..
  · cases h

theorem size_of_putAll? {bytes bytes' : Bytes} {i : Nat} {bs : List UInt8}
    (h : putAll? bytes i bs = some bytes') : bytes'.size = bytes.size := by
  induction bs generalizing bytes i with
  | nil => cases h; rfl
  | cons b bs ih =>
      unfold putAll? at h
      split at h
      · next hput => exact (ih h).trans (size_of_put? hput)
      · cases h

theorem isSome_putAll? {bytes : Bytes} {i : Nat} {bs : List UInt8}
    (h : i + bs.length ≤ bytes.size) : (putAll? bytes i bs).isSome := by
  induction bs generalizing bytes i with
  | nil => rfl
  | cons b bs ih =>
      have hi : i < bytes.size := by simp only [List.length_cons] at h; omega
      simp only [putAll?, put?, hi, dif_pos]
      apply ih
      simp only [Array.size_set, List.length_cons] at h ⊢
      omega

end Bytes

end Cartridge
