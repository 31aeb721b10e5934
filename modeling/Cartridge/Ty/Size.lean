/-
# `Cartridge.Ty.Size` — how many bytes a value takes

A byte takes one, a word and an address two, an array its elements in a row,
a record its members in a row.  Sizes stay within the 16-bit address space: a
type with a part that has no size, or that grows past 65535 bytes, is refused
and the error names that part.

Lengths are words of 64 bits, and so is the product of a size and a length.  An
array is measured by its product first and refused for it afterwards, so a
product that does not fit such a word is a fault, not an error.
-/
import Cartridge.Fault
import Cartridge.Ty.Rules

namespace Cartridge

/-- The greatest storage size. -/
def maxSize : Nat := 0xFFFF

/-- A size is a word. -/
theorem toNat_ofNat_of_le {n : Nat} (h : n ≤ maxSize) : (UInt16.ofNat n).toNat = n :=
  UInt16.toNat_ofNat_of_lt (Nat.lt_of_le_of_lt h (by decide))

/-- The number of values of a word that holds a length. -/
def lengthLimit : Nat := 0x10000000000000000

namespace Ty

/-- Size of the array `whole` of `n` elements with `s` bytes each. -/
def sizeElements (whole : Ty) (s n : Nat) : Except (Stop TypeError) Nat :=
  if s * n < lengthLimit then
    if s * n ≤ maxSize then .ok (s * n) else .error (.error (.unsized whole))
  else .error (.fault .overflow)

mutual

/-- Storage size in bytes. -/
def size : Ty → Except (Stop TypeError) Nat
  | .byte => .ok 1
  | .word | .ref _ => .ok 2
  | .array e n =>
      match e.size with
      | .error stop => .error stop
      | .ok s => sizeElements (.array e n) s n
  | .record name ms => sizeMembers (.record name ms) 0 ms
  | .unknown => .error (.error (.unsized .unknown))
  | .named name => .error (.error (.unsized (.named name)))

/-- Size of the record `whole`, of which `total` bytes are already taken by
the members before these. -/
def sizeMembers (whole : Ty) (total : Nat) : List Ty → Except (Stop TypeError) Nat
  | [] => .ok total
  | m :: ms =>
      match m.size with
      | .error stop => .error stop
      | .ok s =>
          if total + s ≤ maxSize then sizeMembers whole (total + s) ms
          else .error (.error (.unsized whole))

end

end Ty

end Cartridge
