/-
# `Cartridge.Image.Bank` — program memory

`layout` puts the main segment into an otherwise empty bank and the vectors
at its end.  `zeroWindow` finds room in a bank: the first run of zero bytes of
the wanted length.
-/
import Cartridge.Assembly.Segment
import Cartridge.Image.Board
import Cartridge.Vectors

namespace Cartridge

/-- The three words at the end of a bank. -/
def Vectors.toList (v : Vectors) : List UInt8 :=
  wordBytes v.nmi ++ wordBytes v.reset ++ wordBytes v.irq

namespace Bank

/-- Bytes of a bank in use below the vectors, with the main segment in it. -/
def used (main : Segment) (board : Board) : Nat :=
  main.origin.toNat - board.base.toNat + main.size

/-- The bank with the main segment at its origin, zeros around it and the
vectors at the end. -/
def layout (main : Segment) (vectors : Vectors) (board : Board) : Except ImageError Bytes :=
  if main.origin < board.base then
    .error (.segmentOutsideBank main.origin board.base)
  else if board.capacity < used main board then
    .error (.programTooLarge (used main board) board.capacity)
  else
    .ok (Array.replicate (main.origin.toNat - board.base.toNat) 0 ++ main.bytes
      ++ Array.replicate (board.capacity - used main board) 0 ++ vectors.toList)

/-- Look for `len` zeros in a row; `i` bytes lie before these, and the last
`run` of them are zero. -/
def scan (len run i : Nat) : List UInt8 → Option Nat
  | [] => none
  | b :: bs =>
      if b = 0 then
        if run + 1 = len then some (i + 1 - len) else scan len (run + 1) (i + 1) bs
      else
        scan len 0 (i + 1) bs

/-- The first offset at which `len` zero bytes begin. -/
def zeroWindow (bank : Bytes) (len : Nat) : Option Nat :=
  if len = 0 ∨ bank.size < len then none else scan len 0 0 bank.toList

end Bank

end Cartridge
