/-
# `Cartridge.Image.Board` — the two sizes of program memory

    NROM-128    one bank of 16 KiB    at $C000
    NROM-256    two banks             at $8000
-/
import Cartridge.Image.Error

namespace Cartridge

/-- Bytes in one bank of program memory. -/
def prgBankSize : Nat := 0x4000

/-- A board without a mapper. -/
inductive Board where
  | nrom128
  | nrom256
deriving DecidableEq, Inhabited, Repr

namespace Board

/-- The number of banks. -/
def banks : Board → UInt8
  | .nrom128 => 1
  | .nrom256 => 2

/-- Where program memory begins in the address space. -/
def base : Board → UInt16
  | .nrom128 => 0xC000
  | .nrom256 => 0x8000

/-- Bytes of program memory. -/
def size (board : Board) : Nat := board.banks.toNat * prgBankSize

/-- Bytes of program memory in front of the vectors. -/
def capacity (board : Board) : Nat := board.size - 6

/-- The name of the board. -/
def name : Board → String
  | .nrom128 => "Nrom128"
  | .nrom256 => "Nrom256"

/-- The board with the given number of banks. -/
def ofBanks (n : UInt8) : Except ImageError Board :=
  if n = 1 then .ok .nrom128
  else if n = 2 then .ok .nrom256
  else .error (.unsupportedBanks n)

end Board

end Cartridge
