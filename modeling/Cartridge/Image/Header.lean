/-
# `Cartridge.Image.Header` — the sixteen bytes in front of an image

    0 – 3    the signature
    4, 5     banks of program and of character memory
    6        mirroring, battery, trainer, four screens, low half of the mapper
    7        arcade board in bit 0, high half of the mapper
    8        program RAM          9    television system in bit 0
    10       unofficial flags     11 – 15    zero
-/
import Cartridge.Image.Board
import Cartridge.Word

namespace Cartridge

/-- The signature of an image: `NES` and an end-of-file mark. -/
def magic : List UInt8 := [0x4E, 0x45, 0x53, 0x1A]

/-- Bytes in the header. -/
def headerSize : Nat := 16

/-- Bytes in one bank of character memory. -/
def chrBankSize : Nat := 0x2000

/-- How the name tables are arranged. -/
inductive Mirroring where
  | horizontal
  | vertical
deriving DecidableEq, Inhabited, Repr

/-- The name of an arrangement. -/
def Mirroring.name : Mirroring → String
  | .horizontal => "Horizontal"
  | .vertical => "Vertical"

/-- What the header says about a cartridge. -/
structure Header where
  /-- Banks of program memory, 16 KiB each. -/
  prgBanks : UInt8 := 0
  /-- Banks of character memory, 8 KiB each. -/
  chrBanks : UInt8 := 0
  mirroring : Mirroring := .horizontal
  battery : Bool := false
  trainer : Bool := false
  fourScreen : Bool := false
  mapper : UInt8 := 0
  arcade : Bool := false
  /-- Banks of program RAM, 8 KiB each. -/
  prgRam : UInt8 := 0
  pal : Bool := false
  flags10 : UInt8 := 0
deriving DecidableEq, Inhabited, Repr

namespace Header

/-- The header of a plain cartridge. -/
def ofBoard (board : Board) : Header := { prgBanks := board.banks }

/-- Bytes of program memory. -/
def prgSize (h : Header) : Nat := h.prgBanks.toNat * prgBankSize

/-- Bytes of character memory. -/
def chrSize (h : Header) : Nat := h.chrBanks.toNat * chrBankSize

/-- A bit that is set if the flag holds. -/
def flag (b : Bool) (bit : UInt8) : UInt8 := if b then bit else 0

/-- Is any of these bits set? -/
def isSet (byte bits : UInt8) : Bool := byte &&& bits != 0

/-- Byte 6 of the header. -/
def flags6 (h : Header) : UInt8 :=
  flag (h.mirroring == .vertical) 0x01 ||| flag h.battery 0x02 ||| flag h.trainer 0x04
    ||| flag h.fourScreen 0x08 ||| (h.mapper &&& 0x0F) <<< 4

/-- Byte 7 of the header. -/
def flags7 (h : Header) : UInt8 :=
  flag h.arcade 0x01 ||| h.mapper &&& 0xF0

/-- The bytes of a header. -/
def toList (h : Header) : List UInt8 :=
  magic ++ [h.prgBanks, h.chrBanks, h.flags6, h.flags7, h.prgRam, flag h.pal 0x01, h.flags10,
    0, 0, 0, 0, 0]

@[simp] theorem length_toList (h : Header) : h.toList.length = headerSize := rfl

/-- Read a header from the front of a file. -/
def parse (file : Bytes) : Except ImageError Header :=
  if h : file.size < headerSize then .error (.truncated file.size)
  else
    have : 16 ≤ file.size := Nat.le_of_not_lt h
    if (file.extract 0 4).toList != magic then .error .badMagic
    else .ok {
      prgBanks := file[4]
      chrBanks := file[5]
      mirroring := if isSet file[6] 0x01 then .vertical else .horizontal
      battery := isSet file[6] 0x02
      trainer := isSet file[6] 0x04
      fourScreen := isSet file[6] 0x08
      mapper := file[6] >>> 4 ||| file[7] &&& 0xF0
      arcade := isSet file[7] 0x01
      prgRam := file[8]
      pal := isSet file[9] 0x01
      flags10 := file[10] }

end Header

end Cartridge
