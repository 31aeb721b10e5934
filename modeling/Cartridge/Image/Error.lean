/-
# `Cartridge.Image.Error` — why there is no image
-/
import Cartridge.Hex

namespace Cartridge

/-- Why an image cannot be built or read. -/
inductive ImageError where
  /-- No run of zero bytes holds the startup routine. -/
  | noSpaceForStartup (size : Nat)
  /-- The program does not fit below the vectors. -/
  | programTooLarge (size capacity : Nat)
  /-- The program starts below the bank. -/
  | segmentOutsideBank (origin base : UInt16)
  /-- The contents and the header disagree. -/
  | sizeMismatch (expected actual : Nat)
  /-- The file does not start with the signature. -/
  | badMagic
  /-- The file ends inside the header. -/
  | truncated (size : Nat)
  /-- The board has one or two banks of program memory. -/
  | unsupportedBanks (banks : UInt8)
deriving DecidableEq, Inhabited, Repr

/-- The text of an image error. -/
def ImageError.message : ImageError → String
  | .noSpaceForStartup size => s!"no space for startup routine of {size} bytes"
  | .programTooLarge size capacity => s!"program is {size} bytes, bank has room for {capacity}"
  | .segmentOutsideBank origin base =>
      s!"segment at {showAddress origin} lies outside the bank at {showAddress base}"
  | .sizeMismatch expected actual => s!"expected {expected} bytes, found {actual}"
  | .badMagic => "missing iNES signature"
  | .truncated size => s!"file too short for header: {size} bytes"
  | .unsupportedBanks banks => s!"unsupported PRG bank count {banks}"

end Cartridge
