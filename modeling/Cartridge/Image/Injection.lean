/-
# `Cartridge.Image.Injection` — a bank and a startup routine become an image

The startup routine is put into the first run of zero bytes that holds it and
a jump behind it.  The jump leads to where the reset vector pointed before;
the reset vector then points to the routine.

    1  the bank must have the size that the header says
    2  without startup code the bank is left alone
    3  the old reset vector is read, then the window is written,
       then the new reset vector
-/
import Cartridge.Image.Bank
import Cartridge.Image.Rom
import Cartridge.Journal

namespace Cartridge

namespace Rom

/-- The opcode of the jump behind the startup routine. -/
def jumpOpcode : UInt8 := 0x4C

/-- Bytes of a startup routine with the jump behind it. -/
def routineSize (startup : Segment) : Nat := startup.size + 3

/-- Put a startup routine into an image. -/
def inject (startup : Segment) (rom : Rom) : Except (Stop ImageError) Rom :=
  match Board.ofBanks rom.header.prgBanks with
  | .error e => .error (.error e)
  | .ok board => do
      let next ← orFault .outOfRange (rom.prg.vector? Vectors.resetFromEnd)
      match Bank.zeroWindow rom.prg (routineSize startup) with
      | none => .error (.error (.noSpaceForStartup (routineSize startup)))
      | some offset =>
          let address := board.base + UInt16.ofNat offset
          match startup.moveTo address with
          | .error f => .error (.fault f)
          | .ok routine => do
              let code := routine.bytes.toList ++ jumpOpcode :: wordBytes next
              let bank ← orFault .outOfRange (rom.prg.putAll? offset code)
              let bank ← orFault .outOfRange (bank.putVector? Vectors.resetFromEnd address)
              return { rom with prg := bank }

/-- Build an image from a bank and a startup routine. -/
def ofBank (header : Header) (bank : Bytes) (startup : Segment) : Except (Stop ImageError) Rom :=
  match ofPrg header bank with
  | .error e => .error (.error e)
  | .ok rom => if startup.isEmpty then .ok rom else rom.inject startup

/-- What `ofBank` reports. -/
def ofBankEvent (bank : Bytes) (startup : Segment) (rom : Rom) : Event :=
  if startup.isEmpty then .noStartup
  else .startupPlaced (routineSize startup) ((rom.prg.vector? Vectors.resetFromEnd).getD 0)
    ((bank.vector? Vectors.resetFromEnd).getD 0)

/-- `ofBank`, with its event. -/
def ofBankTraced (header : Header) (bank : Bytes) (startup : Segment) :
    Traced (Stop ImageError) Rom :=
  Traced.ofExcept (ofBankEvent bank startup) (ofBank header bank startup)

end Rom

/-- `Bank.layout`, with its event. -/
def Bank.layoutTraced (main : Segment) (vectors : Vectors) (board : Board) :
    Traced ImageError Bytes :=
  Traced.ofExcept (fun _ => .bankLaidOut (used main board) board.capacity) (layout main vectors board)

end Cartridge
