/-
# `Cartridge.Command.Demo` — a sample unit

    var lives: u8 = 3 @zeropage
    var score: u16 = lives
    var palette: u8[4] = [15, 22, 39, 48]
    var palette_ptr = &palette
    var ppu_mask: u8 = 30 @address(at = $2001)
    var boot_flag: u8 = 1 @startup
-/
import Cartridge.Syntax

namespace Cartridge

/-- A unit with every form of declaration. -/
def demoUnit : List Node :=
  let number (n : UInt16) : Node := .literal {} n
  let var (name : String) (ty : Ty) (init : Node) (attributes : List Node) : Node :=
    .var {} name ty (some init) attributes
  [ var "lives" .byte (number 3) [.attribute {} "zeropage" []],
    var "score" .word (.ident {} "lives") [],
    var "palette" (.array .byte 4)
      (.array {} [number 0x0F, number 0x16, number 0x27, number 0x30]) [],
    var "palette_ptr" .unknown (.addressOf {} (.ident {} "palette")) [],
    var "ppu_mask" .byte (number 0x1E)
      [.attribute {} "address" [.property {} "at" (number 0x2001)]],
    var "boot_flag" .byte (number 1) [.attribute {} "startup" []] ]

end Cartridge
