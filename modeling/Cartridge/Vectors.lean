/-
# `Cartridge.Vectors` — where the processor starts
-/

namespace Cartridge

/-- The three addresses in the last six bytes of the address space. -/
structure Vectors where
  /-- Handler of the non-maskable interrupt. -/
  nmi : UInt16 := 0
  /-- First instruction after a reset. -/
  reset : UInt16 := 0
  /-- Handler of the interrupt request. -/
  irq : UInt16 := 0
deriving DecidableEq, Inhabited, Repr

end Cartridge
