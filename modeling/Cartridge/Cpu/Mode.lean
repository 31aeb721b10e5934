/-
# `Cartridge.Cpu.Mode` — where an instruction finds its operand
-/

namespace Cartridge.Cpu

/-- An addressing mode of the processor. -/
inductive Mode where
  /-- No operand. -/
  | implied
  /-- The accumulator. -/
  | accumulator
  /-- The operand itself: `#$12`. -/
  | immediate
  /-- A byte of the zero page: `$12`. -/
  | zeroPage
  /-- Zero page, indexed: `$12,X`. -/
  | zeroPageX
  /-- Zero page, indexed: `$12,Y`. -/
  | zeroPageY
  /-- A byte anywhere: `$1234`. -/
  | absolute
  /-- Anywhere, indexed: `$1234,X`. -/
  | absoluteX
  /-- Anywhere, indexed: `$1234,Y`. -/
  | absoluteY
  /-- Through a pointer: `($1234)`. -/
  | indirect
  /-- Through an indexed pointer: `($12,X)`. -/
  | indexedIndirect
  /-- Through a pointer, then indexed: `($12),Y`. -/
  | indirectIndexed
  /-- A signed displacement from the next instruction. -/
  | relative
deriving DecidableEq, Inhabited, Repr

namespace Mode

/-- All modes. -/
def all : List Mode :=
  [.implied, .accumulator, .immediate, .zeroPage, .zeroPageX, .zeroPageY, .absolute,
   .absoluteX, .absoluteY, .indirect, .indexedIndirect, .indirectIndexed, .relative]

/-- The name of a mode. -/
def name : Mode → String
  | .implied => "Implied"
  | .accumulator => "Accumulator"
  | .immediate => "Immediate"
  | .zeroPage => "ZeroPage"
  | .zeroPageX => "ZeroPageX"
  | .zeroPageY => "ZeroPageY"
  | .absolute => "Absolute"
  | .absoluteX => "AbsoluteX"
  | .absoluteY => "AbsoluteY"
  | .indirect => "Indirect"
  | .indexedIndirect => "IndexedIndirect"
  | .indirectIndexed => "IndirectIndexed"
  | .relative => "Relative"

/-- The mode with the given name. -/
def ofName? (text : String) : Option Mode :=
  all.find? (fun m => m.name == text)

/-- How many operand bytes follow the opcode. -/
def operandLength : Mode → Nat
  | .implied | .accumulator => 0
  | .immediate | .zeroPage | .zeroPageX | .zeroPageY | .indexedIndirect | .indirectIndexed
  | .relative => 1
  | .absolute | .absoluteX | .absoluteY | .indirect => 2

end Mode

instance : ToString Mode := ⟨Mode.name⟩

end Cartridge.Cpu
