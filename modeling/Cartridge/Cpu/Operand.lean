/-
# `Cartridge.Cpu.Operand` — operands with their values

An operand is an addressing mode together with the value that follows the
opcode, so an operand of the wrong width cannot be written down.  An
instruction is encoded as its opcode and the bytes of its operand.
-/
import Cartridge.Cpu.Opcode
import Cartridge.Word

namespace Cartridge.Cpu

/-- What an instruction works on. -/
inductive Operand where
  | implied
  | accumulator
  | immediate (value : UInt8)
  | zeroPage (address : UInt8)
  | zeroPageX (address : UInt8)
  | zeroPageY (address : UInt8)
  | absolute (address : UInt16)
  | absoluteX (address : UInt16)
  | absoluteY (address : UInt16)
  | indirect (address : UInt16)
  | indexedIndirect (address : UInt8)
  | indirectIndexed (address : UInt8)
  /-- A branch over `displacement` bytes, read as a signed number. -/
  | relative (displacement : UInt8)
deriving DecidableEq, Inhabited, Repr

namespace Operand

/-- The addressing mode of an operand. -/
def mode : Operand → Mode
  | .implied => .implied
  | .accumulator => .accumulator
  | .immediate _ => .immediate
  | .zeroPage _ => .zeroPage
  | .zeroPageX _ => .zeroPageX
  | .zeroPageY _ => .zeroPageY
  | .absolute _ => .absolute
  | .absoluteX _ => .absoluteX
  | .absoluteY _ => .absoluteY
  | .indirect _ => .indirect
  | .indexedIndirect _ => .indexedIndirect
  | .indirectIndexed _ => .indirectIndexed
  | .relative _ => .relative

/-- The bytes that follow the opcode. -/
def bytes : Operand → List UInt8
  | .implied | .accumulator => []
  | .immediate b | .zeroPage b | .zeroPageX b | .zeroPageY b | .indexedIndirect b
  | .indirectIndexed b | .relative b => [b]
  | .absolute w | .absoluteX w | .absoluteY w | .indirect w => wordBytes w

/-- The byte at an address, by the shortest encoding. -/
def memory (address : UInt16) : Operand :=
  if address ≤ 0xFF then .zeroPage address.toUInt8 else .absolute address

@[simp] theorem length_bytes (o : Operand) : o.bytes.length = o.mode.operandLength := by
  cases o <;> rfl

end Operand

/-- The bytes of an instruction, if the processor has it. -/
def encode? (m : Mnemonic) (o : Operand) : Option (List UInt8) :=
  (opcode? m o.mode).map (· :: o.bytes)

end Cartridge.Cpu
