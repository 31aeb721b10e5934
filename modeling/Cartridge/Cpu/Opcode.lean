/-
# `Cartridge.Cpu.Opcode` — the opcode table of the 6502

Two families of instructions lay their modes out alike:

    arithmetic   (d,X) 01   d 05   #d 09   a 0D   (d),Y 11   d,X 15   a,Y 19   a,X 1D
    shifts       d 06   A 0A   a 0E   d,X 16   a,X 1E

each added to the base of the instruction.  All other encodings are listed one
by one.  Only documented instructions have an opcode.
-/
import Cartridge.Cpu.Mnemonic
import Cartridge.Cpu.Mode

namespace Cartridge.Cpu

/-- Opcode of an arithmetic instruction with the given base. -/
def arithmetic (base : UInt8) : Mode → Option UInt8
  | .indexedIndirect => some (base + 0x01)
  | .zeroPage => some (base + 0x05)
  | .immediate => some (base + 0x09)
  | .absolute => some (base + 0x0D)
  | .indirectIndexed => some (base + 0x11)
  | .zeroPageX => some (base + 0x15)
  | .absoluteY => some (base + 0x19)
  | .absoluteX => some (base + 0x1D)
  | _ => none

/-- Opcode of a shift or rotation with the given base. -/
def shift (base : UInt8) : Mode → Option UInt8
  | .zeroPage => some (base + 0x06)
  | .accumulator => some (base + 0x0A)
  | .absolute => some (base + 0x0E)
  | .zeroPageX => some (base + 0x16)
  | .absoluteX => some (base + 0x1E)
  | _ => none

/-- The opcode of an instruction in a mode, if the processor has one. -/
def opcode? : Mnemonic → Mode → Option UInt8
  | .ora, mode => arithmetic 0x00 mode
  | .and, mode => arithmetic 0x20 mode
  | .eor, mode => arithmetic 0x40 mode
  | .adc, mode => arithmetic 0x60 mode
  | .sta, .immediate => none
  | .sta, mode => arithmetic 0x80 mode
  | .lda, mode => arithmetic 0xA0 mode
  | .cmp, mode => arithmetic 0xC0 mode
  | .sbc, mode => arithmetic 0xE0 mode
  | .asl, mode => shift 0x00 mode
  | .rol, mode => shift 0x20 mode
  | .lsr, mode => shift 0x40 mode
  | .ror, mode => shift 0x60 mode
  | .bpl, .relative => some 0x10
  | .bmi, .relative => some 0x30
  | .bvc, .relative => some 0x50
  | .bvs, .relative => some 0x70
  | .bcc, .relative => some 0x90
  | .bcs, .relative => some 0xB0
  | .bne, .relative => some 0xD0
  | .beq, .relative => some 0xF0
  | .bit, .zeroPage => some 0x24
  | .bit, .absolute => some 0x2C
  | .cpx, .immediate => some 0xE0
  | .cpx, .zeroPage => some 0xE4
  | .cpx, .absolute => some 0xEC
  | .cpy, .immediate => some 0xC0
  | .cpy, .zeroPage => some 0xC4
  | .cpy, .absolute => some 0xCC
  | .dec, .zeroPage => some 0xC6
  | .dec, .zeroPageX => some 0xD6
  | .dec, .absolute => some 0xCE
  | .dec, .absoluteX => some 0xDE
  | .inc, .zeroPage => some 0xE6
  | .inc, .zeroPageX => some 0xF6
  | .inc, .absolute => some 0xEE
  | .inc, .absoluteX => some 0xFE
  | .jmp, .absolute => some 0x4C
  | .jmp, .indirect => some 0x6C
  | .jsr, .absolute => some 0x20
  | .ldx, .immediate => some 0xA2
  | .ldx, .zeroPage => some 0xA6
  | .ldx, .zeroPageY => some 0xB6
  | .ldx, .absolute => some 0xAE
  | .ldx, .absoluteY => some 0xBE
  | .ldy, .immediate => some 0xA0
  | .ldy, .zeroPage => some 0xA4
  | .ldy, .zeroPageX => some 0xB4
  | .ldy, .absolute => some 0xAC
  | .ldy, .absoluteX => some 0xBC
  | .stx, .zeroPage => some 0x86
  | .stx, .zeroPageY => some 0x96
  | .stx, .absolute => some 0x8E
  | .sty, .zeroPage => some 0x84
  | .sty, .zeroPageX => some 0x94
  | .sty, .absolute => some 0x8C
  | .brk, .implied => some 0x00
  | .clc, .implied => some 0x18
  | .cld, .implied => some 0xD8
  | .cli, .implied => some 0x58
  | .clv, .implied => some 0xB8
  | .dex, .implied => some 0xCA
  | .dey, .implied => some 0x88
  | .inx, .implied => some 0xE8
  | .iny, .implied => some 0xC8
  | .nop, .implied => some 0xEA
  | .pha, .implied => some 0x48
  | .php, .implied => some 0x08
  | .pla, .implied => some 0x68
  | .plp, .implied => some 0x28
  | .rti, .implied => some 0x40
  | .rts, .implied => some 0x60
  | .sec, .implied => some 0x38
  | .sed, .implied => some 0xF8
  | .sei, .implied => some 0x78
  | .tax, .implied => some 0xAA
  | .tay, .implied => some 0xA8
  | .tsx, .implied => some 0xBA
  | .txa, .implied => some 0x8A
  | .txs, .implied => some 0x9A
  | .tya, .implied => some 0x98
  | _, _ => none

end Cartridge.Cpu
