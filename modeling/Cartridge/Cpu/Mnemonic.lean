/-
# `Cartridge.Cpu.Mnemonic` — the 56 documented instructions of the 6502
-/

namespace Cartridge.Cpu

/-- An instruction of the processor, without its operand. -/
inductive Mnemonic where
  | adc | and | asl | bcc | bcs | beq | bit | bmi | bne | bpl | brk | bvc | bvs | clc
  | cld | cli | clv | cmp | cpx | cpy | dec | dex | dey | eor | inc | inx | iny | jmp
  | jsr | lda | ldx | ldy | lsr | nop | ora | pha | php | pla | plp | rol | ror | rti
  | rts | sbc | sec | sed | sei | sta | stx | sty | tax | tay | tsx | txa | txs | tya
deriving DecidableEq, Inhabited, Repr

namespace Mnemonic

/-- All instructions, in alphabetic order. -/
def all : List Mnemonic :=
  [.adc, .and, .asl, .bcc, .bcs, .beq, .bit, .bmi, .bne, .bpl, .brk, .bvc, .bvs, .clc,
   .cld, .cli, .clv, .cmp, .cpx, .cpy, .dec, .dex, .dey, .eor, .inc, .inx, .iny, .jmp,
   .jsr, .lda, .ldx, .ldy, .lsr, .nop, .ora, .pha, .php, .pla, .plp, .rol, .ror, .rti,
   .rts, .sbc, .sec, .sed, .sei, .sta, .stx, .sty, .tax, .tay, .tsx, .txa, .txs, .tya]

/-- The assembler's name of an instruction. -/
def name : Mnemonic → String
  | .adc => "ADC" | .and => "AND" | .asl => "ASL" | .bcc => "BCC"
  | .bcs => "BCS" | .beq => "BEQ" | .bit => "BIT" | .bmi => "BMI"
  | .bne => "BNE" | .bpl => "BPL" | .brk => "BRK" | .bvc => "BVC"
  | .bvs => "BVS" | .clc => "CLC" | .cld => "CLD" | .cli => "CLI"
  | .clv => "CLV" | .cmp => "CMP" | .cpx => "CPX" | .cpy => "CPY"
  | .dec => "DEC" | .dex => "DEX" | .dey => "DEY" | .eor => "EOR"
  | .inc => "INC" | .inx => "INX" | .iny => "INY" | .jmp => "JMP"
  | .jsr => "JSR" | .lda => "LDA" | .ldx => "LDX" | .ldy => "LDY"
  | .lsr => "LSR" | .nop => "NOP" | .ora => "ORA" | .pha => "PHA"
  | .php => "PHP" | .pla => "PLA" | .plp => "PLP" | .rol => "ROL"
  | .ror => "ROR" | .rti => "RTI" | .rts => "RTS" | .sbc => "SBC"
  | .sec => "SEC" | .sed => "SED" | .sei => "SEI" | .sta => "STA"
  | .stx => "STX" | .sty => "STY" | .tax => "TAX" | .tay => "TAY"
  | .tsx => "TSX" | .txa => "TXA" | .txs => "TXS" | .tya => "TYA"

/-- The instruction with the given name. -/
def ofName? (text : String) : Option Mnemonic :=
  all.find? (fun m => m.name == text)

/-- Does the instruction branch on a flag? -/
def isBranch : Mnemonic → Bool
  | .bcc | .bcs | .beq | .bmi | .bne | .bpl | .bvc | .bvs => true
  | _ => false

end Mnemonic

instance : ToString Mnemonic := ⟨Mnemonic.name⟩

end Cartridge.Cpu
