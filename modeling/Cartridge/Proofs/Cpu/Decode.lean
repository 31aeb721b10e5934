/-
# `Cartridge.Proofs.Cpu.Decode` — reading instructions back

The opcode table is read backwards: a byte stands for the pair of instruction
and mode whose opcode it is.  No two documented pairs share an opcode, so the
pair is unique, and the mode says how many operand bytes follow.

    decode? b                  the instruction and the mode of an opcode
    Operand.ofBytes? mode bs   the operand that the bytes stand for
    disassemble bs             all instructions, one behind the other

Proved here: all three undo the encoding.
-/
import Cartridge.Cpu.Operand

namespace Cartridge.Cpu

/-- The opcode table as a list: every documented opcode with its instruction
and mode. -/
def table : List (UInt8 × Mnemonic × Mode) :=
  Mnemonic.all.flatMap fun m => Mode.all.filterMap fun mode =>
    (opcode? m mode).map fun opcode => (opcode, m, mode)

/-- The instruction and the mode that an opcode stands for. -/
def decode? (opcode : UInt8) : Option (Mnemonic × Mode) :=
  (table.find? fun entry => entry.1 == opcode).map Prod.snd

/-- The operand that stands in the bytes behind an opcode. -/
def Operand.ofBytes? : Mode → List UInt8 → Option Operand
  | .implied, [] => some .implied
  | .accumulator, [] => some .accumulator
  | .immediate, [b] => some (.immediate b)
  | .zeroPage, [b] => some (.zeroPage b)
  | .zeroPageX, [b] => some (.zeroPageX b)
  | .zeroPageY, [b] => some (.zeroPageY b)
  | .absolute, [low, high] => some (.absolute (wordOf low high))
  | .absoluteX, [low, high] => some (.absoluteX (wordOf low high))
  | .absoluteY, [low, high] => some (.absoluteY (wordOf low high))
  | .indirect, [low, high] => some (.indirect (wordOf low high))
  | .indexedIndirect, [b] => some (.indexedIndirect b)
  | .indirectIndexed, [b] => some (.indirectIndexed b)
  | .relative, [b] => some (.relative b)
  | _, _ => none

theorem mem_table {m : Mnemonic} {mode : Mode} {b : UInt8} (h : opcode? m mode = some b) :
    (b, m, mode) ∈ table := by
  have hm : m ∈ Mnemonic.all := by cases m <;> decide
  have hmode : mode ∈ Mode.all := by cases mode <;> decide
  refine List.mem_flatMap.2 ⟨m, hm, List.mem_filterMap.2 ⟨mode, hmode, ?_⟩⟩
  rw [h]
  rfl

/-- No opcode stands twice in the table: looking up the opcode of an entry
finds that entry first. -/
theorem find?_table :
    (table.all fun entry => decode? entry.1 == some entry.2) = true := by
  decide +kernel

/-- An opcode of the table leads back to its instruction and mode. -/
theorem decode?_of_opcode? {m : Mnemonic} {mode : Mode} {b : UInt8}
    (h : opcode? m mode = some b) : decode? b = some (m, mode) :=
  eq_of_beq (List.all_eq_true.1 find?_table _ (mem_table h))

@[simp] theorem Operand.ofBytes?_bytes (o : Operand) : ofBytes? o.mode o.bytes = some o := by
  cases o <;> simp [mode, bytes, ofBytes?, wordBytes]

/-- The instructions that stand in the bytes, one behind the other. -/
def disassemble : List UInt8 → Option (List (Mnemonic × Operand))
  | [] => some []
  | opcode :: bytes =>
      (decode? opcode).bind fun (m, mode) =>
        (Operand.ofBytes? mode (bytes.take mode.operandLength)).bind fun o =>
          (disassemble (bytes.drop mode.operandLength)).map ((m, o) :: ·)
termination_by bytes => bytes.length
decreasing_by
  rw [List.length_drop, List.length_cons]
  omega

@[simp] theorem disassemble_nil : disassemble [] = some [] := by rw [disassemble]

/-- The first instruction is read back whatever stands behind it. -/
theorem disassemble_append {m : Mnemonic} {o : Operand} {front : List UInt8}
    (h : encode? m o = some front) (rest : List UInt8) :
    disassemble (front ++ rest) = (disassemble rest).map ((m, o) :: ·) := by
  obtain ⟨opcode, hopcode, rfl⟩ := Option.map_eq_some_iff.1 h
  have htake : (o.bytes ++ rest).take o.mode.operandLength = o.bytes := by
    rw [← o.length_bytes, List.take_left]
  have hdrop : (o.bytes ++ rest).drop o.mode.operandLength = rest := by
    rw [← o.length_bytes, List.drop_left]
  rw [List.cons_append, disassemble, decode?_of_opcode? hopcode, Option.bind_some]
  dsimp only
  rw [htake, hdrop, Operand.ofBytes?_bytes, Option.bind_some]

end Cartridge.Cpu
