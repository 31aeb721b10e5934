/-
# `Cartridge.ObjectCode.Select` — instructions of a block as lines of assembly

Every instruction becomes a few lines.  All names in it are resolved before
its first line is made.

    copy.b d, #n     LDA #n     STA d
    copy.w d, s      LDA s      STA d      LDA s+1    STA d+1
    widen d, s       LDA s      STA d      LDA #0     STA d+1
    bz s, L          LDA s      BEQ L
    halt             a jump to itself
-/
import Cartridge.Assembly.Assembler
import Cartridge.Storage

namespace Cartridge

/-- Why a block tree has no object code. -/
inductive CodeError where
  | assembly (error : AsmError)
  | storage (error : StorageError)
  | scope (error : ScopeError)
deriving DecidableEq, Inhabited, Repr

/-- The text of a code error. -/
def CodeError.message : CodeError → String
  | .assembly error => error.message
  | .storage error => error.message
  | .scope error => error.message

/-- A line of assembly. -/
inductive Line where
  | op (m : Cpu.Mnemonic) (o : Cpu.Operand)
  | mark (label : LabelId)
  | jump (target : LabelId)
  | branch (m : Cpu.Mnemonic) (target : LabelId)
  /-- A jump to itself. -/
  | spin
deriving DecidableEq, Inhabited, Repr

/-- Where the names in a block lead: the tree, the addresses and the block. -/
structure Site where
  tree : BlockTree
  storage : Storage
  block : BlockId

namespace Site

/-- The address of a variable. -/
def address (site : Site) (name : String) : Except (Stop CodeError) UInt16 :=
  match site.tree.resolve site.block name with
  | .error e => .error (.error (.scope e))
  | .ok (owner, _) => orFault (.unplaced name) (site.storage.find? owner name)

/-- The address of a place, modulo the address space. -/
def placeAddress (site : Site) (p : Place) : Except (Stop CodeError) UInt16 :=
  (site.address p.symbol).map (· + p.offset)

/-- The operand that loads byte `i` of a word. -/
def constant (w : UInt16) : Nat → Cpu.Operand
  | 0 => .immediate (lowByte w)
  | _ => .immediate (highByte w)

/-- The operands that load the bytes of a value. -/
def source (site : Site) : Value → Except (Stop CodeError) (Nat → Cpu.Operand)
  | .immediate n => .ok (constant n)
  | .place p => (site.placeAddress p).map fun a i => .memory (a + UInt16.ofNat i)
  | .addressOf name => (site.address name).map constant

/-- Load the byte at an address. -/
def load (a : UInt16) : Line := .op .lda (.memory a)

/-- Store the byte at an address. -/
def store (a : UInt16) : Line := .op .sta (.memory a)

/-- The lines of an instruction. -/
def select (site : Site) : Instr → Except (Stop CodeError) (List Line)
  | .copy dest src width => do
      let d ← site.placeAddress dest
      let byte ← site.source src
      return (List.range width.bytes).flatMap fun i =>
        [.op .lda (byte i), store (d + UInt16.ofNat i)]
  | .widen dest src => do
      let d ← site.placeAddress dest
      let s ← site.placeAddress src
      return [load s, store d, .op .lda (.immediate 0), store (d + 1)]
  | .label l => return [.mark l]
  | .jump target => return [.jump target]
  | .branchZero src target => do
      let s ← site.placeAddress src
      return [load s, .branch .beq target]
  | .branchNonzero src target => do
      let s ← site.placeAddress src
      return [load s, .branch .bne target]
  | .halt => return [.spin]

end Site

end Cartridge
