/-
# `Cartridge.Assembly.Assembler` — assembling one routine

The assembler appends instructions to a buffer that starts at address `base`.
A label is a number, handed out in order; it is bound once, to the address of
the next byte.  Branches and jumps may use a label before it is bound: their
operand is left zero and noted as a *patch*, which `finish` fills in.  A jump
is always a patch, because its operand must move with the segment.

    op m o          an illegal pair is a fault, before the room is looked at;
                    code past $10000 is an error
    branchAt m a    the displacement first, then as `op`
    branchTo m l    to a bound label as `branchAt`
    jumpTo l        as `op`; the label is looked up by `finish` alone

An operation that stops leaves the assembler as it was.
-/
import Cartridge.Assembly.Segment
import Cartridge.Cpu.Operand
import Cartridge.Hex

namespace Cartridge

/-- Why code cannot be assembled. -/
inductive AsmError where
  /-- The code would end at `stop`, past the address space. -/
  | overflow (stop : Nat)
  /-- A branch whose target is too far away. -/
  | branchOutOfRange (source target : UInt16)
  /-- A label that is used and never bound. -/
  | unboundLabel (label : Nat)
deriving DecidableEq, Inhabited, Repr

/-- The text of an assembly error. -/
def AsmError.message : AsmError → String
  | .overflow stop => s!"program counter overflow: ${hex stop} exceeds the 16-bit address space"
  | .branchOutOfRange source target =>
      s!"branch from {showAddress source} to {showAddress target} is out of range"
  | .unboundLabel label => s!"label {label} used but never bound"

/-- The displacement byte of a branch at `source` to `target`: the signed
distance from the instruction after the branch, which is two bytes long. -/
def displacement (source target : UInt16) : Except AsmError UInt8 :=
  let delta : Int := target.toNat - (source.toNat + 2 : Int)
  if -128 ≤ delta ∧ delta ≤ 127 then .ok (UInt8.ofNat (delta % 256).toNat)
  else .error (.branchOutOfRange source target)

/-- How a patch writes the address of its label. -/
inductive PatchKind where
  /-- The displacement byte of a branch. -/
  | relative
  /-- The address word of a jump. -/
  | absolute
deriving DecidableEq, Inhabited, Repr

/-- An operand that waits for its label. -/
structure Patch where
  /-- Offset of the operand in the buffer. -/
  offset : Nat
  label : Nat
  kind : PatchKind
deriving DecidableEq, Inhabited, Repr

/-- The buffer of one routine. -/
structure Assembler where
  base : UInt16
  code : Bytes := #[]
  labels : Array (Option UInt16) := #[]
  patches : Array Patch := #[]
deriving DecidableEq, Inhabited, Repr

/-- A step on an assembler. -/
abbrev Asm := EStateM (Stop AsmError) Assembler

namespace Assembler

/-- Offset of the next byte, as a word. -/
def pc (a : Assembler) : UInt16 := UInt16.ofNat a.code.size

/-- Address of the next byte. -/
def here (a : Assembler) : UInt16 := a.base + a.pc

/-- Address after the code if `n` bytes are added. -/
def stopAfter (a : Assembler) (n : Nat) : Nat := a.base.toNat + a.code.size + n

/-- The position of a label: `none` if the label was never handed out. -/
def label? (a : Assembler) (label : Nat) : Option (Option UInt16) := a.labels[label]?

/-! ## Appending -/

/-- Append one instruction. -/
def op (m : Cpu.Mnemonic) (o : Cpu.Operand) : Asm Unit := fun a =>
  match Cpu.encode? m o with
  | none => .error (.fault (.illegal m o.mode)) a
  | some bytes =>
      let stop := a.stopAfter bytes.length
      if 0x10000 < stop then .error (.error (.overflow stop)) a
      else .ok () { a with code := a.code ++ bytes }

/-- Append a branch to a known address. -/
def branchAt (m : Cpu.Mnemonic) (target : UInt16) : Asm Unit := fun a =>
  match displacement a.here target with
  | .error e => .error (.error e) a
  | .ok d => op m (.relative d) a

/-- Note that the last `width` bytes wait for a label. -/
def await (label : Nat) (kind : PatchKind) (width : Nat) : Asm Unit := fun a =>
  .ok () { a with patches := a.patches.push ⟨a.code.size - width, label, kind⟩ }

/-- Hand out the next label. -/
def freshLabel : Asm Nat := fun a =>
  .ok a.labels.size { a with labels := a.labels.push none }

/-- Bind a label to the address of the next byte. -/
def bind (label : Nat) : Asm Unit := fun a =>
  match a.label? label with
  | none => .error (.fault .outOfRange) a
  | some (some _) => .error (.fault (.rebound label)) a
  | some none => .ok () { a with labels := a.labels.setIfInBounds label (some a.here) }

/-- Append a branch to a label, bound or not. -/
def branchTo (m : Cpu.Mnemonic) (label : Nat) : Asm Unit := fun a =>
  match a.label? label with
  | none => .error (.fault .outOfRange) a
  | some (some target) => branchAt m target a
  | some none => (do op m (.relative 0); await label .relative 1) a

/-- Append a jump to a label, bound or not. -/
def jumpTo (label : Nat) : Asm Unit := do
  op .jmp (.absolute 0)
  await label .absolute 2

/-! ## Finishing -/

/-- The bytes that a patch writes for the address of its label. -/
def patchBytes (a : Assembler) (p : Patch) (target : UInt16) : Except AsmError (List UInt8) :=
  match p.kind with
  | .relative => (displacement (a.base + UInt16.ofNat (p.offset - 1)) target).map ([·])
  | .absolute => .ok (wordBytes target)

/-- Fill in one patch. -/
def applyPatch (a : Assembler) (p : Patch) (code : Bytes) : Except (Stop AsmError) Bytes :=
  match a.label? p.label with
  | none => .error (.fault .outOfRange)
  | some none => .error (.error (.unboundLabel p.label))
  | some (some target) =>
      match a.patchBytes p target with
      | .error e => .error (.error e)
      | .ok bytes => orFault .outOfRange (code.putAll? p.offset bytes)

/-- Fill in patches in order. -/
def applyPatches (a : Assembler) : List Patch → Bytes → Except (Stop AsmError) Bytes
  | [], code => .ok code
  | p :: ps, code =>
      match a.applyPatch p code with
      | .error s => .error s
      | .ok code' => a.applyPatches ps code'

/-- Offsets of the operands that hold an address, in the order of emission. -/
def jumpOffsets (a : Assembler) : List Nat :=
  (a.patches.toList.filter (fun p => p.kind == .absolute)).map Patch.offset

/-- Fill in all patches and hand over the segment. -/
def finish (a : Assembler) : Except (Stop AsmError) Segment :=
  match a.applyPatches a.patches.toList a.code with
  | .ok code => .ok ⟨a.base, code, a.jumpOffsets⟩
  | .error s => .error s

end Assembler

end Cartridge
