/-
# `Cartridge.Fault` — broken contracts

An *error* is an answer about the input.  A *fault* is a call that its
contract forbids: an encoding that the processor does not have, a label bound
a second time, an offset past the end of a buffer, a sum or a product that the
word for it does not hold.  The two never mix: an operation stops with the one or
with the other.
-/
import Cartridge.Cpu.Mnemonic
import Cartridge.Cpu.Mode

namespace Cartridge

/-- A contract that a call broke. -/
inductive Fault where
  /-- The processor has no such instruction. -/
  | illegal (mnemonic : Cpu.Mnemonic) (mode : Cpu.Mode)
  /-- The label has a position already. -/
  | rebound (label : Nat)
  /-- An offset lies outside its buffer. -/
  | outOfRange
  /-- A variable has no storage. -/
  | unplaced (name : String)
  /-- A sum or a product does not fit the word for it. -/
  | overflow
deriving DecidableEq, Inhabited, Repr

/-- The text of a fault; a fault of indexing or of arithmetic has none. -/
def Fault.message : Fault → Option String
  | .illegal mnemonic mode => some s!"illegal instruction: {mnemonic} {mode}"
  | .rebound label => some s!"label {label} bound twice"
  | .outOfRange | .unplaced _ | .overflow => none

/-- Why an operation stops. -/
inductive Stop (ε : Type) where
  | error (e : ε)
  | fault (f : Fault)
deriving DecidableEq, Inhabited, Repr

/-- The same stop for a caller with errors of its own. -/
def Stop.map {ε ε' : Type} (f : ε → ε') : Stop ε → Stop ε'
  | .error e => .error (f e)
  | .fault x => .fault x

@[simp] theorem Stop.map_eq_fault_iff {ε ε' : Type} {f : ε → ε'} {s : Stop ε} {x : Fault} :
    s.map f = .fault x ↔ s = .fault x := by
  cases s <;> simp [Stop.map]

/-- The value of a look-up that must not fail. -/
def orFault {ε α : Type} (f : Fault) : Option α → Except (Stop ε) α
  | some a => .ok a
  | none => .error (.fault f)

end Cartridge
