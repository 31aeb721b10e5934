/-
# `Cartridge.Storage` — addresses for variables

    $0010 – $00FF    variables of the zero page
    $0300 – $07FF    variables without a wish
    anywhere         variables with an address of their own

The first two regions are handed out from below, without gaps, and nothing is
ever taken back: storage remembers every allocation, the latest first, also
when an allocation after it is refused.
-/
import Cartridge.BlockTree.Basic
import Cartridge.Ty.Size

namespace Cartridge

/-- Why a variable has no address. -/
inductive StorageError where
  /-- The region of the variable is full. -/
  | exhausted (name : String)
  /-- The type of the variable has no size. -/
  | type (name : String) (error : TypeError)
deriving DecidableEq, Inhabited, Repr

/-- The text of a storage error. -/
def StorageError.message : StorageError → String
  | .exhausted name => s!"no storage left for '{name}'"
  | .type name error => s!"symbol '{name}': {error.message}"

/-- An address handed out to a symbol of a block. -/
structure Allocation where
  owner : BlockId
  symbol : Symbol
  size : Nat
  address : UInt16
deriving DecidableEq, Inhabited, Repr

/-- All allocations, and the first free address of the two regions. -/
structure Storage where
  allocations : List Allocation := []
  zeroPageNext : Nat := 0x0010
  ramNext : Nat := 0x0300
deriving DecidableEq, Inhabited, Repr

namespace Storage

/-- First address past the variables of the zero page. -/
def zeroPageEnd : Nat := 0x0100

/-- First address past the variables in general memory. -/
def ramEnd : Nat := 0x0800

/-- Take `size` bytes where the placement wants them. -/
def reserve (s : Storage) (size : Nat) : Placement → Option (UInt16 × Storage)
  | .fixed address => if address.toNat + size ≤ 0x10000 then some (address, s) else none
  | .zeroPage =>
      if s.zeroPageNext + size ≤ zeroPageEnd then
        some (UInt16.ofNat s.zeroPageNext, { s with zeroPageNext := s.zeroPageNext + size })
      else none
  | .auto =>
      if s.ramNext + size ≤ ramEnd then
        some (UInt16.ofNat s.ramNext, { s with ramNext := s.ramNext + size })
      else none

/-- Give a symbol of a block its address. -/
def allocate (owner : BlockId) (symbol : Symbol) :
    EStateM (Stop StorageError) Storage UInt16 := fun s =>
  match symbol.ty.size with
  | .error stop => .error (stop.map (.type symbol.name)) s
  | .ok size =>
      match s.reserve size symbol.placement with
      | none => .error (.error (.exhausted symbol.name)) s
      | some (address, s') =>
          .ok address { s' with allocations := ⟨owner, symbol, size, address⟩ :: s'.allocations }

/-- The latest address of a symbol. -/
def find? (s : Storage) (owner : BlockId) (name : String) : Option UInt16 :=
  (s.allocations.find? fun a => a.owner == owner && a.symbol.name == name).map Allocation.address

end Storage

end Cartridge
