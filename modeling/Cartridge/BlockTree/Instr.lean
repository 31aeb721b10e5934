/-
# `Cartridge.BlockTree.Instr` — symbols, places and instructions

    copy.b d, s     one byte from `s` to `d`
    copy.w d, s     two bytes, low byte first
    widen d, s      the byte at `s`, then a zero byte
    L0:             a position
    jump L0         go there
    bz s, L0        go there if the byte at `s` is zero
    bnz s, L0       go there if it is not
    halt            stop
-/
import Cartridge.Fault
import Cartridge.Hex
import Cartridge.Ty.Render

namespace Cartridge

/-- Where the storage of a variable lies. -/
inductive Placement where
  /-- In general memory. -/
  | auto
  /-- In the zero page. -/
  | zeroPage
  /-- At an address of its own. -/
  | fixed (address : UInt16)
deriving DecidableEq, Inhabited, Repr

/-- A variable: its name, its type and where it is to lie. -/
structure Symbol where
  name : String
  ty : Ty
  placement : Placement := .auto
deriving DecidableEq, Inhabited, Repr

/-- A byte inside the storage of a variable. -/
structure Place where
  symbol : String
  offset : UInt16 := 0
deriving DecidableEq, Inhabited, Repr

namespace Place

/-- The place `n` bytes further on, modulo the address space. -/
def plus (p : Place) (n : UInt16) : Place := { p with offset := p.offset + n }

/-- The place `n` bytes further on, whose offset must be a word as well. -/
def shift {ε : Type} (p : Place) (n : UInt16) : Except (Stop ε) Place :=
  if p.offset.toNat + n.toNat < 0x10000 then .ok (p.plus n) else .error (.fault .overflow)

theorem shift_eq_ok_iff {ε : Type} {p q : Place} {n : UInt16} :
    (p.shift n : Except (Stop ε) Place) = .ok q ↔
      p.offset.toNat + n.toNat < 0x10000 ∧ q = p.plus n := by
  rw [shift]
  split
  · next h => simp [h, eq_comm]
  · next h => simp [h]

theorem shift_eq_error_iff {ε : Type} {p : Place} {n : UInt16} {stop : Stop ε} :
    p.shift n = .error stop ↔
      0x10000 ≤ p.offset.toNat + n.toNat ∧ stop = .fault .overflow := by
  rw [shift]
  split
  · next h => simp [Nat.not_le_of_lt h]
  · next h => simp [Nat.le_of_not_lt h, eq_comm]

/-- A sum of offsets that is a word is not cut. -/
theorem toNat_offset_plus {p : Place} {n : UInt16} (h : p.offset.toNat + n.toNat < 0x10000) :
    (p.plus n).offset.toNat = p.offset.toNat + n.toNat := by
  rw [plus, UInt16.toNat_add]
  exact Nat.mod_eq_of_lt h

/-- A place as listings show it. -/
def render (p : Place) : String :=
  if p.offset = 0 then p.symbol else s!"{p.symbol}+{p.offset}"

end Place

instance : ToString Place := ⟨Place.render⟩

/-- What an instruction stores. -/
inductive Value where
  | immediate (n : UInt16)
  | place (p : Place)
  /-- The address of a variable. -/
  | addressOf (name : String)
deriving DecidableEq, Inhabited, Repr

/-- A value as listings show it. -/
def Value.render : Value → String
  | .immediate n => s!"#{n}"
  | .place p => p.render
  | .addressOf name => s!"&{name}"

instance : ToString Value := ⟨Value.render⟩

/-- How much an instruction moves. -/
inductive Width where
  | byte
  | word
deriving DecidableEq, Inhabited, Repr

/-- The number of bytes moved. -/
def Width.bytes : Width → Nat
  | .byte => 1
  | .word => 2

/-- The letter that marks the width in a listing. -/
def Width.letter : Width → String
  | .byte => "b"
  | .word => "w"

/-- A position in the code, numbered over the whole tree. -/
abbrev LabelId := Nat

/-- The name of a position in listings. -/
def showLabel (l : LabelId) : String := s!"L{l}"

/-- An instruction of a block. -/
inductive Instr where
  | copy (dest : Place) (src : Value) (width : Width)
  | widen (dest src : Place)
  | label (l : LabelId)
  | jump (target : LabelId)
  | branchZero (src : Place) (target : LabelId)
  | branchNonzero (src : Place) (target : LabelId)
  | halt
deriving DecidableEq, Inhabited, Repr

/-- An instruction as listings show it. -/
def Instr.render : Instr → String
  | .copy dest src width => s!"copy.{width.letter} {dest}, {src}"
  | .widen dest src => s!"widen {dest}, {src}"
  | .label l => s!"{showLabel l}:"
  | .jump target => s!"jump {showLabel target}"
  | .branchZero src target => s!"bz {src}, {showLabel target}"
  | .branchNonzero src target => s!"bnz {src}, {showLabel target}"
  | .halt => "halt"

instance : ToString Instr := ⟨Instr.render⟩

end Cartridge
