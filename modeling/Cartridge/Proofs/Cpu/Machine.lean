/-
# `Cartridge.Proofs.Cpu.Machine` — a processor that runs what is assembled

The machine knows the instructions that code generation emits, each by its
opcode, and is stuck at every other byte.

    78 D8          SEI CLD         flags
    A2 9A          LDX #n  TXS     stack pointer
    A9 A5 AD       LDA #n  LDA a   accumulator
    85 8D          STA a           one byte stored
    F0 D0          BEQ d  BNE d    branch on the last load
    4C 40          JMP a  RTI      jump, return from an interrupt

These bytes are the machine's own and not looked up in the table of encodings; that
both agree is proved (`opcode?_of_recognize?`, `recognize?_of_execute`).

A *bus* says what the processor sees: where instructions are fetched from and
which addresses take a store.  A store anywhere else leaves the machine stuck,
so a run that goes on has not touched them.  A jump to itself is how a program
ends.
-/
import Cartridge.Proofs.Cpu.Decode
import Cartridge.Proofs.Cpu.Memory

namespace Cartridge.Cpu

/-- The registers and the memory. -/
structure State where
  pc : UInt16
  a : UInt8 := 0
  x : UInt8 := 0
  sp : UInt8 := 0
  /-- The last byte loaded was zero. -/
  zero : Bool := false
  /-- The last byte loaded has its top bit set. -/
  negative : Bool := false
  decimal : Bool := false
  interruptsOff : Bool := false
  memory : Memory

/-- What the processor sees of the world. -/
structure Bus where
  /-- A byte of an instruction. -/
  fetch : Memory → UInt16 → Option UInt8
  /-- May this address be stored to? -/
  writable : UInt16 → Bool

namespace State

/-- Go on `n` bytes further. -/
def advance (s : State) (n : Nat) : State := { s with pc := s.pc + UInt16.ofNat n }

/-- The flags that follow a loaded byte. -/
def flagged (s : State) (b : UInt8) : State := { s with zero := b == 0, negative := 0x80 ≤ b }

/-- Load the accumulator. -/
def load (s : State) (b : UInt8) : State := { s.flagged b with a := b }

/-- A displacement as a signed distance. -/
def distance (d : UInt8) : UInt16 := if d < 0x80 then d.toUInt16 else d.toUInt16 + 0xFF00

/-- Branch over `d` if the condition holds. -/
def branch (s : State) (taken : Bool) (d : UInt8) : State :=
  if taken then { s with pc := s.pc + distance d } else s

/-- The byte `n` above the stack pointer. -/
def stacked (s : State) (n : UInt8) : UInt8 := s.memory (0x0100 + (s.sp + n).toUInt16)

/-- Return from an interrupt: the flags, then the address, come off the stack. -/
def returned (s : State) : State :=
  let flags := s.stacked 1
  { s with
    pc := wordOf (s.stacked 2) (s.stacked 3)
    sp := s.sp + 3
    zero := flags &&& 0x02 != 0
    negative := flags &&& 0x80 != 0
    decimal := flags &&& 0x08 != 0
    interruptsOff := flags &&& 0x04 != 0 }

end State

/-- The instruction and the mode that the machine takes an opcode for. -/
def recognize? : UInt8 → Option (Mnemonic × Mode)
  | 0x78 => some (.sei, .implied)
  | 0xD8 => some (.cld, .implied)
  | 0xA2 => some (.ldx, .immediate)
  | 0x9A => some (.txs, .implied)
  | 0xA9 => some (.lda, .immediate)
  | 0xA5 => some (.lda, .zeroPage)
  | 0xAD => some (.lda, .absolute)
  | 0x85 => some (.sta, .zeroPage)
  | 0x8D => some (.sta, .absolute)
  | 0xF0 => some (.beq, .relative)
  | 0xD0 => some (.bne, .relative)
  | 0x4C => some (.jmp, .absolute)
  | 0x40 => some (.rti, .implied)
  | _ => none

namespace Bus

/-- The `n` bytes of an instruction from address `a` on. -/
def fetchAll (bus : Bus) (m : Memory) (a : UInt16) : Nat → Option (List UInt8)
  | 0 => some []
  | n + 1 => do
      let b ← bus.fetch m a
      let bs ← bus.fetchAll m (a + 1) n
      return b :: bs

/-- The instruction at an address. -/
def instruction? (bus : Bus) (m : Memory) (a : UInt16) : Option (Mnemonic × Operand) := do
  let opcode ← bus.fetch m a
  let (mnemonic, mode) ← recognize? opcode
  let bytes ← bus.fetchAll m (a + 1) mode.operandLength
  let operand ← Operand.ofBytes? mode bytes
  return (mnemonic, operand)

/-- Store the accumulator. -/
def store (bus : Bus) (s : State) (a : UInt16) : Option State :=
  if bus.writable a then some { s with memory := s.memory.set a s.a } else none

/-- What an instruction does, with the program counter behind it already. -/
def execute (bus : Bus) (s : State) : Mnemonic → Operand → Option State
  | .sei, .implied => some { s with interruptsOff := true }
  | .cld, .implied => some { s with decimal := false }
  | .ldx, .immediate b => some { s.flagged b with x := b }
  | .txs, .implied => some { s with sp := s.x }
  | .lda, .immediate b => some (s.load b)
  | .lda, .zeroPage a => some (s.load (s.memory a.toUInt16))
  | .lda, .absolute a => some (s.load (s.memory a))
  | .sta, .zeroPage a => bus.store s a.toUInt16
  | .sta, .absolute a => bus.store s a
  | .beq, .relative d => some (s.branch s.zero d)
  | .bne, .relative d => some (s.branch (!s.zero) d)
  | .jmp, .absolute a => some { s with pc := a }
  | .rti, .implied => some s.returned
  | _, _ => none

/-- One instruction. -/
def step (bus : Bus) (s : State) : Option State := do
  let (mnemonic, operand) ← bus.instruction? s.memory s.pc
  bus.execute (s.advance (1 + operand.bytes.length)) mnemonic operand

/-- `n` instructions. -/
def run (bus : Bus) : Nat → State → Option State
  | 0, s => some s
  | n + 1, s => (bus.step s).bind (bus.run n)

/-- The machine is at a jump to itself. -/
def Spins (bus : Bus) (s : State) : Prop :=
  bus.instruction? s.memory s.pc = some (.jmp, .absolute s.pc)

/-! ## Runs -/

theorem run_add (bus : Bus) (n k : Nat) (s : State) :
    bus.run (n + k) s = (bus.run n s).bind (bus.run k) := by
  induction n generalizing s with
  | zero => simp [run]
  | succ n ih =>
      rw [Nat.succ_add, run, run, Option.bind_assoc]
      exact congrArg _ (funext ih)

theorem run_trans {bus : Bus} {n k : Nat} {s t u : State} (h : bus.run n s = some t)
    (h' : bus.run k t = some u) : bus.run (n + k) s = some u := by
  rw [run_add, h]
  exact h'

theorem run_one {bus : Bus} {s t : State} (h : bus.step s = some t) : bus.run 1 s = some t := by
  rw [run, h]
  rfl

/-- A machine at a jump to itself stays there. -/
theorem Spins.step {bus : Bus} {s : State} (h : bus.Spins s) : bus.step s = some s := by
  rw [Bus.step, h]
  rfl

theorem Spins.run {bus : Bus} {s : State} (h : bus.Spins s) (n : Nat) :
    bus.run n s = some s := by
  induction n with
  | zero => rfl
  | succ n ih =>
      rw [Bus.run, h.step]
      exact ih

/-! ## The table of encodings -/

/-- The opcodes of the machine are those of the table. -/
theorem opcode?_of_recognize? {opcode : UInt8} {mnemonic : Mnemonic} {mode : Mode}
    (h : recognize? opcode = some (mnemonic, mode)) : opcode? mnemonic mode = some opcode := by
  unfold recognize? at h
  split at h <;> cases h <;> rfl

/-- The machine knows the opcode of every instruction that it can execute. -/
theorem recognize?_of_execute {bus : Bus} {s t : State} {mnemonic : Mnemonic} {operand : Operand}
    (h : bus.execute s mnemonic operand = some t) {opcode : UInt8}
    (hopcode : opcode? mnemonic operand.mode = some opcode) :
    recognize? opcode = some (mnemonic, operand.mode) := by
  cases mnemonic with
  | sei | cld | txs | rti =>
      cases operand with
      | implied =>
          cases hopcode
          rfl
      | _ => cases h
  | ldx =>
      cases operand with
      | immediate b =>
          cases hopcode
          rfl
      | _ => cases h
  | lda =>
      cases operand with
      | immediate b | zeroPage a | absolute a =>
          cases hopcode
          rfl
      | _ => cases h
  | sta =>
      cases operand with
      | zeroPage a | absolute a =>
          cases hopcode
          rfl
      | _ => cases h
  | beq | bne =>
      cases operand with
      | relative d =>
          cases hopcode
          rfl
      | _ => cases h
  | jmp =>
      cases operand with
      | absolute a =>
          cases hopcode
          rfl
      | _ => cases h
  | _ => cases h

/-! ## Encoded instructions are executed

`Shows` says that the bus has given bytes at an address; an instruction whose
encoding is shown is the one that is executed. -/

/-- The processor fetches `bytes` from address `a` on. -/
def Shows (bus : Bus) (m : Memory) (a : UInt16) (bytes : List UInt8) : Prop :=
  ∀ i < bytes.length, bus.fetch m (a + UInt16.ofNat i) = bytes[i]?

theorem Shows.head {bus : Bus} {m : Memory} {a : UInt16} {b : UInt8} {bs : List UInt8}
    (h : bus.Shows m a (b :: bs)) : bus.fetch m a = some b := by
  have := h 0 (by simp)
  simpa using this

theorem Shows.tail {bus : Bus} {m : Memory} {a : UInt16} {b : UInt8} {bs : List UInt8}
    (h : bus.Shows m a (b :: bs)) : bus.Shows m (a + 1) bs := by
  intro i hi
  have := h (i + 1) (by simpa using hi)
  rwa [← add_one_add_ofNat, List.getElem?_cons_succ] at this

/-- What is shown as a whole is shown in its parts. -/
theorem Shows.right {bus : Bus} {m : Memory} {a : UInt16} {bs cs : List UInt8}
    (h : bus.Shows m a (bs ++ cs)) : bus.Shows m (a + UInt16.ofNat bs.length) cs := by
  intro i hi
  have := h (bs.length + i) (by simp only [List.length_append]; omega)
  rwa [← add_ofNat_add_ofNat, List.getElem?_append_right (Nat.le_add_right ..),
    Nat.add_sub_cancel_left] at this

theorem Shows.left {bus : Bus} {m : Memory} {a : UInt16} {bs cs : List UInt8}
    (h : bus.Shows m a (bs ++ cs)) : bus.Shows m a bs := by
  intro i hi
  have := h i (by simp only [List.length_append]; omega)
  rwa [List.getElem?_append_left hi] at this

theorem fetchAll_of_shows {bus : Bus} {m : Memory} {a : UInt16} {bytes : List UInt8}
    (h : bus.Shows m a bytes) : bus.fetchAll m a bytes.length = some bytes := by
  induction bytes generalizing a with
  | nil => rfl
  | cons b bs ih =>
      rw [List.length_cons, fetchAll, h.head, ih h.tail]
      rfl

/-- The instruction whose opcode and operand stand at an address is the one read
there. -/
theorem instruction?_of_shows {bus : Bus} {m : Memory} {a : UInt16} {mnemonic : Mnemonic}
    {operand : Operand} {opcode : UInt8}
    (hopcode : recognize? opcode = some (mnemonic, operand.mode))
    (h : bus.Shows m a (opcode :: operand.bytes)) :
    bus.instruction? m a = some (mnemonic, operand) := by
  have hoperand := fetchAll_of_shows h.tail
  rw [Operand.length_bytes] at hoperand
  rw [instruction?, h.head]
  simp [hopcode, hoperand]

/-- One step executes the instruction whose encoding stands at the program counter,
and is stuck if the machine cannot. -/
theorem step_of_shows {bus : Bus} {s : State} {mnemonic : Mnemonic} {operand : Operand}
    {bytes : List UInt8} (hbytes : encode? mnemonic operand = some bytes)
    (h : bus.Shows s.memory s.pc bytes) :
    bus.step s = bus.execute (s.advance bytes.length) mnemonic operand := by
  obtain ⟨opcode, hopcode, rfl⟩ := Option.map_eq_some_iff.1 hbytes
  cases hknown : recognize? opcode with
  | some instr =>
      -- no opcode stands for two instructions
      have htable := decode?_of_opcode? (opcode?_of_recognize? hknown)
      obtain rfl : instr = (mnemonic, operand.mode) :=
        Option.some.inj (htable.symm.trans (decode?_of_opcode? hopcode))
      rw [step, instruction?_of_shows hknown h, List.length_cons, Nat.add_comm]
      rfl
  | none =>
      have hstuck : bus.execute (s.advance (opcode :: operand.bytes).length) mnemonic operand =
          none := by
        refine Option.eq_none_iff_forall_ne_some.2 fun t ht => ?_
        cases hknown.symm.trans (recognize?_of_execute ht hopcode)
      rw [hstuck, step, instruction?, h.head]
      simp [hknown]

end Bus

end Cartridge.Cpu
