/-
# `Cartridge.Proofs.BlockTree.Meaning` — what the code of a tree does

The code of a tree is run over a memory of all addresses.  Instructions stand
one after the other, each with the block that it comes from: names in it are
looked up from there.

    copy d, s       the bytes of `s` one by one, low byte first; a byte is read
                    after the byte before it was written
    widen d, s      the byte at `s`, then a zero byte
    L:              nothing
    jump L          go to the position of `L`
    bz s, L         go there if the byte at `s` is zero      (bnz: if it is not)
    halt            stop

Code that only copies and widens is run from its first instruction to its last
(`Code.Runs`).

Nothing here knows of machine code: a run is a chain of steps between
positions, and a name stands for the address handed out to the nearest block
that declares it.
-/
import Cartridge.Proofs.BlockTree.Walks
import Cartridge.Proofs.Cpu.Memory
import Cartridge.Storage

namespace Cartridge

/-! ## Names -/

/-- The address that a name stands for in a block. -/
abbrev Names := BlockId → String → UInt16 → Prop

/-- A name stands for the address of the nearest declaration. -/
def BlockTree.names (t : BlockTree) (storage : Storage) : Names := fun block name a =>
  ∃ owner, t.Nearest name block owner ∧ storage.find? owner name = some a

theorem BlockTree.names_unique {t : BlockTree} {storage : Storage} {block : BlockId}
    {name : String} {a a' : UInt16} (h : t.names storage block name a)
    (h' : t.names storage block name a') : a = a' := by
  obtain ⟨owner, howner, ha⟩ := h
  obtain ⟨owner', howner', ha'⟩ := h'
  obtain rfl := howner.unique howner'
  exact Option.some.inj (ha.symm.trans ha')

/-- The address of a place, modulo the address space. -/
def Names.Locates (names : Names) (block : BlockId) (p : Place) (a : UInt16) : Prop :=
  ∃ start, names block p.symbol start ∧ a = start + p.offset

/-- Where the bytes of a value come from. -/
inductive Source where
  | constant (w : UInt16)
  | memory (a : UInt16)

/-- Byte `i` of a source, low byte first. -/
def Source.byte (m : Memory) : Source → Nat → UInt8
  | .constant w, i => if i = 0 then lowByte w else highByte w
  | .memory a, i => m (a + UInt16.ofNat i)

/-- The source that a value stands for. -/
inductive Names.Denotes (names : Names) (block : BlockId) : Value → Source → Prop where
  | immediate (n : UInt16) : names.Denotes block (.immediate n) (.constant n)
  | place {p : Place} {a : UInt16} (h : names.Locates block p a) :
      names.Denotes block (.place p) (.memory a)
  | addressOf {name : String} {a : UInt16} (h : names block name a) :
      names.Denotes block (.addressOf name) (.constant a)

/-! ## Code -/

/-- Instructions in a row, each with its block. -/
abbrev Code := List (BlockId × Instr)

/-- The code of those blocks of a list that are wanted, in order. -/
inductive BlockTree.Gathers (t : BlockTree) (wanted : BlockId → Prop) :
    List BlockId → Code → Prop where
  | nil : t.Gathers wanted [] []
  | take {id : BlockId} {ids : List BlockId} {code : Code} (h : wanted id)
      (hrest : t.Gathers wanted ids code) :
      t.Gathers wanted (id :: ids) ((t.instrs id).toList.map (id, ·) ++ code)
  | skip {id : BlockId} {ids : List BlockId} {code : Code} (h : ¬ wanted id)
      (hrest : t.Gathers wanted ids code) : t.Gathers wanted (id :: ids) code

namespace Code

/-- The position of a label. -/
def Marks (code : Code) (l : LabelId) (pos : Nat) : Prop :=
  ∃ block, code[pos]? = some (block, .label l)

/-- The instruction at a position stops the program. -/
def Halts (code : Code) (pos : Nat) : Prop := ∃ block, code[pos]? = some (block, .halt)

end Code

/-! ## Runs -/

/-- Bytes `i`, `i + 1`, … of a source go to `d + i`, `d + i + 1`, …, `n` of
them. -/
def Memory.copy (m : Memory) (d : UInt16) (s : Source) (i : Nat) : Nat → Memory
  | 0 => m
  | n + 1 => (m.set (d + UInt16.ofNat i) (s.byte m i)).copy d s (i + 1) n

/-- One instruction, from a position and a memory to the next ones. -/
inductive Code.Step (names : Names) (code : Code) : Nat → Memory → Nat → Memory → Prop where
  | copy {pos : Nat} {m : Memory} {block : BlockId} {dest : Place} {src : Value} {width : Width}
      {d : UInt16} {s : Source} (hi : code[pos]? = some (block, .copy dest src width))
      (hd : names.Locates block dest d) (hs : names.Denotes block src s) :
      Step names code pos m (pos + 1) (m.copy d s 0 width.bytes)
  | widen {pos : Nat} {m : Memory} {block : BlockId} {dest src : Place} {d s : UInt16}
      (hi : code[pos]? = some (block, .widen dest src)) (hd : names.Locates block dest d)
      (hs : names.Locates block src s) :
      Step names code pos m (pos + 1) ((m.set d (m s)).set (d + 1) 0)
  | label {pos : Nat} {m : Memory} {block : BlockId} {l : LabelId}
      (hi : code[pos]? = some (block, .label l)) : Step names code pos m (pos + 1) m
  | jump {pos : Nat} {m : Memory} {block : BlockId} {l : LabelId} {target : Nat}
      (hi : code[pos]? = some (block, .jump l)) (hl : code.Marks l target) :
      Step names code pos m target m
  | zeroTaken {pos : Nat} {m : Memory} {block : BlockId} {src : Place} {s : UInt16} {l : LabelId}
      {target : Nat} (hi : code[pos]? = some (block, .branchZero src l))
      (hs : names.Locates block src s) (hz : m s = 0) (hl : code.Marks l target) :
      Step names code pos m target m
  | zeroPassed {pos : Nat} {m : Memory} {block : BlockId} {src : Place} {s : UInt16} {l : LabelId}
      (hi : code[pos]? = some (block, .branchZero src l))
      (hs : names.Locates block src s) (hz : m s ≠ 0) : Step names code pos m (pos + 1) m
  | nonzeroTaken {pos : Nat} {m : Memory} {block : BlockId} {src : Place} {s : UInt16} {l : LabelId}
      {target : Nat} (hi : code[pos]? = some (block, .branchNonzero src l))
      (hs : names.Locates block src s) (hz : m s ≠ 0) (hl : code.Marks l target) :
      Step names code pos m target m
  | nonzeroPassed {pos : Nat} {m : Memory} {block : BlockId} {src : Place} {s : UInt16}
      {l : LabelId} (hi : code[pos]? = some (block, .branchNonzero src l))
      (hs : names.Locates block src s) (hz : m s = 0) : Step names code pos m (pos + 1) m

/-- `n` instructions. -/
inductive Code.Steps (names : Names) (code : Code) : Nat → Nat → Memory → Nat → Memory → Prop where
  | refl (pos : Nat) (m : Memory) : Steps names code 0 pos m pos m
  | tail {n pos pos₁ pos₂ : Nat} {m m₁ m₂ : Memory} (h : Steps names code n pos m pos₁ m₁)
      (hstep : code.Step names pos₁ m₁ pos₂ m₂) : Steps names code (n + 1) pos m pos₂ m₂

namespace Code

theorem Steps.trans {names : Names} {code : Code} {n n' pos pos₁ pos₂ : Nat} {m m₁ m₂ : Memory}
    (h : code.Steps names n pos m pos₁ m₁) (h' : code.Steps names n' pos₁ m₁ pos₂ m₂) :
    code.Steps names (n + n') pos m pos₂ m₂ := by
  induction h' with
  | refl => exact h
  | tail _ hstep ih => exact .tail (ih h) hstep

theorem Steps.one {names : Names} {code : Code} {pos pos' : Nat} {m m' : Memory}
    (h : code.Step names pos m pos' m') : code.Steps names 1 pos m pos' m' :=
  .tail (.refl pos m) h

theorem Marks.lt_length {code : Code} {l : LabelId} {pos : Nat} (h : code.Marks l pos) :
    pos < code.length := by
  obtain ⟨block, hpos⟩ := h
  exact (List.getElem?_eq_some_iff.1 hpos).1

/-- An instruction leads to a position of the code or to its end. -/
theorem Step.le_length {names : Names} {code : Code} {pos pos' : Nat} {m m' : Memory}
    (h : code.Step names pos m pos' m') : pos' ≤ code.length := by
  have hnext : ∀ {entry}, code[pos]? = some entry → pos + 1 ≤ code.length :=
    fun hi => (List.getElem?_eq_some_iff.1 hi).1
  cases h with
  | copy hi _ _ => exact hnext hi
  | widen hi _ _ => exact hnext hi
  | label hi => exact hnext hi
  | jump _ hl => exact Nat.le_of_lt hl.lt_length
  | zeroTaken _ _ _ hl => exact Nat.le_of_lt hl.lt_length
  | zeroPassed hi _ _ => exact hnext hi
  | nonzeroTaken _ _ _ hl => exact Nat.le_of_lt hl.lt_length
  | nonzeroPassed hi _ _ => exact hnext hi

theorem Steps.le_length {names : Names} {code : Code} {n pos pos' : Nat} {m m' : Memory}
    (h : code.Steps names n pos m pos' m') (hpos : pos ≤ code.length) : pos' ≤ code.length := by
  cases h with
  | refl => exact hpos
  | tail _ hstep => exact hstep.le_length

end Code

/-! ## Code that only stores -/

/-- Code that is run from the first instruction to the last, and stores to
addresses that are allowed only. -/
inductive Code.Runs (names : Names) (allowed : UInt16 → Prop) : Code → Memory → Memory → Prop where
  | nil {m : Memory} : Runs names allowed [] m m
  | copy {block : BlockId} {dest : Place} {src : Value} {width : Width} {d : UInt16} {s : Source}
      {code : Code} {m m' : Memory} (hd : names.Locates block dest d)
      (hs : names.Denotes block src s) (hallowed : ∀ i < width.bytes, allowed (d + UInt16.ofNat i))
      (hrest : Runs names allowed code (m.copy d s 0 width.bytes) m') :
      Runs names allowed ((block, .copy dest src width) :: code) m m'
  | widen {block : BlockId} {dest src : Place} {d s : UInt16} {code : Code} {m m' : Memory}
      (hd : names.Locates block dest d) (hs : names.Locates block src s)
      (hallowed : ∀ i < 2, allowed (d + UInt16.ofNat i))
      (hrest : Runs names allowed code ((m.set d (m s)).set (d + 1) 0) m') :
      Runs names allowed ((block, .widen dest src) :: code) m m'

namespace Code.Runs

variable {names : Names} {allowed : UInt16 → Prop}

theorem append {code code' : Code} {m m₁ m₂ : Memory} (h : code.Runs names allowed m m₁)
    (h' : code'.Runs names allowed m₁ m₂) : Code.Runs names allowed (code ++ code') m m₂ := by
  induction h with
  | nil => exact h'
  | copy hd hs hallowed _ ih => exact .copy hd hs hallowed (ih h')
  | widen hd hs hallowed _ ih => exact .widen hd hs hallowed (ih h')

theorem steps_behind {code : Code} {m m' : Memory} (h : code.Runs names allowed m m')
    (front : Code) :
    ∃ n, (front ++ code).Steps names n front.length m (front ++ code).length m' := by
  induction h generalizing front with
  | nil => exact ⟨0, by rw [List.append_nil]; exact .refl ..⟩
  | @copy block dest src width d s code m m' hd hs _ _ ih =>
      obtain ⟨n, hsteps⟩ := ih (front ++ [(block, .copy dest src width)])
      rw [List.append_assoc, List.singleton_append, List.length_append, List.length_singleton]
        at hsteps
      exact ⟨1 + n, .trans (.one (.copy (by simp) hd hs)) hsteps⟩
  | @widen block dest src d s code m m' hd hs _ _ ih =>
      obtain ⟨n, hsteps⟩ := ih (front ++ [(block, .widen dest src)])
      rw [List.append_assoc, List.singleton_append, List.length_append, List.length_singleton]
        at hsteps
      exact ⟨1 + n, .trans (.one (.widen (by simp) hd hs)) hsteps⟩

/-- Such code goes step by step from its first position to its end. -/
theorem steps {code : Code} {m m' : Memory} (h : code.Runs names allowed m m') :
    ∃ n, code.Steps names n 0 m code.length m' :=
  h.steps_behind []

end Code.Runs

end Cartridge
