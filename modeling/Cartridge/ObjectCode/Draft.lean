/-
# `Cartridge.ObjectCode.Draft` — a segment in the making

Lines name their labels by the numbers of the block tree.  A draft gives each
of them a label of the assembler when it first meets it.
-/
import Cartridge.ObjectCode.Select

namespace Cartridge

/-- An assembler, and the labels of the block tree that it knows. -/
structure Draft where
  assembler : Assembler
  marks : List (LabelId × Nat) := []
deriving DecidableEq, Inhabited, Repr

namespace Draft

/-- A step on a draft. -/
abbrev Step := EStateM (Stop CodeError) Draft

/-- A step of the assembler. -/
def assembling {α : Type} (x : Asm α) : Step α := fun d =>
  match x d.assembler with
  | .ok r a => .ok r { d with assembler := a }
  | .error s a => .error (s.map .assembly) { d with assembler := a }

/-- The assembler's label for a label of the block tree. -/
def labelFor (l : LabelId) : Step Nat := fun d =>
  match d.marks.lookup l with
  | some n => .ok n d
  | none =>
      match assembling Assembler.freshLabel d with
      | .ok n d' => .ok n { d' with marks := (l, n) :: d'.marks }
      | .error s d' => .error s d'

/-- Append a line. -/
def put : Line → Step Unit
  | .op m o => assembling (Assembler.op m o)
  | .mark l => do
      let n ← labelFor l
      assembling (Assembler.bind n)
  | .jump l => do
      let n ← labelFor l
      assembling (Assembler.jumpTo n)
  | .branch m l => do
      let n ← labelFor l
      assembling (Assembler.branchTo m n)
  | .spin => assembling do
      let n ← Assembler.freshLabel
      Assembler.bind n
      Assembler.jumpTo n

/-- Append lines in order. -/
def putLines : List Line → Step Unit
  | [] => pure ()
  | line :: lines => do
      put line
      putLines lines

/-- Append the lines of instructions in order. -/
def putInstrs (site : Site) : List Instr → Step Unit
  | [] => pure ()
  | i :: is => do
      let lines ← fun d => match site.select i with
        | .ok lines => .ok lines d
        | .error s => .error s d
      putLines lines
      putInstrs site is

/-- Append the code of blocks in order. -/
def putBlocks (tree : BlockTree) (storage : Storage) : List BlockId → Step Unit
  | [] => pure ()
  | id :: ids => do
      putInstrs ⟨tree, storage, id⟩ (tree.instrs id).toList
      putBlocks tree storage ids

/-- Fill in the labels and hand over the segment. -/
def finish (d : Draft) : Except (Stop CodeError) Segment :=
  match d.assembler.finish with
  | .ok segment => .ok segment
  | .error s => .error (s.map .assembly)

end Draft

end Cartridge
