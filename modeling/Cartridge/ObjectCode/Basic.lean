/-
# `Cartridge.ObjectCode.Basic` — machine code for a block tree

The main segment starts at the base of the bank:

    SEI   CLD   LDX #$FF   TXS     interrupts off, stack at the top
    ...                            the blocks outside the startup code
    JMP *                          the end of the program
    RTI                            both interrupt handlers

The startup segment holds the blocks of the startup code and nothing else; it
is assembled at zero and moved to its place later.
-/
import Cartridge.Journal
import Cartridge.ObjectCode.Draft
import Cartridge.Vectors

namespace Cartridge

/-- The code of a whole block tree. -/
structure ObjectCode where
  main : Segment
  /-- Assembled at address zero. -/
  startup : Segment
  vectors : Vectors
  /-- The global variables and their addresses. -/
  symbols : List (String × UInt16)
deriving DecidableEq, Inhabited, Repr

/-- What stays from one run of code generation to the next. -/
structure Generator where
  storage : Storage := {}
  journal : Journal := #[]
deriving DecidableEq, Inhabited, Repr

namespace Generator

/-- A step of code generation. -/
abbrev Step := EStateM (Stop CodeError) Generator

/-- Note an event. -/
def note (event : Event) : Step Unit := fun g =>
  .ok () { g with journal := g.journal.push event }

/-- Give a symbol of a block its address. -/
def allocate (owner : BlockId) (symbol : Symbol) : Step Unit := fun g =>
  match Storage.allocate owner symbol g.storage with
  | .error stop s => .error (stop.map .storage) { g with storage := s }
  | .ok address s =>
      note (.stored symbol.name symbol.ty address) { g with storage := s }

/-- Give symbols of a block their addresses, in order. -/
def allocateSymbols (owner : BlockId) : List Symbol → Step Unit
  | [] => pure ()
  | symbol :: symbols => do
      allocate owner symbol
      allocateSymbols owner symbols

/-- Give the symbols of blocks their addresses, in order. -/
def allocateBlocks (tree : BlockTree) : List BlockId → Step Unit
  | [] => pure ()
  | id :: ids => do
      allocateSymbols id (tree.symbols id)
      allocateBlocks tree ids

/-- Lines in front of the main program. -/
def prologue : List Line :=
  [.op .sei .implied, .op .cld .implied, .op .ldx (.immediate 0xFF), .op .txs .implied]

/-- Blocks of the main program. -/
def mainBlocks (tree : BlockTree) : List BlockId :=
  tree.preorder.filter (fun id => !tree.inStartup id)

/-- Blocks of the startup code. -/
def startupBlocks (tree : BlockTree) : List BlockId :=
  tree.preorder.filter tree.inStartup

/-- The draft of the main segment; the address of the interrupt handler is
returned. -/
def draftMain (tree : BlockTree) (storage : Storage) : Draft.Step UInt16 := do
  Draft.putLines prologue
  Draft.putBlocks tree storage (mainBlocks tree)
  Draft.put .spin
  let handler ← fun d => .ok d.assembler.here d
  Draft.put (.op .rti .implied)
  return handler

/-- The main segment at `base`, and the address of the interrupt handler. -/
def mainSegment (tree : BlockTree) (storage : Storage) (base : UInt16) :
    Except (Stop CodeError) (Segment × UInt16) :=
  match draftMain tree storage { assembler := { base := base } } with
  | .error s _ => .error s
  | .ok handler d => d.finish.map (fun segment => (segment, handler))

/-- The startup segment. -/
def startupSegment (tree : BlockTree) (storage : Storage) : Except (Stop CodeError) Segment :=
  match Draft.putBlocks tree storage (startupBlocks tree) { assembler := { base := 0 } } with
  | .error s _ => .error s
  | .ok () d => d.finish

/-- The global variables and their addresses. -/
def globals (tree : BlockTree) (storage : Storage) : List (String × UInt16) :=
  (tree.symbols 0).filterMap fun s => (storage.find? 0 s.name).map (fun a => (s.name, a))

/-- A result that a step needs. -/
def need {α : Type} : Except (Stop CodeError) α → Step α
  | .ok a => fun g => .ok a g
  | .error s => fun g => .error s g

/-- The code of a block tree for a bank at `base`.  Addresses are
handed out anew on top of those of earlier runs. -/
def objectCode (tree : BlockTree) (base : UInt16) : Step ObjectCode := do
  allocateBlocks tree tree.preorder
  let storage ← fun g => .ok g.storage g
  let (main, handler) ← need (mainSegment tree storage base)
  note (.mainSegment main.size main.origin)
  let startup ← need (startupSegment tree storage)
  note (.startupSegment startup.size)
  return {
    main := main
    startup := startup
    vectors := { nmi := handler, reset := base, irq := handler }
    symbols := globals tree storage }

end Generator

end Cartridge
