/-
# `Cartridge.BlockTree.Basic` — nested scopes with code

Blocks are numbered in the order in which they are opened; block 0 is the
global one.  A cursor says which block is current: new symbols and
instructions go there.  Opening a block makes it a child of the current block
and moves the cursor into it, closing moves the cursor out; the closed block
stays in the tree.  An operation that is refused leaves the tree as it was.

Names are looked up from a block outward.  The walk outward is bounded by the
number of blocks, which no chain of parents exceeds.  The same bound serves
the walk over the whole tree, which meets every block once.
-/
import Cartridge.BlockTree.Instr

namespace Cartridge

/-- The number of a block. -/
abbrev BlockId := Nat

/-- What a block stands for. -/
inductive BlockKind where
  | global
  | function
  | scope
  /-- Code that runs before the main program. -/
  | startup
deriving DecidableEq, Inhabited, Repr

/-- The name of a kind of block. -/
def BlockKind.name : BlockKind → String
  | .global => "global"
  | .function => "function"
  | .scope => "scope"
  | .startup => "startup"

/-- One scope: its place in the tree, its symbols and its code. -/
structure Block where
  name : String
  kind : BlockKind
  parent : Option BlockId := none
  /-- Blocks opened inside this one, oldest first. -/
  children : List BlockId := []
  /-- Symbols declared here, oldest first. -/
  symbols : List Symbol := []
  instrs : Array Instr := #[]
deriving DecidableEq, Inhabited, Repr

/-- The symbol of the given name, if the block itself declares one. -/
def Block.symbol? (b : Block) (name : String) : Option Symbol :=
  b.symbols.find? (fun s => s.name == name)

/-- Why an operation on scopes is refused. -/
inductive ScopeError where
  /-- The block declares the name already. -/
  | duplicate (name block : String)
  /-- No block from here outward declares the name. -/
  | undefined (name : String)
  /-- The type of the symbol is not known. -/
  | unresolved (name : String)
  /-- The global block stays open. -/
  | closeGlobal
deriving DecidableEq, Inhabited, Repr

/-- The text of a scope error. -/
def ScopeError.message : ScopeError → String
  | .duplicate name block => s!"duplicate symbol '{name}' in block '{block}'"
  | .undefined name => s!"undefined symbol '{name}'"
  | .unresolved name => s!"symbol '{name}' has unresolved type"
  | .closeGlobal => "cannot close the global block"

/-- All blocks, the cursor and the next free label. -/
structure BlockTree where
  blocks : Array Block := #[{ name := "global", kind := .global }]
  current : BlockId := 0
  nextLabel : LabelId := 0
deriving DecidableEq, Inhabited, Repr

namespace BlockTree

/-! ## Reading the tree -/

/-- The block of the given number. -/
def block? (t : BlockTree) (id : BlockId) : Option Block := t.blocks[id]?

/-- The children of a block. -/
def children (t : BlockTree) (id : BlockId) : List BlockId :=
  ((t.block? id).map Block.children).getD []

/-- The instructions of a block. -/
def instrs (t : BlockTree) (id : BlockId) : Array Instr :=
  ((t.block? id).map Block.instrs).getD #[]

/-- The symbols of a block. -/
def symbols (t : BlockTree) (id : BlockId) : List Symbol :=
  ((t.block? id).map Block.symbols).getD []

/-- A block and the blocks around it, at most `fuel` of them. -/
def outwardFrom (t : BlockTree) : Nat → BlockId → List BlockId
  | 0, _ => []
  | fuel + 1, id =>
      match t.block? id with
      | none => []
      | some b => id :: b.parent.elim [] (t.outwardFrom fuel)

/-- A block and the blocks around it, innermost first. -/
def outward (t : BlockTree) (id : BlockId) : List BlockId :=
  t.outwardFrom t.blocks.size id

/-- The nearest symbol of a name, from a block outward, with its block. -/
def resolve (t : BlockTree) (start : BlockId) (name : String) :
    Except ScopeError (BlockId × Symbol) :=
  let found := (t.outward start).findSome? fun id =>
    ((t.block? id).bind (·.symbol? name)).map (fun s => (id, s))
  match found with
  | some r => .ok r
  | none => .error (.undefined name)

/-- The nearest symbol of a name, from a block outward. -/
def findFrom (t : BlockTree) (start : BlockId) (name : String) : Except ScopeError Symbol :=
  (t.resolve start name).map (·.2)

/-- The nearest symbol of a name, from the current block outward. -/
def find (t : BlockTree) (name : String) : Except ScopeError Symbol :=
  t.findFrom t.current name

/-- Does the block, or one around it, belong to the startup code? -/
def inStartup (t : BlockTree) (id : BlockId) : Bool :=
  (t.outward id).any fun b => ((t.block? b).map Block.kind) == some .startup

/-- Visit pending blocks, each before its children, at most `fuel` of them. -/
def visit (t : BlockTree) : Nat → List BlockId → List BlockId
  | 0, _ => []
  | _, [] => []
  | fuel + 1, id :: pending => id :: t.visit fuel (t.children id ++ pending)

/-- All blocks, each before its children, children oldest first. -/
def preorder (t : BlockTree) : List BlockId :=
  t.visit t.blocks.size [0]

/-! ## Building the tree -/

/-- Change the current block. -/
def updateCurrent (t : BlockTree) (f : Block → Block) : BlockTree :=
  { t with blocks := t.blocks.modify t.current f }

/-- Open a block inside the current one and go into it. -/
def enter (t : BlockTree) (name : String) (kind : BlockKind) : BlockTree :=
  let id := t.blocks.size
  let t := t.updateCurrent fun b => { b with children := b.children ++ [id] }
  { t with
    blocks := t.blocks.push { name := name, kind := kind, parent := some t.current }
    current := id }

/-- Close the current block: go back to its parent. -/
def leave : EStateM ScopeError BlockTree Unit := fun t =>
  match (t.block? t.current).bind Block.parent with
  | none => .error .closeGlobal t
  | some parent => .ok () { t with current := parent }

/-- Declare a symbol in the current block. -/
def declare (symbol : Symbol) : EStateM ScopeError BlockTree Unit := fun t =>
  if symbol.ty.isResolved then
    match (t.block? t.current).filter (fun b => (b.symbol? symbol.name).isSome) with
    | some b => .error (.duplicate symbol.name b.name) t
    | none => .ok () (t.updateCurrent fun b => { b with symbols := b.symbols ++ [symbol] })
  else
    .error (.unresolved symbol.name) t

/-- Append an instruction to the current block. -/
def append (t : BlockTree) (i : Instr) : BlockTree :=
  t.updateCurrent fun b => { b with instrs := b.instrs.push i }

/-- Append instructions to the current block. -/
def appendAll (t : BlockTree) (code : List Instr) : BlockTree :=
  code.foldl append t

/-- Take the next label, which is `t.nextLabel`, out of use. -/
def freshLabel (t : BlockTree) : BlockTree :=
  { t with nextLabel := t.nextLabel + 1 }

end BlockTree

end Cartridge
