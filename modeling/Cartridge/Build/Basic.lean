/-
# `Cartridge.Build.Basic` — from an analysed unit to an image

    tree          the block tree of an analysed unit
    objectCode    its code for the target
    mainBytes     the bytes of the main segment
    image         code, bank, image
-/
import Cartridge.BlockTree.OfDecls
import Cartridge.Image.Injection
import Cartridge.ObjectCode.Basic
import Cartridge.Typing.Error

namespace Cartridge

/-- The cartridge that a build is for. -/
structure Target where
  board : Board := .nrom256
  mirroring : Mirroring := .horizontal
  /-- Banks of character memory, 8 KiB each. -/
  chrBanks : UInt8 := 0
  battery : Bool := false
deriving DecidableEq, Inhabited, Repr

/-- The header of a target. -/
def Target.header (t : Target) : Header :=
  { Header.ofBoard t.board with
    chrBanks := t.chrBanks
    mirroring := t.mirroring
    battery := t.battery }

/-- Why a build fails. -/
inductive BuildError where
  | typing (error : Typing.Rejection)
  | declaration (error : DeclError)
  | code (error : CodeError)
  | image (error : ImageError)
deriving DecidableEq, Inhabited, Repr

/-- The text of a build error. -/
def BuildError.message : BuildError → String
  | .typing error => error.message
  | .declaration error => s!"lowering: {error.message}"
  | .code error => s!"code generation: {error.message}"
  | .image error => s!"ROM assembly: {error.message}"

/-- A step of a build. -/
abbrev Build := Traced (Stop BuildError)

namespace Build

/-- A traced step with errors of its own. -/
def lift {ε α : Type} (f : ε → Stop BuildError) (x : Traced ε α) : Build α := fun journal =>
  match x journal with
  | .ok a journal' => .ok a journal'
  | .error e journal' => .error (f e) journal'

/-- The object code of a block tree. -/
def objectCode (tree : BlockTree) (target : Target) : Build ObjectCode := fun journal =>
  match Generator.objectCode tree target.board.base { journal := journal } with
  | .ok object g => .ok object g.journal
  | .error s g => .error (s.map .code) g.journal

/-- The main segment of a block tree as bytes. -/
def mainBytes (tree : BlockTree) (target : Target) : Build Bytes := do
  let object ← objectCode tree target
  return object.main.bytes

/-- The image of a block tree. -/
def image (tree : BlockTree) (target : Target) : Build Rom := do
  let object ← objectCode tree target
  let bank ← lift (.error ∘ .image) (Bank.layoutTraced object.main object.vectors target.board)
  let rom ← lift (Stop.map .image) (Rom.ofBankTraced target.header bank object.startup)
  Traced.note (.assembled target.board object.main.size object.startup.size)
  return rom

/-- The block tree of an analysed unit. -/
def tree (decls : List Node) : Build BlockTree := do
  let tree ← lift (Stop.map .declaration) (BlockTree.ofDecls decls)
  Traced.note (.treeBuilt decls.length)
  return tree

end Build

end Cartridge
