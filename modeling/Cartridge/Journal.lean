/-
# `Cartridge.Journal` — what a build reports on its way

A build notes what it does as a list of events.  An event belongs to a stage
and has a level; its text is made here and nowhere else.
-/
import Cartridge.BlockTree.Instr
import Cartridge.Image.Board

namespace Cartridge

/-- How important an event is. -/
inductive Level where
  | debug
  | info
deriving DecidableEq, Inhabited, Repr

/-- The name of a level. -/
def Level.name : Level → String
  | .debug => "DEBUG"
  | .info => "INFO"

/-- The part of a build that notes an event. -/
inductive Stage where
  | build
  | typing
  | tree
  | code
  | image
deriving DecidableEq, Inhabited, Repr

/-- Something that a build did. -/
inductive Event where
  /-- A declaration has its type, here already as text. -/
  | typed (name ty : String)
  /-- A variable has entered the block tree. -/
  | declared (name : String) (ty : Ty) (placement : Placement)
  /-- An initial value became startup code. -/
  | startupCode (name : String) (count : Nat)
  /-- A whole unit has entered the block tree. -/
  | treeBuilt (count : Nat)
  /-- A variable has its address. -/
  | stored (name : String) (ty : Ty) (address : UInt16)
  /-- The main segment is assembled. -/
  | mainSegment (size : Nat) (origin : UInt16)
  /-- The startup segment is assembled. -/
  | startupSegment (size : Nat)
  /-- The main segment lies in its bank. -/
  | bankLaidOut (used capacity : Nat)
  /-- The image has no startup routine. -/
  | noStartup
  /-- The startup routine lies at `address` and jumps to `next`. -/
  | startupPlaced (size : Nat) (address next : UInt16)
  /-- The image is complete. -/
  | assembled (board : Board) (main startup : Nat)
deriving DecidableEq, Inhabited, Repr

/-- A placement as events show it. -/
def Placement.describe : Placement → String
  | .auto => "Auto"
  | .zeroPage => "ZeroPage"
  | .fixed address => s!"Fixed({address})"

namespace Event

/-- The stage that notes an event. -/
def stage : Event → Stage
  | .typed .. => .typing
  | .declared .. | .startupCode .. => .tree
  | .stored .. | .mainSegment .. | .startupSegment .. => .code
  | .bankLaidOut .. | .noStartup | .startupPlaced .. => .image
  | .treeBuilt .. | .assembled .. => .build

/-- The level of an event. -/
def level : Event → Level
  | .treeBuilt .. | .noStartup | .startupPlaced .. | .assembled .. => .info
  | _ => .debug

/-- The text of an event. -/
def message : Event → String
  | .typed name ty => s!"{name}: {ty}"
  | .declared name ty placement => s!"lowered symbol {name}: {ty} ({placement.describe})"
  | .startupCode name count => s!"{name}: {count} startup instructions"
  | .treeBuilt count => s!"lowered {count} declarations"
  | .stored name ty address => s!"{name} ({ty}) -> {showAddress address}"
  | .mainSegment size origin => s!"main segment: {size} bytes at {showAddress origin}"
  | .startupSegment size => s!"startup segment: {size} bytes"
  | .bankLaidOut used capacity => s!"bank laid out: {used} of {capacity} bytes used"
  | .noStartup => "assembled ROM without startup routine"
  | .startupPlaced size address next =>
      s!"startup routine ({size} bytes) at {showAddress address}, returns to {showAddress next}"
  | .assembled board main startup =>
      s!"assembled {board.name} image: {main} bytes of code, {startup} bytes of startup"

end Event

/-- The events of a build, oldest first. -/
abbrev Journal := Array Event

/-- A step that notes events and may be refused. -/
abbrev Traced (ε : Type) := EStateM ε Journal

namespace Traced

/-- Note an event. -/
def note {ε : Type} (event : Event) : Traced ε Unit := fun j => .ok () (j.push event)

/-- A result, and the event that a good one is worth. -/
def ofExcept {ε α : Type} (event : α → Event) : Except ε α → Traced ε α
  | .ok a => fun j => .ok a (j.push (event a))
  | .error e => fun j => .error e j

end Traced

end Cartridge
