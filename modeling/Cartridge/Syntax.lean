/-
# `Cartridge.Syntax` — the tree of a compilation unit

A unit is a list of nodes.  Every node has a *slot*: where it stands in the
source and the type it has so far.  Nothing forces a node into a sensible
position (a declaration may stand where a value belongs); refusing that is the
work of the analysis, so the tree admits every shape.

    literal      3                      var        var x: u8 = 3 @zeropage
    ident        x                      attribute  @address(at = 768)
    array        [1, 2, 3]              property   at = 768
    addressOf    &x                     cast       x as u16
-/
import Cartridge.Ty.Rules

namespace Cartridge

/-- A position in the source. -/
structure Position where
  line : Nat := 0
  column : Nat := 0
deriving DecidableEq, Inhabited, Repr

/-- A position as messages show it: `line:column`. -/
def Position.render (l : Position) : String :=
  toString l.line ++ ":" ++ toString l.column

instance : ToString Position := ⟨Position.render⟩

/-- What every node carries: its position and its type so far. -/
structure Slot where
  position : Position := {}
  ty : Ty := .unknown
deriving DecidableEq, Inhabited, Repr

/-- The slot with its type filled in. -/
def Slot.retype (s : Slot) (ty : Ty) : Slot := { s with ty := ty }

/-- A node of the tree. -/
inductive Node where
  /-- A number; its width is inferred. -/
  | literal (slot : Slot) (value : UInt16)
  /-- The use of a declared variable. -/
  | ident (slot : Slot) (name : String)
  /-- A list of element values. -/
  | array (slot : Slot) (elems : List Node)
  /-- The address of a variable. -/
  | addressOf (slot : Slot) (operand : Node)
  /-- A conversion; the target type stands in the slot. -/
  | cast (slot : Slot) (kind : CastKind) (operand : Node)
  /-- The declaration of a variable; `declared` is `unknown` if no type was
  written. -/
  | var (slot : Slot) (name : String) (declared : Ty) (init : Option Node) (attributes : List Node)
  /-- An attribute of a declaration. -/
  | attribute (slot : Slot) (name : String) (properties : List Node)
  /-- A keyed value inside an attribute. -/
  | property (slot : Slot) (key : String) (value : Node)
deriving Inhabited, Repr

namespace Node

/-- The slot of a node. -/
def slot : Node → Slot
  | .literal s _ | .ident s _ | .array s _ | .addressOf s _ | .cast s _ _
  | .var s _ _ _ _ | .attribute s _ _ | .property s _ _ => s

/-- Where a node stands. -/
def position (n : Node) : Position := n.slot.position

/-- The type in a node's slot. -/
def ty (n : Node) : Ty := n.slot.ty

/-- Is this the use of a variable? -/
def isIdent : Node → Bool
  | .ident _ _ => true
  | _ => false

/-- Is this an attribute of the given name? -/
def isAttribute (name : String) : Node → Bool
  | .attribute _ n _ => n == name
  | _ => false

/-- The value of the first property with the given key, of an attribute. -/
def property? (key : String) : Node → Option Node
  | .attribute _ _ props => props.findSome? fun
      | .property _ k value => if k == key then some value else none
      | _ => none
  | _ => none

/-- The first attribute of the given name, of a declaration. -/
def attribute? (name : String) : Node → Option Node
  | .var _ _ _ _ attrs => attrs.find? (isAttribute name)
  | _ => none

/-- Wrap a value in a cast that the source does not show; the cast stands
where the value stands. -/
def widened (operand : Node) (target : Ty) : Node :=
  .cast ⟨operand.position, target⟩ .implicit operand

end Node

end Cartridge
