/-
# `Cartridge.BlockTree.OfDecls` — the block tree of a unit

Each declaration becomes a symbol of the global block, where its attributes
want it, and its initial value becomes instructions there.  With the attribute
`startup` the instructions go into a startup block of their own, named after
the variable.
-/
import Cartridge.Initializer
import Cartridge.Journal

namespace Cartridge

/-- Where the attributes of a variable want it: `zeropage` before `address`. -/
def placementOf (name : String) (attributes : List Node) : Except DeclError Placement :=
  if (attributes.find? (Node.isAttribute "zeropage")).isSome then .ok .zeroPage
  else
    match attributes.find? (Node.isAttribute "address") with
    | none => .ok .auto
    | some attr =>
        match attr.property? "at" with
        | some (.literal _ value) => .ok (.fixed value)
        | _ => .error (.unsupported (.addressAttribute name) attr.position)

namespace BlockTree

/-- Declare the symbol of a variable. -/
def addSymbol (tree : BlockTree) (name : String) (ty : Ty) (placement : Placement) :
    Traced (Stop DeclError) BlockTree := fun journal =>
  match declare { name := name, ty := ty, placement := placement } tree with
  | .error e _ => .error (.error (.symbol e)) journal
  | .ok () tree' => .ok tree' (journal.push (.declared name ty placement))

/-- Add the code of an initial value in the current block. -/
def addInit (tree : BlockTree) (name : String) (ty : Ty) (init : Node) :
    Except (Stop DeclError) BlockTree :=
  match init.initCode { symbol := name } ty with
  | .error stop => .error stop
  | .ok code => .ok (tree.appendAll code)

/-- Add the code of an initial value in a startup block of its own. -/
def addStartup (tree : BlockTree) (name : String) (ty : Ty) (init : Node) :
    Traced (Stop DeclError) BlockTree := fun journal =>
  match (tree.enter name .startup).addInit name ty init with
  | .error stop => .error stop journal
  | .ok tree' =>
      let journal := journal.push (.startupCode name (tree'.instrs tree'.current).size)
      match leave tree' with
      | .error e _ => .error (.error (.symbol e)) journal
      | .ok () tree'' => .ok tree'' journal

/-- Add one declaration. -/
def addDecl (tree : BlockTree) : Node → Traced (Stop DeclError) BlockTree
  | .var s name _ init attributes =>
      if s.ty.isResolved then do
        let placement ← fun journal => match placementOf name attributes with
          | .ok placement => .ok placement journal
          | .error e => .error (.error e) journal
        let tree ← tree.addSymbol name s.ty placement
        match init with
        | none => return tree
        | some init =>
            if (attributes.find? (Node.isAttribute "startup")).isSome then
              tree.addStartup name s.ty init
            else fun journal => match tree.addInit name s.ty init with
              | .ok tree => .ok tree journal
              | .error stop => .error stop journal
      else throw (.error (.unresolved name s.ty s.position))
  | node => throw (.error (.unsupported .topLevel node.position))

/-- Add declarations in order. -/
def addDecls (tree : BlockTree) : List Node → Traced (Stop DeclError) BlockTree
  | [] => return tree
  | node :: nodes => do
      let tree ← tree.addDecl node
      tree.addDecls nodes

/-- The block tree of a unit. -/
def ofDecls (decls : List Node) : Traced (Stop DeclError) BlockTree :=
  addDecls {} decls

end BlockTree

end Cartridge
