/-
# `Cartridge.BlockTree.Render` — a block tree as text

Each block is a heading, its symbols, its instructions and then its children,
two blanks further in:

    block global (global)
      symbol score: u16 @$2001
      copy.w score, #5
      block boot (startup)
        halt
-/
import Cartridge.BlockTree.Basic

namespace Cartridge

/-- Where a symbol lies, as listings show it. -/
def Placement.render : Placement → String
  | .auto => ""
  | .zeroPage => " @zeropage"
  | .fixed address => " @" ++ showAddress address

/-- A symbol as listings show it. -/
def Symbol.render (s : Symbol) : String :=
  s!"symbol {s.name}: {s.ty}" ++ s.placement.render

namespace BlockTree

/-- The blanks in front of a line. -/
def indent (depth : Nat) : String :=
  String.join (List.replicate depth "  ")

/-- A block without its children, as text. -/
def renderHead (depth : Nat) (b : Block) : String :=
  let heading := indent depth ++ s!"block {b.name} ({b.kind.name})\n"
  let line (text : String) : String := indent (depth + 1) ++ text ++ "\n"
  heading ++ String.join (b.symbols.map fun s => line s.render)
    ++ String.join (b.instrs.toList.map fun i => line i.render)

/-- A block with its children, down to `fuel` levels, as text. -/
def renderFrom (t : BlockTree) : Nat → Nat → BlockId → String
  | 0, _, _ => ""
  | fuel + 1, depth, id =>
      match t.block? id with
      | none => ""
      | some b =>
          renderHead depth b ++ String.join (b.children.map (t.renderFrom fuel (depth + 1)))

/-- The whole tree as text. -/
def render (t : BlockTree) : String :=
  t.renderFrom t.blocks.size 0 0

end BlockTree

end Cartridge
