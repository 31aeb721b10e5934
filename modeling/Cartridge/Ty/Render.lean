/-
# `Cartridge.Ty.Render` — the name of a type as text

    unknown        <none>
    byte, word     u8, u16
    array t n      t[n]
    ref t          &t
    record R [..]  struct R ∣ t, u ∣      (bars stand for braces here)
-/
import Cartridge.Ty.Basic

namespace Cartridge

namespace Ty

mutual

/-- The name of a type, as messages and listings show it. -/
def render : Ty → String
  | .unknown => "<none>"
  | .named name => name
  | .byte => "u8"
  | .word => "u16"
  | .array e n => e.render ++ "[" ++ toString n ++ "]"
  | .ref e => "&" ++ e.render
  | .record name ms => "struct " ++ name ++ " \x7b" ++ renderMembers ms ++ " \x7d"

/-- The members of a record: a blank before each, a comma between two. -/
def renderMembers : List Ty → String
  | [] => ""
  | [m] => " " ++ m.render
  | m :: m' :: ms => " " ++ m.render ++ "," ++ renderMembers (m' :: ms)

end

end Ty

instance : ToString Ty := ⟨Ty.render⟩

end Cartridge
