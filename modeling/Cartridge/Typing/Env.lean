/-
# `Cartridge.Typing.Env` — the types of the names declared so far
-/
import Cartridge.Ty.Basic

namespace Cartridge.Typing

/-- Names and their types, the latest first. -/
structure Env where
  bindings : List (String × Ty) := []
deriving DecidableEq, Inhabited, Repr

namespace Env

/-- The type of a name. -/
def find? (env : Env) (name : String) : Option Ty :=
  env.bindings.lookup name

/-- Is the name declared? -/
def contains (env : Env) (name : String) : Bool :=
  (env.find? name).isSome

/-- Declare a name, or give it a new type. -/
def bind (env : Env) (name : String) (ty : Ty) : Env :=
  ⟨(name, ty) :: env.bindings⟩

end Env

end Cartridge.Typing
