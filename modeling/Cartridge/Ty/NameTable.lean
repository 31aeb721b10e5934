/-
# `Cartridge.Ty.NameTable` — rendered names, one per type

A session renders each type once.  The key is the type as a tree, so two
types that print alike still have an entry each.  The table only grows.
-/
import Cartridge.Ty.Render

namespace Cartridge

/-- The types rendered so far with their names, oldest first. -/
structure NameTable where
  entries : List (Ty × String) := []
deriving Inhabited

namespace NameTable

/-- How many types have a name. -/
def size (t : NameTable) : Nat := t.entries.length

/-- Is the table still empty? -/
def isEmpty (t : NameTable) : Bool := t.entries.isEmpty

/-- The position of a type's entry. -/
def position? (t : NameTable) (ty : Ty) : Option Nat :=
  t.entries.findIdx? (fun entry => decide (entry.1 = ty))

/-- The name on record for a type. -/
def get? (t : NameTable) (ty : Ty) : Option String :=
  (t.entries.find? (fun entry => decide (entry.1 = ty))).map (·.2)

/-- The name of a type, and the table with an entry for it. -/
def name (t : NameTable) (ty : Ty) : String × NameTable :=
  match t.get? ty with
  | some text => (text, t)
  | none => (ty.render, { t with entries := t.entries ++ [(ty, ty.render)] })

end NameTable

end Cartridge
