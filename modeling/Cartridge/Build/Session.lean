/-
# `Cartridge.Build.Session` — builds that share their type names

A session holds one unit, which the analysis fills in in place, and the type
names rendered so far.  It keeps a journal only if it was asked to; without
one no type is ever rendered for it, so the table of names stays as it is.
-/
import Cartridge.Build.Basic
import Cartridge.Ty.NameTable
import Cartridge.Typing.Analysis

namespace Cartridge

/-- The state of a session. -/
structure Session where
  target : Target := {}
  decls : List Node := []
  names : NameTable := {}
  /-- Is a journal kept? -/
  tracing : Bool := false
  journal : Journal := #[]
deriving Inhabited

namespace Session

/-- A step of a session. -/
abbrev Step := EStateM (Stop BuildError) Session

/-- The name of a type. -/
def name (s : Session) (ty : Ty) : String × Session :=
  let (text, names) := s.names.name ty
  (text, { s with names := names })

/-- Note that a declaration has its type. -/
def noteTyped (s : Session) (typed : String × Ty) : Session :=
  let (text, s) := s.name typed.2
  { s with journal := s.journal.push (.typed typed.1 text) }

/-- Analyse the unit in place. -/
def analyze : Step Typing.Env := fun s =>
  let analysis := Typing.analyze s.decls
  let s := { s with decls := analysis.decls }
  let s := if s.tracing then analysis.typed.foldl noteTyped s else s
  match analysis.result with
  | .ok env => .ok env s
  | .error e => .error (.error (.typing e)) s

/-- A step of a build, with the journal of the session. -/
def building {α : Type} (x : Build α) : Step α := fun s =>
  let keep (events : Journal) : Session := if s.tracing then { s with journal := events } else s
  match x s.journal with
  | .ok a events => .ok a (keep events)
  | .error e events => .error e (keep events)

/-- Analyse the unit and make its block tree. -/
def tree : Step BlockTree := do
  let _ ← analyze
  let s ← get
  building (Build.tree s.decls)

/-- Analyse the unit and make its image. -/
def image : Step Rom := do
  let tree ← tree
  let s ← get
  building (Build.image tree s.target)

end Session

end Cartridge
