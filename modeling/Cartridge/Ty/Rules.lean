/-
# `Cartridge.Ty.Rules` — which types fit together

    target accepts value     a value may be stored in a position as it is
    castable                 a value may be converted, by the kind of cast
    unify                    the common type of two slots

A type with `unknown` inside neither accepts nor is accepted, and is never
cast.  Unification lets `unknown` adopt the other side and picks no winner
between two types that differ.
-/
import Cartridge.Ty.Render

namespace Cartridge

/-- Whether a cast was written in the source or inserted by the analysis. -/
inductive CastKind where
  | implicit
  | explicit
deriving DecidableEq, Inhabited, Repr

/-- Why a rule about types refuses. -/
inductive TypeError where
  /-- A value of type `found` where `expected` is wanted. -/
  | mismatch (expected found : Ty)
  /-- Two types without a common one. -/
  | cannotUnify (left right : Ty)
  /-- A cast that the rules do not allow. -/
  | illegalCast (source target : Ty) (kind : CastKind)
  /-- A type that has no storage size. -/
  | unsized (ty : Ty)
deriving DecidableEq, Inhabited, Repr

/-- The text of a type error. -/
def TypeError.message : TypeError → String
  | .mismatch expected found => s!"expected {expected}, found {found}"
  | .cannotUnify left right => s!"cannot unify {left} with {right}"
  | .illegalCast source target .implicit => s!"cannot cast {source} to {target} implicitly"
  | .illegalCast source target .explicit => s!"cannot cast {source} to {target}"
  | .unsized ty => s!"type {ty} has no storage size"

namespace Ty

/-- May a value of type `value` be stored in a position of type `target`?
An array may be shorter than the position; all else must be alike. -/
def accepts (target value : Ty) : Bool :=
  target.isResolved && value.isResolved &&
    match target, value with
    | .array t n, .array v m => decide (m ≤ n) && t.alike v
    | _, _ => target.alike value

/-- May a value of type `source` be converted to `target`?  Widening a byte
is always allowed, narrowing a word only where it is written out. -/
def castable (target source : Ty) (kind : CastKind) : Bool :=
  target.isResolved && source.isResolved &&
    (target.alike source ||
      match source, target with
      | .byte, .word => true
      | .word, .byte => kind == .explicit
      | _, _ => false)

/-- `castable`, with the error that a caller reports. -/
def checkCast (target source : Ty) (kind : CastKind) : Except TypeError Unit :=
  if target.castable source kind then .ok ()
  else .error (.illegalCast source target kind)

/-- The common type of two slots. -/
def unify : Ty → Ty → Except TypeError Ty
  | .unknown, t => .ok t
  | t, .unknown => .ok t
  | a, b => if a.alike b then .ok a else .error (.cannotUnify a b)

end Ty

end Cartridge
