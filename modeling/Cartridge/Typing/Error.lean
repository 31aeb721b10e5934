/-
# `Cartridge.Typing.Error` — what the analysis complains about

A *diagnostic* is local: the analysis notes it and goes on with the next
declaration, so that one run reports all of them.  A *fatal* complaint is
about names; the analysis stops there and reports nothing else.
-/
import Cartridge.Syntax

namespace Cartridge.Typing

/-- Why a declaration is refused. -/
inductive Cause where
  /-- A rule about types is broken. -/
  | rule (error : TypeError)
  /-- Something else stands where a declaration belongs. -/
  | notDeclaration
  /-- Something else stands where a value belongs. -/
  | notExpression
  /-- Something else stands where an attribute belongs. -/
  | notAttribute
  /-- Something else stands where a property belongs. -/
  | notProperty
  /-- A variable has neither a full type nor an initial value. -/
  | untyped (name : String)
  /-- A variable is used whose own declaration was refused. -/
  | unknownType (name : String)
  /-- An empty array with no hint what its elements are. -/
  | emptyArray
  /-- The address of something that is no variable. -/
  | addressOfValue
  /-- An attribute is given twice. -/
  | repeatedAttribute (name : String)
  /-- An attribute that takes no properties has some. -/
  | unexpectedProperties (name : String)
  /-- No attribute has this name. -/
  | unknownAttribute (name : String)
  /-- A variable is put into the zero page and at an address of its own. -/
  | conflictingPlacement
  /-- `address` has no property of this name. -/
  | unknownProperty (key : String)
  /-- The address is not written as a number. -/
  | addressNotLiteral
  /-- `address` does not say where. -/
  | addressMissing
deriving DecidableEq, Inhabited, Repr

/-- The text of a cause. -/
def Cause.message : Cause → String
  | .rule error => error.message
  | .notDeclaration => "expected a declaration"
  | .notExpression => "expected an expression"
  | .notAttribute => "expected an attribute"
  | .notProperty => "expected a property"
  | .untyped name => s!"'{name}' needs a type or an initializer"
  | .unknownType name => s!"type of '{name}' is unknown"
  | .emptyArray => "cannot infer the element type of an empty array"
  | .addressOfValue => "can only take the address of a variable"
  | .repeatedAttribute name => s!"duplicate attribute '{name}'"
  | .unexpectedProperties name => s!"attribute '{name}' takes no properties"
  | .unknownAttribute name => s!"unknown attribute '{name}'"
  | .conflictingPlacement => "'zeropage' and 'address' cannot be combined"
  | .unknownProperty key => s!"unknown property '{key}' on 'address'"
  | .addressNotLiteral => "'address(at)' must be a literal"
  | .addressMissing => "'address' needs an 'at' property"

/-- A complaint at a position. -/
structure Diagnostic where
  position : Position
  cause : Cause
deriving DecidableEq, Inhabited, Repr

/-- The text of a diagnostic. -/
def Diagnostic.message (d : Diagnostic) : String :=
  s!"{d.position}: {d.cause.message}"

/-- A complaint about names, after which the analysis stops. -/
inductive Fatal where
  /-- The name is declared already. -/
  | duplicate (name : String) (position : Position)
  /-- The name is not declared yet. -/
  | undefined (name : String) (position : Position)
deriving DecidableEq, Inhabited, Repr

/-- The text of a fatal complaint. -/
def Fatal.message : Fatal → String
  | .duplicate name position => s!"{position}: duplicate declaration of '{name}'"
  | .undefined name position => s!"{position}: undefined symbol '{name}'"

/-- What stops the check of one declaration. -/
inductive Problem where
  | diagnostic (d : Diagnostic)
  | fatal (f : Fatal)
deriving DecidableEq, Inhabited, Repr

/-- Shorthand for a diagnostic as a problem. -/
def Problem.at (position : Position) (cause : Cause) : Problem :=
  .diagnostic ⟨position, cause⟩

/-- Why a unit is refused: all its diagnostics in source order, or the one
fatal complaint. -/
inductive Rejection where
  | diagnostics (ds : List Diagnostic)
  | fatal (f : Fatal)
deriving DecidableEq, Inhabited, Repr

/-- The text of a rejection, one diagnostic a line. -/
def Rejection.message : Rejection → String
  | .diagnostics ds => "\n".intercalate (ds.map Diagnostic.message)
  | .fatal f => f.message

end Cartridge.Typing
