/-
# `Cartridge.Typing.Attributes` — the attributes of a declaration

    zeropage        no properties
    startup         no properties
    address         one or more `at` properties, each with a literal

An attribute stands at most once, and `zeropage` not beside `address`.  The
literals of `at` become words.  Both checks give the list back as they leave
it, also when they refuse it.
-/
import Cartridge.Typing.Error

namespace Cartridge.Typing

/-- Check the properties of `address` from left to right; `found` says whether
an `at` stands before these. -/
def checkProperties (found : Bool) : List Node → List Node × Except Problem Bool
  | [] => ([], .ok found)
  | .property s key value :: props =>
      if key != "at" then
        (.property s key value :: props, .error (.at s.position (.unknownProperty key)))
      else
        match value with
        | .literal vs v =>
            let (props', r) := checkProperties true props
            (.property s key (.literal (vs.retype .word) v) :: props', r)
        | value => (.property s key value :: props, .error (.at value.position .addressNotLiteral))
  | node :: props => (node :: props, .error (.at node.position .notProperty))

/-- Check one attribute that has not been seen before. -/
def checkAttribute (s : Slot) (name : String) (props : List Node) :
    List Node × Except Problem Unit :=
  if name == "zeropage" || name == "startup" then
    (props, if props.isEmpty then .ok ()
      else .error (.at s.position (.unexpectedProperties name)))
  else if name == "address" then
    match checkProperties false props with
    | (props', .ok true) => (props', .ok ())
    | (props', .ok false) => (props', .error (.at s.position .addressMissing))
    | (props', .error p) => (props', .error p)
  else
    (props, .error (.at s.position (.unknownAttribute name)))

/-- Check attributes from left to right; `seen` are the names before these.
The result lists all names. -/
def checkEach (seen : List String) : List Node → List Node × Except Problem (List String)
  | [] => ([], .ok seen)
  | .attribute s name props :: attrs =>
      if seen.contains name then
        (.attribute s name props :: attrs, .error (.at s.position (.repeatedAttribute name)))
      else
        match checkAttribute s name props with
        | (props', .error p) => (.attribute s name props' :: attrs, .error p)
        | (props', .ok ()) =>
            let (attrs', r) := checkEach (seen ++ [name]) attrs
            (.attribute s name props' :: attrs', r)
  | node :: attrs => (node :: attrs, .error (.at node.position .notAttribute))

/-- Check all attributes of a declaration. -/
def checkAttributes (attrs : List Node) : List Node × Except Problem Unit :=
  match checkEach [] attrs with
  | (attrs', .error p) => (attrs', .error p)
  | (attrs', .ok seen) =>
      if seen.contains "zeropage" && seen.contains "address" then
        (attrs', .error (.at (attrs'.head?.elim {} Node.position) .conflictingPlacement))
      else
        (attrs', .ok ())

end Cartridge.Typing
