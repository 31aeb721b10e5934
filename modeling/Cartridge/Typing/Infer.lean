/-
# `Cartridge.Typing.Infer` — the types of values

`infer env hint node` gives the node back with the slots that it could fill,
and the type of the value or the problem that stopped it.  The hint is the
type that the surroundings want, `unknown` if they want none; only literals
and array literals look at it.  Slots filled before a problem stay filled.
-/
import Cartridge.Typing.Env
import Cartridge.Typing.Error

namespace Cartridge.Typing

/-- A literal is a word where one is wanted or needed, else a byte. -/
def literalType (value : UInt16) : Ty → Ty
  | .word => .word
  | _ => if value ≤ 0xFF then .byte else .word

/-- The type with which the elements of an array literal start to unify. -/
def elementStart (hint : Ty) (elems : List Node) : Ty :=
  if elems.isEmpty then hint else .unknown

mutual

/-- Infer the type of a value and store it in the slots. -/
def infer (env : Env) (hint : Ty) : Node → Node × Except Problem Ty
  | .literal s value =>
      let ty := literalType value hint
      (.literal (s.retype ty) value, .ok ty)
  | .ident s name =>
      match env.find? name with
      | none => (.ident s name, .error (.fatal (.undefined name s.position)))
      | some .unknown => (.ident s name, .error (.at s.position (.unknownType name)))
      | some ty => (.ident (s.retype ty) name, .ok ty)
  | .array s elems =>
      if elems.isEmpty && hint.element.isUnknown then
        (.array s elems, .error (.at s.position .emptyArray))
      else
        match inferElems env hint.element (elementStart hint.element elems) elems with
        | (elems', .error p) => (.array s elems', .error p)
        | (elems', .ok elem) =>
            let ty := .array elem elems.length
            (.array (s.retype ty) elems', .ok ty)
  | .addressOf s operand =>
      if operand.isIdent then
        match infer env .unknown operand with
        | (operand', .error p) => (.addressOf s operand', .error p)
        | (operand', .ok target) => (.addressOf (s.retype (.ref target)) operand', .ok (.ref target))
      else
        (.addressOf s operand, .error (.at s.position .addressOfValue))
  | .cast s kind operand =>
      if s.ty.isResolved then
        match infer env .unknown operand with
        | (operand', .error p) => (.cast s kind operand', .error p)
        | (operand', .ok source) =>
            match s.ty.checkCast source kind with
            | .error e => (.cast s kind operand', .error (.at s.position (.rule e)))
            | .ok () => (.cast s kind operand', .ok s.ty)
      else
        (.cast s kind operand, .error (.at s.position (.rule (.unsized s.ty))))
  | node => (node, .error (.at node.position .notExpression))

/-- Infer elements from left to right; `elem` is the common type of those
before these. -/
def inferElems (env : Env) (hint elem : Ty) : List Node → List Node × Except Problem Ty
  | [] => ([], .ok elem)
  | node :: nodes =>
      match infer env hint node with
      | (node', .error p) => (node' :: nodes, .error p)
      | (node', .ok found) =>
          match elem.unify found with
          | .error e => (node' :: nodes, .error (.at node.position (.rule e)))
          | .ok elem' =>
              let (nodes', r) := inferElems env hint elem' nodes
              (node' :: nodes', r)

end

end Cartridge.Typing
