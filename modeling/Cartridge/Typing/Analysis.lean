/-
# `Cartridge.Typing.Analysis` — declarations and whole units

A declaration is checked in three steps: its attributes, its initial value,
and whether the one fits the other.  Its first problem ends its check.

    declared type    initial value    type of the variable
    resolved         none             the declared type
    none             found            the type found
    resolved         accepted         the declared type
    word             byte             word, and the value is wrapped in a cast

A declaration that is refused still declares its name, with the type that was
written, so that later uses are not refused for its sake.
-/
import Cartridge.Typing.Attributes
import Cartridge.Typing.Infer

namespace Cartridge.Typing

/-- Fit an initial value of type `found` to the declared type. -/
def fit (position : Position) (declared found : Ty) (init : Node) : Node × Except Problem Ty :=
  if declared.isUnknown then
    (init, .ok found)
  else if !declared.isResolved then
    (init, .error (.at position (.rule (.unsized declared))))
  else if declared.accepts found then
    (init, .ok declared)
  else if declared.castable found .implicit then
    (init.widened declared, .ok declared)
  else
    (init, .error (.at init.position (.rule (.mismatch declared found))))

/-- The type of a variable, and its initial value as the check leaves it. -/
def resolve (env : Env) (position : Position) (name : String) (declared : Ty) :
    Option Node → Option Node × Except Problem Ty
  | none =>
      (none, if declared.isResolved then .ok declared else .error (.at position (.untyped name)))
  | some init =>
      match infer env declared init with
      | (init', .error p) => (some init', .error p)
      | (init', .ok found) =>
          let (init'', r) := fit position declared found init'
          (some init'', r)

/-- A checked declaration: the node and the environment after it, and the
name with its type, or the problem. -/
structure Checked where
  node : Node
  env : Env
  outcome : Except Problem (String × Ty)
deriving Inhabited

/-- Check one declaration. -/
def checkDecl (env : Env) : Node → Checked
  | .var s name declared init attrs =>
      if env.contains name then
        ⟨.var s name declared init attrs, env, .error (.fatal (.duplicate name s.position))⟩
      else
        match checkAttributes attrs with
        | (attrs', .error p) =>
            ⟨.var s name declared init attrs', env.bind name declared, .error p⟩
        | (attrs', .ok ()) =>
            match resolve env s.position name declared init with
            | (init', .error p) =>
                ⟨.var s name declared init' attrs', env.bind name declared, .error p⟩
            | (init', .ok ty) =>
                ⟨.var (s.retype ty) name declared init' attrs', env.bind name ty, .ok (name, ty)⟩
  | node => ⟨node, env, .error (.at node.position .notDeclaration)⟩

/-- An analysed unit: the nodes as the analysis leaves them, the environment
or the rejection, and the declarations that were accepted, in order. -/
structure Analysis where
  decls : List Node
  result : Except Rejection Env
  typed : List (String × Ty)
deriving Inhabited

/-- Check declarations in order; `found` are the diagnostics before these. -/
def checkAll (env : Env) (found : List Diagnostic) : List Node → Analysis
  | [] => ⟨[], if found.isEmpty then .ok env else .error (.diagnostics found), []⟩
  | node :: nodes =>
      let c := checkDecl env node
      match c.outcome with
      | .error (.fatal f) => ⟨c.node :: nodes, .error (.fatal f), []⟩
      | .error (.diagnostic d) =>
          let rest := checkAll c.env (found ++ [d]) nodes
          { rest with decls := c.node :: rest.decls }
      | .ok typed =>
          let rest := checkAll c.env found nodes
          ⟨c.node :: rest.decls, rest.result, typed :: rest.typed⟩

/-- Analyse a unit. -/
def analyze (decls : List Node) : Analysis :=
  checkAll {} [] decls

end Cartridge.Typing
