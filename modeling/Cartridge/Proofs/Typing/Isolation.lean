/-
# `Cartridge.Proofs.Typing.Isolation` — a refused declaration has no consequences

The analysis carries an environment from declaration to declaration, and a
declaration that it refuses must not make it refuse another one.  Take a unit in
which nothing but the types can go wrong (`SelfContained`):

    typed       every node is a declaration with a resolved type
    distinct    no name is declared twice
    closed      a name that an initial value uses was declared before

There every declaration binds its name to the type that is written, for whatever
reason it is refused: for its attributes, for its initial value, or because the
two types do not fit (`checkDecl_var`).  So the environment that a declaration
meets can be read off the declarations before it without checking them
(`declaredEnv`), and the complaint about it is that of a check on its own
(`complaint?`).

Proved here: the analysis reports these complaints, in order and nothing else,
and a change of one initial value and its attributes leaves the complaints about
all other declarations as they were (`complaints_isolated`).
-/
import Cartridge.Proofs.Typing.Idempotence
import Cartridge.Proofs.Typing.Soundness

namespace Cartridge

namespace Node

/-- The name of a variable that is used. -/
def ident? : Node → Option String
  | .ident _ name => some name
  | _ => none

/-- The initial value of a declaration. -/
def initial? : Node → Option Node
  | .var _ _ _ init _ => init
  | _ => none

/-- The names that the initial value of a declaration uses. -/
def uses (node : Node) : List String :=
  (node.initial?.elim [] parts).filterMap ident?

/-- Is this a declaration with a resolved type? -/
def isTyped : Node → Bool
  | .var _ _ declared _ _ => declared.isResolved
  | _ => false

end Node

namespace Typing

/-! ## The setting -/

/-- Every declaration uses names of declarations before it only. -/
def Closed (earlier : List Node) : List Node → Prop
  | [] => True
  | node :: nodes =>
      (∀ name ∈ node.uses, some name ∈ earlier.map Node.name?) ∧ Closed (earlier ++ [node]) nodes

/-- Behind the declarations `earlier`, nothing but types can go wrong. -/
structure Orderly (earlier nodes : List Node) : Prop where
  typed : ∀ node ∈ nodes, node.isTyped = true
  distinct : ((earlier ++ nodes).map Node.name?).Nodup
  closed : Closed earlier nodes

/-- A unit in which nothing but types can go wrong. -/
def SelfContained (decls : List Node) : Prop := Orderly [] decls

/-- The environment in which every declaration has the type that is written. -/
def declaredEnv (decls : List Node) : Env where
  bindings := (decls.filterMap Node.heading?).reverse

/-- The complaint about a declaration that is checked on its own. -/
def complaint? (env : Env) (node : Node) : Option Diagnostic :=
  match (checkDecl env node).outcome with
  | .error (.diagnostic d) => some d
  | _ => none

/-- The complaint about every declaration, checked on its own where those before
it have the types that are written. -/
def complaints (earlier : List Node) : List Node → List (Option Diagnostic)
  | [] => []
  | node :: nodes => complaint? (declaredEnv earlier) node :: complaints (earlier ++ [node]) nodes

/-- The result of an analysis that ends with these diagnostics. -/
def verdict (env : Env) (ds : List Diagnostic) : Except Rejection Env :=
  if ds.isEmpty then .ok env else .error (.diagnostics ds)

instance decidableClosed (earlier : List Node) :
    (nodes : List Node) → Decidable (Closed earlier nodes)
  | [] => inferInstanceAs (Decidable True)
  | node :: nodes =>
      have := decidableClosed (earlier ++ [node]) nodes
      inferInstanceAs (Decidable ((∀ name ∈ node.uses, some name ∈ earlier.map Node.name?) ∧
        Closed (earlier ++ [node]) nodes))

instance (decls : List Node) : Decidable (SelfContained decls) :=
  decidable_of_iff ((∀ node ∈ decls, node.isTyped = true) ∧ (decls.map Node.name?).Nodup ∧
      Closed [] decls)
    ⟨fun ⟨h₁, h₂, h₃⟩ => ⟨h₁, h₂, h₃⟩, fun h => ⟨h.typed, h.distinct, h.closed⟩⟩

/-! ## The environment of declared types -/

theorem declaredEnv_concat (earlier : List Node) (s : Slot) (name : String) (declared : Ty)
    (init : Option Node) (attrs : List Node) :
    declaredEnv (earlier ++ [.var s name declared init attrs]) =
      (declaredEnv earlier).bind name declared := by
  simp [declaredEnv, Env.bind, Node.heading?]

/-- The environment depends on names and declared types alone. -/
theorem declaredEnv_congr {earlier earlier' : List Node}
    (h : earlier'.map Node.heading? = earlier.map Node.heading?) :
    declaredEnv earlier' = declaredEnv earlier := by
  have hheadings : ∀ nodes : List Node, nodes.filterMap Node.heading? =
      (nodes.map Node.heading?).filterMap id := by
    intro nodes
    rw [List.filterMap_map]
    rfl
  rw [declaredEnv, declaredEnv, hheadings, hheadings, h]

theorem contains_declaredEnv {earlier : List Node} {name : String} :
    (declaredEnv earlier).contains name = true ↔ some name ∈ earlier.map Node.name? := by
  rw [Env.contains, Env.find?, declaredEnv, List.lookup_isSome_iff]
  simp only [List.mem_reverse, List.mem_filterMap, List.mem_map, beq_iff_eq]
  constructor
  · rintro ⟨⟨_, ty⟩, ⟨node, hnode, hheading⟩, rfl⟩
    refine ⟨node, hnode, ?_⟩
    cases node <;> cases hheading
    rfl
  · rintro ⟨node, hnode, hname⟩
    cases node <;> cases hname
    exact ⟨_, ⟨_, hnode, rfl⟩, rfl⟩

/-! ## Nothing is fatal -/

/-- A check that stops with a diagnostic, or not at all. -/
def Local {α : Type} (r : Except Problem α) : Prop :=
  ∀ p, r = .error p → ∃ d, p = .diagnostic d

theorem local_ok {α : Type} (a : α) : Local (.ok a : Except Problem α) := by
  intro p h
  cases h

theorem local_at {α : Type} (position : Position) (cause : Cause) :
    Local (.error (.at position cause) : Except Problem α) := by
  intro p h
  cases h
  exact ⟨_, rfl⟩

/-- The problem of a part is the problem of the whole. -/
theorem Local.error {α β : Type} {p : Problem} (h : Local (.error p : Except Problem α)) :
    Local (.error p : Except Problem β) := by
  intro q hq
  cases hq
  exact h p rfl

/-- All variables among these values are declared. -/
def Covers (env : Env) (values : List Node) : Prop :=
  ∀ value ∈ values, ∀ name, value.ident? = some name → env.contains name = true

mutual

/-- A value whose variables are declared is refused for its types only. -/
theorem infer_local {env : Env} (hint : Ty) :
    ∀ (node : Node), Covers env node.parts → Local (infer env hint node).2
  | .literal s value, _ => local_ok _
  | .ident s name, hcovers => by
      have hname := hcovers _ List.mem_cons_self name rfl
      unfold infer
      split
      · next hfind =>
          rw [Env.contains, hfind] at hname
          cases hname
      · exact local_at _ _
      · exact local_ok _
  | .array s elems, hcovers => by
      have helems := inferElems_local hint.element (elementStart hint.element elems) elems
        fun value hvalue => hcovers value (List.mem_cons_of_mem _ hvalue)
      unfold infer
      split
      · exact local_at _ _
      · split
        · next heq =>
            rw [heq] at helems
            exact helems.error
        · exact local_ok _
  | .addressOf s operand, hcovers => by
      have hoperand := infer_local .unknown operand
        fun value hvalue => hcovers value (List.mem_cons_of_mem _ hvalue)
      unfold infer
      split
      · split
        · next heq =>
            rw [heq] at hoperand
            exact hoperand.error
        · exact local_ok _
      · exact local_at _ _
  | .cast s kind operand, hcovers => by
      have hoperand := infer_local .unknown operand
        fun value hvalue => hcovers value (List.mem_cons_of_mem _ hvalue)
      unfold infer
      split
      · split
        · next heq =>
            rw [heq] at hoperand
            exact hoperand.error
        · split
          · exact local_at _ _
          · exact local_ok _
      · exact local_at _ _
  | .var .., _ => local_at _ _
  | .attribute .., _ => local_at _ _
  | .property .., _ => local_at _ _

theorem inferElems_local {env : Env} (hint elem : Ty) :
    ∀ (nodes : List Node), Covers env (Node.partsAll nodes) →
      Local (inferElems env hint elem nodes).2
  | [], _ => local_ok _
  | node :: nodes, hcovers => by
      have hnode := infer_local hint node
        fun value hvalue => hcovers value (List.mem_append_left _ hvalue)
      unfold inferElems
      split
      · next heq =>
          rw [heq] at hnode
          exact hnode.error
      · split
        · exact local_at _ _
        · exact inferElems_local hint _ nodes
            fun value hvalue => hcovers value (List.mem_append_right _ hvalue)

end

theorem checkProperties_local (found : Bool) (props : List Node) :
    Local (checkProperties found props).2 := by
  fun_induction checkProperties found props with
  | case1 => exact local_ok _
  | case2 => exact local_at _ _
  | case3 _ _ _ _ _ _ _ _ _ heq ih =>
      rw [heq] at ih
      exact ih
  | case4 => exact local_at _ _
  | case5 => exact local_at _ _

theorem checkAttribute_local (s : Slot) (name : String) (props : List Node) :
    Local (checkAttribute s name props).2 := by
  have hprops := checkProperties_local false props
  unfold checkAttribute
  split
  · dsimp only
    split
    · exact local_ok _
    · exact local_at _ _
  · split
    · split
      · exact local_ok _
      · exact local_at _ _
      · next heq =>
          rw [heq] at hprops
          exact hprops.error
    · exact local_at _ _

theorem checkEach_local (seen : List String) (attrs : List Node) :
    Local (checkEach seen attrs).2 := by
  fun_induction checkEach seen attrs with
  | case1 => exact local_ok _
  | case2 => exact local_at _ _
  | case3 _ s name props _ _ _ _ heq =>
      have hprops := checkAttribute_local s name props
      rw [heq] at hprops
      exact hprops.error
  | case4 _ _ _ _ _ _ _ _ _ _ heq ih =>
      rw [heq] at ih
      exact ih
  | case5 => exact local_at _ _

theorem checkAttributes_local (attrs : List Node) : Local (checkAttributes attrs).2 := by
  have heach := checkEach_local [] attrs
  unfold checkAttributes
  split
  · next heq =>
      rw [heq] at heach
      exact heach.error
  · split
    · exact local_at _ _
    · exact local_ok _

theorem fit_local (position : Position) (declared found : Ty) (init : Node) :
    Local (fit position declared found init).2 := by
  unfold fit
  split
  · exact local_ok _
  · split
    · exact local_at _ _
    · split
      · exact local_ok _
      · split
        · exact local_ok _
        · exact local_at _ _

theorem resolve_local {env : Env} (position : Position) (name : String) (declared : Ty)
    {init : Option Node} (hcovers : Covers env (init.elim [] Node.parts)) :
    Local (resolve env position name declared init).2 := by
  cases init with
  | none =>
      rw [resolve]
      dsimp only
      split
      · exact local_ok _
      · exact local_at _ _
  | some init =>
      have hinit := infer_local declared init hcovers
      rw [resolve]
      split
      · next heq =>
          rw [heq] at hinit
          exact hinit
      · exact fit_local _ _ _ _

/-! ## One declaration -/

/-- A variable with a declared type has that type. -/
theorem eq_declared_of_resolve {env : Env} {position : Position} {name : String} {declared ty : Ty}
    {init init' : Option Node} (hresolved : declared.isResolved = true)
    (h : resolve env position name declared init = (init', .ok ty)) : ty = declared := by
  cases initialized_of_resolve h with
  | absent => rfl
  | present hfitted =>
      cases hfitted with
      | inferred => cases hresolved
      | accepted => rfl
      | widened => rfl

/-- A declaration with a new name and a resolved type binds the name to that type,
accepted or not, and there is nothing fatal about it. -/
theorem checkDecl_var {env : Env} {s : Slot} {name : String} {declared : Ty} {init : Option Node}
    {attrs : List Node} (hnew : ¬ env.contains name = true) (hresolved : declared.isResolved = true)
    (hcovers : Covers env (init.elim [] Node.parts)) :
    (checkDecl env (.var s name declared init attrs)).env = env.bind name declared ∧
      Local (checkDecl env (.var s name declared init attrs)).outcome := by
  have hlocal := checkAttributes_local attrs
  rcases hattrs : checkAttributes attrs with ⟨attrs', p | _⟩
  · rw [hattrs] at hlocal
    rw [checkDecl_attributes hnew hattrs]
    exact ⟨rfl, hlocal.error⟩
  · have hlocal := resolve_local s.position name declared hcovers
    rcases hinit : resolve env s.position name declared init with ⟨init', p | ty⟩
    · rw [hinit] at hlocal
      rw [checkDecl_refused hnew hattrs hinit]
      exact ⟨rfl, hlocal.error⟩
    · rw [checkDecl_accepted hnew hattrs hinit, eq_declared_of_resolve hresolved hinit]
      exact ⟨rfl, local_ok _⟩

/-- What is known about the first of the declarations, and about the rest. -/
theorem Orderly.cons {earlier nodes : List Node} {node : Node}
    (h : Orderly earlier (node :: nodes)) :
    (checkDecl (declaredEnv earlier) node).env = declaredEnv (earlier ++ [node]) ∧
      Local (checkDecl (declaredEnv earlier) node).outcome ∧ Orderly (earlier ++ [node]) nodes := by
  have happend : earlier ++ [node] ++ nodes = earlier ++ node :: nodes := by simp
  have hrest : Orderly (earlier ++ [node]) nodes :=
    ⟨fun other hother => h.typed other (List.mem_cons_of_mem _ hother), happend ▸ h.distinct,
      h.closed.2⟩
  have htyped := h.typed node List.mem_cons_self
  cases node with
  | var s name declared init attrs =>
      have hnew : ¬ (declaredEnv earlier).contains name = true := by
        intro hname
        have hdistinct := h.distinct
        rw [List.map_append, List.nodup_append] at hdistinct
        exact hdistinct.2.2 _ (contains_declaredEnv.1 hname) _ List.mem_cons_self rfl
      have hcovers : Covers (declaredEnv earlier) (init.elim [] Node.parts) := by
        intro value hvalue x hx
        exact contains_declaredEnv.2 (h.closed.1 x (List.mem_filterMap.2 ⟨value, hvalue, hx⟩))
      obtain ⟨henv, hlocal⟩ := checkDecl_var hnew htyped hcovers
      exact ⟨henv.trans (declaredEnv_concat ..).symm, hlocal, hrest⟩
  | _ => cases htyped

/-! ## Units -/

theorem complaint?_of_diagnostic {env : Env} {node : Node} {d : Diagnostic}
    (h : (checkDecl env node).outcome = .error (.diagnostic d)) : complaint? env node = some d := by
  rw [complaint?, h]

theorem complaint?_of_ok {env : Env} {node : Node} {typed : String × Ty}
    (h : (checkDecl env node).outcome = .ok typed) : complaint? env node = none := by
  rw [complaint?, h]

/-- The check of declarations in a row ends with the complaints about each of
them. -/
theorem Orderly.result_checkAll {earlier nodes : List Node} (h : Orderly earlier nodes)
    (found : List Diagnostic) :
    (checkAll (declaredEnv earlier) found nodes).result =
      verdict (declaredEnv (earlier ++ nodes))
        (found ++ (complaints earlier nodes).filterMap id) := by
  induction nodes generalizing earlier found with
  | nil =>
      rw [complaints, List.filterMap_nil, List.append_nil, List.append_nil]
      rfl
  | cons node nodes ih =>
      obtain ⟨henv, hlocal, hrest⟩ := h.cons
      have happend : earlier ++ [node] ++ nodes = earlier ++ node :: nodes := by simp
      rw [checkAll, complaints, List.filterMap_cons, ← happend]
      dsimp only
      rcases houtcome : (checkDecl (declaredEnv earlier) node).outcome with p | typed
      · obtain ⟨d, rfl⟩ := hlocal p houtcome
        dsimp only
        rw [henv, ih hrest, complaint?_of_diagnostic houtcome, List.append_assoc found]
        rfl
      · dsimp only
        rw [henv, ih hrest, complaint?_of_ok houtcome]
        rfl

/-- Complaints about declarations depend on the names and the types declared
before them. -/
theorem complaints_congr {earlier earlier' : List Node}
    (h : earlier'.map Node.heading? = earlier.map Node.heading?) (nodes : List Node) :
    complaints earlier' nodes = complaints earlier nodes := by
  induction nodes generalizing earlier earlier' with
  | nil => rfl
  | cons node nodes ih =>
      have hnext : (earlier' ++ [node]).map Node.heading? =
          (earlier ++ [node]).map Node.heading? := by
        rw [List.map_append, List.map_append, h]
      rw [complaints, complaints, declaredEnv_congr h, ih hnext]

/-- Another declaration with the same name and type changes the complaint about
itself. -/
theorem complaints_set {node node' : Node} (h : node'.heading? = node.heading?)
    (earlier front back : List Node) :
    complaints earlier (front ++ node' :: back) =
      (complaints earlier (front ++ node :: back)).set front.length
        (complaint? (declaredEnv (earlier ++ front)) node') := by
  induction front generalizing earlier with
  | nil =>
      have hnext : (earlier ++ [node']).map Node.heading? =
          (earlier ++ [node]).map Node.heading? := by
        rw [List.map_append, List.map_append, List.map_singleton, List.map_singleton, h]
      rw [List.append_nil, List.nil_append, List.nil_append, complaints, complaints,
        complaints_congr hnext, List.length_nil, List.set_cons_zero]
  | cons first front ih =>
      have happend : earlier ++ [first] ++ front = earlier ++ first :: front := by simp
      rw [List.cons_append, List.cons_append, complaints, complaints, ih, happend,
        List.length_cons, List.set_cons_succ]

/-- Type errors do not cascade.  Where nothing but types can go wrong, the analysis
ends with the complaints about the declarations, each checked on its own in the
environment of the types declared before it.  So with another initial value and
other attributes in one place it ends with the same complaints, but for the one
about this place. -/
theorem complaints_isolated {decls : List Node} (h : SelfContained decls) :
    (analyze decls).result = verdict (declaredEnv decls) ((complaints [] decls).filterMap id) ∧
    ∀ (front back : List Node) (s : Slot) (name : String) (declared : Ty) (init init' : Option Node)
      (attrs attrs' : List Node), decls = front ++ .var s name declared init attrs :: back →
      SelfContained (front ++ .var s name declared init' attrs' :: back) →
      (analyze (front ++ .var s name declared init' attrs' :: back)).result =
        verdict (declaredEnv decls) (((complaints [] decls).set front.length
          (complaint? (declaredEnv front) (.var s name declared init' attrs'))).filterMap id) := by
  refine ⟨h.result_checkAll [], ?_⟩
  rintro front back s name declared init init' attrs attrs' rfl h'
  have hheading : (Node.var s name declared init' attrs').heading? =
      (Node.var s name declared init attrs).heading? := rfl
  have hheadings : (front ++ .var s name declared init' attrs' :: back).map Node.heading? =
      (front ++ .var s name declared init attrs :: back).map Node.heading? := by
    rw [List.map_append, List.map_append, List.map_cons, List.map_cons, hheading]
  have hset := complaints_set hheading [] front back
  rw [List.nil_append] at hset
  rw [← hset, ← declaredEnv_congr hheadings]
  exact h'.result_checkAll []

/-- A unit with a number that does not fit its variable, a use of the variable, a
pointer to it of another type, and a use of the pointer. -/
def misfits (value : UInt16) (attrs : List Node) : List Node := [
  .var {} "n" .byte (some (.literal ⟨⟨1, 9⟩, .unknown⟩ value)) attrs,
  .var {} "w" .word (some (.ident {} "n")) [],
  .var {} "p" (.ref .word) (some (.addressOf ⟨⟨3, 9⟩, .unknown⟩ (.ident {} "n"))) [],
  .var {} "q" (.ref .word) (some (.ident {} "p")) []]

/-- The complaint about the pointer; there is none about what uses a name. -/
def misfitPointer : Diagnostic :=
  ⟨⟨3, 9⟩, .rule (.mismatch (.ref .word) (.ref .byte))⟩

theorem isolated_misfits :
    SelfContained (misfits 300 []) ∧ SelfContained (misfits 3 []) ∧
      SelfContained (misfits 3 [.attribute ⟨⟨1, 14⟩, .unknown⟩ "far" []]) ∧
      (analyze (misfits 300 [])).result = .error (.diagnostics
        [⟨⟨1, 9⟩, .rule (.mismatch .byte .word)⟩, misfitPointer]) ∧
      (analyze (misfits 3 [])).result = .error (.diagnostics [misfitPointer]) ∧
      (analyze (misfits 3 [.attribute ⟨⟨1, 14⟩, .unknown⟩ "far" []])).result =
        .error (.diagnostics [⟨⟨1, 14⟩, .unknownAttribute "far"⟩, misfitPointer]) := by
  have h : SelfContained (misfits 300 []) := by decide
  have h₁ : SelfContained (misfits 3 []) := by decide
  have h₂ : SelfContained (misfits 3 [.attribute ⟨⟨1, 14⟩, .unknown⟩ "far" []]) := by decide
  obtain ⟨hall, hother⟩ := complaints_isolated h
  refine ⟨h, h₁, h₂, hall, ?_, ?_⟩
  · exact hother [] _ _ _ _ _ _ _ _ rfl h₁
  · exact hother [] _ _ _ _ _ _ _ _ rfl h₂

end Typing

end Cartridge
