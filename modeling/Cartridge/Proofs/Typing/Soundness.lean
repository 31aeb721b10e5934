/-
# `Cartridge.Proofs.Typing.Soundness` — what the slots of an accepted unit say

The analysis writes types into the slots of a unit.  Of a unit that it has
accepted every slot can be read without running the analysis again: it has no
`unknown` inside, and it is true of its node (`Node.Truthful`).

    literal       the value fits the type
    ident         an earlier declaration has this name and this type
    array         as many elements as there are, all alike the element type
    addressOf     a reference to the type of the operand, a variable
    cast          the cast from the type of the operand is allowed

The environment of a unit is a second reading of its declarations (`Binds`).
It is what the analysis looks a name up in, so the two are carried along
together, one declaration at a time.

Proved here: the judgment for values leaves true slots (`Typed.sound`), and so
does the one for units (`Accepted.sound`).  The only types that enter from
outside are hints, and a hint is a part of a declared type that was accepted in
the end: it is `unknown` or resolved (`Ty.Hints`).
-/
import Cartridge.Proofs.Ty.Relations

namespace Cartridge

namespace Node

mutual

/-- A value and all values inside it. -/
def parts : Node → List Node
  | .array s elems => .array s elems :: partsAll elems
  | .addressOf s operand => .addressOf s operand :: operand.parts
  | .cast s kind operand => .cast s kind operand :: operand.parts
  | node => [node]

/-- Values in a row and all values inside them. -/
def partsAll : List Node → List Node
  | [] => []
  | node :: nodes => node.parts ++ partsAll nodes

end

theorem mem_parts_self (node : Node) : node ∈ node.parts := by
  cases node <;> exact List.mem_cons_self

/-- The name that a node declares. -/
def name? : Node → Option String
  | .var _ name _ _ _ => some name
  | _ => none

/-- The name that a node declares, and the type that is written there. -/
def heading? : Node → Option (String × Ty)
  | .var _ name declared _ _ => some (name, declared)
  | _ => none

/-- The slot of a value is true, behind the declarations `earlier`. -/
def Truthful (earlier : List Node) : Node → Prop
  | .literal s value => s.ty = .word ∨ s.ty = .byte ∧ value ≤ 0xFF
  | .ident s name => ∃ node ∈ earlier, node.name? = some name ∧ node.ty = s.ty
  | .array s elems =>
      ∃ elem, s.ty = .array elem elems.length ∧ ∀ node ∈ elems, elem.alike node.ty = true
  | .addressOf s operand => operand.isIdent = true ∧ s.ty = .ref operand.ty
  | .cast s kind operand => s.ty.castable operand.ty kind = true
  | _ => False

/-- All slots inside a value are resolved and true. -/
def SoundValue (earlier : List Node) (node : Node) : Prop :=
  ∀ part ∈ node.parts, part.ty.isResolved = true ∧ part.Truthful earlier

end Node

namespace Typing

/-- A declaration of type `ty`: the declared type or, without one, that of the
initial value, which fits and is sound. -/
structure SoundDecl (earlier : List Node) (ty declared : Ty) (init : Option Node) : Prop where
  resolved : ty.isResolved = true
  written : declared ≠ .unknown → ty = declared
  inferred : declared = .unknown → ∃ value, init = some value ∧ ty = value.ty
  value : ∀ value, init = some value →
    value.SoundValue earlier ∧ ty.accepts value.ty = true

/-- A node is a sound declaration, behind the declarations `earlier`. -/
def SoundAt (earlier : List Node) : Node → Prop
  | .var s _ declared init _ => SoundDecl earlier s.ty declared init
  | _ => False

/-- The environment binds the names of the declarations, each to the type in
its slot. -/
def Binds (decls : List Node) (env : Env) : Prop :=
  ∀ name ty, env.find? name = some ty ↔ ∃ node ∈ decls, node.name? = some name ∧ node.ty = ty

/-- A unit of sound declarations with names of their own, and its environment. -/
structure Sound (decls : List Node) (env : Env) : Prop where
  declarations : ∀ earlier node later, decls = earlier ++ node :: later → SoundAt earlier node
  distinct : (decls.map Node.name?).Nodup
  bound : Binds decls env

end Typing

/-! ## Hints -/

/-- What the surroundings of a value may want: nothing, or a resolved type. -/
def Ty.Hints (ty : Ty) : Prop := ty = .unknown ∨ ty.isResolved = true

theorem Ty.Hints.element {ty : Ty} (h : ty.Hints) : ty.element.Hints := by
  rcases h with rfl | hresolved
  · exact .inl rfl
  · cases ty with
    | array e n => exact .inr hresolved
    | _ => exact .inl rfl

theorem Typing.hints_elementStart {hint : Ty} (h : hint.Hints) (elems : List Node) :
    (elementStart hint elems).Hints := by
  unfold elementStart
  split
  · exact h
  · exact .inl rfl

namespace Typing

/-! ## Values -/

theorem TypedAll.length_eq {env : Env} {hint start elem : Ty} :
    ∀ {nodes nodes' : List Node}, TypedAll env hint start nodes nodes' elem →
      nodes'.length = nodes.length
  | _, _, .nil => rfl
  | _, _, .cons _ _ hnodes => congrArg (· + 1) hnodes.length_eq

/-- The common type is known as soon as there is an element. -/
theorem TypedAll.ne_unknown {env : Env} {hint start elem : Ty} :
    ∀ {nodes nodes' : List Node}, TypedAll env hint start nodes nodes' elem →
      (nodes = [] → start ≠ .unknown) → elem ≠ .unknown
  | _, _, .nil, h => h rfl
  | _, _, .cons hnode hunify hnodes, _ => by
      have hknown := hnode.ne_unknown
      rcases unify_eq_ok hknown hunify with ⟨-, rfl⟩ | ⟨hstart, rfl, -⟩
      · rwa [hnodes.elem_eq hknown]
      · rwa [hnodes.elem_eq hstart]

/-- The common type is resolved after one more element, and alike it. -/
theorem TypedAll.step {env : Env} {hint start found mid elem : Ty} {nodes nodes' : List Node}
    (hstart : start.Hints) (hfound : found.isResolved = true) (hne : found ≠ .unknown)
    (hunify : start.unify found = .ok mid) (hnodes : TypedAll env hint mid nodes nodes' elem) :
    mid.Hints ∧ elem.alike found = true := by
  rcases unify_eq_ok hne hunify with ⟨-, rfl⟩ | ⟨hknown, rfl, halike⟩
  · rw [hnodes.elem_eq hne]
    exact ⟨.inr hfound, mid.alike_refl⟩
  · rw [hnodes.elem_eq hknown]
    exact ⟨hstart, halike⟩

theorem literalType_cases (value : UInt16) (hint : Ty) :
    literalType value hint = .word ∨ literalType value hint = .byte ∧ value ≤ 0xFF := by
  rw [literalType_eq]
  split
  · exact .inl rfl
  · next hbyte => exact .inr ⟨rfl, UInt16.not_lt.1 fun hlt => hbyte (.inr hlt)⟩

/-- The environment of a value: it binds the declarations before it, and these
have resolved types. -/
structure Known (earlier : List Node) (env : Env) : Prop where
  bound : Binds earlier env
  resolved : ∀ node ∈ earlier, node.ty.isResolved = true

theorem Known.isResolved {earlier : List Node} {env : Env} (h : Known earlier env) {name : String}
    {ty : Ty} (hfind : env.find? name = some ty) : ty.isResolved = true := by
  obtain ⟨node, hnode, -, rfl⟩ := (h.bound name ty).1 hfind
  exact h.resolved node hnode

section Values

variable {earlier : List Node} {env : Env}

/-- A value is sound if it is itself and the values inside it are. -/
theorem soundValue_cons {node : Node} {rest : List Node} (hparts : node.parts = node :: rest)
    (hresolved : node.ty.isResolved = true) (htrue : node.Truthful earlier)
    (hrest : ∀ part ∈ rest, part.ty.isResolved = true ∧ part.Truthful earlier) :
    node.SoundValue earlier := by
  intro part hpart
  rw [hparts] at hpart
  rcases List.mem_cons.1 hpart with rfl | hpart
  · exact ⟨hresolved, htrue⟩
  · exact hrest part hpart

theorem soundValue_ident (hknown : Known earlier env) {name : String} {ty : Ty}
    (hfind : env.find? name = some ty) (s : Slot) :
    (Node.ident (s.retype ty) name).SoundValue earlier := by
  refine soundValue_cons rfl (hknown.isResolved hfind) ?_ (fun _ h => nomatch h)
  exact (hknown.bound name ty).1 hfind

theorem soundValue_literal (s : Slot) (value : UInt16) (hint : Ty) :
    (Node.literal (s.retype (literalType value hint)) value).SoundValue earlier := by
  have hcases := literalType_cases value hint
  refine soundValue_cons rfl ?_ hcases (fun _ h => nomatch h)
  show (literalType value hint).isResolved = true
  rcases hcases with hword | ⟨hbyte, -⟩
  · rw [hword]
    rfl
  · rw [hbyte]
    rfl

mutual

/-- A typed value is sound. -/
theorem Typed.sound (hknown : Known earlier env) {hint ty : Ty} (hhint : hint.Hints) :
    ∀ {node node' : Node}, Typed env hint node node' ty → node'.SoundValue earlier
  | _, _, .literal => soundValue_literal _ _ _
  | _, _, .ident hfind _ => soundValue_ident hknown hfind _
  | .array _ elems, _, .array hempty helems => by
      obtain ⟨hparts, helem, halike⟩ :=
        helems.sound hknown hhint.element (hints_elementStart hhint.element elems)
      have hne := helems.ne_unknown fun hnil => by
        rw [hnil]
        exact hempty hnil
      refine soundValue_cons rfl (helem.resolve_left hne) ⟨_, ?_, halike⟩ hparts
      rw [helems.length_eq]
      rfl
  | _, _, .addressOf hfind _ => by
      have hresolved := hknown.isResolved hfind
      exact soundValue_cons rfl hresolved ⟨rfl, rfl⟩ (soundValue_ident hknown hfind _)
  | _, _, .cast hresolved hoperand hcast => by
      refine soundValue_cons rfl hresolved ?_ (hoperand.sound hknown (.inl rfl))
      rw [← hoperand.ty_eq] at hcast
      exact hcast

/-- Typed elements are sound and alike their common type. -/
theorem TypedAll.sound (hknown : Known earlier env) {hint start elem : Ty} (hhint : hint.Hints)
    (hstart : start.Hints) :
    ∀ {nodes nodes' : List Node}, TypedAll env hint start nodes nodes' elem →
      (∀ part ∈ Node.partsAll nodes', part.ty.isResolved = true ∧ part.Truthful earlier) ∧
        elem.Hints ∧ ∀ node ∈ nodes', elem.alike node.ty = true
  | _, _, .nil => ⟨fun _ h => (nomatch h), hstart, fun _ h => (nomatch h)⟩
  | _, node' :: _, .cons hnode hunify hnodes => by
      have hsound := hnode.sound hknown hhint
      have hresolved := (hsound node' node'.mem_parts_self).1
      have hne := hnode.ne_unknown
      rw [← hnode.ty_eq] at hunify hne
      obtain ⟨hmid, halike⟩ := TypedAll.step hstart hresolved hne hunify hnodes
      obtain ⟨hparts, helem, halikes⟩ := hnodes.sound hknown hhint hmid
      refine ⟨fun part hpart => ?_, helem, fun node hnode' => ?_⟩
      · rcases List.mem_append.1 hpart with hpart | hpart
        · exact hsound part hpart
        · exact hparts part hpart
      · rcases List.mem_cons.1 hnode' with rfl | hnode'
        · exact halike
        · exact halikes node hnode'

end

end Values

/-! ## Declarations -/

section Declarations

variable {earlier : List Node} {env : Env}

/-- An initial value that was fitted to the declared type makes a sound
declaration. -/
theorem Fitted.sound (hknown : Known earlier env) {declared ty : Ty} {init init' : Node}
    (h : Fitted env declared init init' ty) : SoundDecl earlier ty declared (some init') := by
  cases h with
  | inferred htyped =>
      have hsound := htyped.sound hknown (.inl rfl)
      have hresolved := (hsound init' init'.mem_parts_self).1
      rw [htyped.ty_eq] at hresolved
      refine ⟨hresolved, fun hne => absurd rfl hne, fun _ => ⟨init', rfl, htyped.ty_eq.symm⟩, ?_⟩
      rintro _ ⟨⟩
      rw [htyped.ty_eq]
      exact ⟨hsound, Ty.accepts_refl hresolved⟩
  | accepted htyped haccepts =>
      have hresolved := (Ty.isResolved_of_accepts haccepts).1
      refine ⟨hresolved, fun _ => rfl, ?_, ?_⟩
      · rintro rfl
        cases hresolved
      · rintro _ ⟨⟩
        rw [htyped.ty_eq]
        exact ⟨htyped.sound hknown (.inr hresolved), haccepts⟩
  | widened htyped =>
      refine ⟨rfl, fun _ => rfl, fun h => (nomatch h), ?_⟩
      rintro _ ⟨⟩
      refine ⟨soundValue_cons rfl rfl ?_ (htyped.sound hknown (.inr rfl)), rfl⟩
      show Ty.castable .word _ .implicit = true
      rw [htyped.ty_eq]
      rfl

theorem Initialized.sound (hknown : Known earlier env) {declared ty : Ty}
    {init init' : Option Node} (h : Initialized env declared init init' ty) :
    SoundDecl earlier ty declared init' := by
  cases h with
  | absent hresolved =>
      refine ⟨hresolved, fun _ => rfl, ?_, fun _ h => (nomatch h)⟩
      rintro rfl
      cases hresolved
  | present hfitted => exact hfitted.sound hknown

/-- One more declaration is bound. -/
theorem Known.bind (hknown : Known earlier env) {s : Slot} {name : String} {declared : Ty}
    {init : Option Node} {attrs : List Node} (hnew : env.contains name = false)
    (hresolved : s.ty.isResolved = true) :
    Known (earlier ++ [.var s name declared init attrs]) (env.bind name s.ty) := by
  refine ⟨fun x ty => ?_, fun node hnode => ?_⟩
  · rw [Env.find?_bind]
    split
    · next hx =>
        subst hx
        constructor
        · rintro ⟨⟩
          exact ⟨_, List.mem_append_right _ List.mem_cons_self, rfl, rfl⟩
        · rintro ⟨node, hnode, hname, hty⟩
          rcases List.mem_append.1 hnode with hnode | hnode
          · have hfind := (hknown.bound x node.ty).2 ⟨node, hnode, hname, rfl⟩
            rw [Env.contains, hfind] at hnew
            cases hnew
          · obtain rfl := List.mem_singleton.1 hnode
            rw [← hty]
            rfl
    · next hx =>
        rw [hknown.bound x ty]
        constructor
        · rintro ⟨node, hnode, h⟩
          exact ⟨node, List.mem_append_left _ hnode, h⟩
        · rintro ⟨node, hnode, hname, hty⟩
          rcases List.mem_append.1 hnode with hnode | hnode
          · exact ⟨node, hnode, hname, hty⟩
          · obtain rfl := List.mem_singleton.1 hnode
            exact absurd (Option.some.inj hname).symm hx
  · rcases List.mem_append.1 hnode with hnode | hnode
    · exact hknown.resolved node hnode
    · obtain rfl := List.mem_singleton.1 hnode
      exact hresolved

/-- An accepted declaration is sound, has a new name and is bound. -/
theorem Declared.sound (hknown : Known earlier env) {node node' : Node} {env' : Env}
    (h : Declared env node node' env') :
    SoundAt earlier node' ∧ node'.heading? = node.heading? ∧
      node'.name? ∉ earlier.map Node.name? ∧ Known (earlier ++ [node']) env' := by
  cases h with
  | var hnew _ hinit =>
      have hsound := hinit.sound hknown
      refine ⟨hsound, rfl, fun hmem => ?_, hknown.bind hnew hsound.resolved⟩
      obtain ⟨node, hnode, hname⟩ := List.mem_map.1 hmem
      have hfind := (hknown.bound _ node.ty).2 ⟨node, hnode, hname, rfl⟩
      rw [Env.contains, hfind] at hnew
      cases hnew

/-- An accepted unit is sound behind the declarations before it. -/
theorem Accepted.sound {env env' : Env} {nodes nodes' : List Node}
    (h : Accepted env nodes nodes' env') {earlier : List Node} (hknown : Known earlier env)
    (hdistinct : (earlier.map Node.name?).Nodup) :
    (∀ front node later, nodes' = front ++ node :: later → SoundAt (earlier ++ front) node) ∧
      nodes'.map Node.heading? = nodes.map Node.heading? ∧
      ((earlier ++ nodes').map Node.name?).Nodup ∧ Known (earlier ++ nodes') env' := by
  induction h generalizing earlier with
  | nil =>
      rw [List.append_nil]
      exact ⟨fun front node later e => absurd e (by simp), rfl, hdistinct, hknown⟩
  | @cons env mid env' node node' nodes nodes' hnode hnodes ih =>
      obtain ⟨hsound, hheading, hnew, hmid⟩ := hnode.sound hknown
      have hdistinct' : ((earlier ++ [node']).map Node.name?).Nodup := by
        rw [List.map_append, List.nodup_append]
        refine ⟨hdistinct, by simp, fun a ha b hb e => ?_⟩
        obtain rfl := List.mem_singleton.1 hb
        exact hnew (e ▸ ha)
      obtain ⟨hrest, hheadings, hnodup, hknown'⟩ := ih hmid hdistinct'
      rw [List.append_assoc, List.singleton_append] at hnodup hknown'
      refine ⟨fun front other later e => ?_, ?_, hnodup, hknown'⟩
      · cases front with
        | nil =>
            obtain ⟨rfl, -⟩ := List.cons.inj e
            rwa [List.append_nil]
        | cons first front =>
            obtain ⟨rfl, erest⟩ := List.cons.inj e
            have hat := hrest front other later erest
            rwa [List.append_assoc] at hat
      · rw [List.map_cons, List.map_cons, hheading, hheadings]

theorem known_nil : Known [] {} :=
  ⟨fun _ _ => ⟨fun h => (nomatch h), fun ⟨_, h, _⟩ => (nomatch h)⟩, fun _ h => (nomatch h)⟩

end Declarations

/-- The analysis is sound: a unit that it accepts has the names and the declared
types that it had, each name declared once, an environment that binds exactly
these, and slots that are resolved and true. -/
theorem sound_of_analyze {decls : List Node} {env : Env} (h : (analyze decls).result = .ok env) :
    Sound (analyze decls).decls env ∧
      (analyze decls).decls.map Node.heading? = decls.map Node.heading? := by
  obtain ⟨hsound, hheadings, hdistinct, hknown⟩ := (accepted_of_analyze h).sound known_nil .nil
  exact ⟨⟨hsound, hdistinct, hknown.bound⟩, hheadings⟩

/-- A unit with an inferred word, a narrowing that is widened again, addresses in
an array that is shorter than declared, and an empty array. -/
def pointerUnit : List Node := [
  .var {} "n" .unknown (some (.literal {} 300)) [],
  .var {} "w" .word (some (.cast { ty := .byte } .explicit (.ident {} "n"))) [],
  .var {} "p" (.array (.ref .word) 3)
    (some (.array {} [.addressOf {} (.ident {} "w"), .addressOf {} (.ident {} "n")])) [],
  .var {} "e" (.array (.array .byte 2) 4) (some (.array {} [])) []]

/-- The environment of `pointerUnit`. -/
def pointerEnv : Env where
  bindings := [("e", .array (.array .byte 2) 4), ("p", .array (.ref .word) 3), ("w", .word),
    ("n", .word)]

theorem sound_pointerUnit :
    (analyze pointerUnit).result = .ok pointerEnv ∧ Sound (analyze pointerUnit).decls pointerEnv ∧
      (analyze pointerUnit).decls.map Node.heading? = pointerUnit.map Node.heading? :=
  ⟨rfl, sound_of_analyze rfl⟩

end Typing

end Cartridge
