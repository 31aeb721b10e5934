/-
# `Cartridge.Proofs.Initializer.Names` — the names that stored values mention

The code of an initial value only stores, and it names the variable that is
initialised and the variables that the value mentions:

    literal       the variable
    ident         the variable and the one that is copied
    array         as its elements
    addressOf     the variable and the one whose address is taken
    cast          as the value inside

Proved here: the code of a value names nothing else (`among_initCode`), and the
code of an accepted unit names the symbols of the unit only, in both of its
programs (`among_unit`).  Sizes play no part in this, so nothing is asked of the
types.
-/
import Cartridge.Proofs.BlockTree.Existence
import Cartridge.Proofs.Initializer.Code

namespace Cartridge

variable {known : String → Prop}

/-- The name in a value, if there is one, is known. -/
def Value.Among (known : String → Prop) : Value → Prop
  | .immediate _ => True
  | .place p => known p.symbol
  | .addressOf name => known name

/-- An instruction that only stores, and the names in it are known. -/
def Instr.Among (known : String → Prop) : Instr → Prop
  | .copy dest src _ => known dest.symbol ∧ src.Among known
  | .widen dest src => known dest.symbol ∧ known src.symbol
  | _ => False

/-- The name in a number, if there is one, is known. -/
def Scalar.Among (known : String → Prop) : Scalar → Prop
  | .const _ => True
  | .byte p | .word p | .widened p => known p.symbol

/-- All variables in a value are known. -/
def Node.Mentions (known : String → Prop) (node : Node) : Prop :=
  ∀ s name, .ident s name ∈ node.parts → known name

theorem Instr.Among.mono {known' : String → Prop} {i : Instr} (h : i.Among known)
    (hmono : ∀ name, known name → known' name) : i.Among known' := by
  cases i with
  | copy dest src width =>
      refine ⟨hmono _ h.1, ?_⟩
      cases src with
      | immediate n => trivial
      | place p => exact hmono _ h.2
      | addressOf name => exact hmono _ h.2
  | widen dest src => exact ⟨hmono _ h.1, hmono _ h.2⟩
  | _ => exact h.elim

/-! ## Values -/

namespace Scalar

theorem Among.cast {value value' : Scalar} (h : value.Among known) {ty : Ty}
    (hcast : value.cast? ty = some value') : value'.Among known := by
  cases ty with
  | byte => cases value <;> cases hcast <;> exact h
  | word => cases value <;> cases hcast <;> exact h
  | _ => cases hcast

theorem Among.store {value : Scalar} (h : value.Among known) {dest : Place}
    (hdest : known dest.symbol) {ty : Ty} {i : Instr} (hstore : value.store? dest ty = some i) :
    i.Among known := by
  cases ty with
  | byte => cases value <;> cases hstore <;> exact ⟨hdest, h⟩
  | word => cases value <;> cases hstore <;> exact ⟨hdest, h⟩
  | _ => cases hstore

end Scalar

namespace Node

theorem Mentions.operand {s : Slot} {kind : CastKind} {operand : Node}
    (h : (Node.cast s kind operand).Mentions known) : operand.Mentions known := by
  intro s' name hmem
  exact h s' name (List.mem_cons_of_mem _ hmem)

/-- A number that is read off a value is one of its variables, or none. -/
theorem among_scalar : ∀ {node : Node} {value : Scalar}, node.Mentions known →
    node.scalar = .ok value → value.Among known
  | .literal s n, value, _, h => by
      cases h
      trivial
  | .ident s name, value, hmentions, h => by
      have hknown := hmentions s name List.mem_cons_self
      rw [scalar] at h
      split at h
      · cases h
        exact hknown
      · cases h
        exact hknown
      · cases h
  | .cast s kind operand, value, hmentions, h => by
      obtain ⟨inner, hinner, hcast⟩ := scalar_cast_eq_ok h
      exact (among_scalar hmentions.operand hinner).cast hcast

theorem among_scalarCode {node : Node} {dest : Place} {code : List Instr}
    (hmentions : node.Mentions known) (hdest : known dest.symbol)
    (h : scalarCode dest node = .ok code) : ∀ i ∈ code, i.Among known := by
  obtain ⟨value, i, hvalue, hstore, rfl⟩ := scalarCode_eq_ok h
  exact List.forall_mem_singleton.2 ((among_scalar hmentions hvalue).store hdest hstore)

theorem among_copyCode {dest : Place} {name : String} {ty : Ty} {position : Position}
    {code : List Instr} (hdest : known dest.symbol) (hname : known name)
    (h : copyCode dest name ty position = .ok code) : ∀ i ∈ code, i.Among known := by
  intro i hi
  obtain ⟨size, -, ⟨width, -, rfl⟩ | ⟨-, rfl⟩⟩ := copyCode_eq_ok h
  · rw [List.mem_singleton.1 hi]
    exact ⟨hdest, hname⟩
  · obtain ⟨k, -, rfl⟩ := List.mem_map.1 hi
    exact ⟨hdest, hname⟩

mutual

/-- The code of a value names its destination and the variables in the value. -/
theorem among_initCode : ∀ {node : Node} {target : Ty} {dest : Place} {code : List Instr},
    node.Mentions known → known dest.symbol → node.initCode dest target = .ok code →
    ∀ i ∈ code, i.Among known
  | .literal s value, target, dest, code, _, hdest, h => by
      intro i hi
      rw [initCode] at h
      split at h
      · cases h
        rw [List.mem_singleton.1 hi]
        exact ⟨hdest, trivial⟩
      · cases h
        rw [List.mem_singleton.1 hi]
        exact ⟨hdest, trivial⟩
      · cases h
  | .ident s name, target, dest, code, hmentions, hdest, h => by
      rw [initCode] at h
      exact among_copyCode hdest (hmentions s name List.mem_cons_self) h
  | .array s elems, target, dest, code, hmentions, hdest, h => by
      have hparts : ∀ s' name, .ident s' name ∈ partsAll elems → known name := by
        intro s' name hmem
        exact hmentions s' name (List.mem_cons_of_mem _ hmem)
      obtain ⟨elem, n, -, size, rfl, -, -, h⟩ := initCode_array_eq_ok h
      exact among_elemsCode hparts hdest h
  | .addressOf s operand, target, dest, code, hmentions, hdest, h => by
      intro i hi
      cases operand with
      | ident s' name =>
          cases h
          rw [List.mem_singleton.1 hi]
          exact ⟨hdest, hmentions s' name (List.mem_cons_of_mem _ List.mem_cons_self)⟩
      | _ => cases h
  | .cast s kind operand, target, dest, code, hmentions, hdest, h => by
      rcases initCode_cast_eq_ok h with ⟨-, h⟩ | ⟨-, -, h⟩
      · exact among_scalarCode hmentions hdest h
      · exact among_initCode hmentions.operand hdest h

/-- The code of elements names their destination and the variables in them. -/
theorem among_elemsCode : ∀ {nodes : List Node} {whole elem : Ty} {size k : Nat}
    {position : Position} {dest : Place} {code : List Instr},
    (∀ s name, .ident s name ∈ partsAll nodes → known name) → known dest.symbol →
    elemsCode dest whole elem size position k nodes = .ok code → ∀ i ∈ code, i.Among known
  | [], whole, elem, size, k, position, dest, code, _, _, h => by
      cases h
      exact List.forall_mem_nil _
  | node :: nodes, whole, elem, size, k, position, dest, code, hparts, hdest, h => by
      have hfirst : node.Mentions known := by
        intro s name hmem
        exact hparts s name (List.mem_append_left _ hmem)
      have hlater : ∀ s name, .ident s name ∈ partsAll nodes → known name := by
        intro s name hmem
        exact hparts s name (List.mem_append_right _ hmem)
      obtain ⟨offset, front, rest, -, -, -, hfront, hrest, rfl⟩ := elemsCode_cons_eq_ok h
      -- a place further on has the same name
      have hplus : known (dest.plus offset).symbol := hdest
      refine List.forall_mem_append.2 ⟨?_, ?_⟩
      · exact among_initCode hfirst hplus hfront
      · exact among_elemsCode hlater hdest hrest

end

/-- The variables in a sound value are declared before it. -/
theorem SoundValue.mentions {earlier : List Node} {node : Node} (h : node.SoundValue earlier)
    (hknown : ∀ other ∈ earlier, ∀ name, other.name? = some name → known name) :
    node.Mentions known := by
  intro s name hmem
  obtain ⟨other, hother, hname, -⟩ := (h _ hmem).2
  exact hknown other hother name hname

end Node

/-! ## Units -/

/-- Both programs of a unit name what its values mention and its own symbols. -/
theorem BlockTree.Lowered.among {nodes : List Node} {symbols : List Symbol} {main : List Instr}
    {boots : List (String × List Instr)} (h : Lowered nodes symbols main boots)
    (hsymbols : ∀ symbol ∈ symbols, known symbol.name)
    (hvalues : ∀ s name declared init attrs, .var s name declared (some init) attrs ∈ nodes →
      init.Mentions known) :
    (∀ i ∈ main, i.Among known) ∧ ∀ boot ∈ boots, ∀ i ∈ boot.2, i.Among known := by
  induction h with
  | nil => exact ⟨List.forall_mem_nil _, List.forall_mem_nil _⟩
  | plain _ ih =>
      obtain ⟨-, hsymbols⟩ := List.forall_mem_cons.1 hsymbols
      exact ih hsymbols fun s name declared init attrs hmem =>
        hvalues s name declared init attrs (List.mem_cons_of_mem _ hmem)
  | main _ hcode _ ih =>
      obtain ⟨hname, hsymbols⟩ := List.forall_mem_cons.1 hsymbols
      obtain ⟨hmain, hboots⟩ := ih hsymbols fun s name declared init attrs hmem =>
        hvalues s name declared init attrs (List.mem_cons_of_mem _ hmem)
      have hfirst := Node.among_initCode (hvalues _ _ _ _ _ List.mem_cons_self) hname hcode
      exact ⟨List.forall_mem_append.2 ⟨hfirst, hmain⟩, hboots⟩
  | boot _ hcode _ ih =>
      obtain ⟨hname, hsymbols⟩ := List.forall_mem_cons.1 hsymbols
      obtain ⟨hmain, hboots⟩ := ih hsymbols fun s name declared init attrs hmem =>
        hvalues s name declared init attrs (List.mem_cons_of_mem _ hmem)
      have hfirst := Node.among_initCode (hvalues _ _ _ _ _ List.mem_cons_self) hname hcode
      exact ⟨hmain, List.forall_mem_cons.2 ⟨hfirst, hboots⟩⟩

/-- Both programs of an accepted unit name symbols of the unit only. -/
theorem among_unit {decls decls' : List Node} {env : Typing.Env}
    (haccepted : Typing.Accepted {} decls decls' env) {symbols : List Symbol} {main : List Instr}
    {boots : List (String × List Instr)} (hlowered : BlockTree.Lowered decls' symbols main boots)
    (hsymbols : ∀ symbol ∈ symbols, known symbol.name) :
    (∀ i ∈ main, i.Among known) ∧ ∀ boot ∈ boots, ∀ i ∈ boot.2, i.Among known := by
  obtain ⟨hsound, -, -, -⟩ := haccepted.sound Typing.known_nil .nil
  -- each declaration has a symbol of the same name
  have hdeclared : ∀ node ∈ decls', ∀ name, node.name? = some name → known name := by
    intro node hnode name hname
    have hmem : some name ∈ symbols.map fun symbol => some symbol.name := by
      rw [hlowered.names, ← hname]
      exact List.mem_map_of_mem hnode
    obtain ⟨symbol, hsymbol, heq⟩ := List.mem_map.1 hmem
    rw [← Option.some.inj heq]
    exact hsymbols symbol hsymbol
  refine hlowered.among hsymbols fun s name declared init attrs hmem => ?_
  obtain ⟨front, later, rfl⟩ := List.append_of_mem hmem
  have hdecl := hsound front _ later rfl
  rw [List.nil_append] at hdecl
  refine (hdecl.value init rfl).1.mentions fun other hother name hname => ?_
  exact hdeclared other (List.mem_append_left _ hother) name hname

end Cartridge
