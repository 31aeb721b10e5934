/-
# `Cartridge.Proofs.BlockTree.Existence` — an accepted unit has a block tree

The analysis and the making of the tree decide on their own what they refuse.
After the analysis the tree has little left to refuse:

    not a declaration, unresolved type     the unit is sound
    name declared already                  the names of a sound unit are distinct
    address that is no number              the attributes were checked
    closing the global block               a startup block was opened before
    value that has no code                 for want of a size only (`initCode_error`)
    number that does not fit its word      a type overflows, or two records of one
                                           name differ (`Fitted.overflows`)

Proved here: the tree of an accepted unit exists, or the error is about a type
without a size, or there is such a fault (`addDecls_error`, a unit in front of which
other declarations stand).  Where all slots have sizes and no array literal is too
long to count, there is no error, and where records of one name have the same members
besides, the tree exists.
-/
import Cartridge.Proofs.BlockTree.OfDecls
import Cartridge.Proofs.Initializer.Overflow
import Cartridge.Proofs.Initializer.Storable

namespace Cartridge

/-! ## Placement -/

namespace Typing

/-- The properties of an accepted `address` are numbers under the key `at`. -/
theorem checkProperties_eq_ok {found given : Bool} {props props' : List Node}
    (h : checkProperties found props = (props', .ok given)) :
    (∀ prop ∈ props', ∃ s vs v, prop = .property s "at" (.literal vs v)) ∧
      (given = true → found = true ∨ props' ≠ []) := by
  induction props generalizing found props' with
  | nil =>
      obtain ⟨rfl, ⟨⟩⟩ := Prod.mk.inj h
      exact ⟨List.forall_mem_nil _, .inl⟩
  | cons prop props ih =>
      unfold checkProperties at h
      split at h
      · cases ‹_ = []›
      · next s key value _ hcons =>
          cases hcons
          split at h
          · cases h
          · next hkey =>
              split at h
              · next vs v =>
                  obtain ⟨rfl, hrest⟩ := Prod.mk.inj h
                  obtain ⟨hprops, -⟩ := ih (Prod.ext rfl hrest)
                  obtain rfl : key = "at" := by simpa using hkey
                  refine ⟨fun other hother => ?_, fun _ => .inr (List.cons_ne_nil _ _)⟩
                  rcases List.mem_cons.1 hother with rfl | hother
                  · exact ⟨s, _, v, rfl⟩
                  · exact hprops other hother
              · cases h
      · cases h

theorem property?_at {s : Slot} {name : String} {props : List Node}
    (h : ∀ prop ∈ props, ∃ s vs v, prop = .property s "at" (.literal vs v)) (hne : props ≠ []) :
    ∃ vs v, (Node.attribute s name props).property? "at" = some (.literal vs v) := by
  cases props with
  | nil => exact absurd rfl hne
  | cons prop props =>
      obtain ⟨s', vs, v, rfl⟩ := h prop List.mem_cons_self
      refine ⟨vs, v, ?_⟩
      simp [Node.property?]

/-- An accepted `address` says where, as a number. -/
theorem property?_of_checkAttribute {s : Slot} {props props' : List Node}
    (h : checkAttribute s "address" props = (props', .ok ())) :
    ∃ vs v, (Node.attribute s "address" props').property? "at" = some (.literal vs v) := by
  unfold checkAttribute at h
  rw [if_neg (by decide), if_pos (by decide)] at h
  split at h
  · next hprops =>
      obtain ⟨rfl, -⟩ := Prod.mk.inj h
      obtain ⟨hliterals, hgiven⟩ := checkProperties_eq_ok hprops
      exact property?_at hliterals ((hgiven rfl).resolve_left Bool.false_ne_true)
  · cases h
  · cases h

theorem property?_of_checkEach {seen names : List String} {attrs attrs' : List Node}
    (h : checkEach seen attrs = (attrs', .ok names)) :
    ∀ attr ∈ attrs', attr.isAttribute "address" = true →
      ∃ vs v, attr.property? "at" = some (.literal vs v) := by
  induction attrs generalizing seen attrs' with
  | nil =>
      obtain ⟨rfl, -⟩ := Prod.mk.inj h
      exact List.forall_mem_nil _
  | cons attr attrs ih =>
      obtain ⟨s, name, props, props', rest, rfl, rfl, hattribute, hrest⟩ := checkEach_cons_eq_ok h
      refine List.forall_mem_cons.2 ⟨fun haddress => ?_, ih hrest⟩
      obtain rfl := eq_of_beq haddress
      exact property?_of_checkAttribute hattribute

end Typing

/-- Checked attributes place the variable. -/
theorem exists_placementOf {attrs attrs' : List Node}
    (h : Typing.checkAttributes attrs = (attrs', .ok ())) (name : String) :
    ∃ placement, placementOf name attrs' = .ok placement := by
  obtain ⟨names, heach⟩ := Typing.checkAttributes_eq_ok h
  unfold placementOf
  split
  · exact ⟨_, rfl⟩
  · split
    · exact ⟨_, rfl⟩
    · next attr hattr =>
        obtain ⟨vs, v, hproperty⟩ := Typing.property?_of_checkEach heach attr
          (List.mem_of_find?_eq_some hattr) (List.find?_some hattr)
        rw [hproperty]
        exact ⟨_, rfl⟩

/-! ## One declaration -/

namespace BlockTree

variable {symbols : List Symbol} {main : List Instr} {boots : List (String × List Instr)}

theorem declare_flat_new {symbol : Symbol} (hresolved : symbol.ty.isResolved = true)
    (hnew : ∀ s ∈ symbols, s.name ≠ symbol.name) :
    declare symbol (flat symbols main boots) = .ok () (flat (symbols ++ [symbol]) main boots) := by
  have hnone : ((rootBlock symbols main boots.length).symbol? symbol.name).isSome = false := by
    rw [Block.symbol?, Option.isSome_eq_false_iff, Option.isNone_iff_eq_none, List.find?_eq_none]
    exact fun s hs hname => hnew s hs (by simpa using hname)
  have hfilter : ((flat symbols main boots).block? (flat symbols main boots).current).filter
      (fun b => (b.symbol? symbol.name).isSome) = none := by
    rw [show (flat symbols main boots).block? (flat symbols main boots).current =
      some (rootBlock symbols main boots.length) from rfl, Option.filter_some, hnone]
    rfl
  rw [declare, if_pos hresolved, hfilter, updateCurrent_flat]
  rfl

theorem addInit_error {t : BlockTree} {name : String} {ty : Ty} {init : Node}
    {stop : Stop DeclError} (h : t.addInit name ty init = .error stop) :
    init.initCode { symbol := name } ty = .error stop := by
  unfold addInit at h
  split at h
  · next hcode =>
      cases h
      exact hcode
  · cases h

/-- A declaration with a type, a place and a name of its own stops with the code
of its value. -/
theorem addDecl_flat_error {s : Slot} {name : String} {declared : Ty} {init : Option Node}
    {attrs : List Node} {stop : Stop DeclError} {j j' : Journal}
    (h : (flat symbols main boots).addDecl (.var s name declared init attrs) j = .error stop j')
    (hresolved : s.ty.isResolved = true) (hplaced : ∃ p, placementOf name attrs = .ok p)
    (hnew : ∀ symbol ∈ symbols, symbol.name ≠ name) :
    ∃ value, init = some value ∧ value.initCode { symbol := name } s.ty = .error stop := by
  obtain ⟨p, hp⟩ := hplaced
  rw [addDecl, if_pos hresolved] at h
  rcases bind_eq_error_iff.1 h with hfail | ⟨placement, j₁, -, h₁⟩
  · rw [hp] at hfail
    cases hfail
  · rcases bind_eq_error_iff.1 h₁ with hfail | ⟨t, j₂, hsymbol, h₂⟩
    · have hdeclare := @declare_flat_new symbols main boots ⟨name, s.ty, placement⟩ hresolved hnew
      rw [addSymbol, hdeclare] at hfail
      cases hfail
    · obtain ⟨-, rfl⟩ := addSymbol_flat hsymbol
      cases init with
      | none => cases h₂
      | some value =>
          refine ⟨value, rfl, ?_⟩
          dsimp only at h₂
          cases hboot : (attrs.find? (Node.isAttribute "startup")).isSome with
          | true =>
              simp only [hboot, ↓reduceIte] at h₂
              rcases addStartup_flat_cases _ main boots name s.ty value j₂ with
                ⟨code, j₃, -, hadded⟩ | ⟨e', hcode, hfailed⟩
              · cases h₂.symm.trans hadded
              · cases h₂.symm.trans hfailed
                exact hcode
          | false =>
              simp only [hboot, Bool.false_eq_true, ↓reduceIte] at h₂
              split at h₂
              · cases h₂
              · next hinit =>
                  cases h₂
                  exact addInit_error hinit

theorem Lowered.names {nodes : List Node} (h : Lowered nodes symbols main boots) :
    symbols.map (some ·.name) = nodes.map Node.name? := by
  induction h with
  | nil => rfl
  | plain _ ih => rw [List.map_cons, List.map_cons, ih]; rfl
  | main _ _ _ ih => rw [List.map_cons, List.map_cons, ih]; rfl
  | boot _ _ _ ih => rw [List.map_cons, List.map_cons, ih]; rfl

end BlockTree

/-! ## Units -/

/-- The initial value of a declaration and all values inside it. -/
def Node.values : Node → List Node
  | .var _ _ _ (some init) _ => init.parts
  | _ => []

/-- All slots of a declaration have sizes, and its array literals can be
counted. -/
structure Node.StorableDecl (node : Node) : Prop where
  sized : ∃ n, node.ty.size = .ok n
  values : ∀ value ∈ node.values, value.Storable

instance (node : Node) : Decidable node.StorableDecl :=
  decidable_of_iff ((∃ n, node.ty.size = .ok n) ∧ ∀ value ∈ node.values, value.Storable)
    ⟨fun ⟨hsized, hvalues⟩ => ⟨hsized, hvalues⟩, fun h => ⟨h.sized, h.values⟩⟩

/-- The types in the slots of a declaration and of the values inside it. -/
def Node.slots (node : Node) : List Ty := node.ty :: node.values.map Node.ty

/-- A slot that has a size does not overflow. -/
theorem Node.StorableDecl.not_overflows {node : Node} (h : node.StorableDecl) :
    ∀ ty ∈ node.slots, ¬ ty.Overflows := by
  have hsized : ∀ ty : Ty, (∃ n, ty.size = .ok n) → ¬ ty.Overflows :=
    fun ty ⟨n, hn⟩ hoverflows => hoverflows.not_sized (Ty.size_ok hn).2
  refine List.forall_mem_cons.2 ⟨hsized _ h.sized, fun ty hty => ?_⟩
  obtain ⟨value, hvalue, rfl⟩ := List.mem_map.1 hty
  exact hsized _ (h.values value hvalue).sized

/-- Why a declaration has no code, in a unit with the given records: a size is
missing, or a number does not fit its word.  The latter is a type that overflows, if
no record name is ambiguous. -/
inductive Node.Lacks (records : String → List Ty → Prop) (node : Node) : Stop DeclError → Prop where
  | size {e : DeclError} (h : e.Unsized) (hnot : ¬node.StorableDecl) : Lacks records node (.error e)
  | room (h : Ty.Unambiguous records → ∃ ty ∈ node.slots, ty.Overflows) :
      Lacks records node (.fault .overflow)

namespace BlockTree

variable {symbols : List Symbol} {main : List Instr} {boots : List (String × List Instr)}
  {records : String → List Ty → Prop}

/-- An accepted declaration stops for want of a size or of room. -/
theorem addDecl_error {earlier : List Node} {env env' : Typing.Env} {node node' : Node}
    (hnode : Typing.Declared env node node' env') (hknown : Typing.Known earlier env)
    (hnames : ∀ symbol ∈ symbols, some symbol.name ∈ earlier.map Node.name?)
    (henv : ∀ name ty, env.find? name = some ty → ty.Within records)
    {nodes : List Node} (hwritten : ∀ t ∈ Node.writtenAll (node :: nodes), t.Within records)
    {stop : Stop DeclError} {j j' : Journal}
    (h : (flat symbols main boots).addDecl node' j = .error stop j') :
    node'.Lacks records stop := by
  obtain ⟨hsound, -, hfresh, -⟩ := hnode.sound hknown
  cases hnode with
  | @var s name declared ty init init' attrs attrs' _ hattrs hinit =>
      have hnew : ∀ symbol ∈ symbols, symbol.name ≠ name := by
        rintro symbol hsymbol rfl
        exact hfresh (hnames symbol hsymbol)
      obtain ⟨value, rfl, herror⟩ :=
        addDecl_flat_error h hsound.resolved (exists_placementOf hattrs name) hnew
      obtain ⟨hvalue, haccepts⟩ := hsound.value value rfl
      cases stop with
      | error e =>
          obtain ⟨hunsized, hpart⟩ := Node.initCode_error hvalue haccepts herror
          refine .size hunsized fun hstorable => ?_
          obtain ⟨part, hmem, hnot⟩ := hpart hstorable.sized
          exact hnot (hstorable.values part hmem)
      | fault f =>
          obtain rfl := Node.initCode_fault herror
          refine .room fun hrecords => ?_
          cases hinit with
          | present hfitted =>
              obtain ⟨hdeclared, hvalueWritten, -⟩ := Node.forall_writtenAll_var hwritten
              rcases hfitted.overflows hrecords henv hdeclared (hvalueWritten _ rfl) herror with
                hslot | ⟨part, hpart, hoverflows⟩
              · exact ⟨_, List.mem_cons_self, hslot⟩
              · exact ⟨_, List.mem_cons_of_mem _ (List.mem_map_of_mem hpart), hoverflows⟩

/-- An accepted unit stops for want of a size or of room. -/
theorem addDecls_error {env env' : Typing.Env} {nodes nodes' : List Node}
    (haccepted : Typing.Accepted env nodes nodes' env') {earlier : List Node}
    (hknown : Typing.Known earlier env)
    (hnames : ∀ symbol ∈ symbols, some symbol.name ∈ earlier.map Node.name?)
    (henv : ∀ name ty, env.find? name = some ty → ty.Within records)
    (hwritten : ∀ t ∈ Node.writtenAll nodes, t.Within records) {stop : Stop DeclError}
    {j j' : Journal} (h : (flat symbols main boots).addDecls nodes' j = .error stop j') :
    ∃ node ∈ nodes', node.Lacks records stop := by
  induction haccepted generalizing earlier symbols main boots j with
  | nil => cases h
  | @cons env mid env' node node' nodes nodes' hnode _ ih =>
      rcases bind_eq_error_iff.1 h with hfirst | ⟨t, j₁, hfirst, hrest⟩
      · exact ⟨node', List.mem_cons_self,
          addDecl_error hnode hknown hnames henv hwritten hfirst⟩
      · obtain ⟨symbol, main', boots', -, rfl, hlowered⟩ := addDecl_flat hfirst
        obtain ⟨-, -, -, hmid⟩ := hnode.sound hknown
        have hname := (hlowered _ _ _ _ .nil).names
        have hnames' : ∀ s ∈ symbols ++ [symbol],
            some s.name ∈ (earlier ++ [node']).map Node.name? := by
          intro s hs
          rw [List.map_append, ← hname]
          rcases List.mem_append.1 hs with hs | hs
          · exact List.mem_append_left _ (hnames s hs)
          · exact List.mem_append_right _ (List.mem_map_of_mem hs)
        obtain ⟨other, hother, hlacks⟩ :=
          ih hmid hnames' (hnode.within henv hwritten)
            (fun t ht => hwritten t (List.mem_append_right _ ht)) hrest
        exact ⟨other, List.mem_cons_of_mem _ hother, hlacks⟩

/-- The tree of a unit that the analysis accepts exists, or a type has no size, or a
number does not fit its word.  There is no such number if records of one name have
the same members and no slot overflows, and there is no error if all slots have sizes
and the array literals can be counted. -/
theorem ofDecls_of_analyze {decls : List Node} {env : Typing.Env}
    (h : (Typing.analyze decls).result = .ok env) (j : Journal) :
    ((∃ t j', ofDecls (Typing.analyze decls).decls j = .ok t j') ∨
      (∃ ty position j', ofDecls (Typing.analyze decls).decls j =
        .error (.error (.type (.unsized ty) position)) j') ∨
      ∃ j', ofDecls (Typing.analyze decls).decls j = .error (.fault .overflow) j') ∧
    (Node.Consistent decls →
      (∀ node ∈ (Typing.analyze decls).decls, ∀ ty ∈ node.slots, ¬ ty.Overflows) →
      ∀ f j', ofDecls (Typing.analyze decls).decls j ≠ .error (.fault f) j') ∧
    ((∀ node ∈ (Typing.analyze decls).decls, node.StorableDecl) →
      (∀ e j', ofDecls (Typing.analyze decls).decls j ≠ .error (.error e) j') ∧
      (Node.Consistent decls → ∃ t j', ofDecls (Typing.analyze decls).decls j = .ok t j')) := by
  cases htree : ofDecls (Typing.analyze decls).decls j with
  | ok t j' => simp
  | error stop j' =>
      have hflat : (flat [] [] []).addDecls (Typing.analyze decls).decls j = .error stop j' := htree
      obtain ⟨node, hnode, hlacks⟩ := addDecls_error (Typing.accepted_of_analyze h)
        Typing.known_nil (List.forall_mem_nil _) (fun _ _ hx => by cases hx)
        Node.within_records hflat
      cases hlacks with
      | size hunsized hnot =>
          obtain ⟨ty, position, rfl⟩ := hunsized
          refine ⟨.inr (.inl ⟨ty, position, j', rfl⟩), fun _ _ f j₁ hfault => ?_,
            fun hstorable => absurd (hstorable node hnode) hnot⟩
          cases hfault
      | room hroom =>
          have hdiffer : (∀ ty ∈ node.slots, ¬ ty.Overflows) → ¬ Node.Consistent decls := by
            intro hfits hconsistent
            obtain ⟨ty, hty, hoverflows⟩ := hroom hconsistent.unambiguous
            exact hfits ty hty hoverflows
          refine ⟨.inr (.inr ⟨j', rfl⟩),
            fun hconsistent hfits => absurd hconsistent (hdiffer (hfits node hnode)),
            fun hstorable => ⟨fun e j₁ herror => ?_, fun hconsistent => ?_⟩⟩
          · cases herror
          · exact absurd hconsistent (hdiffer (hstorable node hnode).not_overflows)

/-- A unit with a fixed address, a startup value and casts inside an array. -/
def recordUnit : List Node := [
  .var {} "r" (.record "pair" [.byte, .word]) none
    [.attribute {} "address" [.property {} "at" (.literal {} 0x700)]],
  .var {} "n" .word (some (.cast { ty := .byte } .explicit (.literal {} 0x1234)))
    [.attribute {} "startup" []],
  .var {} "t" (.array (.record "pair" [.byte, .word]) 3) (some (.array {} [.ident {} "r",
    .cast { ty := .record "pair" [.byte, .word] } .implicit (.ident {} "r")])) []]

theorem ofDecls_recordUnit :
    (∃ env, (Typing.analyze recordUnit).result = .ok env) ∧ Node.Consistent recordUnit ∧
      (∀ node ∈ (Typing.analyze recordUnit).decls, node.StorableDecl) ∧
      ∃ t j', ofDecls (Typing.analyze recordUnit).decls #[] = .ok t j' := by
  have hstorable : ∀ node ∈ (Typing.analyze recordUnit).decls, node.StorableDecl := by decide
  have hconsistent : Node.Consistent recordUnit := by decide +kernel
  exact ⟨⟨_, rfl⟩, hconsistent, hstorable,
    ((ofDecls_of_analyze rfl #[]).2.2 hstorable).2 hconsistent⟩

/-- More words than a length can count bytes of. -/
def immenseUnit : List Node :=
  [.var {} "x" (.array .word 0x8000000000000000) (some (.array {} [.literal {} 1])) []]

/-- Records of one name and different members, all of them small enough: the cast puts
the third one where the address space has ended. -/
def outgrownUnit : List Node :=
  let row (member : Nat) : Ty := .array (.record "P" [.array .byte member]) 3
  let empty : Node := .array {} [.ident {} "e", .ident {} "e", .ident {} "e"]
  [.var {} "e" (.record "P" []) none [],
    .var {} "t" (.array (row 10000) 2) (some (.array {} [empty,
      .cast { ty := row 21845 } .explicit empty])) []]

/-- Not every accepted unit has a tree or an error: an array can overflow, and so can a
place where all slots have sizes. -/
theorem ofDecls_overflow :
    ((∃ env, (Typing.analyze immenseUnit).result = .ok env) ∧ Node.Consistent immenseUnit ∧
      ∃ j', ofDecls (Typing.analyze immenseUnit).decls #[] = .error (.fault .overflow) j') ∧
    (∃ env, (Typing.analyze outgrownUnit).result = .ok env) ∧ ¬ Node.Consistent outgrownUnit ∧
      (∀ node ∈ (Typing.analyze outgrownUnit).decls, node.StorableDecl) ∧
      ∃ j', ofDecls (Typing.analyze outgrownUnit).decls #[] = .error (.fault .overflow) j' :=
  ⟨⟨⟨_, rfl⟩, by decide +kernel, _, rfl⟩, ⟨_, rfl⟩, by decide +kernel, by decide +kernel, _, rfl⟩

end BlockTree

end Cartridge
