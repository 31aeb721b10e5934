/-
# `Cartridge.Proofs.Typing.Preservation` — what an analysis leaves of a unit

An analysis answers with the tree that it was given, and it has written into it.
What it may write are types, and one kind of node:

    declaration                     the type of the variable
    literal, ident, array, &        the type that was found
    a literal after `at`            word
    the initial value of a word     a cast around it, if the value is a byte

*Blank* is what is left of a tree without these types.  The slot of a cast is none
of them: the type in it is what the cast is for.  So two trees with the same blank
are the same tree but for types that an analysis may write.

A declaration gets its cast only if all of its check succeeds (`widens`), and what
stands behind a fatal problem is not looked at.

Proved here: an analysis keeps a unit, whatever its result (`analyze_keeps`).
-/
import Cartridge.Proofs.Success
import Cartridge.Proofs.Typing.Idempotence

namespace Cartridge

/-! ## Blanks -/

namespace Node

mutual

/-- A value without the types that a check may write. -/
def blank : Node → Node
  | .literal s value => .literal (s.retype .unknown) value
  | .ident s name => .ident (s.retype .unknown) name
  | .array s elems => .array (s.retype .unknown) (blankAll elems)
  | .addressOf s operand => .addressOf (s.retype .unknown) operand.blank
  | .cast s kind operand => .cast s kind operand.blank
  | node => node

/-- Values without the types that a check may write. -/
def blankAll : List Node → List Node
  | [] => []
  | node :: nodes => node.blank :: blankAll nodes

end

/-- A property of `address` without the types that a check may write. -/
def blankProperty : Node → Node
  | .property s key (.literal vs v) =>
      .property s key (.literal (if key == "at" then vs.retype .unknown else vs) v)
  | node => node

/-- An attribute without the types that a check may write. -/
def blankAttribute : Node → Node
  | .attribute s name props =>
      .attribute s name (if name == "address" then props.map blankProperty else props)
  | node => node

/-- A declaration without the types that a check may write. -/
def blankDecl : Node → Node
  | .var s name declared init attrs =>
      .var (s.retype .unknown) name declared (init.map blank) (attrs.map blankAttribute)
  | node => node

/-- A declaration without the cast around its initial value. -/
def unwidened : Node → Node
  | .var s name declared (some (.cast _ _ init)) attrs => .var s name declared (some init) attrs
  | node => node

end Node

namespace Typing

open Node (blank blankAll blankProperty blankAttribute)

/-! ## Values -/

mutual

theorem blank_infer (env : Env) (hint : Ty) :
    ∀ node : Node, (infer env hint node).1.blank = node.blank
  | .literal s value => rfl
  | .ident s name => by
      rw [infer]
      split <;> rfl
  | .array s elems => by
      have helems := blankAll_inferElems env hint.element (elementStart hint.element elems) elems
      rw [infer]
      split
      · rfl
      · split
        · next elems' p h =>
            rw [h] at helems
            rw [blank, blank, helems]
        · next elems' elem h =>
            rw [h] at helems
            rw [blank, blank, helems]
            rfl
  | .addressOf s operand => by
      have hoperand := blank_infer env .unknown operand
      rw [infer]
      split
      · split
        · next operand' p h =>
            rw [h] at hoperand
            rw [blank, blank, hoperand]
        · next operand' target h =>
            rw [h] at hoperand
            rw [blank, blank, hoperand]
            rfl
      · rfl
  | .cast s kind operand => by
      have hoperand := blank_infer env .unknown operand
      rw [infer]
      split
      · split
        · next operand' p h =>
            rw [h] at hoperand
            rw [blank, blank, hoperand]
        · next operand' source h =>
            rw [h] at hoperand
            split
            · rw [blank, blank, hoperand]
            · rw [blank, blank, hoperand]
      · rfl
  | .var .. => rfl
  | .attribute .. => rfl
  | .property .. => rfl

theorem blankAll_inferElems (env : Env) (hint elem : Ty) :
    ∀ nodes : List Node, blankAll (inferElems env hint elem nodes).1 = blankAll nodes
  | [] => rfl
  | node :: nodes => by
      have hnode := blank_infer env hint node
      rw [inferElems]
      split
      · next node' p h =>
          rw [h] at hnode
          rw [blankAll, blankAll, hnode]
      · next node' found h =>
          rw [h] at hnode
          split
          · rw [blankAll, blankAll, hnode]
          · next elem' _ =>
              rw [blankAll, blankAll, hnode, blankAll_inferElems env hint elem' nodes]

end

/-! ## Attributes -/

theorem blank_checkProperties (found : Bool) (props : List Node) :
    (checkProperties found props).1.map blankProperty = props.map blankProperty := by
  induction props generalizing found with
  | nil => rfl
  | cons prop props ih =>
      cases prop with
      | property s key value =>
          unfold checkProperties
          split
          · rfl
          · next hkey =>
              cases value with
              | literal vs v =>
                  have hat : (key == "at") = true := by simpa using hkey
                  rw [List.map_cons, List.map_cons, ih true, blankProperty, blankProperty,
                    if_pos hat, if_pos hat]
                  rfl
              | _ => rfl
      | _ => rfl

theorem blank_checkAttribute (s : Slot) (name : String) (props : List Node) :
    blankAttribute (.attribute s name (checkAttribute s name props).1) =
      blankAttribute (.attribute s name props) := by
  have hprops := blank_checkProperties false props
  unfold checkAttribute
  split
  · rfl
  · split
    · next haddress =>
        rw [blankAttribute, blankAttribute, if_pos haddress, if_pos haddress]
        split
        all_goals
          next h =>
            rw [h] at hprops
            rw [hprops]
    · rfl

theorem blank_checkEach (seen : List String) (attrs : List Node) :
    (checkEach seen attrs).1.map blankAttribute = attrs.map blankAttribute := by
  induction attrs generalizing seen with
  | nil => rfl
  | cons attr attrs ih =>
      cases attr with
      | «attribute» s name props =>
          have hattr := blank_checkAttribute s name props
          unfold checkEach
          split
          · rfl
          · split
            · next h =>
                rw [h] at hattr
                rw [List.map_cons, List.map_cons, hattr]
            · next h =>
                rw [h] at hattr
                rw [List.map_cons, List.map_cons, hattr, ih]
      | _ => rfl

theorem blank_checkAttributes (attrs : List Node) :
    (checkAttributes attrs).1.map blankAttribute = attrs.map blankAttribute := by
  have hattrs := blank_checkEach [] attrs
  unfold checkAttributes
  split
  · next h =>
      rw [h] at hattrs
      exact hattrs
  · next h =>
      rw [h] at hattrs
      split <;> exact hattrs

/-! ## Declarations -/

/-- Does the check succeed, with a word declared and a byte found? -/
def widens (env : Env) (node : Node) : Bool :=
  match node with
  | .var _ _ .word (some init) _ =>
      (checkDecl env node).outcome.isOk && (infer env .word init).2.toOption == some .byte
  | _ => false

theorem widens_iff {env : Env} {node : Node} :
    widens env node = true ↔
      ∃ s name init attrs typed, node = .var s name .word (some init) attrs ∧
        (checkDecl env node).outcome = .ok typed ∧ (infer env .word init).2 = .ok .byte := by
  have hok : ∀ r : Except Problem (String × Ty), r.isOk = true ↔ ∃ typed, r = .ok typed := by
    intro r
    cases r <;> simp [Except.isOk, Except.toBool]
  constructor
  · intro h
    unfold widens at h
    split at h
    · obtain ⟨houtcome, hfound⟩ := Bool.and_eq_true_iff.1 h
      obtain ⟨typed, htyped⟩ := (hok _).1 houtcome
      exact ⟨_, _, _, _, typed, rfl, htyped, toOption_eq_some_iff.1 (eq_of_beq hfound)⟩
    · cases h
  · rintro ⟨s, name, init, attrs, typed, rfl, htyped, hfound⟩
    exact Bool.and_eq_true_iff.2 ⟨(hok _).2 ⟨typed, htyped⟩,
      beq_iff_eq.2 (toOption_eq_some_iff.2 hfound)⟩

theorem widens_of_error {env : Env} {node : Node} {p : Problem}
    (h : (checkDecl env node).outcome = .error p) : widens env node = false := by
  rw [Bool.eq_false_iff]
  intro hwidens
  obtain ⟨_, _, _, _, _, -, houtcome, -⟩ := widens_iff.1 hwidens
  cases h.symm.trans houtcome

/-- The check of a declaration keeps it: there is a cast around the initial value
if the declaration widens it, and all else has the same blank. -/
inductive Kept (env : Env) : Node → Node → Prop where
  | filled {node node' : Node} (hnot : widens env node = false)
      (h : node'.blankDecl = node.blankDecl) : Kept env node node'
  | widened {s s' : Slot} {name : String} {init init' : Node} {attrs attrs' : List Node}
      (hwidens : widens env (.var s name .word (some init) attrs) = true)
      (h : (Node.var s' name .word (some init') attrs').blankDecl =
        (Node.var s name .word (some init) attrs).blankDecl) :
      Kept env (.var s name .word (some init) attrs)
        (.var s' name .word (some (.cast ⟨init.position, .word⟩ .implicit init')) attrs')

/-- An initial value is filled in, or it is a byte for a word and is wrapped. -/
theorem resolve_cases {env : Env} {position : Position} {name : String} {declared : Ty}
    {init init' : Option Node} {r : Except Problem Ty}
    (h : resolve env position name declared init = (init', r)) :
    (init'.map blank = init.map blank ∧
      ∀ e, init = some e → declared = .word → (infer env .word e).2 ≠ .ok .byte) ∨
    ∃ e e', declared = .word ∧ init = some e ∧ (infer env .word e).2 = .ok .byte ∧
      init' = some (.cast ⟨e.position, .word⟩ .implicit e') ∧ e'.blank = e.blank ∧
      r = .ok .word := by
  cases init with
  | none =>
      obtain ⟨rfl, -⟩ := Prod.mk.inj h
      exact .inl ⟨rfl, fun e he => by cases he⟩
  | some e =>
      have hblank := blank_infer env declared e
      rw [resolve] at h
      rcases hinfer : infer env declared e with ⟨e₁, p | found⟩
      · rw [hinfer] at h hblank
        obtain ⟨rfl, -⟩ := Prod.mk.inj h
        refine .inl ⟨congrArg some hblank, ?_⟩
        rintro _ ⟨⟩ rfl hok
        rw [hinfer] at hok
        cases hok
      · rcases hfit : fit position declared found e₁ with ⟨e₂, answer⟩
        rw [hinfer] at h hblank
        dsimp only at h
        rw [hfit] at h
        obtain ⟨rfl, rfl⟩ := Prod.mk.inj h
        by_cases hbyte : declared = .word ∧ found = .byte
        · obtain ⟨rfl, rfl⟩ := hbyte
          have hwidened : fit position .word .byte e₁ = (e₁.widened .word, .ok .word) := rfl
          rw [hwidened] at hfit
          cases hfit
          refine .inr ⟨e, e₁, rfl, rfl, by rw [hinfer], ?_, hblank, rfl⟩
          rw [← (shape_of_infer hinfer).1]
          rfl
        · rcases fit_cases hfit with rfl | ⟨hword, hfound, -⟩
          · refine .inl ⟨congrArg some hblank, ?_⟩
            rintro _ ⟨⟩ rfl hok
            rw [hinfer] at hok
            cases hok
            exact hbyte ⟨rfl, rfl⟩
          · exact absurd ⟨hword, hfound⟩ hbyte

theorem blankDecl_var {s s' : Slot} {name : String} {declared : Ty} {init init' : Option Node}
    {attrs attrs' : List Node} (hposition : s'.position = s.position)
    (hinit : init'.map blank = init.map blank)
    (hattrs : attrs'.map blankAttribute = attrs.map blankAttribute) :
    (Node.var s' name declared init' attrs').blankDecl =
      (Node.var s name declared init attrs).blankDecl := by
  rw [Node.blankDecl, Node.blankDecl, hinit, hattrs, Slot.retype, Slot.retype, hposition]

/-- What the check of one declaration does to it. -/
theorem kept_checkDecl (env : Env) (node : Node) : Kept env node (checkDecl env node).node := by
  cases node with
  | var s name declared init attrs =>
      by_cases hname : env.contains name = true
      · have hcheck := @checkDecl_duplicate env s name declared init attrs hname
        rw [hcheck]
        exact .filled (widens_of_error (congrArg Checked.outcome hcheck)) rfl
      · have hblank := blank_checkAttributes attrs
        rcases hattrs : checkAttributes attrs with ⟨attrs', p | _⟩
        · rw [hattrs] at hblank
          have hcheck := @checkDecl_attributes env s name declared init attrs attrs' hname p hattrs
          rw [hcheck]
          exact .filled (widens_of_error (congrArg Checked.outcome hcheck))
            (blankDecl_var rfl rfl hblank)
        · rw [hattrs] at hblank
          rcases hinit : resolve env s.position name declared init with ⟨init', p | ty⟩
          · have hcheck := checkDecl_refused hname hattrs hinit
            rw [hcheck]
            rcases resolve_cases hinit with ⟨hfilled, -⟩ | ⟨_, _, -, -, -, -, -, hok⟩
            · exact .filled (widens_of_error (congrArg Checked.outcome hcheck))
                (blankDecl_var rfl hfilled hblank)
            · cases hok
          · have hcheck := checkDecl_accepted hname hattrs hinit
            rw [hcheck]
            rcases resolve_cases hinit with
              ⟨hfilled, hnot⟩ | ⟨e, e', rfl, rfl, hbyte, rfl, hfilled, -⟩
            · refine .filled ?_ (blankDecl_var rfl hfilled hblank)
              rw [Bool.eq_false_iff]
              intro hwidens
              obtain ⟨_, _, e, _, _, hnode, -, hbyte⟩ := widens_iff.1 hwidens
              cases hnode
              exact hnot e rfl rfl hbyte
            · refine .widened ?_ (blankDecl_var rfl (congrArg some hfilled) hblank)
              exact widens_iff.2 ⟨s, name, e, attrs, _, rfl, congrArg Checked.outcome hcheck, hbyte⟩
  | _ => exact .filled rfl rfl

/-! ## Units -/

/-- A unit that is checked from an environment on is kept: what was checked is kept,
and what stands behind a fatal problem is as it was. -/
inductive KeptAll : Env → List Node → List Node → Prop where
  | nil (env : Env) : KeptAll env [] []
  | next {env : Env} {node node' : Node} {nodes nodes' : List Node} (hnode : Kept env node node')
      (hgoes : ∀ f, (checkDecl env node).outcome ≠ .error (.fatal f))
      (hnodes : KeptAll (checkDecl env node).env nodes nodes') :
      KeptAll env (node :: nodes) (node' :: nodes')
  | stop {env : Env} {node node' : Node} {nodes : List Node} {f : Fatal}
      (hnode : Kept env node node') (hfatal : (checkDecl env node).outcome = .error (.fatal f)) :
      KeptAll env (node :: nodes) (node' :: nodes)

theorem keptAll_checkAll (env : Env) (found : List Diagnostic) (nodes : List Node) :
    KeptAll env nodes (checkAll env found nodes).decls := by
  induction nodes generalizing env found with
  | nil => exact .nil env
  | cons node nodes ih =>
      have hnode := kept_checkDecl env node
      rcases houtcome : (checkDecl env node).outcome with (d | f) | typed
      · simp only [checkAll, houtcome]
        refine .next hnode ?_ (ih _ _)
        intro f hfatal
        cases houtcome.symm.trans hfatal
      · simp only [checkAll, houtcome]
        exact .stop hnode houtcome
      · simp only [checkAll, houtcome]
        refine .next hnode ?_ (ih _ _)
        intro f hfatal
        cases houtcome.symm.trans hfatal

/-- The unit that an analysis left of another one, without the casts that the
analysis put into it. -/
def restored (env : Env) : List Node → List Node → List Node
  | node :: nodes, node' :: nodes' =>
      (if widens env node then node'.unwidened else node') ::
        match (checkDecl env node).outcome with
        | .error (.fatal _) => nodes'
        | _ => restored (checkDecl env node).env nodes nodes'
  | _, nodes' => nodes'

theorem Kept.blank_unwidened {env : Env} {node node' : Node} (h : Kept env node node') :
    (if widens env node then node'.unwidened else node').blankDecl = node.blankDecl := by
  cases h with
  | filled hnot hblank => simp only [hnot, Bool.false_eq_true, if_false, hblank]
  | widened hwidens hblank => simp only [hwidens, if_true, Node.unwidened, hblank]

theorem KeptAll.blank_restored {env : Env} {nodes nodes' : List Node}
    (h : KeptAll env nodes nodes') :
    (restored env nodes nodes').map Node.blankDecl = nodes.map Node.blankDecl := by
  induction h with
  | nil env => rfl
  | @next env node node' nodes nodes' hnode hgoes hnodes ih =>
      have hrest : restored env (node :: nodes) (node' :: nodes') =
          (if widens env node then node'.unwidened else node') ::
            restored (checkDecl env node).env nodes nodes' := by
        rw [restored]
        congr 1
        split
        · next f hfatal => exact absurd hfatal (hgoes f)
        · rfl
      rw [hrest, List.map_cons, List.map_cons, hnode.blank_unwidened, ih]
  | @stop env node node' nodes f hnode hfatal =>
      rw [restored, hfatal, List.map_cons, List.map_cons, hnode.blank_unwidened]

/-- An analysis keeps the unit, whether it accepts it, complains or gives up.  Every
declaration that it checks is the one that was there, but for types and for a cast
around the initial value where a word is declared, a byte is found and the check
succeeds; what stands behind a fatal problem is not touched.  So without these casts
and without the types that it may write, the unit is what it was. -/
theorem analyze_keeps (decls : List Node) :
    KeptAll {} decls (analyze decls).decls ∧
      (restored {} decls (analyze decls).decls).map Node.blankDecl = decls.map Node.blankDecl := by
  have hkept : KeptAll {} decls (analyze decls).decls := keptAll_checkAll {} [] decls
  exact ⟨hkept, hkept.blank_restored⟩

/-- The second value is a byte for a word, the third one has its cast already, and in
the fourth one a name is not declared. -/
example :
    (analyze [
      .var {} "a" .byte (some (.literal {} 3)) [],
      .var {} "b" .word (some (.ident ⟨⟨2, 9⟩, .unknown⟩ "a")) [],
      .var {} "c" .word (some (.cast ⟨{}, .word⟩ .implicit (.ident {} "a"))) [],
      .var {} "d" .word
        (some (.array {} [.literal {} 1, .ident {} "x", .literal {} 2])) []]).decls =
    [ .var ⟨{}, .byte⟩ "a" .byte (some (.literal ⟨{}, .byte⟩ 3)) [],
      .var ⟨{}, .word⟩ "b" .word
        (some (.cast ⟨⟨2, 9⟩, .word⟩ .implicit (.ident ⟨⟨2, 9⟩, .byte⟩ "a"))) [],
      .var ⟨{}, .word⟩ "c" .word (some (.cast ⟨{}, .word⟩ .implicit (.ident ⟨{}, .byte⟩ "a"))) [],
      .var {} "d" .word
        (some (.array {} [.literal ⟨{}, .byte⟩ 1, .ident {} "x", .literal {} 2])) []] := rfl

end Typing

end Cartridge
