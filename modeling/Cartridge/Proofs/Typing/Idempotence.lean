/-
# `Cartridge.Proofs.Typing.Idempotence` — analysing a unit a second time

A session analyses its unit whenever it is asked for a result, and the unit that
it holds is what the analysis before has left: slots filled, values wrapped in
casts, or all of this down to the place where a problem stopped it.  What the
second analysis meets there:

    literal, ident, array, addressOf    a slot that it writes and never reads
    cast                                a slot that it reads and never writes
    `at` of an attribute                a literal whose slot is a word by now
    a widened value                     a cast, where the first one met its operand

Only the last line is more than reading the same tree again: the operand of a
cast is checked without a hint, and the first check had one.  It was a word, and
the value was a byte all the same, so it is no literal, and nothing but literals
and arrays looks at the hint (`infer_of_byte`).

Proved here: a second analysis changes nothing and answers what the first one
did, whether that was an environment, diagnostics or a fatal complaint
(`analyze_analyze`).
-/
import Cartridge.Proofs.Typing.Judgment

namespace Cartridge.Typing

/-- What a pass leaves of `a` is left alone by a second pass, which gives the same
answer. -/
def SettlesAt {α β : Type} (pass : α → α × β) (a : α) : Prop :=
  ∀ ⦃a' : α⦄ ⦃answer : β⦄, pass a = (a', answer) → pass a' = (a', answer)

/-- A second pass has nothing to do on what the first one left, wherever that began. -/
def Settles {α β : Type} (pass : α → α × β) : Prop := ∀ {a : α}, SettlesAt pass a

theorem settlesAt_of_eq {α β : Type} {pass : α → α × β} {a : α} {answer : β}
    (h : pass a = (a, answer)) : SettlesAt pass a := by
  intro a' answer' h'
  obtain ⟨rfl, rfl⟩ := Prod.mk.inj (h.symm.trans h')
  exact h

/-! ## Values -/

/-- A check of a value keeps what kind of node it is, and where it stands. -/
theorem shape_of_infer {env : Env} {hint : Ty} {node node' : Node} {r : Except Problem Ty}
    (h : infer env hint node = (node', r)) :
    node'.position = node.position ∧ node'.isIdent = node.isIdent := by
  unfold infer at h
  repeat' split at h
  all_goals
    obtain ⟨rfl, -⟩ := Prod.mk.inj h
    exact ⟨rfl, rfl⟩

theorem length_of_inferElems {env : Env} {hint elem : Ty} {nodes nodes' : List Node}
    {r : Except Problem Ty} (h : inferElems env hint elem nodes = (nodes', r)) :
    nodes'.length = nodes.length := by
  induction nodes generalizing elem nodes' with
  | nil =>
      obtain ⟨rfl, -⟩ := Prod.mk.inj h
      rfl
  | cons node nodes ih =>
      unfold inferElems at h
      split at h
      · obtain ⟨rfl, -⟩ := Prod.mk.inj h
        rfl
      · split at h
        · obtain ⟨rfl, -⟩ := Prod.mk.inj h
          rfl
        · obtain ⟨rfl, hrest⟩ := Prod.mk.inj h
          exact congrArg (· + 1) (ih (Prod.ext rfl hrest))

theorem isEmpty_of_length {nodes nodes' : List Node} (h : nodes'.length = nodes.length) :
    nodes'.isEmpty = nodes.isEmpty := by
  rw [Bool.eq_iff_iff, List.isEmpty_iff_length_eq_zero, List.isEmpty_iff_length_eq_zero, h]

/-- Of the elements themselves only their number matters for the hint. -/
theorem elementStart_of_length {hint : Ty} {nodes nodes' : List Node}
    (h : nodes'.length = nodes.length) : elementStart hint nodes' = elementStart hint nodes := by
  rw [elementStart, elementStart, isEmpty_of_length h]

section Kinds

variable {env : Env} {hint : Ty} {s : Slot}

theorem settlesAt_literal {value : UInt16} : SettlesAt (infer env hint) (.literal s value) := by
  intro node' r h
  obtain ⟨rfl, rfl⟩ := Prod.mk.inj h
  rfl

theorem settlesAt_ident {name : String} : SettlesAt (infer env hint) (.ident s name) := by
  intro node' r h
  unfold infer at h
  split at h
  · next hfind =>
      obtain ⟨rfl, rfl⟩ := Prod.mk.inj h
      rw [infer, hfind]
  · next hfind =>
      obtain ⟨rfl, rfl⟩ := Prod.mk.inj h
      rw [infer, hfind]
  · next ty hunknown hfind =>
      obtain ⟨rfl, rfl⟩ := Prod.mk.inj h
      rw [infer, hfind]
      cases ty with
      | unknown => exact absurd rfl hunknown
      | _ => rfl

/-- An array settles if its elements do: what is asked of them depends on their
number alone. -/
theorem settlesAt_array {elems : List Node}
    (helems : ∀ elem, SettlesAt (inferElems env hint.element elem) elems) :
    SettlesAt (infer env hint) (.array s elems) := by
  intro node' r h
  unfold infer at h
  split at h
  · next hempty =>
      obtain ⟨rfl, rfl⟩ := Prod.mk.inj h
      rw [infer, if_pos hempty]
  · next hempty =>
      split at h
      · next elems' p hinfer =>
          obtain ⟨rfl, rfl⟩ := Prod.mk.inj h
          have hlength := length_of_inferElems hinfer
          rw [infer, isEmpty_of_length hlength, if_neg hempty, elementStart_of_length hlength,
            helems _ hinfer]
      · next elems' elem hinfer =>
          obtain ⟨rfl, rfl⟩ := Prod.mk.inj h
          have hlength := length_of_inferElems hinfer
          rw [infer, isEmpty_of_length hlength, if_neg hempty, elementStart_of_length hlength,
            helems _ hinfer, hlength]
          rfl

theorem settlesAt_addressOf {operand : Node} (hoperand : SettlesAt (infer env .unknown) operand) :
    SettlesAt (infer env hint) (.addressOf s operand) := by
  intro node' r h
  unfold infer at h
  split at h
  · next hident =>
      split at h
      · next operand' p hinfer =>
          obtain ⟨rfl, rfl⟩ := Prod.mk.inj h
          rw [infer, (shape_of_infer hinfer).2, if_pos hident, hoperand hinfer]
      · next operand' target hinfer =>
          obtain ⟨rfl, rfl⟩ := Prod.mk.inj h
          rw [infer, (shape_of_infer hinfer).2, if_pos hident, hoperand hinfer]
          rfl
  · next hident =>
      obtain ⟨rfl, rfl⟩ := Prod.mk.inj h
      rw [infer, if_neg hident]

theorem settlesAt_cast {kind : CastKind} {operand : Node}
    (hoperand : SettlesAt (infer env .unknown) operand) :
    SettlesAt (infer env hint) (.cast s kind operand) := by
  intro node' r h
  unfold infer at h
  split at h
  · next hresolved =>
      split at h
      · next operand' p hinfer =>
          obtain ⟨rfl, rfl⟩ := Prod.mk.inj h
          rw [infer, if_pos hresolved, hoperand hinfer]
      · next operand' source hinfer =>
          split at h
          all_goals
            next hcheck =>
              obtain ⟨rfl, rfl⟩ := Prod.mk.inj h
              rw [infer, if_pos hresolved, hoperand hinfer]
              dsimp only
              rw [hcheck]
  · next hresolved =>
      obtain ⟨rfl, rfl⟩ := Prod.mk.inj h
      rw [infer, if_neg hresolved]

theorem settlesAt_cons {elem : Ty} {node : Node} {nodes : List Node}
    (hnode : SettlesAt (infer env hint) node)
    (hnodes : ∀ elem, SettlesAt (inferElems env hint elem) nodes) :
    SettlesAt (inferElems env hint elem) (node :: nodes) := by
  intro nodes' r h
  unfold inferElems at h
  split at h
  · next node' p hinfer =>
      obtain ⟨rfl, rfl⟩ := Prod.mk.inj h
      rw [inferElems, hnode hinfer]
  · next node' found hinfer =>
      split at h
      · next e hunify =>
          obtain ⟨rfl, rfl⟩ := Prod.mk.inj h
          rw [inferElems, hnode hinfer]
          dsimp only
          rw [hunify, (shape_of_infer hinfer).1]
      · next mid hunify =>
          obtain ⟨rfl, rfl⟩ := Prod.mk.inj h
          rw [inferElems, hnode hinfer]
          dsimp only
          rw [hunify]
          dsimp only
          rw [hnodes mid rfl]

end Kinds

mutual

/-- The check of a value settles. -/
theorem infer_settles (env : Env) (hint : Ty) : ∀ node : Node, SettlesAt (infer env hint) node
  | .literal _ _ => settlesAt_literal
  | .ident _ _ => settlesAt_ident
  | .array _ elems => settlesAt_array fun elem => inferElems_settles env hint.element elem elems
  | .addressOf _ operand => settlesAt_addressOf (infer_settles env .unknown operand)
  | .cast _ _ operand => settlesAt_cast (infer_settles env .unknown operand)
  | .var .. => settlesAt_of_eq rfl
  | .attribute .. => settlesAt_of_eq rfl
  | .property .. => settlesAt_of_eq rfl

theorem inferElems_settles (env : Env) (hint elem : Ty) :
    ∀ nodes : List Node, SettlesAt (inferElems env hint elem) nodes
  | [] => settlesAt_of_eq rfl
  | node :: nodes =>
      settlesAt_cons (infer_settles env hint node)
        fun elem => inferElems_settles env hint elem nodes

end

/-- A byte that is found where a word is wanted is found without the hint. -/
theorem infer_of_byte {env : Env} {init init' : Node}
    (h : infer env .word init = (init', .ok .byte)) :
    infer env .unknown init = (init', .ok .byte) := by
  cases init with
  | ident s name => exact h
  | cast s kind operand => exact h
  | _ => cases typed_of_infer env .word _ h

theorem infer_widened {env : Env} {hint : Ty} {init : Node}
    (h : infer env .unknown init = (init, .ok .byte)) :
    infer env hint (init.widened .word) = (init.widened .word, .ok .word) := by
  rw [Node.widened, infer, h]
  rfl

/-! ## Attributes -/

theorem checkProperties_settles (found : Bool) : Settles (checkProperties found) := by
  intro props props' r h
  induction props generalizing found props' r with
  | nil =>
      obtain ⟨rfl, rfl⟩ := Prod.mk.inj h
      rfl
  | cons prop props ih =>
      cases prop with
      | property s key value =>
          unfold checkProperties at h
          split at h
          · next hkey =>
              obtain ⟨rfl, rfl⟩ := Prod.mk.inj h
              unfold checkProperties
              rw [if_pos hkey]
          · next hkey =>
              cases value with
              | literal vs v =>
                  obtain ⟨rfl, rfl⟩ := Prod.mk.inj h
                  rw [checkProperties, if_neg hkey]
                  dsimp only
                  rw [ih true rfl]
                  rfl
              | _ =>
                  obtain ⟨rfl, rfl⟩ := Prod.mk.inj h
                  unfold checkProperties
                  rw [if_neg hkey]
      | _ =>
          obtain ⟨rfl, rfl⟩ := Prod.mk.inj h
          rfl

theorem checkAttribute_settles (s : Slot) (name : String) : Settles (checkAttribute s name) := by
  intro props props' r h
  unfold checkAttribute at h
  split at h
  · next hname =>
      obtain ⟨rfl, rfl⟩ := Prod.mk.inj h
      rw [checkAttribute, if_pos hname]
  · next hname =>
      split at h
      · next haddress =>
          rw [checkAttribute, if_neg hname, if_pos haddress]
          split at h
          all_goals
            next hprops =>
              obtain ⟨rfl, rfl⟩ := Prod.mk.inj h
              rw [checkProperties_settles false hprops]
      · next haddress =>
          obtain ⟨rfl, rfl⟩ := Prod.mk.inj h
          rw [checkAttribute, if_neg hname, if_neg haddress]

theorem checkEach_settles (seen : List String) : Settles (checkEach seen) := by
  intro attrs attrs' r h
  induction attrs generalizing seen attrs' r with
  | nil =>
      obtain ⟨rfl, rfl⟩ := Prod.mk.inj h
      rfl
  | cons attr attrs ih =>
      cases attr with
      | «attribute» s name props =>
          unfold checkEach at h
          split at h
          · next hseen =>
              obtain ⟨rfl, rfl⟩ := Prod.mk.inj h
              rw [checkEach, if_pos hseen]
          · next hseen =>
              split at h
              · next props' p hprops =>
                  obtain ⟨rfl, rfl⟩ := Prod.mk.inj h
                  rw [checkEach, if_neg hseen, checkAttribute_settles s name hprops]
              · next props' hprops =>
                  obtain ⟨rfl, rfl⟩ := Prod.mk.inj h
                  rw [checkEach, if_neg hseen, checkAttribute_settles s name hprops]
                  dsimp only
                  rw [ih (seen ++ [name]) rfl]
      | _ =>
          obtain ⟨rfl, rfl⟩ := Prod.mk.inj h
          rfl

theorem checkAttributes_settles : Settles checkAttributes := by
  intro attrs attrs' r h
  unfold checkAttributes at h
  split at h
  · next attrs₁ p heach =>
      obtain ⟨rfl, rfl⟩ := Prod.mk.inj h
      rw [checkAttributes, checkEach_settles [] heach]
  · next attrs₁ seen heach =>
      have hsame : attrs' = attrs₁ := by
        split at h <;> exact (Prod.mk.inj h).1.symm
      subst hsame
      rw [checkAttributes, checkEach_settles [] heach]
      exact h

/-! ## Declarations -/

/-- Fitting leaves a value alone, or wraps a byte where a word is declared. -/
theorem fit_cases {position : Position} {declared found : Ty} {init init' : Node}
    {r : Except Problem Ty} (h : fit position declared found init = (init', r)) :
    init' = init ∨
      declared = .word ∧ found = .byte ∧ init' = init.widened .word ∧ r = .ok .word := by
  unfold fit at h
  split at h
  · exact .inl (Prod.mk.inj h).1.symm
  · split at h
    · exact .inl (Prod.mk.inj h).1.symm
    · split at h
      · exact .inl (Prod.mk.inj h).1.symm
      · next haccepts =>
          split at h
          · next hcast =>
              obtain ⟨rfl, rfl⟩ := widening_of_castable hcast haccepts
              obtain ⟨rfl, rfl⟩ := Prod.mk.inj h
              exact .inr ⟨rfl, rfl, rfl, rfl⟩
          · exact .inl (Prod.mk.inj h).1.symm

theorem resolve_settles (env : Env) (position : Position) (name : String) (declared : Ty) :
    Settles (resolve env position name declared) := by
  intro init init' r h
  cases init with
  | none =>
      obtain ⟨rfl, rfl⟩ := Prod.mk.inj h
      rfl
  | some init =>
      rw [resolve] at h
      split at h
      · next init₁ p hinfer =>
          obtain ⟨rfl, rfl⟩ := Prod.mk.inj h
          rw [resolve, infer_settles env declared init hinfer]
      · next init₁ found hinfer =>
          have hagain := infer_settles env declared init hinfer
          rcases hfit : fit position declared found init₁ with ⟨init₂, answer⟩
          rw [hfit] at h
          obtain ⟨rfl, rfl⟩ := Prod.mk.inj h
          rcases fit_cases hfit with rfl | ⟨rfl, rfl, rfl, rfl⟩
          · rw [resolve, hagain]
            dsimp only
            rw [hfit]
          · -- the word that the new cast gives is accepted as it is
            rw [resolve, infer_widened (infer_of_byte hagain)]
            rfl

section Declaration

variable {env : Env} {s : Slot} {name : String} {declared : Ty} {init init' : Option Node}
  {attrs attrs' : List Node}

theorem checkDecl_duplicate (hname : env.contains name = true) :
    checkDecl env (.var s name declared init attrs) =
      ⟨.var s name declared init attrs, env, .error (.fatal (.duplicate name s.position))⟩ := by
  rw [checkDecl, if_pos hname]

/-- A declaration whose attributes are refused is not looked into further. -/
theorem checkDecl_attributes (hname : ¬ env.contains name = true) {p : Problem}
    (hattrs : checkAttributes attrs = (attrs', .error p)) :
    checkDecl env (.var s name declared init attrs) =
      ⟨.var s name declared init attrs', env.bind name declared, .error p⟩ := by
  rw [checkDecl, if_neg hname, hattrs]

theorem checkDecl_refused (hname : ¬ env.contains name = true)
    (hattrs : checkAttributes attrs = (attrs', .ok ())) {p : Problem}
    (hinit : resolve env s.position name declared init = (init', .error p)) :
    checkDecl env (.var s name declared init attrs) =
      ⟨.var s name declared init' attrs', env.bind name declared, .error p⟩ := by
  rw [checkDecl, if_neg hname, hattrs]
  dsimp only
  rw [hinit]

theorem checkDecl_accepted (hname : ¬ env.contains name = true)
    (hattrs : checkAttributes attrs = (attrs', .ok ())) {ty : Ty}
    (hinit : resolve env s.position name declared init = (init', .ok ty)) :
    checkDecl env (.var s name declared init attrs) =
      ⟨.var (s.retype ty) name declared init' attrs', env.bind name ty, .ok (name, ty)⟩ := by
  rw [checkDecl, if_neg hname, hattrs]
  dsimp only
  rw [hinit]

end Declaration

/-- The check of a declaration has nothing to do on what it left. -/
theorem checkDecl_checkDecl (env : Env) (node : Node) :
    checkDecl env (checkDecl env node).node = checkDecl env node := by
  cases node with
  | var s name declared init attrs =>
      by_cases hname : env.contains name = true
      · rw [checkDecl_duplicate hname, checkDecl_duplicate hname]
      · rcases hattrs : checkAttributes attrs with ⟨attrs', p | _⟩
        · rw [checkDecl_attributes hname hattrs]
          exact checkDecl_attributes hname (checkAttributes_settles hattrs)
        · have hattrs' := checkAttributes_settles hattrs
          rcases hinit : resolve env s.position name declared init with ⟨init', p | ty⟩
          · rw [checkDecl_refused hname hattrs hinit]
            exact checkDecl_refused hname hattrs' (resolve_settles _ _ _ _ hinit)
          · rw [checkDecl_accepted hname hattrs hinit]
            exact checkDecl_accepted hname hattrs' (resolve_settles _ _ _ _ hinit)
  | _ => rfl

/-! ## Units -/

theorem checkAll_checkAll (env : Env) (found : List Diagnostic) (nodes : List Node) :
    checkAll env found (checkAll env found nodes).decls = checkAll env found nodes := by
  induction nodes generalizing env found with
  | nil => rfl
  | cons node nodes ih =>
      have hnode := checkDecl_checkDecl env node
      rcases houtcome : (checkDecl env node).outcome with (d | f) | typed
      · simp only [checkAll, houtcome, hnode, ih]
      · simp only [checkAll, houtcome, hnode]
      · simp only [checkAll, houtcome, hnode, ih]

/-- Analysis is idempotent: the unit that an analysis leaves, accepted or not, is
left as it is by a second analysis, which has the same result. -/
theorem analyze_analyze (decls : List Node) : analyze (analyze decls).decls = analyze decls :=
  checkAll_checkAll {} [] decls

end Cartridge.Typing
