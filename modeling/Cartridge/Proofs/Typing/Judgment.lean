/-
# `Cartridge.Proofs.Typing.Judgment` — what the analysis accepts

The analysis is a function that fills slots and may stop anywhere.  What it
accepts is said here as a judgment instead:

    Typed env hint node node' ty     `node` is a value of type `ty` where `hint` is
                                     wanted, and `node'` is `node` with its slots filled
    Declared env node node' env'     a declaration is accepted and binds its name
    Accepted env unit unit' env'     all declarations of a unit are, in order

Proved here: a check that succeeds derives the judgment (`typed_of_infer`,
`accepted_of_analyze`).

Types that are alike are equal as soon as records of one name have the same
members (`Ty.eq_of_alike`).  No rule of the language looks into a record, so it
is enough that the records themselves agree, which arrays and references are
made of; `Ty.record?` finds it.
-/
import Cartridge.Typing.Analysis

namespace Cartridge

/-- A cast relates known types, and changes nothing or a number; only widening one
is done without being asked for. -/
theorem Ty.castable_iff {target source : Ty} {kind : CastKind} :
    target.castable source kind = true ↔
      target.isResolved = true ∧ source.isResolved = true ∧
        (target.alike source = true ∨ source = .byte ∧ target = .word ∨
          source = .word ∧ target = .byte ∧ kind = .explicit) := by
  simp only [castable, Bool.and_eq_true, Bool.or_eq_true, and_assoc]
  refine and_congr_right fun _ => and_congr_right fun _ => or_congr_right ?_
  split
  · simp
  · simp
  · next hwiden hnarrow =>
      refine iff_of_false Bool.false_ne_true ?_
      rintro (⟨hsource, htarget⟩ | ⟨hsource, htarget, -⟩)
      · exact hwiden hsource htarget
      · exact hnarrow hsource htarget

/-! ## Records -/

namespace Ty

/-- The record that a type is made of, through arrays and references. -/
def record? : Ty → Option (String × List Ty)
  | .array e _ | .ref e => e.record?
  | .record name members => some (name, members)
  | _ => none

/-- The record that a type is made of is one of `records`. -/
def Within (records : String → List Ty → Prop) (ty : Ty) : Prop :=
  ∀ name members, ty.record? = some (name, members) → records name members

/-- The types do not give one record two lists of members. -/
def compatible (a b : Ty) : Bool :=
  match a.record?, b.record? with
  | some (name, members), some (name', members') => name != name' || decide (members = members')
  | _, _ => true

/-- No name has two lists of members. -/
def Unambiguous (records : String → List Ty → Prop) : Prop :=
  ∀ name members members', records name members → records name members' → members = members'

variable {records : String → List Ty → Prop}

theorem Within.element {e : Ty} {n : Nat} (h : (Ty.array e n).Within records) :
    e.Within records := h

theorem within_unknown : Ty.unknown.Within records := by
  intro name members h
  cases h

theorem within_byte : Ty.byte.Within records := by
  intro name members h
  cases h

theorem within_word : Ty.word.Within records := by
  intro name members h
  cases h

/-- Types that are alike are equal, if no record name is ambiguous. -/
theorem eq_of_alike (hrecords : Unambiguous records) :
    ∀ {a b : Ty}, a.alike b = true → a.Within records → b.Within records → a = b
  | .unknown, b, h, _, _ => by cases b <;> first | rfl | cases h
  | .byte, b, h, _, _ => by cases b <;> first | rfl | cases h
  | .word, b, h, _, _ => by cases b <;> first | rfl | cases h
  | .named name, b, h, _, _ => by
      cases b with
      | named name' => rw [eq_of_beq h]
      | _ => cases h
  | .array e n, b, h, ha, hb => by
      cases b with
      | array e' n' =>
          obtain ⟨hn, he⟩ := Bool.and_eq_true_iff.1 h
          rw [eq_of_beq hn, eq_of_alike hrecords he ha.element hb.element]
      | _ => cases h
  | .ref e, b, h, ha, hb => by
      cases b with
      | ref e' => rw [eq_of_alike (a := e) (b := e') hrecords h ha hb]
      | _ => cases h
  | .record name members, b, h, ha, hb => by
      cases b with
      | record name' members' =>
          obtain rfl := eq_of_beq h
          rw [hrecords name members members' (ha _ _ rfl) (hb _ _ rfl)]
      | _ => cases h

theorem Within.element_of_hint {ty : Ty} (h : ty.Within records) : ty.element.Within records := by
  cases ty <;> first | exact h | exact fun _ _ hrecord => nomatch hrecord

end Ty

mutual

/-- The types that are written in a node: those of casts, and the declared type
of a variable. -/
def Node.written : Node → List Ty
  | .array _ elems => writtenAll elems
  | .cast s _ operand => s.ty :: operand.written
  | .var _ _ declared none _ => [declared]
  | .var _ _ declared (some init) _ => declared :: init.written
  | _ => []

/-- The types that are written in a list of nodes. -/
def Node.writtenAll : List Node → List Ty
  | [] => []
  | node :: nodes => node.written ++ writtenAll nodes

end

/-- Any two record types of one name that a unit writes have the same members. -/
def Node.Consistent (decls : List Node) : Prop :=
  ∀ a ∈ writtenAll decls, ∀ b ∈ writtenAll decls, a.compatible b = true

instance (decls : List Node) : Decidable (Node.Consistent decls) :=
  inferInstanceAs (Decidable (∀ a ∈ Node.writtenAll decls, ∀ b ∈ Node.writtenAll decls, _))

/-- The record types that a unit writes. -/
def Node.Records (decls : List Node) (name : String) (members : List Ty) : Prop :=
  ∃ ty ∈ writtenAll decls, ty.record? = some (name, members)

theorem Node.Consistent.unambiguous {decls : List Node} (h : Consistent decls) :
    Ty.Unambiguous (Records decls) := by
  rintro name members members' ⟨a, ha, harecord⟩ ⟨b, hb, hbrecord⟩
  have hcompatible := h a ha b hb
  rw [Ty.compatible, harecord, hbrecord] at hcompatible
  simpa using hcompatible

theorem Node.within_records {decls : List Node} :
    ∀ t ∈ writtenAll decls, t.Within (Records decls) :=
  fun t ht _ _ hrecord => ⟨t, ht, hrecord⟩

/-- The types written in declarations are those of the first one, of its initial
value and of the rest. -/
theorem Node.forall_writtenAll_var {p : Ty → Prop} {s : Slot} {name : String} {declared : Ty}
    {init : Option Node} {attrs nodes : List Node}
    (h : ∀ t ∈ writtenAll (.var s name declared init attrs :: nodes), p t) :
    p declared ∧ (∀ node, init = some node → ∀ t ∈ node.written, p t) ∧
      ∀ t ∈ writtenAll nodes, p t := by
  refine ⟨h declared ?_, ?_, fun t ht => h t (List.mem_append_right _ ht)⟩
  · cases init <;> simp [writtenAll, written]
  · rintro node rfl t ht
    exact h t (List.mem_append_left _ (List.mem_cons_of_mem _ ht))

namespace Typing

/-! ## Values -/

mutual

/-- A value of type `ty` where `hint` is wanted; `node'` has its slots filled. -/
inductive Typed (env : Env) : Ty → Node → Node → Ty → Prop where
  | literal {hint : Ty} {s : Slot} {value : UInt16} :
      Typed env hint (.literal s value) (.literal (s.retype (literalType value hint)) value)
        (literalType value hint)
  | ident {hint : Ty} {s : Slot} {name : String} {ty : Ty} (hfind : env.find? name = some ty)
      (hknown : ty ≠ .unknown) :
      Typed env hint (.ident s name) (.ident (s.retype ty) name) ty
  | array {hint : Ty} {s : Slot} {elems elems' : List Node} {elem : Ty}
      (hknown : elems = [] → hint.element ≠ .unknown)
      (helems : TypedAll env hint.element (elementStart hint.element elems) elems elems' elem) :
      Typed env hint (.array s elems) (.array (s.retype (.array elem elems.length)) elems')
        (.array elem elems.length)
  | addressOf {hint : Ty} {s s' : Slot} {name : String} {ty : Ty}
      (hfind : env.find? name = some ty) (hknown : ty ≠ .unknown) :
      Typed env hint (.addressOf s (.ident s' name))
        (.addressOf (s.retype (.ref ty)) (.ident (s'.retype ty) name)) (.ref ty)
  | cast {hint : Ty} {s : Slot} {kind : CastKind} {operand operand' : Node} {source : Ty}
      (hresolved : s.ty.isResolved = true) (hoperand : Typed env .unknown operand operand' source)
      (hcast : s.ty.castable source kind = true) :
      Typed env hint (.cast s kind operand) (.cast s kind operand') s.ty

/-- Elements in a row; `start` is the common type of those before them, `elem`
of all. -/
inductive TypedAll (env : Env) : Ty → Ty → List Node → List Node → Ty → Prop where
  | nil {hint elem : Ty} : TypedAll env hint elem [] [] elem
  | cons {hint start found mid elem : Ty} {node node' : Node} {nodes nodes' : List Node}
      (hnode : Typed env hint node node' found) (hunify : start.unify found = .ok mid)
      (hnodes : TypedAll env hint mid nodes nodes' elem) :
      TypedAll env hint start (node :: nodes) (node' :: nodes') elem

end

mutual

/-- Whatever is inferred is typed. -/
theorem typed_of_infer (env : Env) (hint : Ty) :
    ∀ (node : Node) {node' : Node} {ty : Ty}, infer env hint node = (node', .ok ty) →
      Typed env hint node node' ty
  | .literal s value, node', ty, h => by
      obtain ⟨rfl, ⟨⟩⟩ := Prod.mk.inj h
      exact .literal
  | .ident s name, node', ty, h => by
      unfold infer at h
      split at h
      · cases h
      · cases h
      · next ty' hunknown hfind =>
          obtain ⟨rfl, ⟨⟩⟩ := Prod.mk.inj h
          exact .ident hfind hunknown
  | .array s elems, node', ty, h => by
      unfold infer at h
      split at h
      · cases h
      · next hknown =>
          split at h
          · cases h
          · next elems' elem helems =>
              obtain ⟨rfl, ⟨⟩⟩ := Prod.mk.inj h
              refine .array (fun hnil hunknown => hknown ?_)
                (typedAll_of_inferElems env hint.element _ elems helems)
              rw [hnil, hunknown]
              rfl
  | .addressOf s operand, node', ty, h => by
      unfold infer at h
      split at h
      · next hident =>
          split at h
          · cases h
          · next operand' target hoperand =>
              obtain ⟨rfl, ⟨⟩⟩ := Prod.mk.inj h
              cases operand with
              | ident s' name =>
                  cases typed_of_infer env .unknown (.ident s' name) hoperand with
                  | ident hfind hknown => exact .addressOf hfind hknown
              | _ => cases hident
      · cases h
  | .cast s kind operand, node', ty, h => by
      unfold infer at h
      split at h
      · next hresolved =>
          split at h
          · cases h
          · next operand' source hoperand =>
              split at h
              · cases h
              · next hcheck =>
                  obtain ⟨rfl, ⟨⟩⟩ := Prod.mk.inj h
                  refine .cast hresolved (typed_of_infer env .unknown operand hoperand) ?_
                  unfold Ty.checkCast at hcheck
                  split at hcheck
                  · next hcast => exact hcast
                  · cases hcheck
      · cases h
  | .var .., node', ty, h => by cases h
  | .attribute .., node', ty, h => by cases h
  | .property .., node', ty, h => by cases h

theorem typedAll_of_inferElems (env : Env) (hint start : Ty) :
    ∀ (nodes : List Node) {nodes' : List Node} {elem : Ty},
      inferElems env hint start nodes = (nodes', .ok elem) →
      TypedAll env hint start nodes nodes' elem
  | [], nodes', elem, h => by
      obtain ⟨rfl, ⟨⟩⟩ := Prod.mk.inj h
      exact .nil
  | node :: nodes, nodes', elem, h => by
      unfold inferElems at h
      split at h
      · cases h
      · next node' found hnode =>
          split at h
          · cases h
          · next mid hunify =>
              obtain ⟨rfl, hrest⟩ := Prod.mk.inj h
              exact .cons (typed_of_infer env hint node hnode) hunify
                (typedAll_of_inferElems env hint mid nodes (Prod.ext rfl hrest))

end

theorem literalType_eq (value : UInt16) (hint : Ty) :
    literalType value hint = if hint = .word ∨ 0xFF < value then .word else .byte := by
  unfold literalType
  split
  · rw [if_pos (.inl rfl)]
  · next hhint =>
      by_cases hvalue : value ≤ 0xFF
      · rw [if_pos hvalue, if_neg]
        exact fun h => h.elim (fun e => hhint e) (UInt16.not_lt.2 hvalue)
      · rw [if_neg hvalue, if_pos (.inr (UInt16.not_le.1 hvalue))]

/-- The type of a value stands in its slot. -/
theorem Typed.ty_eq {env : Env} {hint ty : Ty} {node node' : Node}
    (h : Typed env hint node node' ty) : node'.ty = ty := by
  cases h <;> rfl

theorem Typed.ne_unknown {env : Env} {hint ty : Ty} {node node' : Node}
    (h : Typed env hint node node' ty) : ty ≠ .unknown := by
  cases h with
  | literal =>
      rw [literalType_eq]
      split <;> exact Ty.noConfusion
  | ident _ hknown => exact hknown
  | array _ _ => exact Ty.noConfusion
  | addressOf _ _ => exact Ty.noConfusion
  | cast hresolved _ _ =>
      intro hunknown
      rw [hunknown] at hresolved
      cases hresolved

/-! ## The common type of elements -/

theorem unify_eq_ok {start found mid : Ty} (hfound : found ≠ .unknown)
    (h : start.unify found = .ok mid) :
    start = .unknown ∧ mid = found ∨
      start ≠ .unknown ∧ mid = start ∧ start.alike found = true := by
  unfold Ty.unify at h
  split at h
  · cases h
    exact .inl ⟨rfl, rfl⟩
  · exact absurd rfl hfound
  · next hstart _ =>
      split at h
      · next halike =>
          cases h
          exact .inr ⟨fun e => hstart e, rfl, halike⟩
      · cases h

/-- A common type that is known stays. -/
theorem TypedAll.elem_eq {env : Env} {hint start elem : Ty} :
    ∀ {nodes nodes' : List Node}, TypedAll env hint start nodes nodes' elem →
      start ≠ .unknown → elem = start
  | _, _, .nil, _ => rfl
  | _, _, .cons hnode hunify hnodes, hstart => by
      rcases unify_eq_ok hnode.ne_unknown hunify with ⟨hunknown, -⟩ | ⟨-, rfl, -⟩
      · exact absurd hunknown hstart
      · exact hnodes.elem_eq hstart

section Records

variable {records : String → List Ty → Prop} {env : Env}

theorem within_elementStart {hint : Ty} (hhint : hint.Within records) (elems : List Node) :
    (elementStart hint.element elems).Within records := by
  unfold elementStart
  split
  · exact hhint.element_of_hint
  · exact Ty.within_unknown

mutual

/-- The type of a value has no records but those of its surroundings. -/
theorem Typed.within (henv : ∀ name ty, env.find? name = some ty → ty.Within records) {hint ty : Ty}
    (hhint : hint.Within records) : ∀ {node node' : Node}, Typed env hint node node' ty →
      (∀ t ∈ node.written, t.Within records) → ty.Within records
  | _, _, .literal, _ => by
      rw [literalType_eq]
      split
      · exact Ty.within_word
      · exact Ty.within_byte
  | _, _, .ident hfind _, _ => henv _ _ hfind
  | _, _, .array _ helems, hwritten => by
      have helem := helems.within henv hhint.element_of_hint (within_elementStart hhint _) hwritten
      exact helem
  | _, _, .addressOf hfind _, _ => fun name members h => henv _ _ hfind name members h
  | _, _, .cast (s := s) _ _ _, hwritten => hwritten s.ty List.mem_cons_self

theorem TypedAll.within (henv : ∀ name ty, env.find? name = some ty → ty.Within records)
    {hint start elem : Ty} (hhint : hint.Within records) (hstart : start.Within records) :
    ∀ {nodes nodes' : List Node}, TypedAll env hint start nodes nodes' elem →
      (∀ t ∈ Node.writtenAll nodes, t.Within records) → elem.Within records
  | _, _, .nil, _ => hstart
  | _, _, .cons hnode hunify hnodes, hwritten => by
      have hfound := hnode.within henv hhint fun t ht => hwritten t (List.mem_append_left _ ht)
      refine hnodes.within henv hhint ?_ fun t ht => hwritten t (List.mem_append_right _ ht)
      rcases unify_eq_ok hnode.ne_unknown hunify with ⟨-, rfl⟩ | ⟨-, rfl, -⟩
      · exact hfound
      · exact hstart

end

end Records

/-! ## Declarations -/

theorem Env.find?_bind (env : Env) (name x : String) (ty : Ty) :
    (env.bind name ty).find? x = if x = name then some ty else env.find? x := by
  rw [Env.find?, Env.bind, List.lookup_cons]
  by_cases h : x = name
  · rw [if_pos h, beq_iff_eq.2 h]
  · rw [if_neg h, beq_eq_false_iff_ne.2 h]
    rfl

/-- What holds of all bindings and of a new one holds of all bindings then. -/
theorem Env.forall_bind {p : String → Ty → Prop} {env : Env}
    (h : ∀ x t, env.find? x = some t → p x t) {name : String} {ty : Ty} (hnew : p name ty) :
    ∀ x t, (env.bind name ty).find? x = some t → p x t := by
  intro x t hx
  rw [Env.find?_bind] at hx
  split at hx
  · next hname =>
      cases hx
      rw [hname]
      exact hnew
  · exact h x t hx

theorem accepts_of_alike {target value : Ty} (htarget : target.isResolved = true)
    (hvalue : value.isResolved = true) (h : target.alike value = true) :
    target.accepts value = true := by
  unfold Ty.accepts
  rw [htarget, hvalue]
  cases target with
  | array e n =>
      cases value with
      | array e' n' =>
          obtain ⟨hn, he⟩ := Bool.and_eq_true_iff.1 h
          simp [eq_of_beq hn, he]
      | _ => cases h
  | _ => simpa using h

/-- What is alike is accepted, so an implicit cast to what does not accept the
value is the widening of a byte. -/
theorem widening_of_castable {target source : Ty} (h : target.castable source .implicit = true)
    (hnot : ¬ target.accepts source = true) : target = .word ∧ source = .byte := by
  obtain ⟨htarget, hsource, halike | hwiden | ⟨-, -, hkind⟩⟩ := Ty.castable_iff.1 h
  · exact absurd (accepts_of_alike htarget hsource halike) hnot
  · exact hwiden.symm
  · cases hkind

/-- An initial value fits the declared type; `ty` is the type of the variable. -/
inductive Fitted (env : Env) : Ty → Node → Node → Ty → Prop where
  | inferred {init init' : Node} {ty : Ty} (h : Typed env .unknown init init' ty) :
      Fitted env .unknown init init' ty
  | accepted {declared found : Ty} {init init' : Node} (h : Typed env declared init init' found)
      (haccepts : declared.accepts found = true) : Fitted env declared init init' declared
  | widened {init init' : Node} (h : Typed env .word init init' .byte) :
      Fitted env .word init (init'.widened .word) .word

theorem fitted_of_fit {env : Env} {position : Position} {declared found ty : Ty}
    {init init' init'' : Node} (h : Typed env declared init init' found)
    (hfit : fit position declared found init' = (init'', .ok ty)) :
    Fitted env declared init init'' ty := by
  unfold fit at hfit
  split at hfit
  · next hunknown =>
      obtain ⟨rfl, ⟨⟩⟩ := Prod.mk.inj hfit
      cases declared with
      | unknown => exact .inferred h
      | _ => cases hunknown
  · split at hfit
    · cases hfit
    · split at hfit
      · next haccepts =>
          obtain ⟨rfl, ⟨⟩⟩ := Prod.mk.inj hfit
          exact .accepted h haccepts
      · next haccepts =>
          split at hfit
          · next hcast =>
              obtain ⟨rfl, ⟨⟩⟩ := Prod.mk.inj hfit
              obtain ⟨rfl, rfl⟩ := widening_of_castable hcast haccepts
              exact .widened h
          · cases hfit

/-- The initial value of a declaration, if it has one. -/
inductive Initialized (env : Env) (declared : Ty) : Option Node → Option Node → Ty → Prop where
  | absent (h : declared.isResolved = true) : Initialized env declared none none declared
  | present {init init' : Node} {ty : Ty} (h : Fitted env declared init init' ty) :
      Initialized env declared (some init) (some init') ty

/-- The type of a variable has no records but those of its surroundings. -/
theorem Initialized.within {records : String → List Ty → Prop} {env : Env}
    (henv : ∀ name ty, env.find? name = some ty → ty.Within records) {declared ty : Ty}
    {init init' : Option Node} (hinit : Initialized env declared init init' ty)
    (hdeclared : declared.Within records)
    (hwritten : ∀ node, init = some node → ∀ t ∈ node.written, t.Within records) :
    ty.Within records := by
  cases hinit with
  | absent => exact hdeclared
  | present hfitted =>
      cases hfitted with
      | inferred htyped => exact htyped.within henv Ty.within_unknown (hwritten _ rfl)
      | accepted => exact hdeclared
      | widened => exact Ty.within_word

theorem initialized_of_resolve {env : Env} {position : Position} {name : String} {declared ty : Ty}
    {init init' : Option Node} (h : resolve env position name declared init = (init', .ok ty)) :
    Initialized env declared init init' ty := by
  cases init with
  | none =>
      obtain ⟨rfl, htype⟩ := Prod.mk.inj h
      split at htype
      · next hresolved =>
          cases htype
          exact .absent hresolved
      · cases htype
  | some init =>
      rw [resolve] at h
      split at h
      · cases h
      · next found hinfer =>
          obtain ⟨rfl, hfit⟩ := Prod.mk.inj h
          have htyped := typed_of_infer env declared init hinfer
          exact .present (fitted_of_fit htyped (Prod.ext rfl hfit))

theorem checkEach_cons_eq_ok {seen names : List String} {attr : Node} {attrs attrs' : List Node}
    (h : checkEach seen (attr :: attrs) = (attrs', .ok names)) :
    ∃ s name props props' rest, attr = .attribute s name props ∧
      attrs' = .attribute s name props' :: rest ∧
      checkAttribute s name props = (props', .ok ()) ∧
      checkEach (seen ++ [name]) attrs = (rest, .ok names) := by
  unfold checkEach at h
  split at h
  · cases ‹_ = []›
  · next s name props _ hcons =>
      cases hcons
      split at h
      · cases h
      · split at h
        · cases h
        · next props' hprops =>
            obtain ⟨rfl, hrest⟩ := Prod.mk.inj h
            exact ⟨s, name, props, props', _, rfl, rfl, hprops, Prod.ext rfl hrest⟩
  · cases h

theorem checkAttributes_eq_ok {attrs attrs' : List Node}
    (h : checkAttributes attrs = (attrs', .ok ())) :
    ∃ names, checkEach [] attrs = (attrs', .ok names) := by
  unfold checkAttributes at h
  split at h
  · cases h
  · next names heach =>
      split at h
      · cases h
      · obtain ⟨rfl, -⟩ := Prod.mk.inj h
        exact ⟨names, heach⟩

/-- The check of attributes keeps their names. -/
theorem any_isAttribute_of_checkEach {seen names : List String} {attrs attrs' : List Node}
    (h : checkEach seen attrs = (attrs', .ok names)) (name : String) :
    attrs'.any (Node.isAttribute name) = attrs.any (Node.isAttribute name) := by
  induction attrs generalizing seen attrs' with
  | nil =>
      obtain ⟨rfl, -⟩ := Prod.mk.inj h
      rfl
  | cons attr attrs ih =>
      obtain ⟨s, own, props, props', rest, rfl, rfl, -, hrest⟩ := checkEach_cons_eq_ok h
      rw [List.any_cons, List.any_cons, ih hrest]
      rfl

theorem any_isAttribute_of_checkAttributes {attrs attrs' : List Node}
    (h : checkAttributes attrs = (attrs', .ok ())) (name : String) :
    attrs'.any (Node.isAttribute name) = attrs.any (Node.isAttribute name) := by
  obtain ⟨names, heach⟩ := checkAttributes_eq_ok h
  exact any_isAttribute_of_checkEach heach name

/-- A declaration is accepted; it binds its name. -/
inductive Declared (env : Env) : Node → Node → Env → Prop where
  | var {s : Slot} {name : String} {declared ty : Ty} {init init' : Option Node}
      {attrs attrs' : List Node} (hnew : env.contains name = false)
      (hattrs : checkAttributes attrs = (attrs', .ok ()))
      (hinit : Initialized env declared init init' ty) :
      Declared env (.var s name declared init attrs) (.var (s.retype ty) name declared init' attrs')
        (env.bind name ty)

/-- A declaration brings no records into the environment but those written there. -/
theorem Declared.within {records : String → List Ty → Prop} {env env' : Env} {node node' : Node}
    {nodes : List Node} (h : Declared env node node' env')
    (henv : ∀ name ty, env.find? name = some ty → ty.Within records)
    (hwritten : ∀ t ∈ Node.writtenAll (node :: nodes), t.Within records) :
    ∀ name ty, env'.find? name = some ty → ty.Within records := by
  cases h with
  | var _ _ hinit =>
      obtain ⟨hdeclared, hvalue, -⟩ := Node.forall_writtenAll_var hwritten
      exact Env.forall_bind henv (hinit.within henv hdeclared hvalue)

theorem declared_of_checkDecl {env : Env} {node : Node} {typed : String × Ty}
    (h : (checkDecl env node).outcome = .ok typed) :
    Declared env node (checkDecl env node).node (checkDecl env node).env := by
  unfold checkDecl at h ⊢
  split at h
  · split at h
    · cases h
    · next hnew =>
        split at h
        · cases h
        · next hattrs =>
            split at h
            · cases h
            · next hresolve =>
                rw [if_neg hnew]
                exact .var (by simpa using hnew) hattrs (initialized_of_resolve hresolve)
  · cases h

/-! ## Units -/

/-- All declarations are accepted, in order. -/
inductive Accepted : Env → List Node → List Node → Env → Prop where
  | nil {env : Env} : Accepted env [] [] env
  | cons {env mid env' : Env} {node node' : Node} {nodes nodes' : List Node}
      (hnode : Declared env node node' mid) (hnodes : Accepted mid nodes nodes' env') :
      Accepted env (node :: nodes) (node' :: nodes') env'

/-- Diagnostics are never forgotten. -/
theorem checkAll_ne_ok {env env' : Env} {found : List Diagnostic} {nodes : List Node}
    (hfound : found ≠ []) : (checkAll env found nodes).result ≠ .ok env' := by
  induction nodes generalizing env found with
  | nil =>
      cases found with
      | nil => exact absurd rfl hfound
      | cons d ds => exact fun h => nomatch h
  | cons node nodes ih =>
      unfold checkAll
      dsimp only
      split
      · exact fun h => nomatch h
      · exact ih (by simp)
      · exact ih hfound

theorem accepted_of_checkAll {env env' : Env} {nodes : List Node}
    (h : (checkAll env [] nodes).result = .ok env') :
    Accepted env nodes (checkAll env [] nodes).decls env' := by
  induction nodes generalizing env with
  | nil =>
      cases h
      exact .nil
  | cons node nodes ih =>
      unfold checkAll at h ⊢
      dsimp only at h ⊢
      split at h
      · cases h
      · exact absurd h (checkAll_ne_ok (by simp))
      · next houtcome =>
          exact .cons (declared_of_checkDecl houtcome) (ih h)

/-- A unit that is analysed without complaint is accepted. -/
theorem accepted_of_analyze {env : Env} {decls : List Node}
    (h : (analyze decls).result = .ok env) : Accepted {} decls (analyze decls).decls env :=
  accepted_of_checkAll h

end Typing

end Cartridge
