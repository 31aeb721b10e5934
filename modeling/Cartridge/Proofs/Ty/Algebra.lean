/-
# `Cartridge.Proofs.Ty.Algebra` — the laws of the relations between types

    alike       an equivalence, which equal types are in
    accepts     reflexive on resolved types and transitive, but not symmetric: an
                array may be shorter than its position
    castable    an implicit cast may be written out
    unify       partial: `unknown` is its unit, and all else must be alike

A type with `unknown` at any depth is in none of the relations but `alike`.

Unification picks the first of two types that are alike, so its laws hold up to
`alike`, and a failure is as good as any other (`Agree`).  Up to that it is
commutative and associative.  Steps of which two can be exchanged give the same
result in every order (`agree_foldlM_of_perm`), so the elements of an array literal
may stand in any order, as far as their type goes.

Proved here: all of these laws (`rules_lawful`).
-/
import Cartridge.Proofs.Ty.Relations

namespace Cartridge

namespace Ty

/-! ## Resolved types -/

/-- A type occurs in another one, at any depth. -/
inductive Part (p : Ty) : Ty → Prop where
  | self : Part p p
  | element {e : Ty} {n : Nat} (h : Part p e) : Part p (.array e n)
  | target {e : Ty} (h : Part p e) : Part p (.ref e)
  | member {name : String} {members : List Ty} {m : Ty} (hm : m ∈ members) (h : Part p m) :
      Part p (.record name members)

mutual

theorem isResolved_iff : ∀ ty : Ty, ty.isResolved = true ↔ ¬ Part .unknown ty
  | .unknown => by
      constructor
      · intro h
        cases h
      · intro h
        exact absurd .self h
  | .named _ | .byte | .word => by
      constructor
      · rintro - ⟨⟩
      · intro _
        rfl
  | .array e n => by
      rw [isResolved, isResolved_iff e]
      apply not_congr
      constructor
      · exact .element
      · rintro (_ | h)
        exact h
  | .ref e => by
      rw [isResolved, isResolved_iff e]
      apply not_congr
      constructor
      · exact .target
      · rintro (_ | _ | h)
        exact h
  | .record name members => by
      rw [isResolved, allResolved_iff members]
      constructor
      · rintro h (_ | _ | _ | ⟨hm, hpart⟩)
        exact h _ hm hpart
      · intro h m hm hpart
        exact h (.member hm hpart)

theorem allResolved_iff : ∀ members : List Ty,
    allResolved members = true ↔ ∀ m ∈ members, ¬ Part .unknown m
  | [] => by simp [allResolved]
  | m :: members => by
      rw [allResolved, Bool.and_eq_true, isResolved_iff m, allResolved_iff members,
        List.forall_mem_cons]

end

/-! ## Values that may be stored or cast -/

theorem accepts_self_iff (ty : Ty) : ty.accepts ty = true ↔ ty.isResolved = true := by
  constructor
  · intro h
    exact (isResolved_of_accepts h).1
  · exact accepts_refl

/-- What an array takes that is an array. -/
theorem accepts_array_iff {e e' : Ty} {n k : Nat} :
    (Ty.array e n).accepts (.array e' k) = true ↔
      e.isResolved = true ∧ e'.isResolved = true ∧ k ≤ n ∧ e.alike e' = true := by
  simp only [accepts, isResolved, Bool.and_eq_true, decide_eq_true_eq, and_assoc]

theorem accepts_trans {a b c : Ty} (h : a.accepts b = true) (h' : b.accepts c = true) :
    a.accepts c = true := by
  rcases accepts_cases h' with halike' | ⟨e', n', e'', k, rfl, rfl, -⟩
  · rcases accepts_cases h with halike | ⟨e, n, e', n', rfl, rfl, hle, halike⟩
    · exact Typing.accepts_of_alike (isResolved_of_accepts h).1 (isResolved_of_accepts h').2
        (alike_trans halike halike')
    · -- an array, and what is alike is an array of the same length
      cases c with
      | array e'' k =>
          obtain ⟨hn, he⟩ := Bool.and_eq_true_iff.1 halike'
          obtain rfl := eq_of_beq hn
          obtain ⟨hresolved, -⟩ := accepts_array_iff.1 h
          obtain ⟨-, hresolved', -⟩ := accepts_array_iff.1 h'
          exact accepts_array_iff.2 ⟨hresolved, hresolved', hle, alike_trans halike he⟩
      | _ => cases halike'
  · obtain ⟨e, n, rfl, -⟩ := accepts_array h
    obtain ⟨hresolved, -, hle, halike⟩ := accepts_array_iff.1 h
    obtain ⟨-, hresolved', hle', halike'⟩ := accepts_array_iff.1 h'
    exact accepts_array_iff.2
      ⟨hresolved, hresolved', Nat.le_trans hle' hle, alike_trans halike halike'⟩

/-- A type that is not resolved is neither stored nor cast, and nothing is stored in
it or cast to it. -/
theorem refused_of_unresolved {target source : Ty}
    (h : Part .unknown target ∨ Part .unknown source) :
    target.accepts source = false ∧ ∀ kind, target.castable source kind = false := by
  have hresolved : (target.isResolved && source.isResolved) = false := by
    rcases h with h | h
    · have hnot : target.isResolved = false := by
        rw [← Bool.not_eq_true, isResolved_iff]
        exact not_not_intro h
      rw [hnot, Bool.false_and]
    · have hnot : source.isResolved = false := by
        rw [← Bool.not_eq_true, isResolved_iff]
        exact not_not_intro h
      rw [hnot, Bool.and_false]
  constructor
  · simp only [accepts, hresolved, Bool.false_and]
  · intro kind
    simp only [castable, hresolved, Bool.false_and]

/-- A cast that the analysis may insert may be written out. -/
theorem castable_explicit {target source : Ty} (h : target.castable source .implicit = true) :
    target.castable source .explicit = true := by
  obtain ⟨htarget, hsource, hcases⟩ := castable_iff.1 h
  refine castable_iff.2 ⟨htarget, hsource, hcases.imp_right ?_⟩
  rintro (hwiden | ⟨-, -, hkind⟩)
  · exact .inl hwiden
  · cases hkind

/-! ## Unification -/

/-- Both results fail, or both succeed with types that are alike. -/
inductive Agree {ε ε' : Type} : Except ε Ty → Except ε' Ty → Prop where
  | ok {a b : Ty} (h : a.alike b = true) : Agree (.ok a) (.ok b)
  | error (e : ε) (e' : ε') : Agree (.error e) (.error e')

section Agree

variable {ε ε₁ ε₂ : Type}

theorem Agree.refl (r : Except ε Ty) : Agree r r := by
  cases r with
  | ok a => exact .ok a.alike_refl
  | error e => exact .error e e

theorem Agree.symm {r : Except ε Ty} {r' : Except ε₁ Ty} (h : Agree r r') : Agree r' r := by
  cases h with
  | ok h => exact .ok (alike_symm h)
  | error e e' => exact .error e' e

theorem Agree.trans {r : Except ε Ty} {r₁ : Except ε₁ Ty} {r₂ : Except ε₂ Ty} (h : Agree r r₁)
    (h' : Agree r₁ r₂) : Agree r r₂ := by
  cases h with
  | ok h =>
      cases h' with
      | ok h' => exact .ok (alike_trans h h')
  | error e _ =>
      cases h' with
      | error _ e' => exact .error e e'

/-- Steps that agree on types that are alike, one after the other. -/
theorem Agree.bind {r : Except ε Ty} {r' : Except ε₁ Ty} {f : Ty → Except ε Ty}
    {g : Ty → Except ε₁ Ty} (h : Agree r r')
    (hstep : ∀ {a b : Ty}, a.alike b = true → Agree (f a) (g b)) : Agree (r >>= f) (r' >>= g) := by
  cases h with
  | ok h => exact hstep h
  | error e e' => exact .error e e'

/-- Only that a result fails counts, not how. -/
theorem agree_mapError (r : Except ε Ty) (f : ε → ε₁) : Agree (r.mapError f) r := by
  cases r with
  | ok a => exact .ok a.alike_refl
  | error e => exact .error (f e) e

theorem Agree.map {r : Except ε Ty} {r' : Except ε₁ Ty} {f g : Ty → Ty} (h : Agree r r')
    (hstep : ∀ {a b : Ty}, a.alike b = true → (f a).alike (g b) = true) :
    Agree (r.map f) (r'.map g) := by
  cases h with
  | ok h => exact .ok (hstep h)
  | error e e' => exact .error e e'

end Agree

theorem unify_unknown (ty : Ty) : ty.unify .unknown = .ok ty := by
  cases ty <;> rfl

theorem eq_unknown_of_alike {ty : Ty} (h : Ty.unknown.alike ty = true) : ty = .unknown := by
  cases ty with
  | unknown => rfl
  | _ => cases h

/-- Two known types unify if they are alike. -/
theorem unify_of_ne {a b : Ty} (ha : a ≠ .unknown) (hb : b ≠ .unknown) :
    a.unify b = if a.alike b then .ok a else .error (.cannotUnify a b) := by
  rw [unify]
  · exact ha
  · exact hb

/-- Of two known types that unify, both are like the common one. -/
theorem alike_of_unify {a b ty : Ty} (ha : a ≠ .unknown) (hb : b ≠ .unknown)
    (h : a.unify b = .ok ty) : ty.alike a = true ∧ ty.alike b = true := by
  rw [unify_of_ne ha hb] at h
  split at h
  · next halike =>
      cases h
      exact ⟨a.alike_refl, halike⟩
  · cases h

theorem exists_unify_iff {a b : Ty} (ha : a ≠ .unknown) (hb : b ≠ .unknown) :
    (∃ ty, a.unify b = .ok ty) ↔ a.alike b = true := by
  rw [unify_of_ne ha hb]
  constructor
  · rintro ⟨ty, h⟩
    split at h
    · next halike => exact halike
    · cases h
  · intro halike
    exact ⟨a, if_pos halike⟩

/-- What is alike unifies alike. -/
theorem unify_congr {a a' b b' : Ty} (ha : a.alike a' = true) (hb : b.alike b' = true) :
    Agree (a.unify b) (a'.unify b') := by
  by_cases hunknown : a = .unknown
  · subst hunknown
    rw [eq_unknown_of_alike ha]
    exact .ok hb
  · have hknown : a' ≠ .unknown := by
      rintro rfl
      exact hunknown (eq_unknown_of_alike (alike_symm ha))
    by_cases hunknown' : b = .unknown
    · subst hunknown'
      rw [eq_unknown_of_alike hb, unify_unknown, unify_unknown]
      exact .ok ha
    · have hknown' : b' ≠ .unknown := by
        rintro rfl
        exact hunknown' (eq_unknown_of_alike (alike_symm hb))
      rw [unify_of_ne hunknown hunknown', unify_of_ne hknown hknown']
      by_cases halike : a.alike b = true
      · have halike' := alike_trans (alike_symm ha) (alike_trans halike hb)
        rw [if_pos halike, if_pos halike']
        exact .ok ha
      · have hnot : ¬ a'.alike b' = true := by
          intro halike'
          exact halike (alike_trans ha (alike_trans halike' (alike_symm hb)))
        rw [if_neg halike, if_neg hnot]
        exact .error _ _

theorem unify_comm (a b : Ty) : Agree (a.unify b) (b.unify a) := by
  by_cases ha : a = .unknown
  · subst ha
    rw [unify_unknown]
    exact .refl (.ok b)
  · by_cases hb : b = .unknown
    · subst hb
      rw [unify_unknown]
      exact .refl (.ok a)
    · rw [unify_of_ne ha hb, unify_of_ne hb ha]
      by_cases halike : a.alike b = true
      · rw [if_pos halike, if_pos (alike_symm halike)]
        exact .ok halike
      · rw [if_neg halike, if_neg (fun h => halike (alike_symm h))]
        exact .error _ _

theorem unify_assoc (a b c : Ty) :
    Agree (a.unify b >>= (·.unify c)) (b.unify c >>= (a.unify ·)) := by
  -- with `unknown` among them, there is one step on each side
  by_cases ha : a = .unknown
  · subst ha
    show Agree (b.unify c) (b.unify c >>= pure)
    rw [bind_pure]
    exact .refl _
  by_cases hb : b = .unknown
  · subst hb
    rw [unify_unknown]
    exact .refl (a.unify c)
  by_cases hc : c = .unknown
  · subst hc
    have hunit : (fun ty : Ty => ty.unify .unknown) = pure := funext unify_unknown
    show Agree (a.unify b >>= fun ty => ty.unify .unknown) (b.unify .unknown >>= (a.unify ·))
    rw [hunit, bind_pure, unify_unknown]
    exact .refl (a.unify b)
  rw [unify_of_ne ha hb, unify_of_ne hb hc]
  by_cases hab : a.alike b = true
  · rw [if_pos hab]
    by_cases hbc : b.alike c = true
    · rw [if_pos hbc]
      show Agree (a.unify c) (a.unify b)
      exact unify_congr a.alike_refl (alike_symm hbc)
    · have hac : ¬ a.alike c = true := by
        intro hac
        exact hbc (alike_trans (alike_symm hab) hac)
      rw [if_neg hbc]
      show Agree (a.unify c) _
      rw [unify_of_ne ha hc, if_neg hac]
      exact .error _ _
  · rw [if_neg hab]
    by_cases hbc : b.alike c = true
    · rw [if_pos hbc]
      show Agree _ (a.unify b)
      rw [unify_of_ne ha hb, if_neg hab]
      exact .error _ _
    · rw [if_neg hbc]
      exact .error _ _

/-- The order of two types that are unified with a third one does not matter. -/
theorem unify_right_comm (a b c : Ty) :
    Agree (a.unify b >>= (·.unify c)) (a.unify c >>= (·.unify b)) := by
  have hswap : Agree (b.unify c >>= (a.unify ·)) (c.unify b >>= (a.unify ·)) :=
    (unify_comm b c).bind fun h => unify_congr a.alike_refl h
  exact ((unify_assoc a b c).trans hswap).trans (unify_assoc a c b).symm

/-! ## Types in any order -/

section Order

variable {α ε : Type} {f : Ty → α → Except ε Ty}

/-- Steps that agree on types that are alike, over a list. -/
theorem agree_foldlM (hcongr : ∀ (x : α) {a b : Ty}, a.alike b = true → Agree (f a x) (f b x))
    (xs : List α) {a b : Ty} (h : a.alike b = true) : Agree (xs.foldlM f a) (xs.foldlM f b) := by
  induction xs generalizing a b with
  | nil => exact .ok h
  | cons x xs ih =>
      rw [List.foldlM_cons, List.foldlM_cons]
      exact (hcongr x h).bind ih

/-- If two steps can be exchanged, a list of them can be taken in any order. -/
theorem agree_foldlM_of_perm
    (hcongr : ∀ (x : α) {a b : Ty}, a.alike b = true → Agree (f a x) (f b x))
    (hswap : ∀ (x y : α) (a : Ty), Agree (f a x >>= (f · y)) (f a y >>= (f · x)))
    {xs ys : List α} (hperm : xs.Perm ys) (a : Ty) : Agree (xs.foldlM f a) (ys.foldlM f a) := by
  induction hperm generalizing a with
  | nil => exact .refl _
  | cons x _ ih =>
      rw [List.foldlM_cons, List.foldlM_cons]
      cases f a x with
      | ok b => exact ih b
      | error e => exact .error e e
  | swap x y xs =>
      simp only [List.foldlM_cons, ← bind_assoc]
      exact (hswap y x a).bind (agree_foldlM hcongr xs)
  | trans _ _ ih ih' => exact (ih a).trans (ih' a)

end Order

end Ty

/-! ## Array literals -/

namespace Typing

open Ty (Agree)

/-- The common type of the elements so far, with one more of them. -/
def joinElem (env : Env) (hint elem : Ty) (node : Node) : Except Problem Ty := do
  let found ← (infer env hint node).2
  (elem.unify found).mapError fun e => .at node.position (.rule e)

/-- The elements of an array literal are joined one after the other. -/
theorem inferElems_eq_foldlM (env : Env) (hint elem : Ty) (nodes : List Node) :
    (inferElems env hint elem nodes).2 = nodes.foldlM (joinElem env hint) elem := by
  induction nodes generalizing elem with
  | nil => rfl
  | cons node nodes ih =>
      rw [inferElems, List.foldlM_cons, joinElem]
      cases hnode : infer env hint node with
      | mk node' r =>
          cases r with
          | error p => rfl
          | ok found =>
              dsimp only
              cases hunify : elem.unify found with
              | error e =>
                  show _ = ((elem.unify found).mapError _ >>= _)
                  rw [hunify]
                  rfl
              | ok elem' =>
                  show _ = ((elem.unify found).mapError _ >>= _)
                  rw [hunify]
                  exact ih elem'

theorem infer_array (env : Env) (hint : Ty) (s : Slot) (elems : List Node) :
    (infer env hint (.array s elems)).2 =
      if elems.isEmpty && hint.element.isUnknown then .error (.at s.position .emptyArray)
      else (elems.foldlM (joinElem env hint.element) (elementStart hint.element elems)).map
        fun elem => .array elem elems.length := by
  rw [infer, ← inferElems_eq_foldlM]
  split
  · rfl
  · cases inferElems env hint.element (elementStart hint.element elems) elems with
    | mk elems' r =>
        cases r with
        | error p => rfl
        | ok elem => rfl

variable (env : Env) (hint : Ty)

theorem agree_joinElem {node : Node} {found : Ty} (h : (infer env hint node).2 = .ok found)
    (elem : Ty) : Agree (joinElem env hint elem node) (elem.unify found) := by
  rw [joinElem, h]
  exact Ty.agree_mapError _ _

theorem joinElem_congr (node : Node) {a b : Ty} (h : a.alike b = true) :
    Agree (joinElem env hint a node) (joinElem env hint b node) := by
  cases hnode : (infer env hint node).2 with
  | error p =>
      rw [joinElem, joinElem, hnode]
      exact .error p p
  | ok found =>
      have hunify := Ty.unify_congr h found.alike_refl
      exact ((agree_joinElem env hint hnode a).trans hunify).trans
        (agree_joinElem env hint hnode b).symm

/-- Two elements can be exchanged. -/
theorem joinElem_swap (node node' : Node) (elem : Ty) :
    Agree (joinElem env hint elem node >>= (joinElem env hint · node'))
      (joinElem env hint elem node' >>= (joinElem env hint · node)) := by
  -- an element without a type stops both, wherever it stands
  have hfails : ∀ (n n' : Node) {p : Problem}, (infer env hint n).2 = .error p →
      ∃ q, (joinElem env hint elem n' >>= (joinElem env hint · n)) = .error q := by
    intro n n' p hn
    cases joinElem env hint elem n' with
    | error q => exact ⟨q, rfl⟩
    | ok elem' =>
        refine ⟨p, ?_⟩
        show joinElem env hint elem' n = .error p
        rw [joinElem, hn]
        rfl
  cases hnode : (infer env hint node).2 with
  | error p =>
      obtain ⟨q, hq⟩ := hfails node node' hnode
      rw [hq, joinElem, hnode]
      exact .error p q
  | ok found =>
      cases hnode' : (infer env hint node').2 with
      | error p =>
          obtain ⟨q, hq⟩ := hfails node' node hnode'
          rw [hq, joinElem, hnode']
          exact .error q p
      | ok found' =>
          have hleft := (agree_joinElem env hint hnode elem).bind fun h =>
            (joinElem_congr env hint node' h).trans (agree_joinElem env hint hnode' _)
          have hright := (agree_joinElem env hint hnode' elem).bind fun h =>
            (joinElem_congr env hint node h).trans (agree_joinElem env hint hnode _)
          exact (hleft.trans (Ty.unify_right_comm elem found found')).trans hright.symm

/-- The type of an array literal does not depend on the order of its elements. -/
theorem infer_array_of_perm (s s' : Slot) {elems elems' : List Node} (h : elems.Perm elems') :
    Agree (infer env hint (.array s elems)).2 (infer env hint (.array s' elems')).2 := by
  have hlength := h.length_eq
  have hempty : elems.isEmpty = elems'.isEmpty := by
    rw [Bool.eq_iff_iff, List.isEmpty_iff_length_eq_zero, List.isEmpty_iff_length_eq_zero, hlength]
  have hstart : elementStart hint.element elems = elementStart hint.element elems' := by
    rw [elementStart, elementStart, hempty]
  rw [infer_array, infer_array, hempty, hstart, hlength]
  split
  · exact .error _ _
  · have hfold := Ty.agree_foldlM_of_perm (joinElem_congr env hint.element)
      (joinElem_swap env hint.element) h (elementStart hint.element elems')
    refine hfold.map ?_
    intro a b halike
    exact Bool.and_eq_true_iff.2 ⟨beq_self_eq_true _, halike⟩

end Typing

namespace Ty

/-! ## The laws -/

theorem alike_comm (a b : Ty) : a.alike b = b.alike a := by
  rw [Bool.eq_iff_iff]
  exact ⟨alike_symm, alike_symm⟩

/-- The laws of `alike`, `accepts`, `castable` and `unify`, and that the type of an array
literal does not depend on the order of its elements. -/
theorem rules_lawful :
    -- `alike` is an equivalence, and equal types are alike
    ((∀ a : Ty, a.alike a = true) ∧ (∀ a b : Ty, a.alike b = b.alike a) ∧
      (∀ a b c : Ty, a.alike b = true → b.alike c = true → a.alike c = true) ∧
      ∀ a b : Ty, a = b → a.alike b = true) ∧
    -- resolved types accept themselves, and no others do
    ((∀ ty : Ty, ty.accepts ty = true ↔ ty.isResolved = true) ∧
      (∀ ty : Ty, ty.isResolved = true ↔ ¬ Part .unknown ty) ∧
      ∀ a b c : Ty, a.accepts b = true → b.accepts c = true → a.accepts c = true) ∧
    -- `unknown` inside is never stored or cast
    (∀ a b : Ty, Part .unknown a ∨ Part .unknown b →
      a.accepts b = false ∧ ∀ kind, a.castable b kind = false) ∧
    (∀ a b : Ty, a.castable b .implicit = true → a.castable b .explicit = true) ∧
    -- `unknown` is the unit of `unify`, and other types must be alike
    (∀ ty : Ty, Ty.unknown.unify ty = .ok ty ∧ ty.unify .unknown = .ok ty) ∧
    (∀ a b : Ty, a ≠ .unknown → b ≠ .unknown →
      ((∃ ty, a.unify b = .ok ty) ↔ a.alike b = true) ∧
        ∀ ty, a.unify b = .ok ty → ty.alike a = true ∧ ty.alike b = true) ∧
    -- the order of types does not matter
    (∀ a b : Ty, Agree (a.unify b) (b.unify a)) ∧
    (∀ a b c : Ty, Agree (a.unify b >>= (·.unify c)) (b.unify c >>= (a.unify ·))) ∧
    (∀ types types' : List Ty, types.Perm types' →
      Agree (types.foldlM unify .unknown) (types'.foldlM unify .unknown)) ∧
    ∀ (env : Typing.Env) (hint : Ty) (s s' : Slot) (elems elems' : List Node),
      elems.Perm elems' → Agree (Typing.infer env hint (.array s elems)).2
        (Typing.infer env hint (.array s' elems')).2 := by
  refine ⟨⟨alike_refl, alike_comm, ?_, ?_⟩, ⟨accepts_self_iff, isResolved_iff, ?_⟩, ?_, ?_, ?_, ?_,
    unify_comm, unify_assoc, ?_, ?_⟩
  · intro a b c h h'
    exact alike_trans h h'
  · rintro a _ rfl
    exact a.alike_refl
  · intro a b c h h'
    exact accepts_trans h h'
  · intro a b h
    exact refused_of_unresolved h
  · intro a b h
    exact castable_explicit h
  · intro ty
    exact ⟨rfl, unify_unknown ty⟩
  · intro a b ha hb
    exact ⟨exists_unify_iff ha hb, fun ty h => alike_of_unify ha hb h⟩
  · intro types types' h
    exact agree_foldlM_of_perm (fun ty _ _ h => unify_congr h ty.alike_refl)
      (fun b c a => unify_right_comm a b c) h .unknown
  · intro env hint s s' elems elems' h
    exact Typing.infer_array_of_perm env hint s s' h

/-- Rows of records of one name. -/
def pairs (members : List Ty) : Ty := .array (.record "Pair" members) 2

/-- Rows of records of one name with different members are one type; so they unify in
any order, and the common type is whichever comes first. -/
theorem rules_lawful_pairs :
    ((pairs [.byte]).alike (pairs [.word]) = true ∧ (pairs [.word]).alike (pairs []) = true ∧
      (pairs [.byte]).alike (pairs []) = true) ∧
    ((Ty.array .byte 5).accepts (.array .byte 3) = true ∧
      (Ty.array .byte 3).accepts (.array .byte 0) = true ∧
      (Ty.array .byte 5).accepts (.array .byte 0) = true) ∧
    (Part .unknown (pairs [.ref .unknown]) ∧
      (pairs [.ref .unknown]).castable (pairs [.byte]) .explicit = false) ∧
    (Ty.word.castable .byte .implicit = true ∧ Ty.word.castable .byte .explicit = true) ∧
    (∃ ty, (pairs [.byte]).unify (pairs [.word]) = .ok ty) ∧
    ([.unknown, pairs [.byte], pairs [.word]].foldlM unify .unknown = .ok (pairs [.byte]) ∧
      [pairs [.word], .unknown, pairs [.byte]].foldlM unify .unknown = .ok (pairs [.word]) ∧
      Agree ([.unknown, pairs [.byte], pairs [.word]].foldlM unify .unknown)
        ([pairs [.word], .unknown, pairs [.byte]].foldlM unify .unknown)) ∧
    Agree (Typing.infer {} .unknown (.array {} [.literal {} 1, .literal {} 0x100])).2
      (Typing.infer {} .unknown (.array {} [.literal {} 0x100, .literal {} 1])).2 := by
  obtain ⟨⟨-, -, htrans, -⟩, ⟨-, -, haccepts⟩, hunresolved, hcast, -, hunify, -, -, hperm,
    hinfer⟩ :=
    rules_lawful
  have hpart : Part .unknown (pairs [.ref .unknown]) :=
    .element (.member List.mem_cons_self (.target .self))
  refine ⟨⟨rfl, rfl, htrans _ (pairs [.word]) _ rfl rfl⟩,
    ⟨rfl, rfl, haccepts _ (.array .byte 3) _ rfl rfl⟩,
    ⟨hpart, (hunresolved _ _ (.inl hpart)).2 .explicit⟩, ⟨rfl, hcast _ _ rfl⟩,
    (hunify (pairs [.byte]) (pairs [.word]) (by decide) (by decide)).1.2 rfl,
    ⟨rfl, rfl, hperm _ _ (by decide)⟩, ?_⟩
  exact hinfer _ _ _ _ _ _ (List.Perm.swap ..)

end Ty

end Cartridge
