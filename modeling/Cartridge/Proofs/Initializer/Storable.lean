/-
# `Cartridge.Proofs.Initializer.Storable` — what a sound value lacks if it cannot be stored

A sound value has the shape that storing it asks for: under a number there is a
literal or a variable, under an array type an array, behind an address a
variable.  What is left to go wrong is the size.

    ident         the type of the variable has none
    array         the position has none, or the index of an element does not fit a word
    cast          as the operand, in a position of the type of the cast

Proved here: if a sound value cannot be stored where it is accepted, the error
says that a type has no size, and if the position has one, then some slot
inside the value has none or some array literal is too long
(`initCode_error`).
-/
import Cartridge.Proofs.Initializer.Code
import Cartridge.Proofs.Initializer.Value
import Cartridge.Proofs.Typing.Soundness

namespace Cartridge

/-- An error that is about a type without a size. -/
def DeclError.Unsized (e : DeclError) : Prop := ∃ ty position, e = .type (.unsized ty) position

/-- The number of elements that an array literal lists, 0 for other nodes. -/
def Node.count : Node → Nat
  | .array _ elems => elems.length
  | _ => 0

/-- The slot of a value has a size, and a word can count its elements. -/
structure Node.Storable (node : Node) : Prop where
  sized : ∃ n, node.ty.size = .ok n
  countable : node.count ≤ maxSize

instance (ty : Ty) : Decidable (∃ n, ty.size = .ok n) :=
  match ty.size with
  | .ok n => .isTrue ⟨n, rfl⟩
  | .error _ => .isFalse fun ⟨_, hn⟩ => nomatch hn

instance (node : Node) : Decidable node.Storable :=
  decidable_of_iff ((∃ n, node.ty.size = .ok n) ∧ node.count ≤ maxSize)
    ⟨fun ⟨hsized, hcount⟩ => ⟨hsized, hcount⟩, fun h => ⟨h.sized, h.countable⟩⟩

/-- The complaint about a size, as it is passed on. -/
theorem Ty.unsized_of_size {ty : Ty} {stop : Stop TypeError} (h : ty.size = .error stop)
    {position : Position} {e : DeclError}
    (heq : (Stop.map (.type · position) stop : Stop DeclError) = .error e) : e.Unsized := by
  cases stop with
  | error e' =>
      cases heq
      obtain ⟨part, rfl⟩ := ty.size_error h
      exact ⟨part, position, rfl⟩
  | fault f => cases heq

theorem Ty.not_sized {ty : Ty} {stop : Stop TypeError} (h : ty.size = .error stop) :
    ¬∃ n, ty.size = .ok n := by
  rintro ⟨n, hn⟩
  cases h.symm.trans hn

namespace Node

variable {earlier : List Node}

theorem SoundValue.truthful {node : Node} (h : node.SoundValue earlier) : node.Truthful earlier :=
  (h node node.mem_parts_self).2

theorem SoundValue.isResolved {node : Node} (h : node.SoundValue earlier) :
    node.ty.isResolved = true :=
  (h node node.mem_parts_self).1

theorem SoundValue.operand {s : Slot} {kind : CastKind} {operand : Node}
    (h : (Node.cast s kind operand).SoundValue earlier) : operand.SoundValue earlier :=
  fun part hpart => h part (List.mem_cons_of_mem _ hpart)

theorem mem_partsAll {node part : Node} {nodes : List Node} (hnode : node ∈ nodes)
    (hpart : part ∈ node.parts) : part ∈ partsAll nodes := by
  induction nodes with
  | nil => cases hnode
  | cons first nodes ih =>
      rcases List.mem_cons.1 hnode with rfl | hnode
      · exact List.mem_append_left _ hpart
      · exact List.mem_append_right _ (ih hnode)

/-! ## Numbers -/

theorem exists_cast? {ty : Ty} (h : ty.isPrimitive = true) (value : Scalar) :
    ∃ value', value.cast? ty = some value' := by
  cases ty <;> first | exact ⟨_, rfl⟩ | cases h

theorem exists_store? {ty : Ty} (h : ty.isPrimitive = true) (value : Scalar) (dest : Place) :
    ∃ i, value.store? dest ty = some i := by
  cases ty <;> first | exact ⟨_, rfl⟩ | cases h

/-- Under a number there is a literal or a variable, so its casts fold. -/
theorem exists_scalar : ∀ {node : Node}, node.SoundValue earlier → node.ty.isPrimitive = true →
    ∃ value, node.scalar = .ok value
  | .literal _ value, _, _ => ⟨.const value, rfl⟩
  | .ident s name, _, hprimitive => by
      have hty : s.ty.isPrimitive = true := hprimitive
      rw [scalar]
      split
      · exact ⟨_, rfl⟩
      · exact ⟨_, rfl⟩
      · next hbyte hword =>
          cases hs : s.ty with
          | byte => exact absurd hs hbyte
          | word => exact absurd hs hword
          | _ =>
              rw [hs] at hty
              cases hty
  | .array s elems, hsound, hprimitive => by
      obtain ⟨elem, hty, -⟩ := hsound.truthful
      rw [show (Node.array s elems).ty = .array elem elems.length from hty] at hprimitive
      cases hprimitive
  | .addressOf s operand, hsound, hprimitive => by
      rw [show (Node.addressOf s operand).ty = .ref operand.ty from hsound.truthful.2] at hprimitive
      cases hprimitive
  | .cast s kind operand, hsound, hprimitive => by
      obtain ⟨value, hvalue⟩ :=
        exists_scalar hsound.operand (Ty.isPrimitive_of_castable hprimitive hsound.truthful)
      obtain ⟨value', hvalue'⟩ := exists_cast? hprimitive value
      refine ⟨value', ?_⟩
      rw [scalar, hvalue]
      dsimp only
      rw [show value.cast? s.ty = some value' from hvalue']
  | .var .., hsound, _ => hsound.truthful.elim
  | .attribute .., hsound, _ => hsound.truthful.elim
  | .property .., hsound, _ => hsound.truthful.elim

theorem exists_scalarCode {node : Node} (hsound : node.SoundValue earlier)
    (hprimitive : node.ty.isPrimitive = true) (dest : Place) :
    ∃ code, node.scalarCode dest = .ok code := by
  obtain ⟨value, hvalue⟩ := exists_scalar hsound hprimitive
  obtain ⟨i, hi⟩ := exists_store? hprimitive value dest
  refine ⟨[i], ?_⟩
  rw [scalarCode, hvalue]
  dsimp only
  rw [hi]

/-! ## Values -/

/-- What takes an array literal is an array, long enough, that takes its elements. -/
theorem SoundValue.elements {s : Slot} {elems : List Node} {target : Ty}
    (h : (Node.array s elems).SoundValue earlier) (haccepts : target.accepts s.ty = true) :
    ∃ elem n, target = .array elem n ∧ elems.length ≤ n ∧
      ∀ node ∈ elems, elem.accepts node.ty = true := by
  obtain ⟨elem, hty, halike⟩ := h.truthful
  rw [show s.ty = .array elem elems.length from hty] at haccepts
  obtain ⟨elem', n, rfl, hle, halike'⟩ := Ty.accepts_array haccepts
  refine ⟨elem', n, rfl, hle, fun node hnode => ?_⟩
  have hself := (h node (List.mem_cons_of_mem _ (mem_partsAll hnode node.mem_parts_self))).1
  exact Typing.accepts_of_alike (Ty.isResolved_of_accepts haccepts).1 hself
    (Ty.alike_trans halike' (halike node hnode))

/-- An element whose index and offset fit a word has an offset. -/
theorem elementOffset?_ne_none {size i k : Nat} (hi : i < k) (hk : k ≤ maxSize)
    (hsize : k * size ≤ maxSize) : elementOffset? size i ≠ none := by
  have hmul : i * size ≤ k * size := Nat.mul_le_mul_right size (Nat.le_of_lt hi)
  rw [elementOffset?, if_pos ⟨by omega, by omega⟩]
  exact Option.some_ne_none _

theorem initCode_literal {s : Slot} {value : UInt16} {target : Ty} (dest : Place)
    (hsound : (Node.literal s value).SoundValue earlier) (haccepts : target.accepts s.ty = true) :
    ∃ code, (Node.literal s value).initCode dest target = .ok code := by
  rcases hsound.truthful with hword | ⟨hbyte, -⟩
  · rw [hword] at haccepts
    rw [Ty.eq_of_accepts_primitive haccepts rfl]
    exact ⟨_, rfl⟩
  · rw [hbyte] at haccepts
    rw [Ty.eq_of_accepts_primitive haccepts rfl]
    exact ⟨_, rfl⟩

theorem copyCode_error {dest : Place} {name : String} {ty : Ty} {position : Position}
    {e : DeclError} (h : copyCode dest name ty position = .error (.error e)) :
    e.Unsized ∧ ¬∃ n, ty.size = .ok n := by
  rcases copyCode_eq_error h with ⟨stop, hsize, hstop⟩ | ⟨_, -, -, hstop⟩
  · exact ⟨Ty.unsized_of_size hsize hstop.symm, Ty.not_sized hsize⟩
  · cases hstop

mutual

/-- A sound value that cannot be stored where it is accepted wants a size. -/
theorem initCode_error : ∀ {node : Node} {target : Ty} {dest : Place} {e : DeclError},
    node.SoundValue earlier → target.accepts node.ty = true →
    node.initCode dest target = .error (.error e) →
    e.Unsized ∧ ((∃ n, target.size = .ok n) → ∃ part ∈ node.parts, ¬part.Storable)
  | .literal s value, target, dest, e, hsound, haccepts, h => by
      obtain ⟨code, hcode⟩ := initCode_literal dest hsound haccepts
      cases hcode.symm.trans h
  | .ident s name, target, dest, e, _, _, h => by
      rw [initCode] at h
      obtain ⟨hunsized, hsize⟩ := copyCode_error h
      exact ⟨hunsized, fun _ => ⟨_, List.mem_cons_self, fun hstorable => hsize hstorable.sized⟩⟩
  | .array s elems, target, dest, e, hsound, haccepts, h => by
      obtain ⟨elem, n, rfl, hle, helems⟩ := hsound.elements haccepts
      have hparts := fun part hpart => hsound part (List.mem_cons_of_mem _ hpart)
      rw [initCode] at h
      split at h
      · next hsize =>
          exact ⟨Ty.unsized_of_size hsize (Except.error.inj h),
            fun hsized => absurd hsized (Ty.not_sized hsize)⟩
      · next hsize _ =>
          refine ⟨Ty.unsized_of_size hsize (Except.error.inj h), fun ⟨k, hk⟩ => ?_⟩
          obtain ⟨size, hsize', -, -⟩ := Ty.size_array_eq_ok_iff.1 hk
          cases hsize.symm.trans hsize'
      · next k size hwhole hsize =>
          obtain ⟨hunsized, hpart⟩ := elemsCode_error hsize hparts helems h
          refine ⟨hunsized, fun _ => ?_⟩
          by_cases hcount : elems.length ≤ maxSize
          · -- the elements end inside the position, so no index is to blame
            obtain ⟨size', hsize', rfl, hfits⟩ := Ty.size_array_eq_ok_iff.1 hwhole
            obtain rfl := Except.ok.inj (hsize.symm.trans hsize')
            have hmul : elems.length * size ≤ size * n := by
              rw [Nat.mul_comm]
              exact Nat.mul_le_mul_left size hle
            rw [Nat.zero_add] at hpart
            obtain ⟨part, hmem, hnot⟩ := hpart hcount (Nat.le_trans hmul hfits)
            exact ⟨part, List.mem_cons_of_mem _ hmem, hnot⟩
          · exact ⟨_, List.mem_cons_self, fun hstorable => hcount hstorable.countable⟩
  | .addressOf s operand, target, dest, e, hsound, _, h => by
      obtain ⟨hident, -⟩ := hsound.truthful
      cases operand with
      | ident s' name => cases h
      | _ => cases hident
  | .cast s kind operand, target, dest, e, hsound, _, h => by
      rw [initCode] at h
      split at h
      · next hprimitive =>
          obtain ⟨code, hcode⟩ := exists_scalarCode hsound hprimitive dest
          cases hcode.symm.trans h
      · next hprimitive =>
          have halike := Ty.alike_of_castable hprimitive hsound.truthful
          rw [if_pos (Ty.alike_symm halike)] at h
          have haccepts :=
            Typing.accepts_of_alike hsound.isResolved hsound.operand.isResolved halike
          obtain ⟨hunsized, hpart⟩ := initCode_error hsound.operand haccepts h
          refine ⟨hunsized, fun _ => ?_⟩
          by_cases hsized : ∃ n, s.ty.size = .ok n
          · obtain ⟨part, hmem, hnot⟩ := hpart hsized
            exact ⟨part, List.mem_cons_of_mem _ hmem, hnot⟩
          · exact ⟨_, List.mem_cons_self, fun hstorable => hsized hstorable.sized⟩
  | .var .., _, _, _, hsound, _, _ => hsound.truthful.elim
  | .attribute .., _, _, _, hsound, _, _ => hsound.truthful.elim
  | .property .., _, _, _, hsound, _, _ => hsound.truthful.elim

/-- Elements from index `i` on have no code only if a part of them is not storable. -/
theorem elemsCode_error {elem whole : Ty} {dest : Place} {size : Nat} {position : Position}
    (hsize : elem.size = .ok size) : ∀ {nodes : List Node} {i : Nat} {e : DeclError},
    (∀ part ∈ partsAll nodes, part.ty.isResolved = true ∧ part.Truthful earlier) →
    (∀ node ∈ nodes, elem.accepts node.ty = true) →
    elemsCode dest whole elem size position i nodes = .error (.error e) →
    e.Unsized ∧ (i + nodes.length ≤ maxSize → (i + nodes.length) * size ≤ maxSize →
      ∃ part ∈ partsAll nodes, ¬part.Storable)
  | [], i, e, _, _, h => by cases h
  | node :: nodes, i, e, hsound, haccepts, h => by
      have hhead : node.SoundValue earlier := fun part hpart =>
        hsound part (List.mem_append_left _ hpart)
      have htail := fun part hpart => hsound part (List.mem_append_right _ hpart)
      have hlast : i + (node :: nodes).length = i + 1 + nodes.length := by
        rw [List.length_cons]
        omega
      rw [elemsCode] at h
      split at h
      · next hoffset =>
          cases h
          refine ⟨⟨whole, position, rfl⟩, fun hcount hfits => ?_⟩
          have hi : i < i + (node :: nodes).length := by
            rw [List.length_cons]
            omega
          exact absurd hoffset (elementOffset?_ne_none hi hcount hfits)
      · rcases except_bind_eq_error_iff.1 h with hshift | ⟨place, -, hinit⟩
        · cases (Place.shift_eq_error_iff.1 hshift).2
        · rcases except_bind_eq_error_iff.1 hinit with hnode | ⟨code, -, hrest⟩
          · obtain ⟨hunsized, hpart⟩ :=
              initCode_error hhead (haccepts node List.mem_cons_self) hnode
            refine ⟨hunsized, fun _ _ => ?_⟩
            obtain ⟨part, hmem, hnot⟩ := hpart ⟨size, hsize⟩
            exact ⟨part, List.mem_append_left _ hmem, hnot⟩
          · rcases except_bind_eq_error_iff.1 hrest with hnodes | ⟨rest, -, happend⟩
            · obtain ⟨hunsized, hpart⟩ := elemsCode_error hsize htail
                (fun other hother => haccepts other (List.mem_cons_of_mem _ hother)) hnodes
              rw [hlast]
              refine ⟨hunsized, fun hcount hfits => ?_⟩
              obtain ⟨part, hmem, hnot⟩ := hpart hcount hfits
              exact ⟨part, List.mem_append_right _ hmem, hnot⟩
            · cases happend

end

end Node

end Cartridge
