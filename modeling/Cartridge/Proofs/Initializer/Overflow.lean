/-
# `Cartridge.Proofs.Initializer.Overflow` — where the code of a value overflows

The code of a value is made along sizes and places, which are worked out before they
are known to be in range.  What does not fit its word is a fault, and there are two
kinds of such numbers:

    size      the type of a slot has an array that overflows
    place     a part of the value, or a byte of it, lies past the address space

The second kind needs records of one name with different members.  The length of a
value comes from its own type and the distance of its parts from the type of the
position; where records of one name have the same members the two agree, so that
there is *room*: a value that starts in the address space ends in it.

Proved here: where no record name is ambiguous a fault is one of a size
(`Typed.overflows`, and `Fitted.overflows` for a declaration).
-/
import Cartridge.Proofs.Initializer.Effect
import Cartridge.Proofs.Typing.Soundness

namespace Cartridge

namespace Typing

section Overflow

variable {records : String → List Ty → Prop} {env : Env}

mutual

/-- A value for which there is room faults for the sake of a size: that of its
position, or that of a slot inside it. -/
theorem Typed.overflows (hrecords : Ty.Unambiguous records)
    (henv : ∀ name ty, env.find? name = some ty → ty.Within records) {hint ty : Ty}
    (hhint : hint.Within records) :
    ∀ {node node' : Node}, Typed env hint node node' ty →
      (∀ t ∈ node.written, t.Within records) →
      ∀ {target : Ty} {dest : Place} {f : Fault}, Ty.Takes target ty →
        (∀ n, ty.size = .ok n → dest.offset.toNat + n ≤ 0x10000) →
        node'.initCode dest target = .error (.fault f) →
        target.Overflows ∨ ∃ part ∈ node'.parts, part.ty.Overflows
  | _, _, .literal, _, target, dest, f, _, _, hfault => by
      rw [Node.initCode] at hfault
      split at hfault <;> cases hfault
  | _, _, .ident _ _, _, target, dest, f, _, hroom, hfault => by
      rw [Node.initCode] at hfault
      rcases Node.copyCode_eq_error hfault with ⟨stop, hsize, hstop⟩ | ⟨size, hsize, hlt, -⟩
      · obtain rfl := Stop.map_eq_fault_iff.1 hstop.symm
        exact .inr ⟨_, List.mem_cons_self, (Ty.size_fault hsize).2⟩
      · exact absurd (hroom size hsize) (Nat.not_le_of_lt hlt)
  | _, _, .array _ helems, hwritten, target, dest, f, htakes, hroom, hfault => by
      obtain ⟨elem, len, rfl, hsize | hsize | ⟨whole, size, hwhole, hsize, hcode⟩⟩ :=
        Node.initCode_array_eq_fault hfault
      · exact .inl (Ty.size_fault hsize).2
      · exact .inl (Ty.size_fault hsize).2.array
      · obtain rfl := htakes.element
        obtain ⟨n, -, hn⟩ := htakes.size hwhole
        obtain ⟨s, hs, rfl, -⟩ := Ty.size_array_eq_ok_iff.1 hn
        obtain rfl := Except.ok.inj (hs.symm.trans hsize)
        obtain ⟨part, hpart, hoverflows⟩ := helems.overflows hrecords henv hhint.element_of_hint
          (within_elementStart hhint _) hs hwritten
          (by rw [Nat.zero_mul, Nat.zero_add]; exact hroom _ hn) hcode
        exact .inr ⟨part, List.mem_cons_of_mem _ hpart, hoverflows⟩
  | _, _, .addressOf _ _, _, target, dest, f, _, _, hfault => by
      cases hfault
  | _, _, .cast (s := s) _ hoperand _, hwritten, target, dest, f, _, hroom, hfault => by
      obtain ⟨halike, hcode⟩ := Node.initCode_cast_eq_fault hfault
      have hwritten' := fun t ht => hwritten t (List.mem_cons_of_mem _ ht)
      have hsource := hoperand.within henv Ty.within_unknown hwritten'
      rw [hoperand.ty_eq] at halike
      have heq := Ty.eq_of_alike hrecords halike hsource
        (hwritten _ List.mem_cons_self)
      rcases hoperand.overflows hrecords henv Ty.within_unknown hwritten' (heq ▸ .same _)
        (heq ▸ hroom) hcode with hslot | ⟨part, hpart, hoverflows⟩
      · exact .inr ⟨_, List.mem_cons_self, hslot⟩
      · exact .inr ⟨part, List.mem_cons_of_mem _ hpart, hoverflows⟩

/-- Elements for which there is room fault for the sake of a slot inside them. -/
theorem TypedAll.overflows (hrecords : Ty.Unambiguous records)
    (henv : ∀ name ty, env.find? name = some ty → ty.Within records) {hint start elem whole : Ty}
    {position : Position} (hhint : hint.Within records) (hstart : start.Within records) {s : Nat}
    (hsize : elem.size = .ok s) :
    ∀ {nodes nodes' : List Node}, TypedAll env hint start nodes nodes' elem →
      (∀ t ∈ Node.writtenAll nodes, t.Within records) →
      ∀ {dest : Place} {i : Nat} {f : Fault},
        dest.offset.toNat + (i * s + s * nodes.length) ≤ 0x10000 →
        Node.elemsCode dest whole elem s position i nodes' = .error (.fault f) →
        ∃ part ∈ Node.partsAll nodes', part.ty.Overflows
  | _, _, .nil, _, _, _, _, _, hfault => by cases hfault
  | _ :: nodes, _, .cons hnode hunify hnodes, hwritten, dest, i, f, hroom, hfault => by
      have hhead := fun t ht => hwritten t (List.mem_append_left _ ht)
      have htail := fun t ht => hwritten t (List.mem_append_right _ ht)
      obtain ⟨hfound, hmid⟩ := TypedAll.found_eq hrecords henv hhint hstart
        hhead hnode hunify hnodes
      rw [hfound] at hnode
      rw [hmid] at hnodes
      have helem := hnode.within henv hhint hhead
      rw [List.length_cons, Nat.mul_succ] at hroom
      obtain ⟨offset, hnat, ⟨hlimit, -⟩ | ⟨hfits, hfirst | hlater⟩⟩ :=
        Node.elemsCode_cons_eq_fault hfault
      · -- elements without bytes all start where the first one does
        have hfits : dest.offset.toNat + offset.toNat < 0x10000 := by
          rcases Nat.eq_zero_or_pos s with rfl | hpos
          · rw [hnat, Nat.mul_zero]
            exact dest.offset.toNat_lt
          · omega
        exact absurd hlimit (Nat.not_le_of_lt hfits)
      · have hroom' : ∀ n, elem.size = .ok n →
            (dest.plus offset).offset.toNat + n ≤ 0x10000 := by
          intro n hn
          obtain rfl := Except.ok.inj (hsize.symm.trans hn)
          rw [Place.toNat_offset_plus hfits, hnat]
          omega
        rcases hnode.overflows hrecords henv hhint hhead (.same elem) hroom' hfirst with
          hslot | ⟨part, hpart, hoverflows⟩
        · exact absurd (Ty.size_ok hsize).2 hslot.not_sized
        · exact ⟨part, List.mem_append_left _ hpart, hoverflows⟩
      · obtain ⟨part, hpart, hoverflows⟩ := hnodes.overflows hrecords henv hhint helem hsize htail
          (by rw [Nat.succ_mul]; omega) hlater
        exact ⟨part, List.mem_append_right _ hpart, hoverflows⟩

end

/-- A declaration faults for the sake of its type, or of a slot inside its initial
value. -/
theorem Fitted.overflows (hrecords : Ty.Unambiguous records)
    (henv : ∀ name ty, env.find? name = some ty → ty.Within records) {declared ty : Ty}
    {init init' : Node} (h : Fitted env declared init init' ty)
    (hdeclared : declared.Within records) (hwritten : ∀ t ∈ init.written, t.Within records)
    {name : String} {f : Fault}
    (hfault : init'.initCode { symbol := name } ty = .error (.fault f)) :
    ty.Overflows ∨ ∃ part ∈ init'.parts, part.ty.Overflows := by
  have hroom : ∀ (found : Ty) (n : Nat), found.size = .ok n →
      (Place.offset { symbol := name }).toNat + n ≤ 0x10000 := by
    intro found n hn
    have hle := found.size_le hn
    show 0 + n ≤ 0x10000
    rw [maxSize] at hle
    omega
  cases h with
  | inferred htyped =>
      exact htyped.overflows hrecords henv Ty.within_unknown hwritten (.same ty) (hroom ty) hfault
  | accepted htyped haccepts =>
      have hfound := htyped.within henv hdeclared hwritten
      have htakes := Ty.takes_of_accepts hrecords haccepts hdeclared hfound
      exact htyped.overflows hrecords henv hdeclared hwritten htakes (hroom _) hfault
  | widened htyped =>
      rw [Node.widened, Node.initCode] at hfault
      exact absurd hfault Node.scalarCode_ne_fault

end Overflow

end Typing

end Cartridge
