/-
# `Cartridge.Proofs.Initializer.Code` — what the code of a value is put together from

A value that has code has parts that have code, and its own is made of theirs.
Each statement here takes one function apart that way, so that a property of the
code is proved along the parts of the value:

    number        the folded number, and the instruction that stores it
    variable      its size, and one copy or a copy of each of its bytes
    array         the sizes of the array and of an element, and its elements
    cast          a number, or the value inside if the cast changes nothing
    elements      the first of them at its offset, and the others behind it

A place that was worked out on the way is a word, so no sum of offsets was cut.  A
fault is taken apart in the same way, down to the number that does not fit its word.
-/
import Cartridge.Initializer
import Cartridge.Proofs.Success
import Cartridge.Proofs.Ty.Extent

namespace Cartridge

theorem Ty.size_of_width? {ty : Ty} {width : Width} (h : ty.width? = some width) :
    ty.size = .ok width.bytes := by
  cases ty <;> cases h <;> rfl

namespace Node

variable {dest : Place} {s : Slot} {kind : CastKind} {operand node : Node}
  {nodes elems : List Node} {code : List Instr}

theorem scalar_cast_eq_ok {value : Scalar} (h : (Node.cast s kind operand).scalar = .ok value) :
    ∃ value₀, operand.scalar = .ok value₀ ∧ value₀.cast? s.ty = some value := by
  rw [scalar] at h
  split at h
  · cases h
  · next value₀ hvalue₀ =>
      split at h
      · next hcast =>
          cases h
          exact ⟨value₀, hvalue₀, hcast⟩
      · cases h

theorem scalarCode_eq_ok (h : scalarCode dest node = .ok code) :
    ∃ value i, node.scalar = .ok value ∧ value.store? dest node.ty = some i ∧ code = [i] := by
  unfold scalarCode at h
  split at h
  · cases h
  · next value hvalue =>
      split at h
      · next i hstore =>
          cases h
          exact ⟨value, i, hvalue, hstore, rfl⟩
      · cases h

/-- The copy of byte `i` of a variable, with its place modulo the address space. -/
def byteCopy (dest : Place) (name : String) (i : Nat) : Instr :=
  .copy (dest.plus (UInt16.ofNat i)) (.place { symbol := name, offset := UInt16.ofNat i }) .byte

theorem copyByte_eq_ok {name : String} {i : Nat} {instr : Instr}
    (h : copyByte dest name i = .ok instr) :
    dest.offset.toNat + (UInt16.ofNat i).toNat < 0x10000 ∧ instr = byteCopy dest name i := by
  obtain ⟨p, hp, rfl⟩ := except_map_eq_ok_iff.1 h
  obtain ⟨hfits, rfl⟩ := Place.shift_eq_ok_iff.1 hp
  exact ⟨hfits, rfl⟩

theorem copyByte_eq_error {name : String} {i : Nat} {stop : Stop DeclError}
    (h : copyByte dest name i = .error stop) :
    0x10000 ≤ dest.offset.toNat + (UInt16.ofNat i).toNat ∧ stop = .fault .overflow :=
  Place.shift_eq_error_iff.1 (except_map_eq_error_iff.1 h)

theorem copyCode_eq_ok {name : String} {ty : Ty} {position : Position}
    (h : copyCode dest name ty position = .ok code) :
    ∃ size, ty.size = .ok size ∧
      ((∃ width : Width, size = width.bytes ∧
          code = [.copy dest (.place { symbol := name }) width]) ∨
        (∀ i < size, dest.offset.toNat + i < 0x10000) ∧
          code = (List.range size).map (byteCopy dest name)) := by
  unfold copyCode at h
  split at h
  · next width hwidth =>
      cases h
      exact ⟨_, Ty.size_of_width? hwidth, .inl ⟨width, rfl, rfl⟩⟩
  · split at h
    · cases h
    · next size hsize =>
        obtain ⟨hcode, hshifts⟩ := mapM_eq_ok (g := byteCopy dest name)
          (fun i instr h => (copyByte_eq_ok h).2) h
        refine ⟨size, hsize, .inr ⟨fun i hi => ?_, hcode⟩⟩
        have hfits := (copyByte_eq_ok (hshifts i (List.mem_range.2 hi))).1
        rwa [toNat_ofNat_of_le (Nat.le_trans (Nat.le_of_lt hi) (Ty.size_le ty hsize))] at hfits

/-- Copying a variable stops because its type has no size, or at a byte whose place
is past the address space. -/
theorem copyCode_eq_error {name : String} {ty : Ty} {position : Position} {stop : Stop DeclError}
    (h : copyCode dest name ty position = .error stop) :
    (∃ stop', ty.size = .error stop' ∧ stop = stop'.map (.type · position)) ∨
      ∃ size, ty.size = .ok size ∧ 0x10000 < dest.offset.toNat + size ∧
        stop = .fault .overflow := by
  unfold copyCode at h
  split at h
  · cases h
  · split at h
    · next stop' hsize =>
        cases h
        exact .inl ⟨stop', hsize, rfl⟩
    · next size hsize =>
        obtain ⟨i, hi, hbyte⟩ := exists_of_mapM_eq_error h
        have hlt := List.mem_range.1 hi
        obtain ⟨hlimit, rfl⟩ := copyByte_eq_error hbyte
        rw [toNat_ofNat_of_le (Nat.le_trans (Nat.le_of_lt hlt) (Ty.size_le ty hsize))] at hlimit
        exact .inr ⟨size, hsize, by omega, rfl⟩

theorem initCode_array_eq_ok {target : Ty}
    (h : (Node.array s elems).initCode dest target = .ok code) :
    ∃ elem n whole size, target = .array elem n ∧ target.size = .ok whole ∧ elem.size = .ok size ∧
      elemsCode dest target elem size s.position 0 elems = .ok code := by
  cases target with
  | array elem n =>
      rw [initCode] at h
      split at h
      · cases h
      · cases h
      · next whole size hwhole hsize => exact ⟨elem, n, whole, size, rfl, hwhole, hsize, h⟩
  | _ => cases h

theorem initCode_cast_eq_ok {target : Ty}
    (h : (Node.cast s kind operand).initCode dest target = .ok code) :
    (s.ty.isPrimitive = true ∧ scalarCode dest (.cast s kind operand) = .ok code) ∨
      (¬ s.ty.isPrimitive = true ∧ operand.ty.alike s.ty = true ∧
        operand.initCode dest s.ty = .ok code) := by
  rw [initCode] at h
  split at h
  · next hprimitive => exact .inl ⟨hprimitive, h⟩
  · next hprimitive =>
      split at h
      · next halike => exact .inr ⟨hprimitive, halike, h⟩
      · cases h

theorem elementOffset?_eq_some {size i : Nat} {offset : UInt16}
    (h : elementOffset? size i = some offset) :
    offset = UInt16.ofNat (i * size) ∧ offset.toNat = i * size := by
  unfold elementOffset? at h
  split at h
  · next hle =>
      obtain rfl := Option.some.inj h
      exact ⟨rfl, toNat_ofNat_of_le hle.2⟩
  · cases h

theorem elemsCode_cons_eq_ok {whole elem : Ty} {size i : Nat} {position : Position}
    (h : elemsCode dest whole elem size position i (node :: nodes) = .ok code) :
    ∃ offset front rest, offset = UInt16.ofNat (i * size) ∧ offset.toNat = i * size ∧
      dest.offset.toNat + offset.toNat < 0x10000 ∧
      node.initCode (dest.plus offset) elem = .ok front ∧
      elemsCode dest whole elem size position (i + 1) nodes = .ok rest ∧ code = front ++ rest := by
  rw [elemsCode] at h
  split at h
  · cases h
  · next offset hoffset =>
      obtain ⟨heq, hnat⟩ := elementOffset?_eq_some hoffset
      obtain ⟨place, hplace, hinit⟩ := except_bind_eq_ok_iff.1 h
      obtain ⟨hfits, rfl⟩ := Place.shift_eq_ok_iff.1 hplace
      obtain ⟨front, hfront, helems⟩ := except_bind_eq_ok_iff.1 hinit
      obtain ⟨rest, hrest, happend⟩ := except_bind_eq_ok_iff.1 helems
      obtain rfl := Except.ok.inj happend
      exact ⟨offset, front, rest, heq, hnat, hfits, hfront, hrest, rfl⟩

/-! ## Faults -/

variable {f : Fault}

theorem scalarCode_ne_fault : scalarCode dest node ≠ .error (.fault f) := by
  intro h
  unfold scalarCode at h
  split at h
  · cases h
  · split at h <;> cases h

theorem initCode_array_eq_fault {target : Ty}
    (h : (Node.array s elems).initCode dest target = .error (.fault f)) :
    ∃ elem n, target = .array elem n ∧
      (target.size = .error (.fault f) ∨ elem.size = .error (.fault f) ∨
        ∃ whole size, target.size = .ok whole ∧ elem.size = .ok size ∧
          elemsCode dest target elem size s.position 0 elems = .error (.fault f)) := by
  cases target with
  | array elem n =>
      refine ⟨elem, n, rfl, ?_⟩
      rw [initCode] at h
      split at h
      · next hsize => exact .inl (Stop.map_eq_fault_iff.1 (Except.error.inj h) ▸ hsize)
      · next hsize _ => exact .inr (.inl (Stop.map_eq_fault_iff.1 (Except.error.inj h) ▸ hsize))
      · next whole size hwhole hsize => exact .inr (.inr ⟨whole, size, hwhole, hsize, h⟩)
  | _ => cases h

theorem initCode_cast_eq_fault {target : Ty}
    (h : (Node.cast s kind operand).initCode dest target = .error (.fault f)) :
    operand.ty.alike s.ty = true ∧ operand.initCode dest s.ty = .error (.fault f) := by
  rw [initCode] at h
  split at h
  · exact absurd h scalarCode_ne_fault
  · split at h
    · next halike => exact ⟨halike, h⟩
    · cases h

theorem elemsCode_cons_eq_fault {whole elem : Ty} {size i : Nat} {position : Position}
    (h : elemsCode dest whole elem size position i (node :: nodes) = .error (.fault f)) :
    ∃ offset : UInt16, offset.toNat = i * size ∧
      (0x10000 ≤ dest.offset.toNat + offset.toNat ∧ f = .overflow ∨
        dest.offset.toNat + offset.toNat < 0x10000 ∧
          (node.initCode (dest.plus offset) elem = .error (.fault f) ∨
            elemsCode dest whole elem size position (i + 1) nodes = .error (.fault f))) := by
  rw [elemsCode] at h
  split at h
  · cases h
  · next offset hoffset =>
      refine ⟨offset, (elementOffset?_eq_some hoffset).2, ?_⟩
      rcases except_bind_eq_error_iff.1 h with hshift | ⟨place, hplace, hinit⟩
      · obtain ⟨hlimit, hfault⟩ := Place.shift_eq_error_iff.1 hshift
        exact .inl ⟨hlimit, Stop.fault.inj hfault⟩
      · obtain ⟨hfits, rfl⟩ := Place.shift_eq_ok_iff.1 hplace
        refine .inr ⟨hfits, ?_⟩
        rcases except_bind_eq_error_iff.1 hinit with hfirst | ⟨code, -, hrest⟩
        · exact .inl hfirst
        · rcases except_bind_eq_error_iff.1 hrest with hlater | ⟨rest, -, happend⟩
          · exact .inr hlater
          · cases happend

mutual

/-- The only fault of the code of a value is a number that does not fit its word. -/
theorem initCode_fault : ∀ {node : Node} {dest : Place} {target : Ty},
    node.initCode dest target = .error (.fault f) → f = .overflow
  | .literal s value, dest, target, h => by
      rw [initCode] at h
      split at h <;> cases h
  | .ident s name, dest, target, h => by
      rw [initCode] at h
      rcases copyCode_eq_error h with ⟨stop, hsize, hstop⟩ | ⟨_, -, -, hstop⟩
      · obtain rfl := Stop.map_eq_fault_iff.1 hstop.symm
        exact (Ty.size_fault hsize).1
      · exact Stop.fault.inj hstop
  | .array s elems, dest, target, h => by
      obtain ⟨elem, n, rfl, hsize | hsize | ⟨whole, size, -, -, helems⟩⟩ :=
        initCode_array_eq_fault h
      · exact (Ty.size_fault hsize).1
      · exact (Ty.size_fault hsize).1
      · exact elemsCode_fault helems
  | .addressOf s operand, dest, target, h => by cases operand <;> cases h
  | .cast s kind operand, dest, target, h => initCode_fault (initCode_cast_eq_fault h).2

theorem elemsCode_fault {whole elem : Ty} {size : Nat} {position : Position} :
    ∀ {nodes : List Node} {dest : Place} {i : Nat},
    elemsCode dest whole elem size position i nodes = .error (.fault f) → f = .overflow
  | node :: nodes, dest, i, h => by
      obtain ⟨offset, -, ⟨-, hfault⟩ | ⟨-, hfirst | hlater⟩⟩ := elemsCode_cons_eq_fault h
      · exact hfault
      · exact initCode_fault hfirst
      · exact elemsCode_fault hlater

end

end Node

end Cartridge
