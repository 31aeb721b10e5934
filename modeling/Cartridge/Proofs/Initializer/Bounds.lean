/-
# `Cartridge.Proofs.Initializer.Bounds` — the code of a value stays in its bounds

The code of an initial value stores into one variable and reads others.  An
instruction is `Bounded` in `n` bytes from a destination on if

    stores     it stores to them, and nowhere else
    loads      what it reads lies inside a variable that is declared before
    address    what it takes the address of is declared before

The size of a destination comes from the type of the value, not from that of
the variable: a short array goes into the front of a longer one.

Proved here: the code of a value has a size to be bounded in (`Typed.bounded`),
and the size of a variable bounds that of its initial value (`Fitted.bounded`).
Both speak of the offsets of all parts of a value too, of which an empty part has no
instruction to show for it.  These are plain sums, of which none is cut to a word.
-/
import Cartridge.Proofs.Initializer.Effect

namespace Cartridge

namespace Instr

/-- Where an instruction stores, and how many bytes. -/
def stores? : Instr → Option (Place × Nat)
  | .copy dest _ width => some (dest, width.bytes)
  | .widen dest _ => some (dest, 2)
  | _ => none

/-- Where an instruction reads, and how many bytes. -/
def loads? : Instr → Option (Place × Nat)
  | .copy _ (.place p) width => some (p, width.bytes)
  | .widen _ p | .branchZero p _ | .branchNonzero p _ => some (p, 1)
  | _ => none

/-- The variable whose address an instruction stores. -/
def address? : Instr → Option String
  | .copy _ (.addressOf name) _ => some name
  | _ => none

/-- An instruction stays in the `n` bytes from `dest` on, and in the variables
that `types` knows. -/
structure Bounded (types : String → Ty → Prop) (dest : Place) (n : Nat) (i : Instr) : Prop where
  stores : ∃ p k, i.stores? = some (p, k) ∧ p.symbol = dest.symbol ∧
    p.offset.toNat + k ≤ dest.offset.toNat + n
  loads : ∀ p k, i.loads? = some (p, k) →
    ∃ ty s, types p.symbol ty ∧ ty.size = .ok s ∧ p.offset.toNat + k ≤ s
  address : ∀ name, i.address? = some name → ∃ ty, types name ty

variable {types : String → Ty → Prop} {dest : Place} {n : Nat}

/-- What stays in a part stays in the whole. -/
theorem Bounded.mono {i : Instr} {offset : UInt16} {k : Nat}
    (h : i.Bounded types (dest.plus offset) k)
    (hfits : dest.offset.toNat + offset.toNat < 0x10000) (hle : offset.toNat + k ≤ n) :
    i.Bounded types dest n := by
  obtain ⟨p, width, hstores, hsymbol, hend⟩ := h.stores
  refine ⟨⟨p, width, hstores, hsymbol, Nat.le_trans hend ?_⟩, h.loads, h.address⟩
  rw [Place.toNat_offset_plus hfits, Nat.add_assoc]
  exact Nat.add_le_add_left hle _

theorem bounded_immediate {value : UInt16} {width : Width} (h : width.bytes = n) :
    (Instr.copy dest (.immediate value) width).Bounded types dest n := by
  refine ⟨⟨dest, n, ?_, rfl, Nat.le_refl _⟩, fun _ _ h => (nomatch h), fun _ h => (nomatch h)⟩
  rw [stores?, h]

theorem bounded_addressOf {name : String} {ty : Ty} (h : types name ty) :
    (Instr.copy dest (.addressOf name) .word).Bounded types dest 2 := by
  refine ⟨⟨dest, 2, rfl, rfl, Nat.le_refl _⟩, fun _ _ h => (nomatch h), ?_⟩
  rintro _ ⟨⟩
  exact ⟨ty, h⟩

theorem bounded_place {p q : Place} {ty : Ty} (htype : types q.symbol ty) {s : Nat}
    (hsize : ty.size = .ok s) {width : Width} (hload : q.offset.toNat + width.bytes ≤ s)
    (hsymbol : p.symbol = dest.symbol)
    (hstore : p.offset.toNat + width.bytes ≤ dest.offset.toNat + n) :
    (Instr.copy p (.place q) width).Bounded types dest n := by
  refine ⟨⟨p, width.bytes, rfl, hsymbol, hstore⟩, ?_, fun _ h => (nomatch h)⟩
  rintro _ _ ⟨⟩
  exact ⟨ty, s, htype, hsize, hload⟩

theorem bounded_widen {name : String} {ty : Ty} (htype : types name ty) {s : Nat}
    (hsize : ty.size = .ok s) (hpos : 1 ≤ s) :
    (Instr.widen dest { symbol := name }).Bounded types dest 2 := by
  refine ⟨⟨_, _, rfl, rfl, Nat.le_refl _⟩, ?_, fun _ h => (nomatch h)⟩
  rintro _ _ ⟨⟩
  exact ⟨ty, s, htype, hsize, hpos⟩

end Instr

namespace Node

mutual

/-- The offsets that are worked out for a value, when it is stored from offset
`start` on, where a value of type `target` belongs: those of its parts, and those of
its bytes where it is copied one byte at a time. -/
def offsets (start : Nat) (target : Ty) : Node → List Nat
  | .ident s _ =>
      match s.ty.width?, s.ty.size with
      | none, .ok size => start :: (List.range size ++ (List.range size).map (start + ·))
      | _, _ => [start]
  | .array _ elems =>
      match target.element.size with
      | .ok size => start :: offsetsAll start target.element size 0 elems
      | .error _ => [start]
  | .cast s _ operand => if s.ty.isPrimitive then [start] else operand.offsets start s.ty
  | _ => [start]

/-- The offsets of elements of `size` bytes from index `i` on. -/
def offsetsAll (start : Nat) (elem : Ty) (size i : Nat) : List Node → List Nat
  | [] => []
  | node :: nodes =>
      node.offsets (start + i * size) elem ++ offsetsAll start elem size (i + 1) nodes

end

end Node

namespace Typing

/-- The code and the offsets of a value stay in the `n` bytes from `dest` on. -/
structure Contained (types : String → Ty → Prop) (dest : Place) (n : Nat) (code : List Instr)
    (offsets : List Nat) : Prop where
  code : ∀ i ∈ code, i.Bounded types dest n
  offsets : ∀ k ∈ offsets, k ≤ dest.offset.toNat + n

section Bounds

variable {types : String → Ty → Prop} {env : Env} {dest : Place}

theorem Contained.mono {offset : UInt16} {k n : Nat} {code : List Instr} {offsets : List Nat}
    (h : Contained types (dest.plus offset) k code offsets)
    (hfits : dest.offset.toNat + offset.toNat < 0x10000) (hle : offset.toNat + k ≤ n) :
    Contained types dest n code offsets := by
  refine ⟨fun i hi => (h.code i hi).mono hfits hle,
    fun j hj => Nat.le_trans (h.offsets j hj) ?_⟩
  rw [Place.toNat_offset_plus hfits, Nat.add_assoc]
  exact Nat.add_le_add_left hle _

theorem Contained.append {n : Nat} {code code' : List Instr} {offsets offsets' : List Nat}
    (h : Contained types dest n code offsets) (h' : Contained types dest n code' offsets') :
    Contained types dest n (code ++ code') (offsets ++ offsets') :=
  ⟨fun i hi => (List.mem_append.1 hi).elim (h.code i) (h'.code i),
    fun k hk => (List.mem_append.1 hk).elim (h.offsets k) (h'.offsets k)⟩

/-- A value that is stored as a whole. -/
theorem contained_whole {n : Nat} {code : List Instr}
    (h : ∀ i ∈ code, i.Bounded types dest n) :
    Contained types dest n code [dest.offset.toNat] := by
  refine ⟨h, fun k hk => ?_⟩
  obtain rfl := List.mem_singleton.1 hk
  exact Nat.le_add_right ..

/-! ## Numbers -/

/-- A folded number reads no more than the variable has that it comes from. -/
inductive Sourced (types : String → Ty → Prop) : Scalar → Prop where
  | const {w : UInt16} : Sourced types (.const w)
  | byte {name : String} {ty : Ty} {s : Nat} (htype : types name ty) (hsize : ty.size = .ok s)
      (hpos : 1 ≤ s) : Sourced types (.byte { symbol := name })
  | word {name : String} (htype : types name .word) : Sourced types (.word { symbol := name })
  | widened {name : String} {ty : Ty} {s : Nat} (htype : types name ty) (hsize : ty.size = .ok s)
      (hpos : 1 ≤ s) : Sourced types (.widened { symbol := name })

theorem Sourced.cast {value value' : Scalar} (h : Sourced types value) {target : Ty}
    (hcast : value.cast? target = some value') : Sourced types value' := by
  cases target with
  | byte =>
      obtain rfl := Option.some.inj hcast
      cases h with
      | const => exact .const
      | byte htype hsize hpos => exact .byte htype hsize hpos
      | word htype => exact .byte htype rfl (Nat.le_succ 1)
      | widened htype hsize hpos => exact .byte htype hsize hpos
  | word =>
      obtain rfl := Option.some.inj hcast
      cases h with
      | const => exact .const
      | byte htype hsize hpos => exact .widened htype hsize hpos
      | word htype => exact .word htype
      | widened htype hsize hpos => exact .widened htype hsize hpos
  | _ => cases hcast

/-- The instruction that stores a number. -/
theorem Sourced.bounded {value : Scalar} (h : Sourced types value) {target : Ty} {i : Instr}
    (hstore : value.store? dest target = some i) {n : Nat} (hsize : target.size = .ok n) :
    i.Bounded types dest n := by
  cases target with
  | byte =>
      obtain rfl := Option.some.inj hstore
      obtain rfl := Except.ok.inj hsize
      cases h with
      | const => exact Instr.bounded_immediate rfl
      | byte htype hsize hpos => exact Instr.bounded_place htype hsize hpos rfl (Nat.le_refl _)
      | word htype => exact Instr.bounded_place htype rfl (Nat.le_succ 1) rfl (Nat.le_refl _)
      | widened htype hsize hpos => exact Instr.bounded_place htype hsize hpos rfl (Nat.le_refl _)
  | word =>
      obtain rfl := Option.some.inj hstore
      obtain rfl := Except.ok.inj hsize
      cases h with
      | const => exact Instr.bounded_immediate rfl
      | byte htype hsize hpos => exact Instr.bounded_widen htype hsize hpos
      | word htype => exact Instr.bounded_place htype rfl (Nat.le_refl 2) rfl (Nat.le_refl _)
      | widened htype hsize hpos => exact Instr.bounded_widen htype hsize hpos
  | _ => cases hstore

theorem sourced_cast {s : Slot} {kind : CastKind} {operand : Node}
    (hoperand : ∀ value, operand.scalar = .ok value → Sourced types value) (value : Scalar)
    (h : (Node.cast s kind operand).scalar = .ok value) : Sourced types value := by
  obtain ⟨value₀, hvalue₀, hcast⟩ := Node.scalar_cast_eq_ok h
  exact (hoperand value₀ hvalue₀).cast hcast

theorem bounded_scalarCode {node : Node}
    (hsourced : ∀ value, node.scalar = .ok value → Sourced types value) {code : List Instr}
    (hcode : Node.scalarCode dest node = .ok code) {n : Nat} (hsize : node.ty.size = .ok n) :
    ∀ i ∈ code, i.Bounded types dest n := by
  obtain ⟨value, i, hvalue, hstore, rfl⟩ := Node.scalarCode_eq_ok hcode
  exact List.forall_mem_singleton.2 ((hsourced value hvalue).bounded hstore hsize)

/-- The surroundings of a value: no record name is ambiguous, and `types` knows
the variables declared before it. -/
structure Setting (records : String → List Ty → Prop) (types : String → Ty → Prop) (env : Env) :
    Prop where
  unambiguous : Ty.Unambiguous records
  within : ∀ name ty, env.find? name = some ty → ty.Within records
  known : ∀ name ty, env.find? name = some ty → types name ty

variable {records : String → List Ty → Prop}

/-- A chain of casts between numbers ends at a literal or a variable. -/
theorem Typed.sourced (hsetting : Setting records types env) {hint ty : Ty} {node node' : Node}
    (h : Typed env hint node node' ty) (value : Scalar) (hscalar : node'.scalar = .ok value) :
    Sourced types value := by
  fun_induction Node.scalar node' generalizing hint ty node value with
  | case1 s w =>
      cases hscalar
      exact .const
  | case2 s name hbyte =>
      cases hscalar
      cases h with
      | ident hfind _ =>
          obtain rfl : ty = .byte := hbyte
          exact .byte (hsetting.known _ _ hfind) rfl (Nat.le_refl 1)
  | case3 s name hword =>
      cases hscalar
      cases h with
      | ident hfind _ =>
          obtain rfl : ty = .word := hword
          exact .word (hsetting.known _ _ hfind)
  | case6 s kind operand value₀ hvalue₀ value' hcast ih =>
      cases hscalar
      cases h with
      | cast _ hoperand _ => exact (ih hoperand value₀ hvalue₀).cast hcast
  -- what is left is no number
  | _ => cases hscalar

/-- Copying a variable, at once or byte by byte. -/
theorem contained_copyCode (hsetting : Setting records types env) {s : Slot} {name : String}
    (hfind : env.find? name = some s.ty) {position : Position} {code : List Instr}
    (hcode : Node.copyCode dest name s.ty position = .ok code) (target : Ty) :
    ∃ n, s.ty.size = .ok n ∧
      Contained types dest n code ((Node.ident s name).offsets dest.offset.toNat target) := by
  have htype := hsetting.known name s.ty hfind
  obtain ⟨size, hsize, hcode⟩ := Node.copyCode_eq_ok hcode
  refine ⟨size, hsize, fun i hi => ?_, fun k hk => ?_⟩
  · rcases hcode with ⟨width, rfl, rfl⟩ | ⟨hfits, rfl⟩
    · obtain rfl := List.mem_singleton.1 hi
      exact Instr.bounded_place htype hsize (Nat.le_of_eq (Nat.zero_add _)) rfl (Nat.le_refl _)
    · obtain ⟨offset, hoffset, rfl⟩ := List.mem_map.1 hi
      have hlt : offset + 1 ≤ size := List.mem_range.1 hoffset
      have hword : (UInt16.ofNat offset).toNat = offset :=
        toNat_ofNat_of_le (Nat.le_trans (Nat.le_of_lt hlt) (Ty.size_le _ hsize))
      refine Instr.bounded_place htype hsize (hword.symm ▸ hlt) rfl ?_
      rw [Place.toNat_offset_plus (hword.symm ▸ hfits offset hlt), hword, Nat.add_assoc]
      exact Nat.add_le_add_left hlt _
  · rw [Node.offsets] at hk
    split at hk
    · next size' _ hsize' =>
        obtain rfl := Except.ok.inj (hsize.symm.trans hsize')
        simp only [List.mem_cons, List.mem_append, List.mem_map, List.mem_range] at hk
        omega
    · obtain rfl := List.mem_singleton.1 hk
      exact Nat.le_add_right ..

/-! ## Values -/

mutual

/-- The code of a value stays in as many bytes as its type has. -/
theorem Typed.bounded (hsetting : Setting records types env) {hint ty : Ty}
    (hhint : hint.Within records) :
    ∀ {node node' : Node}, Typed env hint node node' ty →
      (∀ t ∈ node.written, t.Within records) →
      ∀ {target : Ty} {dest : Place} {code : List Instr},
        Ty.Takes target ty → node'.initCode dest target = .ok code →
        ∃ n, ty.size = .ok n ∧
          Contained types dest n code (node'.offsets dest.offset.toNat target)
  | _, _, .literal, _, target, dest, code, htakes, hcode => by
      rw [literalType_eq] at htakes ⊢
      split <;> rename_i hword
      · rw [if_pos hword] at htakes
        cases htakes
        cases hcode
        exact ⟨2, rfl, contained_whole (List.forall_mem_singleton.2 (Instr.bounded_immediate rfl))⟩
      · rw [if_neg hword] at htakes
        cases htakes
        cases hcode
        exact ⟨1, rfl, contained_whole (List.forall_mem_singleton.2 (Instr.bounded_immediate rfl))⟩
  | _, _, .ident hfind _, _, target, _, _, _, hcode => by
      rw [Node.initCode] at hcode
      exact contained_copyCode hsetting hfind hcode target
  | _, _, .array _ helems, hwritten, target, dest, code, htakes, hcode => by
      obtain ⟨elem, len, whole, size, rfl, hwhole, hsize, hcode⟩ := Node.initCode_array_eq_ok hcode
      obtain rfl := htakes.element
      -- the value has a size since the longer array has one
      obtain ⟨n, -, hn⟩ := htakes.size hwhole
      obtain ⟨s, hs, rfl, -⟩ := Ty.size_array_eq_ok_iff.1 hn
      obtain rfl := Except.ok.inj (hs.symm.trans hsize)
      refine ⟨_, hn, ?_⟩
      rw [Node.offsets, Ty.element, hs]
      have hcontained := helems.bounded hsetting hhint.element_of_hint
        (within_elementStart hhint _) hs hwritten hcode
      rw [Nat.zero_mul, Nat.zero_add] at hcontained
      exact ⟨hcontained.code, List.forall_mem_cons.2 ⟨Nat.le_add_right .., hcontained.offsets⟩⟩
  | _, _, .addressOf hfind _, _, _, _, _, _, hcode => by
      cases hcode
      refine ⟨2, rfl, contained_whole (List.forall_mem_singleton.2 ?_)⟩
      exact Instr.bounded_addressOf (hsetting.known _ _ hfind)
  | _, _, .cast (s := s) _ hoperand _, hwritten, _, dest, _, _, hcode => by
      rw [Node.offsets]
      rcases Node.initCode_cast_eq_ok hcode with ⟨hprimitive, hcode⟩ | ⟨hprimitive, halike, hcode⟩
      · rw [if_pos hprimitive]
        obtain ⟨n, hsize⟩ : ∃ n, s.ty.size = .ok n := by
          rcases Ty.eq_of_isPrimitive hprimitive with hbyte | hword
          · exact ⟨1, by rw [hbyte]; rfl⟩
          · exact ⟨2, by rw [hword]; rfl⟩
        have hbounded := bounded_scalarCode (sourced_cast (hoperand.sourced hsetting)) hcode hsize
        exact ⟨n, hsize, contained_whole hbounded⟩
      · rw [if_neg hprimitive]
        have hwritten' := fun t ht => hwritten t (List.mem_cons_of_mem _ ht)
        have hsource := hoperand.within hsetting.within Ty.within_unknown hwritten'
        rw [hoperand.ty_eq] at halike
        have heq := Ty.eq_of_alike hsetting.unambiguous halike hsource
          (hwritten _ List.mem_cons_self)
        obtain ⟨n, hn, hcontained⟩ := hoperand.bounded hsetting Ty.within_unknown hwritten'
          (heq ▸ .same _) hcode
        exact ⟨n, heq ▸ hn, hcontained⟩

/-- The code of elements stays in as many bytes as they have together with those
before them. -/
theorem TypedAll.bounded (hsetting : Setting records types env) {hint start elem whole : Ty}
    {position : Position}
    (hhint : hint.Within records) (hstart : start.Within records) {s : Nat}
    (hsize : elem.size = .ok s) :
    ∀ {nodes nodes' : List Node}, TypedAll env hint start nodes nodes' elem →
      (∀ t ∈ Node.writtenAll nodes, t.Within records) →
      ∀ {dest : Place} {i : Nat} {code : List Instr},
        Node.elemsCode dest whole elem s position i nodes' = .ok code →
        Contained types dest (i * s + s * nodes.length) code
          (Node.offsetsAll dest.offset.toNat elem s i nodes')
  | _, _, .nil, _, _, _, _, hcode => by
      cases hcode
      exact ⟨List.forall_mem_nil _, List.forall_mem_nil _⟩
  | _ :: nodes, _, .cons hnode hunify hnodes, hwritten, dest, i, code, hcode => by
      have hhead := fun t ht => hwritten t (List.mem_append_left _ ht)
      have htail := fun t ht => hwritten t (List.mem_append_right _ ht)
      obtain ⟨hfound, hmid⟩ := TypedAll.found_eq hsetting.unambiguous hsetting.within hhint hstart
        hhead hnode hunify hnodes
      rw [hfound] at hnode
      rw [hmid] at hnodes
      have helem := hnode.within hsetting.within hhint hhead
      obtain ⟨offset, front, rest, -, hoffset, hfits, hfront, hrest, rfl⟩ :=
        Node.elemsCode_cons_eq_ok hcode
      obtain ⟨n, hn, hfirst⟩ := hnode.bounded hsetting hhint hhead (.same elem) hfront
      rw [Place.toNat_offset_plus hfits, hoffset] at hfirst
      obtain rfl := Except.ok.inj (hsize.symm.trans hn)
      have hlater := hnodes.bounded hsetting hhint helem hsize htail hrest
      have hend : (i + 1) * s + s * nodes.length = i * s + s * (nodes.length + 1) := by
        rw [Nat.succ_mul, Nat.mul_succ, Nat.add_assoc, Nat.add_comm s]
      rw [hend] at hlater
      rw [Node.offsetsAll, List.length_cons]
      refine (hfirst.mono hfits ?_).append hlater
      rw [hoffset, Nat.mul_succ]
      omega

end

/-- The code of a declaration stays in its variable, if that has a size, and in
the address space. -/
theorem Fitted.bounded (hsetting : Setting records types env) {declared ty : Ty} {init init' : Node}
    (h : Fitted env declared init init' ty) (hdeclared : declared.Within records)
    (hwritten : ∀ t ∈ init.written, t.Within records) {code : List Instr}
    (hcode : init'.initCode dest ty = .ok code) :
    ∃ n ≤ maxSize, (∀ s, ty.size = .ok s → n ≤ s) ∧
      Contained types dest n code (init'.offsets dest.offset.toNat ty) := by
  cases h with
  | inferred htyped =>
      obtain ⟨n, hn, hcontained⟩ :=
        htyped.bounded hsetting Ty.within_unknown hwritten (.same ty) hcode
      refine ⟨n, Ty.size_le _ hn, fun s hs => ?_, hcontained⟩
      exact Nat.le_of_eq (Except.ok.inj (hn.symm.trans hs))
  | accepted htyped haccepts =>
      have hfound := htyped.within hsetting.within hdeclared hwritten
      have htakes := Ty.takes_of_accepts hsetting.unambiguous haccepts hdeclared hfound
      obtain ⟨n, hn, hcontained⟩ :=
        htyped.bounded hsetting hdeclared hwritten htakes hcode
      refine ⟨n, Ty.size_le _ hn, fun s hs => ?_, hcontained⟩
      obtain ⟨k, hk, hksize⟩ := htakes.size hs
      obtain rfl := Except.ok.inj (hn.symm.trans hksize)
      exact hk
  | widened htyped =>
      rw [Node.widened, Node.initCode] at hcode
      have hbounded := bounded_scalarCode (sourced_cast (htyped.sourced hsetting)) hcode rfl
      refine ⟨2, by decide, fun s hs => ?_, contained_whole hbounded⟩
      exact Nat.le_of_eq (Except.ok.inj hs)

end Bounds

end Typing

end Cartridge
