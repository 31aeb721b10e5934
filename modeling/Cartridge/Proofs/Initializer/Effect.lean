/-
# `Cartridge.Proofs.Initializer.Effect` — the code of an initial value stores it

The code of an initial value only stores, so it is run from its first
instruction to its last (`Code.Runs`).  What it leaves is the memory with the
bytes of the value stored at the destination, provided that no variable that is
read lies there:

    literal, addressOf     a constant
    ident                  all bytes of the variable, one by one
    array                  each element behind the one before it; what the elements
                           read is the same before and after the stores
    cast                   one instruction for a chain of casts between numbers,
                           which holds the bytes that the chain leaves (`Holds`)

Proved here: `Typed.runs` for values, `Fitted.runs` for declarations.
-/
import Cartridge.Proofs.BlockTree.Meaning
import Cartridge.Proofs.Initializer.Code
import Cartridge.Proofs.Initializer.Value
import Cartridge.Proofs.Ty.Relations

namespace Cartridge

/-! ## Stores in a row -/

namespace Memory

theorem copy_constant (m : Memory) (d w : UInt16) (width : Width) :
    m.copy d (.constant w) 0 width.bytes = m.setAll d ((wordBytes w).take width.bytes) := by
  cases width with
  | byte =>
      show (m.set (d + UInt16.ofNat 0) (lowByte w)) = m.set d (lowByte w)
      rw [add_ofNat_zero]
  | word =>
      show ((m.set (d + UInt16.ofNat 0) (lowByte w)).set (d + UInt16.ofNat 1) (highByte w)) =
        (m.set d (lowByte w)).set (d + 1) (highByte w)
      rw [add_ofNat_zero]
      rfl

theorem copy_byte (m : Memory) (d a : UInt16) : m.copy d (.memory a) 0 1 = m.setAll d [m a] := by
  show (m.set (d + UInt16.ofNat 0) (m (a + UInt16.ofNat 0))) = m.set d (m a)
  rw [add_ofNat_zero, add_ofNat_zero]

theorem copy_memory_from (m : Memory) {d a : UInt16} {i n : Nat}
    (h : ∀ j < i + n, ∀ k < i + n, d + UInt16.ofNat j ≠ a + UInt16.ofNat k) :
    m.copy d (.memory a) i n =
      m.setAll (d + UInt16.ofNat i) (m.read (a + UInt16.ofNat i) n) := by
  induction n generalizing m i with
  | zero => rfl
  | succ n ih =>
      have hnext : ∀ x : UInt16, x + UInt16.ofNat i + 1 = x + UInt16.ofNat (i + 1) :=
        fun x => add_ofNat_add_ofNat x i 1
      have hread : (m.set (d + UInt16.ofNat i) (m (a + UInt16.ofNat i))).read
          (a + UInt16.ofNat (i + 1)) n = m.read (a + UInt16.ofNat (i + 1)) n := by
        refine read_congr fun k hk => set_other m _ fun e => ?_
        rw [add_ofNat_add_ofNat] at e
        exact h i (by omega) (i + 1 + k) (by omega) e.symm
      rw [copy, Source.byte, ih _ fun j hj k hk => h j (by omega) k (by omega), hread, read, setAll,
        hnext, hnext]

/-- Copying byte by byte stores what was there before, if none of the bytes is
overwritten on the way. -/
theorem copy_memory (m : Memory) {d a : UInt16} {n : Nat}
    (h : ∀ j < n, ∀ k < n, d + UInt16.ofNat j ≠ a + UInt16.ofNat k) :
    m.copy d (.memory a) 0 n = m.setAll d (m.read a n) := by
  rw [copy_memory_from m (by rwa [Nat.zero_add]), add_ofNat_zero, add_ofNat_zero]

end Memory

theorem lowByte_lowPart (w : UInt16) : lowByte (lowPart w) = lowByte w := by
  apply UInt8.toNat_inj.1
  have hand : w.toNat &&& 255 = w.toNat % 256 := Nat.and_two_pow_sub_one_eq_mod w.toNat 8
  simp only [lowByte, lowPart, UInt16.toNat_toUInt8, UInt16.toNat_and, UInt16.reduceToNat, hand]
  omega

theorem lowPart_le (w : UInt16) : lowPart w ≤ 0xFF := by
  rw [UInt16.le_iff_toNat_le, lowPart, UInt16.toNat_and]
  exact Nat.and_le_right

theorem highByte_of_le {w : UInt16} (h : w ≤ 0xFF) : highByte w = 0 := by
  apply UInt8.toNat_inj.1
  rw [UInt16.le_iff_toNat_le] at h
  simp only [highByte, UInt16.toNat_toUInt8, UInt16.toNat_div, UInt16.reduceToNat,
    UInt8.reduceToNat] at h ⊢
  omega

/-- A variable of type `target` takes a value of type `ty`: of its own type, or a
shorter array. -/
inductive Ty.Takes : Ty → Ty → Prop where
  | same (ty : Ty) : Takes ty ty
  | shorter {e : Ty} {n k : Nat} (h : k ≤ n) : Takes (.array e n) (.array e k)

theorem Ty.takes_of_accepts {records : String → List Ty → Prop} (hrecords : Unambiguous records)
    {target ty : Ty} (h : target.accepts ty = true) (htarget : target.Within records)
    (hty : ty.Within records) : Takes target ty := by
  rcases accepts_cases h with halike | ⟨e, n, e', k, rfl, rfl, hle, halike⟩
  · rw [eq_of_alike hrecords halike htarget hty]
    exact .same ty
  · rw [eq_of_alike hrecords halike htarget.element hty.element]
    exact .shorter hle

/-- A target with a size takes only types that have a size, and one that is not
larger. -/
theorem Ty.Takes.size {target ty : Ty} (h : Takes target ty) {n : Nat}
    (hsize : target.size = .ok n) : ∃ k ≤ n, ty.size = .ok k := by
  cases h with
  | same => exact ⟨n, Nat.le_refl n, hsize⟩
  | @shorter e len k hle =>
      obtain ⟨s, hs, rfl, hfits⟩ := size_array_eq_ok_iff.1 hsize
      have hmul := Nat.mul_le_mul_left s hle
      exact ⟨s * k, hmul, size_array_eq_ok_iff.2 ⟨s, hs, rfl, Nat.le_trans hmul hfits⟩⟩

theorem Ty.Takes.element {e e' : Ty} {n k : Nat} (h : Takes (.array e n) (.array e' k)) :
    e = e' := by
  cases h <;> rfl

theorem Ty.Takes.convert {target ty : Ty} (h : Takes target ty) {k : Nat} (hsize : ty.size = .ok k)
    {bytes : List UInt8} (hlength : bytes.length = k) : target.convert bytes = bytes := by
  cases h with
  | same => exact convert_of_size hsize hlength
  | shorter _ => rfl

namespace Typing

/-! ## Numbers -/

section Numbers

variable {env : Env} {vars : List Variable} {m : Memory}

/-- The bytes that a folded number of type `ty` has. -/
inductive Holds (env : Env) (vars : List Variable) (m : Memory) :
    Scalar → Ty → List UInt8 → Prop where
  | constByte {w : UInt16} (h : w ≤ 0xFF) : Holds env vars m (.const w) .byte [lowByte w]
  | constWord {w : UInt16} : Holds env vars m (.const w) .word (wordBytes w)
  | byte {name : String} {v : Variable} (hv : Visible env vars name v) :
      Holds env vars m (.byte { symbol := name }) .byte [m v.address]
  | word {name : String} {v : Variable} (hv : Visible env vars name v) (hsize : v.size = 2) :
      Holds env vars m (.word { symbol := name }) .word [m v.address, m (v.address + 1)]
  | widened {name : String} {v : Variable} (hv : Visible env vars name v) :
      Holds env vars m (.widened { symbol := name }) .word [m v.address, 0]

theorem holds_lowPart (w : UInt16) : Holds env vars m (.const (lowPart w)) .byte [lowByte w] := by
  rw [← lowByte_lowPart]
  exact .constByte (lowPart_le w)

/-- Folding a cast converts the bytes. -/
theorem Holds.cast {value value' : Scalar} {source target : Ty} {bytes : List UInt8}
    (h : Holds env vars m value source bytes) (hcast : value.cast? target = some value') :
    Holds env vars m value' target (target.convert bytes) := by
  cases target with
  | byte =>
      obtain rfl := Option.some.inj hcast
      cases h with
      | constByte _ => exact holds_lowPart _
      | constWord => exact holds_lowPart _
      | byte hv => exact .byte hv
      | word hv _ => exact .byte hv
      | widened hv => exact .byte hv
  | word =>
      obtain rfl := Option.some.inj hcast
      cases h with
      | @constByte w hw =>
          have hbytes : wordBytes w = Ty.word.convert [lowByte w] := by
            rw [wordBytes, highByte_of_le hw]
            rfl
          rw [← hbytes]
          exact .constWord
      | constWord => exact .constWord
      | byte hv => exact .widened hv
      | word hv hsize => exact .word hv hsize
      | widened hv => exact .widened hv
  | _ => cases hcast

theorem Holds.length_eq {value : Scalar} {ty : Ty} {bytes : List UInt8} {n : Nat}
    (h : Holds env vars m value ty bytes) (hsize : ty.size = .ok n) : bytes.length = n := by
  cases h <;> exact Except.ok.inj hsize

/-- A number has the bytes of the value that it was folded from. -/
theorem Typed.holds {records : String → List Ty → Prop} (hscope : Scope records env vars)
    {hint ty : Ty} {node node' : Node} (h : Typed env hint node node' ty) {value : Scalar}
    (hscalar : node'.scalar = .ok value) : Holds env vars m value ty (node.bytes vars m hint) := by
  fun_induction Node.scalar node' generalizing hint ty node value with
  | case1 s w =>
      cases hscalar
      cases h with
      | literal =>
          rw [literalType_eq, Node.bytes]
          split
          · exact .constWord
          · next hword => exact .constByte (UInt16.not_lt.1 fun hlt => hword (.inr hlt))
  | case2 s name hbyte =>
      cases hscalar
      cases h with
      | ident hfind _ =>
          obtain rfl : ty = .byte := hbyte
          obtain ⟨v, hv, hsize⟩ := hscope.visible hfind
          rw [Node.bytes, hv.2, Option.elim_some, ← Except.ok.inj hsize]
          exact .byte hv
  | case3 s name hword =>
      cases hscalar
      cases h with
      | ident hfind _ =>
          obtain rfl : ty = .word := hword
          obtain ⟨v, hv, hsize⟩ := hscope.visible hfind
          rw [Node.bytes, hv.2, Option.elim_some, ← Except.ok.inj hsize]
          exact .word hv (Except.ok.inj hsize).symm
  | case6 s kind operand value₀ hvalue₀ value' hcast ih =>
      cases hscalar
      cases h with
      | cast _ hoperand _ =>
          rw [Node.bytes]
          exact (ih hoperand hvalue₀).cast hcast
  -- what is left is no number
  | _ => cases hscalar

end Numbers

/-! ## Values -/

/-- The `n` bytes from `d` on may be stored to, and no visible variable lies
there. -/
structure Room (env : Env) (vars : List Variable) (allowed : UInt16 → Prop) (d : UInt16) (n : Nat) :
    Prop where
  allowed : ∀ i < n, allowed (d + UInt16.ofNat i)
  clear : ∀ name v, Visible env vars name v → ∀ i < n, ∀ j < v.size,
    d + UInt16.ofNat i ≠ v.address + UInt16.ofNat j

/-- A part of the room. -/
theorem Room.part {env : Env} {vars : List Variable} {allowed : UInt16 → Prop} {d : UInt16}
    {n : Nat} (h : Room env vars allowed d n) {offset k : Nat} (hle : offset + k ≤ n) :
    Room env vars allowed (d + UInt16.ofNat offset) k := by
  refine ⟨fun i hi => ?_, fun name v hv i hi j hj => ?_⟩
  · rw [add_ofNat_add_ofNat]
    exact h.allowed (offset + i) (by omega)
  · rw [add_ofNat_add_ofNat]
    exact h.clear name v hv (offset + i) (by omega) j hj

section Values

variable {records : String → List Ty → Prop} {env : Env} {vars : List Variable} {names : Names}
  {block : BlockId} {allowed : UInt16 → Prop} {m : Memory} {dest : Place} {d : UInt16}

/-- Storing a number. -/
theorem Holds.runs (hlocated : ∀ name v, Visible env vars name v → names block name v.address)
    {value : Scalar} {ty : Ty} {bytes : List UInt8} (h : Holds env vars m value ty bytes)
    {i : Instr} (hstore : value.store? dest ty = some i) (hd : names.Locates block dest d)
    (hroom : Room env vars allowed d bytes.length) :
    Code.Runs names allowed [(block, i)] m (m.setAll d bytes) := by
  have hplace : ∀ {name v}, Visible env vars name v →
      names.Locates block { symbol := name } v.address :=
    fun hv => ⟨_, hlocated _ _ hv, (add_ofNat_zero _).symm⟩
  cases h with
  | @constByte w hw =>
      obtain rfl := Option.some.inj hstore
      have hcopy := Memory.copy_constant m d (lowPart w) .byte
      refine .copy hd (.immediate _) hroom.allowed ?_
      rw [hcopy, ← lowByte_lowPart w]
      exact .nil
  | @constWord w =>
      obtain rfl := Option.some.inj hstore
      refine .copy hd (.immediate _) hroom.allowed ?_
      rw [Memory.copy_constant m d w .word]
      exact .nil
  | @byte name v hv =>
      obtain rfl := Option.some.inj hstore
      refine .copy hd (.place (hplace hv)) hroom.allowed ?_
      rw [Width.bytes, Memory.copy_byte]
      exact .nil
  | @word name v hv hsize =>
      obtain rfl := Option.some.inj hstore
      refine .copy hd (.place (hplace hv)) hroom.allowed ?_
      have hclear : ∀ j < 2, ∀ k < 2, d + UInt16.ofNat j ≠ v.address + UInt16.ofNat k :=
        fun j hj k hk => hroom.clear name v hv j hj k (by rw [hsize]; exact hk)
      rw [Width.bytes, Memory.copy_memory m hclear]
      exact .nil
  | @widened name v hv =>
      obtain rfl := Option.some.inj hstore
      exact .widen hd (hplace hv) hroom.allowed .nil

/-- Storing a chain of casts between numbers. -/
theorem Typed.runs_cast (hscope : Scope records env vars)
    (hlocated : ∀ name v, Visible env vars name v → names block name v.address) {hint source : Ty}
    {operand operand' : Node} (hoperand : Typed env hint operand operand' source)
    {s : Slot} {kind : CastKind} {code : List Instr}
    (hcode : Node.scalarCode dest (.cast s kind operand') = .ok code)
    (hd : names.Locates block dest d) {n : Nat} (hsize : s.ty.size = .ok n)
    (hroom : Room env vars allowed d n) :
    Code.Runs names allowed (code.map (block, ·)) m
      (m.setAll d (s.ty.convert (operand.bytes vars m hint))) := by
  obtain ⟨value, i, hvalue, hstore, rfl⟩ := Node.scalarCode_eq_ok hcode
  obtain ⟨value₀, hvalue₀, hcast⟩ := Node.scalar_cast_eq_ok hvalue
  have hholds := (hoperand.holds (m := m) hscope hvalue₀).cast hcast
  refine hholds.runs hlocated hstore hd ?_
  rw [hholds.length_eq hsize]
  exact hroom

theorem locates_plus {p : Place} (h : names.Locates block p d) (n : UInt16) :
    names.Locates block (p.plus n) (d + n) := by
  obtain ⟨start, hstart, rfl⟩ := h
  exact ⟨start, hstart, UInt16.add_assoc ..⟩

/-- Copying a variable one byte at a time. -/
theorem runs_bytewise (hlocated : ∀ name v, Visible env vars name v → names block name v.address)
    {name : String} {v : Variable} (hv : Visible env vars name v)
    (hd : names.Locates block dest d) {i n : Nat} (hle : i + n ≤ v.size)
    (hroom : Room env vars allowed d v.size) :
    Code.Runs names allowed
      ((List.range' i n).map fun i => (block, Node.byteCopy dest name i)) m
      (m.setAll (d + UInt16.ofNat i) (m.read (v.address + UInt16.ofNat i) n)) := by
  induction n generalizing i m with
  | zero => exact .nil
  | succ n ih =>
      have hnext : ∀ x : UInt16, x + UInt16.ofNat i + 1 = x + UInt16.ofNat (i + 1) :=
        fun x => add_ofNat_add_ofNat x i 1
      rw [List.range'_succ, List.map_cons]
      refine .copy (locates_plus hd _) (.place ⟨_, hlocated name v hv, rfl⟩) (fun j hj => ?_) ?_
      · rw [add_ofNat_add_ofNat]
        exact hroom.allowed (i + j) (by simp only [Width.bytes] at hj; omega)
      · have hread : (m.setAll (d + UInt16.ofNat i) [m (v.address + UInt16.ofNat i)]).read
            (v.address + UInt16.ofNat (i + 1)) n = m.read (v.address + UInt16.ofNat (i + 1)) n := by
          refine Memory.read_setAll m fun j hj k hk => ?_
          rw [add_ofNat_add_ofNat, add_ofNat_add_ofNat]
          simp only [List.length_singleton] at hj
          exact hroom.clear name v hv (i + j) (by omega) (i + 1 + k) (by omega)
        have hset : m.setAll (d + UInt16.ofNat i) (m.read (v.address + UInt16.ofNat i) (n + 1)) =
            (m.setAll (d + UInt16.ofNat i) [m (v.address + UInt16.ofNat i)]).setAll
              (d + UInt16.ofNat (i + 1)) (m.read (v.address + UInt16.ofNat (i + 1)) n) := by
          rw [Memory.read, Memory.setAll, hnext, hnext]
          rfl
        rw [Width.bytes, Memory.copy_byte, hset, ← hread]
        exact ih (i := i + 1) (by omega)

/-- Copying a variable. -/
theorem runs_copyCode (hlocated : ∀ name v, Visible env vars name v → names block name v.address)
    {name : String} {v : Variable} (hv : Visible env vars name v) {ty : Ty}
    (hsize : ty.size = .ok v.size) {position : Position} {code : List Instr}
    (hcode : Node.copyCode dest name ty position = .ok code) (hd : names.Locates block dest d)
    (hroom : Room env vars allowed d v.size) :
    Code.Runs names allowed (code.map (block, ·)) m (m.setAll d (m.read v.address v.size)) := by
  obtain ⟨size, hsize', hcode⟩ := Node.copyCode_eq_ok hcode
  obtain rfl := Except.ok.inj (hsize'.symm.trans hsize)
  rcases hcode with ⟨width, hbytes, rfl⟩ | ⟨-, rfl⟩
  · rw [hbytes] at hroom ⊢
    refine .copy hd (.place ⟨_, hlocated name v hv, (UInt16.add_zero _).symm⟩) hroom.allowed ?_
    have hclear := fun j hj k hk => hroom.clear name v hv j hj k (by rw [hbytes]; exact hk)
    rw [Memory.copy_memory m hclear]
    exact .nil
  · have hruns := runs_bytewise (m := m) hlocated hv hd
      (Nat.le_of_eq (Nat.zero_add v.size)) hroom
    rw [add_ofNat_zero, add_ofNat_zero, ← List.range_eq_range'] at hruns
    rw [List.map_map]
    exact hruns

/-- Storing a literal. -/
theorem runs_literal {value : UInt16} {hint target : Ty} {slot : Slot} {code : List Instr}
    (htakes : Ty.Takes target (literalType value hint))
    (hcode : (Node.literal slot value).initCode dest target = .ok code)
    (hd : names.Locates block dest d) {n : Nat} (hsize : (literalType value hint).size = .ok n)
    (hroom : Room env vars allowed d n) (slot' : Slot) :
    Code.Runs names allowed (code.map (block, ·)) m
      (m.setAll d ((Node.literal slot' value).bytes vars m hint)) := by
  rw [literalType_eq] at htakes hsize
  rw [Node.bytes]
  split <;> rename_i hword
  · rw [if_pos hword] at htakes hsize
    cases htakes
    cases hcode
    obtain rfl := Except.ok.inj hsize
    refine .copy hd (.immediate _) hroom.allowed ?_
    rw [Memory.copy_constant m d value .word]
    exact .nil
  · rw [if_neg hword] at htakes hsize
    cases htakes
    cases hcode
    obtain rfl := Except.ok.inj hsize
    refine .copy hd (.immediate _) hroom.allowed ?_
    rw [Memory.copy_constant m d (lowPart value) .byte, ← lowByte_lowPart value]
    exact .nil

mutual

/-- The code of a value stores its bytes. -/
theorem Typed.runs (hscope : Scope records env vars)
    (hlocated : ∀ name v, Visible env vars name v → names block name v.address) {hint ty : Ty}
    (hhint : hint.Within records) {n : Nat} (hsize : ty.size = .ok n) :
    ∀ {node node' : Node}, Typed env hint node node' ty →
      (∀ t ∈ node.written, t.Within records) →
      ∀ {target : Ty} {dest : Place} {d : UInt16} {code : List Instr} {m : Memory},
        Ty.Takes target ty → node'.initCode dest target = .ok code →
        names.Locates block dest d → Room env vars allowed d n →
        Code.Runs names allowed (code.map (block, ·)) m (m.setAll d (node.bytes vars m hint))
  | _, _, .literal, _, _, _, _, _, _, htakes, hcode, hd, hroom =>
      runs_literal htakes hcode hd hsize hroom _
  | _, _, .ident hfind _, _, _, _, _, _, m, _, hcode, hd, hroom => by
      obtain ⟨v, hv, hvsize⟩ := hscope.visible hfind
      obtain rfl := Except.ok.inj (hsize.symm.trans hvsize)
      rw [Node.bytes, hv.2, Option.elim_some]
      rw [Node.initCode] at hcode
      exact runs_copyCode hlocated hv hsize hcode hd hroom
  | _, _, .array _ helems, hwritten, target, _, d, _, m, htakes, hcode, hd, hroom => by
      obtain ⟨s, hs, rfl, -⟩ := Ty.size_array_eq_ok_iff.1 hsize
      obtain ⟨elem, k, -, size, rfl, -, hsize', hcode⟩ := Node.initCode_array_eq_ok hcode
      obtain rfl := htakes.element
      obtain rfl := Except.ok.inj (hs.symm.trans hsize')
      rw [Node.bytes]
      have hruns := helems.runs (m := m) hscope hlocated hhint.element_of_hint
        (within_elementStart hhint _) hs hwritten (i := 0) hcode hd
        (by rw [Nat.zero_mul, Nat.zero_add]; exact hroom)
      rw [Nat.zero_mul, add_ofNat_zero] at hruns
      exact hruns
  | _, _, .addressOf hfind _, _, _, _, d, _, m, _, hcode, hd, hroom => by
      obtain ⟨v, hv, -⟩ := hscope.visible hfind
      obtain rfl := Except.ok.inj hsize
      rw [Node.bytes, hv.2, Option.elim_some]
      cases hcode
      refine .copy hd (.addressOf (hlocated _ _ hv)) hroom.allowed ?_
      rw [Memory.copy_constant m d v.address .word]
      exact .nil
  | _, _, .cast _ hoperand _, hwritten, _, _, d, _, m, _, hcode, hd, hroom => by
      rw [Node.bytes]
      rcases Node.initCode_cast_eq_ok hcode with ⟨-, hcode⟩ | ⟨-, halike, hcode⟩
      · exact hoperand.runs_cast hscope hlocated hcode hd hsize hroom
      · have hwritten' := fun t ht => hwritten t (List.mem_cons_of_mem _ ht)
        have hsource := hoperand.within hscope.within Ty.within_unknown hwritten'
        rw [hoperand.ty_eq] at halike
        have heq := Ty.eq_of_alike hscope.unambiguous halike hsource
          (hwritten _ List.mem_cons_self)
        have hsize' := hsize
        rw [← heq] at hsize'
        rw [Ty.convert_of_size hsize
          (hoperand.length_bytes m hscope Ty.within_unknown hsize' hwritten')]
        exact hoperand.runs hscope hlocated Ty.within_unknown hsize' hwritten'
          (heq ▸ .same _) hcode hd hroom

/-- The code of elements stores their bytes, each behind the one before it. -/
theorem TypedAll.runs (hscope : Scope records env vars)
    (hlocated : ∀ name v, Visible env vars name v → names block name v.address)
    {hint start elem whole : Ty} {position : Position} (hhint : hint.Within records)
    (hstart : start.Within records) {s : Nat} (hsize : elem.size = .ok s) :
    ∀ {nodes nodes' : List Node}, TypedAll env hint start nodes nodes' elem →
      (∀ t ∈ Node.writtenAll nodes, t.Within records) →
      ∀ {dest : Place} {d : UInt16} {i : Nat} {code : List Instr} {m : Memory},
        Node.elemsCode dest whole elem s position i nodes' = .ok code →
        names.Locates block dest d → Room env vars allowed d (i * s + s * nodes.length) →
        Code.Runs names allowed (code.map (block, ·)) m
          (m.setAll (d + UInt16.ofNat (i * s)) (Node.bytesAll vars m hint nodes))
  | _, _, .nil, _, _, _, _, _, _, hcode, _, _ => by
      cases hcode
      exact .nil
  | node :: nodes, _, .cons hnode hunify hnodes, hwritten, dest, d, i, code, m, hcode, hd,
    hroom => by
      have hhead := fun t ht => hwritten t (List.mem_append_left _ ht)
      have htail := fun t ht => hwritten t (List.mem_append_right _ ht)
      obtain ⟨hfound, hmid⟩ := TypedAll.found_eq hscope.unambiguous hscope.within hhint hstart hhead
        hnode hunify hnodes
      rw [hfound] at hnode
      rw [hmid] at hnodes
      have helem := hnode.within hscope.within hhint hhead
      have hlength := hnode.length_bytes m hscope hhint hsize hhead
      have hroom₁ : Room env vars allowed (d + UInt16.ofNat (i * s)) s :=
        hroom.part (by rw [List.length_cons, Nat.mul_succ]; omega)
      obtain ⟨offset, front, rest, rfl, -, -, hfront, hrest, rfl⟩ := Node.elemsCode_cons_eq_ok hcode
      have hruns₁ := hnode.runs (m := m) hscope hlocated hhint hsize hhead (.same elem) hfront
        (locates_plus hd _) hroom₁
      generalize hm₁ : m.setAll (d + UInt16.ofNat (i * s)) (node.bytes vars m hint) = m₁ at hruns₁
      have hruns₂ := hnodes.runs (m := m₁) hscope hlocated hhint helem hsize htail hrest hd
        (by rw [Nat.succ_mul, Nat.add_assoc, Nat.add_comm s]; exact hroom)
      -- no element reads what was stored for the ones before it
      have hcongr : Node.bytesAll vars m₁ hint nodes = Node.bytesAll vars m hint nodes := by
        refine hnodes.bytesAll_congr fun name v hv => ?_
        rw [← hm₁]
        refine Memory.read_setAll m fun j hj k hk => ?_
        rw [hlength] at hj
        exact hroom₁.clear name v hv j hj k hk
      rw [hcongr, Nat.succ_mul, ← add_ofNat_add_ofNat] at hruns₂
      rw [List.map_append, Node.bytesAll, Memory.setAll_append, hm₁, hlength]
      exact hruns₁.append hruns₂

end

/-- The code of a declaration stores the bytes of its value, as many as the
variable has at most. -/
theorem Fitted.runs (hscope : Scope records env vars)
    (hlocated : ∀ name v, Visible env vars name v → names block name v.address)
    {declared ty : Ty} {init init' : Node} (h : Fitted env declared init init' ty)
    (hdeclared : declared.Within records) (hwritten : ∀ t ∈ init.written, t.Within records)
    {n : Nat} (hsize : ty.size = .ok n) {code : List Instr}
    (hcode : init'.initCode dest ty = .ok code) (hd : names.Locates block dest d)
    (hroom : Room env vars allowed d n) :
    Code.Runs names allowed (code.map (block, ·)) m
      (m.setAll d (declared.convert (init.bytes vars m declared))) := by
  cases h with
  | inferred htyped =>
      exact htyped.runs hscope hlocated Ty.within_unknown hsize hwritten (.same ty) hcode hd hroom
  | accepted htyped haccepts =>
      have hfound := htyped.within hscope.within hdeclared hwritten
      have htakes := Ty.takes_of_accepts hscope.unambiguous haccepts hdeclared hfound
      obtain ⟨k, hk, hfoundSize⟩ := htakes.size hsize
      have hpart := hroom.part (Nat.le_trans (Nat.le_of_eq (Nat.zero_add k)) hk)
      rw [add_ofNat_zero] at hpart
      rw [htakes.convert hfoundSize (htyped.length_bytes m hscope hdeclared hfoundSize hwritten)]
      exact htyped.runs hscope hlocated hdeclared hfoundSize hwritten htakes hcode hd hpart
  | widened htyped =>
      rw [Node.widened, Node.initCode] at hcode
      exact htyped.runs_cast hscope hlocated hcode hd hsize hroom

end Values

end Typing

end Cartridge
