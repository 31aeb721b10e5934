/-
# `Cartridge.Proofs.Initializer.Folding` — folded casts keep their value

A chain of casts over a literal or a variable is a number, read from the inside
out:

    literal        its sixteen bits
    ident          one or two bytes of memory, by its type
    cast to byte   the low byte
    cast to word   the same number, with zeros in front

Folding leaves one of four scalars of the whole chain.  A scalar stands for a
number as well, and each cast does to the scalar what it does to the number: a
byte that was widened stays a byte (`widened`), so that a high byte that was cut
off does not come back, and a word that is cut is a byte at the same place.

    number of the chain    =    number of its scalar    =    bytes stored

Proved here: a chain is stored by one instruction, which writes the bytes of its
number and nothing else (`Chain.stored`).  What is read must not be overwritten
on the way: the bytes of the variable and those of the destination are apart.
-/
import Cartridge.Proofs.Initializer.Effect
import Cartridge.Proofs.Initializer.Storable

namespace Cartridge

/-! ## Numbers and their bytes -/

/-- The width of a number of this type. -/
def Ty.width : Ty → Width
  | .byte => .byte
  | _ => .word

/-- A number cut to a width. -/
def Width.cut : Width → Nat → Nat
  | .byte, n => n % 256
  | .word, n => n

/-- The bytes of a number of this width, low byte first. -/
def Width.encode : Width → Nat → List UInt8
  | .byte, n => [UInt8.ofNat n]
  | .word, n => [UInt8.ofNat n, UInt8.ofNat (n / 256)]

/-- The number at an address. -/
def Memory.number (m : Memory) (a : UInt16) : Width → Nat
  | .byte => (m a).toNat
  | .word => (m a).toNat + 256 * (m (a + 1)).toNat

/-- Where a place lies, by the addresses of the variables. -/
def Place.locate (address : String → UInt16) (p : Place) : UInt16 :=
  address p.symbol + p.offset

theorem Width.encode_toNat (w : UInt16) (width : Width) :
    width.encode w.toNat = (wordBytes w).take width.bytes := by
  have hlow : UInt8.ofNat w.toNat = lowByte w := by
    apply UInt8.toNat_inj.1
    simp [lowByte]
  have hhigh : UInt8.ofNat (w.toNat / 256) = highByte w := by
    apply UInt8.toNat_inj.1
    simp [highByte]
  cases width with
  | byte =>
      rw [encode, hlow]
      rfl
  | word =>
      rw [encode, hlow, hhigh]
      rfl

/-- The low byte of a number in memory is its first byte, whatever its width. -/
theorem Memory.encode_byte (m : Memory) (a : UInt16) (width : Width) :
    Width.byte.encode (m.number a width) = [m a] := by
  have hlow : UInt8.ofNat (m.number a width) = m a := by
    apply UInt8.toNat_inj.1
    have hlt := (m a).toNat_lt
    cases width with
    | byte => simp [number]
    | word =>
        simp only [number, UInt8.toNat_ofNat']
        omega
  rw [Width.encode, hlow]

theorem Memory.encode_word (m : Memory) (a : UInt16) :
    Width.word.encode (m.number a .word) = [m a, m (a + 1)] := by
  have hhigh : UInt8.ofNat (m.number a .word / 256) = m (a + 1) := by
    apply UInt8.toNat_inj.1
    have hlt := (m a).toNat_lt
    have hlt' := (m (a + 1)).toNat_lt
    simp only [number, UInt8.toNat_ofNat']
    omega
  have hlow := m.encode_byte a .word
  rw [Width.encode, List.cons.injEq] at hlow
  rw [Width.encode, hlow.1, hhigh]

/-- A byte that is stored as a word has a zero behind it. -/
theorem Memory.encode_widened (m : Memory) (a : UInt16) :
    Width.word.encode (m.number a .byte) = [m a, 0] := by
  have hhigh : UInt8.ofNat (m.number a .byte / 256) = 0 := by
    have hlt := (m a).toNat_lt
    rw [number, Nat.div_eq_of_lt hlt]
    rfl
  have hlow := m.encode_byte a .byte
  rw [Width.encode, List.cons.injEq] at hlow
  rw [Width.encode, hlow.1, hhigh]

theorem Width.encode_lowPart (v : UInt16) :
    Width.byte.encode (lowPart v).toNat = Width.byte.encode v.toNat := by
  simp only [encode_toNat, wordBytes, lowByte_lowPart, bytes, List.take_succ_cons, List.take_zero]

@[simp] theorem Place.locate_symbol (address : String → UInt16) (name : String) :
    ({ symbol := name } : Place).locate address = address name :=
  add_ofNat_zero _

theorem toNat_lowPart (w : UInt16) : (lowPart w).toNat = w.toNat % 256 := by
  rw [lowPart, UInt16.toNat_and]
  exact Nat.and_two_pow_sub_one_eq_mod w.toNat 8

/-! ## Chains -/

namespace Node

/-- Casts between numbers, over a literal or over a variable that is a number. -/
inductive Chain : Node → Prop where
  | literal (s : Slot) (value : UInt16) : Chain (.literal s value)
  | ident {s : Slot} (name : String) (h : s.ty.isPrimitive = true) : Chain (.ident s name)
  | cast {s : Slot} (kind : CastKind) {operand : Node} (h : s.ty.isPrimitive = true)
      (hoperand : Chain operand) : Chain (.cast s kind operand)

/-- The number that a chain stands for. -/
def number (address : String → UInt16) (m : Memory) : Node → Nat
  | .literal _ value => value.toNat
  | .ident s name => m.number (address name) s.ty.width
  | .cast s _ operand => s.ty.width.cut (operand.number address m)
  | _ => 0

/-- The bytes of memory that a chain reads. -/
def reads (address : String → UInt16) : Node → List UInt16
  | .ident s name => (List.range s.ty.width.bytes).map fun i => address name + UInt16.ofNat i
  | .cast _ _ operand => operand.reads address
  | _ => []

/-- The variables that a chain reads. -/
def symbols : Node → List String
  | .ident _ name => [name]
  | .cast _ _ operand => operand.symbols
  | _ => []

/-- The type that a chain is stored as: the outermost one; a literal without a cast
has that of its position. -/
def storedAs (target : Ty) : Node → Ty
  | .literal _ _ => target
  | node => node.ty

end Node

/-! ## Scalars -/

namespace Scalar

/-- The number that a scalar stands for. -/
def number (address : String → UInt16) (m : Memory) : Scalar → Nat
  | .const value => value.toNat
  | .byte p => m.number (p.locate address) .byte
  | .word p => m.number (p.locate address) .word
  | .widened p => m.number (p.locate address) .byte

/-- The bytes of memory that a scalar reads. -/
def reads (address : String → UInt16) : Scalar → List UInt16
  | .const _ => []
  | .byte p | .widened p => [p.locate address]
  | .word p => [p.locate address, p.locate address + 1]

/-- The variables that a scalar reads. -/
def symbols : Scalar → List String
  | .const _ => []
  | .byte p | .word p | .widened p => [p.symbol]

/-- A scalar stands for a chain: it is the same number, and reads nothing else. -/
structure Folds (value : Scalar) (node : Node) : Prop where
  number : ∀ address m, value.number address m = node.number address m
  reads : ∀ address, ∀ a ∈ value.reads address, a ∈ node.reads address
  symbols : ∀ name ∈ value.symbols, name ∈ node.symbols

variable {address : String → UInt16} {m : Memory}

/-- A cast does to a scalar what it does to its number. -/
theorem number_cast? {value value' : Scalar} {ty : Ty} (h : value.cast? ty = some value') :
    value'.number address m = ty.width.cut (value.number address m) := by
  cases ty with
  | byte =>
      obtain rfl := Option.some.inj h
      cases value with
      | const v => exact toNat_lowPart v
      | byte p => exact (Nat.mod_eq_of_lt (UInt8.toNat_lt _)).symm
      | widened p => exact (Nat.mod_eq_of_lt (UInt8.toNat_lt _)).symm
      | word p =>
          have hlt := (m (p.locate address)).toNat_lt
          simp only [number, Memory.number, Ty.width, Width.cut]
          omega
  | word =>
      obtain rfl := Option.some.inj h
      cases value <;> rfl
  | _ => cases h

/-- A cast reads no more bytes than what is under it. -/
theorem reads_cast? {value value' : Scalar} {ty : Ty} (h : value.cast? ty = some value') :
    ∀ a ∈ value'.reads address, a ∈ value.reads address := by
  cases ty with
  | byte =>
      obtain rfl := Option.some.inj h
      cases value <;> simp [reads]
  | word =>
      obtain rfl := Option.some.inj h
      cases value <;> simp [reads]
  | _ => cases h

theorem symbols_cast? {value value' : Scalar} {ty : Ty} (h : value.cast? ty = some value') :
    value'.symbols = value.symbols := by
  cases ty with
  | byte =>
      obtain rfl := Option.some.inj h
      cases value <;> rfl
  | word =>
      obtain rfl := Option.some.inj h
      cases value <;> rfl
  | _ => cases h

/-- Folding one cast over a folded chain. -/
theorem Folds.cast {value value' : Scalar} {operand : Node} (h : value.Folds operand) {s : Slot}
    (hcast : value.cast? s.ty = some value') (kind : CastKind) :
    value'.Folds (.cast s kind operand) := by
  refine ⟨?_, ?_, ?_⟩
  · intro address m
    rw [number_cast? hcast, h.number]
    rfl
  · intro address a ha
    exact h.reads address a (reads_cast? hcast a ha)
  · intro name hname
    rw [symbols_cast? hcast] at hname
    exact h.symbols name hname

end Scalar

namespace Node

/-- Every chain folds, from the inside out. -/
theorem Chain.folds {node : Node} (h : node.Chain) :
    ∃ value, node.scalar = .ok value ∧ value.Folds node := by
  induction h with
  | literal s value =>
      refine ⟨.const value, rfl, ⟨fun _ _ => rfl, ?_, ?_⟩⟩
      · intro address a ha
        exact ha
      · intro name hname
        exact hname
  | @ident s name hty =>
      rcases Ty.eq_of_isPrimitive hty with hbyte | hword
      · refine ⟨.byte { symbol := name }, by rw [scalar, hbyte], ⟨?_, ?_, ?_⟩⟩
        · intro address m
          simp [Scalar.number, number, hbyte, Ty.width]
        · intro address a ha
          simpa [Scalar.reads, reads, hbyte, Ty.width, Width.bytes] using ha
        · intro x hx
          exact hx
      · refine ⟨.word { symbol := name }, by rw [scalar, hword], ⟨?_, ?_, ?_⟩⟩
        · intro address m
          simp [Scalar.number, number, hword, Ty.width]
        · intro address a ha
          simpa [Scalar.reads, reads, hword, Ty.width, Width.bytes, List.range_succ] using ha
        · intro x hx
          exact hx
  | @cast s kind operand hty _ ih =>
      obtain ⟨value, hvalue, hfolds⟩ := ih
      obtain ⟨value', hcast⟩ := exists_cast? hty value
      refine ⟨value', ?_, hfolds.cast hcast kind⟩
      rw [scalar, hvalue]
      dsimp only
      rw [hcast]

/-- A chain is stored by the instruction of its scalar. -/
theorem Chain.initCode_eq {init : Node} (h : init.Chain) {target : Ty}
    (htarget : (init.storedAs target).isPrimitive = true) {value : Scalar}
    (hvalue : init.scalar = .ok value) (dest : Place) :
    ∃ i, value.store? dest (init.storedAs target) = some i ∧
      init.initCode dest target = .ok [i] := by
  cases h with
  | literal s v =>
      cases hvalue
      rcases Ty.eq_of_isPrimitive htarget with hbyte | hword
      · obtain rfl : target = .byte := hbyte
        exact ⟨_, rfl, rfl⟩
      · obtain rfl : target = .word := hword
        exact ⟨_, rfl, rfl⟩
  | @ident s name hty =>
      have hstored : storedAs target (.ident s name) = s.ty := rfl
      rcases Ty.eq_of_isPrimitive hty with hbyte | hword
      · rw [scalar, hbyte] at hvalue
        cases hvalue
        rw [initCode, copyCode, hstored, hbyte]
        exact ⟨_, rfl, rfl⟩
      · rw [scalar, hword] at hvalue
        cases hvalue
        rw [initCode, copyCode, hstored, hword]
        exact ⟨_, rfl, rfl⟩
  | @cast s kind operand hty _ =>
      obtain ⟨i, hi⟩ := exists_store? hty value dest
      refine ⟨i, hi, ?_⟩
      rw [initCode, if_pos hty, scalarCode, hvalue]
      dsimp only [ty, slot]
      rw [hi]

end Node

/-! ## One instruction -/

/-- In the block each of these names stands for its address, and for no other. -/
def Names.Assigns (names : Names) (block : BlockId) (address : String → UInt16)
    (used : List String) : Prop :=
  ∀ name ∈ used, ∀ a, names block name a ↔ a = address name

namespace Code

section Step

variable {names : Names} {code : Code} {pos : Nat} {block : BlockId} {dest : Place}
  {m m' : Memory} {pos' : Nat}

/-- A copy goes to the next position, and leaves one memory. -/
theorem step_copy_iff {src : Value} {width : Width} {d : UInt16} {s : Source}
    (hi : code[pos]? = some (block, .copy dest src width))
    (hd : ∀ d', names.Locates block dest d' ↔ d' = d)
    (hs : ∀ s', names.Denotes block src s' ↔ s' = s) :
    code.Step names pos m pos' m' ↔ pos' = pos + 1 ∧ m' = m.copy d s 0 width.bytes := by
  constructor
  · intro hstep
    cases hstep with
    | copy hi' hd' hs' =>
        cases hi.symm.trans hi'
        rw [(hd _).1 hd', (hs _).1 hs']
        exact ⟨rfl, rfl⟩
    | _ => simp_all
  · rintro ⟨rfl, rfl⟩
    exact .copy hi ((hd d).2 rfl) ((hs s).2 rfl)

/-- A widening steps to the next position and stores the byte of its source with a
zero behind it. -/
theorem step_widen_iff {src : Place} {d s : UInt16}
    (hi : code[pos]? = some (block, .widen dest src))
    (hd : ∀ d', names.Locates block dest d' ↔ d' = d)
    (hs : ∀ s', names.Locates block src s' ↔ s' = s) :
    code.Step names pos m pos' m' ↔ pos' = pos + 1 ∧ m' = m.setAll d [m s, 0] := by
  constructor
  · intro hstep
    cases hstep with
    | widen hi' hd' hs' =>
        cases hi.symm.trans hi'
        rw [(hd _).1 hd', (hs _).1 hs']
        exact ⟨rfl, rfl⟩
    | _ => simp_all
  · rintro ⟨rfl, rfl⟩
    exact .widen hi ((hd d).2 rfl) ((hs s).2 rfl)

end Step

end Code

namespace Names.Assigns

variable {names : Names} {block : BlockId} {address : String → UInt16} {used : List String}

theorem locates_iff (h : names.Assigns block address used) {p : Place} (hp : p.symbol ∈ used)
    (a : UInt16) : names.Locates block p a ↔ a = p.locate address := by
  constructor
  · rintro ⟨start, hstart, rfl⟩
    rw [(h _ hp start).1 hstart, Place.locate]
  · rintro rfl
    exact ⟨_, (h _ hp _).2 rfl, rfl⟩

theorem denotes_place_iff (h : names.Assigns block address used) {p : Place}
    (hp : p.symbol ∈ used) (s : Source) :
    names.Denotes block (.place p) s ↔ s = .memory (p.locate address) := by
  constructor
  · rintro (_ | ⟨hlocates⟩ | _)
    rw [(h.locates_iff hp _).1 hlocates]
  · rintro rfl
    exact .place ((h.locates_iff hp _).2 rfl)

variable {dest : Place} {code : Code} {pos pos' : Nat} {m m' : Memory}

/-- A constant is written. -/
theorem step_immediate (h : names.Assigns block address used) (hdest : dest.symbol ∈ used)
    {v : UInt16} {width : Width} (hi : code[pos]? = some (block, .copy dest (.immediate v) width)) :
    code.Step names pos m pos' m' ↔ pos' = pos + 1 ∧
      m' = m.setAll (dest.locate address) (width.encode v.toNat) := by
  have himmediate : ∀ s, names.Denotes block (.immediate v) s ↔ s = .constant v := by
    intro s
    constructor
    · rintro ⟨⟩
      rfl
    · rintro rfl
      exact .immediate v
  rw [Code.step_copy_iff hi (h.locates_iff hdest) himmediate, Memory.copy_constant,
    Width.encode_toNat]

/-- The low byte of a number is written, whatever its width. -/
theorem step_low (h : names.Assigns block address used) (hdest : dest.symbol ∈ used) {p : Place}
    (hp : p.symbol ∈ used) (hi : code[pos]? = some (block, .copy dest (.place p) .byte))
    (width : Width) :
    code.Step names pos m pos' m' ↔ pos' = pos + 1 ∧
      m' = m.setAll (dest.locate address)
        (Width.byte.encode (m.number (p.locate address) width)) := by
  rw [Code.step_copy_iff hi (h.locates_iff hdest) (h.denotes_place_iff hp), Memory.encode_byte,
    Width.bytes, Memory.copy_byte]

/-- A word is written, if its second byte is not overwritten with the first one. -/
theorem step_word (h : names.Assigns block address used) (hdest : dest.symbol ∈ used) {p : Place}
    (hp : p.symbol ∈ used) (hi : code[pos]? = some (block, .copy dest (.place p) .word))
    (hapart : ∀ j < 2, ∀ k < 2,
      dest.locate address + UInt16.ofNat j ≠ p.locate address + UInt16.ofNat k) :
    code.Step names pos m pos' m' ↔ pos' = pos + 1 ∧
      m' = m.setAll (dest.locate address)
        (Width.word.encode (m.number (p.locate address) .word)) := by
  rw [Code.step_copy_iff hi (h.locates_iff hdest) (h.denotes_place_iff hp), Memory.encode_word,
    Width.bytes, Memory.copy_memory m hapart]
  rfl

/-- A byte is written as a word. -/
theorem step_widened (h : names.Assigns block address used) (hdest : dest.symbol ∈ used)
    {p : Place} (hp : p.symbol ∈ used) (hi : code[pos]? = some (block, .widen dest p)) :
    code.Step names pos m pos' m' ↔ pos' = pos + 1 ∧
      m' = m.setAll (dest.locate address)
        (Width.word.encode (m.number (p.locate address) .byte)) := by
  rw [Code.step_widen_iff hi (h.locates_iff hdest) (h.locates_iff hp), Memory.encode_widened]

end Names.Assigns

/-- The instruction of a scalar writes the bytes of its number. -/
theorem Scalar.step_store {value : Scalar} {dest : Place} {ty : Ty} {i : Instr}
    (hstore : value.store? dest ty = some i) {names : Names} {block : BlockId}
    {address : String → UInt16}
    (hnames : names.Assigns block address (dest.symbol :: value.symbols))
    (hclear : ∀ k < ty.width.bytes,
      dest.locate address + UInt16.ofNat k ∉ value.reads address)
    {code : Code} {pos : Nat} (hi : code[pos]? = some (block, i)) {m m' : Memory} {pos' : Nat} :
    code.Step names pos m pos' m' ↔ pos' = pos + 1 ∧
      m' = m.setAll (dest.locate address) (ty.width.encode (value.number address m)) := by
  have hdest : dest.symbol ∈ dest.symbol :: value.symbols := List.mem_cons_self
  cases ty with
  | byte =>
      obtain rfl := Option.some.inj hstore
      cases value with
      | const v =>
          rw [hnames.step_immediate hdest hi, Width.encode_lowPart]
          rfl
      | byte p => exact hnames.step_low hdest (by simp [symbols]) hi .byte
      | word p => exact hnames.step_low hdest (by simp [symbols]) hi .word
      | widened p => exact hnames.step_low hdest (by simp [symbols]) hi .byte
  | word =>
      obtain rfl := Option.some.inj hstore
      cases value with
      | const v => exact hnames.step_immediate hdest hi
      | byte p => exact hnames.step_widened hdest (by simp [symbols]) hi
      | widened p => exact hnames.step_widened hdest (by simp [symbols]) hi
      | word p =>
          refine hnames.step_word hdest (by simp [symbols]) hi ?_
          intro j hj k hk heq
          refine hclear j hj ?_
          rw [heq]
          obtain rfl | rfl : k = 0 ∨ k = 1 := by omega
          · simp [reads]
          · exact List.mem_cons_of_mem _ List.mem_cons_self
  | _ => cases hstore

namespace Node

/-- A chain is stored by one instruction.  Wherever its code runs, if the bytes of the
variable and those of the destination are apart, it writes the bytes of the number
that the chain stands for, and nothing else. -/
theorem Chain.stored {init : Node} (h : init.Chain) {target : Ty}
    (htarget : (init.storedAs target).isPrimitive = true) (dest : Place) :
    ∃ i, init.initCode dest target = .ok [i] ∧
      ∀ {names : Names} {block : BlockId} {address : String → UInt16} {code : Code} {pos : Nat},
        names.Assigns block address (dest.symbol :: init.symbols) →
        (∀ k < (init.storedAs target).width.bytes,
          dest.locate address + UInt16.ofNat k ∉ init.reads address) →
        code[pos]? = some (block, i) →
        ∀ (m m' : Memory) (pos' : Nat), code.Step names pos m pos' m' ↔ pos' = pos + 1 ∧
          m' = m.setAll (dest.locate address)
            ((init.storedAs target).width.encode (init.number address m)) := by
  obtain ⟨value, hvalue, hfolds⟩ := h.folds
  obtain ⟨i, hstore, hcode⟩ := h.initCode_eq htarget hvalue dest
  refine ⟨i, hcode, ?_⟩
  intro names block address code pos hnames hapart hi m m' pos'
  have hnames' : names.Assigns block address (dest.symbol :: value.symbols) := by
    intro name hname
    rcases List.mem_cons.1 hname with rfl | hused
    · exact hnames _ List.mem_cons_self
    · exact hnames name (List.mem_cons_of_mem _ (hfolds.symbols name hused))
  have hclear : ∀ k < (init.storedAs target).width.bytes,
      dest.locate address + UInt16.ofNat k ∉ value.reads address := by
    intro k hk hread
    exact hapart k hk (hfolds.reads address _ hread)
  rw [Scalar.step_store hstore hnames' hclear hi, hfolds.number]

/-- The word `w`, cut to a byte and widened again. -/
def recast : Node :=
  .cast { ty := .word } .implicit (.cast { ty := .byte } .explicit (.ident { ty := .word } "w"))

/-- The word `w` lies at $0300 and all else at $0200. -/
def recastAddress (name : String) : UInt16 := if name = "w" then 0x0300 else 0x0200

/-- A memory where `w` is $1234. -/
def recastMemory : Memory := fun a => if a = 0x0300 then 0x34 else 0x12

/-- The high byte that was cut off does not come back, and the bytes around the
destination stay. -/
theorem stored_recast :
    recast.initCode { symbol := "d", offset := 4 } .word =
        .ok [.widen { symbol := "d", offset := 4 } { symbol := "w" }] ∧
      ∃ m', Code.Step (fun _ name a => a = recastAddress name)
          [(0, .widen { symbol := "d", offset := 4 } { symbol := "w" })] 0 recastMemory 1 m' ∧
        m' 0x0203 = 0x12 ∧ m' 0x0204 = 0x34 ∧ m' 0x0205 = 0x00 ∧ m' 0x0206 = 0x12 := by
  have hchain : recast.Chain := .cast _ rfl (.cast _ rfl (.ident _ rfl))
  have hcode : recast.initCode { symbol := "d", offset := 4 } .word =
      .ok [.widen { symbol := "d", offset := 4 } { symbol := "w" }] := rfl
  obtain ⟨i, hi, hstep⟩ :=
    @Chain.stored recast hchain .word rfl { symbol := "d", offset := 4 }
  cases hi.symm.trans hcode
  have hassigns : Names.Assigns (fun _ name a => a = recastAddress name) 0 recastAddress
      ["d", "w"] := by
    intro name _ a
    exact Iff.rfl
  refine ⟨hcode, _, (hstep hassigns (by decide +kernel) rfl recastMemory _ 1).2 ⟨rfl, rfl⟩, ?_⟩
  decide +kernel

end Node

end Cartridge
