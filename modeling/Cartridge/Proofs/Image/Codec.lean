/-
# `Cartridge.Proofs.Image.Codec` — images as files and back

The header has room for more than it carries.  What it does not carry, reading
ignores and writing leaves zero:

    byte 7          bits 1 to 3
    byte 9          bits 1 to 7
    bytes 11 – 15   all bits

Proved here: a header that is written is read back (`read_toList`), and one that
is read is written with these bits cleared (`toList_read`).  So an image with the
sizes that its header says comes back from its file (`Sized.ofBytes_toBytes`), a
file comes back from its image but for these bits (`toBytes_of_ofBytes`), and it
is known which files are images (`exists_ofBytes_iff`).
-/
import Cartridge.Proofs.Image.Injection

namespace Cartridge

namespace Header

/-! ## Bits of a byte -/

/-- What holds of all numbers below 256 holds of all bytes. -/
theorem forall_byte {p : UInt8 → Prop} (h : ∀ n < 256, p (UInt8.ofNat n)) (x : UInt8) : p x := by
  have hx := h x.toNat x.toNat_lt
  rwa [UInt8.ofNat_toNat] at hx

theorem or_and (x y bits : UInt8) : (x ||| y) &&& bits = x &&& bits ||| y &&& bits := by
  apply UInt8.toBitVec_inj.1
  simp only [UInt8.toBitVec_and, UInt8.toBitVec_or, BitVec.and_or_distrib_right]

theorem and_full (x : UInt8) : x &&& 0xFF = x := UInt8.and_neg_one

theorem isSet_or (x y bits : UInt8) : isSet (x ||| y) bits = (isSet x bits || isSet y bits) := by
  rw [isSet, isSet, isSet, or_and, Bool.eq_iff_iff, Bool.or_eq_true, bne_iff_ne, bne_iff_ne,
    bne_iff_ne, ne_eq, UInt8.or_eq_zero_iff, Decidable.not_and_iff_or_not]

theorem isSet_flag (b : Bool) (bit bits : UInt8) :
    isSet (flag b bit) bits = (b && isSet bit bits) := by
  cases b with
  | false => simp [flag, isSet]
  | true => rfl

/-- The four flags of a byte. -/
def flagBits : List UInt8 := [0x01, 0x02, 0x04, 0x08]

/-- No two flags share a bit. -/
theorem isSet_flagBits : ∀ a ∈ flagBits, ∀ b ∈ flagBits, isSet a b = (a == b) := by
  decide +kernel

/-- A flag that is read off a byte is its bit. -/
theorem flag_isSet (x : UInt8) : ∀ bit ∈ flagBits, flag (isSet x bit) bit = x &&& bit := by
  revert x
  apply forall_byte
  decide +kernel

/-- The half of a number that is moved up leaves the flags alone. -/
theorem isSet_nibble (x : UInt8) :
    ∀ bit ∈ flagBits, isSet ((x &&& 0x0F) <<< 4) bit = false ∧ isSet (x &&& 0xF0) bit = false := by
  revert x
  apply forall_byte
  decide +kernel

/-- The flags are below the half that is moved down. -/
theorem flag_shiftRight (b : Bool) :
    ∀ bit ∈ flagBits, flag b bit >>> 4 = 0 ∧ flag b bit &&& 0xF0 = 0 := by
  cases b <;> decide +kernel

/-- A byte is its flags and its upper half. -/
theorem parts_of_byte (x : UInt8) :
    x &&& 0x01 ||| x &&& 0x02 ||| x &&& 0x04 ||| x &&& 0x08 ||| x &&& 0xF0 = x := by
  revert x
  apply forall_byte
  decide +kernel

/-- A byte is its lower half, moved up and down again, and its upper half. -/
theorem halves_of_byte (x : UInt8) :
    ((x &&& 0x0F) <<< 4) >>> 4 ||| x &&& 0xF0 &&& 0xF0 = x := by
  revert x
  apply forall_byte
  decide +kernel

/-- The upper half, moved down, is a lower half; beside bit 0 it is what byte 7
carries. -/
theorem upper_of_byte (x : UInt8) : ((x >>> 4) &&& 0x0F) <<< 4 = x &&& 0xF0 ∧
    (x >>> 4) &&& 0xF0 = 0 ∧ x &&& 0x01 ||| x &&& 0xF0 = x &&& 0xF1 := by
  revert x
  apply forall_byte
  decide +kernel

/-- The upper half has no lower half. -/
theorem lower_of_upper (x : UInt8) :
    ((x &&& 0xF0) &&& 0x0F) <<< 4 = 0 ∧ (x &&& 0xF0) &&& 0xF0 = x &&& 0xF0 := by
  revert x
  apply forall_byte
  decide +kernel

/-! ## The header as bytes -/

/-- The header that bytes at given positions stand for. -/
def read (byte : Nat → UInt8) : Header where
  prgBanks := byte 4
  chrBanks := byte 5
  mirroring := if isSet (byte 6) 0x01 then .vertical else .horizontal
  battery := isSet (byte 6) 0x02
  trainer := isSet (byte 6) 0x04
  fourScreen := isSet (byte 6) 0x08
  mapper := byte 6 >>> 4 ||| byte 7 &&& 0xF0
  arcade := isSet (byte 7) 0x01
  prgRam := byte 8
  pal := isSet (byte 9) 0x01
  flags10 := byte 10

/-- A header is read from its sixteen bytes alone. -/
theorem read_congr {byte byte' : Nat → UInt8} (h : ∀ i < headerSize, byte i = byte' i) :
    read byte = read byte' := by
  simp only [read, h 4 (by decide), h 5 (by decide), h 6 (by decide), h 7 (by decide),
    h 8 (by decide), h 9 (by decide), h 10 (by decide)]

/-- A file begins with the signature. -/
theorem extract_eq_magic {file : Bytes} :
    (file.extract 0 4).toList = magic ↔ magic <+: file.toList := by
  rw [Array.toList_extract, List.prefix_iff_eq_take, eq_comm]
  rfl

/-- What is read, and when. -/
theorem parse_eq_ok_iff {file : Bytes} {h : Header} :
    parse file = .ok h ↔
      headerSize ≤ file.size ∧ magic <+: file.toList ∧ h = read fun i => file.getD i 0 := by
  unfold parse
  split
  · next hlt => simp [Nat.not_le.2 hlt]
  · next hge =>
      have hsize : 16 ≤ file.size := Nat.le_of_not_lt hge
      have hbyte : ∀ i (hi : i < file.size), file[i] = file.getD i 0 := by
        intro i hi
        rw [Array.getD_eq_getD_getElem?, Array.getElem?_eq_getElem hi, Option.getD_some]
      rw [← extract_eq_magic]
      split
      · next hmagic =>
          have hmagic : (file.extract 0 4).toList ≠ magic := bne_iff_ne.1 hmagic
          simp only [hmagic, reduceCtorEq, false_and, and_false]
      · next hmagic =>
          have hmagic : (file.extract 0 4).toList = magic := by simpa using hmagic
          simp only [hmagic, hbyte, read, Except.ok.injEq, true_and]
          rw [eq_comm]
          exact ⟨fun heq => ⟨hsize, heq⟩, fun heq => heq.2⟩

/-- The flags and the lower half of the mapper come back from byte 6. -/
theorem isSet_flags6 (h : Header) :
    isSet h.flags6 0x01 = (h.mirroring == .vertical) ∧ isSet h.flags6 0x02 = h.battery ∧
      isSet h.flags6 0x04 = h.trainer ∧ isSet h.flags6 0x08 = h.fourScreen := by
  have hlow := fun bit hbit => (isSet_nibble h.mapper bit hbit).1
  simp only [flagBits, List.forall_mem_cons] at hlow
  obtain ⟨h1, h2, h4, h8, -⟩ := hlow
  have hbits := isSet_flagBits
  simp only [flagBits, List.forall_mem_cons] at hbits
  simp [flags6, isSet_or, isSet_flag, h1, h2, h4, h8, hbits]

/-- The arcade flag comes back from byte 7. -/
theorem isSet_flags7 (h : Header) : isSet h.flags7 0x01 = h.arcade := by
  have hlow := (isSet_nibble h.mapper 0x01 (by decide)).2
  have hbit := isSet_flagBits 0x01 (by decide) 0x01 (by decide)
  simp [flags7, isSet_or, isSet_flag, hlow, hbit]

/-- Both halves of the mapper come back, without the flags. -/
theorem mapper_of_flags (h : Header) : h.flags6 >>> 4 ||| h.flags7 &&& 0xF0 = h.mapper := by
  have hflag := fun b bit hbit => (flag_shiftRight b bit hbit).1
  have hmask := (flag_shiftRight h.arcade 0x01 (by decide)).2
  simp only [flagBits, List.forall_mem_cons] at hflag
  simp only [flags6, flags7, UInt8.shiftRight_or, or_and, hflag, hmask, UInt8.zero_or]
  exact halves_of_byte h.mapper

/-- The fields of a header are found in its bytes. -/
theorem read_toList (h : Header) : (read fun i => h.toList.getD i 0) = h := by
  have hmirroring : (if h.mirroring == .vertical then Mirroring.vertical else .horizontal) =
      h.mirroring := by
    cases h.mirroring <;> rfl
  have hpal : isSet (flag h.pal 0x01) 0x01 = h.pal := by
    rw [isSet_flag]
    simp [isSet]
  obtain ⟨h1, h2, h4, h8⟩ := h.isSet_flags6
  show Header.mk h.prgBanks h.chrBanks
    (if isSet h.flags6 0x01 then .vertical else .horizontal) (isSet h.flags6 0x02)
    (isSet h.flags6 0x04) (isSet h.flags6 0x08) (h.flags6 >>> 4 ||| h.flags7 &&& 0xF0)
    (isSet h.flags7 0x01) h.prgRam (isSet (flag h.pal 0x01) 0x01) h.flags10 = h
  rw [h1, h2, h4, h8, hmirroring, h.isSet_flags7, h.mapper_of_flags, hpal]

/-- The bits of a file that an image carries. -/
def carried (i : Nat) : UInt8 :=
  if i = 7 then 0xF1 else if i = 9 then 0x01 else if 11 ≤ i ∧ i < headerSize then 0x00 else 0xFF

/-- All that follows the header is carried. -/
theorem carried_of_le {i : Nat} (h : headerSize ≤ i) : carried i = 0xFF := by
  have h16 : 16 ≤ i := h
  have hpast : ¬ (11 ≤ i ∧ i < headerSize) := fun hlt => Nat.not_le.2 hlt.2 h
  rw [carried, if_neg (by omega), if_neg (by omega), if_neg hpast]

/-- Byte 6 is carried as it is. -/
theorem flags6_read (byte : Nat → UInt8) : (read byte).flags6 = byte 6 := by
  have hmirroring : ((read byte).mirroring == .vertical) = isSet (byte 6) 0x01 := by
    rw [read]
    cases isSet (byte 6) 0x01 <;> rfl
  obtain ⟨hlower, -⟩ := upper_of_byte (byte 6)
  have hupper : ((byte 7 &&& 0xF0) &&& 0x0F) <<< 4 = 0 := (lower_of_upper (byte 7)).1
  have hmapper : ((read byte).mapper &&& 0x0F) <<< 4 = byte 6 &&& 0xF0 := by
    rw [read, or_and, UInt8.shiftLeft_or, hlower, hupper, UInt8.or_zero]
  rw [flags6, hmirroring, hmapper]
  conv => rhs; rw [← parts_of_byte (byte 6)]
  have hflag := flag_isSet (byte 6)
  simp only [flagBits, List.forall_mem_cons] at hflag
  obtain ⟨h1, h2, h4, h8, -⟩ := hflag
  rw [← h1, ← h2, ← h4, ← h8]
  rfl

/-- Byte 7 is carried without bits 1 to 3. -/
theorem flags7_read (byte : Nat → UInt8) : (read byte).flags7 = byte 7 &&& 0xF1 := by
  obtain ⟨-, hlower, -⟩ := upper_of_byte (byte 6)
  obtain ⟨-, -, hjoin⟩ := upper_of_byte (byte 7)
  have hupper := (lower_of_upper (byte 7)).2
  have harcade : flag (read byte).arcade 0x01 = byte 7 &&& 0x01 :=
    flag_isSet (byte 7) 0x01 (by decide)
  have hmapper : (read byte).mapper &&& 0xF0 = byte 7 &&& 0xF0 := by
    rw [read, or_and, hlower, hupper, UInt8.zero_or]
  rw [flags7, harcade, hmapper, hjoin]

/-- The bytes of a header that is read are those that it is read from, without the bits
that it does not carry. -/
theorem toList_read {byte : Nat → UInt8} (hmagic : magic = (List.range 4).map byte) :
    (read byte).toList = (List.range headerSize).map fun i => byte i &&& carried i := by
  have hpal : flag (read byte).pal 0x01 = byte 9 &&& 0x01 := flag_isSet (byte 9) 0x01 (by decide)
  rw [toList, flags6_read, flags7_read, hpal, hmagic]
  show [byte 0, byte 1, byte 2, byte 3, byte 4, byte 5, byte 6, byte 7 &&& 0xF1, byte 8,
      byte 9 &&& 0x01, byte 10, 0, 0, 0, 0, 0] =
    [byte 0 &&& 0xFF, byte 1 &&& 0xFF, byte 2 &&& 0xFF, byte 3 &&& 0xFF, byte 4 &&& 0xFF,
      byte 5 &&& 0xFF, byte 6 &&& 0xFF, byte 7 &&& 0xF1, byte 8 &&& 0xFF, byte 9 &&& 0x01,
      byte 10 &&& 0xFF, byte 11 &&& 0, byte 12 &&& 0, byte 13 &&& 0, byte 14 &&& 0, byte 15 &&& 0]
  simp only [and_full, UInt8.and_zero]

end Header

namespace Rom

/-! ## Images -/

/-- An image has the memory that its header says. -/
structure Sized (rom : Rom) : Prop where
  prg : rom.prg.size = rom.header.prgSize
  chr : rom.chr.size = rom.header.chrSize

theorem Sized.size_toBytes {rom : Rom} (h : rom.Sized) :
    rom.toBytes.size = headerSize + rom.header.prgSize + rom.header.chrSize := by
  rw [toBytes, Array.size_append, Array.size_append, List.size_toArray, Header.length_toList, h.prg,
    h.chr]

/-- What is read, and when. -/
theorem ofBytes_eq_ok_iff {file : Bytes} {rom : Rom} :
    ofBytes file = .ok rom ↔
      Header.parse file = .ok rom.header ∧
        file.size = headerSize + rom.header.prgSize + rom.header.chrSize ∧
        rom.prg = file.extract headerSize (headerSize + rom.header.prgSize) ∧
        rom.chr = file.extract (headerSize + rom.header.prgSize) file.size := by
  unfold ofBytes
  split
  · next e he => simp [he]
  · next header hheader =>
      rw [hheader]
      dsimp only
      split
      · next hsize =>
          constructor
          · intro h
            cases h
            exact ⟨rfl, hsize, rfl, rfl⟩
          · rintro ⟨hh, -, hprg, hchr⟩
            cases hh
            rw [← hprg, ← hchr]
      · next hsize =>
          constructor
          · intro h
            cases h
          · rintro ⟨hh, hsize', -⟩
            cases hh
            exact absurd hsize' hsize

theorem sized_of_ofBytes {file : Bytes} {rom : Rom} (h : ofBytes file = .ok rom) : rom.Sized := by
  obtain ⟨-, hsize, hprg, hchr⟩ := ofBytes_eq_ok_iff.1 h
  constructor
  · rw [hprg, Array.size_extract]
    omega
  · rw [hchr, Array.size_extract]
    omega

theorem sized_of_ofPrg {header : Header} {prg : Bytes} {rom : Rom}
    (h : ofPrg header prg = .ok rom) :
    rom.Sized ∧ rom.header = header := by
  unfold ofPrg at h
  split at h
  · next hsize =>
      cases h
      exact ⟨⟨hsize, Array.size_replicate ..⟩, rfl⟩
  · cases h

/-- An injection changes bytes of program memory, and nothing else. -/
theorem Sized.inject {startup : Segment} {rom rom' : Rom} (hsized : rom.Sized)
    (h : inject startup rom = .ok rom') : rom'.Sized ∧ rom'.header = rom.header := by
  obtain ⟨board, offset, routine, next, written, -, -, -, -, hwritten, hprg, hheader, hchr⟩ :=
    inject_eq_ok h
  obtain ⟨-, hput⟩ := Bytes.putAll?_of_putVector? hprg
  have hsize := (Bytes.size_of_putAll? hput).trans (Bytes.size_of_putAll? hwritten)
  exact ⟨⟨by rw [hsize, hheader, hsized.prg], by rw [hchr, hheader, hsized.chr]⟩, hheader⟩

theorem sized_of_ofBank {header : Header} {bank : Bytes} {startup : Segment} {rom : Rom}
    (h : ofBank header bank startup = .ok rom) : rom.Sized ∧ rom.header = header := by
  unfold ofBank at h
  split at h
  · cases h
  · next plain hplain =>
      obtain ⟨hsized, hheader⟩ := sized_of_ofPrg hplain
      split at h
      · cases h
        exact ⟨hsized, hheader⟩
      · obtain ⟨hsized', hsame⟩ := hsized.inject h
        exact ⟨hsized', hsame.trans hheader⟩

/-! ## Files -/

/-- The header stands in front of the file. -/
theorem getD_toBytes (rom : Rom) {i : Nat} (hi : i < headerSize) :
    rom.toBytes.getD i 0 = rom.header.toList.getD i 0 := by
  have hlength : rom.header.toList.toArray.size = headerSize := rfl
  rw [toBytes, Array.append_assoc, Array.getD_eq_getD_getElem?,
    Array.getElem?_append_left (by rw [hlength]; exact hi), List.getElem?_toArray,
    List.getD_eq_getElem?_getD]

/-- An image comes back from its file. -/
theorem Sized.ofBytes_toBytes {rom : Rom} (h : rom.Sized) : ofBytes rom.toBytes = .ok rom := by
  have hsize := h.size_toBytes
  have hlength : rom.header.toList.toArray.size = headerSize := rfl
  have hprg := h.prg
  have hchr := h.chr
  rw [ofBytes_eq_ok_iff]
  refine ⟨?_, hsize, ?_, ?_⟩
  · rw [Header.parse_eq_ok_iff]
    refine ⟨by omega, ?_, ?_⟩
    · rw [toBytes, Array.toList_append, Array.toList_append, List.append_assoc, Header.toList,
        List.append_assoc]
      exact List.prefix_append _ _
    · rw [Header.read_congr fun i hi => rom.getD_toBytes hi, Header.read_toList]
  · rw [← hlength, ← hprg, toBytes]
    simp [Array.extract_append]
  · rw [← hlength, ← hprg, toBytes]
    simp [Array.extract_append]

/-- A file without the bits that an image does not carry. -/
def carry (file : Bytes) : Bytes := file.mapIdx fun i b => b &&& Header.carried i

/-- A file comes back from its image, without what the image does not carry. -/
theorem toBytes_of_ofBytes {file : Bytes} {rom : Rom} (h : ofBytes file = .ok rom) :
    rom.toBytes = carry file := by
  obtain ⟨hparse, hsize, hprg, hchr⟩ := ofBytes_eq_ok_iff.1 h
  obtain ⟨hlength, hmagic, hheader⟩ := Header.parse_eq_ok_iff.1 hparse
  have hbyte : ∀ i < file.size, file[i]? = some (file.getD i 0) := by
    intro i hi
    rw [Array.getD_eq_getD_getElem?, Array.getElem?_eq_getElem hi, Option.getD_some]
  have hfront : magic = (List.range 4).map fun i => file.getD i 0 := by
    obtain ⟨rest, hrest⟩ := hmagic
    simp only [Array.getD_eq_getD_getElem?, ← Array.getElem?_toList, ← hrest]
    rfl
  have hbody : rom.prg ++ rom.chr = file.extract headerSize file.size := by
    rw [hprg, hchr, Array.extract_append_extract, Nat.min_eq_left (Nat.le_add_right _ _),
      Nat.max_eq_right (by omega)]
  have hhead := Header.toList_read hfront
  rw [← hheader] at hhead
  rw [toBytes, Array.append_assoc, hbody, hhead, carry]
  refine Array.ext_getElem? fun i => ?_
  rw [Array.getElem?_mapIdx, Array.getElem?_append]
  have hcount : ((List.range headerSize).map fun i =>
      file.getD i 0 &&& Header.carried i).toArray.size = headerSize := rfl
  rw [hcount]
  split
  · next hi =>
      rw [List.getElem?_toArray, List.getElem?_map, List.getElem?_range hi,
        hbyte i (Nat.lt_of_lt_of_le hi hlength)]
      rfl
  · next hi =>
      have hi := Nat.le_of_not_lt hi
      rw [Header.carried_of_le hi, Array.getElem?_extract, Nat.min_self, Nat.add_sub_cancel' hi]
      split
      · next hlt =>
          rw [hbyte i (by omega), Option.map_some, Header.and_full]
      · next hge =>
          rw [Array.getElem?_eq_none (by omega), Option.map_none]

theorem exists_ofBytes_iff {file : Bytes} :
    (∃ rom, ofBytes file = .ok rom) ↔
      headerSize ≤ file.size ∧ magic <+: file.toList ∧
        file.size = headerSize + (file.getD 4 0).toNat * prgBankSize +
          (file.getD 5 0).toNat * chrBankSize := by
  constructor
  · rintro ⟨rom, h⟩
    obtain ⟨hparse, hsize, -⟩ := ofBytes_eq_ok_iff.1 h
    obtain ⟨hlength, hmagic, hheader⟩ := Header.parse_eq_ok_iff.1 hparse
    rw [hheader] at hsize
    exact ⟨hlength, hmagic, hsize⟩
  · rintro ⟨hlength, hmagic, hsize⟩
    have hparse := Header.parse_eq_ok_iff.2 ⟨hlength, hmagic, rfl⟩
    rw [ofBytes, hparse]
    exact ⟨_, if_pos hsize⟩

end Rom

end Cartridge
