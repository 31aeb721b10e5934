/-
# `Cartridge.Proofs.Image.Effect` — all that building an image does

A header, a bank and a startup segment become an image, or they do not.  Which
of the five it is, the first line that applies decides:

    the bank has another size than the header says     sizeMismatch
    no startup code                                    the bank as it is
    neither one nor two banks                          unsupportedBanks
    no row of zeros for the routine                    noSpaceForStartup
    otherwise                                          the bank with the routine

In the last line every byte of the bank is known (`placedByte`): two bytes lead
to the routine, the first window holds it, and all others are those of the bank.
The two bytes may lie in the window; they win.

The routine is the startup code as it runs at its new address (`codeAt`) and a
jump behind it.  Relocations are words at the given offsets, patched one after
the other; they may overlap, so the order counts.

Proved here: what is built is what the table says, and nothing else is
(`builds_exactly`).
-/
import Cartridge.Proofs.Image.Injection

namespace Cartridge

/-! ## Code at another address -/

/-- Add `delta` to the word at an offset. -/
def addToWord (delta : UInt16) (code : List UInt8) (offset : Nat) : List UInt8 :=
  let w := wordOf (code.getD offset 0) (code.getD (offset + 1) 0) + delta
  (code.set offset (lowByte w)).set (offset + 1) (highByte w)

/-- The code of a segment as it runs at another address. -/
def Segment.codeAt (s : Segment) (origin : UInt16) : List UInt8 :=
  s.relocations.foldl (addToWord (origin - s.origin)) s.bytes.toList

/-- A word that is overwritten inside a buffer. -/
theorem Bytes.toList_of_putWord? {bytes out : Bytes} {offset : Nat} {w : UInt16}
    (h : bytes.putWord? offset w = some out) :
    out.toList = (bytes.toList.set offset (lowByte w)).set (offset + 1) (highByte w) := by
  unfold putWord? wordBytes putAll? at h
  split at h
  · next mid hmid =>
      unfold putAll? at h
      split at h
      · next last hlast =>
          cases h
          rw [(toList_of_put? hlast).2, (toList_of_put? hmid).2]
      · cases h
  · cases h

namespace Segment

/-- Relocations that lie inside the code are patched one after the other. -/
theorem relocate_eq_foldl (delta : UInt16) {offsets : List Nat} {bytes : Bytes}
    (h : ∀ o ∈ offsets, o + 1 < bytes.size) :
    relocate delta offsets bytes =
      .ok (offsets.foldl (addToWord delta) bytes.toList).toArray := by
  induction offsets generalizing bytes with
  | nil => simp [relocate]
  | cons o offsets ih =>
      have hin : o + 1 < bytes.size := h o List.mem_cons_self
      have hlow : bytes[o]? = some (bytes.toList.getD o 0) := by
        rw [List.getD_eq_getElem?_getD, Array.getElem?_toList,
          Array.getElem?_eq_getElem (by omega), Option.getD_some]
      have hhigh : bytes[o + 1]? = some (bytes.toList.getD (o + 1) 0) := by
        rw [List.getD_eq_getElem?_getD, Array.getElem?_toList,
          Array.getElem?_eq_getElem hin, Option.getD_some]
      have hword : bytes.word? o =
          some (wordOf (bytes.toList.getD o 0) (bytes.toList.getD (o + 1) 0)) := by
        rw [Bytes.word?, hlow, hhigh]
      obtain ⟨out, hout⟩ : ∃ out, bytes.putWord? o
          (wordOf (bytes.toList.getD o 0) (bytes.toList.getD (o + 1) 0) + delta) = some out :=
        Bytes.putAll?_eq_some hin
      have hlist : out.toList = addToWord delta bytes.toList o := Bytes.toList_of_putWord? hout
      have hsize : out.size = bytes.size := Bytes.size_of_putAll? hout
      rw [relocate, hword, Option.bind_some, hout, List.foldl_cons, ← hlist]
      exact ih fun o' ho' => by
        rw [hsize]
        exact h o' (List.mem_cons_of_mem o ho')

/-- A segment with its relocations inside moves anywhere. -/
theorem moveTo_eq_codeAt {s : Segment} (h : ∀ o ∈ s.relocations, o + 1 < s.size)
    (origin : UInt16) :
    s.moveTo origin = .ok { s with origin := origin, bytes := (s.codeAt origin).toArray } := by
  rw [moveTo, relocate_eq_foldl _ h]
  rfl

end Segment

/-! ## What is built -/

theorem Segment.isEmpty_of_size_pos {s : Segment} (h : 0 < s.size) : s.isEmpty = false := by
  rw [isEmpty, Array.isEmpty_eq_false_iff_exists_mem]
  exact ⟨s.bytes[0], Array.getElem_mem h⟩

theorem Board.ofBanks_eq_error {n : UInt8} {e : ImageError} (h : Board.ofBanks n = .error e) :
    e = .unsupportedBanks n ∧ n ≠ 1 ∧ n ≠ 2 := by
  rw [ofBanks] at h
  split at h
  · cases h
  · next hone =>
      split at h
      · cases h
      · next htwo =>
          cases h
          exact ⟨rfl, hone, htwo⟩

theorem Board.banks_injective {board board' : Board} (h : board.banks = board'.banks) :
    board = board' := by
  cases board <;> cases board' <;> first | rfl | exact absurd h (by decide)

namespace Rom

/-- Byte `i` of a bank after a startup routine is put into it at `offset`, to run at
`origin` and to go on at `next`. -/
def placedByte (bank : Bytes) (startup : Segment) (offset : Nat) (origin next : UInt16)
    (i : Nat) : Option UInt8 :=
  if i + 4 = bank.size then some (lowByte origin)
  else if i + 3 = bank.size then some (highByte origin)
  else if offset ≤ i ∧ i < offset + (startup.size + 3) then
    (startup.codeAt origin ++ 0x4C :: wordBytes next)[i - offset]?
  else bank[i]?

/-- An image of these parts with nothing in its character memory. -/
def blank (header : Header) (prg : Bytes) : Rom :=
  { header := header, prg := prg, chr := Array.replicate header.chrSize 0 }

/-- What becomes of a header, a bank and a startup segment. -/
inductive Builds (header : Header) (bank : Bytes) (startup : Segment) :
    Except (Stop ImageError) Rom → Prop where
  | sizeMismatch (hsize : bank.size ≠ header.prgSize) :
      Builds header bank startup (.error (.error (.sizeMismatch header.prgSize bank.size)))
  | plain (hsize : bank.size = header.prgSize) (hempty : startup.size = 0) :
      Builds header bank startup (.ok (blank header bank))
  | unsupportedBanks (hsize : bank.size = header.prgSize) (hcode : 0 < startup.size)
      (hone : header.prgBanks ≠ 1) (htwo : header.prgBanks ≠ 2) :
      Builds header bank startup (.error (.error (.unsupportedBanks header.prgBanks)))
  | noSpace {board : Board} (hsize : bank.size = header.prgSize) (hcode : 0 < startup.size)
      (hboard : board.banks = header.prgBanks)
      (hfull : ∀ i, ¬ Bank.IsWindow bank.toList (startup.size + 3) i) :
      Builds header bank startup (.error (.error (.noSpaceForStartup (startup.size + 3))))
  | placed {board : Board} {offset : Nat} {origin next : UInt16} {prg : Bytes}
      (hsize : bank.size = header.prgSize) (hcode : 0 < startup.size)
      (hboard : board.banks = header.prgBanks)
      (hfirst : Bank.IsFirst bank.toList (startup.size + 3) offset)
      (horigin : origin.toNat = board.base.toNat + offset)
      (hnext : bank.vector? Vectors.resetFromEnd = some next)
      (hprg : ∀ i, prg[i]? = placedByte bank startup offset origin next i) :
      Builds header bank startup (.ok (blank header prg))

variable {header : Header} {bank : Bytes} {startup : Segment}

/-! ## Every byte of the bank -/

theorem routineCode_eq_codeAt (hmoves : ∀ o ∈ startup.relocations, o + 1 < startup.size)
    {routine : Segment} {origin : UInt16} (h : startup.moveTo origin = .ok routine)
    (next : UInt16) :
    routineCode routine next = startup.codeAt origin ++ 0x4C :: wordBytes next := by
  rw [Segment.moveTo_eq_codeAt hmoves] at h
  cases h
  rfl

/-- After an injection every byte is the one of the table. -/
theorem Injected.getElem?_eq (hmoves : ∀ o ∈ startup.relocations, o + 1 < startup.size)
    {routine : Segment} {origin next : UInt16} {offset : Nat} {prg : Bytes}
    (h : Injected bank startup origin offset routine next prg) (hfour : 4 ≤ bank.size) (i : Nat) :
    prg[i]? = placedByte bank startup offset origin next i := by
  obtain ⟨hlow, hhigh⟩ := Bytes.getElem?_of_vector? h.reset
  rw [h.size, Vectors.resetFromEnd] at hlow hhigh
  rw [placedByte]
  split
  · next hi =>
      rw [show i = bank.size - 4 by omega]
      exact hlow
  · next hnlow =>
      split
      · next hi =>
          rw [show i = bank.size - 4 + 1 by omega]
          exact hhigh
      · next hnhigh =>
          split
          · next hwindow =>
              obtain ⟨j, rfl⟩ := Nat.exists_eq_add_of_le hwindow.1
              rw [Nat.add_sub_cancel_left, ← routineCode_eq_codeAt hmoves h.moved]
              exact h.code j (by rw [routineSize]; omega) (by omega)
          · next hwindow =>
              exact h.rest i (by rw [routineSize]; omega) (by omega)

/-! ## Each line of the table -/

theorem prgSize_of_banks {board : Board} (h : board.banks = header.prgBanks) :
    board.size = header.prgSize := by
  rw [Board.size, h, Header.prgSize]

theorem ofBanks_of_banks {board : Board} {n : UInt8} (h : board.banks = n) :
    Board.ofBanks n = .ok board := by
  subst h
  cases board <;> rfl

/-- Startup code in a bank of the right size is injected. -/
theorem ofBank_eq_inject (hsize : bank.size = header.prgSize) (hcode : 0 < startup.size) :
    ofBank header bank startup = (blank header bank).inject startup := by
  have hplain : ofPrg header bank = .ok (blank header bank) := if_pos hsize
  rw [ofBank, hplain]
  dsimp only
  rw [Segment.isEmpty_of_size_pos hcode]
  rfl

/-- Without startup code the bank is left alone. -/
theorem ofBank_of_empty (hsize : bank.size = header.prgSize) (hempty : startup.size = 0) :
    ofBank header bank startup = .ok (blank header bank) := by
  have hplain : ofPrg header bank = .ok (blank header bank) := if_pos hsize
  have hnone : startup.isEmpty = true := Array.isEmpty_iff_size_eq_zero.2 hempty
  rw [ofBank, hplain]
  dsimp only
  rw [if_pos hnone]

theorem exists_reset {board : Board} (hbanks : board.banks = header.prgBanks)
    (hsize : bank.size = header.prgSize) :
    ∃ next, bank.vector? Vectors.resetFromEnd = some next := by
  refine Bytes.exists_vector? (by decide) ?_
  rw [hsize, ← prgSize_of_banks hbanks]
  cases board <;> decide

/-- Only one and two banks take startup code. -/
theorem ofBank_of_unsupported (hsize : bank.size = header.prgSize) (hcode : 0 < startup.size)
    {e : ImageError} (h : Board.ofBanks header.prgBanks = .error e) :
    ofBank header bank startup = .error (.error e) := by
  rw [ofBank_eq_inject hsize hcode, inject, blank, h]

/-- Without a window there is no room. -/
theorem ofBank_of_full {board : Board} (hbanks : board.banks = header.prgBanks)
    (hsize : bank.size = header.prgSize) (hcode : 0 < startup.size)
    (hfull : ∀ i, ¬ Bank.IsWindow bank.toList (routineSize startup) i) :
    ofBank header bank startup =
      .error (.error (.noSpaceForStartup (routineSize startup))) := by
  obtain ⟨next, hnext⟩ := exists_reset hbanks hsize
  have hwindow : Bank.zeroWindow bank (routineSize startup) = none := by
    cases hfound : Bank.zeroWindow bank (routineSize startup) with
    | none => rfl
    | some i => exact absurd (Bank.isFirst_of_zeroWindow hfound).2.1 (hfull i)
  rw [ofBank_eq_inject hsize hcode, inject, blank, ofBanks_of_banks hbanks]
  dsimp only
  rw [hnext, hwindow]
  rfl

/-- An injection changes program memory alone. -/
theorem eq_blank_of_inject {rom : Rom} (h : (blank header bank).inject startup = .ok rom) :
    rom = blank header rom.prg := by
  obtain ⟨-, -, -, -, -, -, -, -, -, -, -, hheader, hchr⟩ := inject_eq_ok h
  cases rom
  cases hheader
  cases hchr
  rfl

/-- With a window the routine is put into the first one. -/
theorem ofBank_of_first (hmoves : ∀ o ∈ startup.relocations, o + 1 < startup.size)
    {board : Board} (hbanks : board.banks = header.prgBanks)
    (hsize : bank.size = header.prgSize) (hcode : 0 < startup.size) {offset : Nat}
    (hfirst : Bank.IsFirst bank.toList (routineSize startup) offset) {next : UInt16}
    (hnext : bank.vector? Vectors.resetFromEnd = some next) :
    ∃ prg, ofBank header bank startup = .ok (blank header prg) ∧
      ∀ i, prg[i]? =
        placedByte bank startup offset (board.base + UInt16.ofNat offset) next i := by
  have hboard := ofBanks_of_banks hbanks
  have hboardSize : bank.size = board.size := hsize.trans (prgSize_of_banks hbanks).symm
  have hmove : ∀ origin, ∃ routine, startup.moveTo origin = .ok routine := by
    intro origin
    exact ⟨_, Segment.moveTo_eq_codeAt hmoves origin⟩
  obtain ⟨rom, hrom⟩ := exists_ofBank board hboard hboardSize hmove hfirst.1
  have hparts : rom = blank header rom.prg :=
    eq_blank_of_inject ((ofBank_eq_inject hsize hcode).symm.trans hrom)
  obtain ⟨board', offset', routine, next', hboard', -, hinjected⟩ :=
    injected_of_ofBank (Segment.isEmpty_of_size_pos hcode) hrom
  obtain rfl : board = board' := Except.ok.inj (hboard.symm.trans hboard')
  obtain rfl : offset = offset' := hfirst.unique hinjected.window
  obtain rfl : next = next' := Option.some.inj (hnext.symm.trans hinjected.returns)
  have hfour : 4 ≤ bank.size := by
    rw [hboardSize]
    cases board <;> decide
  refine ⟨rom.prg, ?_, hinjected.getElem?_eq hmoves hfour⟩
  rw [hrom, ← hparts]

/-! ## The table -/

/-- A window lies in the bank, and the bank ends with the address space. -/
theorem address_lt_of_window {board : Board} (hbanks : board.banks = header.prgBanks)
    (hsize : bank.size = header.prgSize) {offset : Nat}
    (h : Bank.IsWindow bank.toList (routineSize startup) offset) :
    board.base.toNat + offset < 65536 := by
  have hend := h.le_length (routineSize_pos startup)
  have htop := board.base_add_size
  rw [Array.length_toList, hsize, ← prgSize_of_banks hbanks, routineSize] at hend
  omega

/-- What is built is in the table. -/
theorem builds_ofBank (hmoves : ∀ o ∈ startup.relocations, o + 1 < startup.size) :
    Builds header bank startup (ofBank header bank startup) := by
  by_cases hsize : bank.size = header.prgSize
  · rcases Nat.eq_zero_or_pos startup.size with hempty | hcode
    · rw [ofBank_of_empty hsize hempty]
      exact .plain hsize hempty
    · cases hboard : Board.ofBanks header.prgBanks with
      | error e =>
          obtain ⟨rfl, hone, htwo⟩ := Board.ofBanks_eq_error hboard
          rw [ofBank_of_unsupported hsize hcode hboard]
          exact .unsupportedBanks hsize hcode hone htwo
      | ok board =>
          have hbanks := Board.banks_of_ofBanks hboard
          cases hwindow : Bank.zeroWindow bank (routineSize startup) with
          | none =>
              have hfull : ∀ i, ¬ Bank.IsWindow bank.toList (routineSize startup) i := by
                intro i hi
                obtain ⟨i', hi'⟩ := Bank.zeroWindow_of_isWindow (routineSize_pos startup) hi
                cases hwindow.symm.trans hi'
              rw [ofBank_of_full hbanks hsize hcode hfull]
              exact .noSpace hsize hcode hbanks hfull
          | some offset =>
              have hfirst := (Bank.isFirst_of_zeroWindow hwindow).2
              obtain ⟨next, hnext⟩ := exists_reset hbanks hsize
              obtain ⟨prg, hprg, hbytes⟩ := ofBank_of_first hmoves hbanks hsize hcode hfirst hnext
              rw [hprg]
              exact .placed hsize hcode hbanks hfirst
                (toNat_add_ofNat (address_lt_of_window hbanks hsize hfirst.1)) hnext hbytes
  · rw [ofBank, ofPrg, if_neg hsize]
    exact .sizeMismatch hsize

/-- What is in the table is built. -/
theorem Builds.ofBank_eq (hmoves : ∀ o ∈ startup.relocations, o + 1 < startup.size)
    {r : Except (Stop ImageError) Rom} (h : Builds header bank startup r) :
    ofBank header bank startup = r := by
  cases h with
  | sizeMismatch hsize => rw [ofBank, ofPrg, if_neg hsize]
  | plain hsize hempty => exact ofBank_of_empty hsize hempty
  | unsupportedBanks hsize hcode hone htwo =>
      refine ofBank_of_unsupported hsize hcode ?_
      rw [Board.ofBanks, if_neg hone, if_neg htwo]
  | noSpace hsize hcode hbanks hfull => exact ofBank_of_full hbanks hsize hcode hfull
  | @placed board offset origin next prg hsize hcode hbanks hfirst horigin hnext hbytes =>
      obtain ⟨prg', hprg, hbytes'⟩ := ofBank_of_first hmoves hbanks hsize hcode hfirst hnext
      have haddress : board.base + UInt16.ofNat offset = origin := by
        apply UInt16.toNat_inj.1
        rw [horigin, toNat_add_ofNat (address_lt_of_window hbanks hsize hfirst.1)]
      rw [haddress] at hbytes'
      -- all bytes are given, so there is one such bank
      obtain rfl : prg' = prg := by
        apply Array.ext_getElem?
        intro i
        rw [hbytes, hbytes']
      exact hprg

/-- Building an image does what the table says, and nothing else; no routine is
placed past the end of the address space. -/
theorem builds_exactly (header : Header) (bank : Bytes) (startup : Segment)
    (hmoves : ∀ o ∈ startup.relocations, o + 1 < startup.size) :
    (∀ r, ofBank header bank startup = r ↔ Builds header bank startup r) ∧
      ∀ (board : Board) (offset : Nat), board.banks = header.prgBanks →
        bank.size = header.prgSize → Bank.IsFirst bank.toList (startup.size + 3) offset →
          board.base.toNat + offset ≤ 65535 := by
  constructor
  · intro r
    constructor
    · rintro rfl
      exact builds_ofBank hmoves
    · intro h
      exact h.ofBank_eq hmoves
  · intro board offset hbanks hsize hfirst
    exact Nat.le_of_lt_succ (address_lt_of_window hbanks hsize hfirst.1)

/-- A routine that jumps to itself, so that it has an address in it. -/
def selfJump : Segment := { bytes := #[0x4C, 0x00, 0x00], relocations := [1] }

/-- A gap of six bytes takes the routine: its own address is that of the gap, and
the end of the bank is as before but for the reset vector. -/
theorem builds_gapBank_six :
    (∀ o ∈ selfJump.relocations, o + 1 < selfJump.size) ∧
      ∃ prg, ofBank { prgBanks := 1 } (gapBank 6) selfJump = .ok (blank { prgBanks := 1 } prg) ∧
        (∀ j < 6, prg[16372 + j]? = [0x4C, 0xF4, 0xFF, 0x4C, 0x00, 0xC0][j]?) ∧
        ∀ j < 6, prg[16378 + j]? = [0x00, 0xC1, 0xF4, 0xFF, 0x03, 0xC0][j]? := by
  have hmoves : ∀ o ∈ selfJump.relocations, o + 1 < selfJump.size := by decide
  have hle : 6 ≤ 16378 := by decide
  have hsize := size_gapBank hle
  have hwindow : Bank.IsWindow (gapBank 6).toList (selfJump.size + 3) 16372 :=
    isWindow_gapBank hle (by decide)
  obtain ⟨hexact, -⟩ := builds_exactly { prgBanks := 1 } (gapBank 6) selfJump hmoves
  refine ⟨hmoves, ?_⟩
  generalize hr : ofBank { prgBanks := 1 } (gapBank 6) selfJump = r
  have hbuilds := (hexact r).1 hr
  cases hbuilds with
  | sizeMismatch hne => exact absurd hsize hne
  | plain _ hempty => cases hempty
  | unsupportedBanks _ _ hone _ => exact absurd rfl hone
  | noSpace _ _ _ hfull => exact absurd hwindow (hfull 16372)
  | @placed board offset origin next prg _ _ hbanks hfirst horigin hnext hbytes =>
      obtain rfl : board = .nrom128 := Board.banks_injective hbanks
      have hge := le_of_isWindow_gapBank (by decide) hfirst.1
      obtain rfl : offset = 16372 :=
        Nat.le_antisymm (Nat.le_of_not_lt fun hlt => hfirst.2 16372 hlt hwindow) hge
      obtain rfl : origin = 0xFFF4 := UInt16.toNat_inj.1 horigin
      have hreset : (gapBank 6).vector? Vectors.resetFromEnd = some 0xC000 := by
        rw [Bytes.vector?, hsize, if_pos (by decide)]
        exact Bytes.word?_eq_some (getElem?_gapBank hle 2) (getElem?_gapBank hle 3)
      obtain rfl : next = 0xC000 := Option.some.inj (hnext.symm.trans hreset)
      have hcode : selfJump.codeAt 0xFFF4 ++ 0x4C :: wordBytes 0xC000 =
          [0x4C, 0xF4, 0xFF, 0x4C, 0x00, 0xC0] := by decide +kernel
      refine ⟨prg, rfl, ?_, ?_⟩
      · intro j hj
        have hin : 16372 ≤ 16372 + j ∧ 16372 + j < 16372 + (selfJump.size + 3) := by
          rw [show selfJump.size + 3 = 6 from rfl]
          omega
        rw [hbytes, placedByte, hsize, if_neg (by omega), if_neg (by omega), if_pos hin, hcode,
          Nat.add_sub_cancel_left]
      · intro j hj
        rw [hbytes, placedByte, hsize, getElem?_gapBank hle]
        obtain rfl | rfl | rfl | rfl | rfl | rfl :
          j = 0 ∨ j = 1 ∨ j = 2 ∨ j = 3 ∨ j = 4 ∨ j = 5 := by omega
        all_goals rfl

end Rom

end Cartridge
