/-
# `Cartridge.Proofs.Image.Injection` — what injecting a startup routine does to a bank

The routine is the moved startup code with a jump to the old reset target
behind it.  After an injection every byte of the bank is one of three things:

    a byte of the reset vector     the address of the routine
    a byte of the window           the routine
    any other byte                 what stood there before

The reset vector is written last, so it wins where the window reaches it.

Whether the window reaches the vectors is decided by the bank alone: the search
runs over the whole bank and takes the first row of zeros, whose end may be a
zero byte of the vectors.  Proved here: the routine and all vectors come out as
they should if and only if there is room in front of the vectors
(`intact_iff_room`).
-/
import Cartridge.Image.Injection
import Cartridge.Proofs.Bytes
import Cartridge.Proofs.Cpu.Memory
import Cartridge.Proofs.Image.Window
import Cartridge.Proofs.Success

namespace Cartridge

theorem Board.banks_of_ofBanks {n : UInt8} {board : Board} (h : Board.ofBanks n = .ok board) :
    board.banks = n := by
  unfold ofBanks at h
  split at h
  · next hn => cases h; exact hn.symm
  · split at h
    · next hn => cases h; exact hn.symm
    · cases h

theorem Board.size_le (board : Board) : board.size ≤ 0x8000 := by
  cases board <;> decide

/-- The bank ends where the address space does. -/
theorem Board.base_add_size (board : Board) : board.base.toNat + board.size = 0x10000 := by
  cases board <;> decide

/-- A segment moves anywhere if the addresses in it lie inside. -/
theorem Segment.exists_moveTo {segment : Segment}
    (h : ∀ offset ∈ segment.relocations, offset + 2 ≤ segment.size) (origin : UInt16) :
    ∃ routine, segment.moveTo origin = .ok routine := by
  suffices hrelocate : ∀ (offsets : List Nat) (bytes : Bytes),
      (∀ offset ∈ offsets, offset + 2 ≤ bytes.size) →
        ∃ out, relocate (origin - segment.origin) offsets bytes = .ok out by
    obtain ⟨out, hout⟩ := hrelocate _ _ h
    exact ⟨_, by rw [moveTo, hout]⟩
  intro offsets
  induction offsets with
  | nil => exact fun bytes _ => ⟨bytes, rfl⟩
  | cons offset offsets ih =>
      intro bytes hoffsets
      have hin := hoffsets offset (by simp)
      obtain ⟨w, hw⟩ : ∃ w, bytes.word? offset = some w := by
        rw [Bytes.word?, Array.getElem?_eq_getElem (by omega), Array.getElem?_eq_getElem (by omega)]
        exact ⟨_, rfl⟩
      have hfit : offset + (wordBytes (w + (origin - segment.origin))).length ≤ bytes.size := hin
      obtain ⟨bytes', hbytes'⟩ := Bytes.putAll?_eq_some hfit
      obtain ⟨out, hout⟩ := ih bytes' fun o ho => by
        rw [Bytes.size_of_putAll? hbytes']
        exact hoffsets o (by simp [ho])
      exact ⟨out, by rw [relocate, hw, Option.bind_some, Bytes.putWord?, hbytes']; exact hout⟩

theorem Segment.size_pos {segment : Segment} (h : segment.isEmpty = false) : 0 < segment.size := by
  refine Nat.pos_of_ne_zero fun hzero => ?_
  rw [isEmpty, Array.isEmpty_iff_size_eq_zero.2 hzero] at h
  cases h

/-- A segment without addresses in it is moved as it is. -/
theorem Segment.moveTo_of_plain {segment : Segment} (h : segment.relocations = [])
    (origin : UInt16) : segment.moveTo origin = .ok { segment with origin := origin } := by
  rw [moveTo, h, relocate]

namespace Rom

/-- The routine in the window: the moved startup code and the jump behind it. -/
def routineCode (routine : Segment) (next : UInt16) : List UInt8 :=
  routine.bytes.toList ++ jumpOpcode :: wordBytes next

theorem routineSize_pos (startup : Segment) : 0 < routineSize startup := Nat.succ_pos _

theorem four_le_routineSize {startup : Segment} (h : startup.isEmpty = false) :
    4 ≤ routineSize startup := by
  have hpos := Segment.size_pos h
  rw [routineSize]
  omega

theorem length_routineCode {startup routine : Segment} {origin : UInt16} (next : UInt16)
    (h : startup.moveTo origin = .ok routine) :
    (routineCode routine next).length = routineSize startup := by
  rw [routineCode, List.length_append, List.length_cons, length_wordBytes, Array.length_toList,
    routineSize, ← Segment.size_of_moveTo h]
  rfl

/-- What stands in a bank after an injection. -/
structure Injected (bank : Bytes) (startup : Segment) (origin : UInt16) (offset : Nat)
    (routine : Segment) (next : UInt16) (prg : Bytes) : Prop where
  window : Bank.IsFirst bank.toList (routineSize startup) offset
  returns : bank.vector? Vectors.resetFromEnd = some next
  moved : startup.moveTo origin = .ok routine
  size : prg.size = bank.size
  reset : prg.vector? Vectors.resetFromEnd = some origin
  code : ∀ j < routineSize startup, offset + j + 4 < bank.size ∨ bank.size ≤ offset + j + 2 →
    prg[offset + j]? = (routineCode routine next)[j]?
  rest : ∀ i, i < offset ∨ offset + routineSize startup ≤ i →
    i + 4 < bank.size ∨ bank.size ≤ i + 2 → prg[i]? = bank[i]?

/-- All steps of an injection. -/
theorem inject_eq_ok {startup : Segment} {rom rom' : Rom} (h : inject startup rom = .ok rom') :
    ∃ board offset routine next written,
      Board.ofBanks rom.header.prgBanks = .ok board ∧
      rom.prg.vector? Vectors.resetFromEnd = some next ∧
      Bank.zeroWindow rom.prg (routineSize startup) = some offset ∧
      startup.moveTo (board.base + UInt16.ofNat offset) = .ok routine ∧
      rom.prg.putAll? offset (routineCode routine next) = some written ∧
      written.putVector? Vectors.resetFromEnd (board.base + UInt16.ofNat offset) =
        some rom'.prg ∧
      rom'.header = rom.header ∧ rom'.chr = rom.chr := by
  unfold inject at h
  split at h
  · cases h
  · next board hboard =>
      obtain ⟨next, hnext, h⟩ := except_bind_eq_ok_iff.1 h
      split at h
      · cases h
      · next offset hwindow =>
          dsimp only at h
          split at h
          · cases h
          · next routine hmove =>
              obtain ⟨written, hwritten, h⟩ := except_bind_eq_ok_iff.1 h
              obtain ⟨prg, hprg, h⟩ := except_bind_eq_ok_iff.1 h
              cases h
              exact ⟨board, offset, routine, next, written, hboard, orFault_eq_ok_iff.1 hnext,
                hwindow, hmove, orFault_eq_ok_iff.1 hwritten, orFault_eq_ok_iff.1 hprg, rfl,
                rfl⟩

theorem ofBank_eq_ok {header : Header} {bank : Bytes} {startup : Segment} {rom : Rom}
    (h : ofBank header bank startup = .ok rom) :
    bank.size = header.prgSize ∧
      ∃ plain : Rom, plain.header = header ∧ plain.prg = bank ∧
        if startup.isEmpty then rom = plain else plain.inject startup = .ok rom := by
  unfold ofBank ofPrg at h
  split at h
  · cases h
  · next plain hplain =>
      split at hplain
      · next hsize =>
          cases hplain
          refine ⟨hsize, ⟨header, bank, Array.replicate header.chrSize 0⟩, rfl, rfl, ?_⟩
          split at h
          · next hempty =>
              rw [if_pos hempty]
              cases h
              rfl
          · next hempty =>
              rw [if_neg hempty]
              exact h
      · cases hplain

/-- Without startup code the bank is left alone. -/
theorem prg_of_ofBank {header : Header} {bank : Bytes} {startup : Segment} {rom : Rom}
    (hempty : startup.isEmpty = true) (h : ofBank header bank startup = .ok rom) :
    rom.prg = bank := by
  obtain ⟨-, plain, -, rfl, hrom⟩ := ofBank_eq_ok h
  rw [if_pos hempty] at hrom
  rw [hrom]

/-- With startup code the bank is injected. -/
theorem injected_of_ofBank {header : Header} {bank : Bytes} {startup : Segment} {rom : Rom}
    (hne : startup.isEmpty = false) (h : ofBank header bank startup = .ok rom) :
    ∃ board offset routine next, Board.ofBanks header.prgBanks = .ok board ∧
      bank.size = board.size ∧
      Injected bank startup (board.base + UInt16.ofNat offset) offset routine next rom.prg := by
  obtain ⟨hsize, plain, rfl, rfl, hrom⟩ := ofBank_eq_ok h
  rw [if_neg (by simp [hne])] at hrom
  obtain ⟨board, offset, routine, next, written, hboard, hnext, hwindow, hmove, hwritten, hprg,
    -⟩ := inject_eq_ok hrom
  have hlength := length_routineCode next hmove
  obtain ⟨hfour, hput⟩ := Bytes.putAll?_of_putVector? hprg
  have hsize₁ := Bytes.size_of_putAll? hwritten
  have hsize₂ := Bytes.size_of_putAll? hput
  have hfour : 4 ≤ plain.prg.size := hsize₁ ▸ hfour
  rw [hsize₁] at hput
  -- the vector is written last, so a byte outside of it is what the window left
  have houter : ∀ i, i + 4 < plain.prg.size ∨ plain.prg.size ≤ i + 2 →
      rom.prg[i]? = written[i]? := by
    intro i hi
    refine Bytes.getElem?_of_putAll?_other hput ?_
    rw [length_wordBytes]
    simp only [Vectors.resetFromEnd]
    omega
  refine ⟨board, offset, routine, next, hboard, ?_, (Bank.isFirst_of_zeroWindow hwindow).2, hnext,
    hmove, hsize₂.trans hsize₁, Bytes.vector?_of_putVector? hprg, fun j hj hout => ?_,
    fun i hi hout => ?_⟩
  · rw [hsize, Board.size, Board.banks_of_ofBanks hboard, Header.prgSize]
  · rw [houter _ hout]
    exact Bytes.getElem?_of_putAll? hwritten (by rw [hlength]; exact hj)
  · rw [houter _ hout]
    exact Bytes.getElem?_of_putAll?_other hwritten (by rw [hlength]; exact hi)

/-! ## The vectors after an injection -/

/-- The routine lies in front of the vectors, it is complete, the reset vector
leads to it and the other vectors are those of the bank. -/
def Intact (header : Header) (bank : Bytes) (startup : Segment) (rom : Rom) : Prop :=
  ∃ board offset routine nmi next irq,
    Board.ofBanks header.prgBanks = .ok board ∧
    offset + routineSize startup + 6 ≤ bank.size ∧
    bank.vector? Vectors.nmiFromEnd = some nmi ∧
    bank.vector? Vectors.resetFromEnd = some next ∧
    bank.vector? Vectors.irqFromEnd = some irq ∧
    rom.vectors = .ok { nmi := nmi, reset := board.base + UInt16.ofNat offset, irq := irq } ∧
    startup.moveTo (board.base + UInt16.ofNat offset) = .ok routine ∧
    ∀ j < routineSize startup, rom.prg[offset + j]? = (routineCode routine next)[j]?

/-- There is room for the routine in front of the vectors. -/
def HasRoom (bank : Bytes) (startup : Segment) : Prop :=
  ∃ i, i + routineSize startup + 6 ≤ bank.size ∧
    Bank.IsWindow bank.toList (routineSize startup) i

theorem vectors_eq_ok {rom : Rom} {nmi reset irq : UInt16}
    (hnmi : rom.prg.vector? Vectors.nmiFromEnd = some nmi)
    (hreset : rom.prg.vector? Vectors.resetFromEnd = some reset)
    (hirq : rom.prg.vector? Vectors.irqFromEnd = some irq) :
    rom.vectors = .ok { nmi := nmi, reset := reset, irq := irq } := by
  rw [vectors, hnmi, hreset, hirq]

theorem vector?_of_vectors {rom : Rom} {v : Vectors} (h : rom.vectors = .ok v) :
    rom.prg.vector? Vectors.resetFromEnd = some v.reset := by
  unfold vectors at h
  split at h
  · next hreset _ => cases h; exact hreset
  · cases h

/-- Program memory with room for the vectors has them. -/
theorem exists_vectors_of_size {rom : Rom} (h : 6 ≤ rom.prg.size) :
    ∃ vectors, rom.vectors = .ok vectors := by
  obtain ⟨nmi, hnmi⟩ := Bytes.exists_vector? (show 2 ≤ Vectors.nmiFromEnd by decide) h
  obtain ⟨reset, hreset⟩ := Bytes.exists_vector? (show 2 ≤ Vectors.resetFromEnd by decide)
    (show 4 ≤ rom.prg.size by omega)
  obtain ⟨irq, hirq⟩ := Bytes.exists_vector? (show 2 ≤ Vectors.irqFromEnd by decide)
    (show 2 ≤ rom.prg.size by omega)
  exact ⟨_, vectors_eq_ok hnmi hreset hirq⟩

/-- The routine lies inside the bank. -/
theorem Injected.end_le {bank : Bytes} {startup routine : Segment} {origin next : UInt16}
    {offset : Nat} {prg : Bytes} (h : Injected bank startup origin offset routine next prg) :
    offset + routineSize startup ≤ bank.size := by
  have hle := h.window.1.le_length (routineSize_pos startup)
  rwa [Array.length_toList] at hle

/-- If the vectors are intact, the window lies in front of them. -/
theorem room_of_intact {header : Header} {bank : Bytes} {startup : Segment} {rom : Rom}
    (hne : startup.isEmpty = false) (h : ofBank header bank startup = .ok rom)
    (hintact : Intact header bank startup rom) : HasRoom bank startup := by
  obtain ⟨board, offset, routine, next, hboard, hsize, hinjected⟩ := injected_of_ofBank hne h
  obtain ⟨board', offset', _, _, _, _, hboard', hroom, _, _, _, hvectors, _, _⟩ := hintact
  have hsmall := board.size_le
  have hfit := hinjected.end_le
  -- the reset vector tells where the window is
  obtain rfl : board = board' := Except.ok.inj (hboard.symm.trans hboard')
  have hreset : board.base + UInt16.ofNat offset = board.base + UInt16.ofNat offset' :=
    Option.some.inj (hinjected.reset.symm.trans (vector?_of_vectors hvectors))
  have hoffset : offset = offset' := by
    simp only [routineSize] at hfit hroom
    exact eq_of_add_ofNat_eq (by omega) (by omega) hreset
  exact ⟨offset, by omega, hinjected.window.1⟩

/-- If there is room in front of the vectors, the first window lies there, too. -/
theorem intact_of_room {header : Header} {bank : Bytes} {startup : Segment} {rom : Rom}
    (hne : startup.isEmpty = false) (h : ofBank header bank startup = .ok rom)
    (hroom : HasRoom bank startup) : Intact header bank startup rom := by
  obtain ⟨board, offset, routine, next, hboard, -, hinjected⟩ := injected_of_ofBank hne h
  obtain ⟨i, hi, hwindow⟩ := hroom
  have hle : offset ≤ i := Nat.le_of_not_lt fun hlt => hinjected.window.2 i hlt hwindow
  obtain ⟨nmi, hnmi⟩ : ∃ w, bank.vector? Vectors.nmiFromEnd = some w :=
    Bytes.exists_vector? (by decide) (show 6 ≤ bank.size by omega)
  obtain ⟨irq, hirq⟩ : ∃ w, bank.vector? Vectors.irqFromEnd = some w :=
    Bytes.exists_vector? (by decide) (show 2 ≤ bank.size by omega)
  -- the two other vectors lie behind the window and beside the reset vector
  have hnmi' : rom.prg.vector? Vectors.nmiFromEnd = some nmi := by
    rw [← hnmi]
    refine Bytes.vector?_congr hinjected.size ?_ ?_ <;>
      refine hinjected.rest _ (.inr ?_) (.inl ?_) <;>
      simp only [hinjected.size, Vectors.nmiFromEnd] <;> omega
  have hirq' : rom.prg.vector? Vectors.irqFromEnd = some irq := by
    rw [← hirq]
    refine Bytes.vector?_congr hinjected.size ?_ ?_ <;>
      refine hinjected.rest _ (.inr ?_) (.inr ?_) <;>
      simp only [hinjected.size, Vectors.irqFromEnd] <;> omega
  refine ⟨board, offset, routine, nmi, next, irq, hboard, by omega, hnmi, hinjected.returns, hirq,
    vectors_eq_ok hnmi' hinjected.reset hirq', hinjected.moved, fun j hj => ?_⟩
  exact hinjected.code j hj (.inl (by omega))

/-- With a window, wherever it lies, there is an image. -/
theorem exists_ofBank {header : Header} {bank : Bytes} {startup : Segment} (board : Board) {i : Nat}
    (hboard : Board.ofBanks header.prgBanks = .ok board) (hsize : bank.size = board.size)
    (hmove : ∀ origin, ∃ routine, startup.moveTo origin = .ok routine)
    (hwindow : Bank.IsWindow bank.toList (routineSize startup) i) :
    ∃ rom, ofBank header bank startup = .ok rom := by
  have hfour : Vectors.resetFromEnd ≤ bank.size := by
    rw [hsize]
    cases board <;> decide
  obtain ⟨offset, hoffset⟩ := Bank.zeroWindow_of_isWindow (routineSize_pos startup) hwindow
  obtain ⟨next, hnext⟩ := Bytes.exists_vector? (by decide) hfour
  obtain ⟨routine, hroutine⟩ := hmove (board.base + UInt16.ofNat offset)
  have hfit : offset + (routineCode routine next).length ≤ bank.size := by
    have hle := (Bank.isFirst_of_zeroWindow hoffset).2.1.le_length (routineSize_pos startup)
    rwa [Array.length_toList, ← length_routineCode next hroutine] at hle
  obtain ⟨written, hwritten⟩ := Bytes.putAll?_eq_some hfit
  obtain ⟨prg, hprg⟩ := Bytes.exists_putVector? (board.base + UInt16.ofNat offset) (by decide)
    (show Vectors.resetFromEnd ≤ written.size by rw [Bytes.size_of_putAll? hwritten]; exact hfour)
  have hprgSize : bank.size = header.prgSize := by
    rw [hsize, Board.size, Board.banks_of_ofBanks hboard, Header.prgSize]
  unfold ofBank ofPrg
  rw [if_pos hprgSize]
  dsimp only
  split
  · exact ⟨_, rfl⟩
  · rw [routineCode] at hwritten
    simp only [inject, hboard, hnext, orFault, bind, Except.bind, hoffset, hroutine, hwritten, hprg]
    exact ⟨_, rfl⟩

/-- An injection leaves the vectors intact exactly if there is room in front of
them. -/
theorem intact_iff_room {header : Header} {bank : Bytes} {startup : Segment} {rom : Rom}
    (hne : startup.isEmpty = false) (h : ofBank header bank startup = .ok rom) :
    Intact header bank startup rom ↔ HasRoom bank startup :=
  ⟨room_of_intact hne h, intact_of_room hne h⟩

/-- The vectors of `gapBank`; the low byte of the first one is zero. -/
def gapVectors : List UInt8 := [0x00, 0xC1, 0x00, 0xC0, 0x03, 0xC0]

/-- One bank with a gap of zeros right in front of the vectors. -/
def gapBank (gap : Nat) : Bytes :=
  (List.replicate (16378 - gap) 0xEA ++ (List.replicate gap 0 ++ gapVectors)).toArray

theorem size_gapBank {gap : Nat} (h : gap ≤ 16378) : (gapBank gap).size = 16384 := by
  rw [gapBank, List.size_toArray, List.length_append, List.length_append, List.length_replicate,
    List.length_replicate, show gapVectors.length = 6 from rfl]
  omega

theorem getElem?_gapBank {gap : Nat} (h : gap ≤ 16378) (j : Nat) :
    (gapBank gap)[16378 + j]? = gapVectors[j]? := by
  have hfront : (List.replicate (16378 - gap) (0xEA : UInt8) ++ List.replicate gap 0).length =
      16378 := by
    rw [List.length_append, List.length_replicate, List.length_replicate]
    omega
  rw [gapBank, List.getElem?_toArray, ← List.append_assoc, List.getElem?_append_right (by omega),
    hfront, Nat.add_sub_cancel_left]

/-- A window that begins before the gap would hold code. -/
theorem le_of_isWindow_gapBank {gap len i : Nat} (hlen : 0 < len)
    (h : Bank.IsWindow (gapBank gap).toList len i) : 16378 - gap ≤ i := by
  refine Nat.le_of_not_lt fun hlt => ?_
  have hbyte := h 0 hlen
  rw [gapBank, List.getElem?_append_left (by simpa using hlt),
    List.getElem?_replicate, if_pos (by simpa using hlt)] at hbyte
  cases hbyte

/-- Zeros in the gap and one byte behind it. -/
theorem isWindow_gapBank {gap len : Nat} (h : gap ≤ 16378) (hlen : len ≤ gap + 1) :
    Bank.IsWindow (gapBank gap).toList len (16378 - gap) := by
  intro j hj
  rcases Nat.lt_or_ge j gap with hlt | hge
  · rw [gapBank, List.getElem?_append_right (by simp), List.length_replicate,
      Nat.add_sub_cancel_left, List.getElem?_append_left (by simpa using hlt),
      List.getElem?_replicate, if_pos hlt]
  · rw [show 16378 - gap + j = 16378 + 0 by omega, Array.getElem?_toList, getElem?_gapBank h]
    rfl

/-- One instruction of startup code. -/
def tinyStartup : Segment := { bytes := #[0xEA] }

theorem exists_ofBank_gapBank {gap : Nat} (hge : 3 ≤ gap) (hle : gap ≤ 16378) :
    ∃ rom, ofBank { prgBanks := 1 } (gapBank gap) tinyStartup = .ok rom :=
  exists_ofBank .nrom128 rfl (size_gapBank hle)
    (fun origin => ⟨_, Segment.moveTo_of_plain rfl origin⟩)
    (isWindow_gapBank hle (Nat.succ_le_succ hge))

/-- A gap of four bytes is enough for a routine of four bytes. -/
theorem intact_gapBank_four :
    ∃ rom, ofBank { prgBanks := 1 } (gapBank 4) tinyStartup = .ok rom ∧
      Intact { prgBanks := 1 } (gapBank 4) tinyStartup rom := by
  have hle : 4 ≤ 16378 := by decide
  obtain ⟨rom, hrom⟩ := exists_ofBank_gapBank (by decide) hle
  refine ⟨rom, hrom, (intact_iff_room rfl hrom).2 ⟨16374, ?_, isWindow_gapBank hle (by decide)⟩⟩
  rw [size_gapBank hle]
  decide

/-- With a gap of three bytes the routine takes the first byte of the vectors:
the image is built and its first vector is no longer that of the bank. -/
theorem damaged_gapBank_three :
    ∃ rom, ofBank { prgBanks := 1 } (gapBank 3) tinyStartup = .ok rom ∧
      ¬ Intact { prgBanks := 1 } (gapBank 3) tinyStartup rom ∧
      (gapBank 3).vector? Vectors.nmiFromEnd = some 0xC100 ∧
      rom.prg.vector? Vectors.nmiFromEnd = some 0xC1C0 := by
  have hle : 3 ≤ 16378 := by decide
  have hsize := size_gapBank hle
  obtain ⟨rom, hrom⟩ := exists_ofBank_gapBank (by decide) hle
  refine ⟨rom, hrom, fun hintact => ?_, ?_, ?_⟩
  · obtain ⟨i, hi, hwindow⟩ := room_of_intact rfl hrom hintact
    have hge := le_of_isWindow_gapBank (by decide) hwindow
    rw [hsize, show routineSize tinyStartup = 4 from rfl] at hi
    omega
  · rw [Bytes.vector?, hsize, if_pos (by decide)]
    exact Bytes.word?_eq_some (getElem?_gapBank hle 0) (getElem?_gapBank hle 1)
  · obtain ⟨board, offset, routine, next, -, -, hinjected⟩ := injected_of_ofBank rfl hrom
    have hge := le_of_isWindow_gapBank (by decide) hinjected.window.1
    have hoffset : offset = 16375 := by
      refine Nat.le_antisymm (Nat.le_of_not_lt fun hlt => ?_) hge
      exact hinjected.window.2 16375 hlt (isWindow_gapBank hle (by decide))
    subst hoffset
    have hnext : next = 0xC000 := by
      have hreset : (gapBank 3).vector? Vectors.resetFromEnd = some 0xC000 := by
        rw [Bytes.vector?, hsize, if_pos (by decide)]
        exact Bytes.word?_eq_some (getElem?_gapBank hle 2) (getElem?_gapBank hle 3)
      exact Option.some.inj (hinjected.returns.symm.trans hreset)
    subst hnext
    rw [Bytes.vector?, hinjected.size, hsize, if_pos (by decide)]
    refine Bytes.word?_eq_some ?_ ?_
    · refine (hinjected.code 3 (by decide) (.inl (by rw [hsize]; decide))).trans ?_
      rw [← Except.ok.inj ((Segment.moveTo_of_plain rfl _).symm.trans hinjected.moved)]
      rfl
    · refine (hinjected.rest 16379 (.inr (by decide)) (.inl (by rw [hsize]; decide))).trans ?_
      exact getElem?_gapBank hle 1

end Rom

end Cartridge
