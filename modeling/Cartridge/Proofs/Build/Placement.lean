/-
# `Cartridge.Proofs.Build.Placement` — where the two segments lie in an image

A bank is laid out as

    the main segment        from the base on; its last byte is the handler's opcode
    zeros
    NMI  RESET  IRQ         handler, base, handler

and the startup routine goes into the first row of zeros that holds it.  The
main segment has no three zeros in a row (`Density`), the handler and the base
lie at or above $8000, so the high bytes of the vectors are not zero either, and
a routine has at least four bytes.  Hence the window begins behind the main
segment and ends before the high byte of the NMI vector: the reset vector is
written beside the routine.
-/
import Cartridge.Build.Basic
import Cartridge.Proofs.Image.Injection
import Cartridge.Proofs.ObjectCode.Density

namespace Cartridge

/-! ## Steps of a build -/

namespace Build

theorem lift_eq_ok {ε α : Type} {f : ε → Stop BuildError} {x : Traced ε α} {a : α}
    {j j' : Journal} (h : lift f x j = .ok a j') : x j = .ok a j' := by
  unfold lift at h
  split at h
  · next hx =>
      cases h
      exact hx
  · cases h

theorem ofExcept_eq_ok {ε α : Type} {event : α → Event} {x : Except ε α} {a : α} {j j' : Journal}
    (h : Traced.ofExcept event x j = .ok a j') : x = .ok a := by
  cases x with
  | ok b => cases h; rfl
  | error e => cases h

theorem exists_lift {ε α : Type} (f : ε → Stop BuildError) {x : Except ε α} (event : α → Event)
    {a : α} (h : x = .ok a) (j : Journal) :
    ∃ j', lift f (Traced.ofExcept event x) j = .ok a j' := by
  subst h
  exact ⟨_, rfl⟩

/-- The object code of a build is that of the generator with no storage handed
out, whatever was noted before. -/
theorem objectCode_eq_ok {tree : BlockTree} {target : Target} {object : ObjectCode}
    {j j' : Journal} (h : objectCode tree target j = .ok object j') :
    ∃ g, Generator.objectCode tree target.board.base {} = .ok object g := by
  unfold objectCode at h
  split at h
  · next g hg =>
      cases h
      obtain ⟨g', hg', -⟩ := Generator.blind_objectCode tree target.board.base
        { journal := j } {} _ _ rfl hg
      exact ⟨g', hg'⟩
  · cases h

theorem exists_objectCode {tree : BlockTree} {target : Target} {object : ObjectCode}
    {g : Generator} (h : Generator.objectCode tree target.board.base {} = .ok object g)
    (j : Journal) : ∃ j', objectCode tree target j = .ok object j' := by
  obtain ⟨g', hg', -⟩ := Generator.blind_objectCode tree target.board.base {}
    { journal := j } _ _ rfl h
  exact ⟨g'.journal, by rw [objectCode, hg']⟩

/-- The steps of an image. -/
theorem image_eq_ok {tree : BlockTree} {target : Target} {rom : Rom} {j j' : Journal}
    (h : image tree target j = .ok rom j') :
    ∃ object g bank, Generator.objectCode tree target.board.base {} = .ok object g ∧
      Bank.layout object.main object.vectors target.board = .ok bank ∧
      Rom.ofBank target.header bank object.startup = .ok rom := by
  obtain ⟨object, j₁, hobject, h₁⟩ := bind_eq_ok_iff.1 h
  obtain ⟨bank, j₂, hbank, h₂⟩ := bind_eq_ok_iff.1 h₁
  obtain ⟨rom', j₃, hrom, h₃⟩ := bind_eq_ok_iff.1 h₂
  obtain ⟨_, j₄, -, h₄⟩ := bind_eq_ok_iff.1 h₃
  obtain ⟨rfl, -⟩ := pure_eq_ok_iff.1 h₄
  obtain ⟨g, hg⟩ := objectCode_eq_ok hobject
  exact ⟨object, g, bank, hg, ofExcept_eq_ok (lift_eq_ok hbank), ofExcept_eq_ok (lift_eq_ok hrom)⟩

end Build

/-! ## The bank -/

/-- The main segment, zeros and the vectors. -/
theorem Bank.toList_of_layout {main : Segment} {vectors : Vectors} {board : Board} {bank : Bytes}
    (horigin : main.origin = board.base) (h : layout main vectors board = .ok bank) :
    main.size ≤ board.capacity ∧
      bank.toList = main.bytes.toList ++
        (List.replicate (board.capacity - main.size) 0 ++ vectors.toList) := by
  have hused : used main board = main.size := by
    rw [used, horigin, Nat.sub_self, Nat.zero_add]
  unfold layout at h
  split at h
  · cases h
  · split at h
    · cases h
    · next hfits =>
        cases h
        rw [hused] at hfits ⊢
        refine ⟨Nat.le_of_not_lt hfits, ?_⟩
        rw [horigin, Nat.sub_self]
        simp

theorem Board.capacity_eq (board : Board) : board.size = board.capacity + 6 := by
  cases board <;> rfl

/-- The high byte of an address in a bank is not zero. -/
theorem Board.highByte_ne_zero (board : Board) {i : Nat} (hi : i < board.size) :
    highByte (board.base + UInt16.ofNat i) ≠ 0 := by
  intro h
  have hhigh := congrArg UInt8.toNat h
  have hbase : board.base.toNat + i < 65536 ∧ 0x8000 ≤ board.base.toNat := by
    cases board <;> simp [base, size, banks, prgBankSize] at hi ⊢ <;> omega
  have haddress := toNat_add_ofNat hbase.1
  simp only [highByte, UInt16.toNat_toUInt8, UInt16.toNat_div, haddress, UInt16.reduceToNat,
    UInt8.reduceToNat] at hhigh
  omega

/-- What code generation hands over to the layout of a bank. -/
structure Fits (object : ObjectCode) (board : Board) (code : List UInt8) (bank : Bytes) : Prop where
  dense : Dense code
  main : object.main.bytes.toList = code ++ [0x40]
  fits : object.main.size ≤ board.capacity
  bytes : bank.toList = object.main.bytes.toList ++
    (List.replicate (board.capacity - object.main.size) 0 ++ object.vectors.toList)
  vectors : object.vectors = {
    nmi := board.base + UInt16.ofNat code.length
    reset := board.base
    irq := board.base + UInt16.ofNat code.length }

theorem fits_of_layout {tree : BlockTree} {board : Board} {g g' : Generator} {object : ObjectCode}
    {bank : Bytes} (hobject : Generator.objectCode tree board.base g = .ok object g')
    (hbank : Bank.layout object.main object.vectors board = .ok bank) :
    ∃ code, Fits object board code bank := by
  obtain ⟨handler, hmain, -, hvectors, -⟩ := Generator.objectCode_eq_ok hobject
  obtain ⟨code, hdense, hbytes, horigin, -, rfl⟩ := Generator.dense_mainSegment hmain
  obtain ⟨hfits, hlist⟩ := Bank.toList_of_layout horigin hbank
  exact ⟨code, hdense, hbytes, hfits, hlist, hvectors⟩

namespace Fits

variable {object : ObjectCode} {board : Board} {code : List UInt8} {bank : Bytes}

theorem size_main (h : Fits object board code bank) : object.main.size = code.length + 1 := by
  rw [← object.main.length_bytes, h.main, List.length_append, List.length_singleton]

theorem size_bank (h : Fits object board code bank) : bank.size = board.size := by
  have hlength := congrArg List.length h.bytes
  have hfits := h.fits
  rw [List.length_append, List.length_append, List.length_replicate, object.main.length_bytes,
    Array.length_toList, show object.vectors.toList.length = 6 from rfl] at hlength
  rw [hlength, board.capacity_eq]
  omega

/-- The bytes of the main segment. -/
theorem getElem?_main (h : Fits object board code bank) {i : Nat} (hi : i < object.main.size) :
    bank.toList[i]? = (code ++ [0x40])[i]? := by
  rw [h.bytes, List.getElem?_append_left (by rwa [object.main.length_bytes]), h.main]

/-- The bytes of the vectors. -/
theorem getElem?_vectors (h : Fits object board code bank) (j : Nat) :
    bank.toList[board.capacity + j]? = object.vectors.toList[j]? := by
  have hfits := h.fits
  have hfront : (object.main.bytes.toList ++
      List.replicate (board.capacity - object.main.size) 0).length = board.capacity := by
    rw [List.length_append, List.length_replicate, object.main.length_bytes]
    omega
  rw [h.bytes, ← List.append_assoc, List.getElem?_append_right (by omega), hfront,
    Nat.add_sub_cancel_left]

/-- A window of four bytes lies behind the main segment and before the high byte
of the first vector. -/
theorem window (h : Fits object board code bank) {len i : Nat} (hlen : 4 ≤ len)
    (hw : Bank.IsWindow bank.toList len i) :
    object.main.size ≤ i ∧ i + len ≤ board.capacity + 1 := by
  have hcapacity := board.capacity_eq
  have hmain := h.size_main
  have hfits := h.fits
  have hin : ∀ {k b}, i ≤ k → k < i + len → bank.toList[k]? = some b → b = 0 := by
    intro k b hik hk hb
    have hzero := hw (k - i) (by omega)
    rw [show i + (k - i) = k by omega, hb] at hzero
    exact Option.some.inj hzero
  constructor
  · refine Nat.le_of_not_lt fun hlt => ?_
    obtain ⟨j, hj, b, hb, hne⟩ := h.dense.concat 0x40 (by decide)
      (by simpa [hmain] using hlt)
    obtain ⟨hij, -⟩ := List.getElem?_eq_some_iff.1 hb
    simp only [List.length_append, List.length_singleton] at hij
    rw [← h.getElem?_main (by omega)] at hb
    exact hne (hin (by omega) (by omega) hb)
  · refine Nat.le_of_not_lt fun hlt => ?_
    have hend := hw.le_length (by omega)
    rw [Array.length_toList, h.size_bank] at hend
    -- four bytes past the low byte of the first vector hold a high byte
    rcases Nat.lt_or_ge (board.capacity + 1) i with hpast | hbefore
    · have hreset : bank.toList[board.capacity + 3]? =
          some (highByte (board.base + UInt16.ofNat 0)) := by
        rw [h.getElem?_vectors 3, h.vectors, add_ofNat_zero]
        rfl
      exact board.highByte_ne_zero (by omega) (hin (by omega) (by omega) hreset)
    · have hnmi : bank.toList[board.capacity + 1]? =
          some (highByte (board.base + UInt16.ofNat code.length)) := by
        rw [h.getElem?_vectors 1, h.vectors]
        rfl
      exact board.highByte_ne_zero (by omega) (hin hbefore hlt hnmi)

end Fits

/-! ## The image -/

/-- The main segment is in front, and the startup routine, if there is one, lies
behind it and is where the processor starts. -/
structure Placed (object : ObjectCode) (board : Board) (rom : Rom) : Prop where
  size : rom.prg.size = board.size
  main : rom.prg.toList.take object.main.size = object.main.bytes.toList
  plain : object.startup.isEmpty = true →
    ∃ vectors, rom.vectors = .ok vectors ∧ vectors.reset = board.base
  routine : object.startup.isEmpty = false →
    ∃ vectors offset routine, rom.vectors = .ok vectors ∧
      vectors.reset = board.base + UInt16.ofNat offset ∧
      object.main.size ≤ offset ∧ offset + Rom.routineSize object.startup ≤ board.size ∧
      object.startup.moveTo vectors.reset = .ok routine ∧
      (rom.prg.toList.drop offset).take (Rom.routineSize object.startup) =
        Rom.routineCode routine board.base

theorem take_eq_of_getElem? {l l' : List UInt8} {n : Nat} (hn : n = l'.length)
    (h : ∀ i < n, l[i]? = l'[i]?) : l.take n = l' := by
  refine List.ext_getElem? fun i => ?_
  rw [List.getElem?_take]
  split
  · next hi => exact h i hi
  · next hi => rw [List.getElem?_eq_none (by omega)]

/-- A bank of the right size has vectors. -/
theorem exists_vectors {rom : Rom} {reset : UInt16} (hsize : 6 ≤ rom.prg.size)
    (hreset : rom.prg.vector? Vectors.resetFromEnd = some reset) :
    ∃ vectors, rom.vectors = .ok vectors ∧ vectors.reset = reset := by
  obtain ⟨vectors, hvectors⟩ := Rom.exists_vectors_of_size hsize
  exact ⟨vectors, hvectors, Option.some.inj ((Rom.vector?_of_vectors hvectors).symm.trans hreset)⟩

namespace Fits

variable {object : ObjectCode} {board : Board} {code : List UInt8} {bank : Bytes}

theorem reset (h : Fits object board code bank) :
    bank.vector? Vectors.resetFromEnd = some board.base := by
  have hcapacity := board.capacity_eq
  have hat : bank.size - Vectors.resetFromEnd = board.capacity + 2 := by
    rw [h.size_bank, Vectors.resetFromEnd]
    omega
  rw [Bytes.vector?, if_pos (by rw [h.size_bank, Vectors.resetFromEnd]; omega), hat]
  refine Bytes.word?_eq_some ?_ ?_
  · rw [← Array.getElem?_toList, h.getElem?_vectors 2, h.vectors]
    rfl
  · rw [← Array.getElem?_toList, Nat.add_assoc, h.getElem?_vectors 3, h.vectors]
    rfl

/-- The image of a bank that is laid out. -/
theorem placed (h : Fits object board code bank) {header : Header} {rom : Rom}
    (hheader : header.prgBanks = board.banks)
    (hrom : Rom.ofBank header bank object.startup = .ok rom) : Placed object board rom := by
  have hcapacity := board.capacity_eq
  have hfits := h.fits
  have hsize := h.size_bank
  have hlength := object.main.length_bytes.symm
  have hmain : ∀ i < object.main.size, bank[i]? = object.main.bytes.toList[i]? := by
    intro i hi
    rw [← Array.getElem?_toList, h.getElem?_main hi, h.main]
  cases hempty : object.startup.isEmpty with
  | true =>
      obtain rfl := Rom.prg_of_ofBank hempty hrom
      refine ⟨hsize, take_eq_of_getElem? hlength fun i hi => ?_, fun _ => ?_, fun hne => ?_⟩
      · rw [Array.getElem?_toList, hmain i hi]
      · exact exists_vectors (by omega) h.reset
      · cases hempty.symm.trans hne
  | false =>
      obtain ⟨board', offset, routine, next, hboard', -, hinjected⟩ :=
        Rom.injected_of_ofBank hempty hrom
      obtain rfl : board = board' := by
        have hbanks := (Board.banks_of_ofBanks hboard').trans hheader
        cases board <;> cases board' <;> first | rfl | cases hbanks
      obtain rfl : next = board.base := Option.some.inj (hinjected.returns.symm.trans h.reset)
      have hlen := Rom.four_le_routineSize hempty
      obtain ⟨hbehind, hbefore⟩ := h.window hlen hinjected.window.1
      refine ⟨hinjected.size.trans hsize, take_eq_of_getElem? hlength fun i hi => ?_, fun he => ?_,
        fun _ => ?_⟩
      · rw [Array.getElem?_toList, hinjected.rest i (.inl (by omega)) (.inl (by omega)), hmain i hi]
      · cases hempty.symm.trans he
      · obtain ⟨vectors, hvectors, hreset⟩ :=
          exists_vectors (by rw [hinjected.size]; omega) hinjected.reset
        refine ⟨vectors, offset, routine, hvectors, hreset, hbehind, by omega,
          by rw [hreset]; exact hinjected.moved, take_eq_of_getElem? ?_ fun j hj => ?_⟩
        · exact (Rom.length_routineCode _ hinjected.moved).symm
        · rw [List.getElem?_drop, Array.getElem?_toList]
          exact hinjected.code j hj (.inl (by omega))

end Fits

/-- The image of a tree has the code of the tree in its bank. -/
theorem placed_of_image {tree : BlockTree} {target : Target} {rom : Rom} {j j' : Journal}
    (h : Build.image tree target j = .ok rom j') :
    ∃ object g, Generator.objectCode tree target.board.base {} = .ok object g ∧
      Placed object target.board rom := by
  obtain ⟨object, g, bank, hobject, hbank, hrom⟩ := Build.image_eq_ok h
  obtain ⟨code, hfits⟩ := fits_of_layout hobject hbank
  exact ⟨object, g, hobject, hfits.placed rfl hrom⟩

/-! ## Images exist -/

/-- Code with room for the routine behind the main segment. -/
structure Roomy (object : ObjectCode) (board : Board) : Prop where
  room : object.main.size + Rom.routineSize object.startup ≤ board.capacity
  inside : ∀ offset ∈ object.startup.relocations, offset + 2 ≤ object.startup.size

instance (object : ObjectCode) (board : Board) : Decidable (Roomy object board) :=
  decidable_of_iff
    (object.main.size + Rom.routineSize object.startup ≤ board.capacity ∧
      ∀ offset ∈ object.startup.relocations, offset + 2 ≤ object.startup.size)
    ⟨fun ⟨h₁, h₂⟩ => ⟨h₁, h₂⟩, fun h => ⟨h.room, h.inside⟩⟩

theorem Bank.exists_layout {main : Segment} {board : Board} (vectors : Vectors)
    (horigin : main.origin = board.base) (h : main.size ≤ board.capacity) :
    ∃ bank, layout main vectors board = .ok bank := by
  have hused : used main board = main.size := by
    rw [used, horigin, Nat.sub_self, Nat.zero_add]
  rw [layout, if_neg (by rw [horigin]; exact UInt16.lt_irrefl _), hused,
    if_neg (Nat.not_lt.2 h)]
  exact ⟨_, rfl⟩

/-- Where there is room, there is an image. -/
theorem Build.exists_image {tree : BlockTree} {target : Target} {object : ObjectCode}
    {j j₁ : Journal} (hobject : objectCode tree target j = .ok object j₁)
    (hroomy : Roomy object target.board) : ∃ rom j₂, image tree target j = .ok rom j₂ := by
  obtain ⟨g, hg⟩ := objectCode_eq_ok hobject
  obtain ⟨handler, hmain, -, -, -⟩ := Generator.objectCode_eq_ok hg
  obtain ⟨-, -, -, horigin, -, -⟩ := Generator.dense_mainSegment hmain
  have hroom := hroomy.room
  obtain ⟨bank, hbank⟩ := Bank.exists_layout object.vectors horigin (by omega)
  obtain ⟨code, hfits⟩ := fits_of_layout hg hbank
  have hwindow : Bank.IsWindow bank.toList (Rom.routineSize object.startup) object.main.size := by
    intro i hi
    have hlength := object.main.length_bytes
    rw [hfits.bytes, List.getElem?_append_right (by omega),
      List.getElem?_append_left (by rw [List.length_replicate]; omega), List.getElem?_replicate,
      if_pos (by omega)]
  have hboard : Board.ofBanks target.header.prgBanks = .ok target.board := by
    cases target with
    | mk board => cases board <;> rfl
  obtain ⟨rom, hrom⟩ := Rom.exists_ofBank target.board hboard hfits.size_bank
    (Segment.exists_moveTo hroomy.inside) hwindow
  obtain ⟨j₂, hlaid⟩ := exists_lift (.error ∘ .image) _ hbank j₁
  obtain ⟨j₃, hbuilt⟩ := exists_lift (Stop.map .image) _ hrom j₂
  refine ⟨rom, _, bind_eq_ok_iff.2 ⟨object, j₁, hobject, bind_eq_ok_iff.2 ⟨bank, j₂, hlaid,
    bind_eq_ok_iff.2 ⟨rom, j₃, hbuilt, rfl⟩⟩⟩⟩

/-- The startup routine never lands on the main segment: the main segment is in
front of the image, and behind it the processor starts in the complete
routine. -/
theorem startup_behind_main {tree : BlockTree} {target : Target} {object : ObjectCode} {rom : Rom}
    {j j₁ j' j₂ : Journal} (hobject : Build.objectCode tree target j = .ok object j₁)
    (hrom : Build.image tree target j' = .ok rom j₂) : Placed object target.board rom := by
  obtain ⟨g, hg⟩ := Build.objectCode_eq_ok hobject
  obtain ⟨object', g', hg', hplaced⟩ := placed_of_image hrom
  obtain ⟨rfl, -⟩ := EStateM.Result.ok.inj (hg.symm.trans hg')
  exact hplaced

/-- Rows of zeros in the main segment, and a startup block with a loop that ends
in a jump to an address of its own. -/
def zeroesAndBoot : List BlockTree.Op :=
  [.declare { name := "n", ty := .word }, .append (.copy ⟨"n", 0⟩ (.immediate 0) .word),
    .enter "boot" .startup, .append (.label 0), .append (.copy ⟨"n", 1⟩ (.immediate 0) .byte),
    .append (.branchNonzero ⟨"n", 1⟩ 0), .append .halt, .leave]

theorem placed_zeroesAndBoot :
    ∃ object j₁ rom j₂, Build.objectCode (BlockTree.build zeroesAndBoot) {} #[] = .ok object j₁ ∧
      Build.image (BlockTree.build zeroesAndBoot) {} #[] = .ok rom j₂ ∧
      object.startup.isEmpty = false ∧ object.startup.relocations ≠ [] ∧
      Placed object .nrom256 rom := by
  obtain ⟨object, j₁, hobject, htest⟩ := exists_of_yields (show yields
    (Build.objectCode (BlockTree.build zeroesAndBoot) {}) #[] (fun object => decide
      (object.startup.isEmpty = false ∧ object.startup.relocations ≠ [] ∧
        Roomy object .nrom256)) = true by decide +kernel)
  obtain ⟨hne, hrelocations, hroomy⟩ := of_decide_eq_true htest
  obtain ⟨rom, j₂, hrom⟩ := Build.exists_image hobject hroomy
  exact ⟨object, j₁, rom, j₂, hobject, hrom, hne, hrelocations, startup_behind_main hobject hrom⟩

end Cartridge
