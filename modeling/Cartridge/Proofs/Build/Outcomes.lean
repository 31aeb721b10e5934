/-
# `Cartridge.Proofs.Build.Outcomes` — what can become of an accepted unit

A unit that was analysed and has a block tree can be built for any target.  One
of three things happens:

    no code      the code or its variables do not fit into the address space
    no image     the code does not fit into the bank, or the startup routine
                 does not fit into the room that is left
    an image     of the size that the target says, with all vectors inside the bank

Proved here: there is no other outcome, and no call on the way breaks its
contract (`outcomes_of_tree`), as long as the sizes of all variables can be
computed; where they cannot, code generation breaks off (`overflow_immense`).  The
tree of a unit is storing, since the analysis
has seen every name (`storing_of_tree`); the main segment begins where the bank
does; startup code has no addresses of its own, so it can be moved anywhere.  The
startup routine may take the low byte of the NMI vector for a part of its row of
zeros, but never a high byte, and the high byte tells whether an address is in
the bank.
-/
import Cartridge.Proofs.Build.Bounds
import Cartridge.Proofs.Build.Files
import Cartridge.Proofs.Image.Effect
import Cartridge.Proofs.ObjectCode.Progress

namespace Cartridge

/-! ## The tree of a unit -/

/-- The tree of a session is storing. -/
theorem Session.storing_of_tree {s s' : Session} {t : BlockTree} (h : tree s = .ok t s') :
    t.WellFormed ∧ t.Storing := by
  obtain ⟨env, j, j', hanalyze, hdecls, -⟩ := tree_eq_ok h
  obtain ⟨symbols, main, boots, hnames, rfl, hlowered⟩ := BlockTree.ofDecls_eq_ok hdecls
  refine ⟨BlockTree.wellFormed_flat, ?_⟩
  intro id hid i hi
  obtain ⟨hle, hcode⟩ := BlockTree.mem_instrs_flat hi
  -- the global block is around every block and declares the symbols
  have hsymbols : ∀ symbol ∈ symbols,
      (BlockTree.flat symbols main boots).Visible id symbol.name := by
    intro symbol hsymbol
    exact ⟨0, BlockTree.encloses_flat hle, symbol, hsymbol, rfl⟩
  obtain ⟨hmain, hboots⟩ := among_unit (Typing.accepted_of_analyze hanalyze) hlowered hsymbols
  rcases hcode with hcode | ⟨boot, hboot, hcode⟩
  · exact hmain i hcode
  · exact hboots boot hboot i hcode

theorem Instr.Among.straight {known : String → Prop} {i : Instr} (h : i.Among known) :
    i.Straight := by
  cases i with
  | copy dest src width => trivial
  | widen dest src => trivial
  | _ => exact h.elim

/-- The startup segment of a storing tree can be moved anywhere. -/
theorem BlockTree.Storing.exists_moveTo {tree : BlockTree} (hw : tree.WellFormed)
    (h : tree.Storing) {storage : Storage} {startup : Segment}
    (hstartup : Generator.startupSegment tree storage = .ok startup) (origin : UInt16) :
    ∃ routine, startup.moveTo origin = .ok routine := by
  have hstraight : ∀ entry ∈ tree.codeOf (Generator.startupBlocks tree), entry.2.Straight := by
    intro entry hentry
    obtain ⟨id, hid, hentry⟩ := List.mem_flatMap.1 hentry
    obtain ⟨i, hi, rfl⟩ := List.mem_map.1 hentry
    have hblock := (List.mem_filter.1 hid).1
    rw [hw.preorder_eq_range, List.mem_range] at hblock
    exact (h id hblock i hi).straight
  have hplain := Generator.relocations_of_startupSegment hstartup hstraight
  exact ⟨_, Segment.moveTo_of_plain hplain origin⟩

/-! ## Failures -/

/-- The program does not fit: into the address space, into its bank, or beside
its startup routine. -/
inductive BuildError.Unfit : BuildError → Prop where
  | code {error : CodeError} (h : error.Unfit) : Unfit (.code error)
  | programTooLarge (size capacity : Nat) : Unfit (.image (.programTooLarge size capacity))
  | noSpaceForStartup (size : Nat) : Unfit (.image (.noSpaceForStartup size))

/-- A main segment at the base of the bank is laid out, or it is too large. -/
theorem Bank.layout_cases {main : Segment} {board : Board} (vectors : Vectors)
    (horigin : main.origin = board.base) :
    (∃ bank, layout main vectors board = .ok bank) ∨
      layout main vectors board = .error (.programTooLarge (used main board) board.capacity) := by
  rw [layout, if_neg (by rw [horigin]; exact UInt16.lt_irrefl _)]
  split
  · exact .inr rfl
  · exact .inl ⟨_, rfl⟩

/-- A bank of the right size becomes an image, or there is no room for the
startup routine. -/
theorem Rom.ofBank_cases {header : Header} {bank : Bytes} {startup : Segment} {board : Board}
    (hboard : Board.ofBanks header.prgBanks = .ok board) (hsize : bank.size = board.size)
    (hmove : ∀ origin, ∃ routine, startup.moveTo origin = .ok routine) :
    (∃ rom, ofBank header bank startup = .ok rom) ∨
      ofBank header bank startup =
        .error (.error (.noSpaceForStartup (routineSize startup))) := by
  have hbanks := Board.banks_of_ofBanks hboard
  have hprg : bank.size = header.prgSize := hsize.trans (prgSize_of_banks hbanks)
  rcases Nat.eq_zero_or_pos startup.size with hempty | hcode
  · exact .inl ⟨_, ofBank_of_empty hprg hempty⟩
  · by_cases hwindow : ∃ i, Bank.IsWindow bank.toList (routineSize startup) i
    · obtain ⟨i, hi⟩ := hwindow
      exact .inl (exists_ofBank board hboard hsize hmove hi)
    · exact .inr (ofBank_of_full hbanks hprg hcode (not_exists.1 hwindow))

namespace Build

theorem lift_eq_error {ε α : Type} {f : ε → Stop BuildError} {x : Except ε α} {event : α → Event}
    {j j' : Journal} {stop : Stop BuildError}
    (h : lift f (Traced.ofExcept event x) j = .error stop j') :
    ∃ e, x = .error e ∧ stop = f e := by
  cases x with
  | ok a => cases h
  | error e =>
      cases h
      exact ⟨e, rfl, rfl⟩

variable {t : BlockTree}

/-- An error in the code of a tree is that the program does not fit. -/
def CodeUnfit (e : BuildError) : Prop := ∃ error, e = .code error ∧ error.Unfit

/-- The object code of a storing tree is missing only where the program does not
fit, or the size of a symbol cannot be computed. -/
theorem objectCode_unfit (hw : t.WellFormed) (hstoring : t.Storing) {target : Target}
    {j j' : Journal} {stop : Stop BuildError} (h : objectCode t target j = .error stop j') :
    t.Ends CodeUnfit stop := by
  unfold objectCode at h
  split at h
  · cases h
  · next s g hg =>
      cases h
      cases Generator.objectCode_stopsWithin hw hstoring target.board.base _ _ _ hg with
      | error hunfit => exact .error ⟨_, rfl, hunfit⟩
      | overflow hsizes => exact .overflow hsizes

/-- The image of a storing tree is missing only where the program does not fit, or
the size of a symbol cannot be computed. -/
theorem image_unfit (hw : t.WellFormed) (hstoring : t.Storing) {target : Target}
    {j j' : Journal} {stop : Stop BuildError} (h : image t target j = .error stop j') :
    t.Ends BuildError.Unfit stop := by
  rcases bind_eq_error_iff.1 h with hobject | ⟨object, j₁, hobject, h⟩
  · cases objectCode_unfit hw hstoring hobject with
    | error hunfit =>
        obtain ⟨error, rfl, herror⟩ := hunfit
        exact .error (.code herror)
    | overflow hsizes => exact .overflow hsizes
  · obtain ⟨g, hg⟩ := objectCode_eq_ok hobject
    obtain ⟨handler, hmain, hstartup, -, -⟩ := Generator.objectCode_eq_ok hg
    obtain ⟨-, -, -, horigin, -, -⟩ := Generator.dense_mainSegment hmain
    rcases bind_eq_error_iff.1 h with hbank | ⟨bank, j₂, hbank, h⟩
    · obtain ⟨e, he, rfl⟩ := lift_eq_error hbank
      rcases Bank.layout_cases object.vectors horigin with ⟨bank, hok⟩ | hlarge
      · cases hok.symm.trans he
      · obtain rfl := Except.error.inj (hlarge.symm.trans he)
        exact .error (.programTooLarge _ _)
    · obtain ⟨code, hfits⟩ := fits_of_layout hg (ofExcept_eq_ok (lift_eq_ok hbank))
      have hboard : Board.ofBanks target.header.prgBanks = .ok target.board := by
        cases target with
        | mk board => cases board <;> rfl
      have hmove := hstoring.exists_moveTo hw hstartup
      rcases bind_eq_error_iff.1 h with hrom | ⟨rom, j₃, hrom, h⟩
      · obtain ⟨e, he, rfl⟩ := lift_eq_error hrom
        rcases Rom.ofBank_cases hboard hfits.size_bank hmove with ⟨rom, hok⟩ | hfull
        · cases hok.symm.trans he
        · obtain rfl := Except.error.inj (hfull.symm.trans he)
          exact .error (.noSpaceForStartup _)
      · rcases bind_eq_error_iff.1 h with hnote | ⟨_, j₄, -, hreturn⟩
        · cases hnote
        · cases hreturn

end Build

/-! ## Vectors -/

theorem Bytes.highByte_of_vector? {bank : Bytes} {fromEnd : Nat} {w : UInt16} {b : UInt8}
    (h : bank.vector? fromEnd = some w) (hb : bank[bank.size - fromEnd + 1]? = some b) :
    highByte w = b := by
  obtain ⟨-, hhigh⟩ := getElem?_of_vector? h
  exact Option.some.inj (hhigh.symm.trans hb)

/-- The two vectors of the interrupt handlers. -/
theorem Rom.handlers_of_vectors {rom : Rom} {v : Vectors} (h : rom.vectors = .ok v) :
    rom.prg.vector? Vectors.nmiFromEnd = some v.nmi ∧
      rom.prg.vector? Vectors.irqFromEnd = some v.irq := by
  rw [vectors] at h
  split at h
  · next hnmi _ hirq =>
      cases h
      exact ⟨hnmi, hirq⟩
  · cases h

namespace Board

theorem base_le (board : Board) {i : Nat} (hi : i < board.size) :
    board.base ≤ board.base + UInt16.ofNat i := by
  have hend := board.base_add_size
  rw [UInt16.le_iff_toNat_le, toNat_add_ofNat (by omega)]
  exact Nat.le_add_right ..

/-- The high byte of an address tells whether it is in the bank. -/
theorem base_le_of_highByte (board : Board) {w w' : UInt16} (h : board.base ≤ w')
    (hhigh : highByte w = highByte w') : board.base ≤ w := by
  have hbyte := congrArg UInt8.toNat hhigh
  have hw := w.toNat_lt
  have hw' := w'.toNat_lt
  simp only [highByte, UInt16.toNat_toUInt8, UInt16.toNat_div, UInt16.reduceToNat] at hbyte
  rw [UInt16.le_iff_toNat_le] at h ⊢
  cases board with
  | nrom128 =>
      simp only [base, UInt16.reduceToNat] at h ⊢
      omega
  | nrom256 =>
      simp only [base, UInt16.reduceToNat] at h ⊢
      omega

end Board

/-- The high bytes of both handlers stay what they are. -/
theorem Fits.getElem?_handlers {object : ObjectCode} {board : Board} {code : List UInt8}
    {bank : Bytes} (h : Fits object board code bank) {header : Header} {rom : Rom}
    (hrom : Rom.ofBank header bank object.startup = .ok rom) {k : Nat} (hk : k = 1 ∨ k = 5) :
    rom.prg[board.capacity + k]? = some (highByte (board.base + UInt16.ofNat code.length)) := by
  have hcapacity := board.capacity_eq
  have hsize := h.size_bank
  have hbank : bank[board.capacity + k]? =
      some (highByte (board.base + UInt16.ofNat code.length)) := by
    rw [← Array.getElem?_toList, h.getElem?_vectors k, h.vectors]
    rcases hk with rfl | rfl <;> rfl
  rw [← hbank]
  cases hempty : object.startup.isEmpty with
  | true => rw [Rom.prg_of_ofBank hempty hrom]
  | false =>
      obtain ⟨board', offset, routine, next, -, -, hinjected⟩ :=
        Rom.injected_of_ofBank hempty hrom
      obtain ⟨-, hbefore⟩ := h.window (Rom.four_le_routineSize hempty) hinjected.window.1
      exact hinjected.rest _ (.inr (by omega)) (by omega)

namespace Build

variable {t : BlockTree} {target : Target} {rom : Rom} {j j' : Journal}

/-- All vectors of an image lie in its bank. -/
theorem vectors_of_image (h : image t target j = .ok rom j') :
    ∃ v, rom.vectors = .ok v ∧ target.board.base ≤ v.nmi ∧ target.board.base ≤ v.reset ∧
      target.board.base ≤ v.irq := by
  obtain ⟨object, g, bank, hobject, hbank, hrom⟩ := image_eq_ok h
  obtain ⟨code, hfits⟩ := fits_of_layout hobject hbank
  have hplaced := hfits.placed rfl hrom
  have hcapacity := target.board.capacity_eq
  have hsize := hplaced.size
  have hmain := hfits.size_main
  have hle := hfits.fits
  have hhandler := target.board.base_le (show code.length < target.board.size by omega)
  obtain ⟨v, hv, hreset⟩ : ∃ v, rom.vectors = .ok v ∧ target.board.base ≤ v.reset := by
    cases hempty : object.startup.isEmpty with
    | true =>
        obtain ⟨v, hv, hreset⟩ := hplaced.plain hempty
        exact ⟨v, hv, by rw [hreset]; exact UInt16.le_refl _⟩
    | false =>
        obtain ⟨v, offset, routine, hv, hreset, -, hend, -⟩ := hplaced.routine hempty
        have hpos := Rom.routineSize_pos object.startup
        exact ⟨v, hv, by rw [hreset]; exact target.board.base_le (by omega)⟩
  obtain ⟨hnmi, hirq⟩ := Rom.handlers_of_vectors hv
  have hnmiByte : highByte v.nmi = highByte (target.board.base + UInt16.ofNat code.length) := by
    have hat : rom.prg.size - Vectors.nmiFromEnd + 1 = target.board.capacity + 1 := by
      rw [hsize, Vectors.nmiFromEnd]
      omega
    refine Bytes.highByte_of_vector? hnmi ?_
    rw [hat]
    exact hfits.getElem?_handlers hrom (.inl rfl)
  have hirqByte : highByte v.irq = highByte (target.board.base + UInt16.ofNat code.length) := by
    have hat : rom.prg.size - Vectors.irqFromEnd + 1 = target.board.capacity + 5 := by
      rw [hsize, Vectors.irqFromEnd]
      omega
    refine Bytes.highByte_of_vector? hirq ?_
    rw [hat]
    exact hfits.getElem?_handlers hrom (.inr rfl)
  exact ⟨v, hv, target.board.base_le_of_highByte hhandler hnmiByte, hreset,
    target.board.base_le_of_highByte hhandler hirqByte⟩

/-- The file of an image has the size that the target says. -/
theorem size_of_image (h : image t target j = .ok rom j') :
    rom.toBytes.size =
      headerSize + target.board.size + target.chrBanks.toNat * chrBankSize := by
  obtain ⟨hsized, hheader⟩ := sized_of_image h
  rw [hsized.size_toBytes, hheader]
  rfl

end Build

/-! ## Outcomes -/

namespace Session

/-- Whatever the target, the code and the image of a session's tree are missing
only where the program does not fit, as long as the sizes of its symbols can be
computed, and an image that is there has the size that the target says and all its
vectors in the bank. -/
theorem outcomes_of_tree {s s' : Session} {t : BlockTree} (h : tree s = .ok t s')
    (target : Target) (j : Journal) :
    (∀ stop j', Build.objectCode t target j = .error stop j' → t.Ends Build.CodeUnfit stop) ∧
    (∀ stop j', Build.image t target j = .error stop j' → t.Ends BuildError.Unfit stop) ∧
    ∀ rom j', Build.image t target j = .ok rom j' →
      rom.toBytes.size =
        headerSize + target.board.size + target.chrBanks.toNat * chrBankSize ∧
      ∃ v, rom.vectors = .ok v ∧ target.board.base ≤ v.nmi ∧ target.board.base ≤ v.reset ∧
        target.board.base ≤ v.irq := by
  obtain ⟨hw, hstoring⟩ := storing_of_tree h
  refine ⟨?_, ?_, ?_⟩
  · intro stop j' hobject
    exact Build.objectCode_unfit hw hstoring hobject
  · intro stop j' himage
    exact Build.image_unfit hw hstoring himage
  · intro rom j' himage
    exact ⟨Build.size_of_image himage, Build.vectors_of_image himage⟩

/-- A unit that fits on a small board with character memory, and one with a
variable that is too long to have a size. -/
theorem outcomes_sampler_overlong :
    (∃ t s' rom j, tree sampler = .ok t s' ∧
      Build.image t { board := .nrom128, chrBanks := 3 } #[] = .ok rom j ∧
      rom.toBytes.size = 16 + 0x4000 + 3 * 0x2000 ∧
      ∃ v, rom.vectors = .ok v ∧ 0xC000 ≤ v.nmi ∧ 0xC000 ≤ v.reset ∧ 0xC000 ≤ v.irq) ∧
    ∃ t s' error j, tree overlong = .ok t s' ∧
      Build.objectCode t {} #[] = .error (.error (.code error)) j ∧ error.Unfit := by
  constructor
  · obtain ⟨t, s', htree, htest⟩ := exists_of_yields (show yields tree sampler (fun t =>
      yields (Build.objectCode t { board := .nrom128, chrBanks := 3 }) #[] fun object =>
        decide (Roomy object .nrom128)) = true by decide +kernel)
    obtain ⟨object, j, hobject, hroomy⟩ := exists_of_yields htest
    obtain ⟨rom, j', hrom⟩ := Build.exists_image hobject (of_decide_eq_true hroomy)
    obtain ⟨-, -, himage⟩ :=
      outcomes_of_tree htree { board := .nrom128, chrBanks := 3 } #[]
    obtain ⟨hsize, hvectors⟩ := himage rom j' hrom
    exact ⟨t, s', rom, j', htree, hrom, hsize, hvectors⟩
  · obtain ⟨t, s', htree, htest⟩ := exists_of_yields (show yields tree overlong (fun t =>
      stops (Build.objectCode t {}) #[] fun stop => stop != .fault .overflow) = true by
        decide +kernel)
    obtain ⟨stop, j, hobject, hstop⟩ := exists_of_stops htest
    obtain ⟨hcode, -, -⟩ := outcomes_of_tree htree {} #[]
    cases hcode stop j hobject with
    | error hunfit =>
        obtain ⟨error, rfl, herror⟩ := hunfit
        exact ⟨t, s', error, j, htree, hobject, herror⟩
    | overflow => cases hstop

/-- More words than a length can count bytes of, without a value. -/
def immense : Session where
  decls := [.var {} "x" (.array .word 0x8000000000000000) none []]

/-- A variable whose size cannot be computed is accepted, and code generation breaks
off at it. -/
theorem overflow_immense :
    ∃ t s' j, tree immense = .ok t s' ∧ ¬ t.Measurable ∧
      Build.objectCode t {} #[] = .error (.fault .overflow) j ∧
      ∃ j', Build.image t {} #[] = .error (.fault .overflow) j' := by
  obtain ⟨t, s', htree, htest⟩ := exists_of_yields (show yields tree immense (fun t =>
    stops (Build.objectCode t {}) #[] fun stop => stop == .fault .overflow) = true by
      decide +kernel)
  obtain ⟨stop, j, hobject, hstop⟩ := exists_of_stops htest
  obtain rfl := eq_of_beq hstop
  obtain ⟨hw, hstoring⟩ := storing_of_tree htree
  cases Build.objectCode_unfit hw hstoring hobject with
  | overflow hsizes =>
      exact ⟨t, s', j, htree, hsizes, hobject, j, bind_eq_error_iff.2 (.inl hobject)⟩

end Session

end Cartridge
