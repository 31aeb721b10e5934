/-
# `Cartridge.Proofs.ObjectCode.Correctness` — code generation keeps the meaning of a tree

For every tree that operations build and every base for which there is object
code: the main code of the tree is the code of the blocks outside startup
blocks, met in preorder, and the startup code is that of the others.

    main       from the base of the bank on, the machine does what the main code
               does; at a halt and at the end of the code it spins
    startup    from address zero on, the machine does what the startup code does;
               at a halt it spins, at the end of the code it is behind the segment

Both machines fetch their instructions from the segment and have all addresses
for data, so nothing is assumed about where variables lie.
-/
import Cartridge.Proofs.ObjectCode.Simulation

namespace Cartridge

open Cpu

/-- The processor that fetches its instructions from a segment, with all
addresses for data. -/
def Segment.bus (segment : Segment) : Bus where
  fetch _ a := segment.bytes[(a - segment.origin).toNat]?
  writable _ := true

/-- A machine that is started at `entry` does what the code does. -/
structure Simulates (bus : Bus) (names : Names) (code : Code) (entry : UInt16)
    (address : Nat → UInt16) : Prop where
  /-- One instruction takes the machine from its position to the next one. -/
  step : ∀ pos m pos' m', code.Step names pos m pos' m' →
    ∃ k, bus.Goes k (address pos) m (address pos') m'
  /-- A run of the code is a run of the machine that leaves the same memory. -/
  run : ∀ n pos m m', code.Steps names n 0 m pos m' → ∃ k, bus.Goes k entry m (address pos) m'
  /-- At a halt the machine spins. -/
  halt : ∀ pos, code.Halts pos → ∀ s, s.pc = address pos → bus.Spins s
  /-- The code is stuck nowhere. -/
  progress : ∀ n pos m m', code.Steps names n 0 m pos m' →
    pos = code.length ∨ code.Halts pos ∨ ∃ pos' m'', code.Step names pos m' pos' m''
  /-- The machine does nothing else, however long it runs. -/
  cover : ∀ m k, ∃ n pos m' j, code.Steps names n 0 m pos m' ∧
    bus.Goes j entry m (address pos) m' ∧ (k ≤ j ∨ pos = code.length)

theorem Segment.keeps (segment : Segment) : segment.bus.Keeps fun _ => True :=
  fun _ _ _ _ _ => trivial

/-- An assembled segment is fetched whole by its own processor. -/
theorem Draft.Assembled.shows {lines : List Line} {base : UInt16}
    {labels : LabelId → Option UInt16} {segment : Segment}
    (h : Draft.Assembled lines base labels segment) (m : Memory) :
    segment.bus.Shows m base segment.bytes.toList := by
  intro i hi
  have hfits := h.fits
  have hlt : i < segment.size := by simpa [Segment.size] using hi
  show segment.bytes[(base + UInt16.ofNat i - segment.origin).toNat]? = _
  rw [h.origin, toNat_add_ofNat_sub (by omega), Array.getElem?_toList]

/-- Loaded code, reached from `entry`, is simulated. -/
theorem Loaded.simulates {bus : Bus} {tree : BlockTree} {storage : Storage} {code : Code}
    {labels : LabelId → Option UInt16} {address : Nat → UInt16} {entry : UInt16}
    (h : Loaded bus (fun _ => True) tree storage code labels address) (k₀ : Nat)
    (hentry : ∀ m, bus.Goes k₀ entry m (address 0) m) :
    Simulates bus (tree.names storage) code entry address where
  step pos m pos' m' hstep := by
    obtain ⟨k, hgoes, -, -⟩ := h.step trivial hstep
    exact ⟨k, hgoes⟩
  run n pos m m' hsteps := by
    obtain ⟨k, hgoes, -⟩ := h.steps trivial hsteps
    exact ⟨k₀ + k, (hentry m).trans hgoes⟩
  halt pos hhalt s hpc := h.spins hhalt hpc trivial
  progress n pos m m' hsteps := h.progress trivial (hsteps.le_length (Nat.zero_le _))
  cover m k := by
    obtain ⟨n, pos, m', j, hsteps, hgoes, hj⟩ := h.covers (m := m) trivial k
    exact ⟨n, pos, m', k₀ + j, hsteps, (hentry m).trans hgoes,
      hj.imp_left fun hle => Nat.le_trans hle (Nat.le_add_left j k₀)⟩

namespace Cpu.Bus

variable {bus : Bus} {known : Memory → Prop} {labels : LabelId → Option UInt16} {a : UInt16}

/-- An instruction that only works on registers. -/
theorem Stands.quiet {m : Mnemonic} {o : Operand} (h : bus.Stands known labels a [.op m o])
    (hquiet : ∀ s, ∃ s', bus.execute s m o = some s' ∧ s'.pc = s.pc ∧ s'.memory = s.memory)
    {mem : Memory} (hm : known mem) :
    bus.Goes 1 a mem (a + UInt16.ofNat (Line.op m o).size) mem := by
  intro s hpc hs
  subst hs
  obtain ⟨s', hexec, hpc', hmem⟩ := hquiet (s.advance (Line.op m o).size)
  refine ⟨s', run_one ((h.step hpc hm).trans hexec), ?_, hmem⟩
  rw [hpc', ← hpc]
  rfl

/-- The prologue leaves the memory alone. -/
theorem Stands.prologue (h : bus.Stands known labels a Generator.prologue) {m : Memory}
    (hm : known m) :
    bus.Goes 4 a m (a + UInt16.ofNat (Line.sizeAll Generator.prologue)) m := by
  obtain ⟨hsei, h⟩ := h.of_cons
  obtain ⟨hcld, h⟩ := h.of_cons
  obtain ⟨hldx, htxs⟩ := h.of_cons
  have hgoes := (((hsei.quiet (fun s => ⟨_, rfl, rfl, rfl⟩) hm).trans
    (hcld.quiet (fun s => ⟨_, rfl, rfl, rfl⟩) hm)).trans
    (hldx.quiet (fun s => ⟨_, rfl, rfl, rfl⟩) hm)).trans
    (htxs.quiet (fun s => ⟨_, rfl, rfl, rfl⟩) hm)
  simp only [add_ofNat_add_ofNat] at hgoes
  exact hgoes

end Cpu.Bus

/-! ## The code of a tree -/

/-- Filtering blocks gathers the code of the wanted ones. -/
theorem BlockTree.gathers_filter {tree : BlockTree} {wanted : BlockId → Prop} {p : BlockId → Bool}
    {ids : List BlockId} (h : ∀ id ∈ ids, p id = true ↔ wanted id) :
    tree.Gathers wanted ids (tree.codeOf (ids.filter p)) := by
  induction ids with
  | nil => exact .nil
  | cons id ids ih =>
      have hrest := ih fun id' hid' => h id' (List.mem_cons_of_mem _ hid')
      rw [List.filter_cons]
      split
      · next hp => exact .take ((h id (by simp)).1 hp) hrest
      · next hp => exact .skip (mt (h id (by simp)).2 hp) hrest

/-- The main code of a tree is that of the blocks outside startup blocks. -/
theorem BlockTree.WellFormed.gathers_main {tree : BlockTree} (h : tree.WellFormed) :
    tree.Gathers (¬ tree.InStartup ·) (List.range tree.blocks.size)
      (tree.codeOf (Generator.mainBlocks tree)) := by
  rw [Generator.mainBlocks, h.preorder_eq_range]
  refine gathers_filter fun id hid => ?_
  rw [← h.inStartup_iff (List.mem_range.1 hid)]
  simp

theorem BlockTree.WellFormed.gathers_startup {tree : BlockTree} (h : tree.WellFormed) :
    tree.Gathers tree.InStartup (List.range tree.blocks.size)
      (tree.codeOf (Generator.startupBlocks tree)) := by
  rw [Generator.startupBlocks, h.preorder_eq_range]
  exact gathers_filter fun id hid => h.inStartup_iff (List.mem_range.1 hid)

theorem Selected.take_length {tree : BlockTree} {storage : Storage} {code : Code}
    {lines : List (List Line)} (h : Selected tree storage code lines) :
    lines.take code.length = lines := by
  rw [← h.length_eq, List.take_length]

/-- Where the main segment is fetched, the main code is loaded behind the
prologue, and the machine spins behind it. -/
theorem Generator.mainSegment_loaded {tree : BlockTree} {storage : Storage} {base handler : UInt16}
    {segment : Segment} (h : mainSegment tree storage base = .ok (segment, handler))
    {bus : Bus} {known : Memory → Prop} (hkeeps : bus.Keeps known)
    (hshows : ∀ m, known m → bus.Shows m base segment.bytes.toList)
    (hconfined : ∀ block i a, (block, i) ∈ tree.codeOf (mainBlocks tree) →
      (tree.names storage).Stores block i a → bus.writable a) :
    ∃ labels address,
      Loaded bus known tree storage (tree.codeOf (mainBlocks tree)) labels address ∧
      (∀ m, known m → bus.Goes 4 base m (address 0) m) ∧
      ∀ s, s.pc = address (tree.codeOf (mainBlocks tree)).length → known s.memory →
        bus.Spins s := by
  obtain ⟨lines, labels, hselected, hassembled, -⟩ := mainSegment_assembled h
  rw [List.append_assoc] at hassembled
  have hstands : bus.Stands known labels base
      (prologue ++ lines.flatten ++ ([.spin] ++ [.op .rti .implied])) :=
    ⟨_, hassembled.bytes, hshows⟩
  refine ⟨labels, _, hassembled.loaded hselected (by simp [prologue]) (by simp) hkeeps hshows
    hconfined, fun m hm => ?_, fun s hpc hm => ?_⟩
  · simpa [positionAddress] using hstands.of_append.1.of_append.1.prologue hm
  · rw [positionAddress, hselected.take_length] at hpc
    exact hstands.of_append.2.of_append.1.spin hpc hm

/-- Where lines are fetched that nothing stands around, their code is loaded
from the first address on. -/
theorem Draft.Assembled.loaded_alone {tree : BlockTree} {storage : Storage} {code : Code}
    {lines : List (List Line)} {origin : UInt16} {labels : LabelId → Option UInt16}
    {segment : Segment} (h : Draft.Assembled lines.flatten origin labels segment)
    (hselected : Selected tree storage code lines) {bus : Bus} {known : Memory → Prop}
    (hkeeps : bus.Keeps known) (hshows : ∀ m, known m → bus.Shows m origin segment.bytes.toList)
    (hconfined : ∀ block i a, (block, i) ∈ code → (tree.names storage).Stores block i a →
      bus.writable a) :
    ∃ address, Loaded bus known tree storage code labels address ∧ address 0 = origin ∧
      address code.length = origin + UInt16.ofNat segment.size := by
  have hassembled : Draft.Assembled ([] ++ lines.flatten ++ []) origin labels segment := by simpa
  refine ⟨_, hassembled.loaded hselected (by simp) (by simp) hkeeps hshows hconfined, ?_, ?_⟩
  · simp [positionAddress]
  · rw [positionAddress, hselected.take_length, List.nil_append, h.size_eq]

/-- The main segment runs the main code and then spins. -/
theorem mainSegment_simulates {tree : BlockTree} {storage : Storage} {base handler : UInt16}
    {segment : Segment} (h : Generator.mainSegment tree storage base = .ok (segment, handler)) :
    ∃ address, Simulates segment.bus (tree.names storage) (tree.codeOf (Generator.mainBlocks tree))
        base address ∧
      ∀ s, s.pc = address (tree.codeOf (Generator.mainBlocks tree)).length →
        segment.bus.Spins s := by
  obtain ⟨_, _, -, hassembled, -⟩ := Generator.mainSegment_assembled h
  obtain ⟨labels, address, hloaded, hentry, hspins⟩ := Generator.mainSegment_loaded h
    segment.keeps (fun m _ => hassembled.shows m) (fun _ _ _ _ _ => rfl)
  exact ⟨address, hloaded.simulates 4 fun m => hentry m trivial, fun s hpc => hspins s hpc trivial⟩

/-- The startup segment runs the startup code and then leaves it at its end. -/
theorem startupSegment_simulates {tree : BlockTree} {storage : Storage} {segment : Segment}
    (h : Generator.startupSegment tree storage = .ok segment) :
    ∃ address, Simulates segment.bus (tree.names storage)
        (tree.codeOf (Generator.startupBlocks tree)) 0 address ∧
      address (tree.codeOf (Generator.startupBlocks tree)).length = UInt16.ofNat segment.size := by
  obtain ⟨lines, labels, hselected, hassembled⟩ := Generator.startupSegment_assembled h
  obtain ⟨address, hloaded, hstart, hend⟩ := hassembled.loaded_alone hselected
    segment.keeps (fun m _ => hassembled.shows m) (fun _ _ _ _ _ => rfl)
  refine ⟨address, hloaded.simulates 0 fun m => ?_, by rw [hend, UInt16.zero_add]⟩
  rw [hstart]
  exact .refl _ 0 m

/-- Object code does what the tree says: the main segment runs the code outside
startup blocks, met in preorder, and the startup segment runs the rest. -/
def ObjectCode.Implements (object : ObjectCode) (tree : BlockTree) (storage : Storage)
    (base : UInt16) : Prop :=
  ∃ order main startup, tree.Visits [0] order ∧ tree.Gathers (¬ tree.InStartup ·) order main ∧
    tree.Gathers tree.InStartup order startup ∧
    (∃ address, Simulates object.main.bus (tree.names storage) main base address ∧
      ∀ s, s.pc = address main.length → object.main.bus.Spins s) ∧
    (∃ address, Simulates object.startup.bus (tree.names storage) startup 0 address ∧
      address startup.length = UInt16.ofNat object.startup.size)

/-- Code generation keeps the meaning of every tree that operations build. -/
theorem implements_of_objectCode {ops : List BlockTree.Op} {base : UInt16} {g g' : Generator}
    {object : ObjectCode}
    (h : Generator.objectCode (BlockTree.build ops) base g = .ok object g') :
    object.Implements (BlockTree.build ops) g'.storage base := by
  have hshape := BlockTree.wellFormed_build ops
  obtain ⟨handler, hmain, hstartup, -, -⟩ := Generator.objectCode_eq_ok h
  exact ⟨_, _, _, hshape.visits_range, hshape.gathers_main, hshape.gathers_startup,
    mainSegment_simulates hmain, startupSegment_simulates hstartup⟩

/-- A loop in a scope that shadows a name, with jumps both ways, and a startup
block that halts. -/
def shadowedLoop : List BlockTree.Op :=
  [.declare { name := "n", ty := .byte },
    .enter "loop" .scope, .declare { name := "n", ty := .word }, .append (.label 0),
    .append (.copy ⟨"n", 0⟩ (.immediate 0x0102) .word), .append (.branchZero ⟨"n", 1⟩ 0),
    .append (.jump 1), .leave,
    .enter "boot" .startup, .append (.widen ⟨"n", 0⟩ ⟨"n", 0⟩), .append .halt, .leave,
    .append (.branchNonzero ⟨"n", 0⟩ 1), .append (.label 1)]

theorem implements_shadowedLoop :
    ∃ object g', Generator.objectCode (BlockTree.build shadowedLoop) 0x8000 {} = .ok object g' ∧
      object.Implements (BlockTree.build shadowedLoop) g'.storage 0x8000 := by
  obtain ⟨object, g', h, -⟩ := exists_of_yields (show yields
    (Generator.objectCode (BlockTree.build shadowedLoop) 0x8000) {} (fun _ => true) = true
    by decide +kernel)
  exact ⟨object, g', h, implements_of_objectCode h⟩

end Cartridge
