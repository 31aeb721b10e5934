/-
# `Cartridge.Proofs.ObjectCode.Straight` — machine code of code that only stores

Code that only copies and widens has neither labels nor jumps, so its lines are
instructions that no address of their own goes into:

    the bytes      are the same wherever the code stands
    no relocation  moving the segment changes nothing but its origin

Proved here: a machine that fetches the main segment, or the startup segment at
whatever address, runs such code from its beginning to its end and leaves the
memory that the code leaves (`mainSegment_runs`, `startupSegment_runs`).
-/
import Cartridge.Proofs.ObjectCode.Correctness

namespace Cartridge

open Cpu

/-- An instruction that copies or widens. -/
def Instr.Straight : Instr → Prop
  | .copy .. | .widen .. => True
  | _ => False

/-- Lines that are instructions. -/
def Line.Plain (lines : List Line) : Prop := ∀ line ∈ lines, ∃ m o, line = .op m o

theorem Site.plain_of_straight {site : Site} {i : Instr} {lines : List Line}
    (h : site.select i = .ok lines) (hi : i.Straight) : Line.Plain lines := by
  intro line hline
  cases i with
  | copy dest src width =>
      obtain ⟨d, s, byte, -, -, -, rfl⟩ := select_copy h
      obtain ⟨j, -, hj⟩ := List.mem_flatMap.1 hline
      simp only [List.mem_cons, List.not_mem_nil, or_false] at hj
      rcases hj with rfl | rfl <;> exact ⟨_, _, rfl⟩
  | widen dest src =>
      obtain ⟨d, s, -, -, rfl⟩ := select_widen h
      simp only [List.cons_append, List.nil_append, List.mem_cons, List.not_mem_nil, or_false]
        at hline
      rcases hline with rfl | rfl | rfl | rfl <;> exact ⟨_, _, rfl⟩
  | _ => cases hi

/-- Instructions have the same bytes everywhere. -/
theorem Line.encodeAll?_of_plain {lines : List Line} (h : Line.Plain lines)
    (labels labels' : LabelId → Option UInt16) (here here' : UInt16) :
    encodeAll? labels here lines = encodeAll? labels' here' lines := by
  induction lines generalizing here here' with
  | nil => rfl
  | cons line lines ih =>
      obtain ⟨m, o, rfl⟩ := h line (by simp)
      have hrest := ih (fun l hl => h l (by simp [hl])) (here + UInt16.ofNat (Line.op m o).size)
        (here' + UInt16.ofNat (Line.op m o).size)
      rw [encodeAll?, encodeAll?, hrest]
      rfl

theorem Selected.plain {tree : BlockTree} {storage : Storage} {code : Code}
    {lines : List (List Line)} (h : Selected tree storage code lines)
    (hstraight : ∀ entry ∈ code, entry.2.Straight) : Line.Plain lines.flatten := by
  induction h with
  | nil => simp [Line.Plain]
  | cons hselect _ ih =>
      intro line hline
      rw [List.flatten_cons, List.mem_append] at hline
      rcases hline with hline | hline
      · exact Site.plain_of_straight hselect (hstraight _ List.mem_cons_self) line hline
      · exact ih (fun entry hentry => hstraight entry (by simp [hentry])) line hline

/-- Code that only stores has bytes, unless it is empty. -/
theorem Selected.eq_nil {tree : BlockTree} {storage : Storage} {code : Code}
    {lines : List (List Line)} (h : Selected tree storage code lines)
    (hstraight : ∀ entry ∈ code, entry.2.Straight) (hsize : Line.sizeAll lines.flatten = 0) :
    code = [] := by
  cases h with
  | nil => rfl
  | @cons block i code lines rest hselect _ =>
      have hplain := Site.plain_of_straight hselect (hstraight _ List.mem_cons_self)
      rw [List.flatten_cons, Line.sizeAll_append] at hsize
      cases lines with
      | nil =>
          -- every such instruction has lines
          cases i with
          | copy dest src width =>
              obtain ⟨d, s, byte, -, -, -, hlines⟩ := Site.select_copy hselect
              cases width <;> cases hlines
          | widen dest src =>
              obtain ⟨d, s, -, -, hlines⟩ := Site.select_widen hselect
              cases hlines
          | _ => exact absurd (hstraight _ List.mem_cons_self) id
      | cons line lines =>
          obtain ⟨m, o, rfl⟩ := hplain line (by simp)
          rw [Line.sizeAll_cons, Line.size] at hsize
          omega

/-! ## Nothing to relocate -/

namespace Draft

theorem patches_of_putLines {lines : List Line} (hplain : Line.Plain lines) {d d' : Draft}
    (h : putLines lines d = .ok () d') : d'.assembler.patches = d.assembler.patches := by
  induction lines generalizing d with
  | nil =>
      obtain ⟨-, rfl⟩ := pure_eq_ok_iff.1 h
      rfl
  | cons line lines ih =>
      obtain ⟨_, d₁, hline, hlines⟩ := bind_eq_ok_iff.1 h
      obtain ⟨m, o, rfl⟩ := hplain line (by simp)
      obtain ⟨a, hop, rfl⟩ := assembling_eq_ok hline
      obtain ⟨bytes, -, -, rfl⟩ := Assembler.op_eq_ok hop
      rw [ih (fun l hl => hplain l (by simp [hl])) hlines]

theorem patches_of_putBlocks {tree : BlockTree} {storage : Storage} {ids : List BlockId}
    (hstraight : ∀ entry ∈ tree.codeOf ids, entry.2.Straight) {d d' : Draft}
    (h : putBlocks tree storage ids d = .ok () d') :
    d'.assembler.patches = d.assembler.patches := by
  obtain ⟨lines, hselected, hlines⟩ := putBlocks_eq_ok_iff.1 h
  exact patches_of_putLines (hselected.plain hstraight) hlines

end Draft

/-- A startup segment of code that only stores has no addresses of its own. -/
theorem Generator.relocations_of_startupSegment {tree : BlockTree} {storage : Storage}
    {segment : Segment} (h : startupSegment tree storage = .ok segment)
    (hstraight : ∀ entry ∈ tree.codeOf (startupBlocks tree), entry.2.Straight) :
    segment.relocations = [] := by
  obtain ⟨d, hd, hfinish⟩ := startupSegment_eq_ok h
  have hpatches := Draft.patches_of_putBlocks hstraight hd
  obtain ⟨code, -, rfl⟩ := Assembler.finish_eq_ok_iff.1 (Draft.finish_eq_ok_iff.1 hfinish)
  rw [Assembler.jumpOffsets, hpatches]
  rfl

/-! ## Runs -/

namespace Code.Runs

variable {allowed : UInt16 → Prop}

theorem straight {names : Names} {code : Code} {m m' : Memory} (h : code.Runs names allowed m m') :
    ∀ entry ∈ code, entry.2.Straight := by
  induction h with
  | nil => simp
  | copy _ _ _ _ ih => exact List.forall_mem_cons.2 ⟨trivial, ih⟩
  | widen _ _ _ _ ih => exact List.forall_mem_cons.2 ⟨trivial, ih⟩

/-- Code that runs stores only to addresses that are allowed. -/
theorem confined {tree : BlockTree} {storage : Storage} {code : Code} {m m' : Memory}
    (h : code.Runs (tree.names storage) allowed m m') {block : BlockId} {i : Instr} {a : UInt16}
    (hi : (block, i) ∈ code) (ha : (tree.names storage).Stores block i a) : allowed a := by
  induction h with
  | nil => cases hi
  | copy hd _ hallowed _ ih =>
      rcases List.mem_cons.1 hi with heq | hrest
      · cases heq
        obtain ⟨d', hd', j, hj, rfl⟩ := ha
        rw [BlockTree.locates_unique hd' hd]
        exact hallowed j hj
      · exact ih hrest
  | widen hd _ hallowed _ ih =>
      rcases List.mem_cons.1 hi with heq | hrest
      · cases heq
        obtain ⟨d', hd', j, hj, rfl⟩ := ha
        rw [BlockTree.locates_unique hd' hd]
        exact hallowed j hj
      · exact ih hrest

end Code.Runs

section Machine

variable {tree : BlockTree} {storage : Storage} {segment : Segment} {bus : Bus}
  {known : Memory → Prop} {allowed : UInt16 → Prop} {m m' : Memory}

/-- A machine that fetches the main segment runs the main code and then spins. -/
theorem mainSegment_runs {base handler : UInt16}
    (h : Generator.mainSegment tree storage base = .ok (segment, handler))
    (hkeeps : bus.Keeps known) (hshows : ∀ m, known m → bus.Shows m base segment.bytes.toList)
    (hallowed : ∀ a, allowed a → bus.writable a) (hm : known m)
    (hruns : Code.Runs (tree.names storage) allowed
      (tree.codeOf (Generator.mainBlocks tree)) m m') :
    ∃ k a, bus.Goes k base m a m' ∧ ∀ s, s.pc = a → s.memory = m' → bus.Spins s := by
  obtain ⟨labels, address, hloaded, hentry, hspins⟩ := Generator.mainSegment_loaded h hkeeps hshows
    fun block i a hi ha => hallowed a (hruns.confined hi ha)
  obtain ⟨n, hsteps⟩ := hruns.steps
  obtain ⟨k, hgoes, hm'⟩ := hloaded.steps hm hsteps
  exact ⟨4 + k, _, (hentry m hm).trans hgoes, fun s hpc hs => hspins s hpc (hs ▸ hm')⟩

/-- A machine that fetches the startup segment from any address runs the startup
code and is behind it then. -/
theorem startupSegment_runs {origin : UInt16}
    (h : Generator.startupSegment tree storage = .ok segment)
    (hfits : origin.toNat + segment.size ≤ 0x10000) (hkeeps : bus.Keeps known)
    (hshows : ∀ m, known m → bus.Shows m origin segment.bytes.toList)
    (hallowed : ∀ a, allowed a → bus.writable a) (hm : known m)
    (hruns : Code.Runs (tree.names storage) allowed
      (tree.codeOf (Generator.startupBlocks tree)) m m') :
    ∃ k, bus.Goes k origin m (origin + UInt16.ofNat segment.size) m' ∧ known m' := by
  obtain ⟨lines, labels, hselected, hassembled⟩ := Generator.startupSegment_assembled h
  have hplain := hselected.plain hruns.straight
  -- the segment is assembled at any other address, too
  have hmoved : Draft.Assembled lines.flatten origin (fun _ => none)
      { segment with origin := origin } := by
    refine ⟨rfl, ?_, hfits, fun pre l post e => ?_, fun l a e => nomatch e⟩
    · rw [Line.encodeAll?_of_plain hplain _ labels origin 0]
      exact hassembled.bytes
    · obtain ⟨_, _, hop⟩ := hplain (.mark l) (by rw [e]; simp)
      cases hop
  obtain ⟨address, hloaded, hstart, hend⟩ := hmoved.loaded_alone hselected hkeeps hshows
    fun block i a hi ha => hallowed a (hruns.confined hi ha)
  obtain ⟨n, hsteps⟩ := hruns.steps
  obtain ⟨k, hgoes, hm'⟩ := hloaded.steps hm hsteps
  rw [hstart, hend] at hgoes
  exact ⟨k, hgoes, hm'⟩

/-- No startup code is there if its segment is empty. -/
theorem codeOf_startupBlocks_eq_nil (h : Generator.startupSegment tree storage = .ok segment)
    (hempty : segment.isEmpty = true)
    (hstraight : ∀ entry ∈ tree.codeOf (Generator.startupBlocks tree), entry.2.Straight) :
    tree.codeOf (Generator.startupBlocks tree) = [] := by
  obtain ⟨lines, labels, hselected, hassembled⟩ := Generator.startupSegment_assembled h
  refine hselected.eq_nil hstraight ?_
  rw [← hassembled.size_eq]
  exact Array.isEmpty_iff_size_eq_zero.1 hempty

end Machine

end Cartridge
