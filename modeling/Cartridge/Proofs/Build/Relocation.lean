/-
# `Cartridge.Proofs.Build.Relocation` — startup code as if it were assembled in place

The startup segment is assembled at zero, long before its place in the bank is
known, and moved there when the image is built.  Its lines are orders that name
no address, and its place leaves room for the jump behind it, so it does not pass
the end of the address space: the move gives the segment that would have been
assembled there.

Proved here: the routine that an image starts with is the startup segment
assembled at the address where it lies (`Rom.startup_in_place`), one case of what
holds of every segment whose control passes through labels
(`moved_eq_assembled`).
-/
import Cartridge.Proofs.Build.Correctness
import Cartridge.Proofs.ObjectCode.Ordered

namespace Cartridge

namespace Generator

/-- The startup segment as if it were assembled at `base`. -/
def startupSegmentAt (tree : BlockTree) (storage : Storage) (base : UInt16) :
    Except (Stop CodeError) Segment :=
  match Draft.putBlocks tree storage (startupBlocks tree) { assembler := { base := base } } with
  | .error s _ => .error s
  | .ok () d => d.finish

theorem startupSegment_eq (tree : BlockTree) (storage : Storage) :
    startupSegment tree storage = startupSegmentAt tree storage 0 := rfl

theorem startupSegmentAt_eq_ok_iff {tree : BlockTree} {storage : Storage} {base : UInt16}
    {segment : Segment} :
    startupSegmentAt tree storage base = .ok segment ↔
      ∃ lines, Selected tree storage (tree.codeOf (startupBlocks tree)) lines ∧
        Draft.Yields lines.flatten base segment := by
  unfold startupSegmentAt
  constructor
  · intro h
    split at h
    · cases h
    · next d hd =>
        obtain ⟨lines, hselected, hput⟩ := Draft.putBlocks_eq_ok_iff.1 hd
        exact ⟨lines, hselected, d, hput, h⟩
  · rintro ⟨lines, hselected, d, hput, hfinish⟩
    rw [Draft.putBlocks_eq_ok_iff.2 ⟨lines, hselected, hput⟩]
    exact hfinish

/-- Moving the startup segment gives the one that is assembled in place. -/
theorem startupSegmentAt_of_moveTo {tree : BlockTree} {storage : Storage} {startup : Segment}
    (h : startupSegment tree storage = .ok startup) {origin : UInt16}
    (hfits : origin.toNat + startup.size ≤ 65535) :
    ∃ routine, startup.moveTo origin = .ok routine ∧
      startupSegmentAt tree storage origin = .ok routine := by
  rw [startupSegment_eq, startupSegmentAt_eq_ok_iff] at h
  obtain ⟨lines, hselected, hyields⟩ := h
  obtain ⟨orders, hlabels, hsize, horders⟩ := Draft.exists_orders lines.flatten
  have hassemble := (horders 0 startup).1 hyields
  have hlength : Order.sizeAll orders = startup.size := by
    obtain ⟨d, hput, hfinish⟩ := hyields
    rw [hsize, (Draft.assembled (Draft.putLines_emits hput) hfinish).size_eq]
  rw [← hlength] at hfits
  obtain ⟨routine, hroutine⟩ := Order.exists_assemble hlabels (a := 0) (b := origin)
    (by rw [UInt16.toNat_zero]; omega) hfits hassemble
  exact ⟨routine, Order.moveTo_of_assemble hlabels hassemble hroutine,
    startupSegmentAt_eq_ok_iff.2 ⟨lines, hselected, (horders origin routine).2 hroutine⟩⟩

end Generator

/-- The routine that an image starts with is the startup segment assembled where
it lies. -/
theorem Rom.startup_in_place {tree : BlockTree} {storage : Storage} {startup : Segment}
    (hstartup : Generator.startupSegment tree storage = .ok startup)
    (hne : startup.isEmpty = false) {header : Header} {bank : Bytes} {rom : Rom}
    (h : ofBank header bank startup = .ok rom) :
    ∃ board offset routine next, Board.ofBanks header.prgBanks = .ok board ∧
      Injected bank startup (board.base + UInt16.ofNat offset) offset routine next rom.prg ∧
      Generator.startupSegmentAt tree storage (board.base + UInt16.ofNat offset) = .ok routine := by
  obtain ⟨board, offset, routine, next, hboard, hsize, hinjected⟩ := injected_of_ofBank hne h
  refine ⟨board, offset, routine, next, hboard, hinjected, ?_⟩
  -- the jump behind the routine ends inside the bank, and the bank at the last address
  have hend : offset + (startup.size + 3) ≤ board.size := hsize ▸ hinjected.end_le
  have htop := board.base_add_size
  have hload : (board.base + UInt16.ofNat offset).toNat = board.base.toNat + offset :=
    toNat_add_ofNat (by omega)
  have hfits : (board.base + UInt16.ofNat offset).toNat + startup.size ≤ 65535 := by omega
  obtain ⟨routine', hmoved, hplace⟩ := Generator.startupSegmentAt_of_moveTo hstartup hfits
  obtain rfl := Except.ok.inj (hmoved.symm.trans hinjected.moved)
  exact hplace

/-- Moving a segment is assembling it elsewhere.  Orders that pass control through
labels alone can be assembled at both of two bases or at none, as long as the
code fits behind either; moving the segment from the one base to the other gives
exactly the segment that is assembled there, and moving it through any addresses
is moving it to the last of them, wherever these are.  So the routine that an
image starts with is the startup segment as it would have been assembled where
it lies. -/
theorem moved_eq_assembled :
    (∀ (orders : List Order) (a b : UInt16), Order.LabelsOnly orders →
      a.toNat + Order.sizeAll orders ≤ 65535 → b.toNat + Order.sizeAll orders ≤ 65535 →
      ((∃ segment, Order.assemble a orders = .ok segment) ↔
        ∃ segment, Order.assemble b orders = .ok segment) ∧
      ∀ segment, Order.assemble a orders = .ok segment →
        (∃ segment', Order.assemble b orders = .ok segment' ∧ segment.moveTo b = .ok segment') ∧
        ∀ via last, ∃ moved, segment.moveTo last = .ok moved ∧
          segment.moveThrough (via ++ [last]) = .ok moved) ∧
    ∀ (tree : BlockTree) (storage : Storage) (startup : Segment) (header : Header) (bank : Bytes)
      (rom : Rom), Generator.startupSegment tree storage = .ok startup →
      startup.isEmpty = false → Rom.ofBank header bank startup = .ok rom →
      ∃ board offset routine next, Board.ofBanks header.prgBanks = .ok board ∧
        Rom.Injected bank startup (board.base + UInt16.ofNat offset) offset routine next rom.prg ∧
        Generator.startupSegmentAt tree storage (board.base + UInt16.ofNat offset) =
          .ok routine := by
  constructor
  · intro orders a b hlabels ha hb
    refine ⟨⟨?_, ?_⟩, fun segment h => ⟨?_, Order.moveThrough_of_assemble hlabels h⟩⟩
    · rintro ⟨segment, h⟩
      exact Order.exists_assemble hlabels ha hb h
    · rintro ⟨segment, h⟩
      exact Order.exists_assemble hlabels hb ha h
    · obtain ⟨segment', h'⟩ := Order.exists_assemble hlabels ha hb h
      exact ⟨segment', h', Order.moveTo_of_assemble hlabels h h'⟩
  · intro tree storage startup header bank rom hstartup hne hrom
    exact Rom.startup_in_place hstartup hne hrom

/-- A routine with branches and jumps to labels on both sides. -/
def delay : List Order := [
  .freshLabel, .freshLabel, .op .ldx (.immediate 8), .bind 0, .op .dex .implied, .branchTo .bne 0,
  .branchTo .beq 1, .jumpTo 1, .op .sta (.absoluteX 0x0200), .bind 1, .jumpTo 0]

/-- The routine is moved from one end of the address space to the other, on a way
that passes the end; the startup code is that of an image. -/
theorem moved_delay_and_boot :
    (Order.LabelsOnly delay ∧ (0 : UInt16).toNat + Order.sizeAll delay ≤ 65535 ∧
      (0xFFEF : UInt16).toNat + Order.sizeAll delay = 65535 ∧
      ∃ segment segment', Order.assemble 0 delay = .ok segment ∧ segment.relocations ≠ [] ∧
        Order.assemble 0xFFEF delay = .ok segment' ∧ segment.moveTo 0xFFEF = .ok segment' ∧
        segment.moveThrough [0xFFFF, 0x8000, 0xFFEF] = .ok segment') ∧
    ∃ object g bank rom,
      Generator.objectCode (BlockTree.build zeroesAndBoot) (Target.board {}).base {} =
        .ok object g ∧
      object.startup.isEmpty = false ∧ object.startup.relocations ≠ [] ∧
      Rom.ofBank (Target.header {}) bank object.startup = .ok rom ∧
      ∃ (board : Board) (offset : Nat) (routine : Segment) (next : UInt16),
        Rom.Injected bank object.startup (board.base + UInt16.ofNat offset) offset routine next
          rom.prg ∧
        Generator.startupSegmentAt (BlockTree.build zeroesAndBoot) g.storage
          (board.base + UInt16.ofNat offset) = .ok routine := by
  obtain ⟨horders, hstartup⟩ := moved_eq_assembled
  constructor
  · have hlabels : Order.LabelsOnly delay := by simp [Order.LabelsOnly, delay]
    obtain ⟨segment, hsegment, htest⟩ := (Option.any_eq_true _ _).1
      (show (Order.assemble 0 delay).toOption.any (fun segment =>
        decide (segment.relocations ≠ [])) = true by decide +kernel)
    rw [toOption_eq_some_iff] at hsegment
    obtain ⟨-, hmoves⟩ := horders delay 0 0xFFEF hlabels (by decide) (by decide)
    obtain ⟨⟨segment', hsegment', hmove⟩, hthrough⟩ := hmoves segment hsegment
    obtain ⟨moved, hmoved, hvia⟩ := hthrough [0xFFFF, 0x8000] 0xFFEF
    obtain rfl := Except.ok.inj (hmove.symm.trans hmoved)
    exact ⟨hlabels, by decide, by decide, segment, segment', hsegment,
      of_decide_eq_true htest, hsegment', hmove, hvia⟩
  · obtain ⟨object, g, hobject, htest⟩ := exists_of_yields (show yields
      (Generator.objectCode (BlockTree.build zeroesAndBoot) (Target.board {}).base) {}
      (fun object => decide (object.startup.isEmpty = false ∧ object.startup.relocations ≠ [] ∧
        Roomy object .nrom256)) = true by decide +kernel)
    obtain ⟨hne, hrelocations, hroomy⟩ := of_decide_eq_true htest
    obtain ⟨j, hbuild⟩ : ∃ j, Build.objectCode (BlockTree.build zeroesAndBoot) {} #[] =
        .ok object j := Build.exists_objectCode hobject #[]
    obtain ⟨rom, j', himage⟩ := Build.exists_image hbuild hroomy
    obtain ⟨object', g', bank, hobject', -, hrom⟩ := Build.image_eq_ok himage
    cases hobject.symm.trans hobject'
    obtain ⟨_, -, hsegment, -, -⟩ := Generator.objectCode_eq_ok hobject
    obtain ⟨board, offset, routine, next, -, hinjected, hplace⟩ :=
      hstartup _ _ _ _ _ _ hsegment hne hrom
    exact ⟨object, g, bank, rom, hobject, hne, hrelocations, hrom, board, offset, routine, next,
      hinjected, hplace⟩

end Cartridge
