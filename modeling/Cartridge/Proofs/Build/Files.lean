/-
# `Cartridge.Proofs.Build.Files` — every image survives as a file

An image comes about in one of four ways:

    ofPrg      a header and program memory
    ofBytes    a file
    ofBank     a header, a bank and a startup routine
    image      a block tree and a target

Proved here: each of them gives an image with the sizes that its header says
(`Obtained.sized`).  With the codec this makes images and files the same thing,
but for the bits of a file that an image does not carry (`codec_exact`).
-/
import Cartridge.Proofs.Build.Placement
import Cartridge.Proofs.Image.Codec

namespace Cartridge

/-- The image of a tree has the header of the target, and the memory that the
header says. -/
theorem Build.sized_of_image {tree : BlockTree} {target : Target} {rom : Rom} {j j' : Journal}
    (h : image tree target j = .ok rom j') : rom.Sized ∧ rom.header = target.header := by
  obtain ⟨object, g, bank, -, -, hrom⟩ := image_eq_ok h
  exact Rom.sized_of_ofBank hrom

namespace Rom

/-- The ways to come by an image. -/
inductive Obtained : Rom → Prop where
  | ofPrg {header : Header} {prg : Bytes} {rom : Rom} :
      Rom.ofPrg header prg = .ok rom → Obtained rom
  | ofBytes {file : Bytes} {rom : Rom} : Rom.ofBytes file = .ok rom → Obtained rom
  | ofBank {header : Header} {bank : Bytes} {startup : Segment} {rom : Rom} :
      Rom.ofBank header bank startup = .ok rom → Obtained rom
  | image {tree : BlockTree} {target : Target} {rom : Rom} {j j' : Journal} :
      Build.image tree target j = .ok rom j' → Obtained rom

theorem Obtained.sized {rom : Rom} (h : rom.Obtained) : rom.Sized := by
  cases h with
  | ofPrg h => exact (sized_of_ofPrg h).1
  | ofBytes h => exact sized_of_ofBytes h
  | ofBank h => exact (sized_of_ofBank h).1
  | image h => exact (Build.sized_of_image h).1

/-- Reading undoes writing for every image that one can come by, writing undoes
reading but for the bits that an image does not carry, and a file is read exactly
if it has a header, the signature and the size that its header says. -/
theorem codec_exact :
    (∀ rom : Rom, rom.Obtained → rom.Sized) ∧
      (∀ rom : Rom, rom.Sized → ofBytes rom.toBytes = .ok rom) ∧
      (∀ (file : Bytes) (rom : Rom), ofBytes file = .ok rom → rom.toBytes = carry file) ∧
      ∀ file : Bytes, (∃ rom, ofBytes file = .ok rom) ↔
        headerSize ≤ file.size ∧ magic <+: file.toList ∧
          file.size = headerSize + (file.getD 4 0).toNat * prgBankSize +
            (file.getD 5 0).toNat * chrBankSize := by
  refine ⟨?_, ?_, ?_, ?_⟩
  · intro rom hobtained
    exact hobtained.sized
  · intro rom hsized
    exact hsized.ofBytes_toBytes
  · intro file rom hread
    exact toBytes_of_ofBytes hread
  · intro file
    exact exists_ofBytes_iff

/-- A header with every field away from its default. -/
def crowded : Header where
  prgBanks := 3
  chrBanks := 2
  mirroring := .vertical
  battery := true
  trainer := true
  fourScreen := true
  mapper := 0xA5
  arcade := true
  prgRam := 7
  pal := true
  flags10 := 0x5A

/-- A file without memory, with all bits set that an image does not carry. -/
def noisy : Bytes :=
  #[0x4E, 0x45, 0x53, 0x1A, 0, 0, 0x5F, 0xAF, 7, 0xFF, 0x5A, 0xFF, 0xFF, 0xFF, 0xFF, 0xFF]

/-- A crowded image comes back as it is, a noisy file without its noise. -/
theorem codec_crowded_noisy :
    (∃ rom : Rom, rom.Obtained ∧ rom.header = crowded ∧ rom.Sized ∧
        ofBytes rom.toBytes = .ok rom) ∧
      ∃ rom, ofBytes noisy = .ok rom ∧
        rom.toBytes = #[0x4E, 0x45, 0x53, 0x1A, 0, 0, 0x5F, 0xA1, 7, 1, 0x5A, 0, 0, 0, 0, 0] := by
  obtain ⟨hsized, hread, hwritten, hreadable⟩ := codec_exact
  constructor
  · have hrom : Rom.ofPrg crowded (Array.replicate crowded.prgSize 0xEA) =
        .ok ⟨crowded, Array.replicate crowded.prgSize 0xEA, Array.replicate crowded.chrSize 0⟩ :=
      if_pos Array.size_replicate
    have hobtained := Obtained.ofPrg hrom
    exact ⟨_, hobtained, rfl, hsized _ hobtained, hread _ (hsized _ hobtained)⟩
  · obtain ⟨rom, hrom⟩ := (hreadable noisy).2 (by decide)
    exact ⟨rom, hrom, (hwritten noisy rom hrom).trans (by decide)⟩

end Rom

end Cartridge
