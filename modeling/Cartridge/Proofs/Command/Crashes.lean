/-
# `Cartridge.Proofs.Command.Crashes` — which files bring a command down

`pack` builds an image and prints its reset vector, `info` reads one and prints
all three vectors.  An image without program memory has no vectors:

    pack    has one bank or two, so there are vectors to print
    info    takes the number of banks from the file, and zero is a number

So `pack` ends well or with a message, whatever the files hold and whatever the
system answers (`safe_packScript`).  `info` does so too unless the file is
*hollow*: the signature, no bank of program memory, and the length that this
asks for.  Such a file is accepted as an image, and the look for its vectors
leaves the buffer.

Proved here: a script that is safe never crashes (`Safe.code_run`), and the only
files that bring one of the two commands down are the hollow ones
(`crashes_iff_hollow`).
-/
import Cartridge.Command.Run
import Cartridge.Proofs.Image.Codec
import Cartridge.Proofs.Image.Effect

namespace Cartridge

/-! ## Safe scripts -/

namespace Script

/-- No answer of the world leads to a crash. -/
def Safe : Script → Prop
  | .done => True
  | .fail _ _ => True
  | .crash _ => False
  | .print _ next => next.Safe
  | .report _ next => next.Safe
  | .read _ next => ∀ answer, (next answer).Safe
  | .write _ _ next => ∀ answer, (next answer).Safe

/-- A safe script ends well or with a message. -/
theorem Safe.code_run {s : Script} (h : s.Safe) (disk : Disk) (out : String) :
    (s.run disk out).code = 0 ∨ (s.run disk out).code = Outcome.failed := by
  induction s generalizing disk out with
  | done => exact .inl rfl
  | fail context cause => exact .inr rfl
  | crash fault => exact h.elim
  | print text next ih => exact ih h disk (out ++ text)
  | report events next ih => exact ih h disk out
  | read path next ih => exact ih _ (h _) disk out
  | write path contents next ih =>
      rw [run]
      -- the disk decides which answer the script gets
      split
      · exact ih _ (h _) _ out
      · exact ih _ (h _) disk out

theorem safe_readOrFail {path : String} {next : Bytes → Script}
    (h : ∀ contents, (next contents).Safe) : (readOrFail path next).Safe := by
  intro answer
  cases answer with
  | error e => trivial
  | ok contents => exact h contents

/-- Lines are printed one after the other. -/
theorem run_printLines (lines : List String) (disk : Disk) (out : String) :
    (lines.foldr printLine .done).run disk out =
      ⟨0, lines.foldl (fun out line => out ++ (line ++ "\n")) out, "", disk⟩ := by
  induction lines generalizing out with
  | nil => rfl
  | cons line lines ih => exact ih _

end Script

/-! ## Images with and without vectors -/

namespace Rom

theorem Sized.exists_vectors {rom : Rom} (h : rom.Sized) (hbanks : rom.header.prgBanks ≠ 0) :
    ∃ vectors, rom.vectors = .ok vectors := by
  have hpos : 0 < rom.header.prgBanks.toNat :=
    Nat.pos_of_ne_zero fun hzero => hbanks (UInt8.toNat_inj.1 hzero)
  apply exists_vectors_of_size
  rw [h.prg, Header.prgSize, prgBankSize]
  omega

theorem Sized.vectors_of_no_banks {rom : Rom} (h : rom.Sized) (hbanks : rom.header.prgBanks = 0) :
    rom.vectors = .error .outOfRange := by
  have hsize : rom.prg.size = 0 := by
    rw [h.prg, Header.prgSize, hbanks]
    rfl
  have hnmi : rom.prg.vector? Vectors.nmiFromEnd = none := by
    rw [Bytes.vector?, hsize, if_neg (by decide)]
  rw [vectors, hnmi]

/-- A bank and a routine become an image with vectors, or an error says why not. -/
theorem ofBank_safe {header : Header} (hbanks : header.prgBanks ≠ 0) (bank routine : Bytes) :
    (∃ e, ofBank header bank { bytes := routine } = .error (.error e)) ∨
      ∃ rom vectors, ofBank header bank { bytes := routine } = .ok rom ∧
        rom.vectors = .ok vectors := by
  have hbuilds : Builds header bank { bytes := routine }
      (ofBank header bank { bytes := routine }) :=
    builds_ofBank fun o ho => absurd ho List.not_mem_nil
  have hvectors : ∀ rom, ofBank header bank { bytes := routine } = .ok rom →
      ∃ vectors, rom.vectors = .ok vectors := by
    intro rom hrom
    obtain ⟨hsized, hheader⟩ := sized_of_ofBank hrom
    exact hsized.exists_vectors (hheader ▸ hbanks)
  generalize ofBank header bank { bytes := routine } = r at hbuilds hvectors
  cases hbuilds with
  | sizeMismatch => exact .inl ⟨_, rfl⟩
  | unsupportedBanks => exact .inl ⟨_, rfl⟩
  | noSpace => exact .inl ⟨_, rfl⟩
  | plain =>
      obtain ⟨vectors, h⟩ := hvectors _ rfl
      exact .inr ⟨_, vectors, rfl, h⟩
  | placed =>
      obtain ⟨vectors, h⟩ := hvectors _ rfl
      exact .inr ⟨_, vectors, rfl, h⟩

/-- A file that is taken for an image without program memory. -/
def Hollow (file : Bytes) : Prop :=
  magic <+: file.toList ∧ file.getD 4 0 = 0 ∧
    file.size = headerSize + (file.getD 5 0).toNat * chrBankSize

theorem prgBanks_of_ofBytes {file : Bytes} {rom : Rom} (h : ofBytes file = .ok rom) :
    rom.header.prgBanks = file.getD 4 0 := by
  obtain ⟨hparse, -⟩ := ofBytes_eq_ok_iff.1 h
  obtain ⟨-, -, hheader⟩ := Header.parse_eq_ok_iff.1 hparse
  rw [hheader]
  rfl

/-- The hollow files are the images without a bank. -/
theorem hollow_iff {file : Bytes} :
    Hollow file ↔ ∃ rom, ofBytes file = .ok rom ∧ rom.header.prgBanks = 0 := by
  constructor
  · rintro ⟨hmagic, hbanks, hsize⟩
    obtain ⟨rom, hrom⟩ : ∃ rom, ofBytes file = .ok rom := by
      refine exists_ofBytes_iff.2 ⟨?_, hmagic, ?_⟩
      · omega
      · rw [hbanks, hsize]
        simp
    exact ⟨rom, hrom, (prgBanks_of_ofBytes hrom).trans hbanks⟩
  · rintro ⟨rom, hrom, hbanks⟩
    rw [prgBanks_of_ofBytes hrom] at hbanks
    obtain ⟨-, hmagic, hsize⟩ := exists_ofBytes_iff.1 ⟨rom, hrom⟩
    rw [hbanks] at hsize
    refine ⟨hmagic, hbanks, hsize.trans ?_⟩
    simp

/-- A file is refused, or is an image with vectors, or is hollow. -/
theorem ofBytes_cases (file : Bytes) :
    (¬ Hollow file ∧ ∃ e, ofBytes file = .error e) ∨
      (¬ Hollow file ∧ ∃ rom vectors, ofBytes file = .ok rom ∧ rom.vectors = .ok vectors) ∨
      (Hollow file ∧ ∃ rom, ofBytes file = .ok rom ∧ rom.vectors = .error .outOfRange) := by
  cases hrom : ofBytes file with
  | error e =>
      refine .inl ⟨fun hhollow => ?_, e, rfl⟩
      obtain ⟨rom, hrom', -⟩ := hollow_iff.1 hhollow
      cases hrom.symm.trans hrom'
  | ok rom =>
      have hsized := sized_of_ofBytes hrom
      by_cases hbanks : rom.header.prgBanks = 0
      · exact .inr (.inr ⟨hollow_iff.2 ⟨rom, hrom, hbanks⟩, rom, rfl,
          hsized.vectors_of_no_banks hbanks⟩)
      · obtain ⟨vectors, hvectors⟩ := hsized.exists_vectors hbanks
        refine .inr (.inl ⟨fun hhollow => ?_, rom, vectors, rfl, hvectors⟩)
        obtain ⟨rom', hrom', hbanks'⟩ := hollow_iff.1 hhollow
        cases hrom.symm.trans hrom'
        exact hbanks hbanks'

end Rom

/-! ## The two commands -/

namespace Command

theorem safe_writeRom {rom : Rom} {vectors : Vectors} (h : rom.vectors = .ok vectors)
    (output : String) : (writeRom rom output).Safe := by
  intro answer
  cases answer with
  | error e => trivial
  | ok _ =>
      simp only [h]
      trivial

theorem safe_packBank {header : Header} (hbanks : header.prgBanks ≠ 0) (input output : String)
    (bank routine : Bytes) : (packBank input output header bank routine).Safe := by
  rw [packBank, Rom.ofBankTraced]
  rcases Rom.ofBank_safe hbanks bank routine with ⟨e, he⟩ | ⟨rom, vectors, hrom, hvectors⟩
  · rw [he]
    trivial
  · rw [hrom]
    exact safe_writeRom hvectors output

/-- Whatever the files hold and the system answers, `pack` does not crash. -/
theorem safe_packScript {header : Header} (hbanks : header.prgBanks ≠ 0) (input : String)
    (startup : Option String) (output : String) :
    (packScript input startup output header).Safe := by
  apply Script.safe_readOrFail
  intro bank
  cases startup with
  | none => exact safe_packBank hbanks input output bank #[]
  | some file =>
      apply Script.safe_readOrFail
      intro routine
      exact safe_packBank hbanks input output bank routine

/-- What `info` leaves behind, on a disk and after what is printed already. -/
inductive Informs (file : String) (disk : Disk) (out : String) : Outcome → Prop where
  | unreadable {e : FileError} (hread : disk.read file = .error e) :
      Informs file disk out
        ⟨Outcome.failed, out, Script.failureText s!"Reading {file}" e.message, disk⟩
  | refused {contents : Bytes} {e : ImageError} (hread : disk.read file = .ok contents)
      (hrom : Rom.ofBytes contents = .error e) (hfull : ¬ Rom.Hollow contents) :
      Informs file disk out
        ⟨Outcome.failed, out, Script.failureText s!"Parsing {file}" e.message, disk⟩
  | described {contents : Bytes} {rom : Rom} {vectors : Vectors}
      (hread : disk.read file = .ok contents) (hrom : Rom.ofBytes contents = .ok rom)
      (hvectors : rom.vectors = .ok vectors) (hfull : ¬ Rom.Hollow contents) :
      Informs file disk out
        ⟨0, (describe rom.header vectors).foldl (fun out line => out ++ (line ++ "\n")) out, "",
          disk⟩
  | crashed {contents : Bytes} (hread : disk.read file = .ok contents)
      (hhollow : Rom.Hollow contents) :
      Informs file disk out ⟨Outcome.crashed, out, "", disk⟩

theorem informs_run (file : String) (disk : Disk) (out : String) :
    Informs file disk out ((infoScript file).run disk out) := by
  cases hread : disk.read file with
  | error e =>
      simp only [infoScript, Script.readOrFail, Script.run, hread]
      exact .unreadable hread
  | ok contents =>
      simp only [infoScript, Script.readOrFail, Script.run, hread]
      rcases Rom.ofBytes_cases contents with
        ⟨hfull, e, hrom⟩ | ⟨hfull, rom, vectors, hrom, hvectors⟩ | ⟨hhollow, rom, hrom, hvectors⟩
      · simp only [hrom, Script.run]
        exact .refused hread hrom hfull
      · simp only [hrom, hvectors, Script.run_printLines]
        exact .described hread hrom hvectors hfull
      · simp only [hrom, hvectors, Script.run]
        exact .crashed hread hhollow

/-- The exit code of a crash tells that the file was hollow. -/
theorem Informs.code_eq_crashed_iff {file : String} {disk : Disk} {out : String} {r : Outcome}
    (h : Informs file disk out r) :
    r.code = Outcome.crashed ↔ ∃ contents, disk.read file = .ok contents ∧ Rom.Hollow contents := by
  have hfailed : Outcome.failed ≠ Outcome.crashed := by decide
  have hdone : 0 ≠ Outcome.crashed := by decide
  cases h with
  | unreadable hread =>
      refine iff_of_false hfailed ?_
      rintro ⟨contents, hread', -⟩
      cases hread.symm.trans hread'
  | refused hread _ hfull =>
      refine iff_of_false hfailed ?_
      rintro ⟨contents, hread', hhollow⟩
      cases hread.symm.trans hread'
      exact hfull hhollow
  | described hread _ _ hfull =>
      refine iff_of_false hdone ?_
      rintro ⟨contents, hread', hhollow⟩
      cases hread.symm.trans hread'
      exact hfull hhollow
  | crashed hread hhollow => exact iff_of_true rfl ⟨_, hread, hhollow⟩

/-- `pack` never crashes: a bank and a routine become an image whose vectors can be
printed, or an error says why not.  `info` describes a file or says what is wrong
with it, and crashes exactly on the hollow ones. -/
theorem crashes_iff_hollow (disk : Disk) (out file : String) (board : Board) :
    (∀ (input : String) (startup : Option String) (output : String) (vertical : Bool),
      (pack input startup output board vertical).script.Safe ∧
        (((pack input startup output board vertical).script.run disk out).code = 0 ∨
          ((pack input startup output board vertical).script.run disk out).code =
            Outcome.failed)) ∧
      (∀ (mirroring : Mirroring) (bank routine : Bytes),
        (∃ e, Rom.ofBank { Header.ofBoard board with mirroring := mirroring } bank
            { bytes := routine } = .error (.error e)) ∨
          ∃ rom vectors, Rom.ofBank { Header.ofBoard board with mirroring := mirroring } bank
            { bytes := routine } = .ok rom ∧ rom.vectors = .ok vectors) ∧
      Informs file disk out ((info file).script.run disk out) ∧
      (((info file).script.run disk out).code = Outcome.crashed ↔
        ∃ contents, disk.read file = .ok contents ∧ Rom.Hollow contents) := by
  have hbanks : board.banks ≠ 0 := by
    cases board <;> decide
  have hinforms : Informs file disk out ((info file).script.run disk out) :=
    informs_run file disk out
  refine ⟨?_, ?_, hinforms, hinforms.code_eq_crashed_iff⟩
  · intro input startup output vertical
    have hsafe : (pack input startup output board vertical).script.Safe :=
      safe_packScript hbanks input startup output
    exact ⟨hsafe, hsafe.code_run disk out⟩
  · intro mirroring bank routine
    exact Rom.ofBank_safe hbanks bank routine

/-- A header that promises nothing, and nothing behind it. -/
def bareHeader : Bytes := (magic ++ List.replicate 12 0).toArray

theorem hollow_bareHeader : Rom.Hollow bareHeader := ⟨⟨List.replicate 12 0, rfl⟩, rfl, rfl⟩

theorem read_bareHeader : (Disk.ofFiles [("r", bareHeader)]).read "r" = .ok bareHeader := by
  -- splitting is the one step that does not compute
  have hsplit : "r".splitOn "/" = ["r"] := by
    rw [String.splitOn, if_neg (by decide), String.splitOnAux, if_neg (by decide +kernel),
      if_neg (by decide +kernel), String.splitOnAux, if_pos (by decide +kernel)]
    decide +kernel
  unfold Disk.ofFiles Disk.read Path.parse
  simp only [List.map_cons, List.map_nil, hsplit]
  exact toOption_eq_some_iff.1 (by decide +kernel)

/-- The bare header is accepted as an image, has no vectors, and brings `info` down. -/
theorem info_crashes_bareHeader :
    (∃ rom, Rom.ofBytes bareHeader = .ok rom ∧ rom.vectors = .error .outOfRange) ∧
      run ["info", "r"] (Disk.ofFiles [("r", bareHeader)]) =
        ⟨Outcome.crashed, "", "", Disk.ofFiles [("r", bareHeader)]⟩ := by
  constructor
  · obtain ⟨rom, hrom, hbanks⟩ := Rom.hollow_iff.1 hollow_bareHeader
    exact ⟨rom, hrom, (Rom.sized_of_ofBytes hrom).vectors_of_no_banks hbanks⟩
  · have hargs : Args.parse ["info", "r"] = .ok { command := .info "r" } :=
      toOption_eq_some_iff.1 (by decide +kernel)
    have hinforms := informs_run "r" (Disk.ofFiles [("r", bareHeader)]) ""
    rw [run, hargs]
    show (infoScript "r").run _ "" = _
    generalize (infoScript "r").run (Disk.ofFiles [("r", bareHeader)]) "" = outcome at hinforms
    cases hinforms with
    | unreadable hread => cases read_bareHeader.symm.trans hread
    | refused hread _ hfull =>
        cases read_bareHeader.symm.trans hread
        exact absurd hollow_bareHeader hfull
    | described hread _ _ hfull =>
        cases read_bareHeader.symm.trans hread
        exact absurd hollow_bareHeader hfull
    | crashed => rfl

end Command

end Cartridge
