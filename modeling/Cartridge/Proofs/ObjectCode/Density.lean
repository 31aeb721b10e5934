/-
# `Cartridge.Proofs.ObjectCode.Density` — code has no long row of zeros

The search for room in a bank takes any row of zero bytes for free and does not
know where code ends.  Code does not look free: an instruction is an opcode,
which is not zero, and at most two more bytes.  So from every byte of code the
next nonzero byte is at most two bytes away, if the byte behind the code is not
zero (`Dense`).  The main segment ends with the opcode of its interrupt handler,
which is such a byte.
-/
import Cartridge.Proofs.ObjectCode.Selection

namespace Cartridge

/-- From every byte there is a nonzero byte, or the end, at most two bytes
away. -/
structure Dense (bytes : List UInt8) : Prop where
  head : ∀ b, bytes.head? = some b → b ≠ 0
  near : ∀ i < bytes.length, ∃ j ≤ 2, i + j = bytes.length ∨
    ∃ b, bytes[i + j]? = some b ∧ b ≠ 0

namespace Dense

theorem nil : Dense [] := ⟨by simp, by simp⟩

/-- A nonzero byte with at most two bytes behind it. -/
theorem cons {opcode : UInt8} {bytes : List UInt8} (hopcode : opcode ≠ 0)
    (hbytes : bytes.length ≤ 2) : Dense (opcode :: bytes) := by
  refine ⟨fun b hb => ?_, fun i hi => ?_⟩
  · cases hb
    exact hopcode
  · rw [List.length_cons] at hi ⊢
    rcases Nat.eq_zero_or_pos i with rfl | hpos
    · exact ⟨0, Nat.zero_le 2, .inr ⟨opcode, rfl, hopcode⟩⟩
    · exact ⟨bytes.length + 1 - i, by omega, .inl (by omega)⟩

theorem append {bytes bytes' : List UInt8} (h : Dense bytes) (h' : Dense bytes') :
    Dense (bytes ++ bytes') := by
  refine ⟨fun b hb => ?_, fun i hi => ?_⟩
  · cases bytes with
    | nil => exact h'.head b hb
    | cons opcode bytes => exact h.head b hb
  · rw [List.length_append] at hi ⊢
    rcases Nat.lt_or_ge i bytes.length with hlt | hge
    · obtain ⟨j, hj, hend | ⟨b, hb, hne⟩⟩ := h.near i hlt
      · -- the end of the first part is the end of all or the head of the second
        cases bytes' with
        | nil => exact ⟨j, hj, .inl (by simpa using hend)⟩
        | cons opcode bytes' =>
            refine ⟨j, hj, .inr ⟨opcode, ?_, h'.head opcode rfl⟩⟩
            rw [hend, List.getElem?_append_right (Nat.le_refl _), Nat.sub_self]
            rfl
      · obtain ⟨hij, -⟩ := List.getElem?_eq_some_iff.1 hb
        exact ⟨j, hj, .inr ⟨b, by rw [List.getElem?_append_left hij]; exact hb, hne⟩⟩
    · obtain ⟨j, hj, hend | ⟨b, hb, hne⟩⟩ := h'.near (i - bytes.length) (by omega)
      · exact ⟨j, hj, .inl (by omega)⟩
      · refine ⟨j, hj, .inr ⟨b, ?_, hne⟩⟩
        rw [List.getElem?_append_right (by omega),
          show i + j - bytes.length = i - bytes.length + j by omega]
        exact hb

/-- With a nonzero byte behind it, dense code has a nonzero byte at most two
bytes from every one of its bytes. -/
theorem concat {bytes : List UInt8} (h : Dense bytes) (last : UInt8) (hlast : last ≠ 0) {i : Nat}
    (hi : i < (bytes ++ [last]).length) :
    ∃ j ≤ 2, ∃ b, (bytes ++ [last])[i + j]? = some b ∧ b ≠ 0 := by
  rw [List.length_append, List.length_singleton] at hi
  rcases Nat.lt_or_ge i bytes.length with hlt | hge
  · obtain ⟨j, hj, hend | ⟨b, hb, hne⟩⟩ := h.near i hlt
    · exact ⟨j, hj, last, by rw [hend]; exact List.getElem?_concat_length, hlast⟩
    · obtain ⟨hij, -⟩ := List.getElem?_eq_some_iff.1 hb
      exact ⟨j, hj, b, by rw [List.getElem?_append_left hij]; exact hb, hne⟩
  · obtain rfl : i = bytes.length := by omega
    exact ⟨0, Nat.zero_le 2, last, List.getElem?_concat_length, hlast⟩

end Dense

/-! ## Encoded lines -/

theorem table_opcode_ne_zero :
    (Cpu.table.all fun entry => entry.1 != 0 || entry.2.1 == .brk) = true := by
  decide +kernel

/-- Only one instruction has the opcode zero. -/
theorem opcode_ne_zero {m : Cpu.Mnemonic} {mode : Cpu.Mode} {opcode : UInt8}
    (h : Cpu.opcode? m mode = some opcode) (hm : m ≠ .brk) : opcode ≠ 0 := by
  have hentry := List.all_eq_true.1 table_opcode_ne_zero _ (Cpu.mem_table h)
  simpa [hm] using hentry

/-- A line without the instruction whose opcode is zero. -/
def Line.NoBreak : Line → Prop
  | .op m _ => m ≠ .brk
  | .branch m _ => m ≠ .brk
  | _ => True

theorem dense_of_encode? {m : Cpu.Mnemonic} {o : Cpu.Operand} {bytes : List UInt8}
    (h : Cpu.encode? m o = some bytes) (hm : m ≠ .brk) : Dense bytes := by
  obtain ⟨opcode, hopcode, rfl⟩ := Option.map_eq_some_iff.1 h
  refine .cons (opcode_ne_zero hopcode hm) ?_
  rw [Cpu.Operand.length_bytes]
  cases o.mode <;> decide

theorem Line.NoBreak.dense {line : Line} (hline : line.NoBreak)
    {labels : LabelId → Option UInt16} {here : UInt16} {bytes : List UInt8}
    (h : line.encode? labels here = some bytes) : Dense bytes := by
  cases line with
  | op m o => exact dense_of_encode? h hline
  | mark l =>
      cases h
      exact .nil
  | jump l =>
      obtain ⟨a, -, ha⟩ := Option.bind_eq_some_iff.1 h
      exact dense_of_encode? ha (by decide)
  | branch m l =>
      obtain ⟨a, -, ha⟩ := Option.bind_eq_some_iff.1 h
      obtain ⟨d, -, hd⟩ := Option.bind_eq_some_iff.1 ha
      exact dense_of_encode? hd hline
  | spin => exact dense_of_encode? h (by decide)

theorem dense_of_encodeAll? {lines : List Line} (hlines : ∀ line ∈ lines, line.NoBreak)
    {labels : LabelId → Option UInt16} {here : UInt16} {bytes : List UInt8}
    (h : Line.encodeAll? labels here lines = some bytes) : Dense bytes := by
  induction lines generalizing here bytes with
  | nil =>
      cases h
      exact .nil
  | cons line lines ih =>
      obtain ⟨first, rest, hfirst, hrest, rfl⟩ := Line.encodeAll?_cons_iff.1 h
      have hdense := (hlines line (by simp)).dense hfirst
      exact hdense.append (ih (fun l hl => hlines l (by simp [hl])) hrest)

/-! ## Segments -/

theorem Site.noBreak_of_select {site : Site} {i : Instr} {lines : List Line}
    (h : site.select i = .ok lines) : ∀ line ∈ lines, line.NoBreak := by
  cases i with
  | copy dest src width =>
      obtain ⟨d, s, byte, -, -, -, rfl⟩ := select_copy h
      intro line hline
      obtain ⟨k, -, hk⟩ := List.mem_flatMap.1 hline
      simp only [List.mem_cons, List.not_mem_nil, or_false] at hk
      rcases hk with rfl | rfl <;> simp [Line.NoBreak, store]
  | widen dest src =>
      obtain ⟨d, s, -, -, rfl⟩ := select_widen h
      simp [Line.NoBreak, load, store]
  | label l =>
      cases h
      simp [Line.NoBreak]
  | jump l =>
      cases h
      simp [Line.NoBreak]
  | branchZero src l =>
      obtain ⟨s, -, rfl⟩ := select_branchZero h
      simp [Line.NoBreak, load]
  | branchNonzero src l =>
      obtain ⟨s, -, rfl⟩ := select_branchNonzero h
      simp [Line.NoBreak, load]
  | halt =>
      cases h
      simp [Line.NoBreak]

theorem Selected.noBreak {tree : BlockTree} {storage : Storage} {code : Code}
    {lines : List (List Line)} (h : Selected tree storage code lines) :
    ∀ line ∈ lines.flatten, line.NoBreak := by
  induction h with
  | nil => simp
  | cons hselect _ ih =>
      intro line hline
      rw [List.flatten_cons, List.mem_append] at hline
      exact hline.elim (Site.noBreak_of_select hselect line) (ih line)

/-- The main segment is dense code and the opcode of the interrupt handler
behind it. -/
theorem Generator.dense_mainSegment {tree : BlockTree} {storage : Storage}
    {base handler : UInt16} {segment : Segment}
    (h : mainSegment tree storage base = .ok (segment, handler)) :
    ∃ code, Dense code ∧ segment.bytes.toList = code ++ [0x40] ∧ segment.origin = base ∧
      base.toNat + segment.size ≤ 0x10000 ∧ handler = base + UInt16.ofNat code.length := by
  obtain ⟨lines, labels, hselected, hassembled, hhandler⟩ := mainSegment_assembled h
  obtain ⟨code, rti, hcode, hrti, hbytes⟩ := Line.encodeAll?_append_iff.1 hassembled.bytes
  obtain rfl : rti = [0x40] := Option.some.inj (hrti.symm.trans rfl)
  refine ⟨code, dense_of_encodeAll? ?_ hcode, hbytes, hassembled.origin, hassembled.fits, ?_⟩
  · intro line hline
    rw [List.mem_append, List.mem_append] at hline
    rcases hline with (hline | hline) | hline
    · simp only [prologue, List.mem_cons, List.not_mem_nil, or_false] at hline
      rcases hline with rfl | rfl | rfl | rfl <;> simp [Line.NoBreak]
    · exact hselected.noBreak line hline
    · rw [List.mem_singleton] at hline
      subst hline
      trivial
  · rw [hhandler, Line.length_of_encodeAll? hcode]

end Cartridge
