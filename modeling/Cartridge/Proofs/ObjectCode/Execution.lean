/-
# `Cartridge.Proofs.ObjectCode.Execution` — the processor runs assembled lines

Between two instructions of a block only the program counter and the memory
matter: every instruction loads what it tests or stores.  So what lines do is
said of these two alone, whatever stands in the registers (`Goes`).

    LDA o   STA d        one byte goes from `o` to `d`            2 steps
    LDA s   BEQ L        to `L` if the byte at `s` is zero        2 steps
    JMP L                to `L`                                    1 step
    JMP *                the machine spins

The lines stand where the processor fetches them for as long as an invariant of
the memory holds, and a store to a writable address keeps it.  For code in a
read-only bank the invariant is that the bank holds the image.
-/
import Cartridge.Proofs.BlockTree.Meaning
import Cartridge.Proofs.Cpu.Machine
import Cartridge.Proofs.ObjectCode.Layout

namespace Cartridge

open Cpu

/-! ## Operands of a load -/

/-- The byte that an operand of a load stands for. -/
def Cpu.Operand.byte? (m : Memory) : Operand → Option UInt8
  | .immediate b => some b
  | .zeroPage a => some (m a.toUInt16)
  | .absolute a => some (m a)
  | _ => none

theorem toUInt16_toUInt8 {a : UInt16} (h : a ≤ 0xFF) : a.toUInt8.toUInt16 = a := by
  apply UInt16.toNat_inj.1
  have := UInt16.le_iff_toNat_le.1 h
  simp only [UInt8.toNat_toUInt16, UInt16.toNat_toUInt8, UInt16.reduceToNat] at this ⊢
  omega

/-- Both encodings of an address read the same byte. -/
theorem Cpu.Operand.byte?_memory (m : Memory) (a : UInt16) :
    (Operand.memory a).byte? m = some (m a) := by
  unfold Operand.memory
  split
  · next ha => rw [byte?, toUInt16_toUInt8 ha]
  · rfl

/-! ## Runs and lines -/

/-- From one address and memory to another in `k` steps, whatever the registers
hold. -/
def Cpu.Bus.Goes (bus : Bus) (k : Nat) (pc : UInt16) (m : Memory) (pc' : UInt16) (m' : Memory) :
    Prop :=
  ∀ s : State, s.pc = pc → s.memory = m →
    ∃ s', bus.run k s = some s' ∧ s'.pc = pc' ∧ s'.memory = m'

namespace Cpu.Bus

theorem Goes.refl (bus : Bus) (pc : UInt16) (m : Memory) : bus.Goes 0 pc m pc m :=
  fun s hpc hm => ⟨s, rfl, hpc, hm⟩

theorem Goes.trans {bus : Bus} {k k' : Nat} {pc pc' pc'' : UInt16} {m m' m'' : Memory}
    (h : bus.Goes k pc m pc' m') (h' : bus.Goes k' pc' m' pc'' m'') :
    bus.Goes (k + k') pc m pc'' m'' := by
  intro s hpc hm
  obtain ⟨s', hrun, hpc', hm'⟩ := h s hpc hm
  obtain ⟨s'', hrun', hpc'', hm''⟩ := h' s' hpc' hm'
  exact ⟨s'', run_trans hrun hrun', hpc'', hm''⟩

/-- Stores to writable addresses keep what is known of the memory. -/
def Keeps (bus : Bus) (known : Memory → Prop) : Prop :=
  ∀ m a b, known m → bus.writable a → known (m.set a b)

/-- The encoded lines are fetched from address `a` on. -/
def Stands (bus : Bus) (known : Memory → Prop) (labels : LabelId → Option UInt16) (a : UInt16)
    (lines : List Line) : Prop :=
  ∃ bytes, Line.encodeAll? labels a lines = some bytes ∧ ∀ m, known m → bus.Shows m a bytes

variable {bus : Bus} {known : Memory → Prop} {labels : LabelId → Option UInt16} {a : UInt16}

/-- Lines that stand as a whole stand one part behind the other. -/
theorem Stands.of_append {lines lines' : List Line}
    (h : bus.Stands known labels a (lines ++ lines')) :
    bus.Stands known labels a lines ∧
      bus.Stands known labels (a + UInt16.ofNat (Line.sizeAll lines)) lines' := by
  obtain ⟨_, hall, hshows⟩ := h
  obtain ⟨bytes, rest, hbytes, hrest, rfl⟩ := Line.encodeAll?_append_iff.1 hall
  refine ⟨⟨bytes, hbytes, fun m hm => (hshows m hm).left⟩, rest, hrest, fun m hm => ?_⟩
  rw [← Line.length_of_encodeAll? hbytes]
  exact (hshows m hm).right

theorem Stands.of_cons {line : Line} {lines : List Line}
    (h : bus.Stands known labels a (line :: lines)) :
    bus.Stands known labels a [line] ∧
      bus.Stands known labels (a + UInt16.ofNat line.size) lines := by
  have hall : bus.Stands known labels a ([line] ++ lines) := h
  simpa using hall.of_append

theorem Stands.line {line : Line} (h : bus.Stands known labels a [line]) :
    ∃ bytes, line.encode? labels a = some bytes ∧ ∀ m, known m → bus.Shows m a bytes := by
  obtain ⟨_, hall, hshows⟩ := h
  obtain ⟨bytes, rest, hbytes, ⟨⟩, rfl⟩ := Line.encodeAll?_cons_iff.1 hall
  exact ⟨bytes, hbytes, fun m hm => (hshows m hm).left⟩

/-- The machine executes the instruction that stands where it is. -/
theorem Stands.step {m : Mnemonic} {o : Operand} (h : bus.Stands known labels a [.op m o])
    {s : State} (hpc : s.pc = a) (hm : known s.memory) :
    bus.step s = bus.execute (s.advance (Line.op m o).size) m o := by
  obtain ⟨bytes, hbytes, hshows⟩ := h.line
  subst hpc
  rw [step_of_shows hbytes (hshows _ hm), Line.length_of_encode? hbytes]

/-! ## Moving bytes -/

theorem execute_lda (bus : Bus) {s : State} {o : Operand} {b : UInt8}
    (h : o.byte? s.memory = some b) : bus.execute s .lda o = some (s.load b) := by
  cases o with
  | immediate c => rw [← Option.some.inj h]; rfl
  | zeroPage c => rw [← Option.some.inj h]; rfl
  | absolute c => rw [← Option.some.inj h]; rfl
  | _ => cases h

/-- Both encodings of an address store to it. -/
theorem execute_sta (bus : Bus) (s : State) (d : UInt16) :
    bus.execute s .sta (.memory d) = bus.store s d := by
  unfold Operand.memory
  split
  · next hd =>
      show bus.store s d.toUInt8.toUInt16 = bus.store s d
      rw [toUInt16_toUInt8 hd]
  · rfl

/-- A load and a store move one byte. -/
theorem Stands.move {o : Operand} {d : UInt16} {m : Memory} {b : UInt8}
    (h : bus.Stands known labels a [.op .lda o, Site.store d]) (hm : known m)
    (hb : o.byte? m = some b) (hd : bus.writable d) :
    bus.Goes 2 a m (a + UInt16.ofNat (Line.sizeAll [.op .lda o, Site.store d])) (m.set d b) := by
  obtain ⟨hload, hstore⟩ := h.of_cons
  intro s hpc hs
  subst hs
  have hstep₁ : bus.step s = some ((s.advance (Line.op .lda o).size).load b) := by
    rw [hload.step hpc hm]
    exact bus.execute_lda hb
  have hpc₁ : ((s.advance (Line.op .lda o).size).load b).pc =
      a + UInt16.ofNat (Line.op .lda o).size := by
    rw [← hpc]
    rfl
  have hstep₂ := (hstore.step hpc₁ hm).trans (bus.execute_sta _ d)
  rw [store, if_pos hd] at hstep₂
  refine ⟨_, run_trans (run_one hstep₁) (run_one hstep₂), ?_, rfl⟩
  rw [Line.sizeAll_cons, Line.sizeAll_cons, Line.sizeAll_nil, Nat.add_zero,
    ← add_ofNat_add_ofNat, ← hpc₁]
  rfl

/-- Loads and stores in a row copy the bytes of a source. -/
theorem Stands.copy (hkeeps : bus.Keeps known) {byte : Nat → Operand} {d : UInt16}
    {source : Source} (hbyte : ∀ m i, (byte i).byte? m = some (source.byte m i)) {i n : Nat}
    (hd : ∀ j < n, bus.writable (d + UInt16.ofNat (i + j))) {m : Memory} (hm : known m)
    (h : bus.Stands known labels a ((List.range' i n).flatMap fun i =>
      [.op .lda (byte i), Site.store (d + UInt16.ofNat i)])) :
    bus.Goes (2 * n) a m
      (a + UInt16.ofNat (Line.sizeAll ((List.range' i n).flatMap fun i =>
        [.op .lda (byte i), Site.store (d + UInt16.ofNat i)]))) (m.copy d source i n) := by
  induction n generalizing i a m with
  | zero =>
      rw [List.range'_zero, List.flatMap_nil, Line.sizeAll_nil, add_ofNat_zero]
      exact .refl bus a m
  | succ n ih =>
      rw [List.range'_succ, List.flatMap_cons] at h ⊢
      obtain ⟨hfirst, hrest⟩ := h.of_append
      have hd₀ : bus.writable (d + UInt16.ofNat i) := hd 0 (Nat.succ_pos n)
      have hmove := hfirst.move hm (hbyte m i) hd₀
      have hcopy := ih (fun j hj => by
        rw [show i + 1 + j = i + (j + 1) by omega]
        exact hd (j + 1) (Nat.succ_lt_succ hj)) (hkeeps m _ (source.byte m i) hm hd₀) hrest
      rw [Line.sizeAll_append, ← add_ofNat_add_ofNat, Nat.mul_succ, Nat.add_comm]
      exact hmove.trans hcopy

/-- Copying to writable addresses keeps what is known of the memory. -/
theorem Keeps.copy (hkeeps : bus.Keeps known) {d : UInt16} {source : Source} {i n : Nat}
    (hd : ∀ j < n, bus.writable (d + UInt16.ofNat (i + j))) {m : Memory} (hm : known m) :
    known (m.copy d source i n) := by
  induction n generalizing i m with
  | zero => exact hm
  | succ n ih =>
      refine ih (fun j hj => ?_) (hkeeps m _ _ hm (hd 0 (Nat.succ_pos n)))
      rw [show i + 1 + j = i + (j + 1) by omega]
      exact hd (j + 1) (Nat.succ_lt_succ hj)

/-! ## Going elsewhere -/

/-- A branch over a displacement leads to its target. -/
theorem distance_of_displacement {source target : UInt16} {d : UInt8}
    (h : displacement source target = .ok d) :
    source + UInt16.ofNat 2 + State.distance d = target := by
  unfold displacement at h
  dsimp only at h
  split at h
  · next hdelta =>
      cases h
      apply UInt16.toNat_inj.1
      have hs := source.toNat_lt
      have ht := target.toNat_lt
      unfold State.distance
      split
      · next hd =>
          rw [UInt8.lt_iff_toNat_lt] at hd
          simp only [UInt16.toNat_add, UInt16.toNat_ofNat', UInt8.toNat_toUInt16,
            UInt8.toNat_ofNat', UInt8.reduceToNat] at hd ⊢
          omega
      · next hd =>
          rw [UInt8.lt_iff_toNat_lt] at hd
          simp only [UInt16.toNat_add, UInt16.toNat_ofNat', UInt8.toNat_toUInt16,
            UInt8.toNat_ofNat', UInt8.reduceToNat, UInt16.reduceToNat] at hd ⊢
          omega
  · cases h

/-- A load and a branch test one byte; `taken` says what the branch makes of the
zero flag. -/
theorem Stands.branch {mnemonic : Mnemonic} {s : UInt16} {l : LabelId} {m : Memory}
    (taken : Bool → Bool)
    (htaken : ∀ s d, bus.execute s mnemonic (.relative d) = some (s.branch (taken s.zero) d))
    (h : bus.Stands known labels a [Site.load s, .branch mnemonic l]) (hm : known m) :
    ∃ target, labels l = some target ∧
      bus.Goes 2 a m (if taken (m s == 0) then target
        else a + UInt16.ofNat (Line.sizeAll [Site.load s, .branch mnemonic l])) m := by
  obtain ⟨hload, hbranch⟩ := h.of_cons
  obtain ⟨bytes, hencode, hshows⟩ := hbranch.line
  have hlength := Line.length_of_encode? hencode
  obtain ⟨target, htarget, hencode⟩ := Option.bind_eq_some_iff.1 hencode
  obtain ⟨d, hd, hbytes⟩ := Option.bind_eq_some_iff.1 hencode
  rw [toOption_eq_some_iff] at hd
  refine ⟨target, htarget, fun st hpc hst => ?_⟩
  subst hst
  have hstep₁ : bus.step st = some ((st.advance (Site.load s).size).load (st.memory s)) := by
    rw [Stands.step hload hpc hm]
    exact bus.execute_lda (Operand.byte?_memory ..)
  have hpc₁ : ((st.advance (Site.load s).size).load (st.memory s)).pc =
      a + UInt16.ofNat (Site.load s).size := by
    rw [← hpc]
    rfl
  have hstep₂ := step_of_shows hbytes (by rw [hpc₁]; exact hshows _ hm)
  rw [htaken, hlength] at hstep₂
  refine ⟨_, run_trans (run_one hstep₁) (run_one hstep₂), ?_, ?_⟩
  · show (State.branch _ (taken (st.memory s == 0)) d).pc = _
    cases taken (st.memory s == 0) with
    | true =>
        rw [if_pos rfl, ← distance_of_displacement hd, ← hpc₁]
        rfl
    | false =>
        rw [Line.sizeAll_cons, Line.sizeAll_cons, Line.sizeAll_nil, Nat.add_zero,
          ← add_ofNat_add_ofNat, ← hpc₁]
        rfl
  · show (State.branch _ (taken (st.memory s == 0)) d).memory = _
    cases taken (st.memory s == 0) <;> rfl

/-- A jump goes to the address of its label. -/
theorem Stands.jump {l : LabelId} {m : Memory} (h : bus.Stands known labels a [.jump l])
    (hm : known m) : ∃ target, labels l = some target ∧ bus.Goes 1 a m target m := by
  obtain ⟨bytes, hencode, hshows⟩ := h.line
  obtain ⟨target, htarget, hbytes⟩ := Option.bind_eq_some_iff.1 hencode
  refine ⟨target, htarget, fun s hpc hs => ?_⟩
  subst hs hpc
  have hstep := step_of_shows hbytes (hshows _ hm)
  exact ⟨_, run_one hstep, rfl, rfl⟩

/-- At a jump to itself the machine spins. -/
theorem Stands.spin (h : bus.Stands known labels a [.spin]) {s : State} (hpc : s.pc = a)
    (hm : known s.memory) : bus.Spins s := by
  obtain ⟨bytes, hbytes, hshows⟩ := h.line
  subst hpc
  cases hbytes
  exact instruction?_of_shows rfl (hshows _ hm)

end Cpu.Bus

end Cartridge
