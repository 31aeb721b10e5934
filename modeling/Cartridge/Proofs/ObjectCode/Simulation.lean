/-
# `Cartridge.Proofs.ObjectCode.Simulation` — machine code does what the tree says

The code of a tree and its machine code are compared position by position: the
instruction at `pos` has its lines at `address pos`, and the machine is *at* a
position if its program counter is that address.  Registers do not matter
there.

    one instruction      one run of the machine between two positions      (`Loaded.step`)
    n instructions       a run of the machine                              (`Loaded.steps`)
    no instruction       only at the end of the code or at a halt          (`Loaded.progress`)
    any long run         of the machine passes through such positions      (`Loaded.covers`)

An instruction takes no step of the machine only if it is a label, and then the
next position is taken.  So code that goes on forever keeps the machine going.
-/
import Cartridge.Proofs.ObjectCode.Selection

namespace Cartridge

open Cpu

/-- The addresses that an instruction stores to. -/
def Names.Stores (names : Names) (block : BlockId) : Instr → UInt16 → Prop
  | .copy dest _ width, a =>
      ∃ d, names.Locates block dest d ∧ ∃ i < width.bytes, a = d + UInt16.ofNat i
  | .widen dest _, a => ∃ d, names.Locates block dest d ∧ ∃ i < 2, a = d + UInt16.ofNat i
  | _, _ => False

/-- The machine code of `code` is fetched from the addresses of its positions,
and every store in it is allowed. -/
structure Loaded (bus : Bus) (known : Memory → Prop) (tree : BlockTree) (storage : Storage)
    (code : Code) (labels : LabelId → Option UInt16) (address : Nat → UInt16) : Prop where
  keeps : bus.Keeps known
  confined : ∀ block i a, (block, i) ∈ code → (tree.names storage).Stores block i a →
    bus.writable a
  stands : ∀ (pos : Nat) block i, code[pos]? = some (block, i) →
    ∃ lines, Site.select ⟨tree, storage, block⟩ i = .ok lines ∧
      bus.Stands known labels (address pos) lines ∧
      address (pos + 1) = address pos + UInt16.ofNat (Line.sizeAll lines)
  marked : ∀ l pos, code.Marks l pos → labels l = some (address pos)
  labelled : ∀ l a, labels l = some a → ∃ pos, code.Marks l pos

theorem BlockTree.locates_unique {tree : BlockTree} {storage : Storage} {block : BlockId}
    {p : Place} {a a' : UInt16} (h : (tree.names storage).Locates block p a)
    (h' : (tree.names storage).Locates block p a') : a = a' := by
  obtain ⟨start, hstart, rfl⟩ := h
  obtain ⟨start', hstart', rfl⟩ := h'
  rw [names_unique hstart hstart']

theorem BlockTree.denotes_unique {tree : BlockTree} {storage : Storage} {block : BlockId}
    {v : Value} {s s' : Source} (h : (tree.names storage).Denotes block v s)
    (h' : (tree.names storage).Denotes block v s') : s = s' := by
  cases h with
  | immediate n => cases h'; rfl
  | place h =>
      cases h' with
      | place h' => rw [locates_unique h h']
  | addressOf h =>
      cases h' with
      | addressOf h' => rw [names_unique h h']

namespace Loaded

variable {bus : Bus} {known : Memory → Prop} {tree : BlockTree} {storage : Storage} {code : Code}
  {labels : LabelId → Option UInt16} {address : Nat → UInt16}

/-- A jump goes to the address of its label. -/
theorem jump (h : Loaded bus known tree storage code labels address) {m : Memory} (hm : known m)
    {pos : Nat} {block : BlockId} {l : LabelId} (hi : code[pos]? = some (block, .jump l)) :
    ∃ a, labels l = some a ∧ bus.Goes 1 (address pos) m a m := by
  obtain ⟨lines, hselect, hstands, -⟩ := h.stands _ _ _ hi
  cases hselect
  exact hstands.jump hm

/-- A branch on zero tests one byte, and goes to its label or on. -/
theorem branchZero (h : Loaded bus known tree storage code labels address) {m : Memory}
    (hm : known m) {pos : Nat} {block : BlockId} {src : Place} {l : LabelId}
    (hi : code[pos]? = some (block, .branchZero src l)) :
    ∃ s a, (tree.names storage).Locates block src s ∧ labels l = some a ∧
      bus.Goes 2 (address pos) m (if m s = 0 then a else address (pos + 1)) m := by
  obtain ⟨lines, hselect, hstands, hnext⟩ := h.stands _ _ _ hi
  obtain ⟨s, hs, rfl⟩ := Site.select_branchZero hselect
  obtain ⟨a, ha, hgoes⟩ := hstands.branch id (fun _ _ => rfl) hm
  refine ⟨s, a, hs, ha, ?_⟩
  rw [hnext]
  simpa using hgoes

/-- A branch on nonzero goes the other way. -/
theorem branchNonzero (h : Loaded bus known tree storage code labels address) {m : Memory}
    (hm : known m) {pos : Nat} {block : BlockId} {src : Place} {l : LabelId}
    (hi : code[pos]? = some (block, .branchNonzero src l)) :
    ∃ s a, (tree.names storage).Locates block src s ∧ labels l = some a ∧
      bus.Goes 2 (address pos) m (if m s = 0 then address (pos + 1) else a) m := by
  obtain ⟨lines, hselect, hstands, hnext⟩ := h.stands _ _ _ hi
  obtain ⟨s, hs, rfl⟩ := Site.select_branchNonzero hselect
  obtain ⟨a, ha, hgoes⟩ := hstands.branch not (fun _ _ => rfl) hm
  refine ⟨s, a, hs, ha, ?_⟩
  rw [hnext]
  simpa using hgoes

/-- One instruction is one run of the machine. -/
theorem step (h : Loaded bus known tree storage code labels address) {pos pos' : Nat}
    {m m' : Memory} (hm : known m) (hstep : code.Step (tree.names storage) pos m pos' m') :
    ∃ k, bus.Goes k (address pos) m (address pos') m' ∧ known m' ∧ (k = 0 → pos' = pos + 1) := by
  cases hstep with
  | @copy block dest src width d s hi hd hs =>
      obtain ⟨lines, hselect, hstands, hnext⟩ := h.stands _ _ _ hi
      obtain ⟨d', s', byte, hd', hs', hbyte, rfl⟩ := Site.select_copy hselect
      obtain rfl := BlockTree.locates_unique hd hd'
      obtain rfl := BlockTree.denotes_unique hs hs'
      have hwrite : ∀ j < width.bytes, bus.writable (d + UInt16.ofNat (0 + j)) := by
        intro j hj
        refine h.confined _ _ _ (List.mem_of_getElem? hi) ⟨d, hd, j, hj, ?_⟩
        rw [Nat.zero_add]
      rw [hnext]
      refine ⟨_, hstands.copy h.keeps hbyte hwrite hm, h.keeps.copy hwrite hm, fun hk => ?_⟩
      cases width <;> cases hk
  | @widen block dest src d s hi hd hs =>
      obtain ⟨lines, hselect, hstands, hnext⟩ := h.stands _ _ _ hi
      obtain ⟨d', s', hd', hs', rfl⟩ := Site.select_widen hselect
      obtain rfl := BlockTree.locates_unique hd hd'
      obtain rfl := BlockTree.locates_unique hs hs'
      have hwrite : ∀ j < 2, bus.writable (d + UInt16.ofNat j) := fun j hj =>
        h.confined _ _ _ (List.mem_of_getElem? hi) ⟨d, hd, j, hj, rfl⟩
      have hd₀ : bus.writable d := by simpa using hwrite 0 (by decide)
      have hd₁ : bus.writable (d + 1) := hwrite 1 (by decide)
      obtain ⟨hlow, hhigh⟩ := hstands.of_append
      have hm₁ := h.keeps m d (m s) hm hd₀
      have hgoes₁ := hlow.move hm (Operand.byte?_memory m s) hd₀
      have hgoes₂ := hhigh.move hm₁ (b := 0) rfl hd₁
      rw [hnext, Line.sizeAll_append, ← add_ofNat_add_ofNat]
      exact ⟨4, hgoes₁.trans hgoes₂, h.keeps _ _ 0 hm₁ hd₁, by simp⟩
  | label hi =>
      obtain ⟨lines, hselect, -, hnext⟩ := h.stands _ _ _ hi
      cases hselect
      rw [hnext]
      refine ⟨0, ?_, hm, fun _ => rfl⟩
      rw [show Line.sizeAll [.mark _] = 0 from rfl, add_ofNat_zero]
      exact .refl bus _ _
  | jump hi hl =>
      obtain ⟨a, ha, hgoes⟩ := h.jump hm hi
      obtain rfl := Option.some.inj ((h.marked _ _ hl).symm.trans ha)
      exact ⟨1, hgoes, hm, by simp⟩
  | zeroTaken hi hs hz hl =>
      obtain ⟨s, a, hs', ha, hgoes⟩ := h.branchZero hm hi
      obtain rfl := BlockTree.locates_unique hs hs'
      obtain rfl := Option.some.inj ((h.marked _ _ hl).symm.trans ha)
      rw [if_pos hz] at hgoes
      exact ⟨2, hgoes, hm, by simp⟩
  | zeroPassed hi hs hz =>
      obtain ⟨s, a, hs', -, hgoes⟩ := h.branchZero hm hi
      obtain rfl := BlockTree.locates_unique hs hs'
      rw [if_neg hz] at hgoes
      exact ⟨2, hgoes, hm, by simp⟩
  | nonzeroTaken hi hs hz hl =>
      obtain ⟨s, a, hs', ha, hgoes⟩ := h.branchNonzero hm hi
      obtain rfl := BlockTree.locates_unique hs hs'
      obtain rfl := Option.some.inj ((h.marked _ _ hl).symm.trans ha)
      rw [if_neg hz] at hgoes
      exact ⟨2, hgoes, hm, by simp⟩
  | nonzeroPassed hi hs hz =>
      obtain ⟨s, a, hs', -, hgoes⟩ := h.branchNonzero hm hi
      obtain rfl := BlockTree.locates_unique hs hs'
      rw [if_pos hz] at hgoes
      exact ⟨2, hgoes, hm, by simp⟩

/-- A run of the code is a run of the machine. -/
theorem steps (h : Loaded bus known tree storage code labels address) {n pos pos' : Nat}
    {m m' : Memory} (hm : known m) (hsteps : code.Steps (tree.names storage) n pos m pos' m') :
    ∃ k, bus.Goes k (address pos) m (address pos') m' ∧ known m' := by
  induction hsteps with
  | refl pos m => exact ⟨0, .refl bus _ _, hm⟩
  | tail _ hstep ih =>
      obtain ⟨k, hgoes, hm₁⟩ := ih hm
      obtain ⟨k', hgoes', hm₂, -⟩ := h.step hm₁ hstep
      exact ⟨k + k', hgoes.trans hgoes', hm₂⟩

/-- At a halt the machine spins. -/
theorem spins (h : Loaded bus known tree storage code labels address) {pos : Nat}
    (hhalt : code.Halts pos) {s : State} (hpc : s.pc = address pos) (hm : known s.memory) :
    bus.Spins s := by
  obtain ⟨block, hi⟩ := hhalt
  obtain ⟨lines, hselect, hstands, -⟩ := h.stands _ _ _ hi
  cases hselect
  exact hstands.spin hpc hm

/-- Code stops at its end and at halts only. -/
theorem progress (h : Loaded bus known tree storage code labels address) {m : Memory}
    (hm : known m) {pos : Nat} (hpos : pos ≤ code.length) :
    pos = code.length ∨ code.Halts pos ∨
      ∃ pos' m', code.Step (tree.names storage) pos m pos' m' := by
  rcases Nat.lt_or_eq_of_le hpos with hlt | rfl
  · refine .inr ?_
    obtain ⟨⟨block, i⟩, hi⟩ : ∃ entry, code[pos]? = some entry :=
      ⟨_, List.getElem?_eq_getElem hlt⟩
    obtain ⟨lines, hselect, -, -⟩ := h.stands _ _ _ hi
    cases i with
    | copy dest src width =>
        obtain ⟨d, s, byte, hd, hs, -, -⟩ := Site.select_copy hselect
        exact .inr ⟨_, _, .copy hi hd hs⟩
    | widen dest src =>
        obtain ⟨d, s, hd, hs, -⟩ := Site.select_widen hselect
        exact .inr ⟨_, _, .widen hi hd hs⟩
    | label l => exact .inr ⟨_, _, .label hi⟩
    | jump l =>
        obtain ⟨a, ha, -⟩ := h.jump hm hi
        obtain ⟨target, hl⟩ := h.labelled l a ha
        exact .inr ⟨_, _, .jump hi hl⟩
    | branchZero src l =>
        obtain ⟨s, a, hs, ha, -⟩ := h.branchZero hm hi
        obtain ⟨target, hl⟩ := h.labelled l a ha
        by_cases hz : m s = 0
        · exact .inr ⟨_, _, .zeroTaken hi hs hz hl⟩
        · exact .inr ⟨_, _, .zeroPassed hi hs hz⟩
    | branchNonzero src l =>
        obtain ⟨s, a, hs, ha, -⟩ := h.branchNonzero hm hi
        obtain ⟨target, hl⟩ := h.labelled l a ha
        by_cases hz : m s = 0
        · exact .inr ⟨_, _, .nonzeroPassed hi hs hz⟩
        · exact .inr ⟨_, _, .nonzeroTaken hi hs hz hl⟩
    | halt => exact .inl ⟨block, hi⟩
  · exact .inl rfl

/-- From every position the machine goes on, or the code ends.  Labels take no
step, so the induction is on the code left behind a label. -/
theorem goes_on (h : Loaded bus known tree storage code labels address) {m : Memory}
    (hm : known m) {pos : Nat} (hpos : pos ≤ code.length) :
    ∃ n pos' m' k, code.Steps (tree.names storage) n pos m pos' m' ∧ known m' ∧
      bus.Goes k (address pos) m (address pos') m' ∧ (1 ≤ k ∨ pos' = code.length) := by
  induction hleft : code.length - pos generalizing pos m with
  | zero => exact ⟨0, pos, m, 0, .refl pos m, hm, .refl bus _ _, .inr (by omega)⟩
  | succ left ih =>
      rcases h.progress hm hpos with rfl | hhalt | ⟨pos', m', hstep⟩
      · omega
      · refine ⟨0, pos, m, 1, .refl pos m, hm, fun s hpc hs => ?_, .inl (Nat.le_refl 1)⟩
        subst hs
        exact ⟨s, (h.spins hhalt hpc hm).run 1, hpc, rfl⟩
      · obtain ⟨k, hgoes, hm', hzero⟩ := h.step hm hstep
        rcases Nat.eq_zero_or_pos k with rfl | hk
        · obtain rfl := hzero rfl
          obtain ⟨n, pos'', m'', k, hsteps, hm'', hgoes', hend⟩ :=
            ih hm' hstep.le_length (by omega)
          exact ⟨1 + n, pos'', m'', 0 + k, (Code.Steps.one hstep).trans hsteps, hm'',
            hgoes.trans hgoes', by rwa [Nat.zero_add]⟩
        · exact ⟨1, pos', m', k, .one hstep, hm', hgoes, .inl hk⟩

/-- However long the machine runs, a run of the code takes it further, or to the
end. -/
theorem covers (h : Loaded bus known tree storage code labels address) {m : Memory}
    (hm : known m) (k : Nat) :
    ∃ n pos m' j, code.Steps (tree.names storage) n 0 m pos m' ∧
      bus.Goes j (address 0) m (address pos) m' ∧ (k ≤ j ∨ pos = code.length) := by
  suffices hknown : ∃ n pos m' j, code.Steps (tree.names storage) n 0 m pos m' ∧ known m' ∧
      bus.Goes j (address 0) m (address pos) m' ∧ (k ≤ j ∨ pos = code.length) by
    obtain ⟨n, pos, m', j, hsteps, -, hgoes, hj⟩ := hknown
    exact ⟨n, pos, m', j, hsteps, hgoes, hj⟩
  induction k with
  | zero => exact ⟨0, 0, m, 0, .refl 0 m, hm, .refl bus _ _, .inl (Nat.le_refl 0)⟩
  | succ k ih =>
      obtain ⟨n, pos, m', j, hsteps, hm', hgoes, hj⟩ := ih
      rcases hj with hj | hend
      · obtain ⟨n', pos', m'', j', hsteps', hm'', hgoes', hj'⟩ :=
          h.goes_on hm' (hsteps.le_length (Nat.zero_le _))
        refine ⟨n + n', pos', m'', j + j', hsteps.trans hsteps', hm'', hgoes.trans hgoes', ?_⟩
        exact hj'.imp_left fun hone => Nat.add_le_add hj hone
      · exact ⟨n, pos, m', j, hsteps, hm', hgoes, .inr hend⟩

end Loaded

/-! ## Assembled code is loaded -/

/-- The address of a position, for code whose lines stand behind `front`. -/
def positionAddress (base : UInt16) (front : List Line) (lines : List (List Line)) (pos : Nat) :
    UInt16 :=
  base + UInt16.ofNat (Line.sizeAll (front ++ (lines.take pos).flatten))

/-- Where the assembled bytes are fetched, the code between other lines is
loaded. -/
theorem Draft.Assembled.loaded {tree : BlockTree} {storage : Storage} {code : Code}
    {front back : List Line} {lines : List (List Line)} {base : UInt16}
    {labels : LabelId → Option UInt16} {segment : Segment}
    (hassembled : Draft.Assembled (front ++ lines.flatten ++ back) base labels segment)
    (hselected : Selected tree storage code lines)
    (hfront : ∀ l, .mark l ∉ front) (hback : ∀ l, .mark l ∉ back)
    {bus : Bus} {known : Memory → Prop} (hkeeps : bus.Keeps known)
    (hshows : ∀ m, known m → bus.Shows m base segment.bytes.toList)
    (hconfined : ∀ block i a, (block, i) ∈ code → (tree.names storage).Stores block i a →
      bus.writable a) :
    Loaded bus known tree storage code labels (positionAddress base front lines) := by
  have hsplit : ∀ (pos : Nat) block i, code[pos]? = some (block, i) →
      ∃ ls, Site.select ⟨tree, storage, block⟩ i = .ok ls ∧
        lines.take (pos + 1) = lines.take pos ++ [ls] ∧
        front ++ lines.flatten ++ back = (front ++ (lines.take pos).flatten) ++
          (ls ++ ((lines.drop (pos + 1)).flatten ++ back)) := by
    intro pos block i hi
    obtain ⟨ls, hls, hselect⟩ := hselected.at_pos hi
    obtain ⟨hpos, rfl⟩ := List.getElem?_eq_some_iff.1 hls
    refine ⟨lines[pos], hselect, by simp, ?_⟩
    have hlines : lines.flatten = (lines.take pos).flatten ++
        (lines[pos] ++ (lines.drop (pos + 1)).flatten) := by
      rw [← List.flatten_cons, ← List.flatten_append, List.getElem_cons_drop,
        List.take_append_drop]
    rw [hlines]
    simp only [List.append_assoc]
  refine ⟨hkeeps, hconfined, ?_, ?_, ?_⟩
  · intro pos block i hi
    obtain ⟨ls, hselect, htake, hall⟩ := hsplit pos block i hi
    have hstands : bus.Stands known labels base (front ++ lines.flatten ++ back) :=
      ⟨_, hassembled.bytes, hshows⟩
    rw [hall] at hstands
    refine ⟨ls, hselect, hstands.of_append.2.of_append.1, ?_⟩
    rw [positionAddress, positionAddress, htake, add_ofNat_add_ofNat, List.flatten_append,
      ← List.append_assoc, Line.sizeAll_append, List.flatten_singleton]
  · rintro l pos ⟨block, hi⟩
    obtain ⟨ls, hselect, -, hall⟩ := hsplit pos block _ hi
    cases hselect
    exact hassembled.marked _ l _ hall
  · intro l a ha
    have hmem := hassembled.labelled l a ha
    rw [List.mem_append, List.mem_append] at hmem
    rcases hmem with (hmem | hmem) | hmem
    · exact absurd hmem (hfront l)
    · exact hselected.marks_of_mem hmem
    · exact absurd hmem (hback l)

end Cartridge
