/-
# `Cartridge.Proofs.ObjectCode.Safety` — code generation breaks no contract

Five contracts can be broken on the way from a tree to its machine code, and each
is kept for a reason of its own:

    unplaced      a name leads to a block of the tree, and by then every block has
                  its storage
    illegal       every line is an instruction that the processor has
    rebound       a label is bound by the instruction that places it
    outOfRange    a label is handed out before it is named, and an operand that
                  waits for one lies in the code
    overflow      the sizes of the symbols can be computed

The third and the last reason are up to the tree.  The two segments are drafts of
their own, so a label may be placed in each of them, but in none of them twice.

Proved here: the code of such a tree is there or there is an error (`safe_put` is
the step), and where a target is not placed in its own segment there is an error
(`objectCode_faultless`).  A symbol whose size cannot be computed is a fault
(`objectCode_overflow`).
-/
import Cartridge.Proofs.Assembly.Atomicity
import Cartridge.Proofs.ObjectCode.Correctness
import Cartridge.Proofs.ObjectCode.Progress

namespace Cartridge

/-! ## Labels and targets -/

namespace Instr

/-- The label that an instruction places. -/
def mark? : Instr → Option LabelId
  | .label l => some l
  | _ => none

/-- The label that an instruction may go to. -/
def target? : Instr → Option LabelId
  | .jump l | .branchZero _ l | .branchNonzero _ l => some l
  | _ => none

end Instr

namespace Code

/-- The labels that are placed, as often as they are. -/
def labels (code : Code) : List LabelId := code.filterMap fun entry => entry.2.mark?

/-- The labels that are gone to. -/
def targets (code : Code) : List LabelId := code.filterMap fun entry => entry.2.target?

theorem mem_labels_iff {code : Code} {l : LabelId} : l ∈ code.labels ↔ ∃ pos, code.Marks l pos := by
  have hmark : ∀ i : Instr, i.mark? = some l ↔ i = .label l := by
    intro i
    cases i <;> simp [Instr.mark?]
  simp only [labels, List.mem_filterMap, hmark, Marks]
  constructor
  · rintro ⟨⟨block, i⟩, hmem, rfl⟩
    obtain ⟨pos, hpos⟩ := List.mem_iff_getElem?.1 hmem
    exact ⟨pos, block, hpos⟩
  · rintro ⟨pos, block, hpos⟩
    exact ⟨_, List.mem_of_getElem? hpos, rfl⟩

theorem labels_of_block (block : BlockId) (instrs : List Instr) :
    labels (instrs.map (block, ·)) = instrs.filterMap Instr.mark? := by
  rw [labels, List.filterMap_map]
  rfl

end Code

namespace Line

/-- The label that a line marks. -/
def mark? : Line → Option LabelId
  | .mark l => some l
  | _ => none

/-- The label that a line may go to. -/
def target? : Line → Option LabelId
  | .jump l | .branch _ l => some l
  | _ => none

/-- The labels that lines mark. -/
def marks (lines : List Line) : List LabelId := lines.filterMap mark?

@[simp] theorem marks_nil : marks [] = [] := rfl

@[simp] theorem marks_cons (line : Line) (lines : List Line) :
    marks (line :: lines) = line.mark?.toList ++ marks lines := by
  cases line <;> rfl

@[simp] theorem marks_append (lines lines' : List Line) :
    marks (lines ++ lines') = marks lines ++ marks lines' :=
  List.filterMap_append

theorem mem_marks {lines : List Line} {l : LabelId} (h : .mark l ∈ lines) : l ∈ marks lines :=
  List.mem_filterMap.2 ⟨_, h, rfl⟩

/-- The instruction of a line, without its operand. -/
def coding? : Line → Option (Cpu.Mnemonic × Cpu.Mode)
  | .op m o => some (m, o.mode)
  | .mark _ => none
  | .jump _ | .spin => some (.jmp, .absolute)
  | .branch m _ => some (m, .relative)

/-- The processor has the instruction of a line. -/
def Coded (line : Line) : Prop :=
  ∀ m mode, line.coding? = some (m, mode) → ∃ opcode, Cpu.opcode? m mode = some opcode

theorem Sure.coded {line : Line} (h : line.Sure) : line.Coded := by
  intro m mode hcoding
  cases line with
  | op m' o =>
      obtain ⟨bytes, hbytes⟩ := h
      obtain ⟨opcode, hopcode, -⟩ := Option.map_eq_some_iff.1 hbytes
      cases hcoding
      exact ⟨opcode, hopcode⟩
  | spin =>
      cases hcoding
      exact ⟨_, rfl⟩
  | _ => exact h.elim

theorem coded_spin : Coded .spin := Sure.coded (show Sure .spin from trivial)

theorem coded_rti : Coded (.op .rti .implied) := Sure.coded ⟨_, rfl⟩

theorem Sure.mark? {line : Line} (h : line.Sure) : line.mark? = none := by
  cases line with
  | mark l => exact h.elim
  | _ => rfl

end Line

/-! ## Lines of an instruction -/

namespace Site

variable {site : Site}

/-- What lines have of the instruction that they come from. -/
structure Renders (i : Instr) (lines : List Line) : Prop where
  coded : ∀ line ∈ lines, line.Coded
  marks : Line.marks lines = i.mark?.toList
  targets : ∀ l, i.target? = some l → ∃ line ∈ lines, line.target? = some l

theorem renders_of_sure {i : Instr} {lines : List Line} (h : ∀ line ∈ lines, line.Sure)
    (hmark : i.mark? = none) (htarget : i.target? = none) : Renders i lines := by
  refine ⟨fun line hline => (h line hline).coded, ?_, ?_⟩
  · rw [hmark, Line.marks, List.filterMap_eq_nil_iff.2 fun line hline => (h line hline).mark?]
    rfl
  · intro l hl
    cases htarget.symm.trans hl

theorem renders_branch {i : Instr} {m : Cpu.Mnemonic} {opcode : UInt8} {l : LabelId} (a : UInt16)
    (hm : Cpu.opcode? m .relative = some opcode) (hmark : i.mark? = none)
    (htarget : i.target? = some l) : Renders i [load a, .branch m l] := by
  have hbranch : (Line.branch m l).Coded := by
    intro m' mode hcoding
    cases hcoding
    exact ⟨opcode, hm⟩
  refine ⟨by simp [(sure_load a).coded, hbranch], by rw [hmark]; rfl, ?_⟩
  intro l' hl'
  rw [htarget] at hl'
  exact ⟨.branch m l, by simp, hl'⟩

/-- The lines of an instruction are instructions of the processor, with its label
and its target. -/
theorem renders_of_select {i : Instr} {lines : List Line} (h : site.select i = .ok lines) :
    Renders i lines := by
  cases i with
  | copy dest src width => exact renders_of_sure (sure_of_copy h) rfl rfl
  | widen dest src => exact renders_of_sure (sure_of_widen h) rfl rfl
  | label l =>
      cases h
      exact ⟨by simp [Line.Coded, Line.coding?], rfl, by simp [Instr.target?]⟩
  | jump l =>
      cases h
      have hjump : (Line.jump l).Coded := by
        intro m mode hcoding
        cases hcoding
        exact ⟨_, rfl⟩
      exact ⟨by simp [hjump], rfl, fun l' hl' => ⟨.jump l, by simp, hl'⟩⟩
  | branchZero src l =>
      obtain ⟨s, -, rfl⟩ := select_branchZero h
      exact renders_branch s rfl rfl rfl
  | branchNonzero src l =>
      obtain ⟨s, -, rfl⟩ := select_branchNonzero h
      exact renders_branch s rfl rfl rfl
  | halt =>
      cases h
      exact renders_of_sure (by simp [Line.Sure]) rfl rfl

end Site

/-! ## Steps without a fault -/

/-- An answer about the input. -/
def Stop.IsError {ε : Type} : Stop ε → Prop
  | .error _ => True
  | .fault _ => False

theorem Stop.IsError.map {ε ε' : Type} {s : Stop ε} (h : s.IsError) (f : ε → ε') :
    (s.map f).IsError := by
  cases s with
  | error e => trivial
  | fault x => exact h.elim

theorem Stop.IsError.ends {ε : Type} {s : Stop ε} (h : s.IsError) (tree : BlockTree) :
    tree.Ends (fun _ => True) s := by
  cases s with
  | error e => exact .error trivial
  | fault f => exact h.elim

/-- A step ends with an error, or with what is wanted. -/
structure Safe {ε σ α : Type} (wanted : α → σ → Prop) (result : EStateM.Result (Stop ε) σ α) :
    Prop where
  error : ∀ s t, result = .error s t → s.IsError
  ok : ∀ r t, result = .ok r t → wanted r t

theorem Safe.bind {ε σ α β : Type} {x : EStateM (Stop ε) σ α} {f : α → EStateM (Stop ε) σ β}
    {s : σ} {wanted : α → σ → Prop} {wanted' : β → σ → Prop} (hx : Safe wanted (x s))
    (hf : ∀ r t, wanted r t → Safe wanted' (f r t)) : Safe wanted' ((x >>= f) s) := by
  constructor
  · intro e t h
    rcases bind_eq_error_iff.1 h with hfirst | ⟨r, u, hfirst, hsecond⟩
    · exact hx.error e t hfirst
    · exact (hf r u (hx.ok r u hfirst)).error e t hsecond
  · intro r t h
    obtain ⟨q, u, hfirst, hsecond⟩ := bind_eq_ok_iff.1 h
    exact (hf q u (hx.ok q u hfirst)).ok r t hsecond

theorem Safe.done {ε σ α : Type} {wanted : α → σ → Prop} {r : α} {t : σ} (h : wanted r t) :
    Safe wanted (.ok r t : EStateM.Result (Stop ε) σ α) := by
  constructor
  · intro s t' hresult
    cases hresult
  · intro r' t' hresult
    cases hresult
    exact h

theorem Safe.stopped {ε σ α : Type} {wanted : α → σ → Prop} {s : Stop ε} {t : σ} (h : s.IsError) :
    Safe wanted (.error s t : EStateM.Result (Stop ε) σ α) := by
  constructor
  · intro s' t' hresult
    cases hresult
    exact h
  · intro r t' hresult
    cases hresult

/-! ## One line -/

namespace Assembler

/-- The operands that wait lie in the code, and so do their labels in the table. -/
structure Closed (a : Assembler) : Prop where
  coherent : a.Coherent
  known : a.Known []

theorem closed_empty (base : UInt16) : Closed { base := base } :=
  ⟨coherent_empty base, known_empty [] base⟩

theorem Closed.grown {a a' : Assembler} {order : Order} (h : a.Closed) (hgrown : Grown a a' order)
    (hjump : ∀ l, order = .jumpTo l → l < a.labels.size) : a'.Closed := by
  refine ⟨h.coherent.grown hgrown, h.known.grown hgrown fun l hl => .inl ?_⟩
  exact Nat.lt_of_lt_of_le (hjump l hl) hgrown.labels

theorem Closed.push {a : Assembler} (h : a.Closed) (x : Option UInt16) :
    Closed { a with labels := a.labels.push x } := by
  have hgrown : Grown a { a with labels := a.labels.push x } .freshLabel := by
    refine ⟨rfl, ?_, ⟨[], rfl, by simp⟩, .inl rfl, .inl rfl⟩
    rw [Array.size_push]
    exact Nat.le_succ _
  refine h.grown hgrown fun l hl => ?_
  cases hl

/-- A closed assembler can be finished, or a label is missing or too far away. -/
theorem Closed.finish_failsWithin {a : Assembler} (h : a.Closed) :
    FailsWithin Stop.IsError a.finish := by
  intro s hs
  rcases finish_cases fun p hp => (h.coherent.holds p hp).inside with
    ⟨segment, hsegment⟩ | ⟨p, hp, s', hunfilled, hstop⟩
  · cases hs.symm.trans hsegment
  · cases hs.symm.trans hstop
    cases hunfilled with
    | error => trivial
    | unknown hle =>
        rcases h.known p hp with hlt | hjump
        · exact absurd hlt (Nat.not_lt_of_le hle)
        · cases hjump

end Assembler

/-- An order with an instruction that the processor has, for a label that is handed
out and is not bound twice, breaks no contract. -/
theorem Order.not_breaks {a : Assembler} {order : Order}
    (hcoding : ∀ m mode, order.coding? = some (m, mode) →
      ∃ opcode, Cpu.opcode? m mode = some opcode)
    (hlabel : ∀ l, order.label? = some l → l < a.labels.size)
    (hbind : ∀ l x, order = .bind l → a.address? l ≠ some x) (f : Fault) :
    ¬ order.Breaks a f := by
  intro h
  cases h with
  | coding horder hnone =>
      obtain ⟨opcode, hopcode⟩ := hcoding _ _ horder
      rw [hopcode] at hnone
      cases hnone
  | unknown horder hle => exact Nat.not_lt_of_le hle (hlabel _ horder)
  | bound horder hx => exact hbind _ _ horder hx

namespace Draft

/-- The draft is closed, and the labels with an address are among those that were
marked. -/
structure Sound (marked : List LabelId) (d : Draft) : Prop where
  closed : d.assembler.Closed
  tracked : ∃ lines, Tracked lines d ∧ Line.marks lines = marked

variable {marked : List LabelId} {d : Draft}

theorem sound_empty (base : UInt16) : Sound [] { assembler := { base := base } } := by
  refine ⟨Assembler.closed_empty base, [], ⟨?_, ?_, ?_⟩, rfl⟩ <;> simp [address?]

/-- Lines add the labels that they mark. -/
theorem Sound.emits (h : Sound marked d) {lines : List Line} {d' : Draft}
    (hemits : Emits lines d d') (hclosed : d'.assembler.Closed) :
    Sound (marked ++ Line.marks lines) d' := by
  obtain ⟨before, htracked, rfl⟩ := h.tracked
  exact ⟨hclosed, before ++ lines, hemits.tracks before htracked, Line.marks_append _ _⟩

theorem Sound.lt_size (h : Sound marked d) {l : LabelId} {n : Nat}
    (hl : d.marks.lookup l = some n) : n < d.assembler.labels.size := by
  obtain ⟨_, htracked, -⟩ := h.tracked
  exact htracked.inRange l n hl

theorem Sound.mem_marked (h : Sound marked d) {l : LabelId} {n : Nat} {x : UInt16}
    (hl : d.marks.lookup l = some n) (hx : d.assembler.address? n = some x) : l ∈ marked := by
  obtain ⟨lines, htracked, rfl⟩ := h.tracked
  have haddress : d.address? l = some x :=
    address?_eq_some_iff.2 ⟨n, hl, Assembler.address?_eq_some_iff.1 hx⟩
  exact Line.mem_marks (htracked.marked l x haddress)

/-- An order that breaks no contract. -/
theorem safe_assembling (order : Order) (hclosed : d.assembler.Closed)
    (hbreaks : ∀ f, ¬ order.Breaks d.assembler f)
    (hjump : ∀ l, order = .jumpTo l → l < d.assembler.labels.size) :
    Safe (fun _ d' => d'.assembler.Closed) (assembling order.run d) := by
  unfold assembling
  cases hrun : order.run d.assembler with
  | ok r a =>
      cases Order.comes_of_run hrun with
      | grown hgrown => exact .done (hclosed.grown hgrown hjump)
  | error s a =>
      cases Order.comes_of_run hrun with
      | exceeds => exact .stopped trivial
      | breaks hfault => exact absurd hfault (hbreaks _)

/-- A label of the tree is there or is handed out. -/
theorem Sound.safe_labelFor (h : Sound marked d) (l : LabelId) :
    Safe (fun n d' => Sound marked d' ∧ d'.marks.lookup l = some n) (labelFor l d) := by
  have hstep : ∃ n d', labelFor l d = .ok n d' ∧ d'.assembler.Closed := by
    cases hl : d.marks.lookup l with
    | some n => exact ⟨n, d, by rw [labelFor, hl], h.closed⟩
    | none => exact ⟨_, d.named l, by rw [labelFor, hl]; rfl, h.closed.push none⟩
  obtain ⟨n, d', hlabel, hclosed⟩ := hstep
  obtain ⟨hl, hemits⟩ := labelFor_eq_ok hlabel
  have hsound := h.emits hemits hclosed
  rw [Line.marks_nil, List.append_nil] at hsound
  rw [hlabel]
  exact .done ⟨hsound, hl⟩

/-- An order for a label of the tree. -/
theorem Sound.safe_labelled (h : Sound marked d) {l : LabelId} (order : Nat → Order)
    (hlabel : ∀ n k, (order n).label? = some k → k = n)
    (hjump : ∀ n k, order n = .jumpTo k → k = n)
    (hcoding : ∀ n m mode, (order n).coding? = some (m, mode) →
      ∃ opcode, Cpu.opcode? m mode = some opcode)
    (hbind : ∀ n k, order n = .bind k → l ∉ marked) :
    Safe (fun _ d' => d'.assembler.Closed)
      ((do let n ← labelFor l; assembling (order n).run) d) := by
  refine (h.safe_labelFor l).bind ?_
  rintro n d' ⟨hd', hl⟩
  have hlt := hd'.lt_size hl
  refine safe_assembling (order n) hd'.closed (Order.not_breaks (hcoding n) ?_ ?_) ?_
  · intro k hk
    rwa [hlabel n k hk]
  · intro k x hk hx
    obtain rfl := hlabel n k (by rw [hk]; rfl)
    exact hbind k k hk (hd'.mem_marked hl hx)
  · intro k hk
    rwa [hjump n k hk]

/-- What one line does: it is there, or there is an error. -/
theorem Sound.safe_put (h : Sound marked d) {line : Line}
    (hcoded : line.Coded) (hnew : ∀ l, line.mark? = some l → l ∉ marked) :
    Safe (fun _ d' => Sound (marked ++ line.mark?.toList) d') (put line d) := by
  suffices hsafe : Safe (fun _ d' => d'.assembler.Closed) (put line d) by
    refine ⟨hsafe.error, ?_⟩
    intro r d' hput
    have hsound := h.emits (put_emits hput) (hsafe.ok r d' hput)
    rwa [Line.marks_cons, Line.marks_nil, List.append_nil] at hsound
  cases line with
  | op m o =>
      refine safe_assembling (.op m o) h.closed (Order.not_breaks hcoded ?_ ?_) ?_
      · intro l hl
        cases hl
      · intro l x hl
        cases hl
      · intro l hl
        cases hl
  | mark l =>
      refine h.safe_labelled .bind ?_ ?_ ?_ fun _ _ _ => hnew l rfl
      · intro n k hk
        cases hk
        rfl
      · intro n k hk
        cases hk
      · intro n m mode hcoding
        cases hcoding
  | jump l =>
      refine h.safe_labelled .jumpTo ?_ ?_ (fun _ => hcoded) ?_
      · intro n k hk
        cases hk
      · intro n k hk
        cases hk
        rfl
      · intro n k hk
        cases hk
  | branch m l =>
      refine h.safe_labelled (.branchTo m) ?_ ?_ (fun _ => hcoded) ?_
      · intro n k hk
        cases hk
        rfl
      · intro n k hk
        cases hk
      · intro n k hk
        cases hk
  | spin =>
      -- all that is left of it is a jump to the label that was bound last
      have hspin : put .spin d = assembling (Order.jumpTo d.assembler.labels.size).run
          { d with assembler := { d.assembler with
            labels := d.assembler.labels.push (some d.assembler.here) } } := by
        show assembling _ d = _
        unfold assembling
        rw [Assembler.spin_eq]
        rfl
      rw [hspin]
      refine safe_assembling _ (h.closed.push _) (Order.not_breaks hcoded ?_ ?_) ?_
      · intro l hl
        cases hl
      · intro l x hl
        cases hl
      · intro l hl
        cases hl
        show d.assembler.labels.size < (d.assembler.labels.push _).size
        rw [Array.size_push]
        exact Nat.lt_succ_self _

/-! ## Rows of lines -/

theorem Sound.safe_putLines (h : Sound marked d) {lines : List Line}
    (hcoded : ∀ line ∈ lines, line.Coded) (hnew : (marked ++ Line.marks lines).Nodup) :
    Safe (fun _ d' => Sound (marked ++ Line.marks lines) d') (putLines lines d) := by
  induction lines generalizing marked d with
  | nil =>
      rw [Line.marks_nil, List.append_nil]
      exact .done h
  | cons line lines ih =>
      obtain ⟨hline, hlines⟩ := List.forall_mem_cons.1 hcoded
      rw [Line.marks_cons, ← List.append_assoc] at hnew ⊢
      refine (h.safe_put hline ?_).bind fun _ d' hd' => ih hd' hlines hnew
      intro l hl hmem
      obtain ⟨hfront, -, -⟩ := List.nodup_append.1 hnew
      obtain ⟨-, -, hapart⟩ := List.nodup_append.1 hfront
      exact hapart l hmem l (by simp [hl]) rfl

theorem Sound.safe_putInstrs (h : Sound marked d) {site : Site}
    (haddress : ∀ name, FailsWithin Stop.IsError (site.address name)) {instrs : List Instr}
    (hnew : (marked ++ instrs.filterMap Instr.mark?).Nodup) :
    Safe (fun _ d' => Sound (marked ++ instrs.filterMap Instr.mark?) d')
      (putInstrs site instrs d) := by
  induction instrs generalizing marked d with
  | nil =>
      rw [List.filterMap_nil, List.append_nil]
      exact .done h
  | cons i instrs ih =>
      have hmarks : (i :: instrs).filterMap Instr.mark? =
          i.mark?.toList ++ instrs.filterMap Instr.mark? := by
        cases i <;> rfl
      rw [hmarks, ← List.append_assoc] at hnew ⊢
      obtain ⟨hfront, -, -⟩ := List.nodup_append.1 hnew
      rw [putInstrs]
      cases hselect : site.select i with
      | error s => exact .stopped (Site.select_failsWithin haddress i s hselect)
      | ok lines =>
          obtain ⟨hcoded, hlines, -⟩ := Site.renders_of_select hselect
          rw [← hlines] at hfront hnew ⊢
          show Safe _ ((do putLines lines; putInstrs site instrs) d)
          exact (h.safe_putLines hcoded hfront).bind fun _ d' hd' => ih hd' hnew

theorem Sound.safe_putBlocks (h : Sound marked d) {tree : BlockTree} {storage : Storage}
    (haddress : ∀ id name, FailsWithin Stop.IsError (Site.address ⟨tree, storage, id⟩ name))
    {ids : List BlockId} (hnew : (marked ++ (tree.codeOf ids).labels).Nodup) :
    Safe (fun _ d' => Sound (marked ++ (tree.codeOf ids).labels) d')
      (putBlocks tree storage ids d) := by
  induction ids generalizing marked d with
  | nil =>
      have hnone : (tree.codeOf []).labels = [] := rfl
      rw [hnone, List.append_nil]
      exact .done h
  | cons id ids ih =>
      have hlabels : (tree.codeOf (id :: ids)).labels =
          (tree.instrs id).toList.filterMap Instr.mark? ++ (tree.codeOf ids).labels := by
        rw [← Code.labels_of_block id]
        exact List.filterMap_append
      rw [hlabels, ← List.append_assoc] at hnew ⊢
      obtain ⟨hfront, -, -⟩ := List.nodup_append.1 hnew
      exact (h.safe_putInstrs (haddress id) hfront).bind fun _ d' hd' => ih hd' hnew

theorem Sound.finish_failsWithin (h : Sound marked d) : FailsWithin Stop.IsError d.finish :=
  finish_failsWithin_of fun s herror => (h.closed.finish_failsWithin s herror).map _

end Draft

/-! ## Segments -/

/-- Once all symbols have an address, no name that is resolved lacks one. -/
theorem BlockTree.WellFormed.address_failsWithin {t : BlockTree} (hw : t.WellFormed)
    {storage : Storage}
    (hholds : ∀ id ∈ t.preorder, ∀ symbol ∈ t.symbols id, storage.Holds id symbol)
    (id : BlockId) (name : String) :
    FailsWithin Stop.IsError (Site.address ⟨t, storage, id⟩ name) := by
  intro s hs
  unfold Site.address at hs
  split at hs
  · cases hs
    trivial
  · next hresolve =>
      obtain ⟨a, ha⟩ := hw.exists_find? hholds (nearest_of_resolve hresolve)
      rw [orFault_eq_ok_iff.2 ha] at hs
      cases hs

namespace Generator

variable {tree : BlockTree} {storage : Storage}
  (haddress : ∀ id name, FailsWithin Stop.IsError (Site.address ⟨tree, storage, id⟩ name))

include haddress

theorem safe_draftMain (honce : (tree.codeOf (mainBlocks tree)).labels.Nodup) (base : UInt16) :
    Safe (fun _ d => ∃ marked, Draft.Sound marked d)
      (draftMain tree storage { assembler := { base := base } }) := by
  have hprologue : ∀ line ∈ prologue, line.Coded := by
    intro line hline
    exact (sure_prologue line hline).coded
  refine ((Draft.sound_empty base).safe_putLines hprologue .nil).bind fun _ d₁ h₁ => ?_
  refine (h₁.safe_putBlocks haddress honce).bind fun _ d₂ h₂ => ?_
  refine (h₂.safe_put Line.coded_spin fun l hl => by cases hl).bind fun _ d₃ h₃ => ?_
  -- the address of the handler is read here, and nothing else happens
  show Safe _ ((do Draft.put (.op .rti .implied); pure d₃.assembler.here : Draft.Step UInt16) d₃)
  exact (h₃.safe_put Line.coded_rti fun l hl => by cases hl).bind fun _ d₄ h₄ => .done ⟨_, h₄⟩

theorem mainSegment_isError (honce : (tree.codeOf (mainBlocks tree)).labels.Nodup)
    (base : UInt16) : FailsWithin Stop.IsError (mainSegment tree storage base) := by
  have hsafe := safe_draftMain haddress honce base
  refine mainSegment_failsWithin_of hsafe.error fun handler d hd => ?_
  obtain ⟨marked, hsound⟩ := hsafe.ok _ _ hd
  exact hsound.finish_failsWithin

theorem startupSegment_isError (honce : (tree.codeOf (startupBlocks tree)).labels.Nodup) :
    FailsWithin Stop.IsError (startupSegment tree storage) := by
  have hsafe := (Draft.sound_empty 0).safe_putBlocks haddress honce
  exact startupSegment_failsWithin_of hsafe.error fun d hd => (hsafe.ok _ _ hd).finish_failsWithin

end Generator

/-! ## Targets -/

namespace Line

/-- The second pass needs the address of every label that is gone to. -/
theorem exists_of_encodeAll? {labels : LabelId → Option UInt16} {here : UInt16} {lines : List Line}
    {code : List UInt8} (h : encodeAll? labels here lines = some code) {line : Line}
    (hline : line ∈ lines) {l : LabelId} (hl : line.target? = some l) : ∃ a, labels l = some a := by
  induction lines generalizing here code with
  | nil => cases hline
  | cons first lines ih =>
      obtain ⟨bytes, rest, hbytes, hrest, -⟩ := encodeAll?_cons_iff.1 h
      rcases List.mem_cons.1 hline with rfl | hline
      · cases line with
        | jump l' =>
            cases hl
            obtain ⟨a, ha, -⟩ := Option.bind_eq_some_iff.1 hbytes
            exact ⟨a, ha⟩
        | branch m l' =>
            cases hl
            obtain ⟨a, ha, -⟩ := Option.bind_eq_some_iff.1 hbytes
            exact ⟨a, ha⟩
        | _ => cases hl
      · exact ih hrest hline

end Line

/-- Where a segment is assembled from code, between lines without a mark, every
target is placed in that code. -/
theorem Selected.targets_subset {tree : BlockTree} {storage : Storage} {code : Code}
    {lines : List (List Line)} (hselected : Selected tree storage code lines)
    {front back : List Line} {base : UInt16} {labels : LabelId → Option UInt16} {segment : Segment}
    (h : Draft.Assembled (front ++ lines.flatten ++ back) base labels segment)
    (hfront : Line.marks front = []) (hback : Line.marks back = []) :
    code.targets ⊆ code.labels := by
  intro l hl
  obtain ⟨⟨block, i⟩, hmem, htarget⟩ := List.mem_filterMap.1 hl
  obtain ⟨pos, hpos⟩ := List.mem_iff_getElem?.1 hmem
  obtain ⟨ls, hls, hselect⟩ := hselected.at_pos hpos
  obtain ⟨line, hline, hgoes⟩ := (Site.renders_of_select hselect).targets l htarget
  have hflat : line ∈ lines.flatten := List.mem_flatten.2 ⟨ls, List.mem_of_getElem? hls, hline⟩
  have hall : line ∈ front ++ lines.flatten ++ back := by simp [hflat]
  obtain ⟨a, ha⟩ := Line.exists_of_encodeAll? h.bytes hall hgoes
  -- the mark of the label is not around the code, so it is in it
  have hmark := h.labelled l a ha
  rw [List.mem_append, List.mem_append] at hmark
  rcases hmark with (hmark | hmark) | hmark
  · exact absurd (hfront ▸ Line.mem_marks hmark) List.not_mem_nil
  · exact Code.mem_labels_iff.2 (hselected.marks_of_mem hmark)
  · exact absurd (hback ▸ Line.mem_marks hmark) List.not_mem_nil

/-! ## Object code -/

namespace BlockTree

open Generator (mainBlocks startupBlocks)

/-- No segment places a label twice. -/
def PlacesOnce (t : BlockTree) : Prop :=
  (t.codeOf (mainBlocks t)).labels.Nodup ∧ (t.codeOf (startupBlocks t)).labels.Nodup

/-- Every target is placed in the segment that goes there. -/
def Linked (t : BlockTree) : Prop :=
  (t.codeOf (mainBlocks t)).targets ⊆ (t.codeOf (mainBlocks t)).labels ∧
    (t.codeOf (startupBlocks t)).targets ⊆ (t.codeOf (startupBlocks t)).labels

end BlockTree

namespace Generator

open BlockTree (build)

theorem linked_of_objectCode {tree : BlockTree} {base : UInt16} {g g' : Generator}
    {object : ObjectCode} (h : objectCode tree base g = .ok object g') : tree.Linked := by
  obtain ⟨handler, hmain, hstartup, -, -⟩ := objectCode_eq_ok h
  obtain ⟨lines, labels, hselected, hassembled, -⟩ := mainSegment_assembled hmain
  obtain ⟨lines', labels', hselected', hassembled'⟩ := startupSegment_assembled hstartup
  rw [List.append_assoc _ [Line.spin]] at hassembled
  rw [← List.append_nil lines'.flatten, ← List.nil_append lines'.flatten] at hassembled'
  exact ⟨hselected.targets_subset hassembled rfl rfl, hselected'.targets_subset hassembled' rfl rfl⟩

/-- The code of a tree is there, or there is an error, or the size of a symbol cannot
be computed. -/
theorem objectCode_ends {tree : BlockTree} (hw : tree.WellFormed) (honce : tree.PlacesOnce)
    (base : UInt16) : StopsWithin (tree.Ends fun _ => True) (objectCode tree base) := by
  refine objectCode_stopsWithin_of (fun _ => .error trivial) .overflow fun storage hholds => ?_
  have haddress := hw.address_failsWithin hholds
  have hmain := mainSegment_isError haddress honce.1 base
  have hstartup := startupSegment_isError haddress honce.2
  exact ⟨fun s hs => Stop.IsError.ends (hmain s hs) tree,
    fun s hs => Stop.IsError.ends (hstartup s hs) tree⟩

theorem coded_around_select {site : Site} {i : Instr} {lines : List Line}
    (h : site.select i = .ok lines) :
    ∀ line ∈ prologue ++ lines ++ [.spin, .op .rti .implied], line.Coded := by
  intro line hline
  simp only [List.mem_append, List.mem_cons, List.not_mem_nil, or_false] at hline
  rcases hline with (hline | hline) | rfl | rfl
  · exact (sure_prologue line hline).coded
  · exact (Site.renders_of_select h).coded line hline
  · exact Line.coded_spin
  · exact Line.coded_rti

/-- Code generation breaks no contract where no segment places a label twice and the
sizes of all symbols can be computed: it ends with object code or with an error, and
only such a size is a fault.  Once storage is handed out, every declaration that a
name leads to has an address, and the operands that wait for a label lie in the code
of their draft, with labels that were handed out; and all lines are instructions of
the processor.  If there is object code, every target is placed in its own segment,
so a target that is not leads to an error. -/
theorem objectCode_faultless (ops : List BlockTree.Op) (base : UInt16) (g : Generator)
    (honce : (build ops).PlacesOnce) :
    ((build ops).Measurable → (∃ object g', objectCode (build ops) base g = .ok object g') ∨
      ∃ e g', objectCode (build ops) base g = .error (.error e) g') ∧
    (∀ f g', objectCode (build ops) base g = .error (.fault f) g' →
      f = .overflow ∧ ¬ (build ops).Measurable) ∧
    (∀ g₁, allocateBlocks (build ops) (build ops).preorder g = .ok () g₁ →
      (∀ id name owner symbol, (build ops).resolve id name = .ok (owner, symbol) →
        ∃ a, g₁.storage.find? owner name = some a) ∧
      (∀ handler d, draftMain (build ops) g₁.storage { assembler := { base := base } } =
        .ok handler d → d.assembler.Closed) ∧
      ∀ d, Draft.putBlocks (build ops) g₁.storage (startupBlocks (build ops))
        { assembler := { base := 0 } } = .ok () d → d.assembler.Closed) ∧
    (∀ storage id i lines, Site.select ⟨build ops, storage, id⟩ i = .ok lines →
      ∀ line ∈ prologue ++ lines ++ [.spin, .op .rti .implied], line.Coded) ∧
    (∀ object g', objectCode (build ops) base g = .ok object g' → (build ops).Linked) ∧
    ((build ops).Measurable → ¬ (build ops).Linked →
      ∃ e g', objectCode (build ops) base g = .error (.error e) g') := by
  have hw := BlockTree.wellFormed_build ops
  have hends : (build ops).Measurable →
      (∃ object g', objectCode (build ops) base g = .ok object g') ∨
        ∃ e g', objectCode (build ops) base g = .error (.error e) g' := by
    intro hsizes
    cases hresult : objectCode (build ops) base g with
    | ok object g' => exact .inl ⟨object, g', rfl⟩
    | error s g' =>
        cases objectCode_ends hw honce base g s g' hresult with
        | error _ => exact .inr ⟨_, g', rfl⟩
        | overflow hnot => exact absurd hsizes hnot
  refine ⟨hends, ?_, ?_, fun _ _ _ _ => coded_around_select, fun _ _ => linked_of_objectCode, ?_⟩
  · intro f g' hresult
    cases objectCode_ends hw honce base g _ g' hresult with
    | overflow hnot => exact ⟨rfl, hnot⟩
  · intro g₁ hallocate
    have hholds := (holds_of_allocateBlocks hallocate).1
    have haddress := hw.address_failsWithin hholds
    refine ⟨?_, ?_, ?_⟩
    · intro id name owner symbol hresolve
      exact hw.exists_find? hholds (BlockTree.nearest_of_resolve hresolve)
    · intro handler d hdraft
      obtain ⟨marked, hsound⟩ := (safe_draftMain haddress honce.1 base).ok handler d hdraft
      exact hsound.closed
    · intro d hdraft
      exact (((Draft.sound_empty 0).safe_putBlocks haddress honce.2).ok () d hdraft).closed
  · intro hsizes hnot
    rcases hends hsizes with ⟨object, g', hobject⟩ | herror
    · exact absurd (linked_of_objectCode hobject) hnot
    · exact herror

/-- Label 1 is placed on both sides, and the startup code jumps to a label of the
main program. -/
def strayJump : List BlockTree.Op :=
  [.append (.label 0), .enter "boot" .startup, .append (.label 1), .append (.jump 0), .leave,
    .append (.jump 1), .append (.label 1)]

theorem faultless_strayJump :
    (∃ object g', objectCode (build shadowedLoop) 0x8000 {} = .ok object g' ∧
      (build shadowedLoop).Linked) ∧
    (build strayJump).PlacesOnce ∧ (build strayJump).Measurable ∧ ¬ (build strayJump).Linked ∧
      ∃ e g', objectCode (build strayJump) 0x8000 {} = .error (.error e) g' := by
  have hloop : (build shadowedLoop).PlacesOnce := ⟨by decide +kernel, by decide +kernel⟩
  have hstray : (build strayJump).PlacesOnce := ⟨by decide +kernel, by decide +kernel⟩
  have hunlinked : ¬ (build strayJump).Linked := by
    intro hlinked
    exact absurd hlinked.2 (by decide +kernel)
  have hsizes : (build strayJump).Measurable := by
    have hnone : (build strayJump).roster (build strayJump).preorder = [] := by decide +kernel
    rw [BlockTree.Measurable, hnone]
    exact List.forall_mem_nil _
  obtain ⟨-, -, -, -, hlinks, -⟩ := objectCode_faultless shadowedLoop 0x8000 {} hloop
  obtain ⟨-, -, -, -, -, herror⟩ := objectCode_faultless strayJump 0x8000 {} hstray
  obtain ⟨object, g', h, -⟩ := exists_of_yields (show yields
    (objectCode (build shadowedLoop) 0x8000) {} (fun _ => true) = true by decide +kernel)
  exact ⟨⟨object, g', h, hlinks object g' h⟩, hstray, hsizes, hunlinked, herror hsizes hunlinked⟩

/-- One symbol, with more words than a length can count bytes of. -/
def immenseSymbol : List BlockTree.Op :=
  [.declare { name := "x", ty := .array .word 0x8000000000000000 }]

/-- A symbol whose size cannot be computed breaks code generation off, though no label
is placed at all. -/
theorem objectCode_overflow :
    (build immenseSymbol).PlacesOnce ∧ ¬ (build immenseSymbol).Measurable ∧
      ∃ g', objectCode (build immenseSymbol) 0x8000 {} = .error (.fault .overflow) g' := by
  have honce : (build immenseSymbol).PlacesOnce := ⟨by decide +kernel, by decide +kernel⟩
  obtain ⟨stop, g', hresult, hstop⟩ := exists_of_stops (show stops
    (objectCode (build immenseSymbol) 0x8000) {} (fun stop => stop == .fault .overflow) = true by
      decide +kernel)
  obtain rfl := eq_of_beq hstop
  cases objectCode_ends (BlockTree.wellFormed_build immenseSymbol) honce _ _ _ _ hresult with
  | overflow hsizes => exact ⟨honce, hsizes, g', hresult⟩

end Generator

end Cartridge
