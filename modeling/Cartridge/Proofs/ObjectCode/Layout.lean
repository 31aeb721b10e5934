/-
# `Cartridge.Proofs.ObjectCode.Layout` — assembling in one pass is assembling in two

A draft goes over its lines once: it notes what it cannot encode yet and fills
it in at the end.  Said without drafts, assembling takes two passes.  The first
gives every label the address of its mark, the second encodes every line with
these addresses.

    line            bytes at address `here`
    op m o          the instruction
    mark l          none
    jump l          JMP to the address of `l`
    branch m l      the branch, over the distance to the address of `l`
    spin            JMP to `here`

Proved here: a draft that takes all lines and can be finished holds exactly the
bytes of the second pass, and its labels have exactly the addresses of the
first (`assembled`).  The step is one line (`put_emits`): it appends bytes of
which only operands are filled in later, whatever stands before and behind.
-/
import Cartridge.ObjectCode.Draft
import Cartridge.Proofs.Bytes
import Cartridge.Proofs.Cpu.Memory
import Cartridge.Proofs.Success

namespace Cartridge

/-! ## Two passes -/

theorem Segment.length_bytes (segment : Segment) : segment.bytes.toList.length = segment.size :=
  Array.length_toList

namespace Line

/-- The number of bytes of a line. -/
def size : Line → Nat
  | .op _ o => 1 + o.bytes.length
  | .mark _ => 0
  | .jump _ => 3
  | .branch _ _ => 2
  | .spin => 3

/-- The number of bytes of lines. -/
def sizeAll : List Line → Nat
  | [] => 0
  | line :: lines => line.size + sizeAll lines

/-- The bytes of a line at address `here`, for labels at given addresses. -/
def encode? (labels : LabelId → Option UInt16) (here : UInt16) : Line → Option (List UInt8)
  | .op m o => Cpu.encode? m o
  | .mark _ => some []
  | .jump l => (labels l).bind fun a => Cpu.encode? .jmp (.absolute a)
  | .branch m l => (labels l).bind fun a =>
      (displacement here a).toOption.bind fun d => Cpu.encode? m (.relative d)
  | .spin => Cpu.encode? .jmp (.absolute here)

/-- The bytes of lines from address `here` on. -/
def encodeAll? (labels : LabelId → Option UInt16) (here : UInt16) :
    List Line → Option (List UInt8)
  | [] => some []
  | line :: lines =>
      (line.encode? labels here).bind fun bytes =>
        (encodeAll? labels (here + UInt16.ofNat line.size) lines).map (bytes ++ ·)

@[simp] theorem sizeAll_nil : sizeAll [] = 0 := rfl

@[simp] theorem sizeAll_cons (line : Line) (lines : List Line) :
    sizeAll (line :: lines) = line.size + sizeAll lines := rfl

@[simp] theorem sizeAll_append (lines lines' : List Line) :
    sizeAll (lines ++ lines') = sizeAll lines + sizeAll lines' := by
  induction lines with
  | nil => simp
  | cons line lines ih => simp [ih, Nat.add_assoc]

theorem length_of_instruction {m : Cpu.Mnemonic} {o : Cpu.Operand} {bytes : List UInt8}
    (h : Cpu.encode? m o = some bytes) : bytes.length = 1 + o.bytes.length := by
  obtain ⟨opcode, -, rfl⟩ := Option.map_eq_some_iff.1 h
  rw [List.length_cons, Nat.add_comm]

theorem length_of_encode? {labels : LabelId → Option UInt16} {here : UInt16} {line : Line}
    {bytes : List UInt8} (h : line.encode? labels here = some bytes) :
    bytes.length = line.size := by
  cases line with
  | op m o => exact length_of_instruction h
  | mark l => cases h; rfl
  | jump l =>
      obtain ⟨a, -, ha⟩ := Option.bind_eq_some_iff.1 h
      exact length_of_instruction ha
  | branch m l =>
      obtain ⟨a, -, ha⟩ := Option.bind_eq_some_iff.1 h
      obtain ⟨d, -, hd⟩ := Option.bind_eq_some_iff.1 ha
      exact length_of_instruction hd
  | spin => exact length_of_instruction h

theorem encodeAll?_cons_iff {labels : LabelId → Option UInt16} {here : UInt16} {line : Line}
    {lines : List Line} {code : List UInt8} :
    encodeAll? labels here (line :: lines) = some code ↔
      ∃ bytes rest, line.encode? labels here = some bytes ∧
        encodeAll? labels (here + UInt16.ofNat line.size) lines = some rest ∧
        code = bytes ++ rest := by
  simp only [encodeAll?, Option.bind_eq_some_iff, Option.map_eq_some_iff]
  constructor
  · rintro ⟨bytes, hbytes, rest, hrest, rfl⟩
    exact ⟨bytes, rest, hbytes, hrest, rfl⟩
  · rintro ⟨bytes, rest, hbytes, hrest, rfl⟩
    exact ⟨bytes, hbytes, rest, hrest, rfl⟩

theorem encodeAll?_singleton_iff {labels : LabelId → Option UInt16} {here : UInt16} {line : Line}
    {code : List UInt8} :
    encodeAll? labels here [line] = some code ↔ line.encode? labels here = some code := by
  rw [encodeAll?_cons_iff]
  constructor
  · rintro ⟨bytes, rest, hbytes, hrest, rfl⟩
    cases hrest
    rw [List.append_nil]
    exact hbytes
  · intro hcode
    exact ⟨code, [], hcode, rfl, (List.append_nil code).symm⟩

/-- The second pass goes over two lists of lines one after the other. -/
theorem encodeAll?_append_iff {labels : LabelId → Option UInt16} {here : UInt16}
    {lines lines' : List Line} {code : List UInt8} :
    encodeAll? labels here (lines ++ lines') = some code ↔
      ∃ bytes rest, encodeAll? labels here lines = some bytes ∧
        encodeAll? labels (here + UInt16.ofNat (sizeAll lines)) lines' = some rest ∧
        code = bytes ++ rest := by
  induction lines generalizing here code with
  | nil => simp [encodeAll?]
  | cons line lines ih =>
      simp only [List.cons_append, encodeAll?_cons_iff, ih, sizeAll_cons, add_ofNat_add_ofNat]
      constructor
      · rintro ⟨bytes, _, hbytes, ⟨mid, rest, hmid, hrest, rfl⟩, rfl⟩
        exact ⟨bytes ++ mid, rest, ⟨bytes, mid, hbytes, hmid, rfl⟩, hrest, by simp⟩
      · rintro ⟨_, rest, ⟨bytes, mid, hbytes, hmid, rfl⟩, hrest, rfl⟩
        exact ⟨bytes, mid ++ rest, hbytes, ⟨mid, rest, hmid, hrest, rfl⟩, by simp⟩

theorem length_of_encodeAll? {labels : LabelId → Option UInt16} {here : UInt16}
    {lines : List Line} {code : List UInt8} (h : encodeAll? labels here lines = some code) :
    code.length = sizeAll lines := by
  induction lines generalizing here code with
  | nil => cases h; rfl
  | cons line lines ih =>
      obtain ⟨bytes, rest, hbytes, hrest, rfl⟩ := encodeAll?_cons_iff.1 h
      rw [List.length_append, length_of_encode? hbytes, ih hrest, sizeAll_cons]

end Line

/-! ## What the assembler's steps do -/

namespace Assembler

theorem here_eq (a : Assembler) : a.here = a.base + UInt16.ofNat a.code.size := rfl

@[simp] theorem here_empty (base : UInt16) : here { base := base } = base := UInt16.add_zero base

theorem label?_push {a : Assembler} {x : Option UInt16} {n : Nat} (h : n < a.labels.size) :
    label? { a with labels := a.labels.push x } n = a.label? n := by
  show (a.labels.push x)[n]? = a.labels[n]?
  rw [Array.getElem?_push, if_neg (Nat.ne_of_lt h)]

theorem lt_of_label? {a : Assembler} {n : Nat} {x : Option UInt16} (h : a.label? n = some x) :
    n < a.labels.size :=
  (Array.getElem?_eq_some_iff.1 h).1

theorem op_eq_ok {m : Cpu.Mnemonic} {o : Cpu.Operand} {a a' : Assembler}
    (h : op m o a = .ok () a') :
    ∃ bytes, Cpu.encode? m o = some bytes ∧ a.base.toNat + a.code.size + bytes.length ≤ 0x10000 ∧
      a' = { a with code := a.code ++ bytes } := by
  unfold op at h
  split at h
  · cases h
  · next bytes hbytes =>
      dsimp only at h
      split at h
      · cases h
      · next hstop =>
          cases h
          exact ⟨bytes, hbytes, Nat.le_of_not_lt hstop, rfl⟩

theorem bind_eq_ok {n : Nat} {a a' : Assembler} (h : bind n a = .ok () a') :
    a.label? n = some none ∧
      a' = { a with labels := a.labels.setIfInBounds n (some a.here) } := by
  unfold bind at h
  split at h
  · cases h
  · cases h
  · next hn => cases h; exact ⟨hn, rfl⟩

/-- A jump leaves a zero operand and a patch for it. -/
theorem jumpTo_eq_ok {n : Nat} {a a' : Assembler} (h : jumpTo n a = .ok () a') :
    a.base.toNat + a.code.size + 3 ≤ 0x10000 ∧
      a' = { a with
        code := a.code ++ ([0x4C, 0, 0] : List UInt8)
        patches := a.patches.push ⟨a.code.size + 1, n, .absolute⟩ } := by
  obtain ⟨_, b, hop, hawait⟩ := bind_eq_ok_iff.1 h
  obtain ⟨bytes, hbytes, hfits, rfl⟩ := op_eq_ok hop
  obtain rfl : bytes = [0x4C, 0, 0] := Option.some.inj (hbytes.symm.trans rfl)
  cases hawait
  refine ⟨hfits, ?_⟩
  rw [Bytes.size_append_list]
  rfl

/-- A branch to a bound label is complete; one to an unbound label leaves a
zero operand and a patch for it. -/
theorem branchTo_eq_ok {m : Cpu.Mnemonic} {n : Nat} {a a' : Assembler}
    (h : branchTo m n a = .ok () a') :
    (∃ target d bytes, a.label? n = some (some target) ∧ displacement a.here target = .ok d ∧
      Cpu.encode? m (.relative d) = some bytes ∧
      a.base.toNat + a.code.size + bytes.length ≤ 0x10000 ∧
      a' = { a with code := a.code ++ bytes }) ∨
    (∃ opcode, Cpu.opcode? m .relative = some opcode ∧
      a.base.toNat + a.code.size + 2 ≤ 0x10000 ∧
      a' = { a with
        code := a.code ++ [opcode, 0]
        patches := a.patches.push ⟨a.code.size + 1, n, .relative⟩ }) := by
  unfold branchTo at h
  split at h
  · cases h
  · next target htarget =>
      unfold branchAt at h
      split at h
      · cases h
      · next d hd =>
          obtain ⟨bytes, hbytes, hfits, rfl⟩ := op_eq_ok h
          exact .inl ⟨target, d, bytes, htarget, hd, hbytes, hfits, rfl⟩
  · obtain ⟨_, b, hop, hawait⟩ := bind_eq_ok_iff.1 h
    obtain ⟨bytes, hbytes, hfits, rfl⟩ := op_eq_ok hop
    obtain ⟨opcode, hopcode, rfl⟩ := Option.map_eq_some_iff.1 hbytes
    cases hawait
    refine .inr ⟨opcode, hopcode, hfits, ?_⟩
    rw [Bytes.size_append_list]
    rfl

theorem applyPatches_append_iff {a : Assembler} {ps qs : List Patch} {code out : Bytes} :
    a.applyPatches (ps ++ qs) code = .ok out ↔
      ∃ mid, a.applyPatches ps code = .ok mid ∧ a.applyPatches qs mid = .ok out := by
  induction ps generalizing code with
  | nil => simp [applyPatches]
  | cons p ps ih =>
      simp only [List.cons_append, applyPatches]
      split
      · simp
      · exact ih

theorem applyPatches_singleton_iff {a : Assembler} {p : Patch} {code out : Bytes} :
    a.applyPatches [p] code = .ok out ↔ a.applyPatch p code = .ok out := by
  simp only [applyPatches]
  cases a.applyPatch p code <;> simp

theorem applyPatch_eq_ok {a : Assembler} {p : Patch} {code out : Bytes}
    (h : a.applyPatch p code = .ok out) :
    ∃ target bytes, a.label? p.label = some (some target) ∧ a.patchBytes p target = .ok bytes ∧
      code.putAll? p.offset bytes = some out := by
  unfold applyPatch at h
  split at h
  · cases h
  · cases h
  · next target htarget =>
      split at h
      · cases h
      · next bytes hbytes => exact ⟨target, bytes, htarget, hbytes, orFault_eq_ok_iff.1 h⟩

theorem finish_eq_ok_iff {a : Assembler} {segment : Segment} :
    a.finish = .ok segment ↔ ∃ code, a.applyPatches a.patches.toList a.code = .ok code ∧
      segment = ⟨a.base, code, a.jumpOffsets⟩ := by
  unfold finish
  cases a.applyPatches a.patches.toList a.code with
  | ok code => simp [eq_comm]
  | error s => simp

end Assembler

namespace Draft

theorem finish_eq_ok_iff {d : Draft} {segment : Segment} :
    d.finish = .ok segment ↔ d.assembler.finish = .ok segment := by
  unfold finish
  cases d.assembler.finish with
  | ok segment' => simp
  | error s => simp

theorem assembling_eq_ok {α : Type} {x : Asm α} {d d' : Draft} {r : α}
    (h : assembling x d = .ok r d') :
    ∃ a, x d.assembler = .ok r a ∧ d' = { d with assembler := a } := by
  unfold assembling at h
  split at h
  · next a ha => cases h; exact ⟨a, ha, rfl⟩
  · cases h

/-! ## What a draft knows about labels -/

/-- The address of a label, once it is marked. -/
def address? (d : Draft) (l : LabelId) : Option UInt16 :=
  (d.marks.lookup l).bind fun n => (d.assembler.label? n).join

theorem address?_eq_some_iff {d : Draft} {l : LabelId} {a : UInt16} :
    d.address? l = some a ↔
      ∃ n, d.marks.lookup l = some n ∧ d.assembler.label? n = some (some a) := by
  simp [address?, Option.bind_eq_some_iff, Option.join_eq_some_iff]

/-- A draft with more lines: nothing known about labels is lost. -/
structure Extends (d d' : Draft) : Prop where
  base : d'.assembler.base = d.assembler.base
  marks : ∀ l n, d.marks.lookup l = some n → d'.marks.lookup l = some n
  labels : ∀ n a, d.assembler.label? n = some (some a) → d'.assembler.label? n = some (some a)

theorem Extends.refl (d : Draft) : Extends d d := ⟨rfl, fun _ _ h => h, fun _ _ h => h⟩

theorem Extends.trans {d d' d'' : Draft} (h : Extends d d') (h' : Extends d' d'') :
    Extends d d'' :=
  ⟨h'.base.trans h.base, fun l n hn => h'.marks l n (h.marks l n hn),
    fun n a ha => h'.labels n a (h.labels n a ha)⟩

theorem Extends.address? {d d' : Draft} (h : Extends d d') {l : LabelId} {a : UInt16}
    (ha : d.address? l = some a) : d'.address? l = some a := by
  obtain ⟨n, hn, hlabel⟩ := address?_eq_some_iff.1 ha
  exact address?_eq_some_iff.2 ⟨n, h.marks l n hn, h.labels n a hlabel⟩

/-- Every label of the block tree has a label of the assembler to itself, and
only a mark among the lines so far gives it an address. -/
structure Tracked (lines : List Line) (d : Draft) : Prop where
  inRange : ∀ l n, d.marks.lookup l = some n → n < d.assembler.labels.size
  distinct : ∀ l l' n, d.marks.lookup l = some n → d.marks.lookup l' = some n → l = l'
  marked : ∀ l a, d.address? l = some a → .mark l ∈ lines

/-- Filling in the patches of lines, wherever their bytes stand, makes these
bytes what the second pass says. -/
def Fills (final d : Draft) (lines : List Line) (bytes : List UInt8) (patches : List Patch) :
    Prop :=
  ∀ (before behind : List UInt8) (out : Bytes), before.length = d.assembler.code.size →
    final.assembler.applyPatches patches (before ++ bytes ++ behind).toArray = .ok out →
    ∃ code, Line.encodeAll? final.address? d.assembler.here lines = some code ∧
      out.toList = before ++ code ++ behind

/-- All that putting lines does to a draft. -/
structure Emits (lines : List Line) (d d' : Draft) : Prop where
  grows : Extends d d'
  tracks : ∀ before, Tracked before d → Tracked (before ++ lines) d'
  marked : ∀ pre l post, lines = pre ++ .mark l :: post →
    d'.address? l = some (d.assembler.here + UInt16.ofNat (Line.sizeAll pre))
  fits : d.assembler.base.toNat + d.assembler.code.size ≤ 0x10000 →
    d'.assembler.base.toNat + d'.assembler.code.size ≤ 0x10000
  emitted : ∃ bytes patches,
    d'.assembler.code.toList = d.assembler.code.toList ++ bytes ∧
    d'.assembler.patches.toList = d.assembler.patches.toList ++ patches ∧
    bytes.length = Line.sizeAll lines ∧
    ∀ final, Extends d' final → Fills final d lines bytes patches

theorem Emits.here {lines : List Line} {d d' : Draft} (h : Emits lines d d') :
    d'.assembler.here = d.assembler.here + UInt16.ofNat (Line.sizeAll lines) := by
  obtain ⟨bytes, patches, hcode, -, hlength, -⟩ := h.emitted
  have hsize : d'.assembler.code.size = d.assembler.code.size + Line.sizeAll lines := by
    rw [← Array.length_toList, hcode, List.length_append, hlength, Array.length_toList]
  rw [Assembler.here_eq, Assembler.here_eq, h.grows.base, hsize, add_ofNat_add_ofNat]

theorem Fills.append {final d d' : Draft} {lines lines' : List Line} {bytes bytes' : List UInt8}
    {patches patches' : List Patch} (hlength : bytes.length = Line.sizeAll lines)
    (hcode : d'.assembler.code.size = d.assembler.code.size + bytes.length)
    (hhere : d'.assembler.here = d.assembler.here + UInt16.ofNat (Line.sizeAll lines))
    (h : Fills final d lines bytes patches) (h' : Fills final d' lines' bytes' patches') :
    Fills final d (lines ++ lines') (bytes ++ bytes') (patches ++ patches') := by
  intro before behind out hbefore hout
  obtain ⟨mid, hmid, hout⟩ := Assembler.applyPatches_append_iff.1 hout
  rw [← List.append_assoc, List.append_assoc (before ++ bytes)] at hmid
  obtain ⟨code, hcode₁, hmidList⟩ := h before (bytes' ++ behind) mid hbefore hmid
  have hcodeLength : code.length = bytes.length := by
    rw [Line.length_of_encodeAll? hcode₁, hlength]
  -- the second part stands behind the first one, which is final already
  have hmidArray : mid = ((before ++ code) ++ bytes' ++ behind).toArray := by
    rw [← Array.toList_inj, hmidList]
    simp
  rw [hmidArray] at hout
  obtain ⟨code', hcode₂, hlist⟩ := h' (before ++ code) behind out
    (by rw [List.length_append, hbefore, hcodeLength, hcode]) hout
  rw [hhere] at hcode₂
  refine ⟨code ++ code', ?_, by rw [hlist]; simp⟩
  exact Line.encodeAll?_append_iff.2 ⟨code, code', hcode₁, hcode₂, rfl⟩

/-- Putting lines one list after the other is putting their concatenation. -/
theorem Emits.append {lines lines' : List Line} {d d' d'' : Draft} (h : Emits lines d d')
    (h' : Emits lines' d' d'') : Emits (lines ++ lines') d d'' where
  grows := h.grows.trans h'.grows
  tracks before hb := by
    rw [← List.append_assoc]
    exact h'.tracks _ (h.tracks _ hb)
  marked pre l post e := by
    rcases List.append_eq_append_iff.1 e with ⟨mid, rfl, hmid⟩ | ⟨mid, rfl, hmid⟩
    · rw [h'.marked mid l post hmid, h.here, Line.sizeAll_append, add_ofNat_add_ofNat]
    · cases mid with
      | nil =>
          have := h'.marked [] l post hmid.symm
          rw [this, h.here]
          simp
      | cons line mid =>
          obtain ⟨rfl, rfl⟩ := List.cons.inj hmid
          exact h'.grows.address? (h.marked pre l mid rfl)
  fits hd := h'.fits (h.fits hd)
  emitted := by
    obtain ⟨bytes, patches, hcode, hpatches, hlength, hfills⟩ := h.emitted
    obtain ⟨bytes', patches', hcode', hpatches', hlength', hfills'⟩ := h'.emitted
    refine ⟨bytes ++ bytes', patches ++ patches', ?_, ?_, ?_, ?_⟩
    · rw [hcode', hcode, List.append_assoc]
    · rw [hpatches', hpatches, List.append_assoc]
    · rw [List.length_append, hlength, hlength', Line.sizeAll_append]
    · intro final hfinal
      refine Fills.append hlength ?_ h.here (hfills final (h'.grows.trans hfinal))
        (hfills' final hfinal)
      rw [← Array.length_toList, hcode, List.length_append, Array.length_toList]

/-! ## One line -/

/-- A step that only learns about labels puts no lines. -/
theorem Emits.silent {d d' : Draft} (hgrows : Extends d d')
    (htracks : ∀ before, Tracked before d → Tracked before d')
    (hcode : d'.assembler.code = d.assembler.code)
    (hpatches : d'.assembler.patches = d.assembler.patches) : Emits [] d d' where
  grows := hgrows
  tracks before hb := by
    rw [List.append_nil]
    exact htracks before hb
  marked pre l post e := by simp at e
  fits hd := by rwa [hgrows.base, hcode]
  emitted := by
    refine ⟨[], [], by simp [hcode], by simp [hpatches], rfl, ?_⟩
    intro final _ before behind out _ hout
    cases hout
    exact ⟨[], rfl, by simp⟩

theorem Emits.refl (d : Draft) : Emits [] d d :=
  .silent (.refl d) (fun _ h => h) rfl rfl

/-- A label of the assembler that stands for no label of the block tree. -/
theorem Emits.fresh (d : Draft) (x : Option UInt16) :
    Emits [] d
      { d with assembler := { d.assembler with labels := d.assembler.labels.push x } } := by
  refine .silent ⟨rfl, fun _ _ h => h, ?_⟩ ?_ rfl rfl
  · intro n a ha
    exact (Assembler.label?_push (Assembler.lt_of_label? ha)).trans ha
  · intro before hb
    refine ⟨fun l n hn => ?_, hb.distinct, fun l a ha => ?_⟩
    · have := hb.inRange l n hn
      simp only [Array.size_push]
      omega
    · obtain ⟨n, hn, hlabel⟩ := address?_eq_some_iff.1 ha
      refine hb.marked l a (address?_eq_some_iff.2 ⟨n, hn, ?_⟩)
      exact (Assembler.label?_push (hb.inRange l n hn)).symm.trans hlabel

/-- The draft after a label of the block tree is met for the first time. -/
def named (d : Draft) (l : LabelId) : Draft where
  assembler := { d.assembler with labels := d.assembler.labels.push none }
  marks := (l, d.assembler.labels.size) :: d.marks

theorem lookup_named {d : Draft} {l l' : LabelId} {n : Nat}
    (h : (d.named l).marks.lookup l' = some n) :
    l' = l ∧ n = d.assembler.labels.size ∨ l' ≠ l ∧ d.marks.lookup l' = some n := by
  simp only [named, List.lookup_cons] at h
  split at h
  · next heq => exact .inl ⟨by simpa using heq, (Option.some.inj h).symm⟩
  · next hne => exact .inr ⟨by simpa using hne, h⟩

theorem Tracked.named {before : List Line} {d : Draft} (hb : Tracked before d) (l : LabelId) :
    Tracked before (d.named l) where
  inRange l' n hn := by
    show n < (d.assembler.labels.push none).size
    rw [Array.size_push]
    rcases lookup_named hn with ⟨-, rfl⟩ | ⟨-, hn⟩
    · exact Nat.lt_succ_self _
    · exact Nat.lt_succ_of_lt (hb.inRange l' n hn)
  distinct l₁ l₂ n h₁ h₂ := by
    -- the new number is larger than all that were handed out before
    rcases lookup_named h₁ with ⟨hl₁, hn₁⟩ | ⟨-, hold₁⟩ <;>
      rcases lookup_named h₂ with ⟨hl₂, hn₂⟩ | ⟨-, hold₂⟩
    · exact hl₁.trans hl₂.symm
    · exact absurd (hn₁ ▸ hb.inRange _ _ hold₂) (Nat.lt_irrefl _)
    · exact absurd (hn₂ ▸ hb.inRange _ _ hold₁) (Nat.lt_irrefl _)
    · exact hb.distinct l₁ l₂ n hold₁ hold₂
  marked l' a ha := by
    obtain ⟨n, hn, hlabel⟩ := address?_eq_some_iff.1 ha
    rcases lookup_named hn with ⟨-, rfl⟩ | ⟨-, hn⟩
    · simp [Draft.named, Assembler.label?] at hlabel
    · refine hb.marked l' a (address?_eq_some_iff.2 ⟨n, hn, ?_⟩)
      exact (Assembler.label?_push (hb.inRange l' n hn)).symm.trans hlabel

/-- Naming a label of the block tree puts no lines. -/
theorem labelFor_eq_ok {l : LabelId} {n : Nat} {d d' : Draft} (h : labelFor l d = .ok n d') :
    d'.marks.lookup l = some n ∧ Emits [] d d' := by
  unfold labelFor at h
  split at h
  · next hl => cases h; exact ⟨hl, .refl d⟩
  · next hl =>
      cases h
      refine ⟨by simp, ?_⟩
      show Emits [] d (d.named l)
      refine .silent ⟨rfl, fun l' n' hn' => ?_, fun n' a ha => ?_⟩
        (fun before hb => hb.named l) rfl rfl
      · have hne : (l' == l) = false := by
          refine beq_eq_false_iff_ne.2 ?_
          rintro rfl
          cases hl.symm.trans hn'
        simp only [named, List.lookup_cons, hne]
        exact hn'
      · exact (Assembler.label?_push (Assembler.lt_of_label? ha)).trans ha

/-- Binding a label of the block tree is its mark. -/
theorem Emits.bound {l : LabelId} {n : Nat} {d : Draft} (hl : d.marks.lookup l = some n)
    (hn : d.assembler.label? n = some none) :
    Emits [.mark l] d { d with assembler := { d.assembler with
      labels := d.assembler.labels.setIfInBounds n (some d.assembler.here) } } := by
  have hlt := Assembler.lt_of_label? hn
  have hother : ∀ k, k ≠ n → (d.assembler.labels.setIfInBounds n (some d.assembler.here))[k]? =
      d.assembler.labels[k]? := by
    intro k hk
    rw [Array.getElem?_setIfInBounds, if_neg (Ne.symm hk)]
  refine ⟨⟨rfl, fun _ _ h => h, fun k a ha => ?_⟩, fun before hb => ?_, ?_, fun hd => hd, ?_⟩
  · have hk : k ≠ n := by
      rintro rfl
      cases hn.symm.trans ha
    exact (hother k hk).trans ha
  · refine ⟨fun l' k hk => ?_, hb.distinct, fun l' a ha => ?_⟩
    · simpa using hb.inRange l' k hk
    · obtain ⟨k, hk, hlabel⟩ := address?_eq_some_iff.1 ha
      by_cases hkn : k = n
      · subst hkn
        obtain rfl := hb.distinct l' l k hk hl
        simp
      · have := hb.marked l' a (address?_eq_some_iff.2 ⟨k, hk, (hother k hkn).symm.trans hlabel⟩)
        exact List.mem_append_left _ this
  · intro pre l' post e
    obtain ⟨rfl, ⟨⟩, -⟩ : pre = [] ∧ (.mark l : Line) = .mark l' ∧ [] = post := by
      cases pre <;> simp_all
    refine address?_eq_some_iff.2 ⟨n, hl, ?_⟩
    show (d.assembler.labels.setIfInBounds n _)[n]? = _
    rw [Array.getElem?_setIfInBounds, if_pos rfl, if_pos hlt]
    simp
  · refine ⟨[], [], by simp, by simp, rfl, ?_⟩
    intro final _ before behind out _ hout
    cases hout
    exact ⟨[], rfl, by simp⟩

theorem eq_of_singleton_eq_append_mark {line : Line} {pre post : List Line} {l : LabelId}
    (h : [line] = pre ++ .mark l :: post) : line = .mark l := by
  cases pre with
  | nil => exact (List.cons.inj h).1
  | cons line' pre => simp at h

/-- A line other than a mark appends bytes and patches for them. -/
theorem Emits.appended {line : Line} {d d' : Draft} (bytes : List UInt8) (patches : List Patch)
    (hline : ∀ l, line ≠ .mark l) (hsize : bytes.length = line.size)
    (hfits : d.assembler.base.toNat + d.assembler.code.size + bytes.length ≤ 0x10000)
    (hfills : ∀ final, Extends d final → Fills final d [line] bytes patches)
    (hd' : d' = { d with assembler := { d.assembler with
      code := d.assembler.code ++ bytes
      patches := d.assembler.patches ++ patches } }) : Emits [line] d d' := by
  subst hd'
  refine ⟨⟨rfl, fun _ _ h => h, fun _ _ h => h⟩, fun before hb => ?_, fun pre l post e => ?_,
    fun _ => ?_, bytes, patches, by simp, by simp, by simpa using hsize, ?_⟩
  · exact ⟨hb.inRange, hb.distinct, fun l a ha => List.mem_append_left _ (hb.marked l a ha)⟩
  · exact absurd (eq_of_singleton_eq_append_mark e) (hline l)
  · show d.assembler.base.toNat + (d.assembler.code ++ bytes).size ≤ 0x10000
    rw [Bytes.size_append_list]
    omega
  · exact fun final hfinal => hfills final ⟨hfinal.base, hfinal.marks, hfinal.labels⟩

/-- Bytes that the second pass gives as they are need no patch. -/
theorem Fills.complete {line : Line} {final d : Draft} {bytes : List UInt8}
    (hbytes : line.encode? final.address? d.assembler.here = some bytes) :
    Fills final d [line] bytes [] := by
  intro before behind out _ hout
  cases hout
  exact ⟨bytes, Line.encodeAll?_singleton_iff.2 hbytes, by simp⟩

/-- A patch behind the opcode fills in the operand. -/
theorem Fills.patched {line : Line} {final d : Draft} {opcode : UInt8} {zeros : List UInt8}
    {n : Nat} {kind : PatchKind}
    (hpatch : ∀ target bytes, final.assembler.label? n = some (some target) →
      final.assembler.patchBytes ⟨d.assembler.code.size + 1, n, kind⟩ target = .ok bytes →
      bytes.length = zeros.length ∧
        line.encode? final.address? d.assembler.here = some (opcode :: bytes)) :
    Fills final d [line] (opcode :: zeros) [⟨d.assembler.code.size + 1, n, kind⟩] := by
  intro before behind out hbefore hout
  obtain ⟨target, bytes, htarget, hbytes, hput⟩ :=
    Assembler.applyPatch_eq_ok (Assembler.applyPatches_singleton_iff.1 hout)
  obtain ⟨hlength, hencode⟩ := hpatch target bytes htarget hbytes
  refine ⟨opcode :: bytes, Line.encodeAll?_singleton_iff.2 hencode, ?_⟩
  have hbuffer :
      before ++ opcode :: zeros ++ behind = (before ++ [opcode]) ++ (zeros ++ behind) := by
    simp
  have hfront : (before ++ [opcode]).length = d.assembler.code.size + 1 := by simp [hbefore]
  rw [Bytes.toList_of_putAll? hput, hbuffer, ← hfront, List.take_left, hlength,
    ← List.drop_drop, List.drop_left, List.drop_left]
  simp

/-- A jump of the assembler is a line that jumps to the address of the label. -/
theorem Emits.jumped {line : Line} {n : Nat} {d : Draft} {a : Assembler}
    (ha : Assembler.jumpTo n d.assembler = .ok () a) (hline : ∀ l, line ≠ .mark l)
    (hsize : line.size = 3)
    (hencode : ∀ final target, Extends d final → final.assembler.label? n = some (some target) →
      line.encode? final.address? d.assembler.here = Cpu.encode? .jmp (.absolute target)) :
    Emits [line] d { d with assembler := a } := by
  obtain ⟨hfits, rfl⟩ := Assembler.jumpTo_eq_ok ha
  refine .appended [0x4C, 0, 0] [⟨d.assembler.code.size + 1, n, .absolute⟩] hline hsize.symm hfits
    (fun final hfinal => .patched ?_) (by simp)
  rintro target bytes htarget ⟨⟩
  exact ⟨rfl, hencode final target hfinal htarget⟩

/-- A branch of the assembler is complete or waits for its label. -/
theorem Emits.branched {m : Cpu.Mnemonic} {l : LabelId} {n : Nat} {d : Draft} {a : Assembler}
    (ha : Assembler.branchTo m n d.assembler = .ok () a) (hl : d.marks.lookup l = some n) :
    Emits [.branch m l] d { d with assembler := a } := by
  have hencode : ∀ final target distance, Extends d final →
      final.assembler.label? n = some (some target) →
      displacement d.assembler.here target = .ok distance →
      (Line.branch m l).encode? final.address? d.assembler.here =
        Cpu.encode? m (.relative distance) := by
    intro final target distance hfinal htarget hdistance
    have hlabel : final.address? l = some target :=
      address?_eq_some_iff.2 ⟨n, hfinal.marks l n hl, htarget⟩
    rw [Line.encode?, hlabel, Option.bind_some, hdistance]
    rfl
  rcases Assembler.branchTo_eq_ok ha with
    ⟨target, distance, bytes, htarget, hdistance, hbytes, hfits, rfl⟩ |
    ⟨opcode, hopcode, hfits, rfl⟩
  · have hcomplete : ∀ final, Extends d final →
        (Line.branch m l).encode? final.address? d.assembler.here = some bytes := by
      intro final hfinal
      rw [hencode final target distance hfinal (hfinal.labels n target htarget) hdistance, hbytes]
    exact .appended bytes [] (by simp) (Line.length_of_encode? (hcomplete d (.refl d))) hfits
      (fun final hfinal => .complete (hcomplete final hfinal)) (by simp)
  · refine .appended [opcode, 0] [⟨d.assembler.code.size + 1, n, .relative⟩] (by simp) rfl hfits
      (fun final hfinal => .patched ?_) (by simp)
    intro target bytes htarget hbytes
    obtain ⟨distance, hdistance, rfl⟩ := except_map_eq_ok_iff.1 hbytes
    -- the operand stands one byte behind the opcode
    rw [hfinal.base, Nat.add_sub_cancel, ← Assembler.here_eq] at hdistance
    rw [hencode final target distance hfinal htarget hdistance]
    exact ⟨rfl, Option.map_eq_some_iff.2 ⟨opcode, hopcode, rfl⟩⟩

/-- What one line does. -/
theorem put_emits {line : Line} {d d' : Draft} (h : put line d = .ok () d') :
    Emits [line] d d' := by
  cases line with
  | op m o =>
      obtain ⟨a, ha, rfl⟩ := assembling_eq_ok h
      obtain ⟨bytes, hbytes, hfits, rfl⟩ := Assembler.op_eq_ok ha
      have hencode : ∀ labels here, (Line.op m o).encode? labels here = some bytes :=
        fun _ _ => hbytes
      exact .appended bytes [] (by simp) (Line.length_of_encode? (hencode d.address? 0)) hfits
        (fun _ _ => .complete (hencode _ _)) (by simp)
  | mark l =>
      obtain ⟨n, d₁, hn, h⟩ := bind_eq_ok_iff.1 h
      obtain ⟨hl, hd₁⟩ := labelFor_eq_ok hn
      obtain ⟨a, ha, rfl⟩ := assembling_eq_ok h
      obtain ⟨hnone, rfl⟩ := Assembler.bind_eq_ok ha
      exact hd₁.append (.bound hl hnone)
  | jump l =>
      obtain ⟨n, d₁, hn, h⟩ := bind_eq_ok_iff.1 h
      obtain ⟨hl, hd₁⟩ := labelFor_eq_ok hn
      obtain ⟨a, ha, rfl⟩ := assembling_eq_ok h
      refine hd₁.append (.jumped ha (by simp) rfl fun final target hfinal htarget => ?_)
      rw [Line.encode?, address?_eq_some_iff.2 ⟨n, hfinal.marks l n hl, htarget⟩]
      rfl
  | branch m l =>
      obtain ⟨n, d₁, hn, h⟩ := bind_eq_ok_iff.1 h
      obtain ⟨hl, hd₁⟩ := labelFor_eq_ok hn
      obtain ⟨a, ha, rfl⟩ := assembling_eq_ok h
      exact hd₁.append (.branched ha hl)
  | spin =>
      obtain ⟨a, ha, rfl⟩ := assembling_eq_ok h
      obtain ⟨n, a₁, ⟨⟩, ha⟩ := bind_eq_ok_iff.1 ha
      obtain ⟨_, a₂, hbind, hjump⟩ := bind_eq_ok_iff.1 ha
      obtain ⟨-, rfl⟩ := Assembler.bind_eq_ok hbind
      -- the label is bound where the jump stands
      have hlabels : (d.assembler.labels.push none).setIfInBounds d.assembler.labels.size
          (some d.assembler.here) = d.assembler.labels.push (some d.assembler.here) := by
        simp [Array.setIfInBounds, Array.set_push]
      have hjump : Assembler.jumpTo d.assembler.labels.size { d.assembler with
          labels := d.assembler.labels.push (some d.assembler.here) } = .ok () a := by
        rw [← hlabels]
        exact hjump
      refine (Emits.fresh d (some d.assembler.here)).append
        (.jumped hjump (by simp) rfl fun final target hfinal htarget => ?_)
      have hbound : final.assembler.label? d.assembler.labels.size = some (some d.assembler.here) :=
        hfinal.labels _ _ (by simp [Assembler.label?])
      obtain rfl : target = d.assembler.here :=
        Option.some.inj (Option.some.inj (htarget.symm.trans hbound))
      rfl

/-! ## All lines -/

/-- Putting lines in order emits them in order. -/
theorem putLines_emits {lines : List Line} {d d' : Draft} (h : putLines lines d = .ok () d') :
    Emits lines d d' := by
  induction lines generalizing d with
  | nil =>
      obtain ⟨-, rfl⟩ := pure_eq_ok_iff.1 h
      exact .refl d
  | cons line lines ih =>
      obtain ⟨_, d₁, hline, hlines⟩ := bind_eq_ok_iff.1 h
      exact (put_emits hline).append (ih hlines)

/-- What a finished draft of lines is: the bytes of the second pass, with the
addresses of the first one. -/
structure Assembled (lines : List Line) (base : UInt16) (labels : LabelId → Option UInt16)
    (segment : Segment) : Prop where
  origin : segment.origin = base
  bytes : Line.encodeAll? labels base lines = some segment.bytes.toList
  fits : base.toNat + segment.size ≤ 0x10000
  marked : ∀ pre l post, lines = pre ++ .mark l :: post →
    labels l = some (base + UInt16.ofNat (Line.sizeAll pre))
  labelled : ∀ l a, labels l = some a → .mark l ∈ lines

theorem Assembled.size_eq {lines : List Line} {base : UInt16} {labels : LabelId → Option UInt16}
    {segment : Segment} (h : Assembled lines base labels segment) :
    segment.size = Line.sizeAll lines := by
  rw [← Line.length_of_encodeAll? h.bytes, segment.length_bytes]

/-- Filling in the patches of a draft that started without code gives the bytes of
the second pass. -/
theorem Emits.bytes {lines : List Line} {d d' : Draft} (h : Emits lines d d')
    (hcode : d.assembler.code = #[]) (hpatches : d.assembler.patches = #[]) {out : Bytes}
    (hout : d'.assembler.applyPatches d'.assembler.patches.toList d'.assembler.code = .ok out) :
    Line.encodeAll? d'.address? d.assembler.here lines = some out.toList := by
  obtain ⟨bytes, patches, hbytes, hnew, -, hfills⟩ := h.emitted
  rw [hcode, List.nil_append] at hbytes
  rw [hpatches, List.nil_append] at hnew
  have hbuffer : d'.assembler.applyPatches patches ([] ++ bytes ++ []).toArray = .ok out := by
    rw [List.nil_append, List.append_nil, ← hbytes, ← hnew]
    exact hout
  obtain ⟨code, hencode, hlist⟩ :=
    hfills d' (.refl d') [] [] out (by rw [hcode]; rfl) hbuffer
  rw [List.nil_append, List.append_nil] at hlist
  rw [hlist, hencode]

/-- Assembling in one pass is assembling in two. -/
theorem assembled {lines : List Line} {base : UInt16} {d : Draft} {segment : Segment}
    (hlines : Emits lines { assembler := { base := base } } d) (hfinish : d.finish = .ok segment) :
    Assembled lines base d.address? segment := by
  obtain ⟨code, happly, rfl⟩ := Assembler.finish_eq_ok_iff.1 (finish_eq_ok_iff.1 hfinish)
  have hbytes := hlines.bytes rfl rfl happly
  rw [Assembler.here_empty] at hbytes
  have hbase : d.assembler.base = base := hlines.grows.base
  have hfits : d.assembler.base.toNat + d.assembler.code.size ≤ 0x10000 :=
    hlines.fits (Nat.le_of_lt base.toNat_lt)
  refine ⟨hbase, hbytes, ?_, ?_, ?_⟩
  · rw [← hbase]
    show d.assembler.base.toNat + code.size ≤ 0x10000
    obtain ⟨bytes, -, hcode, -, hlength, -⟩ := hlines.emitted
    rw [← Array.length_toList, Line.length_of_encodeAll? hbytes, ← hlength]
    rwa [← Array.length_toList, hcode, List.nil_append] at hfits
  · intro pre l post e
    rw [hlines.marked pre l post e, Assembler.here_empty]
  · have hstart : Tracked [] ({ assembler := { base := base } } : Draft) := by
      refine ⟨?_, ?_, ?_⟩ <;> simp [address?]
    exact (hlines.tracks [] hstart).marked

end Draft

end Cartridge
