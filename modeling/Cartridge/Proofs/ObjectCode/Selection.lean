/-
# `Cartridge.Proofs.ObjectCode.Selection` — where the lines of an instruction come from

An instruction is selected if all names in it are resolved.  Then the lines
name the addresses that the names mean, in the sense of `Meaning`:

    instruction        lines
    copy d, s          LDA and STA for each byte of `s`
    widen d, s         LDA s   STA d   LDA #0   STA d+1
    L:                 the mark of `L`, and no other instruction has one
    jump L             JMP L
    bz s, L            LDA s   BEQ L
    bnz s, L           LDA s   BNE L
    halt               JMP *

Proved here: these inversions, and that a draft takes the code of blocks as the
concatenation of the lines of its instructions (`putBlocks_emits`).
-/
import Cartridge.ObjectCode.Basic
import Cartridge.Proofs.ObjectCode.Execution

namespace Cartridge

/-! ## One instruction -/

namespace Site

/-- The names of a tree, for a site in it. -/
def names (site : Site) : Names := site.tree.names site.storage

theorem names_of_address {site : Site} {name : String} {a : UInt16}
    (h : site.address name = .ok a) : site.names site.block name a := by
  unfold address at h
  split at h
  · cases h
  · next hresolve =>
      exact ⟨_, BlockTree.nearest_of_resolve hresolve, orFault_eq_ok_iff.1 h⟩

theorem locates_of_placeAddress {site : Site} {p : Place} {a : UInt16}
    (h : site.placeAddress p = .ok a) : site.names.Locates site.block p a := by
  obtain ⟨start, hstart, rfl⟩ := except_map_eq_ok_iff.1 h
  exact ⟨start, names_of_address hstart, rfl⟩

theorem byte?_constant (w : UInt16) (m : Memory) (i : Nat) :
    (constant w i).byte? m = some ((Source.constant w).byte m i) := by
  cases i <;> rfl

/-- The operands of a value load the bytes of its source. -/
theorem denotes_of_source {site : Site} {v : Value} {byte : Nat → Cpu.Operand}
    (h : site.source v = .ok byte) :
    ∃ s, site.names.Denotes site.block v s ∧ ∀ m i, (byte i).byte? m = some (s.byte m i) := by
  cases v with
  | immediate n =>
      cases h
      exact ⟨.constant n, .immediate n, byte?_constant n⟩
  | place p =>
      obtain ⟨a, ha, rfl⟩ := except_map_eq_ok_iff.1 h
      exact ⟨.memory a, .place (locates_of_placeAddress ha), fun m i => Cpu.Operand.byte?_memory ..⟩
  | addressOf name =>
      obtain ⟨a, ha, rfl⟩ := except_map_eq_ok_iff.1 h
      exact ⟨.constant a, .addressOf (names_of_address ha), byte?_constant a⟩

theorem select_copy {site : Site} {dest : Place} {src : Value} {width : Width} {lines : List Line}
    (h : site.select (.copy dest src width) = .ok lines) :
    ∃ d s, ∃ byte : Nat → Cpu.Operand, site.names.Locates site.block dest d ∧
      site.names.Denotes site.block src s ∧ (∀ m i, (byte i).byte? m = some (s.byte m i)) ∧
      lines = (List.range' 0 width.bytes).flatMap fun i =>
        [.op .lda (byte i), store (d + UInt16.ofNat i)] := by
  obtain ⟨d, hd, h⟩ := except_bind_eq_ok_iff.1 h
  obtain ⟨byte, hbyte, h⟩ := except_bind_eq_ok_iff.1 h
  obtain ⟨s, hs, hbytes⟩ := denotes_of_source hbyte
  cases h
  exact ⟨d, s, byte, locates_of_placeAddress hd, hs, hbytes, by rw [List.range_eq_range']⟩

theorem select_widen {site : Site} {dest src : Place} {lines : List Line}
    (h : site.select (.widen dest src) = .ok lines) :
    ∃ d s, site.names.Locates site.block dest d ∧ site.names.Locates site.block src s ∧
      lines = [load s, store d] ++ [.op .lda (.immediate 0), store (d + 1)] := by
  obtain ⟨d, hd, h⟩ := except_bind_eq_ok_iff.1 h
  obtain ⟨s, hs, h⟩ := except_bind_eq_ok_iff.1 h
  cases h
  exact ⟨d, s, locates_of_placeAddress hd, locates_of_placeAddress hs, rfl⟩

theorem select_branchZero {site : Site} {src : Place} {l : LabelId} {lines : List Line}
    (h : site.select (.branchZero src l) = .ok lines) :
    ∃ s, site.names.Locates site.block src s ∧ lines = [load s, .branch .beq l] := by
  obtain ⟨s, hs, h⟩ := except_bind_eq_ok_iff.1 h
  cases h
  exact ⟨s, locates_of_placeAddress hs, rfl⟩

theorem select_branchNonzero {site : Site} {src : Place} {l : LabelId} {lines : List Line}
    (h : site.select (.branchNonzero src l) = .ok lines) :
    ∃ s, site.names.Locates site.block src s ∧ lines = [load s, .branch .bne l] := by
  obtain ⟨s, hs, h⟩ := except_bind_eq_ok_iff.1 h
  cases h
  exact ⟨s, locates_of_placeAddress hs, rfl⟩

/-- Only a label is marked. -/
theorem eq_label_of_mark_mem {site : Site} {i : Instr} {l : LabelId} {lines : List Line}
    (h : site.select i = .ok lines) (hl : .mark l ∈ lines) : i = .label l := by
  cases i with
  | copy dest src width =>
      obtain ⟨d, s, byte, -, -, -, rfl⟩ := select_copy h
      simp [store] at hl
  | widen dest src =>
      obtain ⟨d, s, -, -, rfl⟩ := select_widen h
      simp [store, load] at hl
  | label l' =>
      cases h
      simp at hl
      rw [hl]
  | jump l' =>
      cases h
      simp at hl
  | branchZero src l' =>
      obtain ⟨s, -, rfl⟩ := select_branchZero h
      simp [load] at hl
  | branchNonzero src l' =>
      obtain ⟨s, -, rfl⟩ := select_branchNonzero h
      simp [load] at hl
  | halt =>
      cases h
      simp at hl

end Site

/-! ## Code in a row -/

/-- The lines of every instruction of a piece of code. -/
inductive Selected (tree : BlockTree) (storage : Storage) : Code → List (List Line) → Prop where
  | nil : Selected tree storage [] []
  | cons {block : BlockId} {i : Instr} {code : Code} {lines : List Line} {rest : List (List Line)}
      (h : Site.select ⟨tree, storage, block⟩ i = .ok lines)
      (hrest : Selected tree storage code rest) :
      Selected tree storage ((block, i) :: code) (lines :: rest)

namespace Selected

variable {tree : BlockTree} {storage : Storage}

theorem append {code code' : Code} {lines lines' : List (List Line)}
    (h : Selected tree storage code lines) (h' : Selected tree storage code' lines') :
    Selected tree storage (code ++ code') (lines ++ lines') := by
  induction h with
  | nil => exact h'
  | cons hsel _ ih => exact .cons hsel ih

theorem of_append {code code' : Code} {lines : List (List Line)}
    (h : Selected tree storage (code ++ code') lines) :
    ∃ front back, lines = front ++ back ∧ Selected tree storage code front ∧
      Selected tree storage code' back := by
  induction code generalizing lines with
  | nil => exact ⟨[], lines, rfl, .nil, h⟩
  | cons entry code ih =>
      cases h with
      | cons hselect hrest =>
          obtain ⟨front, back, rfl, hfront, hback⟩ := ih hrest
          exact ⟨_ :: front, back, rfl, .cons hselect hfront, hback⟩

theorem length_eq {code : Code} {lines : List (List Line)} (h : Selected tree storage code lines) :
    lines.length = code.length := by
  induction h with
  | nil => rfl
  | cons _ _ ih => rw [List.length_cons, List.length_cons, ih]

/-- The instruction at a position and the lines at that position. -/
theorem at_pos {code : Code} {lines : List (List Line)} (h : Selected tree storage code lines)
    {pos : Nat} {block : BlockId} {i : Instr} (hi : code[pos]? = some (block, i)) :
    ∃ ls, lines[pos]? = some ls ∧ Site.select ⟨tree, storage, block⟩ i = .ok ls := by
  induction h generalizing pos with
  | nil => simp at hi
  | cons hsel _ ih =>
      cases pos with
      | zero =>
          simp only [List.getElem?_cons_zero, Option.some.injEq, Prod.mk.injEq] at hi
          obtain ⟨rfl, rfl⟩ := hi
          exact ⟨_, rfl, hsel⟩
      | succ pos => exact ih hi

/-- A mark among the lines comes from a label of the code. -/
theorem marks_of_mem {code : Code} {lines : List (List Line)} (h : Selected tree storage code lines)
    {l : LabelId} (hl : .mark l ∈ lines.flatten) : ∃ pos, code.Marks l pos := by
  induction h with
  | nil => simp at hl
  | cons hsel _ ih =>
      rw [List.flatten_cons, List.mem_append] at hl
      rcases hl with hl | hl
      · obtain rfl := Site.eq_label_of_mark_mem hsel hl
        exact ⟨0, _, rfl⟩
      · obtain ⟨pos, block, hpos⟩ := ih hl
        exact ⟨pos + 1, block, hpos⟩

end Selected

/-- The code of blocks, in order. -/
def BlockTree.codeOf (tree : BlockTree) (ids : List BlockId) : Code :=
  ids.flatMap fun id => (tree.instrs id).toList.map (id, ·)

namespace Draft

theorem putLines_append_iff {front back : List Line} {d d' : Draft} :
    putLines (front ++ back) d = .ok () d' ↔
      ∃ mid, putLines front d = .ok () mid ∧ putLines back mid = .ok () d' := by
  induction front generalizing d with
  | nil =>
      constructor
      · intro h
        exact ⟨d, rfl, h⟩
      · rintro ⟨mid, hmid, hback⟩
        obtain ⟨-, rfl⟩ := pure_eq_ok_iff.1 hmid
        exact hback
  | cons line front ih =>
      simp only [List.cons_append, putLines, bind_eq_ok_iff, ih]
      constructor
      · rintro ⟨u, d₁, hput, mid, hfront, hback⟩
        exact ⟨mid, ⟨u, d₁, hput, hfront⟩, hback⟩
      · rintro ⟨mid, ⟨u, d₁, hput, hfront⟩, hback⟩
        exact ⟨u, d₁, hput, mid, hfront, hback⟩

variable {tree : BlockTree} {storage : Storage}

theorem putInstrs_eq_ok_iff {block : BlockId} {instrs : List Instr} {d d' : Draft} :
    putInstrs ⟨tree, storage, block⟩ instrs d = .ok () d' ↔
      ∃ lines, Selected tree storage (instrs.map (block, ·)) lines ∧
        putLines lines.flatten d = .ok () d' := by
  induction instrs generalizing d with
  | nil =>
      constructor
      · intro h
        exact ⟨[], .nil, h⟩
      · rintro ⟨_, ⟨⟩, h⟩
        exact h
  | cons i instrs ih =>
      constructor
      · intro h
        obtain ⟨lines, _, hselect, h⟩ := bind_eq_ok_iff.1 h
        obtain ⟨_, mid, hlines, h⟩ := bind_eq_ok_iff.1 h
        obtain ⟨rest, hrest, hput⟩ := ih.1 h
        split at hselect
        · next hsel =>
            cases hselect
            exact ⟨lines :: rest, .cons hsel hrest, putLines_append_iff.2 ⟨mid, hlines, hput⟩⟩
        · cases hselect
      · rintro ⟨_, hselected, hput⟩
        cases hselected with
        | @cons _ _ _ lines rest hsel hrest =>
            obtain ⟨mid, hlines, hput⟩ := putLines_append_iff.1 hput
            refine bind_eq_ok_iff.2 ⟨lines, d, ?_,
              bind_eq_ok_iff.2 ⟨(), mid, hlines, ih.2 ⟨rest, hrest, hput⟩⟩⟩
            rw [hsel]

/-- Putting blocks is putting the lines of their instructions. -/
theorem putBlocks_eq_ok_iff {ids : List BlockId} {d d' : Draft} :
    putBlocks tree storage ids d = .ok () d' ↔
      ∃ lines, Selected tree storage (tree.codeOf ids) lines ∧
        putLines lines.flatten d = .ok () d' := by
  induction ids generalizing d with
  | nil =>
      constructor
      · intro h
        exact ⟨[], .nil, h⟩
      · rintro ⟨_, ⟨⟩, h⟩
        exact h
  | cons id ids ih =>
      constructor
      · intro h
        obtain ⟨_, mid, hblock, hrest⟩ := bind_eq_ok_iff.1 h
        obtain ⟨front, hfront, hput⟩ := putInstrs_eq_ok_iff.1 hblock
        obtain ⟨back, hback, hput'⟩ := ih.1 hrest
        refine ⟨front ++ back, hfront.append hback, ?_⟩
        rw [List.flatten_append]
        exact putLines_append_iff.2 ⟨mid, hput, hput'⟩
      · rintro ⟨_, hselected, hput⟩
        obtain ⟨front, back, rfl, hfront, hback⟩ := hselected.of_append
        rw [List.flatten_append] at hput
        obtain ⟨mid, hput, hput'⟩ := putLines_append_iff.1 hput
        exact bind_eq_ok_iff.2 ⟨(), mid, putInstrs_eq_ok_iff.2 ⟨front, hfront, hput⟩,
          ih.2 ⟨back, hback, hput'⟩⟩

/-- The code of blocks becomes the lines of its instructions, one after the
other. -/
theorem putBlocks_emits {ids : List BlockId} {d d' : Draft}
    (h : putBlocks tree storage ids d = .ok () d') :
    ∃ lines, Selected tree storage (tree.codeOf ids) lines ∧ Emits lines.flatten d d' := by
  obtain ⟨lines, hselected, hlines⟩ := putBlocks_eq_ok_iff.1 h
  exact ⟨lines, hselected, putLines_emits hlines⟩

end Draft

/-! ## Segments -/

namespace Generator

/-- The main segment is assembled from the prologue, the code outside the startup
blocks, the end of the program and the interrupt handler. -/
theorem mainSegment_assembled {tree : BlockTree} {storage : Storage} {base handler : UInt16}
    {segment : Segment} (h : mainSegment tree storage base = .ok (segment, handler)) :
    ∃ lines labels, Selected tree storage (tree.codeOf (mainBlocks tree)) lines ∧
      Draft.Assembled (prologue ++ lines.flatten ++ [.spin] ++ [.op .rti .implied]) base labels
        segment ∧
      handler = base + UInt16.ofNat (Line.sizeAll (prologue ++ lines.flatten ++ [.spin])) := by
  unfold mainSegment at h
  split at h
  · cases h
  · next hd =>
      obtain ⟨segment', hfinish, heq⟩ := except_map_eq_ok_iff.1 h
      obtain ⟨rfl, rfl⟩ := Prod.mk.inj heq
      obtain ⟨_, d₁, hprologue, hd₁⟩ := bind_eq_ok_iff.1 hd
      obtain ⟨_, d₂, hblocks, hd₂⟩ := bind_eq_ok_iff.1 hd₁
      obtain ⟨_, d₃, hspin, hd₃⟩ := bind_eq_ok_iff.1 hd₂
      obtain ⟨_, _, ⟨⟩, hd₄⟩ := bind_eq_ok_iff.1 hd₃
      obtain ⟨_, d₅, hrti, hd₅⟩ := bind_eq_ok_iff.1 hd₄
      obtain ⟨rfl, rfl⟩ := pure_eq_ok_iff.1 hd₅
      obtain ⟨lines, hselected, hemits⟩ := Draft.putBlocks_emits hblocks
      have hspun := ((Draft.putLines_emits hprologue).append hemits).append (Draft.put_emits hspin)
      have hall := hspun.append (Draft.put_emits hrti)
      refine ⟨lines, _, hselected, Draft.assembled hall hfinish, ?_⟩
      rw [hspun.here, Assembler.here_empty]

theorem startupSegment_eq_ok {tree : BlockTree} {storage : Storage} {segment : Segment}
    (h : startupSegment tree storage = .ok segment) :
    ∃ d, Draft.putBlocks tree storage (startupBlocks tree) { assembler := { base := 0 } } =
      .ok () d ∧ d.finish = .ok segment := by
  unfold startupSegment at h
  split at h
  · cases h
  · next d hd => exact ⟨d, hd, h⟩

/-- The startup segment is assembled from the code of the startup blocks. -/
theorem startupSegment_assembled {tree : BlockTree} {storage : Storage} {segment : Segment}
    (h : startupSegment tree storage = .ok segment) :
    ∃ lines labels, Selected tree storage (tree.codeOf (startupBlocks tree)) lines ∧
      Draft.Assembled lines.flatten 0 labels segment := by
  obtain ⟨d, hd, hfinish⟩ := startupSegment_eq_ok h
  obtain ⟨lines, hselected, hemits⟩ := Draft.putBlocks_emits hd
  exact ⟨lines, _, hselected, Draft.assembled hemits hfinish⟩

theorem need_eq_ok {α : Type} {x : Except (Stop CodeError) α} {a : α} {g g' : Generator}
    (h : need x g = .ok a g') : x = .ok a ∧ g = g' := by
  cases x with
  | ok b => cases h; exact ⟨rfl, rfl⟩
  | error s => cases h

/-- What code generation leaves: both segments, for the addresses that it has
handed out. -/
theorem objectCode_eq_ok {tree : BlockTree} {base : UInt16} {g g' : Generator} {object : ObjectCode}
    (h : objectCode tree base g = .ok object g') :
    ∃ handler, mainSegment tree g'.storage base = .ok (object.main, handler) ∧
      startupSegment tree g'.storage = .ok object.startup ∧
      object.vectors = { nmi := handler, reset := base, irq := handler } ∧
      object.symbols = globals tree g'.storage := by
  obtain ⟨_, g₁, -, h₁⟩ := bind_eq_ok_iff.1 h
  obtain ⟨_, _, ⟨⟩, h₂⟩ := bind_eq_ok_iff.1 h₁
  obtain ⟨⟨main, handler⟩, g₃, hneed, h₃⟩ := bind_eq_ok_iff.1 h₂
  obtain ⟨hmain, rfl⟩ := need_eq_ok hneed
  obtain ⟨_, _, ⟨⟩, h₄⟩ := bind_eq_ok_iff.1 h₃
  obtain ⟨startup, g₅, hneed', h₅⟩ := bind_eq_ok_iff.1 h₄
  obtain ⟨hstartup, rfl⟩ := need_eq_ok hneed'
  obtain ⟨_, _, ⟨⟩, h₆⟩ := bind_eq_ok_iff.1 h₅
  obtain ⟨rfl, rfl⟩ := pure_eq_ok_iff.1 h₆
  exact ⟨handler, hmain, hstartup, rfl, rfl⟩

/-! ## The journal does not matter -/

/-- A step whose result depends on the storage alone. -/
def Blind {α : Type} (x : Step α) : Prop :=
  ∀ g g' a h, g.storage = g'.storage → x g = .ok a h →
    ∃ h', x g' = .ok a h' ∧ h.storage = h'.storage

theorem Blind.pure {α : Type} (a : α) : Blind (pure a) := by
  intro g g' b h hstorage hx
  obtain ⟨rfl, rfl⟩ := pure_eq_ok_iff.1 hx
  exact ⟨g', rfl, hstorage⟩

theorem Blind.bind {α β : Type} {x : Step α} {f : α → Step β} (hx : Blind x)
    (hf : ∀ a, Blind (f a)) : Blind (x >>= f) := by
  intro g g' b h hstorage hxf
  obtain ⟨a, h₁, ha, hb⟩ := bind_eq_ok_iff.1 hxf
  obtain ⟨h₁', ha', hstorage₁⟩ := hx g g' a h₁ hstorage ha
  obtain ⟨h', hb', hstorage'⟩ := hf a h₁ h₁' b h hstorage₁ hb
  exact ⟨h', bind_eq_ok_iff.2 ⟨a, h₁', ha', hb'⟩, hstorage'⟩

theorem blind_note (event : Event) : Blind (note event) := by
  intro g g' a h hstorage hx
  cases hx
  exact ⟨_, rfl, hstorage⟩

theorem blind_need {α : Type} (x : Except (Stop CodeError) α) : Blind (need x) := by
  intro g g' a h hstorage hx
  obtain ⟨rfl, rfl⟩ := need_eq_ok hx
  exact ⟨g', rfl, hstorage⟩

theorem blind_allocate (owner : BlockId) (symbol : Symbol) : Blind (allocate owner symbol) := by
  intro g g' a h hstorage hx
  unfold allocate at hx ⊢
  rw [← hstorage]
  split at hx
  · cases hx
  · next address s hs =>
      cases hx
      exact ⟨_, rfl, rfl⟩

theorem blind_allocateSymbols (owner : BlockId) (symbols : List Symbol) :
    Blind (allocateSymbols owner symbols) := by
  induction symbols with
  | nil => exact .pure ()
  | cons symbol symbols ih => exact (blind_allocate owner symbol).bind fun _ => ih

theorem blind_allocateBlocks (tree : BlockTree) (ids : List BlockId) :
    Blind (allocateBlocks tree ids) := by
  induction ids with
  | nil => exact .pure ()
  | cons id ids ih => exact (blind_allocateSymbols id _).bind fun _ => ih

/-- Object code does not depend on what was noted before. -/
theorem blind_objectCode (tree : BlockTree) (base : UInt16) : Blind (objectCode tree base) := by
  refine (blind_allocateBlocks tree _).bind fun _ => Blind.bind ?_ fun storage => ?_
  · intro g g' a h hstorage hx
    cases hx
    exact ⟨g', by rw [hstorage], hstorage⟩
  · refine (blind_need _).bind fun (main, handler) => (blind_note _).bind fun _ => ?_
    exact (blind_need _).bind fun startup => (blind_note _).bind fun _ => .pure _

end Generator

end Cartridge
