/-
# `Cartridge.Proofs.BlockTree.OfDecls` — the tree of a unit is flat

A unit has no scopes of its own, so its tree is the global block, with all
symbols and the code of the values that the main program stores, and a startup
block inside it for each of the others:

    flat symbols main boots      block 0         symbols, main
                                 block i + 1     the code of boots[i]

Each declaration adds one symbol, and code to one of the two (`Lowered`).
Proved here: the tree of a unit has this form (`ofDecls_eq_ok`), and what the
walks over it find: the main code is `main`, the startup code is that of
`boots` in order, and every name stands for its global symbol.
-/
import Cartridge.BlockTree.OfDecls
import Cartridge.ObjectCode.Basic
import Cartridge.Proofs.BlockTree.Meaning
import Cartridge.Proofs.Success

namespace Cartridge.BlockTree

/-- A startup block. -/
def bootBlock (boot : String × List Instr) : Block where
  name := boot.1
  kind := .startup
  parent := some 0
  instrs := boot.2.toArray

/-- The global block around `n` startup blocks. -/
def rootBlock (symbols : List Symbol) (main : List Instr) (n : Nat) : Block where
  name := "global"
  kind := .global
  children := List.range' 1 n
  symbols := symbols
  instrs := main.toArray

/-- A tree of the global block with startup blocks inside it. -/
def flat (symbols : List Symbol) (main : List Instr) (boots : List (String × List Instr)) :
    BlockTree where
  blocks := (rootBlock symbols main boots.length :: boots.map bootBlock).toArray

/-! ## Building a flat tree -/

theorem updateCurrent_id (t : BlockTree) : t.updateCurrent (fun b => b) = t := by
  have hblocks : t.blocks.modify t.current (fun b => b) = t.blocks := by
    apply Array.ext'
    rw [Array.toList_modify]
    exact List.modify_id ..
  rw [updateCurrent, hblocks]

theorem updateCurrent_updateCurrent (t : BlockTree) (f g : Block → Block) :
    (t.updateCurrent f).updateCurrent g = t.updateCurrent fun b => g (f b) := by
  have hblocks : (t.blocks.modify t.current f).modify t.current g =
      t.blocks.modify t.current fun b => g (f b) := by
    apply Array.ext'
    rw [Array.toList_modify, Array.toList_modify, Array.toList_modify]
    exact List.modify_modify_eq ..
  show { t with blocks := (t.blocks.modify t.current f).modify t.current g } = _
  rw [hblocks]
  rfl

/-- Instructions in a row are appended at once. -/
theorem appendAll_eq (t : BlockTree) (code : List Instr) :
    t.appendAll code = t.updateCurrent fun b => { b with instrs := b.instrs ++ code.toArray } := by
  induction code generalizing t with
  | nil =>
      have hid : (fun b : Block => { b with instrs := b.instrs ++ ([] : List Instr).toArray }) =
          fun b => b := by
        funext b
        simp
      rw [hid, updateCurrent_id]
      rfl
  | cons i code ih =>
      show (t.append i).appendAll code = _
      rw [ih, append, updateCurrent_updateCurrent]
      congr
      funext b
      simp

theorem updateCurrent_flat (symbols : List Symbol) (main : List Instr)
    (boots : List (String × List Instr)) (f : Block → Block) :
    (flat symbols main boots).updateCurrent f =
      { blocks := (f (rootBlock symbols main boots.length) :: boots.map bootBlock).toArray } := by
  rw [updateCurrent, flat, List.modify_toArray]
  rfl

theorem appendAll_flat (symbols : List Symbol) (main : List Instr)
    (boots : List (String × List Instr)) (code : List Instr) :
    (flat symbols main boots).appendAll code = flat symbols (main ++ code) boots := by
  rw [appendAll_eq, updateCurrent_flat, flat]
  simp [rootBlock]

/-- A flat tree takes a symbol that is new. -/
theorem declare_flat {symbols : List Symbol} {main : List Instr}
    {boots : List (String × List Instr)} {symbol : Symbol} {t : BlockTree}
    (h : declare symbol (flat symbols main boots) = .ok () t) :
    (∀ s ∈ symbols, s.name ≠ symbol.name) ∧ t = flat (symbols ++ [symbol]) main boots := by
  unfold declare at h
  split at h
  · split at h
    · cases h
    · next hnew =>
        cases h
        refine ⟨fun s hs hname => ?_, by rw [updateCurrent_flat]; rfl⟩
        have hfound : ((rootBlock symbols main boots.length).symbol? symbol.name).isSome = true :=
          List.find?_isSome.2 ⟨s, hs, by simpa using hname⟩
        rw [show (flat symbols main boots).block? (flat symbols main boots).current =
          some (rootBlock symbols main boots.length) from rfl, Option.filter_some, if_pos hfound]
          at hnew
        cases hnew
  · cases h

theorem modify_concat {α : Type} (l : List α) (a : α) (f : α → α) :
    (l ++ [a]).modify l.length f = l ++ [f a] := by
  induction l with
  | nil => rfl
  | cons b l ih => rw [List.cons_append, List.length_cons, List.modify_succ_cons, ih]; rfl

/-- A flat tree with the cursor in its last startup block. -/
def booting (symbols : List Symbol) (main : List Instr) (boots : List (String × List Instr))
    (name : String) (code : List Instr) : BlockTree :=
  { flat symbols main (boots ++ [(name, code)]) with current := boots.length + 1 }

theorem blocks_booting (symbols : List Symbol) (main : List Instr)
    (boots : List (String × List Instr)) (name : String) (code : List Instr) :
    (booting symbols main boots name code).blocks =
      ((rootBlock symbols main (boots.length + 1) :: boots.map bootBlock) ++
        [bootBlock (name, code)]).toArray := by
  simp [booting, flat]

theorem enter_flat (symbols : List Symbol) (main : List Instr) (boots : List (String × List Instr))
    (name : String) :
    (flat symbols main boots).enter name .startup = booting symbols main boots name [] := by
  unfold enter
  dsimp only
  rw [updateCurrent_flat]
  simp [booting, flat, rootBlock, bootBlock, List.range'_concat, Nat.add_comm]

theorem appendAll_booting (symbols : List Symbol) (main : List Instr)
    (boots : List (String × List Instr)) (name : String) (code : List Instr) :
    (booting symbols main boots name []).appendAll code = booting symbols main boots name code := by
  have hlast := modify_concat (rootBlock symbols main (boots.length + 1) :: boots.map bootBlock)
    (bootBlock (name, [])) fun b => { b with instrs := b.instrs ++ code.toArray }
  rw [List.length_cons, List.length_map] at hlast
  have hblocks : (booting symbols main boots name []).blocks.modify (boots.length + 1)
      (fun b => { b with instrs := b.instrs ++ code.toArray }) =
        (booting symbols main boots name code).blocks := by
    rw [blocks_booting, blocks_booting, List.modify_toArray, hlast]
    simp [bootBlock]
  rw [appendAll_eq]
  exact congrArg (fun blocks => ({ blocks := blocks, current := boots.length + 1 } : BlockTree))
    hblocks

theorem leave_booting (symbols : List Symbol) (main : List Instr)
    (boots : List (String × List Instr)) (name : String) (code : List Instr) :
    leave (booting symbols main boots name code) =
      .ok () (flat symbols main (boots ++ [(name, code)])) := by
  have hblock : (booting symbols main boots name code).block? (boots.length + 1) =
      some (bootBlock (name, code)) := by
    rw [block?, blocks_booting, List.getElem?_toArray,
      List.getElem?_append_right (by simp)]
    simp
  unfold leave
  rw [show (booting symbols main boots name code).current = boots.length + 1 from rfl, hblock]
  rfl

/-! ## Declarations -/

/-- What the declarations of a unit leave: their symbols, the code of the main
program and that of the startup blocks. -/
inductive Lowered : List Node → List Symbol → List Instr → List (String × List Instr) → Prop where
  | nil : Lowered [] [] [] []
  | plain {s : Slot} {name : String} {declared : Ty} {attrs nodes : List Node}
      {placement : Placement} {symbols : List Symbol} {main : List Instr}
      {boots : List (String × List Instr)} (hrest : Lowered nodes symbols main boots) :
      Lowered (.var s name declared none attrs :: nodes)
        ({ name := name, ty := s.ty, placement := placement } :: symbols) main boots
  | main {s : Slot} {name : String} {declared : Ty} {init : Node} {attrs nodes : List Node}
      {placement : Placement} {code : List Instr} {symbols : List Symbol} {main : List Instr}
      {boots : List (String × List Instr)} (hmain : attrs.any (Node.isAttribute "startup") = false)
      (hcode : init.initCode { symbol := name } s.ty = .ok code)
      (hrest : Lowered nodes symbols main boots) :
      Lowered (.var s name declared (some init) attrs :: nodes)
        ({ name := name, ty := s.ty, placement := placement } :: symbols) (code ++ main) boots
  | boot {s : Slot} {name : String} {declared : Ty} {init : Node} {attrs nodes : List Node}
      {placement : Placement} {code : List Instr} {symbols : List Symbol} {main : List Instr}
      {boots : List (String × List Instr)} (hboot : attrs.any (Node.isAttribute "startup") = true)
      (hcode : init.initCode { symbol := name } s.ty = .ok code)
      (hrest : Lowered nodes symbols main boots) :
      Lowered (.var s name declared (some init) attrs :: nodes)
        ({ name := name, ty := s.ty, placement := placement } :: symbols) main
        ((name, code) :: boots)

theorem addSymbol_flat {symbols : List Symbol} {main : List Instr}
    {boots : List (String × List Instr)} {name : String} {ty : Ty} {placement : Placement}
    {t : BlockTree} {j j' : Journal}
    (h : (flat symbols main boots).addSymbol name ty placement j = .ok t j') :
    (∀ s ∈ symbols, s.name ≠ name) ∧
      t = flat (symbols ++ [{ name := name, ty := ty, placement := placement }]) main boots := by
  unfold addSymbol at h
  split at h
  · cases h
  · next hdeclare =>
      cases h
      exact declare_flat hdeclare

theorem addInit_flat {symbols : List Symbol} {main : List Instr}
    {boots : List (String × List Instr)} {name : String} {ty : Ty} {init : Node} {t : BlockTree}
    (h : (flat symbols main boots).addInit name ty init = .ok t) :
    ∃ code, init.initCode { symbol := name } ty = .ok code ∧
      t = flat symbols (main ++ code) boots := by
  unfold addInit at h
  split at h
  · cases h
  · next code hcode =>
      cases h
      exact ⟨code, hcode, appendAll_flat ..⟩

/-- A startup block is added if its value has code, and that is all that can fail. -/
theorem addStartup_flat_cases (symbols : List Symbol) (main : List Instr)
    (boots : List (String × List Instr)) (name : String) (ty : Ty) (init : Node) (j : Journal) :
    (∃ code j', init.initCode { symbol := name } ty = .ok code ∧
        (flat symbols main boots).addStartup name ty init j =
          .ok (flat symbols main (boots ++ [(name, code)])) j') ∨
      ∃ e, init.initCode { symbol := name } ty = .error e ∧
        (flat symbols main boots).addStartup name ty init j = .error e j := by
  rw [addStartup, enter_flat, addInit]
  cases init.initCode { symbol := name } ty with
  | error e => exact .inr ⟨e, rfl, rfl⟩
  | ok code =>
      dsimp only
      rw [appendAll_booting, leave_booting]
      exact .inl ⟨code, _, rfl, rfl⟩

/-- One declaration adds a new symbol, and its code to one of the two programs. -/
theorem addDecl_flat {symbols : List Symbol} {main : List Instr}
    {boots : List (String × List Instr)} {node : Node} {t : BlockTree} {j j' : Journal}
    (h : (flat symbols main boots).addDecl node j = .ok t j') :
    ∃ symbol main' boots', (∀ s ∈ symbols, s.name ≠ symbol.name) ∧
      t = flat (symbols ++ [symbol]) (main ++ main') (boots ++ boots') ∧
      ∀ nodes symbols'' main'' boots'', Lowered nodes symbols'' main'' boots'' →
        Lowered (node :: nodes) (symbol :: symbols'') (main' ++ main'') (boots' ++ boots'') := by
  unfold addDecl at h
  split at h
  · next s name declared init attrs =>
      split at h
      · obtain ⟨placement, j₁, -, h₁⟩ := bind_eq_ok_iff.1 h
        obtain ⟨t₁, j₂, hsymbol, h₂⟩ := bind_eq_ok_iff.1 h₁
        obtain ⟨hnew, rfl⟩ := addSymbol_flat hsymbol
        refine ⟨{ name := name, ty := s.ty, placement := placement }, ?_⟩
        cases init with
        | none =>
            obtain ⟨rfl, -⟩ := pure_eq_ok_iff.1 h₂
            exact ⟨[], [], hnew, by simp, fun _ _ _ _ hrest => .plain hrest⟩
        | some init =>
            dsimp only at h₂
            have hany : (attrs.find? (Node.isAttribute "startup")).isSome =
                attrs.any (Node.isAttribute "startup") := List.isSome_find?
            cases hboot : attrs.any (Node.isAttribute "startup") with
            | true =>
                simp only [hany, hboot, ↓reduceIte] at h₂
                rcases addStartup_flat_cases _ main boots name s.ty init j₂ with
                  ⟨code, j₃, hcode, hadded⟩ | ⟨e, -, hfailed⟩
                · cases h₂.symm.trans hadded
                  exact ⟨[], [_], hnew, by simp, fun _ _ _ _ hrest => .boot hboot hcode hrest⟩
                · cases h₂.symm.trans hfailed
            | false =>
                simp only [hany, hboot, Bool.false_eq_true, ↓reduceIte] at h₂
                split at h₂
                · next hinit =>
                    cases h₂
                    obtain ⟨code, hcode, rfl⟩ := addInit_flat hinit
                    exact ⟨code, [], hnew, by simp, fun _ _ _ _ hrest => .main hboot hcode hrest⟩
                · cases h₂
      · cases h
  · cases h

/-- Declarations in a row add their symbols and their code. -/
theorem addDecls_flat {symbols : List Symbol} {main : List Instr}
    {boots : List (String × List Instr)} {nodes : List Node} {t : BlockTree} {j j' : Journal}
    (h : (flat symbols main boots).addDecls nodes j = .ok t j')
    (hnames : (symbols.map Symbol.name).Nodup) :
    ∃ symbols' main' boots', ((symbols ++ symbols').map Symbol.name).Nodup ∧
      t = flat (symbols ++ symbols') (main ++ main') (boots ++ boots') ∧
      Lowered nodes symbols' main' boots' := by
  induction nodes generalizing symbols main boots j with
  | nil =>
      obtain ⟨rfl, -⟩ := pure_eq_ok_iff.1 h
      exact ⟨[], [], [], by simpa using hnames, by simp, .nil⟩
  | cons node nodes ih =>
      obtain ⟨t₁, j₁, hnode, hnodes⟩ := bind_eq_ok_iff.1 h
      obtain ⟨symbol, main₁, boots₁, hnew, rfl, hlowered⟩ := addDecl_flat hnode
      have hnames₁ : ((symbols ++ [symbol]).map Symbol.name).Nodup := by
        rw [List.map_append, List.nodup_append]
        refine ⟨hnames, by simp, fun a ha b hb => ?_⟩
        obtain ⟨s, hs, rfl⟩ := List.mem_map.1 ha
        obtain rfl : b = symbol.name := by simpa using hb
        exact hnew s hs
      obtain ⟨symbols', main', boots', hnames', rfl, hrest⟩ := ih hnodes hnames₁
      refine ⟨symbol :: symbols', main₁ ++ main', boots₁ ++ boots', ?_, ?_,
        hlowered _ _ _ _ hrest⟩
      · simpa using hnames'
      · simp

/-- The tree of a unit. -/
theorem ofDecls_eq_ok {decls : List Node} {t : BlockTree} {j j' : Journal}
    (h : ofDecls decls j = .ok t j') :
    ∃ symbols main boots, (symbols.map Symbol.name).Nodup ∧ t = flat symbols main boots ∧
      Lowered decls symbols main boots := by
  obtain ⟨symbols, main, boots, hnames, rfl, hlowered⟩ :=
    @addDecls_flat [] [] [] _ _ _ _ h .nil
  exact ⟨symbols, main, boots, by simpa using hnames, by simp, hlowered⟩

/-! ## Walks over a flat tree -/

section Walks

variable {symbols : List Symbol} {main : List Instr} {boots : List (String × List Instr)}

theorem size_flat : (flat symbols main boots).blocks.size = boots.length + 1 := by
  simp [flat]

theorem block?_flat_zero :
    (flat symbols main boots).block? 0 = some (rootBlock symbols main boots.length) := rfl

theorem block?_flat_succ (i : Nat) :
    (flat symbols main boots).block? (i + 1) = (boots[i]?).map bootBlock := by
  rw [block?, flat, List.getElem?_toArray, List.getElem?_cons_succ, List.getElem?_map]

theorem parent?_flat_zero : (flat symbols main boots).parent? 0 = none := rfl

theorem parent?_flat_succ {i : Nat} (h : i < boots.length) :
    (flat symbols main boots).parent? (i + 1) = some 0 := by
  rw [parent?, block?_flat_succ, List.getElem?_eq_getElem h]
  rfl

theorem eq_zero_of_parent?_flat {id p : Nat} (h : (flat symbols main boots).parent? id = some p) :
    p = 0 ∧ id ≤ boots.length := by
  cases id with
  | zero => cases h
  | succ i =>
      have hlt := lt_size_of_parent? h
      rw [size_flat] at hlt
      have hi : i < boots.length := Nat.lt_of_succ_lt_succ hlt
      rw [parent?_flat_succ hi] at h
      exact ⟨(Option.some.inj h).symm, hi⟩

theorem children_flat (p : Nat) : (flat symbols main boots).children p =
    (List.range (flat symbols main boots).blocks.size).filter
      ((flat symbols main boots).parent? · = some p) := by
  rw [size_flat, List.range_eq_range', List.range'_succ, List.filter_cons]
  cases p with
  | zero =>
      rw [if_neg (by rw [parent?_flat_zero]; simp), List.filter_eq_self.2]
      · rfl
      · intro id hid
        obtain ⟨hpos, hlt⟩ := List.mem_range'_1.1 hid
        obtain ⟨i, rfl⟩ := Nat.exists_eq_succ_of_ne_zero (Nat.ne_of_gt hpos)
        rw [parent?_flat_succ (by omega)]
        rfl
  | succ p =>
      rw [if_neg (by rw [parent?_flat_zero]; simp), List.filter_eq_nil_iff.2]
      · rw [children, block?_flat_succ]
        cases boots[p]? <;> rfl
      · intro id hid hparent
        cases (eq_zero_of_parent?_flat (of_decide_eq_true hparent)).1

theorem encloses_flat {id : Nat} (h : id ≤ boots.length) :
    (flat symbols main boots).Encloses 0 id := by
  cases id with
  | zero => exact .refl
  | succ i => exact .step (parent?_flat_succ h) .refl

theorem wellFormed_flat : (flat symbols main boots).WellFormed := by
  refine ⟨?_, rfl, fun id hpos hid => ?_, children_flat, ?_, fun id p h => ?_, ?_⟩
  · rw [size_flat]
    exact Nat.succ_pos _
  · obtain ⟨i, rfl⟩ := Nat.exists_eq_succ_of_ne_zero (Nat.ne_of_gt hpos)
    rw [size_flat] at hid
    exact ⟨0, parent?_flat_succ (Nat.lt_of_succ_lt_succ hid), hpos⟩
  · rw [size_flat]
    exact Nat.succ_pos _
  · obtain ⟨rfl, hle⟩ := eq_zero_of_parent?_flat h
    exact encloses_flat (Nat.le_trans (Nat.sub_le id 1) hle)
  · rw [size_flat]
    exact encloses_flat (Nat.le_refl _)

theorem inStartup_flat_zero : (flat symbols main boots).inStartup 0 = false := by
  refine Bool.eq_false_iff.2 fun h => ?_
  have hpos : 0 < (flat symbols main boots).blocks.size := by
    rw [size_flat]
    exact Nat.succ_pos _
  obtain ⟨outer, b, henc, hb, hkind⟩ := (wellFormed_flat.inStartup_iff hpos).1 h
  cases henc with
  | refl =>
      cases hb
      cases hkind
  | step hparent _ => cases hparent

theorem inStartup_flat_succ {i : Nat} (h : i < boots.length) :
    (flat symbols main boots).inStartup (i + 1) = true := by
  refine (wellFormed_flat.inStartup_iff (by rw [size_flat]; omega)).2
    ⟨i + 1, bootBlock boots[i], .refl, ?_, rfl⟩
  rw [block?_flat_succ, List.getElem?_eq_getElem h]
  rfl

theorem mainBlocks_flat : Generator.mainBlocks (flat symbols main boots) = [0] := by
  rw [Generator.mainBlocks, wellFormed_flat.preorder_eq_range, size_flat, List.range_eq_range',
    List.range'_succ, List.filter_cons, if_pos (by rw [inStartup_flat_zero]; rfl),
    List.filter_eq_nil_iff.2]
  intro id hid hmain
  obtain ⟨hpos, hlt⟩ := List.mem_range'_1.1 hid
  obtain ⟨i, rfl⟩ := Nat.exists_eq_succ_of_ne_zero (Nat.ne_of_gt hpos)
  rw [inStartup_flat_succ (by omega)] at hmain
  cases hmain

theorem startupBlocks_flat :
    Generator.startupBlocks (flat symbols main boots) = List.range' 1 boots.length := by
  rw [Generator.startupBlocks, wellFormed_flat.preorder_eq_range, size_flat, List.range_eq_range',
    List.range'_succ, List.filter_cons,
    if_neg (by rw [inStartup_flat_zero]; exact Bool.false_ne_true),
    List.filter_eq_self.2]
  intro id hid
  obtain ⟨hpos, hlt⟩ := List.mem_range'_1.1 hid
  obtain ⟨i, rfl⟩ := Nat.exists_eq_succ_of_ne_zero (Nat.ne_of_gt hpos)
  exact inStartup_flat_succ (by omega)

/-- Every name stands for its global symbol, wherever it is used. -/
theorem names_flat {storage : Storage} {symbol : Symbol} {a : UInt16} (hsymbol : symbol ∈ symbols)
    (ha : storage.find? 0 symbol.name = some a) {id : Nat} (hid : id ≤ boots.length) :
    (flat symbols main boots).names storage id symbol.name a := by
  refine ⟨0, ?_, ha⟩
  have hroot : (flat symbols main boots).Nearest symbol.name 0 0 := .here ⟨symbol, hsymbol, rfl⟩
  cases id with
  | zero => exact hroot
  | succ i =>
      refine .outer ?_ (parent?_flat_succ hid) hroot
      rintro ⟨s, hs, -⟩
      rw [BlockTree.symbols, block?_flat_succ, List.getElem?_eq_getElem hid] at hs
      cases hs

end Walks

end Cartridge.BlockTree
