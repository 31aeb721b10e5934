/-
# `Cartridge.Proofs.BlockTree.Shape` — what every tree that is built looks like

Blocks open and close like brackets, so the tree is no arbitrary graph of
blocks.  Whatever operations build it, refused ones included:

    parent      every block but the first has one, which was opened before it
    children    of a block are those that name it as their parent, oldest first
    nesting     the parent of a block encloses the block opened just before it
    cursor      the current block encloses the block opened last

Proved here: one operation keeps this shape (`WellFormed.apply`), so every tree
that is built has it (`wellFormed_build`).
-/
import Cartridge.BlockTree.Basic

namespace Cartridge.BlockTree

/-! ## Operations -/

/-- An operation on a tree. -/
inductive Op where
  | enter (name : String) (kind : BlockKind)
  | leave
  | declare (symbol : Symbol)
  | append (i : Instr)
  | freshLabel
deriving DecidableEq, Inhabited, Repr

/-- The tree that a step leaves behind, refused or not. -/
def left (t : BlockTree) (step : EStateM ScopeError BlockTree Unit) : BlockTree :=
  match step t with
  | .ok _ t' => t'
  | .error _ t' => t'

/-- The tree after an operation. -/
def apply (t : BlockTree) : Op → BlockTree
  | .enter name kind => t.enter name kind
  | .leave => t.left leave
  | .declare symbol => t.left (declare symbol)
  | .append i => t.append i
  | .freshLabel => t.freshLabel

/-- The tree that operations build from the global block alone. -/
def build (ops : List Op) : BlockTree := ops.foldl apply {}

/-! ## Parents -/

/-- The block around a block. -/
def parent? (t : BlockTree) (id : BlockId) : Option BlockId := (t.block? id).bind Block.parent

/-- A block encloses itself and what its children enclose. -/
inductive Encloses (t : BlockTree) (outer : BlockId) : BlockId → Prop where
  | refl : Encloses t outer outer
  | step {id parent : BlockId} (hparent : t.parent? id = some parent)
      (h : Encloses t outer parent) : Encloses t outer id

theorem Encloses.trans {t : BlockTree} {outer mid id : BlockId} (h : t.Encloses outer mid)
    (h' : t.Encloses mid id) : t.Encloses outer id := by
  induction h' with
  | refl => exact h
  | step hp _ ih => exact .step hp ih

/-- The parent of a block encloses all that the block encloses. -/
theorem Encloses.outward {t : BlockTree} {outer id parent : BlockId} (h : t.Encloses outer id)
    (hparent : t.parent? outer = some parent) : t.Encloses parent id :=
  Encloses.trans (.step hparent .refl) h

/-- Blocks that have the same parents enclose the same blocks. -/
theorem Encloses.mono {t t' : BlockTree} {outer id : BlockId}
    (hparent : ∀ id p, t.parent? id = some p → t'.parent? id = some p)
    (h : t.Encloses outer id) : t'.Encloses outer id := by
  induction h with
  | refl => exact .refl
  | step hp _ ih => exact .step (hparent _ _ hp) ih

/-- The shape of a tree that operations build. -/
structure WellFormed (t : BlockTree) : Prop where
  nonempty : 0 < t.blocks.size
  root : t.parent? 0 = none
  parent : ∀ id : Nat, 0 < id → id < t.blocks.size → ∃ p : Nat, t.parent? id = some p ∧ p < id
  children : ∀ p, t.children p = (List.range t.blocks.size).filter (t.parent? · = some p)
  current : t.current < t.blocks.size
  nested : ∀ id p, t.parent? id = some p → t.Encloses p (id - 1)
  cursor : t.Encloses t.current (t.blocks.size - 1)

theorem lt_size_of_parent? {t : BlockTree} {id p : BlockId} (h : t.parent? id = some p) :
    id < t.blocks.size := by
  obtain ⟨b, hb, -⟩ := Option.bind_eq_some_iff.1 h
  exact (Array.getElem?_eq_some_iff.1 hb).1

/-- A block that has a parent was opened after it. -/
theorem WellFormed.parent_lt {t : BlockTree} (h : t.WellFormed) {id p : Nat}
    (hp : t.parent? id = some p) : p < id := by
  rcases Nat.eq_zero_or_pos id with rfl | hpos
  · cases h.root.symm.trans hp
  · obtain ⟨q, hq, hlt⟩ := h.parent id hpos (lt_size_of_parent? hp)
    obtain rfl := Option.some.inj (hq.symm.trans hp)
    exact hlt

/-- A block is as old as what it encloses, or older. -/
theorem Encloses.le {t : BlockTree} (hwf : t.WellFormed) {outer id : Nat}
    (h : t.Encloses outer id) : outer ≤ id := by
  induction h with
  | refl => exact Nat.le_refl _
  | step hp _ ih => exact Nat.le_trans ih (Nat.le_of_lt (hwf.parent_lt hp))

/-! ## One operation -/

/-- A change of the tree that keeps all parents and children keeps its shape. -/
theorem WellFormed.congr {t t' : BlockTree} (h : t.WellFormed)
    (hsize : t'.blocks.size = t.blocks.size) (hparent : t'.parent? = t.parent?)
    (hchildren : t'.children = t.children) (hcurrent : t'.current < t.blocks.size)
    (hcursor : t.Encloses t'.current (t.blocks.size - 1)) : t'.WellFormed := by
  have hmono : ∀ {outer id}, t.Encloses outer id → t'.Encloses outer id :=
    Encloses.mono (by simp [hparent])
  refine ⟨by rw [hsize]; exact h.nonempty, by rw [hparent]; exact h.root, ?_, ?_,
    by rw [hsize]; exact hcurrent, ?_, by rw [hsize]; exact hmono hcursor⟩
  · rw [hsize, hparent]
    exact h.parent
  · rw [hsize, hparent, hchildren]
    exact h.children
  · rw [hparent]
    exact fun id p hp => hmono (h.nested id p hp)

theorem block?_updateCurrent (t : BlockTree) (f : Block → Block) (id : BlockId) :
    (t.updateCurrent f).block? id =
      if t.current = id then (t.block? id).map f else t.block? id := by
  show (t.blocks.modify t.current f)[id]? = _
  rw [Array.getElem?_modify]
  rfl

theorem parent?_updateCurrent (t : BlockTree) {f : Block → Block}
    (hf : ∀ b, (f b).parent = b.parent) : (t.updateCurrent f).parent? = t.parent? := by
  funext id
  unfold parent?
  rw [block?_updateCurrent]
  split
  · cases t.block? id <;> simp [hf]
  · rfl

theorem children_updateCurrent (t : BlockTree) {f : Block → Block}
    (hf : ∀ b, (f b).children = b.children) : (t.updateCurrent f).children = t.children := by
  funext id
  unfold children
  rw [block?_updateCurrent]
  split
  · cases t.block? id <;> simp [hf]
  · rfl

/-- A change of the current block that leaves its place alone. -/
theorem WellFormed.updateCurrent {t : BlockTree} (h : t.WellFormed) {f : Block → Block}
    (hparent : ∀ b, (f b).parent = b.parent) (hchildren : ∀ b, (f b).children = b.children) :
    (t.updateCurrent f).WellFormed :=
  h.congr (Array.size_modify ..) (parent?_updateCurrent t hparent)
    (children_updateCurrent t hchildren) h.current h.cursor

theorem size_enter (t : BlockTree) (name : String) (kind : BlockKind) :
    (t.enter name kind).blocks.size = t.blocks.size + 1 := by
  simp [enter, BlockTree.updateCurrent]

theorem block?_enter (t : BlockTree) (name : String) (kind : BlockKind) (id : BlockId) :
    (t.enter name kind).block? id =
      if id = t.blocks.size then some { name := name, kind := kind, parent := some t.current }
      else
        (t.updateCurrent fun b => { b with children := b.children ++ [t.blocks.size] }).block? id := by
  show ((t.updateCurrent _).blocks.push _)[id]? = _
  rw [Array.getElem?_push]
  simp [block?, BlockTree.updateCurrent]

theorem parent?_enter (t : BlockTree) (name : String) (kind : BlockKind) (id : BlockId) :
    (t.enter name kind).parent? id =
      if id = t.blocks.size then some t.current else t.parent? id := by
  unfold parent?
  rw [block?_enter]
  split
  · rfl
  · exact congrFun (parent?_updateCurrent t (by simp)) id

theorem children_enter (t : BlockTree) (hcurrent : t.current < t.blocks.size) (name : String)
    (kind : BlockKind) (id : BlockId) :
    (t.enter name kind).children id =
      t.children id ++ if id = t.current then [t.blocks.size] else [] := by
  unfold children
  rw [block?_enter]
  split
  · next hid =>
      -- the new block has no children, and had none before it was opened
      subst hid
      have hnone : t.block? t.blocks.size = none := Array.getElem?_eq_none (Nat.le_refl _)
      rw [if_neg (Nat.ne_of_gt hcurrent), hnone]
      rfl
  · rw [block?_updateCurrent]
    by_cases hid : t.current = id
    · subst hid
      have hsome : t.block? t.current = some t.blocks[t.current] :=
        Array.getElem?_eq_getElem hcurrent
      rw [if_pos rfl, if_pos rfl, hsome]
      rfl
    · rw [if_neg hid, if_neg (Ne.symm hid), List.append_nil]

theorem WellFormed.enter {t : BlockTree} (h : t.WellFormed) (name : String) (kind : BlockKind) :
    (t.enter name kind).WellFormed := by
  have hold : ∀ id p, t.parent? id = some p → (t.enter name kind).parent? id = some p := by
    intro id p hp
    rw [parent?_enter, if_neg (Nat.ne_of_lt (lt_size_of_parent? hp))]
    exact hp
  refine ⟨?_, ?_, ?_, ?_, ?_, ?_, ?_⟩
  · rw [size_enter]
    exact Nat.succ_pos _
  · rw [parent?_enter, if_neg (Nat.ne_of_lt h.nonempty)]
    exact h.root
  · intro id hpos hlt
    rw [size_enter] at hlt
    rcases Nat.lt_succ_iff_lt_or_eq.1 hlt with hlt | rfl
    · obtain ⟨p, hp, hpid⟩ := h.parent id hpos hlt
      exact ⟨p, hold id p hp, hpid⟩
    · exact ⟨t.current, by rw [parent?_enter, if_pos rfl], h.current⟩
  · intro p
    rw [children_enter t h.current, size_enter, List.range_succ, List.filter_append, h.children]
    congr 1
    · refine List.filter_congr fun id hid => ?_
      rw [parent?_enter, if_neg (Nat.ne_of_lt (List.mem_range.1 hid))]
    · rw [List.filter_cons, parent?_enter, if_pos rfl]
      by_cases hp : p = t.current <;> simp [hp, eq_comm]
  · rw [size_enter]
    exact Nat.lt_succ_self _
  · intro id p hp
    rw [parent?_enter] at hp
    split at hp
    · next hid =>
        subst hid
        cases hp
        exact h.cursor.mono hold
    · exact (h.nested id p hp).mono hold
  · rw [size_enter]
    exact .refl

theorem WellFormed.leave {t : BlockTree} (h : t.WellFormed) : (t.left leave).WellFormed := by
  unfold left BlockTree.leave
  cases hp : t.parent? t.current with
  | none =>
      rw [parent?] at hp
      rw [hp]
      exact h
  | some p =>
      have hlt : p < t.blocks.size := Nat.lt_trans (h.parent_lt hp) h.current
      have hcursor := h.cursor.outward hp
      rw [parent?] at hp
      rw [hp]
      exact h.congr rfl rfl rfl hlt hcursor

theorem WellFormed.declare {t : BlockTree} (h : t.WellFormed) (symbol : Symbol) :
    (t.left (declare symbol)).WellFormed := by
  unfold left BlockTree.declare
  split
  · next heq =>
      split at heq
      · split at heq
        · cases heq
        · cases heq
          exact h.updateCurrent (fun _ => rfl) (fun _ => rfl)
      · cases heq
  · next heq =>
      split at heq
      · split at heq
        · cases heq
          exact h
        · cases heq
      · cases heq
        exact h

/-- One operation keeps the shape. -/
theorem WellFormed.apply {t : BlockTree} (h : t.WellFormed) (op : Op) :
    (t.apply op).WellFormed := by
  cases op with
  | enter name kind => exact h.enter name kind
  | leave => exact h.leave
  | declare symbol => exact h.declare symbol
  | append i => exact h.updateCurrent (fun _ => rfl) (fun _ => rfl)
  | freshLabel => exact h.congr rfl rfl rfl h.current h.cursor

/-- The global block alone. -/
theorem wellFormed_empty : ({} : BlockTree).WellFormed := by
  have hparent : ∀ id, ({} : BlockTree).parent? id = none := by
    intro id
    cases id <;> rfl
  refine ⟨Nat.one_pos, rfl, fun id hpos hlt => ?_, fun p => ?_, Nat.one_pos, fun id p hp => ?_,
    .refl⟩
  · exact absurd hlt (Nat.not_lt.2 hpos)
  · cases p <;> simp [hparent] <;> rfl
  · cases (hparent id).symm.trans hp

/-- Every tree that operations build has the shape. -/
theorem wellFormed_build (ops : List Op) : (build ops).WellFormed := by
  suffices h : ∀ t : BlockTree, t.WellFormed → (ops.foldl BlockTree.apply t).WellFormed from
    h {} wellFormed_empty
  induction ops with
  | nil => exact fun t ht => ht
  | cons op ops ih => exact fun t ht => ih _ (ht.apply op)

end Cartridge.BlockTree
