/-
# `Cartridge.Proofs.BlockTree.Traversal` — no walk over a tree is cut short

All walks over a tree are bounded by the number of its blocks, which says
nothing yet about what they would meet without the bound.  Said without one, a
walk climbs from parent to parent (`Climbs`), as looking up a name and asking for
startup code do, or it visits each block and then what is below it, child by child
(`Visits`), as the walk with pending blocks and the listing do.

Proved here, for every tree that operations build: the walks are these, whatever
larger bound they are given (`traversed_build`).  The listing is the heads of
the blocks in the order in which they were opened, each as far in as there are
blocks around it (`Visits.render`).
-/
import Cartridge.BlockTree.Render
import Cartridge.Proofs.BlockTree.Walks

namespace Cartridge.BlockTree

/-! ## Outward -/

/-- A path begins with the block that it leads from. -/
theorem Climbs.exists_cons {t : BlockTree} {id : BlockId} {path : List BlockId}
    (h : t.Climbs id path) : ∃ outer, path = id :: outer := by
  cases h with
  | last => exact ⟨[], rfl⟩
  | next => exact ⟨_, rfl⟩

/-- A path stays a path where blocks have the parents that they had. -/
theorem Climbs.congr {t t' : BlockTree} {id : BlockId} {path : List BlockId}
    (hsize : t.blocks.size ≤ t'.blocks.size)
    (hparent : ∀ id < t.blocks.size, t'.parent? id = t.parent? id) (h : t.Climbs id path) :
    t'.Climbs id path := by
  induction h with
  | last hid hroot => exact .last (Nat.lt_of_lt_of_le hid hsize) ((hparent _ hid).trans hroot)
  | next hp _ ih => exact .next ((hparent _ (lt_size_of_parent? hp)).trans hp) ih

/-- Around a block are the blocks around its parent, and the parent itself. -/
theorem WellFormed.outward_of_parent? {t : BlockTree} (h : t.WellFormed) {id p : Nat}
    (hp : t.parent? id = some p) : t.outward id = id :: t.outward p := by
  have hid := lt_size_of_parent? hp
  have hparent := h.climbs_outward (Nat.lt_trans (h.parent_lt hp) hid)
  exact (h.climbs_outward hid).unique (.next hp hparent)

theorem WellFormed.outward_zero {t : BlockTree} (h : t.WellFormed) : t.outward 0 = [0] :=
  (h.climbs_outward h.nonempty).unique (.last h.nonempty h.root)

/-- Blocks of two trees that have the same parents have the same surroundings. -/
theorem WellFormed.outward_congr {t t' : BlockTree} (h : t.WellFormed) (h' : t'.WellFormed)
    (hsize : t.blocks.size ≤ t'.blocks.size)
    (hparent : ∀ id < t.blocks.size, t'.parent? id = t.parent? id) {id : Nat}
    (hid : id < t.blocks.size) : t'.outward id = t.outward id :=
  (h'.climbs_outward (Nat.lt_of_lt_of_le hid hsize)).unique
    ((h.climbs_outward hid).congr hsize hparent)

/-- A name that is not resolved is declared nowhere around the block. -/
theorem WellFormed.resolve_cases {t : BlockTree} (h : t.WellFormed) {id : Nat}
    (hid : id < t.blocks.size) (name : String) :
    (∃ owner symbol, t.resolve id name = .ok (owner, symbol) ∧ t.Nearest name id owner) ∨
      t.resolve id name = .error (.undefined name) ∧
        ∀ outer, t.Encloses outer id → ¬ t.Declares outer name := by
  cases hresolve : t.resolve id name with
  | ok found => exact .inl ⟨found.1, found.2, rfl, nearest_of_resolve hresolve⟩
  | error e =>
      simp only [resolve] at hresolve
      split at hresolve
      · cases hresolve
      · next hnone =>
          cases hresolve
          refine .inr ⟨rfl, fun outer henc hdecl => ?_⟩
          obtain ⟨symbol, hsymbol⟩ := declares_iff.1 hdecl
          have := List.findSome?_eq_none_iff.1 hnone outer ((h.mem_outward_iff hid).2 henc)
          rw [hsymbol] at this
          cases this

/-! ## The listing -/

/-- The number of blocks around a block. -/
def depth (t : BlockTree) (id : BlockId) : Nat := (t.outward id).length - 1

/-- The head of a block, as far in as the block lies. -/
def renderBlock (t : BlockTree) (id : BlockId) : String :=
  ((t.block? id).map (renderHead (t.depth id))).getD ""

theorem WellFormed.depth_of_parent? {t : BlockTree} (h : t.WellFormed) {id p : Nat}
    (hp : t.parent? id = some p) : t.depth id = t.depth p + 1 := by
  have hid : p < t.blocks.size := Nat.lt_trans (h.parent_lt hp) (lt_size_of_parent? hp)
  obtain ⟨outer, houter⟩ := (h.climbs_outward hid).exists_cons
  rw [depth, depth, h.outward_of_parent? hp, houter]
  rfl

/-- The listing of blocks at one depth has the heads of all blocks that a visit of
them meets, in its order.  `fuel` levels are enough below blocks with less than
`fuel` blocks behind them. -/
theorem Visits.render {t : BlockTree} (hwf : t.WellFormed) {ids order : List BlockId}
    (h : t.Visits ids order) {fuel depth : Nat}
    (hids : ∀ id : Nat, id ∈ ids →
      id < t.blocks.size ∧ t.blocks.size ≤ id + fuel ∧ t.depth id = depth) :
    String.join (ids.map (t.renderFrom fuel depth)) = String.join (order.map t.renderBlock) := by
  induction h generalizing fuel depth with
  | nil => rfl
  | @cons id ids below beside _ _ ihbelow ihbeside =>
      obtain ⟨hid, hfuel, hdepth⟩ := hids id List.mem_cons_self
      have hrest := fun other hother => hids other (List.mem_cons_of_mem id hother)
      obtain ⟨fuel, rfl⟩ : ∃ n, fuel = n + 1 := Nat.exists_eq_add_one.2 (by omega)
      obtain ⟨b, hb⟩ : ∃ b, t.block? id = some b := ⟨_, Array.getElem?_eq_getElem hid⟩
      have hchildren : t.children id = b.children := by rw [children, hb]; rfl
      have hblock : t.renderBlock id = renderHead depth b := by
        rw [renderBlock, hb, hdepth]
        rfl
      -- the children are one level further in and have larger numbers
      have hbelow := @ihbelow fuel (depth + 1) fun child hchild => by
        rw [hwf.children, List.mem_filter, List.mem_range] at hchild
        have hp : t.parent? child = some id := of_decide_eq_true hchild.2
        have hlt := hwf.parent_lt hp
        exact ⟨hchild.1, by omega, by rw [hwf.depth_of_parent? hp, hdepth]⟩
      rw [List.map_cons, List.map_cons, List.map_append, String.join_cons, String.join_cons,
        String.join_append, ihbeside hrest, ← hbelow, hchildren, hblock, renderFrom, hb,
        String.append_assoc]

/-! ## Every tree -/

/-- What the walks over a tree meet, whatever their bound, if it is no smaller
than the number of blocks. -/
structure Traversed (t : BlockTree) : Prop where
  outward : ∀ id < t.blocks.size, ∀ fuel ≥ t.blocks.size, t.Climbs id (t.outwardFrom fuel id)
  resolve : ∀ id < t.blocks.size, ∀ name,
    (∃ owner symbol, t.resolve id name = .ok (owner, symbol) ∧ t.Nearest name id owner) ∨
      t.resolve id name = .error (.undefined name) ∧
        ∀ outer, t.Encloses outer id → ¬ t.Declares outer name
  inStartup : ∀ id < t.blocks.size, t.inStartup id = true ↔ t.InStartup id
  preorder : t.preorder = List.range t.blocks.size
  pending : ∀ fuel ≥ t.blocks.size, t.visit fuel [0] = List.range t.blocks.size
  visits : t.Visits [0] (List.range t.blocks.size)
  render : ∀ fuel ≥ t.blocks.size, t.renderFrom fuel 0 0 =
    String.join ((List.range t.blocks.size).map t.renderBlock)

theorem WellFormed.traversed {t : BlockTree} (h : t.WellFormed) : t.Traversed := by
  refine ⟨?_, ?_, ?_, h.preorder_eq_range, ?_, h.visits_range, ?_⟩
  · intro id hid fuel hfuel
    exact h.climbs_outwardFrom (Nat.lt_of_lt_of_le hid hfuel) hid
  · intro id hid name
    exact h.resolve_cases hid name
  · intro id hid
    exact h.inStartup_iff hid
  · intro fuel hfuel
    exact h.visits_range.visit_eq (by rwa [List.length_range])
  · intro fuel hfuel
    have hroot : t.depth 0 = 0 := by rw [depth, h.outward_zero]; rfl
    have hlisting := @Visits.render t h _ _ h.visits_range fuel 0 fun id hid => by
      rw [List.mem_singleton.1 hid]
      exact ⟨h.nonempty, by omega, hroot⟩
    rwa [List.map_cons, List.map_nil, String.join_cons, String.join_nil, String.append_empty]
      at hlisting

/-- Every tree that operations build, refused ones included, has the shape of
brackets, and all walks over it come to their end: outward from any block at the
global block, and over the whole tree, with pending blocks as well as child by
child, after each block once, in the order in which they were opened. -/
theorem traversed_build (ops : List Op) : (build ops).WellFormed ∧ (build ops).Traversed :=
  ⟨wellFormed_build ops, (wellFormed_build ops).traversed⟩

/-- Two blocks inside another one, opened again after the first is closed. -/
example :
    let t := build [.enter "f" .function, .enter "a" .scope, .leave, .enter "b" .scope, .leave,
      .leave, .leave]
    t.preorder = [0, 1, 2, 3] ∧ t.children 1 = [2, 3] ∧ t.outward 3 = [3, 1, 0] ∧
      t.current = 0 := by
  decide

end Cartridge.BlockTree
