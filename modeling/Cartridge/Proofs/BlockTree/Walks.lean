/-
# `Cartridge.Proofs.BlockTree.Walks` — the two walks through a tree

Inward, the walk over the whole tree keeps a list of pending blocks and is
bounded by the number of blocks; said without either, it meets a block, then
what is below its children, child by child (`Visits`).  Outward, the walk from
a block to the global one is bounded by the same number; without the bound it
goes from parent to parent until there is none (`Climbs`).

Proved here, for a tree with the shape of `Shape`: the bounds are never what
ends a walk.

    the whole tree    is met in the order in which its blocks were opened   (`visits_range`)
    preorder          is that visit                                         (`preorder_eq_range`)
    outward id        climbs from `id` to a block without a parent          (`climbs_outward`)
    outward id        holds exactly the blocks that enclose `id`            (`mem_outward_iff`)
    resolve id        finds the nearest block that declares the name        (`nearest_of_resolve`)

The blocks pending before block `k` is met are those opened at or after `k`
inside a block opened before `k`.  That the children of `k` stand in front of
all others among them is what nesting is for.
-/
import Cartridge.Proofs.BlockTree.Shape
import Cartridge.Proofs.Success

namespace Cartridge.BlockTree

/-! ## Over the whole tree -/

/-- Going through blocks, each before what is below it, meets `order`. -/
inductive Visits (t : BlockTree) : List BlockId → List BlockId → Prop where
  | nil : Visits t [] []
  | cons {id : BlockId} {ids below beside : List BlockId} (hbelow : Visits t (t.children id) below)
      (hbeside : Visits t ids beside) : Visits t (id :: ids) (id :: (below ++ beside))

theorem Visits.append {t : BlockTree} {ids ids' order order' : List BlockId}
    (h : t.Visits ids order) (h' : t.Visits ids' order') :
    t.Visits (ids ++ ids') (order ++ order') := by
  induction h with
  | nil => exact h'
  | cons hbelow _ _ ih =>
      rw [List.cons_append, List.cons_append, List.append_assoc]
      exact .cons hbelow ih

theorem Visits.of_append {t : BlockTree} {ids ids' order : List BlockId}
    (h : t.Visits (ids ++ ids') order) :
    ∃ front rest, t.Visits ids front ∧ t.Visits ids' rest ∧ order = front ++ rest := by
  induction ids generalizing order with
  | nil => exact ⟨[], order, .nil, h, rfl⟩
  | cons id ids ih =>
      cases h with
      | cons hbelow hbeside =>
          obtain ⟨front, rest, hfront, hrest, rfl⟩ := ih hbeside
          exact ⟨_, rest, .cons hbelow hfront, hrest, by simp⟩

/-- The walk with a list of pending blocks is a visit of them. -/
theorem Visits.visit_eq {t : BlockTree} {fuel : Nat} {ids order : List BlockId}
    (h : t.Visits ids order) (hfuel : order.length ≤ fuel) : t.visit fuel ids = order := by
  induction fuel generalizing ids order with
  | zero =>
      rw [List.length_eq_zero_iff.1 (Nat.le_zero.1 hfuel)]
      rfl
  | succ fuel ih =>
      cases h with
      | nil => rfl
      | cons hbelow hbeside =>
          rw [visit, ih (hbelow.append hbeside) (Nat.le_of_succ_le_succ hfuel)]

/-- The blocks that wait when all blocks before `k` have been met. -/
def pending (t : BlockTree) (k : Nat) : List BlockId :=
  (List.range' k (t.blocks.size - k)).filter fun id => (t.parent? id).all (· < k)

/-- Once a block inside an older one than `k` is opened, `k` stays closed. -/
theorem WellFormed.not_encloses {t : BlockTree} (h : t.WellFormed) {k id p : Nat}
    (hk : k < id) (hp : t.parent? id = some p) (hpk : p < k) {later : Nat}
    (hlater : id ≤ later) : ¬ t.Encloses k later := by
  induction hlater with
  | refl =>
      intro henc
      cases henc with
      | refl => exact Nat.lt_irrefl _ hk
      | step hq henc =>
          obtain rfl := Option.some.inj (hp.symm.trans hq)
          exact Nat.not_lt.2 (henc.le h) hpk
  | step hle ih =>
      intro henc
      cases henc with
      | refl => exact Nat.not_le.2 hk (Nat.le_succ_of_le hle)
      | step hq henc => exact ih (henc.trans (h.nested _ _ hq))

/-- A list in which all that has `q` stands in front of all that has `p`. -/
theorem filter_append_filter {α : Type} {p q r : α → Bool} {l : List α}
    (hr : ∀ a ∈ l, r a = (q a || p a)) (hexcl : ∀ a ∈ l, p a → q a = false)
    (hfront : l.Pairwise fun a b => p a → q b = false) :
    l.filter q ++ l.filter p = l.filter r := by
  induction l with
  | nil => rfl
  | cons a l ih =>
      have hrest := ih (fun b hb => hr b (by simp [hb])) (fun b hb => hexcl b (by simp [hb]))
        (List.pairwise_cons.1 hfront).2
      have ha := hr a (by simp)
      cases hp : p a with
      | false => cases hq : q a <;> simp [hp, hq, ha, hrest]
      | true =>
          -- nothing behind `a` has `q`
          have hnone : l.filter q = [] :=
            List.filter_eq_nil_iff.2 fun b hb => by
              simp [(List.pairwise_cons.1 hfront).1 b hb hp]
          rw [hnone, List.nil_append] at hrest
          simp [hp, hexcl a (by simp) hp, ha, hnone, hrest]

/-- Meeting block `k` puts its children in front of the other pending blocks. -/
theorem WellFormed.pending_step {t : BlockTree} (h : t.WellFormed) {k : Nat}
    (hk : k < t.blocks.size) :
    ∃ others, t.pending k = k :: others ∧ t.children k ++ others = t.pending (k + 1) := by
  have hrange : List.range' k (t.blocks.size - k) =
      k :: List.range' (k + 1) (t.blocks.size - (k + 1)) := by
    rw [show t.blocks.size - k = t.blocks.size - (k + 1) + 1 by omega, List.range'_succ]
  have hself : (t.parent? k).all (· < k) = true := by
    cases hp : t.parent? k with
    | none => rfl
    | some p => simpa using h.parent_lt hp
  refine ⟨(List.range' (k + 1) (t.blocks.size - (k + 1))).filter fun id =>
    (t.parent? id).all (· < k), ?_, ?_⟩
  · rw [pending, hrange, List.filter_cons, if_pos hself]
  · have hchildren : t.children k =
        (List.range' (k + 1) (t.blocks.size - (k + 1))).filter (t.parent? · = some k) := by
      have hsplit : List.range t.blocks.size =
          List.range (k + 1) ++ List.range' (k + 1) (t.blocks.size - (k + 1)) := by
        have := List.range'_append_1 (s := 0) (m := k + 1) (n := t.blocks.size - (k + 1))
        rwa [Nat.zero_add, Nat.add_sub_cancel' hk, ← List.range_eq_range',
          ← List.range_eq_range', eq_comm] at this
      -- no block is a child of one that was opened later
      have hnone : (List.range (k + 1)).filter (t.parent? · = some k) = [] := by
        refine List.filter_eq_nil_iff.2 fun id hid hp => ?_
        have := h.parent_lt (of_decide_eq_true hp)
        rw [List.mem_range] at hid
        omega
      rw [h.children, hsplit, List.filter_append, hnone, List.nil_append]
    rw [hchildren]
    have hparent : ∀ id ∈ List.range' (k + 1) (t.blocks.size - (k + 1)),
        ∃ p, t.parent? id = some p ∧ k < id := by
      intro id hid
      rw [List.mem_range'_1] at hid
      obtain ⟨p, hp, -⟩ := h.parent id (by omega) (by omega)
      exact ⟨p, hp, by omega⟩
    refine filter_append_filter ?_ ?_ ?_
    · intro id hid
      obtain ⟨p, hp, -⟩ := hparent id hid
      rw [hp, Bool.eq_iff_iff]
      simp only [Option.all_some, decide_eq_true_eq, Bool.or_eq_true, Option.some.injEq]
      exact Nat.lt_succ_iff_lt_or_eq.trans or_comm
    · intro id hid hlt
      obtain ⟨p, hp, -⟩ := hparent id hid
      rw [hp] at hlt ⊢
      refine decide_eq_false fun hpk => ?_
      cases hpk
      simp at hlt
    · refine List.Pairwise.imp_of_mem ?_ (List.pairwise_lt_range' 1)
      intro a b ha hb hab hlt
      obtain ⟨p, hp, hka⟩ := hparent a ha
      rw [hp] at hlt
      refine decide_eq_false fun hb => ?_
      exact h.not_encloses hka hp (by simpa using hlt) (Nat.le_sub_one_of_lt hab) (h.nested b k hb)

/-- Visiting the pending blocks meets all blocks from `k` on. -/
theorem WellFormed.visits_pending {t : BlockTree} (h : t.WellFormed) {k : Nat}
    (hk : k ≤ t.blocks.size) :
    t.Visits (t.pending k) (List.range' k (t.blocks.size - k)) := by
  induction hn : t.blocks.size - k generalizing k with
  | zero =>
      rw [pending, hn]
      exact .nil
  | succ n ih =>
      obtain ⟨others, hpending, hstep⟩ := h.pending_step (k := k) (by omega)
      have hrest := ih (k := k + 1) (by omega) (by omega)
      rw [← hstep] at hrest
      obtain ⟨below, beside, hbelow, hbeside, heq⟩ := hrest.of_append
      rw [hpending, List.range'_succ, heq]
      exact .cons hbelow hbeside

/-- Going through the whole tree meets the blocks in the order in which they
were opened. -/
theorem WellFormed.visits_range {t : BlockTree} (h : t.WellFormed) :
    t.Visits [0] (List.range t.blocks.size) := by
  have hroots : t.pending 0 = [0] := by
    have hothers : ∀ id ∈ List.range' 1 (t.blocks.size - 1), ¬ (t.parent? id).all (· < 0) := by
      intro id hid
      rw [List.mem_range'_1] at hid
      obtain ⟨p, hp, -⟩ := h.parent id (by omega) (by omega)
      simp [hp]
    have hsize := h.nonempty
    rw [pending, Nat.sub_zero, show t.blocks.size = t.blocks.size - 1 + 1 by omega,
      List.range'_succ, List.filter_cons, h.root, List.filter_eq_nil_iff.2 hothers]
    rfl
  have := h.visits_pending (Nat.zero_le _)
  rwa [hroots, Nat.sub_zero, ← List.range_eq_range'] at this

theorem WellFormed.preorder_eq_range {t : BlockTree} (h : t.WellFormed) :
    t.preorder = List.range t.blocks.size :=
  h.visits_range.visit_eq (by simp)

/-! ## From a block outward -/

/-- From parent to parent, `path` leads from a block to one without a parent. -/
inductive Climbs (t : BlockTree) : BlockId → List BlockId → Prop where
  | last {id : BlockId} (hid : id < t.blocks.size) (hroot : t.parent? id = none) :
      Climbs t id [id]
  | next {id parent : BlockId} {path : List BlockId} (hparent : t.parent? id = some parent)
      (h : Climbs t parent path) : Climbs t id (id :: path)

theorem Climbs.unique {t : BlockTree} {id : BlockId} {path path' : List BlockId}
    (h : t.Climbs id path) (h' : t.Climbs id path') : path = path' := by
  induction h generalizing path' with
  | last _ hroot =>
      cases h' with
      | last => rfl
      | next hparent _ => cases hroot.symm.trans hparent
  | next hparent _ ih =>
      cases h' with
      | last _ hroot => cases hroot.symm.trans hparent
      | next hparent' h' =>
          obtain rfl := Option.some.inj (hparent.symm.trans hparent')
          rw [ih h']

/-- On the way from a block lie exactly the blocks around it. -/
theorem Climbs.mem_iff {t : BlockTree} {id outer : BlockId} {path : List BlockId}
    (h : t.Climbs id path) : outer ∈ path ↔ t.Encloses outer id := by
  induction h with
  | last _ hroot =>
      rw [List.mem_singleton]
      constructor
      · rintro rfl
        exact .refl
      · intro henc
        cases henc with
        | refl => rfl
        | step hq _ => cases hroot.symm.trans hq
  | next hparent _ ih =>
      rw [List.mem_cons, ih]
      constructor
      · rintro (rfl | henc)
        · exact .refl
        · exact .step hparent henc
      · intro henc
        cases henc with
        | refl => exact .inl rfl
        | step hq henc =>
            obtain rfl := Option.some.inj (hparent.symm.trans hq)
            exact .inr henc

/-- With a bound above the number of a block, the walk outward ends at the end of
its path: parents have smaller numbers. -/
theorem WellFormed.climbs_outwardFrom {t : BlockTree} (h : t.WellFormed) {fuel id : Nat}
    (hfuel : id < fuel) (hid : id < t.blocks.size) : t.Climbs id (t.outwardFrom fuel id) := by
  induction fuel generalizing id with
  | zero => exact absurd hfuel (Nat.not_lt_zero _)
  | succ fuel ih =>
      obtain ⟨b, hb⟩ : ∃ b, t.block? id = some b := ⟨_, Array.getElem?_eq_getElem hid⟩
      have hparent : t.parent? id = b.parent := by rw [parent?, hb, Option.bind_some]
      rw [outwardFrom, hb]
      dsimp only
      cases hp : b.parent with
      | none => exact .last hid (hparent.trans hp)
      | some p =>
          have hlt := h.parent_lt (hparent.trans hp)
          exact .next (hparent.trans hp)
            (ih (Nat.lt_of_lt_of_le hlt (Nat.le_of_lt_succ hfuel)) (Nat.lt_trans hlt hid))

theorem WellFormed.climbs_outward {t : BlockTree} (h : t.WellFormed) {id : Nat}
    (hid : id < t.blocks.size) : t.Climbs id (t.outward id) :=
  h.climbs_outwardFrom hid hid

/-- Walking outward meets exactly the blocks around a block. -/
theorem WellFormed.mem_outward_iff {t : BlockTree} (h : t.WellFormed) {id outer : Nat}
    (hid : id < t.blocks.size) : outer ∈ t.outward id ↔ t.Encloses outer id :=
  (h.climbs_outward hid).mem_iff

/-- The block, or one around it, is startup code. -/
def InStartup (t : BlockTree) (id : BlockId) : Prop :=
  ∃ outer b, t.Encloses outer id ∧ t.block? outer = some b ∧ b.kind = .startup

theorem WellFormed.inStartup_iff {t : BlockTree} (h : t.WellFormed) {id : Nat}
    (hid : id < t.blocks.size) : t.inStartup id = true ↔ t.InStartup id := by
  simp only [inStartup, List.any_eq_true, beq_iff_eq, Option.map_eq_some_iff,
    h.mem_outward_iff hid]
  constructor
  · rintro ⟨outer, henc, b, hb, hkind⟩
    exact ⟨outer, b, henc, hb, hkind⟩
  · rintro ⟨outer, b, henc, hb, hkind⟩
    exact ⟨outer, henc, b, hb, hkind⟩

/-- The block itself declares the name. -/
def Declares (t : BlockTree) (id : BlockId) (name : String) : Prop :=
  ∃ symbol ∈ t.symbols id, symbol.name = name

/-- `owner` is the first block from `id` outward that declares the name. -/
inductive Nearest (t : BlockTree) (name : String) : BlockId → BlockId → Prop where
  | here {id : BlockId} (h : t.Declares id name) : Nearest t name id id
  | outer {id parent owner : BlockId} (h : ¬ t.Declares id name)
      (hparent : t.parent? id = some parent) (howner : Nearest t name parent owner) :
      Nearest t name id owner

theorem Nearest.unique {t : BlockTree} {name : String} {id owner owner' : BlockId}
    (h : t.Nearest name id owner) (h' : t.Nearest name id owner') : owner = owner' := by
  induction h with
  | here hdecl =>
      cases h' with
      | here => rfl
      | outer hno _ _ => exact absurd hdecl hno
  | outer hno hparent _ ih =>
      cases h' with
      | here hdecl => exact absurd hdecl hno
      | outer _ hparent' howner' =>
          obtain rfl := Option.some.inj (hparent.symm.trans hparent')
          exact ih howner'

theorem declares_iff {t : BlockTree} {id : BlockId} {name : String} :
    t.Declares id name ↔ ∃ symbol, (t.block? id).bind (·.symbol? name) = some symbol := by
  unfold Declares symbols
  cases t.block? id with
  | none => simp
  | some b =>
      simp only [Option.map_some, Option.getD_some, Option.bind_some, Block.symbol?,
        ← Option.isSome_iff_exists, List.find?_isSome, beq_iff_eq]

theorem nearest_of_findSome? {t : BlockTree} {fuel : Nat} {id owner : BlockId} {name : String}
    {symbol : Symbol}
    (h : (t.outwardFrom fuel id).findSome? (fun id =>
      ((t.block? id).bind (·.symbol? name)).map (fun s => (id, s))) = some (owner, symbol)) :
    t.Nearest name id owner := by
  induction fuel generalizing id with
  | zero => simp [outwardFrom] at h
  | succ fuel ih =>
      rw [outwardFrom] at h
      cases hb : t.block? id with
      | none => simp [hb] at h
      | some b =>
          simp only [hb, List.findSome?_cons, Option.bind_some] at h
          cases hs : b.symbol? name with
          | some s =>
              simp only [hs, Option.map_some, Option.some.injEq, Prod.mk.injEq] at h
              obtain ⟨rfl, -⟩ := h
              exact .here (declares_iff.2 ⟨s, by rw [hb, Option.bind_some, hs]⟩)
          | none =>
              simp only [hs, Option.map_none] at h
              have hno : ¬ t.Declares id name := by
                rw [declares_iff]
                rintro ⟨s, hs'⟩
                rw [hb, Option.bind_some, hs] at hs'
                cases hs'
              cases hp : b.parent with
              | none => simp [hp] at h
              | some p =>
                  rw [hp] at h
                  refine .outer hno ?_ (ih h)
                  rw [parent?, hb, Option.bind_some, hp]

/-- A name that is resolved belongs to the nearest block that declares it. -/
theorem nearest_of_resolve {t : BlockTree} {id owner : BlockId} {name : String} {symbol : Symbol}
    (h : t.resolve id name = .ok (owner, symbol)) : t.Nearest name id owner := by
  simp only [resolve] at h
  split at h
  · next hfound =>
      cases h
      exact nearest_of_findSome? hfound
  · cases h

end Cartridge.BlockTree
