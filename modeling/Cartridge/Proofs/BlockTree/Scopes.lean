/-
# `Cartridge.Proofs.BlockTree.Scopes` — a tree of blocks as a stack of tables

Who only looks up names need not know of a tree.  Of all blocks they see the
current one and those around it, and of a block the symbols by name:

    enter      puts an empty table on the stack
    leave      takes the top one off, unless it is the last
    declare    adds to the top table, if the type is known and the name is not there
    find       asks the tables from the top down

Proved here: the tables of the blocks from the current one outward are such a
stack after every operation (`Shows.step`), so a tree that is built answers,
refuses and finds what the stack does (`build_refines`).  The other blocks are
not lost with the stack: what a block declares it retains (`retains_foldl`).
-/
import Cartridge.Proofs.BlockTree.Traversal

namespace Cartridge

/-! ## Tables -/

/-- The symbols of one scope by name, and the name of the scope, for errors. -/
@[ext]
structure SymbolTable where
  name : String
  get? : String → Option Symbol := fun _ => none

/-- The table with one more symbol. -/
def SymbolTable.insert (table : SymbolTable) (symbol : Symbol) : SymbolTable :=
  { table with get? := fun name => if name = symbol.name then some symbol else table.get? name }

/-- Tables on top of each other; the last one stays. -/
structure ScopeStack where
  top : SymbolTable := { name := "global" }
  below : List SymbolTable := []

namespace ScopeStack

open BlockTree (Op)

/-- All tables, the top one first. -/
def tables (s : ScopeStack) : List SymbolTable := s.top :: s.below

/-- The symbol of a name in the first table that has one. -/
def find (s : ScopeStack) (name : String) : Except ScopeError Symbol :=
  match s.tables.findSome? (·.get? name) with
  | some symbol => .ok symbol
  | none => .error (.undefined name)

/-- Take the top table off. -/
def pop (s : ScopeStack) : Except ScopeError ScopeStack :=
  match s.below with
  | [] => .error .closeGlobal
  | table :: below => .ok ⟨table, below⟩

/-- Add a symbol to the top table. -/
def declare (s : ScopeStack) (symbol : Symbol) : Except ScopeError ScopeStack :=
  if symbol.ty.isResolved then
    match s.top.get? symbol.name with
    | some _ => .error (.duplicate symbol.name s.top.name)
    | none => .ok { s with top := s.top.insert symbol }
  else
    .error (.unresolved symbol.name)

/-- The stack after an operation, or why it is refused.  Code and labels are not
its concern. -/
def step (s : ScopeStack) : Op → Except ScopeError ScopeStack
  | .enter name _ => .ok ⟨{ name := name }, s.tables⟩
  | .leave => s.pop
  | .declare symbol => s.declare symbol
  | .append _ => .ok s
  | .freshLabel => .ok s

/-- The stack after an operation, the same one if it is refused. -/
def apply (s : ScopeStack) (op : Op) : ScopeStack := (s.step op).toOption.getD s

/-- The stack that operations build from the last table alone. -/
def build (ops : List Op) : ScopeStack := ops.foldl apply {}

end ScopeStack

namespace BlockTree

/-! ## Refusals -/

/-- What a step came to, without the tree that an error leaves behind. -/
def outcome : EStateM.Result ScopeError BlockTree Unit → Except ScopeError BlockTree
  | .ok _ t => .ok t
  | .error e _ => .error e

/-- The tree after an operation, or why it is refused. -/
def step (t : BlockTree) : Op → Except ScopeError BlockTree
  | .enter name kind => .ok (t.enter name kind)
  | .leave => outcome (BlockTree.leave t)
  | .declare symbol => outcome (BlockTree.declare symbol t)
  | .append i => .ok (t.append i)
  | .freshLabel => .ok t.freshLabel

theorem WellFormed.exists_current {t : BlockTree} (h : t.WellFormed) :
    ∃ b, t.block? t.current = some b :=
  ⟨_, Array.getElem?_eq_getElem h.current⟩

/-- The three ways of a declaration, in the order in which they are tried. -/
theorem WellFormed.declare_cases {t : BlockTree} (h : t.WellFormed) (symbol : Symbol) :
    ∃ b, t.block? t.current = some b ∧
      (¬ symbol.ty.isResolved ∧
          BlockTree.declare symbol t = .error (.unresolved symbol.name) t ∨
        symbol.ty.isResolved ∧ (∃ other, b.symbol? symbol.name = some other) ∧
          BlockTree.declare symbol t = .error (.duplicate symbol.name b.name) t ∨
        symbol.ty.isResolved ∧ b.symbol? symbol.name = none ∧
          BlockTree.declare symbol t =
            .ok () (t.updateCurrent fun b => { b with symbols := b.symbols ++ [symbol] })) := by
  obtain ⟨b, hb⟩ := h.exists_current
  refine ⟨b, hb, ?_⟩
  unfold BlockTree.declare
  rw [hb]
  by_cases hresolved : symbol.ty.isResolved
  · rw [if_pos hresolved]
    cases hsymbol : b.symbol? symbol.name with
    | none =>
        refine .inr (.inr ⟨hresolved, rfl, ?_⟩)
        rw [Option.filter_some, hsymbol]
        rfl
    | some other =>
        refine .inr (.inl ⟨hresolved, ⟨other, rfl⟩, ?_⟩)
        rw [Option.filter_some, hsymbol]
        rfl
  · rw [if_neg hresolved]
    exact .inl ⟨hresolved, rfl⟩

/-! ## The tables of a tree -/

/-- A block as a table. -/
def table (t : BlockTree) (id : BlockId) : SymbolTable where
  name := ((t.block? id).map Block.name).getD ""
  get? := fun name => (t.block? id).bind (·.symbol? name)

/-- The tree shows the tables of a stack from its current block outward. -/
def Shows (t : BlockTree) (s : ScopeStack) : Prop :=
  (t.outward t.current).map t.table = s.tables

theorem Shows.find {t : BlockTree} {s : ScopeStack} (h : t.Shows s) (name : String) :
    t.find name = s.find name := by
  have hfound : ((t.outward t.current).findSome? fun id =>
      ((t.block? id).bind (·.symbol? name)).map fun symbol => (id, symbol)).map (·.2) =
      s.tables.findSome? (·.get? name) := by
    rw [← h, List.findSome?_map, List.map_findSome?]
    congr 1
    funext id
    simp only [Function.comp_apply, Option.map_map, table]
    exact Option.map_id'
  unfold BlockTree.find findFrom resolve ScopeStack.find
  rw [← hfound]
  cases (t.outward t.current).findSome? fun id =>
      ((t.block? id).bind (·.symbol? name)).map fun symbol => (id, symbol) with
  | none => rfl
  | some found => rfl

/-- What is around a block, the block itself left out. -/
theorem WellFormed.outward_eq {t : BlockTree} (h : t.WellFormed) {id : Nat}
    (hid : id < t.blocks.size) : t.outward id = id :: (t.parent? id).elim [] t.outward := by
  cases hp : t.parent? id with
  | none => exact (h.climbs_outward hid).unique (.last hid hp)
  | some p => exact h.outward_of_parent? hp

/-- The top of a shown stack is the current block, and below are the blocks around it. -/
theorem Shows.top_below {t : BlockTree} (hwf : t.WellFormed) {s : ScopeStack} (h : t.Shows s) :
    t.table t.current = s.top ∧
      ((t.parent? t.current).elim [] t.outward).map t.table = s.below := by
  rw [Shows, hwf.outward_eq hwf.current] at h
  exact List.cons.inj h

/-- No block is around itself. -/
theorem WellFormed.ne_of_mem_outer {t : BlockTree} (h : t.WellFormed) {id outer : Nat}
    (houter : outer ∈ (t.parent? id).elim [] t.outward) : outer ≠ id := by
  cases hp : t.parent? id with
  | none =>
      rw [hp] at houter
      cases houter
  | some p =>
      rw [hp] at houter
      have hlt := h.parent_lt hp
      have hsize := Nat.lt_trans hlt (lt_size_of_parent? hp)
      exact Nat.ne_of_lt (Nat.lt_of_le_of_lt (((h.mem_outward_iff hsize).1 houter).le h) hlt)

/-! ## One operation -/

/-- The walk outward reads the blocks alone. -/
theorem outwardFrom_of_blocks_eq {t t' : BlockTree} (h : t'.blocks = t.blocks) (fuel : Nat)
    (id : BlockId) : t'.outwardFrom fuel id = t.outwardFrom fuel id := by
  induction fuel generalizing id with
  | zero => rfl
  | succ fuel ih =>
      have hblock : t'.block? id = t.block? id := by rw [block?, block?, h]
      rw [outwardFrom, outwardFrom, hblock, funext ih]

/-- Where the cursor moves to, the tables from there outward are the stack. -/
theorem shows_of_blocks_eq (t : BlockTree) {t' : BlockTree} (h : t'.blocks = t.blocks)
    {s : ScopeStack} (htables : (t.outward t'.current).map t.table = s.tables) : t'.Shows s := by
  have hblock : t'.block? = t.block? := by
    funext id
    rw [block?, block?, h]
  have htable : t'.table = t.table := by
    funext id
    rw [table, table, hblock]
  rw [Shows, outward, outwardFrom_of_blocks_eq h, h, htable]
  exact htables

theorem table_updateCurrent {t : BlockTree} {f : Block → Block} (hname : ∀ b, (f b).name = b.name)
    (hsymbols : ∀ b, (f b).symbols = b.symbols) : (t.updateCurrent f).table = t.table := by
  funext id
  unfold table
  rw [block?_updateCurrent]
  split
  · cases t.block? id <;> simp [hname, hsymbols, Block.symbol?]
  · rfl

theorem table_enter (t : BlockTree) (name : String) (kind : BlockKind) (id : BlockId) :
    (t.enter name kind).table id =
      if id = t.blocks.size then { name := name } else t.table id := by
  have hold := congrFun (@table_updateCurrent t
    (fun b => { b with children := b.children ++ [t.blocks.size] }) (fun _ => rfl) fun _ => rfl) id
  unfold table at hold ⊢
  rw [block?_enter]
  split
  · rfl
  · exact hold

/-- The new block is on top of the blocks that were around. -/
theorem Shows.enter {t : BlockTree} (hwf : t.WellFormed) {s : ScopeStack} (h : t.Shows s)
    (name : String) (kind : BlockKind) :
    (t.enter name kind).Shows ⟨{ name := name }, s.tables⟩ := by
  have hwf' := hwf.enter name kind
  have hparent : ∀ id < t.blocks.size, (t.enter name kind).parent? id = t.parent? id := by
    intro id hid
    rw [parent?_enter, if_neg (Nat.ne_of_lt hid)]
  have hsize : t.blocks.size ≤ (t.enter name kind).blocks.size := by
    rw [size_enter]
    exact Nat.le_succ _
  have hinner : (t.enter name kind).parent? t.blocks.size = some t.current := by
    rw [parent?_enter, if_pos rfl]
  have houter := hwf.outward_congr hwf' hsize hparent hwf.current
  show ((t.enter name kind).outward t.blocks.size).map (t.enter name kind).table = _
  rw [hwf'.outward_of_parent? hinner, houter, List.map_cons, table_enter, if_pos rfl,
    ScopeStack.tables, ← h]
  congr 1
  refine List.map_congr_left fun id hid => ?_
  have hlt := ((hwf.mem_outward_iff hwf.current).1 hid).le hwf
  rw [table_enter, if_neg (Nat.ne_of_lt (Nat.lt_of_le_of_lt hlt hwf.current))]

/-- A change of the current block changes the top of the stack alone. -/
theorem Shows.updateCurrent {t : BlockTree} (hwf : t.WellFormed) {s : ScopeStack} (h : t.Shows s)
    {f : Block → Block} (hparent : ∀ b, (f b).parent = b.parent)
    (hchildren : ∀ b, (f b).children = b.children) {top : SymbolTable}
    (htop : (t.updateCurrent f).table t.current = top) :
    (t.updateCurrent f).Shows { s with top := top } := by
  have hwf' := hwf.updateCurrent hparent hchildren
  have hsize : (t.updateCurrent f).blocks.size = t.blocks.size := Array.size_modify ..
  have houter := hwf.outward_congr hwf' (Nat.le_of_eq hsize.symm)
    (fun id _ => congrFun (parent?_updateCurrent t hparent) id) hwf.current
  show ((t.updateCurrent f).outward t.current).map (t.updateCurrent f).table = _
  rw [houter, hwf.outward_eq hwf.current, List.map_cons, htop, ScopeStack.tables,
    ← (h.top_below hwf).2]
  congr 1
  refine List.map_congr_left fun id hid => ?_
  unfold table
  rw [block?_updateCurrent, if_neg (hwf.ne_of_mem_outer hid).symm]

/-- A new symbol behind the others is found under its name, and they under theirs. -/
theorem symbol?_append (b : Block) {symbol : Symbol} (hnew : b.symbol? symbol.name = none)
    (name : String) :
    ({ b with symbols := b.symbols ++ [symbol] } : Block).symbol? name =
      if name = symbol.name then some symbol else b.symbol? name := by
  unfold Block.symbol? at hnew ⊢
  rw [List.find?_append]
  split
  · next hname =>
      subst hname
      rw [hnew]
      simp
  · next hname => simp [Ne.symm hname]

/-- A tree and a stack come to related ends: the same error, which changes nothing, or
states of which one shows the other. -/
theorem Shows.step {t : BlockTree} (hwf : t.WellFormed) {s : ScopeStack} (h : t.Shows s)
    (op : Op) :
    (∃ e, t.step op = .error e ∧ s.step op = .error e ∧ t.apply op = t) ∨
      ∃ s', t.step op = .ok (t.apply op) ∧ s.step op = .ok s' ∧ (t.apply op).Shows s' := by
  obtain ⟨htop, hbelow⟩ := h.top_below hwf
  cases op with
  | enter name kind => exact .inr ⟨_, rfl, rfl, h.enter hwf name kind⟩
  | leave =>
      cases hp : t.parent? t.current with
      | none =>
          have hlast : s.below = [] := by rw [← hbelow, hp]; rfl
          rw [parent?] at hp
          simp only [BlockTree.step, BlockTree.apply, left, BlockTree.leave, hp]
          exact .inl ⟨.closeGlobal, rfl, by rw [ScopeStack.step, ScopeStack.pop, hlast], trivial⟩
      | some p =>
          have hsize := Nat.lt_trans (hwf.parent_lt hp) hwf.current
          have hrest : (t.outward p).map t.table = s.below := by rw [← hbelow, hp]; rfl
          have houter := hwf.outward_eq hsize
          rw [houter, List.map_cons] at hrest
          rw [parent?] at hp
          simp only [BlockTree.step, BlockTree.apply, left, BlockTree.leave, hp]
          refine .inr ⟨_, rfl, by rw [ScopeStack.step, ScopeStack.pop, ← hrest], ?_⟩
          apply shows_of_blocks_eq t
          · rfl
          · rw [houter]
            rfl
  | declare symbol =>
      obtain ⟨b, hb, hcases⟩ := hwf.declare_cases symbol
      have hget : s.top.get? symbol.name = b.symbol? symbol.name := by
        rw [← htop, table, hb]
        rfl
      have hname : s.top.name = b.name := by
        rw [← htop, table, hb]
        rfl
      simp only [BlockTree.step, BlockTree.apply, left, ScopeStack.step, ScopeStack.declare]
      rcases hcases with ⟨hty, heq⟩ | ⟨hty, ⟨other, hother⟩, heq⟩ | ⟨hty, hnew, heq⟩
      · rw [heq, if_neg hty]
        exact .inl ⟨_, rfl, rfl, rfl⟩
      · rw [heq, if_pos hty, hget, hother, hname]
        exact .inl ⟨_, rfl, rfl, rfl⟩
      · rw [heq, if_pos hty, hget, hnew]
        refine .inr ⟨_, rfl, rfl, ?_⟩
        dsimp only
        apply h.updateCurrent hwf
        · exact fun _ => rfl
        · exact fun _ => rfl
        · rw [← htop]
          unfold table SymbolTable.insert
          rw [block?_updateCurrent, if_pos rfl, hb]
          ext1
          · rfl
          · funext name
            exact symbol?_append b hnew name
  | append i =>
      refine .inr ⟨s, rfl, rfl, ?_⟩
      simp only [BlockTree.apply, BlockTree.append]
      apply h.updateCurrent hwf
      · exact fun _ => rfl
      · exact fun _ => rfl
      · rw [← htop]
        refine congrFun (table_updateCurrent ?_ ?_) t.current
        · exact fun _ => rfl
        · exact fun _ => rfl
  | freshLabel =>
      refine .inr ⟨s, rfl, rfl, ?_⟩
      apply shows_of_blocks_eq t
      · rfl
      · exact h

/-- The tree and the stack that the same operations build. -/
theorem shows_build (ops : List Op) : (build ops).Shows (ScopeStack.build ops) := by
  suffices hrun : ∀ (t : BlockTree) (s : ScopeStack), t.WellFormed → t.Shows s →
      (ops.foldl BlockTree.apply t).Shows (ops.foldl ScopeStack.apply s) from
    hrun {} {} wellFormed_empty rfl
  induction ops with
  | nil => exact fun t s _ h => h
  | cons op ops ih =>
      intro t s hwf h
      refine ih _ _ (hwf.apply op) ?_
      unfold ScopeStack.apply
      rcases h.step hwf op with ⟨e, -, hs, ht⟩ | ⟨s', -, hs, ht⟩
      · rw [hs, ht]
        exact h
      · rw [hs]
        exact ht

/-! ## What blocks retain -/

/-- Every block of the older tree is there with its symbols, perhaps with more behind them. -/
def Retains (t old : BlockTree) : Prop :=
  ∀ id b, old.block? id = some b → ∃ b', t.block? id = some b' ∧ b.symbols <+: b'.symbols

theorem Retains.refl (t : BlockTree) : t.Retains t := fun _ b hb => ⟨b, hb, List.prefix_refl _⟩

theorem Retains.trans {t mid old : BlockTree} (h : t.Retains mid) (h' : mid.Retains old) :
    t.Retains old := by
  intro id b hb
  obtain ⟨b', hb', hsub⟩ := h' id b hb
  obtain ⟨b'', hb'', hsub'⟩ := h id b' hb'
  exact ⟨b'', hb'', hsub.trans hsub'⟩

theorem retains_updateCurrent (t : BlockTree) {f : Block → Block}
    (hf : ∀ b, b.symbols <+: (f b).symbols) : (t.updateCurrent f).Retains t := by
  intro id b hb
  rw [block?_updateCurrent, hb]
  split
  · exact ⟨f b, rfl, hf b⟩
  · exact ⟨b, rfl, List.prefix_refl _⟩

theorem retains_enter (t : BlockTree) (name : String) (kind : BlockKind) :
    (t.enter name kind).Retains t := by
  intro id b hb
  have hid : id ≠ t.blocks.size := Nat.ne_of_lt (Array.getElem?_eq_some_iff.1 hb).1
  rw [block?_enter, if_neg hid]
  apply retains_updateCurrent t _ id b hb
  exact fun _ => List.prefix_refl _

/-- No operation takes a symbol back. -/
theorem WellFormed.retains_apply {t : BlockTree} (h : t.WellFormed) (op : Op) :
    (t.apply op).Retains t := by
  cases op with
  | enter name kind => exact retains_enter t name kind
  | leave =>
      simp only [BlockTree.apply, left, BlockTree.leave]
      cases (t.block? t.current).bind Block.parent with
      | none => exact .refl t
      | some p => exact .refl t
  | declare symbol =>
      obtain ⟨b, -, hcases⟩ := h.declare_cases symbol
      simp only [BlockTree.apply, left]
      rcases hcases with ⟨-, heq⟩ | ⟨-, -, heq⟩ | ⟨-, -, heq⟩
      · rw [heq]
        exact .refl t
      · rw [heq]
        exact .refl t
      · rw [heq]
        exact retains_updateCurrent t fun b => List.prefix_append _ _
  | append i => exact retains_updateCurrent t fun _ => List.prefix_refl _
  | freshLabel => exact .refl t

theorem WellFormed.retains_foldl {t : BlockTree} (h : t.WellFormed) (ops : List Op) :
    (ops.foldl BlockTree.apply t).Retains t := by
  induction ops generalizing t with
  | nil => exact .refl t
  | cons op ops ih => exact (ih (h.apply op)).trans (h.retains_apply op)

/-- What a block itself declares is found from it first. -/
theorem WellFormed.resolve_own {t : BlockTree} (h : t.WellFormed) {id : Nat} {b : Block}
    (hb : t.block? id = some b) {name : String} {symbol : Symbol}
    (hsymbol : b.symbol? name = some symbol) : t.resolve id name = .ok (id, symbol) := by
  have hid : id < t.blocks.size := (Array.getElem?_eq_some_iff.1 hb).1
  simp [resolve, h.outward_eq hid, hb, hsymbol]

/-- A retained block finds the symbols that it declared. -/
theorem Retains.resolve {t old : BlockTree} (h : t.Retains old) (hwf : t.WellFormed) {id : Nat}
    {b : Block} (hb : old.block? id = some b) {name : String} {symbol : Symbol}
    (hsymbol : b.symbol? name = some symbol) : t.resolve id name = .ok (id, symbol) := by
  obtain ⟨b', hb', more, hmore⟩ := h id b hb
  refine hwf.resolve_own hb' ?_
  unfold Block.symbol? at hsymbol ⊢
  rw [← hmore, List.find?_append, hsymbol]
  rfl

/-- A symbol that is declared stands in the current block. -/
theorem WellFormed.symbol?_of_declare {t t' : BlockTree} (h : t.WellFormed) {symbol : Symbol}
    (hstep : t.step (.declare symbol) = .ok t') :
    ∃ b, (t.apply (.declare symbol)).block? t.current = some b ∧
      b.symbol? symbol.name = some symbol := by
  obtain ⟨b, hb, hcases⟩ := h.declare_cases symbol
  simp only [BlockTree.step] at hstep
  simp only [BlockTree.apply, left]
  rcases hcases with ⟨-, heq⟩ | ⟨-, -, heq⟩ | ⟨-, hnew, heq⟩
  · rw [heq] at hstep
    cases hstep
  · rw [heq] at hstep
    cases hstep
  · rw [heq]
    refine ⟨_, by rw [block?_updateCurrent, if_pos rfl, hb]; rfl, ?_⟩
    rw [symbol?_append b hnew, if_pos rfl]

/-! ## Every tree -/

/-- A tree that operations build is, for looking up and declaring names, the stack of
tables that they build: it finds the same symbols and refuses the same operations, for
the same reasons.  What it refuses changes nothing, and a symbol that it takes is found
from its block ever after. -/
theorem build_refines (ops : List Op) :
    (∀ name, (build ops).find name = (ScopeStack.build ops).find name) ∧
      (∀ op e, (build ops).step op = .error e ↔ (ScopeStack.build ops).step op = .error e) ∧
      (∀ op e, (build ops).step op = .error e → (build ops).apply op = build ops) ∧
      ∀ symbol t, (build ops).step (.declare symbol) = .ok t → ∀ more,
        (build (ops ++ .declare symbol :: more)).resolve (build ops).current symbol.name =
          .ok ((build ops).current, symbol) := by
  have hwf := wellFormed_build ops
  have hshows := shows_build ops
  refine ⟨hshows.find, ?_, ?_, ?_⟩
  · intro op e
    rcases hshows.step hwf op with ⟨e', ht, hs, -⟩ | ⟨s', ht, hs, -⟩
    · simp [ht, hs]
    · simp [ht, hs]
  · intro op e he
    rcases hshows.step hwf op with ⟨e', -, -, hsame⟩ | ⟨s', ht, -⟩
    · exact hsame
    · cases he.symm.trans ht
  · intro symbol t hstep more
    obtain ⟨b, hb, hsymbol⟩ := hwf.symbol?_of_declare hstep
    have hretains := (hwf.apply (.declare symbol)).retains_foldl more
    have hwf' := wellFormed_build (ops ++ .declare symbol :: more)
    rw [build, List.foldl_append, List.foldl_cons] at hwf' ⊢
    exact hretains.resolve hwf' hb hsymbol

/-- A name of the global block, declared anew inside a function. -/
def shadowing : List Op := [.declare { name := "x", ty := .byte }, .enter "f" .function]

/-- The inner declaration. -/
def shadow : Symbol := { name := "x", ty := .word, placement := .zeroPage }

/-- The shadow is taken once and refused the second time; from its block it is found
after the block is closed and the global declaration refused too. -/
theorem build_refines_shadowing :
    (∃ t, (build shadowing).step (.declare shadow) = .ok t) ∧
      (build (shadowing ++ [.declare shadow, .leave, .declare shadow])).resolve 1 "x" =
        .ok (1, shadow) ∧
      (build (shadowing ++ [.declare shadow])).step (.declare shadow) =
        .error (.duplicate "x" "f") ∧
      (build (shadowing ++ [.declare shadow])).apply (.declare shadow) =
        build (shadowing ++ [.declare shadow]) := by
  have htaken : (build shadowing).step (.declare shadow) =
      .ok ((build shadowing).apply (.declare shadow)) := rfl
  have hrefused : (build (shadowing ++ [.declare shadow])).step (.declare shadow) =
      .error (.duplicate "x" "f") := rfl
  refine ⟨⟨_, htaken⟩, ?_, hrefused, ?_⟩
  · exact (build_refines shadowing).2.2.2 shadow _ htaken [.leave, .declare shadow]
  · exact (build_refines (shadowing ++ [.declare shadow])).2.2.1 _ _ hrefused

end BlockTree

end Cartridge
