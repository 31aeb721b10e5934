/-
# `Cartridge.Proofs.ObjectCode.Progress` — code that only stores becomes machine code

A tree is *storing* if its instructions only store, between names that are
declared in their block or around it.  Then nothing in the way to its machine
code can go wrong but two things:

    storage     a variable without a size, or a region without room
    overflow    code past the end of the address space

and one more if the size of a variable cannot be computed (`Measurable`), for
every name has an address once storage is handed out, every line is an
instruction that the processor has, and the one label in the code, that of the
jump to itself, is bound where it is used.

Proved here: a draft takes such lines or overflows, and what waits for a label in
it can be filled in (`Steady`).  So the object code of a storing tree fails only
where the program does not fit (`objectCode_stopsWithin`), and no call breaks its
contract but that for a size.
-/
import Cartridge.Proofs.Assembly.Relocation
import Cartridge.Proofs.BlockTree.Traversal
import Cartridge.Proofs.Build.Variables
import Cartridge.Proofs.Initializer.Names
import Cartridge.Proofs.Storage.Runs

namespace Cartridge

/-! ## Lines -/

/-- A line whose encoding depends on no label of the block tree. -/
def Line.Sure : Line → Prop
  | .op m o => ∃ bytes, Cpu.encode? m o = some bytes
  | .spin => True
  | _ => False

namespace Site

theorem sure_load (a : UInt16) : (load a).Sure := by
  unfold load Cpu.Operand.memory
  split
  · exact ⟨_, rfl⟩
  · exact ⟨_, rfl⟩

theorem sure_store (a : UInt16) : (store a).Sure := by
  unfold store Cpu.Operand.memory
  split
  · exact ⟨_, rfl⟩
  · exact ⟨_, rfl⟩

theorem sure_constant (w : UInt16) (i : Nat) : (Line.op .lda (constant w i)).Sure := by
  cases i with
  | zero => exact ⟨_, rfl⟩
  | succ i => exact ⟨_, rfl⟩

/-- The name has an address at the site. -/
def Finds (site : Site) (name : String) : Prop := ∃ a, site.address name = .ok a

theorem exists_placeAddress {site : Site} {p : Place} (h : site.Finds p.symbol) :
    ∃ a, site.placeAddress p = .ok a := by
  obtain ⟨a, ha⟩ := h
  exact ⟨_, except_map_eq_ok_iff.2 ⟨a, ha, rfl⟩⟩

theorem exists_source {site : Site} {v : Value} (h : v.Among site.Finds) :
    ∃ byte, site.source v = .ok byte := by
  cases v with
  | immediate n => exact ⟨constant n, rfl⟩
  | place p =>
      obtain ⟨a, ha⟩ := exists_placeAddress h
      exact ⟨_, except_map_eq_ok_iff.2 ⟨a, ha, rfl⟩⟩
  | addressOf name =>
      obtain ⟨a, ha⟩ := h
      exact ⟨_, except_map_eq_ok_iff.2 ⟨a, ha, rfl⟩⟩

theorem sure_of_source {site : Site} {v : Value} {byte : Nat → Cpu.Operand}
    (h : site.source v = .ok byte) (i : Nat) : (Line.op .lda (byte i)).Sure := by
  cases v with
  | immediate n =>
      cases h
      exact sure_constant n i
  | place p =>
      obtain ⟨a, -, rfl⟩ := except_map_eq_ok_iff.1 h
      exact sure_load _
  | addressOf name =>
      obtain ⟨a, -, rfl⟩ := except_map_eq_ok_iff.1 h
      exact sure_constant a i

/-- The lines of a copy load and store. -/
theorem sure_of_copy {site : Site} {dest : Place} {src : Value} {width : Width}
    {lines : List Line} (h : site.select (.copy dest src width) = .ok lines) :
    ∀ line ∈ lines, line.Sure := by
  obtain ⟨d, -, h⟩ := except_bind_eq_ok_iff.1 h
  obtain ⟨byte, hbyte, h⟩ := except_bind_eq_ok_iff.1 h
  cases h
  intro line hline
  obtain ⟨k, -, hk⟩ := List.mem_flatMap.1 hline
  simp only [List.mem_cons, List.not_mem_nil, or_false] at hk
  rcases hk with rfl | rfl
  · exact sure_of_source hbyte k
  · exact sure_store _

theorem sure_of_widen {site : Site} {dest src : Place} {lines : List Line}
    (h : site.select (.widen dest src) = .ok lines) : ∀ line ∈ lines, line.Sure := by
  obtain ⟨d, s, -, -, rfl⟩ := select_widen h
  have hzero : (Line.op .lda (.immediate 0)).Sure := ⟨_, rfl⟩
  simp [sure_load, sure_store, hzero]

/-- An instruction whose names have addresses is selected. -/
theorem exists_select {site : Site} {i : Instr} (h : i.Among site.Finds) :
    ∃ lines, site.select i = .ok lines ∧ ∀ line ∈ lines, line.Sure := by
  cases i with
  | copy dest src width =>
      obtain ⟨d, hd⟩ := exists_placeAddress h.1
      obtain ⟨byte, hbyte⟩ := exists_source h.2
      have hselect : site.select (.copy dest src width) = .ok _ :=
        except_bind_eq_ok_iff.2 ⟨d, hd, except_bind_eq_ok_iff.2 ⟨byte, hbyte, rfl⟩⟩
      exact ⟨_, hselect, sure_of_copy hselect⟩
  | widen dest src =>
      obtain ⟨d, hd⟩ := exists_placeAddress h.1
      obtain ⟨s, hs⟩ := exists_placeAddress h.2
      have hselect : site.select (.widen dest src) = .ok _ :=
        except_bind_eq_ok_iff.2 ⟨d, hd, except_bind_eq_ok_iff.2 ⟨s, hs, rfl⟩⟩
      exact ⟨_, hselect, sure_of_widen hselect⟩
  | _ => exact h.elim

end Site

/-! ## Drafts -/

/-- Every operand that waits for its label lies in the code and has a value. -/
def Assembler.Settled (a : Assembler) : Prop :=
  ∀ p ∈ a.patches.toList, p.offset + p.kind.width ≤ a.code.size ∧ a.Fillable p

namespace Assembler

theorem settled_empty (base : UInt16) : Settled { base := base } := by
  intro p hp
  cases hp

theorem lt_of_fillable {a : Assembler} {p : Patch} (h : a.Fillable p) :
    p.label < a.labels.size := by
  obtain ⟨target, bytes, haddress, -⟩ := h
  exact lt_of_label? (address?_eq_some_iff.1 haddress)

theorem Settled.append {a : Assembler} (h : a.Settled) (bytes : List UInt8) :
    Settled { a with code := a.code ++ bytes } := by
  intro p hp
  obtain ⟨hinside, hfillable⟩ := h p hp
  refine ⟨?_, hfillable⟩
  rw [Bytes.size_append_list]
  omega

/-- The assembler behind a jump to itself. -/
def spun (a : Assembler) : Assembler where
  base := a.base
  code := a.code ++ ([0x4C, 0, 0] : List UInt8)
  labels := a.labels.push (some a.here)
  patches := a.patches.push ⟨a.code.size + 1, a.labels.size, .absolute⟩

theorem Settled.spun {a : Assembler} (h : a.Settled) : a.spun.Settled := by
  intro p hp
  have hsize : a.spun.code.size = a.code.size + 3 := Bytes.size_append_list ..
  rw [Assembler.spun, Array.toList_push, List.mem_append, List.mem_singleton] at hp
  rcases hp with hp | rfl
  · obtain ⟨hinside, hfillable⟩ := h p hp
    obtain ⟨target, bytes, haddress, hbytes⟩ := hfillable
    refine ⟨by omega, target, bytes, ?_, hbytes⟩
    -- the label is older than the new one
    have hlabel := lt_of_fillable ⟨target, bytes, haddress, hbytes⟩
    rw [address?_eq_some_iff] at haddress ⊢
    exact (label?_push hlabel).trans haddress
  · refine ⟨?_, a.here, _, ?_, rfl⟩
    · rw [hsize]
      exact Nat.le_refl _
    · rw [address?_eq_some_iff]
      exact Array.getElem?_push_size

/-- A step that leaves a settled assembler settled, or stops where the address
space ends. -/
def Steady (x : Asm Unit) : Prop :=
  ∀ a, a.Settled →
    (∃ a', x a = .ok () a' ∧ a'.Settled) ∨ ∃ stop a', x a = .error (.error (.overflow stop)) a'

theorem op_of_encode? {m : Cpu.Mnemonic} {o : Cpu.Operand} {bytes : List UInt8}
    (h : Cpu.encode? m o = some bytes) (a : Assembler) :
    op m o a = if 0x10000 < a.stopAfter bytes.length then
        .error (.error (.overflow (a.stopAfter bytes.length))) a
      else .ok () { a with code := a.code ++ bytes } := by
  unfold op
  rw [h]

theorem steady_op {m : Cpu.Mnemonic} {o : Cpu.Operand} {bytes : List UInt8}
    (h : Cpu.encode? m o = some bytes) : Steady (op m o) := by
  intro a ha
  rw [op_of_encode? h]
  split
  · exact .inr ⟨_, a, rfl⟩
  · exact .inl ⟨_, rfl, ha.append bytes⟩

theorem setIfInBounds_push {α : Type} (xs : Array α) (x y : α) :
    (xs.push x).setIfInBounds xs.size y = xs.push y := by
  refine Array.ext_getElem? fun i => ?_
  rw [Array.getElem?_setIfInBounds, Array.getElem?_push, Array.getElem?_push, Array.size_push]
  by_cases hi : xs.size = i
  · rw [if_pos hi, if_pos (Nat.lt_succ_self _), if_pos hi.symm]
  · rw [if_neg hi, if_neg (Ne.symm hi), if_neg (Ne.symm hi)]

/-- A jump to itself: its label is new and bound before it is used. -/
theorem spin_eq (a : Assembler) :
    (do let n ← freshLabel; bind n; jumpTo n : Asm Unit) a =
      jumpTo a.labels.size { a with labels := a.labels.push (some a.here) } := by
  have hfresh : label? { a with labels := a.labels.push none } a.labels.size = some none :=
    Array.getElem?_push_size
  have hbind : bind a.labels.size { a with labels := a.labels.push none } =
      .ok () { a with labels := a.labels.push (some a.here) } := by
    rw [bind_of_unbound hfresh, setIfInBounds_push]
    rfl
  show EStateM.bind (bind a.labels.size) _ { a with labels := a.labels.push none } = _
  rw [EStateM.bind, hbind]

theorem steady_spin :
    Steady (do let n ← freshLabel; bind n; jumpTo n) := by
  intro a ha
  have hencode : Cpu.encode? .jmp (.absolute 0) = some [0x4C, 0, 0] := rfl
  rw [spin_eq]
  by_cases hroom : 0x10000 < a.stopAfter 3
  · have hop := (op_of_encode? hencode { a with labels := a.labels.push (some a.here) }).trans
      (if_pos hroom)
    exact .inr ⟨_, _, bind_eq_error_iff.2 (.inl hop)⟩
  · have hop := (op_of_encode? hencode { a with labels := a.labels.push (some a.here) }).trans
      (if_neg hroom)
    refine .inl ⟨a.spun, bind_eq_ok_iff.2 ⟨(), _, hop, ?_⟩, ha.spun⟩
    rw [await, Bytes.size_append_list]
    rfl

/-- A settled assembler can be finished. -/
theorem Settled.exists_finish {a : Assembler} (h : a.Settled) :
    ∃ segment, a.finish = .ok segment := by
  rcases finish_cases fun p hp => (h p hp).1 with hsegment | ⟨p, hp, _, hunfilled, -⟩
  · exact hsegment
  · exact absurd (h p hp).2 hunfilled.not_fillable

end Assembler

/-- The reason to stop is the end of the address space. -/
def Overflows (s : Stop CodeError) : Prop := ∃ stop, s = .error (.assembly (.overflow stop))

namespace Draft

/-- A step that leaves a settled draft settled, or stops where the address space
ends. -/
def Steady {α : Type} (x : Step α) : Prop :=
  ∀ d, d.assembler.Settled →
    (∃ r d', x d = .ok r d' ∧ d'.assembler.Settled) ∨ ∃ s d', x d = .error s d' ∧ Overflows s

theorem Steady.ok {α : Type} {x : Step α} (h : Steady x) {d d' : Draft} (hd : d.assembler.Settled)
    {r : α} (hx : x d = .ok r d') : d'.assembler.Settled := by
  rcases h d hd with ⟨_, _, hok, hsettled⟩ | ⟨_, _, herror, -⟩
  · cases hx.symm.trans hok
    exact hsettled
  · cases hx.symm.trans herror

theorem Steady.error {α : Type} {x : Step α} (h : Steady x) {d d' : Draft}
    (hd : d.assembler.Settled) {s : Stop CodeError} (hx : x d = .error s d') : Overflows s := by
  rcases h d hd with ⟨_, _, hok, -⟩ | ⟨_, _, herror, hoverflows⟩
  · cases hx.symm.trans hok
  · cases hx.symm.trans herror
    exact hoverflows

theorem Steady.pure {α : Type} (r : α) : Steady (pure r) := by
  intro d hd
  exact .inl ⟨r, d, rfl, hd⟩

theorem Steady.bind {α β : Type} {x : Step α} {f : α → Step β} (hx : Steady x)
    (hf : ∀ r, Steady (f r)) : Steady (x >>= f) := by
  intro d hd
  rcases hx d hd with ⟨r, d₁, hfirst, hd₁⟩ | ⟨s, d₁, hfirst, hs⟩
  · rcases hf r d₁ hd₁ with ⟨r', d₂, hsecond, hd₂⟩ | ⟨s, d₂, hsecond, hs⟩
    · exact .inl ⟨r', d₂, bind_eq_ok_iff.2 ⟨r, d₁, hfirst, hsecond⟩, hd₂⟩
    · exact .inr ⟨s, d₂, bind_eq_error_iff.2 (.inr ⟨r, d₁, hfirst, hsecond⟩), hs⟩
  · exact .inr ⟨s, d₁, bind_eq_error_iff.2 (.inl hfirst), hs⟩

theorem steady_assembling {x : Asm Unit} (h : Assembler.Steady x) : Steady (assembling x) := by
  intro d hd
  unfold assembling
  rcases h d.assembler hd with ⟨a, ha, hsettled⟩ | ⟨stop, a, ha⟩
  · rw [ha]
    exact .inl ⟨(), _, rfl, hsettled⟩
  · rw [ha]
    exact .inr ⟨_, _, rfl, stop, rfl⟩

theorem steady_put {line : Line} (h : line.Sure) : Steady (put line) := by
  cases line with
  | op m o =>
      obtain ⟨bytes, hbytes⟩ := h
      exact steady_assembling (Assembler.steady_op hbytes)
  | spin => exact steady_assembling Assembler.steady_spin
  | _ => exact h.elim

theorem steady_putLines {lines : List Line} (h : ∀ line ∈ lines, line.Sure) :
    Steady (putLines lines) := by
  induction lines with
  | nil => exact .pure ()
  | cons line lines ih =>
      obtain ⟨hline, hlines⟩ := List.forall_mem_cons.1 h
      exact .bind (steady_put hline) fun _ => ih hlines

theorem steady_putInstrs {site : Site} {instrs : List Instr}
    (h : ∀ i ∈ instrs, i.Among site.Finds) : Steady (putInstrs site instrs) := by
  induction instrs with
  | nil => exact .pure ()
  | cons i instrs ih =>
      obtain ⟨hi, hinstrs⟩ := List.forall_mem_cons.1 h
      obtain ⟨lines, hselect, hsure⟩ := Site.exists_select hi
      have hsteady : Steady (do putLines lines; putInstrs site instrs) :=
        .bind (steady_putLines hsure) fun _ => ih hinstrs
      rw [putInstrs, hselect]
      exact hsteady

theorem steady_putBlocks {tree : BlockTree} {storage : Storage} {ids : List BlockId}
    (h : ∀ id ∈ ids, ∀ i ∈ (tree.instrs id).toList, i.Among (Site.mk tree storage id).Finds) :
    Steady (putBlocks tree storage ids) := by
  induction ids with
  | nil => exact .pure ()
  | cons id ids ih =>
      obtain ⟨hid, hids⟩ := List.forall_mem_cons.1 h
      exact .bind (steady_putInstrs hid) fun _ => ih hids

/-- A settled draft can be finished, so there is no reason why it could not. -/
theorem finish_failsWithin_of_settled {reason : Stop CodeError → Prop} {d : Draft}
    (h : d.assembler.Settled) : FailsWithin reason d.finish := by
  obtain ⟨segment, hsegment⟩ := h.exists_finish
  intro s hs
  cases (finish_eq_ok_iff.2 hsegment).symm.trans hs

end Draft

/-! ## Segments -/

namespace Generator

theorem sure_prologue : ∀ line ∈ prologue, line.Sure := by
  intro line hline
  simp only [prologue, List.mem_cons, List.not_mem_nil, or_false] at hline
  rcases hline with rfl | rfl | rfl | rfl <;> exact ⟨_, rfl⟩

variable {tree : BlockTree} {storage : Storage}

theorem steady_draftMain (h : ∀ id ∈ mainBlocks tree, ∀ i ∈ (tree.instrs id).toList,
    i.Among (Site.mk tree storage id).Finds) : Draft.Steady (draftMain tree storage) := by
  refine .bind (Draft.steady_putLines sure_prologue) fun _ => ?_
  refine .bind (Draft.steady_putBlocks h) fun _ => ?_
  refine .bind (Draft.steady_put (show Line.Sure .spin from trivial)) fun _ => ?_
  refine .bind ?_ fun handler => .bind (Draft.steady_put ⟨_, rfl⟩) fun _ => .pure handler
  intro d hd
  exact .inl ⟨_, d, rfl, hd⟩

/-- The main segment overflows, or it is there. -/
theorem mainSegment_overflows (h : ∀ id ∈ mainBlocks tree, ∀ i ∈ (tree.instrs id).toList,
    i.Among (Site.mk tree storage id).Finds) (base : UInt16) :
    FailsWithin Overflows (mainSegment tree storage base) := by
  have hsteady := steady_draftMain h
  have hstart := Assembler.settled_empty base
  refine mainSegment_failsWithin_of (fun s d hd => hsteady.error hstart hd) fun handler d hd => ?_
  exact Draft.finish_failsWithin_of_settled (hsteady.ok hstart hd)

/-- The startup segment overflows, or it is there. -/
theorem startupSegment_overflows (h : ∀ id ∈ startupBlocks tree, ∀ i ∈ (tree.instrs id).toList,
    i.Among (Site.mk tree storage id).Finds) :
    FailsWithin Overflows (startupSegment tree storage) := by
  have hsteady := Draft.steady_putBlocks h
  have hstart := Assembler.settled_empty 0
  refine startupSegment_failsWithin_of (fun s d hd => hsteady.error hstart hd) fun d hd => ?_
  exact Draft.finish_failsWithin_of_settled (hsteady.ok hstart hd)

end Generator

/-! ## Trees -/

namespace BlockTree

/-- The name is declared in the block or around it. -/
def Visible (t : BlockTree) (id : BlockId) (name : String) : Prop :=
  ∃ outer, t.Encloses outer id ∧ t.Declares outer name

/-- The code of a tree only stores, between names that are visible where it
stands. -/
def Storing (t : BlockTree) : Prop :=
  ∀ id < t.blocks.size, ∀ i ∈ (t.instrs id).toList, i.Among (t.Visible id)

theorem Declares.lt_size {t : BlockTree} {id : BlockId} {name : String} (h : t.Declares id name) :
    id < t.blocks.size := by
  obtain ⟨symbol, hsymbol⟩ := declares_iff.1 h
  obtain ⟨block, hblock, -⟩ := Option.bind_eq_some_iff.1 hsymbol
  exact (Array.getElem?_eq_some_iff.1 hblock).1

theorem Nearest.declares {t : BlockTree} {name : String} {id owner : BlockId}
    (h : t.Nearest name id owner) : t.Declares owner name := by
  induction h with
  | here hdecl => exact hdecl
  | outer _ _ _ ih => exact ih

/-- Once all symbols have an address, every declaration that a name leads to has
one. -/
theorem WellFormed.exists_find? {t : BlockTree} (hw : t.WellFormed) {storage : Storage}
    (hholds : ∀ id ∈ t.preorder, ∀ symbol ∈ t.symbols id, storage.Holds id symbol)
    {id owner : BlockId} {name : String} (hnearest : t.Nearest name id owner) :
    ∃ a, storage.find? owner name = some a := by
  have howner : owner ∈ t.preorder := by
    rw [hw.preorder_eq_range, List.mem_range]
    exact hnearest.declares.lt_size
  obtain ⟨symbol, hsymbol, rfl⟩ := hnearest.declares
  exact (hholds owner howner symbol hsymbol).2

/-- Once all symbols have an address, so has every name that is visible. -/
theorem WellFormed.finds {t : BlockTree} (hw : t.WellFormed) {storage : Storage}
    (hholds : ∀ id ∈ t.preorder, ∀ symbol ∈ t.symbols id, storage.Holds id symbol) {id : Nat}
    (hid : id < t.blocks.size) {name : String} (hvisible : t.Visible id name) :
    (Site.mk t storage id).Finds name := by
  obtain ⟨outer, hencloses, hdeclares⟩ := hvisible
  rcases hw.resolve_cases hid name with ⟨owner, symbol, hresolve, hnearest⟩ | ⟨-, hnone⟩
  · obtain ⟨a, ha⟩ := hw.exists_find? hholds hnearest
    refine ⟨a, ?_⟩
    simp only [Site.address, hresolve]
    exact orFault_eq_ok_iff.2 ha
  · exact absurd hdeclares (hnone outer hencloses)

end BlockTree

/-! ## Object code -/

/-- The program does not fit into the address space, or its variables do not fit
into theirs. -/
inductive CodeError.Unfit : CodeError → Prop where
  | overflow (stop : Nat) : Unfit (.assembly (.overflow stop))
  | exhausted (name : String) : Unfit (.storage (.exhausted name))
  | type (name : String) (error : TypeError) : Unfit (.storage (.type name error))

/-- The size of every symbol can be computed: in no type the number of bytes of an
array outgrows the numbers. -/
def BlockTree.Measurable (tree : BlockTree) : Prop :=
  ∀ entry ∈ tree.roster tree.preorder, ¬ entry.2.ty.Overflows

/-- How a step on a tree may stop: with an error of the given kind, or because the
size of a symbol cannot be computed. -/
inductive BlockTree.Ends {ε : Type} (tree : BlockTree) (kind : ε → Prop) : Stop ε → Prop where
  | error {e : ε} (h : kind e) : Ends tree kind (.error e)
  | overflow (h : ¬ tree.Measurable) : Ends tree kind (.fault .overflow)

theorem FailsWithin.unfit {α : Type} {x : Except (Stop CodeError) α}
    (h : FailsWithin Overflows x) (tree : BlockTree) :
    FailsWithin (tree.Ends CodeError.Unfit) x := by
  intro s hs
  obtain ⟨stop, rfl⟩ := h s hs
  exact .error (.overflow stop)

/-- Code generation stops for a reason of the storage, or for one of a segment, once
every symbol has an address. -/
theorem Generator.objectCode_stopsWithin_of {tree : BlockTree} {base : UInt16}
    {reason : Stop CodeError → Prop} (hstorage : ∀ e, reason (.error (.storage e)))
    (hsize : ¬ tree.Measurable → reason (.fault .overflow))
    (hsegments : ∀ storage : Storage,
      (∀ id ∈ tree.preorder, ∀ symbol ∈ tree.symbols id, storage.Holds id symbol) →
      FailsWithin reason (mainSegment tree storage base) ∧
        FailsWithin reason (startupSegment tree storage)) :
    StopsWithin reason (objectCode tree base) := by
  intro g s g' h
  rcases bind_eq_error_iff.1 h with hfirst | ⟨_, g₁, hallocate, hcode⟩
  · rcases allocateBlocks_mirrors tree tree.preorder g with
      ⟨_, _, -, hok⟩ | ⟨e, _, _, hall, herror⟩
    · rw [hok] at hfirst
      cases hfirst
    · rw [herror] at hfirst
      cases hfirst
      cases e with
      | error e => exact hstorage e
      | fault f =>
          obtain ⟨rfl, entry, hentry, hoverflows⟩ := Storage.overflows_of_allocateAll hall
          exact hsize fun hsizes => hsizes entry hentry hoverflows
  · obtain ⟨hmain, hstartup⟩ := hsegments g₁.storage (holds_of_allocateBlocks hallocate).1
    rcases bind_eq_error_iff.1 hcode with hread | ⟨storage, g₂, hread, hcode⟩
    · cases hread
    · cases hread
      refine StopsWithin.bind (need_stopsWithin hmain) (fun _ => ?_) _ _ _ hcode
      refine .bind (fun _ _ _ hnote => by cases hnote) fun _ => ?_
      refine .bind (need_stopsWithin hstartup) fun _ => ?_
      exact .bind (fun _ _ _ hnote => by cases hnote) fun _ => .pure _

/-- The code of a storing tree is missing only where the program does not fit, or
the size of a symbol cannot be computed. -/
theorem Generator.objectCode_stopsWithin {tree : BlockTree} (hw : tree.WellFormed)
    (hstoring : tree.Storing) (base : UInt16) :
    StopsWithin (tree.Ends CodeError.Unfit) (objectCode tree base) := by
  refine objectCode_stopsWithin_of (fun e => .error ?_) .overflow fun storage hholds => ?_
  · cases e with
    | exhausted name => exact .exhausted name
    | type name error => exact .type name error
  · -- every block of the tree finds its names in the storage that is handed out
    have hfinds : ∀ id ∈ tree.preorder, ∀ i ∈ (tree.instrs id).toList,
        i.Among (Site.mk tree storage id).Finds := by
      intro id hid i hi
      rw [hw.preorder_eq_range, List.mem_range] at hid
      exact (hstoring id hid i hi).mono fun name hvisible => hw.finds hholds hid hvisible
    have hmain := mainSegment_overflows (fun id hid => hfinds id (List.mem_filter.1 hid).1) base
    have hstartup := startupSegment_overflows fun id hid => hfinds id (List.mem_filter.1 hid).1
    exact ⟨hmain.unfit tree, hstartup.unfit tree⟩

end Cartridge
