/-
# `Cartridge.Proofs.Assembly.Orders` — what a row of orders leaves in the assembler

An order is one request to the assembler, and a routine is a row of them.  The
labels are numbers in the order in which they are handed out.  Of an order only
this is told:

    base, size    how much code it appends
    bound         which label it gives an address, namely that of its place
    awaits        which operand it leaves to be filled in, and for which label
    lines         what it is in the two passes of `Draft`

A branch looks its label up and a jump does not, so a jump may name a label that
was never handed out.

Proved here: a row of orders does what its orders do, each at its place
(`ran_of_runAll`), so filling in operands fails at an operand whose label has no
address or is out of reach, and never otherwise (`finish_cases`).  For a label that
was never handed out it does so with a fault.
-/
import Cartridge.Proofs.ObjectCode.Layout

namespace Cartridge

/-- A request to the assembler. -/
inductive Order where
  | op (m : Cpu.Mnemonic) (o : Cpu.Operand)
  /-- A branch to an address. -/
  | branchAt (m : Cpu.Mnemonic) (target : UInt16)
  | freshLabel
  | bind (l : Nat)
  | branchTo (m : Cpu.Mnemonic) (l : Nat)
  | jumpTo (l : Nat)
deriving DecidableEq, Inhabited, Repr

namespace Order

/-- Carry out an order. -/
def run : Order → Asm Unit
  | .op m o => Assembler.op m o
  | .branchAt m target => Assembler.branchAt m target
  | .freshLabel => do
      let _ ← Assembler.freshLabel
      pure ()
  | .bind l => Assembler.bind l
  | .branchTo m l => Assembler.branchTo m l
  | .jumpTo l => Assembler.jumpTo l

/-- Carry out orders one after the other. -/
def runAll : List Order → Asm Unit
  | [] => pure ()
  | order :: orders => do
      order.run
      runAll orders

/-- The number of bytes that an order appends. -/
def size : Order → Nat
  | .op _ o => 1 + o.bytes.length
  | .branchAt _ _ | .branchTo _ _ => 2
  | .freshLabel | .bind _ => 0
  | .jumpTo _ => 3

/-- The number of bytes that orders append. -/
def sizeAll : List Order → Nat
  | [] => 0
  | order :: orders => order.size + sizeAll orders

/-- The label that an order refers to. -/
def target? : Order → Option Nat
  | .branchTo _ l | .jumpTo l => some l
  | _ => none

/-- The offsets of the operands of jumps to labels, for code from `offset` on. -/
def jumpOperands (offset : Nat) : List Order → List Nat
  | [] => []
  | .jumpTo _ :: orders => (offset + 1) :: jumpOperands (offset + 3) orders
  | order :: orders => jumpOperands (offset + order.size) orders

/-- The code of `order` starts at `offset` in that of the orders. -/
def At (orders : List Order) (offset : Nat) (order : Order) : Prop :=
  ∃ pre post, orders = pre ++ order :: post ∧ offset = sizeAll pre

theorem at_nil {offset : Nat} {order : Order} : ¬ At [] offset order := by
  rintro ⟨pre, post, h, -⟩
  exact List.append_ne_nil_of_right_ne_nil pre (List.cons_ne_nil order post) h.symm

theorem at_cons {order order' : Order} {orders : List Order} {offset : Nat} :
    At (order :: orders) offset order' ↔
      order' = order ∧ offset = 0 ∨ ∃ k, At orders k order' ∧ offset = order.size + k := by
  constructor
  · rintro ⟨pre, post, h, rfl⟩
    cases pre with
    | nil => exact .inl ⟨(List.cons.inj h).1.symm, rfl⟩
    | cons first pre =>
        obtain ⟨rfl, rfl⟩ := List.cons.inj h
        exact .inr ⟨sizeAll pre, ⟨pre, post, rfl, rfl⟩, rfl⟩
  · rintro (⟨rfl, rfl⟩ | ⟨k, ⟨pre, post, rfl, rfl⟩, rfl⟩)
    · exact ⟨[], orders, rfl, rfl⟩
    · exact ⟨order :: pre, post, rfl, rfl⟩

theorem At.mem {orders : List Order} {offset : Nat} {order : Order} (h : At orders offset order) :
    order ∈ orders := by
  obtain ⟨pre, post, rfl, -⟩ := h
  exact List.mem_append_right _ List.mem_cons_self

/-- The code of an order lies inside that of all orders. -/
theorem At.le {orders : List Order} {offset : Nat} {order : Order} (h : At orders offset order) :
    offset + order.size ≤ sizeAll orders := by
  induction orders generalizing offset with
  | nil => exact absurd h at_nil
  | cons first orders ih =>
      rw [sizeAll]
      rcases at_cons.1 h with ⟨rfl, rfl⟩ | ⟨k, hk, rfl⟩
      · omega
      · have := ih hk
        omega

end Order

namespace Assembler

/-- The address of a label, once it is bound. -/
def address? (a : Assembler) (l : Nat) : Option UInt16 := (a.label? l).join

theorem address?_eq_some_iff {a : Assembler} {l : Nat} {x : UInt16} :
    a.address? l = some x ↔ a.label? l = some (some x) :=
  Option.join_eq_some_iff

theorem lt_of_branchTo {m : Cpu.Mnemonic} {l : Nat} {a a' : Assembler}
    (h : branchTo m l a = .ok () a') : l < a.labels.size := by
  unfold branchTo at h
  split at h
  · cases h
  · next hl => exact lt_of_label? hl
  · next hl => exact lt_of_label? hl

theorem branchAt_eq_ok {m : Cpu.Mnemonic} {target : UInt16} {a a' : Assembler}
    (h : branchAt m target a = .ok () a') :
    ∃ d, displacement a.here target = .ok d ∧ op m (.relative d) a = .ok () a' := by
  unfold branchAt at h
  split at h
  · cases h
  · next d hd => exact ⟨d, hd, h⟩

theorem freshLabel_eq_ok {a a' : Assembler} (h : Order.freshLabel.run a = .ok () a') :
    a' = { a with labels := a.labels.push none } := by
  cases h
  rfl

end Assembler

namespace Order

/-! ## One order -/

/-- The operand that an order leaves to be filled in, if its code starts at
`offset`. -/
def Awaits (offset : Nat) : Order → Patch → Prop
  | .branchTo _ l, p => p = ⟨offset + 1, l, .relative⟩
  | .jumpTo l, p => p = ⟨offset + 1, l, .absolute⟩
  | _, _ => False

/-- What carrying out orders does to the assembler. -/
structure Ran (orders : List Order) (a a' : Assembler) : Prop where
  base : a'.base = a.base
  size : a'.code.size = a.code.size + sizeAll orders
  handed : a.labels.size ≤ a'.labels.size
  bound : ∀ l x, a'.address? l = some x ↔ a.address? l = some x ∨
    ∃ offset, At orders offset (.bind l) ∧ x = a.here + UInt16.ofNat offset
  awaits : ∃ ps, a'.patches.toList = a.patches.toList ++ ps ∧
    (ps.filter fun p => p.kind == .absolute).map Patch.offset =
      jumpOperands a.code.size orders ∧
    ∀ p ∈ ps, ∃ offset order, At orders offset order ∧ order.Awaits (a.code.size + offset) p

theorem Ran.here {orders : List Order} {a a' : Assembler} (h : Ran orders a a') :
    a'.here = a.here + UInt16.ofNat (sizeAll orders) := by
  rw [Assembler.here_eq, Assembler.here_eq, h.base, h.size, add_ofNat_add_ofNat]

theorem at_singleton {order order' : Order} {offset : Nat} :
    At [order] offset order' ↔ order' = order ∧ offset = 0 := by
  rw [at_cons]
  refine ⟨fun h => h.elim id ?_, .inl⟩
  rintro ⟨k, hk, -⟩
  exact absurd hk at_nil

theorem not_at_bind {order : Order} (h : ∀ l, order ≠ .bind l) {offset l : Nat} :
    ¬ At [order] offset (.bind l) :=
  fun hat => h l (at_singleton.1 hat).1.symm

/-- An order that appends code binds no label. -/
theorem ran_appended {order : Order} {a a' : Assembler} (bytes : List UInt8) (ps : List Patch)
    (hbind : ∀ l, order ≠ .bind l) (hsize : bytes.length = order.size)
    (hjumps : (ps.filter fun p => p.kind == .absolute).map Patch.offset =
      jumpOperands a.code.size [order])
    (hps : ∀ p ∈ ps, order.Awaits a.code.size p)
    (ha' : a' = { a with code := a.code ++ bytes, patches := a.patches ++ ps }) :
    Ran [order] a a' := by
  subst ha'
  refine ⟨rfl, ?_, Nat.le_refl _, fun l x => ?_, ps, by simp, hjumps, fun p hp => ?_⟩
  · rw [Bytes.size_append_list, hsize]
    rfl
  · refine ⟨.inl, fun h => h.elim id ?_⟩
    rintro ⟨offset, hat, -⟩
    exact absurd hat (not_at_bind hbind)
  · exact ⟨0, order, at_singleton.2 ⟨rfl, rfl⟩, hps p hp⟩

theorem ran_op {m : Cpu.Mnemonic} {o : Cpu.Operand} {a a' : Assembler}
    (h : Assembler.op m o a = .ok () a') {order : Order} (hbind : ∀ l, order ≠ .bind l)
    (hsize : 1 + o.bytes.length = order.size) (hjumps : jumpOperands a.code.size [order] = []) :
    Ran [order] a a' := by
  obtain ⟨bytes, hbytes, -, ha'⟩ := Assembler.op_eq_ok h
  have hlength := Line.length_of_instruction hbytes
  exact ran_appended bytes [] hbind (hlength.trans hsize) hjumps.symm (List.forall_mem_nil _)
    (by simpa using ha')

theorem ran_freshLabel (a : Assembler) :
    Ran [.freshLabel] a { a with labels := a.labels.push none } := by
  refine ⟨rfl, rfl, by simp, fun l x => ?_, [], by simp, rfl, List.forall_mem_nil _⟩
  have hlabel : Assembler.address? { a with labels := a.labels.push none } l = a.address? l := by
    simp only [Assembler.address?, Assembler.label?, Array.getElem?_push]
    split
    · next hl =>
        rw [hl, Array.getElem?_eq_none (Nat.le_refl _)]
        rfl
    · rfl
  rw [hlabel]
  refine ⟨.inl, fun h => h.elim id ?_⟩
  rintro ⟨offset, hat, -⟩
  exact absurd hat (not_at_bind fun _ => Order.noConfusion)

theorem ran_bind {l : Nat} {a : Assembler} (hnone : a.label? l = some none) :
    Ran [.bind l] a { a with labels := a.labels.setIfInBounds l (some a.here) } := by
  refine ⟨rfl, rfl, by simp, fun k x => ?_, [], by simp, rfl, List.forall_mem_nil _⟩
  simp only [Assembler.address?_eq_some_iff, at_singleton, Assembler.label?,
    Array.getElem?_setIfInBounds, Order.bind.injEq]
  by_cases hk : l = k
  · subst hk
    have hlt := Assembler.lt_of_label? hnone
    have hold : a.labels[l]? ≠ some (some x) := by
      intro hx
      cases hnone.symm.trans hx
    rw [if_pos rfl, if_pos hlt]
    constructor
    · rintro ⟨⟩
      exact .inr ⟨0, ⟨rfl, rfl⟩, (add_ofNat_zero _).symm⟩
    · rintro (hx | ⟨offset, ⟨-, rfl⟩, rfl⟩)
      · exact absurd hx hold
      · rw [add_ofNat_zero]
  · rw [if_neg hk]
    refine ⟨.inl, fun h => h.elim id ?_⟩
    rintro ⟨offset, ⟨rfl, -⟩, -⟩
    exact absurd rfl hk

/-- What one order does. -/
theorem ran_of_run {order : Order} {a a' : Assembler} (h : order.run a = .ok () a') :
    Ran [order] a a' := by
  cases order with
  | op m o => exact ran_op h (fun _ => Order.noConfusion) rfl rfl
  | branchAt m target =>
      obtain ⟨d, -, hop⟩ := Assembler.branchAt_eq_ok h
      exact ran_op hop (fun _ => Order.noConfusion) rfl rfl
  | freshLabel =>
      obtain rfl := Assembler.freshLabel_eq_ok h
      exact ran_freshLabel a
  | bind l =>
      obtain ⟨hnone, rfl⟩ := Assembler.bind_eq_ok h
      exact ran_bind hnone
  | branchTo m l =>
      rcases Assembler.branchTo_eq_ok h with
        ⟨target, d, bytes, -, -, hbytes, -, ha'⟩ | ⟨opcode, -, -, ha'⟩
      · exact ran_appended bytes [] (fun _ => Order.noConfusion)
          (Line.length_of_instruction hbytes) rfl
          (List.forall_mem_nil _) (by simpa using ha')
      · exact ran_appended [opcode, 0] [⟨a.code.size + 1, l, .relative⟩]
          (fun _ => Order.noConfusion) rfl rfl (List.forall_mem_singleton.2 rfl)
          (by simpa using ha')
  | jumpTo l =>
      obtain ⟨-, ha'⟩ := Assembler.jumpTo_eq_ok h
      exact ran_appended [0x4C, 0, 0] [⟨a.code.size + 1, l, .absolute⟩]
        (fun _ => Order.noConfusion) rfl rfl (List.forall_mem_singleton.2 rfl)
        (by simpa using ha')

/-! ## All orders -/

theorem jumpOperands_cons (offset : Nat) (order : Order) (orders : List Order) :
    jumpOperands offset (order :: orders) =
      jumpOperands offset [order] ++ jumpOperands (offset + order.size) orders := by
  cases order <;> rfl

/-- One order and the orders behind it. -/
theorem Ran.cons {order : Order} {orders : List Order} {a b c : Assembler} (h : Ran [order] a b)
    (h' : Ran orders b c) : Ran (order :: orders) a c := by
  have hsize : b.code.size = a.code.size + order.size := h.size
  have hhere : b.here = a.here + UInt16.ofNat order.size := h.here
  refine ⟨h'.base.trans h.base, ?_, Nat.le_trans h.handed h'.handed, fun l x => ?_, ?_⟩
  · rw [h'.size, hsize, sizeAll, Nat.add_assoc]
  · rw [h'.bound, h.bound, or_assoc]
    refine or_congr_right ?_
    simp only [at_singleton]
    simp only [at_cons, hhere, add_ofNat_add_ofNat]
    constructor
    · rintro (⟨offset, hat, rfl⟩ | ⟨k, hat, rfl⟩)
      · exact ⟨offset, .inl hat, rfl⟩
      · exact ⟨order.size + k, .inr ⟨k, hat, rfl⟩, rfl⟩
    · rintro ⟨offset, hat | ⟨k, hat, rfl⟩, rfl⟩
      · exact .inl ⟨offset, hat, rfl⟩
      · exact .inr ⟨k, hat, rfl⟩
  · obtain ⟨ps, hps, hjumps, hawaits⟩ := h.awaits
    obtain ⟨ps', hps', hjumps', hawaits'⟩ := h'.awaits
    refine ⟨ps ++ ps', by rw [hps', hps, List.append_assoc], ?_, fun p hp => ?_⟩
    · rw [List.filter_append, List.map_append, hjumps, hjumps', hsize, ← jumpOperands_cons]
    · rcases List.mem_append.1 hp with hp | hp
      · obtain ⟨offset, order', hat, hawait⟩ := hawaits p hp
        exact ⟨offset, order', at_cons.2 (.inl (at_singleton.1 hat)), hawait⟩
      · obtain ⟨k, order', hat, hawait⟩ := hawaits' p hp
        refine ⟨order.size + k, order', at_cons.2 (.inr ⟨k, hat, rfl⟩), ?_⟩
        rwa [hsize, Nat.add_assoc] at hawait

theorem ran_nil (a : Assembler) : Ran [] a a := by
  refine ⟨rfl, rfl, Nat.le_refl _, fun l x => ?_, [], by simp, rfl, List.forall_mem_nil _⟩
  refine ⟨.inl, fun h => h.elim id ?_⟩
  rintro ⟨offset, hat, -⟩
  exact absurd hat at_nil

/-- What a row of orders does. -/
theorem ran_of_runAll {orders : List Order} {a a' : Assembler}
    (h : runAll orders a = .ok () a') : Ran orders a a' := by
  induction orders generalizing a with
  | nil =>
      obtain ⟨-, rfl⟩ := pure_eq_ok_iff.1 h
      exact ran_nil a
  | cons order orders ih =>
      obtain ⟨_, b, hrun, hrest⟩ := bind_eq_ok_iff.1 h
      exact (ran_of_run hrun).cons (ih hrest)

/-- The label of a branch was handed out. -/
theorem lt_of_branchTo_mem {orders : List Order} {a a' : Assembler}
    (h : runAll orders a = .ok () a') {m : Cpu.Mnemonic} {l : Nat}
    (hmem : .branchTo m l ∈ orders) : l < a'.labels.size := by
  induction orders generalizing a with
  | nil => cases hmem
  | cons order orders ih =>
      obtain ⟨_, b, hrun, hrest⟩ := bind_eq_ok_iff.1 h
      rcases List.mem_cons.1 hmem with rfl | hmem
      · have hran := (ran_of_run hrun).cons (ran_of_runAll hrest)
        exact Nat.lt_of_lt_of_le (Assembler.lt_of_branchTo hrun) hran.handed
      · exact ih hrest hmem

/-! ## Orders as lines -/

/-- What an order at `here` is in the two passes of a draft. -/
inductive Lines (here : UInt16) : Order → List Line → Prop where
  | op {m : Cpu.Mnemonic} {o : Cpu.Operand} : Lines here (.op m o) [.op m o]
  | branchAt {m : Cpu.Mnemonic} {target : UInt16} {d : UInt8}
      (h : displacement here target = .ok d) :
      Lines here (.branchAt m target) [.op m (.relative d)]
  | freshLabel : Lines here .freshLabel []
  | bind {l : Nat} : Lines here (.bind l) [.mark l]
  | branchTo {m : Cpu.Mnemonic} {l : Nat} : Lines here (.branchTo m l) [.branch m l]
  | jumpTo {l : Nat} : Lines here (.jumpTo l) [.jump l]

/-- What orders from `here` on are in the two passes of a draft. -/
inductive LinesAll : UInt16 → List Order → List Line → Prop where
  | nil {here : UInt16} : LinesAll here [] []
  | cons {here : UInt16} {order : Order} {orders : List Order} {lines lines' : List Line}
      (h : Lines here order lines)
      (h' : LinesAll (here + UInt16.ofNat order.size) orders lines') :
      LinesAll here (order :: orders) (lines ++ lines')

theorem Lines.sizeAll_eq {here : UInt16} {order : Order} {lines : List Line}
    (h : Lines here order lines) : Line.sizeAll lines = order.size := by
  cases h <;> rfl

end Order

namespace Assembler

/-- Every label below `n` stands for itself. -/
def ownMarks : Nat → List (LabelId × Nat)
  | 0 => []
  | n + 1 => (n, n) :: ownMarks n

/-- An assembler as a draft whose labels below `n` are its own, handed out or not. -/
def draft (n : Nat) (a : Assembler) : Draft where
  assembler := a
  marks := ownMarks n

theorem lookup_ownMarks (n l : Nat) :
    (ownMarks n).lookup l = if l < n then some l else none := by
  induction n with
  | zero => rfl
  | succ n ih =>
      rw [ownMarks, List.lookup_cons, ih]
      by_cases hl : l = n
      · subst hl
        rw [beq_self_eq_true, if_pos (Nat.lt_succ_self l)]
      · rw [beq_eq_false_iff_ne.2 hl]
        simp only [show l < n + 1 ↔ l < n by omega]

theorem lookup_draft {n l : Nat} (h : l < n) (a : Assembler) :
    (a.draft n).marks.lookup l = some l := by
  rw [draft, lookup_ownMarks, if_pos h]

theorem address?_draft {n : Nat} {a : Assembler} (h : a.labels.size ≤ n) :
    (a.draft n).address? = a.address? := by
  funext l
  rw [Draft.address?, draft, lookup_ownMarks]
  split
  · rfl
  · next hl =>
      rw [address?, label?, Array.getElem?_eq_none (Nat.le_trans h (Nat.le_of_not_lt hl))]
      rfl

end Assembler

namespace Order

open Draft

/-- The labels that an order refers to are below `n`. -/
def Below (n : Nat) (order : Order) : Prop := ∀ l, order.target? = some l → l < n

theorem exists_below (orders : List Order) (k : Nat) :
    ∃ n, k ≤ n ∧ ∀ order ∈ orders, order.Below n := by
  induction orders with
  | nil => exact ⟨k, Nat.le_refl k, List.forall_mem_nil _⟩
  | cons order orders ih =>
      obtain ⟨n, hk, hn⟩ := ih
      refine ⟨max n (order.target?.getD 0 + 1), Nat.le_trans hk (Nat.le_max_left ..),
        List.forall_mem_cons.2 ⟨fun l hl => ?_, fun other hother l hl => ?_⟩⟩
      · rw [hl]
        exact Nat.le_max_right ..
      · exact Nat.lt_of_lt_of_le (hn other hother l hl) (Nat.le_max_left ..)

variable {n : Nat} {a a' : Assembler}

theorem emits_op {m : Cpu.Mnemonic} {o : Cpu.Operand} (h : Assembler.op m o a = .ok () a') :
    Emits [.op m o] (a.draft n) (a'.draft n) := by
  refine put_emits ?_
  rw [put, assembling, Assembler.draft]
  dsimp only
  rw [h]
  rfl

/-- An order is its lines. -/
theorem emits_of_run {order : Order} (h : order.run a = .ok () a') (hlabels : a.labels.size ≤ n)
    (hbelow : order.Below n) :
    ∃ lines, Lines a.here order lines ∧ Emits lines (a.draft n) (a'.draft n) := by
  cases order with
  | op m o => exact ⟨_, .op, emits_op h⟩
  | branchAt m target =>
      obtain ⟨d, hd, hop⟩ := Assembler.branchAt_eq_ok h
      exact ⟨_, .branchAt hd, emits_op hop⟩
  | freshLabel =>
      obtain rfl := Assembler.freshLabel_eq_ok h
      exact ⟨_, .freshLabel, .fresh (a.draft n) none⟩
  | bind l =>
      obtain ⟨hnone, rfl⟩ := Assembler.bind_eq_ok h
      have hl := Nat.lt_of_lt_of_le (Assembler.lt_of_label? hnone) hlabels
      exact ⟨_, .bind, .bound (a.lookup_draft hl) hnone⟩
  | branchTo m l => exact ⟨_, .branchTo, .branched h (a.lookup_draft (hbelow l rfl))⟩
  | jumpTo l =>
      have hl := a.lookup_draft (hbelow l rfl)
      refine ⟨_, .jumpTo, .jumped h (by simp) rfl fun final target hfinal htarget => ?_⟩
      rw [Line.encode?, address?_eq_some_iff.2 ⟨l, hfinal.marks l l hl, htarget⟩]
      rfl

/-- Orders are their lines. -/
theorem emits_of_runAll {orders : List Order} (h : runAll orders a = .ok () a')
    (hlabels : a'.labels.size ≤ n) (hbelow : ∀ order ∈ orders, order.Below n) :
    ∃ lines, LinesAll a.here orders lines ∧ Emits lines (a.draft n) (a'.draft n) := by
  induction orders generalizing a with
  | nil =>
      obtain ⟨-, rfl⟩ := pure_eq_ok_iff.1 h
      exact ⟨[], .nil, .refl _⟩
  | cons order orders ih =>
      obtain ⟨hfirst, hothers⟩ := List.forall_mem_cons.1 hbelow
      obtain ⟨_, b, hrun, hrest⟩ := bind_eq_ok_iff.1 h
      have hran := (ran_of_run hrun).cons (ran_of_runAll hrest)
      obtain ⟨lines, hlines, hemits⟩ :=
        emits_of_run hrun (Nat.le_trans hran.handed hlabels) hfirst
      obtain ⟨lines', hlines', hemits'⟩ := ih hrest hothers
      rw [(ran_of_run hrun).here] at hlines'
      exact ⟨lines ++ lines', .cons hlines hlines', hemits.append hemits'⟩

/-- A finished row of orders holds the bytes of the second pass, where a label has
the address of its mark. -/
theorem encoded_of_runAll {base : UInt16} {orders : List Order}
    (h : runAll orders { base := base } = .ok () a) {segment : Segment}
    (hfinish : a.finish = .ok segment) :
    ∃ lines, LinesAll base orders lines ∧
      Line.encodeAll? a.address? base lines = some segment.bytes.toList ∧
      ∀ pre l post, lines = pre ++ .mark l :: post →
        a.address? l = some (base + UInt16.ofNat (Line.sizeAll pre)) := by
  obtain ⟨n, hlabels, hbelow⟩ := exists_below orders a.labels.size
  obtain ⟨lines, hlines, hemits⟩ := emits_of_runAll h hlabels hbelow
  obtain ⟨code, hcode, rfl⟩ := Assembler.finish_eq_ok_iff.1 hfinish
  have hbytes := hemits.bytes rfl rfl hcode
  have hmarked := hemits.marked
  rw [Assembler.address?_draft hlabels] at hbytes hmarked
  have hhere : ((Assembler.draft n { base := base }).assembler).here = base :=
    Assembler.here_empty base
  rw [hhere] at hbytes hmarked
  rw [Assembler.here_empty] at hlines
  exact ⟨lines, hlines, hbytes, hmarked⟩

end Order

/-! ## Filling in -/

/-- The number of bytes of an operand that waits for its label. -/
def PatchKind.width : PatchKind → Nat
  | .relative => 1
  | .absolute => 2

namespace Assembler

/-- The operand of a patch has a value. -/
def Fillable (a : Assembler) (p : Patch) : Prop :=
  ∃ target bytes, a.address? p.label = some target ∧ a.patchBytes p target = .ok bytes

theorem length_patchBytes {a : Assembler} {p : Patch} {target : UInt16} {bytes : List UInt8}
    (h : a.patchBytes p target = .ok bytes) : bytes.length = p.kind.width := by
  unfold patchBytes at h
  split at h
  · next hkind =>
      obtain ⟨d, -, rfl⟩ := except_map_eq_ok_iff.1 h
      rw [hkind]
      rfl
  · next hkind =>
      cases h
      rw [hkind]
      rfl

/-- Why an operand is not filled in: it has no value, or its label is none of the
assembler. -/
inductive Unfilled (a : Assembler) (p : Patch) : Stop AsmError → Prop where
  | error {e : AsmError} (h : ¬ a.Fillable p) : Unfilled a p (.error e)
  | unknown (h : a.labels.size ≤ p.label) : Unfilled a p (.fault .outOfRange)

theorem Unfilled.not_fillable {a : Assembler} {p : Patch} {s : Stop AsmError}
    (h : a.Unfilled p s) : ¬ a.Fillable p := by
  cases h with
  | error hnot => exact hnot
  | unknown hle =>
      rintro ⟨target, bytes, haddress, -⟩
      exact Nat.not_lt_of_le hle (lt_of_label? (address?_eq_some_iff.1 haddress))

/-- A patch fails if its operand has no value. -/
theorem applyPatch_cases {a : Assembler} {p : Patch} {code : Bytes}
    (hfits : p.offset + p.kind.width ≤ code.size) :
    (∃ out, a.applyPatch p code = .ok out ∧ out.size = code.size) ∨
      ∃ s, a.Unfilled p s ∧ a.applyPatch p code = .error s := by
  unfold applyPatch
  cases hentry : a.label? p.label with
  | none => exact .inr ⟨_, .unknown (Array.getElem?_eq_none_iff.1 hentry), rfl⟩
  | some address =>
      cases address with
      | none =>
          refine .inr ⟨_, .error ?_, rfl⟩
          rintro ⟨target, bytes, haddress, -⟩
          rw [address?_eq_some_iff, hentry] at haddress
          cases haddress
      | some target =>
          have haddress : a.address? p.label = some target := address?_eq_some_iff.2 hentry
          dsimp only
          cases hbytes : a.patchBytes p target with
          | error e =>
              refine .inr ⟨_, .error ?_, rfl⟩
              rintro ⟨target', bytes, haddress', hbytes'⟩
              obtain rfl := Option.some.inj (haddress.symm.trans haddress')
              cases hbytes.symm.trans hbytes'
          | ok bytes =>
              rw [← length_patchBytes hbytes] at hfits
              obtain ⟨out, hout⟩ := Bytes.putAll?_eq_some hfits
              dsimp only
              exact .inl ⟨out, orFault_eq_ok_iff.2 hout, Bytes.size_of_putAll? hout⟩

/-- Patches inside the code fail if one of their operands has no value. -/
theorem applyPatches_cases {a : Assembler} {ps : List Patch} {code : Bytes}
    (h : ∀ p ∈ ps, p.offset + p.kind.width ≤ code.size) :
    (∃ out, a.applyPatches ps code = .ok out) ∨
      ∃ p ∈ ps, ∃ s, a.Unfilled p s ∧ a.applyPatches ps code = .error s := by
  induction ps generalizing code with
  | nil => exact .inl ⟨code, rfl⟩
  | cons p ps ih =>
      obtain ⟨hfits, hps⟩ := List.forall_mem_cons.1 h
      rw [applyPatches]
      rcases applyPatch_cases hfits with ⟨mid, hmid, hsize⟩ | ⟨s, hs, hstop⟩
      · rw [hmid]
        dsimp only
        rw [← hsize] at hps
        rcases ih hps with hout | ⟨q, hq, hstop⟩
        · exact .inl hout
        · exact .inr ⟨q, List.mem_cons_of_mem p hq, hstop⟩
      · rw [hstop]
        exact .inr ⟨p, List.mem_cons_self, s, hs, rfl⟩

/-- Finishing fails if an operand has no value, as long as the operands lie inside
the code. -/
theorem finish_cases {a : Assembler}
    (h : ∀ p ∈ a.patches.toList, p.offset + p.kind.width ≤ a.code.size) :
    (∃ segment, a.finish = .ok segment) ∨
      ∃ p ∈ a.patches.toList, ∃ s, a.Unfilled p s ∧ a.finish = .error s := by
  unfold finish
  rcases applyPatches_cases h with ⟨out, hout⟩ | ⟨p, hp, s, hs, hstop⟩
  · rw [hout]
    exact .inl ⟨_, rfl⟩
  · rw [hstop]
    exact .inr ⟨p, hp, s, hs, rfl⟩

end Assembler

namespace Order

/-- What waits for a label lies inside the code of its order. -/
theorem Awaits.le {offset : Nat} {order : Order} {p : Patch} (h : order.Awaits offset p) :
    p.offset + p.kind.width ≤ offset + order.size := by
  cases order with
  | branchTo m l =>
      subst h
      exact Nat.le_refl _
  | jumpTo l =>
      subst h
      exact Nat.le_refl _
  | _ => cases h

/-- Finishing a row of orders fails if an operand has no value. -/
theorem finish_cases {base : UInt16} {orders : List Order} {a : Assembler}
    (h : runAll orders { base := base } = .ok () a) :
    (∃ segment, a.finish = .ok segment) ∨
      ∃ p offset order, At orders offset order ∧ order.Awaits offset p ∧
        ∃ s, a.Unfilled p s ∧ a.finish = .error s := by
  have hran := ran_of_runAll h
  obtain ⟨ps, hps, -, hawaits⟩ := hran.awaits
  have hsize : a.code.size = sizeAll orders := hran.size.trans (Nat.zero_add _)
  have hat : ∀ p ∈ a.patches.toList, ∃ offset order, At orders offset order ∧
      order.Awaits offset p := by
    intro p hp
    rw [hps] at hp
    obtain ⟨offset, order, hat, hawait⟩ := hawaits p hp
    have hzero : (0 : Nat) + offset = offset := Nat.zero_add offset
    exact ⟨offset, order, hat, hzero ▸ hawait⟩
  have hinside : ∀ p ∈ a.patches.toList, p.offset + p.kind.width ≤ a.code.size := by
    intro p hp
    obtain ⟨offset, order, hat, hawait⟩ := hat p hp
    rw [hsize]
    exact Nat.le_trans hawait.le hat.le
  rcases Assembler.finish_cases hinside with hsegment | ⟨p, hp, hstop⟩
  · exact .inl hsegment
  · obtain ⟨offset, order, hat, hawait⟩ := hat p hp
    exact .inr ⟨p, offset, order, hat, hawait, hstop⟩

end Order

end Cartridge
