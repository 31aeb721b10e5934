/-
# `Cartridge.Proofs.Assembly.Atomicity` — an order is carried out or has no effect

Orders may be refused, and the assembler is used further after that.  All that an
order can come to is one of three things:

    Grown       it is carried out: its code stands behind what was there, and an
                operand that waits for its label stands behind its own opcode
    Exceeds     there is no room for it, or its target is out of reach
    Breaks      it is no instruction, or the label that it looks up is not to be had

and the last two leave the assembler as it was.  `comes_run` says so once, and
what holds of every assembler is carried along by `Grown` alone: the code ends
within the address space, and the operands that wait lie in it, each behind an
opcode that wants such an operand and none over another (`Coherent`).  Of their
labels only those of jumps may be unknown, since a jump does not look its label up.

Proved here: this holds after any orders, carried out or refused, where nothing
that was written is written again before the operands are filled in, and then
nothing but these operands (`atomic_after`).
-/
import Cartridge.Proofs.Assembly.Listing

namespace Cartridge

/-- The opcodes with an operand of the given kind for a label. -/
def PatchKind.Opcode (opcode : UInt8) : PatchKind → Prop
  | .relative => ∃ m, Cpu.opcode? m .relative = some opcode
  | .absolute => Cpu.opcode? .jmp .absolute = some opcode

/-- The byte at an offset belongs to the operand. -/
def Patch.Covers (p : Patch) (k : Nat) : Prop := p.offset ≤ k ∧ k < p.offset + p.kind.width

namespace Assembler

/-- The operand that waits stands in the code, right behind its opcode. -/
structure Holds (a : Assembler) (p : Patch) : Prop where
  behind : ∃ k opcode, p.offset = k + 1 ∧ a.code[k]? = some opcode ∧ p.kind.Opcode opcode
  inside : p.offset + p.kind.width ≤ a.code.size

/-- The code ends within the address space, and the operands that wait stand in
it, one behind the other. -/
structure Coherent (a : Assembler) : Prop where
  fits : a.base.toNat + a.code.size ≤ 0x10000
  holds : ∀ p ∈ a.patches.toList, a.Holds p
  apart : a.patches.toList.Pairwise fun p q => p.offset + p.kind.width ≤ q.offset

/-- All that an order does when it is carried out. -/
structure Grown (a a' : Assembler) (order : Order) : Prop where
  base : a'.base = a.base
  labels : a.labels.size ≤ a'.labels.size
  code : ∃ bytes : List UInt8, bytes.length = order.size ∧ a'.code = a.code ++ bytes
  fits : order.size = 0 ∨ a.stopAfter order.size ≤ 0x10000
  patches : a'.patches = a.patches ∨
    ∃ p, a'.patches = a.patches.push p ∧ a.code.size ≤ p.offset ∧ a'.Holds p ∧
      (p.label < a.labels.size ∨ order = .jumpTo p.label)

theorem Grown.size {a a' : Assembler} {order : Order} (h : Grown a a' order) :
    a'.code.size = a.code.size + order.size := by
  obtain ⟨bytes, hlength, hcode⟩ := h.code
  rw [hcode, Bytes.size_append_list, hlength]

/-- Code and labels behind it do not touch an operand. -/
theorem Holds.grown {a a' : Assembler} {p : Patch} {order : Order} (h : a.Holds p)
    (hgrown : Grown a a' order) : a'.Holds p := by
  obtain ⟨k, opcode, hoffset, hopcode, hkind⟩ := h.behind
  obtain ⟨bytes, -, hcode⟩ := hgrown.code
  have hinside := h.inside
  have hsize := hgrown.size
  refine ⟨⟨k, opcode, hoffset, ?_, hkind⟩, by omega⟩
  rw [hcode, Bytes.getElem?_append_list, if_pos (by omega)]
  exact hopcode

theorem coherent_empty (base : UInt16) : Coherent { base := base } :=
  ⟨Nat.le_of_lt base.toNat_lt, fun _ h => absurd h List.not_mem_nil, .nil⟩

theorem Coherent.grown {a a' : Assembler} {order : Order} (h : a.Coherent)
    (hgrown : Grown a a' order) : a'.Coherent := by
  have hsize := hgrown.size
  have hold : ∀ p ∈ a.patches.toList, a'.Holds p := fun p hp => (h.holds p hp).grown hgrown
  have hfits : a'.base.toNat + a'.code.size ≤ 0x10000 := by
    have hbefore := h.fits
    rw [hgrown.base, hsize]
    rcases hgrown.fits with hzero | hstop
    · omega
    · unfold stopAfter at hstop
      omega
  rcases hgrown.patches with hsame | ⟨p, hpush, hbehind, hholds, -⟩
  · exact ⟨hfits, hsame ▸ hold, hsame ▸ h.apart⟩
  · have hlist : a'.patches.toList = a.patches.toList ++ [p] := by
      rw [hpush, Array.toList_push]
    refine ⟨hfits, fun q hq => ?_, ?_⟩
    · rw [hlist] at hq
      rcases List.mem_append.1 hq with hq | hq
      · exact hold q hq
      · exact List.mem_singleton.1 hq ▸ hholds
    · rw [hlist, List.pairwise_append]
      refine ⟨h.apart, List.pairwise_singleton _ _, fun q hq r hr => ?_⟩
      rw [List.mem_singleton.1 hr]
      exact Nat.le_trans (h.holds q hq).inside hbehind

/-- The labels that operands wait for were handed out, or are those of jumps among
the orders. -/
def Known (orders : List Order) (a : Assembler) : Prop :=
  ∀ p ∈ a.patches.toList, p.label < a.labels.size ∨ .jumpTo p.label ∈ orders

theorem known_empty (orders : List Order) (base : UInt16) : Known orders { base := base } :=
  List.forall_mem_nil _

theorem Known.grown {orders : List Order} {a a' : Assembler} {order : Order}
    (h : a.Known orders) (hgrown : Grown a a' order)
    (hjump : ∀ l, order = .jumpTo l → l < a'.labels.size ∨ .jumpTo l ∈ orders) :
    a'.Known orders := by
  have hold : ∀ p ∈ a.patches.toList, p.label < a'.labels.size ∨ .jumpTo p.label ∈ orders :=
    fun p hp => (h p hp).imp_left fun hlt => Nat.lt_of_lt_of_le hlt hgrown.labels
  intro q hq
  rcases hgrown.patches with hsame | ⟨p, hpush, -, -, hlabel⟩
  · exact hold q (hsame ▸ hq)
  · rw [hpush, Array.toList_push] at hq
    rcases List.mem_append.1 hq with hq | hq
    · exact hold q hq
    · rw [List.mem_singleton.1 hq]
      rcases hlabel with hlt | horder
      · exact .inl (Nat.lt_of_lt_of_le hlt hgrown.labels)
      · exact hjump p.label horder

end Assembler

namespace Order

/-! ## What an order can come to -/

/-- The instruction that an order asks for, without its operand. -/
def coding? : Order → Option (Cpu.Mnemonic × Cpu.Mode)
  | .op m o => some (m, o.mode)
  | .branchAt m _ | .branchTo m _ => some (m, .relative)
  | .jumpTo _ => some (.jmp, .absolute)
  | .freshLabel | .bind _ => none

/-- The label that an order looks up. -/
def label? : Order → Option Nat
  | .bind l | .branchTo _ l => some l
  | _ => none

/-- The address that an order branches to, if it is known. -/
def aim? (a : Assembler) : Order → Option UInt16
  | .branchAt _ target => some target
  | .branchTo _ l => a.address? l
  | _ => none

/-- Why there is no place for an order. -/
inductive Exceeds (a : Assembler) (order : Order) : AsmError → Prop where
  | room (h : 0x10000 < a.stopAfter order.size) :
      Exceeds a order (.overflow (a.stopAfter order.size))
  | reach {target : UInt16} (haim : order.aim? a = some target) (h : ¬ Reaches a.here target) :
      Exceeds a order (.branchOutOfRange a.here target)

/-- Which contract an order breaks. -/
inductive Breaks (a : Assembler) (order : Order) : Fault → Prop where
  | coding {m : Cpu.Mnemonic} {mode : Cpu.Mode} (horder : order.coding? = some (m, mode))
      (h : Cpu.opcode? m mode = none) : Breaks a order (.illegal m mode)
  | unknown {l : Nat} (horder : order.label? = some l) (h : a.labels.size ≤ l) :
      Breaks a order .outOfRange
  | bound {l : Nat} {x : UInt16} (horder : order = .bind l) (h : a.address? l = some x) :
      Breaks a order (.rebound l)

/-- What an order comes to: it is carried out, or the assembler is as before. -/
inductive Comes (a : Assembler) (order : Order) :
    EStateM.Result (Stop AsmError) Assembler Unit → Prop where
  | grown {a' : Assembler} (h : a.Grown a' order) : Comes a order (.ok () a')
  | exceeds {e : AsmError} (h : Exceeds a order e) : Comes a order (.error (.error e) a)
  | breaks {f : Fault} (h : Breaks a order f) : Comes a order (.error (.fault f) a)

end Order

namespace Assembler

theorem opcode?_of_encode?_none {m : Cpu.Mnemonic} {o : Cpu.Operand}
    (h : Cpu.encode? m o = none) : Cpu.opcode? m o.mode = none :=
  Option.map_eq_none_iff.1 h

theorem displacement_cases (source target : UInt16) :
    (∃ d, displacement source target = .ok d) ∨
      displacement source target = .error (.branchOutOfRange source target) ∧
        ¬ Reaches source target := by
  by_cases h : Reaches source target
  · exact .inl h.exists_displacement
  · exact .inr ⟨if_neg h, h⟩

/-- One instruction, with what is done about its operand behind it. -/
theorem comes_op {m : Cpu.Mnemonic} {o : Cpu.Operand} {a : Assembler} {order : Order}
    {next : Unit → Asm Unit} (hcoding : order.coding? = some (m, o.mode))
    (hsize : order.size = 1 + o.bytes.length)
    (hnext : ∀ bytes, Cpu.encode? m o = some bytes → a.stopAfter order.size ≤ 0x10000 →
      order.Comes a (next () { a with code := a.code ++ bytes })) :
    order.Comes a ((op m o >>= next) a) := by
  show order.Comes a (EStateM.bind (op m o) next a)
  unfold EStateM.bind op
  cases hencode : Cpu.encode? m o with
  | none => exact .breaks (.coding hcoding (opcode?_of_encode?_none hencode))
  | some bytes =>
      have hlength : bytes.length = order.size := by
        rw [hsize, Line.length_of_instruction hencode]
      dsimp only
      rw [hlength]
      by_cases hroom : 0x10000 < a.stopAfter order.size
      · rw [if_pos hroom]
        exact .exceeds (.room hroom)
      · rw [if_neg hroom]
        exact hnext bytes hencode (Nat.le_of_not_lt hroom)

/-- An instruction whose operand is known. -/
theorem comes_op_complete {m : Cpu.Mnemonic} {o : Cpu.Operand} (a : Assembler) {order : Order}
    (hcoding : order.coding? = some (m, o.mode)) (hsize : order.size = 1 + o.bytes.length) :
    order.Comes a (op m o a) := by
  have hpure : op m o a = (op m o >>= pure) a := by rw [bind_pure]
  rw [hpure]
  refine comes_op hcoding hsize fun bytes hencode hroom => .grown ?_
  have hlength : bytes.length = order.size := by rw [hsize, Line.length_of_instruction hencode]
  exact ⟨rfl, Nat.le_refl _, ⟨bytes, hlength, rfl⟩, .inr hroom, .inl rfl⟩

/-- An instruction whose operand waits for a label. -/
theorem comes_op_await {m : Cpu.Mnemonic} {o : Cpu.Operand} {a : Assembler} {order : Order}
    {l : Nat} {kind : PatchKind} (hlabel : l < a.labels.size ∨ order = .jumpTo l)
    (hcoding : order.coding? = some (m, o.mode)) (hsize : order.size = 1 + o.bytes.length)
    (hkind : ∀ opcode, Cpu.opcode? m o.mode = some opcode → kind.Opcode opcode)
    (hwidth : o.bytes.length = kind.width) :
    order.Comes a ((do op m o; await l kind kind.width) a) := by
  refine comes_op hcoding hsize fun bytes hencode hroom => .grown ?_
  obtain ⟨opcode, hopcode, rfl⟩ := Option.map_eq_some_iff.1 hencode
  have hlength : (opcode :: o.bytes).length = order.size := by
    rw [hsize, List.length_cons, Nat.add_comm]
  have hend : (a.code ++ opcode :: o.bytes).size - kind.width = a.code.size + 1 := by
    rw [Bytes.size_append_list, List.length_cons, hwidth]
    omega
  refine ⟨rfl, Nat.le_refl _, ⟨opcode :: o.bytes, hlength, rfl⟩, .inr hroom,
    .inr ⟨_, rfl, ?_, ?_, hlabel⟩⟩
  · show a.code.size ≤ (a.code ++ opcode :: o.bytes).size - kind.width
    omega
  · refine ⟨⟨a.code.size, opcode, hend, ?_, hkind opcode hopcode⟩, ?_⟩
    · show (a.code ++ opcode :: o.bytes)[a.code.size]? = some opcode
      rw [Bytes.getElem?_append_list, if_neg (Nat.lt_irrefl _), Nat.sub_self]
      rfl
    · show (a.code ++ opcode :: o.bytes).size - kind.width + kind.width ≤
        (a.code ++ opcode :: o.bytes).size
      rw [hend, Bytes.size_append_list, List.length_cons, hwidth]
      omega

/-- A branch to a known address. -/
theorem comes_branchAt {m : Cpu.Mnemonic} {target : UInt16} {a : Assembler} {order : Order}
    (hcoding : order.coding? = some (m, .relative)) (hsize : order.size = 2)
    (haim : order.aim? a = some target) : order.Comes a (branchAt m target a) := by
  unfold branchAt
  rcases displacement_cases a.here target with ⟨d, hd⟩ | ⟨herror, hnot⟩
  · rw [hd]
    exact comes_op_complete a hcoding hsize
  · rw [herror]
    exact .exceeds (.reach haim hnot)

end Assembler

namespace Order

open Assembler (comes_op_complete comes_op_await comes_branchAt)

theorem size_le_of_label?_none {a : Assembler} {l : Nat} (h : a.label? l = none) :
    a.labels.size ≤ l :=
  Array.getElem?_eq_none_iff.1 h

/-- What every order comes to. -/
theorem comes_run (order : Order) (a : Assembler) : order.Comes a (order.run a) := by
  cases order with
  | op m o => exact comes_op_complete a rfl rfl
  | branchAt m target => exact comes_branchAt rfl rfl rfl
  | freshLabel =>
      refine .grown ⟨rfl, ?_, ⟨[], rfl, by simp⟩, .inl rfl, .inl rfl⟩
      rw [Array.size_push]
      exact Nat.le_succ _
  | bind l =>
      show Comes a (.bind l) (Assembler.bind l a)
      unfold Assembler.bind
      cases hl : a.label? l with
      | none => exact .breaks (.unknown rfl (size_le_of_label?_none hl))
      | some x =>
          cases x with
          | none =>
              refine .grown ⟨rfl, ?_, ⟨[], rfl, by simp⟩, .inl rfl, .inl rfl⟩
              exact Nat.le_of_eq Array.size_setIfInBounds.symm
          | some x => exact .breaks (.bound rfl (Assembler.address?_eq_some_iff.2 hl))
  | branchTo m l =>
      show Comes a (.branchTo m l) (Assembler.branchTo m l a)
      unfold Assembler.branchTo
      cases hl : a.label? l with
      | none => exact .breaks (.unknown rfl (size_le_of_label?_none hl))
      | some x =>
          cases x with
          | none =>
              exact comes_op_await (.inl (Assembler.lt_of_label? hl)) rfl rfl (fun _ h => ⟨m, h⟩)
                rfl
          | some x => exact comes_branchAt rfl rfl (Assembler.address?_eq_some_iff.2 hl)
  | jumpTo l => exact comes_op_await (.inr rfl) rfl rfl (fun _ h => h) rfl

theorem comes_of_run {order : Order} {a : Assembler}
    {r : EStateM.Result (Stop AsmError) Assembler Unit} (h : order.run a = r) : order.Comes a r :=
  h ▸ order.comes_run a

/-- An order that is not carried out has no effect. -/
theorem eq_of_run_error {order : Order} {a a' : Assembler} {s : Stop AsmError}
    (h : order.run a = .error s a') : a' = a := by
  cases comes_of_run h with
  | exceeds => rfl
  | breaks => rfl

theorem exceeds_of_run_error {order : Order} {a a' : Assembler} {e : AsmError}
    (h : order.run a = .error (.error e) a') : order.Exceeds a e := by
  cases comes_of_run h with
  | exceeds hexceeds => exact hexceeds

end Order

namespace Assembler

/-! ## Rows of orders -/

/-- The assembler behind an order, carried out or not. -/
def apply (a : Assembler) (order : Order) : Assembler :=
  match order.run a with
  | .ok _ a' => a'
  | .error _ a' => a'

/-- The assembler behind orders, of which some may be refused. -/
def applyAll (a : Assembler) (orders : List Order) : Assembler := orders.foldl apply a

/-- A new assembler behind orders. -/
def after (base : UInt16) (orders : List Order) : Assembler := applyAll { base := base } orders

theorem apply_cases (a : Assembler) (order : Order) :
    a.Grown (a.apply order) order ∨ a.apply order = a := by
  unfold apply
  cases hrun : order.run a with
  | ok _ a' =>
      cases Order.comes_of_run hrun with
      | grown hgrown => exact .inl hgrown
  | error s a' => exact .inr (Order.eq_of_run_error hrun)

theorem Coherent.apply {a : Assembler} (h : a.Coherent) (order : Order) :
    (a.apply order).Coherent := by
  rcases a.apply_cases order with hgrown | hsame
  · exact h.grown hgrown
  · rwa [hsame]

theorem Coherent.applyAll {a : Assembler} (h : a.Coherent) (orders : List Order) :
    (a.applyAll orders).Coherent := by
  induction orders generalizing a with
  | nil => exact h
  | cons order orders ih => exact ih (h.apply order)

theorem coherent_after (base : UInt16) (orders : List Order) : (after base orders).Coherent :=
  (coherent_empty base).applyAll orders

theorem Known.applyAll {orders later : List Order} {a : Assembler} (h : a.Known orders)
    (hlater : later ⊆ orders) : (a.applyAll later).Known orders := by
  induction later generalizing a with
  | nil => exact h
  | cons order later ih =>
      obtain ⟨horder, hlater⟩ := List.cons_subset.1 hlater
      refine ih ?_ hlater
      rcases a.apply_cases order with hgrown | hsame
      · exact h.grown hgrown fun l hl => .inr (hl ▸ horder)
      · rwa [hsame]

theorem known_after (base : UInt16) (orders : List Order) : (after base orders).Known orders :=
  (known_empty orders base).applyAll (List.Subset.refl _)

theorem base_apply (a : Assembler) (order : Order) : (a.apply order).base = a.base := by
  rcases a.apply_cases order with hgrown | hsame
  · exact hgrown.base
  · rw [hsame]

theorem base_applyAll (a : Assembler) (orders : List Order) :
    (a.applyAll orders).base = a.base := by
  induction orders generalizing a with
  | nil => rfl
  | cons order orders ih => exact (ih (a.apply order)).trans (a.base_apply order)

/-- What is written stays written. -/
theorem prefix_apply (a : Assembler) (order : Order) :
    a.code.toList <+: (a.apply order).code.toList := by
  rcases a.apply_cases order with hgrown | hsame
  · obtain ⟨bytes, -, hcode⟩ := hgrown.code
    rw [hcode, Array.toList_appendList]
    exact List.prefix_append _ _
  · simp only [hsame, List.prefix_rfl]

theorem prefix_applyAll (a : Assembler) (orders : List Order) :
    a.code.toList <+: (a.applyAll orders).code.toList := by
  induction orders generalizing a with
  | nil => exact List.prefix_refl _
  | cons order orders ih => exact (a.prefix_apply order).trans (ih (a.apply order))

/-! ## Filling in -/

/-- A patch writes its operand and nothing else. -/
theorem applyPatch_frame {a : Assembler} {p : Patch} {code out : Bytes}
    (h : a.applyPatch p code = .ok out) :
    out.size = code.size ∧ ∀ k, ¬ p.Covers k → out[k]? = code[k]? := by
  obtain ⟨target, bytes, -, hbytes, hput⟩ := applyPatch_eq_ok h
  refine ⟨Bytes.size_of_putAll? hput, fun k hk => Bytes.getElem?_of_putAll?_other hput ?_⟩
  have hlength := length_patchBytes hbytes
  unfold Patch.Covers at hk
  omega

theorem applyPatches_frame {a : Assembler} {ps : List Patch} {code out : Bytes}
    (h : a.applyPatches ps code = .ok out) :
    out.size = code.size ∧ ∀ k, (∀ p ∈ ps, ¬ p.Covers k) → out[k]? = code[k]? := by
  induction ps generalizing code with
  | nil =>
      cases h
      exact ⟨rfl, fun _ _ => rfl⟩
  | cons p ps ih =>
      rw [applyPatches] at h
      split at h
      · cases h
      · next mid hmid =>
          obtain ⟨hsize, hframe⟩ := applyPatch_frame hmid
          obtain ⟨hsize', hframe'⟩ := ih h
          refine ⟨hsize'.trans hsize, fun k hk => ?_⟩
          obtain ⟨hp, hps⟩ := List.forall_mem_cons.1 hk
          exact (hframe' k hps).trans (hframe k hp)

theorem finish_frame {a : Assembler} {segment : Segment} (h : a.finish = .ok segment) :
    segment.bytes.size = a.code.size ∧
      ∀ k, (∀ p ∈ a.patches.toList, ¬ p.Covers k) → segment.bytes[k]? = a.code[k]? := by
  obtain ⟨code, hcode, rfl⟩ := finish_eq_ok_iff.1 h
  exact applyPatches_frame hcode

/-- Operations are atomic and keep to the address space.  After any orders the
code ends at $10000 at the latest, and the operands that wait lie in it, behind
their opcodes and apart from each other; their labels were handed out, but for
those of jumps, which nothing looks up before the end.  An order that stops changes
nothing; if it stops with an error, its code would have ended at the address past
$10000 that is reported, or its target is out of reach.  Code that is written stays
as it is whatever is ordered later, and finishing changes nothing but the operands
that wait. -/
theorem atomic_after (base : UInt16) (orders : List Order) :
    (after base orders).base = base ∧ (after base orders).Coherent ∧
    (after base orders).Known orders ∧
    (∀ (order : Order) s a, order.run (after base orders) = .error s a →
      a = after base orders) ∧
    (∀ (order : Order) e a, order.run (after base orders) = .error (.error e) a →
      (∃ stop, e = .overflow stop ∧ 0x10000 < stop ∧
        stop = base.toNat + (after base orders).code.size + order.size) ∨
      ∃ target, e = .branchOutOfRange (after base orders).here target ∧
        order.aim? (after base orders) = some target ∧
        ¬ Reaches (after base orders).here target) ∧
    (∀ later, (after base orders).code.toList <+:
      ((after base orders).applyAll later).code.toList) ∧
    ∀ segment, (after base orders).finish = .ok segment →
      segment.bytes.size = (after base orders).code.size ∧
      ∀ k, (∀ p ∈ (after base orders).patches.toList, ¬ p.Covers k) →
        segment.bytes[k]? = (after base orders).code[k]? := by
  have hbase : (after base orders).base = base := base_applyAll _ orders
  refine ⟨hbase, coherent_after base orders, known_after base orders,
    fun order s a => Order.eq_of_run_error, fun order e a h => ?_, prefix_applyAll _,
    fun segment => finish_frame⟩
  cases Order.exceeds_of_run_error h with
  | room hstop => exact .inl ⟨_, rfl, hstop, by rw [stopAfter, hbase]⟩
  | reach haim hnot => exact .inr ⟨_, rfl, haim, hnot⟩

/-- A branch and a jump to a label between them, at the end of the address space. -/
def lastWords : List Order := [.freshLabel, .branchTo .beq 0, .bind 0, .jumpTo 0]

/-- Behind them there is no room for another instruction, and the address of the
next byte has wrapped around, so that no branch back is in reach. -/
theorem atomic_lastWords :
    (after 0xFFFB lastWords).Coherent ∧
    (after 0xFFFB lastWords).patches = #[⟨1, 0, .relative⟩, ⟨3, 0, .absolute⟩] ∧
    (∃ a, (Order.op .nop .implied).run (after 0xFFFB lastWords) =
      .error (.error (.overflow 0x10001)) a ∧ a = after 0xFFFB lastWords) ∧
    (∃ a, (Order.branchAt .bne 0xFFFB).run (after 0xFFFB lastWords) =
      .error (.error (.branchOutOfRange 0 0xFFFB)) a ∧
        ¬ Reaches (after 0xFFFB lastWords).here 0xFFFB) ∧
    ∃ segment, (after 0xFFFB lastWords).finish = .ok segment ∧
      segment.bytes = #[0xF0, 0, 0x4C, 0xFD, 0xFF] ∧
      segment.bytes[2]? = (after 0xFFFB lastWords).code[2]? := by
  obtain ⟨-, hcoherent, -, hatomic, hfails, -, hfinish⟩ := atomic_after 0xFFFB lastWords
  have hnop : (Order.op .nop .implied).run (after 0xFFFB lastWords) =
    .error (.error (.overflow 0x10001)) _ := rfl
  have hback : (Order.branchAt .bne 0xFFFB).run (after 0xFFFB lastWords) =
    .error (.error (.branchOutOfRange 0 0xFFFB)) _ := rfl
  refine ⟨hcoherent, rfl, ⟨_, hnop, hatomic _ _ _ hnop⟩, ⟨_, hback, ?_⟩, _, rfl, rfl, ?_⟩
  · rcases hfails _ _ _ hback with ⟨stop, hstop, -⟩ | ⟨target, herror, -, hnot⟩
    · cases hstop
    · cases herror
      exact hnot
  · refine (hfinish _ rfl).2 2 fun p hp => ?_
    -- the operands that wait take byte 1 and the bytes 3 and 4
    have hcases : p ∈ [⟨1, 0, .relative⟩, ⟨3, 0, .absolute⟩] := hp
    rw [List.mem_cons, List.mem_singleton] at hcases
    rcases hcases with rfl | rfl
    · exact fun hcovers => absurd hcovers.2 (show ¬ 2 < 2 by decide)
    · exact fun hcovers => absurd hcovers.1 (show ¬ 3 ≤ 2 by decide)

end Assembler

end Cartridge
