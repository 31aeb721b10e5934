/-
# `Cartridge.Proofs.Assembly.Relocation` — to move a segment is to assemble it elsewhere

A row of orders that names no address is a routine for any base.  Two runs of
it, at two bases, go side by side:

    sketch      both runs have the code, the offsets of labels and the operands
                that wait in common; only the base differs (`Sketch.based`)
    branch      the distance to a label does not depend on the base, as long as
                neither run passes the end of the address space
    bytes       both segments consist of the same pieces, but for the operands of
                jumps, which differ by the distance of the bases

Proved here: orders can be assembled at both bases or at none (`exists_assemble`),
moving the one segment gives the other (`moveTo_of_assemble`), and a segment can
be moved as often as one likes (`moveThrough_of_assemble`).
-/
import Cartridge.Proofs.Assembly.Listing
import Cartridge.Proofs.Assembly.Moves

namespace Cartridge

/-! ## Two bases -/

/-- Branches at two bases over the same distance have the same operand. -/
theorem displacement_unique {source target delta : UInt16} {d d' : UInt8}
    (h : displacement source target = .ok d)
    (h' : displacement (source + delta) (target + delta) = .ok d') : d = d' := by
  rw [displacement_eq_ok_iff, Leads, toInt_toInt8] at h h'
  rw [UInt16.toNat_add, UInt16.toNat_add] at h'
  have hd := d.toNat_lt
  have hd' := d'.toNat_lt
  apply UInt8.toNat_inj.1
  split at h <;> split at h' <;> omega

/-- Inside the address space, the distance of two offsets does not depend on the
base. -/
theorem displacement_base {a b : UInt16} {i j n : Nat} {d : UInt8} (ha : a.toNat + n ≤ 65535)
    (hb : b.toNat + n ≤ 65535) (hi : i ≤ n) (hj : j ≤ n)
    (h : displacement (a + UInt16.ofNat i) (a + UInt16.ofNat j) = .ok d) :
    displacement (b + UInt16.ofNat i) (b + UInt16.ofNat j) = .ok d := by
  rw [displacement_eq_ok_iff, Leads] at h ⊢
  rw [toNat_add_ofNat (by omega), toNat_add_ofNat (by omega)] at h ⊢
  omega

/-- An assembler without its base: labels stand at offsets. -/
structure Sketch where
  code : Bytes := #[]
  offsets : Array (Option Nat) := #[]
  patches : Array Patch := #[]

namespace Sketch

/-- The assembler at a base. -/
def based (s : Sketch) (base : UInt16) : Assembler where
  base := base
  code := s.code
  labels := s.offsets.map (Option.map fun k => base + UInt16.ofNat k)
  patches := s.patches

/-- Labels and operands that wait lie inside the code. -/
structure Proper (s : Sketch) : Prop where
  bound : ∀ l k : Nat, s.offsets[l]? = some (some k) → k ≤ s.code.size
  inside : ∀ p ∈ s.patches.toList, p.offset ≤ s.code.size

theorem proper_empty : ({} : Sketch).Proper :=
  ⟨fun l k h => by simp at h, List.forall_mem_nil _⟩

theorem based_empty (base : UInt16) : ({} : Sketch).based base = { base := base } := by
  rw [based, Array.map_empty]

theorem label?_based (s : Sketch) (base : UInt16) (l : Nat) :
    (s.based base).label? l = s.offsets[l]?.map (Option.map fun k => base + UInt16.ofNat k) :=
  Array.getElem?_map

/-- The sketch with more code. -/
def write (s : Sketch) (bytes : List UInt8) : Sketch := { s with code := s.code ++ bytes }

/-- The sketch with an operand that waits. -/
def await (s : Sketch) (l : Nat) (kind : PatchKind) (width : Nat) : Sketch :=
  { s with patches := s.patches.push ⟨s.code.size - width, l, kind⟩ }

/-- The sketch with another label. -/
def fresh (s : Sketch) : Sketch := { s with offsets := s.offsets.push none }

/-- The sketch with a label bound to the next byte. -/
def bind (s : Sketch) (l : Nat) : Sketch :=
  { s with offsets := s.offsets.setIfInBounds l (some s.code.size) }

theorem based_fresh (s : Sketch) (base : UInt16) :
    s.fresh.based base = { s.based base with labels := (s.based base).labels.push none } := by
  simp only [fresh, based, Array.map_push, Option.map_none]

theorem based_bind (s : Sketch) (l : Nat) (base : UInt16) :
    (s.bind l).based base = { s.based base with
      labels := (s.based base).labels.setIfInBounds l (some (s.based base).here) } := by
  simp only [bind, based, Array.map_setIfInBounds]
  rfl

theorem Proper.write {s : Sketch} (h : s.Proper) (bytes : List UInt8) : (s.write bytes).Proper := by
  have hsize : s.code.size ≤ (s.write bytes).code.size := by
    rw [Sketch.write, Bytes.size_append_list]
    exact Nat.le_add_right ..
  exact ⟨fun l k hl => Nat.le_trans (h.bound l k hl) hsize,
    fun p hp => Nat.le_trans (h.inside p hp) hsize⟩

theorem Proper.await {s : Sketch} (h : s.Proper) (l : Nat) (kind : PatchKind) (width : Nat) :
    (s.await l kind width).Proper := by
  refine ⟨h.bound, fun p hp => ?_⟩
  rw [Sketch.await, Array.toList_push] at hp
  rcases List.mem_append.1 hp with hp | hp
  · exact h.inside p hp
  · obtain rfl := List.mem_singleton.1 hp
    exact Nat.sub_le ..

theorem Proper.fresh {s : Sketch} (h : s.Proper) : s.fresh.Proper := by
  refine ⟨fun l k hl => ?_, h.inside⟩
  rw [Sketch.fresh, Array.getElem?_push] at hl
  split at hl
  · cases hl
  · exact h.bound l k hl

theorem Proper.bind {s : Sketch} (h : s.Proper) (l : Nat) : (s.bind l).Proper := by
  refine ⟨fun l' k hl => ?_, h.inside⟩
  rw [Sketch.bind, Array.getElem?_setIfInBounds] at hl
  split at hl
  · split at hl <;> cases hl
    exact Nat.le_refl _
  · exact h.bound l' k hl

end Sketch

namespace Assembler

/-- The converse of `op_eq_ok`. -/
theorem op_of_room {m : Cpu.Mnemonic} {o : Cpu.Operand} {a : Assembler} {bytes : List UInt8}
    (hbytes : Cpu.encode? m o = some bytes)
    (hroom : a.base.toNat + a.code.size + bytes.length ≤ 0x10000) :
    op m o a = .ok () { a with code := a.code ++ bytes } := by
  unfold op
  rw [hbytes]
  exact if_neg (Nat.not_lt.2 hroom)

theorem bind_of_unbound {l : Nat} {a : Assembler} (h : a.label? l = some none) :
    bind l a = .ok () { a with labels := a.labels.setIfInBounds l (some a.here) } := by
  unfold bind
  rw [h]

theorem branchTo_of_bound {m : Cpu.Mnemonic} {l : Nat} {a : Assembler} {target : UInt16}
    (h : a.label? l = some (some target)) : branchTo m l a = branchAt m target a := by
  unfold branchTo
  rw [h]

theorem branchTo_of_unbound {m : Cpu.Mnemonic} {l : Nat} {a : Assembler}
    (h : a.label? l = some none) :
    branchTo m l a = (do op m (.relative 0); await l .relative 1) a := by
  unfold branchTo
  rw [h]

theorem applyPatch_of_put {a : Assembler} {p : Patch} {target : UInt16} {bytes : List UInt8}
    {code out : Bytes} (htarget : a.label? p.label = some (some target))
    (hbytes : a.patchBytes p target = .ok bytes) (hput : code.putAll? p.offset bytes = some out) :
    a.applyPatch p code = .ok out := by
  unfold applyPatch
  rw [htarget]
  dsimp only
  rw [hbytes]
  exact orFault_eq_ok_iff.2 hput

theorem branchAt_of_displacement {m : Cpu.Mnemonic} {target : UInt16} {a : Assembler} {d : UInt8}
    (h : displacement a.here target = .ok d) : branchAt m target a = op m (.relative d) a := by
  unfold branchAt
  rw [h]

end Assembler

namespace Sketch

/-- A step that takes the sketch somewhere at base `a` takes it there at base `b`,
and appends `n` bytes. -/
def Alike (s : Sketch) (a b : UInt16) (step : Asm Unit) (n : Nat) : Prop :=
  ∀ t, step (s.based a) = .ok () t →
    ∃ s' : Sketch, s'.Proper ∧ s'.code.size = s.code.size + n ∧ t = s'.based a ∧
      step (s.based b) = .ok () (s'.based b)

variable {s : Sketch} {a b : UInt16}

theorem op_based {m : Cpu.Mnemonic} {o : Cpu.Operand} {t : Assembler}
    (hb : b.toNat + (s.code.size + (1 + o.bytes.length)) ≤ 65535)
    (h : Assembler.op m o (s.based a) = .ok () t) :
    ∃ bytes, bytes.length = 1 + o.bytes.length ∧ t = (s.write bytes).based a ∧
      Assembler.op m o (s.based b) = .ok () ((s.write bytes).based b) := by
  obtain ⟨bytes, hbytes, -, rfl⟩ := Assembler.op_eq_ok h
  have hlength := Line.length_of_instruction hbytes
  refine ⟨bytes, hlength, rfl, Assembler.op_of_room hbytes ?_⟩
  rw [hlength, Nat.add_assoc]
  exact Nat.le_succ_of_le hb

theorem size_write (s : Sketch) (bytes : List UInt8) :
    (s.write bytes).code.size = s.code.size + bytes.length :=
  Bytes.size_append_list s.code bytes

theorem alike_op (hs : s.Proper) (m : Cpu.Mnemonic) (o : Cpu.Operand)
    (hb : b.toNat + (s.code.size + (1 + o.bytes.length)) ≤ 65535) :
    Alike s a b (Assembler.op m o) (1 + o.bytes.length) := by
  intro t h
  obtain ⟨bytes, hlength, rfl, hrun⟩ := op_based hb h
  exact ⟨s.write bytes, hs.write bytes, hlength ▸ s.size_write bytes, rfl, hrun⟩

theorem alike_await (hs : s.Proper) (m : Cpu.Mnemonic) (o : Cpu.Operand) (l width : Nat)
    (kind : PatchKind) (hb : b.toNat + (s.code.size + (1 + o.bytes.length)) ≤ 65535) :
    Alike s a b (do Assembler.op m o; Assembler.await l kind width) (1 + o.bytes.length) := by
  intro t h
  obtain ⟨_, mid, hop, hawait⟩ := bind_eq_ok_iff.1 h
  obtain ⟨bytes, hlength, rfl, hop'⟩ := op_based hb hop
  cases hawait
  exact ⟨(s.write bytes).await l kind width, (hs.write bytes).await l kind width,
    hlength ▸ s.size_write bytes, rfl, bind_eq_ok_iff.2 ⟨(), _, hop', rfl⟩⟩

theorem alike_freshLabel (hs : s.Proper) : Alike s a b Order.freshLabel.run 0 := by
  intro t h
  obtain rfl := Assembler.freshLabel_eq_ok h
  rw [← based_fresh]
  exact ⟨s.fresh, hs.fresh, rfl, rfl, congrArg (EStateM.Result.ok ()) (s.based_fresh b).symm⟩

theorem alike_bind (hs : s.Proper) (l : Nat) : Alike s a b (Assembler.bind l) 0 := by
  intro t h
  obtain ⟨hnone, rfl⟩ := Assembler.bind_eq_ok h
  have hfree : (s.based b).label? l = some none := by
    rw [label?_based] at hnone ⊢
    obtain ⟨x, hx, hmap⟩ := Option.map_eq_some_iff.1 hnone
    rw [hx, Option.map_eq_none_iff.1 hmap]
    rfl
  refine ⟨s.bind l, hs.bind l, rfl, (s.based_bind l a).symm, ?_⟩
  rw [Assembler.bind_of_unbound hfree, based_bind]

/-- A branch to a bound label is the same instruction at both bases. -/
theorem alike_branchTo (hs : s.Proper) (m : Cpu.Mnemonic) (l : Nat)
    (ha : a.toNat + (s.code.size + 2) ≤ 65535) (hb : b.toNat + (s.code.size + 2) ≤ 65535) :
    Alike s a b (Assembler.branchTo m l) 2 := by
  intro t h
  have hlabel := s.label?_based a l
  have hlabel' := s.label?_based b l
  cases hoffset : s.offsets[l]? with
  | none =>
      rw [hoffset] at hlabel
      exact absurd (Assembler.lt_of_branchTo h) (Nat.not_lt.2 (Array.getElem?_eq_none_iff.1 hlabel))
  | some position =>
      rw [hoffset] at hlabel hlabel'
      cases position with
      | none =>
          rw [Assembler.branchTo_of_unbound hlabel] at h
          rw [Assembler.branchTo_of_unbound hlabel']
          exact alike_await hs m (.relative 0) l 1 .relative hb t h
      | some k =>
          rw [Assembler.branchTo_of_bound hlabel] at h
          obtain ⟨d, hd, hop⟩ := Assembler.branchAt_eq_ok h
          have hd' : displacement (s.based b).here (b + UInt16.ofNat k) = .ok d :=
            displacement_base (a := a) (b := b) (n := s.code.size) (by omega) (by omega)
              (Nat.le_refl _) (hs.bound l k hoffset) hd
          rw [Assembler.branchTo_of_bound hlabel', Assembler.branchAt_of_displacement hd']
          exact alike_op hs m (.relative d) hb t hop

/-- An order does at one base what it does at the other. -/
theorem alike_run {order : Order} (hs : s.Proper) (horder : ∀ m x, order ≠ .branchAt m x)
    (ha : a.toNat + (s.code.size + order.size) ≤ 65535)
    (hb : b.toNat + (s.code.size + order.size) ≤ 65535) : Alike s a b order.run order.size := by
  cases order with
  | op m o => exact alike_op hs m o hb
  | branchAt m x => exact absurd rfl (horder m x)
  | freshLabel => exact alike_freshLabel hs
  | bind l => exact alike_bind hs l
  | branchTo m l => exact alike_branchTo hs m l ha hb
  | jumpTo l => exact alike_await hs .jmp (.absolute 0) l 2 .absolute hb

end Sketch

namespace Order

/-- Control is passed through labels alone. -/
def LabelsOnly (orders : List Order) : Prop := ∀ m x, .branchAt m x ∉ orders

theorem LabelsOnly.cons {order : Order} {orders : List Order} (h : LabelsOnly (order :: orders)) :
    (∀ m x, order ≠ .branchAt m x) ∧ LabelsOnly orders := by
  refine ⟨fun m x he => ?_, fun m x hx => h m x (List.mem_cons_of_mem _ hx)⟩
  rw [he] at h
  exact h m x List.mem_cons_self

end Order

namespace Sketch

variable {s : Sketch} {a b : UInt16}

/-- A row of orders does at one base what it does at the other. -/
theorem alike_runAll {orders : List Order} (hs : s.Proper) (horders : Order.LabelsOnly orders)
    (ha : a.toNat + (s.code.size + Order.sizeAll orders) ≤ 65535)
    (hb : b.toNat + (s.code.size + Order.sizeAll orders) ≤ 65535) :
    Alike s a b (Order.runAll orders) (Order.sizeAll orders) := by
  induction orders generalizing s with
  | nil =>
      intro t h
      obtain ⟨-, rfl⟩ := pure_eq_ok_iff.1 h
      exact ⟨s, hs, rfl, rfl, rfl⟩
  | cons order orders ih =>
      intro t h
      rw [Order.sizeAll] at ha hb
      obtain ⟨_, mid, hrun, hrest⟩ := bind_eq_ok_iff.1 h
      obtain ⟨horder, horders⟩ := horders.cons
      obtain ⟨s₁, hs₁, hsize₁, rfl, hrun'⟩ :=
        alike_run hs horder (b := b) (by omega) (by omega) mid hrun
      obtain ⟨s₂, hs₂, hsize₂, rfl, hrest'⟩ := ih hs₁ horders (by omega) (by omega) t hrest
      refine ⟨s₂, hs₂, ?_, rfl, bind_eq_ok_iff.2 ⟨(), _, hrun', hrest'⟩⟩
      rw [hsize₂, hsize₁, Order.sizeAll, Nat.add_assoc]

theorem exists_patchBytes {p : Patch} {k : Nat} {bytes : List UInt8} {n : Nat}
    (ha : a.toNat + n ≤ 65535) (hb : b.toNat + n ≤ 65535) (hp : p.offset ≤ n) (hk : k ≤ n)
    (h : (s.based a).patchBytes p (a + UInt16.ofNat k) = .ok bytes) :
    ∃ bytes', (s.based b).patchBytes p (b + UInt16.ofNat k) = .ok bytes' := by
  unfold Assembler.patchBytes at h ⊢
  cases hkind : p.kind with
  | absolute => exact ⟨_, rfl⟩
  | relative =>
      rw [hkind] at h
      obtain ⟨d, hd, -⟩ := except_map_eq_ok_iff.1 h
      have hd' : displacement (b + UInt16.ofNat (p.offset - 1)) (b + UInt16.ofNat k) = .ok d :=
        displacement_base ha hb (Nat.le_trans (Nat.sub_le ..) hp) hk hd
      exact ⟨[d], except_map_eq_ok_iff.2 ⟨d, hd', rfl⟩⟩

/-- Operands that can be filled in at one base can be filled in at the other. -/
theorem exists_applyPatches (hs : s.Proper) (ha : a.toNat + s.code.size ≤ 65535)
    (hb : b.toNat + s.code.size ≤ 65535) {ps : List Patch} (hps : ∀ p ∈ ps, p.offset ≤ s.code.size)
    {code code' out : Bytes} (hsize : code'.size = code.size)
    (h : (s.based a).applyPatches ps code = .ok out) :
    ∃ out', (s.based b).applyPatches ps code' = .ok out' := by
  induction ps generalizing code code' with
  | nil => exact ⟨code', rfl⟩
  | cons p ps ih =>
      obtain ⟨hp, hps⟩ := List.forall_mem_cons.1 hps
      obtain ⟨mid, hmid, hrest⟩ := Assembler.applyPatches_append_iff.1
        (show (s.based a).applyPatches ([p] ++ ps) code = .ok out from h)
      rw [Assembler.applyPatches_singleton_iff] at hmid
      obtain ⟨target, bytes, htarget, hbytes, hput⟩ := Assembler.applyPatch_eq_ok hmid
      rw [label?_based] at htarget
      obtain ⟨position, hoffset, htarget⟩ := Option.map_eq_some_iff.1 htarget
      obtain ⟨k, rfl, rfl⟩ := Option.map_eq_some_iff.1 htarget
      obtain ⟨bytes', hbytes'⟩ := exists_patchBytes ha hb hp (hs.bound _ k hoffset) hbytes
      -- the operand is as wide at the other base, so there is room for it as well
      have hwidth : bytes'.length = bytes.length :=
        (Assembler.length_patchBytes hbytes').trans (Assembler.length_patchBytes hbytes).symm
      have hne : bytes ≠ [] := by
        intro hnil
        have hlength := Assembler.length_patchBytes hbytes
        rw [hnil] at hlength
        cases hkind : p.kind <;> rw [hkind] at hlength <;> cases hlength
      have hfit := Bytes.le_size_of_putAll? hput hne
      rw [← hwidth, ← hsize] at hfit
      obtain ⟨mid', hput'⟩ := Bytes.putAll?_eq_some hfit
      have hlabel' : (s.based b).label? p.label = some (some (b + UInt16.ofNat k)) := by
        rw [label?_based, hoffset]
        rfl
      have hsizes : mid'.size = mid.size := by
        rw [Bytes.size_of_putAll? hput', Bytes.size_of_putAll? hput, hsize]
      obtain ⟨out', hout'⟩ := ih hps hsizes hrest
      have hfirst : (s.based b).applyPatches [p] code' = .ok mid' :=
        Assembler.applyPatches_singleton_iff.2 (Assembler.applyPatch_of_put hlabel' hbytes' hput')
      refine ⟨out', ?_⟩
      show (s.based b).applyPatches ([p] ++ ps) code' = .ok out'
      exact Assembler.applyPatches_append_iff.2 ⟨mid', hfirst, hout'⟩

end Sketch

/-! ## Orders at two bases -/

namespace Order

/-- The segment of a row of orders at a base. -/
def assemble (base : UInt16) (orders : List Order) : Except (Stop AsmError) Segment :=
  match runAll orders { base := base } with
  | .ok () a => a.finish
  | .error s _ => .error s

theorem assemble_eq_ok_iff {base : UInt16} {orders : List Order} {segment : Segment} :
    assemble base orders = .ok segment ↔
      ∃ a, runAll orders { base := base } = .ok () a ∧ a.finish = .ok segment := by
  unfold assemble
  cases h : runAll orders { base := base } with
  | ok u a =>
      constructor
      · intro hfinish
        exact ⟨a, rfl, hfinish⟩
      · rintro ⟨a', ⟨⟩, hfinish⟩
        exact hfinish
  | error s a => simp

/-- Orders that can be assembled at one base can be assembled at the other. -/
theorem exists_assemble {orders : List Order} (horders : LabelsOnly orders) {a b : UInt16}
    (ha : a.toNat + sizeAll orders ≤ 65535) (hb : b.toNat + sizeAll orders ≤ 65535)
    {segment : Segment} (h : assemble a orders = .ok segment) :
    ∃ segment', assemble b orders = .ok segment' := by
  obtain ⟨t, hrun, hfinish⟩ := assemble_eq_ok_iff.1 h
  rw [← Sketch.based_empty] at hrun
  obtain ⟨s, hs, hsize, rfl, hrun'⟩ := Sketch.alike_runAll (b := b) Sketch.proper_empty horders
    (by simpa using ha) (by simpa using hb) t hrun
  have hsize : s.code.size = sizeAll orders := hsize.trans (Nat.zero_add _)
  rw [Sketch.based_empty] at hrun'
  obtain ⟨out, hout, -⟩ := Assembler.finish_eq_ok_iff.1 hfinish
  obtain ⟨out', hout'⟩ := Sketch.exists_applyPatches hs (hsize ▸ ha) (hsize ▸ hb) hs.inside rfl hout
  have hfinish' := Assembler.finish_eq_ok_iff (a := s.based b).2 ⟨out', hout', rfl⟩
  exact ⟨_, assemble_eq_ok_iff.2 ⟨_, hrun', hfinish'⟩⟩

/-- The same order at two bases, piece by piece. -/
theorem Lines.pieces {labels labels' : Nat → Option UInt16} {here delta : UInt16} {order : Order}
    {lines lines' : List Line} (h : Lines here order lines)
    (h' : Lines (here + delta) order lines') (horder : ∀ m x, order ≠ .branchAt m x)
    (hlabels : ∀ l x y, labels l = some x → labels' l = some y → y = x + delta)
    {bytes bytes' : List UInt8} (hbytes : Line.encodeAll? labels here lines = some bytes)
    (hbytes' : Line.encodeAll? labels' (here + delta) lines' = some bytes') (offset : Nat) :
    ∃ ps, Piece.bytesAll ps = bytes ∧ Piece.bytesAll (ps.map (Piece.shift delta)) = bytes' ∧
      Piece.offsets offset ps = jumpOperands offset [order] := by
  have hfixed : ∀ (order : Order) (bs : List UInt8), jumpOperands offset [order] = [] →
      ∃ ps, Piece.bytesAll ps = bs ∧ Piece.bytesAll (ps.map (Piece.shift delta)) = bs ∧
        Piece.offsets offset ps = jumpOperands offset [order] := by
    intro order bs hjumps
    refine ⟨[.fixed bs], List.append_nil bs, List.append_nil bs, ?_⟩
    rw [hjumps]
    rfl
  cases h with
  | op =>
      cases h'
      rw [Line.encodeAll?_singleton_iff] at hbytes hbytes'
      obtain rfl : bytes = bytes' := Option.some.inj (hbytes.symm.trans hbytes')
      exact hfixed _ bytes rfl
  | branchAt _ => exact absurd rfl (horder _ _)
  | freshLabel =>
      cases h'
      cases hbytes
      cases hbytes'
      exact hfixed _ [] rfl
  | bind =>
      cases h'
      cases Line.encodeAll?_singleton_iff.1 hbytes
      cases Line.encodeAll?_singleton_iff.1 hbytes'
      exact hfixed _ [] rfl
  | @branchTo m l =>
      cases h'
      obtain ⟨x, hx, hencode⟩ :=
        Option.bind_eq_some_iff.1 (Line.encodeAll?_singleton_iff.1 hbytes)
      obtain ⟨d, hd, hencode⟩ := Option.bind_eq_some_iff.1 hencode
      obtain ⟨y, hy, hencode'⟩ :=
        Option.bind_eq_some_iff.1 (Line.encodeAll?_singleton_iff.1 hbytes')
      obtain ⟨d', hd', hencode'⟩ := Option.bind_eq_some_iff.1 hencode'
      obtain rfl := hlabels l x y hx hy
      rw [toOption_eq_some_iff] at hd hd'
      obtain rfl := displacement_unique hd hd'
      obtain rfl : bytes = bytes' := Option.some.inj (hencode.symm.trans hencode')
      exact hfixed _ bytes rfl
  | @jumpTo l =>
      cases h'
      obtain ⟨x, hx, hencode⟩ :=
        Option.bind_eq_some_iff.1 (Line.encodeAll?_singleton_iff.1 hbytes)
      obtain ⟨y, hy, hencode'⟩ :=
        Option.bind_eq_some_iff.1 (Line.encodeAll?_singleton_iff.1 hbytes')
      obtain rfl := hlabels l x y hx hy
      cases hencode
      cases hencode'
      exact ⟨[.fixed [0x4C], .address x], rfl, rfl, rfl⟩

/-- The same orders at two bases, piece by piece. -/
theorem LinesAll.pieces {labels labels' : Nat → Option UInt16} {here delta : UInt16}
    {orders : List Order} {lines lines' : List Line} (h : LinesAll here orders lines)
    (h' : LinesAll (here + delta) orders lines') (horders : LabelsOnly orders)
    (hlabels : ∀ l x y, labels l = some x → labels' l = some y → y = x + delta)
    {bytes bytes' : List UInt8} (hbytes : Line.encodeAll? labels here lines = some bytes)
    (hbytes' : Line.encodeAll? labels' (here + delta) lines' = some bytes') (offset : Nat) :
    ∃ ps, Piece.bytesAll ps = bytes ∧ Piece.bytesAll (ps.map (Piece.shift delta)) = bytes' ∧
      Piece.offsets offset ps = jumpOperands offset orders := by
  induction h generalizing lines' bytes bytes' offset with
  | nil =>
      cases h'
      cases hbytes
      cases hbytes'
      exact ⟨[], rfl, rfl, rfl⟩
  | @cons here order orders front rest hfront hrest ih =>
      cases h' with
      | @cons _ _ _ front' rest' hfront' hrest' =>
          obtain ⟨bs, bs₁, hbs, hbs₁, rfl⟩ := Line.encodeAll?_append_iff.1 hbytes
          obtain ⟨bs', bs₁', hbs', hbs₁', rfl⟩ := Line.encodeAll?_append_iff.1 hbytes'
          rw [hfront.sizeAll_eq] at hbs₁
          have hplace : here + delta + UInt16.ofNat order.size =
              here + UInt16.ofNat order.size + delta := by grind
          rw [hfront'.sizeAll_eq, hplace] at hbs₁'
          rw [hplace] at hrest'
          obtain ⟨horder, horders⟩ := horders.cons
          obtain ⟨ps, hps, hps', hoffsets⟩ := hfront.pieces hfront' horder hlabels hbs hbs' offset
          obtain ⟨qs, hqs, hqs', hoffsets'⟩ :=
            ih hrest' horders hbs₁ hbs₁' (offset + order.size)
          refine ⟨ps ++ qs, ?_, ?_, ?_⟩
          · rw [Piece.bytesAll_append, hps, hqs]
          · rw [List.map_append, Piece.bytesAll_append, hps', hqs']
          · have hlength : (Piece.bytesAll ps).length = order.size := by
              rw [hps, Line.length_of_encodeAll? hbs, hfront.sizeAll_eq]
            rw [Piece.offsets_append, hlength, hoffsets, hoffsets', ← jumpOperands_cons]

/-- A label of a row of orders has the address of its place. -/
theorem address?_of_runAll {base : UInt16} {orders : List Order} {t : Assembler}
    (h : runAll orders { base := base } = .ok () t) {l : Nat} {x : UInt16} :
    t.address? l = some x ↔
      ∃ offset, At orders offset (.bind l) ∧ x = base + UInt16.ofNat offset := by
  rw [(ran_of_runAll h).bound, Assembler.here_empty]
  refine or_iff_right fun hx => ?_
  cases hx

/-- Segments of the same orders at two bases consist of the same pieces, moved
by the distance of the bases. -/
theorem pieces_of_assemble {orders : List Order} (horders : LabelsOnly orders) {a b : UInt16}
    {segment segment' : Segment} (h : assemble a orders = .ok segment)
    (h' : assemble b orders = .ok segment') :
    ∃ ps, segment.Laid ps ∧ segment'.Laid (ps.map (Piece.shift (b - a))) ∧ segment.origin = a ∧
      segment'.origin = b := by
  obtain ⟨s, hrun, hfinish⟩ := assemble_eq_ok_iff.1 h
  obtain ⟨s', hrun', hfinish'⟩ := assemble_eq_ok_iff.1 h'
  obtain ⟨horigin, hrelocations⟩ := relocations_of_finish hrun hfinish
  obtain ⟨horigin', hrelocations'⟩ := relocations_of_finish hrun' hfinish'
  obtain ⟨lines, hlines, hbytes, -⟩ := encoded_of_runAll hrun hfinish
  obtain ⟨lines', hlines', hbytes', -⟩ := encoded_of_runAll hrun' hfinish'
  have hlabels : ∀ l x y, s.address? l = some x → s'.address? l = some y → y = x + (b - a) := by
    intro l x y hx hy
    obtain ⟨offset, hat, rfl⟩ := (address?_of_runAll hrun').1 hy
    have hplace := (address?_of_runAll hrun).2 ⟨offset, hat, rfl⟩
    obtain rfl := Option.some.inj (hx.symm.trans hplace)
    grind
  have hbase : a + (b - a) = b := by grind
  rw [← hbase] at hlines' hbytes'
  obtain ⟨ps, hps, hps', hoffsets⟩ := hlines.pieces hlines' horders hlabels hbytes hbytes' 0
  refine ⟨ps, ⟨?_, ?_⟩, ⟨?_, ?_⟩, horigin, horigin'⟩
  · rw [hps]
  · rw [hrelocations, hoffsets]
  · rw [hps']
  · rw [hrelocations', Piece.offsets_shift, hoffsets]

/-- Moving a segment gives the one that is assembled at the other base. -/
theorem moveTo_of_assemble {orders : List Order} (horders : LabelsOnly orders) {a b : UInt16}
    {segment segment' : Segment} (h : assemble a orders = .ok segment)
    (h' : assemble b orders = .ok segment') : segment.moveTo b = .ok segment' := by
  obtain ⟨ps, hlaid, hlaid', horigin, horigin'⟩ := pieces_of_assemble horders h h'
  rw [hlaid.moveTo, horigin, ← hlaid'.bytes, hlaid.relocations, ← Piece.offsets_shift (b - a),
    ← hlaid'.relocations, ← horigin']

/-- A segment of orders that name no address can be moved anywhere, in one move or
in many. -/
theorem moveThrough_of_assemble {orders : List Order} (horders : LabelsOnly orders) {base : UInt16}
    {segment : Segment} (h : assemble base orders = .ok segment) (via : List UInt16)
    (last : UInt16) :
    ∃ moved, segment.moveTo last = .ok moved ∧ segment.moveThrough (via ++ [last]) = .ok moved := by
  obtain ⟨ps, hlaid, -⟩ := pieces_of_assemble horders h h
  rw [hlaid.moveThrough via last]
  exact ⟨_, hlaid.moveTo last, hlaid.moveTo last⟩

end Order

end Cartridge
