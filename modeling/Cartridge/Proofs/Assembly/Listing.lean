/-
# `Cartridge.Proofs.Assembly.Listing` — a segment holds exactly what was ordered

The bytes of a finished segment, read back one instruction behind the other,
are a listing of the orders:

    order             its instructions at address `here`
    op m o            m o
    branchAt m a      m d, where the next instruction is `d` bytes before `a`
    freshLabel        none
    bind l            none, and `here` is the address of `l`
    branchTo m l      m d, where the next instruction is `d` bytes before `l`
    jumpTo l          JMP to the address of `l`

A branch does not show whether its label was bound before it or behind it.

Proved here: a segment disassembles into a listing of its orders, its
relocations are the operands of its jumps, and it can be finished unless a label
has no address or is out of reach (`listed_of_runAll`).
-/
import Cartridge.Proofs.Assembly.Orders
import Cartridge.Proofs.Cpu.Decode

namespace Cartridge

/-! ## Displacements -/

theorem toInt_toInt8 (d : UInt8) :
    d.toInt8.toInt = if d.toNat < 128 then (d.toNat : Int) else d.toNat - 256 := by
  show d.toBitVec.toInt = _
  rw [BitVec.toInt_eq_toNat_cond, UInt8.toNat_toBitVec]
  split <;> split <;> omega

/-- A branch at `source` over the signed byte `d` leads to `target`. -/
def Leads (source : UInt16) (d : UInt8) (target : UInt16) : Prop :=
  (source.toNat + 2 : Int) + d.toInt8.toInt = target.toNat

/-- A branch at `source` reaches `target`: from the next instruction it is 128
bytes back or 127 bytes on at most. -/
def Reaches (source target : UInt16) : Prop :=
  -128 ≤ (target.toNat : Int) - (source.toNat + 2) ∧
    (target.toNat : Int) - (source.toNat + 2) ≤ 127

theorem displacement_eq_ok_iff {source target : UInt16} {d : UInt8} :
    displacement source target = .ok d ↔ Leads source d target := by
  have hd := d.toNat_lt
  rw [Leads, toInt_toInt8]
  unfold displacement
  dsimp only
  split
  · next hdelta =>
      rw [Except.ok.injEq, ← UInt8.toNat_inj, UInt8.toNat_ofNat']
      split <;> omega
  · next hdelta =>
      refine ⟨fun h => (nomatch h), fun h => absurd ?_ hdelta⟩
      split at h <;> omega

theorem Leads.reaches {source target : UInt16} {d : UInt8} (h : Leads source d target) :
    Reaches source target := by
  have hlow := d.toInt8.le_toInt
  have hhigh := d.toInt8.toInt_lt
  unfold Leads at h
  unfold Reaches
  omega

theorem Reaches.exists_displacement {source target : UInt16} (h : Reaches source target) :
    ∃ d, displacement source target = .ok d :=
  ⟨_, if_pos h⟩

namespace Order

/-! ## Listings -/

/-- The instructions that an order at `here` stands for, with labels at given
addresses. -/
inductive Means (labels : Nat → Option UInt16) (here : UInt16) :
    Order → List (Cpu.Mnemonic × Cpu.Operand) → Prop where
  | op {m : Cpu.Mnemonic} {o : Cpu.Operand} : Means labels here (.op m o) [(m, o)]
  | branchAt {m : Cpu.Mnemonic} {target : UInt16} {d : UInt8} (h : Leads here d target) :
      Means labels here (.branchAt m target) [(m, .relative d)]
  | freshLabel : Means labels here .freshLabel []
  | bind {l : Nat} (hl : labels l = some here) : Means labels here (.bind l) []
  | branchTo {m : Cpu.Mnemonic} {l : Nat} {target : UInt16} {d : UInt8}
      (hl : labels l = some target) (h : Leads here d target) :
      Means labels here (.branchTo m l) [(m, .relative d)]
  | jumpTo {l : Nat} {target : UInt16} (hl : labels l = some target) :
      Means labels here (.jumpTo l) [(.jmp, .absolute target)]

/-- The instructions that orders from `here` on stand for. -/
inductive Listing (labels : Nat → Option UInt16) :
    UInt16 → List Order → List (Cpu.Mnemonic × Cpu.Operand) → Prop where
  | nil {here : UInt16} : Listing labels here [] []
  | cons {here : UInt16} {order : Order} {orders : List Order}
      {front rest : List (Cpu.Mnemonic × Cpu.Operand)} (h : Means labels here order front)
      (h' : Listing labels (here + UInt16.ofNat order.size) orders rest) :
      Listing labels here (order :: orders) (front ++ rest)

variable {labels : Nat → Option UInt16} {here : UInt16}

/-- The bytes of one order are read back. -/
theorem Lines.listed {order : Order} {lines : List Line} (h : Lines here order lines)
    {bytes : List UInt8} (hbytes : Line.encodeAll? labels here lines = some bytes)
    (hmark : ∀ l, order = .bind l → labels l = some here) :
    ∃ front, Means labels here order front ∧
      ∀ rest, Cpu.disassemble (bytes ++ rest) = (Cpu.disassemble rest).map (front ++ ·) := by
  cases h with
  | op => exact ⟨_, .op, Cpu.disassemble_append (Line.encodeAll?_singleton_iff.1 hbytes)⟩
  | branchAt hd =>
      exact ⟨_, .branchAt (displacement_eq_ok_iff.1 hd),
        Cpu.disassemble_append (Line.encodeAll?_singleton_iff.1 hbytes)⟩
  | freshLabel =>
      cases hbytes
      exact ⟨[], .freshLabel, fun rest => by simp⟩
  | @bind l =>
      cases Line.encodeAll?_singleton_iff.1 hbytes
      exact ⟨[], .bind (hmark l rfl), fun rest => by simp⟩
  | branchTo =>
      obtain ⟨target, htarget, hencode⟩ :=
        Option.bind_eq_some_iff.1 (Line.encodeAll?_singleton_iff.1 hbytes)
      obtain ⟨d, hd, hencode⟩ := Option.bind_eq_some_iff.1 hencode
      rw [toOption_eq_some_iff] at hd
      exact ⟨_, .branchTo htarget (displacement_eq_ok_iff.1 hd), Cpu.disassemble_append hencode⟩
  | jumpTo =>
      obtain ⟨target, htarget, hencode⟩ :=
        Option.bind_eq_some_iff.1 (Line.encodeAll?_singleton_iff.1 hbytes)
      exact ⟨_, .jumpTo htarget, Cpu.disassemble_append hencode⟩

/-- The bytes of orders are read back. -/
theorem LinesAll.listed {orders : List Order} {lines : List Line} (h : LinesAll here orders lines)
    {bytes : List UInt8} (hbytes : Line.encodeAll? labels here lines = some bytes)
    (hmarked : ∀ pre l post, lines = pre ++ .mark l :: post →
      labels l = some (here + UInt16.ofNat (Line.sizeAll pre))) :
    ∃ listing, Cpu.disassemble bytes = some listing ∧ Listing labels here orders listing := by
  induction h generalizing bytes with
  | nil =>
      cases hbytes
      exact ⟨[], Cpu.disassemble_nil, .nil⟩
  | @cons here order orders lines lines' hlines hrest ih =>
      obtain ⟨front, rest, hfront, hback, rfl⟩ := Line.encodeAll?_append_iff.1 hbytes
      rw [hlines.sizeAll_eq] at hback
      have hmark : ∀ l, order = .bind l → labels l = some here := by
        rintro l rfl
        cases hlines
        have hzero := hmarked [] l lines' rfl
        rwa [Line.sizeAll_nil, add_ofNat_zero] at hzero
      obtain ⟨instrs, hmeans, hread⟩ := hlines.listed hfront hmark
      obtain ⟨listing, hlisting, hrestListing⟩ := ih hback fun pre l post hpost => by
        have hlabel := hmarked (lines ++ pre) l post (by rw [hpost, List.append_assoc])
        rwa [Line.sizeAll_append, hlines.sizeAll_eq, ← add_ofNat_add_ofNat] at hlabel
      refine ⟨instrs ++ listing, ?_, .cons hmeans hrestListing⟩
      rw [hread, hlisting]
      rfl

/-- Each order of a listing means its instructions at its own place. -/
theorem Listing.means {orders : List Order} {listing : List (Cpu.Mnemonic × Cpu.Operand)}
    (h : Listing labels here orders listing) {offset : Nat} {order : Order}
    (hat : At orders offset order) :
    ∃ front, Means labels (here + UInt16.ofNat offset) order front := by
  induction h generalizing offset with
  | nil => exact absurd hat at_nil
  | cons hmeans _ ih =>
      rcases at_cons.1 hat with ⟨rfl, rfl⟩ | ⟨k, hk, rfl⟩
      · rw [add_ofNat_zero]
        exact ⟨_, hmeans⟩
      · obtain ⟨front, hfront⟩ := ih hk
        rw [add_ofNat_add_ofNat] at hfront
        exact ⟨front, hfront⟩

theorem Means.target {order : Order} {front : List (Cpu.Mnemonic × Cpu.Operand)}
    (h : Means labels here order front) {l : Nat} (hl : order.target? = some l) :
    ∃ x, labels l = some x := by
  cases h with
  | branchTo htarget _ =>
      cases hl
      exact ⟨_, htarget⟩
  | jumpTo htarget =>
      cases hl
      exact ⟨_, htarget⟩
  | _ => cases hl

theorem exists_at {orders : List Order} {order : Order} (h : order ∈ orders) :
    ∃ offset, At orders offset order := by
  obtain ⟨pre, post, rfl⟩ := List.append_of_mem h
  exact ⟨_, pre, post, rfl, rfl⟩

/-! ## Finishing -/

/-- A label that an order refers to has no address. -/
def Unbound (orders : List Order) (a : Assembler) : Prop :=
  ∃ order ∈ orders, ∃ l, order.target? = some l ∧ a.address? l = none

/-- The label of a branch is out of its reach. -/
def OutOfReach (base : UInt16) (orders : List Order) (a : Assembler) : Prop :=
  ∃ offset m l x, At orders offset (.branchTo m l) ∧ a.address? l = some x ∧
    ¬ Reaches (base + UInt16.ofNat offset) x

/-- An operand that cannot be filled in has a label without an address, or one
that is out of reach. -/
theorem Awaits.unfillable {base : UInt16} {orders : List Order} {a : Assembler}
    (hbase : a.base = base) {offset : Nat} {order : Order} {p : Patch}
    (h : order.Awaits offset p) (hat : At orders offset order) (hnot : ¬ a.Fillable p) :
    Unbound orders a ∨ OutOfReach base orders a := by
  cases order with
  | branchTo m l =>
      subst h
      cases haddress : a.address? l with
      | none => exact .inl ⟨_, hat.mem, l, rfl, haddress⟩
      | some x =>
          refine .inr ⟨offset, m, l, x, hat, haddress, fun hreaches => hnot ?_⟩
          obtain ⟨d, hd⟩ := hreaches.exists_displacement
          refine ⟨x, [d], haddress, except_map_eq_ok_iff.2 ⟨d, ?_, rfl⟩⟩
          rw [hbase]
          exact hd
  | jumpTo l =>
      subst h
      cases haddress : a.address? l with
      | none => exact .inl ⟨_, hat.mem, l, rfl, haddress⟩
      | some x => exact absurd ⟨x, wordBytes x, haddress, rfl⟩ hnot
  | _ => cases h

/-- Only a jump waits for a label that was never handed out. -/
theorem Awaits.jump_of_unknown {orders : List Order} {a a' : Assembler} {offset : Nat}
    {order : Order} {p : Patch} (h : order.Awaits offset p) (hrun : runAll orders a = .ok () a')
    (hat : At orders offset order) (hunknown : a'.labels.size ≤ p.label) :
    ∃ l, .jumpTo l ∈ orders ∧ a'.labels.size ≤ l := by
  cases order with
  | branchTo m l =>
      subst h
      exact absurd (lt_of_branchTo_mem hrun hat.mem) (Nat.not_lt_of_le hunknown)
  | jumpTo l =>
      subst h
      exact ⟨l, hat.mem, hunknown⟩
  | _ => cases h

/-- The bytes of a finished row of orders are read back as a listing of them. -/
theorem listing_of_finish {base : UInt16} {orders : List Order} {a : Assembler}
    (h : runAll orders { base := base } = .ok () a) {segment : Segment}
    (hfinish : a.finish = .ok segment) :
    ∃ listing, Cpu.disassemble segment.bytes.toList = some listing ∧
      Listing a.address? base orders listing := by
  obtain ⟨lines, hlines, hbytes, hmarked⟩ := encoded_of_runAll h hfinish
  exact hlines.listed hbytes hmarked

/-- The relocations of a segment are the operands of its jumps to labels. -/
theorem relocations_of_finish {base : UInt16} {orders : List Order} {a : Assembler}
    (h : runAll orders { base := base } = .ok () a) {segment : Segment}
    (hfinish : a.finish = .ok segment) :
    segment.origin = base ∧ segment.relocations = jumpOperands 0 orders := by
  have hran := ran_of_runAll h
  obtain ⟨ps, hps, hjumps, -⟩ := hran.awaits
  obtain ⟨code, -, rfl⟩ := Assembler.finish_eq_ok_iff.1 hfinish
  refine ⟨hran.base, ?_⟩
  show (a.patches.toList.filter _).map _ = _
  rw [hps]
  exact hjumps

/-- The assembler encodes exactly what was ordered.  A label has the address of
the place where it is bound; the bytes of a finished segment disassemble into a
listing of the orders, with a relocation for each jump to a label; and finishing
fails if and only if a label that is referred to has no address or a branch does
not reach it.  It fails with an error then, unless a jump refers to a label that
was never handed out. -/
theorem listed_of_runAll {base : UInt16} {orders : List Order} {a : Assembler}
    (h : runAll orders { base := base } = .ok () a) :
    (∀ l x, a.address? l = some x ↔
      ∃ offset, At orders offset (.bind l) ∧ x = base + UInt16.ofNat offset) ∧
    (∀ segment, a.finish = .ok segment →
      segment.origin = base ∧ segment.relocations = jumpOperands 0 orders ∧
      ∃ listing, Cpu.disassemble segment.bytes.toList = some listing ∧
        Listing a.address? base orders listing) ∧
    ((∃ s, a.finish = .error s) ↔ Unbound orders a ∨ OutOfReach base orders a) ∧
    ∀ f, a.finish = .error (.fault f) →
      f = .outOfRange ∧ ∃ l, .jumpTo l ∈ orders ∧ a.labels.size ≤ l := by
  have hran := ran_of_runAll h
  refine ⟨fun l x => ?_, fun segment hfinish => ?_, ⟨?_, fun hbad => ?_⟩, fun f hfault => ?_⟩
  · rw [hran.bound, Assembler.here_empty]
    exact or_iff_right fun hx => (nomatch hx)
  · obtain ⟨horigin, hrelocations⟩ := relocations_of_finish h hfinish
    exact ⟨horigin, hrelocations, listing_of_finish h hfinish⟩
  · rintro ⟨s, hstop⟩
    rcases finish_cases h with ⟨segment, hsegment⟩ | ⟨p, offset, order, hat, hawait, _, hs, -⟩
    · cases hstop.symm.trans hsegment
    · exact hawait.unfillable hran.base hat hs.not_fillable
  · rcases finish_cases h with ⟨segment, hsegment⟩ | ⟨_, _, _, -, -, s, -, hstop⟩
    · -- a finished segment has a listing, where every label is bound and in reach
      obtain ⟨listing, -, hlisting⟩ := listing_of_finish h hsegment
      rcases hbad with ⟨order, hmem, l, hl, hnone⟩ | ⟨offset, m, l, x, hat, hx, hnot⟩
      · obtain ⟨offset, hat⟩ := exists_at hmem
        obtain ⟨front, hmeans⟩ := hlisting.means hat
        obtain ⟨x, hx⟩ := hmeans.target hl
        cases hnone.symm.trans hx
      · obtain ⟨front, hmeans⟩ := hlisting.means hat
        cases hmeans with
        | branchTo htarget hleads =>
            obtain rfl := Option.some.inj (hx.symm.trans htarget)
            exact absurd hleads.reaches hnot
    · exact ⟨s, hstop⟩
  · rcases finish_cases h with ⟨segment, hsegment⟩ | ⟨p, offset, order, hat, hawait, s, hs, hstop⟩
    · cases hfault.symm.trans hsegment
    · cases hfault.symm.trans hstop
      cases hs with
      | unknown hle => exact ⟨rfl, hawait.jump_of_unknown h hat hle⟩

/-- A routine with a branch back, one on, one to an address, and jumps to labels
on both sides. -/
def countdown : List Order := [
  .freshLabel, .freshLabel, .op .ldx (.immediate 8), .bind 0, .op .dex .implied, .branchTo .bne 0,
  .branchTo .beq 1, .jumpTo 1, .branchAt .bcc 0xC000, .op .sta (.absoluteX 0x0200), .bind 1,
  .jumpTo 0]

theorem listed_countdown :
    ∃ a segment, runAll countdown { base := 0xC000 } = .ok () a ∧ a.finish = .ok segment ∧
      (∀ l x, a.address? l = some x ↔
        ∃ offset, At countdown offset (.bind l) ∧ x = 0xC000 + UInt16.ofNat offset) ∧
      segment.relocations = jumpOperands 0 countdown ∧
      (∃ listing, Cpu.disassemble segment.bytes.toList = some listing ∧
        Listing a.address? 0xC000 countdown listing) ∧
      ¬ (Unbound countdown a ∨ OutOfReach 0xC000 countdown a) := by
  obtain ⟨a, _, hboth, htest⟩ := exists_of_yields (show yields (do runAll countdown; get)
    { base := 0xC000 } (fun a => a.finish.toOption.isSome) = true by decide +kernel)
  obtain ⟨segment, hsegment⟩ := Option.isSome_iff_exists.1 htest
  rw [toOption_eq_some_iff] at hsegment
  obtain ⟨_, _, hrun, ⟨⟩⟩ := bind_eq_ok_iff.1 hboth
  obtain ⟨hbound, hlisted, hfails, -⟩ := listed_of_runAll hrun
  obtain ⟨-, hrelocations, hlisting⟩ := hlisted segment hsegment
  refine ⟨a, segment, hrun, hsegment, hbound, hrelocations, hlisting, fun hbad => ?_⟩
  obtain ⟨s, hstop⟩ := hfails.2 hbad
  cases hstop.symm.trans hsegment

end Order

end Cartridge
