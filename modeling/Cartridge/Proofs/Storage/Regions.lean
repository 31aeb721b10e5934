/-
# `Cartridge.Proofs.Storage.Regions` — what storage has handed out

Storage is two counters and a list of all that they have handed out.  The
counters are never told anything but sizes, so the list can be read back from
them.  Whatever was asked for, and whatever was refused in between:

    row      the allocations of a region, oldest first, lie one behind the other
             from the start of the region up to its counter, without gaps (`Row`)
    room     the counter does not pass the end of the region
    fixed    a symbol with an address of its own has it, and ends in the address
             space

All else follows from rows: they lie inside their regions, no two allocations
in one row share a byte, and the two regions are apart.  An allocation without bytes
takes no room, so it may come when its region is full: its address is the first one
past the region then.

Proved here: one allocation keeps this (`Sound.grant`), and so does a list of
symbols, taken in order until one is refused (`allocateAll_spec`); which one is
refused, and why, is settled by the sizes of the symbols before it
(`allocateAll_error_iff`).
-/
import Cartridge.Proofs.Success
import Cartridge.Proofs.Ty.Extent
import Cartridge.Storage

namespace Cartridge

/-! ## Regions -/

namespace Placement

/-- Does the placement name an address of its own? -/
def isFixed : Placement → Bool
  | .fixed _ => true
  | _ => false

/-- The first address that a symbol of this placement may have. -/
def start : Placement → Nat
  | .auto => 0x0300
  | .zeroPage => 0x0010
  | .fixed address => address.toNat

/-- The first address past the region of this placement. -/
def stop : Placement → Nat
  | .auto => 0x0800
  | .zeroPage => 0x0100
  | .fixed _ => 0x10000

end Placement

namespace Allocation

/-- The addresses of an allocation. -/
def range (a : Allocation) : List Nat := List.range' a.address.toNat a.size

/-- The symbol of an allocation, with its block. -/
def entry (a : Allocation) : BlockId × Symbol := (a.owner, a.symbol)

/-- The allocation lies from `start` on and ends at `stop` or before.  Its address
is below `stop`, unless it has no bytes. -/
def Between (a : Allocation) (start stop : Nat) : Prop :=
  start ≤ a.address.toNat ∧ a.address.toNat + a.size ≤ stop ∧
    (a.size = 0 ∨ a.address.toNat < stop)

/-- The allocation has the size of its type and lies where its placement wants
it. -/
def Lies (a : Allocation) : Prop :=
  a.symbol.ty.size = .ok a.size ∧
    match a.symbol.placement with
    | .auto => a.Between 0x0300 0x0800
    | .zeroPage => a.Between 0x0010 0x0100
    | .fixed address => a.address = address ∧ address.toNat + a.size ≤ 0x10000

/-- Allocations that chose no address of their own share no byte. -/
def Apart (a b : Allocation) : Prop :=
  a.symbol.placement.isFixed = false → b.symbol.placement.isFixed = false →
    ∀ k ∈ a.range, k ∉ b.range

end Allocation

/-- Allocations one behind the other, without gaps, from `start` to `stop`. -/
def Row (start : Nat) : List Allocation → Nat → Prop
  | [], stop => start = stop
  | a :: as, stop => a.address.toNat = start ∧ Row (start + a.size) as stop

namespace Row

variable {start mid stop : Nat} {as bs : List Allocation}

theorem append (h : Row start as mid) (h' : Row mid bs stop) : Row start (as ++ bs) stop := by
  induction as generalizing start with
  | nil =>
      obtain rfl : start = mid := h
      exact h'
  | cons a as ih => exact ⟨h.1, ih h.2⟩

theorem le (h : Row start as stop) : start ≤ stop := by
  induction as generalizing start with
  | nil => exact Nat.le_of_eq h
  | cons a as ih => exact Nat.le_trans (Nat.le_add_right ..) (ih h.2)

/-- A row ends behind each of its allocations. -/
theorem inside (h : Row start as stop) {a : Allocation} (ha : a ∈ as) :
    start ≤ a.address.toNat ∧ a.address.toNat + a.size ≤ stop := by
  induction as generalizing start with
  | nil => cases ha
  | cons b as ih =>
      rcases List.mem_cons.1 ha with rfl | ha
      · rw [h.1]
        exact ⟨Nat.le_refl _, h.2.le⟩
      · obtain ⟨hstart, hstop⟩ := ih h.2 ha
        exact ⟨Nat.le_trans (Nat.le_add_right ..) hstart, hstop⟩

/-- Of two allocations in a row the first ends before the second starts. -/
theorem pairwise (h : Row start as stop) :
    as.Pairwise fun a b => a.address.toNat + a.size ≤ b.address.toNat := by
  induction as generalizing start with
  | nil => exact .nil
  | cons a as ih =>
      refine List.pairwise_cons.2 ⟨fun b hb => ?_, ih h.2⟩
      rw [h.1]
      exact (h.2.inside hb).1

end Row

namespace Storage

/-! ## One symbol -/

/-- The first free address for a placement. -/
def next (s : Storage) : Placement → Nat
  | .auto => s.ramNext
  | .zeroPage => s.zeroPageNext
  | .fixed address => address.toNat

/-- The counters after `n` bytes are taken for a placement. -/
def take (s : Storage) (n : Nat) : Placement → Storage
  | .auto => { s with ramNext := s.ramNext + n }
  | .zeroPage => { s with zeroPageNext := s.zeroPageNext + n }
  | .fixed _ => s

/-- The storage after a symbol of `n` bytes has got its address. -/
def grant (s : Storage) (owner : BlockId) (symbol : Symbol) (n : Nat) : Storage :=
  { s.take n symbol.placement with
    allocations := ⟨owner, symbol, n, UInt16.ofNat (s.next symbol.placement)⟩ :: s.allocations }

/-- A symbol of `n` bytes fits its region. -/
def Fits (s : Storage) (symbol : Symbol) (n : Nat) : Prop :=
  s.next symbol.placement + n ≤ symbol.placement.stop

theorem reserve_eq (s : Storage) (n : Nat) (p : Placement) :
    s.reserve n p =
      if s.next p + n ≤ p.stop then some (UInt16.ofNat (s.next p), s.take n p) else none := by
  cases p with
  | fixed address =>
      rw [next, UInt16.ofNat_toNat]
      rfl
  | auto => rfl
  | zeroPage => rfl

theorem allocations_take (s : Storage) (n : Nat) (p : Placement) :
    (s.take n p).allocations = s.allocations := by
  cases p <;> rfl

theorem next_take_self (s : Storage) (n : Nat) {p : Placement} (hp : p.isFixed = false) :
    (s.take n p).next p = s.next p + n := by
  cases p with
  | fixed address => cases hp
  | auto => rfl
  | zeroPage => rfl

theorem next_take_other (s : Storage) (n : Nat) {p q : Placement} (h : p ≠ q) :
    (s.take n p).next q = s.next q := by
  cases p <;> cases q <;> first | rfl | exact absurd rfl h

theorem next_grant (s : Storage) (owner : BlockId) (symbol : Symbol) (n : Nat) (p : Placement) :
    (s.grant owner symbol n).next p = (s.take n symbol.placement).next p := by
  cases p <;> rfl

/-! ## The invariant -/

/-- The allocations of a placement, oldest first. -/
def history (s : Storage) (p : Placement) : List Allocation :=
  s.allocations.reverse.filter fun a => a.symbol.placement = p

/-- What holds of storage, whatever was asked for. -/
structure Sound (s : Storage) : Prop where
  row : ∀ p, p.isFixed = false → Row p.start (s.history p) (s.next p)
  room : ∀ p, p.isFixed = false → s.next p ≤ p.stop
  fixed : ∀ a ∈ s.allocations, ∀ address, a.symbol.placement = .fixed address →
    a.address = address ∧ address.toNat + a.size ≤ 0x10000
  sized : ∀ a ∈ s.allocations, a.symbol.ty.size = .ok a.size

theorem sound_empty : ({} : Storage).Sound := by
  refine ⟨fun p hp => ?_, fun p hp => ?_, fun a ha => ?_, fun a ha => ?_⟩
  · cases p with
    | fixed address => cases hp
    | auto => rfl
    | zeroPage => rfl
  · cases p with
    | fixed address => cases hp
    | auto => decide
    | zeroPage => decide
  · cases ha
  · cases ha

theorem Sound.toNat_next {s : Storage} (h : s.Sound) (p : Placement) :
    (UInt16.ofNat (s.next p)).toNat = s.next p := by
  have hlt : s.next p < 65536 := by
    cases p with
    | fixed address => exact address.toNat_lt
    | auto => exact Nat.lt_of_le_of_lt (h.room .auto rfl) (by decide)
    | zeroPage => exact Nat.lt_of_le_of_lt (h.room .zeroPage rfl) (by decide)
  exact UInt16.toNat_ofNat_of_lt hlt

theorem history_grant (s : Storage) (owner : BlockId) (symbol : Symbol) (n : Nat) (p : Placement) :
    (s.grant owner symbol n).history p = s.history p ++
      [⟨owner, symbol, n, UInt16.ofNat (s.next symbol.placement)⟩].filter
        (fun a : Allocation => a.symbol.placement = p) := by
  rw [history, grant, List.reverse_cons, List.filter_append]
  rfl

/-- A new allocation is the end of the row of its placement. -/
theorem Sound.row_grant {s : Storage} (h : s.Sound) (owner : BlockId) (symbol : Symbol) (n : Nat)
    {p : Placement} (hp : p.isFixed = false) :
    Row (s.next p)
      ([⟨owner, symbol, n, UInt16.ofNat (s.next symbol.placement)⟩].filter
        (fun a : Allocation => a.symbol.placement = p))
      ((s.grant owner symbol n).next p) := by
  rw [next_grant]
  by_cases hplacement : symbol.placement = p
  · subst hplacement
    rw [next_take_self s n hp]
    simp only [decide_true, List.filter_cons_of_pos, List.filter_nil]
    exact ⟨h.toNat_next _, rfl⟩
  · rw [next_take_other s n hplacement, List.filter_cons_of_neg (by simpa using hplacement)]
    rfl

/-- One allocation keeps storage sound. -/
theorem Sound.grant {s : Storage} (h : s.Sound) (owner : BlockId) {symbol : Symbol} {n : Nat}
    (hsize : symbol.ty.size = .ok n) (hfits : s.Fits symbol n) :
    (s.grant owner symbol n).Sound := by
  have hallocations : (s.grant owner symbol n).allocations =
      ⟨owner, symbol, n, UInt16.ofNat (s.next symbol.placement)⟩ :: s.allocations := rfl
  refine ⟨fun p hp => ?_, fun p hp => ?_, fun a ha address haddress => ?_, fun a ha => ?_⟩
  · rw [history_grant]
    exact (h.row p hp).append (h.row_grant owner symbol n hp)
  · rw [next_grant]
    by_cases hplacement : symbol.placement = p
    · subst hplacement
      rw [next_take_self s n hp]
      exact hfits
    · rw [next_take_other s n hplacement]
      exact h.room p hp
  · rw [hallocations] at ha
    rcases List.mem_cons.1 ha with rfl | ha
    · rw [Fits, haddress] at hfits
      refine ⟨?_, hfits⟩
      show UInt16.ofNat (s.next symbol.placement) = address
      rw [haddress, next, UInt16.ofNat_toNat]
    · exact h.fixed a ha address haddress
  · rw [hallocations] at ha
    rcases List.mem_cons.1 ha with rfl | ha
    · exact hsize
    · exact h.sized a ha

/-- Every allocation lies where its placement wants it. -/
theorem Sound.lies {s : Storage} (h : s.Sound) {a : Allocation} (ha : a ∈ s.allocations) :
    a.Lies := by
  refine ⟨h.sized a ha, ?_⟩
  have hinside : ∀ p, p.isFixed = false → a.symbol.placement = p →
      a.Between p.start p.stop := by
    intro p hp hplacement
    have hmem : a ∈ s.history p :=
      List.mem_filter.2 ⟨List.mem_reverse.2 ha, decide_eq_true hplacement⟩
    obtain ⟨hstart, hnext⟩ := (h.row p hp).inside hmem
    have hstop := Nat.le_trans hnext (h.room p hp)
    exact ⟨hstart, hstop, by omega⟩
  cases hplacement : a.symbol.placement with
  | auto => exact hinside .auto rfl hplacement
  | zeroPage => exact hinside .zeroPage rfl hplacement
  | fixed address => exact h.fixed a ha address hplacement

/-- Allocations of one region share no byte: they lie in one row. -/
theorem Sound.apart_same {s : Storage} (h : s.Sound) {p : Placement} (hp : p.isFixed = false) :
    s.allocations.Pairwise fun a b =>
      a.symbol.placement = p → b.symbol.placement = p → a.Apart b := by
  have hrow := (h.row p hp).pairwise
  rw [history, List.pairwise_filter, List.pairwise_reverse] at hrow
  refine hrow.imp fun {a b} hab ha hb _ _ k hk hk' => ?_
  have hbefore := hab (decide_eq_true hb) (decide_eq_true ha)
  obtain ⟨hlow, -⟩ := List.mem_range'_1.1 hk
  obtain ⟨-, hhigh⟩ := List.mem_range'_1.1 hk'
  omega

/-- Allocations of different regions share no byte: the zero page ends below
general memory. -/
theorem apart_of_ne {a b : Allocation} (ha : a.Lies) (hb : b.Lies)
    (h : a.symbol.placement ≠ b.symbol.placement) : a.Apart b := by
  intro hfixed hfixed' k hk hk'
  obtain ⟨-, ha⟩ := ha
  obtain ⟨-, hb⟩ := hb
  have hk := List.mem_range'_1.1 hk
  have hk' := List.mem_range'_1.1 hk'
  cases hp : a.symbol.placement <;> cases hq : b.symbol.placement <;>
    simp_all only [ne_eq, not_true_eq_false, Placement.isFixed, Bool.true_eq_false, reduceCtorEq,
      Allocation.Between]
  all_goals omega

/-- No two allocations share a byte, unless one of them chose its address. -/
theorem Sound.apart {s : Storage} (h : s.Sound) : s.allocations.Pairwise Allocation.Apart := by
  have hsame := (h.apart_same (p := .auto) rfl).and (h.apart_same (p := .zeroPage) rfl)
  refine hsame.imp_of_mem fun {a b} ha hb hab => ?_
  by_cases heq : a.symbol.placement = b.symbol.placement
  · cases hp : a.symbol.placement with
    | auto => exact hab.1 hp (heq ▸ hp)
    | zeroPage => exact hab.2 hp (heq ▸ hp)
    | fixed address =>
        intro hfixed
        rw [hp] at hfixed
        cases hfixed
  · exact apart_of_ne (h.lies ha) (h.lies hb) heq

/-! ## A list of symbols -/

/-- Give symbols their addresses, in order, until one is refused. -/
def allocateAll : List (BlockId × Symbol) → EStateM (Stop StorageError) Storage Unit
  | [] => pure ()
  | (owner, symbol) :: symbols => do
      let _ ← allocate owner symbol
      allocateAll symbols

theorem allocateAll_of_ok {s s' : Storage} {owner : BlockId} {symbol : Symbol} {address : UInt16}
    (h : allocate owner symbol s = .ok address s') (symbols : List (BlockId × Symbol)) :
    allocateAll ((owner, symbol) :: symbols) s = allocateAll symbols s' := by
  simp only [allocateAll, bind, EStateM.bind, h]

theorem allocateAll_of_error {s s' : Storage} {owner : BlockId} {symbol : Symbol}
    {e : Stop StorageError} (h : allocate owner symbol s = .error e s')
    (symbols : List (BlockId × Symbol)) :
    allocateAll ((owner, symbol) :: symbols) s = .error e s' := by
  simp only [allocateAll, bind, EStateM.bind, h]

/-- From `s` to `s'` the allocations `new`, oldest first, have come to be: the
first of the symbols, in order, and in each region one behind the other from
where the region was free. -/
structure Allots (symbols : List (BlockId × Symbol)) (s s' : Storage) (new : List Allocation) :
    Prop where
  history : s'.allocations = new.reverse ++ s.allocations
  order : new.map Allocation.entry <+: symbols
  rows : ∀ p, p.isFixed = false →
    Row (s.next p) (new.filter fun a => a.symbol.placement = p) (s'.next p)

theorem Allots.none (symbols : List (BlockId × Symbol)) (s : Storage) : Allots symbols s s [] :=
  ⟨rfl, List.nil_prefix, fun _ _ => rfl⟩

/-- Another allocation in front. -/
theorem Allots.cons {s s' : Storage} {symbols : List (BlockId × Symbol)} {new : List Allocation}
    {owner : BlockId} {symbol : Symbol} {n : Nat} (hs : s.Sound)
    (h : Allots symbols (s.grant owner symbol n) s' new) :
    Allots ((owner, symbol) :: symbols) s s'
      (⟨owner, symbol, n, UInt16.ofNat (s.next symbol.placement)⟩ :: new) := by
  refine ⟨?_, ?_, fun p hp => ?_⟩
  · rw [h.history, List.reverse_cons, List.append_assoc]
    rfl
  · exact List.cons_prefix_cons.2 ⟨rfl, h.order⟩
  · rw [← List.singleton_append, List.filter_append]
    exact (hs.row_grant owner symbol n hp).append (h.rows p hp)

/-! ## Which symbol is refused -/

/-- The bytes that symbols take from a region; those with an address of their
own take none. -/
def demand (p : Placement) : List (BlockId × Symbol) → Nat
  | [] => 0
  | (_, symbol) :: symbols =>
      (if symbol.placement = p ∧ p.isFixed = false then symbol.ty.size.toOption.getD 0 else 0) +
        demand p symbols

/-- Why a symbol has no address in storage, once the symbols `before` have
theirs. -/
def refusal? (s : Storage) (before : List (BlockId × Symbol)) (symbol : Symbol) :
    Option (Stop StorageError) :=
  match symbol.ty.size with
  | .error stop => some (stop.map (.type symbol.name))
  | .ok n =>
      if s.next symbol.placement + demand symbol.placement before + n ≤ symbol.placement.stop then
        none
      else some (.error (.exhausted symbol.name))

/-- Of the symbols, those `before` have an address each and the next one has
none, because of `e`. -/
def FirstRefusal (s : Storage) (symbols before : List (BlockId × Symbol))
    (e : Stop StorageError) : Prop :=
  (∃ owner symbol after, symbols = before ++ (owner, symbol) :: after ∧
    s.refusal? before symbol = some e) ∧
  ∀ pre owner symbol post, before = pre ++ (owner, symbol) :: post → s.refusal? pre symbol = none

/-- A symbol gets the next address of its placement, or is refused for the
reason that `refusal?` gives and leaves storage as it is. -/
theorem allocate_cases (s : Storage) (owner : BlockId) (symbol : Symbol) :
    (∃ n, symbol.ty.size = .ok n ∧ s.Fits symbol n ∧ s.refusal? [] symbol = none ∧
      allocate owner symbol s =
        .ok (UInt16.ofNat (s.next symbol.placement)) (s.grant owner symbol n)) ∨
    ∃ e, s.refusal? [] symbol = some e ∧ allocate owner symbol s = .error e s := by
  unfold allocate refusal?
  cases hsize : symbol.ty.size with
  | error e => exact .inr ⟨_, rfl, rfl⟩
  | ok n =>
      dsimp only
      rw [reserve_eq]
      by_cases hfits : s.next symbol.placement + n ≤ symbol.placement.stop
      · refine .inl ⟨n, rfl, hfits, if_pos hfits, ?_⟩
        rw [if_pos hfits]
        dsimp only
        rw [allocations_take]
        rfl
      · refine .inr ⟨_, if_neg hfits, ?_⟩
        rw [if_neg hfits]

theorem next_grant_add_demand (s : Storage) (owner : BlockId) {symbol : Symbol} {n : Nat}
    (hsize : symbol.ty.size = .ok n) (p : Placement) (before : List (BlockId × Symbol)) :
    (s.grant owner symbol n).next p + demand p before =
      s.next p + demand p ((owner, symbol) :: before) := by
  rw [next_grant, demand, hsize]
  by_cases hplacement : symbol.placement = p
  · subst hplacement
    cases hp : symbol.placement.isFixed with
    | false =>
        rw [next_take_self s n hp, if_pos ⟨rfl, rfl⟩, Nat.add_assoc]
        rfl
    | true =>
        cases hplacement : symbol.placement <;> rw [hplacement] at hp <;> cases hp
        simp [next]
  · rw [next_take_other s n hplacement, if_neg fun h => hplacement h.1, Nat.zero_add]

/-- Once a symbol has its address, the later ones are refused as before. -/
theorem refusal?_grant (s : Storage) (owner : BlockId) {symbol : Symbol} {n : Nat}
    (hsize : symbol.ty.size = .ok n) (before : List (BlockId × Symbol)) (other : Symbol) :
    (s.grant owner symbol n).refusal? before other =
      s.refusal? ((owner, symbol) :: before) other := by
  rw [refusal?, refusal?, next_grant_add_demand s owner hsize]

/-- A symbol whose size is a fault is one whose type overflows. -/
theorem overflows_of_refusal? {s : Storage} {before : List (BlockId × Symbol)} {symbol : Symbol}
    {f : Fault} (h : s.refusal? before symbol = some (.fault f)) :
    f = .overflow ∧ symbol.ty.Overflows := by
  unfold refusal? at h
  split at h
  · next stop hsize =>
      cases stop with
      | error e => cases h
      | fault f' =>
          cases h
          exact Ty.size_fault hsize
  · split at h <;> cases h

/-- Where no type overflows, a refusal is an error. -/
theorem FirstRefusal.overflows {s : Storage} {symbols before : List (BlockId × Symbol)} {f : Fault}
    (h : s.FirstRefusal symbols before (.fault f)) :
    f = .overflow ∧ ∃ entry ∈ symbols, entry.2.ty.Overflows := by
  obtain ⟨⟨owner, symbol, after, rfl, hrefused⟩, -⟩ := h
  obtain ⟨rfl, hoverflows⟩ := overflows_of_refusal? hrefused
  exact ⟨rfl, (owner, symbol), by simp, hoverflows⟩

theorem firstRefusal_nil {s : Storage} {symbol : Symbol} {e : Stop StorageError}
    (h : s.refusal? [] symbol = some e) (owner : BlockId) (symbols : List (BlockId × Symbol)) :
    s.FirstRefusal ((owner, symbol) :: symbols) [] e := by
  refine ⟨⟨owner, symbol, symbols, rfl, h⟩, fun pre owner' symbol' post heq => ?_⟩
  cases pre <;> cases heq

/-- A symbol that gets its address in front of the others. -/
theorem firstRefusal_cons {s : Storage} {owner : BlockId} {symbol : Symbol} {n : Nat}
    {symbols before : List (BlockId × Symbol)} {e : Stop StorageError}
    (hsize : symbol.ty.size = .ok n)
    (hfree : s.refusal? [] symbol = none)
    (h : (s.grant owner symbol n).FirstRefusal symbols before e) :
    s.FirstRefusal ((owner, symbol) :: symbols) ((owner, symbol) :: before) e := by
  obtain ⟨⟨owner', symbol', after, rfl, hrefused⟩, hearlier⟩ := h
  rw [refusal?_grant s owner hsize] at hrefused
  refine ⟨⟨owner', symbol', after, rfl, hrefused⟩, fun pre owner₁ symbol₁ post hpre => ?_⟩
  cases pre with
  | nil =>
      cases hpre
      exact hfree
  | cons entry pre =>
      obtain ⟨rfl, hbefore⟩ := List.cons.inj hpre
      rw [← refusal?_grant s owner hsize]
      exact hearlier pre owner₁ symbol₁ post hbefore

/-- The first refusal is that of the other symbols once the first has its
address. -/
theorem FirstRefusal.tail {s : Storage} {owner : BlockId} {symbol : Symbol} {n : Nat}
    {symbols before : List (BlockId × Symbol)} {e : Stop StorageError}
    (hsize : symbol.ty.size = .ok n)
    (h : s.FirstRefusal symbols ((owner, symbol) :: before) e) :
    ∃ rest, symbols = (owner, symbol) :: rest ∧
      (s.grant owner symbol n).FirstRefusal rest before e := by
  obtain ⟨⟨owner', symbol', after, rfl, hrefused⟩, hearlier⟩ := h
  refine ⟨_, rfl, ⟨owner', symbol', after, rfl, ?_⟩, fun pre owner₁ symbol₁ post hpre => ?_⟩
  · rw [refusal?_grant s owner hsize, hrefused]
  · rw [refusal?_grant s owner hsize]
    exact hearlier _ owner₁ symbol₁ post (congrArg ((owner, symbol) :: ·) hpre)

theorem allocateAll_of_firstRefusal {symbols before : List (BlockId × Symbol)} {s : Storage}
    {e : Stop StorageError} (h : s.FirstRefusal symbols before e) :
    ∃ s', allocateAll symbols s = .error e s' := by
  induction before generalizing symbols s with
  | nil =>
      obtain ⟨⟨owner, symbol, after, rfl, hrefused⟩, -⟩ := h
      rcases allocate_cases s owner symbol with ⟨n, -, -, hfree, -⟩ | ⟨e', hrefused', hrun⟩
      · rw [hfree] at hrefused
        cases hrefused
      · rw [hrefused] at hrefused'
        cases hrefused'
        exact ⟨s, allocateAll_of_error hrun after⟩
  | cons entry before ih =>
      obtain ⟨owner, symbol⟩ := entry
      have hfree : s.refusal? [] symbol = none := h.2 [] owner symbol before rfl
      rcases allocate_cases s owner symbol with ⟨n, hsize, -, -, hrun⟩ | ⟨e', hrefused, -⟩
      · obtain ⟨rest, rfl, hrest⟩ := h.tail hsize
        rw [allocateAll_of_ok hrun]
        exact ih hrest
      · rw [hfree] at hrefused
        cases hrefused

theorem firstRefusal_of_allocateAll {symbols : List (BlockId × Symbol)} {s s' : Storage}
    {e : Stop StorageError} (h : allocateAll symbols s = .error e s') :
    ∃ before, s.FirstRefusal symbols before e := by
  induction symbols generalizing s with
  | nil => cases h
  | cons entry symbols ih =>
      obtain ⟨owner, symbol⟩ := entry
      rcases allocate_cases s owner symbol with ⟨n, hsize, -, hfree, hrun⟩ | ⟨e', hrefused, hrun⟩
      · rw [allocateAll_of_ok hrun] at h
        obtain ⟨before, hrest⟩ := ih h
        exact ⟨_, firstRefusal_cons hsize hfree hrest⟩
      · rw [allocateAll_of_error hrun] at h
        cases h
        exact ⟨[], firstRefusal_nil hrefused owner symbols⟩

/-- Storage is handed out, or an error says why not, unless a type overflows. -/
theorem overflows_of_allocateAll {symbols : List (BlockId × Symbol)} {s s' : Storage} {f : Fault}
    (h : allocateAll symbols s = .error (.fault f) s') :
    f = .overflow ∧ ∃ entry ∈ symbols, entry.2.ty.Overflows := by
  obtain ⟨before, hrefusal⟩ := firstRefusal_of_allocateAll h
  exact hrefusal.overflows

/-! ## What a list of symbols does -/

/-- All symbols have got an address, or those before the first refusal. -/
theorem allocateAll_spec (symbols : List (BlockId × Symbol)) {s : Storage} (hs : s.Sound) :
    ∃ new s', s'.Sound ∧ Allots symbols s s' new ∧
      ((allocateAll symbols s = .ok () s' ∧ new.map Allocation.entry = symbols) ∨
        ∃ e, allocateAll symbols s = .error e s' ∧
          s.FirstRefusal symbols (new.map Allocation.entry) e) := by
  induction symbols generalizing s with
  | nil => exact ⟨[], s, hs, .none [] s, .inl ⟨rfl, rfl⟩⟩
  | cons entry symbols ih =>
      obtain ⟨owner, symbol⟩ := entry
      rcases allocate_cases s owner symbol with ⟨n, hsize, hfits, hfree, hrun⟩ | ⟨e, hrefused, hrun⟩
      · obtain ⟨new, s', hs', hallots, hend⟩ := ih (hs.grant owner hsize hfits)
        refine ⟨_, s', hs', hallots.cons hs, ?_⟩
        rw [allocateAll_of_ok hrun]
        rcases hend with ⟨hend, hall⟩ | ⟨e, hend, hrefused⟩
        · exact .inl ⟨hend, congrArg ((owner, symbol) :: ·) hall⟩
        · exact .inr ⟨e, hend, firstRefusal_cons hsize hfree hrefused⟩
      · exact ⟨[], s, hs, .none _ s,
          .inr ⟨e, allocateAll_of_error hrun symbols, firstRefusal_nil hrefused owner symbols⟩⟩

/-- Symbols are refused for the reason that the first one without room has. -/
theorem allocateAll_error_iff (symbols : List (BlockId × Symbol)) (s : Storage)
    (e : Stop StorageError) :
    (∃ s', allocateAll symbols s = .error e s') ↔ ∃ before, s.FirstRefusal symbols before e := by
  constructor
  · rintro ⟨s', h⟩
    exact firstRefusal_of_allocateAll h
  · rintro ⟨before, h⟩
    exact allocateAll_of_firstRefusal h

end Storage

end Cartridge
