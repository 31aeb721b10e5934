/-
# `Cartridge.Proofs.Build.Variables` — the variables of a unit and where they lie

Object code reports the address of every global symbol; with the size of its
type this is the storage of a variable.  Nothing keeps two variables apart
that were given addresses of their own, and nothing keeps one out of program
memory, so this is a condition (`Separate`).

Proved here: code generation gives every symbol an address
(`holds_of_objectCode`), and where the variables of a unit are separate, the
storage of each is room for its value (`Separate.room`).
-/
import Cartridge.Build.Session
import Cartridge.Proofs.BlockTree.OfDecls
import Cartridge.Proofs.Initializer.Effect
import Cartridge.Proofs.ObjectCode.Selection
import Cartridge.Proofs.Storage.Regions

namespace Cartridge

/-! ## Addresses -/

/-- The symbol has a size and an address. -/
def Storage.Holds (storage : Storage) (owner : BlockId) (symbol : Symbol) : Prop :=
  (∃ n, symbol.ty.size = .ok n) ∧ ∃ a, storage.find? owner symbol.name = some a

/-- A new allocation comes in front of the others. -/
theorem Storage.allocate_eq_ok {owner : BlockId} {symbol : Symbol} {s s' : Storage}
    {address : UInt16} (h : allocate owner symbol s = .ok address s') :
    ∃ size, symbol.ty.size = .ok size ∧
      s'.allocations = ⟨owner, symbol, size, address⟩ :: s.allocations := by
  rcases allocate_cases s owner symbol with ⟨size, hsize, -, -, hrun⟩ | ⟨e, -, hrun⟩
  · rw [h] at hrun
    cases hrun
    exact ⟨size, hsize, rfl⟩
  · rw [h] at hrun
    cases hrun

namespace Generator

theorem holds_of_allocate {owner : BlockId} {symbol : Symbol} {g g' : Generator}
    (h : allocate owner symbol g = .ok () g') :
    g'.storage.Holds owner symbol ∧
      ∀ owner' symbol', g.storage.Holds owner' symbol' → g'.storage.Holds owner' symbol' := by
  unfold allocate at h
  split at h
  · cases h
  · next hallocate =>
      cases h
      obtain ⟨size, hsize, hallocations⟩ := Storage.allocate_eq_ok hallocate
      refine ⟨⟨⟨size, hsize⟩, ?_⟩, fun owner' symbol' ⟨hsize', a, ha⟩ => ⟨hsize', ?_⟩⟩
      · rw [Storage.find?, hallocations, List.find?_cons_of_pos (by simp)]
        exact ⟨_, rfl⟩
      · rw [Storage.find?, hallocations, List.find?_cons]
        split
        · exact ⟨_, rfl⟩
        · exact ⟨a, ha⟩

theorem holds_of_allocateSymbols {owner : BlockId} {symbols : List Symbol} {g g' : Generator}
    (h : allocateSymbols owner symbols g = .ok () g') :
    (∀ symbol ∈ symbols, g'.storage.Holds owner symbol) ∧
      ∀ owner' symbol', g.storage.Holds owner' symbol' → g'.storage.Holds owner' symbol' := by
  induction symbols generalizing g with
  | nil =>
      obtain ⟨-, rfl⟩ := pure_eq_ok_iff.1 h
      exact ⟨by simp, fun _ _ hold => hold⟩
  | cons symbol symbols ih =>
      obtain ⟨_, g₁, hfirst, hrest⟩ := bind_eq_ok_iff.1 h
      obtain ⟨hnew, hold⟩ := holds_of_allocate hfirst
      obtain ⟨hnew', hold'⟩ := ih hrest
      refine ⟨fun s hs => ?_, fun owner' s hs => hold' _ _ (hold _ _ hs)⟩
      rcases List.mem_cons.1 hs with rfl | hs
      · exact hold' _ _ hnew
      · exact hnew' s hs

theorem holds_of_allocateBlocks {tree : BlockTree} {ids : List BlockId} {g g' : Generator}
    (h : allocateBlocks tree ids g = .ok () g') :
    (∀ id ∈ ids, ∀ symbol ∈ tree.symbols id, g'.storage.Holds id symbol) ∧
      ∀ owner symbol, g.storage.Holds owner symbol → g'.storage.Holds owner symbol := by
  induction ids generalizing g with
  | nil =>
      obtain ⟨-, rfl⟩ := pure_eq_ok_iff.1 h
      exact ⟨by simp, fun _ _ hold => hold⟩
  | cons id ids ih =>
      obtain ⟨_, g₁, hfirst, hrest⟩ := bind_eq_ok_iff.1 h
      obtain ⟨hnew, hold⟩ := holds_of_allocateSymbols hfirst
      obtain ⟨hnew', hold'⟩ := ih hrest
      refine ⟨fun id' hid' symbol hs => ?_, fun owner s hs => hold' _ _ (hold _ _ hs)⟩
      rcases List.mem_cons.1 hid' with rfl | hid'
      · exact hold' _ _ (hnew symbol hs)
      · exact hnew' id' hid' symbol hs

/-- Every symbol has an address. -/
theorem holds_of_objectCode {tree : BlockTree} {base : UInt16} {g g' : Generator}
    {object : ObjectCode} (h : objectCode tree base g = .ok object g') {id : BlockId}
    (hid : id ∈ tree.preorder) {symbol : Symbol} (hsymbol : symbol ∈ tree.symbols id) :
    g'.storage.Holds id symbol := by
  obtain ⟨_, g₁, hallocate, h₁⟩ := bind_eq_ok_iff.1 h
  obtain ⟨_, _, ⟨⟩, h₂⟩ := bind_eq_ok_iff.1 h₁
  obtain ⟨⟨main, handler⟩, g₃, hneed, h₃⟩ := bind_eq_ok_iff.1 h₂
  obtain ⟨-, rfl⟩ := need_eq_ok hneed
  obtain ⟨_, _, ⟨⟩, h₄⟩ := bind_eq_ok_iff.1 h₃
  obtain ⟨startup, g₅, hneed', h₅⟩ := bind_eq_ok_iff.1 h₄
  obtain ⟨-, rfl⟩ := need_eq_ok hneed'
  obtain ⟨_, _, ⟨⟩, h₆⟩ := bind_eq_ok_iff.1 h₅
  obtain ⟨-, rfl⟩ := pure_eq_ok_iff.1 h₆
  exact (holds_of_allocateBlocks hallocate).1 id hid symbol hsymbol

end Generator

/-! ## Variables -/

/-- The global variables with the addresses that object code reports. -/
def ObjectCode.variables (object : ObjectCode) (tree : BlockTree) : List Variable :=
  (tree.symbols 0).filterMap fun symbol =>
    match object.symbols.lookup symbol.name, symbol.ty.size with
    | some address, .ok size => some ⟨symbol.name, address, size⟩
    | _, _ => none

/-- The addresses of a variable. -/
def Variable.range (v : Variable) : List Nat := List.range' v.address.toNat v.size

/-- No two variables share an address, and all addresses lie below program
memory. -/
structure Separate (vars : List Variable) : Prop where
  apart : ∀ v ∈ vars, ∀ w ∈ vars, v.name ≠ w.name → ∀ k ∈ v.range, k ∉ w.range
  below : ∀ v ∈ vars, ∀ k ∈ v.range, k < 0x8000

instance (vars : List Variable) : Decidable (Separate vars) :=
  decidable_of_iff
    ((∀ v ∈ vars, ∀ w ∈ vars, v.name ≠ w.name → ∀ k ∈ v.range, k ∉ w.range) ∧
      ∀ v ∈ vars, ∀ k ∈ v.range, k < 0x8000)
    ⟨fun ⟨h₁, h₂⟩ => ⟨h₁, h₂⟩, fun h => ⟨h.apart, h.below⟩⟩

/-- The variables of the unit of a session, as its object code places them. -/
def Session.variables (s : Session) : List Variable :=
  match tree s with
  | .error _ _ => []
  | .ok tree _ =>
      match Build.objectCode tree s.target #[] with
      | .error _ _ => []
      | .ok object _ => object.variables tree

theorem lookup_globals {tree : BlockTree} {storage : Storage} {symbol : Symbol} {a : UInt16}
    (hsymbol : symbol ∈ tree.symbols 0) (ha : storage.find? 0 symbol.name = some a) :
    (Generator.globals tree storage).lookup symbol.name = some a := by
  unfold Generator.globals
  generalize tree.symbols 0 = symbols at hsymbol
  induction symbols with
  | nil => cases hsymbol
  | cons s symbols ih =>
      by_cases hname : symbol.name = s.name
      · rw [List.filterMap_cons, ← hname, ha]
        simp
      · have hrest : symbol ∈ symbols := by
          rcases List.mem_cons.1 hsymbol with rfl | h
          · exact absurd rfl hname
          · exact h
        rw [List.filterMap_cons]
        cases hs : storage.find? 0 s.name with
        | none => exact ih hrest
        | some b =>
            simp only [Option.map_some, List.lookup_cons, beq_eq_false_iff_ne.2 hname]
            exact ih hrest

/-- Every global symbol is a variable, at the address that it was given. -/
theorem exists_variable {tree : BlockTree} {base : UInt16} {g g' : Generator} {object : ObjectCode}
    (h : Generator.objectCode tree base g = .ok object g') (hroot : 0 ∈ tree.preorder)
    (hnames : ((tree.symbols 0).map Symbol.name).Nodup) {symbol : Symbol}
    (hsymbol : symbol ∈ tree.symbols 0) :
    ∃ v, Variable.find? (object.variables tree) symbol.name = some v ∧
      symbol.ty.size = .ok v.size ∧ g'.storage.find? 0 symbol.name = some v.address := by
  obtain ⟨⟨n, hsize⟩, a, ha⟩ := Generator.holds_of_objectCode h hroot hsymbol
  obtain ⟨_, -, -, -, hsymbols⟩ := Generator.objectCode_eq_ok h
  have hlookup := lookup_globals hsymbol ha
  rw [← hsymbols] at hlookup
  refine ⟨⟨symbol.name, a, n⟩, ?_, hsize, ha⟩
  unfold ObjectCode.variables Variable.find?
  generalize tree.symbols 0 = symbols at hsymbol hnames
  induction symbols with
  | nil => cases hsymbol
  | cons s symbols ih =>
      rw [List.map_cons, List.nodup_cons] at hnames
      rcases List.mem_cons.1 hsymbol with rfl | hmem
      · rw [List.filterMap_cons, hlookup, hsize]
        exact List.find?_cons_of_pos (by simp)
      · have hne : s.name ≠ symbol.name := fun e =>
          hnames.1 (e ▸ List.mem_map_of_mem hmem)
        rw [List.filterMap_cons]
        split
        · exact ih hmem hnames.2
        · next v hv =>
            have hvname : v.name = s.name := by
              split at hv
              · cases hv; rfl
              · cases hv
            rw [List.find?_cons_of_neg (by rw [hvname]; simpa using hne)]
            exact ih hmem hnames.2

theorem Variable.mem_of_find? {vars : List Variable} {name : String} {v : Variable}
    (h : find? vars name = some v) : v ∈ vars ∧ v.name = name :=
  ⟨List.mem_of_find?_eq_some h, by simpa using List.find?_some h⟩

theorem Variable.mem_range {v : Variable} {i : Nat} (hi : i < v.size) :
    v.address.toNat + i ∈ v.range :=
  List.mem_range'_1.2 ⟨Nat.le_add_right .., Nat.add_lt_add_left hi _⟩

/-- The addresses of a variable do not wrap around. -/
theorem Separate.toNat_address {vars : List Variable} (h : Separate vars) {v : Variable}
    (hv : v ∈ vars) {i : Nat} (hi : i < v.size) :
    (v.address + UInt16.ofNat i).toNat = v.address.toNat + i := by
  have hbelow := h.below v hv _ (Variable.mem_range hi)
  exact toNat_add_ofNat (by omega)

/-- The storage of a variable is room for its value. -/
theorem Separate.room {vars : List Variable} (h : Separate vars) {env : Typing.Env} {name : String}
    {w : Variable} (hw : Variable.find? vars name = some w) (hnew : env.contains name = false) :
    Typing.Room env vars (· < 0x8000) w.address w.size := by
  obtain ⟨hwmem, hwname⟩ := Variable.mem_of_find? hw
  refine ⟨fun i hi => ?_, fun name' v hv i hi j hj heq => ?_⟩
  · rw [UInt16.lt_iff_toNat_lt, h.toNat_address hwmem hi]
    exact h.below w hwmem _ (Variable.mem_range hi)
  · obtain ⟨hvmem, hvname⟩ := Variable.mem_of_find? hv.2
    have hne : w.name ≠ v.name := by
      intro e
      rw [hwname, hvname] at e
      rw [e, hv.1] at hnew
      cases hnew
    have hnat := congrArg UInt16.toNat heq
    rw [h.toNat_address hwmem hi, h.toNat_address hvmem hj] at hnat
    exact h.apart w hwmem v hvmem hne _ (Variable.mem_range hi) (hnat ▸ Variable.mem_range hj)

end Cartridge
