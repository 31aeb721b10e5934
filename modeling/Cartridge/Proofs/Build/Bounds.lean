/-
# `Cartridge.Proofs.Build.Bounds` — the code of a unit stays inside its variables

Every name in the tree of a unit stands for a global symbol, whose type says
how many bytes it has.  An instruction stays `Inside` if

    stores     it stores inside the variable that is named, if that has a size
    loads      what it reads has a size, and it reads inside it
    address    the variable whose address it takes is there

A variable without a size takes a value nevertheless, as long as the value has
one: a short array goes into the front of an array that is too long.

The offsets of a value and of its parts are worked out as sums and products.  They
stay within the address space as well, so none of them is cut on the way.

Proved here: all instructions of a session's tree stay inside, and so do the offsets
(`Session.inside_of_tree`), by induction on the declarations, of which each one
extends what the next one may read (`inside_unit`).
-/
import Cartridge.Proofs.Build.Correctness
import Cartridge.Proofs.Initializer.Bounds

namespace Cartridge

/-- An instruction stays inside the variables that `types` knows. -/
structure Instr.Inside (types : String → Ty → Prop) (i : Instr) : Prop where
  stores : ∃ p k ty, i.stores? = some (p, k) ∧ types p.symbol ty ∧
    ∀ s, ty.size = .ok s → p.offset.toNat + k ≤ s
  loads : ∀ p k, i.loads? = some (p, k) →
    ∃ ty s, types p.symbol ty ∧ ty.size = .ok s ∧ p.offset.toNat + k ≤ s
  address : ∀ name, i.address? = some name → ∃ ty, types name ty

/-- What stays in the front of a variable stays inside it. -/
theorem Instr.Bounded.inside {types : String → Ty → Prop} {i : Instr} {name : String} {n : Nat}
    (h : i.Bounded types { symbol := name } n) {ty : Ty} (htype : types name ty)
    (hsize : ∀ s, ty.size = .ok s → n ≤ s) : i.Inside types := by
  obtain ⟨p, k, hstores, rfl, hend⟩ := h.stores
  have hle : p.offset.toNat + k ≤ n := Nat.le_trans hend (Nat.le_of_eq (Nat.zero_add n))
  exact ⟨⟨p, k, ty, hstores, htype, fun s hs => Nat.le_trans hle (hsize s hs)⟩, h.loads, h.address⟩

/-- The offsets that are worked out for the initial value of a declaration. -/
def Node.initOffsets : Node → List Nat
  | .var s _ _ (some init) _ => init.offsets 0 s.ty
  | _ => []

/-! ## Units -/

section Unit

open Typing

variable {records : String → List Ty → Prop} {types : String → Ty → Prop}

/-- A declaration extends the surroundings of the next one. -/
theorem Typing.Setting.bind {env : Env} (h : Setting records types env) {name : String} {ty : Ty}
    (hty : ty.Within records) (htype : types name ty) :
    Setting records types (env.bind name ty) :=
  ⟨h.unambiguous, Env.forall_bind h.within hty, Env.forall_bind h.known htype⟩

/-- The code of an initial value stays inside the variables, whichever program it
is for. -/
theorem inside_decl {env : Env} (hsetting : Setting records types env) {name : String}
    {declared ty : Ty} {init init' : Node} (hfitted : Fitted env declared init init' ty)
    (hdeclared : declared.Within records) (hwritten : ∀ t ∈ init.written, t.Within records)
    (htype : types name ty) {code : List Instr}
    (hcode : init'.initCode { symbol := name } ty = .ok code) :
    (∀ i ∈ code, i.Inside types) ∧
      ∀ k ∈ init'.offsets 0 ty, k ≤ maxSize := by
  obtain ⟨n, hmax, hsize, hcontained⟩ := hfitted.bounded hsetting hdeclared hwritten hcode
  refine ⟨fun i hi => (hcontained.code i hi).inside htype hsize, fun k hk => ?_⟩
  have hle : k ≤ 0 + n := hcontained.offsets k hk
  rw [Nat.zero_add] at hle
  exact Nat.le_trans hle hmax

/-- Both programs of a unit stay inside its variables. -/
theorem inside_unit {env env' : Env} {decls decls' : List Node}
    (haccepted : Accepted env decls decls' env') {symbols : List Symbol} {main : List Instr}
    {boots : List (String × List Instr)} (hlowered : BlockTree.Lowered decls' symbols main boots)
    (hsetting : Setting records types env)
    (hsymbols : ∀ symbol ∈ symbols, types symbol.name symbol.ty)
    (hwritten : ∀ t ∈ Node.writtenAll decls, t.Within records) :
    (∀ i ∈ main, i.Inside types) ∧ (∀ boot ∈ boots, ∀ i ∈ boot.2, i.Inside types) ∧
      ∀ node ∈ decls', ∀ k ∈ node.initOffsets, k ≤ maxSize := by
  induction haccepted generalizing symbols main boots with
  | nil =>
      cases hlowered
      exact ⟨List.forall_mem_nil _, List.forall_mem_nil _, List.forall_mem_nil _⟩
  | @cons env mid env' node node' nodes nodes' hnode hnodes ih =>
      cases hnode with
      | @var s name declared ty init init' attrs attrs' hnew hattrs hinit =>
          obtain ⟨hdeclared, hinitWritten, hrest⟩ := Node.forall_writtenAll_var hwritten
          have hty := hinit.within hsetting.within hdeclared hinitWritten
          cases hlowered with
          | plain hlowered =>
              obtain ⟨htype, hsymbols⟩ := List.forall_mem_cons.1 hsymbols
              obtain ⟨hmain, hboots, hoffsets⟩ :=
                ih hlowered (hsetting.bind hty htype) hsymbols hrest
              exact ⟨hmain, hboots, List.forall_mem_cons.2 ⟨List.forall_mem_nil _, hoffsets⟩⟩
          | main _ hcode hlowered =>
              obtain ⟨htype, hsymbols⟩ := List.forall_mem_cons.1 hsymbols
              obtain ⟨hmain, hboots, hoffsets⟩ :=
                ih hlowered (hsetting.bind hty htype) hsymbols hrest
              cases hinit with
              | present hfitted =>
                  obtain ⟨hcode, hvalue⟩ := inside_decl hsetting hfitted hdeclared
                    (hinitWritten _ rfl) htype hcode
                  exact ⟨List.forall_mem_append.2 ⟨hcode, hmain⟩, hboots,
                    List.forall_mem_cons.2 ⟨hvalue, hoffsets⟩⟩
          | boot _ hcode hlowered =>
              obtain ⟨htype, hsymbols⟩ := List.forall_mem_cons.1 hsymbols
              obtain ⟨hmain, hboots, hoffsets⟩ :=
                ih hlowered (hsetting.bind hty htype) hsymbols hrest
              cases hinit with
              | present hfitted =>
                  obtain ⟨hcode, hvalue⟩ := inside_decl hsetting hfitted hdeclared
                    (hinitWritten _ rfl) htype hcode
                  exact ⟨hmain, List.forall_mem_cons.2 ⟨hcode, hboots⟩,
                    List.forall_mem_cons.2 ⟨hvalue, hoffsets⟩⟩

end Unit

/-! ## Trees -/

namespace BlockTree

/-- The type of the variable that a name stands for in a block. -/
def Types (t : BlockTree) (id : BlockId) (name : String) (ty : Ty) : Prop :=
  ∃ symbol, t.findFrom id name = .ok symbol ∧ symbol.ty = ty

variable {symbols : List Symbol} {main : List Instr} {boots : List (String × List Instr)}

theorem symbol?_rootBlock (hnames : (symbols.map Symbol.name).Nodup) {symbol : Symbol}
    (hsymbol : symbol ∈ symbols) (n : Nat) :
    (rootBlock symbols main n).symbol? symbol.name = some symbol := by
  show symbols.find? _ = _
  induction symbols with
  | nil => cases hsymbol
  | cons s symbols ih =>
      obtain ⟨hnew, hnames⟩ := List.nodup_cons.1 hnames
      rcases List.mem_cons.1 hsymbol with rfl | hmem
      · exact List.find?_cons_of_pos (by simp)
      · have hne : s.name ≠ symbol.name := fun e => hnew (e ▸ List.mem_map_of_mem hmem)
        rw [List.find?_cons_of_neg (by simpa using hne)]
        exact ih hnames hmem

theorem outward_flat_zero : (flat symbols main boots).outward 0 = [0] := by
  rw [outward, size_flat]
  rfl

theorem outward_flat_succ {i : Nat} (h : i < boots.length) :
    (flat symbols main boots).outward (i + 1) = [i + 1, 0] := by
  obtain ⟨n, hn⟩ := Nat.exists_eq_succ_of_ne_zero (Nat.ne_zero_of_lt h)
  rw [outward, size_flat, hn, outwardFrom, block?_flat_succ, List.getElem?_eq_getElem h]
  rfl

/-- A symbol is found from every block of a flat tree. -/
theorem findFrom_flat (hnames : (symbols.map Symbol.name).Nodup) {symbol : Symbol}
    (hsymbol : symbol ∈ symbols) {id : BlockId} (hid : id ≤ boots.length) :
    (flat symbols main boots).findFrom id symbol.name = .ok symbol := by
  have hroot := @symbol?_rootBlock symbols main hnames symbol hsymbol boots.length
  cases id with
  | zero =>
      simp only [findFrom, resolve, outward_flat_zero, List.findSome?_cons, block?_flat_zero,
        Option.bind_some, hroot, Option.map_some]
      rfl
  | succ i =>
      have hboot : (bootBlock boots[i]).symbol? symbol.name = none := rfl
      simp only [findFrom, resolve, outward_flat_succ hid, List.findSome?_cons, block?_flat_zero,
        block?_flat_succ, List.getElem?_eq_getElem hid, Option.map_some, Option.bind_some, hboot,
        Option.map_none, hroot]
      rfl

/-- The instructions of a block of a flat tree. -/
theorem mem_instrs_flat {id : BlockId} {i : Instr}
    (h : i ∈ ((flat symbols main boots).instrs id).toList) :
    id ≤ boots.length ∧ (i ∈ main ∨ ∃ boot ∈ boots, i ∈ boot.2) := by
  cases id with
  | zero =>
      rw [instrs, block?_flat_zero] at h
      exact ⟨Nat.zero_le _, .inl (by simpa [rootBlock] using h)⟩
  | succ k =>
      rw [instrs, block?_flat_succ] at h
      cases hboot : boots[k]? with
      | none =>
          rw [hboot] at h
          cases h
      | some boot =>
          obtain ⟨hk, rfl⟩ := List.getElem?_eq_some_iff.1 hboot
          rw [hboot] at h
          exact ⟨hk, .inr ⟨_, List.getElem_mem hk, by simpa [bootBlock] using h⟩⟩

end BlockTree

/-- The code of a session stays inside its variables: whatever an instruction of
a block stores, reads or takes the address of is found from that block and lies
in its bounds, and no offset that is worked out for a value or a part of it lies
outside the address space. -/
theorem Session.inside_of_tree {s s' : Session} {t : BlockTree} (h : tree s = .ok t s')
    (hconsistent : Node.Consistent s.decls) :
    (∀ id, ∀ i ∈ (t.instrs id).toList, i.Inside (t.Types id)) ∧
      ∀ node ∈ (Typing.analyze s.decls).decls, ∀ k ∈ node.initOffsets, k ≤ maxSize := by
  obtain ⟨env, j, j', hanalyze, hdecls, -⟩ := tree_eq_ok h
  obtain ⟨symbols, main, boots, hnames, rfl, hlowered⟩ := BlockTree.ofDecls_eq_ok hdecls
  have htypes : ∀ id ≤ boots.length, ∀ symbol ∈ symbols,
      (BlockTree.flat symbols main boots).Types id symbol.name symbol.ty :=
    fun id hid symbol hsymbol => ⟨symbol, BlockTree.findFrom_flat hnames hsymbol hid, rfl⟩
  have hunit := fun id hid => inside_unit (Typing.accepted_of_analyze hanalyze) hlowered
    ⟨hconsistent.unambiguous, fun _ _ hx => (nomatch hx), fun _ _ hx => (nomatch hx)⟩
    (htypes id hid) Node.within_records
  refine ⟨fun id i hi => ?_, (hunit 0 (Nat.zero_le _)).2.2⟩
  obtain ⟨hid, hmain | ⟨boot, hboot, hi⟩⟩ := BlockTree.mem_instrs_flat hi
  · exact (hunit id hid).1 i hmain
  · exact (hunit id hid).2.1 boot hboot i hi

/-- A unit with a short value in an array that is too long to have a size. -/
def overlong : Session where
  decls := [
    .var {} "a" (.array .byte 3) none [],
    .var {} "b" (.array .byte 0x20000) (some (.ident {} "a")) [],
    .var {} "r" (.record "pair" [.byte, .word]) none [.attribute {} "zeropage" []],
    .var {} "t" (.array (.record "pair" [.byte, .word]) 3) (some (.array {} [.ident {} "r",
      .cast { ty := .record "pair" [.byte, .word] } .implicit (.ident {} "r")])) [],
    .var {} "n" .word (some (.cast { ty := .byte } .explicit (.literal {} 0x1234)))
      [.attribute {} "startup" []],
    .var {} "p" .unknown (some (.addressOf {} (.ident {} "b"))) []]

theorem Session.inside_overlong :
    ∃ t s', tree overlong = .ok t s' ∧ Node.Consistent overlong.decls ∧
      (t.instrs 0).size = 10 ∧ (t.instrs 1).size = 1 ∧
      (∀ id, ∀ i ∈ (t.instrs id).toList, i.Inside (t.Types id)) ∧
      ∀ node ∈ (Typing.analyze overlong.decls).decls, ∀ k ∈ node.initOffsets,
        k ≤ maxSize := by
  obtain ⟨t, s', htree, hsize⟩ := exists_of_yields (show yields tree overlong (fun t =>
    (t.instrs 0).size == 10 && (t.instrs 1).size == 1) = true by decide +kernel)
  obtain ⟨hmain, hboot⟩ := Bool.and_eq_true_iff.1 hsize
  have hconsistent : Node.Consistent overlong.decls := by decide +kernel
  exact ⟨t, s', htree, hconsistent, eq_of_beq hmain, eq_of_beq hboot,
    inside_of_tree htree hconsistent⟩

end Cartridge
