/-
# `Cartridge.Proofs.Initializer.Value` — what initial values mean

The meaning of a unit, said without instructions.  A value is a row of bytes,
given the variables with their addresses and a memory to read them from:

    literal        its low byte, or both bytes where a word is wanted or needed
    ident          the bytes of the variable
    array          the bytes of the elements in a row
    addressOf      the two bytes of the address
    cast           to a number: cut off or filled up with zeros
                   otherwise: the bytes of the operand

A declaration stores its value at the address of its variable, and the startup
declarations of a unit are stored before the others (`Node.storeUnit`).

Proved here: a value of a type has as many bytes as the type (`length_bytes`),
and it depends on the variables alone that are declared before it
(`bytes_congr`).
-/
import Cartridge.Proofs.Cpu.Memory
import Cartridge.Proofs.Ty.Extent
import Cartridge.Proofs.Typing.Judgment

namespace Cartridge

/-- A variable with its storage. -/
structure Variable where
  name : String
  address : UInt16
  size : Nat
deriving DecidableEq, Inhabited, Repr

/-- The variable of the given name. -/
def Variable.find? (vars : List Variable) (name : String) : Option Variable :=
  vars.find? fun v => v.name == name

/-- `n` bytes: what is too long is cut off, what is too short is filled up with
zeros. -/
def resize (n : Nat) (bytes : List UInt8) : List UInt8 :=
  bytes.take n ++ List.replicate (n - bytes.length) 0

/-- The bytes of a value after a cast. -/
def Ty.convert (target : Ty) (bytes : List UInt8) : List UInt8 :=
  match target with
  | .byte => resize 1 bytes
  | .word => resize 2 bytes
  | _ => bytes

namespace Node

mutual

/-- The bytes of a value where a value of type `hint` is wanted. -/
def bytes (vars : List Variable) (m : Memory) (hint : Ty) : Node → List UInt8
  | .literal _ value => if hint = .word ∨ 0xFF < value then wordBytes value else [lowByte value]
  | .ident _ name => (Variable.find? vars name).elim [] fun v => m.read v.address v.size
  | .array _ elems => bytesAll vars m hint.element elems
  | .addressOf _ (.ident _ name) => (Variable.find? vars name).elim [] fun v => wordBytes v.address
  | .cast s _ operand => s.ty.convert (operand.bytes vars m .unknown)
  | _ => []

/-- The bytes of values in a row. -/
def bytesAll (vars : List Variable) (m : Memory) (hint : Ty) : List Node → List UInt8
  | [] => []
  | node :: nodes => node.bytes vars m hint ++ bytesAll vars m hint nodes

end

/-- The memory after a declaration stored its initial value. -/
def store (vars : List Variable) (m : Memory) : Node → Memory
  | .var _ name declared (some init) _ =>
      (Variable.find? vars name).elim m fun v =>
        m.setAll v.address (declared.convert (init.bytes vars m declared))
  | _ => m

/-- Is this a declaration whose value is stored before the main program? -/
def isStartup (node : Node) : Bool := (node.attribute? "startup").isSome

/-- The memory after a unit: startup declarations first, each kind in order. -/
def storeUnit (vars : List Variable) (decls : List Node) (m : Memory) : Memory :=
  (decls.filter fun node => !node.isStartup).foldl (store vars)
    ((decls.filter isStartup).foldl (store vars) m)

end Node

/-! ## Lengths -/

@[simp] theorem length_resize (n : Nat) (bytes : List UInt8) : (resize n bytes).length = n := by
  rw [resize, List.length_append, List.length_take, List.length_replicate]
  omega

theorem resize_length (bytes : List UInt8) : resize bytes.length bytes = bytes := by
  rw [resize, List.take_length, Nat.sub_self, List.replicate_zero, List.append_nil]

namespace Ty

/-- A value that has its type already is not changed by a cast. -/
theorem convert_of_size {ty : Ty} {n : Nat} {bytes : List UInt8} (hsize : ty.size = .ok n)
    (hlength : bytes.length = n) : ty.convert bytes = bytes := by
  subst hlength
  cases ty with
  | byte =>
      have hone : 1 = bytes.length := Except.ok.inj hsize
      rw [convert, hone, resize_length]
  | word =>
      have htwo : 2 = bytes.length := Except.ok.inj hsize
      rw [convert, htwo, resize_length]
  | _ => rfl

/-- A number has one of two types. -/
theorem eq_of_isPrimitive {ty : Ty} (h : ty.isPrimitive = true) : ty = .byte ∨ ty = .word := by
  cases ty with
  | byte => exact .inl rfl
  | word => exact .inr rfl
  | _ => cases h

/-- Only numbers are cast to numbers. -/
theorem isPrimitive_of_castable {target source : Ty} {kind : CastKind}
    (htarget : target.isPrimitive = true) (h : target.castable source kind = true) :
    source.isPrimitive = true := by
  obtain ⟨-, -, halike | ⟨rfl, -⟩ | ⟨rfl, -, -⟩⟩ := castable_iff.1 h
  · cases target with
    | byte => cases source <;> first | rfl | cases halike
    | word => cases source <;> first | rfl | cases halike
    | _ => cases htarget
  · rfl
  · rfl

/-- A cast to anything but a number changes nothing. -/
theorem alike_of_castable {target source : Ty} {kind : CastKind}
    (htarget : ¬target.isPrimitive = true) (h : target.castable source kind = true) :
    target.alike source = true := by
  obtain ⟨-, -, halike | ⟨-, rfl⟩ | ⟨-, rfl, -⟩⟩ := castable_iff.1 h
  · exact halike
  · exact absurd rfl htarget
  · exact absurd rfl htarget

end Ty

namespace Typing

/-- The surroundings of a value: no record name is ambiguous, and the variables
declared before it have storage. -/
structure Scope (records : String → List Ty → Prop) (env : Env) (vars : List Variable) : Prop where
  unambiguous : Ty.Unambiguous records
  within : ∀ name ty, env.find? name = some ty → ty.Within records
  stored : ∀ name ty, env.find? name = some ty →
    ∃ v, Variable.find? vars name = some v ∧ ty.size = .ok v.size

/-- A variable that is declared before a value. -/
def Visible (env : Env) (vars : List Variable) (name : String) (v : Variable) : Prop :=
  env.contains name = true ∧ Variable.find? vars name = some v

theorem Scope.visible {records : String → List Ty → Prop} {env : Env} {vars : List Variable}
    (h : Scope records env vars) {name : String} {ty : Ty} (hfind : env.find? name = some ty) :
    ∃ v, Visible env vars name v ∧ ty.size = .ok v.size := by
  obtain ⟨v, hv, hsize⟩ := h.stored name ty hfind
  exact ⟨v, ⟨by rw [Env.contains, hfind]; rfl, hv⟩, hsize⟩

section Bytes

variable {records : String → List Ty → Prop} {env : Env} {vars : List Variable}

/-- All elements have the common type. -/
theorem TypedAll.found_eq (hrecords : Ty.Unambiguous records)
    (henv : ∀ name ty, env.find? name = some ty → ty.Within records)
    {hint start found mid elem : Ty} {node node' : Node} {nodes nodes' : List Node}
    (hhint : hint.Within records) (hstart : start.Within records)
    (hwritten : ∀ t ∈ node.written, t.Within records)
    (hnode : Typed env hint node node' found) (hunify : start.unify found = .ok mid)
    (hnodes : TypedAll env hint mid nodes nodes' elem) : found = elem ∧ mid = elem := by
  have hfound := hnode.within henv hhint hwritten
  have hknown := hnode.ne_unknown
  rcases unify_eq_ok hknown hunify with ⟨-, rfl⟩ | ⟨hne, rfl, halike⟩
  · have helem := hnodes.elem_eq hknown
    exact ⟨helem.symm, helem.symm⟩
  · have helem := hnodes.elem_eq hne
    have hsame := Ty.eq_of_alike hrecords halike hstart hfound
    exact ⟨hsame.symm.trans helem.symm, helem.symm⟩

variable (m : Memory)

mutual

/-- A value has as many bytes as its type. -/
theorem Typed.length_bytes (hscope : Scope records env vars) {hint ty : Ty} {n : Nat}
    (hhint : hint.Within records) (hsize : ty.size = .ok n) :
    ∀ {node node' : Node}, Typed env hint node node' ty →
      (∀ t ∈ node.written, t.Within records) → (node.bytes vars m hint).length = n
  | _, _, .literal, _ => by
      rw [literalType_eq] at hsize
      rw [Node.bytes]
      split <;> rename_i hword
      · rw [if_pos hword] at hsize
        exact Except.ok.inj hsize
      · rw [if_neg hword] at hsize
        exact Except.ok.inj hsize
  | _, _, .ident hfind _, _ => by
      obtain ⟨v, hv, hvsize⟩ := hscope.stored _ _ hfind
      obtain rfl := Except.ok.inj (hsize.symm.trans hvsize)
      rw [Node.bytes, hv]
      exact Memory.length_read ..
  | _, _, .array _ helems, hwritten => by
      obtain ⟨s, hs, rfl, -⟩ := Ty.size_array_eq_ok_iff.1 hsize
      rw [Node.bytes]
      exact helems.length_bytesAll hscope hhint.element_of_hint
        (within_elementStart hhint _) hs hwritten
  | _, _, .addressOf hfind _, _ => by
      obtain ⟨v, hv, -⟩ := hscope.stored _ _ hfind
      rw [Node.bytes, hv]
      exact Except.ok.inj hsize
  | _, _, .cast (s := s) _ hoperand hcast, hwritten => by
      rw [Node.bytes]
      by_cases hprimitive : s.ty.isPrimitive = true
      · rcases Ty.eq_of_isPrimitive hprimitive with hbyte | hword
        · rw [hbyte] at hsize ⊢
          exact (length_resize ..).trans (Except.ok.inj hsize)
        · rw [hword] at hsize ⊢
          exact (length_resize ..).trans (Except.ok.inj hsize)
      · have hwritten' := fun t ht => hwritten t (List.mem_cons_of_mem _ ht)
        have hsource := hoperand.within hscope.within Ty.within_unknown hwritten'
        have heq := Ty.eq_of_alike hscope.unambiguous (Ty.alike_of_castable hprimitive hcast)
          (hwritten _ List.mem_cons_self) hsource
        have hlength := hoperand.length_bytes hscope Ty.within_unknown (heq ▸ hsize) hwritten'
        rw [Ty.convert_of_size hsize hlength, hlength]

theorem TypedAll.length_bytesAll (hscope : Scope records env vars) {hint start elem : Ty} {s : Nat}
    (hhint : hint.Within records) (hstart : start.Within records) (hsize : elem.size = .ok s) :
    ∀ {nodes nodes' : List Node}, TypedAll env hint start nodes nodes' elem →
      (∀ t ∈ Node.writtenAll nodes, t.Within records) →
        (Node.bytesAll vars m hint nodes).length = s * nodes.length
  | _, _, .nil, _ => rfl
  | _, _, .cons hnode hunify hnodes, hwritten => by
      have hhead := fun t ht => hwritten t (List.mem_append_left _ ht)
      have htail := fun t ht => hwritten t (List.mem_append_right _ ht)
      obtain ⟨hfound, hmid⟩ := TypedAll.found_eq hscope.unambiguous hscope.within hhint hstart hhead
        hnode hunify hnodes
      rw [hfound] at hnode
      have hmid' : _ := hnode.within hscope.within hhint hhead
      rw [hmid] at hnodes
      rw [Node.bytesAll, List.length_append, hnode.length_bytes hscope hhint hsize hhead,
        hnodes.length_bytesAll hscope hhint hmid' hsize htail, List.length_cons, Nat.mul_succ,
        Nat.add_comm]

end

mutual

/-- Memories that agree on the variables declared before give the same value. -/
theorem Typed.bytes_congr {m m' : Memory} (hagree : ∀ name v, Visible env vars name v →
      m.read v.address v.size = m'.read v.address v.size)
    {hint ty : Ty} : ∀ {node node' : Node}, Typed env hint node node' ty →
      node.bytes vars m hint = node.bytes vars m' hint
  | _, _, .literal => rfl
  | .ident _ name, _, .ident hfind _ => by
      rw [Node.bytes, Node.bytes]
      cases hv : Variable.find? vars name with
      | none => rfl
      | some v => exact hagree name v ⟨by rw [Env.contains, hfind]; rfl, hv⟩
  | _, _, .array _ helems => by
      rw [Node.bytes, Node.bytes]
      exact helems.bytesAll_congr hagree
  | _, _, .addressOf _ _ => rfl
  | _, _, .cast _ hoperand _ => by
      rw [Node.bytes, Node.bytes, hoperand.bytes_congr hagree]

theorem TypedAll.bytesAll_congr {m m' : Memory} (hagree : ∀ name v, Visible env vars name v →
      m.read v.address v.size = m'.read v.address v.size)
    {hint start elem : Ty} : ∀ {nodes nodes' : List Node},
      TypedAll env hint start nodes nodes' elem →
        Node.bytesAll vars m hint nodes = Node.bytesAll vars m' hint nodes
  | _, _, .nil => rfl
  | _, _, .cons hnode _ hnodes => by
      rw [Node.bytesAll, Node.bytesAll, hnode.bytes_congr hagree, hnodes.bytesAll_congr hagree]

end

end Bytes

end Typing

end Cartridge
