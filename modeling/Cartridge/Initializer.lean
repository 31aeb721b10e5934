/-
# `Cartridge.Initializer` — initial values as instructions

An initial value is stored by instructions that write the bytes of one
variable, from its first byte on.

    literal       one copy of a constant
    ident         one copy of a number or an address; byte by byte otherwise
    array         each element at its offset
    addressOf     one copy of an address
    cast          a number: one instruction for the whole chain of casts
                  otherwise: as the value inside, if the cast changes nothing

Casts between numbers are folded: the low byte of a word lies at the address
of the word, so narrowing reads one byte and widening adds a zero.

What cannot be stored is an error.  A place past the end of the address space is a
fault: places are worked out before anything says that they are in range.
-/
import Cartridge.BlockTree.Basic
import Cartridge.Syntax
import Cartridge.Ty.Size

namespace Cartridge

/-- What cannot be stored. -/
inductive Unstorable where
  | topLevel
  | addressAttribute (name : String)
  | literalAs (ty : Ty)
  | arrayAs (ty : Ty)
  | addressOfValue
  | castBetween (source target : Ty)
  | declarationAsValue
  | numberAs (ty : Ty)
  | variableAsNumber (name : String) (ty : Ty)
  | castTo (ty : Ty)
  | valueAsNumber
deriving DecidableEq, Inhabited, Repr

/-- What cannot be stored, in words. -/
def Unstorable.describe : Unstorable → String
  | .topLevel => "a non-declaration at top level"
  | .addressAttribute name => s!"address attribute on '{name}'"
  | .literalAs ty => s!"a literal stored as {ty}"
  | .arrayAs ty => s!"an array stored as {ty}"
  | .addressOfValue => "the address of an expression"
  | .castBetween source target => s!"a cast from {source} to {target}"
  | .declarationAsValue => "a declaration used as a value"
  | .numberAs ty => s!"a number stored as {ty}"
  | .variableAsNumber name ty => s!"'{name}' of type {ty} as a number"
  | .castTo ty => s!"a cast to {ty}"
  | .valueAsNumber => "this expression as a number"

/-- Why a declaration has no instructions. -/
inductive DeclError where
  /-- The type of the variable is not known. -/
  | unresolved (name : String) (ty : Ty) (position : Position)
  | unsupported (what : Unstorable) (position : Position)
  | type (error : TypeError) (position : Position)
  | symbol (error : ScopeError)
deriving DecidableEq, Inhabited, Repr

/-- The text of a declaration error. -/
def DeclError.message : DeclError → String
  | .unresolved name ty position =>
      s!"{position}: '{name}' reached lowering with unresolved type {ty}"
  | .unsupported what position => s!"{position}: cannot lower {what.describe}"
  | .type error position => s!"{position}: {error.message}"
  | .symbol error => error.message

/-- How much one copy moves of a value that fits in one copy. -/
def Ty.width? : Ty → Option Width
  | .byte => some .byte
  | .word | .ref _ => some .word
  | _ => none

/-- The low byte of a word, as a word. -/
def lowPart (value : UInt16) : UInt16 := value &&& 0xFF

/-- A number whose casts are folded away. -/
inductive Scalar where
  | const (value : UInt16)
  /-- The byte at a place. -/
  | byte (p : Place)
  /-- The word at a place. -/
  | word (p : Place)
  /-- The byte at a place and a zero byte. -/
  | widened (p : Place)
deriving DecidableEq, Inhabited, Repr

namespace Scalar

/-- The number after a cast; `none` if the target is no number. -/
def cast? (value : Scalar) : Ty → Option Scalar
  | .byte => some <| match value with
      | .const v => .const (lowPart v)
      | .byte p | .word p | .widened p => .byte p
  | .word => some <| match value with
      | .byte p => .widened p
      | value => value
  | _ => none

/-- The instruction that stores a number; `none` if the target is no number. -/
def store? (value : Scalar) (dest : Place) : Ty → Option Instr
  | .byte => some <| match value with
      | .const v => .copy dest (.immediate (lowPart v)) .byte
      | .byte p | .word p | .widened p => .copy dest (.place p) .byte
  | .word => some <| match value with
      | .const v => .copy dest (.immediate v) .word
      | .word p => .copy dest (.place p) .word
      | .byte p | .widened p => .widen dest p
  | _ => none

end Scalar

namespace Node

/-- Fold the casts over a literal or a variable. -/
def scalar : Node → Except DeclError Scalar
  | .literal _ value => .ok (.const value)
  | .ident s name =>
      match s.ty with
      | .byte => .ok (.byte { symbol := name })
      | .word => .ok (.word { symbol := name })
      | ty => .error (.unsupported (.variableAsNumber name ty) s.position)
  | .cast s _ operand =>
      match operand.scalar with
      | .error e => .error e
      | .ok value =>
          match value.cast? s.ty with
          | some value' => .ok value'
          | none => .error (.unsupported (.castTo s.ty) s.position)
  | node => .error (.unsupported .valueAsNumber node.position)

/-- The instruction for a chain of casts between numbers. -/
def scalarCode (dest : Place) (node : Node) : Except (Stop DeclError) (List Instr) :=
  match node.scalar with
  | .error e => .error (.error e)
  | .ok value =>
      match value.store? dest node.ty with
      | some i => .ok [i]
      | none => .error (.error (.unsupported (.numberAs node.ty) node.position))

/-- The instruction that copies byte `i` of a variable. -/
def copyByte (dest : Place) (name : String) (i : Nat) : Except (Stop DeclError) Instr :=
  (dest.shift (UInt16.ofNat i)).map fun p =>
    .copy p (.place { symbol := name, offset := UInt16.ofNat i }) .byte

/-- The instructions that copy a variable of type `ty`. -/
def copyCode (dest : Place) (name : String) (ty : Ty) (position : Position) :
    Except (Stop DeclError) (List Instr) :=
  match ty.width? with
  | some width => .ok [.copy dest (.place { symbol := name }) width]
  | none =>
      match ty.size with
      | .error stop => .error (stop.map (.type · position))
      | .ok size => (List.range size).mapM (copyByte dest name)

/-- The offset of element `i`, if it lies in the address space. -/
def elementOffset? (size i : Nat) : Option UInt16 :=
  if i ≤ maxSize ∧ i * size ≤ maxSize then some (UInt16.ofNat (i * size)) else none

mutual

/-- The instructions that store a value at `dest`, where a value of type
`target` belongs. -/
def initCode (dest : Place) (target : Ty) : Node → Except (Stop DeclError) (List Instr)
  | .literal s value =>
      match target.width? with
      | some .byte => .ok [.copy dest (.immediate (lowPart value)) .byte]
      | some .word => .ok [.copy dest (.immediate value) .word]
      | none => .error (.error (.unsupported (.literalAs target) s.position))
  | .ident s name => copyCode dest name s.ty s.position
  | .array s elems =>
      match target with
      | .array elem n =>
          match (Ty.array elem n).size, elem.size with
          | .error stop, _ | _, .error stop => .error (stop.map (.type · s.position))
          | .ok _, .ok size => elemsCode dest (.array elem n) elem size s.position 0 elems
      | target => .error (.error (.unsupported (.arrayAs target) s.position))
  | .addressOf s operand =>
      match operand with
      | .ident _ name => .ok [.copy dest (.addressOf name) .word]
      | _ => .error (.error (.unsupported .addressOfValue s.position))
  | .cast s kind operand =>
      if s.ty.isPrimitive then
        scalarCode dest (.cast s kind operand)
      else if operand.ty.alike s.ty then
        operand.initCode dest s.ty
      else
        .error (.error (.unsupported (.castBetween operand.ty s.ty) s.position))
  | node => .error (.error (.unsupported .declarationAsValue node.position))

/-- The instructions that store elements of `size` bytes from index `i` on, in
an array of type `whole` at `dest`. -/
def elemsCode (dest : Place) (whole elem : Ty) (size : Nat) (position : Position) (i : Nat) :
    List Node → Except (Stop DeclError) (List Instr)
  | [] => .ok []
  | node :: nodes =>
      match elementOffset? size i with
      | none => .error (.error (.type (.unsized whole) position))
      | some offset => do
          let place ← dest.shift offset
          let code ← node.initCode place elem
          let rest ← elemsCode dest whole elem size position (i + 1) nodes
          return code ++ rest

end

end Node

end Cartridge
