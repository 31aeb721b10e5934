/-
# `Cartridge.Ty.Basic` — the types of the declaration language

Two equalities live on types and must not be confused.

    a = b        the same tree; record members count
    a.alike b    the same type of the language; records and named types are
                 nominal, so only the name of a record counts

`unknown` fills a type slot that is still to be inferred.  A type without
`unknown` at any depth is *resolved*; only resolved types reach storage.
-/

namespace Cartridge

/-- A type of the declaration language. -/
inductive Ty where
  /-- A slot that is still to be inferred. -/
  | unknown
  /-- A nominal type of which only the name is known. -/
  | named (name : String)
  /-- An 8-bit unsigned number. -/
  | byte
  /-- A 16-bit unsigned number, low byte first in memory. -/
  | word
  /-- `len` values of type `elem` in a row. -/
  | array (elem : Ty) (len : Nat)
  /-- The 16-bit address of a value of type `elem`. -/
  | ref (elem : Ty)
  /-- A nominal record with its member types in order. -/
  | record (name : String) (members : List Ty)
deriving Inhabited, Repr

namespace Ty

/-! ## Equality of trees -/

mutual

/-- Equality of type trees, as a test. -/
def same : Ty → Ty → Bool
  | .unknown, .unknown => true
  | .named a, .named b => a == b
  | .byte, .byte => true
  | .word, .word => true
  | .array a n, .array b m => n == m && a.same b
  | .ref a, .ref b => a.same b
  | .record a ms, .record b ns => a == b && sameAll ms ns
  | _, _ => false

/-- Equality of lists of type trees, as a test. -/
def sameAll : List Ty → List Ty → Bool
  | [], [] => true
  | a :: as, b :: bs => a.same b && sameAll as bs
  | _, _ => false

end

mutual

theorem same_iff : ∀ (a b : Ty), a.same b = true ↔ a = b
  | .unknown, b => by cases b <;> simp [same]
  | .named _, b => by cases b <;> simp [same]
  | .byte, b => by cases b <;> simp [same]
  | .word, b => by cases b <;> simp [same]
  | .array e _, b => by cases b <;> simp [same, same_iff e, and_comm]
  | .ref e, b => by cases b <;> simp [same, same_iff e]
  | .record _ ms, b => by cases b <;> simp [same, sameAll_iff ms]

theorem sameAll_iff : ∀ (as bs : List Ty), sameAll as bs = true ↔ as = bs
  | [], bs => by cases bs <;> simp [sameAll]
  | a :: as, bs => by cases bs <;> simp [sameAll, same_iff a, sameAll_iff as]

end

instance : DecidableEq Ty := fun a b => decidable_of_iff _ (same_iff a b)

/-! ## Classes of types -/

/-- Is this the slot that is still to be inferred? -/
def isUnknown : Ty → Bool
  | .unknown => true
  | _ => false

/-- The two number types. -/
def isPrimitive : Ty → Bool
  | .byte | .word => true
  | _ => false

mutual

/-- No `unknown` at any depth. -/
def isResolved : Ty → Bool
  | .unknown => false
  | .named _ | .byte | .word => true
  | .array e _ | .ref e => e.isResolved
  | .record _ ms => allResolved ms

/-- Every type of the list is resolved. -/
def allResolved : List Ty → Bool
  | [] => true
  | m :: ms => m.isResolved && allResolved ms

end

/-- The type of the elements, `unknown` for what is no array. -/
def element : Ty → Ty
  | .array e _ => e
  | _ => .unknown

/-! ## Equality of the language -/

/-- The same type of the language: same shape, same lengths, and the same
name for named types and records. -/
def alike : Ty → Ty → Bool
  | .unknown, .unknown => true
  | .named a, .named b => a == b
  | .byte, .byte => true
  | .word, .word => true
  | .array a n, .array b m => n == m && a.alike b
  | .ref a, .ref b => a.alike b
  | .record a _, .record b _ => a == b
  | _, _ => false

end Ty

end Cartridge
