/-
# `Cartridge.Assembly.Segment` — finished code that can be moved

A segment is the bytes of one routine, assembled as if loaded at `origin`.
Its relocations are the offsets of the words in it that hold addresses inside
the segment; moving the segment moves those addresses with it.  Relocations
are patched one after the other, so a later one sees what an earlier one
wrote.
-/
import Cartridge.Fault
import Cartridge.Word

namespace Cartridge

/-- The code of one routine. -/
structure Segment where
  origin : UInt16 := 0
  bytes : Bytes := #[]
  relocations : List Nat := []
deriving DecidableEq, Inhabited, Repr

namespace Segment

/-- The length in bytes. -/
def size (s : Segment) : Nat := s.bytes.size

/-- A segment without code. -/
def isEmpty (s : Segment) : Bool := s.bytes.isEmpty

/-- Add `delta` to the word at each of the offsets. -/
def relocate (delta : UInt16) : List Nat → Bytes → Except Fault Bytes
  | [], bytes => .ok bytes
  | offset :: offsets, bytes =>
      match (bytes.word? offset).bind (fun w => bytes.putWord? offset (w + delta)) with
      | some bytes' => relocate delta offsets bytes'
      | none => .error .outOfRange

/-- Move the segment to another address. -/
def moveTo (s : Segment) (origin : UInt16) : Except Fault Segment :=
  match relocate (origin - s.origin) s.relocations s.bytes with
  | .ok bytes => .ok { s with origin := origin, bytes := bytes }
  | .error f => .error f

theorem size_of_relocate {delta : UInt16} {offsets : List Nat} {bytes bytes' : Bytes}
    (h : relocate delta offsets bytes = .ok bytes') : bytes'.size = bytes.size := by
  induction offsets generalizing bytes with
  | nil => cases h; rfl
  | cons offset offsets ih =>
      unfold relocate at h
      split at h
      · next hput =>
          obtain ⟨w, _, hw⟩ := Option.bind_eq_some_iff.1 hput
          exact (ih h).trans (Bytes.size_of_putAll? hw)
      · cases h

/-- A moved segment is as long as before. -/
theorem size_of_moveTo {s s' : Segment} {origin : UInt16} (h : s.moveTo origin = .ok s') :
    s'.size = s.size := by
  unfold moveTo at h
  split at h
  · next hbytes => cases h; exact size_of_relocate hbytes
  · cases h

end Segment

end Cartridge
