/-
# `Cartridge.Proofs.Assembly.Moves` — what moving a segment does to it

A segment that can be moved consists of pieces: bytes that stay as they are, and
addresses, each of them a word at the offset of a relocation.

    bytes        the pieces, one behind the other
    relocations  the offsets of the addresses among them
    move         adds the distance to each address and leaves the rest alone

Relocations are patched one after the other, and a later one would see what an
earlier one wrote; pieces do not overlap, so here none does.

Proved here: a move shifts the pieces (`Segment.Laid.moveTo`), so moves add up,
whether or not an address on the way passes the end of the address space, and
moving through addresses is moving to the last of them
(`Segment.Laid.moveThrough`).
-/
import Cartridge.Assembly.Segment
import Cartridge.Proofs.Bytes

namespace Cartridge

/-! ## Pieces -/

/-- A part of a segment: bytes that stay as they are, or an address that moves
with the segment. -/
inductive Piece where
  | fixed (bytes : List UInt8)
  | address (w : UInt16)

namespace Piece

/-- The bytes of a piece. -/
def bytes : Piece → List UInt8
  | .fixed bs => bs
  | .address w => wordBytes w

/-- The bytes of pieces in a row. -/
def bytesAll (ps : List Piece) : List UInt8 := ps.flatMap bytes

theorem bytesAll_cons (p : Piece) (ps : List Piece) : bytesAll (p :: ps) = p.bytes ++ bytesAll ps :=
  rfl

theorem bytesAll_append (ps qs : List Piece) : bytesAll (ps ++ qs) = bytesAll ps ++ bytesAll qs :=
  List.flatMap_append

/-- A piece of a segment that moves by `delta`. -/
def shift (delta : UInt16) : Piece → Piece
  | .fixed bs => .fixed bs
  | .address w => .address (w + delta)

/-- The offsets of the addresses in pieces that start at `offset`. -/
def offsets (offset : Nat) : List Piece → List Nat
  | [] => []
  | .fixed bs :: ps => offsets (offset + bs.length) ps
  | .address _ :: ps => offset :: offsets (offset + 2) ps

theorem shift_shift (d d' : UInt16) (p : Piece) : (p.shift d).shift d' = p.shift (d + d') := by
  cases p with
  | fixed bs => rfl
  | address w => rw [shift, shift, shift, UInt16.add_assoc]

theorem offsets_shift (delta : UInt16) (offset : Nat) (ps : List Piece) :
    offsets offset (ps.map (shift delta)) = offsets offset ps := by
  induction ps generalizing offset with
  | nil => rfl
  | cons p ps ih =>
      cases p with
      | fixed bs => exact ih _
      | address w => exact congrArg (offset :: ·) (ih _)

theorem offsets_append (offset : Nat) (ps qs : List Piece) :
    offsets offset (ps ++ qs) =
      offsets offset ps ++ offsets (offset + (bytesAll ps).length) qs := by
  induction ps generalizing offset with
  | nil => rfl
  | cons p ps ih =>
      cases p with
      | fixed bs =>
          rw [List.cons_append, offsets, offsets, ih, bytesAll_cons, List.length_append,
            Nat.add_assoc]
          rfl
      | address w =>
          rw [List.cons_append, offsets, offsets, ih, bytesAll_cons, List.length_append,
            Nat.add_assoc]
          rfl

end Piece

/-- A write over as many bytes, in a buffer of three parts. -/
theorem Bytes.putAll?_middle {before old new behind : List UInt8} (h : new.length = old.length) :
    Bytes.putAll? (before ++ old ++ behind).toArray before.length new =
      some (before ++ new ++ behind).toArray := by
  have hfit : before.length + new.length ≤ (before ++ old ++ behind).toArray.size := by
    rw [List.size_toArray, List.length_append, List.length_append]
    omega
  obtain ⟨out, hout⟩ := Bytes.putAll?_eq_some hfit
  have hparts := Bytes.toList_of_putAll? hout
  rw [h, ← List.length_append, List.drop_left, List.append_assoc before old,
    List.take_left] at hparts
  rw [hout, ← hparts]

namespace Segment

/-- Relocation adds to the addresses among the pieces. -/
theorem relocate_pieces (delta : UInt16) (ps : List Piece) (before : List UInt8) :
    relocate delta (Piece.offsets before.length ps) (before ++ Piece.bytesAll ps).toArray =
      .ok (before ++ Piece.bytesAll (ps.map (Piece.shift delta))).toArray := by
  induction ps generalizing before with
  | nil => rfl
  | cons p ps ih =>
      rw [List.map_cons, Piece.bytesAll_cons, Piece.bytesAll_cons, ← List.append_assoc,
        ← List.append_assoc]
      cases p with
      | fixed bs =>
          rw [Piece.offsets, ← List.length_append]
          exact ih (before ++ bs)
      | address w =>
          have hword : Bytes.word? (before ++ wordBytes w ++ Piece.bytesAll ps).toArray
              before.length = some w := by
            refine Bytes.word?_eq_some ?_ ?_
            · simp [wordBytes]
            · simp [wordBytes]
          have hput : Bytes.putAll? (before ++ wordBytes w ++ Piece.bytesAll ps).toArray
              before.length (wordBytes (w + delta)) =
                some (before ++ wordBytes (w + delta) ++ Piece.bytesAll ps).toArray :=
            Bytes.putAll?_middle rfl
          rw [Piece.offsets, relocate, Piece.bytes, hword, Option.bind_some, Bytes.putWord?, hput]
          have hrest := ih (before ++ wordBytes (w + delta))
          rw [List.length_append, length_wordBytes] at hrest
          exact hrest

/-- The segment consists of these pieces, and its relocations are the addresses
among them. -/
structure Laid (s : Segment) (ps : List Piece) : Prop where
  bytes : s.bytes = (Piece.bytesAll ps).toArray
  relocations : s.relocations = Piece.offsets 0 ps

/-- A moved segment. -/
theorem Laid.moveTo {s : Segment} {ps : List Piece} (h : s.Laid ps) (origin : UInt16) :
    s.moveTo origin = .ok {
      origin := origin
      bytes := (Piece.bytesAll (ps.map (Piece.shift (origin - s.origin)))).toArray
      relocations := s.relocations } := by
  have hrelocate := relocate_pieces (origin - s.origin) ps []
  rw [List.length_nil, List.nil_append, List.nil_append, ← h.bytes, ← h.relocations] at hrelocate
  rw [Segment.moveTo, hrelocate]

/-- A moved segment consists of the moved pieces. -/
theorem Laid.of_moveTo {s s' : Segment} {ps : List Piece} (h : s.Laid ps) {origin : UInt16}
    (hmove : s.moveTo origin = .ok s') :
    s'.origin = origin ∧ s'.Laid (ps.map (Piece.shift (origin - s.origin))) := by
  rw [h.moveTo] at hmove
  cases hmove
  exact ⟨rfl, rfl, h.relocations.trans (Piece.offsets_shift _ _ _).symm⟩

/-- Move the segment to one address after the other. -/
def moveThrough (s : Segment) : List UInt16 → Except Fault Segment
  | [] => .ok s
  | origin :: origins =>
      match s.moveTo origin with
      | .ok s' => s'.moveThrough origins
      | .error f => .error f

/-- Two moves are the second alone. -/
theorem Laid.moveTo_moveTo {s s' : Segment} {ps : List Piece} (h : s.Laid ps)
    {origin : UInt16} (hmove : s.moveTo origin = .ok s') (last : UInt16) :
    s'.moveTo last = s.moveTo last := by
  obtain ⟨horigin, hlaid⟩ := h.of_moveTo hmove
  have hsum : origin - s.origin + (last - origin) = last - s.origin := by grind
  rw [hlaid.moveTo, h.moveTo, horigin, List.map_map, hlaid.relocations, h.relocations,
    Piece.offsets_shift]
  simp only [Function.comp_def, Piece.shift_shift, hsum]

/-- Moving through addresses is moving to the last of them. -/
theorem Laid.moveThrough {s : Segment} {ps : List Piece} (h : s.Laid ps) (via : List UInt16)
    (last : UInt16) : s.moveThrough (via ++ [last]) = s.moveTo last := by
  induction via generalizing s ps with
  | nil =>
      rw [List.nil_append, Segment.moveThrough, h.moveTo]
      rfl
  | cons origin via ih =>
      obtain ⟨s', hmove⟩ : ∃ s', s.moveTo origin = .ok s' := ⟨_, h.moveTo origin⟩
      rw [List.cons_append, Segment.moveThrough, hmove]
      exact (ih (h.of_moveTo hmove).2).trans (h.moveTo_moveTo hmove last)

end Segment

end Cartridge
