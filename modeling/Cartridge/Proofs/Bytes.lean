/-
# `Cartridge.Proofs.Bytes` — buffers after a write

A write at offset `i` leaves the buffer in three parts: what stood before, the
bytes written, and what stands behind them.  Which byte stands where after a
write is read off this, and so are the vectors at the end of a bank: they are
words, and a word is its two bytes.
-/
import Cartridge.Image.Rom

namespace Cartridge

namespace Bytes

theorem size_append_list (bytes : Bytes) (bs : List UInt8) :
    (bytes ++ bs).size = bytes.size + bs.length := by
  simp [← Array.length_toList]

theorem getElem?_append_list (bytes : Bytes) (bs : List UInt8) (k : Nat) :
    (bytes ++ bs)[k]? = if k < bytes.size then bytes[k]? else bs[k - bytes.size]? := by
  rw [← Array.getElem?_toList, Array.toList_appendList, List.getElem?_append,
    Array.length_toList, Array.getElem?_toList]

theorem toList_of_put? {bytes out : Bytes} {i : Nat} {b : UInt8} (h : put? bytes i b = some out) :
    i < bytes.size ∧ out.toList = bytes.toList.set i b := by
  unfold put? at h
  split at h
  · next hi => cases h; exact ⟨hi, Array.toList_set ..⟩
  · cases h

/-- A buffer after a write, in three parts. -/
theorem toList_of_putAll? {bytes out : Bytes} {i : Nat} {bs : List UInt8}
    (h : putAll? bytes i bs = some out) :
    out.toList = bytes.toList.take i ++ bs ++ bytes.toList.drop (i + bs.length) := by
  induction bs generalizing bytes i with
  | nil => cases h; simp
  | cons b bs ih =>
      unfold putAll? at h
      split at h
      · next mid hmid =>
          obtain ⟨hi, hset⟩ := toList_of_put? hmid
          have hlen : (bytes.toList.take i).length = i :=
            List.length_take_of_le (by simpa using Nat.le_of_lt hi)
          have hparts : mid.toList = bytes.toList.take i ++ b :: bytes.toList.drop (i + 1) := by
            rw [hset, List.set_eq_take_append_cons_drop, if_pos (by simpa using hi)]
          have htake : mid.toList.take (i + 1) = bytes.toList.take i ++ [b] := by
            rw [hparts, List.take_append, hlen, Nat.add_sub_cancel_left,
              List.take_of_length_le (by omega)]
            rfl
          have hdrop : mid.toList.drop (i + 1 + bs.length) =
              bytes.toList.drop (i + (bs.length + 1)) := by
            rw [hparts, List.drop_append, hlen, List.drop_of_length_le (by omega),
              show i + 1 + bs.length - i = bs.length + 1 by omega, List.drop_succ_cons,
              List.drop_drop, List.nil_append]
            congr 1
            omega
          rw [ih h, htake, hdrop]
          simp
      · cases h

theorem le_size_of_putAll? {bytes out : Bytes} {i : Nat} {bs : List UInt8}
    (h : putAll? bytes i bs = some out) (hbs : bs ≠ []) : i + bs.length ≤ bytes.size := by
  have hsize := congrArg List.length (toList_of_putAll? h)
  have hpos := List.length_pos_iff.2 hbs
  rw [Array.length_toList, size_of_putAll? h] at hsize
  simp only [List.length_append, List.length_take, List.length_drop, Array.length_toList] at hsize
  omega

/-- The bytes that were written. -/
theorem getElem?_of_putAll? {bytes out : Bytes} {i j : Nat} {bs : List UInt8}
    (h : putAll? bytes i bs = some out) (hj : j < bs.length) : out[i + j]? = bs[j]? := by
  have hfit := le_size_of_putAll? h (List.length_pos_iff.1 (Nat.zero_lt_of_lt hj))
  have hlen : (bytes.toList.take i).length = i :=
    List.length_take_of_le (by rw [Array.length_toList]; omega)
  rw [← Array.getElem?_toList, toList_of_putAll? h, List.append_assoc,
    List.getElem?_append_right (by omega), hlen, Nat.add_sub_cancel_left,
    List.getElem?_append_left hj]

/-- The bytes that a write leaves alone. -/
theorem getElem?_of_putAll?_other {bytes out : Bytes} {i k : Nat} {bs : List UInt8}
    (h : putAll? bytes i bs = some out) (hk : k < i ∨ i + bs.length ≤ k) : out[k]? = bytes[k]? := by
  rcases Nat.eq_zero_or_pos bs.length with hnil | hpos
  · obtain rfl := List.length_eq_zero_iff.1 hnil
    cases h
    rfl
  · have hfit := le_size_of_putAll? h (List.length_pos_iff.1 hpos)
    have hlen : (bytes.toList.take i).length = i :=
      List.length_take_of_le (by rw [Array.length_toList]; omega)
    rw [← Array.getElem?_toList, toList_of_putAll? h, List.append_assoc]
    rcases hk with hk | hk
    · rw [List.getElem?_append_left (by omega), List.getElem?_take_of_lt hk, Array.getElem?_toList]
    · rw [List.getElem?_append_right (by omega), hlen, List.getElem?_append_right (by omega),
        List.getElem?_drop, Array.getElem?_toList]
      congr 1
      omega

/-- A write that fits succeeds. -/
theorem putAll?_eq_some {bytes : Bytes} {i : Nat} {bs : List UInt8}
    (h : i + bs.length ≤ bytes.size) : ∃ out, putAll? bytes i bs = some out :=
  Option.isSome_iff_exists.1 (isSome_putAll? h)

theorem word?_eq_some {bytes : Bytes} {i : Nat} {w : UInt16}
    (hlow : bytes[i]? = some (lowByte w)) (hhigh : bytes[i + 1]? = some (highByte w)) :
    bytes.word? i = some w := by
  rw [word?, hlow, hhigh]
  simp

theorem word?_congr {bytes bytes' : Bytes} {i : Nat} (hlow : bytes[i]? = bytes'[i]?)
    (hhigh : bytes[i + 1]? = bytes'[i + 1]?) : bytes.word? i = bytes'.word? i := by
  rw [word?, word?, hlow, hhigh]

/-! ## Vectors -/

theorem putAll?_of_putVector? {bank out : Bytes} {fromEnd : Nat} {w : UInt16}
    (h : bank.putVector? fromEnd w = some out) :
    fromEnd ≤ bank.size ∧ bank.putAll? (bank.size - fromEnd) (wordBytes w) = some out := by
  unfold putVector? at h
  split at h
  · next hle => exact ⟨hle, h⟩
  · cases h

theorem exists_putVector? {bank : Bytes} {fromEnd : Nat} (w : UInt16) (htwo : 2 ≤ fromEnd)
    (hle : fromEnd ≤ bank.size) : ∃ out, bank.putVector? fromEnd w = some out := by
  rw [putVector?, if_pos hle]
  exact putAll?_eq_some (by rw [length_wordBytes]; omega)

/-- A vector that was written is there. -/
theorem vector?_of_putVector? {bank out : Bytes} {fromEnd : Nat} {w : UInt16}
    (h : bank.putVector? fromEnd w = some out) : out.vector? fromEnd = some w := by
  obtain ⟨hle, hput⟩ := putAll?_of_putVector? h
  have hsize := size_of_putAll? hput
  rw [vector?, hsize, if_pos hle]
  exact word?_eq_some (getElem?_of_putAll? hput Nat.two_pos)
    (getElem?_of_putAll? hput Nat.one_lt_two)

theorem exists_vector? {bank : Bytes} {fromEnd : Nat} (htwo : 2 ≤ fromEnd)
    (hle : fromEnd ≤ bank.size) : ∃ w, bank.vector? fromEnd = some w := by
  have hlow : bank.size - fromEnd < bank.size := by omega
  have hhigh : bank.size - fromEnd + 1 < bank.size := by omega
  rw [vector?, if_pos hle, word?, Array.getElem?_eq_getElem hlow, Array.getElem?_eq_getElem hhigh]
  exact ⟨_, rfl⟩

/-- A vector is its two bytes. -/
theorem getElem?_of_vector? {bank : Bytes} {fromEnd : Nat} {w : UInt16}
    (h : bank.vector? fromEnd = some w) :
    bank[bank.size - fromEnd]? = some (lowByte w) ∧
      bank[bank.size - fromEnd + 1]? = some (highByte w) := by
  unfold vector? word? at h
  split at h
  · split at h
    · next hlow hhigh =>
        cases h
        rw [hlow, hhigh, lowByte_wordOf, highByte_wordOf]
        exact ⟨rfl, rfl⟩
    · cases h
  · cases h

/-- Buffers of one size with the same two bytes have the same vector. -/
theorem vector?_congr {bank bank' : Bytes} {fromEnd : Nat} (hsize : bank.size = bank'.size)
    (hlow : bank[bank.size - fromEnd]? = bank'[bank.size - fromEnd]?)
    (hhigh : bank[bank.size - fromEnd + 1]? = bank'[bank.size - fromEnd + 1]?) :
    bank.vector? fromEnd = bank'.vector? fromEnd := by
  rw [vector?, vector?, ← hsize, word?_congr hlow hhigh]

end Bytes

end Cartridge
