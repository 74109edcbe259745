import Mathlib.Data.List.GetD
import Mathlib.Data.List.TakeDrop

/-!
# Files and buffers as lists of bytes

* `writeAt data off bs` — `bs` written over `data` from `off` on. A file that is too short is first
  grown with zeros up to `off`, and a write past the end makes it longer.
* `peek`, `place` — the same accesses to a buffer of a fixed size: `none` is an access outside.

The lemmas give every byte after a write (`getElem?_writeAt`), so that a sequence of writes is
followed one byte at a time.
-/

namespace KTorrent.Lib

/-- The contents after `bs` is written from `off` on. -/
def writeAt (data : List UInt8) (off : ℕ) (bs : List UInt8) : List UInt8 :=
  (data.take off ++ List.replicate (off - data.length) 0) ++ bs ++ data.drop (off + bs.length)

/-- The `len` bytes of a buffer from `off` on. -/
def peek (data : List UInt8) (off len : ℕ) : Option (List UInt8) :=
  if off + len ≤ data.length then some ((data.drop off).take len) else none

/-- A buffer after `bs` is copied to `off`. -/
def place (data : List UInt8) (off : ℕ) (bs : List UInt8) : Option (List UInt8) :=
  if off + bs.length ≤ data.length then some (writeAt data off bs) else none

/-- Writing lengthens the data where it reaches beyond it. Source: none: infrastructure. Kind: L -/
theorem length_writeAt (data : List UInt8) (off : ℕ) (bs : List UInt8) :
    (writeAt data off bs).length = max data.length (off + bs.length) := by
  simp only [writeAt, List.length_append, List.length_take, List.length_replicate,
    List.length_drop]
  omega

/-- **Every byte after a write.**. Source: none: infrastructure. Kind: L -/
theorem getElem?_writeAt (data : List UInt8) (off : ℕ) (bs : List UInt8) (i : ℕ) :
    (writeAt data off bs)[i]? =
      if off ≤ i ∧ i < off + bs.length then bs[i - off]?
      else if i < off then some (data.getD i 0) else data[i]? := by
  have hfront : (data.take off ++ List.replicate (off - data.length) (0 : UInt8)).length = off := by
    simp only [List.length_append, List.length_take, List.length_replicate]
    omega
  unfold writeAt
  by_cases h1 : i < off
  · rw [if_neg (by omega), if_pos h1, List.append_assoc, List.getElem?_append_left (by omega)]
    by_cases h2 : i < data.length
    · rw [List.getElem?_append_left (by simp; omega), List.getElem?_take_of_lt h1,
        List.getD_eq_getElem _ _ h2, List.getElem?_eq_getElem h2]
    · rw [List.getElem?_append_right (by simp; omega), List.getD_eq_default _ _ (by omega)]
      rw [List.getElem?_replicate, if_pos (by simp; omega)]
  · by_cases h2 : i < off + bs.length
    · rw [if_pos (by omega), List.getElem?_append_left (by rw [List.length_append]; omega),
        List.getElem?_append_right (by omega), hfront]
    · rw [if_neg (by omega), if_neg h1,
        List.getElem?_append_right (by rw [List.length_append]; omega), List.length_append, hfront,
        List.getElem?_drop]
      congr 1
      omega

/-- A byte that was written. Source: none: infrastructure. Kind: L -/
theorem getElem?_writeAt_of_mem (data : List UInt8) {off : ℕ} {bs : List UInt8} {i : ℕ}
    (h1 : off ≤ i) (h2 : i < off + bs.length) : (writeAt data off bs)[i]? = bs[i - off]? := by
  rw [getElem?_writeAt, if_pos ⟨h1, h2⟩]

/-- A byte that was not written; one the file did not have counts as zero. Source: none:
infrastructure. Kind: L -/
theorem getD_writeAt_of_not_mem (data : List UInt8) {off : ℕ} {bs : List UInt8} {i : ℕ}
    (h : i < off ∨ off + bs.length ≤ i) : (writeAt data off bs).getD i 0 = data.getD i 0 := by
  rw [List.getD_eq_getElem?_getD, getElem?_writeAt, if_neg (by omega)]
  by_cases h1 : i < off
  · rw [if_pos h1, Option.getD_some]
  · rw [if_neg h1, List.getD_eq_getElem?_getD]

/-- A byte that was there and was not written. Source: none: infrastructure. Kind: L -/
theorem getElem?_writeAt_of_lt (data : List UInt8) {off : ℕ} {bs : List UInt8} {i : ℕ}
    (h : i < off ∨ off + bs.length ≤ i) (hi : i < data.length) :
    (writeAt data off bs)[i]? = data[i]? := by
  rw [getElem?_writeAt, if_neg (by omega)]
  by_cases h1 : i < off
  · rw [if_pos h1, List.getD_eq_getElem _ _ hi, List.getElem?_eq_getElem hi]
  · rw [if_neg h1]

/-- Reading inside the data. Source: none: infrastructure. Kind: L -/
theorem peek_eq {data : List UInt8} {off len : ℕ} (h : off + len ≤ data.length) :
    peek data off len = some ((data.drop off).take len) :=
  if_pos h

/-- Writing inside the data. Source: none: infrastructure. Kind: L -/
theorem place_eq {data : List UInt8} {off : ℕ} {bs : List UInt8}
    (h : off + bs.length ≤ data.length) : place data off bs = some (writeAt data off bs) :=
  if_pos h

end KTorrent.Lib
