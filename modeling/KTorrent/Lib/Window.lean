import Mathlib.Data.List.OfFn
import Mathlib.Data.List.GetD

/-!
# Windows of a byte memory

A memory is a total map `ℕ → UInt8`. `slice m off len` reads `len` consecutive bytes as a list and
`blit m off bs` writes a list of bytes from `off` on. The lemmas say how the two compose: a write
is read back, a write outside a window does not change it, and adjacent windows concatenate.
-/

namespace KTorrent.Lib

/-- A byte memory, addressed by natural numbers. -/
abbrev Mem := ℕ → UInt8

/-- The `len` bytes from `off` on. -/
def slice (m : Mem) (off len : ℕ) : List UInt8 := List.ofFn fun j : Fin len => m (off + j)

/-- The memory after writing `bs` from `off` on. -/
def blit (m : Mem) (off : ℕ) (bs : List UInt8) : Mem := fun j =>
  if off ≤ j ∧ j < off + bs.length then bs.getD (j - off) 0 else m j

/-- A slice has its length. Source: none: infrastructure. Kind: L -/
@[simp] theorem length_slice (m : Mem) (off len : ℕ) : (slice m off len).length = len := by
  simp [slice]

/-- A slice of no bytes. Source: none: infrastructure. Kind: L -/
@[simp] theorem slice_zero (m : Mem) (off : ℕ) : slice m off 0 = [] := rfl

/-- A byte of a window. Source: none: infrastructure. Kind: L -/
theorem getElem_slice (m : Mem) (off len : ℕ) {i : ℕ} (h : i < (slice m off len).length) :
    (slice m off len)[i] = m (off + i) := by
  simp [slice]

/-- A byte of a window, with a default. Source: none: infrastructure. Kind: L -/
theorem getD_slice (m : Mem) (off : ℕ) {len i : ℕ} (h : i < len) (d : UInt8) :
    (slice m off len).getD i d = m (off + i) := by
  rw [List.getD_eq_getElem _ _ (by simpa using h), getElem_slice]

/-- Windows are equal iff the memories agree on them. Source: none: infrastructure. Kind: L -/
theorem slice_eq_slice_iff {m m' : Mem} {off off' len : ℕ} :
    slice m off len = slice m' off' len ↔ ∀ i < len, m (off + i) = m' (off' + i) := by
  constructor
  · intro h i hi
    have := congrArg (fun l => l.getD i 0) h
    simpa only [getD_slice m off hi, getD_slice m' off' hi] using this
  · intro h
    apply List.ext_getElem (by simp)
    intro i h1 _
    rw [getElem_slice, getElem_slice]
    exact h i (by simpa using h1)

/-- Adjacent windows concatenate. Source: none: infrastructure. Kind: L -/
theorem slice_append (m : Mem) (off a b : ℕ) :
    slice m off a ++ slice m (off + a) b = slice m off (a + b) := by
  apply List.ext_getElem (by simp)
  intro i h1 h2
  rw [getElem_slice]
  by_cases hi : i < a
  · rw [List.getElem_append_left (by simpa using hi), getElem_slice]
  · rw [List.getElem_append_right (by simpa using hi), getElem_slice]
    congr 1
    rw [length_slice]
    omega

/-- A byte inside the written range. Source: none: infrastructure. Kind: L -/
theorem blit_of_mem (m : Mem) {off j : ℕ} {bs : List UInt8} (h1 : off ≤ j)
    (h2 : j < off + bs.length) : blit m off bs j = bs.getD (j - off) 0 :=
  if_pos ⟨h1, h2⟩

/-- A byte outside the written range. Source: none: infrastructure. Kind: L -/
theorem blit_of_not_mem (m : Mem) {off j : ℕ} {bs : List UInt8}
    (h : j < off ∨ off + bs.length ≤ j) : blit m off bs j = m j :=
  if_neg (by omega)

/-- What was written is read back. Source: none: infrastructure. Kind: L -/
theorem slice_blit_self (m : Mem) (off : ℕ) (bs : List UInt8) :
    slice (blit m off bs) off bs.length = bs := by
  apply List.ext_getElem (by simp)
  intro i h1 h2
  rw [getElem_slice, blit_of_mem m (by omega) (by omega)]
  rw [List.getD_eq_getElem _ _ (by omega)]
  congr 1
  omega

/-- Writing a window of another memory copies it. Source: none: infrastructure. Kind: L -/
theorem slice_blit_slice (m m' : Mem) (off off' len : ℕ) :
    slice (blit m off (slice m' off' len)) off len = slice m' off' len := by
  simpa using slice_blit_self m off (slice m' off' len)

end KTorrent.Lib
