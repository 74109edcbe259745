import Mathlib.Data.Fin.Basic
import Mathlib.Data.Fintype.Card
import Mathlib.Data.List.OfFn
import Mathlib.Logic.Function.Basic

/-!
# `bt::BitSet`

A `BitSet n` is a set of bits `0 .. n-1`; `n` is `num_bits`. Reading a bit outside the range gives
`false` and writing one does nothing, as in the source, so every index is legal. Two bit sets of
one size with the same bits are equal.

Source: `util/bitset.h`, `util/bitset.cpp`
-/

namespace KTorrent.Util

/-- A bit set of `n` bits. Source: `util/bitset.h`, `BitSet`. Kind: D -/
structure BitSet (n : ℕ) where
  /-- The bits. -/
  bits : Fin n → Bool
deriving DecidableEq

namespace BitSet

variable {n : ℕ}

/-- Source: `BitSet::BitSet(Uint32)`: all bits off. Kind: D -/
def empty (n : ℕ) : BitSet n := ⟨fun _ => false⟩

/-- Source: `BitSet::get`. Kind: D -/
def get (b : BitSet n) (i : ℕ) : Bool := if h : i < n then b.bits ⟨i, h⟩ else false

/-- Source: `BitSet::set`. Kind: D -/
def set (b : BitSet n) (i : ℕ) (on : Bool) : BitSet n :=
  if h : i < n then ⟨Function.update b.bits ⟨i, h⟩ on⟩ else b

/-- Source: `BitSet::setAll`. Kind: D -/
def setAll (_ : BitSet n) (on : Bool) : BitSet n := ⟨fun _ => on⟩

/-- Source: `BitSet::numOnBits`. Kind: D -/
def numOnBits (b : BitSet n) : ℕ := (List.ofFn b.bits).count true

/-- Bits outside the range are off. Source: `util/bitset.h`, `util/bitset.cpp`. Kind: L -/
theorem get_of_le (b : BitSet n) {i : ℕ} (h : n ≤ i) : b.get i = false :=
  dif_neg (by omega)

/-- Only bits in range are on. Source: `util/bitset.h`, `util/bitset.cpp`. Kind: L -/
theorem lt_of_get {b : BitSet n} {i : ℕ} (h : b.get i = true) : i < n := by
  by_contra hi
  rw [get_of_le b (by omega)] at h
  cases h

/-- **Reading after writing.**. Source: `util/bitset.h`, `util/bitset.cpp`. Kind: L -/
theorem get_set (b : BitSet n) (i j : ℕ) (on : Bool) :
    (b.set i on).get j = if j = i ∧ i < n then on else b.get j := by
  unfold set
  by_cases hi : i < n
  · simp only [hi, dif_pos, and_true, get]
    by_cases hj : j < n
    · simp [hj, Function.update_apply, Fin.ext_iff]
    · have hne : j ≠ i := fun h => hj (h ▸ hi)
      simp [hj, hne]
  · simp [hi]

/-- A bit that is set. Source: `util/bitset.h`, `util/bitset.cpp`. Kind: L -/
@[simp] theorem get_set_self (b : BitSet n) {i : ℕ} (h : i < n) (on : Bool) :
    (b.set i on).get i = on := by
  simp [get_set, h]

/-- The other bits. Source: `util/bitset.h`, `util/bitset.cpp`. Kind: L -/
theorem get_set_of_ne (b : BitSet n) {i j : ℕ} (h : j ≠ i) (on : Bool) :
    (b.set i on).get j = b.get j := by
  simp [get_set, h]

/-- An empty bit set has no bit on. Source: `BitSet::BitSet(Uint32)`. Kind: L -/
@[simp] theorem get_empty (i : ℕ) : (empty n).get i = false := by
  simp [empty, get]

/-- All bits are set. Source: `BitSet::setAll`. Kind: L -/
theorem get_setAll (b : BitSet n) (on : Bool) {i : ℕ} (h : i < n) :
    (b.setAll on).get i = on := by
  simp [setAll, get, h]

/-- Bit sets with the same bits are equal. Source: `util/bitset.h`, `util/bitset.cpp`. Kind: L -/
theorem ext_get {b c : BitSet n} (h : ∀ i < n, b.get i = c.get i) : b = c := by
  obtain ⟨f⟩ := b
  obtain ⟨g⟩ := c
  congr 1
  funext i
  simpa [get] using h i i.2

/-- An empty bit set counts none. Source: `BitSet::numOnBits`. Kind: L -/
@[simp] theorem numOnBits_empty (n : ℕ) : (empty n).numOnBits = 0 := by
  unfold numOnBits empty
  rw [List.count_eq_zero]
  simp

/-- Switching a bit on adds one to the bits that are on. Source: `BitSet::numOnBits`. Kind: L -/
theorem numOnBits_set (b : BitSet n) {i : ℕ} (hi : i < n) (h : b.get i = false) :
    (b.set i true).numOnBits = b.numOnBits + 1 := by
  have hlist : List.ofFn (b.set i true).bits = (List.ofFn b.bits).set i true := by
    refine List.ext_getElem (by simp) fun j h1 h2 => ?_
    rw [List.getElem_set, List.getElem_ofFn, List.getElem_ofFn]
    simp only [set, dif_pos hi, Function.update_apply, Fin.ext_iff]
    exact if_congr eq_comm rfl rfl
  have hbit : b.bits ⟨i, hi⟩ = false := by simpa [get, hi] using h
  unfold numOnBits
  rw [hlist, List.count_set (by simpa using hi), List.getElem_ofFn, hbit]
  simp

/-- When as many bits are on as there are, all are. Source: `BitSet::numOnBits`. Kind: L -/
theorem get_of_numOnBits (b : BitSet n) (h : n ≤ b.numOnBits) {i : ℕ} (hi : i < n) :
    b.get i = true := by
  have hlen : (List.ofFn b.bits).length = n := List.length_ofFn
  have hcount : (List.ofFn b.bits).count true = (List.ofFn b.bits).length := by
    refine le_antisymm List.count_le_length ?_
    rw [hlen]
    exact h
  have hmem := List.count_eq_length.mp hcount (b.bits ⟨i, hi⟩)
    (List.mem_ofFn.mpr ⟨⟨i, hi⟩, rfl⟩)
  simp [get, hi, ← hmem]

/-- The number of bits that are on. Source: `BitSet::numOnBits`. Kind: L -/
theorem card_on (b : BitSet n) :
    (Finset.univ.filter fun i : Fin n => b.get i = true).card = b.numOnBits := by
  obtain ⟨f⟩ := b
  have hget : ∀ i : Fin n, (BitSet.mk f).get i = f i := fun i => by simp [get]
  simp only [hget, numOnBits, List.count, List.ofFn_eq_map, List.countP_map]
  rw [← List.toFinset_finRange, (List.nodup_finRange n).card_eq_countP]
  apply List.countP_congr
  intro i _
  simp

/-- No more bits are on than there are. Source: `BitSet::numOnBits`. Kind: L -/
theorem numOnBits_le (b : BitSet n) : b.numOnBits ≤ n := by
  have h := (Finset.univ.filter fun i : Fin n => b.get i = true).card_le_univ
  rwa [card_on, Fintype.card_fin] at h

/-- The number of bits that are off. Source: `BitSet::numOnBits`. Kind: L -/
theorem card_off (b : BitSet n) :
    (Finset.univ.filter fun i : Fin n => b.get i = false).card = n - b.numOnBits := by
  have hsplit := Finset.card_filter_add_card_filter_not (s := (Finset.univ : Finset (Fin n)))
    fun i => b.get i = true
  simp only [Bool.not_eq_true] at hsplit
  rw [card_on, Finset.card_univ, Fintype.card_fin] at hsplit
  omega

/-- All the bits that are on are all there are. Source: `BitSet::numOnBits`. Kind: L -/
theorem numOnBits_of_get (b : BitSet n) (h : ∀ i < n, b.get i = true) : b.numOnBits = n := by
  have hall : (Finset.univ.filter fun i : Fin n => b.get i = true) = Finset.univ :=
    Finset.filter_true_of_mem fun i _ => h i.val i.2
  rw [← card_on, hall, Finset.card_univ, Fintype.card_fin]

end BitSet

end KTorrent.Util
