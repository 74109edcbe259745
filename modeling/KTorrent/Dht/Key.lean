import Mathlib.Data.List.OfFn
import Mathlib.Order.Basic
import Mathlib.Data.List.GetD
import Mathlib.Data.Nat.Bitwise
import Mathlib.Data.Fintype.Defs
import Mathlib.Data.Fintype.Basic

/-!
# Keys of the distributed hash table

A key is a SHA1 hash: twenty bytes. Keys are compared byte by byte, and the distance of two keys is
their exclusive or.

* `Key.toNat` — the number of 160 bits that a key stands for.
* `Key.lt_iff` — the comparison byte by byte is that of the numbers, so that keys are in linear
  order.
* `Key.toNat_distance` — the distance is the exclusive or of the numbers.

Source: `kademlia/key.cpp`, `util/sha1hash.cpp`
-/

namespace KTorrent.Dht

/-- Source: `util/sha1hash.h`, `SHA1Hash`; `kademlia/key.h`, `Key`. Kind: D -/
structure Key where
  hash : Fin 20 → UInt8

namespace Key

/-- Keys are equal when their bytes are. Source: `kademlia/key.cpp`, `util/sha1hash.cpp`. Kind: L -/
theorem ext {a b : Key} (h : ∀ i, a.hash i = b.hash i) : a = b := by
  cases a
  cases b
  exact congrArg Key.mk (funext h)

/-- Source: `SHA1Hash::getData`. Kind: D -/
def getData (k : Key) : List UInt8 := List.ofFn k.hash

/-- The first twenty bytes; bytes that are not there are zero. Source: `Key::Key(const TQByteArray &)`.
Kind: D -/
def ofBytes (ba : List UInt8) : Key := ⟨fun i => ba.getD i 0⟩

/-- Source: `Key::distance`; `util/sha1hash.cpp`, `operator ^`. Kind: D -/
def distance (a b : Key) : Key := ⟨fun i => a.hash i ^^^ b.hash i⟩

/-- The bytes that are left to be compared. Source: `Key::operator <`, the loop. Kind: D -/
def ltLoop : List UInt8 → List UInt8 → Bool
  | a :: as, b :: bs => if a < b then true else if b < a then false else ltLoop as bs
  | _, _ => false

/-- Source: `Key::operator <`. Kind: D -/
def lt (a b : Key) : Bool := ltLoop a.getData b.getData

/-- A key has 20 bytes. Source: `SHA1Hash::getData`. Kind: L -/
@[simp] theorem length_getData (k : Key) : k.getData.length = 20 := List.length_ofFn

/-- A key is made of its bytes, whatever follows them. Source: `Key::Key(const TQByteArray &)`.
Kind: L -/
@[simp] theorem ofBytes_getData_append (k : Key) (rest : List UInt8) :
    ofBytes (k.getData ++ rest) = k := by
  apply Key.ext
  intro i
  show (k.getData ++ rest).getD i 0 = k.hash i
  rw [List.getD_append _ _ _ _ (by rw [length_getData]; exact i.2), getData,
    List.getD_eq_getElem _ _ (by rw [List.length_ofFn]; exact i.2), List.getElem_ofFn]

/-- A key is read back from its bytes. Source: `Key::Key(const TQByteArray &)`. Kind: L -/
@[simp] theorem ofBytes_getData (k : Key) : ofBytes k.getData = k := by
  have h := ofBytes_getData_append k []
  rwa [List.append_nil] at h

/-! ### Keys as numbers -/

/-- The number that bytes stand for, the highest first. Kind: D -/
def value : List UInt8 → ℕ
  | [] => 0
  | b :: bs => 2 ^ (8 * bs.length) * b.toNat + value bs

/-- The number of 160 bits that a key stands for. Kind: D -/
def toNat (k : Key) : ℕ := value k.getData

/-- A number of so many bytes. Source: `kademlia/key.cpp`, `util/sha1hash.cpp`. Kind: L -/
theorem value_lt (bs : List UInt8) : value bs < 2 ^ (8 * bs.length) := by
  induction bs with
  | nil => exact Nat.one_pos
  | cons b bs ih =>
    have hb : b.toNat + 1 ≤ 256 := b.toNat_lt
    have hpow : 2 ^ (8 * (b :: bs).length) = 2 ^ (8 * bs.length) * 256 := by
      rw [List.length_cons, Nat.mul_succ, pow_add]
      rfl
    rw [hpow]
    calc value (b :: bs) = 2 ^ (8 * bs.length) * b.toNat + value bs := rfl
      _ < 2 ^ (8 * bs.length) * b.toNat + 2 ^ (8 * bs.length) := Nat.add_lt_add_left ih _
      _ = 2 ^ (8 * bs.length) * (b.toNat + 1) := (Nat.mul_succ _ _).symm
      _ ≤ 2 ^ (8 * bs.length) * 256 := Nat.mul_le_mul_left _ hb

/-- Bytes can be compared. Source: `kademlia/key.cpp`, `util/sha1hash.cpp`. Kind: L -/
theorem trichotomy (a b : UInt8) : a < b ∨ a = b ∨ b < a := by
  by_cases h : a = b
  · exact Or.inr (Or.inl h)
  · rcases UInt8.lt_or_lt_of_ne h with h1 | h1
    · exact Or.inl h1
    · exact Or.inr (Or.inr h1)

/-- A higher first byte makes a higher number. Source: `kademlia/key.cpp`, `util/sha1hash.cpp`.
Kind: L -/
theorem value_cons_lt {a b : UInt8} (h : a < b) {as bs : List UInt8}
    (hlen : as.length = bs.length) : value (a :: as) < value (b :: bs) := by
  have h1 := value_lt as
  have h2 : a.toNat + 1 ≤ b.toNat := UInt8.lt_iff_toNat_lt.mp h
  calc value (a :: as) = 2 ^ (8 * as.length) * a.toNat + value as := rfl
    _ < 2 ^ (8 * as.length) * a.toNat + 2 ^ (8 * as.length) := Nat.add_lt_add_left h1 _
    _ = 2 ^ (8 * as.length) * (a.toNat + 1) := (Nat.mul_succ _ _).symm
    _ ≤ 2 ^ (8 * as.length) * b.toNat := Nat.mul_le_mul_left _ h2
    _ ≤ 2 ^ (8 * as.length) * b.toNat + value bs := Nat.le_add_right _ _
    _ = value (b :: bs) := by rw [hlen]; rfl

/-- The source's loop compares the numbers. Source: `Key::operator <`. Kind: L -/
theorem ltLoop_iff {as bs : List UInt8} (hlen : as.length = bs.length) :
    ltLoop as bs = true ↔ value as < value bs := by
  induction as generalizing bs with
  | nil =>
    obtain rfl : bs = [] := List.eq_nil_of_length_eq_zero hlen.symm
    simp [ltLoop, value]
  | cons a as ih =>
    cases bs with
    | nil => cases hlen
    | cons b bs =>
      have hlen' : as.length = bs.length := Nat.succ.inj hlen
      unfold ltLoop
      rcases trichotomy a b with h | rfl | h
      · rw [if_pos h]
        simp only [true_iff]
        exact value_cons_lt h hlen'
      · rw [if_neg (UInt8.lt_irrefl a), if_neg (UInt8.lt_irrefl a), ih hlen']
        show _ ↔ 2 ^ (8 * as.length) * a.toNat + value as < 2 ^ (8 * bs.length) * a.toNat + value bs
        rw [hlen', Nat.add_lt_add_iff_left]
      · rw [if_neg (UInt8.lt_asymm h), if_pos h]
        simp only [Bool.false_eq_true, false_iff, not_lt]
        exact (value_cons_lt h hlen'.symm).le

/-- **Keys are compared as numbers.**. Source: `kademlia/key.cpp`, `util/sha1hash.cpp`. Kind: L -/
theorem lt_iff (a b : Key) : lt a b = true ↔ a.toNat < b.toNat :=
  ltLoop_iff (by rw [length_getData, length_getData])

/-- Bytes of one length are settled by their number. Source: `kademlia/key.cpp`,
`util/sha1hash.cpp`. Kind: L -/
theorem value_inj {as bs : List UInt8} (hlen : as.length = bs.length) (h : value as = value bs) :
    as = bs := by
  induction as generalizing bs with
  | nil => exact (List.eq_nil_of_length_eq_zero hlen.symm).symm
  | cons a as ih =>
    cases bs with
    | nil => cases hlen
    | cons b bs =>
      have hlen' : as.length = bs.length := Nat.succ.inj hlen
      rcases trichotomy a b with hlt | rfl | hlt
      · exact absurd h (value_cons_lt hlt hlen').ne
      · have h' : 2 ^ (8 * as.length) * a.toNat + value as =
            2 ^ (8 * bs.length) * a.toNat + value bs := h
        rw [hlen'] at h'
        rw [ih hlen' (Nat.add_left_cancel h')]
      · exact absurd h.symm (value_cons_lt hlt hlen'.symm).ne

/-- Keys are settled by their bytes. Source: `SHA1Hash::getData`. Kind: L -/
theorem getData_injective : Function.Injective getData := by
  intro a b h
  rw [← ofBytes_getData a, h, ofBytes_getData]

/-- Keys are settled by their numbers. Source: `kademlia/key.cpp`, `util/sha1hash.cpp`. Kind: L -/
theorem toNat_injective : Function.Injective toNat := fun a b h =>
  getData_injective (value_inj (by rw [length_getData, length_getData]) h)

/-- Keys in the order of their numbers. Kind: D -/
instance : LinearOrder Key := LinearOrder.lift' toNat toNat_injective

/-- The order of keys is that of the numbers. Source: `kademlia/key.cpp`, `util/sha1hash.cpp`.
Kind: L -/
theorem lt_def (a b : Key) : a < b ↔ a.toNat < b.toNat := Iff.rfl

/-- The order is the one the sources compute. Source: `kademlia/key.cpp`, `util/sha1hash.cpp`.
Kind: L -/
theorem lt_eq (a b : Key) : lt a b = decide (a < b) := by
  rw [Bool.eq_iff_iff, lt_iff, decide_eq_true_iff, lt_def]

/-! ### The distance -/

/-- The exclusive or of bytes is that of the numbers. Source: `kademlia/key.cpp`,
`util/sha1hash.cpp`. Kind: L -/
theorem value_zipWith_xor {as bs : List UInt8} (hlen : as.length = bs.length) :
    value (List.zipWith (· ^^^ ·) as bs) = value as ^^^ value bs := by
  induction as generalizing bs with
  | nil =>
    obtain rfl : bs = [] := List.eq_nil_of_length_eq_zero hlen.symm
    rfl
  | cons a as ih =>
    cases bs with
    | nil => cases hlen
    | cons b bs =>
      have hlen' : as.length = bs.length := Nat.succ.inj hlen
      have hz : (List.zipWith (· ^^^ ·) as bs).length = as.length := by
        rw [List.length_zipWith, ← hlen', Nat.min_self]
      have h1 := value_lt as
      have h2 := value_lt bs
      have h3 := value_lt (List.zipWith (· ^^^ ·) as bs)
      rw [← hlen'] at h2
      rw [hz] at h3
      apply Nat.eq_of_testBit_eq
      intro j
      show Nat.testBit (2 ^ (8 * (List.zipWith (· ^^^ ·) as bs).length) * (a ^^^ b).toNat +
        value (List.zipWith (· ^^^ ·) as bs)) j = Nat.testBit ((2 ^ (8 * as.length) * a.toNat +
          value as) ^^^ (2 ^ (8 * bs.length) * b.toNat + value bs)) j
      rw [hz, ← hlen', Nat.testBit_xor, Nat.testBit_two_pow_mul_add _ h3,
        Nat.testBit_two_pow_mul_add _ h1, Nat.testBit_two_pow_mul_add _ h2, ih hlen',
        UInt8.toNat_xor, Nat.testBit_xor, Nat.testBit_xor]
      split_ifs
      · rfl
      · rfl

/-- **The distance is the exclusive or of the numbers.**. Source: `Key::distance`. Kind: L -/
theorem toNat_distance (a b : Key) : (distance a b).toNat = a.toNat ^^^ b.toNat := by
  have h : (distance a b).getData = List.zipWith (· ^^^ ·) a.getData b.getData := by
    apply List.ext_getElem
    · simp
    · intro i h1 h2
      simp [getData, distance]
  rw [toNat, h, value_zipWith_xor (by rw [length_getData, length_getData])]
  rfl

/-- The distance is symmetric. Source: `Key::distance`. Kind: L -/
theorem distance_comm (a b : Key) : distance a b = distance b a :=
  Key.ext fun _ => UInt8.xor_comm _ _

/-- Different keys are at different distances. Source: `Key::distance`. Kind: L -/
theorem distance_injective (k : Key) : Function.Injective (distance k) := by
  intro a b h
  apply Key.ext
  intro i
  have hi : k.hash i ^^^ a.hash i = k.hash i ^^^ b.hash i := congrFun (congrArg hash h) i
  exact (UInt8.xor_right_inj _).mp hi

end Key

end KTorrent.Dht
