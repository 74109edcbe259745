import KTorrent.Dht.Node
import Mathlib.Data.BitVec

/-!
# The key a bucket is refreshed with

To refresh a bucket, the table looks up a random key that is meant to belong to it. `findBucket` counts
the buckets from the last bit on, `randomKeyInBucket` from the first.

* `findBucket_randomKey` — a random key for bucket `b` belongs to bucket `159 - b`.
* `refresh_misses` — which is never the same, whatever our own ID and the key drawn are.

Source: `kademlia/node.cpp`
-/

namespace KTorrent.Dht

namespace Node

/-- One bit of a byte, on or off. Kind: D -/
def setBit (j : ℕ) (on : Bool) (x : UInt8) : UInt8 :=
  if on then x ||| 0x80 >>> UInt8.ofNat j else x &&& ~~~(0x80 >>> UInt8.ofNat j)

/-- The first `j` bits are those of `ob`. Source: `RandomKeyInBucket`, the second loop. Kind: D -/
def copyBits (ob : UInt8) : ℕ → UInt8 → UInt8
  | 0, x => x
  | j + 1, x => setBit j (0x80 >>> UInt8.ofNat j &&& ob ≠ 0) (copyBits ob j x)

/-- `r` is the key drawn. Source: `RandomKeyInBucket`. Kind: D -/
def randomKeyInBucket (r : Key) (b : Fin 160) (our_id : Key) : Key :=
  let nb : Fin 20 := ⟨b / 8, by omega⟩
  let ob := our_id.hash nb
  ⟨fun i =>
    -- before we hit bit b, everything needs to be equal to our_id
    if i < nb then our_id.hash i
    else if i = nb then
      -- if the bit b is on turn it off else turn it on
      setBit (b % 8) (0x80 >>> UInt8.ofNat (b % 8) &&& ob = 0) (copyBits ob (b % 8) (r.hash i))
    else r.hash i⟩

/-- The keys looked up, with their buckets. `random` are the keys drawn, `stale` are the buckets that
need to be refreshed. Source: `Node::refreshBuckets`. Kind: D -/
def refreshBuckets (random : Fin 160 → Key) (stale : Fin 160 → KBucket → Bool) (n : Node) :
    List (Fin 160 × Key) :=
  (List.finRange 160).filterMap fun i =>
    match n.bucket i with
    | some b => if stale i b then some (i, randomKeyInBucket (random i) i n.our_id) else none
    | none => none

end Node

/-! ### The bits of a byte -/

/-- The bit that is `j` behind the highest. Kind: D -/
def bitOf (x : UInt8) (j : ℕ) : Bool := x.toBitVec.getLsbD (7 - j)

/-- `0x80 >> j`. Kind: D -/
def maskOf (j : ℕ) : UInt8 := 0x80 >>> UInt8.ofNat j

/-- A bit of a bitwise and. Source: `kademlia/node.cpp`. Kind: L -/
theorem bitOf_and (x y : UInt8) (j : ℕ) : bitOf (x &&& y) j = (bitOf x j && bitOf y j) := by
  unfold bitOf
  rw [UInt8.toBitVec_and, BitVec.getLsbD_and]

/-- A bit of a bitwise or. Source: `kademlia/node.cpp`. Kind: L -/
theorem bitOf_or (x y : UInt8) (j : ℕ) : bitOf (x ||| y) j = (bitOf x j || bitOf y j) := by
  unfold bitOf
  rw [UInt8.toBitVec_or, BitVec.getLsbD_or]

/-- A bit of a bitwise exclusive or. Source: `kademlia/node.cpp`. Kind: L -/
theorem bitOf_xor (x y : UInt8) (j : ℕ) : bitOf (x ^^^ y) j = (bitOf x j ^^ bitOf y j) := by
  unfold bitOf
  rw [UInt8.toBitVec_xor, BitVec.getLsbD_xor]

/-- A bit of a complement. Source: `kademlia/node.cpp`. Kind: L -/
theorem bitOf_not (x : UInt8) (j : ℕ) : bitOf (~~~x) j = !bitOf x j := by
  unfold bitOf
  have hlt : 7 - j < 8 := Nat.lt_succ_of_le (Nat.sub_le 7 j)
  rw [UInt8.toBitVec_not, BitVec.getLsbD_not, decide_eq_true hlt, Bool.true_and]

/-- A mask has its own bit only. Source: `kademlia/node.cpp`. Kind: L -/
theorem bitOf_maskOf {j k : ℕ} (hj : j < 8) (hk : k < 8) : bitOf (maskOf j) k = decide (k = j) := by
  have hall : ∀ j < 8, ∀ k < 8, bitOf (maskOf j) k = decide (k = j) := by decide
  exact hall j hj k hk

/-- Zero has no bit. Source: `kademlia/node.cpp`. Kind: L -/
theorem bitOf_zero (j : ℕ) : bitOf 0 j = false := by
  unfold bitOf
  exact BitVec.getLsbD_zero

/-- The test the source makes. Source: `kademlia/node.cpp`. Kind: L -/
theorem and_maskOf {j : ℕ} (hj : j < 8) (x : UInt8) : x &&& maskOf j ≠ 0 ↔ bitOf x j = true := by
  constructor
  · intro h
    by_contra hbit
    apply h
    apply UInt8.toBitVec_inj.mp
    apply BitVec.eq_of_getLsbD_eq
    intro i hi
    have hx := bitOf_and x (maskOf j) (7 - i)
    rw [bitOf_maskOf hj (by omega)] at hx
    have h7 : 7 - (7 - i) = i := by omega
    unfold bitOf at hx
    rw [h7] at hx
    rw [hx]
    by_cases hij : 7 - i = j
    · rw [← hij] at hbit
      unfold bitOf at hbit
      rw [h7, Bool.not_eq_true] at hbit
      rw [hbit, Bool.false_and]
      exact BitVec.getLsbD_zero.symm
    · rw [decide_eq_false hij, Bool.and_false]
      exact BitVec.getLsbD_zero.symm
  · intro h h0
    have hx := bitOf_and x (maskOf j) j
    rw [h0, h, bitOf_maskOf hj hj, bitOf_zero] at hx
    simp at hx

/-- What `firstBit` finds. Source: `Node::findBucket`. Kind: L -/
theorem firstBit_of_bits {b : UInt8} {m : ℕ} (hm : m < 8) (hon : bitOf b m = true)
    (hoff : ∀ k < m, bitOf b k = false) : Node.firstBit b = some m := by
  unfold Node.firstBit
  rw [List.find?_range_eq_some]
  refine ⟨?_, List.mem_range.mpr hm, ?_⟩
  · exact decide_eq_true ((and_maskOf hm b).mpr hon)
  · intro k hk
    have hk8 : k < 8 := hk.trans hm
    have hno : ¬ (b &&& maskOf k ≠ 0) := by
      rw [and_maskOf hk8, hoff k hk]
      decide
    simpa [maskOf] using hno

/-- One bit is set, the others stay. Source: `kademlia/node.cpp`. Kind: L -/
theorem bitOf_setBit {j k : ℕ} (hj : j < 8) (hk : k < 8) (on : Bool) (x : UInt8) :
    bitOf (Node.setBit j on x) k = if k = j then on else bitOf x k := by
  have hmask : bitOf (0x80 >>> UInt8.ofNat j) k = decide (k = j) := bitOf_maskOf hj hk
  unfold Node.setBit
  cases on with
  | true =>
    rw [if_pos rfl, bitOf_or, hmask]
    by_cases h : k = j
    · rw [if_pos h, decide_eq_true h, Bool.or_true]
    · rw [if_neg h, decide_eq_false h, Bool.or_false]
  | false =>
    rw [if_neg Bool.false_ne_true, bitOf_and, bitOf_not, hmask]
    by_cases h : k = j
    · rw [if_pos h, decide_eq_true h, Bool.not_true, Bool.and_false]
    · rw [if_neg h, decide_eq_false h, Bool.not_false, Bool.and_true]

/-- The test of a bit of our own ID. Source: `kademlia/node.cpp`. Kind: L -/
theorem maskOf_and {j : ℕ} (hj : j < 8) (x : UInt8) :
    decide (0x80 >>> UInt8.ofNat j &&& x ≠ 0) = bitOf x j := by
  have h := and_maskOf hj x
  rw [UInt8.and_comm] at h
  rw [Bool.eq_iff_iff, decide_eq_true_iff]
  exact h

/-- The leading bits are copied. Source: `RandomKeyInBucket`. Kind: L -/
theorem bitOf_copyBits (ob x : UInt8) {m : ℕ} (hm : m ≤ 8) {k : ℕ} (hk : k < m) :
    bitOf (Node.copyBits ob m x) k = bitOf ob k := by
  induction m with
  | zero => cases hk
  | succ m ih =>
    have hm8 : m < 8 := hm
    rw [Node.copyBits, maskOf_and hm8, bitOf_setBit hm8 (hk.trans_le hm)]
    by_cases h : k = m
    · rw [if_pos h, h]
    · rw [if_neg h]
      exact ih hm8.le (by omega)

/-! ### The key drawn -/

namespace Node

/-- The byte in which the key leaves our own ID does so at the bit of the bucket.
Source: `Node::findBucket`. Kind: L -/
theorem firstBit_flipped (ob x : UInt8) {m : ℕ} (hm : m < 8) :
    firstBit (setBit m (0x80 >>> UInt8.ofNat m &&& ob = 0) (copyBits ob m x) ^^^ ob) = some m := by
  have hflip : decide (0x80 >>> UInt8.ofNat m &&& ob = 0) = !bitOf ob m := by
    rw [← maskOf_and hm ob, decide_not, Bool.not_not]
  rw [hflip]
  apply firstBit_of_bits hm
  · rw [bitOf_xor, bitOf_setBit hm hm, if_pos rfl]
    cases bitOf ob m
    · rfl
    · rfl
  · intro k hk
    have hne : k ≠ m := hk.ne
    rw [bitOf_xor, bitOf_setBit hm (hk.trans hm), if_neg hne, bitOf_copyBits ob x hm.le hk,
      Bool.xor_self]

/-- **The random key for a bucket belongs to the bucket at the other end.**.
Source: `Node::findBucket`. Kind: P -/
theorem findBucket_randomKey (r our_id : Key) (b : Fin 160) :
    findBucket our_id (randomKeyInBucket r b our_id) = 159 - b := by
  obtain ⟨nb, hnb⟩ : ∃ nb : Fin 20, nb = ⟨b / 8, by omega⟩ := ⟨_, rfl⟩
  have hval : nb.val = b / 8 := by rw [hnb]
  have hm : b.val % 8 < 8 := Nat.mod_lt _ (by decide)
  have hbefore : ∀ i < nb, (Key.distance (randomKeyInBucket r b our_id) our_id).hash i = 0 := by
    intro i hi
    show (randomKeyInBucket r b our_id).hash i ^^^ our_id.hash i = 0
    unfold randomKeyInBucket
    dsimp only
    rw [← hnb, if_pos hi, UInt8.xor_self]
  have hat : firstBit ((Key.distance (randomKeyInBucket r b our_id) our_id).hash nb) =
      some (b % 8) := by
    show firstBit ((randomKeyInBucket r b our_id).hash nb ^^^ our_id.hash nb) = some (b % 8)
    unfold randomKeyInBucket
    dsimp only
    rw [← hnb, if_neg (lt_irrefl nb), if_pos rfl]
    exact firstBit_flipped _ _ hm
  have hne : (Key.distance (randomKeyInBucket r b our_id) our_id).hash nb ≠ 0 := by
    intro h0
    rw [h0] at hat
    have hzero : firstBit 0 = none := by decide
    rw [hzero] at hat
    cases hat
  have hsplit : ∃ front back, List.finRange 20 = front ++ nb :: back ∧ ∀ i ∈ front, i < nb := by
    refine ⟨(List.finRange 20).take nb, (List.finRange 20).drop (nb + 1), ?_, ?_⟩
    · have hlt : nb.val < (List.finRange 20).length := by
        rw [List.length_finRange]
        exact nb.2
      have hget : (List.finRange 20)[nb.val] = nb := by rw [List.getElem_finRange]; rfl
      conv_lhs => rw [← List.take_append_drop nb.val (List.finRange 20),
        List.drop_eq_getElem_cons hlt, hget]
    · intro i hi
      obtain ⟨k, hk, rfl⟩ := List.mem_iff_getElem.mp hi
      rw [List.length_take] at hk
      rw [List.getElem_take, List.getElem_finRange, Fin.lt_def]
      exact (lt_min_iff.mp hk).1
  obtain ⟨front, back, hlist, hfront⟩ := hsplit
  unfold findBucket
  dsimp only
  rw [hlist, List.findSome?_append, List.findSome?_cons, if_neg hne, hat]
  have hnone : (front.findSome? fun i =>
      if (Key.distance (randomKeyInBucket r b our_id) our_id).hash i = 0 then none
      else (firstBit ((Key.distance (randomKeyInBucket r b our_id) our_id).hash i)).map fun j =>
        (19 - i.val) * 8 + (7 - j)) = none := by
    rw [List.findSome?_eq_none_iff]
    intro i hi
    rw [hbefore i (hfront i hi), if_pos rfl]
  rw [hnone]
  show (19 - nb.val) * 8 + (7 - b.val % 8) = 159 - b.val
  omega

/-- **No bucket is refreshed with a key that belongs to it**, whatever our own ID, the keys drawn
and the table are. Source: `Node::refreshBuckets`. Kind: P -/
theorem refresh_misses (random : Fin 160 → Key) (stale : Fin 160 → KBucket → Bool) (n : Node) :
    (∀ (r our_id : Key) (b : Fin 160), findBucket our_id (randomKeyInBucket r b our_id) ≠ b) ∧
      ∀ e ∈ n.refreshBuckets random stale, findBucket n.our_id e.2 ≠ e.1 := by
  have hmiss : ∀ (r our_id : Key) (b : Fin 160),
      findBucket our_id (randomKeyInBucket r b our_id) ≠ b := by
    intro r our_id b
    rw [findBucket_randomKey]
    omega
  refine ⟨hmiss, fun e he => ?_⟩
  obtain ⟨i, -, hi⟩ := List.mem_filterMap.mp he
  split at hi
  · split_ifs at hi
    rw [← Option.some.inj hi]
    exact hmiss _ _ _
  · cases hi

/-- The first bucket is refreshed with a key of the last. Source: `kademlia/node.cpp`. Kind: P -/
theorem refresh_first :
    ¬ ∀ (r our_id : Key) (b : Fin 160), findBucket our_id (randomKeyInBucket r b our_id) = b := by
  intro h
  have hzero := h ⟨fun _ => 0⟩ ⟨fun _ => 0⟩ 0
  rw [findBucket_randomKey] at hzero
  exact absurd hzero (by decide)

end Node

end KTorrent.Dht
