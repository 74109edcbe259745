import KTorrent.Lib.Sha1
import KTorrent.Util.SHA1HashGen

/-!
# The hash generator computes SHA-1

`SHA1HashGen::generate` and its compression function against the hash as it is specified
(`Lib.Sha1`).

* `value_processChunk` — `processChunk` is the compression function: the source's rotations are
  rotations, its words the words of the schedule, and its two functions written with `|` are those
  of the standard.
* `processTail_eq` — the one or two blocks made of the last bytes are the padding.
* `generate_eq_hash` — `generate` is SHA-1 on every buffer of less than 2³² bytes.

Source: `util/sha1hashgen.cpp`
-/

namespace KTorrent.Util

open KTorrent.Lib

/-- The words of the generator, as a hash value. Kind: D -/
def SHA1Words.value (h : SHA1Words) : Sha1.Value where
  a := h.h0.toBitVec
  b := h.h1.toBitVec
  c := h.h2.toBitVec
  d := h.h3.toBitVec
  e := h.h4.toBitVec

/-! ### The compression function -/

/-- The rotation of the source is a rotation. Source: `LeftRotate`. Kind: L -/
theorem leftRotate_toBitVec (x : UInt32) {n : UInt32} (h0 : 0 < n.toNat) (h32 : n.toNat < 32) :
    (leftRotate x n).toBitVec = x.toBitVec.rotateLeft n.toNat := by
  have hsub : (32 - n).toNat = 32 - n.toNat := by
    rw [UInt32.toNat_sub_of_le]
    · rfl
    · exact UInt32.le_iff_toNat_le.mpr (le_of_lt h32)
  rw [leftRotate, BitVec.rotateLeft_def, UInt32.toBitVec_or, UInt32.toBitVec_shiftLeft,
    UInt32.toBitVec_shiftRight]
  congr 1
  rw [BitVec.ushiftRight_eq']
  congr 1
  show (32 - n).toNat % 32 = 32 - n.toNat % 32
  rw [hsub]
  omega

/-- The bits of four bytes in a row. Source: `util/sha1hashgen.cpp`. Kind: L -/
theorem getLsbD_append_four (x0 x1 x2 x3 : BitVec 8) (k : ℕ) :
    (x0 ++ x1 ++ x2 ++ x3).getLsbD k =
      if k < 8 then x3.getLsbD k
      else if k < 16 then x2.getLsbD (k - 8)
      else if k < 24 then x1.getLsbD (k - 16)
      else x0.getLsbD (k - 24) := by
  rw [BitVec.getLsbD_append, BitVec.getLsbD_append, BitVec.getLsbD_append, Nat.sub_sub, Nat.sub_sub]
  split_ifs <;> first | rfl | omega

/-- Word `i` of a block, its first byte the highest. Source: `SHA1HashGen::processChunk`. Kind: L -/
theorem blockWord_toBitVec (chunk : List UInt8) (i : ℕ) :
    (blockWord chunk i).toBitVec = Sha1.M chunk i := by
  unfold blockWord Sha1.M
  generalize chunk.getD (4 * i) 0 = b0
  generalize chunk.getD (4 * i + 1) 0 = b1
  generalize chunk.getD (4 * i + 2) 0 = b2
  generalize chunk.getD (4 * i + 3) 0 = b3
  have hbit : ∀ (b : UInt8) {j : ℕ}, 8 ≤ j → b.toBitVec.getLsbD j = false := by
    intro b j hj
    exact BitVec.getLsbD_of_ge b.toBitVec j hj
  apply BitVec.eq_of_getLsbD_eq
  intro k hk
  apply Eq.trans _ (getLsbD_append_four _ _ _ _ k).symm
  by_cases h8 : k < 8
  · simp [h8, hk, show k < 24 by omega, show k < 16 by omega]
  · have h3 := hbit b3 (not_lt.mp h8)
    by_cases h16 : k < 16
    · simp [h8, hk, h16, h3, show k < 24 by omega]
    · have h2 := hbit b2 (show 8 ≤ k - 8 by omega)
      by_cases h24 : k < 24
      · simp [h8, hk, h16, h24, h2, h3]
      · have h1 := hbit b1 (show 8 ≤ k - 16 by omega)
        simp [h8, hk, h16, h24, h1, h2, h3]

/-- The expansion after `n` of its rounds. Source: `SHA1HashGen::processChunk`. Kind: L -/
theorem expand_rounds (chunk : List UInt8) (n : ℕ) :
    let w := (List.range n).foldl
      (fun w i => w.push (leftRotate
        (w.getD (i + 13) 0 ^^^ w.getD (i + 8) 0 ^^^ w.getD (i + 2) 0 ^^^ w.getD i 0) 1))
      ((List.range 16).map (blockWord chunk)).toArray
    w.size = 16 + n ∧ ∀ t < 16 + n, (w.getD t 0).toBitVec = Sha1.W chunk t := by
  induction n with
  | zero =>
    refine ⟨by simp, fun t ht => ?_⟩
    have ht' : t < 16 := ht
    rw [Sha1.W, if_pos ht', ← blockWord_toBitVec]
    simp [ht']
  | succ n ih =>
    dsimp only at ih ⊢
    obtain ⟨hsize, hword⟩ := ih
    rw [List.range_succ (n := n), List.foldl_append, List.foldl_cons, List.foldl_nil]
    generalize (List.range n).foldl _ _ = w at hsize hword ⊢
    refine ⟨by rw [Array.size_push, hsize]; rfl, fun t ht => ?_⟩
    rcases Nat.lt_succ_iff_lt_or_eq.mp (show t < 16 + n + 1 from ht) with hlt | rfl
    · rw [← hword t hlt]
      simp [Array.getElem?_push, show t ≠ w.size by omega]
    · rw [Sha1.W, if_neg (by omega), ← hword (16 + n - 3) (by omega), ← hword (16 + n - 8) (by omega),
        ← hword (16 + n - 14) (by omega), ← hword (16 + n - 16) (by omega),
        show 16 + n - 3 = n + 13 by omega, show 16 + n - 8 = n + 8 by omega,
        show 16 + n - 14 = n + 2 by omega, show 16 + n - 16 = n by omega, ← hsize]
      simp only [Array.getD_eq_getD_getElem?, Array.getElem?_push_size, Option.getD_some]
      exact leftRotate_toBitVec _ (by decide) (by decide)

/-- The words of the expansion are those of the schedule. Source: `SHA1HashGen::processChunk`.
Kind: L -/
theorem expand_toBitVec (chunk : List UInt8) {t : ℕ} (ht : t < 80) :
    ((expand chunk).getD t 0).toBitVec = Sha1.W chunk t :=
  (expand_rounds chunk 64).2 t ht

/-- Choosing by `|`: no bit is set on both sides. Source: `util/sha1hashgen.cpp`. Kind: L -/
theorem ch_eq_or (x y z : BitVec 32) : (x &&& y) ||| (~~~x &&& z) = Sha1.Ch x y z := by
  apply BitVec.eq_of_getLsbD_eq
  intro k hk
  simp only [Sha1.Ch, BitVec.getLsbD_or, BitVec.getLsbD_xor, BitVec.getLsbD_and, BitVec.getLsbD_not]
  cases x.getLsbD k <;> simp

/-- The majority by `|`. Source: `util/sha1hashgen.cpp`. Kind: L -/
theorem maj_eq_or (x y z : BitVec 32) :
    (x &&& y) ||| (x &&& z) ||| (y &&& z) = Sha1.Maj x y z := by
  apply BitVec.eq_of_getLsbD_eq
  intro k hk
  simp only [Sha1.Maj, BitVec.getLsbD_or, BitVec.getLsbD_xor, BitVec.getLsbD_and]
  cases x.getLsbD k <;> cases y.getLsbD k <;> cases z.getLsbD k <;> rfl

/-- A fold over the first numbers, seen through a map. Source: `util/sha1hashgen.cpp`. Kind: L -/
theorem foldl_range_map {α β : Type} (v : α → β) {g : α → ℕ → α} {g' : β → ℕ → β} {n : ℕ}
    (h : ∀ s i, i < n → g' (v s) i = v (g s i)) (s : α) :
    (List.range n).foldl g' (v s) = v ((List.range n).foldl g s) := by
  induction n with
  | zero => rfl
  | succ n ih =>
    rw [List.range_succ, List.foldl_append, List.foldl_append, ih fun s i hi => h s i (by omega)]
    exact h _ n (Nat.lt_succ_self n)

/-- The sums of the words are the sums of the values. Source: `util/sha1hashgen.cpp`. Kind: L -/
theorem value_add (h r : SHA1Words) :
    SHA1Words.value ⟨h.h0 + r.h0, h.h1 + r.h1, h.h2 + r.h2, h.h3 + r.h3, h.h4 + r.h4⟩ =
      h.value.add r.value :=
  rfl

/-- **`processChunk` is the compression function.**. Source: `SHA1HashGen::processChunk`. Kind: P -/
theorem value_processChunk (h : SHA1Words) (chunk : List UInt8) :
    (processChunk h chunk).value = Sha1.compress h.value chunk := by
  rw [Sha1.compress, processChunk, value_add]
  refine congrArg h.value.add (foldl_range_map SHA1Words.value ?_ h).symm
  intro s t ht
  have h5 : (leftRotate s.h0 5).toBitVec = s.h0.toBitVec.rotateLeft 5 :=
    leftRotate_toBitVec s.h0 (by decide) (by decide)
  have h30 : (leftRotate s.h1 30).toBitVec = s.h1.toBitVec.rotateLeft 30 :=
    leftRotate_toBitVec s.h1 (by decide) (by decide)
  have hw := expand_toBitVec chunk ht
  generalize (expand chunk).getD t 0 = w at hw ⊢
  -- one case for each function and constant of the standard
  simp only [Sha1.round, SHA1Words.value, Sha1.f, Sha1.K]
  split_ifs
  · simp only [h5, h30, ← hw, UInt32.toBitVec_add, ← ch_eq_or, UInt32.toBitVec_or,
      UInt32.toBitVec_and, UInt32.toBitVec_not]
    rfl
  · simp only [h5, h30, ← hw, UInt32.toBitVec_add, Sha1.Parity, UInt32.toBitVec_xor]
    rfl
  · simp only [h5, h30, ← hw, UInt32.toBitVec_add, ← maj_eq_or, UInt32.toBitVec_or,
      UInt32.toBitVec_and]
    rfl
  · simp only [h5, h30, ← hw, UInt32.toBitVec_add, Sha1.Parity, UInt32.toBitVec_xor]
    rfl

/-- The block loop runs over the blocks of the data. Source: `util/sha1hashgen.cpp`. Kind: L -/
theorem value_processBlocks (h : SHA1Words) (data : List UInt8) :
    (processBlocks h data (data.length / 64)).value =
      (Sha1.blocks data).foldl Sha1.compress h.value := by
  rw [Sha1.blocks, List.foldl_map, processBlocks]
  refine (foldl_range_map SHA1Words.value ?_ h).symm
  intro s i _
  exact (value_processChunk s _).symm

/-! ### Numbers in network byte order -/

/-- The bytes of a word, the highest first. Source: `util/functions.cpp`, `WriteUint32`. Kind: L -/
theorem wordBytes_eq (w : UInt32) : wordBytes w = Sha1.bigEndian 4 w.toNat := by
  have hbyte : ∀ k : UInt32, k.toNat < 32 →
      (w >>> k).toUInt8 = UInt8.ofNat (w.toNat / 2 ^ k.toNat) := by
    intro k hk
    apply UInt8.toNat_inj.mp
    rw [UInt32.toNat_toUInt8, UInt32.toNat_shiftRight, Nat.mod_eq_of_lt hk,
      Nat.shiftRight_eq_div_pow, UInt8.toNat_ofNat']
  have hlast : w.toUInt8 = UInt8.ofNat (w.toNat / 256 ^ 0) := by
    rw [pow_zero, Nat.div_one]
    rfl
  rw [wordBytes, hbyte 24 (by decide), hbyte 16 (by decide), hbyte 8 (by decide), hlast]
  rfl

/-- The length in bits is written as a number of eight bytes. Source: `SHA1HashGen::generate`,
`SHA1HashGen::end`. Kind: L -/
theorem lengthBytes_eq {len : ℕ} (h : len < 2 ^ 32) :
    lengthBytes len = Sha1.bigEndian 8 (8 * len) := by
  have hlen : (UInt32.ofNat len).toNat = len := UInt32.toNat_ofNat_of_lt' h
  have hhigh : (UInt32.ofNat len >>> 29).toNat = 8 * len / 256 ^ 4 := by
    rw [UInt32.toNat_shiftRight, hlen, Nat.shiftRight_eq_div_pow]
    show len / 2 ^ 29 = 8 * len / 256 ^ 4
    omega
  have hlow : (UInt32.ofNat len <<< 3).toNat = 8 * len % 256 ^ 4 := by
    rw [UInt32.toNat_shiftLeft, hlen, Nat.shiftLeft_eq]
    show len * 2 ^ 3 % 2 ^ 32 = 8 * len % 256 ^ 4
    omega
  rw [lengthBytes, wordBytes_eq, wordBytes_eq, hhigh, hlow, ← Sha1.bigEndian_add]

/-- The bytes of the final message. Source: `util/sha1hashgen.cpp`. Kind: L -/
theorem toList_digest (h : SHA1Words) : h.digest.toList = h.value.digest := by
  have hflat : h.value.digest = Sha1.bigEndian 4 h.h0.toNat ++ (Sha1.bigEndian 4 h.h1.toNat ++
      (Sha1.bigEndian 4 h.h2.toNat ++ (Sha1.bigEndian 4 h.h3.toNat ++
        (Sha1.bigEndian 4 h.h4.toNat ++ [])))) := rfl
  rw [hflat, ← wordBytes_eq, ← wordBytes_eq, ← wordBytes_eq, ← wordBytes_eq, ← wordBytes_eq]
  simp only [SHA1Words.digest, Vector.toList_mk, List.append_assoc, List.append_nil]

/-! ### Padding -/

/-- The padding of less than a block is one block or two. Source: `util/sha1hashgen.cpp`. Kind: L -/
theorem blocks_padding {tail : List UInt8} (ht : tail.length < 64) {len : ℕ} (h : len < 2 ^ 32) :
    Sha1.blocks (Sha1.padding tail len) =
      if tail.length < 56 then [tail ++ 0x80 :: zeros (55 - tail.length) ++ lengthBytes len]
      else [tail ++ 0x80 :: zeros (63 - tail.length), zeros 56 ++ lengthBytes len] := by
  rw [Sha1.padding, ← lengthBytes_eq h, Nat.mod_eq_of_lt ht]
  split_ifs with h56
  · have hk : (119 - tail.length) % 64 = 55 - tail.length := by omega
    rw [hk]
    apply Sha1.blocks_single
    simp only [List.length_append, List.length_cons, List.length_replicate, length_lengthBytes]
    omega
  · have hk : (119 - tail.length) % 64 = (63 - tail.length) + 56 := by omega
    have hlen : (tail ++ 0x80 :: zeros (63 - tail.length)).length = 64 * 1 := by
      simp only [List.length_append, List.length_cons, length_zeros]
      omega
    have hsplit : tail ++ 0x80 :: List.replicate ((63 - tail.length) + 56) 0 ++ lengthBytes len =
        (tail ++ 0x80 :: zeros (63 - tail.length)) ++ (zeros 56 ++ lengthBytes len) := by
      rw [← zeros, ← zeros_append]
      simp only [List.append_assoc, List.cons_append]
    rw [hk, hsplit, Sha1.blocks_append hlen, Sha1.blocks_single hlen, Sha1.blocks_single rfl]
    rfl

/-- The blocks made of the last bytes are those of the padding. Source: `SHA1HashGen::generate`.
Kind: L -/
theorem value_processTail (h : SHA1Words) {tail : List UInt8} (ht : tail.length < 64) {len : ℕ}
    (hlen : len < 2 ^ 32) :
    (processTail h tail len).value =
      (Sha1.blocks (Sha1.padding tail len)).foldl Sha1.compress h.value := by
  rw [blocks_padding ht hlen, processTail]
  by_cases h0 : tail.length = 0
  · obtain rfl : tail = [] := List.eq_nil_of_length_eq_zero h0
    rw [if_pos h0, if_pos (show ([] : List UInt8).length < 56 by decide), value_processChunk]
    rfl
  · by_cases h56 : tail.length < 56
    · rw [if_neg h0, if_pos h56, if_pos h56, value_processChunk]
      rfl
    · rw [if_neg h0, if_neg h56, if_neg h56, value_processChunk, value_processChunk]
      rfl

/-- A buffer is its whole blocks and less than a block more. Source: `util/sha1hashgen.cpp`.
Kind: L -/
theorem split_blocks (data : List UInt8) :
    ∃ front rest : List UInt8, ∃ m, data = front ++ rest ∧ front.length = 64 * m ∧
      rest.length < 64 := by
  refine ⟨data.take (64 * (data.length / 64)), data.drop (64 * (data.length / 64)),
    data.length / 64, (List.take_append_drop _ _).symm, ?_, ?_⟩
  · rw [List.length_take]
    omega
  · rw [List.length_drop]
    omega

/-- **`generate` is SHA-1**, on every buffer whose length fits its argument.
Source: `SHA1HashGen::generate`. Kind: P -/
theorem generate_eq_hash {data : List UInt8} (h : data.length < 2 ^ 32) :
    (generate data).toList = Sha1.hash data := by
  obtain ⟨front, rest, m, rfl, hfront, hrest⟩ := split_blocks data
  have hm : (front ++ rest).length / 64 = m := by
    rw [List.length_append, hfront]
    omega
  have hm' : front.length / 64 = m := by omega
  have hblocks : (processBlocks .init (front ++ rest) m).value =
      (Sha1.blocks front).foldl Sha1.compress Sha1.init := by
    rw [processBlocks_append_of_le _ _ _ (le_of_eq hfront.symm), ← hm', value_processBlocks]
    rfl
  have hdrop : (front ++ rest).drop (64 * m) = rest := by
    rw [← hfront, List.drop_left]
  rw [generate, hm, hdrop, toList_digest, value_processTail _ hrest h, hblocks,
    Sha1.hash_eq hfront]

end KTorrent.Util
