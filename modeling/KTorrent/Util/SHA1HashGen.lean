import KTorrent.Util.Word
import Mathlib.Data.List.Range
import Mathlib.Data.List.TakeDrop
import Mathlib.Data.List.OfFn
import Mathlib.Data.UInt

/-!
# `bt::SHA1HashGen`

The hash generator of the source, in both of its forms: `generate` on a whole buffer, and
`start` / `update` / `finish` / `get` on a buffer that arrives in pieces, with the 64-byte block
`tmp` that keeps the bytes no full block could be made of yet. (`finish` is the source's `end`,
which Lean reserves.)

* `Absorbs g bs` says what a generator that has been fed `bs` looks like: the hash words after the
  full blocks of `bs`, the rest of `bs` in `tmp`, and — what the padding of `finish` relies on —
  zeros behind that rest.
* `absorbs_update` — feeding more bytes keeps this when the bytes so far fill whole blocks.
* `get_finish` — from such a state `finish` and `get` give the hash `generate` gives on `bs`.

The compression function `processChunk` is never opened in these proofs.

Source: `util/sha1hashgen.cpp`
-/

namespace KTorrent.Util

/-- The five words of the hash state. Source: `util/sha1hashgen.h`. Kind: D -/
structure SHA1Words where
  h0 : UInt32
  h1 : UInt32
  h2 : UInt32
  h3 : UInt32
  h4 : UInt32
deriving DecidableEq

/-- Source: `SHA1HashGen::start`, the initial words. Kind: D -/
def SHA1Words.init : SHA1Words := ⟨0x67452301, 0xEFCDAB89, 0x98BADCFE, 0x10325476, 0xC3D2E1F0⟩

/-- Source: `LeftRotate`. Kind: D -/
def leftRotate (x n : UInt32) : UInt32 := (x <<< n) ||| (x >>> (32 - n))

/-- A word in network byte order. Source: `util/functions.cpp`, `WriteUint32`. Kind: D -/
def wordBytes (w : UInt32) : List UInt8 :=
  [(w >>> 24).toUInt8, (w >>> 16).toUInt8, (w >>> 8).toUInt8, w.toUInt8]

/-- Word `i` of a block. Source: `SHA1HashGen::processChunk`. Kind: D -/
def blockWord (chunk : List UInt8) (i : ℕ) : UInt32 :=
  ((chunk.getD (4 * i) 0).toUInt32 <<< 24) ||| ((chunk.getD (4 * i + 1) 0).toUInt32 <<< 16) |||
    ((chunk.getD (4 * i + 2) 0).toUInt32 <<< 8) ||| (chunk.getD (4 * i + 3) 0).toUInt32

/-- The 80 words a block is expanded to. Source: `SHA1HashGen::processChunk`. Kind: D -/
def expand (chunk : List UInt8) : Array UInt32 :=
  (List.range 64).foldl
    (fun w i => w.push (leftRotate
      (w.getD (i + 13) 0 ^^^ w.getD (i + 8) 0 ^^^ w.getD (i + 2) 0 ^^^ w.getD i 0) 1))
    ((List.range 16).map (blockWord chunk)).toArray

/-- Source: `SHA1HashGen::processChunk`. Kind: D -/
def processChunk (h : SHA1Words) (chunk : List UInt8) : SHA1Words :=
  let w := expand chunk
  let r := (List.range 80).foldl
    (fun s i =>
      let (f, k) : UInt32 × UInt32 :=
        if i < 20 then ((s.h1 &&& s.h2) ||| (~~~s.h1 &&& s.h3), 0x5A827999)
        else if i < 40 then (s.h1 ^^^ s.h2 ^^^ s.h3, 0x6ED9EBA1)
        else if i < 60 then
          ((s.h1 &&& s.h2) ||| (s.h1 &&& s.h3) ||| (s.h2 &&& s.h3), 0x8F1BBCDC)
        else (s.h1 ^^^ s.h2 ^^^ s.h3, 0xCA62C1D6)
      let temp := leftRotate s.h0 5 + f + s.h4 + k + w.getD i 0
      { h0 := temp, h1 := s.h0, h2 := leftRotate s.h1 30, h3 := s.h2, h4 := s.h3 : SHA1Words })
    h
  ⟨h.h0 + r.h0, h.h1 + r.h1, h.h2 + r.h2, h.h3 + r.h3, h.h4 + r.h4⟩

/-- The first `n` blocks of `data`, in order. Source: the block loops of `generate` and `update`.
Kind: D -/
def processBlocks (h : SHA1Words) (data : List UInt8) (n : ℕ) : SHA1Words :=
  (List.range n).foldl (fun h i => processChunk h ((data.drop (64 * i)).take 64)) h

/-- The final message. Source: the end of `generate`, and `SHA1HashGen::get`. Kind: D -/
def SHA1Words.digest (h : SHA1Words) : Vector UInt8 20 :=
  ⟨(wordBytes h.h0 ++ wordBytes h.h1 ++ wordBytes h.h2 ++ wordBytes h.h3 ++
    wordBytes h.h4).toArray, rfl⟩

/-- The length in bits as two words; the source's test for an overflow into the high word never
succeeds, both sides of it being the same `Uint32`.
Source: `SHA1HashGen::generate`, `SHA1HashGen::end`. Kind: D -/
def lengthBytes (len : ℕ) : List UInt8 :=
  wordBytes (UInt32.ofNat len >>> 29) ++ wordBytes (UInt32.ofNat len <<< 3)

/-- The length is written in eight bytes. Source: `SHA1HashGen::generate`, `SHA1HashGen::end`.
Kind: L -/
@[simp] theorem length_lengthBytes (len : ℕ) : (lengthBytes len).length = 8 := rfl

/-- `n` zero bytes. Kind: D -/
def zeros (n : ℕ) : List UInt8 := List.replicate n 0

/-- There are as many zeros as asked for. Source: `util/sha1hashgen.cpp`. Kind: L -/
@[simp] theorem length_zeros (n : ℕ) : (zeros n).length = n := by simp [zeros]

/-- Zeros behind zeros. Source: none: infrastructure. Kind: L -/
theorem zeros_append (a b : ℕ) : zeros a ++ zeros b = zeros (a + b) := by
  rw [zeros, zeros, zeros, List.replicate_append_replicate]

/-- Zeros without the first. Source: `util/sha1hashgen.cpp`. Kind: L -/
theorem drop_zeros (a n : ℕ) : (zeros n).drop a = zeros (n - a) := by simp [zeros]

/-- The padding of the last bytes `tail` of a message of `len` bytes: one block or two.
Source: `SHA1HashGen::generate`. Kind: D -/
def processTail (h : SHA1Words) (tail : List UInt8) (len : ℕ) : SHA1Words :=
  if tail.length = 0 then processChunk h (0x80 :: zeros 55 ++ lengthBytes len)
  else if tail.length < 56 then
    processChunk h (tail ++ 0x80 :: zeros (55 - tail.length) ++ lengthBytes len)
  else
    processChunk (processChunk h (tail ++ 0x80 :: zeros (63 - tail.length)))
      (zeros 56 ++ lengthBytes len)

/-- Source: `SHA1HashGen::generate`. Kind: D -/
def generate (data : List UInt8) : Vector UInt8 20 :=
  (processTail (processBlocks .init data (data.length / 64)) (data.drop (64 * (data.length / 64)))
    data.length).digest

/-- A generator fed piece by piece. Source: `util/sha1hashgen.h`, `SHA1HashGen`. Kind: D -/
structure SHA1HashGen where
  h : SHA1Words
  tmp : List UInt8
  tmp_len : ℕ
  total_len : ℕ
deriving DecidableEq

/-- `memcpy(buf + off, bs, |bs|)`. Kind: D -/
def overwrite (buf : List UInt8) (off : ℕ) (bs : List UInt8) : List UInt8 :=
  buf.take off ++ bs ++ buf.drop (off + bs.length)

namespace SHA1HashGen

/-- Source: `SHA1HashGen::start`. Kind: D -/
def start : SHA1HashGen := ⟨.init, zeros 64, 0, 0⟩

/-- Source: `SHA1HashGen::update`. Kind: D -/
def update (g : SHA1HashGen) (data : List UInt8) : SHA1HashGen :=
  let len := data.length
  if g.tmp_len = 0 then
    let n := len / 64
    let left_over := len % 64
    { h := processBlocks g.h data n
      tmp := if left_over > 0 then overwrite g.tmp 0 (data.drop (64 * n)) else g.tmp
      tmp_len := if left_over > 0 then left_over else g.tmp_len
      total_len := u32 (g.total_len + len) }
  else if g.tmp_len + len < 64 then
    { g with
      tmp := overwrite g.tmp g.tmp_len data
      tmp_len := g.tmp_len + len
      total_len := u32 (g.total_len + len) }
  else
    let off := 64 - g.tmp_len
    let tmp := overwrite g.tmp g.tmp_len (data.take off)
    let rest := data.drop off
    let n := rest.length / 64
    let left_over := rest.length % 64
    { h := processBlocks (processChunk g.h tmp) rest n
      tmp := if left_over > 0 then overwrite tmp 0 (rest.drop (64 * n)) else tmp
      tmp_len := if left_over > 0 then left_over else 0
      total_len := u32 (g.total_len + len) }

/-- Source: `SHA1HashGen::end`. In the two-block case the source clears `tmp` only below byte 56,
which is below the bytes it holds, so what lies behind the data goes into the first block as it is.
Kind: D -/
def finish (g : SHA1HashGen) : SHA1HashGen :=
  if g.tmp_len = 0 then
    let tmp := overwrite (overwrite g.tmp 0 (0x80 :: zeros 55)) 56 (lengthBytes g.total_len)
    { g with h := processChunk g.h tmp, tmp := tmp }
  else if g.tmp_len < 56 then
    let tmp := overwrite (overwrite g.tmp g.tmp_len (0x80 :: zeros (55 - g.tmp_len))) 56
      (lengthBytes g.total_len)
    { g with h := processChunk g.h tmp, tmp := tmp }
  else
    let tmp := overwrite g.tmp g.tmp_len [0x80]
    let tmp' := overwrite (overwrite tmp 0 (zeros 56)) 56 (lengthBytes g.total_len)
    { g with h := processChunk (processChunk g.h tmp) tmp', tmp := tmp' }

/-- Source: `SHA1HashGen::get`. Kind: D -/
def get (g : SHA1HashGen) : Vector UInt8 20 := g.h.digest

end SHA1HashGen

/-! ### Feeding whole blocks, then the rest -/

/-- Blocks of a prefix do not see what follows it. Source: `util/sha1hashgen.cpp`. Kind: L -/
theorem processBlocks_append_of_le (h : SHA1Words) (a b : List UInt8) {n : ℕ}
    (hn : 64 * n ≤ a.length) : processBlocks h (a ++ b) n = processBlocks h a n := by
  unfold processBlocks
  refine List.foldl_ext _ _ _ fun h' i hi => ?_
  have hi' := List.mem_range.mp hi
  rw [List.drop_append_of_le_length (by omega), List.take_append_of_le_length]
  rw [List.length_drop]
  omega

/-- When `a` fills `m` blocks, the blocks of `a ++ b` are those of `a` and then those of `b`.
Source: `util/sha1hashgen.cpp`. Kind: L -/
theorem processBlocks_append (h : SHA1Words) (a b : List UInt8) {m : ℕ} (n : ℕ)
    (ha : a.length = 64 * m) :
    processBlocks h (a ++ b) (m + n) = processBlocks (processBlocks h a m) b n := by
  have h1 : processBlocks h (a ++ b) m = processBlocks h a m :=
    processBlocks_append_of_le h a b (by omega)
  unfold processBlocks at h1 ⊢
  rw [List.range_add, List.foldl_append, h1, List.foldl_map]
  refine List.foldl_ext _ _ _ fun h' i _ => ?_
  have h2 : 64 * (m + i) = a.length + 64 * i := by omega
  rw [h2, List.drop_length_add_append]

/-- The state of a generator that has been fed `bs` and never had to keep a partial block before
its last bytes. Kind: D -/
structure Absorbs (g : SHA1HashGen) (bs : List UInt8) : Prop where
  words : g.h = processBlocks .init bs (bs.length / 64)
  len : g.tmp_len = bs.length % 64
  total : g.total_len = u32 bs.length
  /-- The bytes of the partial block, and zeros behind them. -/
  tmp : g.tmp = bs.drop (64 * (bs.length / 64)) ++ zeros (64 - bs.length % 64)

/-- A started generator has been fed nothing. Source: `util/sha1hashgen.cpp`. Kind: L -/
theorem absorbs_start : Absorbs .start [] := ⟨rfl, rfl, rfl, rfl⟩

/-- **Feeding bytes to a generator that holds whole blocks only.**. Source: `util/sha1hashgen.cpp`.
Kind: P -/
theorem absorbs_update {g : SHA1HashGen} {bs : List UInt8} (hg : Absorbs g bs)
    (hb : bs.length % 64 = 0) (data : List UInt8) : Absorbs (g.update data) (bs ++ data) := by
  obtain ⟨m, hm⟩ : ∃ m, bs.length = 64 * m := ⟨bs.length / 64, by omega⟩
  have hq : (bs ++ data).length / 64 = m + data.length / 64 := by
    rw [List.length_append, hm]; omega
  have hr : (bs ++ data).length % 64 = data.length % 64 := by
    rw [List.length_append, hm]; omega
  have hdrop : (bs ++ data).drop (64 * ((bs ++ data).length / 64)) =
      data.drop (64 * (data.length / 64)) := by
    rw [hq, show 64 * (m + data.length / 64) = bs.length + 64 * (data.length / 64) by omega,
      List.drop_length_add_append]
  have htmp : g.tmp = zeros 64 := by
    rw [hg.tmp, hb, List.drop_eq_nil_of_le (by omega)]
    rfl
  have hlen : g.tmp_len = 0 := by rw [hg.len, hb]
  have hupd : g.update data =
      { h := processBlocks g.h data (data.length / 64)
        tmp := if data.length % 64 > 0 then overwrite g.tmp 0 (data.drop (64 * (data.length / 64)))
          else g.tmp
        tmp_len := if data.length % 64 > 0 then data.length % 64 else g.tmp_len
        total_len := u32 (g.total_len + data.length) } := by
    simp only [SHA1HashGen.update, if_pos hlen]
  rw [hupd]
  refine ⟨?_, ?_, ?_, ?_⟩
  · show processBlocks g.h data (data.length / 64) = _
    rw [hq, processBlocks_append _ _ _ _ hm, hg.words, hm, Nat.mul_div_cancel_left _ (by decide)]
  · show (if data.length % 64 > 0 then data.length % 64 else g.tmp_len) = _
    rw [hr, hlen]
    split_ifs <;> omega
  · show u32 (g.total_len + data.length) = _
    rw [hg.total, List.length_append]
    simp [u32]
  · show (if data.length % 64 > 0 then overwrite g.tmp 0 (data.drop (64 * (data.length / 64)))
      else g.tmp) = _
    rw [hdrop, hr, htmp]
    split_ifs with h0
    · unfold overwrite
      rw [List.take_zero, List.nil_append, drop_zeros, List.length_drop]
      congr 2
      omega
    · have h1 : data.length % 64 = 0 := by omega
      rw [h1, List.drop_eq_nil_of_le (by omega)]
      rfl

/-- Padding inside one block: what `finish` puts behind the data in `tmp`.
Source: `SHA1HashGen::generate`, `SHA1HashGen::end`. Kind: L -/
theorem overwrite_pad {tail : List UInt8} (h : tail.length < 56) (len : ℕ) :
    overwrite (overwrite (tail ++ zeros (64 - tail.length)) tail.length
      (0x80 :: zeros (55 - tail.length))) 56 (lengthBytes len) =
      tail ++ 0x80 :: zeros (55 - tail.length) ++ lengthBytes len := by
  have h1 : overwrite (tail ++ zeros (64 - tail.length)) tail.length
      (0x80 :: zeros (55 - tail.length)) =
      (tail ++ 0x80 :: zeros (55 - tail.length)) ++ zeros 8 := by
    unfold overwrite
    have h8 : 64 - tail.length - (55 - tail.length + 1) = 8 := by omega
    rw [List.take_left, List.length_cons, length_zeros, List.drop_length_add_append, drop_zeros,
      h8]
  have h2 : (tail ++ 0x80 :: zeros (55 - tail.length)).length = 56 := by
    simp only [List.length_append, List.length_cons, length_zeros]
    omega
  rw [h1]
  unfold overwrite
  rw [List.take_left' h2, length_lengthBytes, List.drop_eq_nil_of_le, List.append_nil]
  rw [List.length_append, h2, length_zeros]

/-- The last block of `finish` when the data leaves no room for the length.
Source: `SHA1HashGen::generate`, `SHA1HashGen::end`. Kind: L -/
theorem overwrite_last {l : List UInt8} (hl : l.length = 64) (len : ℕ) :
    overwrite (overwrite l 0 (zeros 56)) 56 (lengthBytes len) = zeros 56 ++ lengthBytes len := by
  unfold overwrite
  rw [List.take_zero, List.nil_append, length_zeros, length_lengthBytes,
    List.take_left' (length_zeros 56), List.drop_eq_nil_of_le, List.append_nil]
  simp only [List.length_append, List.length_drop, length_zeros, hl]
  omega

/-- The block of `finish` that ends the data when the length does not fit.
Source: `util/sha1hashgen.cpp`. Kind: L -/
theorem overwrite_mark {tail : List UInt8} (h : tail.length < 64) :
    overwrite (tail ++ zeros (64 - tail.length)) tail.length [0x80] =
      tail ++ 0x80 :: zeros (63 - tail.length) := by
  unfold overwrite
  have h1 : 64 - tail.length - 1 = 63 - tail.length := by omega
  rw [List.take_left, List.length_singleton, List.drop_length_add_append, drop_zeros, h1,
    List.append_assoc, List.singleton_append]

/-- `finish` pads as `generate` does. Source: `SHA1HashGen::end`. Kind: L -/
theorem finish_words {h : SHA1Words} {tail : List UInt8} (ht : tail.length < 64) (len : ℕ) :
    (SHA1HashGen.finish ⟨h, tail ++ zeros (64 - tail.length), tail.length, len⟩).h =
      processTail h tail len := by
  unfold SHA1HashGen.finish processTail
  by_cases h0 : tail.length = 0
  · obtain rfl : tail = [] := List.eq_nil_of_length_eq_zero h0
    have h1 := overwrite_pad (show ([] : List UInt8).length < 56 by decide) len
    simp only [List.length_nil, if_pos] at h1 ⊢
    rw [h1]
    rfl
  · by_cases h56 : tail.length < 56
    · simp only [if_neg h0, if_pos h56]
      rw [overwrite_pad h56]
    · have hl : (tail ++ 0x80 :: zeros (63 - tail.length)).length = 64 := by
        simp only [List.length_append, List.length_cons, length_zeros]
        omega
      simp only [if_neg h0, if_neg h56]
      rw [overwrite_mark ht, overwrite_last hl]

/-- **The piecewise hash is the hash of the whole.**. Source: `SHA1HashGen::end`. Kind: P -/
theorem get_finish {g : SHA1HashGen} {bs : List UInt8} (hg : Absorbs g bs)
    (hlt : bs.length < 2 ^ 32) : g.finish.get = generate bs := by
  have htail : (bs.drop (64 * (bs.length / 64))).length = bs.length % 64 := by
    rw [List.length_drop]
    omega
  obtain ⟨h, tmp, tmp_len, total_len⟩ := g
  obtain ⟨hw, hl, ht, hb⟩ := hg
  simp only at hw hl ht hb
  rw [u32_of_lt hlt] at ht
  rw [← htail] at hl hb
  subst hw hl ht hb
  show SHA1Words.digest _ = SHA1Words.digest _
  rw [finish_words (by omega)]

end KTorrent.Util
