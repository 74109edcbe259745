import Mathlib.Data.List.Basic
import Mathlib.Data.List.Range
import Mathlib.Data.List.TakeDrop
import Mathlib.Data.Nat.ModEq

/-!
# SHA-1 as it is specified

The hash function on a whole message, in the words of its standard: the message is padded to a
whole number of blocks, every block is expanded to eighty words and mixed into the five words of
the hash value.

* `pad` — a one bit, zeros, and the length in bits as a 64-bit number.
* `blocks`, `blocks_append` — a message cut into blocks of 64 bytes; a front of whole blocks is cut
  on its own.
* `W`, `round`, `compress`, `hash` — message schedule, round, compression function, and the hash.
* `hash_eq` — the hash of a message is that of its whole blocks followed by its padded rest.
-/

namespace KTorrent.Lib.Sha1

/-- The five words of the hash value. -/
structure Value where
  a : BitVec 32
  b : BitVec 32
  c : BitVec 32
  d : BitVec 32
  e : BitVec 32
deriving DecidableEq

/-- The initial hash value. -/
def init : Value := ⟨0x67452301, 0xefcdab89, 0x98badcfe, 0x10325476, 0xc3d2e1f0⟩

/-- Each bit of `x` chooses between `y` and `z`. -/
def Ch (x y z : BitVec 32) : BitVec 32 := (x &&& y) ^^^ (~~~x &&& z)

/-- The sum of the bits. -/
def Parity (x y z : BitVec 32) : BitVec 32 := x ^^^ y ^^^ z

/-- What two of the three bits have. -/
def Maj (x y z : BitVec 32) : BitVec 32 := (x &&& y) ^^^ (x &&& z) ^^^ (y &&& z)

/-- The function of round `t`. -/
def f (t : ℕ) : BitVec 32 → BitVec 32 → BitVec 32 → BitVec 32 :=
  if t < 20 then Ch else if t < 40 then Parity else if t < 60 then Maj else Parity

/-- The constant of round `t`. -/
def K (t : ℕ) : BitVec 32 :=
  if t < 20 then 0x5a827999 else if t < 40 then 0x6ed9eba1
  else if t < 60 then 0x8f1bbcdc else 0xca62c1d6

/-- Word `t` of a block, its first byte the highest. -/
def M (block : List UInt8) (t : ℕ) : BitVec 32 :=
  (block.getD (4 * t) 0).toBitVec ++ (block.getD (4 * t + 1) 0).toBitVec ++
    (block.getD (4 * t + 2) 0).toBitVec ++ (block.getD (4 * t + 3) 0).toBitVec

/-- The message schedule. -/
def W (block : List UInt8) (t : ℕ) : BitVec 32 :=
  if t < 16 then M block t
  else (W block (t - 3) ^^^ W block (t - 8) ^^^ W block (t - 14) ^^^ W block (t - 16)).rotateLeft 1

/-- Round `t`, with its word `w` of the schedule. -/
def round (t : ℕ) (w : BitVec 32) (v : Value) : Value where
  a := v.a.rotateLeft 5 + f t v.b v.c v.d + v.e + K t + w
  b := v.a
  c := v.b.rotateLeft 30
  d := v.c
  e := v.d

/-- The words are added modulo `2 ^ 32`. -/
def Value.add (v w : Value) : Value := ⟨v.a + w.a, v.b + w.b, v.c + w.c, v.d + w.d, v.e + w.e⟩

/-- The hash value after a block. -/
def compress (v : Value) (block : List UInt8) : Value :=
  v.add ((List.range 80).foldl (fun s t => round t (W block t) s) v)

/-- A number as `k` bytes, the highest first. -/
def bigEndian (k n : ℕ) : List UInt8 :=
  (List.range k).map fun i => UInt8.ofNat (n / 256 ^ (k - 1 - i))

/-- The padded message. -/
def pad (msg : List UInt8) : List UInt8 :=
  msg ++ 0x80 :: List.replicate ((119 - msg.length % 64) % 64) 0 ++ bigEndian 8 (8 * msg.length)

/-- A message cut into blocks. -/
def blocks (l : List UInt8) : List (List UInt8) :=
  (List.range (l.length / 64)).map fun i => (l.drop (64 * i)).take 64

/-- The five words, each as four bytes. -/
def Value.digest (v : Value) : List UInt8 :=
  [v.a, v.b, v.c, v.d, v.e].flatMap fun w => bigEndian 4 w.toNat

/-- The hash of a message. -/
def hash (msg : List UInt8) : List UInt8 := ((blocks (pad msg)).foldl compress init).digest

/-- A number of `j + k` bytes is its high part of `j` bytes and its low part of `k`. Source: none:
infrastructure. Kind: L -/
theorem bigEndian_add (j k n : ℕ) :
    bigEndian (j + k) n = bigEndian j (n / 256 ^ k) ++ bigEndian k (n % 256 ^ k) := by
  unfold bigEndian
  rw [List.range_add, List.map_append, List.map_map]
  congr 1
  · apply List.map_congr_left
    intro i hi
    have hi' := List.mem_range.mp hi
    rw [Nat.div_div_eq_div_mul, ← pow_add, show k + (j - 1 - i) = j + k - 1 - i by omega]
  · apply List.map_congr_left
    intro i hi
    have hi' := List.mem_range.mp hi
    show UInt8.ofNat (n / 256 ^ (j + k - 1 - (j + i))) =
      UInt8.ofNat (n % 256 ^ k / 256 ^ (k - 1 - i))
    have hsplit : 256 ^ k = 256 ^ (k - 1 - i) * 256 ^ (i + 1) := by
      rw [← pow_add, show k - 1 - i + (i + 1) = k by omega]
    rw [hsplit, Nat.mod_mul_right_div_self, show j + k - 1 - (j + i) = k - 1 - i by omega]
    apply UInt8.toNat_inj.mp
    rw [UInt8.toNat_ofNat', UInt8.toNat_ofNat', Nat.mod_mod_of_dvd]
    exact dvd_pow_self 256 (Nat.succ_ne_zero i)

/-- A front of whole blocks is cut on its own. Source: none: infrastructure. Kind: L -/
theorem blocks_append {l : List UInt8} {m : ℕ} (hl : l.length = 64 * m) (l' : List UInt8) :
    blocks (l ++ l') = blocks l ++ blocks l' := by
  have hm : l.length / 64 = m := by omega
  have hn : (l ++ l').length / 64 = m + l'.length / 64 := by
    rw [List.length_append, hl]
    omega
  unfold blocks
  rw [hn, hm, List.range_add, List.map_append, List.map_map]
  congr 1
  · apply List.map_congr_left
    intro i hi
    have hi' := List.mem_range.mp hi
    rw [List.drop_append_of_le_length (by omega), List.take_append_of_le_length]
    rw [List.length_drop]
    omega
  · apply List.map_congr_left
    intro i _
    show ((l ++ l').drop (64 * (m + i))).take 64 = (l'.drop (64 * i)).take 64
    rw [Nat.mul_add, ← hl, List.drop_length_add_append]

/-- One block is one block. Source: none: infrastructure. Kind: L -/
theorem blocks_single {l : List UInt8} (hl : l.length = 64) : blocks l = [l] := by
  have h1 : l.length / 64 = 1 := by omega
  unfold blocks
  rw [h1, List.range_one, List.map_singleton, Nat.mul_zero, List.drop_zero,
    List.take_of_length_le (le_of_eq hl)]

/-- What is padded behind the whole blocks of a message. -/
def padding (rest : List UInt8) (len : ℕ) : List UInt8 :=
  rest ++ 0x80 :: List.replicate ((119 - rest.length % 64) % 64) 0 ++ bigEndian 8 (8 * len)

/-- **The hash by blocks:** first the whole blocks of the message, then its padded rest.
Source: none: infrastructure. Kind: L -/
theorem hash_eq {front : List UInt8} {m : ℕ} (hf : front.length = 64 * m) (rest : List UInt8) :
    hash (front ++ rest) =
      ((blocks (padding rest (front ++ rest).length)).foldl compress
        ((blocks front).foldl compress init)).digest := by
  have hmod : (front ++ rest).length % 64 = rest.length % 64 := by
    rw [List.length_append, hf]
    omega
  have hpad : pad (front ++ rest) = front ++ padding rest (front ++ rest).length := by
    rw [pad, padding, hmod]
    simp only [List.append_assoc]
  rw [hash, hpad, blocks_append hf, List.foldl_append]

end KTorrent.Lib.Sha1
