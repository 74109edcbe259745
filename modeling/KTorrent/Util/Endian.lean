import KTorrent.Util.Word
import Mathlib.Data.List.GetD

/-!
# Numbers as bytes

A `Uint32` travels as four bytes, a `Uint16` as two, the highest first. Reading back what was
written gives the number, truncated to its width. In a file of the program's own, a number is what
it is in memory, the lowest byte first.

Source: `util/functions.cpp`, `ReadUint32`, `WriteUint32`, `ReadUint16` and `WriteUint16`;
`util/file.cpp`, `File::read` and `File::write`
-/

namespace KTorrent.Util

/-- The four bytes `WriteUint32` writes. Source: `util/functions.cpp`, `WriteUint32`. Kind: D -/
def uint32Bytes (val : ℕ) : List UInt8 :=
  [UInt8.ofNat (val / 2 ^ 24), UInt8.ofNat (val / 2 ^ 16), UInt8.ofNat (val / 2 ^ 8),
    UInt8.ofNat val]

/-- Source: `util/functions.cpp`, `ReadUint32`. Kind: D -/
def readUint32 (buf : List UInt8) (off : ℕ) : ℕ :=
  (buf.getD off 0).toNat * 2 ^ 24 + (buf.getD (off + 1) 0).toNat * 2 ^ 16 +
    (buf.getD (off + 2) 0).toNat * 2 ^ 8 + (buf.getD (off + 3) 0).toNat

/-- A number of 32 bits has four bytes. Source: `util/functions.cpp`, `WriteUint32`. Kind: L -/
@[simp] theorem length_uint32Bytes (val : ℕ) : (uint32Bytes val).length = 4 := rfl

/-- What is read has 32 bits. Source: `util/functions.cpp`, `ReadUint32`. Kind: L -/
theorem readUint32_lt (buf : List UInt8) (off : ℕ) : readUint32 buf off < 2 ^ 32 := by
  have h0 := (buf.getD off 0).toNat_lt
  have h1 := (buf.getD (off + 1) 0).toNat_lt
  have h2 := (buf.getD (off + 2) 0).toNat_lt
  have h3 := (buf.getD (off + 3) 0).toNat_lt
  unfold readUint32
  omega

/-- Reading back a number that was written, wherever it stands. Source: `util/functions.cpp`,
`ReadUint32`. Kind: L -/
theorem readUint32_append (front : List UInt8) (val : ℕ) (rest : List UInt8) :
    readUint32 (front ++ uint32Bytes val ++ rest) front.length = u32 val := by
  have hget : ∀ k < 4, (front ++ uint32Bytes val ++ rest).getD (front.length + k) 0 =
      (uint32Bytes val).getD k 0 := by
    intro k hk
    rw [List.append_assoc, List.getD_append_right _ _ _ _ (by omega), Nat.add_sub_cancel_left,
      List.getD_append _ _ _ _ (by simpa using hk)]
  have h0 := hget 0 (by decide)
  have h1 := hget 1 (by decide)
  have h2 := hget 2 (by decide)
  have h3 := hget 3 (by decide)
  rw [Nat.add_zero] at h0
  unfold readUint32
  rw [h0, h1, h2, h3]
  simp only [uint32Bytes, List.getD_cons_zero, List.getD_cons_succ, UInt8.toNat_ofNat', u32]
  omega

/-- The two bytes `WriteUint16` writes. Source: `util/functions.cpp`, `WriteUint16`. Kind: D -/
def uint16Bytes (val : ℕ) : List UInt8 := [UInt8.ofNat (val / 2 ^ 8), UInt8.ofNat val]

/-- Source: `util/functions.cpp`, `ReadUint16`. Kind: D -/
def readUint16 (buf : List UInt8) (off : ℕ) : ℕ :=
  (buf.getD off 0).toNat * 2 ^ 8 + (buf.getD (off + 1) 0).toNat

/-- A number of 16 bits has two bytes. Source: `util/functions.cpp`, `WriteUint16`. Kind: L -/
@[simp] theorem length_uint16Bytes (val : ℕ) : (uint16Bytes val).length = 2 := rfl

/-- Reading back a number that was written, wherever it stands. Source: `util/functions.cpp`,
`ReadUint16`. Kind: L -/
theorem readUint16_append (front : List UInt8) {val : ℕ} (h : val < 2 ^ 16) (rest : List UInt8) :
    readUint16 (front ++ uint16Bytes val ++ rest) front.length = val := by
  have hget : ∀ k < 2, (front ++ uint16Bytes val ++ rest).getD (front.length + k) 0 =
      (uint16Bytes val).getD k 0 := by
    intro k hk
    rw [List.append_assoc, List.getD_append_right _ _ _ _ (by omega), Nat.add_sub_cancel_left,
      List.getD_append _ _ _ _ (by simpa using hk)]
  have h0 := hget 0 (by decide)
  have h1 := hget 1 (by decide)
  rw [Nat.add_zero] at h0
  unfold readUint16
  rw [h0, h1]
  simp only [uint16Bytes, List.getD_cons_zero, List.getD_cons_succ, UInt8.toNat_ofNat']
  omega

/-! ### As in memory -/

/-- A `Uint32` in memory, the lowest byte first. Kind: D -/
def hostWord (w : ℕ) : List UInt8 :=
  [UInt8.ofNat w, UInt8.ofNat (w / 2 ^ 8), UInt8.ofNat (w / 2 ^ 16), UInt8.ofNat (w / 2 ^ 24)]

/-- The `Uint32` at an address. Kind: D -/
def wordAt (buf : List UInt8) (off : ℕ) : ℕ :=
  (buf.getD off 0).toNat + (buf.getD (off + 1) 0).toNat * 2 ^ 8 +
    (buf.getD (off + 2) 0).toNat * 2 ^ 16 + (buf.getD (off + 3) 0).toNat * 2 ^ 24

/-- A word of the machine has four bytes. Source: `util/functions.cpp`, `ReadUint32`. Kind: L -/
@[simp] theorem length_hostWord (w : ℕ) : (hostWord w).length = 4 := rfl

/-- A number that was written is read back, wherever it stands. Source: none: infrastructure.
Kind: L -/
theorem wordAt_append (front : List UInt8) {w : ℕ} (hw : w < 2 ^ 32) (rest : List UInt8) :
    wordAt (front ++ hostWord w ++ rest) front.length = w := by
  have hget : ∀ k < 4, (front ++ hostWord w ++ rest).getD (front.length + k) 0 =
      (hostWord w).getD k 0 := by
    intro k hk
    rw [List.append_assoc, List.getD_append_right _ _ _ _ (by omega), Nat.add_sub_cancel_left,
      List.getD_append _ _ _ _ (by simpa using hk)]
  have h0 := hget 0 (by decide)
  have h1 := hget 1 (by decide)
  have h2 := hget 2 (by decide)
  have h3 := hget 3 (by decide)
  rw [Nat.add_zero] at h0
  unfold wordAt
  rw [h0, h1, h2, h3]
  simp only [hostWord, List.getD_cons_zero, List.getD_cons_succ, UInt8.toNat_ofNat']
  omega

end KTorrent.Util
