import Mathlib.Algebra.Group.Int.Defs
import Mathlib.Algebra.Group.Nat.Defs
import Mathlib.Data.Nat.Basic

/-!
# Fixed-width arithmetic of the sources

`Uint32` and `Uint64` values are natural numbers below `2^32` and `2^64`. Where an operation of the
source can leave the range, the model writes the wrap-around out with the functions below; where it
provably cannot, `u32_of_lt` and `u64_of_lt` remove it.

Source: `util/constants.h`
-/

namespace KTorrent.Util

/-- Truncation to `Uint32`. Kind: D -/
def u32 (n : ℕ) : ℕ := n % 2 ^ 32

/-- Truncation to `Uint64`. Kind: D -/
def u64 (n : ℕ) : ℕ := n % 2 ^ 64

/-- Subtraction of two `Uint64` values. Kind: D -/
def sub64 (a b : ℕ) : ℕ := (a + (2 ^ 64 - b % 2 ^ 64)) % 2 ^ 64

/-- Subtraction of two `Uint32` values. Kind: D -/
def sub32 (a b : ℕ) : ℕ := (a + (2 ^ 32 - b % 2 ^ 32)) % 2 ^ 32

/-- A signed value stored in a `Uint64`. Kind: D -/
def ofInt64 (v : ℤ) : ℕ := (v % 2 ^ 64).toNat

/-- A number cut to 32 bits. Source: `util/constants.h`. Kind: L -/
theorem u32_lt (n : ℕ) : u32 n < 2 ^ 32 := Nat.mod_lt _ (by decide)

/-- A number cut to 64 bits. Source: `util/constants.h`. Kind: L -/
theorem u64_lt (n : ℕ) : u64 n < 2 ^ 64 := Nat.mod_lt _ (by decide)

/-- A number of 32 bits is not cut. Source: `util/constants.h`. Kind: L -/
theorem u32_of_lt {n : ℕ} (h : n < 2 ^ 32) : u32 n = n := Nat.mod_eq_of_lt h

/-- A number of 64 bits is not cut. Source: `util/constants.h`. Kind: L -/
theorem u64_of_lt {n : ℕ} (h : n < 2 ^ 64) : u64 n = n := Nat.mod_eq_of_lt h

/-- A difference that does not go below zero. Source: `util/constants.h`. Kind: L -/
theorem sub64_of_le {a b : ℕ} (h : b ≤ a) (ha : a < 2 ^ 64) : sub64 a b = a - b := by
  unfold sub64
  omega

/-- A difference that does not go below zero. Source: `util/constants.h`. Kind: L -/
theorem sub32_of_le {a b : ℕ} (h : b ≤ a) (ha : a < 2 ^ 32) : sub32 a b = a - b := by
  unfold sub32
  omega

end KTorrent.Util
