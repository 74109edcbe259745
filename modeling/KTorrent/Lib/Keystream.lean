import Mathlib.Data.List.Basic
import Mathlib.Tactic.Basic

/-!
# Keystreams

A generator `next : σ → κ × σ` yields a key and its next state. `cipher next add s xs` combines each
element of `xs` with the next key, and `skip next n s` is the state after `n` keys.

* `cipher_append` — a list in two parts: the second goes on where the first stopped.
* `length_cipher`, `take_cipher`, `drop_cipher` — the cipher works element by element.
* `cipher_cipher` — an operation that undoes itself undoes the cipher.

The generator, the keys and the elements are arbitrary.
-/

namespace KTorrent.Lib

variable {σ κ α : Type*} (next : σ → κ × σ) (add : κ → α → α)

/-- Each element combined with the next key. -/
def cipher : σ → List α → List α
  | _, [] => []
  | s, x :: xs => add (next s).1 x :: cipher (next s).2 xs

/-- The state after `n` keys. -/
def skip : ℕ → σ → σ
  | 0, s => s
  | n + 1, s => skip n (next s).2

/-- Nothing is enciphered. Source: none: infrastructure. Kind: L -/
@[simp] theorem cipher_nil (s : σ) : cipher next add s [] = [] := rfl

/-- Nothing is skipped. Source: none: infrastructure. Kind: L -/
@[simp] theorem skip_zero (s : σ) : skip next 0 s = s := rfl

/-- Keys are used one after the other. Source: none: infrastructure. Kind: L -/
theorem skip_add (m n : ℕ) (s : σ) : skip next (m + n) s = skip next n (skip next m s) := by
  induction m generalizing s with
  | zero => rw [Nat.zero_add, skip_zero]
  | succ m ih =>
    rw [Nat.succ_add]
    exact ih (next s).2

/-- A cipher keeps the length. Source: none: infrastructure. Kind: L -/
@[simp] theorem length_cipher (s : σ) (xs : List α) : (cipher next add s xs).length = xs.length := by
  induction xs generalizing s with
  | nil => rfl
  | cons x xs ih => exact congrArg (· + 1) (ih (next s).2)

/-- **The cipher goes on where it stopped.**. Source: none: infrastructure. Kind: L -/
theorem cipher_append (s : σ) (xs ys : List α) :
    cipher next add s (xs ++ ys) =
      cipher next add s xs ++ cipher next add (skip next xs.length s) ys := by
  induction xs generalizing s with
  | nil => rfl
  | cons x xs ih => exact congrArg (_ :: ·) (ih (next s).2)

/-- The front of a ciphered list. Source: none: infrastructure. Kind: L -/
theorem take_cipher (s : σ) (xs : List α) (n : ℕ) :
    (cipher next add s xs).take n = cipher next add s (xs.take n) := by
  induction xs generalizing s n with
  | nil => rw [cipher_nil, List.take_nil, cipher_nil]
  | cons x xs ih =>
    cases n with
    | zero => rfl
    | succ n => exact congrArg (_ :: ·) (ih (next s).2 n)

/-- The rest of a ciphered list. Source: none: infrastructure. Kind: L -/
theorem drop_cipher (s : σ) (xs : List α) {n : ℕ} (h : n ≤ xs.length) :
    (cipher next add s xs).drop n = cipher next add (skip next n s) (xs.drop n) := by
  induction xs generalizing s n with
  | nil =>
    obtain rfl : n = 0 := Nat.le_zero.mp h
    rfl
  | cons x xs ih =>
    cases n with
    | zero => rfl
    | succ n => exact ih (next s).2 (Nat.le_of_succ_le_succ h)

/-- **What the cipher does, it undoes**, from the same state. Source: none: infrastructure.
Kind: L -/
theorem cipher_cipher (hadd : ∀ k x, add k (add k x) = x) (s : σ) (xs : List α) :
    cipher next add s (cipher next add s xs) = xs := by
  induction xs generalizing s with
  | nil => rfl
  | cons x xs ih =>
    show add (next s).1 (add (next s).1 x) :: _ = _
    rw [hadd]
    exact congrArg (x :: ·) (ih (next s).2)

end KTorrent.Lib
