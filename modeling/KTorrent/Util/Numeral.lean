import Mathlib.Data.Int.Order.Basic
import Mathlib.Data.List.TakeWhile
import Mathlib.Data.UInt

/-!
# Numbers as text

`TQString::number` and `TQString::arg` write a number in decimals; `TQString::toInt` and
`TQString::toLongLong` read one back, with white space around it and a sign allowed. They fail on
any other text, and on a number outside their type. A text is the list of its Latin-1 characters.

* `toInt_decimal`, `toLongLong_decimal` — a number that was written is read back when it is in
  the range of the type that reads it, and rejected when it is not.

Source: the conversions of `TQString` as `torrent/bencoder.cpp` and `torrent/bdecoder.cpp` use them
-/

namespace KTorrent.Util

/-- The characters of an ASCII text. Kind: D -/
def latin1 (s : String) : List UInt8 := s.toList.map Char.toUInt8

namespace TQString

/-- Source: `TQString::number`. Kind: D -/
def number (n : ℕ) : List UInt8 := (Nat.toDigits 10 n).map Char.toUInt8

/-- Source: `TQChar::isSpace`. Kind: D -/
def isSpace (c : UInt8) : Bool := (9 ≤ c && c ≤ 13) || c == 32 || c == 160

/-- Source: `TQChar::isDigit`. Kind: D -/
def isDigit (c : UInt8) : Bool := 48 ≤ c && c ≤ 57

/-- The number with these decimals. Kind: D -/
def digitsValue (ds : List UInt8) : ℕ := ds.foldl (fun v c => 10 * v + (c.toNat - 48)) 0

/-- Decimals, then white space to the end. Kind: D -/
def toUnsigned (s : List UInt8) : Option ℕ :=
  if s.takeWhile isDigit = [] then none
  else if (s.dropWhile isDigit).all isSpace then some (digitsValue (s.takeWhile isDigit))
  else none

/-- White space, a sign if there is one, then `toUnsigned`. Kind: D -/
def toNumber (s : List UInt8) : Option ℤ :=
  match s.dropWhile isSpace with
  | [] => none
  | c :: r =>
    if c = '-'.toUInt8 then (toUnsigned r).map fun n : ℕ => -(n : ℤ)
    else if c = '+'.toUInt8 then (toUnsigned r).map fun n : ℕ => (n : ℤ)
    else (toUnsigned (c :: r)).map fun n : ℕ => (n : ℤ)

/-- Source: `TQString::toInt`. Kind: D -/
def toInt (s : List UInt8) : Option ℤ := (toNumber s).filter fun v => -2 ^ 31 ≤ v ∧ v < 2 ^ 31

/-- Source: `TQString::toLongLong`. Kind: D -/
def toLongLong (s : List UInt8) : Option ℤ := (toNumber s).filter fun v => -2 ^ 63 ≤ v ∧ v < 2 ^ 63

/-- A numeral is not empty. Source: `TQString::number`. Kind: L -/
theorem number_ne_nil (n : ℕ) : number n ≠ [] := by
  unfold number
  intro h
  exact Nat.toDigits_ne_nil (List.map_eq_nil_iff.mp h)

/-- The byte of a digit. Source: `TQString`, `torrent/bencoder.cpp`. Kind: L -/
theorem toNat_toUInt8 {c : Char} (h : c.isDigit) : c.toUInt8.toNat = c.toNat ∧ c.toNat ≤ 57 ∧
    48 ≤ c.toNat := by
  have hc : 48 ≤ c.toNat ∧ c.toNat ≤ 57 := by
    rw [Char.isDigit, Bool.and_eq_true, decide_eq_true_eq, decide_eq_true_eq] at h
    exact h
  refine ⟨?_, hc.2, hc.1⟩
  have h1 : c.toUInt8.toNat = c.toNat % 2 ^ 8 := UInt32.toNat_toUInt8 c.val
  omega

/-- A number is written with decimals only. Source: `TQChar::isDigit`. Kind: L -/
theorem isDigit_of_mem_number {n : ℕ} {c : UInt8} (h : c ∈ number n) : isDigit c := by
  obtain ⟨d, hd, rfl⟩ := List.mem_map.mp h
  have hdig := Nat.isDigit_of_mem_toDigits (by decide) (by decide) hd
  obtain ⟨h1, h2, h3⟩ := toNat_toUInt8 hdig
  simp only [isDigit, Bool.and_eq_true, decide_eq_true_eq, UInt8.le_iff_toNat_le, h1]
  exact ⟨h3, h2⟩

/-- A numeral is read back. Source: `TQString::number`. Kind: L -/
theorem digitsValue_number (n : ℕ) : digitsValue (number n) = n := by
  have hfold : ∀ (l : List Char) (v : ℕ), (∀ c ∈ l, c.isDigit) →
      (l.map Char.toUInt8).foldl (fun v c => 10 * v + (c.toNat - 48)) v = Nat.ofDigitChars 10 l v := by
    intro l
    induction l with
    | nil =>
      intro v _
      rfl
    | cons c l ih =>
      intro v h
      rw [List.map_cons, List.foldl_cons, Nat.ofDigitChars_cons,
        ih _ (fun d hd => h d (List.mem_cons_of_mem _ hd)),
        (toNat_toUInt8 (h c List.mem_cons_self)).1]
      rfl
  unfold digitsValue number
  rw [hfold _ _ (fun c hc => Nat.isDigit_of_mem_toDigits (by decide) (by decide) hc)]
  exact Nat.ofDigitChars_toDigits (by decide) (by decide)

/-- A numeral is read as an unsigned number. Source: `TQString::number`. Kind: L -/
theorem toUnsigned_number (n : ℕ) : toUnsigned (number n) = some n := by
  have htake : (number n).takeWhile isDigit = number n :=
    List.takeWhile_eq_self_iff.mpr fun c hc => isDigit_of_mem_number hc
  have hdrop : (number n).dropWhile isDigit = [] :=
    List.dropWhile_eq_nil_iff.mpr fun c hc => isDigit_of_mem_number hc
  unfold toUnsigned
  rw [htake, hdrop, if_neg (number_ne_nil n), digitsValue_number]
  rfl

/-- A decimal is neither white space nor a sign. Source: `TQChar::isSpace`. Kind: L -/
theorem not_special {c : UInt8} (h : isDigit c) :
    isSpace c = false ∧ c ≠ '-'.toUInt8 ∧ c ≠ '+'.toUInt8 := by
  simp only [isDigit, Bool.and_eq_true, decide_eq_true_eq, UInt8.le_iff_toNat_le] at h
  obtain ⟨h1, h2⟩ := h
  have h3 : (48 : UInt8).toNat = 48 := rfl
  have h4 : (57 : UInt8).toNat = 57 := rfl
  refine ⟨?_, ?_, ?_⟩
  · simp only [isSpace, Bool.or_eq_false_iff, Bool.and_eq_false_iff, decide_eq_false_iff_not,
      beq_eq_false_iff_ne, UInt8.le_iff_toNat_le, ne_eq, ← UInt8.toNat_inj]
    have h5 : (13 : UInt8).toNat = 13 := rfl
    have h6 : (32 : UInt8).toNat = 32 := rfl
    have h7 : (160 : UInt8).toNat = 160 := rfl
    omega
  · rintro rfl
    exact absurd h1 (by decide)
  · rintro rfl
    exact absurd h1 (by decide)

/-- A numeral is read as a number. Source: `TQString::number`. Kind: L -/
theorem toNumber_number (n : ℕ) : toNumber (number n) = some (n : ℤ) := by
  cases hs : number n with
  | nil => exact absurd hs (number_ne_nil n)
  | cons c r =>
    have hc : isDigit c := isDigit_of_mem_number (hs ▸ List.mem_cons_self)
    obtain ⟨h1, h2, h3⟩ := not_special hc
    unfold toNumber
    rw [List.dropWhile_cons_of_neg (by simp [h1])]
    simp only [if_neg h2, if_neg h3]
    rw [← hs, toUnsigned_number]
    rfl

/-- **A number that was written is read back, if an `int` can hold it.**. Source: `TQString::toInt`.
Kind: L -/
theorem toInt_number (n : ℕ) : toInt (number n) = if n < 2 ^ 31 then some (n : ℤ) else none := by
  unfold toInt
  rw [toNumber_number]
  by_cases h : n < 2 ^ 31
  · rw [if_pos h, Option.filter_some, if_pos]
    simp only [decide_eq_true_eq]
    omega
  · rw [if_neg h, Option.filter_some, if_neg]
    simp only [decide_eq_true_eq]
    omega

/-- A numeral is read as one of 64 bits if it fits. Source: `TQString::toLongLong`. Kind: L -/
theorem toLongLong_number (n : ℕ) :
    toLongLong (number n) = if n < 2 ^ 63 then some (n : ℤ) else none := by
  unfold toLongLong
  rw [toNumber_number]
  by_cases h : n < 2 ^ 63
  · rw [if_pos h, Option.filter_some, if_pos]
    simp only [decide_eq_true_eq]
    omega
  · rw [if_neg h, Option.filter_some, if_neg]
    simp only [decide_eq_true_eq]
    omega

/-- A text that begins with a decimal is not a negative number. Source: `TQString::toInt`.
Kind: L -/
theorem toInt_of_digit {s : List UInt8} {c : UInt8} {v : ℤ} (hc : c ∈ s.head?) (hd : isDigit c)
    (h : toInt s = some v) : ∃ n : ℕ, v = n ∧ n < 2 ^ 31 := by
  cases s with
  | nil => cases hc
  | cons c' r =>
    cases hc
    obtain ⟨h1, h2, h3⟩ := not_special hd
    unfold toInt toNumber at h
    rw [List.dropWhile_cons_of_neg (by simp [h1])] at h
    simp only [if_neg h2, if_neg h3] at h
    obtain ⟨hv, hr⟩ := Option.filter_eq_some_iff.mp h
    obtain ⟨n, -, rfl⟩ := Option.map_eq_some_iff.mp hv
    simp only [decide_eq_true_eq] at hr
    exact ⟨n, rfl, by omega⟩

end TQString

end KTorrent.Util
