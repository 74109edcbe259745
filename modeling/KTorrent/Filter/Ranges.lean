import KTorrent.Filter.IPBlocklist
import Mathlib.Tactic.Linarith

/-!
# Ranges as keys

* `Text.key_eq` — the key that the code makes of the text of a range.
* `IPKey.Member`, `Text.member_iff` — the addresses of a range, for the key and for the text.
* `IPKey.Before`, `IPKey.Inside` — how two ranges can lie.
* `Text.Tidy` — nothing but zeros and stars stands behind a star. For such a range the comparison tells
  whether an address is in it (`Text.member_of_not_lt`); for `*.1.2.3` it does not.
* `IPKey.split_list` — one address in a list of ranges that lie one before the other.

Source: `torrent/ipblocklist.cpp`, `addRange`, `toUint32`, `IPKey::operator<`
-/

namespace KTorrent.Filter

open KTorrent.Lib

/-! ### Four octets -/

/-- The number of four octets. Kind: D -/
def quad (a b c d : ℕ) : ℕ := ((a * 256 + b) * 256 + c) * 256 + d

/-- A number of 32 bits has four parts. Source: `torrent/ipblocklist.cpp`, `addRange`. Kind: L -/
theorem exists_quad {q : ℕ} (h : q < 2 ^ 32) :
    ∃ a b c d, a < 256 ∧ b < 256 ∧ c < 256 ∧ d < 256 ∧ q = quad a b c d := by
  refine ⟨q / 2 ^ 24, q / 2 ^ 16 % 256, q / 2 ^ 8 % 256, q % 256, ?_, ?_, ?_, ?_, ?_⟩
  · omega
  · omega
  · omega
  · omega
  · unfold quad
    omega

/-- The last octets of two numbers are masked by themselves. Source: `torrent/ipblocklist.cpp`,
`addRange`. Kind: L -/
theorem and_octet {a b : ℕ} (x y : ℕ) (ha : a < 256) (hb : b < 256) :
    (x * 256 + a) &&& (y * 256 + b) = (x &&& y) * 256 + (a &&& b) := by
  have hab : a &&& b < 2 ^ 8 := Nat.and_lt_two_pow a hb
  apply Nat.eq_of_testBit_eq
  intro i
  rw [Nat.testBit_and, Nat.mul_comm x, Nat.mul_comm y, Nat.mul_comm (x &&& y),
    show (256 : ℕ) = 2 ^ 8 from rfl, Nat.testBit_two_pow_mul_add x ha,
    Nat.testBit_two_pow_mul_add y hb, Nat.testBit_two_pow_mul_add _ hab]
  split_ifs
  · rw [Nat.testBit_and]
  · rw [Nat.testBit_and]

/-- The bitwise and of numbers is that of their parts. Source: `torrent/ipblocklist.cpp`,
`addRange`. Kind: L -/
theorem and_quad {a b c d a' b' c' d' : ℕ} (hb : b < 256) (hc : c < 256) (hd : d < 256)
    (hb' : b' < 256) (hc' : c' < 256) (hd' : d' < 256) :
    quad a b c d &&& quad a' b' c' d' = quad (a &&& a') (b &&& b') (c &&& c') (d &&& d') := by
  unfold quad
  rw [and_octet _ _ hd hd', and_octet _ _ hc hc', and_octet _ _ hb hb']

/-- Parts that are close make numbers that are close. Source: `torrent/ipblocklist.cpp`, `addRange`.
Kind: L -/
theorem quad_le_add {a₀ a₁ a₂ a₃ x₀ x₁ x₂ x₃ p₀ p₁ p₂ p₃ c₀ c₁ c₂ c₃ : ℕ}
    (h : quad x₀ x₁ x₂ x₃ ≤ quad p₀ p₁ p₂ p₃) (h₀ : a₀ ≤ x₀ + c₀) (h₁ : a₁ ≤ x₁ + c₁)
    (h₂ : a₂ ≤ x₂ + c₂) (h₃ : a₃ ≤ x₃ + c₃) :
    quad a₀ a₁ a₂ a₃ ≤ quad (p₀ + c₀) (p₁ + c₁) (p₂ + c₂) (p₃ + c₃) := by
  unfold quad at *
  linarith

/-! ### The key of a text -/

namespace Octet

/-- The octet of the address. Kind: D -/
def value : Octet → ℕ
  | number n => n
  | _ => 0

/-- The octet of the mask. Kind: D -/
def bits : Octet → ℕ
  | number _ => 255
  | _ => 0

/-- What the mask leaves of an octet. Kind: D -/
def keep (o : Octet) (a : ℕ) : ℕ :=
  match o with
  | number _ => a
  | _ => 0

/-- A part is less than 256. Source: `torrent/ipblocklist.cpp`, `addRange`. Kind: L -/
theorem value_lt (o : Octet) : o.value < 256 := by
  cases o with
  | number n => exact n.isLt
  | star => exact Nat.zero_lt_succ 255
  | illegal => exact Nat.zero_lt_succ 255

/-- The mask of a part is less than 256. Source: `torrent/ipblocklist.cpp`, `addRange`. Kind: L -/
theorem bits_lt (o : Octet) : o.bits < 256 := by
  cases o with
  | number n => exact Nat.lt_succ_self 255
  | star => exact Nat.zero_lt_succ 255
  | illegal => exact Nat.zero_lt_succ 255

/-- The mask keeps a number or clears it. Source: `torrent/ipblocklist.cpp`, `addRange`. Kind: L -/
theorem and_bits (o : Octet) {a : ℕ} (h : a < 256) : a &&& o.bits = o.keep a := by
  cases o with
  | number n =>
    show a &&& (2 ^ 8 - 1) = a
    rw [Nat.and_two_pow_sub_one_eq_mod]
    exact Nat.mod_eq_of_lt h
  | star => exact Nat.and_zero a
  | illegal => exact Nat.and_zero a

/-- A part keeps its own number. Source: `torrent/ipblocklist.cpp`, `addRange`. Kind: L -/
theorem keep_value (o : Octet) : o.keep o.value = o.value := by cases o <;> rfl

/-- What is kept is no larger. Source: `torrent/ipblocklist.cpp`, `addRange`. Kind: L -/
theorem keep_le (o : Octet) (a : ℕ) : o.keep a ≤ a := by
  cases o with
  | number n => exact le_rfl
  | star => exact Nat.zero_le a
  | illegal => exact Nat.zero_le a

/-- What the mask leaves is at most a whole octet less. Source: `torrent/ipblocklist.cpp`,
`addRange`. Kind: L -/
theorem le_keep_add (o : Octet) {a : ℕ} (h : a < 256) : a ≤ o.keep a + (255 - o.bits) := by
  cases o with
  | number n => exact Nat.le_add_right a _
  | star =>
    show a ≤ 0 + 255
    omega
  | illegal =>
    show a ≤ 0 + 255
    omega

/-- A part of an address matches iff its mask keeps the part's number.
Source: `torrent/ipblocklist.cpp`, `addRange`. Kind: L -/
theorem matches_iff {o p : Octet} (ho : o ≠ illegal) (hp : p.IsNumber) :
    o.Matches p ↔ o.keep p.value = o.value := by
  cases p with
  | number n =>
    cases o with
    | number m =>
      show (number m = star ∨ number m = number n) ↔ (n : ℕ) = m
      rw [number.injEq, Fin.ext_iff]
      constructor
      · rintro (h | h)
        · cases h
        · exact h.symm
      · intro h
        exact Or.inr h.symm
    | star => exact ⟨fun _ => rfl, fun _ => Or.inl rfl⟩
    | illegal => exact absurd rfl ho
  | star => exact absurd hp id
  | illegal => exact absurd hp id

/-- Parsing a part shifts the number, and clears the mask for a star.
Source: `torrent/ipblocklist.cpp`, `addRange`. Kind: L -/
theorem parse_eq {o : Octet} (h : o ≠ illegal) (clear : ℕ) {s : ℕ} (hs : s < 2 ^ 24) (m : ℕ) :
    o.parse clear (s, m) = some (s * 256 + o.value, if o = star then m &&& clear else m) := by
  have hshift : s <<< 8 % 2 ^ 32 = s <<< 8 := by
    rw [Nat.shiftLeft_eq]
    exact Nat.mod_eq_of_lt (by omega)
  cases o with
  | number n =>
    show some (s <<< 8 % 2 ^ 32 ||| (n : ℕ), m) = some (s * 256 + n, m)
    rw [hshift, ← Nat.shiftLeft_add_eq_or_of_lt (i := 8) n.isLt, Nat.shiftLeft_eq]
  | star =>
    rw [parse, hshift, Nat.shiftLeft_eq, if_pos rfl]
    simp [value]
  | illegal => exact absurd rfl h

end Octet

namespace Text

/-- Kind: D -/
def toKey (t : Text) : IPKey where
  m_ip := quad t.o₀.value t.o₁.value t.o₂.value t.o₃.value
  m_mask := quad t.o₀.bits t.o₁.bits t.o₂.bits t.o₃.bits

/-- An address has 32 bits. Source: `torrent/ipblocklist.cpp`, `addRange`. Kind: L -/
theorem toKey_ip_lt (t : Text) : t.toKey.m_ip < 2 ^ 32 := by
  have h₀ := t.o₀.value_lt
  have h₁ := t.o₁.value_lt
  have h₂ := t.o₂.value_lt
  have h₃ := t.o₃.value_lt
  show quad _ _ _ _ < _
  unfold quad
  omega

/-- The octets of the mask that are still to come are full. Source: `torrent/ipblocklist.cpp`,
`addRange`. Kind: L -/
theorem mask_step {a b c d : ℕ} (ha : a < 256) (hb : b < 256) (hc : c < 256) (hd : d < 256) :
    quad 255 b c d &&& 0x00FFFFFF = quad 0 b c d ∧ quad a 255 c d &&& 0xFF00FFFF = quad a 0 c d ∧
      quad a b 255 d &&& 0xFFFF00FF = quad a b 0 d ∧
      quad a b c 255 &&& 0xFFFFFF00 = quad a b c 0 := by
  have hfull : ∀ x, x < 256 → x &&& 255 = x := fun x hx => (Octet.number 0).and_bits hx
  have h255 : 255 < 256 := Nat.lt_succ_self 255
  have h0 : 0 < 256 := Nat.zero_lt_succ 255
  refine ⟨?_, ?_, ?_, ?_⟩
  · rw [show 0x00FFFFFF = quad 0 255 255 255 from rfl, and_quad hb hc hd h255 h255 h255,
      hfull b hb, hfull c hc, hfull d hd, Nat.and_zero]
  · rw [show 0xFF00FFFF = quad 255 0 255 255 from rfl, and_quad h255 hc hd h0 h255 h255,
      hfull a ha, hfull c hc, hfull d hd, Nat.and_zero]
  · rw [show 0xFFFF00FF = quad 255 255 0 255 from rfl, and_quad hb h255 hd h255 h0 h255,
      hfull a ha, hfull b hb, hfull d hd, Nat.and_zero]
  · rw [show 0xFFFFFF00 = quad 255 255 255 0 from rfl, and_quad hb hc h255 h255 h255 h0,
      hfull a ha, hfull b hb, hfull c hc, Nat.and_zero]

/-- **The code makes the key of the range.** Source: `IPBlocklist::addRange`. Kind: L -/
theorem key_eq {t : Text} (h : t.IsRange) : t.key = some t.toKey := by
  obtain ⟨h₀, h₁, h₂, h₃⟩ := h
  have v₀ := t.o₀.value_lt
  have v₁ := t.o₁.value_lt
  have v₂ := t.o₂.value_lt
  have b₀ := t.o₀.bits_lt
  have b₁ := t.o₁.bits_lt
  have b₂ := t.o₂.bits_lt
  have h255 : 255 < 256 := Nat.lt_succ_self 255
  have m₀ : (if t.o₀ = .star then 0xFFFFFFFF &&& 0x00FFFFFF else 0xFFFFFFFF) =
      quad t.o₀.bits 255 255 255 := by
    cases h : t.o₀ with
    | number n =>
      rw [if_neg fun h' => by cases h']
      exact show 0xFFFFFFFF = quad 255 255 255 255 from rfl
    | star =>
      rw [if_pos rfl]
      exact show 0xFFFFFFFF &&& 0x00FFFFFF = quad 0 255 255 255 from rfl
    | illegal => exact absurd h h₀
  have m₁ : (if t.o₁ = .star then quad t.o₀.bits 255 255 255 &&& 0xFF00FFFF
      else quad t.o₀.bits 255 255 255) = quad t.o₀.bits t.o₁.bits 255 255 := by
    cases h : t.o₁ with
    | number n => exact if_neg fun h' => by cases h'
    | star =>
      rw [if_pos rfl, (mask_step b₀ h255 h255 h255).2.1]
      rfl
    | illegal => exact absurd h h₁
  have m₂ : (if t.o₂ = .star then quad t.o₀.bits t.o₁.bits 255 255 &&& 0xFFFF00FF
      else quad t.o₀.bits t.o₁.bits 255 255) = quad t.o₀.bits t.o₁.bits t.o₂.bits 255 := by
    cases h : t.o₂ with
    | number n => exact if_neg fun h' => by cases h'
    | star =>
      rw [if_pos rfl, (mask_step b₀ b₁ h255 h255).2.2.1]
      rfl
    | illegal => exact absurd h h₂
  have m₃ : (if t.o₃ = .star then quad t.o₀.bits t.o₁.bits t.o₂.bits 255 &&& 0xFFFFFF00
      else quad t.o₀.bits t.o₁.bits t.o₂.bits 255) = t.toKey.m_mask := by
    cases h : t.o₃ with
    | number n =>
      unfold toKey
      rw [h]
      rfl
    | star =>
      unfold toKey
      rw [h, if_pos rfl, (mask_step b₀ b₁ b₂ h255).2.2.2]
      rfl
    | illegal => exact absurd h h₃
  unfold key
  rw [Octet.parse_eq h₀ _ (by omega), m₀]
  simp only [Option.bind_eq_bind, Option.bind_some]
  rw [Octet.parse_eq h₁ _ (by omega), m₁]
  simp only [Option.bind_some]
  rw [Octet.parse_eq h₂ _ (by omega), m₂]
  simp only [Option.bind_some]
  rw [Octet.parse_eq h₃ _ (by omega), m₃]
  simp only [Option.bind_some, Nat.zero_mul, Nat.zero_add]
  rfl

/-- An address is a range. Source: `torrent/ipblocklist.cpp`, `addRange`. Kind: L -/
theorem isRange_of_isAddress {t : Text} (h : t.IsAddress) : t.IsRange := by
  have hne : ∀ o : Octet, o.IsNumber → o ≠ .illegal := fun o ho heq => by
    rw [heq] at ho
    exact ho
  exact ⟨hne _ h.1, hne _ h.2.1, hne _ h.2.2.1, hne _ h.2.2.2⟩

/-- An address has a full mask. Source: `torrent/ipblocklist.cpp`, `addRange`. Kind: L -/
theorem mask_of_isAddress {t : Text} (h : t.IsAddress) : t.toKey.m_mask = 0xFFFFFFFF := by
  have hbits : ∀ o : Octet, o.IsNumber → o.bits = 255 := fun o ho => by
    cases o with
    | number n => rfl
    | star => exact absurd ho id
    | illegal => exact absurd ho id
  show quad _ _ _ _ = _
  rw [hbits _ h.1, hbits _ h.2.1, hbits _ h.2.2.1, hbits _ h.2.2.2]
  rfl

/-- Only an address has a full mask. Source: `torrent/ipblocklist.cpp`, `addRange`. Kind: L -/
theorem isAddress_of_mask {t : Text} (h : t.toKey.m_mask = 0xFFFFFFFF) : t.IsAddress := by
  have hnum : ∀ o : Octet, o.bits = 255 → o.IsNumber := fun o ho => by
    cases o with
    | number n => trivial
    | star => cases ho
    | illegal => cases ho
  have b₀ := t.o₀.bits_lt
  have b₁ := t.o₁.bits_lt
  have b₂ := t.o₂.bits_lt
  have b₃ := t.o₃.bits_lt
  have hq : quad t.o₀.bits t.o₁.bits t.o₂.bits t.o₃.bits = quad 255 255 255 255 := h
  unfold quad at hq
  exact ⟨hnum _ (by omega), hnum _ (by omega), hnum _ (by omega), hnum _ (by omega)⟩

/-- **The code reads the address.** Source: `toUint32`. Kind: L -/
theorem toUint32_eq {t : Text} (h : t.IsAddress) : toUint32 t = some t.toKey.m_ip := by
  have hnum : ∀ o : Octet, o.IsNumber → o.toULong = some o.value := fun o ho => by
    cases o with
    | number n => rfl
    | star => exact absurd ho id
    | illegal => exact absurd ho id
  have hor : ∀ x v, v < 256 → x <<< 8 ||| v = x * 256 + v := fun x v hv => by
    rw [← Nat.shiftLeft_add_eq_or_of_lt (i := 8) hv, Nat.shiftLeft_eq]
  unfold toUint32
  rw [hnum _ h.1, hnum _ h.2.1, hnum _ h.2.2.1, hnum _ h.2.2.2]
  simp only [Option.bind_eq_bind, Option.bind_some]
  rw [hor _ _ t.o₁.value_lt, hor _ _ t.o₂.value_lt, hor _ _ t.o₃.value_lt]
  exact congrArg some (Nat.mod_eq_of_lt t.toKey_ip_lt)

/-- What is not the text of a range has no key. Source: `torrent/ipblocklist.cpp`, `addRange`.
Kind: L -/
theorem key_eq_none {t : Text} (h : ¬ t.IsRange) : t.key = none := by
  have hill : t.o₀ = .illegal ∨ t.o₁ = .illegal ∨ t.o₂ = .illegal ∨ t.o₃ = .illegal := by
    by_contra hnot
    rw [not_or, not_or, not_or] at hnot
    exact h hnot
  unfold key
  rcases hill with h' | h' | h' | h'
  · simp [h', Octet.parse]
  · simp [h', Octet.parse]
  · simp [h', Octet.parse]
  · simp [h', Octet.parse]

/-- What is not the text of an address has no number. Source: `toUint32`. Kind: L -/
theorem toUint32_eq_none {t : Text} (h : ¬ t.IsAddress) : toUint32 t = none := by
  have hnone : ∀ o : Octet, ¬ o.IsNumber → o.toULong = none := fun o ho => by
    cases o with
    | number n => exact absurd trivial ho
    | star => rfl
    | illegal => rfl
  have hnot : ¬ t.o₀.IsNumber ∨ ¬ t.o₁.IsNumber ∨ ¬ t.o₂.IsNumber ∨ ¬ t.o₃.IsNumber := by
    by_contra hall
    rw [not_or, not_or, not_or, not_not, not_not, not_not, not_not] at hall
    exact h hall
  unfold toUint32
  rcases hnot with h' | h' | h' | h'
  · simp [hnone _ h']
  · simp [hnone _ h']
  · simp [hnone _ h']
  · simp [hnone _ h']

end Text

/-! ### The addresses of a range -/

namespace IPKey

/-- The address is in the range. Kind: D -/
def Member (k : IPKey) (q : ℕ) : Prop := q < 2 ^ 32 ∧ q &&& k.m_mask = k.m_ip

/-- All addresses of one range are below all addresses of the other. Kind: D -/
def Before (a b : IPKey) : Prop := ∀ p q, a.Member p → b.Member q → p < q

/-- One of the two ranges lies before the other. Kind: D -/
def Apart (a b : IPKey) : Prop := Before a b ∨ Before b a

/-- The first range is a part of the second. Kind: D -/
def Inside (a b : IPKey) : Prop :=
  a.m_mask &&& b.m_mask = b.m_mask ∧ a.m_ip &&& b.m_mask = b.m_ip

instance (a b : IPKey) : Decidable (Inside a b) := inferInstanceAs (Decidable (_ ∧ _))

/-- What a key holds, the key around it holds. Source: `torrent/ipblocklist.cpp`, `addRange`.
Kind: L -/
theorem Inside.member {a b : IPKey} (h : Inside a b) {q : ℕ} (hq : a.Member q) : b.Member q := by
  refine ⟨hq.1, ?_⟩
  rw [← h.1, ← Nat.and_assoc, hq.2, h.2]

/-- The larger mask is the union of the two. Source: `torrent/ipblocklist.cpp`, `addRange`.
Kind: L -/
theorem Inside.mask_or {a b : IPKey} (h : Inside a b) : b.m_mask ||| a.m_mask = a.m_mask := by
  apply Nat.eq_of_testBit_eq
  intro i
  rw [← h.1, Nat.testBit_or, Nat.testBit_and]
  cases a.m_mask.testBit i
  · rfl
  · exact Bool.or_true _

end IPKey

namespace Text

open IPKey

/-- The mask of a text keeps its numbers part by part. Source: `torrent/ipblocklist.cpp`,
`addRange`. Kind: L -/
theorem and_mask (t : Text) {a b c d : ℕ} (ha : a < 256) (hb : b < 256) (hc : c < 256)
    (hd : d < 256) : quad a b c d &&& t.toKey.m_mask =
      quad (t.o₀.keep a) (t.o₁.keep b) (t.o₂.keep c) (t.o₃.keep d) := by
  rw [← t.o₀.and_bits ha, ← t.o₁.and_bits hb, ← t.o₂.and_bits hc, ← t.o₃.and_bits hd]
  exact and_quad hb hc hd t.o₁.bits_lt t.o₂.bits_lt t.o₃.bits_lt

/-- An address lies under its own mask. Source: `torrent/ipblocklist.cpp`, `addRange`. Kind: L -/
theorem ip_and_mask (t : Text) : t.toKey.m_ip &&& t.toKey.m_mask = t.toKey.m_ip := by
  show quad _ _ _ _ &&& _ = _
  rw [t.and_mask t.o₀.value_lt t.o₁.value_lt t.o₂.value_lt t.o₃.value_lt, Octet.keep_value,
    Octet.keep_value, Octet.keep_value, Octet.keep_value]
  rfl

/-- The first address of a range. Source: `torrent/ipblocklist.cpp`, `addRange`. Kind: L -/
theorem member_ip (t : Text) : t.toKey.Member t.toKey.m_ip := ⟨t.toKey_ip_lt, t.ip_and_mask⟩

/-- A key lies inside itself. Source: `torrent/ipblocklist.cpp`, `addRange`. Kind: L -/
theorem inside_self (t : Text) : Inside t.toKey t.toKey := ⟨Nat.and_self _, t.ip_and_mask⟩

/-- **The key has the addresses of the text.**. Source: `torrent/ipblocklist.cpp`, `addRange`.
Kind: L -/
theorem member_iff {t ip : Text} (ht : t.IsRange) (hip : ip.IsAddress) :
    t.toKey.Member ip.toKey.m_ip ↔ t.Matches ip := by
  obtain ⟨t₀, t₁, t₂, t₃⟩ := ht
  obtain ⟨i₀, i₁, i₂, i₃⟩ := hip
  have v₀ := t.o₀.keep_le ip.o₀.value
  have v₁ := t.o₁.keep_le ip.o₁.value
  have v₂ := t.o₂.keep_le ip.o₂.value
  have v₃ := t.o₃.keep_le ip.o₃.value
  have w₀ := ip.o₀.value_lt
  have w₁ := ip.o₁.value_lt
  have w₂ := ip.o₂.value_lt
  have w₃ := ip.o₃.value_lt
  have u₁ := t.o₁.value_lt
  have u₂ := t.o₂.value_lt
  have u₃ := t.o₃.value_lt
  have hand : ip.toKey.m_ip &&& t.toKey.m_mask = quad (t.o₀.keep ip.o₀.value)
      (t.o₁.keep ip.o₁.value) (t.o₂.keep ip.o₂.value) (t.o₃.keep ip.o₃.value) :=
    t.and_mask w₀ w₁ w₂ w₃
  unfold IPKey.Member Matches
  rw [Octet.matches_iff t₀ i₀, Octet.matches_iff t₁ i₁, Octet.matches_iff t₂ i₂,
    Octet.matches_iff t₃ i₃, hand]
  show _ ∧ quad _ _ _ _ = quad _ _ _ _ ↔ _
  unfold quad
  constructor
  · intro h
    omega
  · rintro ⟨h₀, h₁, h₂, h₃⟩
    exact ⟨ip.toKey_ip_lt, by rw [h₀, h₁, h₂, h₃]⟩

/-- The last address of a range. Kind: D -/
def top (t : Text) : ℕ :=
  quad (t.o₀.value + (255 - t.o₀.bits)) (t.o₁.value + (255 - t.o₁.bits))
    (t.o₂.value + (255 - t.o₂.bits)) (t.o₃.value + (255 - t.o₃.bits))

/-- The last address of a range is a member. Source: `torrent/ipblocklist.cpp`, `addRange`.
Kind: L -/
theorem member_top (t : Text) : t.toKey.Member t.top := by
  have hkeep : ∀ o : Octet, o.value + (255 - o.bits) < 256 ∧
      o.keep (o.value + (255 - o.bits)) = o.value := by
    intro o
    cases o with
    | number n => exact ⟨n.isLt, rfl⟩
    | star => exact ⟨Nat.lt_succ_self 255, rfl⟩
    | illegal => exact ⟨Nat.lt_succ_self 255, rfl⟩
  obtain ⟨h₀, k₀⟩ := hkeep t.o₀
  obtain ⟨h₁, k₁⟩ := hkeep t.o₁
  obtain ⟨h₂, k₂⟩ := hkeep t.o₂
  obtain ⟨h₃, k₃⟩ := hkeep t.o₃
  refine ⟨?_, ?_⟩
  · unfold top quad
    omega
  · unfold top
    rw [t.and_mask h₀ h₁ h₂ h₃, k₀, k₁, k₂, k₃]
    rfl

/-- What is masked to the first address at most is at most the last one.
Source: `torrent/ipblocklist.cpp`, `addRange`. Kind: L -/
theorem le_top {t : Text} {q : ℕ} (hq : q < 2 ^ 32)
    (h : q &&& t.toKey.m_mask ≤ t.toKey.m_ip) : q ≤ t.top := by
  obtain ⟨a, b, c, d, ha, hb, hc, hd, rfl⟩ := exists_quad hq
  rw [t.and_mask ha hb hc hd] at h
  have k₀ := t.o₀.le_keep_add ha
  have k₁ := t.o₁.le_keep_add hb
  have k₂ := t.o₂.le_keep_add hc
  have k₃ := t.o₃.le_keep_add hd
  exact quad_le_add h k₀ k₁ k₂ k₃

/-- Keys are compared under the mask of the first. Source: `torrent/ipblocklist.cpp`, `addRange`.
Kind: L -/
theorem lt_iff (t : Text) (k : IPKey) :
    lt t.toKey k = true ↔ t.toKey.m_ip < k.m_ip &&& t.toKey.m_mask := by
  unfold lt
  rw [decide_eq_true_eq, t.ip_and_mask, Nat.and_comm k.m_ip]

/-- **Ranges that lie one before the other are compared as they lie.**.
Source: `torrent/ipblocklist.cpp`, `addRange`. Kind: L -/
theorem lt_of_before {a b : Text} (h : Before a.toKey b.toKey) :
    a.toKey.m_ip < b.toKey.m_ip ∧ lt a.toKey b.toKey = true ∧ lt b.toKey a.toKey = false := by
  have hip := h _ _ a.member_ip b.member_ip
  refine ⟨hip, ?_, ?_⟩
  · rw [lt_iff]
    by_contra hle
    have htop := le_top b.toKey_ip_lt (not_lt.mp hle)
    exact absurd (h _ _ a.member_top b.member_ip) (not_lt.mpr htop)
  · rw [← Bool.not_eq_true, lt_iff, not_lt]
    exact Nat.and_le_left.trans hip.le

/-- A part of a range is not told from the range. Source: `torrent/ipblocklist.cpp`, `addRange`.
Kind: L -/
theorem lt_of_inside {a b : Text} (h : Inside a.toKey b.toKey) :
    b.toKey.m_ip ≤ a.toKey.m_ip ∧ lt a.toKey b.toKey = false ∧ lt b.toKey a.toKey = false := by
  have hip : b.toKey.m_ip ≤ a.toKey.m_ip := by
    rw [← h.2]
    exact Nat.and_le_left
  refine ⟨hip, ?_, ?_⟩
  · rw [← Bool.not_eq_true, lt_iff, not_lt]
    exact Nat.and_le_left.trans hip
  · rw [← Bool.not_eq_true, lt_iff, not_lt, h.2]

/-- Behind a star there are only zeros and stars. Kind: D -/
def Tidy (t : Text) : Prop :=
  (t.o₀ = .star → t.o₁.value = 0) ∧ (t.o₀ = .star ∨ t.o₁ = .star → t.o₂.value = 0) ∧
    (t.o₀ = .star ∨ t.o₁ = .star ∨ t.o₂ = .star → t.o₃.value = 0)

instance (t : Text) : Decidable t.Tidy := inferInstanceAs (Decidable (_ ∧ _ ∧ _))

/-- An address is tidy. Source: `torrent/ipblocklist.cpp`, `addRange`. Kind: L -/
theorem tidy_of_isAddress {t : Text} (h : t.IsAddress) : t.Tidy := by
  have hne : ∀ o : Octet, o.IsNumber → o ≠ .star := fun o ho heq => by
    rw [heq] at ho
    exact ho
  refine ⟨fun h' => absurd h' (hne _ h.1), fun h' => ?_, fun h' => ?_⟩
  · rcases h' with h' | h'
    · exact absurd h' (hne _ h.1)
    · exact absurd h' (hne _ h.2.1)
  · rcases h' with h' | h' | h'
    · exact absurd h' (hne _ h.1)
    · exact absurd h' (hne _ h.2.1)
    · exact absurd h' (hne _ h.2.2.1)

/-- **With zeros only behind a star, the comparison finds the addresses of the range.**.
Source: `torrent/ipblocklist.cpp`, `addRange`. Kind: L -/
theorem member_of_not_lt {t : Text} (ht : t.IsRange) (htidy : t.Tidy) {q : ℕ} (hq : q < 2 ^ 32)
    (hle : t.toKey.m_ip ≤ q) (h : q &&& t.toKey.m_mask ≤ t.toKey.m_ip) : t.toKey.Member q := by
  refine ⟨hq, ?_⟩
  obtain ⟨a, b, c, d, ha, hb, hc, hd, rfl⟩ := exists_quad hq
  have hip : t.toKey.m_ip = quad t.o₀.value t.o₁.value t.o₂.value t.o₃.value := rfl
  rw [t.and_mask ha hb hc hd] at h ⊢
  rw [hip] at h hle ⊢
  have hstar : ∀ o : Octet, o ≠ .illegal → ∀ x,
      (o = .star ∧ o.keep x = 0 ∧ o.value = 0) ∨ o.keep x = x := by
    intro o ho x
    cases o with
    | number n => exact Or.inr rfl
    | star => exact Or.inl ⟨rfl, rfl, rfl⟩
    | illegal => exact absurd rfl ho
  obtain ⟨t₁, t₂, t₃⟩ := htidy
  have l₁ := t.o₁.keep_le b
  have l₂ := t.o₂.keep_le c
  have l₃ := t.o₃.keep_le d
  have v₀ := t.o₀.value_lt
  have v₁ := t.o₁.value_lt
  have v₂ := t.o₂.value_lt
  have v₃ := t.o₃.value_lt
  unfold quad at h hle ⊢
  -- the first star, behind which everything is zero
  rcases hstar t.o₀ ht.1 a with ⟨s₀, k₀, z₀⟩ | k₀
  · have z₁ := t₁ s₀
    have z₂ := t₂ (Or.inl s₀)
    have z₃ := t₃ (Or.inl s₀)
    omega
  rcases hstar t.o₁ ht.2.1 b with ⟨s₁, k₁, z₁⟩ | k₁
  · have z₂ := t₂ (Or.inr s₁)
    have z₃ := t₃ (Or.inr (Or.inl s₁))
    omega
  rcases hstar t.o₂ ht.2.2.1 c with ⟨s₂, k₂, z₂⟩ | k₂
  · have z₃ := t₃ (Or.inr (Or.inr s₂))
    omega
  rcases hstar t.o₃ ht.2.2.2 d with ⟨s₃, k₃, z₃⟩ | k₃
  · omega
  · omega

end Text

/-! ### An address in a list of ranges -/

namespace IPKey

/-- The key of a range whose stars have only zeros and stars behind them. Kind: D -/
def Tame (k : IPKey) : Prop := ∃ t : Text, t.IsRange ∧ t.Tidy ∧ t.toKey = k

/-- **One address in a list of ranges**: it is in one of them, or between two.
Source: `torrent/ipblocklist.cpp`, `addRange`. Kind: L -/
theorem split_list {es : List (IPKey × ℤ)} (hs : es.Pairwise fun a b => Before a.1 b.1)
    (ht : ∀ e ∈ es, Tame e.1) {p : ℕ} (hp : p < 2 ^ 32) :
    (∃ as e bs, es = as ++ e :: bs ∧ e.1.Member p ∧
      (∀ a ∈ as, a.1.m_ip < p &&& a.1.m_mask) ∧ ∀ b ∈ bs, p < b.1.m_ip) ∨
    ∃ as bs, es = as ++ bs ∧ (∀ a ∈ as, a.1.m_ip < p &&& a.1.m_mask) ∧ ∀ b ∈ bs, p < b.1.m_ip := by
  induction es with
  | nil =>
    exact Or.inr ⟨[], [], rfl, fun _ h => absurd h List.not_mem_nil,
      fun _ h => absurd h List.not_mem_nil⟩
  | cons x xs ih =>
    obtain ⟨hx, hxs⟩ := List.pairwise_cons.mp hs
    obtain ⟨t, htr, htt, htk⟩ := ht x List.mem_cons_self
    have htail : ∀ e ∈ xs, Tame e.1 := fun e he => ht e (List.mem_cons_of_mem x he)
    have hself : x.1.Member x.1.m_ip := htk ▸ t.member_ip
    by_cases habove : p < x.1.m_ip
    · refine Or.inr ⟨[], x :: xs, rfl, fun _ h => absurd h List.not_mem_nil, fun b hb => ?_⟩
      rcases List.mem_cons.mp hb with rfl | hb
      · exact habove
      · obtain ⟨t', -, -, htk'⟩ := htail b hb
        exact habove.trans (hx b hb _ _ hself (htk' ▸ t'.member_ip))
    · by_cases hbelow : x.1.m_ip < p &&& x.1.m_mask
      · rcases ih hxs htail with ⟨as, e, bs, rfl, he, ha, hb⟩ | ⟨as, bs, rfl, ha, hb⟩
        · refine Or.inl ⟨x :: as, e, bs, rfl, he, fun a h => ?_, hb⟩
          rcases List.mem_cons.mp h with rfl | h
          · exact hbelow
          · exact ha a h
        · refine Or.inr ⟨x :: as, bs, rfl, fun a h => ?_, hb⟩
          rcases List.mem_cons.mp h with rfl | h
          · exact hbelow
          · exact ha a h
      · have hmem : x.1.Member p := by
          rw [← htk] at habove hbelow ⊢
          exact Text.member_of_not_lt htr htt hp (not_lt.mp habove) (not_lt.mp hbelow)
        refine Or.inl ⟨[], x, xs, rfl, hmem, fun _ h => absurd h List.not_mem_nil, fun b hb => ?_⟩
        obtain ⟨t', -, -, htk'⟩ := htail b hb
        exact hx b hb _ _ hmem (htk' ▸ t'.member_ip)

end IPKey

end KTorrent.Filter
