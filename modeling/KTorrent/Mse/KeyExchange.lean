import KTorrent.Mse.Secret
import Mathlib.Data.Nat.Digits.Lemmas
import Mathlib.Tactic.Ring

/-!
# The key exchange

Each side sends its public key in a field of 96 bytes, reads the other's from such a field, and
writes the secret to buffers of 96 bytes to hash it. `BigInt::toBuffer` writes a number with as few
bytes as it takes, to the beginning of the field.

* `fromBuffer_toBuffer_iff` — a number is read back if and only if it takes all 96 bytes, or it is
  zero and so was the field.
* `Exchange.number_eq` — the two sides compute the same number when both public keys take 96 bytes.
* `exchange_iff` — then they hash the same bytes if and only if the secret takes 96 bytes as well,
  or their buffers held the same bytes behind it.
* `short_keys` — the number 1 is not read back, and with the private keys 1 and 2 the two sides
  compute different secrets.

Source: `mse/bigint.cpp`, `mse/functions.cpp`, `mse/encryptedauthenticate.cpp`,
`mse/encryptedserverauthenticate.cpp`
-/

namespace KTorrent.Mse

open KTorrent.Storage KTorrent.Util

/-! ### A number in a field of 96 bytes -/

/-- The number of bytes that follow each other. Source: `BigInt::fromBuffer`. Kind: L -/
theorem fromBuffer_append (a b : List UInt8) :
    fromBuffer (a ++ b) = fromBuffer a * 256 ^ b.length + fromBuffer b := by
  unfold fromBuffer
  rw [List.reverse_append, List.map_append, Nat.ofDigits_append, List.length_map,
    List.length_reverse]
  ring

/-- The bytes of a number are those of the number. Source: `BigInt::fromBuffer`. Kind: L -/
theorem fromBuffer_digits (x : ℕ) : fromBuffer (digits x) = x := by
  have hmap : ((Nat.digits 256 x).map UInt8.ofNat).map UInt8.toNat = Nat.digits 256 x := by
    rw [List.map_map]
    refine (List.map_congr_left fun d hd => ?_).trans (List.map_id _)
    have hlt : d < 256 := Nat.digits_lt_base (by decide) hd
    exact UInt8.toNat_ofNat_of_lt' hlt
  unfold fromBuffer digits
  rw [List.reverse_reverse, hmap, Nat.ofDigits_digits]

/-- A number below 2^768 has at most 96 bytes. Source: `mpz_export`. Kind: L -/
theorem length_digits_le {x : ℕ} (h : x < 2 ^ 768) : (digits x).length ≤ 96 := by
  unfold digits
  rw [List.length_reverse, List.length_map]
  apply (Nat.digits_length_le_iff (by decide) x).mpr
  rwa [show (256 : ℕ) = 2 ^ 8 from rfl, ← pow_mul]

/-- A number takes all 96 bytes when its highest byte is not zero. Source: `mse/bigint.cpp`,
`mse/functions.cpp`. Kind: L -/
theorem full_iff {x : ℕ} (h : x < 2 ^ 768) : Full x ↔ 2 ^ 760 ≤ x := by
  have hlt := Nat.lt_digits_length_iff (b := 256) (k := 95) (by decide) x
  have hpow : (256 : ℕ) ^ 95 = 2 ^ 760 := by rw [show (256 : ℕ) = 2 ^ 8 from rfl, ← pow_mul]
  have hlen : (digits x).length = (Nat.digits 256 x).length := by
    unfold digits
    rw [List.length_reverse, List.length_map]
  have hle := length_digits_le h
  unfold Full
  rw [hpow] at hlt
  rw [← hlt]
  omega

/-- A field with zeros only reads as zero, and no other does. Source: `BigInt::fromBuffer`.
Kind: L -/
theorem fromBuffer_eq_zero (bs : List UInt8) : fromBuffer bs = 0 ↔ ∀ b ∈ bs, b = 0 := by
  induction bs with
  | nil => simp [fromBuffer]
  | cons b bs ih =>
    have hb : fromBuffer [b] = b.toNat := by simp [fromBuffer]
    have happ := fromBuffer_append [b] bs
    rw [List.singleton_append, hb] at happ
    rw [happ, Nat.add_eq_zero_iff, Nat.mul_eq_zero, ih, List.forall_mem_cons]
    have hpow : (256 : ℕ) ^ bs.length ≠ 0 := pow_ne_zero _ (by decide)
    have hzero : b.toNat = 0 ↔ b = 0 := by
      rw [← UInt8.toNat_inj]
      rfl
    rw [hzero]
    tauto

/-- **A number is read back if and only if it takes the whole field, or it is zero in a field of
zeros.** `tmp` is what the field held before. Source: `BigInt::fromBuffer`. Kind: L -/
theorem fromBuffer_toBuffer_iff {x : ℕ} (h : x < 2 ^ 768) (tmp : Vector UInt8 96) :
    fromBuffer (toBuffer tmp.toList x) = x ↔ 2 ^ 760 ≤ x ∨ (x = 0 ∧ ∀ b ∈ tmp.toList, b = 0) := by
  have hle := length_digits_le h
  have hlen : (tmp.toList.drop (digits x).length).length = 96 - (digits x).length := by
    rw [List.length_drop, Vector.length_toList]
  unfold toBuffer
  rw [fromBuffer_append, fromBuffer_digits, hlen, ← full_iff h]
  unfold Full
  by_cases hfull : (digits x).length = 96
  · rw [hfull, List.drop_eq_nil_of_le (by rw [Vector.length_toList])]
    exact ⟨fun _ => .inl rfl, fun _ => by simp [fromBuffer]⟩
  by_cases hzero : x = 0
  · subst hzero
    have hnil : digits 0 = [] := rfl
    rw [hnil, List.length_nil, List.drop_zero, Nat.zero_mul, Nat.zero_add, fromBuffer_eq_zero]
    exact ⟨fun hz => .inr ⟨rfl, hz⟩, fun hz => hz.elim (fun hf => absurd hf (by decide)) And.right⟩
  · -- what is read is at least 256 times the number
    have hmul : 256 * x ≤ x * 256 ^ (96 - (digits x).length) := by
      rw [Nat.mul_comm]
      exact Nat.mul_le_mul_left x (Nat.le_self_pow (by omega) 256)
    constructor
    · intro heq
      omega
    · rintro (hf | ⟨hz, -⟩)
      · exact absurd hf hfull
      · exact absurd hz hzero

/-! ### The two sides -/

/-- Source: `mse/functions.cpp`, `GeneratePublicPrivateKey`. Kind: D -/
def publicKey (priv : ℕ) : ℕ := 2 ^ priv % P

/-- The prime is below 2^768. Source: `mse/bigint.cpp`, `mse/functions.cpp`. Kind: L -/
theorem P_lt : P < 2 ^ 768 := by decide +kernel

/-- A public key is below 2^768. Source: `mse/functions.cpp`, `GeneratePublicPrivateKey`. Kind: L -/
theorem publicKey_lt (priv : ℕ) : publicKey priv < 2 ^ 768 :=
  (Nat.mod_lt _ (by decide +kernel)).trans P_lt

/-- A secret is below 2^768. Source: `mse/functions.cpp`, `DHSecret`. Kind: L -/
theorem DHSecret_lt (priv pub : ℕ) : DHSecret priv pub < 2 ^ 768 :=
  (Nat.mod_lt _ (by decide +kernel)).trans P_lt

/-- The private keys of the two sides, and what their buffers of 96 bytes held before a number was
written to them: those of the public keys, and those of the secret. Side `A` made the connection.
Kind: D -/
structure Exchange where
  xa : ℕ
  xb : ℕ
  tmpA : Vector UInt8 96
  tmpB : Vector UInt8 96
  stackA : Site → Vector UInt8 96
  stackB : Site → Vector UInt8 96

namespace Exchange

variable (e : Exchange)

/-- The field that side `A` sends. Source: `EncryptedAuthenticate::connected`. Kind: D -/
def fieldA : List UInt8 := toBuffer e.tmpA.toList (publicKey e.xa)

/-- The field that side `B` sends. Source: `EncryptedServerAuthenticate::sendYB`. Kind: D -/
def fieldB : List UInt8 := toBuffer e.tmpB.toList (publicKey e.xb)

/-- Source: `EncryptedAuthenticate::handleYB`. Kind: D -/
def sA : ℕ := DHSecret e.xa (fromBuffer e.fieldB)

/-- Source: `EncryptedServerAuthenticate::handleYA`. Kind: D -/
def sB : ℕ := DHSecret e.xb (fromBuffer e.fieldA)

/-- The 96 bytes side `A` hashes. Kind: D -/
def secretA (site : Site) : List UInt8 := toBuffer (e.stackA site).toList e.sA

/-- The 96 bytes side `B` hashes. Kind: D -/
def secretB (site : Site) : List UInt8 := toBuffer (e.stackB site).toList e.sB

/-- The ciphers of side `A`. Source: `EncryptedAuthenticate::handleYB`. Kind: D -/
def rc4A (skey : SHA1Hash) : RC4Encryptor :=
  .make (EncryptionKey false (e.secretA .keyB) skey) (EncryptionKey true (e.secretA .keyA) skey)

/-- The ciphers of side `B`. Source: `EncryptedServerAuthenticate::processVC`. Kind: D -/
def rc4B (skey : SHA1Hash) : RC4Encryptor :=
  .make (EncryptionKey true (e.secretB .keyA) skey) (EncryptionKey false (e.secretB .keyB) skey)

/-- The two sides hash the same 96 bytes of the same number. Kind: D -/
def SameSecret : Prop := e.sA = e.sB ∧ ∀ site, e.secretA site = e.secretB site

/-- The hashes and ciphers are the same; each side encrypts with what the other decrypts with.
Kind: D -/
def SameKeys : Prop :=
  req1Hash (e.secretA .req1) = req1Hash (e.secretB .req1) ∧
    req3Hash (e.secretA .req3) = req3Hash (e.secretB .req3) ∧
    ∀ skey, (e.rc4A skey).enc = (e.rc4B skey).dec ∧ (e.rc4A skey).dec = (e.rc4B skey).enc

/-- Both public keys take all 96 bytes. Kind: D -/
def FullKeys : Prop := 2 ^ 760 ≤ publicKey e.xa ∧ 2 ^ 760 ≤ publicKey e.xb

/-- The same secret gives the same keys. Source: `mse/bigint.cpp`, `mse/functions.cpp`. Kind: L -/
theorem SameSecret.keys {e : Exchange} (h : e.SameSecret) : e.SameKeys := by
  refine ⟨by rw [h.2], by rw [h.2], ?_⟩
  intro skey
  unfold rc4A rc4B
  rw [h.2, h.2]
  exact ⟨rfl, rfl⟩

/-- **Public keys that take 96 bytes arrive, and the two sides compute the same number.**.
Source: `mse/bigint.cpp`, `mse/functions.cpp`. Kind: L -/
theorem number_eq {e : Exchange} (h : e.FullKeys) : e.sA = e.sB := by
  have ha : fromBuffer e.fieldA = publicKey e.xa :=
    (fromBuffer_toBuffer_iff (publicKey_lt _) _).mpr (.inl h.1)
  have hb : fromBuffer e.fieldB = publicKey e.xb :=
    (fromBuffer_toBuffer_iff (publicKey_lt _) _).mpr (.inl h.2)
  unfold sA sB DHSecret
  rw [ha, hb]
  unfold publicKey
  rw [← Nat.pow_mod, ← Nat.pow_mod, ← pow_mul, ← pow_mul, Nat.mul_comm]

/-- The bytes behind the secret in a buffer. Kind: D -/
def tail (stack : Vector UInt8 96) (s : ℕ) : List UInt8 := stack.toList.drop (digits s).length

/-- With keys of full length, the secrets agree if they are long or what lies behind them does.
Source: `mse/bigint.cpp`, `mse/functions.cpp`. Kind: L -/
theorem sameSecret_iff {e : Exchange} (h : e.FullKeys) :
    e.SameSecret ↔ 2 ^ 760 ≤ e.sA ∨ ∀ site, tail (e.stackA site) e.sA = tail (e.stackB site) e.sA := by
  have heq := number_eq h
  unfold SameSecret secretA secretB toBuffer
  rw [← heq]
  constructor
  · rintro ⟨-, hs⟩
    exact .inr fun site => List.append_cancel_left (hs site)
  · rintro (hfull | hs)
    · refine ⟨rfl, fun site => ?_⟩
      have hlen : (digits e.sA).length = 96 := (full_iff (DHSecret_lt _ _)).mpr hfull
      rw [hlen, List.drop_eq_nil_of_le (by rw [Vector.length_toList]),
        List.drop_eq_nil_of_le (by rw [Vector.length_toList])]
    · exact ⟨rfl, fun site => congrArg _ (hs site)⟩

end Exchange

/-- **When a number comes back, and when the two sides agree.** A number comes back exactly when it
takes all 96 bytes, or is zero in a field of zeros. Where both public keys take 96 bytes, the two
sides hash the same bytes exactly when the secret takes 96 bytes too, or their buffers held the same
bytes behind it; and then hashes and ciphers are the same. Source: `mse/bigint.cpp`,
`mse/functions.cpp`. Kind: P -/
theorem exchange_iff (tmp : Vector UInt8 96) (e : Exchange) :
    (∀ x < 2 ^ 768, fromBuffer (toBuffer tmp.toList x) = x ↔
      2 ^ 760 ≤ x ∨ (x = 0 ∧ ∀ b ∈ tmp.toList, b = 0)) ∧
    (e.FullKeys → (e.SameSecret ↔ 2 ^ 760 ≤ e.sA ∨
      ∀ site, Exchange.tail (e.stackA site) e.sA = Exchange.tail (e.stackB site) e.sA) ∧
      (e.SameSecret → e.SameKeys)) := by
  constructor
  · intro x hx
    exact fromBuffer_toBuffer_iff hx tmp
  · intro h
    exact ⟨Exchange.sameSecret_iff h, Exchange.SameSecret.keys⟩

/-- Buffers that held zeros. Kind: D -/
def blank : Vector UInt8 96 := Vector.replicate 96 0

/-- Two sides with the public keys 2^760 and 2^761. Source: `mse/bigint.cpp`, `mse/functions.cpp`.
Kind: L -/
theorem exchange_powers :
    Exchange.SameKeys ⟨760, 761, blank, blank, fun _ => blank, fun _ => blank⟩ := by
  obtain ⟨hsame, hkeys⟩ := (exchange_iff blank
    ⟨760, 761, blank, blank, fun _ => blank, fun _ => blank⟩).2 ⟨by decide +kernel, by decide +kernel⟩
  exact hkeys (hsame.mpr (.inr fun _ => rfl))

/-- A number of one byte in a field of zeros. Source: `BigInt::fromBuffer`. Kind: L -/
theorem fromBuffer_oneByte {x : ℕ} (h : (digits x).length = 1) :
    fromBuffer (toBuffer blank.toList x) = x * 256 ^ 95 := by
  have htail : blank.toList.drop 1 = List.replicate 95 0 := rfl
  have hzero : fromBuffer (List.replicate 95 0) = 0 :=
    (fromBuffer_eq_zero _).mpr fun b hb => List.eq_of_mem_replicate hb
  unfold toBuffer
  rw [h, htail, fromBuffer_append, fromBuffer_digits, hzero, List.length_replicate, Nat.add_zero]

/-- **The number 1 is not read back, and with the private keys 1 and 2 the two sides compute
different secrets.**. Source: `mse/bigint.cpp`, `mse/functions.cpp`. Kind: P -/
theorem short_keys : fromBuffer (toBuffer blank.toList 1) ≠ 1 ∧
    ¬ Exchange.SameSecret ⟨1, 2, blank, blank, fun _ => blank, fun _ => blank⟩ := by
  constructor
  · rw [fromBuffer_oneByte (by simp [digits])]
    decide +kernel
  · rintro ⟨h, -⟩
    have h1 : publicKey 1 = 2 := by decide +kernel
    have h2 : publicKey 2 = 4 := by decide +kernel
    unfold Exchange.sA Exchange.sB Exchange.fieldA Exchange.fieldB at h
    simp only [h1, h2] at h
    rw [fromBuffer_oneByte (by simp [digits]), fromBuffer_oneByte (by simp [digits])] at h
    revert h
    unfold DHSecret
    decide +kernel

end KTorrent.Mse
