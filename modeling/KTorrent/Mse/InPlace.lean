import KTorrent.Mse.RC4
import KTorrent.Util.SHA1HashGen

/-!
# Decrypting a buffer in place

A handshake is collected in a buffer and decrypted there bit by bit. A stream `head ++ key(text) ++
tail` is encrypted between its head and its tail; `partly head text raw k` is a buffer that has
received the beginning `raw` of it and in which the first `k` encrypted bytes are decrypted.

* `decryptAt_partly` — decrypting the next bytes where they are leads from one such buffer to the
  next, and moves the key stream along.
* `partly_append` — so does receiving more bytes.

Source: `mse/encryptedauthenticate.cpp`, `mse/encryptedserverauthenticate.cpp`
-/

namespace KTorrent.Mse

open KTorrent.Lib KTorrent.Util

/-- `our_rc4->decrypt(buf + off, len)`; where the buffer has no bytes the key stream moves on all the
same. Kind: D -/
def RC4Encryptor.decryptAt (off len : ℕ) (buf : List UInt8) (e : RC4Encryptor) :
    List UInt8 × RC4Encryptor :=
  (overwrite buf off (e.dec.process ((buf.drop off).take len)),
    { e with dec := e.dec.advance len })

/-- A buffer with `k` encrypted bytes decrypted. Kind: D -/
def partly (head text raw : List UInt8) (k : ℕ) : List UInt8 :=
  head ++ text.take k ++ raw.drop (head.length + k)

/-- A beginning of a stream with an encrypted part. Kind: D -/
def Begins (head text tail : List UInt8) (key : RC4) (raw : List UInt8) : Prop :=
  raw <+: head ++ key.process text ++ tail

variable {head text tail raw : List UInt8} {key : RC4} {k : ℕ}

/-- Decrypting in place keeps the length. Source: `mse/encryptedauthenticate.cpp`,
`mse/encryptedserverauthenticate.cpp`. Kind: L -/
theorem length_partly (hk : k ≤ text.length) (hlen : head.length + k ≤ raw.length) :
    (partly head text raw k).length = raw.length := by
  simp only [partly, List.length_append, List.length_take, List.length_drop]
  omega

/-- The bytes that are not decrypted yet. Source: `mse/encryptedauthenticate.cpp`,
`mse/encryptedserverauthenticate.cpp`. Kind: L -/
theorem drop_partly (hk : k ≤ text.length) :
    (partly head text raw k).drop (head.length + k) = raw.drop (head.length + k) := by
  unfold partly
  refine List.drop_left' ?_
  rw [List.length_append, List.length_take, min_eq_left hk]

/-- More bytes are received. Source: none: infrastructure. Kind: L -/
theorem partly_append (more : List UInt8) (hlen : head.length + k ≤ raw.length) :
    partly head text raw k ++ more = partly head text (raw ++ more) k := by
  unfold partly
  rw [List.append_assoc, List.drop_append_of_le_length hlen]

/-- Nothing is decrypted yet. Source: `mse/encryptedauthenticate.cpp`,
`mse/encryptedserverauthenticate.cpp`. Kind: L -/
theorem partly_zero (h : Begins head text tail key raw) (hlen : head.length ≤ raw.length) :
    partly head text raw 0 = raw := by
  obtain ⟨rest, hrest⟩ := h
  have htake : raw.take head.length = head := by
    have hfront := congrArg (List.take head.length) hrest
    rwa [List.take_append_of_le_length hlen, List.append_assoc, List.take_left] at hfront
  unfold partly
  rw [List.take_zero, List.append_nil, Nat.add_zero]
  nth_rewrite 1 [← htake]
  exact List.take_append_drop _ _

/-- The encrypted bytes of the beginning. Source: `mse/encryptedauthenticate.cpp`,
`mse/encryptedserverauthenticate.cpp`. Kind: L -/
theorem take_drop_begins (h : Begins head text tail key raw) {len : ℕ}
    (hk : k + len ≤ text.length) (hlen : head.length + (k + len) ≤ raw.length) :
    (raw.drop (head.length + k)).take len = (key.advance k).process ((text.drop k).take len) := by
  obtain ⟨rest, hrest⟩ := h
  have hdrop := congrArg (fun l => (List.drop (head.length + k) l).take len) hrest
  rw [List.drop_append_of_le_length (by omega), List.take_append_of_le_length (by
    rw [List.length_drop]; omega)] at hdrop
  have hcipher : (key.process text).drop k = (key.advance k).process (text.drop k) :=
    drop_cipher RC4.next _ key text (by omega)
  rw [hdrop, List.append_assoc, List.drop_length_add_append, List.drop_append_of_le_length (by
    rw [RC4.length_process]; omega), hcipher, List.take_append_of_le_length (by
    rw [RC4.length_process, List.length_drop]; omega)]
  exact take_cipher RC4.next _ _ _ _

/-- **Decrypting the next bytes where they are.**. Source: `mse/encryptedauthenticate.cpp`,
`mse/encryptedserverauthenticate.cpp`. Kind: P -/
theorem decryptAt_partly (h : Begins head text tail key raw) {len : ℕ}
    (hk : k + len ≤ text.length) (hlen : head.length + (k + len) ≤ raw.length) (enc : RC4) :
    RC4Encryptor.decryptAt (head.length + k) len (partly head text raw k) ⟨enc, key.advance k⟩ =
      (partly head text raw (k + len), ⟨enc, key.advance (k + len)⟩) := by
  have htext : ((text.drop k).take len).length = len := by
    rw [List.length_take, List.length_drop]
    omega
  have hfront : (head ++ text.take k).length = head.length + k := by
    rw [List.length_append, List.length_take, min_eq_left (by omega)]
  unfold RC4Encryptor.decryptAt
  rw [drop_partly (by omega), take_drop_begins h hk hlen]
  dsimp only
  rw [RC4.process_process, RC4.advance_add]
  refine Prod.ext ?_ rfl
  dsimp only
  unfold overwrite
  rw [htext, ← List.drop_drop, drop_partly (by omega), List.drop_drop]
  unfold partly
  rw [List.take_left' hfront, List.take_add, Nat.add_assoc, List.append_assoc head]

/-! ### Collecting a stream in a buffer of `M` bytes -/

section Collecting

variable {B d more : List UInt8} {M n : ℕ}

/-- More bytes in the buffer, and those left in the socket. Source: `mse/encryptedauthenticate.cpp`,
`mse/encryptedserverauthenticate.cpp`. Kind: L -/
theorem take_arrived (hn : n ≤ M) (hd : B.drop n = d ++ more) :
    B.take (min n M) ++ d.take (min d.length (M - n)) = B.take (min (n + d.length) M) ∧
      d.drop (min d.length (M - n)) = (B.take (n + d.length)).drop (min (n + d.length) M) := by
  have hmin : min (n + d.length) M = n + min d.length (M - n) := by omega
  have hlast : (B.take n ++ d).drop n = d := by
    by_cases hlen : n ≤ B.length
    · exact List.drop_left' (by rw [List.length_take, min_eq_left hlen])
    · rw [List.drop_eq_nil_of_le (by omega)] at hd
      obtain ⟨rfl, -⟩ := List.append_eq_nil_iff.mp hd.symm
      rw [List.append_nil, List.drop_eq_nil_of_le (by rw [List.length_take]; omega)]
  rw [hmin, min_eq_left hn, List.take_add, List.take_add, hd, List.take_left]
  refine ⟨?_, ?_⟩
  · rw [List.take_append_of_le_length (by omega)]
  · rw [← List.drop_drop, hlast]

/-- What is in the buffer from `off` on, and what is left behind it. Source: none: infrastructure.
Kind: L -/
theorem drop_take_append {off m : ℕ} (hoff : off ≤ m) (hle : m ≤ n) :
    (B.take m).drop off ++ (B.take n).drop m = (B.take n).drop off := by
  rw [← min_eq_left hle, ← List.take_take, List.drop_take, min_eq_left hle]
  have hdrop : (B.take n).drop m = ((B.take n).drop off).drop (m - off) := by
    rw [List.drop_drop, Nat.add_sub_cancel' hoff]
  rw [hdrop, List.take_append_drop]

end Collecting

end KTorrent.Mse
