import KTorrent.Mse.RC4
import KTorrent.Util.Endian
import KTorrent.Util.SHA1HashGen
import Mathlib.Data.Nat.Digits.Defs

/-!
# The shared secret and what is made of it

The secret `S` of a handshake is a number below `2^768`. The source writes it to a buffer of 96 bytes
with as few bytes as it takes and leaves the rest of the buffer as it was (`toBuffer`); the protocol
means its 96 bytes, leading zeros included (`secretBytes`). The two agree when the secret takes all
96 (`toBuffer_eq`).

Source: `mse/bigint.cpp`, `mse/functions.cpp`, `util/sha1hash.cpp`
-/

namespace KTorrent.Mse

open KTorrent.Storage KTorrent.Util

/-- The bytes of a number, the highest first. Source: `mpz_export`. Kind: D -/
def digits (s : ℕ) : List UInt8 := ((Nat.digits 256 s).map UInt8.ofNat).reverse

/-- A buffer that held `stack`, after the number was written to its start.
Source: `BigInt::toBuffer`. Kind: D -/
def toBuffer (stack : List UInt8) (s : ℕ) : List UInt8 :=
  digits s ++ (stack.drop (digits s).length)

/-- Source: `BigInt::fromBuffer`. Kind: D -/
def fromBuffer (bs : List UInt8) : ℕ := Nat.ofDigits 256 (bs.reverse.map UInt8.toNat)

/-- The 96 bytes of a secret. Kind: D -/
def secretBytes (s : ℕ) : List UInt8 := List.replicate (96 - (digits s).length) 0 ++ digits s

/-- The secret takes all 96 bytes. Kind: D -/
def Full (s : ℕ) : Prop := (digits s).length = 96

/-- A secret that takes all 96 bytes is written as the protocol means it.
Source: `BigInt::toBuffer`. Kind: L -/
theorem toBuffer_eq {s : ℕ} (h : Full s) {stack : List UInt8} (hstack : stack.length = 96) :
    toBuffer stack s = secretBytes s := by
  unfold Full at h
  unfold toBuffer secretBytes
  rw [h, List.drop_eq_nil_of_le hstack.le, List.append_nil, Nat.sub_self]
  rfl

/-- The prime of the key exchange. Source: `mse/functions.cpp`, `P`. Kind: D -/
def P : ℕ :=
  0xFFFFFFFFFFFFFFFFC90FDAA22168C234C4C6628B80DC1CD129024E088A67CC74020BBEA63B139B22514A08798E3404DDEF9519B3CD3A431B302B0A6DF25F14374FE1356D6D51C245E485B576625E7EC6F44C42E9A63A36210000000000090563

/-- Source: `mse/functions.cpp`, `DHSecret`, and `BigInt::powerMod`. Kind: D -/
def DHSecret (our_priv peer_pub : ℕ) : ℕ := peer_pub ^ our_priv % P

/-- The hash at `buf + off`. Source: `SHA1Hash::SHA1Hash(const Uint8 *)`. Kind: D -/
def hashAt (buf : List UInt8) (off : ℕ) : SHA1Hash := Vector.ofFn fun i => buf.getD (off + i) 0

/-- Reading a hash where it stands. Source: `SHA1Hash::SHA1Hash(const Uint8 *)`. Kind: L -/
theorem hashAt_append (front : List UInt8) (h : SHA1Hash) (rest : List UInt8) :
    hashAt (front ++ h.toList ++ rest) front.length = h := by
  apply Vector.ext
  intro i hi
  have hlen : i < h.toList.length := by simpa using hi
  rw [hashAt, Vector.getElem_ofFn, List.append_assoc, List.getD_append_right _ _ _ _ (by omega),
    Nat.add_sub_cancel_left, List.getD_append _ _ _ _ hlen, List.getD_eq_getElem _ _ hlen]
  exact Vector.getElem_toList hlen

/-- Source: `operator ^ (const SHA1Hash &, const SHA1Hash &)`. Kind: D -/
def xorHash (a b : SHA1Hash) : SHA1Hash := Vector.zipWith (· ^^^ ·) a b

/-- A hash is taken out again. Source: `mse/bigint.cpp`, `mse/functions.cpp`. Kind: L -/
theorem xorHash_xorHash (a b : SHA1Hash) : xorHash (xorHash a b) b = a := by
  apply Vector.ext
  intro i hi
  simp only [xorHash, Vector.getElem_zipWith]
  rw [UInt8.xor_assoc, UInt8.xor_self, UInt8.xor_zero]

/-- `HASH('req1', S)`. Source: `EncryptedServerAuthenticate::findReq1`. Kind: D -/
def req1Hash (secret : List UInt8) : SHA1Hash := generate ([114, 101, 113, 49] ++ secret)

/-- `HASH('req2', SKEY)`. Source: `Server::findInfoHash`. Kind: D -/
def req2Hash (skey : SHA1Hash) : SHA1Hash := generate ([114, 101, 113, 50] ++ skey.toList)

/-- `HASH('req3', S)`. Source: `EncryptedServerAuthenticate::calculateSKey`. Kind: D -/
def req3Hash (secret : List UInt8) : SHA1Hash := generate ([114, 101, 113, 51] ++ secret)

/-- `HASH('keyA', S, SKEY)` or `HASH('keyB', S, SKEY)`. Source: `mse::EncryptionKey`. Kind: D -/
def EncryptionKey (a : Bool) (secret : List UInt8) (skey : SHA1Hash) : SHA1Hash :=
  generate ([107, 101, 121, if a then 65 else 66] ++ secret ++ skey.toList)

/-- The buffers a secret is written to. Kind: D -/
inductive Site
  | req1
  | req3
  | keyA
  | keyB

end KTorrent.Mse
