import KTorrent.Mse.EncryptedServerAuthenticate
import KTorrent.Mse.PlainHandshake
import Mathlib.Data.Nat.Digits.Lemmas

/-!
# A valid handshake in pieces

What the side that was contacted makes of a valid handshake that arrives in any number of pieces.

* `ClientStream` — the bytes of the side that made the connection, as the protocol lays them out.
* `Served` — the outcome the protocol means: the torrent is found, one reply is sent, and the plain
  handshake reads the initial payload with all that follows it, decrypted once.
* `waitingYA` … `waitingIA` — the states the authentication passes through, each given outright by
  the number of bytes that have arrived; one lemma for each handler says which of them it leads to.
* `served_run` — the outcome is reached for every split whose pieces satisfy `Whole`: no piece ends
  where a handler takes its bytes before it has all it needs, or where the plain handshake is left
  with reinserted bytes that it will mix with received ones.
* `split_lost` — a split for which nothing is ever answered.

Source: `mse/encryptedserverauthenticate.cpp`
-/

namespace KTorrent.Mse

open KTorrent.Lib KTorrent.Util KTorrent.Storage
open StreamSocket (arrive)

/-! ### What the other side sends -/

/-- The parts of what the side that makes the connection sends. Kind: D -/
structure ClientStream where
  ya : List UInt8
  padA : List UInt8
  skey : SHA1Hash
  provide : ℕ
  padC : List UInt8
  ia : List UInt8
  /-- What follows the handshake. -/
  rest : List UInt8
  length_ya : ya.length = 96
  length_padA : padA.length ≤ 512
  provide_lt : provide < 2 ^ 32
  length_padC : padC.length ≤ 512
  length_ia : ia.length < 2 ^ 16

namespace ClientStream

variable (xb : ℕ) (c : ClientStream)

/-- The secret, for the private key of the side that was contacted. Kind: D -/
def number : ℕ := DHSecret xb (fromBuffer c.ya)

/-- The secret as it is hashed. Kind: D -/
def secret : List UInt8 := secretBytes (c.number xb)

/-- The key stream of the side that made the connection, past the first 1024 bytes. Kind: D -/
def keyA : RC4 := (RC4.make (EncryptionKey true (c.secret xb) c.skey).toList).advance 1024

/-- The key stream of the side that was contacted. Kind: D -/
def keyB : RC4 := (RC4.make (EncryptionKey false (c.secret xb) c.skey).toList).advance 1024

/-- Where `HASH('req1', S)` stands. Kind: D -/
def start : ℕ := 96 + c.padA.length

/-- What is sent before the encrypted part. Kind: D -/
def head : List UInt8 :=
  c.ya ++ c.padA ++ (req1Hash (c.secret xb)).toList ++
    (xorHash (req2Hash c.skey) (req3Hash (c.secret xb))).toList

/-- The constant, the methods offered, and pad C with its length. Kind: D -/
def offer : List UInt8 := zeros 8 ++ uint32Bytes c.provide ++ uint16Bytes c.padC.length

/-- What is encrypted of the handshake. Kind: D -/
def message : List UInt8 := c.offer ++ (c.padC ++ uint16Bytes c.ia.length) ++ c.ia

/-- The stream: with RC4 offered, the side that was contacted selects it, and what follows the
handshake is encrypted as well. Kind: D -/
def bytes : List UInt8 :=
  c.head xb ++
    if c.provide &&& 2 ≠ 0 then (c.keyA xb).process (c.message ++ c.rest)
    else (c.keyA xb).process c.message ++ c.rest

/-- Where the handshake ends. Kind: D -/
def total : ℕ := c.start + 56 + c.padC.length + c.ia.length

/-- What stands before the hash that names the torrent. Kind: D -/
def front : List UInt8 := c.ya ++ c.padA ++ (req1Hash (c.secret xb)).toList

/-- What is sent before the encrypted part. Source: `mse/encryptedserverauthenticate.cpp`.
Kind: L -/
theorem head_eq : c.head xb =
    c.front xb ++ (xorHash (req2Hash c.skey) (req3Hash (c.secret xb))).toList := rfl

/-- The key, pad A and the first hash. Source: `mse/encryptedserverauthenticate.cpp`. Kind: L -/
theorem length_front : (c.front xb).length = c.start + 20 := by
  simp only [front, List.length_append, c.length_ya, Vector.length_toList, start]

/-- The second hash is 20 bytes more. Source: `mse/encryptedserverauthenticate.cpp`. Kind: L -/
theorem length_head : (c.head xb).length = c.start + 40 := by
  simp only [head, List.length_append, c.length_ya, Vector.length_toList, start]

/-- The verification constant, the method and the length of pad C.
Source: `mse/encryptedserverauthenticate.cpp`. Kind: L -/
theorem length_offer : c.offer.length = 14 := by
  simp only [offer, List.length_append, length_zeros, length_uint32Bytes, length_uint16Bytes]

/-- The encrypted part without the offer. Source: `mse/encryptedserverauthenticate.cpp`. Kind: L -/
theorem length_message : c.message.length = 16 + c.padC.length + c.ia.length := by
  simp only [message, List.length_append, length_offer, length_uint16Bytes]
  omega

end ClientStream

namespace EncryptedServerAuthenticate

/-- The only reply of the handshake: RC4 is selected. Kind: D -/
def reply (env : Env) (c : ClientStream) : List UInt8 := (c.keyB env.xb).process (select 2)

/-- **The outcome of a handshake**: the torrent is found, Yb and one reply were sent, and the plain
handshake has come to what it comes to with the initial payload and what follows it: these are the
bytes it has read and has still to read, decrypted once. Kind: D -/
structure Served (env : Env) (c : ClientStream) (a : EncryptedServerAuthenticate) : Prop where
  info_hash : a.info_hash = c.skey
  sent : a.sent = [env.yb, reply env c]
  took : a.base.Took env.handshakeRecieved (c.ia ++ c.rest) []

/-- What the stream has to be for the code to follow the handshake: the secret takes all its bytes,
RC4 is offered, there is an initial payload and it fits into the buffer, and `HASH('req1', S)` does
not stand in the stream before its place. Kind: D -/
structure Followed (env : Env) (c : ClientStream) : Prop where
  known : env.server.findInfoHash (req2Hash c.skey) = some c.skey
  full : Full (c.number env.xb)
  rc4 : c.provide &&& 2 ≠ 0
  payload : 0 < c.ia.length
  fits : c.total ≤ MAX_SEA_BUF_SIZE
  first : ∀ i, 96 ≤ i → i < c.start →
    ((c.bytes env.xb).drop i).take 20 ≠ (req1Hash (c.secret env.xb)).toList

/-- **A piece that does not end at a bad place**, when `n` bytes have arrived before it: it is not
taken for a plain handshake; it does not end after byte 608 with `HASH('req1', S)` incomplete or
just complete; the one that brings the constant brings pad C, the one that brings pad C the
initial payload, unless it leaves out enough of it to be noticed; and the one that completes the
payload brings the 48 bytes of it and of what follows that the plain handshake waits for, unless
there are fewer in all. Kind: D -/
structure Whole (env : Env) (c : ClientStream) (n : ℕ) (d : List UInt8) : Prop where
  ya : n < 96 → env.server.allow_unencrypted = true → 68 < d.length
  req1 : 608 < n + d.length → c.start + 20 < n + d.length
  padC : n < c.start + 54 → c.start + 54 ≤ n + d.length →
    c.start + 14 + c.padC.length ≤ n + d.length → c.start + 56 + c.padC.length ≤ n + d.length
  payload : n < c.start + 56 + c.padC.length → c.start + 56 + c.padC.length ≤ n + d.length →
    c.start + 54 + c.ia.length ≤ n + d.length → c.total ≤ n + d.length
  handshake : n < c.total → c.total ≤ n + d.length → 48 ≤ c.ia.length + c.rest.length →
    c.start + 104 + c.padC.length ≤ n + d.length

/-! ### The states of the authentication -/

section States

variable (env : Env) (c : ClientStream)

/-- What the encrypted part decrypts to, with what follows the handshake. Kind: D -/
def plainText : List UInt8 := c.message ++ c.rest

/-- The buffer after `n` bytes have arrived and `k` of the encrypted ones have been decrypted.
Kind: D -/
def collected (k n : ℕ) : List UInt8 :=
  partly (c.head env.xb) (plainText c) ((c.bytes env.xb).take (min n MAX_SEA_BUF_SIZE)) k

/-- The encryptor after `k` bytes decrypted and `j` encrypted. Kind: D -/
def rc4At (k j : ℕ) : RC4Encryptor := ⟨(c.keyB env.xb).advance j, (c.keyA env.xb).advance k⟩

/-- `n` bytes have arrived, and Ya is not complete. Kind: D -/
def waitingYA (n : ℕ) : EncryptedServerAuthenticate where
  base := .fresh (((c.bytes env.xb).take n).drop (min n MAX_SEA_BUF_SIZE))
  buf := (c.bytes env.xb).take (min n MAX_SEA_BUF_SIZE)

/-- Ya is complete, and `HASH('req1', S)` is not. Kind: D -/
def waitingReq1 (n : ℕ) : EncryptedServerAuthenticate where
  __ := waitingYA env c n
  state := .waitingForReq1
  ya := fromBuffer c.ya
  s := c.number env.xb
  sent := [env.yb]

/-- `HASH('req1', S)` was found, and the hash after it is not complete. Kind: D -/
def waitingSKey (n : ℕ) : EncryptedServerAuthenticate where
  __ := waitingReq1 env c n
  state := .foundReq1
  req1_off := c.start

/-- The torrent was found, and the offer is not complete. Kind: D -/
def waitingVC (n : ℕ) : EncryptedServerAuthenticate where
  __ := waitingSKey env c n
  state := .foundInfoHash
  info_hash := c.skey
  our_rc4 := some (rc4At env c 0 0)

/-- The reply was sent, and pad C and the length after it are not complete. Kind: D -/
def waitingPadC (n : ℕ) : EncryptedServerAuthenticate where
  __ := waitingVC env c n
  state := .waitForPadC
  buf := collected env c 14 n
  our_rc4 := some (rc4At env c 14 14)
  crypto_provide := c.provide
  crypto_select := 2
  pad_C_len := c.padC.length
  sent := [env.yb, reply env c]

/-- The initial payload is not complete. Kind: D -/
def waitingIA (n : ℕ) : EncryptedServerAuthenticate where
  __ := waitingPadC env c n
  state := .waitForIA
  buf := collected env c (16 + c.padC.length) n
  our_rc4 := some (rc4At env c (16 + c.padC.length) 14)
  ia_len := c.ia.length

/-- The socket was handed on after the handshake, and the plain handshake reads the initial payload
and what has arrived after it. Kind: D -/
structure Handed (n : ℕ) (a : EncryptedServerAuthenticate) : Prop where
  state : a.state = .nonEncryptedHandshake
  info_hash : a.info_hash = c.skey
  sent : a.sent = [env.yb, reply env c]
  kept : a.base.Kept env.handshakeRecieved (c.ia ++ c.rest) ((c.bytes env.xb).drop n)

/-- What the authentication has come to when `n` bytes have arrived. Kind: D -/
def After (n : ℕ) (a : EncryptedServerAuthenticate) : Prop :=
  if n < 96 then a = waitingYA env c n
  else if n < c.start + 21 then a = waitingReq1 env c n
  else if n < c.start + 40 then a = waitingSKey env c n
  else if n < c.start + 54 then a = waitingVC env c n
  else if n < c.start + 56 + c.padC.length then a = waitingPadC env c n
  else if n < c.total then a = waitingIA env c n
  else Handed env c n a

end States

/-! ### The buffer -/

section Buffer

variable {env : Env} {c : ClientStream} (hc : Followed env c)

include hc

/-- All bytes: the head, and what the client's key stream hides.
Source: `mse/encryptedserverauthenticate.cpp`. Kind: L -/
theorem Followed.bytes_eq : c.bytes env.xb = c.head env.xb ++ (c.keyA env.xb).process (plainText c) := by
  unfold ClientStream.bytes
  rw [if_pos hc.rc4]
  rfl

/-- How many they are. Source: `mse/encryptedserverauthenticate.cpp`. Kind: L -/
theorem Followed.length_bytes :
    (c.bytes env.xb).length = c.start + 40 + (plainText c).length := by
  rw [hc.bytes_eq, List.length_append, c.length_head, RC4.length_process]

/-- The bytes from the `k`-th encrypted one on. Source: `mse/encryptedserverauthenticate.cpp`.
Kind: L -/
theorem Followed.drop_bytes {k : ℕ} (hk : k ≤ (plainText c).length) :
    (c.bytes env.xb).drop (c.start + 40 + k) =
      ((c.keyA env.xb).advance k).process ((plainText c).drop k) := by
  rw [hc.bytes_eq, ← c.length_head env.xb, List.drop_length_add_append]
  exact drop_cipher RC4.next _ _ _ hk

/-- Any front of the bytes begins what the client sends.
Source: `mse/encryptedserverauthenticate.cpp`. Kind: L -/
theorem Followed.begins (m : ℕ) :
    Begins (c.head env.xb) (plainText c) [] (c.keyA env.xb) ((c.bytes env.xb).take m) := by
  unfold Begins
  rw [List.append_nil, ← hc.bytes_eq]
  exact List.take_prefix _ _

/-- What the buffer has collected of the bytes taken off the socket.
Source: `mse/encryptedserverauthenticate.cpp`. Kind: L -/
theorem Followed.length_collected {k n : ℕ} (hn : n ≤ (c.bytes env.xb).length)
    (hk : c.start + 40 + k ≤ min n MAX_SEA_BUF_SIZE) :
    (collected env c k n).length = min n MAX_SEA_BUF_SIZE := by
  have hlen := hc.length_bytes
  have hraw : ((c.bytes env.xb).take (min n MAX_SEA_BUF_SIZE)).length = min n MAX_SEA_BUF_SIZE := by
    rw [List.length_take]
    omega
  unfold collected
  rw [length_partly (by omega) (by rw [hraw, c.length_head]; exact hk), hraw]

/-- Nothing is decrypted yet. Source: `mse/encryptedserverauthenticate.cpp`. Kind: L -/
theorem Followed.collected_zero {n : ℕ} (hlen : n ≤ (c.bytes env.xb).length)
    (hn : c.start + 40 ≤ min n MAX_SEA_BUF_SIZE) :
    collected env c 0 n = (c.bytes env.xb).take (min n MAX_SEA_BUF_SIZE) := by
  refine partly_zero (hc.begins _) ?_
  rw [List.length_take, c.length_head]
  omega

/-- **Decrypting the next bytes where they are.**. Source: `mse/encryptedserverauthenticate.cpp`.
Kind: L -/
theorem Followed.decryptAt_collected {n : ℕ} (k len j : ℕ) (hn : n ≤ (c.bytes env.xb).length)
    (hk : c.start + 40 + (k + len) ≤ min n MAX_SEA_BUF_SIZE) :
    (rc4At env c k j).decryptAt (c.start + 40 + k) len (collected env c k n) =
      (collected env c (k + len) n, rc4At env c (k + len) j) := by
  have hlen := hc.length_bytes
  have hdec := decryptAt_partly (k := k) (hc.begins (min n MAX_SEA_BUF_SIZE))
    (by omega : k + len ≤ (plainText c).length) (by
      rw [List.length_take, c.length_head]
      omega) ((c.keyB env.xb).advance j)
  rw [c.length_head] at hdec
  exact hdec

omit hc in
/-- More bytes in a buffer that is decrypted in part. Source: `mse/encryptedserverauthenticate.cpp`.
Kind: L -/
theorem collected_arrived {k n : ℕ} {d more : List UInt8} (hn : n ≤ MAX_SEA_BUF_SIZE)
    (hk : c.start + 40 + k ≤ n) (hlen : n ≤ (c.bytes env.xb).length)
    (hd : (c.bytes env.xb).drop n = d ++ more) :
    collected env c k n ++ d.take (min d.length (MAX_SEA_BUF_SIZE - n)) =
      collected env c k (n + d.length) := by
  unfold collected
  rw [partly_append _ (by rw [List.length_take, c.length_head]; omega), (take_arrived hn hd).1]

omit hc in
/-- The bytes of the buffer that are not decrypted yet.
Source: `mse/encryptedserverauthenticate.cpp`. Kind: L -/
theorem drop_collected {k n : ℕ} (hk : k ≤ (plainText c).length) :
    (collected env c k n).drop (c.start + 40 + k) =
      ((c.bytes env.xb).take (min n MAX_SEA_BUF_SIZE)).drop (c.start + 40 + k) := by
  unfold collected
  rw [← c.length_head env.xb]
  exact drop_partly hk

/-- `HASH('req1', S)` in its place. Source: `mse/encryptedserverauthenticate.cpp`. Kind: L -/
theorem Followed.drop_start :
    ((c.bytes env.xb).drop c.start).take 20 = (req1Hash (c.secret env.xb)).toList := by
  have hlen : (c.ya ++ c.padA).length = c.start := by
    rw [List.length_append, c.length_ya]
    rfl
  rw [hc.bytes_eq, c.head_eq]
  unfold ClientStream.front
  rw [List.append_assoc, List.append_assoc, List.drop_left' hlen, List.take_left' Vector.length_toList]

/-! #### The fields in it -/

omit hc in
/-- The first 14 bytes of the encrypted part. Source: `mse/encryptedserverauthenticate.cpp`.
Kind: L -/
theorem take_offer : (plainText c).take 14 = c.offer := by
  unfold plainText ClientStream.message
  rw [List.append_assoc, List.append_assoc, List.take_left' c.length_offer]

omit hc in
/-- Those up to the length of the first payload. Source: `mse/encryptedserverauthenticate.cpp`.
Kind: L -/
theorem take_padC : (plainText c).take (16 + c.padC.length) =
    c.offer ++ (c.padC ++ uint16Bytes c.ia.length) := by
  unfold plainText ClientStream.message
  rw [List.append_assoc]
  refine List.take_left' ?_
  simp only [List.length_append, c.length_offer, length_uint16Bytes]
  omega

omit hc in
/-- The constant is where it is looked for. Source: `mse/encryptedserverauthenticate.cpp`.
Kind: L -/
theorem constant_collected (n : ℕ) :
    ((collected env c 14 n).drop (c.start + 40)).take 8 = zeros 8 := by
  unfold collected partly
  rw [take_offer, List.append_assoc, ← c.length_head env.xb, List.drop_left]
  unfold ClientStream.offer
  rw [List.append_assoc, List.append_assoc, List.take_left' (length_zeros 8)]

omit hc in
/-- The methods offered are read. Source: `mse/encryptedserverauthenticate.cpp`. Kind: L -/
theorem provide_collected (n : ℕ) :
    readUint32 (collected env c 14 n) (c.start + 40 + 8) = c.provide := by
  have hfront : (c.head env.xb ++ zeros 8).length = c.start + 40 + 8 := by
    rw [List.length_append, c.length_head, length_zeros]
  have hread := readUint32_append (c.head env.xb ++ zeros 8) c.provide
    (uint16Bytes c.padC.length ++
      ((c.bytes env.xb).take (min n MAX_SEA_BUF_SIZE)).drop ((c.head env.xb).length + 14))
  rw [hfront, u32_of_lt c.provide_lt] at hread
  rw [← hread]
  unfold collected partly
  rw [take_offer]
  unfold ClientStream.offer
  simp only [List.append_assoc]

omit hc in
/-- The length of pad C is read. Source: `mse/encryptedserverauthenticate.cpp`. Kind: L -/
theorem padC_collected (n : ℕ) :
    readUint16 (collected env c 14 n) (c.start + 40 + 12) = c.padC.length := by
  have hfront : (c.head env.xb ++ zeros 8 ++ uint32Bytes c.provide).length = c.start + 40 + 12 := by
    rw [List.length_append, List.length_append, c.length_head, length_zeros, length_uint32Bytes]
  have hread := readUint16_append (c.head env.xb ++ zeros 8 ++ uint32Bytes c.provide)
    (c.length_padC.trans_lt (by decide))
    (((c.bytes env.xb).take (min n MAX_SEA_BUF_SIZE)).drop ((c.head env.xb).length + 14))
  rw [hfront] at hread
  rw [← hread]
  unfold collected partly
  rw [take_offer]
  unfold ClientStream.offer
  simp only [List.append_assoc]

omit hc in
/-- The length of the initial payload is read. Source: `mse/encryptedserverauthenticate.cpp`.
Kind: L -/
theorem ia_collected (n : ℕ) :
    readUint16 (collected env c (16 + c.padC.length) n) (c.start + 54 + c.padC.length) =
      c.ia.length := by
  have hfront : (c.head env.xb ++ c.offer ++ c.padC).length = c.start + 54 + c.padC.length := by
    rw [List.length_append, List.length_append, c.length_head, c.length_offer]
  have hread := readUint16_append (c.head env.xb ++ c.offer ++ c.padC) c.length_ia
    (((c.bytes env.xb).take (min n MAX_SEA_BUF_SIZE)).drop
      ((c.head env.xb).length + (16 + c.padC.length)))
  rw [hfront] at hread
  rw [← hread]
  unfold collected partly
  rw [take_padC]
  simp only [List.append_assoc]

end Buffer

/-! ### What the handlers do -/

section After

variable {env : Env} {c : ClientStream} {n : ℕ}

/-- All bytes have arrived: the handshake has been handed on.
Source: `mse/encryptedserverauthenticate.cpp`. Kind: L -/
theorem after_handed {a : EncryptedServerAuthenticate} (h : c.total ≤ n) (ha : Handed env c n a) :
    After env c n a := by
  unfold ClientStream.total at h
  unfold After
  rw [if_neg (by unfold ClientStream.start at h; omega), if_neg (by omega), if_neg (by omega),
    if_neg (by omega), if_neg (by omega), if_neg (by unfold ClientStream.total; omega)]
  exact ha

/-- When all bytes have arrived there is no other state.
Source: `mse/encryptedserverauthenticate.cpp`. Kind: L -/
theorem handed_of_after {a : EncryptedServerAuthenticate} (h : c.total ≤ n)
    (ha : After env c n a) : Handed env c n a := by
  unfold ClientStream.total at h
  unfold After at ha
  rwa [if_neg (by unfold ClientStream.start at h; omega), if_neg (by omega), if_neg (by omega),
    if_neg (by omega), if_neg (by omega), if_neg (by unfold ClientStream.total; omega)] at ha

/-- When the length of the payload has arrived, but not all of it, it is waited for.
Source: `mse/encryptedserverauthenticate.cpp`. Kind: L -/
theorem after_waitingIA (h : c.start + 56 + c.padC.length ≤ n) (hlt : n < c.total) :
    After env c n (waitingIA env c n) := by
  unfold After
  rw [if_neg (by unfold ClientStream.start at h; omega), if_neg (by omega), if_neg (by omega),
    if_neg (by omega), if_neg (by omega), if_pos hlt]

/-- When the offer has arrived, pad C and the length of the payload are waited for.
Source: `mse/encryptedserverauthenticate.cpp`. Kind: L -/
theorem after_waitingPadC (h : c.start + 54 ≤ n) (hlt : n < c.start + 56 + c.padC.length) :
    After env c n (waitingPadC env c n) := by
  unfold After
  rw [if_neg (by unfold ClientStream.start at h; omega), if_neg (by omega), if_neg (by omega),
    if_neg (by omega), if_pos hlt]

/-- When both hashes have arrived, the offer is waited for.
Source: `mse/encryptedserverauthenticate.cpp`. Kind: L -/
theorem after_waitingVC (h : c.start + 40 ≤ n) (hlt : n < c.start + 54) :
    After env c n (waitingVC env c n) := by
  unfold After
  rw [if_neg (by unfold ClientStream.start at h; omega), if_neg (by omega), if_neg (by omega),
    if_pos hlt]

/-- When the first hash has arrived, the second is waited for.
Source: `mse/encryptedserverauthenticate.cpp`. Kind: L -/
theorem after_waitingSKey (h : c.start + 21 ≤ n) (hlt : n < c.start + 40) :
    After env c n (waitingSKey env c n) := by
  unfold After
  rw [if_neg (by unfold ClientStream.start at h; omega), if_neg (by omega), if_pos hlt]

/-- When the client's key has arrived, the first hash is waited for.
Source: `mse/encryptedserverauthenticate.cpp`. Kind: L -/
theorem after_waitingReq1 (h : 96 ≤ n) (hlt : n < c.start + 21) :
    After env c n (waitingReq1 env c n) := by
  unfold After
  rw [if_neg (by omega), if_pos hlt]

/-- At first the client's key is waited for. Source: `mse/encryptedserverauthenticate.cpp`.
Kind: L -/
theorem after_waitingYA (hlt : n < 96) : After env c n (waitingYA env c n) := by
  unfold After
  rw [if_pos hlt]

end After

section Handlers

variable {env : Env} {c : ClientStream} (hc : Followed env c) {n : ℕ}
  (hn : n ≤ (c.bytes env.xb).length)

/-- `handleIA` with the initial payload complete and RC4 selected.
Source: `EncryptedServerAuthenticate::handleIA`. Kind: L -/
theorem handleIA_complete {a : EncryptedServerAuthenticate}
    (hbuf : a.req1_off + 54 + a.pad_C_len + 2 + a.ia_len ≤ a.buf.length) (hia : a.ia_len > 0)
    (hselect : a.crypto_select = 2) :
    handleIA env a = switchToPlain env
      { a.onSock (fun s => { s.reinsert (a.buf.drop (a.req1_off + 54 + a.pad_C_len + 2)) with
          enc := a.our_rc4 }) with our_rc4 := none } := by
  have hrc4 : a.crypto_select &&& 2 ≠ 0 := by
    rw [hselect]
    decide
  unfold handleIA
  rw [if_neg (not_lt.mpr hbuf)]
  simp only [if_pos hia]
  refine (if_pos hrc4).trans ?_
  unfold onSock
  dsimp only
  rw [Option.map_map]
  rfl

include hc hn

omit hn in
/-- The encrypted bytes from the initial payload on.
Source: `RC4::process(const Uint8 *, Uint8 *, Uint32)`. Kind: L -/
theorem Followed.process_payload :
    ((c.keyA env.xb).advance (16 + c.padC.length)).process
      ((c.bytes env.xb).drop (c.start + 56 + c.padC.length)) = c.ia ++ c.rest := by
  have htext : (c.offer ++ (c.padC ++ uint16Bytes c.ia.length)).length = 16 + c.padC.length := by
    simp only [List.length_append, c.length_offer, length_uint16Bytes]
    omega
  have hle : 16 + c.padC.length ≤ (plainText c).length := by
    rw [plainText, List.length_append, c.length_message]
    omega
  have hoff : c.start + 56 + c.padC.length = c.start + 40 + (16 + c.padC.length) := by omega
  rw [hoff, hc.drop_bytes hle, RC4.process_process]
  unfold plainText ClientStream.message
  rw [List.append_assoc, List.drop_left' htext]

/-- The initial payload is complete. Source: `EncryptedServerAuthenticate::handleIA`. Kind: L -/
theorem handleIA_spec (hv : AuthenticateBase.Decisive env.handshakeRecieved) (htotal : c.total ≤ n)
    (hopen : 48 ≤ c.ia.length + c.rest.length → c.start + 104 + c.padC.length ≤ n) (state : State) :
    Handed env c n (handleIA env { waitingIA env c n with state := state }) := by
  have hM : MAX_SEA_BUF_SIZE = 1244 := rfl
  have hpadA := c.length_padA
  have hpadC := c.length_padC
  have hstart : c.start = 96 + c.padA.length := rfl
  have hfits := hc.fits
  unfold ClientStream.total at htotal hfits
  have hlen : (collected env c (16 + c.padC.length) n).length = min n MAX_SEA_BUF_SIZE :=
    hc.length_collected hn (by omega)
  have htext : 16 + c.padC.length ≤ (plainText c).length := by
    rw [plainText, List.length_append, c.length_message]
    omega
  have hoff : c.start + 54 + c.padC.length + 2 = c.start + 40 + (16 + c.padC.length) := by omega
  have hoff' : c.start + 56 + c.padC.length = c.start + 40 + (16 + c.padC.length) := by omega
  rw [handleIA_complete (a := { waitingIA env c n with state := state }) ?_ hc.payload rfl]
  · obtain ⟨s, hs⟩ : ∃ s : StreamSocket, s =
        ⟨some (rc4At env c (16 + c.padC.length) 14),
          some ⟨(collected env c (16 + c.padC.length) n).drop (c.start + 54 + c.padC.length + 2), 0,
            Nat.zero_le _⟩, ((c.bytes env.xb).take n).drop (min n MAX_SEA_BUF_SIZE)⟩ := ⟨_, rfl⟩
    have hback : s.back = (collected env c (16 + c.padC.length) n).drop
        (c.start + 54 + c.padC.length + 2) := by
      rw [hs]
      rfl
    have hsock : s.sock = ((c.bytes env.xb).take n).drop (min n MAX_SEA_BUF_SIZE) := by rw [hs]
    have hraw : s.raw = ((c.bytes env.xb).take n).drop (c.start + 56 + c.padC.length) := by
      rw [StreamSocket.raw, hback, hsock, hoff, hoff', drop_collected htext]
      exact drop_take_append (by omega) (Nat.min_le_left _ _)
    have hrawlen : s.raw.length = n - (c.start + 56 + c.padC.length) := by
      rw [hraw, List.length_drop, List.length_take, min_eq_left hn]
    have hplain : (arrive ((c.bytes env.xb).drop n) s).plain = c.ia ++ c.rest := by
      have hall : (arrive ((c.bytes env.xb).drop n) s).raw =
          (c.bytes env.xb).drop (c.start + 56 + c.padC.length) := by
        rw [StreamSocket.raw_arrive, hraw, ← List.drop_append_of_le_length, List.take_append_drop]
        rw [List.length_take]
        omega
      have henc : (arrive ((c.bytes env.xb).drop n) s).enc =
          some (rc4At env c (16 + c.padC.length) 14) := by
        rw [hs]
        rfl
      unfold StreamSocket.plain
      rw [henc, hall]
      exact hc.process_payload
    have hreading : AuthenticateBase.Reading (c.ia ++ c.rest) ((c.bytes env.xb).drop n) 0 s
        { AuthenticateBase.fresh [] with sock := some s } :=
      ⟨rfl, rfl, rfl, rfl, .inl rfl, Nat.zero_le _, hplain⟩
    have hsmooth : AuthenticateBase.Smooth ((c.bytes env.xb).drop n) s := by
      intro hlong
      have hsum := hreading.length
      rw [Nat.zero_add, List.length_append] at hsum
      have hopen' := hopen (hsum ▸ hlong)
      refine .inr (.inr ⟨by omega, ?_⟩)
      rcases le_or_gt n MAX_SEA_BUF_SIZE with hle | hgt
      · right
        rw [hsock, min_eq_left hle, List.drop_eq_nil_of_le]
        exact List.length_take_le _ _
      · left
        rw [hback, List.length_drop, hlen]
        omega
    have hpayload := hc.payload
    have hne : s.raw ≠ [] := List.ne_nil_of_length_pos (by omega)
    subst hs
    exact ⟨rfl, rfl, rfl, hreading.onReadyRead hv hne hsmooth⟩
  · show c.start + 54 + c.padC.length + 2 + c.ia.length ≤
      (collected env c (16 + c.padC.length) n).length
    omega

omit hc hn in
/-- `handlePadC` with pad C and the length after it complete.
Source: `EncryptedServerAuthenticate::handlePadC`. Kind: L -/
theorem handlePadC_complete {a : EncryptedServerAuthenticate} {e : RC4Encryptor}
    (hbuf : a.req1_off + 54 + a.pad_C_len + 2 ≤ a.buf.length) (he : a.our_rc4 = some e)
    {buf : List UInt8} {e' : RC4Encryptor}
    (hd : e.decryptAt (a.req1_off + 54) (a.pad_C_len + 2) a.buf = (buf, e')) {ia_len : ℕ}
    (hread : readUint16 buf (a.req1_off + 54 + a.pad_C_len) = ia_len) :
    handlePadC env a =
      if buf.length < a.req1_off + 54 + ia_len then
        { a with buf := buf, our_rc4 := some e', ia_len := ia_len, state := .waitForIA }
      else handleIA env { a with buf := buf, our_rc4 := some e', ia_len := ia_len } := by
  unfold handlePadC
  rw [if_neg (not_lt.mpr hbuf)]
  simp only [he, hd, hread]

/-- Pad C and the length after it are complete. Source: `EncryptedServerAuthenticate::handlePadC`.
Kind: L -/
theorem handlePadC_spec (hv : AuthenticateBase.Decisive env.handshakeRecieved)
    (hpad : c.start + 56 + c.padC.length ≤ n)
    (hwhole : c.start + 54 + c.ia.length ≤ n → c.total ≤ n)
    (hopen : c.total ≤ n → 48 ≤ c.ia.length + c.rest.length → c.start + 104 + c.padC.length ≤ n)
    (state : State) :
    After env c n (handlePadC env { waitingPadC env c n with state := state }) := by
  have hfits := hc.fits
  have htotal : c.total = c.start + 56 + c.padC.length + c.ia.length := rfl
  have hlen : (collected env c 14 n).length = min n MAX_SEA_BUF_SIZE :=
    hc.length_collected hn (by omega)
  have hlen' : (collected env c (16 + c.padC.length) n).length = min n MAX_SEA_BUF_SIZE :=
    hc.length_collected hn (by omega)
  have hdec := hc.decryptAt_collected 14 (c.padC.length + 2) 14 hn (by omega)
  rw [show 14 + (c.padC.length + 2) = 16 + c.padC.length by omega] at hdec
  have hbuf : c.start + 54 + c.padC.length + 2 ≤ (collected env c 14 n).length := by omega
  rw [handlePadC_complete (a := { waitingPadC env c n with state := state }) hbuf rfl hdec
    (ia_collected n)]
  split_ifs with hlt
  · have hlt' : min n MAX_SEA_BUF_SIZE < c.start + 54 + c.ia.length := hlen' ▸ hlt
    exact after_waitingIA hpad (by omega)
  · have hge : ¬ min n MAX_SEA_BUF_SIZE < c.start + 54 + c.ia.length := hlen' ▸ hlt
    have hdone : c.total ≤ n := hwhole (by omega)
    exact after_handed hdone (handleIA_spec hc hn hv hdone (hopen hdone) state)

omit hc hn in
/-- What is sent back. Source: `mse/encryptedserverauthenticate.cpp`. Kind: L -/
theorem length_select (crypto_select : ℕ) : (select crypto_select).length = 14 := by
  simp only [select, List.length_append, length_zeros, length_uint32Bytes, length_uint16Bytes]

omit hc hn in
/-- The reply of the handshake. Source: `RC4Encryptor::encrypt`. Kind: L -/
theorem encrypt_reply : (rc4At env c 14 0).encrypt (select 2) = (reply env c, rc4At env c 14 14) := by
  unfold RC4Encryptor.encrypt rc4At reply
  rw [length_select, RC4.advance_zero]

omit hc hn in
/-- `processVC` with the offer complete. Source: `EncryptedServerAuthenticate::processVC`.
Kind: L -/
theorem processVC_complete {a : EncryptedServerAuthenticate} {e : RC4Encryptor}
    (hbuf : a.req1_off + 40 + 14 ≤ a.buf.length) (he : a.our_rc4.getD (a.makeRC4 env) = e)
    {buf : List UInt8} {e' : RC4Encryptor} (hd : e.decryptAt (a.req1_off + 40) 14 a.buf = (buf, e'))
    (hvc : (buf.drop (a.req1_off + 40)).take 8 = zeros 8) {provide pad_C_len : ℕ}
    (hprovide : readUint32 buf (a.req1_off + 40 + 8) = provide)
    (hpad : readUint16 buf (a.req1_off + 40 + 12) = pad_C_len) (hle : pad_C_len ≤ 512)
    (hrc4 : provide &&& 2 ≠ 0) :
    processVC env a =
      let a' := { a with
        buf := buf
        our_rc4 := some (e'.encrypt (select 2)).2
        crypto_provide := provide
        pad_C_len := pad_C_len
        crypto_select := 2
        sent := a.sent ++ [(e'.encrypt (select 2)).1] }
      if buf.length < a.req1_off + 14 + pad_C_len then { a' with state := .waitForPadC }
      else handlePadC env a' := by
  unfold processVC
  simp only [he]
  rw [if_neg (not_lt.mpr hbuf)]
  simp only [hd, hvc, hprovide, hpad, if_pos hrc4, ne_eq, not_true_eq_false, if_false]
  rw [if_neg (not_lt.mpr hle)]
  rfl

omit hc hn in
/-- `processVC` with the offer incomplete. Source: `EncryptedServerAuthenticate::processVC`.
Kind: L -/
theorem processVC_incomplete {a : EncryptedServerAuthenticate} {e : RC4Encryptor}
    (hbuf : a.buf.length < a.req1_off + 40 + 14) (he : a.our_rc4.getD (a.makeRC4 env) = e) :
    processVC env a = { a with our_rc4 := some e } := by
  unfold processVC
  simp only [he]
  exact if_pos hbuf

/-- The hash after `HASH('req1', S)` has been found to belong to a torrent.
Source: `EncryptedServerAuthenticate::processVC`. Kind: L -/
theorem processVC_spec (hv : AuthenticateBase.Decisive env.handshakeRecieved)
    (hskey : c.start + 40 ≤ n)
    (hpad : c.start + 54 ≤ n → c.start + 14 + c.padC.length ≤ n →
      c.start + 56 + c.padC.length ≤ n)
    (hia : c.start + 56 + c.padC.length ≤ n → c.start + 54 + c.ia.length ≤ n → c.total ≤ n)
    (hopen : c.total ≤ n → 48 ≤ c.ia.length + c.rest.length → c.start + 104 + c.padC.length ≤ n)
    {our_rc4 : Option RC4Encryptor} (hrc4 : our_rc4 = none ∨ our_rc4 = some (rc4At env c 0 0)) :
    After env c n (processVC env { waitingVC env c n with our_rc4 := our_rc4 }) := by
  have hfits := hc.fits
  have htotal : c.total = c.start + 56 + c.padC.length + c.ia.length := rfl
  have hsecret : ∀ stack : Vector UInt8 96,
      toBuffer stack.toList (c.number env.xb) = c.secret env.xb :=
    fun stack => toBuffer_eq hc.full (Vector.length_toList)
  have he : our_rc4.getD (makeRC4 env { waitingVC env c n with our_rc4 := our_rc4 }) =
      rc4At env c 0 0 := by
    obtain rfl | rfl := hrc4
    · show RC4Encryptor.make (EncryptionKey true (toBuffer _ (c.number env.xb)) c.skey)
        (EncryptionKey false (toBuffer _ (c.number env.xb)) c.skey) = _
      rw [hsecret, hsecret, rc4At, RC4.advance_zero, RC4.advance_zero]
      rfl
    · rfl
  have hlen : ((c.bytes env.xb).take (min n MAX_SEA_BUF_SIZE)).length = min n MAX_SEA_BUF_SIZE := by
    rw [List.length_take]
    omega
  rcases lt_or_ge n (c.start + 54) with hlt | hvc
  · have hshort : ((c.bytes env.xb).take (min n MAX_SEA_BUF_SIZE)).length < c.start + 40 + 14 := by
      omega
    rw [processVC_incomplete (a := { waitingVC env c n with our_rc4 := our_rc4 }) hshort he]
    exact after_waitingVC hskey hlt
  · have hbuf : c.start + 40 + 14 ≤ ((c.bytes env.xb).take (min n MAX_SEA_BUF_SIZE)).length := by
      omega
    have hdec := hc.decryptAt_collected 0 14 0 hn (by omega)
    rw [hc.collected_zero hn (by omega), Nat.add_zero, Nat.zero_add] at hdec
    rw [processVC_complete (a := { waitingVC env c n with our_rc4 := our_rc4 }) hbuf he hdec
      (constant_collected n) (provide_collected n) (padC_collected n) c.length_padC hc.rc4,
      encrypt_reply]
    have hlen' : (collected env c 14 n).length = min n MAX_SEA_BUF_SIZE :=
      hc.length_collected hn (by omega)
    dsimp only
    split_ifs with hwait
    · have hwait' : min n MAX_SEA_BUF_SIZE < c.start + 14 + c.padC.length := hlen' ▸ hwait
      exact after_waitingPadC hvc (by omega)
    · have hgo : ¬ min n MAX_SEA_BUF_SIZE < c.start + 14 + c.padC.length := hlen' ▸ hwait
      have hpad' := hpad hvc (by omega)
      exact handlePadC_spec hc hn hv hpad' (hia hpad') hopen .foundInfoHash

/-- `HASH('req1', S)` has been found. Source: `EncryptedServerAuthenticate::calculateSKey`.
Kind: L -/
theorem calculateSKey_spec (hv : AuthenticateBase.Decisive env.handshakeRecieved)
    (hreq1 : c.start + 21 ≤ n)
    (hpad : c.start + 54 ≤ n → c.start + 14 + c.padC.length ≤ n →
      c.start + 56 + c.padC.length ≤ n)
    (hia : c.start + 56 + c.padC.length ≤ n → c.start + 54 + c.ia.length ≤ n → c.total ≤ n)
    (hopen : c.total ≤ n → 48 ≤ c.ia.length + c.rest.length → c.start + 104 + c.padC.length ≤ n) :
    After env c n (calculateSKey env (waitingSKey env c n)) := by
  have hfits := hc.fits
  have htotal : c.total = c.start + 56 + c.padC.length + c.ia.length := rfl
  have hoff : (waitingSKey env c n).req1_off = c.start := rfl
  have hlen : (waitingSKey env c n).buf.length = min n MAX_SEA_BUF_SIZE := by
    show ((c.bytes env.xb).take _).length = _
    rw [List.length_take]
    omega
  unfold calculateSKey
  rw [hlen, hoff]
  rcases lt_or_ge n (c.start + 40) with hlt | hskey
  · rw [if_pos (by omega)]
    exact after_waitingSKey hreq1 hlt
  · rw [if_neg (by omega)]
    have hhash : hashAt (waitingSKey env c n).buf (c.start + 20) =
        xorHash (req2Hash c.skey) (req3Hash (c.secret env.xb)) := by
      show hashAt ((c.bytes env.xb).take _) _ = _
      rw [← hc.collected_zero hn (by omega)]
      unfold collected partly
      rw [List.take_zero, List.append_nil, ← c.length_front env.xb, c.head_eq]
      exact hashAt_append _ _ _
    have hsecret : secretAt env .req3 (waitingSKey env c n) = c.secret env.xb :=
      toBuffer_eq hc.full Vector.length_toList
    dsimp only
    rw [hhash, hsecret, xorHash_xorHash, hc.known]
    exact processVC_spec hc hn hv hskey hpad hia hopen (Or.inl rfl)

omit hc hn in
/-- Looking at 20 bytes of the buffer. Source: `mse/encryptedserverauthenticate.cpp`. Kind: L -/
theorem window_eq {i : ℕ} (hi : i + 20 ≤ min n MAX_SEA_BUF_SIZE) :
    (((c.bytes env.xb).take (min n MAX_SEA_BUF_SIZE)).drop i).take 20 =
      ((c.bytes env.xb).drop i).take 20 := by
  rw [List.drop_take, List.take_take, min_eq_left (by omega)]

/-- Ya is complete. Source: `EncryptedServerAuthenticate::findReq1`. Kind: L -/
theorem findReq1_spec (hv : AuthenticateBase.Decisive env.handshakeRecieved)
    (hya : 96 ≤ n) (hreq1 : 608 < n → c.start + 20 < n)
    (hpad : c.start + 54 ≤ n → c.start + 14 + c.padC.length ≤ n →
      c.start + 56 + c.padC.length ≤ n)
    (hia : c.start + 56 + c.padC.length ≤ n → c.start + 54 + c.ia.length ≤ n → c.total ≤ n)
    (hopen : c.total ≤ n → 48 ≤ c.ia.length + c.rest.length → c.start + 104 + c.padC.length ≤ n) :
    After env c n (findReq1 env (waitingReq1 env c n)) := by
  have hfits := hc.fits
  have htotal : c.total = c.start + 56 + c.padC.length + c.ia.length := rfl
  have hstart : 96 ≤ c.start := Nat.le_add_right _ _
  obtain ⟨m, hm⟩ : ∃ m, m = min n MAX_SEA_BUF_SIZE := ⟨_, rfl⟩
  have hlen : (waitingReq1 env c n).buf.length = m := by
    show ((c.bytes env.xb).take _).length = m
    rw [List.length_take]
    omega
  have hsecret : secretAt env .req1 (waitingReq1 env c n) = c.secret env.xb :=
    toBuffer_eq hc.full Vector.length_toList
  unfold findReq1
  rw [hlen, hsecret]
  by_cases h116 : m < 116
  · rw [if_pos h116]
    exact after_waitingReq1 hya (by omega)
  · rw [if_neg h116]
    have hbefore : ∀ i, 96 ≤ i → i < c.start → i + 20 ≤ m →
        ((waitingReq1 env c n).buf.drop i).take 20 ≠ (req1Hash (c.secret env.xb)).toList := by
      intro i hi hlt hend
      show (((c.bytes env.xb).take _).drop i).take 20 ≠ _
      rw [window_eq (hm ▸ hend)]
      exact hc.first i hi hlt
    rcases lt_or_ge n (c.start + 21) with hlt | hge
    · -- the window of the search does not reach the hash yet
      have hnone : (List.range' 96 (m - 20 - 96)).find? (fun i =>
          decide (((waitingReq1 env c n).buf.drop i).take 20 =
            (req1Hash (c.secret env.xb)).toList)) = none := by
        rw [List.find?_range'_eq_none]
        intro i hi hend
        rw [decide_eq_false (hbefore i hi (by omega) (by omega))]
        rfl
      dsimp only
      rw [hnone]
      dsimp only
      rw [if_neg (by omega)]
      exact after_waitingReq1 hya hlt
    · have hsome : (List.range' 96 (m - 20 - 96)).find? (fun i =>
          decide (((waitingReq1 env c n).buf.drop i).take 20 =
            (req1Hash (c.secret env.xb)).toList)) = some c.start := by
        rw [List.find?_range'_eq_some]
        refine ⟨?_, ?_, ?_⟩
        · apply decide_eq_true
          show (((c.bytes env.xb).take _).drop c.start).take 20 = _
          rw [window_eq (by omega)]
          exact hc.drop_start
        · rw [List.mem_range'_1]
          omega
        · intro i hi hlt
          rw [decide_eq_false (hbefore i hi hlt (by omega))]
          rfl
      dsimp only
      rw [hsome]
      exact calculateSKey_spec hc hn hv hge hpad hia hopen

/-- The bytes of Ya have been collected. Source: `EncryptedServerAuthenticate::handleYA`. Kind: L -/
theorem handleYA_spec (hv : AuthenticateBase.Decisive env.handshakeRecieved)
    (hya : 96 ≤ n) (hreq1 : 608 < n → c.start + 20 < n)
    (hpad : c.start + 54 ≤ n → c.start + 14 + c.padC.length ≤ n →
      c.start + 56 + c.padC.length ≤ n)
    (hia : c.start + 56 + c.padC.length ≤ n → c.start + 54 + c.ia.length ≤ n → c.total ≤ n)
    (hopen : c.total ≤ n → 48 ≤ c.ia.length + c.rest.length → c.start + 104 + c.padC.length ≤ n) :
    After env c n (handleYA env (waitingYA env c n)) := by
  have hM : 96 ≤ MAX_SEA_BUF_SIZE := by decide
  have htake : ((waitingYA env c n).sendData env.yb).buf.take 96 = c.ya := by
    show ((c.bytes env.xb).take (min n MAX_SEA_BUF_SIZE)).take 96 = c.ya
    rw [List.take_take, min_eq_left (le_min hya hM), hc.bytes_eq, c.head_eq]
    unfold ClientStream.front
    rw [List.append_assoc, List.append_assoc, List.append_assoc, List.take_left' c.length_ya]
  unfold handleYA
  dsimp only
  rw [htake]
  exact findReq1_spec hc hn hv hya hreq1 hpad hia hopen

end Handlers

/-! ### Arrivals -/

section Arrivals

variable {env : Env}

/-- What `onReadyRead` collects of the bytes `d`. Kind: D -/
def collect (d : List UInt8) (a : EncryptedServerAuthenticate) : EncryptedServerAuthenticate :=
  { a with
    buf := a.buf ++ d.take (min d.length (MAX_SEA_BUF_SIZE - a.buf.length))
    base := .fresh (d.drop (min d.length (MAX_SEA_BUF_SIZE - a.buf.length))) }

/-- Bytes arrive before the socket was handed on. Source: `torrent/authenticationmonitor.cpp`,
`handleData`. Kind: L -/
theorem receive_eq {a : EncryptedServerAuthenticate} {d : List UInt8} (hd : d ≠ [])
    (hbase : a.base = .fresh []) (hhanded : a.handed = none) :
    receive env a d =
      match a.state with
      | .waitingForYA =>
        if min d.length (MAX_SEA_BUF_SIZE - a.buf.length) ≤ 68 ∧ env.server.allow_unencrypted then
          switchToPlain env { a with base := .fresh d }
        else if (collect d a).buf.length ≥ 96 then handleYA env (collect d a) else collect d a
      | .waitingForReq1 => findReq1 env (collect d a)
      | .foundReq1 => calculateSKey env (collect d a)
      | .foundInfoHash => processVC env (collect d a)
      | .waitForPadC => handlePadC env (collect d a)
      | .waitForIA => handleIA env (collect d a)
      | .nonEncryptedHandshake =>
        { a with base := (AuthenticateBase.fresh d).onReadyRead env.handshakeRecieved } := by
  have hpos : d.length ≠ 0 := fun h => hd (List.eq_nil_of_length_eq_zero h)
  have hfill : fill ⟨none, none, d⟩ (min d.length (MAX_SEA_BUF_SIZE - a.buf.length))
      { a with base := .fresh d } = collect d a := by
    unfold fill collect
    rw [StreamSocket.readData_plain]
    dsimp only
    rw [List.take_length]
    rfl
  have harrive : receive env a d = onReadyRead env { a with base := .fresh d } := by
    cases a
    subst hbase hhanded
    unfold receive
    dsimp only
    exact if_neg Bool.false_ne_true
  rw [harrive]
  unfold onReadyRead
  have hba : StreamSocket.bytesAvailable ⟨none, none, d⟩ = d.length := rfl
  simp only [AuthenticateBase.fresh] at hfill ⊢
  cases hstate : a.state
  all_goals
    rw [hstate] at hfill
    simp only [hba, if_neg hpos, hfill]

/-- Reading after the socket was handed on. Source: `EncryptedServerAuthenticate::onReadyRead`.
Kind: L -/
theorem onReadyRead_plain {a : EncryptedServerAuthenticate} (h : a.state = .nonEncryptedHandshake) :
    onReadyRead env a = { a with base := a.base.onReadyRead env.handshakeRecieved } := by
  obtain ⟨⟨sock, _, _, _, _⟩, _, _, _, _, _, _, _, _, _, _, _, _, _⟩ := a
  subst h
  cases sock with
  | none => rfl
  | some s =>
    by_cases hba : s.bytesAvailable = 0
    · unfold onReadyRead AuthenticateBase.onReadyRead
      dsimp only
      rw [if_pos hba, if_pos hba]
      rfl
    · unfold onReadyRead
      dsimp only
      rw [if_neg hba]

/-- Bytes arrive after the socket was handed on. Source: `torrent/authenticationmonitor.cpp`,
`handleData`. Kind: L -/
theorem receive_plain {a : EncryptedServerAuthenticate} (h : a.state = .nonEncryptedHandshake)
    (d : List UInt8) :
    receive env a d =
      { a with
        handed := a.handed.map (arrive d)
        base := if a.base.finished then { a.base with sock := a.base.sock.map (arrive d) }
          else ({ a.base with sock := a.base.sock.map (arrive d) } : AuthenticateBase).onReadyRead
            env.handshakeRecieved } := by
  unfold receive
  dsimp only
  rw [onReadyRead_plain (a := { a.onSock (arrive d) with handed := a.handed.map (arrive d) }) h]
  by_cases hfin : a.base.finished = true
  · rw [if_pos (show (a.onSock (arrive d)).base.finished = true from hfin), if_pos hfin]
    rfl
  · rw [if_neg (show ¬ (a.onSock (arrive d)).base.finished = true from hfin), if_neg hfin]
    rfl

/-- A piece that is not empty is received. Source: `torrent/authenticationmonitor.cpp`, `update`.
Kind: L -/
theorem poll_of_ne {a : EncryptedServerAuthenticate} {d : List UInt8} (hd : d ≠ []) :
    poll env a d = receive env a d :=
  if_neg fun h => hd h.1

variable {c : ClientStream}

/-- The bytes collected make up the same state for more bytes.
Source: `mse/encryptedserverauthenticate.cpp`. Kind: L -/
theorem collect_waiting {n : ℕ} {d more : List UInt8} (hn : n ≤ MAX_SEA_BUF_SIZE)
    (hbytes : (c.bytes env.xb).drop n = d ++ more) (f : ℕ → EncryptedServerAuthenticate)
    (hlen : (f n).buf.length = n)
    (hbuf : (f n).buf ++ d.take (min d.length (MAX_SEA_BUF_SIZE - n)) = (f (n + d.length)).buf)
    (hbase : (f (n + d.length)).base =
      .fresh (((c.bytes env.xb).take (n + d.length)).drop (min (n + d.length) MAX_SEA_BUF_SIZE)))
    (heq : { f n with buf := (f (n + d.length)).buf, base := (f (n + d.length)).base } =
      f (n + d.length)) : collect d (f n) = f (n + d.length) := by
  unfold collect
  rw [hlen, hbuf, (take_arrived hn hbytes).2, ← hbase, heq]

/-- Bytes that follow the handshake. Source: `torrent/authenticationmonitor.cpp`, `handleData`.
Kind: L -/
theorem Handed.receive (hv : AuthenticateBase.Decisive env.handshakeRecieved) {n : ℕ}
    {a : EncryptedServerAuthenticate} {d more : List UInt8} (ha : Handed env c n a)
    (hbytes : (c.bytes env.xb).drop n = d ++ more)
    (hd : d = [] → ∃ s, a.base.sock = some s ∧ s.sock ≠ []) :
    Handed env c (n + d.length) (receive env a d) := by
  have hmore : (c.bytes env.xb).drop (n + d.length) = more := by
    rw [← List.drop_drop, hbytes, List.drop_left]
  have hkept := ha.kept
  rw [hbytes] at hkept
  rw [receive_plain ha.state]
  refine ⟨ha.state, ha.info_hash, ha.sent, ?_⟩
  rw [hmore]
  exact hkept.arrive hv hd

/-- **One more piece.**. Source: `torrent/authenticationmonitor.cpp`, `handleData`. Kind: P -/
theorem after_receive (hc : Followed env c)
    (hv : AuthenticateBase.Decisive env.handshakeRecieved) {n : ℕ} {a : EncryptedServerAuthenticate}
    {d more : List UInt8} (hd : d ≠ []) (hbytes : (c.bytes env.xb).drop n = d ++ more)
    (hw : Whole env c n d) (ha : After env c n a) : After env c (n + d.length) (receive env a d) := by
  have hM : MAX_SEA_BUF_SIZE = 1244 := rfl
  have hfits := hc.fits
  have htotal : c.total = c.start + 56 + c.padC.length + c.ia.length := rfl
  have hstart : 96 ≤ c.start := Nat.le_add_right _ _
  have hlen : n + d.length ≤ (c.bytes env.xb).length := by
    have hsum := congrArg List.length hbytes
    have hpos := List.length_pos_iff.mpr hd
    rw [List.length_drop, List.length_append] at hsum
    omega
  have hbase : n ≤ MAX_SEA_BUF_SIZE →
      .fresh (((c.bytes env.xb).take n).drop (min n MAX_SEA_BUF_SIZE)) =
        AuthenticateBase.fresh [] := by
    intro hle
    rw [min_eq_left hle, List.drop_take, Nat.sub_self, List.take_zero]
  have htake : ∀ k ≤ (c.bytes env.xb).length,
      ((c.bytes env.xb).take (min k MAX_SEA_BUF_SIZE)).length = min k MAX_SEA_BUF_SIZE := by
    intro k hk
    rw [List.length_take]
    omega
  have hn := htake n (by omega)
  have hia := hw.payload
  have hopen : n < c.total → c.total ≤ n + d.length → 48 ≤ c.ia.length + c.rest.length →
      c.start + 104 + c.padC.length ≤ n + d.length := hw.handshake
  unfold After at ha
  split_ifs at ha with hya hreq1 hskey hvc hpad hpay
  · obtain rfl := ha
    have hle : n ≤ MAX_SEA_BUF_SIZE := by omega
    have hcol := collect_waiting hle hbytes (waitingYA env c) (by rw [waitingYA, hn]; omega)
      (take_arrived hle hbytes).1 rfl rfl
    have hnot : ¬ (min d.length (MAX_SEA_BUF_SIZE - (waitingYA env c n).buf.length) ≤ 68 ∧
        env.server.allow_unencrypted = true) := by
      rintro ⟨hshort, hallow⟩
      have hlong := hw.ya hya hallow
      rw [waitingYA, hn] at hshort
      omega
    rw [receive_eq hd (hbase hle) rfl, hcol]
    show After env c _ (if _ ∧ _ then _ else if _ then _ else _)
    rw [if_neg hnot]
    have hbuf : (waitingYA env c (n + d.length)).buf.length = min (n + d.length) MAX_SEA_BUF_SIZE :=
      htake _ hlen
    split_ifs with h96
    · exact handleYA_spec hc hlen hv (by omega) hw.req1 (hw.padC (by omega)) (hia (by omega))
        (hopen (by omega))
    · exact after_waitingYA (by omega)
  · obtain rfl := ha
    have hle : n ≤ MAX_SEA_BUF_SIZE := by omega
    rw [receive_eq hd (hbase hle) rfl, collect_waiting hle hbytes (waitingReq1 env c)
      (by rw [waitingReq1, waitingYA, hn]; omega) (take_arrived hle hbytes).1 rfl rfl]
    exact findReq1_spec hc hlen hv (by omega) hw.req1 (hw.padC (by omega)) (hia (by omega))
      (hopen (by omega))
  · obtain rfl := ha
    have hle : n ≤ MAX_SEA_BUF_SIZE := by omega
    rw [receive_eq hd (hbase hle) rfl, collect_waiting hle hbytes (waitingSKey env c)
      (by rw [waitingSKey, waitingReq1, waitingYA, hn]; omega) (take_arrived hle hbytes).1 rfl rfl]
    exact calculateSKey_spec hc hlen hv (by omega) (hw.padC (by omega)) (hia (by omega))
      (hopen (by omega))
  · obtain rfl := ha
    have hle : n ≤ MAX_SEA_BUF_SIZE := by omega
    rw [receive_eq hd (hbase hle) rfl, collect_waiting hle hbytes (waitingVC env c)
      (by rw [waitingVC, waitingSKey, waitingReq1, waitingYA, hn]; omega)
      (take_arrived hle hbytes).1 rfl rfl]
    exact processVC_spec hc hlen hv (by omega) (hw.padC (by omega)) (hia (by omega))
      (hopen (by omega)) (Or.inr rfl)
  · obtain rfl := ha
    have hle : n ≤ MAX_SEA_BUF_SIZE := by omega
    have hcl := hc.length_collected (k := 14) (n := n) (by omega) (by omega)
    rw [receive_eq hd (hbase hle) rfl, collect_waiting hle hbytes (waitingPadC env c)
      (by rw [waitingPadC, hcl]; omega) (collected_arrived hle (by omega) (by omega) hbytes) rfl rfl]
    show After env c _ (handlePadC env _)
    rcases lt_or_ge (n + d.length) (c.start + 56 + c.padC.length) with hlt | hge
    · have hwait : handlePadC env (waitingPadC env c (n + d.length)) =
          waitingPadC env c (n + d.length) := by
        refine if_pos (?_ : (collected env c 14 (n + d.length)).length < c.start + 54 +
          c.padC.length + 2)
        rw [hc.length_collected hlen (by omega)]
        omega
      rw [hwait]
      exact after_waitingPadC (by omega) hlt
    · exact handlePadC_spec hc hlen hv hge (hia (by omega) hge) (hopen (by omega)) .waitForPadC
  · obtain rfl := ha
    have hlt' : n < c.total := hpay
    have hle : n ≤ MAX_SEA_BUF_SIZE := by omega
    have hcl := hc.length_collected (k := 16 + c.padC.length) (n := n) (by omega) (by omega)
    rw [receive_eq hd (hbase hle) rfl, collect_waiting hle hbytes (waitingIA env c)
      (by rw [waitingIA, hcl]; omega) (collected_arrived hle (by omega) (by omega) hbytes) rfl rfl]
    show After env c _ (handleIA env _)
    rcases lt_or_ge (n + d.length) c.total with hlt | hge
    · have hwait : handleIA env (waitingIA env c (n + d.length)) = waitingIA env c (n + d.length) := by
        refine if_pos (?_ : (collected env c (16 + c.padC.length) (n + d.length)).length <
          c.start + 54 + c.padC.length + 2 + c.ia.length)
        rw [hc.length_collected hlen (by omega)]
        omega
      rw [hwait]
      exact after_waitingIA (by omega) hlt
    · exact after_handed hge (handleIA_spec hc hlen hv hge (hopen hlt' hge) .waitForIA)
  · exact after_handed (by omega) (ha.receive hv hbytes fun h => absurd h hd)

/-- Nothing is left in the socket before it is handed on.
Source: `mse/encryptedserverauthenticate.cpp`. Kind: L -/
theorem After.left (hc : Followed env c) {n : ℕ} {a : EncryptedServerAuthenticate}
    (ha : After env c n a) (hleft : (a.base.sock.map StreamSocket.sock).getD [] ≠ []) :
    c.total ≤ n := by
  have hfits := hc.fits
  by_contra hlt
  have hnil : ((c.bytes env.xb).take n).drop (min n MAX_SEA_BUF_SIZE) = [] := by
    rw [min_eq_left (by omega)]
    exact List.drop_eq_nil_of_le (List.length_take_le _ _)
  unfold After at ha
  rw [if_pos (not_le.mp hlt)] at ha
  split_ifs at ha
  all_goals
    obtain rfl := ha
    exact hleft hnil

/-- One more piece, or one more poll. Source: `torrent/authenticationmonitor.cpp`, `update`.
Kind: L -/
theorem after_poll (hc : Followed env c) (hv : AuthenticateBase.Decisive env.handshakeRecieved)
    {n : ℕ} {a : EncryptedServerAuthenticate} {d more : List UInt8}
    (hbytes : (c.bytes env.xb).drop n = d ++ more) (hw : d ≠ [] → Whole env c n d)
    (ha : After env c n a) : After env c (n + d.length) (poll env a d) := by
  by_cases hd : d = []
  · subst hd
    unfold poll
    split_ifs with hleft
    · exact ha
    · have hleft' : (a.base.sock.map StreamSocket.sock).getD [] ≠ [] := fun h => hleft ⟨rfl, h⟩
      have hn := ha.left hc hleft'
      refine after_handed hn ((handed_of_after hn ha).receive hv hbytes fun _ => ?_)
      cases hs : a.base.sock with
      | none => exact absurd (by rw [hs]; rfl) hleft'
      | some s =>
        rw [hs] at hleft'
        exact ⟨s, rfl, hleft'⟩
  · rw [poll_of_ne hd]
    exact after_receive hc hv hd hbytes (hw hd) ha

/-- Arrivals and polls, one after the other. Source: `mse/encryptedserverauthenticate.cpp`.
Kind: L -/
theorem after_run (hc : Followed env c) (hv : AuthenticateBase.Decisive env.handshakeRecieved)
    (ds : List (List UInt8)) :
    ∀ (n : ℕ) (a : EncryptedServerAuthenticate), (c.bytes env.xb).drop n = ds.flatten →
      Meets (fun n d => n + d.length) (fun n d => d ≠ [] → Whole env c n d) n ds → After env c n a →
      After env c (n + ds.flatten.length) (run (poll env) a ds) := by
  induction ds with
  | nil => exact fun n a _ _ ha => ha
  | cons d ds ih =>
    intro n a hbytes hm ha
    have hstep := after_poll hc hv hbytes hm.1 ha
    have hrest : (c.bytes env.xb).drop (n + d.length) = ds.flatten := by
      rw [← List.drop_drop, hbytes, List.flatten_cons, List.drop_left]
    rw [run_cons, List.flatten_cons, List.length_append, ← Nat.add_assoc]
    exact ih _ _ hrest hm.2 hstep

/-- **A valid handshake in pieces**: whatever the pieces, and however often the monitor polls in
between, as long as no piece ends at a bad place, the torrent is found, one reply is sent, and the
plain handshake takes the initial payload and what follows it.
Source: `mse/encryptedserverauthenticate.cpp`. Kind: P -/
theorem served_run {blocked : Bool} {findPeerManager : List UInt8 → Option Pman}
    (henv : env.handshakeRecieved = ServerAuthenticate.handshakeRecieved blocked findPeerManager)
    {ds : List (List UInt8)} (hc : Followed env c) (hbytes : ds.flatten = c.bytes env.xb)
    (hm : Meets (fun n d => n + d.length) (fun n d => d ≠ [] → Whole env c n d) 0 ds) :
    Served env c (run (poll env) make ds) := by
  have hv : AuthenticateBase.Decisive env.handshakeRecieved := by
    rw [henv]
    exact AuthenticateBase.decisive_server blocked findPeerManager
  have hstart : After env c 0 make := after_waitingYA (by decide)
  have hrun := after_run hc hv ds 0 make (by rw [List.drop_zero, hbytes]) hm hstart
  have hlong : c.total ≤ (c.bytes env.xb).length := by
    rw [hc.length_bytes, plainText, List.length_append, c.length_message]
    unfold ClientStream.total
    omega
  rw [Nat.zero_add, hbytes] at hrun
  have hhanded := handed_of_after hlong hrun
  have htook := hhanded.kept.took
  rw [List.drop_length] at htook
  exact ⟨hhanded.info_hash, hhanded.sent, htook⟩

/-- After 80 bytes, the last 16 of Ya are taken for a plain handshake, and nothing is answered.
Source: `mse/encryptedserverauthenticate.cpp`. Kind: L -/
theorem split_unanswered (hc : Followed env c)
    (hv : AuthenticateBase.Decisive env.handshakeRecieved)
    (hallow : env.server.allow_unencrypted = true) :
    (run (poll env) make [(c.bytes env.xb).take 80, ((c.bytes env.xb).drop 80).take 16,
      (c.bytes env.xb).drop 96]).sent = [] := by
  have hM : MAX_SEA_BUF_SIZE = 1244 := rfl
  have hlen := hc.length_bytes
  have hstart : 96 ≤ c.start := Nat.le_add_right _ _
  have h80 : ((c.bytes env.xb).take 80).length = 80 := by
    rw [List.length_take]
    omega
  have h16 : (((c.bytes env.xb).drop 80).take 16).length = 16 := by
    rw [List.length_take, List.length_drop]
    omega
  have htotal : c.total = c.start + 56 + c.padC.length + c.ia.length := rfl
  have hw : Whole env c 0 ((c.bytes env.xb).take 80) := by
    constructor
    · intro _ _
      omega
    all_goals
      intros
      omega
  have hne : (c.bytes env.xb).take 80 ≠ [] := List.ne_nil_of_length_pos (by omega)
  have hne' : ((c.bytes env.xb).drop 80).take 16 ≠ [] := List.ne_nil_of_length_pos (by omega)
  have hzero : After env c 0 make := after_waitingYA (by decide)
  have hbytes : (c.bytes env.xb).drop 0 = (c.bytes env.xb).take 80 ++ (c.bytes env.xb).drop 80 :=
    (List.take_append_drop 80 _).symm
  have hone := after_receive hc hv hne hbytes hw hzero
  rw [h80, Nat.zero_add] at hone
  unfold After at hone
  rw [if_pos (by decide)] at hone
  have hbase : (waitingYA env c 80).base = .fresh [] := by
    show AuthenticateBase.fresh (((c.bytes env.xb).take 80).drop (min 80 MAX_SEA_BUF_SIZE)) = _
    rw [List.drop_eq_nil_of_le (by omega)]
  have htwo : receive env (waitingYA env c 80) (((c.bytes env.xb).drop 80).take 16) =
      switchToPlain env { waitingYA env c 80 with
        base := .fresh (((c.bytes env.xb).drop 80).take 16) } := by
    rw [receive_eq hne' hbase rfl]
    refine if_pos ⟨?_, hallow⟩
    rw [h16]
    omega
  have hne'' : (c.bytes env.xb).drop 96 ≠ [] := List.ne_nil_of_length_pos (by
    rw [List.length_drop]
    omega)
  rw [run_cons, run_cons, run_cons, run_nil, poll_of_ne hne, poll_of_ne hne', poll_of_ne hne'', hone,
    htwo, receive_plain rfl]
  rfl

end Arrivals

/-! ### A handshake that is lost -/

/-- The sample's key is one of 96 bytes. Source: `mse/encryptedserverauthenticate.cpp`. Kind: L -/
theorem length_sampleKey : (128 :: List.replicate 95 (0 : UInt8)).length = 96 := rfl

/-- No padding is short enough. Source: `mse/encryptedserverauthenticate.cpp`. Kind: L -/
theorem length_noPadding : ([] : List UInt8).length ≤ 512 := Nat.zero_le 512

/-- A handshake without padding, with a plain handshake as its payload and four bytes behind it.
Kind: D -/
def sample : ClientStream where
  ya := 128 :: List.replicate 95 0
  padA := []
  skey := Vector.replicate 20 7
  provide := 2
  padC := []
  ia := AuthenticateBase.pstr ++ List.replicate 8 0 ++ List.replicate 20 7 ++ List.replicate 20 1
  rest := [0, 0, 0, 0]
  length_ya := length_sampleKey
  length_padA := length_noPadding
  provide_lt := by decide
  length_padC := length_noPadding
  length_ia := by decide

/-- The peer manager of the only torrent. Kind: D -/
def samplePman (info_hash : List UInt8) : Option Pman :=
  if info_hash = List.replicate 20 7 then some ⟨List.replicate 20 2, fun _ => false⟩ else none

/-- A server with one torrent that allows plain connections, and the private key 1. Kind: D -/
def sampleEnv : Env where
  server := ⟨[Vector.replicate 20 7], true⟩
  xb := 1
  yb := 2 :: List.replicate 95 0
  stack := fun _ _ => Vector.replicate 96 0
  handshakeRecieved := ServerAuthenticate.handshakeRecieved false samplePman

/-- The sample's keys and hashes fit together. Source: `mse/encryptedserverauthenticate.cpp`.
Kind: L -/
theorem followed_sample : Followed sampleEnv sample where
  known := List.find?_cons_of_pos (decide_eq_true rfl)
  full := by
    unfold Full digits
    rw [List.length_reverse, List.length_map, Nat.length_digits 256 _ (by decide)
      (by decide +kernel)]
    decide +kernel
  rc4 := by decide
  payload := by decide
  fits := by decide
  first := fun i hi hlt => absurd hlt (not_lt.mpr hi)

/-- The sample's bytes are counted. Source: `mse/encryptedserverauthenticate.cpp`. Kind: L -/
theorem length_sample : (sample.bytes sampleEnv.xb).length = 224 := by
  rw [followed_sample.length_bytes, plainText, List.length_append, sample.length_message]
  rfl

/-- **A valid handshake that is lost**: the last 16 bytes of Ya come by themselves.
Source: `mse/encryptedserverauthenticate.cpp`. Kind: P -/
theorem split_lost : Followed sampleEnv sample ∧
    ∃ ds : List (List UInt8), ds.flatten = sample.bytes sampleEnv.xb ∧ (∀ d ∈ ds, d ≠ []) ∧
      68 < (ds.headD []).length ∧ ¬ Served sampleEnv sample (run (poll sampleEnv) make ds) := by
  have hlen := length_sample
  have hB : ((sample.bytes sampleEnv.xb).drop 80).take 16 ++ (sample.bytes sampleEnv.xb).drop 96 =
      (sample.bytes sampleEnv.xb).drop 80 := by
    rw [← List.drop_drop (i := 16) (j := 80), List.take_append_drop]
  refine ⟨followed_sample, [(sample.bytes sampleEnv.xb).take 80,
    ((sample.bytes sampleEnv.xb).drop 80).take 16, (sample.bytes sampleEnv.xb).drop 96],
    ?_, ?_, ?_, ?_⟩
  · rw [List.flatten_cons, List.flatten_cons, List.flatten_cons, List.flatten_nil, List.append_nil,
      hB, List.take_append_drop]
  · intro d hd
    simp only [List.mem_cons, List.not_mem_nil, or_false] at hd
    apply List.ne_nil_of_length_pos
    obtain rfl | rfl | rfl := hd
    all_goals
      simp only [List.length_take, List.length_drop]
      omega
  · show 68 < ((sample.bytes sampleEnv.xb).take 80).length
    rw [List.length_take]
    omega
  · intro hserved
    have hsent := hserved.sent
    rw [split_unanswered followed_sample (AuthenticateBase.decisive_server false samplePman) rfl]
      at hsent
    exact absurd hsent.symm (List.cons_ne_nil _ _)

/-- The same handshake in four pieces, with a poll in between: the first ends within the padding
that might be there, the second within the offer, the third within the payload.
Source: `mse/encryptedserverauthenticate.cpp`. Kind: L -/
theorem served_run_sample : Served sampleEnv sample (run (poll sampleEnv) make
    [(sample.bytes sampleEnv.xb).take 100, ((sample.bytes sampleEnv.xb).drop 100).take 40, [],
      ((sample.bytes sampleEnv.xb).drop 140).take 20, (sample.bytes sampleEnv.xb).drop 160]) := by
  have hlen := length_sample
  have hstart : sample.start = 96 := rfl
  have hpadC : sample.padC.length = 0 := rfl
  have hia : sample.ia.length = 68 := rfl
  have htotal : sample.total = 220 := rfl
  have h100 : ((sample.bytes sampleEnv.xb).take 100).length = 100 := by
    rw [List.length_take]
    omega
  have h40 : (((sample.bytes sampleEnv.xb).drop 100).take 40).length = 40 := by
    rw [List.length_take, List.length_drop]
    omega
  have h20 : (((sample.bytes sampleEnv.xb).drop 140).take 20).length = 20 := by
    rw [List.length_take, List.length_drop]
    omega
  have h160 : ((sample.bytes sampleEnv.xb).drop 160).length = 64 := by
    rw [List.length_drop]
    omega
  have henv : sampleEnv.handshakeRecieved = ServerAuthenticate.handshakeRecieved false samplePman := rfl
  refine served_run henv followed_sample ?_ ?_
  · have hflat : ∀ l : List UInt8, [l.take 100, (l.drop 100).take 40, [], (l.drop 140).take 20,
        l.drop 160].flatten = l := by
      intro l
      have hA : l.drop 160 = (l.drop 140).drop 20 :=
        (List.drop_drop (i := 20) (j := 140)).symm
      have hB : l.drop 140 = (l.drop 100).drop 40 :=
        (List.drop_drop (i := 40) (j := 100)).symm
      simp only [List.flatten_cons, List.flatten_nil, List.append_nil, List.nil_append]
      rw [hA, List.take_append_drop, hB, List.take_append_drop, List.take_append_drop]
    exact hflat _
  · rw [meets_cons, meets_cons, meets_cons, meets_cons, meets_cons, h100, h40, h20]
    refine ⟨fun _ => ⟨?_, ?_, ?_, ?_, ?_⟩, fun _ => ⟨?_, ?_, ?_, ?_, ?_⟩, fun h => absurd rfl h,
      fun _ => ⟨?_, ?_, ?_, ?_, ?_⟩, fun _ => ⟨?_, ?_, ?_, ?_, ?_⟩, trivial⟩
    all_goals
      intros
      simp only [List.length_nil, hstart, hpadC, hia, htotal, h100, h40, h20, h160] at *
      omega

end EncryptedServerAuthenticate

end KTorrent.Mse
