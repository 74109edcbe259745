import KTorrent.Mse.EncryptedAuthenticate
import KTorrent.Mse.PlainHandshake
import Mathlib.Data.Nat.Digits.Lemmas

/-!
# A valid reply in pieces

What the side that makes the connection makes of a valid reply that arrives in any number of pieces.

* `ServerStream` — the bytes of the side that was contacted, as the protocol lays them out.
* `Synced` — the outcome the protocol means: the constant is found where it is, the method is the one
  selected, and the plain handshake reads what follows pad D, decrypted once.
* `gotYB` … `waitPadD` — the states the authentication passes through, each given outright by the
  number of bytes that have arrived; one lemma for each handler says which of them it leads to.
* `synced_run` — the outcome is reached for every split whose pieces satisfy `Aligned`.
* `reply_lost` — a split on which the search for the constant gives up too early.

Source: `mse/encryptedauthenticate.cpp`
-/

namespace KTorrent.Mse

open KTorrent.Lib KTorrent.Util KTorrent.Storage
open StreamSocket (arrive)

/-! ### What the other side sends -/

/-- The parts of what the side that was contacted sends. Kind: D -/
structure ServerStream where
  yb : List UInt8
  padB : List UInt8
  /-- RC4 is selected, and not the plain method. -/
  rc4 : Bool
  padD : List UInt8
  /-- What follows the handshake. -/
  rest : List UInt8
  length_yb : yb.length = 96
  length_padB : padB.length ≤ 512
  length_padD : padD.length ≤ 512

namespace ServerStream

variable (xa : ℕ) (skey : SHA1Hash) (c : ServerStream)

/-- The secret, for the private key of the side that makes the connection. Kind: D -/
def number : ℕ := DHSecret xa (fromBuffer c.yb)

/-- The secret as it is hashed. Kind: D -/
def secret : List UInt8 := secretBytes (c.number xa)

/-- The key stream of the side that was contacted, past the first 1024 bytes. Kind: D -/
def keyB : RC4 := (RC4.make (EncryptionKey false (c.secret xa) skey).toList).advance 1024

/-- Where the constant stands. Kind: D -/
def vc : ℕ := 96 + c.padB.length

/-- Where the handshake ends. Kind: D -/
def finish : ℕ := c.vc + 14 + c.padD.length

/-- The method selected. Kind: D -/
def select : ℕ := if c.rc4 then 2 else 1

/-- What is sent before the encrypted part. Kind: D -/
def head : List UInt8 := c.yb ++ c.padB

/-- The constant, the method selected and the length of pad D. Kind: D -/
def choice : List UInt8 := zeros 8 ++ uint32Bytes c.select ++ uint16Bytes c.padD.length

/-- What is encrypted in any case. Kind: D -/
def message : List UInt8 := c.choice ++ c.padD

/-- What follows, encrypted if RC4 is selected. Kind: D -/
def tail : List UInt8 :=
  if c.rc4 then ((c.keyB xa skey).advance c.message.length).process c.rest else c.rest

/-- The stream of the side that was contacted. Kind: D -/
def bytes : List UInt8 := c.head ++ (c.keyB xa skey).process c.message ++ c.tail xa skey

/-- The constant as it is sent. Kind: D -/
def constant : List UInt8 := (c.keyB xa skey).process (zeros 8)

/-- The key, and pad B. Source: `mse/encryptedauthenticate.cpp`. Kind: L -/
theorem length_head : c.head.length = c.vc := by
  rw [head, List.length_append, c.length_yb, vc]

/-- The verification constant, the method and the length of pad D.
Source: `mse/encryptedauthenticate.cpp`. Kind: L -/
theorem length_choice : c.choice.length = 14 := by
  simp only [choice, List.length_append, length_zeros, length_uint32Bytes, length_uint16Bytes]

/-- With pad D. Source: `mse/encryptedauthenticate.cpp`. Kind: L -/
theorem length_message : c.message.length = 14 + c.padD.length := by
  rw [message, List.length_append, length_choice]

/-- The method has 32 bits. Source: `mse/encryptedauthenticate.cpp`. Kind: L -/
theorem select_lt : c.select < 2 ^ 32 := by
  unfold select
  split_ifs <;> decide

/-- All bytes: up to the end of the message, and what follows.
Source: `mse/encryptedauthenticate.cpp`. Kind: L -/
theorem length_bytes : (c.bytes xa skey).length = c.finish + (c.tail xa skey).length := by
  simp only [bytes, List.length_append, RC4.length_process, length_head, length_message, finish]
  omega

/-- What follows is as long encrypted as plain. Source: `mse/encryptedauthenticate.cpp`. Kind: L -/
theorem length_tail : (c.tail xa skey).length = c.rest.length := by
  unfold tail
  split_ifs
  · exact RC4.length_process _ _
  · rfl

/-- Any front of the bytes begins what the server sends. Source: `mse/encryptedauthenticate.cpp`.
Kind: L -/
theorem begins (m : ℕ) :
    Begins c.head c.message (c.tail xa skey) (c.keyB xa skey) ((c.bytes xa skey).take m) :=
  List.take_prefix _ _

end ServerStream

namespace EncryptedAuthenticate

/-- **The outcome of a reply**: the constant was found where it is, the method is the one selected,
and the plain handshake has come to what it comes to with the bytes that follow pad D: these are the
bytes it has read and has still to read, decrypted once. Kind: D -/
structure Synced (env : Env) (c : ServerStream) (a : EncryptedAuthenticate) : Prop where
  vc_off : a.vc_off = c.vc
  crypto_select : a.crypto_select = c.select
  method : a.base.Method c.rc4
  took : a.base.Took env.handshakeRecieved c.rest []

/-- What the stream has to be for the code to follow the reply: the secret takes all its bytes, and
the constant does not stand in the padding before it. Kind: D -/
structure Followed (env : Env) (c : ServerStream) : Prop where
  full : Full (c.number env.xa)
  first : ∀ i, 96 ≤ i → i < c.vc →
    ((c.bytes env.xa env.info_hash).drop i).take 8 ≠ c.constant env.xa env.info_hash

/-- **A piece that does not end at a bad place**, when `n` bytes have arrived before it: it does not
end at byte 616 if that is where the constant ends; one that arrives when a part of pad D has brings
the rest of it; and one that brings bytes from behind pad D into the buffer, to be decrypted, brings
the 48 bytes that the plain handshake waits for, or there are fewer in all, and does not fill the
buffer up with fewer than 68 of them in it. Kind: D -/
structure Aligned (c : ServerStream) (n : ℕ) (d : List UInt8) : Prop where
  vc : 616 ≤ n + d.length → c.vc + 8 < n + d.length
  padD : c.vc + 14 < n → n < c.finish → c.finish ≤ n + d.length
  handshake : c.rc4 = true → n < c.vc + 15 → c.finish < n + d.length → 48 ≤ c.rest.length →
    c.finish + 48 ≤ n + d.length ∧
      (n + d.length ≤ MAX_EA_BUF_SIZE ∨ c.finish + 68 ≤ MAX_EA_BUF_SIZE)

/-! ### The states of the authentication -/

section States

variable (env : Env) (c : ServerStream)

/-- The stream of the reply. Kind: D -/
def stream : List UInt8 := c.bytes env.xa env.info_hash

/-- The key streams, with `k` bytes decrypted. Kind: D -/
def rc4At (k : ℕ) : RC4Encryptor :=
  ⟨((RC4.make (EncryptionKey true (c.secret env.xa) env.info_hash).toList).advance 1024).advance
    (offer env).length, (c.keyB env.xa env.info_hash).advance k⟩

/-- Yb is complete, and the constant is not. Kind: D -/
def gotYB (n : ℕ) : EncryptedAuthenticate where
  base := .fresh (((stream env c).take n).drop (min n MAX_EA_BUF_SIZE))
  state := .gotYB
  buf := (stream env c).take (min n MAX_EA_BUF_SIZE)
  yb := fromBuffer c.yb
  s := c.number env.xa
  enc := EncryptionKey true (c.secret env.xa) env.info_hash
  dec := EncryptionKey false (c.secret env.xa) env.info_hash
  our_rc4 := some (rc4At env c 0)
  sent := [env.ya, (req1Hash (c.secret env.xa)).toList,
    (xorHash (req2Hash env.info_hash) (req3Hash (c.secret env.xa))).toList,
    ((RC4Encryptor.make (EncryptionKey false (c.secret env.xa) env.info_hash)
      (EncryptionKey true (c.secret env.xa) env.info_hash)).encrypt (offer env)).1]

/-- The constant was found, and what was selected is not complete. Kind: D -/
def foundVC (n : ℕ) : EncryptedAuthenticate where
  __ := gotYB env c n
  state := .foundVC
  vc_off := c.vc

/-- Pad D is not complete, or nothing behind it has been read. Kind: D -/
def waitPadD (n : ℕ) : EncryptedAuthenticate where
  __ := foundVC env c n
  state := .waitForPadD
  buf := partly c.head c.message ((stream env c).take (min n MAX_EA_BUF_SIZE)) 14
  our_rc4 := some (rc4At env c 14)
  crypto_select := c.select
  pad_D_len := c.padD.length

/-- The socket was handed on after pad D: the plain handshake reads what has arrived after pad D, or
has not been called yet and nothing was reinserted. Kind: D -/
structure Handed (n : ℕ) (a : EncryptedAuthenticate) : Prop where
  state : a.state = .normalHandshake
  vc_off : a.vc_off = c.vc
  crypto_select : a.crypto_select = c.select
  method : a.base.Method c.rc4
  kept : a.base.Kept env.handshakeRecieved c.rest ((stream env c).drop n) ∨
    ∃ s, a.base.Reading c.rest ((stream env c).drop n) 0 s ∧ s.back = []

/-- What the authentication has come to when `n` bytes have arrived. Kind: D -/
inductive After (n : ℕ) (a : EncryptedAuthenticate) : Prop
  | start (hn : n = 0) (ha : a = connected env make)
  | yb (hn : 96 ≤ n) (hlt : n < c.vc + 9) (ha : a = gotYB env c n)
  | vc (hn : c.vc + 9 ≤ n) (hlt : n < c.vc + 15) (ha : a = foundVC env c n)
  | padD (hn : c.vc + 15 ≤ n) (hle : min n MAX_EA_BUF_SIZE ≤ c.finish) (ha : a = waitPadD env c n)
  | done (hn : c.finish ≤ n) (ha : Handed env c n a)

end States

/-! ### The fields in the buffer -/

section Fields

variable (c : ServerStream) (raw : List UInt8)

/-- The buffer when the choice has been decrypted. Source: `mse/encryptedauthenticate.cpp`.
Kind: L -/
theorem partly_choice : partly c.head c.message raw 14 =
    c.head ++ zeros 8 ++ uint32Bytes c.select ++ uint16Bytes c.padD.length ++
      raw.drop (c.head.length + 14) := by
  unfold partly ServerStream.message
  rw [List.take_left' c.length_choice]
  unfold ServerStream.choice
  simp only [List.append_assoc]

/-- The constant is where it was found. Source: `mse/encryptedauthenticate.cpp`. Kind: L -/
theorem constant_partly :
    ((partly c.head c.message raw 14).drop c.vc).take 8 = zeros 8 := by
  rw [partly_choice, List.append_assoc, List.append_assoc, List.append_assoc, ← c.length_head,
    List.drop_left, List.take_left' (length_zeros 8)]

/-- The method selected is read. Source: `mse/encryptedauthenticate.cpp`. Kind: L -/
theorem select_partly : readUint32 (partly c.head c.message raw 14) (c.vc + 8) = c.select := by
  have hfront : (c.head ++ zeros 8).length = c.vc + 8 := by
    rw [List.length_append, c.length_head, length_zeros]
  have hread := readUint32_append (c.head ++ zeros 8) c.select
    (uint16Bytes c.padD.length ++ raw.drop (c.head.length + 14))
  rw [hfront, u32_of_lt c.select_lt, ← List.append_assoc] at hread
  rw [partly_choice, hread]

/-- The length of pad D is read. Source: `mse/encryptedauthenticate.cpp`. Kind: L -/
theorem padD_partly :
    readUint16 (partly c.head c.message raw 14) (c.vc + 12) = c.padD.length := by
  have hfront : (c.head ++ zeros 8 ++ uint32Bytes c.select).length = c.vc + 12 := by
    rw [List.length_append, List.length_append, c.length_head, length_zeros, length_uint32Bytes]
  have hread := readUint16_append (c.head ++ zeros 8 ++ uint32Bytes c.select)
    (c.length_padD.trans_lt (by decide)) (raw.drop (c.head.length + 14))
  rw [hfront] at hread
  rw [partly_choice, hread]

end Fields

/-! ### What the handlers do -/

section Handlers

variable {env : Env} {c : ServerStream}

/-- The socket after pad D, before anything is reinserted. Kind: D -/
def unlocked (rc4 : Bool) (e : RC4Encryptor) (s : StreamSocket) : StreamSocket :=
  { s with enc := if rc4 then some e else s.enc }

/-- `handlePadD` with a method that is known. Source: `EncryptedAuthenticate::handlePadD`.
Kind: L -/
theorem handlePadD_eq {a : EncryptedAuthenticate} {s : StreamSocket} {e e' : RC4Encryptor}
    {buf : List UInt8} {rc4 : Bool} (hs : a.base.sock = some s) (he : a.our_rc4 = some e)
    (hd : e.decryptAt (a.vc_off + 14) a.pad_D_len a.buf = (buf, e'))
    (hselect : a.crypto_select = if rc4 then 2 else 1) :
    (handlePadD env a).state = .normalHandshake ∧ (handlePadD env a).vc_off = a.vc_off ∧
      (handlePadD env a).crypto_select = a.crypto_select ∧
      (handlePadD env a).base =
        if buf.length > a.vc_off + 14 + a.pad_D_len then
          ({ a.base with sock := some ((unlocked rc4 e' s).reinsert
            (buf.drop (a.vc_off + 14 + a.pad_D_len))) } : AuthenticateBase).onReadyRead
              env.handshakeRecieved
        else { a.base with sock := some (unlocked rc4 e' s) } := by
  have hknown : ¬ (a.crypto_select &&& 1 = 0 ∧ a.crypto_select &&& 2 = 0) := by
    rw [hselect]
    cases rc4 <;> decide
  unfold handlePadD
  simp only [he, hd]
  rw [if_neg hknown]
  cases rc4 with
  | true =>
    have hone : ¬ a.crypto_select &&& 1 ≠ 0 := by
      rw [hselect]
      decide
    simp only [if_neg hone, onSock, hs, Option.map_some]
    split_ifs <;> exact ⟨rfl, rfl, rfl, rfl⟩
  | false =>
    have hone : a.crypto_select &&& 1 ≠ 0 := by
      rw [hselect]
      decide
    simp only [if_pos hone, onSock, hs, Option.map_some]
    split_ifs
    · exact ⟨rfl, rfl, rfl, rfl⟩
    · refine ⟨rfl, rfl, rfl, ?_⟩
      rw [unlocked, if_neg Bool.false_ne_true, ← hs]

/-- What follows pad D, decrypted. Source: `mse/encryptedauthenticate.cpp`. Kind: L -/
theorem plain_tail {s : StreamSocket}
    (henc : s.enc = if c.rc4 then some (rc4At env c (14 + c.padD.length)) else none)
    (hraw : s.raw = (stream env c).drop c.finish) : s.plain = c.rest := by
  have hfront : (c.head ++ (c.keyB env.xa env.info_hash).process c.message).length = c.finish := by
    rw [List.length_append, c.length_head, RC4.length_process, c.length_message,
      ServerStream.finish, Nat.add_assoc]
  have htail : s.raw = c.tail env.xa env.info_hash := by
    rw [hraw]
    exact List.drop_left' hfront
  unfold StreamSocket.plain
  rw [henc, htail]
  unfold ServerStream.tail
  cases hrc4 : c.rc4 with
  | false => rfl
  | true =>
    show RC4.process ((c.keyB env.xa env.info_hash).advance (14 + c.padD.length))
      (((c.keyB env.xa env.info_hash).advance c.message.length).process c.rest) = c.rest
    rw [c.length_message, RC4.process_process]

/-- The socket when pad D is complete: what is there of the bytes behind it is read with the key
stream that follows. Source: `mse/encryptedauthenticate.cpp`. Kind: L -/
theorem reading_unlocked {n : ℕ} {s : StreamSocket}
    (henc : s.enc = if c.rc4 then some (rc4At env c (14 + c.padD.length)) else none)
    (hraw : s.raw = ((stream env c).take n).drop c.finish) (hn : n ≤ (stream env c).length)
    (hle : c.finish ≤ n) :
    AuthenticateBase.Reading c.rest ((stream env c).drop n) 0 s
      { AuthenticateBase.fresh [] with sock := some s } := by
  have hall : ((stream env c).take n).drop c.finish ++ (stream env c).drop n =
      (stream env c).drop c.finish := by
    rw [← List.drop_append_of_le_length, List.take_append_drop]
    rw [List.length_take]
    omega
  refine ⟨rfl, rfl, rfl, rfl, .inl rfl, Nat.zero_le _, plain_tail henc ?_⟩
  rw [StreamSocket.raw_arrive, hraw, hall]

/-- What is handed back is not decrypted twice, if the bytes stand as `hopen` says.
Source: `mse/encryptedauthenticate.cpp`. Kind: L -/
theorem smooth_reinserted {n m : ℕ} {s : StreamSocket}
    (henc : s.enc = if c.rc4 then some (rc4At env c (14 + c.padD.length)) else none)
    (hback : s.back = ((stream env c).take m).drop c.finish)
    (hsock : s.sock = ((stream env c).take n).drop m) (hm : c.finish < m) (hle : m ≤ n)
    (hn : n ≤ (stream env c).length)
    (hopen : c.rc4 = true → 48 ≤ c.rest.length → c.finish + 48 ≤ n ∧ (m = n ∨ c.finish + 68 ≤ m))
    (hr : AuthenticateBase.Reading c.rest ((stream env c).drop n) 0 s
      { AuthenticateBase.fresh [] with sock := some s }) :
    AuthenticateBase.Smooth ((stream env c).drop n) s := by
  intro hmany
  have hsum := hr.length
  rw [Nat.zero_add] at hsum
  have hrawlen : s.raw.length = n - c.finish := by
    rw [StreamSocket.raw, hback, hsock, drop_take_append hm.le hle, List.length_drop,
      List.length_take, min_eq_left hn]
  cases hrc : c.rc4 with
  | false =>
    left
    rw [henc, hrc]
    rfl
  | true =>
    obtain ⟨h48, hor⟩ := hopen hrc (hsum ▸ hmany)
    refine .inr (.inr ⟨by omega, ?_⟩)
    rcases hor with rfl | h68
    · right
      rw [hsock]
      exact List.drop_eq_nil_of_le (List.length_take_le _ _)
    · left
      rw [hback, List.length_drop, List.length_take, min_eq_left (hle.trans hn)]
      omega

/-- Pad D is complete. Source: `EncryptedAuthenticate::handlePadD`. Kind: L -/
theorem handlePadD_spec (hv : AuthenticateBase.Decisive env.handshakeRecieved) {n m : ℕ}
    {a : EncryptedAuthenticate} (hn : n ≤ (stream env c).length)
    (hm : c.finish ≤ m) (hle : m ≤ n)
    (hopen : c.finish < m → c.rc4 = true → 48 ≤ c.rest.length →
      c.finish + 48 ≤ n ∧ (m = n ∨ c.finish + 68 ≤ m))
    (hbase : a.base = .fresh (((stream env c).take n).drop m))
    (hbuf : a.buf = partly c.head c.message ((stream env c).take m) 14)
    (hrc4 : a.our_rc4 = some (rc4At env c 14)) (hvc : a.vc_off = c.vc)
    (hselect : a.crypto_select = c.select) (hpad : a.pad_D_len = c.padD.length) :
    Handed env c n (handlePadD env a) := by
  have hraw : ((stream env c).take m).length = m := by
    rw [List.length_take, min_eq_left (hle.trans hn)]
  have hfinish : c.finish = c.head.length + (14 + c.padD.length) := by
    rw [c.length_head, ServerStream.finish, Nat.add_assoc]
  have hlong : c.head.length + (14 + c.padD.length) ≤ ((stream env c).take m).length := by
    rw [hraw, ← hfinish]
    exact hm
  have hdec := decryptAt_partly (c.begins env.xa env.info_hash m) c.length_message.ge hlong
    (rc4At env c 0).enc
  have hd : (rc4At env c 14).decryptAt (a.vc_off + 14) a.pad_D_len a.buf =
      (partly c.head c.message ((stream env c).take m) (14 + c.padD.length),
        rc4At env c (14 + c.padD.length)) := by
    rw [hvc, hpad, hbuf, ← c.length_head]
    exact hdec
  have hlen' : (partly c.head c.message ((stream env c).take m) (14 + c.padD.length)).length = m := by
    rw [length_partly c.length_message.ge hlong, hraw]
  obtain ⟨t, ht⟩ : ∃ t : StreamSocket, t = ⟨none, none, ((stream env c).take n).drop m⟩ := ⟨_, rfl⟩
  have hs : a.base.sock = some t := by
    rw [hbase, ht]
    rfl
  obtain ⟨h1, h2, h3, h4⟩ := @handlePadD_eq env a _ _ _ _ _ hs hrc4 hd (hselect.trans rfl)
  have hoff : a.vc_off + 14 + a.pad_D_len = c.finish := by rw [hvc, hpad, ServerStream.finish]
  rw [hlen', hoff, hbase] at h4
  have henc : (unlocked c.rc4 (rc4At env c (14 + c.padD.length)) t).enc =
      if c.rc4 then some (rc4At env c (14 + c.padD.length)) else none := by
    rw [ht]
    rfl
  have hsome : (unlocked c.rc4 (rc4At env c (14 + c.padD.length)) t).enc.isSome = c.rc4 := by
    rw [henc]
    cases c.rc4 <;> rfl
  have hrest : ((stream env c).take m).drop c.finish ++ ((stream env c).take n).drop m =
      ((stream env c).take n).drop c.finish := drop_take_append hm hle
  by_cases hmore : m > c.finish
  · rw [if_pos hmore] at h4
    obtain ⟨s, hs'⟩ : ∃ s, s = (unlocked c.rc4 (rc4At env c (14 + c.padD.length)) t).reinsert
        ((partly c.head c.message ((stream env c).take m) (14 + c.padD.length)).drop c.finish) :=
      ⟨_, rfl⟩
    have hback : s.back = ((stream env c).take m).drop c.finish := by
      have hdrop : (partly c.head c.message ((stream env c).take m) (14 + c.padD.length)).drop
          c.finish = ((stream env c).take m).drop c.finish := by
        rw [hfinish]
        exact drop_partly c.length_message.ge
      rw [hs', ht]
      exact hdrop
    have hsock : s.sock = ((stream env c).take n).drop m := by
      rw [hs', ht]
      rfl
    have hsenc : s.enc = (unlocked c.rc4 (rc4At env c (14 + c.padD.length)) t).enc := by
      rw [hs', ht]
      rfl
    have hsraw : s.raw = ((stream env c).take n).drop c.finish := by
      rw [StreamSocket.raw, hback, hsock, hrest]
    have hr := reading_unlocked (hsenc.trans henc) hsraw hn (hm.trans hle)
    have hsmooth := smooth_reinserted (hsenc.trans henc) hback hsock hmore hle hn (hopen hmore) hr
    have hrawlen : s.raw.length = n - c.finish := by
      rw [hsraw, List.length_drop, List.length_take, min_eq_left hn]
    have hne : s.raw ≠ [] := List.ne_nil_of_length_pos (by omega)
    rw [← hs'] at h4
    refine ⟨h1, h2.trans hvc, h3.trans hselect, ?_, ?_⟩
    · rw [h4]
      refine AuthenticateBase.Method.onReadyRead fun u hu => ?_
      obtain rfl : s = u := Option.some.inj hu
      rw [hsenc, hsome]
    · rw [h4]
      exact .inl (hr.onReadyRead hv hne hsmooth)
  · rw [if_neg hmore] at h4
    have hsraw : (unlocked c.rc4 (rc4At env c (14 + c.padD.length)) t).raw =
        ((stream env c).take n).drop c.finish := by
      rw [ht, show c.finish = m by omega]
      rfl
    refine ⟨h1, h2.trans hvc, h3.trans hselect, ?_,
      .inr ⟨unlocked c.rc4 (rc4At env c (14 + c.padD.length)) t, ?_, ?_⟩⟩
    · rw [h4]
      intro u hu
      obtain rfl := Option.some.inj hu
      exact hsome
    · rw [h4]
      exact reading_unlocked henc hsraw hn (hm.trans hle)
    · rw [ht]
      rfl

/-- `handleCryptoSelect` with what was selected complete.
Source: `EncryptedAuthenticate::handleCryptoSelect`. Kind: L -/
theorem handleCryptoSelect_eq {a : EncryptedAuthenticate} {e e' : RC4Encryptor} {buf : List UInt8}
    {select pad_D_len : ℕ} (hlong : a.vc_off + 14 < a.buf.length) (he : a.our_rc4 = some e)
    (hd : e.decryptAt a.vc_off 14 a.buf = (buf, e'))
    (hvc : (buf.drop a.vc_off).take 8 = zeros 8)
    (hselect : readUint32 buf (a.vc_off + 8) = select)
    (hpad : readUint16 buf (a.vc_off + 12) = pad_D_len) (hle : pad_D_len ≤ 512) :
    handleCryptoSelect env a =
      let a' := { a with
        buf := buf
        our_rc4 := some e'
        crypto_select := select
        pad_D_len := pad_D_len }
      if ¬ a.vc_off + 14 + pad_D_len < buf.length then { a' with state := .waitForPadD }
      else handlePadD env a' := by
  unfold handleCryptoSelect
  rw [if_neg (not_le.mpr hlong)]
  simp only [he, hd, hvc, hselect, hpad, ne_eq, not_true_eq_false, if_false]
  exact if_neg (not_lt.mpr hle)

/-- What was selected is complete. Source: `EncryptedAuthenticate::handleCryptoSelect`. Kind: L -/
theorem handleCryptoSelect_found {n : ℕ} (hn : n ≤ (stream env c).length) (hvc : c.vc + 15 ≤ n) :
    handleCryptoSelect env (foundVC env c n) =
      if ¬ c.finish < min n MAX_EA_BUF_SIZE then waitPadD env c n
      else handlePadD env { waitPadD env c n with state := .foundVC } := by
  have hM : MAX_EA_BUF_SIZE = 1134 := rfl
  have hpadB := c.length_padB
  have hvcdef : c.vc = 96 + c.padB.length := rfl
  have hlen : ((stream env c).take (min n MAX_EA_BUF_SIZE)).length = min n MAX_EA_BUF_SIZE := by
    rw [List.length_take]
    omega
  have hbegins := c.begins env.xa env.info_hash (min n MAX_EA_BUF_SIZE)
  have hdec := decryptAt_partly (k := 0) hbegins (by rw [c.length_message]; omega : 0 + 14 ≤ _)
    (by
      show _ ≤ ((stream env c).take (min n MAX_EA_BUF_SIZE)).length
      rw [c.length_head, hlen]
      omega) (rc4At env c 0).enc
  rw [partly_zero hbegins (by
    show _ ≤ ((stream env c).take (min n MAX_EA_BUF_SIZE)).length
    rw [c.length_head, hlen]
    omega), Nat.add_zero, Nat.zero_add, c.length_head] at hdec
  have hlong : c.vc + 14 < ((stream env c).take (min n MAX_EA_BUF_SIZE)).length := by omega
  have hlen' : (partly c.head c.message
      ((c.bytes env.xa env.info_hash).take (min n MAX_EA_BUF_SIZE)) 14).length =
        min n MAX_EA_BUF_SIZE := by
    refine (length_partly ?_
      (?_ : _ ≤ ((stream env c).take (min n MAX_EA_BUF_SIZE)).length)).trans hlen
    · rw [c.length_message]
      exact Nat.le_add_right 14 _
    · rw [c.length_head, hlen]
      omega
  rw [handleCryptoSelect_eq (a := foundVC env c n) hlong rfl hdec (constant_partly c _)
    (select_partly c _) (padD_partly c _) c.length_padD]
  dsimp only
  rw [hlen']
  rfl

/-- The constant has been found. Source: `EncryptedAuthenticate::handleCryptoSelect`. Kind: L -/
theorem handleCryptoSelect_spec (hv : AuthenticateBase.Decisive env.handshakeRecieved) {n : ℕ}
    (hn : n ≤ (stream env c).length) (hvc : c.vc + 9 ≤ n)
    (hopen : c.rc4 = true → c.finish < n → 48 ≤ c.rest.length →
      c.finish + 48 ≤ n ∧ (n ≤ MAX_EA_BUF_SIZE ∨ c.finish + 68 ≤ MAX_EA_BUF_SIZE)) :
    After env c n (handleCryptoSelect env (foundVC env c n)) := by
  have hM : MAX_EA_BUF_SIZE = 1134 := rfl
  have hpadB := c.length_padB
  have hvcdef : c.vc = 96 + c.padB.length := rfl
  rcases lt_or_ge n (c.vc + 15) with hlt | hge
  · have hshort : handleCryptoSelect env (foundVC env c n) = foundVC env c n := by
      refine if_pos (?_ : c.vc + 14 ≥ ((stream env c).take (min n MAX_EA_BUF_SIZE)).length)
      rw [List.length_take]
      omega
    rw [hshort]
    exact .vc hvc hlt rfl
  · rw [handleCryptoSelect_found hn hge]
    split_ifs with hgo
    · refine .done (by omega) (handlePadD_spec hv hn hgo.le (Nat.min_le_left _ _) ?_ rfl rfl rfl rfl
        rfl rfl)
      intro hmore hrc4 hmany
      have h48 := hopen hrc4 (by omega) hmany
      omega
    · exact .padD hge (not_lt.mp hgo) rfl

/-- Looking at 8 bytes of the buffer. Source: `mse/encryptedauthenticate.cpp`. Kind: L -/
theorem window_eq {n i : ℕ} (hi : i + 8 ≤ min n MAX_EA_BUF_SIZE) :
    (((stream env c).take (min n MAX_EA_BUF_SIZE)).drop i).take 8 =
      ((stream env c).drop i).take 8 := by
  rw [List.drop_take, List.take_take, min_eq_left (by omega)]

/-- The constant in its place. Source: `mse/encryptedauthenticate.cpp`. Kind: L -/
theorem drop_vc : ((stream env c).drop c.vc).take 8 = c.constant env.xa env.info_hash := by
  have hlen : (c.constant env.xa env.info_hash).length = 8 := by
    rw [ServerStream.constant, RC4.length_process, length_zeros]
  unfold stream ServerStream.bytes ServerStream.message ServerStream.choice
  rw [List.append_assoc, ← c.length_head, List.drop_left, List.append_assoc, List.append_assoc,
    RC4.process_append, List.append_assoc]
  exact List.take_left' hlen

/-- The buffer while Yb is the last thing known. Source: `mse/encryptedauthenticate.cpp`. Kind: L -/
theorem length_gotYB {n : ℕ} (hn : n ≤ (stream env c).length) :
    (gotYB env c n).buf.length = min n MAX_EA_BUF_SIZE := by
  show ((stream env c).take _).length = _
  rw [List.length_take]
  exact min_eq_left ((min_le_left _ _).trans hn)

/-- The constant the search looks for. Source: `mse/encryptedauthenticate.cpp`. Kind: L -/
theorem constant_gotYB (n : ℕ) : (RC4Encryptor.encrypt (zeros 8)
    (.make (gotYB env c n).enc (gotYB env c n).dec)).1 = c.constant env.xa env.info_hash := by
  rw [RC4Encryptor.encrypt, RC4Encryptor.make, gotYB, ServerStream.constant, ServerStream.keyB]

/-- The constant does not stand in the padding. Source: `mse/encryptedauthenticate.cpp`. Kind: L -/
theorem not_constant (hc : Followed env c) {n i : ℕ} (hi : 96 ≤ i) (hlt : i < c.vc)
    (hend : i + 8 ≤ min n MAX_EA_BUF_SIZE) :
    ((gotYB env c n).buf.drop i).take 8 ≠ c.constant env.xa env.info_hash := by
  show (((stream env c).take _).drop i).take 8 ≠ _
  rw [window_eq hend]
  exact hc.first i hi hlt

/-- The window of the search does not reach the constant yet.
Source: `EncryptedAuthenticate::findVC`. Kind: L -/
theorem findVC_none (hc : Followed env c) {n : ℕ} (hn : n ≤ (stream env c).length)
    (hle : n ≤ c.vc + 8) : findVC env (gotYB env c n) =
      if n ≥ 616 then (gotYB env c n).onFinish false else gotYB env c n := by
  have hM : MAX_EA_BUF_SIZE = 1134 := rfl
  have hpadB := c.length_padB
  have hvcdef : c.vc = 96 + c.padB.length := rfl
  have hlen : (gotYB env c n).buf.length = n := by
    rw [length_gotYB hn]
    omega
  have hnone : (List.range' 96 (n - 8 - 96)).find? (fun i =>
      decide (((gotYB env c n).buf.drop i).take 8 = c.constant env.xa env.info_hash)) = none := by
    rw [List.find?_range'_eq_none]
    intro i hi hend
    rw [decide_eq_false (not_constant hc hi (by omega) (by omega))]
    rfl
  unfold findVC
  rw [hlen, constant_gotYB]
  dsimp only
  rw [hnone]

/-- The constant is found where it is. Source: `EncryptedAuthenticate::findVC`. Kind: L -/
theorem findVC_found (hc : Followed env c) {n : ℕ} (hn : n ≤ (stream env c).length)
    (hge : c.vc + 9 ≤ n) :
    findVC env (gotYB env c n) = handleCryptoSelect env (foundVC env c n) := by
  have hM : MAX_EA_BUF_SIZE = 1134 := rfl
  have hpadB := c.length_padB
  have hvcdef : c.vc = 96 + c.padB.length := rfl
  have hsome : (List.range' 96 (min n MAX_EA_BUF_SIZE - 8 - 96)).find? (fun i =>
      decide (((gotYB env c n).buf.drop i).take 8 = c.constant env.xa env.info_hash)) =
        some c.vc := by
    rw [List.find?_range'_eq_some]
    refine ⟨?_, ?_, ?_⟩
    · apply decide_eq_true
      show (((stream env c).take _).drop c.vc).take 8 = _
      rw [window_eq (by omega)]
      exact drop_vc
    · rw [List.mem_range'_1]
      omega
    · intro i hi hlt
      rw [decide_eq_false (not_constant hc hi hlt (by omega))]
      rfl
  unfold findVC
  rw [length_gotYB hn, constant_gotYB]
  dsimp only
  rw [hsome]
  rfl

/-- Yb is complete. Source: `EncryptedAuthenticate::findVC`. Kind: L -/
theorem findVC_spec (hc : Followed env c) (hv : AuthenticateBase.Decisive env.handshakeRecieved)
    {n : ℕ} (hn : n ≤ (stream env c).length) (hyb : 96 ≤ n) (hvc : 616 ≤ n → c.vc + 8 < n)
    (hopen : c.rc4 = true → c.finish < n → 48 ≤ c.rest.length →
      c.finish + 48 ≤ n ∧ (n ≤ MAX_EA_BUF_SIZE ∨ c.finish + 68 ≤ MAX_EA_BUF_SIZE)) :
    After env c n (findVC env (gotYB env c n)) := by
  rcases lt_or_ge n (c.vc + 9) with hlt | hge
  · rw [findVC_none hc hn (by omega), if_neg (by omega)]
    exact .yb hyb hlt rfl
  · rw [findVC_found hc hn hge]
    exact handleCryptoSelect_spec hv hn hge hopen

/-- The first bytes have been collected, and the secret is known.
Source: `EncryptedAuthenticate::handleYB`. Kind: L -/
theorem handleYB_eq (hc : Followed env c) {n : ℕ} (hn : n ≤ (stream env c).length) (hyb : 96 ≤ n) :
    handleYB env { connected env make with
      base := .fresh (((stream env c).take n).drop (min n MAX_EA_BUF_SIZE))
      buf := (stream env c).take (min n MAX_EA_BUF_SIZE) } = findVC env (gotYB env c n) := by
  have hM : MAX_EA_BUF_SIZE = 1134 := rfl
  have hlong : ¬ ((stream env c).take (min n MAX_EA_BUF_SIZE)).length < 96 := by
    rw [List.length_take]
    omega
  have htake : ((stream env c).take (min n MAX_EA_BUF_SIZE)).take 96 = c.yb := by
    rw [List.take_take, min_eq_left (by omega)]
    unfold stream ServerStream.bytes ServerStream.head
    rw [List.append_assoc, List.append_assoc, List.take_left' c.length_yb]
  have hsecret : ∀ site, toBuffer (env.stack site).toList (DHSecret env.xa (fromBuffer c.yb)) =
      c.secret env.xa := fun site => toBuffer_eq hc.full Vector.length_toList
  have hrc4 : rc4At env c 0 =
      ((RC4Encryptor.make (EncryptionKey false (c.secret env.xa) env.info_hash)
        (EncryptionKey true (c.secret env.xa) env.info_hash)).encrypt (offer env)).2 := by
    rw [rc4At, RC4.advance_zero, RC4Encryptor.encrypt, RC4Encryptor.make, ServerStream.keyB]
  unfold handleYB
  rw [if_neg hlong]
  simp only [htake, hsecret]
  unfold gotYB
  rw [hrc4]
  rfl

/-- The first bytes have been collected. Source: `EncryptedAuthenticate::handleYB`. Kind: L -/
theorem handleYB_spec (hc : Followed env c) (hv : AuthenticateBase.Decisive env.handshakeRecieved)
    {n : ℕ} (hn : n ≤ (stream env c).length) (hyb : 96 ≤ n) (hvc : 616 ≤ n → c.vc + 8 < n)
    (hopen : c.rc4 = true → c.finish < n → 48 ≤ c.rest.length →
      c.finish + 48 ≤ n ∧ (n ≤ MAX_EA_BUF_SIZE ∨ c.finish + 68 ≤ MAX_EA_BUF_SIZE)) :
    After env c n (handleYB env { connected env make with
      base := .fresh (((stream env c).take n).drop (min n MAX_EA_BUF_SIZE))
      buf := (stream env c).take (min n MAX_EA_BUF_SIZE) }) := by
  rw [handleYB_eq hc hn hyb]
  exact findVC_spec hc hv hn hyb hvc hopen

end Handlers

/-! ### Arrivals -/

section Arrivals

variable {env : Env}

/-- The state with `ba` of the bytes `l` collected. Kind: D -/
def collect (l : List UInt8) (ba : ℕ) (a : EncryptedAuthenticate) : EncryptedAuthenticate :=
  { a with buf := a.buf ++ l.take ba, base := .fresh (l.drop ba) }

/-- Bytes arrive before the socket was handed on. Source: `torrent/authenticationmonitor.cpp`,
`handleData`. Kind: L -/
theorem receive_eq {a : EncryptedAuthenticate} {l d : List UInt8} (hne : l ++ d ≠ [])
    (hbase : a.base = .fresh l) (hhanded : a.handed = none) :
    receive env a d =
      match a.state with
      | .notConnected => collect (l ++ d) (a.toRead (l ++ d).length) a
      | .sentYA =>
        if a.toRead (l ++ d).length > 608 then
          (collect (l ++ d) (a.toRead (l ++ d).length) a).onFinish false
        else handleYB env (collect (l ++ d) (a.toRead (l ++ d).length) a)
      | .gotYB => findVC env (collect (l ++ d) (a.toRead (l ++ d).length) a)
      | .foundVC => handleCryptoSelect env (collect (l ++ d) (a.toRead (l ++ d).length) a)
      | .waitForPadD => handlePadD env (collect (l ++ d) (a.toRead (l ++ d).length) a)
      | .normalHandshake =>
        { a with base := (AuthenticateBase.fresh (l ++ d)).onReadyRead env.handshakeRecieved } := by
  have hpos : (l ++ d).length ≠ 0 := fun h => hne (List.eq_nil_of_length_eq_zero h)
  have hfill : ∀ ba, fill ⟨none, none, l ++ d⟩ ba { a with base := .fresh (l ++ d) } =
      collect (l ++ d) ba a := by
    intro ba
    unfold fill collect
    rw [StreamSocket.readData_plain]
    dsimp only
    rw [List.take_length]
    rfl
  have harrive : receive env a d = onReadyRead env { a with base := .fresh (l ++ d) } := by
    cases a
    subst hbase hhanded
    rfl
  have hba : StreamSocket.bytesAvailable ⟨none, none, l ++ d⟩ = (l ++ d).length := rfl
  have hread : toRead (l ++ d).length { a with base := .fresh (l ++ d) } =
      a.toRead (l ++ d).length := rfl
  rw [harrive]
  unfold onReadyRead
  simp only [AuthenticateBase.fresh] at hfill hread ⊢
  simp only [hba, if_neg hpos, hread, hfill]
  rfl

/-- Bytes arrive after the socket was handed on. Source: `torrent/authenticationmonitor.cpp`,
`handleData`. Kind: L -/
theorem receive_plain {a : EncryptedAuthenticate} (h : a.state = .normalHandshake) (d : List UInt8) :
    receive env a d =
      { a with
        handed := a.handed.map (arrive d)
        base := if a.base.finished then { a.base with sock := a.base.sock.map (arrive d) }
          else ({ a.base with sock := a.base.sock.map (arrive d) } : AuthenticateBase).onReadyRead
            env.handshakeRecieved } := by
  obtain ⟨⟨sock, _, _, finished, _⟩, _, _, _, _, _, _, _, _, _, _, _, _, _⟩ := a
  subst h
  unfold receive onReadyRead
  cases finished with
  | true => rfl
  | false =>
    cases sock with
    | none => rfl
    | some s =>
      by_cases hba : (arrive d s).bytesAvailable = 0
      · unfold AuthenticateBase.onReadyRead onSock
        dsimp only [Option.map_some]
        rw [if_neg Bool.false_ne_true, if_pos hba, if_neg Bool.false_ne_true, if_pos hba]
        rfl
      · unfold onSock
        dsimp only [Option.map_some]
        rw [if_neg Bool.false_ne_true, if_neg hba, if_neg Bool.false_ne_true]

/-- A piece that is not empty is received. Source: `torrent/authenticationmonitor.cpp`, `update`.
Kind: L -/
theorem poll_of_ne {a : EncryptedAuthenticate} {d : List UInt8} (hd : d ≠ []) :
    poll env a d = receive env a d :=
  if_neg fun h => hd h.1

variable {c : ServerStream}

/-- What the plain handshake makes of bytes that follow pad D.
Source: `torrent/authenticationmonitor.cpp`, `handleData`. Kind: L -/
theorem Handed.kept_receive (hv : AuthenticateBase.Decisive env.handshakeRecieved) {n : ℕ}
    {a : EncryptedAuthenticate} {d more : List UInt8} (ha : Handed env c n a)
    (hbytes : (stream env c).drop n = d ++ more)
    (hd : d = [] → ∃ s, a.base.sock = some s ∧ s.sock ≠ []) :
    (receive env a d).base.Kept env.handshakeRecieved c.rest more := by
  have hkept := ha.kept
  rw [hbytes] at hkept
  rw [receive_plain ha.state]
  rcases hkept with hk | ⟨s, hr, hback⟩
  · exact hk.arrive hv hd
  · show AuthenticateBase.Kept _ _ _ (if a.base.finished = true then _ else _)
    rw [if_neg (by rw [hr.finished]; exact Bool.false_ne_true)]
    have hreading : AuthenticateBase.Reading c.rest more 0 (arrive d s)
        { a.base with sock := a.base.sock.map (arrive d) } :=
      ⟨hr.finished, by rw [hr.sock]; rfl, hr.recieved, hr.handshake, hr.part, hr.le,
        by rw [StreamSocket.arrive_arrive]; exact hr.rest⟩
    refine hreading.onReadyRead hv ?_ fun _ => .inr (.inl hback)
    rw [StreamSocket.raw_arrive]
    intro hnil
    obtain ⟨hraw, rfl⟩ := List.append_eq_nil_iff.mp hnil
    obtain ⟨t, ht, htsock⟩ := hd rfl
    obtain rfl := Option.some.inj (hr.sock.symm.trans ht)
    exact htsock (List.append_eq_nil_iff.mp hraw).2

/-- Bytes that follow pad D. Source: `torrent/authenticationmonitor.cpp`, `handleData`. Kind: L -/
theorem Handed.receive (hv : AuthenticateBase.Decisive env.handshakeRecieved) {n : ℕ}
    {a : EncryptedAuthenticate} {d more : List UInt8} (ha : Handed env c n a)
    (hbytes : (stream env c).drop n = d ++ more)
    (hd : d = [] → ∃ s, a.base.sock = some s ∧ s.sock ≠ []) :
    Handed env c (n + d.length) (receive env a d) := by
  have hmore : (stream env c).drop (n + d.length) = more := by
    rw [← List.drop_drop, hbytes, List.drop_left]
  have hkept := ha.kept_receive hv hbytes hd
  rw [← hmore] at hkept
  rw [receive_plain ha.state] at hkept ⊢
  refine ⟨ha.state, ha.vc_off, ha.crypto_select, ?_, .inl hkept⟩
  show AuthenticateBase.Method c.rc4 (if a.base.finished = true then _ else _)
  split_ifs
  · exact ha.method.arrive d
  · exact (ha.method.arrive d).onReadyRead

/-- The rest of pad D is there. Source: `torrent/authenticationmonitor.cpp`, `handleData`.
Kind: L -/
theorem padD_receive (hv : AuthenticateBase.Decisive env.handshakeRecieved) {n : ℕ}
    {d more : List UInt8} (hlen : n + d.length ≤ (stream env c).length)
    (hvc : c.vc + 15 ≤ n) (hle : min n MAX_EA_BUF_SIZE ≤ c.finish)
    (hfinish : c.finish ≤ n + d.length)
    (hne : ((stream env c).take n).drop (min n MAX_EA_BUF_SIZE) ++ d ≠ [])
    (hd : (stream env c).drop n = d ++ more) :
    Handed env c (n + d.length) (receive env (waitPadD env c n) d) := by
  have hM : MAX_EA_BUF_SIZE = 1134 := rfl
  have hpadB := c.length_padB
  have hpadD := c.length_padD
  have hvcdef : c.vc = 96 + c.padB.length := rfl
  have hfdef : c.finish = c.vc + 14 + c.padD.length := rfl
  obtain ⟨m, hm⟩ : ∃ m, m = min n MAX_EA_BUF_SIZE := ⟨_, rfl⟩
  have hrawlen : ((stream env c).take m).length = m := by
    rw [List.length_take]
    omega
  have hlong : c.head.length + 14 ≤ ((stream env c).take m).length := by
    rw [hrawlen, c.length_head]
    omega
  -- what is in the socket
  have hsock : ((stream env c).take n).drop m ++ d = ((stream env c).take (n + d.length)).drop m := by
    rw [List.take_add, hd, List.take_left, List.drop_append_of_le_length]
    rw [List.length_take]
    omega
  have hsocklen : (((stream env c).take n).drop m ++ d).length = n + d.length - m := by
    rw [hsock, List.length_drop, List.length_take]
    omega
  have hread : (waitPadD env c n).toRead (((stream env c).take n).drop m ++ d).length =
      c.finish - m := by
    have hbuf : (waitPadD env c n).buf.length = m := by
      show (partly c.head c.message ((stream env c).take (min n MAX_EA_BUF_SIZE)) 14).length = m
      rw [← hm, length_partly (by rw [c.length_message]; omega) hlong, hrawlen]
    have hpad : (waitPadD env c n).pad_D_len = c.padD.length := rfl
    have hoff : (waitPadD env c n).vc_off = c.vc := rfl
    unfold toRead
    rw [hbuf, hpad, hoff, hsocklen]
    dsimp only
    split_ifs <;> omega
  have htake : (stream env c).take m ++ (((stream env c).take (n + d.length)).drop m).take
      (c.finish - m) = (stream env c).take c.finish := by
    rw [List.drop_take, List.take_take, min_eq_left (by omega), ← List.take_add]
    congr 1
    omega
  rw [receive_eq hne rfl rfl]
  show Handed env c _ (handlePadD env _)
  rw [← hm, hread, hsock]
  refine handlePadD_spec (m := c.finish) hv hlen le_rfl hfinish
    (fun hlt => absurd hlt (lt_irrefl _)) ?_ ?_ rfl rfl rfl rfl
  · show AuthenticateBase.fresh _ = _
    rw [List.drop_drop, Nat.add_sub_cancel' (hm ▸ hle)]
  · show partly c.head c.message ((stream env c).take (min n MAX_EA_BUF_SIZE)) 14 ++ _ = _
    rw [← hm, partly_append _ hlong, htake]

/-- The bytes collected make up the same state for more bytes.
Source: `mse/encryptedauthenticate.cpp`. Kind: L -/
theorem collect_waiting {n : ℕ} {d more : List UInt8} (hn : n ≤ MAX_EA_BUF_SIZE)
    (hbytes : (stream env c).drop n = d ++ more) {a a' : EncryptedAuthenticate}
    (hbuf : a.buf = (stream env c).take (min n MAX_EA_BUF_SIZE))
    (heq : { a with
      buf := (stream env c).take (min (n + d.length) MAX_EA_BUF_SIZE)
      base := .fresh (((stream env c).take (n + d.length)).drop
        (min (n + d.length) MAX_EA_BUF_SIZE)) } = a') :
    collect d (min d.length (MAX_EA_BUF_SIZE - n)) a = a' := by
  obtain ⟨h1, h2⟩ := take_arrived hn hbytes
  unfold collect
  rw [hbuf, h1, h2, heq]

/-- Nothing is left in the socket as long as the buffer is not full.
Source: `mse/encryptedauthenticate.cpp`. Kind: L -/
theorem fresh_eq {n : ℕ} (hn : n ≤ MAX_EA_BUF_SIZE) :
    AuthenticateBase.fresh (((stream env c).take n).drop (min n MAX_EA_BUF_SIZE)) = .fresh [] := by
  rw [min_eq_left hn, List.drop_take, Nat.sub_self, List.take_zero]

/-- **One more piece.**. Source: `torrent/authenticationmonitor.cpp`, `handleData`. Kind: P -/
theorem after_receive (hc : Followed env c)
    (hv : AuthenticateBase.Decisive env.handshakeRecieved) {n : ℕ} {a : EncryptedAuthenticate}
    {d more : List UInt8} (hne : d ≠ []) (hd : (stream env c).drop n = d ++ more)
    (hfirst : n = 0 → 96 ≤ d.length ∧ d.length ≤ 608) (hw : Aligned c n d)
    (ha : After env c n a) : After env c (n + d.length) (receive env a d) := by
  have hM : MAX_EA_BUF_SIZE = 1134 := rfl
  have hpadB := c.length_padB
  have hpadD := c.length_padD
  have hvcdef : c.vc = 96 + c.padB.length := rfl
  have hfdef : c.finish = c.vc + 14 + c.padD.length := rfl
  have hpos := List.length_pos_iff.mpr hne
  have hlen : n + d.length ≤ (stream env c).length := by
    have hsum := congrArg List.length hd
    rw [List.length_drop, List.length_append] at hsum
    omega
  have hread : ∀ a : EncryptedAuthenticate, a.pad_D_len = 0 → a.buf.length = n →
      a.toRead ([] ++ d).length = min d.length (MAX_EA_BUF_SIZE - n) := by
    intro a hpad hbuf
    unfold toRead
    rw [hpad, hbuf]
    exact if_neg fun h => absurd h.1 (lt_irrefl 0)
  have htake : n ≤ MAX_EA_BUF_SIZE →
      ((stream env c).take (min n MAX_EA_BUF_SIZE)).length = n := by
    intro hle
    rw [List.length_take]
    omega
  obtain ⟨hn, rfl⟩ | ⟨hn, hlt, rfl⟩ | ⟨hn, hlt, rfl⟩ | ⟨hn, hle, rfl⟩ | ⟨hn, ha⟩ := ha
  · subst hn
    obtain ⟨h96, h608⟩ := hfirst rfl
    have hcol := collect_waiting (Nat.zero_le _) hd (a := connected env make) rfl rfl
    rw [receive_eq (l := []) hne rfl rfl]
    show After env c _ (if _ > 608 then _ else _)
    rw [hread _ rfl rfl, if_neg (by omega)]
    exact hcol.symm ▸ handleYB_spec hc hv hlen (by omega) hw.vc fun hrc4 =>
      hw.handshake hrc4 (by omega)
  · have hle : n ≤ MAX_EA_BUF_SIZE := by omega
    have hcol := collect_waiting hle hd (a := gotYB env c n) rfl rfl
    rw [receive_eq (l := []) hne (fresh_eq hle) rfl]
    show After env c _ (findVC env _)
    rw [hread _ rfl (htake hle)]
    exact hcol.symm ▸ findVC_spec hc hv hlen (by omega) hw.vc fun hrc4 =>
      hw.handshake hrc4 (by omega)
  · have hle : n ≤ MAX_EA_BUF_SIZE := by omega
    have hcol := collect_waiting hle hd (a := foundVC env c n) rfl rfl
    rw [receive_eq (l := []) hne (fresh_eq hle) rfl]
    show After env c _ (handleCryptoSelect env _)
    rw [hread _ rfl (htake hle)]
    exact hcol.symm ▸ handleCryptoSelect_spec hv hlen (by omega) fun hrc4 =>
      hw.handshake hrc4 (by omega)
  · have hfinish : c.finish ≤ n + d.length := by
      rcases lt_or_ge n c.finish with hlt | hge
      · exact hw.padD (by omega) hlt
      · omega
    exact .done hfinish (padD_receive hv hlen hn hle hfinish
      (List.append_ne_nil_of_right_ne_nil _ hne) hd)
  · exact .done (by omega) (ha.receive hv hd fun h => absurd h hne)

/-- Bytes left in the socket, seen as the socket. Source: `mse/encryptedauthenticate.cpp`.
Kind: L -/
theorem exists_left {a : EncryptedAuthenticate}
    (h : (a.base.sock.map StreamSocket.sock).getD [] ≠ []) :
    ∃ s, a.base.sock = some s ∧ s.sock ≠ [] := by
  cases hs : a.base.sock with
  | none => exact absurd (by rw [hs]; rfl) h
  | some s =>
    rw [hs] at h
    exact ⟨s, rfl, h⟩

/-- One more poll. Source: `mse/encryptedauthenticate.cpp`. Kind: L -/
theorem after_again (hv : AuthenticateBase.Decisive env.handshakeRecieved) {n : ℕ}
    {a : EncryptedAuthenticate} (hn : n ≤ (stream env c).length) (ha : After env c n a) :
    After env c n (poll env a []) := by
  have hM : MAX_EA_BUF_SIZE = 1134 := rfl
  have hpadB := c.length_padB
  have hpadD := c.length_padD
  have hvcdef : c.vc = 96 + c.padB.length := rfl
  have hfdef : c.finish = c.vc + 14 + c.padD.length := rfl
  have hnil : n ≤ MAX_EA_BUF_SIZE →
      ((stream env c).take n).drop (min n MAX_EA_BUF_SIZE) = [] := by
    intro hle
    rw [min_eq_left hle]
    exact List.drop_eq_nil_of_le (List.length_take_le _ _)
  by_cases hleft : (a.base.sock.map StreamSocket.sock).getD [] = []
  · rwa [poll, if_pos ⟨rfl, hleft⟩]
  rw [poll, if_neg fun h => hleft h.2]
  have hd : (stream env c).drop n = ([] : List UInt8) ++ (stream env c).drop n := rfl
  obtain ⟨hn', rfl⟩ | ⟨hn', hlt, rfl⟩ | ⟨hn', hlt, rfl⟩ | ⟨hn', hle, rfl⟩ | ⟨hn', ha⟩ := ha
  · exact absurd rfl hleft
  · exact absurd (hnil (by omega)) hleft
  · exact absurd (hnil (by omega)) hleft
  · have hgt : MAX_EA_BUF_SIZE < n := by
      by_contra h
      exact hleft (hnil (not_lt.mp h))
    have hpadD' := padD_receive (d := []) hv hn hn' hle (show c.finish ≤ n + 0 by omega)
      (by rw [List.append_nil]; exact hleft) hd
    exact .done (by omega) hpadD'
  · exact .done hn' (ha.receive hv hd fun _ => exists_left hleft)

/-- Arrivals and polls, one after the other. Source: `mse/encryptedauthenticate.cpp`. Kind: L -/
theorem after_run (hc : Followed env c) (hv : AuthenticateBase.Decisive env.handshakeRecieved)
    (ds : List (List UInt8)) :
    ∀ (n : ℕ) (a : EncryptedAuthenticate), n ≤ (stream env c).length →
      (stream env c).drop n = ds.flatten →
      (n = 0 → ∀ d ∈ ds.head?, 96 ≤ d.length ∧ d.length ≤ 608) →
      Meets (fun n d => n + d.length) (fun n d => d ≠ [] → Aligned c n d) n ds → After env c n a →
      After env c (n + ds.flatten.length) (run (poll env) a ds) := by
  induction ds with
  | nil => exact fun n a _ _ _ _ ha => ha
  | cons d ds ih =>
    intro n a hlen hbytes hfirst hm ha
    rw [List.flatten_cons] at hbytes
    have hrest : (stream env c).drop (n + d.length) = ds.flatten := by
      rw [← List.drop_drop, hbytes, List.drop_left]
    have hlen' : n + d.length ≤ (stream env c).length := by
      have hsum := congrArg List.length hbytes
      rw [List.length_drop, List.length_append] at hsum
      omega
    rw [run_cons, List.flatten_cons, List.length_append, ← Nat.add_assoc]
    by_cases hd : d = []
    · subst hd
      have hpos : n ≠ 0 := by
        intro hn
        obtain ⟨h96, -⟩ := hfirst hn [] rfl
        exact absurd h96 (by decide)
      exact ih _ _ hlen' hrest (fun hn => absurd hn hpos) hm.2 (after_again hv hlen ha)
    · have hpos := List.length_pos_iff.mpr hd
      rw [poll_of_ne hd]
      exact ih _ _ hlen' hrest (fun hn => absurd hn (by omega)) hm.2
        (after_receive hc hv hd hbytes (fun hn => hfirst hn d rfl) (hm.1 hd) ha)

/-- When all has arrived and there is something behind pad D, a poll hands the socket on if that has
not been done. Source: `mse/encryptedauthenticate.cpp`. Kind: L -/
theorem handed_of_after (hv : AuthenticateBase.Decisive env.handshakeRecieved)
    {a : EncryptedAuthenticate} (hrest : c.rest ≠ []) (ha : After env c (stream env c).length a) :
    Handed env c (stream env c).length (poll env a []) := by
  have hM : MAX_EA_BUF_SIZE = 1134 := rfl
  have hpadB := c.length_padB
  have hpadD := c.length_padD
  have hvcdef : c.vc = 96 + c.padB.length := rfl
  have hfdef : c.finish = c.vc + 14 + c.padD.length := rfl
  have hpos := List.length_pos_iff.mpr hrest
  have hlen : (stream env c).length = c.finish + c.rest.length := by
    unfold stream
    rw [c.length_bytes, c.length_tail]
  have hd : (stream env c).drop (stream env c).length = ([] : List UInt8) ++ [] := by
    rw [List.drop_length]
    rfl
  obtain ⟨hn, -⟩ | ⟨-, hlt, -⟩ | ⟨-, hlt, -⟩ | ⟨hn, hle, rfl⟩ | ⟨hn, ha⟩ := ha
  · omega
  · omega
  · omega
  · have hne : ((stream env c).take (stream env c).length).drop
        (min (stream env c).length MAX_EA_BUF_SIZE) ≠ [] := by
      apply List.ne_nil_of_length_pos
      rw [List.take_length, List.length_drop]
      omega
    rw [poll, if_neg fun h => hne h.2]
    exact padD_receive (d := []) hv le_rfl hn hle (by omega) (by rw [List.append_nil]; exact hne) hd
  · by_cases hleft : (a.base.sock.map StreamSocket.sock).getD [] = []
    · rwa [poll, if_pos ⟨rfl, hleft⟩]
    · rw [poll, if_neg fun h => hleft h.2]
      exact ha.receive hv hd fun _ => exists_left hleft

/-- Once the socket was handed on, a poll leaves nothing to be read that could be.
Source: `mse/encryptedauthenticate.cpp`. Kind: L -/
theorem synced_of_handed (hv : AuthenticateBase.Decisive env.handshakeRecieved)
    {a : EncryptedAuthenticate} (ha : Handed env c (stream env c).length a) :
    Synced env c (poll env a []) := by
  have hd : (stream env c).drop (stream env c).length = ([] : List UInt8) ++ [] := by
    rw [List.drop_length]
    rfl
  by_cases hleft : (a.base.sock.map StreamSocket.sock).getD [] = []
  · rw [poll, if_pos ⟨rfl, hleft⟩]
    refine ⟨ha.vc_off, ha.crypto_select, ha.method, ?_⟩
    have hkept := ha.kept
    rw [hd, List.append_nil] at hkept
    rcases hkept with hk | ⟨s, hr, hback⟩
    · exact hk.took
    · refine .waits hr ?_
      rw [hr.sock] at hleft
      have hsock : s.sock = [] := hleft
      rw [StreamSocket.raw, hback, hsock]
      exact Nat.zero_lt_succ 47
  · rw [poll, if_neg fun h => hleft h.2]
    have hleft' : ([] : List UInt8) = [] → _ := fun _ => exists_left hleft
    have hnext := ha.receive hv hd hleft'
    exact ⟨hnext.vc_off, hnext.crypto_select, hnext.method, (ha.kept_receive hv hd hleft').took⟩

/-- **A valid reply in pieces**: whatever the pieces, and however often the monitor polls in
between, as long as no piece ends at a bad place, the constant is found where it is, the method is
the one selected, and the plain handshake takes what follows pad D. The last two arrivals, without
bytes, stand for the monitor that goes on polling if bytes are left in the socket.
Source: `mse/encryptedauthenticate.cpp`. Kind: P -/
theorem synced_run {blocked : Bool} {info_hash : List UInt8} {pman : Pman}
    (henv : env.handshakeRecieved = Authenticate.handshakeRecieved blocked info_hash pman)
    {ds : List (List UInt8)} (hc : Followed env c) (hrest : c.rest ≠ [])
    (hbytes : ds.flatten = c.bytes env.xa env.info_hash)
    (hfirst : ∀ d ∈ ds.head?, 96 ≤ d.length ∧ d.length ≤ 608)
    (hm : Meets (fun n d => n + d.length) (fun n d => d ≠ [] → Aligned c n d) 0 ds) :
    Synced env c (run (poll env) (connected env make) (ds ++ [[], []])) := by
  have hv : AuthenticateBase.Decisive env.handshakeRecieved := by
    rw [henv]
    exact AuthenticateBase.decisive_client blocked info_hash pman
  have hrun := after_run hc hv ds 0 (connected env make) (Nat.zero_le _)
    (by rw [List.drop_zero, hbytes, stream]) (fun _ => hfirst) hm (.start rfl rfl)
  rw [Nat.zero_add, hbytes] at hrun
  rw [run_append, run_cons, run_cons, run_nil]
  exact synced_of_handed hv (handed_of_after hv hrest hrun)

/-- The search gives up when the constant ends where the first 616 bytes do.
Source: `EncryptedAuthenticate::findVC`. Kind: L -/
theorem findVC_lost (hc : Followed env c) {n : ℕ} (hn : n ≤ (stream env c).length) (hge : 616 ≤ n)
    (hle : n ≤ c.vc + 8) : findVC env (gotYB env c n) = (gotYB env c n).onFinish false := by
  rw [findVC_none hc hn hle]
  exact if_pos hge

/-- Nothing is read after a failure. Source: `mse/encryptedauthenticate.cpp`. Kind: L -/
theorem run_finished (ds : List (List UInt8)) : ∀ a : EncryptedAuthenticate,
    a.base.finished = true → (run (poll env) a ds).base.finished = true ∧
      (run (poll env) a ds).base.handshake = a.base.handshake ∧
      (run (poll env) a ds).base.succes = a.base.succes := by
  induction ds with
  | nil => exact fun a hfin => ⟨hfin, rfl, rfl⟩
  | cons d ds ih =>
    intro a hfin
    have hstep : receive env a d =
        { a.onSock (arrive d) with handed := a.handed.map (arrive d) } := if_pos hfin
    rw [run_cons]
    unfold poll
    split_ifs
    · exact ih a hfin
    · rw [hstep]
      exact ih _ hfin

/-- With the constant at byte 608, a second piece that ends at byte 616 ends the authentication.
Source: `mse/encryptedauthenticate.cpp`. Kind: L -/
theorem split_unanswered (hc : Followed env c)
    (hv : AuthenticateBase.Decisive env.handshakeRecieved) (hvc : c.vc = 608)
    (hlong : 616 ≤ (stream env c).length) (ds : List (List UInt8)) {a : EncryptedAuthenticate}
    (ha : a = run (poll env) (connected env make)
      ((stream env c).take 600 :: ((stream env c).drop 600).take 16 :: ds)) :
    a.base.finished = true ∧ a.base.handshake = List.replicate 68 0 ∧ a.base.succes = false := by
  have hM : MAX_EA_BUF_SIZE = 1134 := rfl
  have h600 : ((stream env c).take 600).length = 600 := by
    rw [List.length_take]
    omega
  have h16 : (((stream env c).drop 600).take 16).length = 16 := by
    rw [List.length_take, List.length_drop]
    omega
  have hne : (stream env c).take 600 ≠ [] := List.ne_nil_of_length_pos (by omega)
  have hne' : ((stream env c).drop 600).take 16 ≠ [] := List.ne_nil_of_length_pos (by omega)
  have hfdef : c.finish = c.vc + 14 + c.padD.length := rfl
  have hw : Aligned c 0 ((stream env c).take 600) := by
    constructor
    all_goals
      intros
      omega
  have hbytes : (stream env c).drop 0 = (stream env c).take 600 ++ (stream env c).drop 600 :=
    (List.take_append_drop 600 _).symm
  have hone := after_receive hc hv hne hbytes (fun _ => by omega) hw (.start rfl rfl)
  rw [h600, Nat.zero_add] at hone
  have hgot : receive env (connected env make) ((stream env c).take 600) = gotYB env c 600 := by
    obtain ⟨hn, -⟩ | ⟨-, -, ha⟩ | ⟨hn, -, -⟩ | ⟨hn, -, -⟩ | ⟨hn, -⟩ := hone
    · omega
    · exact ha
    · omega
    · omega
    · unfold ServerStream.finish at hn
      omega
  have htwo : receive env (gotYB env c 600) (((stream env c).drop 600).take 16) =
      (gotYB env c 616).onFinish false := by
    have hle : 600 ≤ MAX_EA_BUF_SIZE := by decide
    have hd : (stream env c).drop 600 = ((stream env c).drop 600).take 16 ++
        (stream env c).drop 616 := by
      rw [← List.drop_drop (i := 16) (j := 600), List.take_append_drop]
    have hcol := collect_waiting hle hd (a := gotYB env c 600) rfl rfl
    rw [h16] at hcol
    have hread : (gotYB env c 600).toRead ([] ++ ((stream env c).drop 600).take 16).length =
        min 16 (MAX_EA_BUF_SIZE - 600) := by
      have hbuf : (gotYB env c 600).buf.length = 600 := by
        show ((stream env c).take (min 600 MAX_EA_BUF_SIZE)).length = 600
        rw [List.length_take]
        omega
      have hpad : (gotYB env c 600).pad_D_len = 0 := rfl
      rw [List.nil_append, h16]
      unfold toRead
      rw [hpad, hbuf]
      exact if_neg fun h => absurd h.1 (lt_irrefl 0)
    rw [receive_eq (l := []) hne' (fresh_eq hle) rfl]
    show findVC env _ = _
    rw [hread, List.nil_append, hcol]
    exact findVC_lost hc hlong (by omega) (by omega)
  rw [ha, run_cons, run_cons, poll_of_ne hne, poll_of_ne hne', hgot, htwo]
  exact run_finished ds _ rfl

end Arrivals

/-! ### A reply that is lost -/

/-- A reply without padding that selects RC4, with a plain handshake and four bytes behind it.
Kind: D -/
def shortSample : ServerStream where
  yb := 128 :: List.replicate 95 0
  padB := []
  rc4 := true
  padD := []
  rest := AuthenticateBase.pstr ++ List.replicate 8 0 ++ List.replicate 20 7 ++
    List.replicate 20 1 ++ [0, 0, 0, 0]
  length_yb := by decide
  length_padB := by decide
  length_padD := by decide

/-- The peer manager of the torrent. Kind: D -/
def samplePman : Pman := ⟨List.replicate 20 2, fun _ => false⟩

/-- The private key 1, and a server that has one torrent and allows plain connections. Kind: D -/
def sampleEnv : Env where
  server := ⟨[Vector.replicate 20 7], true⟩
  xa := 1
  ya := 2 :: List.replicate 95 0
  info_hash := Vector.replicate 20 7
  our_peer_id := Vector.replicate 20 2
  dht := false
  stack := fun _ => Vector.replicate 96 0
  handshakeRecieved := Authenticate.handshakeRecieved false (List.replicate 20 7) samplePman

/-- The first byte of the constant. Kind: D -/
def firstByte : UInt8 :=
  (shortSample.constant sampleEnv.xa sampleEnv.info_hash).headD 0

/-- The same reply with padding, and a pad B in which the first byte of the constant does not occur.
Kind: D -/
def paddedSample (k : ℕ) (hk : k ≤ 512) (padD : List UInt8) (hpadD : padD.length ≤ 512) :
    ServerStream where
  __ := shortSample
  padB := List.replicate k (firstByte + 1)
  padD := padD
  length_padB := by rwa [List.length_replicate]
  length_padD := hpadD

section Samples

variable {k : ℕ} (hk : k ≤ 512) {padD : List UInt8} (hpadD : padD.length ≤ 512)

/-- The sample's secret is a full one. Source: `mse/encryptedauthenticate.cpp`. Kind: L -/
theorem full_sample : Full (DHSecret 1 (fromBuffer (128 :: List.replicate 95 0))) := by
  unfold Full digits
  rw [List.length_reverse, List.length_map, Nat.length_digits 256 _ (by decide)
    (by decide +kernel)]
  decide +kernel

/-- The constant of the sample stands behind its padding. Source: `mse/encryptedauthenticate.cpp`.
Kind: L -/
theorem vc_padded : (paddedSample k hk padD hpadD).vc = 96 + k := by
  rw [ServerStream.vc, paddedSample, List.length_replicate]

/-- The sample's bytes are counted. Source: `mse/encryptedauthenticate.cpp`. Kind: L -/
theorem length_padded : (stream sampleEnv (paddedSample k hk padD hpadD)).length =
    182 + k + padD.length := by
  have hrest : (paddedSample k hk padD hpadD).rest.length = 72 := rfl
  have hpad : (paddedSample k hk padD hpadD).padD.length = padD.length := rfl
  unfold stream
  rw [ServerStream.length_bytes, ServerStream.length_tail, ServerStream.finish, vc_padded, hrest, hpad]
  omega

/-- The sample's keys fit together. Source: `mse/encryptedauthenticate.cpp`. Kind: L -/
theorem followed_padded : Followed sampleEnv (paddedSample k hk padD hpadD) where
  full := full_sample
  first := by
    intro i hi hlt heq
    rw [vc_padded] at hlt
    have hpad : (paddedSample k hk padD hpadD).padB.drop (i - 96) =
        (firstByte + 1) :: List.replicate (95 + k - i) (firstByte + 1) := by
      rw [paddedSample, List.drop_replicate, ← List.replicate_succ]
      congr 1
      omega
    have hdrop : ((paddedSample k hk padD hpadD).bytes sampleEnv.xa sampleEnv.info_hash).drop i =
        (paddedSample k hk padD hpadD).padB.drop (i - 96) ++
          (((paddedSample k hk padD hpadD).keyB sampleEnv.xa sampleEnv.info_hash).process
            (paddedSample k hk padD hpadD).message ++
              (paddedSample k hk padD hpadD).tail sampleEnv.xa sampleEnv.info_hash) := by
      have hpadlen : i - 96 ≤ (paddedSample k hk padD hpadD).padB.length := by
        rw [paddedSample, List.length_replicate]
        omega
      rw [ServerStream.bytes, ServerStream.head, List.append_assoc, List.append_assoc,
        List.drop_append, List.drop_eq_nil_of_le (by rw [ServerStream.length_yb]; exact hi),
        List.nil_append, ServerStream.length_yb, List.drop_append_of_le_length hpadlen]
    have hhead := congrArg (fun l => l.headD 0) heq
    rw [hdrop, hpad] at hhead
    have hbyte : firstByte + 1 = firstByte := hhead
    have hone : (1 : UInt8) = 0 := by
      rwa [UInt8.add_eq_left] at hbyte
    exact absurd hone (by decide)

end Samples

/-- No padding is short enough. Source: `mse/encryptedauthenticate.cpp`. Kind: L -/
theorem length_noPadding : ([] : List UInt8).length ≤ 512 := Nat.zero_le 512

/-- The longest pad B, and no pad D. Kind: D -/
def longSample : ServerStream := paddedSample 512 le_rfl [] length_noPadding

/-- **A valid reply that is lost**: the constant stands as far back as it may, and the second piece
ends with it. Source: `mse/encryptedauthenticate.cpp`. Kind: P -/
theorem reply_lost : Followed sampleEnv longSample ∧ longSample.rest ≠ [] ∧
    ∃ ds : List (List UInt8), ds.flatten = longSample.bytes sampleEnv.xa sampleEnv.info_hash ∧
      (∀ d ∈ ds, d ≠ []) ∧ (∀ d ∈ ds.head?, 96 ≤ d.length ∧ d.length ≤ 608) ∧
      ¬ Synced sampleEnv longSample
        (run (poll sampleEnv) (connected sampleEnv make) (ds ++ [[], []])) := by
  have hlen : (stream sampleEnv longSample).length = 694 := length_padded le_rfl length_noPadding
  have hB : ((stream sampleEnv longSample).drop 600).take 16 ++
      (stream sampleEnv longSample).drop 616 = (stream sampleEnv longSample).drop 600 := by
    rw [← List.drop_drop (i := 16) (j := 600), List.take_append_drop]
  refine ⟨followed_padded _ _, List.cons_ne_nil _ _, [(stream sampleEnv longSample).take 600,
    ((stream sampleEnv longSample).drop 600).take 16, (stream sampleEnv longSample).drop 616],
    ?_, ?_, ?_, ?_⟩
  · rw [List.flatten_cons, List.flatten_cons, List.flatten_cons, List.flatten_nil, List.append_nil,
      hB, List.take_append_drop, stream]
  · intro d hd
    simp only [List.mem_cons, List.not_mem_nil, or_false] at hd
    apply List.ne_nil_of_length_pos
    rcases hd with hd | hd | hd
    all_goals
      rw [hd]
      simp only [List.length_take, List.length_drop, hlen]
      omega
  · intro d hd
    obtain rfl : (stream sampleEnv longSample).take 600 = d := Option.some.inj hd
    rw [List.length_take]
    omega
  · intro hsynced
    have hlong : 616 ≤ (stream sampleEnv longSample).length := by
      rw [hlen]
      decide
    obtain ⟨a, ha⟩ : ∃ a, a = run (poll sampleEnv) (connected sampleEnv make)
      ((stream sampleEnv longSample).take 600 :: ((stream sampleEnv longSample).drop 600).take 16 ::
        [(stream sampleEnv longSample).drop 616, [], []]) := ⟨_, rfl⟩
    have htook : a.base.Took sampleEnv.handshakeRecieved longSample.rest [] := by
      rw [ha]
      exact hsynced.took
    obtain ⟨hfin, hzero, hno⟩ := split_unanswered (followed_padded _ _)
      (AuthenticateBase.decisive_client false (List.replicate 20 7) samplePman)
      (vc_padded le_rfl length_noPadding) hlong _ ha
    -- nothing was ever read
    have hread : ∀ l : List UInt8, l.head? = some 19 → List.replicate 68 0 ≠ l := by
      rintro l hl rfl
      exact absurd hl (by decide)
    have hhead : longSample.rest.head? = some 19 := rfl
    have htake : ∀ k, 1 ≤ k → (longSample.rest.take k).head? = some 19 := by
      intro k hk
      rw [List.head?_take, if_neg (by omega), hhead]
    obtain ⟨hr, -⟩ | ⟨hk, -, -, hhs, -⟩ | ⟨-, -, hhs, -⟩ | ⟨-, hyes, -⟩ := htook
    · exact Bool.noConfusion (hfin.symm.trans hr.finished)
    · refine hread _ ?_ (hzero.symm.trans hhs)
      rw [Session.part, overwrite, List.take_zero, List.nil_append, List.head?_append,
        htake _ ((show 1 ≤ 48 by decide).trans hk.1)]
      rfl
    · exact hread _ (htake 68 (by decide)) (hzero.symm.trans hhs)
    · exact Bool.noConfusion (hno.symm.trans hyes.2)

/-- A reply in three pieces with a poll in between: the first ends in pad B, the second in the
constant. Source: `mse/encryptedauthenticate.cpp`. Kind: L -/
theorem synced_run_short :
    let c := paddedSample 20 (by decide) [1, 2, 3] (by decide)
    let l := c.bytes sampleEnv.xa sampleEnv.info_hash
    Synced sampleEnv c (run (poll sampleEnv) (connected sampleEnv make)
      ([l.take 100, (l.drop 100).take 20, [], l.drop 120] ++ [[], []])) := by
  intro c l
  have hlen : l.length = 205 := length_padded (k := 20) _ _
  have hvc : c.vc = 116 := vc_padded _ _
  have hfinish : c.finish = 133 := by
    rw [ServerStream.finish, hvc]
    rfl
  have h100 : (l.take 100).length = 100 := by
    rw [List.length_take]
    omega
  have h20 : ((l.drop 100).take 20).length = 20 := by
    rw [List.length_take, List.length_drop]
    omega
  have h120 : (l.drop 120).length = 85 := by
    rw [List.length_drop]
    omega
  have hM : MAX_EA_BUF_SIZE = 1134 := rfl
  have henv : sampleEnv.handshakeRecieved =
      Authenticate.handshakeRecieved false (List.replicate 20 7) samplePman := rfl
  refine synced_run henv (followed_padded _ _) (List.cons_ne_nil _ _) ?_ ?_ ?_
  · have hflat : ∀ l : List UInt8, [l.take 100, (l.drop 100).take 20, [], l.drop 120].flatten = l := by
      intro l
      have hA : l.drop 120 = (l.drop 100).drop 20 := (List.drop_drop (i := 20) (j := 100)).symm
      simp only [List.flatten_cons, List.flatten_nil, List.append_nil, List.nil_append]
      rw [hA, List.take_append_drop, List.take_append_drop]
    exact hflat _
  · intro d hd
    obtain rfl : l.take 100 = d := Option.some.inj hd
    omega
  · rw [meets_cons, meets_cons, meets_cons, meets_cons, h100, h20]
    refine ⟨fun _ => ⟨?_, ?_, ?_⟩, fun _ => ⟨?_, ?_, ?_⟩, fun h => absurd rfl h,
      fun _ => ⟨?_, ?_, ?_⟩, trivial⟩
    all_goals
      intros
      simp only [List.length_nil, h120] at *
      omega

end EncryptedAuthenticate

end KTorrent.Mse
