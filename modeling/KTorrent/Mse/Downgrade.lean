import KTorrent.Mse.ClientHandshake

/-!
# No plain connection where none is allowed

A server that allows no plain connections: what the other side can bring the two authentications to.

* `Sealed` — a plain handshake that reads from a socket with an encryptor, and keeps it.
* `Encrypted` — the socket that was handed on has an encryptor, and so has that of an authentication
  that succeeded.
* `Stays` — the states the side that was contacted passes through: it selects one of two methods, and
  gives up rather than go on without RC4.
* `Offered` — the condition on the answer of the side that was contacted, whatever the pieces it
  comes in: the constant is searched where the code searches it, and what was selected has not the
  bit of the plain method. The code reads that bit although it did not offer the method.
* `encrypted_run` — both authentications end encrypted, one in every run and the other in every run
  whose bytes are `Offered`.
* `plain_accepted` — an answer that selects the plain method, and a connection that is accepted.

Source: `mse/encryptedauthenticate.cpp`, `mse/encryptedserverauthenticate.cpp`
-/

namespace KTorrent.Mse

open KTorrent.Lib KTorrent.Util KTorrent.Storage
open StreamSocket (arrive)

/-! ### The plain handshake keeps the encryptor -/

/-- A plain handshake on an encrypted socket. Kind: D -/
structure Sealed (b : AuthenticateBase) : Prop where
  enc : ∀ s ∈ b.sock, s.enc.isSome
  sock : b.succes = true → b.sock.isSome

namespace Sealed

open AuthenticateBase

variable {b : AuthenticateBase}

/-- A failed authentication is sealed. Source: `mse/encryptedauthenticate.cpp`,
`mse/encryptedserverauthenticate.cpp`. Kind: L -/
theorem fail (b : AuthenticateBase) : Sealed (b.onFinish false) :=
  ⟨fun _ hs => absurd hs (by simp [onFinish]), fun h => absurd h Bool.false_ne_true⟩

/-- The decision about the handshake. Source: `mse/encryptedauthenticate.cpp`,
`mse/encryptedserverauthenticate.cpp`. Kind: L -/
theorem decided (hb : Sealed b) (hsome : b.sock.isSome) (decide : Bool → List UInt8 → Verdict)
    (full : Bool) : Sealed (b.decided decide full) := by
  unfold AuthenticateBase.decided
  split
  · exact fail b
  · exact hb
  · exact ⟨hb.enc, fun _ => hsome⟩

/-- **A poll of the plain handshake keeps the encryptor.**. Source: `AuthenticateBase::onReadyRead`.
Kind: L -/
theorem onReadyRead (hb : Sealed b) (decide : Bool → List UInt8 → Verdict) :
    Sealed (b.onReadyRead decide) := by
  unfold AuthenticateBase.onReadyRead
  split
  · exact hb
  · rename_i s hs
    have henc : ∀ len, (s.readData len len).sock.enc.isSome := by
      intro len
      rw [StreamSocket.enc_readData]
      exact hb.enc s hs
    have hread : ∀ (b' : AuthenticateBase) (len : ℕ), b'.sock = some (s.readData len len).sock →
        Sealed b' ∧ b'.sock.isSome := by
      intro b' len hb'
      rw [hb']
      refine ⟨⟨?_, ?_⟩, rfl⟩
      · intro t ht
        obtain rfl : (s.readData len len).sock = t := Option.some.inj (hb' ▸ ht)
        exact henc len
      · intro
        rw [hb']
        rfl
    dsimp only
    split_ifs
    · exact fail b
    · exact hb
    · obtain ⟨h1, h2⟩ := hread { b with
          handshake := overwrite b.handshake 0 (s.readData s.bytesAvailable s.bytesAvailable).buf
          bytes_of_handshake_recieved := s.bytesAvailable
          sock := some (s.readData s.bytesAvailable s.bytesAvailable).sock } _ rfl
      exact h1.decided h2 decide false
    · obtain ⟨h1, h2⟩ := hread { b with
          handshake := overwrite b.handshake b.bytes_of_handshake_recieved
            (s.readData (68 - b.bytes_of_handshake_recieved)
              (68 - b.bytes_of_handshake_recieved)).buf
          sock := some (s.readData (68 - b.bytes_of_handshake_recieved)
            (68 - b.bytes_of_handshake_recieved)).sock } _ rfl
      exact h1.decided h2 decide true
    · exact fail _

/-- Bytes arrive. Source: `mse/encryptedauthenticate.cpp`, `mse/encryptedserverauthenticate.cpp`.
Kind: L -/
theorem arrive (hb : Sealed b) (d : List UInt8) :
    Sealed { b with sock := b.sock.map (StreamSocket.arrive d) } := by
  refine ⟨?_, ?_⟩
  · intro s hs
    obtain ⟨t, ht, rfl⟩ := Option.map_eq_some_iff.mp hs
    exact hb.enc t ht
  · intro hsucces
    rw [Option.isSome_map]
    exact hb.sock hsucces

end Sealed

/-- **No downgrade**: the socket that was handed to the plain handshake has an encryptor, and so has
the socket of an authentication that succeeded. Kind: D -/
def Encrypted (handed : Option StreamSocket) (b : AuthenticateBase) : Prop :=
  (∀ s ∈ handed, s.enc.isSome) ∧ (b.succes = true → ∃ s, b.sock = some s ∧ s.enc.isSome)

/-- Nothing was handed on, and nothing has succeeded. Source: `mse/encryptedauthenticate.cpp`,
`mse/encryptedserverauthenticate.cpp`. Kind: L -/
theorem Encrypted.before {handed : Option StreamSocket} {b : AuthenticateBase} (hh : handed = none)
    (hs : b.succes = false) : Encrypted handed b := by
  refine ⟨?_, fun h => absurd h (by rw [hs]; exact Bool.false_ne_true)⟩
  rw [hh]
  exact fun s hs => absurd hs (Option.not_mem_none s)

/-- What is sealed gets no further, and what has been handed on was encrypted.
Source: `mse/encryptedauthenticate.cpp`, `mse/encryptedserverauthenticate.cpp`. Kind: L -/
theorem Sealed.encrypted {handed : Option StreamSocket} {b : AuthenticateBase} (hb : Sealed b)
    (hh : ∀ s ∈ handed, s.enc.isSome) : Encrypted handed b := by
  refine ⟨hh, fun hsucces => ?_⟩
  obtain ⟨s, hs⟩ := Option.isSome_iff_exists.mp (hb.sock hsucces)
  exact ⟨s, hs, hb.enc s hs⟩

/-- What has arrived on the socket since it was handed on. Source: `mse/encryptedauthenticate.cpp`,
`mse/encryptedserverauthenticate.cpp`. Kind: L -/
theorem arrived_enc {handed : Option StreamSocket} (hh : ∀ s ∈ handed, s.enc.isSome)
    (d : List UInt8) : ∀ s ∈ handed.map (arrive d), s.enc.isSome := by
  intro s hs
  obtain ⟨t, ht, rfl⟩ := Option.map_eq_some_iff.mp hs
  exact hh t ht

/-! ### The side that was contacted -/

namespace EncryptedServerAuthenticate

/-- Nothing has been handed on. Kind: D -/
structure Waiting (a : EncryptedServerAuthenticate) : Prop where
  handed : a.handed = none
  succes : a.base.succes = false
  state : a.state ≠ .nonEncryptedHandshake

/-- One of the two methods has been selected, and the encryptor is there. Kind: D -/
structure Chosen (a : EncryptedServerAuthenticate) : Prop where
  rc4 : a.our_rc4.isSome
  select : a.crypto_select &&& 2 = 0 → a.crypto_select &&& 1 ≠ 0

/-- The states passed through: before the socket is handed on, and after. Kind: D -/
inductive Stays (a : EncryptedServerAuthenticate) : Prop
  | waiting (h : Waiting a)
      (hchosen : a.state = .waitForPadC ∨ a.state = .waitForIA → Chosen a)
  | plain (hstate : a.state = .nonEncryptedHandshake) (hbase : Sealed a.base)
      (hh : ∀ s ∈ a.handed, s.enc.isSome)

variable {env : Env} {a : EncryptedServerAuthenticate}

/-- An authentication that stays is encrypted. Source: `mse/encryptedauthenticate.cpp`,
`mse/encryptedserverauthenticate.cpp`. Kind: L -/
theorem Stays.encrypted (h : Stays a) : Encrypted a.handed a.base := by
  cases h with
  | waiting h => exact .before h.handed h.succes
  | plain _ hbase hh => exact hbase.encrypted hh

/-- Before a method is selected. Source: `mse/encryptedauthenticate.cpp`,
`mse/encryptedserverauthenticate.cpp`. Kind: L -/
theorem Waiting.early (h : Waiting a)
    (hstate : a.state ≠ .waitForPadC ∧ a.state ≠ .waitForIA) : Stays a :=
  .waiting h fun hor => (hor.elim hstate.1 hstate.2).elim

/-- An authentication that gives up. Source: `mse/encryptedauthenticate.cpp`,
`mse/encryptedserverauthenticate.cpp`. Kind: L -/
theorem Waiting.fail (h : Waiting a)
    (hchosen : a.state = .waitForPadC ∨ a.state = .waitForIA → Chosen a) :
    Stays (a.onFinish false) := .waiting ⟨h.handed, rfl, h.state⟩ fun hor =>
  ⟨(hchosen hor).rc4, (hchosen hor).select⟩

/-- The socket is handed on with an encryptor. Source: `mse/encryptedauthenticate.cpp`,
`mse/encryptedserverauthenticate.cpp`. Kind: L -/
theorem switchToPlain_stays (hs : a.base.succes = false) (henc : ∀ s ∈ a.base.sock, s.enc.isSome) :
    Stays (a.switchToPlain env) := by
  have hsealed : Sealed a.base := ⟨henc, fun h => absurd h (by rw [hs]; exact Bool.false_ne_true)⟩
  exact .plain rfl (hsealed.onReadyRead env.handshakeRecieved) henc

/-- **The plain method is not gone on with.**. Source: `EncryptedServerAuthenticate::handleIA`.
Kind: L -/
theorem handleIA_stays (hoff : env.server.allow_unencrypted = false) (h : Waiting a)
    (hc : Chosen a) : Stays (handleIA env a) := by
  obtain ⟨a', ha'⟩ : ∃ a', a' = if a.ia_len > 0 then
      a.onSock (StreamSocket.reinsert (a.buf.drop (a.req1_off + 54 + a.pad_C_len + 2))) else a :=
    ⟨_, rfl⟩
  have hw : Waiting a' ∧ Chosen a' := by
    rw [ha']
    split_ifs
    · exact ⟨⟨h.handed, h.succes, h.state⟩, ⟨hc.rc4, hc.select⟩⟩
    · exact ⟨h, hc⟩
  unfold handleIA
  dsimp only
  rw [← ha']
  split_ifs with hshort hrc4 hplain
  · exact .waiting h fun _ => hc
  · refine switchToPlain_stays (a := { a'.onSock _ with our_rc4 := none }) hw.1.succes ?_
    intro s hs
    obtain ⟨t, ht, rfl⟩ := Option.map_eq_some_iff.mp hs
    exact hw.2.rc4
  · exact hw.1.fail fun _ => hw.2
  · exact absurd ⟨hoff, hw.2.select (not_not.mp hrc4)⟩ hplain

/-- Pad C: the method was chosen, the rest is encrypted.
Source: `EncryptedServerAuthenticate::handlePadC`. Kind: L -/
theorem handlePadC_stays (hoff : env.server.allow_unencrypted = false) (h : Waiting a)
    (hc : Chosen a) : Stays (handlePadC env a) := by
  obtain ⟨e, he⟩ := Option.isSome_iff_exists.mp hc.rc4
  unfold handlePadC
  rw [he]
  dsimp only
  split_ifs
  · exact .waiting h fun _ => hc
  · exact .waiting ⟨h.handed, h.succes, by simp⟩ fun _ => ⟨rfl, hc.select⟩
  · exact handleIA_stays hoff ⟨h.handed, h.succes, h.state⟩ ⟨rfl, hc.select⟩

/-- **One method of the two is selected**, whatever was offered.
Source: `EncryptedServerAuthenticate::processVC`. Kind: L -/
theorem processVC_stays (hoff : env.server.allow_unencrypted = false) (h : Waiting a)
    (hstate : a.state = .foundInfoHash) : Stays (processVC env a) := by
  have hearly : ∀ a' : EncryptedServerAuthenticate, Waiting a' → a'.state = .foundInfoHash →
      Stays a' := fun a' h' hs => h'.early (by rw [hs]; simp)
  have htwo : 2 &&& 2 = 0 → 2 &&& 1 ≠ 0 := by decide
  have hone : 1 &&& 2 = 0 → 1 &&& 1 ≠ 0 := by decide
  unfold processVC
  dsimp only
  split_ifs
  · exact hearly _ ⟨h.handed, h.succes, h.state⟩ hstate
  · exact hearly _ ⟨h.handed, rfl, h.state⟩ hstate
  · exact hearly _ ⟨h.handed, rfl, h.state⟩ hstate
  · exact .waiting ⟨h.handed, h.succes, by simp⟩ fun _ => ⟨rfl, htwo⟩
  · exact handlePadC_stays hoff ⟨h.handed, h.succes, h.state⟩ ⟨rfl, htwo⟩
  · exact .waiting ⟨h.handed, h.succes, by simp⟩ fun _ => ⟨rfl, hone⟩
  · exact handlePadC_stays hoff ⟨h.handed, h.succes, h.state⟩ ⟨rfl, hone⟩

/-- The secret is calculated, and encryption is set up.
Source: `EncryptedServerAuthenticate::calculateSKey`. Kind: L -/
theorem calculateSKey_stays (hoff : env.server.allow_unencrypted = false) (h : Waiting a)
    (hstate : a.state = .foundReq1) : Stays (calculateSKey env a) := by
  unfold calculateSKey
  dsimp only
  split_ifs
  · exact h.early (by rw [hstate]; simp)
  · split
    · exact h.fail (by rw [hstate]; simp)
    · exact processVC_stays hoff ⟨h.handed, h.succes, by simp⟩ rfl

/-- The first hash is searched for. Source: `EncryptedServerAuthenticate::findReq1`. Kind: L -/
theorem findReq1_stays (hoff : env.server.allow_unencrypted = false) (h : Waiting a)
    (hstate : a.state = .waitingForReq1) : Stays (findReq1 env a) := by
  have hearly : Stays a := h.early (by rw [hstate]; simp)
  unfold findReq1
  dsimp only
  split_ifs
  · exact hearly
  · split
    · exact calculateSKey_stays hoff ⟨h.handed, h.succes, by simp⟩ rfl
    · exact h.fail (by rw [hstate]; simp)
  · split
    · exact calculateSKey_stays hoff ⟨h.handed, h.succes, by simp⟩ rfl
    · exact hearly

/-- The client's key arrives. Source: `EncryptedServerAuthenticate::handleYA`. Kind: L -/
theorem handleYA_stays (hoff : env.server.allow_unencrypted = false) (h : Waiting a) :
    Stays (handleYA env a) := by
  unfold handleYA
  refine findReq1_stays hoff ⟨?_, ?_, ?_⟩ ?_
  · exact h.handed
  · exact h.succes
  · exact State.noConfusion
  · rfl

/-- Data arrives, in any state. Source: `EncryptedServerAuthenticate::onReadyRead`. Kind: L -/
theorem onReadyRead_stays (hoff : env.server.allow_unencrypted = false) (h : Stays a) :
    Stays (onReadyRead env a) := by
  unfold onReadyRead
  split
  · exact h
  · rename_i s hs
    cases h with
    | plain hstate hbase hh =>
      rw [hstate]
      dsimp only
      split_ifs
      · exact .plain hstate (.fail _) hh
      · exact .plain rfl (hbase.onReadyRead env.handshakeRecieved) hh
    | waiting h hchosen =>
      obtain ⟨ba, hba⟩ : ∃ ba, ba = min s.bytesAvailable (MAX_SEA_BUF_SIZE - a.buf.length) :=
        ⟨_, rfl⟩
      have hfill : Waiting (a.fill s ba) := ⟨h.handed, h.succes, h.state⟩
      dsimp only
      rw [← hba]
      by_cases hzero : s.bytesAvailable = 0
      · rw [if_pos hzero]
        exact h.fail hchosen
      · rw [if_neg hzero]
        cases hstate : a.state with
        | waitingForYA =>
          dsimp only
          rw [if_neg fun hor : ba ≤ 68 ∧ env.server.allow_unencrypted = true =>
            absurd hor.2 (by rw [hoff]; exact Bool.false_ne_true)]
          split_ifs
          · exact handleYA_stays hoff hfill
          · have hstate' : (a.fill s ba).state = .waitingForYA := hstate
            exact hfill.early (by rw [hstate']; simp)
        | waitingForReq1 => exact findReq1_stays hoff hfill hstate
        | foundReq1 => exact calculateSKey_stays hoff hfill hstate
        | foundInfoHash => exact processVC_stays hoff hfill hstate
        | waitForPadC =>
          have hc := hchosen (.inl hstate)
          exact handlePadC_stays hoff hfill ⟨hc.rc4, hc.select⟩
        | waitForIA =>
          have hc := hchosen (.inr hstate)
          exact handleIA_stays hoff hfill ⟨hc.rc4, hc.select⟩
        | nonEncryptedHandshake => exact absurd hstate h.state

/-- **Whatever arrives.**. Source: `torrent/authenticationmonitor.cpp`, `handleData`. Kind: L -/
theorem receive_stays (hoff : env.server.allow_unencrypted = false) (a : EncryptedServerAuthenticate)
    (d : List UInt8) (h : Stays a) : Stays (receive env a d) := by
  have harrive : Stays { a.onSock (arrive d) with handed := a.handed.map (arrive d) } := by
    cases h with
    | plain hstate hbase hh => exact .plain hstate (hbase.arrive d) (arrived_enc hh d)
    | waiting h hchosen =>
      refine .waiting ⟨?_, h.succes, h.state⟩ fun hor => ⟨(hchosen hor).rc4, (hchosen hor).select⟩
      show a.handed.map (arrive d) = none
      rw [h.handed]
      rfl
  unfold receive
  dsimp only
  split_ifs
  · exact harrive
  · exact onReadyRead_stays hoff harrive

/-- A new authentication stays. Source: `EncryptedServerAuthenticate::EncryptedServerAuthenticate`.
Kind: L -/
theorem stays_make : Stays make := .waiting ⟨rfl, rfl, by simp [make]⟩ (by simp [make])

/-- **The side that was contacted never ends without an encryptor.**.
Source: `mse/encryptedauthenticate.cpp`, `mse/encryptedserverauthenticate.cpp`. Kind: P -/
theorem encrypted_server (hoff : env.server.allow_unencrypted = false) (ds : List (List UInt8)) :
    Encrypted (run (receive env) make ds).handed (run (receive env) make ds).base :=
  (run_inv (receive_stays hoff) stays_make ds).encrypted

end EncryptedServerAuthenticate

/-! ### The side that makes the connection -/

/-- A byte that was written. Source: `mse/encryptedauthenticate.cpp`,
`mse/encryptedserverauthenticate.cpp`. Kind: L -/
theorem getD_overwrite {buf bs : List UInt8} {off k : ℕ} (hoff : off ≤ buf.length)
    (hk : k < bs.length) : (overwrite buf off bs).getD (off + k) 0 = bs.getD k 0 := by
  have hlen : (buf.take off).length = off := by rw [List.length_take, min_eq_left hoff]
  unfold overwrite
  rw [List.append_assoc, List.getD_append_right _ _ _ _ (by omega), hlen, Nat.add_sub_cancel_left,
    List.getD_append _ _ _ _ hk]

/-- A number in what was written over the buffer. Source: `util/functions.cpp`, `ReadUint32`.
Kind: L -/
theorem readUint32_overwrite {buf bs : List UInt8} {off k : ℕ} (hoff : off ≤ buf.length)
    (hk : k + 4 ≤ bs.length) : readUint32 (overwrite buf off bs) (off + k) = readUint32 bs k := by
  unfold readUint32
  rw [Nat.add_assoc off, Nat.add_assoc off, Nat.add_assoc off, getD_overwrite hoff (by omega),
    getD_overwrite hoff (by omega), getD_overwrite hoff (by omega), getD_overwrite hoff (by omega)]

/-- A number that was written. Source: `util/functions.cpp`, `ReadUint16`. Kind: L -/
theorem readUint16_overwrite {buf bs : List UInt8} {off k : ℕ} (hoff : off ≤ buf.length)
    (hk : k + 2 ≤ bs.length) : readUint16 (overwrite buf off bs) (off + k) = readUint16 bs k := by
  unfold readUint16
  rw [Nat.add_assoc off, getD_overwrite hoff (by omega), getD_overwrite hoff (by omega)]

namespace EncryptedAuthenticate

section Answer

variable (env : Env) (t : List UInt8)

/-- The secret that the first 96 bytes lead to. Kind: D -/
def secretOf : ℕ := DHSecret env.xa (fromBuffer (t.take 96))

/-- The key that what is sent is encrypted with. Kind: D -/
def encOf : SHA1Hash :=
  EncryptionKey true (toBuffer (env.stack .keyA).toList (secretOf env t)) env.info_hash

/-- The key that what arrives is decrypted with. Kind: D -/
def decOf : SHA1Hash :=
  EncryptionKey false (toBuffer (env.stack .keyB).toList (secretOf env t)) env.info_hash

/-- The key stream that what the other side sends is decrypted with. Kind: D -/
def keyOf : RC4 := (RC4Encryptor.make (decOf env t) (encOf env t)).dec

/-- The encrypted constant stands at byte `i`. Kind: D -/
def StandsAt (i : ℕ) : Prop := (t.drop i).take 8 = (keyOf env t).process (zeros 8)

/-- The search for the constant ends at byte `i`. Kind: D -/
structure FirstAt (i : ℕ) : Prop where
  ge : 96 ≤ i
  stands : StandsAt env t i
  first : ∀ j, 96 ≤ j → j < i → ¬ StandsAt env t j

/-- The constant, the method selected and the length of pad D. Kind: D -/
def answerAt (i : ℕ) : List UInt8 := (keyOf env t).process ((t.drop i).take 14)

/-- The method selected, if the constant stands at byte `i`. Kind: D -/
def selectAt (i : ℕ) : ℕ := readUint32 (answerAt env t i) 8

/-- The length of pad D, if the constant stands at byte `i`. Kind: D -/
def padLenAt (i : ℕ) : ℕ := readUint16 (answerAt env t i) 12

/-- **What may be selected**: not the plain method, and a pad D that ends in the buffer; what is
decrypted behind the end of the buffer are the fields of the authentication. Kind: D -/
def Offered : Prop := ∀ i, FirstAt env t i → i + 14 < min t.length MAX_EA_BUF_SIZE →
  padLenAt env t i ≤ 512 →
    selectAt env t i &&& 1 = 0 ∧ i + 14 + padLenAt env t i ≤ MAX_EA_BUF_SIZE

end Answer

section Prefixes

variable {env : Env} {t u : List UInt8} {i : ℕ}

/-- The key is settled by the first 96 bytes. Source: `mse/encryptedauthenticate.cpp`,
`mse/encryptedserverauthenticate.cpp`. Kind: L -/
theorem keyOf_extend (h : t <+: u) (hlen : 96 ≤ t.length) : keyOf env u = keyOf env t := by
  obtain ⟨v, rfl⟩ := h
  unfold keyOf decOf encOf secretOf
  rw [List.take_append_of_le_length hlen]

/-- A window that has arrived stays what it is. Source: `mse/encryptedauthenticate.cpp`,
`mse/encryptedserverauthenticate.cpp`. Kind: L -/
theorem window_extend (h : t <+: u) {n : ℕ} (hlen : i + n ≤ t.length) :
    (u.drop i).take n = (t.drop i).take n := by
  obtain ⟨v, rfl⟩ := h
  rw [List.drop_append_of_le_length (by omega), List.take_append_of_le_length (by
    rw [List.length_drop]
    omega)]

/-- The place of the constant stays what it is when more arrives.
Source: `mse/encryptedauthenticate.cpp`, `mse/encryptedserverauthenticate.cpp`. Kind: L -/
theorem standsAt_extend (h : t <+: u) (hi : 96 ≤ i) (hlen : i + 8 ≤ t.length) :
    StandsAt env u i ↔ StandsAt env t i := by
  unfold StandsAt
  rw [keyOf_extend h (by omega), window_extend h hlen]

/-- The place of the constant stays the same when more bytes arrive.
Source: `mse/encryptedauthenticate.cpp`, `mse/encryptedserverauthenticate.cpp`. Kind: L -/
theorem FirstAt.extend (h : t <+: u) (hlen : i + 8 ≤ t.length) (hf : FirstAt env t i) :
    FirstAt env u i where
  ge := hf.ge
  stands := (standsAt_extend h hf.ge hlen).mpr hf.stands
  first := by
    intro j hj hlt hstands
    exact hf.first j hj hlt ((standsAt_extend h hj (by omega)).mp hstands)

/-- The answer behind the constant stays what it is when more arrives.
Source: `mse/encryptedauthenticate.cpp`, `mse/encryptedserverauthenticate.cpp`. Kind: L -/
theorem answerAt_extend (h : t <+: u) (hi : 96 ≤ i) (hlen : i + 14 ≤ t.length) :
    answerAt env u i = answerAt env t i := by
  unfold answerAt
  rw [keyOf_extend h (by omega), window_extend h hlen]

/-- The condition on all that is sent is one on what has arrived.
Source: `mse/encryptedauthenticate.cpp`, `mse/encryptedserverauthenticate.cpp`. Kind: L -/
theorem Offered.restrict (h : t <+: u) (ho : Offered env u) : Offered env t := by
  intro i hf hlen hpad
  have hle := h.length_le
  have hans : answerAt env u i = answerAt env t i := answerAt_extend h hf.ge (by omega)
  have hu := ho i (hf.extend h (by omega)) (by omega)
  simp only [selectAt, padLenAt, hans] at hu hpad ⊢
  exact hu hpad

end Prefixes

/-! ### The states of the side that makes the connection -/

/-- What has arrived is in the buffer, and behind it in the socket. Kind: D -/
structure Collected (t l : List UInt8) (a : EncryptedAuthenticate) : Prop where
  handed : a.handed = none
  overrun : a.overrun = false
  base : a.base = .fresh l
  arrived : a.buf ++ l = t
  le : a.buf.length ≤ MAX_EA_BUF_SIZE

/-- The keys are made of the first 96 bytes. Kind: D -/
structure Keyed (env : Env) (t : List UInt8) (a : EncryptedAuthenticate) : Prop where
  ge : 96 ≤ a.buf.length
  enc : a.enc = encOf env t
  dec : a.dec = decOf env t
  rc4 : ∃ e, a.our_rc4 = some ⟨e, keyOf env t⟩

/-- The states passed through when `t` has arrived. Kind: D -/
inductive Follows (env : Env) (t : List UInt8) (a : EncryptedAuthenticate) : Prop
  | failed (hfin : a.base.finished = true) (hs : a.base.succes = false) (hh : a.handed = none)
      (ho : a.overrun = false)
  | start (l : List UInt8) (hstate : a.state = .sentYA) (hc : Collected t l a)
  | yb (l : List UInt8) (hstate : a.state = .gotYB) (hc : Collected t l a) (hk : Keyed env t a)
  | vc (l : List UInt8) (hstate : a.state = .foundVC) (hc : Collected t l a) (hk : Keyed env t a)
      (hf : FirstAt env t a.vc_off) (hlt : a.vc_off + 8 < a.buf.length)
  | padD (l : List UInt8) (hstate : a.state = .waitForPadD) (hbase : a.base = .fresh l)
      (hh : a.handed = none) (ho : a.overrun = false) (hrc4 : a.our_rc4.isSome)
      (hselect : a.crypto_select &&& 1 = 0)
      (hle : a.vc_off + 14 + a.pad_D_len ≤ MAX_EA_BUF_SIZE)
  | plain (hstate : a.state = .normalHandshake) (hbase : Sealed a.base)
      (hh : ∀ s ∈ a.handed, s.enc.isSome) (ho : a.overrun = false)

variable {env : Env} {t l : List UInt8} {a : EncryptedAuthenticate}

/-- An authentication that follows the stream stays within its buffer and is encrypted.
Source: `mse/encryptedauthenticate.cpp`, `mse/encryptedserverauthenticate.cpp`. Kind: L -/
theorem Follows.encrypted (h : Follows env t a) : a.overrun = false ∧ Encrypted a.handed a.base := by
  cases h with
  | failed _ hs hh ho => exact ⟨ho, .before hh hs⟩
  | start l _ hc => exact ⟨hc.overrun, .before hc.handed (by rw [hc.base]; rfl)⟩
  | yb l _ hc _ => exact ⟨hc.overrun, .before hc.handed (by rw [hc.base]; rfl)⟩
  | vc l _ hc _ _ _ => exact ⟨hc.overrun, .before hc.handed (by rw [hc.base]; rfl)⟩
  | padD l _ hbase hh ho _ _ _ => exact ⟨ho, .before hh (by rw [hbase]; rfl)⟩
  | plain _ hbase hh ho => exact ⟨ho, hbase.encrypted hh⟩

/-- Giving up before anything was handed on. Source: `mse/encryptedauthenticate.cpp`,
`mse/encryptedserverauthenticate.cpp`. Kind: L -/
theorem follows_fail (hh : a.handed = none) (ho : a.overrun = false) :
    Follows env t (a.onFinish false) := .failed rfl rfl hh ho

namespace Collected

/-- The bytes of a window in the buffer are those that arrived there.
Source: `mse/encryptedauthenticate.cpp`, `mse/encryptedserverauthenticate.cpp`. Kind: L -/
theorem window (h : Collected t l a) {i n : ℕ} (hlen : i + n ≤ a.buf.length) :
    (a.buf.drop i).take n = (t.drop i).take n := by
  have hpre : a.buf <+: t := ⟨l, h.arrived⟩
  exact (window_extend hpre hlen).symm

/-- The buffer holds no more than has arrived. Source: `mse/encryptedauthenticate.cpp`,
`mse/encryptedserverauthenticate.cpp`. Kind: L -/
theorem length_le (h : Collected t l a) : a.buf.length ≤ t.length := by
  rw [← h.arrived, List.length_append]
  exact Nat.le_add_right _ _

/-- More bytes are collected. Source: `mse/encryptedauthenticate.cpp`,
`mse/encryptedserverauthenticate.cpp`. Kind: L -/
theorem collect (h : Collected t l a) (d : List UInt8) {ba : ℕ}
    (hle : a.buf.length + ba ≤ MAX_EA_BUF_SIZE) :
    Collected (t ++ d) ((l ++ d).drop ba) (collect (l ++ d) ba a) where
  handed := h.handed
  overrun := h.overrun
  base := rfl
  arrived := by
    show a.buf ++ (l ++ d).take ba ++ (l ++ d).drop ba = t ++ d
    rw [List.append_assoc, List.take_append_drop, ← List.append_assoc, h.arrived]
  le := by
    show (a.buf ++ (l ++ d).take ba).length ≤ _
    rw [List.length_append, List.length_take]
    omega

end Collected

/-- No more is read than the buffer takes. Source: `EncryptedAuthenticate::onReadyRead`. Kind: L -/
theorem toRead_le (a : EncryptedAuthenticate) (ba : ℕ) (h : a.buf.length ≤ MAX_EA_BUF_SIZE) :
    a.buf.length + a.toRead ba ≤ MAX_EA_BUF_SIZE := by
  unfold toRead
  dsimp only
  split_ifs <;> omega

/-- The keys stay those of the first 96 bytes. Source: `mse/encryptedauthenticate.cpp`,
`mse/encryptedserverauthenticate.cpp`. Kind: L -/
theorem Keyed.collect (hc : Collected t l a) (h : Keyed env t a) (l' d : List UInt8) (ba : ℕ) :
    Keyed env (t ++ d) (collect l' ba a) := by
  have htake : (t ++ d).take 96 = t.take 96 :=
    List.take_append_of_le_length (h.ge.trans hc.length_le)
  obtain ⟨e, he⟩ := h.rc4
  refine ⟨?_, ?_, ?_, e, ?_⟩
  · show 96 ≤ (a.buf ++ _).length
    rw [List.length_append]
    exact h.ge.trans (Nat.le_add_right _ _)
  · show a.enc = encOf env (t ++ d)
    rw [h.enc, encOf, encOf, secretOf, secretOf, htake]
  · show a.dec = decOf env (t ++ d)
    rw [h.dec, decOf, decOf, secretOf, secretOf, htake]
  · show a.our_rc4 = _
    rw [he, keyOf_extend (List.prefix_append t d) (h.ge.trans hc.length_le)]

/-- **What was not the plain method is gone on with under RC4.**.
Source: `EncryptedAuthenticate::handlePadD`. Kind: L -/
theorem handlePadD_follows (hbase : a.base = .fresh l) (hh : a.handed = none)
    (ho : a.overrun = false) (hrc4 : a.our_rc4.isSome) (hselect : a.crypto_select &&& 1 = 0)
    (hle : a.vc_off + 14 + a.pad_D_len ≤ MAX_EA_BUF_SIZE) : Follows env t (handlePadD env a) := by
  obtain ⟨e, he⟩ := Option.isSome_iff_exists.mp hrc4
  have hover : (a.overrun || decide (a.vc_off + 14 + a.pad_D_len > MAX_EA_BUF_SIZE)) = false := by
    rw [ho, decide_eq_false (not_lt.mpr hle)]
    rfl
  have hsealed : ∀ f : StreamSocket → StreamSocket, (∀ s, (f s).enc.isSome) →
      Sealed { a.base with sock := a.base.sock.map f } := by
    intro f hf
    refine ⟨?_, ?_⟩
    · intro s hs
      obtain ⟨u, -, rfl⟩ := Option.map_eq_some_iff.mp hs
      exact hf u
    · intro
      show (a.base.sock.map f).isSome
      rw [hbase]
      rfl
  have hnot : ¬ a.crypto_select &&& 1 ≠ 0 := not_not.mpr hselect
  unfold handlePadD
  rw [he]
  dsimp only
  by_cases hnone : a.crypto_select &&& 1 = 0 ∧ a.crypto_select &&& 2 = 0
  · rw [if_pos hnone]
    exact follows_fail hh hover
  · rw [if_neg hnone]
    simp only [if_neg hnot, onSock, Option.map_map]
    split_ifs
    · have hs := hsealed (StreamSocket.reinsert
        (((e.decryptAt (a.vc_off + 14) a.pad_D_len a.buf).1).drop
          (a.vc_off + 14 + a.pad_D_len)) ∘ fun s =>
            { s with enc := some (e.decryptAt (a.vc_off + 14) a.pad_D_len a.buf).2 }) (by
        intro s
        simp only [Function.comp_apply, StreamSocket.reinsert]
        split <;> rfl)
      exact .plain rfl (hs.onReadyRead _) hs.enc hover
    · have hs := hsealed (fun s =>
        { s with enc := some (e.decryptAt (a.vc_off + 14) a.pad_D_len a.buf).2 }) fun _ => rfl
      exact .plain rfl hs hs.enc hover

/-- The constant has been found. Source: `EncryptedAuthenticate::handleCryptoSelect`. Kind: L -/
theorem handleCryptoSelect_follows (hT : Offered env t) (hstate : a.state = .foundVC)
    (hc : Collected t l a) (hk : Keyed env t a) (hf : FirstAt env t a.vc_off)
    (hlt : a.vc_off + 8 < a.buf.length) : Follows env t (handleCryptoSelect env a) := by
  obtain ⟨e, he⟩ := hk.rc4
  unfold handleCryptoSelect
  by_cases hshort : a.vc_off + 14 ≥ a.buf.length
  · rw [if_pos hshort]
    exact .vc l hstate hc hk hf hlt
  · have hwindow : (a.buf.drop a.vc_off).take 14 = (t.drop a.vc_off).take 14 :=
      hc.window (by omega)
    have hanswer : (keyOf env t).process ((a.buf.drop a.vc_off).take 14) =
        answerAt env t a.vc_off := by rw [hwindow, answerAt]
    have hlen : (answerAt env t a.vc_off).length = 14 := by
      rw [answerAt, RC4.length_process, ← hwindow, List.length_take, List.length_drop]
      omega
    have hselect : readUint32 (overwrite a.buf a.vc_off (answerAt env t a.vc_off)) (a.vc_off + 8) =
        selectAt env t a.vc_off := readUint32_overwrite (by omega) (by omega)
    have hpad : readUint16 (overwrite a.buf a.vc_off (answerAt env t a.vc_off)) (a.vc_off + 12) =
        padLenAt env t a.vc_off := readUint16_overwrite (by omega) (by omega)
    have hoffered := hT a.vc_off hf (by
      have h1 := hc.length_le
      have h2 := hc.le
      omega)
    rw [if_neg hshort, he]
    unfold RC4Encryptor.decryptAt
    dsimp only
    rw [hanswer, hselect, hpad]
    split_ifs with hvc hbad hmore
    · exact follows_fail hc.handed hc.overrun
    · exact follows_fail hc.handed hc.overrun
    · obtain ⟨h1, h2⟩ := hoffered (not_lt.mp hbad)
      exact handlePadD_follows hc.base hc.handed hc.overrun rfl h1 h2
    · obtain ⟨h1, h2⟩ := hoffered (not_lt.mp hbad)
      exact .padD l rfl hc.base hc.handed hc.overrun rfl h1 h2

/-- **The search finds the first place.**. Source: `EncryptedAuthenticate::findVC`. Kind: L -/
theorem findVC_follows (hT : Offered env t) (hstate : a.state = .gotYB) (hc : Collected t l a)
    (hk : Keyed env t a) : Follows env t (findVC env a) := by
  have hconst : (RC4Encryptor.encrypt (zeros 8) (.make a.enc a.dec)).1 =
      (keyOf env t).process (zeros 8) := by
    rw [RC4Encryptor.encrypt, RC4Encryptor.make, hk.dec, keyOf, RC4Encryptor.make]
  have hstands : ∀ i, i + 8 ≤ a.buf.length →
      ((a.buf.drop i).take 8 = (keyOf env t).process (zeros 8) ↔ StandsAt env t i) := by
    intro i hi
    rw [hc.window hi, StandsAt]
  have hge := hk.ge
  unfold findVC
  rw [hconst]
  dsimp only
  split
  · rename_i i hi
    rw [List.find?_range'_eq_some] at hi
    obtain ⟨h1, h2, h3⟩ := hi
    rw [List.mem_range'_1] at h2
    have hfirst : FirstAt env t i := by
      refine ⟨h2.1, (hstands i (by omega)).mp (of_decide_eq_true h1), ?_⟩
      intro j hj hlt hjs
      have hno := h3 j hj hlt
      rw [decide_eq_true ((hstands j (by omega)).mpr hjs)] at hno
      exact absurd hno (by decide)
    exact handleCryptoSelect_follows hT rfl ⟨hc.handed, hc.overrun, hc.base, hc.arrived, hc.le⟩
      ⟨hk.ge, hk.enc, hk.dec, hk.rc4⟩ hfirst (by
        show i + 8 < a.buf.length
        omega)
  · split_ifs
    · exact follows_fail hc.handed hc.overrun
    · exact .yb l hstate hc hk

/-- Encrypting leaves the key stream of the other side where it is. Source: `RC4Encryptor::encrypt`.
Kind: L -/
theorem encrypt_snd (bs : List UInt8) (e : RC4Encryptor) :
    (e.encrypt bs).2 = ⟨(e.encrypt bs).2.enc, e.dec⟩ := rfl

/-- The first bytes have been collected. Source: `EncryptedAuthenticate::handleYB`. Kind: L -/
theorem handleYB_follows (hT : Offered env t) (hc : Collected t l a) :
    Follows env t (handleYB env a) := by
  unfold handleYB
  split_ifs with hshort
  · exact follows_fail hc.handed hc.overrun
  · have htake : a.buf.take 96 = t.take 96 := by
      rw [← hc.arrived, List.take_append_of_le_length (not_lt.mp hshort)]
    refine findVC_follows (l := l) hT rfl ⟨hc.handed, hc.overrun, hc.base, hc.arrived, hc.le⟩
      ⟨not_lt.mp hshort, ?_, ?_, ?_⟩
    · rw [encOf, secretOf, ← htake]
      rfl
    · rw [decOf, secretOf, ← htake]
      rfl
    · rw [keyOf, decOf, encOf, secretOf, ← htake]
      exact ⟨_, congrArg some (encrypt_snd (offer env) (RC4Encryptor.make _ _))⟩

/-- The connection is closed. Source: `torrent/authenticationmonitor.cpp`, `handleData`. Kind: L -/
theorem receive_nil (hbase : a.base = .fresh []) (hh : a.handed = none) :
    receive env a [] = a.onFinish false := by
  cases a
  subst hbase hh
  rfl

/-- Bytes arrive before the socket was handed on. Source: `torrent/authenticationmonitor.cpp`,
`handleData`. Kind: L -/
theorem receive_waiting {l' d : List UInt8} (hbase : a.base = .fresh l') (hh : a.handed = none)
    (ho : a.overrun = false) (hgo : l' ++ d ≠ [] → Follows env t (receive env a d)) :
    Follows env t (receive env a d) := by
  by_cases hne : l' ++ d = []
  · obtain ⟨rfl, rfl⟩ := List.append_eq_nil_iff.mp hne
    rw [receive_nil hbase hh]
    exact follows_fail hh ho
  · exact hgo hne

/-- Bytes arrive after the socket was handed on. Source: `torrent/authenticationmonitor.cpp`,
`handleData`. Kind: L -/
theorem receive_normal (hstate : a.state = .normalHandshake) (hbase : Sealed a.base)
    (hh : ∀ s ∈ a.handed, s.enc.isSome) (ho : a.overrun = false) (d : List UInt8) :
    Follows env t (receive env a d) := by
  obtain ⟨b, hb⟩ : ∃ b : EncryptedAuthenticate,
      b = { a.onSock (arrive d) with handed := a.handed.map (arrive d) } := ⟨_, rfl⟩
  have hstate' : b.state = .normalHandshake := by rw [hb]; exact hstate
  have hbase' : Sealed b.base := by rw [hb]; exact hbase.arrive d
  have hh' : ∀ s ∈ b.handed, s.enc.isSome := by rw [hb]; exact arrived_enc hh d
  have ho' : b.overrun = false := by rw [hb]; exact ho
  unfold receive
  rw [← hb]
  unfold onReadyRead
  rw [hstate']
  split_ifs
  · exact .plain hstate' hbase' hh' ho'
  · split
    · exact .plain hstate' hbase' hh' ho'
    · dsimp only
      split_ifs
      · exact .plain hstate' (.fail _) hh' ho'
      · exact .plain rfl (hbase'.onReadyRead _) hh' ho'

/-- **One more piece.**. Source: `torrent/authenticationmonitor.cpp`, `handleData`. Kind: P -/
theorem receive_follows {d : List UInt8} (hT : Offered env (t ++ d)) (h : Follows env t a) :
    Follows env (t ++ d) (receive env a d) := by
  cases h with
  | failed hfin hs hh ho =>
    have hreceive : receive env a d =
        { a.onSock (arrive d) with handed := a.handed.map (arrive d) } := if_pos hfin
    rw [hreceive]
    refine .failed hfin hs ?_ ho
    show a.handed.map (arrive d) = none
    rw [hh]
    rfl
  | start l hstate hc =>
    refine receive_waiting hc.base hc.handed hc.overrun fun hne => ?_
    rw [receive_eq hne hc.base hc.handed, hstate]
    have hcol := hc.collect d (toRead_le a (l ++ d).length hc.le)
    dsimp only
    split_ifs
    · exact follows_fail hc.handed hc.overrun
    · exact handleYB_follows hT hcol
  | yb l hstate hc hk =>
    refine receive_waiting hc.base hc.handed hc.overrun fun hne => ?_
    rw [receive_eq hne hc.base hc.handed, hstate]
    have hcol := hc.collect d (toRead_le a (l ++ d).length hc.le)
    exact findVC_follows hT hstate hcol (hk.collect hc _ d _)
  | vc l hstate hc hk hf hlt =>
    refine receive_waiting hc.base hc.handed hc.overrun fun hne => ?_
    rw [receive_eq hne hc.base hc.handed, hstate]
    have hcol := hc.collect d (toRead_le a (l ++ d).length hc.le)
    refine handleCryptoSelect_follows hT hstate hcol (hk.collect hc _ d _)
      (hf.extend (List.prefix_append t d) (hlt.le.trans hc.length_le)) (hlt.trans_le ?_)
    show a.buf.length ≤ (a.buf ++ _).length
    rw [List.length_append]
    exact Nat.le_add_right _ _
  | padD l hstate hbase hh ho hrc4 hselect hle =>
    refine receive_waiting hbase hh ho fun hne => ?_
    rw [receive_eq hne hbase hh, hstate]
    exact handlePadD_follows rfl hh ho hrc4 hselect hle
  | plain hstate hbase hh ho => exact receive_normal hstate hbase hh ho d

/-- Pieces one after the other. Source: `mse/encryptedauthenticate.cpp`,
`mse/encryptedserverauthenticate.cpp`. Kind: L -/
theorem follows_run (ds : List (List UInt8)) : ∀ (t : List UInt8) (a : EncryptedAuthenticate),
    Offered env (t ++ ds.flatten) → Follows env t a →
      Follows env (t ++ ds.flatten) (run (receive env) a ds) := by
  induction ds with
  | nil =>
    intro t a _ h
    rw [List.flatten_nil, List.append_nil]
    exact h
  | cons d ds ih =>
    intro t a hT h
    rw [List.flatten_cons, ← List.append_assoc] at hT ⊢
    exact ih (t ++ d) _ hT (receive_follows (hT.restrict (List.prefix_append _ _)) h)

/-- A new connection follows the empty stream. Source: `EncryptedAuthenticate::connected`.
Kind: L -/
theorem follows_connected : Follows env [] (connected env make) :=
  .start [] rfl ⟨rfl, rfl, rfl, rfl, Nat.zero_le _⟩

/-- **The side that makes the connection does not end without an encryptor**, if what is selected is
what was offered. Source: `mse/encryptedauthenticate.cpp`, `mse/encryptedserverauthenticate.cpp`.
Kind: P -/
theorem encrypted_client {ds pre : List (List UInt8)} (hT : Offered env ds.flatten)
    (hpre : pre <+: ds) : (run (receive env) (connected env make) pre).overrun = false ∧
      Encrypted (run (receive env) (connected env make) pre).handed
        (run (receive env) (connected env make) pre).base := by
  obtain ⟨rest, rfl⟩ := hpre
  rw [List.flatten_append] at hT
  have hrun := follows_run pre [] (connected env make)
    (hT.restrict (List.prefix_append _ _)) follows_connected
  exact hrun.encrypted

/-! ### An answer that selects the plain method -/

/-- The plain handshake goes on with what was read behind pad D.
Source: `EncryptedAuthenticate::handlePadD`. Kind: L -/
theorem handlePadD_base {s : StreamSocket} {e e' : RC4Encryptor} {buf : List UInt8}
    (hs : a.base.sock = some s) (he : a.our_rc4 = some e)
    (hd : e.decryptAt (a.vc_off + 14) a.pad_D_len a.buf = (buf, e'))
    (hselect : a.crypto_select &&& 1 ≠ 0) (hmore : buf.length > a.vc_off + 14 + a.pad_D_len) :
    (handlePadD env a).base = AuthenticateBase.onReadyRead env.handshakeRecieved
      { a.base with sock := some (s.reinsert (buf.drop (a.vc_off + 14 + a.pad_D_len))) } := by
  unfold handlePadD
  simp only [he, hd]
  rw [if_neg fun h => hselect h.1, if_pos hselect]
  simp only [if_pos hmore, onSock, hs, Option.map_some]

/-- An answer in one piece, with something behind pad D.
Source: `torrent/authenticationmonitor.cpp`, `handleData`. Kind: L -/
theorem receive_whole {c : ServerStream} (hc : Followed env c) (hrest : c.rest ≠ [])
    (hshort : (stream env c).length ≤ 608) :
    receive env (connected env make) (stream env c) =
      handlePadD env { waitPadD env c (stream env c).length with state := .foundVC } := by
  have hM : MAX_EA_BUF_SIZE = 1134 := rfl
  have hvcdef : c.vc = 96 + c.padB.length := rfl
  have hfdef : c.finish = c.vc + 14 + c.padD.length := rfl
  have hpos := List.length_pos_iff.mpr hrest
  have hlen : (stream env c).length = c.finish + c.rest.length := by
    unfold stream
    rw [c.length_bytes, c.length_tail]
  have hne : [] ++ stream env c ≠ [] := List.ne_nil_of_length_pos (by
    rw [List.nil_append]
    omega)
  have hread : (connected env make).toRead ([] ++ stream env c).length =
      min (stream env c).length (MAX_EA_BUF_SIZE - 0) := by
    have hpad : (connected env make).pad_D_len = 0 := rfl
    unfold toRead
    rw [hpad]
    exact if_neg fun h => absurd h.1 (lt_irrefl 0)
  have hbytes : (stream env c).drop 0 = stream env c ++ [] := by
    rw [List.drop_zero, List.append_nil]
  have hcol := collect_waiting (Nat.zero_le _) hbytes (a := connected env make) rfl rfl
  rw [receive_eq hne rfl rfl]
  show (if _ > 608 then _ else _) = _
  rw [hread, if_neg (by omega), List.nil_append, hcol, Nat.zero_add,
    handleYB_eq hc le_rfl (by omega), findVC_found hc le_rfl (by omega),
    handleCryptoSelect_found le_rfl (by omega), if_neg (not_not.mpr (by omega))]

/-- **A plain method that is selected is gone on with**, whatever was offered.
Source: `torrent/authenticationmonitor.cpp`, `handleData`. Kind: L -/
theorem receive_selected {c : ServerStream} (hc : Followed env c) (hplain : c.rc4 = false)
    (hrest : c.rest ≠ []) (hshort : (stream env c).length ≤ 608) :
    (receive env (connected env make) (stream env c)).base =
      AuthenticateBase.onReadyRead env.handshakeRecieved
        { sock := some (StreamSocket.reinsert c.rest {}) } := by
  have hM : MAX_EA_BUF_SIZE = 1134 := rfl
  have hpos := List.length_pos_iff.mpr hrest
  have hlen : (stream env c).length = c.finish + c.rest.length := by
    unfold stream
    rw [c.length_bytes, c.length_tail]
  have hmin : min (stream env c).length MAX_EA_BUF_SIZE = (stream env c).length := by omega
  have hfinish : c.finish = c.head.length + (14 + c.padD.length) := by
    rw [c.length_head, ServerStream.finish, Nat.add_assoc]
  have hlong : c.head.length + (14 + c.padD.length) ≤
      ((stream env c).take (stream env c).length).length := by
    rw [List.take_length, hlen, hfinish]
    exact Nat.le_add_right _ _
  have hd : (rc4At env c 14).decryptAt (c.vc + 14) c.padD.length
      (partly c.head c.message ((stream env c).take (stream env c).length) 14) =
        (partly c.head c.message ((stream env c).take (stream env c).length) (14 + c.padD.length),
          rc4At env c (14 + c.padD.length)) := by
    rw [← c.length_head]
    exact decryptAt_partly (c.begins env.xa env.info_hash _) c.length_message.ge hlong
      (rc4At env c 0).enc
  have hbuf : (partly c.head c.message ((stream env c).take (stream env c).length)
      (14 + c.padD.length)).drop (c.vc + 14 + c.padD.length) = c.rest := by
    have hoff : c.vc + 14 + c.padD.length = c.head.length + (14 + c.padD.length) := hfinish
    have hfront : (c.head ++ (c.keyB env.xa env.info_hash).process c.message).length =
        c.head.length + (14 + c.padD.length) := by
      rw [List.length_append, RC4.length_process, c.length_message]
    rw [hoff, drop_partly c.length_message.ge, List.take_length]
    unfold stream ServerStream.bytes ServerStream.tail
    rw [hplain, List.drop_left' hfront]
    rfl
  have hselect : c.select = 1 := by
    unfold ServerStream.select
    rw [hplain]
    rfl
  have hbase := @handlePadD_base env
    { waitPadD env c (stream env c).length with
      state := .foundVC
      buf := partly c.head c.message ((stream env c).take (stream env c).length) 14 }
    ⟨none, none, ((stream env c).take (stream env c).length).drop
      (min (stream env c).length MAX_EA_BUF_SIZE)⟩ _ _ _ rfl rfl hd (by
      show c.select &&& 1 ≠ 0
      rw [hselect]
      decide) (by
      show _ > c.vc + 14 + c.padD.length
      rw [length_partly c.length_message.ge hlong, List.take_length, hlen, ServerStream.finish]
      omega)
  rw [receive_whole hc hrest hshort]
  unfold waitPadD
  rw [hmin]
  refine hbase.trans ?_
  have hnil : ((stream env c).take (stream env c).length).drop
      (min (stream env c).length MAX_EA_BUF_SIZE) = [] := by
    rw [hmin, List.take_length, List.drop_length]
  show AuthenticateBase.onReadyRead _ { AuthenticateBase.fresh _ with
    sock := some (StreamSocket.reinsert (List.drop (c.vc + 14 + c.padD.length) _) _) } = _
  rw [hbuf, hnil]
  rfl

/-- A server that allows no plain connections, and a peer manager that has no peers. Kind: D -/
def strictEnv : Env where
  __ := sampleEnv
  server := ⟨[Vector.replicate 20 7], false⟩
  handshakeRecieved := Authenticate.handshakeRecieved false (List.replicate 20 7)
    ⟨List.replicate 20 1, fun _ => false⟩

/-- An answer that selects the plain method, and a plain handshake. Kind: D -/
def plainSample : ServerStream where
  __ := shortSample
  rc4 := false
  rest := AuthenticateBase.makeHandshake false (Vector.replicate 20 7) (Vector.replicate 20 2)

/-- The sample's stream is counted. Source: `mse/encryptedauthenticate.cpp`,
`mse/encryptedserverauthenticate.cpp`. Kind: L -/
theorem length_plain : (stream strictEnv plainSample).length = 178 := by
  unfold stream
  rw [ServerStream.length_bytes, ServerStream.length_tail]
  rfl

/-- Only RC4 was offered, the plain method was selected, and the authentication succeeds with a
socket that has no encryptor. Source: `mse/encryptedauthenticate.cpp`,
`mse/encryptedserverauthenticate.cpp`. Kind: L -/
theorem succes_plain :
    (run (receive strictEnv) (connected strictEnv make) [stream strictEnv plainSample]).base.succes =
      true ∧
    (run (receive strictEnv) (connected strictEnv make)
      [stream strictEnv plainSample]).base.sock.map StreamSocket.enc = some none := by
  have hc : Followed strictEnv plainSample :=
    ⟨full_sample, fun _ hi hlt => absurd hlt (not_lt.mpr hi)⟩
  have hbase := receive_selected hc rfl (by decide) (by
    rw [length_plain]
    decide)
  rw [run_cons, run_nil, hbase]
  decide

/-- **A plain connection is accepted** where none is allowed.
Source: `mse/encryptedauthenticate.cpp`, `mse/encryptedserverauthenticate.cpp`. Kind: P -/
theorem plain_accepted : ¬ ∀ env : Env, env.server.allow_unencrypted = false →
    ∀ ds : List (List UInt8), Encrypted (run (receive env) (connected env make) ds).handed
      (run (receive env) (connected env make) ds).base := by
  intro h
  obtain ⟨hsucces, hsock⟩ := succes_plain
  obtain ⟨s, hs, henc⟩ := (h strictEnv rfl [stream strictEnv plainSample]).2 hsucces
  rw [hs, Option.map_some, Option.some.injEq] at hsock
  rw [hsock] at henc
  exact Bool.false_ne_true henc

/-! ### An answer that selects RC4 -/

/-- The key of an honest stream is the server's. Source: `mse/encryptedauthenticate.cpp`,
`mse/encryptedserverauthenticate.cpp`. Kind: L -/
theorem keyOf_stream {c : ServerStream} (hc : Followed env c) :
    keyOf env (stream env c) = c.keyB env.xa env.info_hash := by
  have htake : (stream env c).take 96 = c.yb := by
    unfold stream ServerStream.bytes ServerStream.head
    rw [List.append_assoc, List.append_assoc, List.take_left' c.length_yb]
  have hsecret : secretOf env (stream env c) = c.number env.xa := by rw [secretOf, htake,
    ServerStream.number]
  rw [keyOf, RC4Encryptor.make, decOf, hsecret, toBuffer_eq hc.full Vector.length_toList,
    ServerStream.keyB, ServerStream.secret]

/-- The constant is found where it is. Source: `mse/encryptedauthenticate.cpp`,
`mse/encryptedserverauthenticate.cpp`. Kind: L -/
theorem firstAt_stream {c : ServerStream} (hc : Followed env c) {i : ℕ}
    (hf : FirstAt env (stream env c) i) : i = c.vc := by
  have hge : 96 ≤ c.vc := Nat.le_add_right 96 _
  have hstands : StandsAt env (stream env c) c.vc := by
    rw [StandsAt, keyOf_stream hc, drop_vc, ServerStream.constant]
  apply le_antisymm
  · exact not_lt.mp fun hlt => hf.first c.vc hge hlt hstands
  · refine not_lt.mp fun hlt => hc.first i hf.ge hlt ?_
    have hi := hf.stands
    rw [StandsAt, keyOf_stream hc] at hi
    exact hi

/-- What is read where the constant is. Source: `mse/encryptedauthenticate.cpp`,
`mse/encryptedserverauthenticate.cpp`. Kind: L -/
theorem answerAt_stream {c : ServerStream} (hc : Followed env c) :
    answerAt env (stream env c) c.vc = c.choice := by
  have hsplit : stream env c = c.head ++ ((c.keyB env.xa env.info_hash).process c.choice ++
      (((c.keyB env.xa env.info_hash).advance 14).process c.padD ++
        c.tail env.xa env.info_hash)) := by
    unfold stream ServerStream.bytes ServerStream.message
    rw [RC4.process_append, c.length_choice, List.append_assoc, List.append_assoc]
  rw [answerAt, keyOf_stream hc, hsplit, ← c.length_head, List.drop_left,
    List.take_left' (by rw [RC4.length_process, c.length_choice]), RC4.process_process]

/-- **Every valid answer that selects RC4 is what was offered.**.
Source: `mse/encryptedauthenticate.cpp`, `mse/encryptedserverauthenticate.cpp`. Kind: P -/
theorem offered_stream {c : ServerStream} (hc : Followed env c) (hrc4 : c.rc4 = true) :
    Offered env (stream env c) := by
  intro i hf _ _
  obtain rfl := firstAt_stream hc hf
  have hM : MAX_EA_BUF_SIZE = 1134 := rfl
  have hpadB := c.length_padB
  have hpadD := c.length_padD
  have hvcdef : c.vc = 96 + c.padB.length := rfl
  have hselect : c.select = 2 := by
    unfold ServerStream.select
    rw [hrc4]
    rfl
  have h8 : readUint32 c.choice 8 = c.select := by
    have h := readUint32_append (zeros 8) c.select (uint16Bytes c.padD.length)
    rwa [length_zeros, u32_of_lt c.select_lt] at h
  have h12 : readUint16 c.choice 12 = c.padD.length := by
    have h := readUint16_append (zeros 8 ++ uint32Bytes c.select)
      (hpadD.trans_lt (by decide : 512 < 2 ^ 16)) []
    rwa [List.append_nil] at h
  rw [selectAt, padLenAt, answerAt_stream hc, h8, h12, hselect]
  refine ⟨by decide, ?_⟩
  omega

/-- The bytes of an answer that selects RC4. Kind: D -/
def rc4Reply : List UInt8 := stream strictEnv shortSample

/-- The sample's keys fit together. Source: `mse/encryptedauthenticate.cpp`,
`mse/encryptedserverauthenticate.cpp`. Kind: L -/
theorem followed_strict : Followed strictEnv shortSample where
  full := full_sample
  first := fun _ hi hlt => absurd hlt (not_lt.mpr hi)

end EncryptedAuthenticate

/-- **No plain connection where none is allowed**: the side that was contacted never ends without an
encryptor, and neither does the side that makes the connection, in every state it passes through, if
the method selected is one that was offered. Source: `mse/encryptedauthenticate.cpp`,
`mse/encryptedserverauthenticate.cpp`. Kind: P -/
theorem encrypted_run {senv : EncryptedServerAuthenticate.Env} {env : EncryptedAuthenticate.Env}
    (hoff : senv.server.allow_unencrypted = false) {ds : List (List UInt8)}
    (hT : EncryptedAuthenticate.Offered env ds.flatten) :
    (∀ sds : List (List UInt8), Encrypted
      (run (EncryptedServerAuthenticate.receive senv) EncryptedServerAuthenticate.make sds).handed
      (run (EncryptedServerAuthenticate.receive senv) EncryptedServerAuthenticate.make sds).base) ∧
    ∀ pre, pre <+: ds →
      let a := run (EncryptedAuthenticate.receive env)
        (EncryptedAuthenticate.connected env EncryptedAuthenticate.make) pre
      a.overrun = false ∧ Encrypted a.handed a.base :=
  ⟨EncryptedServerAuthenticate.encrypted_server hoff,
    fun _ hpre => EncryptedAuthenticate.encrypted_client hT hpre⟩

/-- A server that allows no plain connections. Kind: D -/
def strictServer : EncryptedServerAuthenticate.Env where
  server := ⟨[Vector.replicate 20 7], false⟩
  xb := 1
  yb := 2 :: List.replicate 95 0
  stack := fun _ _ => Vector.replicate 96 0
  handshakeRecieved := fun _ _ => .accept

/-- An answer that selects RC4, in one piece. Source: `mse/encryptedauthenticate.cpp`,
`mse/encryptedserverauthenticate.cpp`. Kind: P -/
theorem encrypted_reply :
    Encrypted (run (EncryptedServerAuthenticate.receive strictServer)
      EncryptedServerAuthenticate.make [[]]).handed
      (run (EncryptedServerAuthenticate.receive strictServer)
        EncryptedServerAuthenticate.make [[]]).base ∧
    Encrypted (run (EncryptedAuthenticate.receive EncryptedAuthenticate.strictEnv)
      (EncryptedAuthenticate.connected EncryptedAuthenticate.strictEnv EncryptedAuthenticate.make)
        [EncryptedAuthenticate.rc4Reply]).handed
      (run (EncryptedAuthenticate.receive EncryptedAuthenticate.strictEnv)
        (EncryptedAuthenticate.connected EncryptedAuthenticate.strictEnv EncryptedAuthenticate.make)
          [EncryptedAuthenticate.rc4Reply]).base := by
  have hT : EncryptedAuthenticate.Offered EncryptedAuthenticate.strictEnv
      [EncryptedAuthenticate.rc4Reply].flatten := by
    rw [List.flatten_singleton]
    exact EncryptedAuthenticate.offered_stream EncryptedAuthenticate.followed_strict rfl
  have h := encrypted_run (rfl : strictServer.server.allow_unencrypted = false) hT
  exact ⟨h.1 [[]], (h.2 _ List.prefix_rfl).2⟩

end KTorrent.Mse
