import KTorrent.Mse.Fragments

/-!
# What the plain handshake takes from an encrypted socket

The plain handshake that follows an encrypted one reads its 68 bytes from a socket into which bytes
may have been reinserted, which may have an encryptor, and on which more bytes arrive.

* `StreamSocket.Next` — a read that takes the next bytes, each decrypted once; `next_readData` says
  when a read does.
* `Took` — what the plain handshake has come to with a stream of bytes: how many of them are in its
  buffer, that the socket has the others to give, and what was decided about them.
* `Smooth` — nothing the plain handshake will read mixes reinserted bytes with received ones under an
  encryptor.
* `Reading.onReadyRead`, `Kept.arrive` — one call, and bytes that arrive.
* `Method` — an encryptor stays where it is.

Source: `torrent/authenticatebase.cpp`, `mse/streamsocket.cpp`
-/

namespace KTorrent.Mse

open KTorrent.Lib KTorrent.Util KTorrent.Storage

/-! ### Reading what is there -/

namespace StreamSocket

/-- What arrives in two pieces arrives. Source: `torrent/authenticatebase.cpp`,
`mse/streamsocket.cpp`. Kind: L -/
theorem arrive_arrive (d more : List UInt8) (s : StreamSocket) :
    arrive more (arrive d s) = arrive (d ++ more) s := by
  unfold arrive
  rw [List.append_assoc]

/-- What arrives is on the socket. Source: `torrent/authenticatebase.cpp`, `mse/streamsocket.cpp`.
Kind: L -/
theorem raw_arrive (d : List UInt8) (s : StreamSocket) : (arrive d s).raw = s.raw ++ d :=
  (List.append_assoc _ _ _).symm

/-- The socket counts what it has. Source: `StreamSocket::bytesAvailable`. Kind: L -/
theorem bytesAvailable_eq (s : StreamSocket) : s.bytesAvailable = s.raw.length := by
  rw [bytesAvailable, raw, List.length_append, Nat.add_comm]

/-- Decrypting keeps the length. Source: `torrent/authenticatebase.cpp`, `mse/streamsocket.cpp`.
Kind: L -/
theorem length_plain (s : StreamSocket) : s.plain.length = s.raw.length := by
  unfold plain
  cases s.enc with
  | none => rfl
  | some e => exact e.dec.length_process _

/-- Nothing is decrypted. Source: none: infrastructure. Kind: L -/
theorem decrypt_nil (s : StreamSocket) : s.decrypt [] = ([], s) := by
  obtain ⟨enc, _, _⟩ := s
  cases enc <;> rfl

/-- Decrypting depends on the encryptor only. Source: `torrent/authenticatebase.cpp`,
`mse/streamsocket.cpp`. Kind: L -/
theorem decrypt_eq (bs : List UInt8) {s t : StreamSocket} (henc : t.enc = s.enc) :
    t.decrypt bs = ((s.decrypt bs).1, { t with enc := (s.decrypt bs).2.enc }) := by
  unfold decrypt
  rw [henc]
  cases hs : s.enc with
  | none =>
    dsimp only
    rw [← henc]
  | some e => rfl

/-- Decrypting keeps the encryption on. Source: `torrent/authenticatebase.cpp`,
`mse/streamsocket.cpp`. Kind: L -/
theorem enc_decrypt (bs : List UInt8) (s : StreamSocket) :
    (s.decrypt bs).2.enc.isSome = s.enc.isSome := by
  unfold decrypt
  cases h : s.enc with
  | none => exact congrArg Option.isSome h
  | some e => rfl

/-- Reading keeps it on. Source: `StreamSocket::readData`. Kind: L -/
theorem enc_readRest (len answer : ℕ) (front : List UInt8) (s : StreamSocket) :
    (s.readRest len answer front).sock.enc.isSome = s.enc.isSome := by
  unfold readRest
  split_ifs
  · rfl
  · dsimp only
    split_ifs
    · rw [enc_decrypt]
      rfl
    · rfl

/-- Reading leaves the encryptor in its place. Source: `StreamSocket::readData`. Kind: L -/
theorem enc_readData (len answer : ℕ) (s : StreamSocket) :
    (s.readData len answer).sock.enc.isSome = s.enc.isSome := by
  unfold readData
  cases s.reinserted with
  | none => exact enc_readRest len answer [] s
  | some r =>
    dsimp only
    split_ifs
    · rw [enc_readRest, enc_decrypt]
    · rw [enc_decrypt]

/-- A read that takes the next `len` bytes, each decrypted once. Kind: D -/
structure Next (s : StreamSocket) (len : ℕ) (r : Read) : Prop where
  buf : r.buf = (s.decrypt (s.raw.take len)).1
  enc : r.sock.enc = (s.decrypt (s.raw.take len)).2.enc
  back : r.sock.back = s.back.drop len
  raw : r.sock.raw = s.raw.drop len

/-- A socket without reinserted bytes. Source: `RC4::process(Uint8)`. Kind: L -/
theorem next_readRest {s t : StreamSocket} (hback : s.back = []) (ht : t.back = [])
    (henc : t.enc = s.enc) (hsock : t.sock = s.sock) {len : ℕ} (hlen : len ≤ s.raw.length) :
    s.Next len (t.readRest len len []) := by
  have hraw : s.raw = s.sock := by rw [raw, hback, List.nil_append]
  rw [hraw] at hlen
  unfold readRest
  by_cases hz : len = 0
  · subst hz
    rw [if_pos List.length_nil.symm]
    constructor
    · rw [List.take_zero, decrypt_nil]
    · rw [List.take_zero, decrypt_nil]
      exact henc
    · rw [ht, hback]
      rfl
    · rw [hraw, StreamSocket.raw, ht, List.nil_append, hsock]
      rfl
  · rw [if_neg (by simpa using hz)]
    have hrecv : t.recv (len - ([] : List UInt8).length) len =
        (s.sock.take len, { t with sock := s.sock.drop len }) := by
      simp [recv, hsock]
    have hpos : (s.sock.take len).length + ([] : List UInt8).length > 0 := by
      rw [List.length_take, List.length_nil]
      omega
    dsimp only
    rw [hrecv]
    dsimp only
    rw [if_pos hpos, List.nil_append,
      decrypt_eq (t := { t with sock := s.sock.drop len }) (s.sock.take len) henc, ← hraw]
    refine ⟨rfl, rfl, ?_, ?_⟩
    · rw [hback, List.drop_nil]
      exact ht
    · show t.back ++ _ = _
      rw [ht, List.nil_append]

/-- A socket without an encryptor. Source: `torrent/authenticatebase.cpp`, `mse/streamsocket.cpp`.
Kind: L -/
theorem decrypt_none (bs : List UInt8) {s : StreamSocket} (h : s.enc = none) :
    s.decrypt bs = (bs, s) := by
  unfold decrypt
  rw [h]

/-- The last reinserted bytes and some of the others, without an encryptor.
Source: `RC4::process(Uint8)`. Kind: L -/
theorem next_mixed {s : StreamSocket} (henc : s.enc = none) {len : ℕ} (hpos : 0 < s.back.length)
    (hlt : s.back.length < len) :
    s.Next len (readRest len len s.back { s with reinserted := none }) := by
  have hmin : min (len - s.back.length) len = len - s.back.length := min_eq_left (Nat.sub_le _ _)
  unfold readRest
  rw [if_neg hlt.ne']
  unfold recv
  dsimp only
  rw [hmin, if_pos (Nat.add_pos_right _ hpos),
    decrypt_none (s := { s with reinserted := none, sock := s.sock.drop (len - s.back.length) }) _ henc]
  constructor
  · rw [decrypt_none _ henc, StreamSocket.raw, List.take_append, List.take_of_length_le hlt.le]
  · rw [decrypt_none _ henc]
  · rw [List.drop_eq_nil_of_le hlt.le]
    rfl
  · rw [StreamSocket.raw, StreamSocket.raw, List.drop_append, List.drop_eq_nil_of_le hlt.le]
    rfl

/-- **A read of bytes that are there takes the next ones**, unless it mixes reinserted bytes with
received ones under an encryptor. Source: `RC4::process(Uint8)`. Kind: L -/
theorem next_readData {s : StreamSocket} {len : ℕ} (hlen : len ≤ s.raw.length)
    (h : s.enc = none ∨ ¬ s.Mixes (.readData len len)) : s.Next len (s.readData len len) := by
  unfold readData
  cases hre : s.reinserted with
  | none =>
    have hback : s.back = [] := by rw [back, hre]; rfl
    exact next_readRest hback hback rfl rfl hlen
  | some r =>
    have hback : s.back = r.rest := by rw [back, hre]; rfl
    dsimp only
    split_ifs with hlt
    · by_cases hnil : r.rest = []
      · -- the reinserted bytes are used up already
        rw [hnil, decrypt_nil]
        exact next_readRest (s := s) (t := { s with reinserted := none }) (hback.trans hnil) rfl rfl
          rfl hlen
      · rw [← hback] at hlt hnil ⊢
        have hpos := List.length_pos_iff.mpr hnil
        have henc : s.enc = none := h.resolve_right fun hn => hn ⟨hpos, hlt⟩
        rw [decrypt_none (s := { s with reinserted := none }) _ henc]
        exact next_mixed henc hpos hlt
    · have hle := not_lt.mp hlt
      have htake : s.raw.take len = r.rest.take len := by
        rw [StreamSocket.raw, hback, List.take_append_of_le_length hle]
      have hdrop : s.raw.drop len = r.rest.drop len ++ s.sock := by
        rw [StreamSocket.raw, hback, List.drop_append_of_le_length hle]
      rw [decrypt_eq (s := s) (t := { s with reinserted := some _ }) (r.rest.take len) rfl]
      constructor
      · rw [htake]
      · rw [htake]
      · rw [hback, Reinserted.rest, List.drop_drop]
        rfl
      · rw [hdrop, Reinserted.rest, List.drop_drop]
        rfl

/-- What is to be delivered, with what arrives later, is what was read and what is left.
Source: `torrent/authenticatebase.cpp`, `mse/streamsocket.cpp`. Kind: L -/
theorem Next.plain {s : StreamSocket} {len : ℕ} {r : Read} (h : s.Next len r) (more : List UInt8) :
    (arrive more s).plain = r.buf ++ (arrive more r.sock).plain := by
  have hraw : (arrive more s).raw = s.raw.take len ++ (arrive more r.sock).raw := by
    rw [raw_arrive, raw_arrive, h.raw, ← List.append_assoc, List.take_append_drop]
  have henc : (arrive more r.sock).enc = (s.decrypt (s.raw.take len)).2.enc := h.enc
  rw [h.buf]
  have hkeep : (arrive more s).enc = s.enc := rfl
  unfold StreamSocket.plain
  rw [henc, hkeep]
  unfold decrypt
  cases hs : s.enc with
  | none =>
    dsimp only
    rw [hs, hraw]
  | some e =>
    dsimp only
    rw [hraw, RC4.process_append]
    rfl

/-- A read fills its buffer. Source: `torrent/authenticatebase.cpp`, `mse/streamsocket.cpp`.
Kind: L -/
theorem Next.length {s : StreamSocket} {len : ℕ} {r : Read} (h : s.Next len r)
    (hlen : len ≤ s.raw.length) : r.buf.length = len := by
  rw [h.buf, length_decrypt, List.length_take, min_eq_left hlen]

end StreamSocket

/-! ### What the plain handshake has come to -/

namespace AuthenticateBase

open StreamSocket (arrive)

/-- A subclass decides about a full handshake, and does not accept a part of one. Kind: D -/
structure Decisive (verdict : Bool → List UInt8 → Verdict) : Prop where
  full : ∀ hs, verdict true hs ≠ .wait
  part : ∀ hs, verdict false hs ≠ .accept

/-- The server's side decides on a whole handshake. Source: `torrent/authenticatebase.cpp`,
`mse/streamsocket.cpp`. Kind: L -/
theorem decisive_server (blocked : Bool) (findPeerManager : List UInt8 → Option Pman) :
    Decisive (ServerAuthenticate.handshakeRecieved blocked findPeerManager) :=
  ⟨ServerAuthenticate.handshakeRecieved_full blocked findPeerManager,
    ServerAuthenticate.handshakeRecieved_part blocked findPeerManager⟩

/-- The client's side decides on a whole handshake. Source: `torrent/authenticatebase.cpp`,
`mse/streamsocket.cpp`. Kind: L -/
theorem decisive_client (blocked : Bool) (info_hash : List UInt8) (pman : Pman) :
    Decisive (Authenticate.handshakeRecieved blocked info_hash pman) :=
  ⟨(Authenticate.subclass blocked info_hash pman).full_ends,
    (Authenticate.subclass blocked info_hash pman).part_waits⟩

/-- Nothing is decided: the first `k` of the bytes `p` have been read, and the socket has the others
to give, each decrypted once, when `more` has arrived. Kind: D -/
structure Reading (p more : List UInt8) (k : ℕ) (s : StreamSocket) (a : AuthenticateBase) : Prop where
  finished : a.finished = false
  sock : a.sock = some s
  recieved : a.bytes_of_handshake_recieved = k
  handshake : a.handshake = Session.part (p.take k)
  part : k = 0 ∨ 48 ≤ k ∧ k < 68
  le : k ≤ p.length
  rest : (arrive more s).plain = p.drop k

/-- **What the plain handshake has come to with the bytes `p`**, when all but `more` have arrived.
Kind: D -/
inductive Took (verdict : Bool → List UInt8 → Verdict) (p more : List UInt8)
    (a : AuthenticateBase) : Prop
  /-- It waits, since there are fewer than 48 bytes to read. -/
  | waits {k : ℕ} {s : StreamSocket} (ha : Reading p more k s a) (few : s.raw.length < 48)
  /-- The subclass refused a part of the handshake. -/
  | refused {k : ℕ} (hk : 48 ≤ k ∧ k < 68) (hle : k ≤ p.length)
      (hno : a.finished = true ∧ a.succes = false) (hhs : a.handshake = Session.part (p.take k))
      (hv : verdict false a.handshake = .fail)
  /-- The handshake is not one, or the subclass refused it. -/
  | failed (hle : 68 ≤ p.length) (hno : a.finished = true ∧ a.succes = false)
      (hhs : a.handshake = p.take 68)
      (hv : p.take 20 ≠ pstr ∨ p.take 20 = pstr ∧ verdict true (p.take 68) = .fail)
  /-- The handshake was accepted, and the socket has what follows it to give. -/
  | accepted {s : StreamSocket} (hle : 68 ≤ p.length) (hyes : a.finished = true ∧ a.succes = true)
      (hhs : a.handshake = p.take 68) (hv : p.take 20 = pstr ∧ verdict true (p.take 68) = .accept)
      (hs : a.sock = some s) (rest : (arrive more s).plain = p.drop 68)

/-- Of the bytes to come, nothing is read that mixes reinserted bytes with received ones under an
encryptor. Kind: D -/
def Smooth (more : List UInt8) (s : StreamSocket) : Prop :=
  48 ≤ s.raw.length + more.length →
    s.enc = none ∨ s.back = [] ∨ 48 ≤ s.raw.length ∧ (68 ≤ s.back.length ∨ s.sock = [])

/-- What the plain handshake has come to, with a socket that it can go on reading. Kind: D -/
structure Kept (verdict : Bool → List UInt8 → Verdict) (p more : List UInt8)
    (a : AuthenticateBase) : Prop where
  took : Took verdict p more a
  smooth : ∀ s, a.finished = false → a.sock = some s → Smooth more s

/-- The socket, as long as there is one, has an encryptor, or has none. Kind: D -/
def Method (rc4 : Bool) (a : AuthenticateBase) : Prop := ∀ s ∈ a.sock, s.enc.isSome = rc4

section Steps

variable {verdict : Bool → List UInt8 → Verdict} {p more : List UInt8} {k : ℕ} {s : StreamSocket}
  {a : AuthenticateBase}

/-- What is read, what is there and what is to come make the whole.
Source: `torrent/authenticatebase.cpp`, `mse/streamsocket.cpp`. Kind: L -/
theorem Reading.length (ha : Reading p more k s a) : k + (s.raw.length + more.length) = p.length := by
  have hlen := congrArg List.length ha.rest
  rw [StreamSocket.length_plain, StreamSocket.raw_arrive, List.length_append, List.length_drop] at hlen
  have hle := ha.le
  omega

/-- Once finished, what was taken is kept. Source: `torrent/authenticatebase.cpp`,
`mse/streamsocket.cpp`. Kind: L -/
theorem Kept.of_finished (h : Took verdict p more a) (hfin : a.finished = true) :
    Kept verdict p more a :=
  ⟨h, fun _ hno _ => absurd (hfin.symm.trans hno) (by decide)⟩

/-- A socket that can be read smoothly now can be read smoothly later, if nothing is read now.
Source: `torrent/authenticatebase.cpp`, `mse/streamsocket.cpp`. Kind: L -/
theorem Smooth.arrive {d : List UInt8} (h : Smooth (d ++ more) s) (hfew : s.raw.length < 48) :
    Smooth more (StreamSocket.arrive d s) := by
  intro hlong
  rw [StreamSocket.raw_arrive, List.length_append, Nat.add_assoc, ← List.length_append] at hlong
  rcases h hlong with h | h | ⟨h, -⟩
  · exact .inl h
  · exact .inr (.inl h)
  · omega

/-- What the plain handshake may read of a smooth socket. Source: `RC4::process(Uint8)`. Kind: L -/
theorem Smooth.next (h : Smooth more s) (hlong : 48 ≤ s.raw.length) {len : ℕ} (hlen : len ≤ 68)
    (hle : len ≤ s.raw.length) : s.Next len (s.readData len len) := by
  refine StreamSocket.next_readData hle ?_
  rcases h (hlong.trans (Nat.le_add_right _ _)) with h | h | ⟨-, h | h⟩
  · exact .inl h
  · refine .inr fun hmix => ?_
    have hpos := hmix.1
    rw [h] at hpos
    exact absurd hpos (lt_irrefl 0)
  · exact .inr fun hmix => absurd (h.trans_lt hmix.2) (not_lt.mpr hlen)
  · refine .inr fun hmix => absurd hmix.2 (not_lt.mpr ?_)
    rwa [StreamSocket.raw, h, List.append_nil] at hle

/-- The decision about a part of the handshake. Source: `torrent/authenticatebase.cpp`,
`mse/streamsocket.cpp`. Kind: L -/
theorem Reading.decided (hv : Decisive verdict) (ha : Reading p more k s a) (hk : 48 ≤ k ∧ k < 68)
    (few : s.raw.length < 48) (hback : s.back = []) : Kept verdict p more (a.decided verdict false) := by
  unfold AuthenticateBase.decided
  cases hd : verdict false a.handshake with
  | fail => exact .of_finished (.refused hk ha.le ⟨rfl, rfl⟩ ha.handshake hd) rfl
  | wait =>
    refine ⟨.waits ha few, fun t _ ht _ => .inr (.inl ?_)⟩
    obtain rfl := Option.some.inj (ha.sock.symm.trans ht)
    exact hback
  | accept => exact absurd hd (hv.part _)

/-- The decision about a full handshake. Source: `torrent/authenticatebase.cpp`,
`mse/streamsocket.cpp`. Kind: L -/
theorem kept_full (hv : Decisive verdict) (hs : a.sock = some s) (hle : 68 ≤ p.length)
    (hhs : a.handshake = p.take 68) (hrest : (arrive more s).plain = p.drop 68) :
    Kept verdict p more
      (if a.handshake.take 20 = pstr then a.decided verdict true else a.onFinish false) := by
  have htake : a.handshake.take 20 = p.take 20 := by
    rw [hhs, List.take_take, min_eq_left (by decide)]
  rw [htake]
  split_ifs with hp
  · unfold AuthenticateBase.decided
    cases hd : verdict true a.handshake with
    | fail => exact .of_finished (.failed hle ⟨rfl, rfl⟩ hhs (.inr ⟨hp, hhs ▸ hd⟩)) rfl
    | wait => exact absurd hd (hv.full _)
    | accept => exact .of_finished (.accepted hle ⟨rfl, rfl⟩ hhs ⟨hp, hhs ▸ hd⟩ hs hrest) rfl
  · exact .of_finished (.failed hle ⟨rfl, rfl⟩ hhs (.inl hp)) rfl

/-- **One call of `onReadyRead`** with bytes to read. Source: `AuthenticateBase::onReadyRead`.
Kind: P -/
theorem Reading.onReadyRead (hv : Decisive verdict) (ha : Reading p more k s a) (hne : s.raw ≠ [])
    (hs : Smooth more s) : Kept verdict p more (a.onReadyRead verdict) := by
  have hlen := ha.length
  have hpos := List.length_pos_iff.mpr hne
  unfold AuthenticateBase.onReadyRead
  rw [ha.sock]
  dsimp only
  rw [StreamSocket.bytesAvailable_eq, if_neg (Nat.pos_iff_ne_zero.mp hpos), ha.recieved]
  by_cases hfew : s.raw.length < 48
  · rw [if_pos (.inr hfew)]
    refine ⟨.waits ha hfew, fun t _ ht => ?_⟩
    obtain rfl := Option.some.inj (ha.sock.symm.trans ht)
    exact hs
  rw [if_neg (by simpa [ha.finished] using hfew)]
  have hlong := not_lt.mp hfew
  by_cases hpart : k = 0 ∧ s.raw.length < 68
  · -- all there is becomes a part of the handshake
    obtain ⟨rfl, hshort⟩ := hpart
    have hnext := hs.next hlong hshort.le le_rfl
    rw [if_pos ⟨rfl, hshort⟩]
    obtain ⟨r, hr⟩ : ∃ r, r = s.readData s.raw.length s.raw.length := ⟨_, rfl⟩
    rw [← hr] at hnext ⊢
    have hbuflen := hnext.length le_rfl
    have hrest := hnext.plain more
    rw [ha.rest, List.drop_zero] at hrest
    have hbuf : r.buf = p.take s.raw.length := by rw [hrest, List.take_left' hbuflen]
    have hback : r.sock.back = [] := by
      rw [hnext.back]
      refine List.drop_eq_nil_of_le ?_
      rw [StreamSocket.raw, List.length_append]
      exact Nat.le_add_right _ _
    have hraw : r.sock.raw = [] := by rw [hnext.raw, List.drop_length]
    have hreading : Reading p more s.raw.length r.sock
        { a with
          handshake := overwrite a.handshake 0 r.buf
          bytes_of_handshake_recieved := s.raw.length
          sock := some r.sock } := by
      refine ⟨ha.finished, rfl, rfl, ?_, .inr ⟨hlong, hshort⟩, by omega, ?_⟩
      · show overwrite a.handshake 0 r.buf = _
        rw [ha.handshake, hbuf, List.take_zero]
        rfl
      · rw [hrest, List.drop_left' hbuflen]
    exact hreading.decided hv ⟨hlong, hshort⟩ (by rw [hraw]; exact Nat.zero_lt_succ 47) hback
  · rw [if_neg hpart]
    have hread : 68 - k ≤ s.raw.length := by
      rcases ha.part with rfl | hk
      · omega
      · omega
    have hk68 : k ≤ 68 := by
      rcases ha.part with rfl | hk
      · exact Nat.zero_le 68
      · exact hk.2.le
    have hnext := hs.next hlong (Nat.sub_le 68 k) hread
    obtain ⟨r, hr⟩ : ∃ r, r = s.readData (68 - k) (68 - k) := ⟨_, rfl⟩
    rw [← hr] at hnext ⊢
    have hbuflen := hnext.length hread
    have hrest := hnext.plain more
    rw [ha.rest] at hrest
    have hbuf : r.buf = (p.take 68).drop k := by
      rw [List.drop_take, hrest, List.take_left' hbuflen]
    refine kept_full (p := p) (s := r.sock)
      (a := { a with
        handshake := overwrite a.handshake k r.buf
        bytes_of_handshake_recieved := k
        sock := some r.sock }) hv rfl (by omega) ?_ ?_
    · show overwrite a.handshake k r.buf = p.take 68
      have htake : p.take k = (p.take 68).take k := by rw [List.take_take, min_eq_left hk68]
      rw [ha.handshake, hbuf, htake]
      have hfull : (p.take 68).length = 68 := by
        rw [List.length_take]
        omega
      exact Session.overwrite_part hk68 hfull
    · have hdrop := congrArg (List.drop (68 - k)) hrest
      rw [List.drop_drop, Nat.add_sub_cancel' hk68, List.drop_left' hbuflen] at hdrop
      exact hdrop.symm

/-- **Bytes arrive**, or the socket is polled again with bytes left in it.
Source: `torrent/authenticatebase.cpp`, `mse/streamsocket.cpp`. Kind: P -/
theorem Kept.arrive (hv : Decisive verdict) {d : List UInt8} (h : Kept verdict p (d ++ more) a)
    (hd : d = [] → ∃ s, a.sock = some s ∧ s.sock ≠ []) :
    Kept verdict p more
      (if a.finished then { a with sock := a.sock.map (StreamSocket.arrive d) }
        else ({ a with sock := a.sock.map (StreamSocket.arrive d) } : AuthenticateBase).onReadyRead
          verdict) := by
  obtain @⟨k, s, ha, few⟩ | ⟨hk, hle, hno, hhs, hv'⟩ | ⟨hle, hno, hhs, hv'⟩ |
    ⟨hle, hyes, hhs, hv', hs, hrest⟩ := h.took
  · rw [if_neg (by rw [ha.finished]; exact Bool.false_ne_true)]
    have hreading : Reading p more k (StreamSocket.arrive d s)
        { a with sock := a.sock.map (StreamSocket.arrive d) } :=
      ⟨ha.finished, by rw [ha.sock]; rfl, ha.recieved, ha.handshake, ha.part, ha.le,
        by rw [StreamSocket.arrive_arrive]; exact ha.rest⟩
    refine hreading.onReadyRead hv ?_ ((h.smooth s ha.finished ha.sock).arrive few)
    rw [StreamSocket.raw_arrive]
    intro hnil
    obtain ⟨hraw, rfl⟩ := List.append_eq_nil_iff.mp hnil
    obtain ⟨t, ht, htsock⟩ := hd rfl
    obtain rfl := Option.some.inj (ha.sock.symm.trans ht)
    exact htsock (List.append_eq_nil_iff.mp hraw).2
  · rw [if_pos hno.1]
    exact .of_finished (.refused hk hle hno hhs hv') hno.1
  · rw [if_pos hno.1]
    exact .of_finished (.failed hle hno hhs hv') hno.1
  · rw [if_pos hyes.1]
    refine .of_finished (.accepted hle hyes hhs hv' (congrArg (Option.map _) hs) ?_) hyes.1
    rw [StreamSocket.arrive_arrive]
    exact hrest

/-- A decision keeps the method. Source: `torrent/authenticatebase.cpp`, `mse/streamsocket.cpp`.
Kind: L -/
theorem Method.decided {rc4 full : Bool} (h : Method rc4 a) : Method rc4 (a.decided verdict full) := by
  unfold AuthenticateBase.decided
  cases verdict full a.handshake with
  | fail => exact fun _ hs => absurd hs (Option.not_mem_none _)
  | wait => exact h
  | accept => exact h

/-- A call of `onReadyRead` neither installs an encryptor nor takes one away.
Source: `AuthenticateBase::onReadyRead`. Kind: L -/
theorem Method.onReadyRead {rc4 : Bool} (h : Method rc4 a) : Method rc4 (a.onReadyRead verdict) := by
  have hfail : ∀ b : AuthenticateBase, Method rc4 (b.onFinish false) :=
    fun _ _ hs => absurd hs (Option.not_mem_none _)
  unfold AuthenticateBase.onReadyRead
  cases hs : a.sock with
  | none => exact h
  | some s =>
    have hread : ∀ len, ∀ t ∈ some (s.readData len len).sock, t.enc.isSome = rc4 := by
      intro len t ht
      obtain rfl := Option.some.inj ht
      exact (StreamSocket.enc_readData len len s).trans (h s hs)
    dsimp only
    split_ifs
    · exact hfail a
    · exact h
    · exact Method.decided (hread _)
    · exact Method.decided (hread _)
    · exact hfail _

/-- An arrival keeps the method. Source: `torrent/authenticatebase.cpp`, `mse/streamsocket.cpp`.
Kind: L -/
theorem Method.arrive {rc4 : Bool} (h : Method rc4 a) (d : List UInt8) :
    Method rc4 { a with sock := a.sock.map (StreamSocket.arrive d) } := by
  intro s hs
  obtain ⟨t, ht, rfl⟩ := Option.map_eq_some_iff.mp hs
  exact h t ht

end Steps

end AuthenticateBase

end KTorrent.Mse
