import KTorrent.Lib.GuardedRun
import KTorrent.Net.Packet

/-!
# The packet reader

Bytes arrive in blocks of any size; packets are cut out of them and wait for `update`, which hands
them to the peer.

* `newPacket`, `readPacket`, `onDataReady`, `update` — the operations of the source.
* `Framer` — what they are for, byte by byte: a length field, then that many bytes.
* `follows_onDataReady` — the reader follows the framer, however the bytes are cut.
* `packets_delivered` — so the packets delivered are the frames completed, and none after a length
  that is too large.

Source: `torrent/packetreader.h`, `torrent/packetreader.cpp`
-/

namespace KTorrent.Net

open KTorrent.Lib KTorrent.Util KTorrent.Transfer

/-- Source: `torrent/packetreader.h`, `IncomingPacket`; `data` are the bytes read so far. Kind: D -/
structure IncomingPacket where
  size : ℕ
  data : List UInt8 := []
deriving DecidableEq

/-- Source: `IncomingPacket`, `read == size`. Kind: D -/
def IncomingPacket.full (p : IncomingPacket) : Bool := decide (p.data.length = p.size)

/-- Source: `torrent/packetreader.h`, `PacketReader`. Kind: D -/
structure PacketReader where
  error : Bool := false
  packet_queue : List IncomingPacket := []
  len : List UInt8 := List.replicate 4 0
  len_received : ℤ := -1
  /-- What `Peer::packetReady` has been called with, in order. -/
  delivered : List (List UInt8) := []

namespace PacketReader

/-! ### The operations -/

/-- `memcpy(len + off, bs, ...)`. Kind: D -/
def setLen (len : List UInt8) (off : ℕ) (bs : List UInt8) : List UInt8 :=
  len.take off ++ bs ++ len.drop (off + bs.length)

/-- Bytes for the last packet of the queue; the second component is how many are taken.
Source: `PacketReader::readPacket`. Kind: D -/
def readPacket (buf : List UInt8) (r : PacketReader) : PacketReader × ℕ :=
  if buf.length = 0 then (r, 0)
  else
    match r.packet_queue.getLast? with
    | none => (r, 0)
    | some pck =>
        let tr :=
          if u32 (pck.data.length + buf.length) ≥ pck.size then pck.size - pck.data.length
          else buf.length
        ({ r with packet_queue := r.packet_queue.dropLast ++
            [{ pck with data := pck.data ++ buf.take tr }] }, tr)

/-- A length field is complete; `am_of_len_read` of its bytes come from `buf`.
Source: `PacketReader::newPacket`, from `if (packet_length == 0)` on. Kind: D -/
def beginPacket (buf : List UInt8) (packet_length am_of_len_read : ℕ) (r : PacketReader) :
    PacketReader × ℕ :=
  if packet_length = 0 then (r, am_of_len_read)
  else if packet_length > MAX_PIECE_LEN + 13 then ({ r with error := true }, buf.length)
  else
    let q := readPacket (buf.drop am_of_len_read)
      { r with packet_queue := r.packet_queue ++ [{ size := packet_length }] }
    (q.1, am_of_len_read + q.2)

/-- Source: `PacketReader::newPacket`; the second component is what it returns. Kind: D -/
def newPacket (buf : List UInt8) (r : PacketReader) : PacketReader × ℕ :=
  if r.len_received > 0 then
    let k := r.len_received.toNat
    if buf.length < 4 - k then
      ({ r with len := setLen r.len k buf, len_received := r.len_received + buf.length }, buf.length)
    else
      let len := setLen r.len k (buf.take (4 - k))
      beginPacket buf (readUint32 len 0) (4 - k) { r with len := len, len_received := 0 }
  else if buf.length < 4 then
    ({ r with len := setLen r.len 0 buf, len_received := buf.length }, buf.length)
  else beginPacket buf (readUint32 buf 0) 4 r

/-- `while (ret < size && !error) ret += newPacket(buf + ret, size - ret);`.
Source: `PacketReader::onDataReady`. Kind: D -/
def newPackets : ℕ → List UInt8 → PacketReader → PacketReader
  | 0, _, r => r
  | fuel + 1, buf, r =>
      if buf.length = 0 ∨ r.error then r
      else newPackets fuel (buf.drop (r.newPacket buf).2) (r.newPacket buf).1

/-- Source: `PacketReader::onDataReady`. Kind: D -/
def onDataReady (buf : List UInt8) (r : PacketReader) : PacketReader :=
  if r.error then r
  else
    match r.packet_queue.getLast? with
    | none => newPackets (buf.length + 1) buf r
    | some pck =>
        let q := if pck.full then r.newPacket buf else r.readPacket buf
        newPackets (buf.length + 1) (buf.drop q.2) q.1

/-- Source: `PacketReader::update`. Kind: D -/
def update (r : PacketReader) : PacketReader :=
  if r.error then r
  else
    { r with
      packet_queue := r.packet_queue.dropWhile IncomingPacket.full
      delivered := r.delivered ++ (r.packet_queue.takeWhile IncomingPacket.full).map (·.data) }

/-- A block of bytes; `recv` says how long it is with an `int`.
Source: `BufferedSocket::readBuffered`. Kind: D -/
def Block := { buf : List UInt8 // buf.length < 2 ^ 31 }

/-- What happens to a reader. Kind: D -/
inductive Op
  | onDataReady (buf : Block)
  | update

/-- The state after an operation. Kind: D -/
def step (r : PacketReader) : Op → PacketReader
  | .onDataReady buf => r.onDataReady buf.1
  | .update => r.update

/-- The bytes that arrive. Kind: D -/
def Op.bytes : Op → List UInt8
  | .onDataReady buf => buf.1
  | .update => []

end PacketReader

/-! ### Framing, byte by byte -/

/-- Where in a frame a stream stands. Kind: D -/
inductive Phase
  /-- In the length field, of which these bytes have come. -/
  | head (bs : List UInt8)
  /-- In a frame of this length, of which these bytes have come. -/
  | body (size : ℕ) (bs : List UInt8)
  /-- After a length that is too large. -/
  | failed
deriving DecidableEq

/-- A stream that is being cut into frames: the nonempty ones completed, and where it stands.
Kind: D -/
structure Framer where
  done : List (List UInt8) := []
  phase : Phase := .head []

namespace Framer

/-- A length field is complete. Kind: D -/
def begun (n : ℕ) : Phase :=
  if n = 0 then .head [] else if n > MAX_PIECE_LEN + 13 then .failed else .body n []

/-- One more byte. Kind: D -/
def absorb (f : Framer) (b : UInt8) : Framer :=
  match f.phase with
  | .head bs =>
      if bs.length + 1 < 4 then { f with phase := .head (bs ++ [b]) }
      else { f with phase := begun (readUint32 (bs ++ [b]) 0) }
  | .body n bs =>
      if bs.length + 1 < n then { f with phase := .body n (bs ++ [b]) }
      else { done := f.done ++ [bs ++ [b]], phase := .head [] }
  | .failed => f

/-- More bytes. Kind: D -/
def feed (f : Framer) (bs : List UInt8) : Framer := bs.foldl absorb f

/-- Nothing is fed. Source: none: infrastructure. Kind: L -/
@[simp] theorem feed_nil (f : Framer) : f.feed [] = f := rfl

/-- The first byte is fed first. Source: none: infrastructure. Kind: L -/
theorem feed_cons (f : Framer) (b : UInt8) (bs : List UInt8) :
    f.feed (b :: bs) = (f.absorb b).feed bs := rfl

/-- Bytes fed in two parts. Source: none: infrastructure. Kind: L -/
theorem feed_append (f : Framer) (as bs : List UInt8) : f.feed (as ++ bs) = (f.feed as).feed bs :=
  List.foldl_append

/-- After a length that is too large nothing follows. Source: `torrent/packetreader.h`,
`torrent/packetreader.cpp`. Kind: L -/
theorem feed_failed (done : List (List UInt8)) (bs : List UInt8) :
    (Framer.mk done .failed).feed bs = ⟨done, .failed⟩ := by
  induction bs with
  | nil => rfl
  | cons b bs ih => exact ih

/-- Bytes of the length field. Source: `torrent/packetreader.h`, `torrent/packetreader.cpp`.
Kind: L -/
theorem feed_head {done : List (List UInt8)} {bs xs : List UInt8} (h : bs.length + xs.length < 4) :
    (Framer.mk done (.head bs)).feed xs = ⟨done, .head (bs ++ xs)⟩ := by
  induction xs generalizing bs with
  | nil => rw [List.append_nil, feed_nil]
  | cons x xs ih =>
    rw [List.length_cons] at h
    have hx : (Framer.mk done (.head bs)).absorb x = ⟨done, .head (bs ++ [x])⟩ :=
      if_pos (by omega)
    rw [feed_cons, hx, ih (by rw [List.length_append, List.length_singleton]; omega),
      List.append_assoc, List.singleton_append]

/-- The last byte of the length field. Source: `torrent/packetreader.h`, `torrent/packetreader.cpp`.
Kind: L -/
theorem feed_length {done : List (List UInt8)} (bs xs : List UInt8)
    (h : bs.length + xs.length = 4) (hxs : xs ≠ []) :
    (Framer.mk done (.head bs)).feed xs = ⟨done, begun (readUint32 (bs ++ xs) 0)⟩ := by
  obtain rfl | ⟨ys, y, rfl⟩ := List.eq_nil_or_concat xs
  · exact absurd rfl hxs
  rw [List.concat_eq_append] at h ⊢
  rw [List.length_append, List.length_singleton] at h
  rw [feed_append, feed_head (by omega)]
  have hy : (Framer.mk done (.head (bs ++ ys))).absorb y =
      ⟨done, begun (readUint32 (bs ++ ys ++ [y]) 0)⟩ :=
    if_neg (by rw [List.length_append]; omega)
  rw [feed_cons, hy, feed_nil, List.append_assoc]

/-- Bytes of a frame. Source: `torrent/packetreader.h`, `torrent/packetreader.cpp`. Kind: L -/
theorem feed_body {done : List (List UInt8)} {n : ℕ} {bs xs : List UInt8}
    (h : bs.length + xs.length < n) :
    (Framer.mk done (.body n bs)).feed xs = ⟨done, .body n (bs ++ xs)⟩ := by
  induction xs generalizing bs with
  | nil => rw [List.append_nil, feed_nil]
  | cons x xs ih =>
    rw [List.length_cons] at h
    have hx : (Framer.mk done (.body n bs)).absorb x = ⟨done, .body n (bs ++ [x])⟩ :=
      if_pos (by omega)
    rw [feed_cons, hx, ih (by rw [List.length_append, List.length_singleton]; omega),
      List.append_assoc, List.singleton_append]

/-- The last byte of a frame. Source: `torrent/packetreader.h`, `torrent/packetreader.cpp`.
Kind: L -/
theorem feed_frame {done : List (List UInt8)} {n : ℕ} {bs xs : List UInt8}
    (h : bs.length + xs.length = n) (hxs : xs ≠ []) :
    (Framer.mk done (.body n bs)).feed xs = ⟨done ++ [bs ++ xs], .head []⟩ := by
  obtain rfl | ⟨ys, y, rfl⟩ := List.eq_nil_or_concat xs
  · exact absurd rfl hxs
  rw [List.concat_eq_append] at h ⊢
  rw [List.length_append, List.length_singleton] at h
  rw [feed_append, feed_body (by omega)]
  have hy : (Framer.mk done (.body n (bs ++ ys))).absorb y =
      ⟨done ++ [bs ++ ys ++ [y]], .head []⟩ :=
    if_neg (by rw [List.length_append]; omega)
  rw [feed_cons, hy, feed_nil, List.append_assoc]

end Framer

/-! ### The reader follows the framer -/

namespace PacketReader

/-- **Where the reader stands.** Kind: D -/
def Follows (r : PacketReader) (f : Framer) : Prop :=
  match f.phase with
  | .head bs =>
      r.error = false ∧ bs.length < 4 ∧ r.len.length = 4 ∧ r.len.take bs.length = bs ∧
        r.len_received.toNat = bs.length ∧ (∀ p ∈ r.packet_queue, p.full = true) ∧
        r.delivered ++ r.packet_queue.map (·.data) = f.done
  | .body n bs =>
      r.error = false ∧ bs.length < n ∧ n ≤ MAX_PIECE_LEN + 13 ∧ r.len.length = 4 ∧
        r.len_received ≤ 0 ∧ ∃ ps, r.packet_queue = ps ++ [⟨n, bs⟩] ∧
          (∀ p ∈ ps, p.full = true) ∧ r.delivered ++ ps.map (·.data) = f.done
  | .failed => r.error = true ∧ r.delivered <+: f.done

/-- A new reader follows a new framer. Source: `torrent/packetreader.h`, `torrent/packetreader.cpp`.
Kind: L -/
theorem follows_new : Follows {} {} :=
  ⟨rfl, by decide, rfl, rfl, rfl, by simp, rfl⟩

/-- What one call takes of a block, and where it leaves the reader. Kind: D -/
structure Takes (buf : List UInt8) (f : Framer) (q : PacketReader × ℕ) : Prop where
  le : q.2 ≤ buf.length
  pos : buf ≠ [] → 0 < q.2
  follows : Follows q.1 (f.feed (buf.take q.2))
  /-- A frame is left unfinished only where the block ends. -/
  rest : q.2 < buf.length → ∀ n bs, (f.feed (buf.take q.2)).phase ≠ .body n bs

/-- Bytes of a frame. Source: `PacketReader::readPacket`. Kind: L -/
theorem takes_readPacket {r : PacketReader} {done : List (List UInt8)} {n : ℕ} {bs : List UInt8}
    (h : Follows r ⟨done, .body n bs⟩) (buf : List UInt8) (hfit : buf.length < 2 ^ 31) :
    Takes buf ⟨done, .body n bs⟩ (r.readPacket buf) := by
  obtain ⟨he, hlt, hle, hlen, hrec, ps, hq, hfull, hdone⟩ := h
  unfold readPacket
  by_cases hbuf : buf = []
  · subst hbuf
    refine ⟨le_rfl, fun hn => absurd rfl hn, ?_, fun hn => absurd hn (lt_irrefl 0)⟩
    exact ⟨he, hlt, hle, hlen, hrec, ps, hq, hfull, hdone⟩
  have hpos : 0 < buf.length := List.length_pos_of_ne_nil hbuf
  have hsum : u32 (bs.length + buf.length) = bs.length + buf.length := by
    unfold MAX_PIECE_LEN at hle
    exact u32_of_lt (by omega)
  rw [if_neg (by omega), hq, List.getLast?_concat, List.dropLast_concat]
  dsimp only
  rw [hsum]
  split_ifs with hall
  · -- the frame is complete
    have htake : (buf.take (n - bs.length)).length = n - bs.length := by
      rw [List.length_take]
      omega
    have hne : buf.take (n - bs.length) ≠ [] := by
      intro hn
      rw [hn, List.length_nil] at htake
      omega
    have hfeed : (Framer.mk done (.body n bs)).feed (buf.take (n - bs.length)) =
        ⟨done ++ [bs ++ buf.take (n - bs.length)], .head []⟩ :=
      Framer.feed_frame (by omega) hne
    refine ⟨by dsimp only; omega, fun _ => by dsimp only; omega, ?_, ?_⟩
    · dsimp only
      rw [hfeed]
      refine ⟨he, by decide, hlen, rfl, Int.toNat_of_nonpos hrec, ?_, ?_⟩
      · intro p hp
        rcases List.mem_append.mp hp with hp | hp
        · exact hfull p hp
        · rw [List.mem_singleton.mp hp, IncomingPacket.full, decide_eq_true_iff,
            List.length_append, htake]
          exact Nat.add_sub_cancel' (le_of_lt hlt)
      · dsimp only
        rw [List.map_append, ← List.append_assoc, hdone]
        rfl
    · intro _ m cs
      dsimp only
      rw [hfeed]
      simp
  · have htake : buf.take buf.length = buf := List.take_length
    have hfeed : (Framer.mk done (.body n bs)).feed (buf.take buf.length) =
        ⟨done, .body n (bs ++ buf)⟩ := by
      rw [htake]
      exact Framer.feed_body (by omega)
    refine ⟨le_rfl, fun _ => hpos, ?_, fun hn => absurd hn (lt_irrefl _)⟩
    dsimp only
    rw [hfeed, htake]
    refine ⟨he, ?_, hle, hlen, hrec, ps, rfl, hfull, hdone⟩
    rw [List.length_append]
    omega

/-- The length field keeps its four bytes. Source: `torrent/packetreader.h`,
`torrent/packetreader.cpp`. Kind: L -/
theorem length_setLen {len : List UInt8} {off : ℕ} {bs : List UInt8}
    (h : off + bs.length ≤ len.length) : (setLen len off bs).length = len.length := by
  unfold setLen
  rw [List.length_append, List.length_append, List.length_take, List.length_drop]
  omega

/-- The bytes of the length field received so far. Source: `torrent/packetreader.h`,
`torrent/packetreader.cpp`. Kind: L -/
theorem take_setLen {len : List UInt8} {off : ℕ} {bs : List UInt8}
    (h : off + bs.length ≤ len.length) :
    (setLen len off bs).take (off + bs.length) = len.take off ++ bs := by
  unfold setLen
  refine List.take_left' ?_
  rw [List.length_append, List.length_take]
  omega

/-- A length field is complete. Source: `PacketReader::newPacket`. Kind: L -/
theorem takes_beginPacket {r : PacketReader} {done : List (List UInt8)} {bs buf : List UInt8}
    {am : ℕ} (he : r.error = false) (hlen : r.len.length = 4) (hrec : r.len_received ≤ 0)
    (hfull : ∀ p ∈ r.packet_queue, p.full = true)
    (hdone : r.delivered ++ r.packet_queue.map (·.data) = done) (ham : bs.length + am = 4)
    (hpos : 0 < am) (hle : am ≤ buf.length) (hfit : buf.length < 2 ^ 31) :
    Takes buf ⟨done, .head bs⟩ (r.beginPacket buf (readUint32 (bs ++ buf.take am) 0) am) := by
  have hlentake : (buf.take am).length = am := by
    rw [List.length_take]
    omega
  have hne : buf.take am ≠ [] := by
    intro hn
    rw [hn, List.length_nil] at hlentake
    omega
  have hfeed : (Framer.mk done (.head bs)).feed (buf.take am) =
      ⟨done, Framer.begun (readUint32 (bs ++ buf.take am) 0)⟩ :=
    Framer.feed_length _ _ (by omega) hne
  obtain ⟨n, hn⟩ : ∃ n, n = readUint32 (bs ++ buf.take am) 0 := ⟨_, rfl⟩
  rw [← hn] at hfeed ⊢
  unfold beginPacket
  unfold Framer.begun at hfeed
  split_ifs at hfeed ⊢ with h0 hlarge
  · refine ⟨hle, fun _ => hpos, ?_, fun _ m cs => ?_⟩
    · dsimp only
      rw [hfeed]
      exact ⟨he, by decide, hlen, rfl, Int.toNat_of_nonpos hrec, hfull, hdone⟩
    · dsimp only
      rw [hfeed]
      simp
  · refine ⟨le_rfl, fun _ => lt_of_lt_of_le hpos hle, ?_, fun hlt => absurd hlt (lt_irrefl _)⟩
    have hall : buf.take buf.length = buf.take am ++ buf.drop am := by
      rw [List.take_length, List.take_append_drop]
    dsimp only
    rw [hall, Framer.feed_append, hfeed, Framer.feed_failed]
    exact ⟨rfl, by rw [← hdone]; exact List.prefix_append _ _⟩
  · -- a packet begins, and takes what it can
    have hbody : Follows { r with packet_queue := r.packet_queue ++ [{ size := n }] }
        ⟨done, .body n []⟩ :=
      ⟨he, Nat.pos_of_ne_zero h0, not_lt.mp hlarge, hlen, hrec, _, rfl, hfull, hdone⟩
    have htakes := takes_readPacket hbody (buf.drop am)
      (lt_of_le_of_lt (by rw [List.length_drop]; omega) hfit)
    obtain ⟨q, hq⟩ : ∃ q, q = readPacket (buf.drop am)
      { r with packet_queue := r.packet_queue ++ [{ size := n }] } := ⟨_, rfl⟩
    rw [← hq] at htakes
    have hsplit : (Framer.mk done (.head bs)).feed (buf.take (am + q.2)) =
        (Framer.mk done (.body n [])).feed ((buf.drop am).take q.2) := by
      rw [List.take_add, Framer.feed_append, hfeed]
    have hdrop : (buf.drop am).length = buf.length - am := List.length_drop
    obtain ⟨k1, k2, k3, k4⟩ := htakes
    dsimp only
    rw [← hq]
    refine ⟨by dsimp only; omega, fun _ => by dsimp only; omega, ?_, fun hlt m cs => ?_⟩
    · dsimp only
      rw [hsplit]
      exact k3
    · dsimp only at hlt ⊢
      rw [hsplit]
      exact k4 (by omega) m cs

/-- Bytes where a frame begins. Source: `PacketReader::newPacket`. Kind: L -/
theorem takes_newPacket {r : PacketReader} {done : List (List UInt8)} {bs : List UInt8}
    (h : Follows r ⟨done, .head bs⟩) {buf : List UInt8} (hfit : buf.length < 2 ^ 31) :
    Takes buf ⟨done, .head bs⟩ (r.newPacket buf) := by
  obtain ⟨he, hlt, hlen, hbs, hrec, hfull, hdone⟩ := h
  -- a block that ends inside the length field
  have hpart : ∀ lr : ℤ, lr.toNat = bs.length + buf.length → bs.length + buf.length < 4 →
      Takes buf ⟨done, .head bs⟩
        ({ r with len := setLen r.len bs.length buf, len_received := lr }, buf.length) := by
    intro lr hlr hshort
    refine ⟨le_rfl, fun hn => List.length_pos_of_ne_nil hn, ?_, fun hn => absurd hn (lt_irrefl _)⟩
    dsimp only
    rw [List.take_length, Framer.feed_head hshort]
    refine ⟨he, ?_, ?_, ?_, ?_, hfull, hdone⟩
    · rw [List.length_append]
      exact hshort
    · exact (length_setLen (by omega)).trans hlen
    · rw [List.length_append]
      exact (take_setLen (by omega)).trans (by rw [hbs])
    · rw [List.length_append]
      exact hlr
  unfold newPacket
  by_cases hpos : r.len_received > 0
  · rw [if_pos hpos]
    dsimp only
    rw [hrec]
    by_cases hshort : buf.length < 4 - bs.length
    · rw [if_pos hshort]
      exact hpart _ (by omega) (by omega)
    rw [if_neg hshort]
    have hlentake : (buf.take (4 - bs.length)).length = 4 - bs.length := by
      rw [List.length_take]
      omega
    have hfour : bs.length + (buf.take (4 - bs.length)).length = r.len.length := by omega
    have hread : setLen r.len bs.length (buf.take (4 - bs.length)) =
        bs ++ buf.take (4 - bs.length) := by
      have htake := take_setLen (le_of_eq hfour)
      rw [hbs, hfour, ← length_setLen (le_of_eq hfour), List.take_length] at htake
      exact htake
    rw [hread]
    refine takes_beginPacket he ?_ le_rfl hfull hdone (by omega) (by omega) (by omega) hfit
    show (bs ++ buf.take (4 - bs.length)).length = 4
    rw [List.length_append]
    omega
  · rw [if_neg hpos]
    obtain rfl : bs = [] := List.eq_nil_of_length_eq_zero (by omega)
    by_cases hshort : buf.length < 4
    · rw [if_pos hshort]
      refine hpart _ ?_ ?_ <;> rw [List.length_nil] <;> omega
    rw [if_neg hshort]
    have hread : readUint32 (buf.take 4) 0 = readUint32 buf 0 := by
      unfold readUint32
      simp [List.getD_eq_getElem?_getD]
    rw [← hread]
    exact takes_beginPacket he hlen (not_lt.mp hpos) hfull hdone rfl (by decide) (by omega) hfit

/-- **The loop over a block.**. Source: `PacketReader::onDataReady`. Kind: L -/
theorem follows_newPackets (fuel : ℕ) : ∀ {r : PacketReader} {f : Framer} (buf : List UInt8),
    Follows r f → (buf ≠ [] → ∀ n bs, f.phase ≠ .body n bs) → buf.length < 2 ^ 31 →
      buf.length < fuel → Follows (newPackets fuel buf r) (f.feed buf) := by
  induction fuel with
  | zero =>
    intro r f buf _ _ _ hfuel
    exact absurd hfuel (Nat.not_lt_zero _)
  | succ fuel ih =>
    intro r f buf h hphase hfit hfuel
    obtain ⟨done, phase⟩ := f
    unfold newPackets
    by_cases hbuf : buf = []
    · subst hbuf
      rw [if_pos (Or.inl List.length_nil)]
      exact h
    have hlen : buf.length ≠ 0 := fun hn => hbuf (List.eq_nil_of_length_eq_zero hn)
    cases phase with
    | failed =>
      rw [if_pos (Or.inr h.1), Framer.feed_failed]
      exact h
    | body n bs => exact absurd rfl (hphase hbuf n bs)
    | head bs =>
      rw [if_neg (by rw [h.1]; simp [hlen])]
      obtain ⟨hle, hpos, hfollows, hrest⟩ := takes_newPacket h hfit
      have hdrop : (buf.drop (r.newPacket buf).2).length = buf.length - (r.newPacket buf).2 :=
        List.length_drop
      have hpos' := hpos hbuf
      have hnext := ih (buf.drop (r.newPacket buf).2) hfollows (fun hne => hrest ?_)
        (by omega) (by omega)
      · rwa [← Framer.feed_append, List.take_append_drop] at hnext
      · have hne' := List.length_pos_of_ne_nil hne
        omega

/-- What is left of a block after a call. Source: `PacketReader::onDataReady`. Kind: L -/
theorem Takes.newPackets {buf : List UInt8} {f : Framer} {q : PacketReader × ℕ}
    (h : Takes buf f q) (hfit : buf.length < 2 ^ 31) :
    Follows (newPackets (buf.length + 1) (buf.drop q.2) q.1) (f.feed buf) := by
  have hdrop : (buf.drop q.2).length = buf.length - q.2 := List.length_drop
  have hloop := follows_newPackets (buf.length + 1) (buf.drop q.2) h.follows
    (fun hne => h.rest ?_) (by omega) (by omega)
  · rwa [← Framer.feed_append, List.take_append_drop] at hloop
  · have hne' := List.length_pos_of_ne_nil hne
    omega

/-- **The reader follows the framer**, block by block. Source: `PacketReader::onDataReady`.
Kind: L -/
theorem follows_onDataReady {r : PacketReader} {f : Framer} (h : Follows r f) {buf : List UInt8}
    (hfit : buf.length < 2 ^ 31) : Follows (r.onDataReady buf) (f.feed buf) := by
  obtain ⟨done, phase⟩ := f
  unfold onDataReady
  cases phase with
  | failed =>
    rw [if_pos h.1, Framer.feed_failed]
    exact h
  | head bs =>
    have he : r.error = false := h.1
    rw [if_neg (by simp [he])]
    cases hlast : r.packet_queue.getLast? with
    | none => exact follows_newPackets _ _ h (by intros; simp) hfit (Nat.lt_succ_self _)
    | some pck =>
      have hfull : pck.full = true := h.2.2.2.2.2.1 pck (List.mem_of_getLast? hlast)
      dsimp only
      rw [if_pos hfull]
      exact (takes_newPacket h hfit).newPackets hfit
  | body n bs =>
    have he : r.error = false := h.1
    have hlt : bs.length < n := h.2.1
    obtain ⟨ps, hq, -⟩ := h.2.2.2.2.2
    have hfull : IncomingPacket.full ⟨n, bs⟩ = false := decide_eq_false (Nat.ne_of_lt hlt)
    rw [if_neg (by simp [he]), hq, List.getLast?_concat]
    dsimp only
    rw [hfull]
    exact (takes_readPacket h buf hfit).newPackets hfit

/-- Full packets in front are taken, up to the first that is not. Source: `IncomingPacket`,
`read == size`. Kind: L -/
theorem takeWhile_full {ps : List IncomingPacket} (qs : List IncomingPacket) (h : ∀ p ∈ ps, p.full = true) :
    (ps ++ qs).takeWhile IncomingPacket.full = ps ++ qs.takeWhile IncomingPacket.full ∧
      (ps ++ qs).dropWhile IncomingPacket.full = qs.dropWhile IncomingPacket.full := by
  rw [List.takeWhile_append_of_pos h, List.dropWhile_append_of_pos h]
  exact ⟨rfl, rfl⟩

/-- Handing packets over keeps the place in the stream. Source: `torrent/packetreader.h`,
`torrent/packetreader.cpp`. Kind: L -/
theorem follows_update {r : PacketReader} {f : Framer} (h : Follows r f) : Follows r.update f := by
  obtain ⟨done, phase⟩ := f
  unfold update
  cases phase with
  | failed =>
    rw [if_pos h.1]
    exact h
  | head bs =>
    obtain ⟨he, hlt, hlen, hbs, hrec, hfull, hdone⟩ := h
    obtain ⟨htake, hdrop⟩ := takeWhile_full [] hfull
    rw [List.append_nil] at htake hdrop
    rw [if_neg (by simp [he])]
    refine ⟨he, hlt, hlen, hbs, hrec, ?_, ?_⟩
    · intro p hp
      dsimp only at hp
      rw [hdrop] at hp
      cases hp
    · dsimp only
      rw [htake, hdrop, List.takeWhile_nil, List.append_nil, hdone]
      exact List.append_nil _
  | body n bs =>
    obtain ⟨he, hlt, hle, hlen, hrec, ps, hq, hfull, hdone⟩ := h
    have hpart : IncomingPacket.full ⟨n, bs⟩ = false := decide_eq_false (Nat.ne_of_lt hlt)
    obtain ⟨htake, hdrop⟩ := takeWhile_full [⟨n, bs⟩] hfull
    rw [if_neg (by simp [he]), hq]
    refine ⟨he, hlt, hle, hlen, hrec, [], ?_, by simp, ?_⟩
    · dsimp only
      rw [hdrop, List.dropWhile_cons_of_neg (by simp [hpart])]
      rfl
    · dsimp only
      rw [htake, List.takeWhile_cons_of_neg (by simp [hpart]), List.append_nil, hdone]
      exact List.append_nil _

/-- After `update`, everything completed has been handed over, unless the stream has failed.
Source: `torrent/packetreader.h`, `torrent/packetreader.cpp`. Kind: L -/
theorem delivered_update {r : PacketReader} {f : Framer} (h : Follows r f) :
    (f.phase ≠ .failed → r.update.delivered = f.done) ∧ r.update.delivered <+: f.done := by
  have h' := follows_update h
  obtain ⟨done, phase⟩ := f
  cases phase with
  | failed => exact ⟨fun hn => absurd rfl hn, h'.2⟩
  | head bs =>
    obtain ⟨he, -, -, -, -, hfull, hdone⟩ := h
    have hall : r.update.delivered = done := by
      obtain ⟨htake, -⟩ := takeWhile_full [] hfull
      rw [List.append_nil] at htake
      unfold update
      rw [if_neg (by simp [he])]
      dsimp only
      rw [htake, List.takeWhile_nil, List.append_nil, hdone]
    exact ⟨fun _ => hall, by rw [hall]⟩
  | body n bs =>
    obtain ⟨he, hlt, -, -, -, ps, hq, hfull, hdone⟩ := h
    have hpart : IncomingPacket.full ⟨n, bs⟩ = false := decide_eq_false (Nat.ne_of_lt hlt)
    have hall : r.update.delivered = done := by
      obtain ⟨htake, -⟩ := takeWhile_full [⟨n, bs⟩] hfull
      unfold update
      rw [if_neg (by simp [he]), hq]
      dsimp only
      rw [htake, List.takeWhile_cons_of_neg (by simp [hpart]), List.append_nil, hdone]
    exact ⟨fun _ => hall, by rw [hall]⟩

/-- A run follows the bytes that have arrived. Source: `torrent/packetreader.h`,
`torrent/packetreader.cpp`. Kind: L -/
theorem follows_run (ops : List Op) :
    Follows (run step {} ops) (Framer.feed {} (ops.flatMap Op.bytes)) := by
  induction ops using List.reverseRecOn with
  | nil => exact follows_new
  | append_singleton ops op ih =>
    rw [run_append, List.flatMap_append, Framer.feed_append]
    cases op with
    | onDataReady buf =>
      have hnext := follows_onDataReady ih buf.2
      simpa [step, Op.bytes] using hnext
    | update =>
      have hnext := follows_update ih
      simpa [step, Op.bytes] using hnext

/-- What is delivered has been completed. Source: `torrent/packetreader.h`,
`torrent/packetreader.cpp`. Kind: L -/
theorem Follows.delivered {r : PacketReader} {f : Framer} (h : Follows r f) :
    r.delivered <+: f.done := by
  obtain ⟨done, phase⟩ := f
  cases phase with
  | failed => exact h.2
  | head bs =>
    obtain ⟨-, -, -, -, -, -, hdone⟩ := h
    exact ⟨_, hdone⟩
  | body n bs =>
    obtain ⟨-, -, -, -, -, ps, -, -, hdone⟩ := h
    exact ⟨_, hdone⟩

end PacketReader

/-! ### Streams of frames -/

/-- A frame as it travels. Kind: D -/
def encode (p : List UInt8) : List UInt8 := uint32Bytes p.length ++ p

/-- The frames that end within the first `n` bytes. Kind: D -/
def completed : List (List UInt8) → ℕ → List (List UInt8)
  | [], _ => []
  | p :: ps, n => if 4 + p.length ≤ n then p :: completed ps (n - (4 + p.length)) else []

/-- A message on the wire has four bytes more. Source: `torrent/packetreader.h`,
`torrent/packetreader.cpp`. Kind: L -/
theorem length_encode (p : List UInt8) : (encode p).length = 4 + p.length :=
  List.length_append

/-- The messages completed are the first ones. Source: `torrent/packetreader.h`,
`torrent/packetreader.cpp`. Kind: L -/
theorem completed_isPrefix (ps : List (List UInt8)) : ∀ n, completed ps n <+: ps := by
  induction ps with
  | nil => exact fun _ => List.prefix_rfl
  | cons p ps ih =>
    intro n
    unfold completed
    split_ifs
    · exact (List.prefix_cons_inj p).mpr (ih _)
    · exact List.nil_prefix

namespace Framer

/-- A length field. Source: `util/functions.cpp`, `WriteUint32`. Kind: L -/
theorem feed_uint32Bytes (done : List (List UInt8)) {n : ℕ} (h : n < 2 ^ 32) :
    (Framer.mk done (.head [])).feed (uint32Bytes n) = ⟨done, begun n⟩ := by
  have hread := readUint32_append [] n []
  rw [List.nil_append, List.append_nil, List.length_nil, u32_of_lt h] at hread
  rw [feed_length [] (uint32Bytes n) rfl (by simp [uint32Bytes]), List.nil_append, hread]

/-- A whole frame. Source: `torrent/packetreader.h`, `torrent/packetreader.cpp`. Kind: L -/
theorem feed_encode (done : List (List UInt8)) {p : List UInt8}
    (h : p.length ≤ MAX_PIECE_LEN + 13) :
    (Framer.mk done (.head [])).feed (encode p) =
      ⟨done ++ [p].filter fun p => !p.isEmpty, .head []⟩ := by
  unfold encode
  rw [feed_append, feed_uint32Bytes done (lt_of_le_of_lt h (by decide))]
  unfold begun
  cases p with
  | nil => exact congrArg (Framer.mk · _) (List.append_nil done).symm
  | cons b bs =>
    rw [if_neg (by simp), if_neg (not_lt.mpr h)]
    exact feed_frame (Nat.zero_add _) (by simp)

/-- The front of a frame. Source: `torrent/packetreader.h`, `torrent/packetreader.cpp`. Kind: L -/
theorem feed_part (done : List (List UInt8)) {p : List UInt8} {n : ℕ}
    (h : p.length ≤ MAX_PIECE_LEN + 13) (hn : n < 4 + p.length) :
    ∃ phase, phase ≠ .failed ∧
      (Framer.mk done (.head [])).feed ((encode p).take n) = ⟨done, phase⟩ := by
  by_cases h4 : n < 4
  · have htake : ((encode p).take n).length < 4 :=
      lt_of_le_of_lt (by rw [List.length_take]; exact Nat.min_le_left _ _) h4
    exact ⟨_, by simp, feed_head (by rw [List.length_nil]; omega)⟩
  · have hsplit : (encode p).take n = uint32Bytes p.length ++ p.take (n - 4) := by
      unfold encode
      rw [List.take_append, List.take_of_length_le (by rw [length_uint32Bytes]; omega),
        length_uint32Bytes]
    have hne : p.length ≠ 0 := by omega
    refine ⟨.body p.length (p.take (n - 4)), by simp, ?_⟩
    rw [hsplit, feed_append, feed_uint32Bytes done (lt_of_le_of_lt h (by decide))]
    unfold begun
    rw [if_neg hne, if_neg (not_lt.mpr h)]
    refine feed_body ?_
    rw [List.length_nil, List.length_take]
    omega

/-- **The front of a stream of frames.**. Source: `torrent/packetreader.h`,
`torrent/packetreader.cpp`. Kind: L -/
theorem feed_stream (ps : List (List UInt8)) (h : ∀ p ∈ ps, p.length ≤ MAX_PIECE_LEN + 13) :
    ∀ (done : List (List UInt8)) (n : ℕ), ∃ phase, phase ≠ .failed ∧
      (Framer.mk done (.head [])).feed ((ps.flatMap encode).take n) =
        ⟨done ++ (completed ps n).filter fun p => !p.isEmpty, phase⟩ := by
  induction ps with
  | nil =>
    intro done n
    exact ⟨.head [], by simp, by simp [completed]⟩
  | cons p ps ih =>
    intro done n
    have hp := h p (by simp)
    unfold completed
    rw [List.flatMap_cons]
    split_ifs with hn
    · obtain ⟨phase, hphase, heq⟩ := ih (fun q hq => h q (by simp [hq]))
        (done ++ [p].filter fun p => !p.isEmpty) (n - (4 + p.length))
      refine ⟨phase, hphase, ?_⟩
      rw [List.take_append, length_encode, List.take_of_length_le (by rw [length_encode]; exact hn),
        feed_append, feed_encode done hp, heq, List.append_assoc, ← List.filter_append,
        List.singleton_append]
    · obtain ⟨phase, hphase, heq⟩ := feed_part done hp (not_le.mp hn)
      refine ⟨phase, hphase, ?_⟩
      rw [List.take_append_of_le_length (by rw [length_encode]; omega), heq, List.filter_nil,
        List.append_nil]

/-- A whole stream of frames. Source: `torrent/packetreader.h`, `torrent/packetreader.cpp`.
Kind: L -/
theorem feed_frames (ps : List (List UInt8)) (h : ∀ p ∈ ps, p.length ≤ MAX_PIECE_LEN + 13) :
    ∀ done : List (List UInt8), (Framer.mk done (.head [])).feed (ps.flatMap encode) =
      ⟨done ++ ps.filter fun p => !p.isEmpty, .head []⟩ := by
  induction ps with
  | nil =>
    intro done
    simp
  | cons p ps ih =>
    intro done
    rw [List.flatMap_cons, feed_append, feed_encode done (h p (by simp)),
      ih (fun q hq => h q (by simp [hq])), List.append_assoc, ← List.filter_append,
      List.singleton_append]

/-- Nothing is completed after a length that is too large. Source: `torrent/packetreader.h`,
`torrent/packetreader.cpp`. Kind: L -/
theorem done_oversized (done : List (List UInt8)) {n : ℕ} (hn : MAX_PIECE_LEN + 13 < n)
    (hn' : n < 2 ^ 32) {bs rest : List UInt8} (h : bs <+: uint32Bytes n ++ rest) :
    ((Framer.mk done (.head [])).feed bs).done = done := by
  by_cases h4 : bs.length < 4
  · rw [feed_head (by rw [List.length_nil]; omega)]
  · obtain ⟨cs, rfl⟩ : uint32Bytes n <+: bs :=
      List.prefix_of_prefix_length_le (List.prefix_append _ _) h (by simpa using h4)
    rw [feed_append, feed_uint32Bytes done hn']
    unfold begun
    rw [if_neg (by omega), if_pos hn, feed_failed]

end Framer

namespace PacketReader

/-- **Each nonempty frame is delivered once, in order, and nothing else is**: for every stream of
frames, every fragmentation of it and every order of the calls. Source: `torrent/packetreader.h`,
`torrent/packetreader.cpp`. Kind: P -/
theorem packets_delivered (frames : List (List UInt8))
    (hframes : ∀ p ∈ frames, p.length ≤ MAX_PIECE_LEN + 13) (ops : List Op) :
    (ops.flatMap Op.bytes <+: frames.flatMap encode →
      (run step {} (ops ++ [.update])).delivered =
        (completed frames (ops.flatMap Op.bytes).length).filter fun p => !p.isEmpty) ∧
    ∀ n rest, MAX_PIECE_LEN + 13 < n → n < 2 ^ 32 →
      ops.flatMap Op.bytes <+: frames.flatMap encode ++ (uint32Bytes n ++ rest) →
        (run step {} ops).delivered <+: frames.filter fun p => !p.isEmpty := by
  have hfollows := follows_run ops
  constructor
  · intro hfed
    obtain ⟨phase, hphase, hfeed⟩ := Framer.feed_stream frames hframes []
      (ops.flatMap Op.bytes).length
    rw [← List.prefix_iff_eq_take.mp hfed] at hfeed
    rw [show Framer.feed {} (ops.flatMap Op.bytes) = _ from hfeed] at hfollows
    rw [run_append]
    exact (delivered_update hfollows).1 hphase
  · intro n rest hn hn' hfed
    refine hfollows.delivered.trans ?_
    rcases le_total (ops.flatMap Op.bytes).length (frames.flatMap encode).length with hle | hle
    · -- the length field has not been reached
      have hpre := List.prefix_of_prefix_length_le hfed (List.prefix_append _ _) hle
      obtain ⟨phase, -, hfeed⟩ := Framer.feed_stream frames hframes []
        (ops.flatMap Op.bytes).length
      rw [← List.prefix_iff_eq_take.mp hpre] at hfeed
      rw [show Framer.feed {} (ops.flatMap Op.bytes) = _ from hfeed]
      exact (completed_isPrefix frames _).filter _
    · obtain ⟨bs, hbs⟩ := List.prefix_of_prefix_length_le (List.prefix_append _ _) hfed hle
      rw [← hbs, List.prefix_append_right_inj] at hfed
      rw [← hbs, Framer.feed_append,
        show Framer.feed {} (frames.flatMap encode) = _ from Framer.feed_frames frames hframes [],
        Framer.done_oversized _ hn hn' hfed]
      exact List.prefix_rfl

/-- Three bytes of a frame, and the others. Source: `PacketReader::onDataReady`. Kind: L -/
theorem packets_delivered_split :
    (run step {} ([.onDataReady ⟨[0, 0, 0], by decide⟩, .update, .onDataReady ⟨[1, 7], by decide⟩] ++
      [.update])).delivered = (completed [[7]] 5).filter fun p => !p.isEmpty :=
  (packets_delivered [[7]] (by decide) [.onDataReady ⟨[0, 0, 0], by decide⟩, .update,
    .onDataReady ⟨[1, 7], by decide⟩]).1 (by decide)

end PacketReader

end KTorrent.Net
