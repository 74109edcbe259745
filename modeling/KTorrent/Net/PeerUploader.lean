import KTorrent.Lib.Buffer
import KTorrent.Net.PacketWriter

/-!
# The uploader of a peer

What becomes of the requests of a peer: each is answered with a piece or a reject when its turn
comes, taken back when it is cancelled, and rejected when the peer is choked.

* `pieceBytes` — the packet made of a part of a chunk, with every access to the packet's buffer and
  to the chunk checked: `none` is an access outside.
* `sendChunk`, `answer`, `updateLoop`, `update`, `removeRequest`, `clearAllRequests` — the
  operations of the source.
* `pieceBytes_eq_some_iff` — the packet is what it should be when the part lies in the chunk and the
  size of the packet fits its type, and no buffer holds it otherwise.
* `update_iff` — the uploader stays inside the chunk on just the requests whose sums do not wrap.

Source: `torrent/peeruploader.cpp`, `torrent/packetwriter.cpp`, `torrent/packet.cpp`,
`torrent/peer.cpp`
-/

namespace KTorrent.Net

open KTorrent.Lib KTorrent.Util KTorrent.Transfer

/-! ### Pieces -/

/-- What an upload reads of a chunk. Source: `torrent/chunk.h`, `Chunk`. Kind: D -/
structure Chunk where
  size : ℕ
  data : Option (List UInt8)
  whole : ∀ bs, data = some bs → bs.length = size
  fits : size < 2 ^ 32

/-- Source: `Packet::Packet(Uint32, Uint32, Uint32, Chunk *)`. Kind: D -/
def pieceBytes (index begin len : ℕ) (data : List UInt8) : Option (List UInt8) := do
  let buf ← allocPacket (u32 (13 + len)) PIECE
  let buf ← poke buf 5 (uint32Bytes index)
  let buf ← poke buf 9 (uint32Bytes begin)
  let bs ← peek data begin len
  poke buf 13 bs

/-- The packet of a buffer that has been filled. Kind: D -/
def Serial.ofBytes (bytes : List UInt8) : Option Serial :=
  if h : 5 ≤ bytes.length ∧ bytes.length < 2 ^ 32 ∧
      (bytes.getD 4 0 = PIECE → 13 ≤ bytes.length) then
    some ⟨bytes, h.1, h.2.1, h.2.2⟩
  else none

/-- A part of a chunk, behind its index and where it begins. Kind: D -/
def pieceBody (index begin len : ℕ) (data : List UInt8) : List UInt8 :=
  uint32Bytes index ++ uint32Bytes begin ++ (data.drop begin).take len

/-- A piece has eight bytes and its data. Source: `torrent/peeruploader.cpp`,
`torrent/packetwriter.cpp`. Kind: L -/
theorem length_pieceBody {index begin len : ℕ} {data : List UInt8}
    (h : begin + len ≤ data.length) : (pieceBody index begin len data).length = 8 + len := by
  simp only [pieceBody, List.length_append, length_uint32Bytes, List.length_take, List.length_drop]
  omega

/-- Bytes that were put in place fitted. Source: `torrent/peeruploader.cpp`,
`torrent/packetwriter.cpp`. Kind: L -/
theorem poke_eq_some {data bs data' : List UInt8} {off : ℕ} (h : poke data off bs = some data') :
    off + bs.length ≤ data.length ∧ data'.length = data.length := by
  unfold poke at h
  split_ifs at h with hle
  obtain rfl := Option.some.inj h
  refine ⟨hle, ?_⟩
  simp only [List.length_append, List.length_take, List.length_drop]
  omega

/-- A packet has the size asked for. Source: `AllocPacket`. Kind: L -/
theorem allocPacket_eq_some {size : ℕ} {type : UInt8} {buf : List UInt8}
    (h : allocPacket size type = some buf) : buf.length = size := by
  obtain ⟨buf', h1, h2⟩ := Option.bind_eq_some_iff.mp h
  rw [(poke_eq_some h2).2, (poke_eq_some h1).2, List.length_replicate]

/-- The packet of a part that lies in the chunk.
Source: `Packet::Packet(Uint32, Uint32, Uint32, Chunk *)`. Kind: L -/
theorem pieceBytes_eq {index begin len : ℕ} {data : List UInt8} (hlen : 13 + len < 2 ^ 32)
    (h : begin + len ≤ data.length) :
    pieceBytes index begin len data = some (frame PIECE (pieceBody index begin len data)) := by
  have hbs : ((data.drop begin).take len).length = len := by
    rw [List.length_take, List.length_drop]
    omega
  have h13 : 13 + len - 5 = 4 + (4 + len) := by omega
  have hsize : 13 + len - 4 = 1 + (pieceBody index begin len data).length := by
    rw [length_pieceBody h]
    omega
  have h1 : poke (uint32Bytes (13 + len - 4) ++ PIECE :: List.replicate (13 + len - 5) 0) 5
      (uint32Bytes index) =
      some ((uint32Bytes (13 + len - 4) ++ [PIECE]) ++ uint32Bytes index ++
        List.replicate (4 + len) 0) := by
    have hdata : uint32Bytes (13 + len - 4) ++ PIECE :: List.replicate (13 + len - 5) 0 =
        (uint32Bytes (13 + len - 4) ++ [PIECE]) ++ List.replicate 4 0 ++
          List.replicate (4 + len) 0 := by
      rw [h13, ← List.replicate_append_replicate]
      simp only [List.append_assoc, List.cons_append, List.nil_append]
    exact poke_eq hdata rfl rfl
  have h2 : poke ((uint32Bytes (13 + len - 4) ++ [PIECE]) ++ uint32Bytes index ++
      List.replicate (4 + len) 0) 9 (uint32Bytes begin) =
      some ((uint32Bytes (13 + len - 4) ++ [PIECE] ++ uint32Bytes index) ++ uint32Bytes begin ++
        List.replicate len 0) := by
    have hdata : (uint32Bytes (13 + len - 4) ++ [PIECE]) ++ uint32Bytes index ++
        List.replicate (4 + len) (0 : UInt8) =
        (uint32Bytes (13 + len - 4) ++ [PIECE] ++ uint32Bytes index) ++ List.replicate 4 0 ++
          List.replicate len 0 := by
      rw [← List.replicate_append_replicate]
      simp only [List.append_assoc]
    exact poke_eq hdata rfl rfl
  have h3 : poke ((uint32Bytes (13 + len - 4) ++ [PIECE] ++ uint32Bytes index) ++
      uint32Bytes begin ++ List.replicate len 0) 13 ((data.drop begin).take len) =
      some ((uint32Bytes (13 + len - 4) ++ [PIECE] ++ uint32Bytes index ++ uint32Bytes begin) ++
        (data.drop begin).take len ++ []) := by
    have hzero : ((data.drop begin).take len).length = (List.replicate len (0 : UInt8)).length := by
      rw [hbs, List.length_replicate]
    exact poke_eq (List.append_nil _).symm rfl hzero
  unfold pieceBytes
  rw [u32_of_lt hlen, allocPacket_eq (by omega) hlen]
  simp only [Option.bind_eq_bind, Option.bind_some, h1, h2, peek_eq h, h3]
  rw [frame, pieceBody, List.append_nil, hsize]
  simp only [pieceBody, List.append_assoc, List.cons_append, List.nil_append]

/-- **When a piece can be made.** The part lies in the chunk and the size of the packet is a
`Uint32`; the buffer is then filled to its last byte.
Source: `Packet::Packet(Uint32, Uint32, Uint32, Chunk *)`. Kind: P -/
theorem pieceBytes_eq_some_iff {index begin len : ℕ} {data bytes : List UInt8}
    (hlen : len < 2 ^ 32) :
    pieceBytes index begin len data = some bytes ↔
      13 + len < 2 ^ 32 ∧ begin + len ≤ data.length ∧
        bytes = frame PIECE (pieceBody index begin len data) := by
  constructor
  · intro h
    obtain ⟨b0, hb0, h⟩ := Option.bind_eq_some_iff.mp h
    obtain ⟨b1, hb1, h⟩ := Option.bind_eq_some_iff.mp h
    obtain ⟨b2, hb2, h⟩ := Option.bind_eq_some_iff.mp h
    obtain ⟨bs, hbs, h⟩ := Option.bind_eq_some_iff.mp h
    unfold peek at hbs
    split_ifs at hbs with hin
    obtain rfl := Option.some.inj hbs
    have hroom := (poke_eq_some h).1
    rw [(poke_eq_some hb2).2, (poke_eq_some hb1).2, allocPacket_eq_some hb0, List.length_take,
      List.length_drop] at hroom
    have h13 : 13 + len < 2 ^ 32 := by
      by_contra hwrap
      unfold u32 at hroom
      omega
    have hsame : pieceBytes index begin len data = some bytes := by
      unfold pieceBytes
      simp only [Option.bind_eq_bind, hb0, hb1, hb2, peek_eq hin, Option.bind_some, h]
    rw [pieceBytes_eq h13 hin] at hsame
    exact ⟨h13, hin, (Option.some.inj hsame).symm⟩
  · rintro ⟨h13, hin, rfl⟩
    exact pieceBytes_eq h13 hin

/-- The packet of a part that lies in the chunk. Kind: D -/
def Serial.ofPiece (index : ℕ) {begin len : ℕ} {data : List UInt8} (hlen : 13 + len < 2 ^ 32)
    (h : begin + len ≤ data.length) : Serial where
  bytes := frame PIECE (pieceBody index begin len data)
  hdr := by simp
  fits := by
    rw [length_frame, length_pieceBody h]
    omega
  piece_hdr _ := by
    rw [length_frame, length_pieceBody h]
    omega

/-- No packet that has been filled is refused.
Source: `Packet::Packet(Uint32, Uint32, Uint32, Chunk *)`. Kind: L -/
theorem ofBytes_pieceBytes (index : ℕ) {begin len : ℕ} {data : List UInt8}
    (hlen : 13 + len < 2 ^ 32) (h : begin + len ≤ data.length) :
    (pieceBytes index begin len data).bind Serial.ofBytes = some (.ofPiece index hlen h) := by
  rw [pieceBytes_eq hlen h, Option.bind_some, Serial.ofBytes, dif_pos]
  · rfl
  · exact ⟨(Serial.ofPiece index hlen h).hdr, (Serial.ofPiece index hlen h).fits,
      (Serial.ofPiece index hlen h).piece_hdr⟩

/-! ### The operations -/

/-- The request a message carries. Source: `Peer::packetReady`, `REQUEST` and `CANCEL`. Kind: D -/
def Request.ofMessage (id : ℕ) (tmp_buf : List UInt8) : Request :=
  ⟨readUint32 tmp_buf 1, readUint32 tmp_buf 5, readUint32 tmp_buf 9, id⟩

namespace PacketWriter

/-- Source: `PacketWriter::sendReject`. Kind: D -/
def sendReject (r : Request) (w : PacketWriter) : PacketWriter :=
  w.queuePacket (.ofRequest r REJECT_REQUEST reject_ne_piece)

/-- The sum of two `Uint32` is compared with the size. The first component is what the function
returns. Source: `PacketWriter::sendChunk`. Kind: D -/
def sendChunk (index begin len : ℕ) (ch : Chunk) (w : PacketWriter) : Option (Bool × PacketWriter) :=
  if begin ≥ ch.size ∨ u32 (begin + len) > ch.size then some (false, w)
  else
    match ch.data with
    | none => some (false, w)
    | some data =>
        ((pieceBytes index begin len data).bind Serial.ofBytes).map fun s => (true, w.queuePacket s)

end PacketWriter

/-- Source: `torrent/peeruploader.h`, `PeerUploader`, with the two fields of its peer that it reads;
the last two fields are history, which nothing reads. Kind: D -/
structure PeerUploader where
  requests : List Request := []
  /-- Source: `Peer`, `am_choked`. -/
  am_choked : Bool := true
  /-- Source: `PeerStats`, `fast_extensions`. -/
  fast_extensions : Bool := true
  /-- Source: `Peer`, `pwriter`. -/
  pw : PacketWriter := {}
  /-- History: every request received. -/
  received : List Request := []
  /-- History: the requests taken off the list by a cancel. -/
  cancelled : List Request := []

namespace PeerUploader

/-- What is done with the request at the front; `c` is the chunk `grabChunk` returned.
Source: `PeerUploader::update`, the loop body. Kind: D -/
def answer (fast_extensions : Bool) (c : Option Chunk) (r : Request) (pw : PacketWriter) :
    Option PacketWriter :=
  match c with
  | none => some (if fast_extensions then pw.sendReject r else pw)
  | some ch =>
      if ch.data.isSome then
        (pw.sendChunk r.index r.off r.len ch).map fun q =>
          if q.1 then q.2 else if fast_extensions then q.2.sendReject r else q.2
      else some (if fast_extensions then pw.sendReject r else pw)

/-- The loop over the requests; `grab k i` is what the `k`-th call of `grabChunk`, for chunk `i`,
returns. Source: `PeerUploader::update`. Kind: D -/
def updateLoop (fast_extensions : Bool) (grab : ℕ → ℕ → Option Chunk) :
    ℕ → List Request → PacketWriter → Option PacketWriter
  | _, [], pw => some pw
  | k, r :: rs, pw =>
      (answer fast_extensions (grab k r.index) r pw).bind
        (updateLoop fast_extensions grab (k + 1) rs)

/-- Whether `update` comes to its loop. Source: `PeerUploader::update`. Kind: D -/
def proceeds (snubbed completed optimistic : Bool) (u : PeerUploader) : Bool :=
  !u.am_choked && !(snubbed && !u.am_choked && !completed && !optimistic)

/-- Source: `PeerUploader::update`. Kind: D -/
def update (grab : ℕ → ℕ → Option Chunk) (snubbed completed optimistic : Bool) (u : PeerUploader) :
    Option PeerUploader :=
  if u.proceeds snubbed completed optimistic then
    (updateLoop u.fast_extensions grab 0 u.requests u.pw).map fun pw =>
      { u with requests := [], pw := pw }
  else some u

/-- A `REQUEST` arrives. Source: `Peer::packetReady`, `PeerUploader::addRequest`. Kind: D -/
def addRequest (r : Request) (u : PeerUploader) : PeerUploader :=
  let u := { u with received := u.received ++ [r] }
  if u.am_choked then
    if u.fast_extensions then { u with pw := u.pw.sendReject r } else u
  else { u with requests := u.requests ++ [r] }

/-- A `CANCEL` arrives; `beyond` is what lies after each packet's buffer.
Source: `PeerUploader::removeRequest`. Kind: D -/
def removeRequest (beyond : ℕ → List UInt8) (r : Request) (u : PeerUploader) : PeerUploader :=
  { u with
    requests := u.requests.filter fun q => !q.sameAs r
    cancelled := u.cancelled ++ u.requests.filter fun q => q.sameAs r
    pw := u.pw.doNotSendPiece beyond r u.fast_extensions }

/-- Source: `PeerUploader::clearAllRequests`. Kind: D -/
def clearAllRequests (u : PeerUploader) : PeerUploader :=
  let pw := u.pw.clearPieces u.fast_extensions
  { u with
    requests := []
    pw := if u.fast_extensions then u.requests.foldl (fun pw r => pw.sendReject r) pw else pw }

/-- A packet of a single byte. Source: `Packet::Packet(Uint8)`. Kind: D -/
def ofType (type : UInt8) (h : type ≠ PIECE) : Serial where
  bytes := frame type []
  hdr := by simp
  fits := by simp
  piece_hdr hp := absurd hp h

/-- Source: `Peer::choke`, `PacketWriter::sendChoke`. Kind: D -/
def choke (u : PeerUploader) : PeerUploader :=
  if u.am_choked then u
  else
    clearAllRequests { u with am_choked := true, pw := u.pw.queuePacket (ofType 0 (by decide)) }

/-- Source: `PacketWriter::sendUnchoke`. Kind: D -/
def unchoke (u : PeerUploader) : PeerUploader :=
  if u.am_choked then
    { u with am_choked := false, pw := u.pw.queuePacket (ofType 1 (by decide)) }
  else u

/-! ### Staying inside the chunk -/

/-- A request that was handled as it should: a piece of a part that lies in the chunk has been
queued, or it was rejected or dropped. Kind: D -/
def Proper (fast_extensions : Bool) (c : Option Chunk) (r : Request) (pw pw' : PacketWriter) :
    Prop :=
  (∃ ch data s, c = some ch ∧ ch.data = some data ∧ r.off + r.len ≤ ch.size ∧
    pw' = pw.queuePacket s ∧ s.type = PIECE ∧ readUint32 s.bytes 0 = 9 + r.len ∧
    readUint32 s.bytes 5 = r.index ∧ readUint32 s.bytes 9 = r.off ∧
    s.bytes.drop 13 = (data.drop r.off).take r.len) ∨
  pw' = if fast_extensions then pw.sendReject r else pw

/-- The requests of a list, each handled as it should. Kind: D -/
def Handled (fast_extensions : Bool) (grab : ℕ → ℕ → Option Chunk) :
    ℕ → List Request → PacketWriter → PacketWriter → Prop
  | _, [], pw, pw' => pw' = pw
  | k, r :: rs, pw, pw'' => ∃ pw', Proper fast_extensions (grab k r.index) r pw pw' ∧
      Handled fast_extensions grab (k + 1) rs pw' pw''

/-- The sums made of a request that begins in the chunk do not wrap. Kind: D -/
def Fits (c : Option Chunk) (r : Request) : Prop :=
  ∀ ch data, c = some ch → ch.data = some data → r.off < ch.size →
    r.off + r.len < 2 ^ 32 ∧ (r.off + r.len ≤ ch.size → 13 + r.len < 2 ^ 32)

/-- The numbers in a piece. Source: `util/functions.cpp`, `ReadUint32`. Kind: L -/
theorem readUint32_ofPiece {index begin len : ℕ} {data : List UInt8} (hi : index < 2 ^ 32)
    (hb : begin < 2 ^ 32) (hlen : 13 + len < 2 ^ 32) (h : begin + len ≤ data.length) :
    readUint32 (Serial.ofPiece index hlen h).bytes 0 = 9 + len ∧
      readUint32 (Serial.ofPiece index hlen h).bytes 5 = index ∧
      readUint32 (Serial.ofPiece index hlen h).bytes 9 = begin ∧
      (Serial.ofPiece index hlen h).bytes.drop 13 = (data.drop begin).take len := by
  have hlength : 1 + (pieceBody index begin len data).length = 9 + len := by
    rw [length_pieceBody h]
    omega
  have hbytes : (Serial.ofPiece index hlen h).bytes = uint32Bytes (9 + len) ++
      (PIECE :: (uint32Bytes index ++ (uint32Bytes begin ++ (data.drop begin).take len))) := by
    show uint32Bytes (1 + (pieceBody index begin len data).length) ++
      PIECE :: pieceBody index begin len data = _
    rw [hlength, pieceBody, List.append_assoc]
  rw [hbytes]
  refine ⟨?_, ?_, ?_, rfl⟩
  · exact (readUint32_append [] _ _).trans (u32_of_lt (by omega))
  · have hread := readUint32_append (uint32Bytes (9 + len) ++ [PIECE]) index
      (uint32Bytes begin ++ (data.drop begin).take len)
    rw [u32_of_lt hi] at hread
    simp only [List.append_assoc, List.cons_append, List.nil_append] at hread
    exact hread
  · have hread := readUint32_append (uint32Bytes (9 + len) ++ [PIECE] ++ uint32Bytes index) begin
      ((data.drop begin).take len)
    rw [u32_of_lt hb] at hread
    simp only [List.append_assoc, List.cons_append, List.nil_append] at hread
    exact hread

/-- **One request:** it is handled as it should, or its sums wrap and a buffer is left.
Source: `PeerUploader::update`. Kind: P -/
theorem answer_cases (fast_extensions : Bool) (c : Option Chunk) {r : Request} (pw : PacketWriter)
    (hi : r.index < 2 ^ 32) (hb : r.off < 2 ^ 32) (hl : r.len < 2 ^ 32) :
    (Fits c r ∧ ∃ pw', answer fast_extensions c r pw = some pw' ∧
      Proper fast_extensions c r pw pw') ∨
    (¬ Fits c r ∧ answer fast_extensions c r pw = none) := by
  cases c with
  | none =>
    left
    refine ⟨?_, _, rfl, .inr rfl⟩
    intro ch data hc
    cases hc
  | some ch =>
    cases hdata : ch.data with
    | none =>
      left
      refine ⟨?_, _, ?_, .inr rfl⟩
      · intro ch' data hc hd
        obtain rfl := Option.some.inj hc
        rw [hdata] at hd
        cases hd
      · simp [answer, hdata]
    | some data =>
      have hwhole := ch.whole data hdata
      have hanswer : answer fast_extensions (some ch) r pw =
          (pw.sendChunk r.index r.off r.len ch).map fun q =>
            if q.1 then q.2 else if fast_extensions then q.2.sendReject r else q.2 := by
        simp [answer, hdata]
      have hfits : Fits (some ch) r ↔ (r.off < ch.size →
          r.off + r.len < 2 ^ 32 ∧ (r.off + r.len ≤ ch.size → 13 + r.len < 2 ^ 32)) := by
        constructor
        · intro h
          exact h ch data rfl hdata
        · intro h ch' data' hc _
          obtain rfl := Option.some.inj hc
          exact h
      rw [hanswer, hfits, PacketWriter.sendChunk]
      by_cases htest : r.off ≥ ch.size ∨ u32 (r.off + r.len) > ch.size
      · -- rejected: the sum has not wrapped to a number below the size
        rw [if_pos htest]
        left
        refine ⟨fun hlt => ?_, _, rfl, .inr ?_⟩
        · unfold u32 at htest
          have hsize := ch.fits
          omega
        · rfl
      · rw [if_neg htest, hdata]
        dsimp only
        by_cases hok : 13 + r.len < 2 ^ 32 ∧ r.off + r.len ≤ data.length
        · left
          obtain ⟨h13, hin⟩ := hok
          have hread := readUint32_ofPiece hi hb h13 hin
          rw [ofBytes_pieceBytes r.index h13 hin]
          have hsize := ch.fits
          refine ⟨fun _ => ⟨by omega, fun _ => h13⟩, _, rfl, .inl ⟨ch, data, _, rfl, hdata, ?_, rfl,
            rfl, hread⟩⟩
          rwa [← hwhole]
        · right
          have hnone : pieceBytes r.index r.off r.len data = none := by
            rw [Option.eq_none_iff_forall_not_mem]
            intro bytes hbytes
            obtain ⟨h13, hin, -⟩ := (pieceBytes_eq_some_iff hl).mp hbytes
            exact hok ⟨h13, hin⟩
          rw [hnone]
          refine ⟨fun h => hok ?_, rfl⟩
          unfold u32 at htest
          rw [hwhole]
          have h' := h (by omega)
          omega

/-- The numbers of a request that came as a message are of 32 bits. Kind: D -/
def Sized (r : Request) : Prop := r.index < 2 ^ 32 ∧ r.off < 2 ^ 32 ∧ r.len < 2 ^ 32

/-- A request read from a message has numbers of 32 bits. Source: `Peer::packetReady`, `REQUEST`.
Kind: L -/
theorem sized_ofMessage (id : ℕ) (tmp_buf : List UInt8) : Sized (Request.ofMessage id tmp_buf) :=
  ⟨readUint32_lt _ _, readUint32_lt _ _, readUint32_lt _ _⟩

/-- The loop: all requests are handled as they should, or one of them leaves a buffer.
Source: `PeerUploader::update`. Kind: L -/
theorem updateLoop_cases (fast_extensions : Bool) (grab : ℕ → ℕ → Option Chunk)
    {rs : List Request} (hrs : ∀ r ∈ rs, Sized r) (k : ℕ) (pw : PacketWriter) :
    ((∀ i r, rs[i]? = some r → Fits (grab (k + i) r.index) r) ∧
      ∃ pw', updateLoop fast_extensions grab k rs pw = some pw' ∧
        Handled fast_extensions grab k rs pw pw') ∨
    ((∃ i r, rs[i]? = some r ∧ ¬ Fits (grab (k + i) r.index) r) ∧
      updateLoop fast_extensions grab k rs pw = none) := by
  induction rs generalizing k pw with
  | nil => exact .inl ⟨fun i r h => by simp at h, pw, rfl, rfl⟩
  | cons r rs ih =>
    obtain ⟨hi, hb, hl⟩ := hrs r List.mem_cons_self
    obtain ⟨hfits, pw₁, hanswer, hproper⟩ | ⟨hno, hanswer⟩ :=
      answer_cases fast_extensions (grab k r.index) pw hi hb hl
    · have hnext : ∀ i, k + 1 + i = k + (i + 1) := fun i => by omega
      obtain ⟨hrest, pw₂, hloop, hhandled⟩ | ⟨⟨i, q, hq, hno⟩, hloop⟩ :=
        ih (fun q hq => hrs q (List.mem_cons_of_mem r hq)) (k + 1) pw₁
      · left
        refine ⟨?_, pw₂, ?_, pw₁, hproper, hhandled⟩
        · intro i q hq
          cases i with
          | zero =>
            obtain rfl := Option.some.inj hq
            exact hfits
          | succ i =>
            rw [← hnext]
            exact hrest i q hq
        · rw [updateLoop, hanswer, Option.bind_some, hloop]
      · right
        refine ⟨⟨i + 1, q, hq, ?_⟩, ?_⟩
        · rwa [← hnext]
        · rw [updateLoop, hanswer, Option.bind_some, hloop]
    · right
      refine ⟨⟨0, r, rfl, hno⟩, ?_⟩
      rw [updateLoop, hanswer]
      rfl

/-- What `update` should do with its requests: nothing, when it does not come to its loop, and
otherwise handle each as it should. Kind: D -/
def Inside (grab : ℕ → ℕ → Option Chunk) (snubbed completed optimistic : Bool)
    (u : PeerUploader) : Prop :=
  ∃ u', u.update grab snubbed completed optimistic = some u' ∧
    if u.proceeds snubbed completed optimistic then
      u'.requests = [] ∧ Handled u.fast_extensions grab 0 u.requests u.pw u'.pw
    else u' = u

/-- **Staying inside the chunk:** `update` handles the requests of a peer as it should just when the
sums made of those that begin in their chunk do not wrap. Source: `Peer::packetReady`, `REQUEST`.
Kind: P -/
theorem update_iff (grab : ℕ → ℕ → Option Chunk) (snubbed completed optimistic : Bool) (id : ℕ)
    (msgs : List (List UInt8)) (u : PeerUploader) :
    Inside grab snubbed completed optimistic
        { u with requests := msgs.map (Request.ofMessage id) } ↔
      (u.proceeds snubbed completed optimistic → ∀ k r,
        (msgs.map (Request.ofMessage id))[k]? = some r → Fits (grab k r.index) r) := by
  have hsized : ∀ r ∈ msgs.map (Request.ofMessage id), Sized r := by
    intro r hr
    obtain ⟨buf, -, rfl⟩ := List.mem_map.mp hr
    exact sized_ofMessage id buf
  have hsame : PeerUploader.proceeds snubbed completed optimistic
      { u with requests := msgs.map (Request.ofMessage id) } =
      u.proceeds snubbed completed optimistic := rfl
  unfold Inside update
  rw [hsame]
  by_cases hp : u.proceeds snubbed completed optimistic
  · rw [if_pos hp]
    simp only [hp, forall_const]
    obtain ⟨hfits, pw', hloop, hhandled⟩ | ⟨⟨i, r, hr, hno⟩, hloop⟩ :=
      updateLoop_cases u.fast_extensions grab hsized 0 u.pw
    · rw [hloop]
      simp only [Nat.zero_add] at hfits
      exact ⟨fun _ => hfits, fun _ => ⟨_, rfl, rfl, hhandled⟩⟩
    · rw [hloop]
      rw [Nat.zero_add] at hno
      constructor
      · rintro ⟨u', hu', -⟩
        cases hu'
      · intro h
        exact absurd (h i r hr) hno
  · rw [if_neg hp]
    simp only [hp]
    exact ⟨fun _ h => absurd h (by simp), fun _ => ⟨_, rfl, rfl⟩⟩

/-- The sample's numbers have 32 bits. Source: `torrent/peeruploader.cpp`,
`torrent/packetwriter.cpp`. Kind: L -/
theorem two_lt : 2 < 2 ^ 32 := by decide

/-- A chunk of two bytes. Kind: D -/
def twoBytes : Chunk where
  size := 2
  data := some [1, 2]
  whole bs h := by
    obtain rfl := Option.some.inj h
    rfl
  fits := two_lt

/-- A request that begins at the second byte and is long enough for its end to wrap.
Source: `Peer::packetReady`, `REQUEST`. Kind: P -/
theorem update_wraps :
    ¬ ∀ (grab : ℕ → ℕ → Option Chunk) (msgs : List (List UInt8)) (u : PeerUploader),
      Inside grab false false false { u with requests := msgs.map (Request.ofMessage 0) } := by
  intro h
  obtain ⟨u', hu', -⟩ := h (fun _ _ => some twoBytes)
    [[6, 0, 0, 0, 0, 0, 0, 0, 1, 255, 255, 255, 255]] { am_choked := false }
  have hnone : PeerUploader.update (fun _ _ => some twoBytes) false false false
      { am_choked := false,
        requests := [[6, 0, 0, 0, 0, 0, 0, 0, 1, 255, 255, 255, 255]].map
          (Request.ofMessage 0) } = none := by
    rfl
  rw [hnone] at hu'
  cases hu'

end PeerUploader

end KTorrent.Net
