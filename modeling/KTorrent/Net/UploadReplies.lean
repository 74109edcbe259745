import KTorrent.Lib.GuardedRun
import KTorrent.Net.CancelledPieces

/-!
# One answer to each request

The uploader of a peer over whole runs: requests and cancels arrive, `update` answers what is
waiting, the peer is choked and unchoked, and packets go out, in any order.

* `pieces`, `rejects` — the answers produced for a request; `Op.Ok` — the condition on a step: no
  cancel hits a piece of another length, and no sum made of a request wraps.
* `Counted` — what every such step keeps: each request received is waiting, taken off the list,
  answered with a piece, or rejected.
* `replies_run` — so in every state there are at most as many answers as requests, and while the
  peer is choked every request that was not cancelled is sent, on its way, or rejected.

Source: `torrent/peeruploader.cpp`, `torrent/packetwriter.cpp`, `torrent/peer.cpp`
-/

namespace KTorrent.Net

open KTorrent.Lib KTorrent.Util KTorrent.Transfer

/-! ### Answers and requests -/

/-- A piece of what the request asks for. Kind: D -/
def Serial.pieceFor (t : Request) (s : Serial) : Bool :=
  decide (s.type = PIECE) && decide (readUint32 s.bytes 5 = t.index) &&
    decide (readUint32 s.bytes 9 = t.off) && decide (s.size - 13 = t.len)

/-- A reject of the request. Kind: D -/
def Serial.rejectFor (t : Request) (s : Serial) : Bool :=
  decide (s.type = REJECT_REQUEST) && decide (readUint32 s.bytes 5 = t.index) &&
    decide (readUint32 s.bytes 9 = t.off) && decide (readUint32 s.bytes 13 = t.len)

/-- How many of the requests are for the same bytes. Kind: D -/
def asked (t : Request) (rs : List Request) : ℕ := rs.countP fun r => r.sameAs t

/-- The numbers of a packet made of a request. Source: `Packet::Packet(const Request &, Uint8)`.
Kind: L -/
theorem rejectFor_ofRequest {r : Request} (hr : PeerUploader.Sized r) (t : Request)
    (h : REJECT_REQUEST ≠ PIECE) :
    (Serial.ofRequest r REJECT_REQUEST h).rejectFor t = r.sameAs t := by
  obtain ⟨hi, hb, hl⟩ := hr
  have hbytes : (Serial.ofRequest r REJECT_REQUEST h).bytes = uint32Bytes 13 ++
      (REJECT_REQUEST :: (uint32Bytes r.index ++ (uint32Bytes r.off ++ uint32Bytes r.len))) := rfl
  have h5 := readUint32_append (uint32Bytes 13 ++ [REJECT_REQUEST]) r.index
    (uint32Bytes r.off ++ uint32Bytes r.len)
  have h9 := readUint32_append (uint32Bytes 13 ++ [REJECT_REQUEST] ++ uint32Bytes r.index) r.off
    (uint32Bytes r.len)
  have h13 := readUint32_append
    (uint32Bytes 13 ++ [REJECT_REQUEST] ++ uint32Bytes r.index ++ uint32Bytes r.off) r.len []
  rw [u32_of_lt hi] at h5
  rw [u32_of_lt hb] at h9
  rw [u32_of_lt hl] at h13
  simp only [List.append_assoc, List.cons_append, List.nil_append, List.append_nil] at h5 h9 h13
  have e5 : readUint32 (Serial.ofRequest r REJECT_REQUEST h).bytes 5 = r.index := h5
  have e9 : readUint32 (Serial.ofRequest r REJECT_REQUEST h).bytes 9 = r.off := h9
  have e13 : readUint32 (Serial.ofRequest r REJECT_REQUEST h).bytes 13 = r.len := h13
  have htype : (Serial.ofRequest r REJECT_REQUEST h).type = REJECT_REQUEST := rfl
  rw [Serial.rejectFor, e5, e9, e13, htype, Request.sameAs, decide_eq_true rfl, Bool.true_and,
    Bool.and_assoc, Bool.and_assoc, Bool.and_comm (decide (r.off = t.off))]

/-- The reject of a piece is for what the piece was for. Source: `Packet::makeRejectOfPiece`.
Kind: L -/
theorem rejectFor_makeRejectOfPiece {s : Serial} (hs : s.type = PIECE) (t : Request) :
    s.makeRejectOfPiece.rejectFor t = s.pieceFor t := by
  have hsized : PeerUploader.Sized ⟨readUint32 s.bytes 5, readUint32 s.bytes 9, s.size - 13, 0⟩ :=
    ⟨readUint32_lt _ _, readUint32_lt _ _, Nat.lt_of_le_of_lt (Nat.sub_le _ _) s.fits⟩
  rw [Serial.makeRejectOfPiece, rejectFor_ofRequest hsized, Serial.pieceFor, hs, Request.sameAs,
    decide_eq_true rfl, Bool.true_and, Bool.and_assoc, Bool.and_assoc,
    Bool.and_comm (decide (s.size - 13 = t.len))]

/-- A packet is not for a request it is no piece or reject of. Source: `torrent/peeruploader.cpp`,
`torrent/packetwriter.cpp`. Kind: L -/
theorem pieceFor_of_ne {s : Serial} (h : s.type ≠ PIECE) (t : Request) : s.pieceFor t = false := by
  rw [Serial.pieceFor, decide_eq_false h]
  rfl

/-- A packet of another type rejects nothing. Source: `torrent/peeruploader.cpp`,
`torrent/packetwriter.cpp`. Kind: L -/
theorem rejectFor_of_ne {s : Serial} (h : s.type ≠ REJECT_REQUEST) (t : Request) :
    s.rejectFor t = false := by
  rw [Serial.rejectFor, decide_eq_false h]
  rfl

namespace PeerUploader

/-- The pieces produced for a request: sent, or in the queue. Kind: D -/
def pieces (t : Request) (u : PeerUploader) : ℕ :=
  (u.pw.sent.countP fun s => s.packet.serial.pieceFor t) +
    u.pw.data_packets.countP fun p => p.serial.pieceFor t

/-- The rejects produced for a request. Kind: D -/
def rejects (t : Request) (u : PeerUploader) : ℕ := u.pw.queued.countP fun q => q.2.rejectFor t

/-- What can happen to an uploader and its writer. Kind: D -/
inductive Op
  | request (id : ℕ) (tmp_buf : List UInt8)
  | cancel (beyond : ℕ → List UInt8) (id : ℕ) (tmp_buf : List UInt8)
  | update (grab : ℕ → ℕ → Option Chunk) (snubbed completed optimistic : Bool)
  | choke
  | unchoke
  | onReadyToWrite (max_to_write : ℕ)
  /-- Some other message is queued. -/
  | send (s : Serial) (h : s.type ≠ PIECE) (h' : s.type ≠ REJECT_REQUEST)

/-- The state after a step; `none` is an access outside a buffer. Kind: D -/
def step : Option PeerUploader → Op → Option PeerUploader
  | none, _ => none
  | some u, .request id tmp_buf => some (u.addRequest (Request.ofMessage id tmp_buf))
  | some u, .cancel beyond id tmp_buf => some (u.removeRequest beyond (Request.ofMessage id tmp_buf))
  | some u, .update grab snubbed completed optimistic =>
      u.update grab snubbed completed optimistic
  | some u, .choke => some u.choke
  | some u, .unchoke => some u.unchoke
  | some u, .onReadyToWrite max =>
      (u.pw.onReadyToWrite max).map fun q => { u with pw := q.1 }
  | some u, .send s _ _ => some { u with pw := u.pw.queuePacket s }

/-- A cancel hits no piece of another length, and `update` comes to no request whose sums wrap.
Kind: D -/
def Op.Ok : Option PeerUploader → Op → Prop
  | some u, .cancel beyond id tmp_buf => ∀ p ∈ u.pw.data_packets, p.sending = false →
      p.serial.isPiece (beyond p.ptr) (Request.ofMessage id tmp_buf) = true →
        p.serial.size - 13 = (Request.ofMessage id tmp_buf).len
  | some u, .update grab snubbed completed optimistic =>
      u.proceeds snubbed completed optimistic = true → ∀ k r, u.requests[k]? = some r →
        Fits (grab k r.index) r
  | _, _ => True

/-- The pieces and rejects queued for a request. Kind: D -/
def answers (t : Request) (pw : PacketWriter) : ℕ :=
  (pw.queued.countP fun q => q.2.pieceFor t) + pw.queued.countP fun q => q.2.rejectFor t

/-- The pieces for a request that were taken back. Kind: D -/
def withdrawn (t : Request) (pw : PacketWriter) : ℕ :=
  pw.removed.countP fun p => p.serial.pieceFor t

/-- **What every such step keeps:** each request received is waiting, taken off the list, answered
with a piece or rejected, a piece that was taken back not counting; and none waits while the peer is
choked. Kind: D -/
structure Counted (u : PeerUploader) : Prop where
  sound : PacketWriter.Sound u.pw
  fast : u.fast_extensions = true
  sized : ∀ r ∈ u.requests, Sized r
  count : ∀ t, asked t u.received + withdrawn t u.pw =
    asked t u.requests + asked t u.cancelled + answers t u.pw
  quiet : u.am_choked = true → u.requests = [] ∧ ∀ p ∈ u.pw.data_packets, p.sending = true

/-! ### The steps -/

/-- What is asked for in two lists. Source: none: infrastructure. Kind: L -/
theorem asked_append (t : Request) (rs rs' : List Request) :
    asked t (rs ++ rs') = asked t rs + asked t rs' := List.countP_append

/-- What is asked for first and then. Source: none: infrastructure. Kind: L -/
theorem asked_cons (t r : Request) (rs : List Request) :
    asked t (r :: rs) = asked t rs + (if r.sameAs t then 1 else 0) := List.countP_cons

/-- Queueing a packet. Source: `PacketWriter::queuePacket`. Kind: L -/
theorem answers_queuePacket (t : Request) (pw : PacketWriter) (s : Serial) :
    answers t (pw.queuePacket s) =
        answers t pw + (if s.pieceFor t then 1 else 0) + (if s.rejectFor t then 1 else 0) ∧
      withdrawn t (pw.queuePacket s) = withdrawn t pw := by
  obtain ⟨-, -, -, -, -, hr, hq, -⟩ := PacketWriter.queuePacket_frame s pw
  unfold answers withdrawn
  rw [hq, hr, List.countP_append, List.countP_append, List.countP_singleton, List.countP_singleton]
  dsimp only
  exact ⟨by omega, rfl⟩

/-- Queueing a reject. Source: `PacketWriter::sendReject`. Kind: L -/
theorem answers_sendReject {r : Request} (hr : Sized r) (t : Request) (pw : PacketWriter) :
    answers t (pw.sendReject r) = answers t pw + (if r.sameAs t then 1 else 0) ∧
      withdrawn t (pw.sendReject r) = withdrawn t pw := by
  obtain ⟨h1, h2⟩ := answers_queuePacket t pw (.ofRequest r REJECT_REQUEST (by decide))
  have hpiece : (Serial.ofRequest r REJECT_REQUEST (by decide)).pieceFor t = false :=
    pieceFor_of_ne (s := .ofRequest r REJECT_REQUEST (by decide))
      (show REJECT_REQUEST ≠ PIECE by decide) t
  rw [hpiece, rejectFor_ofRequest hr, if_neg Bool.false_ne_true, Nat.add_zero] at h1
  exact ⟨h1, h2⟩

/-- A walk that queues, for each packet it takes back, a reject of what the packet was for.
Source: `torrent/peeruploader.cpp`, `torrent/packetwriter.cpp`. Kind: L -/
theorem answers_walked {hit : Packet → Bool} {reject : Packet → Option Serial} {ps : List Packet}
    {pw pw' : PacketWriter} (h : PacketWriter.Walked hit reject ps pw pw') (t : Request)
    (hreject : ∀ p ∈ PacketWriter.taken hit ps, ∃ s, reject p = some s ∧ s.pieceFor t = false ∧
      s.rejectFor t = p.serial.pieceFor t) :
    answers t pw' + withdrawn t pw = answers t pw + withdrawn t pw' := by
  have hcount : ∀ l : List Packet, (∀ p ∈ l, ∃ s, reject p = some s ∧ s.pieceFor t = false ∧
      s.rejectFor t = p.serial.pieceFor t) →
      (l.filterMap reject).countP (Serial.pieceFor t) = 0 ∧
        (l.filterMap reject).countP (Serial.rejectFor t) =
          l.countP fun p => p.serial.pieceFor t := by
    intro l hl
    induction l with
    | nil => exact ⟨rfl, rfl⟩
    | cons p l ih =>
      obtain ⟨s, hs, hp, hr⟩ := hl p List.mem_cons_self
      obtain ⟨h1, h2⟩ := ih fun q hq => hl q (List.mem_cons_of_mem p hq)
      rw [List.filterMap_cons, hs]
      dsimp only
      rw [List.countP_cons, List.countP_cons, List.countP_cons, h1, h2, hp, hr]
      exact ⟨rfl, rfl⟩
  obtain ⟨h1, h2⟩ := hcount _ hreject
  have hqueued : ∀ f : Serial → Bool, (pw'.queued.countP fun q => f q.2) =
      (pw.queued.countP fun q => f q.2) +
        ((PacketWriter.taken hit ps).filterMap reject).countP f := by
    intro f
    have hmap : ∀ l : List (ℕ × Serial), (l.countP fun q => f q.2) = (l.map Prod.snd).countP f :=
      fun l => List.countP_map.symm
    rw [hmap, hmap, h.queued, List.countP_append]
  unfold answers withdrawn
  rw [hqueued, hqueued, h1, h2, h.removed, List.countP_append]
  omega

/-- A reject is no data packet. Source: `PacketWriter::sendReject`. Kind: L -/
theorem data_sendReject (r : Request) (pw : PacketWriter) :
    (pw.sendReject r).data_packets = pw.data_packets := by
  obtain ⟨hp, -, -⟩ | ⟨-, -, hd⟩ :=
    PacketWriter.queuePacket_cases (.ofRequest r REJECT_REQUEST (by decide)) pw
  · exact absurd hp (show REJECT_REQUEST ≠ PIECE by decide)
  · exact hd

/-- A reject keeps the writer sound. Source: `PacketWriter::sendReject`. Kind: L -/
theorem sound_sendReject {pw : PacketWriter} (h : PacketWriter.Sound pw) (r : Request) :
    PacketWriter.Sound (pw.sendReject r) :=
  PacketWriter.sound_queuePacket h _

/-- A `REQUEST` arrives. Source: `Peer::packetReady`, `PeerUploader::addRequest`. Kind: L -/
theorem Counted.addRequest {u : PeerUploader} (h : Counted u) {r : Request} (hr : Sized r) :
    Counted (u.addRequest r) := by
  have hreceived : ∀ t, asked t (u.received ++ [r]) =
      asked t u.received + if r.sameAs t then 1 else 0 := by
    intro t
    rw [asked_append]
    exact congrArg _ List.countP_singleton
  unfold PeerUploader.addRequest
  dsimp only
  by_cases hc : u.am_choked = true
  · rw [if_pos hc, if_pos h.fast]
    refine ⟨sound_sendReject h.sound r, h.fast, h.sized, fun t => ?_, fun _ => ?_⟩
    · obtain ⟨h1, h2⟩ := answers_sendReject hr t u.pw
      have hcount := h.count t
      show asked t (u.received ++ [r]) + withdrawn t (u.pw.sendReject r) =
        asked t u.requests + asked t u.cancelled + answers t (u.pw.sendReject r)
      rw [hreceived, h1, h2]
      omega
    · obtain ⟨hnil, hall⟩ := h.quiet hc
      refine ⟨hnil, fun p hp => hall p ?_⟩
      rwa [← data_sendReject r u.pw]
  · rw [if_neg hc]
    refine ⟨h.sound, h.fast, ?_, fun t => ?_, fun hc' => absurd hc' hc⟩
    · intro q hq
      rcases List.mem_append.mp hq with hq | hq
      · exact h.sized q hq
      · rw [List.mem_singleton.mp hq]
        exact hr
    · have hcount := h.count t
      show asked t (u.received ++ [r]) + withdrawn t u.pw =
        asked t (u.requests ++ [r]) + asked t u.cancelled + answers t u.pw
      rw [asked_append, asked_append]
      omega

/-- Taking the requests like one off the list. Source: `torrent/peeruploader.cpp`,
`torrent/packetwriter.cpp`. Kind: L -/
theorem asked_filter (t r : Request) (rs : List Request) :
    asked t (rs.filter fun q => !q.sameAs r) + asked t (rs.filter fun q => q.sameAs r) =
      asked t rs := by
  induction rs with
  | nil => rfl
  | cons q rs ih =>
    rw [asked_cons, List.filter_cons, List.filter_cons]
    cases q.sameAs r with
    | true =>
      rw [Bool.not_true, if_neg Bool.false_ne_true, if_pos rfl, asked_cons]
      omega
    | false =>
      rw [Bool.not_false, if_neg Bool.false_ne_true, if_pos rfl, asked_cons]
      omega

/-- A `CANCEL` arrives that hits no piece of another length. Source: `PeerUploader::removeRequest`.
Kind: L -/
theorem Counted.removeRequest {u : PeerUploader} (h : Counted u) (beyond : ℕ → List UInt8)
    {r : Request} (hr : Sized r)
    (hok : ∀ p ∈ u.pw.data_packets, p.sending = false →
      p.serial.isPiece (beyond p.ptr) r = true → p.serial.size - 13 = r.len) :
    Counted (u.removeRequest beyond r) := by
  have hne : REJECT_REQUEST ≠ PIECE := by decide
  have hwalk : PacketWriter.Walked (fun p => p.serial.isPiece (beyond p.ptr) r)
      (fun _ => some (Serial.ofRequest r REJECT_REQUEST hne)) u.pw.data_packets u.pw
      (u.pw.doNotSendPiece beyond r true) := by
    refine PacketWriter.walk_spec _ (fun _ s hs => ?_) _ h.sound.nodup_data
    obtain rfl := Option.some.inj hs
    exact hne
  have hdata := hwalk.data_all h.sound.nodup_data
  unfold PeerUploader.removeRequest
  rw [h.fast]
  refine ⟨PacketWriter.sound_doNotSendPiece h.sound beyond r true, rfl, ?_, fun t => ?_, ?_⟩
  · intro q hq
    exact h.sized q (List.mem_of_mem_filter hq)
  · have hcount := h.count t
    have hwalked := answers_walked hwalk t fun p hp => by
      obtain ⟨hpd, hp⟩ := List.mem_filter.mp hp
      obtain ⟨hhit, hs⟩ := Bool.and_eq_true_iff.mp hp
      refine ⟨_, rfl, pieceFor_of_ne (s := .ofRequest r REJECT_REQUEST hne) hne t, ?_⟩
      rw [rejectFor_ofRequest hr]
      -- the piece is of the request's bytes
      have hlen := hok p hpd (by simpa using hs) hhit
      simp only [Serial.isPiece, Bool.and_eq_true, decide_eq_true_eq] at hhit
      obtain ⟨⟨⟨htype, hi⟩, hb⟩, -⟩ := hhit
      rw [Serial.pieceFor, htype, hi, hb, hlen, Request.sameAs, decide_eq_true rfl, Bool.true_and,
        Bool.and_assoc, Bool.and_assoc, Bool.and_comm (decide (r.off = t.off))]
    have hfilter := asked_filter t r u.requests
    show asked t u.received + withdrawn t (u.pw.doNotSendPiece beyond r true) =
      asked t (u.requests.filter fun q => !q.sameAs r) +
        asked t (u.cancelled ++ u.requests.filter fun q => q.sameAs r) +
        answers t (u.pw.doNotSendPiece beyond r true)
    rw [asked_append]
    omega
  · intro hc
    obtain ⟨hnil, hall⟩ := h.quiet hc
    refine ⟨by rw [hnil]; rfl, fun p hp => ?_⟩
    rw [hdata] at hp
    exact hall p (List.mem_of_mem_filter hp)

/-- The requests left on the list are rejected. Source: `torrent/peeruploader.cpp`,
`torrent/packetwriter.cpp`. Kind: L -/
theorem answers_rejectAll {rs : List Request} (hrs : ∀ r ∈ rs, Sized r) (t : Request)
    {pw : PacketWriter} (hpw : PacketWriter.Sound pw) :
    let pw' := rs.foldl (fun pw r => pw.sendReject r) pw
    PacketWriter.Sound pw' ∧ pw'.data_packets = pw.data_packets ∧
      answers t pw' = answers t pw + asked t rs ∧ withdrawn t pw' = withdrawn t pw := by
  induction rs generalizing pw with
  | nil => exact ⟨hpw, rfl, rfl, rfl⟩
  | cons r rs ih =>
    obtain ⟨h1, h2⟩ := answers_sendReject (hrs r List.mem_cons_self) t pw
    obtain ⟨hs, hd, ha, hw⟩ := ih (fun q hq => hrs q (List.mem_cons_of_mem r hq))
      (sound_sendReject hpw r)
    refine ⟨hs, hd.trans (data_sendReject r pw), ?_, hw.trans h2⟩
    rw [List.foldl_cons, ha, h1, asked_cons]
    omega

/-- The peer is choked. Source: `Peer::choke`, `PacketWriter::sendChoke`. Kind: L -/
theorem Counted.choke {u : PeerUploader} (h : Counted u) : Counted u.choke := by
  unfold PeerUploader.choke
  by_cases hc : u.am_choked = true
  · rw [if_pos hc]
    exact h
  · rw [if_neg hc, clearAllRequests]
    dsimp only
    rw [h.fast, if_pos rfl]
    generalize hpw₁ : u.pw.queuePacket (ofType 0 (by decide)) = pw₁
    have hs₁ : PacketWriter.Sound pw₁ := hpw₁ ▸ PacketWriter.sound_queuePacket h.sound _
    have hwalk : PacketWriter.Walked (fun p => decide (p.serial.type = PIECE))
        (fun p => some p.serial.makeRejectOfPiece) pw₁.data_packets pw₁ (pw₁.clearPieces true) := by
      refine PacketWriter.walk_spec _ (fun _ s hs => ?_) _ hs₁.nodup_data
      obtain rfl := Option.some.inj hs
      exact show REJECT_REQUEST ≠ PIECE by decide
    have hs₂ := PacketWriter.sound_clearPieces hs₁ true
    refine ⟨(answers_rejectAll h.sized ⟨0, 0, 0, 0⟩ hs₂).1, rfl, by simp, fun t => ?_,
      fun _ => ⟨rfl, ?_⟩⟩
    · obtain ⟨-, -, ha, hw⟩ := answers_rejectAll h.sized t hs₂
      obtain ⟨h1, h2⟩ := answers_queuePacket t u.pw (ofType 0 (by decide))
      have hwalked := answers_walked hwalk t fun p hp => by
        obtain ⟨-, hp⟩ := List.mem_filter.mp hp
        have htype : p.serial.type = PIECE := of_decide_eq_true (Bool.and_eq_true_iff.mp hp).1
        exact ⟨_, rfl, pieceFor_of_ne (s := p.serial.makeRejectOfPiece)
          (show REJECT_REQUEST ≠ PIECE by decide) t, rejectFor_makeRejectOfPiece htype t⟩
      have hcount := h.count t
      have hp0 : (ofType 0 (by decide)).pieceFor t = false :=
        pieceFor_of_ne (s := ofType 0 (by decide)) (show (0 : UInt8) ≠ PIECE by decide) t
      have hr0 : (ofType 0 (by decide)).rejectFor t = false :=
        rejectFor_of_ne (s := ofType 0 (by decide))
          (show (0 : UInt8) ≠ REJECT_REQUEST by decide) t
      rw [hp0, hr0, if_neg Bool.false_ne_true, hpw₁] at h1
      rw [hpw₁] at h2
      show asked t u.received + withdrawn t _ = asked t [] + asked t u.cancelled + answers t _
      rw [ha, hw]
      have hnil : asked t [] = 0 := rfl
      omega
    · obtain ⟨-, hd, -⟩ := answers_rejectAll h.sized ⟨0, 0, 0, 0⟩ hs₂
      intro p hp
      rw [hd, hwalk.data_all hs₁.nodup_data] at hp
      obtain ⟨hpd, hp⟩ := List.mem_filter.mp hp
      have htype := hs₁.data p hpd
      simpa [htype] using hp

/-- A piece that was queued for a request is a piece for it. Source: `torrent/peeruploader.cpp`,
`torrent/packetwriter.cpp`. Kind: L -/
theorem pieceFor_of_proper {r : Request} {s : Serial} {data : List UInt8} (htype : s.type = PIECE)
    (hi : readUint32 s.bytes 5 = r.index) (hb : readUint32 s.bytes 9 = r.off)
    (hin : r.off + r.len ≤ data.length) (hdrop : s.bytes.drop 13 = (data.drop r.off).take r.len)
    (t : Request) : s.pieceFor t = r.sameAs t := by
  have hlen : s.size - 13 = r.len := by
    have h := congrArg List.length hdrop
    rw [List.length_drop, List.length_take, List.length_drop] at h
    rw [Serial.size, h]
    omega
  rw [Serial.pieceFor, htype, hi, hb, hlen, Request.sameAs, decide_eq_true rfl, Bool.true_and,
    Bool.and_assoc, Bool.and_assoc, Bool.and_comm (decide (r.off = t.off))]

/-- One request is handled. Source: `torrent/peeruploader.cpp`, `torrent/packetwriter.cpp`.
Kind: L -/
theorem answers_proper {c : Option Chunk} {r : Request} {pw pw' : PacketWriter}
    (h : Proper true c r pw pw') (hr : Sized r) (hs : PacketWriter.Sound pw) (t : Request) :
    PacketWriter.Sound pw' ∧ answers t pw' = answers t pw + (if r.sameAs t then 1 else 0) ∧
      withdrawn t pw' = withdrawn t pw := by
  obtain ⟨ch, data, s, -, hdata, hin, rfl, htype, -, hi, hb, hdrop⟩ | rfl := h
  · obtain ⟨h1, h2⟩ := answers_queuePacket t pw s
    rw [← ch.whole data hdata] at hin
    have hne : s.type ≠ REJECT_REQUEST := by
      rw [htype]
      decide
    rw [pieceFor_of_proper htype hi hb hin hdrop t, rejectFor_of_ne hne t,
      if_neg Bool.false_ne_true, Nat.add_zero] at h1
    exact ⟨PacketWriter.sound_queuePacket hs s, h1, h2⟩
  · exact ⟨sound_sendReject hs r, answers_sendReject hr t pw⟩

/-- The requests of a list are handled. Source: `torrent/peeruploader.cpp`,
`torrent/packetwriter.cpp`. Kind: L -/
theorem answers_handled {grab : ℕ → ℕ → Option Chunk} {rs : List Request}
    (hrs : ∀ r ∈ rs, Sized r) (t : Request) {k : ℕ} {pw pw' : PacketWriter}
    (h : Handled true grab k rs pw pw') (hs : PacketWriter.Sound pw) :
    PacketWriter.Sound pw' ∧ answers t pw' = answers t pw + asked t rs ∧
      withdrawn t pw' = withdrawn t pw := by
  induction rs generalizing k pw with
  | nil =>
    obtain rfl : pw' = pw := h
    exact ⟨hs, rfl, rfl⟩
  | cons r rs ih =>
    obtain ⟨pw₁, hproper, hrest⟩ := h
    obtain ⟨hs₁, ha₁, hw₁⟩ := answers_proper hproper (hrs r List.mem_cons_self) hs t
    obtain ⟨hs₂, ha₂, hw₂⟩ := ih (fun q hq => hrs q (List.mem_cons_of_mem r hq)) hrest hs₁
    refine ⟨hs₂, ?_, hw₂.trans hw₁⟩
    rw [ha₂, ha₁, asked_cons]
    omega

/-- `update` answers all requests, when no sum wraps. Source: `torrent/peeruploader.cpp`,
`torrent/packetwriter.cpp`. Kind: L -/
theorem Counted.update {u : PeerUploader} (h : Counted u) {grab : ℕ → ℕ → Option Chunk}
    {snubbed completed optimistic : Bool}
    (hok : u.proceeds snubbed completed optimistic = true → ∀ k r, u.requests[k]? = some r →
      Fits (grab k r.index) r) :
    ∃ u', u.update grab snubbed completed optimistic = some u' ∧ Counted u' := by
  unfold PeerUploader.update
  by_cases hp : u.proceeds snubbed completed optimistic = true
  · rw [if_pos hp, h.fast]
    obtain ⟨-, pw', hloop, hhandled⟩ | ⟨⟨i, r, hr, hno⟩, -⟩ :=
      updateLoop_cases true grab h.sized 0 u.pw
    · rw [hloop]
      refine ⟨_, rfl, (answers_handled h.sized ⟨0, 0, 0, 0⟩ hhandled h.sound).1, rfl, by simp,
        fun t => ?_, fun hc => ?_⟩
      · obtain ⟨-, ha, hw⟩ := answers_handled h.sized t hhandled h.sound
        have hcount := h.count t
        show asked t u.received + withdrawn t pw' = asked t [] + asked t u.cancelled + answers t pw'
        rw [ha, hw]
        have hnil : asked t [] = 0 := rfl
        omega
      · -- a choked peer does not get here
        rw [PeerUploader.proceeds, show u.am_choked = true from hc] at hp
        cases hp
    · rw [Nat.zero_add] at hno
      exact absurd (hok hp i r hr) hno
  · rw [if_neg hp]
    exact ⟨u, rfl, h⟩

/-- A message that is no piece and no reject is queued. Source: `torrent/peeruploader.cpp`,
`torrent/packetwriter.cpp`. Kind: L -/
theorem Counted.send {u : PeerUploader} (h : Counted u) {s : Serial} (hp : s.type ≠ PIECE)
    (hr : s.type ≠ REJECT_REQUEST) : Counted { u with pw := u.pw.queuePacket s } := by
  refine ⟨PacketWriter.sound_queuePacket h.sound s, h.fast, h.sized, fun t => ?_, fun hc => ?_⟩
  · obtain ⟨h1, h2⟩ := answers_queuePacket t u.pw s
    rw [pieceFor_of_ne hp t, rejectFor_of_ne hr t, if_neg Bool.false_ne_true] at h1
    have hcount := h.count t
    show asked t u.received + withdrawn t (u.pw.queuePacket s) =
      asked t u.requests + asked t u.cancelled + answers t (u.pw.queuePacket s)
    rw [h1, h2]
    omega
  · obtain ⟨hnil, hall⟩ := h.quiet hc
    refine ⟨hnil, ?_⟩
    obtain ⟨hp', -, -⟩ | ⟨-, -, hd⟩ := PacketWriter.queuePacket_cases s u.pw
    · exact absurd hp' hp
    · show ∀ p ∈ (u.pw.queuePacket s).data_packets, p.sending = true
      rwa [hd]

/-- The peer is unchoked. Source: `PacketWriter::sendUnchoke`. Kind: L -/
theorem Counted.unchoke {u : PeerUploader} (h : Counted u) : Counted u.unchoke := by
  unfold PeerUploader.unchoke
  split_ifs with hc
  · have hsend := h.send (s := ofType 1 (by decide)) (show (1 : UInt8) ≠ PIECE by decide)
      (show (1 : UInt8) ≠ REJECT_REQUEST by decide)
    exact ⟨hsend.sound, hsend.fast, hsend.sized, hsend.count, fun hc' => by cases hc'⟩
  · exact h

/-- Packets go out. Source: `CacheFile::write`. Kind: L -/
theorem Counted.write {u : PeerUploader} (h : Counted u) (max : ℕ) :
    ∃ u', step (some u) (.onReadyToWrite max) = some u' ∧ Counted u' := by
  obtain ⟨pw', bs, hwrite, hs, -⟩ := PacketWriter.onReadyToWrite_spec h.sound max
  have honward := PacketWriter.onward_onReadyToWrite h.sound hwrite
  refine ⟨{ u with pw := pw' }, ?_, hs, h.fast, h.sized, fun t => ?_, fun hc => ?_⟩
  · rw [step, hwrite]
    rfl
  · have hcount := h.count t
    unfold answers withdrawn at hcount ⊢
    dsimp only
    rwa [honward.queued, honward.removed]
  · obtain ⟨hnil, hall⟩ := h.quiet hc
    exact ⟨hnil, honward.sending hall⟩

/-- Every step that meets the condition keeps the count. Source: `torrent/peeruploader.cpp`,
`torrent/packetwriter.cpp`. Kind: L -/
theorem Counted.step {u : PeerUploader} (h : Counted u) {op : Op} (hok : Op.Ok (some u) op) :
    ∃ u', PeerUploader.step (some u) op = some u' ∧ Counted u' := by
  cases op with
  | request id tmp_buf => exact ⟨_, rfl, h.addRequest (sized_ofMessage id tmp_buf)⟩
  | cancel beyond id tmp_buf =>
    exact ⟨_, rfl, h.removeRequest beyond (sized_ofMessage id tmp_buf) hok⟩
  | update grab snubbed completed optimistic => exact h.update hok
  | choke => exact ⟨_, rfl, h.choke⟩
  | unchoke => exact ⟨_, rfl, h.unchoke⟩
  | onReadyToWrite max => exact h.write max
  | send s hp hr => exact ⟨_, rfl, h.send hp hr⟩

/-- A new uploader owes nothing. Source: `torrent/peeruploader.cpp`, `torrent/packetwriter.cpp`.
Kind: L -/
theorem counted_new : Counted {} where
  sound := PacketWriter.sound_new
  fast := rfl
  sized := by simp
  count _ := rfl
  quiet _ := ⟨rfl, by simp⟩

/-! ### Runs -/

/-- The requests the messages bring, and those the cancels among them take off the list. Kind: D -/
structure History where
  received : List Request := []
  cancelled : List Request := []

/-- What an operation brings to the uploader it finds. Kind: D -/
def History.next (h : History) (u : PeerUploader) : Op → History
  | .request id tmp_buf => { h with received := h.received ++ [Request.ofMessage id tmp_buf] }
  | .cancel _ id tmp_buf =>
    { h with
      cancelled := h.cancelled ++ u.requests.filter fun q => q.sameAs (Request.ofMessage id tmp_buf) }
  | _ => h

/-- The uploader and what came to it. Kind: D -/
def stepWith (q : Option PeerUploader × History) (op : Op) : Option PeerUploader × History :=
  (step q.1 op, match q.1 with
    | none => q.2
    | some u => q.2.next u op)

/-- What a run brings. Kind: D -/
def history (ops : List Op) : History := (run stepWith (some {}, {}) ops).2

/-- What came was noted. Kind: D -/
structure Noted (h : History) (u : PeerUploader) : Prop where
  received : u.received = h.received
  cancelled : u.cancelled = h.cancelled

/-- Choking notes nothing. Source: `Peer::choke`. Kind: L -/
theorem noted_choke {h : History} {u : PeerUploader} (hn : Noted h u) : Noted h u.choke := by
  unfold choke
  split_ifs
  · exact hn
  · exact ⟨hn.received, hn.cancelled⟩

/-- **One operation**: what comes is noted. Source: `PeerUploader::addRequest`,
`PeerUploader::removeRequest`. Kind: L -/
theorem Noted.step {h : History} {u u' : PeerUploader} (hn : Noted h u) {op : Op}
    (hu : PeerUploader.step (some u) op = some u') : Noted (h.next u op) u' := by
  cases op with
  | request id tmp_buf =>
    obtain rfl := Option.some.inj hu
    have hreceived : (u.addRequest (Request.ofMessage id tmp_buf)).received =
          u.received ++ [Request.ofMessage id tmp_buf] ∧
        (u.addRequest (Request.ofMessage id tmp_buf)).cancelled = u.cancelled := by
      unfold addRequest
      dsimp only
      split_ifs
      · exact ⟨rfl, rfl⟩
      · exact ⟨rfl, rfl⟩
      · exact ⟨rfl, rfl⟩
    refine ⟨?_, hreceived.2.trans hn.cancelled⟩
    rw [hreceived.1, hn.received]
    rfl
  | cancel beyond id tmp_buf =>
    obtain rfl := Option.some.inj hu
    exact ⟨hn.received, congrArg (· ++ _) hn.cancelled⟩
  | update grab snubbed completed optimistic =>
    change u.update grab snubbed completed optimistic = some u' at hu
    unfold PeerUploader.update at hu
    split_ifs at hu
    · obtain ⟨pw, -, rfl⟩ := Option.map_eq_some_iff.mp hu
      exact ⟨hn.received, hn.cancelled⟩
    · obtain rfl := Option.some.inj hu
      exact hn
  | choke =>
    obtain rfl := Option.some.inj hu
    exact noted_choke hn
  | unchoke =>
    obtain rfl := Option.some.inj hu
    unfold PeerUploader.unchoke
    split_ifs
    · exact ⟨hn.received, hn.cancelled⟩
    · exact hn
  | onReadyToWrite max =>
    obtain ⟨q, -, rfl⟩ := Option.map_eq_some_iff.mp hu
    exact ⟨hn.received, hn.cancelled⟩
  | send s hp hr =>
    obtain rfl := Option.some.inj hu
    exact ⟨hn.received, hn.cancelled⟩

/-- The uploader does not look at the history. Source: none: infrastructure. Kind: L -/
theorem run_stepWith (q : Option PeerUploader × History) (ops : List Op) :
    (run stepWith q ops).1 = run step q.1 ops := by
  induction ops generalizing q with
  | nil => rfl
  | cons op ops ih => exact ih (stepWith q op)

/-- **A run**: what came is noted. Source: `torrent/peeruploader.cpp`, `torrent/packetwriter.cpp`.
Kind: L -/
theorem noted_run (ops : List Op) {u : PeerUploader} (hu : run step (some {}) ops = some u) :
    Noted (history ops) u := by
  have hstep : ∀ (q : Option PeerUploader × History) (op : Op),
      (∀ u, q.1 = some u → Noted q.2 u) →
      ∀ u', (stepWith q op).1 = some u' → Noted (stepWith q op).2 u' := by
    rintro ⟨_ | u, h⟩ op hn u' hu'
    · cases hu'
    · exact (hn u rfl).step hu'
  have hstart : ∀ u, (some {}, ({} : History)).1 = some u → Noted {} u := by
    rintro _ ⟨⟩
    exact ⟨rfl, rfl⟩
  refine run_inv hstep hstart ops u ?_
  rw [run_stepWith]
  exact hu

/-- **One answer at most to each request, and none missing when the peer is choked.** Kind: D -/
structure Discipline (u : PeerUploader) : Prop where
  atMost : ∀ t, u.pieces t + u.rejects t ≤ asked t u.received
  /-- While the peer is choked nothing waits on the list, a piece in the queue is on its way, and
  what was not cancelled has been answered. -/
  choked : u.am_choked = true → u.requests = [] ∧
    (∀ p ∈ u.pw.data_packets, p.sending = true) ∧
    ∀ t, u.pieces t + u.rejects t + asked t u.cancelled = asked t u.received

/-- The pieces that were queued have been sent, taken back, or are still in the queue.
Source: `torrent/peeruploader.cpp`, `torrent/packetwriter.cpp`. Kind: L -/
theorem Counted.answers_eq {u : PeerUploader} (h : Counted u) (t : Request) :
    answers t u.pw = u.pieces t + withdrawn t u.pw + u.rejects t := by
  have hperm := h.sound.conserved.countP_eq fun q : ℕ × Serial => q.2.pieceFor t
  rw [List.countP_append, List.countP_append, List.countP_map, List.countP_map, List.countP_map,
    PacketWriter.packets, List.countP_append] at hperm
  have hcontrol : (u.pw.control_packets.countP
      ((fun q : ℕ × Serial => q.2.pieceFor t) ∘ Packet.content)) = 0 := by
    rw [List.countP_eq_zero]
    intro p hp
    rw [Function.comp_apply, Packet.content, pieceFor_of_ne (h.sound.control p hp) t]
    exact Bool.false_ne_true
  rw [hcontrol] at hperm
  unfold answers pieces withdrawn rejects
  rw [← hperm]
  show _ = (u.pw.sent.countP _ + u.pw.data_packets.countP _) + _ + _
  have hsent : (u.pw.sent.countP ((fun q : ℕ × Serial => q.2.pieceFor t) ∘
      fun s => s.packet.content)) = u.pw.sent.countP fun s => s.packet.serial.pieceFor t := rfl
  have hdata : (u.pw.data_packets.countP ((fun q : ℕ × Serial => q.2.pieceFor t) ∘
      Packet.content)) = u.pw.data_packets.countP fun p => p.serial.pieceFor t := rfl
  have hremoved : (u.pw.removed.countP ((fun q : ℕ × Serial => q.2.pieceFor t) ∘
      Packet.content)) = u.pw.removed.countP fun p => p.serial.pieceFor t := rfl
  rw [hsent, hdata, hremoved]
  omega

/-- An uploader whose answers are counted keeps the discipline. Source: `torrent/peeruploader.cpp`,
`torrent/packetwriter.cpp`. Kind: L -/
theorem Counted.discipline {u : PeerUploader} (h : Counted u) : Discipline u := by
  constructor
  · intro t
    have hcount := h.count t
    have heq := h.answers_eq t
    omega
  · intro hc
    obtain ⟨hnil, hall⟩ := h.quiet hc
    refine ⟨hnil, hall, fun t => ?_⟩
    have hcount := h.count t
    have heq := h.answers_eq t
    rw [hnil, show asked t [] = 0 from rfl] at hcount
    omega

/-- **Upload replies:** in every run whose steps meet the condition, at most one answer to each
request is produced, and none is missing while the peer is choked; the requests, and those taken off
the list by a cancel, are those of the run.
Source: `PeerUploader::update`, `PeerUploader::removeRequest`, `Peer::choke`. Kind: P -/
theorem replies_run (ops : List Op) (hok : Meets step Op.Ok (some {}) ops) :
    ∃ u, run step (some {}) ops = some u ∧ Noted (history ops) u ∧ Discipline u := by
  have hstep : ∀ (s : Option PeerUploader) (op : Op), (∃ u, s = some u ∧ Counted u) →
      Op.Ok s op → ∃ u, step s op = some u ∧ Counted u := by
    rintro s op ⟨u, rfl, h⟩ hop
    exact h.step hop
  obtain ⟨u, hu, h⟩ := hok.invariant hstep ⟨{}, rfl, counted_new⟩
  exact ⟨u, hu, noted_run ops hu, h.discipline⟩

/-- A request is answered, and the peer is choked. Source: `torrent/peeruploader.cpp`,
`torrent/packetwriter.cpp`. Kind: L -/
theorem replies_twoBytes :
    ∃ u, run step (some {}) [.unchoke, .request 0 [6, 0, 0, 0, 0, 0, 0, 0, 0, 0, 0, 0, 2],
      .update (fun _ _ => some twoBytes) false false false, .onReadyToWrite 100, .choke] = some u ∧
      Noted ⟨[⟨0, 0, 2, 0⟩], []⟩ u ∧ Discipline u := by
  apply replies_run
  refine ⟨trivial, trivial, ?_, trivial, trivial, trivial⟩
  intro _ k r hr ch data hc _ _
  obtain rfl := Option.some.inj hc
  cases k with
  | zero =>
    obtain rfl := Option.some.inj hr
    exact ⟨by decide, fun _ => by decide⟩
  | succ k => cases hr

/-- The sample's number has 32 bits. Source: `torrent/peeruploader.cpp`, `torrent/packetwriter.cpp`.
Kind: L -/
theorem sixteen_lt : 16 < 2 ^ 32 := by decide

/-- A chunk of sixteen bytes, the first four the number 5. Kind: D -/
def startsWithFive : Chunk where
  size := 16
  data := some (0 :: 0 :: 0 :: 5 :: List.replicate 12 0)
  whole bs h := by
    obtain rfl := Option.some.inj h
    rfl
  fits := sixteen_lt

/-- A cancel of five bytes takes back the piece of sixteen, and is answered with a reject of a
request that was never received. Source: `torrent/peeruploader.cpp`, `torrent/packetwriter.cpp`.
Kind: P -/
theorem replies_five :
    ¬ ∀ ops : List Op, ∃ u, run step (some {}) ops = some u ∧ Discipline u := by
  intro h
  obtain ⟨u, hu, hd⟩ := h [.unchoke, .request 0 [6, 0, 0, 0, 0, 0, 0, 0, 0, 0, 0, 0, 16],
    .update (fun _ _ => some startsWithFive) false false false,
    .cancel (fun _ => []) 0 [8, 0, 0, 0, 0, 0, 0, 0, 0, 0, 0, 0, 5]]
  have hrejects : (run step (some {}) [.unchoke,
      .request 0 [6, 0, 0, 0, 0, 0, 0, 0, 0, 0, 0, 0, 16],
      .update (fun _ _ => some startsWithFive) false false false,
      .cancel (fun _ => []) 0 [8, 0, 0, 0, 0, 0, 0, 0, 0, 0, 0, 0, 5]]).map
        (fun u => (u.rejects ⟨0, 0, 5, 0⟩, asked ⟨0, 0, 5, 0⟩ u.received)) = some (1, 0) := by
    decide
  rw [hu] at hrejects
  obtain ⟨h1, h2⟩ := Prod.mk.inj (Option.some.inj hrejects)
  have hle := hd.atMost ⟨0, 0, 5, 0⟩
  rw [h1, h2] at hle
  omega

end PeerUploader

end KTorrent.Net
