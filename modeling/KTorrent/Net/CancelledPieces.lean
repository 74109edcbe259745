import KTorrent.Net.PeerUploader
import KTorrent.Net.StreamIntegrity

/-!
# Cancelling pieces

* `Cancels` — what `doNotSendPiece` should do: take back the pieces that were made for the request
  and have not been started.
* `cancels_iff` — it does just when the four bytes behind the header of every such piece agree with
  the test made of them: `isPiece` reads the first bytes of the data as a length.

Source: `torrent/packetwriter.cpp`, `torrent/packet.cpp`
-/

namespace KTorrent.Net

open KTorrent.Lib KTorrent.Util KTorrent.Transfer

namespace PacketWriter

/-- What a walk over the whole queue leaves of it. Source: `torrent/packetwriter.cpp`,
`torrent/packet.cpp`. Kind: L -/
theorem Walked.data_all {hit : Packet → Bool} {reject : Packet → Option Serial}
    {w w' : PacketWriter} (h : Walked hit reject w.data_packets w w')
    (hn : (w.data_packets.map Packet.ptr).Nodup) :
    w'.data_packets = w.data_packets.filter fun q => !(hit q && !q.sending) := by
  rw [h.data]
  apply List.filter_congr
  intro q hq
  rw [Bool.eq_iff_iff, decide_eq_true_iff, Bool.not_eq_true']
  constructor
  · intro hnot
    rw [Bool.eq_false_iff]
    intro hhit
    exact hnot (List.mem_map_of_mem (List.mem_filter.mpr ⟨hq, hhit⟩))
  · intro hhit hmem
    obtain ⟨p, hp, hptr⟩ := List.mem_map.mp hmem
    obtain ⟨hp, hphit⟩ := List.mem_filter.mp hp
    rw [List.inj_on_of_nodup_map hn hp hq hptr, hhit] at hphit
    cases hphit

/-! ### Cancelling -/

/-- What a piece is made of. Source: `Packet::Packet(Uint32, Uint32, Uint32, Chunk *)`, its
arguments. Kind: D -/
structure Origin where
  index : ℕ
  begin : ℕ
  len : ℕ
  data : List UInt8
  index_lt : index < 2 ^ 32
  begin_lt : begin < 2 ^ 32
  len_lt : len < 2 ^ 32

/-- A piece made for a request. Kind: D -/
def Origin.For (o : Origin) (req : Request) : Prop :=
  o.index = req.index ∧ o.begin = req.off ∧ o.len = req.len

instance (o : Origin) (req : Request) : Decidable (o.For req) :=
  inferInstanceAs (Decidable (_ ∧ _ ∧ _))

/-- The data queue holds pieces, each made of what `made` says. Kind: D -/
def MadeOf (made : ℕ → Origin) (w : PacketWriter) : Prop :=
  ∀ p ∈ w.data_packets, pieceBytes (made p.ptr).index (made p.ptr).begin (made p.ptr).len
    (made p.ptr).data = some p.serial.bytes

/-- The pieces made for a request that have not been started. Kind: D -/
def waitingFor (made : ℕ → Origin) (req : Request) (ps : List Packet) : List Packet :=
  ps.filter fun p => decide ((made p.ptr).For req) && !p.sending

/-- What `doNotSendPiece` should do: exactly the pieces made for the request that have not been
started leave the queue, and for each a reject is queued if that is wanted. Kind: D -/
structure Cancels (made : ℕ → Origin) (req : Request) (reject : Bool) (w w' : PacketWriter) :
    Prop where
  data : w'.data_packets =
    w.data_packets.filter fun p => !(decide ((made p.ptr).For req) && !p.sending)
  control : ∃ new, w'.control_packets = w.control_packets ++ new ∧
    (∀ p ∈ new, p.written = 0) ∧
    new.map Packet.serial =
      if reject then
        List.replicate (waitingFor made req w.data_packets).length
          (.ofRequest req REJECT_REQUEST reject_ne_piece)
      else []

/-- What `isPiece` finds in the packet of a piece. Source: `Packet::isPiece`. Kind: L -/
theorem isPiece_of_made {o : Origin} {s : Serial}
    (h : pieceBytes o.index o.begin o.len o.data = some s.bytes) (beyond : List UInt8)
    (req : Request) :
    s.isPiece beyond req = true ↔
      o.index = req.index ∧ o.begin = req.off ∧ readUint32 (s.bytes ++ beyond) 13 = req.len := by
  obtain ⟨h13, hin, hbytes⟩ := (pieceBytes_eq_some_iff o.len_lt).mp h
  obtain ⟨-, h5, h9, -⟩ := PeerUploader.readUint32_ofPiece o.index_lt o.begin_lt h13 hin
  rw [show (Serial.ofPiece o.index h13 hin).bytes = s.bytes from hbytes.symm] at h5 h9
  have htype : s.type = PIECE := by
    rw [Serial.type, hbytes]
    rfl
  simp only [Serial.isPiece, htype, h5, h9, Bool.and_eq_true, decide_eq_true_eq, true_and,
    and_assoc]

/-- The same packet for each of a list. Source: `torrent/packetwriter.cpp`, `torrent/packet.cpp`.
Kind: L -/
theorem filterMap_some_const (ps : List Packet) (s : Serial) :
    ps.filterMap (fun _ => some s) = List.replicate ps.length s := by
  induction ps with
  | nil => rfl
  | cons p ps ih =>
    rw [List.filterMap_cons, ih]
    rfl

/-- **Cancelling queued pieces:** `doNotSendPiece` does what it should just when, for every piece of
the request's place that has not been started, the four bytes behind the header give the length of
the request if and only if the piece is of that length. Source: `torrent/packetwriter.cpp`,
`torrent/packet.cpp`. Kind: P -/
theorem cancels_iff {made : ℕ → Origin} {w : PacketWriter} (hmade : MadeOf made w)
    (hn : (w.data_packets.map Packet.ptr).Nodup) (beyond : ℕ → List UInt8) (req : Request)
    (reject : Bool) :
    Cancels made req reject w (w.doNotSendPiece beyond req reject) ↔
      ∀ p ∈ w.data_packets, p.sending = false → (made p.ptr).index = req.index →
        (made p.ptr).begin = req.off →
          (readUint32 (p.serial.bytes ++ beyond p.ptr) 13 = req.len ↔
            (made p.ptr).len = req.len) := by
  have hwalk := walk_spec (fun p => p.serial.isPiece (beyond p.ptr) req)
    (@reject_doNotSendPiece req reject) w.data_packets hn
  have hdata := hwalk.data_all hn
  -- the test of the source and the one that is meant, for a piece that has not been started
  have hhit : ∀ p ∈ w.data_packets, (p.serial.isPiece (beyond p.ptr) req = true ↔
      (made p.ptr).index = req.index ∧ (made p.ptr).begin = req.off ∧
        readUint32 (p.serial.bytes ++ beyond p.ptr) 13 = req.len) :=
    fun p hp => isPiece_of_made (hmade p hp) (beyond p.ptr) req
  constructor
  · intro h p hp hs hi hb
    have hmem : p ∈ (w.doNotSendPiece beyond req reject).data_packets ↔ ¬ (made p.ptr).For req := by
      rw [h.data, List.mem_filter]
      simp [hp, hs]
    have hmem' : p ∈ (w.doNotSendPiece beyond req reject).data_packets ↔
        ¬ p.serial.isPiece (beyond p.ptr) req = true := by
      rw [doNotSendPiece, hdata, List.mem_filter]
      simp [hp, hs]
    have hsame := not_iff_not.mp (hmem'.symm.trans hmem)
    rw [hhit p hp, Origin.For] at hsame
    constructor
    · intro hlen
      exact (hsame.mp ⟨hi, hb, hlen⟩).2.2
    · intro hlen
      exact (hsame.mpr ⟨hi, hb, hlen⟩).2.2
  · intro h
    have hboth : ∀ p ∈ w.data_packets,
        (p.serial.isPiece (beyond p.ptr) req && !p.sending) =
          (decide ((made p.ptr).For req) && !p.sending) := by
      intro p hp
      cases hs : p.sending with
      | true => rw [Bool.not_true, Bool.and_false, Bool.and_false]
      | false =>
        rw [Bool.not_false, Bool.and_true, Bool.and_true, Bool.eq_iff_iff, hhit p hp,
          decide_eq_true_iff, Origin.For]
        constructor
        · rintro ⟨hi, hb, hlen⟩
          exact ⟨hi, hb, (h p hp hs hi hb).mp hlen⟩
        · rintro ⟨hi, hb, hlen⟩
          exact ⟨hi, hb, (h p hp hs hi hb).mpr hlen⟩
    have htaken : taken (fun p => p.serial.isPiece (beyond p.ptr) req) w.data_packets =
        waitingFor made req w.data_packets := List.filter_congr hboth
    constructor
    · rw [doNotSendPiece, hdata]
      apply List.filter_congr
      intro p hp
      rw [hboth p hp]
    · obtain ⟨new, hc, hs, hz⟩ := hwalk.control
      refine ⟨new, hc, hz, ?_⟩
      rw [hs, htaken]
      split_ifs
      · exact filterMap_some_const _ _
      · exact List.filterMap_none _

/-- A piece of sixteen bytes, `first` and then zeros. Kind: D -/
def sixteen (first : List UInt8) : Origin where
  index := 0
  begin := 0
  len := 16
  data := first ++ List.replicate 12 0
  index_lt := by decide
  begin_lt := by decide
  len_lt := by decide

/-- A writer with that piece in its data queue. Kind: D -/
def holding (first : List UInt8) (h : first.length = 4) : PacketWriter :=
  ({} : PacketWriter).queuePacket
    (@Serial.ofPiece 0 0 16 (first ++ List.replicate 12 0) (by decide) (by simp [h]))

/-- The sample's packet is made of its data. Source: `torrent/packetwriter.cpp`,
`torrent/packet.cpp`. Kind: L -/
theorem madeOf_holding (first : List UInt8) (h : first.length = 4) :
    MadeOf (fun _ => sixteen first) (holding first h) := by
  intro p hp
  obtain rfl : p = ⟨0, @Serial.ofPiece 0 0 16 (first ++ List.replicate 12 0) (by decide)
    (by simp [h]), 0⟩ := List.mem_singleton.mp hp
  exact pieceBytes_eq (show 13 + 16 < 2 ^ 32 by decide) (by simp [sixteen, h])

/-- A piece whose first four bytes happen to be its length is taken back, with a reject.
Source: `torrent/packetwriter.cpp`, `torrent/packet.cpp`. Kind: P -/
theorem cancels_lucky :
    Cancels (fun _ => sixteen [0, 0, 0, 16]) ⟨0, 0, 16, 0⟩ true (holding [0, 0, 0, 16] rfl)
      ((holding [0, 0, 0, 16] rfl).doNotSendPiece (fun _ => []) ⟨0, 0, 16, 0⟩ true) := by
  apply (cancels_iff (madeOf_holding [0, 0, 0, 16] rfl) (List.nodup_singleton 0) _ _ _).mpr
  intro p hp _ _ _
  obtain rfl := List.mem_singleton.mp hp
  exact iff_of_true (by decide) rfl

/-- A piece of sixteen zeros stays in the queue though its request is cancelled.
Source: `torrent/packetwriter.cpp`, `torrent/packet.cpp`. Kind: P -/
theorem cancels_zeros :
    ¬ ∀ (made : ℕ → Origin) (w : PacketWriter) (beyond : ℕ → List UInt8) (req : Request)
      (reject : Bool), MadeOf made w → (w.data_packets.map Packet.ptr).Nodup →
      Cancels made req reject w (w.doNotSendPiece beyond req reject) := by
  intro h
  have hc := h (fun _ => sixteen [0, 0, 0, 0]) (holding [0, 0, 0, 0] rfl) (fun _ => [])
    ⟨0, 0, 16, 0⟩ true (madeOf_holding [0, 0, 0, 0] rfl) (List.nodup_singleton 0)
  have hlength := congrArg List.length hc.data
  exact absurd hlength (by decide)

end PacketWriter

end KTorrent.Net
