import KTorrent.Transfer.ChunkDownload

/-!
# Packets

* `Serial` — the bytes of a packet as its constructors leave them: at least the length field and the
  type, below 2^32 of them, and the two numbers a `PIECE` starts with. An invalid packet cannot be
  built.
* `Packet` — a packet in a queue: the allocation it lives in, its bytes, and how many are written.
* `allocPacket`, `poke` — the buffer the constructors fill, with the bounds that the source leaves
  to the caller: `none` is an access outside the buffer.
* `Serial.ofRequest` — the packets made of a request.

Source: `torrent/packet.h`, `torrent/packet.cpp`, `util/constants.h`
-/

namespace KTorrent.Net

open KTorrent.Lib KTorrent.Util KTorrent.Transfer

/-! ### Types of messages -/

/-- Source: `util/constants.h`. Kind: D -/
def HAVE : UInt8 := 4

/-- Source: `util/constants.h`. Kind: D -/
def BITFIELD : UInt8 := 5

/-- Source: `util/constants.h`. Kind: D -/
def PIECE : UInt8 := 7

/-- Source: `util/constants.h`. Kind: D -/
def HAVE_ALL : UInt8 := 14

/-- Source: `util/constants.h`. Kind: D -/
def HAVE_NONE : UInt8 := 15

/-- Source: `util/constants.h`. Kind: D -/
def REJECT_REQUEST : UInt8 := 16

/-! ### The buffer of a packet -/

/-- Bytes written into a buffer; `none` is a write outside it. Kind: D -/
def poke (data : List UInt8) (off : ℕ) (bs : List UInt8) : Option (List UInt8) :=
  if off + bs.length ≤ data.length then
    some (data.take off ++ bs ++ data.drop (off + bs.length))
  else none

/-- Source: `AllocPacket`; what `new` leaves in the buffer is 0 here. Kind: D -/
def allocPacket (size : ℕ) (type : UInt8) : Option (List UInt8) := do
  let data ← poke (List.replicate size 0) 0 (uint32Bytes (sub32 size 4))
  poke data 4 [type]

/-- A packet with its length field in front. Kind: D -/
def frame (type : UInt8) (body : List UInt8) : List UInt8 :=
  uint32Bytes (1 + body.length) ++ type :: body

/-- A packet's length field, its type and its body. Source: `Packet::getType`. Kind: L -/
@[simp] theorem length_frame (type : UInt8) (body : List UInt8) :
    (frame type body).length = 5 + body.length := by
  unfold frame
  rw [List.length_append, length_uint32Bytes, List.length_cons]
  omega

/-- Bytes are put in place. Source: `torrent/packet.h`, `torrent/packet.cpp`. Kind: L -/
theorem poke_eq {data front mid back bs : List UInt8} {off : ℕ}
    (hdata : data = front ++ mid ++ back) (hoff : off = front.length)
    (hlen : bs.length = mid.length) : poke data off bs = some (front ++ bs ++ back) := by
  subst hdata hoff
  unfold poke
  rw [if_pos (by simp [hlen]), List.append_assoc front mid back, List.take_left, hlen,
    ← List.length_append, ← List.append_assoc front mid back, List.drop_left]

/-- The buffer as `AllocPacket` returns it. Source: `AllocPacket`. Kind: L -/
theorem allocPacket_eq {size : ℕ} (h : 5 ≤ size) (h' : size < 2 ^ 32) (type : UInt8) :
    allocPacket size type =
      some (uint32Bytes (size - 4) ++ type :: List.replicate (size - 5) 0) := by
  have hrep : List.replicate size (0 : UInt8) =
      [] ++ List.replicate 4 0 ++ (0 :: List.replicate (size - 5) 0) := by
    rw [List.nil_append, ← List.replicate_succ, List.replicate_append_replicate]
    congr 1
    omega
  have h1 : poke (List.replicate size 0) 0 (uint32Bytes (size - 4)) =
      some (uint32Bytes (size - 4) ++ 0 :: List.replicate (size - 5) 0) := poke_eq hrep rfl rfl
  have h2 : poke (uint32Bytes (size - 4) ++ 0 :: List.replicate (size - 5) 0) 4 [type] =
      some (uint32Bytes (size - 4) ++ [type] ++ List.replicate (size - 5) 0) :=
    poke_eq (List.append_cons _ _ _) rfl rfl
  unfold allocPacket
  rw [sub32_of_le (by omega) h', h1]
  exact h2.trans (by rw [← List.append_cons])

/-! ### Serialised packets -/

/-- The bytes of a packet. Source: `torrent/packet.cpp`, the constructors. Kind: D -/
structure Serial where
  bytes : List UInt8
  hdr : 5 ≤ bytes.length
  fits : bytes.length < 2 ^ 32
  piece_hdr : bytes.getD 4 0 = PIECE → 13 ≤ bytes.length
deriving DecidableEq

namespace Serial

/-- Source: `Packet::getType`. Kind: D -/
def type (s : Serial) : UInt8 := s.bytes.getD 4 0

/-- Source: `torrent/packet.h`, `Packet`, `size`. Kind: D -/
def size (s : Serial) : ℕ := s.bytes.length

/-- No packet is empty. Source: `torrent/packet.h`, `torrent/packet.cpp`. Kind: L -/
theorem size_pos (s : Serial) : 0 < s.size := lt_of_lt_of_le (by decide) s.hdr

/-- Source: `Packet::isPiece`. A piece has its data where the last comparison looks for a length;
`beyond` is what lies after the packet's buffer. Kind: D -/
def isPiece (beyond : List UInt8) (req : Request) (s : Serial) : Bool :=
  decide (s.type = PIECE) && decide (readUint32 s.bytes 5 = req.index) &&
    decide (readUint32 s.bytes 9 = req.off) &&
      decide (readUint32 (s.bytes ++ beyond) 13 = req.len)

end Serial

/-- The body of the packets made of a request. Kind: D -/
def requestBody (r : Request) : List UInt8 :=
  uint32Bytes r.index ++ uint32Bytes r.off ++ uint32Bytes r.len

/-- The type of a packet. Source: `Packet::getType`. Kind: L -/
theorem getD_frame (type : UInt8) (body : List UInt8) : (frame type body).getD 4 0 = type := rfl

/-- A packet made of a request. Source: `Packet::Packet(const Request &, Uint8)`, with a type that
is not `PIECE`. Kind: D -/
def Serial.ofRequest (r : Request) (type : UInt8) (h : type ≠ PIECE) : Serial where
  bytes := frame type (requestBody r)
  hdr := by simp
  fits := by
    rw [length_frame]
    exact Nat.lt_of_le_of_lt (Nat.le_refl 17) (by decide)
  piece_hdr hp := absurd ((getD_frame type _).symm.trans hp) h

/-- The two types differ. Source: `ChunkDownload::piece`. Kind: L -/
theorem reject_ne_piece : REJECT_REQUEST ≠ PIECE := by decide

/-- Source: `Packet::makeRejectOfPiece`, for a packet that is a piece. Kind: D -/
def Serial.makeRejectOfPiece (s : Serial) : Serial :=
  .ofRequest ⟨readUint32 s.bytes 5, readUint32 s.bytes 9, s.size - 13, 0⟩ REJECT_REQUEST
    reject_ne_piece

/-- Source: `torrent/packet.h`, `Packet`. `ptr` tells allocations apart: it is what the source's
pointers compare. Kind: D -/
structure Packet where
  ptr : ℕ
  serial : Serial
  written : ℕ := 0
deriving DecidableEq

namespace Packet

/-- Source: `Packet::sending`. Kind: D -/
def sending (p : Packet) : Bool := decide (p.written > 0)

/-- Source: `Packet::isSent`. Kind: D -/
def isSent (p : Packet) : Bool := decide (p.written = p.serial.size)

/-- What tells a packet apart, and what it carries. Kind: D -/
def content (p : Packet) : ℕ × Serial := (p.ptr, p.serial)

/-- How many bytes `putInOutputBuffer` puts. Source: `Packet::putInOutputBuffer`, `bw`. Kind: D -/
def room (p : Packet) (max_to_put : ℕ) : ℕ := min (p.serial.size - p.written) max_to_put

/-- Source: `Packet::putInOutputBuffer`; the second component is what is put. Kind: D -/
def putInOutputBuffer (max_to_put : ℕ) (p : Packet) : Packet × List UInt8 :=
  ({ p with written := p.written + p.room max_to_put },
    (p.serial.bytes.drop p.written).take (p.room max_to_put))

/-- As many bytes are put as there is room for. Source: `Packet::putInOutputBuffer`. Kind: L -/
theorem length_putInOutputBuffer (p : Packet) (max_to_put : ℕ) :
    (p.putInOutputBuffer max_to_put).2.length = p.room max_to_put := by
  unfold putInOutputBuffer room Serial.size
  rw [List.length_take, List.length_drop]
  omega

/-- The bytes put are the next ones. Source: `Packet::putInOutputBuffer`. Kind: L -/
theorem take_putInOutputBuffer (p : Packet) (max_to_put : ℕ) :
    p.serial.bytes.take p.written ++ (p.putInOutputBuffer max_to_put).2 =
      p.serial.bytes.take (p.putInOutputBuffer max_to_put).1.written :=
  (List.take_add ..).symm

end Packet

end KTorrent.Net
