import KTorrent.Lib.GuardedRun
import KTorrent.Lib.Loop
import KTorrent.Net.Packet
import KTorrent.Util.BitSet

/-!
# The peers and the number of them that have each chunk

* `ChunkCounter` — the counters the rarest-first choice goes by, with the bulk subtraction in closed
  form (`get_decBitSet`).
* `Peer`, `PeerManager` — the peers with the chunks they announced, and what the manager keeps about
  all of them: the counters and the set of available chunks.
* `Peer.packetReady` — the messages as bytes: each is checked for its length, four of them change
  what the peer is known to have.
* `PeerManager.update` — the round that removes the killed peers and lets the others handle the
  packets that arrived; while a peer handles a packet, any peer may be killed.

A peer is named by its place in `peer_list`.

Source: `torrent/chunkcounter.cpp`, `torrent/peermanager.cpp`, `torrent/peer.cpp`
-/

namespace KTorrent.Transfer

open KTorrent.Lib KTorrent.Util KTorrent.Net

/-! ### `ChunkCounter` -/

/-- Source: `torrent/chunkcounter.h`, `ChunkCounter`. Kind: D -/
structure ChunkCounter (n : ℕ) where
  /-- How many peers have each chunk. -/
  cnt : Fin n → ℕ

namespace ChunkCounter

variable {n : ℕ}

/-- Source: `ChunkCounter::ChunkCounter`. Kind: D -/
def make (n : ℕ) : ChunkCounter n := ⟨fun _ => 0⟩

/-- Source: `ChunkCounter::get`. Kind: D -/
def get (c : ChunkCounter n) (idx : ℕ) : ℕ := if h : idx < n then c.cnt ⟨idx, h⟩ else 0

/-- Source: `ChunkCounter::inc`. Kind: D -/
def inc (idx : ℕ) (c : ChunkCounter n) : ChunkCounter n :=
  if h : idx < n then ⟨Function.update c.cnt ⟨idx, h⟩ (u32 (c.cnt ⟨idx, h⟩ + 1))⟩ else c

/-- Source: `ChunkCounter::dec`. Kind: D -/
def dec (idx : ℕ) (c : ChunkCounter n) : ChunkCounter n :=
  if h : idx < n then
    if 0 < c.cnt ⟨idx, h⟩ then ⟨Function.update c.cnt ⟨idx, h⟩ (c.cnt ⟨idx, h⟩ - 1)⟩ else c
  else c

/-- Source: `ChunkCounter::decBitSet`. Kind: D -/
def decBitSet (bs : BitSet n) (c : ChunkCounter n) : ChunkCounter n :=
  forRange 0 n (fun i c => if bs.get i then c.dec i else c) c

/-- A new counter counts nothing. Source: `ChunkCounter::ChunkCounter`. Kind: L -/
@[simp] theorem get_make (i : ℕ) : (make n).get i = 0 := by
  simp [make, get]

/-- Nothing is counted beyond the last chunk. Source: `torrent/chunkcounter.cpp`,
`torrent/peermanager.cpp`. Kind: L -/
theorem get_of_le (c : ChunkCounter n) {i : ℕ} (h : n ≤ i) : c.get i = 0 :=
  dif_neg (by omega)

/-- One chunk is counted once more. Source: `torrent/chunkcounter.cpp`, `torrent/peermanager.cpp`.
Kind: L -/
theorem get_inc (c : ChunkCounter n) (idx i : ℕ) :
    (c.inc idx).get i = if i = idx ∧ idx < n then u32 (c.get i + 1) else c.get i := by
  unfold inc
  by_cases h : idx < n
  · by_cases hi : i < n
    · by_cases heq : i = idx
      · subst heq
        simp [get, h]
      · simp [get, h, hi, heq, Fin.ext_iff]
    · have hne : i ≠ idx := by omega
      simp [get, hi, h, hne]
  · simp [h]

/-- One chunk is counted once less, not below zero. Source: `torrent/chunkcounter.cpp`,
`torrent/peermanager.cpp`. Kind: L -/
theorem get_dec (c : ChunkCounter n) (idx i : ℕ) :
    (c.dec idx).get i = if i = idx then c.get i - 1 else c.get i := by
  unfold dec
  by_cases h : idx < n
  · by_cases hpos : 0 < c.cnt ⟨idx, h⟩
    · by_cases heq : i = idx
      · subst heq
        simp [get, h, hpos]
      · by_cases hi : i < n
        · simp [get, h, hi, heq, hpos, Fin.ext_iff]
        · simp [get, hi, heq]
    · rw [dif_pos h, if_neg hpos]
      by_cases heq : i = idx
      · subst heq
        simp only [get, h, dif_pos, if_true]
        omega
      · rw [if_neg heq]
  · rw [dif_neg h]
    by_cases heq : i = idx
    · subst heq
      rw [if_pos rfl, get_of_le c (by omega)]
    · rw [if_neg heq]

/-- **The bits of a peer, taken out of the counters.**. Source: `ChunkCounter::decBitSet`.
Kind: L -/
theorem get_decBitSet (bs : BitSet n) (c : ChunkCounter n) (i : ℕ) :
    (c.decBitSet bs).get i = if bs.get i then c.get i - 1 else c.get i := by
  have hround : ∀ k (s : ChunkCounter n) j,
      (if bs.get k then s.dec k else s).get j =
        if j = k then (if bs.get k then s.get j - 1 else s.get j) else s.get j := by
    intro k s j
    by_cases hk : bs.get k
    · rw [if_pos hk, get_dec]
      simp [hk]
    · simp [hk]
  unfold decBitSet
  rw [obs_forRange get id (fun k v => if bs.get k then v - 1 else v) hround]
  by_cases hi : i < n
  · simp [hi]
  · rw [if_neg (by simp [hi]), BitSet.get_of_le bs (by omega)]
    simp

end ChunkCounter

/-! ### The messages of a peer -/

/-- Source: `BitSet::getNumBytes`. Kind: D -/
def numBytes (n : ℕ) : ℕ := n / 8 + if 0 < n % 8 then 1 else 0

/-- The bit set in the bytes of a message. Source: `BitSet::BitSet(const Uint8*,Uint32)`. Kind: D -/
def BitSet.ofBytes (n : ℕ) (data : List UInt8) : BitSet n :=
  ⟨fun i => (data.getD (i / 8) 0).toNat.testBit (7 - i % 8)⟩

/-- What the manager knows about a peer. Source: `torrent/peer.h`, `Peer`. Kind: D -/
structure Peer (n : ℕ) where
  /-- The chunks the peer announced. -/
  pieces : BitSet n
  /-- Whether the connection is closed and the peer is to be removed. -/
  killed : Bool

/-- What a message does to the peer and to the counters. Kind: D -/
inductive Effect (n : ℕ) where
  /-- Nothing. -/
  | nothing
  /-- `kill()`. -/
  | kill
  /-- The signal `haveChunk`, then the bit of that chunk. -/
  | haveChunk (index : ℕ)
  /-- A new bit set, then the signal `bitSetRecieved`. -/
  | bitSetRecieved (bs : BitSet n)

/-- The length a message of the other types must have. Source: `Peer::packetReady`. Kind: D -/
def lenErr (type : UInt8) (len : ℕ) : Bool :=
  if type ≤ 3 then len != 1
  else if type = 6 ∨ type = 8 ∨ type = REJECT_REQUEST then len != 13
  else if type = PIECE then decide (len < 9)
  else if type = 9 then len != 3
  else false

/-- Source: `Peer::packetReady`; its effect on what the peer has. Kind: D -/
def Peer.packetReady {n : ℕ} (p : Peer n) (packet : List UInt8) : Effect n :=
  if p.killed then .nothing
  else match packet with
    | [] => .nothing
    | type :: body =>
      if type = HAVE then
        if packet.length ≠ 5 then .kill
        else if readUint32 packet 1 < n then .haveChunk (readUint32 packet 1)
        else .kill
      else if type = BITFIELD then
        if packet.length ≠ 1 + numBytes n then .kill else .bitSetRecieved (BitSet.ofBytes n body)
      else if type = HAVE_ALL then
        if packet.length ≠ 1 then .kill else .bitSetRecieved (p.pieces.setAll true)
      else if type = HAVE_NONE then
        if packet.length ≠ 1 then .kill else .bitSetRecieved (p.pieces.setAll false)
      else if lenErr type packet.length then .kill
      else .nothing

/-! ### `PeerManager` -/

/-- Source: `torrent/peermanager.h`, `PeerManager`. Kind: D -/
structure PeerManager (n : ℕ) where
  /-- The peers connected to. -/
  peerList : List (Peer n)
  /-- Whether the torrent runs. -/
  started : Bool
  /-- The chunks some peer has. -/
  availableChunks : BitSet n
  /-- The counters. -/
  cnt : ChunkCounter n

/-- What can happen while `Peer::update` of one peer runs. Kind: D -/
inductive Act where
  /-- The peer handles a packet. -/
  | packet (bytes : List UInt8)
  /-- Some peer is killed: the peer itself for a broken connection, or one whose chunk was bad. -/
  | kill (k : ℕ)

namespace PeerManager

variable {n : ℕ}

/-- A started manager without peers. Source: `PeerManager::PeerManager` and `start`. Kind: D -/
def start (n : ℕ) : PeerManager n := ⟨[], true, BitSet.empty n, ChunkCounter.make n⟩

/-- Source: `PeerManager::onHave`. Kind: D -/
def onHave (index : ℕ) (m : PeerManager n) : PeerManager n :=
  { m with availableChunks := m.availableChunks.set index true, cnt := m.cnt.inc index }

/-- Source: `PeerManager::onBitSetRecieved`. Kind: D -/
def onBitSetRecieved (bs : BitSet n) (m : PeerManager n) : PeerManager n :=
  forRange 0 n (fun i m => if bs.get i then m.onHave i else m) m

/-- Source: `PeerManager::updateAvailableChunks`. Kind: D -/
def updateAvailableChunks (m : PeerManager n) : PeerManager n :=
  forRange 0 n (fun i m =>
    { m with availableChunks := m.availableChunks.set i (decide (0 < m.cnt.get i)) }) m

/-- Source: `PeerManager::createPeer`; a peer at address 0.0.0.0 is `dead` at once. Kind: D -/
def createPeer (dead : Bool) (m : PeerManager n) : PeerManager n :=
  { m with peerList := m.peerList ++ [⟨BitSet.empty n, dead⟩] }

/-- Source: `Peer::kill`. Kind: D -/
def kill (k : ℕ) (m : PeerManager n) : PeerManager n :=
  { m with peerList := m.peerList.modify k fun p => { p with killed := true } }

/-- Source: `PeerManager::newConnection`. `full`: a limit on the connections is reached; `bad`: the
peer `killBadPeer` finds. Kind: D -/
def newConnection (full : Bool) (bad : Option ℕ) (dead : Bool) (m : PeerManager n) :
    PeerManager n :=
  if !m.started || full then
    match bad with
    | none => m
    | some k => (m.kill k).createPeer dead
  else m.createPeer dead

/-- The bits of the peer at place `k` become `bs`. Kind: D -/
def setPieces (k : ℕ) (bs : BitSet n) (m : PeerManager n) : PeerManager n :=
  { m with peerList := m.peerList.modify k fun p => { p with pieces := bs } }

/-- The peer at place `k` handles a packet. Source: `Peer::packetReady`. Kind: D -/
def packetReady (k : ℕ) (packet : List UInt8) (m : PeerManager n) : PeerManager n :=
  match m.peerList[k]? with
  | none => m
  | some p =>
    match p.packetReady packet with
    | .nothing => m
    | .kill => m.kill k
    | .haveChunk ch => (m.onHave ch).setPieces k (p.pieces.set ch true)
    | .bitSetRecieved bs => (m.setPieces k bs).onBitSetRecieved bs

/-- One thing that happens while the peer at place `k` is updated. Kind: D -/
def act (k : ℕ) (m : PeerManager n) : Act → PeerManager n
  | .packet bytes => m.packetReady k bytes
  | .kill j => m.kill j

/-- Removal of the killed peer at place `i`. Source: `PeerManager::update`. Kind: D -/
def remove (i : ℕ) (p : Peer n) (m : PeerManager n) : PeerManager n :=
  let m := { m with cnt := m.cnt.decBitSet p.pieces }.updateAvailableChunks
  { m with peerList := m.peerList.eraseIdx i }

/-- The loop of `PeerManager::update`: `todo` peers are left from place `i` on, and `script` says
what happens while each peer that is alive is updated. Kind: D -/
def updateLoop : ℕ → ℕ → List (List Act) → PeerManager n → PeerManager n
  | 0, _, _, m => m
  | todo + 1, i, script, m =>
    match m.peerList[i]? with
    | none => m
    | some p =>
      if p.killed then updateLoop todo i script (m.remove i p)
      else updateLoop todo (i + 1) script.tail (run (act i) m (script.headD []))

/-- Source: `PeerManager::update`. Kind: D -/
def update (script : List (List Act)) (m : PeerManager n) : PeerManager n :=
  if !m.started then m else updateLoop m.peerList.length 0 script m

/-- What can happen to a manager. Kind: D -/
inductive Event where
  /-- A peer was authenticated. -/
  | createPeer (dead : Bool)
  /-- A peer connected to us. -/
  | newConnection (full : Bool) (bad : Option ℕ) (dead : Bool)
  /-- The peer at a place handles a packet. -/
  | packetReady (k : ℕ) (packet : List UInt8)
  /-- The peer at a place is killed. -/
  | kill (k : ℕ)
  /-- The periodic round. -/
  | update (script : List (List Act))

/-- One event. Kind: D -/
def step (m : PeerManager n) : Event → PeerManager n
  | .createPeer dead => m.createPeer dead
  | .newConnection full bad dead => m.newConnection full bad dead
  | .packetReady k packet => m.packetReady k packet
  | .kill k => m.kill k
  | .update script => m.update script

end PeerManager

end KTorrent.Transfer
