import KTorrent.Lib.GuardedRun
import KTorrent.Transfer.Downloader

/-!
# The requests for pieces

That a piece was asked for is noted twice: in the peer, as a request that was sent or waits to be
sent, and in the download of the chunk, as a mark for that peer.

* `PeerDownloader` — the requests of one peer.
* `Active` — the side of a chunk's download that deals with peers: the pieces that are missing in
  the order they are asked for, the peers assigned, and the marks of each.
* `Swarm` — all peers and all downloads.
* `sendRequests`, `notDownloaded`, `piece`, `endgameCancel`, `cancelAll`, `releaseAllPDs`, … — the
  operations of a download; `receivePiece`, `onRejected`, `choke` — the messages of a peer.
* `Event`, `Swarm.step` — everything that can happen; the chunk manager answers from any state it
  may be in.

A peer is named by its id, which no other peer has.

Source: `torrent/chunkdownload.cpp`, `torrent/peerdownloader.cpp`, `torrent/downloader.cpp`
-/

namespace KTorrent.Transfer.Requests

open KTorrent.Lib KTorrent.Util KTorrent.Storage

/-! ### The requests of one peer -/

/-- Source: `torrent/peerdownloader.h`, `TimeStampedRequest`. Kind: D -/
structure TimeStampedRequest where
  req : Request
  time_stamp : UInt64
deriving DecidableEq

/-- Source: `torrent/peerdownloader.h`, `PeerDownloader`; `choked` and `fast_extensions` are the
peer's. Kind: D -/
structure PeerDownloader where
  choked : Bool := true
  fast_extensions : Bool := false
  reqs : List TimeStampedRequest := []
  wait_queue : List Request := []
  grabbed : ℕ := 0
  max_wait_queue_size : ℕ := 25
deriving DecidableEq

/-- The time, and for each peer the number of pieces it delivers in ten seconds. Kind: D -/
structure Clock where
  now : UInt64 := 0
  rate : ℕ → ℕ := fun _ => 0

namespace PeerDownloader

/-- What the peer was asked for and will be asked for. Kind: D -/
def outstanding (pd : PeerDownloader) : List Request := pd.reqs.map (·.req) ++ pd.wait_queue

/-- Source: `PeerDownloader::canAddRequest`. Kind: D -/
def canAddRequest (pd : PeerDownloader) : Bool := pd.wait_queue.length < pd.max_wait_queue_size

/-- Source: `PeerDownloader::grab`. Kind: D -/
def grab (pd : PeerDownloader) : PeerDownloader := { pd with grabbed := pd.grabbed + 1 }

/-- Source: `PeerDownloader::release`, which does not go below zero. Kind: D -/
def release (pd : PeerDownloader) : PeerDownloader := { pd with grabbed := pd.grabbed - 1 }

/-- Requests go from the front of the waiting queue to the peer. Source: `PeerDownloader::update`,
the loop. Kind: D -/
def sendLoop (now : UInt64) (max_reqs : ℕ) :
    List Request → List TimeStampedRequest → List TimeStampedRequest × List Request
  | [], reqs => (reqs, [])
  | req :: wait_queue, reqs =>
      if reqs.length < max_reqs then sendLoop now max_reqs wait_queue (reqs ++ [⟨req, now⟩])
      else (reqs, req :: wait_queue)

/-- Source: `PeerDownloader::update`. Kind: D -/
def update (t : Clock) (id : ℕ) (pd : PeerDownloader) : PeerDownloader :=
  let max_reqs := 1 + t.rate id
  let r := sendLoop t.now max_reqs pd.wait_queue pd.reqs
  { pd with
    reqs := r.1
    wait_queue := r.2
    max_wait_queue_size := if 2 * max_reqs < 10 then 10 else 2 * max_reqs }

/-- Source: `PeerDownloader::download`. Kind: D -/
def download (t : Clock) (id : ℕ) (req : Request) (pd : PeerDownloader) : PeerDownloader :=
  { pd with wait_queue := pd.wait_queue ++ [req] }.update t id

/-- A request is taken off, from the waiting queue if it is there.
Source: `PeerDownloader::cancel` and `PeerDownloader::piece`. Kind: D -/
def remove (req : Request) (pd : PeerDownloader) : PeerDownloader :=
  if pd.wait_queue.any (·.sameAs req) then
    { pd with wait_queue := pd.wait_queue.filter fun r => !r.sameAs req }
  else if pd.reqs.any (·.req.sameAs req) then
    { pd with reqs := pd.reqs.filter fun r => !r.req.sameAs req }
  else pd

/-- Source: `PeerDownloader::checkTimeouts`, `MAX_INTERVAL`. Kind: D -/
def MAX_INTERVAL : UInt64 := 60 * 1000

/-- Requests that were not answered are sent again, and go to the end; the second list is what was
appended so far. Source: `PeerDownloader::checkTimeouts`, the loop. Kind: D -/
def retransmit (now : UInt64) :
    List TimeStampedRequest → List TimeStampedRequest → List TimeStampedRequest
  | [], appended => appended
  | tr :: reqs, appended =>
      if now - tr.time_stamp > MAX_INTERVAL then
        retransmit now reqs (appended ++ [{ tr with time_stamp := now }])
      else tr :: reqs ++ appended

/-- Source: `PeerDownloader::checkTimeouts`. Kind: D -/
def checkTimeouts (t : Clock) (pd : PeerDownloader) : PeerDownloader :=
  { pd with reqs := retransmit t.now pd.reqs [] }

end PeerDownloader

/-! ### The download of a chunk, as the peers see it -/

/-- Source: `torrent/chunkdownload.h`, `ChunkDownload`: the pieces, and the members that deal with
peers. Kind: D -/
structure Active (size : ℕ) where
  cd : ChunkDownload size
  piece_queue : List ℕ
  /-- The peers the download is assigned to. -/
  pdown : List ℕ := []
  /-- The pieces each of them was asked for. -/
  dstatus : ℕ → Option (List ℕ) := fun _ => none

/-- Source: `ChunkDownload::ChunkDownload`. Kind: D -/
def Active.new (size : ℕ) : Active size where
  cd := .new size
  piece_queue := List.range (numPieces size)

/-- A download continued in a new session. Source: `ChunkDownload::load`. Kind: D -/
def Active.load {size : ℕ} (pieces : BitSet (numPieces size)) : Active size where
  cd := { ChunkDownload.new size with pieces := pieces, num_downloaded := pieces.numOnBits }
  piece_queue := (List.range (numPieces size)).filter fun i => !pieces.get i

/-- The request for piece `p` of chunk `i`. Source: `ChunkDownload::sendRequests`. Kind: D -/
def request (size i p id : ℕ) : Request where
  index := i
  off := p * MAX_PIECE_LEN
  len := if p + 1 < numPieces size then MAX_PIECE_LEN else lastSize size
  peer := id

/-- What the loop of `sendRequests` works on. Kind: D -/
structure Turn where
  piece_queue : List ℕ
  ds : List ℕ
  pd : PeerDownloader

/-- The front of the queue is asked for, unless it is marked, and goes to the back.
Source: `ChunkDownload::sendRequests`, the loop body. Kind: D -/
def Turn.next (size : ℕ) (t : Clock) (i id : ℕ) (v : Turn) : Turn :=
  match v.piece_queue with
  | [] => v
  | p :: piece_queue =>
      if p ∈ v.ds then { v with piece_queue := piece_queue ++ [p] }
      else
        { piece_queue := piece_queue ++ [p]
          ds := v.ds ++ [p]
          pd := v.pd.download t id (request size i p id) }

/-- At most so many pieces are visited. Source: `ChunkDownload::sendRequests`, the loop.
Kind: D -/
def requestLoop (size : ℕ) (t : Clock) (i id : ℕ) : ℕ → Turn → Turn
  | 0, v => v
  | n + 1, v =>
      if v.pd.canAddRequest then requestLoop size t i id n (v.next size t i id) else v

/-! ### All peers and downloads -/

/-- The peers, each by its id, and the downloads, each by its chunk. Kind: D -/
structure Swarm (L : Layout) where
  peers : ℕ → Option PeerDownloader := fun _ => none
  /-- Source: `torrent/downloader.h`, `current_chunks`. -/
  downloads : (i : Fin L.numChunks) → Option (Active (sizeOf i)) := fun _ => none

namespace Swarm

variable {L : Layout}

/-- What is done to a peer that is connected. Kind: D -/
def modifyPeer (id : ℕ) (f : PeerDownloader → PeerDownloader) (s : Swarm L) : Swarm L :=
  { s with peers := Function.update s.peers id ((s.peers id).map f) }

/-- What is done to a download that exists. Kind: D -/
def modifyDownload (i : Fin L.numChunks) (f : Active (sizeOf i) → Active (sizeOf i))
    (s : Swarm L) : Swarm L :=
  { s with downloads := Function.update s.downloads i ((s.downloads i).map f) }

/-- The peers a download is assigned to. Source: `ChunkDownload`, `pdown`. Kind: D -/
def pdown (i : Fin L.numChunks) (s : Swarm L) : List ℕ := ((s.downloads i).map (·.pdown)).getD []

/-- The marks of a peer. Source: `dstatus.find(...)`. Kind: D -/
def ds (i : Fin L.numChunks) (id : ℕ) (s : Swarm L) : Option (List ℕ) :=
  (s.downloads i).bind (·.dstatus id)

/-- `if (ds) ds->remove(p);`. Source: `ChunkDownload::piece`, `notDownloaded`. Kind: D -/
def unmark (i : Fin L.numChunks) (id p : ℕ) (s : Swarm L) : Swarm L :=
  s.modifyDownload i fun c =>
    { c with dstatus := Function.update c.dstatus id ((c.dstatus id).map (·.filter (· ≠ p))) }

/-- Source: `ChunkDownload::sendRequests`. Kind: D -/
def sendRequests (t : Clock) (i : Fin L.numChunks) (s : Swarm L) (id : ℕ) : Swarm L :=
  match s.downloads i, s.peers id with
  | some c, some pd =>
      match c.dstatus id with
      | none => s
      | some ds =>
          if pd.choked then s
          else
            let v := requestLoop (sizeOf i) t i id c.piece_queue.length ⟨c.piece_queue, ds, pd⟩
            { peers := Function.update s.peers id (some v.pd)
              downloads := Function.update s.downloads i (some { c with
                piece_queue := v.piece_queue
                dstatus := Function.update c.dstatus id (some v.ds) }) }
  | _, _ => s

/-- `for (i = pdown.begin(); i != pdown.end(); ++i) sendRequests(*i);`.
Source: `ChunkDownload::update`, `piece`, `notDownloaded`. Kind: D -/
def sendAll (t : Clock) (i : Fin L.numChunks) (s : Swarm L) : Swarm L :=
  (s.pdown i).foldl (sendRequests t i) s

/-- Source: `ChunkDownload::notDownloaded`. Kind: D -/
def notDownloaded (t : Clock) (i : Fin L.numChunks) (r : Request) (s : Swarm L) : Swarm L :=
  (s.unmark i r.peer (r.off / MAX_PIECE_LEN)).sendAll t i

/-- The signal `rejected` of a peer: it reaches the downloads the peer is assigned to, and the one
of that chunk acts. Source: `ChunkDownload::onRejected`. Kind: D -/
def rejected (t : Clock) (id : ℕ) (s : Swarm L) (r : Request) : Swarm L :=
  if h : r.index < L.numChunks then
    if id ∈ s.pdown ⟨r.index, h⟩ then s.notDownloaded t ⟨r.index, h⟩ r else s
  else s

/-- Source: `ChunkDownload::releaseAllPDs`. Kind: D -/
def releaseAllPDs (i : Fin L.numChunks) (s : Swarm L) : Swarm L :=
  ((s.pdown i).foldl (fun s id => s.modifyPeer id .release) s).modifyDownload i fun c =>
    { c with pdown := [], dstatus := fun _ => none }

/-- Source: `ChunkDownload::assignPeer`. Kind: D -/
def assignPeer (t : Clock) (i : Fin L.numChunks) (id : ℕ) (s : Swarm L) : Swarm L :=
  if (s.downloads i).isNone ∨ (s.peers id).isNone ∨ id ∈ s.pdown i then s
  else
    ((s.modifyPeer id .grab).modifyDownload i fun c =>
      { c with
        pdown := c.pdown ++ [id]
        dstatus := Function.update c.dstatus id (some []) }).sendRequests t i id

/-- One round of `sendCancels`: a marked piece is cancelled.
Source: `ChunkDownload::sendCancels`, the loop body. Kind: D -/
def sendCancel (i : Fin L.numChunks) (id : ℕ) (s : Swarm L) (p : ℕ) : Swarm L :=
  s.modifyPeer id (.remove (request (sizeOf i) i p 0))

/-- Source: `ChunkDownload::sendCancels`. Kind: D -/
def sendCancels (i : Fin L.numChunks) (s : Swarm L) (id : ℕ) : Swarm L :=
  match s.ds i id with
  | none => s
  | some ds =>
      (ds.foldl (sendCancel i id) s).modifyDownload i fun c =>
        { c with dstatus := Function.update c.dstatus id (some []) }

/-- Source: `ChunkDownload::cancelAll`. Kind: D -/
def cancelAll (i : Fin L.numChunks) (s : Swarm L) : Swarm L :=
  (s.pdown i).foldl (sendCancels i) s

/-- Source: `ChunkDownload::endgameCancel`, the loop body. Kind: D -/
def endgameCancelOf (i : Fin L.numChunks) (p : Piece) (s : Swarm L) (id : ℕ) : Swarm L :=
  if p.off / MAX_PIECE_LEN ∈ (s.ds i id).getD [] then
    (s.modifyPeer id (.remove p.request)).unmark i id (p.off / MAX_PIECE_LEN)
  else s

/-- Source: `ChunkDownload::endgameCancel`. Kind: D -/
def endgameCancel (i : Fin L.numChunks) (p : Piece) (s : Swarm L) : Swarm L :=
  (s.pdown i).foldl (endgameCancelOf i p) s

/-- Source: `ChunkDownload::peerKilled`. Kind: D -/
def peerKilled (id : ℕ) (i : Fin L.numChunks) (s : Swarm L) : Swarm L :=
  s.modifyDownload i fun c =>
    if id ∈ c.pdown then
      { c with
        pdown := c.pdown.filter (· ≠ id)
        dstatus := Function.update c.dstatus id none }
    else c

/-- The download of chunk `i` is deleted. Source: `current_chunks.erase(i)`. Kind: D -/
def erase (i : Fin L.numChunks) (s : Swarm L) : Swarm L :=
  { s with downloads := Function.update s.downloads i none }

/-- Source: `ChunkDownload::piece`, with what `Downloader::pieceRecieved` does when it returns
`true`; `mem` is the memory from the chunk's data pointer on. Kind: D -/
def piece (t : Clock) (mem : Option Mem) (i : Fin L.numChunks) (p : Piece) (s : Swarm L) :
    Swarm L :=
  match s.downloads i with
  | none => s
  | some c =>
      let pp := p.off / MAX_PIECE_LEN
      if c.cd.pieces.get pp then s
      else
        let s := s.unmark i p.peer pp
        let a := c.cd.piece mem p
        if a.ok then
          let s := s.modifyDownload i fun c =>
            { c with cd := a.cd, piece_queue := c.piece_queue.filter (· ≠ pp) }
          let s := if (s.pdown i).length > 1 then s.endgameCancel i p else s
          if a.complete then (s.releaseAllPDs i).erase i
          else s.sendAll t i
        else s.sendAll t i

/-- Source: `Downloader::pieceRecieved`. Kind: D -/
def pieceRecieved (t : Clock) (os : Os) (cman : ChunkManager L) (p : Piece) (s : Swarm L) :
    Swarm L :=
  if cman.completed then s
  else if h : p.index < L.numChunks then
    let i : Fin L.numChunks := ⟨p.index, h⟩
    if (s.downloads i).isNone then s
    else
      let cman := if (cman.chunks i).status = .onDisk then (cman.prepareChunk os i true).1 else cman
      s.piece t (memory L.torrent cman.cache (cman.chunks i)) i p
  else s

/-! ### The messages of a peer -/

/-- The message `PIECE`. Source: `PeerDownloader::piece`. Kind: D -/
def receivePiece (t : Clock) (os : Os) (cman : ChunkManager L) (p : Piece) (s : Swarm L) :
    Swarm L :=
  if (s.peers p.peer).isNone then s
  else
    ((s.modifyPeer p.peer (.remove p.request)).pieceRecieved t os cman p).modifyPeer p.peer
      (.update t p.peer)

/-- The message `REJECT_REQUEST`; the id of the request is the peer's.
Source: `PeerDownloader::onRejected`. Kind: D -/
def onRejected (t : Clock) (r : Request) (s : Swarm L) : Swarm L :=
  if ((s.peers r.peer).map (·.reqs)).getD [] |>.any (·.req.sameAs r) then
    (s.modifyPeer r.peer fun pd =>
      { pd with reqs := pd.reqs.filter fun tr => !tr.req.sameAs r }).rejected t r.peer r
  else s

/-- Without fast extensions every request counts as rejected.
Source: `PeerDownloader::choked`. Kind: D -/
def choked (t : Clock) (id : ℕ) (s : Swarm L) : Swarm L :=
  match s.peers id with
  | none => s
  | some pd =>
      if pd.fast_extensions then s
      else
        let s := (pd.reqs.map (·.req)).foldl (rejected t id) s
        let s := s.modifyPeer id fun pd => { pd with reqs := [] }
        let s := (((s.peers id).map (·.wait_queue)).getD []).foldl (rejected t id) s
        s.modifyPeer id fun pd => { pd with wait_queue := [] }

/-- The message `CHOKE`. Source: `Peer::packetReady`. Kind: D -/
def choke (t : Clock) (id : ℕ) (s : Swarm L) : Swarm L :=
  (s.modifyPeer id fun pd => { pd with choked := true }).choked t id

/-! ### Events -/

/-- What can happen. Kind: D -/
inductive Event (L : Layout)
  /-- A peer connects. -/
  | newPeer (id : ℕ) (fast_extensions : Bool)
  /-- A peer is gone. -/
  | kill (id : ℕ)
  /-- A peer sends a piece. -/
  | piece (t : Clock) (os : Os) (cman : ChunkManager L) (p : Piece)
  /-- A peer rejects a request. -/
  | reject (t : Clock) (r : Request)
  /-- A peer chokes. -/
  | choke (t : Clock) (id : ℕ)
  /-- A peer unchokes. -/
  | unchoke (id : ℕ)
  /-- Requests of a peer are sent again. -/
  | checkTimeouts (t : Clock) (id : ℕ)
  /-- A download begins. -/
  | download (i : Fin L.numChunks)
  /-- A download of an earlier session continues. -/
  | load (i : Fin L.numChunks) (pieces : BitSet (numPieces (sizeOf i)))
  /-- A peer is assigned to a download. -/
  | assign (t : Clock) (i : Fin L.numChunks) (id : ℕ)
  /-- A download asks for more. -/
  | update (t : Clock) (i : Fin L.numChunks)
  /-- All requests of a download are cancelled. -/
  | cancelAll (i : Fin L.numChunks)
  /-- All peers of a download are released. -/
  | release (i : Fin L.numChunks)
  /-- The chunk of a download is excluded. -/
  | exclude (i : Fin L.numChunks)
  /-- The chunk of a download turns out to be on disk. -/
  | found (i : Fin L.numChunks)

/-- A download begins, unless the chunk has one. Source: `current_chunks.insert`. Kind: D -/
def insert (i : Fin L.numChunks) (c : Active (sizeOf i)) (s : Swarm L) : Swarm L :=
  if (s.downloads i).isSome then s
  else { s with downloads := Function.update s.downloads i (some c) }

/-- A peer connects. Source: `PeerDownloader::PeerDownloader`. Kind: D -/
def newPeer (id : ℕ) (fast_extensions : Bool) (s : Swarm L) : Swarm L :=
  if (s.peers id).isSome then s
  else { s with
    peers := Function.update s.peers id (some { fast_extensions := fast_extensions }) }

/-- A peer is gone, and every download hears of it. Source: `Downloader::onPeerKilled`. Kind: D -/
def onPeerKilled (id : ℕ) (s : Swarm L) : Swarm L :=
  let s := (List.finRange L.numChunks).foldl (fun s i => s.peerKilled id i) s
  { s with peers := Function.update s.peers id none }

/-- What an event does. Kind: D -/
def step (s : Swarm L) : Event L → Swarm L
  | .newPeer id fast_extensions => s.newPeer id fast_extensions
  | .kill id => s.onPeerKilled id
  | .piece t os cman p => s.receivePiece t os cman p
  | .reject t r => s.onRejected t r
  | .choke t id => s.choke t id
  | .unchoke id => s.modifyPeer id fun pd => { pd with choked := false }
  | .checkTimeouts t id => s.modifyPeer id (.checkTimeouts t)
  | .download i => s.insert i (.new _)
  | .load i pieces => s.insert i (.load pieces)
  | .assign t i id => s.assignPeer t i id
  | .update t i => s.sendAll t i
  | .cancelAll i => s.cancelAll i
  | .release i => s.releaseAllPDs i
  | .exclude i => ((s.cancelAll i).releaseAllPDs i).erase i
  | .found i => (s.releaseAllPDs i).erase i

end Swarm

end KTorrent.Transfer.Requests
