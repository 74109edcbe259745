import KTorrent.Transfer.ChunkDownload

/-!
# The downloader and the chunk selector

* `ChunkSelector.*` — the selector is its list of chunks (`torrent/chunkselector.cpp`).
* `Downloader L` — the chunk manager, the downloads in progress and the selector's list. The download
  of chunk `i` has the size of chunk `i` in its type.
* `pieceRecieved`, `finished`, `idle`, `assign`, `downloadFrom`, `onExcluded`, … — the downloader's
  operations, and `deliver`, which passes on the signals of the chunk manager.
* `Event` — everything that can happen to a downloader, with the answers of the operating system and
  of the peers; `Downloader.step` is what it does.

Peers are represented by what the code asks them: whether a peer has a chunk, and whether a download
is idle. Statistics and monitors are left out.

Source: `torrent/downloader.cpp`, `torrent/chunkselector.cpp`
-/

namespace KTorrent.Transfer

open KTorrent.Lib KTorrent.Util KTorrent.Storage

/-! ### The chunk selector -/

namespace ChunkSelector

variable {L : Layout}

/-- Source: `ChunkSelector::ChunkSelector`; `shuffle` is what `std::shuffle` makes of the list.
Kind: D -/
def new (shuffle : List ℕ → List ℕ) (cman : ChunkManager L) : List ℕ :=
  shuffle ((List.range L.numChunks).filter fun i => !cman.bitset.get i)

/-- Whether `select` may choose the chunk. Source: `ChunkSelector::select`. Kind: D -/
def selectable (cman : ChunkManager L) (hasChunk downloading : ℕ → Bool) (i : ℕ) : Bool :=
  hasChunk i && !downloading i &&
    (cman.getChunk i).any fun c => !c.isExcluded && !c.isExcludedForDownloading

/-- The walk over the list: owned chunks are erased on the way, and the first chunk that may be
chosen is. Source: `ChunkSelector::select`. Kind: D -/
def select (cman : ChunkManager L) (hasChunk downloading : ℕ → Bool) :
    List ℕ → List ℕ × Option ℕ
  | [] => ([], none)
  | i :: chunks =>
      if cman.bitset.get i then select cman hasChunk downloading chunks
      else if selectable cman hasChunk downloading i then (i :: chunks, some i)
      else
        let r := select cman hasChunk downloading chunks
        (i :: r.1, r.2)

/-- Source: `ChunkSelector::dataChecked`. Kind: D -/
def dataChecked (ok_chunks : BitSet L.numChunks) (chunks : List ℕ) : List ℕ :=
  forRange 0 L.numChunks (fun i chunks =>
    if i ∈ chunks ∧ ok_chunks.get i then chunks.filter (· ≠ i)
    else if i ∉ chunks ∧ !ok_chunks.get i then chunks ++ [i]
    else chunks) chunks

/-- Source: `ChunkSelector::reincluded`. Kind: D -/
def reincluded (cman : ChunkManager L) (first last : ℕ) (chunks : List ℕ) : List ℕ :=
  if first ≥ L.numChunks ∨ last ≥ L.numChunks then chunks
  else
    forRange first (last + 1) (fun i chunks =>
      if i ∉ chunks ∧ (cman.getChunk i).any fun c => c.status ≠ .onDisk then chunks ++ [i]
      else chunks) chunks

/-- Source: `ChunkSelector::reinsert`. Kind: D -/
def reinsert (chunk : ℕ) (chunks : List ℕ) : List ℕ :=
  if chunk ∈ chunks then chunks else chunks ++ [chunk]

end ChunkSelector

/-! ### The memory of a chunk -/

/-- The memory from a chunk's data pointer on, `none` when it is null. Source: `Chunk::getData`.
Kind: D -/
def memory (t : Torrent) (k : Cache) (c : Chunk) : Option Mem :=
  match c.data with
  | .null => none
  | .heap m => some m
  | .mapped => some fun j => k.disk (t.chunkOffset c.index + j)

/-- `memcpy` into a chunk's memory: into its buffer, or through the mapping into the file.
Source: `ChunkDownload::piece`. Kind: D -/
def copyInto {L : Layout} (i : Fin L.numChunks) (off : ℕ) (bs : List UInt8) (s : ChunkManager L) :
    ChunkManager L :=
  match (s.chunks i).data with
  | .null => s
  | .heap m =>
      { s with
        chunks := Function.update s.chunks i { s.chunks i with data := .heap (blit m off bs) } }
  | .mapped =>
      { s with cache := { s.cache with
        disk := blit s.cache.disk (L.torrent.chunkOffset (s.chunks i).index + off) bs } }

/-! ### The downloader -/

/-- The size of chunk `i`. Kind: D -/
abbrev sizeOf {L : Layout} (i : Fin L.numChunks) : ℕ := ChunkManager.chunkSize L i

/-- Source: `torrent/downloader.h`, `Downloader`. Kind: D -/
structure Downloader (L : Layout) where
  cman : ChunkManager L
  current_chunks : (i : Fin L.numChunks) → Option (ChunkDownload (sizeOf i)) := fun _ => none
  /-- The chunk selector's list. -/
  selector : List ℕ
  /-- The chunks whose data could not be saved. Source: the signal `ioError`. -/
  ioErrors : List ℕ := []

namespace Downloader

variable {L : Layout}

/-- Source: `Downloader::areWeDownloading`. Kind: D -/
def areWeDownloading (d : Downloader L) (chunk : ℕ) : Bool :=
  if h : chunk < L.numChunks then (d.current_chunks ⟨chunk, h⟩).isSome else false

/-- A download begins: it holds a reference to its chunk.
Source: `current_chunks.insert(chunk,cd)` and `ChunkDownload::ChunkDownload`. Kind: D -/
def insert (i : Fin L.numChunks) (cd : ChunkDownload (sizeOf i)) (d : Downloader L) :
    Downloader L :=
  { d with
    cman := d.cman.modifyChunk i fun c => { c with ref_count := c.ref_count + 1 }
    current_chunks := Function.update d.current_chunks i (some cd) }

/-- A download ends: its reference goes.
Source: `current_chunks.erase(i)` and `ChunkDownload::~ChunkDownload`. Kind: D -/
def erase (i : Fin L.numChunks) (d : Downloader L) : Downloader L :=
  match d.current_chunks i with
  | none => d
  | some _ =>
      { d with
        cman := d.cman.modifyChunk i fun c => { c with ref_count := c.ref_count - 1 }
        current_chunks := Function.update d.current_chunks i none }

/-- Source: `Downloader::finished`; the second component is what it returns. Kind: D -/
def finished (os : Os) (i : Fin L.numChunks) (cd : ChunkDownload (sizeOf i)) (d : Downloader L) :
    Downloader L × Bool :=
  let h :=
    if cd.usingContinuousHashing then cd.getHash
    else generate ((d.cman.cache.bytes L.torrent (d.cman.chunks i)).getD [])
  if L.torrent.verifyHash h i then
    let r := d.cman.saveChunk os i true
    if r.2 then ({ d with cman := r.1 }, true)
    else ({ d with cman := r.1, ioErrors := d.ioErrors ++ [i.val] }, false)
  else
    ({ d with
      cman := d.cman.resetChunk os i
      selector := ChunkSelector.reinsert i d.selector }, false)

/-- `if (... getStatus() == Chunk::ON_DISK) cman.prepareChunk(..., true);`
Source: `Downloader::pieceRecieved`, `findDownloadForPD`, `downloadFrom`. Kind: D -/
def reload (os : Os) (i : Fin L.numChunks) (d : Downloader L) : Downloader L :=
  if (d.cman.chunks i).status = .onDisk then
    { d with cman := (d.cman.prepareChunk os i true).1 }
  else d

/-- `if (... getStatus() == Chunk::MMAPPED) cman.saveChunk(..., false);`
Source: `Downloader::pieceRecieved`, `normalUpdate`, `clearDownloads`. Kind: D -/
def saveIdle (os : Os) (i : Fin L.numChunks) (d : Downloader L) : Downloader L :=
  if (d.cman.chunks i).status = .mmapped then
    { d with cman := (d.cman.saveChunk os i false).1 }
  else d

/-- The download a piece is handed to. Source: `Downloader::pieceRecieved`, the loop over
`current_chunks`. Kind: D -/
def addressee (d : Downloader L) (p : Piece) : Option (Fin L.numChunks) :=
  if d.cman.completed then none
  else if h : p.index < L.numChunks then
    if (d.current_chunks ⟨p.index, h⟩).isSome then some ⟨p.index, h⟩ else none
  else none

/-- The call of `ChunkDownload::piece` for the download of chunk `i`.
Source: `Downloader::pieceRecieved`. Kind: D -/
def arrival (d : Downloader L) (i : Fin L.numChunks) (cd : ChunkDownload (sizeOf i)) (p : Piece) :
    ChunkDownload.Arrival (sizeOf i) :=
  cd.piece (memory L.torrent d.cman.cache (d.cman.chunks i)) p

/-- What a call of `ChunkDownload::piece` leaves: the bytes copied, the download kept.
Source: `Downloader::pieceRecieved`. Kind: D -/
def keepArrival (i : Fin L.numChunks) (a : ChunkDownload.Arrival (sizeOf i)) (d : Downloader L) :
    Downloader L :=
  { d with
    cman := match a.copied with
      | none => d.cman
      | some (off, bs) => copyInto i off bs d.cman
    current_chunks := Function.update d.current_chunks i (some a.cd) }

/-- Source: `Downloader::pieceRecieved`; `is_idle` is what `cd->isIdle()` answers. The `update` at
the end is a sequence of further events. Kind: D -/
def pieceRecieved (env : Env) (is_idle : Bool) (p : Piece) (d : Downloader L) : Downloader L :=
  match d.addressee p with
  | none => d
  | some i =>
      match d.current_chunks i with
      | none => d
      | some cd =>
          let d := d.reload (env.chunk i) i
          let a := d.arrival i cd p
          let d := d.keepArrival i a
          if a.complete then (d.finished env.file i a.cd).1.erase i
          else if is_idle then d.saveIdle env.file i
          else d

/-- An idle or choked download leaves memory. Source: `Downloader::normalUpdate`. Kind: D -/
def idle (os : Os) (i : Fin L.numChunks) (d : Downloader L) : Downloader L :=
  if (d.current_chunks i).isSome then d.saveIdle os i else d

/-- A peer is assigned to a download, whose chunk comes back into memory.
Source: `Downloader::findDownloadForPD`, `downloadFrom`. Kind: D -/
def assign (os : Os) (i : Fin L.numChunks) (d : Downloader L) : Downloader L :=
  if (d.current_chunks i).isSome then d.reload os i else d

/-- The chunk the selector offers for a peer is prepared, and its download begins.
Source: `Downloader::downloadFrom`. Kind: D -/
def downloadFrom (env : Env) (hasChunk : ℕ → Bool) (d : Downloader L) : Downloader L :=
  let r := ChunkSelector.select d.cman hasChunk d.areWeDownloading d.selector
  let d := { d with selector := r.1 }
  match r.2 with
  | none => d
  | some chunk =>
      if h : chunk < L.numChunks then
        let q := d.cman.prepareChunk (env.chunk chunk) chunk false
        let d := { d with cman := q.1 }
        if q.2 then d.insert ⟨chunk, h⟩ (.new _) else d
      else d

/-- One round of `onExcluded`. Source: `Downloader::onExcluded`, the loop body. Kind: D -/
def excludeDownload (env : Env) (i : ℕ) (d : Downloader L) : Downloader L :=
  if h : i < L.numChunks then
    if (d.current_chunks ⟨i, h⟩).isNone ∨ (d.cman.chunks ⟨i, h⟩).priority = .onlySeed then d
    else
      let d := d.erase ⟨i, h⟩
      { d with cman := d.cman.resetChunk (env.chunk i) i }
  else d

/-- Source: `Downloader::onExcluded`. Kind: D -/
def onExcluded (env : Env) (first last : ℕ) (d : Downloader L) : Downloader L :=
  forRange first (last + 1) (excludeDownload env) d

/-- Source: `Downloader::onIncluded`. Kind: D -/
def onIncluded (first last : ℕ) (d : Downloader L) : Downloader L :=
  { d with selector := ChunkSelector.reincluded d.cman first last d.selector }

/-- Source: `Downloader::corrupted`. Kind: D -/
def corrupted (chunk : ℕ) (d : Downloader L) : Downloader L :=
  { d with selector := ChunkSelector.reinsert chunk d.selector }

/-- The slot a signal of the chunk manager is connected to.
Source: `torrent/torrentcontrol.cpp`, the connections of `cman`. Kind: D -/
def receive (env : Env) (d : Downloader L) : Signal → Downloader L
  | .excluded first last => d.onExcluded env first last
  | .included first last => d.onIncluded first last
  | .corrupted chunk => d.corrupted chunk

/-- A call on the chunk manager, and the slots its signals reach. Kind: D -/
def call (env : Env) (f : ChunkManager L → ChunkManager L) (d : Downloader L) : Downloader L :=
  let s := f { d.cman with signals := [] }
  s.signals.foldl (receive env) { d with cman := { s with signals := [] } }

/-- One round of `clearDownloads`: a mapped chunk is saved, and no chunk counts as downloaded.
Source: `Downloader::clearDownloads`. Kind: D -/
def clearDownload (env : Env) (i : ℕ) (d : Downloader L) : Downloader L :=
  if h : i < L.numChunks then
    if (d.current_chunks ⟨i, h⟩).isNone then d
    else
      let d := d.saveIdle (env.chunk i) ⟨i, h⟩
      let d := { d with cman := d.cman.modifyChunk i fun c => { c with status := .notDownloaded } }
      d.erase ⟨i, h⟩
  else d

/-- Source: `Downloader::clearDownloads`. Kind: D -/
def clearDownloads (env : Env) (d : Downloader L) : Downloader L :=
  forRange 0 L.numChunks (clearDownload env) d

/-- Source: `Downloader::Downloader`. Kind: D -/
def new (shuffle : List ℕ → List ℕ) (cman : ChunkManager L) : Downloader L where
  cman := cman
  selector := ChunkSelector.new shuffle cman

/-! ### Events -/

/-- What can happen to a downloader. Kind: D -/
inductive Event (L : Layout)
  /-- A peer sends a piece. -/
  | piece (env : Env) (is_idle : Bool) (p : Piece)
  /-- A download is found idle or choked. -/
  | idle (os : Os) (i : Fin L.numChunks)
  /-- A peer is assigned to a download. -/
  | assign (os : Os) (i : Fin L.numChunks)
  /-- A peer is asked for a new chunk. -/
  | downloadFrom (env : Env) (hasChunk : ℕ → Bool)
  /-- The user selects or deselects a file. -/
  | setDoNotDownload (env : Env) (k : Fin L.files.length) (dnd : Bool)
  /-- A peer asks for a chunk. -/
  | grabChunk (env : Env) (max_chunk_size_for_data_check now i : ℕ)
  /-- A chunk is reset. -/
  | resetChunk (os : Os) (i : Fin L.numChunks)
  /-- A chunk is saved. -/
  | saveChunk (os : Os) (i : Fin L.numChunks) (update_index : Bool)

/-- What an event does. Kind: D -/
def step (d : Downloader L) : Event L → Downloader L
  | .piece env is_idle p => d.pieceRecieved env is_idle p
  | .idle os i => d.idle os i
  | .assign os i => d.assign os i
  | .downloadFrom env hasChunk => d.downloadFrom env hasChunk
  | .setDoNotDownload env k dnd => d.call env (ChunkManager.setDoNotDownload env k dnd)
  | .grabChunk env size now i => d.call env fun s => (s.grabChunk (env.chunk i) size now i).1
  | .resetChunk os i => { d with cman := d.cman.resetChunk os i }
  | .saveChunk os i update_index => { d with cman := (d.cman.saveChunk os i update_index).1 }

end Downloader

end KTorrent.Transfer
