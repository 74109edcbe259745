import KTorrent.Transfer.PeerManager
import KTorrent.Transfer.Downloader

/-!
# The file of partial downloads

A torrent that stops writes its downloads to `current_chunks`, and reads them when it starts again.

* `fread` — what memory holds after bytes of a file were read into it.
* `BitSet.getData` — the bytes of a bit set; `BitSet.ofBytes` reads them.
* `ChunkDownload.save`, `ChunkDownload.load` — the record of one download.
* `Downloader.saveDownloads`, `Downloader.loadDownloads` and
  `Downloader.getDownloadedBytesOfCurrentChunksFile` — the whole file.

A file that is read is the list of the bytes that follow; a read at its end leaves the memory as it
was, which is the parameter `old`.

Source: `torrent/downloader.cpp`, `torrent/chunkdownload.cpp`, `util/file.cpp`, `util/bitset.cpp`
-/

namespace KTorrent.Transfer

open KTorrent.Lib KTorrent.Util KTorrent.Storage

/-! ### Bytes and bit sets in a file -/

/-- What `n` bytes of memory hold after `fread` into them. Source: `File::read`. Kind: D -/
def fread (n : ℕ) (old : Mem) (file : List UInt8) : List UInt8 :=
  slice (blit old 0 (file.take n)) 0 n

/-- The bytes of a bit set, the first bit the highest of the first byte. Source: `BitSet::getData`
with `BitSet::set`. Kind: D -/
def BitSet.getData {n : ℕ} (b : BitSet n) : List UInt8 :=
  (List.range (numBytes n)).map fun k =>
    UInt8.ofNat (Nat.ofBits fun j : Fin 8 => b.get (8 * k + (7 - j)))

/-! ### The record of a download -/

/-- Source: `torrent/chunkdownload.h`, `ChunkDownloadHeader`. Kind: D -/
structure ChunkDownloadHeader where
  index : ℕ
  num_bits : ℕ
  buffered : ℕ
deriving DecidableEq, Repr

/-- Source: `sizeof(ChunkDownloadHeader)`. Kind: D -/
def ChunkDownloadHeader.size : ℕ := 12

/-- The header as it is in memory. Kind: D -/
def ChunkDownloadHeader.bytes (hdr : ChunkDownloadHeader) : List UInt8 :=
  hostWord hdr.index ++ hostWord hdr.num_bits ++ hostWord hdr.buffered

/-- Source: `fptr.read(&hdr,sizeof(ChunkDownloadHeader))`. Kind: D -/
def ChunkDownloadHeader.read (old : Mem) (file : List UInt8) : ChunkDownloadHeader :=
  let buf := fread ChunkDownloadHeader.size old file
  ⟨wordAt buf 0, wordAt buf 4, wordAt buf 8⟩

namespace ChunkDownload

variable {size : ℕ}

/-- The bytes written, and the chunk afterwards. Source: `ChunkDownload::save`. Kind: D -/
def save (t : Torrent) (k : Cache) (c : Chunk) (cd : ChunkDownload size) : List UInt8 × Chunk :=
  let buffered := decide (c.status = .buffered)
  let hdr : ChunkDownloadHeader := ⟨c.index, numPieces size, if buffered then 1 else 0⟩
  if buffered then
    (hdr.bytes ++ BitSet.getData cd.pieces ++ (k.bytes t c).getD [],
      { c.clear with status := .onDisk })
  else (hdr.bytes ++ BitSet.getData cd.pieces, c)

/-- What one call of `load` does. Kind: D -/
structure Loaded (size : ℕ) where
  ok : Bool
  cd : ChunkDownload size
  /-- What was read into the memory of the chunk. -/
  data : Option (List UInt8)
  /-- What is left of the file. -/
  rest : List UInt8

/-- Source: `ChunkDownload::load`; `mem` is the memory from the chunk's data pointer on. Kind: D -/
def load (old mem : Mem) (hdr : ChunkDownloadHeader) (file : List UInt8)
    (cd : ChunkDownload size) : Loaded size :=
  if hdr.num_bits ≠ numPieces size then ⟨false, cd, none, file⟩
  else
    let pieces := BitSet.ofBytes (numPieces size) (fread (numBytes hdr.num_bits) old file)
    let file := file.drop (numBytes hdr.num_bits)
    let cd := { cd with pieces := pieces, num_downloaded := pieces.numOnBits }
    if hdr.buffered ≠ 0 then
      let data := file.take size
      let file := file.drop size
      if data.length ≠ size then ⟨false, cd, some data, file⟩
      else ⟨true, cd.updateHash (blit mem 0 data), some data, file⟩
    else ⟨true, cd.updateHash mem, none, file⟩

/-- Source: `ChunkDownload::bytesDownloaded`. Kind: D -/
def bytesDownloaded (cd : ChunkDownload size) : ℕ :=
  forRange 0 (numPieces size) (fun i num_bytes =>
    if cd.pieces.get i then
      u32 (num_bytes + if i = numPieces size - 1 then lastSize size else MAX_PIECE_LEN)
    else num_bytes) 0

end ChunkDownload

/-! ### The file -/

/-- Source: `torrent/downloader.h`, `CURRENT_CHUNK_MAGIC`. Kind: D -/
def CURRENT_CHUNK_MAGIC : ℕ := 0xABCDEF00

/-- Source: `torrent/downloader.h`, `CurrentChunksHeader`. Kind: D -/
structure CurrentChunksHeader where
  magic : ℕ
  major : ℕ
  minor : ℕ
  num_chunks : ℕ
deriving DecidableEq, Repr

/-- Source: `sizeof(CurrentChunksHeader)`. Kind: D -/
def CurrentChunksHeader.size : ℕ := 16

/-- The header as it is in memory. Kind: D -/
def CurrentChunksHeader.bytes (hdr : CurrentChunksHeader) : List UInt8 :=
  hostWord hdr.magic ++ hostWord hdr.major ++ hostWord hdr.minor ++ hostWord hdr.num_chunks

/-- Source: `fptr.read(&chdr,sizeof(CurrentChunksHeader))`. Kind: D -/
def CurrentChunksHeader.read (old : Mem) (file : List UInt8) : CurrentChunksHeader :=
  let buf := fread CurrentChunksHeader.size old file
  ⟨wordAt buf 0, wordAt buf 4, wordAt buf 8, wordAt buf 12⟩

namespace Downloader

variable {L : Layout}

/-- Source: `current_chunks.count()`. Kind: D -/
def count (d : Downloader L) : ℕ :=
  (List.finRange L.numChunks).countP fun i => (d.current_chunks i).isSome

/-- Source: `Downloader::saveDownloads`, the loop body. Kind: D -/
def saveDownload (x : List UInt8 × Downloader L) (i : Fin L.numChunks) :
    List UInt8 × Downloader L :=
  match x.2.current_chunks i with
  | none => x
  | some cd =>
      let r := cd.save L.torrent x.2.cman.cache (x.2.cman.chunks i)
      (x.1 ++ r.1, { x.2 with cman := x.2.cman.modifyChunk i fun _ => r.2 })

/-- The bytes written, and the downloader afterwards; the version is `kt::MAJOR` and `kt::MINOR`.
Source: `Downloader::saveDownloads`. Kind: D -/
def saveDownloads (d : Downloader L) : List UInt8 × Downloader L :=
  let hdr : CurrentChunksHeader := ⟨CURRENT_CHUNK_MAGIC, 2, 2, d.count⟩
  (List.finRange L.numChunks).foldl saveDownload (hdr.bytes, d)

/-- The chunk is prepared. Source: `cman.prepareChunk(c)`. Kind: D -/
def prepared (env : Env) (i : Fin L.numChunks) (d : Downloader L) : Downloader L :=
  { d with cman := (d.cman.prepareChunk (env.chunk i) i false).1 }

/-- Bytes are read into the memory of the chunk. Source: `file.read(chunk->getData(), ...)`.
Kind: D -/
def filled (i : Fin L.numChunks) (o : Option (List UInt8)) (d : Downloader L) : Downloader L :=
  match o with
  | none => d
  | some bs => { d with cman := copyInto i 0 bs d.cman }

/-- `cd->load(fptr,hdr)` for a chunk that was prepared. Source: `Downloader::loadDownloads`.
Kind: D -/
def loaded (old : Mem) (hdr : ChunkDownloadHeader) (file : List UInt8) (i : Fin L.numChunks)
    (d : Downloader L) : ChunkDownload.Loaded (sizeOf i) :=
  (ChunkDownload.new (sizeOf i)).load old
    ((memory L.torrent d.cman.cache (d.cman.chunks i)).getD fun _ => 0) hdr file

/-- A prepared chunk's record: what is left of the file, and the downloader with the download if it
could be loaded. Source: `Downloader::loadDownloads`, the loop body. Kind: D -/
def loadRecord (old : Mem) (hdr : ChunkDownloadHeader) (file : List UInt8) (i : Fin L.numChunks)
    (d : Downloader L) : List UInt8 × Downloader L :=
  let l := loaded old hdr file i d
  let d := d.filled i l.data
  (l.rest, if l.ok then d.insert i l.cd else d)

/-- So many records are left to be read. Source: `Downloader::loadDownloads`, the loop. Kind: D -/
def loadLoop (env : Env) (old : ℕ → Mem) : ℕ → List UInt8 → Downloader L → Downloader L
  | 0, _, d => d
  | n + 1, file, d =>
      let hdr := ChunkDownloadHeader.read (old n) file
      let file := file.drop ChunkDownloadHeader.size
      if h : hdr.index < L.numChunks then
        let i : Fin L.numChunks := ⟨hdr.index, h⟩
        if (d.current_chunks i).isSome then d
        else if !(d.cman.chunks i).isExcluded &&
            (d.cman.prepareChunk (env.chunk i) i false).2 then
          let r := loadRecord (old n) hdr file i (d.prepared env i)
          loadLoop env old n r.1 r.2
        else if (d.cman.chunks i).isExcluded then loadLoop env old n file d
        else loadLoop env old n file (d.prepared env i)
      else d

/-- Source: `Downloader::loadDownloads`. Kind: D -/
def loadDownloads (env : Env) (old : ℕ → Mem) (file : List UInt8) (d : Downloader L) :
    Downloader L :=
  if d.cman.completed then d
  else
    let chdr := CurrentChunksHeader.read (old 0) file
    if chdr.magic ≠ CURRENT_CHUNK_MAGIC then d
    else loadLoop env old chdr.num_chunks (file.drop CurrentChunksHeader.size) d

end Downloader

end KTorrent.Transfer
