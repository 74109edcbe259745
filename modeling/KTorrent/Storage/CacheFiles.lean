import KTorrent.Lib.Buffer
import KTorrent.Lib.Window
import KTorrent.Storage.ChunkManager

/-!
# The files of a multi-file torrent

The cache of a multi-file torrent, down to the bytes of each file; `Cache` is its view as one range
of bytes. A wanted file has a `CacheFile`,
an excluded one a `DNDFile`, which keeps the bytes of the first and the last chunk only.

* `CacheFile.write`, `CacheFile.read`, `CacheFile.map` — the accesses to a wanted file.
* `DNDFile` — the border bytes and their sizes, and the four accesses to them.
* `CacheFiles.save`, `CacheFiles.load` — a chunk cut into the files it lies in.
* `CacheFiles.saveFirstAndLastChunk`, `recreateFile`, `downloadStatusChanged` — a file excluded
  and included again.

What a fresh allocation holds is a memory `junk`. `none` is an exception or an access outside a
buffer. The disk has room, and a call of `::read` or `::write` moves all it is asked to, up to the
most that one call moves.

Source: `torrent/multifilecache.cpp`, `torrent/cachefile.cpp`, `torrent/dndfile.cpp`
-/

namespace KTorrent.Storage

open KTorrent.Lib KTorrent.Util

/-! ### Wanted files -/

/-- Source: `torrent/torrentfile.cpp`, `TorrentFile::fileOffset`. Kind: D -/
def TorrentFile.fileOffset (f : TorrentFile) (cindex chunk_size : ℕ) : ℕ :=
  if f.first_chunk_off = 0 then u64 (sub32 cindex f.first_chunk * chunk_size)
  else
    let off :=
      if sub32 cindex f.first_chunk > 0 then
        u64 (sub32 (sub32 cindex f.first_chunk) 1 * chunk_size)
      else 0
    if cindex > 0 then u64 (off + sub64 chunk_size f.first_chunk_off) else off

namespace CacheFile

/-- How many bytes one call of `::read` or `::write` moves at most. Kind: D -/
def maxTransfer : ℕ := 0x7ffff000

/-- A write that one call does not finish is an error. Source: `CacheFile::write`. Kind: D -/
def write (file : List UInt8) (buf : List UInt8) (off : ℕ) : Option (List UInt8) :=
  if buf.length > maxTransfer then none else some (writeAt file off buf)

/-- So is a read. Source: `CacheFile::read`. Kind: D -/
def read (file : List UInt8) (max_size size off : ℕ) : Option (List UInt8) :=
  if off ≥ file.length ∨ off ≥ max_size then none
  else if size > maxTransfer then none
  else peek file off size

/-- The file after `CacheFile::map`, when the range may be mapped: it is grown to hold it.
Source: `CacheFile::map`. Kind: D -/
def map (file : List UInt8) (max_size off size : ℕ) : Option (List UInt8) :=
  if u64 (off + size) > max_size then none
  else if u64 (off + size) > file.length then some (writeAt file (u64 (off + size)) [])
  else some file

end CacheFile

/-! ### Excluded files -/

/-- The file that keeps the border bytes: its header and what follows.
Source: `torrent/dndfile.cpp`, `DNDFileHeader`. Kind: D -/
structure DNDFile where
  first_size : ℕ
  last_size : ℕ
  data : List UInt8
deriving DecidableEq

namespace DNDFile

/-- Source: `DNDFile::create`. Kind: D -/
def create : DNDFile := ⟨0, 0, []⟩

/-- The buffer after the call. Source: `DNDFile::readFirstChunk`. Kind: D -/
def readFirstChunk (d : DNDFile) (buf : List UInt8) (off buf_size : ℕ) : Option (List UInt8) :=
  if d.first_size = 0 then some buf
  else if u32 (d.first_size + off) > buf_size then some buf
  else place buf off (d.data.take d.first_size)

/-- The buffer after the call. Source: `DNDFile::readLastChunk`. Kind: D -/
def readLastChunk (d : DNDFile) (buf : List UInt8) (off buf_size : ℕ) : Option (List UInt8) :=
  if d.last_size = 0 then some buf
  else if u32 (d.last_size + off) > buf_size then some buf
  else place buf off ((d.data.drop d.first_size).take d.last_size)

/-- What `File::read` leaves in a fresh buffer of the size asked for. Kind: D -/
def readFresh (junk : Mem) (bytes : List UInt8) (size : ℕ) : List UInt8 :=
  writeAt (slice junk 0 size) 0 (bytes.take size)

/-- Source: `DNDFile::writeFirstChunk`. Kind: D -/
def writeFirstChunk (junk : Mem) (d : DNDFile) (buf : List UInt8) : Option DNDFile :=
  if d.last_size = 0 then
    some { d with first_size := buf.length, data := writeAt d.data 0 buf }
  else do
    -- the size of the temporary buffer is computed in 32 bits
    guard (buf.length + d.last_size < 2 ^ 32)
    return { d with
      first_size := buf.length
      data := writeAt d.data 0 (buf ++ readFresh junk (d.data.drop buf.length) d.last_size) }

/-- Source: `DNDFile::writeLastChunk`. Kind: D -/
def writeLastChunk (junk : Mem) (d : DNDFile) (buf : List UInt8) : Option DNDFile := do
  guard (d.first_size + buf.length < 2 ^ 32)
  return { d with
    last_size := buf.length
    data := writeAt d.data 0 (readFresh junk d.data d.first_size ++ buf) }

end DNDFile

/-! ### The cache -/

/-- The files of the cache. Source: `torrent/multifilecache.h`, `MultiFileCache`. Kind: D -/
structure CacheFiles where
  /-- The wanted files, with their contents. -/
  files : ℕ → Option (List UInt8)
  /-- The excluded files. -/
  dnd_files : ℕ → Option DNDFile

namespace CacheFiles

/-- How much of a chunk goes into the `i`-th of its `count` files, after `done` bytes.
Source: `MultiFileCache::save` and `MultiFileCache::load`. Kind: D -/
def amount (size count i done : ℕ) (f : TorrentFile) : ℕ :=
  if count = 1 then size
  else if i = 0 then u32 f.last_chunk_size
  else if i = count - 1 then u32 (sub64 size done)
  else u32 f.size

/-- Where the bytes of a chunk stand in the `i`-th of its files.
Source: `MultiFileCache::save` and `MultiFileCache::load`. Kind: D -/
def position (cs c i : ℕ) (f : TorrentFile) : ℕ := if i = 0 then f.fileOffset c cs else 0

variable (L : Layout)

/-- The bytes `bs` of a chunk go to file `j`, the `i`-th of its files.
Source: `MultiFileCache::save`. Kind: D -/
def saveTo (junk : Mem) (c i j : ℕ) (bs : List UInt8) (k : CacheFiles) :
    Option CacheFiles :=
  match k.files j with
  | some file => do
    let file ← CacheFile.write file bs (position L.piece_length c i (L.getFile j))
    return { k with files := Function.update k.files j (some file) }
  | none =>
    match k.dnd_files j with
    | some d => do
      let d ← if i = 0 then d.writeLastChunk junk bs else d.writeFirstChunk junk bs
      return { k with dnd_files := Function.update k.dnd_files j (some d) }
    | none => some k

/-- The loop of `MultiFileCache::save`. Kind: D -/
def saveLoop (junk : Mem) (c count : ℕ) (data : List UInt8) :
    ℕ → ℕ → List ℕ → CacheFiles → Option CacheFiles
  | _, _, [], k => some k
  | i, written, j :: js, k => do
    let n := amount data.length count i written (L.getFile j)
    let bs ← peek data written n
    let k ← saveTo L junk c i j bs k
    saveLoop junk c count data (i + 1) (written + n) js k

/-- A buffered chunk is written to its files. Source: `MultiFileCache::save`. Kind: D -/
def save (junk : Mem) (c : ℕ) (data : List UInt8) (k : CacheFiles) : Option CacheFiles :=
  saveLoop L junk c (L.torrent.calcChunkPos c).length data 0 0 (L.torrent.calcChunkPos c) k

/-- The buffer of a chunk after what file `j` has of it is read into it.
Source: `MultiFileCache::load`. Kind: D -/
def loadFrom (c i j read n : ℕ) (data : List UInt8) (k : CacheFiles) : Option (List UInt8) :=
  match k.files j with
  | some file => do
    let bs ← CacheFile.read file (L.getFile j).size n (position L.piece_length c i (L.getFile j))
    place data read bs
  | none =>
    match k.dnd_files j with
    | some d =>
      -- the offset is a `Uint32` here
      if i = 0 then d.readLastChunk data (u32 read) data.length
      else d.readFirstChunk data (u32 read) data.length
    | none => some data

/-- The loop of `MultiFileCache::load`. Kind: D -/
def loadLoop (c count : ℕ) (k : CacheFiles) :
    ℕ → ℕ → List ℕ → List UInt8 → Option (List UInt8)
  | _, _, [], data => some data
  | i, read, j :: js, data => do
    let n := amount data.length count i read (L.getFile j)
    let data ← loadFrom L c i j read n data k
    loadLoop c count k (i + 1) (read + n) js data

/-- A chunk of one wanted file is mapped, when the system allows it (`mapped`): the bytes, and the
file grown to hold them. Source: `MultiFileCache::load`, `CacheFile::map`. Kind: D -/
def loadMapped (c : ℕ) (mapped : Bool) (k : CacheFiles) :
    Option (CacheFiles × List UInt8) := do
  guard mapped
  let j ← (L.torrent.calcChunkPos c).head?
  let file ← k.files j
  let off := (L.getFile j).fileOffset c L.piece_length
  let file ← CacheFile.map file (L.getFile j).size off (ChunkManager.chunkSize L c)
  let bs ← peek file off (ChunkManager.chunkSize L c)
  return ({ k with files := Function.update k.files j (some file) }, bs)

/-- The files and the bytes of a chunk after it is loaded; `none` in the second place is no bytes.
Source: `MultiFileCache::load`. Kind: D -/
def load (c : ℕ) (mapped : Bool) (junk : Mem) (k : CacheFiles) :
    Option (CacheFiles × Option (List UInt8)) :=
  let tflist := L.torrent.calcChunkPos c
  let buffered := (loadLoop L c tflist.length k 0 0 tflist
    (slice junk 0 (ChunkManager.chunkSize L c))).map fun data => (k, some data)
  if tflist.length = 1 then
    if (tflist.head?.bind k.files).isNone then some (k, none)
    else match loadMapped L c mapped k with
      | some (k, bs) => some (k, some bs)
      | none => buffered
  else buffered

/-! ### Excluding and including a file -/

/-- The size of the first chunk of a file. Source: `MultiFileCache::saveFirstAndLastChunk` and
`MultiFileCache::recreateFile`. Kind: D -/
def firstChunkSize (f : TorrentFile) : ℕ :=
  if f.first_chunk = sub32 L.numChunks 1 then
    if u32 (L.file_length % L.piece_length) = 0 then u32 L.piece_length
    else u32 (L.file_length % L.piece_length)
  else u32 L.piece_length

/-- The border bytes of a file. Source: `MultiFileCache::saveFirstAndLastChunk`. Kind: D -/
def saveFirstAndLastChunk (junk : Mem) (f : TorrentFile) (src : List UInt8) : Option DNDFile := do
  let n := u32 (sub64 (firstChunkSize L f) f.first_chunk_off)
  let tmp ← place (slice junk 0 L.piece_length) 0 (src.take n)
  let buf ← peek tmp 0 n
  let out ← DNDFile.create.writeFirstChunk junk buf
  if f.first_chunk = f.last_chunk then return out
  let off := f.fileOffset f.last_chunk L.piece_length
  let tmp ← place tmp 0 ((src.drop off).take (u32 f.last_chunk_size))
  let buf ← peek tmp 0 (u32 f.last_chunk_size)
  out.writeLastChunk junk buf

/-- The file made of its border bytes. Source: `MultiFileCache::recreateFile`. Kind: D -/
def recreateFile (junk : Mem) (f : TorrentFile) (dnd : DNDFile) : Option (List UInt8) := do
  let out := List.replicate f.size 0
  let first := sub64 (firstChunkSize L f) f.first_chunk_off
  let ts := u32 (if first > f.last_chunk_size then first else f.last_chunk_size)
  let tmp ← dnd.readFirstChunk (slice junk 0 ts) 0 (u32 first)
  let buf ← peek tmp 0 (u32 first)
  let out := writeAt out 0 buf
  if f.first_chunk = f.last_chunk then return out
  let off := f.fileOffset f.last_chunk L.piece_length
  let tmp ← dnd.readLastChunk tmp 0 (u32 f.last_chunk_size)
  let buf ← peek tmp 0 (u32 f.last_chunk_size)
  return writeAt out off buf

/-- A file is excluded or included again; a file that is so already is left alone.
Source: `MultiFileCache::downloadStatusChanged`. Kind: D -/
def downloadStatusChanged (junk : Mem) (j : ℕ) (download : Bool) (k : CacheFiles) :
    Option CacheFiles :=
  if download then
    match k.files j, k.dnd_files j with
    | none, some d => do
      let file ← recreateFile L junk (L.getFile j) d
      return { files := Function.update k.files j (some file)
               dnd_files := Function.update k.dnd_files j none }
    | _, _ => some k
  else
    match k.files j, k.dnd_files j with
    | some file, none => do
      let d ← saveFirstAndLastChunk L junk (L.getFile j) file
      return { files := Function.update k.files j none
               dnd_files := Function.update k.dnd_files j (some d) }
    | _, _ => some k

end CacheFiles

end KTorrent.Storage
