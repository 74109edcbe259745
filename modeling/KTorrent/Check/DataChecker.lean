import KTorrent.Storage.CacheFiles
import KTorrent.Util.BitSet
import KTorrent.Util.SHA1HashGen

/-!
# The data checkers

A checker reads every chunk of a torrent from the disk and compares its hash. One buffer serves for
all chunks, and what a read does not reach in it stays as it was.

* `MultiDataChecker` — for a torrent of several files: a chunk is gathered from the files it lies in,
  and from the border bytes of the excluded ones.
* `SingleDataChecker` — for a single file.

`none` is an access outside the buffer. `hashed` records for each chunk the bytes that were hashed,
if any were; the source has no such field. What a fresh allocation holds is a memory `junk`. A
listener that stops the check is left out.

Source: `datachecker/datachecker.h`, `datachecker/multidatachecker.cpp`,
`datachecker/singledatachecker.cpp`
-/

namespace KTorrent.Check

open KTorrent.Lib KTorrent.Util KTorrent.Storage

/-- What there is on the disk: the files that can be opened, and the border bytes of excluded ones,
by the path of the file. Kind: D -/
structure Disk where
  cache : TQString → Option (List UInt8)
  dnd : TQString → Option DNDFile

/-- Source: `datachecker/datachecker.h`, `DataChecker`. Kind: D -/
structure DataChecker (n : ℕ) where
  downloaded : BitSet n := .empty n
  failed : BitSet n := .empty n
  hashed : List (Option (List UInt8)) := []

/-- The result for a chunk whose bytes `bs` were hashed. Kind: D -/
def DataChecker.compare {n : ℕ} (t : Torrent) (c : ℕ) (bs : List UInt8) (d : DataChecker n) :
    DataChecker n :=
  let ok := decide (some (generate bs) = t.getHash c)
  { downloaded := d.downloaded.set c ok
    failed := d.failed.set c !ok
    hashed := d.hashed ++ [some bs] }

/-- The result for a chunk that is not looked at. Kind: D -/
def DataChecker.reject {n : ℕ} (c : ℕ) (d : DataChecker n) : DataChecker n :=
  { downloaded := d.downloaded.set c false
    failed := d.failed.set c true
    hashed := d.hashed ++ [none] }

/-- Source: `Torrent::getFile`, whose null file is of size zero. Kind: D -/
def getFile (t : Torrent) (k : ℕ) : TorrentFile := t.files.getD k (TorrentFile.make k [] 0 0 1 false)

/-! ### Several files -/

namespace MultiDataChecker

variable (disk : Disk) (excluded : ℕ → Bool) (t : Torrent)

/-- The buffer after it; a file that cannot be opened is passed over.
Source: `datachecker/multidatachecker.cpp`, `ReadFullChunk`. Kind: D -/
def readFullChunk (chunk cs : ℕ) (tf : TorrentFile) (buf : List UInt8) : Option (List UInt8) :=
  match disk.cache tf.path with
  | none => some buf
  | some file => place buf 0 ((file.drop (tf.fileOffset chunk t.piece_length)).take cs)

/-- The border bytes of an excluded file, the `i`-th of the chunk.
Source: `MultiDataChecker::loadChunk`. Kind: D -/
def readBorder (i read cs : ℕ) (f : TorrentFile) (buf : List UInt8) : Option (List UInt8) :=
  match disk.dnd f.path with
  | none => some buf
  | some dfd => if i = 0 then dfd.readLastChunk buf read cs else dfd.readFirstChunk buf read cs

/-- How much of a chunk is in the `i`-th of its `count` files, after `read` bytes.
Source: `MultiDataChecker::loadChunk`. Kind: D -/
def toRead (cs count i read : ℕ) (f : TorrentFile) : ℕ :=
  if i = 0 then u32 f.last_chunk_size
  else if i = count - 1 then u32 (sub64 cs read)
  else u32 f.size

/-- What file `j`, the `i`-th of the chunk, has of it is read: the buffer, and whether the file was
there. Source: `MultiDataChecker::loadChunk`, the loop body. Kind: D -/
def readPart (ci cs i read to_read j : ℕ) (buf : List UInt8) : Option (List UInt8 × Bool) :=
  let f := getFile t j
  -- only the first file can have an offset
  let off := if i = 0 then f.fileOffset ci t.piece_length else 0
  if excluded j then (readBorder disk i read cs f buf).map fun buf => (buf, true)
  else
    match disk.cache f.path with
    | none => some (buf, false)
    | some file =>
      if file.length < off then some (buf, false)
      else (place buf read ((file.drop off).take to_read)).map fun buf => (buf, true)

/-- The loop over the files of a chunk: the buffer, and whether the chunk was gathered.
Source: `MultiDataChecker::loadChunk`. Kind: D -/
def loadLoop (ci cs count : ℕ) : ℕ → ℕ → List ℕ → List UInt8 → Option (List UInt8 × Bool)
  | _, _, [], buf => some (buf, true)
  | i, read, j :: js, buf => do
    let to_read := toRead cs count i read (getFile t j)
    let (buf, found) ← readPart disk excluded t ci cs i read to_read j buf
    if found then loadLoop ci cs count (i + 1) (u64 (read + to_read)) js buf
    else return (buf, false)

/-- Source: `MultiDataChecker::loadChunk`. Kind: D -/
def loadChunk (ci cs : ℕ) (buf : List UInt8) : Option (List UInt8 × Bool) :=
  let tflist := t.calcChunkPos ci
  match tflist with
  | [j] =>
    if excluded j then some (buf, false)
    else (readFullChunk disk t ci cs (getFile t j) buf).map fun buf => (buf, true)
  | _ => loadLoop disk excluded t ci cs tflist.length 0 0 tflist buf

/-- The size of a chunk. Source: `MultiDataChecker::check`. Kind: D -/
def sizeOf (cur_chunk : ℕ) : ℕ :=
  let cs :=
    if cur_chunk = sub32 t.getNumChunks 1 then u32 (t.file_length % t.piece_length)
    else u32 t.piece_length
  if cs = 0 then u32 t.piece_length else cs

/-- Source: `MultiDataChecker::check`, the loop body. Kind: D -/
def checkChunk (s : DataChecker t.getNumChunks × List UInt8) (cur_chunk : ℕ) :
    Option (DataChecker t.getNumChunks × List UInt8) := do
  let cs := sizeOf t cur_chunk
  let (buf, loaded) ← loadChunk disk excluded t cur_chunk cs s.2
  if loaded then do
    let bs ← peek buf 0 cs
    return (s.1.compare t cur_chunk bs, buf)
  else return (s.1.reject cur_chunk, buf)

variable {disk excluded t} in
/-- A chunk that was gathered is hashed. Source: `MultiDataChecker::check`. Kind: L -/
theorem checkChunk_loaded {s : DataChecker t.getNumChunks × List UInt8} {c : ℕ}
    {buf bs : List UInt8}
    (h : loadChunk disk excluded t c (sizeOf t c) s.2 = some (buf, true))
    (hbs : peek buf 0 (sizeOf t c) = some bs) :
    checkChunk disk excluded t s c = some (s.1.compare t c bs, buf) := by
  unfold checkChunk
  simp [h, hbs]

variable {disk excluded t} in
/-- A chunk that was not gathered has failed. Source: `MultiDataChecker::check`. Kind: L -/
theorem checkChunk_missing {s : DataChecker t.getNumChunks × List UInt8} {c : ℕ}
    {buf : List UInt8} (h : loadChunk disk excluded t c (sizeOf t c) s.2 = some (buf, false)) :
    checkChunk disk excluded t s c = some (s.1.reject c, buf) := by
  unfold checkChunk
  simp [h]

/-- Source: `MultiDataChecker::check`. Kind: D -/
def check (junk : Mem) : Option (DataChecker t.getNumChunks × List UInt8) :=
  (List.range t.getNumChunks).foldlM (checkChunk disk excluded t) ({}, slice junk 0 t.piece_length)

end MultiDataChecker

/-! ### A single file -/

namespace SingleDataChecker

variable (t : Torrent) (file : List UInt8)

/-- The checker, the buffer, and whether the end of the file has been hit.
Source: `SingleDataChecker::check`. Kind: D -/
structure State where
  checker : DataChecker t.getNumChunks := {}
  buf : List UInt8
  eof : Bool := false

/-- The size of a chunk. Source: `SingleDataChecker::check`. Kind: D -/
def sizeOf (i : ℕ) : ℕ :=
  if i = sub32 t.getNumChunks 1 ∧ t.file_length % t.piece_length > 0 then
    u32 (t.file_length % t.piece_length)
  else u32 t.piece_length

/-- A read that gives fewer bytes than asked for hits the end of the file.
Source: `SingleDataChecker::check`, the loop body. Kind: D -/
def checkChunk (s : State t) (i : ℕ) : Option (State t) :=
  if s.eof then some { s with checker := s.checker.reject i }
  else do
    let size := sizeOf t i
    let got := (file.drop (u64 (i * t.piece_length))).take size
    let buf ← place s.buf 0 got
    let bs ← peek buf 0 size
    return { checker := s.checker.compare t i bs, buf := buf, eof := decide (got.length < size) }

/-- The file can be opened. Source: `SingleDataChecker::check`. Kind: D -/
def check (junk : Mem) : Option (State t) :=
  (List.range t.getNumChunks).foldlM (checkChunk t file) { buf := slice junk 0 (u32 t.piece_length) }

end SingleDataChecker

end KTorrent.Check
