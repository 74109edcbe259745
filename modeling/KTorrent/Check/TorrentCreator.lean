import KTorrent.Storage.CacheFiles
import KTorrent.Storage.LoadTorrent
import KTorrent.Util.SHA1HashGen

/-!
# Making a torrent of a directory

The creator lists the files of a directory, lays them out one behind the other, hashes chunk after
chunk, and writes a torrent of it.

* `Directory` — the files in the order in which `buildFileList` comes across them.
* `make`, `calculateHash`, `savePieces` — the constructor, the hashing of a chunk, and the loop that
  hashes them all with the buffer in which the hashes are written.
* `torrent` — what is loaded from the torrent that is written.

`none` is a division by zero, an overflow of an `int`, a file that cannot be opened or an access
outside a buffer. `hashed` records the bytes that were hashed; the source has no such field. What a
fresh allocation holds is a memory `junk`. A directory without files has no chunks, so that
`calcHashSingle` is not reached. Trackers, comments and what else is written are left out.

Source: `torrent/torrentcreator.h`, `torrent/torrentcreator.cpp`
-/

namespace KTorrent.Check

open KTorrent.Lib KTorrent.Util KTorrent.Storage

/-- The files of a directory, each with its number in the directory it is in, and what they hold.
Kind: D -/
structure Directory where
  listing : List (ℕ × TQString)
  content : TQString → List UInt8

namespace Directory

variable (dir : Directory)

/-- All the bytes, one file behind the other. Kind: D -/
def data : List UInt8 := dir.listing.flatMap fun e => dir.content e.2

/-- How many chunks of `chunk_size` bytes there are. Kind: D -/
def numChunks (chunk_size : ℕ) : ℕ := (dir.data.length + chunk_size - 1) / chunk_size

/-- The bytes of a chunk. Kind: D -/
def chunk (chunk_size c : ℕ) : List UInt8 := (dir.data.drop (c * chunk_size)).take chunk_size

end Directory

/-- Source: `torrent/torrentcreator.h`, `TorrentCreator`. Kind: D -/
structure TorrentCreator where
  chunk_size : ℕ
  num_chunks : ℕ
  last_size : ℕ
  tot_size : ℕ
  files : List TorrentFile
  cur_chunk : ℕ := 0
  hashes : List SHA1Hash := []
  hashed : List (List UInt8) := []

namespace TorrentCreator

variable (dir : Directory)

/-- One file more, and the size with it. Source: `TorrentCreator::buildFileList`. Kind: D -/
def addFile (chunk_size : ℕ) (s : ℕ × List TorrentFile) (e : ℕ × TQString) :
    ℕ × List TorrentFile :=
  let fs := u64 (dir.content e.2).length
  (u64 (s.1 + fs), s.2 ++ [TorrentFile.make e.1 e.2 s.1 fs chunk_size false])

/-- Source: `TorrentCreator::buildFileList`. Kind: D -/
def buildFileList (chunk_size : ℕ) : ℕ × List TorrentFile :=
  dir.listing.foldl (addFile dir chunk_size) (0, [])

/-- The size of a chunk is given in units of 1024 bytes, and kept in an `int`.
Source: `TorrentCreator::TorrentCreator`. Kind: D -/
def make (cs : ℕ) : Option TorrentCreator :=
  let chunk_size := cs * 1024
  if chunk_size = 0 ∨ 2 ^ 31 ≤ chunk_size then none
  else
    let (tot_size, files) := buildFileList dir chunk_size
    let num_chunks := u32 (tot_size / chunk_size)
    let last_size := tot_size % chunk_size
    some {
      chunk_size := chunk_size
      num_chunks := if tot_size % chunk_size > 0 then u32 (num_chunks + 1) else num_chunks
      last_size := if last_size = 0 then chunk_size else last_size
      tot_size := tot_size
      files := files }

/-- The test on a file. Source: `TorrentCreator::calcHashMulti`. Kind: D -/
def near (cur_chunk : ℕ) (f : TorrentFile) : Bool :=
  decide (cur_chunk ≥ f.first_chunk) && decide (cur_chunk ≤ f.last_chunk)

/-- The loop over the files of a chunk of `s` bytes.
Source: `TorrentCreator::calcHashMulti`. Kind: D -/
def readLoop (cur_chunk chunk_size s count : ℕ) :
    ℕ → ℕ → List TorrentFile → List UInt8 → Option (List UInt8)
  | _, _, [], buf => some buf
  | i, read, f :: fs, buf => do
    let file := dir.content f.path
    -- only the first file can have an offset
    let off := if i = 0 then f.fileOffset cur_chunk chunk_size else 0
    let to_read :=
      if count = 1 then s
      else if i = 0 then u32 f.last_chunk_size
      else if i = count - 1 then sub32 s read
      else u32 f.size
    let buf ← place buf read ((file.drop off).take to_read)
    readLoop cur_chunk chunk_size s count (i + 1) (u32 (read + to_read)) fs buf

/-- The size of the current chunk. Source: `TorrentCreator::calcHashMulti`. Kind: D -/
def sizeOf (tc : TorrentCreator) : ℕ :=
  if tc.cur_chunk ≠ sub32 tc.num_chunks 1 then tc.chunk_size else u32 tc.last_size

/-- Whether all hashes are calculated comes with it.
Source: `TorrentCreator::calcHashMulti`. Kind: D -/
def calcHashMulti (junk : ℕ → Mem) (tc : TorrentCreator) : Option (TorrentCreator × Bool) := do
  let s := tc.sizeOf
  let file_list := tc.files.filter (near tc.cur_chunk)
  let buf ← readLoop dir tc.cur_chunk tc.chunk_size s file_list.length 0 0 file_list
    (slice (junk tc.cur_chunk) 0 s)
  let tc := { tc with
    hashes := tc.hashes ++ [generate buf]
    hashed := tc.hashed ++ [buf]
    cur_chunk := u32 (tc.cur_chunk + 1) }
  return (tc, decide (tc.cur_chunk ≥ tc.num_chunks))

/-- Source: `TorrentCreator::calculateHash`. Kind: D -/
def calculateHash (junk : ℕ → Mem) (tc : TorrentCreator) : Option (TorrentCreator × Bool) :=
  if tc.cur_chunk ≥ tc.num_chunks then some (tc, true) else tc.calcHashMulti dir junk

/-- `while (!calculateHash());`, for a number of rounds. Source: `TorrentCreator::savePieces`.
Kind: D -/
def calculateHashes (junk : ℕ → Mem) : ℕ → TorrentCreator → Option TorrentCreator
  | 0, _ => none
  | k + 1, tc => do
    let (tc, done) ← tc.calculateHash dir junk
    if done then return tc else calculateHashes junk k tc

/-- The size of the buffer of the hashes. Source: `TorrentCreator::savePieces`. Kind: D -/
def bigSize (tc : TorrentCreator) : ℕ := u32 (tc.num_chunks * 20)

/-- A hash is copied to its place. Source: `TorrentCreator::savePieces`, the loop body. Kind: D -/
def copyHash (tc : TorrentCreator) (big_hash : List UInt8) (i : ℕ) : Option (List UInt8) := do
  let hash ← tc.hashes[i]?
  place big_hash (u32 (20 * i)) hash.toList

/-- The bytes that are written come with it. Source: `TorrentCreator::savePieces`. Kind: D -/
def savePieces (junk : ℕ → Mem) (fresh : Mem) (tc : TorrentCreator) :
    Option (TorrentCreator × List UInt8) := do
  let tc ← (if tc.hashes = [] then calculateHashes dir junk (tc.num_chunks + 1) tc else some tc)
  let big_hash ← (List.range tc.num_chunks).foldlM tc.copyHash (slice fresh 0 tc.bigSize)
  return (tc, big_hash)

/-- The files as they are written. Source: `TorrentCreator::saveFile`. Kind: D -/
def specs (tc : TorrentCreator) : List FileSpec := tc.files.map fun f => ⟨f.path, f.size, false⟩

/-- What is loaded of the torrent that is written: the files are numbered and laid out anew. The
length of a string is read into an `int`.
Source: `TorrentCreator::saveInfo`, `BDecoder::parseString`, `Torrent::loadInfo`. Kind: D -/
def torrent (name : TQString) (tc : TorrentCreator) (big_hash : List UInt8) : Option Torrent :=
  if 2 ^ 31 ≤ big_hash.length then none
  else
    match LoadTorrent.hashes big_hash with
    | .error _ => none
    | .ok hash_pieces =>
      let file_length := u64 (tc.specs.map FileSpec.size).sum
      if LoadTorrent.numChunks file_length tc.chunk_size ≠ hash_pieces.length then none
      else some {
        name_suggestion := name
        piece_length := tc.chunk_size
        file_length := file_length
        hash_pieces := hash_pieces
        files := makeFiles tc.chunk_size 0 0 tc.specs
        multimedia := false }

end TorrentCreator

end KTorrent.Check
