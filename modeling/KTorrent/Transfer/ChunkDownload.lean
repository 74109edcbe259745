import KTorrent.Storage.ChunkManager
import KTorrent.Util.Endian

/-!
# Downloading one chunk

* `ChunkDownload size` — the download of a chunk of `size` bytes: which of its pieces have arrived
  and, for chunks of more than 64 pieces, the hash of the pieces in front (`hash_gen`,
  `num_pieces_in_hash`). The type carries the size, so that the number of pieces and the length of
  the last one cannot disagree with the chunk.
* `ChunkDownload.piece` — the arrival of a piece, as the place and the bytes it copies, and the
  download afterwards.

The peers a download is assigned to and the requests sent to them (`pdown`, `dstatus`,
`piece_queue`) are left out: no test of `piece` reads them.

Source: `torrent/chunkdownload.h`, `torrent/chunkdownload.cpp`, `torrent/piece.h`
-/

namespace KTorrent.Transfer

open KTorrent.Lib KTorrent.Util KTorrent.Storage

/-- Source: `util/constants.h`, `MAX_PIECE_LEN`. Kind: D -/
def MAX_PIECE_LEN : ℕ := 16384

/-- Source: `torrent/request.h`, `Request`. Kind: D -/
structure Request where
  index : ℕ
  off : ℕ
  len : ℕ
  peer : ℕ
deriving DecidableEq, Repr

/-- Source: `torrent/request.cpp`, `operator ==`, which ignores the peer. Kind: D -/
def Request.sameAs (a b : Request) : Bool :=
  decide (a.index = b.index) && decide (a.len = b.len) && decide (a.off = b.off)

/-- A received piece; its length is that of its data. Source: `torrent/piece.h`, `Piece`. Kind: D -/
structure Piece where
  index : ℕ
  off : ℕ
  peer : ℕ
  data : List UInt8
deriving DecidableEq, Repr

/-- Source: `Piece::getLength`, as `Piece::Piece` sets it. Kind: D -/
def Piece.len (p : Piece) : ℕ := p.data.length

/-- The request a piece answers. Source: `Request(p)`. Kind: D -/
def Piece.request (p : Piece) : Request := ⟨p.index, p.off, p.len, p.peer⟩

/-- The number of pieces of a chunk. Source: `ChunkDownload::ChunkDownload`, `num`. Kind: D -/
def numPieces (size : ℕ) : ℕ :=
  if size % MAX_PIECE_LEN ≠ 0 then size / MAX_PIECE_LEN + 1 else size / MAX_PIECE_LEN

/-- The length of the last piece of a chunk. Source: `ChunkDownload::ChunkDownload`, `last_size`.
Kind: D -/
def lastSize (size : ℕ) : ℕ :=
  if size % MAX_PIECE_LEN ≠ 0 then size % MAX_PIECE_LEN else MAX_PIECE_LEN

/-- The length of piece `i`. Source: `ChunkDownload::updateHash`, `bytesDownloaded`. Kind: D -/
def pieceLen (size i : ℕ) : ℕ := if i + 1 = numPieces size then lastSize size else MAX_PIECE_LEN

/-- Source: `torrent/chunkdownload.h`, `ChunkDownload`. Kind: D -/
structure ChunkDownload (size : ℕ) where
  pieces : BitSet (numPieces size)
  num_downloaded : ℕ := 0
  num_pieces_in_hash : ℕ := 0
  hash_gen : SHA1HashGen
  /-- History: the bytes `hash_gen` has been fed. The source has no such member, and nothing reads
  it. -/
  hashed : List UInt8 := []

namespace ChunkDownload

variable {size : ℕ}

/-- Source: `ChunkDownload::ChunkDownload`. Kind: D -/
def new (size : ℕ) : ChunkDownload size where
  pieces := .empty _
  hash_gen := SHA1HashGen.start

/-- Source: `ChunkDownload::usingContinuousHashing`. Kind: D -/
def usingContinuousHashing (_ : ChunkDownload size) : Bool := decide (numPieces size > 64)

/-- `while (pieces.get(nn) && nn < num) nn++;`. Source: `ChunkDownload::updateHash`. Kind: D -/
def firstMissing (pieces : BitSet (numPieces size)) : ℕ → ℕ → ℕ
  | nn, 0 => nn
  | nn, fuel + 1 => if pieces.get nn then firstMissing pieces (nn + 1) fuel else nn

/-- Source: `ChunkDownload::updateHash`; `mem` is the memory from the chunk's data pointer on.
Kind: D -/
def updateHash (mem : Mem) (cd : ChunkDownload size) : ChunkDownload size :=
  let nn := firstMissing cd.pieces cd.num_pieces_in_hash (numPieces size - cd.num_pieces_in_hash)
  { cd with
    hash_gen := forRange cd.num_pieces_in_hash nn
      (fun i g => g.update (slice mem (i * MAX_PIECE_LEN) (pieceLen size i))) cd.hash_gen
    hashed := forRange cd.num_pieces_in_hash nn
      (fun i bs => bs ++ slice mem (i * MAX_PIECE_LEN) (pieceLen size i)) cd.hashed
    num_pieces_in_hash := nn }

/-- Source: `ChunkDownload::getHash`. Kind: D -/
def getHash (cd : ChunkDownload size) : SHA1Hash := cd.hash_gen.get

/-- What one call of `piece` does. Kind: D -/
structure Arrival (size : ℕ) where
  cd : ChunkDownload size
  /-- The `ok` of the source. -/
  ok : Bool
  /-- Whether the chunk is complete. -/
  complete : Bool
  /-- Where `memcpy` copies, and what. -/
  copied : Option (ℕ × List UInt8)

/-- Source: `ChunkDownload::piece`; `mem` is the memory from the chunk's data pointer on, `none`
when the pointer is null. Kind: D -/
def piece (mem : Option Mem) (p : Piece) (cd : ChunkDownload size) : Arrival size :=
  let pp := p.off / MAX_PIECE_LEN
  if cd.pieces.get pp then ⟨cd, false, false, none⟩
  else
    match mem with
    | none => ⟨cd, false, false, none⟩
    | some mem =>
        let cd := { cd with
          pieces := cd.pieces.set pp true
          num_downloaded := cd.num_downloaded + 1 }
        let cd :=
          if cd.usingContinuousHashing then cd.updateHash (blit mem p.off p.data) else cd
        if cd.num_downloaded ≥ numPieces size then
          let cd :=
            if cd.usingContinuousHashing then { cd with hash_gen := cd.hash_gen.finish } else cd
          ⟨cd, true, true, some (p.off, p.data)⟩
        else ⟨cd, true, false, some (p.off, p.data)⟩

end ChunkDownload

end KTorrent.Transfer
