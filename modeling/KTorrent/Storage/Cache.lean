import KTorrent.Lib.Window
import KTorrent.Storage.Torrent
import KTorrent.Util.SHA1HashGen

/-!
# Chunks and the cache

* `Chunk` — status, data pointer, size, reference count and priority (`torrent/chunk.h`). The data
  pointer is null, or points to memory of its own (`heap`), or into the mapped cache file
  (`mapped`), in which case what is written through it is the file.
* `Cache` — the bytes of the cache files, in the address space of the torrent (byte `b` of the
  torrent at address `b`; which file holds it is the file list's business), and the count of mmap
  failures.
* `Os` — what the operating system answers during one call: whether a mapping, a write, a read
  succeeds, whether the file is open, and what new memory contains. Every operation takes its
  answers as an argument, so that a statement for all answers is one for every failure.
* `SingleFileCache` and `MultiFileCache` — `prep`, `load` and `save`. A call that throws returns
  `false` next to the state it leaves behind.

Source: `torrent/chunk.cpp`, `torrent/cache.cpp`, `torrent/singlefilecache.cpp`,
`torrent/multifilecache.cpp`
-/

namespace KTorrent.Storage

open KTorrent.Lib KTorrent.Util

/-- Source: `torrent/chunk.h`, `Chunk::Status`. Kind: D -/
inductive Status
  | mmapped
  | buffered
  | onDisk
  | notDownloaded
deriving DecidableEq, Repr

/-- The data pointer of a chunk. Source: `Chunk::data`. Kind: D -/
inductive Data
  | null
  | heap (bytes : Mem)
  | mapped

/-- Whether the pointer is null. Kind: D -/
def Data.isNull : Data → Bool
  | .null => true
  | _ => false

/-- Source: `torrent/chunk.h`, `Chunk`. Kind: D -/
structure Chunk where
  status : Status := .notDownloaded
  index : ℕ
  data : Data := .null
  size : ℕ
  ref_count : ℤ := 0
  priority : Priority := .normal

namespace Chunk

/-- Source: `Chunk::clear`. Kind: D -/
def clear (c : Chunk) : Chunk := { c with data := .null }

/-- Source: `Chunk::setData`. Kind: D -/
def setData (c : Chunk) (d : Data) (nstatus : Status) : Chunk :=
  { c.clear with status := nstatus, data := d }

/-- Source: `Chunk::allocate`; `fresh` is what the new memory contains. Kind: D -/
def allocate (c : Chunk) (fresh : Mem) : Chunk :=
  { c.clear with status := .buffered, data := .heap fresh }

/-- Source: `Chunk::isExcluded`. Kind: D -/
def isExcluded (c : Chunk) : Bool := c.priority = .excluded

/-- Source: `Chunk::isExcludedForDownloading`. Kind: D -/
def isExcludedForDownloading (c : Chunk) : Bool := c.priority = .onlySeed

/-- Source: `Chunk::setExclude`. Kind: D -/
def setExclude (c : Chunk) (yes : Bool) : Chunk :=
  { c with priority := if yes then .excluded else .normal }

/-- Source: `Chunk::taken`. Kind: D -/
def taken (c : Chunk) : Bool := decide (c.ref_count > 0)

end Chunk

/-- What the operating system answers during a call. Kind: D -/
structure Os where
  /-- `CacheFile::map` returns a mapping. -/
  maps : Bool := true
  /-- `files.find` finds an open cache file. -/
  opened : Bool := true
  /-- `Cache::mappedModeAllowed`. -/
  mappedModeAllowed : Bool := true
  /-- The file is written completely. -/
  writes : Bool := true
  /-- The file is read completely. -/
  reads : Bool := true
  /-- The index file can be opened, at the second try if need be. -/
  index_opens : Bool := true
  /-- What new memory contains, and what a failed write leaves in the file. -/
  fresh : Mem := fun _ => 0

/-- The cache files' bytes, and the failure counter. Source: `torrent/cache.h`, `Cache`. Kind: D -/
structure Cache where
  disk : Mem
  mmap_failures : ℕ := 0

/-- Where a chunk starts. Source: `c->getIndex() * tor.getChunkSize()`. Kind: D -/
def Torrent.chunkOffset (t : Torrent) (index : ℕ) : ℕ := u64 (index * t.piece_length)

namespace Cache

/-- The bytes a chunk's data pointer points to, `none` when it is null. Kind: D -/
def bytes (t : Torrent) (k : Cache) (c : Chunk) : Option (List UInt8) :=
  match c.data with
  | .null => none
  | .heap m => some (slice m 0 c.size)
  | .mapped => some (slice k.disk (t.chunkOffset c.index) c.size)

/-- The bytes stored for a chunk. Kind: D -/
def stored (t : Torrent) (k : Cache) (c : Chunk) : List UInt8 :=
  slice k.disk (t.chunkOffset c.index) c.size

/-- A complete write of a chunk. Source: `CacheFile::write`. Kind: D -/
def write (t : Torrent) (k : Cache) (c : Chunk) : Cache :=
  match k.bytes t c with
  | none => k
  | some bs => { k with disk := blit k.disk (t.chunkOffset c.index) bs }

/-- What an incomplete write may leave: the chunk's part of the file is unknown.
Source: `CacheFile::write`, the error exits. Kind: D -/
def tear (t : Torrent) (os : Os) (k : Cache) (c : Chunk) : Cache :=
  { k with disk := blit k.disk (t.chunkOffset c.index) (slice os.fresh 0 c.size) }

end Cache

namespace SingleFileCache

/-- Source: `SingleFileCache::prep`. Kind: D -/
def prep (os : Os) (c : Chunk) (k : Cache) : Chunk × Cache :=
  if k.mmap_failures ≥ 3 then (c.allocate os.fresh, k)
  else if os.maps then (c.setData .mapped .mmapped, k)
  else (c.allocate os.fresh, { k with mmap_failures := k.mmap_failures + 1 })

/-- Source: `SingleFileCache::load`. Kind: D -/
def load (t : Torrent) (os : Os) (c : Chunk) (k : Cache) : Chunk × Cache × Bool :=
  if k.mmap_failures ≥ 3 ∨ !os.maps then
    if os.reads then
      (c.setData (.heap fun j => k.disk (t.chunkOffset c.index + j)) .buffered,
        { k with
          mmap_failures := if k.mmap_failures < 3 then k.mmap_failures + 1 else k.mmap_failures },
        true)
    else (c.allocate os.fresh, k, false)
  else (c.setData .mapped .mmapped, k, true)

/-- Source: `SingleFileCache::save`. Kind: D -/
def save (t : Torrent) (os : Os) (c : Chunk) (k : Cache) : Chunk × Cache × Bool :=
  match c.status with
  | .mmapped => ({ c.clear with status := .onDisk }, k, true)
  | .buffered =>
      if os.writes then ({ c.clear with status := .onDisk }, k.write t c, true)
      else (c, k.tear t os c, false)
  | _ => (c, k, true)

end SingleFileCache

namespace MultiFileCache

/-- Source: `MultiFileCache::prep`. Kind: D -/
def prep (t : Torrent) (os : Os) (c : Chunk) (k : Cache) : Chunk × Cache :=
  if (t.calcChunkPos c.index).length = 1 then
    if os.opened ∧ os.mappedModeAllowed ∧ k.mmap_failures < 3 then
      if os.maps then (c.setData .mapped .mmapped, k)
      else (c.allocate os.fresh, { k with mmap_failures := k.mmap_failures + 1 })
    else (c.allocate os.fresh, k)
  else (c.allocate os.fresh, k)

/-- Source: `MultiFileCache::load`. Without an open file the buffer keeps what `new` left in it.
Kind: D -/
def load (t : Torrent) (os : Os) (c : Chunk) (k : Cache) : Chunk × Cache × Bool :=
  let buffered (k : Cache) : Chunk × Cache × Bool :=
    if os.reads then
      (c.setData (.heap (if os.opened then fun j => k.disk (t.chunkOffset c.index + j)
        else os.fresh)) .buffered, k, true)
    else (c, k, false)
  if (t.calcChunkPos c.index).length = 1 then
    if !os.opened then (c, k, true)
    else if os.mappedModeAllowed ∧ k.mmap_failures < 3 then
      if os.maps then (c.setData .mapped .mmapped, k, true)
      else buffered { k with mmap_failures := k.mmap_failures + 1 }
    else buffered k
  else buffered k

/-- Source: `MultiFileCache::save`. A mapped chunk without an open file stays as it is; a chunk
that is not mapped is written whatever its status. Kind: D -/
def save (t : Torrent) (os : Os) (c : Chunk) (k : Cache) : Chunk × Cache × Bool :=
  match c.status with
  | .mmapped => if os.opened then ({ c.clear with status := .onDisk }, k, true) else (c, k, true)
  | _ =>
      if os.writes then ({ c.clear with status := .onDisk }, k.write t c, true)
      else (c, k.tear t os c, false)

end MultiFileCache

namespace Cache

/-- The virtual `Cache::prep`. Source: `ChunkManager::ChunkManager`, the choice of the cache.
Kind: D -/
def prep (t : Torrent) (os : Os) (c : Chunk) (k : Cache) : Chunk × Cache :=
  if t.isMultiFile then MultiFileCache.prep t os c k else SingleFileCache.prep os c k

/-- The virtual `Cache::load`; `false` when it throws. Kind: D -/
def load (t : Torrent) (os : Os) (c : Chunk) (k : Cache) : Chunk × Cache × Bool :=
  if t.isMultiFile then MultiFileCache.load t os c k else SingleFileCache.load t os c k

/-- The virtual `Cache::save`; `false` when it throws. Kind: D -/
def save (t : Torrent) (os : Os) (c : Chunk) (k : Cache) : Chunk × Cache × Bool :=
  if t.isMultiFile then MultiFileCache.save t os c k else SingleFileCache.save t os c k

/-- The cache's part of a change of a file's status: afterwards the files hold for the bytes of
this file whatever moving its border chunks and deleting or recreating it left (`os.fresh`).
Source: `Cache::downloadStatusChanged`, `MultiFileCache::downloadStatusChanged`. Kind: D -/
def downloadStatusChanged (t : Torrent) (os : Os) (f : TorrentFile) (k : Cache) : Cache :=
  if t.isMultiFile then { k with disk := blit k.disk f.cache_offset (slice os.fresh 0 f.size) }
  else k

end Cache

/-- Source: `Chunk::checkHash`. Kind: D -/
def Chunk.checkHash (t : Torrent) (k : Cache) (c : Chunk) (h : SHA1Hash) : Bool :=
  if c.status ≠ .buffered ∧ c.status ≠ .mmapped then false
  else
    match k.bytes t c with
    | none => false
    | some bs => generate bs = h

/-! ### What the cache does to a chunk -/

section effects

variable (t : Torrent) (os : Os) (c : Chunk) (k : Cache)

/-- `prep` leaves the chunk in memory: mapped, or in a fresh buffer.
Source: `ChunkManager::ChunkManager`. Kind: L -/
theorem Cache.prep_cases :
    (∃ k', k.prep t os c = (c.setData .mapped .mmapped, k') ∧ k'.disk = k.disk) ∨
      ∃ k', k.prep t os c = (c.allocate os.fresh, k') ∧ k'.disk = k.disk := by
  unfold Cache.prep MultiFileCache.prep SingleFileCache.prep
  split_ifs
  all_goals first
    | exact Or.inl ⟨_, rfl, rfl⟩
    | exact Or.inr ⟨_, rfl, rfl⟩

/-- `save` either leaves the chunk as it is or clears it and marks it stored.
Source: `SingleFileCache::save`. Kind: L -/
theorem Cache.save_chunk_cases :
    (k.save t os c).1 = c ∨ (k.save t os c).1 = { c.clear with status := .onDisk } := by
  unfold Cache.save MultiFileCache.save SingleFileCache.save
  split_ifs
  all_goals split
  all_goals first
    | exact Or.inl rfl
    | exact Or.inr rfl

/-- Saving never touches index, size, reference count or priority. Source: `SingleFileCache::save`.
Kind: L -/
theorem Cache.save_chunk_frame :
    (k.save t os c).1.index = c.index ∧ (k.save t os c).1.size = c.size ∧
      (k.save t os c).1.ref_count = c.ref_count ∧ (k.save t os c).1.priority = c.priority := by
  rcases k.save_chunk_cases t os c with h | h <;> rw [h] <;> exact ⟨rfl, rfl, rfl, rfl⟩

/-- `load` leaves the chunk alone, or brings it into memory. Source: `SingleFileCache::load`.
Kind: L -/
theorem Cache.load_chunk_cases :
    (k.load t os c).1 = c ∨
      ∃ d st, (st = .mmapped ∨ st = .buffered) ∧ (k.load t os c).1 = c.setData d st := by
  unfold Cache.load MultiFileCache.load SingleFileCache.load
  dsimp only
  split_ifs
  all_goals first
    | exact Or.inl rfl
    | exact Or.inr ⟨_, _, Or.inl rfl, rfl⟩
    | exact Or.inr ⟨_, _, Or.inr rfl, rfl⟩

/-- Loading keeps the priority. Source: `SingleFileCache::load`. Kind: L -/
@[simp] theorem Cache.load_chunk_priority : (k.load t os c).1.priority = c.priority := by
  rcases k.load_chunk_cases t os c with h | ⟨d, st, -, h⟩ <;> rw [h]
  rfl

/-- `prep` brings the chunk into memory. Source: `ChunkManager::ChunkManager`. Kind: L -/
theorem Cache.prep_chunk_cases :
    ∃ d st, (st = .mmapped ∨ st = .buffered) ∧ (k.prep t os c).1 = c.setData d st := by
  rcases k.prep_cases t os c with ⟨k', h, -⟩ | ⟨k', h, -⟩
  · exact ⟨_, _, Or.inl rfl, by rw [h]⟩
  · exact ⟨_, _, Or.inr rfl, by rw [h]; rfl⟩

/-- Saving keeps the priority. Source: `SingleFileCache::save`. Kind: L -/
@[simp] theorem Cache.save_chunk_priority : (k.save t os c).1.priority = c.priority :=
  (k.save_chunk_frame t os c).2.2.2

end effects

end KTorrent.Storage
