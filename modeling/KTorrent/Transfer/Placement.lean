import KTorrent.Transfer.ContinuousHash

/-!
# Where the bytes of a chunk are

* `content s i` — the bytes of chunk `i` wherever they are now: in its buffer, or in the file.
* `Placed i c` — the status of a chunk and its data pointer agree, and its index and size are those
  of chunk `i`.
* `OnlyAt i d d'` — what happens between `d` and `d'` concerns chunk `i` alone: no other chunk, no
  other download and no byte of the files outside the chunk changes. Every operation of the
  downloader on one chunk is such (`onlyAt_*`).
* `stored_save` — after a save that succeeds, the file holds the bytes that were in memory.

Source: `torrent/chunk.cpp`, `torrent/singlefilecache.cpp`, `torrent/multifilecache.cpp`
-/

namespace KTorrent.Transfer

open KTorrent.Lib KTorrent.Util KTorrent.Storage ChunkManager

variable {L : Layout}

/-! ### The place of a chunk in the files -/

/-- Where a chunk begins. Source: `torrent/chunk.cpp`, `torrent/singlefilecache.cpp`. Kind: L -/
theorem chunkOffset_eq (i : Fin L.numChunks) :
    L.torrent.chunkOffset i = i * L.piece_length := by
  have h1 := L.mul_lt_of_lt_numChunks i.2
  exact u64_of_lt (h1.trans L.length_lt)

/-- No chunk is longer than a piece. Source: `torrent/chunk.cpp`, `torrent/singlefilecache.cpp`.
Kind: L -/
theorem sizeOf_le (i : Fin L.numChunks) : sizeOf i ≤ L.piece_length := by
  have hu : ∀ n, u32 n ≤ n := fun n => Nat.mod_le _ _
  show chunkSize L i ≤ _
  unfold chunkSize
  split_ifs with h
  · exact hu _
  · have hi : i.val = L.numChunks - 1 := by have := i.2; omega
    have h1 := L.mul_lt_of_lt_numChunks i.2
    have h2 : L.file_length ≤ L.numChunks * L.piece_length := by
      have h3 := Nat.div_add_mod (L.file_length + L.piece_length - 1) L.piece_length
      have h4 := Nat.mod_lt (L.file_length + L.piece_length - 1) L.piece_pos
      have h5 := L.hashes
      rw [Layout.numChunks, h5, Nat.mul_comm]
      omega
    have h6 : L.piece_length * (L.numChunks - 1) = i * L.piece_length := by
      rw [← hi, Nat.mul_comm]
    have h7 : L.numChunks * L.piece_length = i * L.piece_length + L.piece_length := by
      have h8 : i.val + 1 = L.numChunks := by have := i.2; omega
      exact (congrArg (· * L.piece_length) h8.symm).trans (Nat.succ_mul _ _)
    rw [h6, u64_of_lt (h1.trans L.length_lt), sub64_of_le h1.le L.length_lt]
    exact (hu _).trans (by omega)

/-- Two chunks share no byte of the files. Source: `torrent/chunk.cpp`,
`torrent/singlefilecache.cpp`. Kind: L -/
theorem chunks_disjoint {i j : Fin L.numChunks} (h : j ≠ i) :
    L.torrent.chunkOffset j + sizeOf j ≤ L.torrent.chunkOffset i ∨
      L.torrent.chunkOffset i + sizeOf i ≤ L.torrent.chunkOffset j := by
  have hne : j.val ≠ i.val := fun h' => h (Fin.ext h')
  have hi := sizeOf_le i
  have hj := sizeOf_le j
  rw [chunkOffset_eq, chunkOffset_eq]
  rcases lt_or_gt_of_ne hne with hlt | hlt
  · left
    have h1 := Nat.mul_le_mul_right L.piece_length (Nat.succ_le_of_lt hlt)
    rw [Nat.succ_mul] at h1
    omega
  · right
    have h1 := Nat.mul_le_mul_right L.piece_length (Nat.succ_le_of_lt hlt)
    rw [Nat.succ_mul] at h1
    omega

/-- The length of a chunk has 32 bits. Source: `torrent/chunk.cpp`, `torrent/singlefilecache.cpp`.
Kind: L -/
theorem sizeOf_lt (i : Fin L.numChunks) : sizeOf i < 2 ^ 32 := u32_lt _

/-! ### Placed chunks -/

/-- **Status and data pointer agree**, the chunk is the `i`th, and nobody has excluded it. Kind: D -/
structure Placed (i : Fin L.numChunks) (c : Chunk) : Prop where
  index : c.index = i
  size : c.size = sizeOf i
  wanted : c.priority ≠ .excluded
  mapped : c.status = .mmapped → c.data = .mapped
  buffered : c.status = .buffered → ∃ m, c.data = .heap m
  away : c.status = .onDisk ∨ c.status = .notDownloaded → c.data = .null

/-- The bytes of a chunk, wherever they are. Kind: D -/
def content (s : ChunkManager L) (i : Fin L.numChunks) : Mem :=
  match (s.chunks i).data with
  | .heap m => m
  | _ => fun x => s.cache.disk (L.torrent.chunkOffset i + x)

namespace Placed

variable {i : Fin L.numChunks} {c : Chunk}

/-- A chunk that is cleared is in place. Source: `Chunk::clear`. Kind: L -/
theorem clear (h : Placed i c) {st : Status} (hst : st = .onDisk ∨ st = .notDownloaded) :
    Placed i { c.clear with status := st } := by
  refine ⟨h.index, h.size, h.wanted, fun hs => ?_, fun hs => ?_, fun _ => rfl⟩
  · rcases hst with rfl | rfl <;> cases hs
  · rcases hst with rfl | rfl <;> cases hs

/-- References do not matter. Source: `torrent/chunk.cpp`, `torrent/singlefilecache.cpp`. Kind: L -/
theorem refCount (h : Placed i c) (n : ℤ) : Placed i { c with ref_count := n } :=
  ⟨h.index, h.size, h.wanted, h.mapped, h.buffered, h.away⟩

/-- Preparing puts a chunk in place. Source: `SingleFileCache::prep`. Kind: L -/
theorem prep (h : Placed i c) (os : Os) (k : Cache) : Placed i (k.prep L.torrent os c).1 := by
  rcases k.prep_cases L.torrent os c with ⟨k', hp, -⟩ | ⟨k', hp, -⟩ <;> rw [hp]
  · exact ⟨h.index, h.size, h.wanted, fun _ => rfl, fun hs => absurd hs (by simp [Chunk.setData]),
      fun hs => absurd hs (by simp [Chunk.setData])⟩
  · exact ⟨h.index, h.size, h.wanted, fun hs => absurd hs (by simp [Chunk.allocate]),
      fun _ => ⟨_, rfl⟩, fun hs => absurd hs (by simp [Chunk.allocate])⟩

/-- Saving keeps it there. Source: `SingleFileCache::save`. Kind: L -/
theorem save (h : Placed i c) (os : Os) (k : Cache) : Placed i (k.save L.torrent os c).1 := by
  rcases k.save_chunk_cases L.torrent os c with hs | hs <;> rw [hs]
  · exact h
  · exact h.clear (Or.inl rfl)

/-- A chunk with memory is in memory. Source: `torrent/chunk.cpp`, `torrent/singlefilecache.cpp`.
Kind: L -/
theorem status_of_data (h : Placed i c) (hd : c.data.isNull = false) :
    c.status = .mmapped ∨ c.status = .buffered := by
  cases hs : c.status
  · exact Or.inl rfl
  · exact Or.inr rfl
  · rw [h.away (Or.inl hs)] at hd
    cases hd
  · rw [h.away (Or.inr hs)] at hd
    cases hd

end Placed

/-! ### What the operations leave alone -/

/-- **What happens concerns chunk `i` alone.** Kind: D -/
structure OnlyAt (i : Fin L.numChunks) (d d' : Downloader L) : Prop where
  chunks : ∀ j, j ≠ i → d'.cman.chunks j = d.cman.chunks j
  current : ∀ j, j ≠ i → d'.current_chunks j = d.current_chunks j
  disk : ∀ b, (b < L.torrent.chunkOffset i ∨ L.torrent.chunkOffset i + sizeOf i ≤ b) →
    d'.cman.cache.disk b = d.cman.cache.disk b

/-- Nothing happens elsewhere. Source: none: infrastructure. Kind: L -/
theorem OnlyAt.refl (i : Fin L.numChunks) (d : Downloader L) : OnlyAt i d d :=
  ⟨fun _ _ => rfl, fun _ _ => rfl, fun _ _ => rfl⟩

/-- What acts on one chunk twice acts on it only. Source: none: infrastructure. Kind: L -/
theorem OnlyAt.trans {i : Fin L.numChunks} {d₁ d₂ d₃ : Downloader L} (h : OnlyAt i d₁ d₂)
    (h' : OnlyAt i d₂ d₃) : OnlyAt i d₁ d₃ :=
  ⟨fun j hj => (h'.chunks j hj).trans (h.chunks j hj),
    fun j hj => (h'.current j hj).trans (h.current j hj),
    fun b hb => (h'.disk b hb).trans (h.disk b hb)⟩

/-- The bytes of the other chunks stay. Source: `torrent/chunk.cpp`, `torrent/singlefilecache.cpp`.
Kind: L -/
theorem OnlyAt.content {i j : Fin L.numChunks} {d d' : Downloader L} (h : OnlyAt i d d')
    (hj : j ≠ i) {x : ℕ} (hx : x < sizeOf j) : content d'.cman j x = content d.cman j x := by
  unfold Transfer.content
  rw [h.chunks j hj]
  have hdisk : d'.cman.cache.disk (L.torrent.chunkOffset j + x) =
      d.cman.cache.disk (L.torrent.chunkOffset j + x) := by
    refine h.disk _ ?_
    rcases chunks_disjoint hj with h1 | h1
    · exact Or.inl (by omega)
    · exact Or.inr (by omega)
  cases (d.cman.chunks j).data
  · exact hdisk
  · rfl
  · exact hdisk

/-- `prep` does not write. Source: `SingleFileCache::prep`. Kind: L -/
theorem disk_prep (os : Os) (c : Chunk) (k : Cache) : (k.prep L.torrent os c).2.disk = k.disk := by
  rcases k.prep_cases L.torrent os c with ⟨k', hp, hd⟩ | ⟨k', hp, hd⟩ <;> rw [hp] <;> exact hd

/-- `save` writes inside the chunk. Source: `SingleFileCache::save`. Kind: L -/
theorem disk_save {i : Fin L.numChunks} {c : Chunk} (h : Placed i c) (os : Os) (k : Cache) {b : ℕ}
    (hb : b < L.torrent.chunkOffset i ∨ L.torrent.chunkOffset i + sizeOf i ≤ b) :
    (k.save L.torrent os c).2.1.disk b = k.disk b := by
  have hout : ∀ bs : List UInt8, bs.length = c.size →
      blit k.disk (L.torrent.chunkOffset c.index) bs b = k.disk b := by
    intro bs hlen
    refine blit_of_not_mem _ ?_
    rw [h.index, hlen, h.size]
    exact hb
  have hwrite : (k.write L.torrent c).disk b = k.disk b := by
    unfold Cache.write Cache.bytes
    cases c.data
    · rfl
    · exact hout _ (length_slice _ _ _)
    · exact hout _ (length_slice _ _ _)
  have htear : (k.tear L.torrent os c).disk b = k.disk b := hout _ (length_slice _ _ _)
  unfold Cache.save MultiFileCache.save SingleFileCache.save
  split_ifs
  all_goals split
  all_goals first
    | rfl
    | exact hwrite
    | exact htear

/-- Saving a mapped chunk does not write: what was written is in the file.
Source: `SingleFileCache::save`. Kind: L -/
theorem disk_save_mapped {c : Chunk} (hs : c.status = .mmapped) (os : Os) (k : Cache) :
    (k.save L.torrent os c).2.1.disk = k.disk := by
  unfold Cache.save MultiFileCache.save SingleFileCache.save
  simp only [hs]
  split_ifs <;> rfl

/-- **What a save that succeeds stores**: the bytes that were in memory.
Source: `SingleFileCache::save`. Kind: P -/
theorem stored_save {i : Fin L.numChunks} {c : Chunk} (h : Placed i c) (os : Os) (k : Cache)
    (hmem : c.data.isNull = false) (hok : (k.save L.torrent os c).2.2 = true) :
    some ((k.save L.torrent os c).2.1.stored L.torrent (k.save L.torrent os c).1) =
      k.bytes L.torrent c := by
  obtain ⟨hindex, hsize, -, -⟩ := k.save_chunk_frame L.torrent os c
  unfold Cache.stored
  rw [hindex, hsize]
  rcases h.status_of_data hmem with hs | hs
  · rw [disk_save_mapped hs, Cache.bytes, h.mapped hs]
  · obtain ⟨m, hm⟩ := h.buffered hs
    have hwrite : (k.write L.torrent c).disk =
        blit k.disk (L.torrent.chunkOffset c.index) (slice m 0 c.size) := by
      unfold Cache.write Cache.bytes
      rw [hm]
    have hdisk : (k.save L.torrent os c).2.1.disk = (k.write L.torrent c).disk := by
      revert hok
      unfold Cache.save MultiFileCache.save SingleFileCache.save
      simp only [hs]
      split_ifs
      · exact fun _ => rfl
      · exact fun h' => absurd h' (by simp)
      · exact fun _ => rfl
      · exact fun h' => absurd h' (by simp)
    rw [hdisk, hwrite, slice_blit_slice, Cache.bytes, hm]

/-! ### The downloader's operations on one chunk -/

section operations

variable {d : Downloader L} {i : Fin L.numChunks}

/-- Preparing again acts on its chunk. Source: `Downloader::pieceRecieved`, `findDownloadForPD`.
Kind: L -/
theorem onlyAt_reload (os : Os) (i : Fin L.numChunks) (d : Downloader L) :
    OnlyAt i d (d.reload os i) := by
  unfold Downloader.reload
  split_ifs
  · refine ⟨fun j hj => ?_, fun _ _ => rfl, fun b _ => ?_⟩
    · have h := cell_prepareChunk d.cman j os i true
      rw [if_neg fun hji => hj (Fin.ext hji.1)] at h
      exact congrArg Cell.chunk h
    · show (d.cman.prepareChunk os i true).1.cache.disk b = _
      unfold ChunkManager.prepareChunk
      rw [dif_pos i.2]
      exact congrFun (disk_prep os _ _) b
  · exact OnlyAt.refl i d

/-- The save of a chunk that nobody has excluded. Source: `ChunkManager::saveChunk`. Kind: L -/
theorem saveChunk_eq (s : ChunkManager L) (hp : Placed i (s.chunks i)) (os : Os)
    (update_index : Bool) :
    (s.saveChunk os i update_index).1.chunks =
        Function.update s.chunks i (s.cache.save L.torrent os (s.chunks i)).1 ∧
      (s.saveChunk os i update_index).1.cache =
        (s.cache.save L.torrent os (s.chunks i)).2.1 := by
  have hx : (s.chunks i).isExcluded = false := by simpa [Chunk.isExcluded] using hp.wanted
  unfold ChunkManager.saveChunk writeIndexFileEntry
  simp only [dif_pos i.2, Fin.eta, hx, Bool.not_false, if_true]
  split_ifs <;> exact ⟨rfl, rfl⟩

/-- Saving acts on its chunk, if it is in place. Source: `ChunkManager::saveChunk`. Kind: L -/
theorem onlyAt_saveChunk (hp : Placed i (d.cman.chunks i)) (os : Os) (update_index : Bool) :
    OnlyAt i d { d with cman := (d.cman.saveChunk os i update_index).1 } := by
  obtain ⟨hc, hk⟩ := saveChunk_eq d.cman hp os update_index
  refine ⟨fun j hj => ?_, fun _ _ => rfl, fun b hb => ?_⟩
  · show (d.cman.saveChunk os i update_index).1.chunks j = _
    rw [hc, Function.update_of_ne hj]
  · show (d.cman.saveChunk os i update_index).1.cache.disk b = _
    rw [hk]
    exact disk_save hp os _ hb

/-- Resetting a chunk throws its memory away, and writes nothing.
Source: `ChunkManager::resetChunk`. Kind: L -/
theorem onlyAt_resetChunk (os : Os) (i : Fin L.numChunks) (d : Downloader L) (l : List ℕ) :
    OnlyAt i d { d with cman := d.cman.resetChunk os i, selector := l } := by
  refine ⟨fun j hj => ?_, fun _ _ => rfl, fun b _ => ?_⟩
  · have h := cell_resetChunk d.cman j os i
    rw [if_neg fun hji => hj (Fin.ext hji)] at h
    exact congrArg Cell.chunk h
  · have hcache : (d.cman.resetChunk os i).cache = (d.cman.saveMapped os i).cache := by
      unfold ChunkManager.resetChunk
      rw [if_neg (not_le.mpr i.2), modifyChunk_frame]
    show (d.cman.resetChunk os i).cache.disk b = _
    rw [hcache]
    unfold ChunkManager.saveMapped
    simp only [dif_pos i.2, Fin.eta]
    split_ifs with hs
    · exact congrFun (disk_save_mapped hs os _) b
    · rfl

/-- Ending a download acts on its chunk. Source: `torrent/chunk.cpp`, `torrent/singlefilecache.cpp`.
Kind: L -/
theorem onlyAt_erase (i : Fin L.numChunks) (d : Downloader L) : OnlyAt i d (d.erase i) := by
  unfold Downloader.erase
  split
  · exact OnlyAt.refl i d
  · refine ⟨fun j hj => ?_, fun j hj => Function.update_of_ne hj _ _, fun b _ => ?_⟩
    · have h := cell_modifyChunk d.cman j i fun c => { c with ref_count := c.ref_count - 1 }
      rw [if_neg fun hji => hj (Fin.ext hji)] at h
      exact congrArg Cell.chunk h
    · show (d.cman.modifyChunk i _).cache.disk b = _
      rw [modifyChunk_frame]

/-- A new download acts on its chunk. Source: `torrent/chunk.cpp`, `torrent/singlefilecache.cpp`.
Kind: L -/
theorem onlyAt_insert (i : Fin L.numChunks) (cd : ChunkDownload (sizeOf i)) (d : Downloader L) :
    OnlyAt i d (d.insert i cd) := by
  refine ⟨fun j hj => ?_, fun j hj => Function.update_of_ne hj _ _, fun b _ => ?_⟩
  · have h := cell_modifyChunk d.cman j i fun c => { c with ref_count := c.ref_count + 1 }
    rw [if_neg fun hji => hj (Fin.ext hji)] at h
    exact congrArg Cell.chunk h
  · show (d.cman.modifyChunk i _).cache.disk b = _
    rw [modifyChunk_frame]

/-- A piece whose bytes lie in the chunk. Source: `Downloader::pieceRecieved`. Kind: L -/
theorem onlyAt_keepArrival (hp : Placed i (d.cman.chunks i)) {a : ChunkDownload.Arrival (sizeOf i)}
    (ha : ∀ off bs, a.copied = some (off, bs) →
      ∀ x, off ≤ x → x < off + bs.length → x < sizeOf i) :
    OnlyAt i d (d.keepArrival i a) := by
  refine ⟨fun j hj => ?_, fun j hj => Function.update_of_ne hj _ _, fun b hb => ?_⟩
  · unfold Downloader.keepArrival copyInto
    split
    · rfl
    · dsimp only
      split
      · rfl
      · exact Function.update_of_ne hj _ _
      · rfl
  · unfold Downloader.keepArrival copyInto
    split
    · rfl
    · rename_i off bs hcopied
      dsimp only
      split
      · rfl
      · rfl
      · show blit d.cman.cache.disk _ bs b = _
        by_cases hempty : bs.length = 0
        · exact blit_of_not_mem _ (by omega)
        · refine blit_of_not_mem _ ?_
          have h1 := ha off bs hcopied (off + bs.length - 1) (by omega) (by omega)
          rw [hp.index]
          omega

end operations

end KTorrent.Transfer
