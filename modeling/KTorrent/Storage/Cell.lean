import KTorrent.Storage.ChunkManager

/-!
# The chunk manager, one chunk at a time

All the bookkeeping of the chunk manager is done chunk by chunk. `ChunkManager.cell s i` is what it
keeps of chunk `i`: the chunk and its bit in each of the four bit sets. Every operation on a range
acts on each cell in the range by one function of cells and leaves the others alone:

* `cell_prioritise`, `cell_excludeRange`, `cell_includeRange` — the three range operations, as
  `Cell.prioritise`, `Cell.exclude` and `Cell.include`.
* `cell_resetChunk`, `cell_resetRange` — as `Cell.reset`.
* `cell_saveChunk`, `cell_prepareChunk`, `cell_unload`, `cell_grabChunk` — the operations that move
  a chunk's data, by what the cache did to the chunk.
* `files_*` — none of them touches the selection of the files.

All later proofs about the chunk manager go through these lemmas and never unfold its operations.

Source: `torrent/chunkmanager.cpp`
-/

namespace KTorrent.Storage

open KTorrent.Lib KTorrent.Util

/-- What the chunk manager keeps of one chunk. Kind: D -/
structure Cell where
  chunk : Chunk
  owned : Bool
  excluded : Bool
  onlySeed : Bool
  todo : Bool

namespace Cell

/-- What `prioritise` does to a chunk. Kind: D -/
def prioritise (p : Priority) (c : Cell) : Cell :=
  { c with
    chunk := { c.chunk with priority := p }
    onlySeed := p = .onlySeed
    todo := if p = .onlySeed ∨ p = .excluded then false else !c.owned }

/-- What `exclude` does to a chunk. Kind: D -/
def exclude (c : Cell) : Cell :=
  { chunk := { c.chunk with priority := .excluded }
    owned := false
    excluded := true
    onlySeed := false
    todo := false }

/-- What `include` does to a chunk. Kind: D -/
def includeBack (c : Cell) : Cell :=
  { c with
    chunk := { c.chunk with priority := .normal }
    excluded := false
    todo := !c.owned || c.todo }

/-- What `resetChunk` does to a chunk. Kind: D -/
def reset (c : Cell) : Cell :=
  { c with
    chunk := { c.chunk.clear with status := .notDownloaded }
    owned := false
    todo := !c.excluded && !c.onlySeed }

/-- What `saveChunk` does to a chunk. Kind: D -/
def save (t : Torrent) (os : Os) (k : Cache) (update_index : Bool) (c : Cell) : Cell :=
  if c.chunk.isExcluded then { c with chunk := { c.chunk.clear with status := .notDownloaded } }
  else
    { c with
      chunk := (k.save t os c.chunk).1
      owned := c.owned || ((k.save t os c.chunk).2.2 && update_index)
      todo := c.todo && !((k.save t os c.chunk).2.2 && update_index) }

/-- What `prepareChunk` does to a chunk that it accepts. Kind: D -/
def prep (t : Torrent) (os : Os) (k : Cache) (c : Cell) : Cell :=
  { c with chunk := (k.prep t os c.chunk).1 }

/-- What loading does to a chunk on disk. Kind: D -/
def load (t : Torrent) (os : Os) (k : Cache) (c : Cell) : Cell :=
  { c with chunk := (k.load t os c.chunk).1 }

/-- What unloading does to a chunk in memory. Kind: D -/
def unload (c : Cell) : Cell := { c with chunk := { c.chunk.clear with status := .onDisk } }

/-- Whether the chunk is in memory. Kind: D -/
def inMemory (c : Cell) : Bool := c.chunk.status = .mmapped || c.chunk.status = .buffered

/-- What a data check does to a chunk. Kind: D -/
def check (ok : Bool) (c : Cell) : Cell :=
  if ok = true ∧ c.owned = false then
    { c with chunk := { c.chunk with status := .onDisk }, owned := true, todo := false }
  else if ok = false ∧ c.owned = true then
    if c.inMemory then c.reset
    else
      { c with
        chunk := { c.chunk with status := .notDownloaded }
        owned := false
        todo := !c.onlySeed && !c.excluded }
  else c

end Cell

namespace ChunkManager

variable {L : Layout}

/-- What the chunk manager keeps of chunk `i`. Kind: D -/
def cell (s : ChunkManager L) (i : Fin L.numChunks) : Cell where
  chunk := s.chunks i
  owned := s.bitset.get i
  excluded := s.excluded_chunks.get i
  onlySeed := s.only_seed_chunks.get i
  todo := s.todo.get i

/-! ### Rounds of loops -/

section rounds

variable (s : ChunkManager L) (j : Fin L.numChunks)

/-- The chunk of a cell. Source: `torrent/chunkmanager.cpp`. Kind: L -/
@[simp] theorem cell_chunk : (s.cell j).chunk = s.chunks j := rfl
/-- The have-bit of a cell. Source: `torrent/chunkmanager.cpp`. Kind: L -/
@[simp] theorem cell_owned : (s.cell j).owned = s.bitset.get j := rfl
/-- The bit of a cell in `excluded_chunks`. Source: `torrent/chunkmanager.cpp`. Kind: L -/
@[simp] theorem cell_excluded : (s.cell j).excluded = s.excluded_chunks.get j := rfl
/-- The bit of a cell in `only_seed_chunks`. Source: `torrent/chunkmanager.cpp`. Kind: L -/
@[simp] theorem cell_onlySeed : (s.cell j).onlySeed = s.only_seed_chunks.get j := rfl
/-- The bit of a cell in `todo`. Source: `torrent/chunkmanager.cpp`. Kind: L -/
@[simp] theorem cell_todo : (s.cell j).todo = s.todo.get j := rfl

/-- A changed chunk, and the others. Source: `torrent/chunkmanager.cpp`. Kind: L -/
theorem chunks_modifyChunk (i : ℕ) (f : Chunk → Chunk) :
    (s.modifyChunk i f).chunks j = if j.val = i then f (s.chunks j) else s.chunks j := by
  unfold modifyChunk
  by_cases hi : i < L.numChunks
  · rw [dif_pos hi]
    by_cases hj : j.val = i
    · subst hj
      simp
    · simp [hj, Fin.ext_iff]
  · rw [dif_neg hi, if_neg (by have := j.2; omega)]

/-- Nothing but the chunks changes. Source: `torrent/chunkmanager.cpp`. Kind: L -/
theorem modifyChunk_frame (i : ℕ) (f : Chunk → Chunk) :
    s.modifyChunk i f = { s with chunks := (s.modifyChunk i f).chunks } := by
  unfold modifyChunk
  split_ifs <;> rfl

/-- A bit that is set, and the others. Source: `torrent/chunkmanager.cpp`. Kind: L -/
theorem get_set_fin {n : ℕ} (b : BitSet n) (j : Fin n) (i : ℕ) (on : Bool) :
    (b.set i on).get j = if j.val = i then on else b.get j := by
  rw [BitSet.get_set]
  refine if_congr ⟨fun h => h.1, fun h => ⟨h, h ▸ j.2⟩⟩ rfl rfl

/-- One round of `prioritise`. Source: `ChunkManager::prioritise`. Kind: L -/
theorem cell_prioritiseChunk (p : Priority) (i : ℕ) :
    (s.prioritiseChunk p i).cell j =
      if j.val = i then (s.cell j).prioritise p else s.cell j := by
  unfold prioritiseChunk cell Cell.prioritise
  rw [modifyChunk_frame]
  split <;> simp only [chunks_modifyChunk, get_set_fin] <;> split_ifs <;> simp_all

/-- One round of `exclude`. Source: `ChunkManager::exclude`. Kind: L -/
theorem cell_excludeChunk (i : ℕ) :
    (s.excludeChunk i).cell j = if j.val = i then (s.cell j).exclude else s.cell j := by
  unfold excludeChunk cell Cell.exclude Chunk.setExclude
  rw [modifyChunk_frame]
  simp only [chunks_modifyChunk, get_set_fin]
  split_ifs <;> simp_all

/-- One round of `include`. Source: `ChunkManager::include`. Kind: L -/
theorem cell_includeChunk (i : ℕ) :
    (s.includeChunk i).cell j = if j.val = i then (s.cell j).includeBack else s.cell j := by
  unfold includeChunk cell Cell.includeBack Chunk.setExclude
  rw [modifyChunk_frame]
  by_cases hj : j.val = i
  · subst hj
    simp only [chunks_modifyChunk, get_set_fin, if_true]
    cases h : s.bitset.get j <;> simp
  · simp only [chunks_modifyChunk, get_set_fin, if_neg hj]
    split_ifs <;> simp [get_set_fin, hj]

/-- Saving clears at most the chunk that is saved. Source: `ChunkManager::resetChunk`,
`releaseChunk`. Kind: L -/
theorem chunks_saveMapped (os : Os) (i : ℕ) :
    (s.saveMapped os i).chunks j = s.chunks j ∨
      j.val = i ∧ (s.saveMapped os i).chunks j = { (s.chunks j).clear with status := .onDisk } := by
  unfold saveMapped
  split_ifs with hi hm
  · by_cases hj : j.val = i
    · subst hj
      rcases s.cache.save_chunk_cases L.torrent os (s.chunks j) with h | h
      · exact Or.inl (by simp [h])
      · exact Or.inr ⟨rfl, by simp [h]⟩
    · exact Or.inl (by simp [Fin.ext_iff, hj])
  · exact Or.inl rfl
  · exact Or.inl rfl

/-- Saving a mapped chunk changes the chunk and the cache, nothing else.
Source: `ChunkManager::resetChunk`, `releaseChunk`. Kind: L -/
theorem saveMapped_frame (os : Os) (i : ℕ) :
    s.saveMapped os i =
      { s with chunks := (s.saveMapped os i).chunks, cache := (s.saveMapped os i).cache } := by
  unfold saveMapped
  split_ifs <;> rfl

/-- A reset acts on its own cell. Source: `ChunkManager::resetChunk`. Kind: L -/
theorem cell_resetChunk (os : Os) (i : ℕ) :
    (s.resetChunk os i).cell j = if j.val = i then (s.cell j).reset else s.cell j := by
  unfold resetChunk cell Cell.reset
  by_cases hi : i ≥ L.numChunks
  · rw [if_pos hi, if_neg (by have := j.2; omega)]
  · rw [if_neg hi, modifyChunk_frame, saveMapped_frame]
    simp only [chunks_modifyChunk, get_set_fin]
    by_cases hj : j.val = i
    · subst hj
      simp only [if_true]
      rcases s.chunks_saveMapped j os j with h | ⟨_, h⟩ <;> rw [h] ; exact rfl
    · simp only [if_neg hj]
      rcases s.chunks_saveMapped j os i with h | ⟨h, _⟩
      · rw [h]
      · exact absurd h hj

/-- Unloading acts on its own cell. Source: `torrent/chunkmanager.cpp`. Kind: L -/
theorem cell_unload (os : Os) (i : ℕ) :
    (s.unload os i).cell j = if j.val = i then (s.cell j).unload else s.cell j := by
  unfold unload cell Cell.unload
  rw [modifyChunk_frame, saveMapped_frame]
  simp only [chunks_modifyChunk]
  by_cases hj : j.val = i
  · subst hj
    simp only [if_true]
    rcases s.chunks_saveMapped j os j with h | ⟨_, h⟩ <;> rw [h]
    rfl
  · simp only [if_neg hj]
    rcases s.chunks_saveMapped j os i with h | ⟨h, _⟩
    · rw [h]
    · exact absurd h hj

/-- Saving acts on its own cell. Source: `ChunkManager::saveChunk`. Kind: L -/
theorem cell_saveChunk (os : Os) (i : ℕ) (update_index : Bool) :
    (s.saveChunk os i update_index).1.cell j =
      if j.val = i then (s.cell j).save L.torrent os s.cache update_index else s.cell j := by
  unfold saveChunk cell Cell.save writeIndexFileEntry
  by_cases hi : i < L.numChunks
  · rw [dif_pos hi]
    by_cases hj : j.val = i
    · subst hj
      rw [if_pos rfl]
      cases hx : (s.chunks j).isExcluded
      · cases hw : (s.cache.save L.torrent os (s.chunks j)).2.2
        · simp [hw]
        · cases update_index
          · simp [hw]
          · cases os.index_opens <;> simp [hw]
      · rw [modifyChunk_frame]
        simp [chunks_modifyChunk]
    · rw [if_neg hj]
      have hne : j ≠ ⟨i, hi⟩ := fun h => hj (Fin.ext_iff.mp h)
      dsimp only
      split_ifs <;> simp [hne, get_set_fin, hj, modifyChunk, hi]
  · rw [dif_neg hi, if_neg (by have := j.2; omega)]

/-- Preparing acts on its own cell, if it does anything. Source: `ChunkManager::prepareChunk`.
Kind: L -/
theorem cell_prepareChunk (os : Os) (i : ℕ) (allways : Bool) :
    (s.prepareChunk os i allways).1.cell j =
      if j.val = i ∧ (allways = true ∨ (s.chunks j).status = .notDownloaded) then
        (s.cell j).prep L.torrent os s.cache
      else s.cell j := by
  unfold prepareChunk cell Cell.prep
  by_cases hi : i < L.numChunks
  · rw [dif_pos hi]
    by_cases hj : j.val = i
    · subst hj
      cases allways <;> by_cases hs : (s.chunks j).status = .notDownloaded <;> simp [hs]
    · have hne : j ≠ ⟨i, hi⟩ := fun h => hj (Fin.ext_iff.mp h)
      split_ifs with h h1 h2
      · exact absurd h1.1 hj
      · rfl
      · exact absurd h2.1 hj
      · simp [hne]
  · rw [dif_neg hi, if_neg (by have := j.2; omega)]

end rounds

/-! ### Whole ranges -/

section ranges

variable (s : ChunkManager L) (j : Fin L.numChunks)

/-- **A loop over a range of chunks acts on each cell of the range.**.
Source: `ChunkManager::prioritise`, `exclude`. Kind: L -/
theorem cell_forChunks {f : ℕ → ChunkManager L → ChunkManager L} (g : Cell → Cell)
    (hf : ∀ i (s : ChunkManager L) (j : Fin L.numChunks),
      (f i s).cell j = if j.val = i then g (s.cell j) else s.cell j) (a b : ℕ) :
    (s.forChunks a b f).cell j =
      if min a b ≤ j.val ∧ j.val ≤ max a b then g (s.cell j) else s.cell j := by
  unfold forChunks
  rw [obs_forRange cell Fin.val (fun _ => g) hf]
  have := j.2
  exact if_congr (by omega) rfl rfl

/-- A signal changes no cell. Source: `torrent/chunkmanager.cpp`. Kind: L -/
@[simp] theorem cell_emit (g : Signal) : (s.emit g).cell j = s.cell j := rfl

/-- Setting a priority acts on the cells of the range, whichever way round it is given.
Source: `torrent/chunkmanager.cpp`. Kind: L -/
theorem cell_prioritise (a b : ℕ) (p : Priority) :
    (s.prioritise a b p).cell j =
      if min a b ≤ j.val ∧ j.val ≤ max a b then (s.cell j).prioritise p else s.cell j :=
  s.cell_forChunks j _ (fun i s j => s.cell_prioritiseChunk j p i) a b

/-- Excluding acts on the cells of the range. Source: `ChunkManager::exclude`. Kind: L -/
theorem cell_excludeRange (a b : ℕ) :
    (s.excludeRange a b).cell j =
      if min a b ≤ j.val ∧ j.val ≤ max a b then (s.cell j).exclude else s.cell j :=
  s.cell_forChunks j _ (fun i s j => s.cell_excludeChunk j i) a b

/-- Including acts on the cells of the range. Source: `ChunkManager::include`. Kind: L -/
theorem cell_includeRange (a b : ℕ) :
    (s.includeRange a b).cell j =
      if min a b ≤ j.val ∧ j.val ≤ max a b then (s.cell j).includeBack else s.cell j :=
  s.cell_forChunks j _ (fun i s j => s.cell_includeChunk j i) a b

/-- Resetting acts on the cells of the range. Source: `torrent/chunkmanager.cpp`. Kind: L -/
theorem cell_resetRange (os : ℕ → Os) (lo hi : ℕ) :
    (forRange lo hi (fun i s => s.resetChunk (os i) i) s).cell j =
      if lo ≤ j.val ∧ j.val < hi then (s.cell j).reset else s.cell j :=
  obs_forRange cell Fin.val (fun _ => Cell.reset) (fun i s j => s.cell_resetChunk j (os i) i) _ _ _ _

/-- Writing the priority file changes no cell. Source: `ChunkManager::savePriorityInfo`. Kind: L -/
@[simp] theorem cell_savePriorityInfo : s.savePriorityInfo.cell j = s.cell j := by
  unfold savePriorityInfo
  split_ifs <;> rfl

/-- Telling the cache changes no cell. Source: `torrent/chunkmanager.cpp`. Kind: L -/
@[simp] theorem cell_alertCache (env : Env) (k : ℕ) : (s.alertCache env k).cell j = s.cell j :=
  cell_savePriorityInfo _ j

/-- Writing the index file changes no cell. Source: `ChunkManager::saveIndexFile`. Kind: L -/
@[simp] theorem cell_saveIndexFile (os : Os) : (s.saveIndexFile os).1.cell j = s.cell j := by
  unfold saveIndexFile
  split_ifs
  · exact cell_savePriorityInfo _ j
  · rfl

/-- A chunk that is replaced, with a new cache. Source: `torrent/chunkmanager.cpp`. Kind: L -/
theorem cell_updateChunk (i : Fin L.numChunks) (c : Chunk) (k : Cache) :
    cell { s with chunks := Function.update s.chunks i c, cache := k } j =
      if j = i then { s.cell j with chunk := c } else s.cell j := by
  by_cases hj : j = i
  · subst hj
    simp [cell]
  · simp [cell, hj]

/-- **What asking for a chunk does**: nothing to the other chunks, and to this one nothing, or it is
loaded from disk, or loaded, found invalid and reset. Source: `ChunkManager::grabChunk`. Kind: L -/
theorem cell_grabChunk (os : Os) (size now i : ℕ) :
    (s.grabChunk os size now i).1.cell j = s.cell j ∨
      (j.val = i ∧ (s.chunks j).status = .onDisk ∧ (s.chunks j).isExcluded = false ∧
        ((s.grabChunk os size now i).1.cell j = (s.cell j).load L.torrent os s.cache ∨
          (s.grabChunk os size now i).1.cell j =
            ((s.cell j).load L.torrent os s.cache).reset)) := by
  by_cases hi : i < L.numChunks
  swap
  · exact Or.inl (by unfold grabChunk; rw [dif_neg hi])
  obtain ⟨i, rfl⟩ : ∃ i' : Fin L.numChunks, i'.val = i := ⟨⟨i, hi⟩, rfl⟩
  obtain ⟨s1, h1⟩ : ∃ t, t = { s with
    chunks := Function.update s.chunks i (s.cache.load L.torrent os (s.chunks i)).1
    cache := (s.cache.load L.torrent os (s.chunks i)).2.1 } := ⟨_, rfl⟩
  have hload : s1.cell j = if j = i then (s.cell j).load L.torrent os s.cache else s.cell j := by
    rw [h1, cell_updateChunk]
    by_cases hj : j = i
    · subst hj
      simp only [if_true]
      rfl
    · simp only [if_neg hj]
  by_cases hx : (s.chunks i).status = .notDownloaded ∨ (s.chunks i).isExcluded
  · refine Or.inl ?_
    unfold grabChunk
    simp only [dif_pos i.2, if_pos hx]
  by_cases hd : (s.chunks i).status = .onDisk
  swap
  · refine Or.inl ?_
    unfold grabChunk
    simp only [dif_pos i.2, if_neg hx, if_neg hd]
    rfl
  obtain ⟨r, hr⟩ : ∃ r, r = if j.val = i.val then (s1.cell j).reset else s1.cell j := ⟨_, rfl⟩
  have hreset : ∀ t : ChunkManager L, t.cell j = s1.cell j → (t.resetChunk os i).cell j = r := by
    intro t ht
    rw [cell_resetChunk, ht, hr]
  have hcell : (s.grabChunk os size now i).1.cell j = s1.cell j ∨
      (s.grabChunk os size now i).1.cell j = r := by
    unfold grabChunk
    simp only [dif_pos i.2, if_neg hx, if_pos hd]
    subst h1
    split_ifs
    · exact Or.inl rfl
    · exact Or.inr ((cell_saveIndexFile _ _ _).trans (hreset _ rfl))
    · exact Or.inr ((cell_saveIndexFile _ _ _).trans (hreset _ rfl))
    · exact Or.inl rfl
    · exact Or.inl rfl
  rw [hr] at hcell
  by_cases hj : j = i
  · subst hj
    simp only [if_true] at hload hcell
    rw [not_or, Bool.not_eq_true] at hx
    rw [hload] at hcell
    exact Or.inr ⟨rfl, hd, hx.2, hcell⟩
  · rw [if_neg hj] at hload
    rw [if_neg (fun h => hj (Fin.ext h)), hload, or_self] at hcell
    exact Or.inl hcell

/-- A round of a loop leaves every other chunk alone and acts on its own.
Source: `torrent/chunkmanager.cpp`. Kind: L -/
theorem cell_modifyChunk (i : ℕ) (f : Chunk → Chunk) :
    (s.modifyChunk i f).cell j =
      if j.val = i then { s.cell j with chunk := f (s.chunks j) } else s.cell j := by
  unfold cell
  rw [modifyChunk_frame]
  simp only [chunks_modifyChunk]
  split_ifs <;> rfl

/-- The chunk at an index in range. Source: `ChunkManager::getChunk`. Kind: L -/
theorem getChunk_val : s.getChunk j = some (s.chunks j) := dif_pos j.2

/-- One round of `stop`. Source: `ChunkManager::stop`. Kind: L -/
theorem cell_stopChunk (env : Env) (i : ℕ) :
    (s.stopChunk env i).cell j =
      if j.val = i then (if (s.cell j).inMemory then (s.cell j).unload else s.cell j)
      else s.cell j := by
  unfold stopChunk
  by_cases hj : j.val = i
  · subst hj
    rw [getChunk_val, if_pos rfl]
    simp only [Option.map_some, Cell.inMemory]
    cases hs : (s.chunks j).status
    · simp [cell_unload, hs]
    · simp [cell_modifyChunk, hs, Cell.unload]
    · simp [hs]
    · simp [hs]
  · rw [if_neg hj]
    split
    · rw [cell_unload, if_neg hj]
    · rw [cell_modifyChunk, if_neg hj]
    · rfl

/-- Stopping unloads the cells whose data is in memory. Source: `ChunkManager::stop`. Kind: L -/
theorem cell_stop (env : Env) :
    (s.stop env).cell j = if (s.cell j).inMemory then (s.cell j).unload else s.cell j := by
  unfold stop
  rw [obs_forRange cell Fin.val (fun _ c => if c.inMemory then c.unload else c)
    (fun i s j => s.cell_stopChunk j env i), if_pos ⟨Nat.zero_le _, j.2⟩]

/-- A chunk nobody has taken is unloaded. Source: `ChunkManager::releaseChunk`. Kind: L -/
theorem cell_releaseChunk (os : Os) (i : ℕ) :
    (s.releaseChunk os i).cell j =
      if j.val = i ∧ (s.chunks j).taken = false then (s.cell j).unload else s.cell j := by
  unfold releaseChunk
  by_cases hj : j.val = i
  · subst hj
    cases ht : (s.chunks j).taken
    · rw [if_neg (by simp [taken, getChunk_val, ht])]
      exact (cell_unload s j os j).trans (by simp)
    · rw [if_pos (by simp [taken, getChunk_val, ht])]
      simp
  · rw [if_neg (c := j.val = i ∧ (s.chunks j).taken = false) (fun h => hj h.1)]
    split_ifs
    · rfl
    · exact (cell_unload s j os i).trans (if_neg hj)

/-- The chunks `checkMemoryUsage` throws out. Kind: D -/
def expires (now : ℕ) (t : Option ℕ) (c : Cell) : Bool :=
  !c.chunk.taken && t.any fun t => decide (sub64 now t > 5000)

/-- One round of the memory check: what expires is unloaded and forgotten.
Source: `ChunkManager::checkMemoryUsage`. Kind: L -/
theorem cell_expireChunk (env : Env) (now i : ℕ) :
    ((s.expireChunk env now i).cell j, (s.expireChunk env now i).loaded j) =
      if j.val = i then
        if expires now (s.loaded j) (s.cell j) then ((s.cell j).unload, none)
        else (s.cell j, s.loaded j)
      else (s.cell j, s.loaded j) := by
  unfold expireChunk
  by_cases hj : j.val = i
  · subst hj
    have ht : s.taken j = (s.chunks j).taken := by simp [taken, getChunk_val]
    rw [if_pos rfl, ht]
    rcases hl : s.loaded j with _ | t
    · simp [expires, hl]
    · have hu := s.cell_unload j (env.chunk j) j
      rw [if_pos rfl] at hu
      simp only [expires, Option.any_some, cell_chunk, Bool.and_eq_true, decide_eq_true_eq]
      split_ifs
      · exact Prod.ext hu (Function.update_self _ _ _)
      · rw [hl]
  · have hne : Function.update s.loaded i none j.val = s.loaded j := Function.update_of_ne hj _ _
    have hu := s.cell_unload j (env.chunk i) i
    have hl : (s.unload (env.chunk i) i).loaded = s.loaded := by
      unfold unload
      rw [modifyChunk_frame, saveMapped_frame]
    rw [if_neg hj] at hu ⊢
    rcases s.loaded i with _ | t
    · rfl
    · dsimp only
      rw [hl]
      split_ifs
      · exact Prod.ext hu hne
      · rfl

/-- The memory check unloads the cells that expire. Source: `ChunkManager::checkMemoryUsage`.
Kind: L -/
theorem cell_checkMemoryUsage (env : Env) (now : ℕ) :
    (s.checkMemoryUsage env now).cell j =
      if expires now (s.loaded j) (s.cell j) then (s.cell j).unload else s.cell j := by
  have h := obs_forRange (fun (s : ChunkManager L) j => (s.cell j, s.loaded j)) Fin.val
    (fun _ p => if expires now p.2 p.1 then (p.1.unload, none) else p)
    (fun i s j => s.cell_expireChunk j env now i) 0 L.numChunks s j
  rw [if_pos ⟨Nat.zero_le _, j.2⟩] at h
  refine (congrArg Prod.fst h).trans ?_
  split_ifs <;> rfl

/-- One round of a data check's result. Source: `ChunkManager::dataChecked`. Kind: L -/
theorem cell_dataCheckedChunk (env : Env) (ok_chunks : BitSet L.numChunks) (i : ℕ) :
    (s.dataCheckedChunk env ok_chunks i).cell j =
      if j.val = i then (s.cell j).check (ok_chunks.get i) else s.cell j := by
  by_cases hj : j.val = i
  · subst hj
    rw [if_pos rfl]
    unfold dataCheckedChunk Cell.check Cell.inMemory
    simp only [Bool.not_eq_true', cell_owned]
    by_cases h1 : ok_chunks.get j = true ∧ s.bitset.get j = false
    · rw [if_pos h1, if_pos h1, cell_modifyChunk, if_pos rfl]
      simp [cell]
    rw [if_neg h1, if_neg h1]
    by_cases h2 : ok_chunks.get j = false ∧ s.bitset.get j = true
    swap
    · rw [if_neg h2, if_neg h2]
    rw [if_pos h2, if_pos h2]
    simp only [getChunk_val, Option.map_some, cell_chunk]
    have hstatus : (s.chunks j).status = .mmapped ∨ (s.chunks j).status = .buffered ∨
        (s.chunks j).status = .onDisk ∨ (s.chunks j).status = .notDownloaded := by
      cases (s.chunks j).status <;> simp
    rcases hstatus with hs | hs | hs | hs <;> simp only [hs]
    · rw [cell_resetChunk, if_pos rfl]
      simp [cell, Cell.reset]
    · rw [cell_resetChunk, if_pos rfl]
      simp [cell, Cell.reset]
    · rw [cell_modifyChunk, if_pos rfl]
      simp [cell]
    · have hc : { s.chunks j with status := .notDownloaded } = s.chunks j := by rw [← hs]
      simp [cell, hc]
  · rw [if_neg hj]
    unfold dataCheckedChunk
    split_ifs
    · rw [cell_modifyChunk, if_neg hj]
      simp [cell, get_set_fin, hj]
    · dsimp only
      split
      · rw [cell_modifyChunk, if_neg hj]
        simp [cell, get_set_fin, hj]
      · rw [cell_resetChunk, if_neg hj]
        simp [cell, get_set_fin, hj]
      · rw [cell_resetChunk, if_neg hj]
        simp [cell, get_set_fin, hj]
      · simp [cell, get_set_fin, hj]
    · rfl

/-- A data check acts on every cell by its own bit. Source: `ChunkManager::dataChecked`. Kind: L -/
theorem cell_dataChecked (env : Env) (ok_chunks : BitSet L.numChunks) :
    (s.dataChecked env ok_chunks).cell j = (s.cell j).check (ok_chunks.get j) := by
  refine (cell_saveIndexFile _ j env.file).trans ?_
  rw [obs_forRange cell Fin.val (fun i c => c.check (ok_chunks.get i))
    (fun i s j => s.cell_dataCheckedChunk j env ok_chunks i), if_pos ⟨Nat.zero_le _, j.2⟩]

end ranges

/-- **Exact conditions lift from cells to ranges**: an operation that acts on some cells by `g`
keeps `Q` everywhere iff it keeps it on each of those. Source: `torrent/chunkmanager.cpp`.
Kind: L -/
theorem forall_cell_iff {Q : Cell → Prop} {s t : ChunkManager L} (hs : ∀ i, Q (s.cell i))
    {inside : Fin L.numChunks → Prop} [DecidablePred inside] {g : Cell → Cell}
    {ok : Fin L.numChunks → Prop} (ht : ∀ i, t.cell i = if inside i then g (s.cell i) else s.cell i)
    (hg : ∀ i, Q (s.cell i) → (Q (g (s.cell i)) ↔ ok i)) :
    (∀ i, Q (t.cell i)) ↔ ∀ i, inside i → ok i := by
  refine forall_congr' fun i => ?_
  rw [ht i]
  by_cases hi : inside i
  · rw [if_pos hi, hg i (hs i)]
    exact ⟨fun h _ => h, fun h => h hi⟩
  · rw [if_neg hi]
    exact ⟨fun _ h => absurd h hi, fun _ => hs i⟩

/-! ### The selection of the files -/

section files

variable (s : ChunkManager L)

/-- A change of a chunk leaves the files. Source: `torrent/chunkmanager.cpp`. Kind: L -/
@[simp] theorem files_modifyChunk (i : ℕ) (f : Chunk → Chunk) :
    (s.modifyChunk i f).files = s.files := by
  rw [modifyChunk_frame]

/-- A reset leaves the files. Source: `ChunkManager::resetChunk`. Kind: L -/
@[simp] theorem files_resetChunk (os : Os) (i : ℕ) : (s.resetChunk os i).files = s.files := by
  unfold resetChunk
  split_ifs
  · rfl
  · rw [modifyChunk_frame, saveMapped_frame]

/-- Setting chunk priorities leaves those of the files. Source: `torrent/chunkmanager.cpp`.
Kind: L -/
@[simp] theorem files_prioritise (a b : ℕ) (p : Priority) :
    (s.prioritise a b p).files = s.files := by
  refine forRange_frame ChunkManager.files (fun i _ _ s => ?_) s
  unfold prioritiseChunk
  split <;> simp

/-- Excluding chunks leaves the files. Source: `ChunkManager::exclude`. Kind: L -/
@[simp] theorem files_excludeRange (a b : ℕ) : (s.excludeRange a b).files = s.files :=
  forRange_frame ChunkManager.files (fun i _ _ s => by simp [excludeChunk]) s

/-- Including chunks leaves the files. Source: `ChunkManager::include`. Kind: L -/
@[simp] theorem files_includeRange (a b : ℕ) : (s.includeRange a b).files = s.files :=
  forRange_frame ChunkManager.files (fun i _ _ s => by simp [includeChunk]) s

/-- Writing the priority file leaves the files. Source: `ChunkManager::savePriorityInfo`. Kind: L -/
@[simp] theorem files_savePriorityInfo : s.savePriorityInfo.files = s.files := by
  unfold savePriorityInfo
  split_ifs <;> rfl

/-- Telling the cache leaves the files. Source: `torrent/chunkmanager.cpp`. Kind: L -/
@[simp] theorem files_alertCache (env : Env) (k : ℕ) : (s.alertCache env k).files = s.files :=
  files_savePriorityInfo _

/-- Resetting a range leaves the files. Source: `torrent/chunkmanager.cpp`. Kind: L -/
@[simp] theorem files_resetRange (os : ℕ → Os) (lo hi : ℕ) :
    (forRange lo hi (fun i s => s.resetChunk (os i) i) s).files = s.files :=
  forRange_frame ChunkManager.files (fun i _ _ s => s.files_resetChunk (os i) i) s

/-- Resetting a file's chunks leaves the files. Source: `ChunkManager::downloadStatusChanged`.
Kind: L -/
@[simp] theorem files_resetFile (env : Env) (k : ℕ) : (s.resetFile env k).files = s.files := by
  unfold resetFile
  dsimp only
  split_ifs <;> simp

end files

/-! ### The signals -/

section signals

variable (s : ChunkManager L)

/-- A change of a chunk sends no signal. Source: `torrent/chunkmanager.cpp`. Kind: L -/
@[simp] theorem signals_modifyChunk (i : ℕ) (f : Chunk → Chunk) :
    (s.modifyChunk i f).signals = s.signals := by
  rw [modifyChunk_frame]

/-- A reset sends no signal. Source: `ChunkManager::resetChunk`. Kind: L -/
@[simp] theorem signals_resetChunk (os : Os) (i : ℕ) : (s.resetChunk os i).signals = s.signals := by
  unfold resetChunk
  split_ifs
  · rfl
  · rw [modifyChunk_frame, saveMapped_frame]

/-- Setting priorities sends no signal. Source: `torrent/chunkmanager.cpp`. Kind: L -/
@[simp] theorem signals_prioritise (a b : ℕ) (p : Priority) :
    (s.prioritise a b p).signals = s.signals := by
  refine forRange_frame ChunkManager.signals (fun i _ _ s => ?_) s
  unfold prioritiseChunk
  split <;> simp

/-- Excluding a range is announced. Source: `ChunkManager::exclude`. Kind: L -/
@[simp] theorem signals_excludeRange (a b : ℕ) : (s.excludeRange a b).signals =
    s.signals ++ [.excluded (min a b) (max a b)] := by
  have h : (s.forChunks a b excludeChunk).signals = s.signals :=
    forRange_frame ChunkManager.signals (fun i _ _ s => by simp [excludeChunk]) s
  exact congrArg (· ++ [Signal.excluded (min a b) (max a b)]) h

/-- So is including one. Source: `ChunkManager::include`. Kind: L -/
@[simp] theorem signals_includeRange (a b : ℕ) : (s.includeRange a b).signals =
    s.signals ++ [.included (min a b) (max a b)] := by
  have h : (s.forChunks a b includeChunk).signals = s.signals :=
    forRange_frame ChunkManager.signals (fun i _ _ s => by simp [includeChunk]) s
  exact congrArg (· ++ [Signal.included (min a b) (max a b)]) h

/-- Writing the priority file sends no signal. Source: `ChunkManager::savePriorityInfo`. Kind: L -/
@[simp] theorem signals_savePriorityInfo : s.savePriorityInfo.signals = s.signals := by
  unfold savePriorityInfo
  split_ifs <;> rfl

/-- Telling the cache sends no signal. Source: `torrent/chunkmanager.cpp`. Kind: L -/
@[simp] theorem signals_alertCache (env : Env) (k : ℕ) :
    (s.alertCache env k).signals = s.signals :=
  signals_savePriorityInfo _

/-- Resetting a range sends no signal. Source: `torrent/chunkmanager.cpp`. Kind: L -/
@[simp] theorem signals_resetRange (os : ℕ → Os) (lo hi : ℕ) :
    (forRange lo hi (fun i s => s.resetChunk (os i) i) s).signals = s.signals :=
  forRange_frame ChunkManager.signals (fun i _ _ s => s.signals_resetChunk (os i) i) s

/-- Resetting a file's chunks sends no signal. Source: `ChunkManager::downloadStatusChanged`.
Kind: L -/
@[simp] theorem signals_resetFile (env : Env) (k : ℕ) :
    (s.resetFile env k).signals = s.signals := by
  unfold resetFile
  dsimp only
  split_ifs <;> simp

end signals

end ChunkManager

end KTorrent.Storage
