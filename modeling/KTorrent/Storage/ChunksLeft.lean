import KTorrent.Storage.DerivedSizes

/-!
# The cached number of chunks that are left

`chunksLeft` keeps its result in `chunks_left` and counts again when `recalc_chunks_left` is set.
Everything that changes the result sets the flag, but for resets: `resetChunk` does not set it, and
`grabChunk` sets it only after the index file has been written.

* `Counted L` — the chunk manager with the two members, and with the number of chunks lost since the
  last count.
* `Call` — the functions of the chunk manager that change the chunks or the sets, one at a time;
  `act`, `marks` and `loses` are what each does. `Op.calls` says which of them the larger operations
  consist of, and `run_calls` that their effect is the one defined for them.
* `Books` — when a call keeps the sets and the priorities in agreement; `Current` — when a count is
  not out of date.
* `derived_run_iff` — in a run that keeps the books, the four derived sizes are right at every call
  exactly as long as every count is current.
* `reset_uncounted` — deselecting a file that shares its first chunk: the border chunk is given a
  new priority before the flag is set, and the statistics that this updates are out of date.

Source: `torrent/chunkmanager.cpp`
-/

namespace KTorrent.Storage

open KTorrent.Lib KTorrent.Util

/-- The chunk manager with its cached count. Source: `torrent/chunkmanager.h`, `ChunkManager`.
Kind: D -/
structure Counted (L : Layout) where
  cman : ChunkManager L
  chunks_left : ℕ := 0
  recalc_chunks_left : Bool := true
  /-- How many chunks, owned and not excluded, have been reset since `chunks_left` was computed. -/
  lost : ℕ := 0

namespace ChunkManager

/-- A function of the chunk manager that changes chunks, sets, files or cache. A larger operation is
a list of them. Kind: D -/
inductive Call (L : Layout)
  | prioritise (first last : ℕ) (p : Priority)
  | exclude (first last : ℕ)
  | includeBack (first last : ℕ)
  | resetChunk (os : Os) (i : ℕ)
  | saveChunk (os : Os) (i : ℕ) (update_index : Bool)
  | prepareChunk (os : Os) (i : ℕ) (allways : Bool)
  | grabChunk (os : Os) (max_chunk_size_for_data_check now i : ℕ)
  | releaseChunk (os : Os) (i : ℕ)
  | checkMemoryUsage (env : Env) (now : ℕ)
  | stop (env : Env)
  | saveIndexFile (os : Os)
  | dataChecked (env : Env) (ok_chunks : BitSet L.numChunks)
  /-- One round of `loadIndexFile`. -/
  | loadHeader (index : ℕ)
  | choose (k : Fin L.files.length) (f : FileSelection)
  | savePriorityInfo
  /-- `cache->downloadStatusChanged(tf,download); savePriorityInfo();` -/
  | alertCache (env : Env) (k : ℕ)
  | emit (g : Signal)
  /-- The files are created or written to: `cache->create()`, or another program. -/
  | write (cache : Cache)
  /-- `recalc_chunks_left = true;` in `recreateMissingFiles` and `dndMissingFiles`. -/
  | mark
  | chunksLeft

namespace Call

variable {L : Layout}

/-- What a call does to chunks, sets, files and cache. Kind: D -/
def act (s : ChunkManager L) : Call L → ChunkManager L
  | .prioritise first last p => s.prioritise first last p
  | .exclude first last => s.excludeRange first last
  | .includeBack first last => s.includeRange first last
  | .resetChunk os i => s.resetChunk os i
  | .saveChunk os i update_index => (s.saveChunk os i update_index).1
  | .prepareChunk os i allways => (s.prepareChunk os i allways).1
  | .grabChunk os size now i => (s.grabChunk os size now i).1
  | .releaseChunk os i => s.releaseChunk os i
  | .checkMemoryUsage env now => s.checkMemoryUsage env now
  | .stop env => s.stop env
  | .saveIndexFile os => (s.saveIndexFile os).1
  | .dataChecked env ok_chunks => s.dataChecked env ok_chunks
  | .loadHeader index => s.loadHeader index
  | .choose k f => { s with files := Function.update s.files k f }
  | .savePriorityInfo => s.savePriorityInfo
  | .alertCache env k => s.alertCache env k
  | .emit g => ChunkManager.emit g s
  | .write cache => { s with cache := cache }
  | .mark => s
  | .chunksLeft => s

/-- Whether the call reaches `recalc_chunks_left = true`; in `grabChunk` that statement stands before
`corrupted_count++`. Kind: D -/
def marks (s : ChunkManager L) : Call L → Bool
  | .exclude _ _ | .includeBack _ _ | .dataChecked _ _ | .mark => true
  | .saveChunk os i update_index =>
      (s.getChunk i).any fun c =>
        !c.isExcluded && (s.cache.save L.torrent os c).2.2 && update_index
  | .grabChunk os size now i =>
      decide ((s.grabChunk os size now i).1.corrupted_count ≠ s.corrupted_count)
  | .loadHeader index => decide (index < L.numChunks)
  | _ => false

/-- Whether chunk `i` is owned and not excluded. Kind: D -/
def held (s : ChunkManager L) (i : ℕ) : Bool :=
  s.bitset.get i && (s.getChunk i).any fun c => !c.isExcluded

/-- Whether the call resets a chunk that was owned and not excluded. Kind: D -/
def loses (s : ChunkManager L) : Call L → Bool
  | .resetChunk _ i => held s i
  | .grabChunk os size now i => held s i && !(s.grabChunk os size now i).1.bitset.get i
  | _ => false

/-- Whether the call ends with `chunksLeft()`. Kind: D -/
def counts : Call L → Bool
  | .dataChecked _ _ | .chunksLeft => true
  | _ => false

end Call

end ChunkManager

namespace Counted

open ChunkManager

variable {L : Layout}

/-- Source: `ChunkManager::chunksLeft`. Kind: D -/
def chunksLeft (s : Counted L) : Counted L × ℕ :=
  if !s.recalc_chunks_left then (s, s.chunks_left)
  else
    let num := s.cman.chunksLeft
    ({ s with chunks_left := num, recalc_chunks_left := false, lost := 0 }, num)

/-- The state after a call. Kind: D -/
def step (s : Counted L) (c : Call L) : Counted L :=
  let s' := { s with
    cman := c.act s.cman
    recalc_chunks_left := s.recalc_chunks_left || c.marks s.cman
    lost := s.lost + if c.loses s.cman then 1 else 0 }
  if c.counts then s'.chunksLeft.1 else s'

/-- The chunk manager of a torrent just loaded. Source: `ChunkManager::ChunkManager`. Kind: D -/
def start (L : Layout) (env : Env) (saved : Saved) : Counted L :=
  { cman := construct L env (fun _ => {}) saved }

/-- When a call keeps the sets and the priorities in agreement. Kind: D -/
def Books (s : Counted L) : Call L → Prop
  | .prioritise first last p => s.cman.Keeps (.prioritise first last p)
  | .includeBack first last => s.cman.Keeps (.includeBack first last)
  | _ => True

/-- A count is current when it is made anew, or when no chunk has been lost since the last one.
Kind: D -/
def Current (s : Counted L) (c : Call L) : Prop :=
  c = .chunksLeft → s.recalc_chunks_left = true ∨ s.lost = 0

/-- **The derived sizes are right** in the state a call is made in, and for a count its result.
Kind: D -/
structure Derived (s : Counted L) (c : Call L) : Prop where
  bytesLeft : s.cman.bytesLeft = L.total fun i => s.cman.bitset.get i = false
  bytesLeftToDownload : s.cman.bytesLeftToDownload = L.total fun i => s.cman.todo.get i = true
  bytesExcluded : s.cman.bytesExcluded = L.total fun i =>
    (s.cman.chunks i).priority = .excluded ∨ (s.cman.chunks i).priority = .onlySeed
  bytesExcluded_le : s.cman.bytesExcluded ≤ L.file_length
  totalBytesToDownload : s.cman.totalBytesToDownload = L.file_length - s.cman.bytesExcluded
  chunksLeft : c = .chunksLeft → s.chunksLeft.2 =
    (Finset.univ.filter fun i : Fin L.numChunks =>
      s.cman.bitset.get i = false ∧ (s.cman.chunks i).priority ≠ .excluded).card

/-- What every run that keeps the books leaves: the cached count is behind by the chunks that were
lost. Kind: D -/
structure Holds (s : Counted L) : Prop where
  books : s.cman.Bookkept
  sized : s.cman.Sized
  behind : s.recalc_chunks_left = false → s.cman.chunksLeft = s.chunks_left + s.lost

end Counted

/-! ### What a call does to a chunk -/

namespace Cell

variable {c c' : Cell}

/-- What is left depends on the bit and the priority. Source: none: infrastructure. Kind: L -/
theorem left_congr (howned : c'.owned = c.owned)
    (hprio : c'.chunk.priority = c.chunk.priority) : c'.left = c.left := by
  unfold left Chunk.isExcluded
  rw [howned, hprio]

/-- Cells with the same books leave the same. Source: `torrent/chunkmanager.cpp`. Kind: L -/
theorem SameBooks.left_eq (h : SameBooks c c') : c'.left = c.left :=
  left_congr h.owned h.priority

end Cell

namespace ChunkManager

variable {L : Layout}

section cells

variable (s : ChunkManager L) (j : Fin L.numChunks)

/-- An index entry sets its own cell. Source: `ChunkManager::loadIndexFile`. Kind: L -/
theorem cell_loadHeader (index : ℕ) :
    (s.loadHeader index).cell j =
      if j.val = index then
        { s.cell j with
          chunk := { s.chunks j with status := .onDisk }
          owned := true
          todo := false }
      else s.cell j := by
  unfold loadHeader
  by_cases hi : index < L.numChunks
  · rw [if_pos hi, cell_modifyChunk]
    by_cases hj : j.val = index
    · subst hj
      rw [if_pos rfl, if_pos rfl]
      simp [cell]
    · rw [if_neg hj, if_neg hj]
      simp [cell, get_set_fin, hj]
  · rw [if_neg hi, if_neg]
    intro hj
    exact hi (hj ▸ j.2)

/-- Loading keeps a chunk's size. Source: `torrent/chunkmanager.cpp`. Kind: L -/
theorem size_load (os : Os) (k : Cache) (c : Cell) :
    (c.load L.torrent os k).chunk.size = c.chunk.size := by
  show (k.load L.torrent os c.chunk).1.size = _
  obtain h | ⟨d, st, -, h⟩ := k.load_chunk_cases L.torrent os c.chunk <;> rw [h]
  rfl

/-- No call changes the size of a chunk. Source: `torrent/chunkmanager.cpp`. Kind: L -/
theorem size_act (c : Call L) : ((c.act s).cell j).chunk.size = (s.cell j).chunk.size := by
  cases c with
  | prioritise first last p =>
    refine (congrArg (·.chunk.size) (s.cell_prioritise j first last p)).trans ?_
    split_ifs <;> rfl
  | exclude first last =>
    refine (congrArg (·.chunk.size) (s.cell_excludeRange j first last)).trans ?_
    split_ifs <;> rfl
  | includeBack first last =>
    refine (congrArg (·.chunk.size) (s.cell_includeRange j first last)).trans ?_
    split_ifs <;> rfl
  | resetChunk os i =>
    refine (congrArg (·.chunk.size) (s.cell_resetChunk j os i)).trans ?_
    split_ifs <;> rfl
  | saveChunk os i update_index =>
    refine (congrArg (·.chunk.size) (s.cell_saveChunk j os i update_index)).trans ?_
    split_ifs
    · unfold Cell.save
      split_ifs
      · rfl
      · exact (s.cache.save_chunk_frame L.torrent os (s.chunks j)).2.1
    · rfl
  | prepareChunk os i allways =>
    refine (congrArg (·.chunk.size) (s.cell_prepareChunk j os i allways)).trans ?_
    split_ifs
    · obtain ⟨d, st, -, h⟩ := s.cache.prep_chunk_cases L.torrent os (s.chunks j)
      show (s.cache.prep L.torrent os (s.chunks j)).1.size = _
      rw [h]
      rfl
    · rfl
  | grabChunk os size now i =>
    show ((s.grabChunk os size now i).1.cell j).chunk.size = _
    obtain h | ⟨-, -, -, h | h⟩ := s.cell_grabChunk j os size now i <;> rw [h]
    · exact size_load os s.cache (s.cell j)
    · exact size_load os s.cache (s.cell j)
  | releaseChunk os i =>
    refine (congrArg (·.chunk.size) (s.cell_releaseChunk j os i)).trans ?_
    split_ifs <;> rfl
  | checkMemoryUsage env now =>
    refine (congrArg (·.chunk.size) (s.cell_checkMemoryUsage j env now)).trans ?_
    split_ifs <;> rfl
  | stop env =>
    refine (congrArg (·.chunk.size) (s.cell_stop j env)).trans ?_
    split_ifs <;> rfl
  | saveIndexFile os => exact congrArg (·.chunk.size) (s.cell_saveIndexFile j os)
  | dataChecked env ok_chunks =>
    refine (congrArg (·.chunk.size) (s.cell_dataChecked j env ok_chunks)).trans ?_
    unfold Cell.check
    split_ifs <;> rfl
  | loadHeader index =>
    refine (congrArg (·.chunk.size) (s.cell_loadHeader j index)).trans ?_
    split_ifs <;> rfl
  | savePriorityInfo => exact congrArg (·.chunk.size) (s.cell_savePriorityInfo j)
  | alertCache env k => exact congrArg (·.chunk.size) (s.cell_alertCache j env k)
  | choose k f => rfl
  | emit g => rfl
  | write cache => rfl
  | mark => rfl
  | chunksLeft => rfl

end cells

end ChunkManager

namespace Counted

open ChunkManager

variable {L : Layout} {s : Counted L} {c : Call L}

/-- **A call keeps the books** under its condition. Source: `torrent/chunkmanager.cpp`. Kind: L -/
theorem bookkept_act (hs : s.cman.Bookkept) (hc : Books s c) : (c.act s.cman).Bookkept := by
  have hcells : ∀ t : ChunkManager L, (∀ j, t.cell j = s.cman.cell j) → t.Bookkept := by
    intro t ht
    rw [bookkept_iff]
    intro j
    rw [ht j]
    exact bookkept_iff.mp hs j
  cases c with
  | prioritise first last p => exact (bookkept_apply_iff hs (.prioritise first last p)).mpr hc
  | includeBack first last => exact (bookkept_apply_iff hs (.includeBack first last)).mpr hc
  | exclude first last => exact (bookkept_apply_iff hs (.exclude first last)).mpr trivial
  | resetChunk os i => exact (bookkept_apply_iff hs (.resetChunk os i)).mpr trivial
  | saveChunk os i u => exact (bookkept_apply_iff hs (.saveChunk os i u)).mpr trivial
  | prepareChunk os i a => exact (bookkept_apply_iff hs (.prepareChunk os i a)).mpr trivial
  | grabChunk os size now i =>
    exact (bookkept_apply_iff hs (.grabChunk os size now i)).mpr trivial
  | releaseChunk os i => exact (bookkept_apply_iff hs (.releaseChunk os i)).mpr trivial
  | checkMemoryUsage env now =>
    exact (bookkept_apply_iff hs (.checkMemoryUsage env now)).mpr trivial
  | stop env => exact (bookkept_apply_iff hs (.stop env)).mpr trivial
  | saveIndexFile os => exact (bookkept_apply_iff hs (.saveIndexFile os)).mpr trivial
  | dataChecked env ok => exact (bookkept_apply_iff hs (.dataChecked env ok)).mpr trivial
  | choose k f => exact (bookkept_apply_iff hs (.choose k f)).mpr trivial
  | loadHeader index =>
    rw [bookkept_iff]
    intro j
    have hj := bookkept_iff.mp hs j
    show ((s.cman.loadHeader index).cell j).Kept
    rw [cell_loadHeader]
    refine Cell.kept_ite _ ⟨hj.excluded_iff, hj.onlySeed_iff, ?_⟩ hj
    simp
  | savePriorityInfo => exact hcells _ fun j => s.cman.cell_savePriorityInfo j
  | alertCache env k => exact hcells _ fun j => s.cman.cell_alertCache j env k
  | emit g => exact hcells _ fun _ => rfl
  | write cache => exact hcells _ fun _ => rfl
  | mark => exact hs
  | chunksLeft => exact hs

/-- A reset adds one to the count when the chunk was owned and not excluded.
Source: `ChunkManager::chunksLeft`. Kind: L -/
theorem chunksLeft_reset {t u : ChunkManager L} {i : Fin L.numChunks}
    (hother : ∀ j, j ≠ i → u.cell j = t.cell j) (howned : (u.cell i).owned = false)
    (hprio : (u.cell i).chunk.priority = (t.cell i).chunk.priority) :
    u.chunksLeft = t.chunksLeft + if Call.held t i then 1 else 0 := by
  have hone := chunksLeft_of_one i fun j hj => congrArg Cell.left (hother j hj)
  have hheld : Call.held t i = ((t.cell i).owned && !(t.cell i).chunk.isExcluded) := by
    simp [Call.held, getChunk_val]
  have hx : (u.cell i).chunk.isExcluded = (t.cell i).chunk.isExcluded := by
    unfold Chunk.isExcluded
    rw [hprio]
  rw [hheld]
  simp only [Cell.left, howned, hx] at hone
  cases ho : (t.cell i).owned <;> cases he : (t.cell i).chunk.isExcluded <;>
    simp only [ho, he] at hone ⊢ <;> simpa using hone

/-- No chunk beyond the last is held. Source: `torrent/chunkmanager.cpp`. Kind: L -/
theorem held_of_le {t : ChunkManager L} {i : ℕ} (hi : L.numChunks ≤ i) :
    Call.held t i = false := by
  unfold Call.held
  rw [BitSet.get_of_le _ hi, Bool.false_and]

/-- Asking for a chunk changes the count only by losing it. Source: `ChunkManager::chunksLeft`.
Kind: L -/
theorem chunksLeft_grabChunk (t : ChunkManager L) (os : Os) (size now i : ℕ) :
    (t.grabChunk os size now i).1.chunksLeft =
      t.chunksLeft + if (Call.grabChunk (L := L) os size now i).loses t then 1 else 0 := by
  obtain ⟨u, hu⟩ : ∃ u, u = (t.grabChunk os size now i).1 := ⟨_, rfl⟩
  have hcell := fun j => t.cell_grabChunk j os size now i
  show _ = t.chunksLeft + if (Call.held t i && !(t.grabChunk os size now i).1.bitset.get i) = true
    then 1 else 0
  simp only [← hu] at hcell ⊢
  by_cases hi : i < L.numChunks
  swap
  · rw [held_of_le (Nat.le_of_not_lt hi), Bool.false_and, if_neg (by simp)]
    refine chunksLeft_congr fun j => congrArg Cell.left ?_
    obtain h | ⟨h, -⟩ := hcell j
    · exact h
    · exact absurd (h ▸ j.2) hi
  obtain ⟨k, rfl⟩ : ∃ k : Fin L.numChunks, k.val = i := ⟨⟨i, hi⟩, rfl⟩
  have hother : ∀ j, j ≠ k → u.cell j = t.cell j := by
    intro j hj
    obtain h | ⟨h, -⟩ := hcell j
    · exact h
    · exact absurd (Fin.ext h) hj
  have hsame : ∀ c : Cell, u.cell k = c → c.owned = (t.cell k).owned →
      c.chunk.priority = (t.cell k).chunk.priority → u.chunksLeft =
        t.chunksLeft + if (Call.held t k && !u.bitset.get k) = true then 1 else 0 := by
    intro c hc howned hprio
    have hbit : u.bitset.get k = t.bitset.get k := (congrArg Cell.owned hc).trans howned
    have hkeep : (Call.held t k && !u.bitset.get k) = false := by
      rw [hbit]
      unfold Call.held
      cases t.bitset.get k <;> simp
    rw [hkeep, if_neg (by simp)]
    refine chunksLeft_congr fun j => ?_
    by_cases hj : j = k
    · subst hj
      rw [hc]
      exact Cell.left_congr howned hprio
    · rw [hother j hj]
  have hload : ((t.cell k).load L.torrent os t.cache).chunk.priority =
      (t.cell k).chunk.priority := t.cache.load_chunk_priority L.torrent os _
  obtain h | ⟨-, -, -, h | h⟩ := hcell k
  · exact hsame _ h rfl rfl
  · exact hsame _ h rfl hload
  · have howned : (u.cell k).owned = false := by
      rw [h]
      rfl
    have hbit : u.bitset.get k = false := howned
    rw [hbit, Bool.not_false, Bool.and_true]
    apply chunksLeft_reset hother howned
    rw [h]
    exact hload

/-- **What a call that does not set the flag does to the count**: it grows by the chunk that is
lost. Source: `ChunkManager::chunksLeft`. Kind: L -/
theorem chunksLeft_act (hc : Books s c) (hm : c.marks s.cman = false) :
    (c.act s.cman).chunksLeft = s.cman.chunksLeft + if c.loses s.cman then 1 else 0 := by
  cases c with
  | prioritise first last p =>
    refine chunksLeft_congr fun j => ?_
    show ((s.cman.prioritise first last p).cell j).left = _
    rw [cell_prioritise]
    split_ifs with hj
    · have hp := hc j hj
      simp only [Cell.left, Cell.prioritise, Chunk.isExcluded, hp]
      rfl
    · rfl
  | resetChunk os i =>
    by_cases hi : i < L.numChunks
    · obtain ⟨k, rfl⟩ : ∃ k : Fin L.numChunks, k.val = i := ⟨⟨i, hi⟩, rfl⟩
      have hk : (s.cman.resetChunk os k).cell k = (s.cman.cell k).reset := by
        rw [cell_resetChunk, if_pos rfl]
      apply chunksLeft_reset
      · intro j hj
        rw [Call.act, cell_resetChunk, if_neg fun h => hj (Fin.ext h)]
      · rw [Call.act, hk]
        rfl
      · rw [Call.act, hk]
        rfl
    · rw [Call.loses, held_of_le (Nat.le_of_not_lt hi)]
      show (s.cman.resetChunk os i).chunksLeft = _
      unfold resetChunk
      rw [if_pos (Nat.le_of_not_lt hi)]
      rfl
  | grabChunk os size now i => exact chunksLeft_grabChunk s.cman os size now i
  | saveChunk os i update_index =>
    refine chunksLeft_congr fun j => ?_
    show ((s.cman.saveChunk os i update_index).1.cell j).left = _
    rw [cell_saveChunk]
    split_ifs with hj
    · subst hj
      simp only [Call.marks, getChunk_val, Option.any_some] at hm
      unfold Cell.save
      split_ifs with hx
      · rfl
      · have hx' : (s.cman.chunks j).isExcluded = false := by simpa using hx
        rw [hx', Bool.not_false, Bool.true_and] at hm
        apply Cell.left_congr
        · simp only [cell_chunk, hm, Bool.or_false]
        · exact s.cman.cache.save_chunk_priority L.torrent os _
    · rfl
  | prepareChunk os i allways =>
    refine chunksLeft_congr fun j => ?_
    show ((s.cman.prepareChunk os i allways).1.cell j).left = _
    rw [cell_prepareChunk]
    split_ifs
    · exact (Cell.sameBooks_prep L.torrent os s.cman.cache (s.cman.cell j)).left_eq
    · rfl
  | releaseChunk os i =>
    refine chunksLeft_congr fun j => ?_
    show ((s.cman.releaseChunk os i).cell j).left = _
    rw [cell_releaseChunk]
    split_ifs <;> rfl
  | checkMemoryUsage env now =>
    refine chunksLeft_congr fun j => ?_
    show ((s.cman.checkMemoryUsage env now).cell j).left = _
    rw [cell_checkMemoryUsage]
    split_ifs <;> rfl
  | stop env =>
    refine chunksLeft_congr fun j => ?_
    show ((s.cman.stop env).cell j).left = _
    rw [cell_stop]
    split_ifs <;> rfl
  | saveIndexFile os =>
    exact chunksLeft_congr fun j => congrArg Cell.left (s.cman.cell_saveIndexFile j os)
  | loadHeader index =>
    have hi : ¬ index < L.numChunks := by simpa [Call.marks] using hm
    show (s.cman.loadHeader index).chunksLeft = _
    unfold loadHeader
    rw [if_neg hi]
    rfl
  | savePriorityInfo =>
    exact chunksLeft_congr fun j => congrArg Cell.left (s.cman.cell_savePriorityInfo j)
  | alertCache env k =>
    exact chunksLeft_congr fun j => congrArg Cell.left (s.cman.cell_alertCache j env k)
  | choose k f => rfl
  | emit g => rfl
  | write cache => rfl
  | chunksLeft => rfl
  | exclude first last => cases hm
  | includeBack first last => cases hm
  | dataChecked env ok => cases hm
  | mark => cases hm

/-- Counting changes no chunk. Source: `ChunkManager::chunksLeft`. Kind: L -/
theorem cman_chunksLeft (s : Counted L) : s.chunksLeft.1.cman = s.cman := by
  unfold Counted.chunksLeft
  split_ifs <;> rfl

/-- A call acts on the chunk manager, and beside it on the counters.
Source: `torrent/chunkmanager.cpp`. Kind: L -/
@[simp] theorem cman_step (s : Counted L) (c : Call L) : (step s c).cman = c.act s.cman := by
  unfold step
  by_cases hcounts : c.counts = true
  · simp only [if_pos hcounts]
    exact cman_chunksLeft _
  · simp only [if_neg hcounts]

/-- After a count the cache is as far behind as before. Source: `ChunkManager::chunksLeft`.
Kind: L -/
theorem behind_chunksLeft (h : s.recalc_chunks_left = false →
    s.cman.chunksLeft = s.chunks_left + s.lost) :
    s.chunksLeft.1.recalc_chunks_left = false →
      s.chunksLeft.1.cman.chunksLeft = s.chunksLeft.1.chunks_left + s.chunksLeft.1.lost := by
  unfold Counted.chunksLeft
  split_ifs
  · exact h
  · intro _
    rfl

/-- **Every call that keeps the books keeps the invariant.**. Source: `torrent/chunkmanager.cpp`.
Kind: L -/
theorem Holds.step (hs : Holds s) (hc : Books s c) : Holds (step s c) := by
  have hbooks := bookkept_act hs.books hc
  have hbehind : (s.recalc_chunks_left || c.marks s.cman) = false →
      (c.act s.cman).chunksLeft =
        s.chunks_left + (s.lost + if c.loses s.cman then 1 else 0) := by
    intro h
    obtain ⟨hrecalc, hmarks⟩ := Bool.or_eq_false_iff.mp h
    rw [chunksLeft_act hc hmarks, hs.behind hrecalc, Nat.add_assoc]
  refine ⟨?_, ?_, ?_⟩
  · rw [cman_step]
    exact hbooks
  · intro j
    rw [cman_step]
    exact (size_act s.cman j c).trans (hs.sized j)
  · unfold Counted.step
    by_cases hcounts : c.counts = true
    · simp only [if_pos hcounts]
      exact behind_chunksLeft hbehind
    · simp only [if_neg hcounts]
      exact hbehind

/-- The counters are right at the start. Source: `Torrent::calcChunkPos`. Kind: L -/
theorem holds_start (L : Layout) (env : Env) (saved : Saved) : Holds (start L env saved) := by
  refine ⟨bookkept_construct L env saved, ?_, fun h => by cases h⟩
  refine construct_induction (P := Sized) (fun _ => rfl) fun s a b hs j => ?_
  exact (size_act s j (.prioritise a b .preview)).trans (hs j)

/-- **When the count is right.**. Source: `ChunkManager::chunksLeft`. Kind: P -/
theorem chunksLeft_right_iff (hs : Holds s) :
    s.chunksLeft.2 = s.cman.chunksLeft ↔ s.recalc_chunks_left = true ∨ s.lost = 0 := by
  unfold Counted.chunksLeft
  cases hr : s.recalc_chunks_left
  · have hbehind := hs.behind hr
    simp only [Bool.not_false, if_true, Bool.false_eq_true, false_or]
    omega
  · simp

/-- The chunks counted are those that are not owned and not excluded.
Source: `ChunkManager::chunksLeft`. Kind: L -/
theorem chunksLeft_eq_card (s : ChunkManager L) : s.chunksLeft =
    (Finset.univ.filter fun i : Fin L.numChunks =>
      s.bitset.get i = false ∧ (s.chunks i).priority ≠ .excluded).card := by
  rw [chunksLeft_eq_sum, ← Finset.card_filter]
  congr 1
  apply Finset.filter_congr
  intro i _
  unfold Cell.left Chunk.isExcluded
  rw [Bool.and_eq_true, Bool.not_eq_true', Bool.not_eq_true', decide_eq_false_iff_not]
  exact Iff.rfl

/-- **The derived sizes in one state.**. Source: `torrent/chunkmanager.cpp`. Kind: L -/
theorem derived_iff (hs : Holds s) (hlast : L.bytesOf (L.numChunks - 1) < 2 ^ 32) :
    Derived s c ↔ Current s c := by
  constructor
  · intro h hc
    rw [← chunksLeft_right_iff hs, chunksLeft_eq_card]
    exact h.chunksLeft hc
  · intro h
    obtain ⟨hle, htotal⟩ := totalBytesToDownload_eq hs.sized hlast hs.books
    refine ⟨bytesLeft_eq hs.sized hlast, bytesLeftToDownload_eq hs.sized hlast,
      bytesExcluded_eq hs.sized hlast hs.books, hle, htotal, fun hc => ?_⟩
    rw [← chunksLeft_eq_card]
    exact (chunksLeft_right_iff hs).mpr (h hc)

/-- **The derived sizes of a run.** Let the last chunk have fewer than 2^32 bytes. In a run of calls
from the constructor that keeps the books, the sizes are right at every call exactly as long as
every count is current. Source: `torrent/chunkmanager.cpp`. Kind: P -/
theorem derived_run_iff (L : Layout) (hlast : L.bytesOf (L.numChunks - 1) < 2 ^ 32) (env : Env)
    (saved : Saved) (calls : List (Call L)) (hb : Meets step Books (start L env saved) calls) :
    Meets step Derived (start L env saved) calls ↔
      Meets step Current (start L env saved) calls := by
  have hkeep : ∀ (s : Counted L) (c : Call L), Holds s → Books s c → Holds (s.step c) :=
    fun _ _ hs hc => hs.step hc
  have hright : ∀ (s : Counted L) (c : Call L), Holds s → Books s c → (Derived s c ↔ Current s c) :=
    fun _ _ hs _ => derived_iff hs hlast
  apply Meets.congr
  exact hb.forall_step hkeep hright (holds_start L env saved)

end Counted

/-! ### The larger operations -/

namespace ChunkManager

variable {L : Layout}

/-- A call that ends with the signal `updateStats`, whose slot counts the chunks that are left.
Source: `TorrentControl::updateStats`. Kind: D -/
def updating (c : Call L) : List (Call L) := [c, .chunksLeft]

/-- The calls of `prioritiseEnds`. Kind: D -/
def endsCalls (L : Layout) (first last : ℕ) (few : ℕ → Bool) : List (Call L) :=
  let chunkOffset := (last - first) / 100 + 1
  updating (.prioritise first (u32 (first + chunkOffset)) .preview) ++
    if few chunkOffset then [] else updating (.prioritise (last - chunkOffset) last .preview)

/-- The calls of `downloadStatusChanged` for `download`. Kind: D -/
def selectCalls (L : Layout) (env : Env) (k : ℕ) : List (Call L) :=
  let tf := L.getFile k
  updating (.includeBack tf.first_chunk tf.last_chunk) ++
    (if tf.multimedia then
      endsCalls L tf.first_chunk tf.last_chunk fun _ => tf.last_chunk - tf.first_chunk ≤ 2
    else []) ++ [.alertCache env k]

/-- The resets at the start of deselecting a file. Kind: D -/
def resetCalls (L : Layout) (env : Env) (k : ℕ) : List (Call L) :=
  let first := (L.getFile k).first_chunk
  let last := (L.getFile k).last_chunk
  ((List.range' (first + 1) (last - (first + 1))).map fun i => .resetChunk (env.chunk i) i) ++
    (if (L.torrent.calcChunkPos first).length = 1 ∧ first ≠ 0 then
      [.resetChunk (env.chunk first) first]
    else []) ++
    if last ≠ first ∧ (L.torrent.calcChunkPos last).length = 1 then
      [.resetChunk (env.chunk last) last]
    else []

/-- The calls of `downloadStatusChanged` for `!download`. Kind: D -/
def deselectCalls (env : Env) (k : ℕ) (s : ChunkManager L) : List (Call L) :=
  let tf := L.getFile k
  if tf.first_chunk = tf.last_chunk ∧ (L.torrent.calcChunkPos tf.first_chunk).length > 1 then
    [.alertCache env k]
  else
    let f := (s.resetFile env k).trimFirst k
    let firstCalls : List (Call L) :=
      if f.reprioritise_border_chunk then
        updating (.prioritise (f.pos - 1) (f.pos - 1) f.maxp)
      else []
    let l := (run Call.act (s.resetFile env k) firstCalls).trimLast k f.pos
    resetCalls L env k ++ firstCalls ++
      (if l.reprioritise_border_chunk then
        updating (.prioritise (l.pos + 1) (l.pos + 1) l.maxp)
      else []) ++
      (if l.pos < f.pos then [] else updating (.exclude f.pos l.pos)) ++ [.alertCache env k]

/-- The calls an operation consists of. Kind: D -/
def Op.calls (s : ChunkManager L) : Op L → List (Call L)
  | .prioritise first last p => updating (.prioritise first last p)
  | .exclude first last => updating (.exclude first last)
  | .includeBack first last => updating (.includeBack first last)
  | .resetChunk os i => [.resetChunk os i]
  | .saveChunk os i update_index => [.saveChunk os i update_index]
  | .prepareChunk os i allways => [.prepareChunk os i allways]
  | .grabChunk os size now i => [.grabChunk os size now i]
  | .releaseChunk os i => [.releaseChunk os i]
  | .checkMemoryUsage env now => [.checkMemoryUsage env now]
  | .stop env => [.stop env]
  | .saveIndexFile os => [.saveIndexFile os]
  | .dataChecked env ok_chunks => [.dataChecked env ok_chunks]
  | .choose k f => [.choose k f]
  | .downloadStatusChanged env k download =>
      if download then selectCalls L env k else s.deselectCalls env k
  | .downloadPriorityChanged env k p q =>
      if p = .excluded then s.deselectCalls env k
      else if q = .excluded then selectCalls L env k
      else .savePriorityInfo ::
        match s.savePriorityInfo.priorityRange k p with
        | none => []
        | some (first, last) =>
            updating (.prioritise first last p) ++
              if p = .onlySeed then [.emit (.excluded first last)] else []

section calls

variable (s : ChunkManager L) (env : Env) (k : ℕ)

/-- A call and its recount. Source: `TorrentControl::updateStats`. Kind: L -/
@[simp] theorem run_updating (c : Call L) : run Call.act s (updating c) = c.act s := rfl

/-- Either branch. Source: `torrent/chunkmanager.cpp`. Kind: L -/
theorem run_ite (p : Prop) [Decidable p] (cs ds : List (Call L)) :
    run Call.act s (if p then cs else ds) =
      if p then run Call.act s cs else run Call.act s ds := by
  split_ifs <;> rfl

/-- The calls for a file's ends. Source: `torrent/chunkmanager.cpp`. Kind: L -/
theorem run_endsCalls (first last : ℕ) (few : ℕ → Bool) :
    run Call.act s (endsCalls L first last few) = s.prioritiseEnds first last few := by
  unfold endsCalls prioritiseEnds
  simp only [run_append, run_ite, run_updating, run_nil]
  rfl

/-- The calls that select a file. Source: `torrent/chunkmanager.cpp`. Kind: L -/
theorem run_selectCalls : run Call.act s (selectCalls L env k) = s.selectFile env k := by
  unfold selectCalls selectFile
  simp only [run_append, run_ite, run_updating, run_nil, run_endsCalls]
  rfl

/-- The calls that reset a file. Source: `torrent/chunkmanager.cpp`. Kind: L -/
theorem run_resetCalls : run Call.act s (resetCalls L env k) = s.resetFile env k := by
  have hloop : ∀ (is : List ℕ) (s : ChunkManager L),
      run Call.act s (is.map fun i => .resetChunk (env.chunk i) i) =
        is.foldl (fun s i => s.resetChunk (env.chunk i) i) s := by
    intro is s
    rw [run, List.foldl_map]
    rfl
  unfold resetCalls resetFile
  simp only [run_append, run_ite, run_nil, hloop]
  rfl

/-- The calls that deselect a file. Source: `torrent/chunkmanager.cpp`. Kind: L -/
theorem run_deselectCalls : run Call.act s (s.deselectCalls env k) = s.deselectFile env k := by
  unfold deselectCalls deselectFile
  simp only [run_append, run_ite, run_updating, run_cons, run_nil, run_resetCalls, Call.act]
  split_ifs <;> rfl

/-- **The larger operations are made of the calls.**. Source: `torrent/chunkmanager.cpp`. Kind: P -/
theorem run_calls (op : Op L) : run Call.act s (op.calls s) = s.apply op := by
  cases op with
  | downloadStatusChanged env k download =>
    cases download
    · exact run_deselectCalls s env k
    · exact run_selectCalls s env k
  | downloadPriorityChanged env k p q =>
    unfold Op.calls
    rw [run_ite, run_ite, run_deselectCalls, run_selectCalls, run_cons]
    show _ = s.downloadPriorityChanged env k p q
    unfold downloadPriorityChanged
    by_cases hp : p = .excluded
    · rw [if_pos hp, if_pos hp]
      rfl
    rw [if_neg hp, if_neg hp]
    by_cases hq : q = .excluded
    · rw [if_pos hq, if_pos hq]
      rfl
    rw [if_neg hq, if_neg hq]
    dsimp only
    rcases hr : s.savePriorityInfo.priorityRange k p with _ | ⟨first, last⟩
    · rfl
    · simp only [run_append, run_ite, run_updating, run_nil]
      rfl
  | _ => rfl

end calls

/-- The chunk manager of a run. Source: `torrent/chunkmanager.cpp`. Kind: L -/
theorem cman_run (s : Counted L) (calls : List (Call L)) :
    (run Counted.step s calls).cman = run Call.act s.cman calls := by
  induction calls generalizing s with
  | nil => rfl
  | cons c calls ih => rw [run_cons, run_cons, ih, Counted.cman_step]

end ChunkManager

/-! ### A file that shares its first chunk -/

namespace Counted

open ChunkManager

/-- Two files in three chunks; the first chunk belongs to both. Kind: D -/
def sharedLayout : Layout :=
  .checked [] 16 48 [⟨['a'], 8, false⟩, ⟨['b'], 40, false⟩]
    (List.replicate 3 (Vector.replicate 20 0)) (by decide)

/-- Nothing is saved. Kind: D -/
def nothing : Saved := { cache := ⟨fun _ => 0, 0⟩ }

/-- Everything is downloaded, then the second file's priority is set to excluded. Kind: D -/
def downloaded : List (Call sharedLayout) :=
  [.prepareChunk {} 0 false, .saveChunk {} 0 true, .prepareChunk {} 1 false, .saveChunk {} 1 true,
    .prepareChunk {} 2 false, .saveChunk {} 2 true, .chunksLeft,
    .choose ⟨1, by decide⟩ { priority := .excluded }]

/-- Downloading and counting. Source: `torrent/chunkmanager.cpp`. Kind: L -/
theorem derived_downloaded : Meets step Derived (start sharedLayout {} nothing) downloaded := by
  refine (derived_run_iff sharedLayout (by decide) {} nothing downloaded ?_).mpr ?_
  · exact ⟨trivial, trivial, trivial, trivial, trivial, trivial, trivial, trivial, trivial⟩
  · refine ⟨?_, ?_, ?_, ?_, ?_, ?_, fun _ => .inr rfl, ?_, trivial⟩
    all_goals
      intro h
      cases h

/-- The downloads and the calls of the slot that the exclusion of the second file runs. Kind: D -/
def excludeShared : List (Call sharedLayout) :=
  downloaded ++ (Op.downloadPriorityChanged {} ⟨1, by decide⟩ .excluded .normal).calls
    (run step (start sharedLayout {} nothing) downloaded).cman

/-- **A count that is out of date**: when the border chunk gets its priority, two chunks have been
reset and are not excluded yet, and the statistics say that no chunk is left.
Source: `torrent/chunkmanager.cpp`. Kind: L -/
theorem reset_uncounted :
    ¬ Meets step Derived (start sharedLayout {} nothing) excludeShared := by
  intro h
  have hcalls : excludeShared = downloaded ++ ([.resetChunk {} 1, .resetChunk {} 2,
      .prioritise 0 0 .normal] ++ [.chunksLeft, .exclude 1 2, .chunksLeft, .alertCache {} 1]) := rfl
  rw [hcalls] at h
  obtain ⟨hcount, -⟩ := (meets_append.mp (meets_append.mp h).2).2
  have hvalue := hcount.chunksLeft rfl
  revert hvalue
  decide +kernel

end Counted

end KTorrent.Storage
