import KTorrent.Storage.Bookkeeping

/-!
# Owning a chunk and having its data

A chunk is owned when its have-bit is set, which happens when its hash has been checked. Its status
says whether there is data for it, in memory or on disk.

* `Matched` — a chunk has data exactly when it is owned.
* `Matches` — for each operation, what keeps that so; `matched_apply_iff` shows the condition exact.
* `matched_run_iff` — the runs from the constructor that keep every chunk matched.

Preparing a chunk for download is what makes data without ownership, and excluding a chunk that is
not reset is what leaves it behind.

Source: `torrent/chunkmanager.cpp`
-/

namespace KTorrent.Storage

open KTorrent.Lib KTorrent.Util

namespace Cell

/-- The chunk has data exactly when it is owned. Kind: D -/
def Matched (c : Cell) : Prop := c.chunk.status ≠ .notDownloaded ↔ c.owned = true

/-- What saving a chunk must not meet: an excluded chunk with data, or a chunk without data that is
marked, or written without being marked. Kind: D -/
def SavesMatched (t : Torrent) (os : Os) (update_index : Bool) (c : Cell) : Prop :=
  (c.chunk.isExcluded = true → c.chunk.status = .notDownloaded) ∧
  (c.chunk.isExcluded = false → c.chunk.status = .notDownloaded →
    if t.isMultiFile then os.writes = true → update_index = true else update_index = false)

variable {c : Cell}

/-- Either branch. Source: `torrent/chunkmanager.cpp`. Kind: L -/
theorem matched_ite {d : Cell} {p : Prop} [Decidable p] (h : p → d.Matched) (h' : ¬ p → c.Matched) :
    (if p then d else c).Matched := by
  split_ifs with hp
  · exact h hp
  · exact h' hp

/-- A chunk that is reset has no data and is not owned. Source: `torrent/chunkmanager.cpp`.
Kind: L -/
theorem matched_reset (c : Cell) : c.reset.Matched := by simp [Matched, reset]

/-- A priority keeps data and ownership matched. Source: `torrent/chunkmanager.cpp`. Kind: L -/
theorem matched_prioritise (h : c.Matched) (p : Priority) : (c.prioritise p).Matched := h

/-- Including keeps data and ownership matched. Source: `torrent/chunkmanager.cpp`. Kind: L -/
theorem matched_includeBack (h : c.Matched) : c.includeBack.Matched := h

/-- Excluding a chunk with data leaves the data behind. Source: `torrent/chunkmanager.cpp`.
Kind: L -/
theorem matched_exclude_iff (c : Cell) :
    c.exclude.Matched ↔ c.chunk.status = .notDownloaded := by
  simp [Matched, exclude]

/-- Unloading keeps data and ownership matched exactly when there is data.
Source: `torrent/chunkmanager.cpp`. Kind: L -/
theorem matched_unload_iff (h : c.Matched) :
    c.unload.Matched ↔ c.chunk.status ≠ .notDownloaded := by
  unfold Matched at h
  rw [h]
  simp [Matched, unload]

/-- Preparing keeps data and ownership matched exactly when there is data.
Source: `torrent/chunkmanager.cpp`. Kind: L -/
theorem matched_prep_iff (h : c.Matched) (t : Torrent) (os : Os) (k : Cache) :
    (c.prep t os k).Matched ↔ c.chunk.status ≠ .notDownloaded := by
  obtain ⟨d, st, hst, hp⟩ := k.prep_chunk_cases t os c.chunk
  have h1 : (c.prep t os k).chunk.status = st := by
    show (k.prep t os c.chunk).1.status = st
    rw [hp]
    rfl
  unfold Matched at h ⊢
  rw [h, h1]
  rcases hst with rfl | rfl <;> simp [prep]

/-- Loading a chunk from disk leaves it with data. Source: `torrent/chunkmanager.cpp`. Kind: L -/
theorem matched_load (h : c.Matched) (hd : c.chunk.status = .onDisk) (t : Torrent) (os : Os)
    (k : Cache) : (c.load t os k).Matched := by
  have h1 : (c.load t os k).chunk.status ≠ .notDownloaded := by
    show (k.load t os c.chunk).1.status ≠ _
    rcases k.load_chunk_cases t os c.chunk with hl | ⟨d, st, hst, hl⟩ <;> rw [hl]
    · rw [hd]
      decide
    · rcases hst with rfl | rfl <;> simp [Chunk.setData]
  have h2 : c.owned = true := h.mp (by rw [hd]; decide)
  exact ⟨fun _ => h2, fun _ => h1⟩

/-- A data check keeps data and ownership matched. Source: `torrent/chunkmanager.cpp`. Kind: L -/
theorem matched_check (h : c.Matched) (ok : Bool) : (c.check ok).Matched := by
  unfold check
  split_ifs
  · simp [Matched]
  · exact matched_reset c
  · simp [Matched]
  · exact h

/-- What saving does to a matched chunk. Source: `torrent/chunkmanager.cpp`. Kind: L -/
theorem matched_save_iff (h : c.Matched) (t : Torrent) (os : Os) (k : Cache)
    (update_index : Bool) :
    (c.save t os k update_index).Matched ↔ c.SavesMatched t os update_index := by
  unfold Matched at h
  unfold save SavesMatched
  cases hx : c.chunk.isExcluded
  · simp only [Bool.false_eq_true, if_false, false_imp_iff, true_and, forall_const]
    by_cases hs : c.chunk.status = .notDownloaded
    · have ho : c.owned = false := by simpa [hs] using h
      by_cases hm : t.isMultiFile = true
      · cases hw : os.writes <;>
          simp [Matched, Cache.save, MultiFileCache.save, hm, hs, hw, ho]
      · simp [Matched, Cache.save, SingleFileCache.save, hm, hs, ho]
    · have ho : c.owned = true := h.mp hs
      simp only [hs, false_imp_iff, iff_true, Matched, ho, Bool.true_or]
      rcases k.save_chunk_cases t os c.chunk with h1 | h1 <;> simp [h1, hs]
  · simp only [if_true, Bool.true_eq_false, false_imp_iff, and_true, forall_const, Matched]
    simp only [ne_eq, not_true_eq_false, false_iff, ← h]
    exact not_not

/-- Saving a chunk that is not excluded. Source: `torrent/chunkmanager.cpp`. Kind: L -/
theorem save_wanted (hx : c.chunk.isExcluded = false) (t : Torrent) (os : Os) (k : Cache)
    (update_index : Bool) :
    (c.save t os k update_index).chunk = (k.save t os c.chunk).1 ∧
      (c.save t os k update_index).excluded = c.excluded ∧
      (c.save t os k update_index).owned =
        (c.owned || ((k.save t os c.chunk).2.2 && update_index)) ∧
      (c.save t os k update_index).todo =
        (c.todo && !((k.save t os c.chunk).2.2 && update_index)) := by
  unfold Cell.save
  rw [if_neg (by simp [hx])]
  exact ⟨rfl, rfl, rfl, rfl⟩

end Cell

namespace ChunkManager

variable {L : Layout}

/-- **The ownership invariant**: the chunks with data are the chunks owned. Kind: D -/
def Matched (s : ChunkManager L) : Prop := ∀ i : Fin L.numChunks,
  (s.chunks i).status ≠ .notDownloaded ↔ s.bitset.get i = true

/-- The chunks that deselecting file `k` excludes without resetting them. Kind: D -/
def leavesBehind (s : ChunkManager L) (k i : ℕ) : Prop :=
  ¬ Layout.crowded L k ∧ L.first k ≤ i ∧ i ≤ L.last k ∧ ¬ Layout.resets L k i ∧
    ¬ (i = L.first k ∧ s.keepsFirst k = true) ∧ ¬ (i = L.last k ∧ s.keepsLast k = true)

/-- When selecting or deselecting file `k` keeps every chunk matched: what is excluded without being
reset has no data. Kind: D -/
def MatchesStatus (s : ChunkManager L) (k : ℕ) (download : Bool) : Prop :=
  download = false → ∀ i : Fin L.numChunks, s.leavesBehind k i →
    (s.chunks i).status = .notDownloaded

/-- When an operation keeps every chunk matched. Kind: D -/
def Matches (s : ChunkManager L) : Op L → Prop
  | .exclude first last => ∀ i : Fin L.numChunks, between first last i →
      (s.chunks i).status = .notDownloaded
  | .saveChunk os i update_index => ∀ j : Fin L.numChunks, j.val = i →
      (s.cell j).SavesMatched L.torrent os update_index
  | .prepareChunk _ i _ => ∀ j : Fin L.numChunks, j.val = i →
      (s.chunks j).status ≠ .notDownloaded
  | .releaseChunk _ i => ∀ j : Fin L.numChunks, j.val = i → (s.chunks j).taken = false →
      (s.chunks j).status ≠ .notDownloaded
  | .checkMemoryUsage _ now => ∀ j : Fin L.numChunks, expires now (s.loaded j) (s.cell j) = true →
      (s.chunks j).status ≠ .notDownloaded
  | .downloadStatusChanged _ k download => s.MatchesStatus k download
  | .downloadPriorityChanged _ k p q =>
      if p = .excluded then s.MatchesStatus k false
      else if q = .excluded then s.MatchesStatus k true
      else True
  | _ => True

section exact

variable {s : ChunkManager L}

/-- A manager is matched when each cell is. Source: `torrent/chunkmanager.cpp`. Kind: L -/
theorem matched_iff : Matched s ↔ ∀ i, (s.cell i).Matched := Iff.rfl

/-- When every cell is matched, a condition that holds is the exact one.
Source: `torrent/chunkmanager.cpp`. Kind: L -/
theorem matched_of_cells {t : ChunkManager L} (h : ∀ i, (t.cell i).Matched) (p : Prop) (hp : p) :
    Matched t ↔ p :=
  ⟨fun _ => hp, fun _ => h⟩

/-- When, exactly, deselecting a file keeps data and ownership matched.
Source: `ChunkManager::downloadStatusChanged`. Kind: L -/
theorem matched_deselectFile_iff (hs : Matched s) (env : Env) {k : ℕ} (hk : L.first k ≤ L.last k) :
    Matched (s.deselectFile env k) ↔ s.MatchesStatus k false := by
  by_cases hc : Layout.crowded L k
  · rw [s.deselectFile_of_crowded k env hc]
    refine matched_of_cells (fun i => ?_) _ fun _ i h => absurd hc h.1
    rw [cell_alertCache]
    exact hs i
  obtain ⟨pf, pl, -, -, hcell⟩ := s.cell_deselectFile k env hk hc
  have hs' : ∀ i, (s.cell i).Matched := hs
  have hstatus : s.MatchesStatus k false ↔ ∀ i : Fin L.numChunks, s.leavesBehind k i →
      (s.chunks i).status = .notDownloaded := ⟨fun h => h rfl, fun h _ => h⟩
  rw [matched_iff, hstatus]
  refine forall_congr' fun i => ?_
  simp only [hcell i]
  by_cases hr : Layout.resets L k i
  · -- a reset chunk has no data, whatever comes after
    have h1 := Cell.matched_reset (s.cell i)
    refine ⟨fun _ h => absurd hr h.2.2.2.1, fun _ => ?_⟩
    rw [if_pos hr]
    split_ifs
    · exact h1
    · exact h1
    · exact (Cell.matched_exclude_iff _).mpr rfl
    · exact h1
  rw [if_neg hr]
  by_cases hf : i.val = L.first k ∧ s.keepsFirst k = true
  · rw [if_pos hf]
    exact ⟨fun _ h => absurd hf h.2.2.2.2.1, fun _ => Cell.matched_prioritise (hs' i) pf⟩
  rw [if_neg hf]
  by_cases hl : i.val = L.last k ∧ s.keepsLast k = true
  · rw [if_pos hl]
    exact ⟨fun _ h => absurd hl h.2.2.2.2.2, fun _ => Cell.matched_prioritise (hs' i) pl⟩
  rw [if_neg hl]
  by_cases hin : L.first k ≤ i.val ∧ i.val ≤ L.last k
  · rw [if_pos hin, Cell.matched_exclude_iff]
    exact ⟨fun h _ => h, fun h => h ⟨hc, hin.1, hin.2, hr, hf, hl⟩⟩
  · rw [if_neg hin]
    exact ⟨fun _ h => absurd ⟨h.2.1, h.2.2.1⟩ hin, fun _ => hs i⟩

/-- When, exactly, a change of a file's status keeps data and ownership matched.
Source: `ChunkManager::downloadStatusChanged`. Kind: L -/
theorem matched_downloadStatusChanged_iff (hs : Matched s) (env : Env) {k : ℕ}
    (hk : L.first k ≤ L.last k) (download : Bool) :
    Matched (s.downloadStatusChanged env k download) ↔ s.MatchesStatus k download := by
  cases download
  · exact matched_deselectFile_iff hs env hk
  · have hs' : ∀ i, (s.cell i).Matched := hs
    refine matched_of_cells (fun i => ?_) _ (by simp [MatchesStatus])
    show ((s.selectFile env k).cell i).Matched
    rw [cell_selectFile]
    have h1 := Cell.matched_ite (p := between (L.first k) (L.last k) i)
      (fun _ => Cell.matched_includeBack (hs' i)) (fun _ => hs' i)
    exact Cell.matched_ite (fun _ => Cell.matched_prioritise h1 _) (fun _ => h1)

/-- **Each operation keeps every chunk matched exactly under its condition.**.
Source: `torrent/chunkmanager.cpp`. Kind: P -/
theorem matched_apply_iff (hs : Matched s) (op : Op L) : Matched (s.apply op) ↔ s.Matches op := by
  have hs' : ∀ i, (s.cell i).Matched := hs
  cases op with
  | prioritise first last p =>
    refine matched_of_cells (fun i => ?_) _ trivial
    exact s.cell_prioritise i first last p ▸
      Cell.matched_ite (fun _ => Cell.matched_prioritise (hs' i) p) (fun _ => hs' i)
  | includeBack first last =>
    refine matched_of_cells (fun i => ?_) _ trivial
    exact s.cell_includeRange i first last ▸
      Cell.matched_ite (fun _ => Cell.matched_includeBack (hs' i)) (fun _ => hs' i)
  | exclude first last =>
    exact forall_cell_iff hs' (fun i => s.cell_excludeRange i first last)
      fun i _ => Cell.matched_exclude_iff (s.cell i)
  | resetChunk os i =>
    refine matched_of_cells (fun j => ?_) _ trivial
    exact s.cell_resetChunk j os i ▸
      Cell.matched_ite (fun _ => Cell.matched_reset _) (fun _ => hs' j)
  | saveChunk os i update_index =>
    exact forall_cell_iff hs' (fun j => s.cell_saveChunk j os i update_index)
      fun j h => Cell.matched_save_iff h L.torrent os s.cache update_index
  | prepareChunk os i allways =>
    refine (forall_cell_iff hs' (fun j => s.cell_prepareChunk j os i allways)
      fun j h => Cell.matched_prep_iff h L.torrent os s.cache).trans
        (forall_congr' fun j => ⟨fun h hj hn => ?_, fun h hj => h hj.1⟩)
    exact h ⟨hj, Or.inr hn⟩ hn
  | grabChunk os size now i =>
    refine matched_of_cells (fun j => ?_) _ trivial
    show ((s.grabChunk os size now i).1.cell j).Matched
    rcases s.cell_grabChunk j os size now i with h | ⟨-, hd, -, h | h⟩ <;> rw [h]
    · exact hs' j
    · exact Cell.matched_load (hs' j) hd _ _ _
    · exact Cell.matched_reset _
  | releaseChunk os i =>
    exact (forall_cell_iff hs' (fun j => s.cell_releaseChunk j os i)
      fun j h => Cell.matched_unload_iff h).trans (forall_congr' fun j => and_imp)
  | checkMemoryUsage env now =>
    exact forall_cell_iff hs' (fun j => s.cell_checkMemoryUsage j env now)
      fun j h => Cell.matched_unload_iff h
  | stop env =>
    refine matched_of_cells (fun j => ?_) _ trivial
    refine s.cell_stop j env ▸ Cell.matched_ite (fun hm => ?_) (fun _ => hs' j)
    refine (Cell.matched_unload_iff (hs' j)).mpr fun h => ?_
    rw [cell_chunk] at h
    simp [Cell.inMemory, h] at hm
  | saveIndexFile os =>
    exact matched_of_cells (fun j => (s.cell_saveIndexFile j os).symm ▸ hs' j) _ trivial
  | dataChecked env ok_chunks =>
    refine matched_of_cells (fun j => ?_) _ trivial
    exact s.cell_dataChecked j env ok_chunks ▸ Cell.matched_check (hs' j) _
  | downloadStatusChanged env k download =>
    exact matched_downloadStatusChanged_iff hs env (L.first_le_last k.2) download
  | downloadPriorityChanged env k p q =>
    show Matched (s.downloadPriorityChanged env k p q) ↔ _
    unfold Matches
    dsimp only
    by_cases hp : p = .excluded
    · rw [if_pos hp, hp, downloadPriorityChanged_excluded]
      exact matched_downloadStatusChanged_iff hs env (L.first_le_last k.2) false
    by_cases hq : q = .excluded
    · rw [if_neg hp, if_pos hq, hq, s.downloadPriorityChanged_included env k hp]
      exact matched_downloadStatusChanged_iff hs env (L.first_le_last k.2) true
    rw [if_neg hp, if_neg hq]
    refine matched_of_cells (fun i => ?_) _ trivial
    rw [s.cell_downloadPriorityChanged env k hp hq i]
    rcases s.priorityRange k p with _ | ⟨a, b⟩
    · exact hs' i
    · exact Cell.matched_ite (fun _ => Cell.matched_prioritise (hs' i) p) (fun _ => hs' i)
  | choose k f =>
    exact matched_of_cells (t := { s with files := Function.update s.files k f })
      (fun j => hs' j) _ trivial

end exact

/-- A new manager is matched. Source: `ChunkManager::ChunkManager`. Kind: L -/
theorem matched_construct (L : Layout) (env : Env) (saved : Saved) :
    Matched (construct L env (fun _ => {}) saved) := by
  refine construct_induction ?_ fun s a b hs => ?_
  · intro i
    simp [base]
  · exact (matched_apply_iff hs (.prioritise a b .preview)).mpr trivial

/-- **The runs that keep every chunk matched**: from the constructor on, the chunks with data are
the chunks owned in every state passed exactly as long as every operation is applied under its
condition. Source: `torrent/chunkmanager.cpp`. Kind: P -/
theorem matched_run_iff (L : Layout) (env : Env) (saved : Saved) (ops : List (Op L)) :
    (∀ pre, pre <+: ops → Matched (run apply (construct L env (fun _ => {}) saved) pre)) ↔
      Meets apply Matches (construct L env (fun _ => {}) saved) ops := by
  have hstep : ∀ (s : ChunkManager L) (op : Op L), Matched s →
      (Matched (s.apply op) ↔ s.Matches op) := fun _ op hs => matched_apply_iff hs op
  exact invariant_at_iff_meets hstep (matched_construct L env saved) ops

end ChunkManager

end KTorrent.Storage
