import KTorrent.Lib.GuardedRun
import KTorrent.Storage.Selection

/-!
# The three sets and the priority of a chunk

The chunk manager keeps the exclusion of a chunk in three places: its priority, `excluded_chunks`
and `only_seed_chunks`; and `todo` is meant to be what is left to download.

* `Bookkept` — the agreement of the four, and `Cell.Kept`, the same for one cell.
* `Keeps` — for each operation, what keeps the agreement; `bookkept_apply_iff` shows the condition
  exact, one step at a time.
* `bookkept_run_iff` — a run from the constructor stays in agreement exactly as long as its steps
  satisfy `Keeps`.
* `reselected_preview` — a run of the slots alone that leaves the agreement: a multimedia file is
  deselected and selected again next to a deselected one, and the preview priority reaches over the
  end of the file.

Resetting, saving, preparing, excluding and data checks always keep the agreement: what can break it
is `prioritise`, which does not know `excluded_chunks`, and `include`, which does not know
`only_seed_chunks`.

Source: `torrent/chunkmanager.cpp`
-/

namespace KTorrent.Storage

open KTorrent.Lib KTorrent.Util

/-! ### One chunk -/

namespace Cell

/-- The bits of a chunk agree with its priority. Kind: D -/
structure Kept (c : Cell) : Prop where
  excluded_iff : c.excluded = true ↔ c.chunk.priority = .excluded
  onlySeed_iff : c.onlySeed = true ↔ c.chunk.priority = .onlySeed
  todo_iff : c.todo = true ↔ c.owned = false ∧ c.excluded = false ∧ c.onlySeed = false

/-- Two cells with the same priority and the same bits. Kind: D -/
structure SameBooks (c c' : Cell) : Prop where
  priority : c'.chunk.priority = c.chunk.priority
  owned : c'.owned = c.owned
  excluded : c'.excluded = c.excluded
  onlySeed : c'.onlySeed = c.onlySeed
  todo : c'.todo = c.todo

variable {c c' : Cell}

/-- Cells with the same books are kept alike. Source: `torrent/chunkmanager.cpp`. Kind: L -/
theorem SameBooks.kept_iff (h : SameBooks c c') : c'.Kept ↔ c.Kept := by
  obtain ⟨h1, h2, h3, h4, h5⟩ := h
  constructor
  · rintro ⟨k1, k2, k3⟩
    exact ⟨by rw [← h3, ← h1, k1], by rw [← h4, ← h1, k2], by rw [← h5, ← h2, ← h3, ← h4, k3]⟩
  · rintro ⟨k1, k2, k3⟩
    exact ⟨by rw [h3, h1, k1], by rw [h4, h1, k2], by rw [h5, h2, h3, h4, k3]⟩

/-- Either branch. Source: `torrent/chunkmanager.cpp`. Kind: L -/
theorem kept_ite (p : Prop) [Decidable p] (h : c.Kept) (h' : c'.Kept) :
    (if p then c else c').Kept := by
  split_ifs
  · exact h
  · exact h'

/-- `prioritise` keeps a chunk's books iff it neither excludes nor re-includes it.
Source: `torrent/chunkmanager.cpp`. Kind: L -/
theorem kept_prioritise_iff (h : c.Kept) (p : Priority) :
    (c.prioritise p).Kept ↔ (p = .excluded ↔ c.chunk.priority = .excluded) := by
  constructor
  · rintro ⟨k1, -, -⟩
    exact (k1.symm.trans h.excluded_iff)
  · intro hp
    refine ⟨h.excluded_iff.trans hp.symm, by simp [prioritise], ?_⟩
    have hx : c.excluded = true ↔ p = .excluded := h.excluded_iff.trans hp.symm
    cases hcx : c.excluded
    · have h1 : p ≠ .excluded := fun hp' => by simp [hx.mpr hp'] at hcx
      simp [prioritise, h1, hcx, and_comm]
    · simp [prioritise, hx.mp hcx, hcx]

/-- `include` keeps a chunk's books iff the chunk is not only seeded.
Source: `torrent/chunkmanager.cpp`. Kind: L -/
theorem kept_includeBack_iff (h : c.Kept) :
    c.includeBack.Kept ↔ c.chunk.priority ≠ .onlySeed := by
  constructor
  · rintro ⟨-, k2, -⟩ hp
    exact absurd (k2.mp (h.onlySeed_iff.mpr hp)) (by simp [includeBack])
  · intro hp
    have hs : c.onlySeed = false := by
      rw [← Bool.not_eq_true, h.onlySeed_iff]
      exact hp
    refine ⟨by simp [includeBack], by simp [includeBack, hs], ?_⟩
    have := h.todo_iff
    cases ho : c.owned <;> simp_all [includeBack]

/-- Excluding makes the books agree. Source: `torrent/chunkmanager.cpp`. Kind: L -/
theorem kept_exclude (c : Cell) : c.exclude.Kept :=
  ⟨by simp [exclude], by simp [exclude], by simp [exclude]⟩

/-- A reset keeps them. Source: `torrent/chunkmanager.cpp`. Kind: L -/
theorem kept_reset (h : c.Kept) : c.reset.Kept :=
  ⟨h.excluded_iff, h.onlySeed_iff, by simp [reset]⟩

/-- A chunk that is included and then prioritised is in order, whatever it was.
Source: `torrent/chunkmanager.cpp`. Kind: L -/
theorem kept_includeBack_prioritise (c : Cell) {p : Priority} (hp : p ≠ .excluded) :
    (c.includeBack.prioritise p).Kept := by
  refine ⟨?_, by simp [prioritise], ?_⟩
  · simp [prioritise, includeBack, hp]
  · simp [prioritise, includeBack, hp, and_comm]

/-- Preparing does not touch the books. Source: `torrent/chunkmanager.cpp`. Kind: L -/
theorem sameBooks_prep (t : Torrent) (os : Os) (k : Cache) (c : Cell) :
    c.SameBooks (c.prep t os k) := by
  refine ⟨?_, rfl, rfl, rfl, rfl⟩
  obtain ⟨d, st, -, h⟩ := k.prep_chunk_cases t os c.chunk
  show (k.prep t os c.chunk).1.priority = _
  rw [h]
  rfl

/-- Loading does not touch the books. Source: `torrent/chunkmanager.cpp`. Kind: L -/
theorem sameBooks_load (t : Torrent) (os : Os) (k : Cache) (c : Cell) :
    c.SameBooks (c.load t os k) :=
  ⟨k.load_chunk_priority t os c.chunk, rfl, rfl, rfl, rfl⟩

/-- Unloading does not touch the books. Source: `torrent/chunkmanager.cpp`. Kind: L -/
theorem sameBooks_unload (c : Cell) : c.SameBooks c.unload := ⟨rfl, rfl, rfl, rfl, rfl⟩

/-- Saving a chunk keeps its books: a chunk that becomes owned leaves the to-do list.
Source: `torrent/chunkmanager.cpp`. Kind: L -/
theorem kept_save (h : c.Kept) (t : Torrent) (os : Os) (k : Cache) (update_index : Bool) :
    (c.save t os k update_index).Kept := by
  unfold save
  split_ifs
  · exact ⟨h.excluded_iff, h.onlySeed_iff, h.todo_iff⟩
  · refine ⟨?_, ?_, ?_⟩
    · rw [Cache.save_chunk_priority]
      exact h.excluded_iff
    · rw [Cache.save_chunk_priority]
      exact h.onlySeed_iff
    · cases hw : (k.save t os c.chunk).2.2 && update_index
      · simpa using h.todo_iff
      · simp

/-- A data check keeps them. Source: `torrent/chunkmanager.cpp`. Kind: L -/
theorem kept_check (h : c.Kept) (ok : Bool) : (c.check ok).Kept := by
  unfold check
  split_ifs
  · exact ⟨h.excluded_iff, h.onlySeed_iff, by simp⟩
  · exact kept_reset h
  · exact ⟨h.excluded_iff, h.onlySeed_iff, by simp [and_comm]⟩
  · exact h

end Cell

namespace ChunkManager

variable {L : Layout}

/-- **The bookkeeping invariant**: the exclusion of every chunk is the same in its priority and in
the bit sets, and what is still to do is what is neither owned nor left out. Kind: D -/
structure Bookkept (s : ChunkManager L) : Prop where
  excluded_iff : ∀ i : Fin L.numChunks,
    s.excluded_chunks.get i = true ↔ (s.chunks i).priority = .excluded
  onlySeed_iff : ∀ i : Fin L.numChunks,
    s.only_seed_chunks.get i = true ↔ (s.chunks i).priority = .onlySeed
  todo_iff : ∀ i : Fin L.numChunks, s.todo.get i = true ↔
    s.bitset.get i = false ∧ s.excluded_chunks.get i = false ∧ s.only_seed_chunks.get i = false

/-- The books agree when they do for every chunk. Source: `torrent/chunkmanager.cpp`. Kind: L -/
theorem bookkept_iff {s : ChunkManager L} : Bookkept s ↔ ∀ i, (s.cell i).Kept := by
  constructor
  · rintro ⟨h1, h2, h3⟩ i
    exact ⟨h1 i, h2 i, h3 i⟩
  · intro h
    exact ⟨fun i => (h i).excluded_iff, fun i => (h i).onlySeed_iff, fun i => (h i).todo_iff⟩

/-- When selecting (`download`) or deselecting file `k` keeps the books of every chunk. Kind: D -/
def KeepsStatus (s : ChunkManager L) (k : ℕ) (download : Bool) : Prop :=
  if download then ∀ i : Fin L.numChunks,
    (between (L.first k) (L.last k) i ∧ ¬ Layout.previews L k i →
      (s.chunks i).priority ≠ .onlySeed) ∧
    (Layout.previews L k i ∧ ¬ between (L.first k) (L.last k) i →
      (s.chunks i).priority ≠ .excluded)
  else ∀ i : Fin L.numChunks,
    (i.val = L.first k ∧ s.keepsFirst k = true ∨ i.val = L.last k ∧ s.keepsLast k = true) →
      (s.chunks i).priority ≠ .excluded

/-- When an operation keeps the books of every chunk: by the chunk's priority before it, and by
where the operation reaches. Kind: D -/
def Keeps (s : ChunkManager L) : Op L → Prop
  | .prioritise first last p => ∀ i : Fin L.numChunks, between first last i →
      (p = .excluded ↔ (s.chunks i).priority = .excluded)
  | .includeBack first last => ∀ i : Fin L.numChunks, between first last i →
      (s.chunks i).priority ≠ .onlySeed
  | .downloadStatusChanged _ k download => s.KeepsStatus k download
  | .downloadPriorityChanged _ k p q =>
      if p = .excluded then s.KeepsStatus k false
      else if q = .excluded then s.KeepsStatus k true
      else ∀ first last, s.priorityRange k p = some (first, last) →
        ∀ i : Fin L.numChunks, between first last i → (s.chunks i).priority ≠ .excluded
  | _ => True

/-! ### Exactness, one operation at a time -/

section exact

variable {s : ChunkManager L}

/-- When the books agree for every chunk, a condition that holds is the exact one.
Source: `torrent/chunkmanager.cpp`. Kind: L -/
theorem bookkept_of_cells {t : ChunkManager L} (h : ∀ i, (t.cell i).Kept) (p : Prop) (hp : p) :
    Bookkept t ↔ p :=
  ⟨fun _ => hp, fun _ => bookkept_iff.mpr h⟩

/-- When, exactly, a priority keeps the books. Source: `ChunkManager::prioritise`. Kind: L -/
theorem bookkept_prioritise_iff (hs : Bookkept s) (a b : ℕ) (p : Priority) :
    Bookkept (s.prioritise a b p) ↔ ∀ i : Fin L.numChunks, between a b i →
      (p = .excluded ↔ (s.chunks i).priority = .excluded) :=
  bookkept_iff.trans <| forall_cell_iff (bookkept_iff.mp hs) (fun i => s.cell_prioritise i a b p)
    fun _ h => Cell.kept_prioritise_iff h p

/-- When, exactly, including keeps the books. Source: `ChunkManager::include`. Kind: L -/
theorem bookkept_includeRange_iff (hs : Bookkept s) (a b : ℕ) :
    Bookkept (s.includeRange a b) ↔ ∀ i : Fin L.numChunks, between a b i →
      (s.chunks i).priority ≠ .onlySeed :=
  bookkept_iff.trans <| forall_cell_iff (bookkept_iff.mp hs) (fun i => s.cell_includeRange i a b)
    fun _ h => Cell.kept_includeBack_iff h

/-- When, exactly, selecting a file keeps the books. Source: `ChunkManager::downloadStatusChanged`.
Kind: L -/
theorem bookkept_selectFile_iff (hs : Bookkept s) (env : Env) (k : ℕ) :
    Bookkept (s.selectFile env k) ↔ s.KeepsStatus k true := by
  rw [bookkept_iff] at hs ⊢
  unfold KeepsStatus
  rw [if_pos rfl]
  refine forall_congr' fun i => ?_
  rw [cell_selectFile]
  by_cases h1 : between (L.first k) (L.last k) i <;> by_cases h2 : Layout.previews L k i
  · simp only [h1, h2, if_true, not_true_eq_false, and_false, false_imp_iff, and_self, iff_true]
    exact Cell.kept_includeBack_prioritise _ (by decide)
  · simp only [h1, h2, if_true, if_false, not_false_eq_true, and_true, true_imp_iff, false_and,
      false_imp_iff]
    exact Cell.kept_includeBack_iff (hs i)
  · simp only [h1, h2, if_true, if_false, not_false_eq_true, and_true, true_imp_iff, false_and,
      false_imp_iff, true_and]
    rw [Cell.kept_prioritise_iff (hs i)]
    simp
  · simp only [h1, h2, if_false, false_and, false_imp_iff, and_self, iff_true]
    exact hs i

/-- A file whose only chunk is crowded keeps no border: there is nothing to move.
Source: `torrent/chunkmanager.cpp`. Kind: L -/
theorem keeps_of_crowded {k : ℕ} (hc : Layout.crowded L k) :
    s.keepsFirst k = false ∧ s.keepsLast k = false := by
  have h1 : s.keepsFirst k = false := by simp [keepsFirst, hc.1]
  refine ⟨h1, ?_⟩
  simp [keepsLast, firstExcluded, h1, hc.1]

/-- When, exactly, deselecting a file keeps the books.
Source: `ChunkManager::downloadStatusChanged`. Kind: L -/
theorem bookkept_deselectFile_iff (hs : Bookkept s) (env : Env) {k : ℕ}
    (hk : L.first k ≤ L.last k) :
    Bookkept (s.deselectFile env k) ↔ s.KeepsStatus k false := by
  have hs' := bookkept_iff.mp hs
  by_cases hc : Layout.crowded L k
  · rw [s.deselectFile_of_crowded k env hc]
    obtain ⟨h1, h2⟩ := s.keeps_of_crowded hc
    refine bookkept_of_cells (fun i => by simpa using hs' i) _ ?_
    simp [KeepsStatus, h1, h2]
  · obtain ⟨pf, pl, hpf, hpl, hcell⟩ := s.cell_deselectFile k env hk hc
    rw [bookkept_iff]
    unfold KeepsStatus
    rw [if_neg (by decide)]
    refine forall_congr' fun i => ?_
    rw [hcell i]
    -- the resets before change neither priority nor agreement
    obtain ⟨c, hcdef⟩ : ∃ c, c = if Layout.resets L k i then (s.cell i).reset else s.cell i :=
      ⟨_, rfl⟩
    have hkept : c.Kept := by
      rw [hcdef]
      split_ifs
      · exact Cell.kept_reset (hs' i)
      · exact hs' i
    have hprio : c.chunk.priority = (s.chunks i).priority := by
      rw [hcdef]
      split_ifs <;> rfl
    simp only [← hcdef]
    by_cases h1 : i.val = L.first k ∧ s.keepsFirst k = true
    · rw [if_pos h1, Cell.kept_prioritise_iff hkept, hprio]
      simp [h1, hpf.ne_excluded]
    rw [if_neg h1]
    by_cases h2 : i.val = L.last k ∧ s.keepsLast k = true
    · rw [if_pos h2, Cell.kept_prioritise_iff hkept, hprio]
      simp [h2, hpl.ne_excluded]
    rw [if_neg h2]
    refine ⟨fun _ h => absurd h (not_or.mpr ⟨h1, h2⟩), fun _ => ?_⟩
    split_ifs
    · exact Cell.kept_exclude c
    · exact hkept

/-- When, exactly, selecting or deselecting a file keeps the books.
Source: `ChunkManager::downloadStatusChanged`. Kind: L -/
theorem bookkept_downloadStatusChanged_iff (hs : Bookkept s) (env : Env) {k : ℕ}
    (hk : L.first k ≤ L.last k) (download : Bool) :
    Bookkept (s.downloadStatusChanged env k download) ↔ s.KeepsStatus k download := by
  cases download
  · exact bookkept_deselectFile_iff hs env hk
  · exact bookkept_selectFile_iff hs env k

/-- **Each operation keeps the books exactly under its condition.**.
Source: `torrent/chunkmanager.cpp`. Kind: P -/
theorem bookkept_apply_iff (hs : Bookkept s) (op : Op L) :
    Bookkept (s.apply op) ↔ s.Keeps op := by
  have hs' := bookkept_iff.mp hs
  cases op with
  | prioritise first last p => exact bookkept_prioritise_iff hs first last p
  | includeBack first last => exact bookkept_includeRange_iff hs first last
  | downloadStatusChanged env k download =>
    exact bookkept_downloadStatusChanged_iff hs env (L.first_le_last k.2) download
  | downloadPriorityChanged env k p q =>
    show Bookkept (s.downloadPriorityChanged env k p q) ↔ _
    unfold Keeps
    dsimp only
    by_cases hp : p = .excluded
    · rw [if_pos hp, hp, downloadPriorityChanged_excluded]
      exact bookkept_downloadStatusChanged_iff hs env (L.first_le_last k.2) false
    by_cases hq : q = .excluded
    · rw [if_neg hp, if_pos hq, hq, s.downloadPriorityChanged_included env k hp]
      exact bookkept_downloadStatusChanged_iff hs env (L.first_le_last k.2) true
    rw [if_neg hp, if_neg hq]
    have hcell := fun i => s.cell_downloadPriorityChanged env k hp hq i
    rcases hr : s.priorityRange k p with _ | ⟨a, b⟩
    · refine bookkept_of_cells (fun i => ?_) _ (by simp)
      rw [hcell i, hr]
      exact hs' i
    · simp only [hr] at hcell
      rw [bookkept_iff, forall_cell_iff hs' hcell fun i h => Cell.kept_prioritise_iff h p]
      simp [hp]
  | exclude first last =>
    refine bookkept_of_cells (fun j => ?_) _ trivial
    exact s.cell_excludeRange j first last ▸ Cell.kept_ite _ (Cell.kept_exclude _) (hs' j)
  | resetChunk os i =>
    refine bookkept_of_cells (fun j => ?_) _ trivial
    exact s.cell_resetChunk j os i ▸ Cell.kept_ite _ (Cell.kept_reset (hs' j)) (hs' j)
  | saveChunk os i update_index =>
    refine bookkept_of_cells (fun j => ?_) _ trivial
    exact s.cell_saveChunk j os i update_index ▸
      Cell.kept_ite _ (Cell.kept_save (hs' j) _ _ _ _) (hs' j)
  | prepareChunk os i allways =>
    refine bookkept_of_cells (fun j => ?_) _ trivial
    exact s.cell_prepareChunk j os i allways ▸
      Cell.kept_ite _ ((Cell.sameBooks_prep _ _ _ _).kept_iff.mpr (hs' j)) (hs' j)
  | grabChunk os size now i =>
    refine bookkept_of_cells (fun j => ?_) _ trivial
    show ((s.grabChunk os size now i).1.cell j).Kept
    have hl := (Cell.sameBooks_load L.torrent os s.cache (s.cell j)).kept_iff.mpr (hs' j)
    rcases s.cell_grabChunk j os size now i with h | ⟨-, -, -, h | h⟩ <;> rw [h]
    · exact hs' j
    · exact hl
    · exact Cell.kept_reset hl
  | releaseChunk os i =>
    refine bookkept_of_cells (fun j => ?_) _ trivial
    exact s.cell_releaseChunk j os i ▸
      Cell.kept_ite _ ((Cell.sameBooks_unload _).kept_iff.mpr (hs' j)) (hs' j)
  | checkMemoryUsage env now =>
    refine bookkept_of_cells (fun j => ?_) _ trivial
    exact s.cell_checkMemoryUsage j env now ▸
      Cell.kept_ite _ ((Cell.sameBooks_unload _).kept_iff.mpr (hs' j)) (hs' j)
  | stop env =>
    refine bookkept_of_cells (fun j => ?_) _ trivial
    exact s.cell_stop j env ▸
      Cell.kept_ite _ ((Cell.sameBooks_unload _).kept_iff.mpr (hs' j)) (hs' j)
  | saveIndexFile os =>
    exact bookkept_of_cells (fun j => (s.cell_saveIndexFile j os).symm ▸ hs' j) _ trivial
  | dataChecked env ok_chunks =>
    refine bookkept_of_cells (fun j => ?_) _ trivial
    exact s.cell_dataChecked j env ok_chunks ▸ Cell.kept_check (hs' j) _
  | choose k f =>
    exact bookkept_of_cells (t := { s with files := Function.update s.files k f })
      (fun j => hs' j) _ trivial

end exact

/-! ### Runs from the constructor -/

section runs

/-- **The constructor keeps the books** of a torrent just loaded.
Source: `ChunkManager::ChunkManager`. Kind: P -/
theorem bookkept_construct (L : Layout) (env : Env) (saved : Saved) :
    Bookkept (construct L env (fun _ => {}) saved) := by
  have h : Bookkept (construct L env (fun _ => {}) saved) ∧
      ∀ i, ((construct L env (fun _ => {}) saved).chunks i).priority ≠ .excluded := by
    refine construct_induction
      (P := fun s : ChunkManager L => Bookkept s ∧ ∀ i, (s.chunks i).priority ≠ .excluded)
      ⟨⟨fun i => ?_, fun i => ?_, fun i => ?_⟩, fun i => ?_⟩ fun s a b hs => ⟨?_, fun i => ?_⟩
    · simp [base]
    · simp [base]
    · simp [base, BitSet.get_setAll]
    · simp [base]
    · rw [bookkept_prioritise_iff hs.1]
      intro i _
      simp [hs.2 i]
    · rw [← cell_chunk, cell_prioritise]
      split_ifs
      · simp [Cell.prioritise]
      · exact hs.2 i
  exact h.1

/-- **The books of a run.** From the constructor on, the priorities and the bit sets agree in every
state passed exactly as long as every operation is applied under its condition.
Source: `torrent/chunkmanager.cpp`. Kind: P -/
theorem bookkept_run_iff (L : Layout) (env : Env) (saved : Saved) (ops : List (Op L)) :
    (∀ pre, pre <+: ops → Bookkept (run apply (construct L env (fun _ => {}) saved) pre)) ↔
      Meets apply Keeps (construct L env (fun _ => {}) saved) ops := by
  have hstep : ∀ (s : ChunkManager L) (op : Op L), Bookkept s →
      (Bookkept (s.apply op) ↔ s.Keeps op) := fun _ op hs => bookkept_apply_iff hs op
  exact invariant_at_iff_meets hstep (bookkept_construct L env saved) ops

end runs

/-! ### A run that leaves the agreement -/

/-- Two files of one chunk each, the first of them a film. Kind: D -/
def filmLayout : Layout :=
  .checked [] 16 32 [⟨['a'], 16, true⟩, ⟨['b'], 16, false⟩]
    (List.replicate 2 (Vector.replicate 20 0)) (by decide)

/-- Deselect the second file, deselect the film, select the film again. Kind: D -/
def reselectFilm : List (Op filmLayout) :=
  let film : Fin filmLayout.files.length := ⟨0, by decide⟩
  let other : Fin filmLayout.files.length := ⟨1, by decide⟩
  [.choose other { priority := .excluded }, .downloadPriorityChanged {} other .excluded .normal,
    .choose film { priority := .excluded }, .downloadPriorityChanged {} film .excluded .normal,
    .choose film { old_priority := .excluded }, .downloadPriorityChanged {} film .normal .excluded]

/-- **Runs of the slots alone can break the books.** Source: `torrent/chunkmanager.cpp`. Kind: L -/
theorem reselected_preview :
    ¬ ∀ (L : Layout) (env : Env) (saved : Saved) (ops : List (Op L)),
      Bookkept (run apply (construct L env (fun _ => {}) saved) ops) := by
  intro h
  have h1 := h filmLayout {} ⟨⟨fun _ => 0, 0⟩, [], none, none⟩ reselectFilm
  have h2 := h1.excluded_iff ⟨1, by decide⟩
  revert h2
  decide

end ChunkManager

end KTorrent.Storage
