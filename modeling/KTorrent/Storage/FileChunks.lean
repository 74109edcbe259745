import KTorrent.Storage.ChunksLeft

/-!
# How much of each file has been downloaded

A file keeps the number of its chunks that are owned, and whether it can be previewed. Both are
counted again for the files of a chunk when the chunk is downloaded or reset.

* `TorrentFile.countChunks` — the count, over the chunks the file lies in.
* `FileChunks L` — the chunk manager with what its files keep; `updated` is the chunk a call counts
  the files of.
* `Counts` — every file that has bytes keeps what a count would give.
* `Clean` — a call that neither takes a chunk from a file nor gives it one without counting it.
* `counts_run` — the counts stay right on every run of clean calls; an exclusion keeps them exactly
  if it is clean.

Excluding chunks counts nothing, nor does saving a chunk whose index entry cannot be written. Files
of no bytes are in no list of a chunk's files, and are not counted again. The percentages and the
signals that a value has changed are left out.

Source: `torrent/torrentfile.cpp`, `torrent/torrent.cpp`, `torrent/chunkmanager.cpp`
-/

namespace KTorrent.Storage

open KTorrent.Lib KTorrent.Util

/-- The number of chunks and the preview, for a file that is `multimedia`.
Source: `TorrentFile::updateNumDownloadedChunks`. Kind: D -/
def TorrentFile.countChunks {n : ℕ} (f : TorrentFile) (bs : BitSet n) : ℕ × Bool :=
  let r := forRange f.first_chunk (f.last_chunk + 1) (fun i r =>
    if bs.get i then (r.1 + 1, r.2)
    else if i = f.first_chunk ∨ i = f.first_chunk + 1 then (r.1, false)
    else r) ((0, true) : ℕ × Bool)
  (r.1, f.multimedia && r.2)

/-- The chunk manager, and what its files keep. Source: `torrent/torrentfile.h`, `TorrentFile`.
Kind: D -/
structure FileChunks (L : Layout) where
  cman : ChunkManager L
  num_chunks_downloaded : ℕ → ℕ := fun _ => 0
  preview : ℕ → Bool := fun _ => false

namespace FileChunks

open ChunkManager

variable {L : Layout}

/-- Source: `TorrentFile::updateNumDownloadedChunks`. Kind: D -/
def updateNumDownloadedChunks (k : ℕ) (s : FileChunks L) : FileChunks L :=
  let r := (L.getFile k).countChunks s.cman.bitset
  { s with
    num_chunks_downloaded := Function.update s.num_chunks_downloaded k r.1
    preview := Function.update s.preview k r.2 }

/-- The files of a chunk. Source: `Torrent::updateFilePercentage`. Kind: D -/
def updateFilePercentage (chunk : ℕ) (s : FileChunks L) : FileChunks L :=
  (L.torrent.calcChunkPos chunk).foldl (fun s k => s.updateNumDownloadedChunks k) s

/-- All files. Source: `Torrent::updateFilePercentage`. Kind: D -/
def updateFilePercentages (s : FileChunks L) : FileChunks L :=
  forRange 0 L.torrent.getNumFiles (fun k s => s.updateNumDownloadedChunks k) s

/-- The chunk whose files a call counts. Source: `ChunkManager::grabChunk`, `resetChunk` and
`saveChunk`, which does not come to it when the index entry cannot be written. Kind: D -/
def updated (s : ChunkManager L) : Call L → Option ℕ
  | .resetChunk _ i => if i < L.numChunks then some i else none
  | .saveChunk os i update_index =>
      if update_index ∧ os.index_opens ∧ (s.getChunk i).any fun c =>
        !c.isExcluded && (s.cache.save L.torrent os c).2.2 then some i else none
  | .grabChunk os size now i =>
      if (s.getChunk i).any (fun c => c.status ≠ .notDownloaded) ∧
        ((s.grabChunk os size now i).1.getChunk i).any (fun c => c.status = .notDownloaded) then
        some i
      else none
  | _ => none

/-- One round of the data check; the files are counted when the chunk's bit changes.
Source: `ChunkManager::dataChecked`, the loop body. Kind: D -/
def dataCheckedChunk (env : Env) (ok_chunks : BitSet L.numChunks) (i : ℕ) (s : FileChunks L) :
    FileChunks L :=
  let t : FileChunks L := { s with cman := s.cman.dataCheckedChunk env ok_chunks i }
  if ok_chunks.get i = s.cman.bitset.get i then t else t.updateFilePercentage i

/-- The state after a call. Kind: D -/
def step (s : FileChunks L) (c : Call L) : FileChunks L :=
  match c with
  | .dataChecked env ok_chunks =>
    let t := forRange 0 L.numChunks (dataCheckedChunk env ok_chunks) s
    { t with cman := { (t.cman.saveIndexFile env.file).1 with corrupted_count := 0 } }
  | c =>
    let t : FileChunks L := { s with cman := c.act s.cman }
    (updated s.cman c).elim t fun i => t.updateFilePercentage i

/-- Every file that has bytes keeps what a count would give. Kind: D -/
def Counts (s : FileChunks L) : Prop := ∀ k (h : k < L.files.length), 0 < L.files[k].size →
  (s.num_chunks_downloaded k, s.preview k) = (L.getFile k).countChunks s.cman.bitset

/-- When a call counts what it changes: nothing owned is excluded, and the index entry of a chunk
that is saved can be written. Kind: D -/
def Clean (s : FileChunks L) : Call L → Prop
  | .exclude first last => ∀ i k, L.Overlaps i k → between first last i →
      s.cman.bitset.get i = false
  | .saveChunk os i update_index =>
      update_index = true → os.index_opens = true ∨ s.cman.bitset.get i = true
  | .loadHeader i => i < L.numChunks → s.cman.bitset.get i = true
  | _ => True

/-! ### Counting -/

section counting

variable {n : ℕ} {f : TorrentFile} {b b' : BitSet n}

/-- Bit sets are compared chunk by chunk. Source: none: infrastructure. Kind: L -/
theorem get_congr {p : ℕ → Prop} (h : ∀ i : Fin n, p i → b'.get i = b.get i) (i : ℕ) (hi : p i) :
    b'.get i = b.get i := by
  by_cases hlt : i < n
  · exact h ⟨i, hlt⟩ hi
  · rw [BitSet.get_of_le b' (by omega), BitSet.get_of_le b (by omega)]

/-- A count looks at the file's chunks only. Source: `TorrentFile::updateNumDownloadedChunks`.
Kind: L -/
theorem countChunks_congr (h : ∀ i, f.first_chunk ≤ i → i ≤ f.last_chunk → b'.get i = b.get i) :
    f.countChunks b' = f.countChunks b := by
  unfold TorrentFile.countChunks forRange
  rw [List.foldl_ext]
  intro r i hi
  have hrange := List.mem_range'_1.mp hi
  show (if b'.get i then _ else _) = _
  rw [h i hrange.1 (by omega)]

/-- The number of chunks counted. Source: `TorrentFile::updateNumDownloadedChunks`. Kind: L -/
theorem fst_countChunks : (f.countChunks b).1 =
    (List.range' f.first_chunk (f.last_chunk + 1 - f.first_chunk)).countP b.get := by
  have hloop : ∀ (l : List ℕ) (r : ℕ × Bool), (l.foldl (fun r i =>
      if b.get i then (r.1 + 1, r.2)
      else if i = f.first_chunk ∨ i = f.first_chunk + 1 then (r.1, false)
      else r) r).1 = r.1 + l.countP b.get := by
    intro l
    induction l with
    | nil => exact fun r => rfl
    | cons i l ih =>
      intro r
      rw [List.foldl_cons, ih]
      cases hi : b.get i with
      | false =>
        rw [List.countP_cons_of_neg (by simp [hi])]
        simp only [Bool.false_eq_true, if_false]
        split_ifs <;> rfl
      | true =>
        rw [List.countP_cons_of_pos hi]
        show r.1 + 1 + List.countP b.get l = _
        omega
  unfold TorrentFile.countChunks forRange
  rw [hloop, Nat.zero_add]

/-- Bits that are taken away show in the count. Source: `TorrentFile::updateNumDownloadedChunks`.
Kind: L -/
theorem eq_of_countChunks (hle : ∀ i, b'.get i = true → b.get i = true)
    (hcount : f.countChunks b' = f.countChunks b) {i : ℕ} (h1 : f.first_chunk ≤ i)
    (h2 : i ≤ f.last_chunk) (hi : b.get i = true) : b'.get i = true := by
  have heq := congrArg Prod.fst hcount
  rw [fst_countChunks, fst_countChunks] at heq
  have hmem : i ∈ List.range' f.first_chunk (f.last_chunk + 1 - f.first_chunk) :=
    List.mem_range'_1.mpr (by omega)
  revert heq hmem
  generalize List.range' f.first_chunk (f.last_chunk + 1 - f.first_chunk) = l
  induction l with
  | nil => exact fun _ h => by cases h
  | cons j l ih =>
    intro heq hmem
    have hmono : l.countP b'.get ≤ l.countP b.get :=
      List.countP_mono_left fun i _ => hle i
    have hhead : b'.get j = b.get j := by
      cases hj : b.get j with
      | false => exact Bool.eq_false_iff.mpr fun h => by simp [hle j h] at hj
      | true =>
        by_contra hne
        rw [Bool.not_eq_true] at hne
        rw [List.countP_cons, List.countP_cons, hj, hne] at heq
        simp only [if_true, Bool.false_eq_true, if_false] at heq
        omega
    rcases List.mem_cons.mp hmem with rfl | hmem
    · rw [hhead, hi]
    · refine ih ?_ hmem
      rw [List.countP_cons, List.countP_cons, hhead] at heq
      omega

end counting

/-! ### Counting the files of a chunk -/

section update

variable {s : FileChunks L}

/-- Counting changes no chunk. Source: `Torrent::updateFilePercentage`. Kind: L -/
theorem cman_updateFilePercentage (chunk : ℕ) :
    (s.updateFilePercentage chunk).cman = s.cman := by
  unfold updateFilePercentage
  generalize L.torrent.calcChunkPos chunk = l
  induction l generalizing s with
  | nil => rfl
  | cons k l ih =>
    rw [List.foldl_cons, ih]
    rfl

/-- The files in the list are counted, the others keep what they have.
Source: `TorrentFile::updateNumDownloadedChunks`. Kind: L -/
theorem kept_foldl (l : List ℕ) (k : ℕ) :
    let t := l.foldl (fun s k => updateNumDownloadedChunks k s) s
    (t.num_chunks_downloaded k, t.preview k) =
      if k ∈ l then (L.getFile k).countChunks s.cman.bitset
      else (s.num_chunks_downloaded k, s.preview k) := by
  induction l generalizing s with
  | nil => rfl
  | cons j l ih =>
    have hrest := ih (s := s.updateNumDownloadedChunks j)
    rw [List.foldl_cons]
    refine hrest.trans ?_
    show (if k ∈ l then (L.getFile k).countChunks s.cman.bitset else _) = _
    by_cases hl : k ∈ l
    · rw [if_pos hl, if_pos (List.mem_cons_of_mem _ hl)]
    · rw [if_neg hl]
      by_cases hk : k = j
      · subst hk
        rw [if_pos (List.mem_cons_self ..)]
        simp [updateNumDownloadedChunks]
      · rw [if_neg (by simp [hk, hl])]
        simp [updateNumDownloadedChunks, hk]

/-- Nothing of the files' chunks has changed. Source: `torrent/torrentfile.cpp`,
`torrent/torrent.cpp`. Kind: L -/
theorem Counts.same (h : Counts s) {cman : ChunkManager L}
    (hbits : ∀ i : Fin L.numChunks, cman.bitset.get i = s.cman.bitset.get i) :
    Counts { s with cman } := by
  intro k hk hsize
  refine (h k hk hsize).trans (countChunks_congr fun i _ _ => ?_).symm
  exact get_congr (p := fun _ => True) (fun i _ => hbits i) i trivial

/-- One chunk has changed and its files are counted. Source: `Torrent::updateFilePercentage`.
Kind: L -/
theorem Counts.update (h : Counts s) {cman : ChunkManager L} {chunk : ℕ}
    (hbits : ∀ i : Fin L.numChunks, i.val ≠ chunk → cman.bitset.get i = s.cman.bitset.get i) :
    Counts (updateFilePercentage chunk { s with cman }) := by
  intro k hk hsize
  rw [cman_updateFilePercentage]
  refine (kept_foldl (L.torrent.calcChunkPos chunk) k).trans ?_
  by_cases hmem : k ∈ L.torrent.calcChunkPos chunk
  · exact if_pos hmem
  · refine (if_neg hmem).trans ((h k hk hsize).trans (countChunks_congr fun i h1 h2 => ?_).symm)
    have hne : i ≠ chunk := by
      rintro rfl
      exact hmem (L.mem_calcChunkPos_iff.mpr ((L.overlaps_iff hk).mpr ⟨hsize, h1, h2⟩))
    exact get_congr (p := fun i => i ≠ chunk) hbits i hne

/-- All files are counted when the torrent is loaded. Source: `Torrent::updateFilePercentage`.
Kind: L -/
theorem counts_updateFilePercentages (s : FileChunks L) : Counts s.updateFilePercentages := by
  have hcman : s.updateFilePercentages.cman = s.cman := by
    refine forRange_frame FileChunks.cman ?_ s
    exact fun _ _ _ _ => rfl
  intro k hk hsize
  rw [hcman]
  refine (kept_foldl (List.range' 0 (L.torrent.getNumFiles - 0)) k).trans (if_pos ?_)
  have hnum : L.torrent.getNumFiles = L.files.length := L.length_files
  exact List.mem_range'_1.mpr (by omega)

end update

/-! ### Calls -/

section calls

variable {s : FileChunks L}

/-- A round of the data check changes one chunk. Source: `ChunkManager::dataChecked`. Kind: L -/
theorem Counts.dataCheckedChunk (h : Counts s) (env : Env) (ok_chunks : BitSet L.numChunks)
    (i : ℕ) : Counts (s.dataCheckedChunk env ok_chunks i) := by
  have hcell : ∀ j : Fin L.numChunks,
      (s.cman.dataCheckedChunk env ok_chunks i).bitset.get j =
        if j.val = i then ((s.cman.cell j).check (ok_chunks.get i)).owned
        else s.cman.bitset.get j := by
    intro j
    refine (congrArg Cell.owned (s.cman.cell_dataCheckedChunk j env ok_chunks i)).trans ?_
    split_ifs <;> rfl
  unfold FileChunks.dataCheckedChunk
  dsimp only
  split_ifs with hok
  · refine h.same fun j => ?_
    rw [hcell]
    by_cases hj : j.val = i
    · subst hj
      rw [if_pos rfl, hok]
      unfold Cell.check
      cases hbit : s.cman.bitset.get j <;> simp [hbit]
    · rw [if_neg hj]
  · refine h.update fun j hj => ?_
    rw [hcell, if_neg hj]

/-- Excluding takes the bits of its range off. Source: `ChunkManager::exclude`. Kind: L -/
theorem get_excludeRange (s : ChunkManager L) (first last : ℕ) (j : Fin L.numChunks) :
    (s.excludeRange first last).bitset.get j =
      if between first last j then false else s.bitset.get j := by
  have hcell := congrArg Cell.owned (s.cell_excludeRange j first last)
  by_cases hin : between first last j
  · rw [if_pos hin]
    exact hcell.trans (congrArg Cell.owned (if_pos hin))
  · rw [if_neg hin]
    exact hcell.trans (congrArg Cell.owned (if_neg hin))

/-- What is excluded was not owned. Source: `ChunkManager::exclude`. Kind: L -/
theorem Counts.exclude (h : Counts s) (first last : ℕ) (hc : s.Clean (.exclude first last)) :
    Counts (s.step (.exclude first last)) := by
  intro k hk hsize
  refine (h k hk hsize).trans (countChunks_congr fun i h1 h2 => ?_).symm
  refine get_congr (p := fun i => L.Overlaps i k) (fun i hover => ?_) i
    ((L.overlaps_iff hk).mpr ⟨hsize, h1, h2⟩)
  refine (get_excludeRange s.cman first last i).trans ?_
  by_cases hin : between first last i
  · rw [if_pos hin]
    exact (hc i k hover hin).symm
  · rw [if_neg hin]

/-- The files of the chunk are counted. Source: `ChunkManager::resetChunk`. Kind: L -/
theorem Counts.resetChunk (h : Counts s) (os : Os) (i : ℕ) : Counts (s.step (.resetChunk os i)) := by
  have hbit : ∀ j : Fin L.numChunks, j.val ≠ i →
      (s.cman.resetChunk os i).bitset.get j = s.cman.bitset.get j := by
    intro j hj
    refine (congrArg Cell.owned (s.cman.cell_resetChunk j os i)).trans ?_
    rw [if_neg hj]
    rfl
  unfold FileChunks.step updated
  dsimp only [Call.act]
  split_ifs with hi
  · exact h.update hbit
  · exact h.same fun j => hbit j (by omega)

/-- The files of the chunk are counted if it comes to be owned. Source: `ChunkManager::saveChunk`.
Kind: L -/
theorem Counts.saveChunk (h : Counts s) (os : Os) (i : ℕ) (update_index : Bool)
    (hc : s.Clean (.saveChunk os i update_index)) :
    Counts (s.step (.saveChunk os i update_index)) := by
  have hbit : ∀ j : Fin L.numChunks, j.val ≠ i →
      (s.cman.saveChunk os i update_index).1.bitset.get j = s.cman.bitset.get j := by
    intro j hj
    refine (congrArg Cell.owned (s.cman.cell_saveChunk j os i update_index)).trans ?_
    rw [if_neg hj]
    rfl
  unfold FileChunks.step updated
  dsimp only [Call.act]
  split_ifs with hup
  · exact h.update hbit
  · refine h.same fun j => ?_
    by_cases hj : j.val = i
    · subst hj
      refine (congrArg Cell.owned (s.cman.cell_saveChunk j os j update_index)).trans ?_
      rw [if_pos rfl]
      rw [getChunk_val] at hup
      unfold Cell.save
      by_cases hx : (s.cman.chunks j).isExcluded = true
      · simp [hx]
      · cases hu : update_index with
        | false => simp [hx]
        | true =>
          rcases hc hu with hopens | howned
          · have hsave : (s.cman.cache.save L.torrent os (s.cman.chunks j)).2.2 = false := by
              by_contra hne
              exact hup ⟨hu, hopens, by simpa [hx] using hne⟩
            simp [hx, hsave]
          · simp [hx, howned]
    · exact hbit j hj

/-- The files of the chunk are counted if it is found corrupted. Source: `ChunkManager::grabChunk`.
Kind: L -/
theorem Counts.grabChunk (h : Counts s) (os : Os) (size now i : ℕ) :
    Counts (s.step (.grabChunk os size now i)) := by
  have hcell := fun j => s.cman.cell_grabChunk j os size now i
  unfold FileChunks.step updated
  dsimp only [Call.act]
  split_ifs with hup
  · refine h.update fun j hj => ?_
    rcases hcell j with heq | ⟨hji, -⟩
    · exact congrArg Cell.owned heq
    · exact absurd hji hj
  · refine h.same fun j => ?_
    rcases hcell j with heq | ⟨rfl, hdisk, -, heq | heq⟩
    · exact congrArg Cell.owned heq
    · exact congrArg Cell.owned heq
    · refine absurd ⟨?_, ?_⟩ hup
      · rw [getChunk_val]
        simp [hdisk]
      · rw [getChunk_val]
        have hstatus := congrArg (fun c : Cell => c.chunk.status) heq
        simpa [Cell.reset] using hstatus

/-- **A clean call keeps the counts.**. Source: `torrent/torrentfile.cpp`, `torrent/torrent.cpp`.
Kind: L -/
theorem Counts.step (h : Counts s) (c : Call L) (hc : s.Clean c) : Counts (s.step c) := by
  cases c with
  | prioritise first last p =>
    refine h.same fun j => (congrArg Cell.owned (s.cman.cell_prioritise j first last p)).trans ?_
    split_ifs <;> rfl
  | exclude first last => exact h.exclude first last hc
  | includeBack first last =>
    refine h.same fun j => (congrArg Cell.owned (s.cman.cell_includeRange j first last)).trans ?_
    split_ifs <;> rfl
  | resetChunk os i => exact h.resetChunk os i
  | saveChunk os i update_index => exact h.saveChunk os i update_index hc
  | prepareChunk os i allways =>
    refine h.same fun j => (congrArg Cell.owned (s.cman.cell_prepareChunk j os i allways)).trans ?_
    split_ifs <;> rfl
  | grabChunk os size now i => exact h.grabChunk os size now i
  | releaseChunk os i =>
    refine h.same fun j => (congrArg Cell.owned (s.cman.cell_releaseChunk j os i)).trans ?_
    split_ifs <;> rfl
  | checkMemoryUsage env now =>
    refine h.same fun j => (congrArg Cell.owned (s.cman.cell_checkMemoryUsage j env now)).trans ?_
    split_ifs <;> rfl
  | stop env =>
    refine h.same fun j => (congrArg Cell.owned (s.cman.cell_stop j env)).trans ?_
    split_ifs <;> rfl
  | saveIndexFile os =>
    exact h.same fun j => congrArg Cell.owned (s.cman.cell_saveIndexFile j os)
  | dataChecked env ok_chunks =>
    have hloop : Counts (forRange 0 L.numChunks (FileChunks.dataCheckedChunk env ok_chunks) s) :=
      forRange_inv (fun i _ _ t ht => ht.dataCheckedChunk env ok_chunks i) h
    exact hloop.same fun j => congrArg Cell.owned (cell_saveIndexFile _ j env.file)
  | loadHeader index =>
    refine h.same fun j => (congrArg Cell.owned (s.cman.cell_loadHeader j index)).trans ?_
    split_ifs with hj
    · exact (hj ▸ hc (hj ▸ j.2)).symm
    · rfl
  | choose k f => exact h.same fun j => rfl
  | savePriorityInfo => exact h.same fun j => congrArg Cell.owned (s.cman.cell_savePriorityInfo j)
  | alertCache env k => exact h.same fun j => congrArg Cell.owned (s.cman.cell_alertCache j env k)
  | emit g => exact h.same fun j => rfl
  | write cache => exact h.same fun j => rfl
  | mark => exact h.same fun j => rfl
  | chunksLeft => exact h.same fun j => rfl

/-- An exclusion keeps the counts exactly when it is clean. Source: `torrent/torrentfile.cpp`,
`torrent/torrent.cpp`. Kind: L -/
theorem counts_exclude_iff (h : Counts s) (first last : ℕ) :
    Counts (s.step (.exclude first last)) ↔ s.Clean (.exclude first last) := by
  refine ⟨fun h' i k hover hin => ?_, h.step _⟩
  have hk : k < L.files.length := hover.1
  obtain ⟨hsize, h1, h2⟩ := (L.overlaps_iff hk).mp hover
  have hcount : (L.getFile k).countChunks (s.cman.excludeRange first last).bitset =
      (L.getFile k).countChunks s.cman.bitset := (h' k hk hsize).symm.trans (h k hk hsize)
  by_contra howned
  rw [Bool.not_eq_false] at howned
  have hi : i < L.numChunks := BitSet.lt_of_get howned
  have hsub : ∀ j, (s.cman.excludeRange first last).bitset.get j = true →
      s.cman.bitset.get j = true := by
    intro j hj
    have hbit := get_excludeRange s.cman first last ⟨j, BitSet.lt_of_get hj⟩
    split_ifs at hbit with hjin
    · rw [hbit] at hj
      cases hj
    · exact hbit.symm.trans hj
  have hkept := eq_of_countChunks hsub hcount h1 h2 howned
  have hbit := get_excludeRange s.cman first last ⟨i, hi⟩
  rw [if_pos hin] at hbit
  rw [hbit] at hkept
  cases hkept

end calls

/-- **What the files keep is what they have**: from any chunk manager whose files have been counted,
on every run of clean calls each file that has bytes keeps the number of its chunks that are owned,
and whether the first two of them are; an exclusion keeps that exactly when no owned chunk of such a
file is excluded. Source: `Torrent::updateFilePercentage`. Kind: P -/
theorem counts_run (cman : ChunkManager L) (calls : List (Call L))
    (h : Meets step Clean (updateFilePercentages { cman }) calls) :
    let s := run step (updateFilePercentages { cman }) calls
    Counts s ∧ ∀ first last, Counts (s.step (.exclude first last)) ↔
      ∀ i k, L.Overlaps i k → between first last i → s.cman.bitset.get i = false := by
  have hcounts : Counts (run step (updateFilePercentages { cman }) calls) :=
    h.invariant (fun s c hs hc => hs.step c hc) (counts_updateFilePercentages _)
  exact ⟨hcounts, fun first last => counts_exclude_iff hcounts first last⟩

/-- The first chunk is downloaded, which both files have. Kind: D -/
def firstDownloaded : List (Call Counted.sharedLayout) :=
  [.prepareChunk {} 0 false, .saveChunk {} 0 true]

/-- The second file keeps one chunk. Source: `Torrent::updateFilePercentage`. Kind: L -/
theorem counts_run_downloaded :
    (run step (updateFilePercentages
      { cman := construct Counted.sharedLayout {} (fun _ => {}) Counted.nothing })
      firstDownloaded).num_chunks_downloaded 1 = 1 := by
  have hcounts := (counts_run (construct Counted.sharedLayout {} (fun _ => {}) Counted.nothing)
    firstDownloaded ⟨trivial, fun _ => .inl rfl, trivial⟩).1
  refine (congrArg Prod.fst (hcounts 1 (by decide) (by decide))).trans ?_
  decide

end FileChunks

end KTorrent.Storage
