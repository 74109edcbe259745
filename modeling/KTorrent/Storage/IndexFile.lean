import KTorrent.Storage.Ownership

/-!
# The index file

`saveIndexFile` writes a record for every chunk that has data, whatever its have-bit; `loadIndexFile`
gives a have-bit to every record.

* `reload` — what a new chunk manager of the same torrent knows after the index file was saved by
  the old one; `get_bitset_reload` is its have-bits in closed form.
* `Restores` — the new have-bits are the old ones.
* `restores_iff_matched` — that is so exactly when the chunks with data are the chunks owned.
* `restores_run_iff` — the runs after each step of which the index file can be saved and loaded.
* `prepared_reloads_as_owned` — a chunk that was only prepared for download comes back as owned.

The loop that loads the records makes one round too many, on a header that was never read
(`Env.word`). It is harmless when the variable still holds a record, or no chunk's number at all
(`Leftover`); `restores_iff` is the exact condition without that assumption.

Source: `torrent/chunkmanager.cpp`
-/

namespace KTorrent.Storage

open KTorrent.Lib KTorrent.Util

namespace ChunkManager

variable {L : Layout}

/-! ### What every change of a selection preserves -/

/-- A property every primitive step of a change of a selection preserves. Kind: D -/
structure Closed (P : ChunkManager L → Prop) : Prop where
  resetChunk : ∀ s os i, P s → P (s.resetChunk os i)
  prioritise : ∀ s a b p, P s → P (s.prioritise a b p)
  includeRange : ∀ s a b, P s → P (s.includeRange a b)
  excludeRange : ∀ s a b, P s → P (s.excludeRange a b)
  alertCache : ∀ s env k, P s → P (s.alertCache env k)
  savePriorityInfo : ∀ s, P s → P s.savePriorityInfo
  emit : ∀ s g, P s → P (s.emit g)
  choose : ∀ (s : ChunkManager L) files, P s → P { s with files := files }

namespace Closed

variable {P : ChunkManager L → Prop} {s : ChunkManager L}

/-- What is closed under changes of chunks is kept by either branch.
Source: `torrent/chunkmanager.cpp`. Kind: L -/
theorem ite {c : Prop} [Decidable c] {s t : ChunkManager L} (h : P s) (h' : P t) :
    P (if c then s else t) := by
  split_ifs
  · exact h
  · exact h'

/-- What is closed under changes of chunks is kept when the ends of a file are preferred.
Source: `ChunkManager::ChunkManager` and `downloadStatusChanged`. Kind: L -/
theorem prioritiseEnds (hP : Closed P) (h : P s) (a b : ℕ) (few : ℕ → Bool) :
    P (s.prioritiseEnds a b few) :=
  ite (hP.prioritise _ _ _ _ h) (hP.prioritise _ _ _ _ (hP.prioritise _ _ _ _ h))

/-- What is closed under changes of chunks is kept when a file is reset.
Source: `ChunkManager::downloadStatusChanged`. Kind: L -/
theorem resetFile (hP : Closed P) (h : P s) (env : Env) (k : ℕ) : P (s.resetFile env k) := by
  have h1 : P (forRange ((L.getFile k).first_chunk + 1) (L.getFile k).last_chunk
      (fun i s => s.resetChunk (env.chunk i) i) s) :=
    forRange_inv (P := P) (fun i _ _ t ht => hP.resetChunk t _ i ht) h
  have h2 : ∀ (t : ChunkManager L) (c : Prop) [Decidable c] (os : Os) (i : ℕ), P t →
      P (if c then t.resetChunk os i else t) :=
    fun t _ _ os i ht => ite (hP.resetChunk t os i ht) ht
  exact h2 _ _ _ _ (h2 _ _ _ _ h1)

/-- What is closed under changes of chunks is kept when a file is taken out or in.
Source: `ChunkManager::downloadStatusChanged`. Kind: L -/
theorem downloadStatusChanged (hP : Closed P) (h : P s) (env : Env) (k : ℕ) (download : Bool) :
    P (s.downloadStatusChanged env k download) := by
  cases download
  · have h1 : ∀ (t : ChunkManager L) (c : Prop) [Decidable c] (i : ℕ) (p : Priority), P t →
        P (if c then t.prioritise i i p else t) :=
      fun t _ _ i p ht => ite (hP.prioritise t i i p ht) ht
    have h2 := hP.resetFile h env k
    show P (s.deselectFile env k)
    unfold deselectFile
    dsimp only
    refine ite (hP.alertCache _ _ _ h) (ite (hP.alertCache _ _ _ ?_)
      (hP.alertCache _ _ _ (hP.excludeRange _ _ _ ?_)))
    · exact h1 _ _ _ _ (h1 _ _ _ _ h2)
    · exact h1 _ _ _ _ (h1 _ _ _ _ h2)
  · have h1 := hP.includeRange s (L.getFile k).first_chunk (L.getFile k).last_chunk h
    exact hP.alertCache _ _ _ (ite (hP.prioritiseEnds h1 _ _ _) h1)

/-- What is closed under changes of chunks is kept when a file's priority changes.
Source: `ChunkManager::downloadPriorityChanged`. Kind: L -/
theorem downloadPriorityChanged (hP : Closed P) (h : P s) (env : Env) (k : ℕ) (p q : Priority) :
    P (s.downloadPriorityChanged env k p q) := by
  unfold ChunkManager.downloadPriorityChanged
  refine ite (hP.downloadStatusChanged h env k false)
    (ite (hP.downloadStatusChanged h env k true) ?_)
  have h1 := hP.savePriorityInfo s h
  dsimp only
  split
  · exact h1
  · exact ite (hP.emit _ _ (hP.prioritise _ _ _ _ h1)) (hP.prioritise _ _ _ _ h1)

/-- What is closed under changes of chunks is kept when the selection changes.
Source: `torrent/torrentfile.cpp`. Kind: L -/
theorem changeSelection (hP : Closed P) (h : P s) (env : Env) (k : ℕ) (p : Priority) :
    P (s.changeSelection env k p) :=
  ite (hP.downloadPriorityChanged (hP.choose _ _ h) env k _ _) (hP.choose _ _ h)

/-- What is closed under changes of chunks is kept when a file is deselected or selected.
Source: `TorrentFile::setDoNotDownload`. Kind: L -/
theorem setDoNotDownload (hP : Closed P) (h : P s) (env : Env) (k : ℕ) (dnd : Bool) :
    P (s.setDoNotDownload env k dnd) := by
  have h1 : ∀ (t : ChunkManager L) (c : Prop) [Decidable c] (p : Priority), P t →
      P (if c then t.changeSelection env k p else t) :=
    fun t _ _ p ht => ite (hP.changeSelection ht env k p) ht
  exact h1 _ _ _ (h1 _ _ _ h)

/-- What is closed under changes of chunks is kept when a priority is set.
Source: `TorrentFile::setPriority`. Kind: L -/
theorem setPriority (hP : Closed P) (h : P s) (env : Env) (k : ℕ) (p : Priority) :
    P (s.setPriority env k p) := by
  have h1 : P (if (s.files k).priority = .excluded then s.setDoNotDownload env k false else s) :=
    ite (hP.setDoNotDownload h env k false) h
  unfold ChunkManager.setPriority
  exact ite h (ite (hP.setDoNotDownload h1 env k true)
    (hP.downloadPriorityChanged (hP.choose _ _ h1) env k _ _))

/-- What is closed under changes of chunks is kept when the old list of deselected files is read.
Source: `ChunkManager::loadFileInfo`. Kind: L -/
theorem loadFileInfo (hP : Closed P) (h : P s) (env : Env) : P (s.loadFileInfo env) := by
  unfold ChunkManager.loadFileInfo
  refine ite h ?_
  split
  · exact h
  · exact h
  · refine List.foldlRecOn (motive := P) _ _ h fun t ht k _ => ?_
    exact ite (hP.setDoNotDownload ht env k true) ht

/-- What is closed under changes of chunks is kept by the pairs of the priority file.
Source: `ChunkManager::loadPriorityInfo`. Kind: L -/
theorem loadPriorities (hP : Closed P) (h : P s) (env : Env) (buf : List ℕ) :
    P (loadPriorities env buf s) := by
  fun_induction ChunkManager.loadPriorities env buf s with
  | case1 => exact h
  | case2 => exact hP.loadFileInfo h env
  | case3 => exact hP.setPriority h env _ _
  | case4 => exact hP.loadFileInfo h env
  | case5 _ _ _ _ _ ih => exact ih (hP.setPriority h env _ _)

/-- What is closed under changes of chunks is kept when the priority file is read.
Source: `ChunkManager::loadPriorityInfo`. Kind: L -/
theorem loadPriorityInfo (hP : Closed P) (h : P s) (env : Env) : P (s.loadPriorityInfo env) := by
  unfold ChunkManager.loadPriorityInfo
  split
  · exact hP.loadFileInfo h env
  · exact hP.loadFileInfo h env
  · exact ite (hP.loadFileInfo h env) (hP.loadPriorities h env _)

/-- A chunk manager constructed for files selected in any way. Source: `ChunkManager::ChunkManager`.
Kind: L -/
theorem construct (hP : Closed P) (env : Env) (files : ℕ → FileSelection) (saved : Saved)
    (h : P (base L files saved)) : P (construct L env files saved) := by
  have h1 : P (forRange 0 L.torrent.getNumFiles (fun k (s : ChunkManager L) =>
      if (s.files k).priority ≠ .normal then
        s.downloadPriorityChanged env k (s.files k).priority (s.files k).old_priority
      else s) (base L files saved)) :=
    forRange_inv (P := P) (fun k _ _ t ht => ite (hP.downloadPriorityChanged ht env k _ _) ht) h
  have h2 := hP.prioritise _ 0 (L.numChunks / 100 + 1) .preview h1
  unfold ChunkManager.construct
  refine ite ?_ (ite (ite (hP.prioritise _ _ _ _ h2) h2) h1)
  refine forRange_inv (P := P) (fun k _ _ t ht => ?_) h1
  exact ite ht (ite (hP.prioritise _ _ _ _ ht) (hP.prioritiseEnds ht _ _ _))

end Closed

/-! ### Before the records are read -/

/-- No chunk is owned, and the index file is as it was. Kind: D -/
structure Blank (records : List ℕ) (s : ChunkManager L) : Prop where
  bitset : ∀ i, s.bitset.get i = false
  index_file : s.index_file = records

section blank

variable {records : List ℕ} {s : ChunkManager L}

/-- No bit is on when one is put off. Source: `torrent/chunkmanager.cpp`. Kind: L -/
theorem get_set_false {n : ℕ} {b : BitSet n} (h : ∀ i, b.get i = false) (i j : ℕ) :
    (b.set i false).get j = false := by
  rw [BitSet.get_set]
  split_ifs
  · rfl
  · exact h j

/-- A change of a chunk owns none. Source: `torrent/chunkmanager.cpp`. Kind: L -/
theorem blank_modifyChunk (h : Blank records s) (i : ℕ) (f : Chunk → Chunk) :
    Blank records (s.modifyChunk i f) := by
  rw [modifyChunk_frame]
  exact ⟨h.bitset, h.index_file⟩

/-- A reset owns none. Source: `ChunkManager::resetChunk`. Kind: L -/
theorem blank_resetChunk (h : Blank records s) (os : Os) (i : ℕ) :
    Blank records (s.resetChunk os i) := by
  unfold resetChunk
  split_ifs
  · exact h
  · rw [modifyChunk_frame, saveMapped_frame]
    exact ⟨get_set_false h.bitset i, h.index_file⟩

/-- A priority owns none. Source: `ChunkManager::prioritise`. Kind: L -/
theorem blank_prioritise (h : Blank records s) (a b : ℕ) (p : Priority) :
    Blank records (s.prioritise a b p) := by
  refine forRange_inv (P := Blank records) (fun i _ _ t ht => ?_) h
  have h1 := blank_modifyChunk ht i fun c => { c with priority := p }
  unfold prioritiseChunk
  split <;> exact ⟨h1.bitset, h1.index_file⟩

/-- Including owns none. Source: `ChunkManager::include`. Kind: L -/
theorem blank_includeRange (h : Blank records s) (a b : ℕ) :
    Blank records (s.includeRange a b) := by
  have h1 : Blank records (s.forChunks a b includeChunk) := by
    refine forRange_inv (P := Blank records) (fun i _ _ t ht => ?_) h
    have h1 := blank_modifyChunk ht i fun c => c.setExclude false
    exact ⟨h1.bitset, h1.index_file⟩
  exact ⟨h1.bitset, h1.index_file⟩

/-- Excluding owns none. Source: `ChunkManager::exclude`. Kind: L -/
theorem blank_excludeRange (h : Blank records s) (a b : ℕ) :
    Blank records (s.excludeRange a b) := by
  have h1 : Blank records (s.forChunks a b excludeChunk) := by
    refine forRange_inv (P := Blank records) (fun i _ _ t ht => ?_) h
    have h1 := blank_modifyChunk ht i fun c => c.setExclude true
    exact ⟨get_set_false h1.bitset i, h1.index_file⟩
  exact ⟨h1.bitset, h1.index_file⟩

/-- Writing the priority file owns none. Source: `ChunkManager::savePriorityInfo`. Kind: L -/
theorem blank_savePriorityInfo (h : Blank records s) : Blank records s.savePriorityInfo := by
  unfold savePriorityInfo
  split_ifs
  · exact h
  · exact ⟨h.bitset, h.index_file⟩

/-- Telling the cache owns none. Source: `torrent/chunkmanager.cpp`. Kind: L -/
theorem blank_alertCache (h : Blank records s) (env : Env) (k : ℕ) :
    Blank records (s.alertCache env k) :=
  blank_savePriorityInfo ⟨h.bitset, h.index_file⟩

/-- Owning none is closed under changes of chunks. Source: `torrent/chunkmanager.cpp`. Kind: L -/
theorem closed_blank : Closed (Blank (L := L) records) where
  resetChunk _ os i h := blank_resetChunk h os i
  prioritise _ a b p h := blank_prioritise h a b p
  includeRange _ a b h := blank_includeRange h a b
  excludeRange _ a b h := blank_excludeRange h a b
  alertCache _ env k h := blank_alertCache h env k
  savePriorityInfo _ h := blank_savePriorityInfo h
  emit _ _ h := ⟨h.bitset, h.index_file⟩
  choose _ _ h := ⟨h.bitset, h.index_file⟩

end blank

/-! ### Reading the records -/

/-- The chunks that `saveIndexFile` writes a record for. Kind: D -/
def written (s : ChunkManager L) : List ℕ :=
  ((List.finRange L.numChunks).filter fun i : Fin L.numChunks =>
    (s.chunks i).status ≠ .notDownloaded).map Fin.val

/-- The index file lists the chunks that have data. Source: `torrent/chunkmanager.cpp`. Kind: L -/
theorem mem_written {s : ChunkManager L} (i : Fin L.numChunks) :
    i.val ∈ s.written ↔ (s.chunks i).status ≠ .notDownloaded := by
  unfold written
  rw [List.mem_map]
  constructor
  · rintro ⟨j, hj, hij⟩
    obtain rfl := Fin.ext hij
    simpa using hj
  · intro h
    exact ⟨i, by simpa using h, rfl⟩

/-- What the index file holds once it has been saved. Source: `ChunkManager::saveIndexFile`.
Kind: L -/
theorem index_file_saveIndexFile {os : Os} (hopen : os.index_opens = true) (s : ChunkManager L) :
    (s.saveIndexFile os).1.index_file = s.written := by
  unfold saveIndexFile
  rw [if_pos hopen]
  unfold savePriorityInfo
  dsimp only
  split_ifs <;> rfl

/-- An entry sets its bit. Source: `ChunkManager::loadIndexFile`. Kind: L -/
theorem get_loadHeader (s : ChunkManager L) (index : ℕ) (j : Fin L.numChunks) :
    (s.loadHeader index).bitset.get j = (s.bitset.get j || decide (j.val = index)) := by
  unfold loadHeader
  split_ifs with h
  · rw [modifyChunk_frame]
    show (s.bitset.set index true).get j = _
    rw [get_set_fin]
    split_ifs with hj <;> simp [hj]
  · have hne : j.val ≠ index := fun hj => h (hj ▸ j.2)
    simp [hne]

/-- Every record read gives its chunk a have-bit. Source: `ChunkManager::loadIndexFile`. Kind: L -/
theorem get_foldl_loadHeader (s : ChunkManager L) (records : List ℕ) (j : Fin L.numChunks) :
    (records.foldl loadHeader s).bitset.get j = (s.bitset.get j || decide (j.val ∈ records)) := by
  induction records generalizing s with
  | nil => simp
  | cons r records ih =>
    rw [List.foldl_cons, ih, get_loadHeader, Bool.or_assoc, ← Bool.decide_or]
    simp [List.mem_cons]

/-- **Saving the index file and loading it into a new chunk manager of the same torrent**, whose
files may be selected in any way. Kind: D -/
def reload (env : Env) (files : ℕ → FileSelection) (s : ChunkManager L) : ChunkManager L :=
  let s := (s.saveIndexFile env.file).1
  let fresh := construct L env files
    { cache := s.cache
      index_file := s.index_file
      file_priority := s.file_priority
      file_info := s.file_info }
  fresh.loadIndexFile env

/-- The have-bits of a new chunk manager that has loaded an index file.
Source: `torrent/chunkmanager.cpp`. Kind: L -/
theorem get_bitset_load {env : Env} (hopen : env.file.index_opens = true)
    (files : ℕ → FileSelection) (saved : Saved) (j : Fin L.numChunks) :
    ((construct L env files saved).loadIndexFile env).bitset.get j =
      decide (saved.index_file ≠ [] ∧ (j.val ∈ saved.index_file ∨ j.val = env.word)) := by
  have hb : Blank saved.index_file (base L files saved) := ⟨fun i => by simp [base], rfl⟩
  have hblank := closed_blank.construct env files saved hb
  obtain ⟨t, ht⟩ : ∃ t, t =
      { construct L env files saved with during_load := true }.loadPriorityInfo env := ⟨_, rfl⟩
  have hblank' : Blank saved.index_file t := by
    have h1 : Blank saved.index_file { construct L env files saved with during_load := true } :=
      ⟨hblank.bitset, hblank.index_file⟩
    rw [ht]
    exact closed_blank.loadPriorityInfo h1 env
  have hload : ((construct L env files saved).loadIndexFile env).bitset =
      (if saved.index_file ≠ [] then (saved.index_file ++ [env.word]).foldl loadHeader t
        else t).bitset := by
    unfold loadIndexFile
    dsimp only
    rw [← ht, hblank'.index_file]
    simp only [hopen, true_and]
  rw [hload]
  by_cases hw : saved.index_file = []
  · simp [hw, hblank'.bitset]
  · rw [if_pos hw, get_foldl_loadHeader, hblank'.bitset]
    simp [hw]

/-- The have-bits of the new chunk manager. Source: `torrent/chunkmanager.cpp`. Kind: L -/
theorem get_bitset_reload {env : Env} (hopen : env.file.index_opens = true)
    (files : ℕ → FileSelection) (s : ChunkManager L) (j : Fin L.numChunks) :
    (s.reload env files).bitset.get j =
      decide (s.written ≠ [] ∧ (j.val ∈ s.written ∨ j.val = env.word)) := by
  unfold reload
  rw [get_bitset_load hopen, index_file_saveIndexFile hopen]

/-! ### The round trip -/

/-- **Loading restores the have-bits that were saved.** Kind: D -/
def Restores (env : Env) (files : ℕ → FileSelection) (s : ChunkManager L) : Prop :=
  (s.reload env files).bitset = s.bitset

/-- What the header holds that is never read: a record, or no chunk's number. Kind: D -/
def Leftover (env : Env) (s : ChunkManager L) : Prop :=
  env.word ∈ s.written ∨ L.numChunks ≤ env.word

section roundTrip

variable {s : ChunkManager L} {env : Env}

/-- The exact condition, whatever the header holds that is never read.
Source: `torrent/chunkmanager.cpp`. Kind: L -/
theorem restores_iff (hopen : env.file.index_opens = true) (files : ℕ → FileSelection) :
    s.Restores env files ↔ ∀ j : Fin L.numChunks, s.bitset.get j = true ↔
      s.written ≠ [] ∧ ((s.chunks j).status ≠ .notDownloaded ∨ j.val = env.word) := by
  have hget := fun j => get_bitset_reload hopen files s j
  constructor
  · intro h j
    have h1 := hget j
    rw [show (s.reload env files).bitset = s.bitset from h] at h1
    rw [h1, decide_eq_true_eq, mem_written]
  · intro h
    refine BitSet.ext_get fun i hi => ?_
    rw [hget ⟨i, hi⟩, Bool.eq_iff_iff, decide_eq_true_eq, h ⟨i, hi⟩, mem_written]

/-- **The round trip succeeds exactly when the chunks with data are the chunks owned.**.
Source: `torrent/chunkmanager.cpp`. Kind: P -/
theorem restores_iff_matched (hopen : env.file.index_opens = true) (files : ℕ → FileSelection)
    (hleft : Leftover env s) : s.Restores env files ↔ Matched s := by
  rw [restores_iff hopen files]
  refine forall_congr' fun j => ?_
  have hiff : (s.written ≠ [] ∧ ((s.chunks j).status ≠ .notDownloaded ∨ j.val = env.word)) ↔
      (s.chunks j).status ≠ .notDownloaded := by
    constructor
    · rintro ⟨-, h | h⟩
      · exact h
      · rcases hleft with hl | hl
        · exact (mem_written j).mp (h ▸ hl)
        · exact absurd hl (not_le.mpr (h ▸ j.2))
    · intro h
      exact ⟨List.ne_nil_of_mem ((mem_written j).mpr h), Or.inl h⟩
  rw [hiff]
  exact Iff.comm

/-- **The index file over whole runs.** In every state passed the round trip succeeds exactly when
the chunks with data are the chunks owned; and it succeeds in all of them exactly as long as every
operation keeps that so. Source: `torrent/chunkmanager.cpp`. Kind: P -/
theorem restores_run_iff (L : Layout) (env₀ : Env) (saved : Saved) (ops : List (Op L)) :
    (∀ pre, pre <+: ops → ∀ env files, env.file.index_opens = true →
        Leftover env (run apply (construct L env₀ (fun _ => {}) saved) pre) →
        ((run apply (construct L env₀ (fun _ => {}) saved) pre).Restores env files ↔
          Matched (run apply (construct L env₀ (fun _ => {}) saved) pre))) ∧
    ((∀ pre, pre <+: ops → ∀ env files, env.file.index_opens = true →
        Leftover env (run apply (construct L env₀ (fun _ => {}) saved) pre) →
        (run apply (construct L env₀ (fun _ => {}) saved) pre).Restores env files) ↔
      Meets apply Matches (construct L env₀ (fun _ => {}) saved) ops) := by
  refine ⟨fun pre _ env files hopen hleft => restores_iff_matched hopen files hleft, ?_⟩
  rw [← matched_run_iff]
  refine forall_congr' fun pre => forall_congr' fun _ => ⟨fun h => ?_, fun h => ?_⟩
  · have hleft : Leftover { word := L.numChunks }
        (run apply (construct L env₀ (fun _ => {}) saved) pre) := Or.inr le_rfl
    exact (restores_iff_matched rfl _ hleft).mp (h { word := L.numChunks } (fun _ => {}) rfl hleft)
  · intro env files hopen hleft
    exact (restores_iff_matched hopen files hleft).mpr h

end roundTrip

/-! ### A chunk that was only prepared -/

/-- One chunk in a torrent of one file. Kind: D -/
def singleLayout : Layout :=
  .checked [] 16 16 []
    [Vector.replicate 20 0] (by decide)

/-- A chunk prepared for download, with nothing downloaded yet, comes back as owned.
Source: `torrent/chunkmanager.cpp`. Kind: P -/
theorem prepared_reloads_as_owned :
    ¬ ∀ (L : Layout) (env₀ env : Env) (saved : Saved) (files : ℕ → FileSelection)
        (ops : List (Op L)), env.file.index_opens = true →
      Leftover env (run apply (construct L env₀ (fun _ => {}) saved) ops) →
      (run apply (construct L env₀ (fun _ => {}) saved) ops).Restores env files := by
  intro h
  have h1 := h singleLayout {} { word := 1 } ⟨⟨fun _ => 0, 0⟩, [], none, none⟩ (fun _ => {})
    [.prepareChunk {} 0 false] rfl (Or.inr (by decide))
  have h2 := (restores_iff rfl _).mp h1 ⟨0, by decide⟩
  revert h2
  decide

end ChunkManager

end KTorrent.Storage
