import KTorrent.Storage.Deselect
import KTorrent.Storage.IndexFile
import KTorrent.Storage.Ownership
import KTorrent.Storage.Bookkeeping
import KTorrent.Storage.PriorityFile

/-!
# Files that are missing

Before a torrent starts, the files that are wanted are looked for. If some are missing they are
made again, or excluded; either way every chunk that lies in one of them is no longer owned.

* `MissingFiles` — the chunk manager, and which files have been found missing.
* `Lost` — the chunks that lie in a missing file.
* `Settled` — a file after another, what both loops do to the chunks and to the flags.
* `Fresh` — no chunk has data or is owned, as before an index file is loaded (`matched_load`).
* `settled_run` — on every run, making the files again and excluding them leave exactly the chunks
  that are owned and not lost, in memory and in the index file, and no file is missing any more;
  and files that have been excluded are not found missing again.

The path of each file that is missing is left out, and so is what the downloader does afterwards,
which is `dataChecked` of the downloader.

Source: `torrent/chunkmanager.cpp`, `torrent/multifilecache.cpp`, `torrent/singlefilecache.cpp`
-/

namespace KTorrent.Storage

open KTorrent.Lib KTorrent.Util

/-- A chunk manager, and the flags of its files. Source: `TorrentFile::missing`. Kind: D -/
structure MissingFiles (L : Layout) where
  cman : ChunkManager L
  missing : ℕ → Bool := fun _ => false

namespace MissingFiles

variable {L : Layout}

/-- `gone` are the files that are not on the disk, of which a torrent without a list of files has
one. The answer is whether something is missing.
Source: `MultiFileCache::hasMissingFiles`, `SingleFileCache::hasMissingFiles`. Kind: D -/
def hasMissingFiles (gone : ℕ → Bool) (s : MissingFiles L) : MissingFiles L × Bool :=
  if L.torrent.isMultiFile then
    forRange 0 L.torrent.getNumFiles (fun k r =>
      if (r.1.cman.files k).doNotDownload then r
      else if gone k then ({ r.1 with missing := Function.update r.1.missing k true }, true)
      else r) (s, false)
  else (s, gone 0)

/-- Every chunk the file lies in is reset. Source: `ChunkManager::recreateMissingFiles` and
`ChunkManager::dndMissingFiles`, the inner loops. Kind: D -/
def resetChunks (env : Env) (k : ℕ) (s : ChunkManager L) : ChunkManager L :=
  forRange (L.first k) (L.last k + 1) (fun j s => s.resetChunk (env.chunk j) j) s

/-- The loop over the files that are missing; `settle` is what is done to each besides.
Source: `ChunkManager::recreateMissingFiles` and `ChunkManager::dndMissingFiles`. Kind: D -/
def forMissing (env : Env) (settle : ℕ → ChunkManager L → ChunkManager L) (n : ℕ)
    (s : MissingFiles L) : MissingFiles L :=
  forRange 0 n (fun k s =>
    if !s.missing k then s
    else
      { cman := settle k (resetChunks env k s.cman)
        missing := Function.update s.missing k false }) s

/-- `created` is what the files hold after they have been made again, `none` when that throws.
Source: `ChunkManager::recreateMissingFiles`; `false` when it throws. Kind: D -/
def recreateMissingFiles (env : Env) (created : Option Cache) (s : MissingFiles L) :
    MissingFiles L × Bool :=
  match created with
  | none => (s, false)
  | some cache =>
    let s : MissingFiles L := { s with cman := { s.cman with cache } }
    let s :=
      if L.torrent.isMultiFile then s.forMissing env (fun _ s => s) L.torrent.getNumFiles
      else { s with
        cman := forRange 0 L.numChunks (fun j s => s.resetChunk (env.chunk j) j) s.cman }
    let r := s.cman.saveIndexFile env.file
    ({ s with cman := r.1 }, r.2)

/-- Source: `ChunkManager::dndMissingFiles`; `false` when it throws. Kind: D -/
def dndMissingFiles (env : Env) (s : MissingFiles L) : MissingFiles L × Bool :=
  let s := s.forMissing env (fun k s => s.setDoNotDownload env k true) L.torrent.getNumFiles
  let r := s.cman.savePriorityInfo.saveIndexFile env.file
  ({ s with cman := r.1 }, r.2)

/-- A chunk lies in a missing file. Kind: D -/
def Lost (L : Layout) (missing : ℕ → Bool) (n j : ℕ) : Prop :=
  ∃ k < n, missing k = true ∧ L.first k ≤ j ∧ j ≤ L.last k

/-! ### One file -/

variable {s : ChunkManager L}

/-- The chunks of file `k` have no data. Kind: D -/
def Bare (k : ℕ) (s : ChunkManager L) : Prop := ∀ j : Fin L.numChunks,
  L.first k ≤ j.val → j.val ≤ L.last k →
    s.bitset.get j = false ∧ (s.chunks j).status = .notDownloaded

/-- The chunks of a file are reset, the others left. Source: `ChunkManager::recreateMissingFiles`
and `ChunkManager::dndMissingFiles`. Kind: L -/
theorem cell_resetChunks (env : Env) (k : ℕ) (j : Fin L.numChunks) :
    (resetChunks env k s).cell j =
      if L.first k ≤ j.val ∧ j.val ≤ L.last k then (s.cell j).reset else s.cell j := by
  unfold resetChunks
  rw [ChunkManager.cell_resetRange]
  exact if_congr (and_congr_right fun _ => Nat.lt_succ_iff) rfl rfl

/-- After that none of them has data. Source: `ChunkManager::recreateMissingFiles` and
`ChunkManager::dndMissingFiles`. Kind: L -/
theorem bare_resetChunks (env : Env) (k : ℕ) : Bare k (resetChunks env k s) := by
  intro j h1 h2
  have hcell := cell_resetChunks (s := s) env k j
  rw [if_pos ⟨h1, h2⟩] at hcell
  exact ⟨congrArg Cell.owned hcell, congrArg (fun c => c.chunk.status) hcell⟩

/-- Excluding a file without data leaves the ownership of every chunk alone.
Source: `ChunkManager::downloadStatusChanged`. Kind: L -/
theorem owned_deselectFile (env : Env) {k : ℕ} (hle : L.first k ≤ L.last k) (h : Bare k s)
    (j : Fin L.numChunks) : (s.deselectFile env k).bitset.get j = s.bitset.get j := by
  rw [← ChunkManager.cell_owned, ← ChunkManager.cell_owned]
  by_cases hc : ChunkManager.Layout.crowded L k
  · rw [s.deselectFile_of_crowded k env hc, ChunkManager.cell_alertCache]
  obtain ⟨pf, pl, -, -, hcell⟩ := s.cell_deselectFile k env hle hc
  by_cases hin : L.first k ≤ j.val ∧ j.val ≤ L.last k
  · have hno : s.bitset.get j = false := (h j hin.1 hin.2).1
    simp only [hcell j]
    split_ifs <;> simp [Cell.prioritise, Cell.exclude, Cell.reset, hno]
  · rw [ChunkManager.cell_deselect_outside env hle hc (by omega)]

/-- Excluding a file without data keeps the chunks with data the chunks owned.
Source: `ChunkManager::downloadStatusChanged`. Kind: L -/
theorem matched_deselectFile (env : Env) {k : ℕ} (hle : L.first k ≤ L.last k) (h : Bare k s)
    (hs : s.Matched) : (s.deselectFile env k).Matched :=
  (ChunkManager.matched_deselectFile_iff hs env hle).mpr fun _ j hj =>
    (h j hj.2.1 hj.2.2.1).2

/-- What excluding a file can do to the chunk manager: it sets the file's priority, and may deselect
it. Source: `TorrentFile::setDoNotDownload`. Kind: L -/
theorem setDoNotDownload_cases (env : Env) (k : ℕ) (s : ChunkManager L) :
    s.setDoNotDownload env k true = s ∨ ∃ files : ℕ → FileSelection,
      s.setDoNotDownload env k true = { s with files } ∨
        s.setDoNotDownload env k true = ChunkManager.deselectFile env k { s with files } := by
  by_cases hp : (s.files k).priority = .excluded
  · refine .inl ?_
    unfold ChunkManager.setDoNotDownload
    simp [hp]
  · have hchange : s.setDoNotDownload env k true = s.changeSelection env k .excluded := by
      exact (if_neg fun h => by cases h.2).trans (if_pos ⟨hp, rfl⟩)
    rw [hchange]
    unfold ChunkManager.changeSelection
    by_cases hemit : (s.files k).m_emitDlStatusChanged = true
    · simp only [if_pos hemit]
      exact .inr ⟨_, .inr (ChunkManager.downloadPriorityChanged_excluded _ env k _)⟩
    · simp only [if_neg hemit]
      exact .inr ⟨_, .inl rfl⟩

/-- Excluding a file whose chunks are bare loses no bit. Source: `TorrentFile::setDoNotDownload`.
Kind: L -/
theorem owned_setDoNotDownload (env : Env) {k : ℕ} (hle : L.first k ≤ L.last k) (h : Bare k s)
    (j : Fin L.numChunks) : (s.setDoNotDownload env k true).bitset.get j = s.bitset.get j := by
  rcases setDoNotDownload_cases env k s with heq | ⟨files, heq | heq⟩ <;> rw [heq]
  exact owned_deselectFile (s := { s with files }) env hle h j

/-- Excluding a file whose chunks are bare keeps data and ownership matched.
Source: `TorrentFile::setDoNotDownload`. Kind: L -/
theorem matched_setDoNotDownload (env : Env) {k : ℕ} (hle : L.first k ≤ L.last k) (h : Bare k s)
    (hs : s.Matched) : (s.setDoNotDownload env k true).Matched := by
  rcases setDoNotDownload_cases env k s with heq | ⟨files, heq | heq⟩ <;> rw [heq]
  · exact hs
  · exact hs
  · exact matched_deselectFile (s := { s with files }) env hle h hs

/-! ### All files -/

/-- What has been done after the first `n` files: their flags are cleared, and of the chunks owned
those are left that lie in none that was missing. Kind: D -/
structure Settled (s t : MissingFiles L) (n : ℕ) : Prop where
  owned : ∀ j : Fin L.numChunks, t.cman.bitset.get j = true ↔
    s.cman.bitset.get j = true ∧ ¬ Lost L s.missing n j
  matched : s.cman.Matched → t.cman.Matched
  missing : ∀ k, t.missing k = true ↔ s.missing k = true ∧ n ≤ k

/-- The loop body may do to a file that has no data what keeps the chunks. Kind: D -/
structure Settles (settle : ℕ → ChunkManager L → ChunkManager L) : Prop where
  owned : ∀ k < L.files.length, ∀ s : ChunkManager L, Bare k s → ∀ j : Fin L.numChunks,
    (settle k s).bitset.get j = s.bitset.get j
  matched : ∀ k < L.files.length, ∀ s : ChunkManager L, Bare k s → s.Matched →
    (settle k s).Matched

/-- Nothing is done to a file. Source: `torrent/chunkmanager.cpp`, `torrent/multifilecache.cpp`.
Kind: L -/
theorem settles_id : Settles (L := L) fun _ s => s :=
  ⟨fun _ _ _ _ _ => rfl, fun _ _ _ _ hs => hs⟩

/-- Excluding the file. Source: `TorrentFile::setDoNotDownload`. Kind: L -/
theorem settles_setDoNotDownload (env : Env) :
    Settles (L := L) fun k s => s.setDoNotDownload env k true :=
  ⟨fun _ hk _ h j => owned_setDoNotDownload env (L.first_le_last hk) h j,
    fun _ hk _ h hs => matched_setDoNotDownload env (L.first_le_last hk) h hs⟩

/-- A reset keeps data and ownership matched. Source: `ChunkManager::recreateMissingFiles` and
`ChunkManager::dndMissingFiles`. Kind: L -/
theorem matched_resetChunks (env : Env) (k : ℕ) (hs : s.Matched) :
    (resetChunks env k s).Matched := by
  refine ChunkManager.matched_iff.mpr fun j => ?_
  rw [cell_resetChunks]
  exact Cell.matched_ite (fun _ => Cell.matched_reset _) (fun _ => hs j)

/-- The loop, one file further. Source: `ChunkManager::recreateMissingFiles` and
`ChunkManager::dndMissingFiles`. Kind: L -/
theorem forMissing_succ (settle : ℕ → ChunkManager L → ChunkManager L) (env : Env)
    (s : MissingFiles L) (n : ℕ) : s.forMissing env settle (n + 1) =
      if !(s.forMissing env settle n).missing n then s.forMissing env settle n
      else
        { cman := settle n (resetChunks env n (s.forMissing env settle n).cman)
          missing := Function.update (s.forMissing env settle n).missing n false } :=
  forRange_succ (Nat.zero_le n) _ s

/-- What is lost with one more file. Source: `torrent/chunkmanager.cpp`,
`torrent/multifilecache.cpp`. Kind: L -/
theorem lost_succ (missing : ℕ → Bool) (n j : ℕ) : Lost L missing (n + 1) j ↔
    Lost L missing n j ∨ missing n = true ∧ L.first n ≤ j ∧ j ≤ L.last n := by
  constructor
  · rintro ⟨k, hk, hrest⟩
    rcases Nat.lt_succ_iff_lt_or_eq.mp hk with hlt | rfl
    · exact .inl ⟨k, hlt, hrest⟩
    · exact .inr hrest
  · rintro (⟨k, hk, hrest⟩ | hrest)
    · exact ⟨k, by omega, hrest⟩
    · exact ⟨n, by omega, hrest⟩

/-- The next file still has its flag. Source: `torrent/chunkmanager.cpp`,
`torrent/multifilecache.cpp`. Kind: L -/
theorem Settled.flag {s t : MissingFiles L} {n : ℕ} (h : Settled s t n) :
    t.missing n = s.missing n :=
  Bool.eq_iff_iff.mpr ((h.missing n).trans (and_iff_left le_rfl))

/-- **One file after another.**. Source: `ChunkManager::recreateMissingFiles` and
`ChunkManager::dndMissingFiles`. Kind: P -/
theorem settled_forMissing {settle : ℕ → ChunkManager L → ChunkManager L} (hsettle : Settles settle)
    (env : Env) (s : MissingFiles L) {n : ℕ} (hn : n ≤ L.files.length) :
    Settled s (s.forMissing env settle n) n := by
  induction n with
  | zero =>
    refine ⟨fun j => ?_, id, fun k => ?_⟩
    · exact (and_iff_left fun ⟨k, hk, _⟩ => by omega).symm
    · exact (and_iff_left (Nat.zero_le k)).symm
  | succ n ih =>
    have hprev := ih (by omega)
    rw [forMissing_succ, hprev.flag]
    generalize s.forMissing env settle n = t at hprev
    cases hm : s.missing n with
    | false =>
      rw [if_pos (by rfl)]
      refine ⟨fun j => ?_, hprev.matched, fun k => ?_⟩
      · rw [hprev.owned, lost_succ, hm]
        simp
      · rw [hprev.missing]
        refine and_congr_right fun hk => ⟨fun hle => ?_, fun hle => by omega⟩
        rcases Nat.eq_or_lt_of_le hle with rfl | hlt
        · rw [hm] at hk
          cases hk
        · exact hlt
    | true =>
      rw [if_neg (by simp)]
      have hbare := bare_resetChunks (s := t.cman) env n
      refine ⟨fun j => ?_, fun hs => ?_, fun k => ?_⟩
      · show (settle n (resetChunks env n t.cman)).bitset.get j = true ↔ _
        rw [hsettle.owned n (by omega) _ hbare, lost_succ, hm]
        have hcell := congrArg Cell.owned (cell_resetChunks (s := t.cman) env n j)
        rw [ChunkManager.cell_owned] at hcell
        rw [hcell]
        by_cases hin : L.first n ≤ j.val ∧ j.val ≤ L.last n
        · rw [if_pos hin]
          simp [Cell.reset, hin]
        · rw [if_neg hin, ChunkManager.cell_owned, hprev.owned]
          simp [hin]
      · exact hsettle.matched n (by omega) _ hbare (matched_resetChunks env n (hprev.matched hs))
      · show Function.update t.missing n false k = true ↔ _
        by_cases hk : k = n
        · subst hk
          simp
        · rw [Function.update_of_ne hk, hprev.missing]
          exact and_congr_right fun _ => by omega

/-! ### What is left -/

/-- The priorities after the files found missing have been excluded.
Source: `ChunkManager::recreateMissingFiles` and `ChunkManager::dndMissingFiles`. Kind: L -/
theorem priority_forMissing (env : Env) (s : MissingFiles L) {n : ℕ} (hn : n ≤ L.files.length)
    (k : ℕ) :
    ((s.forMissing env (fun k s => s.setDoNotDownload env k true) n).cman.files k).priority =
      if k < n ∧ s.missing k = true then .excluded else (s.cman.files k).priority := by
  induction n with
  | zero => simp [forMissing, forRange_of_le]
  | succ n ih =>
    have hle : n ≤ L.files.length := by omega
    have hprev := ih hle
    rw [forMissing_succ, (settled_forMissing (settles_setDoNotDownload env) env s hle).flag]
    generalize s.forMissing env (fun k s => s.setDoNotDownload env k true) n = t at hprev
    have hlt : k < n + 1 ↔ k < n ∨ k = n := Nat.lt_succ_iff_lt_or_eq
    cases hm : s.missing n with
    | false =>
      rw [if_pos (by rfl), hprev]
      refine if_congr ⟨fun h => ⟨by omega, h.2⟩, fun h => ⟨?_, h.2⟩⟩ rfl rfl
      rcases hlt.mp h.1 with h1 | rfl
      · exact h1
      · rw [hm] at h
        cases h.2
    | true =>
      rw [if_neg (by simp)]
      show (((resetChunks env n t.cman).setDoNotDownload env n true).files k).priority = _
      rw [PriorityFile.priority_setDoNotDownload_true]
      by_cases hk : k = n
      · subst hk
        simp [hm]
      · rw [if_neg hk, resetChunks, ChunkManager.files_resetRange, hprev]
        exact if_congr (and_congr_left fun _ => by omega) rfl rfl

/-- What the search for missing files finds. Source: `MultiFileCache::hasMissingFiles`,
`SingleFileCache::hasMissingFiles`. Kind: L -/
theorem hasMissingFiles_spec (gone : ℕ → Bool) (s : MissingFiles L) :
    (s.hasMissingFiles gone).1.cman = s.cman ∧
      (∀ k, (s.hasMissingFiles gone).1.missing k = true ↔ s.missing k = true ∨
        k < L.files.length ∧ (s.cman.files k).priority ≠ .excluded ∧ gone k = true) ∧
      (L.torrent.isMultiFile = true → ((s.hasMissingFiles gone).2 = true ↔
        ∃ k < L.files.length, (s.cman.files k).priority ≠ .excluded ∧ gone k = true)) := by
  have hnum : L.torrent.getNumFiles = L.files.length := L.length_files
  unfold hasMissingFiles
  rw [hnum]
  by_cases hmulti : L.torrent.isMultiFile = true
  · rw [if_pos hmulti]
    generalize L.files.length = n
    induction n with
    | zero => simp [forRange_of_le]
    | succ n ih =>
      rw [forRange_succ (Nat.zero_le n)]
      obtain ⟨hcman, hmissing, hfound⟩ := ih
      have hlt : ∀ k, k < n + 1 ↔ k < n ∨ k = n := fun k => Nat.lt_succ_iff_lt_or_eq
      set r := forRange 0 n (fun k (r : MissingFiles L × Bool) =>
        if (r.1.cman.files k).doNotDownload then r
        else if gone k then ({ r.1 with missing := Function.update r.1.missing k true }, true)
        else r) (s, false)
      have hdnd : (r.1.cman.files n).doNotDownload = true ↔
          (s.cman.files n).priority = .excluded := by
        rw [hcman]
        exact decide_eq_true_iff
      by_cases hskip : (s.cman.files n).priority = .excluded ∨ gone n = false
      · have hsame : (if (r.1.cman.files n).doNotDownload then r
            else if gone n then ({ r.1 with missing := Function.update r.1.missing n true }, true)
            else r) = r := by
          rcases hskip with h | h
          · exact if_pos (hdnd.mpr h)
          · rw [h]
            simp
        rw [hsame]
        have hnot : ¬ ((s.cman.files n).priority ≠ .excluded ∧ gone n = true) := by
          rintro ⟨h1, h2⟩
          rcases hskip with h | h
          · exact h1 h
          · rw [h] at h2
            cases h2
        refine ⟨hcman, fun k => (hmissing k).trans (or_congr_right ?_),
          fun h => (hfound h).trans ?_⟩
        · refine ⟨fun h => ⟨by omega, h.2⟩, fun h => ⟨?_, h.2⟩⟩
          rcases (hlt k).mp h.1 with h1 | rfl
          · exact h1
          · exact absurd h.2 hnot
        · refine ⟨fun ⟨k, hk, h⟩ => ⟨k, by omega, h⟩, fun ⟨k, hk, h⟩ => ⟨k, ?_, h⟩⟩
          rcases (hlt k).mp hk with h1 | rfl
          · exact h1
          · exact absurd h hnot
      · rw [not_or, Bool.not_eq_false] at hskip
        rw [if_neg (fun h => hskip.1 (hdnd.mp h)), if_pos hskip.2]
        refine ⟨hcman, fun k => ?_, fun _ => ⟨fun _ => ⟨n, by omega, hskip⟩, fun _ => rfl⟩⟩
        show Function.update r.1.missing n true k = true ↔ _
        by_cases hk : k = n
        · subst hk
          simp [hskip]
        · rw [Function.update_of_ne hk, hmissing]
          exact or_congr_right (and_congr_left fun _ => by omega)
  · have hnone : L.files.length = 0 := by
      unfold Torrent.isMultiFile at hmulti
      rw [← L.length_files]
      simpa using hmulti
    rw [if_neg hmulti, hnone]
    exact ⟨rfl, fun k => by simp, fun h => absurd h hmulti⟩

/-- Writing the index file leaves the selection. Source: `ChunkManager::saveIndexFile`. Kind: L -/
@[simp] theorem files_saveIndexFile (os : Os) : (s.saveIndexFile os).1.files = s.files := by
  unfold ChunkManager.saveIndexFile
  split_ifs
  · exact ChunkManager.files_savePriorityInfo _
  · rfl

/-- The index file has the chunks owned. Source: `torrent/chunkmanager.cpp`,
`torrent/multifilecache.cpp`. Kind: L -/
theorem mem_index_file {os : Os} (hs : s.Matched) (hopens : os.index_opens = true)
    (j : Fin L.numChunks) :
    j.val ∈ (s.saveIndexFile os).1.index_file ↔ s.bitset.get j = true := by
  rw [ChunkManager.index_file_saveIndexFile hopens, ChunkManager.mem_written]
  exact hs j

/-- The chunks owned are those that have been owned and are not lost, no file is missing, and when
the index file has been written it has these chunks. Kind: D -/
structure Cleared (s t : MissingFiles L) (written : Bool) : Prop where
  owned : ∀ j : Fin L.numChunks, t.cman.bitset.get j = true ↔
    s.cman.bitset.get j = true ∧ ¬ Lost L s.missing L.files.length j
  missing : ∀ k < L.files.length, t.missing k = false
  index : written = true → ∀ j : Fin L.numChunks,
    j.val ∈ t.cman.index_file ↔ t.cman.bitset.get j = true

/-- Writing the index file leaves the bit set. Source: `ChunkManager::saveIndexFile`. Kind: L -/
theorem bitset_saveIndexFile (os : Os) (j : Fin L.numChunks) :
    (s.saveIndexFile os).1.bitset.get j = s.bitset.get j :=
  congrArg Cell.owned (s.cell_saveIndexFile j os)

/-- Writing the index file succeeds if it can be opened. Source: `ChunkManager::saveIndexFile`.
Kind: L -/
theorem snd_saveIndexFile (os : Os) : (s.saveIndexFile os).2 = os.index_opens := by
  unfold ChunkManager.saveIndexFile
  split_ifs with h <;> simp [h]

/-- The index file is written after the loop. Source: `ChunkManager::saveIndexFile`. Kind: L -/
theorem cleared_saveIndexFile {s t : MissingFiles L} (h : Settled s t L.files.length)
    (hs : s.cman.Matched) (os : Os) :
    Cleared s { t with cman := (t.cman.saveIndexFile os).1 } (t.cman.saveIndexFile os).2 where
  owned j := by
    rw [← h.owned]
    exact Bool.eq_iff_iff.mp (bitset_saveIndexFile os j)
  missing k hk := by
    rw [← Bool.not_eq_true, h.missing]
    omega
  index hwritten j := by
    rw [snd_saveIndexFile] at hwritten
    exact (mem_index_file (h.matched hs) hwritten j).trans
      (Bool.eq_iff_iff.mp (bitset_saveIndexFile os j)).symm

/-- Making the files of a multi-file torrent again clears their chunks.
Source: `ChunkManager::recreateMissingFiles`. Kind: L -/
theorem cleared_recreate (hmulti : L.torrent.isMultiFile = true) {s : MissingFiles L}
    (hs : s.cman.Matched) (env : Env) (cache : Cache) :
    Cleared s (s.recreateMissingFiles env (some cache)).1
      (s.recreateMissingFiles env (some cache)).2 := by
  have hnum : L.torrent.getNumFiles = L.files.length := L.length_files
  have hsettled := settled_forMissing settles_id env
    { s with cman := { s.cman with cache } } (le_refl L.files.length)
  have hcleared := cleared_saveIndexFile hsettled hs env.file
  unfold recreateMissingFiles
  rw [← hnum] at hcleared
  simp only [if_pos hmulti]
  exact ⟨hcleared.owned, hcleared.missing, hcleared.index⟩

/-- Writing the priority file afterwards changes nothing of it.
Source: `ChunkManager::savePriorityInfo`. Kind: L -/
theorem settled_savePriorityInfo {s t : MissingFiles L} {n : ℕ} (h : Settled s t n) :
    Settled s { t with cman := t.cman.savePriorityInfo } n := by
  have hcell : ∀ j, t.cman.savePriorityInfo.cell j = t.cman.cell j :=
    fun j => t.cman.cell_savePriorityInfo j
  refine ⟨fun j => ?_, fun hs => ChunkManager.matched_iff.mpr fun j => ?_, h.missing⟩
  · rw [← h.owned]
    exact Bool.eq_iff_iff.mp (congrArg Cell.owned (hcell j))
  · rw [hcell]
    exact h.matched hs j

/-- Excluding the missing files clears their chunks. Source: `ChunkManager::dndMissingFiles`.
Kind: L -/
theorem cleared_dnd {s : MissingFiles L} (hs : s.cman.Matched) (env : Env) :
    Cleared s (s.dndMissingFiles env).1 (s.dndMissingFiles env).2 := by
  have hnum : L.torrent.getNumFiles = L.files.length := L.length_files
  have hsettled := settled_savePriorityInfo
    (settled_forMissing (settles_setDoNotDownload env) env s (le_refl L.files.length))
  have hcleared := cleared_saveIndexFile hsettled hs env.file
  unfold dndMissingFiles
  rw [hnum]
  exact hcleared

/-- Excluding the missing files sets the priority of these files only.
Source: `ChunkManager::dndMissingFiles`. Kind: L -/
theorem priority_dnd (s : MissingFiles L) (env : Env) (k : ℕ) :
    ((s.dndMissingFiles env).1.cman.files k).priority =
      if k < L.files.length ∧ s.missing k = true then .excluded
      else (s.cman.files k).priority := by
  have hnum : L.torrent.getNumFiles = L.files.length := L.length_files
  unfold dndMissingFiles
  dsimp only
  rw [hnum, files_saveIndexFile, ChunkManager.files_savePriorityInfo]
  exact priority_forMissing env s le_rfl k

/-- Files that have been excluded are not found missing again.
Source: `MultiFileCache::hasMissingFiles`, `SingleFileCache::hasMissingFiles`. Kind: L -/
theorem found_once (hmulti : L.torrent.isMultiFile = true) (s : MissingFiles L) (gone : ℕ → Bool)
    (env : Env) :
    (((s.hasMissingFiles gone).1.dndMissingFiles env).1.hasMissingFiles gone).2 = false := by
  rw [← Bool.not_eq_true, (hasMissingFiles_spec gone _).2.2 hmulti]
  rintro ⟨k, hk, hwanted, hgone⟩
  obtain ⟨hcman, hmissing, -⟩ := hasMissingFiles_spec gone s
  rw [priority_dnd, hcman] at hwanted
  by_cases hx : (s.cman.files k).priority = .excluded
  · rw [hx, ite_self] at hwanted
    exact hwanted rfl
  · rw [if_pos ⟨hk, (hmissing k).mpr (.inr ⟨hk, hx, hgone⟩)⟩] at hwanted
    exact hwanted rfl

/-! ### Runs -/

/-- What is called. Kind: D -/
inductive Event (L : Layout)
  | op (o : ChunkManager.Op L)
  | hasMissingFiles (gone : ℕ → Bool)
  | recreateMissingFiles (env : Env) (created : Option Cache)
  | dndMissingFiles (env : Env)

/-- The state after a call. Kind: D -/
def step (s : MissingFiles L) : Event L → MissingFiles L
  | .op o => { s with cman := s.cman.apply o }
  | .hasMissingFiles gone => (s.hasMissingFiles gone).1
  | .recreateMissingFiles env created => (s.recreateMissingFiles env created).1
  | .dndMissingFiles env => (s.dndMissingFiles env).1

/-- The operations of the chunk manager leave the chunks with data those that are owned. Kind: D -/
def Permitted (s : MissingFiles L) : Event L → Prop
  | .op o => s.cman.Matches o
  | _ => True

/-- Writing the index file keeps data and ownership matched. Source: `ChunkManager::saveIndexFile`.
Kind: L -/
theorem matched_saveIndexFile (hs : s.Matched) (os : Os) : (s.saveIndexFile os).1.Matched := by
  refine ChunkManager.matched_iff.mpr fun j => ?_
  rw [ChunkManager.cell_saveIndexFile]
  exact hs j

/-- A torrent without a list of files loses every chunk. Source: `torrent/chunkmanager.cpp`,
`torrent/multifilecache.cpp`. Kind: L -/
theorem cell_resetAll (env : Env) (j : Fin L.numChunks) :
    (forRange 0 L.numChunks (fun j s => s.resetChunk (env.chunk j) j) s).cell j =
      (s.cell j).reset := by
  rw [ChunkManager.cell_resetRange, if_pos ⟨Nat.zero_le _, j.2⟩]

/-- A torrent without a list of files owns nothing any more, and its index file lists nothing.
Source: `ChunkManager::recreateMissingFiles`. Kind: L -/
theorem recreate_single (hsingle : L.torrent.isMultiFile = false) (s : MissingFiles L) (env : Env)
    (cache : Cache) (j : Fin L.numChunks) :
    (s.recreateMissingFiles env (some cache)).1.cman.bitset.get j = false ∧
      ((s.recreateMissingFiles env (some cache)).2 = true →
        j.val ∉ (s.recreateMissingFiles env (some cache)).1.cman.index_file) := by
  let t : ChunkManager L :=
    forRange 0 L.numChunks (fun j s => s.resetChunk (env.chunk j) j) { s.cman with cache }
  have hcell : ∀ j, t.cell j = (ChunkManager.cell { s.cman with cache } j).reset :=
    fun j => cell_resetAll env j
  have hmatched : t.Matched := ChunkManager.matched_iff.mpr fun j => by
    rw [hcell]
    exact Cell.matched_reset _
  have hnone : t.bitset.get j = false := congrArg Cell.owned (hcell j)
  have hrec : s.recreateMissingFiles env (some cache) =
      ({ s with cman := (t.saveIndexFile env.file).1 }, (t.saveIndexFile env.file).2) := by
    unfold recreateMissingFiles
    simp only [hsingle, Bool.false_eq_true, if_false]
    rfl
  rw [hrec]
  refine ⟨(bitset_saveIndexFile env.file j).trans hnone, fun hwritten => ?_⟩
  rw [snd_saveIndexFile] at hwritten
  exact fun hmem => by simp [(mem_index_file hmatched hwritten j).mp hmem] at hnone

/-- Making the files again keeps data and ownership matched.
Source: `ChunkManager::recreateMissingFiles`. Kind: L -/
theorem matched_recreate {s : MissingFiles L} (hs : s.cman.Matched) (env : Env)
    (created : Option Cache) : (s.recreateMissingFiles env created).1.cman.Matched := by
  unfold recreateMissingFiles
  cases created with
  | none => exact hs
  | some cache =>
    refine matched_saveIndexFile ?_ env.file
    by_cases hmulti : L.torrent.isMultiFile = true
    · rw [if_pos hmulti]
      exact (settled_forMissing settles_id env _ L.length_files.le).matched hs
    · rw [if_neg hmulti]
      refine ChunkManager.matched_iff.mpr fun j => ?_
      rw [cell_resetAll]
      exact Cell.matched_reset _

/-- Excluding the missing files keeps data and ownership matched.
Source: `ChunkManager::dndMissingFiles`. Kind: L -/
theorem matched_dnd {s : MissingFiles L} (hs : s.cman.Matched) (env : Env) :
    (s.dndMissingFiles env).1.cman.Matched :=
  matched_saveIndexFile ((settled_savePriorityInfo (settled_forMissing
    (settles_setDoNotDownload env) env s L.length_files.le)).matched hs) env.file

/-- Every permitted event keeps data and ownership matched. Source: `torrent/chunkmanager.cpp`,
`torrent/multifilecache.cpp`. Kind: L -/
theorem matched_step {s : MissingFiles L} (hs : s.cman.Matched) (e : Event L)
    (h : s.Permitted e) : (s.step e).cman.Matched := by
  cases e with
  | op o => exact (ChunkManager.matched_apply_iff hs o).mpr h
  | hasMissingFiles gone =>
    show (s.hasMissingFiles gone).1.cman.Matched
    rw [(hasMissingFiles_spec gone s).1]
    exact hs
  | recreateMissingFiles env created => exact matched_recreate hs env created
  | dndMissingFiles env => exact matched_dnd hs env

/-! ### The state that is loaded -/

/-- No chunk has data, and none is owned. Kind: D -/
def Fresh (s : ChunkManager L) : Prop :=
  ∀ j, (s.cell j).owned = false ∧ (s.cell j).chunk.status = .notDownloaded

/-- A fresh manager stays so if the cells that change stay without data.
Source: `torrent/chunkmanager.cpp`, `torrent/multifilecache.cpp`. Kind: L -/
theorem Fresh.of_cells {t : ChunkManager L} (h : Fresh s) {p : Fin L.numChunks → Prop}
    [DecidablePred p] {f : Cell → Cell} (ht : ∀ j, t.cell j = if p j then f (s.cell j) else s.cell j)
    (hf : ∀ c : Cell, c.owned = false → c.chunk.status = .notDownloaded →
      (f c).owned = false ∧ (f c).chunk.status = .notDownloaded) : Fresh t := by
  intro j
  rw [ht]
  split_ifs
  · exact hf _ (h j).1 (h j).2
  · exact h j

/-- Selecting and deselecting give no chunk any data. Source: `torrent/chunkmanager.cpp`,
`torrent/multifilecache.cpp`. Kind: L -/
theorem closed_fresh : ChunkManager.Closed (Fresh (L := L)) where
  resetChunk s os i h := h.of_cells (fun j => s.cell_resetChunk j os i) fun _ _ _ => ⟨rfl, rfl⟩
  prioritise s a b p h :=
    h.of_cells (fun j => s.cell_prioritise j a b p) fun _ ho hd => ⟨ho, hd⟩
  includeRange s a b h := h.of_cells (fun j => s.cell_includeRange j a b) fun _ ho hd => ⟨ho, hd⟩
  excludeRange s a b h := h.of_cells (fun j => s.cell_excludeRange j a b) fun _ _ hd => ⟨rfl, hd⟩
  alertCache s env k h j := by
    rw [ChunkManager.cell_alertCache]
    exact h j
  savePriorityInfo s h j := by
    rw [ChunkManager.cell_savePriorityInfo]
    exact h j
  emit _ _ h := h
  choose _ _ h := h

/-- Without data and ownership everything matches. Source: `torrent/chunkmanager.cpp`,
`torrent/multifilecache.cpp`. Kind: L -/
theorem Fresh.matched (h : Fresh s) : s.Matched := by
  refine ChunkManager.matched_iff.mpr fun j => ?_
  obtain ⟨ho, hd⟩ := h j
  unfold Cell.Matched
  rw [ho, hd]
  simp

/-- A record that is read gives its chunk data, and makes it owned.
Source: `ChunkManager::loadIndexFile`. Kind: L -/
theorem matched_loadHeader (hs : s.Matched) (index : ℕ) : (s.loadHeader index).Matched := by
  refine ChunkManager.matched_iff.mpr fun j => ?_
  have hget := ChunkManager.get_loadHeader s index j
  unfold Cell.Matched
  rw [ChunkManager.cell_owned, hget]
  have hold := ChunkManager.matched_iff.mp hs j
  unfold Cell.Matched at hold
  rw [ChunkManager.cell_owned] at hold
  unfold ChunkManager.loadHeader
  by_cases hi : index < L.numChunks
  · rw [if_pos hi]
    show ((ChunkManager.modifyChunk index _ _).chunks j).status ≠ _ ↔ _
    rw [ChunkManager.chunks_modifyChunk]
    by_cases hj : j.val = index
    · simp [hj]
    · rw [if_neg hj]
      simpa [hj] using hold
  · rw [if_neg hi]
    have hj : j.val ≠ index := by omega
    simpa [hj] using hold

/-- The chunk manager that has loaded its files. Kind: D -/
def loaded (L : Layout) (env : Env) (saved : Saved) : ChunkManager L :=
  (ChunkManager.construct L env (fun _ => {}) saved).loadIndexFile env

/-- **Once the index file is loaded, the chunks with data are those owned.**.
Source: `MultiFileCache::load`. Kind: P -/
theorem matched_load (env : Env) (saved : Saved) : (loaded L env saved).Matched := by
  have hbase : Fresh (ChunkManager.base L (fun _ => {}) saved) := fun j => ⟨BitSet.get_empty _, rfl⟩
  have hfresh : Fresh (ChunkManager.loadPriorityInfo env
      { ChunkManager.construct L env (fun _ => {}) saved with during_load := true }) :=
    closed_fresh.loadPriorityInfo
      (show Fresh { ChunkManager.construct L env (fun _ => {}) saved with during_load := true } from
        closed_fresh.construct env _ saved hbase) env
  unfold loaded ChunkManager.loadIndexFile
  dsimp only
  split_ifs
  · refine List.foldlRecOn (motive := ChunkManager.Matched) _ _ hfresh.matched ?_
    exact fun t ht index _ => matched_loadHeader ht index
  · exact hfresh.matched

/-- **Missing files are settled**: on every run, making the missing files again and excluding them
both leave exactly the chunks owned that lie in none of them, in memory and in the index file, and
no file that is missing; without a list of files no chunk is left, in memory and in the index file;
excluding sets the priority of the missing files only; and a file that has been excluded is not
found missing again. Source: `torrent/chunkmanager.cpp`, `torrent/multifilecache.cpp`. Kind: P -/
theorem settled_run (L : Layout) (env : Env) (saved : Saved) (es : List (Event L))
    (h : Meets step Permitted { cman := loaded L env saved } es) :
    let s := run step { cman := loaded L env saved } es
    (∀ env cache, L.torrent.isMultiFile = true →
        Cleared s (s.recreateMissingFiles env (some cache)).1
          (s.recreateMissingFiles env (some cache)).2) ∧
      (∀ env cache, L.torrent.isMultiFile = false → ∀ j : Fin L.numChunks,
        (s.recreateMissingFiles env (some cache)).1.cman.bitset.get j = false ∧
          ((s.recreateMissingFiles env (some cache)).2 = true →
            j.val ∉ (s.recreateMissingFiles env (some cache)).1.cman.index_file)) ∧
      (∀ env, Cleared s (s.dndMissingFiles env).1 (s.dndMissingFiles env).2 ∧
        ∀ k, ((s.dndMissingFiles env).1.cman.files k).priority =
          if k < L.files.length ∧ s.missing k = true then .excluded
          else (s.cman.files k).priority) ∧
      (L.torrent.isMultiFile = true → ∀ gone env,
        (((s.hasMissingFiles gone).1.dndMissingFiles env).1.hasMissingFiles gone).2 = false) := by
  have hs : (run step { cman := loaded L env saved } es).cman.Matched :=
    h.invariant (fun s e hs he => matched_step (s := s) hs e he) (matched_load env saved)
  intro s
  refine ⟨fun env cache hmulti => cleared_recreate hmulti hs env cache,
    fun env cache hsingle j => recreate_single hsingle s env cache j,
    fun env => ⟨cleared_dnd hs env, s.priority_dnd env⟩,
    fun hmulti gone env => found_once hmulti s gone env⟩

/-- Both chunks of two files were downloaded. Kind: D -/
def bothSaved : Saved := { cache := { disk := fun _ => 0 }, index_file := [0, 1] }

/-- The header that is never read has no chunk's number. Kind: D -/
def clean : Env := { word := 2 }

/-- The second file is not there. Kind: D -/
def searched : List (Event ChunkManager.filmLayout) := [.hasMissingFiles fun k => k = 1]

/-- Of the two chunks that were owned, excluding the second file leaves the one it does not lie in,
in the index file too. Source: `torrent/chunkmanager.cpp`, `torrent/multifilecache.cpp`. Kind: L -/
theorem settled_run_excluded :
    let s := run step { cman := loaded ChunkManager.filmLayout clean bothSaved } searched
    let t := s.dndMissingFiles {}
    (t.1.cman.files 1).priority = .excluded ∧
      (s.cman.bitset.get 0 = true ∧ s.cman.bitset.get 1 = true) ∧
      (t.1.cman.bitset.get 0 = true ∧ t.1.cman.bitset.get 1 = false) ∧
      0 ∈ t.1.cman.index_file ∧ 1 ∉ t.1.cman.index_file := by
  have hrun := settled_run ChunkManager.filmLayout clean bothSaved searched ⟨trivial, trivial⟩
  intro s t
  have hcman : s.cman = loaded ChunkManager.filmLayout clean bothSaved :=
    (hasMissingFiles_spec (fun k => k = 1) _).1
  have howned : ∀ j : Fin ChunkManager.filmLayout.numChunks, s.cman.bitset.get j = true := by
    intro j
    rw [hcman]
    refine (ChunkManager.get_bitset_load rfl _ _ j).trans (decide_eq_true ⟨by decide, .inl ?_⟩)
    revert j
    decide
  have hmissing : ∀ k, s.missing k = true ↔ k = 1 := by
    intro k
    refine ((hasMissingFiles_spec (fun k => k = 1) _).2.1 k).trans ⟨fun h => ?_, fun h => .inr ?_⟩
    · rcases h with h | h
      · cases h
      · simpa using h.2.2
    · subst h
      exact ⟨by decide, by decide, by decide⟩
  obtain ⟨hcleared, hpriority⟩ := hrun.2.2.1 {}
  have hleft : ∀ j : Fin ChunkManager.filmLayout.numChunks,
      t.1.cman.bitset.get j = true ↔ j.val = 0 := by
    intro j
    refine (hcleared.owned j).trans ((and_iff_right (howned j)).trans ?_)
    constructor
    · intro hnot
      by_contra hj
      have hlt : j.val < 2 := j.2
      have hone : j.val = 1 := by omega
      exact hnot ⟨1, by decide, (hmissing 1).mpr rfl, by rw [hone]; decide, by rw [hone]; decide⟩
    · rintro hj ⟨k, -, hk, hfirst, -⟩
      rw [(hmissing k).mp hk] at hfirst
      rw [hj] at hfirst
      revert hfirst
      decide
  have hlisted : ∀ j : Fin ChunkManager.filmLayout.numChunks,
      j.val ∈ t.1.cman.index_file ↔ j.val = 0 := fun j => (hcleared.index rfl j).trans (hleft j)
  refine ⟨(hpriority 1).trans (if_pos ⟨by decide, (hmissing 1).mpr rfl⟩),
    ⟨howned ⟨0, by decide⟩, howned ⟨1, by decide⟩⟩, ⟨(hleft ⟨0, by decide⟩).mpr rfl, ?_⟩,
    (hlisted ⟨0, by decide⟩).mpr rfl, fun h => absurd ((hlisted ⟨1, by decide⟩).mp h) (by decide)⟩
  rw [← Bool.not_eq_true]
  exact fun h => absurd ((hleft ⟨1, by decide⟩).mp h) (by decide)

end MissingFiles

end KTorrent.Storage
