import KTorrent.Storage.Selection

/-!
# The priority file, read word by word

`ChunkManager.loadPriorityInfo` gives the array a word beyond its end. Here the array and the list
of files have bounds, and an access outside of them is a fault.

* `loadPairs`, `loadPriorityInfo` — the loop and what comes before it.
* `loadPriorityInfo_eq` — when every file has a path and no access is outside, this is the chunk
  manager's `loadPriorityInfo`.
* `loadPairs_ok_iff` — the loop stays inside the array unless it ends on half a pair.
* `priorities_loadPairs` — what the loop leaves of a file that was written.
* `priorityFile_iff` — which selections are restored and which contents are read inside the array.

The numbers are those of a torrent with fewer than 2^31 files: a torrent file has fewer than 2^32
bytes.

Source: `torrent/chunkmanager.cpp`, `savePriorityInfo` and `loadPriorityInfo`;
`torrent/torrentfile.cpp`, `setPriority`
-/

namespace KTorrent.Storage.PriorityFile

open KTorrent.Lib KTorrent.Storage.ChunkManager

variable {L : Layout}

/-- An access beyond the array, or beyond the list of files. Kind: D -/
inductive Fault
  | buffer
  | files
  deriving DecidableEq

/-- Source: `util/array.h`, `Array::operator []`. Kind: D -/
def wordOf (buf : List ℕ) (i : ℕ) : Except Fault ℕ :=
  match buf[i]? with
  | some w => .ok w
  | none => .error .buffer

/-- Source: `Torrent::getFile`. Kind: D -/
def fileOf (L : Layout) (idx : ℕ) : Except Fault TorrentFile :=
  match L.torrent.files[idx]? with
  | some tf => .ok tf
  | none => .error .files

/-- A path is null when nothing was ever appended to it. Strings do not tell null from empty here, so
a path made of one empty name counts as null too. Source: `TorrentFileInterface::isNull`.
Kind: D -/
def isNull (tf : TorrentFile) : Bool := tf.path = []

/-- The loop, for the values of `i` that are left. Source: `ChunkManager::loadPriorityInfo`.
Kind: D -/
def loadPairs (env : Env) (buf : List ℕ) : List ℕ → ChunkManager L →
    Except Fault (ChunkManager L)
  | [], s => .ok s
  | i :: is, s =>
    (wordOf buf i).bind fun idx =>
      if idx ≥ L.torrent.getNumFiles then .ok (s.loadFileInfo env)
      else
        (fileOf L idx).bind fun tf =>
          if isNull tf then loadPairs env buf is s
          else
            (wordOf buf (i + 1)).bind fun w =>
              loadPairs env buf is (s.setPriority env idx (priorityOfWord w))

/-- `for (Uint32 i = 0;i < num;i += 2)`. Kind: D -/
def evens (num : ℕ) : List ℕ := List.range' 0 ((num + 1) / 2) 2

/-- Source: `ChunkManager::loadPriorityInfo`. Kind: D -/
def loadPriorityInfo (env : Env) (s : ChunkManager L) : Except Fault (ChunkManager L) :=
  match s.file_priority with
  | none | some [] => .ok (s.loadFileInfo env)
  | some (num :: words) =>
    if num > 2 * L.torrent.getNumFiles ∨ words.length < num then .ok (s.loadFileInfo env)
    else loadPairs env (words.take num) (evens num) s

/-! ### One file -/

/-- One file's priority changes. Source: `torrent/torrentfile.cpp`. Kind: L -/
theorem priority_changeSelection (env : Env) (k : ℕ) (p : Priority) (s : ChunkManager L) (j : ℕ) :
    ((s.changeSelection env k p).files j).priority =
      if j = k then p else (s.files j).priority := by
  have hset : ∀ f : FileSelection, f.priority = p →
      (Function.update s.files k f j).priority = if j = k then p else (s.files j).priority := by
    intro f hf
    by_cases hj : j = k
    · rw [hj, Function.update_self, if_pos rfl, hf]
    · rw [Function.update_of_ne hj, if_neg hj]
  unfold changeSelection
  dsimp only
  by_cases hemit : (s.files k).m_emitDlStatusChanged = true
  · rw [if_pos hemit, files_downloadPriorityChanged]
    apply hset
    rfl
  · rw [if_neg hemit]
    apply hset
    rfl

/-- Deselecting excludes the file. Source: `TorrentFile::setDoNotDownload`. Kind: L -/
theorem priority_setDoNotDownload_true (env : Env) (k : ℕ) (s : ChunkManager L) (j : ℕ) :
    ((s.setDoNotDownload env k true).files j).priority =
      if j = k then .excluded else (s.files j).priority := by
  unfold setDoNotDownload
  by_cases hx : (s.files k).priority = .excluded
  · by_cases hj : j = k
    · simp [hx, hj]
    · simp [hx, hj]
  · simp [hx, priority_changeSelection]

/-- Selecting makes an excluded file normal. Source: `TorrentFile::setDoNotDownload`. Kind: L -/
theorem priority_setDoNotDownload_false (env : Env) (k : ℕ) (s : ChunkManager L) (j : ℕ) :
    ((s.setDoNotDownload env k false).files j).priority =
      if j = k ∧ (s.files k).priority = .excluded then .normal else (s.files j).priority := by
  unfold setDoNotDownload
  by_cases hx : (s.files k).priority = .excluded
  · simp [hx, priority_changeSelection]
  · simp [hx]

/-- Whatever a file's priority was, `setPriority` sets it, and no other one.
Source: `TorrentFile::setPriority`. Kind: L -/
theorem priority_setPriority (env : Env) (k : ℕ) (p : Priority) (s : ChunkManager L) (j : ℕ) :
    ((s.setPriority env k p).files j).priority = if j = k then p else (s.files j).priority := by
  unfold setPriority
  by_cases hsame : (s.files k).priority = p
  · rw [if_pos hsame]
    by_cases hj : j = k
    · rw [if_pos hj, hj, hsame]
    · rw [if_neg hj]
  · rw [if_neg hsame]
    obtain ⟨t, ht, hother⟩ : ∃ t : ChunkManager L, t = (if (s.files k).priority = .excluded then
        s.setDoNotDownload env k false else s) ∧
        ∀ j, j ≠ k → (t.files j).priority = (s.files j).priority := by
      refine ⟨_, rfl, ?_⟩
      intro j hj
      split_ifs
      · rw [priority_setDoNotDownload_false, if_neg (fun h => hj h.1)]
      · rfl
    simp only [← ht]
    by_cases hx : p = .excluded
    · rw [if_pos hx, priority_setDoNotDownload_true, hx]
      by_cases hj : j = k
      · rw [if_pos hj, if_pos hj]
      · rw [if_neg hj, if_neg hj, hother j hj]
    · rw [if_neg hx, files_downloadPriorityChanged]
      by_cases hj : j = k
      · simp [hj]
      · simp [hj, hother j hj]

/-! ### The loop -/

/-- A file of the torrent. Source: `Torrent::getFile`. Kind: L -/
theorem fileOf_eq {idx : ℕ} (h : idx < L.torrent.getNumFiles) :
    fileOf L idx = .ok (L.getFile idx) := by
  have hlt : idx < L.torrent.files.length := h
  unfold fileOf Layout.getFile
  rw [List.getElem?_eq_getElem hlt, List.getD_eq_getElem _ _ hlt]

/-- A word of the buffer. Source: `util/array.h`, `Array::operator []`. Kind: L -/
theorem wordOf_eq {buf : List ℕ} {i : ℕ} (h : i < buf.length) :
    wordOf buf i = .ok (buf.getD i 0) := by
  unfold wordOf
  rw [List.getElem?_eq_getElem h, List.getD_eq_getElem _ _ h]

/-- A word beyond it. Source: `util/array.h`, `Array::operator []`. Kind: L -/
theorem wordOf_outside {buf : List ℕ} {i : ℕ} (h : buf.length ≤ i) :
    wordOf buf i = .error .buffer := by
  unfold wordOf
  rw [List.getElem?_eq_none h]

/-- From position `i` on the words are whole pairs but for the last one, a file named alone.
Kind: D -/
structure HalfPair (L : Layout) (buf : List ℕ) (i n : ℕ) : Prop where
  odd : i + 2 * n = buf.length + 1
  rounds : 0 < n
  named : ∀ j < n, buf.getD (i + 2 * j) 0 < L.torrent.getNumFiles
  read : isNull (L.getFile (buf.getD (buf.length - 1) 0)) = false

/-- **The loop stays inside the array unless it ends on half a pair.**.
Source: `ChunkManager::loadPriorityInfo`. Kind: L -/
theorem loadPairs_ok_iff (env : Env) (buf : List ℕ) (n : ℕ) :
    ∀ i (s : ChunkManager L), i + 2 * n ≤ buf.length + 1 → (0 < n → buf.length ≤ i + 2 * n) →
      ((∃ t, loadPairs env buf (List.range' i n 2) s = .ok t) ↔ ¬ HalfPair L buf i n) := by
  induction n with
  | zero =>
    intro i s hle hge
    constructor
    · intro _ h
      exact absurd h.rounds (lt_irrefl 0)
    · intro _
      exact ⟨s, rfl⟩
  | succ n ih =>
    intro i s hle hge
    have hi : i < buf.length := by omega
    rw [List.range'_succ, loadPairs, wordOf_eq hi]
    change (∃ t, (if buf.getD i 0 ≥ L.torrent.getNumFiles then .ok (s.loadFileInfo env)
      else (fileOf L (buf.getD i 0)).bind _) = .ok t) ↔ _
    by_cases hidx : buf.getD i 0 ≥ L.torrent.getNumFiles
    · rw [if_pos hidx]
      constructor
      · intro _ h
        exact absurd (h.named 0 (Nat.succ_pos n)) (not_lt.mpr hidx)
      · intro _
        exact ⟨_, rfl⟩
    · rw [if_neg hidx, fileOf_eq (not_le.mp hidx)]
      -- the rest of the loop, when this round has not read beyond the array
      have hrest : ∀ s' : ChunkManager L, (n = 0 → ¬ HalfPair L buf i (n + 1)) →
          ((∃ t, loadPairs env buf (List.range' (i + 2) n 2) s' = .ok t) ↔
            ¬ HalfPair L buf i (n + 1)) := by
        intro s' hlast
        rw [ih (i + 2) s' (by omega) (by omega)]
        constructor
        · intro hno h
          by_cases hn : n = 0
          · exact hlast hn h
          · apply hno
            refine ⟨by have := h.odd; omega, Nat.pos_of_ne_zero hn, ?_, h.read⟩
            intro j hj
            have hnamed := h.named (j + 1) (by omega)
            rwa [show i + 2 * (j + 1) = i + 2 + 2 * j by omega] at hnamed
        · intro hno h
          apply hno
          refine ⟨by have := h.odd; omega, Nat.succ_pos n, ?_, h.read⟩
          intro j hj
          cases j with
          | zero => exact not_le.mp hidx
          | succ j =>
            have hnamed := h.named j (by omega)
            rwa [show i + 2 + 2 * j = i + 2 * (j + 1) by omega] at hnamed
      change (∃ t, (if isNull (L.getFile (buf.getD i 0)) then
        loadPairs env buf (List.range' (i + 2) n 2) s
        else (wordOf buf (i + 1)).bind _) = .ok t) ↔ _
      by_cases hnull : isNull (L.getFile (buf.getD i 0)) = true
      · rw [if_pos hnull]
        apply hrest
        intro hn h
        have hread := h.read
        have hpos : buf.length - 1 = i := by
          have := h.odd
          omega
        rw [hpos, hnull] at hread
        cases hread
      · rw [if_neg hnull]
        by_cases hpair : i + 1 < buf.length
        · rw [wordOf_eq hpair]
          apply hrest
          intro hn h
          have := h.odd
          omega
        · rw [wordOf_outside (not_lt.mp hpair)]
          constructor
          · rintro ⟨t, ht⟩
            cases ht
          · intro hno
            exfalso
            apply hno
            refine ⟨by omega, Nat.succ_pos n, ?_, ?_⟩
            · intro j hj
              have hj0 : j = 0 := by omega
              rw [hj0]
              exact not_le.mp hidx
            · rw [show buf.length - 1 = i by omega]
              simpa using hnull

/-- The words of a file as `savePriorityInfo` lays them out. Kind: D -/
def pairsOf (ks : List ℕ) (w : ℕ → ℕ) : List ℕ := ks.flatMap fun k => [k, w k]

/-- Two words for each file. Source: `torrent/chunkmanager.cpp`, `savePriorityInfo`. Kind: L -/
theorem length_pairsOf (ks : List ℕ) (w : ℕ → ℕ) : (pairsOf ks w).length = 2 * ks.length := by
  induction ks with
  | nil => rfl
  | cons k ks ih =>
    rw [pairsOf, List.flatMap_cons, List.length_append]
    have hrest : (List.flatMap (fun k => [k, w k]) ks).length = 2 * ks.length := ih
    simp only [hrest, List.length_cons, List.length_nil]
    omega

/-- What a word means for a file that has a name. Kind: D -/
def restored (L : Layout) (w : ℕ → ℕ) (k : ℕ) (p : Priority) : Priority :=
  if isNull (L.getFile k) then p else priorityOfWord (w k)

/-- **What the loop leaves of a file that was written.**. Source: `ChunkManager::loadPriorityInfo`.
Kind: L -/
theorem priorities_loadPairs (env : Env) (w : ℕ → ℕ) (ks : List ℕ) :
    (∀ k ∈ ks, k < L.torrent.getNumFiles) → ks.Nodup →
    ∀ (front : List ℕ) (s : ChunkManager L), ∃ t,
      loadPairs env (front ++ pairsOf ks w) (List.range' front.length ks.length 2) s = .ok t ∧
      ∀ j, (t.files j).priority =
        if j ∈ ks then restored L w j (s.files j).priority else (s.files j).priority := by
  induction ks with
  | nil =>
    intro _ _ front s
    exact ⟨s, rfl, fun j => by simp⟩
  | cons k ks ih =>
    intro hks hnodup front s
    have hk : k < L.torrent.getNumFiles := hks k List.mem_cons_self
    obtain ⟨hfresh, hnodup'⟩ := List.nodup_cons.mp hnodup
    have hsplit : front ++ pairsOf (k :: ks) w = (front ++ [k, w k]) ++ pairsOf ks w := by
      simp [pairsOf]
    have hfirst : wordOf ((front ++ [k, w k]) ++ pairsOf ks w) front.length = .ok k := by
      rw [wordOf_eq (by simp)]
      simp
    have hsecond : wordOf ((front ++ [k, w k]) ++ pairsOf ks w) (front.length + 1) = .ok (w k) := by
      rw [wordOf_eq (by simp)]
      simp
    have hpos : front.length + 2 = (front ++ [k, w k]).length := by simp
    rw [hsplit, List.length_cons, List.range'_succ, loadPairs, hfirst]
    change ∃ t, (if k ≥ L.torrent.getNumFiles then .ok (s.loadFileInfo env)
      else (fileOf L k).bind _) = .ok t ∧ _
    rw [if_neg (not_le.mpr hk), fileOf_eq hk]
    change ∃ t, (if isNull (L.getFile k) then _ else (wordOf _ _).bind _) = .ok t ∧ _
    rw [hsecond, hpos]
    by_cases hnull : isNull (L.getFile k) = true
    · rw [if_pos hnull]
      obtain ⟨t, ht, hpri⟩ := ih (fun j hj => hks j (List.mem_cons_of_mem _ hj)) hnodup'
        (front ++ [k, w k]) s
      refine ⟨t, ht, fun j => ?_⟩
      rw [hpri]
      by_cases hj : j = k
      · subst hj
        simp [hfresh, restored, hnull]
      · simp [hj]
    · rw [if_neg hnull]
      obtain ⟨t, ht, hpri⟩ := ih (fun j hj => hks j (List.mem_cons_of_mem _ hj)) hnodup'
        (front ++ [k, w k]) (s.setPriority env k (priorityOfWord (w k)))
      refine ⟨t, ht, fun j => ?_⟩
      rw [hpri, priority_setPriority]
      by_cases hj : j = k
      · subst hj
        simp [hfresh, restored, hnull]
      · simp [hj]

/-- With names for all files and inside its bounds, the loop is the chunk manager's.
Source: `ChunkManager::loadPriorityInfo`. Kind: L -/
theorem loadPairs_eq (env : Env) (buf : List ℕ)
    (hnames : ∀ idx < L.torrent.getNumFiles, isNull (L.getFile idx) = false) (n : ℕ) :
    ∀ i (s t : ChunkManager L), i + 2 * n ≤ buf.length + 1 → buf.length ≤ i + 2 * n →
      loadPairs env buf (List.range' i n 2) s = .ok t →
      t = s.loadPriorities env (buf.drop i) := by
  induction n with
  | zero =>
    intro i s t _ hge h
    cases h
    rw [List.drop_of_length_le (by omega)]
    rfl
  | succ n ih =>
    intro i s t hle hge h
    have hi : i < buf.length := by omega
    rw [List.range'_succ, loadPairs, wordOf_eq hi, List.getD_eq_getElem _ _ hi] at h
    change (if buf[i] ≥ L.torrent.getNumFiles then .ok (s.loadFileInfo env)
      else (fileOf L buf[i]).bind _) = .ok t at h
    rw [List.drop_eq_getElem_cons hi]
    by_cases hpair : i + 1 < buf.length
    · rw [List.drop_eq_getElem_cons hpair, loadPriorities]
      by_cases hidx : buf[i] ≥ L.torrent.getNumFiles
      · rw [if_pos hidx] at h ⊢
        exact (Except.ok.inj h).symm
      · rw [if_neg hidx, fileOf_eq (not_le.mp hidx)] at h
        change (if isNull (L.getFile buf[i]) then _ else (wordOf buf (i + 1)).bind _) = .ok t at h
        rw [hnames _ (not_le.mp hidx), if_neg Bool.false_ne_true, wordOf_eq hpair,
          List.getD_eq_getElem _ _ hpair] at h
        rw [if_neg hidx]
        exact ih (i + 2) _ t (by omega) (by omega) h
    · rw [List.drop_of_length_le (not_lt.mp hpair), loadPriorities]
      by_cases hidx : buf[i] ≥ L.torrent.getNumFiles
      · rw [if_pos hidx] at h ⊢
        exact (Except.ok.inj h).symm
      · rw [if_neg hidx, fileOf_eq (not_le.mp hidx)] at h
        change (if isNull (L.getFile buf[i]) then _ else (wordOf buf (i + 1)).bind _) = .ok t at h
        rw [hnames _ (not_le.mp hidx), if_neg Bool.false_ne_true,
          wordOf_outside (not_lt.mp hpair)] at h
        cases h

/-! ### The whole file -/

/-- **The two models of the loading agree.**. Source: `ChunkManager::loadPriorityInfo`. Kind: P -/
theorem loadPriorityInfo_eq (env : Env) (s t : ChunkManager L)
    (hnames : ∀ idx < L.torrent.getNumFiles, isNull (L.getFile idx) = false)
    (h : loadPriorityInfo env s = .ok t) : t = s.loadPriorityInfo env := by
  unfold loadPriorityInfo at h
  unfold ChunkManager.loadPriorityInfo
  generalize s.file_priority = content at h ⊢
  rcases content with _ | _ | ⟨num, words⟩
  · exact (Except.ok.inj h).symm
  · exact (Except.ok.inj h).symm
  · dsimp only at h ⊢
    by_cases hc : num > 2 * L.torrent.getNumFiles ∨ words.length < num
    · rw [if_pos hc] at h ⊢
      exact (Except.ok.inj h).symm
    · rw [if_neg hc] at h ⊢
      have hlen : (words.take num).length = num := by
        rw [List.length_take]
        omega
      have ht := loadPairs_eq env _ hnames _ 0 s t (by omega) (by omega) h
      rwa [List.drop_zero] at ht

/-- The content ends on half a pair: its count is odd and trusted, the words are there, each names
a file, and the last one a file with a name. Kind: D -/
def HalfEnd (L : Layout) : Option (List ℕ) → Prop
  | some (num :: words) =>
    num ≤ 2 * L.torrent.getNumFiles ∧ num ≤ words.length ∧ num % 2 = 1 ∧
      (∀ j < (num + 1) / 2, words.getD (2 * j) 0 < L.torrent.getNumFiles) ∧
      isNull (L.getFile (words.getD (num - 1) 0)) = false
  | _ => False

/-- When the loading stays inside the array. Source: `ChunkManager::loadPriorityInfo`. Kind: L -/
theorem loadPriorityInfo_ok_iff (env : Env) (s : ChunkManager L) :
    (∃ t, loadPriorityInfo env s = .ok t) ↔ ¬ HalfEnd L s.file_priority := by
  unfold loadPriorityInfo
  rcases s.file_priority with _ | _ | ⟨num, words⟩
  · exact ⟨fun _ h => h, fun _ => ⟨_, rfl⟩⟩
  · exact ⟨fun _ h => h, fun _ => ⟨_, rfl⟩⟩
  · dsimp only
    by_cases hc : num > 2 * L.torrent.getNumFiles ∨ words.length < num
    · rw [if_pos hc]
      constructor
      · rintro _ ⟨h1, h2, -⟩
        omega
      · intro _
        exact ⟨_, rfl⟩
    · rw [if_neg hc]
      have hlen : (words.take num).length = num := by
        rw [List.length_take]
        omega
      have hget : ∀ j < num, (words.take num).getD j 0 = words.getD j 0 := by
        intro j hj
        rw [List.getD_eq_getElem _ _ (by omega), List.getElem_take,
          List.getD_eq_getElem _ _ (by omega)]
      rw [evens, loadPairs_ok_iff env _ _ 0 s (by omega) (by omega)]
      apply not_congr
      constructor
      · intro h
        have hodd := h.odd
        refine ⟨by omega, by omega, by omega, ?_, ?_⟩
        · intro j hj
          rw [← hget _ (by omega)]
          simpa using h.named j hj
        · have hread := h.read
          rwa [hlen, hget _ (by omega)] at hread
      · rintro ⟨-, -, hodd, hnamed, hread⟩
        refine ⟨by omega, by omega, ?_, ?_⟩
        · intro j hj
          rw [Nat.zero_add, hget _ (by omega)]
          exact hnamed j hj
        · rwa [hlen, hget _ (by omega)]

/-- The file that `savePriorityInfo` leaves; `during_load` holds inside `loadIndexFile` only.
Kind: D -/
def written (s : ChunkManager L) : Option (List ℕ) :=
  (savePriorityInfo { s with during_load := false }).file_priority

/-- The files it names. Kind: D -/
def named (s : ChunkManager L) : List ℕ :=
  (List.range L.torrent.getNumFiles).filter fun k => (s.files k).priority ≠ .normal

/-- The files that are written are those that are not normal. Source: `torrent/chunkmanager.cpp`,
`savePriorityInfo`. Kind: L -/
theorem mem_named {s : ChunkManager L} {k : ℕ} :
    k ∈ named s ↔ k < L.torrent.getNumFiles ∧ (s.files k).priority ≠ .normal := by
  simp [named]

/-- What is written: how many words, and the pairs. Source: `torrent/chunkmanager.cpp`,
`savePriorityInfo`. Kind: L -/
theorem written_eq (s : ChunkManager L) :
    written s =
      some (2 * (named s).length :: pairsOf (named s) fun k => (s.files k).priority.value) := rfl

/-- Every priority is read back but one. Source: `ChunkManager::loadPriorityInfo`. Kind: L -/
theorem priorityOfWord_value (p : Priority) :
    priorityOfWord p.value = if p = .preview then .last else p := by
  cases p <;> rfl

/-- Loading what was written, on a manager whose files have their normal priority.
Source: `SingleFileCache::load`. Kind: L -/
theorem load_written (env : Env) (s f : ChunkManager L) (hf : f.file_priority = written s) :
    ∃ t, loadPriorityInfo env f = .ok t ∧
      ∀ j, (t.files j).priority =
        if j ∈ named s then
          restored L (fun k => (s.files k).priority.value) j (f.files j).priority
        else (f.files j).priority := by
  have hle : (named s).length ≤ L.torrent.getNumFiles := by
    have hlen := List.length_filter_le (fun k => decide ((s.files k).priority ≠ .normal))
      (List.range L.torrent.getNumFiles)
    rwa [List.length_range] at hlen
  have hpairs := length_pairsOf (named s) fun k => (s.files k).priority.value
  have hcond : ¬ (2 * (named s).length > 2 * L.torrent.getNumFiles ∨
      (pairsOf (named s) fun k => (s.files k).priority.value).length < 2 * (named s).length) := by
    omega
  have hrounds : (2 * (named s).length + 1) / 2 = (named s).length := by omega
  unfold loadPriorityInfo
  rw [hf, written_eq]
  dsimp only
  rw [if_neg hcond, List.take_of_length_le hpairs.le, evens, hrounds]
  exact priorities_loadPairs env _ (named s) (fun k hk => (mem_named.mp hk).1)
    (List.nodup_range.filter _) [] f

/-! ### A fresh chunk manager -/

/-- Chunk priorities do not touch the priority file. Source: `torrent/chunkmanager.cpp`,
`savePriorityInfo`. Kind: L -/
@[simp] theorem file_priority_prioritise (s : ChunkManager L) (a b : ℕ) (p : Priority) :
    (s.prioritise a b p).file_priority = s.file_priority := by
  unfold prioritise forChunks
  apply forRange_frame fun t : ChunkManager L => t.file_priority
  intro i _ _ t
  unfold prioritiseChunk modifyChunk
  split_ifs <;> cases p <;> rfl

/-- What the constructor makes of a torrent just loaded. Source: `ChunkManager::ChunkManager`.
Kind: L -/
theorem fresh_construct (env : Env) (saved : Saved) :
    (construct L env (fun _ => {}) saved).files = (fun _ => {}) ∧
      (construct L env (fun _ => {}) saved).file_priority = saved.file_priority := by
  apply construct_induction (P := fun s : ChunkManager L =>
    s.files = (fun _ => {}) ∧ s.file_priority = saved.file_priority)
  · exact ⟨rfl, rfl⟩
  · intro s a b hs
    rw [files_prioritise, file_priority_prioritise]
    exact hs

/-- A fresh manager that finds the file `s` has written. Kind: D -/
def restart (env : Env) (saved : Saved) (during_load : Bool) (s : ChunkManager L) :
    ChunkManager L :=
  { construct L env (fun _ => {}) { saved with file_priority := written s } with
    during_load := during_load }

/-- Loading gives each file the priority it had. Kind: D -/
def Restores (env : Env) (saved : Saved) (during_load : Bool) (s : ChunkManager L) : Prop :=
  ∃ t, loadPriorityInfo env (restart env saved during_load s) = .ok t ∧
    ∀ k : Fin L.files.length, (t.files k).priority = (s.files k).priority

/-- When the loader restores what was saved, file by file. Source: `TorrentFileInterface::isNull`.
Kind: L -/
theorem restores_iff (env : Env) (saved : Saved) (during_load : Bool) (s : ChunkManager L) :
    Restores env saved during_load s ↔ ∀ k : Fin L.files.length,
      (s.files k).priority ≠ .normal →
        (s.files k).priority ≠ .preview ∧ isNull (L.getFile k) = false := by
  obtain ⟨hfiles, hword⟩ := fresh_construct (L := L) env { saved with file_priority := written s }
  obtain ⟨t, ht, hpri⟩ := load_written env s (restart env saved during_load s) hword
  have hnum : L.torrent.getNumFiles = L.files.length := L.length_files
  -- the priority of one file after loading
  have hone : ∀ k : Fin L.files.length, ((t.files k).priority = (s.files k).priority ↔
      ((s.files k).priority ≠ .normal →
        (s.files k).priority ≠ .preview ∧ isNull (L.getFile k) = false)) := by
    intro k
    have hstart : ((restart env saved during_load s).files k).priority = .normal := by
      change ((construct L env _ _).files k).priority = _
      rw [hfiles]
    rw [hpri, hstart]
    by_cases hnormal : (s.files k).priority = .normal
    · rw [if_neg (fun h => (mem_named.mp h).2 hnormal), hnormal]
      simp
    · have hk : (k : ℕ) < L.torrent.getNumFiles := by
        rw [hnum]
        exact k.2
      rw [if_pos (mem_named.mpr ⟨hk, hnormal⟩), restored]
      by_cases hnull : isNull (L.getFile k) = true
      · rw [if_pos hnull, hnull]
        constructor
        · intro h
          exact absurd h.symm hnormal
        · intro h
          exact absurd (h hnormal).2 (by simp)
      · rw [if_neg hnull, priorityOfWord_value]
        have hname : isNull (L.getFile k) = false := by simpa using hnull
        by_cases hprev : (s.files k).priority = .preview
        · rw [if_pos hprev, hprev]
          simp
        · rw [if_neg hprev]
          exact ⟨fun _ _ => ⟨hprev, hname⟩, fun _ => rfl⟩
  constructor
  · rintro ⟨t', ht', h⟩ k
    rw [ht] at ht'
    cases ht'
    exact (hone k).mp (h k)
  · intro h
    exact ⟨t, ht, fun k => (hone k).mpr (h k)⟩

/-- **Which selections are restored, and which contents are read inside the array.**.
Source: `TorrentFileInterface::isNull`. Kind: P -/
theorem priorityFile_iff (env : Env) (saved : Saved) (during_load : Bool) (s t : ChunkManager L)
    (content : Option (List ℕ)) :
    (Restores env saved during_load s ↔ ∀ k : Fin L.files.length,
      (s.files k).priority ≠ .normal →
        (s.files k).priority ≠ .preview ∧ isNull (L.getFile k) = false) ∧
    ((∃ r, loadPriorityInfo env { t with file_priority := content } = .ok r) ↔
      ¬ HalfEnd L content) :=
  ⟨restores_iff env saved during_load s, loadPriorityInfo_ok_iff env _⟩

/-- One file. Kind: D -/
def oneLayout : Layout :=
  .checked ['t'] 1 1 [⟨['a'], 1, false⟩]
    [Vector.replicate 20 0] (by decide)

/-- **A preview priority is lost, and half a pair is read beyond the array**: the one word of the
second file names the torrent's file, and no priority follows.
Source: `ChunkManager::loadPriorityInfo`. Kind: P -/
theorem half_pair_read :
    (¬ ∀ (L : Layout) (env : Env) (saved : Saved) (during_load : Bool) (s : ChunkManager L),
      Restores env saved during_load s) ∧
    ¬ ∀ (L : Layout) (env : Env) (t : ChunkManager L) (content : Option (List ℕ)),
      ∃ r, loadPriorityInfo env { t with file_priority := content } = .ok r := by
  have saved : Saved := ⟨⟨fun _ => 0, 0⟩, [], none, none⟩
  constructor
  · intro h
    let s := (construct oneLayout {} (fun _ => {}) saved).apply
      (.choose ⟨0, by decide⟩ { priority := .preview })
    exact ((restores_iff {} saved false s).mp (h oneLayout {} saved false s) ⟨0, by decide⟩
      (by simp [s, apply])).1 (by simp [s, apply])
  · intro h
    have hread := h oneLayout {} (construct oneLayout {} (fun _ => {}) saved) (some [1, 0])
    have hend : HalfEnd oneLayout (some [1, 0]) := by
      refine ⟨by decide, by decide, rfl, ?_, rfl⟩
      intro j hj
      have hj0 : j = 0 := by omega
      subst hj0
      decide
    exact (loadPriorityInfo_ok_iff {} _).mp hread hend

end KTorrent.Storage.PriorityFile
