import KTorrent.Storage.Cell

/-!
# What selecting and deselecting a file does to each chunk

* `keepsFirst`, `keepsLast` — whether deselecting file `k` leaves its first or last chunk out of
  the excluded range because another wanted file lies in it. They are what the two loops over the
  border's files compute (`trimFirst_eq`, `trimLast_eq`).
* `cell_selectFile`, `cell_deselectFile` — the effect on each cell, in closed form.
* `cell_downloadPriorityChanged` — the same for a change between two priorities that are not
  `EXCLUDED`.

Source: `torrent/chunkmanager.cpp`
-/

namespace KTorrent.Storage

open KTorrent.Lib KTorrent.Util

namespace ChunkManager

variable {L : Layout}

/-! ### The borders of a file -/

section borders

variable (s : ChunkManager L) (k : ℕ)

/-- Another file, not excluded, lies in the chunk. Kind: D -/
def othersWant (chunk : ℕ) : Bool :=
  (L.torrent.calcChunkPos chunk).any fun j => decide (j ≠ k) && !(s.files j).doNotDownload

/-- Deselecting file `k` leaves its first chunk alone. Kind: D -/
def keepsFirst : Bool := !decide (L.first k = L.last k) && s.othersWant k (L.first k)

/-- Where the excluded range of file `k` starts. Kind: D -/
def firstExcluded : ℕ := if s.keepsFirst k then L.first k + 1 else L.first k

/-- Deselecting file `k` leaves its last chunk alone. Kind: D -/
def keepsLast : Bool := !decide (s.firstExcluded k = L.last k) && s.othersWant k (L.last k)

/-- Where the excluded range of file `k` ends. Kind: D -/
def lastExcluded : ℕ := if s.keepsLast k then L.last k - 1 else L.last k

/-- Once the border has moved, the loop only looks for the highest priority.
Source: `ChunkManager::downloadStatusChanged`. Kind: L -/
theorem foldl_trimBorder_modified (stuck : ℕ → Bool) (move : ℕ → ℕ) (fs : List ℕ) (b : Border)
    (hb : b.modified = true) :
    (fs.foldl (s.trimBorder k stuck move) b).pos = b.pos ∧
      (fs.foldl (s.trimBorder k stuck move) b).reprioritise_border_chunk =
        b.reprioritise_border_chunk := by
  induction fs generalizing b with
  | nil => exact ⟨rfl, rfl⟩
  | cons j fs ih =>
    have h : (s.trimBorder k stuck move b j).modified = true ∧
        (s.trimBorder k stuck move b j).pos = b.pos ∧
        (s.trimBorder k stuck move b j).reprioritise_border_chunk =
          b.reprioritise_border_chunk := by
      unfold trimBorder
      simp only [hb, Bool.not_true, Bool.false_eq_true, and_false, if_false]
      split_ifs <;> simp [hb]
    obtain ⟨h1, h2⟩ := ih _ h.1
    exact ⟨h1.trans h.2.1, h2.trans h.2.2⟩

/-- The border moves once iff it can and some file of the list is wanted.
Source: `ChunkManager::downloadStatusChanged`. Kind: L -/
theorem foldl_trimBorder (stuck : ℕ → Bool) (move : ℕ → ℕ) (fs : List ℕ) (b : Border)
    (hb : b.modified = false) (hr : b.reprioritise_border_chunk = false) :
    let moves := !stuck b.pos && fs.any fun j => decide (j ≠ k) && !(s.files j).doNotDownload
    (fs.foldl (s.trimBorder k stuck move) b).pos = (if moves then move b.pos else b.pos) ∧
      (fs.foldl (s.trimBorder k stuck move) b).reprioritise_border_chunk = moves := by
  induction fs generalizing b with
  | nil => simp [hr]
  | cons j fs ih =>
    simp only [List.foldl_cons, List.any_cons]
    by_cases hj : j = k ∨ (s.files j).doNotDownload
    · have h1 : s.trimBorder k stuck move b j = b := by
        unfold trimBorder
        rw [if_pos hj]
      have h2 : (decide (j ≠ k) && !(s.files j).doNotDownload) = false := by
        rcases hj with rfl | hj
        · simp
        · simp [hj]
      simp only [h1, h2, Bool.false_or]
      exact ih b hb hr
    · have h2 : (decide (j ≠ k) && !(s.files j).doNotDownload) = true := by
        rw [not_or] at hj
        simp [hj.1, hj.2]
      simp only [h2, Bool.true_or, Bool.and_true]
      by_cases hs : stuck b.pos = true
      · have h1 : (s.trimBorder k stuck move b j).pos = b.pos ∧
            (s.trimBorder k stuck move b j).modified = false ∧
            (s.trimBorder k stuck move b j).reprioritise_border_chunk = false := by
          unfold trimBorder
          simp only [if_neg hj, hs, Bool.not_true, Bool.false_eq_true, false_and, if_false]
          split_ifs <;> simp [hb, hr]
        obtain ⟨h3, h4⟩ := ih _ h1.2.1 h1.2.2
        rw [h1.1, hs] at h3 h4
        simpa [hs] using ⟨h3, h4⟩
      · have h1 : (s.trimBorder k stuck move b j).pos = move b.pos ∧
            (s.trimBorder k stuck move b j).modified = true ∧
            (s.trimBorder k stuck move b j).reprioritise_border_chunk = true := by
          unfold trimBorder
          simp only [if_neg hj, hs, hb, Bool.not_false, and_self, if_true]
          split_ifs <;> simp
        obtain ⟨h3, h4⟩ := s.foldl_trimBorder_modified k stuck move fs _ h1.2.1
        simp [hs, h3, h4, h1.1, h1.2.2]

/-- A round keeps the highest priority or finds a higher one.
Source: `ChunkManager::downloadStatusChanged`. Kind: L -/
theorem trimBorder_maxp (stuck : ℕ → Bool) (move : ℕ → ℕ) (b : Border) (j : ℕ) :
    ((s.trimBorder k stuck move b j).maxp = b.maxp ∧
        ¬ (j ≠ k ∧ (s.files j).priority.value > b.maxp.value)) ∨
      (j ≠ k ∧ (s.files j).priority.value > b.maxp.value ∧
        (s.trimBorder k stuck move b j).maxp = (s.files j).priority) := by
  have hlow : (s.files j).doNotDownload = true → ¬ (s.files j).priority.value > b.maxp.value := by
    intro h
    have h1 : (s.files j).priority = .excluded := by simpa [FileSelection.doNotDownload] using h
    rw [h1]
    cases b.maxp <;> decide
  unfold trimBorder
  by_cases h1 : j = k ∨ (s.files j).doNotDownload
  · exact Or.inl ⟨by rw [if_pos h1], fun h => h1.elim h.1 fun h' => hlow h' h.2⟩
  · rw [if_neg h1]
    by_cases h2 : (s.files j).priority.value > b.maxp.value
    · refine Or.inr ⟨fun h => h1 (Or.inl h), h2, ?_⟩
      split_ifs <;> simp only [if_pos h2]
    · refine Or.inl ⟨?_, fun h => h2 h.2⟩
      split_ifs <;> simp only [if_neg h2]

/-- Another file of the chunk is to be downloaded. Kind: D -/
def othersFetch (chunk : ℕ) : Bool :=
  (L.torrent.calcChunkPos chunk).any fun j =>
    decide (j ≠ k) && decide ((s.files j).priority.value > Priority.onlySeed.value)

/-- What the loop over the files of a border chunk makes of its priority: it is never `EXCLUDED`, and
`ONLY_SEED` when no other file of the chunk is to be downloaded. Kind: D -/
structure IsBorderPriority (chunk : ℕ) (p : Priority) : Prop where
  ne_excluded : p ≠ .excluded
  ne_onlySeed_iff : p ≠ .onlySeed ↔ s.othersFetch k chunk = true

/-- The highest priority of a border chunk's other files.
Source: `ChunkManager::downloadStatusChanged`. Kind: L -/
theorem foldl_trimBorder_maxp (stuck : ℕ → Bool) (move : ℕ → ℕ) (fs : List ℕ) (b : Border)
    (hb : b.maxp ≠ .excluded) :
    (fs.foldl (s.trimBorder k stuck move) b).maxp ≠ .excluded ∧
      ((fs.foldl (s.trimBorder k stuck move) b).maxp ≠ .onlySeed ↔ b.maxp ≠ .onlySeed ∨
        (fs.any fun j =>
          decide (j ≠ k) && decide ((s.files j).priority.value > Priority.onlySeed.value)) = true) := by
  have hval : ∀ p : Priority, p.value > Priority.onlySeed.value ↔ p ≠ .excluded ∧ p ≠ .onlySeed := by
    intro p
    cases p <;> decide
  have hle : ∀ p q : Priority, p ≠ .excluded → q.value > p.value →
      q ≠ .excluded ∧ q ≠ .onlySeed := by
    intro p q
    cases p <;> cases q <;> decide
  induction fs generalizing b with
  | nil => exact ⟨hb, by simp⟩
  | cons j fs ih =>
    simp only [List.foldl_cons, List.any_cons, Bool.or_eq_true, Bool.and_eq_true,
      decide_eq_true_eq]
    have hstep : (s.trimBorder k stuck move b j).maxp ≠ .excluded ∧
        ((s.trimBorder k stuck move b j).maxp ≠ .onlySeed ↔ b.maxp ≠ .onlySeed ∨
          j ≠ k ∧ (s.files j).priority.value > Priority.onlySeed.value) := by
      rcases s.trimBorder_maxp k stuck move b j with ⟨h, hnot⟩ | ⟨hj, h1, h2⟩
      · rw [h]
        refine ⟨hb, ⟨Or.inl, fun h' => h'.elim id fun ⟨hj, hgt⟩ => ?_⟩⟩
        rintro ho
        exact hnot ⟨hj, ho ▸ hgt⟩
      · obtain ⟨h3, h4⟩ := hle _ _ hb h1
        rw [h2]
        exact ⟨h3, fun _ => Or.inr ⟨hj, (hval _).mpr ⟨h3, h4⟩⟩, fun _ => h4⟩
    obtain ⟨h1, h2⟩ := ih _ hstep.1
    exact ⟨h1, h2.trans ((or_congr_left hstep.2).trans or_assoc)⟩

/-- What the loop over the files of the first chunk leaves.
Source: `ChunkManager::downloadStatusChanged`. Kind: L -/
theorem trimFirst_eq : (s.trimFirst k).pos = s.firstExcluded k ∧
    (s.trimFirst k).reprioritise_border_chunk = s.keepsFirst k :=
  s.foldl_trimBorder k (fun first => first = (L.getFile k).last_chunk) (· + 1)
    (L.torrent.calcChunkPos (L.getFile k).first_chunk) { pos := (L.getFile k).first_chunk } rfl rfl

/-- Moving the last border down never starts from zero, for it is above the first.
Source: `ChunkManager::downloadStatusChanged`. Kind: L -/
theorem trimLast_eq (hle : s.firstExcluded k ≤ L.last k) :
    (s.trimLast k (s.firstExcluded k)).pos = s.lastExcluded k ∧
      (s.trimLast k (s.firstExcluded k)).reprioritise_border_chunk = s.keepsLast k := by
  have h1 : decide (s.firstExcluded k = L.last k ∨ L.last k = 0) =
      decide (s.firstExcluded k = L.last k) := by
    refine decide_eq_decide.mpr ⟨fun h => ?_, Or.inl⟩
    rcases h with h | h
    · exact h
    · omega
  have h2 := s.foldl_trimBorder k (fun last => s.firstExcluded k = last ∨ last = 0) (· - 1)
    (L.torrent.calcChunkPos (L.last k)) { pos := L.last k } rfl rfl
  simp only [h1] at h2
  exact h2

/-- Excluding begins at the first chunk or behind it. Source: `torrent/chunkmanager.cpp`. Kind: L -/
theorem first_le_firstExcluded : L.first k ≤ s.firstExcluded k := by
  unfold firstExcluded
  split_ifs <;> omega

/-- The first chunk is kept when another file wants it. Source: `torrent/chunkmanager.cpp`.
Kind: L -/
theorem keepsFirst_iff : s.keepsFirst k = true ↔
    L.first k ≠ L.last k ∧ s.othersWant k (L.first k) = true := by
  simp [keepsFirst]

/-- The last chunk is kept when another file wants it and excluding does not begin there.
Source: `torrent/chunkmanager.cpp`. Kind: L -/
theorem keepsLast_iff : s.keepsLast k = true ↔
    s.firstExcluded k ≠ L.last k ∧ s.othersWant k (L.last k) = true := by
  simp [keepsLast]

/-- Excluding begins no later than the last chunk. Source: `torrent/chunkmanager.cpp`. Kind: L -/
theorem firstExcluded_le_last (h : L.first k ≤ L.last k) : s.firstExcluded k ≤ L.last k := by
  unfold firstExcluded
  split_ifs with hk
  · have := ((s.keepsFirst_iff k).mp hk).1
    omega
  · exact h

/-- The excluded range is never empty: the two borders cannot pass each other.
Source: `torrent/chunkmanager.cpp`. Kind: L -/
theorem firstExcluded_le_lastExcluded (h : L.first k ≤ L.last k) :
    s.firstExcluded k ≤ s.lastExcluded k := by
  have h1 := s.firstExcluded_le_last k h
  unfold lastExcluded
  split_ifs with hk
  · have := ((s.keepsLast_iff k).mp hk).1
    omega
  · exact h1

end borders

/-! ### Deselecting -/

section deselect

variable (s : ChunkManager L) (k : ℕ)

/-- Deselecting file `k` does nothing to the chunks: the file has one chunk, and other files lie in
it, wanted or not. Source: "exceptional case which causes very long loops". Kind: D -/
def Layout.crowded (L : Layout) (k : ℕ) : Prop :=
  L.first k = L.last k ∧ (L.torrent.calcChunkPos (L.first k)).length > 1

instance (k : ℕ) : Decidable (Layout.crowded L k) := inferInstanceAs (Decidable (_ ∧ _))

/-- The chunks that deselecting file `k` resets. Kind: D -/
def Layout.resets (L : Layout) (k i : ℕ) : Prop :=
  (L.first k < i ∧ i < L.last k) ∨
    (i = L.first k ∧ (L.torrent.calcChunkPos i).length = 1 ∧ i ≠ 0) ∨
    (i = L.last k ∧ L.last k ≠ L.first k ∧ (L.torrent.calcChunkPos i).length = 1)

instance (k i : ℕ) : Decidable (Layout.resets L k i) := inferInstanceAs (Decidable (_ ∨ _))

variable {s} in
/-- The borders depend on the selection of the files only. Source: none: infrastructure. Kind: L -/
theorem borders_congr {t : ChunkManager L} (h : t.files = s.files) :
    t.keepsFirst k = s.keepsFirst k ∧ t.firstExcluded k = s.firstExcluded k ∧
      t.keepsLast k = s.keepsLast k ∧ t.lastExcluded k = s.lastExcluded k := by
  unfold lastExcluded keepsLast firstExcluded keepsFirst othersWant
  rw [h]
  exact ⟨rfl, rfl, rfl, rfl⟩

/-- A chunk's priority, if it is set. Source: `ChunkManager::prioritise`. Kind: L -/
theorem cell_prioritise_if (p : Prop) [Decidable p] (i : ℕ) (q : Priority)
    (j : Fin L.numChunks) : (if p then s.prioritise i i q else s).cell j =
      if j.val = i ∧ p then (s.cell j).prioritise q else s.cell j := by
  by_cases hp : p
  · simp only [hp, if_true, cell_prioritise, min_self, max_self, and_true]
    exact if_congr ⟨fun h => le_antisymm h.2 h.1, fun h => ⟨h.ge, h.le⟩⟩ rfl rfl
  · simp [hp]

/-- The files are left. Source: `ChunkManager::prioritise`. Kind: L -/
theorem files_prioritise_if (p : Prop) [Decidable p] (i : ℕ) (q : Priority) :
    (if p then s.prioritise i i q else s).files = s.files := by
  split_ifs <;> simp

/-- A chunk, if it is reset. Source: `torrent/chunkmanager.cpp`. Kind: L -/
theorem cell_reset_if (p : Prop) [Decidable p] (os : Os) (i : ℕ) (j : Fin L.numChunks) :
    (if p then s.resetChunk os i else s).cell j =
      if p ∧ j.val = i then (s.cell j).reset else s.cell j := by
  by_cases hp : p
  · simp [hp, cell_resetChunk]
  · simp [hp]

/-- Resetting twice is resetting once. Source: `torrent/chunkmanager.cpp`. Kind: L -/
theorem Cell.reset_if_reset_if (p q : Prop) [Decidable p] [Decidable q] (c : Cell) :
    (if p then (if q then c.reset else c).reset else if q then c.reset else c) =
      if q ∨ p then c.reset else c := by
  by_cases hp : p <;> by_cases hq : q <;> simp [hp, hq, Cell.reset, Chunk.clear]

/-- The chunks that are reset with a file. Source: `ChunkManager::downloadStatusChanged`. Kind: L -/
theorem cell_resetFile (env : Env) (j : Fin L.numChunks) :
    (s.resetFile env k).cell j =
      if Layout.resets L k j then (s.cell j).reset else s.cell j := by
  unfold resetFile
  rw [cell_reset_if, cell_reset_if, cell_resetRange, Cell.reset_if_reset_if,
    Cell.reset_if_reset_if]
  refine if_congr (or_congr Iff.rfl (or_congr ⟨?_, ?_⟩ ⟨?_, ?_⟩)) rfl rfl
  · rintro ⟨h, hj⟩
    exact ⟨hj, hj ▸ h⟩
  · rintro ⟨hj, h⟩
    rw [hj] at h
    exact ⟨h, hj⟩
  · rintro ⟨⟨h1, h2⟩, hj⟩
    exact ⟨hj, h1, hj ▸ h2⟩
  · rintro ⟨hj, h1, h2⟩
    rw [hj] at h2
    exact ⟨⟨h1, h2⟩, hj⟩

/-- A border that is kept lies just outside the excluded range, so at most one of the three effects
`pf`, `pl` and `e` meets a chunk. Source: `torrent/chunkmanager.cpp`. Kind: L -/
theorem ite_borders {α : Type*} (e pl pf : α → α) (c : α) {first last fe le j : ℕ} {kF kL : Bool}
    (hfe : fe = if kF then first + 1 else first) (hle : le = if kL then last - 1 else last)
    (hpos : kL = true → 0 < last) (h : fe ≤ le) :
    (if fe ≤ j ∧ j ≤ le then
        e (if j = le + 1 ∧ kL then pl (if j = fe - 1 ∧ kF then pf c else c)
          else if j = fe - 1 ∧ kF then pf c else c)
      else if j = le + 1 ∧ kL then pl (if j = fe - 1 ∧ kF then pf c else c)
        else if j = fe - 1 ∧ kF then pf c else c) =
      if j = first ∧ kF then pf c
      else if j = last ∧ kL then pl c
      else if first ≤ j ∧ j ≤ last then e c else c := by
  cases kF <;> cases kL
  all_goals
    simp only [if_true, Bool.false_eq_true, if_false] at hfe hle
    simp only [and_true, and_false, Bool.false_eq_true, if_false]
  · rw [hfe, hle]
  · have := hpos rfl
    split_ifs <;> first | rfl | omega
  · split_ifs <;> first | rfl | omega
  · have := hpos rfl
    split_ifs <;> first | rfl | omega

/-- Deselecting a file whose only chunk is not crowded: the resets, the border that is kept at
either end, and the exclusion of what is left. Source: `ChunkManager::downloadStatusChanged`.
Kind: L -/
theorem deselectFile_eq (env : Env) (hle : L.first k ≤ L.last k) (hc : ¬ Layout.crowded L k) :
    ∃ pf pl : Priority, s.IsBorderPriority k (L.first k) pf ∧
      s.IsBorderPriority k (L.last k) pl ∧
      let s1 := s.resetFile env k
      let s2 := if s.keepsFirst k = true then
        s1.prioritise (s.firstExcluded k - 1) (s.firstExcluded k - 1) pf else s1
      let s3 := if s.keepsLast k = true then
        s2.prioritise (s.lastExcluded k + 1) (s.lastExcluded k + 1) pl else s2
      s.deselectFile env k =
        (s3.excludeRange (s.firstExcluded k) (s.lastExcluded k)).alertCache env k := by
  obtain ⟨s1, h1⟩ : ∃ t, t = s.resetFile env k := ⟨_, rfl⟩
  have hs1 : s1.files = s.files := by rw [h1, files_resetFile]
  obtain ⟨hf, hfe, -, -⟩ := borders_congr k hs1
  obtain ⟨hpos, hrep⟩ := s1.trimFirst_eq k
  rw [hfe] at hpos
  rw [hf] at hrep
  obtain ⟨s2, h2⟩ : ∃ t, t = if s.keepsFirst k = true then
    s1.prioritise (s.firstExcluded k - 1) (s.firstExcluded k - 1) (s1.trimFirst k).maxp
    else s1 := ⟨_, rfl⟩
  have hs2 : s2.files = s.files := by rw [h2, files_prioritise_if, hs1]
  obtain ⟨-, hfe2, hl, hle2⟩ := borders_congr k hs2
  have htl := s2.trimLast_eq k (by rw [hfe2]; exact s.firstExcluded_le_last k hle)
  rw [hfe2, hl, hle2] at htl
  obtain ⟨hpos', hrep'⟩ := htl
  refine ⟨(s1.trimFirst k).maxp, (s2.trimLast k (s.firstExcluded k)).maxp, ?_, ?_, ?_⟩
  · obtain ⟨h3, h4⟩ := s1.foldl_trimBorder_maxp k _ _ _ { pos := L.first k } (by simp)
    rw [hs1] at h4
    exact ⟨h3, h4.trans (or_iff_right (by simp))⟩
  · obtain ⟨h3, h4⟩ := s2.foldl_trimBorder_maxp k _ _ _ { pos := L.last k } (by simp)
    rw [hs2] at h4
    exact ⟨h3, h4.trans (or_iff_right (by simp))⟩
  have hord := s.firstExcluded_le_lastExcluded k hle
  unfold deselectFile
  refine (if_neg hc).trans ?_
  simp only [← h1, hpos, hrep, ← h2, hpos', hrep', if_neg (not_lt.mpr hord)]

/-- **Deselecting a file, chunk by chunk.** A border that is kept gets the highest priority of its
other files, and everything else in the range is excluded, after the resets.
Source: `ChunkManager::downloadStatusChanged`. Kind: P -/
theorem cell_deselectFile (env : Env) (hle : L.first k ≤ L.last k)
    (hc : ¬ Layout.crowded L k) :
    ∃ pf pl : Priority, s.IsBorderPriority k (L.first k) pf ∧
      s.IsBorderPriority k (L.last k) pl ∧ ∀ j : Fin L.numChunks,
      (s.deselectFile env k).cell j =
        let c := if Layout.resets L k j then (s.cell j).reset else s.cell j
        if j.val = L.first k ∧ s.keepsFirst k then c.prioritise pf
        else if j.val = L.last k ∧ s.keepsLast k then c.prioritise pl
        else if L.first k ≤ j.val ∧ j.val ≤ L.last k then c.exclude
        else c := by
  obtain ⟨pf, pl, hpf, hpl, heq⟩ := s.deselectFile_eq k env hle hc
  refine ⟨pf, pl, hpf, hpl, fun j => ?_⟩
  have hord := s.firstExcluded_le_lastExcluded k hle
  rw [heq, cell_alertCache, cell_excludeRange, cell_prioritise_if, cell_prioritise_if,
    cell_resetFile, min_eq_left hord, max_eq_right hord]
  refine ite_borders Cell.exclude _ _ _ rfl rfl (fun h => ?_) hord
  have h3 := ((s.keepsLast_iff k).mp h).1
  have h4 := s.firstExcluded_le_last k hle
  omega

/-- Deselecting a file announces the range it excludes.
Source: `ChunkManager::downloadStatusChanged`. Kind: L -/
theorem signals_deselectFile (env : Env) (hle : L.first k ≤ L.last k)
    (hc : ¬ Layout.crowded L k) : (s.deselectFile env k).signals =
      s.signals ++ [.excluded (s.firstExcluded k) (s.lastExcluded k)] := by
  obtain ⟨pf, pl, -, -, heq⟩ := s.deselectFile_eq k env hle hc
  have hord := s.firstExcluded_le_lastExcluded k hle
  rw [heq, signals_alertCache, signals_excludeRange, min_eq_left hord, max_eq_right hord]
  split_ifs <;> simp

/-- A file crowded out of its chunks excludes none. Source: `ChunkManager::downloadStatusChanged`.
Kind: L -/
theorem deselectFile_of_crowded (env : Env) (hc : Layout.crowded L k) :
    s.deselectFile env k = s.alertCache env k :=
  if_pos hc

/-- Deselecting leaves the selection to its caller. Source: `ChunkManager::downloadStatusChanged`.
Kind: L -/
@[simp] theorem files_deselectFile (env : Env) : (s.deselectFile env k).files = s.files := by
  unfold deselectFile
  dsimp only
  split_ifs <;> simp

end deselect

/-! ### Selecting -/

section select

variable (s : ChunkManager L)

/-- Chunk `i` is in the range from `a` to `b`, whichever is the larger. Kind: D -/
def between (a b i : ℕ) : Prop := min a b ≤ i ∧ i ≤ max a b

instance (a b i : ℕ) : Decidable (between a b i) := inferInstanceAs (Decidable (_ ∧ _))

/-- The chunks `prioritiseEnds` gives the preview priority. Kind: D -/
def atEnds (first last : ℕ) (few : ℕ → Bool) (i : ℕ) : Prop :=
  let chunkOffset := (last - first) / 100 + 1
  between first (u32 (first + chunkOffset)) i ∨
    (¬ few chunkOffset ∧ between (last - chunkOffset) last i)

instance (first last : ℕ) (few : ℕ → Bool) (i : ℕ) : Decidable (atEnds first last few i) :=
  inferInstanceAs (Decidable (_ ∨ _))

/-- Prioritising twice is prioritising once. Source: `ChunkManager::prioritise`. Kind: L -/
theorem Cell.prioritise_if_prioritise_if (p q : Prop) [Decidable p] [Decidable q] (a : Priority)
    (c : Cell) :
    (if p then (if q then c.prioritise a else c).prioritise a else if q then c.prioritise a else c)
      = if q ∨ p then c.prioritise a else c := by
  by_cases hp : p <;> by_cases hq : q <;> simp [hp, hq, Cell.prioritise]

/-- The chunks at a file's ends are preferred. Source: `ChunkManager::ChunkManager` and
`downloadStatusChanged`. Kind: L -/
theorem cell_prioritiseEnds (first last : ℕ) (few : ℕ → Bool) (j : Fin L.numChunks) :
    (s.prioritiseEnds first last few).cell j =
      if atEnds first last few j then (s.cell j).prioritise .preview else s.cell j := by
  unfold prioritiseEnds atEnds
  by_cases hf : few ((last - first) / 100 + 1) = true
  · simp only [hf, if_true, cell_prioritise, between, not_true_eq_false, false_and, or_false]
  · simp only [hf, if_false, cell_prioritise, Bool.false_eq_true]
    rw [Cell.prioritise_if_prioritise_if]
    refine if_congr ?_ rfl rfl
    simp [between]

/-- The files are left. Source: `ChunkManager::ChunkManager` and `downloadStatusChanged`. Kind: L -/
@[simp] theorem files_prioritiseEnds (first last : ℕ) (few : ℕ → Bool) :
    (s.prioritiseEnds first last few).files = s.files := by
  unfold prioritiseEnds
  dsimp only
  split_ifs <;> simp

/-- The chunks that selecting file `k` gives the preview priority. Kind: D -/
def Layout.previews (L : Layout) (k i : ℕ) : Prop :=
  (L.getFile k).multimedia = true ∧
    atEnds (L.first k) (L.last k) (fun _ => L.last k - L.first k ≤ 2) i

instance (k i : ℕ) : Decidable (Layout.previews L k i) := inferInstanceAs (Decidable (_ ∧ _))

/-- **Selecting a file, chunk by chunk.**. Source: `ChunkManager::downloadStatusChanged`. Kind: P -/
theorem cell_selectFile (env : Env) (k : ℕ) (j : Fin L.numChunks) :
    (s.selectFile env k).cell j =
      let c := if between (L.first k) (L.last k) j then (s.cell j).includeBack else s.cell j
      if Layout.previews L k j then c.prioritise .preview else c := by
  unfold selectFile
  simp only [cell_alertCache]
  by_cases hm : (L.getFile k).multimedia = true
  · simp only [hm, if_true, cell_prioritiseEnds, cell_includeRange, Layout.previews, true_and]
    rfl
  · simp only [hm, if_false, cell_includeRange, Layout.previews, false_and, Bool.false_eq_true]
    rfl

/-- Selecting a file announces the range it includes. Source: `ChunkManager::downloadStatusChanged`.
Kind: L -/
theorem signals_selectFile (env : Env) {k : ℕ} (hle : L.first k ≤ L.last k) :
    (s.selectFile env k).signals = s.signals ++ [.included (L.first k) (L.last k)] := by
  have h1 : (s.includeRange (L.first k) (L.last k)).signals =
      s.signals ++ [.included (L.first k) (L.last k)] := by
    rw [signals_includeRange, min_eq_left hle, max_eq_right hle]
  have h2 : ∀ (t : ChunkManager L) (a b : ℕ) (few : ℕ → Bool),
      (t.prioritiseEnds a b few).signals = t.signals := by
    intro t a b few
    unfold prioritiseEnds
    dsimp only
    split_ifs <;> simp
  unfold selectFile
  dsimp only
  split_ifs
  · rw [signals_alertCache, h2]
    exact h1
  · rw [signals_alertCache]
    exact h1

/-- Selecting leaves the selection to its caller. Source: `ChunkManager::downloadStatusChanged`.
Kind: L -/
@[simp] theorem files_selectFile (env : Env) (k : ℕ) : (s.selectFile env k).files = s.files := by
  unfold selectFile
  dsimp only
  split_ifs <;> simp

/-- A file whose priority becomes EXCLUDED is deselected.
Source: `ChunkManager::downloadPriorityChanged`. Kind: L -/
theorem downloadPriorityChanged_excluded (env : Env) (k : ℕ) (q : Priority) :
    s.downloadPriorityChanged env k .excluded q = s.downloadStatusChanged env k false :=
  if_pos rfl

/-- A file whose priority was EXCLUDED is selected. Source: `ChunkManager::downloadPriorityChanged`.
Kind: L -/
theorem downloadPriorityChanged_included (env : Env) (k : ℕ) {p : Priority} (hp : p ≠ .excluded) :
    s.downloadPriorityChanged env k p .excluded = s.downloadStatusChanged env k true :=
  (if_neg hp).trans (if_pos rfl)

/-- A change between two priorities that are not `EXCLUDED`, chunk by chunk.
Source: `ChunkManager::downloadPriorityChanged`. Kind: L -/
theorem cell_downloadPriorityChanged (env : Env) (k : ℕ) {p q : Priority} (hp : p ≠ .excluded)
    (hq : q ≠ .excluded) (j : Fin L.numChunks) :
    (s.downloadPriorityChanged env k p q).cell j =
      match s.priorityRange k p with
      | none => s.cell j
      | some (a, b) => if between a b j then (s.cell j).prioritise p else s.cell j := by
  have hr : s.savePriorityInfo.priorityRange k p = s.priorityRange k p := by
    unfold priorityRange outranked
    simp only [files_savePriorityInfo]
  unfold downloadPriorityChanged
  rw [if_neg hp, if_neg hq]
  simp only [hr]
  rcases s.priorityRange k p with _ | ⟨a, b⟩
  · exact cell_savePriorityInfo s j
  · have h1 := s.savePriorityInfo.cell_prioritise j a b p
    rw [cell_savePriorityInfo] at h1
    split_ifs <;> exact h1

/-- A status leaves the selection to its caller. Source: `ChunkManager::downloadStatusChanged`.
Kind: L -/
@[simp] theorem files_downloadStatusChanged (env : Env) (k : ℕ) (download : Bool) :
    (s.downloadStatusChanged env k download).files = s.files := by
  unfold downloadStatusChanged
  split_ifs <;> simp

/-- A priority leaves the selection to its caller. Source: `ChunkManager::downloadPriorityChanged`.
Kind: L -/
@[simp] theorem files_downloadPriorityChanged (env : Env) (k : ℕ) (p q : Priority) :
    (s.downloadPriorityChanged env k p q).files = s.files := by
  unfold downloadPriorityChanged
  by_cases hp : p = .excluded
  · rw [if_pos hp, files_downloadStatusChanged]
  · by_cases hq : q = .excluded
    · rw [if_neg hp, if_pos hq, files_downloadStatusChanged]
    · rw [if_neg hp, if_neg hq]
      dsimp only
      split
      · exact files_savePriorityInfo s
      · split_ifs <;> simp [emit]

end select

/-! ### The constructor -/

/-- The files of a torrent just loaded all have their normal priority, so all its chunk manager's
constructor does is give some chunks the preview priority. Source: `ChunkManager::ChunkManager`.
Kind: L -/
theorem construct_induction {P : ChunkManager L → Prop} {env : Env} {saved : Saved}
    (hbase : P (base L (fun _ => {}) saved))
    (hstep : ∀ s a b, P s → P (s.prioritise a b .preview)) :
    P (construct L env (fun _ => {}) saved) := by
  have hends : ∀ s a b few, P s → P (s.prioritiseEnds a b few) := by
    intro s a b few hs
    unfold prioritiseEnds
    dsimp only
    split_ifs
    · exact hstep _ _ _ hs
    · exact hstep _ _ _ (hstep _ _ _ hs)
  obtain ⟨s, hs⟩ : ∃ s, s = forRange 0 L.torrent.getNumFiles (fun k (s : ChunkManager L) =>
    if (s.files k).priority ≠ .normal then
      s.downloadPriorityChanged env k (s.files k).priority (s.files k).old_priority
    else s) (base L (fun _ => {}) saved) := ⟨_, rfl⟩
  have h : P s ∧ s.files = fun _ => {} := by
    rw [hs]
    refine forRange_inv (P := fun t : ChunkManager L => P t ∧ t.files = fun _ => {})
      (fun k _ _ t ht => ?_) ⟨hbase, rfl⟩
    rw [if_neg]
    · exact ht
    · simp [ht.2]
  unfold construct
  simp only [← hs]
  split_ifs
  · refine forRange_inv (P := P) (fun k _ _ t ht => ?_) h.1
    unfold previewFile
    dsimp only
    split_ifs
    · exact ht
    · exact hstep _ _ _ ht
    · exact hends _ _ _ _ ht
  · exact hstep _ _ _ (hstep _ _ _ h.1)
  · exact hstep _ _ _ h.1
  · exact h.1

end ChunkManager

end KTorrent.Storage
