import KTorrent.Storage.Bookkeeping

/-!
# Deselecting a file and its neighbours

What a file that is no longer wanted may take with it, and what it must:

* `Harmless` — deselecting file `k` neither excludes nor empties a chunk another wanted file has a
  byte in, and leaves every chunk no wanted file has a byte in excluded.
* `harmless_iff` — the exact condition, on the layout, the selection and the state before. It names
  three ways to go wrong: a file of exactly two chunks, both shared (`pinched`); an empty file in
  the only chunk of another (`hollow`); and a file whose only chunk is crowded, which excludes
  nothing even when nobody wants the chunk any more.
* `pinched_excludes` — a file of the first kind takes its neighbour's chunk with it.

A chunk other files have a byte in is the file's first or last (`eq_first_or_eq_last`), so the two
borders are all there is to look at.

Source: `torrent/chunkmanager.cpp`
-/

namespace KTorrent.Storage

open KTorrent.Lib KTorrent.Util

namespace Layout

variable {L : Layout}

/-- Where files follow each other, a chunk two of them have a byte in is a border of each.
Source: `torrent/chunkmanager.cpp`. Kind: L -/
theorem eq_first_or_eq_last {i j k : ℕ} (hk : k < L.files.length) (hjk : j ≠ k)
    (hj : L.Overlaps i j) (h1 : L.first k ≤ i) (h2 : i ≤ L.last k) :
    i = L.first k ∨ i = L.last k := by
  obtain ⟨hlt, b, hb1, hb2, rfl⟩ := hj
  rcases lt_or_gt_of_ne hjk with h | h
  · left
    have h3 : L.offset (j + 1) ≤ L.offset k := L.offset_mono h
    rw [L.offset_succ hlt] at h3
    refine le_antisymm ?_ h1
    rw [L.first_eq hk]
    exact Nat.div_le_div_right (by omega)
  · right
    have h3 : L.offset (k + 1) ≤ L.offset j := L.offset_mono h
    rw [L.offset_succ hk] at h3
    refine le_antisymm h2 ?_
    rw [L.last_eq hk]
    split_ifs
    · exact Nat.div_le_div_right (by omega)
    · exact Nat.div_le_div_right (by omega)

/-- A file with more than one chunk has a byte in its first and in its last.
Source: `torrent/chunkmanager.cpp`. Kind: L -/
theorem overlaps_borders {k : ℕ} (hk : k < L.files.length) (h : L.first k ≠ L.last k) :
    L.Overlaps (L.first k) k ∧ L.Overlaps (L.last k) k := by
  have hs : 0 < L.files[k].size := by
    by_contra hs
    apply h
    rw [L.first_eq hk, L.last_eq hk, if_neg hs]
  have hle := L.first_le_last hk
  exact ⟨(L.overlaps_iff hk).mpr ⟨hs, le_rfl, hle⟩, (L.overlaps_iff hk).mpr ⟨hs, hle, le_rfl⟩⟩

/-- A chunk two files have a byte in is not one file's alone. Source: `torrent/torrent.cpp`,
`Torrent::calcChunkPos`. Kind: L -/
theorem length_calcChunkPos_ne_one {i j k : ℕ} (hjk : j ≠ k) (hj : L.Overlaps i j)
    (hk : L.Overlaps i k) : (L.torrent.calcChunkPos i).length ≠ 1 := by
  intro h
  obtain ⟨f, hf⟩ := List.length_eq_one_iff.mp h
  have h1 := L.mem_calcChunkPos_iff.mpr hj
  have h2 := L.mem_calcChunkPos_iff.mpr hk
  rw [hf, List.mem_singleton] at h1 h2
  exact hjk (h1.trans h2.symm)

end Layout

namespace ChunkManager

variable {L : Layout} (s : ChunkManager L)

/-- The source's loop over the files of a chunk, as a statement about them.
Source: `torrent/chunkmanager.cpp`. Kind: L -/
theorem othersWant_iff {k i : ℕ} : s.othersWant k i = true ↔
    ∃ j, j ≠ k ∧ L.Overlaps i j ∧ (s.files j).doNotDownload = false := by
  simp only [othersWant, List.any_eq_true, Bool.and_eq_true, decide_eq_true_eq,
    Bool.not_eq_true', L.mem_calcChunkPos_iff]
  constructor
  · rintro ⟨j, h1, h2, h3⟩
    exact ⟨j, h2, h1, h3⟩
  · rintro ⟨j, h1, h2, h3⟩
    exact ⟨j, h2, h1, h3⟩

/-- No wanted file has a byte in the chunk. Kind: D -/
def Unwanted (i : ℕ) : Prop := ∀ j, L.Overlaps i j → (s.files j).doNotDownload = true

/-- **Deselecting file `k` does no harm to its neighbours, and its own work.** Kind: D -/
structure Harmless (env : Env) (k : ℕ) : Prop where
  /-- A chunk another wanted file has a byte in is not excluded by it. -/
  not_excluded : ∀ (i : Fin L.numChunks) (j : ℕ), j ≠ k → L.Overlaps i j →
    (s.files j).doNotDownload = false →
    ((s.downloadStatusChanged env k false).chunks i).priority = .excluded →
    (s.chunks i).priority = .excluded
  /-- Nor is its have-bit cleared. -/
  keeps_bit : ∀ (i : Fin L.numChunks) (j : ℕ), j ≠ k → L.Overlaps i j →
    (s.files j).doNotDownload = false → s.bitset.get i = true →
    (s.downloadStatusChanged env k false).bitset.get i = true
  /-- A chunk nobody wants ends up excluded. -/
  excludes : ∀ i : Fin L.numChunks, s.Unwanted i →
    ((s.downloadStatusChanged env k false).chunks i).priority = .excluded

/-- File `k` has exactly two chunks, and others want both. Kind: D -/
def pinched (k : ℕ) : Prop :=
  L.last k = L.first k + 1 ∧ s.othersWant k (L.first k) = true ∧ s.othersWant k (L.last k) = true

/-- File `k` is empty and lies in a chunk that is one other, wanted file's alone. Kind: D -/
def hollow (k : ℕ) : Prop :=
  L.first k = L.last k ∧ (L.torrent.calcChunkPos (L.first k)).length = 1 ∧
    s.othersWant k (L.first k) = true

/-- The chunks deselecting file `k` cannot reach: those outside the file, and all when its only
chunk is crowded. Kind: D -/
def outOfReach (L : Layout) (k i : ℕ) : Prop :=
  Layout.crowded L k ∨ i < L.first k ∨ L.last k < i

/-- The chunk is excluded already, with nothing to lose. Kind: D -/
def alreadyGone (i : Fin L.numChunks) : Prop :=
  (s.chunks i).priority = .excluded ∧ s.bitset.get i = false

/-! ### What happens to each chunk -/

section chunks

variable {s} {k : ℕ}

/-- Only chunks of the file are reset. Source: `torrent/chunkmanager.cpp`. Kind: L -/
theorem resets_in_range {i : ℕ} (hle : L.first k ≤ L.last k) (h : Layout.resets L k i) :
    L.first k ≤ i ∧ i ≤ L.last k := by
  rcases h with h | ⟨h, -⟩ | ⟨h, -⟩ <;> omega

/-- A chunk outside the file is left alone. Source: `torrent/chunkmanager.cpp`. Kind: L -/
theorem cell_deselect_outside (env : Env) (hle : L.first k ≤ L.last k)
    (hc : ¬ Layout.crowded L k) {i : Fin L.numChunks} (hi : i.val < L.first k ∨ L.last k < i.val) :
    (s.deselectFile env k).cell i = s.cell i := by
  obtain ⟨pf, pl, -, -, hcell⟩ := s.cell_deselectFile k env hle hc
  have h1 : ¬ Layout.resets L k i := fun h => by
    have := resets_in_range hle h
    omega
  simp only [hcell i, if_neg h1]
  rw [if_neg (by omega), if_neg (by omega), if_neg (by omega)]

/-- A chunk of the file that is not a kept border is excluded. Source: `torrent/chunkmanager.cpp`.
Kind: L -/
theorem cell_deselect_inside (env : Env) (hle : L.first k ≤ L.last k)
    (hc : ¬ Layout.crowded L k) {i : Fin L.numChunks} (h1 : L.first k ≤ i.val)
    (h2 : i.val ≤ L.last k) (h3 : ¬ (i.val = L.first k ∧ s.keepsFirst k = true))
    (h4 : ¬ (i.val = L.last k ∧ s.keepsLast k = true)) :
    ∃ c : Cell, (s.deselectFile env k).cell i = c.exclude := by
  obtain ⟨pf, pl, -, -, hcell⟩ := s.cell_deselectFile k env hle hc
  refine ⟨if Layout.resets L k i then (s.cell i).reset else s.cell i, ?_⟩
  simp only [hcell i]
  rw [if_neg h3, if_neg h4, if_pos ⟨h1, h2⟩]

/-- A kept border that is not reset keeps its bit and is not excluded.
Source: `torrent/chunkmanager.cpp`. Kind: L -/
theorem cell_deselect_border (env : Env) (hle : L.first k ≤ L.last k)
    (hc : ¬ Layout.crowded L k) {i : Fin L.numChunks} (hr : ¬ Layout.resets L k i)
    (h : i.val = L.first k ∧ s.keepsFirst k = true ∨ i.val = L.last k ∧ s.keepsLast k = true) :
    ((s.deselectFile env k).chunks i).priority ≠ .excluded ∧
      (s.deselectFile env k).bitset.get i = s.bitset.get i := by
  obtain ⟨pf, pl, hpf, hpl, hcell⟩ := s.cell_deselectFile k env hle hc
  have h1 := hcell i
  simp only [if_neg hr] at h1
  rw [← cell_chunk, ← cell_owned, ← cell_owned, h1]
  by_cases hf : i.val = L.first k ∧ s.keepsFirst k = true
  · rw [if_pos hf]
    exact ⟨hpf.ne_excluded, rfl⟩
  · rw [if_neg hf, if_pos (h.resolve_left hf)]
    exact ⟨hpl.ne_excluded, rfl⟩

/-- **A shared chunk of the file is a kept border, except in two cases.**.
Source: `torrent/chunkmanager.cpp`. Kind: L -/
theorem shared_cases {i : Fin L.numChunks} {j : ℕ} (hk : k < L.files.length)
    (hc : ¬ Layout.crowded L k) (h1 : L.first k ≤ i.val) (h2 : i.val ≤ L.last k) (hjk : j ≠ k)
    (hj : L.Overlaps i j) (hw : (s.files j).doNotDownload = false) :
    (¬ Layout.resets L k i ∧
      (i.val = L.first k ∧ s.keepsFirst k = true ∨ i.val = L.last k ∧ s.keepsLast k = true)) ∨
      (s.pinched k ∧ i.val = L.last k) ∨ (s.hollow k ∧ i.val = L.first k) := by
  have hwant : s.othersWant k i = true := s.othersWant_iff.mpr ⟨j, hjk, hj, hw⟩
  by_cases hfl : L.first k = L.last k
  · -- one chunk, which is not crowded
    have hi : i.val = L.first k := by omega
    have hmem := L.mem_calcChunkPos_iff.mpr hj
    have h3 : ¬ (L.torrent.calcChunkPos (L.first k)).length > 1 := fun h => hc ⟨hfl, h⟩
    have h4 := List.length_pos_of_mem hmem
    rw [hi] at h4 hwant
    exact Or.inr (Or.inr ⟨⟨hfl, by omega, hwant⟩, hi⟩)
  obtain ⟨hof, hol⟩ := L.overlaps_borders hk hfl
  have hnr : ¬ Layout.resets L k i := by
    rintro (h | ⟨h, h5, -⟩ | ⟨h, -, h5⟩)
    · have := Layout.eq_first_or_eq_last hk hjk hj h1 h2
      omega
    · exact Layout.length_calcChunkPos_ne_one hjk hj (h ▸ hof) h5
    · exact Layout.length_calcChunkPos_ne_one hjk hj (h ▸ hol) h5
  rcases Layout.eq_first_or_eq_last hk hjk hj h1 h2 with hi | hi
  · rw [hi] at hwant
    exact Or.inl ⟨hnr, Or.inl ⟨hi, (s.keepsFirst_iff k).mpr ⟨hfl, hwant⟩⟩⟩
  · rw [hi] at hwant
    by_cases hp : s.firstExcluded k = L.last k
    · -- the first border has moved onto the last, which is stuck there
      have hkf : s.keepsFirst k = true := by
        by_contra hkf
        rw [firstExcluded, if_neg hkf] at hp
        exact hfl hp
      rw [firstExcluded, if_pos hkf] at hp
      exact Or.inr (Or.inl ⟨⟨hp.symm, ((s.keepsFirst_iff k).mp hkf).2, hwant⟩, hi⟩)
    · exact Or.inl ⟨hnr, Or.inr ⟨hi, (s.keepsLast_iff k).mpr ⟨hp, hwant⟩⟩⟩

/-- In a pinched file the last border is stuck. Source: `torrent/chunkmanager.cpp`. Kind: L -/
theorem keepsLast_of_pinched (h : s.pinched k) : s.keepsLast k = false := by
  obtain ⟨h1, h2, -⟩ := h
  have hkf : s.keepsFirst k = true := (s.keepsFirst_iff k).mpr ⟨by omega, h2⟩
  simp [keepsLast, firstExcluded, hkf, h1]

/-- In the two bad cases the shared chunk is excluded all the same.
Source: `torrent/chunkmanager.cpp`. Kind: L -/
theorem cell_deselect_bad (env : Env) (hk : k < L.files.length) {i : Fin L.numChunks}
    (h : s.pinched k ∧ i.val = L.last k ∨ s.hollow k ∧ i.val = L.first k) :
    ∃ c : Cell, (s.deselectFile env k).cell i = c.exclude := by
  have hle := L.first_le_last hk
  rcases h with ⟨hp, hi⟩ | ⟨hh, hi⟩
  · have hl := keepsLast_of_pinched hp
    have hne := hp.1
    refine cell_deselect_inside env hle (fun hc => ?_) (by omega) (by omega) ?_ ?_
    · have := hc.1
      omega
    · rintro ⟨h1, -⟩
      omega
    · simp [hl]
  · obtain ⟨h1, h2, -⟩ := hh
    have hkf : s.keepsFirst k = false := by simp [keepsFirst, h1]
    refine cell_deselect_inside env hle (fun hc => ?_) (by omega) (by omega) ?_ ?_
    · have := hc.2
      omega
    · simp [hkf]
    · simp [keepsLast, firstExcluded, hkf, h1]

/-- Another file wants the shared chunk of each bad case. Source: `torrent/chunkmanager.cpp`.
Kind: L -/
theorem shared_of_bad {i : Fin L.numChunks}
    (h : s.pinched k ∧ i.val = L.last k ∨ s.hollow k ∧ i.val = L.first k) :
    ∃ j, j ≠ k ∧ L.Overlaps i j ∧ (s.files j).doNotDownload = false := by
  rcases h with ⟨⟨-, -, hw⟩, hi⟩ | ⟨⟨-, -, hw⟩, hi⟩
  · rw [hi]
    exact s.othersWant_iff.mp hw
  · rw [hi]
    exact s.othersWant_iff.mp hw

end chunks

/-! ### The exact condition -/

/-- Deselecting file `k` is harmless exactly when every chunk it cannot reach is excluded already if
nobody wants it, and the chunk it takes from its neighbours in the two bad cases was gone already.
Source: `torrent/chunkmanager.cpp`. Kind: P -/
theorem harmless_iff (env : Env) (k : Fin L.files.length) :
    s.Harmless env k ↔
      (∀ i : Fin L.numChunks, s.Unwanted i → outOfReach L k i →
        (s.chunks i).priority = .excluded) ∧
      (∀ i : Fin L.numChunks, s.pinched k ∧ i.val = L.last k ∨ s.hollow k ∧ i.val = L.first k →
        s.alreadyGone i) := by
  have hle := L.first_le_last k.2
  constructor
  · rintro ⟨h1, h2, h3⟩
    refine ⟨fun i hun hout => ?_, fun i hbad => ?_⟩
    · have h4 := h3 i hun
      by_cases hc : Layout.crowded L k
      · rw [← cell_chunk, show s.downloadStatusChanged env k false = _ from
          s.deselectFile_of_crowded k env hc, cell_alertCache] at h4
        exact h4
      · have h5 := cell_deselect_outside (s := s) env hle hc (hout.resolve_left hc)
        rw [← cell_chunk, show s.downloadStatusChanged env k false = s.deselectFile env k from rfl,
          h5] at h4
        exact h4
    · obtain ⟨c, hcell⟩ := cell_deselect_bad env k.2 hbad
      obtain ⟨j, hjk, hj, hw⟩ := shared_of_bad hbad
      have hprio : ((s.deselectFile env k).chunks i).priority = .excluded := by
        rw [← cell_chunk, hcell]
        rfl
      have hbit : (s.deselectFile env k).bitset.get i = false := by
        rw [← cell_owned, hcell]
        rfl
      refine ⟨h1 i j hjk hj hw hprio, ?_⟩
      by_contra hown
      have := h2 i j hjk hj hw (by simpa using hown)
      exact absurd (this.symm.trans hbit) (by decide)
  · rintro ⟨hout, hbad⟩
    by_cases hc : Layout.crowded L k
    · have hcell : ∀ i, (s.downloadStatusChanged env k false).cell i = s.cell i := fun i => by
        rw [show s.downloadStatusChanged env k false = _ from s.deselectFile_of_crowded k env hc,
          cell_alertCache]
      refine ⟨fun i j _ _ _ h => ?_, fun i j _ _ _ h => ?_, fun i hun => ?_⟩
      · rwa [← cell_chunk, hcell] at h
      · rwa [← cell_owned, hcell]
      · rw [← cell_chunk, hcell]
        exact hout i hun (Or.inl hc)
    · -- a chunk another file wants keeps its bit and its priority
      have hshared : ∀ (i : Fin L.numChunks) (j : ℕ), j ≠ k → L.Overlaps i j →
          (s.files j).doNotDownload = false →
          (((s.deselectFile env k).chunks i).priority = .excluded →
            (s.chunks i).priority = .excluded) ∧
          (s.bitset.get i = true → (s.deselectFile env k).bitset.get i = true) := by
        intro i j hjk hj hw
        by_cases hin : L.first k ≤ i.val ∧ i.val ≤ L.last k
        · rcases shared_cases k.2 hc hin.1 hin.2 hjk hj hw with ⟨hr, hb⟩ | hb
          · obtain ⟨h1, h2⟩ := cell_deselect_border env hle hc hr hb
            exact ⟨fun h => absurd h h1, fun h => h2 ▸ h⟩
          · obtain ⟨h1, h2⟩ := hbad i hb
            exact ⟨fun _ => h1, fun h => absurd (h.symm.trans h2) (by decide)⟩
        · have h1 := cell_deselect_outside (s := s) env hle hc (i := i) (by omega)
          refine ⟨fun h => ?_, fun h => ?_⟩
          · rwa [← cell_chunk, h1] at h
          · rwa [← cell_owned, h1]
      refine ⟨fun i j hjk hj hw => (hshared i j hjk hj hw).1,
        fun i j hjk hj hw => (hshared i j hjk hj hw).2, fun i hun => ?_⟩
      show ((s.deselectFile env k).chunks i).priority = .excluded
      have hnw : ¬ s.othersWant k i = true := fun h => by
        obtain ⟨j, -, hj, hw⟩ := s.othersWant_iff.mp h
        exact absurd (hw.symm.trans (hun j hj)) (by decide)
      by_cases hin : L.first k ≤ i.val ∧ i.val ≤ L.last k
      · obtain ⟨c, hcell⟩ := cell_deselect_inside (s := s) env hle hc hin.1 hin.2
          (fun h => hnw (h.1 ▸ ((s.keepsFirst_iff k).mp h.2).2))
          (fun h => hnw (h.1 ▸ ((s.keepsLast_iff k).mp h.2).2))
        rw [← cell_chunk, hcell]
        rfl
      · rw [← cell_chunk, cell_deselect_outside env hle hc (by omega)]
        exact hout i hun (Or.inr (by omega))

/-! ### A file of two chunks between two others -/

/-- Three files in two chunks, the middle one sharing a chunk with each. Kind: D -/
def pinchedLayout : Layout :=
  .checked [] 16 32 [⟨['a'], 8, false⟩, ⟨['b'], 16, false⟩, ⟨['c'], 8, false⟩]
    (List.replicate 2 (Vector.replicate 20 0)) (by decide)

/-- Deselecting the middle file excludes the chunk the last file is in.
Source: `torrent/chunkmanager.cpp`. Kind: P -/
theorem pinched_excludes :
    ¬ ∀ (L : Layout) (s : ChunkManager L) (env : Env) (k : Fin L.files.length),
      (s.files k).priority = .excluded → s.Harmless env k := by
  intro h
  let s := (construct pinchedLayout {} (fun _ => {}) ⟨⟨fun _ => 0, 0⟩, [], none, none⟩).apply
    (.choose ⟨1, by decide⟩ { priority := .excluded })
  have h1 := (h pinchedLayout s {} ⟨1, by decide⟩ (by decide)).not_excluded ⟨1, by decide⟩ 2
    (by decide) (pinchedLayout.mem_calcChunkPos_iff.mp (by decide)) (by decide) (by decide)
  revert h1
  decide

end ChunkManager

end KTorrent.Storage
