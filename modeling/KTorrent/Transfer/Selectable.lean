import KTorrent.Storage.Deselect
import KTorrent.Transfer.Sane

/-!
# Chunks that can still be downloaded

* `obs_onExcluded`, `turns_deselect`, `turns_select` — what deselecting and selecting a file do to the
  chunks, their downloads and the selector's list.
* `Spares` — when an event loses nothing about chunk `i`, and `turns_step`, that this is exact.
* `sound_run_iff` — the runs that pass sound states only are those in which every event spares every
  chunk.
* `reselected_stuck` — a file starting in chunk 0 that is complete, deselected and selected again:
  its first chunk is excluded without being reset, and is never selectable again.

Source: `torrent/downloader.cpp`, `torrent/chunkselector.cpp`
-/

namespace KTorrent.Transfer

open KTorrent.Lib KTorrent.Util KTorrent.Storage ChunkManager

namespace Downloader

variable {L : Layout}

section selection

variable {d : Downloader L}

/-! ### Deselecting a file -/

/-- A border of file `k` that deselecting it leaves alone. Kind: D -/
def keepsBorder (s : ChunkManager L) (k i : ℕ) : Prop :=
  i = L.first k ∧ s.keepsFirst k = true ∨ i = L.last k ∧ s.keepsLast k = true

/-- The chunks that are excluded are those of the file that are not kept.
Source: `torrent/downloader.cpp`, `torrent/chunkselector.cpp`. Kind: L -/
theorem excluded_iff (s : ChunkManager L) {k : ℕ} (hle : L.first k ≤ L.last k) (i : ℕ) :
    (s.firstExcluded k ≤ i ∧ i ≤ s.lastExcluded k) ↔
      (L.first k ≤ i ∧ i ≤ L.last k) ∧ ¬ keepsBorder s k i := by
  have h1 := s.firstExcluded_le_last k hle
  have h2 := s.first_le_firstExcluded k
  have hl : s.keepsLast k = true → s.firstExcluded k ≠ L.last k :=
    fun h => ((s.keepsLast_iff k).mp h).1
  have hle' : s.lastExcluded k = if s.keepsLast k then L.last k - 1 else L.last k := rfl
  have hfe : s.firstExcluded k = if s.keepsFirst k then L.first k + 1 else L.first k := rfl
  unfold keepsBorder
  cases hf : s.keepsFirst k <;> cases hk : s.keepsLast k
  all_goals
    simp only [hf, hk, if_true, if_false, Bool.false_eq_true, forall_const, and_true, and_false,
      or_false, false_or, not_false_eq_true] at hle' hfe hl ⊢
    omega

/-- A border that is kept is not reset, for another file lies in it.
Source: `torrent/downloader.cpp`, `torrent/chunkselector.cpp`. Kind: L -/
theorem not_resets_of_keepsBorder (s : ChunkManager L) {k i : ℕ} (hk : k < L.files.length)
    (h : keepsBorder s k i) : ¬ Layout.resets L k i := by
  have hne : L.first k ≠ L.last k := by
    rcases h with ⟨-, h⟩ | ⟨-, h⟩
    · exact ((s.keepsFirst_iff k).mp h).1
    · rintro heq
      have h1 : s.keepsFirst k = false := by simp [keepsFirst, heq]
      exact ((s.keepsLast_iff k).mp h).1 (by simp [firstExcluded, h1, heq])
  obtain ⟨hof, hol⟩ := Layout.overlaps_borders hk hne
  have hlen : (L.torrent.calcChunkPos i).length ≠ 1 := by
    rcases h with ⟨rfl, h⟩ | ⟨rfl, h⟩
    · obtain ⟨j, hjk, hj, -⟩ := (othersWant_iff s).mp ((s.keepsFirst_iff k).mp h).2
      exact Layout.length_calcChunkPos_ne_one hjk hj hof
    · obtain ⟨j, hjk, hj, -⟩ := (othersWant_iff s).mp ((s.keepsLast_iff k).mp h).2
      exact Layout.length_calcChunkPos_ne_one hjk hj hol
  rintro (hr | ⟨-, hr, -⟩ | ⟨-, -, hr⟩)
  · rcases h with ⟨rfl, -⟩ | ⟨rfl, -⟩ <;> omega
  · exact hlen hr
  · exact hlen hr

/-- What `onExcluded` does to a chunk and its download. Kind: D -/
def dropDownload (p : Cell × Bool) : Cell × Bool :=
  if p.2 = false ∨ p.1.chunk.priority = .onlySeed then p
  else (Cell.reset { p.1 with chunk := { p.1.chunk with ref_count := p.1.chunk.ref_count - 1 } },
    false)

/-- A download of an excluded chunk is dropped. Source: `Downloader::onExcluded`. Kind: L -/
theorem obs_excludeDownload (env : Env) (i : ℕ) (d : Downloader L) (j : Fin L.numChunks) :
    ((d.excludeDownload env i).cman.cell j, ((d.excludeDownload env i).current_chunks j).isSome) =
      if j.val = i then dropDownload (d.cman.cell j, (d.current_chunks j).isSome)
      else (d.cman.cell j, (d.current_chunks j).isSome) := by
  unfold Downloader.excludeDownload dropDownload
  by_cases hi : i < L.numChunks
  swap
  · rw [dif_neg hi, if_neg (by have := j.2; omega)]
  rw [dif_pos hi]
  obtain ⟨i, rfl⟩ : ∃ i' : Fin L.numChunks, i'.val = i := ⟨⟨i, hi⟩, rfl⟩
  by_cases hn : (d.current_chunks i).isNone = true ∨ (d.cman.chunks i).priority = .onlySeed
  · rw [if_pos hn]
    by_cases hj : j.val = i.val
    · obtain rfl := Fin.ext hj
      rw [if_pos rfl, if_pos (by simpa using hn)]
    · rw [if_neg hj]
  · rw [if_neg hn]
    rw [not_or] at hn
    obtain ⟨cd, hcd⟩ := Option.ne_none_iff_exists'.mp (by simpa using hn.1)
    have he : d.erase i = { d with
        cman := d.cman.modifyChunk i fun c => { c with ref_count := c.ref_count - 1 }
        current_chunks := Function.update d.current_chunks i none } := by
      unfold Downloader.erase
      rw [hcd]
    simp only [Fin.eta, he, cell_resetChunk, cell_modifyChunk]
    by_cases hj : j.val = i.val
    · obtain rfl := Fin.ext hj
      simp only [if_true, Function.update_self, hcd, Option.isSome_some, Option.isSome_none]
      rw [if_neg (by simpa using hn.2)]
      rfl
    · have hne : j ≠ i := fun h => hj (congrArg Fin.val h)
      simp only [if_neg hj, Function.update_of_ne hne]

/-- Excluding leaves the selector. Source: `Downloader::onExcluded`. Kind: L -/
@[simp] theorem selector_onExcluded (env : Env) (first last : ℕ) (d : Downloader L) :
    (d.onExcluded env first last).selector = d.selector := by
  refine forRange_frame Downloader.selector (fun i _ _ d => ?_) d
  unfold Downloader.excludeDownload Downloader.erase
  split_ifs <;> first | rfl | (dsimp only; split <;> rfl)

/-- Downloads of the range are dropped. Source: `Downloader::onExcluded`. Kind: L -/
theorem obs_onExcluded (env : Env) (first last : ℕ) (d : Downloader L) (j : Fin L.numChunks) :
    ((d.onExcluded env first last).cman.cell j,
        ((d.onExcluded env first last).current_chunks j).isSome) =
      if first ≤ j.val ∧ j.val ≤ last then
        dropDownload (d.cman.cell j, (d.current_chunks j).isSome)
      else (d.cman.cell j, (d.current_chunks j).isSome) := by
  unfold Downloader.onExcluded
  rw [obs_forRange (fun (d : Downloader L) j => (d.cman.cell j, (d.current_chunks j).isSome))
    Fin.val (fun _ => dropDownload) (obs_excludeDownload env)]
  have hrange : (first ≤ j.val ∧ j.val < last + 1) ↔ first ≤ j.val ∧ j.val ≤ last := by omega
  exact if_congr hrange rfl rfl

/-- What the loops over a border chunk's files find out does not depend on file `k`'s own entry.
Kind: D -/
structure SameBorders (s t : ChunkManager L) (k : ℕ) : Prop where
  keepsFirst : t.keepsFirst k = s.keepsFirst k
  keepsLast : t.keepsLast k = s.keepsLast k
  othersFetch : ∀ i, t.othersFetch k i = s.othersFetch k i

/-- When deselecting file `k` loses nothing about chunk `i`: it has no data if it is excluded without
being reset, and it is listed if it is a kept border that is to do again. Kind: D -/
def SparedByDeselect (d : Downloader L) (k : ℕ) (i : Fin L.numChunks) : Prop :=
  d.current_chunks i = none →
    (d.cman.leavesBehind k i → (d.cman.chunks i).status = .notDownloaded) ∧
    (keepsBorder d.cman k i → d.cman.othersFetch k i = true → d.cman.bitset.get i = false →
      i.val ∈ d.selector)

/-- A chunk that the deselection excludes: its download, if any, ends.
Source: `ChunkManager::exclude`, `Downloader::onExcluded`. Kind: L -/
theorem turns_dropped {v' : View} {k : ℕ} {i : Fin L.numChunks} (hc : ¬ Layout.crowded L k)
    (hrange : L.first k ≤ i.val ∧ i.val ≤ L.last k) (hnk : ¬ keepsBorder d.cman k i) {b : Bool}
    (hobs : (v'.cell, b) = dropDownload
      ((if Layout.resets L k i then (d.cman.cell i).reset else d.cman.cell i).exclude,
        (d.current_chunks i).isSome))
    (hdown' : v'.downloading ↔ b = true) :
    View.Turns (d.view i) v' (SparedByDeselect d k i) := by
  by_cases hd : (d.current_chunks i).isSome = true
  · have hdrop : ∀ c : Cell, dropDownload (c.exclude, true) = (Cell.reset { c.exclude with
        chunk := { c.exclude.chunk with ref_count := c.exclude.chunk.ref_count - 1 } }, false) :=
      fun c => if_neg (by simp [Cell.exclude])
    rw [hd, hdrop] at hobs
    obtain ⟨h1, rfl⟩ := Prod.mk.inj hobs
    have hnd : ¬ v'.downloading := by
      rw [hdown']
      exact Bool.false_ne_true
    refine (View.turns_gone ?_ ?_ ?_ ?_ hnd).congr (iff_of_true trivial fun h => ?_)
    · rw [h1]
      rfl
    · rw [h1]
      rfl
    · rw [h1]
      rfl
    · rw [h1]
      rfl
    · simp [h] at hd
  · have hdrop : ∀ c : Cell, dropDownload (c.exclude, false) = (c.exclude, false) :=
      fun c => if_pos (Or.inl rfl)
    rw [Bool.eq_false_iff.mpr hd, hdrop] at hobs
    obtain ⟨h1, rfl⟩ := Prod.mk.inj hobs
    have hnd : ¬ v'.downloading := by
      rw [hdown']
      exact Bool.false_ne_true
    have hn : d.current_chunks i = none := by simpa using hd
    by_cases hr : Layout.resets L k i
    · rw [if_pos hr] at h1
      refine (View.turns_gone ?_ ?_ ?_ ?_ hnd).congr (iff_of_true trivial fun _ =>
        ⟨fun h => absurd hr h.2.2.2.1, fun h => absurd h hnk⟩)
      all_goals
        rw [h1]
        rfl
    · rw [if_neg hr] at h1
      refine (View.turns_exclude h1 hnd).congr ⟨fun hs _ => ⟨fun _ => hs, fun h => absurd h hnk⟩,
        fun h => (h hn).1 ⟨hc, hrange.1, hrange.2, hr, fun h' => hnk (Or.inl h'),
          fun h' => hnk (Or.inr h')⟩⟩

/-- A border that the deselection keeps gets the priority of the other files.
Source: `ChunkManager::downloadPriorityChanged`. Kind: L -/
theorem turns_border {t : ChunkManager L} {v' : View} {k : ℕ} {i : Fin L.numChunks} {p : Priority}
    (hb : keepsBorder d.cman k i) (hp : t.IsBorderPriority k i p)
    (hothers : t.othersFetch k i = d.cman.othersFetch k i)
    (hcell : v'.cell = (d.cman.cell i).prioritise p)
    (hdown' : v'.downloading ↔ (d.current_chunks i).isSome = true)
    (hlisted : v'.listed ↔ i.val ∈ d.selector) :
    View.Turns (d.view i) v' (SparedByDeselect d k i) := by
  have hleaves : ¬ d.cman.leavesBehind k i := fun h => hb.elim h.2.2.2.2.1 h.2.2.2.2.2
  have hnone : ¬ (d.view i).downloading ↔ d.current_chunks i = none := by
    simp [view, Option.isSome_iff_ne_none]
  have hturn : View.Turns (d.view i) v' (¬ (d.view i).downloading →
      (decide (p ≠ .onlySeed)) = true → (d.view i).cell.owned = false → v'.listed) := by
    refine View.turns_wanted hp.ne_excluded ?_ ?_ (fun _ => ?_) hdown'
    · rw [hcell]
      rfl
    · rw [hcell]
      rfl
    · rw [hcell]
      show (if p = .onlySeed ∨ p = .excluded then false else !(d.cman.cell i).owned) = _
      have := hp.ne_excluded
      by_cases ho : p = .onlySeed <;> simp [ho, this, view]
  refine hturn.congr ?_
  rw [hnone, decide_eq_true_eq, hp.ne_onlySeed_iff, hothers, hlisted]
  exact imp_congr_right fun _ => ⟨fun h => ⟨fun h' => absurd h' hleaves, fun _ => h⟩,
    fun h => h.2 hb⟩

/-- **Deselecting a file, chunk by chunk.**. Source: `torrent/downloader.cpp`,
`torrent/chunkselector.cpp`. Kind: P -/
theorem turns_deselect {t : ChunkManager L} (env : Env) {k : ℕ} (hk : k < L.files.length)
    (hcell : ∀ i, t.cell i = d.cman.cell i) (hborders : SameBorders d.cman t k)
    (hc : ¬ Layout.crowded L k) {d' : Downloader L}
    (hman : ∀ i, d'.cman.cell i = (t.deselectFile env k).cell i)
    (hcur : d'.current_chunks = d.current_chunks) (hsel : d'.selector = d.selector)
    (i : Fin L.numChunks) :
    View.Turns (d.view i)
      ((d'.onExcluded env (t.firstExcluded k) (t.lastExcluded k)).view i)
      (SparedByDeselect d k i) := by
  have hle := L.first_le_last hk
  obtain ⟨pf, pl, hpf, hpl, hdes⟩ := t.cell_deselectFile k env hle hc
  have hkeeps : ∀ i, keepsBorder t k i ↔ keepsBorder d.cman k i := by
    intro i
    unfold keepsBorder
    rw [hborders.keepsFirst, hborders.keepsLast]
  have hobs := obs_onExcluded env (t.firstExcluded k) (t.lastExcluded k) d' i
  rw [hman i, hcur] at hobs
  have hci := hdes i
  rw [hcell i] at hci
  have hlisted : ((d'.onExcluded env (t.firstExcluded k) (t.lastExcluded k)).view i).listed ↔
      i.val ∈ d.selector := by
    rw [← hsel]
    show i.val ∈ (d'.onExcluded env _ _).selector ↔ _
    rw [selector_onExcluded]
  by_cases hin : t.firstExcluded k ≤ i.val ∧ i.val ≤ t.lastExcluded k
  · obtain ⟨hrange, hnk⟩ := (excluded_iff t hle i).mp hin
    rw [if_neg fun h' => hnk (Or.inl h'), if_neg fun h' => hnk (Or.inr h'), if_pos hrange] at hci
    rw [if_pos hin, hci] at hobs
    exact turns_dropped hc hrange (fun h => hnk ((hkeeps i).mpr h)) hobs Iff.rfl
  rw [if_neg hin] at hobs
  obtain ⟨h1, h2⟩ := Prod.mk.inj hobs
  rw [hci] at h1
  have hdown' : ((d'.onExcluded env (t.firstExcluded k) (t.lastExcluded k)).view i).downloading ↔
      (d.current_chunks i).isSome = true := by
    rw [← h2]
    rfl
  by_cases hb : keepsBorder t k i
  · rw [if_neg (not_resets_of_keepsBorder t hk hb)] at h1
    have hothers := hborders.othersFetch i
    by_cases hf : i.val = L.first k ∧ t.keepsFirst k = true
    · rw [if_pos hf] at h1
      exact turns_border ((hkeeps i).mp hb) (hf.1 ▸ hpf) hothers h1 hdown' hlisted
    · have hl := hb.resolve_left hf
      rw [if_neg hf, if_pos hl] at h1
      exact turns_border ((hkeeps i).mp hb) (hl.1 ▸ hpl) hothers h1 hdown' hlisted
  · -- what lies outside the file is left alone
    have hout : ¬ (L.first k ≤ i.val ∧ i.val ≤ L.last k) :=
      fun h' => hin ((excluded_iff t hle i).mpr ⟨h', hb⟩)
    have hr : ¬ Layout.resets L k i := fun h' => hout (resets_in_range hle h')
    rw [if_neg fun h' => hb (Or.inl h'), if_neg fun h' => hb (Or.inr h'), if_neg hout, if_neg hr]
      at h1
    have hsame : View.Turns (d.view i)
        ((d'.onExcluded env (t.firstExcluded k) (t.lastExcluded k)).view i) True := by
      refine View.turns_alike ?_ hdown' fun _ => hlisted.mpr
      show Alike _ ((d'.onExcluded env (t.firstExcluded k) (t.lastExcluded k)).cman.cell i)
      rw [h1]
      exact ⟨rfl, rfl, rfl, rfl, rfl⟩
    exact hsame.congr (iff_of_true trivial fun _ => ⟨fun h => absurd ⟨h.2.1, h.2.2.1⟩ hout,
      fun h => absurd ((hkeeps i).mpr h) hb⟩)

/-! ### Selecting a file -/

/-- What the selector's list gains. Source: `ChunkSelector::reincluded`. Kind: L -/
theorem mem_reincluded (cman : ChunkManager L) (first last : ℕ) (chunks : List ℕ) :
    (∀ j ∈ chunks, j ∈ ChunkSelector.reincluded cman first last chunks) ∧
    (∀ i : Fin L.numChunks, first ≤ i.val → i.val ≤ last → last < L.numChunks →
      (cman.chunks i).status ≠ .onDisk →
      i.val ∈ ChunkSelector.reincluded cman first last chunks) ∧
    ∀ j ∈ ChunkSelector.reincluded cman first last chunks,
      j ∈ chunks ∨ first ≤ j ∧ j ≤ last := by
  obtain ⟨f, hf⟩ : ∃ f : ℕ → List ℕ → List ℕ, f = fun i chunks =>
    if i ∉ chunks ∧ (cman.getChunk i).any fun c => c.status ≠ .onDisk then chunks ++ [i]
    else chunks := ⟨_, rfl⟩
  have hkeep : ∀ i chunks, ∀ j ∈ chunks, j ∈ f i chunks := by
    intro i chunks j hj
    rw [hf]
    dsimp only
    split_ifs
    · exact List.mem_append_left _ hj
    · exact hj
  have hdef : ChunkSelector.reincluded cman first last chunks =
      if first ≥ L.numChunks ∨ last ≥ L.numChunks then chunks
      else forRange first (last + 1) f chunks := by rw [hf]; rfl
  rw [hdef]
  refine ⟨?_, ?_, ?_⟩
  · intro j hj
    split_ifs
    · exact hj
    · exact forRange_inv (P := fun l => j ∈ l) (fun i _ _ l => hkeep i l j) hj
  · intro i h1 h2 h3 hs
    rw [if_neg (by omega)]
    -- the loop meets chunk `i` once, and never drops what it has
    have hmem : ∀ l : List ℕ, (i.val ∈ f i l) := by
      intro l
      rw [hf]
      dsimp only
      rw [getChunk_val]
      split_ifs with h
      · simp
      · simpa [hs] using h
    exact forRange_reach (P := fun l => i.val ∈ l) hmem (fun a l => hkeep a l i.val) h1 (by omega) _
  · intro j hj
    split_ifs at hj
    · exact Or.inl hj
    refine forRange_inv (P := fun l => j ∈ l → j ∈ chunks ∨ first ≤ j ∧ j ≤ last)
      (fun a h1 h2 l ih hm => ?_) Or.inl hj
    rw [hf] at hm
    dsimp only at hm
    split_ifs at hm
    · rcases List.mem_append.mp hm with h | h
      · exact ih h
      · rw [List.mem_singleton] at h
        exact Or.inr (by omega)
    · exact ih hm

/-- A chunk in the range of a file is no chunk beyond the last only if the file is not empty, or
ends there. Source: `torrent/downloader.cpp`, `torrent/chunkselector.cpp`. Kind: L -/
theorem last_lt_numChunks {k : ℕ} (hk : k < L.files.length) {i : ℕ} (hi : i < L.numChunks)
    (h : L.first k ≤ i) : L.last k < L.numChunks := by
  rw [L.last_eq hk]
  rw [L.first_eq hk] at h
  have hend := L.offset_add_size_le hk
  split_ifs with hs
  · exact L.div_lt_numChunks (by omega)
  · exact lt_of_le_of_lt h hi

/-- When selecting file `k` loses nothing about chunk `i`: it is listed if it lies outside the file, gets
the preview priority all the same, and is not owned. Kind: D -/
def SparedBySelect (d : Downloader L) (k : ℕ) (i : Fin L.numChunks) : Prop :=
  d.current_chunks i = none → Layout.previews L k i → ¬ between (L.first k) (L.last k) i →
    d.cman.bitset.get i = false → i.val ∈ d.selector

/-- **Selecting a file, chunk by chunk.**. Source: `ChunkSelector::select`. Kind: P -/
theorem turns_select {t : ChunkManager L} (env : Env) {k : ℕ} (hk : k < L.files.length)
    (hcell : ∀ i, t.cell i = d.cman.cell i) {d' : Downloader L}
    (hman : ∀ i, d'.cman.cell i = (t.selectFile env k).cell i)
    (hcur : d'.current_chunks = d.current_chunks) (hsel : d'.selector = d.selector)
    (i : Fin L.numChunks) :
    View.Turns (d.view i) ((d'.onIncluded (L.first k) (L.last k)).view i)
      (SparedBySelect d k i) := by
  have hle := L.first_le_last hk
  have hbetween : between (L.first k) (L.last k) i ↔ L.first k ≤ i.val ∧ i.val ≤ L.last k := by
    unfold between
    rw [min_eq_left hle, max_eq_right hle]
  obtain ⟨hkeep, hnew, honly⟩ :=
    mem_reincluded d'.cman (L.first k) (L.last k) d'.selector
  have hnone : ¬ (d.view i).downloading ↔ d.current_chunks i = none := by
    simp [view, Option.isSome_iff_ne_none]
  have hci := hman i
  rw [cell_selectFile, hcell i] at hci
  obtain ⟨v', hv'⟩ : ∃ v', v' = (d'.onIncluded (L.first k) (L.last k)).view i := ⟨_, rfl⟩
  have hlisted : v'.listed ↔
      i.val ∈ ChunkSelector.reincluded d'.cman (L.first k) (L.last k) d'.selector := by
    rw [hv']
    rfl
  have hdown : v'.downloading ↔ (d.view i).downloading := by
    rw [hv']
    show (d'.current_chunks i).isSome = true ↔ _
    rw [hcur]
    rfl
  have hcell' : v'.cell = d'.cman.cell i := by rw [hv']; rfl
  rw [← hcell'] at hci
  rw [← hv']
  by_cases hb : between (L.first k) (L.last k) i
  · -- the file's own chunks come back, and those without data are listed
    obtain ⟨p, hp, h1⟩ : ∃ p : Priority, p ≠ .excluded ∧
        v'.cell.chunk = { d.cman.chunks i with priority := p } ∧
        v'.cell.owned = d.cman.bitset.get i ∧
        ((d.cman.bitset.get i = true → d.cman.todo.get i = false) →
          v'.cell.todo = !d.cman.bitset.get i) := by
      rw [if_pos hb] at hci
      by_cases hp : Layout.previews L k i
      · rw [if_pos hp] at hci
        exact ⟨.preview, by decide, by rw [hci]; rfl, by rw [hci]; rfl, fun _ => by rw [hci]; rfl⟩
      · rw [if_neg hp] at hci
        refine ⟨.normal, by decide, by rw [hci]; rfl, by rw [hci]; rfl, fun h => ?_⟩
        rw [hci]
        show (!d.cman.bitset.get i || d.cman.todo.get i) = _
        cases ho : d.cman.bitset.get i
        · rfl
        · simp [h ho]
    obtain ⟨h1, h2, h3⟩ := h1
    have hturn : View.Turns (d.view i) v' (¬ (d.view i).downloading → true = true →
        (d.view i).cell.owned = false → v'.listed) :=
      View.turns_wanted hp h1 h2 (fun h => by rw [h3 h]; rfl) hdown
    have hspared : SparedBySelect d k i := fun _ _ h => absurd hb h
    intro hkept
    refine ⟨(hturn hkept).1, fun hf => ((hturn hkept).2 hf).trans (iff_of_true ?_ hspared)⟩
    intro hn _ ho
    obtain ⟨h4, h5⟩ := hbetween.mp hb
    refine hlisted.mpr (hnew i h4 h5 (last_lt_numChunks hk i.2 h4) ?_)
    have hstatus : (d'.cman.chunks i).status = (d.cman.chunks i).status := by
      have h6 : (d'.cman.chunks i) = { d.cman.chunks i with priority := p } := by
        rw [← h1, hcell']
        rfl
      rw [h6]
    rw [hstatus]
    intro hon
    have hm : (d.cman.chunks i).status ≠ .notDownloaded ↔ d.cman.bitset.get i = true := (hf hn).1
    exact absurd ((hm.mp (by rw [hon]; decide)).symm.trans ho) (by decide)
  · have hlisted' : v'.listed ↔ i.val ∈ d.selector := by
      rw [hlisted, hsel]
      rw [hsel] at hkeep honly
      exact ⟨fun h => (honly i h).resolve_right fun h' => hb (hbetween.mpr h'), hkeep i⟩
    rw [if_neg hb] at hci
    by_cases hp : Layout.previews L k i
    · rw [if_pos hp] at hci
      have hturn : View.Turns (d.view i) v' (¬ (d.view i).downloading → true = true →
          (d.view i).cell.owned = false → v'.listed) := by
        refine View.turns_wanted (p := .preview) (by decide) ?_ ?_ (fun _ => ?_) hdown
        all_goals
          rw [hci]
          rfl
      refine hturn.congr ?_
      rw [hnone, hlisted']
      exact imp_congr_right fun _ => ⟨fun h _ _ => h rfl, fun h _ => h hp hb⟩
    · rw [if_neg hp] at hci
      have hsame : View.Turns (d.view i) v' True := by
        refine View.turns_alike ?_ hdown fun _ => hlisted'.mpr
        rw [hci]
        exact ⟨rfl, rfl, rfl, rfl, rfl⟩
      exact hsame.congr (iff_of_true trivial fun _ h => absurd h hp)

/-! ### The user's choice -/

/-- A file's own entry has no say in what its borders are. Source: `torrent/downloader.cpp`,
`torrent/chunkselector.cpp`. Kind: L -/
theorem borders_of_choose (s : ChunkManager L) (k : ℕ) (f : FileSelection) :
    SameBorders s { s with files := Function.update s.files k f } k := by
  obtain ⟨t, ht⟩ : ∃ t : ChunkManager L, t = { s with files := Function.update s.files k f } :=
    ⟨_, rfl⟩
  rw [← ht]
  have hfiles : ∀ j, j ≠ k → t.files j = s.files j := fun j hj => by
    rw [ht]
    exact Function.update_of_ne hj _ _
  have h : ∀ i, t.othersWant k i = s.othersWant k i := by
    intro i
    unfold othersWant
    congr 1
    funext j
    by_cases hj : j = k
    · simp [hj]
    · rw [hfiles j hj]
  have h' : ∀ i, t.othersFetch k i = s.othersFetch k i := by
    intro i
    unfold othersFetch
    congr 1
    funext j
    by_cases hj : j = k
    · simp [hj]
    · rw [hfiles j hj]
  have h1 : t.keepsFirst k = s.keepsFirst k := by
    unfold keepsFirst
    rw [h]
  refine ⟨h1, ?_, h'⟩
  unfold keepsLast firstExcluded
  rw [h1, h]

/-- The chunk manager whose signals have been passed on. Kind: D -/
def quiet (s : ChunkManager L) : ChunkManager L := { s with signals := [] }

/-- Deselecting file `k` reaches the slot that takes chunks out. Kind: D -/
def TakesOut (d : Downloader L) (k : ℕ) (dnd : Bool) : Prop :=
  dnd = true ∧ (d.cman.files k).priority ≠ .excluded ∧
    (d.cman.files k).m_emitDlStatusChanged = true ∧ ¬ Layout.crowded L k

/-- Selecting file `k` reaches the slot that brings chunks back. Kind: D -/
def TakesBack (d : Downloader L) (k : ℕ) (dnd : Bool) : Prop :=
  dnd = false ∧ (d.cman.files k).priority = .excluded ∧
    (d.cman.files k).m_emitDlStatusChanged = true

/-- **One change of the choice of a file, and the slots it reaches**: none, or that of a file that
is deselected, or that of one that is selected; `t` is the chunk manager with the choice.
Source: `torrent/torrentfile.cpp`. Kind: L -/
theorem call_changeSelection (d : Downloader L) (env : Env) (k : Fin L.files.length) (p : Priority)
    (hp : p ≠ .excluded → (d.cman.files k).priority = .excluded) :
    ∃ t : ChunkManager L, (∀ i, t.cell i = d.cman.cell i) ∧
      SameBorders d.cman t k ∧
      (((d.cman.files k).m_emitDlStatusChanged = true → p = .excluded ∧ Layout.crowded L k) ∧
          d.call env (ChunkManager.changeSelection env k p) = { d with cman := quiet t } ∨
        ((d.cman.files k).m_emitDlStatusChanged = true ∧ p = .excluded ∧ ¬ Layout.crowded L k) ∧
          d.call env (ChunkManager.changeSelection env k p) =
            onExcluded env (t.firstExcluded k) (t.lastExcluded k)
              { d with cman := quiet (t.deselectFile env k) } ∨
        ((d.cman.files k).m_emitDlStatusChanged = true ∧ p ≠ .excluded) ∧
          d.call env (ChunkManager.changeSelection env k p) =
            onIncluded (L.first k) (L.last k) { d with cman := quiet (t.selectFile env k) }) := by
  obtain ⟨old, hold⟩ : ∃ old, old = if (d.cman.files k).m_emitDlStatusChanged
    then (d.cman.files k).priority else (d.cman.files k).old_priority := ⟨_, rfl⟩
  obtain ⟨f, hf⟩ : ∃ f : FileSelection, f = { d.cman.files k with
    old_priority := old
    priority := p } := ⟨_, rfl⟩
  obtain ⟨t, ht⟩ : ∃ t : ChunkManager L, t = { quiet d.cman with
    files := Function.update d.cman.files k f } := ⟨_, rfl⟩
  have hchange : ChunkManager.changeSelection env k p (quiet d.cman) =
      if (d.cman.files k).m_emitDlStatusChanged then t.downloadPriorityChanged env k p old
      else t := by
    rw [ht, hf, hold]
    rfl
  have hcell : ∀ i, t.cell i = d.cman.cell i := fun i => by rw [ht]; rfl
  have hborders : SameBorders d.cman t k := by
    obtain ⟨h1, h2, h3⟩ := borders_of_choose d.cman k f
    rw [ht]
    exact ⟨h1, h2, h3⟩
  have hsig : t.signals = [] := by rw [ht]; rfl
  have hle := L.first_le_last k.2
  have hcall : d.call env (ChunkManager.changeSelection env k p) =
      (ChunkManager.changeSelection env k p (quiet d.cman)).signals.foldl (receive env)
        { d with cman := quiet (ChunkManager.changeSelection env k p (quiet d.cman)) } := rfl
  rw [hcall, hchange]
  by_cases hm : (d.cman.files k).m_emitDlStatusChanged = true
  swap
  · rw [if_neg hm, hsig]
    exact ⟨t, hcell, hborders, Or.inl ⟨fun h => absurd h hm, rfl⟩⟩
  rw [if_pos hm] at hold ⊢
  by_cases hx : p = .excluded
  · rw [hx, downloadPriorityChanged_excluded]
    by_cases hc : Layout.crowded L k
    · have hfiles := ChunkManager.borders_congr k (files_alertCache t env k)
      have hfetch : ∀ i, (t.alertCache env k).othersFetch k i = t.othersFetch k i := fun i => by
        unfold othersFetch
        rw [files_alertCache]
      refine ⟨t.alertCache env k, fun i => (cell_alertCache t i env k).trans (hcell i),
        ⟨hfiles.1.trans hborders.keepsFirst, hfiles.2.2.1.trans hborders.keepsLast,
          fun i => (hfetch i).trans (hborders.othersFetch i)⟩,
        Or.inl ⟨fun _ => ⟨rfl, hc⟩, ?_⟩⟩
      show (t.deselectFile env k).signals.foldl (receive env)
        { d with cman := quiet (t.deselectFile env k) } = _
      rw [t.deselectFile_of_crowded k env hc, signals_alertCache, hsig]
      rfl
    · refine ⟨t, hcell, hborders, Or.inr (Or.inl ⟨⟨hm, rfl, hc⟩, ?_⟩)⟩
      show (t.deselectFile env k).signals.foldl (receive env)
        { d with cman := quiet (t.deselectFile env k) } = _
      rw [t.signals_deselectFile k env hle hc, hsig]
      rfl
  · refine ⟨t, hcell, hborders, Or.inr (Or.inr ⟨⟨hm, hx⟩, ?_⟩)⟩
    rw [hold, hp hx, t.downloadPriorityChanged_included env k hx]
    show (t.selectFile env k).signals.foldl (receive env)
      { d with cman := quiet (t.selectFile env k) } = _
    rw [t.signals_selectFile env hle, hsig]
    rfl

/-- **What becomes of a choice**: nothing but the choice, or chunks are taken out, or chunks come
back. Source: `TorrentFile::setDoNotDownload`. Kind: L -/
theorem call_setDoNotDownload (d : Downloader L) (env : Env) (k : Fin L.files.length) (dnd : Bool) :
    ∃ t : ChunkManager L, (∀ i, t.cell i = d.cman.cell i) ∧
      SameBorders d.cman t k ∧
      ((¬ TakesOut d k dnd ∧ ¬ TakesBack d k dnd) ∧
          d.call env (ChunkManager.setDoNotDownload env k dnd) = { d with cman := quiet t } ∨
        TakesOut d k dnd ∧ d.call env (ChunkManager.setDoNotDownload env k dnd) =
          onExcluded env (t.firstExcluded k) (t.lastExcluded k)
            { d with cman := quiet (t.deselectFile env k) } ∨
        TakesBack d k dnd ∧
          d.call env (ChunkManager.setDoNotDownload env k dnd) =
            onIncluded (L.first k) (L.last k) { d with cman := quiet (t.selectFile env k) }) := by
  -- at most one of the two assignments of the source happens
  obtain ⟨f, hf⟩ : ∃ f : ChunkManager L → ChunkManager L,
    f = ChunkManager.setDoNotDownload env k dnd := ⟨_, rfl⟩
  have hstep : f (quiet d.cman) =
      if dnd = true then
        if (d.cman.files k).priority ≠ .excluded then
          ChunkManager.changeSelection env k .excluded (quiet d.cman)
        else quiet d.cman
      else if (d.cman.files k).priority = .excluded then
        ChunkManager.changeSelection env k .normal (quiet d.cman)
      else quiet d.cman := by
    rw [hf]
    unfold ChunkManager.setDoNotDownload
    cases dnd <;> simp [quiet]
  have hcong : ∀ g : ChunkManager L → ChunkManager L, f (quiet d.cman) = g (quiet d.cman) →
      d.call env f = d.call env g := by
    intro g hg
    show List.foldl _ _ _ = List.foldl _ _ _
    rw [show f { d.cman with signals := [] } = g { d.cman with signals := [] } from hg]
  have hnone : d.call env (fun s => s) = { d with cman := quiet (quiet d.cman) } := rfl
  rw [← hf]
  by_cases hdnd : dnd = true
  · rw [if_pos hdnd] at hstep
    by_cases hx : (d.cman.files k).priority ≠ .excluded
    · rw [if_pos hx] at hstep
      obtain ⟨t, hcell, hborders, h⟩ :=
        call_changeSelection d env k .excluded fun h => absurd rfl h
      rw [hcong _ hstep]
      refine ⟨t, hcell, hborders, ?_⟩
      rcases h with ⟨hno, h⟩ | ⟨⟨hm, -, hc⟩, h⟩ | ⟨⟨-, h⟩, -⟩
      · exact Or.inl ⟨⟨fun ht => ht.2.2.2 (hno ht.2.2.1).2, fun ht => hx ht.2.1⟩, h⟩
      · exact Or.inr (Or.inl ⟨⟨hdnd, hx, hm, hc⟩, h⟩)
      · exact absurd rfl h
    · rw [if_neg hx] at hstep
      rw [hcong (fun s => s) hstep]
      exact ⟨quiet d.cman, fun _ => rfl, ⟨rfl, rfl, fun _ => rfl⟩, Or.inl
        ⟨⟨fun ht => hx ht.2.1, fun ht => absurd (hdnd.symm.trans ht.1) (by decide)⟩, hnone⟩⟩
  · rw [if_neg hdnd] at hstep
    by_cases hx : (d.cman.files k).priority = .excluded
    · rw [if_pos hx] at hstep
      obtain ⟨t, hcell, hborders, h⟩ := call_changeSelection d env k .normal fun _ => hx
      rw [hcong _ hstep]
      refine ⟨t, hcell, hborders, ?_⟩
      rcases h with ⟨hno, h⟩ | ⟨⟨-, h, -⟩, -⟩ | ⟨⟨hm, -⟩, h⟩
      · exact Or.inl ⟨⟨fun ht => hdnd ht.1, fun ht => absurd (hno ht.2.2).1 (by decide)⟩, h⟩
      · cases h
      · exact Or.inr (Or.inr ⟨⟨by simpa using hdnd, hx, hm⟩, h⟩)
    · rw [if_neg hx] at hstep
      rw [hcong (fun s => s) hstep]
      exact ⟨quiet d.cman, fun _ => rfl, ⟨rfl, rfl, fun _ => rfl⟩, Or.inl
        ⟨⟨fun ht => hdnd ht.1, fun ht => hx ht.2.1⟩, hnone⟩⟩

/-- **A choice, chunk by chunk.**. Source: `TorrentFile::setDoNotDownload`. Kind: P -/
theorem turns_setDoNotDownload (env : Env) (k : Fin L.files.length) (dnd : Bool)
    (i : Fin L.numChunks) :
    View.Turns (d.view i) ((d.call env (ChunkManager.setDoNotDownload env k dnd)).view i)
      ((TakesOut d k dnd → SparedByDeselect d k i) ∧ (TakesBack d k dnd → SparedBySelect d k i)) := by
  obtain ⟨t, hcell, hborders, hcase⟩ := call_setDoNotDownload d env k dnd
  rcases hcase with ⟨⟨hout, hback⟩, heq⟩ | ⟨hout, heq⟩ | ⟨hback, heq⟩
  · rw [heq]
    have hc : ({ d with cman := quiet t } : Downloader L).cman.cell i = d.cman.cell i := hcell i
    have hsame : View.Turns (d.view i) (view { d with cman := quiet t } i) True := by
      refine View.turns_alike ?_ Iff.rfl fun _ h => h
      show Alike (d.cman.cell i) _
      rw [← hc]
      exact ⟨rfl, rfl, rfl, rfl, rfl⟩
    exact hsame.congr (iff_of_true trivial ⟨fun h => absurd h hout, fun h => absurd h hback⟩)
  · rw [heq]
    have hback : ¬ TakesBack d k dnd := fun h => hout.2.1 h.2.1
    obtain ⟨d', hd'⟩ : ∃ d' : Downloader L, d' = { d with cman := quiet (t.deselectFile env k) } :=
      ⟨_, rfl⟩
    have hturn := turns_deselect (d := d) env k.2 hcell hborders hout.2.2.2
      (fun i => show d'.cman.cell i = _ by rw [hd']; rfl) (by rw [hd']) (by rw [hd']) i
    rw [hd'] at hturn
    exact hturn.congr ⟨fun h => ⟨fun _ => h, fun h' => absurd h' hback⟩, fun h => h.1 hout⟩
  · rw [heq]
    have hout : ¬ TakesOut d k dnd := fun h => h.2.1 hback.2.1
    obtain ⟨d', hd'⟩ : ∃ d' : Downloader L, d' = { d with cman := quiet (t.selectFile env k) } :=
      ⟨_, rfl⟩
    have hturn := turns_select (d := d) env k.2 hcell
      (fun i => show d'.cman.cell i = _ by rw [hd']; rfl) (by rw [hd']) (by rw [hd']) i
    rw [hd'] at hturn
    exact hturn.congr ⟨fun h => ⟨fun h' => absurd h' hout, fun _ => h⟩, fun h => h.2 hback⟩

/-! ### A peer asks for a chunk -/

/-- Chunk `i` is loaded from disk, checked, and its data is wrong. Source: `ChunkManager::grabChunk`.
Kind: D -/
structure FindsCorrupt (s : ChunkManager L) (os : Os) (max_chunk_size_for_data_check : ℕ)
    (i : Fin L.numChunks) : Prop where
  status : (s.chunks i).status = .onDisk
  wanted : (s.chunks i).isExcluded = false
  loads : (s.cache.load L.torrent os (s.chunks i)).2.2 = true
  memory : (s.cache.load L.torrent os (s.chunks i)).1.data.isNull = false
  size : max_chunk_size_for_data_check = 0 ∨ L.piece_length ≤ max_chunk_size_for_data_check
  due : ¬ (s.recheck_counter < 5 ∧ s.corrupted_count = 0)
  wrong : (s.cache.load L.torrent os (s.chunks i)).1.checkHash L.torrent
    (s.cache.load L.torrent os (s.chunks i)).2.1 L.hash_pieces[i] = false

/-- A chunk that is found corrupted is reset, and the index file is written if it opens.
Source: `ChunkManager::grabChunk`. Kind: L -/
theorem reset_saveIndexFile (s : ChunkManager L) (os : Os) (i : Fin L.numChunks) :
    ((s.resetChunk os i).saveIndexFile os).1.signals = s.signals ∧
      ((s.resetChunk os i).saveIndexFile os).2 = os.index_opens ∧
      ∀ j, ((s.resetChunk os i).saveIndexFile os).1.cell j =
        if j = i then (s.cell j).reset else s.cell j := by
  refine ⟨?_, ?_, fun j => ?_⟩
  · unfold saveIndexFile
    split_ifs
    · exact (signals_savePriorityInfo _).trans (signals_resetChunk s os i)
    · exact signals_resetChunk s os i
  · unfold saveIndexFile
    cases os.index_opens <;> rfl
  · rw [cell_saveIndexFile, cell_resetChunk]
    exact if_congr Fin.ext_iff.symm rfl rfl

/-- **What asking for chunk `i` does**: if its data is found to be wrong it is reset, and announced
when the index file can be written; otherwise it is loaded at most.
Source: `ChunkManager::grabChunk`. Kind: L -/
theorem grabChunk_cases (s : ChunkManager L) (os : Os) (size now : ℕ) (i : Fin L.numChunks) :
    (FindsCorrupt s os size i ∧
      (s.grabChunk os size now i).1.signals =
        s.signals ++ (if os.index_opens then [.corrupted i] else []) ∧
      ∀ j, (s.grabChunk os size now i).1.cell j =
        if j = i then ((s.cell j).load L.torrent os s.cache).reset else s.cell j) ∨
    (¬ FindsCorrupt s os size i ∧ (s.grabChunk os size now i).1.signals = s.signals ∧
      ∀ j, (s.grabChunk os size now i).1.cell j = s.cell j ∨
        (j = i ∧ (s.chunks i).status = .onDisk ∧
          (s.grabChunk os size now i).1.cell j = (s.cell j).load L.torrent os s.cache)) := by
  obtain ⟨s1, h1⟩ : ∃ t, t = { s with
    chunks := Function.update s.chunks i (s.cache.load L.torrent os (s.chunks i)).1
    cache := (s.cache.load L.torrent os (s.chunks i)).2.1 } := ⟨_, rfl⟩
  have hload : ∀ j, s1.cell j =
      if j = i then (s.cell j).load L.torrent os s.cache else s.cell j := by
    intro j
    rw [h1, cell_updateChunk]
    by_cases hj : j = i
    · subst hj
      rw [if_pos rfl, if_pos rfl]
      rfl
    · rw [if_neg hj, if_neg hj]
  have hsignals : s1.signals = s.signals := by rw [h1]
  have hkeep : ∀ t : ChunkManager L, (∀ j, t.cell j = s1.cell j) → (s.chunks i).status = .onDisk →
      ∀ j, t.cell j = s.cell j ∨ (j = i ∧ (s.chunks i).status = .onDisk ∧
        t.cell j = (s.cell j).load L.torrent os s.cache) := by
    intro t ht hd j
    rw [ht j, hload j]
    by_cases hj : j = i
    · exact Or.inr ⟨hj, hd, if_pos hj⟩
    · exact Or.inl (if_neg hj)
  have hreset : ∀ t : ChunkManager L, (∀ j, t.cell j = s1.cell j) →
      ∀ j, ((t.resetChunk os i).saveIndexFile os).1.cell j =
        if j = i then ((s.cell j).load L.torrent os s.cache).reset else s.cell j := by
    intro t ht j
    rw [(reset_saveIndexFile t os i).2.2, ht j, hload j]
    by_cases hj : j = i
    · rw [if_pos hj, if_pos hj, if_pos hj]
    · rw [if_neg hj, if_neg hj, if_neg hj]
  subst h1
  unfold ChunkManager.grabChunk
  simp only [dif_pos i.2, Fin.eta]
  by_cases hx : (s.chunks i).status = .notDownloaded ∨ (s.chunks i).isExcluded
  · rw [if_pos hx]
    refine Or.inr ⟨fun h => ?_, rfl, fun _ => Or.inl rfl⟩
    rcases hx with hx | hx
    · exact absurd (h.status.symm.trans hx) (by decide)
    · exact absurd (h.wanted.symm.trans hx) (by decide)
  rw [if_neg hx]
  rw [not_or, Bool.not_eq_true] at hx
  by_cases hd : (s.chunks i).status = .onDisk
  swap
  · rw [if_neg hd]
    exact Or.inr ⟨fun h => hd h.status, rfl, fun _ => Or.inl rfl⟩
  rw [if_pos hd]
  by_cases hok : (s.cache.load L.torrent os (s.chunks i)).2.2 = true
  swap
  · rw [if_pos (by simpa using hok)]
    exact Or.inr ⟨fun h => hok h.loads, hsignals, hkeep _ (fun _ => rfl) hd⟩
  rw [if_neg (by simpa using hok)]
  have hallowed : (decide (size = 0 ∨ L.piece_length ≤ size) &&
      !(decide (s.recheck_counter < 5) && decide (s.corrupted_count = 0))) = true ↔
      (size = 0 ∨ L.piece_length ≤ size) ∧ ¬ (s.recheck_counter < 5 ∧ s.corrupted_count = 0) := by
    simp only [Bool.and_eq_true, decide_eq_true_eq, Bool.not_eq_true', Bool.and_eq_false_iff,
      decide_eq_false_iff_not, not_and_or]
  by_cases hcheck : (s.cache.load L.torrent os (s.chunks i)).1.data.isNull = false ∧
      ((size = 0 ∨ L.piece_length ≤ size) ∧ ¬ (s.recheck_counter < 5 ∧ s.corrupted_count = 0))
  swap
  · rw [if_neg (by rw [hallowed]; simpa using hcheck)]
    exact Or.inr ⟨fun h => hcheck ⟨h.memory, h.size, h.due⟩, hsignals, hkeep _ (fun _ => rfl) hd⟩
  rw [if_pos (by rw [hallowed]; simpa using hcheck)]
  cases hash : (s.cache.load L.torrent os (s.chunks i)).1.checkHash L.torrent
      (s.cache.load L.torrent os (s.chunks i)).2.1 L.hash_pieces[i]
  · have hcorrupt : FindsCorrupt s os size i :=
      ⟨hd, hx.2, hok, hcheck.1, hcheck.2.1, hcheck.2.2, hash⟩
    obtain ⟨t, ht⟩ : ∃ t : ChunkManager L, t = { s with
      chunks := Function.update s.chunks i (s.cache.load L.torrent os (s.chunks i)).1
      cache := (s.cache.load L.torrent os (s.chunks i)).2.1
      loaded := Function.update s.loaded i (some now)
      recheck_counter := 0 } := ⟨_, rfl⟩
    have r3 := hreset t fun _ => ht ▸ rfl
    obtain ⟨r1, r2, -⟩ := reset_saveIndexFile t os i
    have hts : t.signals = s.signals := ht ▸ rfl
    rw [hts] at r1
    subst ht
    left
    refine ⟨hcorrupt, ?_⟩
    rw [if_pos (by simp)]
    cases ho : os.index_opens
    · rw [if_pos (by rw [r2, ho]; rfl)]
      exact ⟨r1.trans (List.append_nil _).symm, r3⟩
    · rw [if_neg (by rw [r2, ho]; decide)]
      exact ⟨congrArg (· ++ [Signal.corrupted i]) r1, r3⟩
  · right
    rw [if_neg (by simp)]
    exact ⟨fun h => absurd (h.wrong.symm.trans hash) (by decide), hsignals,
      hkeep _ (fun _ => rfl) hd⟩

/-- **A peer asks for a chunk, chunk by chunk.**. Source: `ChunkManager::grabChunk`. Kind: P -/
theorem turns_grabChunk (env : Env) (size now n : ℕ) (i : Fin L.numChunks) :
    View.Turns (d.view i)
      ((d.call env fun s => (s.grabChunk (env.chunk n) size now n).1).view i)
      (i.val = n → FindsCorrupt d.cman (env.chunk n) size i → (env.chunk n).index_opens = false →
        d.current_chunks i = none → d.cman.excluded_chunks.get i = false →
        d.cman.only_seed_chunks.get i = false → i.val ∈ d.selector) := by
  obtain ⟨s', hs'⟩ : ∃ s', s' = ((quiet d.cman).grabChunk (env.chunk n) size now n).1 := ⟨_, rfl⟩
  have hcall : (d.call env fun s => (s.grabChunk (env.chunk n) size now n).1) =
      s'.signals.foldl (receive env) { d with cman := quiet s' } := by
    rw [hs']
    rfl
  rw [hcall]
  -- a change that keeps chunk `i` as it is
  have hsame : ∀ l : List ℕ, (∀ j ∈ d.selector, j ∈ l) → s'.cell i = d.cman.cell i →
      View.Turns (d.view i) (view { d with cman := quiet s', selector := l } i) True := by
    intro l hl hc
    refine View.turns_alike ?_ Iff.rfl fun _ h => hl i h
    show Alike (d.cman.cell i) (s'.cell i)
    rw [hc]
    exact ⟨rfl, rfl, rfl, rfl, rfl⟩
  by_cases hn : n < L.numChunks
  swap
  · have h1 : s' = quiet d.cman := by
      rw [hs']
      unfold ChunkManager.grabChunk
      rw [dif_neg hn]
    have h2 : s'.signals = [] := by rw [h1]; rfl
    rw [h2]
    refine (hsame d.selector (fun _ h => h) (by rw [h1]; rfl)).congr (iff_of_true trivial fun h => ?_)
    exact absurd (h ▸ i.2) hn
  obtain ⟨n, rfl⟩ : ∃ n' : Fin L.numChunks, n'.val = n := ⟨⟨n, hn⟩, rfl⟩
  rcases grabChunk_cases (quiet d.cman) (env.chunk n) size now n with
    ⟨hcorrupt, hsig, hcell⟩ | ⟨hno, hsig, hcell⟩
  · rw [← hs'] at hsig hcell
    obtain ⟨l, hl, hview⟩ : ∃ l : List ℕ, (∀ j, j ∈ l ↔ j ∈ d.selector ∨
          (env.chunk n).index_opens = true ∧ j = n.val) ∧
        s'.signals.foldl (receive env) { d with cman := quiet s' } =
          { d with cman := quiet s', selector := l } := by
      rw [hsig]
      cases (env.chunk n).index_opens
      · exact ⟨d.selector, fun j => by simp, rfl⟩
      · refine ⟨ChunkSelector.reinsert n d.selector, fun j => ?_, rfl⟩
        rw [mem_reinsert]
        simp
    rw [hview]
    by_cases hi : i = n
    · subst hi
      obtain ⟨v, hv⟩ : ∃ v : View, v = ⟨(d.view i).downloading, (d.view i).listed,
        (d.view i).cell.load L.torrent (env.chunk i) d.cman.cache⟩ := ⟨_, rfl⟩
      have hload : View.Turns (d.view i) v True := by
        refine View.turns_load (t := L.torrent) (o := env.chunk i) (k := d.cman.cache)
          hcorrupt.status ?_ ?_ ?_
        · rw [hv]
        · rw [hv]
        · rw [hv]
          exact id
      have hreset : View.Turns v (view { d with cman := quiet s', selector := l } i)
          (¬ v.downloading → v.cell.excluded = false → v.cell.onlySeed = false →
            (view { d with cman := quiet s', selector := l } i).listed) := by
        refine View.turns_reset ?_ ?_
        · rw [hv]
          show s'.cell i = _
          rw [hcell i, if_pos rfl]
          rfl
        · rw [hv]
          exact Iff.rfl
      refine (hload.trans hreset).congr ?_
      rw [hv]
      have hnone : ¬ (d.view i).downloading ↔ d.current_chunks i = none := by
        simp [view, Option.isSome_iff_ne_none]
      show (¬ (d.view i).downloading → d.cman.excluded_chunks.get i = false →
        d.cman.only_seed_chunks.get i = false → i.val ∈ l) ↔ _
      rw [hnone, hl i]
      constructor
      · intro h _ _ hopen h1 h2 h3
        exact (h h1 h2 h3).resolve_right fun h4 => absurd (hopen.symm.trans h4.1) (by decide)
      · intro h h1 h2 h3
        cases hopen : (env.chunk i).index_opens
        · exact Or.inl (h rfl ⟨hcorrupt.status, hcorrupt.wanted, hcorrupt.loads, hcorrupt.memory,
            hcorrupt.size, hcorrupt.due, hcorrupt.wrong⟩ hopen h1 h2 h3)
        · exact Or.inr ⟨rfl, rfl⟩
    · refine (hsame l (fun j hj => (hl j).mpr (Or.inl hj)) ?_).congr (iff_of_true trivial fun h => ?_)
      · rw [hcell i, if_neg hi]
        rfl
      · exact absurd (Fin.ext h) hi
  · rw [← hs'] at hsig hcell
    rw [show s'.signals = [] from hsig]
    have hspared : i.val = n.val → FindsCorrupt d.cman (env.chunk n) size i →
        (env.chunk n).index_opens = false → d.current_chunks i = none →
        d.cman.excluded_chunks.get i = false → d.cman.only_seed_chunks.get i = false →
        i.val ∈ d.selector := by
      intro h1 h2
      obtain rfl := Fin.ext h1
      exact absurd ⟨h2.status, h2.wanted, h2.loads, h2.memory, h2.size, h2.due, h2.wrong⟩ hno
    rcases hcell i with h1 | ⟨rfl, hd, h1⟩
    · exact (hsame d.selector (fun _ h => h) h1).congr (iff_of_true trivial hspared)
    · have hload : View.Turns (d.view i) (view { d with cman := quiet s' } i) True :=
        View.turns_load (t := L.torrent) (o := env.chunk i) (k := d.cman.cache) hd h1 Iff.rfl id
      exact hload.congr (iff_of_true trivial hspared)

end selection

/-! ### Runs -/

/-- **When an event loses nothing about chunk `i`.** A piece that completes it in a buffer, when it is
not owned: the buffer can be written. A choice: see `SparedByDeselect` and `SparedBySelect`. A request
that finds it corrupt, and a reset, without a download: it is listed, unless it is excluded or only
seeded, or, for a request, the index file can be written. A save without a download: see
`SavesMatched`. Kind: D -/
def Spares (d : Downloader L) : Event L → Fin L.numChunks → Prop
  | .piece env _ p, i => d.Completes env p i →
      ((d.reload (env.chunk i) i).cman.chunks i).status = .buffered →
      d.cman.bitset.get i = false → env.file.writes = true
  | .setDoNotDownload _ k dnd, i =>
      (TakesOut d k dnd → SparedByDeselect d k i) ∧ (TakesBack d k dnd → SparedBySelect d k i)
  | .grabChunk env size _ n, i =>
      i.val = n → FindsCorrupt d.cman (env.chunk n) size i → (env.chunk n).index_opens = false →
      d.current_chunks i = none → d.cman.excluded_chunks.get i = false →
      d.cman.only_seed_chunks.get i = false → i.val ∈ d.selector
  | .resetChunk _ n, i =>
      i = n → d.current_chunks n = none → d.cman.excluded_chunks.get n = false →
      d.cman.only_seed_chunks.get n = false → n.val ∈ d.selector
  | .saveChunk os n update_index, i =>
      i = n → d.current_chunks n = none → (d.cman.cell n).SavesMatched L.torrent os update_index
  | _, _ => True

/-- **Each event, chunk by chunk**: the chunk stays found exactly when it is spared.
Source: `torrent/downloader.cpp`, `torrent/chunkselector.cpp`. Kind: P -/
theorem turns_step (d : Downloader L) (hk : ∀ i, (d.view i).Kept) (e : Event L)
    (i : Fin L.numChunks) : View.Turns (d.view i) ((d.step e).view i) (Spares d e i) := by
  cases e with
  | piece env is_idle p => exact turns_pieceRecieved hk env is_idle p i
  | idle os n => exact (turns_idle os n i).1
  | assign os n => exact (turns_idle os n i).2
  | downloadFrom env hasChunk => exact turns_downloadFrom env hasChunk i
  | setDoNotDownload env k dnd => exact turns_setDoNotDownload env k dnd i
  | grabChunk env size now n => exact turns_grabChunk env size now n i
  | resetChunk os n => exact turns_resetChunk os n i
  | saveChunk os n update_index => exact turns_saveChunk os update_index n i

/-- **What an event must not meet**: a chunk it does not spare. Kind: D -/
def Admissible (d : Downloader L) (e : Event L) : Prop := ∀ i, Spares d e i

/-- **A step from a sound state is sound exactly when it spares every chunk.**.
Source: `torrent/downloader.cpp`, `torrent/chunkselector.cpp`. Kind: P -/
theorem sound_step_iff {d : Downloader L} (hk : ∀ i, (d.view i).Kept) (hs : Sound d) (e : Event L) :
    Sound (d.step e) ↔ Admissible d e := by
  have hf := (sound_iff_found hk).mp hs
  rw [sound_iff_found fun i => (turns_step d hk e i (hk i)).1]
  refine forall_congr' fun i => ?_
  exact (turns_step d hk e i (hk i)).2 (hf i)

/-- A torrent that starts: the chunks of its index file are owned, no file is left out. Kind: D -/
def start (L : Layout) (env₀ env : Env) (cache : Cache) (index_file : List ℕ)
    (shuffle : List ℕ → List ℕ) : Downloader L :=
  Downloader.new shuffle ((construct L env₀ (fun _ => {}) ⟨cache, index_file, none, none⟩).loadIndexFile
    env)

/-- A chunk of a torrent that is being loaded: its data is on disk exactly when it is owned, and what is
owned is not to do. Kind: D -/
structure AtRest (c : Cell) : Prop where
  data : c.chunk.data.isNull = true
  matched : c.Matched
  todo : c.owned = true → c.todo = false

/-- A chunk manager just built, for a torrent without saved priorities. Kind: D -/
structure Fresh (s : ChunkManager L) : Prop where
  atRest : ∀ i, AtRest (s.cell i)
  file_priority : s.file_priority = none
  file_info : s.file_info = none

/-- A priority makes no data. Source: `torrent/downloader.cpp`, `torrent/chunkselector.cpp`.
Kind: L -/
theorem fresh_prioritise {s : ChunkManager L} (h : Fresh s) (a b : ℕ) :
    Fresh (s.prioritise a b .preview) := by
  have hframe : ((s.prioritise a b .preview).file_priority,
      (s.prioritise a b .preview).file_info) = (s.file_priority, s.file_info) := by
    refine forRange_frame (fun t : ChunkManager L => (t.file_priority, t.file_info))
      (fun i _ _ t => ?_) s
    unfold prioritiseChunk
    rw [modifyChunk_frame]
  obtain ⟨h1, h2⟩ := Prod.mk.inj hframe
  refine ⟨fun i => ?_, h1.trans h.file_priority, h2.trans h.file_info⟩
  rw [cell_prioritise]
  split_ifs
  · obtain ⟨k1, k2, -⟩ := h.atRest i
    refine ⟨k1, k2, fun ho => ?_⟩
    have ho' : s.bitset.get i = true := ho
    simp [Cell.prioritise, ho']
  · exact h.atRest i

/-- A new manager has no data. Source: `ChunkManager::ChunkManager`. Kind: L -/
theorem fresh_construct (L : Layout) (env₀ : Env) (cache : Cache) (index_file : List ℕ) :
    Fresh (construct L env₀ (fun _ => {}) ⟨cache, index_file, none, none⟩) := by
  refine construct_induction ⟨fun i => ?_, rfl, rfl⟩ fun s a b h => fresh_prioritise h a b
  refine ⟨rfl, ?_, fun ho => ?_⟩
  · simp [Cell.Matched, base, cell]
  · simp [base, cell] at ho

/-- **Loading the index file, chunk by chunk**: without saved priorities, all it does is read the
records. Source: `ChunkManager::loadIndexFile`. Kind: L -/
theorem loadIndexFile_cells {s : ChunkManager L} (h : Fresh s) (env : Env)
    {Q : Fin L.numChunks → Cell → Prop} (hs : ∀ i, Q i (s.cell i))
    (hstep : ∀ (t : ChunkManager L) (index : ℕ), (∀ i, Q i (t.cell i)) →
      ∀ i, Q i ((t.loadHeader index).cell i)) (i : Fin L.numChunks) :
    Q i ((s.loadIndexFile env).cell i) := by
  have hload : ({ s with during_load := true } : ChunkManager L).loadPriorityInfo env =
      { s with during_load := true } := by
    unfold loadPriorityInfo loadFileInfo
    rw [h.file_priority]
    rfl
  have hfold : ∀ (records : List ℕ) (t : ChunkManager L), (∀ j, Q j (t.cell j)) →
      ∀ j, Q j ((records.foldl loadHeader t).cell j) := by
    intro records
    induction records with
    | nil => exact fun t ht => ht
    | cons r records ih => exact fun t ht => ih _ (hstep t r ht)
  unfold loadIndexFile
  simp only [hload]
  split_ifs
  · exact hfold (s.index_file ++ [env.word]) { s with during_load := true } hs i
  · exact hs i

/-- What the index file leaves of a chunk. Source: `ChunkManager::loadIndexFile`. Kind: L -/
theorem atRest_loadIndexFile {s : ChunkManager L} (h : Fresh s) (env : Env) (i : Fin L.numChunks) :
    AtRest ((s.loadIndexFile env).cell i) := by
  refine loadIndexFile_cells h env (Q := fun _ c => AtRest c) h.atRest (fun t index ht i => ?_) i
  obtain ⟨k1, k2, k3⟩ := ht i
  unfold loadHeader
  split_ifs
  swap
  · exact ht i
  rw [cell_modifyChunk]
  have ho : (t.bitset.set index true).get i = if i.val = index then true else t.bitset.get i :=
    get_set_fin _ _ _ _
  have ht' : (t.todo.set index false).get i = if i.val = index then false else t.todo.get i :=
    get_set_fin _ _ _ _
  by_cases hi : i.val = index
  · rw [if_pos hi] at ho ht' ⊢
    exact ⟨k1, ⟨fun _ => ho, fun _ => by simp⟩, fun _ => ht'⟩
  · rw [if_neg hi] at ho ht' ⊢
    refine ⟨k1, ?_, fun h' => ht'.trans (k3 (ho.symm.trans h'))⟩
    show (t.chunks i).status ≠ .notDownloaded ↔ (t.bitset.set index true).get i = true
    rw [ho]
    exact k2

/-- **A torrent that starts is sound.**. Source: `torrent/downloader.cpp`,
`torrent/chunkselector.cpp`. Kind: P -/
theorem sound_start (L : Layout) (env₀ env : Env) (cache : Cache) (index_file : List ℕ)
    {shuffle : List ℕ → List ℕ} (hperm : ∀ l, (shuffle l).Perm l) :
    (∀ i, ((start L env₀ env cache index_file shuffle).view i).Kept) ∧
      Sound (start L env₀ env cache index_file shuffle) := by
  have hnone : ∀ i, ¬ ((start L env₀ env cache index_file shuffle).view i).downloading :=
    fun i => Bool.false_ne_true
  have hrest := atRest_loadIndexFile (fresh_construct L env₀ cache index_file) env
  have hk : ∀ i, ((start L env₀ env cache index_file shuffle).view i).Kept := fun i =>
    ⟨fun hn => absurd ((hrest i).data.symm.trans hn) (by decide), (hrest i).todo,
      fun h => absurd h (hnone i)⟩
  refine ⟨hk, (sound_iff_found hk).mpr fun i _ => ⟨(hrest i).matched, fun ht => ?_⟩⟩
  refine (hperm _).mem_iff.mpr (List.mem_filter.mpr ⟨List.mem_range.mpr i.2, ?_⟩)
  by_contra ho
  rw [Bool.not_eq_true, Bool.not_eq_false'] at ho
  exact absurd (((hrest i).todo ho).symm.trans ht) (by decide)

/-- **When no wanted chunk becomes undownloadable**: a run passes sound states only exactly when
each of its events is admissible. Source: `torrent/downloader.cpp`, `torrent/chunkselector.cpp`.
Kind: P -/
theorem sound_run_iff (L : Layout) (env₀ env : Env) (cache : Cache) (index_file : List ℕ)
    (shuffle : List ℕ → List ℕ) (hperm : ∀ l, (shuffle l).Perm l) (events : List (Event L)) :
    (∀ pre, pre <+: events →
        Sound (run step (start L env₀ env cache index_file shuffle) pre)) ↔
      Meets step Admissible (start L env₀ env cache index_file shuffle) events := by
  obtain ⟨hk, hs⟩ := sound_start L env₀ env cache index_file hperm
  have hbase : ∀ (d : Downloader L) (e : Event L), (∀ i, (d.view i).Kept) →
      ∀ i, ((d.step e).view i).Kept := fun d e hd i => (turns_step d hd e i (hd i)).1
  have hexact : ∀ (d : Downloader L) (e : Event L), (∀ i, (d.view i).Kept) → Sound d → True →
      (Sound (d.step e) ↔ Admissible d e) := fun d e hd hs _ => sound_step_iff hd hs e
  exact good_at_iff_meets hbase hexact hk hs (meets_true _ _)

/-! ### A user who changes his mind -/

/-- Three files in four chunks of two pieces each; the second file has two chunks. Kind: D -/
def clipsLayout : Layout :=
  .checked [] 32768 131072 [⟨['a'], 32768, false⟩, ⟨['b'], 65536, false⟩, ⟨['c'], 32768, false⟩]
    (List.replicate 4 (Vector.replicate 20 0)) (by decide)

/-- One of its chunks. Kind: D -/
def clipsChunk (i : ℕ) (h : i < 4 := by decide) : Fin clipsLayout.numChunks := ⟨i, h⟩

/-- The first file is complete, and the first half of the second. Kind: D -/
def startClips : Downloader clipsLayout :=
  start clipsLayout {} { word := 9 } ⟨fun _ => 0, 0⟩ [0, 1] id

/-- The second half of the second file gets a piece and leaves memory; the file is deselected and
selected again, and its first half is downloaded anew; the third file is reset, and the first saved and
asked for. Kind: D -/
def changeOfMind : List (Event clipsLayout) :=
  [.downloadFrom {} fun _ => true, .piece {} true ⟨2, 0, 7, []⟩,
    .setDoNotDownload {} ⟨1, by decide⟩ true, .setDoNotDownload {} ⟨1, by decide⟩ false,
    .downloadFrom {} fun i => i = 1, .idle {} (clipsChunk 1), .resetChunk {} (clipsChunk 3),
    .saveChunk {} (clipsChunk 0) true, .grabChunk {} 0 100 0]

instance (t : Torrent) (os : Os) (update_index : Bool) (c : Cell) :
    Decidable (c.SavesMatched t os update_index) :=
  inferInstanceAs (Decidable (_ ∧ _))

/-- Nothing is lost on the way. Source: `torrent/downloader.cpp`, `torrent/chunkselector.cpp`.
Kind: P -/
theorem sound_changeOfMind : Sound (run step startClips changeOfMind) := by
  have hpiece : ∀ i : Fin clipsLayout.numChunks, i = clipsChunk 2 ∨
      ¬ (run step startClips (changeOfMind.take 1)).addressee ⟨2, 0, 7, []⟩ = some i := by
    decide +kernel
  have hdeselect : ∀ i, SparedByDeselect (run step startClips (changeOfMind.take 2)) 1 i := by
    unfold SparedByDeselect leavesBehind keepsBorder
    decide +kernel
  have hselect : ∀ i, SparedBySelect (run step startClips (changeOfMind.take 3)) 1 i := by
    unfold SparedBySelect
    decide +kernel
  have hreset : 3 ∈ (run step startClips (changeOfMind.take 6)).selector := by decide +kernel
  have hsave : ((run step startClips (changeOfMind.take 7)).cman.cell (clipsChunk 0)).SavesMatched
      clipsLayout.torrent {} true := by decide +kernel
  have hgrab : (run step startClips (changeOfMind.take 8)).cman.recheck_counter < 5 ∧
      (run step startClips (changeOfMind.take 8)).cman.corrupted_count = 0 := by decide +kernel
  refine (sound_run_iff clipsLayout {} { word := 9 } ⟨fun _ => 0, 0⟩ [0, 1] id
    (fun l => List.Perm.refl l) changeOfMind).mpr ⟨fun _ => trivial, fun i h hs => ?_,
      fun i => ⟨fun _ => hdeselect i, fun h => absurd h.1 (by decide)⟩,
      fun i => ⟨fun h => absurd h.1 (by decide), fun _ => hselect i⟩,
      fun _ => trivial, fun _ => trivial, fun _ _ _ _ _ => hreset, fun _ _ _ => hsave,
      fun _ _ h => absurd hgrab h.due, trivial⟩ changeOfMind (List.prefix_refl changeOfMind)
  -- the chunk that gets the piece is mapped, not in a buffer
  obtain rfl := (hpiece i).resolve_right (not_not.mpr h.1)
  exact absurd hs (by decide +kernel)

/-! ### A complete file that is deselected and selected again -/

/-- One file of one chunk. Kind: D -/
def clipLayout : Layout :=
  .checked [] 16 16 [⟨[], 16, false⟩]
    [Vector.replicate 20 0] (by decide)

/-- The clip is complete, and the user changes his mind twice. Kind: D -/
def reselectClip : List (Event clipLayout) :=
  [.setDoNotDownload {} ⟨0, by decide⟩ true, .setDoNotDownload {} ⟨0, by decide⟩ false]

/-- A torrent of the clip alone. Kind: D -/
def startClip (index_file : List ℕ) : Downloader clipLayout :=
  start clipLayout {} { word := 1 } ⟨fun _ => 0, 0⟩ index_file id

/-- The clip's chunk is to do, has no download, is in no list and is refused.
Source: `torrent/downloader.cpp`, `torrent/chunkselector.cpp`. Kind: P -/
theorem reselected_stuck : let d := run step (startClip [0]) reselectClip
    d.current_chunks ⟨0, by decide⟩ = none ∧ d.cman.todo.get 0 = true ∧ 0 ∉ d.selector ∧
      (d.cman.prepareChunk {} 0 false).2 = false ∧ ¬ Sound d := by
  intro d
  have h0 : d.current_chunks ⟨0, by decide⟩ = none := rfl
  have h1 : d.cman.todo.get 0 = true := by decide
  have h2 : 0 ∉ d.selector := by decide
  refine ⟨h0, h1, h2, by decide, fun hs => ?_⟩
  exact h2 ((hs ⟨0, by decide⟩ h0).2 h1).1

end Downloader

end KTorrent.Transfer
