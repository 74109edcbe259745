import KTorrent.Transfer.Sane

/-!
# Which chunk is selected

* `rareCmp`, `selectSorted` — the order by priority and rareness, and `select` with its sort.
* `Lists` — the list has every chunk that is not owned, once.
* `Eligible` — the chunks a peer can be asked for; `select_snd` says that `select` finds the first
  of them in the list, `pairwise_sort` that after a sort the first one is the best one.
* `chunk_selection` — the result of `select`, and that no operation puts a chunk twice in the list.
* `Selecting`, `Call` — a selector with the chunk manager it looks at, and what happens to the two;
  `lists_run` says that the list starts with every chunk, and that no call loses one or doubles it.

The sort is stable, as that of `std::list`; the order is a strict weak one as long as the list holds
chunks only.

Source: `torrent/chunkselector.cpp`
-/

namespace KTorrent.Transfer.ChunkSelector

open KTorrent.Lib KTorrent.Util KTorrent.Storage ChunkManager

variable {L : Layout}

/-- Source: `RareCmp::normalCmp`; `cc` is the chunk counter. Kind: D -/
def normalCmp (cc : ℕ → ℕ) (warmup : Bool) (a b : ℕ) : Bool :=
  if !warmup then decide (cc a < cc b) else decide (cc a > cc b)

/-- Source: `RareCmp::operator()`. Kind: D -/
def rareCmp (cman : ChunkManager L) (cc : ℕ → ℕ) (warmup : Bool) (a b : ℕ) : Bool :=
  match cman.getChunk a, cman.getChunk b with
  | some ca, some cb =>
      if ca.priority = cb.priority then normalCmp cc warmup a b
      else decide (ca.priority.value > cb.priority.value)
  | _, _ => false

/-- `chunks.sort(RareCmp(…))`, which puts `a` before `b` unless `b` is less than `a`.
Source: `ChunkSelector::select`. Kind: D -/
def sort (cman : ChunkManager L) (cc : ℕ → ℕ) (warmup : Bool) (chunks : List ℕ) : List ℕ :=
  chunks.mergeSort fun a b => !rareCmp cman cc warmup b a

/-- Source: `ChunkSelector::select`; `elapsed` is what the sort timer says and `left` what
`chunksLeft` returns. Kind: D -/
def selectSorted (cman : ChunkManager L) (cc : ℕ → ℕ) (elapsed left : ℕ)
    (hasChunk downloading : ℕ → Bool) (chunks : List ℕ) : List ℕ × Option ℕ :=
  if elapsed > 2000 then
    let warmup := decide (sub32 L.numChunks left ≤ 4)
    select cman hasChunk downloading (sort cman cc warmup chunks)
  else select cman hasChunk downloading chunks

/-! ### What is meant -/

/-- The list has every chunk that is not owned exactly once, and chunks only. Kind: D -/
structure Lists (cman : ChunkManager L) (chunks : List ℕ) : Prop where
  once : ∀ i : Fin L.numChunks, cman.bitset.get i = false → chunks.count i.val = 1
  inRange : ∀ i ∈ chunks, i < L.numChunks

/-- A chunk that is not owned, had by the peer, not being downloaded, not excluded and not only
seeded. Kind: D -/
structure Eligible (cman : ChunkManager L) (hasChunk downloading : ℕ → Bool)
    (i : Fin L.numChunks) : Prop where
  unowned : cman.bitset.get i = false
  hasChunk : hasChunk i = true
  free : downloading i = false
  included : (cman.chunks i).priority ≠ .excluded
  wanted : (cman.chunks i).priority ≠ .onlySeed

/-- Chunk `i` comes no later than chunk `j`: its priority is higher, or the same and the chunk is
no less rare (no less common during warm-up). Kind: D -/
def Precedes (cman : ChunkManager L) (cc : ℕ → ℕ) (warmup : Bool) (i j : Fin L.numChunks) : Prop :=
  (cman.chunks j).priority.value < (cman.chunks i).priority.value ∨
    (cman.chunks j).priority = (cman.chunks i).priority ∧
      if warmup then cc j ≤ cc i else cc i ≤ cc j

/-! ### The order -/

section order

variable (cman : ChunkManager L) (cc : ℕ → ℕ) (warmup : Bool)

/-- Priorities differ in their values. Source: `torrent/chunkselector.cpp`. Kind: L -/
theorem value_injective : Function.Injective Priority.value := by
  intro p q h
  cases p <;> cases q <;> first | rfl | cases h

/-- Between chunks, "not after" is the order the selection is meant to follow.
Source: `RareCmp::operator()`. Kind: L -/
theorem not_rareCmp_iff (i j : Fin L.numChunks) :
    (!rareCmp cman cc warmup j i) = true ↔ Precedes cman cc warmup i j := by
  have hvalue : (cman.chunks j).priority = (cman.chunks i).priority ↔
      (cman.chunks j).priority.value = (cman.chunks i).priority.value :=
    value_injective.eq_iff.symm
  unfold rareCmp Precedes normalCmp
  rw [getChunk_val, getChunk_val]
  dsimp only
  by_cases hp : (cman.chunks j).priority = (cman.chunks i).priority
  · rw [if_pos hp]
    have hv := hvalue.mp hp
    cases warmup <;> simp [hp]
  · rw [if_neg hp]
    have hv : (cman.chunks j).priority.value ≠ (cman.chunks i).priority.value :=
      fun h => hp (hvalue.mpr h)
    rw [Bool.not_eq_true', decide_eq_false_iff_not, not_lt]
    constructor
    · intro h
      exact .inl (lt_of_le_of_ne h hv)
    · rintro (h | ⟨h, -⟩)
      · exact h.le
      · exact absurd h hp

/-- The order of selection is transitive. Source: none: infrastructure. Kind: L -/
theorem precedes_trans {i j k : Fin L.numChunks} (hij : Precedes cman cc warmup i j)
    (hjk : Precedes cman cc warmup j k) : Precedes cman cc warmup i k := by
  unfold Precedes at *
  obtain h1 | ⟨h1, h2⟩ := hij <;> obtain h3 | ⟨h3, h4⟩ := hjk
  · exact .inl (h3.trans h1)
  · exact .inl (h3 ▸ h1)
  · exact .inl (h1 ▸ h3)
  · refine .inr ⟨h3.trans h1, ?_⟩
    split_ifs at * <;> omega

/-- Any two chunks are in order. Source: `torrent/chunkselector.cpp`. Kind: L -/
theorem precedes_total (i j : Fin L.numChunks) :
    Precedes cman cc warmup i j ∨ Precedes cman cc warmup j i := by
  unfold Precedes
  obtain h | h | h := lt_trichotomy (cman.chunks i).priority.value (cman.chunks j).priority.value
  · exact .inr (.inl h)
  · have hp := value_injective h
    have hcount := Nat.le_total (cc i) (cc j)
    cases warmup
    · exact hcount.imp (fun h => .inr ⟨hp.symm, h⟩) fun h => .inr ⟨hp, h⟩
    · exact hcount.symm.imp (fun h => .inr ⟨hp.symm, h⟩) fun h => .inr ⟨hp, h⟩
  · exact .inl (.inl h)

/-- **A sorted list is in order.**. Source: `ChunkSelector::select`. Kind: L -/
theorem pairwise_sort {chunks : List ℕ} (h : ∀ i ∈ chunks, i < L.numChunks) :
    ∃ is : List (Fin L.numChunks), sort cman cc warmup chunks = is.map Fin.val ∧
      is.Pairwise (Precedes cman cc warmup) := by
  obtain ⟨is, rfl⟩ : ∃ is : List (Fin L.numChunks), is.map Fin.val = chunks :=
    ⟨chunks.pmap Fin.mk h, by simp [List.map_pmap]⟩
  refine ⟨is.mergeSort fun i j => !rareCmp cman cc warmup j i, ?_, ?_⟩
  · unfold sort
    rw [List.map_mergeSort (f := Fin.val)]
    intro i _ j _
    rfl
  · have htrans : ∀ i j k : Fin L.numChunks, (!rareCmp cman cc warmup j i) = true →
        (!rareCmp cman cc warmup k j) = true → (!rareCmp cman cc warmup k i) = true := by
      intro i j k
      rw [not_rareCmp_iff, not_rareCmp_iff, not_rareCmp_iff]
      exact precedes_trans cman cc warmup
    have htotal : ∀ i j : Fin L.numChunks,
        (!rareCmp cman cc warmup j i || !rareCmp cman cc warmup i j) = true := by
      intro i j
      rw [Bool.or_eq_true, not_rareCmp_iff, not_rareCmp_iff]
      exact precedes_total cman cc warmup i j
    apply (List.pairwise_mergeSort htrans htotal is).imp
    intro i j h
    exact (not_rareCmp_iff cman cc warmup i j).mp h

end order

/-! ### What is selected -/

section selection

variable (cman : ChunkManager L) (hasChunk downloading : ℕ → Bool)

/-- `select` finds the first chunk of the list that is not owned and may be chosen.
Source: `ChunkSelector::select`. Kind: L -/
theorem select_snd (chunks : List ℕ) :
    (select cman hasChunk downloading chunks).2 =
      chunks.find? fun i => !cman.bitset.get i && selectable cman hasChunk downloading i := by
  induction chunks with
  | nil => rfl
  | cons i chunks ih =>
    unfold select
    rw [List.find?_cons]
    cases ho : cman.bitset.get i
    · cases selectable cman hasChunk downloading i <;> simp [ih]
    · simpa using ih

/-- The source's test of a chunk, as a statement about it. Source: `ChunkSelector::select`.
Kind: L -/
theorem selectable_iff {i : ℕ} :
    (!cman.bitset.get i && selectable cman hasChunk downloading i) = true ↔
      ∃ j : Fin L.numChunks, j.val = i ∧ Eligible cman hasChunk downloading j := by
  unfold selectable
  constructor
  · intro h
    simp only [Bool.and_eq_true, Bool.not_eq_true'] at h
    obtain ⟨ho, ⟨hhas, hfree⟩, hc⟩ := h
    have hi : i < L.numChunks := by
      by_contra hi
      rw [getChunk, dif_neg hi] at hc
      cases hc
    rw [getChunk, dif_pos hi] at hc
    simp only [Option.any_some, Chunk.isExcluded, Chunk.isExcludedForDownloading,
      Bool.and_eq_true, Bool.not_eq_true', decide_eq_false_iff_not] at hc
    exact ⟨⟨i, hi⟩, rfl, ho, hhas, hfree, hc.1, hc.2⟩
  · rintro ⟨j, rfl, hj⟩
    simp [getChunk_val, Chunk.isExcluded, Chunk.isExcludedForDownloading, hj.unowned, hj.hasChunk,
      hj.free, hj.included, hj.wanted]

/-- **Something is selected when something can be.**. Source: `ChunkSelector::select`. Kind: L -/
theorem select_isSome_iff {chunks : List ℕ} (h : Lists cman chunks) :
    (select cman hasChunk downloading chunks).2.isSome = true ↔
      ∃ i, Eligible cman hasChunk downloading i := by
  rw [select_snd, List.find?_isSome]
  constructor
  · rintro ⟨i, -, hi⟩
    obtain ⟨j, -, hj⟩ := (selectable_iff cman hasChunk downloading).mp hi
    exact ⟨j, hj⟩
  · rintro ⟨j, hj⟩
    refine ⟨j, ?_, (selectable_iff cman hasChunk downloading).mpr ⟨j, rfl, hj⟩⟩
    apply List.count_pos_iff.mp
    rw [h.once j hj.unowned]
    exact Nat.one_pos

/-- What is selected can be. Source: `ChunkSelector::select`. Kind: L -/
theorem eligible_of_select {chunks : List ℕ} {i : ℕ}
    (h : (select cman hasChunk downloading chunks).2 = some i) :
    ∃ j : Fin L.numChunks, j.val = i ∧ Eligible cman hasChunk downloading j := by
  rw [select_snd] at h
  have hi := List.find?_some
    (p := fun i => !cman.bitset.get i && selectable cman hasChunk downloading i) h
  exact (selectable_iff cman hasChunk downloading).mp hi

/-- **From a list in order the best one is selected.**. Source: `ChunkSelector::select`. Kind: L -/
theorem precedes_of_select {R : Fin L.numChunks → Fin L.numChunks → Prop}
    (hrefl : ∀ i, R i i) {is : List (Fin L.numChunks)} (hsorted : is.Pairwise R)
    {i j : Fin L.numChunks}
    (h : (select cman hasChunk downloading (is.map Fin.val)).2 = some i.val) (hj : j ∈ is)
    (hel : Eligible cman hasChunk downloading j) : R i j := by
  rw [select_snd, List.find?_map, Option.map_eq_some_iff] at h
  obtain ⟨k, hk, hki⟩ := h
  obtain rfl := Fin.ext hki
  obtain ⟨-, pre, post, rfl, hpre⟩ := List.find?_eq_some_iff_append.mp hk
  -- what stands before the chunk selected cannot be
  rw [List.mem_append] at hj
  obtain hj | hj := hj
  · have hno := hpre j hj
    have hyes := (selectable_iff cman hasChunk downloading).mpr ⟨j, rfl, hel⟩
    simp only [Function.comp_apply, hyes] at hno
    cases hno
  · obtain rfl | hj := List.mem_cons.mp hj
    · exact hrefl j
    · exact List.rel_of_pairwise_cons (List.pairwise_append.mp hsorted).2.1 hj

end selection

/-! ### The list -/

section list

variable {cman : ChunkManager L} {chunks : List ℕ}

/-- Selecting drops chunks from the list, and keeps the order. Source: `ChunkSelector::select`.
Kind: L -/
theorem select_sublist (cman : ChunkManager L) (hasChunk downloading : ℕ → Bool)
    (chunks : List ℕ) : (select cman hasChunk downloading chunks).1.Sublist chunks := by
  induction chunks with
  | nil => exact List.Sublist.refl _
  | cons i chunks ih =>
    unfold select
    split_ifs
    · exact ih.cons i
    · exact List.Sublist.refl _
    · exact ih.cons_cons i

/-- A chunk that is not listed is appended. Source: `torrent/chunkselector.cpp`. Kind: L -/
theorem nodup_concat {i : ℕ} (h : chunks.Nodup) (hi : i ∉ chunks) : (chunks ++ [i]).Nodup := by
  rw [← List.concat_eq_append]
  exact h.concat hi

/-- One chunk of a data check: out of the list, into it, or neither.
Source: `ChunkSelector::dataChecked`. Kind: L -/
theorem nodup_dataChecked (ok_chunks : BitSet L.numChunks) (h : chunks.Nodup) :
    (dataChecked ok_chunks chunks).Nodup := by
  unfold dataChecked
  apply forRange_inv (P := List.Nodup) _ h
  intro i _ _ chunks h
  split_ifs with h1 h2
  · exact h.filter _
  · exact nodup_concat h h2.1
  · exact h

/-- Including again lists no chunk twice. Source: `ChunkSelector::reincluded`. Kind: L -/
theorem nodup_reincluded (cman : ChunkManager L) (first last : ℕ) (h : chunks.Nodup) :
    (reincluded cman first last chunks).Nodup := by
  unfold reincluded
  split_ifs
  · exact h
  apply forRange_inv (P := List.Nodup) _ h
  intro i _ _ chunks h
  split_ifs with h1
  · exact nodup_concat h h1.1
  · exact h

/-- Inserting again lists no chunk twice. Source: `ChunkSelector::reinsert`. Kind: L -/
theorem nodup_reinsert (chunk : ℕ) (h : chunks.Nodup) : (reinsert chunk chunks).Nodup := by
  unfold reinsert
  split_ifs with h1
  · exact h
  · exact nodup_concat h h1

/-- Selecting lists no chunk twice. Source: `ChunkSelector::select`. Kind: L -/
theorem nodup_selectSorted (cman : ChunkManager L) (cc : ℕ → ℕ) (elapsed left : ℕ)
    (hasChunk downloading : ℕ → Bool) (h : chunks.Nodup) :
    (selectSorted cman cc elapsed left hasChunk downloading chunks).1.Nodup := by
  unfold selectSorted
  split_ifs
  · apply (select_sublist _ _ _ _).nodup
    exact (List.mergeSort_perm _ _).nodup_iff.mpr h
  · exact (select_sublist _ _ _ _).nodup h

/-! ### Nothing is lost -/

/-- What is listed does not depend on the order. Source: none: infrastructure. Kind: L -/
theorem Lists.perm {chunks' : List ℕ} (h : Lists cman chunks) (hp : chunks'.Perm chunks) :
    Lists cman chunks' := by
  refine ⟨fun i hi => ?_, fun i hi => h.inRange i (hp.mem_iff.mp hi)⟩
  rw [hp.count_eq]
  exact h.once i hi

/-- Sorting lists the same. Source: `ChunkSelector::select`. Kind: L -/
theorem Lists.sort (h : Lists cman chunks) (cc : ℕ → ℕ) (warmup : Bool) :
    Lists cman (sort cman cc warmup chunks) :=
  h.perm (List.mergeSort_perm _ _)

/-- `select` erases owned chunks only. Source: `ChunkSelector::select`. Kind: P -/
theorem lists_select (h : Lists cman chunks) (hasChunk downloading : ℕ → Bool) :
    Lists cman (select cman hasChunk downloading chunks).1 := by
  have hcount : ∀ (i : ℕ) (l : List ℕ), cman.bitset.get i = false →
      (select cman hasChunk downloading l).1.count i = l.count i := by
    intro i l ho
    induction l with
    | nil => rfl
    | cons j l ih =>
      unfold select
      split_ifs with h1 h2
      · have hne : j ≠ i := by
          rintro rfl
          exact absurd (ho.symm.trans h1) Bool.false_ne_true
        rw [ih, List.count_cons_of_ne hne]
      · rfl
      · simp only [List.count_cons, ih]
  refine ⟨fun i ho => (hcount i chunks ho).trans (h.once i ho), fun i hi => ?_⟩
  exact h.inRange i ((select_sublist _ _ _ _).mem hi)

/-- A list without duplicates that has what is not owned. Source: `torrent/chunkselector.cpp`.
Kind: L -/
theorem lists_of_mem (hnd : chunks.Nodup) (hrange : ∀ i ∈ chunks, i < L.numChunks)
    (hmem : ∀ i : Fin L.numChunks, cman.bitset.get i = false → i.val ∈ chunks) :
    Lists cman chunks :=
  ⟨fun i ho => List.count_eq_one_of_mem hnd (hmem i ho), hrange⟩

/-- The constructor's list, however it is shuffled. Source: `torrent/chunkselector.cpp`. Kind: P -/
theorem lists_new (cman : ChunkManager L) {shuffle : List ℕ → List ℕ}
    (hperm : ∀ l, (shuffle l).Perm l) : Lists cman (new shuffle cman) := by
  refine Lists.perm (lists_of_mem ?_ ?_ ?_) (hperm _)
  · exact List.nodup_range.filter _
  · intro i hi
    exact List.mem_range.mp (List.mem_filter.mp hi).1
  · intro i ho
    exact List.mem_filter.mpr ⟨List.mem_range.mpr i.2, by rw [ho]; rfl⟩

/-- After a data check the list has the chunks that are not in order.
Source: `ChunkSelector::dataChecked`. Kind: P -/
theorem lists_dataChecked {ok_chunks : BitSet L.numChunks}
    (hok : ∀ i : Fin L.numChunks, cman.bitset.get i = false → ok_chunks.get i = false)
    (hnd : chunks.Nodup) (hrange : ∀ i ∈ chunks, i < L.numChunks) :
    Lists cman (dataChecked ok_chunks chunks) := by
  refine lists_of_mem (nodup_dataChecked ok_chunks hnd) ?_ ?_
  · unfold dataChecked
    refine forRange_inv (P := fun l => ∀ i ∈ l, i < L.numChunks) (fun i _ hi l hl => ?_) hrange
    intro j hj
    split_ifs at hj
    · exact hl j (List.mem_filter.mp hj).1
    · obtain hj | rfl := List.mem_append.mp hj |>.imp_right List.mem_singleton.mp
      · exact hl j hj
      · exact hi
    · exact hl j hj
  · intro i ho
    have hi := obs_forRange (fun (l : List ℕ) (j : Fin L.numChunks) => decide (j.val ∈ l)) Fin.val
      (fun j _ => !ok_chunks.get j)
      (f := fun i chunks =>
        if i ∈ chunks ∧ ok_chunks.get i then chunks.filter (· ≠ i)
        else if i ∉ chunks ∧ !ok_chunks.get i then chunks ++ [i]
        else chunks) ?_ 0 L.numChunks chunks i
    · rw [if_pos ⟨Nat.zero_le _, i.2⟩, hok i ho] at hi
      exact of_decide_eq_true hi
    · intro k l j
      by_cases hj : j.val = k
      · subst hj
        rw [if_pos rfl]
        by_cases hm : j.val ∈ l <;> cases hg : ok_chunks.get j.val <;> simp [hm]
      · rw [if_neg hj]
        split_ifs <;> simp [hj]

/-- Putting a chunk back loses none; the chunk itself need not have been in the list.
Source: `ChunkSelector::reinsert`. Kind: P -/
theorem lists_reinsert {t : ChunkManager L} (h : Lists cman chunks) (i : Fin L.numChunks)
    (hkeep : ∀ j : Fin L.numChunks, t.bitset.get j = false → cman.bitset.get j = false ∨ j = i)
    (hnd : chunks.Nodup) : Lists t (reinsert i chunks) := by
  refine lists_of_mem (nodup_reinsert _ hnd) ?_ fun j ho => ?_
  · intro j hj
    unfold reinsert at hj
    split_ifs at hj
    · exact h.inRange j hj
    · obtain hj | rfl := List.mem_append.mp hj |>.imp_right List.mem_singleton.mp
      · exact h.inRange j hj
      · exact i.2
  · unfold reinsert
    obtain hj | rfl := hkeep j ho
    · have hmem : j.val ∈ chunks := List.count_pos_iff.mp (by rw [h.once j hj]; exact Nat.one_pos)
      split_ifs
      · exact hmem
      · exact List.mem_append_left _ hmem
    · split_ifs with hmem
      · exact hmem
      · exact List.mem_append_right _ (List.mem_singleton_self _)

/-- Including a range again loses none. Source: `ChunkSelector::reincluded`. Kind: P -/
theorem lists_reincluded (h : Lists cman chunks) (hnd : chunks.Nodup) (first last : ℕ) :
    Lists cman (reincluded cman first last chunks) := by
  unfold reincluded
  split_ifs with hrange
  · exact h
  refine (forRange_inv (P := fun l => Lists cman l ∧ l.Nodup) (fun i _ hi l hl => ?_) ⟨h, hnd⟩).1
  have hlt : i < L.numChunks := by omega
  split_ifs with h1
  · have hre := lists_reinsert hl.1 ⟨i, hlt⟩ (fun _ => .inl) hl.2
    unfold reinsert at hre
    rw [if_neg h1.1] at hre
    exact ⟨hre, nodup_concat hl.2 h1.1⟩
  · exact hl

/-- The chunk manager comes to own more. Source: none: infrastructure. Kind: L -/
theorem Lists.mono {t : ChunkManager L} (h : Lists cman chunks)
    (hkeep : ∀ i : Fin L.numChunks, t.bitset.get i = false → cman.bitset.get i = false) :
    Lists t chunks :=
  ⟨fun i ho => h.once i (hkeep i ho), h.inRange⟩

/-- A check of the data leaves no chunk unowned that is in order.
Source: `ChunkManager::dataChecked`. Kind: L -/
theorem unowned_dataChecked (env : Env) (ok_chunks : BitSet L.numChunks) (i : Fin L.numChunks)
    (h : (cman.dataChecked env ok_chunks).bitset.get i = false) : ok_chunks.get i = false := by
  have howned : ((cman.dataChecked env ok_chunks).cell i).owned = false := h
  rw [cell_dataChecked] at howned
  generalize cman.cell i = c at howned
  cases hok : ok_chunks.get i
  · rfl
  · rw [hok] at howned
    cases hc : c.owned <;> simp [Cell.check, hc] at howned

end list

/-! ### Runs -/

/-- A selector with the chunk manager it looks at. Kind: D -/
structure Selecting (L : Layout) where
  cman : ChunkManager L
  chunks : List ℕ

/-- What happens: the chunk manager becomes another one, a peer is to be asked for a chunk, the data
is checked, a range is included again, or a chunk goes back to the list because its data is wrong,
by which the chunk manager may have lost it. Kind: D -/
inductive Call (L : Layout)
  | changed (cman : ChunkManager L)
  | select (cc : ℕ → ℕ) (elapsed left : ℕ) (hasChunk downloading : ℕ → Bool)
  | dataChecked (env : Env) (ok_chunks : BitSet L.numChunks)
  | reincluded (first last : ℕ)
  | reinsert (cman : ChunkManager L) (chunk : Fin L.numChunks)

/-- What a call does. Kind: D -/
def Selecting.step (s : Selecting L) : Call L → Selecting L
  | .changed cman => { s with cman := cman }
  | .select cc elapsed left hasChunk downloading =>
      { s with chunks := (selectSorted s.cman cc elapsed left hasChunk downloading s.chunks).1 }
  | .dataChecked env ok_chunks =>
      ⟨s.cman.dataChecked env ok_chunks, dataChecked ok_chunks s.chunks⟩
  | .reincluded first last => { s with chunks := reincluded s.cman first last s.chunks }
  | .reinsert cman chunk => ⟨cman, reinsert chunk s.chunks⟩

/-- What the chunk manager loses goes back to the list, in the same call. Kind: D -/
def Selecting.Returns (s : Selecting L) : Call L → Prop
  | .changed cman =>
      ∀ i : Fin L.numChunks, cman.bitset.get i = false → s.cman.bitset.get i = false
  | .reinsert cman chunk => ∀ i : Fin L.numChunks, cman.bitset.get i = false →
      s.cman.bitset.get i = false ∨ i = chunk
  | _ => True

/-- One call. Source: `torrent/chunkselector.cpp`. Kind: L -/
theorem lists_step (s : Selecting L) (c : Call L) (h : Lists s.cman s.chunks ∧ s.chunks.Nodup)
    (hc : s.Returns c) : Lists (s.step c).cman (s.step c).chunks ∧ (s.step c).chunks.Nodup := by
  obtain ⟨hl, hnd⟩ := h
  cases c with
  | changed cman => exact ⟨hl.mono hc, hnd⟩
  | select cc elapsed left hasChunk downloading =>
    refine ⟨?_, nodup_selectSorted s.cman cc elapsed left hasChunk downloading hnd⟩
    show Lists s.cman (selectSorted s.cman cc elapsed left hasChunk downloading s.chunks).1
    unfold selectSorted
    split_ifs
    · exact lists_select (hl.sort cc _) hasChunk downloading
    · exact lists_select hl hasChunk downloading
  | dataChecked env ok_chunks =>
    exact ⟨lists_dataChecked (unowned_dataChecked env ok_chunks) hnd hl.inRange,
      nodup_dataChecked ok_chunks hnd⟩
  | reincluded first last =>
    exact ⟨lists_reincluded hl hnd first last, nodup_reincluded s.cman first last hnd⟩
  | reinsert cman chunk => exact ⟨lists_reinsert hl chunk hc hnd, nodup_reinsert _ hnd⟩

/-- **The list over whole runs.** It starts with every chunk that is not owned, however it is
shuffled, and if what the chunk manager loses goes back to it, it has each of them once after every
call, and nothing twice. Source: `torrent/chunkselector.cpp`. Kind: P -/
theorem lists_run (cman : ChunkManager L) {shuffle : List ℕ → List ℕ}
    (hperm : ∀ l, (shuffle l).Perm l) {calls : List (Call L)}
    (h : Meets Selecting.step Selecting.Returns ⟨cman, new shuffle cman⟩ calls) :
    Lists (run Selecting.step ⟨cman, new shuffle cman⟩ calls).cman
        (run Selecting.step ⟨cman, new shuffle cman⟩ calls).chunks ∧
      (run Selecting.step ⟨cman, new shuffle cman⟩ calls).chunks.Nodup := by
  have hstep : ∀ (s : Selecting L) (c : Call L), Lists s.cman s.chunks ∧ s.chunks.Nodup →
      s.Returns c → Lists (s.step c).cman (s.step c).chunks ∧ (s.step c).chunks.Nodup :=
    fun s c hs hc => lists_step s c hs hc
  exact h.invariant hstep
    ⟨lists_new cman hperm, (hperm _).nodup_iff.mpr (List.nodup_range.filter _)⟩

/-! ### The result -/

/-- **Chunk selection.** A list that has every chunk that is not owned once: a chunk is selected if
and only if there is one to select, it is one of these, right after a sort none of them comes
strictly before it, and the list still has every chunk that is not owned once. None of the four
operations puts a chunk twice in a list. Source: `ChunkSelector::select`. Kind: P -/
theorem chunk_selection (cman : ChunkManager L) (cc : ℕ → ℕ) (elapsed left : ℕ)
    (hasChunk downloading : ℕ → Bool) (ok_chunks : BitSet L.numChunks) (first last chunk : ℕ) :
    (∀ chunks, Lists cman chunks →
      let r := selectSorted cman cc elapsed left hasChunk downloading chunks
      (r.2.isSome = true ↔ ∃ i, Eligible cman hasChunk downloading i) ∧
      (∀ k, r.2 = some k → ∃ i : Fin L.numChunks, i.val = k ∧ Eligible cman hasChunk downloading i ∧
        (elapsed > 2000 → ∀ j, Eligible cman hasChunk downloading j →
          Precedes cman cc (decide (sub32 L.numChunks left ≤ 4)) i j)) ∧
      Lists cman r.1) ∧
    ∀ chunks : List ℕ, chunks.Nodup →
      (selectSorted cman cc elapsed left hasChunk downloading chunks).1.Nodup ∧
      (dataChecked ok_chunks chunks).Nodup ∧ (reincluded cman first last chunks).Nodup ∧
      (reinsert chunk chunks).Nodup := by
  refine ⟨fun chunks h => ?_, fun chunks h => ⟨nodup_selectSorted cman cc elapsed left _ _ h,
    nodup_dataChecked ok_chunks h, nodup_reincluded cman first last h, nodup_reinsert chunk h⟩⟩
  unfold selectSorted
  by_cases he : elapsed > 2000
  swap
  · simp only [if_neg he]
    refine ⟨select_isSome_iff cman _ _ h, fun k hk => ?_, lists_select h _ _⟩
    obtain ⟨i, hi, hel⟩ := eligible_of_select cman _ _ hk
    exact ⟨i, hi, hel, fun he' => absurd he' he⟩
  simp only [if_pos he]
  obtain ⟨warmup, hw⟩ : ∃ w, w = decide (sub32 L.numChunks left ≤ 4) := ⟨_, rfl⟩
  simp only [← hw]
  have hsort := h.sort cc warmup
  refine ⟨select_isSome_iff cman _ _ hsort, fun k hk => ?_, lists_select hsort _ _⟩
  obtain ⟨i, rfl, hel⟩ := eligible_of_select cman _ _ hk
  refine ⟨i, rfl, hel, fun _ j hj => ?_⟩
  obtain ⟨is, his, hsorted⟩ := pairwise_sort cman cc warmup h.inRange
  rw [his] at hk
  have hmem : j.val ∈ sort cman cc warmup chunks := by
    apply List.count_pos_iff.mp
    rw [hsort.once j hj.unowned]
    exact Nat.one_pos
  rw [his, List.mem_map] at hmem
  obtain ⟨j', hj', hval⟩ := hmem
  obtain rfl := Fin.ext hval
  have hrefl : ∀ i, Precedes cman cc warmup i i :=
    fun i => (precedes_total cman cc warmup i i).elim id id
  exact precedes_of_select cman _ _ hrefl hsorted hk hj' hj

/-- The counts of three chunks; the second one is the rarest. Kind: D -/
def threeCounts : ℕ → ℕ
  | 0 => 5
  | 1 => 1
  | _ => 3

/-- A file in three chunks. Kind: D -/
def threeChunks : Layout :=
  .checked [] 16 48 [⟨['a'], 48, false⟩] (List.replicate 3 (Vector.replicate 20 0)) (by decide)

/-- Nothing is downloaded yet. Kind: D -/
def empty : ChunkManager threeChunks :=
  construct threeChunks {} (fun _ => {}) ⟨⟨fun _ => 0, 0⟩, [], none, none⟩

/-- **Three chunks, of which the peer has two, during warm-up**: after a sort the more common one of
the two is selected, and the list has all three. Source: `ChunkSelector::select`. Kind: L -/
theorem chunk_selection_three :
    let r := selectSorted empty threeCounts 2500 3 (fun i => i ≠ 0) (fun _ => false) [2, 0, 1]
    r.2 = some 2 ∧ Lists empty r.1 ∧ r.1.Nodup := by
  intro r
  have hlists : Lists empty [2, 0, 1] := ⟨by decide, by decide⟩
  obtain ⟨hall, hnodup⟩ := chunk_selection empty threeCounts 2500 3 (fun i => i ≠ 0)
    (fun _ => false) (BitSet.empty 3) 0 1 1
  obtain ⟨hsome, hbest, hlists'⟩ := hall [2, 0, 1] hlists
  have heligible : ∀ i : Fin 3, i ≠ 0 → Eligible empty (fun i => i ≠ 0) (fun _ => false) i := by
    have hall : ∀ i : Fin 3, i ≠ 0 → empty.bitset.get i = false ∧ decide (i.val ≠ 0) = true ∧
        (empty.chunks i).priority ≠ .excluded ∧ (empty.chunks i).priority ≠ .onlySeed := by
      decide
    intro i hi
    obtain ⟨h1, h2, h3, h4⟩ := hall i hi
    exact ⟨h1, h2, rfl, h3, h4⟩
  let last : Fin threeChunks.numChunks := ⟨2, by decide⟩
  have hellast : Eligible empty (fun i => i ≠ 0) (fun _ => false) last :=
    heligible (2 : Fin 3) (by decide)
  obtain ⟨k, hk⟩ := Option.isSome_iff_exists.mp (hsome.mpr ⟨last, hellast⟩)
  obtain ⟨i, rfl, hel, hprec⟩ := hbest k hk
  refine ⟨?_, hlists', (hnodup _ (by decide)).1⟩
  -- during warm-up chunk 2 comes before chunk 1, and the peer does not have chunk 0
  have h2 := hprec (by decide) last hellast
  have hne : i.val ≠ 0 := of_decide_eq_true hel.hasChunk
  have hnormal : ∀ i : Fin 3, (empty.chunks i).priority = .normal := by decide
  have hcounts : ∀ i : Fin 3, i.val ≠ 0 → threeCounts 2 ≤ threeCounts i → i.val = 2 := by decide
  obtain hlt | ⟨-, hle⟩ := h2
  · have hlast : (empty.chunks last).priority = .normal := hnormal (2 : Fin 3)
    have hi : (empty.chunks i).priority = .normal := hnormal i
    rw [hlast, hi] at hlt
    exact absurd hlt (lt_irrefl _)
  · have hwarmup : decide (sub32 threeChunks.numChunks 3 ≤ 4) = true := by decide
    rw [if_pos hwarmup] at hle
    exact hk.trans (congrArg some (hcounts i hne hle))

end KTorrent.Transfer.ChunkSelector
