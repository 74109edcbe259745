import Mathlib.Algebra.BigOperators.Fin
import Mathlib.Algebra.Order.BigOperators.Group.Finset
import Mathlib.Data.Fintype.BigOperators
import KTorrent.Storage.Bookkeeping
import KTorrent.Storage.Spans

/-!
# Sizes derived from the sets of chunks

The chunk manager gives the bytes that are left, left to download and excluded as a number of bits
times the chunk size, corrected when the short last chunk is among them.

* `total` — what they stand for: the bytes of the chunks of a set.
* `bytesOfChunks_eq` — the computation is the sum, as long as the chunks have the sizes they were
  constructed with (`Sized`) and the size of the last one fits in 32 bits.
* `bytesLeft_eq`, `bytesLeftToDownload_eq` — the first two are right in every such state.
* `bytesExcluded_eq` — the third is the sum of two sets: right when each chunk's exclusion is the
  same in its priority and in the sets (`Bookkept`). It is then no more than the torrent's length
  (`total_le`).

Source: `torrent/chunkmanager.cpp`, `torrent/torrentcontrol.cpp`
-/

namespace KTorrent.Storage

open KTorrent.Lib KTorrent.Util

namespace Layout

variable (L : Layout)

/-- The bytes of the chunks that satisfy `p`. Kind: D -/
def total (p : Fin L.numChunks → Prop) [DecidablePred p] : ℕ := ∑ i with p i, L.bytesOf i

variable {L}

/-- The chunks before `m` are the bytes before its start. Source: `torrent/chunkmanager.cpp`,
`torrent/torrentcontrol.cpp`. Kind: L -/
theorem sum_bytesOf {m : ℕ} (h : m ≤ L.numChunks) :
    ∑ i ∈ Finset.range m, L.bytesOf i = min (m * L.piece_length) L.file_length := by
  induction m with
  | zero => simp
  | succ m ih =>
    have hm := L.mul_lt_of_lt_numChunks (Nat.lt_of_succ_le h)
    rw [Finset.sum_range_succ, ih (Nat.le_of_succ_le h)]
    unfold bytesOf chunkEnd chunkStart
    rw [Nat.succ_mul]
    omega

/-- No set of chunks has more bytes than the torrent. Source: `torrent/chunkmanager.cpp`,
`torrent/torrentcontrol.cpp`. Kind: L -/
theorem total_le (p : Fin L.numChunks → Prop) [DecidablePred p] : L.total p ≤ L.file_length := by
  have hall : ∑ i : Fin L.numChunks, L.bytesOf i ≤ L.file_length := by
    rw [Fin.sum_univ_eq_sum_range, sum_bytesOf le_rfl]
    exact min_le_right _ _
  exact le_trans (Finset.sum_le_sum_of_subset (Finset.subset_univ _)) hall

/-- The bytes of disjoint sets add up. Source: `torrent/chunkmanager.cpp`,
`torrent/torrentcontrol.cpp`. Kind: L -/
theorem total_or {p q : Fin L.numChunks → Prop} [DecidablePred p] [DecidablePred q]
    (h : ∀ i, p i → ¬ q i) : L.total p + L.total q = L.total fun i => p i ∨ q i := by
  unfold total
  rw [Finset.filter_or, Finset.sum_union]
  apply Finset.disjoint_filter.mpr
  intro i _ hp
  exact h i hp

/-- **The bytes of a set of chunks**, from their number and from whether the last is among them.
Source: `torrent/chunkmanager.cpp`, `torrent/torrentcontrol.cpp`. Kind: L -/
theorem total_eq (p : Fin L.numChunks → Prop) [DecidablePred p] {num : ℕ}
    (hnum : (Finset.univ.filter p).card = num) :
    L.total p =
      if ∃ i, p i ∧ i.val + 1 = L.numChunks then
        (num - 1) * L.piece_length + L.bytesOf (L.numChunks - 1)
      else num * L.piece_length := by
  unfold total
  have hsum : ∀ t : Finset (Fin L.numChunks), (∀ i ∈ t, i.val + 1 < L.numChunks) →
      ∑ i ∈ t, L.bytesOf i = t.card * L.piece_length := by
    intro t ht
    rw [Finset.sum_congr rfl fun i hi => bytesOf_of_succ_lt (ht i hi), Finset.sum_const,
      smul_eq_mul]
  split_ifs with hlast
  · obtain ⟨l, hl, hend⟩ := hlast
    have hmem : l ∈ Finset.univ.filter p := by simpa using hl
    rw [← Finset.sum_erase_add _ _ hmem, hsum, Finset.card_erase_of_mem hmem, hnum,
      show L.numChunks - 1 = l.val by omega]
    · intro i hi
      have hne := Fin.val_ne_of_ne (Finset.ne_of_mem_erase hi)
      omega
  · rw [hsum, hnum]
    intro i hi
    have hne : i.val + 1 ≠ L.numChunks := fun h => hlast ⟨i, (Finset.mem_filter.mp hi).2, h⟩
    omega

end Layout

/-- A chunk that is not owned and not excluded. Kind: D -/
def Cell.left (c : Cell) : Bool := !c.owned && !c.chunk.isExcluded

namespace ChunkManager

variable {L : Layout}

/-- The bytes of `num` chunks, the last one of the torrent among them if `last`:
`(num - 1)*tor.getChunkSize() + c->getSize()` or `num*tor.getChunkSize()`.
Source: `ChunkManager::bytesLeft`, `bytesLeftToDownload`, `bytesExcluded`. Kind: D -/
def bytesOfChunks (s : ChunkManager L) (num : ℕ) (last : Bool) : ℕ :=
  if last then
    match s.getChunk (sub32 L.numChunks 1) with
    | some c => u64 (u64 (sub32 num 1 * L.piece_length) + c.size)
    | none => u64 (num * L.piece_length)
  else u64 (num * L.piece_length)

/-- Source: `ChunkManager::bytesLeft`. Kind: D -/
def bytesLeft (s : ChunkManager L) : ℕ :=
  let last := sub32 L.numChunks 1
  s.bytesOfChunks (sub32 L.numChunks s.bitset.numOnBits)
    (decide (last < L.numChunks) && !s.bitset.get last)

/-- Source: `ChunkManager::bytesLeftToDownload`. Kind: D -/
def bytesLeftToDownload (s : ChunkManager L) : ℕ :=
  let last := sub32 L.numChunks 1
  s.bytesOfChunks s.todo.numOnBits (decide (last < L.numChunks) && s.todo.get last)

/-- Source: `ChunkManager::bytesExcluded`. Kind: D -/
def bytesExcluded (s : ChunkManager L) : ℕ :=
  let last := sub32 L.numChunks 1
  u64 (s.bytesOfChunks s.excluded_chunks.numOnBits (s.excluded_chunks.get last) +
    s.bytesOfChunks s.only_seed_chunks.numOnBits (s.only_seed_chunks.get last))

/-- `tor->getFileLength() - cman->bytesExcluded()`. Source: `TorrentControl::updateStats`.
Kind: D -/
def totalBytesToDownload (s : ChunkManager L) : ℕ := sub64 L.file_length s.bytesExcluded

/-- The chunks have the sizes the constructor gave them. Kind: D -/
def Sized (s : ChunkManager L) : Prop := ∀ i, (s.chunks i).size = chunkSize L i

section sums

variable {s : ChunkManager L}

/-- **The computation gives the bytes of a set of chunks.**. Source: `ChunkManager::bytesLeft`,
`bytesLeftToDownload`. Kind: L -/
theorem bytesOfChunks_eq (hs : s.Sized) (hlast : L.bytesOf (L.numChunks - 1) < 2 ^ 32)
    (p : Fin L.numChunks → Prop) [DecidablePred p] {num : ℕ} {last : Bool}
    (hnum : (Finset.univ.filter p).card = num)
    (hmem : last = true ↔ ∃ i, p i ∧ i.val + 1 = L.numChunks) :
    s.bytesOfChunks num last = L.total p := by
  have hlt : L.total p < 2 ^ 64 := lt_of_le_of_lt (L.total_le p) L.length_lt
  have htotal := L.total_eq p hnum
  unfold bytesOfChunks
  by_cases hl : last = true
  · obtain ⟨l, hp, hend⟩ := hmem.mp hl
    have hpos : 0 < num := by
      rw [← hnum, Finset.card_pos]
      exact ⟨l, by simpa using hp⟩
    have hle : num ≤ L.numChunks := by
      have := (Finset.univ.filter p).card_le_univ
      rwa [hnum, Fintype.card_fin] at this
    have hn : L.numChunks < 2 ^ 32 := L.chunks_lt
    have hidx : sub32 L.numChunks 1 = l.val := by
      rw [sub32_of_le (by omega) hn]
      omega
    have hsize : (s.chunks l).size = L.bytesOf (L.numChunks - 1) := by
      rw [hs l, Layout.chunkSize_eq l.2, show L.numChunks - 1 = l.val by omega]
      exact u32_of_lt (by rwa [show l.val = L.numChunks - 1 by omega])
    rw [if_pos (hmem.mp hl)] at htotal
    have hmul : (num - 1) * L.piece_length < 2 ^ 64 := by omega
    have hsub : sub32 num 1 = num - 1 := sub32_of_le hpos (by omega)
    rw [if_pos hl, hidx, getChunk_val]
    dsimp only
    rw [hsize, hsub, u64_of_lt hmul, u64_of_lt (by omega), htotal]
  · rw [if_neg (fun h => hl (hmem.mpr h))] at htotal
    rw [if_neg hl, u64_of_lt (by omega), htotal]

/-- Whether the last chunk is in a set. Source: `torrent/chunkmanager.cpp`,
`torrent/torrentcontrol.cpp`. Kind: L -/
theorem get_last_iff (b : BitSet L.numChunks) :
    b.get (sub32 L.numChunks 1) = true ↔
      ∃ i : Fin L.numChunks, b.get i = true ∧ i.val + 1 = L.numChunks := by
  have hn : L.numChunks < 2 ^ 32 := L.chunks_lt
  constructor
  · intro h
    have hlt := BitSet.lt_of_get h
    have hidx := sub32_of_le (show 1 ≤ L.numChunks by omega) hn
    exact ⟨⟨_, hlt⟩, h, by dsimp only; omega⟩
  · rintro ⟨i, hi, hend⟩
    rw [sub32_of_le (by omega) hn, show L.numChunks - 1 = i.val by omega]
    exact hi

/-- What `bytesLeft` gives: the bytes of the chunks that are not owned.
Source: `ChunkManager::bytesLeft`. Kind: P -/
theorem bytesLeft_eq (hs : s.Sized) (hlast : L.bytesOf (L.numChunks - 1) < 2 ^ 32) :
    s.bytesLeft = L.total fun i => s.bitset.get i = false := by
  have hn : L.numChunks < 2 ^ 32 := L.chunks_lt
  have hle := s.bitset.numOnBits_le
  unfold bytesLeft
  apply bytesOfChunks_eq hs hlast
  · rw [BitSet.card_off, sub32_of_le hle hn]
  · rw [Bool.and_eq_true, decide_eq_true_iff, Bool.not_eq_true']
    constructor
    · rintro ⟨hlt, hoff⟩
      refine ⟨⟨_, hlt⟩, hoff, ?_⟩
      have hidx := sub32_of_le (show 1 ≤ L.numChunks by omega) hn
      dsimp only
      omega
    · rintro ⟨i, hoff, hend⟩
      rw [sub32_of_le (by omega) hn, show L.numChunks - 1 = i.val by omega]
      exact ⟨i.2, hoff⟩

/-- What `bytesLeftToDownload` gives: the bytes of the chunks on the to-do list.
Source: `ChunkManager::bytesLeftToDownload`. Kind: P -/
theorem bytesLeftToDownload_eq (hs : s.Sized)
    (hlast : L.bytesOf (L.numChunks - 1) < 2 ^ 32) :
    s.bytesLeftToDownload = L.total fun i => s.todo.get i = true := by
  unfold bytesLeftToDownload
  apply bytesOfChunks_eq hs hlast _ (BitSet.card_on _)
  rw [← get_last_iff, Bool.and_eq_true, decide_eq_true_iff]
  exact ⟨And.right, fun h => ⟨BitSet.lt_of_get h, h⟩⟩

/-- What `bytesExcluded` gives: the bytes of the chunks whose priority leaves them out.
Source: `ChunkManager::bytesExcluded`. Kind: P -/
theorem bytesExcluded_eq (hs : s.Sized) (hlast : L.bytesOf (L.numChunks - 1) < 2 ^ 32)
    (hb : s.Bookkept) :
    s.bytesExcluded =
      L.total fun i => (s.chunks i).priority = .excluded ∨ (s.chunks i).priority = .onlySeed := by
  have hset : ∀ b : BitSet L.numChunks,
      s.bytesOfChunks b.numOnBits (b.get (sub32 L.numChunks 1)) =
        L.total fun i => b.get i = true :=
    fun b => bytesOfChunks_eq hs hlast _ (BitSet.card_on b) (get_last_iff b)
  have hsum := L.total_le
    fun i => (s.chunks i).priority = .excluded ∨ (s.chunks i).priority = .onlySeed
  have hlt := L.length_lt
  unfold bytesExcluded
  dsimp only
  simp only [hset, hb.excluded_iff, hb.onlySeed_iff]
  rw [Layout.total_or, u64_of_lt (lt_of_le_of_lt hsum hlt)]
  intro i hx hseed
  cases hx.symm.trans hseed

/-- The bytes that are excluded are no more than the torrent has.
Source: `TorrentControl::updateStats`. Kind: P -/
theorem totalBytesToDownload_eq (hs : s.Sized) (hlast : L.bytesOf (L.numChunks - 1) < 2 ^ 32)
    (hb : s.Bookkept) :
    s.bytesExcluded ≤ L.file_length ∧ s.totalBytesToDownload = L.file_length - s.bytesExcluded := by
  have hle : s.bytesExcluded ≤ L.file_length := by
    rw [bytesExcluded_eq hs hlast hb]
    exact L.total_le _
  exact ⟨hle, sub64_of_le hle L.length_lt⟩

end sums

/-! ### Counting the chunks that are left -/

section counting

variable {s t : ChunkManager L}

/-- The chunks left, as a sum over the cells. Source: `ChunkManager::chunksLeft`. Kind: L -/
theorem chunksLeft_eq_sum (s : ChunkManager L) :
    s.chunksLeft = ∑ i, if (s.cell i).left = true then 1 else 0 := by
  rw [← Finset.card_filter, ← List.toFinset_finRange, (List.nodup_finRange _).card_eq_countP]
  apply List.countP_congr
  intro i _
  simp [Cell.left, cell]

/-- The count follows what becomes of one chunk. Source: `ChunkManager::chunksLeft`. Kind: L -/
theorem chunksLeft_of_one (i : Fin L.numChunks)
    (hother : ∀ j, j ≠ i → (t.cell j).left = (s.cell j).left) :
    t.chunksLeft + (if (s.cell i).left = true then 1 else 0) =
      s.chunksLeft + if (t.cell i).left = true then 1 else 0 := by
  have hrest : ∑ j ∈ Finset.univ.erase i, (if (t.cell j).left = true then 1 else 0) =
      ∑ j ∈ Finset.univ.erase i, if (s.cell j).left = true then 1 else 0 := by
    apply Finset.sum_congr rfl
    intro j hj
    rw [hother j (Finset.ne_of_mem_erase hj)]
  rw [chunksLeft_eq_sum, chunksLeft_eq_sum, ← Finset.add_sum_erase _ _ (Finset.mem_univ i),
    ← Finset.add_sum_erase _ (fun j => if (s.cell j).left = true then 1 else 0)
      (Finset.mem_univ i), hrest]
  omega

/-- Cells that leave the same leave as many. Source: `ChunkManager::chunksLeft`. Kind: L -/
theorem chunksLeft_congr (h : ∀ j, (t.cell j).left = (s.cell j).left) :
    t.chunksLeft = s.chunksLeft := by
  rw [chunksLeft_eq_sum, chunksLeft_eq_sum]
  apply Finset.sum_congr rfl
  intro j _
  rw [h j]

end counting

end ChunkManager

end KTorrent.Storage
