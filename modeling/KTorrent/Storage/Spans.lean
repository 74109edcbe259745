import KTorrent.Storage.CacheFiles

/-!
# How a chunk is cut into files

Chunk `c` is the range of bytes from `chunkStart` to `chunkEnd`. `clip c x` is how much of the chunk
lies before byte `x`, so file `j` has the bytes `clip c (offset j) ..< clip c (offset (j + 1))` of
it. In the list of the files of a chunk these spans follow each other without a gap: the first one
begins at 0 (`clip_first`), each next one where the one before ends (`clip_next`), and the last one
ends with the chunk (`clip_last`). The amounts and positions that the source computes for the first,
the middle and the last file are these spans (`amount_eq`, `position_eq`).

Source: `torrent/multifilecache.cpp`, `torrent/torrentfile.cpp`
-/

namespace KTorrent.Storage

open KTorrent.Util

namespace Layout

variable (L : Layout)

/-- Where chunk `c` starts. Kind: D -/
def chunkStart (c : ℕ) : ℕ := c * L.piece_length

/-- Where chunk `c` ends. Kind: D -/
def chunkEnd (c : ℕ) : ℕ := min ((c + 1) * L.piece_length) L.file_length

/-- How many bytes of chunk `c` lie before byte `x`. Kind: D -/
def clip (c x : ℕ) : ℕ := min (max x (L.chunkStart c)) (L.chunkEnd c) - L.chunkStart c

/-- The number of bytes of chunk `c`. Kind: D -/
def bytesOf (c : ℕ) : ℕ := L.chunkEnd c - L.chunkStart c

variable {L} {c : ℕ}

/-- No chunk is empty. Source: `torrent/multifilecache.cpp`, `torrent/torrentfile.cpp`. Kind: L -/
theorem chunkStart_lt_end (hc : c < L.numChunks) : L.chunkStart c < L.chunkEnd c := by
  have h1 := L.mul_lt_of_lt_numChunks hc
  have h2 := L.piece_pos
  unfold chunkStart chunkEnd
  rw [Nat.succ_mul]
  omega

/-- A chunk ends inside the torrent. Source: `torrent/multifilecache.cpp`,
`torrent/torrentfile.cpp`. Kind: L -/
theorem chunkEnd_le : L.chunkEnd c ≤ L.file_length := min_le_right _ _

/-- Positions clipped to a chunk keep their order. Source: none: infrastructure. Kind: L -/
theorem clip_mono {x y : ℕ} (h : x ≤ y) : L.clip c x ≤ L.clip c y := by
  unfold clip
  omega

/-- They lie in it. Source: `torrent/multifilecache.cpp`, `torrent/torrentfile.cpp`. Kind: L -/
theorem clip_le (x : ℕ) : L.clip c x ≤ L.bytesOf c := by
  unfold clip bytesOf
  omega

/-- What lies before a chunk is clipped to its start. Source: `torrent/multifilecache.cpp`,
`torrent/torrentfile.cpp`. Kind: L -/
theorem clip_of_le {x : ℕ} (h : x ≤ L.chunkStart c) : L.clip c x = 0 := by
  unfold clip
  omega

/-- What lies behind it, to its end. Source: `torrent/multifilecache.cpp`,
`torrent/torrentfile.cpp`. Kind: L -/
theorem clip_of_ge {x : ℕ} (h : L.chunkEnd c ≤ x) : L.clip c x = L.bytesOf c := by
  unfold clip bytesOf
  omega

/-- All but the last chunk are whole. Source: `torrent/multifilecache.cpp`,
`torrent/torrentfile.cpp`. Kind: L -/
theorem bytesOf_of_succ_lt (h : c + 1 < L.numChunks) : L.bytesOf c = L.piece_length := by
  have hnext := L.mul_lt_of_lt_numChunks h
  unfold bytesOf chunkEnd chunkStart
  rw [Nat.succ_mul] at hnext ⊢
  omega

/-- The last one reaches the end. Source: `torrent/multifilecache.cpp`, `torrent/torrentfile.cpp`.
Kind: L -/
theorem length_le_of_last (h : c + 1 = L.numChunks) :
    L.file_length ≤ (c + 1) * L.piece_length := by
  have hdiv : (L.file_length + L.piece_length - 1) / L.piece_length < c + 2 := by
    rw [← L.hashes]
    show L.numChunks < c + 2
    omega
  have hlt := (Nat.div_lt_iff_lt_mul L.piece_pos).mp hdiv
  have hpos := L.piece_pos
  rw [Nat.succ_mul] at hlt
  omega

/-- The last chunk is full, or has what is left. Source: `torrent/multifilecache.cpp`,
`torrent/torrentfile.cpp`. Kind: L -/
theorem bytesOf_last (h : c + 1 = L.numChunks) :
    L.bytesOf c = if L.file_length % L.piece_length = 0 then L.piece_length
      else L.file_length % L.piece_length := by
  have hlt : c * L.piece_length < L.file_length := L.mul_lt_of_lt_numChunks (by omega)
  have hle := length_le_of_last h
  have hbytes : L.bytesOf c = L.file_length - c * L.piece_length := by
    unfold bytesOf chunkEnd chunkStart
    rw [min_eq_right hle]
  rw [Nat.succ_mul] at hle
  obtain ⟨b, hb⟩ := Nat.exists_eq_add_of_lt hlt
  rw [hbytes]
  rcases Nat.lt_or_ge (b + 1) L.piece_length with hb1 | hb1
  · have hmod : L.file_length % L.piece_length = b + 1 := by
      rw [hb, Nat.add_assoc, Nat.mul_comm, Nat.mul_add_mod, Nat.mod_eq_of_lt hb1]
    rw [hmod, if_neg (Nat.succ_ne_zero b)]
    omega
  · have hmod : L.file_length % L.piece_length = 0 := by
      have hfull : L.file_length = (c + 1) * L.piece_length := by
        rw [Nat.succ_mul]
        omega
      rw [hfull, Nat.mul_mod_left]
    rw [hmod, if_pos rfl]
    omega

/-- The size the source gives a chunk is its number of bytes, in 32 bits.
Source: `ChunkManager::ChunkManager`. Kind: L -/
theorem chunkSize_eq (hc : c < L.numChunks) : ChunkManager.chunkSize L c = u32 (L.bytesOf c) := by
  have hlt := L.length_lt
  have hmul := L.mul_lt_of_lt_numChunks hc
  unfold ChunkManager.chunkSize
  congr 1
  split_ifs with h
  · rw [bytesOf_of_succ_lt h]
  · have hlast : c = L.numChunks - 1 := by omega
    have hle := length_le_of_last (show c + 1 = L.numChunks by omega)
    unfold bytesOf chunkEnd chunkStart
    rw [min_eq_right hle, ← hlast, Nat.mul_comm L.piece_length, u64_of_lt (by omega),
      sub64_of_le (by omega) hlt]

/-- The data ends with the last file. Source: `torrent/multifilecache.cpp`,
`torrent/torrentfile.cpp`. Kind: L -/
theorem offset_length (h : L.files ≠ []) : L.offset L.files.length = L.file_length := by
  rw [← L.tiles h]
  simp [offset]

/-- A file has a byte in the chunk when its span is not empty. Source: `torrent/multifilecache.cpp`,
`torrent/torrentfile.cpp`. Kind: L -/
theorem overlaps_iff_clip {j : ℕ} (hc : c < L.numChunks) (hj : j < L.files.length) :
    L.Overlaps c j ↔ L.clip c (L.offset j) < L.clip c (L.offset (j + 1)) := by
  have hlt := chunkStart_lt_end hc
  have hp := L.piece_pos
  have hfile := L.offset_add_size_le hj
  rw [L.offset_succ hj]
  have hiff : L.Overlaps c j ↔ ∃ b, L.offset j ≤ b ∧ b < L.offset j + L.files[j].size ∧
      L.chunkStart c ≤ b ∧ b < L.chunkEnd c := by
    constructor
    · rintro ⟨_, b, h1, h2, rfl⟩
      have h3 := Nat.div_add_mod b L.piece_length
      have h4 := Nat.mod_lt b hp
      have h5 := Nat.mul_comm L.piece_length (b / L.piece_length)
      refine ⟨b, h1, h2, ?_, ?_⟩
      · unfold chunkStart
        omega
      · unfold chunkEnd
        rw [Nat.succ_mul]
        omega
    · rintro ⟨b, h1, h2, h3, h4⟩
      refine ⟨hj, b, h1, h2, Nat.div_eq_of_lt_le h3 ?_⟩
      exact lt_of_lt_of_le h4 (min_le_left _ _)
  rw [hiff]
  constructor
  · rintro ⟨b, h1, h2, h3, h4⟩
    unfold clip
    omega
  · intro h
    refine ⟨max (L.offset j) (L.chunkStart c), ?_⟩
    unfold clip at h
    omega

/-- Files without a byte in the chunk do not move along in it. Source: `torrent/multifilecache.cpp`,
`torrent/torrentfile.cpp`. Kind: L -/
theorem clip_eq_of_not_overlaps (hc : c < L.numChunks) {a b : ℕ} (hab : a ≤ b)
    (hb : b ≤ L.files.length) (h : ∀ k, a ≤ k → k < b → ¬ L.Overlaps c k) :
    L.clip c (L.offset a) = L.clip c (L.offset b) := by
  obtain ⟨d, rfl⟩ := Nat.exists_eq_add_of_le hab
  induction d with
  | zero => rfl
  | succ d ih =>
    have hd := ih (by omega) (by omega) fun k h1 h2 => h k h1 (by omega)
    have hnot := h (a + d) (by omega) (by omega)
    rw [overlaps_iff_clip hc (by omega), not_lt] at hnot
    rw [hd]
    exact le_antisymm (clip_mono (L.offset_mono (by omega))) hnot

/-! ### The list of the files of a chunk -/

/-- Files have their indices in order. Source: `torrent/torrent.cpp`. Kind: L -/
theorem sorted_makeFiles (cs : ℕ) (fs : List FileSpec) (idx off : ℕ) :
    ((makeFiles cs idx off fs).map TorrentFile.index).Pairwise (· < ·) ∧
      ∀ k ∈ (makeFiles cs idx off fs).map TorrentFile.index, idx ≤ k := by
  induction fs generalizing idx off with
  | nil => simp [makeFiles]
  | cons f fs ih =>
    obtain ⟨h1, h2⟩ := ih (idx + 1) (off + f.size)
    simp only [makeFiles, List.map_cons, List.pairwise_cons, List.mem_cons]
    refine ⟨⟨fun k hk => ?_, h1⟩, fun k hk => ?_⟩
    · exact lt_of_lt_of_le (Nat.lt_succ_self idx) (h2 k hk)
    · rcases hk with rfl | hk
      · exact le_rfl
      · exact le_trans (Nat.le_succ idx) (h2 k hk)

/-- **`calcChunkPos` names the files in order.**. Source: `torrent/torrent.cpp`,
`Torrent::calcChunkPos`. Kind: P -/
theorem sorted_calcChunkPos (L : Layout) (c : ℕ) :
    (L.torrent.calcChunkPos c).Pairwise (· < ·) := by
  unfold Torrent.calcChunkPos
  split_ifs
  · exact List.Pairwise.nil
  · exact List.Pairwise.sublist (List.filter_sublist.map _)
      (sorted_makeFiles L.piece_length L.files 0 0).1

/-- **A list that walks through a chunk**: files in order, among them all that have a byte of the
chunk, and otherwise only empty ones that stand in it. Kind: D -/
structure Covers (L : Layout) (c : ℕ) (ks : List ℕ) : Prop where
  sorted : ks.Pairwise (· < ·)
  complete : ∀ k, L.Overlaps c k → k ∈ ks
  near : ∀ k ∈ ks, k < L.files.length ∧ L.first k ≤ c ∧ c ≤ L.last k

/-- The files of a chunk walk through it. Source: `torrent/torrent.cpp`, `Torrent::calcChunkPos`.
Kind: L -/
theorem covers_calcChunkPos (L : Layout) (c : ℕ) : L.Covers c (L.torrent.calcChunkPos c) where
  sorted := sorted_calcChunkPos L c
  complete := fun _ h => L.mem_calcChunkPos_iff.mpr h
  near := by
    intro k hk
    have hover := L.mem_calcChunkPos_iff.mp hk
    exact ⟨hover.1, ((L.overlaps_iff hover.1).mp hover).2⟩

section split

variable {pre post : List ℕ} {j : ℕ}

namespace Covers

/-- What a place in the list says about the files around it. Source: `torrent/multifilecache.cpp`,
`torrent/torrentfile.cpp`. Kind: L -/
theorem split (h : L.Covers c (pre ++ j :: post)) :
    j < L.files.length ∧ (∀ k, L.Overlaps c k → k ∈ pre ∨ k = j ∨ k ∈ post) ∧
      (∀ k ∈ pre, k < j) ∧ ∀ k ∈ post, j < k := by
  have hsorted := h.sorted
  rw [List.pairwise_append, List.pairwise_cons] at hsorted
  refine ⟨(h.near j (by simp)).1, fun k hk => by simpa using h.complete k hk, fun k hk => ?_, ?_⟩
  · exact hsorted.2.2 k hk j List.mem_cons_self
  · exact hsorted.2.1.1

/-- A file of the list does not end before the chunk. Source: `torrent/multifilecache.cpp`,
`torrent/torrentfile.cpp`. Kind: L -/
theorem start_le {ks : List ℕ} (h : L.Covers c ks) {k : ℕ} (hk : k ∈ ks) :
    L.chunkStart c ≤ L.offset (k + 1) := by
  obtain ⟨hlt, -, hlast⟩ := h.near k hk
  have hsucc := L.offset_succ hlt
  rw [L.last_eq hlt] at hlast
  split_ifs at hlast
  · have hle := (Nat.le_div_iff_mul_le L.piece_pos).mp hlast
    unfold chunkStart
    omega
  · have hle := (Nat.le_div_iff_mul_le L.piece_pos).mp hlast
    unfold chunkStart
    omega

/-- Nor does it begin behind it. Source: `torrent/multifilecache.cpp`, `torrent/torrentfile.cpp`.
Kind: L -/
theorem le_end {ks : List ℕ} (h : L.Covers c ks) {k : ℕ} (hk : k ∈ ks) :
    L.offset k ≤ L.chunkEnd c := by
  obtain ⟨hlt, hfirst, -⟩ := h.near k hk
  have hfile := L.offset_le hlt
  rw [L.first_eq hlt] at hfirst
  have hle := (Nat.div_lt_iff_lt_mul L.piece_pos).mp (Nat.lt_succ_of_le hfirst)
  unfold chunkEnd
  rw [Nat.succ_eq_add_one] at hle
  omega

/-- **The first span begins with the chunk.**. Source: `torrent/multifilecache.cpp`,
`torrent/torrentfile.cpp`. Kind: L -/
theorem clip_first (hc : c < L.numChunks) (h : L.Covers c (j :: post)) :
    L.clip c (L.offset j) = 0 := by
  obtain ⟨hj, hall, -, hpost⟩ := split (show L.Covers c ([] ++ j :: post) from h)
  have hzero : L.clip c (L.offset 0) = L.clip c (L.offset j) := by
    refine clip_eq_of_not_overlaps hc (by omega) hj.le fun k _ hk hover => ?_
    rcases hall k hover with hk' | rfl | hk'
    · exact absurd hk' List.not_mem_nil
    · omega
    · exact absurd (hpost k hk') (by omega)
  rw [← hzero]
  exact clip_of_le (by simp [offset])

/-- **Each span begins where the one before ends.**. Source: `torrent/multifilecache.cpp`,
`torrent/torrentfile.cpp`. Kind: L -/
theorem clip_next (hc : c < L.numChunks) {j' : ℕ} (h : L.Covers c (pre ++ j :: j' :: post)) :
    L.clip c (L.offset (j + 1)) = L.clip c (L.offset j') := by
  obtain ⟨hj, hall, hpre, hpost⟩ := h.split
  have h' : L.Covers c ((pre ++ [j]) ++ j' :: post) := by simpa using h
  obtain ⟨hj', -, -, hpost'⟩ := h'.split
  refine clip_eq_of_not_overlaps hc (hpost j' (by simp)) hj'.le fun k h1 h2 hover => ?_
  rcases hall k hover with hk | rfl | hk
  · exact absurd (hpre k hk) (by omega)
  · omega
  · rcases List.mem_cons.mp hk with rfl | hk
    · omega
    · exact absurd (hpost' k hk) (by omega)

/-- **The last span ends with the chunk.**. Source: `torrent/multifilecache.cpp`,
`torrent/torrentfile.cpp`. Kind: L -/
theorem clip_last (hc : c < L.numChunks) (h : L.Covers c (pre ++ [j])) :
    L.clip c (L.offset (j + 1)) = L.bytesOf c := by
  obtain ⟨hj, hall, hpre, -⟩ := h.split
  have hend : L.clip c (L.offset (j + 1)) = L.clip c (L.offset L.files.length) := by
    refine clip_eq_of_not_overlaps hc (by omega) le_rfl fun k h1 _ hover => ?_
    rcases hall k hover with hk | rfl | hk
    · exact absurd (hpre k hk) (by omega)
    · omega
    · exact absurd hk List.not_mem_nil
  rw [hend, offset_length (by rintro h0; simp [h0] at hj)]
  exact clip_of_ge chunkEnd_le

end Covers

/-- What a place in the list of the files of a chunk says about the files around it.
Source: `torrent/multifilecache.cpp`, `torrent/torrentfile.cpp`. Kind: L -/
theorem overlaps_split (h : L.torrent.calcChunkPos c = pre ++ j :: post) :
    L.Overlaps c j ∧ (∀ k, L.Overlaps c k → k ∈ pre ∨ k = j ∨ k ∈ post) ∧
      (∀ k ∈ pre, L.Overlaps c k ∧ k < j) ∧ ∀ k ∈ post, L.Overlaps c k ∧ j < k := by
  have hmem : ∀ k ∈ pre ++ j :: post, L.Overlaps c k := fun k hk =>
    L.mem_calcChunkPos_iff.mp (h ▸ hk)
  obtain ⟨-, hall, hpre, hpost⟩ := Covers.split (h ▸ covers_calcChunkPos L c)
  refine ⟨hmem j (by simp), hall, fun k hk => ⟨hmem k ?_, hpre k hk⟩, fun k hk =>
    ⟨hmem k ?_, hpost k hk⟩⟩
  · exact List.mem_append_left _ hk
  · exact List.mem_append_right _ (List.mem_cons_of_mem j hk)

/-- A file of a chunk is one of the torrent's. Source: `torrent/multifilecache.cpp`,
`torrent/torrentfile.cpp`. Kind: L -/
theorem lt_of_split (h : L.torrent.calcChunkPos c = pre ++ j :: post) : j < L.files.length :=
  (overlaps_split h).1.1

/-- The first file of a chunk begins before it. Source: `torrent/multifilecache.cpp`,
`torrent/torrentfile.cpp`. Kind: L -/
theorem clip_first (hc : c < L.numChunks) (h : L.torrent.calcChunkPos c = j :: post) :
    L.clip c (L.offset j) = 0 :=
  Covers.clip_first hc (h ▸ covers_calcChunkPos L c)

/-- One file of a chunk ends where the next begins. Source: `torrent/multifilecache.cpp`,
`torrent/torrentfile.cpp`. Kind: L -/
theorem clip_next (hc : c < L.numChunks) {j' : ℕ}
    (h : L.torrent.calcChunkPos c = pre ++ j :: j' :: post) :
    L.clip c (L.offset (j + 1)) = L.clip c (L.offset j') :=
  Covers.clip_next hc (h ▸ covers_calcChunkPos L c)

/-- The last file of a chunk ends behind it. Source: `torrent/multifilecache.cpp`,
`torrent/torrentfile.cpp`. Kind: L -/
theorem clip_last (hc : c < L.numChunks) (h : L.torrent.calcChunkPos c = pre ++ [j]) :
    L.clip c (L.offset (j + 1)) = L.bytesOf c :=
  Covers.clip_last hc (h ▸ covers_calcChunkPos L c)

end split

/-! ### The amounts and positions of the source -/

/-- A file's size is the distance of the offsets. Source: `Torrent::getFile`. Kind: L -/
theorem size_getFile {j : ℕ} (h : j < L.files.length) :
    (L.getFile j).size = L.offset (j + 1) - L.offset j := by
  rw [L.getFile_eq h, L.offset_succ h, Nat.add_sub_cancel_left]
  rfl

/-- Offsets fit in 64 bits. Source: `torrent/multifilecache.cpp`, `torrent/torrentfile.cpp`.
Kind: L -/
theorem offset_lt_length {j : ℕ} (h : j < L.files.length) : L.offset (j + 1) < 2 ^ 64 := by
  rw [L.offset_succ h]
  exact lt_of_le_of_lt (L.offset_add_size_le h) L.length_lt

/-- How much of a file lies in its last chunk, without truncation.
Source: `torrent/multifilecache.cpp`, `torrent/torrentfile.cpp`. Kind: L -/
theorem last_chunk_size_eq {j : ℕ} (h : j < L.files.length) :
    (L.getFile j).last_chunk_size = L.offset (j + 1) - L.last j * L.piece_length := by
  have hlt := offset_lt_length h
  have hlast : L.last j * L.piece_length ≤ L.offset (j + 1) := by
    rw [L.last_eq h, ← Nat.le_div_iff_mul_le L.piece_pos, L.offset_succ h]
    split_ifs
    · exact Nat.div_le_div_right (by omega)
    · exact Nat.div_le_div_right (by omega)
  have hdef : (L.getFile j).last_chunk_size =
      sub64 (u64 (L.offset (j + 1))) (u64 (L.last j * L.piece_length)) := by
    rw [L.offset_succ h, last, L.getFile_eq h]
    rfl
  rw [hdef, u64_of_lt hlt, u64_of_lt (by omega), sub64_of_le hlast hlt]

/-- The offset into the first chunk is a remainder. Source: `torrent/multifilecache.cpp`,
`torrent/torrentfile.cpp`. Kind: L -/
theorem first_chunk_off_eq {j : ℕ} (h : j < L.files.length) :
    (L.getFile j).first_chunk_off = L.offset j % L.piece_length := by
  rw [L.getFile_eq h]
  rfl

/-- **The source's offset into a file**: the distance of the chunk from the file's start, when the
file begins no later than the chunk. Source: `torrent/torrentfile.cpp`, `TorrentFile::fileOffset`.
Kind: L -/
theorem fileOffset_eq {j : ℕ} (hc : c < L.numChunks) (h : j < L.files.length)
    (hle : L.offset j ≤ L.chunkStart c) :
    (L.getFile j).fileOffset c L.piece_length = L.chunkStart c - L.offset j := by
  have hp := L.piece_pos
  have hlt := L.length_lt
  have hcl := L.mul_lt_of_lt_numChunks hc
  have hc32 : c < 2 ^ 32 := lt_of_lt_of_le hc L.chunks_lt.le
  have hfirst : (L.getFile j).first_chunk = L.offset j / L.piece_length := L.first_eq h
  have hoff := first_chunk_off_eq h
  have hdiv := Nat.div_add_mod (L.offset j) L.piece_length
  have hmod := Nat.mod_lt (L.offset j) hp
  unfold chunkStart at hle ⊢
  have hfc : L.offset j / L.piece_length ≤ c := by
    rw [← Nat.mul_div_cancel c hp]
    exact Nat.div_le_div_right hle
  unfold TorrentFile.fileOffset
  rw [hfirst, hoff, sub32_of_le hfc hc32]
  obtain ⟨d, rfl⟩ := Nat.exists_eq_add_of_le hfc
  set q := L.offset j / L.piece_length with hq
  have hcomm := Nat.mul_comm L.piece_length q
  rw [Nat.add_mul] at hle hcl ⊢
  rw [Nat.add_sub_cancel_left]
  dsimp only
  by_cases h0 : L.offset j % L.piece_length = 0
  · rw [if_pos h0, u64_of_lt (by omega)]
    omega
  · rw [if_neg h0]
    cases d with
    | zero => omega
    | succ e =>
      -- the chunk is not the file's first: the chunks between, and before them the first one's part
      have hp64 := L.piece_lt
      have hpred : sub32 (e + 1) 1 = e := by
        rw [sub32_of_le (by omega) (by omega), Nat.add_sub_cancel]
      rw [Nat.add_mul, Nat.one_mul] at hle hcl ⊢
      rw [if_pos (Nat.succ_pos e), if_pos (by omega), hpred, sub64_of_le hmod.le hp64,
        u64_of_lt (show e * L.piece_length < 2 ^ 64 by omega), u64_of_lt (by omega)]
      omega

section amounts

variable {pre post : List ℕ} {j : ℕ}

/-- A file that is not the first of a chunk begins in it. Source: `torrent/multifilecache.cpp`,
`torrent/torrentfile.cpp`. Kind: L -/
theorem start_lt_offset (hc : c < L.numChunks) (h : L.torrent.calcChunkPos c = pre ++ j :: post)
    (hpre : pre ≠ []) : L.chunkStart c < L.offset j := by
  obtain ⟨k, hk⟩ := List.exists_mem_of_ne_nil pre hpre
  obtain ⟨-, -, hbefore, -⟩ := overlaps_split h
  obtain ⟨hover, hkj⟩ := hbefore k hk
  have hclip := (overlaps_iff_clip hc hover.1).mp hover
  have hmono := L.offset_mono (show k + 1 ≤ j by omega)
  have hlt := chunkStart_lt_end hc
  unfold clip at hclip
  omega

namespace Covers

/-- A file that is not the first of the list begins in the chunk.
Source: `torrent/multifilecache.cpp`, `torrent/torrentfile.cpp`. Kind: L -/
theorem start_le_offset (h : L.Covers c (pre ++ j :: post)) (hpre : pre ≠ []) :
    L.chunkStart c ≤ L.offset j := by
  obtain ⟨k, hk⟩ := List.exists_mem_of_ne_nil pre hpre
  have hkj := h.split.2.2.1 k hk
  have hmono := L.offset_mono (show k + 1 ≤ j by omega)
  exact (h.start_le (List.mem_append_left _ hk)).trans hmono

/-- A file that is not the last of the list ends in the chunk. Source: `torrent/multifilecache.cpp`,
`torrent/torrentfile.cpp`. Kind: L -/
theorem offset_le_end (h : L.Covers c (pre ++ j :: post)) (hpost : post ≠ []) :
    L.offset (j + 1) ≤ L.chunkEnd c := by
  obtain ⟨k, hk⟩ := List.exists_mem_of_ne_nil post hpost
  have hjk := h.split.2.2.2 k hk
  have hmono := L.offset_mono (show j + 1 ≤ k by omega)
  exact hmono.trans (h.le_end (List.mem_append_right _ (List.mem_cons_of_mem j hk)))

/-- A file of the list that ends in the chunk has it as its last.
Source: `torrent/multifilecache.cpp`, `torrent/torrentfile.cpp`. Kind: L -/
theorem last_eq (h : L.Covers c (pre ++ j :: post)) (hend : L.offset (j + 1) ≤ L.chunkEnd c) :
    L.last j = c := by
  obtain ⟨hj, hfirst, hlast⟩ := h.near j (by simp)
  have hsucc := L.offset_succ hj
  refine le_antisymm ?_ hlast
  by_cases hsize : L.files[j].size > 0
  · have hend' : L.offset (j + 1) ≤ (c + 1) * L.piece_length := hend.trans (min_le_left _ _)
    rw [L.last_eq hj, if_pos hsize, ← Nat.lt_succ_iff, Nat.div_lt_iff_lt_mul L.piece_pos]
    show _ < (c + 1) * L.piece_length
    omega
  · rw [L.last_eq hj, if_neg hsize, ← L.first_eq hj]
    exact hfirst

/-- **The amounts are the spans.**. Source: `MultiFileCache::save` and `MultiFileCache::load`.
Kind: P -/
theorem amount_eq (hc : c < L.numChunks) (hsize : L.bytesOf c < 2 ^ 32)
    (h : L.Covers c (pre ++ j :: post)) :
    CacheFiles.amount (L.bytesOf c) (pre ++ j :: post).length pre.length (L.clip c (L.offset j))
      (L.getFile j) = L.clip c (L.offset (j + 1)) - L.clip c (L.offset j) := by
  obtain ⟨hj, -⟩ := h.split
  have hlt := chunkStart_lt_end hc
  have hmono := L.offset_mono (show j ≤ j + 1 by omega)
  have hafter := h.start_le (k := j) (by simp)
  have hcount : (pre ++ j :: post).length = pre.length + 1 + post.length := by
    rw [List.length_append, List.length_cons]
    omega
  have hle := clip_le (L := L) (c := c) (L.offset (j + 1))
  unfold CacheFiles.amount
  rw [hcount]
  rcases post with _ | ⟨j', js⟩
  · -- the last file takes the rest
    rw [clip_last hc h]
    rcases pre with _ | ⟨k, ks⟩
    · rw [if_pos (by simp), clip_first hc h, Nat.sub_zero]
    · rw [if_neg (by simp), if_neg (by simp), if_pos (by simp)]
      have hle := clip_le (L := L) (c := c) (L.offset j)
      rw [sub64_of_le hle (by omega), u32_of_lt (by omega)]
  · have hend := h.offset_le_end (by simp)
    rcases pre with _ | ⟨k, ks⟩
    · -- the first file of several gives its tail
      have hspan : L.clip c (L.offset (j + 1)) = L.offset (j + 1) - c * L.piece_length := by
        unfold clip chunkStart at *
        omega
      rw [if_neg (by simp), if_pos (by simp), clip_first hc h, Nat.sub_zero,
        last_chunk_size_eq hj, h.last_eq hend, ← hspan, u32_of_lt (by omega)]
    · -- a file in the middle lies in the chunk with all its bytes
      have hstart := h.start_le_offset (by simp)
      have hspan : L.clip c (L.offset (j + 1)) - L.clip c (L.offset j) =
          L.offset (j + 1) - L.offset j := by
        unfold clip
        omega
      rw [if_neg (by simp; omega), if_neg (by simp), if_neg (by simp; omega), size_getFile hj,
        hspan, u32_of_lt (by omega)]

/-- **The positions are the spans' places in the files.**. Source: `MultiFileCache::save` and
`MultiFileCache::load`. Kind: P -/
theorem position_eq (hc : c < L.numChunks) (h : L.Covers c (pre ++ j :: post)) :
    L.offset j + CacheFiles.position L.piece_length c pre.length (L.getFile j) =
      L.chunkStart c + L.clip c (L.offset j) := by
  obtain ⟨hj, -⟩ := h.split
  have hlt := chunkStart_lt_end hc
  unfold CacheFiles.position
  rcases pre with _ | ⟨k, ks⟩
  · have hzero := clip_first hc h
    have hle : L.offset j ≤ L.chunkStart c := by
      unfold clip at hzero
      omega
    rw [if_pos (by simp), fileOffset_eq hc hj hle, hzero]
    omega
  · have hstart := h.start_le_offset (by simp)
    have hend := h.le_end (k := j) (by simp)
    rw [if_neg (by simp)]
    unfold clip
    omega

end Covers

/-- The source's part of a file in a chunk is the clipped one. Source: `MultiFileCache::save` and
`MultiFileCache::load`. Kind: L -/
theorem amount_eq (hc : c < L.numChunks) (hsize : L.bytesOf c < 2 ^ 32)
    (h : L.torrent.calcChunkPos c = pre ++ j :: post) :
    CacheFiles.amount (L.bytesOf c) (L.torrent.calcChunkPos c).length pre.length
        (L.clip c (L.offset j)) (L.getFile j) =
      L.clip c (L.offset (j + 1)) - L.clip c (L.offset j) := by
  rw [h]
  exact Covers.amount_eq hc hsize (h ▸ covers_calcChunkPos L c)

/-- The position in a file is where the chunk's part begins. Source: `MultiFileCache::save` and
`MultiFileCache::load`. Kind: L -/
theorem position_eq (hc : c < L.numChunks) (h : L.torrent.calcChunkPos c = pre ++ j :: post) :
    L.offset j + CacheFiles.position L.piece_length c pre.length (L.getFile j) =
      L.chunkStart c + L.clip c (L.offset j) :=
  Covers.position_eq hc (h ▸ covers_calcChunkPos L c)

end amounts

end Layout

end KTorrent.Storage
