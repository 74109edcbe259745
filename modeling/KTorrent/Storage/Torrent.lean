import KTorrent.Util.Word
import Mathlib.Algebra.BigOperators.Group.List.Basic
import Mathlib.Tactic.Linarith

/-!
# Files, torrents and layouts

* `Priority` and its numeric values (`util/constants.h`), compared as the source compares the enum.
* `TorrentFile` — the fields the constructor computes from the file's offset and size: first and
  last chunk, and how much of them belongs to the file. The fields that change while a torrent runs
  (`priority`, `old_priority`, …) are kept apart, in `FileSelection`.
* `Torrent` — what the storage side reads of a loaded torrent; `Torrent.calcChunkPos` is the list
  of the files a chunk lies in.
* `Layout` — a torrent whose numbers fit together, with that fact as fields: positive piece length,
  one hash for each chunk, files that tile the data. `Layout.torrent` builds the `Torrent` with the
  source's constructor, and the `Layout.*` lemmas say where its files lie: file `k` occupies the
  bytes from `offset k` on, the truncations to 32 and 64 bits never act, and `calcChunkPos` names
  exactly the files that own a byte of the chunk (`mem_calcChunkPos_iff`).

Source: `torrent/torrent.h`, `torrent/torrent.cpp`, `torrent/torrentfile.cpp`
-/

namespace KTorrent.Storage

open KTorrent.Util

/-- A text. -/
abbrev TQString := List Char

/-- Twenty bytes. Source: `util/sha1hash.h`, `SHA1Hash`. Kind: D -/
abbrev SHA1Hash := Vector UInt8 20

/-- Source: `util/constants.h`, `Priority`. Kind: D -/
inductive Priority
  | preview
  | first
  | normal
  | last
  | onlySeed
  | excluded
deriving DecidableEq, Repr

namespace Priority

/-- The value of the enumerator. Source: `util/constants.h`. Kind: D -/
def value : Priority → ℕ
  | preview => 60
  | first => 50
  | normal => 40
  | last => 30
  | onlySeed => 20
  | excluded => 10

end Priority

/-- The part of a `TorrentFile` that changes while the torrent runs.
Source: `torrent/torrentfile.h`; the initial values are those of the constructor. Kind: D -/
structure FileSelection where
  priority : Priority := .normal
  old_priority : Priority := .normal
  m_emitDlStatusChanged : Bool := true
deriving DecidableEq, Repr

/-- Source: `TorrentFile::doNotDownload`. Kind: D -/
def FileSelection.doNotDownload (f : FileSelection) : Bool := f.priority = .excluded

/-- A file of a multi-file torrent. `multimedia` is what `isMultimedia` answers for the path.
Source: `torrent/torrentfile.h`, `TorrentFile`. Kind: D -/
structure TorrentFile where
  index : ℕ
  path : TQString
  size : ℕ
  cache_offset : ℕ
  first_chunk : ℕ
  first_chunk_off : ℕ
  last_chunk : ℕ
  last_chunk_size : ℕ
  multimedia : Bool
deriving DecidableEq, Repr

/-- Source: `torrent/torrentfile.cpp`, `TorrentFile::TorrentFile(Uint32, const TQString &, Uint64,
Uint64, Uint64)`. The chunk numbers are `Uint32`, everything else `Uint64`. Kind: D -/
def TorrentFile.make (index : ℕ) (path : TQString) (off size chunk_size : ℕ) (multimedia : Bool) :
    TorrentFile :=
  let first_chunk := u32 (off / chunk_size)
  let last_chunk :=
    if size > 0 then u32 (sub64 (u64 (off + size)) 1 / chunk_size) else first_chunk
  { index := index
    path := path
    size := size
    cache_offset := off
    first_chunk := first_chunk
    first_chunk_off := off % chunk_size
    last_chunk := last_chunk
    last_chunk_size := sub64 (u64 (off + size)) (u64 (last_chunk * chunk_size))
    multimedia := multimedia }

/-- The test `calcChunkPos` makes on one file. Source: `Torrent::calcChunkPos`. Kind: D -/
def TorrentFile.holds (f : TorrentFile) (chunk : ℕ) : Bool :=
  decide (chunk ≥ f.first_chunk) && decide (chunk ≤ f.last_chunk) && decide (f.size ≠ 0)

/-- What the storage side reads of a torrent. `multimedia` is what `isMultimedia` answers for the
suggested name. Source: `torrent/torrent.h`, `Torrent`. Kind: D -/
structure Torrent where
  name_suggestion : TQString
  piece_length : ℕ
  file_length : ℕ
  hash_pieces : List SHA1Hash
  files : List TorrentFile
  multimedia : Bool
deriving DecidableEq

namespace Torrent

/-- Source: `Torrent::getNumChunks`. Kind: D -/
def getNumChunks (t : Torrent) : ℕ := t.hash_pieces.length

/-- Source: `Torrent::getNumFiles`. Kind: D -/
def getNumFiles (t : Torrent) : ℕ := t.files.length

/-- Source: `Torrent::isMultiFile`. Kind: D -/
def isMultiFile (t : Torrent) : Bool := decide (t.files.length > 0)

/-- Source: `torrent/torrent.cpp`, `Torrent::calcChunkPos`. Kind: D -/
def calcChunkPos (t : Torrent) (chunk : ℕ) : List ℕ :=
  if chunk ≥ t.hash_pieces.length ∨ t.files = [] then []
  else (t.files.filter fun f => f.holds chunk).map TorrentFile.index

/-- Source: `Torrent::getHash`, which throws for an index out of bounds (`none`). Kind: D -/
def getHash (t : Torrent) (idx : ℕ) : Option SHA1Hash := t.hash_pieces[idx]?

/-- Source: `torrent/torrent.cpp`, `Torrent::verifyHash`. Kind: D -/
def verifyHash (t : Torrent) (h : SHA1Hash) (index : ℕ) : Bool :=
  match t.hash_pieces[index]? with
  | none => false
  | some ph => ph = h

end Torrent

/-- A file as a torrent describes it. Kind: D -/
structure FileSpec where
  path : TQString
  size : ℕ
  multimedia : Bool
deriving DecidableEq, Repr

/-- The files of a torrent, each starting where the one before it ends.
Source: `torrent/torrent.cpp`, the loop of `Torrent::loadFiles`. Kind: D -/
def makeFiles (chunk_size : ℕ) : ℕ → ℕ → List FileSpec → List TorrentFile
  | _, _, [] => []
  | idx, off, f :: fs =>
      TorrentFile.make idx f.path off f.size chunk_size f.multimedia ::
        makeFiles chunk_size (idx + 1) (off + f.size) fs

/-- A torrent whose numbers fit together: no file list means a single-file torrent.
Source: the checks of `Torrent::loadInfo`. Kind: D -/
structure Layout where
  name : TQString
  piece_length : ℕ
  file_length : ℕ
  files : List FileSpec
  hash_pieces : List SHA1Hash
  multimedia : Bool
  piece_pos : 0 < piece_length
  piece_lt : piece_length < 2 ^ 64
  length_lt : file_length < 2 ^ 64
  /-- The files tile the data. -/
  tiles : files ≠ [] → (files.map FileSpec.size).sum = file_length
  /-- One hash for each chunk, the last one counting even when it is short. -/
  hashes : hash_pieces.length = (file_length + piece_length - 1) / piece_length
  chunks_lt : hash_pieces.length < 2 ^ 32

namespace Layout

/-- What the numbers of a layout have to be. Kind: D -/
def Agree (piece_length file_length : ℕ) (files : List FileSpec) (hash_pieces : List SHA1Hash) :
    Prop :=
  0 < piece_length ∧ piece_length < 2 ^ 64 ∧ file_length < 2 ^ 64 ∧
    (files ≠ [] → (files.map FileSpec.size).sum = file_length) ∧
    hash_pieces.length = (file_length + piece_length - 1) / piece_length ∧
    hash_pieces.length < 2 ^ 32

instance (piece_length file_length : ℕ) (files : List FileSpec) (hash_pieces : List SHA1Hash) :
    Decidable (Agree piece_length file_length files hash_pieces) :=
  inferInstanceAs (Decidable (_ ∧ _))

/-- A layout of numbers that agree. Kind: D -/
def checked (name : TQString) (piece_length file_length : ℕ) (files : List FileSpec)
    (hash_pieces : List SHA1Hash) (h : Agree piece_length file_length files hash_pieces) :
    Layout where
  name := name
  piece_length := piece_length
  file_length := file_length
  files := files
  hash_pieces := hash_pieces
  multimedia := false
  piece_pos := h.1
  piece_lt := h.2.1
  length_lt := h.2.2.1
  tiles := h.2.2.2.1
  hashes := h.2.2.2.2.1
  chunks_lt := h.2.2.2.2.2

/-- The torrent of a layout. Kind: D -/
def torrent (L : Layout) : Torrent where
  name_suggestion := L.name
  piece_length := L.piece_length
  file_length := L.file_length
  hash_pieces := L.hash_pieces
  files := makeFiles L.piece_length 0 0 L.files
  multimedia := L.multimedia

/-- The number of chunks. Kind: D -/
def numChunks (L : Layout) : ℕ := L.hash_pieces.length

/-- Where file `k` starts. Kind: D -/
def offset (L : Layout) (k : ℕ) : ℕ := ((L.files.take k).map FileSpec.size).sum

/-- File `k` of the torrent. Source: `Torrent::getFile`, whose null file outside the range is a
file of size zero. Kind: D -/
def getFile (L : Layout) (k : ℕ) : TorrentFile :=
  L.torrent.files.getD k (TorrentFile.make k [] 0 0 1 false)

end Layout

/-- The number of chunks as the source counts it, the short one last. Source: `torrent/torrent.h`,
`torrent/torrent.cpp`. Kind: L -/
theorem ceil_div (a : ℕ) {p : ℕ} (hp : 0 < p) :
    (a + p - 1) / p = a / p + if a % p > 0 then 1 else 0 := by
  have hdiv := Nat.div_add_mod a p
  have hmod := Nat.mod_lt a hp
  have hcomm := Nat.mul_comm p (a / p)
  split_ifs with h
  · apply Nat.div_eq_of_lt_le
    · rw [Nat.add_mul]
      omega
    · rw [Nat.add_mul, Nat.add_mul]
      omega
  · apply Nat.div_eq_of_lt_le
    · rw [Nat.add_zero]
      omega
    · rw [Nat.add_zero, Nat.add_mul]
      omega

/-! ### Where the files lie -/

section files

/-- A file is made for each. Source: `torrent/torrent.cpp`. Kind: L -/
theorem length_makeFiles (cs : ℕ) (fs : List FileSpec) (idx off : ℕ) :
    (makeFiles cs idx off fs).length = fs.length := by
  induction fs generalizing idx off with
  | nil => rfl
  | cons f fs ih => simp [makeFiles, ih]

/-- The `k`-th file is constructed at the sum of the sizes before it. Source: `torrent/torrent.cpp`.
Kind: L -/
theorem getElem?_makeFiles (cs : ℕ) (fs : List FileSpec) (idx off k : ℕ) :
    (makeFiles cs idx off fs)[k]? = fs[k]?.map fun f =>
      TorrentFile.make (idx + k) f.path (off + ((fs.take k).map FileSpec.size).sum) f.size cs
        f.multimedia := by
  induction fs generalizing idx off k with
  | nil => simp [makeFiles]
  | cons f fs ih =>
    cases k with
    | zero => simp [makeFiles]
    | succ k =>
      simp only [makeFiles, List.getElem?_cons_succ, ih, List.take_succ_cons, List.map_cons,
        List.sum_cons]
      congr 1
      funext g
      congr 1 <;> omega

namespace Layout

variable (L : Layout)

/-- The torrent has the layout's files. Source: `torrent/torrent.h`, `torrent/torrent.cpp`.
Kind: L -/
@[simp] theorem length_files : L.torrent.files.length = L.files.length :=
  length_makeFiles _ _ _ _

/-- A file of the torrent, by its number. Source: `torrent/torrentfile.cpp`. Kind: L -/
theorem getElem?_files (k : ℕ) : L.torrent.files[k]? = L.files[k]?.map fun f =>
    TorrentFile.make k f.path (L.offset k) f.size L.piece_length f.multimedia := by
  have h := getElem?_makeFiles L.piece_length L.files 0 0 k
  simp only [Nat.zero_add] at h
  exact h

/-- The offset of the next file. Source: `torrent/torrent.h`, `torrent/torrent.cpp`. Kind: L -/
theorem offset_succ {k : ℕ} (h : k < L.files.length) :
    L.offset (k + 1) = L.offset k + L.files[k].size := by
  rw [offset, List.take_succ_eq_append_getElem h, List.map_append, List.sum_append]
  simp [offset]

/-- Files follow each other. Source: none: infrastructure. Kind: L -/
theorem offset_mono {k l : ℕ} (h : k ≤ l) : L.offset k ≤ L.offset l := by
  obtain ⟨d, rfl⟩ := Nat.exists_eq_add_of_le h
  induction d with
  | zero => exact le_rfl
  | succ d ih =>
    by_cases hd : k + d < L.files.length
    · have := L.offset_succ hd
      have := ih (by omega)
      rw [show k + (d + 1) = k + d + 1 by omega]
      omega
    · have h1 : L.files.take (k + (d + 1)) = L.files.take (k + d) := by
        rw [List.take_of_length_le (by omega), List.take_of_length_le (by omega)]
      have := ih (by omega)
      simpa only [offset, h1] using this

/-- A file ends inside the data. Source: `torrent/torrent.h`, `torrent/torrent.cpp`. Kind: L -/
theorem offset_add_size_le {k : ℕ} (h : k < L.files.length) :
    L.offset k + L.files[k].size ≤ L.file_length := by
  rw [← L.offset_succ h]
  have h1 := L.offset_mono (show k + 1 ≤ L.files.length by omega)
  have h2 : L.offset L.files.length = L.file_length := by
    rw [← L.tiles (by rintro h0; simp [h0] at h)]
    simp [offset]
  omega

/-- A byte of the data lies in a chunk. Source: `torrent/torrent.h`, `torrent/torrent.cpp`.
Kind: L -/
theorem div_lt_numChunks {b : ℕ} (h : b < L.file_length) : b / L.piece_length < L.numChunks := by
  rw [numChunks, L.hashes, Nat.div_lt_iff_lt_mul L.piece_pos]
  have h1 := Nat.div_add_mod (L.file_length + L.piece_length - 1) L.piece_length
  have h2 := Nat.mod_lt (L.file_length + L.piece_length - 1) L.piece_pos
  have h3 := Nat.mul_comm L.piece_length ((L.file_length + L.piece_length - 1) / L.piece_length)
  omega

/-- A chunk starts inside the data. Source: `torrent/torrent.h`, `torrent/torrent.cpp`. Kind: L -/
theorem mul_lt_of_lt_numChunks {i : ℕ} (h : i < L.numChunks) :
    i * L.piece_length < L.file_length := by
  rw [numChunks, L.hashes, ← Nat.succ_le_iff, Nat.le_div_iff_mul_le L.piece_pos,
    Nat.succ_mul] at h
  have := L.piece_pos
  omega

end Layout

end files

/-! ### The chunks of a file -/

section chunks

namespace Layout

variable (L : Layout)

/-- The first chunk of file `k`. Kind: D -/
def first (k : ℕ) : ℕ := (L.getFile k).first_chunk

/-- The last chunk of file `k`. Kind: D -/
def last (k : ℕ) : ℕ := (L.getFile k).last_chunk

/-- A file as the constructor makes it. Source: `Torrent::getFile`. Kind: L -/
theorem getFile_eq {k : ℕ} (h : k < L.files.length) :
    L.getFile k = TorrentFile.make k L.files[k].path (L.offset k) L.files[k].size L.piece_length
      L.files[k].multimedia := by
  rw [getFile, List.getD_eq_getElem?_getD, L.getElem?_files, List.getElem?_eq_getElem h]
  rfl

/-- A byte position inside the data, or at its end, has a small chunk number.
Source: `torrent/torrent.h`, `torrent/torrent.cpp`. Kind: L -/
theorem div_lt_of_le {b : ℕ} (h : b ≤ L.file_length) : b / L.piece_length < 2 ^ 32 := by
  have h1 : b / L.piece_length ≤ L.numChunks := by
    by_cases hb : b < L.file_length
    · exact (L.div_lt_numChunks hb).le
    · have h2 : b = L.file_length := by omega
      rw [h2, numChunks, L.hashes]
      exact Nat.div_le_div_right (by have := L.piece_pos; omega)
  have := L.chunks_lt
  unfold numChunks at h1
  omega

/-- A file begins inside the torrent. Source: `torrent/torrent.h`, `torrent/torrent.cpp`. Kind: L -/
theorem offset_le {k : ℕ} (h : k < L.files.length) : L.offset k ≤ L.file_length :=
  le_trans (by omega) (L.offset_add_size_le h)

/-- Where a file starts, without truncation. Source: `torrent/torrent.h`, `torrent/torrent.cpp`.
Kind: L -/
theorem first_eq {k : ℕ} (h : k < L.files.length) : L.first k = L.offset k / L.piece_length := by
  rw [first, L.getFile_eq h]
  exact Nat.mod_eq_of_lt (L.div_lt_of_le (L.offset_le h))

/-- Where a file ends, without truncation. Source: `torrent/torrent.h`, `torrent/torrent.cpp`.
Kind: L -/
theorem last_eq {k : ℕ} (h : k < L.files.length) : L.last k =
    if L.files[k].size > 0 then (L.offset k + L.files[k].size - 1) / L.piece_length
    else L.offset k / L.piece_length := by
  have hle := L.offset_add_size_le h
  have hlt := L.length_lt
  rw [last, L.getFile_eq h]
  simp only [TorrentFile.make]
  split_ifs with hs
  · have h1 : sub64 (u64 (L.offset k + L.files[k].size)) 1 =
        L.offset k + L.files[k].size - 1 := by
      rw [u64_of_lt (by omega), sub64_of_le (by omega) (by omega)]
    rw [h1]
    exact Nat.mod_eq_of_lt (L.div_lt_of_le (by omega))
  · exact Nat.mod_eq_of_lt (L.div_lt_of_le (L.offset_le h))

/-- A file's first chunk is not behind its last. Source: `torrent/torrent.h`, `torrent/torrent.cpp`.
Kind: L -/
theorem first_le_last {k : ℕ} (h : k < L.files.length) : L.first k ≤ L.last k := by
  rw [L.first_eq h, L.last_eq h]
  split_ifs with hs
  · exact Nat.div_le_div_right (by omega)
  · exact le_rfl

/-- File `j` has a byte in chunk `i`. Kind: D -/
def Overlaps (i j : ℕ) : Prop :=
  ∃ (h : j < L.files.length) (b : ℕ), L.offset j ≤ b ∧ b < L.offset j + L.files[j].size ∧
    b / L.piece_length = i

/-- A file has a byte in exactly the chunks from its first to its last. Source: `torrent/torrent.h`,
`torrent/torrent.cpp`. Kind: L -/
theorem overlaps_iff {i j : ℕ} (h : j < L.files.length) :
    L.Overlaps i j ↔ 0 < L.files[j].size ∧ L.first j ≤ i ∧ i ≤ L.last j := by
  have hp := L.piece_pos
  constructor
  · rintro ⟨_, b, h1, h2, rfl⟩
    have hs : L.files[j].size > 0 := by omega
    refine ⟨hs, ?_, ?_⟩
    · rw [L.first_eq h]
      exact Nat.div_le_div_right h1
    · rw [L.last_eq h, if_pos hs]
      exact Nat.div_le_div_right (by omega)
  · rintro ⟨hs, h1, h2⟩
    rw [L.first_eq h] at h1
    rw [L.last_eq h, if_pos hs] at h2
    have h3 : i * L.piece_length ≤ L.offset j + L.files[j].size - 1 :=
      (Nat.le_div_iff_mul_le hp).mp h2
    have h4 : L.offset j < (i + 1) * L.piece_length := (Nat.div_lt_iff_lt_mul hp).mp (by omega)
    refine ⟨h, max (L.offset j) (i * L.piece_length), le_max_left _ _, by omega, ?_⟩
    apply Nat.div_eq_of_lt_le
    · exact le_max_right _ _
    · rw [Nat.succ_mul] at h4 ⊢
      omega

/-- The test `calcChunkPos` makes on file `j`. Source: `Torrent::calcChunkPos`. Kind: L -/
theorem holds_getFile {i j : ℕ} (h : j < L.files.length) :
    (L.getFile j).holds i = true ↔ 0 < L.files[j].size ∧ L.first j ≤ i ∧ i ≤ L.last j := by
  have hs : (L.getFile j).size = L.files[j].size := by rw [L.getFile_eq h]; rfl
  have hp : 0 < L.files[j].size ↔ L.files[j].size ≠ 0 := Nat.pos_iff_ne_zero
  unfold TorrentFile.holds
  simp only [hs, Bool.and_eq_true, decide_eq_true_eq, hp]
  exact ⟨fun ⟨⟨h1, h2⟩, h3⟩ => ⟨h3, h1, h2⟩, fun ⟨h3, h1, h2⟩ => ⟨⟨h1, h2⟩, h3⟩⟩

/-- The files are those of the numbers. Source: `Torrent::getFile`. Kind: L -/
theorem mem_files_iff {f : TorrentFile} :
    f ∈ L.torrent.files ↔ ∃ j, j < L.files.length ∧ f = L.getFile j := by
  rw [List.mem_iff_getElem?]
  constructor
  · rintro ⟨j, hj⟩
    have hlt : j < L.torrent.files.length := (List.getElem?_eq_some_iff.mp hj).1
    refine ⟨j, by simpa using hlt, ?_⟩
    rw [getFile, List.getD_eq_getElem?_getD, hj]
    rfl
  · rintro ⟨j, hj, rfl⟩
    refine ⟨j, ?_⟩
    rw [getFile, List.getD_eq_getElem?_getD, L.getElem?_files, List.getElem?_eq_getElem hj]
    rfl

/-- A file knows its number. Source: `Torrent::getFile`. Kind: L -/
theorem index_getFile {j : ℕ} (h : j < L.files.length) : (L.getFile j).index = j := by
  rw [L.getFile_eq h]
  rfl

/-- **`calcChunkPos` names exactly the files that own a byte of the chunk.**.
Source: `torrent/torrent.cpp`, `Torrent::calcChunkPos`. Kind: P -/
theorem mem_calcChunkPos_iff {i j : ℕ} : j ∈ L.torrent.calcChunkPos i ↔ L.Overlaps i j := by
  have hmem : j ∈ L.torrent.calcChunkPos i ↔ i < L.numChunks ∧
      ∃ h : j < L.files.length, 0 < L.files[j].size ∧ L.first j ≤ i ∧ i ≤ L.last j := by
    unfold Torrent.calcChunkPos
    by_cases hi : i ≥ L.torrent.hash_pieces.length ∨ L.torrent.files = []
    · rw [if_pos hi]
      refine ⟨fun h => absurd h List.not_mem_nil, ?_⟩
      rintro ⟨hlt, h, -⟩
      rcases hi with hi | hi
      · exact absurd hlt (not_lt.mpr hi)
      · have := L.length_files
        rw [hi, List.length_nil] at this
        omega
    · rw [if_neg hi, List.mem_map]
      constructor
      · rintro ⟨f, hf, rfl⟩
        obtain ⟨hmem, hholds⟩ := List.mem_filter.mp hf
        obtain ⟨k, hk, rfl⟩ := L.mem_files_iff.mp hmem
        rw [L.index_getFile hk]
        exact ⟨not_le.mp fun h => hi (Or.inl h), hk, (L.holds_getFile hk).mp hholds⟩
      · rintro ⟨-, h, h1⟩
        refine ⟨L.getFile j, List.mem_filter.mpr ⟨?_, ?_⟩, L.index_getFile h⟩
        · exact L.mem_files_iff.mpr ⟨j, h, rfl⟩
        · exact (L.holds_getFile h).mpr h1
  rw [hmem]
  constructor
  · rintro ⟨-, h, h1⟩
    exact (L.overlaps_iff h).mpr h1
  · rintro ⟨h, b, h1, h2, rfl⟩
    refine ⟨L.div_lt_numChunks (by have := L.offset_add_size_le h; omega), h, ?_⟩
    exact (L.overlaps_iff h).mp ⟨h, b, h1, h2, rfl⟩

end Layout

end chunks

end KTorrent.Storage
