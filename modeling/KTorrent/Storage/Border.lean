import KTorrent.Storage.ChunkFiles

/-!
# The border bytes of an excluded file

When a file is excluded, the bytes of its first and its last chunk go to its `DNDFile`; when it is
included again it is made of them.

* `headSize`, `tailSize` — the border bytes of a file; `headAmount`, `tailAmount` — how many of them the
  source keeps, in 32 bits.
* `Keeps` — what the `DNDFile` holds of the file (`saveFirstAndLastChunk_spec`).
* `recreateFile_spec` — the file made of it, and `recreateFile_none`, when the temporary buffer of
  `recreateFile` (`tempSize`) is too small.

Source: `torrent/multifilecache.cpp`, `torrent/dndfile.cpp`
-/

namespace KTorrent.Storage

open KTorrent.Lib KTorrent.Util

namespace CacheFiles

variable (L : Layout) (j : ℕ)

/-- How many bytes file `j` has of its first chunk, up to the end of that chunk. Kind: D -/
def headSize : ℕ := L.chunkEnd (L.first j) - L.offset j

/-- How many bytes file `j` has of its last chunk, if that is another one. Kind: D -/
def tailSize : ℕ := if L.first j = L.last j then 0 else L.offset (j + 1) - L.chunkStart (L.last j)

/-- Where the last chunk begins in file `j`. Kind: D -/
def tailOff : ℕ := L.chunkStart (L.last j) - L.offset j

/-- How many bytes of the first chunk the source means to keep.
Source: `MultiFileCache::saveFirstAndLastChunk`, `cs - tf->getFirstChunkOffset()`. Kind: D -/
def headMeant : ℕ := sub64 (firstChunkSize L (L.getFile j)) (L.getFile j).first_chunk_off

/-- How many bytes of the first chunk are kept. Source: `MultiFileCache::saveFirstAndLastChunk`.
Kind: D -/
def headAmount : ℕ := u32 (headMeant L j)

/-- How many bytes of the last chunk are kept. Source: `MultiFileCache::saveFirstAndLastChunk`.
Kind: D -/
def tailAmount : ℕ := if L.first j = L.last j then 0 else u32 (L.getFile j).last_chunk_size

/-- The size of the temporary buffer. Source: `MultiFileCache::recreateFile`, `ts`. Kind: D -/
def tempSize : ℕ :=
  u32 (if headMeant L j > (L.getFile j).last_chunk_size then headMeant L j
    else (L.getFile j).last_chunk_size)

variable {L j}

/-! ### Where the borders lie -/

/-- The source's size of a file's first chunk: its number of bytes in 32 bits, or else that number
is zero. Source: `MultiFileCache::saveFirstAndLastChunk` and `MultiFileCache::recreateFile`.
Kind: L -/
theorem firstChunkSize_cases {c : ℕ} (hc : c < L.numChunks) (hfirst : L.first j = c) :
    firstChunkSize L (L.getFile j) = u32 (L.bytesOf c) ∨ u32 (L.bytesOf c) = 0 := by
  have hlast : sub32 L.numChunks 1 = L.numChunks - 1 := sub32_of_le (by omega) L.chunks_lt
  have hf : (L.getFile j).first_chunk = c := hfirst
  unfold firstChunkSize
  rw [hf, hlast]
  by_cases hend : c = L.numChunks - 1
  · rw [if_pos hend, Layout.bytesOf_last (by omega)]
    by_cases hzero : L.file_length % L.piece_length = 0
    · rw [if_pos hzero, hzero]
      exact Or.inl (if_pos rfl)
    · rw [if_neg hzero]
      by_cases h32 : u32 (L.file_length % L.piece_length) = 0
      · exact Or.inr h32
      · exact Or.inl (if_neg h32)
  · rw [if_neg hend, Layout.bytesOf_of_succ_lt (by omega)]
    exact Or.inl rfl

/-- The last chunk of a file that is not empty. Source: `torrent/multifilecache.cpp`,
`torrent/dndfile.cpp`. Kind: L -/
theorem last_lt_numChunks (hj : j < L.files.length) (hsize : 0 < (L.getFile j).size) :
    L.last j < L.numChunks := by
  have hmul := Layout.size_getFile hj
  have hend := L.offset_add_size_le hj
  have hnext := L.offset_succ hj
  rw [L.last_eq hj, if_pos (by omega)]
  exact L.div_lt_numChunks (by omega)

/-- A file's part of its last chunk is no longer than a piece. Source: `torrent/multifilecache.cpp`,
`torrent/dndfile.cpp`. Kind: L -/
theorem last_chunk_size_le (hj : j < L.files.length) :
    (L.getFile j).last_chunk_size ≤ L.piece_length := by
  have hpos := L.piece_pos
  rw [Layout.last_chunk_size_eq hj, L.last_eq hj, L.offset_succ hj]
  split_ifs with h
  · have hdiv := Nat.div_add_mod (L.offset j + L.files[j].size - 1) L.piece_length
    have hmod := Nat.mod_lt (L.offset j + L.files[j].size - 1) hpos
    have hcomm := Nat.mul_comm L.piece_length ((L.offset j + L.files[j].size - 1) / L.piece_length)
    omega
  · have hdiv := Nat.div_add_mod (L.offset j) L.piece_length
    have hmod := Nat.mod_lt (L.offset j) hpos
    have hcomm := Nat.mul_comm L.piece_length (L.offset j / L.piece_length)
    omega

/-- A chunk in which a file begins ends behind it. Source: `torrent/multifilecache.cpp`,
`torrent/dndfile.cpp`. Kind: L -/
theorem headSize_spec (hj : j < L.files.length) :
    (L.getFile j).first_chunk_off + headSize L j = L.bytesOf (L.first j) ∧
      (L.getFile j).first_chunk_off = L.offset j - L.chunkStart (L.first j) ∧
      L.chunkStart (L.first j) ≤ L.offset j ∧ headSize L j ≤ L.piece_length := by
  have hdiv := Nat.div_add_mod (L.offset j) L.piece_length
  have hmod := Nat.mod_lt (L.offset j) L.piece_pos
  have hcomm := Nat.mul_comm L.piece_length (L.offset j / L.piece_length)
  have hstart : L.chunkStart (L.first j) + L.offset j % L.piece_length = L.offset j := by
    unfold Layout.chunkStart
    rw [L.first_eq hj]
    omega
  have hend : L.offset j ≤ L.chunkEnd (L.first j) := by
    have hle := L.offset_le hj
    unfold Layout.chunkEnd
    rw [Nat.succ_mul]
    unfold Layout.chunkStart at hstart
    omega
  have hlong : L.chunkEnd (L.first j) ≤ L.chunkStart (L.first j) + L.piece_length := by
    unfold Layout.chunkEnd Layout.chunkStart
    rw [Nat.succ_mul]
    exact min_le_left _ _
  rw [Layout.first_chunk_off_eq hj]
  unfold headSize Layout.bytesOf
  omega

/-- How many bytes are kept of a chunk, in 32 bits. Source: `MultiFileCache::saveFirstAndLastChunk`.
Kind: L -/
theorem headAmount_cases (hj : j < L.files.length) (hc : L.first j < L.numChunks) :
    headAmount L j = u32 (headSize L j) ∨ u32 (L.bytesOf (L.first j)) = 0 := by
  refine (firstChunkSize_cases hc rfl).imp_left fun hcs => ?_
  obtain ⟨h1, h2, h3, h4⟩ := headSize_spec hj
  have hlt := L.piece_lt
  have hoff : (L.getFile j).first_chunk_off < 2 ^ 64 := by
    have hle := L.offset_le hj
    have hlen := L.length_lt
    omega
  unfold headAmount headMeant
  rw [hcs, ← h1]
  unfold sub64 u32
  omega

/-- With chunks below 2^32 bytes the source means to keep no more than a chunk.
Source: `MultiFileCache::saveFirstAndLastChunk`, `cs - tf->getFirstChunkOffset()`. Kind: L -/
theorem headMeant_le (hp : L.piece_length < 2 ^ 32) (hj : j < L.files.length) :
    headMeant L j ≤ L.piece_length := by
  have hlt := L.piece_lt
  unfold headMeant
  by_cases hc : L.first j < L.numChunks
  · obtain ⟨h1, -, -, h4⟩ := headSize_spec hj
    have hpos := Layout.chunkStart_lt_end hc
    have hbytes : L.bytesOf (L.first j) ≤ L.piece_length := by
      unfold Layout.bytesOf Layout.chunkEnd Layout.chunkStart
      rw [Nat.succ_mul]
      omega
    have hcs : firstChunkSize L (L.getFile j) = L.bytesOf (L.first j) := by
      rcases firstChunkSize_cases hc rfl with h | h
      · rw [h, u32_of_lt (by omega)]
      · -- a chunk that is there is not empty
        rw [u32_of_lt (by omega)] at h
        unfold Layout.bytesOf at h
        omega
    rw [hcs, sub64_of_le (by omega) (by omega)]
    omega
  · -- an empty file at the end, which begins a chunk that is not there
    have hmod := Nat.mod_lt (L.offset j) L.piece_pos
    have hfull : firstChunkSize L (L.getFile j) = L.piece_length := by
      unfold firstChunkSize
      have hne : (L.getFile j).first_chunk ≠ sub32 L.numChunks 1 := by
        intro heq
        have heq' : L.first j = sub32 L.numChunks 1 := heq
        rcases Nat.eq_zero_or_pos L.numChunks with h0 | h0
        · have hempty : L.file_length = 0 := by
            by_contra hne
            have hin := L.div_lt_numChunks (Nat.pos_of_ne_zero hne)
            rw [Nat.zero_div] at hin
            omega
          have hle := L.offset_le hj
          rw [h0, L.first_eq hj, show L.offset j = 0 by omega, Nat.zero_div] at heq'
          exact absurd heq' (by decide)
        · rw [sub32_of_le h0 L.chunks_lt] at heq'
          omega
      rw [if_neg hne, u32_of_lt hp]
    rw [hfull, Layout.first_chunk_off_eq hj, sub64_of_le hmod.le hlt]
    omega

/-- No more than a chunk is kept. Source: `MultiFileCache::saveFirstAndLastChunk`. Kind: L -/
theorem headAmount_le (hj : j < L.files.length) : headAmount L j ≤ L.piece_length := by
  by_cases hp : L.piece_length < 2 ^ 32
  · exact (Nat.mod_le _ _).trans (headMeant_le hp hj)
  · exact (u32_lt _).le.trans (not_lt.mp hp)

/-- What is kept of it is no longer. Source: `MultiFileCache::saveFirstAndLastChunk`. Kind: L -/
theorem tailAmount_le (hj : j < L.files.length) : tailAmount L j ≤ L.piece_length := by
  have hle := last_chunk_size_le hj
  unfold tailAmount
  split_ifs
  · exact Nat.zero_le _
  · exact (Nat.mod_le _ _).trans hle

/-- What the numbers of a file of several chunks say about each other.
Source: `MultiFileCache::saveFirstAndLastChunk`. Kind: L -/
theorem tail_spec (hj : j < L.files.length) (hne : L.first j ≠ L.last j) :
    headSize L j ≤ tailOff L j ∧ tailOff L j + tailSize L j = (L.getFile j).size ∧
      0 < headSize L j ∧ 0 < tailSize L j ∧ (L.getFile j).last_chunk_size = tailSize L j ∧
      headAmount L j = u32 (headSize L j) ∧ tailAmount L j = u32 (tailSize L j) ∧
      L.offset j ≤ L.chunkStart (L.last j) ∧ L.last j < L.numChunks := by
  have hfl := L.first_le_last hj
  have hpos := L.piece_pos
  have hsucc := L.offset_succ hj
  have hsize := Layout.size_getFile hj
  have hspos : 0 < L.files[j].size := by
    by_contra h0
    rw [L.first_eq hj, L.last_eq hj, if_neg h0] at hne
    exact hne rfl
  have hlast := last_lt_numChunks hj (show 0 < (L.getFile j).size by omega)
  have htail : tailSize L j = L.offset (j + 1) - L.chunkStart (L.last j) := if_neg hne
  have hlcs : (L.getFile j).last_chunk_size = tailSize L j := by
    rw [htail, Layout.last_chunk_size_eq hj, Layout.chunkStart]
  have hlow : L.chunkStart (L.last j) < L.offset (j + 1) := by
    have hdiv := Nat.div_add_mod (L.offset j + L.files[j].size - 1) L.piece_length
    have hmod := Nat.mod_lt (L.offset j + L.files[j].size - 1) hpos
    have hcomm := Nat.mul_comm L.piece_length
      ((L.offset j + L.files[j].size - 1) / L.piece_length)
    unfold Layout.chunkStart
    rw [L.last_eq hj, if_pos hspos]
    omega
  have hborder : L.chunkEnd (L.first j) ≤ L.chunkStart (L.last j) := by
    refine (min_le_left _ _).trans (Nat.mul_le_mul_right _ ?_)
    omega
  have hfirst : L.offset j < L.chunkEnd (L.first j) := by
    have hdiv := Nat.div_add_mod (L.offset j) L.piece_length
    have hmod := Nat.mod_lt (L.offset j) hpos
    have hcomm := Nat.mul_comm L.piece_length (L.offset j / L.piece_length)
    have hend := L.offset_add_size_le hj
    unfold Layout.chunkEnd
    rw [L.first_eq hj, Nat.succ_mul]
    omega
  have hc : L.first j < L.numChunks := by omega
  -- the first chunk is not the last one of the torrent
  have hamount : headAmount L j = u32 (headSize L j) := by
    rcases headAmount_cases hj hc with h | h
    · exact h
    · obtain ⟨h1, h2, -⟩ := headSize_spec hj
      have hcs : firstChunkSize L (L.getFile j) = u32 (L.bytesOf (L.first j)) := by
        have hf : (L.getFile j).first_chunk = L.first j := rfl
        have hn : sub32 L.numChunks 1 = L.numChunks - 1 := sub32_of_le (by omega) L.chunks_lt
        unfold firstChunkSize
        rw [hf, hn, if_neg (by omega), Layout.bytesOf_of_succ_lt (by omega)]
      have hoff : (L.getFile j).first_chunk_off < 2 ^ 64 := by
        have hle := L.offset_le hj
        have hlen := L.length_lt
        omega
      unfold headAmount headMeant
      rw [hcs, ← h1]
      unfold sub64 u32
      omega
  have htamount : tailAmount L j = u32 (tailSize L j) := by
    rw [tailAmount, if_neg hne, hlcs]
  refine ⟨?_, ?_, ?_, ?_, hlcs, hamount, htamount, ?_, hlast⟩
  all_goals unfold tailOff headSize at *
  all_goals omega

/-! ### What is kept of an excluded file -/

/-- A write that covers what was there. Source: `torrent/multifilecache.cpp`, `torrent/dndfile.cpp`.
Kind: L -/
theorem writeAt_cover {data bs : List UInt8} (h : data.length ≤ bs.length) :
    writeAt data 0 bs = bs := by
  unfold writeAt
  rw [List.drop_eq_nil_of_le (by omega)]
  simp

/-- Bytes of a file read into a buffer that is large enough. Source: `CacheFile::read`. Kind: L -/
theorem read_into (tmp src : List UInt8) {n : ℕ} (h : n ≤ tmp.length) :
    ∃ t b, place tmp 0 (src.take n) = some t ∧ t.length = tmp.length ∧ peek t 0 n = some b ∧
      b.length = n ∧ ∀ p < n, p < src.length → b[p]? = src[p]? := by
  have hlen : (src.take n).length ≤ n := by simp
  have ht : (writeAt tmp 0 (src.take n)).length = tmp.length := by
    rw [length_writeAt]
    omega
  refine ⟨_, _, place_eq (by omega), ht, peek_eq (by omega), ?_, fun p h1 h2 => ?_⟩
  · rw [List.length_take, List.length_drop, ht]
    omega
  · rw [List.drop_zero, List.getElem?_take_of_lt h1,
      getElem?_writeAt_of_mem _ (by omega) (by simp; omega), Nat.sub_zero,
      List.getElem?_take_of_lt h1]

/-- What the `DNDFile` holds of file `j`. Kind: D -/
structure Keeps (L : Layout) (j : ℕ) (file : List UInt8) (d : DNDFile) : Prop where
  first_size : d.first_size = headAmount L j
  last_size : d.last_size = tailAmount L j
  length : d.data.length = headAmount L j + tailAmount L j
  head : ∀ p < headAmount L j, p < file.length → d.data[p]? = file[p]?
  tail : ∀ p < tailAmount L j, tailOff L j + p < file.length →
    d.data[headAmount L j + p]? = file[tailOff L j + p]?

/-- The run of `saveFirstAndLastChunk`, up to the writing of the last chunk.
Source: `MultiFileCache::saveFirstAndLastChunk`. Kind: L -/
theorem saveFirstAndLastChunk_eq (hj : j < L.files.length) (junk : Mem) (file : List UInt8) :
    ∃ b, b.length = headAmount L j ∧
      (∀ p < headAmount L j, p < file.length → b[p]? = file[p]?) ∧
      (L.first j = L.last j →
        saveFirstAndLastChunk L junk (L.getFile j) file = some ⟨headAmount L j, 0, b⟩) ∧
      (L.first j ≠ L.last j → ∃ b', b'.length = tailAmount L j ∧
        (∀ p < tailAmount L j, tailOff L j + p < file.length →
          b'[p]? = file[tailOff L j + p]?) ∧
        saveFirstAndLastChunk L junk (L.getFile j) file =
          DNDFile.writeLastChunk junk ⟨headAmount L j, 0, b⟩ b') := by
  have hn : u32 (sub64 (firstChunkSize L (L.getFile j)) (L.getFile j).first_chunk_off) =
    headAmount L j := rfl
  obtain ⟨t, b, hplace, ht, hpeek, hblen, hbyte⟩ :=
    read_into (slice junk 0 L.piece_length) file (n := headAmount L j)
      (by simpa using headAmount_le hj)
  have hfirst : DNDFile.create.writeFirstChunk junk b = some ⟨headAmount L j, 0, b⟩ := by
    simp [DNDFile.writeFirstChunk, DNDFile.create, writeAt_cover, hblen]
  refine ⟨b, hblen, hbyte, fun heq => ?_, fun hne => ?_⟩
  · unfold saveFirstAndLastChunk
    simp only [hn, hplace, hpeek, hfirst, Option.bind_eq_bind, Option.bind_some]
    exact if_pos (show (L.getFile j).first_chunk = (L.getFile j).last_chunk from heq)
  · obtain ⟨-, -, -, -, -, -, -, hstart, hlast⟩ := tail_spec hj hne
    have hm : u32 (L.getFile j).last_chunk_size = tailAmount L j := (if_neg hne).symm
    have hoff : (L.getFile j).fileOffset (L.getFile j).last_chunk L.piece_length =
        tailOff L j := Layout.fileOffset_eq hlast hj hstart
    obtain ⟨t', b', hplace', -, hpeek', hblen', hbyte'⟩ :=
      read_into t (file.drop (tailOff L j)) (n := tailAmount L j)
        (by rw [ht]; simpa using tailAmount_le hj)
    refine ⟨b', hblen', fun p hlt hin => ?_, ?_⟩
    · rw [hbyte' p hlt (by rw [List.length_drop]; omega), List.getElem?_drop]
    · unfold saveFirstAndLastChunk
      simp only [hn, hplace, hpeek, hfirst, hm, hoff, hplace', hpeek', Option.bind_eq_bind,
        Option.bind_some]
      exact if_neg (show (L.getFile j).first_chunk ≠ (L.getFile j).last_chunk from hne)

/-- The kept bytes of a file of several chunks fit in one buffer. Kind: D -/
def Fits (L : Layout) (j : ℕ) : Prop :=
  L.first j ≠ L.last j → headAmount L j + tailAmount L j < 2 ^ 32

/-- **`saveFirstAndLastChunk` keeps the border bytes.**.
Source: `MultiFileCache::saveFirstAndLastChunk`. Kind: P -/
theorem saveFirstAndLastChunk_spec (hj : j < L.files.length) (hfits : Fits L j) (junk : Mem)
    (file : List UInt8) :
    ∃ d, saveFirstAndLastChunk L junk (L.getFile j) file = some d ∧ Keeps L j file d := by
  obtain ⟨b, hblen, hbyte, hone, hmany⟩ := saveFirstAndLastChunk_eq hj junk file
  by_cases heq : L.first j = L.last j
  · have htail : tailAmount L j = 0 := if_pos heq
    refine ⟨_, hone heq, rfl, htail.symm, by simp [hblen, htail], hbyte, fun p hlt => ?_⟩
    omega
  · obtain ⟨b', hblen', hbyte', hsave⟩ := hmany heq
    have hkeep : DNDFile.readFresh junk b (headAmount L j) = b := by
      unfold DNDFile.readFresh
      rw [List.take_of_length_le hblen.le, writeAt_cover (by simp [hblen])]
    have hlast : DNDFile.writeLastChunk junk ⟨headAmount L j, 0, b⟩ b' =
        some ⟨headAmount L j, tailAmount L j, b ++ b'⟩ := by
      unfold DNDFile.writeLastChunk
      dsimp only
      rw [hkeep, hblen', writeAt_cover (by simp)]
      simp only [guard, if_pos (hfits heq), Option.bind_eq_bind, Option.pure_def,
        Option.bind_some]
    refine ⟨_, hsave.trans hlast, rfl, rfl, by simp [hblen, hblen'], fun p hlt hin => ?_,
      fun p hlt hin => ?_⟩
    · rw [List.getElem?_append_left (by omega)]
      exact hbyte p hlt hin
    · rw [List.getElem?_append_right (by omega), hblen, Nat.add_sub_cancel_left]
      exact hbyte' p hlt hin

/-- Without room for both borders the file is not excluded.
Source: `MultiFileCache::saveFirstAndLastChunk`. Kind: L -/
theorem saveFirstAndLastChunk_none (hj : j < L.files.length) (hfits : ¬ Fits L j) (junk : Mem)
    (file : List UInt8) : saveFirstAndLastChunk L junk (L.getFile j) file = none := by
  unfold Fits at hfits
  rw [Classical.not_imp] at hfits
  obtain ⟨hne, hsum⟩ := hfits
  obtain ⟨b, -, -, -, hmany⟩ := saveFirstAndLastChunk_eq hj junk file
  obtain ⟨b', hblen', -, hsave⟩ := hmany hne
  rw [hsave]
  unfold DNDFile.writeLastChunk
  simp only [hblen', guard, if_neg hsum]
  rfl

/-! ### The file made of its border bytes -/

/-- Border bytes read into a buffer that is large enough. Source: `torrent/multifilecache.cpp`,
`torrent/dndfile.cpp`. Kind: L -/
theorem border_into (tmp src : List UInt8) {n : ℕ} (h : n ≤ tmp.length) (hn : n < 2 ^ 32)
    (hsrc : n ≤ src.length) :
    ∃ t b, (if n = 0 then some tmp else if u32 (n + 0) > n then some tmp
        else place tmp 0 (src.take n)) = some t ∧ t.length = tmp.length ∧
      peek t 0 n = some b ∧ b.length = n ∧ ∀ p < n, b[p]? = src[p]? := by
  obtain ⟨t, b, hplace, ht, hpeek, hlen, hbyte⟩ := read_into tmp src h
  by_cases h0 : n = 0
  · subst h0
    exact ⟨tmp, [], if_pos rfl, rfl, peek_eq (by omega), rfl, fun p hlt => by omega⟩
  · refine ⟨t, b, ?_, ht, hpeek, hlen, fun p hlt => hbyte p hlt (by omega)⟩
    rw [if_neg h0, if_neg (by rw [Nat.add_zero, u32_of_lt hn]; omega), hplace]

/-- A buffer that is too small is written past its end. Source: `torrent/multifilecache.cpp`,
`torrent/dndfile.cpp`. Kind: L -/
theorem border_outside (tmp src : List UInt8) {n : ℕ} (h : tmp.length < n) (hn : n < 2 ^ 32)
    (hsrc : n ≤ src.length) :
    (if n = 0 then some tmp else if u32 (n + 0) > n then some tmp
      else place tmp 0 (src.take n)) = none := by
  rw [if_neg (by omega), if_neg (by rw [Nat.add_zero, u32_of_lt hn]; omega), place, if_neg]
  rw [List.length_take, min_eq_left hsrc]
  omega

section recreate

variable {file : List UInt8} {d : DNDFile} (hkeeps : Keeps L j file d) (junk : Mem)

include hkeeps

/-- The first border is read into a buffer that is large enough, and written.
Source: `MultiFileCache::recreateFile`. Kind: L -/
theorem recreateFile_eq (hn : headAmount L j ≤ tempSize L j) :
    ∃ t out, t.length = tempSize L j ∧ out.length = max (L.getFile j).size (headAmount L j) ∧
      (∀ p < headAmount L j, out[p]? = d.data[p]?) ∧
      (∀ p, headAmount L j ≤ p → p < (L.getFile j).size → out[p]? = some 0) ∧
      recreateFile L junk (L.getFile j) d =
        if L.first j = L.last j then some out
        else do
          let tmp ← d.readLastChunk t 0 (u32 (L.getFile j).last_chunk_size)
          let buf ← peek tmp 0 (u32 (L.getFile j).last_chunk_size)
          return writeAt out ((L.getFile j).fileOffset (L.getFile j).last_chunk L.piece_length)
            buf := by
  have hmeant : sub64 (firstChunkSize L (L.getFile j)) (L.getFile j).first_chunk_off =
    headMeant L j := rfl
  have hts : u32 (if headMeant L j > (L.getFile j).last_chunk_size then headMeant L j
    else (L.getFile j).last_chunk_size) = tempSize L j := rfl
  have hamount : u32 (headMeant L j) = headAmount L j := rfl
  obtain ⟨t, b, hread, ht, hpeek, hblen, hbyte⟩ :=
    border_into (slice junk 0 (tempSize L j)) d.data (n := headAmount L j)
      (by simpa using hn) (u32_lt _) (by rw [hkeeps.length]; omega)
  have hfirst : d.readFirstChunk (slice junk 0 (tempSize L j)) 0 (headAmount L j) = some t := by
    unfold DNDFile.readFirstChunk
    rw [hkeeps.first_size]
    exact hread
  refine ⟨t, writeAt (List.replicate (L.getFile j).size 0) 0 b, by rw [ht, length_slice], ?_,
    fun p hlt => ?_, fun p hge hlt => ?_, ?_⟩
  · rw [length_writeAt, List.length_replicate, hblen, Nat.zero_add]
  · rw [getElem?_writeAt_of_mem _ (by omega) (by omega), Nat.sub_zero]
    exact hbyte p hlt
  · rw [getElem?_writeAt, if_neg (by omega), if_neg (by omega), List.getElem?_replicate,
      if_pos hlt]
  · unfold recreateFile
    simp only [hmeant, hts, hamount, hfirst, hpeek, Option.bind_eq_bind, Option.bind_some]
    rfl

/-- **`recreateFile` writes the border bytes back**, and as many bytes as they take.
Source: `MultiFileCache::recreateFile`. Kind: P -/
theorem recreateFile_spec (hj : j < L.files.length) (hn : headAmount L j ≤ tempSize L j)
    (hm : tailAmount L j ≤ tempSize L j) :
    ∃ out, recreateFile L junk (L.getFile j) d = some out ∧
      out.length = max (L.getFile j).size (headAmount L j) ∧
      (∀ p < headAmount L j, out[p]? = d.data[p]?) ∧
      (∀ p < tailAmount L j, out[tailOff L j + p]? = d.data[headAmount L j + p]?) ∧
      ∀ p, headAmount L j ≤ p → p < (L.getFile j).size →
        (L.first j = L.last j ∨ p < tailOff L j ∨ tailOff L j + tailAmount L j ≤ p) →
        out[p]? = some 0 := by
  obtain ⟨t, out, ht, hlen, hhead, hzero, heq⟩ := recreateFile_eq hkeeps junk hn
  by_cases hone : L.first j = L.last j
  · have htail : tailAmount L j = 0 := if_pos hone
    rw [if_pos hone] at heq
    exact ⟨out, heq, hlen, hhead, fun p hlt => by omega, fun p h1 h2 _ => hzero p h1 h2⟩
  · obtain ⟨hle, hsum, -, -, hlcs, hha, hta, hstart, hlast⟩ := tail_spec hj hone
    have hhl : headAmount L j ≤ headSize L j := hha ▸ Nat.mod_le _ _
    have htl : tailAmount L j ≤ tailSize L j := hta ▸ Nat.mod_le _ _
    have hamount : u32 (L.getFile j).last_chunk_size = tailAmount L j := (if_neg hone).symm
    have hoff : (L.getFile j).fileOffset (L.getFile j).last_chunk L.piece_length =
        tailOff L j := Layout.fileOffset_eq hlast hj hstart
    obtain ⟨t', b', hread', -, hpeek', hblen', hbyte'⟩ :=
      border_into t (d.data.drop (headAmount L j)) (n := tailAmount L j)
        (by rw [ht]; exact hm) (by rw [hta]; exact u32_lt _)
        (by rw [List.length_drop, hkeeps.length]; omega)
    have hlast' : d.readLastChunk t 0 (tailAmount L j) = some t' := by
      unfold DNDFile.readLastChunk
      rw [hkeeps.last_size, hkeeps.first_size]
      exact hread'
    rw [if_neg hone] at heq
    simp only [hamount, hoff, hlast', hpeek', Option.bind_eq_bind, Option.bind_some,
      Option.pure_def] at heq
    refine ⟨_, heq, ?_, fun p hlt => ?_, fun p hlt => ?_, fun p h1 h2 h3 => ?_⟩
    · rw [length_writeAt, hlen, hblen']
      omega
    · rw [getElem?_writeAt_of_lt _ (Or.inl (by omega)) (by rw [hlen]; omega)]
      exact hhead p hlt
    · rw [getElem?_writeAt_of_mem _ (by omega) (by omega), Nat.add_sub_cancel_left, hbyte' p hlt,
        List.getElem?_drop]
    · have h3' := h3.resolve_left hone
      have hnot : ¬ (tailOff L j ≤ p ∧ p < tailOff L j + b'.length) := by omega
      rw [getElem?_writeAt, if_neg hnot]
      have hz := hzero p h1 h2
      split_ifs
      · rw [List.getD_eq_getElem?_getD, hz, Option.getD_some]
      · exact hz

/-- A temporary buffer that is too small is written past its end.
Source: `MultiFileCache::recreateFile`. Kind: L -/
theorem recreateFile_none (h : ¬ (headAmount L j ≤ tempSize L j ∧ tailAmount L j ≤ tempSize L j)) :
    recreateFile L junk (L.getFile j) d = none := by
  by_cases hn : headAmount L j ≤ tempSize L j
  · have hm : tempSize L j < tailAmount L j := not_le.mp fun hm => h ⟨hn, hm⟩
    have hone : L.first j ≠ L.last j := by
      intro hone
      rw [tailAmount, if_pos hone] at hm
      omega
    have hamount : u32 (L.getFile j).last_chunk_size = tailAmount L j := (if_neg hone).symm
    obtain ⟨t, out, ht, -, -, -, heq⟩ := recreateFile_eq hkeeps junk hn
    rw [heq, if_neg hone, hamount]
    have hlast : d.readLastChunk t 0 (tailAmount L j) = none := by
      unfold DNDFile.readLastChunk
      rw [hkeeps.last_size, hkeeps.first_size]
      refine border_outside t (d.data.drop (headAmount L j)) (by omega) ?_ ?_
      · rw [← hamount]
        exact u32_lt _
      · rw [List.length_drop, hkeeps.length]
        omega
    rw [hlast]
    rfl
  · have hmeant : sub64 (firstChunkSize L (L.getFile j)) (L.getFile j).first_chunk_off =
      headMeant L j := rfl
    have hts : u32 (if headMeant L j > (L.getFile j).last_chunk_size then headMeant L j
      else (L.getFile j).last_chunk_size) = tempSize L j := rfl
    have hamount : u32 (headMeant L j) = headAmount L j := rfl
    have hfirst : d.readFirstChunk (slice junk 0 (tempSize L j)) 0 (headAmount L j) = none := by
      unfold DNDFile.readFirstChunk
      rw [hkeeps.first_size]
      exact border_outside _ d.data (by simpa using hn) (u32_lt _)
        (by rw [hkeeps.length]; omega)
    unfold recreateFile
    simp only [hmeant, hts, hamount, hfirst, Option.bind_eq_bind, Option.bind_none]

end recreate

end CacheFiles

end KTorrent.Storage
