import KTorrent.Storage.Border

/-!
# The chunks an excluded file shares with its neighbours

A chunk that an excluded file shares with a wanted one is loaded with the border bytes of the excluded
file. `saveFirstAndLastChunk`, `load` and `recreateFile` agree on which bytes those are for the files
that are `Bordered`, and for no others (`survives_iff`). A file that ends inside its first chunk is kept
as `first` only, and `recreateFile` writes the rest of the chunk too.

* `amount_mod` — the amounts of `load` are right up to multiples of 2^32, for chunks of any size.
* `loadFrom_kept` — the part of an excluded file; `loadLoop_mono` — the loop over the files.
* `bordered_iff_of_lt` — which these are when chunks have fewer than 2^32 bytes.
* `Torn` — the one case in which a file that ends where its chunk seems to end is asked for its last
  border: chunks of 2^32 bytes and more.

Source: `torrent/multifilecache.cpp`, `torrent/dndfile.cpp`
-/

namespace KTorrent.Storage

open KTorrent.Lib KTorrent.Util

namespace CacheFiles

variable (L : Layout) (j : ℕ)

/-- The chunk of the file begins with it, is full with it as far as 32 bits tell, and the part of the
next file is nothing in 32 bits: so the chunk can be loaded, and the file is asked for a last border
that it does not have. Kind: D -/
def Torn : Prop :=
  ∃ j' post, L.torrent.calcChunkPos (L.first j) = j :: j' :: post ∧
    u32 (L.bytesOf (L.first j)) = (L.getFile j).size ∧
    u32 (L.clip (L.first j) (L.offset (j' + 1)) - L.clip (L.first j) (L.offset j')) = 0 ∧
    (L.getFile j).size ≤ CacheFile.maxTransfer

/-- The borders fit in the temporary buffer of `recreateFile`, and: the file lies in more than one chunk
and its border bytes are fewer than 2^32, or it lies in one chunk, as many bytes are kept as it has, and
it is not torn. Kind: D -/
def Bordered : Prop :=
  headAmount L j ≤ tempSize L j ∧
    if L.first j = L.last j then headAmount L j = (L.getFile j).size ∧ ¬ Torn L j
    else headSize L j + tailSize L j < 2 ^ 32 ∧ tailSize L j ≤ tempSize L j

/-- **The border bytes of file `j` survive**: after the file is excluded, every chunk it shares with
a wanted file is loaded as before, and when it is included again it has its size and its border
bytes. Kind: D -/
def Survives : Prop :=
  ∀ (junk junk' : Mem) (k : CacheFiles) (file : List UInt8),
    k.files j = some file → k.dnd_files j = none →
    ∃ k' k'' file', downloadStatusChanged L junk j false k = some k' ∧
      (∀ c, c < L.numChunks → j ∈ L.torrent.calcChunkPos c →
        (∃ i ∈ L.torrent.calcChunkPos c, i ≠ j ∧ (k.files i).isSome = true) →
        ∀ mapped fresh k₀ data, load L c mapped fresh k = some (k₀, some data) →
          ∃ k₁, load L c mapped fresh k' = some (k₁, some data)) ∧
      downloadStatusChanged L junk' j true k' = some k'' ∧ k''.files j = some file' ∧
      file'.length = (L.getFile j).size ∧
      ∀ p, p < file.length → p < (L.getFile j).size →
        (L.offset j + p) / L.piece_length = L.first j ∨
          (L.offset j + p) / L.piece_length = L.last j →
        file'[p]? = file[p]?

variable {L j}

/-! ### The amounts of a chunk of any size -/

section amounts

variable {c : ℕ} {pre post : List ℕ} (hc : c < L.numChunks)
  (h : L.torrent.calcChunkPos c = pre ++ j :: post)

include h

/-- The first file of several gives its last chunk's size. Source: `MultiFileCache::save` and
`MultiFileCache::load`. Kind: L -/
theorem amount_first (hpre : pre = []) (hpost : post ≠ []) (size read : ℕ) :
    amount size (L.torrent.calcChunkPos c).length pre.length read (L.getFile j) =
      u32 (L.getFile j).last_chunk_size := by
  subst hpre
  have hpos := List.length_pos_iff.mpr hpost
  unfold amount
  rw [h, if_neg (by simp; omega), if_pos (by simp)]

/-- A file in the middle gives all it has. Source: `MultiFileCache::save` and
`MultiFileCache::load`. Kind: L -/
theorem amount_middle (hpre : pre ≠ []) (hpost : post ≠ []) (size read : ℕ) :
    amount size (L.torrent.calcChunkPos c).length pre.length read (L.getFile j) =
      u32 (L.getFile j).size := by
  have h1 := List.length_pos_iff.mpr hpost
  have h2 := List.length_pos_iff.mpr hpre
  unfold amount
  rw [h, if_neg (by simp; omega), if_neg (by omega), if_neg (by simp; omega)]

/-- The last file of several gives the rest. Source: `MultiFileCache::save` and
`MultiFileCache::load`. Kind: L -/
theorem amount_last (hpre : pre ≠ []) (hpost : post = []) (size read : ℕ) :
    amount size (L.torrent.calcChunkPos c).length pre.length read (L.getFile j) =
      u32 (sub64 size read) := by
  subst hpost
  have h2 := List.length_pos_iff.mpr hpre
  unfold amount
  rw [h, if_neg (by simp; omega), if_neg (by omega), if_pos (by simp)]

include hc

/-- The part of the first file of several is the size of its last chunk.
Source: `torrent/multifilecache.cpp`, `torrent/dndfile.cpp`. Kind: L -/
theorem last_chunk_size_first (hpre : pre = []) (hpost : post ≠ []) :
    L.last j = c ∧ (L.getFile j).last_chunk_size = L.clip c (L.offset (j + 1)) ∧
      L.clip c (L.offset j) = 0 := by
  subst hpre
  have hcov : L.Covers c ([] ++ j :: post) := h ▸ Layout.covers_calcChunkPos L c
  have hend := hcov.offset_le_end hpost
  have hafter := hcov.start_le (k := j) (by simp)
  have hlast := hcov.last_eq hend
  have hlt := Layout.chunkStart_lt_end hc
  refine ⟨hlast, ?_, Layout.clip_first hc h⟩
  rw [Layout.last_chunk_size_eq (Layout.lt_of_split h), hlast]
  unfold Layout.clip Layout.chunkStart at *
  omega

/-- A file that is not the first of a chunk begins in it. Source: `torrent/multifilecache.cpp`,
`torrent/dndfile.cpp`. Kind: L -/
theorem first_of_split (hpre : pre ≠ []) : L.first j = c ∧
    L.clip c (L.offset j) = L.offset j - L.chunkStart c ∧
      L.chunkStart c ≤ L.offset j ∧ L.offset j < L.chunkEnd c := by
  have hj := Layout.lt_of_split h
  have hover := (Layout.overlaps_iff_clip hc hj).mp (Layout.overlaps_split h).1
  have hstart := Layout.start_lt_offset hc h hpre
  have hin : L.offset j < L.chunkEnd c := by
    unfold Layout.clip at hover
    omega
  refine ⟨?_, ?_, hstart.le, hin⟩
  · rw [L.first_eq hj]
    exact Nat.div_eq_of_lt_le hstart.le (lt_of_lt_of_le hin (min_le_left _ _))
  · unfold Layout.clip
    omega

/-- A file in the middle of a chunk lies in it. Source: `torrent/multifilecache.cpp`,
`torrent/dndfile.cpp`. Kind: L -/
theorem middle_of_split (hpre : pre ≠ []) (hpost : post ≠ []) : L.last j = c ∧
    (L.getFile j).size = L.clip c (L.offset (j + 1)) - L.clip c (L.offset j) := by
  have hj := Layout.lt_of_split h
  have hcov : L.Covers c (pre ++ j :: post) := h ▸ Layout.covers_calcChunkPos L c
  have hend := hcov.offset_le_end hpost
  obtain ⟨-, h1, h2, h3⟩ := first_of_split hc h hpre
  have hmono := L.offset_mono (show j ≤ j + 1 by omega)
  refine ⟨hcov.last_eq hend, ?_⟩
  rw [Layout.size_getFile hj]
  unfold Layout.clip at *
  omega

/-- **The amounts are the spans, up to multiples of 2^32.**. Source: `MultiFileCache::save` and
`MultiFileCache::load`. Kind: P -/
theorem amount_mod (hmany : (L.torrent.calcChunkPos c).length ≠ 1) {read : ℕ}
    (hread : u32 read = u32 (L.clip c (L.offset j))) :
    u32 (read + amount (u32 (L.bytesOf c)) (L.torrent.calcChunkPos c).length pre.length read
      (L.getFile j)) = u32 (L.clip c (L.offset (j + 1))) := by
  have hmono := L.clip_mono (c := c) (L.offset_mono (show j ≤ j + 1 by omega))
  by_cases hpost : post = []
  · have hpre : pre ≠ [] := by
      rintro rfl
      rw [h, hpost] at hmany
      exact hmany rfl
    have hlast : L.clip c (L.offset (j + 1)) = L.bytesOf c := Layout.clip_last hc (hpost ▸ h)
    rw [amount_last h hpre hpost, hlast]
    unfold sub64 u32
    omega
  · by_cases hpre : pre = []
    · obtain ⟨-, h1, h2⟩ := last_chunk_size_first hc h hpre hpost
      rw [amount_first h hpre hpost, h1]
      rw [h2] at hread
      unfold u32 at *
      omega
    · obtain ⟨-, h1⟩ := middle_of_split hc h hpre hpost
      rw [amount_middle h hpre hpost, h1]
      unfold u32 at *
      omega

end amounts

/-! ### The part of an excluded file -/

/-- Placing keeps the buffer's length, and the bytes fit. Source: `torrent/multifilecache.cpp`,
`torrent/dndfile.cpp`. Kind: L -/
theorem length_place {data bs data' : List UInt8} {off : ℕ}
    (h : place data off bs = some data') : data'.length = data.length ∧
      off + bs.length ≤ data.length := by
  unfold place at h
  split_ifs at h with hin
  injection h with h
  rw [← h, length_writeAt]
  omega

/-- Placing nothing changes nothing. Source: `BitSet::BitSet(Uint32)`. Kind: L -/
theorem place_empty {data data' : List UInt8} {off : ℕ} (h : place data off [] = some data') :
    data' = data := by
  unfold place at h
  split_ifs at h with hin
  injection h with h
  rw [← h]
  rw [List.length_nil, Nat.add_zero] at hin
  unfold writeAt
  rw [Nat.sub_eq_zero_of_le hin]
  simp

/-- Stored bytes that are read into a chunk's buffer. Source: `torrent/multifilecache.cpp`,
`torrent/dndfile.cpp`. Kind: L -/
theorem stored_into {buf buf' src bs : List UInt8} {n read : ℕ} (hbuf : buf.length < 2 ^ 32)
    (hbs : src.take n = bs) (hlen : bs.length = n) (hplace : place buf read bs = some buf') :
    (if n = 0 then some buf else if u32 (n + u32 read) > buf.length then some buf
      else place buf (u32 read) (src.take n)) = some buf' := by
  obtain ⟨-, hin⟩ := length_place hplace
  have hread : u32 read = read := u32_of_lt (by omega)
  by_cases h0 : n = 0
  · have hnil : bs = [] := List.eq_nil_of_length_eq_zero (hlen.trans h0)
    rw [hnil] at hplace
    rw [if_pos h0, place_empty hplace]
  · rw [if_neg h0, hread, u32_of_lt (by omega), if_neg (by omega), hbs, hplace]

/-- Two files that agree on their first bytes. Source: `torrent/multifilecache.cpp`,
`torrent/dndfile.cpp`. Kind: L -/
theorem take_eq_take {a b : List UInt8} {n : ℕ} (h : ∀ p < n, a[p]? = b[p]?) :
    a.take n = b.take n := by
  apply List.ext_getElem?
  intro p
  by_cases hp : p < n
  · rw [List.getElem?_take_of_lt hp, List.getElem?_take_of_lt hp, h p hp]
  · rw [List.getElem?_eq_none (by simp; omega), List.getElem?_eq_none (by simp; omega)]

/-- What is read of a wanted file. Source: `MultiFileCache::load`. Kind: L -/
theorem loadFrom_wanted {c i read n : ℕ} {k : CacheFiles} {file buf buf' : List UInt8}
    (hfile : k.files j = some file) (hload : loadFrom L c i j read n buf k = some buf') :
    n ≤ CacheFile.maxTransfer ∧ position L.piece_length c i (L.getFile j) + n ≤ file.length ∧
      place buf read ((file.drop (position L.piece_length c i (L.getFile j))).take n) =
        some buf' := by
  unfold loadFrom CacheFile.read at hload
  simp only [hfile] at hload
  split_ifs at hload with hpast hmax
  · simp at hload
  · simp at hload
  · obtain ⟨bs, hpeek, hplace⟩ := Option.bind_eq_some_iff.mp hload
    unfold peek at hpeek
    split_ifs at hpeek with hin
    obtain rfl := Option.some.inj hpeek
    exact ⟨not_lt.mp hmax, hin, hplace⟩

section shared

variable {c : ℕ} {pre post : List ℕ}

/-- **A file with its border bytes kept**: a chunk's part read from the one or the other.
Source: `MultiFileCache::load`. Kind: P -/
theorem loadFrom_kept (hb : Bordered L j) (hc : c < L.numChunks)
    (h : L.torrent.calcChunkPos c = pre ++ j :: post) (hshared : pre ≠ [] ∨ post ≠ [])
    (hside : pre = [] → L.first j ≠ L.last j) {file : List UInt8} {d : DNDFile}
    (hkeeps : Keeps L j file d) {k k' : CacheFiles} (hfile : k.files j = some file)
    (hfile' : k'.files j = none) (hdnd : k'.dnd_files j = some d) {read : ℕ}
    (hread : u32 read = u32 (L.clip c (L.offset j))) {buf buf' : List UInt8}
    (hbuf : buf.length = u32 (L.bytesOf c))
    (hload : loadFrom L c pre.length j read (amount (u32 (L.bytesOf c))
      (L.torrent.calcChunkPos c).length pre.length read (L.getFile j)) buf k = some buf') :
    loadFrom L c pre.length j read (amount (u32 (L.bytesOf c))
      (L.torrent.calcChunkPos c).length pre.length read (L.getFile j)) buf k' = some buf' := by
  have hj := Layout.lt_of_split h
  have hsz : buf.length < 2 ^ 32 := hbuf ▸ u32_lt _
  obtain ⟨-, hin, hplace⟩ := loadFrom_wanted hfile hload
  have hlen : ∀ p n : ℕ, p + n ≤ file.length → ((file.drop p).take n).length = n := by
    intro p n hpn
    rw [List.length_take, List.length_drop]
    omega
  unfold loadFrom
  simp only [hfile', hdnd]
  by_cases hpre : pre = []
  · -- the last border of the file, at the start of the chunk
    have hpost : post ≠ [] := hshared.resolve_left (not_not_intro hpre)
    have hne := hside hpre
    obtain ⟨hlast, -, -⟩ := last_chunk_size_first hc h hpre hpost
    obtain ⟨-, -, -, -, -, -, -, hstart, -⟩ := tail_spec hj hne
    have hamount : u32 (L.getFile j).last_chunk_size = tailAmount L j := (if_neg hne).symm
    have hpos : position L.piece_length c pre.length (L.getFile j) = tailOff L j := by
      rw [hlast] at hstart
      unfold position
      rw [if_pos (by rw [hpre]; rfl), Layout.fileOffset_eq hc hj hstart, tailOff, hlast]
    rw [amount_first h hpre hpost, hamount, hpos] at hin hplace
    rw [if_pos (by rw [hpre]; rfl)]
    unfold DNDFile.readLastChunk
    rw [hkeeps.last_size, hkeeps.first_size]
    refine stored_into hsz ?_ (hlen _ _ hin) hplace
    refine take_eq_take fun p hlt => ?_
    rw [List.getElem?_drop, List.getElem?_drop]
    exact hkeeps.tail p hlt (by omega)
  · -- the first border of the file, after the files before it
    have hpos : position L.piece_length c pre.length (L.getFile j) = 0 :=
      if_neg (by simpa using hpre)
    obtain ⟨hfirst, hclip, hstart, hend⟩ := first_of_split hc h hpre
    have hcases := headAmount_cases hj (hfirst.symm ▸ hc)
    rw [hpos, Nat.zero_add] at hin
    rw [hpos, List.drop_zero] at hplace
    rw [if_neg (by simpa using hpre)]
    unfold DNDFile.readFirstChunk
    rw [hkeeps.first_size]
    have hgoal : headAmount L j = amount (u32 (L.bytesOf c)) (L.torrent.calcChunkPos c).length
        pre.length read (L.getFile j) →
        (if headAmount L j = 0 then some buf
          else if u32 (headAmount L j + u32 read) > buf.length then some buf
          else place buf (u32 read) (d.data.take (headAmount L j))) = some buf' := by
      intro hn
      rw [← hn] at hin hplace
      refine stored_into hsz (take_eq_take fun p hlt => hkeeps.head p hlt (by omega)) ?_ hplace
      have h1 := hlen 0 (headAmount L j) (by omega)
      rwa [List.drop_zero] at h1
    by_cases hpost : post = []
    · have hfit := (length_place hplace).2
      rw [List.length_take, min_eq_left hin, amount_last h hpre hpost, hbuf] at hfit
      have hB := u32_lt (L.bytesOf c)
      have hrest : u32 (sub64 (u32 (L.bytesOf c)) read) = u32 (L.bytesOf c) - read := by
        rw [sub64_of_le (by omega) (by omega), u32_of_lt (by omega)]
      rcases hcases with hn | hzero
      · refine hgoal ?_
        rw [amount_last h hpre hpost, hrest, hn]
        have hr : u32 read = read := u32_of_lt (by omega)
        rw [hr, hclip] at hread
        have hle := hfit
        rw [hrest, hread] at hle
        rw [hread]
        unfold headSize Layout.bytesOf u32 at *
        rw [hfirst]
        omega
      · -- the chunk has no bytes in 32 bits
        rw [hfirst] at hzero
        rw [amount_last h hpre hpost, hrest, hzero, Nat.zero_sub, List.take_zero] at hplace
        rw [place_empty hplace]
        split_ifs with h1 h2
        · rfl
        · rfl
        · exfalso
          rw [hzero] at hfit hbuf
          have hr0 : read = 0 := by omega
          have h3 : headAmount L j < 2 ^ 32 := u32_lt _
          rw [hr0, show u32 0 = 0 from rfl, Nat.add_zero, u32_of_lt h3] at h2
          omega
    · obtain ⟨hlast, -⟩ := middle_of_split hc h hpre hpost
      have heq : headAmount L j = (L.getFile j).size := by
        have h2 := hb.2
        rw [if_pos (hfirst.trans hlast.symm)] at h2
        exact h2.1
      refine hgoal ?_
      rw [amount_middle h hpre hpost, ← heq]
      exact (u32_of_lt (u32_lt _)).symm

end shared

/-! ### The loop over the files of a chunk -/

/-- Loading keeps the buffer's length. Source: `MultiFileCache::load`. Kind: L -/
theorem length_loadFrom {c i j read n : ℕ} {k : CacheFiles} {buf buf' : List UInt8}
    (h : loadFrom L c i j read n buf k = some buf') : buf'.length = buf.length := by
  unfold loadFrom at h
  cases hf : k.files j with
  | some file =>
    rw [hf] at h
    obtain ⟨bs, -, hplace⟩ := Option.bind_eq_some_iff.mp h
    exact (length_place hplace).1
  | none =>
    rw [hf] at h
    cases hd : k.dnd_files j with
    | none =>
      simp only [hd, Option.some.injEq] at h
      rw [h]
    | some d =>
      simp only [hd] at h
      unfold DNDFile.readLastChunk DNDFile.readFirstChunk at h
      split_ifs at h
      all_goals first
        | exact (length_place h).1
        | (injection h with h; rw [h])

section loops

variable {c : ℕ} {pre : List ℕ}

/-- Two caches from which every part of a chunk is read alike. Source: none: infrastructure.
Kind: L -/
theorem loadLoop_mono (hc : c < L.numChunks) (hmany : (L.torrent.calcChunkPos c).length ≠ 1)
    {k k' : CacheFiles}
    (hpart : ∀ pre i post, L.torrent.calcChunkPos c = pre ++ i :: post → ∀ read buf buf',
      buf.length = u32 (L.bytesOf c) → u32 read = u32 (L.clip c (L.offset i)) →
      loadFrom L c pre.length i read (amount (u32 (L.bytesOf c))
        (L.torrent.calcChunkPos c).length pre.length read (L.getFile i)) buf k = some buf' →
      loadFrom L c pre.length i read (amount (u32 (L.bytesOf c))
        (L.torrent.calcChunkPos c).length pre.length read (L.getFile i)) buf k' = some buf')
    {rest : List ℕ} (h : L.torrent.calcChunkPos c = pre ++ rest) {read : ℕ}
    {buf data : List UInt8} (hbuf : buf.length = u32 (L.bytesOf c))
    (hread : u32 read = u32 (cursor L c rest))
    (hload : loadLoop L c (L.torrent.calcChunkPos c).length k pre.length read rest buf =
      some data) :
    loadLoop L c (L.torrent.calcChunkPos c).length k' pre.length read rest buf = some data := by
  induction rest generalizing pre buf read with
  | nil => exact hload
  | cons i is ih =>
    have hnext : L.clip c (L.offset (i + 1)) = cursor L c is := by
      have h1 := cursor_next hc (h ▸ Layout.covers_calcChunkPos L c)
      have h2 := L.clip_mono (c := c) (L.offset_mono (show i ≤ i + 1 by omega))
      simp only [cursor] at h1 ⊢
      omega
    have hmod := amount_mod hc h hmany hread
    have hpre : L.torrent.calcChunkPos c = (pre ++ [i]) ++ is := by simpa using h
    unfold loadLoop at hload ⊢
    simp only [hbuf, Option.bind_eq_bind] at hload ⊢
    obtain ⟨buf', hfrom, hrest⟩ := Option.bind_eq_some_iff.mp hload
    rw [hpart pre i is h read buf buf' hbuf hread hfrom, Option.bind_some]
    have hih := ih hpre ((length_loadFrom hfrom).trans hbuf) (hmod.trans (by rw [hnext]))
    rw [List.length_append, List.length_singleton] at hih
    exact hih hrest

/-- Once more has been read than the buffer holds, a wanted file is read past its end.
Source: `torrent/multifilecache.cpp`, `torrent/dndfile.cpp`. Kind: L -/
theorem loadLoop_overrun {count i read : ℕ} {k : CacheFiles} {rest : List ℕ} {buf : List UInt8}
    (hread : buf.length < read) (hwanted : ∃ x ∈ rest, (k.files x).isSome = true) :
    loadLoop L c count k i read rest buf = none := by
  induction rest generalizing i read buf with
  | nil =>
    obtain ⟨x, hx, -⟩ := hwanted
    exact absurd hx List.not_mem_nil
  | cons y ys ih =>
    unfold loadLoop
    simp only [Option.bind_eq_bind]
    cases hfrom : loadFrom L c i y read (amount buf.length count i read (L.getFile y)) buf k with
    | none => rfl
    | some buf' =>
      have hlen := length_loadFrom hfrom
      rw [Option.bind_some]
      cases hy : k.files y with
      | some file =>
        obtain ⟨-, -, hplace⟩ := loadFrom_wanted hy hfrom
        have hin := (length_place hplace).2
        omega
      | none =>
        refine ih (by omega) ?_
        obtain ⟨x, hx, hsome⟩ := hwanted
        rcases List.mem_cons.mp hx with rfl | hx
        · rw [hy] at hsome
          cases hsome
        · exact ⟨x, hx, hsome⟩

/-- Created border files have nothing to read. Source: `torrent/multifilecache.cpp`,
`torrent/dndfile.cpp`. Kind: L -/
theorem loadLoop_idle {count i read : ℕ} {k : CacheFiles} {rest : List ℕ} {buf : List UInt8}
    (hidle : ∀ x ∈ rest, k.files x = none ∧ k.dnd_files x = some .create) :
    loadLoop L c count k i read rest buf = some buf := by
  induction rest generalizing i read with
  | nil => rfl
  | cons y ys ih =>
    obtain ⟨h1, h2⟩ := hidle y List.mem_cons_self
    have hfrom : ∀ n, loadFrom L c i y read n buf k = some buf := by
      intro n
      unfold loadFrom
      simp only [h1, h2]
      split_ifs
      · rfl
      · rfl
    unfold loadLoop
    simp only [hfrom, Option.bind_eq_bind, Option.bind_some]
    exact ih fun x hx => hidle x (List.mem_cons_of_mem y hx)

/-- **A file that is alone in its chunk up to multiples of 2^32, at its start**: the chunk cannot be
loaded while another file of it is wanted, unless it is torn. Source: `torrent/multifilecache.cpp`,
`torrent/dndfile.cpp`. Kind: L -/
theorem loadLoop_front (hj : j < L.files.length) (hc : c < L.numChunks)
    (heq : L.first j = L.last j) (hsize : headAmount L j = (L.getFile j).size) (ht : ¬ Torn L j)
    {post : List ℕ} (h : L.torrent.calcChunkPos c = j :: post) (hpost : post ≠ [])
    {k : CacheFiles} {file : List UInt8} (hfile : k.files j = some file)
    (hwanted : ∃ x ∈ post, (k.files x).isSome = true) {buf : List UInt8}
    (hbuf : buf.length = u32 (L.bytesOf c)) :
    loadLoop L c (L.torrent.calcChunkPos c).length k 0 0 (j :: post) buf = none := by
  have hsplit : L.torrent.calcChunkPos c = [] ++ j :: post := h
  obtain ⟨hlast, hlcs, hzero⟩ := last_chunk_size_first hc hsplit rfl hpost
  have hfirst : L.first j = c := heq.trans hlast
  have hover := (Layout.overlaps_iff_clip hc hj).mp (Layout.overlaps_split hsplit).1
  have hB := u32_lt (L.bytesOf c)
  have hmono := L.offset_mono (show j ≤ j + 1 by omega)
  obtain ⟨-, hoff, hstart, -⟩ := headSize_spec hj
  rw [hfirst] at hstart
  have hend : L.offset (j + 1) ≤ L.chunkEnd c :=
    Layout.Covers.offset_le_end (hsplit ▸ Layout.covers_calcChunkPos L c) hpost
  have hspan : L.clip c (L.offset (j + 1)) = (L.getFile j).size := by
    rw [Layout.size_getFile hj]
    unfold Layout.clip at *
    omega
  have hpos : 0 < (L.getFile j).size := by omega
  have h32 : (L.getFile j).size < 2 ^ 32 := hsize ▸ u32_lt _
  have hamount : amount buf.length (L.torrent.calcChunkPos c).length 0 0 (L.getFile j) =
      (L.getFile j).size := by
    have h1 := amount_first hsplit rfl hpost buf.length 0
    rw [List.length_nil] at h1
    rw [h1, hlcs, hspan, u32_of_lt h32]
  rw [loadLoop, hamount]
  simp only [Option.bind_eq_bind]
  cases hfrom : loadFrom L c 0 j 0 (L.getFile j).size buf k with
  | none => rfl
  | some buf' =>
    obtain ⟨hmax, hin, hplace⟩ := loadFrom_wanted hfile hfrom
    have hfit := (length_place hplace).2
    have hlen := length_loadFrom hfrom
    rw [List.length_take, List.length_drop, min_eq_left (by omega), Nat.zero_add] at hfit
    -- the chunk is full with the file, as far as 32 bits tell
    have hfull : u32 (L.bytesOf c) = (L.getFile j).size := by
      rcases headAmount_cases hj (hfirst.symm ▸ hc) with hn | hn
      · have hhead : headSize L j = L.bytesOf c := by
          unfold headSize Layout.bytesOf
          unfold Layout.clip at hzero hover hspan
          rw [hfirst]
          omega
        rw [← hsize, hn, hhead]
      · rw [hfirst] at hn
        omega
    obtain ⟨j', post', rfl⟩ := List.exists_cons_of_ne_nil hpost
    have hpart : u32 (L.clip c (L.offset (j' + 1)) - L.clip c (L.offset j')) ≠ 0 := by
      intro h0
      refine ht ⟨j', post', hfirst.symm ▸ h, ?_, ?_, hmax⟩
      · rw [hfirst, hfull]
      · rw [hfirst, h0]
    have hsplit' : L.torrent.calcChunkPos c = [j] ++ j' :: post' := h
    have hnext : L.clip c (L.offset (j + 1)) = L.clip c (L.offset j') :=
      Layout.clip_next hc hsplit
    have hpost' : post' ≠ [] := by
      rintro rfl
      refine hpart ?_
      rw [Layout.clip_last hc hsplit', ← hnext, hspan]
      have hle := L.clip_le (c := c) (L.offset (j + 1))
      unfold u32 at hfull ⊢
      omega
    obtain ⟨-, hmid⟩ := middle_of_split hc hsplit' (by simp) hpost'
    have hamount' : ∀ size read, amount size (L.torrent.calcChunkPos c).length 1 read
        (L.getFile j') = u32 (L.getFile j').size :=
      amount_middle hsplit' (by simp) hpost'
    rw [← hmid] at hpart
    rw [Option.bind_some, Nat.zero_add, Nat.zero_add, loadLoop, hamount']
    simp only [Option.bind_eq_bind]
    cases hfrom' : loadFrom L c 1 j' (L.getFile j).size (u32 (L.getFile j').size) buf' k with
    | none => rfl
    | some buf'' =>
      have hlen' := length_loadFrom hfrom'
      rw [Option.bind_some]
      cases hj' : k.files j' with
      | some file' =>
        obtain ⟨-, hin', hplace'⟩ := loadFrom_wanted hj' hfrom'
        have hfit' := (length_place hplace').2
        rw [List.length_take, List.length_drop, min_eq_left (by omega)] at hfit'
        omega
      | none =>
        refine loadLoop_overrun (by omega) ?_
        obtain ⟨x, hx, hsome⟩ := hwanted
        rcases List.mem_cons.mp hx with rfl | hx
        · rw [hj'] at hsome
          cases hsome
        · exact ⟨x, hx, hsome⟩

/-- What it is to load a chunk of several files. Source: `MultiFileCache::load`. Kind: L -/
theorem load_eq_some (hc : c < L.numChunks) (hmany : (L.torrent.calcChunkPos c).length ≠ 1)
    {k : CacheFiles} {mapped : Bool} {fresh : Mem} {r : CacheFiles × Option (List UInt8)} :
    load L c mapped fresh k = some r ↔
      ∃ data, loadLoop L c (L.torrent.calcChunkPos c).length k 0 0 (L.torrent.calcChunkPos c)
        (slice fresh 0 (u32 (L.bytesOf c))) = some data ∧ (k, some data) = r := by
  unfold load
  simp only [if_neg hmany, Layout.chunkSize_eq hc]
  exact Option.map_eq_some_iff

end loops

/-! ### Which files survive -/

/-- A file that keeps its borders fits its temporary file. Source: `torrent/multifilecache.cpp`,
`torrent/dndfile.cpp`. Kind: L -/
theorem Bordered.fits (hj : j < L.files.length) (hb : Bordered L j) : Fits L j := by
  intro hne
  have h2 := hb.2
  rw [if_neg hne] at h2
  obtain ⟨-, -, -, -, -, h3, h4, -⟩ := tail_spec hj hne
  rw [h3, h4, u32_of_lt (by omega), u32_of_lt (by omega)]
  exact h2.1

/-- What is kept of a file's last chunk fits its temporary file.
Source: `MultiFileCache::saveFirstAndLastChunk`. Kind: L -/
theorem Bordered.tailAmount_le (hj : j < L.files.length) (hb : Bordered L j) :
    tailAmount L j ≤ tempSize L j := by
  by_cases heq : L.first j = L.last j
  · rw [tailAmount, if_pos heq]
    exact Nat.zero_le _
  · have h2 := hb.2
    rw [if_neg heq] at h2
    obtain ⟨-, -, -, -, -, -, h4, -⟩ := tail_spec hj heq
    rw [h4, u32_of_lt (by omega)]
    exact h2.2

/-- What is kept of a file's first chunk is no more than the file.
Source: `MultiFileCache::saveFirstAndLastChunk`. Kind: L -/
theorem Bordered.headAmount_le (hj : j < L.files.length) (hb : Bordered L j) :
    headAmount L j ≤ (L.getFile j).size := by
  have h2 := hb.2
  by_cases heq : L.first j = L.last j
  · rw [if_pos heq] at h2
    exact h2.1.le
  · rw [if_neg heq] at h2
    obtain ⟨h3, h4, -, -, -, h5, -⟩ := tail_spec hj heq
    rw [h5, u32_of_lt (by omega)]
    omega

/-- A byte of the last chunk of a file that lies in it. Source: `torrent/multifilecache.cpp`,
`torrent/dndfile.cpp`. Kind: L -/
theorem last_div (hj : j < L.files.length) (hsize : 0 < (L.getFile j).size) :
    (L.offset j + ((L.getFile j).size - 1)) / L.piece_length = L.last j := by
  have hsucc := L.offset_succ hj
  have hgrow := Layout.size_getFile hj
  rw [L.last_eq hj, if_pos (by omega)]
  congr 1
  omega

/-- A byte of a border chunk was kept. Source: `torrent/multifilecache.cpp`, `torrent/dndfile.cpp`.
Kind: L -/
theorem border_cases (hj : j < L.files.length) (hb : Bordered L j) {p : ℕ}
    (hsize : p < (L.getFile j).size)
    (hchunk : (L.offset j + p) / L.piece_length = L.first j ∨
      (L.offset j + p) / L.piece_length = L.last j) :
    p < headAmount L j ∨ tailOff L j ≤ p ∧ p - tailOff L j < tailAmount L j := by
  have h2 := hb.2
  by_cases heq : L.first j = L.last j
  · rw [if_pos heq] at h2
    omega
  · rw [if_neg heq] at h2
    obtain ⟨-, hsum, -, -, -, h5, h6, -⟩ := tail_spec hj heq
    have hend := L.offset_add_size_le hj
    have hsucc := L.offset_succ hj
    have hgrow := Layout.size_getFile hj
    have hdiv := Nat.div_add_mod (L.offset j + p) L.piece_length
    have hmod := Nat.mod_lt (L.offset j + p) L.piece_pos
    have hcomm := Nat.mul_comm L.piece_length ((L.offset j + p) / L.piece_length)
    rcases hchunk with hfirst | hlast
    · left
      rw [h5, u32_of_lt (by omega)]
      unfold headSize Layout.chunkEnd
      rw [← hfirst, Nat.succ_mul]
      omega
    · right
      have hlow : L.chunkStart (L.last j) ≤ L.offset j + p := by
        unfold Layout.chunkStart
        rw [← hlast]
        omega
      rw [h6, u32_of_lt (by omega)]
      unfold tailOff at hsum ⊢
      omega

/-- The border bytes of a bordered file survive. Source: `torrent/multifilecache.cpp`,
`torrent/dndfile.cpp`. Kind: L -/
theorem survives_of_bordered (hj : j < L.files.length) (hb : Bordered L j) : Survives L j := by
  intro junk junk' k file hfile hdnd
  obtain ⟨d, hsave, hkeeps⟩ := saveFirstAndLastChunk_spec hj (hb.fits hj) junk file
  obtain ⟨out, hout, hlen, hhead, htail, -⟩ :=
    recreateFile_spec hkeeps junk' hj hb.1 (hb.tailAmount_le hj)
  have hmax := hb.headAmount_le hj
  set k' : CacheFiles := ⟨Function.update k.files j none,
    Function.update k.dnd_files j (some d)⟩ with hk'
  have hfile' : k'.files j = none := Function.update_self ..
  have hdnd' : k'.dnd_files j = some d := Function.update_self ..
  refine ⟨k', ⟨Function.update k'.files j (some out), Function.update k'.dnd_files j none⟩, out,
    ?_, fun c hc hmem hnb mapped fresh k₀ data hload => ?_, ?_, Function.update_self .., by omega,
    fun p hin hsize hchunk => ?_⟩
  · simp [downloadStatusChanged, hfile, hdnd, hsave, hk']
  · -- the chunk has another file, so it is not mapped
    have hmany : (L.torrent.calcChunkPos c).length ≠ 1 := by
      intro hone
      obtain ⟨i, himem, hij, -⟩ := hnb
      obtain ⟨a, ha⟩ := List.length_eq_one_iff.mp hone
      rw [ha, List.mem_singleton] at hmem himem
      exact hij (himem.trans hmem.symm)
    obtain ⟨data', hloop, hpair⟩ := (load_eq_some hc hmany).mp hload
    obtain rfl : data' = data := Option.some.inj (congrArg Prod.snd hpair)
    refine ⟨k', (load_eq_some hc hmany).mpr ⟨data', ?_, rfl⟩⟩
    have hstart := cursor_start hc (Layout.covers_calcChunkPos L c) (List.ne_nil_of_mem hmem)
    have hzero : u32 0 = u32 (cursor L c (L.torrent.calcChunkPos c)) := by rw [hstart]
    refine loadLoop_mono hc hmany (fun pre i post h read buf buf' hbuf hread hfrom => ?_)
      (show L.torrent.calcChunkPos c = [] ++ L.torrent.calcChunkPos c from rfl)
      (length_slice fresh 0 _) hzero hloop
    by_cases hi : i = j
    · subst hi
      refine loadFrom_kept hb hc h ?_ (fun hpre heq => ?_) hkeeps hfile hfile' hdnd' hread hbuf hfrom
      · by_contra hboth
        rw [not_or, not_not, not_not] at hboth
        rw [h, hboth.1, hboth.2] at hmany
        exact hmany rfl
      · -- the chunk would not have been loaded before
        subst hpre
        have h2 := hb.2
        rw [if_pos heq] at h2
        have hpost : post ≠ [] := by
          rintro rfl
          rw [h] at hmany
          exact hmany rfl
        have hwanted : ∃ x ∈ post, (k.files x).isSome = true := by
          obtain ⟨x, hx, hxi, hsome⟩ := hnb
          rw [h] at hx
          exact ⟨x, (List.mem_cons.mp hx).resolve_left hxi, hsome⟩
        have hnone := loadLoop_front hj hc heq h2.1 h2.2 h hpost hfile hwanted
          (length_slice fresh 0 _)
        rw [h] at hloop hnone
        exact absurd (hnone.symm.trans hloop) (Option.some_ne_none _).symm
    · unfold loadFrom at hfrom ⊢
      have h1 : k'.files i = k.files i := Function.update_of_ne hi ..
      have h2 : k'.dnd_files i = k.dnd_files i := Function.update_of_ne hi ..
      rw [h1, h2]
      exact hfrom
  · simp [downloadStatusChanged, hfile', hdnd', hout]
  · rcases border_cases hj hb hsize hchunk with hlt | ⟨h1, h2⟩
    · rw [hhead p hlt, hkeeps.head p hlt hin]
    · obtain ⟨q, rfl⟩ := Nat.exists_eq_add_of_le h1
      rw [Nat.add_sub_cancel_left] at h2
      rw [htail q h2, hkeeps.tail q h2 hin]

/-- A cache of file `j` full of ones, and perhaps another file; the others are excluded. Kind: D -/
def probe (L : Layout) (j : ℕ) (other : Option ℕ) : CacheFiles where
  files i := if i = j then some (List.replicate (L.getFile j).size 1)
    else if some i = other then some [1] else none
  dnd_files i := if i = j ∨ some i = other then none else some .create

/-- What survival says of it. Source: `torrent/multifilecache.cpp`, `torrent/dndfile.cpp`.
Kind: L -/
theorem probe_spec (hj : j < L.files.length) (h : Survives L j) (other : Option ℕ) :
    ∃ d out, Fits L j ∧ headAmount L j ≤ tempSize L j ∧ tailAmount L j ≤ tempSize L j ∧
      Keeps L j (List.replicate (L.getFile j).size 1) d ∧
      recreateFile L (fun _ => 0) (L.getFile j) d = some out ∧
      out.length = (L.getFile j).size ∧
      (∀ p, p < (L.getFile j).size → (L.offset j + p) / L.piece_length = L.first j ∨
        (L.offset j + p) / L.piece_length = L.last j → out[p]? = some 1) ∧
      ∀ c, c < L.numChunks → j ∈ L.torrent.calcChunkPos c →
        (∃ i ∈ L.torrent.calcChunkPos c, i ≠ j ∧ ((probe L j other).files i).isSome = true) →
        ∀ mapped fresh k₀ data, load L c mapped fresh (probe L j other) = some (k₀, some data) →
          ∃ k₁, load L c mapped fresh ⟨Function.update (probe L j other).files j none,
            Function.update (probe L j other).dnd_files j (some d)⟩ = some (k₁, some data) := by
  have hfile : (probe L j other).files j = some (List.replicate (L.getFile j).size 1) := if_pos rfl
  have hdnd : (probe L j other).dnd_files j = none := if_pos (Or.inl rfl)
  obtain ⟨k', k'', file', hexcl, hloads, hincl, hfile', hlen, hbytes⟩ :=
    h (fun _ => 0) (fun _ => 0) (probe L j other) _ hfile hdnd
  simp only [downloadStatusChanged, Bool.false_eq_true, if_false, hfile, hdnd] at hexcl
  obtain ⟨d, hsave, hk'⟩ := Option.bind_eq_some_iff.mp hexcl
  have hfits : Fits L j := by
    by_contra hno
    rw [saveFirstAndLastChunk_none hj hno] at hsave
    cases hsave
  obtain ⟨d', hsave', hkeeps⟩ := saveFirstAndLastChunk_spec hj hfits (fun _ => 0)
    (List.replicate (L.getFile j).size 1)
  obtain rfl : d = d' := Option.some.inj (hsave.symm.trans hsave')
  obtain rfl := Option.some.inj hk'
  have hup1 : Function.update (probe L j other).files j none j = none := Function.update_self ..
  have hup2 : Function.update (probe L j other).dnd_files j (some d) j = some d :=
    Function.update_self ..
  simp only [downloadStatusChanged, if_true, hup1, hup2] at hincl
  obtain ⟨out, hout, hk''⟩ := Option.bind_eq_some_iff.mp hincl
  obtain rfl := Option.some.inj hk''
  simp only [Function.update_self, Option.some.injEq] at hfile'
  subst hfile'
  have htemp : headAmount L j ≤ tempSize L j ∧ tailAmount L j ≤ tempSize L j := by
    by_contra hno
    rw [recreateFile_none hkeeps (fun _ => 0) hno] at hout
    cases hout
  refine ⟨d, out, hfits, htemp.1, htemp.2, hkeeps, hout, hlen, fun p hp hchunk => ?_, hloads⟩
  rw [hbytes p (by rw [List.length_replicate]; exact hp) hp hchunk, List.getElem?_replicate,
    if_pos hp]

/-- A file of ones fills a buffer of its size. Source: `MultiFileCache::load`. Kind: L -/
theorem loadFrom_ones {c size : ℕ} {k : CacheFiles} {buf : List UInt8}
    (hfile : k.files j = some (List.replicate size 1))
    (hpos : position L.piece_length c 0 (L.getFile j) = 0) (hsize : 0 < (L.getFile j).size)
    (hne : 0 < size) (hmax : size ≤ CacheFile.maxTransfer) (hbuf : buf.length = size) :
    loadFrom L c 0 j 0 size buf k = some (List.replicate size 1) := by
  have hread : CacheFile.read (List.replicate size 1) (L.getFile j).size size 0 =
      some (List.replicate size 1) := by
    unfold CacheFile.read
    rw [if_neg (by simp; omega), if_neg (not_lt.mpr hmax), peek_eq (by simp)]
    simp
  have hplace : place buf 0 (List.replicate size 1) = some (List.replicate size 1) := by
    rw [place_eq (by simp [hbuf]), writeAt_cover (by simp [hbuf])]
  unfold loadFrom
  simp only [hfile, hpos, hread, Option.bind_eq_bind, Option.bind_some, hplace]

/-- A second file of which nothing is read, and created border files behind it, leave the buffer
alone. Source: `torrent/multifilecache.cpp`, `torrent/dndfile.cpp`. Kind: L -/
theorem loadLoop_second {c j' size count : ℕ} {post : List ℕ}
    (hamount : amount size count 1 size (L.getFile j') = 0) (hsize : 0 < (L.getFile j').size)
    {k : CacheFiles} (hfile : k.files j' = some [1])
    (hidle : ∀ x ∈ post, k.files x = none ∧ k.dnd_files x = some .create) {buf : List UInt8}
    (hbuf : buf.length = size) :
    loadLoop L c count k 1 size (j' :: post) buf = some buf := by
  have hpos : position L.piece_length c 1 (L.getFile j') = 0 := if_neg one_ne_zero
  have hread : CacheFile.read [1] (L.getFile j').size 0 0 = some [] := by
    unfold CacheFile.read
    rw [if_neg (by simp; omega), if_neg (Nat.not_lt_zero _)]
    rfl
  have hplace : place buf size [] = some buf := by
    unfold place writeAt
    rw [if_pos (by simp [hbuf])]
    simp [hbuf]
  have hfrom : loadFrom L c 1 j' size 0 buf k = some buf := by
    unfold loadFrom
    simp only [hfile, hpos, hread, Option.bind_eq_bind, Option.bind_some, hplace]
  rw [loadLoop, hbuf, hamount, hfrom]
  exact loadLoop_idle hidle

/-- What a torn file looks like in its chunk `c`: all the chunk's bytes are read from the file `j`, and
none from the file `j'` behind it. Kind: D -/
structure TornIn (L : Layout) (c j j' : ℕ) (post : List ℕ) : Prop where
  valid : c < L.numChunks
  split : L.torrent.calcChunkPos c = j :: j' :: post
  start : position L.piece_length c 0 (L.getFile j) = 0
  pos : 0 < (L.getFile j).size
  pos' : 0 < (L.getFile j').size
  ne : j' ≠ j
  after : ∀ x ∈ post, x ≠ j ∧ x ≠ j'
  full : u32 (L.bytesOf c) = (L.getFile j).size
  max : (L.getFile j).size ≤ CacheFile.maxTransfer
  head : ∀ size, amount size (L.torrent.calcChunkPos c).length 0 0 (L.getFile j) =
    (L.getFile j).size
  tail : amount (L.getFile j).size (L.torrent.calcChunkPos c).length 1
    (L.getFile j).size (L.getFile j') = 0

/-- A torn file, of which as many bytes are kept as it has. Source: `torrent/multifilecache.cpp`,
`torrent/dndfile.cpp`. Kind: L -/
theorem tornIn_of_torn (hj : j < L.files.length) (hsize : headAmount L j = (L.getFile j).size)
    (h : Torn L j) : ∃ j' post, TornIn L (L.first j) j j' post := by
  obtain ⟨j', post, hsplit, hfull, hpart, hmax⟩ := h
  obtain ⟨c, hc'⟩ : ∃ c, c = L.first j := ⟨_, rfl⟩
  rw [← hc'] at hsplit hfull hpart ⊢
  have hsplit0 : L.torrent.calcChunkPos c = [] ++ j :: j' :: post := hsplit
  have hsplit1 : L.torrent.calcChunkPos c = [j] ++ j' :: post := hsplit
  obtain ⟨hover', -, hbefore, hafter⟩ := Layout.overlaps_split hsplit1
  have hjj' := (hbefore j (by simp)).2
  have hc : c < L.numChunks := by
    by_contra hge
    obtain ⟨hj'', b, h1, h2, h3⟩ := (Layout.overlaps_split hsplit0).1
    have hend := L.offset_add_size_le hj
    have hin := L.div_lt_numChunks (show b < L.file_length by omega)
    omega
  obtain ⟨hlast, hlcs, hzero⟩ := last_chunk_size_first hc hsplit0 rfl (by simp)
  have hover := (Layout.overlaps_iff_clip hc hj).mp (Layout.overlaps_split hsplit0).1
  obtain ⟨-, hoff, hstart, -⟩ := headSize_spec hj
  rw [← hc'] at hstart
  have hspan : L.clip c (L.offset (j + 1)) = (L.getFile j).size := by
    have hend : L.offset (j + 1) ≤ L.chunkEnd c :=
      Layout.Covers.offset_le_end (hsplit0 ▸ Layout.covers_calcChunkPos L c) (by simp)
    rw [Layout.size_getFile hj]
    unfold Layout.clip at *
    omega
  have h32 : (L.getFile j).size < 2 ^ 32 := hsize ▸ u32_lt _
  refine ⟨j', post, hc, hsplit, ?_, by omega, ?_, by omega, fun x hx => ?_, hfull, hmax,
    fun size => ?_, ?_⟩
  · have hlt := Layout.chunkStart_lt_end hc
    have hle : L.offset j ≤ L.chunkStart c := by
      unfold Layout.clip at hzero
      omega
    rw [position, if_pos rfl, Layout.fileOffset_eq hc hj hle]
    omega
  · have hlen := Layout.size_getFile hover'.1
    have hclip := (Layout.overlaps_iff_clip hc hover'.1).mp hover'
    unfold Layout.clip at hclip
    omega
  · have hx' := (hafter x hx).2
    omega
  · have h1 := amount_first hsplit0 rfl (by simp) size 0
    rw [List.length_nil] at h1
    rw [h1, hlcs, hspan, u32_of_lt h32]
  · by_cases hpost : post = []
    · have h1 := amount_last hsplit1 (by simp) hpost (L.getFile j).size (L.getFile j).size
      rw [List.length_singleton] at h1
      rw [h1, sub64_of_le le_rfl (by omega), Nat.sub_self]
      rfl
    · have h1 := amount_middle hsplit1 (by simp) hpost (L.getFile j).size (L.getFile j).size
      rw [List.length_singleton] at h1
      rw [h1, (middle_of_split hc hsplit1 (by simp) hpost).2]
      exact hpart

/-- The chunk's buffer, before anything is read. Source: `torrent/multifilecache.cpp`,
`torrent/dndfile.cpp`. Kind: L -/
theorem TornIn.length_fresh {c j' : ℕ} {post : List ℕ} (h : TornIn L c j j' post) :
    (slice (fun _ => 0) 0 (u32 (L.bytesOf c))).length = (L.getFile j).size := by
  rw [length_slice, h.full]

/-- Before the file is excluded, the chunk is full of its bytes.
Source: `torrent/multifilecache.cpp`, `torrent/dndfile.cpp`. Kind: L -/
theorem TornIn.loadLoop_ones {c j' : ℕ} {post : List ℕ} (h : TornIn L c j j' post) {k : CacheFiles}
    (hfile : k.files j = some (List.replicate (L.getFile j).size 1)) (hfile' : k.files j' = some [1])
    (hrest : ∀ x ∈ post, k.files x = none ∧ k.dnd_files x = some .create) :
    loadLoop L c (L.torrent.calcChunkPos c).length k 0 0 (L.torrent.calcChunkPos c)
        (slice (fun _ => 0) 0 (u32 (L.bytesOf c))) =
      some (List.replicate (L.getFile j).size 1) := by
  rw [h.split, loadLoop, ← h.split, h.head,
    loadFrom_ones hfile h.start h.pos h.pos h.max h.length_fresh]
  simp only [Option.bind_eq_bind, Option.bind_some, Nat.zero_add]
  exact loadLoop_second h.tail h.pos' hfile' hrest List.length_replicate

/-- After it, a border file without a last part leaves the buffer as it is.
Source: `torrent/multifilecache.cpp`, `torrent/dndfile.cpp`. Kind: L -/
theorem TornIn.loadLoop_dnd {c j' : ℕ} {post : List ℕ} (h : TornIn L c j j' post) {k : CacheFiles}
    {d : DNDFile} (hnone : k.files j = none) (hdnd : k.dnd_files j = some d) (hlast : d.last_size = 0)
    (hfile' : k.files j' = some [1])
    (hrest : ∀ x ∈ post, k.files x = none ∧ k.dnd_files x = some .create) :
    loadLoop L c (L.torrent.calcChunkPos c).length k 0 0 (L.torrent.calcChunkPos c)
        (slice (fun _ => 0) 0 (u32 (L.bytesOf c))) =
      some (slice (fun _ => 0) 0 (u32 (L.bytesOf c))) := by
  have hfrom : loadFrom L c 0 j 0 (L.getFile j).size (slice (fun _ => 0) 0 (u32 (L.bytesOf c))) k =
      some (slice (fun _ => 0) 0 (u32 (L.bytesOf c))) := by
    unfold loadFrom
    simp only [hnone, hdnd, if_true]
    unfold DNDFile.readLastChunk
    rw [if_pos hlast]
  rw [h.split, loadLoop, ← h.split, h.head, hfrom]
  simp only [Option.bind_eq_bind, Option.bind_some, Nat.zero_add]
  exact loadLoop_second h.tail h.pos' hfile' hrest h.length_fresh

/-- A torn file does not survive. Source: `torrent/multifilecache.cpp`, `torrent/dndfile.cpp`.
Kind: L -/
theorem not_torn_of_survives (hj : j < L.files.length) (heq : L.first j = L.last j)
    (hsize : headAmount L j = (L.getFile j).size) (h : Survives L j) : ¬ Torn L j := by
  intro htorn
  obtain ⟨j', post, ht⟩ := tornIn_of_torn hj hsize htorn
  obtain ⟨c, hc⟩ : ∃ c, c = L.first j := ⟨_, rfl⟩
  rw [← hc] at ht
  have hmem : j ∈ L.torrent.calcChunkPos c := by rw [ht.split]; simp
  have hmem' : j' ∈ L.torrent.calcChunkPos c := by rw [ht.split]; simp
  have hmany : (L.torrent.calcChunkPos c).length ≠ 1 := by rw [ht.split]; simp
  obtain ⟨d, out, -, -, -, hkeeps, -, -, -, hloads⟩ := probe_spec hj h (some j')
  obtain ⟨k, hk⟩ : ∃ k, k = probe L j (some j') := ⟨_, rfl⟩
  rw [← hk] at hloads
  have hfj : k.files j = some (List.replicate (L.getFile j).size 1) := hk ▸ if_pos rfl
  have hfj' : k.files j' = some [1] := hk ▸ (if_neg ht.ne).trans (if_pos rfl)
  have hrest : ∀ x ∈ post, k.files x = none ∧ k.dnd_files x = some .create := by
    intro x hx
    obtain ⟨hxj, hne⟩ := ht.after x hx
    have hxj' : some x ≠ some j' := fun h => hne (Option.some.inj h)
    rw [hk]
    exact ⟨(if_neg hxj).trans (if_neg hxj'), if_neg (by simp only [not_or]; exact ⟨hxj, hxj'⟩)⟩
  have hbefore : load L c false (fun _ => 0) k =
      some (k, some (List.replicate (L.getFile j).size 1)) :=
    (load_eq_some ht.valid hmany).mpr ⟨_, ht.loadLoop_ones hfj hfj' hrest, rfl⟩
  obtain ⟨k₁, hafter⟩ := hloads c ht.valid hmem ⟨j', hmem', ht.ne, by rw [hfj']; rfl⟩ false
    (fun _ => 0) k _ hbefore
  obtain ⟨data, hloop, hpair⟩ := (load_eq_some ht.valid hmany).mp hafter
  obtain rfl : data = List.replicate (L.getFile j).size 1 :=
    Option.some.inj (congrArg Prod.snd hpair)
  -- after, the chunk is what the fresh buffer holds
  have hidle := ht.loadLoop_dnd (k := ⟨Function.update k.files j none,
    Function.update k.dnd_files j (some d)⟩) (Function.update_self ..) (Function.update_self ..)
    (hkeeps.last_size.trans (if_pos heq)) ((Function.update_of_ne ht.ne ..).trans hfj')
    fun x hx => ⟨(Function.update_of_ne (ht.after x hx).1 ..).trans (hrest x hx).1,
      (Function.update_of_ne (ht.after x hx).1 ..).trans (hrest x hx).2⟩
  have hsame := Option.some.inj (hidle.symm.trans hloop)
  have hpos := ht.pos
  have hslice := ht.length_fresh
  have hbyte := congrArg (fun l : List UInt8 => l[0]?) hsame
  simp only [List.getElem?_replicate, if_pos hpos] at hbyte
  rw [List.getElem?_eq_getElem (by omega)] at hbyte
  simp [slice] at hbyte

/-- A file that survives is bordered. Source: `torrent/multifilecache.cpp`, `torrent/dndfile.cpp`.
Kind: L -/
theorem bordered_of_survives (hj : j < L.files.length) (h : Survives L j) : Bordered L j := by
  obtain ⟨d, out, hfits, hn, hm, hkeeps, hout, hlen, hbytes, -⟩ := probe_spec hj h none
  obtain ⟨out', hout', hlen', -, -, hzero⟩ := recreateFile_spec hkeeps (fun _ => 0) hj hn hm
  obtain rfl : out = out' := Option.some.inj (hout.symm.trans hout')
  refine ⟨hn, ?_⟩
  split_ifs with heq
  · have hle : headAmount L j ≤ (L.getFile j).size := by omega
    have hsize : headAmount L j = (L.getFile j).size := by
      by_contra hne
      have hlast := last_div hj (by omega)
      have h1 := hbytes ((L.getFile j).size - 1) (by omega) (Or.inr hlast)
      have h2 := hzero ((L.getFile j).size - 1) (by omega) (by omega) (Or.inl heq)
      rw [h2] at h1
      simp at h1
    exact ⟨hsize, not_torn_of_survives hj heq hsize h⟩
  · obtain ⟨hle, hsum, hpos, htpos, -, h5, h6, hstart, hlastlt⟩ := tail_spec hj heq
    have hhl : headAmount L j ≤ headSize L j := h5 ▸ Nat.mod_le _ _
    have htl : tailAmount L j ≤ tailSize L j := h6 ▸ Nat.mod_le _ _
    -- the last byte of each border was kept
    have hhead : headAmount L j = headSize L j := by
      by_contra hne
      have hdiv : (L.offset j + (headSize L j - 1)) / L.piece_length = L.first j := by
        have hend : L.chunkEnd (L.first j) ≤ (L.first j + 1) * L.piece_length := min_le_left _ _
        obtain ⟨-, -, hs, -⟩ := headSize_spec hj
        refine Nat.div_eq_of_lt_le ?_ ?_
        · unfold Layout.chunkStart at hs
          omega
        · unfold headSize at hpos ⊢
          omega
      have h1 := hbytes (headSize L j - 1) (by omega) (Or.inl hdiv)
      have h2 := hzero (headSize L j - 1) (by omega) (by omega) (Or.inr (Or.inl (by omega)))
      rw [h2] at h1
      simp at h1
    have htail : tailAmount L j = tailSize L j := by
      by_contra hne
      have hlast := last_div hj (by omega)
      have h1 := hbytes ((L.getFile j).size - 1) (by omega) (Or.inr hlast)
      have h2 := hzero ((L.getFile j).size - 1) (by omega) (by omega)
        (Or.inr (Or.inr (by omega)))
      rw [h2] at h1
      simp at h1
    have hfit := hfits heq
    rw [hhead, htail] at hfit
    exact ⟨hfit, htail ▸ hm⟩

/-- **The files whose border bytes survive** are exactly the bordered ones.
Source: `torrent/multifilecache.cpp`, `torrent/dndfile.cpp`. Kind: P -/
theorem survives_iff (L : Layout) (j : Fin L.files.length) : Survives L j ↔ Bordered L j :=
  ⟨bordered_of_survives j.2, survives_of_bordered j.2⟩

/-- With chunks below 2^32 bytes: the file lies in more than one chunk, or as many bytes are kept as
it has. Source: `torrent/multifilecache.cpp`, `torrent/dndfile.cpp`. Kind: L -/
theorem bordered_iff_of_lt (hp : L.piece_length < 2 ^ 32) (hj : j < L.files.length) :
    Bordered L j ↔ if L.first j = L.last j then headAmount L j = (L.getFile j).size
      else headSize L j + tailSize L j < 2 ^ 32 := by
  have hmeant := headMeant_le hp hj
  have hlcs := last_chunk_size_le hj
  have htemp : headAmount L j ≤ tempSize L j ∧ (L.getFile j).last_chunk_size ≤ tempSize L j := by
    have hamount : headAmount L j = headMeant L j := u32_of_lt (by omega)
    rw [hamount, tempSize]
    split_ifs
    · rw [u32_of_lt (by omega)]
      omega
    · rw [u32_of_lt (by omega)]
      omega
  unfold Bordered
  rw [and_iff_right htemp.1]
  split_ifs with heq
  · refine and_iff_left fun ⟨j', post, hsplit, _, hpart, _⟩ => ?_
    -- the part of the next file is not empty, and no longer than a chunk
    have hsplit' : L.torrent.calcChunkPos (L.first j) = [j] ++ j' :: post := hsplit
    have hover := (Layout.overlaps_split hsplit').1
    have hc : L.first j < L.numChunks := by
      obtain ⟨hj', b, -, h2, h3⟩ := hover
      have hend := L.offset_add_size_le hj'
      have hin := L.div_lt_numChunks (show b < L.file_length by omega)
      omega
    have hclip := (Layout.overlaps_iff_clip hc hover.1).mp hover
    have hle := L.clip_le (c := L.first j) (L.offset (j' + 1))
    have hbytes : L.bytesOf (L.first j) ≤ L.piece_length := by
      unfold Layout.bytesOf Layout.chunkEnd Layout.chunkStart
      rw [Nat.succ_mul]
      omega
    rw [u32_of_lt (by omega)] at hpart
    omega
  · refine and_iff_left ?_
    rw [← (tail_spec hj heq).2.2.2.2.1]
    exact htemp.2

/-- **A file at the start of a chunk, ending inside it, does not survive.**.
Source: `torrent/multifilecache.cpp`, `torrent/dndfile.cpp`. Kind: P -/
theorem short_file_lost : ¬ ∀ (L : Layout) (j : Fin L.files.length), Survives L j := by
  intro h
  have hj : 0 < pairLayout.files.length := by decide
  have hb : Bordered pairLayout 0 := bordered_of_survives hj (h pairLayout ⟨0, hj⟩)
  have hsize := hb.2
  rw [if_pos (by decide)] at hsize
  exact absurd hsize.1 (by decide)

end CacheFiles

end KTorrent.Storage
