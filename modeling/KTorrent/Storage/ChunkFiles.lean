import KTorrent.Storage.Spans

/-!
# A chunk saved to its files and loaded again

With all files wanted, saving a buffered chunk writes each of its bytes to the one file that owns
it, at the byte's place there, and no other byte; loading it afterwards gives the buffer back,
whether it is mapped or read. This holds exactly for the chunks whose number of bytes fits in the 32
bits of a chunk's size, and of which no file has more than one call of `::write` and `::read` moves
(`chunk_files_iff`).

* `written` — the files after the loop of `save`, in closed form (`saveLoop_eq`).
* `asMem` — the files as one range of bytes; a save is a write to that range (`asMem_written`),
  which is how `Cache` describes it.

Source: `torrent/multifilecache.cpp`
-/

namespace KTorrent.Storage

open KTorrent.Lib KTorrent.Util

/-- What was written is read back. Source: `torrent/multifilecache.cpp`. Kind: L -/
theorem peek_writeAt (data bs : List UInt8) (off : ℕ) :
    peek (writeAt data off bs) off bs.length = some bs := by
  rw [peek_eq (by rw [length_writeAt]; omega)]
  congr 1
  apply List.ext_getElem?
  intro i
  by_cases hi : i < bs.length
  · rw [List.getElem?_take_of_lt hi, List.getElem?_drop,
      getElem?_writeAt_of_mem _ (by omega) (by omega)]
    congr 1
    omega
  · rw [List.getElem?_eq_none (by simp; omega), List.getElem?_eq_none (by omega)]

namespace CacheFiles

variable (L : Layout) (c : ℕ)

/-- All files wanted, with these contents. Kind: D -/
def wanted (disk : ℕ → List UInt8) : CacheFiles := ⟨fun j => some (disk j), fun _ => none⟩

/-- Where the chunk's bytes stand in file `j`. Kind: D -/
def spot (j : ℕ) : ℕ := L.chunkStart c + L.clip c (L.offset j) - L.offset j

/-- The bytes of the chunk that file `j` owns. Kind: D -/
def share (data : List UInt8) (j : ℕ) : List UInt8 :=
  (data.drop (L.clip c (L.offset j))).take
    (L.clip c (L.offset (j + 1)) - L.clip c (L.offset j))

/-- The files after the chunk's bytes went to the files `js`. Kind: D -/
def written (data : List UInt8) (js : List ℕ) (disk : ℕ → List UInt8) (j : ℕ) : List UInt8 :=
  if j ∈ js then writeAt (disk j) (spot L c j) (share L c data j) else disk j

variable {L c} {data : List UInt8}

/-- A file's share of a chunk is as long as it reaches into it.
Source: `torrent/multifilecache.cpp`. Kind: L -/
theorem length_share (hdata : data.length = L.bytesOf c) (j : ℕ) :
    (share L c data j).length = L.clip c (L.offset (j + 1)) - L.clip c (L.offset j) := by
  have h1 := L.clip_le (c := c) (L.offset (j + 1))
  simp only [share, List.length_take, List.length_drop, hdata]
  omega

/-- The share is read where it stands in the chunk. Source: `torrent/multifilecache.cpp`. Kind: L -/
theorem peek_share (hdata : data.length = L.bytesOf c) (j : ℕ) :
    peek data (L.clip c (L.offset j))
      (L.clip c (L.offset (j + 1)) - L.clip c (L.offset j)) = some (share L c data j) := by
  have h1 := L.clip_le (c := c) (L.offset (j + 1))
  have h2 := L.clip_le (c := c) (L.offset j)
  exact peek_eq (by omega)

/-- The source's position of the `i`-th file. Source: `MultiFileCache::save` and
`MultiFileCache::load`. Kind: L -/
theorem position_eq_spot (hc : c < L.numChunks) {pre post : List ℕ} {j : ℕ}
    (h : L.torrent.calcChunkPos c = pre ++ j :: post) :
    position L.piece_length c pre.length (L.getFile j) = spot L c j := by
  have hpos := Layout.position_eq hc h
  unfold spot
  omega

/-- Where the next round of a loop over the files of a chunk stands. Kind: D -/
def cursor (L : Layout) (c : ℕ) : List ℕ → ℕ
  | [] => L.bytesOf c
  | j :: _ => L.clip c (L.offset j)

/-- After a file, the loop stands at the next one, or at the end of the chunk.
Source: `torrent/multifilecache.cpp`. Kind: L -/
theorem cursor_next (hc : c < L.numChunks) {pre post : List ℕ} {j : ℕ}
    (h : L.Covers c (pre ++ j :: post)) :
    cursor L c (j :: post) + (L.clip c (L.offset (j + 1)) - L.clip c (L.offset j)) =
      cursor L c post := by
  have hmono := L.clip_mono (c := c) (L.offset_mono (show j ≤ j + 1 by omega))
  cases post with
  | nil =>
    have hlast := h.clip_last hc
    simp only [cursor]
    omega
  | cons j' js =>
    have hnext := h.clip_next hc
    simp only [cursor]
    omega

/-- The cursor starts at the chunk's start. Source: `torrent/multifilecache.cpp`. Kind: L -/
theorem cursor_start (hc : c < L.numChunks) {ks : List ℕ} (h : L.Covers c ks) (hne : ks ≠ []) :
    cursor L c ks = 0 := by
  cases ks with
  | nil => exact absurd rfl hne
  | cons j js => exact h.clip_first hc

/-- None of these files has more of the chunk than one call moves. Kind: D -/
def Moves (L : Layout) (c : ℕ) (js : List ℕ) : Prop :=
  ∀ j ∈ js, L.clip c (L.offset (j + 1)) - L.clip c (L.offset j) ≤ CacheFile.maxTransfer

instance (L : Layout) (c : ℕ) (js : List ℕ) : Decidable (Moves L c js) :=
  inferInstanceAs (Decidable (∀ j ∈ js, _))

/-- The system moves the first file's part, and the others'. Source: none: infrastructure.
Kind: L -/
theorem moves_cons {j : ℕ} {js : List ℕ} : Moves L c (j :: js) ↔
    L.clip c (L.offset (j + 1)) - L.clip c (L.offset j) ≤ CacheFile.maxTransfer ∧ Moves L c js :=
  List.forall_mem_cons

/-- **The loop of `save`**: every file gets the bytes it owns, unless these are too many for one of
them. Source: `torrent/multifilecache.cpp`. Kind: P -/
theorem saveLoop_eq (hc : c < L.numChunks) (hsize : L.bytesOf c < 2 ^ 32)
    (hdata : data.length = L.bytesOf c) (junk : Mem) {pre rest : List ℕ}
    (h : L.torrent.calcChunkPos c = pre ++ rest) (disk : ℕ → List UInt8) :
    saveLoop L junk c (L.torrent.calcChunkPos c).length data pre.length (cursor L c rest) rest
        (wanted disk) =
      if Moves L c rest then some (wanted (written L c data rest disk)) else none := by
  induction rest generalizing pre disk with
  | nil =>
    have hsame : written L c data [] disk = disk := funext fun j => if_neg List.not_mem_nil
    have hnone : Moves L c [] := fun j hj => absurd hj List.not_mem_nil
    rw [hsame, if_pos hnone]
    rfl
  | cons j js ih =>
    have hamount := Layout.amount_eq hc hsize h
    have hnext := cursor_next hc (h ▸ Layout.covers_calcChunkPos L c)
    have hnotin : j ∉ js := fun hj => absurd ((Layout.overlaps_split h).2.2.2 j hj).2 (by omega)
    have hlen := length_share hdata (L := L) j
    by_cases hmoves : L.clip c (L.offset (j + 1)) - L.clip c (L.offset j) ≤ CacheFile.maxTransfer
    swap
    · -- the write to this file is not finished
      have hsave : saveTo L junk c pre.length j (share L c data j) (wanted disk) = none := by
        unfold saveTo wanted CacheFile.write
        simp only [hlen]
        rw [if_pos (not_le.mp hmoves)]
        rfl
      rw [if_neg fun hm => hmoves (moves_cons.mp hm).1]
      unfold saveLoop
      simp only [cursor, hdata, hamount, peek_share hdata, hsave, Option.bind_eq_bind,
        Option.bind_some, Option.bind_none]
    have hsave : saveTo L junk c pre.length j (share L c data j) (wanted disk) =
        some (wanted (written L c data [j] disk)) := by
      unfold saveTo wanted CacheFile.write
      simp only [hlen]
      rw [if_neg (not_lt.mpr hmoves)]
      simp only [position_eq_spot hc h, Option.bind_eq_bind, Option.bind_some, Option.pure_def,
        Option.some.injEq, CacheFiles.mk.injEq, and_true]
      funext k
      by_cases hk : k = j
      · subst hk
        rw [Function.update_self, written, if_pos (by simp)]
      · rw [Function.update_of_ne hk, written, if_neg (by simpa using hk)]
    have hpre : L.torrent.calcChunkPos c = (pre ++ [j]) ++ js := by simpa using h
    have hih := ih hpre (written L c data [j] disk)
    have hboth : written L c data js (written L c data [j] disk) =
        written L c data (j :: js) disk := by
      funext k
      by_cases hk : k = j
      · subst hk
        simp [written, hnotin]
      · simp [written, hk]
    rw [List.length_append, List.length_singleton, hboth] at hih
    unfold saveLoop
    simp only [cursor, hdata, hamount, peek_share hdata, hsave, Option.bind_eq_bind,
      Option.bind_some]
    simp only [cursor] at hnext
    rw [hnext]
    refine hih.trans ?_
    exact if_congr ⟨fun hm => moves_cons.mpr ⟨hmoves, hm⟩, fun hm => (moves_cons.mp hm).2⟩ rfl rfl

/-- A file that owns a byte of the chunk holds, after the save, the bytes it owns.
Source: `CacheFile::read`. Kind: L -/
theorem read_written (hc : c < L.numChunks) (hdata : data.length = L.bytesOf c) {j : ℕ}
    (hj : j ∈ L.torrent.calcChunkPos c) (disk : ℕ → List UInt8) :
    peek (written L c data (L.torrent.calcChunkPos c) disk j) (spot L c j)
        (L.clip c (L.offset (j + 1)) - L.clip c (L.offset j)) = some (share L c data j) ∧
      spot L c j < (written L c data (L.torrent.calcChunkPos c) disk j).length ∧
      spot L c j < (L.getFile j).size := by
  have hover := L.mem_calcChunkPos_iff.mp hj
  have hspan := (Layout.overlaps_iff_clip hc hover.1).mp hover
  have hlt := Layout.chunkStart_lt_end hc
  have hlen := length_share hdata (L := L) j
  rw [written, if_pos hj]
  refine ⟨?_, ?_, ?_⟩
  · rw [← hlen]
    exact peek_writeAt _ _ _
  · rw [length_writeAt]
    omega
  · rw [Layout.size_getFile hover.1]
    unfold spot
    unfold Layout.clip at hspan ⊢
    omega

/-- A buffer whose first bytes are right, after the next share is copied in.
Source: `torrent/multifilecache.cpp`. Kind: L -/
theorem place_share (hdata : data.length = L.bytesOf c) {j : ℕ} {buf : List UInt8}
    (hbuf : L.bytesOf c ≤ buf.length)
    (hgood : ∀ i < L.clip c (L.offset j), buf[i]? = data[i]?) :
    ∃ buf', place buf (L.clip c (L.offset j)) (share L c data j) = some buf' ∧
      buf'.length = buf.length ∧
      ∀ i < L.clip c (L.offset (j + 1)), buf'[i]? = data[i]? := by
  have hlen := length_share hdata (L := L) j
  have hle := L.clip_le (c := c) (L.offset (j + 1))
  have hmono := L.clip_mono (c := c) (L.offset_mono (show j ≤ j + 1 by omega))
  refine ⟨_, place_eq (by omega), ?_, fun i hi => ?_⟩
  · rw [length_writeAt]
    omega
  · by_cases h : i < L.clip c (L.offset j)
    · rw [getElem?_writeAt_of_lt _ (Or.inl h) (by omega)]
      exact hgood i h
    · rw [getElem?_writeAt_of_mem _ (by omega) (by omega)]
      unfold share
      rw [List.getElem?_take_of_lt (by omega), List.getElem?_drop]
      congr 1
      omega

/-- **The loop of `load`** after a save gives the chunk back. Source: `torrent/multifilecache.cpp`.
Kind: P -/
theorem loadLoop_written (hc : c < L.numChunks) (hsize : L.bytesOf c < 2 ^ 32)
    (hdata : data.length = L.bytesOf c) (disk : ℕ → List UInt8) {pre rest : List ℕ}
    (h : L.torrent.calcChunkPos c = pre ++ rest) (hmoves : Moves L c rest) {buf : List UInt8}
    (hbuf : buf.length = L.bytesOf c) (hgood : ∀ i < cursor L c rest, buf[i]? = data[i]?) :
    loadLoop L c (L.torrent.calcChunkPos c).length
      (wanted (written L c data (L.torrent.calcChunkPos c) disk)) pre.length (cursor L c rest) rest
      buf = some data := by
  induction rest generalizing pre buf with
  | nil =>
    have hall : buf = data := by
      apply List.ext_getElem?
      intro i
      by_cases hi : i < L.bytesOf c
      · exact hgood i hi
      · rw [List.getElem?_eq_none (by omega), List.getElem?_eq_none (by omega)]
    rw [hall]
    rfl
  | cons j js ih =>
    have hj : j ∈ L.torrent.calcChunkPos c := by rw [h]; simp
    have hamount := Layout.amount_eq hc hsize h
    have hnext := cursor_next hc (h ▸ Layout.covers_calcChunkPos L c)
    obtain ⟨hpeek, hin, hmax⟩ := read_written hc hdata hj disk
    obtain ⟨hmove, hmoves⟩ := moves_cons.mp hmoves
    obtain ⟨buf', hplace, hbuf', hgood'⟩ := place_share hdata hbuf.ge hgood
    have hload : loadFrom L c pre.length j (L.clip c (L.offset j))
        (L.clip c (L.offset (j + 1)) - L.clip c (L.offset j)) buf
        (wanted (written L c data (L.torrent.calcChunkPos c) disk)) = some buf' := by
      unfold loadFrom wanted CacheFile.read
      simp only [position_eq_spot hc h]
      rw [if_neg (by omega), if_neg (not_lt.mpr hmove), hpeek]
      exact hplace
    have hpre : L.torrent.calcChunkPos c = (pre ++ [j]) ++ js := by simpa using h
    have hmono := L.clip_mono (c := c) (L.offset_mono (show j ≤ j + 1 by omega))
    change L.clip c (L.offset j) + _ = cursor L c js at hnext
    rw [← hnext] at ih
    have hih := ih hpre hmoves (hbuf'.trans hbuf) fun i hi => hgood' i (by omega)
    rw [List.length_append, List.length_singleton] at hih
    unfold loadLoop
    simp only [cursor, hbuf, hamount, hload, Option.bind_eq_bind, Option.bind_some]
    exact hih

/-- A mapped chunk is the bytes of its one file. Source: `MultiFileCache::load`, `CacheFile::map`.
Kind: L -/
theorem loadMapped_written (hc : c < L.numChunks) (hsize : L.bytesOf c < 2 ^ 32)
    (hdata : data.length = L.bytesOf c) (disk : ℕ → List UInt8) {j : ℕ}
    (h : L.torrent.calcChunkPos c = [j]) {mapped : Bool} {k : CacheFiles} {bs : List UInt8}
    (hload : loadMapped L c mapped (wanted (written L c data (L.torrent.calcChunkPos c) disk)) =
      some (k, bs)) : bs = data := by
  have hj : j ∈ L.torrent.calcChunkPos c := by rw [h]; simp
  have hsplit : L.torrent.calcChunkPos c = [] ++ j :: [] := h
  have hfirst := Layout.clip_first hc h
  have hlast := Layout.clip_last hc hsplit
  have hpos := position_eq_spot hc hsplit
  obtain ⟨hpeek, -, hmax⟩ := read_written hc hdata hj disk
  have hshare : share L c data j = data := by
    unfold share
    rw [hfirst, hlast, List.drop_zero, Nat.sub_zero, ← hdata, List.take_length]
  rw [hfirst, hlast, Nat.sub_zero, hshare] at hpeek
  set file := written L c data (L.torrent.calcChunkPos c) disk j with hfile
  have hfits : spot L c j + L.bytesOf c ≤ file.length := by
    by_contra hlong
    unfold peek at hpeek
    rw [if_neg hlong] at hpeek
    cases hpeek
  have hsize' : spot L c j + L.bytesOf c ≤ (L.getFile j).size := by
    have hover := L.mem_calcChunkPos_iff.mp hj
    have hlt := Layout.chunkStart_lt_end hc
    rw [Layout.size_getFile hover.1] at hmax ⊢
    unfold spot at hmax ⊢
    unfold Layout.clip Layout.bytesOf at *
    omega
  have hoff : (L.getFile j).fileOffset c L.piece_length = spot L c j := hpos
  have hlen64 := Layout.offset_lt_length (L := L) (L.mem_calcChunkPos_iff.mp hj).1
  have h64 : spot L c j + L.bytesOf c < 2 ^ 64 := by
    rw [Layout.size_getFile (L.mem_calcChunkPos_iff.mp hj).1] at hsize'
    omega
  have hmap : CacheFile.map file (L.getFile j).size (spot L c j) (L.bytesOf c) = some file := by
    unfold CacheFile.map
    rw [u64_of_lt h64, if_neg (by omega), if_neg (by omega)]
  unfold loadMapped at hload
  simp only [h, List.head?_cons, wanted, hoff, Layout.chunkSize_eq hc, u32_of_lt hsize,
    Option.bind_eq_bind, Option.bind_some, Option.pure_def] at hload
  rw [← h, ← hfile, hmap] at hload
  simp only [hpeek, Option.bind_some] at hload
  cases mapped with
  | false => simp at hload
  | true =>
    simp only [guard, if_true, Option.pure_def, Option.bind_some, Option.some.injEq,
      Prod.mk.injEq] at hload
    exact hload.2.symm

/-! ### The round trip -/

/-- **Saving and loading chunk `c`**: whatever the files hold, each byte of the buffer is written to
the file that owns it, nothing else in the files changes (a byte a file does not have yet counts as
zero), and loading the chunk gives the buffer back. Kind: D -/
def RoundTrips (L : Layout) (c : ℕ) : Prop :=
  ∀ (disk : ℕ → List UInt8) (junk : Mem) (data : List UInt8),
    data.length = ChunkManager.chunkSize L c →
    ∃ disk', save L junk c data (wanted disk) = some (wanted disk') ∧
      (∀ i < L.bytesOf c, ∃ v, data[i]? = some v ∧
        ∀ j p, j < L.files.length → p < (L.getFile j).size →
          L.offset j + p = L.chunkStart c + i → (disk' j)[p]? = some v) ∧
      (∀ j p, ¬ (L.chunkStart c ≤ L.offset j + p ∧ L.offset j + p < L.chunkEnd c) →
        (disk' j).getD p 0 = (disk j).getD p 0) ∧
      ∀ (mapped : Bool) (fresh : Mem), ∃ k,
        load L c mapped fresh (wanted disk') = some (k, some data)

/-- Every byte of the data has a file. Source: `torrent/multifilecache.cpp`. Kind: L -/
theorem exists_owner {b : ℕ} (h : L.files ≠ []) (hb : b < L.file_length) :
    ∃ j, j < L.files.length ∧ L.offset j ≤ b ∧ b < L.offset (j + 1) := by
  have hend := Layout.offset_length h
  have hex : ∃ k, b < L.offset k := ⟨L.files.length, by omega⟩
  have hfind := Nat.find_spec hex
  have hmin := fun m => Nat.find_min hex (m := m)
  set k := Nat.find hex with hk
  have hpos : 0 < k := by
    by_contra h0
    have hk0 : k = 0 := by omega
    rw [hk0] at hfind
    simp [Layout.offset] at hfind
  have hle : k ≤ L.files.length := Nat.find_min' hex (by omega)
  have hprev := hmin (k - 1) (by omega)
  refine ⟨k - 1, by omega, by omega, ?_⟩
  rw [Nat.sub_add_cancel hpos]
  exact hfind

/-- A chunk lies in some file. Source: `torrent/torrent.cpp`, `Torrent::calcChunkPos`. Kind: L -/
theorem calcChunkPos_ne_nil (hc : c < L.numChunks) (h : L.files ≠ []) :
    L.torrent.calcChunkPos c ≠ [] := by
  have hlt := Layout.chunkStart_lt_end hc
  have hend := Layout.chunkEnd_le (L := L) (c := c)
  obtain ⟨j, hj, h1, h2⟩ := exists_owner h (show L.chunkStart c < L.file_length by omega)
  refine List.ne_nil_of_mem (a := j) ?_
  rw [L.mem_calcChunkPos_iff, Layout.overlaps_iff_clip hc hj]
  unfold Layout.clip
  omega

/-- A byte of the chunk, in the file that owns it, after the save.
Source: `torrent/multifilecache.cpp`. Kind: L -/
theorem getElem?_written (hc : c < L.numChunks) (hdata : data.length = L.bytesOf c)
    (disk : ℕ → List UInt8) {j p i : ℕ} (hj : j < L.files.length)
    (hp : p < (L.getFile j).size) (hi : i < L.bytesOf c)
    (hbyte : L.offset j + p = L.chunkStart c + i) :
    (written L c data (L.torrent.calcChunkPos c) disk j)[p]? = data[i]? := by
  have hlt := Layout.chunkStart_lt_end hc
  rw [Layout.size_getFile hj] at hp
  have hlow : L.clip c (L.offset j) ≤ i := by
    unfold Layout.clip
    omega
  have hhigh : i < L.clip c (L.offset (j + 1)) := by
    unfold Layout.clip Layout.bytesOf at *
    omega
  have hmem : j ∈ L.torrent.calcChunkPos c := by
    rw [L.mem_calcChunkPos_iff, Layout.overlaps_iff_clip hc hj]
    omega
  have hlen := length_share hdata (L := L) j
  have hspot : spot L c j + i = p + L.clip c (L.offset j) := by
    unfold spot
    unfold Layout.clip Layout.bytesOf at *
    omega
  rw [written, if_pos hmem, getElem?_writeAt_of_mem _ (by omega) (by omega), share,
    List.getElem?_take_of_lt (by omega), List.getElem?_drop]
  congr 1
  omega

/-- A byte outside the chunk, after the save. Source: `torrent/multifilecache.cpp`. Kind: L -/
theorem getD_written (hc : c < L.numChunks) (hdata : data.length = L.bytesOf c)
    (disk : ℕ → List UInt8) {j p : ℕ}
    (hout : ¬ (L.chunkStart c ≤ L.offset j + p ∧ L.offset j + p < L.chunkEnd c)) :
    (written L c data (L.torrent.calcChunkPos c) disk j).getD p 0 = (disk j).getD p 0 := by
  unfold written
  split_ifs with hmem
  · have hover := L.mem_calcChunkPos_iff.mp hmem
    have hspan := (Layout.overlaps_iff_clip hc hover.1).mp hover
    have hlen := length_share hdata (L := L) j
    have hlt := Layout.chunkStart_lt_end hc
    apply getD_writeAt_of_not_mem
    rw [hlen]
    unfold spot
    unfold Layout.clip at hspan ⊢
    omega
  · rfl

/-- The round trip, for a chunk whose size fits in 32 bits. Source: `torrent/multifilecache.cpp`.
Kind: L -/
theorem roundTrips_of_lt (hc : c < L.numChunks) (hfiles : L.files ≠ [])
    (hsize : L.bytesOf c < 2 ^ 32) (hmoves : Moves L c (L.torrent.calcChunkPos c)) :
    RoundTrips L c := by
  intro disk junk data hdata
  rw [Layout.chunkSize_eq hc, u32_of_lt hsize] at hdata
  have hne := calcChunkPos_ne_nil hc hfiles
  have hstart := cursor_start hc (Layout.covers_calcChunkPos L c) hne
  refine ⟨written L c data (L.torrent.calcChunkPos c) disk, ?_, fun i hi => ?_,
    fun j p => getD_written hc hdata disk, fun mapped fresh => ?_⟩
  · have hsave := saveLoop_eq hc hsize hdata junk
      (show L.torrent.calcChunkPos c = [] ++ L.torrent.calcChunkPos c from rfl) disk
    rw [hstart, if_pos hmoves] at hsave
    exact hsave
  · refine ⟨data[i], List.getElem?_eq_getElem (by omega), fun j p hj hp hbyte => ?_⟩
    rw [getElem?_written hc hdata disk hj hp hi hbyte]
    exact List.getElem?_eq_getElem (by omega)
  · have hloop := loadLoop_written hc hsize hdata disk
      (show L.torrent.calcChunkPos c = [] ++ L.torrent.calcChunkPos c from rfl) hmoves
      (length_slice fresh 0 (L.bytesOf c)) fun i hi => by omega
    rw [hstart, List.length_nil] at hloop
    unfold load
    simp only [Layout.chunkSize_eq hc, u32_of_lt hsize, hloop, Option.map_some]
    by_cases hone : (L.torrent.calcChunkPos c).length = 1
    · obtain ⟨j, hj⟩ := List.length_eq_one_iff.mp hone
      rw [if_pos hone, if_neg (by simp [hj, wanted])]
      cases hm : loadMapped L c mapped
          (wanted (written L c data (L.torrent.calcChunkPos c) disk)) with
      | none => exact ⟨_, rfl⟩
      | some r => exact ⟨r.1, by simp [loadMapped_written hc hsize hdata disk hj hm]⟩
    · rw [if_neg hone]
      exact ⟨_, rfl⟩

/-- A chunk that does not fit is given a smaller buffer. Source: `torrent/multifilecache.cpp`.
Kind: L -/
theorem lt_of_roundTrips (hc : c < L.numChunks) (h : RoundTrips L c) : L.bytesOf c < 2 ^ 32 := by
  have hlt := Layout.chunkStart_lt_end hc
  have hpos : 0 < L.bytesOf c := by
    unfold Layout.bytesOf
    omega
  obtain ⟨_, -, hbytes, -⟩ := h (fun _ => []) (fun _ => 0)
    (List.replicate (ChunkManager.chunkSize L c) 0) (by simp)
  obtain ⟨v, hv, -⟩ := hbytes (L.bytesOf c - 1) (by omega)
  have hshort := (List.getElem?_eq_some_iff.mp hv).1
  rw [List.length_replicate, Layout.chunkSize_eq hc] at hshort
  have := u32_lt (L.bytesOf c)
  omega

/-- A chunk of which a file has too much is not saved. Source: `torrent/multifilecache.cpp`.
Kind: L -/
theorem moves_of_roundTrips (hc : c < L.numChunks) (hfiles : L.files ≠ []) (h : RoundTrips L c) :
    Moves L c (L.torrent.calcChunkPos c) := by
  have hsize := lt_of_roundTrips hc h
  have hstart := cursor_start hc (Layout.covers_calcChunkPos L c) (calcChunkPos_ne_nil hc hfiles)
  have hlen : (List.replicate (ChunkManager.chunkSize L c) (0 : UInt8)).length = L.bytesOf c := by
    rw [List.length_replicate, Layout.chunkSize_eq hc, u32_of_lt hsize]
  obtain ⟨disk', hsave, -⟩ := h (fun _ => []) (fun _ => 0) _ List.length_replicate
  have hloop := saveLoop_eq hc hsize hlen (fun _ => 0)
    (show L.torrent.calcChunkPos c = [] ++ L.torrent.calcChunkPos c from rfl) fun _ => []
  rw [hstart] at hloop
  by_contra hmoves
  rw [if_neg hmoves] at hloop
  cases hsave.symm.trans hloop

/-- **The files of a chunk, and its round trip through them.** `calcChunkPos` names exactly the
files that own a byte of the chunk, in order; and a buffered chunk is written to them and read back
exactly when its number of bytes fits in 32 bits, and what each file has of it in one call.
Source: `torrent/multifilecache.cpp`. Kind: P -/
theorem chunk_files_iff (L : Layout) (hmulti : L.torrent.isMultiFile = true) (c : ℕ)
    (hc : c < L.numChunks) :
    (∀ j, j ∈ L.torrent.calcChunkPos c ↔ L.Overlaps c j) ∧
      (L.torrent.calcChunkPos c).Pairwise (· < ·) ∧
      (RoundTrips L c ↔ L.bytesOf c < 2 ^ 32 ∧ Moves L c (L.torrent.calcChunkPos c)) := by
  have hfiles : L.files ≠ [] := by
    rintro h0
    have hlen := L.length_files
    rw [h0, List.length_nil] at hlen
    simp [Torrent.isMultiFile, hlen] at hmulti
  exact ⟨fun j => L.mem_calcChunkPos_iff, Layout.sorted_calcChunkPos L c,
    fun h => ⟨lt_of_roundTrips hc h, moves_of_roundTrips hc hfiles h⟩,
    fun h => roundTrips_of_lt hc hfiles h.1 h.2⟩

/-- Two files of seven bytes in chunks of four, with an empty file between them. Kind: D -/
def pairLayout : Layout :=
  .checked ['t'] 4 7 [⟨['a'], 3, false⟩, ⟨['b'], 0, false⟩, ⟨['c'], 4, false⟩]
    [Vector.replicate 20 0, Vector.replicate 20 0] (by decide)

/-- The first chunk lies in two files, the empty one between them is not named.
Source: `torrent/multifilecache.cpp`. Kind: L -/
theorem chunk_files_pair : ¬ pairLayout.Overlaps 0 1 ∧ RoundTrips pairLayout 0 := by
  have h := chunk_files_iff pairLayout (by decide) 0 (by decide)
  refine ⟨fun hover => ?_, h.2.2.mpr (by decide)⟩
  exact absurd ((h.1 1).mpr hover) (by decide)

/-- One chunk of 2^32 bytes in two files. Kind: D -/
def hugeLayout : Layout :=
  .checked ['t'] (2 ^ 32) (2 ^ 32) [⟨['a'], 1, false⟩, ⟨['b'], 2 ^ 32 - 1, false⟩]
    [Vector.replicate 20 0] (by decide)

/-- **A chunk of 2^32 bytes is not saved**: its size is 0 in 32 bits.
Source: `torrent/multifilecache.cpp`. Kind: P -/
theorem huge_chunk_lost : ¬ ∀ (L : Layout) (c : ℕ), L.torrent.isMultiFile = true →
    c < L.numChunks → RoundTrips L c := by
  intro h
  have hlt := lt_of_roundTrips (by decide) (h hugeLayout 0 rfl (by decide))
  exact absurd hlt (by decide)

/-! ### The files as one range of bytes -/

/-- The bytes of the torrent as the files hold them. Kind: D -/
def asMem (L : Layout) (disk : ℕ → List UInt8) : Mem := fun b =>
  match (List.range L.files.length).find? fun j =>
      decide (L.offset j ≤ b) && decide (b < L.offset (j + 1)) with
  | some j => (disk j).getD (b - L.offset j) 0
  | none => 0

/-- The disk as one memory, a file after the other. Source: `torrent/multifilecache.cpp`. Kind: L -/
theorem asMem_eq {disk : ℕ → List UInt8} {j p : ℕ} (hj : j < L.files.length)
    (hp : p < (L.getFile j).size) : asMem L disk (L.offset j + p) = (disk j).getD p 0 := by
  rw [Layout.size_getFile hj] at hp
  unfold asMem
  cases hfind : (List.range L.files.length).find? fun k =>
      decide (L.offset k ≤ L.offset j + p) && decide (L.offset j + p < L.offset (k + 1)) with
  | none =>
    rw [List.find?_eq_none] at hfind
    exact absurd (by simp; omega) (hfind j (List.mem_range.mpr hj))
  | some k =>
    have hk := List.find?_some hfind
    simp only [Bool.and_eq_true, decide_eq_true_eq] at hk
    have hkj : k = j := by
      rcases lt_trichotomy k j with h | h | h
      · have := L.offset_mono (show k + 1 ≤ j by omega)
        omega
      · exact h
      · have := L.offset_mono (show j + 1 ≤ k by omega)
        omega
    subst hkj
    simp

/-- **A save is a write to that range**: the files after the loop of `save` hold the bytes that
`Cache.write` leaves. Source: `torrent/multifilecache.cpp`. Kind: P -/
theorem asMem_written (hc : c < L.numChunks) (hfiles : L.files ≠ [])
    (hdata : data.length = L.bytesOf c) (disk : ℕ → List UInt8) {b : ℕ} (hb : b < L.file_length) :
    asMem L (written L c data (L.torrent.calcChunkPos c) disk) b =
      blit (asMem L disk) (L.chunkStart c) data b := by
  obtain ⟨j, hj, h1, h2⟩ := exists_owner hfiles hb
  obtain ⟨p, rfl⟩ := Nat.exists_eq_add_of_le h1
  have hp : p < (L.getFile j).size := by
    rw [Layout.size_getFile hj]
    omega
  have hend : L.chunkStart c + data.length = L.chunkEnd c := by
    have := Layout.chunkStart_lt_end hc
    unfold Layout.bytesOf at hdata
    omega
  rw [asMem_eq hj hp]
  by_cases hin : L.chunkStart c ≤ L.offset j + p ∧ L.offset j + p < L.chunkEnd c
  · rw [blit_of_mem _ hin.1 (by omega), List.getD_eq_getElem?_getD, List.getD_eq_getElem?_getD,
      getElem?_written hc hdata disk hj hp (i := L.offset j + p - L.chunkStart c) (by omega)
        (by omega)]
  · rw [blit_of_not_mem _ (by omega), getD_written hc hdata disk hin, asMem_eq hj hp]

end CacheFiles

end KTorrent.Storage
