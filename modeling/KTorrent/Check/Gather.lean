import KTorrent.Check.DataChecker
import KTorrent.Lib.Count
import KTorrent.Storage.ChunkFiles

/-!
# What the checker gathers of a chunk

A loop that walks through the files of a chunk and copies what the source's amounts and positions
say gathers the chunk, file by file: after each file the buffer begins with the bytes of the chunk
up to the next one.

* `Layout.Gathered` — the first bytes of a buffer are those of the chunk; `Gathered.next` is one
  file more.
* `part` — what the disk has of a chunk in one of its files, when it has all of it; `Present` — the
  disk has these bytes of the chunk, all of them.
* `MultiDataChecker.loadChunk_present`, `MultiDataChecker.loadChunk_total` — what is present is
  gathered, and the buffer is never overrun.

Source: `datachecker/multidatachecker.cpp`
-/

namespace KTorrent.Storage.Layout

open KTorrent.Lib KTorrent.Util

variable (L : Layout)

/-- The buffer has room for the chunk, and begins with the first `n` of the bytes `bs`. Kind: D -/
def Gathered (c : ℕ) (bs : List UInt8) (n : ℕ) (buf : List UInt8) : Prop :=
  L.bytesOf c ≤ buf.length ∧ ∀ i < n, buf[i]? = bs[i]?

variable {L} {bs : List UInt8} {c : ℕ}

/-- Before the first file nothing is gathered. Source: `datachecker/multidatachecker.cpp`.
Kind: L -/
theorem gathered_zero {buf : List UInt8} (h : L.bytesOf c ≤ buf.length) : L.Gathered c bs 0 buf :=
  ⟨h, fun i hi => absurd hi (Nat.not_lt_zero i)⟩

/-- A chunk is no longer than a piece. Source: `datachecker/multidatachecker.cpp`. Kind: L -/
theorem bytesOf_le : L.bytesOf c ≤ L.piece_length := by
  unfold bytesOf chunkEnd chunkStart
  rw [Nat.succ_mul]
  omega

/-- The cursor stays in the chunk. Source: `datachecker/multidatachecker.cpp`. Kind: L -/
theorem cursor_le {ks : List ℕ} : CacheFiles.cursor L c ks ≤ L.bytesOf c := by
  cases ks with
  | nil => exact le_rfl
  | cons j js => exact clip_le _

/-- A buffer with all bytes of the chunk begins with the chunk.
Source: `datachecker/multidatachecker.cpp`. Kind: L -/
theorem Gathered.take_eq (hlen : bs.length = L.bytesOf c) {buf : List UInt8}
    (h : L.Gathered c bs (L.bytesOf c) buf) : buf.take (L.bytesOf c) = bs := by
  apply List.ext_getElem?
  intro i
  by_cases hi : i < L.bytesOf c
  · rw [List.getElem?_take_of_lt hi, h.2 i hi]
  · rw [List.getElem?_eq_none (by simp; omega), List.getElem?_eq_none (by omega)]

/-- What is hashed of it. Source: `datachecker/multidatachecker.cpp`. Kind: L -/
theorem Gathered.peek_eq (hlen : bs.length = L.bytesOf c) {buf : List UInt8}
    (h : L.Gathered c bs (L.bytesOf c) buf) : peek buf 0 (L.bytesOf c) = some bs := by
  rw [KTorrent.Lib.peek_eq (by simpa using h.1), List.drop_zero, h.take_eq hlen]

section place

variable {pre post : List ℕ} {j : ℕ}

/-- The part of the chunk a file has lies in the file. Source: `MultiFileCache::save` and
`MultiFileCache::load`. Kind: L -/
theorem Covers.position_add_le (hc : c < L.numChunks) (h : L.Covers c (pre ++ j :: post)) :
    CacheFiles.position L.piece_length c pre.length (L.getFile j) +
        (L.clip c (L.offset (j + 1)) - L.clip c (L.offset j)) ≤ (L.getFile j).size := by
  have hj := h.split.1
  have hpos := h.position_eq hc
  have hstart := h.start_le (k := j) (by simp)
  have hend := h.le_end (k := j) (by simp)
  have hoff := L.offset_mono (show j ≤ j + 1 by omega)
  have hlt := chunkStart_lt_end hc
  rw [size_getFile hj]
  unfold clip at *
  omega

/-- **One file more.**. Source: `datachecker/multidatachecker.cpp`. Kind: P -/
theorem Gathered.next (hlen : bs.length = L.bytesOf c) (hc : c < L.numChunks)
    (h : L.Covers c (pre ++ j :: post)) {buf : List UInt8}
    (hbuf : L.Gathered c bs (L.clip c (L.offset j)) buf) :
    ∃ buf', place buf (L.clip c (L.offset j)) (CacheFiles.share L c bs j) = some buf' ∧
      buf'.length = buf.length ∧ L.Gathered c bs (CacheFiles.cursor L c post) buf' := by
  have hmono := L.clip_mono (c := c) (L.offset_mono (show j ≤ j + 1 by omega))
  have hnext : L.clip c (L.offset j) + _ = _ := CacheFiles.cursor_next hc h
  obtain ⟨buf', hplace, hsame, hgood⟩ := CacheFiles.place_share hlen hbuf.1 hbuf.2
  exact ⟨buf', hplace, hsame, hsame.symm ▸ hbuf.1, fun i hi => hgood i (by omega)⟩

end place

/-- A chunk is in some file. Source: none: infrastructure. Kind: L -/
theorem Covers.ne_nil (hc : c < L.numChunks) (hfiles : L.files ≠ []) {ks : List ℕ}
    (h : L.Covers c ks) : ks ≠ [] := by
  obtain ⟨j, hj⟩ := List.exists_mem_of_ne_nil _ (CacheFiles.calcChunkPos_ne_nil hc hfiles)
  exact List.ne_nil_of_mem (h.complete j (L.mem_calcChunkPos_iff.mp hj))

end KTorrent.Storage.Layout

namespace KTorrent.Check

open KTorrent.Lib KTorrent.Util KTorrent.Storage

/-! ### What the disk has of a chunk -/

section present

variable (disk : Disk) (excluded : ℕ → Bool) (L : Layout) (c : ℕ)

/-- The bytes, if there are so many. Kind: D -/
def ofLength (n : ℕ) (bs : List UInt8) : Option (List UInt8) :=
  if bs.length = n then some bs else none

/-- As many bytes are read as are asked for. Source: `datachecker/multidatachecker.cpp`. Kind: L -/
theorem ofLength_eq_some {n : ℕ} {bs bs' : List UInt8} (h : ofLength n bs = some bs') :
    bs.length = n ∧ bs = bs' := by
  unfold ofLength at h
  split_ifs at h with hlen
  exact ⟨hlen, Option.some.inj h⟩

/-- The bytes of the chunk in file `j`, the `i`-th of its files, if the disk has all of them. An
excluded file has them in its border bytes. Kind: D -/
def part (i j : ℕ) : Option (List UInt8) :=
  let n := L.clip c (L.offset (j + 1)) - L.clip c (L.offset j)
  if excluded j then
    (disk.dnd (L.getFile j).path).bind fun d =>
      if i = 0 then
        if d.last_size = n then ofLength n ((d.data.drop d.first_size).take n) else none
      else if d.first_size = n then ofLength n (d.data.take n) else none
  else
    (disk.cache (L.getFile j).path).bind fun file =>
      ofLength n ((file.drop (CacheFiles.position L.piece_length c i (L.getFile j))).take n)

/-- **The disk has the chunk where the check looks for it**, and these are its bytes. A chunk in one
excluded file alone is not kept; of several files, an excluded one that comes first is asked for its
last bytes and any other for its first ones, also where the whole of a file is among its first ones
and the file comes first. Kind: D -/
structure Present (bs : List UInt8) : Prop where
  length : bs.length = L.bytesOf c
  wanted : ∀ j, L.torrent.calcChunkPos c = [j] → excluded j = false
  parts : ∀ pre j post, L.torrent.calcChunkPos c = pre ++ j :: post →
    part disk excluded L c pre.length j = some (CacheFiles.share L c bs j)

/-- The sizes in the headers of the border bytes of the excluded files do not overflow when a piece
is added. Kind: D -/
def Disk.Bounded : Prop :=
  ∀ j d, excluded j = true → disk.dnd (L.getFile j).path = some d →
    d.first_size + L.piece_length < 2 ^ 32 ∧ d.last_size + L.piece_length < 2 ^ 32

end present

namespace MultiDataChecker

variable {L : Layout} {disk : Disk} {excluded : ℕ → Bool} {c : ℕ}

/-- The size the checker gives a chunk is its number of bytes. Source: `MultiDataChecker::check`.
Kind: L -/
theorem sizeOf_eq (hp : L.piece_length < 2 ^ 32) (hc : c < L.numChunks) :
    sizeOf L.torrent c = L.bytesOf c := by
  have hlt := L.chunks_lt
  have hpos := L.piece_pos
  have hmod := Nat.mod_lt L.file_length L.piece_pos
  have hlast : sub32 L.torrent.getNumChunks 1 = L.numChunks - 1 :=
    sub32_of_le (show 1 ≤ L.numChunks by omega) hlt
  unfold sizeOf
  rw [hlast]
  show (if (if c = L.numChunks - 1 then u32 (L.file_length % L.piece_length)
    else u32 L.piece_length) = 0 then u32 L.piece_length else
    if c = L.numChunks - 1 then u32 (L.file_length % L.piece_length) else u32 L.piece_length) = _
  rw [u32_of_lt hp, u32_of_lt (hmod.trans hp)]
  by_cases hend : c = L.numChunks - 1
  · rw [if_pos hend, Layout.bytesOf_last (by omega)]
  · rw [if_neg hend, if_neg hpos.ne', Layout.bytesOf_of_succ_lt (by omega)]

/-- In a chunk of several files the checker reads what the cache would.
Source: `MultiDataChecker::loadChunk`. Kind: L -/
theorem toRead_eq {cs count i read : ℕ} {f : TorrentFile} (h : count ≠ 1) :
    toRead cs count i read f = CacheFiles.amount cs count i read f := by
  unfold toRead CacheFiles.amount
  rw [if_neg h]

section step

variable {i read n j : ℕ} {buf : List UInt8}

/-- Bytes that fit are placed. Source: `datachecker/multidatachecker.cpp`. Kind: L -/
theorem place_total (buf : List UInt8) (read : ℕ) (bs : List UInt8)
    (h : read + bs.length ≤ buf.length) :
    ∃ buf', place buf read bs = some buf' ∧ buf'.length = buf.length := by
  refine ⟨_, place_eq h, ?_⟩
  rw [length_writeAt]
  omega

/-- Border bytes are read into the buffer or not at all. Source: `MultiDataChecker::loadChunk`.
Kind: L -/
theorem readBorder_total (hb : disk.Bounded excluded L) (hread : read ≤ L.bytesOf c)
    (hbuf : L.bytesOf c ≤ buf.length) (hex : excluded j = true) : ∃ buf',
      readBorder disk i read (L.bytesOf c) (L.getFile j) buf = some buf' ∧
        buf'.length = buf.length := by
  have hle := L.bytesOf_le (c := c)
  unfold readBorder
  cases hd : disk.dnd (L.getFile j).path with
  | none => exact ⟨buf, rfl, rfl⟩
  | some d =>
    obtain ⟨hfirst, hlast⟩ := hb j d hex hd
    simp only
    unfold DNDFile.readLastChunk DNDFile.readFirstChunk
    rw [u32_of_lt (show d.last_size + read < 2 ^ 32 by omega),
      u32_of_lt (show d.first_size + read < 2 ^ 32 by omega)]
    split_ifs
    · exact ⟨buf, rfl, rfl⟩
    · exact ⟨buf, rfl, rfl⟩
    · exact place_total _ _ _ (by rw [List.length_take]; omega)
    · exact ⟨buf, rfl, rfl⟩
    · exact ⟨buf, rfl, rfl⟩
    · exact place_total _ _ _ (by rw [List.length_take]; omega)

/-- **Reading a part never leaves the buffer.**. Source: `MultiDataChecker::loadChunk`. Kind: P -/
theorem readPart_total (hb : disk.Bounded excluded L) (hfits : read + n ≤ L.bytesOf c)
    (hbuf : L.bytesOf c ≤ buf.length) : ∃ buf' found,
      readPart disk excluded L.torrent c (L.bytesOf c) i read n j buf = some (buf', found) ∧
        buf'.length = buf.length := by
  unfold readPart
  by_cases hex : excluded j = true
  · obtain ⟨buf', hread, hlen⟩ := readBorder_total (i := i) hb (show read ≤ _ by omega) hbuf hex
    simp only [hex, if_true, show getFile L.torrent j = L.getFile j from rfl, hread]
    exact ⟨buf', true, rfl, hlen⟩
  · simp only [hex]
    cases disk.cache (getFile L.torrent j).path with
    | none => exact ⟨buf, false, rfl, rfl⟩
    | some file =>
      dsimp only
      by_cases hoff : file.length <
          if i = 0 then (getFile L.torrent j).fileOffset c L.torrent.piece_length else 0
      · exact ⟨buf, false, if_pos hoff, rfl⟩
      · obtain ⟨buf', hplace, hlen⟩ := place_total buf read
          ((file.drop (if i = 0 then (getFile L.torrent j).fileOffset c
            L.torrent.piece_length else 0)).take n) (by rw [List.length_take]; omega)
        refine ⟨buf', true, ?_, hlen⟩
        rw [if_neg Bool.false_ne_true, if_neg hoff, hplace]
        rfl

/-- **A part the disk has is read.**. Source: `MultiDataChecker::loadChunk`. Kind: P -/
theorem readPart_present {bs : List UInt8} (h : part disk excluded L c i j = some bs)
    (hn : n = L.clip c (L.offset (j + 1)) - L.clip c (L.offset j)) (hpos : 0 < n)
    (hfits : read + n ≤ L.bytesOf c) (hsize : L.bytesOf c < 2 ^ 32) :
    readPart disk excluded L.torrent c (L.bytesOf c) i read n j buf =
      (place buf read bs).map fun buf => (buf, true) := by
  subst hn
  unfold part at h
  unfold readPart
  by_cases hex : excluded j = true
  · simp only [hex, if_true] at h ⊢
    obtain ⟨d, hd, h⟩ := Option.bind_eq_some_iff.mp h
    have hborder : readBorder disk i read (L.bytesOf c) (L.getFile j) buf = place buf read bs := by
      unfold readBorder
      rw [hd]
      simp only
      by_cases hi : i = 0
      · rw [if_pos hi] at h ⊢
        split_ifs at h with hlast
        obtain ⟨-, rfl⟩ := ofLength_eq_some h
        unfold DNDFile.readLastChunk
        rw [hlast, u32_of_lt (by omega), if_neg (by omega), if_neg (by omega)]
      · rw [if_neg hi] at h ⊢
        split_ifs at h with hfirst
        obtain ⟨-, rfl⟩ := ofLength_eq_some h
        unfold DNDFile.readFirstChunk
        rw [hfirst, u32_of_lt (by omega), if_neg (by omega), if_neg (by omega)]
    exact congrArg (Option.map fun buf => (buf, true)) hborder
  · simp only [hex] at h ⊢
    obtain ⟨file, hfile, h⟩ := Option.bind_eq_some_iff.mp h
    obtain ⟨hlen, rfl⟩ := ofLength_eq_some h
    rw [show disk.cache (getFile L.torrent j).path = _ from hfile]
    rw [List.length_take, List.length_drop] at hlen
    dsimp only
    rw [if_neg Bool.false_ne_true, if_neg]
    · rfl
    · show ¬ file.length < CacheFiles.position L.piece_length c i (L.getFile j)
      omega

end step

section loop

variable (hp : L.piece_length < 2 ^ 32) (hc : c < L.numChunks)

include hp hc

/-- The loop at file `j`: its span is read. Source: `MultiDataChecker::loadChunk`. Kind: L -/
theorem loadLoop_cons {pre post : List ℕ} {j : ℕ}
    (h : L.torrent.calcChunkPos c = pre ++ j :: post)
    (hcount : (L.torrent.calcChunkPos c).length ≠ 1) (buf : List UInt8) :
    loadLoop disk excluded L.torrent c (L.bytesOf c) (L.torrent.calcChunkPos c).length pre.length
        (CacheFiles.cursor L c (j :: post)) (j :: post) buf =
      (readPart disk excluded L.torrent c (L.bytesOf c) pre.length (L.clip c (L.offset j))
        (L.clip c (L.offset (j + 1)) - L.clip c (L.offset j)) j buf).bind fun r =>
          if r.2 then
            loadLoop disk excluded L.torrent c (L.bytesOf c) (L.torrent.calcChunkPos c).length
              (pre.length + 1) (CacheFiles.cursor L c post) post r.1
          else some (r.1, false) := by
  have hsize : L.bytesOf c < 2 ^ 32 := lt_of_le_of_lt Layout.bytesOf_le hp
  have hcover : L.Covers c (pre ++ j :: post) := h ▸ L.covers_calcChunkPos c
  have hcursor : L.clip c (L.offset j) + _ = _ := CacheFiles.cursor_next hc hcover
  have hle : CacheFiles.cursor L c post ≤ L.bytesOf c := Layout.cursor_le
  have hamount := Layout.amount_eq hc hsize h
  show loadLoop disk excluded L.torrent c _ _ _ (L.clip c (L.offset j)) _ _ = _
  rw [loadLoop, toRead_eq hcount, show getFile L.torrent j = L.getFile j from rfl, hamount,
    hcursor, u64_of_lt (by omega)]
  rfl

/-- **The loop never leaves the buffer.**. Source: `MultiDataChecker::loadChunk`. Kind: P -/
theorem loadLoop_total (hb : disk.Bounded excluded L) {p rest : List ℕ}
    (h : L.torrent.calcChunkPos c = p ++ rest)
    (hcount : (L.torrent.calcChunkPos c).length ≠ 1) {buf : List UInt8}
    (hbuf : L.bytesOf c ≤ buf.length) : ∃ buf' found,
      loadLoop disk excluded L.torrent c (L.bytesOf c) (L.torrent.calcChunkPos c).length p.length
        (CacheFiles.cursor L c rest) rest buf = some (buf', found) ∧ buf'.length = buf.length := by
  induction rest generalizing p buf with
  | nil => exact ⟨buf, true, rfl, rfl⟩
  | cons j js ih =>
    have hcursor : L.clip c (L.offset j) + _ = _ :=
      CacheFiles.cursor_next hc (h ▸ L.covers_calcChunkPos c)
    obtain ⟨next, found, hread, hlen⟩ : ∃ next found, readPart disk excluded L.torrent c
        (L.bytesOf c) p.length (L.clip c (L.offset j))
        (L.clip c (L.offset (j + 1)) - L.clip c (L.offset j)) j buf = some (next, found) ∧
          next.length = buf.length :=
      readPart_total hb (hcursor.trans_le Layout.cursor_le) hbuf
    rw [loadLoop_cons hp hc h hcount, hread, Option.bind_some]
    cases found with
    | false => exact ⟨next, false, rfl, hlen⟩
    | true =>
      obtain ⟨buf', found, hloop, hlen'⟩ := ih (p := p ++ [j]) (by simpa using h)
        (hbuf.trans hlen.ge)
      rw [List.length_append, List.length_singleton] at hloop
      exact ⟨buf', found, hloop, hlen'.trans hlen⟩

/-- **The loop gathers the rest of a chunk that the disk has.**.
Source: `MultiDataChecker::loadChunk`. Kind: P -/
theorem loadLoop_present {bs : List UInt8} (hbs : Present disk excluded L c bs)
    {p rest : List ℕ} (h : L.torrent.calcChunkPos c = p ++ rest)
    (hcount : (L.torrent.calcChunkPos c).length ≠ 1) {buf : List UInt8}
    (hbuf : L.Gathered c bs (CacheFiles.cursor L c rest) buf) : ∃ buf',
      loadLoop disk excluded L.torrent c (L.bytesOf c) (L.torrent.calcChunkPos c).length p.length
        (CacheFiles.cursor L c rest) rest buf = some (buf', true) ∧ buf'.length = buf.length ∧
      L.Gathered c bs (L.bytesOf c) buf' := by
  induction rest generalizing p buf with
  | nil => exact ⟨buf, rfl, rfl, hbuf⟩
  | cons j js ih =>
    have hcover : L.Covers c (p ++ j :: js) := h ▸ L.covers_calcChunkPos c
    have hcursor : L.clip c (L.offset j) + _ = _ := CacheFiles.cursor_next hc hcover
    have hspan := (Layout.overlaps_iff_clip hc hcover.split.1).mp (Layout.overlaps_split h).1
    obtain ⟨next, hplace, hlen, hnext⟩ := hbuf.next hbs.length hc hcover
    obtain ⟨buf', hloop, hlen', hall⟩ := ih (p := p ++ [j]) (by simpa using h) hnext
    rw [List.length_append, List.length_singleton] at hloop
    refine ⟨buf', ?_, hlen'.trans hlen, hall⟩
    rw [loadLoop_cons hp hc h hcount, readPart_present (hbs.parts p j js h) rfl (by omega)
      (hcursor.trans_le Layout.cursor_le) (lt_of_le_of_lt Layout.bytesOf_le hp), hplace]
    exact hloop

omit hp hc in
/-- A chunk of one file. Source: `MultiDataChecker::loadChunk`. Kind: L -/
theorem loadChunk_one (t : Torrent) {cs j : ℕ} {buf : List UInt8} (h : t.calcChunkPos c = [j]) :
    loadChunk disk excluded t c cs buf =
      if excluded j then some (buf, false)
      else (readFullChunk disk t c cs (getFile t j) buf).map fun buf => (buf, true) := by
  unfold loadChunk
  rw [h]

omit hp hc in
/-- A chunk of several files. Source: `MultiDataChecker::loadChunk`. Kind: L -/
theorem loadChunk_many (t : Torrent) {cs : ℕ} {buf : List UInt8}
    (h : (t.calcChunkPos c).length ≠ 1) :
    loadChunk disk excluded t c cs buf =
      loadLoop disk excluded t c cs (t.calcChunkPos c).length 0 0 (t.calcChunkPos c) buf := by
  unfold loadChunk
  generalize t.calcChunkPos c = ks at h ⊢
  rcases ks with _ | ⟨j, _ | ⟨k, ks⟩⟩
  · rfl
  · exact absurd rfl h
  · rfl

/-- **Gathering a chunk never leaves the buffer.**. Source: `MultiDataChecker::loadChunk`.
Kind: P -/
theorem loadChunk_total (hb : disk.Bounded excluded L) (hfiles : L.files ≠ []) {buf : List UInt8}
    (hbuf : L.bytesOf c ≤ buf.length) : ∃ buf' found,
      loadChunk disk excluded L.torrent c (L.bytesOf c) buf = some (buf', found) ∧
        buf'.length = buf.length := by
  have hcover := L.covers_calcChunkPos c
  have hzero := CacheFiles.cursor_start hc hcover (hcover.ne_nil hc hfiles)
  by_cases hone : (L.torrent.calcChunkPos c).length = 1
  · obtain ⟨j, hj⟩ := List.length_eq_one_iff.mp hone
    rw [loadChunk_one _ hj]
    by_cases hex : excluded j = true
    · exact ⟨buf, false, if_pos hex, rfl⟩
    · rw [if_neg hex]
      unfold readFullChunk
      cases disk.cache (getFile L.torrent j).path with
      | none => exact ⟨buf, true, rfl, rfl⟩
      | some file =>
        obtain ⟨buf', hplace, hlen⟩ := place_total buf 0
          ((file.drop ((getFile L.torrent j).fileOffset c L.torrent.piece_length)).take
            (L.bytesOf c)) (by rw [List.length_take]; omega)
        simp only [hplace]
        exact ⟨buf', true, rfl, hlen⟩
  · obtain ⟨buf', found, hloop, hlen⟩ :=
      loadLoop_total hp hc hb (p := []) (List.nil_append _).symm hone hbuf
    rw [hzero] at hloop
    exact ⟨buf', found, (loadChunk_many _ hone).trans hloop, hlen⟩

/-- **A chunk that the disk has is gathered**, whatever the buffer holds.
Source: `MultiDataChecker::loadChunk`. Kind: P -/
theorem loadChunk_present {bs : List UInt8} (hbs : Present disk excluded L c bs)
    (hfiles : L.files ≠ []) {buf : List UInt8} (hbuf : L.bytesOf c ≤ buf.length) : ∃ buf',
      loadChunk disk excluded L.torrent c (L.bytesOf c) buf = some (buf', true) ∧
        buf'.length = buf.length ∧ L.Gathered c bs (L.bytesOf c) buf' := by
  have hcover := L.covers_calcChunkPos c
  have hzero := CacheFiles.cursor_start hc hcover (hcover.ne_nil hc hfiles)
  have hstart : L.Gathered c bs (CacheFiles.cursor L c (L.torrent.calcChunkPos c)) buf :=
    hzero ▸ Layout.gathered_zero hbuf
  by_cases hone : (L.torrent.calcChunkPos c).length = 1
  · -- one file has all of it
    obtain ⟨j, hj⟩ := List.length_eq_one_iff.mp hone
    have hcover' : L.Covers c ([] ++ [j]) := by rw [← hj]; exact hcover
    have hfirst := hcover'.clip_first hc
    rw [hj] at hstart
    obtain ⟨next, hplace, hlen, hnext⟩ := Layout.Gathered.next hbs.length hc hcover' hstart
    refine ⟨next, ?_, hlen, hnext⟩
    have hex := hbs.wanted j hj
    have hpart := hbs.parts [] j [] hj
    unfold part at hpart
    simp only [hex] at hpart
    obtain ⟨file, hfile, hread⟩ := Option.bind_eq_some_iff.mp hpart
    obtain ⟨-, hread⟩ := ofLength_eq_some hread
    rw [hcover'.clip_last hc, hfirst, Nat.sub_zero] at hread
    rw [hfirst, ← hread] at hplace
    rw [loadChunk_one _ hj, hex, if_neg Bool.false_ne_true]
    unfold readFullChunk
    rw [show disk.cache (getFile L.torrent j).path = _ from hfile]
    exact congrArg (Option.map fun buf => (buf, true)) hplace
  · obtain ⟨buf', hloop, hrest⟩ :=
      loadLoop_present hp hc hbs (p := []) (List.nil_append _).symm hone hstart
    rw [hzero] at hloop
    exact ⟨buf', (loadChunk_many _ hone).trans hloop, hrest⟩

end loop

end MultiDataChecker

end KTorrent.Check
