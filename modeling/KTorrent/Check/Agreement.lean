import KTorrent.Check.Soundness
import KTorrent.Check.TorrentCreator
import Mathlib.Data.List.Forall2

/-!
# Creator and checker agree

What the creator hashes for a chunk are the bytes of the chunk in the concatenated files, and the
checker gathers the same bytes for the torrent made of them. The creator walks through a list that
has empty files in it, the checker through one that has not; both walk through the chunk.

* `Agrees` — the two agree on a directory, for a size of chunks.
* `layout` — the layout of a directory; the creator's files are its files (`sameFile_layout`), and
  those it looks at for a chunk walk through the chunk (`covers_nearby`).
* `savePieces_after` — the buffer of the hashes holds them one behind the other; when its size wraps
  around it is left (`bigSize_of_copied`).
* `agrees_iff` — they agree exactly when the hashes fit in a string whose length is an `int`.

Source: `torrent/torrentcreator.cpp`, `datachecker/multidatachecker.cpp`
-/

namespace KTorrent.Storage.Layout

open KTorrent.Lib KTorrent.Util

variable (L : Layout)

/-- The files hold the data: each the bytes from its offset on. Kind: D -/
def Stored (data : List UInt8) (file : ℕ → List UInt8) : Prop :=
  data.length = L.file_length ∧
    ∀ j < L.files.length, file j = (data.drop (L.offset j)).take (L.getFile j).size

/-- The bytes of a chunk. Kind: D -/
def chunkOf (data : List UInt8) (c : ℕ) : List UInt8 :=
  (data.drop (L.chunkStart c)).take (L.bytesOf c)

variable {L} {data : List UInt8} {file : ℕ → List UInt8} {c : ℕ}

/-- The data of a chunk is as long as the chunk. Source: `torrent/torrentcreator.cpp`,
`datachecker/multidatachecker.cpp`. Kind: L -/
theorem Stored.length_chunkOf (hs : L.Stored data file) (c : ℕ) :
    (L.chunkOf data c).length = L.bytesOf c := by
  have hend := chunkEnd_le (L := L) (c := c)
  unfold chunkOf
  rw [List.length_take, List.length_drop, hs.1]
  unfold bytesOf
  omega

/-- What is read of a file of the list is its part of the chunk. Source: `CacheFile::read`.
Kind: L -/
theorem Stored.read_eq (hs : L.Stored data file) (hc : c < L.numChunks) {pre post : List ℕ}
    {j : ℕ} (h : L.Covers c (pre ++ j :: post)) :
    ((file j).drop (CacheFiles.position L.piece_length c pre.length (L.getFile j))).take
        (L.clip c (L.offset (j + 1)) - L.clip c (L.offset j)) =
      CacheFiles.share L c (L.chunkOf data c) j := by
  have hpos := h.position_eq hc
  have hadd := h.position_add_le hc
  have hle := clip_le (L := L) (c := c) (L.offset (j + 1))
  rw [hs.2 j h.split.1]
  unfold CacheFiles.share chunkOf
  rw [List.drop_take, List.take_take, List.drop_drop, List.drop_take, List.take_take,
    List.drop_drop, hpos]
  congr 1
  omega

end KTorrent.Storage.Layout

namespace KTorrent.Check

open KTorrent.Lib KTorrent.Util KTorrent.Storage

namespace Directory

variable (dir : Directory)

/-- The chunks, one after the other. Kind: D -/
def chunks (chunk_size : ℕ) : List (List UInt8) :=
  (List.range (dir.numChunks chunk_size)).map (dir.chunk chunk_size)

/-- The directory, unchanged. Kind: D -/
def disk : Disk where
  cache := fun path => if path ∈ dir.listing.map Prod.snd then some (dir.content path) else none
  dnd := fun _ => none

/-- The files as a torrent describes them. Kind: D -/
def specs : List FileSpec := dir.listing.map fun e => ⟨e.2, (dir.content e.2).length, false⟩

/-- What the `j`-th file holds. Kind: D -/
def file (j : ℕ) : List UInt8 := dir.listing[j]?.elim [] fun e => dir.content e.2

/-- The numbers a creator can hold, and a decoder can read. Kind: D -/
def Fits (chunk_size : ℕ) : Prop :=
  0 < chunk_size ∧ chunk_size < 2 ^ 31 ∧ dir.numChunks chunk_size * 20 < 2 ^ 31

end Directory

open Directory TorrentCreator

/-- **Creator and checker agree**: the creator hashes the chunks of the concatenated files, and the
checker, on the unchanged directory, hashes the same bytes for the torrent that was made, which has
as many chunks, and finds all of it downloaded. Kind: D -/
def Agrees (dir : Directory) (cs : ℕ) : Prop :=
  ∃ tc, make dir cs = some tc ∧
    ∀ (junk : ℕ → Mem) (fresh junk' : Mem) (name : TQString), ∃ done big_hash t,
      savePieces dir junk fresh tc = some (done, big_hash) ∧
      done.hashed = dir.chunks (cs * 1024) ∧
      done.torrent name big_hash = some t ∧
      t.getNumChunks = dir.numChunks (cs * 1024) ∧
      ∃ s, MultiDataChecker.check dir.disk (fun _ => false) t junk' = some s ∧
        s.1.hashed = done.hashed.map some ∧
        ∀ c < t.getNumChunks, s.1.downloaded.get c = true ∧ s.1.failed.get c = false

/-! ### The layout of a directory -/

namespace Directory

variable {dir : Directory} {n : ℕ}

/-- The files' sizes are those of the data. Source: `torrent/torrentcreator.cpp`,
`datachecker/multidatachecker.cpp`. Kind: L -/
theorem sum_specs (dir : Directory) : (dir.specs.map FileSpec.size).sum = dir.data.length := by
  unfold specs data
  rw [List.length_flatMap, List.map_map]
  rfl

/-- The data fits in 63 bits. Source: `torrent/torrentcreator.cpp`,
`datachecker/multidatachecker.cpp`. Kind: L -/
theorem Fits.length_lt (h : dir.Fits n) : dir.data.length < 2 ^ 63 := by
  obtain ⟨hpos, hn, hlt⟩ := h
  have hdiv := (Nat.div_lt_iff_lt_mul hpos).mp (show dir.numChunks n < 2 ^ 32 by omega)
  have hle : 2 ^ 32 * n ≤ 2 ^ 32 * 2 ^ 31 := Nat.mul_le_mul_left _ hn.le
  omega

/-- The chunks are counted in 32. Source: `torrent/torrentcreator.cpp`,
`datachecker/multidatachecker.cpp`. Kind: L -/
theorem Fits.chunks_lt (h : dir.Fits n) : dir.numChunks n < 2 ^ 32 := by
  have := h.2.2
  omega

/-- The torrent of a directory whose numbers fit. Kind: D -/
def layout (dir : Directory) (n : ℕ) (h : dir.Fits n) (name : TQString) : Layout where
  name := name
  piece_length := n
  file_length := dir.data.length
  files := dir.specs
  hash_pieces := (dir.chunks n).map generate
  multimedia := false
  piece_pos := h.1
  piece_lt := by have := h.2.1; omega
  length_lt := by have := h.length_lt; omega
  tiles := fun _ => sum_specs dir
  hashes := by simp [chunks, numChunks]
  chunks_lt := by simpa [chunks] using h.chunks_lt

variable (h : dir.Fits n) (name : TQString)

/-- The layout has the creator's number of chunks. Source: `torrent/torrentcreator.cpp`,
`datachecker/multidatachecker.cpp`. Kind: L -/
theorem numChunks_layout : (dir.layout n h name).numChunks = dir.numChunks n := by
  simp [layout, Layout.numChunks, chunks]

/-- The files hold the data. Source: `torrent/torrentcreator.cpp`,
`datachecker/multidatachecker.cpp`. Kind: L -/
theorem stored : (dir.layout n h name).Stored dir.data dir.file := by
  refine ⟨rfl, fun j hj => ?_⟩
  have hj' : j < dir.listing.length := by simpa [layout, specs] using hj
  have hsize : ((dir.layout n h name).getFile j).size = (dir.content dir.listing[j].2).length := by
    rw [Layout.getFile_eq _ hj]
    simp [TorrentFile.make, layout, specs]
  have hoff : (dir.layout n h name).offset j =
      (((dir.listing.map fun e => dir.content e.2).map List.length).take j).sum := by
    unfold Layout.offset layout specs
    simp only [← List.map_take, List.map_map]
    rfl
  have hfile : dir.file j = dir.content dir.listing[j].2 := by
    unfold file
    rw [List.getElem?_eq_getElem hj']
    rfl
  have hdrop : dir.data.drop ((dir.layout n h name).offset j) =
      ((dir.listing.drop j).map fun e => dir.content e.2).flatten := by
    unfold data
    rw [hoff, List.flatMap_def, List.drop_sum_flatten, List.map_drop]
  rw [hfile, hsize, hdrop, List.drop_eq_getElem_cons hj', List.map_cons, List.flatten_cons,
    List.take_left]

/-- The files of the layout are those of the directory. Source: `torrent/torrentcreator.cpp`,
`datachecker/multidatachecker.cpp`. Kind: L -/
theorem path_mem {j : ℕ} (hj : j < (dir.layout n h name).files.length) :
    ((dir.layout n h name).getFile j).path ∈ dir.listing.map Prod.snd ∧
      dir.content ((dir.layout n h name).getFile j).path = dir.file j := by
  have hj' : j < dir.listing.length := by simpa [layout, specs] using hj
  have hpath : ((dir.layout n h name).getFile j).path = dir.listing[j].2 := by
    rw [Layout.getFile_eq _ hj]
    simp [TorrentFile.make, layout, specs]
  unfold file
  rw [hpath, List.getElem?_eq_getElem hj']
  exact ⟨List.mem_map_of_mem (List.getElem_mem hj'), rfl⟩

/-- A torrent with chunks has files. Source: none: infrastructure. Kind: L -/
theorem specs_ne_nil {c : ℕ} (hc : c < dir.numChunks n) : (dir.layout n h name).files ≠ [] := by
  intro hnil
  have hlt : c * n < dir.data.length :=
    (dir.layout n h name).mul_lt_of_lt_numChunks (by rw [numChunks_layout]; exact hc)
  have hsum := sum_specs dir
  rw [show dir.specs = [] from hnil] at hsum
  simp at hsum
  omega

/-- The bytes of a chunk. Source: `torrent/torrentcreator.cpp`, `datachecker/multidatachecker.cpp`.
Kind: L -/
theorem chunkOf_layout {c : ℕ} (hc : c < dir.numChunks n) :
    (dir.layout n h name).chunkOf dir.data c = dir.chunk n c := by
  have hstart : c * n < dir.data.length :=
    (dir.layout n h name).mul_lt_of_lt_numChunks (by rw [numChunks_layout]; exact hc)
  unfold Layout.chunkOf chunk Layout.bytesOf Layout.chunkEnd Layout.chunkStart
  show (dir.data.drop (c * n)).take (min ((c + 1) * n) dir.data.length - c * n) = _
  rw [List.take_eq_take_iff, List.length_drop, Nat.succ_mul]
  omega

/-- The hashes are those of the chunks. Source: `Torrent::getHash`. Kind: L -/
theorem getHash_layout {c : ℕ} (hc : c < dir.numChunks n) :
    (dir.layout n h name).torrent.getHash c = some (generate (dir.chunk n c)) := by
  simp [Torrent.getHash, Layout.torrent, layout, chunks, hc]

/-- The unchanged directory has every chunk. Source: `torrent/torrentcreator.cpp`,
`datachecker/multidatachecker.cpp`. Kind: L -/
theorem present_disk {c : ℕ} (hc : c < dir.numChunks n) :
    Present dir.disk (fun _ => false) (dir.layout n h name) c (dir.chunk n c) := by
  have hc' : c < (dir.layout n h name).numChunks := by rw [numChunks_layout]; exact hc
  rw [← chunkOf_layout h name hc]
  have hlen := (stored h name).length_chunkOf c
  refine ⟨hlen, fun j _ => rfl, fun pre j post hj => ?_⟩
  have hcover : (dir.layout n h name).Covers c (pre ++ j :: post) :=
    hj ▸ (dir.layout n h name).covers_calcChunkPos c
  obtain ⟨hmem, hcontent⟩ := path_mem h name hcover.split.1
  have hcache : dir.disk.cache ((dir.layout n h name).getFile j).path = some (dir.file j) := by
    rw [← hcontent]
    exact if_pos hmem
  unfold part
  simp only [hcache]
  rw [if_neg Bool.false_ne_true, Option.bind_some, (stored h name).read_eq hc' hcover]
  exact if_pos (CacheFiles.length_share hlen j)

end Directory

/-! ### The creator's own files -/

namespace TorrentCreator

variable {dir : Directory} {n : ℕ}

/-- The creator's files are those of the torrent, apart from their numbers. Kind: D -/
def SameFile (f g : TorrentFile) : Prop := ∃ i, f = { g with index := i }

/-- The files the creator makes from an offset on. Kind: D -/
def filesFrom (dir : Directory) (n : ℕ) : ℕ → List (ℕ × TQString) → List TorrentFile
  | _, [] => []
  | off, e :: es =>
    TorrentFile.make e.1 e.2 off (dir.content e.2).length n false ::
      filesFrom dir n (off + (dir.content e.2).length) es

/-- The total size does not overflow. Source: `TorrentCreator::buildFileList`. Kind: L -/
theorem foldl_addFile (es : List (ℕ × TQString)) (off : ℕ) (acc : List TorrentFile)
    (h : off + (es.flatMap fun e => dir.content e.2).length < 2 ^ 64) :
    es.foldl (addFile dir n) (off, acc) =
      (off + (es.flatMap fun e => dir.content e.2).length, acc ++ filesFrom dir n off es) := by
  induction es generalizing off acc with
  | nil => simp [filesFrom]
  | cons e es ih =>
    rw [List.flatMap_cons, List.length_append] at h ⊢
    have hstep : addFile dir n (off, acc) e = (off + (dir.content e.2).length,
        acc ++ [TorrentFile.make e.1 e.2 off (dir.content e.2).length n false]) := by
      unfold addFile
      simp only
      rw [u64_of_lt (show (dir.content e.2).length < 2 ^ 64 by omega), u64_of_lt (by omega)]
    rw [List.foldl_cons, hstep, ih _ _ (by omega), filesFrom, List.append_assoc,
      List.singleton_append, Nat.add_assoc]

/-- The creator lists the files the layout has. Source: `torrent/torrentcreator.cpp`,
`datachecker/multidatachecker.cpp`. Kind: L -/
theorem sameFile_filesFrom (es : List (ℕ × TQString)) (idx off : ℕ) :
    List.Forall₂ SameFile (filesFrom dir n off es)
      (makeFiles n idx off (es.map fun e => ⟨e.2, (dir.content e.2).length, false⟩)) := by
  induction es generalizing idx off with
  | nil => exact List.Forall₂.nil
  | cons e es ih => exact List.Forall₂.cons ⟨e.1, rfl⟩ (ih (idx + 1) _)

variable (h : dir.Fits n) (name : TQString)

include h in
/-- What the creator lists, and its total. Source: `TorrentCreator::buildFileList`. Kind: L -/
theorem buildFileList_eq :
    buildFileList dir n = (dir.data.length, filesFrom dir n 0 dir.listing) := by
  have hlen := h.length_lt
  have hfold := foldl_addFile (n := n) dir.listing 0 []
    (by rw [Nat.zero_add]; exact hlen.trans (by decide))
  rw [Nat.zero_add, List.nil_append] at hfold
  exact hfold

/-- The creator's files, one for each of the torrent's. Source: `torrent/torrentcreator.cpp`,
`datachecker/multidatachecker.cpp`. Kind: L -/
theorem sameFile_layout :
    List.Forall₂ (fun f j => SameFile f ((dir.layout n h name).getFile j))
      (filesFrom dir n 0 dir.listing) (List.range dir.specs.length) := by
  rw [← List.forall₂_map_right_iff (f := (dir.layout n h name).getFile)]
  have hfiles : (List.range dir.specs.length).map (dir.layout n h name).getFile =
      (dir.layout n h name).torrent.files := by
    apply List.ext_getElem
    · simp [layout]
    · intro j h1 h2
      rw [List.getElem_map, List.getElem_range, Layout.getFile, List.getD_eq_getElem _ _ h2]
  rw [hfiles]
  exact sameFile_filesFrom dir.listing 0 0

/-- What is written of the files. Source: `torrent/torrentcreator.cpp`,
`datachecker/multidatachecker.cpp`. Kind: L -/
theorem specs_filesFrom (es : List (ℕ × TQString)) (off : ℕ) :
    (filesFrom dir n off es).map (fun f => (⟨f.path, f.size, false⟩ : FileSpec)) =
      es.map fun e => ⟨e.2, (dir.content e.2).length, false⟩ := by
  induction es generalizing off with
  | nil => rfl
  | cons e es ih =>
    rw [filesFrom, List.map_cons, ih]
    rfl

/-! ### The loop over the files of a chunk -/

/-- The files that the creator looks at for a chunk. Kind: D -/
def nearby (L : Layout) (c : ℕ) : List ℕ :=
  (List.range L.files.length).filter fun j => near c (L.getFile j)

/-- They walk through the chunk, the empty ones among them. Source: `torrent/torrentcreator.cpp`,
`datachecker/multidatachecker.cpp`. Kind: L -/
theorem covers_nearby (L : Layout) (c : ℕ) : L.Covers c (nearby L c) where
  sorted := List.pairwise_lt_range.filter _
  complete := by
    intro j hover
    have hj := hover.1
    obtain ⟨-, hfirst, hlast⟩ := (L.overlaps_iff hj).mp hover
    simp only [nearby, List.mem_filter, List.mem_range, near, Bool.and_eq_true, decide_eq_true_eq]
    exact ⟨hj, hfirst, hlast⟩
  near := by
    intro j hj
    simp only [nearby, List.mem_filter, List.mem_range, TorrentCreator.near, Bool.and_eq_true,
      decide_eq_true_eq] at hj
    exact hj

/-- What is read of a file is the span of it. Source: `TorrentCreator::calcHashMulti`. Kind: L -/
theorem readLoop_cons {c s count i read j : ℕ} {L : Layout} {f : TorrentFile}
    (hf : SameFile f (L.getFile j)) (hread : read ≤ s) (hs : s < 2 ^ 32) (fs : List TorrentFile)
    (buf : List UInt8) :
    readLoop dir c L.piece_length s count i read (f :: fs) buf =
      (place buf read (((dir.content (L.getFile j).path).drop
        (CacheFiles.position L.piece_length c i (L.getFile j))).take
          (CacheFiles.amount s count i read (L.getFile j)))).bind fun buf =>
            readLoop dir c L.piece_length s count (i + 1)
              (u32 (read + CacheFiles.amount s count i read (L.getFile j))) fs buf := by
  have hrest : sub32 s read = u32 (sub64 s read) := by
    rw [sub32_of_le hread hs, sub64_of_le hread (by omega), u32_of_lt (by omega)]
  obtain ⟨k, rfl⟩ := hf
  rw [readLoop, hrest]
  rfl

/-- **The loop over the files of a chunk** gathers the rest of it.
Source: `TorrentCreator::calcHashMulti`. Kind: P -/
theorem readLoop_stored {L : Layout} {data : List UInt8} {file : ℕ → List UInt8} {c : ℕ}
    (hs : L.Stored data file)
    (hd : ∀ j < L.files.length, dir.content (L.getFile j).path = file j)
    (hp : L.piece_length < 2 ^ 32) (hc : c < L.numChunks) {ks : List ℕ} (hks : L.Covers c ks)
    {p rest : List ℕ} (h : ks = p ++ rest) {fs : List TorrentFile}
    (hfs : List.Forall₂ (fun f j => SameFile f (L.getFile j)) fs rest) {buf : List UInt8}
    (hbuf : L.Gathered c (L.chunkOf data c) (CacheFiles.cursor L c rest) buf) :
    ∃ buf', readLoop dir c L.piece_length (L.bytesOf c) ks.length p.length
        (CacheFiles.cursor L c rest) fs buf = some buf' ∧ buf'.length = buf.length ∧
      L.Gathered c (L.chunkOf data c) (L.bytesOf c) buf' := by
  induction hfs generalizing p buf with
  | nil => exact ⟨buf, rfl, rfl, hbuf⟩
  | @cons f j fs js hf hfs ih =>
    have hcover : L.Covers c (p ++ j :: js) := h ▸ hks
    have hsize : L.bytesOf c < 2 ^ 32 := lt_of_le_of_lt Layout.bytesOf_le hp
    obtain ⟨next, hplace, hlen, hnext⟩ := hbuf.next (hs.length_chunkOf c) hc hcover
    obtain ⟨buf', hloop, hlen', hall⟩ := ih (p := p ++ [j]) (by simpa using h) hnext
    refine ⟨buf', ?_, hlen'.trans hlen, hall⟩
    have hcursor : L.clip c (L.offset j) + _ = _ := CacheFiles.cursor_next hc hcover
    have hle : CacheFiles.cursor L c js ≤ L.bytesOf c := Layout.cursor_le
    rw [h] at hloop ⊢
    show readLoop dir c _ _ _ _ (L.clip c (L.offset j)) _ _ = _
    rw [readLoop_cons hf (Layout.clip_le _) hsize, hd j hcover.split.1, hcover.amount_eq hc hsize,
      hs.read_eq hc hcover, hplace, Option.bind_some, hcursor, u32_of_lt (by omega)]
    simpa only [List.length_append, List.length_singleton] using hloop

/-! ### The run over all chunks -/

/-- The size of the last chunk. Source: `TorrentCreator::TorrentCreator`. Kind: D -/
def lastSize (len n : ℕ) : ℕ := if len % n = 0 then n else len % n

/-- The creator of a directory whose numbers fit, after `k` chunks. Kind: D -/
def after (dir : Directory) (n k : ℕ) : TorrentCreator where
  chunk_size := n
  num_chunks := dir.numChunks n
  last_size := lastSize dir.data.length n
  tot_size := dir.data.length
  files := filesFrom dir n 0 dir.listing
  cur_chunk := k
  hashes := (List.range k).map fun c => generate (dir.chunk n c)
  hashed := (List.range k).map (dir.chunk n)

/-- The number of chunks, as it is computed. Source: `torrent/torrentcreator.cpp`,
`datachecker/multidatachecker.cpp`. Kind: L -/
theorem numChunks_eq (h : dir.Fits n) :
    LoadTorrent.numChunks dir.data.length n = dir.numChunks n := by
  have hnum : dir.numChunks n = dir.data.length / n + if dir.data.length % n > 0 then 1 else 0 :=
    ceil_div _ h.1
  have hlt := h.chunks_lt
  unfold LoadTorrent.numChunks
  rw [hnum] at hlt ⊢
  by_cases hmod : dir.data.length % n > 0
  · rw [if_pos hmod] at hlt ⊢
    rw [if_pos hmod, u32_of_lt (show dir.data.length / n < 2 ^ 32 by omega), u32_of_lt (by omega)]
  · rw [if_neg hmod] at hlt ⊢
    rw [if_neg hmod, u32_of_lt (by omega), Nat.add_zero]

/-- A creator that starts has hashed nothing. Source: `TorrentCreator::TorrentCreator`. Kind: L -/
theorem make_eq {cs : ℕ} (h : dir.Fits (cs * 1024)) :
    make dir cs = some (after dir (cs * 1024) 0) := by
  unfold make after lastSize
  rw [if_neg (by have := h.1; have := h.2.1; omega), buildFileList_eq h]
  simp only [Option.some.injEq, TorrentCreator.mk.injEq, true_and]
  exact ⟨numChunks_eq h, rfl, rfl⟩

include h

variable (junk : ℕ → Mem)

/-- **One chunk.**. Source: `TorrentCreator::calcHashMulti`. Kind: P -/
theorem calcHashMulti_eq (name : TQString) {k : ℕ} (hk : k < dir.numChunks n) :
    calcHashMulti dir junk (after dir n k) =
      some (after dir n (k + 1), decide (k + 1 ≥ dir.numChunks n)) := by
  have hlt := h.chunks_lt
  have hk' : k < (dir.layout n h name).numChunks := by rw [numChunks_layout]; exact hk
  have hn32 : n < 2 ^ 32 := h.2.1.trans (by decide)
  have hsize : (after dir n k).sizeOf = (dir.layout n h name).bytesOf k := by
    show (if k ≠ sub32 (dir.numChunks n) 1 then n else u32 (lastSize dir.data.length n)) = _
    have hn : (dir.layout n h name).numChunks = dir.numChunks n := numChunks_layout h name
    rw [sub32_of_le (by omega) hlt]
    by_cases hend : k = dir.numChunks n - 1
    · have hmod := Nat.mod_lt dir.data.length h.1
      have hle : lastSize dir.data.length n ≤ n := by
        unfold lastSize
        split_ifs <;> omega
      rw [if_neg (not_not.mpr hend), Layout.bytesOf_last (by omega), u32_of_lt (by omega)]
      rfl
    · rw [if_pos hend, Layout.bytesOf_of_succ_lt (by omega)]
      rfl
  have hcover := covers_nearby (dir.layout n h name) k
  have hne := hcover.ne_nil hk' (specs_ne_nil h name hk)
  have hlist : List.Forall₂ (fun f j => SameFile f ((dir.layout n h name).getFile j))
      ((filesFrom dir n 0 dir.listing).filter (near k)) (nearby (dir.layout n h name) k) := by
    refine List.rel_filter (fun f j hf => ?_) (sameFile_layout h name)
    obtain ⟨i, rfl⟩ := hf
    rfl
  have hzero := CacheFiles.cursor_start hk' hcover hne
  let fresh := slice (junk k) 0 ((dir.layout n h name).bytesOf k)
  have hfresh : fresh.length = (dir.layout n h name).bytesOf k := length_slice _ _ _
  obtain ⟨buf, hloop, hlen, hbuf⟩ :=
    readLoop_stored (stored h name) (fun j hj => (path_mem h name hj).2) hn32 hk' hcover (p := [])
      (List.nil_append _).symm hlist (hzero ▸ Layout.gathered_zero hfresh.ge)
  have hchunk := hbuf.take_eq ((stored h name).length_chunkOf k)
  rw [chunkOf_layout h name hk, List.take_of_length_le (by rw [hlen, hfresh])] at hchunk
  rw [hzero, hchunk] at hloop
  have hread : readLoop dir k n ((dir.layout n h name).bytesOf k)
      (nearby (dir.layout n h name) k).length 0 0
      ((filesFrom dir n 0 dir.listing).filter (near k)) fresh =
        some (dir.chunk n k) := hloop
  unfold calcHashMulti
  rw [hsize]
  dsimp only [after]
  rw [hlist.length_eq, hread, u32_of_lt (by omega)]
  simp [List.range_succ]

/-- **The run over all chunks**: from the `k`-th on, there are `d` left.
Source: `TorrentCreator::savePieces`. Kind: P -/
theorem calculateHashes_eq {d k : ℕ} (hd : k + d = dir.numChunks n) :
    calculateHashes dir junk (d + 1) (after dir n k) =
      some (after dir n (dir.numChunks n)) := by
  induction d generalizing k with
  | zero =>
    obtain rfl : k = dir.numChunks n := by omega
    simp [calculateHashes, calculateHash, after]
  | succ d ih =>
    have hcalc : calculateHash dir junk (after dir n k) =
        some (after dir n (k + 1), decide (k + 1 ≥ dir.numChunks n)) := by
      rw [← calcHashMulti_eq h junk [] (by omega)]
      unfold calculateHash
      rw [if_neg (by simp only [after]; omega)]
    rw [calculateHashes, hcalc]
    simp only [Option.bind_eq_bind, Option.bind_some]
    by_cases hlast : k + 1 ≥ dir.numChunks n
    · obtain rfl : d = 0 := by omega
      rw [if_pos (by simpa using hlast)]
      have hend : k + 1 = dir.numChunks n := by omega
      rw [hend]
      rfl
    · rw [if_neg (by simpa using hlast)]
      exact ih (by omega)

/-! ### The buffer of the hashes -/

omit h in
/-- When all hashes were copied, the place of each was inside the buffer.
Source: `torrent/torrentcreator.cpp`, `datachecker/multidatachecker.cpp`. Kind: L -/
theorem copied_inside {tc : TorrentCreator} {m : ℕ} {big_hash big_hash' : List UInt8}
    (hrun : (List.range m).foldlM tc.copyHash big_hash = some big_hash') :
    big_hash'.length = big_hash.length ∧ ∀ i < m, u32 (20 * i) + 20 ≤ big_hash.length := by
  induction m generalizing big_hash' with
  | zero =>
    cases hrun
    exact ⟨rfl, fun i hi => absurd hi (Nat.not_lt_zero i)⟩
  | succ m ih =>
    rw [List.range_succ, List.foldlM_append] at hrun
    obtain ⟨mid, hmid, hlast⟩ := Option.bind_eq_some_iff.mp hrun
    obtain ⟨hlen, hall⟩ := ih hmid
    rw [List.foldlM_cons] at hlast
    obtain ⟨last, hcopy, hnil⟩ := Option.bind_eq_some_iff.mp hlast
    cases hnil
    obtain ⟨hash, -, hplace⟩ := Option.bind_eq_some_iff.mp hcopy
    unfold place at hplace
    split_ifs at hplace with hfit
    cases hplace
    have h20 : hash.toList.length = 20 := by simp
    rw [h20] at hfit
    refine ⟨by rw [length_writeAt, h20]; omega, fun i hi => ?_⟩
    rcases Nat.lt_succ_iff_lt_or_eq.mp hi with hlt | rfl
    · exact hall i hlt
    · omega

omit h in
/-- The size of the buffer has not wrapped around when all hashes were copied.
Source: `TorrentCreator::savePieces`. Kind: L -/
theorem bigSize_of_copied {tc : TorrentCreator} {fresh : Mem} {big_hash : List UInt8}
    (hrun : (List.range tc.num_chunks).foldlM tc.copyHash (slice fresh 0 tc.bigSize) =
      some big_hash) :
    tc.num_chunks * 20 < 2 ^ 32 ∧ big_hash.length = tc.num_chunks * 20 := by
  obtain ⟨hlen, hall⟩ := copied_inside hrun
  rw [length_slice] at hlen hall
  have hbig : tc.bigSize < 2 ^ 32 := u32_lt _
  have hnum : tc.num_chunks * 20 < 2 ^ 32 := by
    by_contra hge
    -- the last place below the bound has no room for a hash
    have hroom := hall 214748364 (by omega)
    rw [u32_of_lt (by omega)] at hroom
    omega
  exact ⟨hnum, hlen.trans (u32_of_lt hnum)⟩

omit h in
/-- Some hashes, one behind the other. Kind: D -/
def written (hashes : List SHA1Hash) : List UInt8 := hashes.flatMap Vector.toList

omit h in
/-- A hash is written in 20 bytes. Source: `torrent/torrentcreator.cpp`,
`datachecker/multidatachecker.cpp`. Kind: L -/
theorem length_written (hashes : List SHA1Hash) : (written hashes).length = hashes.length * 20 := by
  induction hashes with
  | nil => rfl
  | cons hash hashes ih =>
    rw [written, List.flatMap_cons, List.length_append, ← written, ih, List.length_cons]
    simp
    omega

omit h in
/-- **The loop that copies the hashes**, after `m` of them. Source: `TorrentCreator::savePieces`.
Kind: P -/
theorem copyHash_loop {tc : TorrentCreator} {big_hash : List UInt8}
    (hbig : big_hash.length = tc.hashes.length * 20) (hlt : tc.hashes.length * 20 < 2 ^ 32) {m : ℕ}
    (hm : m ≤ tc.hashes.length) : (List.range m).foldlM tc.copyHash big_hash =
      some (written (tc.hashes.take m) ++ big_hash.drop (m * 20)) := by
  induction m with
  | zero => simp [written]
  | succ m ih =>
    have hget : m < tc.hashes.length := hm
    have hfront : (written (tc.hashes.take m)).length = m * 20 := by
      rw [length_written, List.length_take, Nat.min_eq_left hget.le]
    have h20 : tc.hashes[m].toList.length = 20 := by simp
    rw [List.range_succ, List.foldlM_append, ih hget.le, Option.bind_eq_bind, Option.bind_some,
      List.foldlM_cons, copyHash, List.getElem?_eq_getElem hget, u32_of_lt (by omega)]
    simp only [Option.bind_eq_bind, Option.bind_some]
    rw [place_eq (by rw [List.length_append, List.length_drop, h20, hfront]; omega)]
    simp only [List.foldlM_nil, Option.bind_some, Option.pure_def, Option.some.injEq]
    have htake : written (tc.hashes.take (m + 1)) =
        written (tc.hashes.take m) ++ tc.hashes[m].toList := by
      rw [List.take_add_one, List.getElem?_eq_getElem hget, written, List.flatMap_append, ← written]
      simp
    rw [writeAt, htake, show 20 * m = (written (tc.hashes.take m)).length by omega,
      List.take_left, List.drop_append, h20]
    rw [List.length_append, List.length_drop, show (written (tc.hashes.take m)).length -
      ((written (tc.hashes.take m)).length + (big_hash.length - m * 20)) = 0 by omega,
      List.replicate_zero, List.append_nil, List.drop_of_length_le (by omega), List.nil_append,
      List.drop_drop]
    congr 2
    omega

omit h in
/-- What was written is read back. Source: `Torrent::loadHash`. Kind: L -/
theorem hashes_written (hashes : List SHA1Hash) :
    LoadTorrent.hashes (written hashes) = .ok hashes := by
  induction hashes with
  | nil => rw [written, List.flatMap_nil, LoadTorrent.hashes]
  | cons hash hashes ih =>
    have h20 : hash.toList.length = 20 := by simp
    obtain ⟨b, bs, hbs⟩ : ∃ b bs, hash.toList = b :: bs := List.exists_cons_of_length_eq_add_one h20
    have hcons : written (hash :: hashes) = b :: (bs ++ written hashes) := by
      rw [written, List.flatMap_cons, hbs]
      rfl
    have htake : (b :: (bs ++ written hashes)).take 20 = hash.toList := by
      rw [← List.cons_append, ← hbs, List.take_left' h20]
    have hdrop : (b :: (bs ++ written hashes)).drop 20 = written hashes := by
      rw [← List.cons_append, ← hbs, List.drop_left' h20]
    rw [hcons, LoadTorrent.hashes, dif_pos (by rw [htake, h20]), hdrop, ih]
    simp only [htake]
    rfl

/-- **All of `savePieces`**: the hashes of the chunks, one behind the other.
Source: `TorrentCreator::savePieces`. Kind: P -/
theorem savePieces_after (fresh : Mem) : savePieces dir junk fresh (after dir n 0) =
    some (after dir n (dir.numChunks n), written ((dir.chunks n).map generate)) := by
  have hcalc : calculateHashes dir junk ((after dir n 0).num_chunks + 1) (after dir n 0) =
      some (after dir n (dir.numChunks n)) := calculateHashes_eq h junk (Nat.zero_add _)
  have hhashes : (after dir n (dir.numChunks n)).hashes = (dir.chunks n).map generate := by
    simp [after, chunks]
  have hcount : (after dir n (dir.numChunks n)).hashes.length = dir.numChunks n := by simp [after]
  have hlt : dir.numChunks n * 20 < 2 ^ 32 := h.2.2.trans (by decide)
  have hsize : (after dir n (dir.numChunks n)).bigSize = dir.numChunks n * 20 := u32_of_lt hlt
  have hroom : (slice fresh 0 (dir.numChunks n * 20)).length =
      (after dir n (dir.numChunks n)).hashes.length * 20 := by rw [length_slice, hcount]
  have hloop := copyHash_loop hroom (by rw [hcount]; exact hlt) hcount.ge
  rw [List.take_of_length_le hcount.le, hhashes, List.drop_of_length_le (length_slice _ _ _).le,
    List.append_nil] at hloop
  have hnone : (after dir n 0).hashes = [] := rfl
  unfold savePieces
  rw [if_pos hnone, hcalc, Option.bind_eq_bind, Option.bind_some, hsize,
    show (after dir n (dir.numChunks n)).num_chunks = dir.numChunks n from rfl, hloop]
  rfl

/-- What is loaded of the torrent is the layout of the directory.
Source: `TorrentCreator::saveInfo`, `BDecoder::parseString`. Kind: L -/
theorem torrent_eq (name : TQString) :
    (after dir n (dir.numChunks n)).torrent name (written ((dir.chunks n).map generate)) =
      some (dir.layout n h name).torrent := by
  have hspecs : (after dir n (dir.numChunks n)).specs = dir.specs := specs_filesFrom dir.listing 0
  have hlen := h.length_lt
  have hlt := h.2.2
  have hbytes : (written ((dir.chunks n).map generate)).length = dir.numChunks n * 20 := by
    simp [length_written, chunks]
  have hcount : LoadTorrent.numChunks dir.data.length n = dir.numChunks n := numChunks_eq h
  unfold torrent
  rw [if_neg (by omega), hashes_written, hspecs, sum_specs, u64_of_lt (by omega)]
  simp only
  rw [show (after dir n (dir.numChunks n)).chunk_size = n from rfl, hcount,
    if_neg (by simp [chunks])]
  rfl

end TorrentCreator

/-! ### Agreement -/

namespace TorrentCreator

variable {dir : Directory} {junk : ℕ → Mem}

/-- One chunk has been hashed for each that was passed. Kind: D -/
structure Counted (tc : TorrentCreator) : Prop where
  hashed : tc.hashed.length = tc.cur_chunk
  cur_le : tc.cur_chunk ≤ tc.num_chunks
  num_lt : tc.num_chunks < 2 ^ 32

/-- One more hash is counted. Source: `TorrentCreator::calculateHash`. Kind: L -/
theorem Counted.calculateHash {tc tc' : TorrentCreator} {done : Bool} (h : tc.Counted)
    (hrun : tc.calculateHash dir junk = some (tc', done)) : tc'.Counted := by
  obtain ⟨hhashed, hcur, hnum⟩ := h
  unfold TorrentCreator.calculateHash at hrun
  by_cases hend : tc.cur_chunk ≥ tc.num_chunks
  · rw [if_pos hend, Option.some.injEq, Prod.mk.injEq] at hrun
    rw [← hrun.1]
    exact ⟨hhashed, hcur, hnum⟩
  · rw [if_neg hend] at hrun
    obtain ⟨buf, -, hrest⟩ := Option.bind_eq_some_iff.mp hrun
    have htc := (Prod.mk.inj (Option.some.inj hrest)).1
    have hlt : u32 (tc.cur_chunk + 1) = tc.cur_chunk + 1 := u32_of_lt (by omega)
    rw [← htc]
    refine ⟨?_, ?_, hnum⟩
    · simp only [List.length_append, List.length_singleton, hhashed, hlt]
    · simp only [hlt]
      omega

/-- The run keeps count. Source: `TorrentCreator::savePieces`. Kind: L -/
theorem Counted.calculateHashes {tc done : TorrentCreator} {k : ℕ} (h : tc.Counted)
    (hrun : tc.calculateHashes dir junk k = some done) : done.Counted := by
  induction k generalizing tc with
  | zero => cases hrun
  | succ k ih =>
    obtain ⟨⟨tc', b⟩, hcalc, hrest⟩ := Option.bind_eq_some_iff.mp hrun
    have h' := h.calculateHash hcalc
    cases b with
    | true =>
      cases hrest
      exact h'
    | false => exact ih h' hrest

/-- The hashes are all copied, one for each chunk. Source: `TorrentCreator::savePieces`. Kind: L -/
theorem Counted.savePieces {tc done : TorrentCreator} {fresh : Mem} {big_hash : List UInt8}
    (h : tc.Counted) (hrun : tc.savePieces dir junk fresh = some (done, big_hash)) :
    done.Counted ∧ big_hash.length = done.num_chunks * 20 := by
  obtain ⟨tc', hcalc, hrest⟩ := Option.bind_eq_some_iff.mp hrun
  obtain ⟨bytes, hcopy, hdone⟩ := Option.bind_eq_some_iff.mp hrest
  cases hdone
  refine ⟨?_, (bigSize_of_copied hcopy).2⟩
  split_ifs at hcalc
  · exact h.calculateHashes hcalc
  · cases hcalc
    exact h

/-- What a creator that has been made can count on. Source: `TorrentCreator::TorrentCreator`.
Kind: L -/
theorem counted_make {cs : ℕ} {tc : TorrentCreator} (h : make dir cs = some tc) :
    tc.Counted ∧ 0 < cs ∧ cs * 1024 < 2 ^ 31 := by
  unfold make at h
  by_cases hbad : cs * 1024 = 0 ∨ 2 ^ 31 ≤ cs * 1024
  · rw [if_pos hbad] at h
    cases h
  · rw [if_neg hbad] at h
    have hlt := u32_lt ((buildFileList dir (cs * 1024)).1 / (cs * 1024))
    refine ⟨?_, by omega, by omega⟩
    cases h
    refine ⟨rfl, Nat.zero_le _, ?_⟩
    show (if _ then _ else _) < _
    split_ifs
    · exact u32_lt _
    · exact hlt

end TorrentCreator

/-- **Creator and checker agree exactly when the hashes of the chunks fit in a string that can be
read.**. Source: `torrent/torrentcreator.cpp`, `datachecker/multidatachecker.cpp`. Kind: P -/
theorem agrees_iff (dir : Directory) (cs : ℕ) : Agrees dir cs ↔
    0 < cs ∧ cs * 1024 < 2 ^ 31 ∧ dir.numChunks (cs * 1024) * 20 < 2 ^ 31 := by
  constructor
  · rintro ⟨tc, hmake, hall⟩
    obtain ⟨hcount, hpos, hlt⟩ := counted_make hmake
    obtain ⟨done, big_hash, t, hrun, hhashed, hloaded, -⟩ :=
      hall (fun _ _ => 0) (fun _ => 0) (fun _ => 0) []
    obtain ⟨hdone, hbytes⟩ := hcount.savePieces hrun
    have hlen : done.hashed.length = dir.numChunks (cs * 1024) := by
      rw [hhashed]
      simp [chunks]
    have hread : ¬ 2 ^ 31 ≤ big_hash.length := by
      intro hlong
      unfold torrent at hloaded
      rw [if_pos hlong] at hloaded
      cases hloaded
    exact ⟨hpos, hlt, by have := hdone.hashed; have := hdone.cur_le; omega⟩
  · rintro ⟨hpos, hlt, hnum⟩
    have h : dir.Fits (cs * 1024) := ⟨by omega, hlt, hnum⟩
    refine ⟨_, make_eq h, fun junk fresh junk' name => ⟨after dir (cs * 1024) _, _, _,
      savePieces_after h junk fresh, rfl, torrent_eq h name, numChunks_layout h name, ?_⟩⟩
    have hbounded : dir.disk.Bounded (fun _ => false) (dir.layout _ h name) :=
      fun _ _ hex => absurd hex Bool.false_ne_true
    have hfiles : 0 < (dir.layout _ h name).numChunks → (dir.layout _ h name).files ≠ [] := by
      rw [numChunks_layout]
      exact fun hpos => specs_ne_nil h name hpos
    obtain ⟨s, hrun, hall⟩ : ∃ s, MultiDataChecker.check dir.disk (fun _ => false)
        (dir.layout _ h name).torrent junk' = some s ∧ MultiDataChecker.Checked dir.disk
          (fun _ => false) (dir.layout _ h name) (dir.layout _ h name).numChunks s :=
      MultiDataChecker.checked_check
        (show (dir.layout _ h name).piece_length < 2 ^ 32 from hlt.trans (by decide)) hbounded
        hfiles junk'
    have hhashed : ∀ c < dir.numChunks (cs * 1024),
        s.1.hashed[c]? = some (some (dir.chunk (cs * 1024) c)) := fun c hc =>
      hall.present c (by rw [numChunks_layout]; exact hc) _ (present_disk h name hc)
    refine ⟨s, hrun, ?_, fun c hc => ?_⟩
    · apply List.ext_getElem?
      intro c
      by_cases hc : c < dir.numChunks (cs * 1024)
      · rw [hhashed c hc]
        simp [after, hc]
      · rw [List.getElem?_eq_none (by rw [hall.hashed, numChunks_layout]; omega),
          List.getElem?_eq_none (by simp [after]; omega)]
    · have hc' : c < (dir.layout _ h name).numChunks := hc
      have hlt : c < dir.numChunks (cs * 1024) := by rwa [numChunks_layout] at hc'
      have hdown := (hall.downloaded c hc').mpr ⟨_, hhashed c hlt, getHash_layout h name hlt⟩
      exact ⟨hdown, by rw [hall.decided c hc', hdown]; rfl⟩

end KTorrent.Check
