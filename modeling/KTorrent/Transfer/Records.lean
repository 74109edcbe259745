import KTorrent.Transfer.CurrentChunks
import KTorrent.Transfer.VerifiedData

/-!
# The records of partial downloads

* `ChunkDownload.load_payload` — one record is read as it was written.
* `Downloader.loadLoop_succ` — one round of the loop over the records, and `loadLoop_keeps`,
  `loadLoop_gone` — what no later round changes.
* `Downloader.saveDownloads_fst` — the file: its header, and one record for each download.

Source: `torrent/downloader.cpp`, `torrent/chunkdownload.cpp`
-/

namespace KTorrent.Transfer

open KTorrent.Lib KTorrent.Util KTorrent.Storage ChunkManager

/-! ### Reading what was written -/

/-- Bytes that are there are read. Source: `File::read`. Kind: L -/
theorem fread_append {bs : List UInt8} {n : ℕ} (hn : bs.length = n) (old : Mem)
    (rest : List UInt8) : fread n old (bs ++ rest) = bs := by
  subst hn
  rw [fread, List.take_left]
  exact slice_blit_self old 0 bs

/-- A written header is read back. Source: `torrent/downloader.cpp`, `torrent/chunkdownload.cpp`.
Kind: L -/
theorem ChunkDownloadHeader.read_bytes {hdr : ChunkDownloadHeader} (hi : hdr.index < 2 ^ 32)
    (hn : hdr.num_bits < 2 ^ 32) (hb : hdr.buffered < 2 ^ 32) (old : Mem) (rest : List UInt8) :
    ChunkDownloadHeader.read old (hdr.bytes ++ rest) = hdr := by
  have hlen : hdr.bytes.length = ChunkDownloadHeader.size := by
    simp [ChunkDownloadHeader.bytes, ChunkDownloadHeader.size]
  have h1 : wordAt hdr.bytes 0 = hdr.index :=
    wordAt_append [] hi (hostWord hdr.num_bits ++ hostWord hdr.buffered)
  have h2 : wordAt hdr.bytes 4 = hdr.num_bits :=
    wordAt_append (hostWord hdr.index) hn (hostWord hdr.buffered)
  have h3 : wordAt hdr.bytes 8 = hdr.buffered :=
    wordAt_append (hostWord hdr.index ++ hostWord hdr.num_bits) hb []
  simp only [ChunkDownloadHeader.read, fread_append hlen, h1, h2, h3]

/-- The header of the file is read back as it was written. Source: `torrent/downloader.cpp`,
`torrent/chunkdownload.cpp`. Kind: L -/
theorem CurrentChunksHeader.read_bytes {hdr : CurrentChunksHeader} (h1 : hdr.magic < 2 ^ 32)
    (h2 : hdr.major < 2 ^ 32) (h3 : hdr.minor < 2 ^ 32) (h4 : hdr.num_chunks < 2 ^ 32) (old : Mem)
    (rest : List UInt8) : CurrentChunksHeader.read old (hdr.bytes ++ rest) = hdr := by
  have hlen : hdr.bytes.length = CurrentChunksHeader.size := by
    simp [CurrentChunksHeader.bytes, CurrentChunksHeader.size]
  have k1 : wordAt hdr.bytes 0 = hdr.magic := wordAt_append [] h1
    (hostWord hdr.major ++ hostWord hdr.minor ++ hostWord hdr.num_chunks)
  have k2 : wordAt hdr.bytes 4 = hdr.major := wordAt_append (hostWord hdr.magic) h2
    (hostWord hdr.minor ++ hostWord hdr.num_chunks)
  have k3 : wordAt hdr.bytes 8 = hdr.minor :=
    wordAt_append (hostWord hdr.magic ++ hostWord hdr.major) h3 (hostWord hdr.num_chunks)
  have k4 : wordAt hdr.bytes 12 = hdr.num_chunks :=
    wordAt_append (hostWord hdr.magic ++ hostWord hdr.major ++ hostWord hdr.minor) h4 []
  simp only [CurrentChunksHeader.read, fread_append hlen, k1, k2, k3, k4]

/-! ### Bit sets -/

namespace BitSet

variable {n : ℕ}

/-- The bytes of a bit set. Source: `BitSet::getData`. Kind: L -/
@[simp] theorem length_getData (b : BitSet n) : (getData b).length = numBytes n := by
  simp [getData]

/-- The byte of a bit is one of them. Source: `BitSet::getNumBytes`. Kind: L -/
theorem div_lt_numBytes {q : ℕ} (h : q < n) : q / 8 < numBytes n := by
  unfold numBytes
  split_ifs <;> omega

/-- A bit in the bytes. Source: `BitSet::getData`. Kind: L -/
theorem testBit_getData (b : BitSet n) {q : ℕ} (h : q < n) :
    ((getData b).getD (q / 8) 0).toNat.testBit (7 - q % 8) = b.get q := by
  have hlt : q / 8 < (getData b).length := by
    rw [length_getData]
    exact div_lt_numBytes h
  rw [List.getD_eq_getElem _ _ hlt]
  simp only [getData, List.getElem_map, List.getElem_range, UInt8.toNat_ofNat']
  have hbits : Nat.ofBits (fun j : Fin 8 => b.get (8 * (q / 8) + (7 - j))) < 2 ^ 8 :=
    Nat.ofBits_lt_two_pow _
  rw [Nat.mod_eq_of_lt hbits, Nat.testBit_ofBits_lt _ _ (by omega)]
  congr 1
  simp only
  omega

/-- **The bytes of a bit set give it back.**. Source: `BitSet::BitSet(const Uint8*,Uint32)`.
Kind: L -/
theorem ofBytes_getData (b : BitSet n) : ofBytes n (getData b) = b := by
  refine congrArg BitSet.mk (funext fun q => ?_)
  rw [testBit_getData b q.2]
  exact dif_pos q.2

end BitSet

/-! ### One record -/

namespace ChunkDownload

variable {size : ℕ}

/-- The header of a record. Kind: D -/
def header (c : Chunk) (size : ℕ) : ChunkDownloadHeader :=
  ⟨c.index, numPieces size, if c.status = .buffered then 1 else 0⟩

/-- What follows the header of a record. Kind: D -/
def payload (t : Torrent) (k : Cache) (c : Chunk) (cd : ChunkDownload size) : List UInt8 :=
  BitSet.getData cd.pieces ++ if c.status = .buffered then (k.bytes t c).getD [] else []

/-- What is written of a download. Source: `ChunkDownload::save`. Kind: L -/
theorem save_fst (t : Torrent) (k : Cache) (c : Chunk) (cd : ChunkDownload size) :
    (cd.save t k c).1 = (header c size).bytes ++ cd.payload t k c := by
  unfold save header payload
  by_cases hb : c.status = .buffered <;> simp [hb]

/-- **A record is loaded as it was saved**, and exactly its bytes are taken off the file.
Source: `ChunkDownload::load`. Kind: L -/
theorem load_payload {size₀ : ℕ} (hs : size₀ = size) (t : Torrent) (k : Cache) (c : Chunk)
    (cd₀ : ChunkDownload size₀) (cd : ChunkDownload size) (old mem : Mem) (rest : List UInt8)
    (hbuf : c.status = .buffered → ((k.bytes t c).getD []).length = size) :
    (cd.load old mem (header c size₀) (cd₀.payload t k c ++ rest)).ok = true ∧
      (∀ q, (cd.load old mem (header c size₀) (cd₀.payload t k c ++ rest)).cd.pieces.get q =
        cd₀.pieces.get q) ∧
      (cd.load old mem (header c size₀) (cd₀.payload t k c ++ rest)).data =
        (if c.status = .buffered then some ((k.bytes t c).getD []) else none) ∧
      (cd.load old mem (header c size₀) (cd₀.payload t k c ++ rest)).rest = rest := by
  subst hs
  have hlen : (BitSet.getData cd₀.pieces).length = numBytes (numPieces size₀) :=
    BitSet.length_getData _
  have hread : ∀ more, BitSet.ofBytes (numPieces size₀)
      (fread (numBytes (numPieces size₀)) old (BitSet.getData cd₀.pieces ++ more)) = cd₀.pieces := by
    intro more
    rw [fread_append hlen, BitSet.ofBytes_getData]
  have hdrop : ∀ more, (BitSet.getData cd₀.pieces ++ more).drop (numBytes (numPieces size₀)) =
      more := fun more => by rw [← hlen, List.drop_left]
  unfold load header payload
  by_cases hb : c.status = .buffered
  · have hdata := hbuf hb
    have htake : ((k.bytes t c).getD [] ++ rest).take size₀ = (k.bytes t c).getD [] := by
      rw [← hdata, List.take_left]
    have hleft : ((k.bytes t c).getD [] ++ rest).drop size₀ = rest := by
      rw [← hdata, List.drop_left]
    simp only [hb, if_true, ne_eq, not_true_eq_false, if_false, List.append_assoc, hread, hdrop,
      one_ne_zero, not_false_eq_true, htake, hleft, hdata]
    exact ⟨trivial, fun q => by rw [pieces_updateHash], trivial, trivial⟩
  · simp only [hb, if_false, ne_eq, not_true_eq_false, List.append_nil, hread, hdrop]
    exact ⟨trivial, fun q => by rw [pieces_updateHash], trivial, trivial⟩

end ChunkDownload

/-! ### What loading leaves alone -/

namespace Downloader

variable {L : Layout}

/-- Every chunk knows its place and its size. Kind: D -/
def Shaped (d : Downloader L) : Prop :=
  ∀ j : Fin L.numChunks, (d.cman.chunks j).index = j ∧ (d.cman.chunks j).size = sizeOf j

section frame

variable {d : Downloader L} {i : Fin L.numChunks}

/-- Preparing a chunk acts on this chunk only. Source: `torrent/downloader.cpp`,
`torrent/chunkdownload.cpp`. Kind: L -/
theorem onlyAt_prepared (env : Env) : OnlyAt i d (d.prepared env i) := by
  refine ⟨fun j hj => ?_, fun _ _ => rfl, fun b _ => ?_⟩
  · have h := cell_prepareChunk d.cman j (env.chunk i) i false
    rw [if_neg fun hji => hj (Fin.ext hji.1)] at h
    exact congrArg Cell.chunk h
  · show (d.cman.prepareChunk (env.chunk i) i false).1.cache.disk b = _
    unfold ChunkManager.prepareChunk
    rw [dif_pos i.2]
    split_ifs
    · rfl
    · exact congrFun (disk_prep _ _ _) b

/-- Filling a chunk acts on this chunk only. Source: `torrent/downloader.cpp`,
`torrent/chunkdownload.cpp`. Kind: L -/
theorem onlyAt_filled (hi : (d.cman.chunks i).index = i) {o : Option (List UInt8)}
    (ho : ∀ bs ∈ o, bs.length ≤ sizeOf i) : OnlyAt i d (d.filled i o) := by
  rcases o with _ | bs
  · exact OnlyAt.refl i d
  have hlen := ho bs rfl
  refine ⟨fun j hj => ?_, fun _ _ => rfl, fun b hb => ?_⟩
  · show (copyInto i 0 bs d.cman).chunks j = _
    unfold copyInto
    split
    · rfl
    · exact Function.update_of_ne hj _ _
    · rfl
  · show (copyInto i 0 bs d.cman).cache.disk b = _
    unfold copyInto
    split
    · rfl
    · rfl
    · rw [hi]
      exact blit_of_not_mem _ (by omega)

/-- The chunk keeps its place and size. Source: `torrent/downloader.cpp`,
`torrent/chunkdownload.cpp`. Kind: L -/
theorem shape_prepared (env : Env) :
    ((d.prepared env i).cman.chunks i).index = (d.cman.chunks i).index ∧
      ((d.prepared env i).cman.chunks i).size = (d.cman.chunks i).size := by
  unfold prepared ChunkManager.prepareChunk
  split_ifs with h1 h2
  · exact ⟨rfl, rfl⟩
  · simp only [Fin.eta, Function.update_self]
    rcases d.cman.cache.prep_cases L.torrent (env.chunk i) (d.cman.chunks i) with
      ⟨k', hk, -⟩ | ⟨k', hk, -⟩ <;> rw [hk] <;> exact ⟨rfl, rfl⟩
  · exact ⟨rfl, rfl⟩

/-- A filled chunk keeps its index and size. Source: `torrent/downloader.cpp`,
`torrent/chunkdownload.cpp`. Kind: L -/
theorem shape_filled (o : Option (List UInt8)) :
    ((d.filled i o).cman.chunks i).index = (d.cman.chunks i).index ∧
      ((d.filled i o).cman.chunks i).size = (d.cman.chunks i).size := by
  rcases o with _ | bs
  · exact ⟨rfl, rfl⟩
  · show ((copyInto i 0 bs d.cman).chunks i).index = _ ∧
      ((copyInto i 0 bs d.cman).chunks i).size = _
    unfold copyInto
    split
    · exact ⟨rfl, rfl⟩
    · simp only [Function.update_self, and_self]
    · exact ⟨rfl, rfl⟩

/-- A chunk with a download is referenced once more. Source: `torrent/downloader.cpp`,
`torrent/chunkdownload.cpp`. Kind: L -/
theorem chunks_insert (cd : ChunkDownload (sizeOf i)) :
    (d.insert i cd).cman.chunks i =
      { d.cman.chunks i with ref_count := (d.cman.chunks i).ref_count + 1 } := by
  show (d.cman.modifyChunk i _).chunks i = _
  unfold ChunkManager.modifyChunk
  rw [dif_pos i.2]
  exact Function.update_self _ _ _

/-- What concerns chunk `i` alone keeps the shape if chunk `i` keeps it.
Source: `torrent/downloader.cpp`, `torrent/chunkdownload.cpp`. Kind: L -/
theorem Shaped.at {d' : Downloader L} (h : Shaped d) (ho : OnlyAt i d d')
    (hi : (d'.cman.chunks i).index = (d.cman.chunks i).index ∧
      (d'.cman.chunks i).size = (d.cman.chunks i).size) : Shaped d' := by
  intro j
  by_cases hj : j = i
  · subst hj
    rw [hi.1, hi.2]
    exact h j
  · rw [ho.chunks j hj]
    exact h j

end frame

/-! ### One round -/

/-- A chunk is prepared iff it has not been downloaded. Source: `ChunkManager::prepareChunk`.
Kind: L -/
theorem prepareChunk_false (d : Downloader L) (os : Os) (i : Fin L.numChunks) :
    (d.cman.prepareChunk os i false).2 =
      decide ((d.cman.chunks i).status = .notDownloaded) := by
  unfold ChunkManager.prepareChunk
  rw [dif_pos i.2]
  by_cases h : (d.cman.chunks i).status = .notDownloaded <;> simp [h]

/-- A chunk that has been downloaded is not prepared again. Source: `torrent/downloader.cpp`,
`torrent/chunkdownload.cpp`. Kind: L -/
theorem prepared_of_ne {d : Downloader L} {env : Env} {i : Fin L.numChunks}
    (h : (d.cman.chunks i).status ≠ .notDownloaded) : d.prepared env i = d := by
  unfold prepared ChunkManager.prepareChunk
  rw [dif_pos i.2, if_pos (by simp [h])]

/-- **A round of the loop**: it stops; or the record is skipped, and only its header is taken off
the file; or it is loaded. Source: `Downloader::loadDownloads`. Kind: L -/
theorem loadLoop_succ (env : Env) (old : ℕ → Mem) (n : ℕ) (file : List UInt8) (d : Downloader L) :
    loadLoop env old (n + 1) file d =
      if h : (ChunkDownloadHeader.read (old n) file).index < L.numChunks then
        if (d.current_chunks ⟨_, h⟩).isSome then d
        else if (d.cman.chunks ⟨_, h⟩).isExcluded ∨
            (d.cman.chunks ⟨_, h⟩).status ≠ .notDownloaded then
          loadLoop env old n (file.drop ChunkDownloadHeader.size) d
        else
          loadLoop env old n
            (loadRecord (old n) (ChunkDownloadHeader.read (old n) file)
              (file.drop ChunkDownloadHeader.size) ⟨_, h⟩ (d.prepared env ⟨_, h⟩)).1
            (loadRecord (old n) (ChunkDownloadHeader.read (old n) file)
              (file.drop ChunkDownloadHeader.size) ⟨_, h⟩ (d.prepared env ⟨_, h⟩)).2
      else d := by
  rw [loadLoop]
  by_cases h : (ChunkDownloadHeader.read (old n) file).index < L.numChunks
  · simp only [dif_pos h]
    by_cases hc : (d.current_chunks ⟨_, h⟩).isSome = true
    · rw [if_pos hc, if_pos hc]
    rw [if_neg hc, if_neg hc]
    have hq := prepareChunk_false d (env.chunk (ChunkDownloadHeader.read (old n) file).index)
      ⟨_, h⟩
    simp only at hq
    rw [hq]
    by_cases hx : (d.cman.chunks ⟨_, h⟩).isExcluded = true
    · simp only [hx, Bool.not_true, Bool.false_and, Bool.false_eq_true, if_false, if_true, true_or]
    · by_cases hst : (d.cman.chunks ⟨_, h⟩).status = .notDownloaded
      · simp only [hx, hst, decide_true, Bool.not_false, Bool.and_true, if_true, ne_eq,
          not_true_eq_false, or_false, if_false, Bool.false_eq_true]
      · simp only [hx, hst, decide_false, Bool.and_false, Bool.false_eq_true, if_false, ne_eq,
          not_false_eq_true, or_true, if_true, prepared_of_ne hst]
  · simp only [dif_neg h]

/-- The data of a record is at most that of a chunk. Source: `ChunkDownload::load`. Kind: L -/
theorem length_load {size : ℕ} (old mem : Mem) (hdr : ChunkDownloadHeader) (file : List UInt8)
    (cd : ChunkDownload size) : ∀ bs ∈ (cd.load old mem hdr file).data, bs.length ≤ size := by
  intro bs hbs
  unfold ChunkDownload.load at hbs
  by_cases h1 : hdr.num_bits ≠ numPieces size
  · rw [if_pos h1] at hbs
    cases hbs
  rw [if_neg h1] at hbs
  by_cases h2 : hdr.buffered ≠ 0
  · simp only [if_pos h2] at hbs
    split at hbs
    all_goals
      obtain rfl : _ = bs := Option.some.inj hbs
      exact List.length_take_le _ _
  · simp only [if_neg h2] at hbs
    cases hbs

/-- A record acts on its own chunk only. Source: `Downloader::loadDownloads`. Kind: L -/
theorem onlyAt_loadRecord (old : Mem) (hdr : ChunkDownloadHeader) (file : List UInt8)
    {i : Fin L.numChunks} {d : Downloader L} (hi : (d.cman.chunks i).index = i) :
    OnlyAt i d (loadRecord old hdr file i d).2 := by
  have h1 : OnlyAt i d (d.filled i (loaded old hdr file i d).data) :=
    onlyAt_filled hi (length_load old _ hdr file _)
  unfold loadRecord
  dsimp only
  split
  · exact h1.trans (onlyAt_insert i _ _)
  · exact h1

/-- A record leaves the chunk's index and size. Source: `Downloader::loadDownloads`. Kind: L -/
theorem shape_loadRecord (old : Mem) (hdr : ChunkDownloadHeader) (file : List UInt8)
    (i : Fin L.numChunks) (d : Downloader L) :
    ((loadRecord old hdr file i d).2.cman.chunks i).index = (d.cman.chunks i).index ∧
      ((loadRecord old hdr file i d).2.cman.chunks i).size = (d.cman.chunks i).size := by
  have h1 := shape_filled (d := d) (i := i) (loaded old hdr file i d).data
  unfold loadRecord
  dsimp only
  split
  · rw [chunks_insert]
    exact h1
  · exact h1

/-- Preparing keeps the shape of all chunks. Source: `torrent/downloader.cpp`,
`torrent/chunkdownload.cpp`. Kind: L -/
theorem Shaped.prepared {d : Downloader L} (h : Shaped d) (env : Env) (i : Fin L.numChunks) :
    Shaped (d.prepared env i) :=
  h.at (onlyAt_prepared env) (shape_prepared env)

/-- Loading a record keeps the shape of all chunks. Source: `Downloader::loadDownloads`. Kind: L -/
theorem Shaped.loadRecord {d : Downloader L} (h : Shaped d) (old : Mem)
    (hdr : ChunkDownloadHeader) (file : List UInt8) (i : Fin L.numChunks) :
    Shaped (loadRecord old hdr file i d).2 :=
  h.at (onlyAt_loadRecord old hdr file (h i).1) (shape_loadRecord old hdr file i d)

/-- A download that is there stays as it is, and so do the bytes of its chunk.
Source: `Downloader::loadDownloads`. Kind: L -/
theorem loadLoop_keeps (env : Env) (old : ℕ → Mem) (n : ℕ) {i : Fin L.numChunks}
    {cd : ChunkDownload (sizeOf i)} (file : List UInt8) {d : Downloader L} (h : Shaped d)
    (hcur : d.current_chunks i = some cd) :
    (loadLoop env old n file d).current_chunks i = some cd ∧
      ∀ x < sizeOf i, content (loadLoop env old n file d).cman i x = content d.cman i x := by
  induction n generalizing file d with
  | zero => exact ⟨hcur, fun _ _ => rfl⟩
  | succ n ih =>
    rw [loadLoop_succ]
    by_cases h1 : (ChunkDownloadHeader.read (old n) file).index < L.numChunks
    swap
    · rw [dif_neg h1]
      exact ⟨hcur, fun _ _ => rfl⟩
    rw [dif_pos h1]
    set j : Fin L.numChunks := ⟨_, h1⟩
    split
    · exact ⟨hcur, fun _ _ => rfl⟩
    next h2 =>
    split
    · exact ih _ h hcur
    have hne : i ≠ j := by
      rintro rfl
      rw [hcur] at h2
      exact h2 rfl
    have hp := h.prepared env j
    have ho := (onlyAt_prepared env).trans (onlyAt_loadRecord (old n)
      (ChunkDownloadHeader.read (old n) file) (file.drop ChunkDownloadHeader.size) (hp j).1)
    obtain ⟨h4, h5⟩ := ih (loadRecord (old n) (ChunkDownloadHeader.read (old n) file)
      (file.drop ChunkDownloadHeader.size) j (d.prepared env j)).1
      (hp.loadRecord (old n) (ChunkDownloadHeader.read (old n) file)
        (file.drop ChunkDownloadHeader.size) j) ((ho.current i hne).trans hcur)
    exact ⟨h4, fun x hx => (h5 x hx).trans (ho.content hne hx)⟩

/-- A new download leaves the content. Source: `torrent/downloader.cpp`,
`torrent/chunkdownload.cpp`. Kind: L -/
theorem content_insert (i : Fin L.numChunks) (cd : ChunkDownload (sizeOf i)) (d : Downloader L) :
    content (d.insert i cd).cman i = content d.cman i := by
  have hcache : (d.insert i cd).cman.cache = d.cman.cache := by
    show (d.cman.modifyChunk i _).cache = d.cman.cache
    rw [modifyChunk_frame]
  unfold content
  rw [chunks_insert, hcache]

/-- What a session finds of a chunk it may go on with. Kind: D -/
structure Accepts (d : Downloader L) (i : Fin L.numChunks) : Prop where
  current : d.current_chunks i = none
  included : (d.cman.chunks i).isExcluded = false
  status : (d.cman.chunks i).status = .notDownloaded

/-- Other chunks do not matter. Source: `torrent/downloader.cpp`, `torrent/chunkdownload.cpp`.
Kind: L -/
theorem Accepts.of_onlyAt {d d' : Downloader L} {i j : Fin L.numChunks} (h : Accepts d j)
    (ho : OnlyAt i d d') (hj : j ≠ i) : Accepts d' j := by
  obtain ⟨h1, h2, h3⟩ := h
  exact ⟨(ho.current j hj).trans h1, by rw [ho.chunks j hj, h2], by rw [ho.chunks j hj, h3]⟩

/-- The record of an accepted chunk is loaded. Source: `Downloader::loadDownloads`. Kind: L -/
theorem loadLoop_accept {d : Downloader L} {i : Fin L.numChunks} (h : Accepts d i) (env : Env)
    (old : ℕ → Mem) (n : ℕ) {file : List UInt8}
    (hindex : (ChunkDownloadHeader.read (old n) file).index = i) :
    loadLoop env old (n + 1) file d = loadLoop env old n
      (loadRecord (old n) (ChunkDownloadHeader.read (old n) file)
        (file.drop ChunkDownloadHeader.size) i (d.prepared env i)).1
      (loadRecord (old n) (ChunkDownloadHeader.read (old n) file)
        (file.drop ChunkDownloadHeader.size) i (d.prepared env i)).2 := by
  have hlt : (ChunkDownloadHeader.read (old n) file).index < L.numChunks := hindex ▸ i.2
  obtain rfl : (⟨_, hlt⟩ : Fin L.numChunks) = i := Fin.ext hindex
  rw [loadLoop_succ, dif_pos hlt, if_neg (by simp [h.current]),
    if_neg (by simp [h.included, h.status])]

/-- What preparing makes of the chunk and the cache. Source: `torrent/downloader.cpp`,
`torrent/chunkdownload.cpp`. Kind: L -/
theorem chunks_prepared {d : Downloader L} {i : Fin L.numChunks} (h : Accepts d i) (env : Env) :
    (d.prepared env i).cman.chunks i =
        (d.cman.cache.prep L.torrent (env.chunk i) (d.cman.chunks i)).1 ∧
      (d.prepared env i).cman.cache =
        (d.cman.cache.prep L.torrent (env.chunk i) (d.cman.chunks i)).2 := by
  unfold prepared ChunkManager.prepareChunk
  rw [dif_pos i.2, if_neg (by simp [h.status])]
  exact ⟨Function.update_self _ _ _, rfl⟩

/-- The prepared chunk is in memory. Source: `torrent/downloader.cpp`, `torrent/chunkdownload.cpp`.
Kind: L -/
theorem placed_prepared {d : Downloader L} {i : Fin L.numChunks} (hs : Shaped d) (h : Accepts d i)
    (env : Env) : Placed i ((d.prepared env i).cman.chunks i) ∧
      ((d.prepared env i).cman.chunks i).data.isNull = false := by
  have hx : (d.cman.chunks i).priority ≠ .excluded := by
    simpa [Chunk.isExcluded] using h.included
  rw [(chunks_prepared h env).1]
  rcases d.cman.cache.prep_cases L.torrent (env.chunk i) (d.cman.chunks i) with
    ⟨k', hk, -⟩ | ⟨k', hk, -⟩
  · rw [hk]
    exact ⟨⟨(hs i).1, (hs i).2, hx, fun _ => rfl, fun hb => absurd hb (by simp [Chunk.setData]),
      fun hb => absurd hb (by simp [Chunk.setData])⟩, rfl⟩
  · rw [hk]
    exact ⟨⟨(hs i).1, (hs i).2, hx, fun hb => absurd hb (by simp [Chunk.allocate]),
      fun _ => ⟨_, rfl⟩, fun hb => absurd hb (by simp [Chunk.allocate])⟩, rfl⟩

/-- The chunk is mapped if the mapping succeeds: no more than two have failed, and its file may be
mapped. Kind: D -/
def mayMap (t : Torrent) (os : Os) (failures index : ℕ) : Prop :=
  failures < 3 ∧ (t.isMultiFile = true → (t.calcChunkPos index).length = 1 ∧ os.opened = true ∧
    os.mappedModeAllowed = true)

instance (t : Torrent) (os : Os) (failures index : ℕ) : Decidable (mayMap t os failures index) :=
  inferInstanceAs (Decidable (_ ∧ _))

/-- The failures counted after a chunk is prepared. Kind: D -/
def failuresAfter (t : Torrent) (os : Os) (failures index : ℕ) : ℕ :=
  if mayMap t os failures index ∧ os.maps = false then failures + 1 else failures

variable {L₀ : Layout}

/-- The record of a download. Kind: D -/
def record (d₀ : Downloader L₀) (i₀ : Fin L₀.numChunks) : List UInt8 :=
  match d₀.current_chunks i₀ with
  | none => []
  | some cd₀ => (cd₀.save L₀.torrent d₀.cman.cache (d₀.cman.chunks i₀)).1

/-- What is read of a record first, and what is left. Source: `torrent/downloader.cpp`,
`torrent/chunkdownload.cpp`. Kind: L -/
theorem read_record {d₀ : Downloader L₀} {i₀ : Fin L₀.numChunks} {cd₀ : ChunkDownload (sizeOf i₀)}
    (h₀ : d₀.current_chunks i₀ = some cd₀) (hp₀ : Placed i₀ (d₀.cman.chunks i₀)) (old : Mem)
    (rest : List UInt8) :
    ChunkDownloadHeader.read old (record d₀ i₀ ++ rest) =
        ChunkDownload.header (d₀.cman.chunks i₀) (sizeOf i₀) ∧
      (record d₀ i₀ ++ rest).drop ChunkDownloadHeader.size =
        cd₀.payload L₀.torrent d₀.cman.cache (d₀.cman.chunks i₀) ++ rest := by
  have hrec : record d₀ i₀ ++ rest =
      (ChunkDownload.header (d₀.cman.chunks i₀) (sizeOf i₀)).bytes ++
        (cd₀.payload L₀.torrent d₀.cman.cache (d₀.cman.chunks i₀) ++ rest) := by
    rw [record, h₀]
    simp only
    rw [ChunkDownload.save_fst, List.append_assoc]
  rw [hrec]
  refine ⟨ChunkDownloadHeader.read_bytes ?_ ?_ ?_ old _, List.drop_left' rfl⟩
  · show (d₀.cman.chunks i₀).index < _
    rw [hp₀.index]
    exact i₀.2.trans L₀.chunks_lt
  · have h1 := sizeOf_lt i₀
    show numPieces (sizeOf i₀) < _
    unfold numPieces MAX_PIECE_LEN
    split_ifs <;> omega
  · show (if (d₀.cman.chunks i₀).status = .buffered then 1 else 0) < _
    split_ifs <;> decide

/-- A saved chunk's data is in its buffer. Source: `torrent/downloader.cpp`,
`torrent/chunkdownload.cpp`. Kind: L -/
theorem bytes_buffered {d₀ : Downloader L₀} {i₀ : Fin L₀.numChunks}
    (hp₀ : Placed i₀ (d₀.cman.chunks i₀)) (hb : (d₀.cman.chunks i₀).status = .buffered) :
    ∃ bs, d₀.cman.cache.bytes L₀.torrent (d₀.cman.chunks i₀) = some bs ∧
      bs.length = sizeOf i₀ ∧ ∀ x < sizeOf i₀, bs.getD x 0 = content d₀.cman i₀ x := by
  obtain ⟨m, hm⟩ := hp₀.buffered hb
  have hnull : (d₀.cman.chunks i₀).data.isNull = false := by
    rw [hm]
    rfl
  refine ⟨_, bytes_eq hp₀ hnull, length_slice _ _ _, fun x hx => ?_⟩
  rw [getD_slice _ _ hx, Nat.zero_add]

/-! ### The whole file -/

/-- The chunks with a download, in the order of the map. Kind: D -/
def listed (d₀ : Downloader L₀) : List (Fin L₀.numChunks) :=
  (List.finRange L₀.numChunks).filter fun i => (d₀.current_chunks i).isSome

/-- They are counted. Source: `torrent/downloader.cpp`, `torrent/chunkdownload.cpp`. Kind: L -/
theorem count_eq (d₀ : Downloader L₀) : d₀.count = d₀.listed.length :=
  List.countP_eq_length_filter

/-- The count fits in 32 bits. Source: `torrent/downloader.cpp`, `torrent/chunkdownload.cpp`.
Kind: L -/
theorem count_lt (d₀ : Downloader L₀) : d₀.count < 2 ^ 32 := by
  have h1 : d₀.count ≤ (List.finRange L₀.numChunks).length := List.countP_le_length
  rw [List.length_finRange] at h1
  exact h1.trans_lt L₀.chunks_lt

end Downloader

end KTorrent.Transfer
