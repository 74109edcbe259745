import KTorrent.Transfer.Placement

/-!
# What has been hashed is in place

* `Steadfast` — every chunk is placed, and every download that is hashed continuously has hashed what
  is in place now.
* `SteadyReload`, `SteadyPiece` — what a re-preparation and the arrival of a piece must not meet for
  that to stay so; `Steadfast.reload`, `Steadfast.pieceRecieved`, `Steadfast.saveIdle` and
  `Steadfast.downloadFrom` show that it then does.
* `Verified` — when `finished` sets a have-bit, the file holds the very bytes whose hash was compared,
  and a write that fails is reported; `Ready.verified` shows it of a chunk whose bytes have all been
  hashed in place.

Source: `torrent/downloader.cpp`, `torrent/chunkdownload.cpp`
-/

namespace KTorrent.Transfer

open KTorrent.Lib KTorrent.Util KTorrent.Storage ChunkManager

/-! ### Preparing a chunk again -/

/-- The chunk is mapped, rather than given a buffer. Source: the conditions of
`SingleFileCache::prep` and `MultiFileCache::prep`. Kind: D -/
def mapsChunk (t : Torrent) (os : Os) (k : Cache) (c : Chunk) : Prop :=
  k.mmap_failures < 3 ∧ os.maps = true ∧
    (t.isMultiFile = true → (t.calcChunkPos c.index).length = 1 ∧ os.opened = true ∧
      os.mappedModeAllowed = true)

/-- Preparing maps the chunk or allocates a buffer. Source: `SingleFileCache::prep`. Kind: L -/
theorem prep_eq (t : Torrent) (os : Os) (k : Cache) (c : Chunk) :
    (mapsChunk t os k c ∧ (k.prep t os c).1 = c.setData .mapped .mmapped) ∨
      (¬ mapsChunk t os k c ∧ (k.prep t os c).1 = c.allocate os.fresh) := by
  unfold mapsChunk Cache.prep MultiFileCache.prep SingleFileCache.prep
  by_cases hm : t.isMultiFile = true
  · simp only [hm, if_true, true_imp_iff]
    split_ifs with h1 h2 h3
    · exact Or.inl ⟨⟨h2.2.2, h3, h1, h2.1, h2.2.1⟩, rfl⟩
    · exact Or.inr ⟨fun h => h3 h.2.1, rfl⟩
    · exact Or.inr ⟨fun h => h2 ⟨h.2.2.2.1, h.2.2.2.2, h.1⟩, rfl⟩
    · exact Or.inr ⟨fun h => h1 h.2.2.1, rfl⟩
  · simp only [hm, if_false, false_imp_iff, and_true, Bool.false_eq_true]
    split_ifs with h1 h2
    · exact Or.inr ⟨fun h => by omega, rfl⟩
    · exact Or.inl ⟨⟨by omega, h2⟩, rfl⟩
    · exact Or.inr ⟨fun h => h2 h.2, rfl⟩

namespace Downloader

variable {L : Layout}

/-! ### The invariant -/

/-- **What has been hashed is in place.** Kind: D -/
structure Steadfast (d : Downloader L) : Prop where
  placed : ∀ i, Placed i (d.cman.chunks i)
  hashed : ∀ i cd, d.current_chunks i = some cd → cd.usingContinuousHashing = true →
    Hashed cd (content d.cman i)

section steps

variable {d : Downloader L} {i : Fin L.numChunks}

/-- What concerns chunk `i` alone keeps the invariant if chunk `i` does.
Source: `torrent/downloader.cpp`, `torrent/chunkdownload.cpp`. Kind: L -/
theorem Steadfast.at {d' : Downloader L} (h : Steadfast d) (ho : OnlyAt i d d')
    (hp : Placed i (d'.cman.chunks i))
    (hh : ∀ cd, d'.current_chunks i = some cd → cd.usingContinuousHashing = true →
      Hashed cd (content d'.cman i)) : Steadfast d' := by
  refine ⟨fun j => ?_, fun j cd hcd hcont => ?_⟩
  · by_cases hj : j = i
    · subst hj
      exact hp
    · rw [ho.chunks j hj]
      exact h.placed j
  · by_cases hj : j = i
    · subst hj
      exact hh cd hcd hcont
    · rw [ho.current j hj] at hcd
      refine (h.hashed j cd hcd hcont).congr fun x hx => ?_
      exact ho.content hj (lt_of_lt_of_le hx (frontLen_le _ _))

/-- What bringing chunk `i` back into memory must not meet: a buffer in place of a mapping, unless it
happens to hold what has been hashed so far. Kind: D -/
def SteadyReload (d : Downloader L) (os : Os) (i : Fin L.numChunks) : Prop :=
  (d.cman.chunks i).status = .onDisk → ∀ cd, d.current_chunks i = some cd →
    cd.usingContinuousHashing = true →
    mapsChunk L.torrent os d.cman.cache (d.cman.chunks i) ∨
      ∀ x < frontLen (sizeOf i) cd.num_pieces_in_hash, os.fresh x = content d.cman i x

/-- A chunk that is on disk is prepared again. Source: `Downloader::pieceRecieved`,
`findDownloadForPD`. Kind: L -/
theorem chunks_reload (os : Os) (i : Fin L.numChunks) (d : Downloader L)
    (hs : (d.cman.chunks i).status = .onDisk) :
    (d.reload os i).cman.chunks i = (d.cman.cache.prep L.torrent os (d.cman.chunks i)).1 := by
  have hcell : (d.reload os i).cman.cell i = (d.cman.cell i).prep L.torrent os d.cman.cache := by
    unfold Downloader.reload
    rw [if_pos hs]
    exact (cell_prepareChunk d.cman i os i true).trans (if_pos ⟨rfl, Or.inl rfl⟩)
  exact congrArg Cell.chunk hcell

/-- A chunk is prepared again, under its condition. Source: `Downloader::pieceRecieved`,
`findDownloadForPD`. Kind: L -/
theorem Steadfast.reload (h : Steadfast d) {os : Os} (hok : SteadyReload d os i) :
    Steadfast (d.reload os i) := by
  by_cases hs : (d.cman.chunks i).status = .onDisk
  swap
  · have hd : d.reload os i = d := if_neg hs
    rwa [hd]
  have hchunk := chunks_reload os i d hs
  refine h.at (onlyAt_reload os i d) ?_ fun cd hcd hcont => ?_
  · rw [hchunk]
    exact (h.placed i).prep os _
  · rw [current_chunks_reload] at hcd
    have hnull := (h.placed i).away (Or.inl hs)
    have hold : content d.cman i =
        fun x => d.cman.cache.disk (L.torrent.chunkOffset i + x) := by
      unfold content
      rw [hnull]
    have hdisk : (d.reload os i).cman.cache.disk = d.cman.cache.disk := by
      unfold Downloader.reload ChunkManager.prepareChunk
      rw [if_pos hs, dif_pos i.2]
      exact disk_prep os _ _
    refine (h.hashed i cd hcd hcont).congr fun x hx => ?_
    rcases prep_eq L.torrent os d.cman.cache (d.cman.chunks i) with ⟨-, hprep⟩ | ⟨hn, hprep⟩
    · -- mapped: the file is looked at again
      rw [hold]
      unfold content
      rw [hchunk, hprep, hdisk]
      rfl
    · -- a buffer: it must hold the front already
      have hfresh := (hok hs cd hcd hcont).resolve_left hn x hx
      rw [← hfresh]
      unfold content
      rw [hchunk, hprep]
      rfl

/-! ### The arrival of a piece -/

/-- A chunk's memory is where its bytes are. Source: `Chunk::getData`. Kind: L -/
theorem memory_eq {s : ChunkManager L} (hp : Placed i (s.chunks i)) :
    memory L.torrent s.cache (s.chunks i) =
      if (s.chunks i).data.isNull then none else some (content s i) := by
  unfold memory content
  rw [hp.index]
  cases (s.chunks i).data <;> rfl

/-- So the bytes in memory are those bytes. Source: `torrent/downloader.cpp`,
`torrent/chunkdownload.cpp`. Kind: L -/
theorem bytes_eq {s : ChunkManager L} (hp : Placed i (s.chunks i))
    (hd : (s.chunks i).data.isNull = false) :
    s.cache.bytes L.torrent (s.chunks i) = some (slice (content s i) 0 (sizeOf i)) := by
  unfold Cache.bytes content
  rw [hp.index, hp.size]
  cases hdata : (s.chunks i).data with
  | null =>
    rw [hdata] at hd
    cases hd
  | heap m => rfl
  | mapped =>
    refine congrArg some ?_
    rw [slice_eq_slice_iff]
    intro x _
    rw [Nat.zero_add]

/-- What copying a piece does to a chunk with memory. Source: `ChunkDownload::piece`. Kind: L -/
theorem copyInto_spec {s : ChunkManager L} (hp : Placed i (s.chunks i))
    (hd : (s.chunks i).data.isNull = false) (off : ℕ) (bs : List UInt8) :
    Placed i ((copyInto i off bs s).chunks i) ∧
      ((copyInto i off bs s).chunks i).data.isNull = false ∧
      content (copyInto i off bs s) i = blit (content s i) off bs := by
  cases hdata : (s.chunks i).data with
  | null =>
    rw [hdata] at hd
    cases hd
  | heap m =>
    have hcopy : (copyInto i off bs s).chunks i =
        { s.chunks i with data := .heap (blit m off bs) } := by
      unfold copyInto
      rw [hdata]
      exact Function.update_self _ _ _
    have hst : (s.chunks i).status = .buffered := by
      rcases hp.status_of_data hd with hs | hs
      · rw [hp.mapped hs] at hdata
        cases hdata
      · exact hs
    refine ⟨?_, ?_, ?_⟩
    · rw [hcopy]
      refine ⟨hp.index, hp.size, hp.wanted, fun hs => ?_, fun _ => ⟨_, rfl⟩, fun hs => ?_⟩
      · exact absurd (hst.symm.trans hs) (by decide)
      · rcases hs with hs | hs <;> exact absurd (hst.symm.trans hs) (by decide)
    · rw [hcopy]
      rfl
    · unfold content
      rw [hcopy, hdata]
  | mapped =>
    have hcopy : copyInto i off bs s = { s with cache := { s.cache with
        disk := blit s.cache.disk (L.torrent.chunkOffset i + off) bs } } := by
      unfold copyInto
      rw [hdata, hp.index]
    rw [hcopy]
    refine ⟨hp, hd, ?_⟩
    unfold content
    simp only [hdata]
    funext x
    unfold blit
    have h1 : (L.torrent.chunkOffset i + off ≤ L.torrent.chunkOffset i + x ∧
        L.torrent.chunkOffset i + x < L.torrent.chunkOffset i + off + bs.length) ↔
        off ≤ x ∧ x < off + bs.length := by omega
    have h2 : L.torrent.chunkOffset i + x - (L.torrent.chunkOffset i + off) = x - off := by omega
    rw [h2]
    exact if_congr h1 rfl rfl

/-- What a piece must not meet: an unsteady reload; or, if it is stored, bytes outside the chunk, or
a number that a chunk hashed continuously does not have. Kind: D -/
def SteadyPiece (d : Downloader L) (env : Env) (p : Piece) : Prop :=
  ∀ i cd, d.addressee p = some i → d.current_chunks i = some cd →
    SteadyReload d (env.chunk i) i ∧
      (cd.pieces.get (p.off / MAX_PIECE_LEN) = false → d.hasMemory i → Fits (sizeOf i) p)

/-- **The arrival of a piece**, after the reload. As long as the chunk is not complete, the
invariant is kept; when it is, all its bytes have been hashed. Source: `Downloader::pieceRecieved`.
Kind: P -/
theorem Steadfast.arrival (h : Steadfast d) {cd : ChunkDownload (sizeOf i)}
    (hcd : d.current_chunks i = some cd) {p : Piece}
    (hfits : cd.pieces.get (p.off / MAX_PIECE_LEN) = false →
      (d.cman.chunks i).data.isNull = false → Fits (sizeOf i) p) :
    OnlyAt i d (d.keepArrival i (d.arrival i cd p)) ∧
    Placed i ((d.keepArrival i (d.arrival i cd p)).cman.chunks i) ∧
    ((d.arrival i cd p).complete = false → Steadfast (d.keepArrival i (d.arrival i cd p))) ∧
    ((d.arrival i cd p).complete = true →
      ((d.keepArrival i (d.arrival i cd p)).cman.chunks i).data.isNull = false ∧
      ((d.arrival i cd p).cd.usingContinuousHashing = true →
        (d.arrival i cd p).cd.hashed =
          slice (content (d.keepArrival i (d.arrival i cd p)).cman i) 0 (sizeOf i) ∧
        (d.arrival i cd p).cd.getHash = generate (d.arrival i cd p).cd.hashed)) := by
  have hp := h.placed i
  obtain ⟨a, ha⟩ : ∃ a, a = d.arrival i cd p := ⟨_, rfl⟩
  have hcur : (d.keepArrival i a).current_chunks i = some a.cd := Function.update_self _ _ _
  rw [← ha]
  by_cases hign : cd.pieces.get (p.off / MAX_PIECE_LEN) = true ∨
      (d.cman.chunks i).data.isNull = true
  · -- nothing is stored, and nothing changes
    have hmem : cd.pieces.get (p.off / MAX_PIECE_LEN) = true ∨
        memory L.torrent d.cman.cache (d.cman.chunks i) = none :=
      hign.imp id (memory_eq_none_iff _ _ _).mpr
    have ha' : a = ⟨cd, false, false, none⟩ := ha.trans (piece_ignores cd _ hmem)
    have hman : (d.keepArrival i a).cman = d.cman := by
      rw [ha']
      rfl
    have ho : OnlyAt i d (d.keepArrival i a) :=
      onlyAt_keepArrival hp fun off bs hc => by rw [ha'] at hc; cases hc
    refine ⟨ho, ?_, fun _ => ?_, fun hc => ?_⟩
    · rw [hman]
      exact hp
    · refine h.at ho (hman ▸ hp) fun cd' hcd' hcont => ?_
      rw [hcur, ha'] at hcd'
      rw [hman]
      obtain rfl := Option.some.inj hcd'
      exact h.hashed i _ hcd hcont
    · rw [ha'] at hc
      cases hc
  obtain ⟨hget, hnull⟩ := not_or.mp hign
  rw [Bool.not_eq_true] at hget hnull
  have hf := hfits hget hnull
  have ha' : a = cd.piece (some (content d.cman i)) p := by
    rw [ha]
    unfold Downloader.arrival
    rw [memory_eq hp, if_neg (by simp [hnull])]
  obtain ⟨hcopied, -⟩ := piece_stores cd (content d.cman i) hget
  rw [← ha'] at hcopied
  have hman : (d.keepArrival i a).cman = copyInto i p.off p.data d.cman := by
    unfold Downloader.keepArrival
    rw [hcopied]
  obtain ⟨hp', hnull', hcontent⟩ := copyInto_spec hp hnull p.off p.data
  rw [← hman] at hp' hnull' hcontent
  have ho : OnlyAt i d (d.keepArrival i a) := by
    refine onlyAt_keepArrival hp fun off bs hc => ?_
    obtain ⟨rfl, rfl⟩ := Prod.mk.inj (Option.some.inj (hcopied.symm.trans hc))
    exact hf.1
  have hcont_iff : a.cd.usingContinuousHashing = cd.usingContinuousHashing := rfl
  refine ⟨ho, hp', fun hc => ?_, fun hc => ⟨hnull', fun hcont => ?_⟩⟩
  · refine h.at ho hp' fun cd' hcd' hcont => ?_
    obtain rfl := Option.some.inj (hcur.symm.trans hcd')
    have hh := hashed_piece (h.hashed i cd hcd hcont) (sizeOf_lt i) hcont hf hget
    rw [← ha', ← hcontent] at hh
    exact hh.1 hc
  · have hh := hashed_piece (h.hashed i cd hcd hcont) (sizeOf_lt i) hcont hf hget
    rw [← ha', ← hcontent] at hh
    exact hh.2 hc

/-! ### A chunk is finished -/

/-- The bytes whose hash `finished` compares. Kind: D -/
def compared (s : ChunkManager L) (i : Fin L.numChunks) (cd : ChunkDownload (sizeOf i)) :
    List UInt8 :=
  if cd.usingContinuousHashing then cd.hashed
  else (s.cache.bytes L.torrent (s.chunks i)).getD []

/-- **What `finished` promises.** Kind: D -/
structure Verified (os : Os) (i : Fin L.numChunks) (cd : ChunkDownload (sizeOf i))
    (d : Downloader L) : Prop where
  /-- Where it sets the have-bit, the file holds the bytes whose hash was compared, … -/
  stored : d.cman.bitset.get i = false → (d.finished os i cd).1.cman.bitset.get i = true →
    (d.finished os i cd).1.cman.cache.stored L.torrent ((d.finished os i cd).1.cman.chunks i) =
      compared d.cman i cd
  /-- … and that hash is the torrent's. -/
  hash : d.cman.bitset.get i = false → (d.finished os i cd).1.cman.bitset.get i = true →
    L.torrent.getHash i = some (generate (compared d.cman i cd))
  /-- When the hash is right and the have-bit is not set, that is reported. -/
  reported : L.torrent.getHash i = some (generate (compared d.cman i cd)) →
    (d.finished os i cd).1.cman.bitset.get i = false →
      (d.finished os i cd).2 = false ∧ i.val ∈ (d.finished os i cd).1.ioErrors

/-- A hash is verified iff it is the one of the torrent. Source: `torrent/torrent.cpp`,
`Torrent::verifyHash`. Kind: L -/
theorem verifyHash_iff (h : SHA1Hash) (i : Fin L.numChunks) :
    L.torrent.verifyHash h i = true ↔ L.torrent.getHash i = some h := by
  unfold Torrent.verifyHash Torrent.getHash
  cases L.torrent.hash_pieces[i.val]? with
  | none => simp
  | some ph => simp

/-- A chunk that is finished: it is in memory, and what is compared is the hash of all of it.
Kind: D -/
structure Ready (i : Fin L.numChunks) (cd : ChunkDownload (sizeOf i)) (d : Downloader L) : Prop where
  placed : Placed i (d.cman.chunks i)
  memory : (d.cman.chunks i).data.isNull = false
  hashed : cd.usingContinuousHashing = true →
    cd.hashed = slice (content d.cman i) 0 (sizeOf i) ∧ cd.getHash = generate cd.hashed

/-- What was hashed is what the cache would write. Source: `torrent/downloader.cpp`,
`torrent/chunkdownload.cpp`. Kind: L -/
theorem Ready.compared_eq {cd : ChunkDownload (sizeOf i)} (h : Ready i cd d) :
    d.cman.cache.bytes L.torrent (d.cman.chunks i) = some (compared d.cman i cd) := by
  have hb := bytes_eq h.placed h.memory
  unfold compared
  split_ifs with hc
  · rw [hb, (h.hashed hc).1]
  · rw [hb]
    rfl

/-- The two outcomes of `finished`. Source: `Downloader::finished`. Kind: L -/
theorem finished_eq {cd : ChunkDownload (sizeOf i)}
    (hget : cd.usingContinuousHashing = true → cd.getHash = generate cd.hashed) (os : Os) :
    d.finished os i cd =
      if L.torrent.getHash i = some (generate (compared d.cman i cd)) then
        if (d.cman.saveChunk os i true).2 = true then
          ({ d with cman := (d.cman.saveChunk os i true).1 }, true)
        else ({ d with
          cman := (d.cman.saveChunk os i true).1
          ioErrors := d.ioErrors ++ [i.val] }, false)
      else ({ d with
        cman := d.cman.resetChunk os i
        selector := ChunkSelector.reinsert i d.selector }, false) := by
  have hhash : (if cd.usingContinuousHashing then cd.getHash
      else generate ((d.cman.cache.bytes L.torrent (d.cman.chunks i)).getD [])) =
      generate (compared d.cman i cd) := by
    unfold compared
    split_ifs with hc
    · exact hget hc
    · rfl
  unfold Downloader.finished
  simp only [hhash, verifyHash_iff]

/-- What saving a chunk with the index does to its have-bit. Source: `ChunkManager::saveChunk`.
Kind: L -/
theorem saveChunk_bit {s : ChunkManager L} (hp : Placed i (s.chunks i)) (os : Os) :
    (s.saveChunk os i true).1.bitset.get i =
        (s.bitset.get i || (s.cache.save L.torrent os (s.chunks i)).2.2) ∧
      ((s.cache.save L.torrent os (s.chunks i)).2.2 = false → (s.saveChunk os i true).2 = false) := by
  have hx : (s.chunks i).isExcluded = false := by simpa [Chunk.isExcluded] using hp.wanted
  have hcell := cell_saveChunk s i os i true
  rw [if_pos rfl] at hcell
  refine ⟨?_, fun hok => ?_⟩
  · have h1 := congrArg Cell.owned hcell
    have h2 := (Cell.save_wanted (c := s.cell i) hx L.torrent os s.cache true).2.2.1
    rw [Bool.and_true] at h2
    exact h1.trans h2
  · unfold ChunkManager.saveChunk
    simp [i.2, hx, hok]

/-- **A chunk that is ready is verified.**. Source: `torrent/downloader.cpp`,
`torrent/chunkdownload.cpp`. Kind: P -/
theorem Ready.verified {cd : ChunkDownload (sizeOf i)} (h : Ready i cd d) (os : Os) :
    Verified os i cd d := by
  obtain ⟨hchunks, hcache⟩ := saveChunk_eq d.cman h.placed os true
  have hstored : (d.cman.cache.save L.torrent os (d.cman.chunks i)).2.2 = true →
      (d.cman.saveChunk os i true).1.cache.stored L.torrent
        ((d.cman.saveChunk os i true).1.chunks i) = compared d.cman i cd := by
    intro hok
    have h1 := stored_save h.placed os d.cman.cache h.memory hok
    rw [h.compared_eq] at h1
    rw [hchunks, hcache, Function.update_self]
    exact Option.some.inj h1
  have hreset : (d.cman.resetChunk os i).bitset.get i = false := by
    have h1 := cell_resetChunk d.cman i os i
    rw [if_pos rfl] at h1
    exact congrArg Cell.owned h1
  have heq := finished_eq (d := d) (fun hc => (h.hashed hc).2) os
  by_cases hv : L.torrent.getHash i = some (generate (compared d.cman i cd))
  swap
  · rw [if_neg hv] at heq
    refine ⟨fun _ hb => ?_, fun _ hb => ?_, fun hv' => absurd hv' hv⟩
    · rw [heq] at hb
      exact absurd (hreset.symm.trans hb) (by decide)
    · rw [heq] at hb
      exact absurd (hreset.symm.trans hb) (by decide)
  rw [if_pos hv] at heq
  have hman : (d.finished os i cd).1.cman = (d.cman.saveChunk os i true).1 := by
    rw [heq]
    split_ifs <;> rfl
  obtain ⟨hbit, hfail⟩ := saveChunk_bit h.placed os
  rw [← hman] at hbit
  refine ⟨fun hb hb' => ?_, fun _ _ => hv, fun _ hb => ?_⟩
  · rw [hbit, hb, Bool.false_or] at hb'
    rw [hman]
    exact hstored hb'
  · rw [hbit, Bool.or_eq_false_iff] at hb
    rw [heq, if_neg (by simp [hfail hb.2])]
    exact ⟨rfl, List.mem_append_right _ (List.mem_singleton.mpr rfl)⟩

/-- A finished chunk is erased; it is still placed. Source: `SHA1HashGen::end`. Kind: L -/
theorem Steadfast.finish {d' : Downloader L} (h : Steadfast d) (ho : OnlyAt i d d')
    (hp : Placed i (d'.cman.chunks i)) : Steadfast (d'.erase i) := by
  refine h.at (ho.trans (onlyAt_erase i d')) ?_ fun cd hcd _ => ?_
  · unfold Downloader.erase
    split
    · exact hp
    · have h1 := cell_modifyChunk d'.cman i i fun c => { c with ref_count := c.ref_count - 1 }
      rw [if_pos rfl] at h1
      have h2 : ((d'.cman.modifyChunk i fun c => { c with ref_count := c.ref_count - 1 }).chunks i) =
          { d'.cman.chunks i with ref_count := (d'.cman.chunks i).ref_count - 1 } :=
        congrArg Cell.chunk h1
      show Placed i ((d'.cman.modifyChunk i _).chunks i)
      rw [h2]
      exact hp.refCount _
  · have hnone : (d'.erase i).current_chunks i = none := by
      unfold Downloader.erase
      split
      · assumption
      · exact Function.update_self _ _ _
    rw [hnone] at hcd
    cases hcd

/-- A saved chunk is in place. Source: `ChunkManager::saveChunk`. Kind: L -/
theorem placed_saveChunk {s : ChunkManager L} (hp : Placed i (s.chunks i)) (os : Os)
    (update_index : Bool) : Placed i ((s.saveChunk os i update_index).1.chunks i) := by
  rw [(saveChunk_eq s hp os update_index).1, Function.update_self]
  exact hp.save os _

/-- A chunk that is finished is in place, and no other is touched. Source: `Downloader::finished`.
Kind: L -/
theorem Ready.finished {cd : ChunkDownload (sizeOf i)} (h : Ready i cd d) (os : Os) :
    OnlyAt i d (d.finished os i cd).1 ∧ Placed i ((d.finished os i cd).1.cman.chunks i) := by
  have hsave := onlyAt_saveChunk h.placed os true
  have hplaced := placed_saveChunk h.placed os true
  rw [finished_eq (fun hc => (h.hashed hc).2) os]
  split_ifs
  · exact ⟨hsave, hplaced⟩
  · exact ⟨⟨hsave.chunks, hsave.current, hsave.disk⟩, hplaced⟩
  · refine ⟨onlyAt_resetChunk os i d _, ?_⟩
    have h1 := cell_resetChunk d.cman i os i
    rw [if_pos rfl] at h1
    have h2 : (d.cman.resetChunk os i).chunks i =
        { (d.cman.chunks i).clear with status := .notDownloaded } := congrArg Cell.chunk h1
    show Placed i ((d.cman.resetChunk os i).chunks i)
    rw [h2]
    exact h.placed.clear (Or.inr rfl)

/-- A mapped chunk leaves memory; its bytes stay in the file. Source: `Downloader::pieceRecieved`,
`normalUpdate`. Kind: L -/
theorem Steadfast.saveIdle (h : Steadfast d) (os : Os) (i : Fin L.numChunks) :
    Steadfast (d.saveIdle os i) := by
  unfold Downloader.saveIdle
  split_ifs with hs
  swap
  · exact h
  have hp := h.placed i
  obtain ⟨hc, hk⟩ := saveChunk_eq d.cman hp os false
  refine h.at (onlyAt_saveChunk hp os false) (placed_saveChunk hp os false) fun cd hcd hcont => ?_
  have hsame : content (d.cman.saveChunk os i false).1 i = content d.cman i := by
    unfold content
    rw [hc, hk, Function.update_self, disk_save_mapped hs, hp.mapped hs]
    rcases d.cman.cache.save_chunk_cases L.torrent os (d.cman.chunks i) with h1 | h1 <;> rw [h1]
    · rw [hp.mapped hs]
    · rfl
  show Hashed cd (content (d.cman.saveChunk os i false).1 i)
  rw [hsame]
  exact h.hashed i cd hcd hcont

/-- The piece an event brings is finished as promised. Kind: D -/
def CompletesVerified (env : Env) (p : Piece) (d : Downloader L) : Prop :=
  ∀ i cd, d.addressee p = some i → d.current_chunks i = some cd →
    ((d.reload (env.chunk i) i).arrival i cd p).complete = true →
      Verified env.file i ((d.reload (env.chunk i) i).arrival i cd p).cd
        ((d.reload (env.chunk i) i).keepArrival i ((d.reload (env.chunk i) i).arrival i cd p))

/-- After preparing there is memory. Source: `Downloader::pieceRecieved`, `findDownloadForPD`.
Kind: L -/
theorem hasMemory_of_reload (os : Os) (i : Fin L.numChunks) (d : Downloader L)
    (h : ((d.reload os i).cman.chunks i).data.isNull = false) : d.hasMemory i := by
  by_contra hn
  have h1 := (memory_reload_iff d os i).mpr hn
  rw [memory_eq_none_iff] at h1
  exact absurd (h.symm.trans h1) (by decide)

/-- **A steady piece**: the invariant is kept, and what it completes is verified.
Source: `Downloader::pieceRecieved`. Kind: P -/
theorem Steadfast.pieceRecieved (h : Steadfast d) {env : Env} {p : Piece}
    (hok : SteadyPiece d env p) (is_idle : Bool) :
    Steadfast (d.pieceRecieved env is_idle p) ∧ CompletesVerified env p d := by
  have hready : ∀ i cd, d.addressee p = some i → d.current_chunks i = some cd →
      Steadfast (d.reload (env.chunk i) i) ∧
      let d₁ := d.reload (env.chunk i) i
      let a := d₁.arrival i cd p
      OnlyAt i d₁ (d₁.keepArrival i a) ∧ (a.complete = false → Steadfast (d₁.keepArrival i a)) ∧
        (a.complete = true → Ready i a.cd (d₁.keepArrival i a)) := by
    intro i cd hi hcd
    obtain ⟨hreload, hfits⟩ := hok i cd hi hcd
    have h1 := h.reload hreload
    have hcd1 : (d.reload (env.chunk i) i).current_chunks i = some cd := by
      rw [current_chunks_reload]
      exact hcd
    obtain ⟨ho, hp, hn, hc⟩ := h1.arrival hcd1 fun hget hnull =>
      hfits hget (hasMemory_of_reload _ _ _ hnull)
    exact ⟨h1, ho, hn, fun hcomplete => ⟨hp, (hc hcomplete).1, (hc hcomplete).2⟩⟩
  refine ⟨?_, fun i cd hi hcd hcomplete => ?_⟩
  swap
  · exact ((hready i cd hi hcd).2.2.2 hcomplete).verified env.file
  unfold Downloader.pieceRecieved
  cases hi : d.addressee p with
  | none => exact h
  | some i =>
    cases hcd : d.current_chunks i with
    | none => simpa only [hcd] using h
    | some cd =>
      obtain ⟨h1, ho, hn, hc⟩ := hready i cd hi hcd
      simp only [hcd]
      by_cases hcomplete : ((d.reload (env.chunk i) i).arrival i cd p).complete = true
      · rw [if_pos hcomplete]
        obtain ⟨hof, hpf⟩ := (hc hcomplete).finished env.file
        exact h1.finish (ho.trans hof) hpf
      · rw [if_neg hcomplete]
        have h2 := hn (Bool.eq_false_iff.mpr hcomplete)
        split_ifs
        · exact h2.saveIdle _ _
        · exact h2

/-- A new download starts with nothing hashed. Source: `Downloader::downloadFrom`. Kind: L -/
theorem Steadfast.downloadFrom (h : Steadfast d) (env : Env) (hasChunk : ℕ → Bool) :
    Steadfast (d.downloadFrom env hasChunk) := by
  obtain ⟨r, hr⟩ : ∃ r, r =
    ChunkSelector.select d.cman hasChunk d.areWeDownloading d.selector := ⟨_, rfl⟩
  have hsel : ∀ l, Steadfast { d with selector := l } := fun l => ⟨h.placed, h.hashed⟩
  unfold Downloader.downloadFrom
  simp only [← hr]
  rcases r.2 with _ | chunk
  · exact hsel r.1
  dsimp only
  by_cases hlt : chunk < L.numChunks
  swap
  · rw [dif_neg hlt]
    exact hsel r.1
  rw [dif_pos hlt]
  obtain ⟨i, rfl⟩ : ∃ i : Fin L.numChunks, i.val = chunk := ⟨⟨chunk, hlt⟩, rfl⟩
  by_cases hs : (d.cman.chunks i).status = .notDownloaded
  swap
  · have hq : d.cman.prepareChunk (env.chunk i) i false = (d.cman, false) := by
      unfold ChunkManager.prepareChunk
      rw [dif_pos i.2, if_pos (by simp [hs])]
    rw [hq]
    exact hsel r.1
  have hq : d.cman.prepareChunk (env.chunk i) i false =
      ({ d.cman with
        chunks := Function.update d.cman.chunks i
          (d.cman.cache.prep L.torrent (env.chunk i) (d.cman.chunks i)).1
        cache := (d.cman.cache.prep L.torrent (env.chunk i) (d.cman.chunks i)).2 }, true) := by
    unfold ChunkManager.prepareChunk
    rw [dif_pos i.2, if_neg (by simp [hs])]
  obtain ⟨d₁, hd₁⟩ : ∃ d₁ : Downloader L, d₁ = { d with
    cman := (d.cman.prepareChunk (env.chunk i) i false).1
    selector := r.1 } := ⟨_, rfl⟩
  have hchunk : d₁.cman.chunks i =
      (d.cman.cache.prep L.torrent (env.chunk i) (d.cman.chunks i)).1 := by
    rw [hd₁, hq]
    exact Function.update_self _ _ _
  have ho : OnlyAt i d d₁ := by
    rw [hd₁, hq]
    exact ⟨fun j hj => Function.update_of_ne hj _ _, fun _ _ => rfl,
      fun b _ => congrFun (disk_prep _ _ _) b⟩
  have hp : Placed i (d₁.cman.chunks i) := by
    rw [hchunk]
    exact (h.placed i).prep _ _
  have hfin : Steadfast (d₁.insert i (.new _)) := by
    refine h.at (ho.trans (onlyAt_insert i _ d₁)) ?_ fun cd hcd _ => ?_
    · have h1 := cell_modifyChunk d₁.cman i i fun c => { c with ref_count := c.ref_count + 1 }
      rw [if_pos rfl] at h1
      have h2 : (d₁.cman.modifyChunk i fun c => { c with ref_count := c.ref_count + 1 }).chunks i =
          { d₁.cman.chunks i with ref_count := (d₁.cman.chunks i).ref_count + 1 } :=
        congrArg Cell.chunk h1
      show Placed i ((d₁.cman.modifyChunk i _).chunks i)
      rw [h2]
      exact hp.refCount _
    · have hnew : (d₁.insert i (.new _)).current_chunks i = some (.new _) :=
        Function.update_self _ _ _
      obtain rfl := Option.some.inj (hnew.symm.trans hcd)
      exact hashed_new _ _
  rw [hd₁] at hfin
  rw [if_pos (by rw [hq])]
  exact hfin

end steps

end Downloader

end KTorrent.Transfer
