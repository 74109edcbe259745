import KTorrent.Storage.ChunksLeft
import KTorrent.Storage.IndexFile
import KTorrent.Transfer.Accounting

/-!
# What the bytes downloaded should be

* `worth` — what the account has for a chunk; `Entry` — what it relies on for it.
* `Downloader.credit` — the account of all chunks; `Entries.credit_eq` — it is what the source
  computes, with the pieces of the downloads in progress.
* `Kin` — what concerns no account; `Entries.at`, `Entries.change` — what concerns one chunk; and
  what each operation of the downloader does.
* `Loses` — a file is taken out although something of it counts.
* `held_loadIndexFile` — a torrent that starts has an account.

Source: `torrent/downloader.cpp`, `torrent/chunkmanager.cpp`
-/

namespace KTorrent.Transfer

open KTorrent.Lib KTorrent.Util KTorrent.Storage ChunkManager

/-! ### The account of a chunk -/

section entries

variable {size : ℕ} {c c' : Cell} {o : Option (ChunkDownload size)}

/-- What the account relies on for a chunk and its download. Kind: D -/
structure Entry (size : ℕ) (c : Cell) (o : Option (ChunkDownload size)) : Prop where
  sized : c.chunk.size = size
  data : c.owned = true ∨ o.isSome = true → c.chunk.status ≠ .notDownloaded
  apart : o.isSome = true → c.owned = false
  wanted : o.isSome = true → c.chunk.isExcluded = false
  counter : ∀ cd, o = some cd → cd.num_downloaded = cd.pieces.numOnBits

/-- The bytes of the pieces a download has. Kind: D -/
def partialBytes (size : ℕ) (o : Option (ChunkDownload size)) : ℕ :=
  o.elim 0 fun cd => bytesOfPieces size cd.pieces

/-- What the account has for a chunk. Kind: D -/
def worth (size : ℕ) (c : Cell) (o : Option (ChunkDownload size)) : ℕ :=
  (if c.owned = true then size else 0) + partialBytes size o

/-- The chunk has changed in nothing the account relies on. Kind: D -/
structure Kin (c c' : Cell) : Prop where
  size : c'.chunk.size = c.chunk.size
  owned : c'.owned = c.owned
  wanted : c.chunk.isExcluded = false → c'.chunk.isExcluded = false
  data : c.chunk.status ≠ .notDownloaded → c'.chunk.status ≠ .notDownloaded

/-- A cell is its own kin. Source: none: infrastructure. Kind: L -/
theorem Kin.refl (c : Cell) : Kin c c := ⟨rfl, rfl, id, id⟩

/-- Kinship is transitive. Source: none: infrastructure. Kind: L -/
theorem Kin.trans {c'' : Cell} (h : Kin c c') (h' : Kin c' c'') : Kin c c'' :=
  ⟨h'.size.trans h.size, h'.owned.trans h.owned, fun hc => h'.wanted (h.wanted hc),
    fun hc => h'.data (h.data hc)⟩

/-- An entry stays one when its cell is replaced by a kin. Source: `torrent/downloader.cpp`,
`torrent/chunkmanager.cpp`. Kind: L -/
theorem Entry.kin (h : Entry size c o) (hk : Kin c c') : Entry size c' o where
  sized := hk.size.trans h.sized
  data ho := hk.data (h.data (hk.owned ▸ ho))
  apart ho := hk.owned.trans (h.apart ho)
  wanted ho := hk.wanted (h.wanted ho)
  counter := h.counter

/-- Kin are worth the same. Source: `torrent/downloader.cpp`, `torrent/chunkmanager.cpp`. Kind: L -/
theorem worth_kin (hk : Kin c c') : worth size c' o = worth size c o := by
  unfold worth
  rw [hk.owned]

/-- A chunk without a download. Source: `torrent/downloader.cpp`, `torrent/chunkmanager.cpp`.
Kind: L -/
theorem Entry.alone (hs : c.chunk.size = size)
    (hd : c.owned = true → c.chunk.status ≠ .notDownloaded) :
    Entry size c (none : Option (ChunkDownload size)) where
  sized := hs
  data ho := hd (ho.resolve_right Bool.false_ne_true)
  apart ho := absurd ho Bool.false_ne_true
  wanted ho := absurd ho Bool.false_ne_true
  counter cd hcd := by cases hcd

/-- A download of a chunk that is not owned is worth its pieces. Source: `torrent/downloader.cpp`,
`torrent/chunkmanager.cpp`. Kind: L -/
theorem worth_some {cd : ChunkDownload size} (h : c.owned = false) :
    worth size c (some cd) = bytesOfPieces size cd.pieces := by
  unfold worth
  rw [h, if_neg Bool.false_ne_true, Nat.zero_add]
  rfl

/-- A chunk is worth no more than its bytes. Source: `torrent/downloader.cpp`,
`torrent/chunkmanager.cpp`. Kind: L -/
theorem Entry.worth_le (h : Entry size c o) : worth size c o ≤ size := by
  unfold worth partialBytes
  cases o with
  | none =>
    show _ + 0 ≤ _
    split_ifs
    · exact le_rfl
    · exact Nat.zero_le _
  | some cd =>
    rw [h.apart rfl, if_neg Bool.false_ne_true, Nat.zero_add]
    exact bytesOfPieces_le _

/-- Preparing a chunk. Source: `SingleFileCache::prep`. Kind: L -/
theorem kin_prep (t : Torrent) (os : Os) (k : Cache) (c : Cell) : Kin c (c.prep t os k) := by
  obtain ⟨d, st, hst, hp⟩ := k.prep_chunk_cases t os c.chunk
  have hchunk : (c.prep t os k).chunk = c.chunk.setData d st := hp
  refine ⟨?_, rfl, fun hx => ?_, fun _ => ?_⟩
  · rw [hchunk]
    rfl
  · rw [hchunk]
    exact hx
  · rw [hchunk]
    rcases hst with rfl | rfl <;> simp [Chunk.setData]

/-- A chunk that has been prepared has a place for its data. Source: `SingleFileCache::prep`.
Kind: L -/
theorem status_prep (t : Torrent) (os : Os) (k : Cache) (c : Cell) :
    (c.prep t os k).chunk.status ≠ .notDownloaded := by
  obtain ⟨d, st, hst, hp⟩ := k.prep_chunk_cases t os c.chunk
  rw [show (c.prep t os k).chunk = c.chunk.setData d st from hp]
  rcases hst with rfl | rfl <;> simp [Chunk.setData]

/-- What saving does to a chunk that is not excluded. Source: `ChunkDownload::save`. Kind: L -/
theorem chunk_save (hx : c.chunk.isExcluded = false) (t : Torrent) (os : Os) (k : Cache)
    (u : Bool) :
    (c.save t os k u).chunk.size = c.chunk.size ∧ (c.save t os k u).chunk.isExcluded = false ∧
      (c.chunk.status ≠ .notDownloaded → (c.save t os k u).chunk.status ≠ .notDownloaded) := by
  unfold Cell.save
  rw [if_neg (by rw [hx]; exact Bool.false_ne_true)]
  obtain h | h := k.save_chunk_cases t os c.chunk
  · rw [h]
    exact ⟨rfl, hx, id⟩
  · rw [h]
    exact ⟨rfl, hx, fun _ => by simp⟩

/-- Saving a chunk that is not excluded, without setting its bit. Source: `ChunkDownload::save`.
Kind: L -/
theorem kin_save (hx : c.chunk.isExcluded = false) (t : Torrent) (os : Os) (k : Cache) :
    Kin c (c.save t os k false) := by
  obtain ⟨hsize, hx', hdata⟩ := chunk_save hx t os k false
  refine ⟨hsize, ?_, fun _ => hx', hdata⟩
  unfold Cell.save
  rw [if_neg (by rw [hx]; exact Bool.false_ne_true)]
  simp

/-- A priority other than excluded. Source: `torrent/downloader.cpp`, `torrent/chunkmanager.cpp`.
Kind: L -/
theorem kin_prioritise {p : Priority} (hp : p ≠ .excluded) (c : Cell) : Kin c (c.prioritise p) :=
  ⟨rfl, rfl, fun _ => by simpa [Cell.prioritise, Chunk.isExcluded] using hp, id⟩

/-- Including. Source: `torrent/downloader.cpp`, `torrent/chunkmanager.cpp`. Kind: L -/
theorem kin_includeBack (c : Cell) : Kin c c.includeBack :=
  ⟨rfl, rfl, fun _ => rfl, id⟩

end entries

namespace Downloader

variable {L : Layout}

/-- The entries of all chunks. Kind: D -/
def Entries (d : Downloader L) : Prop :=
  ∀ i, Entry (sizeOf i) (d.cman.cell i) (d.current_chunks i)

/-- **What the counter should be**, chunk by chunk. Kind: D -/
def credit (d : Downloader L) : ℕ := ∑ i, worth (sizeOf i) (d.cman.cell i) (d.current_chunks i)

section credit

variable {d d' : Downloader L}

/-- The credit depends on what each chunk is worth. Source: none: infrastructure. Kind: L -/
theorem credit_congr (h : ∀ i, worth (sizeOf i) (d'.cman.cell i) (d'.current_chunks i) =
    worth (sizeOf i) (d.cman.cell i) (d.current_chunks i)) : d'.credit = d.credit :=
  Finset.sum_congr rfl fun i _ => h i

/-- The account follows what becomes of one chunk. Source: `torrent/downloader.cpp`,
`torrent/chunkmanager.cpp`. Kind: L -/
theorem credit_of_one (i : Fin L.numChunks) (h : ∀ j, j ≠ i →
    worth (sizeOf j) (d'.cman.cell j) (d'.current_chunks j) =
      worth (sizeOf j) (d.cman.cell j) (d.current_chunks j)) :
    d'.credit + worth (sizeOf i) (d.cman.cell i) (d.current_chunks i) =
      d.credit + worth (sizeOf i) (d'.cman.cell i) (d'.current_chunks i) :=
  sum_add_of_eq_off (Finset.mem_univ i) fun j _ => h j

/-- No chunk is worth more than all. Source: `torrent/downloader.cpp`, `torrent/chunkmanager.cpp`.
Kind: L -/
theorem worth_le_credit (i : Fin L.numChunks) :
    worth (sizeOf i) (d.cman.cell i) (d.current_chunks i) ≤ d.credit :=
  Finset.single_le_sum (f := fun j => worth (sizeOf j) (d.cman.cell j) (d.current_chunks j))
    (fun _ _ => Nat.zero_le _) (Finset.mem_univ i)

/-- Operations that change nothing the account relies on. Source: `torrent/downloader.cpp`,
`torrent/chunkmanager.cpp`. Kind: L -/
theorem Entries.kin (h : Entries d) (hk : ∀ i, Kin (d.cman.cell i) (d'.cman.cell i))
    (hcur : d'.current_chunks = d.current_chunks) : Entries d' ∧ d'.credit = d.credit := by
  constructor
  · intro i
    rw [hcur]
    exact (h i).kin (hk i)
  · apply credit_congr
    intro i
    rw [hcur]
    exact worth_kin (hk i)

/-- The reference count does not matter. Source: `torrent/downloader.cpp`,
`torrent/chunkmanager.cpp`. Kind: L -/
theorem kin_refCount (s : ChunkManager L) (i : ℕ) (f : ℤ → ℤ) (j : Fin L.numChunks) :
    Kin (s.cell j) ((s.modifyChunk i fun c => { c with ref_count := f c.ref_count }).cell j) := by
  rw [cell_modifyChunk]
  split_ifs <;> exact ⟨rfl, rfl, id, id⟩

/-- Bytes copied into a chunk do not matter. Source: `ChunkDownload::piece`. Kind: L -/
theorem kin_copyInto (i : Fin L.numChunks) (off : ℕ) (bs : List UInt8) (s : ChunkManager L)
    (j : Fin L.numChunks) : Kin (s.cell j) ((copyInto i off bs s).cell j) := by
  unfold copyInto
  split
  · exact .refl _
  · by_cases hj : j = i
    · subst hj
      refine ⟨by simp, rfl, fun hx => ?_, fun hd => by simpa using hd⟩
      simp only [cell_chunk, Function.update_self]
      exact hx
    · exact ⟨by simp [hj], rfl, fun hx => by simpa [hj] using hx, fun hd => by simpa [hj] using hd⟩
  · exact ⟨rfl, rfl, id, id⟩

/-- The chunk manager prepares a chunk. Source: `ChunkManager::prepareChunk`. Kind: L -/
theorem kin_prepareChunk (s : ChunkManager L) (os : Os) (i : ℕ) (allways : Bool)
    (j : Fin L.numChunks) : Kin (s.cell j) ((s.prepareChunk os i allways).1.cell j) := by
  rw [cell_prepareChunk]
  split
  · exact kin_prep _ _ _ _
  · exact .refl _

/-- A chunk is prepared again. Source: `Downloader::pieceRecieved`, `findDownloadForPD`. Kind: L -/
theorem kin_reload (os : Os) (i : Fin L.numChunks) (d : Downloader L) (j : Fin L.numChunks) :
    Kin (d.cman.cell j) ((d.reload os i).cman.cell j) := by
  unfold Downloader.reload
  split_ifs
  · exact kin_prepareChunk _ _ _ _ j
  · exact .refl _

/-- An idle download's chunk is saved. Source: `Downloader::pieceRecieved`, `normalUpdate`.
Kind: L -/
theorem Entries.saveIdle (h : Entries d) {i : Fin L.numChunks}
    (hi : (d.current_chunks i).isSome = true) (os : Os) :
    Entries (d.saveIdle os i) ∧ (d.saveIdle os i).credit = d.credit := by
  unfold Downloader.saveIdle
  split_ifs
  · refine h.kin (fun j => ?_) rfl
    rw [cell_saveChunk]
    by_cases hj : j.val = i.val
    · obtain rfl := Fin.ext hj
      rw [if_pos rfl]
      exact kin_save ((h j).wanted hi) _ _ _
    · rw [if_neg hj]
      exact .refl _
  · exact ⟨h, rfl⟩

/-- A download is found idle. Source: `Downloader::normalUpdate`. Kind: L -/
theorem Entries.idle (h : Entries d) (os : Os) (i : Fin L.numChunks) :
    Entries (d.idle os i) ∧ (d.idle os i).credit = d.credit := by
  unfold Downloader.idle
  split_ifs with hi
  · exact h.saveIdle hi os
  · exact ⟨h, rfl⟩

/-- A chunk is prepared again. Source: `Downloader::pieceRecieved`, `findDownloadForPD`. Kind: L -/
theorem Entries.reload (h : Entries d) (os : Os) (i : Fin L.numChunks) :
    Entries (d.reload os i) ∧ (d.reload os i).credit = d.credit :=
  h.kin (kin_reload os i d) (current_chunks_reload os i)

/-- A peer is assigned. Source: `Downloader::findDownloadForPD`, `downloadFrom`. Kind: L -/
theorem Entries.assign (h : Entries d) (os : Os) (i : Fin L.numChunks) :
    Entries (d.assign os i) ∧ (d.assign os i).credit = d.credit := by
  unfold Downloader.assign
  split_ifs
  · exact h.reload os i
  · exact ⟨h, rfl⟩

/-! ### Downloads that begin and end -/

/-- What concerns chunk `i` alone: its entry is right again, and the account follows.
Source: `torrent/downloader.cpp`, `torrent/chunkmanager.cpp`. Kind: L -/
theorem Entries.at (h : Entries d) (d' : Downloader L) (i : Fin L.numChunks)
    (hcell : ∀ j, j ≠ i → Kin (d.cman.cell j) (d'.cman.cell j))
    (hcur : ∀ j, j ≠ i → d'.current_chunks j = d.current_chunks j)
    (hi : Entry (sizeOf i) (d'.cman.cell i) (d'.current_chunks i)) :
    Entries d' ∧ d'.credit + worth (sizeOf i) (d.cman.cell i) (d.current_chunks i) =
      d.credit + worth (sizeOf i) (d'.cman.cell i) (d'.current_chunks i) := by
  constructor
  · intro j
    by_cases hj : j = i
    · rw [hj]
      exact hi
    · rw [hcur j hj]
      exact (h j).kin (hcell j hj)
  · apply credit_of_one
    intro j hj
    rw [hcur j hj]
    exact worth_kin (hcell j hj)

/-- A chunk that could be prepared was not there, and has a place for its data now.
Source: `ChunkManager::prepareChunk`. Kind: L -/
theorem prepareChunk_ok {t : ChunkManager L} {os : Os} {i : Fin L.numChunks}
    (h : (t.prepareChunk os i false).2 = true) :
    (t.chunks i).status = .notDownloaded ∧
      ((t.prepareChunk os i false).1.chunks i).status ≠ .notDownloaded := by
  have hst : (t.chunks i).status = .notDownloaded := by
    unfold ChunkManager.prepareChunk at h
    rw [dif_pos i.2] at h
    by_contra hne
    rw [if_pos (by simpa using hne)] at h
    cases h
  refine ⟨hst, ?_⟩
  rw [← cell_chunk, cell_prepareChunk, if_pos ⟨rfl, Or.inr hst⟩]
  exact status_prep _ _ _ _

/-- A prepared chunk, not owned, gets its download. Source: `torrent/downloader.cpp`,
`torrent/chunkmanager.cpp`. Kind: L -/
theorem Entries.insert (h : Entries d) (d' : Downloader L) {i : Fin L.numChunks}
    (cd : ChunkDownload (sizeOf i)) (hcell : ∀ j, Kin (d.cman.cell j) (d'.cman.cell j))
    (hcur : d'.current_chunks = d.current_chunks) (hnone : d.current_chunks i = none)
    (hown : d.cman.bitset.get i = false) (hx : (d.cman.chunks i).isExcluded = false)
    (hdata : (d'.cman.chunks i).status ≠ .notDownloaded)
    (hcount : cd.num_downloaded = cd.pieces.numOnBits) :
    Entries (d'.insert i cd) ∧
      (d'.insert i cd).credit = d.credit + bytesOfPieces (sizeOf i) cd.pieces := by
  have hk' : ∀ j, Kin (d'.cman.cell j) ((d'.insert i cd).cman.cell j) :=
    kin_refCount d'.cman i (· + 1)
  have hsome : (d'.insert i cd).current_chunks i = some cd := Function.update_self _ _ _
  have hkin := (hcell i).trans (hk' i)
  have howned : ((d'.insert i cd).cman.cell i).owned = false := hkin.owned.trans hown
  have hentry : Entry (sizeOf i) ((d'.insert i cd).cman.cell i) (some cd) := by
    refine ⟨hkin.size.trans (h i).sized, fun _ => (hk' i).data hdata, fun _ => howned,
      fun _ => hkin.wanted hx, fun cd' hcd' => ?_⟩
    obtain rfl := Option.some.inj hcd'
    exact hcount
  obtain ⟨hentries, hcredit⟩ := h.at (d'.insert i cd) i
    (fun j _ => (hcell j).trans (hk' j))
    (fun j hj => (Function.update_of_ne hj _ _).trans (congrFun hcur j))
    (by rw [hsome]; exact hentry)
  refine ⟨hentries, ?_⟩
  have hold : worth (sizeOf i) (d.cman.cell i) (d.current_chunks i) = 0 := by
    rw [hnone]
    unfold worth
    rw [show (d.cman.cell i).owned = false from hown]
    rfl
  have hnew : worth (sizeOf i) ((d'.insert i cd).cman.cell i) ((d'.insert i cd).current_chunks i) =
      bytesOfPieces (sizeOf i) cd.pieces := by
    rw [hsome]
    unfold worth
    rw [howned, if_neg Bool.false_ne_true, Nat.zero_add]
    rfl
  rw [hold, hnew] at hcredit
  exact hcredit

/-- A peer is asked for a new chunk. Source: `Downloader::downloadFrom`. Kind: L -/
theorem Entries.downloadFrom (h : Entries d) (env : Env) (hasChunk : ℕ → Bool) :
    Entries (d.downloadFrom env hasChunk) ∧ (d.downloadFrom env hasChunk).credit = d.credit := by
  obtain ⟨r, hr⟩ : ∃ r, r =
    ChunkSelector.select d.cman hasChunk d.areWeDownloading d.selector := ⟨_, rfl⟩
  unfold Downloader.downloadFrom
  simp only [← hr]
  cases hc : r.2 with
  | none => exact h.kin (fun _ => .refl _) rfl
  | some chunk =>
    dsimp only
    by_cases hlt : chunk < L.numChunks
    swap
    · rw [dif_neg hlt]
      exact h.kin (fun _ => .refl _) rfl
    rw [dif_pos hlt]
    have hkin : ∀ j, Kin (d.cman.cell j)
        ((d.cman.prepareChunk (env.chunk chunk) chunk false).1.cell j) :=
      fun j => kin_prepareChunk _ _ _ _ j
    split_ifs with hq
    · obtain ⟨hown, hsel⟩ := select_some d.cman hasChunk d.areWeDownloading d.selector
        ((congrArg Prod.snd hr).symm.trans hc)
      unfold ChunkSelector.selectable areWeDownloading at hsel
      rw [dif_pos hlt, getChunk, dif_pos hlt] at hsel
      simp only [Option.any_some, Bool.and_eq_true, Bool.not_eq_true'] at hsel
      obtain ⟨⟨-, hnone⟩, hx, -⟩ := hsel
      obtain ⟨-, hdata⟩ := prepareChunk_ok (t := d.cman) (i := ⟨chunk, hlt⟩) hq
      have hinsert := h.insert { d with
        selector := r.1
        cman := (d.cman.prepareChunk (env.chunk chunk) chunk false).1 } (.new _) hkin rfl
        (by simpa using hnone) hown hx hdata (BitSet.numOnBits_empty _).symm
      refine ⟨hinsert.1, hinsert.2.trans ?_⟩
      show d.credit + bytesOfPieces _ (BitSet.empty _) = _
      rw [bytesOfPieces_empty, Nat.add_zero]
    · exact h.kin hkin rfl

/-- The download is gone, the others stay. Source: `torrent/downloader.cpp`,
`torrent/chunkmanager.cpp`. Kind: L -/
theorem current_chunks_erase (i : Fin L.numChunks) (d : Downloader L) :
    (d.erase i).current_chunks = Function.update d.current_chunks i none := by
  unfold Downloader.erase
  split
  · rename_i hnone
    rw [← hnone, Function.update_eq_self]
  · rfl

/-- Ending a download keeps the cells. Source: `torrent/downloader.cpp`, `torrent/chunkmanager.cpp`.
Kind: L -/
theorem kin_erase (i : Fin L.numChunks) (d : Downloader L) (j : Fin L.numChunks) :
    Kin (d.cman.cell j) ((d.erase i).cman.cell j) := by
  unfold Downloader.erase
  split
  · exact .refl _
  · exact kin_refCount d.cman i (· - 1) j

/-- A download ends: what is left of the chunk is in order. Source: `torrent/downloader.cpp`,
`torrent/chunkmanager.cpp`. Kind: L -/
theorem Entries.erase (h : Entries d) {i : Fin L.numChunks}
    (hcell : ∀ j, j ≠ i → d'.cman.cell j = d.cman.cell j)
    (hcur : d'.current_chunks = d.current_chunks)
    (hs : (d'.cman.chunks i).size = sizeOf i)
    (hd : d'.cman.bitset.get i = true → (d'.cman.chunks i).status ≠ .notDownloaded) :
    Entries (d'.erase i) ∧
      (d'.erase i).credit + worth (sizeOf i) (d.cman.cell i) (d.current_chunks i) =
        d.credit + if d'.cman.bitset.get i = true then sizeOf i else 0 := by
  have hnone : (d'.erase i).current_chunks i = none :=
    (congrFun (current_chunks_erase i d') i).trans (Function.update_self _ _ _)
  have hentry : Entry (sizeOf i) ((d'.erase i).cman.cell i) (none : Option (ChunkDownload _)) :=
    (Entry.alone hs hd).kin (kin_erase i d' i)
  obtain ⟨hentries, hcredit⟩ := h.at (d'.erase i) i
    (fun j hj => hcell j hj ▸ kin_erase i d' j)
    (fun j hj => by
      rw [current_chunks_erase, Function.update_of_ne hj, hcur])
    (by rw [hnone]; exact hentry)
  refine ⟨hentries, hcredit.trans ?_⟩
  rw [hnone, worth_kin (kin_erase i d' i)]
  rfl

end credit

end Downloader

/-! ### Pieces -/

section arrival

variable {size : ℕ}

/-- The counts a call of `piece` leaves: one piece more, or nothing has changed.
Source: `ChunkDownload::piece`. Kind: L -/
theorem piece_bytes {cd : ChunkDownload size} (hcount : cd.num_downloaded = cd.pieces.numOnBits)
    (mem : Option Mem) {p : Piece} (hp : WellFormed size p) :
    (cd.piece mem p).cd.num_downloaded = (cd.piece mem p).cd.pieces.numOnBits ∧
    bytesOfPieces size (cd.piece mem p).cd.pieces =
      bytesOfPieces size cd.pieces + (if (cd.piece mem p).ok = true then p.len else 0) ∧
    ((cd.piece mem p).complete = true → bytesOfPieces size (cd.piece mem p).cd.pieces = size) := by
  obtain ⟨halign, hlt, hlen⟩ := hp
  by_cases hign : cd.pieces.get (p.off / MAX_PIECE_LEN) = true ∨ mem = none
  · rw [piece_ignores cd mem hign]
    exact ⟨hcount, rfl, fun h => absurd h Bool.false_ne_true⟩
  rw [not_or, Bool.not_eq_true] at hign
  obtain ⟨m, rfl⟩ := Option.ne_none_iff_exists'.mp hign.2
  obtain ⟨-, hpieces⟩ := piece_stores cd m hign.1
  obtain ⟨hok, hnum, hcomplete⟩ := Requests.piece_counts cd m hign.1
  have hbits := BitSet.numOnBits_set cd.pieces hlt hign.1
  refine ⟨by rw [hnum, hpieces, hbits, hcount], ?_, fun h => ?_⟩
  · rw [hpieces, bytesOfPieces_set hlt hign.1, hok, if_pos rfl, hlen]
  · apply bytesOfPieces_of_all
    intro k hk
    rw [hpieces]
    refine BitSet.get_of_numOnBits _ ?_ hk
    rw [hbits, ← hcount]
    exact hcomplete.mp h

end arrival

namespace Downloader

variable {L : Layout} {d : Downloader L}

/-- What is saved, and whether this is told: without an error of the index file, `saveChunk` tells
whether the chunk is owned. Source: `ChunkManager::saveChunk`. Kind: L -/
theorem owned_saveChunk {os : Os} (hopen : os.index_opens = true) {i : Fin L.numChunks}
    (hx : (d.cman.chunks i).isExcluded = false) (hown : d.cman.bitset.get i = false) :
    (d.cman.saveChunk os i true).1.bitset.get i = (d.cman.saveChunk os i true).2 := by
  unfold ChunkManager.saveChunk ChunkManager.writeIndexFileEntry
  rw [dif_pos i.2, if_pos (by simpa using hx)]
  cases hsaved : (d.cman.cache.save L.torrent os (d.cman.chunks i)).2.2 with
  | false => simp [hsaved, hown]
  | true => simp [hsaved, hopen]

/-- What `finished` leaves of the chunk: it is owned exactly if `finished` says so.
Source: `Downloader::finished`. Kind: L -/
theorem finished_spec (h : d.Entries) {os : Os} (hopen : os.index_opens = true)
    {i : Fin L.numChunks} (hi : (d.current_chunks i).isSome = true) (cd : ChunkDownload (sizeOf i)) :
    (∀ j, j ≠ i → (d.finished os i cd).1.cman.cell j = d.cman.cell j) ∧
      (d.finished os i cd).1.current_chunks = d.current_chunks ∧
      ((d.finished os i cd).1.cman.chunks i).size = sizeOf i ∧
      (d.finished os i cd).1.cman.bitset.get i = (d.finished os i cd).2 ∧
      ((d.finished os i cd).2 = true →
        ((d.finished os i cd).1.cman.chunks i).status ≠ .notDownloaded) := by
  have hx : (d.cman.chunks i).isExcluded = false := (h i).wanted hi
  have hown : d.cman.bitset.get i = false := (h i).apart hi
  obtain ⟨verified, hv⟩ : ∃ b, b = L.torrent.verifyHash
      (if cd.usingContinuousHashing then cd.getHash
        else generate ((d.cman.cache.bytes L.torrent (d.cman.chunks i)).getD [])) i := ⟨_, rfl⟩
  have hsaved := owned_saveChunk hopen hx hown
  have hsize : (d.cman.chunks i).size = sizeOf i := (h i).sized
  have hother : ∀ j, j ≠ i → (d.cman.saveChunk os i true).1.cell j = d.cman.cell j := by
    intro j hj
    rw [cell_saveChunk, if_neg fun hji => hj (Fin.ext hji)]
  have hself : (d.cman.saveChunk os i true).1.cell i =
      (d.cman.cell i).save L.torrent os d.cman.cache true := by
    rw [cell_saveChunk, if_pos rfl]
  obtain ⟨hsize', -, hdata⟩ := chunk_save (c := d.cman.cell i) hx L.torrent os d.cman.cache true
  rw [← hself] at hsize' hdata
  unfold Downloader.finished
  simp only [← hv]
  cases verified with
  | true =>
    rw [if_pos rfl]
    cases hret : (d.cman.saveChunk os i true).2 with
    | true =>
      exact ⟨hother, rfl, hsize'.trans hsize, hsaved.trans hret,
        fun _ => hdata ((h i).data (.inr hi))⟩
    | false =>
      exact ⟨hother, rfl, hsize'.trans hsize, hsaved.trans hret,
        fun hf => absurd hf Bool.false_ne_true⟩
  | false =>
    rw [if_neg Bool.false_ne_true]
    have hreset : (d.cman.resetChunk os i).cell i = (d.cman.cell i).reset := by
      rw [cell_resetChunk, if_pos rfl]
    refine ⟨fun j hj => ?_, rfl, ?_, congrArg Cell.owned hreset,
      fun hf => absurd hf Bool.false_ne_true⟩
    · rw [cell_resetChunk, if_neg fun hji => hj (Fin.ext hji)]
    · exact (congrArg (fun c => c.chunk.size) hreset).trans hsize

end Downloader

/-- A piece is kept: the account grows by its bytes, or stays. Source: `Downloader::pieceRecieved`.
Kind: L -/
theorem Downloader.Entries.keepArrival {L : Layout} {d : Downloader L} (h : d.Entries)
    {i : Fin L.numChunks} {cd : ChunkDownload (sizeOf i)} (hcd : d.current_chunks i = some cd)
    {p : Piece} (hp : WellFormed (sizeOf i) p) :
    (d.keepArrival i (d.arrival i cd p)).Entries ∧
      (d.keepArrival i (d.arrival i cd p)).credit =
        d.credit + (if (d.arrival i cd p).ok = true then p.len else 0) ∧
      ((d.arrival i cd p).complete = true →
        bytesOfPieces (sizeOf i) (d.arrival i cd p).cd.pieces = sizeOf i) := by
  have hsome : (d.current_chunks i).isSome = true := by rw [hcd]; rfl
  obtain ⟨hcount, hbytes, hall⟩ :=
    piece_bytes ((h i).counter cd hcd) (memory L.torrent d.cman.cache (d.cman.chunks i)) hp
  obtain ⟨a, ha⟩ : ∃ a, a = d.arrival i cd p := ⟨_, rfl⟩
  rw [← ha]
  replace hcount : a.cd.num_downloaded = a.cd.pieces.numOnBits := ha ▸ hcount
  replace hbytes : bytesOfPieces (sizeOf i) a.cd.pieces =
    bytesOfPieces (sizeOf i) cd.pieces + (if a.ok = true then p.len else 0) := ha ▸ hbytes
  replace hall : a.complete = true → bytesOfPieces (sizeOf i) a.cd.pieces = sizeOf i := ha ▸ hall
  have hk : ∀ j, Kin (d.cman.cell j) ((d.keepArrival i a).cman.cell j) := by
    intro j
    unfold Downloader.keepArrival
    cases a.copied with
    | none => exact .refl _
    | some c => exact kin_copyInto i c.1 c.2 d.cman j
  have hnow : (d.keepArrival i a).current_chunks i = some a.cd := Function.update_self _ _ _
  have howned : (d.cman.cell i).owned = false := (h i).apart hsome
  have hentry : Entry (sizeOf i) ((d.keepArrival i a).cman.cell i) (some a.cd) := by
    refine ⟨(hk i).size.trans (h i).sized, fun _ => (hk i).data ((h i).data (.inr hsome)),
      fun _ => (hk i).owned.trans howned, fun _ => (hk i).wanted ((h i).wanted hsome), ?_⟩
    intro cd' hcd'
    obtain rfl := Option.some.inj hcd'
    exact hcount
  obtain ⟨hentries, hcredit⟩ := h.at (d.keepArrival i a) i (fun j _ => hk j)
    (fun j hj => Function.update_of_ne hj _ _) (by rw [hnow]; exact hentry)
  rw [hnow, hcd, worth_some howned, worth_some ((hk i).owned.trans howned), hbytes] at hcredit
  exact ⟨hentries, by omega, hall⟩

/-- A record that is accepted gives a download whose counter is right.
Source: `ChunkDownload::load`. Kind: L -/
theorem num_downloaded_load {size : ℕ} (old mem : Mem) (hdr : ChunkDownloadHeader)
    (file : List UInt8) (cd : ChunkDownload size) (hok : (cd.load old mem hdr file).ok = true) :
    (cd.load old mem hdr file).cd.num_downloaded =
      (cd.load old mem hdr file).cd.pieces.numOnBits := by
  unfold ChunkDownload.load at hok ⊢
  dsimp only at hok ⊢
  split_ifs at hok ⊢ <;> rfl

/-! ### A chunk loses what does not count -/

namespace Downloader

variable {L : Layout} {d d' : Downloader L}

/-- Chunk by chunk, nothing changes, or a chunk that is worth nothing stays so.
Source: `torrent/downloader.cpp`, `torrent/chunkmanager.cpp`. Kind: L -/
theorem Entries.change (h : Entries d) (hall : ∀ i,
    (Kin (d.cman.cell i) (d'.cman.cell i) ∧ d'.current_chunks i = d.current_chunks i) ∨
      (Entry (sizeOf i) (d'.cman.cell i) (d'.current_chunks i) ∧
        worth (sizeOf i) (d'.cman.cell i) (d'.current_chunks i) =
          worth (sizeOf i) (d.cman.cell i) (d.current_chunks i))) :
    Entries d' ∧ d'.credit = d.credit := by
  constructor
  · intro i
    obtain ⟨hk, hcur⟩ | ⟨hi, -⟩ := hall i
    · rw [hcur]
      exact (h i).kin hk
    · exact hi
  · apply credit_congr
    intro i
    obtain ⟨hk, hcur⟩ | ⟨-, hworth⟩ := hall i
    · rw [hcur, worth_kin hk]
    · exact hworth

/-- A chunk that is not owned and has no download. Source: `torrent/downloader.cpp`,
`torrent/chunkmanager.cpp`. Kind: L -/
theorem worth_nothing {size : ℕ} {c : Cell} (h : c.owned = false) :
    worth size c (none : Option (ChunkDownload size)) = 0 := by
  unfold worth
  rw [h, if_neg Bool.false_ne_true]
  rfl

/-- Deselecting file `k` takes out chunks that are worth something. Kind: D -/
def Loses (d : Downloader L) (k : ℕ) : Prop :=
  ∃ i : Fin L.numChunks, L.first k ≤ i.val ∧ i.val ≤ L.last k ∧ ¬ keepsBorder d.cman k i ∧
    worth (sizeOf i) (d.cman.cell i) (d.current_chunks i) ≠ 0

/-- A download is gone after `onExcluded`, or as it was. Source: `Downloader::onExcluded`.
Kind: L -/
theorem current_chunks_onExcluded (env : Env) (first last : ℕ) (d : Downloader L)
    (j : Fin L.numChunks) :
    (d.onExcluded env first last).current_chunks j = none ∨
      (d.onExcluded env first last).current_chunks j = d.current_chunks j := by
  refine forRange_inv (P := fun t : Downloader L =>
    t.current_chunks j = none ∨ t.current_chunks j = d.current_chunks j)
    (fun i _ _ t ht => ?_) (.inr rfl)
  unfold Downloader.excludeDownload
  split_ifs with hi
  · exact ht
  · by_cases hj : j = ⟨i, hi⟩
    · left
      rw [hj]
      exact (congrFun (current_chunks_erase _ t) _).trans (Function.update_self _ _ _)
    · have heq : (t.erase ⟨i, hi⟩).current_chunks j = t.current_chunks j :=
        (congrFun (current_chunks_erase _ t) _).trans (Function.update_of_ne hj _ _)
      exact heq ▸ ht
  · exact ht

/-- A file is deselected whose bytes do not count, and is not crowded.
Source: `torrent/downloader.cpp`, `torrent/chunkmanager.cpp`. Kind: L -/
theorem Entries.deselect {t : ChunkManager L} (h : Entries d) (env : Env) {k : ℕ}
    (hk : k < L.files.length) (hcell : ∀ i, t.cell i = d.cman.cell i)
    (hborders : SameBorders d.cman t k)
    (hok : ¬ Loses d k) (hc : ¬ Layout.crowded L k)
    (hman : ∀ i, d'.cman.cell i = (t.deselectFile env k).cell i)
    (hcur : d'.current_chunks = d.current_chunks) :
    Entries (d'.onExcluded env (t.firstExcluded k) (t.lastExcluded k)) ∧
      (d'.onExcluded env (t.firstExcluded k) (t.lastExcluded k)).credit = d.credit := by
  have hle := L.first_le_last hk
  obtain ⟨pf, pl, hpf, hpl, hdes⟩ := t.cell_deselectFile k env hle hc
  have hkeeps : ∀ i, keepsBorder t k i ↔ keepsBorder d.cman k i := by
    intro i
    unfold keepsBorder
    rw [hborders.keepsFirst, hborders.keepsLast]
  apply h.change
  intro i
  have hobs := obs_onExcluded env (t.firstExcluded k) (t.lastExcluded k) d' i
  rw [hman i, hcur] at hobs
  have hci := hdes i
  rw [hcell i] at hci
  obtain ⟨c, hc0⟩ : ∃ c, c = if Layout.resets L k i then (d.cman.cell i).reset
    else d.cman.cell i := ⟨_, rfl⟩
  simp only [← hc0] at hci
  by_cases hin : t.firstExcluded k ≤ i.val ∧ i.val ≤ t.lastExcluded k
  · -- the chunk is excluded, and its download, if any, ends
    right
    obtain ⟨hrange, hnk⟩ := (excluded_iff t hle i).mp hin
    rw [if_neg fun h' => hnk (Or.inl h'), if_neg fun h' => hnk (Or.inr h'), if_pos hrange] at hci
    rw [if_pos hin, hci] at hobs
    have hsize : c.chunk.size = sizeOf i := by
      rw [hc0]
      split_ifs
      · exact (h i).sized
      · exact (h i).sized
    have hdrop : (dropDownload (c.exclude, (d.current_chunks i).isSome)).1.owned = false ∧
        (dropDownload (c.exclude, (d.current_chunks i).isSome)).1.chunk.size = sizeOf i ∧
        (dropDownload (c.exclude, (d.current_chunks i).isSome)).2 = false := by
      unfold dropDownload
      cases (d.current_chunks i).isSome with
      | false =>
        rw [if_pos (.inl rfl)]
        exact ⟨rfl, hsize, rfl⟩
      | true =>
        rw [if_neg (by simp [Cell.exclude])]
        exact ⟨rfl, hsize, rfl⟩
    rw [← hobs] at hdrop
    obtain ⟨howned, hsized, hgone⟩ := hdrop
    have hnone := Option.isSome_eq_false_iff.mp hgone
    rw [Option.isNone_iff_eq_none] at hnone
    rw [hnone]
    refine ⟨Entry.alone hsized fun ho => absurd (ho.symm.trans howned) (by decide), ?_⟩
    rw [worth_nothing howned]
    by_contra hne
    exact hok ⟨i, hrange.1, hrange.2, fun h' => hnk ((hkeeps i).mpr h'), fun h0 => hne h0.symm⟩
  · left
    rw [if_neg hin] at hobs
    obtain ⟨h1, h2⟩ := Prod.mk.inj hobs
    constructor
    · rw [h1, hci]
      by_cases hb : keepsBorder t k i
      · rw [if_neg (not_resets_of_keepsBorder t hk hb)] at hc0
        by_cases hf : i.val = L.first k ∧ t.keepsFirst k = true
        · rw [if_pos hf, hc0]
          exact kin_prioritise hpf.ne_excluded _
        · rw [if_neg hf, if_pos (hb.resolve_left hf), hc0]
          exact kin_prioritise hpl.ne_excluded _
      · have hout : ¬ (L.first k ≤ i.val ∧ i.val ≤ L.last k) :=
          fun h' => hin ((excluded_iff t hle i).mpr ⟨h', hb⟩)
        have hr : ¬ Layout.resets L k i := fun h' => hout (resets_in_range hle h')
        rw [if_neg fun h' => hb (Or.inl h'), if_neg fun h' => hb (Or.inr h'), if_neg hout, hc0,
          if_neg hr]
        exact .refl _
    · rcases current_chunks_onExcluded env (t.firstExcluded k) (t.lastExcluded k) d' i with h' | h'
      · rw [h'] at h2 ⊢
        exact (Option.not_isSome_iff_eq_none.mp (by simp [← h2])).symm
      · rw [h', hcur]

/-- A file is selected. Source: `ChunkSelector::select`. Kind: L -/
theorem Entries.select {t : ChunkManager L} (h : Entries d) (env : Env) {k : ℕ}
    (hcell : ∀ i, t.cell i = d.cman.cell i)
    (hman : ∀ i, d'.cman.cell i = (t.selectFile env k).cell i)
    (hcur : d'.current_chunks = d.current_chunks) :
    Entries (d'.onIncluded (L.first k) (L.last k)) ∧
      (d'.onIncluded (L.first k) (L.last k)).credit = d.credit := by
  refine h.kin (fun i => ?_) hcur
  show Kin (d.cman.cell i) (d'.cman.cell i)
  have hinclude : Kin (d.cman.cell i) (if between (L.first k) (L.last k) i then
      (d.cman.cell i).includeBack else d.cman.cell i) := by
    split_ifs
    · exact kin_includeBack _
    · exact .refl _
  rw [hman i, cell_selectFile, hcell i]
  dsimp only
  by_cases hp : Layout.previews L k i
  · rw [if_pos hp]
    exact hinclude.trans (kin_prioritise (by decide) _)
  · rw [if_neg hp]
    exact hinclude

/-- **The user's choice**: the account stays, unless chunks that are worth something are taken out.
Source: `TorrentFile::setDoNotDownload`. Kind: L -/
theorem Entries.setDoNotDownload (h : Entries d) (env : Env) (k : Fin L.files.length) (dnd : Bool)
    (hok : TakesOut d k dnd → ¬ Loses d k) :
    Entries (d.call env (ChunkManager.setDoNotDownload env k dnd)) ∧
      (d.call env (ChunkManager.setDoNotDownload env k dnd)).credit = d.credit := by
  obtain ⟨t, hcell, hborders, hcase⟩ := call_setDoNotDownload d env k dnd
  rcases hcase with ⟨-, heq⟩ | ⟨hout, heq⟩ | ⟨-, heq⟩
  · rw [heq]
    refine h.kin (fun j => ?_) rfl
    rw [← hcell j]
    exact .refl _
  · rw [heq]
    exact h.deselect env k.2 hcell hborders (hok hout) hout.2.2.2 (fun _ => rfl) rfl
  · rw [heq]
    exact h.select env hcell (fun _ => rfl) rfl

end Downloader

/-! ### The bytes of the torrent -/

namespace Downloader

variable {L : Layout} {d : Downloader L}

/-- The source's size of a chunk is its number of bytes. Source: `torrent/downloader.cpp`,
`torrent/chunkmanager.cpp`. Kind: L -/
theorem sizeOf_eq (hp : L.piece_length < 2 ^ 32) (i : Fin L.numChunks) :
    sizeOf i = L.bytesOf i := by
  have hle : L.bytesOf i ≤ L.piece_length := by
    unfold Layout.bytesOf Layout.chunkEnd Layout.chunkStart
    rw [Nat.succ_mul]
    omega
  rw [sizeOf, Layout.chunkSize_eq i.2, u32_of_lt (by omega)]

/-- The account never exceeds the torrent. Source: `torrent/downloader.cpp`,
`torrent/chunkmanager.cpp`. Kind: P -/
theorem Entries.credit_le (h : Entries d) (hp : L.piece_length < 2 ^ 32) :
    d.credit ≤ L.file_length := by
  have hsum : d.credit ≤ ∑ i : Fin L.numChunks, L.bytesOf i := by
    apply Finset.sum_le_sum
    intro i _
    rw [← sizeOf_eq hp i]
    exact (h i).worth_le
  rw [Fin.sum_univ_eq_sum_range, Layout.sum_bytesOf le_rfl] at hsum
  exact hsum.trans (min_le_right _ _)

/-- The credit fits in 64 bits. Source: `torrent/downloader.cpp`, `torrent/chunkmanager.cpp`.
Kind: L -/
theorem Entries.credit_lt (h : Entries d) (hp : L.piece_length < 2 ^ 32) : d.credit < 2 ^ 64 :=
  lt_of_le_of_lt (h.credit_le hp) L.length_lt

/-- The chunks of a set and the others are the torrent. Source: `torrent/downloader.cpp`,
`torrent/chunkmanager.cpp`. Kind: L -/
theorem total_split (b : BitSet L.numChunks) :
    L.total (fun i => b.get i = true) + L.total (fun i => b.get i = false) = L.file_length := by
  have hevery : ∀ i : Fin L.numChunks, b.get i = true ∨ b.get i = false := fun i => by
    cases b.get i <;> simp
  rw [Layout.total_or fun i ho hn => by rw [ho] at hn; cases hn]
  unfold Layout.total
  rw [Finset.filter_true_of_mem fun i _ => hevery i, Fin.sum_univ_eq_sum_range,
    Layout.sum_bytesOf le_rfl]
  apply min_eq_right
  obtain h0 | h0 := Nat.eq_zero_or_pos L.numChunks
  · have hdiv := L.hashes
    rw [show L.hash_pieces.length = 0 from h0] at hdiv
    have hpos := L.piece_pos
    have hlt := (Nat.div_eq_zero_iff_lt hpos).mp hdiv.symm
    omega
  · have hle := Layout.length_le_of_last (show L.numChunks - 1 + 1 = L.numChunks by omega)
    rwa [Nat.sub_add_cancel h0] at hle

/-- **The account, read as the source computes it**: the torrent without the chunks that are not
owned, and the pieces of the downloads. Source: `torrent/downloader.cpp`,
`torrent/chunkmanager.cpp`. Kind: P -/
theorem Entries.credit_eq (h : Entries d) (hp : L.piece_length < 2 ^ 32) :
    d.cman.bytesLeft ≤ L.file_length ∧
      d.credit = L.file_length - d.cman.bytesLeft +
        ∑ i, partialBytes (sizeOf i) (d.current_chunks i) := by
  have hsized : d.cman.Sized := fun i => (h i).sized
  have hlast : L.bytesOf (L.numChunks - 1) < 2 ^ 32 := by
    unfold Layout.bytesOf Layout.chunkEnd Layout.chunkStart
    rw [Nat.succ_mul]
    omega
  have hleft := bytesLeft_eq hsized hlast
  have howned : ∑ i : Fin L.numChunks, (if d.cman.bitset.get i = true then sizeOf i else 0) =
      L.total fun i => d.cman.bitset.get i = true := by
    unfold Layout.total
    rw [Finset.sum_filter]
    apply Finset.sum_congr rfl
    intro i _
    rw [sizeOf_eq hp i]
  have hall := total_split d.cman.bitset
  have hcredit : d.credit =
      ∑ i : Fin L.numChunks, (if d.cman.bitset.get i = true then sizeOf i else 0) +
      ∑ i, partialBytes (sizeOf i) (d.current_chunks i) := Finset.sum_add_distrib
  rw [hcredit, howned, hleft]
  omega

/-- What the counter is set to, when no download has a piece. Source: `torrent/downloader.cpp`,
`torrent/chunkmanager.cpp`. Kind: L -/
theorem Entries.recalculated (h : Entries d) (hp : L.piece_length < 2 ^ 32)
    (hnone : ∀ i, partialBytes (sizeOf i) (d.current_chunks i) = 0) :
    sub64 L.file_length d.cman.bytesLeft = d.credit := by
  obtain ⟨hle, hcredit⟩ := h.credit_eq hp
  rw [hcredit, Finset.sum_eq_zero fun i _ => hnone i, Nat.add_zero, sub64_of_le hle L.length_lt]

end Downloader

/-! ### A torrent stops, and data is checked -/

namespace Downloader

variable {L : Layout} {d : Downloader L}

/-- Saving the downloads keeps the cells and the downloads. Source: `Downloader::saveDownloads`.
Kind: L -/
theorem kin_saveDownloads (d : Downloader L) :
    (∀ j, Kin (d.cman.cell j) (d.saveDownloads.2.cman.cell j)) ∧
      d.saveDownloads.2.current_chunks = d.current_chunks := by
  unfold Downloader.saveDownloads
  refine List.foldlRecOn (motive := fun x : List UInt8 × Downloader L =>
    (∀ j, Kin (d.cman.cell j) (x.2.cman.cell j)) ∧ x.2.current_chunks = d.current_chunks) _ _
    ⟨fun _ => .refl _, rfl⟩ fun x hx i _ => ?_
  unfold saveDownload
  split
  · exact hx
  · refine ⟨fun j => (hx.1 j).trans ?_, hx.2⟩
    show Kin _ ((x.2.cman.modifyChunk i _).cell j)
    rw [cell_modifyChunk]
    split_ifs with hj
    · obtain rfl := Fin.ext hj
      unfold ChunkDownload.save
      dsimp only
      split_ifs
      · exact ⟨rfl, rfl, id, fun _ => by simp⟩
      · exact .refl _
    · exact .refl _

/-- Saving an idle download keeps the downloads. Source: `Downloader::pieceRecieved`,
`normalUpdate`. Kind: L -/
theorem current_chunks_saveIdle (os : Os) (i : Fin L.numChunks) (d : Downloader L) :
    (d.saveIdle os i).current_chunks = d.current_chunks := by
  unfold Downloader.saveIdle
  split_ifs <;> rfl

/-- One round of `clearDownloads`. Source: `Downloader::clearDownloads`. Kind: L -/
theorem current_chunks_clearDownload (env : Env) (i : ℕ) (d : Downloader L) (j : Fin L.numChunks) :
    (d.clearDownload env i).current_chunks j =
      if j.val = i then none else d.current_chunks j := by
  unfold Downloader.clearDownload
  by_cases hi : i < L.numChunks
  swap
  · rw [dif_neg hi, if_neg (by have := j.2; omega)]
  rw [dif_pos hi]
  by_cases hnone : (d.current_chunks ⟨i, hi⟩).isNone = true
  · rw [if_pos hnone]
    split_ifs with hj
    · obtain rfl : j = ⟨i, hi⟩ := Fin.ext hj
      exact Option.isNone_iff_eq_none.mp hnone
    · rfl
  · rw [if_neg hnone, current_chunks_erase]
    split_ifs with hj
    · obtain rfl : j = ⟨i, hi⟩ := Fin.ext hj
      exact Function.update_self _ _ _
    · rw [Function.update_of_ne fun hji => hj (congrArg Fin.val hji)]
      exact congrFun (current_chunks_saveIdle _ _ d) j

/-- A download is cleared: what it had no longer counts. Source: `Downloader::clearDownloads`.
Kind: L -/
theorem Entries.clearDownload (h : Entries d) (env : Env) (i : ℕ) :
    Entries (d.clearDownload env i) ∧
      ∀ j, ((d.clearDownload env i).cman.cell j).owned = (d.cman.cell j).owned := by
  unfold Downloader.clearDownload
  by_cases hi : i < L.numChunks
  swap
  · rw [dif_neg hi]
    exact ⟨h, fun _ => rfl⟩
  rw [dif_pos hi]
  obtain ⟨i, rfl⟩ : ∃ i' : Fin L.numChunks, i'.val = i := ⟨⟨i, hi⟩, rfl⟩
  rw [Fin.eta]
  by_cases hnone : (d.current_chunks i).isNone = true
  · rw [if_pos hnone]
    exact ⟨h, fun _ => rfl⟩
  rw [if_neg hnone]
  have hsome : (d.current_chunks i).isSome = true := by
    rwa [Bool.not_eq_true, Option.isNone_eq_false_iff] at hnone
  obtain ⟨t, ht⟩ : ∃ t, t = d.saveIdle (env.chunk i) i := ⟨_, rfl⟩
  have hcur : t.current_chunks = d.current_chunks := ht ▸ current_chunks_saveIdle _ _ d
  have hentries : Entries t := ht ▸ (h.saveIdle hsome (env.chunk i)).1
  have howned : ∀ j, (t.cman.cell j).owned = (d.cman.cell j).owned := by
    intro j
    rw [ht]
    unfold Downloader.saveIdle
    split_ifs
    · show ((d.cman.saveChunk (env.chunk i) i false).1.cell j).owned = _
      rw [cell_saveChunk]
      split_ifs with hj
      · obtain rfl := Fin.ext hj
        exact (kin_save ((h j).wanted hsome) _ _ _).owned
      · rfl
    · rfl
  dsimp only
  rw [← ht]
  obtain ⟨u, hu⟩ : ∃ u : Downloader L, u = { t with
    cman := t.cman.modifyChunk i fun c => { c with status := .notDownloaded } } := ⟨_, rfl⟩
  have hcell : ∀ j, u.cman.cell j = if j.val = i.val then
      { t.cman.cell j with chunk := { (t.cman.cell j).chunk with status := .notDownloaded } }
      else t.cman.cell j := by
    intro j
    rw [hu]
    exact cell_modifyChunk t.cman j i _
  have hmodified : ∀ j, (u.cman.cell j).owned = (t.cman.cell j).owned := by
    intro j
    rw [hcell j]
    split_ifs <;> rfl
  have happart : u.cman.bitset.get i = false := by
    rw [← cell_owned, hmodified i]
    exact (hentries i).apart (by rw [hcur]; exact hsome)
  rw [← hu]
  constructor
  · have hother : ∀ j, j ≠ i → u.cman.cell j = t.cman.cell j := by
      intro j hj
      rw [hcell j, if_neg fun hji => hj (Fin.ext hji)]
    refine (hentries.erase hother (by rw [hu]) ?_ fun ho => ?_).1
    · rw [← cell_chunk, hcell i, if_pos rfl]
      exact (hentries i).sized
    · exact absurd (ho.symm.trans happart) (by decide)
  · intro j
    rw [(kin_erase i u j).owned, hmodified, howned]

/-- **A torrent stops**: no download is left, and what is owned stays.
Source: `TorrentControl::stop`. Kind: L -/
theorem Entries.stop (h : Entries d) (env : Env) (saves : Bool) :
    Entries (d.stop env saves) ∧ ∀ j, (d.stop env saves).current_chunks j = none ∧
      ((d.stop env saves).cman.cell j).owned = (d.cman.cell j).owned := by
  obtain ⟨t, ht⟩ : ∃ t, t = if saves = true then d.saveDownloads.2 else d := ⟨_, rfl⟩
  have hkin : (∀ j, Kin (d.cman.cell j) (t.cman.cell j)) ∧
      t.current_chunks = d.current_chunks := by
    rw [ht]
    split_ifs
    · exact kin_saveDownloads d
    · exact ⟨fun _ => .refl _, rfl⟩
  have hsaved := (h.kin hkin.1 hkin.2).1
  obtain ⟨hcleared, howned⟩ : Entries (t.clearDownloads env) ∧
      ∀ j, ((t.clearDownloads env).cman.cell j).owned = (t.cman.cell j).owned :=
    forRange_inv (P := fun u : Downloader L =>
      Entries u ∧ ∀ j, (u.cman.cell j).owned = (t.cman.cell j).owned)
      (fun i _ _ u hu => by
        obtain ⟨h1, h2⟩ := hu.1.clearDownload env i
        exact ⟨h1, fun j => (h2 j).trans (hu.2 j)⟩) ⟨hsaved, fun _ => rfl⟩
  have hnone : ∀ j, (t.clearDownloads env).current_chunks j = none := by
    intro j
    refine forRange_reach (P := fun u : Downloader L => u.current_chunks j = none)
      (fun u => ?_) (fun i u hj => ?_) (Nat.zero_le _) j.2 t
    · rw [current_chunks_clearDownload, if_pos rfl]
    · rw [current_chunks_clearDownload]
      split_ifs
      · rfl
      · exact hj
  have hman : (d.stop env saves).cman = (t.clearDownloads env).cman.stop env := by
    rw [ht]
    rfl
  have hcur : (d.stop env saves).current_chunks = (t.clearDownloads env).current_chunks := by
    rw [ht]
    rfl
  have hunload : ∀ j, Kin ((t.clearDownloads env).cman.cell j)
      ((d.stop env saves).cman.cell j) := by
    intro j
    rw [hman, cell_stop]
    split_ifs
    · exact ⟨rfl, rfl, id, fun _ => by simp [Cell.unload]⟩
    · exact .refl _
  refine ⟨(hcleared.kin hunload hcur).1, fun j => ⟨?_, ?_⟩⟩
  · rw [hcur]
    exact hnone j
  · exact ((hunload j).owned.trans (howned j)).trans (hkin.1 j).owned

/-- The downloads of the chunks found in order end. Source: `Downloader::dataChecked`. Kind: L -/
theorem dataChecked_spec (ok_chunks : BitSet L.numChunks) (d : Downloader L) :
    (∀ j, Kin (d.cman.cell j) ((d.dataChecked ok_chunks).cman.cell j)) ∧
      ∀ j : Fin L.numChunks, (d.dataChecked ok_chunks).current_chunks j =
        if ok_chunks.get j = true then none else d.current_chunks j := by
  obtain ⟨f, hf⟩ : ∃ f : ℕ → Downloader L → Downloader L, f = fun i d =>
    if h : i < L.numChunks then if ok_chunks.get i then d.erase ⟨i, h⟩ else d else d := ⟨_, rfl⟩
  have hround : ∀ (i : ℕ) (t : Downloader L), (∀ j, Kin (t.cman.cell j) ((f i t).cman.cell j)) ∧
      ∀ j : Fin L.numChunks, (f i t).current_chunks j =
        if j.val = i ∧ ok_chunks.get i = true then none else t.current_chunks j := by
    intro i t
    rw [hf]
    dsimp only
    by_cases hi : i < L.numChunks
    swap
    · rw [dif_neg hi]
      exact ⟨fun _ => .refl _, fun j => (if_neg (by have := j.2; omega)).symm⟩
    rw [dif_pos hi]
    by_cases hok : ok_chunks.get i = true
    · rw [if_pos hok]
      refine ⟨kin_erase _ t, fun j => ?_⟩
      rw [current_chunks_erase]
      split_ifs with hj
      · obtain ⟨rfl, -⟩ := hj
        exact Function.update_self _ _ _
      · exact Function.update_of_ne (fun hji => hj ⟨congrArg Fin.val hji, hok⟩) _ _
    · rw [if_neg hok]
      exact ⟨fun _ => .refl _, fun j => (if_neg fun hj => hok hj.2).symm⟩
  have hd : d.dataChecked ok_chunks = { forRange 0 L.numChunks f d with
      selector := ChunkSelector.dataChecked ok_chunks (forRange 0 L.numChunks f d).selector } := by
    rw [hf]
    rfl
  rw [hd]
  constructor
  · exact fun j => forRange_inv (P := fun t : Downloader L => Kin (d.cman.cell j) (t.cman.cell j))
      (fun i _ _ t ht => ht.trans ((hround i t).1 j)) (.refl _)
  · intro j
    show (forRange 0 L.numChunks f d).current_chunks j = _
    by_cases hok : ok_chunks.get j = true
    · rw [if_pos hok]
      refine forRange_reach (P := fun t : Downloader L => t.current_chunks j = none)
        (fun t => ?_) (fun i t ht => ?_) (Nat.zero_le _) j.2 d
      · rw [(hround j t).2 j, if_pos ⟨rfl, hok⟩]
      · rw [(hround i t).2 j]
        split_ifs
        · rfl
        · exact ht
    · rw [if_neg hok]
      refine forRange_inv (P := fun t : Downloader L => t.current_chunks j = d.current_chunks j)
        (fun i _ _ t ht => ?_) rfl
      rw [(hround i t).2 j, if_neg]
      · exact ht
      · rintro ⟨rfl, hoki⟩
        exact hok hoki

/-- **Data has been checked**: what is owned is what was found. Source: `Downloader::dataChecked`.
Kind: L -/
theorem Entries.dataChecked (h : Entries d) (env : Env) (ok_chunks : BitSet L.numChunks) :
    Entries { d.dataChecked ok_chunks with
      cman := (d.dataChecked ok_chunks).cman.dataChecked env ok_chunks } := by
  obtain ⟨hkin, hcur⟩ := dataChecked_spec ok_chunks d
  intro j
  obtain ⟨c, hc⟩ : ∃ c, c = (d.dataChecked ok_chunks).cman.cell j := ⟨_, rfl⟩
  have hk : Kin (d.cman.cell j) c := hc ▸ hkin j
  show Entry (sizeOf j) (((d.dataChecked ok_chunks).cman.dataChecked env ok_chunks).cell j)
    ((d.dataChecked ok_chunks).current_chunks j)
  rw [cell_dataChecked, hcur j, ← hc]
  have hj := (h j).kin hk
  have hsize : (c.check (ok_chunks.get j)).chunk.size = sizeOf j := by
    rw [← hj.sized]
    unfold Cell.check
    split_ifs <;> rfl
  cases hok : ok_chunks.get j with
  | true =>
    rw [if_pos rfl]
    rw [hok] at hsize
    refine Entry.alone hsize fun ho => ?_
    by_cases hown : c.owned = false
    · unfold Cell.check
      rw [if_pos ⟨rfl, hown⟩]
      simp
    · have hsame : c.check true = c := by
        unfold Cell.check
        rw [if_neg fun hh => hown hh.2, if_neg fun hh => Bool.false_ne_true hh.1.symm]
      rw [hsame]
      exact hj.data (.inl (by simpa using hown))
  | false =>
    rw [if_neg Bool.false_ne_true]
    rw [hok] at hsize
    cases hown : c.owned with
    | false =>
      have hsame : c.check false = c := by
        unfold Cell.check
        rw [if_neg fun hh => Bool.false_ne_true hh.1, if_neg fun hh =>
          Bool.false_ne_true (hown.symm.trans hh.2)]
      rw [hsame]
      exact hj
    | true =>
      -- an owned chunk has no download
      have hnone : d.current_chunks j = none := by
        by_contra hne
        have hsome := hj.apart (Option.isSome_iff_ne_none.mpr hne)
        rw [hown] at hsome
        cases hsome
      rw [hnone]
      refine Entry.alone hsize fun ho => ?_
      have hlost : (c.check false).owned = false := by
        unfold Cell.check
        rw [if_neg fun hh => Bool.false_ne_true hh.1, if_pos ⟨rfl, hown⟩]
        split_ifs <;> rfl
      rw [hlost] at ho
      cases ho

end Downloader

/-! ### A torrent that starts -/

section held

variable {L : Layout}

/-- What is owned has its data, and the sizes are right. Kind: D -/
def Held (t : ChunkManager L) : Prop :=
  ∀ i, (t.cell i).chunk.size = sizeOf i ∧
    ((t.cell i).owned = true → (t.cell i).chunk.status ≠ .notDownloaded)

/-- Chunk by chunk, nothing changes, or a chunk of the same size is held.
Source: `torrent/downloader.cpp`, `torrent/chunkmanager.cpp`. Kind: L -/
theorem Held.change {t u : ChunkManager L} (h : Held t) (hu : ∀ i, Kin (t.cell i) (u.cell i) ∨
    ((u.cell i).chunk.size = (t.cell i).chunk.size ∧
      ((u.cell i).owned = true → (u.cell i).chunk.status ≠ .notDownloaded))) : Held u := by
  intro i
  obtain ⟨hsize, hdata⟩ := h i
  obtain hk | ⟨hs, hd⟩ := hu i
  · exact ⟨hk.size.trans hsize, fun ho => hk.data (hdata (hk.owned ▸ ho))⟩
  · exact ⟨hs.trans hsize, hd⟩

/-- What a manager holds is closed under its changes of cells. Source: `torrent/downloader.cpp`,
`torrent/chunkmanager.cpp`. Kind: L -/
theorem closed_held : Closed (Held (L := L)) where
  resetChunk t os i h := by
    refine h.change fun j => ?_
    rw [cell_resetChunk]
    split_ifs
    · exact .inr ⟨rfl, fun ho => absurd ho Bool.false_ne_true⟩
    · exact .inl (.refl _)
  prioritise t a b p h := by
    intro j
    rw [cell_prioritise]
    split_ifs
    · exact h j
    · exact h j
  includeRange t a b h := by
    refine h.change fun j => ?_
    rw [cell_includeRange]
    split_ifs
    · exact .inl (kin_includeBack _)
    · exact .inl (.refl _)
  excludeRange t a b h := by
    refine h.change fun j => ?_
    rw [cell_excludeRange]
    split_ifs
    · exact .inr ⟨rfl, fun ho => absurd ho Bool.false_ne_true⟩
    · exact .inl (.refl _)
  alertCache t env k h := fun j => by
    rw [cell_alertCache]
    exact h j
  savePriorityInfo t h := fun j => by
    rw [cell_savePriorityInfo]
    exact h j
  emit _ _ h := h
  choose _ _ h := h

/-- An index entry that is read. Source: `ChunkManager::loadIndexFile`. Kind: L -/
theorem held_loadHeader {t : ChunkManager L} (h : Held t) (index : ℕ) :
    Held (t.loadHeader index) := by
  refine h.change fun j => ?_
  rw [cell_loadHeader]
  split_ifs
  · exact .inr ⟨rfl, fun _ => by simp⟩
  · exact .inl (.refl _)

/-- Whatever is selected and saved, a torrent holds what it loads.
Source: `ChunkManager::loadIndexFile`. Kind: L -/
theorem held_loadIndexFile (env₀ env : Env) (files : ℕ → FileSelection) (saved : Saved) :
    Held ((construct L env₀ files saved).loadIndexFile env) := by
  have hbase : Held (base L files saved) := fun i => ⟨rfl, fun ho => by simp [base] at ho⟩
  have hnew := closed_held.construct env₀ files saved hbase
  have hload : Held ({ construct L env₀ files saved with during_load := true }.loadPriorityInfo
      env) :=
    closed_held.loadPriorityInfo (s := { construct L env₀ files saved with during_load := true })
      hnew env
  unfold loadIndexFile
  dsimp only
  split_ifs
  · exact List.foldlRecOn (motive := Held) _ _ hload fun t ht index _ => held_loadHeader ht index
  · exact hload

end held

end KTorrent.Transfer
