import KTorrent.Transfer.Outstanding
import KTorrent.Transfer.Pieces

/-!
# The progress of a download

A download keeps its progress three times: `num_downloaded`, the bits of `pieces`, and the queue of
the pieces that are missing, which is rotated whenever requests are sent.

* `Logged L` — the peers and downloads, with the ranges of bytes stored for each download.
* `Counts` — the counter is the number of bits that are on, and the queue has the pieces whose bit is
  off, once each; `Stored` — all bytes of a piece are there.
* `Turned`, `Rearranged` — what all events but the arrival of a piece leave of a download: the same
  pieces, and the queue in another order.
* `progress_run` — in a run whose pieces are pieces of their chunk, the counts are right in every
  state, and `piece` reports the chunk complete exactly when all its pieces are stored.
* `complete_without` — a piece that was never asked for, beyond the end of its chunk, completes it.

Source: `torrent/chunkdownload.cpp`, `torrent/downloader.cpp`
-/

namespace KTorrent.Transfer.Requests

open KTorrent.Lib KTorrent.Util KTorrent.Storage

/-! ### What is kept -/

section kept

variable {size : ℕ}

/-- **The counter and the queue follow the bits.** Kind: D -/
structure Counts (c : Active size) : Prop where
  counter : c.cd.num_downloaded = c.cd.pieces.numOnBits
  once : c.piece_queue.Nodup
  queue : ∀ k, k ∈ c.piece_queue ↔ k < numPieces size ∧ c.cd.pieces.get k = false

/-- All bytes of piece `k` are in one of the ranges `(offset, length)`. Kind: D -/
def Stored (size : ℕ) (ranges : List (ℕ × ℕ)) (k : ℕ) : Prop :=
  ∀ b, k * MAX_PIECE_LEN ≤ b → b < k * MAX_PIECE_LEN + pieceLen size k →
    ∃ r ∈ ranges, r.1 ≤ b ∧ b < r.1 + r.2

/-- The range of piece `k`. Kind: D -/
def rangeOf (size k : ℕ) : ℕ × ℕ := (k * MAX_PIECE_LEN, pieceLen size k)

/-- The ranges of the pieces of a download that is loaded. Kind: D -/
def loadedRanges (pieces : BitSet (numPieces size)) : List (ℕ × ℕ) :=
  ((List.range (numPieces size)).filter fun k => pieces.get k).map (rangeOf size)

/-- The download with the ranges stored for it: these are whole pieces, those whose bit is on, and a
piece is missing. Kind: D -/
structure Progress (c : Active size) (ranges : List (ℕ × ℕ)) : Prop where
  counts : Counts c
  whole : ∀ r ∈ ranges, ∃ k < numPieces size, r = rangeOf size k
  held : ∀ k < numPieces size, c.cd.pieces.get k = true ↔ rangeOf size k ∈ ranges
  unfinished : ∃ k < numPieces size, c.cd.pieces.get k = false

end kept

namespace Swarm

variable {L : Layout}

/-- The call of `ChunkDownload::piece` that a message leads to: for which download, and the memory
from the chunk's data pointer on. Source: `PeerDownloader::piece`, `Downloader::pieceRecieved`.
Kind: D -/
def call (os : Os) (cman : ChunkManager L) (p : Piece) (s : Swarm L) :
    Option (Fin L.numChunks × Option Mem) :=
  if (s.peers p.peer).isNone then none
  else if cman.completed then none
  else if h : p.index < L.numChunks then
    let i : Fin L.numChunks := ⟨p.index, h⟩
    if (s.downloads i).isNone then none
    else
      let cman := if (cman.chunks i).status = .onDisk then (cman.prepareChunk os i true).1 else cman
      some (i, memory L.torrent cman.cache (cman.chunks i))
  else none

end Swarm

/-- The peers and downloads, with the ranges of bytes that were stored for each download since it
began. Kind: D -/
structure Logged (L : Layout) where
  swarm : Swarm L := {}
  log : Fin L.numChunks → List (ℕ × ℕ) := fun _ => []

namespace Logged

variable {L : Layout}

/-- The log after the message `PIECE`: the range that `memcpy` writes is added. Kind: D -/
def noted (os : Os) (cman : ChunkManager L) (p : Piece) (s : Logged L) :
    Fin L.numChunks → List (ℕ × ℕ) :=
  match s.swarm.call os cman p with
  | none => s.log
  | some (i, mem) =>
      match s.swarm.downloads i with
      | none => s.log
      | some c =>
          Function.update s.log i
            (s.log i ++ (c.cd.piece mem p).copied.toList.map fun r => (r.1, r.2.length))

/-- What an event does. Kind: D -/
def step (s : Logged L) (e : Swarm.Event L) : Logged L where
  swarm := s.swarm.step e
  log :=
    match e with
    | .download i =>
        if (s.swarm.downloads i).isSome then s.log else Function.update s.log i []
    | .load i pieces =>
        if (s.swarm.downloads i).isSome then s.log
        else Function.update s.log i (loadedRanges pieces)
    | .piece _ os cman p => s.noted os cman p
    | _ => s.log

/-- A piece that is copied is one of the chunk's; a download that begins has pieces to fetch.
Kind: D -/
def Fits (s : Logged L) : Swarm.Event L → Prop
  | .piece _ os cman p => ∀ i mem c, s.swarm.call os cman p = some (i, some mem) →
      s.swarm.downloads i = some c → c.cd.pieces.get (p.off / MAX_PIECE_LEN) = false →
      WellFormed (sizeOf i) p
  | .download i => (s.swarm.downloads i).isNone = true → 0 < numPieces (sizeOf i)
  | .load i pieces => (s.swarm.downloads i).isNone = true →
      ∃ k < numPieces (sizeOf i), pieces.get k = false
  | _ => True

/-- **`piece` reports the chunk complete exactly when every piece is stored.** Kind: D -/
def Reports (s : Logged L) : Swarm.Event L → Prop
  | .piece _ os cman p => ∀ i mem c, s.swarm.call os cman p = some (i, mem) →
      s.swarm.downloads i = some c →
      ((c.cd.piece mem p).complete = true ↔
        ∀ k < numPieces (sizeOf i), Stored (sizeOf i) (s.noted os cman p i) k)
  | _ => True

/-- Every download has made the progress that is stored for it. Kind: D -/
def Holds (s : Logged L) : Prop :=
  ∀ i c, s.swarm.downloads i = some c → Progress c (s.log i)

end Logged

/-! ### One arrival -/

section arrival

variable {size : ℕ} {c : Active size} {ranges : List (ℕ × ℕ)}

/-- No piece is empty. Source: `ChunkDownload::updateHash`, `bytesDownloaded`. Kind: L -/
theorem pieceLen_pos (size k : ℕ) : 0 < pieceLen size k := by
  unfold pieceLen lastSize MAX_PIECE_LEN
  split_ifs <;> omega

/-- Among whole pieces, a piece that is stored is one of them. Source: `torrent/chunkdownload.cpp`,
`torrent/downloader.cpp`. Kind: L -/
theorem stored_iff (hwhole : ∀ r ∈ ranges, ∃ k < numPieces size, r = rangeOf size k) (k : ℕ) :
    Stored size ranges k ↔ rangeOf size k ∈ ranges := by
  constructor
  · intro h
    obtain ⟨r, hr, hle, hlt⟩ := h (k * MAX_PIECE_LEN) le_rfl (Nat.lt_add_of_pos_right (pieceLen_pos size k))
    obtain ⟨q, -, rfl⟩ := hwhole r hr
    have hlen := pieceLen_le size q
    unfold rangeOf at hle hlt
    have hq : q = k := by
      unfold MAX_PIECE_LEN at *
      dsimp only at hle hlt
      omega
    exact hq ▸ hr
  · intro h b h1 h2
    exact ⟨_, h, h1, h2⟩

/-- A piece's bytes are stored iff its bit is on. Source: `torrent/chunkdownload.cpp`,
`torrent/downloader.cpp`. Kind: L -/
theorem Progress.stored_iff (h : Progress c ranges) {k : ℕ} (hk : k < numPieces size) :
    Stored size ranges k ↔ c.cd.pieces.get k = true :=
  (Requests.stored_iff h.whole k).trans (h.held k hk).symm

/-- Not everything is stored before the last piece arrives. Source: `torrent/chunkdownload.cpp`,
`torrent/downloader.cpp`. Kind: L -/
theorem Progress.not_all (h : Progress c ranges) : ¬ ∀ k < numPieces size, Stored size ranges k := by
  intro hall
  obtain ⟨k, hk, hoff⟩ := h.unfinished
  rw [(h.stored_iff hk).mp (hall k hk)] at hoff
  cases hoff

/-- The counter, and what is returned, when a piece is stored. Source: `ChunkDownload::piece`.
Kind: L -/
theorem piece_counts (cd : ChunkDownload size) (mem : Mem) {p : Piece}
    (h : cd.pieces.get (p.off / MAX_PIECE_LEN) = false) :
    (cd.piece (some mem) p).ok = true ∧
      (cd.piece (some mem) p).cd.num_downloaded = cd.num_downloaded + 1 ∧
      ((cd.piece (some mem) p).complete = true ↔ numPieces size ≤ cd.num_downloaded + 1) := by
  unfold ChunkDownload.piece
  simp only [h, Bool.false_eq_true, if_false]
  split_ifs <;> simp_all [ChunkDownload.updateHash]

/-- The download a piece has been stored in. Kind: D -/
def Active.store (c : Active size) (mem : Mem) (p : Piece) : Active size :=
  { c with
    cd := (c.cd.piece (some mem) p).cd
    piece_queue := c.piece_queue.filter (· ≠ p.off / MAX_PIECE_LEN) }

/-- **A piece of the chunk that was missing**: the counts are right again, its range is one of the
chunk's pieces. Source: `torrent/chunkdownload.cpp`, `torrent/downloader.cpp`. Kind: L -/
theorem Progress.store (h : Progress c ranges) (mem : Mem) {p : Piece}
    (hoff : c.cd.pieces.get (p.off / MAX_PIECE_LEN) = false) (hp : WellFormed size p) :
    Counts (c.store mem p) ∧
      (∀ r ∈ ranges ++ [(p.off, p.data.length)], ∃ k < numPieces size, r = rangeOf size k) ∧
      ∀ k < numPieces size, (c.store mem p).cd.pieces.get k = true ↔
        rangeOf size k ∈ ranges ++ [(p.off, p.data.length)] := by
  obtain ⟨halign, hlt, hlen⟩ := hp
  obtain ⟨-, hpieces⟩ := piece_stores c.cd mem hoff
  obtain ⟨-, hcount, -⟩ := piece_counts c.cd mem hoff
  have hrange : (p.off, p.data.length) = rangeOf size (p.off / MAX_PIECE_LEN) :=
    Prod.ext halign hlen
  have hqueue : (c.store mem p).piece_queue =
      c.piece_queue.filter (· ≠ p.off / MAX_PIECE_LEN) := rfl
  generalize p.off / MAX_PIECE_LEN = pp at *
  have hget : ∀ k, (c.store mem p).cd.pieces.get k =
      if k = pp then true else c.cd.pieces.get k := by
    intro k
    show (c.cd.piece (some mem) p).cd.pieces.get k = _
    rw [hpieces, BitSet.get_set]
    simp [hlt]
  refine ⟨⟨?_, ?_, fun k => ?_⟩, ?_, fun k hk => ?_⟩
  · show (c.cd.piece (some mem) p).cd.num_downloaded =
      (c.cd.piece (some mem) p).cd.pieces.numOnBits
    rw [hcount, hpieces, BitSet.numOnBits_set _ hlt hoff, h.counts.counter]
  · rw [hqueue]
    exact h.counts.once.filter _
  · rw [hget, hqueue, List.mem_filter, h.counts.queue k]
    by_cases hk : k = pp <;> simp [hk]
  · intro r hr
    obtain hr | hr := List.mem_append.mp hr
    · exact h.whole r hr
    · exact ⟨pp, hlt, (List.mem_singleton.mp hr).trans hrange⟩
  · rw [hget, hrange, List.mem_append, List.mem_singleton, ← h.held k hk]
    have hinj : rangeOf size k = rangeOf size pp ↔ k = pp := by
      unfold rangeOf
      constructor
      · intro heq
        exact Nat.eq_of_mul_eq_mul_right (by decide) (Prod.mk.inj heq).1
      · rintro rfl
        rfl
    rw [hinj]
    by_cases hk' : k = pp <;> simp [hk']

end arrival

/-! ### What other events leave -/

/-- The pieces are the same, the queue is in another order. Kind: D -/
structure Turned {size : ℕ} (c c' : Active size) : Prop where
  cd : c'.cd = c.cd
  queue : c'.piece_queue.Perm c.piece_queue

namespace Turned

variable {size : ℕ} {c c' c'' : Active size}

/-- Nothing turned. Source: none: infrastructure. Kind: L -/
theorem refl (c : Active size) : Turned c c := ⟨rfl, List.Perm.refl _⟩

/-- One turn after the other. Source: none: infrastructure. Kind: L -/
theorem trans (h : Turned c c') (h' : Turned c' c'') : Turned c c'' :=
  ⟨h'.cd.trans h.cd, h'.queue.trans h.queue⟩

/-- The count of the bits stays right. Source: `torrent/chunkdownload.cpp`,
`torrent/downloader.cpp`. Kind: L -/
theorem counts (h : Turned c c') (hc : Counts c) : Counts c' := by
  refine ⟨?_, h.queue.nodup_iff.mpr hc.once, fun k => ?_⟩
  · rw [h.cd]
    exact hc.counter
  · rw [h.cd, h.queue.mem_iff]
    exact hc.queue k

/-- What is stored stays what is marked. Source: `torrent/chunkdownload.cpp`,
`torrent/downloader.cpp`. Kind: L -/
theorem progress (h : Turned c c') {ranges : List (ℕ × ℕ)} (hc : Progress c ranges) :
    Progress c' ranges := by
  refine ⟨h.counts hc.counts, hc.whole, ?_, ?_⟩
  · rw [h.cd]
    exact hc.held
  · rw [h.cd]
    exact hc.unfinished

end Turned

/-- The loop of `sendRequests` turns the queue. Source: `ChunkDownload::sendRequests`. Kind: L -/
theorem perm_requestLoop (size : ℕ) (t : Clock) (i id n : ℕ) (v : Turn) :
    (requestLoop size t i id n v).piece_queue.Perm v.piece_queue := by
  have hnext : ∀ v : Turn, (v.next size t i id).piece_queue.Perm v.piece_queue := by
    rintro ⟨_ | ⟨q, queue⟩, ds, pd⟩
    · exact List.Perm.refl _
    · unfold Turn.next
      dsimp only
      split_ifs <;> exact List.perm_append_singleton q queue
  induction n generalizing v with
  | zero => exact List.Perm.refl _
  | succ n ih =>
    unfold requestLoop
    split_ifs
    · exact (ih _).trans (hnext v)
    · exact List.Perm.refl _

namespace Swarm

variable {L : Layout} {s s' s'' : Swarm L}

/-- No download begins, and none gains or loses a piece. Kind: D -/
def Rearranged (s s' : Swarm L) : Prop :=
  ∀ i c', s'.downloads i = some c' → ∃ c, s.downloads i = some c ∧ Turned c c'

/-- Nothing rearranged. Source: none: infrastructure. Kind: L -/
theorem Rearranged.refl (s : Swarm L) : Rearranged s s := fun _ c h => ⟨c, h, .refl c⟩

/-- Rearranging twice. Source: none: infrastructure. Kind: L -/
theorem Rearranged.trans (h : Rearranged s s') (h' : Rearranged s' s'') : Rearranged s s'' := by
  intro i c'' hc''
  obtain ⟨c', hc', ht'⟩ := h' i c'' hc''
  obtain ⟨c, hc, ht⟩ := h i c' hc'
  exact ⟨c, hc, ht.trans ht'⟩

/-- The downloads are the same. Source: `torrent/chunkdownload.cpp`, `torrent/downloader.cpp`.
Kind: L -/
theorem rearranged_of_eq (h : s'.downloads = s.downloads) : Rearranged s s' := by
  intro i c hc
  exact ⟨c, h ▸ hc, .refl c⟩

/-- Rearranging for each element of a list. Source: `torrent/chunkdownload.cpp`,
`torrent/downloader.cpp`. Kind: L -/
theorem Rearranged.foldl {α : Type*} {f : Swarm L → α → Swarm L}
    (hf : ∀ s a, Rearranged s (f s a)) (as : List α) (s : Swarm L) :
    Rearranged s (as.foldl f s) := by
  induction as generalizing s with
  | nil => exact .refl s
  | cons a as ih => exact (hf s a).trans (ih _)

/-- A change of a peer. Source: `torrent/chunkdownload.cpp`, `torrent/downloader.cpp`. Kind: L -/
theorem rearranged_modifyPeer (s : Swarm L) (id : ℕ) (f : PeerDownloader → PeerDownloader) :
    Rearranged s (s.modifyPeer id f) :=
  rearranged_of_eq rfl

/-- A change of a download that only turns it. Source: `torrent/chunkdownload.cpp`,
`torrent/downloader.cpp`. Kind: L -/
theorem rearranged_modifyDownload (s : Swarm L) (i : Fin L.numChunks)
    {f : Active (sizeOf i) → Active (sizeOf i)} (hf : ∀ c, Turned c (f c)) :
    Rearranged s (s.modifyDownload i f) := by
  intro j c' hc'
  by_cases hj : j = i
  · subst hj
    rw [downloads_modifyDownload_self] at hc'
    obtain ⟨c, hc, rfl⟩ := Option.map_eq_some_iff.mp hc'
    exact ⟨c, hc, hf c⟩
  · rw [downloads_modifyDownload_of_ne hj] at hc'
    exact ⟨c', hc', .refl c'⟩

/-- A mark that is taken off. Source: `ChunkDownload::piece`, `notDownloaded`. Kind: L -/
theorem rearranged_unmark (s : Swarm L) (i : Fin L.numChunks) (id p : ℕ) :
    Rearranged s (s.unmark i id p) :=
  rearranged_modifyDownload s i fun _ => ⟨rfl, List.Perm.refl _⟩

/-- One peer is asked for more. Source: `ChunkDownload::sendRequests`. Kind: L -/
theorem rearranged_sendRequests (t : Clock) (i : Fin L.numChunks) (s : Swarm L) (id : ℕ) :
    Rearranged s (s.sendRequests t i id) := by
  unfold sendRequests
  rcases hc : s.downloads i with _ | c
  · exact .refl s
  rcases hpd : s.peers id with _ | pd
  · exact .refl s
  dsimp only
  rcases hds : c.dstatus id with _ | ds
  · exact .refl s
  dsimp only
  by_cases hch : pd.choked = true
  · rw [if_pos hch]
    exact .refl s
  rw [if_neg hch]
  intro j c' hc'
  dsimp only at hc'
  by_cases hj : j = i
  · subst hj
    rw [Function.update_self] at hc'
    obtain rfl := Option.some.inj hc'
    exact ⟨c, hc, rfl, perm_requestLoop _ t j id _ _⟩
  · rw [Function.update_of_ne hj] at hc'
    exact ⟨c', hc', .refl c'⟩

/-- All peers are asked for more. Source: `ChunkDownload::update`, `piece`. Kind: L -/
theorem rearranged_sendAll (t : Clock) (i : Fin L.numChunks) (s : Swarm L) :
    Rearranged s (s.sendAll t i) :=
  .foldl (rearranged_sendRequests t i) _ s

/-- A request is rejected. Source: `ChunkDownload::onRejected`. Kind: L -/
theorem rearranged_rejected (t : Clock) (id : ℕ) (s : Swarm L) (r : Request) :
    Rearranged s (s.rejected t id r) := by
  unfold rejected notDownloaded
  split_ifs
  · exact (rearranged_unmark s _ _ _).trans (rearranged_sendAll t _ _)
  · exact .refl s
  · exact .refl s

/-- A peer chokes. Source: `PeerDownloader::choked`. Kind: L -/
theorem rearranged_choked (t : Clock) (id : ℕ) (s : Swarm L) : Rearranged s (s.choked t id) := by
  unfold choked
  split
  · exact .refl s
  · split_ifs
    · exact .refl s
    · refine .trans ?_ (rearranged_modifyPeer _ id _)
      refine .trans ?_ (.foldl (rearranged_rejected t id) _ _)
      refine .trans ?_ (rearranged_modifyPeer _ id _)
      exact .foldl (rearranged_rejected t id) _ _

/-- A rejection goes to its download. Source: `PeerDownloader::onRejected`. Kind: L -/
theorem rearranged_onRejected (t : Clock) (r : Request) (s : Swarm L) :
    Rearranged s (s.onRejected t r) := by
  unfold onRejected
  split_ifs
  · exact (rearranged_modifyPeer s _ _).trans (rearranged_rejected t _ _ r)
  · exact .refl s

/-- All peers are released. Source: `ChunkDownload::releaseAllPDs`. Kind: L -/
theorem rearranged_releaseAllPDs (i : Fin L.numChunks) (s : Swarm L) :
    Rearranged s (s.releaseAllPDs i) := by
  unfold releaseAllPDs
  refine .trans ?_ (rearranged_modifyDownload _ i fun _ => ⟨rfl, List.Perm.refl _⟩)
  exact .foldl (fun s id => rearranged_modifyPeer s id _) _ s

/-- A peer is assigned. Source: `ChunkDownload::assignPeer`. Kind: L -/
theorem rearranged_assignPeer (t : Clock) (i : Fin L.numChunks) (id : ℕ) (s : Swarm L) :
    Rearranged s (s.assignPeer t i id) := by
  unfold assignPeer
  split_ifs
  · exact .refl s
  · refine .trans ?_ (rearranged_sendRequests t i _ id)
    refine .trans (rearranged_modifyPeer s id .grab) ?_
    exact rearranged_modifyDownload _ i fun _ => ⟨rfl, List.Perm.refl _⟩

/-- All requests are cancelled. Source: `ChunkDownload::cancelAll`. Kind: L -/
theorem rearranged_cancelAll (i : Fin L.numChunks) (s : Swarm L) :
    Rearranged s (s.cancelAll i) := by
  refine .foldl (fun s id => ?_) _ s
  unfold sendCancels
  split
  · exact .refl s
  · refine .trans ?_ (rearranged_modifyDownload _ i fun _ => ⟨rfl, List.Perm.refl _⟩)
    exact .foldl (fun s p => rearranged_modifyPeer s id _) _ s

/-- A piece that came is cancelled at the others. Source: `ChunkDownload::endgameCancel`. Kind: L -/
theorem rearranged_endgameCancel (i : Fin L.numChunks) (p : Piece) (s : Swarm L) :
    Rearranged s (s.endgameCancel i p) := by
  refine .foldl (fun s id => ?_) _ s
  unfold endgameCancelOf
  split_ifs
  · exact (rearranged_modifyPeer s id _).trans (rearranged_unmark _ i id _)
  · exact .refl s

/-- A download ends. Source: `torrent/chunkdownload.cpp`, `torrent/downloader.cpp`. Kind: L -/
theorem rearranged_erase (i : Fin L.numChunks) (s : Swarm L) : Rearranged s (s.erase i) := by
  intro j c hc
  unfold erase at hc
  dsimp only at hc
  by_cases hj : j = i
  · subst hj
    rw [Function.update_self] at hc
    cases hc
  · rw [Function.update_of_ne hj] at hc
    exact ⟨c, hc, .refl c⟩

/-- A peer is gone. Source: `Downloader::onPeerKilled`. Kind: L -/
theorem rearranged_onPeerKilled (id : ℕ) (s : Swarm L) : Rearranged s (s.onPeerKilled id) := by
  intro i c' hc'
  rw [downloads_onPeerKilled] at hc'
  obtain ⟨c, hc, rfl⟩ := Option.map_eq_some_iff.mp hc'
  refine ⟨c, hc, ?_⟩
  unfold left
  split_ifs
  · exact ⟨rfl, List.Perm.refl _⟩
  · exact .refl c

/-- What is done before the peers are asked for more, seen from another chunk.
Source: `torrent/chunkdownload.cpp`, `torrent/downloader.cpp`. Kind: L -/
theorem downloads_store_of_ne {i j : Fin L.numChunks} (hj : j ≠ i) (s : Swarm L) (id p : ℕ)
    (f : Active (sizeOf i) → Active (sizeOf i)) :
    ((s.unmark i id p).modifyDownload i f).downloads j = s.downloads j := by
  rw [downloads_modifyDownload_of_ne hj, unmark, downloads_modifyDownload_of_ne hj]

/-- The end game's cancels, if there are several peers. Source: `torrent/chunkdownload.cpp`,
`torrent/downloader.cpp`. Kind: L -/
theorem rearranged_endgame (i : Fin L.numChunks) (p : Piece) (s : Swarm L) :
    Rearranged s (if (s.pdown i).length > 1 then s.endgameCancel i p else s) := by
  split_ifs
  · exact rearranged_endgameCancel i p s
  · exact .refl s

section arrives

variable {t : Clock} {i : Fin L.numChunks} {p : Piece} {c : Active (sizeOf i)}

/-- A piece that is not stored leaves the pieces as they are. Source: `ChunkDownload::piece`.
Kind: L -/
theorem rearranged_piece_ignored {mem : Option Mem} (hc : s.downloads i = some c)
    (h : mem = none ∨ c.cd.pieces.get (p.off / MAX_PIECE_LEN) = true) :
    Rearranged s (s.piece t mem i p) := by
  unfold piece
  rw [hc]
  dsimp only
  by_cases hget : c.cd.pieces.get (p.off / MAX_PIECE_LEN) = true
  · rw [if_pos hget]
    exact .refl s
  rw [if_neg hget, piece_ignores c.cd mem (h.symm), if_neg Bool.false_ne_true]
  exact (rearranged_unmark s i _ _).trans (rearranged_sendAll t i _)

/-- A piece that completes the chunk ends its download. Source: `ChunkDownload::piece`. Kind: L -/
theorem rearranged_piece_complete {m : Mem} (hc : s.downloads i = some c)
    (hget : c.cd.pieces.get (p.off / MAX_PIECE_LEN) = false)
    (h : (c.cd.piece (some m) p).complete = true) :
    Rearranged s (s.piece t (some m) i p) ∧ (s.piece t (some m) i p).downloads i = none := by
  unfold piece
  rw [hc]
  dsimp only
  rw [if_neg (by rw [hget]; exact Bool.false_ne_true), if_pos (piece_counts c.cd m hget).1, if_pos h]
  refine ⟨?_, Function.update_self i _ _⟩
  intro j c' hc'
  have hj : j ≠ i := by
    rintro rfl
    unfold erase at hc'
    dsimp only at hc'
    rw [Function.update_self] at hc'
    cases hc'
  have hrest := (rearranged_releaseAllPDs i _).trans (rearranged_erase i _) j c' hc'
  obtain ⟨c₁, hc₁, ht₁⟩ := hrest
  obtain ⟨c₂, hc₂, ht₂⟩ := rearranged_endgame i p _ j c₁ hc₁
  rw [downloads_store_of_ne hj] at hc₂
  exact ⟨c₂, hc₂, ht₂.trans ht₁⟩

/-- **A piece that is stored, and others are missing.**. Source: `ChunkDownload::piece`. Kind: L -/
theorem rearranged_piece_stored {m : Mem} (hc : s.downloads i = some c)
    (hget : c.cd.pieces.get (p.off / MAX_PIECE_LEN) = false)
    (h : (c.cd.piece (some m) p).complete = false) :
    Rearranged { s with downloads := Function.update s.downloads i (some (c.store m p)) }
      (s.piece t (some m) i p) := by
  unfold piece
  rw [hc]
  dsimp only
  rw [if_neg (by rw [hget]; exact Bool.false_ne_true), if_pos (piece_counts c.cd m hget).1,
    if_neg (by rw [h]; exact Bool.false_ne_true)]
  refine .trans ?_ ((rearranged_endgame i p _).trans (rearranged_sendAll t i _))
  intro j c' hc'
  dsimp only
  by_cases hj : j = i
  · subst hj
    rw [downloads_modifyDownload_self, unmark, downloads_modifyDownload_self, hc] at hc'
    obtain rfl := Option.some.inj hc'
    exact ⟨_, Function.update_self _ _ _, rfl, List.Perm.refl _⟩
  · rw [downloads_store_of_ne hj] at hc'
    exact ⟨c', (Function.update_of_ne hj _ _).trans hc', .refl c'⟩

end arrives

/-- The message `PIECE` is the call it leads to. Source: `PeerDownloader::piece`. Kind: L -/
theorem receivePiece_call (t : Clock) (os : Os) (cman : ChunkManager L) (p : Piece) (s : Swarm L) :
    (s.call os cman p = none ∧ Rearranged s (s.receivePiece t os cman p)) ∨
      ∃ i mem c, ∃ s₀ : Swarm L, s.call os cman p = some (i, mem) ∧ s.downloads i = some c ∧
        s₀.downloads = s.downloads ∧
        Rearranged (s₀.piece t mem i p) (s.receivePiece t os cman p) := by
  obtain ⟨s₀, hs₀⟩ : ∃ s₀, s₀ = s.modifyPeer p.peer (.remove p.request) := ⟨_, rfl⟩
  have hdown : s₀.downloads = s.downloads := by
    rw [hs₀]
    rfl
  unfold call receivePiece pieceRecieved
  by_cases hpeer : (s.peers p.peer).isNone = true
  · rw [if_pos hpeer, if_pos hpeer]
    exact .inl ⟨rfl, .refl s⟩
  rw [if_neg hpeer, if_neg hpeer, ← hs₀]
  by_cases hcomplete : cman.completed = true
  · rw [if_pos hcomplete, if_pos hcomplete]
    exact .inl ⟨rfl, rearranged_of_eq hdown⟩
  rw [if_neg hcomplete, if_neg hcomplete]
  by_cases hi : p.index < L.numChunks
  swap
  · rw [dif_neg hi, dif_neg hi]
    exact .inl ⟨rfl, rearranged_of_eq hdown⟩
  rw [dif_pos hi, dif_pos hi, hdown]
  dsimp only
  by_cases hnone : (s.downloads ⟨p.index, hi⟩).isNone = true
  · rw [if_pos hnone, if_pos hnone]
    exact .inl ⟨rfl, rearranged_of_eq hdown⟩
  rw [if_neg hnone, if_neg hnone]
  obtain ⟨c, hc⟩ := Option.ne_none_iff_exists'.mp (by simpa using hnone)
  exact .inr ⟨_, _, c, s₀, rfl, hc, hdown, rearranged_modifyPeer _ _ _⟩

end Swarm

namespace Logged

variable {L : Layout} {s : Logged L}

/-- What the log says of the downloads stays true. Source: `torrent/chunkdownload.cpp`,
`torrent/downloader.cpp`. Kind: L -/
theorem Holds.rearranged (h : Holds s) {s' : Swarm L} (hr : Swarm.Rearranged s.swarm s') :
    Holds { s with swarm := s' } := by
  intro i c' hc'
  obtain ⟨c, hc, ht⟩ := hr i c' hc'
  exact ht.progress (h i c hc)

/-- A download begins with the pieces it is given. Source: `torrent/chunkdownload.cpp`,
`torrent/downloader.cpp`. Kind: L -/
theorem Holds.insert (h : Holds s) (i : Fin L.numChunks) {c : Active (sizeOf i)}
    {ranges : List (ℕ × ℕ)} (hc : (s.swarm.downloads i).isNone = true → Progress c ranges) :
    Holds {
      swarm := s.swarm.insert i c
      log := if (s.swarm.downloads i).isSome then s.log else Function.update s.log i ranges } := by
  intro j c' hc'
  unfold Swarm.insert at hc'
  by_cases hsome : (s.swarm.downloads i).isSome = true
  · rw [if_pos hsome] at hc'
    rw [if_pos hsome]
    exact h j c' hc'
  · rw [if_neg hsome] at hc'
    rw [if_neg hsome]
    dsimp only at hc' ⊢
    by_cases hj : j = i
    · subst hj
      rw [Function.update_self] at hc' ⊢
      obtain rfl := Option.some.inj hc'
      exact hc (by simpa using hsome)
    · rw [Function.update_of_ne hj] at hc' ⊢
      exact h j c' hc'

/-- A new download has nothing. Source: `torrent/chunkdownload.cpp`, `torrent/downloader.cpp`.
Kind: L -/
theorem progress_new {size : ℕ} (hpos : 0 < numPieces size) : Progress (Active.new size) [] := by
  refine ⟨⟨(BitSet.numOnBits_empty _).symm, List.nodup_range, fun k => ?_⟩, ?_, ?_,
    ⟨0, hpos, BitSet.get_empty 0⟩⟩
  · show k ∈ List.range _ ↔ _ ∧ (BitSet.empty _).get k = false
    simp
  · intro r hr
    cases hr
  · intro k _
    show (BitSet.empty _).get k = true ↔ _
    simp

/-- A loaded download has what its bits say. Source: `ChunkDownload::load`. Kind: L -/
theorem progress_load {size : ℕ} {pieces : BitSet (numPieces size)}
    (hmissing : ∃ k < numPieces size, pieces.get k = false) :
    Progress (Active.load pieces) (loadedRanges pieces) := by
  have hmem : ∀ r, r ∈ loadedRanges pieces ↔
      ∃ k, (k < numPieces size ∧ pieces.get k = true) ∧ rangeOf size k = r := by
    intro r
    unfold loadedRanges
    simp only [List.mem_map, List.mem_filter, List.mem_range]
  refine ⟨⟨rfl, List.nodup_range.filter _, fun k => ?_⟩, fun r hr => ?_, fun k hk => ?_, hmissing⟩
  · show k ∈ (List.range _).filter (fun k => !pieces.get k) ↔ _ ∧ pieces.get k = false
    simp
  · obtain ⟨k, ⟨hk, -⟩, rfl⟩ := (hmem r).mp hr
    exact ⟨k, hk, rfl⟩
  · rw [hmem]
    constructor
    · intro hon
      exact ⟨k, ⟨hk, hon⟩, rfl⟩
    · rintro ⟨q, ⟨-, hon⟩, heq⟩
      have hq : q = k := Nat.eq_of_mul_eq_mul_right (by decide) (Prod.mk.inj heq).1
      exact hq ▸ hon

/-- **The message `PIECE`**: under its condition the progress is kept, and what `piece` returns is
right. Source: `ChunkDownload::piece`. Kind: L -/
theorem Holds.piece (h : Holds s) (t : Clock) (os : Os) (cman : ChunkManager L) (p : Piece)
    (hfits : Fits s (.piece t os cman p)) :
    Holds (step s (.piece t os cman p)) ∧ Reports s (.piece t os cman p) := by
  show Holds ⟨s.swarm.receivePiece t os cman p, s.noted os cman p⟩ ∧ _
  obtain ⟨hcall, hr⟩ | ⟨i, mem, c, s₀, hcall, hc, hdown, hr⟩ :=
    Swarm.receivePiece_call t os cman p s.swarm
  · refine ⟨?_, fun i mem c h' => by rw [hcall] at h'; cases h'⟩
    unfold noted
    rw [hcall]
    exact h.rearranged hr
  have hreports : ∀ {log : Fin L.numChunks → List (ℕ × ℕ)}, s.noted os cman p = log →
      ((c.cd.piece mem p).complete = true ↔
        ∀ k < numPieces (sizeOf i), Stored (sizeOf i) (log i) k) →
      Reports s (.piece t os cman p) := by
    intro log hlog hiff i' mem' c' hcall' hc'
    rw [hcall] at hcall'
    obtain ⟨rfl, rfl⟩ := Prod.mk.inj (Option.some.inj hcall')
    rw [hc] at hc'
    obtain rfl := Option.some.inj hc'
    rw [hlog]
    exact hiff
  have hnoted : s.noted os cman p = Function.update s.log i
      (s.log i ++ (c.cd.piece mem p).copied.toList.map fun r => (r.1, r.2.length)) := by
    unfold noted
    rw [hcall]
    dsimp only
    rw [hc]
  have hc₀ : s₀.downloads i = some c := by rw [hdown, hc]
  have hprogress := h i c hc
  by_cases hign : mem = none ∨ c.cd.pieces.get (p.off / MAX_PIECE_LEN) = true
  · -- nothing is stored, and something is missing
    have hnone := piece_ignores c.cd mem hign.symm
    have hlog : s.noted os cman p = s.log := by
      rw [hnoted, hnone]
      simp
    refine ⟨?_, hreports hlog ?_⟩
    · rw [hlog]
      exact h.rearranged (((Swarm.rearranged_of_eq hdown).trans
        (Swarm.rearranged_piece_ignored hc₀ hign)).trans hr)
    · rw [hnone]
      constructor
      · intro hfalse
        cases hfalse
      · intro hall
        exact absurd hall hprogress.not_all
  obtain ⟨hmem, hget⟩ := not_or.mp hign
  obtain ⟨m, rfl⟩ := Option.ne_none_iff_exists'.mp hmem
  have hoff : c.cd.pieces.get (p.off / MAX_PIECE_LEN) = false := by simpa using hget
  obtain ⟨hcopied, hpieces⟩ := piece_stores c.cd m hoff
  obtain ⟨-, hcount, hcomplete⟩ := piece_counts c.cd m hoff
  obtain ⟨hcounts, hwhole, hheld⟩ := hprogress.store m hoff (hfits i m c hcall hc hoff)
  have hlog : s.noted os cman p =
      Function.update s.log i (s.log i ++ [(p.off, p.data.length)]) := by
    rw [hnoted, hcopied]
    rfl
  have hall : (c.cd.piece (some m) p).complete = true ↔
      ∀ k < numPieces (sizeOf i), (c.store m p).cd.pieces.get k = true := by
    have hnum : (c.store m p).cd.pieces.numOnBits = c.cd.num_downloaded + 1 :=
      hcounts.counter.symm.trans hcount
    rw [hcomplete, ← hnum]
    constructor
    · intro hle k hk
      exact (c.store m p).cd.pieces.get_of_numOnBits hle hk
    · intro hall
      exact ((c.store m p).cd.pieces.numOnBits_of_get hall).ge
  refine ⟨?_, hreports hlog ?_⟩
  · rw [hlog]
    intro j c' hc'
    obtain ⟨c₁, hc₁, ht₁⟩ := hr j c' hc'
    apply ht₁.progress
    dsimp only
    by_cases hdone : (c.cd.piece (some m) p).complete = true
    · -- the download has ended
      obtain ⟨hother, hended⟩ := Swarm.rearranged_piece_complete (t := t) hc₀ hoff hdone
      have hj : j ≠ i := by
        rintro rfl
        rw [hended] at hc₁
        cases hc₁
      obtain ⟨c₂, hc₂, ht₂⟩ := hother j c₁ hc₁
      rw [Function.update_of_ne hj]
      exact ht₂.progress (h j c₂ (hdown ▸ hc₂))
    · have hdone' : (c.cd.piece (some m) p).complete = false := by simpa using hdone
      obtain ⟨c₂, hc₂, ht₂⟩ := Swarm.rearranged_piece_stored (t := t) hc₀ hoff hdone' j c₁ hc₁
      apply ht₂.progress
      dsimp only at hc₂
      rw [hdown] at hc₂
      by_cases hj : j = i
      · subst hj
        rw [Function.update_self] at hc₂ ⊢
        obtain rfl := Option.some.inj hc₂
        refine ⟨hcounts, hwhole, hheld, ?_⟩
        by_contra hnone
        push Not at hnone
        exact hdone (hall.mpr fun k hk => by simpa using hnone k hk)
      · rw [Function.update_of_ne hj] at hc₂ ⊢
        exact h j c₂ hc₂
  · rw [hall, Function.update_self]
    refine forall_congr' fun k => forall_congr' fun hk => ?_
    rw [hheld k hk, stored_iff hwhole k]

/-- **Every event keeps the progress** under its condition. Source: `torrent/chunkdownload.cpp`,
`torrent/downloader.cpp`. Kind: P -/
theorem Holds.step (h : Holds s) {e : Swarm.Event L} (hfits : Fits s e) :
    Holds (s.step e) ∧ Reports s e := by
  cases e with
  | piece t os cman p => exact h.piece t os cman p hfits
  | download i =>
    exact ⟨h.insert i fun hnone => progress_new (hfits hnone), trivial⟩
  | load i pieces =>
    exact ⟨h.insert i fun hnone => progress_load (hfits hnone), trivial⟩
  | newPeer id fast =>
    refine ⟨h.rearranged (Swarm.rearranged_of_eq ?_), trivial⟩
    show (s.swarm.newPeer id fast).downloads = _
    unfold Swarm.newPeer
    split_ifs <;> rfl
  | kill id => exact ⟨h.rearranged (Swarm.rearranged_onPeerKilled id s.swarm), trivial⟩
  | reject t r => exact ⟨h.rearranged (Swarm.rearranged_onRejected t r s.swarm), trivial⟩
  | choke t id =>
    exact ⟨h.rearranged ((Swarm.rearranged_modifyPeer s.swarm id _).trans
      (Swarm.rearranged_choked t id _)), trivial⟩
  | unchoke id => exact ⟨h.rearranged (Swarm.rearranged_modifyPeer s.swarm id _), trivial⟩
  | checkTimeouts t id =>
    exact ⟨h.rearranged (Swarm.rearranged_modifyPeer s.swarm id _), trivial⟩
  | assign t i id => exact ⟨h.rearranged (Swarm.rearranged_assignPeer t i id s.swarm), trivial⟩
  | update t i => exact ⟨h.rearranged (Swarm.rearranged_sendAll t i s.swarm), trivial⟩
  | cancelAll i => exact ⟨h.rearranged (Swarm.rearranged_cancelAll i s.swarm), trivial⟩
  | release i => exact ⟨h.rearranged (Swarm.rearranged_releaseAllPDs i s.swarm), trivial⟩
  | exclude i =>
    exact ⟨h.rearranged (((Swarm.rearranged_cancelAll i s.swarm).trans
      (Swarm.rearranged_releaseAllPDs i _)).trans (Swarm.rearranged_erase i _)), trivial⟩
  | found i =>
    exact ⟨h.rearranged ((Swarm.rearranged_releaseAllPDs i s.swarm).trans
      (Swarm.rearranged_erase i _)), trivial⟩

/-- **The progress of a run.** In a run of events in which every piece that is copied is one of its
chunk's, and no download begins without a missing piece, the counter and the queue of every download
follow its bits in every state, and `piece` always reports the chunk complete exactly when all its
pieces are stored. Source: `torrent/chunkdownload.cpp`, `torrent/downloader.cpp`. Kind: P -/
theorem progress_run (L : Layout) (es : List (Swarm.Event L))
    (h : Meets step Fits ({} : Logged L) es) :
    (∀ pre, pre <+: es → ∀ i c, (run step ({} : Logged L) pre).swarm.downloads i = some c →
      Counts c) ∧
    Meets step Reports ({} : Logged L) es := by
  have hstart : Holds ({} : Logged L) := by
    intro i c hc
    cases hc
  have hkeep : ∀ (s : Logged L) (e : Swarm.Event L), Holds s → Fits s e → Holds (s.step e) :=
    fun _ _ hs he => (hs.step he).1
  refine ⟨fun pre hpre i c hc => ?_, h.forall_step hkeep (fun _ _ hs he => (hs.step he).2) hstart⟩
  exact (h.invariant_at hkeep hstart hpre i c hc).counts

/-- One chunk of three pieces, the last of one byte. Kind: D -/
def threePieces : Layout := .checked ['t'] 32769 32769 [] [Vector.replicate 20 0] (by decide)

/-- The chunk is in memory. Kind: D -/
def threeManager : ChunkManager threePieces where
  chunks _ := { index := 0, size := 32769, status := .buffered, data := .heap fun _ => 0 }
  todo := (BitSet.empty _).set 0 true
  files _ := {}
  cache := { disk := fun _ => 0 }

/-- The only chunk. Kind: D -/
abbrev threeChunk : Fin threePieces.numChunks := ⟨0, by decide⟩

/-- The first piece was loaded; the peer is asked for the rest, and sends the last piece before the
second. Kind: D -/
def threeRun : List (Swarm.Event threePieces) :=
  [.newPeer 1 false, .unchoke 1, .load threeChunk ((BitSet.empty _).set 0 true),
    .assign {} threeChunk 1, .piece {} {} threeManager ⟨0, 32768, 1, [0]⟩,
    .piece {} {} threeManager ⟨0, 16384, 1, List.replicate 16384 0⟩]

/-- The events of the sample fit. Source: `torrent/chunkdownload.cpp`, `torrent/downloader.cpp`.
Kind: L -/
theorem fits_threeRun : Meets step Fits ({} : Logged threePieces) threeRun := by
  have hlast : ∀ i : Fin threePieces.numChunks, WellFormed (sizeOf i) ⟨0, 32768, 1, [0]⟩ := by
    decide
  have hsecond : ∀ i : Fin threePieces.numChunks,
      WellFormed (sizeOf i) ⟨0, 16384, 1, List.replicate 16384 0⟩ := by
    intro i
    refine ⟨by decide, by revert i; decide, (List.length_replicate ..).trans ?_⟩
    revert i
    decide
  exact ⟨trivial, trivial, fun _ => ⟨1, by decide, by decide⟩, trivial, fun i _ _ _ _ _ => hlast i,
    fun i _ _ _ _ _ => hsecond i, trivial⟩

/-- The last piece that comes completes the chunk, as `piece` reports.
Source: `PeerDownloader::piece`, `Downloader::pieceRecieved`. Kind: L -/
theorem progress_run_three : Meets step Reports ({} : Logged threePieces) threeRun ∧
    ((run step ({} : Logged threePieces) (threeRun.take 5)).swarm.call {} threeManager
      ⟨0, 16384, 1, List.replicate 16384 0⟩).map Prod.fst = some threeChunk :=
  ⟨(progress_run threePieces threeRun fits_threeRun).2, rfl⟩

/-- **A piece nobody asked for**, beyond the end of the second chunk. Kind: D -/
def beyondRun : List (Swarm.Event Swarm.seedLayout) :=
  [.newPeer 1 false, .unchoke 1, .download Swarm.seedChunk,
    .piece {} {} { Swarm.seedManager with todo := (BitSet.empty _).set 1 true } ⟨1, 16384, 1, [0]⟩]

/-- The chunk is reported complete, and its only piece is not stored.
Source: `torrent/chunkdownload.cpp`, `torrent/downloader.cpp`. Kind: L -/
theorem complete_without : ¬ Meets step Reports ({} : Logged Swarm.seedLayout) beyondRun := by
  rintro ⟨-, -, -, hreports, -⟩
  have hiff := hreports Swarm.seedChunk (some fun _ => 0) (.new _) rfl rfl
  have hlog : noted {} { Swarm.seedManager with todo := (BitSet.empty _).set 1 true }
      ⟨1, 16384, 1, [0]⟩ (run step ({} : Logged Swarm.seedLayout) (beyondRun.take 3))
        Swarm.seedChunk = [(16384, 1)] := rfl
  have hstored := hiff.mp rfl 0 (by decide) 0 (by decide) (by decide)
  obtain ⟨r, hr, hle, -⟩ := hstored
  obtain rfl := List.mem_singleton.mp (hlog ▸ hr)
  exact absurd hle (by decide)

end Logged

end KTorrent.Transfer.Requests
