import KTorrent.Storage.IndexFile
import KTorrent.Transfer.Selectable

/-!
# A piece from the wire

What a `PIECE` message goes through on its way into a chunk, and what of it is checked.

* `packetReady`, `PeerDownloader.piece` — the message is taken apart, and the request it answers is
  struck from the peer's queues; the piece is passed on whether there was one or not.
* `Inside` — a call of `ChunkDownload::piece` writes inside the chunk only, and marks a piece only
  for exactly its bytes.
* `inside_piece_iff`, `staysInside_iff` — when that is so, for every message in every state.
* `misplaced_piece` — a message with a begin that is no multiple of the piece length.

Source: `torrent/peer.cpp`, `torrent/peerdownloader.cpp`, `torrent/chunkdownload.cpp`
-/

namespace KTorrent.Transfer

open KTorrent.Lib KTorrent.Util KTorrent.Storage ChunkManager

/-! ### The message -/

/-- The case `PIECE`; `packet` starts with the byte that names the type, and `none` is a peer that is
killed. Source: `Peer::packetReady`. Kind: D -/
def packetReady (id : ℕ) (packet : List UInt8) : Option Piece :=
  if packet.length < 9 then none
  else
    some {
      index := readUint32 packet 1
      off := readUint32 packet 5
      peer := id
      data := packet.drop 9 }

/-- Source: `torrent/peerdownloader.h`, `PeerDownloader`. Kind: D -/
structure PeerDownloader where
  wait_queue : List Request := []
  reqs : List Request := []

/-- Source: `PeerDownloader::piece`; the second component is what the signal `downloaded` carries.
Kind: D -/
def PeerDownloader.piece (p : Piece) (pd : PeerDownloader) : PeerDownloader × Piece :=
  let pd :=
    if pd.wait_queue.any p.request.sameAs then
      { pd with wait_queue := pd.wait_queue.filter fun r => !p.request.sameAs r }
    else if pd.reqs.any p.request.sameAs then
      { pd with reqs := pd.reqs.filter fun r => !p.request.sameAs r }
    else pd
  (pd, p)

/-! ### Pieces of a chunk -/

section pieces

variable {size : ℕ}

/-- The pieces cover the chunk. Source: `torrent/peer.cpp`, `torrent/peerdownloader.cpp`. Kind: L -/
theorem size_le (size : ℕ) : size ≤ numPieces size * MAX_PIECE_LEN := by
  unfold numPieces MAX_PIECE_LEN
  split_ifs <;> omega

/-- A piece lies in its chunk. Source: `PeerDownloader::piece`. Kind: L -/
theorem piece_le {q : ℕ} (hq : q < numPieces size) :
    q * MAX_PIECE_LEN + pieceLen size q ≤ size := by
  unfold pieceLen
  unfold numPieces at hq ⊢
  unfold lastSize MAX_PIECE_LEN at *
  split_ifs at hq ⊢ <;> omega

/-- A piece has at most its full length. Source: `ChunkDownload::updateHash`, `bytesDownloaded`.
Kind: L -/
theorem pieceLen_le (size q : ℕ) : pieceLen size q ≤ MAX_PIECE_LEN := by
  unfold pieceLen lastSize MAX_PIECE_LEN
  split_ifs <;> omega

/-- **The piece is one of the chunk's**: it starts where one starts and has its length. Kind: D -/
def WellFormed (size : ℕ) (p : Piece) : Prop :=
  p.off = p.off / MAX_PIECE_LEN * MAX_PIECE_LEN ∧ p.off / MAX_PIECE_LEN < numPieces size ∧
    p.len = pieceLen size (p.off / MAX_PIECE_LEN)

instance (size : ℕ) (p : Piece) : Decidable (WellFormed size p) :=
  inferInstanceAs (Decidable (_ ∧ _))

/-- **A call of `piece` stays inside the chunk.** Kind: D -/
structure Inside (cd : ChunkDownload size) (p : Piece) (a : ChunkDownload.Arrival size) : Prop where
  /-- Every byte written is a byte of the chunk. -/
  writes : ∀ off bs, a.copied = some (off, bs) → ∀ x, off ≤ x → x < off + bs.length → x < size
  /-- A piece newly marked is one of the chunk's, and the message brings exactly its bytes. -/
  marks : ∀ q, cd.pieces.get q = false → a.cd.pieces.get q = true →
    q < numPieces size ∧ p.off = q * MAX_PIECE_LEN ∧ p.len = pieceLen size q

/-- Hashing leaves the pieces. Source: `ChunkDownload::updateHash`. Kind: L -/
@[simp] theorem pieces_updateHash (mem : Mem) (cd : ChunkDownload size) :
    (cd.updateHash mem).pieces = cd.pieces := rfl

/-- What a call does that stores the piece. Source: `PeerDownloader::piece`. Kind: L -/
theorem piece_stores (cd : ChunkDownload size) (mem : Mem) {p : Piece}
    (h : cd.pieces.get (p.off / MAX_PIECE_LEN) = false) :
    (cd.piece (some mem) p).copied = some (p.off, p.data) ∧
      (cd.piece (some mem) p).cd.pieces = cd.pieces.set (p.off / MAX_PIECE_LEN) true := by
  unfold ChunkDownload.piece
  simp only [h, Bool.false_eq_true, if_false]
  split_ifs <;> exact ⟨rfl, rfl⟩

/-- What a call does that stores nothing. Source: `PeerDownloader::piece`. Kind: L -/
theorem piece_ignores (cd : ChunkDownload size) (mem : Option Mem) {p : Piece}
    (h : cd.pieces.get (p.off / MAX_PIECE_LEN) = true ∨ mem = none) :
    cd.piece mem p = ⟨cd, false, false, none⟩ := by
  unfold ChunkDownload.piece
  rcases h with h | rfl
  · simp only [h, if_true]
  · dsimp only
    split_ifs <;> rfl

/-- **When a call of `piece` stays inside the chunk**: it stores nothing, or the piece is one of the
chunk's, or it is empty and lies beyond the last. Source: `PeerDownloader::piece`. Kind: P -/
theorem inside_piece_iff (cd : ChunkDownload size) (mem : Option Mem) (p : Piece) :
    Inside cd p (cd.piece mem p) ↔
      cd.pieces.get (p.off / MAX_PIECE_LEN) = true ∨ mem = none ∨ WellFormed size p ∨
        (numPieces size ≤ p.off / MAX_PIECE_LEN ∧ p.len = 0) := by
  by_cases hign : cd.pieces.get (p.off / MAX_PIECE_LEN) = true ∨ mem = none
  · rw [piece_ignores cd mem hign]
    refine ⟨fun _ => hign.imp id Or.inl, fun _ => ⟨fun off bs h => (by cases h), fun q h1 h2 => ?_⟩⟩
    exact absurd (h1.symm.trans h2) (by decide)
  obtain ⟨hget, hmem⟩ := not_or.mp hign
  obtain ⟨mem, rfl⟩ := Option.ne_none_iff_exists'.mp hmem
  obtain ⟨hcopied, hpieces⟩ := piece_stores cd mem (Bool.eq_false_iff.mpr hget)
  have hdiv : p.off / MAX_PIECE_LEN * MAX_PIECE_LEN ≤ p.off := Nat.div_mul_le_self _ _
  have hsize := size_le size
  constructor
  · rintro ⟨hw, hm⟩
    refine Or.inr (Or.inr ?_)
    by_cases hlt : p.off / MAX_PIECE_LEN < numPieces size
    · obtain ⟨h1, h2, h3⟩ := hm (p.off / MAX_PIECE_LEN) (Bool.eq_false_iff.mpr hget)
        (by rw [hpieces, BitSet.get_set_self _ hlt])
      exact Or.inl ⟨h2, h1, h3⟩
    · refine Or.inr ⟨not_lt.mp hlt, ?_⟩
      by_contra hlen
      have h1 := hw p.off p.data hcopied p.off le_rfl (by unfold Piece.len at hlen; omega)
      have h2 := Nat.mul_le_mul_right MAX_PIECE_LEN (not_lt.mp hlt)
      omega
  · rintro (h | h | ⟨h1, h2, h3⟩ | ⟨h1, h2⟩)
    · exact absurd h hget
    · exact absurd h hmem
    · refine ⟨fun off bs hc x hx1 hx2 => ?_, fun q hq1 hq2 => ?_⟩
      · obtain ⟨rfl, rfl⟩ := Prod.mk.inj (Option.some.inj (hcopied.symm.trans hc))
        have h4 := piece_le h2
        unfold Piece.len at h3
        omega
      · rw [hpieces, BitSet.get_set] at hq2
        split_ifs at hq2 with hq
        · rw [hq.1]
          exact ⟨h2, h1, h3⟩
        · exact absurd (hq1.symm.trans hq2) (by decide)
    · refine ⟨fun off bs hc x hx1 hx2 => ?_, fun q hq1 hq2 => ?_⟩
      · obtain ⟨rfl, rfl⟩ := Prod.mk.inj (Option.some.inj (hcopied.symm.trans hc))
        unfold Piece.len at h2
        omega
      · rw [hpieces, BitSet.get_set] at hq2
        split_ifs at hq2 with hq
        · omega
        · exact absurd (hq1.symm.trans hq2) (by decide)

end pieces

/-! ### The whole way -/

namespace Downloader

variable {L : Layout}

/-- **A message stays inside the chunk it addresses**: for the piece it carries, whoever sent it and
whatever was requested, the call of `ChunkDownload::piece` that `pieceRecieved` makes, if any, is one
of a piece inside the chunk. Kind: D -/
def StaysInside (env : Env) (id : ℕ) (packet : List UInt8) (pd : PeerDownloader)
    (d : Downloader L) : Prop :=
  ∀ p, packetReady id packet = some p → ∀ i, d.addressee (pd.piece p).2 = some i →
    ∀ cd, d.current_chunks i = some cd →
      Inside cd (pd.piece p).2 ((d.reload (env.chunk i) i).arrival i cd (pd.piece p).2)

/-- A chunk's data pointer is not null, or will be set when the chunk is reloaded. Kind: D -/
def hasMemory (d : Downloader L) (i : Fin L.numChunks) : Prop :=
  (d.cman.chunks i).status = .onDisk ∨ (d.cman.chunks i).data.isNull = false

/-- There is no memory behind a null pointer. Source: `Chunk::getData`. Kind: L -/
theorem memory_eq_none_iff (t : Torrent) (k : Cache) (c : Chunk) :
    memory t k c = none ↔ c.data.isNull = true := by
  unfold memory
  cases c.data <;> simp [Data.isNull]

/-- After the reload, only a chunk that was in memory already can be without any.
Source: `Chunk::getData`. Kind: L -/
theorem memory_reload_iff (d : Downloader L) (os : Os) (i : Fin L.numChunks) :
    memory L.torrent (d.reload os i).cman.cache ((d.reload os i).cman.chunks i) = none ↔
      ¬ d.hasMemory i := by
  rw [memory_eq_none_iff]
  unfold hasMemory
  by_cases hs : (d.cman.chunks i).status = .onDisk
  · have hcell : (d.reload os i).cman.cell i =
        (d.cman.cell i).prep L.torrent os d.cman.cache := by
      unfold Downloader.reload
      rw [if_pos hs]
      exact (cell_prepareChunk d.cman i os i true).trans (if_pos ⟨rfl, Or.inl rfl⟩)
    have hchunk : (d.reload os i).cman.chunks i =
        (d.cman.cache.prep L.torrent os (d.cman.chunks i)).1 := congrArg Cell.chunk hcell
    rw [hchunk]
    rcases d.cman.cache.prep_cases L.torrent os (d.cman.chunks i) with ⟨k', h, -⟩ | ⟨k', h, -⟩
    · simp [h, hs, Chunk.setData, Data.isNull]
    · simp [h, hs, Chunk.allocate, Data.isNull]
  · have hd : d.reload os i = d := if_neg hs
    rw [hd]
    simp [hs]

/-- **When a message stays inside the chunk.**. Source: `Peer::packetReady`. Kind: P -/
theorem staysInside_iff (env : Env) (id : ℕ) (packet : List UInt8) (pd : PeerDownloader)
    (d : Downloader L) : StaysInside env id packet pd d ↔
      ∀ p, packetReady id packet = some p → ∀ i, d.addressee p = some i →
        ∀ cd, d.current_chunks i = some cd →
          cd.pieces.get (p.off / MAX_PIECE_LEN) = true ∨ ¬ d.hasMemory i ∨
            WellFormed (sizeOf i) p ∨
            (numPieces (sizeOf i) ≤ p.off / MAX_PIECE_LEN ∧ p.len = 0) := by
  have hiff : ∀ p i (cd : ChunkDownload (sizeOf i)),
      Inside cd p ((d.reload (env.chunk i) i).arrival i cd p) ↔
        cd.pieces.get (p.off / MAX_PIECE_LEN) = true ∨ ¬ d.hasMemory i ∨
          WellFormed (sizeOf i) p ∨
          (numPieces (sizeOf i) ≤ p.off / MAX_PIECE_LEN ∧ p.len = 0) := by
    intro p i cd
    unfold Downloader.arrival
    rw [inside_piece_iff, memory_reload_iff]
  constructor
  · intro h p hp i hi cd hcd
    exact (hiff p i cd).mp (h p hp i hi cd hcd)
  · intro h p hp i hi cd hcd
    exact (hiff p i cd).mpr (h p hp i hi cd hcd)

/-- What the two numbers and the payload of a message become. Source: `Peer::packetReady`.
Kind: L -/
theorem packetReady_message (id index begin_ : ℕ) (payload : List UInt8) (type : UInt8) :
    packetReady id (type :: (uint32Bytes index ++ uint32Bytes begin_ ++ payload)) =
      some ⟨u32 index, u32 begin_, id, payload⟩ := by
  have h1 : readUint32 (type :: (uint32Bytes index ++ uint32Bytes begin_ ++ payload)) 1 =
      u32 index := by
    have h := readUint32_append [type] index (uint32Bytes begin_ ++ payload)
    rwa [List.append_assoc] at h
  have h2 : readUint32 (type :: (uint32Bytes index ++ uint32Bytes begin_ ++ payload)) 5 =
      u32 begin_ :=
    readUint32_append (type :: uint32Bytes index) begin_ payload
  have h3 : (type :: (uint32Bytes index ++ uint32Bytes begin_ ++ payload)).length =
      9 + payload.length := by simp; omega
  unfold packetReady
  rw [if_neg (by omega), h1, h2]
  rfl

/-! ### A message that does not -/

/-- One chunk of 16 bytes, its download just begun. Kind: D -/
def oneDownload : Downloader singleLayout :=
  run step (start singleLayout {} { word := 1 } ⟨fun _ => 0, 0⟩ [] id)
    [.downloadFrom {} fun _ => true]

/-- Sixteen bytes at begin 5. Kind: D -/
def misplaced : List UInt8 :=
  7 :: (uint32Bytes 0 ++ uint32Bytes 5 ++ List.replicate 16 1)

/-- **A piece outside its chunk is written outside its memory.** Source: `PeerDownloader::piece`.
Kind: L -/
theorem misplaced_piece : ¬ StaysInside {} 0 misplaced {} oneDownload := by
  intro h
  have hp : packetReady 0 misplaced = some ⟨0, 5, 0, List.replicate 16 1⟩ :=
    packetReady_message 0 0 5 (List.replicate 16 1) 7
  have hi := h _ hp ⟨0, by decide⟩ (by decide) _ rfl
  have hlt := hi.writes 5 (List.replicate 16 1) rfl 20 (by decide) (by decide)
  exact absurd hlt (by decide)

end Downloader

end KTorrent.Transfer
