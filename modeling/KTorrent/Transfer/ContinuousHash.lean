import KTorrent.Transfer.Pieces

/-!
# Hashing a chunk while it arrives

For chunks of more than 64 pieces the hash is computed piece by piece, as far as the pieces have
arrived without a gap.

* `Hashed cd m` — the generator of `cd` has been fed the front of the memory `m`: the pieces
  `0 .. num_pieces_in_hash - 1`, which have all arrived.
* `hashed_updateHash` — one call of `updateHash` extends that to the new memory, provided the front
  has not changed; `hashed_piece` is the same for a whole call of `piece`, and
  `hashed_complete` says that a complete chunk has been hashed completely.

Source: `torrent/chunkdownload.cpp`
-/

namespace KTorrent.Transfer

open KTorrent.Lib KTorrent.Util KTorrent.Storage

variable {size : ℕ}

/-! ### The front of a chunk -/

/-- How many bytes the first `n` pieces of a chunk have. Kind: D -/
def frontLen (size n : ℕ) : ℕ := min (n * MAX_PIECE_LEN) size

/-- No pieces, no bytes. Source: `torrent/chunkdownload.cpp`. Kind: L -/
@[simp] theorem frontLen_zero (size : ℕ) : frontLen size 0 = 0 := by simp [frontLen]

/-- The front is no longer than the chunk. Source: `torrent/chunkdownload.cpp`. Kind: L -/
theorem frontLen_le (size n : ℕ) : frontLen size n ≤ size := min_le_right _ _

/-- All pieces make the chunk. Source: `ChunkDownload::ChunkDownload`, `num`. Kind: L -/
theorem frontLen_numPieces (size : ℕ) : frontLen size (numPieces size) = size :=
  min_eq_right (size_le size)

/-- All pieces but the last have full length. Source: `torrent/chunkdownload.cpp`. Kind: L -/
theorem frontLen_of_lt {n : ℕ} (h : n < numPieces size) :
    frontLen size n = n * MAX_PIECE_LEN := by
  have h1 := piece_le h
  exact min_eq_left (by omega)

/-- One more piece. Source: `torrent/chunkdownload.cpp`. Kind: L -/
theorem frontLen_succ {n : ℕ} (h : n < numPieces size) :
    frontLen size (n + 1) = n * MAX_PIECE_LEN + pieceLen size n := by
  unfold frontLen pieceLen
  unfold numPieces lastSize MAX_PIECE_LEN at *
  split_ifs at h ⊢ <;> omega

/-- More pieces reach further. Source: none: infrastructure. Kind: L -/
theorem frontLen_mono (size : ℕ) {n k : ℕ} (h : n ≤ k) : frontLen size n ≤ frontLen size k := by
  have h1 := Nat.mul_le_mul_right MAX_PIECE_LEN h
  unfold frontLen
  omega

/-- Pieces are whole blocks of the hash function. Source: `torrent/chunkdownload.cpp`. Kind: L -/
theorem frontLen_mod {n : ℕ} (h : n < numPieces size) : frontLen size n % 64 = 0 := by
  rw [frontLen_of_lt h]
  unfold MAX_PIECE_LEN
  omega

/-! ### The first piece that is missing -/

/-- The loop stops at the first missing piece. Source: `ChunkDownload::updateHash`. Kind: L -/
theorem firstMissing_spec (pieces : BitSet (numPieces size)) (fuel n : ℕ)
    (h : n + fuel = numPieces size) :
    let nn := ChunkDownload.firstMissing pieces n fuel
    n ≤ nn ∧ nn ≤ numPieces size ∧ (∀ q, n ≤ q → q < nn → pieces.get q = true) ∧
      pieces.get nn = false := by
  induction fuel generalizing n with
  | zero =>
    refine ⟨le_rfl, ?_, fun q h1 h2 => absurd h1 (not_le.mpr h2), ?_⟩
    · exact le_of_eq h
    · exact pieces.get_of_le (le_of_eq h.symm)
  | succ fuel ih =>
    unfold ChunkDownload.firstMissing
    by_cases hn : pieces.get n = true
    · rw [if_pos hn]
      obtain ⟨h1, h2, h3, h4⟩ := ih (n + 1) (by omega)
      refine ⟨by omega, h2, fun q hq1 hq2 => ?_, h4⟩
      rcases Nat.eq_or_lt_of_le hq1 with rfl | hq
      · exact hn
      · exact h3 q hq hq2
    · rw [if_neg hn]
      exact ⟨le_rfl, by omega, fun q h1 h2 => absurd h1 (not_le.mpr h2), Bool.eq_false_iff.mpr hn⟩

/-! ### Feeding the generator -/

/-- **What the generator of a download holds**: it has been fed the bytes `hashed`, which are those of
the first `num_pieces_in_hash` pieces in memory. Kind: D -/
structure Hashed (cd : ChunkDownload size) (m : Mem) : Prop where
  /-- As many pieces are counted as are marked. -/
  count : cd.num_downloaded = cd.pieces.numOnBits
  le : cd.num_pieces_in_hash ≤ numPieces size
  front : ∀ q < cd.num_pieces_in_hash, cd.pieces.get q = true
  absorbs : Absorbs cd.hash_gen cd.hashed
  hashed : cd.hashed = slice m 0 (frontLen size cd.num_pieces_in_hash)

/-- A download begins with nothing hashed. Source: `torrent/chunkdownload.cpp`. Kind: L -/
theorem hashed_new (size : ℕ) (m : Mem) : Hashed (ChunkDownload.new size) m where
  count := by
    show 0 = (BitSet.empty _).numOnBits
    rw [BitSet.numOnBits_empty]
  le := Nat.zero_le _
  front q hq := absurd hq (Nat.not_lt_zero q)
  absorbs := absorbs_start
  hashed := by
    show [] = slice m 0 (frontLen size 0)
    rw [frontLen_zero, slice_zero]

/-- Only the front that has been hashed matters. Source: none: infrastructure. Kind: L -/
theorem Hashed.congr {cd : ChunkDownload size} {m m' : Mem} (h : Hashed cd m)
    (hm : ∀ x < frontLen size cd.num_pieces_in_hash, m' x = m x) : Hashed cd m' := by
  refine ⟨h.count, h.le, h.front, h.absorbs, h.hashed.trans ?_⟩
  rw [slice_eq_slice_iff]
  intro x hx
  rw [Nat.zero_add]
  exact (hm x hx).symm

/-- The loop of `updateHash`, whatever the memory: the bytes fed are the pieces read.
Source: `torrent/chunkdownload.cpp`. Kind: L -/
theorem feed_pieces (mem : Mem) {n nn : ℕ} (hle : n ≤ nn) (hnn : nn ≤ numPieces size)
    {g : SHA1HashGen} {bs : List UInt8} (hg : Absorbs g bs) (hlen : bs.length = frontLen size n) :
    let feed := fun i (g : SHA1HashGen) => g.update (slice mem (i * MAX_PIECE_LEN) (pieceLen size i))
    let keep := fun i (bs : List UInt8) => bs ++ slice mem (i * MAX_PIECE_LEN) (pieceLen size i)
    Absorbs (forRange n nn feed g) (forRange n nn keep bs) ∧
      forRange n nn keep bs =
        bs ++ slice mem (frontLen size n) (frontLen size nn - frontLen size n) := by
  intro feed keep
  induction hk : nn - n generalizing n g bs with
  | zero =>
    obtain rfl : n = nn := by omega
    rw [forRange_of_le le_rfl, forRange_of_le le_rfl, Nat.sub_self, slice_zero, List.append_nil]
    exact ⟨hg, rfl⟩
  | succ k ih =>
    have hlt : n < numPieces size := by omega
    have hg' : Absorbs (feed n g) (keep n bs) :=
      absorbs_update hg (by rw [hlen]; exact frontLen_mod hlt) _
    have hlen' : (keep n bs).length = frontLen size (n + 1) := by
      show (bs ++ _).length = _
      rw [List.length_append, length_slice, hlen, frontLen_succ hlt, frontLen_of_lt hlt]
    have hn : n < nn := by omega
    rw [forRange_of_lt hn feed, forRange_of_lt hn keep]
    obtain ⟨h1, h2⟩ := ih (by omega) hg' hlen' (by omega)
    refine ⟨h1, h2.trans ?_⟩
    have hmono : frontLen size (n + 1) ≤ frontLen size nn := frontLen_mono size (by omega)
    have hsplit : slice mem (frontLen size n) (pieceLen size n) ++
        slice mem (frontLen size n + pieceLen size n) (frontLen size nn - frontLen size (n + 1)) =
        slice mem (frontLen size n) (frontLen size nn - frontLen size n) := by
      rw [slice_append]
      congr 1
      rw [frontLen_succ hlt] at hmono ⊢
      rw [frontLen_of_lt hlt]
      omega
    show bs ++ slice mem (n * MAX_PIECE_LEN) (pieceLen size n) ++ _ = _
    rw [List.append_assoc, ← hsplit, frontLen_succ hlt, frontLen_of_lt hlt]

/-- **`updateHash` feeds the generator what it can.** It goes on from `num_pieces_in_hash` to the
first piece that is missing. Source: `ChunkDownload::updateHash`. Kind: P -/
theorem hashed_updateHash {cd : ChunkDownload size} {m mem : Mem} (h : Hashed cd m)
    (hsame : ∀ x < frontLen size cd.num_pieces_in_hash, mem x = m x) :
    Hashed (cd.updateHash mem) mem ∧
      cd.pieces.get (cd.updateHash mem).num_pieces_in_hash = false := by
  have hle := h.le
  obtain ⟨h1, h2, h3, h4⟩ := firstMissing_spec cd.pieces
    (numPieces size - cd.num_pieces_in_hash) cd.num_pieces_in_hash (by omega)
  have hlen : cd.hashed.length = frontLen size cd.num_pieces_in_hash := by
    rw [h.hashed, length_slice]
  obtain ⟨h5, h6⟩ := feed_pieces mem h1 h2 h.absorbs hlen
  have hmem : cd.hashed = slice mem 0 (frontLen size cd.num_pieces_in_hash) := by
    rw [h.hashed, slice_eq_slice_iff]
    intro x hx
    rw [Nat.zero_add]
    exact (hsame x hx).symm
  refine ⟨⟨h.count, h2, fun q hq => ?_, h5, h6.trans ?_⟩, h4⟩
  · by_cases hq' : q < cd.num_pieces_in_hash
    · exact h.front q hq'
    · exact h3 q (not_lt.mp hq') hq
  · have hmono := frontLen_mono size h1
    have happ := slice_append mem 0 (frontLen size cd.num_pieces_in_hash)
      (frontLen size (ChunkDownload.firstMissing cd.pieces cd.num_pieces_in_hash
        (numPieces size - cd.num_pieces_in_hash)) - frontLen size cd.num_pieces_in_hash)
    rw [Nat.zero_add, Nat.add_sub_cancel' hmono] at happ
    rw [hmem]
    exact happ

/-- When all pieces are counted, none is missing. Source: `torrent/chunkdownload.cpp`. Kind: L -/
theorem hashed_complete {cd : ChunkDownload size} {m : Mem} (h : Hashed cd m)
    (hmiss : cd.pieces.get cd.num_pieces_in_hash = false)
    (hall : cd.num_downloaded ≥ numPieces size) : cd.hashed = slice m 0 size := by
  have hn : cd.num_pieces_in_hash = numPieces size := by
    by_contra hne
    have hlt : cd.num_pieces_in_hash < numPieces size := lt_of_le_of_ne h.le hne
    have hget := cd.pieces.get_of_numOnBits (h.count ▸ hall) hlt
    exact absurd (hmiss.symm.trans hget) (by decide)
  rw [h.hashed, hn, frontLen_numPieces]

/-! ### A whole call of `piece` -/

/-- What a call must not bring to a chunk that is hashed continuously, besides bytes outside it: a
piece with a number the chunk does not have, which would be counted. Kind: D -/
def Fits (size : ℕ) (p : Piece) : Prop :=
  (∀ x, p.off ≤ x → x < p.off + p.len → x < size) ∧
    (numPieces size > 64 → p.off / MAX_PIECE_LEN < numPieces size)

/-- **The arrival of a piece in a chunk that is hashed continuously.** The front that has been
hashed is never written again, for the piece that arrives lies behind it, and so does all it may
write. Source: `ChunkDownload::piece`. Kind: P -/
theorem hashed_piece {cd : ChunkDownload size} {mem : Mem} {p : Piece} (h : Hashed cd mem)
    (hsize : size < 2 ^ 32) (hcont : cd.usingContinuousHashing = true) (hfits : Fits size p)
    (hnew : cd.pieces.get (p.off / MAX_PIECE_LEN) = false) :
    ((cd.piece (some mem) p).complete = false →
        Hashed (cd.piece (some mem) p).cd (blit mem p.off p.data)) ∧
      ((cd.piece (some mem) p).complete = true →
        (cd.piece (some mem) p).cd.hashed = slice (blit mem p.off p.data) 0 size ∧
        (cd.piece (some mem) p).cd.getHash = generate (cd.piece (some mem) p).cd.hashed) := by
  have hpp : p.off / MAX_PIECE_LEN < numPieces size := by
    refine hfits.2 ?_
    simpa [ChunkDownload.usingContinuousHashing] using hcont
  obtain ⟨cd₀, h₀⟩ : ∃ cd₀ : ChunkDownload size, cd₀ = { cd with
    pieces := cd.pieces.set (p.off / MAX_PIECE_LEN) true
    num_downloaded := cd.num_downloaded + 1 } := ⟨_, rfl⟩
  have hh₀ : Hashed cd₀ mem := by
    rw [h₀]
    refine ⟨?_, h.le, fun q hq => ?_, h.absorbs, h.hashed⟩
    · show cd.num_downloaded + 1 = _
      rw [BitSet.numOnBits_set _ hpp hnew, h.count]
    · show (cd.pieces.set _ true).get q = true
      rw [BitSet.get_set]
      split_ifs
      · rfl
      · exact h.front q hq
  -- the piece lies behind the front
  have hbehind : frontLen size cd₀.num_pieces_in_hash ≤ p.off := by
    have hle : cd.num_pieces_in_hash ≤ p.off / MAX_PIECE_LEN := by
      by_contra hlt
      exact absurd ((h.front _ (not_le.mp hlt)).symm.trans hnew) (by decide)
    have h1 := Nat.mul_le_mul_right MAX_PIECE_LEN hle
    have h2 : p.off / MAX_PIECE_LEN * MAX_PIECE_LEN ≤ p.off := Nat.div_mul_le_self _ _
    have h3 : frontLen size cd.num_pieces_in_hash ≤ cd.num_pieces_in_hash * MAX_PIECE_LEN :=
      min_le_left _ _
    rw [h₀]
    show frontLen size cd.num_pieces_in_hash ≤ p.off
    omega
  have hsame : ∀ x < frontLen size cd₀.num_pieces_in_hash, blit mem p.off p.data x = mem x :=
    fun x hx => blit_of_not_mem mem (by omega)
  obtain ⟨h1, h2⟩ := hashed_updateHash hh₀ hsame
  have hpiece : cd.piece (some mem) p =
      if cd.num_downloaded + 1 ≥ numPieces size then
        ⟨{ cd₀.updateHash (blit mem p.off p.data) with
          hash_gen := (cd₀.updateHash (blit mem p.off p.data)).hash_gen.finish }, true, true,
          some (p.off, p.data)⟩
      else ⟨cd₀.updateHash (blit mem p.off p.data), true, false, some (p.off, p.data)⟩ := by
    have hcont' : ∀ c : ChunkDownload size, c.usingContinuousHashing = true := fun _ => hcont
    unfold ChunkDownload.piece
    simp only [hnew, Bool.false_eq_true, if_false, hcont', if_true, ← h₀]
    rw [h₀]
    rfl
  rw [hpiece]
  split_ifs with hall
  · refine ⟨fun hc => absurd hc (by simp), fun _ => ?_⟩
    have hfull : (cd₀.updateHash (blit mem p.off p.data)).hashed =
        slice (blit mem p.off p.data) 0 size := by
      refine hashed_complete h1 h2 ?_
      rw [h₀]
      exact hall
    refine ⟨hfull, get_finish h1.absorbs ?_⟩
    rw [hfull, length_slice]
    exact hsize
  · exact ⟨fun _ => h1, fun hc => absurd hc (by simp)⟩

end KTorrent.Transfer
