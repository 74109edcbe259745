import KTorrent.Transfer.Steadfast

/-!
# Only verified data becomes owned

* `Steady` — what an arrival, an idle save, a re-preparation or a new download must not meet, and
  `steadfast_step`, that it then keeps what has been hashed in place.
* `verified_run` — whatever chunk is completed in a steady run is verified: the bytes stored are the
  bytes whose hash was compared, and the hash is the torrent's.
* `remapped_chunk` — a chunk of 65 pieces that leaves memory after its first piece and cannot be
  mapped again: what is hashed is not what is stored.

Source: `torrent/downloader.cpp`, `torrent/chunkdownload.cpp`
-/

namespace KTorrent.Transfer

open KTorrent.Lib KTorrent.Util KTorrent.Storage ChunkManager

namespace Downloader

variable {L : Layout}

/-! ### Steady runs -/

/-- **What an event must not meet**: see `SteadyPiece` and `SteadyReload`. The interleavings are those
of arrivals, idle saves, re-preparations and new downloads; other events are no part of them.
Kind: D -/
def Steady (d : Downloader L) : Event L → Prop
  | .piece env _ p => SteadyPiece d env p
  | .idle _ _ => True
  | .assign os i => SteadyReload d os i
  | .downloadFrom _ _ => True
  | _ => False

/-- **Each event keeps what has been hashed in place.**. Source: `torrent/downloader.cpp`,
`torrent/chunkdownload.cpp`. Kind: P -/
theorem steadfast_step (d : Downloader L) (e : Event L) (h : Steadfast d) (hok : Steady d e) :
    Steadfast (d.step e) := by
  cases e with
  | piece env is_idle p => exact (h.pieceRecieved hok is_idle).1
  | idle os i =>
    show Steadfast (d.idle os i)
    unfold Downloader.idle
    split_ifs
    · exact h.saveIdle os i
    · exact h
  | assign os i =>
    show Steadfast (d.assign os i)
    unfold Downloader.assign
    split_ifs
    · exact h.reload hok
    · exact h
  | downloadFrom env hasChunk => exact h.downloadFrom env hasChunk
  | setDoNotDownload env k dnd => exact hok.elim
  | grabChunk env size now i => exact hok.elim
  | resetChunk os i => exact hok.elim
  | saveChunk os i update_index => exact hok.elim

/-- A chunk that has never been in memory. Kind: D -/
structure Unloaded (i : Fin L.numChunks) (c : Chunk) : Prop where
  index : c.index = i
  size : c.size = sizeOf i
  wanted : c.priority ≠ .excluded
  data : c.data = .null
  status : c.status = .onDisk ∨ c.status = .notDownloaded

/-- A chunk that is not loaded is in place. Source: `torrent/downloader.cpp`,
`torrent/chunkdownload.cpp`. Kind: L -/
theorem Unloaded.placed {i : Fin L.numChunks} {c : Chunk} (h : Unloaded i c) : Placed i c := by
  refine ⟨h.index, h.size, h.wanted, fun hs => ?_, fun hs => ?_, fun _ => h.data⟩
  · rcases h.status with h1 | h1 <;> exact absurd (h1.symm.trans hs) (by decide)
  · rcases h.status with h1 | h1 <;> exact absurd (h1.symm.trans hs) (by decide)

/-- A new manager has loaded nothing. Source: `ChunkManager::ChunkManager`. Kind: L -/
theorem unloaded_construct (L : Layout) (env₀ : Env) (saved : Saved) (i : Fin L.numChunks) :
    Unloaded i ((construct L env₀ (fun _ => {}) saved).chunks i) := by
  refine construct_induction (P := fun s : ChunkManager L => ∀ i, Unloaded i (s.chunks i))
    (fun i => ⟨rfl, rfl, by simp [base], rfl, Or.inr rfl⟩) (fun s a b h i => ?_) i
  have h1 := s.cell_prioritise i a b .preview
  obtain ⟨k1, k2, k3, k4, k5⟩ := h i
  rw [← cell_chunk, h1]
  split_ifs
  · exact ⟨k1, k2, by simp [Cell.prioritise], k4, k5⟩
  · exact ⟨k1, k2, k3, k4, k5⟩

/-- A torrent starts steadfast. Source: `torrent/downloader.cpp`, `torrent/chunkdownload.cpp`.
Kind: L -/
theorem steadfast_start (L : Layout) (env₀ env : Env) (cache : Cache) (index_file : List ℕ)
    (shuffle : List ℕ → List ℕ) :
    Steadfast (start L env₀ env cache index_file shuffle) := by
  have hload : ∀ i, Unloaded i ((start L env₀ env cache index_file shuffle).cman.chunks i) := by
    refine loadIndexFile_cells (fresh_construct L env₀ cache index_file) env
      (Q := fun i c => Unloaded i c.chunk) (unloaded_construct L env₀ _) fun t index ht i => ?_
    obtain ⟨k1, k2, k3, k4, k5⟩ := ht i
    unfold loadHeader
    split_ifs
    · rw [cell_modifyChunk]
      split_ifs
      · exact ⟨k1, k2, k3, k4, Or.inl rfl⟩
      · exact ⟨k1, k2, k3, k4, k5⟩
    · exact ⟨k1, k2, k3, k4, k5⟩
  exact ⟨fun i => (hload i).placed, fun i cd hcd => by cases hcd⟩

/-- **Only verified data becomes owned**: whatever a steady run completes is verified, at whichever
of its events. Source: `torrent/downloader.cpp`, `torrent/chunkdownload.cpp`. Kind: P -/
theorem verified_run (L : Layout) (env₀ env : Env) (cache : Cache) (index_file : List ℕ)
    (shuffle : List ℕ → List ℕ) (events : List (Event L))
    (hok : Meets step Steady (start L env₀ env cache index_file shuffle) events) :
    ∀ pre env' is_idle p, pre ++ [.piece env' is_idle p] <+: events →
      CompletesVerified env' p (run step (start L env₀ env cache index_file shuffle) pre) := by
  intro pre env' is_idle p hpre
  obtain ⟨h1, h2, -⟩ := meets_append.mp (hok.restrict hpre)
  have hs := h1.invariant steadfast_step (steadfast_start L env₀ env cache index_file shuffle)
  exact (hs.pieceRecieved h2 is_idle).2

/-- One chunk of sixteen bytes, each of them 1. Kind: D -/
def onesLayout : Layout where
  name := []
  piece_length := 16
  file_length := 16
  files := []
  hash_pieces := [generate (List.replicate 16 1)]
  multimedia := false
  piece_pos := by decide
  piece_lt := by decide
  length_lt := by decide
  tiles := by simp
  hashes := rfl
  chunks_lt := by decide

/-- Its chunk. Kind: D -/
def onesChunk : Fin onesLayout.numChunks := ⟨0, by decide⟩

/-- The chunk arrives in one piece. Kind: D -/
def wholePiece : Piece := ⟨0, 0, 7, List.replicate 16 1⟩

/-- A download begins, and its chunk leaves memory twice: it is mapped again, and then it is not.
Kind: D -/
def idleRun : List (Event onesLayout) :=
  [.downloadFrom {} fun _ => true, .idle {} onesChunk, .assign {} onesChunk, .idle {} onesChunk,
    .assign { maps := false } onesChunk]

/-- The chunk is completed after that, and becomes owned. Source: `torrent/downloader.cpp`,
`torrent/chunkdownload.cpp`. Kind: L -/
theorem verified_wholePiece :
    let d := run step (start onesLayout {} { word := 1 } ⟨fun _ => 0, 0⟩ [] id) idleRun
    (d.cman.chunks onesChunk).status = .buffered ∧
      (d.step (.piece {} false wholePiece)).cman.bitset.get onesChunk = true ∧
      CompletesVerified {} wholePiece d := by
  have hcont : ∀ (i : Fin onesLayout.numChunks) (c : ChunkDownload (sizeOf i)),
      c.usingContinuousHashing = true → False := by
    intro i c hc
    obtain rfl : i = onesChunk := Fin.ext (Nat.lt_one_iff.mp i.2)
    cases hc
  have hok : Meets step Steady (start onesLayout {} { word := 1 } ⟨fun _ => 0, 0⟩ [] id)
      (idleRun ++ [.piece {} false wholePiece]) := by
    have hreload : ∀ (d : Downloader onesLayout) (os : Os), SteadyReload d os onesChunk :=
      fun _ _ _ c _ hc => (hcont onesChunk c hc).elim
    refine meets_append.mpr ⟨?_, ?_⟩
    · exact meets_cons.mpr ⟨trivial, meets_cons.mpr ⟨trivial, meets_cons.mpr ⟨hreload _ _,
        meets_cons.mpr ⟨trivial, meets_cons.mpr ⟨hreload _ _, trivial⟩⟩⟩⟩⟩
    · refine meets_cons.mpr ⟨fun i cd _ _ => ⟨fun _ c _ hc => (hcont i c hc).elim, fun _ _ => ?_⟩,
        trivial⟩
      obtain rfl : i = onesChunk := Fin.ext (Nat.lt_one_iff.mp i.2)
      exact ⟨fun x _ hx => hx, fun h => absurd h (by decide)⟩
  refine ⟨by decide +kernel, by decide +kernel, ?_⟩
  exact verified_run onesLayout {} { word := 1 } ⟨fun _ => 0, 0⟩ [] id _ hok idleRun {} false
    wholePiece List.prefix_rfl

/-! ### A chunk that cannot be mapped again -/

/-- The first `k` pieces have arrived, in order, and each byte was 1. Kind: D -/
structure Ones {size : ℕ} (k : ℕ) (cd : ChunkDownload size) : Prop where
  pieces : ∀ q, cd.pieces.get q = decide (q < k)
  num_downloaded : cd.num_downloaded = k
  num_pieces_in_hash : cd.num_pieces_in_hash = k
  hashed : cd.hashed = List.replicate (frontLen size k) 1
  absorbs : Absorbs cd.hash_gen cd.hashed

/-- The piece that comes next. Kind: D -/
def onesPiece (index size k : ℕ) : Piece :=
  ⟨index, k * MAX_PIECE_LEN, 7, List.replicate (pieceLen size k) 1⟩

/-- The sample's download has nothing. Source: `torrent/downloader.cpp`,
`torrent/chunkdownload.cpp`. Kind: L -/
theorem ones_new (size : ℕ) : Ones 0 (ChunkDownload.new size) where
  pieces q := by simp [ChunkDownload.new]
  num_downloaded := rfl
  num_pieces_in_hash := rfl
  hashed := by
    rw [frontLen_zero]
    rfl
  absorbs := absorbs_start

/-- **The next piece arrives**, whatever else is in memory. Source: `ChunkDownload::piece`.
Kind: L -/
theorem ones_piece {size k : ℕ} (index : ℕ) {cd : ChunkDownload size} (h : Ones k cd)
    (hk : k < numPieces size) (hcont : cd.usingContinuousHashing = true) (hsize : size < 2 ^ 32)
    (mem : Mem) : let a := cd.piece (some mem) (onesPiece index size k)
    a.copied = some (k * MAX_PIECE_LEN, List.replicate (pieceLen size k) 1) ∧
      (k + 1 < numPieces size → a.complete = false ∧ Ones (k + 1) a.cd) ∧
      (k + 1 = numPieces size → a.complete = true ∧ a.cd.hashed = List.replicate size 1 ∧
        a.cd.getHash = generate a.cd.hashed) := by
  intro a
  have hdiv : (onesPiece index size k).off / MAX_PIECE_LEN = k :=
    Nat.mul_div_cancel k (by decide)
  have hget : cd.pieces.get k = false := by
    rw [h.pieces]
    simp
  obtain ⟨m, hm⟩ : ∃ m, m = blit mem (onesPiece index size k).off (onesPiece index size k).data :=
    ⟨_, rfl⟩
  obtain ⟨cd₀, h₀⟩ : ∃ cd₀ : ChunkDownload size, cd₀ = { cd with
    pieces := cd.pieces.set k true
    num_downloaded := cd.num_downloaded + 1 } := ⟨_, rfl⟩
  have hpieces : ∀ q, cd₀.pieces.get q = decide (q < k + 1) := by
    intro q
    rw [h₀]
    show (cd.pieces.set k true).get q = _
    rw [BitSet.get_set, h.pieces]
    split_ifs with hq
    · simp [hq.1]
    · have hne : q ≠ k := fun h' => hq ⟨h', hk⟩
      refine decide_eq_decide.mpr ⟨fun h' => by omega, fun h' => by omega⟩
  have hn : cd₀.num_pieces_in_hash = k := by
    rw [h₀]
    exact h.num_pieces_in_hash
  -- the generator goes on by this piece and no further
  have hmiss : ChunkDownload.firstMissing cd₀.pieces k (numPieces size - k) = k + 1 := by
    obtain ⟨h1, h2, h3, h4⟩ := firstMissing_spec cd₀.pieces (numPieces size - k) k (by omega)
    rw [hpieces] at h4
    refine le_antisymm ?_ ?_
    · by_contra hlt
      have h5 := h3 (k + 1) (by omega) (by omega)
      rw [hpieces] at h5
      exact absurd h5 (by simp)
    · have h6 : ¬ ChunkDownload.firstMissing cd₀.pieces k (numPieces size - k) < k + 1 := by
        simpa using h4
      omega
  have hfeed := feed_pieces m (Nat.le_succ k) hk h.absorbs
    (by rw [h.hashed, List.length_replicate])
  obtain ⟨cd₁, h₁⟩ : ∃ cd₁, cd₁ = cd₀.updateHash m := ⟨_, rfl⟩
  have hread : slice m (frontLen size k) (frontLen size (k + 1) - frontLen size k) =
      List.replicate (pieceLen size k) 1 := by
    have hlen : frontLen size (k + 1) - frontLen size k = pieceLen size k := by
      rw [frontLen_succ hk, frontLen_of_lt hk]
      omega
    have hself := slice_blit_self mem (onesPiece index size k).off (onesPiece index size k).data
    rw [hlen, frontLen_of_lt hk, hm]
    simpa [onesPiece] using hself
  have hones : Ones (k + 1) cd₁ := by
    have hupd : cd₁.num_pieces_in_hash = k + 1 ∧
        cd₁.hash_gen = forRange k (k + 1) (fun i g =>
          g.update (slice m (i * MAX_PIECE_LEN) (pieceLen size i))) cd.hash_gen ∧
        cd₁.hashed = forRange k (k + 1) (fun i bs =>
          bs ++ slice m (i * MAX_PIECE_LEN) (pieceLen size i)) cd.hashed := by
      rw [h₁]
      unfold ChunkDownload.updateHash
      simp only [hn, hmiss, true_and]
      rw [h₀]
      exact ⟨rfl, rfl⟩
    obtain ⟨u1, u2, u3⟩ := hupd
    refine ⟨fun q => ?_, ?_, u1, ?_, ?_⟩
    · rw [h₁]
      exact hpieces q
    · rw [h₁, h₀]
      exact congrArg (· + 1) h.num_downloaded
    · rw [u3, hfeed.2, hread, h.hashed, List.replicate_append_replicate, frontLen_succ hk,
        frontLen_of_lt hk]
    · rw [u2, u3]
      exact hfeed.1
  have ha : a = if k + 1 ≥ numPieces size then
        ⟨{ cd₁ with hash_gen := cd₁.hash_gen.finish }, true, true,
          some (k * MAX_PIECE_LEN, List.replicate (pieceLen size k) 1)⟩
      else ⟨cd₁, true, false, some (k * MAX_PIECE_LEN, List.replicate (pieceLen size k) 1)⟩ := by
    have hcont' : ∀ c : ChunkDownload size, c.usingContinuousHashing = true := fun _ => hcont
    show cd.piece (some mem) (onesPiece index size k) = _
    unfold ChunkDownload.piece
    simp only [hdiv, hget, Bool.false_eq_true, if_false, hcont', if_true, ← hm, ← h₀, ← h₁]
    have hnum : cd₁.num_downloaded = k + 1 := hones.num_downloaded
    rw [hnum]
    rfl
  refine ⟨?_, fun hlt => ?_, fun heq => ?_⟩
  · rw [ha]
    split_ifs <;> rfl
  · rw [ha, if_neg (by omega)]
    exact ⟨rfl, hones⟩
  · rw [ha, if_pos (by omega)]
    have hfull : cd₁.hashed = List.replicate size 1 := by
      rw [hones.hashed, heq, frontLen_numPieces]
    refine ⟨rfl, hfull, get_finish hones.absorbs ?_⟩
    rw [hfull, List.length_replicate]
    exact hsize

/-- Until something is owned, the torrent is not complete. Source: `Downloader::pieceRecieved`.
Kind: L -/
theorem addressee_eq {d : Downloader L} (hbits : ∀ j, d.cman.bitset.get j = false)
    {i : Fin L.numChunks} {p : Piece} (hp : p.index = i) (hd : (d.current_chunks i).isSome = true) :
    d.addressee p = some i := by
  have hempty : d.cman.bitset = .empty _ := BitSet.ext_get fun j _ => by rw [hbits, BitSet.get_empty]
  have hnot : d.cman.completed = false := by
    unfold ChunkManager.completed
    rw [hempty, BitSet.numOnBits_empty]
    simp
  obtain ⟨index, off, peer, data⟩ := p
  obtain rfl : index = i := hp
  unfold Downloader.addressee
  rw [hnot, if_neg Bool.false_ne_true]
  exact (dif_pos i.2).trans (if_pos hd)

/-- A piece that does not complete its chunk. Source: `Downloader::pieceRecieved`. Kind: L -/
theorem pieceRecieved_eq {d : Downloader L} {env : Env} {p : Piece} {i : Fin L.numChunks}
    {cd : ChunkDownload (sizeOf i)} (ha : d.addressee p = some i)
    (hcd : d.current_chunks i = some cd) (hs : (d.cman.chunks i).status ≠ .onDisk)
    (hn : (d.arrival i cd p).complete = false) (is_idle : Bool) :
    d.pieceRecieved env is_idle p =
      if is_idle then (d.keepArrival i (d.arrival i cd p)).saveIdle env.file i
      else d.keepArrival i (d.arrival i cd p) := by
  have hr : d.reload (env.chunk i) i = d := if_neg hs
  unfold Downloader.pieceRecieved
  simp only [ha, hcd, hr]
  rw [if_neg (by simp [hn])]

/-- The hash of the data. Kind: D -/
def onesHash : SHA1Hash := generate (List.replicate 1048577 1)

/-- One chunk of 64 pieces and a byte, each byte of it 1. Kind: D -/
def longLayout : Layout where
  name := []
  piece_length := 1048577
  file_length := 1048577
  files := []
  hash_pieces := [onesHash]
  multimedia := false
  piece_pos := by decide
  piece_lt := by decide
  length_lt := by decide
  tiles := by simp
  hashes := rfl
  chunks_lt := by decide

/-- Its chunk. Kind: D -/
def longChunk : Fin longLayout.numChunks := ⟨0, by decide⟩

/-- The sample's chunk is one byte longer than a megabyte. Source: `torrent/downloader.cpp`,
`torrent/chunkdownload.cpp`. Kind: L -/
theorem sizeOf_longChunk : sizeOf longChunk = 1048577 := rfl

/-- The torrent as it starts. Kind: D -/
def startLong : Downloader longLayout :=
  start longLayout {} { word := 1 } ⟨fun _ => 0, 0⟩ [] id

/-- The `k`th piece of the data. Kind: D -/
def longPiece (k : ℕ) : Piece := onesPiece 0 (sizeOf longChunk) k

/-- After the first piece the chunk leaves memory; when it comes back, it cannot be mapped. The other
pieces follow. Kind: D -/
def remapRun (n : ℕ) : List (Event longLayout) :=
  [.downloadFrom {} fun _ => true, .piece {} true (longPiece 0), .assign { maps := false } longChunk] ++
    (List.range' 1 n).map fun k => .piece {} false (longPiece k)

/-- The state after the remapping: a buffer that has lost the first piece. Kind: D -/
structure Remapped (k : ℕ) (d : Downloader longLayout) : Prop where
  current : ∃ cd, d.current_chunks longChunk = some cd ∧ Ones k cd
  placed : Placed longChunk (d.cman.chunks longChunk)
  buffer : ∃ m, (d.cman.chunks longChunk).data = .heap m ∧ m 0 = 0
  owned : ∀ j, d.cman.bitset.get j = false

/-- The chunk of the sample is in a buffer. Source: `torrent/downloader.cpp`,
`torrent/chunkdownload.cpp`. Kind: L -/
theorem Remapped.status {k : ℕ} {d : Downloader longLayout} (h : Remapped k d) :
    (d.cman.chunks longChunk).status = .buffered := by
  obtain ⟨m, hm, -⟩ := h.buffer
  rcases h.placed.status_of_data (by rw [hm]; rfl) with hs | hs
  · rw [h.placed.mapped hs] at hm
    cases hm
  · exact hs

/-- What a piece leaves of a remapped chunk. Source: `Downloader::pieceRecieved`. Kind: L -/
theorem Remapped.arrival {k : ℕ} {d : Downloader longLayout} (h : Remapped k d) (hk : 0 < k)
    {cd : ChunkDownload (sizeOf longChunk)} (hones : Ones k cd)
    (hlt : k < numPieces (sizeOf longChunk)) :
    let d' := d.keepArrival longChunk (d.arrival longChunk cd (longPiece k))
    Placed longChunk (d'.cman.chunks longChunk) ∧
      (∃ m, (d'.cman.chunks longChunk).data = .heap m ∧ m 0 = 0) ∧
      (∀ j, d'.cman.bitset.get j = false) := by
  intro d'
  obtain ⟨m, hm, hm0⟩ := h.buffer
  have hnull : (d.cman.chunks longChunk).data.isNull = false := by
    rw [hm]
    rfl
  have hcopied := (ones_piece 0 hones hlt rfl (sizeOf_lt _)
    (content d.cman longChunk)).1
  have harr : d.arrival longChunk cd (longPiece k) =
      cd.piece (some (content d.cman longChunk)) (longPiece k) := by
    unfold Downloader.arrival
    rw [memory_eq h.placed, if_neg (by simp [hnull])]
  have hman : d'.cman = copyInto longChunk (k * MAX_PIECE_LEN)
      (List.replicate (pieceLen (sizeOf longChunk) k) 1) d.cman := by
    show (d.keepArrival longChunk (d.arrival longChunk cd (longPiece k))).cman = _
    rw [harr]
    unfold Downloader.keepArrival
    rw [show (cd.piece (some (content d.cman longChunk)) (longPiece k)).copied = _ from hcopied]
  obtain ⟨hp, -, -⟩ := copyInto_spec h.placed hnull (k * MAX_PIECE_LEN)
    (List.replicate (pieceLen (sizeOf longChunk) k) 1)
  rw [hman]
  refine ⟨hp, ⟨blit m (k * MAX_PIECE_LEN) (List.replicate (pieceLen (sizeOf longChunk) k) 1), ?_, ?_⟩,
    fun j => ?_⟩
  · unfold copyInto
    rw [hm]
    simp
  · have hoff : 0 < k * MAX_PIECE_LEN := Nat.mul_pos hk (by decide)
    rw [blit_of_not_mem m (Or.inl hoff)]
    exact hm0
  · unfold copyInto
    rw [hm]
    exact h.owned j

/-- The pieces of the sample go to its download. Source: `Downloader::pieceRecieved`. Kind: L -/
theorem Remapped.addressee {k : ℕ} {d : Downloader longLayout} (h : Remapped k d) (n : ℕ) :
    d.addressee (longPiece n) = some longChunk := by
  obtain ⟨cd, hcd, -⟩ := h.current
  exact addressee_eq h.owned rfl (by simp [hcd])

/-- One more piece in the buffer. Source: `torrent/downloader.cpp`, `torrent/chunkdownload.cpp`.
Kind: L -/
theorem Remapped.next {k : ℕ} {d : Downloader longLayout} (h : Remapped k d) (hk : 0 < k)
    (hlt : k + 1 < numPieces (sizeOf longChunk)) :
    Remapped (k + 1) (d.step (.piece {} false (longPiece k))) := by
  obtain ⟨cd, hcd, hones⟩ := h.current
  obtain ⟨hp, hbuf, hown⟩ := h.arrival hk hones (by omega)
  obtain ⟨m, hm, -⟩ := h.buffer
  have harr : d.arrival longChunk cd (longPiece k) =
      cd.piece (some (content d.cman longChunk)) (longPiece k) := by
    unfold Downloader.arrival
    rw [memory_eq h.placed, if_neg (by simp [hm, Data.isNull])]
  obtain ⟨hn, hones'⟩ := (ones_piece 0 hones (by omega) rfl (sizeOf_lt _)
    (content d.cman longChunk)).2.1 hlt
  have hstep : d.step (.piece {} false (longPiece k)) =
      d.keepArrival longChunk (d.arrival longChunk cd (longPiece k)) := by
    refine (pieceRecieved_eq (h.addressee k) hcd ?_ ?_ false).trans (if_neg Bool.false_ne_true)
    · rw [h.status]
      decide
    · rw [harr]
      exact hn
  rw [hstep]
  refine ⟨⟨_, current_chunks_keepArrival _ _, ?_⟩, hp, hbuf, hown⟩
  rw [harr]
  exact hones'

/-- Saving without the index, and preparing, leave the have-bits alone.
Source: `ChunkManager::saveChunk`. Kind: L -/
theorem bitset_saveChunk (s : ChunkManager L) (os : Os) (i : ℕ) :
    (s.saveChunk os i false).1.bitset = s.bitset := by
  unfold ChunkManager.saveChunk
  simp only [Bool.false_eq_true, if_false]
  split_ifs
  · rfl
  · rfl
  · rw [modifyChunk_frame]
  · rfl

/-- Preparing again leaves the bit set. Source: `Downloader::pieceRecieved`, `findDownloadForPD`.
Kind: L -/
theorem bitset_reload (os : Os) (i : Fin L.numChunks) (d : Downloader L) :
    (d.reload os i).cman.bitset = d.cman.bitset := by
  unfold Downloader.reload ChunkManager.prepareChunk
  split_ifs <;> rfl

/-- The chunk's first piece has arrived, and it has left memory. Kind: D -/
structure Away (d : Downloader longLayout) : Prop where
  current : ∃ cd, d.current_chunks longChunk = some cd ∧ Ones 1 cd
  placed : Placed longChunk (d.cman.chunks longChunk)
  status : (d.cman.chunks longChunk).status = .onDisk
  owned : ∀ j, d.cman.bitset.get j = false

/-- It comes back into memory without a mapping: its bytes are those of a new buffer.
Source: `torrent/downloader.cpp`, `torrent/chunkdownload.cpp`. Kind: L -/
theorem Away.remapped {d : Downloader longLayout} (h : Away d) :
    Remapped 1 (d.step (.assign { maps := false } longChunk)) := by
  obtain ⟨cd, hcd, hones⟩ := h.current
  have hstep : d.step (.assign { maps := false } longChunk) =
      d.reload { maps := false } longChunk := if_pos (by simp [hcd])
  have hchunk := chunks_reload { maps := false } longChunk d h.status
  have hprep : (d.cman.cache.prep longLayout.torrent { maps := false }
      (d.cman.chunks longChunk)).1 = (d.cman.chunks longChunk).allocate fun _ => 0 := by
    rcases prep_eq longLayout.torrent { maps := false } d.cman.cache (d.cman.chunks longChunk)
      with ⟨hm, -⟩ | ⟨-, hp⟩
    · exact absurd hm.2.1 (by decide)
    · exact hp
  rw [hstep]
  refine ⟨⟨cd, ?_, hones⟩, ?_, ⟨fun _ => 0, ?_, rfl⟩, fun j => ?_⟩
  · rw [current_chunks_reload]
    exact hcd
  · rw [hchunk]
    exact h.placed.prep _ _
  · rw [hchunk, hprep]
    rfl
  · rw [bitset_reload]
    exact h.owned j

/-- The download that begins. Source: `Downloader::downloadFrom`. Kind: L -/
theorem downloadFrom_current {d : Downloader L} {env : Env} {hasChunk : ℕ → Bool}
    {i : Fin L.numChunks}
    (hsel : (ChunkSelector.select d.cman hasChunk d.areWeDownloading d.selector).2 = some i.val)
    (hok : (d.cman.prepareChunk (env.chunk i) i false).2 = true) :
    (d.downloadFrom env hasChunk).current_chunks i = some (.new _) := by
  unfold Downloader.downloadFrom
  simp only [hsel]
  rw [dif_pos i.2, if_pos hok]
  exact Function.update_self _ _ _

/-- A piece that goes to the file leaves the chunks alone. Source: `Downloader::pieceRecieved`.
Kind: L -/
theorem keepArrival_mapped {d : Downloader L} {i : Fin L.numChunks}
    (hm : (d.cman.chunks i).data = .mapped) (off : ℕ) (bs : List UInt8)
    {a : ChunkDownload.Arrival (sizeOf i)} (hc : a.copied = some (off, bs)) :
    (d.keepArrival i a).cman.chunks = d.cman.chunks ∧
      (d.keepArrival i a).cman.bitset = d.cman.bitset := by
  unfold Downloader.keepArrival
  rw [hc]
  unfold copyInto
  rw [hm]
  exact ⟨rfl, rfl⟩

/-- The chunk is mapped, and its download begins. Kind: D -/
structure Begun (d : Downloader longLayout) : Prop where
  current : d.current_chunks longChunk = some (.new _)
  placed : Placed longChunk (d.cman.chunks longChunk)
  status : (d.cman.chunks longChunk).status = .mmapped
  owned : ∀ j, d.cman.bitset.get j = false

/-- What the sample's first event leaves. Source: `torrent/downloader.cpp`,
`torrent/chunkdownload.cpp`. Kind: L -/
theorem begun_start : Begun (startLong.step (.downloadFrom {} fun _ => true)) where
  current := by
    have hsel : (ChunkSelector.select startLong.cman (fun _ => true) startLong.areWeDownloading
        startLong.selector).2 = some longChunk.val := rfl
    have hok : (startLong.cman.prepareChunk {} longChunk false).2 = true := rfl
    exact downloadFrom_current hsel hok
  placed := (steadfast_step startLong (.downloadFrom {} fun _ => true)
    (steadfast_start _ _ _ _ _ _) trivial).placed longChunk
  status := rfl
  owned j := by
    by_cases hj : j = 0
    · rw [hj]
      rfl
    · exact BitSet.get_of_le _ (Nat.one_le_iff_ne_zero.mpr hj)

/-- Its first piece arrives, and the chunk leaves memory. Source: `torrent/downloader.cpp`,
`torrent/chunkdownload.cpp`. Kind: L -/
theorem Begun.away {d₁ : Downloader longLayout} (h : Begun d₁) :
    Away (d₁.step (.piece {} true (longPiece 0))) := by
  obtain ⟨hcd, hp, hs, hown⟩ := h
  have hdata : (d₁.cman.chunks longChunk).data = .mapped := hp.mapped hs
  obtain ⟨a, ha⟩ : ∃ a, a = d₁.arrival longChunk (.new _) (longPiece 0) := ⟨_, rfl⟩
  have harr : a = ChunkDownload.piece (some (content d₁.cman longChunk)) (longPiece 0) (.new _) := by
    rw [ha]
    unfold Downloader.arrival
    rw [memory_eq hp, if_neg (by simp [hdata, Data.isNull])]
  obtain ⟨hcopied, hnext, -⟩ := ones_piece 0 (ones_new (sizeOf longChunk)) (by decide)
    rfl (sizeOf_lt _) (content d₁.cman longChunk)
  obtain ⟨hn, hones⟩ := hnext (by decide)
  have hkeep : (d₁.keepArrival longChunk a).cman.chunks = d₁.cman.chunks ∧
      (d₁.keepArrival longChunk a).cman.bitset = d₁.cman.bitset := by
    refine keepArrival_mapped hdata (0 * MAX_PIECE_LEN)
      (List.replicate (pieceLen (sizeOf longChunk) 0) 1) ?_
    rw [harr]
    exact hcopied
  obtain ⟨d₂, hd₂⟩ : ∃ d₂, d₂ = d₁.keepArrival longChunk a := ⟨_, rfl⟩
  rw [← hd₂] at hkeep
  have hp₂ : Placed longChunk (d₂.cman.chunks longChunk) := by
    rw [hkeep.1]
    exact hp
  have hstep : d₁.step (.piece {} true (longPiece 0)) =
      { d₂ with cman := (d₂.cman.saveChunk {} longChunk false).1 } := by
    have h1 : d₁.step (.piece {} true (longPiece 0)) = d₂.saveIdle {} longChunk := by
      rw [hd₂, ha]
      refine (pieceRecieved_eq (addressee_eq hown rfl (by simp [hcd])) hcd ?_ ?_ true).trans
        (if_pos rfl)
      · rw [hs]
        decide
      · rw [← ha, harr]
        exact hn
    rw [h1]
    exact if_pos (by rw [hkeep.1]; exact hs)
  have hchunk : (d₂.cman.saveChunk {} longChunk false).1.chunks longChunk =
      { (d₂.cman.chunks longChunk).clear with status := .onDisk } := by
    rw [(saveChunk_eq d₂.cman hp₂ {} false).1, Function.update_self]
    unfold Cache.save SingleFileCache.save
    rw [if_neg (by decide), hkeep.1, hs]
  rw [hstep]
  refine ⟨⟨a.cd, ?_, ?_⟩, placed_saveChunk hp₂ {} false, ?_, fun j => ?_⟩
  · rw [hd₂]
    show (d₁.keepArrival longChunk a).current_chunks longChunk = _
    exact current_chunks_keepArrival _ _
  · rw [harr]
    exact hones
  · show ((d₂.cman.saveChunk {} longChunk false).1.chunks longChunk).status = _
    rw [hchunk]
  · show (d₂.cman.saveChunk {} longChunk false).1.bitset.get j = false
    rw [bitset_saveChunk, hkeep.2]
    exact hown j

/-- All pieces but the last. Source: `torrent/downloader.cpp`, `torrent/chunkdownload.cpp`.
Kind: L -/
theorem remapped_run (n : ℕ) (hn : n + 1 < numPieces (sizeOf longChunk)) :
    Remapped (n + 1) (run step startLong (remapRun n)) := by
  induction n with
  | zero => exact begun_start.away.remapped
  | succ n ih =>
    have hrun : remapRun (n + 1) = remapRun n ++ [.piece {} false (longPiece (n + 1))] := by
      unfold remapRun
      rw [List.range'_concat, List.map_append, List.append_assoc]
      simp [Nat.add_comm]
    rw [hrun, run_append]
    exact (ih (by omega)).next (Nat.succ_pos n) hn

/-- **The last piece arrives**: the hash is right, the have-bit is set, and the first byte stored is
not the one that was hashed. Source: `torrent/downloader.cpp`, `torrent/chunkdownload.cpp`.
Kind: P -/
theorem remapped_chunk :
    ¬ CompletesVerified {} (longPiece 64) (run step startLong (remapRun 63)) := by
  intro h
  have hr := remapped_run 63 (by decide)
  obtain ⟨d, hd⟩ : ∃ d, d = run step startLong (remapRun 63) := ⟨_, rfl⟩
  rw [← hd] at h hr
  obtain ⟨cd, hcd, hones⟩ := hr.current
  have hlt : 64 < numPieces (sizeOf longChunk) := by decide
  have hreload : d.reload {} longChunk = d := if_neg (by rw [hr.status]; decide)
  obtain ⟨hp, ⟨m, hm, hm0⟩, hown⟩ := hr.arrival (by decide) hones hlt
  have h1 := h longChunk cd (hr.addressee 64) hcd
  rw [show ({} : Env).chunk longChunk = {} from rfl, hreload,
    show ({} : Env).file = {} from rfl] at h1
  -- what is hashed
  obtain ⟨m₀, hm₀, -⟩ := hr.buffer
  obtain ⟨a, ha⟩ : ∃ a, a = d.arrival longChunk cd (longPiece 64) := ⟨_, rfl⟩
  have harr : a = cd.piece (some (content d.cman longChunk)) (longPiece 64) := by
    rw [ha]
    unfold Downloader.arrival
    rw [memory_eq hr.placed, if_neg (by simp [hm₀, Data.isNull])]
  obtain ⟨hc, hhashed, hget⟩ := (ones_piece 0 hones hlt rfl (sizeOf_lt _)
    (content d.cman longChunk)).2.2 (by decide)
  rw [← ha] at h1 hp hm hown
  rw [show cd.piece (some (content d.cman longChunk)) (onesPiece 0 (sizeOf longChunk) 64) = a from
    harr.symm] at hc hhashed hget
  obtain ⟨d', hd'⟩ : ∃ d', d' = d.keepArrival longChunk a := ⟨_, rfl⟩
  have hv := h1 hc
  rw [← hd'] at hv hp hm hown
  have hcompared : compared d'.cman longChunk a.cd = List.replicate (sizeOf longChunk) 1 :=
    (if_pos rfl).trans hhashed
  have hright : longLayout.torrent.getHash longChunk =
      some (generate (compared d'.cman longChunk a.cd)) := by
    rw [hcompared, sizeOf_longChunk]
    rfl
  -- what is stored
  have hbuffered : (d'.cman.chunks longChunk).status = .buffered := by
    rcases hp.status_of_data (by rw [hm]; rfl) with hs | hs
    · rw [hp.mapped hs] at hm
      cases hm
    · exact hs
  have hok : (d'.cman.cache.save longLayout.torrent {} (d'.cman.chunks longChunk)).2.2 = true := by
    unfold Cache.save SingleFileCache.save
    rw [if_neg (by decide), hbuffered]
    rfl
  have hman : (d'.finished {} longChunk a.cd).1.cman = (d'.cman.saveChunk {} longChunk true).1 := by
    rw [finished_eq (fun _ => hget), if_pos hright]
    split_ifs <;> rfl
  have hbit : (d'.finished {} longChunk a.cd).1.cman.bitset.get longChunk = true := by
    rw [hman, (saveChunk_bit hp {}).1, hok, Bool.or_true]
  have hfree : d'.cman.bitset.get longChunk = false := hown longChunk
  have hst := hv.stored hfree hbit
  obtain ⟨hchunks, hcache⟩ := saveChunk_eq d'.cman hp {} true
  rw [hman, hchunks, hcache, Function.update_self, hcompared] at hst
  have hbytes := stored_save hp {} d'.cman.cache (by rw [hm]; rfl) hok
  rw [hst, Cache.bytes, hm] at hbytes
  have hpos : 0 < sizeOf longChunk := Nat.succ_pos _
  have hfirst : (List.replicate (sizeOf longChunk) (1 : UInt8)).getD 0 0 = m 0 := by
    rw [Option.some.inj hbytes, hp.size]
    exact getD_slice m 0 hpos 0
  rw [List.getD_replicate _ hpos, hm0] at hfirst
  exact absurd hfirst (by decide)

end Downloader

end KTorrent.Transfer
