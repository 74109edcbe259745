import KTorrent.Lib.Sums
import KTorrent.Storage.DerivedSizes
import KTorrent.Transfer.ContinuousHash
import KTorrent.Transfer.CurrentChunks
import KTorrent.Transfer.Pieces
import KTorrent.Transfer.Progress
import KTorrent.Transfer.Selectable

/-!
# The bytes downloaded

The downloader counts the bytes it has: up by each piece that arrives, down by a chunk whose data is
wrong, and anew when partial downloads are loaded or data has been checked.

* `bytesDownloaded_eq` — what the downloader adds for a partial download that is loaded.
* `Accounted L` — the downloader with its counter; `down_run` — the downloader underneath runs as
  it does without the counter.

Source: `torrent/downloader.cpp`, `torrent/chunkdownload.cpp`, `torrent/torrentcontrol.cpp`
-/

namespace KTorrent.Transfer

open KTorrent.Lib KTorrent.Util KTorrent.Storage ChunkManager

/-! ### The bytes of pieces -/

section pieces

variable {size : ℕ}

/-- The bytes of the pieces whose bit is on. Kind: D -/
def bytesOfPieces (size : ℕ) (b : BitSet (numPieces size)) : ℕ :=
  ∑ k ∈ Finset.range (numPieces size), if b.get k = true then pieceLen size k else 0

/-- The first pieces make the front of the chunk. Source: `ChunkDownload::updateHash`,
`bytesDownloaded`. Kind: L -/
theorem sum_pieceLen {n : ℕ} (h : n ≤ numPieces size) :
    ∑ k ∈ Finset.range n, pieceLen size k = frontLen size n := by
  induction n with
  | zero => simp
  | succ n ih =>
    rw [Finset.sum_range_succ, ih (Nat.le_of_succ_le h), frontLen_succ h, frontLen_of_lt h]

/-- The pieces have no more bytes than the chunk. Source: `torrent/downloader.cpp`,
`torrent/chunkdownload.cpp`. Kind: L -/
theorem bytesOfPieces_le (b : BitSet (numPieces size)) : bytesOfPieces size b ≤ size := by
  have hle : bytesOfPieces size b ≤ ∑ k ∈ Finset.range (numPieces size), pieceLen size k := by
    apply Finset.sum_le_sum
    intro k _
    split_ifs
    · exact le_rfl
    · exact Nat.zero_le _
  rwa [sum_pieceLen le_rfl, frontLen_numPieces] at hle

/-- All pieces are the chunk. Source: `torrent/downloader.cpp`, `torrent/chunkdownload.cpp`.
Kind: L -/
theorem bytesOfPieces_of_all {b : BitSet (numPieces size)}
    (h : ∀ k < numPieces size, b.get k = true) : bytesOfPieces size b = size := by
  have hsum : bytesOfPieces size b = ∑ k ∈ Finset.range (numPieces size), pieceLen size k :=
    Finset.sum_congr rfl fun k hk => if_pos (h k (Finset.mem_range.mp hk))
  rw [hsum, sum_pieceLen le_rfl, frontLen_numPieces]

/-- No pieces, no bytes. Source: `BitSet::BitSet(Uint32)`. Kind: L -/
@[simp] theorem bytesOfPieces_empty : bytesOfPieces size (.empty _) = 0 := by
  simp [bytesOfPieces]

/-- One more piece. Source: `torrent/downloader.cpp`, `torrent/chunkdownload.cpp`. Kind: L -/
theorem bytesOfPieces_set {b : BitSet (numPieces size)} {q : ℕ} (hq : q < numPieces size)
    (h : b.get q = false) :
    bytesOfPieces size (b.set q true) = bytesOfPieces size b + pieceLen size q := by
  have hsum := sum_add_of_eq_off (Finset.mem_range.mpr hq)
    (f := fun k => if b.get k = true then pieceLen size k else 0)
    (g := fun k => if (b.set q true).get k = true then pieceLen size k else 0)
    fun k _ hk => by rw [BitSet.get_set_of_ne _ hk]
  rwa [h, if_neg Bool.false_ne_true, BitSet.get_set_self _ hq, if_pos rfl] at hsum

/-- What `bytesDownloaded` gives. Source: `ChunkDownload::bytesDownloaded`. Kind: P -/
theorem bytesDownloaded_eq (hsize : size < 2 ^ 32) (cd : ChunkDownload size) :
    cd.bytesDownloaded = bytesOfPieces size cd.pieces := by
  obtain ⟨f, hf⟩ : ∃ f : ℕ → ℕ → ℕ, f = fun i num_bytes =>
    if cd.pieces.get i = true then
      u32 (num_bytes + if i = numPieces size - 1 then lastSize size else MAX_PIECE_LEN)
    else num_bytes := ⟨_, rfl⟩
  have hloop : ∀ n ≤ numPieces size, forRange 0 n f 0 =
      ∑ k ∈ Finset.range n, (if cd.pieces.get k = true then pieceLen size k else 0) ∧
        forRange 0 n f 0 ≤ frontLen size n := by
    intro n
    induction n with
    | zero => exact fun _ => ⟨rfl, Nat.zero_le _⟩
    | succ n ih =>
      intro hn
      obtain ⟨ih1, ih2⟩ := ih (Nat.le_of_succ_le hn)
      have hfront := frontLen_succ hn
      have hle := frontLen_le size (n + 1)
      rw [frontLen_of_lt hn] at ih2
      rw [forRange_succ (Nat.zero_le n), Finset.sum_range_succ, ← ih1, hf]
      dsimp only
      rw [← hf]
      by_cases hget : cd.pieces.get n = true
      · have hlen : (if n = numPieces size - 1 then lastSize size else MAX_PIECE_LEN) =
            pieceLen size n := if_congr (by omega) rfl rfl
        rw [if_pos hget, if_pos hget, hlen, u32_of_lt (by omega)]
        exact ⟨rfl, by omega⟩
      · rw [if_neg hget, if_neg hget]
        exact ⟨rfl, by omega⟩
  have hbytes : cd.bytesDownloaded = forRange 0 (numPieces size) f 0 := by
    rw [hf]
    rfl
  rw [hbytes, (hloop _ le_rfl).1]
  rfl

end pieces

/-! ### What the source does -/

namespace Downloader

variable {L : Layout}

/-- Source: `Downloader::dataChecked`. Kind: D -/
def dataChecked (ok_chunks : BitSet L.numChunks) (d : Downloader L) : Downloader L :=
  let d := forRange 0 L.numChunks (fun i d =>
    if h : i < L.numChunks then if ok_chunks.get i then d.erase ⟨i, h⟩ else d else d) d
  { d with selector := ChunkSelector.dataChecked ok_chunks d.selector }

/-- A torrent stops: its downloads are saved, unless their file cannot be opened, and end.
Source: `TorrentControl::stop`. Kind: D -/
def stop (env : Env) (saves : Bool) (d : Downloader L) : Downloader L :=
  let d := if saves then d.saveDownloads.2 else d
  let d := d.clearDownloads env
  { d with cman := d.cman.stop env }

end Downloader

/-- The downloader with its counter. Source: `torrent/downloader.h`, `Downloader`. Kind: D -/
structure Accounted (L : Layout) where
  down : Downloader L
  downloaded : ℕ
  /-- History: whether the counter has been cut off at zero. -/
  cut : Bool := false

namespace Accounted

variable {L : Layout}

/-- The counter is set. Kind: D -/
def setDownloaded (n : ℕ) (s : Accounted L) : Accounted L := { s with downloaded := n }

/-- Setting the counter leaves the downloader. Source: `torrent/downloader.cpp`,
`torrent/chunkdownload.cpp`. Kind: L -/
@[simp] theorem down_setDownloaded (n : ℕ) (s : Accounted L) : (s.setDownloaded n).down = s.down :=
  rfl

/-- Source: `Downloader::recalcDownloaded`, and the same line in the constructor and in
`loadDownloads`. Kind: D -/
def recalcDownloaded (s : Accounted L) : Accounted L :=
  s.setDownloaded (sub64 L.file_length s.down.cman.bytesLeft)

/-- Source: `Downloader::Downloader`. Kind: D -/
def new (shuffle : List ℕ → List ℕ) (cman : ChunkManager L) : Accounted L :=
  recalcDownloaded ⟨Downloader.new shuffle cman, 0, false⟩

/-- A chunk is complete: the download ends, and what is wrong with it does not count.
Source: `Downloader::pieceRecieved`. Kind: D -/
def complete (os : Os) (i : Fin L.numChunks) (cd : ChunkDownload (sizeOf i)) (s : Accounted L) :
    Accounted L :=
  let r := s.down.finished os i cd
  let s :=
    if r.2 then s
    else if (r.1.cman.chunks i).size > s.downloaded then { s with downloaded := 0, cut := true }
    else { s with downloaded := sub64 s.downloaded (r.1.cman.chunks i).size }
  { s with down := r.1.erase i }

/-- Source: `Downloader::pieceRecieved`. Kind: D -/
def pieceRecieved (env : Env) (is_idle : Bool) (p : Piece) (s : Accounted L) : Accounted L :=
  match s.down.addressee p with
  | none => s
  | some i =>
      match s.down.current_chunks i with
      | none => s
      | some cd =>
          let d := s.down.reload (env.chunk i) i
          let a := d.arrival i cd p
          let s := { s with
            down := d.keepArrival i a
            downloaded := if a.ok then u64 (s.downloaded + p.len) else s.downloaded }
          if a.complete then s.complete env.file i a.cd
          else if is_idle then { s with down := s.down.saveIdle env.file i }
          else s

/-- So many records are left to be read. Source: `Downloader::loadDownloads`, the loop. Kind: D -/
def loadLoop (env : Env) (old : ℕ → Mem) : ℕ → List UInt8 → Accounted L → Accounted L
  | 0, _, s => s
  | n + 1, file, s =>
      let hdr := ChunkDownloadHeader.read (old n) file
      let file := file.drop ChunkDownloadHeader.size
      if h : hdr.index < L.numChunks then
        let i : Fin L.numChunks := ⟨hdr.index, h⟩
        if (s.down.current_chunks i).isSome then s
        else if !(s.down.cman.chunks i).isExcluded &&
            (s.down.cman.prepareChunk (env.chunk i) i false).2 then
          let d := s.down.prepared env i
          let l := d.loaded (old n) hdr file i
          let r := d.loadRecord (old n) hdr file i
          loadLoop env old n r.1 { s with
            down := r.2
            downloaded := if l.ok then u64 (s.downloaded + l.cd.bytesDownloaded) else s.downloaded }
        else if (s.down.cman.chunks i).isExcluded then loadLoop env old n file s
        else loadLoop env old n file { s with down := s.down.prepared env i }
      else s

/-- One record of the loop. Source: `Downloader::loadDownloads`. Kind: L -/
theorem loadLoop_succ (env : Env) (old : ℕ → Mem) (n : ℕ) (file : List UInt8) (s : Accounted L) :
    loadLoop env old (n + 1) file s =
      if h : (ChunkDownloadHeader.read (old n) file).index < L.numChunks then
        let i : Fin L.numChunks := ⟨_, h⟩
        if (s.down.current_chunks i).isSome then s
        else if !(s.down.cman.chunks i).isExcluded &&
            (s.down.cman.prepareChunk (env.chunk i) i false).2 then
          let l := (s.down.prepared env i).loaded (old n) (ChunkDownloadHeader.read (old n) file)
            (file.drop ChunkDownloadHeader.size) i
          let r := (s.down.prepared env i).loadRecord (old n)
            (ChunkDownloadHeader.read (old n) file) (file.drop ChunkDownloadHeader.size) i
          loadLoop env old n r.1 { s with
            down := r.2
            downloaded := if l.ok then u64 (s.downloaded + l.cd.bytesDownloaded) else s.downloaded }
        else if (s.down.cman.chunks i).isExcluded then
          loadLoop env old n (file.drop ChunkDownloadHeader.size) s
        else
          loadLoop env old n (file.drop ChunkDownloadHeader.size)
            { s with down := s.down.prepared env i }
      else s := by
  rw [loadLoop]

/-- The file is `none` when it cannot be opened. Source: `Downloader::loadDownloads`. Kind: D -/
def loadDownloads (env : Env) (old : ℕ → Mem) (file : Option (List UInt8)) (s : Accounted L) :
    Accounted L :=
  if s.down.cman.completed then s
  else
    match file with
    | none => s
    | some file =>
        let s := s.recalcDownloaded
        let chdr := CurrentChunksHeader.read (old 0) file
        if chdr.magic ≠ CURRENT_CHUNK_MAGIC then s
        else loadLoop env old chdr.num_chunks (file.drop CurrentChunksHeader.size) s

/-- The data has been checked. Source: `TorrentControl::afterDataCheck`. Kind: D -/
def dataChecked (env : Env) (ok_chunks : BitSet L.numChunks) (s : Accounted L) : Accounted L :=
  let d := s.down.dataChecked ok_chunks
  recalcDownloaded { s with down := { d with cman := d.cman.dataChecked env ok_chunks } }

/-- What can happen to the counter, or to what it counts. Kind: D -/
inductive Event (L : Layout)
  /-- A peer sends a piece. -/
  | piece (env : Env) (is_idle : Bool) (p : Piece)
  /-- A download is found idle or choked. -/
  | idle (os : Os) (i : Fin L.numChunks)
  /-- A peer is assigned to a download. -/
  | assign (os : Os) (i : Fin L.numChunks)
  /-- A peer is asked for a new chunk. -/
  | downloadFrom (env : Env) (hasChunk : ℕ → Bool)
  /-- The user selects or deselects a file. -/
  | setDoNotDownload (env : Env) (k : Fin L.files.length) (dnd : Bool)
  /-- The partial downloads are loaded. -/
  | loadDownloads (env : Env) (old : ℕ → Mem) (file : Option (List UInt8))
  /-- The torrent is stopped and started again. -/
  | restart (env : Env) (saves : Bool) (env' : Env) (old : ℕ → Mem) (file : Option (List UInt8))
  /-- The data has been checked. -/
  | dataChecked (env : Env) (ok_chunks : BitSet L.numChunks)

/-- What an event does. Kind: D -/
def step (s : Accounted L) : Event L → Accounted L
  | .piece env is_idle p => s.pieceRecieved env is_idle p
  | .idle os i => { s with down := s.down.idle os i }
  | .assign os i => { s with down := s.down.assign os i }
  | .downloadFrom env hasChunk => { s with down := s.down.downloadFrom env hasChunk }
  | .setDoNotDownload env k dnd =>
      { s with down := s.down.call env (ChunkManager.setDoNotDownload env k dnd) }
  | .loadDownloads env old file => s.loadDownloads env old file
  | .restart env saves env' old file =>
      loadDownloads env' old file { s with down := s.down.stop env saves }
  | .dataChecked env ok_chunks => s.dataChecked env ok_chunks

/-- A torrent with any selection of files and anything saved. Kind: D -/
def start (L : Layout) (env₀ env : Env) (files : ℕ → FileSelection) (saved : Saved)
    (shuffle : List ℕ → List ℕ) : Accounted L :=
  new shuffle ((construct L env₀ files saved).loadIndexFile env)

/-! ### The downloader underneath -/

/-- What an event does to the downloader. Source: `torrent/downloader.cpp`, less the lines about
`downloaded`. Kind: D -/
def under (d : Downloader L) : Event L → Downloader L
  | .piece env is_idle p => d.step (.piece env is_idle p)
  | .idle os i => d.step (.idle os i)
  | .assign os i => d.step (.assign os i)
  | .downloadFrom env hasChunk => d.step (.downloadFrom env hasChunk)
  | .setDoNotDownload env k dnd => d.step (.setDoNotDownload env k dnd)
  | .loadDownloads env old file => file.elim d fun file => d.loadDownloads env old file
  | .restart env saves env' old file =>
      file.elim (d.stop env saves) fun file => (d.stop env saves).loadDownloads env' old file
  | .dataChecked env ok_chunks =>
      let d := d.dataChecked ok_chunks
      { d with cman := d.cman.dataChecked env ok_chunks }

/-- A piece arrives as it does without the counter. Source: `Downloader::pieceRecieved`.
Kind: L -/
theorem down_pieceRecieved (env : Env) (is_idle : Bool) (p : Piece) (s : Accounted L) :
    (s.pieceRecieved env is_idle p).down = s.down.pieceRecieved env is_idle p := by
  unfold pieceRecieved Downloader.pieceRecieved
  cases s.down.addressee p with
  | none => rfl
  | some i =>
    cases h : s.down.current_chunks i with
    | none => simp only [h]
    | some cd =>
      simp only [h]
      by_cases hc : ((s.down.reload (env.chunk i) i).arrival i cd p).complete = true
      · rw [if_pos hc, if_pos hc]
        rfl
      · rw [if_neg hc, if_neg hc]
        cases is_idle <;> rfl

/-- The records are read as they are without the counter. Source: `Downloader::loadDownloads`.
Kind: L -/
theorem down_loadLoop (env : Env) (old : ℕ → Mem) (n : ℕ) (file : List UInt8) (s : Accounted L) :
    (loadLoop env old n file s).down = Downloader.loadLoop env old n file s.down := by
  induction n generalizing file s with
  | zero => rfl
  | succ n ih =>
    unfold loadLoop Downloader.loadLoop
    by_cases h : (ChunkDownloadHeader.read (old n) file).index < L.numChunks
    swap
    · simp only [dif_neg h]
    simp only [dif_pos h]
    by_cases hsome : (s.down.current_chunks ⟨_, h⟩).isSome = true
    · rw [if_pos hsome, if_pos hsome]
    rw [if_neg hsome, if_neg hsome]
    split
    · exact ih _ _
    · split_ifs
      · exact ih _ _
      · exact ih _ _

/-- Counting anew leaves the downloader. Source: `Downloader::recalcDownloaded`. Kind: L -/
@[simp] theorem down_recalcDownloaded (s : Accounted L) : s.recalcDownloaded.down = s.down :=
  down_setDownloaded _ s

/-- A complete torrent loads nothing. Source: `Downloader::loadDownloads`. Kind: L -/
theorem loadDownloads_of_completed (env : Env) (old : ℕ → Mem) (file : Option (List UInt8))
    {s : Accounted L} (hc : s.down.cman.completed = true) : s.loadDownloads env old file = s := by
  unfold loadDownloads
  rw [if_pos hc]

/-- A file that can be opened: the counter is recalculated, and the records are read.
Source: `Downloader::loadDownloads`. Kind: L -/
theorem loadDownloads_some (env : Env) (old : ℕ → Mem) (file : List UInt8) {s : Accounted L}
    (hc : ¬ s.down.cman.completed = true) :
    s.loadDownloads env old (some file) =
      if (CurrentChunksHeader.read (old 0) file).magic ≠ CURRENT_CHUNK_MAGIC then s.recalcDownloaded
      else loadLoop env old (CurrentChunksHeader.read (old 0) file).num_chunks
        (file.drop CurrentChunksHeader.size) s.recalcDownloaded := by
  unfold loadDownloads
  rw [if_neg hc]

/-- Partial downloads are loaded as they are without the counter.
Source: `Downloader::loadDownloads`. Kind: L -/
theorem down_loadDownloads (env : Env) (old : ℕ → Mem) (file : Option (List UInt8))
    (s : Accounted L) : (s.loadDownloads env old file).down =
      file.elim s.down fun file => s.down.loadDownloads env old file := by
  cases file with
  | none =>
    unfold loadDownloads
    split_ifs <;> rfl
  | some file =>
  show _ = s.down.loadDownloads env old file
  by_cases hc : s.down.cman.completed = true
  · rw [loadDownloads_of_completed env old _ hc]
    unfold Downloader.loadDownloads
    rw [if_pos hc]
  · have hdown : s.down.loadDownloads env old file =
        if (CurrentChunksHeader.read (old 0) file).magic ≠ CURRENT_CHUNK_MAGIC then s.down
        else Downloader.loadLoop env old (CurrentChunksHeader.read (old 0) file).num_chunks
          (file.drop CurrentChunksHeader.size) s.down := by
      unfold Downloader.loadDownloads
      rw [if_neg hc]
    rw [loadDownloads_some env old file hc, hdown, apply_ite Accounted.down, down_loadLoop,
      down_recalcDownloaded]

/-- Each event does to the downloader what it does without the counter.
Source: `torrent/downloader.cpp`. Kind: L -/
theorem down_step (s : Accounted L) (e : Event L) : (s.step e).down = under s.down e := by
  cases e with
  | piece env is_idle p => exact down_pieceRecieved env is_idle p s
  | loadDownloads env old file => exact down_loadDownloads env old file s
  | restart env saves env' old file => exact down_loadDownloads env' old file _
  | idle | assign | downloadFrom | setDoNotDownload | dataChecked => rfl

/-- **The counter is only kept beside the downloader**: whatever happens, the downloader runs as it
does without it. Source: `torrent/downloader.cpp`. Kind: P -/
theorem down_run (s : Accounted L) (events : List (Event L)) :
    (run step s events).down = run under s.down events :=
  (List.foldl_hom Accounted.down fun s e => (down_step s e).symm).symm

end Accounted

end KTorrent.Transfer
