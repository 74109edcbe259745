import KTorrent.Storage.Spans
import KTorrent.Transfer.Resumed
import Mathlib.Data.Fintype.Card

/-!
# Partial downloads of an older version

An older version kept its partial downloads in another format: a record was the index of the chunk,
one byte for each piece, and the bytes of the chunk. The file is written anew before it is read.

* `migrateChunk`, `migrateCC` — the migration. It works out the size of each chunk for itself.
* `Measured` — when that size will do.
* `migration_iff` — a new session gets its downloads back, all of them and nothing else, if and only
  if each was measured well and may be gone on with.
* `fullLast_lost` — where the length of the data is a multiple of the chunk size, the last chunk is
  taken to be empty.

Source: `migrate/ccmigrate.cpp`
-/

namespace KTorrent.Transfer.CcMigrate

open KTorrent.Lib KTorrent.Util KTorrent.Storage ChunkManager Downloader

variable {L : Layout}

/-! ### The migration -/

section code

variable (L)

/-- Source: `MigrateChunk`, `csize`. Kind: D -/
def csize (ch : ℕ) : ℕ :=
  if ch = L.numChunks - 1 then
    if ch = 0 then u32 L.piece_length else u32 (L.file_length % L.piece_length)
  else u32 L.piece_length

/-- Source: `MigrateChunk`, the loop over the pieces. Kind: D -/
def toBitSet (num_pieces : ℕ) (pieces : List UInt8) : BitSet num_pieces :=
  forRange 0 num_pieces (fun i pieces_bs => pieces_bs.set i (pieces.getD i 0 != 0)) (.empty _)

/-- Source: `pieces_bs.getData()`. Kind: D -/
def bitBytes (num_pieces : ℕ) (pieces : List UInt8) : List UInt8 :=
  BitSet.getData (toBitSet num_pieces pieces)

/-- The bytes written, and what is left of the old file; `bools` and `mem` are what the two arrays
hold before they are read. Source: `MigrateChunk`. Kind: D -/
def migrateChunk (bools mem : Mem) (old_cc : List UInt8) : Option (List UInt8 × List UInt8) :=
  let ch := wordAt (fread 4 (fun _ => 0) old_cc) 0
  let old_cc := old_cc.drop 4
  if ch ≥ L.numChunks then none
  else
    let num_pieces := numPieces (csize L ch)
    -- load the pieces array
    let pieces := fread num_pieces bools old_cc
    let old_cc := old_cc.drop num_pieces
    -- load the actual data
    let data := fread (csize L ch) mem old_cc
    let old_cc := old_cc.drop (csize L ch)
    let hdr : ChunkDownloadHeader := ⟨ch, num_pieces, 1⟩
    some (hdr.bytes ++ bitBytes num_pieces pieces ++ data, old_cc)

/-- So many records are left. Source: `MigrateCC`, the loop. Kind: D -/
def migrateLoop (bools mem : ℕ → Mem) : ℕ → List UInt8 → List UInt8
  | 0, _ => []
  | n + 1, old_cc =>
      match migrateChunk L (bools n) (mem n) old_cc with
      | none => []
      | some (new_cc, old_cc) => new_cc ++ migrateLoop bools mem n old_cc

/-- The new file. Source: `MigrateCC`. Kind: D -/
def migrateCC (bools mem : ℕ → Mem) (old_cc : List UInt8) : List UInt8 :=
  let num := wordAt (fread 4 (fun _ => 0) old_cc) 0
  (⟨CURRENT_CHUNK_MAGIC, 2, 2, num⟩ : CurrentChunksHeader).bytes ++
    migrateLoop L bools mem num (old_cc.drop 4)

end code

/-! ### The old file -/

/-- A partial download of the older version. Kind: D -/
structure OldChunk (L : Layout) where
  index : Fin L.numChunks
  pieces : List Bool
  data : List UInt8
  length_pieces : pieces.length = numPieces (sizeOf index)
  length_data : data.length = sizeOf index

namespace OldChunk

/-- Its record: the index, one byte for each piece, and the bytes of the chunk. Kind: D -/
def bytes (r : OldChunk L) : List UInt8 :=
  hostWord r.index ++ (r.pieces.map (fun b => if b then 1 else 0) ++ r.data)

/-- Its pieces as a bit set. Kind: D -/
def bits (r : OldChunk L) : BitSet (numPieces (sizeOf r.index)) := ⟨fun q => r.pieces.getD q false⟩

/-- The record the new version would have written. Kind: D -/
def newBytes (r : OldChunk L) : List UInt8 :=
  (⟨r.index, numPieces (sizeOf r.index), 1⟩ : ChunkDownloadHeader).bytes ++
    (BitSet.getData r.bits ++ r.data)

end OldChunk

/-- The old file. Kind: D -/
def oldFile (rs : List (OldChunk L)) : List UInt8 :=
  hostWord rs.length ++ rs.flatMap OldChunk.bytes

/-! ### Reading the old file -/

/-- A bit for each byte that is not zero. Source: `MigrateChunk`. Kind: L -/
theorem toBitSet_eq (n : ℕ) (pieces : List UInt8) :
    toBitSet n pieces = ⟨fun q => pieces.getD q 0 != 0⟩ := by
  have hget : ∀ q : Fin n, (toBitSet n pieces).get q = (pieces.getD q 0 != 0) := by
    intro q
    have h := obs_forRange (fun (b : BitSet n) (q : Fin n) => b.get q) Fin.val
      (fun i _ => pieces.getD i 0 != 0) (fun i b q => get_set_fin b q i (pieces.getD i 0 != 0)) 0 n
      (.empty n) q
    rwa [if_pos ⟨Nat.zero_le _, q.2⟩] at h
  refine congrArg BitSet.mk (funext fun q => ?_)
  have hbit := hget q
  rwa [BitSet.get, dif_pos q.2] at hbit

/-- A read at the end of the file begins with what there is. Source: `File::read`. Kind: L -/
theorem fread_all {n : ℕ} {bs : List UInt8} (h : bs.length ≤ n) (mem : Mem) :
    ∃ junk, fread n mem bs = bs ++ junk := by
  have htake : (fread n mem bs).take bs.length = bs := by
    unfold fread
    rw [List.take_of_length_le h]
    apply List.ext_getElem
    · simp [h]
    · intro i h1 h2
      rw [List.getElem_take, getElem_slice, blit_of_mem mem (by omega) (by omega)]
      simp only [Nat.zero_add, Nat.sub_zero, List.getD_eq_getElem _ _ h2]
  exact ⟨(fread n mem bs).drop bs.length, by
    conv_lhs => rw [← List.take_append_drop bs.length (fread n mem bs), htake]⟩

/-- One record of the old file is read. Source: `MigrateChunk`. Kind: L -/
theorem migrateChunk_bytes (r : OldChunk L) (bools mem : Mem) (rest : List UInt8) :
    migrateChunk L bools mem (r.bytes ++ rest) =
      let file := r.pieces.map (fun b => if b then 1 else 0) ++ (r.data ++ rest)
      let num_pieces := numPieces (csize L r.index)
      some ((⟨r.index, num_pieces, 1⟩ : ChunkDownloadHeader).bytes ++
          bitBytes num_pieces (fread num_pieces bools file) ++
          fread (csize L r.index) mem (file.drop num_pieces),
        (file.drop num_pieces).drop (csize L r.index)) := by
  have hfile : r.bytes ++ rest =
      hostWord r.index ++ (r.pieces.map (fun b => if b then 1 else 0) ++ (r.data ++ rest)) := by
    simp [OldChunk.bytes]
  have hindex : wordAt (hostWord r.index) 0 = r.index :=
    wordAt_append [] (r.index.2.trans L.chunks_lt) []
  unfold migrateChunk
  simp only [hfile, fread_append (length_hostWord r.index), hindex,
    List.drop_left' (length_hostWord r.index)]
  rw [if_neg (not_le.mpr r.index.2)]

/-- What is written for a record, whatever is read. Source: `MigrateChunk`. Kind: L -/
theorem migrateChunk_shape (r : OldChunk L) (bools mem : Mem) (rest : List UInt8) :
    ∃ bits data rest', migrateChunk L bools mem (r.bytes ++ rest) =
        some ((⟨r.index, numPieces (csize L r.index), 1⟩ : ChunkDownloadHeader).bytes ++
          (bits ++ data), rest') ∧
      bits.length = numBytes (numPieces (csize L r.index)) ∧ data.length = csize L r.index := by
  have hchunk := migrateChunk_bytes r bools mem rest
  simp only [List.append_assoc] at hchunk
  exact ⟨_, _, _, hchunk, BitSet.length_getData _, length_slice _ _ _⟩

/-- The bits of a record whose pieces are counted well. Source: `migrate/ccmigrate.cpp`. Kind: L -/
theorem bitBytes_pieces (r : OldChunk L) (bools : Mem) (rest : List UInt8) :
    bitBytes (numPieces (sizeOf r.index)) (fread (numPieces (sizeOf r.index)) bools
      (r.pieces.map (fun b => if b then 1 else 0) ++ rest)) = BitSet.getData r.bits := by
  have hlen : (r.pieces.map fun b => if b then (1 : UInt8) else 0).length =
      numPieces (sizeOf r.index) := by
    rw [List.length_map, r.length_pieces]
  rw [bitBytes, fread_append hlen, toBitSet_eq]
  refine congrArg BitSet.getData (congrArg BitSet.mk (funext fun q => ?_))
  have hq : q.val < r.pieces.length := by
    rw [r.length_pieces]
    exact q.2
  rw [List.getD_eq_getElem _ _ (by simpa using hq), List.getD_eq_getElem _ _ hq, List.getElem_map]
  cases r.pieces[q.val] <;> rfl

/-- **A record whose chunk is measured exactly is migrated.**. Source: `MigrateChunk`. Kind: L -/
theorem migrateChunk_exact {r : OldChunk L} (h : csize L r.index = sizeOf r.index)
    (bools mem : Mem) (rest : List UInt8) :
    migrateChunk L bools mem (r.bytes ++ rest) = some (r.newBytes, rest) := by
  have hlen : (r.pieces.map fun b => if b then (1 : UInt8) else 0).length =
      numPieces (sizeOf r.index) := by
    rw [List.length_map, r.length_pieces]
  rw [migrateChunk_bytes]
  simp only [h, bitBytes_pieces, List.drop_left' hlen, fread_append r.length_data,
    List.drop_left' r.length_data, OldChunk.newBytes, List.append_assoc]

/-- The records that stand in front of the first that is not measured exactly. Source: `MigrateCC`.
Kind: L -/
theorem migrateLoop_front {rs : List (OldChunk L)}
    (h : ∀ r ∈ rs, csize L r.index = sizeOf r.index) (bools mem : ℕ → Mem) (n : ℕ)
    (rest : List UInt8) :
    migrateLoop L bools mem (rs.length + n) (rs.flatMap OldChunk.bytes ++ rest) =
      rs.flatMap OldChunk.newBytes ++ migrateLoop L bools mem n rest := by
  induction rs with
  | nil => simp
  | cons r rs ih =>
    have hstep : (r :: rs).length + n = (rs.length + n) + 1 := by
      rw [List.length_cons]
      omega
    rw [hstep, List.flatMap_cons, List.append_assoc, migrateLoop,
      migrateChunk_exact (h r List.mem_cons_self)]
    simp only
    rw [ih fun r' hr' => h r' (List.mem_cons_of_mem r hr'), List.flatMap_cons, List.append_assoc]

/-! ### The size of a chunk -/

/-- **The size the migration works out will do.** Only the last chunk is in question: when it is the
only one, it is taken to have the size of a full chunk, which must not change its number of pieces
nor be less than it has; when there are others, the length of the data must not be a multiple of the
chunk size. Kind: D -/
def Measured (L : Layout) (i : ℕ) : Prop :=
  i + 1 = L.numChunks →
    if i = 0 then numPieces (u32 L.piece_length) = numPieces (u32 L.file_length) ∧
      u32 L.file_length ≤ u32 L.piece_length
    else L.file_length % L.piece_length = 0 → u32 L.piece_length = 0

/-- The migration computes the size of a chunk, except for the last. Source: `MigrateChunk`,
`csize`. Kind: L -/
theorem csize_inner {i : Fin L.numChunks} (h : i.val + 1 < L.numChunks) :
    csize L i = sizeOf i := by
  unfold csize
  rw [if_neg (by omega)]
  show _ = chunkSize L i
  unfold chunkSize
  rw [if_pos h]

/-- For the last it takes the remainder. Source: `MigrateChunk`, `csize`. Kind: L -/
theorem csize_last {i : Fin L.numChunks} (h : i.val + 1 = L.numChunks) (h0 : i.val ≠ 0) :
    csize L i = u32 (L.file_length % L.piece_length) := by
  unfold csize
  rw [if_pos (by omega), if_neg h0]

/-- The chunk manager takes the whole piece length when there is no remainder.
Source: `migrate/ccmigrate.cpp`. Kind: L -/
theorem sizeOf_last {i : Fin L.numChunks} (h : i.val + 1 = L.numChunks) :
    sizeOf i = u32 (if L.file_length % L.piece_length = 0 then L.piece_length
      else L.file_length % L.piece_length) := by
  rw [← Layout.bytesOf_last h]
  exact Layout.chunkSize_eq i.2

/-- The only chunk. Source: `migrate/ccmigrate.cpp`. Kind: L -/
theorem size_single {i : Fin L.numChunks} (h : i.val + 1 = L.numChunks) (h0 : i.val = 0) :
    csize L i = u32 L.piece_length ∧ sizeOf i = u32 L.file_length := by
  constructor
  · unfold csize
    rw [if_pos (by omega), if_pos h0]
  · have hle := Layout.length_le_of_last h
    have hsize : sizeOf i = u32 (L.bytesOf i) := Layout.chunkSize_eq i.2
    rw [hsize]
    unfold Layout.bytesOf Layout.chunkEnd Layout.chunkStart
    rw [min_eq_right hle, h0, Nat.zero_mul, Nat.sub_zero]

/-- A chunk that is measured well is measured exactly, or it is the only one.
Source: `migrate/ccmigrate.cpp`. Kind: L -/
theorem Measured.cases {i : Fin L.numChunks} (h : Measured L i) :
    csize L i = sizeOf i ∨ (L.numChunks = 1 ∧ numPieces (csize L i) = numPieces (sizeOf i) ∧
      sizeOf i ≤ csize L i) := by
  by_cases hlast : i.val + 1 = L.numChunks
  swap
  · exact .inl (csize_inner (by omega))
  have hm := h hlast
  by_cases h0 : i.val = 0
  · obtain ⟨hc, hs⟩ := size_single hlast h0
    rw [if_pos h0, ← hc, ← hs] at hm
    exact .inr ⟨by omega, hm⟩
  · rw [if_neg h0] at hm
    rw [csize_last hlast h0, sizeOf_last hlast]
    by_cases hmod : L.file_length % L.piece_length = 0
    · rw [hmod, if_pos rfl, hm hmod]
      exact .inl rfl
    · rw [if_neg hmod]
      exact .inl rfl

/-- Only an empty chunk has no pieces. Source: `ChunkDownload::ChunkDownload`, `num`. Kind: L -/
theorem numPieces_eq_zero {size : ℕ} (h : numPieces size = 0) : size = 0 := by
  unfold numPieces at h
  split_ifs at h with hmod
  have hdiv := Nat.div_add_mod size MAX_PIECE_LEN
  rw [h, not_ne_iff.mp hmod] at hdiv
  exact hdiv.symm

/-- One that is not has another number of pieces, or it is the only one and has too few bytes.
Source: `migrate/ccmigrate.cpp`. Kind: L -/
theorem cases_of_not_measured {i : Fin L.numChunks} (h : ¬ Measured L i) :
    i.val + 1 = L.numChunks ∧ (numPieces (csize L i) ≠ numPieces (sizeOf i) ∨
      (L.numChunks = 1 ∧ csize L i < sizeOf i)) := by
  unfold Measured at h
  obtain ⟨hlast, hm⟩ := Classical.not_imp.mp h
  refine ⟨hlast, ?_⟩
  by_cases h0 : i.val = 0
  · obtain ⟨hc, hs⟩ := size_single hlast h0
    rw [if_pos h0, ← hc, ← hs] at hm
    by_cases hnum : numPieces (csize L i) = numPieces (sizeOf i)
    · exact .inr ⟨by omega, not_le.mp fun hle => hm ⟨hnum, hle⟩⟩
    · exact .inl hnum
  · rw [if_neg h0] at hm
    obtain ⟨hmod, hpos⟩ := Classical.not_imp.mp hm
    left
    rw [csize_last hlast h0, sizeOf_last hlast, hmod, if_pos rfl]
    intro hnum
    exact hpos (numPieces_eq_zero hnum.symm)

/-! ### The new file -/

/-- The new file has the records the new version would have written, and perhaps a rest.
Source: `MigrateCC`. Kind: L -/
theorem migrateLoop_measured {rs : List (OldChunk L)} (hnd : (rs.map OldChunk.index).Nodup)
    (h : ∀ r ∈ rs, Measured L r.index) (bools mem : ℕ → Mem) :
    ∃ junk, migrateLoop L bools mem rs.length (rs.flatMap OldChunk.bytes) =
      rs.flatMap OldChunk.newBytes ++ junk := by
  by_cases hexact : ∀ r ∈ rs, csize L r.index = sizeOf r.index
  · have hloop := migrateLoop_front hexact bools mem 0 []
    rw [Nat.add_zero, List.append_nil] at hloop
    exact ⟨_, hloop⟩
  · obtain ⟨r, hr, hne⟩ : ∃ r ∈ rs, csize L r.index ≠ sizeOf r.index := by
      simpa using hexact
    obtain ⟨hone, hnum, hle⟩ := (h r hr).cases.resolve_left hne
    have hlen : rs.length = 1 := by
      have hcard := hnd.length_le_card
      rw [Fintype.card_fin, List.length_map, hone] at hcard
      exact le_antisymm hcard (List.length_pos_of_mem hr)
    obtain ⟨r', hrs⟩ := List.length_eq_one_iff.mp hlen
    obtain rfl : r = r' := List.mem_singleton.mp (hrs ▸ hr)
    rw [hrs]
    have hpieces : (r.pieces.map fun b => if b then (1 : UInt8) else 0).length =
        numPieces (sizeOf r.index) := by
      rw [List.length_map, r.length_pieces]
    obtain ⟨junk, hjunk⟩ := fread_all (r.length_data.trans_le hle) (mem 0)
    have hchunk := migrateChunk_bytes r (bools 0) (mem 0) []
    simp only [List.append_nil, hnum, bitBytes_pieces, List.drop_left' hpieces, hjunk] at hchunk
    refine ⟨junk, ?_⟩
    simp only [List.length_singleton, List.flatMap_singleton, migrateLoop, hchunk, List.append_nil,
      OldChunk.newBytes, List.append_assoc]

/-- **What a new session reads.**. Source: `ChunkDownload::load`. Kind: L -/
theorem load_migrated {d : Downloader L} (hopen : d.cman.completed = false)
    {rs : List (OldChunk L)} (hcount : rs.length < 2 ^ 32) (env : Env) (old bools mem : ℕ → Mem) :
    d.loadDownloads env old (migrateCC L bools mem (oldFile rs)) =
      loadLoop env old rs.length (migrateLoop L bools mem rs.length (rs.flatMap OldChunk.bytes))
        d := by
  have hnum : wordAt (fread 4 (fun _ => 0) (oldFile rs)) 0 = rs.length := by
    rw [oldFile, fread_append (length_hostWord rs.length)]
    exact wordAt_append [] hcount []
  have hrest : (oldFile rs).drop 4 = rs.flatMap OldChunk.bytes :=
    List.drop_left' (length_hostWord rs.length)
  have hread : CurrentChunksHeader.read (old 0) (migrateCC L bools mem (oldFile rs)) =
      ⟨CURRENT_CHUNK_MAGIC, 2, 2, rs.length⟩ := by
    unfold migrateCC
    rw [hnum]
    exact CurrentChunksHeader.read_bytes (by simp [CURRENT_CHUNK_MAGIC]) (by simp) (by simp) hcount
      (old 0) _
  have hbody : (migrateCC L bools mem (oldFile rs)).drop CurrentChunksHeader.size =
      migrateLoop L bools mem rs.length (rs.flatMap OldChunk.bytes) := by
    unfold migrateCC
    rw [hnum, hrest]
    exact List.drop_left' rfl
  unfold loadDownloads
  rw [if_neg (by simp [hopen])]
  simp only [hread, hbody]
  rw [if_neg (not_not_intro rfl)]

/-! ### A downloader that has the records -/

/-- The download of a record. Kind: D -/
def OldChunk.download (r : OldChunk L) : ChunkDownload (sizeOf r.index) :=
  { ChunkDownload.new (sizeOf r.index) with pieces := r.bits }

/-- A downloader with these downloads, the bytes of their chunks in buffers. Kind: D -/
def carrier (rs : List (OldChunk L)) : Downloader L where
  cman :=
    { chunks := fun i =>
        { index := i
          size := sizeOf i
          status := .buffered
          data := .heap fun x => (rs.find? fun r => r.index = i).elim 0 fun r => r.data.getD x 0 }
      todo := .empty _
      files := fun _ => {}
      cache := { disk := fun _ => 0 } }
  current_chunks i := (rs.find? fun r => r.index = i).map fun r =>
    { ChunkDownload.new (sizeOf i) with pieces := ⟨fun q => r.pieces.getD q false⟩ }
  selector := []

/-- The chunks of the session that saved are in place. Source: `migrate/ccmigrate.cpp`. Kind: L -/
theorem placed_carrier (rs : List (OldChunk L)) (i : Fin L.numChunks) :
    Placed i ((carrier rs).cman.chunks i) where
  index := rfl
  size := rfl
  wanted h := by cases h
  mapped h := by cases h
  buffered _ := ⟨_, rfl⟩
  away h := by
    rcases h with h | h
    · cases h
    · cases h

section carrier

variable {rs : List (OldChunk L)} (hnd : (rs.map OldChunk.index).Nodup) {r : OldChunk L}

include hnd in
/-- A record is found by its index. Source: `migrate/ccmigrate.cpp`. Kind: L -/
theorem find?_index (hr : r ∈ rs) : (rs.find? fun r' => r'.index = r.index) = some r := by
  have hsome : (rs.find? fun r' => r'.index = r.index).isSome = true :=
    List.find?_isSome.mpr ⟨r, hr, decide_eq_true rfl⟩
  obtain ⟨r', hr'⟩ := Option.isSome_iff_exists.mp hsome
  have hindex : r'.index = r.index := by simpa using List.find?_some hr'
  rw [hr', List.inj_on_of_nodup_map hnd (List.mem_of_find?_eq_some hr') hr hindex]

include hnd in
/-- That session has a download for each record. Source: `migrate/ccmigrate.cpp`. Kind: L -/
theorem current_carrier (hr : r ∈ rs) :
    (carrier rs).current_chunks r.index = some r.download := by
  show (rs.find? fun r' => r'.index = r.index).map _ = _
  rw [find?_index hnd hr]
  rfl

include hnd in
/-- The session that saved has the data of each record. Source: `migrate/ccmigrate.cpp`. Kind: L -/
theorem content_carrier (hr : r ∈ rs) (x : ℕ) :
    content (carrier rs).cman r.index x = r.data.getD x 0 := by
  show (rs.find? fun r' => r'.index = r.index).elim 0 _ = _
  rw [find?_index hnd hr]
  rfl

include hnd in
/-- It saves the records of the new file. Source: `migrate/ccmigrate.cpp`. Kind: L -/
theorem record_carrier (hr : r ∈ rs) : record (carrier rs) r.index = r.newBytes := by
  obtain ⟨bs, hbytes, hlen, hget⟩ := bytes_buffered (placed_carrier rs r.index) rfl
  have hdata : bs = r.data := by
    apply List.ext_getElem (hlen.trans r.length_data.symm)
    intro x h1 h2
    have hx := hget x (hlen ▸ h1)
    rwa [content_carrier hnd hr, List.getD_eq_getElem _ _ h1, List.getD_eq_getElem _ _ h2] at hx
  rw [record, current_carrier hnd hr]
  simp only
  rw [ChunkDownload.save_fst, ChunkDownload.payload, hbytes, hdata]
  rfl

include hnd in
/-- And so for a part of them. Source: `migrate/ccmigrate.cpp`. Kind: L -/
theorem flatMap_newBytes {fs : List (OldChunk L)} (hsub : ∀ r ∈ fs, r ∈ rs) :
    fs.flatMap OldChunk.newBytes = (fs.map OldChunk.index).flatMap (record (carrier rs)) := by
  rw [List.flatMap_map]
  apply List.flatMap_congr
  intro r hr
  exact (record_carrier hnd (hsub r hr)).symm

end carrier

/-! ### Records that are all loaded -/

variable {L₀ : Layout}

/-- **A record that was saved is loaded**: the loop goes on behind it, with a download that has the
same pieces, and the bytes of a chunk that was in its buffer. Source: `Downloader::loadDownloads`.
Kind: L -/
theorem loadLoop_record {d₀ : Downloader L₀} {i₀ : Fin L₀.numChunks}
    {cd₀ : ChunkDownload (sizeOf i₀)} (h₀ : d₀.current_chunks i₀ = some cd₀)
    (hp₀ : Placed i₀ (d₀.cman.chunks i₀)) {d : Downloader L} {i : Fin L.numChunks}
    (hi : Same i₀ i) (hs : Shaped d) (h : Accepts d i)
    (env : Env) (old : ℕ → Mem) (n : ℕ) (rest : List UInt8) :
    ∃ d' cd, loadLoop env old (n + 1) (record d₀ i₀ ++ rest) d = loadLoop env old n rest d' ∧
      Shaped d' ∧ OnlyAt i d d' ∧ d'.current_chunks i = some cd ∧
      (∀ q, cd.pieces.get q = cd₀.pieces.get q) ∧
      ((d₀.cman.chunks i₀).status = .buffered → ∀ x < sizeOf i,
        content d'.cman i x = content d₀.cman i₀ x) := by
  set c₀ := d₀.cman.chunks i₀ with hc₀
  set hdr := ChunkDownload.header c₀ (sizeOf i₀) with hhdr
  set pay := cd₀.payload L₀.torrent d₀.cman.cache c₀ with hpay
  have hindex : hdr.index = i.val := hp₀.index.trans hi.index
  have hsize := hi.size
  obtain ⟨hread, hdrop⟩ := read_record h₀ hp₀ (old n) rest
  have hlen : c₀.status = .buffered →
      ((d₀.cman.cache.bytes L₀.torrent c₀).getD []).length = sizeOf i := by
    intro hb
    obtain ⟨bs, h1, h2, -⟩ := bytes_buffered hp₀ hb
    rw [h1]
    exact h2.trans hsize
  obtain ⟨hp, hnull⟩ := placed_prepared hs h env
  have hsp := hs.prepared env i
  obtain ⟨hok, hpieces, hdata, hrest⟩ := ChunkDownload.load_payload hsize L₀.torrent
    d₀.cman.cache c₀ cd₀ (.new (sizeOf i)) (old n) ((memory L.torrent
      (d.prepared env i).cman.cache ((d.prepared env i).cman.chunks i)).getD fun _ => 0) rest hlen
  -- the state after the record
  set d₁ := d.prepared env i with hd₁
  set l := loaded (old n) hdr (pay ++ rest) i d₁ with hl
  set d₂ := d₁.filled i l.data with hd₂
  have hr : loadRecord (old n) hdr (pay ++ rest) i d₁ = (rest, d₂.insert i l.cd) := by
    have hok' : l.ok = true := hok
    have hrest' : l.rest = rest := hrest
    unfold loadRecord
    simp only [← hl, ← hd₂, hok', hrest', if_true]
  have hround : loadLoop env old (n + 1) (record d₀ i₀ ++ rest) d =
      loadLoop env old n rest (d₂.insert i l.cd) := by
    rw [loadLoop_accept h env old n (hread.symm ▸ hindex), hread, hdrop, ← hd₁, hr]
  have ho : OnlyAt i d (d₂.insert i l.cd) := by
    have h1 := onlyAt_loadRecord (old n) hdr (pay ++ rest) (hsp i).1
    rw [hr] at h1
    exact (onlyAt_prepared env).trans h1
  have hshape : Shaped (d₂.insert i l.cd) := by
    have h1 := hsp.loadRecord (old n) hdr (pay ++ rest) i
    rwa [hr] at h1
  refine ⟨d₂.insert i l.cd, l.cd, hround, hshape, ho, Function.update_self _ _ _, hpieces, ?_⟩
  intro hb x hx
  obtain ⟨bs, h1, h2, h3⟩ := bytes_buffered hp₀ hb
  have hdata' : l.data = some bs := by
    refine Eq.trans hdata ?_
    rw [if_pos hb, h1]
    rfl
  have hfill : d₂ = { d₁ with cman := copyInto i 0 bs d₁.cman } := by
    rw [hd₂, hdata']
    rfl
  rw [content_insert, hfill, (copyInto_spec hp hnull 0 bs).2.2,
    blit_of_mem _ (Nat.zero_le x) (by omega), Nat.sub_zero]
  exact h3 x (by omega)

/-- **Records of accepted chunks are loaded one after the other**, and nothing else is touched.
Source: `Downloader::loadDownloads`. Kind: L -/
theorem loadLoop_front {d₀ : Downloader L₀} {js : List (Fin L₀.numChunks)} (hnd : js.Nodup)
    (hjs : ∀ j₀ ∈ js, (d₀.current_chunks j₀).isSome = true ∧ Placed j₀ (d₀.cman.chunks j₀))
    (env : Env) (old : ℕ → Mem) (n : ℕ) (rest : List UInt8) {d : Downloader L} (hs : Shaped d)
    (hacc : ∀ j₀ ∈ js, ∃ j, Same j₀ j ∧ Accepts d j) :
    ∃ d', loadLoop env old (js.length + n) (js.flatMap (record d₀) ++ rest) d =
        loadLoop env old n rest d' ∧ Shaped d' ∧
      ∀ i : Fin L.numChunks, (∀ j₀ ∈ js, j₀.val ≠ i.val) → Untouched i d d' := by
  induction js generalizing d with
  | nil => exact ⟨d, by simp, hs, fun i _ => ⟨rfl, rfl, fun _ _ => rfl⟩⟩
  | cons j₀ js ih =>
    obtain ⟨hj₀, hnd⟩ := List.nodup_cons.mp hnd
    obtain ⟨hcur, hp₀⟩ := hjs j₀ List.mem_cons_self
    obtain ⟨cd₀, hcd₀⟩ := Option.isSome_iff_exists.mp hcur
    obtain ⟨j, hsame, hj⟩ := hacc j₀ List.mem_cons_self
    obtain ⟨d₁, cd, hloop, hs₁, ho, -⟩ := loadLoop_record hcd₀ hp₀ hsame hs hj env old
      (js.length + n) (js.flatMap (record d₀) ++ rest)
    obtain ⟨d', hloop', hs', hu'⟩ := ih hnd
      (fun k hk => hjs k (List.mem_cons_of_mem _ hk)) hs₁ (fun k₀ hk₀ => by
        obtain ⟨k, hk, hacck⟩ := hacc k₀ (List.mem_cons_of_mem _ hk₀)
        refine ⟨k, hk, hacck.of_onlyAt ho ?_⟩
        rintro rfl
        exact hj₀ (Fin.ext (hsame.index.trans hk.index.symm) ▸ hk₀))
    refine ⟨d', ?_, hs', fun i hi => ?_⟩
    · rw [List.length_cons, List.flatMap_cons, List.append_assoc, ← hloop', ← hloop]
      congr 1
      omega
    · have hne : i ≠ j := by
        rintro rfl
        exact hi j₀ List.mem_cons_self hsame.index
      exact (Untouched.of_onlyAt ho hne).trans (hu' i fun k hk => hi k (List.mem_cons_of_mem _ hk))

/-- **A record behind accepted ones comes back**, whatever stands behind it.
Source: `Downloader::loadDownloads`. Kind: L -/
theorem loadLoop_at {d₀ : Downloader L₀} {d : Downloader L} (env : Env) (old : ℕ → Mem) (n : ℕ)
    (rest : List UInt8) (hs : Shaped d) {front : List (Fin L₀.numChunks)} (hnd : front.Nodup)
    (hfront : ∀ j₀ ∈ front, (d₀.current_chunks j₀).isSome = true ∧ Placed j₀ (d₀.cman.chunks j₀))
    (hacc : ∀ j₀ ∈ front, ∃ j, Same j₀ j ∧ Accepts d j) {i₀ : Fin L₀.numChunks}
    (hi₀ : i₀ ∉ front) {cd₀ : ChunkDownload (sizeOf i₀)}
    (hcd₀ : d₀.current_chunks i₀ = some cd₀) (hp₀ : Placed i₀ (d₀.cman.chunks i₀))
    {i : Fin L.numChunks} (hsame : Same i₀ i) (hi : Accepts d i) :
    ∃ cd, (loadLoop env old (front.length + (n + 1))
        (front.flatMap (record d₀) ++ (record d₀ i₀ ++ rest)) d).current_chunks i = some cd ∧
      (∀ q, cd.pieces.get q = cd₀.pieces.get q) ∧
      ((d₀.cman.chunks i₀).status = .buffered → ∀ x < sizeOf i,
        content (loadLoop env old (front.length + (n + 1))
          (front.flatMap (record d₀) ++ (record d₀ i₀ ++ rest)) d).cman i x =
            content d₀.cman i₀ x) := by
  obtain ⟨d₁, hloop, hs₁, hu⟩ := loadLoop_front hnd hfront env old (n + 1)
    (record d₀ i₀ ++ rest) hs hacc
  have hui := hu i fun j₀ hj₀ heq => by
    have h1 : j₀ = i₀ := Fin.ext (heq.trans hsame.index.symm)
    exact hi₀ (h1 ▸ hj₀)
  obtain ⟨d₂, cd, hloop₂, hs₂, -, hcd, hpieces, hbuf⟩ := loadLoop_record hcd₀ hp₀
    hsame hs₁ (hi.of_untouched hui) env old n rest
  obtain ⟨hcur, hkeep⟩ := loadLoop_keeps env old n rest hs₂ hcd
  rw [hloop, hloop₂]
  exact ⟨cd, hcur, hpieces, fun hb x hx => (hkeep x hx).trans (hbuf hb x hx)⟩

/-! ### Reading the new file -/

/-- The downloads are those of the records: the same pieces and the same bytes, and no others.
Kind: D -/
structure Preserved (rs : List (OldChunk L)) (d : Downloader L) : Prop where
  listed : ∀ r ∈ rs, ∃ cd, d.current_chunks r.index = some cd ∧
    (∀ q, cd.pieces.get q = r.pieces.getD q false) ∧
    ∀ x < sizeOf r.index, content d.cman r.index x = r.data.getD x 0
  others : ∀ i, (∀ r ∈ rs, r.index ≠ i) → d.current_chunks i = none

/-- The session may go on with the chunk, and the migration measured it well. Kind: D -/
structure Migrates (d : Downloader L) (i : Fin L.numChunks) : Prop where
  open_ : d.cman.completed = false
  included : (d.cman.chunks i).isExcluded = false
  status : (d.cman.chunks i).status = .notDownloaded
  measured : Measured L i

/-- There are fewer than 2^32 records. Source: `migrate/ccmigrate.cpp`. Kind: L -/
theorem length_lt {rs : List (OldChunk L)} (hnd : (rs.map OldChunk.index).Nodup) :
    rs.length < 2 ^ 32 := by
  have hcard := hnd.length_le_card
  rw [Fintype.card_fin, List.length_map] at hcard
  exact hcard.trans_lt L.chunks_lt

section reading

variable {d : Downloader L} {rs : List (OldChunk L)} (hn : NewSession d)
  (hnd : (rs.map OldChunk.index).Nodup) (env : Env) (old bools mem : ℕ → Mem)

include hn hnd

/-- **Where all migrate, all come back.**. Source: `migrate/ccmigrate.cpp`. Kind: L -/
theorem preserved (h : ∀ r ∈ rs, Migrates d r.index) :
    Preserved rs (d.loadDownloads env old (migrateCC L bools mem (oldFile rs))) := by
  by_cases hnil : rs = []
  · -- nothing is read of a file without records
    subst hnil
    refine ⟨fun r hr => absurd hr List.not_mem_nil, fun i _ => ?_⟩
    by_cases hopen : d.cman.completed = true
    · rw [loadDownloads, if_pos hopen]
      exact hn.current i
    · rw [load_migrated (Bool.not_eq_true _ ▸ hopen) (length_lt hnd)]
      exact hn.current i
  obtain ⟨r₀, hr₀⟩ := List.exists_mem_of_ne_nil rs hnil
  have hacc : ∀ r ∈ rs, Accepts d r.index := fun r hr =>
    ⟨hn.current _, (h r hr).included, (h r hr).status⟩
  obtain ⟨junk, hfile⟩ := migrateLoop_measured hnd (fun r hr => (h r hr).measured) bools mem
  have hcur : ∀ r ∈ rs, ((carrier rs).current_chunks r.index).isSome = true ∧
      Placed r.index ((carrier rs).cman.chunks r.index) := fun r hr => by
    rw [current_carrier hnd hr]
    exact ⟨rfl, placed_carrier rs _⟩
  rw [load_migrated (h r₀ hr₀).open_ (length_lt hnd), hfile]
  constructor
  · intro r hr
    obtain ⟨front, back, hsplit⟩ := List.append_of_mem hr
    have hsub : ∀ r' ∈ front, r' ∈ rs := fun r' hr' => hsplit ▸ List.mem_append_left _ hr'
    have hnd' := hnd
    rw [hsplit, List.map_append, List.map_cons] at hnd'
    obtain ⟨hndf, -, hdis⟩ := List.nodup_append.mp hnd'
    have hnot : r.index ∉ front.map OldChunk.index := fun hmem =>
      hdis _ hmem _ List.mem_cons_self rfl
    obtain ⟨cd, hcd, hpieces, hbuf⟩ := loadLoop_at env old back.length
      (back.flatMap OldChunk.newBytes ++ junk) hn.shaped hndf
      (fun j hj => by
        obtain ⟨r', hr', rfl⟩ := List.mem_map.mp hj
        exact hcur r' (hsub r' hr'))
      (fun j hj => by
        obtain ⟨r', hr', rfl⟩ := List.mem_map.mp hj
        exact ⟨_, ⟨rfl, rfl⟩, hacc r' (hsub r' hr')⟩) hnot (current_carrier hnd hr)
      (placed_carrier rs _) ⟨rfl, rfl⟩ (hacc r hr)
    have hbody : rs.flatMap OldChunk.newBytes ++ junk =
        (front.map OldChunk.index).flatMap (record (carrier rs)) ++
          (record (carrier rs) r.index ++ (back.flatMap OldChunk.newBytes ++ junk)) := by
      rw [← flatMap_newBytes hnd hsub, record_carrier hnd hr]
      conv_lhs => rw [hsplit]
      simp
    have hlen : rs.length = (front.map OldChunk.index).length + (back.length + 1) := by
      rw [hsplit, List.length_map, List.length_append, List.length_cons]
    rw [hbody, hlen]
    refine ⟨cd, hcd, fun q => ?_, fun x hx => ?_⟩
    · rw [hpieces q]
      show r.bits.get q = _
      unfold BitSet.get
      split_ifs with hq
      · rfl
      · rw [List.getD_eq_default]
        rw [r.length_pieces]
        exact not_lt.mp hq
    · rw [hbuf rfl x hx, content_carrier hnd hr]
  · intro i hi
    obtain ⟨d', hloop, -, hkeep⟩ := loadLoop_front hnd
      (fun j hj => by
        obtain ⟨r', hr', rfl⟩ := List.mem_map.mp hj
        exact hcur r' hr') env old 0 junk hn.shaped
      (fun j hj => by
        obtain ⟨r', hr', rfl⟩ := List.mem_map.mp hj
        exact ⟨_, ⟨rfl, rfl⟩, hacc r' hr'⟩)
    rw [List.length_map, Nat.add_zero, ← flatMap_newBytes hnd fun r hr => hr] at hloop
    rw [hloop]
    show d'.current_chunks i = none
    rw [(hkeep i fun j hj heq => ?_).current, hn.current]
    obtain ⟨r', hr', rfl⟩ := List.mem_map.mp hj
    exact hi r' hr' (Fin.ext heq)

end reading

/-! ### What does not come back -/

/-- A chunk without a download that the session does not go on with. Kind: D -/
structure Refused (d : Downloader L) (i : Fin L.numChunks) : Prop where
  current : d.current_chunks i = none
  refused : (d.cman.chunks i).isExcluded = true ∨ (d.cman.chunks i).status ≠ .notDownloaded

/-- What is refused stays so while other chunks change. Source: `migrate/ccmigrate.cpp`. Kind: L -/
theorem Refused.of_onlyAt {d d' : Downloader L} {i j : Fin L.numChunks} (h : Refused d i)
    (ho : OnlyAt j d d') (hi : i ≠ j) : Refused d' i := by
  obtain ⟨h1, h2⟩ := h
  exact ⟨(ho.current i hi).trans h1, by rwa [ho.chunks i hi]⟩

/-- It gets none, whatever the file is. Source: `Downloader::loadDownloads`. Kind: L -/
theorem loadLoop_refused (env : Env) (old : ℕ → Mem) (n : ℕ) (file : List UInt8)
    {d : Downloader L} (hs : Shaped d) {i : Fin L.numChunks} (h : Refused d i) :
    (loadLoop env old n file d).current_chunks i = none := by
  induction n generalizing file d with
  | zero => exact h.current
  | succ n ih =>
    rw [loadLoop_succ]
    by_cases h1 : (ChunkDownloadHeader.read (old n) file).index < L.numChunks
    swap
    · rw [dif_neg h1]
      exact h.current
    rw [dif_pos h1]
    set j : Fin L.numChunks := ⟨_, h1⟩
    split
    · exact h.current
    split
    · exact ih _ hs h
    next h2 =>
    have hne : i ≠ j := by
      rintro rfl
      exact h2 h.refused
    have hp := hs.prepared env j
    have ho := (onlyAt_prepared env).trans (onlyAt_loadRecord (old n)
      (ChunkDownloadHeader.read (old n) file) (file.drop ChunkDownloadHeader.size) (hp j).1)
    exact ih _ (hp.loadRecord _ _ _ j) (h.of_onlyAt ho hne)

/-- A chunk that was prepared has a buffer or a mapping, also after bytes were read.
Source: `migrate/ccmigrate.cpp`. Kind: L -/
theorem placed_filled {d : Downloader L} {i : Fin L.numChunks} (hp : Placed i (d.cman.chunks i))
    (hnull : (d.cman.chunks i).data.isNull = false) (o : Option (List UInt8)) :
    Placed i ((d.filled i o).cman.chunks i) ∧
      ((d.filled i o).cman.chunks i).data.isNull = false := by
  cases o with
  | none => exact ⟨hp, hnull⟩
  | some bs =>
    obtain ⟨h1, h2, -⟩ := copyInto_spec hp hnull 0 bs
    exact ⟨h1, h2⟩

/-- **A record that is not what its chunk needs**: its download is lost, and no later record can
bring it back, because the chunk was prepared. Source: `Downloader::loadDownloads`. Kind: L -/
theorem loadLoop_fails {d : Downloader L} (hs : Shaped d) {i : Fin L.numChunks} (ha : Accepts d i)
    (env : Env) (old : ℕ → Mem) (n : ℕ) {file rest : List UInt8} {hdr : ChunkDownloadHeader}
    (hread : ChunkDownloadHeader.read (old n) file = hdr)
    (hdrop : file.drop ChunkDownloadHeader.size = rest) (hindex : hdr.index = i)
    (hbad : hdr.num_bits ≠ numPieces (sizeOf i) ∨
      (hdr.buffered ≠ 0 ∧ (rest.drop (numBytes hdr.num_bits)).length < sizeOf i)) :
    (loadLoop env old (n + 1) file d).current_chunks i = none := by
  subst hread hdrop
  set hdr := ChunkDownloadHeader.read (old n) file with hhdr
  set rest := file.drop ChunkDownloadHeader.size with hrest
  have hfail : (loaded (old n) hdr rest i (d.prepared env i)).ok = false := by
    unfold Downloader.loaded ChunkDownload.load
    by_cases hnum : hdr.num_bits = numPieces (sizeOf i)
    · obtain ⟨hbuf, hshort⟩ := hbad.resolve_left (not_not_intro hnum)
      have hlen : ((rest.drop (numBytes hdr.num_bits)).take (sizeOf i)).length ≠ sizeOf i := by
        rw [List.length_take]
        omega
      rw [if_neg (not_not_intro hnum)]
      simp only [if_pos hbuf, if_pos hlen]
    · rw [if_pos hnum]
  have hrec : (loadRecord (old n) hdr rest i (d.prepared env i)).2 =
      (d.prepared env i).filled i (loaded (old n) hdr rest i (d.prepared env i)).data := by
    unfold loadRecord
    simp only [hfail, Bool.false_eq_true, if_false]
  have hp := hs.prepared env i
  rw [loadLoop_accept ha env old n hindex]
  apply loadLoop_refused env old n _ (hp.loadRecord _ _ _ i)
  rw [hrec]
  obtain ⟨hplaced, hnull⟩ := placed_prepared hs ha env
  obtain ⟨hplaced', hnull'⟩ := placed_filled hplaced hnull
    (loaded (old n) hdr rest i (d.prepared env i)).data
  refine ⟨?_, .inr fun hst => ?_⟩
  · have hsame : ((d.prepared env i).filled i
        (loaded (old n) hdr rest i (d.prepared env i)).data).current_chunks = d.current_chunks := by
      cases (loaded (old n) hdr rest i (d.prepared env i)).data <;> rfl
    rw [hsame]
    exact ha.current
  · rw [hplaced'.away (.inr hst)] at hnull'
    cases hnull'

section lost

variable {d : Downloader L} {rs : List (OldChunk L)} (hn : NewSession d)
  (hnd : (rs.map OldChunk.index).Nodup) (env : Env) (old bools mem : ℕ → Mem)

include hn in
/-- What comes through was accepted. Source: `migrate/ccmigrate.cpp`. Kind: L -/
theorem accepts_of_preserved {n : ℕ} {file : List UInt8}
    (hp : Preserved rs (loadLoop env old n file d)) : ∀ r ∈ rs, Accepts d r.index := by
  intro r hr
  obtain ⟨cd, hcd, -⟩ := hp.listed r hr
  by_contra hacc
  have hrefused : Refused d r.index := by
    refine ⟨hn.current _, ?_⟩
    by_contra hno
    obtain ⟨hx, hst⟩ := not_or.mp hno
    exact hacc ⟨hn.current _, Bool.eq_false_iff.mpr hx, not_not.mp hst⟩
  rw [loadLoop_refused env old n file hn.shaped hrefused] at hcd
  cases hcd

include hn hnd in
/-- A chunk that is not measured well does not come back. Source: `migrate/ccmigrate.cpp`.
Kind: L -/
theorem measured_of_preserved
    (hp : Preserved rs (loadLoop env old rs.length
      (migrateLoop L bools mem rs.length (rs.flatMap OldChunk.bytes)) d)) :
    ∀ r ∈ rs, Measured L r.index := by
  intro r hr
  have hacc := accepts_of_preserved hn env old hp
  obtain ⟨cd, hcd, -⟩ := hp.listed r hr
  by_contra hm
  obtain ⟨hlast, hbad⟩ := cases_of_not_measured hm
  -- the records in front are measured exactly
  obtain ⟨front, back, hsplit⟩ := List.append_of_mem hr
  have hsub : ∀ r' ∈ front, r' ∈ rs := fun r' hr' => hsplit ▸ List.mem_append_left _ hr'
  have hnd' := hnd
  rw [hsplit, List.map_append, List.map_cons] at hnd'
  obtain ⟨hndf, -, hdis⟩ := List.nodup_append.mp hnd'
  have hne : ∀ r' ∈ front, r'.index ≠ r.index := fun r' hr' =>
    hdis _ (List.mem_map_of_mem hr') _ List.mem_cons_self
  have hexact : ∀ r' ∈ front, csize L r'.index = sizeOf r'.index := by
    intro r' hr'
    have hval : r'.index.val ≠ r.index.val := fun heq => hne r' hr' (Fin.ext heq)
    have hlt := r'.index.2
    exact csize_inner (by omega)
  -- what is written for this record
  obtain ⟨bits, data, rest', hchunk, hbits, hdata⟩ := migrateChunk_shape r (bools back.length)
    (mem back.length) (back.flatMap OldChunk.bytes)
  set hdr : ChunkDownloadHeader := ⟨r.index, numPieces (csize L r.index), 1⟩ with hhdr
  set tail := bits ++ (data ++ migrateLoop L bools mem back.length rest') with htail
  have hlen : rs.length = front.length + (back.length + 1) := by
    rw [hsplit, List.length_append, List.length_cons]
  have hfile : migrateLoop L bools mem rs.length (rs.flatMap OldChunk.bytes) =
      front.flatMap OldChunk.newBytes ++ (hdr.bytes ++ tail) := by
    have hold : rs.flatMap OldChunk.bytes = front.flatMap OldChunk.bytes ++
        (r.bytes ++ back.flatMap OldChunk.bytes) := by
      rw [hsplit, List.flatMap_append, List.flatMap_cons]
    rw [hold, hlen, migrateLoop_front hexact, migrateLoop, hchunk]
    simp only [htail, List.append_assoc]
  have hbad' : hdr.num_bits ≠ numPieces (sizeOf r.index) ∨
      (hdr.buffered ≠ 0 ∧ (tail.drop (numBytes hdr.num_bits)).length < sizeOf r.index) := by
    refine hbad.imp_right fun ⟨hone, hshort⟩ => ⟨one_ne_zero, ?_⟩
    have hback : back.length = 0 := by
      have hcard := hnd.length_le_card
      rw [Fintype.card_fin, List.length_map, hone, hlen] at hcard
      omega
    rw [htail, List.drop_left' hbits, hback, migrateLoop, List.append_nil, hdata]
    exact hshort
  have hread : ChunkDownloadHeader.read (old back.length) (hdr.bytes ++ tail) = hdr := by
    have hnum : numPieces (csize L r.index) < 2 ^ 32 := by
      have hcs : csize L r.index < 2 ^ 32 := by
        unfold csize
        split_ifs
        all_goals exact u32_lt _
      unfold numPieces MAX_PIECE_LEN
      split_ifs <;> omega
    exact ChunkDownloadHeader.read_bytes (r.index.2.trans L.chunks_lt) hnum
      (show 1 < 2 ^ 32 by decide) _ _
  -- the loop comes to it
  obtain ⟨d', hloop, hs', hkeep⟩ := loadLoop_front hndf
    (fun j hj => by
      obtain ⟨r', hr', rfl⟩ := List.mem_map.mp hj
      rw [current_carrier hnd (hsub r' hr')]
      exact ⟨rfl, placed_carrier rs _⟩) env old (back.length + 1) (hdr.bytes ++ tail) hn.shaped
    (fun j hj => by
      obtain ⟨r', hr', rfl⟩ := List.mem_map.mp hj
      exact ⟨_, ⟨rfl, rfl⟩, hacc r' (hsub r' hr')⟩)
  have hacc' : Accepts d' r.index := by
    refine (hacc r hr).of_untouched (hkeep r.index fun j hj heq => ?_)
    obtain ⟨r', hr', rfl⟩ := List.mem_map.mp hj
    exact hne r' hr' (Fin.ext heq)
  rw [List.length_map, ← hlen, ← flatMap_newBytes hnd hsub, ← hfile] at hloop
  rw [hloop, loadLoop_fails hs' hacc' env old back.length hread (List.drop_left' rfl) rfl hbad']
    at hcd
  cases hcd

include hn hnd in
/-- **Where all come back, all migrate.**. Source: `migrate/ccmigrate.cpp`. Kind: L -/
theorem migrates_of_preserved
    (hp : Preserved rs (d.loadDownloads env old (migrateCC L bools mem (oldFile rs)))) :
    ∀ r ∈ rs, Migrates d r.index := by
  intro r hr
  have hopen : d.cman.completed = false := by
    by_contra hcompleted
    obtain ⟨cd, hcd, -⟩ := hp.listed r hr
    rw [loadDownloads, if_pos (by simpa using hcompleted), hn.current] at hcd
    cases hcd
  rw [load_migrated hopen (length_lt hnd)] at hp
  have hacc := accepts_of_preserved hn env old hp r hr
  exact ⟨hopen, hacc.included, hacc.status, measured_of_preserved hn hnd env old bools mem hp r hr⟩

end lost

/-- **When the migration preserves the downloads**, for every torrent, every old file and every new
session: exactly when the session may go on with each chunk that is listed, and none of them is a
last chunk of which the migration gets the size wrong. Source: `migrate/ccmigrate.cpp`. Kind: P -/
theorem migration_iff {d : Downloader L} (hn : NewSession d) (rs : List (OldChunk L))
    (hnd : (rs.map OldChunk.index).Nodup) (env : Env) (old bools mem : ℕ → Mem) :
    Preserved rs (d.loadDownloads env old (migrateCC L bools mem (oldFile rs))) ↔
      ∀ r ∈ rs, Migrates d r.index :=
  ⟨migrates_of_preserved hn hnd env old bools mem, preserved hn hnd env old bools mem⟩

/-- A download of one of the two chunks of `twinLayout`, with all its pieces. Kind: D -/
def twinOld (i : Fin twinLayout.numChunks) : OldChunk twinLayout where
  index := i
  pieces := List.replicate (numPieces (sizeOf i)) true
  data := List.replicate (sizeOf i) 5
  length_pieces := List.length_replicate
  length_data := List.length_replicate

/-- The first chunk. Kind: D -/
abbrev firstTwin : Fin twinLayout.numChunks := ⟨0, by decide⟩

/-- The sample's session is a new one. Source: `migrate/ccmigrate.cpp`. Kind: L -/
theorem newSession_twin : NewSession (twinStart []) := newSession_start _ _ _ _ _ _

/-- The sample's session accepts both chunks. Source: `migrate/ccmigrate.cpp`. Kind: L -/
theorem accepts_twin (i : Fin twinLayout.numChunks) : (twinStart []).cman.completed = false ∧
    ((twinStart []).cman.chunks i).isExcluded = false ∧
    ((twinStart []).cman.chunks i).status = .notDownloaded := by
  revert i
  decide +kernel

/-- The download of the first chunk is preserved. Source: `migrate/ccmigrate.cpp`. Kind: P -/
theorem migration_twin : Preserved [twinOld firstTwin]
    ((twinStart []).loadDownloads {} (fun _ _ => 0) (migrateCC twinLayout
      (fun _ _ => 0) (fun _ _ => 0) (oldFile [twinOld firstTwin]))) := by
  refine (migration_iff newSession_twin [twinOld firstTwin] (List.nodup_singleton _) {} _ _ _).mpr ?_
  intro r hr
  obtain rfl := List.mem_singleton.mp hr
  obtain ⟨h1, h2, h3⟩ := accepts_twin firstTwin
  refine ⟨h1, h2, h3, fun hlast => ?_⟩
  cases hlast

/-- **The last chunk is lost when it is full**: its size is taken to be the length of the data
modulo the chunk size, which is zero. Source: `migrate/ccmigrate.cpp`. Kind: P -/
theorem fullLast_lost : ¬ ∀ (L : Layout) (d : Downloader L), NewSession d →
    d.cman.completed = false → ∀ rs : List (OldChunk L), (rs.map OldChunk.index).Nodup →
    (∀ r ∈ rs, Wanted d r.index) → ∀ (env : Env) (old bools mem : ℕ → Mem),
    Preserved rs (d.loadDownloads env old (migrateCC L bools mem (oldFile rs))) := by
  intro h
  have hw : Wanted (twinStart []) twinChunk := by
    unfold Wanted
    decide +kernel
  have hnd : ([twinOld twinChunk].map OldChunk.index).Nodup := List.nodup_singleton _
  have hp := h twinLayout (twinStart []) newSession_twin (by decide +kernel) [twinOld twinChunk]
    hnd (fun r hr => by rwa [List.mem_singleton.mp hr]) {} (fun _ _ => 0)
    (fun _ _ => 0) (fun _ _ => 0)
  have hm := (migrates_of_preserved newSession_twin hnd {} _ _ _ hp
    (twinOld twinChunk) (List.mem_singleton.mpr rfl)).measured
  exact absurd (hm rfl) (by decide)

end KTorrent.Transfer.CcMigrate
