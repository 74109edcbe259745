import KTorrent.Check.Soundness
import KTorrent.Storage.DerivedSizes
import KTorrent.Storage.IndexFile

/-!
# Importing existing data

The import checks the data there is, writes an index file with the chunks that were found and counts
their bytes; the torrent is then loaded with this index file.

* `writeIndex`, `calcImportedBytes`, `importData` — the import.
* `Recorded` — the chunk manager that loads the index file owns exactly the chunks that were found,
  and the bytes that were counted are theirs.
* `recorded_importData` — this holds of every import; so what an import of several files owns of the
  chunks on the disk are those that have their hash (`import_sound`).

Links to the data, the directories that are made and the other entries of the stats file are left
out, and so is what happens when a file cannot be written.

Source: `plugins/partfileimport/importdialog.cpp`
-/

namespace KTorrent.Check

open KTorrent.Lib KTorrent.Util KTorrent.Storage

/-- The headers that are written, one for each chunk found. Source: `ImportDialog::writeIndex`.
Kind: D -/
def writeIndex {n : ℕ} (chunks : BitSet n) : List ℕ := (List.range n).filter fun i => chunks.get i

/-- The loop body. Source: `ImportDialog::calcImportedBytes`. Kind: D -/
def addImported (t : Torrent) (chunks : BitSet t.getNumChunks) (ls nb i : ℕ) : ℕ :=
  if !chunks.get i then nb
  else if i = sub32 t.getNumChunks 1 then u64 (nb + ls)
  else u64 (nb + t.piece_length)

/-- Source: `ImportDialog::calcImportedBytes`. Kind: D -/
def calcImportedBytes (t : Torrent) (chunks : BitSet t.getNumChunks) : ℕ :=
  let ls := t.file_length % t.piece_length
  let ls := if ls = 0 then t.piece_length else ls
  (List.range t.getNumChunks).foldl (addImported t chunks ls) 0

/-- The result of the check that comes first: no file is excluded. The file of a torrent of one file
has to open. Source: `ImportDialog::import`. Kind: D -/
def checkData (t : Torrent) (disk : Disk) (data : Option (List UInt8)) (junk : Mem) :
    Option (BitSet t.getNumChunks) :=
  if t.isMultiFile then
    (MultiDataChecker.check disk (fun _ => false) t junk).map fun s => s.1.downloaded
  else
    data.bind fun file =>
      (SingleDataChecker.check t file junk).map fun s => s.checker.downloaded

/-- What an import leaves: the headers of the index file, the entry of the stats file, and the words
of the file info file. Source: `ImportDialog::import`. Kind: D -/
structure Imported where
  index_file : List ℕ
  imported : ℕ
  file_info : Option (List ℕ)

/-- Source: `ImportDialog::import`. Kind: D -/
def importData (t : Torrent) (disk : Disk) (data : Option (List UInt8)) (junk : Mem) :
    Option Imported := do
  let downloaded ← checkData t disk data junk
  return { index_file := writeIndex downloaded
           imported := calcImportedBytes t downloaded
           file_info := if t.isMultiFile then some [0] else none }

/-- The chunk manager of an imported torrent. Source: `CoreInterface::loadExistingTorrent`,
`ChunkManager::loadIndexFile`. Kind: D -/
def loadImported (L : Layout) (env : Env) (cache : Cache) (im : Imported) : ChunkManager L :=
  (ChunkManager.construct L env (fun _ => {})
    { cache := cache, index_file := im.index_file, file_info := im.file_info }).loadIndexFile env

/-! ### The index file -/

section index

variable {L : Layout} {env : Env}

/-- The index lists the chunks that are in order. Source: `ImportDialog::writeIndex`. Kind: L -/
theorem mem_writeIndex {n : ℕ} {chunks : BitSet n} {i : ℕ} :
    i ∈ writeIndex chunks ↔ chunks.get i = true := by
  unfold writeIndex
  rw [List.mem_filter, List.mem_range]
  exact ⟨fun h => h.2, fun h => ⟨BitSet.lt_of_get h, h⟩⟩

/-- **The chunks found are the chunks owned**, when the header that is never read holds a chunk that
was found or no chunk's number. Source: `CoreInterface::loadExistingTorrent`,
`ChunkManager::loadIndexFile`. Kind: P -/
theorem bitset_loadImported (im : Imported) {chunks : BitSet L.numChunks}
    (him : im.index_file = writeIndex chunks) (hopen : env.file.index_opens = true)
    (hleft : chunks.get env.word = true ∨ L.numChunks ≤ env.word) (cache : Cache) :
    (loadImported L env cache im).bitset = chunks := by
  refine BitSet.ext_get fun i hi => ?_
  have hget := ChunkManager.get_bitset_load hopen (fun _ => {})
    { cache := cache, index_file := im.index_file, file_info := im.file_info } ⟨i, hi⟩
  unfold loadImported
  rw [hget, Bool.eq_iff_iff, decide_eq_true_eq, him, mem_writeIndex]
  constructor
  · rintro ⟨-, h | h⟩
    · exact h
    · have hword : i = env.word := h
      rcases hleft with hl | hl
      · rw [hword]
        exact hl
      · omega
  · exact fun h => ⟨List.ne_nil_of_mem (mem_writeIndex.mpr h), .inl h⟩

end index

/-! ### The bytes that are counted -/

section bytes

variable {L : Layout} (chunks : BitSet L.numChunks)

/-- The bytes of the chunks found before the `k`-th. Kind: D -/
def foundBefore (k : ℕ) : ℕ :=
  ∑ i ∈ Finset.range k, if chunks.get i = true then L.bytesOf i else 0

/-- All chunks found make the total. Source: `plugins/partfileimport/importdialog.cpp`. Kind: L -/
theorem foundBefore_numChunks :
    foundBefore chunks L.numChunks = L.total fun i => chunks.get i = true := by
  unfold foundBefore Layout.total
  rw [Finset.sum_filter, Fin.sum_univ_eq_sum_range fun i =>
    if chunks.get i = true then L.bytesOf i else 0]

/-- What is found is no more than the torrent. Source: `plugins/partfileimport/importdialog.cpp`.
Kind: L -/
theorem foundBefore_le {k : ℕ} (hk : k ≤ L.numChunks) : foundBefore chunks k ≤ L.file_length := by
  refine le_trans (Finset.sum_le_sum fun i _ => ?_) ((Layout.sum_bytesOf hk).trans_le
    (min_le_right _ _))
  split_ifs
  · exact le_rfl
  · exact Nat.zero_le _

/-- One chunk is counted with its bytes. Source: `ImportDialog::calcImportedBytes`. Kind: L -/
theorem addImported_eq {k : ℕ} (hk : k < L.numChunks) :
    addImported L.torrent chunks
        (if L.file_length % L.piece_length = 0 then L.piece_length
          else L.file_length % L.piece_length) (foundBefore chunks k) k =
      foundBefore chunks (k + 1) := by
  have hlt := L.chunks_lt
  have hlast : sub32 L.torrent.getNumChunks 1 = L.numChunks - 1 :=
    sub32_of_le (show 1 ≤ L.numChunks by omega) hlt
  have hle := (foundBefore_le chunks (show k + 1 ≤ L.numChunks by omega)).trans_lt L.length_lt
  have hsucc : foundBefore chunks (k + 1) =
      foundBefore chunks k + if chunks.get k = true then L.bytesOf k else 0 :=
    Finset.sum_range_succ _ k
  rw [hsucc] at hle ⊢
  unfold addImported
  show (if (!chunks.get k) = true then _ else if k = sub32 L.torrent.getNumChunks 1 then _
    else u64 (_ + L.piece_length)) = _
  cases hget : chunks.get k with
  | false => rfl
  | true =>
    rw [hget, if_pos rfl] at hle
    rw [hlast, if_pos rfl]
    simp only [Bool.not_true, Bool.false_eq_true, if_false]
    by_cases hend : k = L.numChunks - 1
    · rw [if_pos hend, ← Layout.bytesOf_last (show k + 1 = L.numChunks by omega),
        u64_of_lt hle]
    · have hpiece := Layout.bytesOf_of_succ_lt (show k + 1 < L.numChunks by omega)
      rw [hpiece] at hle ⊢
      rw [if_neg hend]
      exact u64_of_lt hle

/-- **The bytes counted are those of the chunks found.**. Source: `ImportDialog::calcImportedBytes`.
Kind: P -/
theorem calcImportedBytes_eq :
    calcImportedBytes L.torrent chunks = L.total fun i => chunks.get i = true := by
  have hrun : ∀ k ≤ L.numChunks, (List.range k).foldl (addImported L.torrent chunks
      (if L.file_length % L.piece_length = 0 then L.piece_length
        else L.file_length % L.piece_length)) 0 = foundBefore chunks k := by
    intro k hk
    induction k with
    | zero => rfl
    | succ k ih =>
      rw [List.range_succ, List.foldl_append, ih (by omega)]
      exact addImported_eq chunks (by omega)
  rw [← foundBefore_numChunks, ← hrun L.numChunks le_rfl]
  rfl

end bytes

/-! ### The import -/

/-- **What an import of several files owns.** Of the chunks that the disk has, the chunk manager
owns those that have their hash; the bytes that were counted are those of the chunks it owns.
Source: `CoreInterface::loadExistingTorrent`, `ChunkManager::loadIndexFile`. Kind: P -/
theorem import_sound {L : Layout} {disk : Disk} (hp : L.piece_length < 2 ^ 32)
    (hfiles : L.files ≠ []) (junk : Mem) :
    ∃ im, importData L.torrent disk none junk = some im ∧
      ∀ (env : Env) (cache : Cache), env.file.index_opens = true →
        (env.word ∈ im.index_file ∨ L.numChunks ≤ env.word) →
        (∀ c < L.numChunks, ∀ bs, Present disk (fun _ => false) L c bs →
          ((loadImported L env cache im).bitset.get c = true ↔
            L.torrent.getHash c = some (generate bs))) ∧
        im.imported = L.total fun i => (loadImported L env cache im).bitset.get i = true := by
  -- nothing is excluded, so no border bytes are read
  have hb : disk.Bounded (fun _ => false) L := fun _ _ hex => absurd hex Bool.false_ne_true
  obtain ⟨s, hrun, hsound⟩ : ∃ s, MultiDataChecker.check disk (fun _ => false) L.torrent junk =
      some s ∧ ∀ c < L.numChunks, s.1.failed.get c = !s.1.downloaded.get c ∧
        ∀ bs, Present disk (fun _ => false) L c bs →
          (s.1.downloaded.get c = true ↔ L.torrent.getHash c = some (generate bs)) :=
    MultiDataChecker.check_sound hp hb (fun _ => hfiles) junk
  have hmulti : L.torrent.isMultiFile = true := by
    unfold Torrent.isMultiFile
    rw [decide_eq_true_eq, Layout.length_files]
    exact List.length_pos_iff.mpr hfiles
  have himport : importData L.torrent disk none junk = some
      { index_file := writeIndex s.1.downloaded
        imported := calcImportedBytes L.torrent s.1.downloaded
        file_info := some [0] } := by
    have hcheck : checkData L.torrent disk none junk = some s.1.downloaded := by
      unfold checkData
      rw [if_pos hmulti, hrun, Option.map_some]
    unfold importData
    simp only [hcheck, hmulti, if_true, Option.bind_eq_bind, Option.bind_some, Option.pure_def]
  refine ⟨_, himport, fun env cache hopen hleft => ?_⟩
  have hbits := bitset_loadImported ⟨writeIndex s.1.downloaded,
    calcImportedBytes L.torrent s.1.downloaded, some [0]⟩ rfl hopen
    (hleft.imp_left mem_writeIndex.mp) cache
  refine ⟨fun c hc bs hbs => ?_, ?_⟩
  · rw [hbits]
    exact (hsound c hc).2 bs hbs
  · rw [hbits]
    exact calcImportedBytes_eq s.1.downloaded

/-- The bytes of the first chunk of two files. Kind: D -/
def importedDisk : Disk where
  cache := fun path => if path = ['a'] then some [1, 2, 3] else some [4]
  dnd := fun _ => none

/-- An import of two files, of which the second ends early: the first chunk is owned.
Source: `CoreInterface::loadExistingTorrent`, `ChunkManager::loadIndexFile`. Kind: L -/
theorem import_sound_cut : ∃ im,
    importData twoFiles.torrent importedDisk none (fun _ => 0) = some im ∧
      ∀ (env : Env) (cache : Cache), env.file.index_opens = true → twoFiles.numChunks ≤ env.word →
        (loadImported twoFiles env cache im).bitset.get 0 = true ∧
        im.imported =
          twoFiles.total fun i => (loadImported twoFiles env cache im).bitset.get i = true := by
  obtain ⟨im, hrun, hall⟩ :=
    @import_sound twoFiles importedDisk (by decide) (by decide) (fun _ => 0)
  refine ⟨im, hrun, fun env cache hopen hword => ?_⟩
  obtain ⟨howned, hbytes⟩ := hall env cache hopen (.inr hword)
  exact ⟨(howned 0 (by decide) [1, 2, 3, 4] (present_twoFiles (by decide) (by decide))).mpr rfl,
    hbytes⟩

end KTorrent.Check
