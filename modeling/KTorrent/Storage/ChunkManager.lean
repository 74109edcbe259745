import KTorrent.Lib.Loop
import KTorrent.Storage.Cache
import KTorrent.Util.BitSet

/-!
# The chunk manager

* `ChunkManager L` — the manager of a torrent with layout `L`: its chunks, the four bit sets, the
  selection of the torrent's files, the cache, the index and priority files, and the log of the
  signals it has emitted. The slots those signals are connected to belong to the downloader; every
  emission is the last thing its operation does to the state, so a log read off afterwards is as
  good as a call.
* `Env` — the operating system's answers during one operation, for each chunk and for the files.
* `prioritise`, `excludeRange`, `includeRange`, `resetChunk`, `saveChunk`, `dataChecked`,
  `grabChunk`, `downloadStatusChanged`, `downloadPriorityChanged`, `loadIndexFile`, … — the
  operations, with the source's loops as `forRange`.

Statistics (`updateStats`, `updateFilePercentage`, the cached `chunks_left`) are left out: nothing
here reads them.

Source: `torrent/chunkmanager.h`, `torrent/chunkmanager.cpp`
-/

namespace KTorrent.Storage

open KTorrent.Lib KTorrent.Util

/-- A signal of the chunk manager. Source: `torrent/chunkmanager.h`, signals. Kind: D -/
inductive Signal
  | excluded (first last : ℕ)
  | included (first last : ℕ)
  | corrupted (chunk : ℕ)
deriving DecidableEq, Repr

/-- What the operating system answers during one operation: about each chunk, and about the files
as a whole. Kind: D -/
structure Env where
  chunk : ℕ → Os := fun _ => {}
  file : Os := {}
  /-- What a word holds that was never written. -/
  word : ℕ := 0

/-- What is left of a torrent between two runs of the program: the data, and the headers and words
of the index, priority and file info files. Kind: D -/
structure Saved where
  cache : Cache
  index_file : List ℕ := []
  file_priority : Option (List ℕ) := none
  file_info : Option (List ℕ) := none

/-- Source: `torrent/chunkmanager.h`, `ChunkManager`. Kind: D -/
structure ChunkManager (L : Layout) where
  chunks : Fin L.numChunks → Chunk
  bitset : BitSet L.numChunks := .empty _
  excluded_chunks : BitSet L.numChunks := .empty _
  only_seed_chunks : BitSet L.numChunks := .empty _
  todo : BitSet L.numChunks
  /-- The selection of each of the torrent's files. -/
  files : ℕ → FileSelection
  cache : Cache
  /-- The chunks in memory, and when they were last asked for. -/
  loaded : ℕ → Option ℕ := fun _ => none
  corrupted_count : ℕ := 0
  recheck_counter : ℕ := 0
  during_load : Bool := false
  /-- The indices of the headers in the index file. -/
  index_file : List ℕ := []
  /-- The words of the priority file, `none` without one. -/
  file_priority : Option (List ℕ) := none
  /-- The words of the file info file, `none` without one. -/
  file_info : Option (List ℕ) := none
  signals : List Signal := []

namespace ChunkManager

variable {L : Layout}

/-- Source: `ChunkManager::getChunk`, whose null pointer is `none`. Kind: D -/
def getChunk (s : ChunkManager L) (i : ℕ) : Option Chunk :=
  if h : i < L.numChunks then some (s.chunks ⟨i, h⟩) else none

/-- What is done through the pointer `getChunk` gives; nothing when it is null. Kind: D -/
def modifyChunk (i : ℕ) (f : Chunk → Chunk) (s : ChunkManager L) : ChunkManager L :=
  if h : i < L.numChunks then
    { s with chunks := Function.update s.chunks ⟨i, h⟩ (f (s.chunks ⟨i, h⟩)) }
  else s

/-- Source: the signals `excluded`, `included` and `corrupted`. Kind: D -/
def emit (g : Signal) (s : ChunkManager L) : ChunkManager L :=
  { s with signals := s.signals ++ [g] }

/-- Source: `ChunkManager::completed`. Kind: D -/
def completed (s : ChunkManager L) : Bool :=
  decide (s.todo.numOnBits = 0) && decide (s.bitset.numOnBits > 0)

/-- Source: `ChunkManager::chunksLeft`, recalculated. Kind: D -/
def chunksLeft (s : ChunkManager L) : ℕ :=
  (List.finRange L.numChunks).countP fun i : Fin L.numChunks =>
    !s.bitset.get i && !(s.chunks i).isExcluded

/-! ### Single chunks -/

/-- `if (c->getStatus() == Chunk::MMAPPED) cache->save(c);`
Source: `ChunkManager::resetChunk`, `releaseChunk`, `checkMemoryUsage`. Kind: D -/
def saveMapped (os : Os) (i : ℕ) (s : ChunkManager L) : ChunkManager L :=
  if h : i < L.numChunks then
    if (s.chunks ⟨i, h⟩).status = .mmapped then
      let r := s.cache.save L.torrent os (s.chunks ⟨i, h⟩)
      { s with chunks := Function.update s.chunks ⟨i, h⟩ r.1, cache := r.2.1 }
    else s
  else s

/-- Source: `ChunkManager::resetChunk`. Kind: D -/
def resetChunk (os : Os) (i : ℕ) (s : ChunkManager L) : ChunkManager L :=
  if i ≥ L.numChunks then s
  else
    let s := (s.saveMapped os i).modifyChunk i fun c => { c.clear with status := .notDownloaded }
    { s with
      bitset := s.bitset.set i false
      todo := s.todo.set i (!s.excluded_chunks.get i && !s.only_seed_chunks.get i)
      loaded := Function.update s.loaded i none }

/-- `c->clear(); c->setStatus(Chunk::ON_DISK);` after a mapped chunk has been saved. Kind: D -/
def unload (os : Os) (i : ℕ) (s : ChunkManager L) : ChunkManager L :=
  (s.saveMapped os i).modifyChunk i fun c => { c.clear with status := .onDisk }

/-- Whether somebody holds the chunk. Source: `Chunk::taken`. Kind: D -/
def taken (s : ChunkManager L) (i : ℕ) : Bool := (s.getChunk i).any Chunk.taken

/-- Source: `ChunkManager::releaseChunk`. Kind: D -/
def releaseChunk (os : Os) (i : ℕ) (s : ChunkManager L) : ChunkManager L :=
  if i ≥ L.numChunks ∨ s.taken i then s
  else
    let s := s.unload os i
    { s with loaded := Function.update s.loaded i none }

/-- One round of `checkMemoryUsage`. Source: `ChunkManager::checkMemoryUsage`, the loop body.
Kind: D -/
def expireChunk (env : Env) (now i : ℕ) (s : ChunkManager L) : ChunkManager L :=
  match s.loaded i with
  | none => s
  | some t =>
      if !s.taken i ∧ sub64 now t > 5000 then
        let s := s.unload (env.chunk i) i
        { s with loaded := Function.update s.loaded i none }
      else s

/-- The map `loaded` is walked in the order of its keys.
Source: `ChunkManager::checkMemoryUsage`. Kind: D -/
def checkMemoryUsage (env : Env) (now : ℕ) (s : ChunkManager L) : ChunkManager L :=
  forRange 0 L.numChunks (expireChunk env now) s

/-- One round of `stop`. Source: `ChunkManager::stop`, the loop body. Kind: D -/
def stopChunk (env : Env) (i : ℕ) (s : ChunkManager L) : ChunkManager L :=
  match (s.getChunk i).map Chunk.status with
  | some .mmapped => s.unload (env.chunk i) i
  | some .buffered => s.modifyChunk i fun c => { c.clear with status := .onDisk }
  | _ => s

/-- Source: `ChunkManager::stop`. Kind: D -/
def stop (env : Env) (s : ChunkManager L) : ChunkManager L :=
  forRange 0 L.numChunks (stopChunk env) s

/-- Source: `ChunkManager::writeIndexFileEntry`; `false` when it throws. Kind: D -/
def writeIndexFileEntry (os : Os) (i : ℕ) (s : ChunkManager L) : ChunkManager L × Bool :=
  if os.index_opens then ({ s with index_file := s.index_file ++ [i] }, true) else (s, false)

/-- Source: `ChunkManager::saveChunk`; `false` when it throws. Kind: D -/
def saveChunk (os : Os) (i : ℕ) (update_index : Bool) (s : ChunkManager L) :
    ChunkManager L × Bool :=
  if h : i < L.numChunks then
    if !(s.chunks ⟨i, h⟩).isExcluded then
      let r := s.cache.save L.torrent os (s.chunks ⟨i, h⟩)
      let s := { s with chunks := Function.update s.chunks ⟨i, h⟩ r.1, cache := r.2.1 }
      if !r.2.2 then (s, false)
      else if update_index then
        writeIndexFileEntry os i
          { s with bitset := s.bitset.set i true, todo := s.todo.set i false }
      else (s, true)
    else (s.modifyChunk i fun c => { c.clear with status := .notDownloaded }, true)
  else (s, true)

/-- Source: `ChunkManager::prepareChunk`; the second component is what it returns. Kind: D -/
def prepareChunk (os : Os) (i : ℕ) (allways : Bool) (s : ChunkManager L) :
    ChunkManager L × Bool :=
  if h : i < L.numChunks then
    if !allways && (s.chunks ⟨i, h⟩).status ≠ .notDownloaded then (s, false)
    else
      let r := s.cache.prep L.torrent os (s.chunks ⟨i, h⟩)
      ({ s with chunks := Function.update s.chunks ⟨i, h⟩ r.1, cache := r.2 }, true)
  else (s, false)

/-! ### Ranges of chunks -/

/-- One round of `prioritise`. Source: `ChunkManager::prioritise`, the loop body. Kind: D -/
def prioritiseChunk (p : Priority) (i : ℕ) (s : ChunkManager L) : ChunkManager L :=
  let s := s.modifyChunk i fun c => { c with priority := p }
  match p with
  | .onlySeed =>
      { s with only_seed_chunks := s.only_seed_chunks.set i true, todo := s.todo.set i false }
  | .excluded =>
      { s with only_seed_chunks := s.only_seed_chunks.set i false, todo := s.todo.set i false }
  | _ =>
      { s with
        only_seed_chunks := s.only_seed_chunks.set i false
        todo := s.todo.set i (!s.bitset.get i) }

/-- `if (from > to) std::swap(from,to);` and `while (i <= to && i < chunks.count())`.
Source: `ChunkManager::prioritise`, `exclude`, `include`. Kind: D -/
def forChunks (first last : ℕ) (f : ℕ → ChunkManager L → ChunkManager L) (s : ChunkManager L) :
    ChunkManager L :=
  forRange (min first last) (min (max first last + 1) L.numChunks) f s

/-- Source: `ChunkManager::prioritise`. Kind: D -/
def prioritise (first last : ℕ) (p : Priority) (s : ChunkManager L) : ChunkManager L :=
  s.forChunks first last (prioritiseChunk p)

/-- One round of `exclude`. Source: `ChunkManager::exclude`, the loop body. Kind: D -/
def excludeChunk (i : ℕ) (s : ChunkManager L) : ChunkManager L :=
  let s := s.modifyChunk i fun c => c.setExclude true
  { s with
    excluded_chunks := s.excluded_chunks.set i true
    only_seed_chunks := s.only_seed_chunks.set i false
    todo := s.todo.set i false
    bitset := s.bitset.set i false }

/-- Source: `ChunkManager::exclude`. Kind: D -/
def excludeRange (first last : ℕ) (s : ChunkManager L) : ChunkManager L :=
  (s.forChunks first last excludeChunk).emit (.excluded (min first last) (max first last))

/-- One round of `include`. Source: `ChunkManager::include`, the loop body. Kind: D -/
def includeChunk (i : ℕ) (s : ChunkManager L) : ChunkManager L :=
  let s := s.modifyChunk i fun c => c.setExclude false
  { s with
    excluded_chunks := s.excluded_chunks.set i false
    todo := if !s.bitset.get i then s.todo.set i true else s.todo }

/-- Source: `ChunkManager::include`. Kind: D -/
def includeRange (first last : ℕ) (s : ChunkManager L) : ChunkManager L :=
  (s.forChunks first last includeChunk).emit (.included (min first last) (max first last))

/-! ### Priority and index files -/

/-- Source: `ChunkManager::saveFileInfo`. Kind: D -/
def saveFileInfo (s : ChunkManager L) : ChunkManager L :=
  let ks := (List.range L.torrent.getNumFiles).filter fun k => (s.files k).doNotDownload
  { s with file_info := some (ks.length :: ks) }

/-- Source: `ChunkManager::savePriorityInfo`. Kind: D -/
def savePriorityInfo (s : ChunkManager L) : ChunkManager L :=
  if s.during_load then s
  else
    let s := s.saveFileInfo
    let ks := (List.range L.torrent.getNumFiles).filter fun k => (s.files k).priority ≠ .normal
    { s with
      file_priority :=
        some (2 * ks.length :: ks.flatMap fun k => [k, (s.files k).priority.value]) }

/-- Source: `ChunkManager::saveIndexFile`; `false` when it throws. Kind: D -/
def saveIndexFile (os : Os) (s : ChunkManager L) : ChunkManager L × Bool :=
  if os.index_opens then
    let written := (List.finRange L.numChunks).filter fun i : Fin L.numChunks =>
      (s.chunks i).status ≠ .notDownloaded
    (savePriorityInfo { s with index_file := written.map Fin.val }, true)
  else (s, false)

/-- Source: `ChunkManager::dataChecked`, the loop body. Kind: D -/
def dataCheckedChunk (env : Env) (ok_chunks : BitSet L.numChunks) (i : ℕ) (s : ChunkManager L) :
    ChunkManager L :=
  if ok_chunks.get i ∧ !s.bitset.get i then
    { s with bitset := s.bitset.set i true, todo := s.todo.set i false }.modifyChunk i
      fun c => { c with status := .onDisk }
  else if !ok_chunks.get i ∧ s.bitset.get i then
    let s := { s with
      bitset := s.bitset.set i false
      todo := s.todo.set i (!s.only_seed_chunks.get i && !s.excluded_chunks.get i) }
    match (s.getChunk i).map Chunk.status with
    | some .onDisk => s.modifyChunk i fun c => { c with status := .notDownloaded }
    | some .mmapped | some .buffered => s.resetChunk (env.chunk i) i
    | _ => s
  else s

/-- Source: `ChunkManager::dataChecked`, which swallows a failure to save the index file.
Kind: D -/
def dataChecked (env : Env) (ok_chunks : BitSet L.numChunks) (s : ChunkManager L) :
    ChunkManager L :=
  let s := forRange 0 L.numChunks (dataCheckedChunk env ok_chunks) s
  { (s.saveIndexFile env.file).1 with corrupted_count := 0 }

/-- What `grabChunk` gives its caller. Kind: D -/
inductive Grab
  | thrown
  | null
  | chunk
deriving DecidableEq, Repr

/-- Source: `ChunkManager::grabChunk`; `max_chunk_size_for_data_check` is the static member.
Kind: D -/
def grabChunk (os : Os) (max_chunk_size_for_data_check now i : ℕ) (s : ChunkManager L) :
    ChunkManager L × Grab :=
  if h : i < L.numChunks then
    let c := s.chunks ⟨i, h⟩
    if c.status = .notDownloaded ∨ c.isExcluded then (s, .null)
    else if c.status = .onDisk then
      let r := s.cache.load L.torrent os c
      let s := { s with chunks := Function.update s.chunks ⟨i, h⟩ r.1, cache := r.2.1 }
      if !r.2.2 then (s, .thrown)
      else
        let s := { s with loaded := Function.update s.loaded i (some now) }
        -- without a corruption so far, only every fifth chunk is checked
        let check_allowed :=
          decide (max_chunk_size_for_data_check = 0 ∨
            L.piece_length ≤ max_chunk_size_for_data_check) &&
          !(decide (s.recheck_counter < 5) && decide (s.corrupted_count = 0))
        if !r.1.data.isNull ∧ check_allowed then
          let s := { s with recheck_counter := 0 }
          if !r.1.checkHash L.torrent s.cache L.hash_pieces[i] then
            let r := (s.resetChunk os i).saveIndexFile os
            if !r.2 then (r.1, .thrown)
            else
              (emit (.corrupted i) { r.1 with corrupted_count := r.1.corrupted_count + 1 }, .null)
          else ({ s with loaded := Function.update s.loaded i (some now) }, .chunk)
        else
          ({ s with
            recheck_counter := s.recheck_counter + 1
            loaded := Function.update s.loaded i (some now) }, .chunk)
    else ({ s with loaded := Function.update s.loaded i (some now) }, .chunk)
  else (s, .null)

/-! ### Selecting files -/

/-- What the loops over the files of a border chunk work out. Kind: D -/
structure Border where
  pos : ℕ
  reprioritise_border_chunk : Bool := false
  modified : Bool := false
  maxp : Priority := .onlySeed

/-- One round of the two loops that leave a border chunk out of the range when another file in it
is wanted: `stuck` says that the border cannot move, `move` moves it.
Source: `ChunkManager::downloadStatusChanged`. Kind: D -/
def trimBorder (s : ChunkManager L) (k : ℕ) (stuck : ℕ → Bool) (move : ℕ → ℕ) (b : Border)
    (j : ℕ) : Border :=
  if j = k ∨ (s.files j).doNotDownload then b
  else
    let b :=
      if !stuck b.pos ∧ !b.modified then
        { b with pos := move b.pos, reprioritise_border_chunk := true, modified := true }
      else b
    if (s.files j).priority.value > b.maxp.value then { b with maxp := (s.files j).priority } else b

/-- Source: `cache->downloadStatusChanged(tf,download); savePriorityInfo();`. Kind: D -/
def alertCache (env : Env) (k : ℕ) (s : ChunkManager L) : ChunkManager L :=
  savePriorityInfo
    { s with cache := s.cache.downloadStatusChanged L.torrent env.file (L.getFile k) }

/-- The chunks of a multimedia file that are fetched first; `few` is when its end is left alone.
Source: `ChunkManager::ChunkManager` and `downloadStatusChanged`. Kind: D -/
def prioritiseEnds (first last : ℕ) (few : ℕ → Bool) (s : ChunkManager L) : ChunkManager L :=
  let chunkOffset := (last - first) / 100 + 1
  let s := s.prioritise first (u32 (first + chunkOffset)) .preview
  if few chunkOffset then s else s.prioritise (last - chunkOffset) last .preview

/-- Source: `ChunkManager::downloadStatusChanged`, the branch for `download`. Kind: D -/
def selectFile (env : Env) (k : ℕ) (s : ChunkManager L) : ChunkManager L :=
  let tf := L.getFile k
  let s := s.includeRange tf.first_chunk tf.last_chunk
  let s :=
    if tf.multimedia then
      s.prioritiseEnds tf.first_chunk tf.last_chunk fun _ => tf.last_chunk - tf.first_chunk ≤ 2
    else s
  s.alertCache env k

/-- The resets at the start of deselecting a file: everything between the borders, and the borders
that only lie in one file. Source: `ChunkManager::downloadStatusChanged`. Kind: D -/
def resetFile (env : Env) (k : ℕ) (s : ChunkManager L) : ChunkManager L :=
  let first := (L.getFile k).first_chunk
  let last := (L.getFile k).last_chunk
  let s := forRange (first + 1) last (fun i s => s.resetChunk (env.chunk i) i) s
  let s :=
    if (L.torrent.calcChunkPos first).length = 1 ∧ first ≠ 0 then
      s.resetChunk (env.chunk first) first
    else s
  if last ≠ first ∧ (L.torrent.calcChunkPos last).length = 1 then
    s.resetChunk (env.chunk last) last
  else s

/-- The first border, after the loop over its files. Source: `ChunkManager::downloadStatusChanged`.
Kind: D -/
def trimFirst (s : ChunkManager L) (k : ℕ) : Border :=
  let tf := L.getFile k
  (L.torrent.calcChunkPos tf.first_chunk).foldl
    (s.trimBorder k (fun first => first = tf.last_chunk) (· + 1)) { pos := tf.first_chunk }

/-- The last border, after the loop over its files; `first` is where the first border has moved.
Source: `ChunkManager::downloadStatusChanged`. Kind: D -/
def trimLast (s : ChunkManager L) (k first : ℕ) : Border :=
  let tf := L.getFile k
  (L.torrent.calcChunkPos tf.last_chunk).foldl
    (s.trimBorder k (fun last => first = last ∨ last = 0) (· - 1)) { pos := tf.last_chunk }

/-- Source: `ChunkManager::downloadStatusChanged`, the branch for `!download`. Kind: D -/
def deselectFile (env : Env) (k : ℕ) (s : ChunkManager L) : ChunkManager L :=
  let tf := L.getFile k
  if tf.first_chunk = tf.last_chunk ∧ (L.torrent.calcChunkPos tf.first_chunk).length > 1 then
    s.alertCache env k
  else
    let s := s.resetFile env k
    let f := s.trimFirst k
    let s :=
      if f.reprioritise_border_chunk then s.prioritise (f.pos - 1) (f.pos - 1) f.maxp else s
    let l := s.trimLast k f.pos
    let s :=
      if l.reprioritise_border_chunk then s.prioritise (l.pos + 1) (l.pos + 1) l.maxp else s
    if l.pos < f.pos then s.alertCache env k
    else (s.excludeRange f.pos l.pos).alertCache env k

/-- Source: `ChunkManager::downloadStatusChanged`. Kind: D -/
def downloadStatusChanged (env : Env) (k : ℕ) (download : Bool) (s : ChunkManager L) :
    ChunkManager L :=
  if download then s.selectFile env k else s.deselectFile env k

/-- Whether another file in the chunk has a higher priority.
Source: `ChunkManager::downloadPriorityChanged`, the loops over `files`. Kind: D -/
def outranked (s : ChunkManager L) (k chunk : ℕ) (p : Priority) : Bool :=
  (L.torrent.calcChunkPos chunk).any fun j =>
    decide ((s.files j).priority.value > p.value) && decide (j ≠ k)

/-- The range a new priority is given to, `none` when the function returns before.
Source: `ChunkManager::downloadPriorityChanged`. Kind: D -/
def priorityRange (s : ChunkManager L) (k : ℕ) (p : Priority) : Option (ℕ × ℕ) :=
  let first := (L.getFile k).first_chunk
  let last := (L.getFile k).last_chunk
  if s.outranked k first p ∧ first = last then none
  else
    let first := if s.outranked k first p then first + 1 else first
    if s.outranked k last p ∧ (last = 0 ∨ last = first) then none
    else
      let last := if s.outranked k last p then last - 1 else last
      if last < first then none else some (first, last)

/-- Source: `ChunkManager::downloadPriorityChanged`. Kind: D -/
def downloadPriorityChanged (env : Env) (k : ℕ) (newpriority oldpriority : Priority)
    (s : ChunkManager L) : ChunkManager L :=
  if newpriority = .excluded then s.downloadStatusChanged env k false
  else if oldpriority = .excluded then s.downloadStatusChanged env k true
  else
    let s := s.savePriorityInfo
    match s.priorityRange k newpriority with
    | none => s
    | some (first, last) =>
        let s := s.prioritise first last newpriority
        if newpriority = .onlySeed then s.emit (.excluded first last) else s

/-- The assignments of `setDoNotDownload` and the signal that follows them, which the slot
`downloadPriorityChanged` receives. Source: `torrent/torrentfile.cpp`. Kind: D -/
def changeSelection (env : Env) (k : ℕ) (p : Priority) (s : ChunkManager L) : ChunkManager L :=
  let f := s.files k
  let old := if f.m_emitDlStatusChanged then f.priority else f.old_priority
  let s := { s with
    files := Function.update s.files k { f with old_priority := old, priority := p } }
  if f.m_emitDlStatusChanged then s.downloadPriorityChanged env k p old else s

/-- Source: `TorrentFile::setDoNotDownload`. Kind: D -/
def setDoNotDownload (env : Env) (k : ℕ) (dnd : Bool) (s : ChunkManager L) : ChunkManager L :=
  let s :=
    if (s.files k).priority ≠ .excluded ∧ dnd then s.changeSelection env k .excluded else s
  if (s.files k).priority = .excluded ∧ !dnd then s.changeSelection env k .normal else s

/-- Source: `TorrentFile::setPriority`. Kind: D -/
def setPriority (env : Env) (k : ℕ) (newpriority : Priority) (s : ChunkManager L) :
    ChunkManager L :=
  if (s.files k).priority = newpriority then s
  else
    let s := if (s.files k).priority = .excluded then s.setDoNotDownload env k false else s
    if newpriority = .excluded then s.setDoNotDownload env k true
    else
      let f := s.files k
      let s := { s with
        files := Function.update s.files k
          { f with old_priority := f.priority, priority := newpriority } }
      s.downloadPriorityChanged env k newpriority f.priority

/-! ### Loading -/

/-- Source: `ChunkManager::loadFileInfo`. Kind: D -/
def loadFileInfo (env : Env) (s : ChunkManager L) : ChunkManager L :=
  if s.during_load then s
  else
    match s.file_info with
    | none | some [] => s
    | some (num :: ks) =>
        (ks.take num).foldl
          (fun s k =>
            if k < L.torrent.getNumFiles then s.setDoNotDownload env k true else s) s

/-- The meaning of a word of the priority file, old numbers included.
Source: `ChunkManager::loadPriorityInfo`, the switch. Kind: D -/
def priorityOfWord (w : ℕ) : Priority :=
  if w = 50 ∨ w = 3 then .first
  else if w = 40 ∨ w = 2 then .normal
  else if w = 10 ∨ w = 0 then .excluded
  else if w = 20 ∨ w = 2 ^ 32 - 1 then .onlySeed
  else .last

/-- The loop of `loadPriorityInfo` over the words read; an odd last word is paired with one beyond
the array. Source: `ChunkManager::loadPriorityInfo`. Kind: D -/
def loadPriorities (env : Env) : List ℕ → ChunkManager L → ChunkManager L
  | [], s => s
  | [idx], s =>
      if idx ≥ L.torrent.getNumFiles then s.loadFileInfo env
      else s.setPriority env idx (priorityOfWord env.word)
  | idx :: w :: buf, s =>
      if idx ≥ L.torrent.getNumFiles then s.loadFileInfo env
      else loadPriorities env buf (s.setPriority env idx (priorityOfWord w))

/-- Source: `ChunkManager::loadPriorityInfo`. Kind: D -/
def loadPriorityInfo (env : Env) (s : ChunkManager L) : ChunkManager L :=
  match s.file_priority with
  | none | some [] => s.loadFileInfo env
  | some (num :: buf) =>
      if num > 2 * L.torrent.getNumFiles ∨ buf.length < num then s.loadFileInfo env
      else s.loadPriorities env (buf.take num)

/-- One round of `loadIndexFile`. Source: `ChunkManager::loadIndexFile`, the loop body. Kind: D -/
def loadHeader (s : ChunkManager L) (index : ℕ) : ChunkManager L :=
  if index < L.numChunks then
    { s with bitset := s.bitset.set index true, todo := s.todo.set index false }.modifyChunk index
      fun c => { c with status := .onDisk }
  else s

/-- The loop ends when `eof` holds, and that is after a read has failed: the last round works on a
header that was not read. Source: `ChunkManager::loadIndexFile`. Kind: D -/
def loadIndexFile (env : Env) (s : ChunkManager L) : ChunkManager L :=
  let s := { s with during_load := true }.loadPriorityInfo env
  let s :=
    if env.file.index_opens ∧ s.index_file ≠ [] then
      (s.index_file ++ [env.word]).foldl loadHeader s
    else s
  { s with during_load := false }

/-- The size of a chunk. Source: `ChunkManager::ChunkManager`. Kind: D -/
def chunkSize (L : Layout) (i : ℕ) : ℕ :=
  u32 (if i + 1 < L.numChunks then L.piece_length
    else sub64 L.file_length (u64 (L.piece_length * (L.numChunks - 1))))

/-- The members as the constructor initialises them. Source: `ChunkManager::ChunkManager`.
Kind: D -/
def base (L : Layout) (files : ℕ → FileSelection) (saved : Saved) : ChunkManager L where
  chunks i := { index := i, size := chunkSize L i }
  todo := (BitSet.empty _).setAll true
  files := files
  cache := saved.cache
  index_file := saved.index_file
  file_priority := saved.file_priority
  file_info := saved.file_info

/-- The preview priority of a multimedia file. Source: `ChunkManager::ChunkManager`. Kind: D -/
def previewFile (k : ℕ) (s : ChunkManager L) : ChunkManager L :=
  let file := L.getFile k
  if !file.multimedia ∨ (s.files k).priority = .onlySeed then s
  else if file.first_chunk = file.last_chunk then
    s.prioritise file.first_chunk file.last_chunk .preview
  else
    s.prioritiseEnds file.first_chunk file.last_chunk
      fun chunkOffset => file.last_chunk - file.first_chunk ≤ chunkOffset

/-- The constructor. Source: `ChunkManager::ChunkManager`. Kind: D -/
def construct (L : Layout) (env : Env) (files : ℕ → FileSelection) (saved : Saved) :
    ChunkManager L :=
  let s := forRange 0 L.torrent.getNumFiles (fun k s =>
    if (s.files k).priority ≠ .normal then
      s.downloadPriorityChanged env k (s.files k).priority (s.files k).old_priority
    else s) (base L files saved)
  if L.torrent.isMultiFile then forRange 0 L.torrent.getNumFiles previewFile s
  else if L.multimedia then
    let chunkOffset := L.numChunks / 100 + 1
    let s := s.prioritise 0 chunkOffset .preview
    if L.numChunks > chunkOffset then
      s.prioritise (L.numChunks - chunkOffset) (L.numChunks - 1) .preview
    else s
  else s

/-! ### Operations -/

/-- A call on the chunk manager of a running torrent, with the answers of the operating system.
`choose` is the assignment to a file's priority that comes before its slot runs. Kind: D -/
inductive Op (L : Layout)
  | prioritise (first last : ℕ) (p : Priority)
  | exclude (first last : ℕ)
  | includeBack (first last : ℕ)
  | resetChunk (os : Os) (i : ℕ)
  | saveChunk (os : Os) (i : ℕ) (update_index : Bool)
  | prepareChunk (os : Os) (i : ℕ) (allways : Bool)
  | grabChunk (os : Os) (max_chunk_size_for_data_check now i : ℕ)
  | releaseChunk (os : Os) (i : ℕ)
  | checkMemoryUsage (env : Env) (now : ℕ)
  | stop (env : Env)
  | saveIndexFile (os : Os)
  | dataChecked (env : Env) (ok_chunks : BitSet L.numChunks)
  | downloadStatusChanged (env : Env) (k : Fin L.files.length) (download : Bool)
  | downloadPriorityChanged (env : Env) (k : Fin L.files.length) (newpriority oldpriority : Priority)
  | choose (k : Fin L.files.length) (f : FileSelection)

/-- The state after a call. Kind: D -/
def apply (s : ChunkManager L) : Op L → ChunkManager L
  | .prioritise first last p => s.prioritise first last p
  | .exclude first last => s.excludeRange first last
  | .includeBack first last => s.includeRange first last
  | .resetChunk os i => s.resetChunk os i
  | .saveChunk os i update_index => (s.saveChunk os i update_index).1
  | .prepareChunk os i allways => (s.prepareChunk os i allways).1
  | .grabChunk os size now i => (s.grabChunk os size now i).1
  | .releaseChunk os i => s.releaseChunk os i
  | .checkMemoryUsage env now => s.checkMemoryUsage env now
  | .stop env => s.stop env
  | .saveIndexFile os => (s.saveIndexFile os).1
  | .dataChecked env ok_chunks => s.dataChecked env ok_chunks
  | .downloadStatusChanged env k download => s.downloadStatusChanged env k download
  | .downloadPriorityChanged env k p q => s.downloadPriorityChanged env k p q
  | .choose k f => { s with files := Function.update s.files k f }

end ChunkManager

end KTorrent.Storage
