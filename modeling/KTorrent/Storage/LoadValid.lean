import KTorrent.Storage.LoadTorrent

/-!
# What `Torrent::load` checks and what it does not

The numbers of a torrent file are the piece length, the lengths of the files and the hashes. What
`load` compares is the number of hashes with the number of chunks, and that in 32 bits.

* `Valid` — a torrent whose numbers fit together.
* `Validates` — an error is thrown, or a valid torrent is left.
* `Accepted` — the parts of a torrent file in the order they are read, each without an error; the
  condition is about them.
* `validates_iff` — `load` validates a torrent file exactly if no division by a piece length of zero
  is reached, the hashes that are reached are whole ones, and the lengths of what passes all checks
  are not negative, do not wrap and give fewer than 2^32 chunks.
* `piece_length_zero` — a torrent with a piece length of zero.

Source: `torrent/torrent.cpp`, `torrent/torrentfile.cpp`
-/

namespace KTorrent.Storage

open KTorrent.Util KTorrent.Bencode KTorrent.Lib

namespace LoadTorrent

/-! ### A valid torrent -/

/-- **A torrent whose numbers fit together**; without files it is one of a single file, whose size is
its length. Kind: D -/
structure Valid (t : Torrent) : Prop where
  piece_pos : 0 < t.piece_length
  hashes : t.hash_pieces.length = (t.file_length + t.piece_length - 1) / t.piece_length
  single : t.files = [] → t.file_length < 2 ^ 63
  sizes : ∀ f ∈ t.files, f.size < 2 ^ 63
  sum : t.files ≠ [] → (t.files.map TorrentFile.size).sum = t.file_length
  chunks : ∀ f ∈ t.files, 0 < f.size →
    f.first_chunk < t.getNumChunks ∧ f.last_chunk < t.getNumChunks

/-- **An error is thrown, or a valid torrent is left.** Kind: D -/
def Validates (r : Except Failure Torrent) : Prop :=
  r = .error .thrown ∨ ∃ t, r = .ok t ∧ Valid t

/-- An error is thrown or the torrent is valid. Source: `torrent/torrent.cpp`,
`torrent/torrentfile.cpp`. Kind: L -/
theorem validates_iff_cases (r : Except Failure Torrent) :
    Validates r ↔ (∀ e, r = .error e → e = .thrown) ∧ ∀ t, r = .ok t → Valid t := by
  unfold Validates
  cases r with
  | error e => simp
  | ok t => simp

/-! ### The lengths -/

/-- What the lengths have to be, when they are divided into pieces of length `p`. Kind: D -/
structure Fits (s : Files) (p : ℕ) : Prop where
  single : s.files = [] → s.file_length < 2 ^ 63
  sizes : ∀ f ∈ s.files, f.size < 2 ^ 63
  sum : (s.files.map TorrentFile.size).sum < 2 ^ 64
  chunks : (s.file_length + p - 1) / p < 2 ^ 32

/-- The files made so far: each is constructed where the one before it ends, in 64 bits. Kind: D -/
structure Made (p : ℕ) (s : Files) : Prop where
  file_length : s.file_length = u64 (s.files.map TorrentFile.size).sum
  make : ∀ f ∈ s.files, ∃ idx path off multimedia,
    f = TorrentFile.make idx path off f.size p multimedia ∧
      ((s.files.map TorrentFile.size).sum < 2 ^ 64 →
        off + f.size ≤ (s.files.map TorrentFile.size).sum)

variable {E : Codec} {encoding : List UInt8}

/-- A file that is added fits behind the others. Source: `Torrent::loadFiles`. Kind: L -/
theorem made_addFile {p : ℕ} {s s' : Files} {path : TQString} {length : Option Value}
    (hs : Made p s) (h : addFile E p s path length = .ok s') : Made p s' := by
  obtain rfl | ⟨-, -, size, -, rfl⟩ := addFile_ok h
  · exact hs
  have hsum : ((s.files ++ [TorrentFile.make s.idx path s.file_length size p
      (E.multimedia path)]).map TorrentFile.size).sum =
        (s.files.map TorrentFile.size).sum + size := by
    rw [List.map_append, List.sum_append, List.map_singleton, List.sum_singleton]
    rfl
  constructor
  · show u64 (s.file_length + size) = u64 (List.sum _)
    rw [hsum, hs.file_length, u64, u64, u64, Nat.mod_add_mod]
  · intro f hf
    dsimp only at hf ⊢
    rw [hsum]
    rcases List.mem_append.mp hf with hf | hf
    · obtain ⟨idx, path', off, multimedia, hmake, hle⟩ := hs.make f hf
      refine ⟨idx, path', off, multimedia, hmake, fun hlt => ?_⟩
      exact (hle (by omega)).trans (Nat.le_add_right _ _)
    · obtain rfl := List.mem_singleton.mp hf
      refine ⟨s.idx, path, s.file_length, E.multimedia path, rfl, fun hlt => ?_⟩
      have hlen : s.file_length = (s.files.map TorrentFile.size).sum := by
        rw [hs.file_length, u64_of_lt (by omega)]
      rw [hlen]
      exact le_rfl

/-- A length, or files. Source: `Torrent::loadInfo`. Kind: L -/
theorem loadLengths_made {d : List (List UInt8 × Option BNode)} {p : ℕ} {s : Files}
    (h : loadLengths E encoding d p = .ok s) : s.files = [] ∨ Made p s := by
  unfold loadLengths at h
  split at h
  · obtain ⟨length, -, h⟩ := bind_ok_iff.mp h
    cases h
    exact .inl rfl
  · unfold loadFiles at h
    split at h
    · cases h
    · right
      refine foldlM_inv (Made p) (fun s node s' hs hnode => ?_) ⟨rfl, ?_⟩ h
      · obtain ⟨path, length, hadd⟩ := loadFile_ok hnode
        exact made_addFile hs hadd
      · exact fun f hf => absurd hf List.not_mem_nil

/-- The number of chunks is counted in 32 bits. Source: `Torrent::loadInfo`. Kind: L -/
theorem numChunks_eq (file_length p : ℕ) (hp : 0 < p) :
    numChunks file_length p = u32 ((file_length + p - 1) / p) := by
  unfold numChunks
  rw [ceil_div file_length hp]
  split_ifs
  · unfold u32
    rw [Nat.mod_add_mod]
  · rfl

/-- **What passes all checks is valid exactly if its lengths fit.**. Source: `torrent/torrent.cpp`,
`torrent/torrentfile.cpp`. Kind: L -/
theorem valid_iff_fits {s : Files} {t : Torrent} (hp : t.piece_length ≠ 0)
    (hs : s.files = [] ∨ Made t.piece_length s)
    (hnum : numChunks t.file_length t.piece_length = t.hash_pieces.length)
    (hlen : t.file_length = s.file_length) (hfiles : t.files = s.files) :
    Valid t ↔ Fits s t.piece_length := by
  have hpos := Nat.pos_of_ne_zero hp
  rw [numChunks_eq _ _ hpos] at hnum
  constructor
  · intro h
    have hlt := u32_lt ((t.file_length + t.piece_length - 1) / t.piece_length)
    refine ⟨?_, ?_, ?_, ?_⟩
    · rw [← hfiles, ← hlen]
      exact h.single
    · rw [← hfiles]
      exact h.sizes
    · rcases hs with hnil | hmade
      · rw [hnil]
        decide
      · by_cases hnil : s.files = []
        · rw [hnil]
          decide
        · have hsum := h.sum (hfiles ▸ hnil)
          rw [hfiles, hlen, hmade.file_length] at hsum
          rw [hsum]
          exact u64_lt _
    · rw [← hlen, ← h.hashes, ← hnum]
      exact hlt
  · intro h
    have hceil : t.hash_pieces.length =
        (t.file_length + t.piece_length - 1) / t.piece_length := by
      rw [← hnum, hlen, u32_of_lt h.chunks]
    have hbelow : ∀ b, b < t.file_length → b / t.piece_length < t.hash_pieces.length := by
      intro b hb
      have h1 := Nat.div_le_div_right (c := t.piece_length)
        (show b + t.piece_length ≤ t.file_length + t.piece_length - 1 by omega)
      rw [Nat.add_div_right _ hpos] at h1
      omega
    have h32 : ∀ b, b < t.file_length → u32 (b / t.piece_length) < t.hash_pieces.length := by
      intro b hb
      exact lt_of_le_of_lt (Nat.mod_le _ _) (hbelow b hb)
    refine ⟨hpos, hceil, ?_, ?_, ?_, ?_⟩
    · rw [hfiles, hlen]
      exact h.single
    · rw [hfiles]
      exact h.sizes
    · rw [hfiles, hlen]
      intro hne
      have hmade := hs.resolve_left hne
      rw [hmade.file_length, u64_of_lt h.sum]
    · rw [hfiles]
      intro f hf hsize
      have hmade := hs.resolve_left (List.ne_nil_of_mem hf)
      obtain ⟨idx, path, off, multimedia, hmake, hle⟩ := hmade.make f hf
      have hend : off + f.size ≤ t.file_length := by
        rw [hlen, hmade.file_length, u64_of_lt h.sum]
        exact hle h.sum
      have hend64 : off + f.size < 2 ^ 64 := (hle h.sum).trans_lt h.sum
      have hfirst : f.first_chunk = u32 (off / t.piece_length) := by
        rw [hmake]
        rfl
      have hlast : f.last_chunk = u32 (sub64 (u64 (off + f.size)) 1 / t.piece_length) := by
        conv_lhs => rw [hmake]
        exact if_pos hsize
      rw [hfirst, hlast, u64_of_lt hend64, sub64_of_le (by omega) hend64]
      exact ⟨h32 _ (by omega), h32 _ (by omega)⟩

/-! ### The entries of the list of files -/

/-- What is read of an entry: its path and its size, or nothing for an empty directory. Kind: D -/
def entry (E : Codec) (encoding : List UInt8) (node : Option BNode) :
    Except Failure (Option (TQString × ℕ)) :=
  match dictOf node with
  | none => .error .thrown
  | some d =>
    match BNode.getList d (latin1 "path") with
    | none => .error .thrown
    | some ln => do
      let path ← joinPath E encoding ln
      if path.getLast? = some '/' then return none
      else if !checkPathForDirectoryTraversal path then .error .thrown
      else do
        let size ← number (BNode.getValue d (latin1 "length"))
        return some (path, size)

/-- What becomes of an entry that was read. Kind: D -/
def placeFile (E : Codec) (p : ℕ) (s : Files) : Option (TQString × ℕ) → Except Failure Files
  | none => .ok s
  | some (path, size) =>
    if p = 0 then .error .divByZero
    else
      .ok {
        idx := u32 (s.idx + 1)
        file_length := u64 (s.file_length + size)
        files := s.files ++
          [TorrentFile.make s.idx path s.file_length size p (E.multimedia path)] }

/-- Loading a file reads its entry and places it. Source: `Torrent::loadFiles`. Kind: L -/
theorem loadFile_eq (p : ℕ) (s : Files) (node : Option BNode) :
    loadFile E encoding p s node = (entry E encoding node).bind (placeFile E p s) := by
  unfold loadFile entry
  cases dictOf node with
  | none => rfl
  | some d =>
    dsimp only
    cases BNode.getList d (latin1 "path") with
    | none => rfl
    | some ln =>
      dsimp only
      cases joinPath E encoding ln with
      | error e => rfl
      | ok path =>
        show addFile E p s path _ = Except.bind (if path.getLast? = some '/' then _ else _) _
        unfold addFile
        by_cases hend : path.getLast? = some '/'
        · rw [if_pos hend, if_pos hend]
          rfl
        · rw [if_neg hend, if_neg hend]
          cases checkPathForDirectoryTraversal path with
          | false => rfl
          | true =>
            rw [if_neg (by decide), if_neg (by decide)]
            cases number (BNode.getValue d (latin1 "length")) with
            | error e => rfl
            | ok size => rfl

/-- Whatever fails is an error that is thrown. Kind: D -/
def Throws {α : Type} (r : Except Failure α) : Prop := ∀ e, r = .error e → e = .thrown

/-- A value is no crash. Source: `torrent/torrent.cpp`, `torrent/torrentfile.cpp`. Kind: L -/
theorem Throws.ok {α : Type} (a : α) : Throws (.ok a : Except Failure α) := by
  intro e h
  cases h

/-- An error that is thrown is no crash. Source: `torrent/torrent.cpp`, `torrent/torrentfile.cpp`.
Kind: L -/
theorem Throws.thrown {α : Type} : Throws (.error .thrown : Except Failure α) := by
  intro e h
  cases h
  rfl

/-- One thing after the other. Source: `torrent/torrent.cpp`, `torrent/torrentfile.cpp`. Kind: L -/
theorem Throws.bind {α β : Type} {r : Except Failure α} {f : α → Except Failure β} (h : Throws r)
    (hf : ∀ a, Throws (f a)) : Throws (r.bind f) := by
  intro e he
  obtain he | ⟨a, -, he⟩ := bind_error_iff.mp he
  · exact h e he
  · exact hf a e he

/-- A number that is missing is thrown. Source: `torrent/torrent.cpp`, `torrent/torrentfile.cpp`.
Kind: L -/
theorem throws_number (v : Option Value) : Throws (number v) := by
  unfold number
  split
  · split_ifs
    · exact .ok _
    · exact .thrown
  · exact .thrown

/-- A text that is missing is thrown. Source: `torrent/torrent.cpp`, `torrent/torrentfile.cpp`.
Kind: L -/
theorem throws_text (v : Option Value) : Throws (text E encoding v) := by
  unfold text
  split
  · split_ifs
    · exact .ok _
    · exact .thrown
  · exact .thrown

/-- A name of a path that is missing is thrown. Source: `Torrent::loadFiles`. Kind: L -/
theorem throws_joinPath (l : List (Option BNode)) : Throws (joinPath E encoding l) := by
  induction l with
  | nil => exact .ok _
  | cons v l ih =>
    cases l with
    | nil => exact throws_text _
    | cons w l => exact (throws_text _).bind fun sd => ih.bind fun path => .ok _

/-- Reading an entry fails with an error. Source: `torrent/torrent.cpp`, `torrent/torrentfile.cpp`.
Kind: L -/
theorem throws_entry (node : Option BNode) : Throws (entry E encoding node) := by
  unfold entry
  split
  · exact .thrown
  · split
    · exact .thrown
    · refine (throws_joinPath _).bind fun path => ?_
      split_ifs
      · exact .ok _
      · exact .thrown
      · exact (throws_number _).bind fun size => .ok _

/-- A loop over a list. Source: `torrent/torrent.cpp`, `torrent/torrentfile.cpp`. Kind: L -/
theorem throws_forM {α : Type} {f : α → Except Failure Unit} (hf : ∀ a, Throws (f a)) (l : List α) :
    Throws (l.forM f) := by
  induction l with
  | nil => exact .ok _
  | cons a l ih => exact (hf a).bind fun _ => ih

/-- The DHT nodes. Source: `Torrent::loadNodes`. Kind: L -/
theorem throws_loadNodes (l : List (Option BNode)) : Throws (loadNodes l) := by
  refine throws_forM (fun c => ?_) l
  unfold loadNode
  split
  · split
    · split_ifs
      · exact .ok _
      · exact .thrown
    · exact .thrown
  · exact .thrown

/-- The tracker. Source: `Torrent::loadTrackerURL`. Kind: L -/
theorem throws_loadTrackerURL (v : Value) : Throws (loadTrackerURL v) := by
  unfold loadTrackerURL
  split_ifs
  · exact .ok _
  · exact .thrown

/-- The web seeds. Source: `Torrent::load`. Kind: L -/
theorem throws_loadSources (dict : List (List UInt8 × Option BNode)) :
    Throws (loadSources dict) := by
  unfold loadSources
  split
  · exact .thrown
  · exact throws_loadTrackerURL _
  · exact throws_loadNodes _
  · exact (throws_loadTrackerURL _).bind fun _ => throws_loadNodes _

/-- The lists of trackers. Source: `Torrent::loadAnnounceList`. Kind: L -/
theorem throws_loadAnnounceList (node : Option BNode) : Throws (loadAnnounceList node) := by
  unfold loadAnnounceList
  split
  · exact .ok _
  · refine throws_forM (fun tier => ?_) _
    split
    · exact .thrown
    · refine throws_forM (fun vn => ?_) _
      split_ifs
      · exact .ok _
      · exact .thrown

/-- **A division by zero is reached**: with no length, the list of files has an entry that is a file
behind nothing but empty directories. Kind: D -/
def ReachesFile (E : Codec) (encoding : List UInt8) (d : List (List UInt8 × Option BNode)) : Prop :=
  BNode.getValue d (latin1 "length") = none ∧
    ∃ pre node rest file, BNode.getList d (latin1 "files") = some (pre ++ node :: rest) ∧
      (∀ m ∈ pre, entry E encoding m = .ok none) ∧ entry E encoding node = .ok (some file)

/-- With a piece length of zero, the loop over the files. Source: `torrent/torrent.cpp`,
`torrent/torrentfile.cpp`. Kind: L -/
theorem foldlM_zero (fl : List (Option BNode)) (s : Files) (e : Failure)
    (h : fl.foldlM (loadFile E encoding 0) s = .error e) : e = .thrown ∨ e = .divByZero ∧
      ∃ pre node rest file, fl = pre ++ node :: rest ∧
        (∀ m ∈ pre, entry E encoding m = .ok none) ∧ entry E encoding node = .ok (some file) := by
  induction fl generalizing s with
  | nil => cases h
  | cons node fl ih =>
    have h' : (loadFile E encoding 0 s node).bind (fun s => fl.foldlM (loadFile E encoding 0) s) =
        .error e := h
    rw [loadFile_eq] at h'
    cases hentry : entry E encoding node with
    | error e' =>
      rw [hentry] at h'
      cases h'
      exact .inl (throws_entry node e hentry)
    | ok o =>
      rw [hentry] at h'
      cases o with
      | some file =>
        cases h'
        exact .inr ⟨rfl, [], node, fl, file, rfl, fun m hm => absurd hm List.not_mem_nil, hentry⟩
      | none =>
        obtain he | ⟨he, pre, node', rest, file, rfl, hpre, hfile⟩ := ih s h'
        · exact .inl he
        · refine .inr ⟨he, node :: pre, node', rest, file, rfl, ?_, hfile⟩
          intro m hm
          rcases List.mem_cons.mp hm with rfl | hm
          · exact hentry
          · exact hpre m hm

/-- A file behind nothing but empty directories. Source: `torrent/torrent.cpp`,
`torrent/torrentfile.cpp`. Kind: L -/
theorem foldlM_reaches {pre rest : List (Option BNode)} {node : Option BNode} {file : TQString × ℕ}
    (hpre : ∀ m ∈ pre, entry E encoding m = .ok none) (hfile : entry E encoding node = .ok (some file))
    (s : Files) :
    (pre ++ node :: rest).foldlM (loadFile E encoding 0) s = .error .divByZero := by
  induction pre with
  | nil =>
    show (loadFile E encoding 0 s node).bind _ = _
    rw [loadFile_eq, hfile]
    rfl
  | cons m pre ih =>
    show (loadFile E encoding 0 s m).bind _ = _
    rw [loadFile_eq, hpre m List.mem_cons_self]
    exact ih fun k hk => hpre k (List.mem_cons_of_mem m hk)

/-- The files, if the piece length is not zero. Source: `torrent/torrent.cpp`,
`torrent/torrentfile.cpp`. Kind: L -/
theorem throws_foldlM {p : ℕ} (hp : p ≠ 0) (fl : List (Option BNode)) (s : Files) :
    Throws (fl.foldlM (loadFile E encoding p) s) := by
  induction fl generalizing s with
  | nil => exact .ok _
  | cons node fl ih =>
    show Throws ((loadFile E encoding p s node).bind fun s => fl.foldlM (loadFile E encoding p) s)
    rw [loadFile_eq]
    refine ((throws_entry node).bind fun o => ?_).bind ih
    cases o with
    | none => exact .ok _
    | some file =>
      show Throws (if p = 0 then _ else _)
      rw [if_neg hp]
      exact .ok _

/-- What the lengths can fail with. Source: `Torrent::loadInfo`. Kind: L -/
theorem loadLengths_error {d : List (List UInt8 × Option BNode)} {p : ℕ} {e : Failure}
    (h : loadLengths E encoding d p = .error e) :
    e = .thrown ∨ p = 0 ∧ ReachesFile E encoding d := by
  unfold loadLengths at h
  split at h
  · obtain h | ⟨n, -, h⟩ := bind_error_iff.mp h
    · exact .inl (throws_number _ e h)
    · cases h
  · rename_i hnone
    unfold loadFiles at h
    split at h
    · cases h
      exact .inl rfl
    · rename_i fl hfl
      by_cases hp : p = 0
      · rw [hp] at h
        obtain he | ⟨-, pre, node, rest, file, rfl, hpre, hfile⟩ := foldlM_zero fl {} e h
        · exact .inl he
        · exact .inr ⟨hp, hnone, pre, node, rest, file, hfl, hpre, hfile⟩
      · exact .inl (throws_foldlM hp fl {} e h)

/-- A file reached with piece length zero divides by it. Source: `Torrent::loadInfo`. Kind: L -/
theorem loadLengths_reaches {d : List (List UInt8 × Option BNode)}
    (h : ReachesFile E encoding d) : loadLengths E encoding d 0 = .error .divByZero := by
  obtain ⟨hnone, pre, node, rest, file, hfl, hpre, hfile⟩ := h
  unfold loadLengths
  rw [hnone]
  dsimp only
  unfold loadFiles
  rw [hfl]
  exact foldlM_reaches hpre hfile {}

/-! ### The hashes -/

/-- The hashes are whole ones, if they are a string. Kind: D -/
def WholeHashes (d : List (List UInt8 × Option BNode)) : Prop :=
  ∀ v, BNode.getValue d (latin1 "pieces") = some v → v.type = .STRING → 20 ∣ v.toByteArray.length

/-- Twenty bytes at a time. Source: `Torrent::loadHash`. Kind: L -/
theorem hashes_error_iff (bs : List UInt8) (e : Failure) :
    hashes bs = .error e ↔ e = .overrun ∧ ¬ 20 ∣ bs.length := by
  induction bs using hashes.induct with
  | case1 =>
    rw [hashes]
    simp
  | case2 b bs hlen ih =>
    have htake : 20 ≤ (b :: bs).length := by
      rw [List.length_take] at hlen
      omega
    have hdvd : 20 ∣ (b :: bs).length ↔ 20 ∣ ((b :: bs).drop 20).length := by
      rw [List.length_drop]
      omega
    rw [hashes, dif_pos hlen, hdvd, ← ih]
    constructor
    · intro h
      obtain h | ⟨l, -, h⟩ := bind_error_iff.mp h
      · exact h
      · cases h
    · intro h
      exact bind_error_iff.mpr (.inl h)
  | case3 b bs hlen =>
    rw [hashes, dif_neg hlen]
    have hno : ¬ 20 ∣ (b :: bs).length := by
      intro hdvd
      have hle := Nat.le_of_dvd (by simp) hdvd
      exact hlen (by rw [List.length_take, min_eq_left hle])
    constructor
    · intro h
      cases h
      exact ⟨rfl, hno⟩
    · rintro ⟨rfl, -⟩
      rfl

/-- What the hashes can fail with. Source: `Torrent::loadHash`. Kind: L -/
theorem loadHash_error {d : List (List UInt8 × Option BNode)} {e : Failure}
    (h : loadHash (BNode.getValue d (latin1 "pieces")) = .error e) :
    e = .thrown ∨ ¬ WholeHashes d := by
  unfold loadHash at h
  split at h
  · rename_i v hv
    split_ifs at h with htype
    · exact .inr fun hw => ((hashes_error_iff _ _).mp h).2 (hw v hv htype)
    · cases h
      exact .inl rfl
  · cases h
    exact .inl rfl

/-- Hashes that are not whole are read beyond their end. Source: `Torrent::loadHash`. Kind: L -/
theorem loadHash_overrun {d : List (List UInt8 × Option BNode)} (h : ¬ WholeHashes d) :
    loadHash (BNode.getValue d (latin1 "pieces")) = .error .overrun := by
  unfold WholeHashes at h
  push Not at h
  obtain ⟨v, hv, htype, hno⟩ := h
  unfold loadHash
  rw [hv]
  dsimp only
  rw [if_pos htype]
  exact (hashes_error_iff _ _).mpr ⟨rfl, hno⟩

/-! ### The whole file -/

/-- The parts of a torrent file up to the piece length are read without an error. Kind: D -/
structure Begun (data : List UInt8) (dict d : List (List UInt8 × Option BNode)) (p : ℕ) : Prop where
  root : rootOf data = .ok dict
  sources : loadSources dict = .ok ()
  info : BNode.getDict dict (latin1 "info") = some d
  piece : loadPieceLength (BNode.getValue d (latin1 "piece length")) = .ok p

/-- All parts of the info dictionary are read without an error. Kind: D -/
structure Accepted (E : Codec) (data : List UInt8) (dict d : List (List UInt8 × Option BNode))
    (p : ℕ) (s : Files) (hs : List SHA1Hash) : Prop extends Begun data dict d p where
  lengths : loadLengths E (encodingOf dict) d p = .ok s
  hashes : loadHash (BNode.getValue d (latin1 "pieces")) = .ok hs
  name : ∃ name, loadName E (encodingOf dict) (BNode.getValue d (latin1 "name")) = .ok name

/-- **What the numbers of a torrent file have to be.** Kind: D -/
structure Sane (E : Codec) (data : List UInt8) : Prop where
  /-- The decoder ends. -/
  ends : rootOf data ≠ .error .running
  /-- No file is made with a piece length of zero. -/
  made : ∀ dict d, Begun data dict d 0 → ¬ ReachesFile E (encodingOf dict) d
  /-- The hashes that are reached are whole ones. -/
  whole : ∀ dict d p s, Begun data dict d p → loadLengths E (encodingOf dict) d p = .ok s →
    WholeHashes d
  /-- The comparison with the number of hashes is not reached with a piece length of zero. -/
  compared : ∀ dict d s hs, ¬ Accepted E data dict d 0 s hs
  /-- The lengths of what passes all checks fit. -/
  fits : ∀ dict d p s hs, Accepted E data dict d p s hs →
    numChunks s.file_length p = hs.length →
    loadAnnounceList (BNode.getData dict (latin1 "announce-list")) = .ok () → Fits s p

/-- The parts up to the piece length are there. Source: `Torrent::load`. Kind: L -/
theorem Begun.load {data : List UInt8} {dict d : List (List UInt8 × Option BNode)} {p : ℕ}
    (h : Begun data dict d p) : load E data =
      ((loadLengths E (encodingOf dict) d p).bind fun s =>
        (loadHash (BNode.getValue d (latin1 "pieces"))).bind fun hash_pieces =>
        (loadName E (encodingOf dict) (BNode.getValue d (latin1 "name"))).bind fun name =>
          if p = 0 then .error .divByZero
          else if numChunks s.file_length p ≠ hash_pieces.length then .error .thrown
          else
            .ok {
              name_suggestion := name
              piece_length := p
              file_length := s.file_length
              hash_pieces := hash_pieces
              files := s.files
              multimedia := E.multimedia name }).bind fun tor =>
      (loadAnnounceList (BNode.getData dict (latin1 "announce-list"))).bind fun _ => .ok tor := by
  unfold LoadTorrent.load
  rw [h.root]
  show (loadSources dict).bind _ = _
  rw [h.sources]
  show (loadInfo E (encodingOf dict) (BNode.getDict dict (latin1 "info"))).bind _ = _
  rw [h.info]
  unfold loadInfo
  dsimp only
  rw [h.piece]
  rfl

/-- All parts are there. Source: `Torrent::load`. Kind: L -/
theorem Accepted.load {data : List UInt8} {dict d : List (List UInt8 × Option BNode)} {p : ℕ}
    {s : Files} {hs : List SHA1Hash} (h : Accepted E data dict d p s hs) :
    ∃ name, LoadTorrent.load E data =
      (if p = 0 then .error .divByZero
        else if numChunks s.file_length p ≠ hs.length then .error .thrown
        else
          .ok {
            name_suggestion := name
            piece_length := p
            file_length := s.file_length
            hash_pieces := hs
            files := s.files
            multimedia := E.multimedia name } : Except Failure Torrent).bind fun tor =>
      (loadAnnounceList (BNode.getData dict (latin1 "announce-list"))).bind fun _ => .ok tor := by
  obtain ⟨name, hname⟩ := h.name
  refine ⟨name, ?_⟩
  rw [h.toBegun.load, h.lengths]
  show ((loadHash _).bind _).bind _ = _
  rw [h.hashes]
  show ((loadName _ _ _).bind _).bind _ = _
  rw [hname]
  rfl

/-- **A torrent file that `load` validates has sane numbers.**. Source: `torrent/torrent.cpp`,
`torrent/torrentfile.cpp`. Kind: L -/
theorem sane_of_validates {data : List UInt8} (h : Validates (load E data)) : Sane E data := by
  obtain ⟨herror, hvalid⟩ := (validates_iff_cases _).mp h
  have hcompared : ∀ dict d s hs, ¬ Accepted E data dict d 0 s hs := by
    intro dict d s hs hacc
    obtain ⟨name, hload⟩ := hacc.load
    rw [if_pos rfl] at hload
    cases herror .divByZero hload
  refine ⟨?_, ?_, ?_, hcompared, ?_⟩
  · intro hroot
    have hload : load E data = .error .running := by
      unfold load
      rw [hroot]
      rfl
    cases herror _ hload
  · intro dict d hb hreach
    have hload : load E data = .error .divByZero := by
      rw [hb.load, loadLengths_reaches hreach]
      rfl
    cases herror _ hload
  · intro dict d p s hb hlengths
    by_contra hno
    have hload : load E data = .error .overrun := by
      rw [hb.load, hlengths]
      show ((loadHash _).bind _).bind _ = _
      rw [loadHash_overrun hno]
      rfl
    cases herror _ hload
  · intro dict d p s hs hacc hnum hannounce
    have hp : p ≠ 0 := by
      rintro rfl
      exact hcompared dict d s hs hacc
    obtain ⟨name, hload⟩ := hacc.load
    rw [if_neg hp, if_neg (not_not.mpr hnum), hannounce] at hload
    have ht := hvalid _ hload
    exact (valid_iff_fits hp (loadLengths_made hacc.lengths) hnum rfl rfl).mp ht

/-- What can fail when the numbers are sane. Source: `torrent/torrent.cpp`,
`torrent/torrentfile.cpp`. Kind: L -/
theorem throws_of_sane {data : List UInt8} (h : Sane E data) : Throws (load E data) := by
  intro e he
  obtain hroot | ⟨dict, hroot, he⟩ := bind_error_iff.mp he
  · unfold rootOf at hroot
    have hends := h.ends
    unfold rootOf at hends
    split at hroot
    · rename_i hdec
      rw [hdec] at hends
      exact absurd rfl hends
    · cases hroot
      rfl
    · split at hroot
      · cases hroot
        rfl
      · cases hroot
  obtain hsources | ⟨u, hsources, he⟩ := bind_error_iff.mp he
  · exact throws_loadSources dict e hsources
  obtain hinfo | ⟨tor, -, he⟩ := bind_error_iff.mp he
  · cases hd : BNode.getDict dict (latin1 "info") with
    | none =>
      rw [hd] at hinfo
      cases hinfo
      rfl
    | some d =>
      rw [hd] at hinfo
      obtain hpiece | ⟨p, hpiece, he⟩ := bind_error_iff.mp hinfo
      · exact throws_number _ e hpiece
      have hb : Begun data dict d p := ⟨hroot, hsources, hd, hpiece⟩
      obtain hlengths | ⟨s, hlengths, he⟩ := bind_error_iff.mp he
      · obtain he | ⟨rfl, hreach⟩ := loadLengths_error hlengths
        · exact he
        · exact absurd hreach (h.made dict d hb)
      obtain hhash | ⟨hs, hhash, he⟩ := bind_error_iff.mp he
      · obtain he | hno := loadHash_error hhash
        · exact he
        · exact absurd (h.whole dict d p s hb hlengths) hno
      obtain hname | ⟨name, hname, he⟩ := bind_error_iff.mp he
      · exact throws_text _ e hname
      split_ifs at he with hp hnum
      · subst hp
        exact absurd ⟨hb, hlengths, hhash, name, hname⟩ (h.compared dict d s hs)
      · cases he
        rfl
  · obtain hann | ⟨u, -, he⟩ := bind_error_iff.mp he
    · exact throws_loadAnnounceList _ e hann
    · cases he

/-- **`load` validates a torrent file exactly if its numbers are sane.**.
Source: `torrent/torrent.cpp`, `torrent/torrentfile.cpp`. Kind: P -/
theorem validates_iff (E : Codec) (data : List UInt8) :
    Validates (load E data) ↔ Sane E data := by
  refine ⟨sane_of_validates, fun h => (validates_iff_cases _).mpr ⟨throws_of_sane h, ?_⟩⟩
  intro t ht
  obtain ⟨dict, hroot, ht⟩ := bind_ok_iff.mp ht
  obtain ⟨u, hsources, ht⟩ := bind_ok_iff.mp ht
  obtain ⟨tor, htor, ht⟩ := bind_ok_iff.mp ht
  obtain ⟨u', hannounce, ht⟩ := bind_ok_iff.mp ht
  cases ht
  obtain ⟨d, s, hd, hpiece, hlengths, hhash, hname, hp, hnum, hlen, hfiles⟩ := loadInfo_ok htor
  have hacc : Accepted E data dict d t.piece_length s t.hash_pieces :=
    ⟨⟨hroot, hsources, hd, hpiece⟩, hlengths, hhash, _, hname⟩
  have hfits := h.fits dict d t.piece_length s t.hash_pieces hacc (hlen ▸ hnum) hannounce
  exact (valid_iff_fits hp (loadLengths_made hlengths) hnum hlen hfiles).mpr hfits

/-- A torrent with a piece length of zero. Kind: D -/
def noPieces : List UInt8 :=
  latin1 "d8:announce1:x4:infod6:lengthi1e4:name1:a12:piece lengthi0e6:pieces0:ee"

/-- **A division by zero**: the piece length is not looked at before it divides.
Source: `torrent/torrent.cpp`, `torrent/torrentfile.cpp`. Kind: P -/
theorem piece_length_zero : ¬ ∀ (E : Codec) (data : List UInt8), Validates (load E data) := by
  intro h
  have hload : load ⟨fun _ _ => [], fun _ => false⟩ noPieces = .error .divByZero := by
    decide +kernel
  have hthrown := ((validates_iff_cases _).mp (h _ noPieces)).1 _ hload
  cases hthrown

end LoadTorrent

end KTorrent.Storage
