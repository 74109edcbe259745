import KTorrent.Bencode.BDecoder
import KTorrent.Lib.Paths
import KTorrent.Lib.While
import KTorrent.Storage.Torrent

/-!
# `Torrent::load`

What is made of the bytes of a torrent file: a `Torrent`, or one of three failures. The third and the
fourth are none of the source's: a division by zero, and a read behind the end of the hashes.

What a torrent's codec makes of a text (`toString`) and which names are those of multimedia files are
answers in `Codec`. Of the trackers and the nodes only the checks are here.

Source: `torrent/torrent.h`, `torrent/torrent.cpp`
-/

namespace KTorrent.Storage

open KTorrent.Util KTorrent.Bencode KTorrent.Lib

/-- `Value::toString(encoding)` of the bytes of a value, and `IsMultimediaFile`. Kind: D -/
structure Codec where
  toString : List UInt8 → List UInt8 → TQString
  multimedia : TQString → Bool

/-- Why no torrent is loaded. Kind: D -/
inductive Failure
  /-- An `Error` is thrown. -/
  | thrown
  /-- `BDecoder::decode` does not end. -/
  | running
  /-- A division by zero. -/
  | divByZero
  /-- A read behind the end of `hash_string`. -/
  | overrun
deriving DecidableEq

/-- Source: `BListNode::getValue`. Kind: D -/
def valueOf : Option BNode → Option Value
  | some (.value _ _ v) => some v
  | _ => none

/-- Source: `BListNode::getDict`. Kind: D -/
def dictOf : Option BNode → Option (List (List UInt8 × Option BNode))
  | some (.dict _ _ children) => some children
  | _ => none

/-- Source: `BListNode::getList`. Kind: D -/
def listOf : Option BNode → Option (List (Option BNode))
  | some (.list _ _ children) => some children
  | _ => none

/-- The parts that are not empty. Source: `TQStringList::split(DirSeparator(), p)`. Kind: D -/
def splitPath (p : TQString) : List TQString := (components '/' p).filter (· ≠ [])

/-- Source: `Torrent::checkPathForDirectoryTraversal`. Kind: D -/
def checkPathForDirectoryTraversal (p : TQString) : Bool := !(splitPath p).contains ['.', '.']

namespace LoadTorrent

variable (E : Codec) (encoding : List UInt8)

/-- A length or a size, `none` without a number. Kind: D -/
def number : Option Value → Except Failure ℕ
  | some v =>
    if v.type = .INT ∨ v.type = .INT64 then .ok (ofInt64 v.toInt64) else .error .thrown
  | none => .error .thrown

/-- Source: `Torrent::loadPieceLength`. Kind: D -/
def loadPieceLength (node : Option Value) : Except Failure ℕ := number node

/-- Source: `Torrent::loadFileLength`. Kind: D -/
def loadFileLength (node : Option Value) : Except Failure ℕ := number node

/-- A text, if the value is a string. Kind: D -/
def text : Option Value → Except Failure TQString
  | some v => if v.type = .STRING then .ok (E.toString encoding v.strval) else .error .thrown
  | none => .error .thrown

/-- The parts of a path, separators between them. Source: `Torrent::loadFiles`, the inner loop.
Kind: D -/
def joinPath : List (Option BNode) → Except Failure TQString
  | [] => .ok []
  | [v] => text E encoding (valueOf v)
  | v :: w :: rest => do
    let sd ← text E encoding (valueOf v)
    let path ← joinPath (w :: rest)
    return sd ++ '/' :: path

/-- Source: `Torrent::loadFiles`, the variables of the loop. Kind: D -/
structure Files where
  idx : ℕ := 0
  file_length : ℕ := 0
  files : List TorrentFile := []

/-- What is done with a file's path.
Source: `Torrent::loadFiles`, the rest of the loop body. Kind: D -/
def addFile (piece_length : ℕ) (s : Files) (path : TQString) (length : Option Value) :
    Except Failure Files :=
  -- we do not want empty dirs
  if path.getLast? = some '/' then .ok s
  else if !checkPathForDirectoryTraversal path then .error .thrown
  else do
    let size ← number length
    if piece_length = 0 then .error .divByZero
    else
      .ok {
        idx := u32 (s.idx + 1)
        file_length := u64 (s.file_length + size)
        files := s.files ++
          [TorrentFile.make s.idx path s.file_length size piece_length (E.multimedia path)] }

/-- Source: `Torrent::loadFiles`, the loop body. Kind: D -/
def loadFile (piece_length : ℕ) (s : Files) (node : Option BNode) : Except Failure Files :=
  match dictOf node with
  | none => .error .thrown
  | some d =>
    match BNode.getList d (latin1 "path") with
    | none => .error .thrown
    | some ln => do
      let path ← joinPath E encoding ln
      addFile E piece_length s path (BNode.getValue d (latin1 "length"))

/-- Source: `Torrent::loadFiles`. Kind: D -/
def loadFiles (piece_length : ℕ) (node : Option (List (Option BNode))) : Except Failure Files :=
  match node with
  | none => .error .thrown
  | some fl => fl.foldlM (loadFile E encoding piece_length) {}

/-- Twenty bytes at a time. Source: `Torrent::loadHash`, the loop. Kind: D -/
def hashes : List UInt8 → Except Failure (List SHA1Hash)
  | [] => .ok []
  | b :: bs =>
    if h : ((b :: bs).take 20).length = 20 then do
      let rest ← hashes ((b :: bs).drop 20)
      return (⟨((b :: bs).take 20).toArray, h⟩ : SHA1Hash) :: rest
    else .error .overrun
termination_by bs => bs.length

/-- Source: `Torrent::loadHash`. Kind: D -/
def loadHash : Option Value → Except Failure (List SHA1Hash)
  | some v => if v.type = .STRING then hashes v.toByteArray else .error .thrown
  | none => .error .thrown

/-- Source: `Torrent::loadName`. Kind: D -/
def loadName (node : Option Value) : Except Failure TQString := text E encoding node

/-- Source: `Torrent::loadInfo`, the number of chunks the lengths give. Kind: D -/
def numChunks (file_length piece_length : ℕ) : ℕ :=
  if file_length % piece_length > 0 then u32 (u32 (file_length / piece_length) + 1)
  else u32 (file_length / piece_length)

/-- The length of a single file, or the files. Source: `Torrent::loadInfo`. Kind: D -/
def loadLengths (dict : List (List UInt8 × Option BNode)) (piece_length : ℕ) :
    Except Failure Files :=
  match BNode.getValue dict (latin1 "length") with
  | some n => do
    let file_length ← loadFileLength (some n)
    return { file_length := file_length }
  | none => loadFiles E encoding piece_length (BNode.getList dict (latin1 "files"))

/-- Source: `Torrent::loadInfo`. Kind: D -/
def loadInfo : Option (List (List UInt8 × Option BNode)) → Except Failure Torrent
  | none => .error .thrown
  | some dict => do
    let piece_length ← loadPieceLength (BNode.getValue dict (latin1 "piece length"))
    let s ← loadLengths E encoding dict piece_length
    let hash_pieces ← loadHash (BNode.getValue dict (latin1 "pieces"))
    let name_suggestion ← loadName E encoding (BNode.getValue dict (latin1 "name"))
    -- do a safety check to see if the number of hashes matches the file_length
    if piece_length = 0 then .error .divByZero
    else if numChunks s.file_length piece_length ≠ hash_pieces.length then .error .thrown
    else
      .ok {
        name_suggestion := name_suggestion
        piece_length := piece_length
        file_length := s.file_length
        hash_pieces := hash_pieces
        files := s.files
        multimedia := E.multimedia name_suggestion }

/-- Source: `Torrent::loadTrackerURL`, its check. Kind: D -/
def loadTrackerURL (node : Value) : Except Failure Unit :=
  if node.type = .STRING then .ok () else .error .thrown

/-- Source: `Torrent::loadNodes`, the checks of the loop body. Kind: D -/
def loadNode (c : Option BNode) : Except Failure Unit :=
  match listOf c with
  | some [ip, port] =>
    match valueOf ip, valueOf port with
    | some ip, some port =>
      if ip.type = .STRING ∧ port.type = .INT then .ok () else .error .thrown
    | _, _ => .error .thrown
  | _ => .error .thrown

/-- Source: `Torrent::loadNodes`, its checks. Kind: D -/
def loadNodes (node : List (Option BNode)) : Except Failure Unit := node.forM loadNode

/-- Source: `Torrent::loadAnnounceList`, its checks. Kind: D -/
def loadAnnounceList (node : Option BNode) : Except Failure Unit :=
  match listOf node with
  | none => .ok ()
  | some ml => ml.forM fun tier =>
    match listOf tier with
    | none => .error .thrown
    | some url => url.forM fun vn => if (valueOf vn).isSome then .ok () else .error .thrown

/-- The dictionary of the whole file. Source: `Torrent::load`. Kind: D -/
def rootOf (data : List UInt8) : Except Failure (List (List UInt8 × Option BNode)) :=
  match BDecoder.decode data 0 with
  | .error .running => .error .running
  | .error (.error _) => .error .thrown
  | .ok (node, _) =>
    match dictOf node with
    | none => .error .thrown
    | some dict => .ok dict

/-- The name of the codec. Source: `Torrent::load`. Kind: D -/
def encodingOf (dict : List (List UInt8 × Option BNode)) : List UInt8 :=
  match BNode.getValue dict (latin1 "encoding") with
  | some enc => BNode.cString enc.strval
  | none => latin1 "utf8"

/-- The checks of the trackers and the nodes. Source: `Torrent::load`. Kind: D -/
def loadSources (dict : List (List UInt8 × Option BNode)) : Except Failure Unit :=
  match BNode.getValue dict (latin1 "announce"), BNode.getList dict (latin1 "nodes") with
  | none, none => .error .thrown
  | some announce, none => loadTrackerURL announce
  | none, some nodes => loadNodes nodes
  | some announce, some nodes => do
    loadTrackerURL announce
    loadNodes nodes

/-- Source: `Torrent::load`. Kind: D -/
def load (data : List UInt8) : Except Failure Torrent := do
  let dict ← rootOf data
  loadSources dict
  let tor ← loadInfo E (encodingOf dict) (BNode.getDict dict (latin1 "info"))
  loadAnnounceList (BNode.getData dict (latin1 "announce-list"))
  return tor

variable {E encoding}

/-- A path is taken if no name in it is `..`. Source: `Torrent::checkPathForDirectoryTraversal`.
Kind: L -/
theorem checkPathForDirectoryTraversal_iff (p : TQString) :
    checkPathForDirectoryTraversal p = true ↔ ['.', '.'] ∉ components '/' p := by
  unfold checkPathForDirectoryTraversal splitPath
  rw [Bool.not_eq_true', ← Bool.not_eq_true, List.contains_iff_mem, List.mem_filter, not_and_or]
  simp

/-- What a file adds. Source: `Torrent::loadFiles`. Kind: L -/
theorem addFile_ok {piece_length : ℕ} {s s' : Files} {path : TQString} {length : Option Value}
    (h : addFile E piece_length s path length = .ok s') :
    s' = s ∨ (checkPathForDirectoryTraversal path = true ∧ piece_length ≠ 0 ∧
      ∃ size, number length = .ok size ∧ s' = {
        idx := u32 (s.idx + 1)
        file_length := u64 (s.file_length + size)
        files := s.files ++
          [TorrentFile.make s.idx path s.file_length size piece_length (E.multimedia path)] }) := by
  unfold addFile at h
  by_cases hend : path.getLast? = some '/'
  · rw [if_pos hend] at h
    exact .inl (Except.ok.inj h).symm
  rw [if_neg hend] at h
  cases hcheck : checkPathForDirectoryTraversal path with
  | false =>
    rw [hcheck] at h
    cases h
  | true =>
    rw [hcheck, if_neg (by decide)] at h
    obtain ⟨size, hsize, h⟩ := bind_ok_iff.mp h
    by_cases hp : piece_length = 0
    · rw [if_pos hp] at h
      cases h
    · rw [if_neg hp] at h
      exact .inr ⟨rfl, hp, size, hsize, (Except.ok.inj h).symm⟩

/-- What one round of the loop over the files adds. Source: `Torrent::loadFiles`. Kind: L -/
theorem loadFile_ok {piece_length : ℕ} {s s' : Files} {node : Option BNode}
    (h : loadFile E encoding piece_length s node = .ok s') :
    ∃ path length, addFile E piece_length s path length = .ok s' := by
  unfold loadFile at h
  split at h
  · cases h
  · split at h
    · cases h
    · obtain ⟨path, -, h⟩ := bind_ok_iff.mp h
      exact ⟨path, _, h⟩

/-- What the source makes a torrent of. Source: `Torrent::loadInfo`. Kind: L -/
theorem loadInfo_ok {dict : Option (List (List UInt8 × Option BNode))} {t : Torrent}
    (h : loadInfo E encoding dict = .ok t) : ∃ d s, dict = some d ∧
      loadPieceLength (BNode.getValue d (latin1 "piece length")) = .ok t.piece_length ∧
      loadLengths E encoding d t.piece_length = .ok s ∧
      loadHash (BNode.getValue d (latin1 "pieces")) = .ok t.hash_pieces ∧
      loadName E encoding (BNode.getValue d (latin1 "name")) = .ok t.name_suggestion ∧
      t.piece_length ≠ 0 ∧ numChunks t.file_length t.piece_length = t.hash_pieces.length ∧
      t.file_length = s.file_length ∧ t.files = s.files := by
  cases dict with
  | none => cases h
  | some d =>
    obtain ⟨piece_length, hpiece, h⟩ := bind_ok_iff.mp h
    obtain ⟨s, hs, h⟩ := bind_ok_iff.mp h
    obtain ⟨hash_pieces, hhash, h⟩ := bind_ok_iff.mp h
    obtain ⟨name, hname, h⟩ := bind_ok_iff.mp h
    split_ifs at h with h0 hnum
    cases h
    exact ⟨d, s, rfl, hpiece, hs, hhash, hname, h0, not_not.mp hnum, rfl, rfl⟩

/-- A torrent comes from its dictionary. Source: `Torrent::load`. Kind: L -/
theorem load_ok {data : List UInt8} {t : Torrent} (h : load E data = .ok t) :
    ∃ dict, rootOf data = .ok dict ∧
      loadInfo E (encodingOf dict) (BNode.getDict dict (latin1 "info")) = .ok t := by
  obtain ⟨dict, hdict, h⟩ := bind_ok_iff.mp h
  obtain ⟨-, -, h⟩ := bind_ok_iff.mp h
  obtain ⟨tor, htor, h⟩ := bind_ok_iff.mp h
  obtain ⟨-, -, h⟩ := bind_ok_iff.mp h
  cases h
  exact ⟨dict, hdict, htor⟩

/-- What every round of the loop over the files keeps, holds of the files of a torrent.
Source: `torrent/torrent.h`, `torrent/torrent.cpp`. Kind: L -/
theorem files_inv (Inv : Files → Prop) {d : List (List UInt8 × Option BNode)} {piece_length : ℕ}
    (hempty : ∀ length, Inv { file_length := length })
    (hround : ∀ s s' path length, Inv s → addFile E piece_length s path length = .ok s' → Inv s')
    {s : Files} (h : loadLengths E encoding d piece_length = .ok s) : Inv s := by
  unfold loadLengths at h
  split at h
  · obtain ⟨length, -, h⟩ := bind_ok_iff.mp h
    cases h
    exact hempty length
  · unfold loadFiles at h
    split at h
    · cases h
    · refine foldlM_inv Inv (fun s node s' hs hnode => ?_) (hempty 0) h
      obtain ⟨path, length, hadd⟩ := loadFile_ok hnode
      exact hround s s' path length hs hadd

end LoadTorrent

end KTorrent.Storage
