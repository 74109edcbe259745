import KTorrent.Interfaces.FileTreeWalk
import KTorrent.Storage.Selection

/-!
# The check boxes of the tree of files

A file is downloaded if its box is checked. Checking and unchecking a box, that of a file or that
of a directory, sets the priorities of files, and tells the directories above.

* `Consistent` — a box is checked unless its file is excluded or only seeded.
* `UpToDate` — the box of a directory is checked iff those of all items below it are.
* `upToDate_run` — a directory's box is up to date, unless no item below it has changed since the
  tree was built.
* `setAllChecked_iff`, `invertChecked_iff` — what is done to all items below a directory is done to
  each once, and to no other.
* `bytesToDownload_eq` — the bytes shown.

Source: `interfaces/filetreediritem.cpp`, `interfaces/filetreeitem.cpp`, `torrent/torrentfile.cpp`,
`plugins/infowidget/fileview.cpp`
-/

namespace KTorrent.Storage

open KTorrent.Lib

/-! ### The priority of a file -/

namespace FileSelection

/-- The assignments of `TorrentFile::setDoNotDownload`. Kind: D -/
def change (p : Priority) (f : FileSelection) : FileSelection :=
  { f with
    old_priority := if f.m_emitDlStatusChanged then f.priority else f.old_priority
    priority := p }

/-- Source: `TorrentFile::setDoNotDownload`. Kind: D -/
def setDoNotDownload (dnd : Bool) (f : FileSelection) : FileSelection :=
  let f := if f.priority ≠ .excluded ∧ dnd then f.change .excluded else f
  if f.priority = .excluded ∧ !dnd then f.change .normal else f

/-- Source: `TorrentFile::setPriority`. Kind: D -/
def setPriority (newpriority : Priority) (f : FileSelection) : FileSelection :=
  if f.priority = newpriority then f
  else
    let f := if f.priority = .excluded then f.setDoNotDownload false else f
    if newpriority = .excluded then f.setDoNotDownload true
    else { f with old_priority := f.priority, priority := newpriority }

/-- The priority after a change. Source: `interfaces/filetreediritem.cpp`,
`interfaces/filetreeitem.cpp`. Kind: L -/
@[simp] theorem priority_change (p : Priority) (f : FileSelection) :
    (f.change p).priority = p := rfl

/-- Deselecting excludes, selecting makes an excluded file normal.
Source: `TorrentFile::setDoNotDownload`. Kind: L -/
theorem priority_setDoNotDownload (dnd : Bool) (f : FileSelection) :
    (f.setDoNotDownload dnd).priority =
      if dnd then .excluded else if f.priority = .excluded then .normal else f.priority := by
  cases dnd <;> by_cases h : f.priority = .excluded <;> simp [setDoNotDownload, h]

/-- The priority that is set. Source: `TorrentFile::setPriority`. Kind: L -/
@[simp] theorem priority_setPriority (p : Priority) (f : FileSelection) :
    (f.setPriority p).priority = p := by
  unfold setPriority
  by_cases h : f.priority = p
  · rw [if_pos h, h]
  · rw [if_neg h]
    by_cases hp : p = .excluded
    · simp [hp, priority_setDoNotDownload]
    · simp [hp]

end FileSelection

namespace ChunkManager

variable {L : Layout} (s : ChunkManager L)

/-- The chunk manager's change of a file's priority is the file's own, and no other file's.
Source: `torrent/torrentfile.cpp`. Kind: L -/
theorem files_changeSelection (env : Env) (k : ℕ) (p : Priority) :
    (s.changeSelection env k p).files = Function.update s.files k ((s.files k).change p) := by
  unfold changeSelection
  dsimp only
  split_ifs with h
  · rw [files_downloadPriorityChanged, FileSelection.change, if_pos h]
  · rw [FileSelection.change, if_neg h]

/-- The chunk manager sets its files this way. Source: `TorrentFile::setDoNotDownload`. Kind: L -/
theorem files_setDoNotDownload (env : Env) (k : ℕ) (dnd : Bool) :
    (s.setDoNotDownload env k dnd).files =
      Function.update s.files k ((s.files k).setDoNotDownload dnd) := by
  unfold setDoNotDownload FileSelection.setDoNotDownload
  cases dnd <;> by_cases h : (s.files k).priority = .excluded <;>
    simp [h, files_changeSelection]

/-- The chunk manager sets a file's priority as the file does. Source: `TorrentFile::setPriority`.
Kind: L -/
theorem files_setPriority (env : Env) (k : ℕ) (p : Priority) :
    (s.setPriority env k p).files = Function.update s.files k ((s.files k).setPriority p) := by
  unfold setPriority FileSelection.setPriority
  by_cases hp : (s.files k).priority = p
  · simp [hp]
  · rw [if_neg hp, if_neg hp]
    by_cases hold : (s.files k).priority = .excluded <;> by_cases hnew : p = .excluded <;>
      simp [hold, hnew, files_setDoNotDownload]

end ChunkManager

end KTorrent.Storage

namespace KTorrent.Interfaces

open KTorrent.Lib KTorrent.Util KTorrent.Storage

/-! ### What is asked of the tree -/

mutual

/-- Source: `FileTreeDirItem::allChildrenOn`. Kind: D -/
def FileTreeDirItem.allChildrenOn (isOn : ℕ → Bool) : FileTreeDirItem → Bool
  | .node _ children subdirs =>
      children.entries.all (fun x => isOn x.2) && subdirs.allChildrenOn isOn

/-- One subdirectory after the other. Kind: D -/
def Subdirs.allChildrenOn (isOn : ℕ → Bool) : Subdirs → Bool
  | .nil => true
  | .cons _ sd rest => sd.allChildrenOn isOn && rest.allChildrenOn isOn

end

mutual

/-- The sum of what the items answer. Source: `FileTreeDirItem::bytesToDownload`. Kind: D -/
def FileTreeDirItem.bytesToDownload (bytes : ℕ → ℕ) : FileTreeDirItem → ℕ
  | .node _ children subdirs =>
      subdirs.bytesToDownload bytes
        (children.entries.foldl (fun tot x => u64 (tot + bytes x.2)) 0)

/-- One subdirectory after the other. Kind: D -/
def Subdirs.bytesToDownload (bytes : ℕ → ℕ) : Subdirs → ℕ → ℕ
  | .nil, tot => tot
  | .cons _ sd rest, tot => rest.bytesToDownload bytes (u64 (tot + sd.bytesToDownload bytes))

end

mutual

/-- All boxes below are checked iff those of all items the walk meets are.
Source: `FileTreeDirItem::allChildrenOn`. Kind: L -/
theorem FileTreeDirItem.allChildrenOn_iff (isOn : ℕ → Bool) (r : List TQString) :
    (d : FileTreeDirItem) →
      (d.allChildrenOn isOn = true ↔ ∀ i p, Visit.item i p ∈ d.walk r → isOn i = true)
  | .node _ children subdirs => by
      have ih := Subdirs.allChildrenOn_iff isOn r subdirs
      rw [FileTreeDirItem.allChildrenOn, Bool.and_eq_true, ih, List.all_eq_true]
      constructor
      · rintro ⟨hchildren, hsubdirs⟩ i p h
        rcases List.mem_append.mp (List.mem_of_ne_of_mem (by simp) h) with h | h
        · obtain ⟨x, hx, hvisit⟩ := List.mem_map.mp h
          rw [← (Visit.item.inj hvisit).1]
          exact hchildren x hx
        · exact hsubdirs i p h
      · intro h
        constructor
        · intro x hx
          apply h x.2 r
          rw [FileTreeDirItem.walk]
          exact List.mem_cons_of_mem _ (List.mem_append_left _ (List.mem_map_of_mem hx))
        · intro i p hp
          apply h i p
          rw [FileTreeDirItem.walk]
          exact List.mem_cons_of_mem _ (List.mem_append_right _ hp)

/-- A list of directories: all boxes below are checked iff those of all items the walk meets are.
Source: `FileTreeDirItem::allChildrenOn`. Kind: L -/
theorem Subdirs.allChildrenOn_iff (isOn : ℕ → Bool) (r : List TQString) : (m : Subdirs) →
    (m.allChildrenOn isOn = true ↔ ∀ i p, Visit.item i p ∈ m.walk r → isOn i = true)
  | .nil => by simp [Subdirs.allChildrenOn, Subdirs.walk]
  | .cons name sd rest => by
      have ih := FileTreeDirItem.allChildrenOn_iff isOn (name :: r) sd
      have ih' := Subdirs.allChildrenOn_iff isOn r rest
      rw [Subdirs.allChildrenOn, Bool.and_eq_true, ih, ih', Subdirs.walk]
      simp only [List.mem_append, or_imp, forall_and]

end

/-- Source: `FileTreeDirItem::bytesToDownload` counts to 64 bits. Kind: L -/
theorem foldl_u64 {α : Type} (f : α → ℕ) (l : List α) (tot : ℕ) :
    l.foldl (fun tot x => u64 (tot + f x)) (u64 tot) = u64 (tot + (l.map f).sum) := by
  induction l generalizing tot with
  | nil => rfl
  | cons x l ih =>
    have hstep : u64 (u64 tot + f x) = u64 (tot + f x) := by simp [u64]
    rw [List.foldl_cons, hstep, ih, List.map_cons, List.sum_cons, Nat.add_assoc]

mutual

/-- The bytes of a directory are the sum over its items, in 64 bits.
Source: `FileTreeDirItem::bytesToDownload`. Kind: L -/
theorem FileTreeDirItem.bytesToDownload_eq (bytes : ℕ → ℕ) : (d : FileTreeDirItem) →
    d.bytesToDownload bytes = u64 (d.total bytes)
  | .node _ children subdirs => by
      have hchildren := foldl_u64 (fun x : TQString × ℕ => bytes x.2) children.entries 0
      rw [Nat.zero_add] at hchildren
      rw [FileTreeDirItem.bytesToDownload, FileTreeDirItem.total]
      exact (congrArg _ hchildren).trans (Subdirs.bytesToDownload_eq bytes subdirs _)

/-- The bytes of a list of directories are added to those counted before, in 64 bits.
Source: `FileTreeDirItem::bytesToDownload`. Kind: L -/
theorem Subdirs.bytesToDownload_eq (bytes : ℕ → ℕ) : (m : Subdirs) → (tot : ℕ) →
    m.bytesToDownload bytes (u64 tot) = u64 (tot + m.total bytes)
  | .nil, tot => rfl
  | .cons name sd rest, tot => by
      have ih := FileTreeDirItem.bytesToDownload_eq bytes sd
      have hstep : u64 (u64 tot + u64 (sd.total bytes)) = u64 (tot + sd.total bytes) := by
        simp [u64]
      rw [Subdirs.bytesToDownload, ih, hstep, Subdirs.bytesToDownload_eq bytes rest,
        Subdirs.total, Nat.add_assoc]

end

/-! ### The view -/

/-- The boxes of the items, each given by its file, and those of the directories; and what the files
are set to. Source: `FileTreeItem`, `FileTreeDirItem`, `TQCheckListItem`. Kind: D -/
structure FileTreeView where
  fileOn : ℕ → Bool
  dirOn : List TQString → Bool
  files : ℕ → FileSelection

/-- Source: `util/constants.h`, `ConfirmationResult`. Kind: D -/
inductive ConfirmationResult
  | keepData
  | throwAwayData
  | canceled
deriving DecidableEq, Repr

namespace FileTreeView

/-- Source: `TQCheckListItem::setOn` of an item. Kind: D -/
def setFileOn (i : ℕ) (on : Bool) (v : FileTreeView) : FileTreeView :=
  { v with fileOn := Function.update v.fileOn i on }

/-- Source: `TQCheckListItem::setOn` of a directory. Kind: D -/
def setDirOn (r : List TQString) (on : Bool) (v : FileTreeView) : FileTreeView :=
  { v with dirOn := Function.update v.dirOn r on }

/-- A file is set. Kind: D -/
def modifyFile (i : ℕ) (g : FileSelection → FileSelection) (v : FileTreeView) : FileTreeView :=
  { v with files := Function.update v.files i (g (v.files i)) }

/-- The boxes when the tree has been built: those of the directories are checked.
Source: `FileTreeItem::init`, `FileTreeDirItem::FileTreeDirItem`. Kind: D -/
def init (files : ℕ → FileSelection) : FileTreeView where
  fileOn i := !((files i).doNotDownload || (files i).priority = .onlySeed)
  dirOn _ := true
  files := files

variable (specs : List FileSpec)

/-- All items below a directory of the tree are checked. Kind: D -/
def allOnAt (r : List TQString) (v : FileTreeView) : Bool :=
  ((setupMultifileTorrent specs).dirAt r.reverse).elim true fun d => d.allChildrenOn v.fileOn

/-- Source: `FileTreeDirItem::childStateChange`. Kind: D -/
def childStateChange : List TQString → FileTreeView → FileTreeView
  | [], v => v.setDirOn [] (v.allOnAt specs [])
  | name :: parent, v =>
      childStateChange parent (v.setDirOn (name :: parent) (v.allOnAt specs (name :: parent)))

/-- What checking and unchecking a box does to its file. Source: `FileTreeItem::setChecked`,
`FileTreeItem::stateChange`. Kind: D -/
def setFile (on keep_data : Bool) (f : FileSelection) : FileSelection :=
  if !on then if keep_data then f.setPriority .onlySeed else f.setDoNotDownload true
  else if f.priority = .onlySeed then f.setPriority .normal else f.setDoNotDownload false

/-- The item of a file in a directory. Source: `FileTreeItem::setChecked`. Kind: D -/
def setChecked (on keep_data : Bool) (i : ℕ) (r : List TQString) (v : FileTreeView) :
    FileTreeView :=
  childStateChange specs r ((v.setFileOn i on).modifyFile i (setFile on keep_data))

/-- A walk over the tree below a directory. Kind: D -/
def visitAt (atDir : List TQString → FileTreeView → FileTreeView)
    (atItem : ℕ → List TQString → FileTreeView → FileTreeView) (p : List TQString)
    (v : FileTreeView) : FileTreeView :=
  ((setupMultifileTorrent specs).dirAt p.reverse).elim v fun d => d.visit atDir atItem p v

/-- Source: `FileTreeDirItem::setAllChecked`. Kind: D -/
def setAllChecked (on keep_data : Bool) (p : List TQString) (v : FileTreeView) : FileTreeView :=
  v.visitAt specs (fun r v => v.setDirOn r on) (setChecked specs on keep_data) p

/-- Source: `FileTreeDirItem::invertChecked`. Kind: D -/
def invertChecked (p : List TQString) (v : FileTreeView) : FileTreeView :=
  v.visitAt specs (fun _ v => v) (fun i r v => v.setChecked specs (!v.fileOn i) false i r) p

/-- Source: `IWFileTreeDirItem::updateDNDInformation`, `IWFileTreeItem::updateDNDInformation`.
Kind: D -/
def updateDNDInformation (p : List TQString) (v : FileTreeView) : FileTreeView :=
  v.visitAt specs (fun _ v => v)
    (fun i r v =>
      if (v.files i).doNotDownload && v.fileOn i then v.setChecked specs false false i r else v) p

/-- A click on the box of an item. `answer` is that of `confirmationDialog`.
Source: `FileTreeItem::stateChange`. Kind: D -/
def stateChangeItem (i : ℕ) (answer : ConfirmationResult) (v : FileTreeView) : FileTreeView :=
  let on := !v.fileOn i
  let v := v.setFileOn i on
  if !on then
    match answer with
    | .keepData => childStateChange specs (dirPath specs i) (v.modifyFile i (setFile false true))
    | .throwAwayData =>
        childStateChange specs (dirPath specs i) (v.modifyFile i (setFile false false))
    | .canceled => v.setFileOn i true
  else childStateChange specs (dirPath specs i) (v.modifyFile i (setFile true false))

/-- The directory above is told. Kind: D -/
def tellParent (r : List TQString) (v : FileTreeView) : FileTreeView :=
  if r = [] then v else v.childStateChange specs r.tail

/-- A click on the box of a directory. Source: `FileTreeDirItem::stateChange`. Kind: D -/
def stateChangeDir (r : List TQString) (answer : ConfirmationResult) (v : FileTreeView) :
    FileTreeView :=
  let on := !v.dirOn r
  let v := v.setDirOn r on
  if on then (v.setAllChecked specs true false r).tellParent specs r
  else
    match answer with
    | .keepData => (v.setAllChecked specs false true r).tellParent specs r
    | .throwAwayData => (v.setAllChecked specs false false r).tellParent specs r
    | .canceled => v.setDirOn r true

/-- For the item of a file. For a directory it is done to its items one after the other.
Source: `FileView::changePriority`. Kind: D -/
def changePriority (newpriority : Priority) (i : ℕ) (v : FileTreeView) : FileTreeView :=
  if newpriority = .excluded then v.setChecked specs false false i (dirPath specs i)
  else if newpriority = .onlySeed then v.setChecked specs false true i (dirPath specs i)
  else
    let v := if !v.fileOn i then v.setChecked specs true true i (dirPath specs i) else v
    v.modifyFile i (·.setPriority newpriority)

/-- What the user and the torrent do. `childStateChange` is what is left of
`IWFileTreeDirItem::updatePriorityInformation`, which calls it on every directory. Kind: D -/
inductive Event
  | item (i : ℕ) (answer : ConfirmationResult)
  | dir (r : List TQString) (answer : ConfirmationResult)
  | selectAll
  | selectNone
  | invertSelection
  | changePriority (newpriority : Priority) (i : ℕ)
  | updateDNDInformation
  | childStateChange (r : List TQString)

/-- Something happens. There is an item for each file, and a box for each directory of the tree.
Kind: D -/
def step (v : FileTreeView) : Event → FileTreeView
  | .item i answer => if i < specs.length then v.stateChangeItem specs i answer else v
  | .dir r answer =>
      if ((setupMultifileTorrent specs).dirAt r.reverse).isSome then v.stateChangeDir specs r answer
      else v
  | .selectAll => v.setAllChecked specs true false []
  | .selectNone => v.setAllChecked specs false false []
  | .invertSelection => v.invertChecked specs []
  | .changePriority newpriority i =>
      if i < specs.length then v.changePriority specs newpriority i else v
  | .updateDNDInformation => v.updateDNDInformation specs []
  | .childStateChange r => v.childStateChange specs r

/-- What happens from when the tree has been built. Kind: D -/
def run (files : ℕ → FileSelection) (es : List Event) : FileTreeView :=
  es.foldl (step specs) (init files)

/-! ### What a box of a directory depends on -/

section boxes

variable {specs} {v v' v'' : FileTreeView} {q r : List TQString}

/-- The boxes of all items listed below the directory are checked. Kind: D -/
def AllOn (specs : List FileSpec) (q : List TQString) (v : FileTreeView) : Prop :=
  ∀ i, Listed specs i → q <:+ dirPath specs i → v.fileOn i = true

/-- The box of the directory shows whether those below it are checked. Kind: D -/
def UpToDate (specs : List FileSpec) (q : List TQString) (v : FileTreeView) : Prop :=
  v.dirOn q = true ↔ AllOn specs q v

/-- The box of the directory and those of the items below it have not changed. Kind: D -/
def Unchanged (specs : List FileSpec) (q : List TQString) (v v' : FileTreeView) : Prop :=
  v'.dirOn q = v.dirOn q ∧
    ∀ i, Listed specs i → q <:+ dirPath specs i → v'.fileOn i = v.fileOn i

/-- What each operation does to a directory. Kind: D -/
def Follows (specs : List FileSpec) (q : List TQString) (v v' : FileTreeView) : Prop :=
  UpToDate specs q v' ∨ Unchanged specs q v v'

/-- Nothing changed. Source: none: infrastructure. Kind: L -/
theorem Unchanged.refl (q : List TQString) (v : FileTreeView) : Unchanged specs q v v :=
  ⟨rfl, fun _ _ _ => rfl⟩

/-- Two steps that leave what is below unchanged. Source: none: infrastructure. Kind: L -/
theorem Unchanged.trans (h : Unchanged specs q v v') (h' : Unchanged specs q v' v'') :
    Unchanged specs q v v'' :=
  ⟨h'.1.trans h.1, fun i hi hq => (h'.2 i hi hq).trans (h.2 i hi hq)⟩

/-- A box stays up to date while nothing below it changes. Source: `interfaces/filetreediritem.cpp`,
`interfaces/filetreeitem.cpp`. Kind: L -/
theorem Unchanged.upToDate (h : Unchanged specs q v v') (hv : UpToDate specs q v) :
    UpToDate specs q v' := by
  unfold UpToDate at hv ⊢
  rw [h.1, hv]
  apply forall_congr'
  intro i
  refine imp_congr_right fun hi => imp_congr_right fun hq => ?_
  rw [h.2 i hi hq]

/-- One step that follows after the other. Source: none: infrastructure. Kind: L -/
theorem Follows.trans (h : Follows specs q v v') (h' : Follows specs q v' v'') :
    Follows specs q v v'' := by
  rcases h' with h' | h'
  · exact .inl h'
  · exact h.imp h'.upToDate fun hu => Unchanged.trans hu h'

/-- A box that follows stays up to date. Source: `interfaces/filetreediritem.cpp`,
`interfaces/filetreeitem.cpp`. Kind: L -/
theorem Follows.upToDate (h : Follows specs q v v') (hv : UpToDate specs q v) :
    UpToDate specs q v' := h.elim id fun h => h.upToDate hv

end boxes

/-! ### A directory is told -/

section told

variable {specs} {v : FileTreeView} {q r : List TQString} {i : ℕ}

/-- The source's test of a directory's boxes, as a statement about them.
Source: `interfaces/filetreediritem.cpp`, `interfaces/filetreeitem.cpp`. Kind: L -/
theorem allOnAt_iff : v.allOnAt specs r = true ↔ AllOn specs r v := by
  have hwalk : v.allOnAt specs r = true ↔
      ∀ i p, Visit.item i p ∈ walkAt specs r → v.fileOn i = true := by
    unfold allOnAt walkAt
    cases (setupMultifileTorrent specs).dirAt r.reverse with
    | none => simp
    | some d => exact d.allChildrenOn_iff v.fileOn r
  rw [hwalk]
  constructor
  · intro h i hi hr
    exact h i _ (mem_walkAt hi hr)
  · intro h i p hp
    obtain ⟨hi, rfl⟩ := listed_of_mem_walkAt hp
    exact h i hi (suffix_of_mem_walkAt hp)

/-- The boxes of the items are not touched. Source: `FileTreeDirItem::childStateChange`. Kind: L -/
@[simp] theorem fileOn_childStateChange : (childStateChange specs r v).fileOn = v.fileOn := by
  induction r generalizing v with
  | nil => rfl
  | cons name parent ih => exact ih

/-- The files are not touched. Source: `FileTreeDirItem::childStateChange`. Kind: L -/
@[simp] theorem files_childStateChange : (childStateChange specs r v).files = v.files := by
  induction r generalizing v with
  | nil => rfl
  | cons name parent ih => exact ih

/-- The directories above have been told, and no other. Source: `FileTreeDirItem::childStateChange`.
Kind: L -/
theorem dirOn_childStateChange : (childStateChange specs r v).dirOn q =
    if q <:+ r then v.allOnAt specs q else v.dirOn q := by
  induction r generalizing v with
  | nil =>
    by_cases hq : q = []
    · simp [hq, childStateChange, setDirOn]
    · simp [hq, childStateChange, setDirOn]
  | cons name parent ih =>
    rw [childStateChange, ih]
    by_cases hq : q <:+ parent
    · rw [if_pos hq, if_pos (hq.trans (List.suffix_cons name parent))]
      rfl
    · rw [if_neg hq]
      by_cases hself : q = name :: parent
      · simp [hself, setDirOn]
      · rw [if_neg fun h => (List.suffix_cons_iff.mp h).elim hself hq]
        exact Function.update_of_ne hself _ _

/-- The boxes on the way up are up to date afterwards. Source: `FileTreeDirItem::childStateChange`.
Kind: L -/
theorem upToDate_childStateChange (hq : q <:+ r) :
    UpToDate specs q (childStateChange specs r v) := by
  unfold UpToDate AllOn
  rw [dirOn_childStateChange, if_pos hq, fileOn_childStateChange]
  exact allOnAt_iff

/-- Every box follows. Source: `FileTreeDirItem::childStateChange`. Kind: L -/
theorem follows_childStateChange (r : List TQString) :
    Follows specs q v (childStateChange specs r v) := by
  by_cases hq : q <:+ r
  · exact .inl (upToDate_childStateChange hq)
  · refine .inr ⟨?_, fun i _ _ => by rw [fileOn_childStateChange]⟩
    rw [dirOn_childStateChange, if_neg hq]

/-- The box of an item and its file are set, and the directories above are told. Kind: D -/
def setItem (specs : List FileSpec) (on : Bool) (g : FileSelection → FileSelection) (i : ℕ)
    (v : FileTreeView) : FileTreeView :=
  childStateChange specs (dirPath specs i) ((v.setFileOn i on).modifyFile i g)

/-- An item tells its parents, so their boxes follow. Source: `interfaces/filetreediritem.cpp`,
`interfaces/filetreeitem.cpp`. Kind: L -/
theorem follows_setItem (on : Bool) (g : FileSelection → FileSelection) :
    Follows specs q v (setItem specs on g i v) := by
  by_cases hq : q <:+ dirPath specs i
  · exact .inl (upToDate_childStateChange hq)
  · -- the item is not below the directory
    refine .inr ⟨?_, fun j _ hj => ?_⟩
    · rw [setItem, dirOn_childStateChange, if_neg hq]
      rfl
    · have hne : j ≠ i := fun h => hq (h ▸ hj)
      rw [setItem, fileOn_childStateChange]
      exact Function.update_of_ne hne _ _

end told

/-! ### Walks -/

section walks

variable {specs} {v : FileTreeView} {p q : List TQString}
  {atDir : List TQString → FileTreeView → FileTreeView}
  {atItem : ℕ → List TQString → FileTreeView → FileTreeView}

/-- A visit of the tree is a walk over its items and directories in order.
Source: `interfaces/filetreediritem.cpp`, `interfaces/filetreeitem.cpp`. Kind: L -/
theorem visitAt_eq_foldl : v.visitAt specs atDir atItem p =
    (walkAt specs p).foldl (Visit.act atDir atItem) v := by
  unfold visitAt walkAt
  cases (setupMultifileTorrent specs).dirAt p.reverse with
  | none => rfl
  | some d => exact d.visit_eq_foldl atDir atItem p v

/-- A walk in which each visit is followed. Source: `interfaces/filetreediritem.cpp`,
`interfaces/filetreeitem.cpp`. Kind: L -/
theorem follows_foldl {l : List Visit}
    (hdir : ∀ r v, Visit.dir r ∈ l → Follows specs q v (atDir r v))
    (hitem : ∀ i v, Follows specs q v (atItem i (dirPath specs i) v))
    (hplace : ∀ i r, Visit.item i r ∈ l → dirPath specs i = r) (v : FileTreeView) :
    Follows specs q v (l.foldl (Visit.act atDir atItem) v) := by
  induction l generalizing v with
  | nil => exact .inr (Unchanged.refl q v)
  | cons x l ih =>
    have hrest := ih (fun r v h => hdir r v (List.mem_cons_of_mem x h))
      (fun i r h => hplace i r (List.mem_cons_of_mem x h)) (Visit.act atDir atItem v x)
    refine Follows.trans ?_ hrest
    cases x with
    | dir r => exact hdir r v List.mem_cons_self
    | item i r =>
      obtain rfl := hplace i r List.mem_cons_self
      exact hitem i v

/-- The walk meets an item in its own directory. Source: `interfaces/filetreediritem.cpp`,
`interfaces/filetreeitem.cpp`. Kind: L -/
theorem place_walkAt (p : List TQString) (i : ℕ) (r : List TQString)
    (h : Visit.item i r ∈ walkAt specs p) : dirPath specs i = r := (listed_of_mem_walkAt h).2

variable {on keep_data : Bool} {j : ℕ}

/-- The box of another directory does not matter. Source: `TQCheckListItem::setOn`. Kind: L -/
theorem follows_setDirOn {r : List TQString} (hr : r ≠ q) : Follows specs q v (v.setDirOn r on) :=
  .inr ⟨Function.update_of_ne hr.symm _ _, fun _ _ _ => rfl⟩

/-- A directory that is not below the one walked follows. Source: `FileTreeDirItem::setAllChecked`.
Kind: L -/
theorem follows_setAllChecked (hpq : ¬ p <:+ q) :
    Follows specs q v (v.setAllChecked specs on keep_data p) := by
  unfold setAllChecked
  rw [visitAt_eq_foldl]
  refine follows_foldl (fun r v hr => follows_setDirOn fun h => hpq ?_)
    (fun i v => follows_setItem _ _) (place_walkAt p) v
  rw [← h]
  exact suffix_of_mem_walkAt hr

/-- **A directory with items that are walked**: once all have been checked or unchecked, its box is
up to date. Source: `FileTreeDirItem::setAllChecked`. Kind: L -/
theorem upToDate_setAllChecked (hlisted : Listed specs j) (hp : p <:+ dirPath specs j)
    (hq : q <:+ dirPath specs j) : UpToDate specs q (v.setAllChecked specs on keep_data p) := by
  -- the last item below the directory, after which the directory is not met
  obtain ⟨pre, i, r, post, hsplit, hr, hpost⟩ := settles_walkAt hlisted hp hq
  have hplace : ∀ i r, Visit.item i r ∈ walkAt specs p → dirPath specs i = r := place_walkAt p
  unfold setAllChecked
  rw [visitAt_eq_foldl]
  rw [hsplit] at hplace ⊢
  obtain rfl := hplace i r (by simp)
  rw [List.foldl_append, List.foldl_cons]
  have hrest : ∀ w, Follows specs q w (post.foldl
      (Visit.act (fun r v => v.setDirOn r on) (setChecked specs on keep_data)) w) :=
    follows_foldl (fun r v hdir => follows_setDirOn fun h => hpost (h ▸ hdir))
      (fun i v => follows_setItem on (setFile on keep_data))
      (fun i r h => hplace i r (List.mem_append_right _ (List.mem_cons_of_mem _ h)))
  exact (hrest _).upToDate (upToDate_childStateChange hr)

/-- Boxes follow an inversion. Source: `FileTreeDirItem::invertChecked`. Kind: L -/
theorem follows_invertChecked : Follows specs q v (v.invertChecked specs p) := by
  unfold invertChecked
  rw [visitAt_eq_foldl]
  exact follows_foldl (fun r v _ => .inr (Unchanged.refl q v)) (fun i v => follows_setItem _ _)
    (place_walkAt p) v

/-- Boxes follow a refresh. Source: `IWFileTreeDirItem::updateDNDInformation`. Kind: L -/
theorem follows_updateDNDInformation : Follows specs q v (v.updateDNDInformation specs p) := by
  unfold updateDNDInformation
  rw [visitAt_eq_foldl]
  refine follows_foldl (fun r v _ => .inr (Unchanged.refl q v)) (fun i v => ?_) (place_walkAt p) v
  split_ifs
  · exact follows_setItem _ _
  · exact .inr (Unchanged.refl q v)

end walks

/-! ### Each event -/

section events

variable {specs} {v : FileTreeView} {q r : List TQString} {i j : ℕ}

/-- Boxes follow when the parent is told. Source: `interfaces/filetreediritem.cpp`,
`interfaces/filetreeitem.cpp`. Kind: L -/
theorem follows_tellParent : Follows specs q v (v.tellParent specs r) := by
  unfold tellParent
  split_ifs
  · exact .inr (Unchanged.refl q v)
  · exact follows_childStateChange _

/-- Boxes follow a click on an item. Source: `FileTreeItem::stateChange`. Kind: L -/
theorem follows_stateChangeItem (answer : ConfirmationResult) :
    Follows specs q v (v.stateChangeItem specs i answer) := by
  unfold stateChangeItem
  cases hon : v.fileOn i with
  | false => exact follows_setItem true (setFile true false)
  | true =>
    cases answer with
    | keepData => exact follows_setItem false (setFile false true)
    | throwAwayData => exact follows_setItem false (setFile false false)
    | canceled =>
      refine .inr ⟨rfl, fun k _ _ => ?_⟩
      by_cases hk : k = i
      · simp [hk, setFileOn, hon]
      · simp [hk, setFileOn]

/-- The box of a directory has been changed, and then all those below. Source: `BitSet::setAll`.
Kind: L -/
theorem follows_setAll (on keep_data : Bool) (hlisted : Listed specs j)
    (hq : q <:+ dirPath specs j) :
    Follows specs q v
      (((v.setDirOn r on).setAllChecked specs on keep_data r).tellParent specs r) := by
  refine Follows.trans ?_ follows_tellParent
  by_cases hr : r <:+ q
  · exact .inl (upToDate_setAllChecked hlisted (hr.trans hq) hq)
  · refine Follows.trans (follows_setDirOn fun h => hr ?_) (follows_setAllChecked hr)
    rw [h]

/-- Boxes at or above the directory follow a click on it. Source: `FileTreeDirItem::stateChange`.
Kind: L -/
theorem follows_stateChangeDir (answer : ConfirmationResult) (hlisted : Listed specs j)
    (hq : q <:+ dirPath specs j) : Follows specs q v (v.stateChangeDir specs r answer) := by
  unfold stateChangeDir
  cases hon : v.dirOn r with
  | false => exact follows_setAll true false hlisted hq
  | true =>
    cases answer with
    | keepData => exact follows_setAll false true hlisted hq
    | throwAwayData => exact follows_setAll false false hlisted hq
    | canceled =>
      refine .inr ⟨?_, fun _ _ _ => rfl⟩
      by_cases hr : q = r
      · simp [hr, setDirOn, hon]
      · simp [hr, setDirOn]

/-- Boxes follow a change of priority. Source: `FileView::changePriority`. Kind: L -/
theorem follows_changePriority (newpriority : Priority) :
    Follows specs q v (v.changePriority specs newpriority i) := by
  have hmodify : ∀ w : FileTreeView,
      Follows specs q w (w.modifyFile i (·.setPriority newpriority)) :=
    fun w => .inr ⟨rfl, fun _ _ _ => rfl⟩
  unfold changePriority
  dsimp only
  split_ifs
  · exact follows_setItem _ _
  · exact follows_setItem _ _
  · exact (follows_setItem true (setFile true true)).trans (hmodify _)
  · exact hmodify v

/-- Whatever happens, a directory with a file follows. Source: `interfaces/filetreediritem.cpp`,
`interfaces/filetreeitem.cpp`. Kind: L -/
theorem follows_step (e : Event) (hlisted : Listed specs j) (hq : q <:+ dirPath specs j) :
    Follows specs q v (step specs v e) := by
  have hsame : Follows specs q v v := .inr (Unchanged.refl q v)
  have hroot : ∀ on keep_data, Follows specs q v (v.setAllChecked specs on keep_data []) :=
    fun on keep_data => .inl (upToDate_setAllChecked hlisted List.nil_suffix hq)
  cases e with
  | item i answer =>
    simp only [step]
    split_ifs
    · exact follows_stateChangeItem answer
    · exact hsame
  | dir r answer =>
    simp only [step]
    split_ifs
    · exact follows_stateChangeDir answer hlisted hq
    · exact hsame
  | selectAll => exact hroot true false
  | selectNone => exact hroot false false
  | invertSelection => exact follows_invertChecked
  | changePriority newpriority i =>
    simp only [step]
    split_ifs
    · exact follows_changePriority newpriority
    · exact hsame
  | updateDNDInformation => exact follows_updateDNDInformation
  | childStateChange r => exact follows_childStateChange r

end events

/-! ### Each item -/

section items

variable {specs} {v : FileTreeView} {p : List TQString} {i : ℕ} {on keep_data : Bool}

/-- The box of an item and what its file is set to. Kind: D -/
def itemOf (i : ℕ) (v : FileTreeView) : Bool × FileSelection := (v.fileOn i, v.files i)

/-- One item is set, the others are left. Source: `interfaces/filetreediritem.cpp`,
`interfaces/filetreeitem.cpp`. Kind: L -/
theorem itemOf_setItem (on : Bool) (g : FileSelection → FileSelection) (j : ℕ) :
    itemOf i (setItem specs on g j v) = if j = i then (on, g (v.files i)) else itemOf i v := by
  unfold itemOf setItem
  rw [fileOn_childStateChange, files_childStateChange]
  by_cases hj : j = i
  · subst hj
    simp [setFileOn, modifyFile]
  · rw [if_neg hj]
    simp [setFileOn, modifyFile, Function.update_of_ne (Ne.symm hj)]

/-- A walk does to an item what is done there, as often as the item is met.
Source: `interfaces/filetreediritem.cpp`, `interfaces/filetreeitem.cpp`. Kind: L -/
theorem itemOf_foldl {atDir : List TQString → FileTreeView → FileTreeView}
    {atItem : ℕ → List TQString → FileTreeView → FileTreeView}
    (g : Bool × FileSelection → Bool × FileSelection)
    (hdir : ∀ r v, itemOf i (atDir r v) = itemOf i v)
    (hitem : ∀ j v, itemOf i (atItem j (dirPath specs j) v) =
      if j = i then g (itemOf i v) else itemOf i v)
    {l : List Visit} (hplace : ∀ j r, Visit.item j r ∈ l → dirPath specs j = r)
    (v : FileTreeView) : itemOf i (l.foldl (Visit.act atDir atItem) v) =
      g^[(l.map (Visit.weight fun j => if j = i then 1 else 0)).sum] (itemOf i v) := by
  induction l generalizing v with
  | nil => rfl
  | cons x l ih =>
    rw [List.foldl_cons, ih fun j r h => hplace j r (List.mem_cons_of_mem x h), List.map_cons,
      List.sum_cons, Nat.add_comm, Function.iterate_add_apply]
    congr 1
    cases x with
    | dir r => exact hdir r v
    | item j r =>
      obtain rfl := hplace j r List.mem_cons_self
      refine (hitem j v).trans ?_
      by_cases hj : j = i
      · simp [Visit.weight, hj]
      · simp [Visit.weight, hj]

/-- A visit acts once on each listed item below, and on no other.
Source: `interfaces/filetreediritem.cpp`, `interfaces/filetreeitem.cpp`. Kind: L -/
theorem itemOf_visitAt {atDir : List TQString → FileTreeView → FileTreeView}
    {atItem : ℕ → List TQString → FileTreeView → FileTreeView}
    (g : Bool × FileSelection → Bool × FileSelection)
    (hdir : ∀ r v, itemOf i (atDir r v) = itemOf i v)
    (hitem : ∀ j v, itemOf i (atItem j (dirPath specs j) v) =
      if j = i then g (itemOf i v) else itemOf i v) :
    itemOf i (v.visitAt specs atDir atItem p) =
      if Listed specs i ∧ p <:+ dirPath specs i then g (itemOf i v) else itemOf i v := by
  rw [visitAt_eq_foldl, itemOf_foldl g hdir hitem (place_walkAt p), count_walkAt]
  split_ifs <;> rfl

/-- Exactly the listed items below get the box and the priority.
Source: `FileTreeDirItem::setAllChecked`. Kind: L -/
theorem itemOf_setAllChecked : itemOf i (v.setAllChecked specs on keep_data p) =
    if Listed specs i ∧ p <:+ dirPath specs i then (on, setFile on keep_data (v.files i))
    else itemOf i v :=
  itemOf_visitAt (fun b => (on, setFile on keep_data b.2)) (fun _ _ => rfl)
    fun j _ => itemOf_setItem on _ j

/-- Exactly the listed items below are inverted. Source: `FileTreeDirItem::invertChecked`.
Kind: L -/
theorem itemOf_invertChecked : itemOf i (v.invertChecked specs p) =
    if Listed specs i ∧ p <:+ dirPath specs i then
      (!v.fileOn i, setFile (!v.fileOn i) false (v.files i))
    else itemOf i v := by
  refine itemOf_visitAt (fun b => (!b.1, setFile (!b.1) false b.2)) (fun _ _ => rfl) fun j w => ?_
  refine (itemOf_setItem (!w.fileOn j) _ j).trans ?_
  by_cases hj : j = i
  · rw [if_pos hj, if_pos hj, hj]
    rfl
  · rw [if_neg hj, if_neg hj]

/-- Exactly the checked items below whose file is not to be downloaded lose their box.
Source: `IWFileTreeDirItem::updateDNDInformation`. Kind: L -/
theorem itemOf_updateDNDInformation : itemOf i (v.updateDNDInformation specs p) =
    if (Listed specs i ∧ p <:+ dirPath specs i) ∧ (v.files i).doNotDownload && v.fileOn i then
      (false, setFile false false (v.files i))
    else itemOf i v := by
  rw [ite_and]
  refine itemOf_visitAt
    (fun b => if b.2.doNotDownload && b.1 then (false, setFile false false b.2) else b)
    (fun _ _ => rfl) fun j w => ?_
  by_cases hdnd : ((w.files j).doNotDownload && w.fileOn j) = true
  · rw [if_pos hdnd]
    refine (itemOf_setItem false _ j).trans ?_
    by_cases hj : j = i
    · subst hj
      rw [if_pos rfl, if_pos rfl]
      exact (if_pos hdnd).symm
    · rw [if_neg hj, if_neg hj]
  · rw [if_neg hdnd]
    by_cases hj : j = i
    · subst hj
      rw [if_pos rfl]
      exact (if_neg hdnd).symm
    · rw [if_neg hj]

end items

/-! ### The boxes and the files -/

section consistent

variable {specs} {v : FileTreeView} {p r : List TQString} {i : ℕ} {on keep_data : Bool}

/-- The box is checked iff the file is downloaded. Kind: D -/
def Agrees (b : Bool × FileSelection) : Prop :=
  b.1 = true ↔ b.2.priority ≠ .excluded ∧ b.2.priority ≠ .onlySeed

/-- Each box is checked iff its file is downloaded. Kind: D -/
def Consistent (v : FileTreeView) : Prop := ∀ i, Agrees (itemOf i v)

/-- The view that is set up is consistent. Source: `FileTreeItem::init`,
`FileTreeDirItem::FileTreeDirItem`. Kind: L -/
theorem consistent_init (files : ℕ → FileSelection) : Consistent (init files) := by
  intro i
  simp [Agrees, itemOf, init, FileSelection.doNotDownload]

/-- The priority a click leaves. Source: `FileTreeItem::setChecked`, `FileTreeItem::stateChange`.
Kind: L -/
theorem priority_setFile (f : FileSelection) : (setFile on keep_data f).priority =
    if on then if f.priority = .onlySeed ∨ f.priority = .excluded then .normal else f.priority
    else if keep_data then .onlySeed else .excluded := by
  unfold setFile
  cases on <;> cases keep_data <;> by_cases h : f.priority = .onlySeed <;>
    simp [h, FileSelection.priority_setDoNotDownload]

/-- A box that is set agrees with the priority it sets. Source: `FileTreeItem::setChecked`,
`FileTreeItem::stateChange`. Kind: L -/
theorem agrees_setFile (f : FileSelection) : Agrees (on, setFile on keep_data f) := by
  unfold Agrees
  rw [priority_setFile]
  cases on with
  | false => cases keep_data <;> simp
  | true =>
    by_cases h : f.priority = .onlySeed ∨ f.priority = .excluded
    · simp [h]
    · rw [not_or] at h
      simp [h.1, h.2]

/-- An item that is set stays consistent. Source: `FileTreeItem::setChecked`,
`FileTreeItem::stateChange`. Kind: L -/
theorem Consistent.setItem (h : Consistent v) (on keep_data : Bool) :
    Consistent (FileTreeView.setItem specs on (setFile on keep_data) i v) := by
  intro j
  rw [itemOf_setItem]
  split_ifs
  · exact agrees_setFile _
  · exact h j

/-- Telling a directory changes no item. Source: `FileTreeDirItem::childStateChange`. Kind: L -/
theorem Consistent.childStateChange (h : Consistent v) (r : List TQString) :
    Consistent (FileTreeView.childStateChange specs r v) := by
  intro j
  unfold itemOf
  rw [fileOn_childStateChange, files_childStateChange]
  exact h j

/-- Setting all items below keeps the view consistent. Source: `FileTreeDirItem::setAllChecked`.
Kind: L -/
theorem Consistent.setAllChecked (h : Consistent v) :
    Consistent (v.setAllChecked specs on keep_data p) := by
  intro j
  rw [itemOf_setAllChecked]
  split_ifs
  · exact agrees_setFile _
  · exact h j

/-- Inverting all items below keeps the view consistent. Source: `FileTreeDirItem::invertChecked`.
Kind: L -/
theorem Consistent.invertChecked (h : Consistent v) : Consistent (v.invertChecked specs p) := by
  intro j
  rw [itemOf_invertChecked]
  split_ifs
  · exact agrees_setFile _
  · exact h j

/-- A refresh keeps the view consistent. Source: `IWFileTreeDirItem::updateDNDInformation`.
Kind: L -/
theorem Consistent.updateDNDInformation (h : Consistent v) :
    Consistent (v.updateDNDInformation specs p) := by
  intro j
  rw [itemOf_updateDNDInformation]
  split_ifs
  · exact agrees_setFile _
  · exact h j

/-- A click on an item keeps the view consistent. Source: `FileTreeItem::stateChange`. Kind: L -/
theorem Consistent.stateChangeItem (h : Consistent v) (answer : ConfirmationResult) :
    Consistent (v.stateChangeItem specs i answer) := by
  unfold FileTreeView.stateChangeItem
  cases hon : v.fileOn i with
  | false => exact h.setItem true false
  | true =>
    cases answer with
    | keepData => exact h.setItem false true
    | throwAwayData => exact h.setItem false false
    | canceled =>
      intro j
      have hsame : itemOf j ((v.setFileOn i false).setFileOn i true) = itemOf j v := by
        by_cases hj : j = i
        · simp [itemOf, setFileOn, hj, hon]
        · simp [itemOf, setFileOn, hj]
      exact hsame ▸ h j

/-- Setting a directory and telling its parent keeps the view consistent. Source: `BitSet::setAll`.
Kind: L -/
theorem Consistent.setAll (h : Consistent v) (on keep_data : Bool) : Consistent
    (((v.setDirOn r on).setAllChecked specs on keep_data r).tellParent specs r) := by
  have hset : Consistent ((v.setDirOn r on).setAllChecked specs on keep_data r) :=
    Consistent.setAllChecked h
  unfold tellParent
  split_ifs
  · exact hset
  · exact hset.childStateChange _

/-- A click on a directory keeps the view consistent. Source: `FileTreeDirItem::stateChange`.
Kind: L -/
theorem Consistent.stateChangeDir (h : Consistent v) (answer : ConfirmationResult) :
    Consistent (v.stateChangeDir specs r answer) := by
  unfold FileTreeView.stateChangeDir
  cases v.dirOn r with
  | false => exact h.setAll true false
  | true =>
    cases answer with
    | keepData => exact h.setAll false true
    | throwAwayData => exact h.setAll false false
    | canceled => exact h

/-- The box has been checked before the priority is set. Source: `FileView::changePriority`.
Kind: L -/
theorem Consistent.changePriority (h : Consistent v) (newpriority : Priority) :
    Consistent (v.changePriority specs newpriority i) := by
  have hmodify : ∀ w : FileTreeView, Consistent w → w.fileOn i = true →
      newpriority ≠ .excluded → newpriority ≠ .onlySeed →
      Consistent (w.modifyFile i (·.setPriority newpriority)) := by
    intro w hw hon hex hseed j
    by_cases hj : j = i
    · simp [Agrees, itemOf, modifyFile, hj, hon, hex, hseed]
    · have hsame : itemOf j (w.modifyFile i (·.setPriority newpriority)) = itemOf j w := by
        simp [itemOf, modifyFile, hj]
      rw [hsame]
      exact hw j
  unfold FileTreeView.changePriority
  dsimp only
  split_ifs with hex hseed hoff
  · exact h.setItem false false
  · exact h.setItem false true
  · refine hmodify _ (h.setItem true true) ?_ hex hseed
    exact congrArg Prod.fst ((itemOf_setItem true _ i).trans (if_pos rfl))
  · exact hmodify v h (by simpa using hoff) hex hseed

/-- Every event keeps the view consistent. Source: `interfaces/filetreediritem.cpp`,
`interfaces/filetreeitem.cpp`. Kind: L -/
theorem Consistent.step (h : Consistent v) (e : Event) : Consistent (v.step specs e) := by
  cases e with
  | item i answer =>
    simp only [FileTreeView.step]
    split_ifs
    · exact h.stateChangeItem answer
    · exact h
  | dir r answer =>
    simp only [FileTreeView.step]
    split_ifs
    · exact h.stateChangeDir answer
    · exact h
  | selectAll => exact h.setAllChecked
  | selectNone => exact h.setAllChecked
  | invertSelection => exact h.invertChecked
  | changePriority newpriority i =>
    simp only [FileTreeView.step]
    split_ifs
    · exact h.changePriority newpriority
    · exact h
  | updateDNDInformation => exact h.updateDNDInformation
  | childStateChange r => exact h.childStateChange r

end consistent

/-! ### Whatever is clicked -/

section runs

variable (files : ℕ → FileSelection) (es : List Event)

/-- **What the boxes show**: the box of a file is checked iff the file is downloaded; that of a
directory is checked iff those of all items below it are, or none of these has changed since the
directory was shown checked. Source: `FileTreeItem::init`, `FileTreeDirItem::FileTreeDirItem`.
Kind: P -/
theorem upToDate_run : Consistent (run specs files es) ∧
    ∀ q j, Listed specs j → q <:+ dirPath specs j →
      UpToDate specs q (run specs files es) ∨ (run specs files es).dirOn q = true ∧
        ∀ i, Listed specs i → q <:+ dirPath specs i →
          (run specs files es).fileOn i = (init files).fileOn i := by
  unfold run
  induction es using List.reverseRecOn with
  | nil => exact ⟨consistent_init files, fun q j _ _ => .inr ⟨rfl, fun _ _ _ => rfl⟩⟩
  | append_singleton es e ih =>
    obtain ⟨hconsistent, hfollows⟩ := ih
    rw [List.foldl_append]
    refine ⟨hconsistent.step e, fun q j hj hq => ?_⟩
    have hstart : Follows specs q (init files) (es.foldl (step specs) (init files)) :=
      hfollows q j hj hq
    exact hstart.trans (follows_step e hj hq)

/-- **All items below a directory**: checking or unchecking them sets each of their files once, no
other file, and leaves the boxes of the directories from the root to the items up to date.
Source: `FileTreeDirItem::setAllChecked`. Kind: P -/
theorem setAllChecked_spec (v : FileTreeView) (on keep_data : Bool) (p : List TQString) :
    (∀ i, itemOf i (v.setAllChecked specs on keep_data p) =
      if Listed specs i ∧ p <:+ dirPath specs i then (on, setFile on keep_data (v.files i))
      else itemOf i v) ∧
    ∀ q j, Listed specs j → p <:+ dirPath specs j → q <:+ dirPath specs j →
      UpToDate specs q (v.setAllChecked specs on keep_data p) :=
  ⟨fun _ => itemOf_setAllChecked, fun _ _ hj hp hq => upToDate_setAllChecked hj hp hq⟩

/-- The bytes shown for an item. Source: `FileTreeItem::bytesToDownload`. Kind: D -/
def bytesOfItem (v : FileTreeView) (i : ℕ) : ℕ :=
  if (v.files i).doNotDownload then 0 else sizeOf specs i

/-- **The bytes to download**: those of the listed files that are not excluded; a file that is only
seeded counts, though its box is not checked. Source: `FileTreeDirItem::bytesToDownload`. Kind: P -/
theorem bytesToDownload_setup (v : FileTreeView) :
    (setupMultifileTorrent specs).bytesToDownload (v.bytesOfItem specs) =
      u64 (∑ i ∈ Finset.range specs.length,
        if Listed specs i ∧ (v.files i).priority ≠ .excluded then sizeOf specs i else 0) := by
  have htotal : (setupMultifileTorrent specs).total (v.bytesOfItem specs) = _ :=
    totalAt_setup (v.bytesOfItem specs) []
  rw [FileTreeDirItem.bytesToDownload_eq, htotal]
  congr 1
  apply Finset.sum_congr rfl
  intro i _
  by_cases hlisted : Listed specs i
  · by_cases hex : (v.files i).priority = .excluded
    · simp [hlisted, hex, bytesOfItem, FileSelection.doNotDownload]
    · simp [hlisted, hex, bytesOfItem, FileSelection.doNotDownload]
  · simp [hlisted]

end runs

end FileTreeView

end KTorrent.Interfaces
