import KTorrent.Lib.Paths
import KTorrent.Lib.SortedMap
import KTorrent.Storage.Torrent
import Mathlib.Algebra.BigOperators.Group.Finset.Piecewise
import Mathlib.Data.Char
import Mathlib.Data.List.Lex

/-!
# The tree of a torrent's files

The files of a torrent are shown in a tree of directories. A path is cut at its separators; each
directory has a map of its items and a map of its subdirectories, and counts the bytes inserted
below it.

* `setupMultifileTorrent` — the tree of a list of files.
* `Listed` — a file whose place in the map of items no later file of the same path has taken.
* `fileAt_setup` — at each path the tree has the file listed there.
* `totalAt_setup` — what a walk below a directory adds up: the files listed below it.
* `size_setup` — the size of a directory is that of all files inserted below it; `setup_spec` — this
  and what is found at a path.

Source: `interfaces/filetreediritem.cpp`, `util/ptrmap.h`
-/

namespace KTorrent.Interfaces

open KTorrent.Lib KTorrent.Util KTorrent.Storage

mutual

/-- A directory with its items, each the number of its file, and its subdirectories.
Source: `interfaces/filetreediritem.h`, `FileTreeDirItem`. Kind: D -/
inductive FileTreeDirItem
  | node (size : ℕ) (children : SortedMap TQString ℕ) (subdirs : Subdirs)

/-- Source: `FileTreeDirItem::subdirs`. Kind: D -/
inductive Subdirs
  | nil
  | cons (name : TQString) (sd : FileTreeDirItem) (rest : Subdirs)

end

namespace Subdirs

/-- Source: `PtrMap::find`. Kind: D -/
def find (name : TQString) : Subdirs → Option FileTreeDirItem
  | nil => none
  | cons n sd rest => if name = n then some sd else rest.find name

/-- A name that is not there. Source: `PtrMap::insert`. Kind: D -/
def insert (name : TQString) (sd : FileTreeDirItem) : Subdirs → Subdirs
  | nil => cons name sd nil
  | cons n sd' rest =>
      if name < n then cons name sd (cons n sd' rest) else cons n sd' (rest.insert name sd)

/-- The directory of a name is changed in place. Kind: D -/
def modify (name : TQString) (g : FileTreeDirItem → FileTreeDirItem) : Subdirs → Subdirs
  | nil => nil
  | cons n sd rest => if name = n then cons n (g sd) rest else cons n sd (rest.modify name g)

/-- The names. Kind: D -/
def names : Subdirs → List TQString
  | nil => []
  | cons n _ rest => n :: rest.names

end Subdirs

namespace FileTreeDirItem

/-- A directory without anything. Source: `FileTreeDirItem::FileTreeDirItem`. Kind: D -/
def new : FileTreeDirItem := .node 0 .empty .nil

/-- The path is given by its names: `find`, `left` and `mid` cut it at the first separator.
Source: `FileTreeDirItem::insert`. Kind: D -/
def insert (file file_size : ℕ) : List TQString → FileTreeDirItem → FileTreeDirItem
  | [], d => d
  | [name], .node size children subdirs =>
      .node (u64 (size + file_size)) (children.put name file) subdirs
  | subdir :: path, .node size children subdirs =>
      let subdirs :=
        if (subdirs.find subdir).isNone then subdirs.insert subdir new else subdirs
      .node (u64 (size + file_size)) children (subdirs.modify subdir (insert file file_size path))

/-- The size shown for the directory. Kind: D -/
def size : FileTreeDirItem → ℕ
  | .node size _ _ => size

/-- The directory at a path. Kind: D -/
def dirAt : List TQString → FileTreeDirItem → Option FileTreeDirItem
  | [], d => some d
  | name :: path, .node _ _ subdirs => (subdirs.find name).bind (dirAt path)

/-- The file of the item at a path. Kind: D -/
def fileAt : List TQString → FileTreeDirItem → Option ℕ
  | [], _ => none
  | [name], .node _ children _ => children.find? name
  | name :: path, .node _ _ subdirs => (subdirs.find name).bind (fileAt path)

end FileTreeDirItem

/-- The names on the path of a file. Kind: D -/
def pathOf (files : List FileSpec) (i : ℕ) : List TQString :=
  (files[i]?).elim [] fun f => components '/' f.path

/-- The files are inserted one after the other.
Source: `FileSelectDlg::setupMultifileTorrent`, `FileView::fillTreePartial`. Kind: D -/
def setupMultifileTorrent (files : List FileSpec) : FileTreeDirItem :=
  files.zipIdx.foldl (fun root x => root.insert x.2 x.1.size (components '/' x.1.path)) .new

/-- The map of its directory has the item of the file: no later file has its path. Kind: D -/
def Listed (files : List FileSpec) (i : ℕ) : Prop :=
  i < files.length ∧ ∀ j < files.length, i < j → pathOf files j ≠ pathOf files i

instance (files : List FileSpec) (i : ℕ) : Decidable (Listed files i) :=
  inferInstanceAs (Decidable (_ ∧ _))

/-! ### Walks over the tree -/

mutual

/-- A sum over all items below a directory. Kind: D -/
def FileTreeDirItem.total (f : ℕ → ℕ) : FileTreeDirItem → ℕ
  | .node _ children subdirs => (children.entries.map fun x => f x.2).sum + subdirs.total f

/-- A sum over all items below the directories. Kind: D -/
def Subdirs.total (f : ℕ → ℕ) : Subdirs → ℕ
  | .nil => 0
  | .cons _ sd rest => sd.total f + rest.total f

end

/-! ### A map of directories -/

namespace Subdirs

variable (f : ℕ → ℕ) (name : TQString) (sd : FileTreeDirItem)
  (g : FileTreeDirItem → FileTreeDirItem)

/-- The total with a new directory. Source: `FileTreeDirItem::subdirs`. Kind: L -/
theorem total_insert : (m : Subdirs) → (m.insert name sd).total f = m.total f + sd.total f
  | nil => by simp [insert, total]
  | cons n sd' rest => by
      have ih := total_insert rest
      unfold insert
      split_ifs
      · simp only [total]
        omega
      · simp only [total, ih]
        omega

/-- What is found with it. Source: `FileTreeDirItem::subdirs`. Kind: L -/
theorem find_insert (j : TQString) : (m : Subdirs) → m.find name = none →
    (m.insert name sd).find j = if j = name then some sd else m.find j
  | nil, _ => rfl
  | cons n sd' rest, h => by
      have hne : name ≠ n := fun heq => by simp [find, heq] at h
      have hrest : rest.find name = none := by simpa [find, hne] using h
      have ih := find_insert j rest hrest
      unfold insert
      by_cases hlt : name < n
      · rw [if_pos hlt, find]
      · rw [if_neg hlt, find, find, ih]
        by_cases hj : j = name
        · rw [if_pos hj, if_pos hj, if_neg (hj ▸ hne)]
        · rw [if_neg hj, if_neg hj]

/-- What is found after a change. Source: `FileTreeDirItem::subdirs`. Kind: L -/
theorem find_modify (j : TQString) : (m : Subdirs) →
    (m.modify name g).find j = if j = name then (m.find j).map g else m.find j
  | nil => by simp [modify, find]
  | cons n sd' rest => by
      have ih := find_modify j rest
      unfold modify
      by_cases hn : name = n
      · rw [if_pos hn, find, find]
        by_cases hj : j = n
        · rw [if_pos hj, if_pos hj, if_pos (hj.trans hn.symm)]
          rfl
        · rw [if_neg hj, if_neg hj, if_neg fun hjn => hj (hjn.trans hn)]
      · rw [if_neg hn, find, find]
        by_cases hj : j = n
        · rw [if_pos hj, if_pos hj, if_neg fun hjn => hn (hjn.symm.trans hj)]
        · rw [if_neg hj, if_neg hj, ih]

/-- The total after a change. Source: `FileTreeDirItem::subdirs`. Kind: L -/
theorem total_modify : (m : Subdirs) → m.find name = some sd →
    (m.modify name g).total f + sd.total f = m.total f + (g sd).total f
  | nil, h => by cases h
  | cons n sd' rest, h => by
      have ih := total_modify rest
      unfold modify
      by_cases hn : name = n
      · rw [find, if_pos hn] at h
        obtain rfl := Option.some.inj h
        rw [if_pos hn]
        simp only [total]
        omega
      · rw [find, if_neg hn] at h
        rw [if_neg hn]
        simp only [total]
        have hrest := ih h
        omega

/-- The directory of a name, an empty one if there is none, is changed. Kind: D -/
def into (m : Subdirs) : Subdirs :=
  (if (m.find name).isNone then m.insert name .new else m).modify name g

variable (m : Subdirs)

/-- The directory that is changed is there, and nothing has been added.
Source: `FileTreeDirItem::subdirs`. Kind: L -/
theorem find_grown : ∃ m' : Subdirs, m.into name g = m'.modify name g ∧ m'.total f = m.total f ∧
    m'.find name = some ((m.find name).getD .new) ∧ ∀ j, j ≠ name → m'.find j = m.find j := by
  unfold into
  cases h : m.find name with
  | none =>
    refine ⟨m.insert name .new, rfl, total_insert f name .new m, ?_, fun j hj => ?_⟩
    · rw [find_insert name .new name m h, if_pos rfl]
      rfl
    · rw [find_insert name .new j m h, if_neg hj]
  | some sd => exact ⟨m, rfl, rfl, h, fun _ _ => rfl⟩

/-- What is found after going into a directory. Source: `interfaces/filetreediritem.cpp`,
`util/ptrmap.h`. Kind: L -/
theorem find_into (j : TQString) :
    (m.into name g).find j =
      if j = name then some (g ((m.find name).getD .new)) else m.find j := by
  obtain ⟨m', hinto, -, hself, hother⟩ := find_grown (fun _ => 0) name g m
  rw [hinto, find_modify]
  split_ifs with hj
  · rw [hj, hself]
    rfl
  · exact hother j hj

/-- The total after it. Source: `interfaces/filetreediritem.cpp`, `util/ptrmap.h`. Kind: L -/
theorem total_into :
    (m.into name g).total f + ((m.find name).getD .new).total f =
      m.total f + (g ((m.find name).getD .new)).total f := by
  obtain ⟨m', hinto, htotal, hself, -⟩ := find_grown f name g m
  rw [hinto, total_modify f name _ g m' hself, htotal]

end Subdirs

/-! ### A file is inserted -/

namespace FileTreeDirItem

/-- A file goes into the directory its path names. Source: none: infrastructure. Kind: L -/
theorem insert_cons (file file_size : ℕ) (name next : TQString) (path : List TQString) (n : ℕ)
    (children : SortedMap TQString ℕ) (subdirs : Subdirs) :
    insert file file_size (name :: next :: path) (.node n children subdirs) =
      .node (u64 (n + file_size)) children
        (subdirs.into name (insert file file_size (next :: path))) := rfl

/-- What a walk below the directory at a path adds up. Kind: D -/
def totalAt (f : ℕ → ℕ) (q : List TQString) (d : FileTreeDirItem) : ℕ :=
  (d.dirAt q).elim 0 fun sd => sd.total f

/-- Nothing below a new directory. Source: `interfaces/filetreediritem.cpp`, `util/ptrmap.h`.
Kind: L -/
theorem totalAt_new (f : ℕ → ℕ) (q : List TQString) : totalAt f q new = 0 := by
  cases q with
  | nil => rfl
  | cons name q => rfl

/-- The total below a longer path. Source: none: infrastructure. Kind: L -/
theorem totalAt_cons (f : ℕ → ℕ) (name : TQString) (q : List TQString) (n : ℕ)
    (children : SortedMap TQString ℕ) (subdirs : Subdirs) :
    totalAt f (name :: q) (.node n children subdirs) =
      totalAt f q ((subdirs.find name).getD new) := by
  unfold totalAt
  rw [dirAt]
  cases subdirs.find name with
  | none => exact (totalAt_new f q).symm
  | some sd => rfl

/-- No file in a new directory. Source: `interfaces/filetreediritem.cpp`, `util/ptrmap.h`.
Kind: L -/
theorem fileAt_new (path : List TQString) : fileAt path new = none := by
  match path with
  | [] => rfl
  | [name] => rfl
  | name :: next :: path => rfl

/-- The file at a longer path. Source: none: infrastructure. Kind: L -/
theorem fileAt_cons (name next : TQString) (path : List TQString) (n : ℕ)
    (children : SortedMap TQString ℕ) (subdirs : Subdirs) :
    fileAt (name :: next :: path) (.node n children subdirs) =
      fileAt (next :: path) ((subdirs.find name).getD new) := by
  rw [fileAt]
  · cases subdirs.find name with
    | none => exact (fileAt_new _).symm
    | some sd => rfl
  · simp

/-- The file is at its path, and everything else where it was.
Source: `interfaces/filetreediritem.cpp`, `util/ptrmap.h`. Kind: L -/
theorem fileAt_insert (file file_size : ℕ) {path : List TQString} (hpath : path ≠ [])
    (q : List TQString) (d : FileTreeDirItem) :
    fileAt q (d.insert file file_size path) = if q = path then some file else fileAt q d := by
  induction path generalizing q d with
  | nil => exact absurd rfl hpath
  | cons name path ih =>
    obtain ⟨n, children, subdirs⟩ := d
    cases path with
    | nil =>
      match q with
      | [] => rfl
      | [j] =>
        by_cases hj : j = name
        · exact (children.find?_put name file j).trans (by rw [if_pos hj, if_pos (by rw [hj])])
        · refine (children.find?_put name file j).trans ?_
          rw [if_neg hj, if_neg (by simpa using hj)]
          rfl
      | j :: k :: q =>
        rw [if_neg (by simp)]
        rfl
    | cons next path =>
      rw [insert_cons]
      match q with
      | [] => rfl
      | [j] =>
        rw [if_neg (by simp)]
        rfl
      | j :: k :: q =>
        rw [fileAt_cons, fileAt_cons, Subdirs.find_into]
        by_cases hj : j = name
        · rw [if_pos hj, Option.getD_some, ih (List.cons_ne_nil _ _), hj]
          exact if_congr (by simp) rfl rfl
        · rw [if_neg hj, if_neg fun h => hj (List.cons.inj h).1]

/-- **A walk after a file has been inserted**: below each directory on its path it counts, and the
file whose place it has taken does not. Source: `interfaces/filetreediritem.cpp`, `util/ptrmap.h`.
Kind: L -/
theorem totalAt_insert (f : ℕ → ℕ) (file file_size : ℕ) {path : List TQString} (hpath : path ≠ [])
    (q : List TQString) (d : FileTreeDirItem) :
    totalAt f q (d.insert file file_size path) +
        (if q <+: path.dropLast then (d.fileAt path).elim 0 f else 0) =
      totalAt f q d + (if q <+: path.dropLast then f file else 0) := by
  induction path generalizing q d with
  | nil => exact absurd rfl hpath
  | cons name path ih =>
    obtain ⟨n, children, subdirs⟩ := d
    cases path with
    | nil =>
      cases q with
      | nil =>
        have hsum := SortedMap.sum_put f name file children
        show ((children.put name file).entries.map fun x => f x.2).sum + subdirs.total f + _ =
          (children.entries.map fun x => f x.2).sum + subdirs.total f + _
        rw [if_pos List.nil_prefix, if_pos List.nil_prefix]
        show _ + (children.find? name).elim 0 f = _
        omega
      | cons j q =>
        rw [if_neg (by simp), if_neg (by simp)]
        rfl
    | cons next path =>
      have hdrop : (name :: next :: path).dropLast = name :: (next :: path).dropLast := rfl
      rw [insert_cons, fileAt_cons, hdrop]
      cases q with
      | nil =>
        have hsub := ih (List.cons_ne_nil _ _) [] ((subdirs.find name).getD new)
        have hinto := subdirs.total_into f name (insert file file_size (next :: path))
        rw [if_pos List.nil_prefix, if_pos List.nil_prefix] at hsub ⊢
        have htotal : ∀ d : FileTreeDirItem, totalAt f [] d = d.total f := fun _ => rfl
        rw [htotal, htotal] at hsub ⊢
        simp only [total]
        omega
      | cons j q =>
        rw [totalAt_cons, totalAt_cons, Subdirs.find_into]
        by_cases hj : j = name
        · subst hj
          rw [if_pos rfl, Option.getD_some]
          simp only [List.cons_prefix_cons, true_and]
          exact ih (List.cons_ne_nil _ _) q _
        · have hno : ¬ (j :: q <+: name :: (next :: path).dropLast) :=
            fun h => hj (List.cons_prefix_cons.mp h).1
          rw [if_neg hj, if_neg hno, if_neg hno]

/-- The size of a directory grows by what is inserted below it.
Source: `interfaces/filetreediritem.cpp`, `util/ptrmap.h`. Kind: L -/
theorem size_insert (file file_size : ℕ) {path : List TQString} (hpath : path ≠ [])
    (q : List TQString) (d : FileTreeDirItem) :
    ((d.insert file file_size path).dirAt q).map size =
      if q <+: path.dropLast then
        some (u64 (((d.dirAt q).map size).getD 0 + file_size))
      else (d.dirAt q).map size := by
  have hnew : ∀ q : List TQString, ((new.dirAt q).map size).getD 0 = 0 := by
    intro q
    cases q <;> rfl
  induction path generalizing q d with
  | nil => exact absurd rfl hpath
  | cons name path ih =>
    obtain ⟨n, children, subdirs⟩ := d
    cases path with
    | nil =>
      cases q with
      | nil => rfl
      | cons j q =>
        rw [if_neg (by simp)]
        rfl
    | cons next path =>
      have hdrop : (name :: next :: path).dropLast = name :: (next :: path).dropLast := rfl
      rw [insert_cons, hdrop]
      cases q with
      | nil => rfl
      | cons j q =>
        rw [dirAt, dirAt, Subdirs.find_into]
        by_cases hj : j = name
        · subst hj
          rw [if_pos rfl, Option.bind_some, ih (List.cons_ne_nil _ _)]
          simp only [List.cons_prefix_cons, true_and]
          cases subdirs.find j with
          | some sd => rfl
          | none =>
            show (if _ then some (u64 (((new.dirAt q).map size).getD 0 + file_size)) else
              (new.dirAt q).map size) = if _ then some (u64 (0 + file_size)) else none
            split_ifs with hq
            · rw [hnew]
            · cases q with
              | nil => exact absurd List.nil_prefix hq
              | cons k q => rfl
        · have hno : ¬ (j :: q <+: name :: (next :: path).dropLast) :=
            fun h => hj (List.cons_prefix_cons.mp h).1
          rw [if_neg hj, if_neg hno]

end FileTreeDirItem

/-! ### The tree of a list of files -/

section setup

variable {files : List FileSpec} {x : FileSpec}

/-- The last file is inserted last. Source: none: infrastructure. Kind: L -/
theorem setup_append : setupMultifileTorrent (files ++ [x]) =
    (setupMultifileTorrent files).insert files.length x.size (components '/' x.path) := by
  unfold setupMultifileTorrent
  rw [List.zipIdx_append, List.foldl_append]
  simp

/-- The paths with one more file. Source: none: infrastructure. Kind: L -/
theorem pathOf_append (i : ℕ) : pathOf (files ++ [x]) i =
    if i = files.length then components '/' x.path else pathOf files i := by
  unfold pathOf
  split_ifs with hi
  · rw [hi, List.getElem?_concat_length]
    rfl
  · rcases Nat.lt_or_gt_of_ne hi with h | h
    · rw [List.getElem?_append_left h]
    · rw [List.getElem?_eq_none (by simp; omega), List.getElem?_eq_none h.le]

/-- The last file is listed, and takes the place of those with its path. Source: none:
infrastructure. Kind: L -/
theorem listed_append {i : ℕ} : Listed (files ++ [x]) i ↔
    i = files.length ∨ Listed files i ∧ pathOf files i ≠ components '/' x.path := by
  unfold Listed
  have hlen : (files ++ [x]).length = files.length + 1 := by simp
  rw [hlen]
  constructor
  · rintro ⟨hi, hlast⟩
    by_cases heq : i = files.length
    · exact .inl heq
    · have hlt : i < files.length := by omega
      refine .inr ⟨⟨hlt, fun j hj hij => ?_⟩, ?_⟩
      · have h := hlast j (by omega) hij
        rwa [pathOf_append, pathOf_append, if_neg (by omega), if_neg heq] at h
      · have h := hlast files.length (by omega) hlt
        rw [pathOf_append, pathOf_append, if_pos rfl, if_neg heq] at h
        exact h.symm
  · rintro (rfl | ⟨⟨hi, hlast⟩, hne⟩)
    · exact ⟨by omega, fun j hj hij => by omega⟩
    · refine ⟨by omega, fun j hj hij => ?_⟩
      rw [pathOf_append, pathOf_append, if_neg hi.ne]
      split_ifs with hjn
      · exact hne.symm
      · exact hlast j (by omega) hij

/-- **What the tree has at a path**: the last file of that path.
Source: `FileSelectDlg::setupMultifileTorrent`, `FileView::fillTreePartial`. Kind: P -/
theorem fileAt_setup (q : List TQString) (i : ℕ) :
    (setupMultifileTorrent files).fileAt q = some i ↔ Listed files i ∧ pathOf files i = q := by
  induction files using List.reverseRecOn with
  | nil =>
    have hnew : setupMultifileTorrent [] = .new := rfl
    rw [hnew, FileTreeDirItem.fileAt_new]
    constructor
    · intro h
      cases h
    · rintro ⟨⟨hi, -⟩, -⟩
      cases hi
  | append_singleton files x ih =>
    rw [setup_append, FileTreeDirItem.fileAt_insert _ _ (components_ne_nil _), listed_append,
      pathOf_append]
    by_cases hq : q = components '/' x.path
    · rw [if_pos hq, Option.some.injEq]
      constructor
      · rintro rfl
        exact ⟨.inl rfl, by rw [if_pos rfl, hq]⟩
      · rintro ⟨rfl | ⟨hlisted, hne⟩, hpath⟩
        · rfl
        · rw [if_neg hlisted.1.ne, hq] at hpath
          exact absurd hpath hne
    · rw [if_neg hq, ih]
      constructor
      · rintro ⟨hlisted, rfl⟩
        exact ⟨.inr ⟨hlisted, hq⟩, if_neg hlisted.1.ne⟩
      · rintro ⟨rfl | ⟨hlisted, -⟩, hpath⟩
        · rw [if_pos rfl] at hpath
          exact absurd hpath.symm hq
        · rw [if_neg hlisted.1.ne] at hpath
          exact ⟨hlisted, hpath⟩

/-- **What a walk below a directory adds up**: the files listed below it.
Source: `FileSelectDlg::setupMultifileTorrent`, `FileView::fillTreePartial`. Kind: P -/
theorem totalAt_setup (f : ℕ → ℕ) (q : List TQString) :
    (setupMultifileTorrent files).totalAt f q = ∑ i ∈ Finset.range files.length,
      if Listed files i ∧ q <+: (pathOf files i).dropLast then f i else 0 := by
  induction files using List.reverseRecOn with
  | nil => exact FileTreeDirItem.totalAt_new f q
  | append_singleton files x ih =>
    have hpath : components '/' x.path ≠ [] := components_ne_nil x.path
    have hinsert := FileTreeDirItem.totalAt_insert f files.length x.size hpath q
      (setupMultifileTorrent files)
    rw [← setup_append, ih] at hinsert
    -- the files that stay listed, and the one whose place is taken
    have hsplit : ∀ i ∈ Finset.range files.length,
        (if Listed files i ∧ q <+: (pathOf files i).dropLast then f i else 0) =
          (if Listed (files ++ [x]) i ∧ q <+: (pathOf (files ++ [x]) i).dropLast then f i else 0) +
            if i ∈ (setupMultifileTorrent files).fileAt (components '/' x.path) then
              if q <+: (components '/' x.path).dropLast then f i else 0
            else 0 := by
      intro i hi
      have hne : i ≠ files.length := (Finset.mem_range.mp hi).ne
      simp only [listed_append, pathOf_append, if_neg hne, Option.mem_def, fileAt_setup]
      by_cases hlisted : Listed files i
      · by_cases hpath : pathOf files i = components '/' x.path
        · simp [hne, hlisted, hpath]
        · simp [hne, hlisted, hpath]
      · simp [hne, hlisted]
    have htaken : ∑ i ∈ Finset.range files.length,
        (if i ∈ (setupMultifileTorrent files).fileAt (components '/' x.path) then
          if q <+: (components '/' x.path).dropLast then f i else 0 else 0) =
        if q <+: (components '/' x.path).dropLast then
          ((setupMultifileTorrent files).fileAt (components '/' x.path)).elim 0 f else 0 := by
      cases hold : (setupMultifileTorrent files).fileAt (components '/' x.path) with
      | none => simp
      | some j =>
        have hj := ((fileAt_setup _ j).mp hold).1.1
        simp [Finset.sum_ite_eq, hj]
    have hlast : (if Listed (files ++ [x]) files.length ∧
        q <+: (pathOf (files ++ [x]) files.length).dropLast then f files.length else 0) =
        if q <+: (components '/' x.path).dropLast then f files.length else 0 := by
      rw [pathOf_append, if_pos rfl]
      simp [listed_append]
    rw [Finset.sum_congr rfl hsplit, Finset.sum_add_distrib, htaken] at hinsert
    rw [List.length_append, List.length_singleton, Finset.sum_range_succ, hlast]
    omega

/-- The bytes of a file. Kind: D -/
def sizeOf (files : List FileSpec) (i : ℕ) : ℕ := (files[i]?).elim 0 FileSpec.size

/-- **Which directories there are, and their sizes**: the files inserted below, also those whose
place has been taken. Source: `FileSelectDlg::setupMultifileTorrent`, `FileView::fillTreePartial`.
Kind: P -/
theorem size_setup (q : List TQString) :
    ((setupMultifileTorrent files).dirAt q).map FileTreeDirItem.size =
      if q = [] ∨ ∃ i < files.length, q <+: (pathOf files i).dropLast then
        some (u64 (∑ i ∈ Finset.range files.length,
          if q <+: (pathOf files i).dropLast then sizeOf files i else 0))
      else none := by
  induction files using List.reverseRecOn with
  | nil => cases q <;> simp [setupMultifileTorrent, FileTreeDirItem.new, FileTreeDirItem.dirAt,
      FileTreeDirItem.size, Subdirs.find, u64]
  | append_singleton files x ih =>
    have hpath : ∀ i < files.length, pathOf (files ++ [x]) i = pathOf files i :=
      fun i hi => by rw [pathOf_append, if_neg hi.ne]
    have hsize : ∀ i < files.length, sizeOf (files ++ [x]) i = sizeOf files i :=
      fun i hi => by rw [sizeOf, List.getElem?_append_left hi, sizeOf]
    have hlast : pathOf (files ++ [x]) files.length = components '/' x.path := by
      rw [pathOf_append, if_pos rfl]
    have hbytes : sizeOf (files ++ [x]) files.length = x.size := by
      rw [sizeOf, List.getElem?_concat_length]
      rfl
    have hcond : (q = [] ∨ ∃ i < (files ++ [x]).length,
        q <+: (pathOf (files ++ [x]) i).dropLast) ↔
        (q = [] ∨ ∃ i < files.length, q <+: (pathOf files i).dropLast) ∨
          q <+: (components '/' x.path).dropLast := by
      rw [or_assoc]
      refine or_congr_right ?_
      rw [List.length_append, List.length_singleton]
      simp only [Nat.exists_lt_succ_right, hlast]
      exact or_congr_left (exists_congr fun i => and_congr_right fun hi => by rw [hpath i hi])
    have hsum : (∑ i ∈ Finset.range (files ++ [x]).length,
        if q <+: (pathOf (files ++ [x]) i).dropLast then sizeOf (files ++ [x]) i else 0) =
        (∑ i ∈ Finset.range files.length,
          if q <+: (pathOf files i).dropLast then sizeOf files i else 0) +
          if q <+: (components '/' x.path).dropLast then x.size else 0 := by
      rw [List.length_append, List.length_singleton, Finset.sum_range_succ, hlast, hbytes]
      congr 1
      apply Finset.sum_congr rfl
      intro i hi
      rw [hpath i (Finset.mem_range.mp hi), hsize i (Finset.mem_range.mp hi)]
    rw [setup_append, FileTreeDirItem.size_insert _ _ (components_ne_nil _), ih, hsum]
    by_cases hq : q <+: (components '/' x.path).dropLast
    · rw [if_pos hq, if_pos hq, if_pos (hcond.mpr (.inr hq))]
      congr 1
      split_ifs with hold
      · simp [u64]
      · have hzero : ∑ i ∈ Finset.range files.length,
            (if q <+: (pathOf files i).dropLast then sizeOf files i else 0) = 0 := by
          apply Finset.sum_eq_zero
          intro i hi
          exact if_neg fun h => hold (.inr ⟨i, Finset.mem_range.mp hi, h⟩)
        rw [hzero]
        rfl
    · rw [if_neg hq, if_neg hq, Nat.add_zero]
      refine if_congr ?_ rfl rfl
      rw [hcond]
      exact (or_iff_left hq).symm

/-- **The tree of a list of files**: the item at a path is that of the last file of the path, and a
directory counts the bytes of all files inserted below it.
Source: `FileSelectDlg::setupMultifileTorrent`, `FileView::fillTreePartial`. Kind: P -/
theorem setup_spec (files : List FileSpec) :
    (∀ q i, (setupMultifileTorrent files).fileAt q = some i ↔ Listed files i ∧ pathOf files i = q) ∧
    ∀ q, ((setupMultifileTorrent files).dirAt q).map FileTreeDirItem.size =
      if q = [] ∨ ∃ i < files.length, q <+: (pathOf files i).dropLast then
        some (u64 (∑ i ∈ Finset.range files.length,
          if q <+: (pathOf files i).dropLast then sizeOf files i else 0))
      else none :=
  ⟨fileAt_setup, size_setup⟩

end setup

end KTorrent.Interfaces
