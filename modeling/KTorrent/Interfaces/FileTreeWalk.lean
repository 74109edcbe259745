import KTorrent.Interfaces.FileTree

/-!
# Walks over the tree of files

What is done to all items below a directory is done by one recursion: first the items of the
directory, then its subdirectories. A walk is the list of what it meets.

* `visit_eq_foldl` — the recursion goes over the walk.
* `mem_walkAt` — below a directory each file listed there is met, in the directory it is in;
  `count_walkAt` — and only once.
* `settles_walkAt` — a directory is met before the items below it, and only then.

Source: `interfaces/filetreediritem.cpp`
-/

namespace KTorrent.Interfaces

open KTorrent.Lib KTorrent.Util KTorrent.Storage

/-- A directory, or the item of a file in a directory. A directory is given by the names up to it,
the last one first. Kind: D -/
inductive Visit
  | dir (r : List TQString)
  | item (i : ℕ) (r : List TQString)
deriving DecidableEq, Repr

namespace Visit

/-- The directory of the visit. Kind: D -/
def path : Visit → List TQString
  | dir r => r
  | item _ r => r

/-- What is done at a visit. Kind: D -/
def act {σ : Type} (atDir : List TQString → σ → σ) (atItem : ℕ → List TQString → σ → σ) (s : σ) :
    Visit → σ
  | dir r => atDir r s
  | item i r => atItem i r s

/-- What the file of a visited item counts. Kind: D -/
def weight (f : ℕ → ℕ) : Visit → ℕ
  | dir _ => 0
  | item i _ => f i

end Visit

mutual

/-- The items of a directory, then its subdirectories. Source: `FileTreeDirItem::setAllChecked`,
`FileTreeDirItem::invertChecked`, `IWFileTreeDirItem::updateDNDInformation`. Kind: D -/
def FileTreeDirItem.visit {σ : Type} (atDir : List TQString → σ → σ)
    (atItem : ℕ → List TQString → σ → σ) (r : List TQString) : FileTreeDirItem → σ → σ
  | .node _ children subdirs, s =>
      subdirs.visit atDir atItem r
        (children.entries.foldl (fun s x => atItem x.2 r s) (atDir r s))

/-- One subdirectory after the other. Kind: D -/
def Subdirs.visit {σ : Type} (atDir : List TQString → σ → σ)
    (atItem : ℕ → List TQString → σ → σ) (r : List TQString) : Subdirs → σ → σ
  | .nil, s => s
  | .cons name sd rest, s => rest.visit atDir atItem r (sd.visit atDir atItem (name :: r) s)

end

mutual

/-- What the recursion meets. Kind: D -/
def FileTreeDirItem.walk (r : List TQString) : FileTreeDirItem → List Visit
  | .node _ children subdirs =>
      .dir r :: (children.entries.map (fun x => Visit.item x.2 r) ++ subdirs.walk r)

/-- What the recursion meets below the subdirectories. Kind: D -/
def Subdirs.walk (r : List TQString) : Subdirs → List Visit
  | .nil => []
  | .cons name sd rest => sd.walk (name :: r) ++ rest.walk r

end

section visit

variable {σ : Type} (atDir : List TQString → σ → σ) (atItem : ℕ → List TQString → σ → σ)

mutual

/-- A visit acts on what the walk lists, in its order. Source: `FileTreeDirItem::setAllChecked`,
`FileTreeDirItem::invertChecked`. Kind: L -/
theorem FileTreeDirItem.visit_eq_foldl (r : List TQString) : (d : FileTreeDirItem) → (s : σ) →
    d.visit atDir atItem r s = (d.walk r).foldl (Visit.act atDir atItem) s
  | .node _ children subdirs, s => by
      rw [FileTreeDirItem.visit, Subdirs.visit_eq_foldl r subdirs, FileTreeDirItem.walk,
        List.foldl_cons, List.foldl_append, List.foldl_map]
      rfl

/-- A visit of a list of directories acts on what its walk lists, in its order.
Source: `FileTreeDirItem::setAllChecked`, `FileTreeDirItem::invertChecked`. Kind: L -/
theorem Subdirs.visit_eq_foldl (r : List TQString) : (m : Subdirs) → (s : σ) →
    m.visit atDir atItem r s = (m.walk r).foldl (Visit.act atDir atItem) s
  | .nil, s => rfl
  | .cons name sd rest, s => by
      rw [Subdirs.visit, Subdirs.walk, List.foldl_append,
        FileTreeDirItem.visit_eq_foldl (name :: r) sd, Subdirs.visit_eq_foldl r rest]

end

end visit

mutual

/-- A total is the sum over the items of the walk. Source: `interfaces/filetreediritem.cpp`.
Kind: L -/
theorem FileTreeDirItem.total_eq_walk (f : ℕ → ℕ) (r : List TQString) : (d : FileTreeDirItem) →
    d.total f = ((d.walk r).map (Visit.weight f)).sum
  | .node _ children subdirs => by
      rw [FileTreeDirItem.total, Subdirs.total_eq_walk f r subdirs, FileTreeDirItem.walk,
        List.map_cons, List.map_append, List.map_map, List.sum_cons, List.sum_append]
      exact (Nat.zero_add _).symm

/-- The total of a list of directories is the sum over the items of its walk.
Source: `interfaces/filetreediritem.cpp`. Kind: L -/
theorem Subdirs.total_eq_walk (f : ℕ → ℕ) (r : List TQString) : (m : Subdirs) →
    m.total f = ((m.walk r).map (Visit.weight f)).sum
  | .nil => rfl
  | .cons name sd rest => by
      rw [Subdirs.total, Subdirs.walk, List.map_append, List.sum_append,
        FileTreeDirItem.total_eq_walk f (name :: r) sd, Subdirs.total_eq_walk f r rest]

end

/-! ### Different subdirectories have different names -/

mutual

/-- Below the directory no two subdirectories of one directory have the same name. Kind: D -/
def FileTreeDirItem.Distinct : FileTreeDirItem → Prop
  | .node _ _ subdirs => subdirs.Distinct

/-- No two of the directories have the same name, and it is so below each. Kind: D -/
def Subdirs.Distinct : Subdirs → Prop
  | .nil => True
  | .cons name sd rest => name ∉ rest.names ∧ sd.Distinct ∧ rest.Distinct

end

namespace Subdirs

variable {name : TQString} {sd : FileTreeDirItem} {g : FileTreeDirItem → FileTreeDirItem}

/-- A directory that is found has a name of the list. Source: `interfaces/filetreediritem.cpp`.
Kind: L -/
theorem mem_names_of_find : (m : Subdirs) → m.find name = some sd → name ∈ m.names
  | nil, h => by cases h
  | cons n sd' rest, h => by
      by_cases hn : name = n
      · rw [hn]
        exact List.mem_cons_self
      · rw [find, if_neg hn] at h
        exact List.mem_cons_of_mem n (mem_names_of_find rest h)

/-- A name of the list is found. Source: `interfaces/filetreediritem.cpp`. Kind: L -/
theorem find_of_mem_names : (m : Subdirs) → name ∈ m.names → m.find name ≠ none
  | cons n sd' rest, h => by
      rw [find]
      split_ifs with hn
      · exact Option.some_ne_none sd'
      · exact find_of_mem_names rest ((List.mem_cons.mp h).resolve_left hn)

/-- The names with a new one. Source: `interfaces/filetreediritem.cpp`. Kind: L -/
theorem mem_names_insert {j : TQString} : (m : Subdirs) →
    (j ∈ (m.insert name sd).names ↔ j = name ∨ j ∈ m.names)
  | nil => by simp [insert, names]
  | cons n sd' rest => by
      have ih := mem_names_insert (j := j) rest
      unfold insert
      split_ifs
      · simp [names]
      · simp only [names, List.mem_cons, ih]
        exact or_left_comm

/-- A change of a directory leaves the names. Source: `interfaces/filetreediritem.cpp`. Kind: L -/
theorem names_modify : (m : Subdirs) → (m.modify name g).names = m.names
  | nil => rfl
  | cons n sd' rest => by
      have ih := names_modify rest
      unfold modify
      split_ifs
      · rfl
      · rw [names, ih, names]

/-- A directory with a new name keeps names distinct. Source: `interfaces/filetreediritem.cpp`.
Kind: L -/
theorem distinct_insert (hsd : sd.Distinct) : (m : Subdirs) → m.Distinct → name ∉ m.names →
    (m.insert name sd).Distinct
  | nil, _, _ => ⟨List.not_mem_nil, hsd, trivial⟩
  | cons n sd' rest, ⟨hn, hsd', hrest⟩, hname => by
      have hne : name ≠ n := fun h => hname (h ▸ List.mem_cons_self)
      have hnot : name ∉ rest.names := fun h => hname (List.mem_cons_of_mem n h)
      have ih := distinct_insert hsd rest hrest hnot
      unfold insert
      split_ifs
      · exact ⟨hname, hsd, hn, hsd', hrest⟩
      · refine ⟨fun h => ?_, hsd', ih⟩
        rcases (mem_names_insert rest).mp h with h | h
        · exact hne h.symm
        · exact hn h

/-- A change of a directory that keeps its own names distinct keeps those of the list.
Source: `interfaces/filetreediritem.cpp`. Kind: L -/
theorem distinct_modify (hg : ∀ d : FileTreeDirItem, d.Distinct → (g d).Distinct) :
    (m : Subdirs) → m.Distinct → (m.modify name g).Distinct
  | nil, _ => trivial
  | cons n sd' rest, ⟨hn, hsd', hrest⟩ => by
      have ih := distinct_modify hg rest hrest
      unfold modify
      split_ifs
      · exact ⟨hn, hg sd' hsd', hrest⟩
      · refine ⟨?_, hsd', ih⟩
        rwa [names_modify]

/-- Going into a directory, made if it was not there, keeps names distinct.
Source: `interfaces/filetreediritem.cpp`. Kind: L -/
theorem distinct_into (hg : ∀ d : FileTreeDirItem, d.Distinct → (g d).Distinct) {m : Subdirs}
    (hm : m.Distinct) : (m.into name g).Distinct := by
  apply distinct_modify hg
  split_ifs with h
  · refine distinct_insert (show FileTreeDirItem.new.Distinct from trivial) m hm fun hmem => ?_
    exact find_of_mem_names m hmem (Option.isNone_iff_eq_none.mp h)
  · exact hm

end Subdirs

/-- Inserting a file keeps names distinct. Source: `interfaces/filetreediritem.cpp`. Kind: L -/
theorem FileTreeDirItem.distinct_insert (file file_size : ℕ) (path : List TQString)
    {d : FileTreeDirItem} (hd : d.Distinct) : (d.insert file file_size path).Distinct := by
  induction path generalizing d with
  | nil => exact hd
  | cons name path ih =>
    obtain ⟨n, children, subdirs⟩ := d
    cases path with
    | nil => exact hd
    | cons next path =>
      rw [insert_cons]
      exact Subdirs.distinct_into (fun d hd => ih hd) hd

/-- The tree of any list of files has distinct names. Source: `interfaces/filetreediritem.cpp`.
Kind: L -/
theorem distinct_setup (files : List FileSpec) : (setupMultifileTorrent files).Distinct := by
  induction files using List.reverseRecOn with
  | nil => exact trivial
  | append_singleton files x ih =>
    rw [setup_append]
    exact FileTreeDirItem.distinct_insert _ _ _ ih

/-! ### Where a visit is -/

mutual

/-- What the walk lists lies below the start. Source: `interfaces/filetreediritem.cpp`. Kind: L -/
theorem FileTreeDirItem.suffix_of_mem_walk (r : List TQString) : (d : FileTreeDirItem) →
    (v : Visit) → v ∈ d.walk r → r <:+ v.path
  | .node _ children subdirs, v, h => by
      rcases List.mem_cons.mp h with rfl | h
      · exact List.suffix_rfl
      · rcases List.mem_append.mp h with h | h
        · obtain ⟨x, -, rfl⟩ := List.mem_map.mp h
          exact List.suffix_rfl
        · obtain ⟨name, -, hname⟩ := Subdirs.suffix_of_mem_walk r subdirs v h
          exact (List.suffix_cons name r).trans hname

/-- What the walk of a list lists lies below one of its directories.
Source: `interfaces/filetreediritem.cpp`. Kind: L -/
theorem Subdirs.suffix_of_mem_walk (r : List TQString) : (m : Subdirs) → (v : Visit) →
    v ∈ m.walk r → ∃ name ∈ m.names, name :: r <:+ v.path
  | .cons name sd rest, v, h => by
      rcases List.mem_append.mp h with h | h
      · exact ⟨name, List.mem_cons_self, FileTreeDirItem.suffix_of_mem_walk (name :: r) sd v h⟩
      · obtain ⟨n, hn, hv⟩ := Subdirs.suffix_of_mem_walk r rest v h
        exact ⟨n, List.mem_cons_of_mem name hn, hv⟩

end

/-- Below two subdirectories of one directory there is nothing in common.
Source: `interfaces/filetreediritem.cpp`. Kind: L -/
theorem eq_of_suffix {a b : TQString} {r q : List TQString} (ha : a :: r <:+ q)
    (hb : b :: r <:+ q) : a = b := by
  have h := List.suffix_of_suffix_length_le ha hb (by simp)
  exact (List.cons.inj (h.eq_of_length (by simp))).1

namespace Subdirs

/-- The walk of a directory is part of the walk above it. Source: `interfaces/filetreediritem.cpp`.
Kind: L -/
theorem walk_find (r : List TQString) {name : TQString} {sd : FileTreeDirItem} : (m : Subdirs) →
    m.find name = some sd → sd.walk (name :: r) ⊆ m.walk r
  | cons n sd' rest, h => by
      by_cases hn : name = n
      · rw [find, if_pos hn] at h
        obtain rfl := Option.some.inj h
        subst hn
        exact List.subset_append_left _ _
      · rw [find, if_neg hn] at h
        exact List.Subset.trans (walk_find r rest h) (List.subset_append_right _ _)

/-- A visit below the directories is one below a directory that is found by its name.
Source: `interfaces/filetreediritem.cpp`. Kind: L -/
theorem find_of_mem_walk (r : List TQString) {v : Visit} : (m : Subdirs) → m.Distinct →
    v ∈ m.walk r → ∃ name sd, m.find name = some sd ∧ v ∈ sd.walk (name :: r)
  | cons n sd rest, ⟨hn, _, hrest⟩, h => by
      rcases List.mem_append.mp h with h | h
      · exact ⟨n, sd, if_pos rfl, h⟩
      · obtain ⟨name, sd', hfind, hv⟩ := find_of_mem_walk r rest hrest h
        have hne : name ≠ n := fun heq => hn (heq ▸ mem_names_of_find rest hfind)
        exact ⟨name, sd', by rw [find, if_neg hne, hfind], hv⟩

/-- A directory that is found has distinct names. Source: `interfaces/filetreediritem.cpp`.
Kind: L -/
theorem distinct_of_find {name : TQString} {sd : FileTreeDirItem} : (m : Subdirs) → m.Distinct →
    m.find name = some sd → sd.Distinct
  | cons n sd' rest, ⟨_, hsd, hrest⟩, h => by
      rw [find] at h
      split_ifs at h with hn
      · exact Option.some.inj h ▸ hsd
      · exact distinct_of_find rest hrest h

end Subdirs

namespace FileTreeDirItem

/-- The directory at a path has distinct names. Source: `interfaces/filetreediritem.cpp`. Kind: L -/
theorem distinct_dirAt {q : List TQString} {d sd : FileTreeDirItem} (hd : d.Distinct)
    (h : d.dirAt q = some sd) : sd.Distinct := by
  induction q generalizing d with
  | nil => exact Option.some.inj h ▸ hd
  | cons name q ih =>
    obtain ⟨n, children, subdirs⟩ := d
    obtain ⟨d', hfind, hd'⟩ := Option.bind_eq_some_iff.mp h
    exact ih (subdirs.distinct_of_find hd hfind) hd'

/-- A directory that is met below another is walked with it.
Source: `interfaces/filetreediritem.cpp`. Kind: L -/
theorem walk_dirAt {q : List TQString} {d sd : FileTreeDirItem} (r : List TQString)
    (h : d.dirAt q = some sd) : sd.walk (q.reverse ++ r) ⊆ d.walk r := by
  induction q generalizing d r with
  | nil =>
    obtain rfl := Option.some.inj h
    exact List.Subset.refl _
  | cons name q ih =>
    obtain ⟨n, children, subdirs⟩ := d
    obtain ⟨d', hfind, hd'⟩ := Option.bind_eq_some_iff.mp h
    have hwalk := ih (name :: r) hd'
    rw [List.reverse_cons, List.append_assoc]
    refine List.Subset.trans hwalk (List.Subset.trans (subdirs.walk_find r hfind) ?_)
    exact List.Subset.trans (List.subset_append_right _ _) (List.subset_cons_self _ _)

/-- The item of a visit is found at its path. Source: `interfaces/filetreediritem.cpp`. Kind: L -/
theorem fileAt_of_mem_walk {i : ℕ} {q r : List TQString} {d : FileTreeDirItem} (hd : d.Distinct)
    (h : Visit.item i (q ++ r) ∈ d.walk r) : ∃ name, d.fileAt (q.reverse ++ [name]) = some i := by
  induction q using List.reverseRecOn generalizing r d with
  | nil =>
    obtain ⟨n, children, subdirs⟩ := d
    rcases List.mem_append.mp (List.mem_of_ne_of_mem (by simp) h) with h | h
    · obtain ⟨x, hx, hvisit⟩ := List.mem_map.mp h
      refine ⟨x.1, SortedMap.find?_eq_some_iff.mpr ?_⟩
      rwa [← (Visit.item.inj hvisit).1]
    · obtain ⟨name, -, hname⟩ := Subdirs.suffix_of_mem_walk r subdirs _ h
      have hlen : (name :: r).length ≤ r.length := hname.length_le
      simp at hlen
  | append_singleton q name ih =>
    obtain ⟨n, children, subdirs⟩ := d
    rw [List.append_assoc] at h
    rcases List.mem_append.mp (List.mem_of_ne_of_mem (by simp) h) with h | h
    · obtain ⟨x, -, hvisit⟩ := List.mem_map.mp h
      have hlen := congrArg List.length (Visit.item.inj hvisit).2
      simp at hlen
      omega
    · obtain ⟨name', sd, hfind, hsd⟩ := subdirs.find_of_mem_walk r hd h
      obtain rfl : name' = name :=
        eq_of_suffix (suffix_of_mem_walk (name' :: r) sd _ hsd) (List.suffix_append q (name :: r))
      obtain ⟨last, hlast⟩ := ih (subdirs.distinct_of_find hd hfind) hsd
      refine ⟨last, ?_⟩
      rw [List.reverse_append]
      show fileAt (name' :: (q.reverse ++ [last])) _ = some i
      cases hq : q.reverse ++ [last] with
      | nil => simp at hq
      | cons next path => rw [fileAt_cons, hfind, Option.getD_some, ← hq, hlast]

end FileTreeDirItem

/-! ### The tree of a list of files -/

/-- The names up to the directory of a file, the last one first. Kind: D -/
def dirPath (files : List FileSpec) (i : ℕ) : List TQString := (pathOf files i).dropLast.reverse

/-- What a walk below a directory of the tree meets. Kind: D -/
def walkAt (files : List FileSpec) (p : List TQString) : List Visit :=
  ((setupMultifileTorrent files).dirAt p.reverse).elim [] fun d => d.walk p

section setup

variable {files : List FileSpec} {p : List TQString} {i : ℕ}

/-- An item that is met is the item of a listed file, met where the file is.
Source: `interfaces/filetreediritem.cpp`. Kind: L -/
theorem listed_of_mem_walkAt {r : List TQString} (h : .item i r ∈ walkAt files p) :
    Listed files i ∧ dirPath files i = r := by
  have hroot : .item i r ∈ (setupMultifileTorrent files).walk [] := by
    unfold walkAt at h
    cases hd : (setupMultifileTorrent files).dirAt p.reverse with
    | none =>
      rw [hd] at h
      cases h
    | some d =>
      rw [hd] at h
      have hsub := FileTreeDirItem.walk_dirAt [] hd
      rw [List.reverse_reverse, List.append_nil] at hsub
      exact hsub h
  rw [← List.append_nil r] at hroot
  obtain ⟨name, hname⟩ := FileTreeDirItem.fileAt_of_mem_walk (distinct_setup files) hroot
  obtain ⟨hlisted, hpath⟩ := (fileAt_setup _ i).mp hname
  refine ⟨hlisted, ?_⟩
  rw [dirPath, hpath, List.dropLast_concat, List.reverse_reverse]

/-- The walk from a path lists what lies below it. Source: `interfaces/filetreediritem.cpp`.
Kind: L -/
theorem suffix_of_mem_walkAt {v : Visit} (h : v ∈ walkAt files p) : p <:+ v.path := by
  unfold walkAt at h
  cases hd : (setupMultifileTorrent files).dirAt p.reverse with
  | none =>
    rw [hd] at h
    cases h
  | some d =>
    rw [hd] at h
    exact d.suffix_of_mem_walk p _ h

/-- Paths from the root and paths from the file compare the other way round.
Source: `interfaces/filetreediritem.cpp`. Kind: L -/
theorem suffix_dirPath_iff : p.reverse <+: (pathOf files i).dropLast ↔ p <:+ dirPath files i := by
  rw [dirPath, ← List.reverse_suffix, List.reverse_reverse]

/-- A sum over what is met below a directory is one over the files listed there.
Source: `interfaces/filetreediritem.cpp`. Kind: L -/
theorem sum_walkAt (f : ℕ → ℕ) : ((walkAt files p).map (Visit.weight f)).sum =
    ∑ i ∈ Finset.range files.length,
      if Listed files i ∧ p <:+ dirPath files i then f i else 0 := by
  have htotal : (setupMultifileTorrent files).totalAt f p.reverse = _ := totalAt_setup f p.reverse
  simp only [suffix_dirPath_iff] at htotal
  rw [← htotal]
  unfold walkAt FileTreeDirItem.totalAt
  cases (setupMultifileTorrent files).dirAt p.reverse with
  | none => rfl
  | some d => exact (d.total_eq_walk f p).symm

/-- **Which items are met, and how often**: that of each file listed below the directory, once.
Source: `interfaces/filetreediritem.cpp`. Kind: P -/
theorem count_walkAt : ((walkAt files p).map (Visit.weight fun j => if j = i then 1 else 0)).sum =
    if Listed files i ∧ p <:+ dirPath files i then 1 else 0 := by
  rw [sum_walkAt]
  have hite : ∀ j, (if Listed files j ∧ p <:+ dirPath files j then if j = i then 1 else 0 else 0) =
      if j = i then if Listed files i ∧ p <:+ dirPath files i then 1 else 0 else 0 := by
    intro j
    by_cases hj : j = i
    · rw [hj]
      simp
    · simp [hj]
  rw [Finset.sum_congr rfl fun j _ => hite j, Finset.sum_ite_eq']
  by_cases hlisted : Listed files i ∧ p <:+ dirPath files i
  · rw [if_pos (Finset.mem_range.mpr hlisted.1.1)]
  · rw [if_neg hlisted, ite_self]

/-- The item of each file listed below the directory is met.
Source: `interfaces/filetreediritem.cpp`. Kind: L -/
theorem mem_walkAt (hlisted : Listed files i) (hp : p <:+ dirPath files i) :
    .item i (dirPath files i) ∈ walkAt files p := by
  have hcount : ((walkAt files p).map (Visit.weight fun j => if j = i then 1 else 0)).sum = 1 :=
    count_walkAt.trans (if_pos ⟨hlisted, hp⟩)
  -- one of the visits counts
  obtain ⟨v, hv, hweight⟩ :
      ∃ v ∈ walkAt files p, v.weight (fun j => if j = i then 1 else 0) ≠ 0 := by
    by_contra hnone
    push Not at hnone
    rw [List.sum_eq_zero fun n hn => by
      obtain ⟨v, hv, rfl⟩ := List.mem_map.mp hn
      exact hnone v hv] at hcount
    cases hcount
  cases v with
  | dir r => exact absurd rfl hweight
  | item j r =>
    have hj : j = i := by
      by_contra hne
      exact hweight (if_neg hne)
    subst hj
    rwa [(listed_of_mem_walkAt hv).2]

end setup

/-! ### A directory is met before the items below it -/

/-- In the list an item at or below the directory is met, after which the directory itself is not.
Kind: D -/
def Settles (q : List TQString) (l : List Visit) : Prop :=
  ∃ pre i r post, l = pre ++ .item i r :: post ∧ q <:+ r ∧ .dir q ∉ post

section settles

variable {q : List TQString}

/-- A directory settled stays so if it is not listed again.
Source: `interfaces/filetreediritem.cpp`. Kind: L -/
theorem Settles.append_right {l l' : List Visit} (h : Settles q l) (hl' : .dir q ∉ l') :
    Settles q (l ++ l') := by
  obtain ⟨pre, i, r, post, rfl, hr, hpost⟩ := h
  refine ⟨pre, i, r, post ++ l', by simp, hr, fun hmem => ?_⟩
  exact (List.mem_append.mp hmem).elim hpost hl'

/-- What comes before does not matter. Source: `interfaces/filetreediritem.cpp`. Kind: L -/
theorem Settles.append_left {l' : List Visit} (l : List Visit) (h : Settles q l') :
    Settles q (l ++ l') := by
  obtain ⟨pre, i, r, post, rfl, hr, hpost⟩ := h
  exact ⟨l ++ pre, i, r, post, by simp, hr, hpost⟩

/-- An item whose directory is not listed settles nothing. Source: `interfaces/filetreediritem.cpp`.
Kind: L -/
theorem Settles.of_not_mem {l : List Visit} {i : ℕ} {r : List TQString} (hi : .item i r ∈ l)
    (hr : q <:+ r) (hq : .dir q ∉ l) : Settles q l := by
  obtain ⟨pre, post, rfl⟩ := List.append_of_mem hi
  exact ⟨pre, i, r, post, rfl, hr, fun h => hq (by simp [h])⟩

mutual

/-- In a walk the directories on the way to an item come after it.
Source: `interfaces/filetreediritem.cpp`. Kind: L -/
theorem FileTreeDirItem.settles_walk {i : ℕ} {p : List TQString} (hq : q <:+ p)
    (r : List TQString) : (d : FileTreeDirItem) → d.Distinct → .item i p ∈ d.walk r →
    Settles q (d.walk r)
  | .node _ children subdirs, hd, h => by
      rw [FileTreeDirItem.walk] at h ⊢
      rcases List.mem_append.mp (List.mem_of_ne_of_mem (by simp) h) with hitem | hitem
      · -- the item is in the directory: none of those met later is the directory or above it
        apply Settles.append_left [Visit.dir r]
        refine Settles.of_not_mem (List.mem_append_left _ hitem) hq fun hdir => ?_
        obtain ⟨x, -, hx⟩ := List.mem_map.mp hitem
        have hp : r = p := (Visit.item.inj hx).2
        rcases List.mem_append.mp hdir with hdir | hdir
        · obtain ⟨y, -, hy⟩ := List.mem_map.mp hdir
          cases hy
        · obtain ⟨name, -, hname⟩ := subdirs.suffix_of_mem_walk r _ hdir
          have hlen := (hname.trans hq).length_le
          rw [hp] at hlen
          simp at hlen
      · have ih := Subdirs.settles_walk hq r subdirs hd hitem
        exact (ih.append_left _).append_left [Visit.dir r]

/-- In the walk of a list the directories on the way to an item come after it.
Source: `interfaces/filetreediritem.cpp`. Kind: L -/
theorem Subdirs.settles_walk {i : ℕ} {p : List TQString} (hq : q <:+ p) (r : List TQString) :
    (m : Subdirs) → m.Distinct → .item i p ∈ m.walk r → Settles q (m.walk r)
  | .cons name sd rest, ⟨hname, hsd, hrest⟩, h => by
      rw [Subdirs.walk] at h ⊢
      rcases List.mem_append.mp h with hitem | hitem
      · have ih := FileTreeDirItem.settles_walk hq (name :: r) sd hsd hitem
        refine ih.append_right fun hdir => ?_
        -- another subdirectory has another name
        obtain ⟨name', hmem, hname'⟩ := rest.suffix_of_mem_walk r _ hdir
        have hin := sd.suffix_of_mem_walk (name :: r) _ hitem
        exact hname (eq_of_suffix (hname'.trans hq) hin ▸ hmem)
      · exact (Subdirs.settles_walk hq r rest hrest hitem).append_left _

end

/-- **Walks settle**: below a directory that is walked, each directory with a file is met, if at
all, before the last of its items. Source: `interfaces/filetreediritem.cpp`. Kind: P -/
theorem settles_walkAt {files : List FileSpec} {p : List TQString} {i : ℕ}
    (hlisted : Listed files i) (hp : p <:+ dirPath files i) (hq : q <:+ dirPath files i) :
    Settles q (walkAt files p) := by
  have hmem := mem_walkAt hlisted hp
  unfold walkAt at hmem ⊢
  cases hd : (setupMultifileTorrent files).dirAt p.reverse with
  | none =>
    rw [hd] at hmem
    cases hmem
  | some d =>
    rw [hd] at hmem
    exact d.settles_walk hq p (FileTreeDirItem.distinct_dirAt (distinct_setup files) hd) hmem

end settles

end KTorrent.Interfaces
