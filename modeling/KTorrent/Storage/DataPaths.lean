import KTorrent.Storage.LoadTorrent

/-!
# The paths a cache makes from a torrent

A cache joins the data directory, the name the torrent suggests and, for a torrent of several files,
their paths. The paths are checked when the torrent is loaded, the name is not.

* `files_plain` — no path of a torrent that is loaded has `..` among its names.
* `stays_iff` — nor has any path the cache makes, exactly if the suggested name has not; a cache of
  several files with an output name of its own does not use it.
* `parent_loaded` — a torrent whose name is `..`.

Source: `torrent/cache.cpp`, `torrent/multifilecache.cpp`, `torrent/singlefilecache.cpp`
-/

namespace KTorrent.Storage

open KTorrent.Util KTorrent.Bencode KTorrent.Lib

/-! ### The caches -/

/-- Source: `Cache::Cache`, the data directory. Kind: D -/
def withSeparator (dir : TQString) : TQString := if dir.getLast? = some '/' then dir else dir ++ ['/']

/-- Where a link leads, without the name of the torrent and the path of the file; all of it where it
is shorter than these, since the difference of the lengths wraps.
Source: `MultiFileCache::guessDataDir`, for one file that is a link. Kind: D -/
def guessFrom (t : Torrent) (tf : TorrentFile) (dst : TQString) : Option TQString :=
  let tmp := t.name_suggestion ++ '/' :: tf.path
  let dst := dst.take (sub32 dst.length tmp.length)
  if dst = [] then none else some (withSeparator dst)

/-- `dnd` are the files not to be downloaded, `readLink` is where a link leads.
Source: `MultiFileCache::guessDataDir`. Kind: D -/
def guessDataDir (t : Torrent) (dnd : ℕ → Bool) (readLink : TQString → Option TQString)
    (cache_dir : TQString) : TQString :=
  (t.files.findSome? fun tf =>
    if dnd tf.index then none
    else (readLink (cache_dir ++ tf.path)).bind (guessFrom t tf)).getD []

/-- What a cache is made with. Kind: D -/
structure CacheSetup where
  tmpdir : TQString
  datadir : TQString
  custom_output_name : Bool
  dnd : ℕ → Bool
  readLink : TQString → Option TQString

/-- Source: `MultiFileCache::datadir`. Kind: D -/
def CacheSetup.dataDir (c : CacheSetup) (t : Torrent) : TQString :=
  if t.isMultiFile ∧ c.datadir.length = 0 then
    guessDataDir t c.dnd c.readLink (c.tmpdir ++ "cache".toList ++ ['/'])
  else withSeparator c.datadir

/-- Source: `MultiFileCache::MultiFileCache`. Kind: D -/
def outputDir (c : CacheSetup) (t : Torrent) : TQString :=
  if !c.custom_output_name then c.dataDir t ++ t.name_suggestion ++ ['/'] else c.dataDir t

/-- The directories along a path. Source: `MultiFileCache::touch`, the loop. Kind: D -/
def dirsAlong (otmp : TQString) : List TQString → List TQString
  | [] => []
  | [_] => []
  | name :: next :: sl => (otmp ++ name) :: dirsAlong (otmp ++ name ++ ['/']) (next :: sl)

/-- What `touch` makes in the output directory. Source: `MultiFileCache::touch`. Kind: D -/
def touchPaths (c : CacheSetup) (t : Torrent) (tf : TorrentFile) : List TQString :=
  dirsAlong (outputDir c t) (splitPath tf.path) ++
    if c.dnd tf.index then [] else [outputDir c t ++ tf.path]

/-- The files one after the other. A path without a name ends it: `sl.count() - 1` is `2^32 - 1`
there, and `sl[0]` is not an element. Source: `MultiFileCache::create`. Kind: D -/
def multiPaths (c : CacheSetup) (t : Torrent) : List TQString :=
  outputDir c t ::
    (t.files.takeWhile fun tf => splitPath tf.path ≠ []).flatMap (touchPaths c t)

/-- Source: `SingleFileCache::create`. Kind: D -/
def singlePaths (c : CacheSetup) (t : Torrent) : List TQString :=
  match c.readLink (c.tmpdir ++ "cache".toList) with
  | some _ => []
  | none => [c.dataDir t ++ t.name_suggestion]

/-- The paths made from the data directory. Source: `ChunkManager::ChunkManager`. Kind: D -/
def cachePaths (c : CacheSetup) (t : Torrent) : List TQString :=
  if t.isMultiFile then multiPaths c t else singlePaths c t

/-! ### Paths below the data directory -/

/-- No two dots among the names. Kind: D -/
def Plain (t : TQString) : Prop := ['.', '.'] ∉ components '/' t

instance (t : TQString) : Decidable (Plain t) := inferInstanceAs (Decidable (_ ∉ _))

/-- The path is the directory's, with no `..` behind it, and it lies below. Kind: D -/
def Stays (dir path : TQString) : Prop :=
  (∃ rest, path = dir ++ rest ∧ Plain rest) ∧ Below '/' '.' dir path

/-- A path has no `..` if its two parts have none. Source: none: infrastructure. Kind: L -/
theorem plain_append {a b : TQString} : Plain (a ++ '/' :: b) ↔ Plain a ∧ Plain b := by
  unfold Plain
  rw [components_append, List.mem_append, not_or]

/-- A separator at the end makes none. Source: `torrent/cache.cpp`, `torrent/multifilecache.cpp`.
Kind: L -/
theorem plain_separator {a : TQString} : Plain (a ++ ['/']) ↔ Plain a := by
  rw [plain_append]
  exact and_iff_left (by decide)

/-- **No path of a torrent that is loaded has `..` among its names.**. Source: `torrent/cache.cpp`,
`torrent/multifilecache.cpp`. Kind: P -/
theorem files_plain {E : Codec} {data : List UInt8} {t : Torrent}
    (h : LoadTorrent.load E data = .ok t) : ∀ f ∈ t.files, Plain f.path := by
  obtain ⟨dict, -, h⟩ := LoadTorrent.load_ok h
  obtain ⟨d, s, -, -, hs, -, -, -, -, -, hfiles⟩ := LoadTorrent.loadInfo_ok h
  rw [hfiles]
  refine LoadTorrent.files_inv (fun s => ∀ f ∈ s.files, Plain f.path) (fun _ f hf => ?_) ?_ hs
  · cases hf
  · intro s s' path length hs hadd f hf
    obtain rfl | ⟨hcheck, -, size, -, rfl⟩ := LoadTorrent.addFile_ok hadd
    · exact hs f hf
    · obtain hf | hf := List.mem_append.mp hf
      · exact hs f hf
      · rw [List.mem_singleton.mp hf]
        exact (LoadTorrent.checkPathForDirectoryTraversal_iff path).mp hcheck

/-! ### What the caches make -/

/-- A directory that ends in a separator. Source: `Cache::Cache`. Kind: L -/
theorem withSeparator_eq (dir : TQString) : ∃ d, withSeparator dir = d ++ ['/'] := by
  unfold withSeparator
  split_ifs with h
  · obtain ⟨d, hd⟩ := List.getLast?_eq_some_iff.mp h
    exact ⟨d, hd⟩
  · exact ⟨dir, rfl⟩

/-- Without links, no directory can be guessed; else a directory ends with a separator.
Source: `MultiFileCache::datadir`. Kind: L -/
theorem dataDir_cases (c : CacheSetup) (t : Torrent) :
    c.dataDir t = [] ∨ ∃ d, c.dataDir t = d ++ ['/'] := by
  unfold CacheSetup.dataDir
  split_ifs
  · unfold guessDataDir
    cases hguess : t.files.findSome? fun tf =>
      if c.dnd tf.index then none
      else (c.readLink (c.tmpdir ++ "cache".toList ++ ['/'] ++ tf.path)).bind (guessFrom t tf) with
    | none => exact .inl rfl
    | some dir =>
      obtain ⟨tf, -, htf⟩ := List.exists_of_findSome?_eq_some hguess
      split_ifs at htf
      obtain ⟨dst, -, hdst⟩ := Option.bind_eq_some_iff.mp htf
      unfold guessFrom at hdst
      dsimp only at hdst
      split_ifs at hdst
      obtain ⟨d, hd⟩ :=
        withSeparator_eq (dst.take (sub32 dst.length (t.name_suggestion ++ '/' :: tf.path).length))
      right
      refine ⟨d, ?_⟩
      rw [← hd, ← Option.some.inj hdst]
      rfl
  · exact .inr (withSeparator_eq _)

/-- What has no `..` stays below the data directory. Source: `MultiFileCache::datadir`. Kind: L -/
theorem stays_dataDir (c : CacheSetup) (t : Torrent) {rest : TQString} (h : Plain rest) :
    Stays (c.dataDir t) (c.dataDir t ++ rest) := by
  refine ⟨⟨rest, rfl, h⟩, ?_⟩
  obtain hdir | ⟨d, hdir⟩ := dataDir_cases c t
  · rw [hdir]
    exact List.nil_prefix
  · have hbelow : Below '/' '.' d (d ++ '/' :: rest) := below_append (not_climbs_of_not_mem h 0)
    unfold Below at hbelow ⊢
    rw [hdir, resolve_separator, List.append_assoc]
    exact hbelow

/-- Behind this text a plain one is plain. Kind: D -/
def Front (front : TQString) : Prop := ∀ t, Plain t → Plain (front ++ t)

/-- The empty path leads nowhere else. Source: none: infrastructure. Kind: L -/
theorem front_nil : Front [] := fun _ h => h

/-- A path with a separator behind it. Source: `torrent/cache.cpp`, `torrent/multifilecache.cpp`.
Kind: L -/
theorem front_separator {rest : TQString} (h : Plain rest) : Front (rest ++ ['/']) := by
  intro t ht
  rw [List.append_assoc]
  exact plain_append.mpr ⟨h, ht⟩

/-- The directories along a path stay where the first of them does. Source: `MultiFileCache::touch`.
Kind: L -/
theorem stays_dirsAlong (c : CacheSetup) (t : Torrent) {sl : List TQString}
    (hsl : ∀ name ∈ sl, Plain name) {front : TQString} (hfront : Front front) {p : TQString}
    (hp : p ∈ dirsAlong (c.dataDir t ++ front) sl) : Stays (c.dataDir t) p := by
  induction sl generalizing front with
  | nil => cases hp
  | cons name sl ih =>
    cases sl with
    | nil => cases hp
    | cons next sl =>
      have hname : Plain (front ++ name) := hfront name (hsl name List.mem_cons_self)
      rw [dirsAlong, List.mem_cons, List.append_assoc, List.append_assoc] at hp
      obtain rfl | hp := hp
      · exact stays_dataDir c t hname
      · have hnext : Front (front ++ name ++ ['/']) := front_separator hname
        exact ih (fun n hn => hsl n (List.mem_cons_of_mem name hn)) hnext hp

/-- The names of a path that is plain. Source: `TQStringList::split(DirSeparator(), p)`. Kind: L -/
theorem plain_of_mem_splitPath {path name : TQString} (h : Plain path)
    (hname : name ∈ splitPath path) : Plain name := by
  have hmem := (List.mem_filter.mp hname).1
  unfold Plain
  rw [components_name (not_mem_of_mem_components hmem), List.mem_singleton]
  rintro rfl
  exact h hmem

/-- What a cache of several files makes. Source: `MultiFileCache::create`. Kind: L -/
theorem stays_multiPaths (c : CacheSetup) (t : Torrent) {front : TQString} (hfront : Front front)
    (hout : outputDir c t = c.dataDir t ++ front) (hfiles : ∀ f ∈ t.files, Plain f.path)
    {p : TQString} (hp : p ∈ multiPaths c t) : Stays (c.dataDir t) p := by
  obtain rfl | hp := List.mem_cons.mp hp
  · have hplain := hfront [] (by decide)
    rw [List.append_nil] at hplain
    rw [hout]
    exact stays_dataDir c t hplain
  · obtain ⟨f, hf, hp⟩ := List.mem_flatMap.mp hp
    replace hf := (List.takeWhile_prefix _).mem hf
    unfold touchPaths at hp
    rw [hout] at hp
    obtain hp | hp := List.mem_append.mp hp
    · exact stays_dirsAlong c t (fun name hname => plain_of_mem_splitPath (hfiles f hf) hname)
        hfront hp
    · split_ifs at hp
      · cases hp
      · rw [List.mem_singleton.mp hp, List.append_assoc]
        exact stays_dataDir c t (hfront _ (hfiles f hf))

/-- What stays behind the data directory is plain. Source: `torrent/cache.cpp`,
`torrent/multifilecache.cpp`. Kind: L -/
theorem Stays.plain {dir rest : TQString} (h : Stays dir (dir ++ rest)) : Plain rest := by
  obtain ⟨rest', heq, hplain⟩ := h.1
  rwa [List.append_cancel_left heq]

/-- **Every path a cache makes stays below the data directory exactly if the suggested name has no
`..` among its names**, or if several files have an output name of their own.
Source: `ChunkManager::ChunkManager`. Kind: P -/
theorem stays_iff {E : Codec} {data : List UInt8} {t : Torrent}
    (h : LoadTorrent.load E data = .ok t) (tmpdir datadir : TQString) (custom : Bool) :
    (∀ (dnd : ℕ → Bool) (readLink : TQString → Option TQString),
      ∀ p ∈ cachePaths ⟨tmpdir, datadir, custom, dnd, readLink⟩ t,
        Stays (CacheSetup.dataDir ⟨tmpdir, datadir, custom, dnd, readLink⟩ t) p) ↔
      (t.isMultiFile = true ∧ custom = true) ∨ Plain t.name_suggestion := by
  have hfiles := files_plain h
  constructor
  · intro hall
    by_contra hno
    rw [not_or, not_and] at hno
    obtain ⟨hcustom, hname⟩ := hno
    obtain ⟨c, hc⟩ : ∃ c : CacheSetup, (⟨tmpdir, datadir, custom, fun _ => false, fun _ => none⟩ :
      CacheSetup) = c := ⟨_, rfl⟩
    have hstays := hall (fun _ => false) fun _ => none
    rw [hc] at hstays
    cases hmulti : t.isMultiFile with
    | true =>
      have hout : outputDir c t = c.dataDir t ++ (t.name_suggestion ++ ['/']) := by
        have hno : c.custom_output_name = false := by
          rw [← hc]
          exact Bool.eq_false_iff.mpr (hcustom hmulti)
        unfold outputDir
        rw [hno, List.append_assoc]
        exact if_pos rfl
      have hmem : outputDir c t ∈ cachePaths c t := by
        unfold cachePaths
        rw [hmulti, if_pos rfl]
        exact List.mem_cons_self
      have hs := hstays _ hmem
      rw [hout] at hs
      exact hname (plain_separator.mp hs.plain)
    | false =>
      have hmem : c.dataDir t ++ t.name_suggestion ∈ cachePaths c t := by
        unfold cachePaths singlePaths
        rw [hmulti, if_neg Bool.false_ne_true, ← hc]
        exact List.mem_cons_self
      exact hname (hstays _ hmem).plain
  · intro hcond dnd readLink p hp
    obtain ⟨c, hc⟩ : ∃ c : CacheSetup, (⟨tmpdir, datadir, custom, dnd, readLink⟩ : CacheSetup) = c :=
      ⟨_, rfl⟩
    rw [hc] at hp ⊢
    unfold cachePaths at hp
    cases hmulti : t.isMultiFile with
    | true =>
      rw [hmulti, if_pos rfl] at hp
      cases hcustom : c.custom_output_name with
      | true =>
        apply stays_multiPaths c t front_nil _ hfiles hp
        unfold outputDir
        rw [hcustom, List.append_nil]
        exact if_neg (by decide)
      | false =>
        obtain ⟨-, hcust⟩ | hname := hcond
        · rw [← hc] at hcustom
          rw [hcust] at hcustom
          cases hcustom
        · apply stays_multiPaths c t (front_separator hname) _ hfiles hp
          unfold outputDir
          rw [hcustom, List.append_assoc]
          exact if_pos rfl
    | false =>
      rw [hmulti, if_neg Bool.false_ne_true] at hp
      obtain ⟨hm, -⟩ | hname := hcond
      · rw [hmulti] at hm
        cases hm
      · unfold singlePaths at hp
        split at hp
        · cases hp
        · rw [List.mem_singleton.mp hp]
          exact stays_dataDir c t hname

/-- Texts in Latin-1. Kind: D -/
def latinCodec : Codec := ⟨fun _ bs => bs.map fun b => Char.ofNat b.toNat, fun _ => false⟩

/-- A torrent of one byte, with a name of two. Kind: D -/
def oneByte (name : List UInt8) : List UInt8 :=
  latin1 "d8:announce1:x4:infod6:lengthi1e4:name2:" ++ name ++
    latin1 "12:piece lengthi1e6:pieces20:aaaaaaaaaaaaaaaaaaaaee"

/-- A torrent that is loaded, with its name. Source: `torrent/cache.cpp`,
`torrent/multifilecache.cpp`. Kind: L -/
theorem exists_of_name {E : Codec} {data : List UInt8} {name : TQString}
    (h : (LoadTorrent.load E data).toOption.map Torrent.name_suggestion = some name) :
    ∃ t, LoadTorrent.load E data = .ok t ∧ t.name_suggestion = name := by
  cases hload : LoadTorrent.load E data with
  | error e =>
    rw [hload] at h
    cases h
  | ok t =>
    rw [hload] at h
    exact ⟨t, rfl, Option.some.inj h⟩

/-- What the sample's paths are. Source: `ChunkManager::ChunkManager`. Kind: L -/
theorem stays_oneByte : ∃ t, LoadTorrent.load latinCodec (oneByte (latin1 "ab")) = .ok t ∧
    ∀ (dnd : ℕ → Bool) (readLink : TQString → Option TQString),
      ∀ p ∈ cachePaths ⟨[], ['d'], false, dnd, readLink⟩ t,
        Stays (CacheSetup.dataDir ⟨[], ['d'], false, dnd, readLink⟩ t) p := by
  obtain ⟨t, ht, hname⟩ := exists_of_name (show
    (LoadTorrent.load latinCodec (oneByte (latin1 "ab"))).toOption.map Torrent.name_suggestion =
      some ['a', 'b'] by decide +kernel)
  refine ⟨t, ht, (stays_iff ht [] ['d'] false).mpr (.inr ?_)⟩
  rw [hname]
  decide

/-- A torrent whose name is `..` is loaded, and its file's path is that of the directory above.
Source: `ChunkManager::ChunkManager`. Kind: P -/
theorem parent_loaded : ¬ ∀ (E : Codec) (data : List UInt8) (t : Torrent),
    LoadTorrent.load E data = .ok t → ∀ (c : CacheSetup), ∀ p ∈ cachePaths c t,
      Stays (c.dataDir t) p := by
  intro h
  have hall : (LoadTorrent.load latinCodec (oneByte (latin1 ".."))).toOption.all fun t =>
      t.isMultiFile = false := by
    decide +kernel
  obtain ⟨t, ht, hname⟩ := exists_of_name (show
    (LoadTorrent.load latinCodec (oneByte (latin1 ".."))).toOption.map Torrent.name_suggestion =
      some ['.', '.'] by decide +kernel)
  rw [ht] at hall
  have hsingle : t.isMultiFile = false := of_decide_eq_true hall
  obtain ⟨c, hc⟩ : ∃ c : CacheSetup, (⟨[], ['d'], false, fun _ => false, fun _ => none⟩ :
    CacheSetup) = c := ⟨_, rfl⟩
  have hmem : c.dataDir t ++ t.name_suggestion ∈ cachePaths c t := by
    unfold cachePaths singlePaths
    rw [hsingle, if_neg Bool.false_ne_true, ← hc]
    exact List.mem_cons_self
  have hplain := (h latinCodec _ t ht c _ hmem).plain
  rw [hname] at hplain
  exact absurd hplain (by decide)

end KTorrent.Storage
