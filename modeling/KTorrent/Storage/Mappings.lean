import KTorrent.Lib.GuardedRun
import KTorrent.Lib.SortedMap
import KTorrent.Storage.CacheFiles
import Mathlib.Order.Interval.Finset.Nat

/-!
# The memory a cache file has mapped

A chunk that lies in one file can be mapped into memory instead of being read. The file keeps a
table of what it has mapped, opens its descriptor when it is needed and closes it when nothing is
mapped. Closing the file unmaps what is left and tells who has mapped it.

* `CacheFile` — the descriptor, the table, and the memory pages the system has mapped for the file.
* `Users` — the file together with the pointers that have been handed out and not yet given back,
  and what each of them was asked for.
* `Ready.length_map`, `Ready.length_write` — the file is as long as its bytes in `CacheFiles`.
* `Backed` — the pages mapped are those of the entries of the table, and no two share a page.
* `mapped_run` — on every run the memory of a pointer in use stays mapped, for the range that was
  asked for, and all that is mapped besides is that of the offsets which were no multiple of the page
  size when the file was closed.

Closing passes the start of such a mapping less its distance to the offset to the system, which is
no start of a page, and removes the start and not the pointer from the table. `Answers` is what the
system answers; it maps whole pages that are free. Preallocating and changing the path are left
out.

Source: `torrent/cachefile.h`, `torrent/cachefile.cpp`
-/

namespace KTorrent.Storage.Mappings

open KTorrent.Lib KTorrent.Util

/-- Source: `CacheFile::Mode`. Kind: D -/
inductive Mode
  | read
  | write
  | rw
deriving DecidableEq, Repr

/-- Something mapped, and for whom. Source: `CacheFile::Entry`. Kind: D -/
structure Entry where
  thing : ℕ
  ptr : ℕ
  size : ℕ
  offset : ℕ
  diff : ℕ
deriving DecidableEq, Repr

/-- `length` is the length of the file, `pages` the memory the system has mapped, and `told` who has
been told that nothing is mapped any more. Source: `torrent/cachefile.h`, `CacheFile`. Kind: D -/
structure CacheFile where
  fd : Bool := false
  read_only : Bool := false
  max_size : ℕ
  file_size : ℕ := 0
  mappings : SortedMap ℕ Entry := .empty
  length : ℕ
  pages : Finset ℕ := ∅
  told : List ℕ := []

/-- What the system answers: whether the file opens and its size is found, whether its end is reached,
how many bytes it can grow by and its size is found again, whether a position is reached, where memory
is mapped, and how many bytes are read or written. Kind: D -/
structure Answers where
  rdwr : Bool
  rdonly : Bool
  stat : Bool
  seekEnd : Bool
  room : ℕ
  restat : Bool
  seek : Bool
  base : Option ℕ
  count : ℕ

/-- Source: the `Error` that is thrown. Kind: D -/
inductive Error
  | cannotOpen
  | cannotStat
  | cannotSeek
  | readonly
  | cannotExpand
  | pastEnd
  | cannotRead
  | cannotWrite
deriving DecidableEq, Repr

variable (ps : ℕ)

/-- The pages of a piece of memory. Kind: D -/
def pagesOf (addr size : ℕ) : Finset ℕ := Finset.Ico (addr / ps) ((addr + size + ps - 1) / ps)

/-- Memory is unmapped from the start of a page. Source: `munmap`. Kind: D -/
def munmap (addr size : ℕ) (pages : Finset ℕ) : Finset ℕ :=
  if addr % ps ≠ 0 ∨ size = 0 then pages else pages \ pagesOf ps addr size

namespace CacheFile

/-- The size of an open file; without one it stays open. Source: `CacheFile::openFile`. Kind: D -/
def takeSize (a : Answers) (s : CacheFile) : CacheFile × Except Error Unit :=
  if a.stat then ({ s with file_size := s.length }, .ok ()) else (s, .error .cannotStat)

/-- Source: `CacheFile::openFile`. Kind: D -/
def openFile (a : Answers) (mode : Mode) (s : CacheFile) : CacheFile × Except Error Unit :=
  if a.rdwr then takeSize a { s with fd := true }
  else if mode = .read ∧ a.rdonly then takeSize a { s with fd := true, read_only := true }
  else (s, .error .cannotOpen)

/-- The file is opened unless it is open. Kind: D -/
def reopen (a : Answers) (mode : Mode) (s : CacheFile) : CacheFile × Except Error Unit :=
  if s.fd then (s, .ok ()) else s.openFile a mode

/-- Source: `CacheFile::closeTemporary`. Kind: D -/
def closeTemporary (s : CacheFile) : CacheFile :=
  if s.fd = false ∨ s.mappings.size > 0 then s else { s with fd := false }

/-- Zeros are written, at most 1024 at a time: the length of the file afterwards, and whether all
have been written. Source: `CacheFile::growFile`, the loop. Kind: D -/
def growLoop : ℕ → ℕ → ℕ → ℕ → ℕ × Bool
  | 0, _, length, _ => (length, true)
  | fuel + 1, room, length, to_write =>
    if to_write = 0 then (length, true)
    else
      let nb := if to_write > 1024 then 1024 else to_write
      let ret := min nb room
      if ret ≠ nb then (length + ret, false)
      else growLoop fuel (room - nb) (length + nb) (to_write - nb)

/-- Source: `CacheFile::growFile`. Kind: D -/
def growFile (a : Answers) (to_write : ℕ) (s : CacheFile) : CacheFile × Except Error Unit :=
  match s.reopen a .rw with
  | (s, .error e) => (s, .error e)
  | (s, .ok _) =>
    if s.read_only then (s, .error .readonly)
    else if !a.seekEnd then (s, .error .cannotSeek)
    else
      let grown := growLoop to_write a.room s.length to_write
      let s := { s with length := grown.1 }
      if grown.2 then
        let s := { s with file_size := u64 (s.file_size + to_write) }
        (s, if !a.restat then .error .cannotStat
          else if s.file_size = s.length then .ok () else .error .cannotExpand)
      else (s, .error .cannotExpand)

/-- A range that ends behind the file makes it grow. Kind: D -/
def reach (a : Answers) (stop : ℕ) (s : CacheFile) : CacheFile × Except Error Unit :=
  if stop > s.file_size then s.growFile a (sub64 stop s.file_size) else (s, .ok ())

/-- The memory is mapped from the start of a page, `diff` bytes before the offset.
Source: `CacheFile::map`, the two calls of `mmap`. Kind: D -/
def insert (thing off size base : ℕ) (s : CacheFile) : CacheFile :=
  let diff := off % ps
  { s with
    pages := s.pages ∪ pagesOf ps base (u32 (size + diff))
    mappings := s.mappings.put (base + diff) ⟨thing, base, u32 (size + diff), off, diff⟩ }

/-- The pointer is zero, here `none`, when nothing has been mapped.
Source: `CacheFile::map`. Kind: D -/
def map (a : Answers) (thing off size : ℕ) (mode : Mode) (s : CacheFile) :
    CacheFile × Except Error (Option ℕ) :=
  match s.reopen a mode with
  | (s, .error e) => (s, .error e)
  | (s, .ok _) =>
    if s.read_only ∧ mode ≠ .read then (s, .error .readonly)
    else if u64 (off + size) > s.max_size then (s, .ok none)
    else
      match s.reach a (u64 (off + size)) with
      | (s, .error e) => (s, .error e)
      | (s, .ok _) =>
        match a.base with
        | none => (s, .ok none)
        | some base => (s.insert ps thing off size base, .ok (some (base + off % ps)))

/-- Source: `CacheFile::unmap`. Kind: D -/
def unmap (ptr size : ℕ) (s : CacheFile) : CacheFile :=
  match s.mappings.find? ptr with
  | some e =>
    let s := { s with
      pages := munmap ps (ptr - e.diff) e.size s.pages
      mappings := s.mappings.erase ptr }
    if s.mappings.size = 0 then s.closeTemporary else s
  | none => { s with pages := munmap ps ptr size s.pages }

/-- One round of closing: the entry of the pointer. Source: `CacheFile::close`, the loop. Kind: D -/
def closeOne (s : CacheFile) (p : ℕ) : CacheFile :=
  match s.mappings.find? p with
  | none => s
  | some e =>
    { s with
      pages := munmap ps (e.ptr - e.diff) e.size s.pages
      mappings := s.mappings.erase e.ptr
      told := s.told ++ [e.thing] }

/-- Source: `CacheFile::close`. Kind: D -/
def close (s : CacheFile) : CacheFile :=
  if s.fd = false then s
  else { (s.mappings.entries.map Prod.fst).foldl (closeOne ps) s with fd := false }

/-- Source: `CacheFile::read`. Kind: D -/
def read (a : Answers) (size off : ℕ) (s : CacheFile) : CacheFile × Except Error Unit :=
  let close_again := !s.fd
  match s.reopen a .read with
  | (s, .error e) => (s, .error e)
  | (s, .ok _) =>
    if off ≥ s.file_size ∨ off ≥ s.max_size then (s, .error .pastEnd)
    else if !a.seek then (s, .error .cannotSeek)
    else
      (if close_again then s.closeTemporary else s,
        if min size a.count = size then .ok () else .error .cannotRead)

/-- So many bytes are written, and the file is closed if it has been opened for it. Kind: D -/
def put (close_again : Bool) (ret off : ℕ) (s : CacheFile) : CacheFile :=
  let s := if 0 < ret then { s with length := max s.length (off + ret) } else s
  if close_again then s.closeTemporary else s

/-- Source: `CacheFile::write`. Kind: D -/
def write (a : Answers) (size off : ℕ) (s : CacheFile) : CacheFile × Except Error Unit :=
  let close_again := !s.fd
  match s.reopen a .rw with
  | (s, .error e) => (s, .error e)
  | (s, .ok _) =>
    if s.read_only then (s, .error .readonly)
    else
      match if s.file_size < off then s.growFile a (sub64 off s.file_size) else (s, .ok ()) with
      | (s, .error e) => (s, .error e)
      | (s, .ok _) =>
        if !a.seek then (s, .error .cannotSeek)
        else
          let ret := min size a.count
          let s := s.put close_again ret off
          if ret ≠ size then (s, .error .cannotWrite)
          else if u64 (off + size) > s.file_size then
            ({ s with file_size := u64 (off + size) }, .ok ())
          else (s, .ok ())

/-- Source: `CacheFile::diskUsage`. Kind: D -/
def diskUsage (a : Answers) (s : CacheFile) : CacheFile :=
  let close_again := !s.fd
  match s.reopen a .read with
  | (s, .error _) => s
  | (s, .ok _) => if close_again then s.closeTemporary else s

end CacheFile

/-! ### The pointers that are in use -/

/-- What is called. Kind: D -/
inductive Event
  | map (a : Answers) (thing off size : ℕ) (mode : Mode)
  | unmap (ptr size : ℕ)
  | close
  | read (a : Answers) (size off : ℕ)
  | write (a : Answers) (size off : ℕ)
  | diskUsage (a : Answers)

/-- The file; the pointers that have been handed out, and neither given back nor taken back by
closing the file; those taken back whose offset is no multiple of the page size; and the offset and
the size that a pointer was asked for with. Kind: D -/
structure Users where
  file : CacheFile
  held : Finset ℕ := ∅
  lost : Finset ℕ := ∅
  asked : ℕ → ℕ × ℕ := fun _ => (0, 0)

namespace Users

/-- The offset of the pointer's mapping is no multiple of the page size. Kind: D -/
def unaligned (s : CacheFile) (p : ℕ) : Bool :=
  (s.mappings.find? p).elim false fun e => e.offset % ps ≠ 0

/-- Something is called. Kind: D -/
def step (u : Users) : Event → Users
  | .map a thing off size mode =>
    let r := u.file.map ps a thing off size mode
    match r.2 with
    | .ok (some p) =>
      { u with
        file := r.1
        held := Insert.insert p u.held
        asked := Function.update u.asked p (off, size) }
    | _ => { u with file := r.1 }
  | .unmap ptr size => { u with file := u.file.unmap ps ptr size, held := u.held.erase ptr }
  | .close =>
    if u.file.fd = false then u
    else
      { u with
        file := u.file.close ps
        held := ∅
        lost := u.lost ∪ u.held.filter fun p => unaligned ps u.file p }
  | .read a size off => { u with file := (u.file.read a size off).1 }
  | .write a size off => { u with file := (u.file.write a size off).1 }
  | .diskUsage a => { u with file := u.file.diskUsage a }

/-- The end of a range fits in 64 bits, and its size in 32 bits together with its distance from the
start of a page; the system maps free memory from the start of a page; and a pointer is given back
while it is in use. Kind: D -/
def Called (u : Users) : Event → Prop
  | .map a _ off size _ => off + size < 2 ^ 64 ∧ size + off % ps < 2 ^ 32 ∧
      ∀ base, a.base = some base → ps ∣ base ∧ 0 < base ∧ 0 < size ∧
        Disjoint (pagesOf ps base (u32 (size + off % ps))) u.file.pages
  | .unmap ptr _ => ptr ∈ u.held
  | _ => True

end Users

/-! ### What the accesses leave alone -/

/-- Nothing has been mapped or unmapped, and an open file stays open while something is mapped.
Kind: D -/
structure Touches (s s' : CacheFile) : Prop where
  mappings : s'.mappings = s.mappings
  pages : s'.pages = s.pages
  length : s.length ≤ s'.length
  fd : s.fd = true → 0 < s.mappings.size → s'.fd = true
  sized : s.file_size ≤ s.length → s'.file_size ≤ s'.length

namespace Touches

variable {s s' s'' : CacheFile} {a : Answers} {mode : Mode} {r : Except Error Unit}

/-- Nothing is touched. Source: none: infrastructure. Kind: L -/
theorem refl (s : CacheFile) : Touches s s := ⟨rfl, rfl, le_rfl, fun h _ => h, id⟩

/-- One thing is touched after the other. Source: none: infrastructure. Kind: L -/
theorem trans (h : Touches s s') (h' : Touches s' s'') : Touches s s'' where
  mappings := h'.mappings.trans h.mappings
  pages := h'.pages.trans h.pages
  length := h.length.trans h'.length
  fd hfd hsize := h'.fd (h.fd hfd hsize) (h.mappings ▸ hsize)
  sized hs := h'.sized (h.sized hs)

/-- Asking for the size touches the length only. Source: `CacheFile::openFile`. Kind: L -/
theorem takeSize (h : s.takeSize a = (s', r)) : Touches s s' ∧ s'.fd = s.fd := by
  unfold CacheFile.takeSize at h
  split_ifs at h <;> cases h
  · exact ⟨⟨rfl, rfl, le_rfl, fun hfd _ => hfd, fun _ => le_rfl⟩, rfl⟩
  · exact ⟨refl s, rfl⟩

/-- Opening again leaves the file open if it succeeds. Source: `torrent/cachefile.h`,
`torrent/cachefile.cpp`. Kind: L -/
theorem reopen (h : s.reopen a mode = (s', r)) : Touches s s' ∧ (r = .ok () → s'.fd = true) := by
  have hopen : ∀ ro, Touches s { s with fd := true, read_only := ro } :=
    fun ro => ⟨rfl, rfl, le_rfl, fun _ _ => rfl, id⟩
  unfold CacheFile.reopen CacheFile.openFile at h
  split_ifs at h with hfd
  · cases h
    exact ⟨refl s, fun _ => hfd⟩
  · obtain ⟨htouch, hsame⟩ := takeSize h
    exact ⟨(hopen s.read_only).trans htouch, fun _ => hsame⟩
  · obtain ⟨htouch, hsame⟩ := takeSize h
    exact ⟨(hopen true).trans htouch, fun _ => hsame⟩
  · cases h
    exact ⟨refl s, nofun⟩

/-- Closing for the time being touches the descriptor only. Source: `CacheFile::closeTemporary`.
Kind: L -/
theorem closeTemporary (s : CacheFile) : Touches s s.closeTemporary := by
  unfold CacheFile.closeTemporary
  split_ifs with h
  · exact refl s
  · refine ⟨rfl, rfl, le_rfl, fun hfd hsize => ?_, id⟩
    exact absurd (.inr hsize) h

/-- Closing what was opened for the call. Source: `CacheFile::closeTemporary`. Kind: L -/
theorem closeAgain (c : Bool) (s : CacheFile) :
    Touches s (if c then s.closeTemporary else s) := by
  split_ifs
  · exact closeTemporary s
  · exact refl s

end Touches

namespace CacheFile

/-- What the loop writes: as much as there is room for. Source: `CacheFile::growFile`. Kind: L -/
theorem growLoop_eq (fuel room length to_write : ℕ) (h : to_write ≤ fuel) :
    growLoop fuel room length to_write =
      (length + min to_write room, decide (to_write ≤ room)) := by
  induction fuel generalizing room length to_write with
  | zero =>
    obtain rfl : to_write = 0 := by omega
    simp [growLoop]
  | succ fuel ih =>
    unfold growLoop
    by_cases hzero : to_write = 0
    · simp [hzero]
    · rw [if_neg hzero]
      have hnb : (if to_write > 1024 then 1024 else to_write) = min 1024 to_write := by
        split_ifs <;> omega
      simp only [hnb]
      split_ifs with hshort
      · rw [Prod.mk.injEq]
        refine ⟨by omega, ?_⟩
        rw [eq_comm, decide_eq_false_iff_not]
        omega
      · rw [ih _ _ _ (by omega), Prod.mk.injEq]
        refine ⟨by omega, ?_⟩
        rw [decide_eq_decide]
        omega

variable {s s' : CacheFile} {a : Answers} {r : Except Error Unit}

/-- A number cut to 64 bits is no larger. Source: `torrent/cachefile.h`, `torrent/cachefile.cpp`.
Kind: L -/
theorem u64_le (n : ℕ) : u64 n ≤ n := Nat.mod_le n _

/-- Growing an open file; when it has grown it is as long as has been asked for.
Source: `CacheFile::growFile`. Kind: L -/
theorem growFile_spec {n : ℕ} (h : s.growFile a n = (s', r)) :
    Touches s s' ∧ (r = .ok () → s.fd = true →
      s'.fd = true ∧ s'.file_size = u64 (s.file_size + n) ∧ s'.file_size = s'.length) := by
  unfold growFile at h
  cases hopen : s.reopen a .rw with
  | mk s₁ r₁ =>
    obtain ⟨htouch, hfd⟩ := Touches.reopen hopen
    rw [hopen] at h
    cases r₁ with
    | error e =>
      cases h
      exact ⟨htouch, nofun⟩
    | ok v =>
      simp only [growLoop_eq n a.room s₁.length n le_rfl] at h
      have hsame : s.fd = true → s₁ = s := by
        intro hs
        unfold CacheFile.reopen at hopen
        rw [if_pos hs] at hopen
        exact (Prod.mk.inj hopen).1.symm
      -- the file is no shorter than before, whether all zeros have been written or not
      have hgrown : Touches s₁ { s₁ with length := s₁.length + min n a.room } :=
        ⟨rfl, rfl, Nat.le_add_right _ _, fun h _ => h, fun hs => hs.trans (Nat.le_add_right _ _)⟩
      have hall : n ≤ a.room → Touches s₁ { s₁ with
          length := s₁.length + min n a.room, file_size := u64 (s₁.file_size + n) } := fun hroom =>
        ⟨rfl, rfl, Nat.le_add_right _ _, fun h _ => h, fun hs => by
          have hle := u64_le (s₁.file_size + n)
          show u64 (s₁.file_size + n) ≤ s₁.length + min n a.room
          omega⟩
      split_ifs at h with hro hseek hroom hstat hfull
      · cases h
        exact ⟨htouch, nofun⟩
      · cases h
        exact ⟨htouch, nofun⟩
      · cases h
        exact ⟨htouch.trans (hall (by simpa using hroom)), nofun⟩
      · cases h
        refine ⟨htouch.trans (hall (by simpa using hroom)), fun _ hs => ?_⟩
        obtain rfl := hsame hs
        exact ⟨hs, rfl, hfull⟩
      · cases h
        exact ⟨htouch.trans (hall (by simpa using hroom)), nofun⟩
      · cases h
        exact ⟨htouch.trans hgrown, nofun⟩

/-- The file reaches as far as it has been asked to. Source: `torrent/cachefile.h`,
`torrent/cachefile.cpp`. Kind: L -/
theorem reach_spec {stop : ℕ} (h : s.reach a stop = (s', r)) :
    Touches s s' ∧ (r = .ok () → s.fd = true → s'.fd = true) ∧
      (r = .ok () → s.fd = true → s.file_size ≤ s.length → stop < 2 ^ 64 →
        stop ≤ s'.length) := by
  unfold reach at h
  split_ifs at h with hgrow
  · obtain ⟨htouch, hok⟩ := growFile_spec h
    refine ⟨htouch, fun hr hfd => (hok hr hfd).1, fun hr hfd _ hstop => ?_⟩
    obtain ⟨-, hsize, hlength⟩ := hok hr hfd
    have hsub : sub64 stop s.file_size = stop - s.file_size := by
      unfold sub64
      omega
    have hreach : u64 (s.file_size + (stop - s.file_size)) = stop := by
      unfold u64
      omega
    rw [hsub, hreach] at hsize
    omega
  · cases h
    exact ⟨Touches.refl s, fun _ hfd => hfd, fun _ _ hsize _ => by omega⟩

/-- Reading touches no mapping. Source: `CacheFile::read`. Kind: L -/
theorem touches_read (a : Answers) (size off : ℕ) (s : CacheFile) :
    Touches s (s.read a size off).1 := by
  unfold CacheFile.read
  cases hopen : s.reopen a .read with
  | mk s₁ r₁ =>
    have htouch := (Touches.reopen hopen).1
    cases r₁ with
    | error e => exact htouch
    | ok v =>
      dsimp only
      by_cases hend : off ≥ s₁.file_size ∨ off ≥ s₁.max_size
      · rw [if_pos hend]
        exact htouch
      · rw [if_neg hend]
        by_cases hseek : (!a.seek) = true
        · rw [if_pos hseek]
          exact htouch
        · rw [if_neg hseek]
          exact htouch.trans (Touches.closeAgain _ s₁)

/-- Asking for the disk usage touches no mapping. Source: `CacheFile::diskUsage`. Kind: L -/
theorem touches_diskUsage (a : Answers) (s : CacheFile) : Touches s (s.diskUsage a) := by
  unfold diskUsage
  cases hopen : s.reopen a .read with
  | mk s₁ r₁ =>
    have htouch := (Touches.reopen hopen).1
    cases r₁ with
    | error e => exact htouch
    | ok v => exact htouch.trans (Touches.closeAgain _ s₁)

/-- Closing for the time being keeps the length. Source: `CacheFile::closeTemporary`. Kind: L -/
@[simp] theorem length_closeTemporary (s : CacheFile) : s.closeTemporary.length = s.length := by
  unfold CacheFile.closeTemporary
  split_ifs <;> rfl

/-- Closing for the time being keeps the size that is remembered.
Source: `CacheFile::closeTemporary`. Kind: L -/
@[simp] theorem file_size_closeTemporary (s : CacheFile) :
    s.closeTemporary.file_size = s.file_size := by
  unfold CacheFile.closeTemporary
  split_ifs <;> rfl

/-- Up to where it is written the file has been filled. Source: `torrent/cachefile.h`,
`torrent/cachefile.cpp`. Kind: L -/
theorem fill_spec {off : ℕ} (hfd : s.fd = true)
    (h : (if s.file_size < off then s.growFile a (sub64 off s.file_size) else (s, .ok ())) =
      (s', r)) : Touches s s' ∧ (r = .ok () → u64 off ≤ s'.file_size) := by
  split_ifs at h with hgap
  · obtain ⟨htouch, hok⟩ := growFile_spec h
    refine ⟨htouch, fun hr => ?_⟩
    rw [(hok hr hfd).2.1]
    unfold u64 sub64
    omega
  · cases h
    exact ⟨Touches.refl s, fun _ => (u64_le off).trans (by omega)⟩

/-- Putting the bytes touches no mapping. Source: `torrent/cachefile.h`, `torrent/cachefile.cpp`.
Kind: L -/
theorem touches_put (c : Bool) (ret off : ℕ) (s : CacheFile) : Touches s (s.put c ret off) := by
  unfold put
  refine Touches.trans ?_ (Touches.closeAgain c _)
  split_ifs
  · exact ⟨rfl, rfl, le_max_left _ _, fun h _ => h, fun hs => hs.trans (le_max_left _ _)⟩
  · exact Touches.refl s

/-- What has been written is in the file. Source: `torrent/cachefile.h`, `torrent/cachefile.cpp`.
Kind: L -/
theorem touches_written (c : Bool) {ret off size : ℕ} {s : CacheFile} (hoff : u64 off ≤ s.file_size)
    (hret : ret = size) (hgt : u64 (off + size) > (s.put c ret off).file_size) :
    Touches s { s.put c ret off with file_size := u64 (off + size) } := by
  have hsize : (s.put c ret off).file_size = s.file_size := by
    unfold put
    cases c <;> by_cases h : 0 < ret <;> simp [h]
  refine (touches_put c ret off s).trans ⟨rfl, rfl, le_rfl, fun h _ => h, fun _ => ?_⟩
  show u64 (off + size) ≤ (s.put c ret off).length
  by_cases h : 0 < ret
  · have hlength : (s.put c ret off).length = max s.length (off + ret) := by
      unfold put
      cases c <;> simp [h]
    rw [hlength, ← hret]
    exact (u64_le _).trans (le_max_right _ _)
  · -- nothing has been written, so that the file ends no earlier than before
    have hzero : size = 0 := by omega
    rw [hzero, Nat.add_zero, hsize] at hgt
    omega

/-- Writing touches no mapping. Source: `CacheFile::write`. Kind: L -/
theorem touches_write (a : Answers) (size off : ℕ) (s : CacheFile) :
    Touches s (s.write a size off).1 := by
  unfold CacheFile.write
  cases hopen : s.reopen a .rw with
  | mk s₁ r₁ =>
    have htouch := (Touches.reopen hopen).1
    cases r₁ with
    | error e => exact htouch
    | ok v =>
      dsimp only
      by_cases hro : s₁.read_only = true
      · rw [if_pos hro]
        exact htouch
      · rw [if_neg hro]
        cases hfill : (if s₁.file_size < off then s₁.growFile a (sub64 off s₁.file_size)
            else (s₁, .ok ())) with
        | mk s₂ r₂ =>
          obtain ⟨hfilled, hoff⟩ := fill_spec ((Touches.reopen hopen).2 rfl) hfill
          cases r₂ with
          | error e => exact htouch.trans hfilled
          | ok v =>
            dsimp only
            split_ifs with hseek hret hgt
            · exact htouch.trans hfilled
            · exact htouch.trans (hfilled.trans (touches_put _ _ _ s₂))
            · refine htouch.trans (hfilled.trans ?_)
              exact touches_written _ (hoff rfl) (not_not.mp hret) hgt
            · exact htouch.trans (hfilled.trans (touches_put _ _ _ s₂))

/-- **What mapping does**: it maps nothing, or it maps a range of the open file.
Source: `torrent/cachefile.h`, `torrent/cachefile.cpp`. Kind: L -/
theorem map_spec (a : Answers) (thing off size : ℕ) (mode : Mode) (s : CacheFile) :
    ((∀ p, (s.map ps a thing off size mode).2 ≠ .ok (some p)) ∧
        Touches s (s.map ps a thing off size mode).1) ∨
      ∃ s₁ base, Touches s s₁ ∧ a.base = some base ∧ s₁.fd = true ∧
        (s.file_size ≤ s.length → u64 (off + size) ≤ s₁.length) ∧
        s.map ps a thing off size mode =
          (s₁.insert ps thing off size base, .ok (some (base + off % ps))) := by
  unfold CacheFile.map
  cases hopen : s.reopen a mode with
  | mk s₁ r₁ =>
    obtain ⟨htouch, hfd⟩ := Touches.reopen hopen
    cases r₁ with
    | error e => exact .inl ⟨nofun, htouch⟩
    | ok v =>
      dsimp only
      by_cases hro : s₁.read_only = true ∧ mode ≠ .read
      · rw [if_pos hro]
        exact .inl ⟨nofun, htouch⟩
      · rw [if_neg hro]
        by_cases hmax : u64 (off + size) > s₁.max_size
        · rw [if_pos hmax]
          exact .inl ⟨by simp, htouch⟩
        · rw [if_neg hmax]
          cases hreach : s₁.reach a (u64 (off + size)) with
          | mk s₂ r₂ =>
            obtain ⟨hreached, hopened, hok⟩ := reach_spec hreach
            cases r₂ with
            | error e => exact .inl ⟨nofun, htouch.trans hreached⟩
            | ok v =>
              cases hbase : a.base with
              | none => exact .inl ⟨by simp, htouch.trans hreached⟩
              | some base =>
                refine .inr ⟨s₂, base, htouch.trans hreached, rfl, hopened rfl (hfd rfl),
                  fun hs => ?_, rfl⟩
                have hlt : u64 (off + size) < 2 ^ 64 := u64_lt _
                exact hok rfl (hfd rfl) (htouch.sized hs) hlt

/-! Where the system does what it is asked to, the file grows as its bytes do in `CacheFiles`. -/

/-- The file is open, or opens, for reading and writing. Kind: D -/
structure Ready (a : Answers) (s : CacheFile) : Prop where
  sized : s.fd = true → s.file_size = s.length
  opens : a.rdwr = true
  stats : a.stat = true ∧ a.restat = true
  seeks : a.seekEnd = true ∧ a.seek = true
  writable : s.read_only = false
  room : 2 ^ 64 ≤ a.room

namespace Ready

/-- A file that can be opened is opened, and stays as long as it is. Source: `torrent/cachefile.h`,
`torrent/cachefile.cpp`. Kind: L -/
theorem reopen (h : Ready a s) (mode : Mode) : ∃ t, s.reopen a mode = (t, .ok ()) ∧ Ready a t ∧
    t.fd = true ∧ t.length = s.length ∧ t.max_size = s.max_size := by
  unfold CacheFile.reopen openFile
  by_cases hfd : s.fd = true
  · rw [if_pos hfd]
    exact ⟨s, rfl, h, hfd, rfl, rfl⟩
  · rw [if_neg hfd, if_pos h.opens, takeSize, if_pos h.stats.1]
    exact ⟨_, rfl, ⟨fun _ => rfl, h.opens, h.stats, h.seeks, h.writable, h.room⟩, rfl, rfl, rfl⟩

/-- An open file grows to where it has been asked to. Source: `CacheFile::growFile`. Kind: L -/
theorem growFile (h : Ready a s) (hfd : s.fd = true) {stop : ℕ} (hlt : stop < 2 ^ 64)
    (hgt : s.file_size < stop) : s.growFile a (sub64 stop s.file_size) =
      ({ s with length := stop, file_size := stop }, .ok ()) := by
  have hsized := h.sized hfd
  have hsub : sub64 stop s.file_size = stop - s.file_size := by
    unfold sub64
    omega
  have hroom := h.room
  have hall : stop - s.length ≤ a.room := by omega
  have hend : s.length + (stop - s.length) = stop := by omega
  have hwrap : u64 stop = stop := u64_of_lt hlt
  unfold CacheFile.growFile CacheFile.reopen
  rw [if_pos hfd, hsub]
  simp [h.writable, h.seeks, h.stats, growLoop_eq, hsized, hall, hend, hwrap]

/-- Mapping leaves the file as long as the bytes of the file it maps. Source: `torrent/cachefile.h`,
`torrent/cachefile.cpp`. Kind: L -/
theorem length_map (h : Ready a s) {thing off size : ℕ} {mode : Mode} {file : List UInt8}
    (hfile : file.length = s.length) : (s.map ps a thing off size mode).1.length =
      ((Storage.CacheFile.map file s.max_size off size).getD file).length := by
  obtain ⟨t, hopen, ht, hfd, hlength, hmax_size⟩ := h.reopen mode
  have hlt : u64 (off + size) < 2 ^ 64 := u64_lt _
  have hsized := ht.sized hfd
  unfold CacheFile.map Storage.CacheFile.map CacheFile.reach
  rw [hopen, hfile, ← hlength, ← hmax_size, ← hsized]
  dsimp only
  rw [if_neg (by simp [ht.writable])]
  by_cases hmax : u64 (off + size) > t.max_size
  · rw [if_pos hmax, if_pos hmax]
    show t.length = file.length
    omega
  · rw [if_neg hmax, if_neg hmax]
    by_cases hgrow : u64 (off + size) > t.file_size
    · rw [if_pos hgrow, if_pos hgrow, ht.growFile hfd hlt hgrow, Option.getD_some, length_writeAt,
        List.length_nil, Nat.add_zero, max_eq_right (by omega)]
      cases a.base <;> rfl
    · rw [if_neg hgrow, if_neg hgrow, Option.getD_some, hfile, ← hlength]
      cases a.base <;> rfl

/-- Writing leaves the file as long as the bytes of the file that is written.
Source: `CacheFile::write`. Kind: L -/
theorem length_write (h : Ready a s) {size off : ℕ} {file buf : List UInt8}
    (hfile : file.length = s.length) (hbuf : buf.length = size) (hpos : 0 < size)
    (hcount : size ≤ a.count) (hmax : size ≤ Storage.CacheFile.maxTransfer) (hoff : off < 2 ^ 64) :
    ∃ file', Storage.CacheFile.write file buf off = some file' ∧
      (s.write a size off).1.length = file'.length := by
  obtain ⟨t, hopen, ht, hfd, hlength, -⟩ := h.reopen .rw
  have hsized := ht.sized hfd
  have hput : ∀ t : CacheFile, (t.put (!s.fd) size off).length = max t.length (off + size) := by
    intro t
    unfold CacheFile.put
    cases s.fd <;> simp [hpos]
  refine ⟨writeAt file off buf, if_neg (by rw [hbuf]; exact not_lt.mpr hmax), ?_⟩
  unfold CacheFile.write
  rw [hopen, length_writeAt, hfile, hbuf, ← hlength]
  dsimp only
  rw [if_neg (by simp [ht.writable]), min_eq_left hcount]
  by_cases hgrow : t.file_size < off
  · rw [if_pos hgrow, ht.growFile hfd hoff hgrow]
    dsimp only
    rw [if_neg (by simp [ht.seeks]), if_neg (not_not.mpr rfl)]
    split_ifs <;> simp only [hput] <;> omega
  · rw [if_neg hgrow]
    dsimp only
    rw [if_neg (by simp [ht.seeks]), if_neg (not_not.mpr rfl)]
    split_ifs <;> simp only [hput]

end Ready

end CacheFile

/-! ### The table and the memory -/

/-- The pages mapped are those of the entries, no two of which share one. Kind: D -/
structure Backed (s : CacheFile) : Prop where
  entry : ∀ p e, (p, e) ∈ s.mappings.entries →
    p = e.ptr + e.diff ∧ ps ∣ e.ptr ∧ e.diff = e.offset % ps ∧ 0 < e.size ∧ 0 < e.ptr
  clear : ∀ p e q f, (p, e) ∈ s.mappings.entries → (q, f) ∈ s.mappings.entries → p ≠ q →
    Disjoint (pagesOf ps e.ptr e.size) (pagesOf ps f.ptr f.size)
  pages : ∀ n, n ∈ s.pages ↔
    ∃ p e, (p, e) ∈ s.mappings.entries ∧ n ∈ pagesOf ps e.ptr e.size

namespace Backed

variable {ps} {s s' : CacheFile}

/-- The first page of a mapping is one of its pages. Source: `torrent/cachefile.h`,
`torrent/cachefile.cpp`. Kind: L -/
theorem first_page (hps : 0 < ps) {addr size : ℕ} (h : 0 < size) :
    addr / ps ∈ pagesOf ps addr size := by
  refine Finset.mem_Ico.mpr ⟨le_rfl, ?_⟩
  have hnext : (addr + ps) / ps = addr / ps + 1 := Nat.add_div_right addr hps
  have hle : (addr + ps) / ps ≤ (addr + size + ps - 1) / ps := Nat.div_le_div_right (by omega)
  omega

/-- Mappings stay backed while none is touched. Source: `torrent/cachefile.h`,
`torrent/cachefile.cpp`. Kind: L -/
theorem of_touches (h : Backed ps s) (ht : Touches s s') : Backed ps s' where
  entry := by
    rw [ht.mappings]
    exact h.entry
  clear := by
    rw [ht.mappings]
    exact h.clear
  pages := by
    rw [ht.mappings, ht.pages]
    exact h.pages

/-- Memory is mapped where none is. Source: `torrent/cachefile.h`, `torrent/cachefile.cpp`.
Kind: L -/
theorem insert (h : Backed ps s) {thing off size base : ℕ} (hbase : ps ∣ base) (hpos : 0 < base)
    (hsize : 0 < u32 (size + off % ps))
    (hfree : Disjoint (pagesOf ps base (u32 (size + off % ps))) s.pages)
    (hnew : base + off % ps ∉ s.mappings.keySet) :
    Backed ps (s.insert ps thing off size base) := by
  have hclear : ∀ q f, (q, f) ∈ s.mappings.entries →
      Disjoint (pagesOf ps base (u32 (size + off % ps))) (pagesOf ps f.ptr f.size) :=
    fun q f hq => hfree.mono_right fun n hn => (h.pages n).mpr ⟨q, f, hq, hn⟩
  refine ⟨fun p e hp => ?_, fun p e q f hp hq hpq => ?_, fun n => ?_⟩
  · rcases SortedMap.mem_put.mp hp with heq | ⟨hp, -⟩
    · cases heq
      exact ⟨rfl, hbase, rfl, hsize, hpos⟩
    · exact h.entry p e hp
  · rcases SortedMap.mem_put.mp hp with heq | ⟨hp, -⟩
    · rcases SortedMap.mem_put.mp hq with heq' | ⟨hq, -⟩
      · cases heq
        cases heq'
        exact absurd rfl hpq
      · cases heq
        exact hclear q f hq
    · rcases SortedMap.mem_put.mp hq with heq' | ⟨hq, -⟩
      · cases heq'
        exact (hclear p e hp).symm
      · exact h.clear p e q f hp hq hpq
  · show n ∈ s.pages ∪ _ ↔ _
    rw [Finset.mem_union, h.pages]
    constructor
    · rintro (⟨p, e, hp, hn⟩ | hn)
      · refine ⟨p, e, SortedMap.mem_put.mpr (.inr ⟨hp, fun heq => hnew ?_⟩), hn⟩
        exact SortedMap.mem_keySet.mpr ⟨e, heq ▸ hp⟩
      · exact ⟨_, _, SortedMap.mem_put.mpr (.inl rfl), hn⟩
    · rintro ⟨p, e, hp, hn⟩
      rcases SortedMap.mem_put.mp hp with heq | ⟨hp, -⟩
      · cases heq
        exact .inr hn
      · exact .inl ⟨p, e, hp, hn⟩

/-- The memory of an entry is unmapped, and the entry removed. Source: `torrent/cachefile.h`,
`torrent/cachefile.cpp`. Kind: L -/
theorem release (h : Backed ps s) {p : ℕ} {e : Entry} (hp : (p, e) ∈ s.mappings.entries)
    (hpages : s'.pages = munmap ps e.ptr e.size s.pages)
    (hmap : s'.mappings = s.mappings.erase p) : Backed ps s' := by
  obtain ⟨-, hptr, -, hsize, -⟩ := h.entry p e hp
  have hmunmap : s'.pages = s.pages \ pagesOf ps e.ptr e.size := by
    rw [hpages, munmap, if_neg]
    rw [not_or, not_not]
    exact ⟨Nat.mod_eq_zero_of_dvd hptr, hsize.ne'⟩
  refine ⟨fun q f hq => ?_, fun q f q' f' hq hq' => ?_, fun n => ?_⟩
  · rw [hmap] at hq
    exact h.entry q f (SortedMap.mem_erase hq)
  · rw [hmap] at hq hq'
    exact h.clear q f q' f' (SortedMap.mem_erase hq) (SortedMap.mem_erase hq')
  · rw [hmunmap, Finset.mem_sdiff, h.pages, hmap]
    constructor
    · rintro ⟨⟨q, f, hq, hn⟩, hnot⟩
      refine ⟨q, f, SortedMap.mem_erase_iff.mpr ⟨hq, fun heq => hnot ?_⟩, hn⟩
      subst heq
      rwa [SortedMap.eq_of_mem hp hq]
    · rintro ⟨q, f, hq, hn⟩
      obtain ⟨hq, hne⟩ := SortedMap.mem_erase_iff.mp hq
      exact ⟨⟨q, f, hq, hn⟩, Finset.disjoint_left.mp (h.clear q f p e hq hp hne) hn⟩

/-- The start of an unaligned mapping is no pointer of the table. Source: `torrent/cachefile.h`,
`torrent/cachefile.cpp`. Kind: L -/
theorem start_not_mem (h : Backed ps s) (hps : 0 < ps) {p : ℕ} {e : Entry}
    (hp : (p, e) ∈ s.mappings.entries) (hdiff : e.diff ≠ 0) : e.ptr ∉ s.mappings.keySet := by
  intro hmem
  obtain ⟨f, hf⟩ := SortedMap.mem_keySet.mp hmem
  obtain ⟨heq, hptr, -, hsize, -⟩ := h.entry p e hp
  obtain ⟨heq', hptr', hdiff', hsize', -⟩ := h.entry e.ptr f hf
  -- the other mapping starts on the same page, so at the same place
  have hzero : f.diff = 0 := by
    have hdvd : ps ∣ f.diff := (Nat.dvd_add_right hptr').mp (heq' ▸ hptr)
    rw [hdiff'] at hdvd ⊢
    exact Nat.eq_zero_of_dvd_of_lt hdvd (Nat.mod_lt _ hps)
  have hstart : f.ptr = e.ptr := by omega
  have hdisjoint := h.clear p e e.ptr f hp hf (by omega)
  rw [hstart] at hdisjoint
  exact Finset.disjoint_left.mp hdisjoint (first_page hps hsize) (first_page hps hsize')

end Backed

namespace CacheFile

variable {ps} {s : CacheFile}

/-- **One round of closing**: an aligned mapping is gone, any other stays.
Source: `CacheFile::close`. Kind: L -/
theorem closeOne_spec (hps : 0 < ps) (h : Backed ps s) (p : ℕ) : Backed ps (s.closeOne ps p) ∧
    ∀ q f, (q, f) ∈ (s.closeOne ps p).mappings.entries ↔
      (q, f) ∈ s.mappings.entries ∧ (q = p → f.diff ≠ 0) := by
  unfold closeOne
  cases hfind : s.mappings.find? p with
  | none =>
    refine ⟨h, fun q f => (and_iff_left_of_imp fun hq => ?_).symm⟩
    rintro rfl
    exact absurd (SortedMap.mem_keySet.mpr ⟨f, hq⟩) (SortedMap.find?_eq_none_iff.mp hfind)
  | some e =>
    have hp := SortedMap.find?_eq_some_iff.mp hfind
    obtain ⟨heq, hptr, hdiff, hsize, hpos⟩ := h.entry p e hp
    dsimp only
    by_cases hzero : e.diff = 0
    · have hself : e.ptr = p := by omega
      refine ⟨h.release hp ?_ (by rw [hself]), fun q f => ?_⟩
      · rw [hzero]
        rfl
      · rw [hself, SortedMap.mem_erase_iff]
        refine and_congr_right fun hq => ⟨fun hne heq => absurd heq hne, fun hne heq => ?_⟩
        obtain rfl : q = p := heq
        exact hne rfl (by rw [SortedMap.eq_of_mem hq hp, hzero])
    · -- the system refuses, and the table has no such key
      have hrefused : munmap ps (e.ptr - e.diff) e.size s.pages = s.pages := by
        refine if_pos (.inl fun hmod => ?_)
        have hlt : e.diff < ps := hdiff ▸ Nat.mod_lt _ hps
        have hle : ps ≤ e.ptr := Nat.le_of_dvd hpos hptr
        have hdvd : ps ∣ e.diff := by
          have hsub := Nat.dvd_sub hptr (Nat.dvd_of_mod_eq_zero hmod)
          rwa [Nat.sub_sub_self (by omega)] at hsub
        exact hzero (Nat.eq_zero_of_dvd_of_lt hdvd hlt)
      have hkept : ∀ x, x ∈ (s.mappings.erase e.ptr).entries ↔ x ∈ s.mappings.entries := by
        intro x
        rw [SortedMap.mem_erase_iff]
        refine and_iff_left_of_imp fun hx heq => h.start_not_mem hps hp hzero ?_
        exact SortedMap.mem_keySet.mpr ⟨x.2, heq ▸ hx⟩
      refine ⟨⟨fun q f hq => ?_, fun q f q' f' hq hq' => ?_, fun n => ?_⟩, fun q f => ?_⟩
      · exact h.entry q f ((hkept _).mp hq)
      · exact h.clear q f q' f' ((hkept _).mp hq) ((hkept _).mp hq')
      · rw [hrefused, h.pages]
        exact exists_congr fun q => exists_congr fun f => and_congr_left fun _ => (hkept _).symm
      · rw [hkept]
        refine (and_iff_left_of_imp fun hq heq => ?_).symm
        subst heq
        rwa [SortedMap.eq_of_mem hq hp]

/-- Closing leaves the unaligned mappings. Source: `CacheFile::close`. Kind: L -/
theorem close_spec (hps : 0 < ps) (h : Backed ps s) (hfd : s.fd = true) : Backed ps (s.close ps) ∧
    ∀ q f, (q, f) ∈ (s.close ps).mappings.entries ↔ (q, f) ∈ s.mappings.entries ∧ f.diff ≠ 0 := by
  have hloop : ∀ (l : List ℕ) (s : CacheFile), Backed ps s → Backed ps (l.foldl (closeOne ps) s) ∧
      ∀ q f, (q, f) ∈ (l.foldl (closeOne ps) s).mappings.entries ↔
        (q, f) ∈ s.mappings.entries ∧ (q ∈ l → f.diff ≠ 0) := by
    intro l
    induction l with
    | nil => exact fun s h => ⟨h, by simp⟩
    | cons p l ih =>
      intro s h
      obtain ⟨hone, hentries⟩ := closeOne_spec hps h p
      obtain ⟨hrest, hentries'⟩ := ih (s.closeOne ps p) hone
      refine ⟨hrest, fun q f => ?_⟩
      rw [List.foldl_cons, hentries', hentries, and_assoc, List.mem_cons, or_imp]
  unfold close
  rw [if_neg (by simp [hfd])]
  obtain ⟨hbacked, hentries⟩ := hloop (s.mappings.entries.map Prod.fst) s h
  refine ⟨⟨hbacked.entry, hbacked.clear, hbacked.pages⟩, fun q f => (hentries q f).trans ?_⟩
  refine and_congr_right fun hq => ⟨fun hne => hne ?_, fun hne _ => hne⟩
  exact List.mem_map_of_mem hq

/-- Closing tells everyone in the table that nothing is mapped any more. Source: `CacheFile::close`.
Kind: L -/
theorem told_close (hps : 0 < ps) (h : Backed ps s) (hfd : s.fd = true) :
    (s.close ps).told = s.told ++ s.mappings.entries.map fun x => x.2.thing := by
  have hloop : ∀ (l : List (ℕ × Entry)) (s : CacheFile), Backed ps s →
      (∀ x ∈ l, x ∈ s.mappings.entries) → (l.map Prod.fst).Nodup →
      ((l.map Prod.fst).foldl (closeOne ps) s).told = s.told ++ l.map fun x => x.2.thing := by
    intro l
    induction l with
    | nil => intro s _ _ _; simp
    | cons x l ih =>
      intro s h hmem hnodup
      obtain ⟨p, e⟩ := x
      obtain ⟨hone, hentries⟩ := closeOne_spec hps h p
      obtain ⟨hnot, hnodup⟩ := List.nodup_cons.mp hnodup
      have htold : (s.closeOne ps p).told = s.told ++ [e.thing] := by
        unfold closeOne
        rw [SortedMap.find?_eq_some_iff.mpr (hmem _ (List.mem_cons_self ..))]
      rw [List.map_cons, List.foldl_cons, ih _ hone (fun x hx => ?_) hnodup, htold]
      · simp
      · -- the round is about another pointer
        refine (hentries x.1 x.2).mpr ⟨hmem x (List.mem_cons_of_mem _ hx), fun heq => ?_⟩
        have hin : x.1 ∈ l.map Prod.fst := List.mem_map_of_mem hx
        exact absurd (heq ▸ hin) hnot
  unfold close
  rw [if_neg (by simp [hfd])]
  exact hloop _ s h (fun x hx => hx) s.mappings.nodup_keys

/-- Closing leaves the length of the file and the size that was found. Source: `CacheFile::close`.
Kind: L -/
theorem sizes_close (s : CacheFile) :
    (s.close ps).length = s.length ∧ (s.close ps).file_size = s.file_size := by
  have hloop : ∀ (l : List ℕ) (s : CacheFile), (l.foldl (closeOne ps) s).length = s.length ∧
      (l.foldl (closeOne ps) s).file_size = s.file_size := by
    intro l
    induction l with
    | nil => exact fun s => ⟨rfl, rfl⟩
    | cons p l ih =>
      intro s
      rw [List.foldl_cons, (ih _).1, (ih _).2]
      unfold closeOne
      split <;> exact ⟨rfl, rfl⟩
  unfold close
  split_ifs
  · exact ⟨rfl, rfl⟩
  · exact hloop _ s

/-- Closing keeps the length. Source: `CacheFile::close`. Kind: L -/
@[simp] theorem length_close : (s.close ps).length = s.length := (sizes_close s).1

/-- Closing keeps the size that is remembered. Source: `CacheFile::close`. Kind: L -/
@[simp] theorem file_size_close : (s.close ps).file_size = s.file_size := (sizes_close s).2

end CacheFile

/-! ### The pointers in use -/

/-- Every pointer in use is in the table, with memory that is mapped for the range it was asked for
with, which is in the file; besides them the table has those taken back, whose offsets are not
aligned. Kind: D -/
structure Sound (u : Users) : Prop where
  backed : Backed ps u.file
  keys : u.file.mappings.keySet = u.held ∪ u.lost
  apart : Disjoint u.held u.lost
  odd : ∀ p e, (p, e) ∈ u.file.mappings.entries → p ∈ u.lost → e.diff ≠ 0
  opened : u.held.Nonempty → u.file.fd = true
  sized : u.file.file_size ≤ u.file.length
  within : ∀ p ∈ u.held, ∀ e, (p, e) ∈ u.file.mappings.entries →
    e.offset = (u.asked p).1 ∧ e.size = (u.asked p).2 + e.diff ∧
      (u.asked p).1 + (u.asked p).2 ≤ u.file.length

namespace Sound

variable {ps} {u : Users}

/-- Nothing is mapped in a file that has not been used. Source: `torrent/cachefile.h`,
`torrent/cachefile.cpp`. Kind: L -/
theorem fresh (max_size length : ℕ) : Sound ps { file := { max_size, length } } where
  backed := ⟨nofun, nofun, fun n => ⟨nofun, fun ⟨_, _, hp, _⟩ => by cases hp⟩⟩
  keys := rfl
  apart := Finset.disjoint_empty_left _
  odd := nofun
  opened := nofun
  sized := Nat.zero_le _
  within := nofun

/-- What maps and unmaps nothing keeps the pointers in use. Source: `torrent/cachefile.h`,
`torrent/cachefile.cpp`. Kind: L -/
theorem access (h : Sound ps u) {s : CacheFile} (ht : Touches u.file s) :
    Sound ps { u with file := s } where
  backed := h.backed.of_touches ht
  keys := by
    rw [← h.keys]
    exact congrArg _ ht.mappings
  apart := h.apart
  odd p e hp := h.odd p e (ht.mappings ▸ hp)
  opened hheld := by
    refine ht.fd (h.opened hheld) ?_
    obtain ⟨p, hp⟩ := hheld
    rw [← SortedMap.card_keySet, h.keys]
    exact Finset.card_pos.mpr ⟨p, Finset.mem_union_left _ hp⟩
  sized := ht.sized h.sized
  within p hheld e hp :=
    have ⟨hoff, hsize, hin⟩ := h.within p hheld e (ht.mappings ▸ hp)
    ⟨hoff, hsize, hin.trans ht.length⟩

/-- Free memory has no pointer in the table. Source: `torrent/cachefile.h`, `torrent/cachefile.cpp`.
Kind: L -/
theorem new_pointer (hps : 0 < ps) {s : CacheFile} (h : Backed ps s) {off size base : ℕ}
    (hbase : ps ∣ base) (hsize : 0 < size) (hfree : Disjoint (pagesOf ps base size) s.pages) :
    base + off % ps ∉ s.mappings.keySet := by
  intro hmem
  obtain ⟨e, he⟩ := SortedMap.mem_keySet.mp hmem
  obtain ⟨heq, hptr, hdiff, hesize, -⟩ := h.entry _ e he
  have hstart : base / ps = e.ptr / ps := by
    have hlt : e.diff < ps := hdiff ▸ Nat.mod_lt _ hps
    have hleft : (base + off % ps) / ps = base / ps := by
      obtain ⟨k, rfl⟩ := hbase
      rw [Nat.mul_add_div hps, Nat.div_eq_of_lt (Nat.mod_lt _ hps), Nat.mul_div_cancel_left _ hps,
        Nat.add_zero]
    have hright : (e.ptr + e.diff) / ps = e.ptr / ps := by
      obtain ⟨k, hk⟩ := hptr
      rw [hk, Nat.mul_add_div hps, Nat.div_eq_of_lt hlt, Nat.mul_div_cancel_left _ hps,
        Nat.add_zero]
    rw [← hleft, heq, hright]
  refine Finset.disjoint_left.mp hfree (Backed.first_page hps hsize) ?_
  exact (h.pages _).mpr ⟨_, e, he, hstart ▸ Backed.first_page hps hesize⟩

/-- Mapping keeps the bookkeeping sound. Source: `torrent/cachefile.h`, `torrent/cachefile.cpp`.
Kind: L -/
theorem map (hps : 0 < ps) (h : Sound ps u) {a : Answers} {thing off size : ℕ} {mode : Mode}
    (hcall : u.Called ps (.map a thing off size mode)) :
    Sound ps (u.step ps (.map a thing off size mode)) := by
  obtain ⟨hoff, hsmall, hfree⟩ := hcall
  rcases u.file.map_spec ps a thing off size mode with ⟨hnone, ht⟩ | ⟨s, base, ht, hbase, hfd, hlen,
    hmap⟩
  · have hheld : (u.step ps (.map a thing off size mode)) =
        { u with file := (u.file.map ps a thing off size mode).1 } := by
      unfold Users.step
      cases hr : (u.file.map ps a thing off size mode).2 with
      | error e => simp only [hr]
      | ok v =>
        cases v with
        | none => simp only [hr]
        | some p => exact absurd hr (hnone p)
    rw [hheld]
    exact h.access ht
  · obtain ⟨hdvd, hpos, hsize, hclear⟩ := hfree base hbase
    have hmod : off % ps < ps := Nat.mod_lt _ hps
    have hfits : u32 (size + off % ps) = size + off % ps := u32_of_lt hsmall
    have hs := h.access ht
    rw [← ht.pages] at hclear
    have hnew : base + off % ps ∉ s.mappings.keySet :=
      new_pointer hps hs.backed hdvd (by omega) hclear
    have hstep : u.step ps (.map a thing off size mode) =
        { u with
          file := s.insert ps thing off size base
          held := Insert.insert (base + off % ps) u.held
          asked := Function.update u.asked (base + off % ps) (off, size) } := by
      simp only [Users.step, hmap]
    rw [hstep]
    have hkeys : s.mappings.keySet = u.held ∪ u.lost := hs.keys
    rw [hkeys, Finset.mem_union, not_or] at hnew
    refine ⟨hs.backed.insert hdvd hpos (by omega) hclear ?_, ?_, ?_, fun p e hp hlost => ?_,
      fun _ => hfd, hs.sized, fun p hheld e hp => ?_⟩
    · rw [hkeys, Finset.mem_union, not_or]
      exact hnew
    · show (s.mappings.put _ _).keySet = _
      rw [SortedMap.keySet_put, hkeys, Finset.insert_union]
    · rw [Finset.disjoint_insert_left]
      exact ⟨hnew.2, h.apart⟩
    · rcases SortedMap.mem_put.mp hp with heq | ⟨hp, -⟩
      · cases heq
        exact absurd hlost hnew.2
      · exact hs.odd p e hp hlost
    · show _ = (Function.update u.asked _ _ p).1 ∧ _ = (Function.update u.asked _ _ p).2 + _ ∧
        (Function.update u.asked _ _ p).1 + (Function.update u.asked _ _ p).2 ≤ s.length
      rcases SortedMap.mem_put.mp hp with heq | ⟨hp, hne⟩
      · cases heq
        have hend : u64 (off + size) = off + size := u64_of_lt hoff
        have hreach := hlen h.sized
        rw [Function.update_self]
        exact ⟨rfl, hfits, by omega⟩
      · rw [Function.update_of_ne hne]
        exact hs.within p (Finset.mem_of_mem_insert_of_ne hheld hne) e hp

/-- Giving back a pointer that is held keeps the bookkeeping sound. Source: `CacheFile::unmap`.
Kind: L -/
theorem unmap (h : Sound ps u) {ptr size : ℕ} (hptr : ptr ∈ u.held) :
    Sound ps (u.step ps (.unmap ptr size)) := by
  have hkey : ptr ∈ u.file.mappings.keySet := h.keys ▸ Finset.mem_union_left _ hptr
  obtain ⟨e, he⟩ := SortedMap.mem_keySet.mp hkey
  obtain ⟨heq, -⟩ := h.backed.entry ptr e he
  have hfind : u.file.mappings.find? ptr = some e := SortedMap.find?_eq_some_iff.mpr he
  let s : CacheFile := { u.file with
    pages := munmap ps (ptr - e.diff) e.size u.file.pages
    mappings := u.file.mappings.erase ptr }
  have hstart : ptr - e.diff = e.ptr := by omega
  have hs : Sound ps { u with file := s, held := u.held.erase ptr } := by
    refine ⟨h.backed.release he (congrArg (munmap ps · e.size u.file.pages) hstart) rfl, ?_, ?_,
      fun p f hp => ?_, fun hheld => ?_, h.sized, fun p hheld f hp => ?_⟩
    · show (u.file.mappings.erase ptr).keySet = _
      rw [SortedMap.keySet_erase, h.keys, Finset.erase_union_distrib,
        Finset.erase_eq_of_notMem (Finset.disjoint_left.mp h.apart hptr)]
    · exact h.apart.mono_left (Finset.erase_subset _ _)
    · exact h.odd p f (SortedMap.mem_erase hp)
    · exact h.opened (hheld.mono (Finset.erase_subset _ _))
    · exact h.within p (Finset.mem_of_mem_erase hheld) f (SortedMap.mem_erase hp)
  have hstep : u.step ps (.unmap ptr size) =
      { u with
        file := if s.mappings.size = 0 then s.closeTemporary else s
        held := u.held.erase ptr } := by
    show { u with file := u.file.unmap ps ptr size, held := u.held.erase ptr } = _
    unfold CacheFile.unmap
    rw [hfind]
  rw [hstep]
  refine hs.access ?_
  split_ifs
  · exact Touches.closeTemporary s
  · exact Touches.refl s

/-- Closing keeps the bookkeeping sound. Source: `CacheFile::close`. Kind: L -/
theorem close (hps : 0 < ps) (h : Sound ps u) : Sound ps (u.step ps .close) := by
  unfold Users.step
  split_ifs with hfd
  · exact h
  · obtain ⟨hbacked, hentries⟩ := CacheFile.close_spec hps h.backed (by simpa using hfd)
    refine ⟨hbacked, ?_, Finset.disjoint_empty_left _, fun p e hp _ => ((hentries p e).mp hp).2,
      nofun, ?_, nofun⟩
    · ext p
      simp only [SortedMap.mem_keySet, hentries, Finset.empty_union, Finset.mem_union,
        Finset.mem_filter]
      constructor
      · rintro ⟨e, he, hdiff⟩
        have hkey : p ∈ u.held ∪ u.lost := h.keys ▸ SortedMap.mem_keySet.mpr ⟨e, he⟩
        rcases Finset.mem_union.mp hkey with hheld | hlost
        · refine .inr ⟨hheld, ?_⟩
          rw [Users.unaligned, SortedMap.find?_eq_some_iff.mpr he]
          have hmod := (h.backed.entry p e he).2.2.1
          simpa [← hmod] using hdiff
        · exact .inl hlost
      · intro hp
        have hkey : p ∈ u.file.mappings.keySet := by
          rw [h.keys, Finset.mem_union]
          exact hp.elim .inr fun hheld => .inl hheld.1
        obtain ⟨e, he⟩ := SortedMap.mem_keySet.mp hkey
        refine ⟨e, he, ?_⟩
        rcases hp with hlost | ⟨-, hodd⟩
        · exact h.odd p e he hlost
        · rw [Users.unaligned, SortedMap.find?_eq_some_iff.mpr he] at hodd
          rw [(h.backed.entry p e he).2.2.1]
          simpa using hodd
    · show (u.file.close ps).file_size ≤ (u.file.close ps).length
      rw [CacheFile.length_close, CacheFile.file_size_close]
      exact h.sized

/-- **One call keeps every pointer in use.**. Source: `torrent/cachefile.h`,
`torrent/cachefile.cpp`. Kind: L -/
theorem step (hps : 0 < ps) (h : Sound ps u) (e : Event) (hcall : u.Called ps e) :
    Sound ps (u.step ps e) := by
  cases e with
  | map a thing off size mode => exact h.map hps hcall
  | unmap ptr size => exact h.unmap hcall
  | close => exact h.close hps
  | read a size off => exact h.access (CacheFile.touches_read a size off u.file)
  | write a size off => exact h.access (CacheFile.touches_write a size off u.file)
  | diskUsage a => exact h.access (CacheFile.touches_diskUsage a u.file)

/-- What is mapped after closing are the mappings whose offset is not aligned.
Source: `CacheFile::close`. Kind: L -/
theorem pages_close (hps : 0 < ps) (h : Sound ps u) (hfd : u.file.fd = true) (n : ℕ) :
    n ∈ (u.file.close ps).pages ↔ ∃ p e, (p, e) ∈ u.file.mappings.entries ∧ e.offset % ps ≠ 0 ∧
      n ∈ pagesOf ps e.ptr e.size := by
  obtain ⟨hbacked, hentries⟩ := CacheFile.close_spec hps h.backed hfd
  refine (hbacked.pages n).trans (exists_congr fun p => exists_congr fun e => ?_)
  rw [hentries, and_assoc]
  refine and_congr_right fun hp => ?_
  rw [(h.backed.entry p e hp).2.2.1]

end Sound

/-- **The memory of a pointer in use stays mapped**: on every run the file is open while a pointer
is in use; the pages from the start of the one with the pointer to the last one of the range that
was asked for are mapped, at the offset that was asked for, the range is in the file, and no other
mapping has one of these pages; what else is mapped are the offsets that were not aligned when the
file was closed; and closing tells everyone in the table, and leaves mapped exactly what is not
aligned. Source: `torrent/cachefile.h`, `torrent/cachefile.cpp`. Kind: P -/
theorem mapped_run {ps max_size length : ℕ} (hps : 0 < ps) {es : List Event}
    (hcalled : Meets (Users.step ps) (Users.Called ps) { file := { max_size, length } } es) :
    let u := run (Users.step ps) { file := { max_size, length } } es
    (∀ p ∈ u.held, ∀ off size, u.asked p = (off, size) → u.file.fd = true ∧
        off + size ≤ u.file.length ∧ ∃ e, (p, e) ∈ u.file.mappings.entries ∧
        e.offset = off ∧ p = e.ptr + off % ps ∧ ps ∣ e.ptr ∧ e.size = size + off % ps ∧
        pagesOf ps e.ptr e.size ⊆ u.file.pages ∧
        ∀ q f, (q, f) ∈ u.file.mappings.entries → p ≠ q →
          Disjoint (pagesOf ps e.ptr e.size) (pagesOf ps f.ptr f.size)) ∧
      (∀ n ∈ u.file.pages, ∃ p e, (p, e) ∈ u.file.mappings.entries ∧
        n ∈ pagesOf ps e.ptr e.size ∧ (p ∈ u.held ∨ p ∈ u.lost ∧ e.offset % ps ≠ 0)) ∧
      (u.file.fd = true →
        (u.file.close ps).told =
            u.file.told ++ u.file.mappings.entries.map (fun x => x.2.thing) ∧
          ∀ n, n ∈ (u.file.close ps).pages ↔ ∃ p e, (p, e) ∈ u.file.mappings.entries ∧
            e.offset % ps ≠ 0 ∧ n ∈ pagesOf ps e.ptr e.size) := by
  have hsound : Sound ps (run (Users.step ps) { file := { max_size, length } } es) :=
    hcalled.invariant (fun u e hu he => hu.step hps e he) (Sound.fresh max_size length)
  intro u
  refine ⟨fun p hp off size hasked => ⟨hsound.opened ⟨p, hp⟩, ?_⟩, fun n hn => ?_, fun hfd =>
    ⟨CacheFile.told_close hps hsound.backed hfd, hsound.pages_close hps hfd⟩⟩
  · have hkey : p ∈ u.file.mappings.keySet := hsound.keys ▸ Finset.mem_union_left _ hp
    obtain ⟨e, he⟩ := SortedMap.mem_keySet.mp hkey
    obtain ⟨hptr, hdvd, hdiff, -, -⟩ := hsound.backed.entry p e he
    obtain ⟨hoff, hsize, hin⟩ := hsound.within p hp e he
    rw [hasked] at hoff hsize hin
    rw [hoff] at hdiff
    rw [hdiff] at hptr hsize
    refine ⟨hin, e, he, hoff, hptr, hdvd, hsize, fun n hn => ?_,
      fun q f hq hne => hsound.backed.clear p e q f he hq hne⟩
    exact (hsound.backed.pages n).mpr ⟨p, e, he, hn⟩
  · obtain ⟨p, e, he, hpage⟩ := (hsound.backed.pages n).mp hn
    refine ⟨p, e, he, hpage, ?_⟩
    have hkey : p ∈ u.held ∪ u.lost := hsound.keys ▸ SortedMap.mem_keySet.mpr ⟨e, he⟩
    rcases Finset.mem_union.mp hkey with hheld | hlost
    · exact .inl hheld
    · refine .inr ⟨hlost, ?_⟩
      rw [← (hsound.backed.entry p e he).2.2.1]
      exact hsound.odd p e he hlost

/-- The system does what it is asked to, and maps memory at `base`. Kind: D -/
def granted (base : ℕ) : Answers := ⟨true, true, true, true, 100, true, true, some base, 100⟩

/-- A page has four bytes; mapped are the bytes 8 to 15, 5 to 7 without alignment, and after the file
has been closed the bytes 48 to 59, for which it grows. Kind: D -/
def sampleCalls : List Event :=
  [.map (granted 16) 1 8 8 .rw, .map (granted 32) 2 5 3 .read, .close,
    .map (granted 64) 3 49 11 .rw]

/-- The file after these calls. Kind: D -/
def sampleUsers : Users :=
  run (Users.step 4) { file := { max_size := 100, length := 50 } } sampleCalls

/-- The pointer in use has the range it was asked for with, in three pages; once the file has been
closed, the bytes that were not aligned stay mapped. Source: `torrent/cachefile.h`,
`torrent/cachefile.cpp`. Kind: L -/
theorem mapped_run_unaligned :
    (65 ∈ sampleUsers.held ∧ 60 ≤ sampleUsers.file.length ∧
      ∃ e, (65, e) ∈ sampleUsers.file.mappings.entries ∧ e.offset = 49 ∧ e.size = 12) ∧
    ∃ p e, (p, e) ∈ sampleUsers.file.mappings.entries ∧ 8 ∈ pagesOf 4 e.ptr e.size ∧
      p ∈ sampleUsers.lost ∧ e.offset % 4 ≠ 0 := by
  have hcalled : Meets (Users.step 4) (Users.Called 4)
      { file := { max_size := 100, length := 50 } } sampleCalls := by
    refine ⟨⟨by decide, by decide, fun base h => ?_⟩, ⟨by decide, by decide, fun base h => ?_⟩,
      trivial, ⟨by decide, by decide, fun base h => ?_⟩, trivial⟩
    · cases h
      decide
    · cases h
      decide
    · cases h
      decide
  have hpage : 8 ∈ sampleUsers.file.pages := by decide
  obtain ⟨huse, hrest, -⟩ := mapped_run (by decide) hcalled
  obtain ⟨-, hin, e, he, hoff, -, -, hsize, -⟩ := huse 65 (by decide) 49 11 (by decide)
  obtain ⟨p, f, hf, hin8, hp⟩ := hrest 8 hpage
  refine ⟨⟨by decide, hin, e, he, hoff, hsize⟩, p, f, hf, hin8, ?_⟩
  rcases hp with hp | hlost
  · -- the pointer in use has other pages
    obtain rfl : p = 65 := by
      have hheld : sampleUsers.held = {65} := by decide
      exact Finset.mem_singleton.mp (hheld ▸ hp)
    obtain ⟨-, -, f', hf', -, hptr, -, hsize', -⟩ := huse 65 (by decide) 49 11 (by decide)
    obtain rfl := SortedMap.eq_of_mem hf hf'
    have hlow := (Finset.mem_Ico.mp hin8).1
    omega
  · exact hlost

end KTorrent.Storage.Mappings
