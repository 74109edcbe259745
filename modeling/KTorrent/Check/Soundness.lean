import KTorrent.Check.Gather

/-!
# What a data check finds

A check goes through all chunks with one buffer. Whatever the files on the disk are like — missing,
cut off, longer, with other contents, excluded with or without their border bytes — a chunk of which
the disk has all bytes is hashed with these bytes, and found downloaded exactly if they have its
hash; what an earlier chunk left in the buffer plays no part.

* `MultiDataChecker.Checked` — what holds after the first chunks have been looked at;
  `checked_check` — after all of them, and the buffer is never left.
* `MultiDataChecker.check_sound` — the result for the chunks that the disk has.
* `SingleDataChecker.check_sound` — the same for a torrent of one file, where nothing is read any
  more after the end of the file was hit.

Source: `datachecker/multidatachecker.cpp`, `datachecker/singledatachecker.cpp`
-/

namespace KTorrent.Check

open KTorrent.Lib KTorrent.Util KTorrent.Storage

namespace MultiDataChecker

variable {L : Layout} {disk : Disk} {excluded : ℕ → Bool}

/-! ### The check -/

/-- **The check of all chunks**, whatever the files on the disk are like. Kind: D -/
structure Checked (disk : Disk) (excluded : ℕ → Bool) (L : Layout) (n : ℕ)
    (s : DataChecker L.torrent.getNumChunks × List UInt8) : Prop where
  length : s.2.length = L.piece_length
  hashed : s.1.hashed.length = n
  /-- Each chunk that was looked at is one or the other. -/
  decided : ∀ c < n, s.1.failed.get c = !s.1.downloaded.get c
  /-- A chunk that the disk has was hashed. -/
  present : ∀ c < n, ∀ bs, Present disk excluded L c bs → s.1.hashed[c]? = some (some bs)
  /-- A chunk is downloaded if what was hashed has its hash. -/
  downloaded : ∀ c < n, s.1.downloaded.get c = true ↔
    ∃ bs, s.1.hashed[c]? = some (some bs) ∧ L.torrent.getHash c = some (generate bs)


/-- One chunk more, of which `e` was hashed. Source: `datachecker/multidatachecker.cpp`,
`datachecker/singledatachecker.cpp`. Kind: L -/
theorem Checked.push {s s' : DataChecker L.torrent.getNumChunks × List UInt8} {n : ℕ}
    (h : Checked disk excluded L n s) (hn : n < L.numChunks) {e : Option (List UInt8)} {o : Bool}
    (hlength : s'.2.length = L.piece_length) (hhashed : s'.1.hashed = s.1.hashed ++ [e])
    (hdown : s'.1.downloaded = s.1.downloaded.set n o)
    (hfail : s'.1.failed = s.1.failed.set n !o)
    (hpresent : ∀ bs, Present disk excluded L n bs → e = some bs)
    (hok : o = true ↔ ∃ bs, e = some bs ∧ L.torrent.getHash n = some (generate bs)) :
    Checked disk excluded L (n + 1) s' := by
  have hn' : n < L.torrent.getNumChunks := hn
  have hold : ∀ c < n, s'.1.hashed[c]? = s.1.hashed[c]? := by
    intro c hc
    rw [hhashed, List.getElem?_append_left (by rw [h.hashed]; exact hc)]
  have hnew : s'.1.hashed[n]? = some e := by
    rw [hhashed, ← h.hashed]
    simp
  have hcases : ∀ c < n + 1, c < n ∨ c = n := fun c hc => Nat.lt_succ_iff_lt_or_eq.mp hc
  refine ⟨hlength, ?_, fun c hc => ?_, fun c hc bs hbs => ?_, fun c hc => ?_⟩
  · rw [hhashed, List.length_append, h.hashed, List.length_singleton]
  · rw [hdown, hfail]
    rcases hcases c hc with hlt | rfl
    · rw [BitSet.get_set_of_ne _ hlt.ne, BitSet.get_set_of_ne _ hlt.ne]
      exact h.decided c hlt
    · rw [BitSet.get_set_self _ hn', BitSet.get_set_self _ hn']
  · rcases hcases c hc with hlt | rfl
    · rw [hold c hlt]
      exact h.present c hlt bs hbs
    · rw [hnew, hpresent bs hbs]
  · rw [hdown]
    rcases hcases c hc with hlt | rfl
    · rw [BitSet.get_set_of_ne _ hlt.ne, hold c hlt]
      exact h.downloaded c hlt
    · rw [BitSet.get_set_self _ hn', hnew, hok]
      simp only [Option.some.injEq]

variable (hp : L.piece_length < 2 ^ 32) (hb : disk.Bounded excluded L)
  (hfiles : 0 < L.numChunks → L.files ≠ [])

include hp hb hfiles

/-- One round. Source: `MultiDataChecker::check`. Kind: L -/
theorem checked_checkChunk {s : DataChecker L.torrent.getNumChunks × List UInt8} {n : ℕ}
    (hn : n < L.numChunks) (h : Checked disk excluded L n s) :
    ∃ s', checkChunk disk excluded L.torrent s n = some s' ∧
      Checked disk excluded L (n + 1) s' := by
  have hsize := sizeOf_eq hp hn
  have hbuf : L.bytesOf n ≤ s.2.length := Layout.bytesOf_le.trans h.length.ge
  obtain ⟨buf, found, hload, hlen⟩ : ∃ buf found,
      loadChunk disk excluded L.torrent n (L.bytesOf n) s.2 = some (buf, found) ∧
        buf.length = s.2.length := loadChunk_total hp hn hb (hfiles (by omega)) hbuf
  cases found with
  | false =>
    refine ⟨_, checkChunk_missing (hsize ▸ hload), h.push hn (o := false) (hlen.trans h.length) rfl
      rfl rfl (fun bs hbs => ?_) (by simp)⟩
    obtain ⟨buf', hload', -⟩ := loadChunk_present hp hn hbs (hfiles (by omega)) hbuf
    rw [hload'] at hload
    simp at hload
  | true =>
    have hpeek : peek buf 0 (L.bytesOf n) = some ((buf.drop 0).take (L.bytesOf n)) :=
      peek_eq (by omega)
    refine ⟨_, checkChunk_loaded (hsize ▸ hload) (hsize ▸ hpeek), h.push hn (hlen.trans h.length)
      rfl rfl rfl (fun bs hbs => ?_) ?_⟩
    · obtain ⟨buf', hload', hlen', hall⟩ := loadChunk_present hp hn hbs (hfiles (by omega)) hbuf
      rw [hload', Option.some.injEq, Prod.mk.injEq] at hload
      have hbytes := hall.peek_eq hbs.length
      rw [hload.1, hpeek] at hbytes
      rw [hsize]
      exact hbytes
    · simp [eq_comm]

/-- **The check of a torrent of several files, for any state of the disk.**.
Source: `MultiDataChecker::check`. Kind: P -/
theorem checked_check (junk : Mem) : ∃ s, check disk excluded L.torrent junk = some s ∧
    Checked disk excluded L L.numChunks s := by
  refine foldlM_range_total (Checked disk excluded L) (fun n s hn h =>
    checked_checkChunk hp hb hfiles hn h) ⟨length_slice _ _ _, rfl, ?_, ?_, ?_⟩
  · intro c hc
    exact absurd hc (Nat.not_lt_zero c)
  · intro c hc
    exact absurd hc (Nat.not_lt_zero c)
  · intro c hc
    exact absurd hc (Nat.not_lt_zero c)

/-- **The check is right about every chunk that the disk has.** A chunk is found downloaded or
failed; one that the disk has is downloaded exactly if it has its hash.
Source: `MultiDataChecker::check`. Kind: P -/
theorem check_sound (junk : Mem) : ∃ s, check disk excluded L.torrent junk = some s ∧
    ∀ c < L.numChunks, s.1.failed.get c = !s.1.downloaded.get c ∧
      ∀ bs, Present disk excluded L c bs →
        (s.1.downloaded.get c = true ↔ L.torrent.getHash c = some (generate bs)) := by
  obtain ⟨s, hrun, h⟩ : ∃ s, check disk excluded L.torrent junk = some s ∧
      Checked disk excluded L L.numChunks s := checked_check hp hb hfiles junk
  refine ⟨s, hrun, fun c hc => ⟨h.decided c hc, fun bs hbs => ?_⟩⟩
  rw [h.downloaded c hc, h.present c hc bs hbs]
  constructor
  · rintro ⟨bs', heq, hhash⟩
    rwa [← Option.some.inj (Option.some.inj heq)] at hhash
  · exact fun hhash => ⟨bs, rfl, hhash⟩

end MultiDataChecker

/-- Two files in two chunks of four bytes. Kind: D -/
def twoFiles : Layout :=
  .checked [] 4 6 [⟨['a'], 3, false⟩, ⟨['b'], 3, false⟩]
    [generate [1, 2, 3, 4], Vector.replicate 20 0] (by decide)

/-- The first file is there, of the other one only the border bytes. Kind: D -/
def partDisk : Disk where
  cache := fun path => if path = ['a'] then some [1, 2, 3] else none
  dnd := fun path => if path = ['b'] then some ⟨1, 0, [4]⟩ else none

/-- The sample's disk is bounded. Source: `datachecker/multidatachecker.cpp`,
`datachecker/singledatachecker.cpp`. Kind: L -/
theorem bounded_partDisk : partDisk.Bounded (fun k => k == 1) twoFiles := by
  intro j d _ hd
  change (if _ then some _ else none) = some d at hd
  split_ifs at hd
  cases hd
  decide

/-- The first chunk, from what is there of each of its two files.
Source: `datachecker/multidatachecker.cpp`, `datachecker/singledatachecker.cpp`. Kind: L -/
theorem present_twoFiles {disk : Disk} {excluded : ℕ → Bool}
    (h0 : part disk excluded twoFiles 0 0 0 = some [1, 2, 3])
    (h1 : part disk excluded twoFiles 0 1 1 = some [4]) :
    Present disk excluded twoFiles 0 [1, 2, 3, 4] := by
  have hpos : twoFiles.torrent.calcChunkPos 0 = [0, 1] := by decide
  refine ⟨by decide, fun j hj => ?_, fun pre j post hj => ?_⟩
  · rw [hpos] at hj
    cases hj
  · rw [hpos] at hj
    match pre with
    | [] =>
      cases hj
      exact h0
    | [_] =>
      cases hj
      exact h1
    | _ :: _ :: pre =>
      rw [List.cons_append, List.cons_append, List.cons.injEq, List.cons.injEq] at hj
      exact absurd hj.2.2 (by simp)

namespace MultiDataChecker

/-- The first chunk is found: three bytes of it are in a file, the fourth is a border byte of the
excluded one. Source: `MultiDataChecker::check`. Kind: L -/
theorem check_sound_partDisk : ∃ s, check partDisk (fun k => k == 1) twoFiles.torrent (fun _ => 0) =
    some s ∧ s.1.downloaded.get 0 = true ∧ s.1.failed.get 0 = false := by
  obtain ⟨s, hrun, hall⟩ := check_sound (L := twoFiles) (by decide) bounded_partDisk
    (fun _ => by decide) (fun _ => 0)
  obtain ⟨hfailed, hpresent⟩ := hall 0 (by decide)
  have hdown := (hpresent [1, 2, 3, 4] (present_twoFiles (by decide) (by decide))).mpr rfl
  exact ⟨s, hrun, hdown, by rw [hfailed, hdown]; rfl⟩

end MultiDataChecker

/-! ### A single file -/

namespace SingleDataChecker

variable (L : Layout) (file : List UInt8) (junk : Mem)

/-- The chunks before `n` are in the file, with all their bytes. Kind: D -/
def FullTo (n : ℕ) : Prop := ∀ c < n, L.chunkEnd c ≤ file.length

/-- What the file has of a chunk. Kind: D -/
def got (c : ℕ) : List UInt8 := (file.drop (L.chunkStart c)).take (L.bytesOf c)

/-- The buffer before chunk `n`, when all chunks before it are in the file. Kind: D -/
def before : ℕ → List UInt8
  | 0 => slice junk 0 L.piece_length
  | n + 1 => got L file n

/-- What is hashed for chunk `n`: what the file has of it, and where that ends, what the buffer had.
Kind: D -/
def hashedAt (n : ℕ) : List UInt8 :=
  got L file n ++ ((before L file junk n).drop (got L file n).length).take
    (L.bytesOf n - (got L file n).length)

variable {L file junk}

/-- The size the checker gives a chunk is its number of bytes. Source: `SingleDataChecker::check`.
Kind: L -/
theorem sizeOf_eq (hp : L.piece_length < 2 ^ 32) {c : ℕ} (hc : c < L.numChunks) :
    sizeOf L.torrent c = L.bytesOf c := by
  have hlt := L.chunks_lt
  have hmod := Nat.mod_lt L.file_length L.piece_pos
  have hlast : sub32 L.torrent.getNumChunks 1 = L.numChunks - 1 :=
    sub32_of_le (show 1 ≤ L.numChunks by omega) hlt
  unfold sizeOf
  rw [hlast]
  show (if c = L.numChunks - 1 ∧ L.file_length % L.piece_length > 0 then
    u32 (L.file_length % L.piece_length) else u32 L.piece_length) = _
  rw [u32_of_lt hp, u32_of_lt (hmod.trans hp)]
  by_cases hend : c = L.numChunks - 1
  · rw [Layout.bytesOf_last (by omega)]
    by_cases hzero : L.file_length % L.piece_length = 0
    · rw [if_pos hzero, if_neg (by omega)]
    · rw [if_neg hzero, if_pos ⟨hend, by omega⟩]
  · rw [if_neg (fun h => hend h.1), Layout.bytesOf_of_succ_lt (by omega)]

/-- How much of a chunk the file has. Source: `datachecker/multidatachecker.cpp`,
`datachecker/singledatachecker.cpp`. Kind: L -/
theorem length_got (c : ℕ) :
    (got L file c).length = min (L.bytesOf c) (file.length - L.chunkStart c) := by
  rw [got, List.length_take, List.length_drop]

/-- A chunk is in the file when nothing of it is missing.
Source: `datachecker/multidatachecker.cpp`, `datachecker/singledatachecker.cpp`. Kind: L -/
theorem full_iff {c : ℕ} (hc : c < L.numChunks) :
    L.chunkEnd c ≤ file.length ↔ (got L file c).length = L.bytesOf c := by
  have hlt := Layout.chunkStart_lt_end hc
  rw [length_got]
  unfold Layout.bytesOf
  omega

/-- What holds before chunk `n` is looked at. Kind: D -/
structure Reached (L : Layout) (file : List UInt8) (junk : Mem) (n : ℕ) (s : State L.torrent) :
    Prop where
  length : s.buf.length = L.piece_length
  eof : s.eof = true ↔ ¬ FullTo L file n
  buf : FullTo L file n → n < L.numChunks → s.buf = before L file junk n
  decided : ∀ c < n, s.checker.failed.get c = !s.checker.downloaded.get c
  downloaded : ∀ c < n, s.checker.downloaded.get c = true ↔
    FullTo L file c ∧ L.torrent.getHash c = some (generate (hashedAt L file junk c))

/-- One more chunk is whole if the file reaches its end. Source: `datachecker/multidatachecker.cpp`,
`datachecker/singledatachecker.cpp`. Kind: L -/
theorem fullTo_succ {n : ℕ} :
    FullTo L file (n + 1) ↔ FullTo L file n ∧ L.chunkEnd n ≤ file.length := by
  constructor
  · exact fun h => ⟨fun c hc => h c (by omega), h n (by omega)⟩
  · rintro ⟨h, hn⟩ c hc
    rcases Nat.lt_succ_iff_lt_or_eq.mp hc with hlt | rfl
    · exact h c hlt
    · exact hn

/-- The bits after one chunk more. Source: `datachecker/multidatachecker.cpp`,
`datachecker/singledatachecker.cpp`. Kind: L -/
theorem Reached.push {n : ℕ} (hn : n < L.numChunks) {s s' : State L.torrent}
    (h : Reached L file junk n s) {o : Bool}
    (hlength : s'.buf.length = L.piece_length) (heof : s'.eof = true ↔ ¬ FullTo L file (n + 1))
    (hbuf : FullTo L file (n + 1) → n + 1 < L.numChunks → s'.buf = got L file n)
    (hdown : s'.checker.downloaded = s.checker.downloaded.set n o)
    (hfail : s'.checker.failed = s.checker.failed.set n !o)
    (hok : o = true ↔
      FullTo L file n ∧ L.torrent.getHash n = some (generate (hashedAt L file junk n))) :
    Reached L file junk (n + 1) s' := by
  have hn' : n < L.torrent.getNumChunks := hn
  refine ⟨hlength, heof, hbuf, fun c hc => ?_, fun c hc => ?_⟩
  · rw [hdown, hfail]
    rcases Nat.lt_succ_iff_lt_or_eq.mp hc with hlt | rfl
    · rw [BitSet.get_set_of_ne _ hlt.ne, BitSet.get_set_of_ne _ hlt.ne]
      exact h.decided c hlt
    · rw [BitSet.get_set_self _ hn', BitSet.get_set_self _ hn']
  · rw [hdown]
    rcases Nat.lt_succ_iff_lt_or_eq.mp hc with hlt | rfl
    · rw [BitSet.get_set_of_ne _ hlt.ne]
      exact h.downloaded c hlt
    · rw [BitSet.get_set_self _ hn', hok]

variable (hp : L.piece_length < 2 ^ 32)

include hp

/-- One round. Source: `SingleDataChecker::check`. Kind: L -/
theorem reached_checkChunk {n : ℕ} (hn : n < L.numChunks) {s : State L.torrent}
    (h : Reached L file junk n s) :
    ∃ s', checkChunk L.torrent file s n = some s' ∧ Reached L file junk (n + 1) s' := by
  by_cases heof : s.eof = true
  · -- the end of the file has been hit
    have hnot := h.eof.mp heof
    have hnot' : ¬ FullTo L file (n + 1) := fun hfull => hnot (fullTo_succ.mp hfull).1
    refine ⟨{ s with checker := s.checker.reject n }, ?_, h.push hn (o := false) h.length ?_ ?_
      rfl rfl ?_⟩
    · unfold checkChunk
      rw [if_pos heof]
    · exact ⟨fun _ => hnot', fun _ => heof⟩
    · exact fun hfull => absurd hfull hnot'
    · exact ⟨fun hf => absurd hf Bool.false_ne_true, fun hfull => absurd hfull.1 hnot⟩
  · have hfull : FullTo L file n := not_not.mp fun hnot => heof (h.eof.mpr hnot)
    have hbuf := h.buf hfull hn
    have hmul := L.mul_lt_of_lt_numChunks hn
    have hlt64 := L.length_lt
    have hle := L.bytesOf_le (c := n)
    have hlen : (got L file n).length = min (L.bytesOf n) (file.length - L.chunkStart n) :=
      length_got n
    have hfits : (got L file n).length ≤ s.buf.length := by
      rw [h.length]
      omega
    have hplace : place s.buf 0 (got L file n) =
        some (got L file n ++ s.buf.drop (got L file n).length) := by
      rw [place_eq (by omega)]
      simp [writeAt]
    have hlength : (got L file n ++ s.buf.drop (got L file n).length).length = L.piece_length := by
      rw [List.length_append, List.length_drop, ← h.length]
      omega
    have hpeek : peek (got L file n ++ s.buf.drop (got L file n).length) 0 (L.bytesOf n) =
        some (hashedAt L file junk n) := by
      rw [peek_eq (by omega), List.drop_zero, List.take_append, hbuf,
        List.take_of_length_le (by omega)]
      rfl
    refine ⟨{ checker := s.checker.compare L.torrent n (hashedAt L file junk n)
              buf := got L file n ++ s.buf.drop (got L file n).length
              eof := decide ((got L file n).length < L.bytesOf n) }, ?_,
      h.push hn (o := decide (some (generate (hashedAt L file junk n)) = L.torrent.getHash n))
        hlength ?_ ?_ rfl rfl ?_⟩
    · unfold checkChunk
      rw [if_neg heof, sizeOf_eq hp hn]
      have hgot : (file.drop (u64 (n * L.torrent.piece_length))).take (L.bytesOf n) =
          got L file n := by
        rw [show L.torrent.piece_length = L.piece_length from rfl, u64_of_lt (by omega)]
        rfl
      simp [hgot, hplace, hpeek]
    · rw [fullTo_succ, full_iff hn, decide_eq_true_eq]
      simp only [hfull, true_and]
      omega
    · intro hfull' hnext
      have hall := (full_iff hn).mp (fullTo_succ.mp hfull').2
      rw [Layout.bytesOf_of_succ_lt hnext] at hall
      rw [List.drop_eq_nil_of_le (by rw [h.length, hall]), List.append_nil]
    · simp [hfull, eq_comm]

/-- **The check of a torrent of one file, for any contents of the file.**.
Source: `SingleDataChecker::check`. Kind: P -/
theorem reached_check : ∃ s, check L.torrent file junk = some s ∧
    Reached L file junk L.numChunks s := by
  refine foldlM_range_total (Reached L file junk) (fun n s hn h => reached_checkChunk hp hn h)
    ⟨?_, ?_, ?_, ?_, ?_⟩
  · exact (length_slice _ _ _).trans (u32_of_lt hp)
  · exact ⟨fun h => absurd h Bool.false_ne_true, fun h => absurd (fun c hc =>
      absurd hc (Nat.not_lt_zero c)) h⟩
  · intro _ _
    show slice junk 0 (u32 L.piece_length) = slice junk 0 L.piece_length
    rw [u32_of_lt hp]
  · intro c hc
    exact absurd hc (Nat.not_lt_zero c)
  · intro c hc
    exact absurd hc (Nat.not_lt_zero c)

/-- **What the check of one file finds, exactly.** A chunk is downloaded or failed; it is downloaded
if all chunks before it are in the file and what is hashed for it has its hash. For a chunk that is
in the file these are its bytes; for the first one that is not, the buffer still has the end of the
chunk before. Source: `SingleDataChecker::check`. Kind: P -/
theorem check_iff (junk : Mem) : ∃ s, check L.torrent file junk = some s ∧
    ∀ c < L.numChunks, s.checker.failed.get c = !s.checker.downloaded.get c ∧
      (s.checker.downloaded.get c = true ↔
        FullTo L file c ∧ L.torrent.getHash c = some (generate (hashedAt L file junk c))) ∧
      (L.chunkEnd c ≤ file.length → hashedAt L file junk c =
        (file.drop (L.chunkStart c)).take (L.bytesOf c)) := by
  obtain ⟨s, hrun, h⟩ : ∃ s, check L.torrent file junk = some s ∧
      Reached L file junk L.numChunks s := reached_check hp
  refine ⟨s, hrun, fun c hc => ⟨h.decided c hc, h.downloaded c hc, fun hfull => ?_⟩⟩
  have hlen := (full_iff hc).mp hfull
  unfold hashedAt
  rw [hlen, Nat.sub_self, List.take_zero, List.append_nil]
  rfl

end SingleDataChecker

/-- One file in three chunks of four bytes. Kind: D -/
def oneFile : Layout :=
  .checked ['a'] 4 10 []
    [generate [1, 2, 3, 4], generate [5, 6, 3, 4], Vector.replicate 20 0] (by decide)

namespace SingleDataChecker

/-- A file that was cut off in its second chunk: the bytes that are missing there are taken to be
those of the first one, and the third chunk is not looked at. Source: `SingleDataChecker::check`.
Kind: L -/
theorem check_iff_cut : ∃ s, check oneFile.torrent [1, 2, 3, 4, 5, 6] (fun _ => 0) = some s ∧
    s.checker.downloaded.get 0 = true ∧ s.checker.downloaded.get 1 = true ∧
      s.checker.downloaded.get 2 = false ∧ s.checker.failed.get 2 = true := by
  obtain ⟨s, hrun, hall⟩ := @check_iff oneFile [1, 2, 3, 4, 5, 6] (by decide) (fun _ => 0)
  obtain ⟨-, hfirst, -⟩ := hall 0 (by decide)
  obtain ⟨-, hsecond, -⟩ := hall 1 (by decide)
  obtain ⟨hfailed, hthird, -⟩ := hall 2 (by decide)
  have hdown : s.checker.downloaded.get 2 = false := by
    rw [← Bool.not_eq_true, hthird]
    exact fun h => absurd (h.1 1 (by decide)) (by decide)
  refine ⟨s, hrun, hfirst.mpr ⟨fun c hc => absurd hc (Nat.not_lt_zero c), rfl⟩,
    hsecond.mpr ⟨fun c hc => ?_, rfl⟩, hdown, by rw [hfailed, hdown]; rfl⟩
  obtain rfl : c = 0 := by omega
  decide

end SingleDataChecker

end KTorrent.Check
