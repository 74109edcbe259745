import KTorrent.Lib.GuardedRun
import KTorrent.Storage.CacheFiles

/-!
# The two chunks of a `DNDFile`

A `DNDFile` keeps two values of any lengths, the first chunk and right behind it the last one, and each
is written over and over again.

* `Reads` — what is read is what was written last.
* `Keeps` — what each write needs for it: where a last chunk is stored, the bytes behind the end of
  the new first chunk must be that last chunk already.
* `reads_run_iff` — **after every write of a run both chunks are read back, if and only if every write
  of the run meets that condition.** `reads_run_of_same_length` — it is met as long as the lengths
  do not change.
* `last_lost` — a first chunk that has grown: the last chunk is not read back.

`writeFirstChunk` has the header say the new size before it looks for the last chunk, and looks behind
the new end.

Source: `torrent/dndfile.h`, `torrent/dndfile.cpp`
-/

namespace KTorrent.Storage

open KTorrent.Lib KTorrent.Util

/-- Bytes with their number in a `Uint32`. Kind: D -/
structure Block where
  bytes : List UInt8
  length_lt : bytes.length < 2 ^ 32

namespace Block

/-- The empty block. Kind: D -/
def empty : Block := ⟨[], by decide⟩

end Block

namespace DNDFile

/-- A write; `junk` is what the temporary buffer holds before it is filled. Kind: D -/
inductive Write
  | first (junk : Mem) (b : Block)
  | last (junk : Mem) (b : Block)

/-- The file, `none` after a write outside a buffer, and what was written last. Kind: D -/
structure Written where
  file : Option DNDFile
  first : Block
  last : Block

namespace Written

/-- A created file. Kind: D -/
def start : Written := ⟨some create, .empty, .empty⟩

/-- The state after a write. Kind: D -/
def step (s : Written) : Write → Written
  | .first junk b => ⟨s.file.bind fun d => d.writeFirstChunk junk b.bytes, b, s.last⟩
  | .last junk b => ⟨s.file.bind fun d => d.writeLastChunk junk b.bytes, s.first, b⟩

/-- Both chunks are read back, into every buffer that has room for them. Kind: D -/
def Reads (s : Written) : Prop :=
  ∃ d, s.file = some d ∧
    (∀ buf off, off + s.first.bytes.length ≤ buf.length → buf.length < 2 ^ 32 →
      d.readFirstChunk buf off buf.length = place buf off s.first.bytes) ∧
    ∀ buf off, off + s.last.bytes.length ≤ buf.length → buf.length < 2 ^ 32 →
      d.readLastChunk buf off buf.length = place buf off s.last.bytes

/-- What a write needs. Kind: D -/
def Keeps (s : Written) : Write → Prop
  | .first junk b => s.last.bytes = [] ∨ (b.bytes.length + s.last.bytes.length < 2 ^ 32 ∧
      ∃ d, s.file = some d ∧
        readFresh junk (d.data.drop b.bytes.length) s.last.bytes.length = s.last.bytes)
  | .last _ b => s.first.bytes.length + b.bytes.length < 2 ^ 32

/-- The file holds the two chunks, one behind the other. Kind: D -/
def Holds (s : Written) : Prop :=
  ∃ rest, s.file = some ⟨s.first.bytes.length, s.last.bytes.length,
    s.first.bytes ++ s.last.bytes ++ rest⟩

end Written

/-! ### Reading -/

/-- Writing at the start of a file. Source: `torrent/dndfile.h`, `torrent/dndfile.cpp`. Kind: L -/
theorem writeAt_zero (data bs : List UInt8) : writeAt data 0 bs = bs ++ data.drop bs.length := by
  simp [writeAt]

/-- As many bytes are read as are asked for. Source: `torrent/dndfile.h`, `torrent/dndfile.cpp`.
Kind: L -/
theorem length_readFresh (junk : Mem) (bytes : List UInt8) (size : ℕ) :
    (readFresh junk bytes size).length = size := by
  unfold readFresh
  rw [length_writeAt, length_slice, List.length_take]
  omega

/-- What is there is read, and the buffer is full. Source: `torrent/dndfile.h`,
`torrent/dndfile.cpp`. Kind: L -/
theorem readFresh_eq (junk : Mem) {bytes : List UInt8} {size : ℕ} (h : size ≤ bytes.length) :
    readFresh junk bytes size = bytes.take size := by
  unfold readFresh
  rw [writeAt_zero, List.drop_eq_nil_of_le, List.append_nil]
  rw [length_slice, List.length_take]
  omega

/-- Nothing is placed. Source: none: infrastructure. Kind: L -/
theorem place_nil {buf : List UInt8} {off : ℕ} (h : off ≤ buf.length) : place buf off [] = some buf := by
  unfold place
  rw [if_pos (by simpa using h)]
  unfold writeAt
  have hz : off - buf.length = 0 := by omega
  simp [hz]

/-- A whole buffer is placed. Source: `torrent/dndfile.h`, `torrent/dndfile.cpp`. Kind: L -/
theorem place_cover {buf bs : List UInt8} (h : bs.length = buf.length) :
    place buf 0 bs = some bs := by
  unfold place
  rw [if_pos (by omega), writeAt_zero, List.drop_eq_nil_of_le (by omega), List.append_nil]

/-- The first part is read where it fits. Source: `DNDFile::readFirstChunk`. Kind: L -/
theorem readFirstChunk_eq {first last rest : List UInt8} {buf : List UInt8} {off : ℕ}
    (h : off + first.length ≤ buf.length) (hlt : buf.length < 2 ^ 32) :
    readFirstChunk ⟨first.length, last.length, first ++ last ++ rest⟩ buf off buf.length =
      place buf off first := by
  unfold readFirstChunk
  dsimp only
  by_cases h0 : first.length = 0
  · rw [if_pos h0, List.eq_nil_of_length_eq_zero h0, place_nil (by omega)]
  · have hu : u32 (first.length + off) = first.length + off := u32_of_lt (by omega)
    rw [if_neg h0, hu, if_neg (show ¬ first.length + off > buf.length by omega), List.append_assoc,
      List.take_left]

/-- The last part is read where it fits. Source: `DNDFile::readLastChunk`. Kind: L -/
theorem readLastChunk_eq {first last rest : List UInt8} {buf : List UInt8} {off : ℕ}
    (h : off + last.length ≤ buf.length) (hlt : buf.length < 2 ^ 32) :
    readLastChunk ⟨first.length, last.length, first ++ last ++ rest⟩ buf off buf.length =
      place buf off last := by
  unfold readLastChunk
  dsimp only
  by_cases h0 : last.length = 0
  · rw [if_pos h0, List.eq_nil_of_length_eq_zero h0, place_nil (by omega)]
  · have hu : u32 (last.length + off) = last.length + off := u32_of_lt (by omega)
    rw [if_neg h0, hu, if_neg (show ¬ last.length + off > buf.length by omega), List.append_assoc,
      List.drop_left, List.take_left]

namespace Written

/-- What the file holds is what is read. Source: `torrent/dndfile.h`, `torrent/dndfile.cpp`.
Kind: L -/
theorem Holds.reads {s : Written} (h : s.Holds) : s.Reads := by
  obtain ⟨rest, hfile⟩ := h
  exact ⟨_, hfile, fun buf off h1 h2 => readFirstChunk_eq h1 h2,
    fun buf off h1 h2 => readLastChunk_eq h1 h2⟩

/-! ### Writing -/

/-- The file after a first chunk. Source: `DNDFile::writeFirstChunk`. Kind: L -/
theorem writeFirstChunk_eq {first last rest : List UInt8} (junk : Mem) (b : List UInt8) :
    writeFirstChunk junk ⟨first.length, last.length, first ++ last ++ rest⟩ b =
      if last.length = 0 then
        some ⟨b.length, last.length, b ++ (first ++ last ++ rest).drop b.length⟩
      else if b.length + last.length < 2 ^ 32 then
        let moved := readFresh junk ((first ++ last ++ rest).drop b.length) last.length
        some ⟨b.length, last.length,
          b ++ moved ++ (first ++ last ++ rest).drop (b.length + last.length)⟩
      else none := by
  unfold writeFirstChunk
  dsimp only
  split_ifs with h0 h1
  · rw [writeAt_zero]
  · rw [writeAt_zero, List.length_append, length_readFresh]
    simp only [guard, if_pos h1]
    rfl
  · simp only [guard, if_neg h1]
    rfl

/-- The file after a last chunk. Source: `DNDFile::writeLastChunk`. Kind: L -/
theorem writeLastChunk_eq {first last rest : List UInt8} (junk : Mem) (b : List UInt8) :
    writeLastChunk junk ⟨first.length, last.length, first ++ last ++ rest⟩ b =
      if first.length + b.length < 2 ^ 32 then
        some ⟨first.length, b.length,
          first ++ b ++ (first ++ last ++ rest).drop (first.length + b.length)⟩
      else none := by
  have hread : readFresh junk (first ++ last ++ rest) first.length = first := by
    rw [readFresh_eq]
    · rw [List.append_assoc, List.take_left]
    · simp
  unfold writeLastChunk
  dsimp only
  rw [hread, writeAt_zero, List.length_append]
  split_ifs with h
  · simp only [guard, if_pos h]
    rfl
  · simp only [guard, if_neg h]
    rfl

section file

variable {s : Written} {rest : List UInt8} (hfile : s.file = some ⟨s.first.bytes.length,
  s.last.bytes.length, s.first.bytes ++ s.last.bytes ++ rest⟩) (junk : Mem) (b : Block)

include hfile

/-- The first part is written. Source: `torrent/dndfile.h`, `torrent/dndfile.cpp`. Kind: L -/
theorem file_first : (s.step (.first junk b)).file = writeFirstChunk junk ⟨s.first.bytes.length,
    s.last.bytes.length, s.first.bytes ++ s.last.bytes ++ rest⟩ b.bytes := by
  rw [step, hfile]
  rfl

/-- The last part is written. Source: `torrent/dndfile.h`, `torrent/dndfile.cpp`. Kind: L -/
theorem file_last : (s.step (.last junk b)).file = writeLastChunk junk ⟨s.first.bytes.length,
    s.last.bytes.length, s.first.bytes ++ s.last.bytes ++ rest⟩ b.bytes := by
  rw [step, hfile]
  rfl

end file

/-- **A write that meets its condition leaves both chunks where they are read.**.
Source: `Torrent::calcChunkPos`. Kind: L -/
theorem holds_step {s : Written} (h : s.Holds) {w : Write} (hw : s.Keeps w) : (s.step w).Holds := by
  obtain ⟨rest, hfile⟩ := h
  cases w with
  | first junk b =>
    have hnew := file_first hfile junk b
    rw [writeFirstChunk_eq] at hnew
    by_cases h0 : s.last.bytes.length = 0
    · -- no last chunk is stored
      rw [if_pos h0] at hnew
      refine ⟨(s.first.bytes ++ s.last.bytes ++ rest).drop b.bytes.length, ?_⟩
      show (s.step (.first junk b)).file = some ⟨b.bytes.length, s.last.bytes.length,
        b.bytes ++ s.last.bytes ++ _⟩
      rw [hnew, List.eq_nil_of_length_eq_zero h0, List.append_nil, List.append_nil]
    · obtain hnil | ⟨hlt, d, hd, hmoved⟩ := hw
      · exact absurd (congrArg List.length hnil) h0
      · rw [hfile] at hd
        cases hd
        rw [if_neg h0, if_pos hlt] at hnew
        dsimp only at hnew hmoved
        rw [hmoved] at hnew
        exact ⟨_, hnew⟩
  | last junk b =>
    have hnew := file_last hfile junk b
    have hlt : s.first.bytes.length + b.bytes.length < 2 ^ 32 := hw
    rw [writeLastChunk_eq, if_pos hlt] at hnew
    exact ⟨_, hnew⟩

/-- **A write after which both chunks are read back has met its condition.**.
Source: `torrent/dndfile.h`, `torrent/dndfile.cpp`. Kind: L -/
theorem keeps_of_reads {s : Written} (h : s.Holds) {w : Write} (hr : (s.step w).Reads) :
    s.Keeps w := by
  obtain ⟨rest, hfile⟩ := h
  obtain ⟨d, hd, -, hlast⟩ := hr
  cases w with
  | first junk b =>
    have hnew := file_first hfile junk b
    rw [writeFirstChunk_eq] at hnew
    by_cases h0 : s.last.bytes.length = 0
    · exact .inl (List.eq_nil_of_length_eq_zero h0)
    · rw [if_neg h0] at hnew
      split_ifs at hnew with hlt
      · refine .inr ⟨hlt, _, hfile, ?_⟩
        rw [hnew] at hd
        cases hd
        obtain ⟨moved, hmoved⟩ : ∃ moved, readFresh junk
            ((s.first.bytes ++ s.last.bytes ++ rest).drop b.bytes.length) s.last.bytes.length =
              moved := ⟨_, rfl⟩
        have hlen : moved.length = s.last.bytes.length := by rw [← hmoved, length_readFresh]
        -- the last chunk is read into a buffer of its size
        have hbuf : (List.replicate s.last.bytes.length (0 : UInt8)).length = s.last.bytes.length :=
          List.length_replicate
        have hread := hlast (List.replicate s.last.bytes.length 0) 0
          (show 0 + s.last.bytes.length ≤ _ by rw [hbuf, Nat.zero_add])
          (by rw [hbuf]; exact s.last.length_lt)
        rw [hmoved, ← hlen, readLastChunk_eq (by simp) (by simpa [hlen] using s.last.length_lt),
          place_cover (by simp)] at hread
        have hplace : place (List.replicate moved.length 0) 0 (s.step (.first junk b)).last.bytes =
            some s.last.bytes := by
          refine place_cover ?_
          rw [List.length_replicate]
          exact hlen.symm
        rw [hplace] at hread
        dsimp only
        rw [hmoved]
        exact Option.some.inj hread
      · rw [hnew] at hd
        cases hd
  | last junk b =>
    have hnew := file_last hfile junk b
    rw [writeLastChunk_eq] at hnew
    split_ifs at hnew with hlt
    · exact hlt
    · rw [hnew] at hd
      cases hd

/-! ### Runs -/

/-- **Two values in one file.** After every write of a run both chunks are read back, if and only if
every write meets its condition: a write behind which no temporary buffer is too short, and, for a
first chunk before a stored last one, with the last chunk behind the end of the new first chunk
already. Source: `torrent/dndfile.h`, `torrent/dndfile.cpp`. Kind: P -/
theorem reads_run_iff (ws : List Write) :
    (∀ pre, pre <+: ws → (run step start pre).Reads) ↔ Meets step Keeps start ws := by
  have hstart : start.Holds := ⟨[], rfl⟩
  constructor
  · have hgen : ∀ (ws : List Write) (s : Written), s.Holds →
        (∀ pre, pre <+: ws → (run step s pre).Reads) → Meets step Keeps s ws := by
      intro ws
      induction ws with
      | nil => exact fun _ _ _ => trivial
      | cons w ws ih =>
        intro s hs hall
        have hw : s.Keeps w := keeps_of_reads hs (hall [w] ⟨ws, rfl⟩)
        refine ⟨hw, ih _ (holds_step hs hw) fun pre hpre => ?_⟩
        exact hall (w :: pre) ((List.prefix_cons_inj w).mpr hpre)
    exact hgen ws start hstart
  · intro h pre hpre
    exact (h.invariant_at (fun s w hs hw => holds_step hs hw) hstart hpre).reads

/-- A write that does not change a length. Kind: D -/
def SameLength (s : Written) : Write → Prop
  | .first _ b => s.last.bytes = [] ∨ b.bytes.length = s.first.bytes.length
  | .last _ b => s.first.bytes.length + b.bytes.length < 2 ^ 32

/-- As long as no first chunk of a new length is written before a stored last one, both chunks are
read back. Source: `torrent/dndfile.h`, `torrent/dndfile.cpp`. Kind: P -/
theorem reads_run_of_same_length {ws : List Write} (h : Meets step SameLength start ws)
    (pre : List Write) (hpre : pre <+: ws) : (run step start pre).Reads := by
  -- the last chunk was written with a temporary buffer that was long enough
  have hinv : ∀ s w, (Holds s ∧ (s.last.bytes = [] ∨
      s.first.bytes.length + s.last.bytes.length < 2 ^ 32)) → SameLength s w →
      Holds (step s w) ∧ ((step s w).last.bytes = [] ∨
        (step s w).first.bytes.length + (step s w).last.bytes.length < 2 ^ 32) := by
    rintro s w ⟨hs, hfit⟩ hw
    cases w with
    | first junk b =>
      obtain hnil | hlen := hw
      · exact ⟨holds_step hs (.inl hnil), .inl hnil⟩
      · obtain hnil | hlt := hfit
        · exact ⟨holds_step hs (.inl hnil), .inl hnil⟩
        · have hlt' : b.bytes.length + s.last.bytes.length < 2 ^ 32 := by omega
          refine ⟨holds_step hs (.inr ⟨hlt', ?_⟩), .inr hlt'⟩
          obtain ⟨rest, hfile⟩ := hs
          refine ⟨_, hfile, ?_⟩
          dsimp only
          rw [hlen, List.append_assoc, List.drop_left, readFresh_eq _ (by simp), List.take_left]
    | last junk b => exact ⟨holds_step hs hw, .inr hw⟩
  exact (h.invariant_at hinv ⟨⟨[], rfl⟩, .inl rfl⟩ hpre).1.reads

/-- A first chunk of two bytes over one of one byte: the last chunk is read as whatever stood behind
the two bytes. Source: `torrent/dndfile.h`, `torrent/dndfile.cpp`. Kind: L -/
theorem last_lost : ¬ ∀ pre, pre <+: [Write.first (fun _ => 0) ⟨[1], by decide⟩,
    .last (fun _ => 0) ⟨[2], by decide⟩, .first (fun _ => 0) ⟨[3, 4], by decide⟩] →
    (run step start pre).Reads := by
  intro h
  obtain ⟨d, hd, -, hlast⟩ := h _ (List.prefix_refl _)
  have hread := hlast [0] 0 (by decide) (by decide)
  have hfile : d = ⟨2, 1, [3, 4, 0]⟩ := by
    have h' : some d = some ⟨2, 1, [3, 4, 0]⟩ := hd.symm.trans (by decide)
    exact Option.some.inj h'
  rw [hfile] at hread
  exact absurd hread (by decide)

end Written

end DNDFile

end KTorrent.Storage
