import KTorrent.Lib.GuardedRun
import KTorrent.Util.Word
import Mathlib.Data.List.Basic

/-!
# The output buffer of a socket

* `sendOutputBuffer`, `writeBuffered` — the writing side of a buffered socket. What the writer
  provides and what `send` answers are given with each call.
* `Settled` — what was provided is what went out and what the buffer still holds.
* `settled_run_iff` — when that is so, for all runs: `sendOutputBuffer` takes a send that leaves as
  much as has gone out for one that leaves nothing.

Speeds are left out: nothing here reads them.

Source: `net/bufferedsocket.h`, `net/bufferedsocket.cpp`
-/

namespace KTorrent.Net

open KTorrent.Lib KTorrent.Util

/-- Source: `net/bufferedsocket.cpp`, `OUTPUT_BUFFER_SIZE`. Kind: D -/
def OUTPUT_BUFFER_SIZE : ℕ := 16393

/-- What a writer puts into the buffer. Source: `SocketWriter::onReadyToWrite`. Kind: D -/
def Fill := { bs : List UInt8 // bs.length ≤ OUTPUT_BUFFER_SIZE }

/-- Source: `net/bufferedsocket.h`, `BufferedSocket`. Kind: D -/
structure BufferedSocket where
  output_buffer : List UInt8 := []
  bytes_in_output_buffer : ℕ := 0
  bytes_sent : ℕ := 0
  /-- What `send` has accepted, in order. -/
  wire : List UInt8 := []
  /-- History: what the writer has provided, in order. -/
  provided : List UInt8 := []

namespace BufferedSocket

/-! ### The operations -/

/-- The bytes the buffer holds. Kind: D -/
def held (s : BufferedSocket) : List UInt8 :=
  (s.output_buffer.drop s.bytes_sent).take s.bytes_in_output_buffer

/-- How many bytes `sendOutputBuffer` tries to send. Source: `BufferedSocket::sendOutputBuffer`,
`bw`. Kind: D -/
def attempt (max : ℕ) (s : BufferedSocket) : ℕ :=
  if max = 0 ∨ s.bytes_in_output_buffer ≤ max then s.bytes_in_output_buffer else max

/-- Source: `BufferedSocket::sendOutputBuffer`; `answer` is what `send` would take of a request
without end. The second component is what it returns. Kind: D -/
def sendOutputBuffer (max answer : ℕ) (s : BufferedSocket) : BufferedSocket × ℕ :=
  if s.bytes_in_output_buffer = 0 then (s, 0)
  else
    let bw := s.attempt max
    let ret := min answer bw
    let s := { s with wire := s.wire ++ (s.output_buffer.drop s.bytes_sent).take ret }
    if ret > 0 then
      let everything := max = 0 ∨ s.bytes_in_output_buffer ≤ max
      let s := { s with
        bytes_in_output_buffer := s.bytes_in_output_buffer - ret
        bytes_sent := s.bytes_sent + ret }
      if everything ∧ s.bytes_sent = s.bytes_in_output_buffer then
        ({ s with bytes_in_output_buffer := 0, bytes_sent := 0 }, ret)
      else (s, ret)
    else (s, 0)

/-- `bytes_in_output_buffer = wrt->onReadyToWrite(output_buffer, OUTPUT_BUFFER_SIZE); bytes_sent = 0;`
Source: `BufferedSocket::writeBuffered`. Kind: D -/
def fill (bs : List UInt8) (s : BufferedSocket) : BufferedSocket :=
  { s with
    output_buffer := bs ++ s.output_buffer.drop bs.length
    bytes_in_output_buffer := bs.length
    bytes_sent := 0
    provided := s.provided ++ bs }

/-- The loop of `writeBuffered`. A round is what the writer provides and what `send` then answers;
after the last one the writer has nothing. Source: `BufferedSocket::writeBuffered`. Kind: D -/
def fillLoop (max : ℕ) : List (Fill × ℕ) → ℕ → BufferedSocket → BufferedSocket × ℕ
  | [], bw, s =>
      if (max = 0 ∨ bw < max) ∧ s.bytes_in_output_buffer = 0 then (s.fill [], bw) else (s, bw)
  | r :: rounds, bw, s =>
      if (max = 0 ∨ bw < max) ∧ s.bytes_in_output_buffer = 0 then
        let s := s.fill r.1.1
        if s.bytes_in_output_buffer > 0 then
          let q := s.sendOutputBuffer (sub32 max bw) r.2
          fillLoop max rounds (u32 (bw + q.2)) q.1
        else (s, bw)
      else (s, bw)

/-- A call of `writeBuffered`: its limit, what the first `send` answers, and the rounds. Kind: D -/
structure Call where
  max : UInt32
  answer : ℕ
  rounds : List (Fill × ℕ)

/-- Source: `BufferedSocket::writeBuffered`, of a socket with a writer. The second component is what
it returns. Kind: D -/
def writeBuffered (c : Call) (s : BufferedSocket) : BufferedSocket × ℕ :=
  if s.bytes_in_output_buffer > 0 then
    let q := s.sendOutputBuffer c.max.toNat c.answer
    if q.1.bytes_in_output_buffer > 0 then q
    else fillLoop c.max.toNat c.rounds q.2 q.1
  else fillLoop c.max.toNat c.rounds 0 s

/-- The state after a call. Kind: D -/
def step (s : BufferedSocket) (c : Call) : BufferedSocket := (s.writeBuffered c).1

/-! ### What is promised, and when -/

/-- **Nothing is lost**: what was provided is what went out, and then what the buffer holds.
Kind: D -/
def Settled (s : BufferedSocket) : Prop := s.provided = s.wire ++ s.held

/-- **The send that loses bytes**: it asks for all that is left, and leaves as much of it as has gone
out of this buffer. Kind: D -/
def Halves (max answer : ℕ) (s : BufferedSocket) : Prop :=
  (max = 0 ∨ s.bytes_in_output_buffer ≤ max) ∧ 0 < min answer s.bytes_in_output_buffer ∧
    min answer s.bytes_in_output_buffer < s.bytes_in_output_buffer ∧
    s.bytes_sent + min answer s.bytes_in_output_buffer =
      s.bytes_in_output_buffer - min answer s.bytes_in_output_buffer

instance (max answer : ℕ) (s : BufferedSocket) : Decidable (s.Halves max answer) :=
  inferInstanceAs (Decidable (_ ∧ _))

/-- No send of the loop loses bytes. Kind: D -/
def LoopWhole (max : ℕ) : List (Fill × ℕ) → ℕ → BufferedSocket → Prop
  | [], _, _ => True
  | r :: rounds, bw, s =>
      if (max = 0 ∨ bw < max) ∧ s.bytes_in_output_buffer = 0 then
        let s := s.fill r.1.1
        if s.bytes_in_output_buffer > 0 then
          ¬ s.Halves (sub32 max bw) r.2 ∧
            let q := s.sendOutputBuffer (sub32 max bw) r.2
            LoopWhole max rounds (u32 (bw + q.2)) q.1
        else True
      else True

/-- No send of the call loses bytes. Kind: D -/
def Whole (s : BufferedSocket) (c : Call) : Prop :=
  if s.bytes_in_output_buffer > 0 then
    ¬ s.Halves c.max.toNat c.answer ∧
      let q := s.sendOutputBuffer c.max.toNat c.answer
      if q.1.bytes_in_output_buffer > 0 then True
      else LoopWhole c.max.toNat c.rounds q.2 q.1
  else LoopWhole c.max.toNat c.rounds 0 s

/-! ### One send -/

/-- The buffer holds what the counters say. Kind: D -/
def Bounded (s : BufferedSocket) : Prop :=
  s.bytes_sent + s.bytes_in_output_buffer ≤ s.output_buffer.length

/-- What is held is what the counter says. Source: `net/bufferedsocket.h`, `net/bufferedsocket.cpp`.
Kind: L -/
theorem Bounded.length_held {s : BufferedSocket} (h : s.Bounded) :
    s.held.length = s.bytes_in_output_buffer := by
  unfold held
  unfold Bounded at h
  rw [List.length_take, List.length_drop]
  omega

/-- No more is attempted than is in the buffer. Source: `BufferedSocket::sendOutputBuffer`, `bw`.
Kind: L -/
theorem attempt_le (max : ℕ) (s : BufferedSocket) : s.attempt max ≤ s.bytes_in_output_buffer := by
  unfold attempt
  split_ifs <;> omega

/-- What `send` takes. Kind: D -/
def taken (max answer : ℕ) (s : BufferedSocket) : ℕ := min answer (s.attempt max)

/-- What a send leaves alone, and what goes out. Source: `BufferedSocket::sendOutputBuffer`.
Kind: L -/
theorem sendOutputBuffer_frame (max answer : ℕ) (s : BufferedSocket) :
    (s.sendOutputBuffer max answer).2 = s.taken max answer ∧
      (s.sendOutputBuffer max answer).1.wire = s.wire ++ s.held.take (s.taken max answer) ∧
      (s.sendOutputBuffer max answer).1.provided = s.provided ∧
      (s.sendOutputBuffer max answer).1.output_buffer = s.output_buffer := by
  have hle := attempt_le max s
  have htake : s.held.take (s.taken max answer) =
      (s.output_buffer.drop s.bytes_sent).take (s.taken max answer) := by
    unfold held taken
    rw [List.take_take, min_eq_left (by omega)]
  rw [htake]
  unfold taken
  unfold sendOutputBuffer
  split_ifs with h0
  · have hzero : min answer (s.attempt max) = 0 := by omega
    rw [hzero, List.take_zero, List.append_nil]
    exact ⟨rfl, rfl, rfl, rfl⟩
  · dsimp only
    split_ifs
    · exact ⟨rfl, rfl, rfl, rfl⟩
    · exact ⟨rfl, rfl, rfl, rfl⟩
    · refine ⟨?_, rfl, rfl, rfl⟩
      dsimp only
      omega

/-- The counters after a send. Source: `BufferedSocket::sendOutputBuffer`. Kind: L -/
theorem sendOutputBuffer_counters (max answer : ℕ) (s : BufferedSocket) :
    (s.Halves max answer ∧ (s.sendOutputBuffer max answer).1.bytes_in_output_buffer = 0 ∧
        (s.sendOutputBuffer max answer).1.bytes_sent = 0 ∧
        s.taken max answer < s.bytes_in_output_buffer) ∨
      (¬ s.Halves max answer ∧
        (s.sendOutputBuffer max answer).1.bytes_in_output_buffer =
          s.bytes_in_output_buffer - s.taken max answer ∧
        (s.sendOutputBuffer max answer).1.bytes_sent = s.bytes_sent + s.taken max answer) := by
  have hle := attempt_le max s
  unfold taken
  by_cases hall : max = 0 ∨ s.bytes_in_output_buffer ≤ max
  · -- everything is tried
    have hattempt : s.attempt max = s.bytes_in_output_buffer := if_pos hall
    unfold Halves sendOutputBuffer
    rw [hattempt]
    by_cases h0 : s.bytes_in_output_buffer = 0
    · right
      rw [if_pos h0]
      refine ⟨by omega, ?_, ?_⟩
      · dsimp only
        omega
      · dsimp only
        omega
    rw [if_neg h0]
    by_cases hret : min answer s.bytes_in_output_buffer > 0
    · dsimp only
      rw [if_pos hret]
      by_cases hsame : s.bytes_sent + min answer s.bytes_in_output_buffer =
          s.bytes_in_output_buffer - min answer s.bytes_in_output_buffer
      · left
        rw [if_pos ⟨hall, hsame⟩]
        exact ⟨⟨hall, hret, by omega, hsame⟩, rfl, rfl, by omega⟩
      · right
        rw [if_neg fun hn => hsame hn.2]
        exact ⟨fun hn => hsame hn.2.2.2, rfl, rfl⟩
    · right
      dsimp only
      rw [if_neg hret]
      refine ⟨fun hn => hret hn.2.1, ?_, ?_⟩
      · dsimp only
        omega
      · dsimp only
        omega
  · right
    refine ⟨fun hn => hall hn.1, ?_⟩
    have hattempt : s.attempt max = max := if_neg hall
    unfold sendOutputBuffer
    rw [hattempt]
    have h0 : s.bytes_in_output_buffer ≠ 0 := by omega
    rw [if_neg h0]
    dsimp only
    split_ifs with hret hn
    · exact absurd hn.1 hall
    · exact ⟨rfl, rfl⟩
    · refine ⟨?_, ?_⟩
      · dsimp only
        omega
      · dsimp only
        omega

/-- Sending keeps the counters within the buffer. Source: `BufferedSocket::sendOutputBuffer`.
Kind: L -/
theorem Bounded.send {s : BufferedSocket} (h : s.Bounded) (max answer : ℕ) :
    (s.sendOutputBuffer max answer).1.Bounded := by
  obtain ⟨-, -, -, hbuf⟩ := sendOutputBuffer_frame max answer s
  have hle := attempt_le max s
  unfold Bounded at h ⊢
  rw [hbuf]
  obtain ⟨-, h1, h2, -⟩ | ⟨-, h1, h2⟩ := sendOutputBuffer_counters max answer s
  · omega
  · unfold taken at h1 h2
    omega

/-- A send that does not lose bytes. Source: `BufferedSocket::sendOutputBuffer`. Kind: L -/
theorem Settled.send {s : BufferedSocket} (h : s.Settled) {max answer : ℕ}
    (hn : ¬ s.Halves max answer) : (s.sendOutputBuffer max answer).1.Settled := by
  obtain ⟨-, hwire, hprov, hbuf⟩ := sendOutputBuffer_frame max answer s
  obtain ⟨hh, -⟩ | ⟨-, h1, h2⟩ := sendOutputBuffer_counters max answer s
  · exact absurd hh hn
  have hheld : (s.sendOutputBuffer max answer).1.held = s.held.drop (s.taken max answer) := by
    unfold held
    rw [hbuf, h1, h2, List.drop_take, List.drop_drop]
  unfold Settled at h ⊢
  rw [hprov, hwire, hheld, List.append_assoc, List.take_append_drop]
  exact h

/-- How many bytes are accounted for. Kind: D -/
def accounted (s : BufferedSocket) : ℕ := s.wire.length + s.held.length

/-- A send accounts for no more bytes than before, and for fewer where it loses some.
Source: `BufferedSocket::sendOutputBuffer`. Kind: L -/
theorem accounted_send {s : BufferedSocket} (h : s.Bounded) (max answer : ℕ) :
    (s.sendOutputBuffer max answer).1.accounted ≤ s.accounted ∧
      (s.Halves max answer → (s.sendOutputBuffer max answer).1.accounted < s.accounted) := by
  obtain ⟨-, hwire, -, -⟩ := sendOutputBuffer_frame max answer s
  have hlen := h.length_held
  have hlen' := (h.send max answer).length_held
  unfold accounted
  rw [hwire, hlen', List.length_append, List.length_take, hlen]
  obtain ⟨-, h1, -, h3⟩ | ⟨hn, h1, -⟩ := sendOutputBuffer_counters max answer s
  · rw [h1]
    exact ⟨by omega, fun _ => by omega⟩
  · rw [h1]
    exact ⟨by omega, fun hh => absurd hh hn⟩

/-! ### A call -/

/-- Every byte provided is accounted for at most once. Kind: D -/
def Covered (s : BufferedSocket) : Prop := s.accounted ≤ s.provided.length

/-- An empty buffer holds nothing. Source: `net/bufferedsocket.h`, `net/bufferedsocket.cpp`.
Kind: L -/
theorem held_empty {s : BufferedSocket} (h : s.bytes_in_output_buffer = 0) : s.held = [] := by
  rw [held, h, List.take_zero]

/-- The buffer after a refill. Source: `BufferedSocket::writeBuffered`. Kind: L -/
theorem fill_held (bs : List UInt8) (s : BufferedSocket) :
    (s.fill bs).held = bs ∧ (s.fill bs).Bounded ∧ (s.fill bs).wire = s.wire := by
  refine ⟨?_, ?_, rfl⟩
  · show ((bs ++ s.output_buffer.drop bs.length).drop 0).take bs.length = bs
    rw [List.drop_zero, List.take_left]
  · show 0 + bs.length ≤ (bs ++ s.output_buffer.drop bs.length).length
    rw [List.length_append]
    omega

/-- Filling an empty buffer leaves every byte accounted for.
Source: `BufferedSocket::writeBuffered`. Kind: L -/
theorem Settled.fill {s : BufferedSocket} (h : s.Settled) (h0 : s.bytes_in_output_buffer = 0)
    (bs : List UInt8) : (s.fill bs).Settled := by
  obtain ⟨hheld, -, hwire⟩ := fill_held bs s
  unfold Settled at h ⊢
  rw [hheld, hwire]
  rw [held_empty h0, List.append_nil] at h
  exact congrArg (· ++ bs) h

/-- A refill accounts for what it provides. Source: `BufferedSocket::writeBuffered`. Kind: L -/
theorem accounted_fill {s : BufferedSocket} (h0 : s.bytes_in_output_buffer = 0) (bs : List UInt8) :
    (s.fill bs).accounted = s.accounted + bs.length ∧
      (s.fill bs).provided.length = s.provided.length + bs.length := by
  obtain ⟨hheld, -, hwire⟩ := fill_held bs s
  refine ⟨?_, List.length_append⟩
  unfold accounted
  rw [hheld, hwire, held_empty h0, List.length_nil]
  rfl

/-- **The loop**: where no send loses bytes, nothing is lost.
Source: `BufferedSocket::writeBuffered`. Kind: L -/
theorem Settled.loop {max : ℕ} (rounds : List (Fill × ℕ)) : ∀ {bw : ℕ} {s : BufferedSocket},
    s.Settled → s.Bounded → LoopWhole max rounds bw s → (fillLoop max rounds bw s).1.Settled := by
  induction rounds with
  | nil =>
    intro bw s h _ _
    unfold fillLoop
    split_ifs with hif
    · exact h.fill hif.2 []
    · exact h
  | cons r rounds ih =>
    intro bw s h hb hok
    unfold fillLoop
    unfold LoopWhole at hok
    split_ifs at hok ⊢ with hif
    · have hfill := h.fill hif.2 r.1.1
      have hbounded := (fill_held r.1.1 s).2.1
      dsimp only at hok ⊢
      split_ifs at hok ⊢
      · exact ih (hfill.send hok.1) (hbounded.send _ _) hok.2
      · exact hfill
    · exact h

/-- Bytes that are lost stay lost, and where a send loses bytes some are.
Source: `BufferedSocket::writeBuffered`. Kind: L -/
theorem short_loop {max : ℕ} (rounds : List (Fill × ℕ)) : ∀ {bw : ℕ} {s : BufferedSocket},
    s.Bounded → s.Covered → (fillLoop max rounds bw s).1.Covered ∧
      (s.accounted < s.provided.length ∨ ¬ LoopWhole max rounds bw s →
        (fillLoop max rounds bw s).1.accounted < (fillLoop max rounds bw s).1.provided.length) := by
  induction rounds with
  | nil =>
    intro bw s _ hc
    unfold Covered at hc
    unfold fillLoop LoopWhole
    split_ifs with hif
    · obtain ⟨h1, h2⟩ := accounted_fill hif.2 []
      dsimp only [Covered]
      rw [h1, h2]
      refine ⟨by omega, ?_⟩
      rintro (hs | hn)
      · omega
      · exact absurd trivial hn
    · refine ⟨hc, ?_⟩
      rintro (hs | hn)
      · exact hs
      · exact absurd trivial hn
  | cons r rounds ih =>
    intro bw s hb hc
    unfold Covered at hc
    unfold fillLoop LoopWhole
    split_ifs with hif
    · obtain ⟨h1, h2⟩ := accounted_fill hif.2 r.1.1
      have hbounded := (fill_held r.1.1 s).2.1
      dsimp only
      split_ifs with hpos
      · obtain ⟨hle, hlt⟩ := accounted_send hbounded (sub32 max bw) r.2
        have hprov := (sendOutputBuffer_frame (sub32 max bw) r.2 (s.fill r.1.1)).2.2.1
        have hcov : ((s.fill r.1.1).sendOutputBuffer (sub32 max bw) r.2).1.Covered := by
          unfold Covered
          rw [hprov]
          omega
        have hb' := hbounded.send (sub32 max bw) r.2
        refine ⟨(ih hb' hcov).1, fun hor => (ih hb' hcov).2 ?_⟩
        rw [hprov]
        rcases hor with hs | hn
        · left
          omega
        · by_cases hh : (s.fill r.1.1).Halves (sub32 max bw) r.2
          · left
            have := hlt hh
            omega
          · right
            exact fun hw => hn ⟨hh, hw⟩
      · dsimp only [Covered]
        rw [h1, h2]
        refine ⟨by omega, ?_⟩
        rintro (hs | hn)
        · omega
        · exact absurd trivial hn
    · refine ⟨hc, ?_⟩
      rintro (hs | hn)
      · exact hs
      · exact absurd trivial hn

/-- Filling and sending keeps the counters within the buffer.
Source: `BufferedSocket::writeBuffered`. Kind: L -/
theorem bounded_loop {max : ℕ} (rounds : List (Fill × ℕ)) : ∀ {bw : ℕ} {s : BufferedSocket},
    s.Bounded → (fillLoop max rounds bw s).1.Bounded := by
  induction rounds with
  | nil =>
    intro bw s h
    unfold fillLoop
    split_ifs
    · exact (fill_held [] s).2.1
    · exact h
  | cons r rounds ih =>
    intro bw s h
    unfold fillLoop
    split_ifs
    · have hfill := (fill_held r.1.1 s).2.1
      dsimp only
      split_ifs
      · exact ih (hfill.send _ _)
      · exact hfill
    · exact h

/-- A call keeps the counters within the buffer. Source: `net/bufferedsocket.h`,
`net/bufferedsocket.cpp`. Kind: L -/
theorem bounded_step {s : BufferedSocket} (h : s.Bounded) (c : Call) : (s.step c).Bounded := by
  unfold step writeBuffered
  split_ifs
  · have hsend := h.send c.max.toNat c.answer
    dsimp only
    split_ifs
    · exact hsend
    · exact bounded_loop c.rounds hsend
  · exact bounded_loop c.rounds h

/-- Every byte provided is accounted for. Source: `net/bufferedsocket.h`, `net/bufferedsocket.cpp`.
Kind: L -/
theorem Settled.accounted {s : BufferedSocket} (h : s.Settled) : s.accounted = s.provided.length := by
  unfold Settled at h
  rw [h, List.length_append]
  rfl

/-- **A call loses nothing exactly if none of its sends does.**. Source: `net/bufferedsocket.h`,
`net/bufferedsocket.cpp`. Kind: L -/
theorem settled_step_iff {s : BufferedSocket} (hb : s.Bounded) (h : s.Settled) (c : Call) :
    (s.step c).Settled ↔ s.Whole c := by
  have hcov : s.Covered := le_of_eq h.accounted
  have hloop : ∀ {bw : ℕ} {t : BufferedSocket}, t.Bounded → t.Covered →
      ¬ (t.accounted < t.provided.length ∨ ¬ LoopWhole c.max.toNat c.rounds bw t) ∨
        ¬ (fillLoop c.max.toNat c.rounds bw t).1.Settled := by
    intro bw t hbt hct
    by_cases hn : t.accounted < t.provided.length ∨ ¬ LoopWhole c.max.toNat c.rounds bw t
    · right
      intro hs
      exact absurd hs.accounted (Nat.ne_of_lt ((short_loop c.rounds hbt hct).2 hn))
    · exact Or.inl hn
  unfold step writeBuffered Whole
  split_ifs with hpos
  · obtain ⟨hle, hlt⟩ := accounted_send hb c.max.toNat c.answer
    have hprov := (sendOutputBuffer_frame c.max.toNat c.answer s).2.2.1
    have hcov' : (s.sendOutputBuffer c.max.toNat c.answer).1.Covered := by
      unfold Covered at hcov ⊢
      rw [hprov]
      omega
    have hsend := hb.send c.max.toNat c.answer
    have hlost : s.Halves c.max.toNat c.answer →
        (s.sendOutputBuffer c.max.toNat c.answer).1.accounted <
          (s.sendOutputBuffer c.max.toNat c.answer).1.provided.length := by
      intro hh
      rw [hprov, ← h.accounted]
      exact hlt hh
    dsimp only
    split_ifs with hleft
    · refine ⟨fun hs => ⟨fun hh => ?_, trivial⟩, fun hw => h.send hw.1⟩
      exact absurd hs.accounted (Nat.ne_of_lt (hlost hh))
    · refine ⟨fun hs => ?_, fun hw => (h.send hw.1).loop c.rounds hsend hw.2⟩
      rcases hloop hsend hcov' with hn | hn
      · rw [not_or, not_not] at hn
        exact ⟨fun hh => hn.1 (hlost hh), hn.2⟩
      · exact absurd hs hn
  · refine ⟨fun hs => ?_, fun hw => h.loop c.rounds hb hw⟩
    rcases hloop hb hcov with hn | hn
    · rw [not_or, not_not] at hn
      exact hn.2
    · exact absurd hs hn

/-! ### Limits -/

/-- No more is taken than the limit. Source: `net/bufferedsocket.h`, `net/bufferedsocket.cpp`.
Kind: L -/
theorem taken_le {max : ℕ} (h : 0 < max) (answer : ℕ) (s : BufferedSocket) :
    s.taken max answer ≤ max := by
  unfold taken attempt
  split_ifs <;> omega

/-- What the loop puts on the wire under a limit. Source: `BufferedSocket::writeBuffered`.
Kind: L -/
theorem limit_loop {max : ℕ} (hmax : 0 < max) (hfit : max < 2 ^ 32) (rounds : List (Fill × ℕ)) :
    ∀ {bw : ℕ} {s : BufferedSocket}, bw ≤ max → ∃ xs : List UInt8,
      (fillLoop max rounds bw s).1.wire = s.wire ++ xs ∧ bw + xs.length ≤ max := by
  induction rounds with
  | nil =>
    intro bw s hbw
    refine ⟨[], ?_, hbw⟩
    unfold fillLoop
    rw [List.append_nil]
    split_ifs <;> rfl
  | cons r rounds ih =>
    intro bw s hbw
    have hnone : ∃ xs : List UInt8, s.wire = s.wire ++ xs ∧ bw + xs.length ≤ max :=
      ⟨[], (List.append_nil _).symm, hbw⟩
    unfold fillLoop
    split_ifs with hif
    · dsimp only
      split_ifs
      · have hlt : bw < max := by omega
        have hsub : sub32 max bw = max - bw := sub32_of_le hbw hfit
        rw [hsub]
        obtain ⟨h2, hwire, -, -⟩ := sendOutputBuffer_frame (max - bw) r.2 (s.fill r.1.1)
        have htaken := taken_le (Nat.sub_pos_of_lt hlt) r.2 (s.fill r.1.1)
        have hsum : u32 (bw + ((s.fill r.1.1).sendOutputBuffer (max - bw) r.2).2) =
            bw + (s.fill r.1.1).taken (max - bw) r.2 := by
          rw [h2]
          exact u32_of_lt (by omega)
        rw [hsum]
        obtain ⟨xs, hxs, hlen⟩ := ih (s := ((s.fill r.1.1).sendOutputBuffer (max - bw) r.2).1)
          (show bw + (s.fill r.1.1).taken (max - bw) r.2 ≤ max by omega)
        refine ⟨(s.fill r.1.1).held.take ((s.fill r.1.1).taken (max - bw) r.2) ++ xs, ?_, ?_⟩
        · rw [hxs, hwire, List.append_assoc]
          rfl
        · rw [List.length_append]
          have := List.length_take_le ((s.fill r.1.1).taken (max - bw) r.2) (s.fill r.1.1).held
          omega
      · exact hnone
    · exact hnone

/-- What a call puts on the wire under a limit. Source: `net/bufferedsocket.h`,
`net/bufferedsocket.cpp`. Kind: L -/
theorem limit_step (s : BufferedSocket) {c : Call} (h : 0 < c.max.toNat) :
    ∃ xs : List UInt8, (s.step c).wire = s.wire ++ xs ∧ xs.length ≤ c.max.toNat := by
  have hfit : c.max.toNat < 2 ^ 32 := c.max.toNat_lt
  unfold step writeBuffered
  split_ifs
  · obtain ⟨h2, hwire, -, -⟩ := sendOutputBuffer_frame c.max.toNat c.answer s
    have htaken := taken_le h c.answer s
    have hlen := List.length_take_le (s.taken c.max.toNat c.answer) s.held
    dsimp only
    split_ifs
    · exact ⟨_, hwire, hlen.trans htaken⟩
    · obtain ⟨xs, hxs, hle⟩ := limit_loop h hfit c.rounds
        (s := (s.sendOutputBuffer c.max.toNat c.answer).1) (h2 ▸ htaken)
      refine ⟨s.held.take (s.taken c.max.toNat c.answer) ++ xs, ?_, ?_⟩
      · rw [hxs, hwire, List.append_assoc]
      · rw [List.length_append]
        omega
  · obtain ⟨xs, hxs, hle⟩ := limit_loop h hfit c.rounds (s := s) (Nat.zero_le _)
    exact ⟨xs, hxs, by omega⟩

/-! ### Runs -/

/-- A new socket is settled. Source: `net/bufferedsocket.h`, `net/bufferedsocket.cpp`. Kind: L -/
theorem settled_new : Settled {} := rfl

/-- A new socket's counters are within its buffer. Source: `net/bufferedsocket.h`,
`net/bufferedsocket.cpp`. Kind: L -/
theorem bounded_new : Bounded {} := Nat.le_refl 0

/-- **What goes out is what was provided**, in every state of a run exactly if none of its sends
loses bytes; and a limit is kept by every call. Source: `net/bufferedsocket.h`,
`net/bufferedsocket.cpp`. Kind: P -/
theorem settled_run_iff (calls : List Call) :
    ((∀ pre, pre <+: calls → (run step {} pre).Settled) ↔ Meets step Whole {} calls) ∧
      ∀ pre c, pre ++ [c] <+: calls → 0 < c.max.toNat → ∃ xs : List UInt8,
        (run step {} (pre ++ [c])).wire = (run step {} pre).wire ++ xs ∧
          xs.length ≤ c.max.toNat := by
  constructor
  · have hexact : ∀ (s : BufferedSocket) (c : Call), s.Bounded ∧ s.Settled →
        ((s.step c).Bounded ∧ (s.step c).Settled ↔ s.Whole c) := by
      intro s c h
      rw [← settled_step_iff h.1 h.2]
      exact and_iff_right (bounded_step h.1 c)
    have hrun := invariant_at_iff_meets hexact ⟨bounded_new, settled_new⟩ calls
    rw [← hrun]
    refine forall_congr' fun pre => forall_congr' fun hpre => (and_iff_right ?_).symm
    induction pre using List.reverseRecOn with
    | nil => exact bounded_new
    | append_singleton pre c ih =>
      rw [run_append]
      exact bounded_step (ih ((List.prefix_append _ _).trans hpre)) c
  · intro pre c _ hmax
    rw [run_append]
    exact limit_step _ hmax

/-- Two bytes are provided, and `send` takes one of them: the other is lost.
Source: `net/bufferedsocket.h`, `net/bufferedsocket.cpp`. Kind: P -/
theorem half_lost :
    ¬ ∀ pre, pre <+: [Call.mk 0 0 [(⟨[1, 2], by decide⟩, 1)]] → (run step {} pre).Settled := by
  intro h
  have hlast := h _ List.prefix_rfl
  exact absurd hlast.accounted (by decide)

end BufferedSocket

end KTorrent.Net
