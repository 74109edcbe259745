import KTorrent.Lib.GuardedRun
import Mathlib.Algebra.BigOperators.Group.List.Basic
import Mathlib.Algebra.GroupWithZero.Nat

/-!
# Accounting of uploaded bytes

Packets queued for sending are noted by their sizes. A count of bytes reported written takes whole
entries from the front of the queue, and a rest that does not reach the end of an entry is carried
to the next call.

* `writtenLoop`, `bytesWritten`, `writeBytes` — the operations, with a history of what was queued,
  removed and reported, and of whether the counter of remaining bytes has wrapped.
* `Carry` — the carry is smaller than the entry it belongs to; it holds in every run.
* `writtenLoop_bytes` — without a carry the loop accounts for each byte.
* `accounted_iff` — the account is right after each call just as long as no call ends an entry that
  an earlier call had begun: the carry is in the comparison and not in the subtraction.

Source: `torrent/upspeedestimater.h`, `torrent/upspeedestimater.cpp`
-/

namespace KTorrent.Net

open KTorrent.Lib

/-- Source: `UpSpeedEstimater::Entry`. Kind: D -/
structure Entry where
  bytes : UInt32
  start_time : UInt64
  duration : UInt32
  data : Bool
  deriving DecidableEq

/-- The bytes of a list of entries. Kind: D -/
def entryBytes (es : List Entry) : ℕ := (es.map fun e => e.bytes.toNat).sum

/-- No entries, no bytes. Source: none: infrastructure. Kind: L -/
@[simp] theorem entryBytes_nil : entryBytes [] = 0 := rfl

/-- The bytes of the first entry and of the rest. Source: none: infrastructure. Kind: L -/
@[simp] theorem entryBytes_cons (e : Entry) (es : List Entry) :
    entryBytes (e :: es) = e.bytes.toNat + entryBytes es := by
  simp [entryBytes]

/-- The bytes of two lists of entries. Source: none: infrastructure. Kind: L -/
@[simp] theorem entryBytes_append (es fs : List Entry) :
    entryBytes (es ++ fs) = entryBytes es + entryBytes fs := by
  simp [entryBytes]

/-- The estimater, with a history: the entries `queued`, those `removed` from the queue, the bytes
`reported` written, and whether the counter of remaining bytes has `wrapped`.
Source: `UpSpeedEstimater`. Kind: D -/
structure UpSpeedEstimater where
  accumulated_bytes : UInt32
  outstanding_bytes : List Entry
  written_bytes : List Entry
  queued : List Entry
  removed : List Entry
  reported : ℕ
  wrapped : Bool
  deriving DecidableEq

namespace UpSpeedEstimater

/-- Source: `UpSpeedEstimater::UpSpeedEstimater`. Kind: D -/
def new : UpSpeedEstimater := ⟨0, [], [], [], [], 0, false⟩

/-- Source: `UpSpeedEstimater::writeBytes`. Kind: D -/
def writeBytes (now : UInt64) (bytes : UInt32) (proto : Bool) (s : UpSpeedEstimater) :
    UpSpeedEstimater :=
  -- the duration is set when the entry is removed
  let e : Entry := { bytes := bytes, start_time := now, duration := 0, data := !proto }
  { s with
    outstanding_bytes := s.outstanding_bytes ++ [e]
    queued := s.queued ++ [e] }

/-- The first branch of the loop, for `bytes` remaining bytes. Source:
`UpSpeedEstimater::bytesWritten`. Kind: D -/
def remove (now : UInt64) (bytes : UInt32) (e : Entry) (s : UpSpeedEstimater) :
    UpSpeedEstimater :=
  { s with
    accumulated_bytes := 0
    written_bytes :=
      if e.data then
        s.written_bytes ++ [{ e with duration := (now - e.start_time).toUInt32 }]
      else s.written_bytes
    removed := s.removed ++ [e]
    wrapped := s.wrapped || decide (bytes < e.bytes) }

/-- Source: `UpSpeedEstimater::bytesWritten`, the loop. Kind: D -/
def writtenLoop (now : UInt64) : List Entry → UInt32 → UpSpeedEstimater → UpSpeedEstimater
  | [], _, s => { s with outstanding_bytes := [] }
  | e :: es, bytes, s =>
    if 0 < bytes then
      if e.bytes ≤ bytes + s.accumulated_bytes then
        writtenLoop now es (bytes - e.bytes) (s.remove now bytes e)
      else
        { s with
          outstanding_bytes := e :: es
          accumulated_bytes := s.accumulated_bytes + bytes }
    else { s with outstanding_bytes := e :: es }

/-- Source: `UpSpeedEstimater::bytesWritten`. Kind: D -/
def bytesWritten (now : UInt64) (bytes : UInt32) (s : UpSpeedEstimater) : UpSpeedEstimater :=
  { writtenLoop now s.outstanding_bytes bytes s with reported := s.reported + bytes.toNat }

/-! ### The loop -/

/-- An entry that is removed is recorded. Source: `torrent/upspeedestimater.h`,
`torrent/upspeedestimater.cpp`. Kind: L -/
@[simp] theorem remove_removed (now : UInt64) (bytes : UInt32) (e : Entry)
    (s : UpSpeedEstimater) : (s.remove now bytes e).removed = s.removed ++ [e] := rfl

/-- The accumulated bytes wrap if they are fewer than the entry's.
Source: `torrent/upspeedestimater.h`, `torrent/upspeedestimater.cpp`. Kind: L -/
@[simp] theorem remove_wrapped (now : UInt64) (bytes : UInt32) (e : Entry)
    (s : UpSpeedEstimater) :
    (s.remove now bytes e).wrapped = (s.wrapped || decide (bytes < e.bytes)) := rfl

/-- The carry belongs to the first entry and is smaller than it. Kind: D -/
def Carry (acc : UInt32) (es : List Entry) : Prop :=
  acc = 0 ∨ ∃ e rest, es = e :: rest ∧ acc < e.bytes

/-- Nothing is carried over. Source: `torrent/upspeedestimater.h`, `torrent/upspeedestimater.cpp`.
Kind: L -/
theorem carry_zero (es : List Entry) : Carry 0 es := Or.inl rfl

/-- The loop takes entries from the front and leaves a carry of the entry it stops in.
Source: `UpSpeedEstimater::bytesWritten`. Kind: L -/
theorem writtenLoop_spec (now : UInt64) (es : List Entry) :
    ∀ (bytes : UInt32) (s : UpSpeedEstimater), Carry s.accumulated_bytes es →
      let t := writtenLoop now es bytes s
      t.removed ++ t.outstanding_bytes = s.removed ++ es ∧ t.queued = s.queued ∧
        Carry t.accumulated_bytes t.outstanding_bytes := by
  induction es with
  | nil =>
    intro bytes s hc
    exact ⟨rfl, rfl, hc⟩
  | cons e es ih =>
    intro bytes s hc
    unfold writtenLoop
    split_ifs with hpos hle
    · obtain ⟨hr, hq, hc'⟩ := ih (bytes - e.bytes) (s.remove now bytes e) (carry_zero es)
      refine ⟨?_, hq, hc'⟩
      rw [hr, remove_removed, List.append_assoc, List.singleton_append]
    · refine ⟨rfl, rfl, Or.inr ⟨e, es, rfl, ?_⟩⟩
      rw [UInt32.add_comm]
      exact UInt32.not_le.mp hle
    · exact ⟨rfl, rfl, hc⟩

/-- A counter that has wrapped stays recorded. Source: `UpSpeedEstimater::bytesWritten`. Kind: L -/
theorem wrapped_writtenLoop (now : UInt64) (es : List Entry) :
    ∀ (bytes : UInt32) (s : UpSpeedEstimater), s.wrapped = true →
      (writtenLoop now es bytes s).wrapped = true := by
  induction es with
  | nil =>
    intro bytes s h
    exact h
  | cons e es ih =>
    intro bytes s h
    unfold writtenLoop
    split_ifs with hpos hle
    · apply ih
      rw [remove_wrapped, h, Bool.true_or]
    · exact h
    · exact h

/-- **Without a carry** the loop accounts for each byte it finds an entry for, and its counter does
not wrap. Source: `UpSpeedEstimater::bytesWritten`. Kind: L -/
theorem writtenLoop_bytes (now : UInt64) (es : List Entry) :
    ∀ (bytes : UInt32) (s : UpSpeedEstimater), s.accumulated_bytes = 0 →
      let t := writtenLoop now es bytes s
      entryBytes t.removed + t.accumulated_bytes.toNat =
          entryBytes s.removed + min bytes.toNat (entryBytes es) ∧
        t.wrapped = s.wrapped := by
  induction es with
  | nil =>
    intro bytes s hs
    simp [writtenLoop, hs]
  | cons e es ih =>
    intro bytes s hs
    unfold writtenLoop
    rw [hs, UInt32.add_zero]
    split_ifs with hpos hle
    · obtain ⟨hb, hw⟩ := ih (bytes - e.bytes) (s.remove now bytes e) rfl
      have hsub : (bytes - e.bytes).toNat = bytes.toNat - e.bytes.toNat :=
        UInt32.toNat_sub_of_le _ _ hle
      have hle' : e.bytes.toNat ≤ bytes.toNat := UInt32.le_iff_toNat_le.mp hle
      constructor
      · rw [hb, hsub, remove_removed, entryBytes_append, entryBytes_cons, entryBytes_nil,
          entryBytes_cons]
        omega
      · rw [hw, remove_wrapped, decide_eq_false (UInt32.not_lt.mpr hle), Bool.or_false]
    · have hlt : bytes.toNat < e.bytes.toNat := UInt32.lt_iff_toNat_lt.mp (UInt32.not_le.mp hle)
      refine ⟨?_, rfl⟩
      simp only [UInt32.zero_add, entryBytes_cons]
      omega
    · have hzero : bytes.toNat = 0 := by
        have := UInt32.lt_iff_toNat_lt.not.mp hpos
        simpa using this
      refine ⟨?_, rfl⟩
      simp [hzero]

/-! ### The account -/

/-- The account of the bytes reported: they are those of the entries removed and the carry, the
entries leave in the order they came in, and no counter has wrapped. Kind: D -/
structure Accounted (s : UpSpeedEstimater) : Prop where
  bytes : entryBytes s.removed + s.accumulated_bytes.toNat = s.reported
  order : s.removed ++ s.outstanding_bytes = s.queued
  counter : s.wrapped = false

/-- What holds whatever is called. Kind: D -/
structure Ordered (s : UpSpeedEstimater) : Prop where
  order : s.removed ++ s.outstanding_bytes = s.queued
  carry : Carry s.accumulated_bytes s.outstanding_bytes

/-- A call. Kind: D -/
inductive Call
  | writeBytes (now : UInt64) (bytes : UInt32) (proto : Bool)
  | bytesWritten (now : UInt64) (bytes : UInt32)
  deriving DecidableEq

/-- Kind: D -/
def call (s : UpSpeedEstimater) : Call → UpSpeedEstimater
  | .writeBytes now bytes proto => s.writeBytes now bytes proto
  | .bytesWritten now bytes => s.bytesWritten now bytes

/-- The entries that calls queue. Kind: D -/
def queuedBy (cs : List Call) : List Entry :=
  cs.filterMap fun c => match c with
    | .writeBytes now bytes proto => some ⟨bytes, now, 0, !proto⟩
    | .bytesWritten _ _ => none

/-- The bytes that calls report written. Kind: D -/
def reportedBy (cs : List Call) : ℕ :=
  (cs.map fun c => match c with
    | .writeBytes _ _ _ => 0
    | .bytesWritten _ bytes => bytes.toNat).sum

/-- What was queued and reported is what the calls did. Kind: D -/
structure Noted (cs : List Call) (s : UpSpeedEstimater) : Prop where
  queued : s.queued = queuedBy cs
  reported : s.reported = reportedBy cs

/-- No more is reported written than has been queued. Kind: D -/
def Reports (s : UpSpeedEstimater) : Call → Prop
  | .writeBytes _ _ _ => True
  | .bytesWritten _ bytes => s.reported + bytes.toNat ≤ entryBytes s.queued

instance (s : UpSpeedEstimater) (c : Call) : Decidable (s.Reports c) :=
  match c with
  | .writeBytes _ _ _ => .isTrue trivial
  | .bytesWritten _ _ => inferInstanceAs (Decidable (_ ≤ _))

/-- A report that does not end an entry begun by an earlier report: nothing is carried, or the
first entry is not finished by it. Kind: D -/
def KeepsCarry (s : UpSpeedEstimater) : Call → Prop
  | .writeBytes _ _ _ => True
  | .bytesWritten _ bytes =>
    s.accumulated_bytes = 0 ∨
      ∀ e ∈ s.outstanding_bytes.head?, s.accumulated_bytes.toNat + bytes.toNat < e.bytes.toNat

/-- A new estimater is in order. Source: `torrent/upspeedestimater.h`,
`torrent/upspeedestimater.cpp`. Kind: L -/
theorem ordered_new : Ordered new := ⟨rfl, carry_zero _⟩

/-- A new estimater has counted nothing. Source: `torrent/upspeedestimater.h`,
`torrent/upspeedestimater.cpp`. Kind: L -/
theorem accounted_new : Accounted new := ⟨rfl, rfl, rfl⟩

/-- Every call keeps the entries in order. Source: `torrent/upspeedestimater.h`,
`torrent/upspeedestimater.cpp`. Kind: L -/
theorem ordered_call (s : UpSpeedEstimater) (c : Call) (h : s.Ordered) : (s.call c).Ordered := by
  cases c with
  | writeBytes now bytes proto =>
    constructor
    · show s.removed ++ (s.outstanding_bytes ++ _) = s.queued ++ _
      rw [← List.append_assoc, h.order]
    · rcases h.carry with hz | ⟨e, rest, he, hlt⟩
      · exact Or.inl hz
      · refine Or.inr ⟨e, rest ++ [⟨bytes, now, 0, !proto⟩], ?_, hlt⟩
        show s.outstanding_bytes ++ [(⟨bytes, now, 0, !proto⟩ : Entry)] = _
        rw [he, List.cons_append]
  | bytesWritten now bytes =>
    obtain ⟨hr, hq, hc⟩ := writtenLoop_spec now s.outstanding_bytes bytes s h.carry
    exact ⟨hr.trans (h.order.trans hq.symm), hc⟩

/-- A report that finds no carry. Source: `UpSpeedEstimater::bytesWritten`. Kind: L -/
theorem accounted_of_zero {s : UpSpeedEstimater} {now : UInt64} {bytes : UInt32} (ho : s.Ordered)
    (ha : s.Accounted) (hv : s.Reports (.bytesWritten now bytes)) (hz : s.accumulated_bytes = 0) :
    (s.bytesWritten now bytes).Accounted := by
  obtain ⟨hb, hw⟩ := writtenLoop_bytes now s.outstanding_bytes bytes s hz
  have hsum : entryBytes s.removed + entryBytes s.outstanding_bytes = entryBytes s.queued := by
    rw [← ho.order, entryBytes_append]
  have hsofar : entryBytes s.removed = s.reported := by
    have := ha.bytes
    rwa [hz] at this
  have hroom : s.reported + bytes.toNat ≤ entryBytes s.queued := hv
  refine ⟨hb.trans ?_, (ordered_call s (.bytesWritten now bytes) ho).order, hw.trans ha.counter⟩
  show entryBytes s.removed + _ = s.reported + bytes.toNat
  omega

/-- A report that stays inside the entry the carry belongs to.
Source: `UpSpeedEstimater::bytesWritten`. Kind: L -/
theorem accounted_of_lt {s : UpSpeedEstimater} {now : UInt64} {bytes : UInt32} {e : Entry}
    {es : List Entry} (ho : s.Ordered) (ha : s.Accounted) (hes : s.outstanding_bytes = e :: es)
    (hlt : s.accumulated_bytes.toNat + bytes.toNat < e.bytes.toNat) :
    (s.bytesWritten now bytes).Accounted := by
  have hword := e.bytes.toNat_lt
  have hadd : (s.accumulated_bytes + bytes).toNat = s.accumulated_bytes.toNat + bytes.toNat := by
    rw [UInt32.toNat_add]
    omega
  have hnle : ¬ e.bytes ≤ bytes + s.accumulated_bytes := by
    rw [UInt32.add_comm, UInt32.le_iff_toNat_le, hadd]
    omega
  refine ⟨?_, (ordered_call s (.bytesWritten now bytes) ho).order, ?_⟩
  · show entryBytes (writtenLoop now s.outstanding_bytes bytes s).removed +
      (writtenLoop now s.outstanding_bytes bytes s).accumulated_bytes.toNat =
        s.reported + bytes.toNat
    have hbytes := ha.bytes
    rw [hes]
    unfold writtenLoop
    split_ifs with hpos
    · show entryBytes s.removed + (s.accumulated_bytes + bytes).toNat = _
      omega
    · have hzero : bytes.toNat = 0 := by
        have := UInt32.lt_iff_toNat_lt.not.mp hpos
        simpa using this
      show entryBytes s.removed + s.accumulated_bytes.toNat = _
      omega
  · show (writtenLoop now s.outstanding_bytes bytes s).wrapped = false
    rw [hes]
    unfold writtenLoop
    split_ifs with hpos <;> exact ha.counter

/-- **A report that ends the entry the carry belongs to** is not accounted for: the entry is taken
whole from a count that lacks the carry. Source: `UpSpeedEstimater::bytesWritten`. Kind: L -/
theorem not_accounted_of_le {s : UpSpeedEstimater} {now : UInt64} {bytes : UInt32} {e : Entry}
    {es : List Entry} (ha : s.Accounted) (hes : s.outstanding_bytes = e :: es)
    (hz : s.accumulated_bytes ≠ 0) (hcarry : s.accumulated_bytes < e.bytes)
    (hle : e.bytes.toNat ≤ s.accumulated_bytes.toNat + bytes.toNat) :
    ¬ (s.bytesWritten now bytes).Accounted := by
  intro h
  have hlt : s.accumulated_bytes.toNat < e.bytes.toNat := UInt32.lt_iff_toNat_lt.mp hcarry
  have hacc : 0 < s.accumulated_bytes.toNat := by
    apply Nat.pos_of_ne_zero
    intro h0
    exact hz (UInt32.toNat_inj.mp h0)
  have hpos : 0 < bytes := by
    apply UInt32.lt_iff_toNat_lt.mpr
    show 0 < bytes.toNat
    omega
  have hloop : writtenLoop now s.outstanding_bytes bytes s =
      if e.bytes ≤ bytes + s.accumulated_bytes then
        writtenLoop now es (bytes - e.bytes) (s.remove now bytes e)
      else
        { s with
          outstanding_bytes := e :: es
          accumulated_bytes := s.accumulated_bytes + bytes } := by
    rw [hes, writtenLoop, if_pos hpos]
  have hbytes : entryBytes (writtenLoop now s.outstanding_bytes bytes s).removed +
      (writtenLoop now s.outstanding_bytes bytes s).accumulated_bytes.toNat =
        s.reported + bytes.toNat := h.bytes
  have hcounter : (writtenLoop now s.outstanding_bytes bytes s).wrapped = false := h.counter
  have hsofar := ha.bytes
  by_cases hfit : e.bytes ≤ bytes + s.accumulated_bytes
  · rw [hloop, if_pos hfit] at hbytes hcounter
    by_cases hwrap : bytes < e.bytes
    · have hset : (s.remove now bytes e).wrapped = true := by
        rw [remove_wrapped, decide_eq_true hwrap, Bool.or_true]
      rw [wrapped_writtenLoop now es _ _ hset] at hcounter
      exact Bool.noConfusion hcounter
    · -- the entry is paid for by this report alone, so the carry is lost
      have hsub : (bytes - e.bytes).toNat = bytes.toNat - e.bytes.toNat :=
        UInt32.toNat_sub_of_le _ _ (UInt32.not_lt.mp hwrap)
      have hbig : e.bytes.toNat ≤ bytes.toNat :=
        UInt32.le_iff_toNat_le.mp (UInt32.not_lt.mp hwrap)
      rw [(writtenLoop_bytes now es _ (s.remove now bytes e) rfl).1, hsub, remove_removed,
        entryBytes_append, entryBytes_cons, entryBytes_nil] at hbytes
      omega
  · -- the sum in the comparison has wrapped
    rw [hloop, if_neg hfit] at hbytes
    have hsum : (s.accumulated_bytes + bytes).toNat = s.accumulated_bytes.toNat + bytes.toNat := by
      have : entryBytes s.removed + (s.accumulated_bytes + bytes).toNat =
        s.reported + bytes.toNat := hbytes
      omega
    apply hfit
    rw [UInt32.add_comm, UInt32.le_iff_toNat_le, hsum]
    exact hle

/-- **The exact condition on a call.**. Source: `torrent/upspeedestimater.h`,
`torrent/upspeedestimater.cpp`. Kind: P -/
theorem call_accounted_iff {s : UpSpeedEstimater} {c : Call} (ho : s.Ordered) (ha : s.Accounted)
    (hv : s.Reports c) : (s.call c).Accounted ↔ s.KeepsCarry c := by
  cases c with
  | writeBytes now bytes proto =>
    refine ⟨fun _ => trivial, fun _ => ⟨ha.bytes, ?_, ha.counter⟩⟩
    exact (ordered_call s (.writeBytes now bytes proto) ho).order
  | bytesWritten now bytes =>
    by_cases hz : s.accumulated_bytes = 0
    · exact ⟨fun _ => Or.inl hz, fun _ => accounted_of_zero ho ha hv hz⟩
    · obtain ⟨e, es, hes, hcarry⟩ := ho.carry.resolve_left hz
      have hhead : s.KeepsCarry (.bytesWritten now bytes) ↔
          s.accumulated_bytes.toNat + bytes.toNat < e.bytes.toNat := by
        simp [KeepsCarry, hz, hes]
      rw [hhead]
      constructor
      · intro h
        by_contra hle
        exact not_accounted_of_le ha hes hz hcarry (Nat.le_of_not_lt hle) h
      · exact accounted_of_lt ho ha hes

/-- **A run of calls** is noted. Source: `torrent/upspeedestimater.h`,
`torrent/upspeedestimater.cpp`. Kind: L -/
theorem noted_run (cs : List Call) : Noted cs (run call new cs) := by
  induction cs using List.reverseRecOn with
  | nil => exact ⟨rfl, rfl⟩
  | append_singleton cs c ih =>
    rw [run_append]
    cases c with
    | writeBytes now bytes proto =>
      refine ⟨?_, ?_⟩
      · show (run call new cs).queued ++ [_] = queuedBy (cs ++ [_])
        rw [ih.queued, queuedBy, queuedBy, List.filterMap_append]
        rfl
      · show (run call new cs).reported = reportedBy (cs ++ [_])
        rw [ih.reported, reportedBy, reportedBy, List.map_append, List.sum_append]
        rfl
    | bytesWritten now bytes =>
      refine ⟨?_, ?_⟩
      · have hqueued : ((run call new cs).bytesWritten now bytes).queued =
            (run call new cs).queued :=
          (writtenLoop_spec now _ bytes _ (run_inv ordered_call ordered_new cs).carry).2.1
        show ((run call new cs).bytesWritten now bytes).queued = queuedBy (cs ++ [_])
        rw [hqueued, ih.queued, queuedBy, queuedBy, List.filterMap_append]
        exact (List.append_nil _).symm
      · show (run call new cs).reported + bytes.toNat = reportedBy (cs ++ [_])
        rw [ih.reported, reportedBy, reportedBy, List.map_append, List.sum_append]
        exact congrArg _ (List.sum_singleton).symm

/-- **When uploaded bytes are accounted for.** As long as no more is reported written than has been
queued, the account of what the calls queued and reported is right after every call exactly when no
report ends an entry that an earlier report had begun.
Source: `UpSpeedEstimater::writeBytes`, `UpSpeedEstimater::bytesWritten`. Kind: P -/
theorem accounted_iff {cs : List Call} (hv : Meets call Reports new cs) :
    (∀ pre, pre <+: cs → Noted pre (run call new pre) ∧ (run call new pre).Accounted) ↔
      Meets call KeepsCarry new cs := by
  have hiff : (∀ pre, pre <+: cs → (run call new pre).Accounted) ↔ Meets call KeepsCarry new cs :=
    good_at_iff_meets ordered_call (fun _ _ ho ha hc => call_accounted_iff ho ha hc) ordered_new
      accounted_new hv
  rw [← hiff]
  exact ⟨fun h pre hpre => (h pre hpre).2, fun h pre hpre => ⟨noted_run pre, h pre hpre⟩⟩

/-- A report that covers a packet of 100 bytes and a part of the next, and one for some of its rest.
Source: `UpSpeedEstimater::writeBytes`. Kind: L -/
theorem accounted_part :
    let cs := [Call.writeBytes 0 100 false, .writeBytes 1 50 true, .bytesWritten 2 120, .bytesWritten 3 20]
    Noted cs (run call new cs) ∧ (run call new cs).Accounted := by
  intro cs
  have hreports : Meets call Reports new cs := ⟨trivial, trivial, by decide, by decide, trivial⟩
  refine (accounted_iff hreports).mpr ⟨trivial, trivial, .inl rfl, .inr fun e he => ?_, trivial⟩ cs
    (List.prefix_refl cs)
  obtain rfl := Option.some.inj he
  decide

/-- A packet of 10 bytes reported as 4 and 6: all that was queued has been reported, but the second
report takes 10 from 6 and the counter of remaining bytes wraps.
Source: `torrent/upspeedestimater.h`, `torrent/upspeedestimater.cpp`. Kind: P -/
theorem report_wraps :
    ¬ ∀ cs, Meets call Reports new cs → ∀ pre, pre <+: cs → (run call new pre).Accounted := by
  intro h
  have hcs := h [.writeBytes 0 10 false, .bytesWritten 1 4, .bytesWritten 2 6]
    ⟨trivial, by decide, by decide, trivial⟩ _ (List.prefix_refl _)
  have hwrapped : (run call new [Call.writeBytes 0 10 false, .bytesWritten 1 4,
      .bytesWritten 2 6]).wrapped = true := by decide
  rw [hcs.counter] at hwrapped
  exact Bool.noConfusion hwrapped

end UpSpeedEstimater

end KTorrent.Net
