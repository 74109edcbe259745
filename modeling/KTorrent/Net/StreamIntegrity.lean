import KTorrent.Net.PacketWriter

/-!
# What the packet writer sends

* `Fair` — between two pieces three control packets go out, unless none was waiting.
* `Sound` — the invariant: `curr_packet` is the front of a queue, only that packet can be on its way,
  and the packets sent, taken back and waiting are together the packets queued.
* `sound_queuePacket`, `sound_select`, `sound_drop`, `writeLoop_spec` — a lemma for each operation.
* `taken` — the packets a walk over the data queue takes back; `walk_spec` — it removes these and no
  others, queues what is to be queued for each, and changes nothing else.
* `History` — what the operations of a run ask for.
* `stream_integrity` — what follows for every run.

Source: `torrent/packetwriter.cpp`
-/

namespace KTorrent.Net

open KTorrent.Lib KTorrent.Util KTorrent.Transfer

namespace PacketWriter

/-! ### Turns -/

/-- How many control packets went out since the last piece. Kind: D -/
def ctrlRun (sent : List Sent) : ℕ := (sent.reverse.takeWhile fun s => !s.isPiece).length

/-- **Between two pieces three control packets go out**, unless none was waiting when the second
piece was selected. Kind: D -/
def Fair (sent : List Sent) : Prop :=
  ∀ pre d₁ mid d₂ post, sent = pre ++ d₁ :: mid ++ d₂ :: post → d₁.isPiece = true →
    (∀ s ∈ mid, s.isPiece = false) → d₂.isPiece = true → d₂.starved = true ∨ 3 ≤ mid.length

/-- One more control packet. Source: `torrent/packetwriter.cpp`. Kind: L -/
theorem ctrlRun_append_control {sent : List Sent} {s : Sent} (h : s.isPiece = false) :
    ctrlRun (sent ++ [s]) = ctrlRun sent + 1 := by
  simp [ctrlRun, h]

/-- A piece ends the run of control packets. Source: `ChunkDownload::piece`. Kind: L -/
theorem ctrlRun_append_piece {sent : List Sent} {s : Sent} (h : s.isPiece = true) :
    ctrlRun (sent ++ [s]) = 0 := by
  simp [ctrlRun, h]

/-- The control packets since the last piece. Source: `ChunkDownload::piece`. Kind: L -/
theorem ctrlRun_after_piece {pre mid : List Sent} {d : Sent} (hd : d.isPiece = true)
    (hmid : ∀ s ∈ mid, s.isPiece = false) : ctrlRun (pre ++ d :: mid) = mid.length := by
  induction mid using List.reverseRecOn with
  | nil => exact ctrlRun_append_piece hd
  | append_singleton mid s ih =>
    have hs : s.isPiece = false := hmid s (by simp)
    rw [show pre ++ d :: (mid ++ [s]) = pre ++ d :: mid ++ [s] by simp, ctrlRun_append_control hs,
      ih fun t ht => hmid t (by simp [ht]), List.length_append, List.length_singleton]

/-- Nothing sent is fair. Source: none: infrastructure. Kind: L -/
theorem fair_nil : Fair [] := by
  intro pre d₁ mid d₂ post h
  simp at h

/-- Where the last packet of a fair stream stands. Source: none: infrastructure. Kind: L -/
theorem Fair.append {sent : List Sent} {s : Sent} (h : Fair sent)
    (hs : s.isPiece = true → s.starved = true ∨ 3 ≤ ctrlRun sent) : Fair (sent ++ [s]) := by
  intro pre d₁ mid d₂ post heq h1 hmid h2
  rcases List.eq_nil_or_concat post with rfl | ⟨post, t, rfl⟩
  · obtain ⟨rfl, hd⟩ := List.append_inj' heq rfl
    obtain rfl : s = d₂ := by simpa using hd
    have hrun := hs h2
    rwa [ctrlRun_after_piece h1 hmid] at hrun
  · have heq' : sent ++ [s] = pre ++ d₁ :: mid ++ d₂ :: post ++ [t] := by
      rw [heq]
      simp
    obtain ⟨hsent, -⟩ := List.append_inj' heq' rfl
    exact h pre d₁ mid d₂ post hsent h1 hmid h2

/-! ### The invariant -/

/-- The bytes of a packet that have gone out. Kind: D -/
def started (p : Packet) : List UInt8 := p.serial.bytes.take p.written

/-- How many bytes wait to go out. Kind: D -/
def pending (w : PacketWriter) : ℕ := (w.packets.map fun p => p.serial.size - p.written).sum

/-- **What every operation keeps.** Kind: D -/
structure Sound (w : PacketWriter) : Prop where
  control : ∀ p ∈ w.control_packets, p.serial.type ≠ PIECE
  data : ∀ p ∈ w.data_packets, p.serial.type = PIECE
  /-- `curr_packet` points to the front of one of the queues. -/
  front : ∀ ptr, w.curr_packet = some ptr →
    (∃ p ps, w.control_packets = p :: ps ∧ p.ptr = ptr) ∨
      ∃ p ps, w.data_packets = p :: ps ∧ p.ptr = ptr
  unsent : ∀ p ∈ w.packets, p.written < p.serial.size
  /-- Only `curr_packet` can be on its way. -/
  resting : ∀ p ∈ w.packets, 0 < p.written → w.curr_packet = some p.ptr
  conserved : (w.sent.map (fun s => s.packet.content) ++ w.removed.map Packet.content ++
    w.packets.map Packet.content).Perm w.queued
  numbered : w.queued.map Prod.fst = List.range w.next_ptr
  removed : ∀ p ∈ w.removed, p.written = 0
  stream : w.out = (w.sent.flatMap fun s => s.packet.serial.bytes) ++ w.packets.flatMap started
  fair : Fair w.sent
  turn : w.ctrl_packets_sent ≤ ctrlRun w.sent
  next : ∀ p ∈ w.data_packets, w.curr_packet = some p.ptr →
    w.curr_starved = true ∨ 3 ≤ ctrlRun w.sent

/-- A new writer is sound. Source: `torrent/packetwriter.cpp`. Kind: L -/
theorem sound_new : Sound {} where
  control := by simp
  data := by simp
  front := by simp
  unsent := by simp [packets]
  resting := by simp [packets]
  conserved := .refl _
  numbered := rfl
  removed := by simp
  stream := rfl
  fair := fair_nil
  turn := Nat.zero_le _
  next := by simp

namespace Sound

variable {w : PacketWriter}

/-- No two allocations waiting are the same. Source: `torrent/packetwriter.cpp`. Kind: L -/
theorem nodup (h : Sound w) : (w.packets.map Packet.ptr).Nodup := by
  have hall : ((w.sent.map (fun s => s.packet.content) ++ w.removed.map Packet.content ++
      w.packets.map Packet.content).map Prod.fst).Nodup := by
    rw [(h.conserved.map Prod.fst).nodup_iff, h.numbered]
    exact List.nodup_range
  rw [List.map_append, List.map_map] at hall
  exact hall.of_append_right

/-- Packets are older than the next allocation. Source: `torrent/packetwriter.cpp`. Kind: L -/
theorem ptr_lt (h : Sound w) {p : Packet} (hp : p ∈ w.packets) : p.ptr < w.next_ptr := by
  have hmem : p.content ∈ w.queued :=
    h.conserved.subset (List.mem_append_right _ (List.mem_map_of_mem hp))
  have hfst := List.mem_map_of_mem (f := Prod.fst) hmem
  rw [h.numbered] at hfst
  exact List.mem_range.mp hfst

/-- The pointer tells packets apart. Source: `torrent/packetwriter.cpp`. Kind: L -/
theorem eq_of_ptr (h : Sound w) {p q : Packet} (hp : p ∈ w.packets) (hq : q ∈ w.packets)
    (heq : p.ptr = q.ptr) : p = q :=
  List.inj_on_of_nodup_map h.nodup hp hq heq

/-- The control packets are among the packets. Source: `torrent/packetwriter.cpp`. Kind: L -/
theorem mem_control {p : Packet} (hp : p ∈ w.control_packets) : p ∈ w.packets :=
  List.mem_append_left _ hp

/-- The data packets are among the packets. Source: `torrent/packetwriter.cpp`. Kind: L -/
theorem mem_data {p : Packet} (hp : p ∈ w.data_packets) : p ∈ w.packets :=
  List.mem_append_right _ hp

/-- The queues share no packet. Source: `torrent/packetwriter.cpp`. Kind: L -/
theorem ptr_ne (h : Sound w) {p q : Packet} (hp : p ∈ w.control_packets)
    (hq : q ∈ w.data_packets) : p.ptr ≠ q.ptr := by
  intro heq
  have hpq := h.eq_of_ptr (mem_control hp) (mem_data hq) heq
  exact h.control p hp (by rw [hpq]; exact h.data q hq)

/-- The packet `curr_packet` points to. Source: `torrent/packetwriter.cpp`. Kind: L -/
theorem find_eq (h : Sound w) {p : Packet} (hp : p ∈ w.packets) : w.find p.ptr = some p := by
  obtain ⟨q, hq⟩ : ∃ q, w.find p.ptr = some q := by
    refine Option.isSome_iff_exists.mp (List.find?_isSome.mpr ⟨p, hp, ?_⟩)
    simp
  have hptr : q.ptr = p.ptr := by simpa using List.find?_some hq
  rw [hq, h.eq_of_ptr (List.mem_of_find?_eq_some hq) hp hptr]

end Sound

/-! ### Queueing and selecting -/

/-- Packets nothing was written of have started no bytes. Source: `torrent/packetwriter.cpp`.
Kind: L -/
theorem flatMap_resting {ps : List Packet} (h : ∀ p ∈ ps, p.written = 0) :
    ps.flatMap started = [] := by
  rw [List.flatMap_eq_nil_iff]
  intro p hp
  rw [started, h p hp, List.take_zero]

/-- The packets are those of the two queues. Source: `torrent/packetwriter.cpp`. Kind: L -/
theorem mem_packets {w : PacketWriter} {p : Packet} :
    p ∈ w.packets ↔ p ∈ w.control_packets ∨ p ∈ w.data_packets := List.mem_append

/-- The queues after a packet is queued. Source: `PacketWriter::queuePacket`. Kind: L -/
theorem queuePacket_cases (s : Serial) (w : PacketWriter) :
    (s.type = PIECE ∧ (w.queuePacket s).control_packets = w.control_packets ∧
        (w.queuePacket s).data_packets = w.data_packets ++ [⟨w.next_ptr, s, 0⟩]) ∨
      (s.type ≠ PIECE ∧ (w.queuePacket s).control_packets =
          w.control_packets ++ [⟨w.next_ptr, s, 0⟩] ∧
        (w.queuePacket s).data_packets = w.data_packets) := by
  unfold queuePacket
  by_cases h : s.type = PIECE
  · exact Or.inl ⟨h, by simp [h]⟩
  · exact Or.inr ⟨h, by simp [h]⟩

/-- Everything else after a packet is queued. Source: `PacketWriter::queuePacket`. Kind: L -/
theorem queuePacket_frame (s : Serial) (w : PacketWriter) :
    (w.queuePacket s).curr_packet = w.curr_packet ∧
      (w.queuePacket s).ctrl_packets_sent = w.ctrl_packets_sent ∧
      (w.queuePacket s).next_ptr = w.next_ptr + 1 ∧
      (w.queuePacket s).curr_starved = w.curr_starved ∧ (w.queuePacket s).sent = w.sent ∧
      (w.queuePacket s).removed = w.removed ∧
      (w.queuePacket s).queued = w.queued ++ [(w.next_ptr, s)] ∧
      (w.queuePacket s).out = w.out := by
  unfold queuePacket
  split_ifs <;> exact ⟨rfl, rfl, rfl, rfl, rfl, rfl, rfl, rfl⟩

/-- A queued packet is one more, at the end of its queue. Source: `PacketWriter::queuePacket`.
Kind: L -/
theorem packets_queuePacket (s : Serial) (w : PacketWriter) :
    (w.queuePacket s).packets.Perm (w.packets ++ [⟨w.next_ptr, s, 0⟩]) := by
  unfold packets
  obtain ⟨-, hc, hd⟩ | ⟨-, hc, hd⟩ := queuePacket_cases s w
  · rw [hc, hd, List.append_assoc]
  · rw [hc, hd, List.append_assoc, List.append_assoc]
    exact List.perm_append_comm.append_left _

/-- A queued packet has not started. Source: `PacketWriter::queuePacket`. Kind: L -/
theorem started_queuePacket (s : Serial) (w : PacketWriter) :
    (w.queuePacket s).packets.flatMap started = w.packets.flatMap started := by
  unfold packets
  obtain ⟨-, hc, hd⟩ | ⟨-, hc, hd⟩ := queuePacket_cases s w
  · rw [hc, hd]
    simp [started]
  · rw [hc, hd]
    simp [started]

/-- Queueing a packet. Source: `PacketWriter::queuePacket`. Kind: L -/
theorem sound_queuePacket {w : PacketWriter} (h : Sound w) (s : Serial) :
    Sound (w.queuePacket s) := by
  obtain ⟨e1, e2, e3, e4, e5, e6, e7, e8⟩ := queuePacket_frame s w
  have hmem : ∀ p, p ∈ (w.queuePacket s).packets → p ∈ w.packets ∨ p = ⟨w.next_ptr, s, 0⟩ := by
    intro p hp
    simpa using (packets_queuePacket s w).subset hp
  have hcases := queuePacket_cases s w
  constructor
  · intro p hp
    obtain ⟨-, hc, -⟩ | ⟨hs, hc, -⟩ := hcases
    · exact h.control p (by rwa [hc] at hp)
    · rw [hc, List.mem_append, List.mem_singleton] at hp
      rcases hp with hp | rfl
      · exact h.control p hp
      · exact hs
  · intro p hp
    obtain ⟨hs, -, hd⟩ | ⟨-, -, hd⟩ := hcases
    · rw [hd, List.mem_append, List.mem_singleton] at hp
      rcases hp with hp | rfl
      · exact h.data p hp
      · exact hs
    · exact h.data p (by rwa [hd] at hp)
  · intro ptr hptr
    rw [e1] at hptr
    obtain ⟨-, hc, hd⟩ | ⟨-, hc, hd⟩ := hcases
    · rw [hc, hd]
      obtain hl | ⟨p, ps, hps, hp⟩ := h.front ptr hptr
      · exact Or.inl hl
      · exact Or.inr ⟨p, _, by rw [hps, List.cons_append], hp⟩
    · rw [hc, hd]
      obtain ⟨p, ps, hps, hp⟩ | hr := h.front ptr hptr
      · exact Or.inl ⟨p, _, by rw [hps, List.cons_append], hp⟩
      · exact Or.inr hr
  · intro p hp
    rcases hmem p hp with hp | rfl
    · exact h.unsent p hp
    · exact s.size_pos
  · intro p hp hw
    rw [e1]
    rcases hmem p hp with hp | rfl
    · exact h.resting p hp hw
    · exact absurd hw (lt_irrefl 0)
  · rw [e5, e6, e7]
    refine ((List.Perm.refl _).append ((packets_queuePacket s w).map _)).trans ?_
    rw [List.map_append, ← List.append_assoc]
    exact h.conserved.append_right _
  · rw [e3, e7, List.map_append, h.numbered, List.range_succ]
    rfl
  · rw [e6]
    exact h.removed
  · rw [e8, e5, started_queuePacket]
    exact h.stream
  · rw [e5]
    exact h.fair
  · rw [e2, e5]
    exact h.turn
  · intro p hp hptr
    rw [e1] at hptr
    rw [e4, e5]
    obtain ⟨-, -, hd⟩ | ⟨-, -, hd⟩ := hcases
    · rw [hd, List.mem_append, List.mem_singleton] at hp
      rcases hp with hp | rfl
      · exact h.next p hp hptr
      · -- the new packet is not the one selected before
        obtain ⟨q, qs, hqs, hq⟩ | ⟨q, qs, hqs, hq⟩ := h.front _ hptr
        · have hlt := h.ptr_lt (Sound.mem_control (p := q) (by rw [hqs]; simp))
          exact absurd hq (Nat.ne_of_lt hlt)
        · have hlt := h.ptr_lt (Sound.mem_data (p := q) (by rw [hqs]; simp))
          exact absurd hq (Nat.ne_of_lt hlt)
    · exact h.next p (by rwa [hd] at hp) hptr

/-- What `selectPacket` chooses. Source: `PacketWriter::selectPacket`. Kind: L -/
theorem selectPacket_cases (w : PacketWriter) :
    (w.selectPacket = (w, none) ∧ w.packets = []) ∨
      (∃ p ps, w.selectPacket = (w, some p) ∧ w.control_packets = p :: ps ∧
        (w.ctrl_packets_sent < 3 ∨ w.data_packets = [])) ∨
      (∃ p ps, w.selectPacket = (w, some p) ∧ w.data_packets = p :: ps ∧
        w.control_packets = []) ∨
      ∃ p ps, w.selectPacket = ({ w with ctrl_packets_sent := 0 }, some p) ∧
        w.data_packets = p :: ps ∧ 3 ≤ w.ctrl_packets_sent := by
  unfold selectPacket packets
  cases hc : w.control_packets with
  | nil =>
    cases hd : w.data_packets with
    | nil =>
      left
      split_ifs <;> exact ⟨rfl, rfl⟩
    | cons p ps =>
      right; right
      split_ifs with h3
      · exact Or.inl ⟨p, ps, rfl, rfl, rfl⟩
      · exact Or.inr ⟨p, ps, rfl, rfl, by omega⟩
  | cons p ps =>
    right
    cases hd : w.data_packets with
    | nil =>
      left
      split_ifs <;> exact ⟨p, ps, rfl, rfl, Or.inr rfl⟩
    | cons q qs =>
      split_ifs with h3
      · exact Or.inl ⟨p, ps, rfl, rfl, Or.inl h3⟩
      · exact Or.inr (Or.inr ⟨q, qs, rfl, rfl, by omega⟩)

/-- Only the packet whose turn it is and the count change. Source: `PacketWriter::onReadyToWrite`.
Kind: L -/
theorem select_frame (w : PacketWriter) :
    w.select.control_packets = w.control_packets ∧ w.select.data_packets = w.data_packets ∧
      w.select.sent = w.sent ∧ w.select.removed = w.removed ∧ w.select.queued = w.queued ∧
      w.select.next_ptr = w.next_ptr ∧ w.select.out = w.out ∧
      w.select.ctrl_packets_sent ≤ w.ctrl_packets_sent := by
  unfold select
  obtain ⟨h, -⟩ | ⟨p, ps, h, -⟩ | ⟨p, ps, h, -⟩ | ⟨p, ps, h, -⟩ := selectPacket_cases w
  all_goals
    rw [h]
    refine ⟨rfl, rfl, rfl, rfl, rfl, rfl, rfl, ?_⟩
    first | exact le_rfl | exact Nat.zero_le _

/-- Selecting the next packet, when none is on its way. Source: `PacketWriter::onReadyToWrite`.
Kind: L -/
theorem sound_select {w : PacketWriter} (h : Sound { w with curr_packet := none }) :
    Sound w.select := by
  obtain ⟨e1, e2, e3, e4, e5, e6, e7, e8⟩ := select_frame w
  have hpackets : w.select.packets = w.packets := by
    unfold packets
    rw [e1, e2]
  have hcurr : w.select.curr_packet = w.selectPacket.2.map Packet.ptr := rfl
  have hzero : ∀ p ∈ w.packets, p.written = 0 := by
    intro p hp
    by_contra hne
    exact absurd (h.resting p hp (Nat.pos_of_ne_zero hne)) (by simp)
  have hcases := selectPacket_cases w
  constructor
  · rw [e1]
    exact h.control
  · rw [e2]
    exact h.data
  · intro ptr hptr
    rw [hcurr] at hptr
    rw [e1, e2]
    obtain ⟨hs, -⟩ | ⟨p, ps, hs, hc, -⟩ | ⟨p, ps, hs, hd, -⟩ | ⟨p, ps, hs, hd, -⟩ := hcases
    · rw [hs] at hptr
      cases hptr
    · rw [hs] at hptr
      exact Or.inl ⟨p, ps, hc, Option.some.inj hptr⟩
    · rw [hs] at hptr
      exact Or.inr ⟨p, ps, hd, Option.some.inj hptr⟩
    · rw [hs] at hptr
      exact Or.inr ⟨p, ps, hd, Option.some.inj hptr⟩
  · rw [hpackets]
    exact h.unsent
  · intro p hp hw
    rw [hpackets] at hp
    exact absurd (hzero p hp) (Nat.ne_of_gt hw)
  · rw [e3, e4, e5, hpackets]
    exact h.conserved
  · rw [e5, e6]
    exact h.numbered
  · rw [e4]
    exact h.removed
  · rw [e7, e3, hpackets]
    exact h.stream
  · rw [e3]
    exact h.fair
  · rw [e3]
    exact e8.trans h.turn
  · intro p hp hptr
    rw [hcurr] at hptr
    rw [e2] at hp
    rw [e3]
    obtain ⟨hs, -⟩ | ⟨q, qs, hs, hc, -⟩ | ⟨q, qs, hs, -, hc⟩ | ⟨q, qs, hs, -, h3⟩ := hcases
    · rw [hs] at hptr
      cases hptr
    · -- a control packet was chosen, so no piece is on its way
      rw [hs] at hptr
      exact absurd (Option.some.inj hptr)
        (h.ptr_ne (p := q) (show q ∈ w.control_packets by rw [hc]; simp) hp)
    · refine Or.inl ?_
      show w.control_packets.isEmpty = true
      rw [hc]
      rfl
    · exact Or.inr (h3.trans h.turn)

/-! ### Taking back -/

/-- Taking back a piece that is not on its way. Source: `torrent/packetwriter.cpp`. Kind: L -/
theorem sound_drop {w : PacketWriter} (h : Sound w) {p : Packet} (hp : p ∈ w.data_packets)
    (hw : p.written = 0) : Sound (w.drop p) := by
  obtain ⟨q, l₁, l₂, hl₁, hq, hsplit, herase⟩ :=
    List.exists_of_eraseP (p := fun q : Packet => decide (q.ptr = p.ptr)) hp (by simp)
  have hqd : q ∈ w.data_packets := by
    rw [hsplit]
    simp
  obtain rfl : q = p :=
    h.eq_of_ptr (Sound.mem_data hqd) (Sound.mem_data hp) (by simpa using hq)
  have hdata : (w.drop q).data_packets = l₁ ++ l₂ := herase
  have hsub : ∀ r ∈ (w.drop q).data_packets, r ∈ w.data_packets := by
    intro r hr
    rw [hdata] at hr
    rw [hsplit]
    rcases List.mem_append.mp hr with hr | hr <;> simp [hr]
  have hpsub : ∀ r ∈ (w.drop q).packets, r ∈ w.packets := by
    intro r hr
    rcases mem_packets.mp hr with hr | hr
    · exact Sound.mem_control hr
    · exact Sound.mem_data (hsub r hr)
  have hcurr : ∀ ptr, (w.drop q).curr_packet = some ptr → w.curr_packet = some ptr ∧
      ptr ≠ q.ptr := by
    intro ptr hptr
    have hif : (if w.curr_packet = some q.ptr then none else w.curr_packet) = some ptr := hptr
    split_ifs at hif with hne
    refine ⟨hif, ?_⟩
    rintro rfl
    exact hne hif
  constructor
  · exact h.control
  · exact fun r hr => h.data r (hsub r hr)
  · intro ptr hptr
    obtain ⟨hc, hne⟩ := hcurr ptr hptr
    obtain hl | ⟨r, rs, hrs, hr⟩ := h.front ptr hc
    · exact Or.inl hl
    · right
      show ∃ r' rs', List.eraseP (fun x => decide (x.ptr = q.ptr)) w.data_packets = r' :: rs' ∧ _
      rw [hrs, List.eraseP_cons_of_neg (by simpa [hr] using hne)]
      exact ⟨r, _, rfl, hr⟩
  · exact fun r hr => h.unsent r (hpsub r hr)
  · intro r hr hrw
    have hc := h.resting r (hpsub r hr) hrw
    have hne : w.curr_packet ≠ some q.ptr := by
      intro hq'
      have hrq := h.eq_of_ptr (hpsub r hr) (Sound.mem_data hp)
        (Option.some.inj (hc.symm.trans hq'))
      rw [hrq, hw] at hrw
      exact absurd hrw (lt_irrefl 0)
    exact (if_neg hne).trans hc
  · refine List.Perm.trans ?_ h.conserved
    show ((w.sent.map fun s => s.packet.content) ++ (w.removed ++ [q]).map Packet.content ++
      (w.control_packets ++ (w.drop q).data_packets).map Packet.content).Perm _
    unfold packets
    rw [hdata, hsplit]
    simp only [List.map_append, List.map_cons, List.map_nil, List.append_assoc]
    refine List.Perm.append_left _ (List.Perm.append_left _ ?_)
    rw [List.singleton_append, ← List.append_assoc, ← List.append_assoc]
    exact List.perm_middle.symm
  · exact h.numbered
  · intro r hr
    rcases List.mem_append.mp hr with hr | hr
    · exact h.removed r hr
    · rw [List.mem_singleton.mp hr]
      exact hw
  · show w.out = _ ++ (w.control_packets ++ (w.drop q).data_packets).flatMap started
    have hnil : started q = [] := by
      rw [started, hw, List.take_zero]
    rw [h.stream, packets, hdata, hsplit]
    simp only [List.flatMap_append, List.flatMap_cons, hnil, List.nil_append]
    rfl
  · exact h.fair
  · exact h.turn
  · exact fun r hr hptr => h.next r (hsub r hr) (hcurr _ hptr).1

/-- One round of the walk. Source: `PacketWriter::doNotSendPiece`, `clearPieces`. Kind: L -/
theorem sound_takeBack {w : PacketWriter} (h : Sound w) (hit : Packet → Bool)
    (reject : Packet → Option Serial) {p : Packet} (hp : p ∈ w.data_packets) :
    Sound (w.takeBack hit reject p) ∧ ∀ q ∈ w.data_packets, q.ptr ≠ p.ptr →
      q ∈ (w.takeBack hit reject p).data_packets := by
  have hkeep : ∀ q ∈ w.data_packets, q.ptr ≠ p.ptr → q ∈ (w.drop p).data_packets := by
    intro q hq hne
    exact (List.mem_eraseP_of_neg (by simpa using hne)).mpr hq
  unfold takeBack
  split_ifs with hif
  · obtain ⟨-, hs⟩ := Bool.and_eq_true_iff.mp hif
    have hw : p.written = 0 := by
      simpa [Packet.sending] using hs
    have hdrop := sound_drop h hp hw
    cases reject p with
    | none => exact ⟨hdrop, hkeep⟩
    | some s =>
      refine ⟨sound_queuePacket hdrop s, fun q hq hne => ?_⟩
      obtain ⟨-, -, hd⟩ | ⟨-, -, hd⟩ := queuePacket_cases s (w.drop p)
      · rw [hd]
        exact List.mem_append_left _ (hkeep q hq hne)
      · rw [hd]
        exact hkeep q hq hne
  · exact ⟨h, fun q hq _ => hq⟩

/-- The walk over the data queue. Source: `torrent/packetwriter.cpp`. Kind: L -/
theorem sound_walk (hit : Packet → Bool) (reject : Packet → Option Serial) (ps : List Packet) :
    ∀ {w : PacketWriter}, Sound w → (∀ p ∈ ps, p ∈ w.data_packets) → (ps.map Packet.ptr).Nodup →
      Sound (ps.foldl (takeBack hit reject) w) := by
  induction ps with
  | nil =>
    intro w h _ _
    exact h
  | cons p ps ih =>
    intro w h hmem hnodup
    rw [List.map_cons, List.nodup_cons] at hnodup
    obtain ⟨hstep, hkeep⟩ := sound_takeBack h hit reject (hmem p (by simp))
    refine ih hstep (fun q hq => hkeep q (hmem q (by simp [hq])) ?_) hnodup.2
    rintro heq
    exact hnodup.1 (by rw [← heq]; exact List.mem_map_of_mem hq)

/-- No data packet is queued twice. Source: `torrent/packetwriter.cpp`. Kind: L -/
theorem Sound.nodup_data {w : PacketWriter} (h : Sound w) :
    (w.data_packets.map Packet.ptr).Nodup := by
  have hall := h.nodup
  rw [packets, List.map_append] at hall
  exact hall.of_append_right

/-- Taking pieces back keeps the writer sound. Source: `PacketWriter::doNotSendPiece`. Kind: L -/
theorem sound_doNotSendPiece {w : PacketWriter} (h : Sound w) (beyond : ℕ → List UInt8)
    (req : Request) (reject : Bool) : Sound (w.doNotSendPiece beyond req reject) :=
  sound_walk _ _ _ h (fun _ hp => hp) h.nodup_data

/-- Clearing the pieces keeps the writer sound. Source: `PacketWriter::clearPieces`. Kind: L -/
theorem sound_clearPieces {w : PacketWriter} (h : Sound w) (reject : Bool) :
    Sound (w.clearPieces reject) :=
  sound_walk _ _ _ h (fun _ hp => hp) h.nodup_data

/-! ### Taking pieces back -/

/-- The packets a walk takes back. Kind: D -/
def taken (hit : Packet → Bool) (ps : List Packet) : List Packet :=
  ps.filter fun p => hit p && !p.sending

/-- What a walk over `ps` makes of a writer. Kind: D -/
structure Walked (hit : Packet → Bool) (reject : Packet → Option Serial) (ps : List Packet)
    (w w' : PacketWriter) : Prop where
  data : w'.data_packets = w.data_packets.filter fun q => q.ptr ∉ (taken hit ps).map Packet.ptr
  control : ∃ new, w'.control_packets = w.control_packets ++ new ∧
    new.map Packet.serial = (taken hit ps).filterMap reject ∧ ∀ p ∈ new, p.written = 0
  removed : w'.removed = w.removed ++ taken hit ps
  sent : w'.sent = w.sent
  queued : w'.queued.map Prod.snd = w.queued.map Prod.snd ++ (taken hit ps).filterMap reject

/-- The walk over an empty queue. Source: none: infrastructure. Kind: L -/
theorem walked_nil (hit : Packet → Bool) (reject : Packet → Option Serial) (w : PacketWriter) :
    Walked hit reject [] w w where
  data := by simp [taken]
  control := ⟨[], by simp [taken]⟩
  removed := by simp [taken]
  sent := rfl
  queued := by simp [taken]

/-- Two walks in a row. Source: none: infrastructure. Kind: L -/
theorem Walked.trans {hit : Packet → Bool} {reject : Packet → Option Serial}
    {ps₁ ps₂ : List Packet} {w₁ w₂ w₃ : PacketWriter} (h₁ : Walked hit reject ps₁ w₁ w₂)
    (h₂ : Walked hit reject ps₂ w₂ w₃) : Walked hit reject (ps₁ ++ ps₂) w₁ w₃ := by
  have htaken : taken hit (ps₁ ++ ps₂) = taken hit ps₁ ++ taken hit ps₂ := List.filter_append ps₁ ps₂
  obtain ⟨new₁, hc₁, hs₁, hz₁⟩ := h₁.control
  obtain ⟨new₂, hc₂, hs₂, hz₂⟩ := h₂.control
  constructor
  · rw [h₂.data, h₁.data, List.filter_filter, htaken]
    apply List.filter_congr
    intro q _
    simp only [List.map_append, List.mem_append, not_or, ← Bool.decide_and, and_comm]
  · refine ⟨new₁ ++ new₂, by rw [hc₂, hc₁, List.append_assoc], ?_, ?_⟩
    · rw [List.map_append, hs₁, hs₂, htaken, List.filterMap_append]
    · intro p hp
      rcases List.mem_append.mp hp with hp | hp
      · exact hz₁ p hp
      · exact hz₂ p hp
  · rw [h₂.removed, h₁.removed, htaken, List.append_assoc]
  · rw [h₂.sent, h₁.sent]
  · rw [h₂.queued, h₁.queued, htaken, List.filterMap_append, List.append_assoc]

/-- The first packet of a number is the only one. Source: `torrent/packetwriter.cpp`. Kind: L -/
theorem eraseP_ptr {ps : List Packet} (h : (ps.map Packet.ptr).Nodup) (n : ℕ) :
    (ps.eraseP fun q => q.ptr = n) = ps.filter fun q => q.ptr ≠ n := by
  induction ps with
  | nil => rfl
  | cons p ps ih =>
    rw [List.map_cons, List.nodup_cons] at h
    by_cases hp : p.ptr = n
    · have hrest : (ps.filter fun q => q.ptr ≠ n) = ps := by
        rw [List.filter_eq_self]
        intro q hq
        rw [decide_eq_true_iff]
        rintro rfl
        exact h.1 (hp ▸ List.mem_map_of_mem hq)
      rw [List.eraseP_cons_of_pos (by simpa using hp), List.filter_cons_of_neg (by simpa using hp),
        hrest]
    · rw [List.eraseP_cons_of_neg (by simpa using hp), List.filter_cons_of_pos (by simpa using hp),
        ih h.2]

/-- One round of a walk. Source: `PacketWriter::doNotSendPiece`, `clearPieces`. Kind: L -/
theorem walked_takeBack (hit : Packet → Bool) {reject : Packet → Option Serial}
    (hreject : ∀ p s, reject p = some s → s.type ≠ PIECE) {w : PacketWriter}
    (hn : (w.data_packets.map Packet.ptr).Nodup) (p : Packet) :
    Walked hit reject [p] w (w.takeBack hit reject p) := by
  unfold takeBack
  by_cases h : hit p && !p.sending
  · have htaken : taken hit [p] = [p] := List.filter_cons_of_pos h
    have hdata : (w.drop p).data_packets =
        w.data_packets.filter fun q => q.ptr ∉ (taken hit [p]).map Packet.ptr := by
      rw [htaken]
      refine (eraseP_ptr hn p.ptr).trans (List.filter_congr fun q _ => ?_)
      simp
    rw [if_pos h]
    cases hs : reject p with
    | none =>
      have hnone : (taken hit [p]).filterMap reject = [] := by
        rw [htaken, List.filterMap_cons, hs]
        rfl
      constructor
      · exact hdata
      · exact ⟨[], by rw [hnone]; exact ⟨(List.append_nil _).symm, rfl, by simp⟩⟩
      · rw [htaken]
        rfl
      · rfl
      · rw [hnone, List.append_nil]
        rfl
    | some s =>
      have hsome : (taken hit [p]).filterMap reject = [s] := by
        rw [htaken, List.filterMap_cons, hs]
        rfl
      obtain ⟨hp, -, -⟩ | ⟨-, hc, hd⟩ := queuePacket_cases s (w.drop p)
      · exact absurd hp (hreject p s hs)
      obtain ⟨-, -, -, -, e5, e6, e7, -⟩ := queuePacket_frame s (w.drop p)
      dsimp only
      constructor
      · rw [hd]
        exact hdata
      · refine ⟨[⟨(w.drop p).next_ptr, s, 0⟩], hc, ?_, ?_⟩
        · rw [hsome]
          rfl
        · intro q hq
          rw [List.mem_singleton.mp hq]
      · rw [e6, htaken]
        rfl
      · rw [e5]
        rfl
      · rw [e7, hsome, List.map_append]
        rfl
  · have htaken : taken hit [p] = [] := List.filter_cons_of_neg h
    rw [if_neg h]
    have hnil := walked_nil hit reject w
    have hnone : taken hit ([] : List Packet) = taken hit [p] := htaken.symm
    exact ⟨hnone ▸ hnil.data, hnone ▸ hnil.control, hnone ▸ hnil.removed, hnil.sent,
      hnone ▸ hnil.queued⟩

/-- **A walk** takes back what it hits and is not on its way, in order, and nothing else.
Source: `torrent/packetwriter.cpp`. Kind: P -/
theorem walk_spec (hit : Packet → Bool) {reject : Packet → Option Serial}
    (hreject : ∀ p s, reject p = some s → s.type ≠ PIECE) (ps : List Packet) {w : PacketWriter}
    (hn : (w.data_packets.map Packet.ptr).Nodup) :
    Walked hit reject ps w (ps.foldl (takeBack hit reject) w) := by
  induction ps generalizing w with
  | nil => exact walked_nil hit reject w
  | cons p ps ih =>
    have hstep := walked_takeBack hit hreject hn p
    have hn' : ((w.takeBack hit reject p).data_packets.map Packet.ptr).Nodup := by
      rw [hstep.data]
      exact hn.sublist (List.filter_sublist.map Packet.ptr)
    exact hstep.trans (ih hn')

/-- The rejects a walk queues are no pieces. Source: `PacketWriter::doNotSendPiece`. Kind: L -/
theorem reject_doNotSendPiece {req : Request} {reject : Bool} (_ : Packet) (s : Serial)
    (hs : (if reject then some (Serial.ofRequest req REJECT_REQUEST reject_ne_piece) else none) =
      some s) : s.type ≠ PIECE := by
  split_ifs at hs
  obtain rfl := Option.some.inj hs
  exact reject_ne_piece

/-- The rejects a walk queues are no pieces. Source: `PacketWriter::clearPieces`. Kind: L -/
theorem reject_clearPieces {reject : Bool} (p : Packet) (s : Serial)
    (hs : (if reject then some p.serial.makeRejectOfPiece else none) = some s) : s.type ≠ PIECE := by
  split_ifs at hs
  obtain rfl := Option.some.inj hs
  exact reject_ne_piece

/-! ### Writing -/

/-- Replacing the front of a queue that holds no other packet of its number.
Source: `torrent/packetwriter.cpp`. Kind: L -/
theorem map_front {p r : Packet} {ps : List Packet} (hp : p.ptr = r.ptr)
    (hps : ∀ q ∈ ps, q.ptr ≠ r.ptr) :
    ((p :: ps).map fun q => if q.ptr = r.ptr then r else q) = r :: ps := by
  rw [List.map_cons, if_pos hp]
  congr 1
  refine (List.map_congr_left fun q hq => ?_).trans (List.map_id ps)
  exact if_neg (hps q hq)

/-- Replacing a packet that is not in the list. Source: `torrent/packetwriter.cpp`. Kind: L -/
theorem map_other {r : Packet} {ps : List Packet} (hps : ∀ q ∈ ps, q.ptr ≠ r.ptr) :
    (ps.map fun q => if q.ptr = r.ptr then r else q) = ps :=
  (List.map_congr_left fun q hq => if_neg (hps q hq)).trans (List.map_id ps)

/-- The queues while the packet in front goes out. Source: `torrent/packetwriter.cpp`. Kind: L -/
theorem put_cases {w : PacketWriter} (h : Sound w) {ptr : ℕ} (hptr : w.curr_packet = some ptr) :
    ∃ p, w.find ptr = some p ∧ p.ptr = ptr ∧ p ∈ w.packets ∧ (∀ q ∈ w.packets, q ≠ p → q.written = 0) ∧
      ((∃ ps, w.control_packets = p :: ps ∧ ∀ r bs, r.ptr = ptr →
          (w.put r bs).control_packets = r :: ps ∧ (w.put r bs).data_packets = w.data_packets) ∨
        ∃ ps, w.data_packets = p :: ps ∧ ∀ r bs, r.ptr = ptr →
          (w.put r bs).control_packets = w.control_packets ∧ (w.put r bs).data_packets = r :: ps) := by
  have hrest : ∀ p, p.ptr = ptr → p ∈ w.packets → ∀ q ∈ w.packets, q ≠ p → q.written = 0 := by
    intro p hp hpm q hq hne
    by_contra hw
    have hqp := Option.some.inj (hptr.symm.trans (h.resting q hq (Nat.pos_of_ne_zero hw)))
    exact hne (h.eq_of_ptr hq hpm (hqp.symm.trans hp.symm))
  have hnodup := h.nodup
  obtain ⟨p, ps, hps, hp⟩ | ⟨p, ps, hps, hp⟩ := h.front ptr hptr
  · have hmem : p ∈ w.control_packets := by
      rw [hps]
      simp
    refine ⟨p, by rw [← hp]; exact h.find_eq (Sound.mem_control hmem), hp, Sound.mem_control hmem,
      hrest p hp (Sound.mem_control hmem), Or.inl ⟨ps, hps, fun r bs hr => ⟨?_, ?_⟩⟩⟩
    · show w.control_packets.map _ = _
      rw [hps]
      refine map_front (hp.trans hr.symm) fun q hq heq => ?_
      rw [packets, hps, List.cons_append, List.map_cons, List.nodup_cons] at hnodup
      refine hnodup.1 (List.mem_map.mpr ⟨q, List.mem_append_left _ hq, ?_⟩)
      rw [heq, hr, hp]
    · refine map_other fun q hq heq => ?_
      exact h.ptr_ne hmem hq (hp.trans (hr.symm.trans heq.symm))
  · have hmem : p ∈ w.data_packets := by
      rw [hps]
      simp
    refine ⟨p, by rw [← hp]; exact h.find_eq (Sound.mem_data hmem), hp, Sound.mem_data hmem,
      hrest p hp (Sound.mem_data hmem), Or.inr ⟨ps, hps, fun r bs hr => ⟨?_, ?_⟩⟩⟩
    · refine map_other fun q hq heq => ?_
      exact h.ptr_ne hq hmem (heq.trans (hr.trans hp.symm))
    · show w.data_packets.map _ = _
      rw [hps]
      refine map_front (hp.trans hr.symm) fun q hq heq => ?_
      have hd := h.nodup_data
      rw [hps, List.map_cons, List.nodup_cons] at hd
      refine hd.1 (List.mem_map.mpr ⟨q, hq, ?_⟩)
      rw [heq, hr, hp]

/-- Where the packet in front stands: the others rest, and it changes in place.
Source: `torrent/packetwriter.cpp`. Kind: L -/
theorem split_front {w : PacketWriter} (h : Sound w) {p : Packet}
    (hptr : w.curr_packet = some p.ptr) (hp : p ∈ w.packets) :
    ∃ l₁ l₂, w.packets = l₁ ++ p :: l₂ ∧
      (∀ t, t ∈ l₁ ∨ t ∈ l₂ → t ∈ w.packets ∧ t.written = 0) ∧
      (∀ r bs, r.ptr = p.ptr → (w.put r bs).packets = l₁ ++ r :: l₂) ∧
      ((∃ ps, w.control_packets = p :: ps ∧ l₁ = [] ∧ l₂ = ps ++ w.data_packets ∧
          ∀ r bs, r.ptr = p.ptr → (w.put r bs).control_packets = r :: ps ∧
            (w.put r bs).data_packets = w.data_packets) ∨
        ∃ ps, w.data_packets = p :: ps ∧ l₁ = w.control_packets ∧ l₂ = ps ∧
          ∀ r bs, r.ptr = p.ptr → (w.put r bs).control_packets = w.control_packets ∧
            (w.put r bs).data_packets = r :: ps) := by
  obtain ⟨q, -, hq, hqm, hzero, hcases⟩ := put_cases h hptr
  obtain rfl : q = p := h.eq_of_ptr hqm hp hq
  have hne : ∀ {l₁ l₂}, w.packets = l₁ ++ q :: l₂ → ∀ t, t ∈ l₁ ∨ t ∈ l₂ → t ∈ w.packets ∧
      t.written = 0 := by
    intro l₁ l₂ hsplit t ht
    have hmem : t ∈ w.packets := by
      rw [hsplit]
      rcases ht with ht | ht <;> simp [ht]
    refine ⟨hmem, hzero t hmem ?_⟩
    rintro rfl
    have hnodup := h.nodup.of_map
    rw [hsplit] at hnodup
    exact (List.nodup_middle.mp hnodup).notMem (List.mem_append.mpr ht)
  obtain ⟨ps, hps, hput⟩ | ⟨ps, hps, hput⟩ := hcases
  · have hold : w.packets = [] ++ q :: (ps ++ w.data_packets) := by
      rw [packets, hps]
      rfl
    refine ⟨[], ps ++ w.data_packets, hold, hne hold, fun r bs hr => ?_,
      Or.inl ⟨ps, hps, rfl, rfl, hput⟩⟩
    obtain ⟨h1, h2⟩ := hput r bs hr
    rw [packets, h1, h2]
    rfl
  · have hold : w.packets = w.control_packets ++ q :: ps := by
      rw [packets, hps]
    refine ⟨w.control_packets, ps, hold, hne hold, fun r bs hr => ?_,
      Or.inr ⟨ps, hps, rfl, rfl, hput⟩⟩
    obtain ⟨h1, h2⟩ := hput r bs hr
    rw [packets, h1, h2]

/-- Some bytes of the packet in front go out, but not its last. Source: `torrent/packetwriter.cpp`.
Kind: L -/
theorem sound_put {w : PacketWriter} (h : Sound w) {p : Packet}
    (hptr : w.curr_packet = some p.ptr) (hp : p ∈ w.packets) {room : ℕ}
    (hn : (p.putInOutputBuffer room).1.isSent = false) :
    Sound (w.put (p.putInOutputBuffer room).1 (p.putInOutputBuffer room).2) := by
  obtain ⟨l₁, l₂, hold, hne, hnew, hcases⟩ := split_front h hptr hp
  obtain ⟨r, hr⟩ : ∃ r, r = (p.putInOutputBuffer room).1 := ⟨_, rfl⟩
  obtain ⟨bs, hbs⟩ : ∃ bs, bs = (p.putInOutputBuffer room).2 := ⟨_, rfl⟩
  have hstarted : started p ++ bs = started r := by
    rw [hr, hbs]
    exact p.take_putInOutputBuffer room
  rw [← hr] at hn
  rw [← hr, ← hbs]
  have hrp : r.ptr = p.ptr := by rw [hr]; rfl
  have hrs : r.serial = p.serial := by rw [hr]; rfl
  have hrw : r.written < r.serial.size := by
    have hle : r.written ≤ r.serial.size := by
      have hunsent := h.unsent p hp
      rw [hr]
      show p.written + min (p.serial.size - p.written) room ≤ p.serial.size
      omega
    exact lt_of_le_of_ne hle (by simpa [Packet.isSent] using hn)
  have hmem : ∀ t ∈ (w.put r bs).packets, t = r ∨ t ∈ w.packets ∧ t.written = 0 := by
    intro t ht
    rw [hnew r bs hrp, List.mem_append, List.mem_cons] at ht
    rcases ht with ht | rfl | ht
    · exact Or.inr (hne t (Or.inl ht))
    · exact Or.inl rfl
    · exact Or.inr (hne t (Or.inr ht))
  constructor
  · intro t ht
    obtain ⟨ps, hps, -, -, hput⟩ | ⟨ps, hps, -, -, hput⟩ := hcases
    · rw [(hput r bs hrp).1] at ht
      rcases List.mem_cons.mp ht with rfl | ht
      · rw [hrs]
        exact h.control p (by rw [hps]; simp)
      · exact h.control t (by rw [hps]; simp [ht])
    · rw [(hput r bs hrp).1] at ht
      exact h.control t ht
  · intro t ht
    obtain ⟨ps, hps, -, -, hput⟩ | ⟨ps, hps, -, -, hput⟩ := hcases
    · rw [(hput r bs hrp).2] at ht
      exact h.data t ht
    · rw [(hput r bs hrp).2] at ht
      rcases List.mem_cons.mp ht with rfl | ht
      · rw [hrs]
        exact h.data p (by rw [hps]; simp)
      · exact h.data t (by rw [hps]; simp [ht])
  · intro ptr hptr'
    obtain rfl : p.ptr = ptr := Option.some.inj (hptr.symm.trans hptr')
    obtain ⟨ps, -, -, -, hput⟩ | ⟨ps, -, -, -, hput⟩ := hcases
    · exact Or.inl ⟨r, ps, (hput r bs hrp).1, hrp⟩
    · exact Or.inr ⟨r, ps, (hput r bs hrp).2, hrp⟩
  · intro t ht
    rcases hmem t ht with rfl | ⟨htm, -⟩
    · exact hrw
    · exact h.unsent t htm
  · intro t ht htw
    rcases hmem t ht with rfl | ⟨-, hz⟩
    · rw [hrp]
      exact hptr
    · exact absurd hz (Nat.ne_of_gt htw)
  · refine List.Perm.trans (List.Perm.of_eq ?_) h.conserved
    show _ ++ (w.put r bs).packets.map Packet.content = _
    rw [hnew r bs hrp, hold]
    simp [Packet.content, hrp, hrs]
    rfl
  · exact h.numbered
  · exact h.removed
  · show w.out ++ bs = _ ++ (w.put r bs).packets.flatMap started
    have h1 : l₁.flatMap started = [] := flatMap_resting fun t ht => (hne t (Or.inl ht)).2
    have h2 : l₂.flatMap started = [] := flatMap_resting fun t ht => (hne t (Or.inr ht)).2
    rw [h.stream, hnew r bs hrp, hold]
    simp only [List.flatMap_append, List.flatMap_cons, h1, h2, List.nil_append, List.append_nil,
      List.append_assoc, hstarted]
    rfl
  · exact h.fair
  · exact h.turn
  · intro t ht htp
    obtain ⟨ps, hps, -, -, hput⟩ | ⟨ps, hps, -, -, hput⟩ := hcases
    · rw [(hput r bs hrp).2] at ht
      exact h.next t ht htp
    · exact h.next p (by rw [hps]; simp) hptr

/-- What taking the front packet off its queue leaves. Source: `torrent/packetwriter.cpp`.
Kind: L -/
theorem pop_eq {w : PacketWriter} (h : Sound w) {p r : Packet} (bs : List UInt8)
    (hptr : w.curr_packet = some p.ptr) (hp : p ∈ w.packets) (hrp : r.ptr = p.ptr)
    (hrs : r.serial = p.serial) :
    ∃ l₁ l₂ w₂, w.packets = l₁ ++ p :: l₂ ∧
      (∀ t, t ∈ l₁ ∨ t ∈ l₂ → t ∈ w.packets ∧ t.written = 0) ∧ (w.put r bs).pop r = some w₂ ∧
      w₂.packets = l₁ ++ l₂ ∧ (∀ t ∈ w₂.control_packets, t ∈ w.control_packets) ∧
      (∀ t ∈ w₂.data_packets, t ∈ w.data_packets) ∧ w₂.next_ptr = w.next_ptr ∧
      w₂.sent = w.sent ++ [⟨r, w.curr_starved⟩] ∧ w₂.removed = w.removed ∧ w₂.queued = w.queued ∧
      w₂.out = w.out ++ bs ∧ w₂.ctrl_packets_sent ≤ ctrlRun w₂.sent ∧
      (p.serial.type = PIECE → p ∈ w.data_packets) := by
  obtain ⟨l₁, l₂, hold, hne, -, hcases⟩ := split_front h hptr hp
  obtain ⟨ps, hps, rfl, rfl, hput⟩ | ⟨ps, hps, rfl, rfl, hput⟩ := hcases
  · obtain ⟨h1, h2⟩ := hput r bs hrp
    have htype : r.serial.type ≠ PIECE := by
      rw [hrs]
      exact h.control p (by rw [hps]; simp)
    refine ⟨[], ps ++ w.data_packets, { w.put r bs with
      control_packets := ps
      ctrl_packets_sent := u32 (w.ctrl_packets_sent + 1)
      sent := w.sent ++ [⟨r, w.curr_starved⟩] }, hold, hne, ?_, ?_, ?_, ?_, rfl, rfl, rfl, rfl, rfl,
      ?_, ?_⟩
    · unfold pop
      rw [if_neg htype, h1]
      rfl
    · show ps ++ (w.put r bs).data_packets = _
      rw [h2]
      rfl
    · intro t ht
      rw [hps]
      exact List.mem_cons_of_mem _ ht
    · intro t ht
      rwa [show _ = (w.put r bs).data_packets from rfl, h2] at ht
    · show u32 (w.ctrl_packets_sent + 1) ≤ ctrlRun (w.sent ++ [⟨r, w.curr_starved⟩])
      rw [ctrlRun_append_control (by simpa [Sent.isPiece] using htype)]
      exact (Nat.mod_le _ _).trans (Nat.succ_le_succ h.turn)
    · intro hpiece
      exact absurd (hrs ▸ hpiece) htype
  · obtain ⟨h1, h2⟩ := hput r bs hrp
    have hmem : p ∈ w.data_packets := by
      rw [hps]
      simp
    have htype : r.serial.type = PIECE := by
      rw [hrs]
      exact h.data p hmem
    refine ⟨w.control_packets, l₂, { w.put r bs with
      data_packets := l₂
      ctrl_packets_sent := 0
      sent := w.sent ++ [⟨r, w.curr_starved⟩] }, hold, hne, ?_, ?_, ?_, ?_, rfl, rfl, rfl, rfl, rfl,
      Nat.zero_le _, fun _ => hmem⟩
    · unfold pop
      rw [if_pos htype, h2]
      rfl
    · show (w.put r bs).control_packets ++ l₂ = _
      rw [h1]
    · intro t ht
      rwa [show _ = (w.put r bs).control_packets from rfl, h1] at ht
    · intro t ht
      rw [hps]
      exact List.mem_cons_of_mem _ ht

/-- The last byte of the packet in front goes out, and the packet is removed.
Source: `torrent/packetwriter.cpp`. Kind: L -/
theorem sound_pop {w : PacketWriter} (h : Sound w) {p : Packet}
    (hptr : w.curr_packet = some p.ptr) (hp : p ∈ w.packets) {room : ℕ}
    (hsent : (p.putInOutputBuffer room).1.isSent = true) :
    ∃ w₂, (w.put (p.putInOutputBuffer room).1 (p.putInOutputBuffer room).2).pop
        (p.putInOutputBuffer room).1 = some w₂ ∧ Sound { w₂ with curr_packet := none } ∧
      w₂.packets.length + 1 = w.packets.length ∧
      w₂.out = w.out ++ (p.putInOutputBuffer room).2 ∧
      pending w₂ + (p.putInOutputBuffer room).2.length = pending w := by
  obtain ⟨r, hr⟩ : ∃ r, r = (p.putInOutputBuffer room).1 := ⟨_, rfl⟩
  obtain ⟨bs, hbs⟩ : ∃ bs, bs = (p.putInOutputBuffer room).2 := ⟨_, rfl⟩
  have hstarted : started p ++ bs = started r := by
    rw [hr, hbs]
    exact p.take_putInOutputBuffer room
  rw [← hr] at hsent
  rw [← hr, ← hbs]
  have hrp : r.ptr = p.ptr := by rw [hr]; rfl
  have hrs : r.serial = p.serial := by rw [hr]; rfl
  have hrw : r.written = r.serial.size := by simpa [Packet.isSent] using hsent
  have hfull : started r = r.serial.bytes := by
    rw [started, hrw]
    exact List.take_length
  have hlen : bs.length = p.serial.size - p.written := by
    have h1 : r.written = p.written + bs.length := by
      rw [hr, hbs, p.length_putInOutputBuffer]
      rfl
    rw [hrs] at hrw
    omega
  obtain ⟨l₁, l₂, w₂, hold, hne, hpop, hpk, hc, hd, e1, e2, e3, e4, e5, hturn, hpiece⟩ :=
    pop_eq h bs hptr hp hrp hrs
  have hz₁ : l₁.flatMap started = [] := flatMap_resting fun t ht => (hne t (Or.inl ht)).2
  have hz₂ : l₂.flatMap started = [] := flatMap_resting fun t ht => (hne t (Or.inr ht)).2
  have hmem : ∀ t ∈ w₂.packets, t ∈ w.packets ∧ t.written = 0 := by
    intro t ht
    rw [hpk] at ht
    exact hne t (List.mem_append.mp ht)
  refine ⟨w₂, hpop, ?_, ?_, e5, ?_⟩
  · constructor
    · exact fun t ht => h.control t (hc t ht)
    · exact fun t ht => h.data t (hd t ht)
    · intro ptr hn
      cases hn
    · exact fun t ht => h.unsent t (hmem t ht).1
    · intro t ht hw
      exact absurd (hmem t ht).2 (Nat.ne_of_gt hw)
    · show (w₂.sent.map (fun s => s.packet.content) ++ w₂.removed.map Packet.content ++
        w₂.packets.map Packet.content).Perm w₂.queued
      have hcontent : r.content = p.content := by
        rw [Packet.content, hrp, hrs]
        rfl
      rw [e2, e3, e4, hpk]
      refine List.Perm.trans ?_ h.conserved
      rw [hold]
      simp only [List.map_append, List.map_cons, List.map_nil, List.append_assoc, hcontent]
      refine List.Perm.append_left _ ?_
      rw [List.singleton_append, ← List.append_assoc, ← List.append_assoc]
      exact List.perm_middle.symm
    · show w₂.queued.map Prod.fst = List.range w₂.next_ptr
      rw [e1, e4]
      exact h.numbered
    · show ∀ t ∈ w₂.removed, t.written = 0
      rw [e3]
      exact h.removed
    · show w₂.out = (w₂.sent.flatMap fun s => s.packet.serial.bytes) ++ w₂.packets.flatMap started
      rw [e5, e2, hpk, h.stream, hold]
      simp only [List.flatMap_append, List.flatMap_cons, hz₁, hz₂, List.nil_append,
        List.append_nil, List.flatMap_nil, List.append_assoc, hstarted, hfull]
    · show Fair w₂.sent
      rw [e2]
      refine h.fair.append fun hs => ?_
      have htype : p.serial.type = PIECE := by
        rw [← hrs]
        simpa [Sent.isPiece] using hs
      exact h.next p (hpiece htype) hptr
    · exact hturn
    · intro t _ hn
      cases hn
  · rw [hpk, hold]
    simp only [List.length_append, List.length_cons]
    omega
  · unfold pending
    rw [hpk, hold, hlen]
    simp only [List.map_append, List.map_cons, List.sum_append, List.sum_cons]
    omega

/-- Selecting moves no packet. Source: `PacketWriter::onReadyToWrite`. Kind: L -/
theorem packets_select (w : PacketWriter) : w.select.packets = w.packets := by
  obtain ⟨e1, e2, -⟩ := select_frame w
  rw [packets, packets, e1, e2]

/-- Selecting leaves what is pending. Source: `PacketWriter::onReadyToWrite`. Kind: L -/
theorem pending_select (w : PacketWriter) : pending w.select = pending w := by
  unfold pending
  rw [packets_select]

/-- A packet is selected wherever one waits. Source: `PacketWriter::onReadyToWrite`. Kind: L -/
theorem select_none {w : PacketWriter} (h : w.select.curr_packet = none) : w.select.packets = [] := by
  rw [packets_select]
  have hcurr : w.selectPacket.2.map Packet.ptr = none := h
  obtain ⟨-, hnil⟩ | ⟨p, ps, hs, -⟩ | ⟨p, ps, hs, -⟩ | ⟨p, ps, hs, -⟩ := selectPacket_cases w
  · exact hnil
  all_goals
    rw [hs] at hcurr
    cases hcurr

/-- Bytes of a packet that is not sent fully. Source: `torrent/packetwriter.cpp`. Kind: L -/
theorem pending_put {w : PacketWriter} (h : Sound w) {p : Packet}
    (hptr : w.curr_packet = some p.ptr) (hp : p ∈ w.packets) (room : ℕ) :
    pending (w.put (p.putInOutputBuffer room).1 (p.putInOutputBuffer room).2) +
      (p.putInOutputBuffer room).2.length = pending w := by
  obtain ⟨l₁, l₂, hold, -, hnew, -⟩ := split_front h hptr hp
  have hunsent := h.unsent p hp
  have hsize : (p.putInOutputBuffer room).1.serial.size - (p.putInOutputBuffer room).1.written +
      (p.putInOutputBuffer room).2.length = p.serial.size - p.written := by
    rw [p.length_putInOutputBuffer]
    show p.serial.size - (p.written + p.room room) + p.room room = _
    unfold Packet.room
    omega
  unfold pending
  rw [hnew (p.putInOutputBuffer room).1 (p.putInOutputBuffer room).2 rfl, hold]
  simp only [List.map_append, List.map_cons, List.sum_append, List.sum_cons]
  omega

/-- **The loop**: no pointer dangles, the room is used as far as packets wait, and the bytes put are
those that go out. Source: `PacketWriter::onReadyToWrite`. Kind: L -/
theorem writeLoop_spec (fuel : ℕ) : ∀ {w : PacketWriter} (room : ℕ), Sound w →
    (w.curr_packet = none → w.packets = []) → w.packets.length < fuel →
      ∃ w' bs, writeLoop fuel room w = some (w', bs) ∧ Sound w' ∧
        bs.length = min room (pending w) ∧ pending w' + bs.length = pending w ∧
        w'.out = w.out ++ bs := by
  induction fuel with
  | zero =>
    intro w room _ _ hfuel
    exact absurd hfuel (Nat.not_lt_zero _)
  | succ fuel ih =>
    intro w room h hnone hfuel
    unfold writeLoop
    cases hptr : w.curr_packet with
    | none =>
      refine ⟨w, [], rfl, h, ?_, rfl, (List.append_nil _).symm⟩
      simp [pending, hnone hptr]
    | some ptr =>
      dsimp only
      split_ifs with hroom
      · exact ⟨w, [], rfl, h, by simp [hroom], rfl, (List.append_nil _).symm⟩
      obtain ⟨p, hfind, rfl, hp, -⟩ := put_cases h hptr
      rw [hfind]
      have hunsent := h.unsent p hp
      have hle := pending_put h hptr hp room
      have hlen := p.length_putInOutputBuffer room
      dsimp only
      split_ifs with hs
      · obtain ⟨w₂, hpop, hsound, hcount, hout, hpend⟩ := sound_pop h hptr hp hs
        rw [hpop]
        obtain ⟨w', bs, hloop, hw', hbs, hpend', hout'⟩ :=
          ih (room - (p.putInOutputBuffer room).2.length) (sound_select hsound) select_none
            (by rw [packets_select]; omega)
        have hsel := (select_frame w₂).2.2.2.2.2.2.1
        rw [pending_select] at hbs hpend'
        refine ⟨w', (p.putInOutputBuffer room).2 ++ bs, ?_, hw', ?_, ?_, ?_⟩
        · show (writeLoop fuel _ w₂.select).map _ = _
          rw [hloop]
          rfl
        · rw [List.length_append, hbs]
          unfold Packet.room at hlen
          omega
        · rw [List.length_append]
          omega
        · rw [hout', hsel, hout, List.append_assoc]
      · -- the packet does not fit into the room
        refine ⟨_, _, rfl, sound_put h hptr hp (by simpa using hs), ?_, hle, rfl⟩
        have hne : p.written + p.room room ≠ p.serial.size := by
          intro heq
          exact hs (decide_eq_true heq)
        unfold Packet.room at hlen hne
        omega

/-- **What a call of `onReadyToWrite` does.**. Source: `PacketWriter::onReadyToWrite`. Kind: L -/
theorem onReadyToWrite_spec {w : PacketWriter} (h : Sound w) (max : ℕ) :
    ∃ w' bs, w.onReadyToWrite max = some (w', bs) ∧ Sound w' ∧ bs.length = min max (pending w) ∧
      pending w' + bs.length = pending w ∧ w'.out = w.out ++ bs := by
  unfold onReadyToWrite
  cases hptr : w.curr_packet with
  | none =>
    have hsound : Sound w.select := sound_select (by rwa [← hptr])
    have hspec := writeLoop_spec (w.select.packets.length + 1) max hsound select_none
      (Nat.lt_succ_self _)
    rwa [pending_select, (select_frame w).2.2.2.2.2.2.1] at hspec
  | some ptr =>
    refine writeLoop_spec (w.packets.length + 1) max h (fun hn => ?_) (Nat.lt_succ_self _)
    cases hptr.symm.trans hn

/-- Nothing waits exactly if no byte does. Source: `torrent/packetwriter.cpp`. Kind: L -/
theorem Sound.pending_eq_zero {w : PacketWriter} (h : Sound w) (hz : pending w = 0) :
    w.packets = [] := by
  refine List.eq_nil_iff_forall_not_mem.mpr fun p hp => ?_
  have hall := List.sum_eq_zero_iff_forall_eq_nat.mp hz
  have hp0 := hall _ (List.mem_map_of_mem (f := fun p => p.serial.size - p.written) hp)
  have hunsent := h.unsent p hp
  omega

/-! ### What a call of `onReadyToWrite` keeps -/

/-- Nothing is queued or taken back, and pieces on their way stay so. Kind: D -/
structure Onward (w w' : PacketWriter) : Prop where
  queued : w'.queued = w.queued
  removed : w'.removed = w.removed
  sending : (∀ p ∈ w.data_packets, p.sending = true) → ∀ p ∈ w'.data_packets, p.sending = true

/-- Going on twice. Source: none: infrastructure. Kind: L -/
theorem Onward.trans {w₁ w₂ w₃ : PacketWriter} (h₁ : Onward w₁ w₂) (h₂ : Onward w₂ w₃) :
    Onward w₁ w₃ :=
  ⟨h₂.queued.trans h₁.queued, h₂.removed.trans h₁.removed, fun h => h₂.sending (h₁.sending h)⟩

/-- Selecting goes on with the same packets. Source: `PacketWriter::onReadyToWrite`. Kind: L -/
theorem onward_select (w : PacketWriter) : Onward w w.select := by
  obtain ⟨-, hd, -, hr, hq, -⟩ := select_frame w
  exact ⟨hq, hr, fun h p hp => h p (hd ▸ hp)⟩

/-- Bytes of the packet in front go out. Source: `torrent/packetwriter.cpp`. Kind: L -/
theorem onward_put {w : PacketWriter} (h : Sound w) {p : Packet}
    (hptr : w.curr_packet = some p.ptr) (hp : p ∈ w.packets) (room : ℕ) :
    Onward w (w.put (p.putInOutputBuffer room).1 (p.putInOutputBuffer room).2) := by
  refine ⟨rfl, rfl, fun hall q hq => ?_⟩
  obtain ⟨p', -, hp', hmem, -, hcases⟩ := put_cases h hptr
  obtain rfl : p' = p := h.eq_of_ptr hmem hp hp'
  have hsame : (p'.putInOutputBuffer room).1.ptr = p'.ptr := rfl
  obtain ⟨ps, -, hput⟩ | ⟨ps, hps, hput⟩ := hcases
  · rw [(hput _ _ hsame).2] at hq
    exact hall q hq
  · rw [(hput _ _ hsame).2] at hq
    rcases List.mem_cons.mp hq with rfl | hq
    · have hs := hall p' (by rw [hps]; exact List.mem_cons_self)
      rw [Packet.sending, decide_eq_true_iff] at hs ⊢
      exact Nat.lt_of_lt_of_le hs (Nat.le_add_right _ _)
    · exact hall q (by rw [hps]; exact List.mem_cons_of_mem _ hq)

/-- The loop of `onReadyToWrite`. Source: `PacketWriter::onReadyToWrite`. Kind: L -/
theorem onward_writeLoop (fuel : ℕ) : ∀ {w w' : PacketWriter} {room : ℕ} {bs : List UInt8},
    Sound w → writeLoop fuel room w = some (w', bs) → Onward w w' := by
  induction fuel with
  | zero =>
    intro w w' room bs _ h
    cases h
  | succ fuel ih =>
    intro w w' room bs hsound h
    unfold writeLoop at h
    cases hptr : w.curr_packet with
    | none =>
      rw [hptr] at h
      obtain ⟨rfl, -⟩ := Prod.mk.inj (Option.some.inj h)
      exact ⟨rfl, rfl, fun hall => hall⟩
    | some ptr =>
      obtain ⟨p, hfind, rfl, hp, -⟩ := put_cases hsound hptr
      rw [hptr] at h
      dsimp only at h
      rw [hfind] at h
      dsimp only at h
      have hput := onward_put hsound hptr hp room
      split_ifs at h with hroom hs
      · obtain ⟨rfl, -⟩ := Prod.mk.inj (Option.some.inj h)
        exact ⟨rfl, rfl, fun hall => hall⟩
      · obtain ⟨w₂, hpop, hsound₂, -⟩ := sound_pop hsound hptr hp hs
        obtain ⟨_, _, w₃, -, -, hpop', -, -, hdata, -, -, hremoved, hqueued, -⟩ :=
          pop_eq hsound (p.putInOutputBuffer room).2 hptr hp
            (r := (p.putInOutputBuffer room).1) rfl rfl
        obtain rfl : w₂ = w₃ := Option.some.inj (hpop.symm.trans hpop')
        rw [hpop] at h
        obtain ⟨⟨w₄, bs₄⟩, hloop, heq⟩ := Option.map_eq_some_iff.mp h
        obtain ⟨rfl, -⟩ := Prod.mk.inj heq
        have hpopped : Onward w w₂ := ⟨hqueued, hremoved, fun hall q hq => hall q (hdata q hq)⟩
        exact hpopped.trans ((onward_select w₂).trans (ih (sound_select hsound₂) hloop))
      · obtain ⟨rfl, -⟩ := Prod.mk.inj (Option.some.inj h)
        exact hput

/-- **A call of `onReadyToWrite`** queues nothing, takes nothing back, and leaves the pieces that
are on their way on it. Source: `PacketWriter::onReadyToWrite`. Kind: L -/
theorem onward_onReadyToWrite {w w' : PacketWriter} {max : ℕ} {bs : List UInt8} (hsound : Sound w)
    (h : w.onReadyToWrite max = some (w', bs)) : Onward w w' := by
  unfold onReadyToWrite at h
  cases hptr : w.curr_packet with
  | none =>
    rw [hptr] at h
    exact (onward_select w).trans (onward_writeLoop _ (sound_select (by rwa [← hptr])) h)
  | some ptr =>
    rw [hptr] at h
    exact onward_writeLoop _ hsound h

/-! ### Runs -/

/-- What the operations ask for: the packets to be queued, in their order, and those to be taken back.
Kind: D -/
structure History where
  queued : List Serial := []
  removed : List Packet := []

/-- A walk over the data queue takes back what it hits, and queues what is to be queued for that.
Kind: D -/
def History.walk (h : History) (hit : Packet → Bool) (reject : Packet → Option Serial)
    (ps : List Packet) : History where
  queued := h.queued ++ (taken hit ps).filterMap reject
  removed := h.removed ++ taken hit ps

/-- What an operation asks for in the state it finds. Kind: D -/
def History.next (h : History) (w : PacketWriter) : Op → History
  | .queuePacket s => { h with queued := h.queued ++ [s] }
  | .onReadyToWrite _ => h
  | .doNotSendPiece beyond req reject =>
    h.walk (fun p => p.serial.isPiece (beyond p.ptr) req)
      (fun _ => if reject then some (.ofRequest req REJECT_REQUEST reject_ne_piece) else none)
      w.data_packets
  | .clearPieces reject =>
    h.walk (fun p => decide (p.serial.type = PIECE))
      (fun p => if reject then some p.serial.makeRejectOfPiece else none) w.data_packets

/-- The writer and what was asked of it. Kind: D -/
def stepWith (q : Option PacketWriter × History) (op : Op) : Option PacketWriter × History :=
  (step q.1 op, match q.1 with
    | none => q.2
    | some w => q.2.next w op)

/-- What a run asks for. Kind: D -/
def history (ops : List Op) : History := (run stepWith (some {}, {}) ops).2

/-- What was asked for was queued and taken back. Kind: D -/
structure Did (h : History) (w : PacketWriter) : Prop where
  queued : w.queued.map Prod.snd = h.queued
  removed : w.removed = h.removed

/-- A walk does what was asked for. Source: `PacketWriter::doNotSendPiece`, `clearPieces`. Kind: L -/
theorem Did.walk {h : History} {w : PacketWriter} (hd : Did h w) (hs : Sound w) (hit : Packet → Bool)
    {reject : Packet → Option Serial} (hreject : ∀ p s, reject p = some s → s.type ≠ PIECE) :
    Did (h.walk hit reject w.data_packets) (w.data_packets.foldl (takeBack hit reject) w) := by
  have hwalk := walk_spec hit hreject w.data_packets hs.nodup_data
  refine ⟨?_, ?_⟩
  · rw [hwalk.queued, hd.queued]
    rfl
  · rw [hwalk.removed, hd.removed]
    rfl

/-- **One operation** keeps the invariant, does what was asked for, and no pointer dangles.
Source: `torrent/packetwriter.cpp`. Kind: L -/
theorem sound_step {h : History} {w : PacketWriter} (hs : Sound w) (hd : Did h w) (op : Op) :
    ∃ w', step (some w) op = some w' ∧ Sound w' ∧ Did (h.next w op) w' := by
  cases op with
  | queuePacket s =>
    obtain ⟨-, -, -, -, -, hr, hq, -⟩ := queuePacket_frame s w
    refine ⟨_, rfl, sound_queuePacket hs s, ?_, hr.trans hd.removed⟩
    rw [hq, List.map_append, hd.queued]
    rfl
  | onReadyToWrite max =>
    obtain ⟨w', bs, heq, hw', -⟩ := onReadyToWrite_spec hs max
    have honward := onward_onReadyToWrite hs heq
    refine ⟨w', congrArg (Option.map Prod.fst) heq, hw', ?_, honward.removed.trans hd.removed⟩
    rw [honward.queued]
    exact hd.queued
  | doNotSendPiece beyond req reject =>
    exact ⟨_, rfl, sound_doNotSendPiece hs beyond req reject, hd.walk hs _ reject_doNotSendPiece⟩
  | clearPieces reject =>
    exact ⟨_, rfl, sound_clearPieces hs reject, hd.walk hs _ reject_clearPieces⟩

/-- The writer does not look at what was asked. Source: none: infrastructure. Kind: L -/
theorem run_stepWith (q : Option PacketWriter × History) (ops : List Op) :
    (run stepWith q ops).1 = run step q.1 ops := by
  induction ops generalizing q with
  | nil => rfl
  | cons op ops ih => exact ih (stepWith q op)

/-- **A run** keeps the invariant, does what was asked for, and no pointer dangles.
Source: `torrent/packetwriter.cpp`. Kind: L -/
theorem sound_of_run (ops : List Op) :
    ∃ w, run step (some {}) ops = some w ∧ Sound w ∧ Did (history ops) w := by
  have hstep : ∀ (q : Option PacketWriter × History) (op : Op),
      (∃ w, q.1 = some w ∧ Sound w ∧ Did q.2 w) →
      ∃ w', (stepWith q op).1 = some w' ∧ Sound w' ∧ Did (stepWith q op).2 w' := by
    rintro ⟨_, h⟩ op ⟨w, rfl, hs, hd⟩
    exact sound_step hs hd op
  obtain ⟨w, hrun, hs, hd⟩ := run_inv hstep (s := (some {}, {})) ⟨{}, rfl, sound_new, rfl, rfl⟩ ops
  rw [run_stepWith] at hrun
  exact ⟨w, hrun, hs, hd⟩

/-- **What a packet writer promises** that was asked for this. Kind: D -/
structure Integrity (h : History) (w : PacketWriter) : Prop where
  /-- What was asked for was queued and taken back. -/
  did : Did h w
  /-- The stream is whole packets, and then the front of the one on its way, … -/
  stream : ∃ part, w.out = (w.sent.flatMap fun s => s.packet.serial.bytes) ++ part ∧
    (part = [] ∨ ∃ p ∈ w.packets, w.curr_packet = some p.ptr ∧ part = p.serial.bytes.take p.written ∧
      part.length < p.serial.size)
  /-- … each packet queued is sent, taken back or waiting, and only one of these, once, … -/
  once : (w.sent.map (fun s => s.packet.content) ++ w.removed.map Packet.content ++
    w.packets.map Packet.content).Perm w.queued
  distinct : (w.queued.map Prod.fst).Nodup
  /-- … taken back only before its first byte went out. -/
  unsent : ∀ p ∈ w.removed, p.written = 0
  /-- `curr_packet` is the front of the queue it came from. -/
  front : ∀ ptr, w.curr_packet = some ptr →
    (∃ p ps, w.control_packets = p :: ps ∧ p.ptr = ptr) ∨
      ∃ p ps, w.data_packets = p :: ps ∧ p.ptr = ptr
  /-- Three control packets between two pieces, unless none was waiting. -/
  fair : Fair w.sent
  /-- A call puts as many bytes as fit and wait, … -/
  writes : ∀ max, ∃ w' bs, w.onReadyToWrite max = some (w', bs) ∧ w'.out = w.out ++ bs ∧
    bs.length = min max (pending w)
  /-- … and with room for all, every packet that waits is sent. -/
  drains : ∀ max, pending w ≤ max → ∃ w' bs, w.onReadyToWrite max = some (w', bs) ∧
    w'.packets = []

/-- **Whole packets, each once, and control packets in between**, in every state of every run.
Source: `PacketWriter::queuePacket`, `onReadyToWrite`, `doNotSendPiece`, `clearPieces`. Kind: P -/
theorem stream_integrity (ops : List Op) :
    ∃ w, run step (some {}) ops = some w ∧ Integrity (history ops) w := by
  obtain ⟨w, hrun, h, hdid⟩ := sound_of_run ops
  refine ⟨w, hrun, hdid, ?_, h.conserved, ?_, h.removed, h.front, h.fair, fun max => ?_, fun max hmax => ?_⟩
  · cases hptr : w.curr_packet with
    | none =>
      refine ⟨[], ?_, Or.inl rfl⟩
      rw [h.stream, flatMap_resting fun p hp => ?_]
      by_contra hw
      cases hptr.symm.trans (h.resting p hp (Nat.pos_of_ne_zero hw))
    | some ptr =>
      obtain ⟨p, -, rfl, hp, -⟩ := put_cases h hptr
      obtain ⟨l₁, l₂, hold, hne, -⟩ := split_front h hptr hp
      refine ⟨started p, ?_, Or.inr ⟨p, hp, rfl, rfl, ?_⟩⟩
      · have h1 : l₁.flatMap started = [] := flatMap_resting fun t ht => (hne t (Or.inl ht)).2
        have h2 : l₂.flatMap started = [] := flatMap_resting fun t ht => (hne t (Or.inr ht)).2
        rw [h.stream, hold, List.flatMap_append, List.flatMap_cons, h1, h2, List.nil_append,
          List.append_nil]
      · have hunsent := h.unsent p hp
        rw [started, List.length_take]
        exact lt_of_le_of_lt (Nat.min_le_left _ _) hunsent
  · rw [h.numbered]
    exact List.nodup_range
  · obtain ⟨w', bs, heq, -, hlen, -, hout⟩ := onReadyToWrite_spec h max
    exact ⟨w', bs, heq, hout, hlen⟩
  · obtain ⟨w', bs, heq, hw', hlen, hpend, -⟩ := onReadyToWrite_spec h max
    exact ⟨w', bs, heq, hw'.pending_eq_zero (by omega)⟩

end PacketWriter

end KTorrent.Net
