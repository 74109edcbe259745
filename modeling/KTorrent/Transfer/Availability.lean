import KTorrent.Transfer.PeerManager

/-!
# How many peers have each chunk

The counters are kept by adding what each message announces and by taking a peer's bits out when it
is removed. `Counted` says that they are right. A message keeps them right exactly when every bit
it adds is new for its peer (`packetReady_counted_iff`): a `HAVE` for a chunk the peer had already
announced is counted again, and a bit set that replaces another is added to it. A run in which no
such message is handled stays `Counted` (`counted_run`); the removal of a peer never breaks it.

Source: `torrent/peermanager.cpp`, `torrent/chunkcounter.cpp`
-/

namespace KTorrent.Transfer

open KTorrent.Lib KTorrent.Util KTorrent.Net

namespace PeerManager

variable {n : ℕ}

/-- How many peers have chunk `i`. Kind: D -/
def owners (m : PeerManager n) (i : ℕ) : ℕ := m.peerList.countP fun p => p.pieces.get i

/-- The counters and the available chunks are right. Kind: D -/
structure Counted (m : PeerManager n) : Prop where
  /-- Each counter is the number of peers that have the chunk. -/
  cnt : ∀ i, m.cnt.get i = m.owners i
  /-- The chunks available are those some peer has. -/
  available : ∀ i, m.availableChunks.get i = true ↔ 0 < m.owners i

/-- No more owners than peers. Source: `torrent/peermanager.cpp`, `torrent/chunkcounter.cpp`.
Kind: L -/
theorem owners_le (m : PeerManager n) (i : ℕ) : m.owners i ≤ m.peerList.length :=
  List.countP_le_length

/-! ### What each operation does to a counter, an available bit and a number of owners -/

/-- A new peer owns nothing. Source: `PeerManager::createPeer`. Kind: L -/
theorem owners_createPeer (m : PeerManager n) (dead : Bool) (i : ℕ) :
    (m.createPeer dead).owners i = m.owners i := by
  simp [owners, createPeer, List.countP_append]

/-- Killed peers are counted until they are removed. Source: `Peer::kill`. Kind: L -/
theorem owners_kill (m : PeerManager n) (k i : ℕ) : (m.kill k).owners i = m.owners i := by
  unfold owners kill
  dsimp only
  induction m.peerList generalizing k with
  | nil => simp
  | cons p ps ih =>
    cases k with
    | zero => simp [List.countP_cons]
    | succ k => simp only [List.modify_succ_cons, List.countP_cons, ih]

/-- One peer's bits are exchanged. Source: `torrent/peermanager.cpp`, `torrent/chunkcounter.cpp`.
Kind: L -/
theorem owners_setPieces {m : PeerManager n} {k : ℕ} {p : Peer n} (hp : m.peerList[k]? = some p)
    (bs : BitSet n) (i : ℕ) :
    (m.setPieces k bs).owners i + (p.pieces.get i).toNat =
      m.owners i + (bs.get i).toNat := by
  unfold owners setPieces
  dsimp only
  induction hl : m.peerList generalizing k m with
  | nil => simp [hl] at hp
  | cons q qs ih =>
    cases k with
    | zero =>
      have hqp : q = p := by simpa [hl] using hp
      subst hqp
      cases h1 : q.pieces.get i <;> cases h2 : bs.get i <;>
        simp [h1, h2]
    | succ k =>
      have hp' : ({ m with peerList := qs } : PeerManager n).peerList[k]? = some p := by
        simpa [hl] using hp
      have h := ih hp' rfl
      simp only [List.modify_succ_cons, List.countP_cons] at h ⊢
      omega

/-- Recounting leaves the peers. Source: `PeerManager::updateAvailableChunks`. Kind: L -/
theorem peerList_updateAvailableChunks (m : PeerManager n) :
    m.updateAvailableChunks.peerList = m.peerList := by
  refine forRange_frame (fun m : PeerManager n => m.peerList) (fun i _ _ s => ?_) m
  rfl

/-- Recounting leaves the counter. Source: `PeerManager::updateAvailableChunks`. Kind: L -/
theorem cnt_updateAvailableChunks (m : PeerManager n) : m.updateAvailableChunks.cnt = m.cnt := by
  refine forRange_frame (fun m : PeerManager n => m.cnt) (fun i _ _ s => ?_) m
  rfl

/-- A peer is taken out. Source: `torrent/peermanager.cpp`, `torrent/chunkcounter.cpp`. Kind: L -/
theorem owners_remove {m : PeerManager n} {k : ℕ} {p : Peer n} (hp : m.peerList[k]? = some p)
    (i : ℕ) : (m.remove k p).owners i + (p.pieces.get i).toNat = m.owners i := by
  obtain ⟨hk, rfl⟩ := List.getElem?_eq_some_iff.mp hp
  have hlist : (m.remove k m.peerList[k]).peerList = m.peerList.eraseIdx k := by
    simp only [remove, peerList_updateAvailableChunks]
  have hperm := (List.getElem_cons_eraseIdx_perm hk).countP_eq fun q => q.pieces.get i
  unfold owners
  rw [hlist, ← hperm, List.countP_cons]
  cases (m.peerList[k]).pieces.get i <;> simp

/-- A bit set leaves the list of peers. Source: `PeerManager::onBitSetRecieved`. Kind: L -/
theorem peerList_onBitSetRecieved (bs : BitSet n) (m : PeerManager n) :
    (m.onBitSetRecieved bs).peerList = m.peerList := by
  unfold onBitSetRecieved
  refine forRange_frame (fun m : PeerManager n => m.peerList) (fun i _ _ s => ?_) m
  split_ifs <;> rfl

/-- **A bit set is added to the counters.**. Source: `PeerManager::onBitSetRecieved`. Kind: L -/
theorem cnt_onBitSetRecieved (bs : BitSet n) (m : PeerManager n) (i : ℕ) :
    (m.onBitSetRecieved bs).cnt.get i =
      if bs.get i then u32 (m.cnt.get i + 1) else m.cnt.get i := by
  unfold onBitSetRecieved
  rw [obs_forRange (fun (m : PeerManager n) i => m.cnt.get i) id
    (fun k v => if bs.get k then u32 (v + 1) else v)]
  · by_cases hi : i < n
    · simp [hi]
    · rw [if_neg (by simp [hi]), BitSet.get_of_le bs (by omega)]
      simp
  · intro k s j
    by_cases hk : bs.get k
    · have hlt := BitSet.lt_of_get hk
      simp [hk, onHave, ChunkCounter.get_inc, hlt]
    · simp [hk]

/-- The chunks of a bit set that arrives become available. Source: `PeerManager::onBitSetRecieved`.
Kind: L -/
theorem available_onBitSetRecieved (bs : BitSet n) (m : PeerManager n) (i : ℕ) :
    (m.onBitSetRecieved bs).availableChunks.get i =
      (bs.get i || m.availableChunks.get i) := by
  unfold onBitSetRecieved
  rw [obs_forRange (fun (m : PeerManager n) i => m.availableChunks.get i) id
    (fun k v => bs.get k || v)]
  · by_cases hi : i < n
    · simp [hi]
    · rw [if_neg (by simp [hi]), BitSet.get_of_le bs (by omega), Bool.false_or]
  · intro k s j
    by_cases hk : bs.get k
    · have hlt := BitSet.lt_of_get hk
      simp only [hk, if_true, onHave, BitSet.get_set, id, hlt, and_true, Bool.true_or]
    · simp [hk]

/-- Available is what the counter counts. Source: `PeerManager::updateAvailableChunks`. Kind: L -/
theorem available_updateAvailableChunks (m : PeerManager n) (i : ℕ) :
    m.updateAvailableChunks.availableChunks.get i = decide (0 < m.cnt.get i) := by
  unfold updateAvailableChunks
  have hpair := obs_forRange (fun (m : PeerManager n) i => (m.availableChunks.get i, m.cnt.get i))
    id (fun _ v => (decide (0 < v.2), v.2))
    (f := fun i (m : PeerManager n) =>
      { m with availableChunks := m.availableChunks.set i (decide (0 < m.cnt.get i)) })
    (fun k s j => ?_) 0 n m i
  · by_cases hi : i < n
    · rw [if_pos (by simpa using hi)] at hpair
      exact congrArg Prod.fst hpair
    · rw [if_neg (by simpa using hi)] at hpair
      have hfst := congrArg Prod.fst hpair
      dsimp only at hfst
      rw [hfst, BitSet.get_of_le _ (by omega), ChunkCounter.get_of_le _ (by omega)]
      rfl
  · by_cases hk : k < n
    · by_cases hj : j = k
      · subst hj
        simp [hk]
      · simp [BitSet.get_set, hj]
    · by_cases hj : j = k
      · subst hj
        simp [ChunkCounter.get_of_le _ (not_lt.mp hk), BitSet.get_of_le _ (not_lt.mp hk)]
      · simp [BitSet.get_set, hj]

/-! ### The condition -/

/-- The message adds no bit for a chunk the peer is already counted for, and replaces none. Kind: D -/
def Fresh (p : Peer n) (packet : List UInt8) : Prop :=
  match p.packetReady packet with
  | .haveChunk ch => p.pieces.get ch = false
  | .bitSetRecieved _ => p.pieces = BitSet.empty n
  | _ => True

/-- The message is fresh for the peer at place `k`. Kind: D -/
def FreshAt (k : ℕ) (m : PeerManager n) (packet : List UInt8) : Prop :=
  ∀ p, m.peerList[k]? = some p → Fresh p packet

/-- What happens while a peer is updated is fresh. Kind: D -/
def FreshAct (k : ℕ) (m : PeerManager n) : Act → Prop
  | .packet bytes => FreshAt k m bytes
  | .kill _ => True

/-- All that happens in the loop of `update` is fresh when it happens. Kind: D -/
def FreshLoop : ℕ → ℕ → List (List Act) → PeerManager n → Prop
  | 0, _, _, _ => True
  | todo + 1, i, script, m =>
    match m.peerList[i]? with
    | none => True
    | some p =>
      if p.killed then FreshLoop todo i script (m.remove i p)
      else Meets (act i) (FreshAct i) m (script.headD []) ∧
        FreshLoop todo (i + 1) script.tail (run (act i) m (script.headD []))

/-- The condition on an event: the messages handled are fresh, and there are fewer than 2^32 peers.
Kind: D -/
def Admissible (m : PeerManager n) : Event → Prop
  | .createPeer _ => m.peerList.length + 1 < 2 ^ 32
  | .newConnection _ _ _ => m.peerList.length + 1 < 2 ^ 32
  | .packetReady k packet => FreshAt k m packet
  | .kill _ => True
  | .update script => m.started = true → FreshLoop m.peerList.length 0 script m

/-! ### One step -/

/-- Without peers nothing is counted. Source: `torrent/peermanager.cpp`, `torrent/chunkcounter.cpp`.
Kind: L -/
theorem counted_start (n : ℕ) : Counted (start n) :=
  ⟨fun i => by simp [start, owners], fun i => by simp [start, owners]⟩

/-- A new peer. Source: `PeerManager::createPeer`. Kind: L -/
theorem Counted.createPeer {m : PeerManager n} (h : Counted m) (dead : Bool) :
    Counted (m.createPeer dead) :=
  ⟨fun i => (h.cnt i).trans (owners_createPeer m dead i).symm, fun i => by
    rw [owners_createPeer]
    exact h.available i⟩

/-- A killed peer. Source: `Peer::kill`. Kind: L -/
theorem Counted.kill {m : PeerManager n} (h : Counted m) (k : ℕ) : Counted (m.kill k) :=
  ⟨fun i => (h.cnt i).trans (owners_kill m k i).symm, fun i => by
    rw [owners_kill]
    exact h.available i⟩

/-- **A removed peer is uncounted.**. Source: `torrent/peermanager.cpp`, `torrent/chunkcounter.cpp`.
Kind: L -/
theorem Counted.remove {m : PeerManager n} (h : Counted m) {k : ℕ} {p : Peer n}
    (hp : m.peerList[k]? = some p) : Counted (m.remove k p) := by
  have hcnt : ∀ i, (m.remove k p).cnt.get i = (m.remove k p).owners i := by
    intro i
    have howners := owners_remove hp i
    rw [← h.cnt i] at howners
    simp only [PeerManager.remove, cnt_updateAvailableChunks, ChunkCounter.get_decBitSet] at howners ⊢
    cases hbit : p.pieces.get i <;> simp [hbit] at howners ⊢ <;> omega
  refine ⟨hcnt, fun i => ?_⟩
  rw [← hcnt i]
  simp only [PeerManager.remove, available_updateAvailableChunks, cnt_updateAvailableChunks,
    decide_eq_true_eq]

/-- A `HAVE` is answered with an index only when it lies in the torrent.
Source: `torrent/peermanager.cpp`, `torrent/chunkcounter.cpp`. Kind: L -/
theorem lt_of_haveChunk {p : Peer n} {packet : List UInt8} {ch : ℕ}
    (h : p.packetReady packet = .haveChunk ch) : ch < n := by
  unfold Peer.packetReady at h
  split at h
  · cases h
  · split at h
    · cases h
    · split_ifs at h
      injection h with h
      omega

/-- **A `HAVE` keeps the counts right exactly when it is the first for its chunk.**.
Source: `torrent/peermanager.cpp`, `torrent/chunkcounter.cpp`. Kind: P -/
theorem have_counted_iff {m : PeerManager n} (h : Counted m) (hlen : m.peerList.length < 2 ^ 32)
    {k : ℕ} {p : Peer n} (hp : m.peerList[k]? = some p) {ch : ℕ} (hch : ch < n) :
    Counted ((m.onHave ch).setPieces k (p.pieces.set ch true)) ↔ p.pieces.get ch = false := by
  have howners := fun i => owners_setPieces (m := m.onHave ch) hp (p.pieces.set ch true) i
  have hle := fun i => owners_le ((m.onHave ch).setPieces k (p.pieces.set ch true)) i
  have hsize : ((m.onHave ch).setPieces k (p.pieces.set ch true)).peerList.length =
      m.peerList.length := by
    simp [setPieces, onHave]
  have hown : ∀ i, (m.onHave ch).owners i = m.owners i := fun i => rfl
  have hcnt : ∀ i, ((m.onHave ch).setPieces k (p.pieces.set ch true)).cnt.get i =
      if i = ch then u32 (m.owners i + 1) else m.owners i := by
    intro i
    simp only [setPieces, onHave, ChunkCounter.get_inc, h.cnt, hch, and_true]
  constructor
  · intro hc
    by_contra hbit
    have h1 := hc.cnt ch
    have h2 := howners ch
    rw [hcnt, if_pos rfl] at h1
    simp only [hown, BitSet.get_set_self _ hch, Bool.not_eq_false] at h2 hbit
    rw [hbit] at h2
    unfold u32 at h1
    have := owners_le m ch
    omega
  · intro hbit
    have hboth : ∀ i, ((m.onHave ch).setPieces k (p.pieces.set ch true)).owners i =
        if i = ch then m.owners i + 1 else m.owners i := by
      intro i
      have h2 := howners i
      by_cases hi : i = ch
      · subst hi
        rw [hown, BitSet.get_set_self _ hch, hbit] at h2
        simpa using h2
      · rw [hown, BitSet.get_set_of_ne _ hi] at h2
        rw [if_neg hi]
        omega
    refine ⟨fun i => ?_, fun i => ?_⟩
    · have h1 := hle i
      rw [hboth, hsize] at h1
      rw [hcnt, hboth]
      split_ifs with hi
      · rw [if_pos hi] at h1
        exact u32_of_lt (by omega)
      · rfl
    · rw [hboth]
      have h1 := h.available i
      simp only [setPieces, onHave, BitSet.get_set, hch, and_true]
      split_ifs with hi
      · simp
      · exact h1

/-- **A bit set keeps the counts right exactly when the peer had announced nothing before.**.
Source: `torrent/peermanager.cpp`, `torrent/chunkcounter.cpp`. Kind: P -/
theorem bitSet_counted_iff {m : PeerManager n} (h : Counted m) (hlen : m.peerList.length < 2 ^ 32)
    {k : ℕ} {p : Peer n} (hp : m.peerList[k]? = some p) (bs : BitSet n) :
    Counted ((m.setPieces k bs).onBitSetRecieved bs) ↔ p.pieces = BitSet.empty n := by
  have hown : ∀ i, ((m.setPieces k bs).onBitSetRecieved bs).owners i =
      (m.setPieces k bs).owners i := by
    intro i
    unfold owners
    rw [peerList_onBitSetRecieved]
  have howners := fun i => owners_setPieces hp bs i
  have hle := fun i => owners_le (m.setPieces k bs) i
  have hsize : (m.setPieces k bs).peerList.length = m.peerList.length := by
    simp [setPieces]
  have hcnt : ∀ i, ((m.setPieces k bs).onBitSetRecieved bs).cnt.get i =
      if bs.get i then u32 (m.owners i + 1) else m.owners i := by
    intro i
    rw [cnt_onBitSetRecieved]
    simp only [setPieces, h.cnt]
  constructor
  · intro hc
    refine BitSet.ext_get fun i hi => ?_
    rw [BitSet.get_empty]
    by_contra hbit
    rw [Bool.not_eq_false] at hbit
    have h1 := hc.cnt i
    have h2 := howners i
    have h3 := owners_le m i
    rw [hcnt, hown] at h1
    rw [hbit] at h2
    cases hb : bs.get i <;> rw [hb] at h1 h2 <;> simp [u32] at h1 h2 <;> omega
  · intro hempty
    have hboth : ∀ i, (m.setPieces k bs).owners i = m.owners i + (bs.get i).toNat := by
      intro i
      have h2 := howners i
      rw [hempty, BitSet.get_empty] at h2
      simpa using h2
    refine ⟨fun i => ?_, fun i => ?_⟩
    · have h1 := hle i
      rw [hboth, hsize] at h1
      rw [hcnt, hown, hboth]
      cases hb : bs.get i <;> rw [hb] at h1
      · simp
      · exact u32_of_lt (by simpa using lt_of_le_of_lt h1 hlen)
    · rw [hown, hboth, available_onBitSetRecieved]
      have h1 := h.available i
      cases hb : bs.get i
      · simpa [setPieces] using h1
      · simp

/-- **Exactly the fresh messages keep the counts right.**. Source: `Peer::packetReady`. Kind: P -/
theorem packetReady_counted_iff {m : PeerManager n} (h : Counted m)
    (hlen : m.peerList.length < 2 ^ 32) (k : ℕ) (packet : List UInt8) :
    Counted (m.packetReady k packet) ↔ FreshAt k m packet := by
  unfold packetReady FreshAt
  cases hp : m.peerList[k]? with
  | none => simpa using h
  | some p =>
    have hsome : (∀ q, some p = some q → Fresh q packet) ↔ Fresh p packet :=
      ⟨fun hq => hq p rfl, fun hq q heq => Option.some.inj heq ▸ hq⟩
    rw [hsome]
    unfold Fresh
    dsimp only
    cases heff : p.packetReady packet with
    | nothing => simpa using h
    | kill => simpa using h.kill k
    | haveChunk ch => exact have_counted_iff h hlen hp (lt_of_haveChunk heff)
    | bitSetRecieved bs => exact bitSet_counted_iff h hlen hp bs

/-! ### Runs -/

/-- What a run keeps: the counts are right and there are fewer than 2^32 peers. Kind: D -/
def Sound (m : PeerManager n) : Prop := Counted m ∧ m.peerList.length < 2 ^ 32

/-- Killing removes nobody from the list. Source: `Peer::kill`. Kind: L -/
@[simp] theorem length_kill (m : PeerManager n) (k : ℕ) :
    (m.kill k).peerList.length = m.peerList.length := by
  simp [kill]

/-- A packet removes nobody from the list. Source: `Peer::packetReady`. Kind: L -/
theorem length_packetReady (m : PeerManager n) (k : ℕ) (packet : List UInt8) :
    (m.packetReady k packet).peerList.length = m.peerList.length := by
  unfold packetReady
  cases m.peerList[k]? with
  | none => rfl
  | some p =>
    dsimp only
    cases p.packetReady packet with
    | nothing => rfl
    | kill => exact length_kill m k
    | haveChunk ch => simp [setPieces, onHave]
    | bitSetRecieved bs => simp [peerList_onBitSetRecieved, setPieces]

/-- Removing shortens the list. Source: `torrent/peermanager.cpp`, `torrent/chunkcounter.cpp`.
Kind: L -/
theorem length_remove_le (m : PeerManager n) (i : ℕ) (p : Peer n) :
    (m.remove i p).peerList.length ≤ m.peerList.length := by
  simp only [remove, peerList_updateAvailableChunks]
  exact List.length_eraseIdx_le m.peerList i

/-- A packet that is fresh keeps the counter sound. Source: `Peer::packetReady`. Kind: L -/
theorem Sound.packetReady {m : PeerManager n} (h : Sound m) {k : ℕ} {packet : List UInt8}
    (hfresh : FreshAt k m packet) : Sound (m.packetReady k packet) := by
  refine ⟨(packetReady_counted_iff h.1 h.2 k packet).mpr hfresh, ?_⟩
  rw [length_packetReady]
  exact h.2

/-- Killing a peer keeps the counter sound. Source: `Peer::kill`. Kind: L -/
theorem Sound.kill {m : PeerManager n} (h : Sound m) (k : ℕ) : Sound (m.kill k) :=
  ⟨h.1.kill k, by simpa using h.2⟩

/-- A new peer keeps the counter sound, while there is room to count it.
Source: `PeerManager::createPeer`. Kind: L -/
theorem Sound.createPeer {m : PeerManager n} (h : Sound m)
    (hroom : m.peerList.length + 1 < 2 ^ 32) (dead : Bool) : Sound (m.createPeer dead) :=
  ⟨h.1.createPeer dead, by simpa [PeerManager.createPeer] using hroom⟩

/-- Removing a peer keeps the counter sound. Source: `torrent/peermanager.cpp`,
`torrent/chunkcounter.cpp`. Kind: L -/
theorem Sound.remove {m : PeerManager n} (h : Sound m) {k : ℕ} {p : Peer n}
    (hp : m.peerList[k]? = some p) : Sound (m.remove k p) :=
  ⟨h.1.remove hp, (length_remove_le m k p).trans_lt h.2⟩

/-- What happens in a round keeps the counter sound, if it is fresh.
Source: `torrent/peermanager.cpp`, `torrent/chunkcounter.cpp`. Kind: L -/
theorem Sound.act {m : PeerManager n} (h : Sound m) {k : ℕ} {a : Act} (hfresh : FreshAct k m a) :
    Sound (m.act k a) := by
  cases a with
  | packet bytes => exact h.packetReady hfresh
  | kill j => exact h.kill j

/-- The loop of `update`: each round removes a peer or lets one handle its packets.
Source: `torrent/peermanager.cpp`, `torrent/chunkcounter.cpp`. Kind: L -/
theorem Sound.updateLoop {todo i : ℕ} {script : List (List Act)} {m : PeerManager n}
    (h : Sound m) (hfresh : FreshLoop todo i script m) : Sound (updateLoop todo i script m) := by
  induction todo generalizing i script m with
  | zero => exact h
  | succ todo ih =>
    unfold PeerManager.updateLoop
    unfold FreshLoop at hfresh
    cases hp : m.peerList[i]? with
    | none => exact h
    | some p =>
      simp only [hp] at hfresh
      dsimp only
      by_cases hk : p.killed
      · rw [if_pos hk] at hfresh ⊢
        exact ih (h.remove hp) hfresh
      · rw [if_neg hk] at hfresh ⊢
        exact ih (hfresh.1.invariant (fun _ _ hs ha => hs.act ha) h) hfresh.2

/-- An incoming connection keeps the counter sound. Source: `PeerManager::newConnection`. Kind: L -/
theorem Sound.newConnection {m : PeerManager n} (h : Sound m)
    (hroom : m.peerList.length + 1 < 2 ^ 32) (full : Bool) (bad : Option ℕ) (dead : Bool) :
    Sound (m.newConnection full bad dead) := by
  unfold PeerManager.newConnection
  split_ifs
  · cases bad with
    | none => exact h
    | some k => exact (h.kill k).createPeer (by simpa using hroom) dead
  · exact h.createPeer hroom dead

/-- **The step rule.**. Source: `torrent/peermanager.cpp`, `torrent/chunkcounter.cpp`. Kind: P -/
theorem Sound.step {m : PeerManager n} (h : Sound m) {e : Event} (hok : Admissible m e) :
    Sound (m.step e) := by
  cases e with
  | createPeer dead => exact h.createPeer hok dead
  | newConnection full bad dead => exact h.newConnection hok full bad dead
  | packetReady k packet => exact h.packetReady hok
  | kill k => exact h.kill k
  | update script =>
    change Sound (m.update script)
    unfold PeerManager.update
    cases hs : m.started with
    | false => exact h
    | true => exact h.updateLoop (hok hs)

/-- **The rarest-first counts.** In every state of a run that starts without peers and whose events
are all admissible, each counter is the number of peers that have the chunk, and a chunk is
available when some peer has it. Source: `torrent/peermanager.cpp`, `torrent/chunkcounter.cpp`.
Kind: P -/
theorem counted_run {as pre : List Event} (h : Meets step Admissible (start n) as)
    (hpre : pre <+: as) (i : ℕ) :
    (run step (start n) pre).cnt.get i = (run step (start n) pre).owners i ∧
      ((run step (start n) pre).availableChunks.get i = true ↔
        0 < (run step (start n) pre).owners i) := by
  have hstart : Sound (start n) := ⟨counted_start n, by simp [start]⟩
  have hsound : Sound (run step (start n) pre) :=
    h.invariant_at (fun _ _ hs ha => hs.step ha) hstart hpre
  exact ⟨hsound.1.cnt i, hsound.1.available i⟩

/-- Two peers announce a chunk; the first is killed, the periodic round removes it, and in the same
round the second announces another chunk. Kind: D -/
def twoPeers : List Event :=
  [.createPeer false, .createPeer false, .packetReady 0 [HAVE, 0, 0, 0, 1],
    .packetReady 1 [HAVE, 0, 0, 0, 1], .kill 0, .update [[.packet [HAVE, 0, 0, 0, 0]]]]

/-- One peer is left, and both chunks are counted once. Source: `torrent/peermanager.cpp`,
`torrent/chunkcounter.cpp`. Kind: L -/
theorem counted_run_two :
    (run step (start 2) twoPeers).peerList.length = 1 ∧
      ∀ i < 2, (run step (start 2) twoPeers).cnt.get i = 1 ∧
        (run step (start 2) twoPeers).availableChunks.get i = true := by
  have hmeets : Meets step Admissible (start 2) twoPeers := by
    refine ⟨by simp [Admissible, start], by simp [Admissible, start, step, createPeer], ?_, ?_,
      trivial, fun _ => ⟨⟨?_, trivial⟩, trivial⟩, trivial⟩
    · intro p hp
      obtain rfl : (⟨BitSet.empty 2, false⟩ : Peer 2) = p := Option.some.inj hp
      exact BitSet.get_empty _
    · intro p hp
      obtain rfl : (⟨BitSet.empty 2, false⟩ : Peer 2) = p := Option.some.inj hp
      exact BitSet.get_empty _
    · intro p hp
      obtain rfl : (⟨(BitSet.empty 2).set 1 true, false⟩ : Peer 2) = p := Option.some.inj hp
      exact (by decide : ((BitSet.empty 2).set 1 true).get 0 = false)
  refine ⟨by decide, fun i hi => ?_⟩
  obtain ⟨hcount, havailable⟩ := counted_run hmeets (List.prefix_refl _) i
  have howner : (run step (start 2) twoPeers).owners i = 1 := by
    revert i
    decide
  exact ⟨hcount.trans howner, havailable.mpr (by omega)⟩

/-- **A repeated `HAVE` is counted twice**: one peer has the chunk, the counter says two.
Source: `torrent/peermanager.cpp`, `torrent/chunkcounter.cpp`. Kind: P -/
theorem repeated_have_drifts :
    ¬ ∀ (as : List Event) (i : ℕ),
      (run step (start 1) as).cnt.get i = (run step (start 1) as).owners i := by
  intro h
  have h0 := h [.createPeer false,
    .update [[.packet [HAVE, 0, 0, 0, 0], .packet [HAVE, 0, 0, 0, 0]]]] 0
  exact absurd h0 (by decide)

end PeerManager

end KTorrent.Transfer
