import KTorrent.Bencode.RoundTrip
import KTorrent.Lib.GuardedRun
import KTorrent.Lib.SortedMap
import KTorrent.Lib.While
import KTorrent.Util.Endian

/-!
# Peer exchange

A `UTPex` tells one peer which other peers came and went since the last time. It keeps the peers it
told by their ID; what is left of them after those still connected are erased has been dropped.

* `updatePeers_spec` — what one walk over the connected peers finds.
* `Run.told` — a receiver that takes out what was dropped and adds what was added has the addresses
  in the map.
* `handlePexPacket_message` — the added string is found in the packet.
* `exchange` — **after every run the receiver has exactly the addresses of the peers that were
  connected at the last update, and each entry of an added string is read as the address it was
  written for.**

Source: `torrent/utpex.cpp`; `torrent/peermanager.cpp`, `PeerManager::pex`; `net/address.cpp`
-/

namespace KTorrent.Pex

open KTorrent.Lib KTorrent.Util KTorrent.Bencode

/-- Source: `net/address.h`, `Address`. Kind: D -/
structure Address where
  ip : ℕ
  port : ℕ
  ip_lt : ip < 2 ^ 32
  port_lt : port < 2 ^ 16
deriving DecidableEq

/-- Four bytes as text. Source: `Address::toString`. Kind: D -/
def dotted (ip : ℕ) : List UInt8 :=
  TQString.number (ip / 2 ^ 24 % 2 ^ 8) ++ latin1 "." ++ TQString.number (ip / 2 ^ 16 % 2 ^ 8) ++
    latin1 "." ++ TQString.number (ip / 2 ^ 8 % 2 ^ 8) ++ latin1 "." ++
    TQString.number (ip % 2 ^ 8)

/-- A connected peer. Source: `torrent/peer.h`, `Peer`. Kind: D -/
structure Peer where
  id : ℕ
  address : Address
deriving DecidableEq

/-! ### An update -/

/-- The two new maps, and the old one without those still connected. Kind: D -/
structure Maps where
  npeers : SortedMap ℕ Address := .empty
  added : SortedMap ℕ Address := .empty
  peers : SortedMap ℕ Address

/-- Source: `UTPex::update`, the loop body. Kind: D -/
def updatePeer (peer : ℕ) (m : Maps) (p : Peer) : Maps :=
  if p.id = peer then m
  else
    let npeers := m.npeers.insert p.id p.address
    if p.id ∉ m.peers.keySet then
      -- new one, add to added
      { m with npeers := npeers, added := m.added.insert p.id p.address }
    else
      -- erase from old list, so only the dropped ones are left
      { m with npeers := npeers, peers := m.peers.erase p.id }

/-- The loop. Source: `UTPex::update`. Kind: D -/
def updatePeers (peer : ℕ) (peer_list : List Peer) (peers : SortedMap ℕ Address) : Maps :=
  peer_list.foldl (updatePeer peer) { peers := peers }

/-- The addresses of a map, in the order of the IDs. Kind: D -/
def addresses (m : SortedMap ℕ Address) : List Address := m.entries.map Prod.snd

/-- What a message says. Kind: D -/
structure Message where
  added : List Address
  dropped : List Address

/-- The peer this is for, the peers told so far, and the messages that were sent.
Source: `torrent/utpex.h`, `UTPex`. Kind: D -/
structure UTPex where
  peer : ℕ
  peers : SortedMap ℕ Address := .empty
  sent : List Message := []

/-- Source: `UTPex::update`. Kind: D -/
def UTPex.update (u : UTPex) (peer_list : List Peer) : UTPex :=
  let m := updatePeers u.peer peer_list u.peers
  { u with
    peers := m.npeers
    sent := if ¬(m.peers.size = 0 ∧ m.added.size = 0)
      then u.sent ++ [⟨addresses m.added, addresses m.peers⟩] else u.sent }

/-! ### The bytes of a message -/

/-- Six bytes for each address. Source: `UTPex::encode`, the loop. Kind: D -/
def pack (ps : List Address) : List UInt8 :=
  ps.flatMap fun addr => uint32Bytes addr.ip ++ uint16Bytes addr.port

/-- Source: `UTPex::encode`. Kind: D -/
def encode (enc : BEncoderBufferOutput) (ps : List Address) : BEncoderBufferOutput :=
  if ps.length = 0 then BEncoder.writeString enc (latin1 "")
  else BEncoder.writeBytes enc (pack ps)

/-- The whole lot. Source: `UTPex::update`. Kind: D -/
def Message.data (m : Message) : List UInt8 :=
  let enc := BEncoder.beginDict .init
  let enc := BEncoder.writeString enc (latin1 "added")
  let enc := encode enc m.added
  let enc := BEncoder.writeString enc (latin1 "added.f")
  let enc := BEncoder.writeString enc (latin1 "")
  let enc := BEncoder.writeString enc (latin1 "dropped")
  let enc := encode enc m.dropped
  (BEncoder.finish enc).data

/-- The packet as the other side gets it; `id` is its number for these messages.
Source: `PacketWriter::sendExtProtMsg`. Kind: D -/
def extProtMsg (id : UInt8) (data : List UInt8) : List UInt8 := 20 :: id :: data

/-- The data that `emitPex` gets, if any. Source: `UTPex::handlePexPacket`. Kind: D -/
def handlePexPacket (packet : List UInt8) : Option (List UInt8) :=
  if packet.length ≤ 2 ∨ packet.getD 1 0 ≠ 1 then none
  else
    match BDecoder.decode packet 2 with
    | .ok (some (.dict _ _ dict), _) => (BNode.getValue dict (latin1 "added")).map Value.toByteArray
    | _ => none

/-- Source: `interfaces/peersource.h`, `PotentialPeer`. Kind: D -/
structure PotentialPeer where
  ip : List UInt8
  port : ℕ
  local_peer : Bool
deriving DecidableEq

/-- Source: `PeerManager::pex`, the loop body. Kind: D -/
def potentialPeer (arr : List UInt8) (i : ℕ) : PotentialPeer :=
  let tmp := (arr.drop i).take 6
  ⟨dotted (readUint32 tmp 0), readUint16 tmp 4, false⟩

/-- The calls of `addPotentialPeer`; `k` bounds the rounds. Source: `PeerManager::pex`. Kind: D -/
def pex (k : ℕ) (arr : List UInt8) : Except Unit (List PotentialPeer) := do
  let s ← whileM (fun s : ℕ × List PotentialPeer => u32 (s.1 + 6) ≤ arr.length)
    (fun s => .ok (u32 (s.1 + 6), s.2 ++ [potentialPeer arr s.1])) () k (0, [])
  return s.2

/-! ### Runs -/

/-- The torrent's peers, the peer exchange with one of them, and all IDs there have been. Kind: D -/
structure Run where
  peer_list : List Peer := []
  pex : UTPex
  used : List ℕ := []

/-- What happens. Kind: D -/
inductive Event
  | connect (p : Peer)
  | disconnect (id : ℕ)
  | update

/-- Kind: D -/
def Run.step (s : Run) : Event → Run
  | .connect p => { s with peer_list := s.peer_list ++ [p], used := p.id :: s.used }
  | .disconnect id => { s with peer_list := s.peer_list.filter fun p => p.id ≠ id }
  | .update => { s with pex := s.pex.update s.peer_list }

/-- A connection has a fresh ID, and an address of its own. Kind: D -/
def Run.Fresh (s : Run) : Event → Prop
  | .connect p => p.id ∉ s.used ∧ ∀ q ∈ s.peer_list, q.address ≠ p.address
  | _ => True

/-- Before anything has happened. Kind: D -/
def Run.start (peer : ℕ) : Run := { pex := { peer := peer } }

/-- The peers connected now, and those connected at the last update. Kind: D -/
structure Connections where
  now : List Peer := []
  updated : List Peer := []

/-- What an event says about the connections. Kind: D -/
def Connections.next (c : Connections) : Event → Connections
  | .connect p => { c with now := c.now ++ [p] }
  | .disconnect id => { c with now := c.now.filter fun p => p.id ≠ id }
  | .update => { c with updated := c.now }

/-- The peers connected at the last update of a run, by the events alone. Kind: D -/
def atLastUpdate (es : List Event) : List Peer := (es.foldl Connections.next {}).updated

/-- A receiver takes out what was dropped and then adds what was added. Kind: D -/
def receive (known : Finset Address) (m : Message) : Finset Address :=
  known \ m.dropped.toFinset ∪ m.added.toFinset

/-! ### One walk over the peers -/

/-- The loop after the peers in front. Kind: D -/
structure Walked (peer : ℕ) (front : List Peer) (peers : SortedMap ℕ Address) (m : Maps) : Prop where
  npeers : ∀ x, x ∈ m.npeers.entries ↔ ∃ p ∈ front, p.id ≠ peer ∧ x = (p.id, p.address)
  added : ∀ x, x ∈ m.added.entries ↔
    ∃ p ∈ front, p.id ≠ peer ∧ p.id ∉ peers.keySet ∧ x = (p.id, p.address)
  peers : ∀ x, x ∈ m.peers.entries ↔ x ∈ peers.entries ∧ ∀ p ∈ front, p.id ≠ peer → p.id ≠ x.1

/-- A new key is put into a map. Source: `torrent/utpex.cpp`. Kind: L -/
theorem mem_insert_new {m : SortedMap ℕ Address} {k : ℕ} {a : Address} (h : k ∉ m.keySet)
    (x : ℕ × Address) : x ∈ (m.insert k a).entries ↔ x ∈ m.entries ∨ x = (k, a) := by
  constructor
  · intro hx
    exact (SortedMap.mem_insert hx).symm
  · rintro (hx | rfl)
    · exact SortedMap.mem_insert_of_mem hx
    · exact SortedMap.mem_insert_self h

/-- **One round.**. Source: `UTPex::update`. Kind: L -/
theorem Walked.next {peer : ℕ} {front : List Peer} {peers : SortedMap ℕ Address} {m : Maps}
    (h : Walked peer front peers m) {p : Peer} (hp : ∀ q ∈ front, q.id ≠ p.id) :
    Walked peer (front ++ [p]) peers (updatePeer peer m p) := by
  have hmem : ∀ q, q ∈ front ++ [p] ↔ q ∈ front ∨ q = p := fun q => by simp
  unfold updatePeer
  by_cases hself : p.id = peer
  · rw [if_pos hself]
    -- the peer itself is skipped
    have hskip : ∀ R : Peer → Prop, (∃ q ∈ front, q.id ≠ peer ∧ R q) ↔
        ∃ q ∈ front ++ [p], q.id ≠ peer ∧ R q := by
      intro R
      constructor
      · rintro ⟨q, hq, hR⟩
        exact ⟨q, (hmem q).mpr (.inl hq), hR⟩
      · rintro ⟨q, hq, hne, hR⟩
        obtain hq | rfl := (hmem q).mp hq
        · exact ⟨q, hq, hne, hR⟩
        · exact absurd hself hne
    refine ⟨fun x => (h.npeers x).trans (hskip _), fun x => (h.added x).trans (hskip _),
      fun x => (h.peers x).trans (and_congr_right fun _ => ?_)⟩
    constructor
    · intro hall q hq hne
      obtain hq | rfl := (hmem q).mp hq
      · exact hall q hq hne
      · exact absurd hself hne
    · exact fun hall q hq => hall q ((hmem q).mpr (.inl hq))
  · -- the ID is not among those in front
    have hfresh : ∀ {n : SortedMap ℕ Address}, (∀ x ∈ n.entries, ∃ q ∈ front, x.1 = q.id) →
        p.id ∉ n.keySet := by
      intro n hn hk
      obtain ⟨b, hb⟩ := SortedMap.mem_keySet.mp hk
      obtain ⟨q, hq, heq⟩ := hn _ hb
      exact hp q hq heq.symm
    have hnew : ∀ x, x ∈ (m.npeers.insert p.id p.address).entries ↔
        ∃ q ∈ front ++ [p], q.id ≠ peer ∧ x = (q.id, q.address) := by
      intro x
      rw [mem_insert_new (hfresh fun y hy => by
        obtain ⟨q, hq, -, rfl⟩ := (h.npeers y).mp hy
        exact ⟨q, hq, rfl⟩), h.npeers]
      constructor
      · rintro (⟨q, hq, hne, hx⟩ | hx)
        · exact ⟨q, (hmem q).mpr (.inl hq), hne, hx⟩
        · exact ⟨p, (hmem p).mpr (.inr rfl), hself, hx⟩
      · rintro ⟨q, hq, hne, hx⟩
        obtain hq | rfl := (hmem q).mp hq
        · exact .inl ⟨q, hq, hne, hx⟩
        · exact .inr hx
    have hkey : p.id ∈ m.peers.keySet ↔ p.id ∈ peers.keySet := by
      rw [SortedMap.mem_keySet, SortedMap.mem_keySet]
      refine exists_congr fun b => (h.peers _).trans (and_iff_left fun q hq _ => hp q hq)
    rw [if_neg hself]
    dsimp only
    by_cases hold : p.id ∈ peers.keySet
    · rw [if_neg (not_not.mpr (hkey.mpr hold))]
      refine ⟨hnew, fun x => (h.added x).trans ?_, fun x => ?_⟩
      · constructor
        · rintro ⟨q, hq, hx⟩
          exact ⟨q, (hmem q).mpr (.inl hq), hx⟩
        · rintro ⟨q, hq, hne, hno, hx⟩
          obtain hq | rfl := (hmem q).mp hq
          · exact ⟨q, hq, hne, hno, hx⟩
          · exact absurd hold hno
      · rw [SortedMap.mem_erase_iff, h.peers, and_assoc]
        refine and_congr_right fun _ => ?_
        constructor
        · rintro ⟨hall, hne⟩ q hq hqs
          obtain hq | rfl := (hmem q).mp hq
          · exact hall q hq hqs
          · exact fun heq => hne heq.symm
        · intro hall
          refine ⟨fun q hq => hall q ((hmem q).mpr (.inl hq)), fun heq => ?_⟩
          exact hall p ((hmem p).mpr (.inr rfl)) hself heq.symm
    · rw [if_pos fun hk => hold (hkey.mp hk)]
      refine ⟨hnew, fun x => ?_, fun x => (h.peers x).trans (and_congr_right fun hx => ?_)⟩
      · rw [mem_insert_new (hfresh fun y hy => by
          obtain ⟨q, hq, -, -, rfl⟩ := (h.added y).mp hy
          exact ⟨q, hq, rfl⟩), h.added]
        constructor
        · rintro (⟨q, hq, hx⟩ | hx)
          · exact ⟨q, (hmem q).mpr (.inl hq), hx⟩
          · exact ⟨p, (hmem p).mpr (.inr rfl), hself, hold, hx⟩
        · rintro ⟨q, hq, hne, hno, hx⟩
          obtain hq | rfl := (hmem q).mp hq
          · exact .inl ⟨q, hq, hne, hno, hx⟩
          · exact .inr hx
      · constructor
        · intro hall q hq hqs
          obtain hq | rfl := (hmem q).mp hq
          · exact hall q hq hqs
          · intro heq
            refine hold (SortedMap.mem_keySet.mpr ⟨x.2, ?_⟩)
            rw [heq]
            exact hx
        · exact fun hall q hq => hall q ((hmem q).mpr (.inl hq))

/-- **What one walk over the connected peers finds.**. Source: `UTPex::update`. Kind: L -/
theorem updatePeers_spec (peer : ℕ) {peer_list : List Peer} (peers : SortedMap ℕ Address)
    (h : (peer_list.map Peer.id).Nodup) :
    Walked peer peer_list peers (updatePeers peer peer_list peers) := by
  induction peer_list using List.reverseRecOn with
  | nil =>
    refine ⟨fun x => ?_, fun x => ?_, fun x => ?_⟩
    · simp [updatePeers, SortedMap.empty]
    · simp [updatePeers, SortedMap.empty]
    · simp [updatePeers]
  | append_singleton front p ih =>
    rw [List.map_append, List.map_singleton] at h
    have hp : ∀ q ∈ front, q.id ≠ p.id := by
      intro q hq heq
      have hdis := (List.nodup_append.mp h).2.2
      exact hdis _ (List.mem_map_of_mem hq) _ (List.mem_singleton.mpr rfl) heq
    unfold updatePeers
    rw [List.foldl_append]
    exact (ih (List.nodup_append.mp h).1).next hp

/-! ### What the receiver knows -/

/-- What a receiver knows after the messages. Kind: D -/
def received (sent : List Message) : Finset Address := sent.foldl receive ∅

/-- The peers told are those connected at the last update, and the receiver knows their addresses.
Kind: D -/
structure Run.Told (c : Connections) (s : Run) : Prop where
  now : s.peer_list = c.now
  ids : (s.peer_list.map Peer.id).Nodup
  unshared : (s.peer_list.map Peer.address).Nodup
  used : ∀ p ∈ s.peer_list, p.id ∈ s.used
  told_used : ∀ x ∈ s.pex.peers.entries, x.1 ∈ s.used
  told_unshared : ∀ x ∈ s.pex.peers.entries, ∀ y ∈ s.pex.peers.entries, x.2 = y.2 → x = y
  same : ∀ p ∈ s.peer_list, ∀ a, (p.id, a) ∈ s.pex.peers.entries → a = p.address
  last : ∀ x, x ∈ s.pex.peers.entries ↔
    ∃ p ∈ c.updated, p.id ≠ s.pex.peer ∧ x = (p.id, p.address)
  known : received s.pex.sent = (addresses s.pex.peers).toFinset

/-- The addresses of a map are its values. Source: `torrent/utpex.cpp`. Kind: L -/
theorem mem_addresses {m : SortedMap ℕ Address} {a : Address} :
    a ∈ addresses m ↔ ∃ k, (k, a) ∈ m.entries := by
  unfold addresses
  rw [List.mem_map]
  exact ⟨fun ⟨x, hx, heq⟩ => ⟨x.1, heq ▸ hx⟩, fun ⟨k, hk⟩ => ⟨(k, a), hk, rfl⟩⟩

/-- An empty message says nothing. Source: `UTPex::update`. Kind: L -/
theorem received_update (u : UTPex) (peer_list : List Peer) :
    received (u.update peer_list).sent = receive (received u.sent)
      ⟨addresses (updatePeers u.peer peer_list u.peers).added,
        addresses (updatePeers u.peer peer_list u.peers).peers⟩ := by
  unfold UTPex.update
  dsimp only
  by_cases h : (updatePeers u.peer peer_list u.peers).peers.size = 0 ∧
      (updatePeers u.peer peer_list u.peers).added.size = 0
  · have hnil : ∀ {m : SortedMap ℕ Address}, m.size = 0 → addresses m = [] := by
      intro m hm
      unfold addresses
      rw [List.eq_nil_of_length_eq_zero hm]
      rfl
    rw [if_neg (not_not.mpr h), hnil h.1, hnil h.2]
    simp [receive]
  · rw [if_pos h]
    unfold received
    rw [List.foldl_append]
    rfl

/-- **The delta is right.** A known address is kept if its connection is still there; no other
connection that was told has that address. Source: `torrent/utpex.cpp`. Kind: L -/
theorem Run.Told.receive {c : Connections} {s : Run} (h : s.Told c) {m : Maps}
    (hm : Walked s.pex.peer s.peer_list s.pex.peers m) :
    Pex.receive (received s.pex.sent) ⟨addresses m.added, addresses m.peers⟩ =
      (addresses m.npeers).toFinset := by
  ext a
  unfold Pex.receive
  rw [h.known, Finset.mem_union, Finset.mem_sdiff, List.mem_toFinset, List.mem_toFinset,
    List.mem_toFinset, List.mem_toFinset, mem_addresses, mem_addresses, mem_addresses,
    mem_addresses]
  constructor
  · rintro (⟨⟨k, hk⟩, hkept⟩ | ⟨k, hk⟩)
    · -- the connection is still there, or it would have been dropped
      have hstill : ∃ p ∈ s.peer_list, p.id ≠ s.pex.peer ∧ p.id = k := by
        by_contra hgone
        refine hkept ⟨k, (hm.peers _).mpr ⟨hk, fun p hp hne heq => hgone ⟨p, hp, hne, heq⟩⟩⟩
      obtain ⟨p, hp, hne, rfl⟩ := hstill
      have heq := h.same p hp a hk
      exact ⟨p.id, (hm.npeers _).mpr ⟨p, hp, hne, by rw [heq]⟩⟩
    · obtain ⟨p, hp, hne, -, heq⟩ := (hm.added _).mp hk
      exact ⟨k, (hm.npeers _).mpr ⟨p, hp, hne, heq⟩⟩
  · rintro ⟨k, hk⟩
    obtain ⟨p, hp, hne, heq⟩ := (hm.npeers _).mp hk
    cases heq
    by_cases hold : p.id ∈ s.pex.peers.keySet
    · left
      obtain ⟨b, hb⟩ := SortedMap.mem_keySet.mp hold
      have hsame := h.same p hp b hb
      subst hsame
      refine ⟨⟨p.id, hb⟩, ?_⟩
      rintro ⟨k, hk⟩
      obtain ⟨hk, hgone⟩ := (hm.peers _).mp hk
      have heq := h.told_unshared _ hb _ hk rfl
      exact hgone p hp hne (congrArg Prod.fst heq)
    · right
      exact ⟨p.id, (hm.added _).mpr ⟨p, hp, hne, hold, rfl⟩⟩

/-- **One event.**. Source: `torrent/utpex.cpp`. Kind: L -/
theorem Run.Told.step {c : Connections} {s : Run} (h : s.Told c) (e : Event) (he : s.Fresh e) :
    (s.step e).Told (c.next e) := by
  cases e with
  | connect p =>
    obtain ⟨hid, haddr⟩ := he
    have hmem : ∀ q, q ∈ s.peer_list ++ [p] ↔ q ∈ s.peer_list ∨ q = p := fun q => by simp
    refine ⟨congrArg (· ++ [p]) h.now, ?_, ?_, ?_, ?_, h.told_unshared, ?_, h.last, h.known⟩
    · show ((s.peer_list ++ [p]).map Peer.id).Nodup
      rw [List.map_append, List.map_singleton]
      refine List.nodup_append.mpr ⟨h.ids, List.nodup_singleton _, ?_⟩
      intro a ha b hb
      obtain ⟨q, hq, rfl⟩ := List.mem_map.mp ha
      rw [List.mem_singleton.mp hb]
      exact fun heq => hid (heq ▸ h.used q hq)
    · show ((s.peer_list ++ [p]).map Peer.address).Nodup
      rw [List.map_append, List.map_singleton]
      refine List.nodup_append.mpr ⟨h.unshared, List.nodup_singleton _, ?_⟩
      intro a ha b hb
      obtain ⟨q, hq, rfl⟩ := List.mem_map.mp ha
      rw [List.mem_singleton.mp hb]
      exact haddr q hq
    · intro q hq
      obtain hq | rfl := (hmem q).mp hq
      · exact List.mem_cons_of_mem _ (h.used q hq)
      · exact List.mem_cons_self
    · exact fun x hx => List.mem_cons_of_mem _ (h.told_used x hx)
    · intro q hq a ha
      obtain hq | rfl := (hmem q).mp hq
      · exact h.same q hq a ha
      · exact absurd (h.told_used _ ha) hid
  | disconnect id =>
    have hsub : List.Sublist (s.step (.disconnect id)).peer_list s.peer_list := List.filter_sublist
    exact ⟨congrArg (List.filter _) h.now, h.ids.sublist (hsub.map _), h.unshared.sublist (hsub.map _),
      fun p hp => h.used p (hsub.subset hp), h.told_used, h.told_unshared,
      fun p hp => h.same p (hsub.subset hp), h.last, h.known⟩
  | update =>
    have hm := updatePeers_spec s.pex.peer s.pex.peers h.ids
    have hnew : (s.step .update).pex.peers =
      (updatePeers s.pex.peer s.peer_list s.pex.peers).npeers := rfl
    refine ⟨h.now, h.ids, h.unshared, h.used, ?_, ?_, ?_, ?_, ?_⟩
    · intro x hx
      obtain ⟨p, hp, -, rfl⟩ := (hm.npeers x).mp hx
      exact h.used p hp
    · intro x hx y hy heq
      obtain ⟨p, hp, -, rfl⟩ := (hm.npeers x).mp hx
      obtain ⟨q, hq, -, rfl⟩ := (hm.npeers y).mp hy
      rw [List.inj_on_of_nodup_map h.unshared hp hq heq]
    · intro p hp a ha
      obtain ⟨q, hq, -, heq⟩ := (hm.npeers _).mp ha
      have hpq := List.inj_on_of_nodup_map h.ids hp hq (congrArg Prod.fst heq)
      rw [hpq]
      exact congrArg Prod.snd heq
    · intro x
      rw [hnew, hm.npeers, h.now]
      rfl
    · rw [hnew, ← h.receive hm]
      exact received_update s.pex s.peer_list

/-- **A run of events.**. Source: `torrent/utpex.cpp`. Kind: L -/
theorem Run.Told.run {c : Connections} {s : Run} (h : s.Told c) {es : List Event}
    (hes : Meets Run.step Run.Fresh s es) :
    (KTorrent.Lib.run Run.step s es).Told (es.foldl Connections.next c) := by
  induction es generalizing c s with
  | nil => exact h
  | cons e es ih => exact ih (h.step e hes.1) hes.2

/-- Nobody has been told anything. Source: `torrent/utpex.cpp`. Kind: L -/
theorem told_start (peer : ℕ) : (Run.start peer).Told {} := by
  refine ⟨rfl, List.nodup_nil, List.nodup_nil, ?_, ?_, ?_, ?_, ?_, rfl⟩
  · exact fun p hp => absurd hp List.not_mem_nil
  · exact fun x hx => absurd hx List.not_mem_nil
  · exact fun x hx => absurd hx List.not_mem_nil
  · exact fun p hp => absurd hp List.not_mem_nil
  · intro x
    constructor
    · exact fun hx => absurd hx List.not_mem_nil
    · rintro ⟨p, hp, -⟩
      exact absurd hp List.not_mem_nil

/-! ### The bytes -/

/-- A peer is packed in six bytes. Source: `UTPex::encode`. Kind: L -/
theorem length_pack (ps : List Address) : (pack ps).length = 6 * ps.length := by
  induction ps with
  | nil => rfl
  | cons a ps ih =>
    unfold pack at ih ⊢
    rw [List.flatMap_cons, List.length_append, ih, List.length_append, length_uint32Bytes,
      length_uint16Bytes, List.length_cons]
    omega

/-- An address as a potential peer. Kind: D -/
def Address.heard (a : Address) : PotentialPeer := ⟨dotted a.ip, a.port, false⟩

/-- The six bytes of an entry. Source: `PeerManager::pex`. Kind: L -/
theorem potentialPeer_pack (front : List Address) (a : Address) (rest : List Address) :
    potentialPeer (pack (front ++ a :: rest)) (6 * front.length) = a.heard := by
  have hsplit : pack (front ++ a :: rest) =
      pack front ++ (uint32Bytes a.ip ++ uint16Bytes a.port ++ pack rest) := by
    unfold pack
    rw [List.flatMap_append, List.flatMap_cons]
  have htmp : ((pack (front ++ a :: rest)).drop (6 * front.length)).take 6 =
      uint32Bytes a.ip ++ uint16Bytes a.port := by
    rw [hsplit, ← length_pack, List.drop_left]
    exact List.take_left' (by simp)
  have hip : readUint32 (uint32Bytes a.ip ++ uint16Bytes a.port) 0 = a.ip := by
    have h := readUint32_append [] a.ip (uint16Bytes a.port)
    rw [u32_of_lt a.ip_lt] at h
    exact h
  have hport : readUint16 (uint32Bytes a.ip ++ uint16Bytes a.port) 4 = a.port := by
    have h := readUint16_append (uint32Bytes a.ip) a.port_lt []
    rw [List.append_nil, length_uint32Bytes] at h
    exact h
  unfold potentialPeer
  dsimp only
  rw [htmp, hip, hport]
  rfl

/-- **Each entry is read as the address it was written for.**. Source: `UTPex::encode`. Kind: L -/
theorem pex_pack (ps : List Address) (h : (pack ps).length + 6 < 2 ^ 32) {k : ℕ}
    (hk : ps.length < k) :
    pex k (pack ps) = .ok (ps.map Address.heard) := by
  rw [length_pack] at h
  -- after some rounds, some of the entries have been read
  have hloop : ∃ s, whileM (fun s : ℕ × List PotentialPeer => u32 (s.1 + 6) ≤ (pack ps).length)
      (fun s => .ok (u32 (s.1 + 6), s.2 ++ [potentialPeer (pack ps) s.1])) () k (0, []) = .ok s ∧
      (∃ n ≤ ps.length, s = (6 * n, (ps.take n).map Address.heard)) ∧
      ¬ u32 (s.1 + 6) ≤ (pack ps).length := by
    refine whileM_total (fun s => ∃ n ≤ ps.length,
      s = (6 * n, (ps.take n).map Address.heard))
      (fun s => ps.length - s.1 / 6) ?_ ⟨0, Nat.zero_le _, rfl⟩ (by simpa using hk)
    rintro s ⟨n, hn, rfl⟩ hc
    dsimp only at hc ⊢
    rw [length_pack, u32_of_lt (by omega)] at hc
    have hlt : n < ps.length := by omega
    have hps : ps = ps.take n ++ ps[n] :: ps.drop (n + 1) := by
      rw [← List.drop_eq_getElem_cons hlt, List.take_append_drop]
    have hentry := potentialPeer_pack (ps.take n) ps[n] (ps.drop (n + 1))
    rw [← hps, List.length_take, min_eq_left hn] at hentry
    refine ⟨_, rfl, ⟨n + 1, hlt, ?_⟩, ?_⟩
    · rw [hentry, u32_of_lt (by omega), ← List.take_concat_get' ps n hlt, List.map_append]
      rfl
    · rw [u32_of_lt (by omega)]
      omega
  obtain ⟨s, hs, ⟨n, hn, rfl⟩, hend⟩ := hloop
  rw [length_pack, u32_of_lt (show 6 * n + 6 < 2 ^ 32 by omega)] at hend
  have hall : n = ps.length := by omega
  unfold pex
  rw [hs]
  subst hall
  simp [bind, Except.bind, pure, Except.pure]

open BEncoderBufferOutput in
/-- A string without a null byte is appended. Source: `BEncoder::write(const TQString &)`.
Kind: L -/
theorem writeString_append {out : BEncoderBufferOutput} {bs : List UInt8} (h : out.AtEnd bs)
    {utf8 : List UInt8} (hz : BNode.cString utf8 = utf8) :
    (BEncoder.writeString out utf8).AtEnd (bs ++ encodeString utf8) := by
  unfold BEncoder.writeString
  rw [hz]
  exact Tree.writeBytes_append h utf8

open BEncoderBufferOutput in
/-- The peers are appended as a string. Source: `UTPex::encode`. Kind: L -/
theorem encode_append {out : BEncoderBufferOutput} {bs : List UInt8} (h : out.AtEnd bs)
    (ps : List Address) : (encode out ps).AtEnd (bs ++ encodeString (pack ps)) := by
  unfold encode
  by_cases h0 : ps.length = 0
  · rw [if_pos h0, List.eq_nil_of_length_eq_zero h0]
    exact writeString_append h rfl
  · rw [if_neg h0]
    exact Tree.writeBytes_append h _

/-- What is written for a message. Kind: D -/
def Message.tree (m : Message) : Tree :=
  .dict [(latin1 "added", .bytes (pack m.added)), (latin1 "added.f", .bytes []),
    (latin1 "dropped", .bytes (pack m.dropped))]

open BEncoderBufferOutput in
/-- A message is an encoded tree. Source: `UTPex::encode`. Kind: L -/
theorem Message.data_eq (m : Message) : m.data = m.tree.encode := by
  have h := write_append (encode_append (writeString_append (writeString_append (writeString_append
    (encode_append (writeString_append (write_append atEnd_init (latin1 "d"))
      (show BNode.cString (latin1 "added") = latin1 "added" by decide)) m.added)
    (show BNode.cString (latin1 "added.f") = latin1 "added.f" by decide))
    (show BNode.cString (latin1 "") = latin1 "" by decide))
    (show BNode.cString (latin1 "dropped") = latin1 "dropped" by decide)) m.dropped) (latin1 "e")
  have hdata : m.data = _ := congrArg BEncoderBufferOutput.data h
  rw [hdata]
  simp only [Message.tree, Tree.encode, Tree.encodeEntries, List.nil_append, List.append_assoc,
    List.append_nil]
  rfl

/-- The peers are part of the message. Source: `UTPex::encode`. Kind: L -/
theorem Message.length_pack_le (m : Message) : (pack m.added).length + 6 < m.data.length := by
  rw [m.data_eq]
  simp only [Message.tree, Tree.encode, Tree.encodeEntries, encodeString, List.length_append,
    List.length_cons]
  have h1 : (latin1 "added").length = 5 := by decide
  have h2 : (latin1 "dropped").length = 7 := by decide
  omega

/-- **The string is found in the packet**, as long as the decoder can hold it.
Source: `UTPex::handlePexPacket`. Kind: L -/
theorem handlePexPacket_message (m : Message) (h : m.data.length + 2 < 2 ^ 31) :
    handlePexPacket (extProtMsg 1 m.data) = some (pack m.added) := by
  have hlen := m.length_pack_le
  have hdropped : (pack m.dropped).length < 2 ^ 31 := by
    have hle : (pack m.dropped).length ≤ m.data.length := by
      rw [m.data_eq]
      simp only [Message.tree, Tree.encode, Tree.encodeEntries, encodeString, List.length_append,
        List.length_cons]
      omega
    omega
  have hfits : m.tree.Fits :=
    ⟨by decide, show (pack m.added).length < 2 ^ 31 by omega, by decide,
      show ([] : List UInt8).length < 2 ^ 31 by decide, by decide, hdropped, trivial⟩
  have hdec : BDecoder.decode (20 :: 1 :: m.data) 2 = .ok (some (m.tree.node 2), 2 + m.data.length) := by
    rw [m.data_eq] at h ⊢
    unfold BDecoder.decode
    refine BDecoder.decode_written ?_ (Tree.written_encode m.tree 2 hfits)
      (List.append_nil m.tree.encode).symm ?_
    · simp only [List.length_cons]
      omega
    · simp only [List.length_cons]
      omega
  unfold handlePexPacket extProtMsg
  rw [if_neg, hdec]
  · rfl
  · rintro (hle | hne)
    · simp only [List.length_cons] at hle
      omega
    · exact hne rfl

/-- An update is for one peer. Source: `torrent/utpex.cpp`. Kind: L -/
theorem run_peer (peer : ℕ) (es : List Event) :
    (run Run.step (Run.start peer) es).pex.peer = peer := by
  have hstep : ∀ (s : Run) (e : Event), s.pex.peer = peer → (s.step e).pex.peer = peer := by
    intro s e hs
    cases e with
    | connect p => exact hs
    | disconnect id => exact hs
    | update => exact hs
  exact run_inv hstep (show (Run.start peer).pex.peer = peer from rfl) es

/-- **Peer exchange.** After every run in which each connection has a fresh ID and an address of its
own, a receiver of the messages has exactly the addresses of the peers that were connected at the last
update, other than its own. The added string of a message is what the receiver finds in the packet, as
long as its decoder can hold that; and each entry of it is read as the address it was written for. (A
message is an array of bytes, with a size of 32 bits.)
Source: `UTPex::update`, `UTPex::handlePexPacket`, `PeerManager::pex`. Kind: P -/
theorem exchange (peer : ℕ) (es : List Event) (hes : Meets Run.step Run.Fresh (Run.start peer) es) :
    let s := run Run.step (Run.start peer) es
    received s.pex.sent =
        (((atLastUpdate es).filter fun p => p.id ≠ peer).map Peer.address).toFinset ∧
      ∀ m ∈ s.pex.sent, m.data.length < 2 ^ 32 →
        (∀ k > m.added.length, Pex.pex k (pack m.added) = .ok (m.added.map Address.heard)) ∧
        (m.data.length + 2 < 2 ^ 31 →
          handlePexPacket (extProtMsg 1 m.data) = some (pack m.added)) := by
  intro s
  have h : s.Told (es.foldl Connections.next {}) := (told_start peer).run hes
  have hpeer : s.pex.peer = peer := run_peer peer es
  refine ⟨?_, fun m _ hm => ⟨fun k hk => ?_, handlePexPacket_message m⟩⟩
  · rw [h.known]
    ext a
    rw [List.mem_toFinset, List.mem_toFinset, mem_addresses, List.mem_map, ← hpeer]
    constructor
    · rintro ⟨k, hk⟩
      obtain ⟨p, hp, hne, heq⟩ := (h.last _).mp hk
      cases heq
      exact ⟨p, List.mem_filter.mpr ⟨hp, decide_eq_true hne⟩, rfl⟩
    · rintro ⟨p, hp, rfl⟩
      obtain ⟨hp, hne⟩ := List.mem_filter.mp hp
      exact ⟨p.id, (h.last _).mpr ⟨p, hp, of_decide_eq_true hne, rfl⟩⟩
  · exact pex_pack _ (lt_trans m.length_pack_le hm) hk

/-- A peer is gone and another connection has its address. Source: `torrent/utpex.cpp`. Kind: L -/
theorem exchange_reconnected :
    let a : Address := ⟨0x0A000001, 6881, by decide, by decide⟩
    let b : Address := ⟨0x0A000002, 6881, by decide, by decide⟩
    let es := [Event.connect ⟨1, a⟩, .connect ⟨2, b⟩, .update, .disconnect 2, .connect ⟨3, b⟩, .update]
    let s : Run := run Run.step (Run.start 1) es
    (atLastUpdate es).map Peer.id = [1, 3] ∧ s.pex.sent.length = 2 ∧ received s.pex.sent = {b} ∧
      ∀ m ∈ s.pex.sent, m.data.length < 2 ^ 32 →
        (∀ k > m.added.length, Pex.pex k (pack m.added) = .ok (m.added.map Address.heard)) ∧
        (m.data.length + 2 < 2 ^ 31 →
          handlePexPacket (extProtMsg 1 m.data) = some (pack m.added)) := by
  intro a b es s
  have h := exchange 1 es (by
    refine ⟨⟨by decide, ?_⟩, ⟨by decide, ?_⟩, trivial, trivial, ⟨by decide, ?_⟩, trivial, trivial⟩ <;>
      decide)
  refine ⟨by decide, by decide, ?_, h.2⟩
  exact h.1.trans (by decide)

end KTorrent.Pex
