import KTorrent.Bencode.CutOff
import KTorrent.Pex.UTPex

/-!
# What trackers answer

A tracker answers with peers in entries of six bytes: over HTTP in a string of a bencoded
dictionary, over UDP behind the header of a packet.

* `readPeers` — the loop over the entries, for both; every access outside the data is a fault.
* `updateData` — an HTTP reply; `dataReceived`, `announceRecieved` — a UDP packet.
* `readPeers_eq` — the loop reads the whole entries, and it stays inside the data when nothing is
  behind them or it does not get that far.
* `updateData_iff`, `packet_iff` — when a reply and a packet are read as they should be.

Source: `torrent/httptracker.cpp`, `torrent/udptracker.cpp`, `torrent/udptrackersocket.cpp`,
`torrent/tracker.h`, `interfaces/peersource.cpp`
-/

namespace KTorrent.Tracker

open KTorrent.Lib KTorrent.Util KTorrent.Bencode KTorrent.Pex

/-- What goes wrong: data is read outside of an array, a null pointer is followed, or the decoder
does not end. Kind: D -/
inductive Fault
  | outside
  | null
  | running
  deriving DecidableEq

/-- What is kept of the replies; `failed` are the signals `requestFailed`. Source:
`torrent/tracker.h`, `interfaces/peersource.h`, `torrent/httptracker.h`. Kind: D -/
structure Announce where
  interval : ℕ
  seeders : ℕ
  leechers : ℕ
  failures : ℕ
  failed : List (List UInt8)
  peers : List PotentialPeer
  deriving DecidableEq

/-! ### Entries -/

/-- The loop over the entries from here on, at most `n` of them.
Source: `HTTPTracker::updateData`, `UDPTracker::announceRecieved`, the loops. Kind: D -/
def readPeers : ℕ → List UInt8 → Except Fault (List PotentialPeer)
  | 0, _ => .ok []
  | n + 1, bs =>
    if bs = [] then .ok []
    else
      match peek bs 0 6 with
      | none => .error .outside
      | some buf => (readPeers n (bs.drop 6)).map fun ps => potentialPeer buf 0 :: ps

/-- The whole entries. Kind: D -/
def entries (bs : List UInt8) : List PotentialPeer :=
  (List.range (bs.length / 6)).map fun k => potentialPeer bs (6 * k)

/-- Fewer than six bytes are no peer. Source: `torrent/httptracker.cpp`, `torrent/udptracker.cpp`.
Kind: L -/
theorem entries_of_lt {bs : List UInt8} (h : bs.length < 6) : entries bs = [] := by
  simp [entries, Nat.div_eq_of_lt h]

/-- The first entry and the others. Source: none: infrastructure. Kind: L -/
theorem entries_cons {bs : List UInt8} (h : 6 ≤ bs.length) :
    entries bs = potentialPeer (bs.take 6) 0 :: entries (bs.drop 6) := by
  have hdiv : bs.length / 6 = (bs.length - 6) / 6 + 1 := by omega
  have hhead : potentialPeer bs (6 * 0) = potentialPeer (bs.take 6) 0 := by
    simp [potentialPeer, List.take_take]
  have htail : (List.range ((bs.length - 6) / 6)).map
      ((fun k => potentialPeer bs (6 * k)) ∘ Nat.succ) = entries (bs.drop 6) := by
    unfold entries
    rw [List.length_drop]
    apply List.map_congr_left
    intro k _
    have hnext : 6 * (k + 1) = 6 + 6 * k := by omega
    simp only [Function.comp_apply, Nat.succ_eq_add_one, potentialPeer, List.drop_drop, hnext]
  rw [entries, hdiv, List.range_succ_eq_map, List.map_cons, List.map_map, hhead, htail]

/-- **What the loop reads.**. Source: `HTTPTracker::updateData`, `UDPTracker::announceRecieved`.
Kind: L -/
theorem readPeers_eq (n : ℕ) :
    ∀ bs : List UInt8, readPeers n bs =
      if bs.length % 6 = 0 ∨ n ≤ bs.length / 6 then .ok ((entries bs).take n)
      else .error .outside := by
  induction n with
  | zero =>
    intro bs
    rw [if_pos (Or.inr (Nat.zero_le _)), List.take_zero]
    rfl
  | succ n ih =>
    intro bs
    unfold readPeers
    by_cases hnil : bs = []
    · subst hnil
      have hmod : ([] : List UInt8).length % 6 = 0 ∨ n + 1 ≤ ([] : List UInt8).length / 6 :=
        Or.inl rfl
      rw [if_pos rfl, if_pos hmod, entries_of_lt (by simp), List.take_nil]
    · rw [if_neg hnil]
      have hpos := List.length_pos_iff.mpr hnil
      by_cases hlen : 6 ≤ bs.length
      · have hpeek : peek bs 0 6 = some (bs.take 6) := by
          unfold peek
          rw [if_pos (by omega), List.drop_zero]
        rw [hpeek, ih, List.length_drop, entries_cons hlen, List.take_succ_cons]
        have hcond : (bs.length - 6) % 6 = 0 ∨ n ≤ (bs.length - 6) / 6 ↔
            bs.length % 6 = 0 ∨ n + 1 ≤ bs.length / 6 := by omega
        by_cases hc : bs.length % 6 = 0 ∨ n + 1 ≤ bs.length / 6
        · rw [if_pos hc, if_pos (hcond.mpr hc)]
          rfl
        · rw [if_neg hc, if_neg (fun h => hc (hcond.mp h))]
          rfl
      · have hpeek : peek bs 0 6 = none := by
          unfold peek
          rw [if_neg (by omega)]
        rw [hpeek, if_neg (by omega)]

/-- The whole array. Source: `HTTPTracker::updateData`, `UDPTracker::announceRecieved`. Kind: L -/
theorem readPeers_length (bs : List UInt8) :
    readPeers bs.length bs = if bs.length % 6 = 0 then .ok (entries bs) else .error .outside := by
  rw [readPeers_eq]
  by_cases hmod : bs.length % 6 = 0
  · have hall : (entries bs).take bs.length = entries bs := by
      apply List.take_of_length_le
      rw [entries, List.length_map, List.length_range]
      exact Nat.div_le_self _ _
    rw [if_pos (Or.inl hmod), if_pos hmod, hall]
  · have hno : ¬ (bs.length % 6 = 0 ∨ bs.length ≤ bs.length / 6) := by omega
    rw [if_neg hno, if_neg hmod]

/-! ### An HTTP reply -/

/-- An `int` in a `Uint32`; a number that does not fit an `int` leaves it unset, which is 0 here.
Source: `Value::toInt`. Kind: D -/
def toUint32 (v : Value) : ℕ := ((v.ival.getD 0) % 2 ^ 32).toNat

/-- Kind: D -/
def Announce.fail (msg : List UInt8) (t : Announce) : Announce :=
  { t with failures := t.failures + 1, failed := t.failed ++ [msg] }

/-- A peer of a list. Source: `HTTPTracker::updateData`, the second loop. Kind: D -/
def listed : Option BNode → Option PotentialPeer
  | some (.dict _ _ dict) =>
    match BNode.getValue dict (latin1 "ip"), BNode.getValue dict (latin1 "port") with
    | some ip, some port => some ⟨BNode.cString ip.toByteArray, toUint32 port % 2 ^ 16, false⟩
    | _, _ => none
  | _ => none

/-- The numbers of a reply. Source: `HTTPTracker::updateData`. Kind: D -/
def readNumbers (dict : List (List UInt8 × Option BNode)) (t : Announce) : Announce :=
  { t with
    interval := ((BNode.getValue dict (latin1 "interval")).map toUint32).getD (5 * 60)
    leechers := ((BNode.getValue dict (latin1 "incomplete")).map toUint32).getD t.leechers
    seeders := ((BNode.getValue dict (latin1 "complete")).map toUint32).getD t.seeders }

/-- What is read of the dictionary. Source: `HTTPTracker::updateData`. Kind: D -/
def readDict (dict : List (List UInt8 × Option BNode)) (t : Announce) :
    Except Fault (Bool × Announce) :=
  if (BNode.getData dict (latin1 "failure reason")).isSome then
    match BNode.getValue dict (latin1 "failure reason") with
    | none => .error .null
    | some v => .ok (false, t.fail (BNode.cString v.toByteArray))
  else
    let t := readNumbers dict t
    match BNode.getList dict (latin1 "peers") with
    | some items => .ok (true, { t with peers := t.peers ++ items.filterMap listed })
    | none =>
      match BNode.getValue dict (latin1 "peers") with
      | none => .ok (false, t.fail (latin1 "Invalid response from tracker"))
      | some v =>
        (readPeers v.toByteArray.length v.toByteArray).map fun ps =>
          (true, { t with peers := t.peers ++ ps })

/-- Where the first `d` is. Source: `HTTPTracker::updateData`, the first loop. Kind: D -/
def firstD (data : List UInt8) : ℕ := data.findIdx (· == 'd'.toUInt8)

/-- Source: `HTTPTracker::updateData`. Kind: D -/
def updateData (data : List UInt8) (t : Announce) : Except Fault (Bool × Announce) :=
  if firstD data = data.length then .ok (false, t.fail (latin1 "Invalid response from tracker"))
  else
    match BDecoder.decode data (firstD data) with
    | .error .running => .error .running
    | .error (.error _) => .ok (false, t.fail (latin1 "Invalid data from tracker"))
    | .ok (some (.dict _ _ dict), _) => readDict dict t
    | .ok _ => .ok (false, t.fail (latin1 "Invalid response from tracker"))

/-- The peers a reply holds: those of its list, or the whole entries of its string. Kind: D -/
def present (dict : List (List UInt8 × Option BNode)) : List PotentialPeer :=
  match BNode.getList dict (latin1 "peers") with
  | some items => items.filterMap listed
  | none => entries (((BNode.getValue dict (latin1 "peers")).map Value.toByteArray).getD [])

/-- The dictionary of a reply, if it has one. Kind: D -/
def reply (data : List UInt8) : Option (List (List UInt8 × Option BNode)) :=
  match BDecoder.decode data (firstD data) with
  | .ok (some (.dict _ _ dict), _) => some dict
  | _ => none

/-- **A reply is read as it should be**: a failure is reported and no peer added, or the peers the
reply holds are. Kind: D -/
def UpdatesWell (data : List UInt8) (t : Announce) : Prop :=
  ∃ b t', updateData data t = .ok (b, t') ∧
    if b then ∃ dict, reply data = some dict ∧ t'.peers = t.peers ++ present dict
    else t'.peers = t.peers ∧ t'.failures = t.failures + 1 ∧ ∃ msg, t'.failed = t.failed ++ [msg]

/-- A failure reason is a value; and if there is none, the peers are a list, or a string of whole
entries, or not there. Kind: D -/
def WellTyped (dict : List (List UInt8 × Option BNode)) : Prop :=
  if (BNode.getData dict (latin1 "failure reason")).isSome then
    BNode.getValue dict (latin1 "failure reason") ≠ none
  else
    BNode.getList dict (latin1 "peers") = none →
      ∀ v, BNode.getValue dict (latin1 "peers") = some v → v.toByteArray.length % 6 = 0

/-- The decoder ends, and a dictionary it makes is well typed. Kind: D -/
def Readable (data : List UInt8) : Prop :=
  firstD data < data.length →
    BDecoder.decode data (firstD data) ≠ .error .running ∧
      ∀ dict, reply data = some dict → WellTyped dict

/-- What the reader of the dictionary does. Source: `HTTPTracker::updateData`. Kind: L -/
theorem readDict_iff (dict : List (List UInt8 × Option BNode)) (t : Announce) :
    (∃ b t', readDict dict t = .ok (b, t') ∧
      if b then t'.peers = t.peers ++ present dict
      else t'.peers = t.peers ∧ t'.failures = t.failures + 1 ∧
        ∃ msg, t'.failed = t.failed ++ [msg]) ↔ WellTyped dict := by
  unfold readDict present WellTyped
  by_cases hreason : (BNode.getData dict (latin1 "failure reason")).isSome
  · rw [if_pos hreason, if_pos hreason]
    cases BNode.getValue dict (latin1 "failure reason") with
    | none => simp
    | some v => simp [Announce.fail]
  · rw [if_neg hreason, if_neg hreason]
    cases hlist : BNode.getList dict (latin1 "peers") with
    | some items => simp [readNumbers]
    | none =>
      cases hvalue : BNode.getValue dict (latin1 "peers") with
      | none => simp [Announce.fail, readNumbers]
      | some v =>
        dsimp only
        rw [readPeers_length]
        by_cases hmod : v.toByteArray.length % 6 = 0
        · rw [if_pos hmod]
          simp [hmod, Except.map, readNumbers]
        · rw [if_neg hmod]
          simp [hmod, Except.map]

/-- **When an HTTP reply is read as it should be.**. Source: `HTTPTracker::updateData`. Kind: P -/
theorem updateData_iff (data : List UInt8) (t : Announce) :
    UpdatesWell data t ↔ Readable data := by
  unfold UpdatesWell updateData Readable reply
  have hle : firstD data ≤ data.length := List.findIdx_le_length
  by_cases hd : firstD data = data.length
  · have hnot : ¬ firstD data < data.length := by omega
    simp [hd, Announce.fail]
  · have hlt : firstD data < data.length := by omega
    rw [if_neg hd]
    rcases hdec : BDecoder.decode data (firstD data) with e | ⟨_ | n, pos⟩
    · cases e with
      | running => simp [hlt]
      | error e => simp [Announce.fail]
    · simp [Announce.fail]
    · cases n with
      | dict off len dict =>
        simp only [hlt, forall_true_left, Option.some.injEq, forall_eq', ne_eq, reduceCtorEq,
          not_false_eq_true, true_and, exists_eq_left']
        exact readDict_iff dict t
      | value off len v => simp [Announce.fail]
      | list off len cs => simp [Announce.fail]

/-- The decoder ends on every body of fewer than 2^31 bytes. Source: `BDecoder::decode`. Kind: L -/
theorem decode_ne_running {data : List UInt8} (hs : data.length < 2 ^ 31) {off : ℕ}
    (hoff : off ≤ data.length) : BDecoder.decode data off ≠ .error .running := by
  intro hrun
  have hword : data.length < 2 ^ 32 := by omega
  rcases BDecoder.decode_cases hword off with hcut | ⟨e, h⟩ | ⟨h, -⟩ | ⟨n, b, rest, h, -⟩
  · have hlen : off + (data.drop off).length = data.length := by
      rw [List.length_drop]
      omega
    obtain ⟨n, pos, h, -⟩ := BDecoder.decode_cut (k := 2 * data.length + 1) hs hcut rfl hlen
      (by omega)
    rw [BDecoder.decode, h] at hrun
    cases hrun
  all_goals
    rw [h] at hrun
    cases hrun

/-- Such a reply is read as it should be when its dictionary is well typed.
Source: `torrent/httptracker.cpp`, `torrent/udptracker.cpp`. Kind: P -/
theorem updatesWell_of_short {data : List UInt8} (hs : data.length < 2 ^ 31) (t : Announce)
    (h : ∀ dict, reply data = some dict → WellTyped dict) : UpdatesWell data t :=
  (updateData_iff data t).mpr fun hd => ⟨decode_ne_running hs hd.le, h⟩

/-! ### A UDP packet -/

/-- Source: `torrent/udptrackersocket.h`, `Action`. Kind: D -/
inductive Action
  | CONNECT
  | ANNOUNCE
  | SCRAPE
  | ERROR
  deriving DecidableEq

/-- Source: `torrent/udptrackersocket.h`, `UDPTrackerSocket`. Kind: D -/
structure UDPTrackerSocket where
  transactions : List (ℤ × Action)
  deriving DecidableEq

/-- What the socket tells the trackers. Source: the signals of `UDPTrackerSocket`. Kind: D -/
inductive Signal
  | connectRecieved (tid cid : ℤ)
  | announceRecieved (tid : ℤ) (data : List UInt8)
  | error (tid : ℤ) (msg : List UInt8)
  deriving DecidableEq

/-- A number of the packet, which is read without a look at the packet's length.
Source: `util/functions.cpp`, `ReadUint32`. Kind: D -/
def getUint32 (data : List UInt8) (off : ℕ) : Except Fault ℕ :=
  if off + 4 ≤ data.length then .ok (readUint32 data off) else .error .outside

/-- A number inside the data is read. Source: `util/functions.cpp`, `ReadUint32`. Kind: L -/
theorem getUint32_eq {data : List UInt8} {off : ℕ} (h : off + 4 ≤ data.length) :
    getUint32 data off = .ok (readUint32 data off) := if_pos h

/-- One beyond it is not. Source: `util/functions.cpp`, `ReadUint32`. Kind: L -/
theorem getUint32_outside {data : List UInt8} {off : ℕ} (h : data.length < off + 4) :
    getUint32 data off = .error .outside := if_neg (Nat.not_le_of_lt h)

/-- The same bits as a signed number. Kind: D -/
def int32 (v : ℕ) : ℤ := if v < 2 ^ 31 then v else (v : ℤ) - 2 ^ 32

/-- Source: `util/functions.cpp`, `ReadInt32`. Kind: D -/
def getInt32 (data : List UInt8) (off : ℕ) : Except Fault ℤ := (getUint32 data off).map int32

/-- Source: `util/functions.cpp`, `ReadInt64`. Kind: D -/
def getInt64 (data : List UInt8) (off : ℕ) : Except Fault ℤ := do
  let high ← getInt32 data off
  let low ← getUint32 data (off + 4)
  return high * 2 ^ 32 + low

namespace UDPTrackerSocket

/-- `transactions.find(tid)`. Kind: D -/
def find (tid : ℤ) (s : UDPTrackerSocket) : Option Action := s.transactions.lookup tid

/-- `transactions.erase(i)`. Kind: D -/
def erase (tid : ℤ) (s : UDPTrackerSocket) : UDPTrackerSocket :=
  { s with transactions := s.transactions.filter fun e => e.1 ≠ tid }

/-- Source: `UDPTrackerSocket::handleConnect`. Kind: D -/
def handleConnect (data : List UInt8) (s : UDPTrackerSocket) :
    Except Fault (Option Signal × UDPTrackerSocket) := do
  let tid ← getInt32 data 4
  match s.find tid with
  | none => return (none, s)
  | some action =>
    if action ≠ .CONNECT then return (some (.error tid []), s.erase tid)
    else
      let cid ← getInt64 data 8
      return (some (.connectRecieved tid cid), s.erase tid)

/-- Source: `UDPTrackerSocket::handleAnnounce`. Kind: D -/
def handleAnnounce (data : List UInt8) (s : UDPTrackerSocket) :
    Except Fault (Option Signal × UDPTrackerSocket) := do
  let tid ← getInt32 data 4
  match s.find tid with
  | none => return (none, s)
  | some action =>
    if action ≠ .ANNOUNCE then return (some (.error tid []), s.erase tid)
    else return (some (.announceRecieved tid data), s.erase tid)

/-- Source: `UDPTrackerSocket::handleError`. Kind: D -/
def handleError (data : List UInt8) (s : UDPTrackerSocket) :
    Except Fault (Option Signal × UDPTrackerSocket) := do
  let tid ← getInt32 data 4
  match s.find tid with
  | none => return (none, s)
  | some _ => return (some (.error tid (data.drop 8)), s.erase tid)

/-- Source: `UDPTrackerSocket::dataReceived`. Kind: D -/
def dataReceived (data : List UInt8) (s : UDPTrackerSocket) :
    Except Fault (Option Signal × UDPTrackerSocket) :=
  if data = [] then .ok (none, s)
  else do
    let type ← getUint32 data 0
    if type = 0 then handleConnect data s
    else if type = 1 then handleAnnounce data s
    else if type = 3 then handleError data s
    else return (none, s)

end UDPTrackerSocket

/-- What is read of an announcement. Source: `UDPTracker::announceRecieved`. Kind: D -/
def readAnnounce (data : List UInt8) (t : Announce) : Except Fault Announce := do
  let interval ← getUint32 data 8
  let leechers ← getUint32 data 12
  let seeders ← getUint32 data 16
  let ps ← readPeers (u32 (leechers + seeders)) (data.drop 20)
  return { t with
    interval := interval, leechers := leechers, seeders := seeders, peers := t.peers ++ ps }

/-- What a tracker with this transaction does with a signal. Source:
`UDPTracker::connectRecieved`, `UDPTracker::announceRecieved`, `UDPTracker::onError`. Kind: D -/
def receive (transaction_id : ℤ) (t : Announce) : Option Signal → Except Fault Announce
  | some (.announceRecieved tid data) =>
    if tid ≠ transaction_id then .ok t else readAnnounce data t
  | some (.error tid msg) =>
    .ok (if tid ≠ transaction_id then t else { t with failed := t.failed ++ [msg] })
  | _ => .ok t

/-- A packet arrives, and the tracker hears of it. Kind: D -/
def packet (transaction_id : ℤ) (data : List UInt8) (s : UDPTrackerSocket) (t : Announce) :
    Except Fault (UDPTrackerSocket × Announce) := do
  let r ← s.dataReceived data
  let t ← receive transaction_id t r.1
  return (r.2, t)

/-- The transaction a packet is about. Kind: D -/
def transactionOf (data : List UInt8) : ℤ := int32 (readUint32 data 4)

/-- How many peers a packet announces. Kind: D -/
def announcedOf (data : List UInt8) : ℕ := readUint32 data 12 + readUint32 data 16

/-- The packet is the answer to the announcement of the tracker's transaction. Kind: D -/
def Answers (transaction_id : ℤ) (data : List UInt8) (s : UDPTrackerSocket) : Prop :=
  readUint32 data 0 = 1 ∧ transactionOf data = transaction_id ∧
    s.find transaction_id = some .ANNOUNCE

instance (transaction_id : ℤ) (data : List UInt8) (s : UDPTrackerSocket) :
    Decidable (Answers transaction_id data s) := inferInstanceAs (Decidable (_ ∧ _ ∧ _))

/-- **A packet is read as it should be**: without a fault; of an answer the whole entries are added,
as far as they are announced, and of any other packet nothing is. Kind: D -/
def ReceivesWell (transaction_id : ℤ) (data : List UInt8) (s : UDPTrackerSocket) (t : Announce) :
    Prop :=
  ∃ s' t', packet transaction_id data s t = .ok (s', t') ∧
    t'.peers = t.peers ++
      if Answers transaction_id data s then (entries (data.drop 20)).take (announcedOf data) else []

/-- The header of an answer is whole; behind the entries is nothing, or the loop does not get there;
and the two counts do not wrap, or not below the number of entries. Kind: D -/
structure Fits (data : List UInt8) : Prop where
  header : 20 ≤ data.length
  entries : (data.length - 20) % 6 = 0 ∨ u32 (announcedOf data) ≤ (data.length - 20) / 6
  count : announcedOf data < 2 ^ 32 ∨ (data.length - 20) / 6 ≤ u32 (announcedOf data)

/-- What is read of a packet is there. Kind: D -/
structure Whole (transaction_id : ℤ) (data : List UInt8) (s : UDPTrackerSocket) : Prop where
  type : 4 ≤ data.length
  transaction : readUint32 data 0 = 0 ∨ readUint32 data 0 = 1 ∨ readUint32 data 0 = 3 →
    8 ≤ data.length
  connection : readUint32 data 0 = 0 → s.find (transactionOf data) = some .CONNECT →
    16 ≤ data.length
  announce : Answers transaction_id data s → Fits data

/-- Two beginnings of a list are the same when they are of one length.
Source: `torrent/httptracker.cpp`, `torrent/udptracker.cpp`. Kind: L -/
theorem take_eq_take_iff {α : Type*} {l : List α} {m n : ℕ} :
    l.take m = l.take n ↔ min m l.length = min n l.length := by
  constructor
  · intro h
    have := congrArg List.length h
    rwa [List.length_take, List.length_take] at this
  · intro h
    rw [List.take_eq_take_min, h, ← List.take_eq_take_min]

/-- Six bytes a peer. Source: `torrent/httptracker.cpp`, `torrent/udptracker.cpp`. Kind: L -/
theorem length_entries (bs : List UInt8) : (entries bs).length = bs.length / 6 := by
  rw [entries, List.length_map, List.length_range]

/-- A computation goes on with the value it has. Source: `torrent/httptracker.cpp`,
`torrent/udptracker.cpp`. Kind: L -/
theorem ok_bind {ε α β : Type} (a : α) (f : α → Except ε β) : (Except.ok a >>= f) = f a := rfl

/-- It does not go on after an error. Source: `torrent/httptracker.cpp`, `torrent/udptracker.cpp`.
Kind: L -/
theorem error_bind {ε α β : Type} (e : ε) (f : α → Except ε β) :
    (Except.error e >>= f) = .error e := rfl

/-- A header that is cut off. Source: `UDPTracker::announceRecieved`. Kind: L -/
theorem readAnnounce_outside {data : List UInt8} (t : Announce) (h : data.length < 20) :
    readAnnounce data t = .error .outside := by
  unfold readAnnounce
  by_cases h8 : 12 ≤ data.length
  · rw [getUint32_eq h8, ok_bind]
    by_cases h12 : 16 ≤ data.length
    · rw [getUint32_eq h12, ok_bind, getUint32_outside h, error_bind]
    · rw [getUint32_outside (Nat.lt_of_not_le h12), error_bind]
  · rw [getUint32_outside (Nat.lt_of_not_le h8), error_bind]

/-- A header that is whole. Source: `UDPTracker::announceRecieved`. Kind: L -/
theorem readAnnounce_eq {data : List UInt8} (t : Announce) (h : 20 ≤ data.length) :
    readAnnounce data t =
      (readPeers (u32 (announcedOf data)) (data.drop 20)).map fun ps =>
        { t with
          interval := readUint32 data 8, leechers := readUint32 data 12
          seeders := readUint32 data 16, peers := t.peers ++ ps } := by
  unfold readAnnounce announcedOf
  rw [getUint32_eq (show 8 + 4 ≤ data.length by omega), ok_bind,
    getUint32_eq (show 12 + 4 ≤ data.length by omega), ok_bind, getUint32_eq h, ok_bind]
  cases readPeers (u32 (readUint32 data 12 + readUint32 data 16)) (data.drop 20) with
  | error e => rfl
  | ok ps => rfl

/-- What the reader of an announcement does. Source: `UDPTracker::announceRecieved`. Kind: L -/
theorem readAnnounce_iff (data : List UInt8) (t : Announce) :
    (∃ t', readAnnounce data t = .ok t' ∧
      t'.peers = t.peers ++ (entries (data.drop 20)).take (announcedOf data)) ↔ Fits data := by
  by_cases hhead : 20 ≤ data.length
  · rw [readAnnounce_eq t hhead, readPeers_eq, List.length_drop]
    have hcount : (entries (data.drop 20)).take (u32 (announcedOf data)) =
        (entries (data.drop 20)).take (announcedOf data) ↔
          announcedOf data < 2 ^ 32 ∨ (data.length - 20) / 6 ≤ u32 (announcedOf data) := by
      rw [take_eq_take_iff, length_entries, List.length_drop]
      unfold u32
      omega
    by_cases hinside : (data.length - 20) % 6 = 0 ∨ u32 (announcedOf data) ≤ (data.length - 20) / 6
    · rw [if_pos hinside]
      constructor
      · rintro ⟨t', ht, hpeers⟩
        cases ht
        exact ⟨hhead, hinside, hcount.mp (List.append_cancel_left hpeers)⟩
      · intro h
        exact ⟨_, rfl, congrArg (t.peers ++ ·) (hcount.mpr h.count)⟩
    · rw [if_neg hinside]
      constructor
      · rintro ⟨t', ht, -⟩
        cases ht
      · intro h
        exact absurd h.entries hinside
  · rw [readAnnounce_outside t (Nat.lt_of_not_le hhead)]
    constructor
    · rintro ⟨t', ht, -⟩
      cases ht
    · intro h
      exact absurd h.header hhead

/-- A signed number inside the data. Source: `util/functions.cpp`, `ReadInt32`. Kind: L -/
theorem getInt32_eq {data : List UInt8} {off : ℕ} (h : off + 4 ≤ data.length) :
    getInt32 data off = .ok (int32 (readUint32 data off)) := by
  rw [getInt32, getUint32_eq h, Except.map]

/-- One beyond it. Source: `util/functions.cpp`, `ReadInt32`. Kind: L -/
theorem getInt32_outside {data : List UInt8} {off : ℕ} (h : data.length < off + 4) :
    getInt32 data off = .error .outside := by
  rw [getInt32, getUint32_outside h, Except.map]

/-- A number of 64 bits inside the data, with the sign of its upper half.
Source: `util/functions.cpp`, `ReadInt64`. Kind: L -/
theorem getInt64_eq {data : List UInt8} {off : ℕ} (h : off + 8 ≤ data.length) :
    getInt64 data off =
      .ok (int32 (readUint32 data off) * 2 ^ 32 + readUint32 data (off + 4)) := by
  rw [getInt64, getInt32_eq (by omega), ok_bind, getUint32_eq (by omega), ok_bind]
  rfl

/-- One beyond it. Source: `util/functions.cpp`, `ReadInt64`. Kind: L -/
theorem getInt64_outside {data : List UInt8} {off : ℕ} (h : data.length < off + 8) :
    getInt64 data off = .error .outside := by
  unfold getInt64
  by_cases h4 : off + 4 ≤ data.length
  · rw [getInt32_eq h4, ok_bind, getUint32_outside (by omega), error_bind]
  · rw [getInt32_outside (by omega), error_bind]

section packets

variable {transaction_id : ℤ} {data : List UInt8} {s s' : UDPTrackerSocket} {t t' : Announce}
  {signal : Option Signal} {e : Fault}

/-- A packet that is received and handled. Source: `torrent/httptracker.cpp`,
`torrent/udptracker.cpp`. Kind: L -/
theorem packet_ok (hs : s.dataReceived data = .ok (signal, s'))
    (ht : receive transaction_id t signal = .ok t') :
    packet transaction_id data s t = .ok (s', t') := by
  rw [packet, hs, ok_bind, ht, ok_bind]
  rfl

/-- A packet that is not received. Source: `torrent/httptracker.cpp`, `torrent/udptracker.cpp`.
Kind: L -/
theorem packet_error (hs : s.dataReceived data = .error e) :
    packet transaction_id data s t = .error e := by
  rw [packet, hs, error_bind]

/-- A packet whose signal is not handled. Source: `UDPTracker::connectRecieved`,
`UDPTracker::announceRecieved`. Kind: L -/
theorem packet_receive (hs : s.dataReceived data = .ok (signal, s'))
    (ht : receive transaction_id t signal = .error e) :
    packet transaction_id data s t = .error e := by
  rw [packet, hs, ok_bind, ht, error_bind]

/-- A packet that is no answer and that no peers are taken of. Source: `torrent/httptracker.cpp`,
`torrent/udptracker.cpp`. Kind: L -/
theorem receivesWell_of_quiet (hs : s.dataReceived data = .ok (signal, s'))
    (ht : ∃ t', receive transaction_id t signal = .ok t' ∧ t'.peers = t.peers)
    (hn : ¬ Answers transaction_id data s) : ReceivesWell transaction_id data s t := by
  obtain ⟨t', ht, hpeers⟩ := ht
  refine ⟨s', t', packet_ok hs ht, ?_⟩
  rw [if_neg hn, List.append_nil, hpeers]

/-- An error is no good reception. Source: `torrent/httptracker.cpp`, `torrent/udptracker.cpp`.
Kind: L -/
theorem not_receivesWell (h : packet transaction_id data s t = .error e) :
    ¬ ReceivesWell transaction_id data s t := by
  rintro ⟨s', t', hok, -⟩
  rw [h] at hok
  cases hok

/-- An error is told to the tracker or not, and no peers are taken.
Source: `UDPTracker::connectRecieved`, `UDPTracker::announceRecieved`. Kind: L -/
theorem receive_error (tid : ℤ) (msg : List UInt8) :
    ∃ t', receive transaction_id t (some (.error tid msg)) = .ok t' ∧ t'.peers = t.peers := by
  refine ⟨_, rfl, ?_⟩
  split_ifs <;> rfl

/-- Another action answers no announce. Source: `torrent/httptracker.cpp`, `torrent/udptracker.cpp`.
Kind: L -/
theorem not_answers_of_type (h : readUint32 data 0 ≠ 1) : ¬ Answers transaction_id data s :=
  fun ha => h ha.1

/-- A packet that its type is read of. Source: `UDPTrackerSocket::dataReceived`. Kind: L -/
theorem dataReceived_eq (h : 4 ≤ data.length) :
    s.dataReceived data =
      if readUint32 data 0 = 0 then s.handleConnect data
      else if readUint32 data 0 = 1 then s.handleAnnounce data
      else if readUint32 data 0 = 3 then s.handleError data
      else .ok (none, s) := by
  have hne : data ≠ [] := by
    rintro rfl
    simp at h
  rw [UDPTrackerSocket.dataReceived, if_neg hne, getUint32_eq h, ok_bind]
  rfl

/-- The answer to a connection. Source: `torrent/httptracker.cpp`, `torrent/udptracker.cpp`.
Kind: L -/
theorem connect_iff (hlen : 4 ≤ data.length) (htype : readUint32 data 0 = 0) :
    ReceivesWell transaction_id data s t ↔ Whole transaction_id data s := by
  have hn : ¬ Answers transaction_id data s := not_answers_of_type (by rw [htype]; decide)
  have hdata : s.dataReceived data = s.handleConnect data := by
    rw [dataReceived_eq hlen, if_pos htype]
  by_cases h8 : 8 ≤ data.length
  · have htid : getInt32 data 4 = .ok (transactionOf data) := getInt32_eq h8
    have hwhole : (s.find (transactionOf data) = some .CONNECT → 16 ≤ data.length) →
        Whole transaction_id data s :=
      fun h => ⟨hlen, fun _ => h8, fun _ => h, fun h => absurd h hn⟩
    cases hfind : s.find (transactionOf data) with
    | none =>
      have hs : s.dataReceived data = .ok (none, s) := by
        rw [hdata, UDPTrackerSocket.handleConnect, htid, ok_bind, hfind]
        rfl
      apply iff_of_true (receivesWell_of_quiet hs ⟨t, rfl, rfl⟩ hn)
      apply hwhole
      rw [hfind]
      intro h
      cases h
    | some action =>
      by_cases hc : action = .CONNECT
      · subst hc
        by_cases h16 : 16 ≤ data.length
        · have hs : s.dataReceived data = .ok (some (.connectRecieved (transactionOf data)
              (int32 (readUint32 data 8) * 2 ^ 32 + readUint32 data 12)),
              s.erase (transactionOf data)) := by
            rw [hdata, UDPTrackerSocket.handleConnect, htid, ok_bind, hfind]
            dsimp only
            rw [if_neg (not_not.mpr rfl), getInt64_eq h16, ok_bind]
            rfl
          exact iff_of_true (receivesWell_of_quiet hs ⟨t, rfl, rfl⟩ hn) (hwhole fun _ => h16)
        · have hs : s.dataReceived data = .error .outside := by
            rw [hdata, UDPTrackerSocket.handleConnect, htid, ok_bind, hfind]
            dsimp only
            rw [if_neg (not_not.mpr rfl), getInt64_outside (Nat.lt_of_not_le h16), error_bind]
          exact iff_of_false (not_receivesWell (packet_error hs))
            fun h => h16 (h.connection htype hfind)
      · have hs : s.dataReceived data =
            .ok (some (.error (transactionOf data) []), s.erase (transactionOf data)) := by
          rw [hdata, UDPTrackerSocket.handleConnect, htid, ok_bind, hfind]
          dsimp only
          rw [if_pos hc]
          rfl
        apply iff_of_true (receivesWell_of_quiet hs (receive_error _ _) hn)
        apply hwhole
        rw [hfind]
        intro h
        exact absurd (Option.some.inj h) hc
  · have hs : s.dataReceived data = .error .outside := by
      rw [hdata, UDPTrackerSocket.handleConnect, getInt32_outside (Nat.lt_of_not_le h8),
        error_bind]
    exact iff_of_false (not_receivesWell (packet_error hs))
      fun h => h8 (h.transaction (Or.inl htype))

/-- An announcement. Source: `torrent/httptracker.cpp`, `torrent/udptracker.cpp`. Kind: L -/
theorem announce_iff (hlen : 4 ≤ data.length) (htype : readUint32 data 0 = 1) :
    ReceivesWell transaction_id data s t ↔ Whole transaction_id data s := by
  have hne : readUint32 data 0 ≠ 0 := by rw [htype]; decide
  have hdata : s.dataReceived data = s.handleAnnounce data := by
    rw [dataReceived_eq hlen, if_neg hne, if_pos htype]
  by_cases h8 : 8 ≤ data.length
  · have htid : getInt32 data 4 = .ok (transactionOf data) := getInt32_eq h8
    have hwhole : (Answers transaction_id data s → Fits data) → Whole transaction_id data s :=
      fun h => ⟨hlen, fun _ => h8, fun h0 => absurd h0 hne, h⟩
    cases hfind : s.find (transactionOf data) with
    | none =>
      have hs : s.dataReceived data = .ok (none, s) := by
        rw [hdata, UDPTrackerSocket.handleAnnounce, htid, ok_bind, hfind]
        rfl
      have hn : ¬ Answers transaction_id data s := by
        rintro ⟨_, rfl, h⟩
        rw [hfind] at h
        cases h
      exact iff_of_true (receivesWell_of_quiet hs ⟨t, rfl, rfl⟩ hn) (hwhole fun h => absurd h hn)
    | some action =>
      by_cases hc : action = .ANNOUNCE
      · subst hc
        have hs : s.dataReceived data =
            .ok (some (.announceRecieved (transactionOf data) data),
              s.erase (transactionOf data)) := by
          rw [hdata, UDPTrackerSocket.handleAnnounce, htid, ok_bind, hfind]
          rfl
        by_cases hmine : transactionOf data = transaction_id
        · have hans : Answers transaction_id data s := ⟨htype, hmine, hmine ▸ hfind⟩
          have hreceive : receive transaction_id t (some (.announceRecieved (transactionOf data)
              data)) = readAnnounce data t := if_neg (not_not.mpr hmine)
          have hfits : Whole transaction_id data s ↔ Fits data :=
            ⟨fun h => h.announce hans, fun h => hwhole fun _ => h⟩
          rw [hfits, ← readAnnounce_iff data t]
          unfold ReceivesWell
          rw [if_pos hans]
          constructor
          · rintro ⟨s', t', hok, hpeers⟩
            cases hread : readAnnounce data t with
            | error e =>
              rw [packet_receive hs (hreceive.trans hread)] at hok
              cases hok
            | ok t₁ =>
              rw [packet_ok hs (hreceive.trans hread)] at hok
              cases hok
              exact ⟨t', rfl, hpeers⟩
          · rintro ⟨t', hread, hpeers⟩
            exact ⟨_, t', packet_ok hs (hreceive.trans hread), hpeers⟩
        · have hn : ¬ Answers transaction_id data s := fun h => hmine h.2.1
          have hreceive : receive transaction_id t (some (.announceRecieved (transactionOf data)
              data)) = .ok t := if_pos hmine
          exact iff_of_true (receivesWell_of_quiet hs ⟨t, hreceive, rfl⟩ hn)
            (hwhole fun h => absurd h hn)
      · have hs : s.dataReceived data =
            .ok (some (.error (transactionOf data) []), s.erase (transactionOf data)) := by
          rw [hdata, UDPTrackerSocket.handleAnnounce, htid, ok_bind, hfind]
          dsimp only
          rw [if_pos hc]
          rfl
        have hn : ¬ Answers transaction_id data s := by
          rintro ⟨_, rfl, h⟩
          exact hc (Option.some.inj (hfind.symm.trans h))
        exact iff_of_true (receivesWell_of_quiet hs (receive_error _ _) hn)
          (hwhole fun h => absurd h hn)
  · have hs : s.dataReceived data = .error .outside := by
      rw [hdata, UDPTrackerSocket.handleAnnounce, getInt32_outside (Nat.lt_of_not_le h8),
        error_bind]
    exact iff_of_false (not_receivesWell (packet_error hs))
      fun h => h8 (h.transaction (Or.inr (Or.inl htype)))

/-- An error. Source: `torrent/httptracker.cpp`, `torrent/udptracker.cpp`. Kind: L -/
theorem error_iff (hlen : 4 ≤ data.length) (htype : readUint32 data 0 = 3) :
    ReceivesWell transaction_id data s t ↔ Whole transaction_id data s := by
  have hn : ¬ Answers transaction_id data s := not_answers_of_type (by rw [htype]; decide)
  have h0 : readUint32 data 0 ≠ 0 := by rw [htype]; decide
  have h1 : readUint32 data 0 ≠ 1 := by rw [htype]; decide
  have hdata : s.dataReceived data = s.handleError data := by
    rw [dataReceived_eq hlen, if_neg h0, if_neg h1, if_pos htype]
  by_cases h8 : 8 ≤ data.length
  · have htid : getInt32 data 4 = .ok (transactionOf data) := getInt32_eq h8
    have hwhole : Whole transaction_id data s :=
      ⟨hlen, fun _ => h8, fun h => absurd h h0, fun h => absurd h hn⟩
    cases hfind : s.find (transactionOf data) with
    | none =>
      have hs : s.dataReceived data = .ok (none, s) := by
        rw [hdata, UDPTrackerSocket.handleError, htid, ok_bind, hfind]
        rfl
      exact iff_of_true (receivesWell_of_quiet hs ⟨t, rfl, rfl⟩ hn) hwhole
    | some action =>
      have hs : s.dataReceived data = .ok (some (.error (transactionOf data) (data.drop 8)),
          s.erase (transactionOf data)) := by
        rw [hdata, UDPTrackerSocket.handleError, htid, ok_bind, hfind]
        rfl
      exact iff_of_true (receivesWell_of_quiet hs (receive_error _ _) hn) hwhole
  · have hs : s.dataReceived data = .error .outside := by
      rw [hdata, UDPTrackerSocket.handleError, getInt32_outside (Nat.lt_of_not_le h8), error_bind]
    exact iff_of_false (not_receivesWell (packet_error hs))
      fun h => h8 (h.transaction (Or.inr (Or.inr htype)))

/-- **When a packet is read as it should be.** An empty one always is.
Source: `torrent/httptracker.cpp`, `torrent/udptracker.cpp`. Kind: P -/
theorem packet_iff (transaction_id : ℤ) (data : List UInt8) (s : UDPTrackerSocket) (t : Announce) :
    ReceivesWell transaction_id data s t ↔ data = [] ∨ Whole transaction_id data s := by
  by_cases hnil : data = []
  · subst hnil
    have hn : ¬ Answers transaction_id [] s := not_answers_of_type (by decide)
    have hs : s.dataReceived [] = .ok (none, s) := rfl
    exact iff_of_true (receivesWell_of_quiet hs ⟨t, rfl, rfl⟩ hn) (Or.inl rfl)
  · rw [or_iff_right hnil]
    by_cases hlen : 4 ≤ data.length
    · by_cases h0 : readUint32 data 0 = 0
      · exact connect_iff hlen h0
      by_cases h1 : readUint32 data 0 = 1
      · exact announce_iff hlen h1
      by_cases h3 : readUint32 data 0 = 3
      · exact error_iff hlen h3
      have hs : s.dataReceived data = .ok (none, s) := by
        rw [dataReceived_eq hlen, if_neg h0, if_neg h1, if_neg h3]
      have hn : ¬ Answers transaction_id data s := not_answers_of_type h1
      apply iff_of_true (receivesWell_of_quiet hs ⟨t, rfl, rfl⟩ hn)
      refine ⟨hlen, ?_, fun h => absurd h h0, fun h => absurd h hn⟩
      rintro (h | h | h)
      · exact absurd h h0
      · exact absurd h h1
      · exact absurd h h3
    · have hs : s.dataReceived data = .error .outside := by
        rw [UDPTrackerSocket.dataReceived, if_neg hnil,
          getUint32_outside (Nat.lt_of_not_le hlen), error_bind]
      exact iff_of_false (not_receivesWell (packet_error hs)) fun h => hlen h.type

end packets

/-! ### Both -/

/-- **When the replies of trackers are read as they should be.**. Source: `torrent/httptracker.cpp`,
`torrent/udptracker.cpp`. Kind: P -/
theorem replies_iff (transaction_id : ℤ) (data : List UInt8) (s : UDPTrackerSocket) (t : Announce) :
    (UpdatesWell data t ↔ Readable data) ∧
      (ReceivesWell transaction_id data s t ↔ data = [] ∨ Whole transaction_id data s) :=
  ⟨updateData_iff data t, packet_iff transaction_id data s t⟩

/-- A reply with a whole entry and one byte more. Source: `torrent/httptracker.cpp`,
`torrent/udptracker.cpp`. Kind: P -/
theorem rest_read :
    ¬ ((∀ (data : List UInt8) (t : Announce), UpdatesWell data t) ∧
      ∀ (transaction_id : ℤ) (data : List UInt8) (s : UDPTrackerSocket) (t : Announce),
        ReceivesWell transaction_id data s t) := by
  rintro ⟨h, -⟩
  obtain ⟨b, t', hok, -⟩ := h (latin1 "d5:peers7:1234567e") ⟨0, 0, 0, 0, [], []⟩
  have hfault : (updateData (latin1 "d5:peers7:1234567e") ⟨0, 0, 0, 0, [], []⟩).toBool = false := by
    decide +kernel
  rw [hok] at hfault
  exact Bool.noConfusion hfault

end KTorrent.Tracker
