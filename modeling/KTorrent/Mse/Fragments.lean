import KTorrent.Mse.AuthenticateBase

/-!
# The plain handshake in fragments

The authentication monitor calls `onReadyRead` whenever the socket has bytes to read. How the 68
bytes of the peer's handshake were split on their way decides what each call finds.

* `AuthenticateBase.collect` — `onReadyRead` up to the call of `handshakeRecieved`.
* `Session` — an authentication with the calls of `handshakeRecieved` and the handshakes sent.
* `Good`, `Late` — the first call that finds 48 bytes finds all 68; or it does not, and the fragment
  that completes the handshake brings so much else that 48 bytes are waiting.
* `timely_iff` — `handshakeRecieved(true)` is called once and in time exactly in these two cases.
* `fragments_iff` — with the contacted side's own handshake sent once, the second case is left only
  where the handshake is then refused.
* `stalled` — 48 bytes and then 20: the rest of the handshake is never read.

Source: `torrent/authenticatebase.cpp`, `torrent/serverauthenticate.cpp`, `torrent/authenticate.cpp`,
`torrent/authenticationmonitor.cpp`
-/

namespace KTorrent.Mse

open KTorrent.Lib KTorrent.Util KTorrent.Storage

/-! ### The calls of `handshakeRecieved` -/

/-- The authentication when `handshakeRecieved` is called, and with which argument it is.
Source: `AuthenticateBase::onReadyRead`. Kind: D -/
def AuthenticateBase.collect (a : AuthenticateBase) : AuthenticateBase × Option Bool :=
  match a.sock with
  | none => (a, none)
  | some s =>
    let ba := s.bytesAvailable
    if ba = 0 then (a.onFinish false, none)
    else if a.finished ∨ ba < 48 then (a, none)
    else if a.bytes_of_handshake_recieved = 0 ∧ ba < 68 then
      let r := s.readData ba ba
      ({ a with
        handshake := overwrite a.handshake 0 r.buf
        bytes_of_handshake_recieved := ba
        sock := some r.sock }, some false)
    else
      let to_read := 68 - a.bytes_of_handshake_recieved
      let r := s.readData to_read to_read
      let a := { a with
        handshake := overwrite a.handshake a.bytes_of_handshake_recieved r.buf
        sock := some r.sock }
      if a.handshake.take 20 = pstr then (a, some true) else (a.onFinish false, none)

/-- What a call of `handshakeRecieved` decides, and the arguments of `sendHandshake`. Kind: D -/
structure Answer where
  verdict : Verdict
  sends : Option (List UInt8 × List UInt8) := none

/-- A subclass. A full handshake ends the authentication; a partial one is no success. Kind: D -/
structure Subclass where
  handshakeRecieved : Bool → List UInt8 → Answer
  full_ends : ∀ hs, (handshakeRecieved true hs).verdict ≠ .wait
  part_waits : ∀ hs, (handshakeRecieved false hs).verdict ≠ .accept

/-- A whole handshake is never waited for. Source: `ServerAuthenticate::handshakeRecieved`.
Kind: L -/
theorem ServerAuthenticate.handshakeRecieved_full (blocked : Bool)
    (findPeerManager : List UInt8 → Option Pman) (hs : List UInt8) :
    ServerAuthenticate.handshakeRecieved blocked findPeerManager true hs ≠ .wait := by
  unfold ServerAuthenticate.handshakeRecieved
  cases findPeerManager ((hs.drop 28).take 20) <;> dsimp only <;> split_ifs <;> simp_all

/-- A part of a handshake is never accepted. Source: `ServerAuthenticate::handshakeRecieved`.
Kind: L -/
theorem ServerAuthenticate.handshakeRecieved_part (blocked : Bool)
    (findPeerManager : List UInt8 → Option Pman) (hs : List UInt8) :
    ServerAuthenticate.handshakeRecieved blocked findPeerManager false hs ≠ .accept := by
  unfold ServerAuthenticate.handshakeRecieved
  cases findPeerManager ((hs.drop 28).take 20) <;> dsimp only <;> split_ifs <;> simp_all

/-- The side that was contacted. Source: `ServerAuthenticate::handshakeRecieved`. Kind: D -/
def ServerAuthenticate.subclass (blocked : Bool) (findPeerManager : List UInt8 → Option Pman) :
    Subclass where
  handshakeRecieved full hs :=
    let verdict := ServerAuthenticate.handshakeRecieved blocked findPeerManager full hs
    ⟨verdict, if verdict = .fail then none
      else (findPeerManager ((hs.drop 28).take 20)).map fun pman => ((hs.drop 28).take 20, pman.peer_id)⟩
  full_ends := ServerAuthenticate.handshakeRecieved_full blocked findPeerManager
  part_waits := ServerAuthenticate.handshakeRecieved_part blocked findPeerManager

/-- The side that made the connection. Source: `Authenticate::handshakeRecieved`. Kind: D -/
def Authenticate.subclass (blocked : Bool) (info_hash : List UInt8) (pman : Pman) : Subclass where
  handshakeRecieved full hs := ⟨Authenticate.handshakeRecieved blocked info_hash pman full hs, none⟩
  full_ends hs := by
    unfold Authenticate.handshakeRecieved
    split_ifs <;> simp_all
  part_waits hs := by
    unfold Authenticate.handshakeRecieved
    split_ifs <;> simp_all

/-- `onReadyRead` collects, and calls `handshakeRecieved`. Source: `AuthenticateBase::onReadyRead`.
Kind: L -/
theorem AuthenticateBase.onReadyRead_eq (decide : Bool → List UInt8 → Verdict)
    (a : AuthenticateBase) :
    a.onReadyRead decide =
      match a.collect with
      | (b, some full) => b.decided decide full
      | (b, none) => b := by
  unfold onReadyRead collect
  cases a.sock with
  | none => rfl
  | some s =>
    dsimp only
    split_ifs <;> rfl

/-- An authentication with what happened so far. Kind: D -/
structure Session where
  base : AuthenticateBase
  /-- The calls of `handshakeRecieved`, with the buffer as each finds it. -/
  calls : List (Bool × List UInt8) := []
  sent : List (List UInt8 × List UInt8) := []

namespace Session

/-- Source: `AuthenticateBase::onReadyRead`. Kind: D -/
def onReadyRead (c : Subclass) (s : Session) : Session :=
  match s.base.collect with
  | (b, none) => { s with base := b }
  | (b, some full) =>
    { base := b.decided (fun full hs => (c.handshakeRecieved full hs).verdict) full
      calls := s.calls ++ [(full, b.handshake)]
      sent := s.sent ++ (c.handshakeRecieved full b.handshake).sends.toList }

/-- A session goes through the states of the authentication.
Source: `AuthenticateBase::onReadyRead`. Kind: L -/
theorem base_onReadyRead (c : Subclass) (s : Session) :
    (s.onReadyRead c).base =
      s.base.onReadyRead fun full hs => (c.handshakeRecieved full hs).verdict := by
  rw [AuthenticateBase.onReadyRead_eq]
  unfold onReadyRead
  split
  · next b h => rw [h]
  · next b full h => rw [h]

/-- Bytes that arrive between two polls, and the subclass as it decides then. Kind: D -/
structure Fragment where
  data : List UInt8
  sub : Subclass

/-- Bytes arrive; the monitor calls `onReadyRead` if there are any and the authentication goes on.
Source: `AuthenticationMonitor::update`, `AuthenticationMonitor::handleData`. Kind: D -/
def poll (s : Session) (f : Fragment) : Session :=
  let s := { s with base := { s.base with sock := s.base.sock.map (StreamSocket.arrive f.data) } }
  match s.base.sock with
  | none => s
  | some k => if s.base.finished ∨ k.bytesAvailable = 0 then s else s.onReadyRead f.sub

/-- A connection that was just accepted. Kind: D -/
def init : Session := { base := .fresh [] }

/-- All bytes of the fragments. Kind: D -/
def bytes (fs : List Fragment) : List UInt8 := fs.flatMap Fragment.data

/-- The handshakes with which `handshakeRecieved(true)` was called. Kind: D -/
def fullCalls (s : Session) : List (List UInt8) :=
  (s.calls.filter Prod.fst).map Prod.snd

/-- The session after the fragments. Kind: D -/
def after (fs : List Fragment) : Session := run poll init fs

/-- No pieces, no bytes. Source: none: infrastructure. Kind: L -/
@[simp] theorem bytes_nil : bytes [] = [] := rfl

/-- The bytes of two runs of pieces. Source: none: infrastructure. Kind: L -/
@[simp] theorem bytes_append (fs gs : List Fragment) : bytes (fs ++ gs) = bytes fs ++ bytes gs :=
  List.flatMap_append

/-- The bytes of a first piece and the rest. Source: none: infrastructure. Kind: L -/
@[simp] theorem bytes_cons (f : Fragment) (fs : List Fragment) : bytes (f :: fs) = f.data ++ bytes fs :=
  rfl

/-! ### What a poll does -/

/-- Nothing has been read yet, and these bytes are waiting. Kind: D -/
def waiting (l : List UInt8) : Session := { base := .fresh l }

/-- The buffer after a partial read. Kind: D -/
def part (l : List UInt8) : List UInt8 := overwrite (List.replicate 68 0) 0 l

/-- The authentication after a partial read, before the subclass decides. Kind: D -/
def partBase (l : List UInt8) : AuthenticateBase where
  sock := some ⟨none, none, []⟩
  handshake := part l
  bytes_of_handshake_recieved := l.length

/-- A part was read and the subclass waits; these bytes are waiting. Kind: D -/
def halted (l rest : List UInt8) (sent : List (List UInt8 × List UInt8)) : Session where
  base :=
    { sock := some ⟨none, none, rest⟩
      handshake := part l
      bytes_of_handshake_recieved := l.length }
  calls := [(false, part l)]
  sent := sent

/-- The authentication when all 68 bytes have been read. Kind: D -/
def fullBase (n : ℕ) (hs rest : List UInt8) : AuthenticateBase where
  sock := some ⟨none, none, rest⟩
  handshake := hs
  bytes_of_handshake_recieved := n

/-- Bytes arrive at a socket without encryption and without reinserted data.
Source: `torrent/authenticatebase.cpp`, `torrent/serverauthenticate.cpp`. Kind: L -/
theorem arrive_plain (l d : List UInt8) :
    StreamSocket.arrive d ⟨none, none, l⟩ = ⟨none, none, l ++ d⟩ := rfl

/-- What is available on such a socket. Source: `StreamSocket::bytesAvailable`. Kind: L -/
theorem bytesAvailable_plain (l : List UInt8) :
    StreamSocket.bytesAvailable ⟨none, none, l⟩ = l.length := rfl

/-- Fewer than 48 bytes are left on the socket. Source: `AuthenticationMonitor::update`,
`AuthenticationMonitor::handleData`. Kind: L -/
theorem poll_waiting_lt {l : List UInt8} {f : Fragment} (h : (l ++ f.data).length < 48) :
    (waiting l).poll f = waiting (l ++ f.data) := by
  show (if false = true ∨ (l ++ f.data).length = 0 then waiting (l ++ f.data)
    else (waiting (l ++ f.data)).onReadyRead f.sub) = _
  by_cases hz : (l ++ f.data).length = 0
  · rw [if_pos (.inr hz)]
  · rw [if_neg (by simpa using hz)]
    unfold onReadyRead waiting AuthenticateBase.fresh AuthenticateBase.collect
    simp only [bytesAvailable_plain, if_neg hz, if_pos (Or.inr h : false = true ∨ _)]

/-- From 48 bytes on, fewer than 68 are read and handed on as a part.
Source: `AuthenticationMonitor::update`, `AuthenticationMonitor::handleData`. Kind: L -/
theorem poll_waiting_part {l : List UInt8} {f : Fragment} (h : 48 ≤ (l ++ f.data).length)
    (h' : (l ++ f.data).length < 68) :
    (waiting l).poll f =
      { base := (partBase (l ++ f.data)).decided
          (fun full hs => (f.sub.handshakeRecieved full hs).verdict) false
        calls := [(false, part (l ++ f.data))]
        sent := (f.sub.handshakeRecieved false (part (l ++ f.data))).sends.toList } := by
  show (if false = true ∨ (l ++ f.data).length = 0 then waiting (l ++ f.data)
    else (waiting (l ++ f.data)).onReadyRead f.sub) = _
  generalize l ++ f.data = bs at h h' ⊢
  rw [if_neg (by simp; rintro rfl; simp at h)]
  have hne : bs.length ≠ 0 := by omega
  have hge : ¬ (false = true ∨ bs.length < 48) := by simpa using h
  unfold onReadyRead waiting AuthenticateBase.fresh AuthenticateBase.collect
  simp only [bytesAvailable_plain, if_neg hne, if_neg hge, true_and, if_pos h',
    StreamSocket.readData_plain, List.take_length, List.drop_length]
  rfl

/-- The buffer of a part holds its bytes and then zeros. Source: `torrent/authenticatebase.cpp`,
`torrent/serverauthenticate.cpp`. Kind: L -/
theorem part_take {l : List UInt8} (h : l.length ≤ 68) :
    (part l).take l.length = l ∧ (part l).length = 68 := by
  unfold part overwrite
  rw [List.take_zero, List.nil_append, Nat.zero_add]
  constructor
  · rw [List.take_left]
  · rw [List.length_append, List.length_drop, List.length_replicate]
    omega

/-- The second read completes what the first one left. Source: `torrent/authenticatebase.cpp`,
`torrent/serverauthenticate.cpp`. Kind: L -/
theorem overwrite_part {hs : List UInt8} {n : ℕ} (hn : n ≤ 68) (h : hs.length = 68) :
    overwrite (part (hs.take n)) n (hs.drop n) = hs := by
  have hlen : (hs.take n).length = n := by
    rw [List.length_take]
    omega
  obtain ⟨ht, hl⟩ := part_take (l := hs.take n) (by omega)
  rw [hlen] at ht
  have hnil : (part (hs.take n)).drop (n + (68 - n)) = [] := List.drop_eq_nil_of_le (by omega)
  unfold overwrite
  rw [ht, List.length_drop, h, hnil, List.append_nil, List.take_append_drop]

/-- A whole handshake fills the buffer. Source: `torrent/authenticatebase.cpp`,
`torrent/serverauthenticate.cpp`. Kind: L -/
theorem overwrite_full {hs : List UInt8} (h : hs.length = 68) :
    overwrite (List.replicate 68 0) 0 hs = hs := by
  unfold overwrite
  rw [List.take_zero, List.nil_append, h, List.drop_eq_nil_of_le (by simp), List.append_nil]

/-- 68 bytes or more are read as a whole handshake. Source: `AuthenticationMonitor::update`,
`AuthenticationMonitor::handleData`. Kind: L -/
theorem poll_waiting_full {l hs rest : List UInt8} {f : Fragment} (h : hs.length = 68)
    (hp : hs.take 20 = AuthenticateBase.pstr) (hd : l ++ f.data = hs ++ rest) :
    (waiting l).poll f =
      { base := (fullBase 0 hs rest).decided
          (fun full hs => (f.sub.handshakeRecieved full hs).verdict) true
        calls := [(true, hs)]
        sent := (f.sub.handshakeRecieved true hs).sends.toList } := by
  show (if false = true ∨ (l ++ f.data).length = 0 then waiting (l ++ f.data)
    else (waiting (l ++ f.data)).onReadyRead f.sub) = _
  have hlen : (hs ++ rest).length = 68 + rest.length := by rw [List.length_append, h]
  rw [hd, if_neg (by simp [hlen])]
  have hge : ¬ (false = true ∨ (hs ++ rest).length < 48) := by simp [hlen]; omega
  have hne : (hs ++ rest).length ≠ 0 := by omega
  have hlt : ¬ (True ∧ (hs ++ rest).length < 68) := by simp [hlen]
  have htake : (hs ++ rest).take 68 = hs := by rw [← h, List.take_left]
  have hdrop : (hs ++ rest).drop 68 = rest := by rw [← h, List.drop_left]
  unfold onReadyRead waiting AuthenticateBase.fresh AuthenticateBase.collect
  simp only [bytesAvailable_plain, if_neg hne, if_neg hge, if_neg hlt, Nat.sub_zero,
    StreamSocket.readData_plain, htake, hdrop, overwrite_full h, if_pos hp]
  rfl

/-- After a part, fewer than 48 bytes are left on the socket.
Source: `AuthenticationMonitor::update`, `AuthenticationMonitor::handleData`. Kind: L -/
theorem poll_halted_lt {l rest : List UInt8} {sent : List (List UInt8 × List UInt8)} {f : Fragment}
    (h : (rest ++ f.data).length < 48) :
    (halted l rest sent).poll f = halted l (rest ++ f.data) sent := by
  show (if false = true ∨ (rest ++ f.data).length = 0 then halted l (rest ++ f.data) sent
    else (halted l (rest ++ f.data) sent).onReadyRead f.sub) = _
  by_cases hz : (rest ++ f.data).length = 0
  · rw [if_pos (.inr hz)]
  · rw [if_neg (by simpa using hz)]
    unfold onReadyRead halted AuthenticateBase.collect
    simp only [bytesAvailable_plain, if_neg hz, if_pos (Or.inr h : false = true ∨ _)]

/-- After a part, the rest of the handshake completes it. Source: `AuthenticationMonitor::update`,
`AuthenticationMonitor::handleData`. Kind: L -/
theorem poll_halted_full {n : ℕ} {hs rest front : List UInt8} {f : Fragment}
    {sent : List (List UInt8 × List UInt8)} (hn : 0 < n ∧ n ≤ 68) (h : hs.length = 68)
    (hp : hs.take 20 = AuthenticateBase.pstr) (hd : front ++ f.data = hs.drop n ++ rest)
    (h48 : 48 ≤ (front ++ f.data).length) :
    (halted (hs.take n) front sent).poll f =
      { base := (fullBase n hs rest).decided
          (fun full hs => (f.sub.handshakeRecieved full hs).verdict) true
        calls := [(false, part (hs.take n)), (true, hs)]
        sent := sent ++ (f.sub.handshakeRecieved true hs).sends.toList } := by
  show (if false = true ∨ (front ++ f.data).length = 0 then halted (hs.take n) (front ++ f.data) sent
    else (halted (hs.take n) (front ++ f.data) sent).onReadyRead f.sub) = _
  have hlen : (hs.take n).length = n := by
    rw [List.length_take]
    omega
  have hrest : (hs.drop n).length = 68 - n := by rw [List.length_drop, h]
  rw [hd] at h48 ⊢
  have hne : (hs.drop n ++ rest).length ≠ 0 := by omega
  have hge : ¬ (false = true ∨ (hs.drop n ++ rest).length < 48) := by simpa using h48
  have hz : ¬ (n = 0 ∧ (hs.drop n ++ rest).length < 68) := by omega
  have htake : (hs.drop n ++ rest).take (68 - n) = hs.drop n := by rw [← hrest, List.take_left]
  have hdrop : (hs.drop n ++ rest).drop (68 - n) = rest := by rw [← hrest, List.drop_left]
  rw [if_neg (by simpa using hne)]
  unfold onReadyRead halted AuthenticateBase.collect
  simp only [bytesAvailable_plain, if_neg hne, if_neg hge, hlen, if_neg hz,
    StreamSocket.readData_plain, htake, hdrop, overwrite_part hn.2 h, if_pos hp]
  rfl

/-! ### Runs -/

/-- Pieces of fewer than 48 bytes together change nothing but the socket.
Source: `AuthenticationMonitor::update`, `AuthenticationMonitor::handleData`. Kind: L -/
theorem run_waiting {l : List UInt8} {fs : List Fragment} (h : (l ++ bytes fs).length < 48) :
    run poll (waiting l) fs = waiting (l ++ bytes fs) := by
  induction fs generalizing l with
  | nil => rw [run_nil, bytes_nil, List.append_nil]
  | cons f fs ih =>
    rw [bytes_cons, ← List.append_assoc] at h ⊢
    have hlt : (l ++ f.data).length < 48 := by
      rw [List.length_append] at h
      omega
    rw [run_cons, poll_waiting_lt hlt, ih h]

/-- After a part, pieces of fewer than 48 bytes together change nothing but the socket.
Source: `AuthenticationMonitor::update`, `AuthenticationMonitor::handleData`. Kind: L -/
theorem run_halted {l rest : List UInt8} {sent : List (List UInt8 × List UInt8)}
    {fs : List Fragment} (h : (rest ++ bytes fs).length < 48) :
    run poll (halted l rest sent) fs = halted l (rest ++ bytes fs) sent := by
  induction fs generalizing rest with
  | nil => rw [run_nil, bytes_nil, List.append_nil]
  | cons f fs ih =>
    rw [bytes_cons, ← List.append_assoc] at h ⊢
    have hlt : (rest ++ f.data).length < 48 := by
      rw [List.length_append] at h
      omega
    rw [run_cons, poll_halted_lt hlt, ih h]

/-- The bytes that come later, in front of the peer that reads them. Kind: D -/
def arrived (d : List UInt8) (s : Session) : Session :=
  { s with base := { s.base with sock := s.base.sock.map (StreamSocket.arrive d) } }

/-- No piece, no change. Source: none: infrastructure. Kind: L -/
theorem arrived_nil (s : Session) : arrived [] s = s := by
  have hsock : s.base.sock.map (StreamSocket.arrive []) = s.base.sock := by
    cases s.base.sock with
    | none => rfl
    | some k =>
      unfold StreamSocket.arrive
      rw [Option.map_some, List.append_nil]
  unfold arrived
  rw [hsock]

/-- After its end an authentication is left alone. Source: `AuthenticationMonitor::update`,
`AuthenticationMonitor::handleData`. Kind: L -/
theorem run_finished {s : Session} (h : s.base.finished = true) (fs : List Fragment) :
    run poll s fs = arrived (bytes fs) s := by
  induction fs generalizing s with
  | nil => rw [run_nil, bytes_nil, arrived_nil]
  | cons f fs ih =>
    have hpoll : s.poll f = arrived f.data s := by
      unfold poll arrived
      cases hk : s.base.sock with
      | none => rfl
      | some k => simp only [Option.map_some, h, true_or, if_true]
    rw [run_cons, hpoll, ih (by exact h)]
    unfold arrived
    cases s.base.sock with
    | none => rfl
    | some k =>
      simp only [Option.map_some, StreamSocket.arrive, List.append_assoc]
      rfl

/-- An authentication that has the whole handshake. Kind: D -/
structure Ended (v : Verdict) (hs rest : List UInt8) (s : Session) : Prop where
  finished : s.base.finished = true
  full : s.fullCalls = [hs]
  sock : ∀ k, s.base.sock = some k → k = ⟨none, none, rest⟩
  succes : s.base.succes = true ↔ v = .accept

/-- A session that has handed on the whole handshake once has ended with its verdict.
Source: `torrent/authenticatebase.cpp`, `torrent/serverauthenticate.cpp`. Kind: L -/
theorem ended_full {c : Subclass} {n : ℕ} {hs rest : List UInt8}
    {calls : List (Bool × List UInt8)} {sent : List (List UInt8 × List UInt8)}
    (hcalls : calls.filter Prod.fst = [(true, hs)]) :
    Ended (c.handshakeRecieved true hs).verdict hs rest
      { base := (fullBase n hs rest).decided
          (fun full hs => (c.handshakeRecieved full hs).verdict) true
        calls := calls
        sent := sent } := by
  have hfull : Session.fullCalls ⟨(fullBase n hs rest).decided
      (fun full hs => (c.handshakeRecieved full hs).verdict) true, calls, sent⟩ = [hs] := by
    unfold fullCalls
    rw [hcalls]
    rfl
  have hends := c.full_ends hs
  unfold AuthenticateBase.decided fullBase at *
  dsimp only at *
  cases hv : (c.handshakeRecieved true hs).verdict with
  | wait => exact absurd hv hends
  | fail =>
    rw [hv] at hfull
    refine ⟨rfl, hfull, ?_, ?_⟩
    · intro k hk
      cases hk
    · constructor <;>
      · intro h
        cases h
  | accept =>
    rw [hv] at hfull
    refine ⟨rfl, hfull, ?_, ?_⟩
    · intro k hk
      cases hk
      rfl
    · exact ⟨fun _ => rfl, fun _ => rfl⟩

/-- Later fragments change nothing but what is waiting behind the handshake.
Source: `AuthenticationMonitor::update`, `AuthenticationMonitor::handleData`. Kind: L -/
theorem Ended.run {v : Verdict} {hs rest : List UInt8} {s : Session} (h : Ended v hs rest s)
    (fs : List Fragment) :
    Ended v hs (rest ++ bytes fs) (run poll s fs) ∧ (run poll s fs).sent = s.sent := by
  rw [run_finished h.finished]
  refine ⟨⟨h.finished, h.full, ?_, h.succes⟩, rfl⟩
  intro k hk
  obtain ⟨k', hk', rfl⟩ := Option.map_eq_some_iff.mp hk
  rw [h.sock k' hk']
  rfl

/-! ### Which splits are good -/

/-- The first poll that finds 48 bytes finds all 68. Kind: D -/
def Good (fs : List Fragment) : Prop :=
  ∃ fs₁ f fs₂, fs = fs₁ ++ f :: fs₂ ∧ (bytes fs₁).length < 48 ∧ 68 ≤ (bytes (fs₁ ++ [f])).length

/-- The first poll that finds 48 bytes finds a part of the handshake and the subclass waits; when
the handshake is complete, 48 bytes are waiting behind that part. `P` is about the fragment that
completes it. Kind: D -/
def Late (P : Fragment → Prop) (fs : List Fragment) : Prop :=
  ∃ fs₁ f fs₂ g fs₃, fs = fs₁ ++ f :: (fs₂ ++ g :: fs₃) ∧ (bytes fs₁).length < 48 ∧
    48 ≤ (bytes (fs₁ ++ [f])).length ∧ (bytes (fs₁ ++ [f])).length < 68 ∧
    (f.sub.handshakeRecieved false (part (bytes (fs₁ ++ [f])))).verdict = .wait ∧
    (bytes (fs₁ ++ f :: fs₂)).length < 68 ∧
    68 ≤ (bytes (fs₁ ++ f :: (fs₂ ++ [g]))).length ∧
    (bytes (fs₁ ++ [f])).length + 48 ≤ (bytes (fs₁ ++ f :: (fs₂ ++ [g]))).length ∧ P g

/-- In every state of the run: `handshakeRecieved(true)` has been called once, with the handshake,
if all its bytes have arrived, and not at all before; then what is waiting at the socket, if it is
still there, is what follows the handshake. Kind: D -/
def Timely (hs : List UInt8) (fs : List Fragment) : Prop :=
  ∀ gs, gs <+: fs →
    (after gs).fullCalls = (if (bytes gs).length < 68 then [] else [hs]) ∧
    (68 ≤ (bytes gs).length → ∀ k, (after gs).base.sock = some k →
      k = ⟨none, none, (bytes gs).drop 68⟩)

/-- One run of pieces after another. Source: none: infrastructure. Kind: L -/
theorem after_append (fs gs : List Fragment) : after (fs ++ gs) = run poll (after fs) gs :=
  run_append poll init fs gs

/-- Fewer than 48 bytes: still waiting. Source: `torrent/authenticatebase.cpp`,
`torrent/serverauthenticate.cpp`. Kind: L -/
theorem after_small {fs : List Fragment} (h : (bytes fs).length < 48) :
    after fs = waiting (bytes fs) :=
  run_waiting (l := []) h

variable {hs rest : List UInt8} {fs : List Fragment}

/-- The fragment with which the bytes reach a number. Source: `torrent/authenticatebase.cpp`,
`torrent/serverauthenticate.cpp`. Kind: L -/
theorem exists_reach {t : ℕ} (ht : 0 < t) (h : t ≤ (bytes fs).length) :
    ∃ fs₁ f fs₂, fs = fs₁ ++ f :: fs₂ ∧ (bytes fs₁).length < t ∧
      t ≤ (bytes (fs₁ ++ [f])).length := by
  induction fs using List.reverseRecOn with
  | nil =>
    rw [bytes_nil, List.length_nil] at h
    omega
  | append_singleton fs f ih =>
    by_cases hlt : (bytes fs).length < t
    · exact ⟨fs, f, [], rfl, hlt, h⟩
    · obtain ⟨fs₁, g, fs₂, rfl, h1, h2⟩ := ih (by omega)
      exact ⟨fs₁, g, fs₂ ++ [f], by simp, h1, h2⟩

/-- What has arrived is a beginning of the handshake and what follows it.
Source: `torrent/authenticatebase.cpp`, `torrent/serverauthenticate.cpp`. Kind: L -/
theorem bytes_of_prefix {gs : List Fragment} (hd : bytes fs = hs ++ rest) (h : gs <+: fs) :
    ∃ tail, hs ++ rest = bytes gs ++ tail := by
  obtain ⟨gs', rfl⟩ := h
  exact ⟨bytes gs', by rw [← hd, bytes_append]⟩

/-- The pieces so far are the front of the handshake. Source: `torrent/authenticatebase.cpp`,
`torrent/serverauthenticate.cpp`. Kind: L -/
theorem take_of_prefix {gs : List Fragment} (hd : bytes fs = hs ++ rest) (h : gs <+: fs)
    (hlen : (bytes gs).length ≤ hs.length) : bytes gs = hs.take (bytes gs).length := by
  obtain ⟨tail, ht⟩ := bytes_of_prefix hd h
  have htake := congrArg (List.take (bytes gs).length) ht
  rwa [List.take_append_of_le_length hlen, List.take_left, eq_comm] at htake

/-- Or the handshake and what follows it. Source: `torrent/authenticatebase.cpp`,
`torrent/serverauthenticate.cpp`. Kind: L -/
theorem split_of_prefix {gs : List Fragment} (hd : bytes fs = hs ++ rest) (h : gs <+: fs)
    (hlen : hs.length ≤ (bytes gs).length) : bytes gs = hs ++ (bytes gs).drop hs.length := by
  obtain ⟨tail, ht⟩ := bytes_of_prefix hd h
  have htake := congrArg (List.take hs.length) ht
  rw [List.take_left, List.take_append_of_le_length hlen] at htake
  conv_lhs => rw [← List.take_append_drop hs.length (bytes gs), ← htake]

/-- The piece that brings 48 bytes or more, but not the whole handshake, for which one waits.
Source: `torrent/authenticatebase.cpp`, `torrent/serverauthenticate.cpp`. Kind: L -/
theorem after_part {fs₁ : List Fragment} {f : Fragment} (h48 : (bytes fs₁).length < 48)
    (hl : 48 ≤ (bytes (fs₁ ++ [f])).length) (hr : (bytes (fs₁ ++ [f])).length < 68)
    (hw : (f.sub.handshakeRecieved false (part (bytes (fs₁ ++ [f])))).verdict = .wait) :
    after (fs₁ ++ [f]) = halted (bytes (fs₁ ++ [f])) []
      (f.sub.handshakeRecieved false (part (bytes (fs₁ ++ [f])))).sends.toList := by
  have hb : bytes (fs₁ ++ [f]) = bytes fs₁ ++ f.data := by simp [bytes]
  rw [hb] at hl hr hw ⊢
  rw [after_append, after_small h48, run_cons, run_nil, poll_waiting_part hl hr]
  unfold AuthenticateBase.decided partBase halted
  dsimp only
  rw [hw]

/-- The subclass refuses a part of the handshake: then it is never called with all of it.
Source: `torrent/authenticatebase.cpp`, `torrent/serverauthenticate.cpp`. Kind: L -/
theorem after_refused {fs₁ fs₂ : List Fragment} {f : Fragment} (h48 : (bytes fs₁).length < 48)
    (hl : 48 ≤ (bytes (fs₁ ++ [f])).length) (hr : (bytes (fs₁ ++ [f])).length < 68)
    (hw : (f.sub.handshakeRecieved false (part (bytes (fs₁ ++ [f])))).verdict ≠ .wait) :
    (after (fs₁ ++ f :: fs₂)).fullCalls = [] := by
  have hb : bytes (fs₁ ++ [f]) = bytes fs₁ ++ f.data := by simp [bytes]
  have hends := f.sub.part_waits (part (bytes (fs₁ ++ [f])))
  have hcons : fs₁ ++ f :: fs₂ = fs₁ ++ [f] ++ fs₂ := by simp
  rw [hb] at hl hr hw hends
  rw [hcons, after_append, after_append, after_small h48, run_cons, run_nil, poll_waiting_part hl hr]
  unfold AuthenticateBase.decided partBase
  dsimp only
  cases hv : (f.sub.handshakeRecieved false (part (bytes fs₁ ++ f.data))).verdict with
  | wait => exact absurd hv hw
  | accept => exact absurd hv hends
  | fail =>
    rw [run_finished (by rfl)]
    rfl

/-- While fewer than 48 bytes are waiting behind the part, nothing is read.
Source: `torrent/authenticatebase.cpp`, `torrent/serverauthenticate.cpp`. Kind: L -/
theorem after_halted {fs₁ fs₂ : List Fragment} {f : Fragment} (h48 : (bytes fs₁).length < 48)
    (hl : 48 ≤ (bytes (fs₁ ++ [f])).length) (hr : (bytes (fs₁ ++ [f])).length < 68)
    (hw : (f.sub.handshakeRecieved false (part (bytes (fs₁ ++ [f])))).verdict = .wait)
    (h : (bytes (fs₁ ++ f :: fs₂)).length < (bytes (fs₁ ++ [f])).length + 48) :
    after (fs₁ ++ f :: fs₂) = halted (bytes (fs₁ ++ [f])) (bytes fs₂)
      (f.sub.handshakeRecieved false (part (bytes (fs₁ ++ [f])))).sends.toList := by
  have hcons : fs₁ ++ f :: fs₂ = fs₁ ++ [f] ++ fs₂ := by simp
  rw [hcons, bytes_append, List.length_append] at h
  rw [hcons, after_append, after_part h48 hl hr hw, run_halted (by rw [List.nil_append]; omega),
    List.nil_append]

/-- A prefix has no more bytes. Source: `torrent/authenticatebase.cpp`,
`torrent/serverauthenticate.cpp`. Kind: L -/
theorem length_bytes_le {gs fs : List Fragment} (h : gs <+: fs) :
    (bytes gs).length ≤ (bytes fs).length := by
  obtain ⟨gs', rfl⟩ := h
  rw [bytes_append, List.length_append]
  exact Nat.le_add_right _ _

/-- A beginning that reaches the number has the fragment with which it is reached.
Source: `torrent/authenticatebase.cpp`, `torrent/serverauthenticate.cpp`. Kind: L -/
theorem reach_prefix {t : ℕ} {gs fs₁ : List Fragment} {f : Fragment} (hlt : (bytes fs₁).length < t)
    (ht : t ≤ (bytes gs).length) (hg : gs <+: fs) (hf : fs₁ ++ [f] <+: fs) :
    ∃ gs', gs = fs₁ ++ [f] ++ gs' := by
  obtain h | ⟨gs', h⟩ := List.prefix_or_prefix_of_prefix hg hf
  · obtain rfl | h := List.prefix_concat_iff.mp h
    · exact ⟨[], (List.append_nil _).symm⟩
    · have := length_bytes_le h
      omega
  · exact ⟨gs', h.symm⟩

/-- The two halves of `Timely` in an authentication that has ended.
Source: `torrent/authenticatebase.cpp`, `torrent/serverauthenticate.cpp`. Kind: L -/
theorem Ended.timely {v : Verdict} {gs : List Fragment} (h : Ended v hs ((bytes gs).drop 68) (after gs))
    (hge : 68 ≤ (bytes gs).length) :
    (after gs).fullCalls = (if (bytes gs).length < 68 then [] else [hs]) ∧
    (68 ≤ (bytes gs).length → ∀ k, (after gs).base.sock = some k →
      k = ⟨none, none, (bytes gs).drop 68⟩) := by
  rw [if_neg (by omega)]
  exact ⟨h.full, fun _ => h.sock⟩

/-- An authentication that ended stays so, with what follows. Source: none: infrastructure.
Kind: L -/
theorem Ended.append {v : Verdict} {gs : List Fragment} (h : Ended v hs ((bytes gs).drop 68) (after gs))
    (hge : 68 ≤ (bytes gs).length) (gs' : List Fragment) :
    Ended v hs ((bytes (gs ++ gs')).drop 68) (after (gs ++ gs')) ∧
      (after (gs ++ gs')).sent = (after gs).sent := by
  rw [after_append, bytes_append, List.drop_append_of_le_length hge]
  exact h.run gs'

/-- Before the whole handshake is there, nothing has been handed on in full.
Source: `torrent/authenticatebase.cpp`, `torrent/serverauthenticate.cpp`. Kind: L -/
theorem timely_of_lt {gs : List Fragment} (hcalls : (after gs).fullCalls = [])
    (hlt : (bytes gs).length < 68) :
    (after gs).fullCalls = (if (bytes gs).length < 68 then [] else [hs]) ∧
    (68 ≤ (bytes gs).length → ∀ k, (after gs).base.sock = some k →
      k = ⟨none, none, (bytes gs).drop 68⟩) := by
  rw [if_pos hlt]
  exact ⟨hcalls, fun h => by omega⟩

/-- The peer's handshake, whatever follows it. Kind: D -/
structure Handshake (hs rest : List UInt8) (fs : List Fragment) : Prop where
  bytes : bytes fs = hs ++ rest
  length : hs.length = 68
  pstr : hs.take 20 = AuthenticateBase.pstr

section

variable (hh : Handshake hs rest fs)
include hh

/-- The piece that brings the whole handshake at once. Source: `torrent/authenticatebase.cpp`,
`torrent/serverauthenticate.cpp`. Kind: L -/
theorem after_good {fs₁ : List Fragment} {f : Fragment} (hp : fs₁ ++ [f] <+: fs)
    (h48 : (bytes fs₁).length < 48) (h68 : 68 ≤ (bytes (fs₁ ++ [f])).length) :
    Ended (f.sub.handshakeRecieved true hs).verdict hs ((bytes (fs₁ ++ [f])).drop 68)
        (after (fs₁ ++ [f])) ∧
      (after (fs₁ ++ [f])).sent = (f.sub.handshakeRecieved true hs).sends.toList := by
  have hsplit := split_of_prefix hh.bytes hp (hh.length ▸ h68)
  rw [hh.length] at hsplit
  have hpoll : (waiting (bytes fs₁)).poll f = _ := poll_waiting_full hh.length hh.pstr (f := f)
    (l := bytes fs₁) (by rw [← hsplit, bytes_append]; simp [bytes])
  rw [after_append, after_small h48, run_cons, run_nil, hpoll]
  exact ⟨ended_full rfl, rfl⟩

/-- The piece that brings the rest of a handshake of which a part has been read.
Source: `torrent/authenticatebase.cpp`, `torrent/serverauthenticate.cpp`. Kind: L -/
theorem after_late {fs₁ fs₂ : List Fragment} {f g : Fragment}
    (hp : fs₁ ++ f :: (fs₂ ++ [g]) <+: fs) (h48 : (bytes fs₁).length < 48)
    (hl : 48 ≤ (bytes (fs₁ ++ [f])).length) (hr : (bytes (fs₁ ++ [f])).length < 68)
    (hw : (f.sub.handshakeRecieved false (part (bytes (fs₁ ++ [f])))).verdict = .wait)
    (hlt : (bytes (fs₁ ++ f :: fs₂)).length < 68)
    (hge : 68 ≤ (bytes (fs₁ ++ f :: (fs₂ ++ [g]))).length)
    (h : (bytes (fs₁ ++ [f])).length + 48 ≤ (bytes (fs₁ ++ f :: (fs₂ ++ [g]))).length) :
    Ended (g.sub.handshakeRecieved true hs).verdict hs
        ((bytes (fs₁ ++ f :: (fs₂ ++ [g]))).drop 68) (after (fs₁ ++ f :: (fs₂ ++ [g]))) ∧
      (after (fs₁ ++ f :: (fs₂ ++ [g]))).sent =
        (f.sub.handshakeRecieved false (part (bytes (fs₁ ++ [f])))).sends.toList ++
          (g.sub.handshakeRecieved true hs).sends.toList := by
  have hcons : fs₁ ++ f :: (fs₂ ++ [g]) = fs₁ ++ f :: fs₂ ++ [g] := by simp
  have hfirst : fs₁ ++ [f] <+: fs := (List.prefix_append _ (fs₂ ++ [g])).trans (by simpa using hp)
  have htake := take_of_prefix hh.bytes hfirst (by rw [hh.length]; omega)
  have hsplit := split_of_prefix hh.bytes hp (hh.length ▸ hge)
  rw [hh.length] at hsplit
  set n := (bytes (fs₁ ++ [f])).length with hn
  have hall : bytes (fs₁ ++ f :: (fs₂ ++ [g])) = bytes (fs₁ ++ [f]) ++ (bytes fs₂ ++ g.data) := by
    simp [bytes]
  have hback : bytes fs₂ ++ g.data =
      hs.drop n ++ (bytes (fs₁ ++ f :: (fs₂ ++ [g]))).drop 68 := by
    have hdrop := congrArg (List.drop n) hsplit
    rw [List.drop_append_of_le_length (by rw [hh.length]; omega)] at hdrop
    rw [← hdrop, hall, hn, List.drop_left]
  have hlen : 48 ≤ (bytes fs₂ ++ g.data).length := by
    have := congrArg List.length hall
    rw [List.length_append] at this
    omega
  rw [hcons, after_append, after_halted h48 hl hr hw (by omega), run_cons, run_nil, ← hcons]
  rw [htake]
  rw [poll_halted_full ⟨by omega, by omega⟩ hh.length hh.pstr hback hlen]
  exact ⟨ended_full rfl, rfl⟩

/-- Such a split is timely. Source: `torrent/authenticatebase.cpp`,
`torrent/serverauthenticate.cpp`. Kind: L -/
theorem timely_of_good (h : Good fs) : Timely hs fs := by
  obtain ⟨fs₁, f, fs₂, rfl, h48, h68⟩ := h
  have hp : fs₁ ++ [f] <+: fs₁ ++ f :: fs₂ := ⟨fs₂, by simp⟩
  intro gs hg
  by_cases hlt : (bytes gs).length < 48
  · refine timely_of_lt ?_ (by omega)
    rw [after_small hlt]
    rfl
  · obtain ⟨gs', rfl⟩ := reach_prefix h48 (not_lt.mp hlt) hg hp
    have hend := (after_good hh hp h48 h68).1
    refine (hend.append h68 gs').1.timely ?_
    rw [bytes_append, List.length_append]
    omega

/-- A split that brings a part first and then the rest is timely.
Source: `torrent/authenticatebase.cpp`, `torrent/serverauthenticate.cpp`. Kind: L -/
theorem timely_of_late {P : Fragment → Prop} (h : Late P fs) : Timely hs fs := by
  obtain ⟨fs₁, f, fs₂, g, fs₃, rfl, h48, hl, hr, hw, hlt, hge, hn, -⟩ := h
  have hp : fs₁ ++ [f] <+: fs₁ ++ f :: (fs₂ ++ g :: fs₃) := ⟨fs₂ ++ g :: fs₃, by simp⟩
  have hpg : fs₁ ++ f :: fs₂ ++ [g] <+: fs₁ ++ f :: (fs₂ ++ g :: fs₃) := ⟨fs₃, by simp⟩
  have hcons : fs₁ ++ f :: fs₂ ++ [g] = fs₁ ++ f :: (fs₂ ++ [g]) := by simp
  intro gs hg
  by_cases h1 : (bytes gs).length < 48
  · refine timely_of_lt ?_ (by omega)
    rw [after_small h1]
    rfl
  by_cases h2 : (bytes gs).length < 68
  · obtain ⟨gs', rfl⟩ := reach_prefix h48 (not_lt.mp h1) hg hp
    refine timely_of_lt ?_ h2
    rw [List.append_assoc] at h2 ⊢
    rw [List.singleton_append, after_halted h48 hl hr hw (by rw [List.singleton_append] at h2; omega)]
    rfl
  · obtain ⟨gs', rfl⟩ := reach_prefix hlt (not_lt.mp h2) hg hpg
    rw [hcons]
    have hend := (after_late hh (hcons ▸ hpg) h48 hl hr hw hlt hge hn).1
    refine (hend.append hge gs').1.timely ?_
    rw [bytes_append, List.length_append]
    omega

/-- There are no other timely splits. Source: `torrent/authenticatebase.cpp`,
`torrent/serverauthenticate.cpp`. Kind: L -/
theorem good_or_late (h : Timely hs fs) : Good fs ∨ Late (fun _ => True) fs := by
  have htotal : 68 ≤ (bytes fs).length := by
    rw [hh.bytes, List.length_append, hh.length]
    omega
  obtain ⟨fs₁, f, fs₂, hfs, h48, hl⟩ := exists_reach (t := 48) (by decide) (by omega : 48 ≤ (bytes fs).length)
  by_cases hr : 68 ≤ (bytes (fs₁ ++ [f])).length
  · exact .inl ⟨fs₁, f, fs₂, hfs, h48, hr⟩
  have hr' := not_le.mp hr
  have hall := (h fs (List.prefix_refl _)).1
  rw [if_neg (by omega)] at hall
  by_cases hw : (f.sub.handshakeRecieved false (part (bytes (fs₁ ++ [f])))).verdict = .wait
  · -- the fragment that completes the handshake is behind the one that was read in part
    obtain ⟨gs₁, g, gs₃, hgs, hlt, hge⟩ := exists_reach (t := 68) (by decide) htotal
    have hpf : fs₁ ++ [f] <+: fs := ⟨fs₂, by rw [hfs]; simp⟩
    have hpg : gs₁ ++ [g] <+: fs := ⟨gs₃, by rw [hgs]; simp⟩
    obtain ⟨gs', hgs'⟩ := reach_prefix h48 (by omega : 48 ≤ (bytes (gs₁ ++ [g])).length) hpg hpf
    obtain rfl | ⟨mid, g', rfl⟩ := List.eq_nil_or_concat' gs'
    · rw [List.append_nil] at hgs'
      rw [hgs'] at hge
      omega
    rw [← List.append_assoc] at hgs'
    obtain ⟨rfl, hg'⟩ := List.append_inj' hgs' rfl
    obtain rfl : g = g' := List.singleton_inj.mp hg'
    have hmid : fs₁ ++ [f] ++ mid = fs₁ ++ f :: mid := by simp
    have hcons : fs₁ ++ f :: mid ++ [g] = fs₁ ++ f :: (mid ++ [g]) := by simp
    rw [hmid] at hlt hge hgs hpg
    rw [hcons] at hge hpg
    by_cases hn : (bytes (fs₁ ++ [f])).length + 48 ≤ (bytes (fs₁ ++ f :: (mid ++ [g]))).length
    · exact .inr ⟨fs₁, f, mid, g, gs₃, by rw [hgs]; simp, h48, hl, hr', hw, hlt, hge, hn, trivial⟩
    · have hcalls := (h _ hpg).1
      rw [after_halted h48 hl hr' hw (by omega), if_neg (by omega)] at hcalls
      cases hcalls
  · rw [hfs, after_refused h48 hl hr' hw] at hall
    cases hall

end

/-! ### The side that was contacted -/

/-- Every fragment finds the side that was contacted, blocking and knowing what it may. Kind: D -/
def Contacted (fs : List Fragment) : Prop :=
  ∀ f ∈ fs, ∃ blocked findPeerManager, f.sub = ServerAuthenticate.subclass blocked findPeerManager

/-- A call that does not refuse sends the own handshake. Source: `torrent/authenticatebase.cpp`,
`torrent/serverauthenticate.cpp`. Kind: L -/
theorem length_sends {f : Fragment} (hc : Contacted fs) (hf : f ∈ fs) {full : Bool}
    {hs : List UInt8} (h : (f.sub.handshakeRecieved full hs).verdict ≠ .fail) :
    (f.sub.handshakeRecieved full hs).sends.toList.length = 1 := by
  obtain ⟨blocked, find, hsub⟩ := hc f hf
  rw [hsub] at h ⊢
  unfold ServerAuthenticate.subclass ServerAuthenticate.handshakeRecieved at *
  dsimp only at *
  cases hfind : find ((hs.drop 28).take 20) with
  | none =>
    rw [hfind] at h
    split_ifs at h <;> exact absurd rfl h
  | some pman =>
    rw [hfind] at h
    dsimp only at h ⊢
    rw [if_neg h]
    rfl

/-- **When a plain handshake is received properly.** `handshakeRecieved(true)` is called once and in
time if and only if the first poll that finds 48 bytes finds all 68, or the subclass waits for the
rest and the handshake is completed together with so much else that 48 bytes are waiting. On the
side that was contacted, the own handshake is sent once in a successful run as well if and only if
in the second case the handshake is refused. Source: `torrent/authenticatebase.cpp`,
`torrent/serverauthenticate.cpp`. Kind: P -/
theorem fragments_iff (hs rest : List UInt8) (fs : List Fragment) (hh : Handshake hs rest fs) :
    (Timely hs fs ↔ Good fs ∨ Late (fun _ => True) fs) ∧
    (Contacted fs →
      ((Timely hs fs ∧ ((after fs).base.succes = true → (after fs).sent.length = 1)) ↔
        Good fs ∨ Late (fun g => (g.sub.handshakeRecieved true hs).verdict ≠ .accept) fs)) := by
  refine ⟨⟨good_or_late hh, fun h => h.elim (timely_of_good hh) (timely_of_late hh)⟩, ?_⟩
  intro hc
  constructor
  · rintro ⟨ht, hsent⟩
    obtain hgood | ⟨fs₁, f, fs₂, g, fs₃, hfs, h48, hl, hr, hw, hlt, hge, hn, -⟩ := good_or_late hh ht
    · exact .inl hgood
    refine .inr ⟨fs₁, f, fs₂, g, fs₃, hfs, h48, hl, hr, hw, hlt, hge, hn, ?_⟩
    -- otherwise the run is successful, and the handshake was sent with both calls
    intro hacc
    have hsplit : fs = fs₁ ++ f :: (fs₂ ++ [g]) ++ fs₃ := by rw [hfs]; simp
    have hp : fs₁ ++ f :: (fs₂ ++ [g]) <+: fs := ⟨fs₃, hsplit.symm⟩
    obtain ⟨hend, hs2⟩ := after_late hh hp h48 hl hr hw hlt hge hn
    obtain ⟨hend', hs3⟩ := hend.append hge fs₃
    rw [← hsplit] at hend' hs3
    have hlen := hsent (hend'.succes.mpr hacc)
    have hf1 : (f.sub.handshakeRecieved false (part (bytes (fs₁ ++ [f])))).sends.toList.length = 1 :=
      length_sends hc (by rw [hfs]; simp) (by rw [hw]; simp)
    have hg1 : (g.sub.handshakeRecieved true hs).sends.toList.length = 1 :=
      length_sends hc (by rw [hfs]; simp) (by rw [hacc]; simp)
    rw [hs3, hs2, List.length_append, hf1, hg1] at hlen
    omega
  · rintro (hgood | hlate)
    · refine ⟨timely_of_good hh hgood, ?_⟩
      obtain ⟨fs₁, f, fs₂, rfl, h48, h68⟩ := hgood
      have hsplit : fs₁ ++ f :: fs₂ = fs₁ ++ [f] ++ fs₂ := by simp
      obtain ⟨hend, hs1⟩ := after_good hh ⟨fs₂, hsplit.symm⟩ h48 h68
      obtain ⟨hend', hs2⟩ := hend.append h68 fs₂
      rw [hsplit]
      intro hsucc
      rw [hs2, hs1]
      exact length_sends hc (by simp) (by rw [hend'.succes.mp hsucc]; simp)
    · refine ⟨timely_of_late hh hlate, ?_⟩
      obtain ⟨fs₁, f, fs₂, g, fs₃, rfl, h48, hl, hr, hw, hlt, hge, hn, href⟩ := hlate
      have hsplit : fs₁ ++ f :: (fs₂ ++ g :: fs₃) = fs₁ ++ f :: (fs₂ ++ [g]) ++ fs₃ := by simp
      obtain ⟨hend, -⟩ := after_late hh ⟨fs₃, hsplit.symm⟩ h48 hl hr hw hlt hge hn
      obtain ⟨hend', -⟩ := hend.append hge fs₃
      rw [hsplit]
      intro hsucc
      exact absurd (hend'.succes.mp hsucc) href

/-- A handshake with the info hash 0 and the peer id 0. Kind: D -/
def zeroHandshake : List UInt8 := AuthenticateBase.pstr ++ List.replicate 48 0

/-- A side that was contacted and has the torrent. Kind: D -/
def known : Subclass :=
  ServerAuthenticate.subclass false fun _ => some ⟨List.replicate 20 1, fun _ => false⟩

/-- Forty bytes, then the rest and three more: a good split. Source: `torrent/authenticatebase.cpp`,
`torrent/serverauthenticate.cpp`. Kind: L -/
theorem fragments_forty :
    Timely zeroHandshake
      [⟨zeroHandshake.take 40, known⟩, ⟨zeroHandshake.drop 40 ++ [0, 0, 0], known⟩] := by
  apply (fragments_iff zeroHandshake [0, 0, 0] _ ⟨rfl, rfl, rfl⟩).1.mpr
  exact .inl ⟨[⟨zeroHandshake.take 40, known⟩], ⟨zeroHandshake.drop 40 ++ [0, 0, 0], known⟩, [], rfl,
    by decide, by decide⟩

/-- **After 48 bytes and then 20 `handshakeRecieved(true)` is not called.**.
Source: `torrent/authenticatebase.cpp`, `torrent/serverauthenticate.cpp`. Kind: P -/
theorem stalled : ¬ Timely zeroHandshake
    [⟨zeroHandshake.take 48, known⟩, ⟨zeroHandshake.drop 48, known⟩] := by
  intro h
  have hcalls := (h _ (List.prefix_refl _)).1
  revert hcalls
  decide +kernel

end Session

end KTorrent.Mse
