import KTorrent.Lib.GuardedRun
import Mathlib.Algebra.BigOperators.Fin
import Mathlib.Data.Fintype.BigOperators

/-!
# The count of all connections

Every peer manager keeps its peers and the number of its pending attempts to connect; all of them
together keep `total_connections`. The managers are numbered, and an operation is one of a manager
or of the program.

* `Manager`, `Authenticate` — what a manager keeps of its connections; `auths` are the attempts that
  will still report to it, which the source keeps in the attempts themselves.
* `connectToPeers`, `peerAuthenticated`, `newConnection`, `update`, `stop`, `start`,
  `closeAllConnections` — the operations. An attempt that fails in its own constructor reports its
  failure before it is counted.
* `counted_iff` — after every operation of a run `total_connections` is the number of peers and
  pending attempts, exactly if no manager is stopped with pending attempts, no attempt fails at once
  when nothing is counted, and no attempt reports to a stopped manager; and no call of
  `connectToPeers` goes beyond the limit.
* `total_le` — an operation raises `total_connections` by 152 at most, so that the source's `Uint32`
  holds it in all runs of up to `2^24` operations; it is a number without bounds here.
* `stop_leaks` — a manager that is stopped while an attempt is pending.

Source: `torrent/peermanager.cpp`, `torrent/authenticate.cpp`
-/

namespace KTorrent.Transfer.Connections

open KTorrent.Lib

/-- Source: `torrent/peermanager.h`, `PotentialPeer`. Kind: D -/
structure PotentialPeer where
  ip : String
  port : ℕ
deriving DecidableEq

/-- Source: `torrent/peer.h`, `Peer`. Kind: D -/
structure Peer where
  peer_id : List UInt8
  ip : String
  port : ℕ
  killed : Bool := false
deriving DecidableEq

/-- An attempt to connect. Source: `torrent/authenticate.h`, `Authenticate`. Kind: D -/
structure Authenticate where
  /-- It is an `EncryptedAuthenticate`. -/
  encrypted : Bool
  host : String
  port : ℕ
deriving DecidableEq

/-- Source: `torrent/peermanager.h`, `PeerManager`. Kind: D -/
structure Manager where
  started : Bool := false
  peer_list : List Peer := []
  num_pending : UInt32 := 0
  /-- In the order of the map. -/
  potential_peers : List PotentialPeer := []
  /-- The attempts that have this manager and are not finished. -/
  auths : List Authenticate := []
deriving DecidableEq

/-- Source: `torrent/peermanager.h`, `MAX_SIMULTANIOUS_AUTHS`. Kind: D -/
def MAX_SIMULTANIOUS_AUTHS : UInt32 := 20

/-- The limits, 0 for none. Source: `torrent/peermanager.cpp`, `max_connections` and
`max_total_connections`. Kind: D -/
structure Limits where
  max_connections : ℕ := 0
  max_total_connections : ℕ := 0
deriving DecidableEq

/-- What the rest of the program answers during an operation. Kind: D -/
structure World where
  /-- `mse::StreamSocket::canInitiateNewConnection`. -/
  canInitiateNewConnection : Bool
  isEncryptionEnabled : Bool
  unencryptedConnectionsAllowed : Bool
  /-- `IPBlocklist::isBlocked`. -/
  isBlocked : String → Bool
  /-- Whether connecting to an address fails at once. -/
  fails : String → ℕ → Bool
  /-- Whether the statistics of a peer make it a bad one. -/
  bad : Peer → Bool
  /-- Whether a peer kills another, or itself, while it is updated. -/
  kills : Peer → Peer → Bool

/-- `if (total_connections > 0) total_connections--;`. Kind: D -/
def release (total : ℕ) : ℕ := if total > 0 then total - 1 else total

/-- Source: `PeerManager::connectedTo(const TQString &,Uint16)`. Kind: D -/
def Manager.connectedTo (ip : String) (port : ℕ) (m : Manager) : Bool :=
  m.peer_list.any fun p => p.port = port && p.ip = ip

/-- Source: `PeerManager::connectedTo(const PeerID &)`. Kind: D -/
def Manager.connectedToId (peer_id : List UInt8) (m : Manager) : Bool :=
  m.started && m.peer_list.any fun p => p.peer_id = peer_id

/-- Source: `PeerManager::addPotentialPeer`. Kind: D -/
def Manager.addPotentialPeer (pp : PotentialPeer) (m : Manager) : Manager :=
  if m.potential_peers.length > 150 then m
  else if pp ∈ m.potential_peers then m
  else { m with
    potential_peers := m.potential_peers.filter (·.ip ≤ pp.ip) ++ pp ::
      m.potential_peers.filter (pp.ip < ·.ip) }

/-- A new attempt: one that fails in its constructor reports its failure there, as an unencrypted
one, and the attempt is counted after that in any case.
Source: `Authenticate::Authenticate`, and `PeerManager::peerAuthenticated` called from it. Kind: D -/
def attempt (fails : Bool) (auth : Authenticate) (s : ℕ × Manager) : ℕ × Manager :=
  let s := if fails ∧ s.2.started then
      (release s.1, { s.2 with num_pending := s.2.num_pending - 1 })
    else s
  (s.1 + 1, { s.2 with
    num_pending := s.2.num_pending + 1
    auths := if fails then s.2.auths else s.2.auths ++ [auth] })

/-- Source: `PeerManager::connectToPeers`, the loop. Kind: D -/
def connectLoop (w : World) : ℕ → ℕ × Manager → ℕ × Manager
  | 0, s => s
  | num + 1, s =>
    if s.2.num_pending > MAX_SIMULTANIOUS_AUTHS then s
    else match s.2.potential_peers with
      | [] => s
      | pp :: rest =>
        let s := if w.isBlocked pp.ip = false ∧ s.2.connectedTo pp.ip pp.port = false then
            attempt (w.fails pp.ip pp.port) ⟨w.isEncryptionEnabled, pp.ip, pp.port⟩ s
          else s
        connectLoop w num (s.1, { s.2 with potential_peers := rest })

/-- How many potential peers `connectToPeers` goes through; `none` if it returns before.
Source: `PeerManager::connectToPeers`, up to the loop. Kind: D -/
def toConnect (w : World) (lim : Limits) (s : ℕ × Manager) : Option ℕ :=
  let m := s.2
  if m.potential_peers.length = 0 then none
  else if m.peer_list.length + m.num_pending.toNat ≥ lim.max_connections ∧
      lim.max_connections > 0 then none
  else if s.1 ≥ lim.max_total_connections ∧ lim.max_total_connections > 0 then none
  else if m.num_pending > MAX_SIMULTANIOUS_AUTHS then none
  else if w.canInitiateNewConnection = false then none
  else
    let num :=
      if lim.max_connections > 0 then
        let available := lim.max_connections - (m.peer_list.length + m.num_pending.toNat)
        if available ≥ m.potential_peers.length then m.potential_peers.length else available
      else m.potential_peers.length
    if num + s.1 ≥ lim.max_total_connections ∧ lim.max_total_connections > 0 then
      some (lim.max_total_connections - s.1)
    else some num

/-- Source: `PeerManager::connectToPeers`. Kind: D -/
def connectToPeers (w : World) (lim : Limits) (s : ℕ × Manager) : ℕ × Manager :=
  match toConnect w lim s with
  | none => s
  | some num => connectLoop w num s

/-- Source: `PeerManager::createPeer`. Kind: D -/
def createPeer (p : Peer) (s : ℕ × Manager) : ℕ × Manager :=
  (s.1 + 1, { s.2 with peer_list := s.2.peer_list ++ [p] })

/-- The attempt number `i` reports. Source: `PeerManager::peerAuthenticated`. Kind: D -/
def peerAuthenticated (w : World) (i : ℕ) (ok : Bool) (peer_id : List UInt8) (s : ℕ × Manager) :
    ℕ × Manager :=
  match s.2.auths[i]? with
  | none => s
  | some auth =>
    let m := { s.2 with auths := s.2.auths.eraseIdx i }
    if m.started = false then (s.1, m)
    else
      let s := (release s.1, { m with num_pending := m.num_pending - 1 })
      if ok = false then
        if auth.encrypted ∧ w.unencryptedConnectionsAllowed then
          attempt (w.fails auth.host auth.port) { auth with encrypted := false } s
        else s
      else if s.2.connectedToId peer_id then s
      else createPeer ⟨peer_id, auth.host, auth.port, false⟩ s

/-- Source: `PeerManager::killBadPeer`. Kind: D -/
def killBadPeer (w : World) : List Peer → Option (List Peer)
  | [] => none
  | p :: ps => if w.bad p then some ({ p with killed := true } :: ps) else
      (killBadPeer w ps).map (p :: ·)

/-- Source: `PeerManager::newConnection`. Kind: D -/
def newConnection (w : World) (lim : Limits) (p : Peer) (s : ℕ × Manager) : ℕ × Manager :=
  let total := s.2.peer_list.length + s.2.num_pending.toNat
  let local_not_ok := lim.max_connections > 0 ∧ total ≥ lim.max_connections
  let global_not_ok := lim.max_total_connections > 0 ∧ s.1 ≥ lim.max_total_connections
  if s.2.started = false ∨ local_not_ok ∨ global_not_ok then
    match killBadPeer w s.2.peer_list with
    | none => s
    | some ps => createPeer p (s.1, { s.2 with peer_list := ps })
  else createPeer p s

/-- Source: `PeerManager::update`, the loop; `kept` are the peers gone through that stay, and `dead`
are those killed while another one was updated. Kind: D -/
def updateLoop (w : World) (dead : Peer → Bool) (kept : List Peer) (total : ℕ) :
    List Peer → ℕ × List Peer
  | [] => (total, kept.map fun q => { q with killed := q.killed || dead q })
  | p :: ps =>
    if p.killed || dead p then updateLoop w dead kept (release total) ps
    else updateLoop w (fun q => dead q || w.kills p q) (kept ++ [p]) total ps

/-- Source: `PeerManager::update`. Kind: D -/
def update (w : World) (lim : Limits) (s : ℕ × Manager) : ℕ × Manager :=
  if s.2.started = false then s
  else
    let r := updateLoop w (fun _ => false) [] s.1 s.2.peer_list
    connectToPeers w lim (r.1, { s.2 with peer_list := r.2 })

/-- Source: `PeerManager::closeAllConnections`. Kind: D -/
def closeAllConnections (s : ℕ × Manager) : ℕ × Manager :=
  (if s.2.peer_list.length ≤ s.1 then s.1 - s.2.peer_list.length else 0,
    { s.2 with peer_list := [] })

/-- The signal `stopped` finishes the pending attempts, which report to nobody then.
Source: `PeerManager::stop`, `Authenticate::onPeerManagerDestroyed`. Kind: D -/
def stop (s : ℕ × Manager) : ℕ × Manager :=
  (s.1, { s.2 with started := false, auths := [], num_pending := 0 })

/-- Source: `PeerManager::start`. Kind: D -/
def start (s : ℕ × Manager) : ℕ × Manager := (s.1, { s.2 with started := true })

/-! ### The program -/

/-- All managers, with the count and the limits they share. Kind: D -/
structure Client (n : ℕ) where
  total_connections : ℕ := 0
  limits : Limits := {}
  managers : Fin n → Manager := fun _ => {}

/-- What happens to one manager. Kind: D -/
inductive Act where
  | connectToPeers (w : World)
  | peerAuthenticated (w : World) (i : ℕ) (ok : Bool) (peer_id : List UInt8)
  | newConnection (w : World) (p : Peer)
  | update (w : World)
  | stop
  | start
  | closeAllConnections
  | addPotentialPeer (pp : PotentialPeer)
  /-- A peer is killed. -/
  | kill (i : ℕ)

/-- What happens in the program. Kind: D -/
inductive Op (n : ℕ) where
  | act (k : Fin n) (a : Act)
  | setMaxConnections (max : ℕ)
  | setMaxTotalConnections (max sys_max : ℕ)

/-- What an act does to the count and to its manager. Kind: D -/
def perform (lim : Limits) (s : ℕ × Manager) : Act → ℕ × Manager
  | .connectToPeers w => connectToPeers w lim s
  | .peerAuthenticated w i ok peer_id => peerAuthenticated w i ok peer_id s
  | .newConnection w p => newConnection w lim p s
  | .update w => update w lim s
  | .stop => stop s
  | .start => start s
  | .closeAllConnections => closeAllConnections s
  | .addPotentialPeer pp => (s.1, s.2.addPotentialPeer pp)
  | .kill i => (s.1, { s.2 with
      peer_list := s.2.peer_list.modify i fun p => { p with killed := true } })

variable {n : ℕ}

/-- Source: `PeerManager::setMaxConnections`, `PeerManager::setMaxTotalConnections`. Kind: D -/
def step (c : Client n) : Op n → Client n
  | .act k a =>
    let r := perform c.limits (c.total_connections, c.managers k) a
    { c with total_connections := r.1, managers := Function.update c.managers k r.2 }
  | .setMaxConnections max => { c with limits := { c.limits with max_connections := max } }
  | .setMaxTotalConnections max sys_max =>
    { c with limits := { c.limits with
        max_total_connections := if max = 0 ∨ max > sys_max then sys_max else max } }

/-! ### What is counted -/

/-- The peers and the pending attempts of a manager. Kind: D -/
def Manager.size (m : Manager) : ℕ := m.peer_list.length + m.auths.length

/-- **The accounting**: `total_connections` is the number of peers and pending attempts of all
managers, and each manager knows the number of its own attempts. Kind: D -/
structure Accounted (c : Client n) : Prop where
  total : c.total_connections = ∑ k, (c.managers k).size
  pending : ∀ k, (c.managers k).num_pending = UInt32.ofNat (c.managers k).auths.length

/-- Every attempt of the loop that fails at once is made by a started manager while something is
counted. Kind: D -/
def Spared (w : World) : ℕ → ℕ × Manager → Prop
  | 0, _ => True
  | num + 1, s =>
    if s.2.num_pending > MAX_SIMULTANIOUS_AUTHS then True
    else match s.2.potential_peers with
      | [] => True
      | pp :: rest =>
        if w.isBlocked pp.ip = false ∧ s.2.connectedTo pp.ip pp.port = false then
          (w.fails pp.ip pp.port = true → s.2.started = true ∧ 0 < s.1) ∧
            let s := attempt (w.fails pp.ip pp.port) ⟨w.isEncryptionEnabled, pp.ip, pp.port⟩ s
            Spared w num (s.1, { s.2 with potential_peers := rest })
        else Spared w num (s.1, { s.2 with potential_peers := rest })

/-- The same for a call of `connectToPeers`. Kind: D -/
def ConnectOk (w : World) (lim : Limits) (s : ℕ × Manager) : Prop :=
  match toConnect w lim s with
  | none => True
  | some num => Spared w num s

/-- **The acts that keep the accounting.** Kind: D -/
def ActOk (lim : Limits) (s : ℕ × Manager) : Act → Prop
  | .connectToPeers w => ConnectOk w lim s
  | .update w => s.2.started = true →
      let r := updateLoop w (fun _ => false) [] s.1 s.2.peer_list
      ConnectOk w lim (r.1, { s.2 with peer_list := r.2 })
  | .peerAuthenticated w i ok _ => ∀ auth, s.2.auths[i]? = some auth →
      s.2.started = true ∧ (ok = false → auth.encrypted = true →
        w.unencryptedConnectionsAllowed = true → w.fails auth.host auth.port = true → 1 < s.1)
  | .stop => s.2.auths = []
  | _ => True

/-- The operations that keep the accounting. Kind: D -/
def Ok (c : Client n) : Op n → Prop
  | .act k a => ActOk c.limits (c.total_connections, c.managers k) a
  | _ => True

/-! ### One manager -/

section Manager

variable {o : ℕ} {s : ℕ × Manager}

/-- The accounting from the side of one manager, when the others have `o` peers and attempts.
Kind: D -/
structure Balanced (o : ℕ) (s : ℕ × Manager) : Prop where
  total : s.1 = o + s.2.size
  pending : s.2.num_pending = UInt32.ofNat s.2.auths.length

/-- More is counted than there is. Kind: D -/
def Over (o : ℕ) (s : ℕ × Manager) : Prop := o + s.2.size < s.1

/-- A count that is over is not balanced. Source: `torrent/peermanager.cpp`,
`torrent/authenticate.cpp`. Kind: L -/
theorem Over.not_balanced (h : Over o s) : ¬ Balanced o s := fun hb =>
  absurd hb.total (ne_of_gt h)

/-- Releasing takes one off, and zero stays zero. Source: `torrent/peermanager.cpp`,
`torrent/authenticate.cpp`. Kind: L -/
theorem release_eq (total : ℕ) : release total = total - 1 := by
  unfold release
  split_ifs with h
  · rfl
  · omega

/-- An attempt that may fail only when it has been counted. Source: `Authenticate::Authenticate`.
Kind: L -/
theorem Balanced.attempt (h : Balanced o s) {fails : Bool} (auth : Authenticate)
    (hok : fails = true → s.2.started = true ∧ 0 < s.1) : Balanced o (attempt fails auth s) := by
  have htotal := h.total
  unfold Manager.size at htotal
  unfold Connections.attempt
  cases fails with
  | false =>
    constructor
    · simp only [Manager.size, Bool.false_eq_true, false_and, if_false, List.length_append,
        List.length_singleton]
      omega
    · simp only [Bool.false_eq_true, false_and, if_false, List.length_append, List.length_singleton]
      rw [h.pending, UInt32.ofNat_add]
      rfl
  | true =>
    obtain ⟨hstarted, hpos⟩ := hok rfl
    constructor
    · simp only [Manager.size, hstarted, and_self, if_true, release_eq]
      omega
    · simp only [hstarted, and_self, if_true]
      rw [UInt32.sub_add_cancel, h.pending]

/-- A count that is over stays so. Source: `Authenticate::Authenticate`. Kind: L -/
theorem Over.attempt (h : Over o s) (fails : Bool) (auth : Authenticate) :
    Over o (attempt fails auth s) := by
  unfold Over Manager.size at h ⊢
  unfold Connections.attempt
  cases fails with
  | false =>
    simp only [Bool.false_eq_true, false_and, if_false, List.length_append, List.length_singleton]
    omega
  | true =>
    by_cases hstarted : s.2.started = true
    · simp only [hstarted, and_self, if_true, release_eq]
      omega
    · simp only [hstarted, Bool.false_eq_true, and_false, if_false, if_true]
      omega

/-- An attempt that fails without having been counted. Source: `Authenticate::Authenticate`.
Kind: L -/
theorem over_attempt (h : Balanced o s) (auth : Authenticate)
    (hbad : ¬ (s.2.started = true ∧ 0 < s.1)) : Over o (attempt true auth s) := by
  have htotal := h.total
  unfold Over Manager.size at *
  unfold Connections.attempt
  by_cases hstarted : s.2.started = true
  · have hzero : ¬ 0 < s.1 := fun hpos => hbad ⟨hstarted, hpos⟩
    simp only [hstarted, and_self, if_true, release_eq]
    omega
  · simp only [hstarted, Bool.false_eq_true, and_false, if_false, if_true]
    omega

/-- Dropping potential peers changes nothing that is counted. Source: `torrent/peermanager.cpp`,
`torrent/authenticate.cpp`. Kind: L -/
theorem balanced_potential (rest : List PotentialPeer) :
    Balanced o (s.1, { s.2 with potential_peers := rest }) ↔ Balanced o s :=
  ⟨fun h => ⟨h.total, h.pending⟩, fun h => ⟨h.total, h.pending⟩⟩

/-- The loop of attempts leaves it over. Source: `PeerManager::connectToPeers`. Kind: L -/
theorem Over.connectLoop (w : World) (num : ℕ) :
    ∀ s : ℕ × Manager, Over o s → Over o (connectLoop w num s) := by
  induction num with
  | zero => exact fun s h => h
  | succ num ih =>
    intro s h
    unfold Connections.connectLoop
    split_ifs with hfull
    · exact h
    · split
      · exact h
      · split_ifs
        · exact ih _ (h.attempt _ _)
        · exact ih _ h

/-- **The loop of `connectToPeers`.**. Source: `PeerManager::connectToPeers`. Kind: L -/
theorem balanced_connectLoop (w : World) (num : ℕ) :
    ∀ s : ℕ × Manager, Balanced o s → (Balanced o (connectLoop w num s) ↔ Spared w num s) := by
  induction num with
  | zero => exact fun s h => ⟨fun _ => trivial, fun _ => h⟩
  | succ num ih =>
    intro s h
    unfold connectLoop Spared
    by_cases hfull : s.2.num_pending > MAX_SIMULTANIOUS_AUTHS
    · rw [if_pos hfull, if_pos hfull]
      exact ⟨fun _ => trivial, fun _ => h⟩
    · rw [if_neg hfull, if_neg hfull]
      cases hpp : s.2.potential_peers with
      | nil => exact ⟨fun _ => trivial, fun _ => h⟩
      | cons pp rest =>
        dsimp only
        by_cases htry : w.isBlocked pp.ip = false ∧ s.2.connectedTo pp.ip pp.port = false
        · rw [if_pos htry, if_pos htry]
          by_cases hok : w.fails pp.ip pp.port = true → s.2.started = true ∧ 0 < s.1
          · have hnext := (balanced_potential rest).mpr
              (h.attempt ⟨w.isEncryptionEnabled, pp.ip, pp.port⟩ hok)
            rw [ih _ hnext]
            exact ⟨fun hs => ⟨hok, hs⟩, fun hs => hs.2⟩
          · obtain ⟨hfails, hbad⟩ := Classical.not_imp.mp hok
            have hover := over_attempt h ⟨w.isEncryptionEnabled, pp.ip, pp.port⟩ hbad
            refine ⟨fun hb => ?_, fun hs => absurd hs.1 hok⟩
            rw [hfails] at hb
            have hnext : Over o ((attempt true ⟨w.isEncryptionEnabled, pp.ip, pp.port⟩ s).1,
                { (attempt true ⟨w.isEncryptionEnabled, pp.ip, pp.port⟩ s).2 with
                  potential_peers := rest }) := hover
            exact absurd hb (hnext.connectLoop w num _).not_balanced
        · rw [if_neg htry, if_neg htry]
          exact ih _ ((balanced_potential rest).mpr h)

/-- When, exactly, connecting keeps the balance. Source: `PeerManager::connectToPeers`. Kind: L -/
theorem balanced_connectToPeers (w : World) (lim : Limits) (h : Balanced o s) :
    Balanced o (connectToPeers w lim s) ↔ ConnectOk w lim s := by
  unfold connectToPeers ConnectOk
  cases toConnect w lim s with
  | none => exact ⟨fun _ => trivial, fun _ => h⟩
  | some num => exact balanced_connectLoop w num s h

/-- The killed peers are taken out of the list and out of the count. Source: `PeerManager::update`.
Kind: L -/
theorem updateLoop_length (w : World) (ps : List Peer) :
    ∀ (dead : Peer → Bool) (kept : List Peer) (total : ℕ), ps.length ≤ total →
      (updateLoop w dead kept total ps).1 + (kept.length + ps.length) =
        total + (updateLoop w dead kept total ps).2.length := by
  induction ps with
  | nil =>
    intro dead kept total _
    simp [updateLoop]
  | cons p ps ih =>
    intro dead kept total hle
    rw [List.length_cons] at hle
    unfold updateLoop
    split_ifs with hdead
    · have hnext := ih dead kept (release total) (by rw [release_eq]; omega)
      rw [release_eq] at hnext ⊢
      rw [List.length_cons]
      omega
    · have hnext := ih (fun q => dead q || w.kills p q) (kept ++ [p]) total (by omega)
      rw [List.length_append, List.length_singleton] at hnext
      rw [List.length_cons]
      omega

/-- When, exactly, a round keeps the balance. Source: `torrent/peermanager.cpp`,
`torrent/authenticate.cpp`. Kind: L -/
theorem balanced_update (w : World) (lim : Limits) (h : Balanced o s) :
    Balanced o (update w lim s) ↔ ActOk lim s (.update w) := by
  have htotal := h.total
  unfold Manager.size at htotal
  unfold update ActOk
  by_cases hstarted : s.2.started = true
  · have hlen := updateLoop_length w s.2.peer_list (fun _ => false) [] s.1 (by omega)
    rw [List.length_nil, Nat.zero_add] at hlen
    have hloop : Balanced o ((updateLoop w (fun _ => false) [] s.1 s.2.peer_list).1,
        { s.2 with peer_list := (updateLoop w (fun _ => false) [] s.1 s.2.peer_list).2 }) := by
      refine ⟨?_, h.pending⟩
      unfold Manager.size
      dsimp only
      omega
    rw [if_neg (by rw [hstarted]; exact Bool.noConfusion)]
    exact (balanced_connectToPeers w lim hloop).trans ⟨fun hok _ => hok, fun hok => hok hstarted⟩
  · rw [if_pos (Bool.eq_false_of_not_eq_true hstarted)]
    exact ⟨fun _ hs => absurd hs hstarted, fun _ => h⟩

/-- A new peer was counted as an attempt. Source: `PeerManager::createPeer`. Kind: L -/
theorem Balanced.createPeer (h : Balanced o s) (p : Peer) : Balanced o (createPeer p s) := by
  have htotal := h.total
  refine ⟨?_, h.pending⟩
  simp only [Connections.createPeer, Manager.size, List.length_append, List.length_singleton]
  unfold Manager.size at htotal
  omega

/-- Killing a bad peer removes nobody yet. Source: `PeerManager::killBadPeer`. Kind: L -/
theorem length_killBadPeer (w : World) :
    ∀ ps ps' : List Peer, killBadPeer w ps = some ps' → ps'.length = ps.length
  | [], _, h => by cases h
  | p :: ps, ps', h => by
    unfold killBadPeer at h
    split_ifs at h
    · obtain rfl := Option.some.inj h
      rfl
    · obtain ⟨qs, hqs, rfl⟩ := Option.map_eq_some_iff.mp h
      exact congrArg (· + 1) (length_killBadPeer w ps qs hqs)

/-- An incoming connection is counted. Source: `PeerManager::newConnection`. Kind: L -/
theorem Balanced.newConnection (h : Balanced o s) (w : World) (lim : Limits) (p : Peer) :
    Balanced o (newConnection w lim p s) := by
  unfold Connections.newConnection
  dsimp only
  split_ifs
  · cases hkill : killBadPeer w s.2.peer_list with
    | none => exact h
    | some ps =>
      have hps : Balanced o (s.1, { s.2 with peer_list := ps }) := by
        refine ⟨?_, h.pending⟩
        unfold Manager.size
        rw [h.total, Manager.size, length_killBadPeer w _ _ hkill]
      exact hps.createPeer p
  · exact h.createPeer p

/-- **An attempt reports.**. Source: `PeerManager::peerAuthenticated`. Kind: L -/
theorem balanced_peerAuthenticated (w : World) (lim : Limits) (i : ℕ) (ok : Bool)
    (peer_id : List UInt8) (h : Balanced o s) :
    Balanced o (peerAuthenticated w i ok peer_id s) ↔ ActOk lim s (.peerAuthenticated w i ok peer_id) := by
  unfold peerAuthenticated ActOk
  cases hauth : s.2.auths[i]? with
  | none =>
    refine ⟨fun _ auth hs => ?_, fun _ => h⟩
    rw [hauth] at hs
    cases hs
  | some auth =>
    have htotal := h.total
    unfold Manager.size at htotal
    obtain ⟨hi, -⟩ := List.getElem?_eq_some_iff.mp hauth
    have herase := List.length_eraseIdx_of_lt hi
    dsimp only
    by_cases hstarted : s.2.started = true
    · rw [if_neg (by rw [hstarted]; exact Bool.noConfusion)]
      -- what is left after the attempt is taken out
      have hrest : Balanced o (release s.1, { s.2 with
          auths := s.2.auths.eraseIdx i
          num_pending := s.2.num_pending - 1 }) := by
        constructor
        · simp only [Manager.size, release_eq, herase]
          omega
        · obtain ⟨k, hk⟩ : ∃ k, s.2.auths.length = k + 1 := ⟨s.2.auths.length - 1, by omega⟩
          show s.2.num_pending - 1 = UInt32.ofNat (s.2.auths.eraseIdx i).length
          rw [herase, h.pending, hk, UInt32.ofNat_add, Nat.add_sub_cancel]
          exact UInt32.add_sub_cancel _ _
      have hall : (∀ auth', s.2.auths[i]? = some auth' → s.2.started = true ∧ (ok = false →
          auth'.encrypted = true → w.unencryptedConnectionsAllowed = true →
            w.fails auth'.host auth'.port = true → 1 < s.1)) ↔
          (ok = false → auth.encrypted = true → w.unencryptedConnectionsAllowed = true →
            w.fails auth.host auth.port = true → 1 < s.1) := by
        constructor
        · exact fun hok => (hok auth hauth).2
        · intro hok auth' hauth'
          obtain rfl := Option.some.inj (hauth.symm.trans hauth')
          exact ⟨hstarted, hok⟩
      rw [hall]
      cases ok with
      | true =>
        rw [if_neg Bool.noConfusion]
        refine ⟨fun _ hok => Bool.noConfusion hok, fun _ => ?_⟩
        split_ifs
        · exact hrest
        · exact hrest.createPeer _
      | false =>
        rw [if_pos rfl]
        by_cases hretry : auth.encrypted = true ∧ w.unencryptedConnectionsAllowed = true
        · rw [if_pos hretry]
          by_cases hok : w.fails auth.host auth.port = true → 1 < s.1
          · refine ⟨fun _ _ _ _ => hok, fun _ => hrest.attempt _ fun hfails => ⟨hstarted, ?_⟩⟩
            have hone := hok hfails
            simp only [release_eq]
            omega
          · obtain ⟨hfails, hle⟩ := Classical.not_imp.mp hok
            refine ⟨fun hb => ?_, fun hok' => absurd (hok' rfl hretry.1 hretry.2 hfails) hle⟩
            rw [hfails] at hb
            refine absurd hb (over_attempt hrest _ fun hpos => hle ?_).not_balanced
            have hpos' := hpos.2
            simp only [release_eq] at hpos'
            omega
        · rw [if_neg hretry]
          exact ⟨fun _ _ he ha => absurd ⟨he, ha⟩ hretry, fun _ => hrest⟩
    · rw [if_pos (Bool.eq_false_of_not_eq_true hstarted)]
      refine ⟨fun hb => ?_, fun hok => absurd (hok auth hauth).1 hstarted⟩
      have hover : Over o (s.1, { s.2 with auths := s.2.auths.eraseIdx i }) := by
        unfold Over Manager.size
        simp only [herase]
        omega
      exact absurd hb hover.not_balanced

/-- **One act.**. Source: `torrent/peermanager.cpp`, `torrent/authenticate.cpp`. Kind: P -/
theorem balanced_perform (lim : Limits) (a : Act) (h : Balanced o s) :
    Balanced o (perform lim s a) ↔ ActOk lim s a := by
  have htotal := h.total
  unfold Manager.size at htotal
  cases a with
  | connectToPeers w => exact balanced_connectToPeers w lim h
  | peerAuthenticated w i ok peer_id => exact balanced_peerAuthenticated w lim i ok peer_id h
  | newConnection w p => exact ⟨fun _ => trivial, fun _ => h.newConnection w lim p⟩
  | update w => exact balanced_update w lim h
  | stop =>
    constructor
    · intro hb
      have hstop : s.1 = o + (s.2.peer_list.length + 0) := hb.total
      exact List.eq_nil_of_length_eq_zero (by omega)
    · intro hnone
      have hnil : s.2.auths = [] := hnone
      refine ⟨?_, rfl⟩
      show s.1 = o + (s.2.peer_list.length + 0)
      rw [htotal, hnil, List.length_nil]
  | start => exact ⟨fun _ => trivial, fun _ => ⟨h.total, h.pending⟩⟩
  | closeAllConnections =>
    refine ⟨fun _ => trivial, fun _ => ⟨?_, h.pending⟩⟩
    simp only [perform, closeAllConnections, Manager.size, List.length_nil]
    split_ifs <;> omega
  | addPotentialPeer pp =>
    refine ⟨fun _ => trivial, fun _ => ?_⟩
    simp only [perform, Manager.addPotentialPeer]
    split_ifs
    · exact h
    · exact h
    · exact balanced_potential _ |>.mpr h
  | kill i =>
    refine ⟨fun _ => trivial, fun _ => ⟨?_, h.pending⟩⟩
    simp only [perform, Manager.size, List.length_modify]
    exact htotal

/-- An attempt raises the count by one at most. Source: `Authenticate::Authenticate`. Kind: L -/
theorem attempt_le (fails : Bool) (auth : Authenticate) (s : ℕ × Manager) :
    (attempt fails auth s).1 ≤ s.1 + 1 := by
  unfold attempt
  dsimp only
  split_ifs
  · rw [release_eq]
    omega
  · exact le_rfl

/-- Each attempt counts at most one. Source: `PeerManager::connectToPeers`. Kind: L -/
theorem connectLoop_le (w : World) (num : ℕ) :
    ∀ s : ℕ × Manager, (connectLoop w num s).1 ≤ s.1 + num := by
  induction num with
  | zero => exact fun s => le_rfl
  | succ num ih =>
    intro s
    unfold connectLoop
    split_ifs with hfull
    · omega
    · split
      · omega
      · next pp rest _ =>
        dsimp only
        split_ifs
        · have hone := attempt_le (w.fails pp.ip pp.port)
            ⟨w.isEncryptionEnabled, pp.ip, pp.port⟩ s
          have hnext := ih ((attempt (w.fails pp.ip pp.port)
              ⟨w.isEncryptionEnabled, pp.ip, pp.port⟩ s).1,
            { (attempt (w.fails pp.ip pp.port) ⟨w.isEncryptionEnabled, pp.ip, pp.port⟩ s).2 with
              potential_peers := rest })
          dsimp only at hnext
          omega
        · have hnext := ih (s.1, { s.2 with potential_peers := rest })
          dsimp only at hnext
          omega

/-- **The limit of all connections**: `connectToPeers` does not go beyond it.
Source: `PeerManager::connectToPeers`. Kind: P -/
theorem connectToPeers_le (w : World) (lim : Limits) (s : ℕ × Manager)
    (hlim : 0 < lim.max_total_connections) :
    (connectToPeers w lim s).1 ≤ max s.1 lim.max_total_connections := by
  unfold connectToPeers
  cases hnum : toConnect w lim s with
  | none => exact le_max_left _ _
  | some num =>
    have hloop := connectLoop_le w num s
    have hle : s.1 + num ≤ lim.max_total_connections := by
      unfold toConnect at hnum
      dsimp only at hnum
      split_ifs at hnum
      all_goals
        have hinj := Option.some.inj hnum
        omega
    exact (hloop.trans hle).trans (le_max_right _ _)

/-- What a call of `connectToPeers` goes through are potential peers.
Source: `PeerManager::connectToPeers`. Kind: L -/
theorem toConnect_le {w : World} {lim : Limits} {num : ℕ} (h : toConnect w lim s = some num) :
    num ≤ s.2.potential_peers.length := by
  unfold toConnect at h
  dsimp only at h
  split_ifs at h
  all_goals
    have hinj := Option.some.inj h
    omega

/-- The loop takes potential peers from the list. Source: `PeerManager::connectToPeers`. Kind: L -/
theorem connectLoop_potential (w : World) (num : ℕ) : ∀ s : ℕ × Manager,
    (connectLoop w num s).2.potential_peers.length ≤ s.2.potential_peers.length := by
  induction num with
  | zero => exact fun s => le_rfl
  | succ num ih =>
    intro s
    unfold connectLoop
    split_ifs with hfull
    · exact le_rfl
    · split
      · exact le_rfl
      · next pp rest heq =>
        rw [heq, List.length_cons]
        exact (ih _).trans (Nat.le_succ _)

/-- What an operation adds to the count, when the manager has at most 151 potential peers: those it
tries and one connection more. Kind: D -/
structure Grows (s s' : ℕ × Manager) : Prop where
  total : s'.1 ≤ s.1 + 152
  potential : s'.2.potential_peers.length ≤ 151

/-- Connecting counts at most the potential peers. Source: `PeerManager::connectToPeers`. Kind: L -/
theorem grows_connectToPeers (w : World) (lim : Limits) (h : s.2.potential_peers.length ≤ 151) :
    Grows s (connectToPeers w lim s) := by
  unfold connectToPeers
  cases hnum : toConnect w lim s with
  | none => exact ⟨Nat.le_add_right _ _, h⟩
  | some num =>
    have hloop := connectLoop_le w num s
    have hle := toConnect_le hnum
    exact ⟨by dsimp only; omega, (connectLoop_potential w num s).trans h⟩

/-- Removing peers counts none. Source: `PeerManager::update`. Kind: L -/
theorem updateLoop_le (w : World) (ps : List Peer) : ∀ (dead : Peer → Bool) (kept : List Peer)
    (total : ℕ), (updateLoop w dead kept total ps).1 ≤ total := by
  induction ps with
  | nil => exact fun _ _ _ => le_rfl
  | cons p ps ih =>
    intro dead kept total
    unfold updateLoop
    split_ifs
    · exact (ih _ _ _).trans (by rw [release_eq]; omega)
    · exact ih _ _ _

/-- **One act adds at most 152 connections.**. Source: `torrent/peermanager.cpp`,
`torrent/authenticate.cpp`. Kind: L -/
theorem grows_perform (lim : Limits) (a : Act) (h : s.2.potential_peers.length ≤ 151) :
    Grows s (perform lim s a) := by
  have hsame : Grows s s := ⟨Nat.le_add_right _ _, h⟩
  cases a with
  | connectToPeers w => exact grows_connectToPeers w lim h
  | peerAuthenticated w i ok peer_id =>
    simp only [perform, peerAuthenticated]
    split
    · exact hsame
    · next auth _ =>
      have hrel : release s.1 ≤ s.1 := by rw [release_eq]; omega
      split_ifs
      · exact ⟨Nat.le_add_right _ _, h⟩
      · refine ⟨(attempt_le _ _ _).trans ?_, ?_⟩
        · dsimp only
          omega
        · unfold attempt
          dsimp only
          split_ifs <;> exact h
      · exact ⟨hrel.trans (Nat.le_add_right _ _), h⟩
      · exact ⟨hrel.trans (Nat.le_add_right _ _), h⟩
      · exact ⟨by simp only [createPeer]; omega, h⟩
  | newConnection w p =>
    simp only [perform, newConnection]
    split_ifs
    · split
      · exact hsame
      · exact ⟨by simp only [createPeer]; omega, h⟩
    · exact ⟨by simp only [createPeer]; omega, h⟩
  | update w =>
    simp only [perform, update]
    split_ifs
    · exact hsame
    · have hloop := updateLoop_le w s.2.peer_list (fun _ => false) [] s.1
      have hnext := grows_connectToPeers w lim (s := ((updateLoop w (fun _ => false) [] s.1
        s.2.peer_list).1, { s.2 with
          peer_list := (updateLoop w (fun _ => false) [] s.1 s.2.peer_list).2 })) h
      exact ⟨hnext.total.trans (Nat.add_le_add_right hloop 152), hnext.potential⟩
  | stop => exact ⟨Nat.le_add_right _ _, h⟩
  | start => exact ⟨Nat.le_add_right _ _, h⟩
  | closeAllConnections =>
    refine ⟨?_, h⟩
    simp only [perform, closeAllConnections]
    split_ifs <;> omega
  | addPotentialPeer pp =>
    refine ⟨Nat.le_add_right _ _, ?_⟩
    simp only [perform, Manager.addPotentialPeer]
    split_ifs with hmany hknown
    · exact h
    · exact h
    · have hsplit := List.length_eq_length_filter_add (l := s.2.potential_peers)
        fun q => decide (q.ip ≤ pp.ip)
      have hrest : (s.2.potential_peers.filter fun q => decide (pp.ip < q.ip)) =
          s.2.potential_peers.filter fun q => !decide (q.ip ≤ pp.ip) := by
        refine List.filter_congr fun q _ => ?_
        rw [← decide_not]
        exact decide_eq_decide.mpr String.not_le.symm
      rw [List.length_append, List.length_cons, hrest]
      omega
  | kill i => exact ⟨Nat.le_add_right _ _, h⟩

end Manager

/-! ### All managers -/

/-- The accounting of the program and of one manager. Source: `torrent/peermanager.cpp`,
`torrent/authenticate.cpp`. Kind: L -/
theorem accounted_update {c : Client n} (h : Accounted c) (k : Fin n) (s : ℕ × Manager) :
    Accounted { c with total_connections := s.1, managers := Function.update c.managers k s.2 } ↔
      Balanced (∑ j ∈ Finset.univ \ {k}, (c.managers j).size) s := by
  have hsum : ∑ j, (Function.update c.managers k s.2 j).size =
      s.2.size + ∑ j ∈ Finset.univ \ {k}, (c.managers j).size := by
    have hcongr : ∀ j, (Function.update c.managers k s.2 j).size =
        Function.update (fun j => (c.managers j).size) k s.2.size j := by
      intro j
      by_cases hj : j = k
      · subst hj
        simp
      · simp [hj]
    simp only [hcongr]
    exact Finset.sum_update_of_mem (Finset.mem_univ k) _ _
  constructor
  · intro ha
    have hpending := ha.pending k
    dsimp only at hpending
    rw [Function.update_self] at hpending
    exact ⟨ha.total.trans (hsum.trans (Nat.add_comm _ _)), hpending⟩
  · intro hb
    refine ⟨hb.total.trans ((Nat.add_comm _ _).trans hsum.symm), fun j => ?_⟩
    dsimp only
    by_cases hj : j = k
    · subst hj
      rw [Function.update_self]
      exact hb.pending
    · rw [Function.update_of_ne hj]
      exact h.pending j

/-- **One operation.**. Source: `torrent/peermanager.cpp`, `torrent/authenticate.cpp`. Kind: P -/
theorem accounted_step {c : Client n} (op : Op n) (h : Accounted c) :
    Accounted (step c op) ↔ Ok c op := by
  cases op with
  | act k a =>
    have hself : Balanced (∑ j ∈ Finset.univ \ {k}, (c.managers j).size)
        (c.total_connections, c.managers k) := by
      rw [← accounted_update h k]
      rwa [Function.update_eq_self]
    exact (accounted_update h k _).trans (balanced_perform c.limits a hself)
  | setMaxConnections max => exact ⟨fun _ => trivial, fun _ => ⟨h.total, h.pending⟩⟩
  | setMaxTotalConnections max sys_max => exact ⟨fun _ => trivial, fun _ => ⟨h.total, h.pending⟩⟩

/-- **The count of all connections over whole runs**: it is right after every operation, exactly if
no manager is stopped while an attempt is pending, no attempt fails at once while nothing is counted
or the manager is stopped, and no attempt reports to a stopped manager; and `connectToPeers` never
goes beyond the limit. Source: `PeerManager::connectToPeers`. Kind: P -/
theorem counted_iff (ops : List (Op n)) :
    ((∀ pre, pre <+: ops → Accounted (run step {} pre)) ↔ Meets step Ok ({} : Client n) ops) ∧
      ∀ (c : Client n) (k : Fin n) (w : World), 0 < c.limits.max_total_connections →
        (step c (.act k (.connectToPeers w))).total_connections ≤
          max c.total_connections c.limits.max_total_connections := by
  refine ⟨invariant_at_iff_meets (fun _ op h => accounted_step op h) ?_ ops, ?_⟩
  · refine ⟨?_, fun _ => rfl⟩
    exact (Finset.sum_eq_zero fun _ _ => rfl).symm
  · exact fun c k w hlim => connectToPeers_le w c.limits _ hlim

/-- **The count stays within 32 bits** in all runs of up to `2^24` operations, since an operation
raises it by 152 at most. Source: `PeerManager::total_connections`. Kind: P -/
theorem total_le (ops : List (Op n)) :
    (run step ({} : Client n) ops).total_connections ≤ 152 * ops.length := by
  have hinv : ∀ (ops : List (Op n)) (c : Client n), (∀ k, (c.managers k).potential_peers.length ≤ 151) →
      (run step c ops).total_connections ≤ c.total_connections + 152 * ops.length := by
    intro ops
    induction ops with
    | nil => exact fun c _ => le_rfl
    | cons op ops ih =>
      intro c hc
      rw [run_cons, List.length_cons]
      have hmore : 152 * ops.length ≤ 152 * (ops.length + 1) := Nat.mul_le_mul_left _ (Nat.le_succ _)
      cases op with
      | act k a =>
        have hgrows := grows_perform (s := (c.total_connections, c.managers k)) c.limits a (hc k)
        refine (ih _ fun j => ?_).trans ?_
        · by_cases hj : j = k
          · subst hj
            simp only [step, Function.update_self]
            exact hgrows.potential
          · simp only [step, Function.update_of_ne hj]
            exact hc j
        · have htotal := hgrows.total
          simp only [step] at htotal ⊢
          omega
      | setMaxConnections max =>
        exact (ih (step c (.setMaxConnections max)) hc).trans (Nat.add_le_add_left hmore _)
      | setMaxTotalConnections max sys_max =>
        exact (ih (step c (.setMaxTotalConnections max sys_max)) hc).trans
          (Nat.add_le_add_left hmore _)
  have hrun := hinv ops {} fun _ => Nat.zero_le _
  rwa [Nat.zero_add] at hrun

/-- A world in which every attempt is under way for a while. Kind: D -/
def calm : World where
  canInitiateNewConnection := true
  isEncryptionEnabled := false
  unencryptedConnectionsAllowed := true
  isBlocked := fun _ => false
  fails := fun _ _ => false
  bad := fun _ => false
  kills := fun _ _ => false

/-- A manager is stopped while an attempt is pending. Kind: D -/
def stopped : List (Op 1) :=
  [.act 0 .start, .act 0 (.addPotentialPeer ⟨"10.0.0.1", 6881⟩), .act 0 (.connectToPeers calm),
    .act 0 .stop]

/-- **The attempt stays in the count**: nothing is left of it, and one connection is counted.
Source: `PeerManager::stop`, `Authenticate::onPeerManagerDestroyed`. Kind: P -/
theorem stop_leaks : (run step ({} : Client 1) stopped).total_connections = 1 ∧
    ∑ k, ((run step ({} : Client 1) stopped).managers k).size = 0 ∧
      ¬ Accounted (run step ({} : Client 1) stopped) := by
  have htotal : (run step ({} : Client 1) stopped).total_connections = 1 := by decide
  have hsize : ∑ k, ((run step ({} : Client 1) stopped).managers k).size = 0 := by decide
  refine ⟨htotal, hsize, fun h => ?_⟩
  have hcount := h.total
  rw [htotal, hsize] at hcount
  exact absurd hcount Nat.one_ne_zero

end KTorrent.Transfer.Connections
