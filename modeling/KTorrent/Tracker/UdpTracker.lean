import KTorrent.Lib.GuardedRun
import Mathlib.Data.List.Chain
import Mathlib.Tactic.NormNum

/-!
# Retries of a UDP tracker

A request to a UDP tracker is a connection and an announcement, either of which may get lost. A
timer is started with the connection, for a time that `n` is the exponent of; when it runs out, the
connection is made again.

* `start`, `stop`, `completed`, `manualUpdate`, `connectRecieved`, `announceRecieved`, `onError`,
  `onConnTimeout` — the handlers; `waits` is a history: how long the timer was set for in the
  attempts since the tracker last answered or the user last asked.
* `Settled` — what holds in every run: the exponent is at most one, and the connection is open only
  when nothing was attempted since the last answer.
* `doubling_iff` — each attempt waits twice as long as the one before exactly when none is a second
  attempt: `doRequest` sets the exponent back when a connection has timed out.

Source: `torrent/udptracker.h`, `torrent/udptracker.cpp`
-/

namespace KTorrent.Tracker

open KTorrent.Lib

/-- Source: `torrent/udptracker.h`, `Event`. Kind: D -/
inductive Event
  | NONE
  | COMPLETED
  | STARTED
  | STOPPED
  deriving DecidableEq

/-- The tracker; `conn_timer` is how long the timer was set for, if it runs. The last field is
history. Source: `torrent/udptracker.h`, `UDPTracker`. Kind: D -/
structure UDPTracker where
  transaction_id : ℤ
  connection_id : ℤ
  n : ℤ
  event : Event
  started : Bool
  conn_timer : Option ℕ
  waits : List ℕ
  deriving DecidableEq

namespace UDPTracker

/-- The constructor leaves `n` and `event` as they are. Source: `UDPTracker::UDPTracker`.
Kind: D -/
def new (n : ℤ) (event : Event) : UDPTracker := ⟨0, 0, n, event, false, none, []⟩

/-- Source: `UDPTracker::sendConnect`; `tid` is the new transaction ID. Kind: D -/
def sendConnect (tid : ℤ) (t : UDPTracker) : UDPTracker :=
  let wait := 60000 * 2 ^ t.n.toNat
  { t with transaction_id := tid, conn_timer := some wait, waits := t.waits ++ [wait] }

/-- Source: `UDPTracker::sendAnnounce`. Kind: D -/
def sendAnnounce (tid : ℤ) (t : UDPTracker) : UDPTracker := { t with transaction_id := tid }

/-- Source: `UDPTracker::doRequest`. Kind: D -/
def doRequest (tid : ℤ) (t : UDPTracker) : UDPTracker :=
  if t.connection_id = 0 then sendConnect tid { t with n := 0 } else sendAnnounce tid t

/-- A request of the user, with its event. Kind: D -/
def request (tid : ℤ) (event : Event) (t : UDPTracker) : UDPTracker :=
  doRequest tid { t with event := event, conn_timer := none, waits := [] }

/-- Source: `UDPTracker::start`. Kind: D -/
def start (tid : ℤ) (t : UDPTracker) : UDPTracker := request tid .STARTED t

/-- Source: `UDPTracker::stop`. Kind: D -/
def stop (tid : ℤ) (t : UDPTracker) : UDPTracker :=
  if t.started then { request tid .STOPPED t with started := false } else t

/-- Source: `UDPTracker::completed`. Kind: D -/
def completed (tid : ℤ) (t : UDPTracker) : UDPTracker := request tid .COMPLETED t

/-- Source: `UDPTracker::manualUpdate`. Kind: D -/
def manualUpdate (tid : ℤ) (t : UDPTracker) : UDPTracker :=
  request tid (if t.started then t.event else .STARTED) t

/-- Source: `UDPTracker::connectRecieved`. Kind: D -/
def connectRecieved (tid cid fresh : ℤ) (t : UDPTracker) : UDPTracker :=
  if tid ≠ t.transaction_id then t
  else sendAnnounce fresh { t with connection_id := cid, n := 0, waits := [] }

/-- Source: `UDPTracker::announceRecieved`. Kind: D -/
def announceRecieved (tid : ℤ) (t : UDPTracker) : UDPTracker :=
  if tid ≠ t.transaction_id then t
  else
    let t := { t with connection_id := 0, conn_timer := none, waits := [] }
    if t.event ≠ .STOPPED then
      { t with started := if t.event = .STARTED then true else t.started, event := .NONE }
    else t

/-- Source: `UDPTracker::onError`. Kind: D -/
def onError (tid : ℤ) (t : UDPTracker) : UDPTracker :=
  if tid ≠ t.transaction_id then t else { t with waits := [] }

/-- The timer is a single shot. Source: `UDPTracker::onConnTimeout`. Kind: D -/
def onConnTimeout (tid : ℤ) (t : UDPTracker) : UDPTracker :=
  let t := { t with conn_timer := none }
  if t.connection_id ≠ 0 then
    let t := { t with connection_id := 0, n := t.n + 1 }
    if t.event ≠ .STOPPED then sendConnect tid t else t
  else doRequest tid t

/-! ### Runs -/

/-- What can happen; `tid` is the transaction ID of an answer, `fresh` that of what is sent.
Kind: D -/
inductive Input
  | start (fresh : ℤ)
  | stop (fresh : ℤ)
  | completed (fresh : ℤ)
  | manualUpdate (fresh : ℤ)
  | connectRecieved (tid cid fresh : ℤ)
  | announceRecieved (tid : ℤ)
  | error (tid : ℤ)
  | timeout (fresh : ℤ)
  deriving DecidableEq

/-- Kind: D -/
def step (t : UDPTracker) : Input → UDPTracker
  | .start fresh => t.start fresh
  | .stop fresh => t.stop fresh
  | .completed fresh => t.completed fresh
  | .manualUpdate fresh => t.manualUpdate fresh
  | .connectRecieved tid cid fresh => t.connectRecieved tid cid fresh
  | .announceRecieved tid => t.announceRecieved tid
  | .error tid => t.onError tid
  | .timeout fresh => if t.conn_timer.isSome then t.onConnTimeout fresh else t

/-- Each attempt since the last answer or request waits twice as long as the one before it.
Kind: D -/
def Doubling (t : UDPTracker) : Prop := t.waits.IsChain fun a b => b = 2 * a

/-- When the timer runs out, the tracker has answered since it was set. Kind: D -/
def Answered (t : UDPTracker) : Input → Prop
  | .timeout _ => t.conn_timer.isSome → t.waits = []
  | _ => True

/-- What holds in every run. Kind: D -/
structure Settled (t : UDPTracker) : Prop where
  /-- A connection is open only when nothing was attempted since the last answer. -/
  unconnected : t.waits ≠ [] → t.connection_id = 0
  connected : t.connection_id ≠ 0 → t.n = 0
  waits : ∀ w ∈ t.waits, w = 60000 ∨ w = 120000

/-- A new tracker waits for nothing. Source: `torrent/udptracker.h`, `torrent/udptracker.cpp`.
Kind: L -/
theorem settled_new (n : ℤ) (event : Event) : (new n event).Settled :=
  ⟨fun h => absurd rfl h, fun h => absurd rfl h, by simp [new]⟩

/-- A request begins the count of attempts anew. Source: `torrent/udptracker.h`,
`torrent/udptracker.cpp`. Kind: L -/
theorem request_spec (tid : ℤ) (event : Event) (t : UDPTracker) (ht : t.Settled) :
    (t.request tid event).Settled ∧ (t.request tid event).Doubling := by
  unfold request doRequest
  split_ifs with hc
  · refine ⟨⟨fun _ => hc, fun h => absurd hc h, ?_⟩, List.isChain_singleton _⟩
    intro w hw
    exact Or.inl (List.mem_singleton.mp hw)
  · exact ⟨⟨fun h => absurd rfl h, ht.connected, by simp [sendAnnounce]⟩, List.isChain_nil⟩

/-- **What a timeout does**: an announcement that has timed out is a first attempt, with twice the
first time; a connection that has timed out is made again for the first time.
Source: `UDPTracker::onConnTimeout`. Kind: L -/
theorem onConnTimeout_spec (tid : ℤ) (t : UDPTracker) (ht : t.Settled) :
    (t.onConnTimeout tid).Settled ∧
      (t.waits = [] ∧ (t.onConnTimeout tid).Doubling ∨
        (t.onConnTimeout tid).waits = t.waits ++ [60000]) := by
  unfold onConnTimeout
  dsimp only
  split_ifs with hc he
  · have hnil : t.waits = [] := by
      by_contra h
      exact hc (ht.unconnected h)
    have hwait : 60000 * 2 ^ (t.n + 1).toNat = 120000 := by
      rw [ht.connected hc]
      rfl
    refine ⟨⟨fun _ => rfl, fun h => absurd rfl h, ?_⟩, Or.inl ⟨hnil, ?_⟩⟩
    · intro w hw
      simp only [sendConnect, hnil, List.nil_append, List.mem_singleton] at hw
      exact Or.inr (hw.trans hwait)
    · simp only [Doubling, sendConnect, hnil, List.nil_append]
      exact List.isChain_singleton _
  · have hnil : t.waits = [] := by
      by_contra h
      exact hc (ht.unconnected h)
    refine ⟨⟨fun h => absurd hnil h, fun h => absurd rfl h, ht.waits⟩, Or.inl ⟨hnil, ?_⟩⟩
    simp only [Doubling, hnil]
    exact List.isChain_nil
  · have hz : t.connection_id = 0 := not_not.mp hc
    rw [doRequest, if_pos hz]
    refine ⟨⟨fun _ => hz, fun h => absurd hz h, ?_⟩, Or.inr rfl⟩
    intro w hw
    rcases List.mem_append.mp hw with hw | hw
    · exact ht.waits w hw
    · exact Or.inl (List.mem_singleton.mp hw)

/-- A second attempt for the first time breaks the chain. Source: none: infrastructure. Kind: L -/
theorem not_doubling_append {ws : List ℕ} (hws : ∀ w ∈ ws, w = 60000 ∨ w = 120000)
    (hne : ws ≠ []) : ¬ (ws ++ [60000]).IsChain fun a b => b = 2 * a := by
  intro h
  obtain ⟨ws, w, rfl⟩ := (List.eq_nil_or_concat' ws).resolve_left hne
  have hw := hws w (by simp)
  have hdouble : 60000 = 2 * w := by
    simp only [List.append_assoc, List.isChain_append, List.singleton_append,
      List.isChain_cons_cons] at h
    exact h.2.1.1
  omega

/-- Every input leaves the tracker settled. Source: `torrent/udptracker.h`,
`torrent/udptracker.cpp`. Kind: L -/
theorem settled_step (t : UDPTracker) (i : Input) (ht : t.Settled) : (t.step i).Settled := by
  cases i with
  | start fresh => exact (request_spec fresh _ t ht).1
  | stop fresh =>
    show (t.stop fresh).Settled
    unfold stop
    split_ifs with hs
    · obtain ⟨h1, h2, h3⟩ := (request_spec fresh .STOPPED t ht).1
      exact ⟨h1, h2, h3⟩
    · exact ht
  | completed fresh => exact (request_spec fresh _ t ht).1
  | manualUpdate fresh => exact (request_spec fresh _ t ht).1
  | connectRecieved tid cid fresh =>
    show (t.connectRecieved tid cid fresh).Settled
    unfold connectRecieved
    split_ifs
    · exact ht
    · exact ⟨fun h => absurd rfl h, fun _ => rfl, by simp [sendAnnounce]⟩
  | announceRecieved tid =>
    show (t.announceRecieved tid).Settled
    unfold announceRecieved
    dsimp only
    split_ifs
    · exact ht
    all_goals exact ⟨fun h => absurd rfl h, fun h => absurd rfl h, by simp⟩
  | error tid =>
    show (t.onError tid).Settled
    unfold onError
    split_ifs
    · exact ht
    · exact ⟨fun h => absurd rfl h, ht.connected, by simp⟩
  | timeout fresh =>
    show (if t.conn_timer.isSome then t.onConnTimeout fresh else t).Settled
    split_ifs
    · exact (onConnTimeout_spec fresh t ht).1
    · exact ht

/-- Each handler but that of the timer starts the count anew, or leaves it.
Source: `torrent/udptracker.h`, `torrent/udptracker.cpp`. Kind: L -/
theorem doubling_of_waits {t t' : UDPTracker} (ht : t.Doubling)
    (h : t'.waits = [] ∨ t'.waits = t.waits) : t'.Doubling := by
  unfold Doubling
  rcases h with h | h
  · rw [h]
    exact List.isChain_nil
  · rw [h]
    exact ht

/-- **The exact condition on one event.**. Source: `torrent/udptracker.h`, `torrent/udptracker.cpp`.
Kind: P -/
theorem step_doubling_iff {t : UDPTracker} {i : Input} (hs : t.Settled) (hd : t.Doubling) :
    (t.step i).Doubling ↔ t.Answered i := by
  cases i with
  | start fresh => exact ⟨fun _ => trivial, fun _ => (request_spec fresh _ t hs).2⟩
  | stop fresh =>
    refine ⟨fun _ => trivial, fun _ => ?_⟩
    show (t.stop fresh).Doubling
    unfold stop
    split_ifs
    · exact (request_spec fresh .STOPPED t hs).2
    · exact hd
  | completed fresh => exact ⟨fun _ => trivial, fun _ => (request_spec fresh _ t hs).2⟩
  | manualUpdate fresh => exact ⟨fun _ => trivial, fun _ => (request_spec fresh _ t hs).2⟩
  | connectRecieved tid cid fresh =>
    refine ⟨fun _ => trivial, fun _ => doubling_of_waits hd ?_⟩
    show (t.connectRecieved tid cid fresh).waits = [] ∨ (t.connectRecieved tid cid fresh).waits = t.waits
    unfold connectRecieved
    split_ifs
    · exact Or.inr rfl
    · exact Or.inl rfl
  | announceRecieved tid =>
    refine ⟨fun _ => trivial, fun _ => doubling_of_waits hd ?_⟩
    show (t.announceRecieved tid).waits = [] ∨ (t.announceRecieved tid).waits = t.waits
    unfold announceRecieved
    dsimp only
    split_ifs
    · exact Or.inr rfl
    all_goals exact Or.inl rfl
  | error tid =>
    refine ⟨fun _ => trivial, fun _ => doubling_of_waits hd ?_⟩
    show (t.onError tid).waits = [] ∨ (t.onError tid).waits = t.waits
    unfold onError
    split_ifs
    · exact Or.inr rfl
    · exact Or.inl rfl
  | timeout fresh =>
    show (if t.conn_timer.isSome then t.onConnTimeout fresh else t).Doubling ↔
      (t.conn_timer.isSome → t.waits = [])
    split_ifs with htimer
    · refine Iff.trans ?_ (forall_prop_of_true htimer).symm
      rcases (onConnTimeout_spec fresh t hs).2 with ⟨hnil, hchain⟩ | happ
      · exact ⟨fun _ => hnil, fun _ => hchain⟩
      · unfold Doubling
        rw [happ]
        constructor
        · intro h
          by_contra hne
          exact not_doubling_append hs.waits hne h
        · rintro hnil
          rw [hnil]
          exact List.isChain_singleton _
    · exact ⟨fun _ h => absurd h htimer, fun _ => hd⟩

/-- **When the waits double.** From a new tracker, after every event each attempt since the last
answer or request has waited twice as long as the one before, exactly when the timer never runs out
on an attempt that was made since the last answer or request. Source: `torrent/udptracker.h`,
`torrent/udptracker.cpp`. Kind: P -/
theorem doubling_iff (n : ℤ) (event : Event) (is : List Input) :
    (∀ pre, pre <+: is → (run step (new n event) pre).Doubling) ↔
      Meets step Answered (new n event) is :=
  good_at_iff_meets settled_step (fun _ _ hs hd _ => step_doubling_iff hs hd) (settled_new n event)
    List.isChain_nil (meets_true (new n event) is)

/-- **No wait is longer than two minutes**, so the time of the timer fits its type.
Source: `torrent/udptracker.h`, `torrent/udptracker.cpp`. Kind: P -/
theorem waits_le (n : ℤ) (event : Event) (is : List Input) :
    ∀ w ∈ (run step (new n event) is).waits, w ≤ 120000 := by
  intro w hw
  have hs := run_inv settled_step (settled_new n event) is
  rcases hs.waits w hw with rfl | rfl <;> decide

/-- A tracker that does not answer: the first two waits are the same.
Source: `torrent/udptracker.h`, `torrent/udptracker.cpp`. Kind: P -/
theorem wait_stays :
    ¬ ∀ (n : ℤ) (event : Event) (is : List Input), (run step (new n event) is).Doubling := by
  intro h
  have h2 := h 0 .NONE [.start 1, .timeout 2]
  have hwaits : (run step (new 0 .NONE) [.start 1, .timeout 2]).waits = [60000, 60000] := by decide
  unfold Doubling at h2
  rw [hwaits] at h2
  exact absurd h2 (by decide)

end UDPTracker

end KTorrent.Tracker
