import KTorrent.Lib.GuardedRun
import KTorrent.Lib.SortedMap
import KTorrent.Tracker.UdpTracker

/-!
# The trackers of a torrent

The trackers are objects held in a map by their URL; one of them is the current one, which the manager
points to. Users add, remove and choose trackers, the manager is started and stopped, and the trackers
report what became of their announcements.

* `PeerSourceManager` — the manager with the tracker objects. `heap` are all objects there ever were,
  `dying` those with a timed deletion, `deleted` those that are gone; `announced` is a history of the
  announcements the trackers are asked for.
* `selectTracker_min` — which tracker is selected.
* `Base` — what holds in every run; `Good` — the current tracker is in the map, and no tracker was
  asked to announce that it starts while the manager was stopped.
* `good_iff` — the runs that stay in `Good` are those with neither of two steps: removing the current
  tracker when it is the only one or the manager is stopped, and making a stopped manager announce
  through a choice of the tracker or an update by hand.

A tracker's number of failures, its interval and whether it has started change as its server answers:
any change is a `report`. The other sources of peers, the status messages, the request times and the
scraping are left out.

Source: `torrent/peersourcemanager.cpp`, `torrent/httptracker.cpp`, `torrent/udptracker.cpp`
-/

namespace KTorrent.Tracker

open KTorrent.Lib

/-- The part of a tracker that changes with the answers of its server. Source: `Tracker`. Kind: D -/
structure Progress where
  failures : ℕ := 0
  started : Bool := false
  event : Event := .NONE
  interval : ℕ := 300

/-- `udp` distinguishes the two classes. Source: `torrent/tracker.h`, `Tracker`. Kind: D -/
structure TrackerObject (κ : Type*) extends Progress where
  url : κ
  tier : ℤ
  udp : Bool

/-- A tracker was asked to announce an event, while the manager was started or not. Kind: D -/
structure Announced where
  tracker : ℕ
  event : Event
  started : Bool

/-- Trackers are numbered in the order of their creation. Source: `PeerSourceManager`. Kind: D -/
structure PeerSourceManager (κ : Type*) [LinearOrder κ] where
  heap : ℕ → TrackerObject κ
  next : ℕ := 0
  trackers : SortedMap κ ℕ := .empty
  curr : Option ℕ := none
  custom_trackers : List κ := []
  started : Bool := false
  failures : ℕ := 0
  timer : Option ℕ := none
  dying : List ℕ := []
  deleted : List ℕ := []
  announced : List Announced := []

variable {κ : Type*} [LinearOrder κ]

namespace PeerSourceManager

/-! ### The trackers -/

/-- A tracker object changes. Kind: D -/
def modify (s : PeerSourceManager κ) (i : ℕ) (f : TrackerObject κ → TrackerObject κ) : PeerSourceManager κ :=
  { s with heap := Function.update s.heap i (f (s.heap i)) }

/-- Source: `HTTPTracker::doRequest`, `UDPTracker::doRequest`. Kind: D -/
def doRequest (s : PeerSourceManager κ) (i : ℕ) (event : Event) : PeerSourceManager κ :=
  { s.modify i fun t => { t with event := event } with
    announced := s.announced ++ [⟨i, event, s.started⟩] }

/-- Source: `HTTPTracker::start`, `UDPTracker::start`. Kind: D -/
def startTracker (s : PeerSourceManager κ) (i : ℕ) : PeerSourceManager κ := s.doRequest i .STARTED

/-- Source: `HTTPTracker::stop`, `UDPTracker::stop`. Kind: D -/
def stopTracker (s : PeerSourceManager κ) (i : ℕ) : PeerSourceManager κ :=
  if !(s.heap i).started then s
  else (s.doRequest i .STOPPED).modify i fun t => { t with started := false }

/-- Source: `HTTPTracker::completed`, `UDPTracker::completed`. Kind: D -/
def completedTracker (s : PeerSourceManager κ) (i : ℕ) : PeerSourceManager κ :=
  (s.doRequest i .COMPLETED).modify i fun t => if t.udp then t else { t with event := .NONE }

/-- Source: `HTTPTracker::manualUpdate`, `UDPTracker::manualUpdate`. Kind: D -/
def manualUpdateTracker (s : PeerSourceManager κ) (i : ℕ) : PeerSourceManager κ :=
  s.doRequest i (if !(s.heap i).started then .STARTED else (s.heap i).event)

/-- Source: `Tracker::failureCount`. Kind: D -/
def failureCount (s : PeerSourceManager κ) (i : ℕ) : ℕ := (s.heap i).failures

/-- Source: `Tracker::getTier`. Kind: D -/
def getTier (s : PeerSourceManager κ) (i : ℕ) : ℤ := (s.heap i).tier

/-! ### The manager -/

/-- The loop body. Source: `PeerSourceManager::selectTracker`. Kind: D -/
def better (s : PeerSourceManager κ) (n : Option ℕ) (t : ℕ) : Option ℕ :=
  match n with
  | none => some t
  | some n =>
    if s.failureCount t < s.failureCount n then some t
    else if s.failureCount t = s.failureCount n then
      if s.getTier t < s.getTier n then some t else some n
    else some n

/-- Source: `PeerSourceManager::selectTracker`. Kind: D -/
def selectTracker (s : PeerSourceManager κ) : Option ℕ :=
  (s.trackers.entries.map Prod.snd).foldl s.better none

/-- The signals of a tracker are connected while it is the current one. Source:
`PeerSourceManager::switchTracker`. Kind: D -/
def switchTracker (s : PeerSourceManager κ) (trk : Option ℕ) : PeerSourceManager κ :=
  if s.curr = trk then s else { s with curr := trk }

/-- `curr->start()`. Kind: D -/
def startCurr (s : PeerSourceManager κ) : PeerSourceManager κ :=
  match s.curr with
  | none => s
  | some i => s.startTracker i

/-- `curr->stop()`, if there is one. Kind: D -/
def stopCurr (s : PeerSourceManager κ) : PeerSourceManager κ :=
  match s.curr with
  | none => s
  | some i => s.stopTracker i

/-- A tracker as it is made. Source: `HTTPTracker::HTTPTracker`, `UDPTracker::UDPTracker`. Kind: D -/
def newTracker (url : κ) (udp : Bool) (tier : ℤ) : TrackerObject κ where
  url := url
  udp := udp
  tier := tier
  interval := if udp then 0 else 300

/-- Source: `PeerSourceManager::addTracker`. Kind: D -/
def addTracker (s : PeerSourceManager κ) (url : κ) (udp custom : Bool) (tier : ℤ) :
    PeerSourceManager κ :=
  if url ∈ s.trackers.keySet then s
  else
    { s with
      heap := Function.update s.heap s.next (newTracker url udp tier)
      next := s.next + 1
      trackers := s.trackers.put url s.next
      custom_trackers := if custom then s.custom_trackers ++ [url] else s.custom_trackers }

/-- Another tracker becomes the current one and is started, if there is any. Source:
`PeerSourceManager::removeTracker`, `PeerSourceManager::start`. Kind: D -/
def reselect (s : PeerSourceManager κ) : PeerSourceManager κ :=
  if 0 < s.trackers.size then (s.switchTracker s.selectTracker).startCurr else s

/-- The current tracker is stopped and taken out of the map; it is deleted later, so that it can still
be told that it stops. Source: `PeerSourceManager::removeTracker`. Kind: D -/
def dismiss (s : PeerSourceManager κ) (url : κ) (trk : ℕ) : PeerSourceManager κ :=
  { s.stopTracker trk with
    custom_trackers := s.custom_trackers.filter (· ≠ url)
    dying := s.dying ++ [trk]
    trackers := s.trackers.erase url }

/-- Source: `PeerSourceManager::removeTracker`. Kind: D -/
def removeTracker (s : PeerSourceManager κ) (url : κ) : PeerSourceManager κ :=
  if url ∈ s.custom_trackers then
    match s.trackers.find? url with
    | none => { s with custom_trackers := s.custom_trackers.filter (· ≠ url) }
    | some trk =>
      if s.curr = some trk then (s.dismiss url trk).reselect
      else
        { s with
          custom_trackers := s.custom_trackers.filter (· ≠ url)
          deleted := s.deleted ++ [trk]
          trackers := s.trackers.erase url }
  else s

/-- Source: `PeerSourceManager::setTracker`. Kind: D -/
def setTracker (s : PeerSourceManager κ) (url : κ) : PeerSourceManager κ :=
  match s.trackers.find? url with
  | none => s
  | some trk =>
    if s.curr ≠ some trk then (s.stopCurr.switchTracker (some trk)).startTracker trk else s

/-- The current tracker is stopped and deleted. Source: `PeerSourceManager::restoreDefault`. Kind: D -/
def destroyCurr (s : PeerSourceManager κ) (url : κ) (t : ℕ) : PeerSourceManager κ :=
  { s.stopTracker t with
    curr := none
    trackers := s.trackers.erase url
    deleted := s.deleted ++ [t] }

/-- The first tracker of the map becomes the current one. Source:
`PeerSourceManager::restoreDefault`. Kind: D -/
def switchToFirst (s : PeerSourceManager κ) : PeerSourceManager κ :=
  match s.trackers.entries with
  | [] => s
  | (_, i) :: _ =>
    if s.started then (s.switchTracker (some i)).startCurr else s.switchTracker (some i)

/-- The loop body. Source: `PeerSourceManager::restoreDefault`. Kind: D -/
def dropCustom (s : PeerSourceManager κ) (url : κ) : PeerSourceManager κ :=
  match s.trackers.find? url with
  | none => s
  | some t =>
    if s.curr = some t then (s.destroyCurr url t).switchToFirst
    else { s with trackers := s.trackers.erase url, deleted := s.deleted ++ [t] }

/-- Source: `PeerSourceManager::restoreDefault`. Kind: D -/
def restoreDefault (s : PeerSourceManager κ) : PeerSourceManager κ :=
  { s.custom_trackers.foldl dropCustom s with custom_trackers := [] }

/-- Source: `PeerSourceManager::start`. Kind: D -/
def start (s : PeerSourceManager κ) : PeerSourceManager κ :=
  if s.started then s
  else
    let s := { s with started := true }
    match s.curr with
    | none => s.reselect
    | some i => s.startTracker i

/-- Source: `PeerSourceManager::stop`. Kind: D -/
def stop (s : PeerSourceManager κ) : PeerSourceManager κ :=
  if !s.started then s else { { s with started := false }.stopCurr with timer := none }

/-- Source: `PeerSourceManager::completed`. Kind: D -/
def completed (s : PeerSourceManager κ) : PeerSourceManager κ :=
  match s.curr with
  | none => s
  | some i => s.completedTracker i

/-- Source: `PeerSourceManager::manualUpdate`. Kind: D -/
def manualUpdate (s : PeerSourceManager κ) : PeerSourceManager κ :=
  match s.curr with
  | none => s
  | some i => { s with timer := none }.manualUpdateTracker i

/-- Source: `PeerSourceManager::updateCurrentManually`. Kind: D -/
def updateCurrentManually (s : PeerSourceManager κ) : PeerSourceManager κ :=
  match s.curr with
  | none => s
  | some i => s.manualUpdateTracker i

/-- How long to wait after so many failures. Source: `PeerSourceManager::onTrackerError`,
`FINAL_WAIT_TIME`, `LONGER_WAIT_TIME`, `INITIAL_WAIT_TIME`. Kind: D -/
def waitTime (failures : ℕ) : ℕ := if failures > 5 then 1800 else if failures > 2 then 300 else 30

/-- The tracker is asked again later. Source: `PeerSourceManager::onTrackerError`. Kind: D -/
def wait (s : PeerSourceManager κ) (i : ℕ) : PeerSourceManager κ :=
  { s.modify i fun t => { t with interval := waitTime (s.failureCount i) } with
    timer := some (waitTime (s.failureCount i)) }

/-- Source: `PeerSourceManager::onTrackerError`; `i` is the current tracker. Kind: D -/
def onTrackerError (s : PeerSourceManager κ) (i : ℕ) : PeerSourceManager κ :=
  let s := { s with failures := s.failures + 1 }
  if !s.started then s
  else match s.selectTracker with
    | none => s.wait i
    | some trk =>
      let s := (s.stopTracker i).switchTracker (some trk)
      if s.failureCount trk = 0 then s.startTracker trk else s.wait trk

/-- Source: `PeerSourceManager::onTrackerOK`; `i` is the current tracker. Kind: D -/
def onTrackerOK (s : PeerSourceManager κ) (i : ℕ) : PeerSourceManager κ :=
  { s with failures := 0, timer := if s.started then some (s.heap i).interval else s.timer }

/-- What happens. In a report the tracker's state becomes another one, and it may tell that a request
has succeeded or failed. Kind: D -/
inductive Action (κ : Type*)
  | addTracker (url : κ) (udp : Bool) (tier : ℤ)
  | removeTracker (url : κ)
  | setTracker (url : κ)
  | restoreDefault
  | start
  | stop
  | completed
  | manualUpdate
  | timeout
  | report (i : ℕ) (progress : Progress) (ok : Option Bool)
  | timedDelete (i : ℕ)

/-- One action. The timer is a single shot; only the current tracker's signals are connected.
Kind: D -/
def step (s : PeerSourceManager κ) : Action κ → PeerSourceManager κ
  | .addTracker url udp tier => s.addTracker url udp true tier
  | .removeTracker url => s.removeTracker url
  | .setTracker url => s.setTracker url
  | .restoreDefault => s.restoreDefault
  | .start => s.start
  | .stop => s.stop
  | .completed => s.completed
  | .manualUpdate => s.manualUpdate
  | .timeout => if s.timer = none then s else { s with timer := none }.updateCurrentManually
  | .report i progress ok =>
    if s.next ≤ i ∨ i ∈ s.deleted then s
    else
      let s := s.modify i fun t => { t with toProgress := progress }
      if s.curr ≠ some i then s
      else match ok with
        | none => s
        | some true => s.onTrackerOK i
        | some false => s.onTrackerError i
  | .timedDelete i =>
    if i ∈ s.dying then
      { s with dying := s.dying.filter (· ≠ i), deleted := s.deleted ++ [i] }
    else s

/-- The trackers of the torrent, each with its tier, and then the custom ones of the file. Source:
`PeerSourceManager::PeerSourceManager`. Kind: D -/
def construct (heap : ℕ → TrackerObject κ) (standard : List (κ × Bool × ℤ)) (custom : List (κ × Bool)) :
    PeerSourceManager κ :=
  custom.foldl (fun s x => s.addTracker x.1 x.2 true 1)
    (standard.foldl (fun s x => s.addTracker x.1 x.2.1 false x.2.2) { heap := heap })

/-! ### The selection -/

/-- The first is to be preferred: fewer failures, or as many and a lower tier. Kind: D -/
def Preferred (s : PeerSourceManager κ) (n t : ℕ) : Prop :=
  s.failureCount n < s.failureCount t ∨
    s.failureCount n = s.failureCount t ∧ s.getTier n ≤ s.getTier t

/-- Preference is transitive. Source: none: infrastructure. Kind: L -/
theorem Preferred.trans {s : PeerSourceManager κ} {a b c : ℕ} (h : s.Preferred a b)
    (h' : s.Preferred b c) : s.Preferred a c := by
  unfold Preferred at *
  omega

/-- What the loop has selected: one of the trackers seen, and none of them is better.
Source: `PeerSourceManager::selectTracker`. Kind: L -/
theorem foldl_better (s : PeerSourceManager κ) (l : List ℕ) (n : ℕ) :
    ∃ m, l.foldl s.better (some n) = some m ∧ m ∈ n :: l ∧ ∀ t ∈ n :: l, s.Preferred m t := by
  induction l generalizing n with
  | nil => exact ⟨n, rfl, List.mem_cons_self, by simp [Preferred]⟩
  | cons t l ih =>
    obtain ⟨w, hw, hmem, hpref⟩ : ∃ w, s.better (some n) t = some w ∧ (w = n ∨ w = t) ∧
        s.Preferred w n ∧ s.Preferred w t := by
      unfold better Preferred
      dsimp only
      split_ifs
      · exact ⟨t, rfl, .inr rfl, by omega, by omega⟩
      · exact ⟨t, rfl, .inr rfl, by omega, by omega⟩
      · exact ⟨n, rfl, .inl rfl, by omega, by omega⟩
      · exact ⟨n, rfl, .inl rfl, by omega, by omega⟩
    obtain ⟨m, hm, hin, hall⟩ := ih w
    refine ⟨m, by rw [List.foldl_cons, hw, hm], ?_, fun u hu => ?_⟩
    · rcases List.mem_cons.mp hin with rfl | hin
      · rcases hmem with rfl | rfl
        · exact List.mem_cons_self
        · exact List.mem_cons_of_mem _ List.mem_cons_self
      · exact List.mem_cons_of_mem _ (List.mem_cons_of_mem _ hin)
    · have hmw := hall w List.mem_cons_self
      rcases List.mem_cons.mp hu with rfl | hu
      · exact hmw.trans hpref.1
      · rcases List.mem_cons.mp hu with rfl | hu
        · exact hmw.trans hpref.2
        · exact hall u (List.mem_cons_of_mem _ hu)

/-- **The tracker that is selected** is one of the map; it has the fewest failures, and among those
with as few the lowest tier. None is selected exactly when there is none.
Source: `PeerSourceManager::selectTracker`. Kind: P -/
theorem selectTracker_min (s : PeerSourceManager κ) :
    (s.selectTracker = none ↔ s.trackers.size = 0) ∧
    ∀ n, s.selectTracker = some n → (∃ k, (k, n) ∈ s.trackers.entries) ∧
      ∀ k t, (k, t) ∈ s.trackers.entries → s.Preferred n t := by
  unfold selectTracker SortedMap.size
  cases hl : s.trackers.entries with
  | nil => simp
  | cons x l =>
    obtain ⟨m, hm, hin, hall⟩ := foldl_better s (l.map Prod.snd) x.2
    have hfold : ((x :: l).map Prod.snd).foldl s.better none = some m := hm
    rw [hfold]
    refine ⟨by simp, fun n hn => ?_⟩
    obtain rfl := Option.some_inj.mp hn
    rw [← List.map_cons] at hin hall
    refine ⟨?_, fun k t ht => hall t (List.mem_map.mpr ⟨(k, t), ht, rfl⟩)⟩
    obtain ⟨⟨k, i⟩, hki, rfl⟩ := List.mem_map.mp hin
    exact ⟨k, hki⟩

/-! ### What a step leaves as it was -/

/-- Apart from the state of the trackers, the current one, the timer and the announcements, nothing
differs. Kind: D -/
structure Same (s s' : PeerSourceManager κ) : Prop where
  trackers : s'.trackers = s.trackers
  custom_trackers : s'.custom_trackers = s.custom_trackers
  next : s'.next = s.next
  dying : s'.dying = s.dying
  deleted : s'.deleted = s.deleted
  started : s'.started = s.started
  url : ∀ i, (s'.heap i).url = (s.heap i).url

/-- Nothing changed. Source: none: infrastructure. Kind: L -/
theorem Same.refl (s : PeerSourceManager κ) : Same s s :=
  ⟨rfl, rfl, rfl, rfl, rfl, rfl, fun _ => rfl⟩

/-- Two changes that keep the trackers keep them together. Source: none: infrastructure. Kind: L -/
theorem Same.trans {s s' s'' : PeerSourceManager κ} (h : Same s s') (h' : Same s' s'') :
    Same s s'' :=
  ⟨h'.trackers.trans h.trackers, h'.custom_trackers.trans h.custom_trackers, h'.next.trans h.next,
    h'.dying.trans h.dying, h'.deleted.trans h.deleted, h'.started.trans h.started,
    fun i => (h'.url i).trans (h.url i)⟩

/-- A change of one object that keeps its URL. Source: `torrent/peersourcemanager.cpp`,
`torrent/httptracker.cpp`. Kind: L -/
theorem same_modify (s : PeerSourceManager κ) (i : ℕ) {f : TrackerObject κ → TrackerObject κ}
    (hf : ∀ t, (f t).url = t.url) : Same s (s.modify i f) := by
  refine ⟨rfl, rfl, rfl, rfl, rfl, rfl, fun j => ?_⟩
  by_cases hj : j = i
  · subst hj
    simp [modify, hf]
  · simp [modify, Function.update_of_ne hj]

/-- A request keeps the trackers. Source: `HTTPTracker::doRequest`, `UDPTracker::doRequest`.
Kind: L -/
theorem same_doRequest (s : PeerSourceManager κ) (i : ℕ) (e : Event) : Same s (s.doRequest i e) := by
  have h := same_modify s i (f := fun t => { t with event := e }) fun _ => rfl
  exact ⟨rfl, rfl, rfl, rfl, rfl, rfl, h.url⟩

/-- Starting a tracker keeps the trackers. Source: `HTTPTracker::start`, `UDPTracker::start`.
Kind: L -/
theorem same_startTracker (s : PeerSourceManager κ) (i : ℕ) : Same s (s.startTracker i) :=
  same_doRequest ..

/-- Stopping a tracker keeps the trackers. Source: `HTTPTracker::stop`, `UDPTracker::stop`.
Kind: L -/
theorem same_stopTracker (s : PeerSourceManager κ) (i : ℕ) : Same s (s.stopTracker i) := by
  unfold stopTracker
  split_ifs
  · exact .refl s
  · exact (same_doRequest s i .STOPPED).trans (same_modify _ i fun _ => rfl)

/-- Another current tracker: the map stays. Source: `PeerSourceManager::switchTracker`. Kind: L -/
theorem same_switchTracker (s : PeerSourceManager κ) (trk : Option ℕ) :
    Same s (s.switchTracker trk) := by
  unfold switchTracker
  split_ifs
  · exact .refl s
  · exact ⟨rfl, rfl, rfl, rfl, rfl, rfl, fun _ => rfl⟩

/-- Starting the current tracker keeps the trackers. Source: `torrent/peersourcemanager.cpp`,
`torrent/httptracker.cpp`. Kind: L -/
theorem same_startCurr (s : PeerSourceManager κ) : Same s s.startCurr := by
  unfold startCurr
  split
  · exact .refl s
  · exact same_doRequest ..

/-- Stopping the current tracker keeps the trackers. Source: `torrent/peersourcemanager.cpp`,
`torrent/httptracker.cpp`. Kind: L -/
theorem same_stopCurr (s : PeerSourceManager κ) : Same s s.stopCurr := by
  unfold stopCurr
  split
  · exact .refl s
  · exact same_stopTracker ..

/-- A tracker waits after a failure: the map stays. Source: `PeerSourceManager::onTrackerError`.
Kind: L -/
theorem same_wait (s : PeerSourceManager κ) (i : ℕ) : Same s (s.wait i) := by
  have h := same_modify s i (f := fun t => { t with interval := waitTime (s.failureCount i) })
    fun _ => rfl
  exact ⟨rfl, rfl, rfl, rfl, rfl, rfl, h.url⟩

/-- A failure keeps the map of trackers. Source: `PeerSourceManager::onTrackerError`. Kind: L -/
theorem same_onTrackerError (s : PeerSourceManager κ) (i : ℕ) : Same s (s.onTrackerError i) := by
  have hcount : Same s { s with failures := s.failures + 1 } :=
    ⟨rfl, rfl, rfl, rfl, rfl, rfl, fun _ => rfl⟩
  refine hcount.trans ?_
  unfold onTrackerError
  dsimp only
  split_ifs
  · exact .refl _
  split
  case h_1 => exact same_wait ..
  case h_2 trk _ =>
    refine ((same_stopTracker _ i).trans (same_switchTracker _ (some trk))).trans ?_
    split_ifs
    · exact same_doRequest ..
    · exact same_wait ..

/-! ### Every run -/

/-- The trackers of the map are there, each under its URL, and the timer runs only while the manager
is started. Kind: D -/
structure Kept (s : PeerSourceManager κ) : Prop where
  keys : ∀ k i, (k, i) ∈ s.trackers.entries →
    i < s.next ∧ (s.heap i).url = k ∧ i ∉ s.dying ∧ i ∉ s.deleted
  known : ∀ i, i ∈ s.dying ∨ i ∈ s.deleted → i < s.next
  timed : s.timer ≠ none → s.started = true

/-- Besides, the custom trackers are in the map. Kind: D -/
structure Base (s : PeerSourceManager κ) : Prop extends Kept s where
  custom : ∀ url ∈ s.custom_trackers, url ∈ s.trackers.keySet

/-- Two URLs do not share a tracker. Source: `torrent/peersourcemanager.cpp`,
`torrent/httptracker.cpp`. Kind: L -/
theorem Kept.inj {s : PeerSourceManager κ} (h : s.Kept) {k k' : κ} {i : ℕ}
    (hk : (k, i) ∈ s.trackers.entries) (hk' : (k', i) ∈ s.trackers.entries) : k = k' :=
  (h.keys k i hk).2.1.symm.trans (h.keys k' i hk').2.1

/-- Same trackers are as well kept, if the timer is not set without a start.
Source: `torrent/peersourcemanager.cpp`, `torrent/httptracker.cpp`. Kind: L -/
theorem Kept.of_same {s s' : PeerSourceManager κ} (h : s.Kept) (hs : Same s s')
    (ht : s'.timer ≠ none → s.timer ≠ none ∨ s.started = true) : s'.Kept := by
  refine ⟨fun k i hk => ?_, fun i hi => ?_, fun hne => ?_⟩
  · rw [hs.trackers] at hk
    rw [hs.next, hs.url, hs.dying, hs.deleted]
    exact h.keys k i hk
  · rw [hs.next]
    exact h.known i (by rwa [hs.dying, hs.deleted] at hi)
  · rw [hs.started]
    exact (ht hne).elim h.timed id

/-- The base is left alone by what keeps the trackers, if the timer is not set without a start.
Source: `torrent/peersourcemanager.cpp`, `torrent/httptracker.cpp`. Kind: L -/
theorem Base.of_same {s s' : PeerSourceManager κ} (h : s.Base) (hs : Same s s')
    (ht : s'.timer ≠ none → s.timer ≠ none ∨ s.started = true) : s'.Base := by
  refine ⟨h.toKept.of_same hs ht, fun url hurl => ?_⟩
  rw [hs.trackers]
  exact h.custom url (hs.custom_trackers ▸ hurl)

/-- A tracker is taken out of the map, and is deleted now or later.
Source: `torrent/peersourcemanager.cpp`, `torrent/httptracker.cpp`. Kind: L -/
theorem Kept.erase {s s' : PeerSourceManager κ} (h : s.Kept) {url : κ} {t : ℕ}
    (ht : (url, t) ∈ s.trackers.entries) (htr : s'.trackers = s.trackers.erase url)
    (hnext : s'.next = s.next) (hurl : ∀ i, (s'.heap i).url = (s.heap i).url)
    (hdying : ∀ i, i ∈ s'.dying → i ∈ s.dying ∨ i = t)
    (hdeleted : ∀ i, i ∈ s'.deleted → i ∈ s.deleted ∨ i = t)
    (htimed : s'.timer ≠ none → s'.started = true) : s'.Kept := by
  have hlt := (h.keys url t ht).1
  refine ⟨fun k i hk => ?_, fun i hi => ?_, htimed⟩
  · rw [htr, SortedMap.mem_erase_iff] at hk
    obtain ⟨h1, h2, h3, h4⟩ := h.keys k i hk.1
    have hne : i ≠ t := by
      rintro rfl
      exact hk.2 (h.inj hk.1 ht)
    rw [hnext, hurl]
    exact ⟨h1, h2, fun hi => (hdying i hi).elim h3 hne, fun hi => (hdeleted i hi).elim h4 hne⟩
  · rw [hnext]
    rcases hi with hi | hi
    · exact (hdying i hi).elim (fun h' => h.known i (.inl h')) fun h' => h' ▸ hlt
    · exact (hdeleted i hi).elim (fun h' => h.known i (.inr h')) fun h' => h' ▸ hlt

/-- A tracker leaves the map, and its name the custom ones. Source: `torrent/peersourcemanager.cpp`,
`torrent/httptracker.cpp`. Kind: L -/
theorem Base.erase {s s' : PeerSourceManager κ} (h : s.Base) (url : κ) (hs' : s'.Kept)
    (htr : s'.trackers = s.trackers.erase url)
    (hcustom : s'.custom_trackers = s.custom_trackers.filter (· ≠ url)) : s'.Base := by
  refine ⟨hs', fun u hu => ?_⟩
  rw [hcustom] at hu
  obtain ⟨hmem, hne⟩ := List.mem_filter.mp hu
  rw [htr, SortedMap.keySet_erase]
  exact Finset.mem_erase.mpr ⟨of_decide_eq_true hne, h.custom u hmem⟩

/-- The current tracker is one of the map. Kind: D -/
def Held (s : PeerSourceManager κ) : Prop :=
  ∀ i, s.curr = some i → ∃ k, (k, i) ∈ s.trackers.entries

/-- No tracker was asked to announce that it starts while the manager was stopped. Kind: D -/
def Quiet (s : PeerSourceManager κ) : Prop :=
  ∀ a ∈ s.announced, a.event = .STARTED → a.started = true

/-- The two together. Kind: D -/
def Good (s : PeerSourceManager κ) : Prop := s.Held ∧ s.Quiet

/-- A STARTED is quiet only after a start. Source: `HTTPTracker::doRequest`,
`UDPTracker::doRequest`. Kind: L -/
theorem quiet_doRequest {s : PeerSourceManager κ} {i : ℕ} {e : Event} :
    (s.doRequest i e).Quiet ↔ s.Quiet ∧ (e = .STARTED → s.started = true) := by
  change (∀ a ∈ s.announced ++ [⟨i, e, s.started⟩], _) ↔ _
  rw [List.forall_mem_append]
  exact and_congr_right fun _ => by simp

/-- Starting a tracker is quiet only after a start. Source: `HTTPTracker::start`,
`UDPTracker::start`. Kind: L -/
theorem quiet_startTracker {s : PeerSourceManager κ} {i : ℕ} :
    (s.startTracker i).Quiet ↔ s.Quiet ∧ s.started = true := by
  rw [startTracker, quiet_doRequest]
  simp

/-- Stopping a tracker is quiet. Source: `HTTPTracker::stop`, `UDPTracker::stop`. Kind: L -/
theorem quiet_stopTracker {s : PeerSourceManager κ} {i : ℕ} : (s.stopTracker i).Quiet ↔ s.Quiet := by
  unfold stopTracker
  split_ifs
  · exact Iff.rfl
  · change (s.doRequest i .STOPPED).Quiet ↔ _
    rw [quiet_doRequest]
    simp

/-- Switching is quiet. Source: `PeerSourceManager::switchTracker`. Kind: L -/
theorem quiet_switchTracker {s : PeerSourceManager κ} {trk : Option ℕ} :
    (s.switchTracker trk).Quiet ↔ s.Quiet := by
  unfold switchTracker
  split_ifs <;> exact Iff.rfl

/-- Stopping the current tracker is quiet. Source: `torrent/peersourcemanager.cpp`,
`torrent/httptracker.cpp`. Kind: L -/
theorem quiet_stopCurr {s : PeerSourceManager κ} : s.stopCurr.Quiet ↔ s.Quiet := by
  unfold stopCurr
  split
  · exact Iff.rfl
  · exact quiet_stopTracker

/-- The current tracker is the one switched to. Source: `PeerSourceManager::switchTracker`.
Kind: L -/
@[simp] theorem curr_switchTracker (s : PeerSourceManager κ) (trk : Option ℕ) :
    (s.switchTracker trk).curr = trk := by
  unfold switchTracker
  split_ifs with h
  · exact h
  · rfl

/-- Switching leaves the timer. Source: `PeerSourceManager::switchTracker`. Kind: L -/
@[simp] theorem timer_switchTracker (s : PeerSourceManager κ) (trk : Option ℕ) :
    (s.switchTracker trk).timer = s.timer := by
  unfold switchTracker
  split_ifs <;> rfl

/-- Stopping leaves the current tracker current. Source: `HTTPTracker::stop`, `UDPTracker::stop`.
Kind: L -/
@[simp] theorem curr_stopTracker (s : PeerSourceManager κ) (i : ℕ) :
    (s.stopTracker i).curr = s.curr := by
  unfold stopTracker
  split_ifs <;> rfl

/-- Stopping a tracker leaves the timer. Source: `HTTPTracker::stop`, `UDPTracker::stop`. Kind: L -/
@[simp] theorem timer_stopTracker (s : PeerSourceManager κ) (i : ℕ) :
    (s.stopTracker i).timer = s.timer := by
  unfold stopTracker
  split_ifs <;> rfl

/-- The stopped tracker stays current. Source: `torrent/peersourcemanager.cpp`,
`torrent/httptracker.cpp`. Kind: L -/
@[simp] theorem curr_stopCurr (s : PeerSourceManager κ) : s.stopCurr.curr = s.curr := by
  unfold stopCurr
  split
  · rfl
  · exact curr_stopTracker ..

/-- Stopping the current tracker leaves the timer. Source: `torrent/peersourcemanager.cpp`,
`torrent/httptracker.cpp`. Kind: L -/
@[simp] theorem timer_stopCurr (s : PeerSourceManager κ) : s.stopCurr.timer = s.timer := by
  unfold stopCurr
  split
  · rfl
  · exact timer_stopTracker ..

/-- The started tracker stays current. Source: `torrent/peersourcemanager.cpp`,
`torrent/httptracker.cpp`. Kind: L -/
@[simp] theorem curr_startCurr (s : PeerSourceManager κ) : s.startCurr.curr = s.curr := by
  unfold startCurr
  split <;> rfl

/-- Starting the current tracker leaves the timer. Source: `torrent/peersourcemanager.cpp`,
`torrent/httptracker.cpp`. Kind: L -/
@[simp] theorem timer_startCurr (s : PeerSourceManager κ) : s.startCurr.timer = s.timer := by
  unfold startCurr
  split <;> rfl

/-- Selecting again keeps the trackers. Source: `PeerSourceManager::removeTracker`,
`PeerSourceManager::start`. Kind: L -/
theorem same_reselect (s : PeerSourceManager κ) : Same s s.reselect := by
  unfold reselect
  split_ifs
  · exact (same_switchTracker ..).trans (same_startCurr _)
  · exact .refl s

/-- Selecting again leaves the timer. Source: `PeerSourceManager::removeTracker`,
`PeerSourceManager::start`. Kind: L -/
@[simp] theorem timer_reselect (s : PeerSourceManager κ) : s.reselect.timer = s.timer := by
  unfold reselect
  split_ifs
  · rw [timer_startCurr, timer_switchTracker]
  · rfl

/-- Selecting again keeps the base. Source: `PeerSourceManager::removeTracker`,
`PeerSourceManager::start`. Kind: L -/
theorem Base.reselect {s : PeerSourceManager κ} (h : s.Base) : s.reselect.Base :=
  h.of_same (same_reselect s) fun ht => .inl (timer_reselect s ▸ ht)

/-- The tracker that is selected is in the map, and is started.
Source: `PeerSourceManager::removeTracker`, `PeerSourceManager::start`. Kind: L -/
theorem held_reselect {s : PeerSourceManager κ} (hpos : 0 < s.trackers.size) :
    s.reselect.Held ∧ (s.reselect.Quiet ↔ s.Quiet ∧ s.started = true) := by
  obtain ⟨hnone, hsome⟩ := s.selectTracker_min
  obtain ⟨n, hn⟩ : ∃ n, s.selectTracker = some n :=
    Option.ne_none_iff_exists'.mp fun h => hpos.ne' (hnone.mp h)
  have hsame := (same_switchTracker s s.selectTracker).trans (same_startCurr _)
  rw [reselect, if_pos hpos]
  constructor
  · intro i hi
    rw [curr_startCurr, curr_switchTracker, hn, Option.some_inj] at hi
    rw [hsame.trackers]
    exact hi ▸ (hsome n hn).1
  · have hcurr : (s.switchTracker s.selectTracker).curr = some n := by rw [curr_switchTracker, hn]
    rw [startCurr, hcurr]
    change ((s.switchTracker s.selectTracker).startTracker n).Quiet ↔ _
    rw [quiet_startTracker, quiet_switchTracker, (same_switchTracker ..).started]

/-! ### The steps -/

/-- A new tracker keeps the base. Source: `PeerSourceManager::addTracker`. Kind: L -/
theorem base_addTracker {s : PeerSourceManager κ} (h : s.Base) (url : κ) (udp custom : Bool)
    (tier : ℤ) : (s.addTracker url udp custom tier).Base := by
  unfold addTracker
  split_ifs with hurl hc
  · exact h
  all_goals
    have hkeys : ∀ k i, (k, i) ∈ (s.trackers.put url s.next).entries →
        i < s.next + 1 ∧ (Function.update s.heap s.next (newTracker url udp tier) i).url = k ∧
          i ∉ s.dying ∧ i ∉ s.deleted := by
      intro k i hk
      rcases SortedMap.mem_put.mp hk with heq | ⟨hk, -⟩
      · obtain ⟨rfl, rfl⟩ := Prod.mk.inj heq
        refine ⟨Nat.lt_succ_self _, by simp [newTracker], fun hi => ?_, fun hi => ?_⟩
        · exact lt_irrefl _ (h.known _ (.inl hi))
        · exact lt_irrefl _ (h.known _ (.inr hi))
      · obtain ⟨h1, h2, h3, h4⟩ := h.keys k i hk
        refine ⟨h1.trans (Nat.lt_succ_self _), ?_, h3, h4⟩
        rw [Function.update_of_ne h1.ne]
        exact h2
  · refine ⟨⟨hkeys, fun i hi => (h.known i hi).trans (Nat.lt_succ_self _), h.timed⟩, fun u hu => ?_⟩
    rw [SortedMap.keySet_put, Finset.mem_insert]
    rcases List.mem_append.mp hu with hu | hu
    · exact .inr (h.custom u hu)
    · exact .inl (List.mem_singleton.mp hu)
  · refine ⟨⟨hkeys, fun i hi => (h.known i hi).trans (Nat.lt_succ_self _), h.timed⟩, fun u hu => ?_⟩
    rw [SortedMap.keySet_put]
    exact Finset.mem_insert_of_mem (h.custom u hu)

/-- A new tracker keeps a good state good. Source: `PeerSourceManager::addTracker`. Kind: L -/
theorem good_addTracker {s : PeerSourceManager κ} (h : s.Good) (url : κ) (udp custom : Bool)
    (tier : ℤ) : (s.addTracker url udp custom tier).Good := by
  unfold addTracker
  split_ifs with hurl
  · exact h
  all_goals
    refine ⟨fun i hi => ?_, h.2⟩
    obtain ⟨k, hk⟩ := h.1 i hi
    refine ⟨k, SortedMap.mem_put.mpr (.inr ⟨hk, ?_⟩)⟩
    rintro rfl
    exact hurl (SortedMap.mem_keySet.mpr ⟨i, hk⟩)

/-- The current tracker stays in the map when another one leaves it.
Source: `torrent/peersourcemanager.cpp`, `torrent/httptracker.cpp`. Kind: L -/
theorem held_erase {s : PeerSourceManager κ} (h : s.Held) {url : κ} {trk : ℕ}
    (htrk : (url, trk) ∈ s.trackers.entries) (hcurr : s.curr ≠ some trk) {i : ℕ}
    (hi : s.curr = some i) : ∃ k, (k, i) ∈ (s.trackers.erase url).entries := by
  obtain ⟨k, hk⟩ := h i hi
  refine ⟨k, SortedMap.mem_erase_iff.mpr ⟨hk, ?_⟩⟩
  rintro rfl
  exact hcurr (hi.trans (congrArg some (SortedMap.eq_of_mem hk htrk)))

/-- A tracker that is dismissed leaves the base. Source: `PeerSourceManager::removeTracker`.
Kind: L -/
theorem base_dismiss {s : PeerSourceManager κ} (h : s.Base) {url : κ} {trk : ℕ}
    (htrk : (url, trk) ∈ s.trackers.entries) : (s.dismiss url trk).Base := by
  have hsame := same_stopTracker s trk
  refine h.erase url (h.toKept.erase htrk rfl hsame.next hsame.url (fun i hi => ?_)
    (fun i hi => .inl (hsame.deleted ▸ hi)) fun ht => ?_) rfl rfl
  · simpa [dismiss] using hi
  exact hsame.started.trans (h.timed (timer_stopTracker s trk ▸ ht))

/-- Removing a tracker: the current one is replaced by the one selected, which is started whether or
not the manager is; when it was the only one, the manager keeps pointing to it.
Source: `PeerSourceManager::removeTracker`. Kind: L -/
theorem removeTracker_spec {s : PeerSourceManager κ} (h : s.Base) (url : κ) :
    (s.removeTracker url).Base ∧ (s.Good → ((s.removeTracker url).Good ↔
      (url ∈ s.custom_trackers → s.curr = s.trackers.find? url →
        1 < s.trackers.size ∧ s.started = true))) := by
  unfold removeTracker
  by_cases hurl : url ∈ s.custom_trackers
  case neg =>
    rw [if_neg hurl]
    exact ⟨h, fun hg => by simp [hg, hurl]⟩
  obtain ⟨trk, htrk⟩ := SortedMap.mem_keySet.mp (h.custom url hurl)
  have hfind := SortedMap.find?_eq_some_iff.mpr htrk
  rw [if_pos hurl, hfind]
  dsimp only
  split_ifs with hcurr
  · have hbase := base_dismiss h htrk
    have hsame := same_stopTracker s trk
    have hsize : (s.dismiss url trk).trackers.size + 1 = s.trackers.size :=
      SortedMap.size_erase (SortedMap.mem_keySet.mpr ⟨trk, htrk⟩)
    have hquiet : (s.dismiss url trk).Quiet ↔ s.Quiet := quiet_stopTracker
    refine ⟨hbase.reselect, fun hg => ?_⟩
    by_cases hpos : 0 < (s.dismiss url trk).trackers.size
    · obtain ⟨hheld, hq⟩ := held_reselect hpos
      refine ⟨fun hgood _ _ => ⟨by omega, ?_⟩, fun hok => ⟨hheld, hq.mpr ⟨hquiet.mpr hg.2, ?_⟩⟩⟩
      · exact hsame.started.symm.trans (hq.mp hgood.2).2
      · exact hsame.started.trans (hok hurl hcurr).2
    · -- the manager points to the tracker that it has removed
      rw [reselect, if_neg hpos]
      refine ⟨fun hgood => absurd (hgood.1 trk ((curr_stopTracker ..).trans hcurr)) ?_, fun hok => ?_⟩
      · rintro ⟨k, hk⟩
        obtain ⟨hk, hne⟩ := SortedMap.mem_erase_iff.mp hk
        exact hne (h.inj hk htrk)
      · have := (hok hurl hcurr).1
        omega
  · refine ⟨h.erase url ?_ rfl rfl, fun hg => ⟨fun _ _ hc => absurd hc hcurr, fun _ =>
      ⟨fun i hi => held_erase hg.1 htrk hcurr hi, hg.2⟩⟩⟩
    exact h.toKept.erase htrk rfl rfl (fun _ => rfl) (fun i hi => .inl hi) (by simp) h.timed

/-- Choosing a tracker makes it announce whether or not the manager is started.
Source: `PeerSourceManager::setTracker`. Kind: L -/
theorem setTracker_spec {s : PeerSourceManager κ} (h : s.Base) (url : κ) :
    (s.setTracker url).Base ∧ (s.Good → ((s.setTracker url).Good ↔
      ∀ i, s.trackers.find? url = some i → s.curr ≠ some i → s.started = true)) := by
  unfold setTracker
  split
  case h_1 hnone =>
    exact ⟨h, fun hg => by simp [hg, hnone]⟩
  case h_2 trk htrk =>
    split_ifs with hcurr
    case neg =>
      exact ⟨h, fun hg => ⟨fun _ i hi hc => absurd (Option.some_inj.mp (htrk.symm.trans hi) ▸
        not_not.mp hcurr) hc, fun _ => hg⟩⟩
    have hsame := (same_stopCurr s).trans (same_switchTracker _ (some trk))
    have hall := hsame.trans (same_startTracker _ trk)
    have htimer : ((s.stopCurr.switchTracker (some trk)).startTracker trk).timer = s.timer :=
      (timer_switchTracker ..).trans (timer_stopCurr s)
    refine ⟨h.of_same hall fun ht => .inl (htimer ▸ ht), fun hg => ?_⟩
    · have hquiet : ((s.stopCurr.switchTracker (some trk)).startTracker trk).Quiet ↔
          s.Quiet ∧ s.started = true := by
        rw [quiet_startTracker, quiet_switchTracker, quiet_stopCurr, hsame.started]
      constructor
      · exact fun hgood _ _ _ => (hquiet.mp hgood.2).2
      · intro hok
        refine ⟨fun i hi => ?_, hquiet.mpr ⟨hg.2, hok trk htrk hcurr⟩⟩
        have hi : (s.stopCurr.switchTracker (some trk)).curr = some i := hi
        rw [curr_switchTracker, Option.some_inj] at hi
        rw [hall.trackers, ← hi]
        exact ⟨url, SortedMap.find?_eq_some_iff.mp htrk⟩

/-- A current tracker that is destroyed leaves the map in order.
Source: `PeerSourceManager::restoreDefault`. Kind: L -/
theorem kept_destroyCurr {s : PeerSourceManager κ} (h : s.Kept) {url : κ} {t : ℕ}
    (ht : (url, t) ∈ s.trackers.entries) : (s.destroyCurr url t).Kept := by
  have hsame := same_stopTracker s t
  refine h.erase ht rfl hsame.next hsame.url (fun i hi => .inl (hsame.dying ▸ hi)) (fun i hi => ?_)
    fun hne => ?_
  · simpa [destroyCurr] using hi
  · exact hsame.started.trans (h.timed (timer_stopTracker s t ▸ hne))

/-- The first of the map is started only if the manager is.
Source: `PeerSourceManager::restoreDefault`. Kind: L -/
theorem switchToFirst_spec {s : PeerSourceManager κ} (h : s.Kept) :
    s.switchToFirst.Kept ∧ (s.Good → s.switchToFirst.Good) := by
  unfold switchToFirst
  split
  case h_1 => exact ⟨h, id⟩
  case h_2 k i rest hcons =>
    have hmem : (k, i) ∈ s.trackers.entries := by
      rw [hcons]
      exact List.mem_cons_self
    have hsw := same_switchTracker s (some i)
    have hheld : (s.switchTracker (some i)).Held := by
      intro j hj
      rw [curr_switchTracker, Option.some_inj] at hj
      rw [hsw.trackers]
      exact ⟨k, hj ▸ hmem⟩
    split_ifs with hstarted
    · have hstart := same_startCurr (s.switchTracker (some i))
      refine ⟨h.of_same (hsw.trans hstart) fun ht => .inl ?_, fun hg => ⟨fun j hj => ?_, ?_⟩⟩
      · rwa [timer_startCurr, timer_switchTracker] at ht
      · rw [curr_startCurr] at hj
        rw [hstart.trackers]
        exact hheld j hj
      · rw [startCurr, curr_switchTracker]
        exact quiet_startTracker.mpr
          ⟨quiet_switchTracker.mpr hg.2, hsw.started.trans hstarted⟩
    · refine ⟨h.of_same hsw fun ht => .inl ?_, fun hg => ⟨hheld, quiet_switchTracker.mpr hg.2⟩⟩
      rwa [timer_switchTracker] at ht

/-- One custom tracker goes. Source: `PeerSourceManager::restoreDefault`. Kind: L -/
theorem dropCustom_spec {s : PeerSourceManager κ} (h : s.Kept) (url : κ) :
    (s.dropCustom url).Kept ∧ (s.Good → (s.dropCustom url).Good) := by
  unfold dropCustom
  split
  case h_1 => exact ⟨h, id⟩
  case h_2 t ht =>
    rw [SortedMap.find?_eq_some_iff] at ht
    split_ifs with hcurr
    · obtain ⟨hkept, hgood⟩ := switchToFirst_spec (kept_destroyCurr h ht)
      exact ⟨hkept, fun hg => hgood
        ⟨fun i hi => absurd hi (Option.some_ne_none i).symm, quiet_stopTracker.mpr hg.2⟩⟩
    · exact ⟨h.erase ht rfl rfl (fun _ => rfl) (fun i hi => .inl hi) (by simp) h.timed,
        fun hg => ⟨fun i hi => held_erase hg.1 ht hcurr hi, hg.2⟩⟩

/-- Restoring the default trackers. Source: `PeerSourceManager::restoreDefault`. Kind: L -/
theorem restoreDefault_spec {s : PeerSourceManager κ} (h : s.Kept) :
    s.restoreDefault.Base ∧ (s.Good → s.restoreDefault.Good) := by
  have hgen : ∀ (urls : List κ) (s : PeerSourceManager κ), s.Kept →
      (urls.foldl dropCustom s).Kept ∧ (s.Good → (urls.foldl dropCustom s).Good) := by
    intro urls
    induction urls with
    | nil => exact fun s h => ⟨h, id⟩
    | cons url urls ih =>
      intro s h
      obtain ⟨hkept, hgood⟩ := dropCustom_spec h url
      obtain ⟨hkept', hgood'⟩ := ih _ hkept
      exact ⟨hkept', hgood' ∘ hgood⟩
  obtain ⟨hkept, hgood⟩ := hgen s.custom_trackers s h
  refine ⟨⟨⟨hkept.keys, hkept.known, hkept.timed⟩, ?_⟩, hgood⟩
  exact fun url hurl => absurd hurl List.not_mem_nil

/-- Starting. Source: `torrent/peersourcemanager.cpp`, `torrent/httptracker.cpp`. Kind: L -/
theorem start_spec {s : PeerSourceManager κ} (h : s.Base) :
    s.start.Base ∧ (s.Good → s.start.Good) := by
  unfold start
  split_ifs with hstarted
  · exact ⟨h, id⟩
  have hbase : ({ s with started := true } : PeerSourceManager κ).Base :=
    ⟨⟨h.keys, h.known, fun _ => rfl⟩, h.custom⟩
  dsimp only
  split
  case h_1 hcurr =>
    refine ⟨hbase.reselect, fun hg => ?_⟩
    by_cases hpos : 0 < ({ s with started := true } : PeerSourceManager κ).trackers.size
    · obtain ⟨hheld, hq⟩ := held_reselect hpos
      exact ⟨hheld, hq.mpr ⟨hg.2, rfl⟩⟩
    · rw [reselect, if_neg hpos]
      exact hg
  case h_2 i hcurr =>
    refine ⟨hbase.of_same (same_startTracker _ i) fun ht => .inl ht, fun hg => ⟨hg.1, ?_⟩⟩
    exact quiet_startTracker.mpr ⟨hg.2, rfl⟩

/-- Stopping. Source: `PeerSourceManager::stop`. Kind: L -/
theorem stop_spec {s : PeerSourceManager κ} (h : s.Base) : s.stop.Base ∧ (s.Good → s.stop.Good) := by
  unfold stop
  split_ifs with hstarted
  · exact ⟨h, id⟩
  have hsame := same_stopCurr { s with started := false }
  have hbase : ({ s with started := false, timer := none } : PeerSourceManager κ).Base :=
    ⟨⟨h.keys, h.known, fun ht => absurd rfl ht⟩, h.custom⟩
  refine ⟨hbase.of_same ⟨hsame.trackers, hsame.custom_trackers, hsame.next, hsame.dying,
    hsame.deleted, hsame.started, hsame.url⟩ fun ht => absurd rfl ht, fun hg => ⟨fun i hi => ?_, ?_⟩⟩
  · obtain ⟨k, hk⟩ := hg.1 i ((curr_stopCurr { s with started := false }).symm.trans hi)
    exact ⟨k, hsame.trackers.symm ▸ hk⟩
  · exact (quiet_stopCurr (s := { s with started := false })).mpr hg.2

/-- The torrent is complete. Source: `PeerSourceManager::completed`. Kind: L -/
theorem completed_spec {s : PeerSourceManager κ} (h : s.Base) :
    s.completed.Base ∧ (s.Good → s.completed.Good) := by
  unfold completed
  split
  case h_1 => exact ⟨h, id⟩
  case h_2 i _ =>
    have hsame := (same_doRequest s i .COMPLETED).trans (same_modify _ i
      (f := fun t => if t.udp then t else { t with event := .NONE }) fun t => by split_ifs <;> rfl)
    exact ⟨h.of_same hsame fun ht => .inl ht, fun hg => ⟨hg.1, quiet_doRequest.mpr ⟨hg.2, by simp⟩⟩⟩

/-- A manual update of one tracker, and exactly when it keeps a good state good.
Source: `HTTPTracker::manualUpdate`, `UDPTracker::manualUpdate`. Kind: L -/
theorem manualUpdateTracker_spec {s : PeerSourceManager κ} (h : s.Base) (i : ℕ) :
    (s.manualUpdateTracker i).Base ∧ (s.Good → ((s.manualUpdateTracker i).Good ↔
      s.started = true ∨ (s.heap i).started = true ∧ (s.heap i).event ≠ .STARTED)) := by
  refine ⟨h.of_same (same_doRequest ..) fun ht => .inl ht, fun hg => ?_⟩
  have hheld : (s.manualUpdateTracker i).Held := hg.1
  rw [Good, and_iff_right hheld, manualUpdateTracker, quiet_doRequest, and_iff_right hg.2]
  cases hstarted : (s.heap i).started <;> simp [or_iff_not_imp_right]

/-- A manual update of the current tracker, and exactly when it keeps a good state good.
Source: `PeerSourceManager::manualUpdate`. Kind: L -/
theorem manualUpdate_spec {s : PeerSourceManager κ} (h : s.Base) :
    s.manualUpdate.Base ∧ (s.Good → (s.manualUpdate.Good ↔ ∀ i, s.curr = some i →
      s.started = true ∨ (s.heap i).started = true ∧ (s.heap i).event ≠ .STARTED)) := by
  unfold manualUpdate
  split
  case h_1 hnone => exact ⟨h, fun hg => by simp [hg, hnone]⟩
  case h_2 i hi =>
    have hbase : ({ s with timer := none } : PeerSourceManager κ).Base :=
      ⟨⟨h.keys, h.known, fun ht => absurd rfl ht⟩, h.custom⟩
    obtain ⟨hb, hgood⟩ := manualUpdateTracker_spec hbase i
    refine ⟨hb, fun hg => (hgood hg).trans ⟨fun hok j hj => ?_, fun hok => hok i hi⟩⟩
    obtain rfl := Option.some_inj.mp (hi.symm.trans hj)
    exact hok

/-- The timer of a request or of the manager ends. Source: `torrent/peersourcemanager.cpp`,
`torrent/httptracker.cpp`. Kind: L -/
theorem timeout_spec {s : PeerSourceManager κ} (h : s.Base) :
    (s.step .timeout).Base ∧ (s.Good → (s.step .timeout).Good) := by
  change (if s.timer = none then s else _).Base ∧ _
  rw [step]
  split_ifs with ht
  · exact ⟨h, id⟩
  have hstarted := h.timed ht
  have hbase : ({ s with timer := none } : PeerSourceManager κ).Base :=
    ⟨⟨h.keys, h.known, fun ht => absurd rfl ht⟩, h.custom⟩
  unfold updateCurrentManually
  split
  case h_1 => exact ⟨hbase, id⟩
  case h_2 i _ =>
    obtain ⟨hb, hgood⟩ := manualUpdateTracker_spec hbase i
    exact ⟨hb, fun hg => (hgood hg).mpr (.inl hstarted)⟩

/-- A failure makes the tracker be asked again later, or another one.
Source: `PeerSourceManager::onTrackerError`. Kind: L -/
theorem onTrackerError_spec {s : PeerSourceManager κ} (h : s.Base) (i : ℕ) :
    (s.onTrackerError i).Base ∧ (s.Good → (s.onTrackerError i).Good) := by
  have hsame := same_onTrackerError s i
  by_cases hstarted : s.started = true
  case neg =>
    have heq : s.onTrackerError i = { s with failures := s.failures + 1 } := by
      simp [onTrackerError, hstarted]
    rw [heq] at hsame ⊢
    exact ⟨h.of_same hsame fun ht => .inl ht, id⟩
  refine ⟨h.of_same hsame fun _ => .inr hstarted, fun hg => ?_⟩
  have hsel := (selectTracker_min { s with failures := s.failures + 1 }).2
  unfold onTrackerError
  dsimp only
  rw [if_neg (by simp [hstarted])]
  split
  case h_1 => exact hg
  case h_2 trk htrk =>
    set s₁ := (({ s with failures := s.failures + 1 } : PeerSourceManager κ).stopTracker i).switchTracker
      (some trk)
    have hcount : Same s { s with failures := s.failures + 1 } :=
      ⟨rfl, rfl, rfl, rfl, rfl, rfl, fun _ => rfl⟩
    have hsame₁ : Same s s₁ :=
      hcount.trans ((same_stopTracker _ i).trans (same_switchTracker _ (some trk)))
    have hquiet : s₁.Quiet := quiet_switchTracker.mpr (quiet_stopTracker.mpr hg.2)
    have hheld : s₁.Held := by
      intro j hj
      rw [curr_switchTracker, Option.some_inj] at hj
      rw [hsame₁.trackers]
      exact hj ▸ (hsel trk htrk).1
    split_ifs
    · refine ⟨hheld, quiet_startTracker.mpr ⟨hquiet, hsame₁.started.trans hstarted⟩⟩
    · exact ⟨hheld, hquiet⟩

/-- A tracker reports progress, success or failure. Source: `torrent/peersourcemanager.cpp`,
`torrent/httptracker.cpp`. Kind: L -/
theorem report_spec {s : PeerSourceManager κ} (h : s.Base) (i : ℕ) (progress : Progress)
    (ok : Option Bool) : (s.step (.report i progress ok)).Base ∧
      (s.Good → (s.step (.report i progress ok)).Good) := by
  rw [step]
  split_ifs with hgone
  · exact ⟨h, id⟩
  dsimp only
  set s₁ := s.modify i fun t => { t with toProgress := progress }
  have hbase : s₁.Base := h.of_same (same_modify s i fun _ => rfl) fun ht => .inl ht
  split_ifs with hcurr
  · exact ⟨hbase, id⟩
  rw [not_not] at hcurr
  match ok with
  | none => exact ⟨hbase, id⟩
  | some true =>
    refine ⟨hbase.of_same ⟨rfl, rfl, rfl, rfl, rfl, rfl, fun _ => rfl⟩ fun ht => ?_, id⟩
    by_cases hstarted : s₁.started = true
    · exact .inr hstarted
    · rw [onTrackerOK, if_neg hstarted] at ht
      exact .inl ht
  | some false => exact onTrackerError_spec hbase i

/-- A dismissed tracker is deleted. Source: `torrent/peersourcemanager.cpp`,
`torrent/httptracker.cpp`. Kind: L -/
theorem timedDelete_spec {s : PeerSourceManager κ} (h : s.Base) (i : ℕ) :
    (s.step (.timedDelete i)).Base ∧ (s.Good → (s.step (.timedDelete i)).Good) := by
  rw [step]
  split_ifs with hi
  case neg => exact ⟨h, id⟩
  refine ⟨⟨⟨fun k j hk => ?_, fun j hj => ?_, h.timed⟩, h.custom⟩, id⟩
  · obtain ⟨h1, h2, h3, h4⟩ := h.keys k j hk
    refine ⟨h1, h2, fun hj => h3 (List.mem_of_mem_filter hj), fun hj => ?_⟩
    rcases List.mem_append.mp hj with hj | hj
    · exact h4 hj
    · exact h3 (List.mem_singleton.mp hj ▸ hi)
  · rcases hj with hj | hj
    · exact h.known j (.inl (List.mem_of_mem_filter hj))
    · rcases List.mem_append.mp hj with hj | hj
      · exact h.known j (.inr hj)
      · exact List.mem_singleton.mp hj ▸ h.known i (.inl hi)

/-! ### The runs -/

/-- A step that keeps the manager good: the current tracker is removed only while the manager is
started and has another one; another tracker is chosen only while it is started; it is updated by hand
while it is stopped only if the tracker has started. Kind: D -/
def Allowed (s : PeerSourceManager κ) : Action κ → Prop
  | .removeTracker url => url ∈ s.custom_trackers → s.curr = s.trackers.find? url →
      1 < s.trackers.size ∧ s.started = true
  | .setTracker url => ∀ i ∈ s.trackers.find? url, s.curr ≠ some i → s.started = true
  | .manualUpdate => ∀ i ∈ s.curr,
      s.started = true ∨ (s.heap i).started = true ∧ (s.heap i).event ≠ .STARTED
  | _ => True

instance (s : PeerSourceManager κ) : DecidablePred s.Allowed
  | .removeTracker _ => inferInstanceAs (Decidable (_ → _ → _ ∧ _))
  | .setTracker url => inferInstanceAs (Decidable (∀ i ∈ s.trackers.find? url, _ → _))
  | .manualUpdate => inferInstanceAs (Decidable (∀ i ∈ s.curr, _ ∨ _))
  | .addTracker .. | .restoreDefault | .start | .stop | .completed | .timeout | .report ..
  | .timedDelete _ => inferInstanceAs (Decidable True)

/-- **The step lemma.**. Source: `torrent/peersourcemanager.cpp`, `torrent/httptracker.cpp`.
Kind: L -/
theorem step_spec {s : PeerSourceManager κ} (h : s.Base) (a : Action κ) :
    (s.step a).Base ∧ (s.Good → ((s.step a).Good ↔ s.Allowed a)) := by
  have hkeeps : ∀ {s' : PeerSourceManager κ}, s'.Base ∧ (s.Good → s'.Good) →
      s'.Base ∧ (s.Good → (s'.Good ↔ True)) :=
    fun h' => ⟨h'.1, fun hg => iff_true_intro (h'.2 hg)⟩
  cases a with
  | addTracker url udp tier =>
    exact hkeeps ⟨base_addTracker h url udp true tier, fun hg => good_addTracker hg url udp true tier⟩
  | removeTracker url => exact removeTracker_spec h url
  | setTracker url => exact setTracker_spec h url
  | restoreDefault => exact hkeeps (restoreDefault_spec h.toKept)
  | start => exact hkeeps (start_spec h)
  | stop => exact hkeeps (stop_spec h)
  | completed => exact hkeeps (completed_spec h)
  | manualUpdate => exact manualUpdate_spec h
  | timeout => exact hkeeps (timeout_spec h)
  | report i progress ok => exact hkeeps (report_spec h i progress ok)
  | timedDelete i => exact hkeeps (timedDelete_spec h i)

/-- What the constructor leaves. Source: `PeerSourceManager::PeerSourceManager`. Kind: L -/
theorem construct_spec (heap : ℕ → TrackerObject κ) (standard : List (κ × Bool × ℤ))
    (custom : List (κ × Bool)) :
    (construct heap standard custom).Base ∧ (construct heap standard custom).Good := by
  have hgen : ∀ {α : Type _} (f : PeerSourceManager κ → α → PeerSourceManager κ),
      (∀ s x, s.Base ∧ s.Good → (f s x).Base ∧ (f s x).Good) →
      ∀ (l : List α) (s : PeerSourceManager κ), s.Base ∧ s.Good →
        (l.foldl f s).Base ∧ (l.foldl f s).Good := by
    intro α f hf l
    induction l with
    | nil => exact fun s h => h
    | cons x l ih => exact fun s h => ih _ (hf s x h)
  unfold construct
  refine hgen _ (fun s x h => ⟨base_addTracker h.1 .., good_addTracker h.2 ..⟩) _ _
    (hgen _ (fun s x h => ⟨base_addTracker h.1 .., good_addTracker h.2 ..⟩) _ _ ⟨?_, ?_, ?_⟩)
  · exact ⟨⟨fun k i hk => absurd hk List.not_mem_nil, by simp, by simp⟩, by simp⟩
  · exact fun i hi => absurd hi (Option.some_ne_none i).symm
  · exact fun a ha => absurd ha List.not_mem_nil

/-- **The exact runs**: from the construction on, the current tracker is always one of the map and
none was asked to announce that it starts while the manager was stopped, if and only if every step
of the run was allowed. Source: `PeerSourceManager::PeerSourceManager`. Kind: P -/
theorem good_iff (heap : ℕ → TrackerObject κ) (standard : List (κ × Bool × ℤ))
    (custom : List (κ × Bool)) (as : List (Action κ)) :
    (∀ before, before <+: as → (run step (construct heap standard custom) before).Good) ↔
      Meets step Allowed (construct heap standard custom) as := by
  obtain ⟨hb, hg⟩ := construct_spec heap standard custom
  exact @good_at_iff_meets _ _ step Allowed Base Good (fun _ _ => True)
    (fun s a h => (step_spec h a).1) (fun s a h hg _ => (step_spec h a).2 hg) _ hb hg as
    (meets_true _ as)

/-- What the pointer is good for: on such a run the current tracker has not been deleted.
Source: `PeerSourceManager::PeerSourceManager`. Kind: P -/
theorem curr_exists {heap : ℕ → TrackerObject κ} {standard : List (κ × Bool × ℤ)}
    {custom : List (κ × Bool)} {as : List (Action κ)}
    (h : Meets step Allowed (construct heap standard custom) as) {i : ℕ}
    (hi : (run step (construct heap standard custom) as).curr = some i) :
    i ∉ (run step (construct heap standard custom) as).deleted := by
  obtain ⟨k, hk⟩ := ((good_iff heap standard custom as).mpr h as List.prefix_rfl).1 i hi
  have hbase : (run step (construct heap standard custom) as).Base :=
    @run_inv _ _ step Base (fun s a h => (step_spec h a).1) _ (construct_spec heap standard custom).1 as
  exact (hbase.keys k i hk).2.2.2

/-- A custom tracker is added to a started torrent with one tracker, chosen, and removed. -/
example :
    0 ∉ (run step (construct (fun _ => newTracker 0 false 0) [(1, false, 1)] [])
      [.start, .addTracker 2 false 1, .setTracker 2, .removeTracker 2]).deleted :=
  curr_exists (by simp only [meets_cons, meets_nil]; decide) (by decide)

end PeerSourceManager

end KTorrent.Tracker
