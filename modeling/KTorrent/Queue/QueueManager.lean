import Mathlib.Algebra.Group.Int.Defs
import Mathlib.Data.List.Sort
import Mathlib.Logic.Function.Basic

/-!
# The queue of torrents

The queue manager starts and stops torrents so that no more than a given number of downloads and of
seeds are running. A torrent with a priority is controlled by the queue, the highest priority first;
one whose priority is zero is controlled by the user.

* `Torrent` — what the queue manager sees of a torrent, with `Torrent.start` and `Torrent.stop`.
* `QueueManager.start`, `QueueManager.stop` — one torrent.
* `QueueManager.orderQueue` — the whole queue.
* `QueueManager.torrentAdded`, `torrentFinished`, `enqueue`, `dequeue` — the priorities.

The torrents are objects: the list holds their numbers, and `tc` what each of them is. What happens
outside of the queue manager when a torrent is started is a `World` for each torrent. The library's
`sort` is a `Sorter`: it need not be stable.

Source: `torrent/queuemanager.cpp`; `torrent/torrentcontrol.cpp`, `start`, `stop` and `setPriority`
-/

namespace KTorrent.Queue

/-! ### A torrent -/

/-- What the queue manager reads of a torrent; `checking` is `isCheckingData(check_done) &&
!check_done`. Source: `interfaces/torrentinterface.h`, `TorrentStats`. Kind: D -/
structure Torrent where
  priority : ℤ := 0
  user_controlled : Bool := false
  completed : Bool := false
  running : Bool := false
  stopped_by_error : Bool := false
  moving_files : Bool := false
  checking : Bool := false
deriving DecidableEq, Repr

/-- How an attempt to start ends. Kind: D -/
inductive Attempt where
  | started
  | refused
  | failed
deriving DecidableEq

/-- What a torrent meets when it is started: the disk space and the setting for it, the share ratio,
the answers of the user, and the attempt itself. Kind: D -/
structure World where
  checkDiskSpace : Bool := true
  startDownloadsOnLowDiskSpace : ℕ := 2
  startAnyway : Bool := true
  maxRatioReached : Bool := false
  ignoreRatio : Bool := true
  attempt : Attempt := .started

namespace Torrent

/-- Source: `TorrentControl::setPriority`. Kind: D -/
def setPriority (p : ℤ) (t : Torrent) : Torrent := { t with priority := p, user_controlled := p = 0 }

/-- Source: `TorrentControl::start`. Kind: D -/
def start (w : World) (t : Torrent) : Torrent :=
  if t.running || t.moving_files then t
  else
    match w.attempt with
    | .started => { t with stopped_by_error := false, running := true }
    | .refused => { t with stopped_by_error := false }
    | .failed => { t with stopped_by_error := true }

/-- Source: `TorrentControl::stop`. Kind: D -/
def stop (user : Bool) (t : Torrent) : Torrent :=
  let t := if t.running && user then t.setPriority 0 else t
  { t with running := false }

/-- The new ratio is zero, so that it is reached. Source: `TorrentControl::setMaxShareRatio`.
Kind: D -/
def clearMaxShareRatio (t : Torrent) : Torrent :=
  if t.completed && !t.running && !t.user_controlled then t.setPriority 0 else t

end Torrent

/-- Source: `QueuePtrList::compareItems`. Kind: D -/
def compareItems (p₁ p₂ : ℤ) : ℤ :=
  if p₁ = p₂ then 0
  else if p₁ = 0 ∧ p₂ ≠ 0 then 1
  else if p₁ ≠ 0 ∧ p₂ = 0 then -1
  else if p₁ > p₂ then -1
  else 1

/-- The library's sort: it permutes the list, and no item is followed by one that belongs in front of
it. Source: `TQPtrList::sort`. Kind: D -/
structure Sorter where
  sort : (ℕ → ℤ) → List ℕ → List ℕ
  perm : ∀ p l, (sort p l).Perm l
  sorted : ∀ p l, (sort p l).Pairwise fun i j => compareItems (p i) (p j) ≤ 0

/-! ### The queue manager -/

/-- Source: `torrent/queuemanager.h`, `QueueManager`. Kind: D -/
structure QueueManager where
  downloads : List ℕ := []
  tc : ℕ → Torrent := fun _ => {}
  max_downloads : ℤ := 0
  max_seeds : ℤ := 0
  keep_seeding : Bool := true
  paused_state : Bool := false
  exiting : Bool := false

/-- Source: `kt::TorrentStartResponse`. Kind: D -/
inductive StartResponse where
  | START_OK
  | BUSY_WITH_DATA_CHECK
  | NOT_ENOUGH_DISKSPACE
  | USER_CANCELED
  | TQM_LIMITS_REACHED
deriving DecidableEq

namespace QueueManager

/-- A torrent is changed. Kind: D -/
def modify (i : ℕ) (f : Torrent → Torrent) (q : QueueManager) : QueueManager :=
  { q with tc := Function.update q.tc i (f (q.tc i)) }

/-- Source: `tc->setPriority(p)`. Kind: D -/
def setPriority (i : ℕ) (p : ℤ) (q : QueueManager) : QueueManager := q.modify i (·.setPriority p)

/-- The priorities by which the list is sorted. Kind: D -/
def priorities (q : QueueManager) : ℕ → ℤ := fun i => (q.tc i).priority

/-- Source: `downloads.sort()`. Kind: D -/
def sortDownloads (S : Sorter) (q : QueueManager) : QueueManager :=
  { q with downloads := S.sort q.priorities q.downloads }

/-- The running downloads, or the running seeds. Source: `QueueManager::getNumRunning`. Kind: D -/
def getNumRunning (seeds : Bool) (q : QueueManager) : ℕ :=
  q.downloads.countP fun i => (q.tc i).running && (q.tc i).completed == seeds

/-- Kind: D -/
def limit (seeds : Bool) (q : QueueManager) : ℤ := if seeds then q.max_seeds else q.max_downloads

/-- Source: `QueueManager::start`, from `startSafely` on. Kind: D -/
def launch (w : World) (i : ℕ) (q : QueueManager) : QueueManager × StartResponse :=
  if (q.tc i).completed && w.maxRatioReached then
    if w.ignoreRatio then
      ((q.modify i Torrent.clearMaxShareRatio).modify i (Torrent.start w), .START_OK)
    else (q, .USER_CANCELED)
  else (q.modify i (Torrent.start w), .START_OK)

/-- The disk space is checked, except for a seed. Source: `QueueManager::start`. Kind: D -/
def checkAndLaunch (w : World) (i : ℕ) (q : QueueManager) : QueueManager × StartResponse :=
  if !(q.tc i).completed && !w.checkDiskSpace then
    if w.startDownloadsOnLowDiskSpace = 0 then (q.setPriority i 0, .NOT_ENOUGH_DISKSPACE)
    else if w.startDownloadsOnLowDiskSpace = 1 && !w.startAnyway then
      (q.setPriority i 0, .USER_CANCELED)
    else q.launch w i
  else q.launch w i

/-- Source: `QueueManager::start`. Kind: D -/
def start (w : World) (user : Bool) (i : ℕ) (q : QueueManager) : QueueManager × StartResponse :=
  if (q.tc i).checking then (q, .BUSY_WITH_DATA_CHECK)
  else if user then (q.setPriority i 0).checkAndLaunch w i
  else
    let max := q.limit (q.tc i).completed
    if max = 0 || decide ((q.getNumRunning (q.tc i).completed : ℤ) < max) then q.checkAndLaunch w i
    else (q, .TQM_LIMITS_REACHED)

/-- `torrentStopped` is what the signal of a torrent that was stopped does.
Source: `QueueManager::stop`. Kind: D -/
def stop (torrentStopped : QueueManager → QueueManager) (user : Bool) (i : ℕ) (q : QueueManager) :
    QueueManager :=
  if (q.tc i).checking then q
  else
    let q := if (q.tc i).running then torrentStopped (q.modify i (Torrent.stop user)) else q
    if user then q.setPriority i 0 else q

/-! ### The order of the queue -/

/-- An `int` where a `Uint32` is expected. Kind: D -/
def toUint32 (z : ℤ) : ℕ := (z % 2 ^ 32).toNat

/-- The torrents that the queue may start. Source: `QueueManager::orderQueue`, the first loop.
Kind: D -/
def queued (seeds : Bool) (q : QueueManager) : List ℕ :=
  q.downloads.filter fun i => !(q.tc i).user_controlled && !(q.tc i).moving_files &&
    !(q.tc i).stopped_by_error && (q.tc i).completed == seeds

/-- The running torrents that the user started. Source: `QueueManager::orderQueue`, the first loop.
Kind: D -/
def userRunning (seeds : Bool) (q : QueueManager) : ℕ :=
  q.downloads.countP fun i =>
    (q.tc i).running && (q.tc i).user_controlled && (q.tc i).completed == seeds

/-- While the queue is ordered, `torrentStopped` does nothing. Source: `QueueManager::orderQueue`,
the loops that stop. Kind: D -/
def stopLoop (seeds : Bool) (is : List ℕ) (q : QueueManager) : QueueManager :=
  is.foldl (fun q i =>
    if (q.tc i).running && !(q.tc i).user_controlled && (q.tc i).completed == seeds then
      q.stop id false i
    else q) q

/-- Source: `QueueManager::orderQueue`, the loops that start. Kind: D -/
def startLoop (env : ℕ → World) (seeds : Bool) (max_qm : ℤ) : List ℕ → ℤ → QueueManager → QueueManager
  | [], _, q => q
  | i :: is, counter, q =>
      if counter < max_qm then
        if !(q.tc i).running && (q.tc i).completed == seeds && !(q.tc i).user_controlled then
          let q := (q.start (env i) false i).1
          if (q.tc i).stopped_by_error then
            startLoop env seeds max_qm is counter (q.setPriority i 0)
          else startLoop env seeds max_qm is (counter + 1) q
        else startLoop env seeds max_qm is (counter + 1) q
      else q

/-- Source: `QueueManager::orderQueue`, without limits. Kind: D -/
def startAll (env : ℕ → World) (is : List ℕ) (q : QueueManager) : QueueManager :=
  is.foldl (fun q i =>
    if !(q.tc i).running && !(q.tc i).user_controlled && !(q.tc i).stopped_by_error &&
        !(q.tc i).moving_files then
      let q := (q.start (env i) false i).1
      if (q.tc i).stopped_by_error then q.setPriority i 0 else q
    else q) q

/-- What is left of a limit for the queue. Source: `QueueManager::orderQueue`, `max_qm_downloads` and
`max_qm_seeds`. Kind: D -/
def maxQm (seeds : Bool) (q : QueueManager) : ℤ := q.limit seeds - q.userRunning seeds

/-- The torrents behind the limit are stopped. Source: `QueueManager::orderQueue`. Kind: D -/
def stopBehind (seeds : Bool) (q₀ q : QueueManager) : QueueManager :=
  if q₀.limit seeds ≠ 0 then
    q.stopLoop seeds ((q₀.queued seeds).drop (toUint32 (q₀.maxQm seeds)))
  else q

/-- The torrents in front of the limit are started. Source: `QueueManager::orderQueue`. Kind: D -/
def startFront (env : ℕ → World) (seeds : Bool) (q₀ q : QueueManager) : QueueManager :=
  let max_qm := if q₀.limit seeds = 0 then ((q₀.queued seeds).length : ℤ) else q₀.maxQm seeds
  q.startLoop env seeds max_qm (q₀.queued seeds) 0

/-- Source: `QueueManager::orderQueue`. Kind: D -/
def orderQueue (S : Sorter) (env : ℕ → World) (q : QueueManager) : QueueManager :=
  if q.downloads.isEmpty then q
  else if q.paused_state || q.exiting then q
  else
    let q := q.sortDownloads S
    if q.max_downloads ≠ 0 ∨ q.max_seeds ≠ 0 then
      startFront env true q (startFront env false q (stopBehind true q (stopBehind false q q)))
    else q.startAll env q.downloads

/-! ### The priorities -/

/-- Source: `QueueManager::torrentAdded`, the loop. Kind: D -/
def shiftUp : List ℕ → QueueManager → QueueManager
  | [], q => q
  | j :: js, q =>
      if (q.tc j).priority = 0 then q else shiftUp js (q.setPriority j ((q.tc j).priority + 1))

/-- Source: `QueueManager::torrentAdded`. Kind: D -/
def torrentAdded (S : Sorter) (env : ℕ → World) (i : ℕ) (user start_torrent : Bool)
    (q : QueueManager) : QueueManager :=
  let q :=
    if !user then (shiftUp q.downloads q).setPriority i 1
    else
      let q := q.setPriority i 0
      if start_torrent then (q.start (env i) true i).1 else q
  q.orderQueue S env

/-- Source: `QueueManager::append`. Kind: D -/
def append (S : Sorter) (i : ℕ) (q : QueueManager) : QueueManager :=
  { q with downloads := q.downloads ++ [i] }.sortDownloads S

/-- The worlds are those of the first and of the second time the queue is ordered.
Source: `QueueManager::torrentFinished`. Kind: D -/
def torrentFinished (S : Sorter) (env env' : ℕ → World) (i : ℕ) (q : QueueManager) : QueueManager :=
  let q := q.setPriority i 0
  let q :=
    if q.keep_seeding then q.torrentAdded S env i false false else q.stop (orderQueue S env) true i
  q.orderQueue S env'

/-- Source: `QueueManager::torrentRemoved`, `QueueManager::remove`. Kind: D -/
def torrentRemoved (S : Sorter) (env : ℕ → World) (i : ℕ) (q : QueueManager) : QueueManager :=
  { q with downloads := q.downloads.erase i }.orderQueue S env

/-- `exceeded` is `overMaxRatio() || overMaxSeedTime()`. Source: `QueueManager::enqueue`. Kind: D -/
def enqueue (S : Sorter) (env : ℕ → World) (exceeded : Bool) (i : ℕ) (q : QueueManager) : QueueManager :=
  if (q.tc i).completed && exceeded then q else q.torrentAdded S env i false false

/-- Source: `QueueManager::dequeue`, the loop. Kind: D -/
def shiftDown (i : ℕ) (completed : Bool) (tp : ℤ) : List ℕ → QueueManager → QueueManager
  | [], q => q
  | j :: js, q =>
      if i = j || (q.tc j).completed != completed then shiftDown i completed tp js q
      else if (q.tc j).priority < tp then q
      else shiftDown i completed tp js (q.setPriority j ((q.tc j).priority - 1))

/-- Source: `QueueManager::dequeue`. Kind: D -/
def dequeue (S : Sorter) (env : ℕ → World) (i : ℕ) (q : QueueManager) : QueueManager :=
  ((shiftDown i (q.tc i).completed (q.tc i).priority q.downloads q).setPriority i 0).orderQueue S env

end QueueManager

end KTorrent.Queue
