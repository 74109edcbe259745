import KTorrent.Lib.GuardedRun
import KTorrent.Queue.Limits
import Mathlib.Data.List.TakeWhile

/-!
# The priorities of the torrents

* `QueueManager.Distinct` — no two downloads and no two seeds of the queue have the same priority.
* `QueueManager.Kept` — the other torrents of the queue keep their order.
* `QueueManager.Apart` — no torrent that stays where it is has a priority that a torrent that is moved
  passes by.
* `QueueManager.priorities_run` — the priorities are distinct in every state, and every operation
  keeps the order of the others, in a run in which what `torrentAdded` and `dequeue` leave behind is
  apart from what they move. A new torrent never breaks this.
* `QueueManager.both_first` — a download at the head of the list finishes: the loop of `torrentAdded`
  ends at this torrent, whose priority is zero already, so that nothing makes room for it.

The order is that of the torrents of one kind, or of all of them: the results are for both readings.

Source: `torrent/queuemanager.cpp`, `torrentAdded`, `torrentFinished`, `enqueue`, `dequeue`, `start`,
`stop`
-/

namespace KTorrent.Queue

open KTorrent.Lib

/-- With these answers an attempt to start costs a torrent its place in the queue. Kind: D -/
def World.Drops (w : World) : Prop :=
  w.attempt = .failed ∨ (w.maxRatioReached = true ∧ w.ignoreRatio = true) ∨
    w.checkDiskSpace = false ∧
      (w.startDownloadsOnLowDiskSpace = 0 ∨
        w.startDownloadsOnLowDiskSpace = 1 ∧ w.startAnyway = false)

/-- Nothing is dropped by default. Source: `torrent/queuemanager.cpp`, `torrentAdded`. Kind: L -/
theorem World.not_drops : ¬ ({} : World).Drops := by
  rintro (h | h | h)
  · cases h
  · cases h.1
  · cases h.1

namespace QueueManager

variable {q q' q₁ : QueueManager} {env : ℕ → World}

/-! ### What ordering the queue does to the priorities -/

/-- Torrents are started and stopped: a torrent keeps its priority, unless an attempt to start it
costs it its place. Kind: D -/
structure Settles (env : ℕ → World) (q q' : QueueManager) : Prop where
  downloads : q'.downloads.Perm q.downloads
  completed : ∀ i, (q'.tc i).completed = (q.tc i).completed
  priority : ∀ i, (q'.tc i).priority = (q.tc i).priority ∨
    (q'.tc i).priority = 0 ∧ (env i).Drops
  error : ∀ i, (q'.tc i).stopped_by_error = true → (q.tc i).stopped_by_error = true ∨ (env i).Drops

/-- Nothing settled. Source: none: infrastructure. Kind: L -/
theorem Settles.refl (env : ℕ → World) (q : QueueManager) : Settles env q q :=
  ⟨List.Perm.refl _, fun _ => rfl, fun _ => Or.inl rfl, fun _ h => Or.inl h⟩

/-- Settling one after the other. Source: none: infrastructure. Kind: L -/
theorem Settles.trans {q₂ : QueueManager} (h : Settles env q q₁) (h' : Settles env q₁ q₂) :
    Settles env q q₂ := by
  refine ⟨h'.downloads.trans h.downloads, fun i => (h'.completed i).trans (h.completed i),
    fun i => ?_, fun i hi => ?_⟩
  · rcases h'.priority i with h1 | h1
    · rw [h1]
      exact h.priority i
    · exact Or.inr h1
  · rcases h'.error i hi with h1 | h1
    · exact h.error i h1
    · exact Or.inr h1

/-- One torrent is changed. Source: `torrent/queuemanager.cpp`, `torrentAdded`. Kind: L -/
theorem Settles.modify {i : ℕ} {f : Torrent → Torrent}
    (hc : (f (q.tc i)).completed = (q.tc i).completed)
    (hp : (f (q.tc i)).priority = (q.tc i).priority ∨ (f (q.tc i)).priority = 0 ∧ (env i).Drops)
    (he : (f (q.tc i)).stopped_by_error = true →
      (q.tc i).stopped_by_error = true ∨ (env i).Drops) :
    Settles env q (q.modify i f) := by
  have hself : (q.modify i f).tc i = f (q.tc i) := Function.update_self _ _ _
  have hother : ∀ j, j ≠ i → (q.modify i f).tc j = q.tc j := fun j hj => Function.update_of_ne hj _ _
  refine ⟨List.Perm.refl _, fun j => ?_, fun j => ?_, fun j => ?_⟩
  · by_cases hj : j = i
    · rw [hj, hself, hc]
    · rw [hother j hj]
  · by_cases hj : j = i
    · rw [hj, hself]
      exact hp
    · rw [hother j hj]
      exact Or.inl rfl
  · by_cases hj : j = i
    · rw [hj, hself]
      exact he
    · rw [hother j hj]
      exact Or.inl

/-- A torrent that loses its place. Source: `torrent/queuemanager.cpp`, `torrentAdded`. Kind: L -/
theorem Settles.setPriority_zero {i : ℕ} (h : (env i).Drops) (q : QueueManager) :
    Settles env q (q.setPriority i 0) :=
  Settles.modify rfl (Or.inr ⟨rfl, h⟩) Or.inl

/-- A torrent starts. Source: `torrent/queuemanager.cpp`, `torrentAdded`. Kind: L -/
theorem settles_modify_start (i : ℕ) (q : QueueManager) :
    Settles env q (q.modify i (Torrent.start (env i))) := by
  have hcases : Torrent.start (env i) (q.tc i) = q.tc i ∨
      Torrent.start (env i) (q.tc i) = { q.tc i with stopped_by_error := false, running := true } ∨
      Torrent.start (env i) (q.tc i) = { q.tc i with stopped_by_error := false } ∨
      Torrent.start (env i) (q.tc i) = { q.tc i with stopped_by_error := true } ∧
        (env i).attempt = .failed := by
    unfold Torrent.start
    split_ifs
    · exact Or.inl rfl
    · cases h : (env i).attempt
      · exact Or.inr (Or.inl rfl)
      · exact Or.inr (Or.inr (Or.inl rfl))
      · exact Or.inr (Or.inr (Or.inr ⟨rfl, rfl⟩))
  rcases hcases with h | h | h | ⟨h, hfail⟩
  · exact Settles.modify (by rw [h]) (Or.inl (by rw [h])) (by rw [h]; exact Or.inl)
  · exact Settles.modify (by rw [h]) (Or.inl (by rw [h])) (by rw [h]; intro h'; cases h')
  · exact Settles.modify (by rw [h]) (Or.inl (by rw [h])) (by rw [h]; intro h'; cases h')
  · exact Settles.modify (by rw [h]) (Or.inl (by rw [h])) fun _ => Or.inr (Or.inl hfail)

/-- A share ratio is cleared only where that is allowed. Source: `TorrentControl::setMaxShareRatio`.
Kind: L -/
theorem settles_clearMaxShareRatio {i : ℕ} (h : (env i).Drops) (q : QueueManager) :
    Settles env q (q.modify i Torrent.clearMaxShareRatio) := by
  have hcases : Torrent.clearMaxShareRatio (q.tc i) = q.tc i ∨
      Torrent.clearMaxShareRatio (q.tc i) = (q.tc i).setPriority 0 := by
    unfold Torrent.clearMaxShareRatio
    split_ifs
    · exact Or.inr rfl
    · exact Or.inl rfl
  rcases hcases with h' | h'
  · exact Settles.modify (by rw [h']) (Or.inl (by rw [h'])) (by rw [h']; exact Or.inl)
  · exact Settles.modify (by rw [h']; rfl) (Or.inr ⟨by rw [h']; rfl, h⟩) (by rw [h']; exact Or.inl)

/-- Launching a torrent settles it. Source: `QueueManager::start`. Kind: L -/
theorem settles_checkAndLaunch (i : ℕ) (q : QueueManager) :
    Settles env q (q.checkAndLaunch (env i) i).1 := by
  have hlaunch : Settles env q (q.launch (env i) i).1 := by
    unfold launch
    split_ifs with hratio hignore
    · have hd : (env i).Drops := by
        rw [Bool.and_eq_true] at hratio
        exact Or.inr (Or.inl ⟨hratio.2, hignore⟩)
      exact (settles_clearMaxShareRatio hd q).trans (settles_modify_start i _)
    · exact Settles.refl _ _
    · exact settles_modify_start i q
  unfold checkAndLaunch
  split_ifs with hspace hzero hone
  · have hd : (env i).Drops := by
      simp only [Bool.and_eq_true, Bool.not_eq_true'] at hspace
      exact Or.inr (Or.inr ⟨hspace.2, Or.inl hzero⟩)
    exact Settles.setPriority_zero hd q
  · have hd : (env i).Drops := by
      simp only [Bool.and_eq_true, Bool.not_eq_true', decide_eq_true_eq] at hspace hone
      exact Or.inr (Or.inr ⟨hspace.2, Or.inr hone⟩)
    exact Settles.setPriority_zero hd q
  · exact hlaunch
  · exact hlaunch

/-- Starting a torrent settles it. Source: `torrent/queuemanager.cpp`, `torrentAdded`. Kind: L -/
theorem settles_start (i : ℕ) (q : QueueManager) :
    Settles env q (q.start (env i) false i).1 := by
  unfold start
  simp only [Bool.false_eq_true, if_false]
  split_ifs
  · exact Settles.refl _ _
  · exact settles_checkAndLaunch i q
  · exact Settles.refl _ _

/-- A stop by the queue. Source: `QueueManager::stop`. Kind: L -/
theorem settles_stop (i : ℕ) (q : QueueManager) : Settles env q (q.stop id false i) := by
  unfold stop
  simp only [Bool.false_eq_true, if_false, id_eq]
  split_ifs
  · exact Settles.refl _ _
  · rw [Torrent.stop_false]
    exact Settles.modify rfl (Or.inl rfl) Or.inl
  · exact Settles.refl _ _

/-- Stopping what is too much settles. Source: `QueueManager::orderQueue`. Kind: L -/
theorem settles_stopLoop (seeds : Bool) (is : List ℕ) (q : QueueManager) :
    Settles env q (q.stopLoop seeds is) := by
  induction is generalizing q with
  | nil => exact Settles.refl _ _
  | cons i is ih =>
    rw [stopLoop, List.foldl_cons]
    refine Settles.trans ?_ (ih _)
    split_ifs
    · exact settles_stop i q
    · exact Settles.refl _ _

/-- A torrent that no error had stopped is started, and loses its place if an error stops it now.
Source: `torrent/queuemanager.cpp`, `torrentAdded`. Kind: L -/
theorem settles_startAndCheck {q₀ : QueueManager} {i : ℕ} (h : Settles env q₀ q)
    (he : (q₀.tc i).stopped_by_error = false) :
    Settles env q₀ (if ((q.start (env i) false i).1.tc i).stopped_by_error then
      (q.start (env i) false i).1.setPriority i 0 else (q.start (env i) false i).1) := by
  have hs := h.trans (settles_start i q)
  split_ifs with herr
  · rcases hs.error i herr with h' | h'
    · rw [he] at h'
      cases h'
    · exact hs.trans (Settles.setPriority_zero h' _)
  · exact hs

/-- Starting what there is room for settles. Source: `QueueManager::orderQueue`. Kind: L -/
theorem settles_startLoop {q₀ : QueueManager} (seeds : Bool) (max_qm : ℤ) {is : List ℕ}
    (he : ∀ i ∈ is, (q₀.tc i).stopped_by_error = false) (counter : ℤ) (h : Settles env q₀ q) :
    Settles env q₀ (q.startLoop env seeds max_qm is counter) := by
  induction is generalizing q counter with
  | nil => exact h
  | cons i is ih =>
    have hrest : ∀ j ∈ is, (q₀.tc j).stopped_by_error = false := fun j hj =>
      he j (List.mem_cons_of_mem i hj)
    have hs := settles_startAndCheck h (he i List.mem_cons_self)
    rw [startLoop]
    dsimp only
    by_cases hmax : counter < max_qm
    · rw [if_pos hmax]
      split_ifs at hs ⊢
      · exact ih hrest _ hs
      · exact ih hrest _ hs
      · exact ih hrest _ h
      · exact ih hrest _ h
    · rw [if_neg hmax]
      exact h

/-- Starting all torrents settles. Source: `QueueManager::orderQueue`. Kind: L -/
theorem settles_startAll (is : List ℕ) (q : QueueManager) : Settles env q (q.startAll env is) := by
  induction is generalizing q with
  | nil => exact Settles.refl _ _
  | cons i is ih =>
    rw [startAll, List.foldl_cons]
    refine Settles.trans ?_ (ih _)
    split_ifs with hcond
    · simp only [Bool.and_eq_true, Bool.not_eq_true'] at hcond
      exact settles_startAndCheck (Settles.refl _ _) hcond.1.2
    · exact Settles.refl _ _

/-- **Ordering the queue leaves the priorities**, apart from torrents that lose their place.
Source: `QueueManager::orderQueue`. Kind: L -/
theorem settles_orderQueue (S : Sorter) (env : ℕ → World) (q : QueueManager) :
    Settles env q (q.orderQueue S env) := by
  have hsort : Settles env q (q.sortDownloads S) :=
    ⟨S.perm _ _, fun _ => rfl, fun _ => Or.inl rfl, fun _ h => Or.inl h⟩
  have hqueued : ∀ (q : QueueManager) (seeds : Bool), ∀ i ∈ q.queued seeds,
      (q.tc i).stopped_by_error = false := fun q seeds i hi => by
    have hcond := (List.mem_filter.mp hi).2
    simp only [Bool.and_eq_true, Bool.not_eq_true'] at hcond
    exact hcond.1.2
  have hstop : ∀ (seeds : Bool) (q₀ q : QueueManager), Settles env q (stopBehind seeds q₀ q) := by
    intro seeds q₀ q
    unfold stopBehind
    split_ifs
    · exact settles_stopLoop seeds _ q
    · exact Settles.refl _ _
  unfold orderQueue
  split_ifs
  · exact Settles.refl _ _
  · exact Settles.refl _ _
  · dsimp only
    refine hsort.trans ?_
    split_ifs
    · have h2 := (hstop false (q.sortDownloads S) (q.sortDownloads S)).trans
        (hstop true (q.sortDownloads S) (stopBehind false (q.sortDownloads S) (q.sortDownloads S)))
      unfold startFront
      apply settles_startLoop true _ (hqueued _ true) 0
      apply settles_startLoop false _ (hqueued _ false) 0
      exact h2
    · exact settles_startAll _ _

/-! ### What holds of the priorities -/

/-- **No two torrents of one kind have the same priority**, unless they are not in the queue.
Kind: D -/
def Distinct (q : QueueManager) : Prop :=
  ∀ i ∈ q.downloads, ∀ j ∈ q.downloads, i ≠ j → (q.tc i).completed = (q.tc j).completed →
    (q.tc i).priority ≠ 0 → (q.tc i).priority ≠ (q.tc j).priority

/-- What every state satisfies. Kind: D -/
structure Sound (q : QueueManager) : Prop where
  nodup : q.downloads.Nodup
  nonneg : ∀ i ∈ q.downloads, 0 ≤ (q.tc i).priority
  distinct : Distinct q

/-- The torrents whose order counts: those of the same kind, or any two. Kind: D -/
def Compared (kinds : Bool) (q : QueueManager) (i j : ℕ) : Prop :=
  kinds = true → (q.tc i).completed = (q.tc j).completed

/-- **The other torrents keep their order**: of two that are in the queue before and after, the one
with the higher priority keeps the higher one, and none comes into the queue or leaves it unless
`drops` says so. Kind: D -/
structure Kept (kinds : Bool) (i : ℕ) (drops : ℕ → Prop) (q q' : QueueManager) : Prop where
  stays : ∀ x ∈ q'.downloads, x ≠ i →
    ((q'.tc x).priority = 0 ↔ (q.tc x).priority = 0) ∨ (q'.tc x).priority = 0 ∧ drops x
  order : ∀ x ∈ q'.downloads, ∀ y ∈ q'.downloads, x ≠ i → y ≠ i → Compared kinds q x y →
    (q'.tc x).priority ≠ 0 → (q'.tc y).priority ≠ 0 →
    ((q'.tc x).priority < (q'.tc y).priority ↔ (q.tc x).priority < (q.tc y).priority)

/-- Torrents that stay in the queue are ordered as they were before the queue was.
Source: `torrent/queuemanager.cpp`, `torrentAdded`. Kind: L -/
theorem Kept.settles {kinds : Bool} {i : ℕ} {drops drops' : ℕ → Prop} (h : Kept kinds i drops q q₁)
    (hs : Settles env q₁ q') (hd : ∀ x, drops x → drops' x)
    (hd' : ∀ x, x ≠ i → (env x).Drops → drops' x) : Kept kinds i drops' q q' := by
  have hmem : ∀ x, x ∈ q'.downloads → x ∈ q₁.downloads := fun x => hs.downloads.mem_iff.mp
  have hsame : ∀ x, (q'.tc x).priority ≠ 0 → (q'.tc x).priority = (q₁.tc x).priority :=
    fun x hx => (hs.priority x).resolve_right fun h' => hx h'.1
  refine ⟨fun x hx hxi => ?_, fun x hx y hy hxi hyi hc hx0 hy0 => ?_⟩
  · rcases hs.priority x with h1 | h1
    · rw [h1]
      exact (h.stays x (hmem x hx) hxi).imp_right fun h2 => ⟨h2.1, hd x h2.2⟩
    · exact Or.inr ⟨h1.1, hd' x hxi h1.2⟩
  · have hx1 := hsame x hx0
    have hy1 := hsame y hy0
    rw [hx1] at hx0 ⊢
    rw [hy1] at hy0 ⊢
    exact h.order x (hmem x hx) y (hmem y hy) hxi hyi hc hx0 hy0

/-- Nothing changed. Source: none: infrastructure. Kind: L -/
theorem Kept.refl (kinds : Bool) (i : ℕ) (q : QueueManager) : Kept kinds i (fun _ => False) q q :=
  ⟨fun _ _ _ => Or.inl Iff.rfl, fun _ _ _ _ _ _ _ _ _ => Iff.rfl⟩

/-- What was done to the torrent itself before does not count. Source: `torrent/queuemanager.cpp`,
`torrentAdded`. Kind: L -/
theorem Kept.of_same {kinds : Bool} {i : ℕ} {drops : ℕ → Prop} (h : Kept kinds i drops q₁ q')
    (hsame : ∀ x, x ≠ i → q₁.tc x = q.tc x) : Kept kinds i drops q q' := by
  refine ⟨fun x hx hxi => ?_, fun x hx y hy hxi hyi hc => ?_⟩
  · rw [← hsame x hxi]
    exact h.stays x hx hxi
  · rw [Compared, ← hsame x hxi, ← hsame y hyi] at hc
    rw [← hsame x hxi, ← hsame y hyi]
    exact h.order x hx y hy hxi hyi hc

/-- Nor does what is done to it afterwards. Source: `torrent/queuemanager.cpp`, `torrentAdded`.
Kind: L -/
theorem Kept.then_same {kinds : Bool} {i : ℕ} {drops : ℕ → Prop} (h : Kept kinds i drops q q₁)
    (hd : q'.downloads = q₁.downloads) (hsame : ∀ x, x ≠ i → q'.tc x = q₁.tc x) :
    Kept kinds i drops q q' := by
  refine ⟨fun x hx hxi => ?_, fun x hx y hy hxi hyi hc => ?_⟩
  · rw [hsame x hxi]
    exact h.stays x (hd ▸ hx) hxi
  · rw [hsame x hxi, hsame y hyi]
    exact h.order x (hd ▸ hx) y (hd ▸ hy) hxi hyi hc

/-- A torrent comes, goes, or leaves the queue. Source: `torrent/queuemanager.cpp`, `torrentAdded`.
Kind: L -/
theorem Sound.of_same (h : Sound q) {i : ℕ} (hnd : q'.downloads.Nodup)
    (hsub : ∀ x ∈ q'.downloads, x ≠ i → x ∈ q.downloads) (hsame : ∀ x, x ≠ i → q'.tc x = q.tc x)
    (h0 : i ∈ q'.downloads → (q'.tc i).priority = 0) : Sound q' := by
  refine ⟨hnd, fun x hx => ?_, fun x hx y hy hxy hc hx0 => ?_⟩
  · by_cases hxi : x = i
    · subst hxi
      rw [h0 hx]
    · rw [hsame x hxi]
      exact h.nonneg x (hsub x hx hxi)
  · by_cases hxi : x = i
    · subst hxi
      exact absurd (h0 hx) hx0
    · by_cases hyi : y = i
      · subst hyi
        rw [h0 hy]
        exact hx0
      · rw [hsame x hxi, hsame y hyi] at hc
        rw [hsame x hxi] at hx0
        rw [hsame x hxi, hsame y hyi]
        exact h.distinct x (hsub x hx hxi) y (hsub y hy hyi) hxy hc hx0

/-- Priorities stay sound while torrents settle. Source: `torrent/queuemanager.cpp`, `torrentAdded`.
Kind: L -/
theorem Sound.settles (h : Sound q) (hs : Settles env q q') : Sound q' := by
  refine ⟨hs.downloads.nodup_iff.mpr h.nodup, fun i hi => ?_, fun i hi j hj hij hc h0 => ?_⟩
  · rcases hs.priority i with h1 | h1
    · rw [h1]
      exact h.nonneg i (hs.downloads.mem_iff.mp hi)
    · rw [h1.1]
  · rw [hs.completed, hs.completed] at hc
    have hi1 := (hs.priority i).resolve_right fun h' => h0 h'.1
    rcases hs.priority j with hj1 | hj1
    · rw [hi1] at h0 ⊢
      rw [hj1]
      exact h.distinct i (hs.downloads.mem_iff.mp hi) j (hs.downloads.mem_iff.mp hj) hij hc h0
    · rw [hj1.1]
      exact h0

/-! ### Torrents that are moved -/

/-- The torrents of a list have their priority changed by `d`, and that of one torrent is set.
Kind: D -/
structure Moves (i : ℕ) (js : List ℕ) (d p : ℤ) (q q' : QueueManager) : Prop where
  downloads : q'.downloads = q.downloads
  completed : ∀ x, (q'.tc x).completed = (q.tc x).completed
  subject : (q'.tc i).priority = p
  moved : ∀ x ∈ js, x ≠ i → (q'.tc x).priority = (q.tc x).priority + d
  left : ∀ x, x ∉ js → x ≠ i → (q'.tc x).priority = (q.tc x).priority

/-- **What stays is apart from what is moved**: no torrent of the queue that is left where it is has
the priority that a moved one has, or comes to. Kind: D -/
def Apart (kinds : Bool) (i : ℕ) (js : List ℕ) (d : ℤ) (q : QueueManager) : Prop :=
  ∀ x ∈ js, x ≠ i → ∀ y ∈ q.downloads, y ∉ js → y ≠ i → (q.tc y).priority ≠ 0 →
    Compared kinds q x y →
    (q.tc y).priority ≠ (q.tc x).priority ∧ (q.tc y).priority ≠ (q.tc x).priority + d

instance (kinds : Bool) (q : QueueManager) (i j : ℕ) : Decidable (Compared kinds q i j) :=
  inferInstanceAs (Decidable (_ → _))

instance (kinds : Bool) (i : ℕ) (js : List ℕ) (d : ℤ) (q : QueueManager) :
    Decidable (Apart kinds i js d q) :=
  inferInstanceAs (Decidable (∀ x ∈ js, x ≠ i → ∀ y ∈ q.downloads, y ∉ js → y ≠ i →
    (q.tc y).priority ≠ 0 → Compared kinds q x y →
    (q.tc y).priority ≠ (q.tc x).priority ∧ (q.tc y).priority ≠ (q.tc x).priority + d))

/-- What is kept apart is so among torrents of one kind. Source: `torrent/queuemanager.cpp`,
`torrentAdded`. Kind: L -/
theorem Apart.kinds {kinds : Bool} {i : ℕ} {js : List ℕ} {d : ℤ} (h : Apart kinds i js d q) :
    Apart true i js d q :=
  fun x hx hxi y hy hyj hyi h0 hc => h x hx hxi y hy hyj hyi h0 fun _ => hc rfl

namespace Moves

variable {i : ℕ} {js : List ℕ} {d p : ℤ}

/-- What is moved and what is left keep their order. Source: `torrent/queuemanager.cpp`,
`torrentAdded`. Kind: L -/
theorem kept {kinds : Bool} (hm : Moves i js d p q q') (hd : d = 1 ∨ d = -1)
    (hjs : ∀ x ∈ js, x ≠ i → 0 < (q.tc x).priority ∧ 0 < (q.tc x).priority + d)
    (ha : Apart kinds i js d q) : Kept kinds i (fun _ => False) q q' := by
  refine ⟨fun x hx hxi => Or.inl ?_, fun x hx y hy hxi hyi hc hx0 hy0 => ?_⟩
  · by_cases hxj : x ∈ js
    · have hpos := hjs x hxj hxi
      rw [hm.moved x hxj hxi]
      omega
    · rw [hm.left x hxj hxi]
  · rw [hm.downloads] at hx hy
    by_cases hxj : x ∈ js
    · by_cases hyj : y ∈ js
      · rw [hm.moved x hxj hxi, hm.moved y hyj hyi]
        exact add_lt_add_iff_right d
      · rw [hm.left y hyj hyi] at hy0
        have hap := ha x hxj hxi y hy hyj hyi hy0 hc
        rw [hm.moved x hxj hxi, hm.left y hyj hyi]
        omega
    · by_cases hyj : y ∈ js
      · rw [hm.left x hxj hxi] at hx0
        have hap := ha y hyj hyi x hx hxj hxi hx0 fun h => (hc h).symm
        rw [hm.left x hxj hxi, hm.moved y hyj hyi]
        omega
      · rw [hm.left x hxj hxi, hm.left y hyj hyi]

/-- Conversely, what keeps its order was apart. Source: `torrent/queuemanager.cpp`, `torrentAdded`.
Kind: L -/
theorem apart {kinds : Bool} (hm : Moves i js d p q q') (hd : d = 1 ∨ d = -1)
    (hjs : ∀ x ∈ js, x ≠ i → x ∈ q.downloads ∧ 0 < (q.tc x).priority + d)
    (hk : Kept kinds i (fun _ => False) q q') : Apart kinds i js d q := by
  intro x hx hxi y hy hyj hyi hy0 hc
  obtain ⟨hxm, hpos⟩ := hjs x hx hxi
  have hx' := hm.moved x hx hxi
  have hy' := hm.left y hyj hyi
  rw [← hm.downloads] at hxm hy
  have h1 := hk.order x hxm y hy hxi hyi hc (by omega) (by omega)
  have h2 := hk.order y hy x hxm hyi hxi (fun h => (hc h).symm) (by omega) (by omega)
  rw [hx', hy'] at h1 h2
  constructor
  · omega
  · omega

/-- The priorities stay distinct, if there is room for the torrent that is set.
Source: `torrent/queuemanager.cpp`, `torrentAdded`. Kind: L -/
theorem sound (hm : Moves i js d p q q') (h : Sound q) (hp : 0 ≤ p)
    (hjs : ∀ x ∈ js, x ≠ i → 0 < (q.tc x).priority ∧ 0 < (q.tc x).priority + d)
    (ha : Apart true i js d q)
    (hfree : p ≠ 0 → ∀ x ∈ q.downloads, x ≠ i → (q.tc x).completed = (q.tc i).completed →
      (q'.tc x).priority ≠ p) : Sound q' := by
  refine ⟨hm.downloads ▸ h.nodup, fun x hx => ?_, fun x hx y hy hxy hc h0 => ?_⟩
  · rw [hm.downloads] at hx
    by_cases hxi : x = i
    · rw [hxi, hm.subject]
      exact hp
    · by_cases hxj : x ∈ js
      · rw [hm.moved x hxj hxi]
        exact (hjs x hxj hxi).2.le
      · rw [hm.left x hxj hxi]
        exact h.nonneg x hx
  · rw [hm.downloads] at hx hy
    rw [hm.completed, hm.completed] at hc
    by_cases hxi : x = i
    · subst hxi
      rw [hm.subject] at h0 ⊢
      exact (hfree h0 y hy hxy.symm hc.symm).symm
    by_cases hyi : y = i
    · subst hyi
      rw [hm.subject]
      by_cases hp0 : p = 0
      · rw [hp0]
        exact h0
      · exact hfree hp0 x hx hxy hc
    by_cases hxj : x ∈ js
    · by_cases hyj : y ∈ js
      · have hne := h.distinct x hx y hy hxy hc (hjs x hxj hxi).1.ne'
        rw [hm.moved x hxj hxi, hm.moved y hyj hyi]
        omega
      · have hpos := (hjs x hxj hxi).2
        rw [hm.moved x hxj hxi, hm.left y hyj hyi]
        by_cases hy0 : (q.tc y).priority = 0
        · omega
        · exact (ha x hxj hxi y hy hyj hyi hy0 fun _ => hc).2.symm
    · by_cases hyj : y ∈ js
      · rw [hm.left x hxj hxi] at h0
        rw [hm.left x hxj hxi, hm.moved y hyj hyi]
        exact (ha y hyj hyi x hx hxj hxi h0 fun _ => hc.symm).2
      · rw [hm.left x hxj hxi] at h0
        rw [hm.left x hxj hxi, hm.left y hyj hyi]
        exact h.distinct x hx y hy hxy hc h0

end Moves

/-! ### The loop that makes room -/

/-- The torrents whose priority is raised: those in front of the first one that is not in the queue.
Source: `QueueManager::torrentAdded`. Kind: D -/
def raised (q : QueueManager) : List ℕ := q.downloads.takeWhile fun j => (q.tc j).priority ≠ 0

/-- One torrent's priority is set, the others are left. Source: `torrent/queuemanager.cpp`,
`torrentAdded`. Kind: L -/
theorem setPriority_tc (i : ℕ) (p : ℤ) (q : QueueManager) (x : ℕ) :
    (q.setPriority i p).tc x = if x = i then (q.tc i).setPriority p else q.tc x := by
  split_ifs with h
  · rw [h]
    exact Function.update_self _ _ _
  · exact Function.update_of_ne h _ _

/-- Predicates that agree on a list take the same front of it. Source: none: infrastructure.
Kind: L -/
theorem takeWhile_congr {l : List ℕ} {p p' : ℕ → Bool} (h : ∀ x ∈ l, p x = p' x) :
    l.takeWhile p = l.takeWhile p' := by
  induction l with
  | nil => rfl
  | cons x l ih =>
    rw [List.takeWhile_cons, List.takeWhile_cons, h x List.mem_cons_self,
      ih fun y hy => h y (List.mem_cons_of_mem x hy)]

/-- The torrents in front with a priority go up by one. Source: `QueueManager::torrentAdded`.
Kind: L -/
theorem shiftUp_spec {js : List ℕ} (hnd : js.Nodup) (q : QueueManager) :
    (shiftUp js q).downloads = q.downloads ∧ ∀ x, (shiftUp js q).tc x =
      if x ∈ js.takeWhile (fun j => (q.tc j).priority ≠ 0) then
        (q.tc x).setPriority ((q.tc x).priority + 1)
      else q.tc x := by
  induction js generalizing q with
  | nil => exact ⟨rfl, fun x => (if_neg List.not_mem_nil).symm⟩
  | cons j js ih =>
    obtain ⟨hj, hnd'⟩ := List.nodup_cons.mp hnd
    rw [shiftUp]
    by_cases h0 : (q.tc j).priority = 0
    · rw [if_pos h0, List.takeWhile_cons_of_neg (by simp [h0])]
      exact ⟨rfl, fun x => (if_neg List.not_mem_nil).symm⟩
    · obtain ⟨hd, htc⟩ := ih hnd' (q.setPriority j ((q.tc j).priority + 1))
      rw [if_neg h0, List.takeWhile_cons_of_pos (by simp [h0])]
      refine ⟨hd, fun x => ?_⟩
      have hsame : js.takeWhile
          (fun k => ((q.setPriority j ((q.tc j).priority + 1)).tc k).priority ≠ 0) =
          js.takeWhile fun k => (q.tc k).priority ≠ 0 := by
        apply takeWhile_congr
        intro k hk
        rw [setPriority_tc, if_neg fun hkj : k = j => hj (hkj ▸ hk)]
      rw [htc x, hsame, setPriority_tc]
      by_cases hxj : x = j
      · subst hxj
        have hnot : x ∉ js.takeWhile fun k => (q.tc k).priority ≠ 0 := fun h =>
          hj (List.takeWhile_subset _ h)
        rw [if_neg hnot, if_pos rfl, if_pos List.mem_cons_self]
      · simp only [List.mem_cons, hxj, false_or, if_false]

/-- What `torrentAdded` needs: what is left where it is is apart from what is raised, and no torrent of
the same kind that is left has the lowest priority. Kind: D -/
def MakesRoom (kinds : Bool) (i : ℕ) (q : QueueManager) : Prop :=
  Apart kinds i q.raised 1 q ∧ ∀ y ∈ q.downloads, y ∉ q.raised → y ≠ i →
    (q.tc y).completed = (q.tc i).completed → (q.tc y).priority ≠ 1

instance (kinds : Bool) (i : ℕ) (q : QueueManager) : Decidable (MakesRoom kinds i q) :=
  inferInstanceAs (Decidable (_ ∧ ∀ y ∈ q.downloads, y ∉ q.raised → y ≠ i →
    (q.tc y).completed = (q.tc i).completed → (q.tc y).priority ≠ 1))

/-- Those have a positive priority. Source: `QueueManager::torrentAdded`. Kind: L -/
theorem raised_pos (h : Sound q) {x : ℕ} (hx : x ∈ q.raised) : 0 < (q.tc x).priority := by
  have h0 := List.mem_takeWhile_imp hx
  have hnonneg := h.nonneg x (List.takeWhile_subset _ hx)
  rw [decide_eq_true_eq] at h0
  omega

/-- A torrent comes in at the bottom. Source: `QueueManager::torrentAdded`. Kind: L -/
theorem moves_shiftUp (h : q.downloads.Nodup) (i : ℕ) :
    Moves i q.raised 1 1 q ((shiftUp q.downloads q).setPriority i 1) := by
  obtain ⟨hd, htc⟩ := shiftUp_spec h q
  refine ⟨hd, fun x => ?_, ?_, fun x hx hxi => ?_, fun x hx hxi => ?_⟩
  · have hc : ((shiftUp q.downloads q).tc x).completed = (q.tc x).completed := by
      rw [htc x]
      split_ifs
      · rfl
      · rfl
    rw [setPriority_tc]
    split_ifs with hxi
    · rw [hxi] at hc ⊢
      exact hc
    · exact hc
  · rw [setPriority_tc, if_pos rfl]
    rfl
  · rw [setPriority_tc, if_neg hxi, htc x]
    exact congrArg Torrent.priority (if_pos hx)
  · rw [setPriority_tc, if_neg hxi, htc x]
    exact congrArg Torrent.priority (if_neg hx)

/-- **Room is made for the torrent that is added.** Source: `QueueManager::torrentAdded`. Kind: L -/
theorem makesRoom_spec {kinds : Bool} {i : ℕ} (h : Sound q) (hr : MakesRoom kinds i q) :
    Sound ((shiftUp q.downloads q).setPriority i 1) ∧
      Kept kinds i (fun _ => False) q ((shiftUp q.downloads q).setPriority i 1) := by
  have hm := moves_shiftUp h.nodup i
  have hjs : ∀ x ∈ q.raised, x ≠ i → 0 < (q.tc x).priority ∧ 0 < (q.tc x).priority + 1 :=
    fun x hx _ => by
      have hpos := raised_pos h hx
      omega
  refine ⟨hm.sound h zero_le_one hjs hr.1.kinds fun _ x hx hxi hc => ?_,
    hm.kept (Or.inl rfl) hjs hr.1⟩
  by_cases hxr : x ∈ q.raised
  · have hpos := raised_pos h hxr
    rw [hm.moved x hxr hxi]
    omega
  · rw [hm.left x hxr hxi]
    exact hr.2 x hx hxr hxi hc

/-- **The condition is exact**: without it the new priorities are not distinct, or the order is not
kept. Source: `torrent/queuemanager.cpp`, `torrentAdded`. Kind: L -/
theorem makesRoom_iff {kinds : Bool} {i : ℕ} (h : Sound q) (hi : i ∈ q.downloads) :
    MakesRoom kinds i q ↔ Distinct ((shiftUp q.downloads q).setPriority i 1) ∧
      Kept kinds i (fun _ => False) q ((shiftUp q.downloads q).setPriority i 1) := by
  constructor
  · intro hr
    obtain ⟨hs, hk⟩ := makesRoom_spec h hr
    exact ⟨hs.distinct, hk⟩
  · rintro ⟨hdist, hk⟩
    have hm := moves_shiftUp h.nodup i
    refine ⟨hm.apart (Or.inl rfl) (fun x hx _ => ?_) hk, fun y hy hyr hyi hc h1 => ?_⟩
    · have hpos := raised_pos h hx
      exact ⟨List.takeWhile_subset _ hx, by omega⟩
    · have hy1 : (((shiftUp q.downloads q).setPriority i 1).tc y).priority = 1 :=
        (hm.left y hyr hyi).trans h1
      rw [← hm.downloads] at hy hi
      have hne := hdist y hy i hi hyi
        (by rw [hm.completed, hm.completed, hc]) (by rw [hy1]; exact one_ne_zero)
      exact hne (hy1.trans hm.subject.symm)

/-- In a sorted list nothing in the queue stands behind the others.
Source: `QueueManager::torrentAdded`. Kind: L -/
theorem mem_raised_of_sorted {p : ℕ → ℤ} {l : List ℕ}
    (h : l.Pairwise fun i j => compareItems (p i) (p j) ≤ 0) {x : ℕ} (hx : x ∈ l) (h0 : p x ≠ 0) :
    x ∈ l.takeWhile fun j => p j ≠ 0 := by
  induction l with
  | nil => cases hx
  | cons j l ih =>
    obtain ⟨hj, hl⟩ := List.pairwise_cons.mp h
    have hj0 : p j ≠ 0 := by
      rcases List.mem_cons.mp hx with rfl | hx'
      · exact h0
      · intro hj0
        have hle := hj x hx'
        rw [compareItems, if_neg (by omega), if_pos ⟨hj0, h0⟩] at hle
        omega
    rw [List.takeWhile_cons_of_pos (by simp [hj0])]
    rcases List.mem_cons.mp hx with rfl | hx'
    · exact List.mem_cons_self
    · exact List.mem_cons_of_mem j (ih hl hx')

/-- A sorted list leaves nothing behind. Source: `torrent/queuemanager.cpp`, `torrentAdded`.
Kind: L -/
theorem makesRoom_of_sorted
    (h : q.downloads.Pairwise fun i j => compareItems (q.tc i).priority (q.tc j).priority ≤ 0)
    (kinds : Bool) (i : ℕ) : MakesRoom kinds i q := by
  refine ⟨fun x _ _ y hy hyr _ h0 _ => absurd (mem_raised_of_sorted h hy h0) hyr,
    fun y hy hyr _ _ h1 => hyr (mem_raised_of_sorted h hy ?_)⟩
  show (q.tc y).priority ≠ 0
  rw [h1]
  exact one_ne_zero

/-! ### The loop that closes the gap -/

/-- The torrents whose priority is lowered: those of the same kind, up to the first one with a lower
priority. Source: `QueueManager::dequeue`. Kind: D -/
def lowered (i : ℕ) (completed : Bool) (tp : ℤ) (js : List ℕ) (q : QueueManager) : List ℕ :=
  (js.filter fun j => !(decide (i = j) || (q.tc j).completed != completed)).takeWhile fun j =>
    !decide ((q.tc j).priority < tp)

/-- The torrents above the one that leaves go down by one. Source: `QueueManager::dequeue`.
Kind: L -/
theorem shiftDown_spec {i : ℕ} {completed : Bool} {tp : ℤ} {js : List ℕ} (hnd : js.Nodup)
    (q : QueueManager) :
    (shiftDown i completed tp js q).downloads = q.downloads ∧
      ∀ x, (shiftDown i completed tp js q).tc x =
        if x ∈ q.lowered i completed tp js then (q.tc x).setPriority ((q.tc x).priority - 1)
        else q.tc x := by
  induction js generalizing q with
  | nil => exact ⟨rfl, fun x => (if_neg List.not_mem_nil).symm⟩
  | cons j js ih =>
    obtain ⟨hj, hnd'⟩ := List.nodup_cons.mp hnd
    rw [shiftDown, lowered]
    by_cases hskip : (decide (i = j) || (q.tc j).completed != completed) = true
    · rw [if_pos hskip, List.filter_cons_of_neg (by rw [hskip]; exact Bool.false_ne_true)]
      exact ih hnd' q
    · rw [if_neg hskip, List.filter_cons_of_pos (by simpa [or_iff_not_imp_left] using hskip)]
      by_cases hlt : (q.tc j).priority < tp
      · rw [if_pos hlt, List.takeWhile_cons_of_neg (by simp [hlt])]
        exact ⟨rfl, fun x => (if_neg List.not_mem_nil).symm⟩
      · obtain ⟨hd, htc⟩ := ih hnd' (q.setPriority j ((q.tc j).priority - 1))
        rw [if_neg hlt, List.takeWhile_cons_of_pos (by simp [hlt])]
        refine ⟨hd, fun x => ?_⟩
        have hsame : (q.setPriority j ((q.tc j).priority - 1)).lowered i completed tp js =
            q.lowered i completed tp js := by
          have hk : ∀ k ∈ js, (q.setPriority j ((q.tc j).priority - 1)).tc k = q.tc k :=
            fun k hk => by rw [setPriority_tc, if_neg fun hkj : k = j => hj (hkj ▸ hk)]
          unfold lowered
          rw [List.filter_congr fun k hkm => by rw [hk k hkm]]
          apply takeWhile_congr
          intro k hkm
          rw [hk k (List.mem_of_mem_filter hkm)]
        rw [htc x, hsame, setPriority_tc]
        by_cases hxj : x = j
        · subst hxj
          have hnot : x ∉ q.lowered i completed tp js := fun h =>
            hj (List.mem_of_mem_filter (List.takeWhile_subset _ h))
          rw [if_neg hnot, if_pos rfl, if_pos List.mem_cons_self]
        · simp only [List.mem_cons, hxj, false_or, if_false]
          rfl

/-- What `dequeue` needs. Kind: D -/
def ClosesGap (kinds : Bool) (i : ℕ) (q : QueueManager) : Prop :=
  Apart kinds i (q.lowered i (q.tc i).completed (q.tc i).priority q.downloads) (-1) q

instance (kinds : Bool) (i : ℕ) (q : QueueManager) : Decidable (ClosesGap kinds i q) :=
  inferInstanceAs (Decidable (Apart _ _ _ _ _))

/-- A torrent leaves. Source: `QueueManager::dequeue`. Kind: L -/
theorem moves_shiftDown (h : q.downloads.Nodup) (i : ℕ) :
    Moves i (q.lowered i (q.tc i).completed (q.tc i).priority q.downloads) (-1) 0 q
      ((shiftDown i (q.tc i).completed (q.tc i).priority q.downloads q).setPriority i 0) := by
  obtain ⟨hd, htc⟩ := @shiftDown_spec i (q.tc i).completed (q.tc i).priority _ h q
  refine ⟨hd, fun x => ?_, ?_, fun x hx hxi => ?_, fun x hx hxi => ?_⟩
  · have hc : ((shiftDown i (q.tc i).completed (q.tc i).priority q.downloads q).tc x).completed =
        (q.tc x).completed := by
      rw [htc x]
      split_ifs
      · rfl
      · rfl
    rw [setPriority_tc]
    split_ifs with hxi
    · rw [hxi] at hc ⊢
      exact hc
    · exact hc
  · rw [setPriority_tc, if_pos rfl]
    rfl
  · rw [setPriority_tc, if_neg hxi, htc x]
    exact congrArg Torrent.priority (if_pos hx)
  · rw [setPriority_tc, if_neg hxi, htc x]
    exact congrArg Torrent.priority (if_neg hx)

/-- What is lowered stays in the queue. Source: `QueueManager::dequeue`. Kind: L -/
theorem lowered_pos {i : ℕ} (h : Sound q) (hi : i ∈ q.downloads) (h0 : (q.tc i).priority ≠ 0)
    {x : ℕ} (hx : x ∈ q.lowered i (q.tc i).completed (q.tc i).priority q.downloads) (hxi : x ≠ i) :
    x ∈ q.downloads ∧ 0 < (q.tc x).priority + -1 := by
  have hle := List.mem_takeWhile_imp hx
  have hmem := List.mem_filter.mp (List.takeWhile_subset _ hx)
  simp only [Bool.not_eq_true', decide_eq_false_iff_not, not_lt] at hle
  have hkind : (q.tc i).completed = (q.tc x).completed := by
    have h1 := hmem.2
    simp only [Bool.not_or, Bool.and_eq_true, Bool.not_eq_true', bne_eq_false_iff_eq] at h1
    exact h1.2.symm
  have hne := h.distinct i hi x hmem.1 (Ne.symm hxi) hkind h0
  have hnonneg := h.nonneg i hi
  exact ⟨hmem.1, by omega⟩

/-- **The gap is closed.** Source: `QueueManager::dequeue`. Kind: L -/
theorem closesGap_spec {kinds : Bool} {i : ℕ} (h : Sound q) (hi : i ∈ q.downloads)
    (h0 : (q.tc i).priority ≠ 0) (hg : ClosesGap kinds i q) :
    let q' := (shiftDown i (q.tc i).completed (q.tc i).priority q.downloads q).setPriority i 0
    Sound q' ∧ Kept kinds i (fun _ => False) q q' := by
  have hm := moves_shiftDown h.nodup i
  have hjs : ∀ x ∈ q.lowered i (q.tc i).completed (q.tc i).priority q.downloads, x ≠ i →
      0 < (q.tc x).priority ∧ 0 < (q.tc x).priority + -1 := fun x hx hxi => by
    have hpos := (lowered_pos h hi h0 hx hxi).2
    omega
  exact ⟨hm.sound h le_rfl hjs hg.kinds fun h1 => absurd rfl h1, hm.kept (Or.inr rfl) hjs hg⟩

/-- **The condition is exact**, here for the order. Source: `torrent/queuemanager.cpp`,
`torrentAdded`. Kind: L -/
theorem closesGap_iff {kinds : Bool} {i : ℕ} (h : Sound q) (hi : i ∈ q.downloads)
    (h0 : (q.tc i).priority ≠ 0) : ClosesGap kinds i q ↔ Kept kinds i (fun _ => False) q
      ((shiftDown i (q.tc i).completed (q.tc i).priority q.downloads q).setPriority i 0) := by
  constructor
  · intro hg
    exact (closesGap_spec h hi h0 hg).2
  · intro hk
    exact (moves_shiftDown h.nodup i).apart (Or.inr rfl) (fun x => lowered_pos h hi h0) hk

/-! ### The operations -/

/-- Another torrent's priority stays. Source: `torrent/queuemanager.cpp`, `torrentAdded`. Kind: L -/
theorem setPriority_of_ne {i x : ℕ} (h : x ≠ i) (p : ℤ) (q : QueueManager) :
    (q.setPriority i p).tc x = q.tc x := Function.update_of_ne h _ _

/-- The torrent leaves the queue. Source: `torrent/queuemanager.cpp`, `torrentAdded`. Kind: L -/
theorem Sound.setPriority_zero (h : Sound q) (i : ℕ) : Sound (q.setPriority i 0) := by
  refine h.of_same h.nodup (fun x hx _ => hx) (fun x hx => setPriority_of_ne hx 0 q) fun _ => ?_
  rw [setPriority_tc, if_pos rfl]
  rfl

/-- The user starts a torrent. Source: `torrent/queuemanager.cpp`, `torrentAdded`. Kind: L -/
theorem start_user_spec (kinds : Bool) (w : World) (i : ℕ) (h : Sound q) :
    Sound (q.start w true i).1 ∧ Kept kinds i (fun _ => False) q (q.start w true i).1 := by
  -- an attempt to start one torrent costs no other its place
  set env : ℕ → World := fun j => if j = i then w else {} with henv
  have hw : env i = w := if_pos rfl
  have hother : ∀ x, x ≠ i → ¬ (env x).Drops := fun x hx => by
    rw [henv]
    simp only [if_neg hx]
    exact World.not_drops
  unfold start
  simp only [if_true]
  split_ifs
  · exact ⟨h, Kept.refl _ _ _⟩
  · have hs := @settles_checkAndLaunch env i (q.setPriority i 0)
    rw [hw] at hs
    refine ⟨(h.setPriority_zero i).settles hs, ?_⟩
    have hk : Kept kinds i (fun _ => False) q (q.setPriority i 0) :=
      (Kept.refl _ _ _).then_same rfl fun x hx => setPriority_of_ne hx 0 q
    exact hk.settles hs (fun _ => id) fun x hx hd => absurd hd (hother x hx)

/-- The user stops a torrent. Source: `QueueManager::stop`. Kind: L -/
theorem stop_user_spec (kinds : Bool) (S : Sorter) (env : ℕ → World) (i : ℕ) (h : Sound q) :
    Sound (q.stop (orderQueue S env) true i) ∧
      Kept kinds i (fun x => (env x).Drops) q (q.stop (orderQueue S env) true i) := by
  have hrefl : Kept kinds i (fun x => (env x).Drops) q q :=
    (Kept.refl _ _ _).settles (Settles.refl env q) (fun _ => False.elim) fun _ _ => id
  unfold stop
  simp only [if_true]
  split_ifs with hch hrun
  · exact ⟨h, hrefl⟩
  · have hsame : ∀ x, x ≠ i → (q.modify i (Torrent.stop true)).tc x = q.tc x :=
      fun x hx => Function.update_of_ne hx _ _
    have hself : ((q.modify i (Torrent.stop true)).tc i).priority = 0 := by
      have hupd : (q.modify i (Torrent.stop true)).tc i = Torrent.stop true (q.tc i) :=
        Function.update_self _ _ _
      rw [hupd, Torrent.stop, hrun]
      rfl
    have hmod : Sound (q.modify i (Torrent.stop true)) :=
      h.of_same h.nodup (fun _ hx _ => hx) hsame fun _ => hself
    have hs := settles_orderQueue S env (q.modify i (Torrent.stop true))
    refine ⟨(hmod.settles hs).setPriority_zero i, ?_⟩
    have hkept : Kept kinds i (fun x => (env x).Drops) q (q.modify i (Torrent.stop true)) :=
      hrefl.then_same rfl hsame
    have hk := hkept.settles hs (fun _ => id) fun _ _ => id
    exact hk.then_same rfl fun x hx => setPriority_of_ne hx 0 _
  · exact ⟨h.setPriority_zero i, hrefl.then_same rfl fun x hx => setPriority_of_ne hx 0 q⟩

/-- The torrent enters the queue at its end. Source: `QueueManager::torrentAdded`. Kind: L -/
theorem torrentAdded_spec {kinds : Bool} {i : ℕ} (S : Sorter) (env : ℕ → World)
    (start_torrent : Bool) (h : Sound q) (hr : MakesRoom kinds i q) :
    Sound (q.torrentAdded S env i false start_torrent) ∧
      Kept kinds i (fun x => (env x).Drops) q (q.torrentAdded S env i false start_torrent) := by
  obtain ⟨hs, hk⟩ := makesRoom_spec h hr
  have horder := settles_orderQueue S env ((shiftUp q.downloads q).setPriority i 1)
  exact ⟨hs.settles horder, hk.settles horder (fun _ => False.elim) fun _ _ => id⟩

/-- The user adds a torrent. Source: `QueueManager::torrentAdded`. Kind: L -/
theorem torrentAdded_user_spec (kinds : Bool) (i : ℕ) (S : Sorter) (env : ℕ → World)
    (start_torrent : Bool) (h : Sound q) :
    Sound (q.torrentAdded S env i true start_torrent) ∧
      Kept kinds i (fun x => (env x).Drops) q (q.torrentAdded S env i true start_torrent) := by
  have hz := h.setPriority_zero i
  have hk : Kept kinds i (fun _ => False) q (q.setPriority i 0) :=
    (Kept.refl _ _ _).then_same rfl fun x hx => setPriority_of_ne hx 0 q
  unfold torrentAdded
  simp only [Bool.not_true, Bool.false_eq_true, if_false]
  split_ifs
  · obtain ⟨hs, hk'⟩ := start_user_spec kinds (env i) i hz
    have horder := settles_orderQueue S env ((q.setPriority i 0).start (env i) true i).1
    have hk'' := hk'.of_same fun x hx => setPriority_of_ne hx 0 q
    exact ⟨hs.settles horder, hk''.settles horder (fun _ => False.elim) fun _ _ => id⟩
  · have horder := settles_orderQueue S env (q.setPriority i 0)
    exact ⟨hz.settles horder, hk.settles horder (fun _ => False.elim) fun _ _ => id⟩

end QueueManager

/-- What is done to the queue. A torrent is new when it is added, and complete when it finishes; the
worlds are those met by the torrents that are started then. Kind: D -/
inductive Operation where
  | add (i : ℕ) (t : Torrent) (user start_torrent : Bool) (env : ℕ → World)
  | finish (i : ℕ) (env env' : ℕ → World)
  | enqueue (exceeded : Bool) (i : ℕ) (env : ℕ → World)
  | dequeue (i : ℕ) (env : ℕ → World)
  | start (i : ℕ) (w : World)
  | stop (i : ℕ) (env : ℕ → World)
  | remove (i : ℕ) (env : ℕ → World)

namespace Operation

open QueueManager

/-- The torrent that is added. Source: `KTorrentCore::init`. Kind: D -/
def appended (S : Sorter) (i : ℕ) (t : Torrent) (q : QueueManager) : QueueManager :=
  (q.modify i fun _ => t).append S i

/-- The torrent that has finished, before it is queued again. Source:
`QueueManager::torrentFinished`. Kind: D -/
def finished (i : ℕ) (q : QueueManager) : QueueManager :=
  (q.modify i fun t => { t with completed := true }).setPriority i 0

/-- Kind: D -/
def apply (S : Sorter) (q : QueueManager) : Operation → QueueManager
  | add i t user start_torrent env => (appended S i t q).torrentAdded S env i user start_torrent
  | finish i env env' =>
      (q.modify i fun t => { t with completed := true }).torrentFinished S env env' i
  | enqueue exceeded i env => q.enqueue S env exceeded i
  | dequeue i env => q.dequeue S env i
  | start i w => (q.start w true i).1
  | stop i env => q.stop (orderQueue S env) true i
  | remove i env => q.torrentRemoved S env i

/-- The torrent the operation is about. Kind: D -/
def subject : Operation → ℕ
  | add i _ _ _ _ | finish i _ _ | enqueue _ i _ | dequeue i _ | start i _ | stop i _ | remove i _ => i

/-- The torrents that may lose their place because an attempt to start them fails. Kind: D -/
def Drops : Operation → ℕ → Prop
  | add _ _ _ _ env, x | enqueue _ _ env, x | dequeue _ env, x | stop _ env, x | remove _ env, x =>
      (env x).Drops
  | finish _ env env', x => (env x).Drops ∨ (env' x).Drops
  | start _ _, _ => False

/-- The operations the program can ask for: a new torrent is not in the list and has no priority
yet, the others are about a torrent of the list, and only one that is queued is dequeued. Kind: D -/
def Possible (q : QueueManager) : Operation → Prop
  | add i t _ _ _ => i ∉ q.downloads ∧ t.priority = 0
  | dequeue i _ => i ∈ q.downloads ∧ (q.tc i).priority ≠ 0
  | finish i _ _ | enqueue _ i _ | start i _ | stop i _ | remove i _ => i ∈ q.downloads

/-- **When an operation does what it should**: the loop that makes room, or the one that closes the
gap, leaves no torrent where it is in the way. Kind: D -/
def Passes (kinds : Bool) (q : QueueManager) : Operation → Prop
  | finish i _ _ => q.keep_seeding = true → MakesRoom kinds i (finished i q)
  | enqueue exceeded i _ => ((q.tc i).completed && exceeded) = false → MakesRoom kinds i q
  | dequeue i _ => ClosesGap kinds i q
  | _ => True

variable {q : QueueManager} {kinds : Bool} {S : Sorter}

/-- A torrent is added. Source: `KTorrentCore::init`. Kind: L -/
theorem add_spec {i : ℕ} {t : Torrent} (user start_torrent : Bool) (env : ℕ → World) (h : Sound q)
    (hi : i ∉ q.downloads) (ht : t.priority = 0) :
    Sound ((appended S i t q).torrentAdded S env i user start_torrent) ∧
      Kept kinds i (fun x => (env x).Drops) q
        ((appended S i t q).torrentAdded S env i user start_torrent) := by
  have hperm : (appended S i t q).downloads.Perm (q.downloads ++ [i]) := S.perm _ _
  have hself : (appended S i t q).tc i = t := Function.update_self _ _ _
  have hsame : ∀ x, x ≠ i → (appended S i t q).tc x = q.tc x :=
    fun x hx => Function.update_of_ne hx _ _
  have hnd : (appended S i t q).downloads.Nodup := by
    rw [hperm.nodup_iff, List.nodup_append]
    refine ⟨h.nodup, List.nodup_singleton i, fun x hx y hy hxy => hi ?_⟩
    rw [← List.mem_singleton.mp hy, ← hxy]
    exact hx
  have hsound : Sound (appended S i t q) := by
    refine h.of_same hnd (fun x hx hxi => ?_) hsame fun _ => by rw [hself, ht]
    rcases List.mem_append.mp (hperm.mem_iff.mp hx) with hx' | hx'
    · exact hx'
    · exact absurd (List.mem_singleton.mp hx') hxi
  cases user
  · have hsorted : MakesRoom kinds i (appended S i t q) :=
      makesRoom_of_sorted (S.sorted (q.modify i fun _ => t).priorities _) kinds i
    obtain ⟨hs, hk⟩ := torrentAdded_spec S env start_torrent hsound hsorted
    exact ⟨hs, hk.of_same hsame⟩
  · obtain ⟨hs, hk⟩ := torrentAdded_user_spec kinds i S env start_torrent hsound
    exact ⟨hs, hk.of_same hsame⟩

/-- A torrent finishes, and there is room for it among the seeds if it goes on.
Source: `torrent/queuemanager.cpp`, `torrentAdded`. Kind: L -/
theorem finish_spec {i : ℕ} (env env' : ℕ → World) (h : Sound q)
    (hok : q.keep_seeding = true → MakesRoom kinds i (finished i q)) :
    Sound ((q.modify i fun t => { t with completed := true }).torrentFinished S env env' i) ∧
      Kept kinds i (fun x => (env x).Drops ∨ (env' x).Drops) q
        ((q.modify i fun t => { t with completed := true }).torrentFinished S env env' i) := by
  have hsame : ∀ x, x ≠ i → (finished i q).tc x = q.tc x := fun x hx => by
    rw [finished, setPriority_of_ne hx]
    exact Function.update_of_ne hx _ _
  have hsound : Sound (finished i q) := by
    refine h.of_same h.nodup (fun x hx _ => hx) hsame fun _ => ?_
    rw [finished, setPriority_tc, if_pos rfl]
    rfl
  unfold torrentFinished
  dsimp only
  rw [show (q.modify i fun t => { t with completed := true }).setPriority i 0 = finished i q from rfl]
  have hstep : ∀ q', Sound q' ∧ Kept kinds i (fun x => (env x).Drops) (finished i q) q' →
      Sound (q'.orderQueue S env') ∧ Kept kinds i (fun x => (env x).Drops ∨ (env' x).Drops) q
        (q'.orderQueue S env') := by
    intro q' hq'
    have horder := settles_orderQueue S env' q'
    refine ⟨hq'.1.settles horder, ?_⟩
    exact (hq'.2.of_same hsame).settles horder (fun _ => Or.inl) fun _ _ => Or.inr
  apply hstep
  split_ifs with hkeep
  · exact torrentAdded_spec S env false hsound (hok hkeep)
  · exact stop_user_spec kinds S env i hsound

/-- A torrent is removed. Source: `torrent/queuemanager.cpp`, `torrentAdded`. Kind: L -/
theorem remove_spec (i : ℕ) (env : ℕ → World) (h : Sound q) :
    Sound (q.torrentRemoved S env i) ∧
      Kept kinds i (fun x => (env x).Drops) q (q.torrentRemoved S env i) := by
  have hnot : i ∉ q.downloads.erase i := h.nodup.not_mem_erase
  have hsound : Sound { q with downloads := q.downloads.erase i } :=
    @Sound.of_same q { q with downloads := q.downloads.erase i } h i (h.nodup.erase i)
      (fun x hx _ => List.mem_of_mem_erase hx) (fun _ _ => rfl) fun hi => absurd hi hnot
  have hk : Kept kinds i (fun _ => False) q { q with downloads := q.downloads.erase i } :=
    ⟨fun _ _ _ => Or.inl Iff.rfl, fun _ _ _ _ _ _ _ _ _ => Iff.rfl⟩
  have horder := settles_orderQueue S env { q with downloads := q.downloads.erase i }
  exact ⟨hsound.settles horder, hk.settles horder (fun _ => False.elim) fun _ _ => id⟩

/-- **One operation**: the priorities stay distinct, and the others keep their order.
Source: `torrent/queuemanager.cpp`, `torrentAdded`. Kind: L -/
theorem apply_spec {op : Operation} (h : Sound q) (hp : op.Possible q) (hok : op.Passes kinds q) :
    Sound (op.apply S q) ∧ Kept kinds op.subject op.Drops q (op.apply S q) := by
  cases op with
  | add i t user start_torrent env => exact add_spec user start_torrent env h hp.1 hp.2
  | finish i env env' => exact finish_spec env env' h hok
  | enqueue exceeded i env =>
    show Sound (q.enqueue S env exceeded i) ∧
      Kept kinds i (fun x => (env x).Drops) q (q.enqueue S env exceeded i)
    unfold QueueManager.enqueue
    split_ifs with hover
    · refine ⟨h, (Kept.refl kinds i q).settles (Settles.refl env q) (fun _ => False.elim) ?_⟩
      exact fun _ _ => id
    · exact torrentAdded_spec S env false h (hok (Bool.not_eq_true _ ▸ hover))
  | dequeue i env =>
    obtain ⟨hs, hk⟩ := closesGap_spec h hp.1 hp.2 hok
    have horder := settles_orderQueue S env
      ((shiftDown i (q.tc i).completed (q.tc i).priority q.downloads q).setPriority i 0)
    exact ⟨hs.settles horder, hk.settles horder (fun _ => False.elim) fun _ _ => id⟩
  | start i w => exact start_user_spec kinds w i h
  | stop i env => exact stop_user_spec kinds S env i h
  | remove i env => exact remove_spec i env h

end Operation

/-! ### Runs -/

namespace QueueManager

/-- No torrents, sound priorities. Source: none: infrastructure. Kind: L -/
theorem sound_nil (h : q.downloads = []) : Sound q := by
  refine ⟨h ▸ List.nodup_nil, fun i hi => ?_, fun i hi => ?_⟩
  · rw [h] at hi
    cases hi
  · rw [h] at hi
    cases hi

end QueueManager

open QueueManager in
/-- **The priorities, in every run from an empty queue**: they are distinct among the downloads and
among the seeds in every state, and each operation keeps the order of the other torrents of the queue,
if no operation leaves a torrent where it is in the way. Source: `torrent/queuemanager.cpp`. Kind: P -/
theorem QueueManager.priorities_run (S : Sorter) (kinds : Bool) {q : QueueManager}
    (hq : q.downloads = []) {ops : List Operation}
    (h : Meets (Operation.apply S) (fun q op => op.Possible q ∧ op.Passes kinds q) q ops) :
    (∀ pre, pre <+: ops → Distinct (run (Operation.apply S) q pre)) ∧
      Meets (Operation.apply S)
        (fun q op => Kept kinds op.subject op.Drops q (op.apply S q)) q ops := by
  have hstep : ∀ q (op : Operation), Sound q → op.Possible q ∧ op.Passes kinds q →
      Sound (op.apply S q) := fun q op hs hop => (Operation.apply_spec hs hop.1 hop.2).1
  refine ⟨fun pre hpre => (h.invariant_at hstep (sound_nil hq) hpre).distinct, ?_⟩
  exact h.forall_step hstep (fun q op hs hop => (Operation.apply_spec hs hop.1 hop.2).2)
    (sound_nil hq)

/-! ### Where it fails -/

namespace QueueManager

/-- Two downloads are added, and the second one finishes. Kind: D -/
def oneFinishes : List Operation :=
  [.add 0 {} false false fun _ => {}, .add 1 {} false false fun _ => {},
    .finish 1 (fun _ => {}) fun _ => {}]

/-- The sample's operations are possible. Source: `torrent/queuemanager.cpp`, `torrentAdded`.
Kind: L -/
theorem possible_oneFinishes :
    Meets (Operation.apply insertion) (fun q op => op.Possible q) {} oneFinishes := by
  refine ⟨⟨?_, rfl⟩, ⟨?_, rfl⟩, ?_, trivial⟩
  · decide +kernel
  · decide +kernel
  · show 1 ∈ QueueManager.downloads _
    decide +kernel

/-- What the sample keeps. Source: `torrent/queuemanager.cpp`, `torrentAdded`. Kind: L -/
theorem priorities_oneFinishes :
    (∀ pre, pre <+: oneFinishes → Distinct (run (Operation.apply insertion) {} pre)) ∧
      Meets (Operation.apply insertion)
        (fun q op => Kept false op.subject op.Drops q (op.apply insertion q)) {} oneFinishes := by
  refine priorities_run insertion false rfl ?_
  obtain ⟨h1, h2, h3, -⟩ := possible_oneFinishes
  refine ⟨⟨h1, trivial⟩, ⟨h2, trivial⟩, ⟨h3, fun _ => ?_⟩, trivial⟩
  decide +kernel

/-- Then the first one finishes. Kind: D -/
def twoFinish : List Operation := oneFinishes ++ [.finish 0 (fun _ => {}) fun _ => {}]

/-- **Both seeds have the lowest priority**: the one that finishes last is the first of the list,
its priority is zero already, and the loop that is to make room ends there.
Source: `torrent/queuemanager.cpp`, `torrentAdded`. Kind: L -/
theorem both_first :
    Meets (Operation.apply insertion) (fun q op => op.Possible q) {} twoFinish ∧
      ¬ Distinct (run (Operation.apply insertion) {} twoFinish) := by
  constructor
  · refine meets_append.mpr ⟨possible_oneFinishes, ?_, trivial⟩
    show 0 ∈ QueueManager.downloads _
    decide +kernel
  · intro h
    have h01 := h 0 (by decide +kernel) 1 (by decide +kernel) (by decide) (by decide +kernel)
      (by decide +kernel)
    exact h01 (by decide +kernel)

end QueueManager

end KTorrent.Queue
