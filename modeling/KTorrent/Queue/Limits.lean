import KTorrent.Queue.QueueManager
import Mathlib.Data.List.Nodup
import Mathlib.Tactic.Linarith

/-!
# What runs after the queue was ordered

* `QueueManager.Obeys` — what is to hold of the downloads, or of the seeds: the limit is kept, and
  the torrents of the queue that are running are those with the highest priorities.
* `QueueManager.stopLoop_tc`, `QueueManager.startLoop_tc` — what the loops do to each torrent.
* `QueueManager.obeys_iff` — the queue is in order exactly if no torrent of the queue was running that
  the queue does not list, and if the user's torrents do not exceed the limit while one of the queue
  is running.
* `QueueManager.crowded_out` — the user's torrents exceed the limit.

Source: `torrent/queuemanager.cpp`, `QueueManager::orderQueue`
-/

namespace KTorrent.Queue

/-- The queue's own stop leaves the priority. Source: `TorrentControl::stop`. Kind: L -/
theorem Torrent.stop_false : Torrent.stop false = fun t => { t with running := false } := by
  funext t
  unfold Torrent.stop
  rw [Bool.and_false]
  rfl

namespace QueueManager

variable {q q' : QueueManager} {seeds : Bool}

/-- The running torrents that the queue controls. Kind: D -/
def runningQm (seeds : Bool) (q : QueueManager) : List ℕ :=
  q.downloads.filter fun i =>
    (q.tc i).running && !(q.tc i).user_controlled && (q.tc i).completed == seeds

/-- How many torrents the queue may have running. Kind: D -/
def places (seeds : Bool) (q : QueueManager) : ℕ :=
  if q.limit seeds = 0 then (q.queued seeds).length else (q.maxQm seeds).toNat

/-- **The queue is in order**: what it has running keeps to the limit, is neither moving files nor
stopped by an error, nothing that waits has a higher priority, and no place is left empty. Kind: D -/
structure Obeys (seeds : Bool) (q : QueueManager) : Prop where
  room : q.limit seeds ≠ 0 →
    ((q.runningQm seeds).length : ℤ) ≤ max 0 (q.limit seeds - q.userRunning seeds)
  listed : ∀ i ∈ q.runningQm seeds, i ∈ q.queued seeds
  highest : ∀ i ∈ q.runningQm seeds, ∀ j ∈ q.queued seeds, j ∉ q.runningQm seeds →
    compareItems (q.tc i).priority (q.tc j).priority ≤ 0
  full : (q.runningQm seeds).length = min (q.queued seeds).length (q.places seeds)

/-- What must hold before: the running torrents of the queue are neither moving files nor stopped by
an error, and none is running if the user's torrents exceed the limit. Kind: D -/
structure Ready (seeds : Bool) (q : QueueManager) : Prop where
  listed : ∀ i ∈ q.runningQm seeds, i ∈ q.queued seeds
  within : q.limit seeds ≠ 0 → q.limit seeds < q.userRunning seeds →
    ∀ i ∈ q.queued seeds, (q.tc i).running = false

/-- Each torrent is in the list once, there are not too many for an `int`, and the limits are
`int`s. Kind: D -/
structure InRange (q : QueueManager) : Prop where
  nodup : q.downloads.Nodup
  count : q.downloads.length < 2 ^ 31
  limits : ∀ seeds, -2 ^ 31 ≤ q.limit seeds ∧ q.limit seeds < 2 ^ 31

/-! ### What is touched -/

/-- Some torrents of a list were started or stopped. Kind: D -/
structure Touches (is : List ℕ) (q q' : QueueManager) : Prop where
  downloads : q'.downloads = q.downloads
  limit : ∀ seeds, q'.limit seeds = q.limit seeds
  running : ∀ i, ∃ b, q'.tc i = { q.tc i with running := b }
  frame : ∀ i, i ∉ is → q'.tc i = q.tc i

namespace Touches

variable {is js : List ℕ}

/-- Nothing is touched. Source: none: infrastructure. Kind: L -/
theorem refl (is : List ℕ) (q : QueueManager) : Touches is q q :=
  ⟨rfl, fun _ => rfl, fun i => ⟨(q.tc i).running, rfl⟩, fun _ _ => rfl⟩

/-- Two steps that touch only torrents of a list touch no others together. Source: none:
infrastructure. Kind: L -/
theorem trans {q₁ q₂ q₃ : QueueManager} (h : Touches is q₁ q₂) (h' : Touches is q₂ q₃) :
    Touches is q₁ q₃ := by
  refine ⟨h'.downloads.trans h.downloads, fun c => (h'.limit c).trans (h.limit c), fun i => ?_,
    fun i hi => (h'.frame i hi).trans (h.frame i hi)⟩
  obtain ⟨b, hb⟩ := h.running i
  obtain ⟨b', hb'⟩ := h'.running i
  exact ⟨b', by rw [hb', hb]⟩

/-- What is touched lies in a larger list too. Source: none: infrastructure. Kind: L -/
theorem mono (h : Touches is q q') (hsub : is ⊆ js) : Touches js q q' :=
  ⟨h.downloads, h.limit, h.running, fun i hi => h.frame i fun hmem => hi (hsub hmem)⟩

/-- Started or stopped, a torrent stays in its queue. Source: `QueueManager::orderQueue`. Kind: L -/
theorem queued (h : Touches is q q') (seeds : Bool) : q'.queued seeds = q.queued seeds := by
  unfold QueueManager.queued
  rw [h.downloads]
  apply List.filter_congr
  intro i _
  obtain ⟨b, hb⟩ := h.running i
  rw [hb]

/-- A torrent of the list is started or stopped. Source: `torrent/queuemanager.cpp`,
`QueueManager::orderQueue`. Kind: L -/
theorem modify {i : ℕ} (hi : i ∈ is) (b : Bool) (q : QueueManager) :
    Touches is q (q.modify i fun t => { t with running := b }) := by
  refine ⟨rfl, fun _ => rfl, fun j => ?_, fun j hj => ?_⟩
  · by_cases hji : j = i
    · subst hji
      exact ⟨b, Function.update_self _ _ _⟩
    · exact ⟨(q.tc j).running, Function.update_of_ne hji _ _⟩
  · have hji : j ≠ i := fun h => hj (h ▸ hi)
    exact Function.update_of_ne hji _ _

end Touches

/-- What the torrents of a list have in common that one of the loops walks over. Kind: D -/
def Listed (seeds : Bool) (is : List ℕ) (q : QueueManager) : Prop :=
  ∀ i ∈ is, i ∈ q.downloads ∧ (q.tc i).checking = false ∧ (q.tc i).user_controlled = false ∧
    (q.tc i).moving_files = false ∧ (q.tc i).stopped_by_error = false ∧ (q.tc i).completed = seeds

/-- A list of waiting torrents stays one. Source: `torrent/queuemanager.cpp`,
`QueueManager::orderQueue`. Kind: L -/
theorem Listed.touches {is js : List ℕ} (h : Listed seeds is q) (ht : Touches js q q') :
    Listed seeds is q' := by
  intro i hi
  obtain ⟨b, hb⟩ := ht.running i
  rw [ht.downloads, hb]
  exact h i hi

/-- The queue lists what waits. Source: `QueueManager::orderQueue`. Kind: L -/
theorem listed_queued (hc : ∀ i ∈ q.downloads, (q.tc i).checking = false) (seeds : Bool) :
    Listed seeds (q.queued seeds) q := by
  intro i hi
  obtain ⟨hmem, hcond⟩ := List.mem_filter.mp hi
  simp only [Bool.and_eq_true, Bool.not_eq_true', beq_iff_eq] at hcond
  obtain ⟨⟨⟨h1, h2⟩, h3⟩, h4⟩ := hcond
  exact ⟨hmem, hc i hmem, h1, h2, h3, h4⟩

/-! ### The loop that stops -/

/-- The loop stops every torrent of its list that runs. Source: `QueueManager::orderQueue`.
Kind: L -/
theorem stopLoop_spec {is : List ℕ} (h : Listed seeds is q) :
    Touches is q (q.stopLoop seeds is) ∧
      ∀ i ∈ is, (q.stopLoop seeds is).tc i = { q.tc i with running := false } := by
  induction is generalizing q with
  | nil => exact ⟨Touches.refl _ _, fun i hi => absurd hi List.not_mem_nil⟩
  | cons i is ih =>
    obtain ⟨hmem, hch, hu, hm, he, hk⟩ := h i List.mem_cons_self
    set q₁ := q.modify i fun t => { t with running := false } with hq₁
    have hstep : q.stopLoop seeds (i :: is) = q₁.stopLoop seeds is := by
      have hround : (if (q.tc i).running && !(q.tc i).user_controlled &&
          (q.tc i).completed == seeds then q.stop id false i else q) = q₁ := by
        by_cases hr : (q.tc i).running
        · rw [if_pos (by simp [hr, hu, hk])]
          simp [QueueManager.stop, hch, hr, Torrent.stop_false, hq₁]
        · have hself : ({ q.tc i with running := false } : Torrent) = q.tc i := by
            rw [← Bool.not_eq_true] at *
            cases hqi : q.tc i
            simp_all
          rw [if_neg (by simp [hr]), hq₁, QueueManager.modify]
          simp only [hself, Function.update_eq_self]
      rw [stopLoop, List.foldl_cons, hround]
      rfl
    have ht : Touches (i :: is) q q₁ := Touches.modify List.mem_cons_self false q
    obtain ⟨hts, htc⟩ := ih (fun j hj => h.touches ht j (List.mem_cons_of_mem i hj))
    rw [hstep]
    refine ⟨ht.trans (hts.mono (List.subset_cons_self i is)), fun j hj => ?_⟩
    by_cases hjs : j ∈ is
    · obtain ⟨b, hb⟩ := ht.running j
      rw [htc j hjs, hb]
    · have hji : j = i := (List.mem_cons.mp hj).resolve_right hjs
      subst hji
      rw [hts.frame j hjs]
      exact Function.update_self _ _ _

/-! ### The loop that starts -/

/-- How many of a list are not running. Kind: D -/
def idle (is : List ℕ) (q : QueueManager) : ℕ := is.countP fun i => !(q.tc i).running

/-- One torrent of a list is started, unless the limit is reached.
Source: `torrent/queuemanager.cpp`, `QueueManager::orderQueue`. Kind: L -/
theorem start_listed {i : ℕ} (h : Listed seeds [i] q) (hr : (q.tc i).running = false) :
    (q.start {} false i).1 =
      if q.limit seeds = 0 ∨ (q.getNumRunning seeds : ℤ) < q.limit seeds then
        q.modify i fun t => { t with running := true }
      else q := by
  obtain ⟨hmem, hch, hu, hm, he, hk⟩ := h i List.mem_cons_self
  have hlaunch : (q.checkAndLaunch {} i).1 = q.modify i (Torrent.start {}) := by
    simp [checkAndLaunch, launch]
  have hstart : q.modify i (Torrent.start {}) = q.modify i fun t => { t with running := true } := by
    have htc : Torrent.start {} (q.tc i) = { q.tc i with running := true } := by
      simp [Torrent.start, hr, hm, he]
    unfold QueueManager.modify
    rw [htc]
  unfold QueueManager.start
  rw [hch, hk]
  simp only [Bool.false_eq_true, if_false, Bool.or_eq_true, decide_eq_true_eq]
  split_ifs
  · rw [hlaunch, hstart]
  · rfl

/-- One round of the loop: the torrent is started if it is not running and the limit allows it.
Kind: D -/
def round (seeds : Bool) (i : ℕ) (q : QueueManager) : QueueManager :=
  if (q.tc i).running = false ∧ (q.limit seeds = 0 ∨ (q.getNumRunning seeds : ℤ) < q.limit seeds) then
    q.modify i fun t => { t with running := true }
  else q

/-- A round touches its own torrent, and stops none. Source: `torrent/queuemanager.cpp`,
`QueueManager::orderQueue`. Kind: L -/
theorem touches_round (seeds : Bool) {i : ℕ} {is : List ℕ} (hi : i ∈ is) (q : QueueManager) :
    Touches is q (q.round seeds i) ∧
      ∀ j, (q.tc j).running = true → ((q.round seeds i).tc j).running = true := by
  unfold round
  split_ifs with h
  · refine ⟨Touches.modify hi true q, fun j hj => ?_⟩
    by_cases hji : j = i
    · subst hji
      rw [h.1] at hj
      cases hj
    · show ((Function.update q.tc i _) j).running = true
      rwa [Function.update_of_ne hji]
  · exact ⟨Touches.refl _ _, fun _ hj => hj⟩

/-- One round of the loop, while there is room. Source: `QueueManager::orderQueue`. Kind: L -/
theorem startLoop_cons {i : ℕ} {is : List ℕ} (h : Listed seeds (i :: is) q) (max_qm counter : ℤ) :
    q.startLoop (fun _ => {}) seeds max_qm (i :: is) counter =
      if counter < max_qm then
        (q.round seeds i).startLoop (fun _ => {}) seeds max_qm is (counter + 1)
      else q := by
  have hi : Listed seeds [i] q := fun j hj => h j (by
    rw [List.mem_singleton.mp hj]
    exact List.mem_cons_self)
  obtain ⟨-, -, hu, -, he, hk⟩ := h i List.mem_cons_self
  have herr : ((q.round seeds i).tc i).stopped_by_error = false := by
    obtain ⟨b, hb⟩ := (touches_round seeds (List.mem_cons_self (a := i) (l := is)) q).1.running i
    rw [hb]
    exact he
  rw [startLoop]
  by_cases hr : (q.tc i).running
  · have hround : q.round seeds i = q := if_neg fun h => by
      rw [hr] at h
      cases h.1
    rw [hround]
    simp [hr]
  · have hr' : (q.tc i).running = false := Bool.not_eq_true _ ▸ hr
    have hround : q.round seeds i = (q.start {} false i).1 := by
      rw [start_listed hi hr', round]
      simp only [hr', true_and]
    rw [hround] at herr ⊢
    simp [hr', hu, hk, herr]

/-- The loop touches the list, and stops none. Source: `QueueManager::orderQueue`. Kind: L -/
theorem startLoop_touches {is : List ℕ} (max_qm : ℤ) {counter : ℤ} (h : Listed seeds is q) :
    Touches is q (q.startLoop (fun _ => {}) seeds max_qm is counter) ∧
      ∀ i, (q.tc i).running = true →
        ((q.startLoop (fun _ => {}) seeds max_qm is counter).tc i).running = true := by
  induction is generalizing q counter with
  | nil => exact ⟨Touches.refl _ _, fun _ hi => hi⟩
  | cons i is ih =>
    have hrest : Listed seeds is q := fun j hj => h j (List.mem_cons_of_mem i hj)
    have hsub := List.subset_cons_self i is
    obtain ⟨ht, hkeep⟩ := touches_round seeds (List.mem_cons_self (a := i) (l := is)) q
    rw [startLoop_cons h]
    split_ifs
    · obtain ⟨hts, hrun⟩ := @ih (q.round seeds i) (counter + 1) (hrest.touches ht)
      exact ⟨ht.trans (hts.mono hsub), fun j hj => hrun j (hkeep j hj)⟩
    · exact ⟨Touches.refl _ _, fun _ hj => hj⟩

/-- A count goes up when one element is counted that was not. Source: `torrent/queuemanager.cpp`,
`QueueManager::orderQueue`. Kind: L -/
theorem countP_succ {l : List ℕ} {p p' : ℕ → Bool} {i : ℕ} (hl : l.Nodup) (hi : i ∈ l)
    (hp : p i = false) (hp' : p' i = true) (hsame : ∀ j, j ≠ i → p' j = p j) :
    l.countP p' = l.countP p + 1 := by
  induction l with
  | nil => cases hi
  | cons j l ih =>
    obtain ⟨hj, hl'⟩ := List.nodup_cons.mp hl
    rcases List.mem_cons.mp hi with rfl | hi'
    · have hrest : l.countP p' = l.countP p := List.countP_congr fun k hk => by
        rw [hsame k fun hki => hj (hki ▸ hk)]
      rw [List.countP_cons, List.countP_cons, hrest, hp, hp']
      rfl
    · have hji : j ≠ i := fun hji => hj (hji ▸ hi')
      rw [List.countP_cons, List.countP_cons, ih hl' hi', hsame j hji]
      omega

/-- The torrent of a round is running afterwards, and there is room for the others.
Source: `torrent/queuemanager.cpp`, `QueueManager::orderQueue`. Kind: L -/
theorem round_running {i : ℕ} {is : List ℕ} {n : ℕ} (hnd : q.downloads.Nodup)
    (h : Listed seeds (i :: is) q)
    (hroom : q.limit seeds = 0 ∨
      (q.getNumRunning seeds : ℤ) + q.idle (i :: is.take n) ≤ q.limit seeds) :
    ((q.round seeds i).tc i).running = true ∧ (q.limit seeds = 0 ∨
      ((q.round seeds i).getNumRunning seeds : ℤ) + q.idle (is.take n) ≤ q.limit seeds) := by
  obtain ⟨hmem, -, -, -, -, hk⟩ := h i List.mem_cons_self
  have hcons : q.idle (i :: is.take n) =
      q.idle (is.take n) + if (q.tc i).running = false then 1 else 0 := by
    rw [idle, List.countP_cons]
    simp [idle]
  rw [hcons] at hroom
  by_cases hr : (q.tc i).running = false
  · rw [if_pos hr] at hroom
    have hlimit : q.limit seeds = 0 ∨ (q.getNumRunning seeds : ℤ) < q.limit seeds := by
      rcases hroom with h0 | h0
      · exact Or.inl h0
      · push_cast at h0
        exact Or.inr (by omega)
    have hround : q.round seeds i = q.modify i fun t => { t with running := true } :=
      if_pos ⟨hr, hlimit⟩
    have hself : (q.round seeds i).tc i = { q.tc i with running := true } := by
      rw [hround]
      exact Function.update_self _ _ _
    have hnum : (q.round seeds i).getNumRunning seeds = q.getNumRunning seeds + 1 := by
      have hdl : (q.round seeds i).downloads = q.downloads := by rw [hround]; rfl
      unfold getNumRunning
      rw [hdl]
      refine countP_succ hnd hmem (by simp [hr]) (by simp [hself, hk]) fun j hji => ?_
      have hj : (q.round seeds i).tc j = q.tc j := by
        rw [hround]
        exact Function.update_of_ne hji _ _
      rw [hj]
    refine ⟨by rw [hself], hroom.imp_right fun h0 => ?_⟩
    rw [hnum]
    push_cast at h0 ⊢
    omega
  · have hround : q.round seeds i = q := if_neg fun h0 => hr h0.1
    rw [if_neg hr, Nat.add_zero] at hroom
    rw [hround]
    exact ⟨Bool.not_eq_false _ ▸ hr, hroom⟩

/-- **The first torrents of the list are running**, if there is room for those that are not yet.
Source: `QueueManager::orderQueue`. Kind: L -/
theorem startLoop_tc {is : List ℕ} {max_qm counter : ℤ} (hnd : q.downloads.Nodup) (his : is.Nodup)
    (h : Listed seeds is q)
    (hroom : q.limit seeds = 0 ∨ (q.getNumRunning seeds : ℤ) +
      q.idle (is.take (max_qm - counter).toNat) ≤ q.limit seeds) :
    ∀ i ∈ is, ((q.startLoop (fun _ => {}) seeds max_qm is counter).tc i).running =
      (decide (i ∈ is.take (max_qm - counter).toNat) || (q.tc i).running) := by
  induction is generalizing q counter with
  | nil => exact fun i hi => absurd hi List.not_mem_nil
  | cons i is ih =>
    obtain ⟨hnot, his'⟩ := List.nodup_cons.mp his
    have hrest : Listed seeds is q := fun j hj => h j (List.mem_cons_of_mem i hj)
    obtain ⟨ht, hkeep⟩ := touches_round seeds (List.mem_cons_self (a := i) (l := is)) q
    rw [startLoop_cons h]
    by_cases hmax : counter < max_qm
    · have hk : (max_qm - counter).toNat = (max_qm - (counter + 1)).toNat + 1 := by omega
      rw [if_pos hmax, hk, List.take_succ_cons]
      rw [hk, List.take_succ_cons] at hroom
      have hother : ∀ j ∈ is, (q.round seeds i).tc j = q.tc j := fun j hj => by
        have hji : j ∉ [i] := fun hmem => hnot (List.mem_singleton.mp hmem ▸ hj)
        exact (touches_round seeds (List.mem_singleton.mpr rfl) q).1.frame j hji
      have hidle : (q.round seeds i).idle (is.take (max_qm - (counter + 1)).toNat) =
          q.idle (is.take (max_qm - (counter + 1)).toNat) := by
        apply List.countP_congr
        intro j hj
        rw [hother j (List.mem_of_mem_take hj)]
      have hround := round_running hnd h hroom
      have hnext := @ih (q.round seeds i) (counter + 1) (ht.downloads ▸ hnd) his'
        (hrest.touches ht) (by rw [ht.limit, hidle]; exact hround.2)
      intro j hj
      rcases List.mem_cons.mp hj with rfl | hj
      · have hstarted := (@startLoop_touches _ seeds is max_qm (counter + 1) (hrest.touches ht)).2 j
          hround.1
        rw [hstarted]
        simp
      · have hji : j ≠ i := fun hji => hnot (hji ▸ hj)
        rw [hnext j hj, hother j hj]
        simp [hji]
    · have hk : (max_qm - counter).toNat = 0 := by omega
      rw [if_neg hmax, hk]
      intro j _
      simp

/-- A loop that has reached its number does nothing. Source: `QueueManager::orderQueue`. Kind: L -/
theorem startLoop_done (env : ℕ → World) (seeds : Bool) {max_qm counter : ℤ} (h : max_qm ≤ counter)
    (is : List ℕ) (q : QueueManager) : q.startLoop env seeds max_qm is counter = q := by
  cases is with
  | nil => rfl
  | cons i is => exact if_neg (not_lt.mpr h)

/-! ### One kind of torrents -/

/-- What the order leaves of one kind of torrents: with too many of the user's, everything is as it
was; else the first ones of the queue are running. Kind: D -/
structure Served (seeds : Bool) (q q' : QueueManager) : Prop where
  touches : Touches (q.queued seeds ++ q.queued !seeds) q q'
  exceeded : q.limit seeds ≠ 0 → q.limit seeds < q.userRunning seeds →
    ∀ i ∈ q.queued seeds, (q'.tc i).running = (q.tc i).running
  served : (∀ i ∈ q.runningQm seeds, i ∈ q.queued seeds) →
    (q.limit seeds ≠ 0 → (q.userRunning seeds : ℤ) ≤ q.limit seeds) →
    ∀ i ∈ q.queued seeds, (q'.tc i).running = decide (i ∈ (q.queued seeds).take (q.places seeds))

/-- The user's torrents are not in the queue. Source: `QueueManager::orderQueue`. Kind: L -/
theorem userRunning_add_queued_le (q : QueueManager) (seeds : Bool) :
    q.userRunning seeds + (q.queued seeds).length ≤ q.downloads.length := by
  have h1 : q.userRunning seeds ≤ q.downloads.countP fun i => (q.tc i).user_controlled :=
    List.countP_mono_left fun i _ h => by
      simp only [Bool.and_eq_true] at h
      exact h.1.2
  have h2 : (q.queued seeds).length ≤
      q.downloads.countP fun i => !(q.tc i).user_controlled := by
    rw [queued, ← List.countP_eq_length_filter]
    refine List.countP_mono_left fun i _ h => ?_
    simp only [Bool.and_eq_true] at h
    exact h.1.1.1
  have h3 := List.length_eq_countP_add_countP (fun i => (q.tc i).user_controlled) (l := q.downloads)
  have h4 : q.downloads.countP (fun i => decide ¬ (q.tc i).user_controlled = true) =
      q.downloads.countP fun i => !(q.tc i).user_controlled :=
    List.countP_congr fun i _ => by simp
  omega

/-- A torrent waits in one of the two queues. Source: `QueueManager::orderQueue`. Kind: L -/
theorem not_mem_queued {i : ℕ} (h : i ∈ q.queued seeds) : i ∉ q.queued !seeds := by
  intro h'
  have h1 := (List.mem_filter.mp h).2
  have h2 := (List.mem_filter.mp h').2
  simp only [Bool.and_eq_true, beq_iff_eq] at h1 h2
  have h3 : seeds = !seeds := h1.2.symm.trans h2.2
  cases seeds
  · cases h3
  · cases h3

/-- The user's torrents are not touched. Source: `QueueManager::orderQueue`. Kind: L -/
theorem userRunning_touches {c : Bool} (h : Touches (q.queued c ++ q.queued !c) q q') (seeds : Bool) :
    q'.userRunning seeds = q.userRunning seeds := by
  unfold userRunning
  rw [h.downloads]
  apply List.countP_congr
  intro i hi
  by_cases hu : (q.tc i).user_controlled
  · have hnot : i ∉ q.queued c ++ q.queued !c := by
      rw [List.mem_append, queued, queued, List.mem_filter, List.mem_filter]
      simp [hu]
    rw [h.frame i hnot]
  · obtain ⟨b, hb⟩ := h.running i
    rw [hb]
    simp [hu]

/-- **The running torrents of one kind** are the user's and those in the queue, if nothing else of
the queue is running. Source: `QueueManager::getNumRunning`. Kind: L -/
theorem getNumRunning_eq {c : Bool} (h : Touches (q.queued c ++ q.queued !c) q q')
    (hl : ∀ i ∈ q.runningQm seeds, i ∈ q.queued seeds) :
    q'.getNumRunning seeds =
      q.userRunning seeds + (q.queued seeds).countP fun i => (q'.tc i).running := by
  have hsplit : q'.getNumRunning seeds = q'.userRunning seeds +
      q'.downloads.countP fun i =>
        (q'.tc i).running && !(q'.tc i).user_controlled && (q'.tc i).completed == seeds := by
    unfold getNumRunning userRunning
    generalize q'.downloads = l
    induction l with
    | nil => rfl
    | cons i l ih =>
      simp only [List.countP_cons, ih]
      cases (q'.tc i).running
      · simp
      · cases (q'.tc i).user_controlled
        · simp [Nat.add_assoc]
        · simp [Nat.add_assoc, Nat.add_comm]
  rw [hsplit, userRunning_touches h, h.downloads]
  congr 1
  unfold queued
  rw [List.countP_filter]
  apply List.countP_congr
  intro i hi
  obtain ⟨b, hb⟩ := h.running i
  by_cases hq : i ∈ q.queued c ++ q.queued !c
  · have hcond : (q.tc i).user_controlled = false ∧ (q.tc i).moving_files = false ∧
        (q.tc i).stopped_by_error = false := by
      rw [List.mem_append, queued, queued, List.mem_filter, List.mem_filter] at hq
      rcases hq with hq | hq
      · have h1 := hq.2
        simp only [Bool.and_eq_true, Bool.not_eq_true'] at h1
        exact ⟨h1.1.1.1, h1.1.1.2, h1.1.2⟩
      · have h1 := hq.2
        simp only [Bool.and_eq_true, Bool.not_eq_true'] at h1
        exact ⟨h1.1.1.1, h1.1.1.2, h1.1.2⟩
    rw [hb]
    simp [hcond]
  · rw [h.frame i hq]
    constructor
    · intro hrun
      have hmem : i ∈ q.queued seeds := hl i (List.mem_filter.mpr ⟨hi, hrun⟩)
      have hcond := (List.mem_filter.mp hmem).2
      simp only [Bool.and_eq_true] at hrun hcond ⊢
      exact ⟨hrun.1.1, hcond⟩
    · intro hrun
      simp only [Bool.and_eq_true] at hrun ⊢
      exact ⟨⟨hrun.1, hrun.2.1.1.1⟩, hrun.2.2⟩

/-- What lies behind the limit is stopped, and nothing else. Source: `QueueManager::orderQueue`.
Kind: L -/
theorem touches_stopBehind {is : List ℕ} (hc : ∀ i ∈ q.downloads, (q.tc i).checking = false)
    (h : Touches is q q') :
    Touches (q.queued seeds) q' (stopBehind seeds q q') ∧ ∀ i ∈ q.queued seeds,
      ((stopBehind seeds q q').tc i).running =
        (!decide (q.limit seeds ≠ 0 ∧ i ∈ (q.queued seeds).drop (toUint32 (q.maxQm seeds))) &&
          (q'.tc i).running) := by
  unfold stopBehind
  split_ifs with h0
  · have hsub : (q.queued seeds).drop (toUint32 (q.maxQm seeds)) ⊆ q.queued seeds :=
      List.drop_subset _ _
    have hlisted : Listed seeds ((q.queued seeds).drop (toUint32 (q.maxQm seeds))) q' :=
      Listed.touches (fun i hi => listed_queued hc seeds i (hsub hi)) h
    obtain ⟨ht, htc⟩ := stopLoop_spec hlisted
    refine ⟨ht.mono hsub, fun i hi => ?_⟩
    by_cases hdrop : i ∈ (q.queued seeds).drop (toUint32 (q.maxQm seeds))
    · rw [htc i hdrop]
      simp [h0, hdrop]
    · rw [ht.frame i hdrop]
      simp [hdrop]
  · refine ⟨Touches.refl _ _, fun i hi => ?_⟩
    simp [not_not.mp h0]

/-- No torrent waits twice. Source: `QueueManager::orderQueue`. Kind: L -/
theorem nodup_queued (h : q.downloads.Nodup) (seeds : Bool) : (q.queued seeds).Nodup := h.filter _

/-- The running and the idle ones of a list. Source: `torrent/queuemanager.cpp`,
`QueueManager::orderQueue`. Kind: L -/
theorem idle_add (is : List ℕ) (q : QueueManager) :
    q.idle is + is.countP (fun i => (q.tc i).running) = is.length := by
  rw [idle, Nat.add_comm, List.length_eq_countP_add_countP fun i => (q.tc i).running]
  congr 1
  apply List.countP_congr
  intro i _
  simp

/-- **The four loops, seen by one kind**: what happens to the other kind comes before, between and
after the two loops of this kind. Source: `torrent/queuemanager.cpp`, `QueueManager::orderQueue`.
Kind: L -/
theorem served_loops {qa qb qc qd qe : QueueManager} (hr : InRange q)
    (hc : ∀ i ∈ q.downloads, (q.tc i).checking = false)
    (ha : Touches (q.queued !seeds) q qa) (hb : qb = stopBehind seeds q qa)
    (hbc : Touches (q.queued !seeds) qb qc) (hd : qd = startFront (fun _ => {}) seeds q qc)
    (hde : Touches (q.queued !seeds) qd qe) : Served seeds q qe := by
  subst hb hd
  have hleft := List.subset_append_left (q.queued seeds) (q.queued !seeds)
  have hright := List.subset_append_right (q.queued seeds) (q.queued !seeds)
  obtain ⟨htb, hstop⟩ := @touches_stopBehind q qa seeds _ hc ha
  have hqb := (ha.mono hright).trans (htb.mono hleft)
  have hqc := hqb.trans (hbc.mono hright)
  have hlisted : Listed seeds (q.queued seeds) qc := (listed_queued hc seeds).touches hqc
  have hts := fun m : ℤ => (@startLoop_touches qc seeds _ m 0 hlisted).1
  have htd : Touches (q.queued seeds) qc (startFront (fun _ => {}) seeds q qc) := hts _
  have hqd := hqc.trans (htd.mono hleft)
  -- what the loops of this kind have left
  have hrunc : ∀ i ∈ q.queued seeds, (qc.tc i).running =
      (!decide (q.limit seeds ≠ 0 ∧ i ∈ (q.queued seeds).drop (toUint32 (q.maxQm seeds))) &&
        (q.tc i).running) := by
    intro i hi
    rw [hbc.frame i (not_mem_queued hi), hstop i hi, ha.frame i (not_mem_queued hi)]
  have hrune : ∀ i ∈ q.queued seeds,
      (qe.tc i).running = ((startFront (fun _ => {}) seeds q qc).tc i).running := by
    intro i hi
    rw [hde.frame i (not_mem_queued hi)]
  have hlen : (q.queued seeds).length ≤ q.downloads.length := List.length_filter_le _ _
  have hsum := userRunning_add_queued_le q seeds
  have hcount := hr.count
  have hlimit := hr.limits seeds
  refine ⟨hqd.trans (hde.mono hright), fun h0 hlt i hi => ?_, fun hl hle i hi => ?_⟩
  · have hneg : q.maxQm seeds < 0 := by
      unfold maxQm
      omega
    have hbig : (q.queued seeds).length ≤ toUint32 (q.maxQm seeds) := by
      unfold toUint32 maxQm
      omega
    have hdone : startFront (fun _ => {}) seeds q qc = qc := by
      unfold startFront
      rw [if_neg h0]
      exact startLoop_done _ _ hneg.le _ _
    rw [hrune i hi, hdone, hrunc i hi, List.drop_eq_nil_of_le hbig]
    simp
  · rw [hrune i hi]
    have hnd : qc.downloads.Nodup := hqc.downloads ▸ hr.nodup
    by_cases h0 : q.limit seeds = 0
    · have hroom : qc.limit seeds = 0 ∨ (qc.getNumRunning seeds : ℤ) +
          qc.idle ((q.queued seeds).take (((q.queued seeds).length : ℤ) - 0).toNat) ≤
            qc.limit seeds := Or.inl ((hqc.limit seeds).trans h0)
      have hmem : i ∈ (q.queued seeds).take (((q.queued seeds).length : ℤ) - 0).toNat := by
        rwa [List.take_of_length_le (by omega)]
      have hplaces : i ∈ (q.queued seeds).take (q.places seeds) := by
        rwa [places, if_pos h0, List.take_length]
      unfold startFront
      rw [if_pos h0, startLoop_tc hnd (nodup_queued hr.nodup seeds) hlisted hroom i hi,
        decide_eq_true hmem, decide_eq_true hplaces]
      rfl
    · have hle' := hle h0
      have hn : toUint32 (q.maxQm seeds) = (q.maxQm seeds - 0).toNat := by
        unfold toUint32 maxQm
        omega
      have hplaces : q.places seeds = (q.maxQm seeds - 0).toNat := by
        rw [places, if_neg h0, sub_zero]
      set n := (q.maxQm seeds - 0).toNat with hndef
      have hsplit := List.take_append_drop n (q.queued seeds)
      -- behind the limit nothing is running any more
      have hdrop : ((q.queued seeds).drop n).countP (fun j => (qc.tc j).running) = 0 := by
        apply List.countP_eq_zero.mpr
        intro j hj
        rw [hrunc j (List.mem_of_mem_drop hj), hn]
        simp [h0, hj]
      have hnum := getNumRunning_eq hqc hl
      rw [← hsplit, List.countP_append, hdrop, Nat.add_zero] at hnum
      have hidle := idle_add ((q.queued seeds).take n) qc
      have htake : ((q.queued seeds).take n).length ≤ n := List.length_take_le _ _
      have hroom : (qc.getNumRunning seeds : ℤ) + qc.idle ((q.queued seeds).take n) ≤
          qc.limit seeds := by
        rw [hqc.limit seeds, hnum]
        unfold maxQm at hndef
        omega
      unfold startFront
      rw [if_neg h0, startLoop_tc hnd (nodup_queued hr.nodup seeds) hlisted (Or.inr hroom) i hi,
        hrunc i hi, hn, ← hndef, hplaces]
      by_cases hmem : i ∈ (q.queued seeds).take n
      · rw [decide_eq_true hmem, Bool.true_or]
      · have hi' : i ∈ (q.queued seeds).drop n := by
          rw [← hsplit] at hi
          exact (List.mem_append.mp hi).resolve_left hmem
        simp [hmem, h0, hi']

/-! ### Without limits -/

/-- Neither the user's, nor moving files, nor stopped by an error. Kind: D -/
def startable (q : QueueManager) (i : ℕ) : Bool :=
  !(q.tc i).user_controlled && !(q.tc i).moving_files && !(q.tc i).stopped_by_error

/-- Without limits every torrent that may run is started. Source: `QueueManager::orderQueue`.
Kind: L -/
theorem startAll_spec {is : List ℕ} (h0 : ∀ seeds, q.limit seeds = 0)
    (hc : ∀ i ∈ is, i ∈ q.downloads ∧ (q.tc i).checking = false) :
    let q' := q.startAll (fun _ => {}) is
    q'.downloads = q.downloads ∧ (∀ seeds, q'.limit seeds = q.limit seeds) ∧ ∀ i, q'.tc i =
      if i ∈ is ∧ q.startable i = true then { q.tc i with running := true } else q.tc i := by
  induction is generalizing q with
  | nil =>
    refine ⟨rfl, fun _ => rfl, fun i => ?_⟩
    rw [if_neg fun h => absurd h.1 List.not_mem_nil]
    rfl
  | cons i is ih =>
    obtain ⟨hmem, hch⟩ := hc i List.mem_cons_self
    have hround : ∃ q₁ : QueueManager,
        q.startAll (fun _ => {}) (i :: is) = q₁.startAll (fun _ => {}) is ∧
        q₁.downloads = q.downloads ∧ (∀ seeds, q₁.limit seeds = q.limit seeds) ∧ ∀ j, q₁.tc j =
          if j = i ∧ q.startable i = true then { q.tc j with running := true } else q.tc j := by
      by_cases hs : q.startable i = true
      · have hs' := hs
        simp only [startable, Bool.and_eq_true, Bool.not_eq_true'] at hs'
        obtain ⟨⟨hu, hm⟩, he⟩ := hs'
        by_cases hrun : (q.tc i).running
        · refine ⟨q, ?_, rfl, fun _ => rfl, fun j => ?_⟩
          · rw [startAll, List.foldl_cons, if_neg (by simp [hrun])]
            rfl
          · split_ifs with hj
            · rw [hj.1]
              cases hqi : q.tc i
              rw [hqi] at hrun
              simp_all
            · rfl
        · have hr : (q.tc i).running = false := Bool.not_eq_true _ ▸ hrun
          have hstart : (q.start {} false i).1 = q.modify i fun t => { t with running := true } := by
            have hl : Listed (q.tc i).completed [i] q := fun j hj => by
              rw [List.mem_singleton.mp hj]
              exact ⟨hmem, hch, hu, hm, he, rfl⟩
            rw [start_listed hl hr, if_pos (Or.inl (h0 _))]
          have hself : ((q.modify i fun t => { t with running := true }).tc i).stopped_by_error =
              false := by
            have hupd : (q.modify i fun t => { t with running := true }).tc i =
                { q.tc i with running := true } := Function.update_self _ _ _
            rw [hupd]
            exact he
          refine ⟨q.modify i fun t => { t with running := true }, ?_, rfl, fun _ => rfl, fun j => ?_⟩
          · rw [startAll, List.foldl_cons, if_pos (by simp [hr, hu, hm, he])]
            simp only [hstart, hself]
            rfl
          · split_ifs with hj
            · rw [hj.1]
              exact Function.update_self _ _ _
            · exact Function.update_of_ne (fun hji => hj ⟨hji, hs⟩) _ _
      · refine ⟨q, ?_, rfl, fun _ => rfl, fun j => by rw [if_neg fun hj => hs hj.2]⟩
        rw [startAll, List.foldl_cons, if_neg]
        · rfl
        · intro hcond
          apply hs
          simp only [Bool.and_eq_true, Bool.not_eq_true', startable] at hcond ⊢
          exact ⟨⟨hcond.1.1.2, hcond.2⟩, hcond.1.2⟩
    obtain ⟨q₁, heq, hdl, hlim, htc⟩ := hround
    have hsame : ∀ j, (q₁.tc j).checking = (q.tc j).checking ∧ q₁.startable j = q.startable j := by
      intro j
      unfold startable
      rw [htc j]
      split_ifs
      · exact ⟨rfl, rfl⟩
      · exact ⟨rfl, rfl⟩
    obtain ⟨hdl', hlim', htc'⟩ := ih (fun c => (hlim c).trans (h0 c)) fun j hj => by
      rw [hdl, (hsame j).1]
      exact hc j (List.mem_cons_of_mem i hj)
    rw [heq]
    refine ⟨hdl'.trans hdl, fun c => (hlim' c).trans (hlim c), fun j => ?_⟩
    rw [htc' j, (hsame j).2, htc j]
    by_cases hji : j = i
    · subst hji
      by_cases hs : q.startable j = true
      · simp [hs]
      · simp [hs]
    · simp [hji]

/-- Without limits everything is served. Source: `QueueManager::orderQueue`. Kind: L -/
theorem served_startAll (h0 : ∀ seeds, q.limit seeds = 0)
    (hc : ∀ i ∈ q.downloads, (q.tc i).checking = false) (seeds : Bool) :
    Served seeds q (q.startAll (fun _ => {}) q.downloads) := by
  obtain ⟨hdl, hlim, htc⟩ := @startAll_spec q q.downloads h0 fun i hi => ⟨hi, hc i hi⟩
  have hmem : ∀ i, i ∈ q.queued seeds ++ q.queued !seeds ↔ i ∈ q.downloads ∧ q.startable i = true := by
    intro i
    rw [List.mem_append, queued, queued, List.mem_filter, List.mem_filter, ← and_or_left, startable]
    simp only [Bool.and_eq_true, Bool.not_eq_true', beq_iff_eq]
    cases seeds
    · cases (q.tc i).completed <;> simp
    · cases (q.tc i).completed <;> simp
  refine ⟨⟨hdl, hlim, fun i => ?_, fun i hi => ?_⟩, fun h => absurd (h0 seeds) h, fun _ _ i hi => ?_⟩
  · rw [htc i]
    split_ifs
    · exact ⟨true, rfl⟩
    · exact ⟨(q.tc i).running, rfl⟩
  · rw [htc i, if_neg fun h => hi ((hmem i).mpr h)]
  · have hin := (hmem i).mp (List.mem_append_left _ hi)
    rw [htc i, if_pos hin, places, if_pos (h0 seeds), List.take_length, decide_eq_true hi]

/-! ### The result -/

/-- Of a list without repetitions, what belongs to its front is its front.
Source: `torrent/queuemanager.cpp`, `QueueManager::orderQueue`. Kind: L -/
theorem filter_take {l : List ℕ} (h : l.Nodup) (n : ℕ) :
    (l.filter fun i => decide (i ∈ l.take n)) = l.take n := by
  have hsplit := List.take_append_drop n l
  have hdisj : ∀ i ∈ l.drop n, i ∉ l.take n := by
    intro i hi hi'
    rw [← hsplit] at h
    exact (List.nodup_append.mp h).2.2 i hi' i hi rfl
  have h1 : ((l.take n).filter fun i => decide (i ∈ l.take n)) = l.take n :=
    List.filter_eq_self.mpr fun i hi => decide_eq_true hi
  have h2 : ((l.drop n).filter fun i => decide (i ∈ l.take n)) = [] :=
    List.filter_eq_nil_iff.mpr fun i hi => by simp [hdisj i hi]
  have h3 := List.filter_append (p := fun i => decide (i ∈ l.take n)) (l.take n) (l.drop n)
  rw [hsplit, h1, h2, List.append_nil] at h3
  exact h3

/-- What runs afterwards is what runs of the queue. Source: `torrent/queuemanager.cpp`,
`QueueManager::orderQueue`. Kind: L -/
theorem Served.runningQm_eq (h : Served seeds q q')
    (hl : ∀ i ∈ q.runningQm seeds, i ∈ q.queued seeds) :
    q'.runningQm seeds = (q.queued seeds).filter fun i => (q'.tc i).running := by
  unfold runningQm queued
  rw [h.touches.downloads, List.filter_filter]
  apply List.filter_congr
  intro i hi
  rw [Bool.eq_iff_iff]
  obtain ⟨b, hb⟩ := h.touches.running i
  constructor
  · intro hrun
    have hmem : i ∈ q.queued seeds := by
      by_contra hnot
      by_cases hother : i ∈ q.queued !seeds
      · have hk := (List.mem_filter.mp hother).2
        rw [hb] at hrun
        simp only [Bool.and_eq_true, beq_iff_eq] at hk hrun
        have h3 : seeds = !seeds := hrun.2.symm.trans hk.2
        cases seeds
        · cases h3
        · cases h3
      · rw [h.touches.frame i (by rw [List.mem_append, not_or]; exact ⟨hnot, hother⟩)] at hrun
        exact hnot (hl i (List.mem_filter.mpr ⟨hi, hrun⟩))
    have hcond := (List.mem_filter.mp hmem).2
    simp only [Bool.and_eq_true] at hrun hcond ⊢
    exact ⟨hrun.1.1, hcond⟩
  · intro hrun
    rw [hb] at hrun ⊢
    simp only [Bool.and_eq_true] at hrun ⊢
    exact ⟨⟨hrun.1, hrun.2.1.1.1⟩, hrun.2.2⟩

/-- The places are the same. Source: `torrent/queuemanager.cpp`, `QueueManager::orderQueue`.
Kind: L -/
theorem Served.places_eq (h : Served seeds q q') : q'.places seeds = q.places seeds := by
  unfold places maxQm
  rw [h.touches.limit seeds, h.touches.queued seeds, userRunning_touches h.touches]

/-- What is running in the queue is one of the queue's that are running.
Source: `torrent/queuemanager.cpp`, `QueueManager::orderQueue`. Kind: L -/
theorem mem_runningQm {i : ℕ} (h : i ∈ q.queued seeds) (hr : (q.tc i).running = true) :
    i ∈ q.runningQm seeds := by
  obtain ⟨hmem, hcond⟩ := List.mem_filter.mp h
  simp only [Bool.and_eq_true] at hcond
  refine List.mem_filter.mpr ⟨hmem, ?_⟩
  simp only [Bool.and_eq_true]
  exact ⟨⟨hr, hcond.1.1.1⟩, hcond.2⟩

/-- One torrent cannot be both a download and a seed. Source: `torrent/queuemanager.cpp`,
`QueueManager::orderQueue`. Kind: L -/
theorem runningQm_not_other {i : ℕ} (h : i ∈ q.runningQm seeds) : i ∉ q.queued !seeds := by
  intro h'
  have h1 := (List.mem_filter.mp h).2
  have h2 := (List.mem_filter.mp h').2
  simp only [Bool.and_eq_true, beq_iff_eq] at h1 h2
  have h3 : seeds = !seeds := h1.2.symm.trans h2.2
  cases seeds
  · cases h3
  · cases h3

/-- **The first torrents of the queue are running**, so that the queue is in order.
Source: `torrent/queuemanager.cpp`, `QueueManager::orderQueue`. Kind: L -/
theorem Served.obeys (h : Served seeds q q') (hnd : q.downloads.Nodup)
    (hs : q.downloads.Pairwise fun i j => compareItems (q.tc i).priority (q.tc j).priority ≤ 0)
    (hready : Ready seeds q) : Obeys seeds q' := by
  have hqueued := h.touches.queued seeds
  have hprio : ∀ i, (q'.tc i).priority = (q.tc i).priority := fun i => by
    obtain ⟨b, hb⟩ := h.touches.running i
    rw [hb]
  have huser := userRunning_touches h.touches seeds
  have hrunning := h.runningQm_eq hready.listed
  by_cases hle : q.limit seeds ≠ 0 → (q.userRunning seeds : ℤ) ≤ q.limit seeds
  · have htake : q'.runningQm seeds = (q.queued seeds).take (q.places seeds) := by
      rw [hrunning, ← filter_take (nodup_queued hnd seeds) (q.places seeds)]
      apply List.filter_congr
      intro i hi
      exact h.served hready.listed hle i hi
    refine ⟨fun h0 => ?_, fun i hi => ?_, fun i hi j hj hnot => ?_, ?_⟩
    · rw [h.touches.limit seeds] at h0 ⊢
      have hlen : ((q.queued seeds).take (q.places seeds)).length ≤ q.places seeds :=
        List.length_take_le _ _
      rw [htake, huser]
      rw [places, if_neg h0, maxQm] at hlen
      rw [places, if_neg h0, maxQm]
      omega
    · rw [hqueued]
      rw [htake] at hi
      exact List.mem_of_mem_take hi
    · rw [htake] at hi hnot
      rw [hqueued] at hj
      have hsorted : (q.queued seeds).Pairwise fun i j =>
          compareItems (q.tc i).priority (q.tc j).priority ≤ 0 := hs.sublist List.filter_sublist
      rw [← List.take_append_drop (q.places seeds) (q.queued seeds)] at hj hsorted
      rw [hprio, hprio]
      exact (List.pairwise_append.mp hsorted).2.2 i hi j ((List.mem_append.mp hj).resolve_left hnot)
    · rw [h.places_eq, htake, hqueued, List.length_take, Nat.min_comm]
  · rw [Classical.not_imp, not_le] at hle
    obtain ⟨h0, hlt⟩ := hle
    have hnone : q'.runningQm seeds = [] := by
      rw [hrunning, List.filter_eq_nil_iff]
      intro i hi
      rw [h.exceeded h0 hlt i hi, hready.within h0 hlt i hi]
      exact Bool.false_ne_true
    have hplaces : q'.places seeds = 0 := by
      rw [h.places_eq, places, if_neg h0, maxQm]
      omega
    refine ⟨fun _ => ?_, fun i hi => ?_, fun i hi => ?_, ?_⟩
    · rw [hnone]
      exact le_max_left _ _
    · rw [hnone] at hi
      cases hi
    · rw [hnone] at hi
      cases hi
    · rw [hnone, hplaces, Nat.min_zero]
      rfl

/-- What was wrong before and is not in the queue is wrong afterwards.
Source: `torrent/queuemanager.cpp`, `QueueManager::orderQueue`. Kind: L -/
theorem Served.ready (h : Served seeds q q') (hobeys : Obeys seeds q') : Ready seeds q := by
  have hqueued := h.touches.queued seeds
  refine ⟨fun i hi => ?_, fun h0 hlt i hi => ?_⟩
  · by_contra hnot
    have hframe : q'.tc i = q.tc i := by
      apply h.touches.frame i
      rw [List.mem_append, not_or]
      exact ⟨hnot, runningQm_not_other hi⟩
    have hi' : i ∈ q'.runningQm seeds := by
      rw [runningQm, List.mem_filter, h.touches.downloads, hframe]
      exact List.mem_filter.mp hi
    apply hnot
    rw [← hqueued]
    exact hobeys.listed i hi'
  · by_contra hrun
    have hr : (q'.tc i).running = true := by
      rw [h.exceeded h0 hlt i hi]
      exact Bool.not_eq_false _ ▸ hrun
    have hi' : i ∈ q'.runningQm seeds := mem_runningQm (hqueued ▸ hi) hr
    have hroom := hobeys.room (by rwa [h.touches.limit seeds])
    rw [h.touches.limit seeds, userRunning_touches h.touches] at hroom
    have hpos := List.length_pos_of_mem hi'
    omega

/-! ### The whole queue -/

/-- **Each kind is served**, whichever way the queue is ordered. Source: `QueueManager::orderQueue`.
Kind: L -/
theorem served_orderQueue {S : Sorter} (hr : InRange (q.sortDownloads S))
    (hc : ∀ i ∈ (q.sortDownloads S).downloads, ((q.sortDownloads S).tc i).checking = false)
    (hne : q.downloads ≠ []) (hrun : q.paused_state = false ∧ q.exiting = false) (seeds : Bool) :
    Served seeds (q.sortDownloads S) (q.orderQueue S fun _ => {}) := by
  have hempty : q.downloads.isEmpty = false := by
    rw [Bool.eq_false_iff]
    intro h
    exact hne (List.isEmpty_iff.mp h)
  unfold orderQueue
  rw [hempty, hrun.1, hrun.2]
  simp only [Bool.false_eq_true, if_false, Bool.or_self]
  set q₀ := q.sortDownloads S with hq₀
  clear_value q₀
  split_ifs with h0
  · -- the loops for the seeds stand between those for the downloads, and after them
    set q₁ := stopBehind false q₀ q₀ with hq₁
    set q₂ := stopBehind true q₀ q₁ with hq₂
    set q₃ := startFront (fun _ => {}) false q₀ q₂ with hq₃
    have h₁ : Touches (q₀.queued false) q₀ q₁ :=
      (@touches_stopBehind q₀ q₀ false [] hc (Touches.refl _ _)).1
    have h₂ : Touches (q₀.queued true) q₁ q₂ := (touches_stopBehind hc h₁).1
    have h₁₂ : Touches (q₀.queued false ++ q₀.queued true) q₀ q₂ :=
      (h₁.mono (List.subset_append_left _ _)).trans (h₂.mono (List.subset_append_right _ _))
    have h₃ : Touches (q₀.queued false) q₂ q₃ :=
      (startLoop_touches _ ((listed_queued hc false).touches h₁₂)).1
    have h₁₃ : Touches (q₀.queued false ++ q₀.queued true) q₀ q₃ :=
      h₁₂.trans (h₃.mono (List.subset_append_left _ _))
    have h₄ : Touches (q₀.queued true) q₃ (startFront (fun _ => {}) true q₀ q₃) :=
      (startLoop_touches _ ((listed_queued hc true).touches h₁₃)).1
    cases seeds
    · exact served_loops hr hc (Touches.refl _ _) hq₁ h₂ hq₃ h₄
    · exact served_loops hr hc h₁ hq₂ h₃ rfl (Touches.refl _ _)
  · rw [not_or, not_not, not_not] at h0
    refine served_startAll (fun c => ?_) hc seeds
    cases c
    · exact h0.1
    · exact h0.2

/-- The library's sort keeps what must hold before. Source: `torrent/queuemanager.cpp`,
`QueueManager::orderQueue`. Kind: L -/
theorem ready_sortDownloads (S : Sorter) : Ready seeds (q.sortDownloads S) ↔ Ready seeds q := by
  have hperm : (q.sortDownloads S).downloads.Perm q.downloads := S.perm _ _
  have hrunning : ∀ i, i ∈ (q.sortDownloads S).runningQm seeds ↔ i ∈ q.runningQm seeds :=
    fun i => (hperm.filter _).mem_iff
  have hqueued : ∀ i, i ∈ (q.sortDownloads S).queued seeds ↔ i ∈ q.queued seeds :=
    fun i => (hperm.filter _).mem_iff
  have huser : (q.sortDownloads S).userRunning seeds = q.userRunning seeds := hperm.countP_eq _
  constructor
  · intro h
    refine ⟨fun i hi => ?_, fun h0 hlt i hi => ?_⟩
    · exact (hqueued i).mp (h.listed i ((hrunning i).mpr hi))
    · exact h.within h0 (huser ▸ hlt) i ((hqueued i).mpr hi)
  · intro h
    refine ⟨fun i hi => ?_, fun h0 hlt i hi => ?_⟩
    · exact (hqueued i).mpr (h.listed i ((hrunning i).mp hi))
    · rw [huser] at hlt
      exact h.within h0 hlt i ((hqueued i).mp hi)

/-- Sorting keeps the numbers in range. Source: `torrent/queuemanager.cpp`,
`QueueManager::orderQueue`. Kind: L -/
theorem InRange.sortDownloads (h : InRange q) (S : Sorter) : InRange (q.sortDownloads S) := by
  have hperm : (q.sortDownloads S).downloads.Perm q.downloads := S.perm _ _
  exact ⟨hperm.nodup_iff.mpr h.nodup, hperm.length_eq ▸ h.count, h.limits⟩

/-- Nothing runs where there is nothing. Source: none: infrastructure. Kind: L -/
theorem obeys_nil (h : q.downloads = []) : Obeys seeds q ∧ Ready seeds q := by
  have hr : q.runningQm seeds = [] := by rw [runningQm, h]; rfl
  have hq : q.queued seeds = [] := by rw [queued, h]; rfl
  refine ⟨⟨fun _ => ?_, ?_, ?_, ?_⟩, ⟨?_, fun _ _ => ?_⟩⟩
  · rw [hr]
    exact le_max_left _ _
  · rw [hr]
    exact fun i hi => absurd hi List.not_mem_nil
  · rw [hr]
    exact fun i hi => absurd hi List.not_mem_nil
  · rw [hr, hq]
    exact (Nat.zero_min _).symm
  · rw [hr]
    exact fun i hi => absurd hi List.not_mem_nil
  · rw [hq]
    exact fun i hi => absurd hi List.not_mem_nil

/-- What must hold before: a queue that is paused or about to exit is left as it is. Kind: D -/
def Orderly (seeds : Bool) (q : QueueManager) : Prop :=
  if q.paused_state || q.exiting then Obeys seeds q else Ready seeds q

/-- **When the queue is in order after it was ordered**, every start and every stop taking effect:
exactly if no running torrent of the queue was moving files or stopped by an error, and none was
running while the user's exceeded the limit. Source: `QueueManager::orderQueue`. Kind: P -/
theorem obeys_iff (S : Sorter) (h : InRange q) (hc : ∀ i ∈ q.downloads, (q.tc i).checking = false)
    (seeds : Bool) : Obeys seeds (q.orderQueue S fun _ => {}) ↔ Orderly seeds q := by
  by_cases hne : q.downloads = []
  · have hnil := @obeys_nil q seeds hne
    have horder : q.orderQueue S (fun _ => {}) = q := by
      unfold orderQueue
      rw [hne]
      rfl
    rw [horder, Orderly]
    split_ifs
    · exact Iff.rfl
    · exact ⟨fun _ => hnil.2, fun _ => hnil.1⟩
  · by_cases hrun : (q.paused_state || q.exiting) = true
    · have horder : q.orderQueue S (fun _ => {}) = q := by
        unfold orderQueue
        rw [if_pos hrun, ite_self]
      rw [horder, Orderly, if_pos hrun]
    · have hrun' : q.paused_state = false ∧ q.exiting = false := by
        rwa [Bool.not_eq_true, Bool.or_eq_false_iff] at hrun
      have hperm : (q.sortDownloads S).downloads.Perm q.downloads := S.perm _ _
      have hc' : ∀ i ∈ (q.sortDownloads S).downloads, ((q.sortDownloads S).tc i).checking = false :=
        fun i hi => hc i (hperm.mem_iff.mp hi)
      have hserved := served_orderQueue (h.sortDownloads S) hc' hne hrun' seeds
      rw [Orderly, if_neg hrun, ← ready_sortDownloads S]
      constructor
      · exact hserved.ready
      · exact hserved.obeys (h.sortDownloads S).nodup (S.sorted _ _)

/-! ### Where it fails -/

/-- Any two priorities can be ordered. Source: `QueuePtrList::compareItems`. Kind: L -/
theorem compareItems_total (a b : ℤ) : compareItems a b ≤ 0 ∨ compareItems b a ≤ 0 := by
  unfold compareItems
  split_ifs <;> omega

/-- The comparison is transitive. Source: `QueuePtrList::compareItems`. Kind: L -/
theorem compareItems_trans {a b c : ℤ} (h : compareItems a b ≤ 0) (h' : compareItems b c ≤ 0) :
    compareItems a c ≤ 0 := by
  unfold compareItems at *
  split_ifs at * <;> omega

/-- A sort: the insertion of one item after another. Kind: D -/
def insertion : Sorter where
  sort p l := l.insertionSort fun i j => compareItems (p i) (p j) ≤ 0
  perm p l := l.perm_insertionSort _
  sorted p l := by
    have : Std.Total fun i j => compareItems (p i) (p j) ≤ 0 :=
      ⟨fun i j => compareItems_total (p i) (p j)⟩
    have : IsTrans ℕ fun i j => compareItems (p i) (p j) ≤ 0 :=
      ⟨fun _ _ _ => compareItems_trans⟩
    exact l.pairwise_insertionSort _

/-- The user's two torrents and one of the queue, with one place. Kind: D -/
def crowded : QueueManager where
  downloads := [0, 1, 2]
  tc i := { running := true, user_controlled := i ≠ 2, priority := if i = 2 then 1 else 0 }
  max_downloads := 1

/-- **The user's torrents take more than there is**, and the queue's goes on running: the number
left for the queue is negative, and as an unsigned number it is large.
Source: `torrent/queuemanager.cpp`, `QueueManager::orderQueue`. Kind: L -/
theorem crowded_out : ¬ Obeys false (crowded.orderQueue insertion fun _ => {}) := by
  intro h
  have hroom := h.room (by decide +kernel)
  exact absurd hroom (by decide +kernel)

/-- The sample's numbers are in range. Source: `torrent/queuemanager.cpp`,
`QueueManager::orderQueue`. Kind: L -/
theorem inRange_crowded (m : ℕ) (hm : m < 2 ^ 31) :
    InRange { crowded with max_downloads := (m : ℤ) } := by
  refine ⟨show [0, 1, 2].Nodup by simp, show [0, 1, 2].length < 2 ^ 31 by norm_num, fun c => ?_⟩
  cases c
  · show -2 ^ 31 ≤ (m : ℤ) ∧ (m : ℤ) < 2 ^ 31
    omega
  · show -2 ^ 31 ≤ (0 : ℤ) ∧ (0 : ℤ) < 2 ^ 31
    omega

/-- With three places the queue is in order, with one it is not. Source: `torrent/queuemanager.cpp`,
`QueueManager::orderQueue`. Kind: L -/
theorem obeys_crowded :
    Obeys false (orderQueue insertion (fun _ => {}) { crowded with max_downloads := ((3 : ℕ) : ℤ) }) ∧
      ¬ Obeys false
        (orderQueue insertion (fun _ => {}) { crowded with max_downloads := ((1 : ℕ) : ℤ) }) := by
  refine ⟨(obeys_iff insertion (inRange_crowded 3 (by norm_num)) (fun _ _ => rfl) false).mpr ?_, ?_⟩
  · exact ⟨by decide, fun _ h => absurd h (by decide)⟩
  · rw [obeys_iff insertion (inRange_crowded 1 (by norm_num)) (fun _ _ => rfl) false]
    rintro ⟨-, hwithin⟩
    exact absurd (hwithin (by decide) (by decide) 2 (by decide)) (by decide)

end QueueManager

end KTorrent.Queue
