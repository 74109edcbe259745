import KTorrent.Lib.Prefix
import KTorrent.Lib.While
import KTorrent.Transfer.Requests

/-!
# Requests that are not answered

A request that has not been answered for a minute is cancelled, sent again, and put at the end of
the list. The walk begins at the front and stops at the first request that is younger, so it rests
on the list being sorted by the times the requests were sent.

* `Timed` — the requests of a peer, the number of readings of the clock, and what was sent.
* `update`, `download`, `cancel`, `cancelAll`, `onRejected`, `takePiece`, `choked`,
  `checkTimeouts` — the operations, with the clock read where the source reads it.
* `checkTimeouts_eq` — the walk ends, and what it does to any list.
* `Ordered` — the list is sorted, and nothing in it is of the future; every operation keeps it.
* `timeouts_run` — in every run the walk sends every old request again, once, and no other.

Source: `torrent/peerdownloader.h`, `torrent/peerdownloader.cpp`
-/

namespace KTorrent.Transfer.Requests

open KTorrent.Lib

/-! ### The operations -/

/-- What is sent to a peer. Kind: D -/
inductive Sent
  | request (r : Request)
  | cancel (r : Request)
  deriving DecidableEq

/-- The requests of a peer, how often the clock has been read, and, as history, what was sent.
Source: `torrent/peerdownloader.h`, `PeerDownloader`. Kind: D -/
structure Timed where
  pd : PeerDownloader
  ticks : ℕ
  log : List Sent

namespace Timed

/-- Source: `PeerDownloader::PeerDownloader`. Kind: D -/
def new (fast_extensions : Bool) : Timed := ⟨{ fast_extensions := fast_extensions }, 0, []⟩

section clock

-- what the clock shows when it is read for the `n`-th time
variable (time : ℕ → UInt64)

/-- Source: `PeerDownloader::update`, the loop. Kind: D -/
def updateLoop (max_reqs : ℕ) : List Request → Timed → Timed
  | [], s => { s with pd := { s.pd with wait_queue := [] } }
  | req :: wait_queue, s =>
    if s.pd.reqs.length < max_reqs then
      updateLoop max_reqs wait_queue
        { pd := { s.pd with reqs := s.pd.reqs ++ [⟨req, time s.ticks⟩] }
          ticks := s.ticks + 1
          log := s.log ++ [.request req] }
    else { s with pd := { s.pd with wait_queue := req :: wait_queue } }

/-- `max_reqs` comes from the download rate of the peer. Source: `PeerDownloader::update`.
Kind: D -/
def update (max_reqs : ℕ) (s : Timed) : Timed :=
  let s := updateLoop time max_reqs s.pd.wait_queue s
  { s with
    pd := { s.pd with max_wait_queue_size := if 2 * max_reqs < 10 then 10 else 2 * max_reqs } }

/-- Source: `PeerDownloader::download`. Kind: D -/
def download (max_reqs : ℕ) (req : Request) (s : Timed) : Timed :=
  update time max_reqs { s with pd := { s.pd with wait_queue := s.pd.wait_queue ++ [req] } }

/-- Source: `PeerDownloader::cancel`. Kind: D -/
def cancel (req : Request) (s : Timed) : Timed :=
  { s with
    pd := s.pd.remove req
    log :=
      if s.pd.wait_queue.any (·.sameAs req) then s.log
      else if s.pd.reqs.any (·.req.sameAs req) then s.log ++ [.cancel req]
      else s.log }

/-- Source: `PeerDownloader::cancelAll`. Kind: D -/
def cancelAll (s : Timed) : Timed :=
  { s with
    pd := { s.pd with reqs := [], wait_queue := [] }
    log := s.log ++ s.pd.reqs.map fun tr => .cancel tr.req }

/-- What `piece` does before its signal; it ends with `update`. Source: `PeerDownloader::piece`.
Kind: D -/
def takePiece (req : Request) (s : Timed) : Timed := { s with pd := s.pd.remove req }

/-- What `onRejected` does before its signal. Source: `PeerDownloader::onRejected`. Kind: D -/
def onRejected (req : Request) (s : Timed) : Timed :=
  { s with pd := { s.pd with reqs := s.pd.reqs.filter fun tr => !tr.req.sameAs req } }

/-- The signals of the source ask nothing of a peer that is choked.
Source: `PeerDownloader::choked`. Kind: D -/
def choked (s : Timed) : Timed :=
  if s.pd.fast_extensions then s else { s with pd := { s.pd with reqs := [], wait_queue := [] } }

/-- The test of the loop. Source: `PeerDownloader::checkTimeouts`. Kind: D -/
def isOld (now : UInt64) (tr : TimeStampedRequest) : Bool :=
  now - tr.time_stamp > PeerDownloader.MAX_INTERVAL

/-- The first request, if it is old. Kind: D -/
def frontOld (now : UInt64) (s : Timed) : Bool := (s.pd.reqs.head?.map (isOld now)).getD false

/-- The first request is cancelled, sent again, and put at the end.
Source: `PeerDownloader::checkTimeouts`, the loop body. Kind: D -/
def retransmit (now : UInt64) (s : Timed) : Timed :=
  match s.pd.reqs with
  | [] => s
  | tr :: reqs =>
    { s with
      pd := { s.pd with reqs := reqs ++ [{ tr with time_stamp := now }] }
      log := s.log ++ [.cancel tr.req, .request tr.req] }

/-- For at most `k` rounds. Source: `PeerDownloader::checkTimeouts`. Kind: D -/
def checkTimeouts (k : ℕ) (s : Timed) : Except Unit Timed :=
  whileM (fun t => frontOld (time s.ticks) t = true)
    (fun t => .ok (retransmit (time s.ticks) t)) () k { s with ticks := s.ticks + 1 }

/-- Kind: D -/
inductive Call
  | download (max_reqs : ℕ) (req : Request)
  | update (max_reqs : ℕ)
  | cancel (req : Request)
  | cancelAll
  | piece (req : Request)
  | rejected (req : Request)
  | choked
  | checkTimeouts
  deriving DecidableEq

/-- What a call does; `piece`, `rejected` and `choked` are followed by what their signals bring
about, which are calls again. Kind: D -/
def call (s : Timed) : Call → Timed
  | .download max_reqs req => s.download time max_reqs req
  | .update max_reqs => s.update time max_reqs
  | .cancel req => s.cancel req
  | .cancelAll => s.cancelAll
  | .piece req => s.takePiece req
  | .rejected req => s.onRejected req
  | .choked => s.choked
  | .checkTimeouts =>
    match s.checkTimeouts time (s.pd.reqs.length + 1) with
    | .ok t => t
    | .error _ => s

end clock

/-! ### The walk -/

/-- A request that is sent again. Kind: D -/
def fresh (now : UInt64) (tr : TimeStampedRequest) : TimeStampedRequest :=
  { tr with time_stamp := now }

/-- A request that has just been sent is not old. Source: `PeerDownloader::checkTimeouts`.
Kind: L -/
theorem isOld_fresh (now : UInt64) (tr : TimeStampedRequest) : isOld now (fresh now tr) = false := by
  simp [isOld, fresh, PeerDownloader.MAX_INTERVAL]

/-- What is sent for the requests that are old. Kind: D -/
def resent (trs : List TimeStampedRequest) : List Sent :=
  trs.flatMap fun tr => [.cancel tr.req, .request tr.req]

/-- The walk over requests that were not visited yet, in front of those that were. It ends because
the latter are not old; the induction is on the former. Source: `PeerDownloader::checkTimeouts`.
Kind: L -/
theorem whileM_retransmit (now : UInt64) (reqs : List TimeStampedRequest) :
    ∀ (appended : List TimeStampedRequest) (k : ℕ) (s : Timed), reqs.length < k →
      (∀ tr ∈ appended, isOld now tr = false) → s.pd.reqs = reqs ++ appended →
        whileM (fun t => frontOld now t = true) (fun t => .ok (retransmit now t)) () k s =
          .ok { s with
            pd := { s.pd with
              reqs := reqs.dropWhile (isOld now) ++ appended ++
                (reqs.takeWhile (isOld now)).map (fresh now) }
            log := s.log ++ resent (reqs.takeWhile (isOld now)) } := by
  induction reqs with
  | nil =>
    intro appended k s hk happ hs
    obtain ⟨k, rfl⟩ := Nat.exists_eq_succ_of_ne_zero (Nat.ne_of_gt hk)
    have hstop : ¬ frontOld now s = true := by
      unfold frontOld
      rw [hs, List.nil_append]
      cases appended with
      | nil => simp
      | cons tr appended => simp [happ tr List.mem_cons_self]
    rw [whileM, if_neg hstop]
    simp [resent, ← hs]
  | cons tr reqs ih =>
    intro appended k s hk happ hs
    obtain ⟨k, rfl⟩ := Nat.exists_eq_succ_of_ne_zero (Nat.ne_of_gt (Nat.zero_lt_of_lt hk))
    have hfront : frontOld now s = isOld now tr := by
      unfold frontOld
      rw [hs]
      rfl
    by_cases hold : isOld now tr = true
    · have hbody : retransmit now s = { s with
          pd := { s.pd with reqs := reqs ++ (appended ++ [fresh now tr]) }
          log := s.log ++ [.cancel tr.req, .request tr.req] } := by
        unfold retransmit
        rw [hs]
        simp [fresh]
      have happ' : ∀ r ∈ appended ++ [fresh now tr], isOld now r = false := by
        intro r hr
        rcases List.mem_append.mp hr with hr | hr
        · exact happ r hr
        · rw [List.mem_singleton.mp hr]
          exact isOld_fresh now tr
      rw [whileM, if_pos (hfront.trans hold), hbody]
      refine (ih (appended ++ [fresh now tr]) k _ (Nat.lt_of_succ_lt_succ hk) happ' rfl).trans ?_
      simp [hold, resent]
    · have hstop : ¬ frontOld now s = true := by
        rw [hfront]
        exact hold
      rw [whileM, if_neg hstop]
      simp [hold, resent, ← hs]

section clock

variable {time : ℕ → UInt64}

/-- **What the walk does to any list**: it ends, and what is old at the front is cancelled, sent
again and put behind the rest. Source: `PeerDownloader::checkTimeouts`. Kind: P -/
theorem checkTimeouts_eq (s : Timed) {k : ℕ} (hk : s.pd.reqs.length < k) :
    s.checkTimeouts time k =
      .ok { pd := { s.pd with
              reqs := s.pd.reqs.dropWhile (isOld (time s.ticks)) ++
                (s.pd.reqs.takeWhile (isOld (time s.ticks))).map (fresh (time s.ticks)) }
            ticks := s.ticks + 1
            log := s.log ++ resent (s.pd.reqs.takeWhile (isOld (time s.ticks))) } := by
  have hloop := whileM_retransmit (time s.ticks) s.pd.reqs [] k { s with ticks := s.ticks + 1 } hk
    (by simp) (List.append_nil _).symm
  rw [List.append_nil] at hloop
  exact hloop

/-- The walk over the requests that the model of a swarm takes is this one.
Source: `PeerDownloader::checkTimeouts`. Kind: P -/
theorem checkTimeouts_swarm (s : Timed) (rate : ℕ → ℕ) {k : ℕ} (hk : s.pd.reqs.length < k) :
    (s.checkTimeouts time k).map (·.pd) = .ok (s.pd.checkTimeouts ⟨time s.ticks, rate⟩) := by
  have hloop : ∀ reqs appended : List TimeStampedRequest,
      PeerDownloader.retransmit (time s.ticks) reqs appended =
        reqs.dropWhile (isOld (time s.ticks)) ++ appended ++
          (reqs.takeWhile (isOld (time s.ticks))).map (fresh (time s.ticks)) := by
    intro reqs
    induction reqs with
    | nil =>
      intro appended
      simp [PeerDownloader.retransmit]
    | cons tr reqs ih =>
      intro appended
      unfold PeerDownloader.retransmit
      by_cases hold : isOld (time s.ticks) tr = true
      · rw [if_pos (of_decide_eq_true hold), ih]
        simp [hold, fresh]
      · rw [if_neg (fun h => hold (decide_eq_true h))]
        simp [hold]
  rw [checkTimeouts_eq s hk, Except.map, PeerDownloader.checkTimeouts, hloop, List.append_nil]

/-! ### The order -/

/-- A clock that does not go back. Kind: D -/
def Steady (time : ℕ → UInt64) : Prop := ∀ m n, m ≤ n → time m ≤ time n

/-- **The list is sorted**, and nothing in it was sent after now. Kind: D -/
structure Ordered (time : ℕ → UInt64) (s : Timed) : Prop where
  sorted : s.pd.reqs.Pairwise fun a b => a.time_stamp ≤ b.time_stamp
  past : ∀ tr ∈ s.pd.reqs, tr.time_stamp ≤ time s.ticks

/-- A request can be old only when those before it are. Source: `PeerDownloader::checkTimeouts`.
Kind: L -/
theorem isOld_of_le {now : UInt64} {a b : TimeStampedRequest} (hab : a.time_stamp ≤ b.time_stamp)
    (hb : b.time_stamp ≤ now) (hold : isOld now b = true) : isOld now a = true := by
  have hlt := UInt64.lt_iff_toNat_lt.mp (of_decide_eq_true hold)
  rw [UInt64.toNat_sub_of_le _ _ hb] at hlt
  have hle := UInt64.le_iff_toNat_le.mp hab
  apply decide_eq_true
  apply UInt64.lt_iff_toNat_lt.mpr
  rw [UInt64.toNat_sub_of_le _ _ (UInt64.le_trans hab hb)]
  omega

/-- Behind a request that is not old there is none that is. Source: `PeerDownloader::checkTimeouts`.
Kind: L -/
theorem Ordered.pairwise_isOld {s : Timed} (h : s.Ordered time) :
    s.pd.reqs.Pairwise fun a b =>
      isOld (time s.ticks) b = true → isOld (time s.ticks) a = true := by
  refine List.Pairwise.imp_of_mem ?_ h.sorted
  intro a b _ hb hab hold
  exact isOld_of_le hab (h.past b hb) hold

/-- The order is kept by everything that takes requests off. Source: `torrent/peerdownloader.h`,
`torrent/peerdownloader.cpp`. Kind: L -/
theorem Ordered.sublist {s t : Timed} (h : s.Ordered time) (hsub : t.pd.reqs.Sublist s.pd.reqs)
    (hticks : t.ticks = s.ticks) : t.Ordered time where
  sorted := h.sorted.sublist hsub
  past tr htr := by
    rw [hticks]
    exact h.past tr (hsub.subset htr)

/-- A request sent now goes to the end. Source: none: infrastructure. Kind: L -/
theorem Ordered.append {s t : Timed} (hmono : Steady time) (h : s.Ordered time)
    {trs : List TimeStampedRequest} (htrs : ∀ tr ∈ trs, tr.time_stamp = time s.ticks)
    (hreqs : t.pd.reqs = s.pd.reqs ++ trs) (hticks : t.ticks = s.ticks + 1) : t.Ordered time where
  sorted := by
    rw [hreqs]
    refine List.pairwise_append.mpr ⟨h.sorted, ?_, ?_⟩
    · apply List.pairwise_of_forall_mem_list
      intro a ha b hb
      rw [htrs a ha, htrs b hb]
      exact UInt64.le_refl _
    · intro a ha b hb
      rw [htrs b hb]
      exact h.past a ha
  past tr htr := by
    rw [hticks]
    refine UInt64.le_trans ?_ (hmono s.ticks _ (Nat.le_succ s.ticks))
    rw [hreqs] at htr
    rcases List.mem_append.mp htr with htr | htr
    · exact h.past tr htr
    · rw [htrs tr htr]
      exact UInt64.le_refl _

/-- Requests that are sent from the queue are listed behind the others.
Source: `PeerDownloader::update`. Kind: L -/
theorem Ordered.updateLoop (hmono : Steady time) (max_reqs : ℕ) (wait_queue : List Request) :
    ∀ s : Timed, s.Ordered time → (s.updateLoop time max_reqs wait_queue).Ordered time := by
  induction wait_queue with
  | nil =>
    intro s h
    exact h.sublist (List.Sublist.refl _) rfl
  | cons req wait_queue ih =>
    intro s h
    unfold Timed.updateLoop
    split_ifs
    · exact ih _ (h.append hmono (by simp) rfl rfl)
    · exact h.sublist (List.Sublist.refl _) rfl

/-- Requests are listed in the order of sending, also after an update.
Source: `torrent/peerdownloader.h`, `torrent/peerdownloader.cpp`. Kind: L -/
theorem Ordered.update {s : Timed} (hmono : Steady time) (max_reqs : ℕ) (h : s.Ordered time) :
    (s.update time max_reqs).Ordered time :=
  Ordered.sublist (Ordered.updateLoop hmono max_reqs s.pd.wait_queue s h) (List.Sublist.refl _) rfl

/-- Removing a request keeps the order. Source: `torrent/peerdownloader.h`,
`torrent/peerdownloader.cpp`. Kind: L -/
theorem sublist_remove (pd : PeerDownloader) (req : Request) :
    (pd.remove req).reqs.Sublist pd.reqs := by
  unfold PeerDownloader.remove
  split_ifs
  · exact List.Sublist.refl _
  · exact List.filter_sublist
  · exact List.Sublist.refl _

/-- The walk keeps the order: what it appends is of now. Source: `PeerDownloader::checkTimeouts`.
Kind: L -/
theorem Ordered.checkTimeouts {s t : Timed} (hmono : Steady time) {k : ℕ} (h : s.Ordered time)
    (hk : s.pd.reqs.length < k) (ht : s.checkTimeouts time k = .ok t) : t.Ordered time := by
  rw [checkTimeouts_eq s hk] at ht
  cases ht
  have hrest : Ordered time { s with
      pd := { s.pd with reqs := s.pd.reqs.dropWhile (isOld (time s.ticks)) } } :=
    h.sublist (List.dropWhile_sublist _) rfl
  refine hrest.append hmono ?_ rfl rfl
  intro tr htr
  obtain ⟨r, _, rfl⟩ := List.mem_map.mp htr
  rfl

/-- **Every call keeps the order.**. Source: `torrent/peerdownloader.h`,
`torrent/peerdownloader.cpp`. Kind: P -/
theorem ordered_call (hmono : Steady time) (s : Timed) (c : Call) (h : s.Ordered time) :
    (s.call time c).Ordered time := by
  cases c with
  | download max_reqs req =>
    apply Ordered.update hmono max_reqs
    exact h.sublist (List.Sublist.refl _) rfl
  | update max_reqs => exact h.update hmono max_reqs
  | cancel req => exact h.sublist (sublist_remove s.pd req) rfl
  | cancelAll => exact h.sublist (List.nil_sublist _) rfl
  | piece req => exact h.sublist (sublist_remove s.pd req) rfl
  | rejected req => exact h.sublist List.filter_sublist rfl
  | choked =>
    show (s.choked).Ordered time
    unfold Timed.choked
    split_ifs
    · exact h
    · exact h.sublist (List.nil_sublist _) rfl
  | checkTimeouts =>
    have hk : s.pd.reqs.length < s.pd.reqs.length + 1 := Nat.lt_succ_self _
    obtain ⟨t, ht⟩ : ∃ t, s.checkTimeouts time (s.pd.reqs.length + 1) = .ok t :=
      ⟨_, checkTimeouts_eq s hk⟩
    have hcall : s.call time .checkTimeouts = t := by
      unfold Timed.call
      rw [ht]
    rw [hcall]
    exact h.checkTimeouts hmono hk ht

/-! ### Runs -/

/-- **What the walk does to a list that is sorted**: the requests that are more than a minute old,
and only those, are cancelled and sent again, once each, with the time of now; none is lost, and
none is old afterwards. Kind: D -/
structure Resent (now : UInt64) (s t : Timed) : Prop where
  old : ∀ tr ∈ s.pd.reqs,
    (isOld now tr = true ↔ 60 * 1000 < now.toNat - tr.time_stamp.toNat)
  young : ∀ tr ∈ t.pd.reqs, tr.time_stamp ≤ now ∧ now.toNat - tr.time_stamp.toNat ≤ 60 * 1000
  reqs : t.pd.reqs = (s.pd.reqs.filter fun tr => !isOld now tr) ++
    (s.pd.reqs.filter (isOld now)).map (fresh now)
  log : t.log = s.log ++ resent (s.pd.reqs.filter (isOld now))
  kept : (t.pd.reqs.map (·.req)).Perm (s.pd.reqs.map (·.req))
  waiting : t.pd.wait_queue = s.pd.wait_queue

/-- The test of the loop, in milliseconds. Source: `PeerDownloader::checkTimeouts`. Kind: L -/
theorem isOld_iff {now : UInt64} {tr : TimeStampedRequest} (h : tr.time_stamp ≤ now) :
    isOld now tr = true ↔ 60 * 1000 < now.toNat - tr.time_stamp.toNat := by
  rw [isOld, decide_eq_true_iff, gt_iff_lt, UInt64.lt_iff_toNat_lt, UInt64.toNat_sub_of_le _ _ h]
  exact Iff.rfl

/-- Requests that are sent again are listed behind the others. Source: `torrent/peerdownloader.h`,
`torrent/peerdownloader.cpp`. Kind: L -/
theorem Ordered.resent {s t : Timed} {k : ℕ} (h : s.Ordered time) (hk : s.pd.reqs.length < k)
    (ht : s.checkTimeouts time k = .ok t) : Resent (time s.ticks) s t := by
  rw [checkTimeouts_eq s hk, takeWhile_eq_filter h.pairwise_isOld,
    dropWhile_eq_filter h.pairwise_isOld] at ht
  cases ht
  refine ⟨fun tr htr => isOld_iff (h.past tr htr), ?_, rfl, rfl, ?_, rfl⟩
  · intro tr htr
    rcases List.mem_append.mp htr with htr | htr
    · obtain ⟨hmem, hnot⟩ := List.mem_filter.mp htr
      refine ⟨h.past tr hmem, Nat.le_of_not_lt fun hlt => ?_⟩
      rw [(isOld_iff (h.past tr hmem)).mpr hlt] at hnot
      exact Bool.noConfusion hnot
    · obtain ⟨r, _, rfl⟩ := List.mem_map.mp htr
      refine ⟨UInt64.le_refl _, ?_⟩
      show (time s.ticks).toNat - (time s.ticks).toNat ≤ _
      rw [Nat.sub_self]
      exact Nat.zero_le _
  · -- the requests are those that were young and those that were old
    have hsplit := List.filter_append_perm (isOld (time s.ticks)) s.pd.reqs
    have hreqs : ((s.pd.reqs.filter (isOld (time s.ticks))).map (fresh (time s.ticks))).map
        (·.req) = (s.pd.reqs.filter (isOld (time s.ticks))).map (·.req) := by
      rw [List.map_map]
      exact List.map_congr_left fun _ _ => rfl
    dsimp only
    rw [List.map_append, hreqs, ← List.map_append]
    exact (List.perm_append_comm.trans hsplit).map _

/-- **Requests that are not answered**: after any calls with a clock that does not go back, the list
is sorted by the times the requests were sent, and the next walk ends and sends again exactly what
is old. Source: `torrent/peerdownloader.h`, `torrent/peerdownloader.cpp`. Kind: P -/
theorem timeouts_run (hmono : Steady time) (fast_extensions : Bool) (cs : List Call) :
    let s := run (call time) (new fast_extensions) cs
    s.Ordered time ∧ ∀ k, s.pd.reqs.length < k →
      ∃ t, s.checkTimeouts time k = .ok t ∧ Resent (time s.ticks) s t ∧ t.Ordered time := by
  have h : (run (call time) (new fast_extensions) cs).Ordered time := by
    apply run_inv (ordered_call hmono)
    exact ⟨List.Pairwise.nil, fun tr htr => absurd htr List.not_mem_nil⟩
  refine ⟨h, fun k hk => ?_⟩
  obtain ⟨t, ht⟩ : ∃ t, (run (call time) (new fast_extensions) cs).checkTimeouts time k = .ok t :=
    ⟨_, checkTimeouts_eq _ hk⟩
  exact ⟨t, ht, h.resent hk ht, h.checkTimeouts hmono hk ht⟩

end clock

/-- A request is sent, and a minute later again. Source: `torrent/peerdownloader.h`,
`torrent/peerdownloader.cpp`. Kind: P -/
theorem timeouts_run_minute :
    let time := fun n : ℕ => if n = 0 then (0 : UInt64) else 60001
    let s := run (call time) (new true) [.download 1 ⟨0, 0, 16384, 0⟩]
    s.Ordered time ∧ ∀ k, s.pd.reqs.length < k →
      ∃ t, s.checkTimeouts time k = .ok t ∧ Resent (time s.ticks) s t ∧ t.Ordered time := by
  have hmono : Steady fun n : ℕ => if n = 0 then (0 : UInt64) else 60001 := by
    intro m n hmn
    dsimp only
    by_cases hm : m = 0
    · rw [if_pos hm]
      exact UInt64.zero_le
    · have hn : n ≠ 0 := by omega
      rw [if_neg hm, if_neg hn]
      exact UInt64.le_refl _
  exact timeouts_run hmono true [.download 1 ⟨0, 0, 16384, 0⟩]

end Timed

end KTorrent.Transfer.Requests
