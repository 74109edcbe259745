import KTorrent.Transfer.Requests

/-!
# Marked pieces are asked for

A piece that is marked for a peer and still missing has a request at this peer, sent or waiting to be
sent; and every peer counts the downloads it is assigned to.

* `BookedBut E` — the books, but for the marks in `E`. Between the two halves of an operation, when a
  request is off and its mark is not, the piece is such an exception.
* `Sends` — what asking for more does to all peers and downloads; the books survive it.
* `BookedBut.modifyPeer`, `BookedBut.unmark` — a request that goes makes an exception of its piece,
  a mark that goes removes one.
* `rejected_all` — while a choking peer's requests are rejected one by one, it is asked for nothing.
* `booked_run` — the books are right in every state of a run in which no piece that answers a marked
  request comes while everything wanted is complete.
* `mark_stays` — such a piece: `Downloader::onExcluded` lets an only seed chunk finish, but
  `Downloader::pieceRecieved` drops its pieces.

Source: `torrent/chunkdownload.cpp`, `torrent/peerdownloader.cpp`, `torrent/downloader.cpp`
-/

namespace KTorrent.Transfer.Requests

open KTorrent.Lib KTorrent.Util KTorrent.Storage

/-- Requests are the same when they ask for the same bytes. Source: `torrent/request.cpp`,
`operator ==`. Kind: L -/
theorem sameAs_iff {a b : Request} :
    a.sameAs b = true ↔ a.index = b.index ∧ a.len = b.len ∧ a.off = b.off := by
  simp [Request.sameAs, and_assoc]

/-- A request that is the same as the request for a piece is about this piece.
Source: `ChunkDownload::piece`. Kind: L -/
theorem piece_of_sameAs {r : Request} {size i p id : ℕ}
    (h : r.sameAs (request size i p id) = true) : r.index = i ∧ r.off / MAX_PIECE_LEN = p := by
  obtain ⟨hi, -, ho⟩ := sameAs_iff.mp h
  refine ⟨hi, ?_⟩
  rw [ho]
  exact Nat.mul_div_cancel p (by decide)

/-! ### One peer -/

namespace PeerDownloader

/-- Sending moves requests from the wait queue to the list of sent ones and loses none.
Source: `PeerDownloader::update`. Kind: L -/
theorem sendLoop_eq (now : UInt64) (m : ℕ) (w : List Request) (reqs : List TimeStampedRequest) :
    (sendLoop now m w reqs).1.map (·.req) ++ (sendLoop now m w reqs).2 =
      reqs.map (·.req) ++ w := by
  induction w generalizing reqs with
  | nil => rfl
  | cons req w ih =>
    unfold sendLoop
    split
    · rw [ih]
      simp
    · rfl

/-- `update` sends, and leaves the outstanding requests. Source: `torrent/chunkdownload.cpp`,
`torrent/peerdownloader.cpp`. Kind: L -/
@[simp] theorem outstanding_update (t : Clock) (id : ℕ) (pd : PeerDownloader) :
    (pd.update t id).outstanding = pd.outstanding :=
  sendLoop_eq t.now _ pd.wait_queue pd.reqs

/-- A new request is the last of the outstanding ones. Source: `PeerDownloader::download`.
Kind: L -/
@[simp] theorem outstanding_download (t : Clock) (id : ℕ) (req : Request) (pd : PeerDownloader) :
    (pd.download t id req).outstanding = pd.outstanding ++ [req] := by
  rw [download, outstanding_update]
  simp [outstanding]

/-- Requests that are sent again stay the same requests. Source: `PeerDownloader::checkTimeouts`.
Kind: L -/
theorem mem_retransmit (now : UInt64) (r : Request) (reqs app : List TimeStampedRequest) :
    r ∈ (retransmit now reqs app).map (·.req) ↔
      r ∈ reqs.map (·.req) ∨ r ∈ app.map (·.req) := by
  induction reqs generalizing app with
  | nil => simp [retransmit]
  | cons tr reqs ih =>
    unfold retransmit
    split
    · rw [ih]
      simp only [List.map_append, List.mem_append, List.map_cons, List.map_nil, List.mem_cons,
        List.not_mem_nil, or_false]
      tauto
    · simp only [List.map_append, List.mem_append]

/-- Sending requests again loses none. Source: `PeerDownloader::checkTimeouts`. Kind: L -/
theorem mem_outstanding_checkTimeouts (t : Clock) (pd : PeerDownloader) (r : Request) :
    r ∈ (pd.checkTimeouts t).outstanding ↔ r ∈ pd.outstanding := by
  simp only [outstanding, checkTimeouts, List.mem_append, mem_retransmit, List.map_nil,
    List.not_mem_nil, or_false]

/-- `remove` takes off only requests for the same bytes. Source: `torrent/chunkdownload.cpp`,
`torrent/peerdownloader.cpp`. Kind: L -/
theorem mem_remove {pd : PeerDownloader} {req r : Request} (h : r ∈ pd.outstanding)
    (hne : r.sameAs req = false) : r ∈ (pd.remove req).outstanding := by
  unfold remove
  simp only [outstanding, List.mem_append, List.mem_map] at h ⊢
  split
  · refine h.imp id fun hw => ?_
    exact List.mem_filter.mpr ⟨hw, by simp [hne]⟩
  · split
    · refine h.imp ?_ id
      rintro ⟨tr, htr, rfl⟩
      exact ⟨tr, List.mem_filter.mpr ⟨htr, by simp [hne]⟩, rfl⟩
    · exact h

/-- Removing a request adds none. Source: `torrent/chunkdownload.cpp`, `torrent/peerdownloader.cpp`.
Kind: L -/
theorem mem_of_mem_remove {pd : PeerDownloader} {req r : Request}
    (h : r ∈ (pd.remove req).outstanding) : r ∈ pd.outstanding := by
  unfold remove at h
  simp only [outstanding, List.mem_append, List.mem_map] at h ⊢
  split at h
  · exact h.imp id fun hw => (List.mem_filter.mp hw).1
  · split at h
    · refine h.imp ?_ id
      rintro ⟨tr, htr, rfl⟩
      exact ⟨tr, (List.mem_filter.mp htr).1, rfl⟩
    · exact h

/-- A removed request leaves the number of grabs. Source: `torrent/chunkdownload.cpp`,
`torrent/peerdownloader.cpp`. Kind: L -/
@[simp] theorem grabbed_remove (pd : PeerDownloader) (req : Request) :
    (pd.remove req).grabbed = pd.grabbed := by
  unfold remove
  split
  · rfl
  · split <;> rfl

/-- Sending leaves the number of grabs. Source: `torrent/chunkdownload.cpp`,
`torrent/peerdownloader.cpp`. Kind: L -/
@[simp] theorem grabbed_update (t : Clock) (id : ℕ) (pd : PeerDownloader) :
    (pd.update t id).grabbed = pd.grabbed := rfl

end PeerDownloader

/-! ### The loop of `sendRequests` -/

/-- What the loop does to the peer and the marks: requests are only added, and a new mark comes with
its request. Kind: D -/
structure Turn.Grows (size i id : ℕ) (v v' : Turn) : Prop where
  grabbed : v'.pd.grabbed = v.pd.grabbed
  kept : ∀ r ∈ v.pd.outstanding, r ∈ v'.pd.outstanding
  own : ∀ r ∈ v'.pd.outstanding, r ∈ v.pd.outstanding ∨ r.peer = id
  asked : ∀ p ∈ v'.ds, p ∈ v.ds ∨
    ∃ r ∈ v'.pd.outstanding, r.sameAs (request size i p id) = true

namespace Turn

variable {size i id : ℕ}

/-- A turn that does nothing. Source: none: infrastructure. Kind: L -/
theorem Grows.refl (v : Turn) : Grows size i id v v :=
  ⟨rfl, fun _ h => h, fun _ h => .inl h, fun _ h => .inl h⟩

/-- One turn after the other. Source: none: infrastructure. Kind: L -/
theorem Grows.trans {v v' v'' : Turn} (h : Grows size i id v v') (h' : Grows size i id v' v'') :
    Grows size i id v v'' where
  grabbed := h'.grabbed.trans h.grabbed
  kept r hr := h'.kept r (h.kept r hr)
  own r hr := (h'.own r hr).elim (h.own r) .inr
  asked p hp := by
    rcases h'.asked p hp with hp | hp
    · refine (h.asked p hp).imp_right ?_
      rintro ⟨r, hr, hs⟩
      exact ⟨r, h'.kept r hr, hs⟩
    · exact .inr hp

/-- One round of the loop adds at most a request of its peer, with its mark.
Source: `ChunkDownload::sendRequests`. Kind: L -/
theorem grows_next (t : Clock) (v : Turn) : Grows size i id v (v.next size t i id) := by
  obtain ⟨queue, ds, pd⟩ := v
  rcases queue with _ | ⟨q, queue⟩
  · exact .refl _
  · unfold next
    by_cases hq : q ∈ ds
    · simp only [hq, if_true]
      exact ⟨rfl, fun _ h => h, fun _ h => .inl h, fun _ h => .inl h⟩
    · simp only [hq, if_false]
      refine ⟨rfl, ?_, ?_, ?_⟩
      · intro r hr
        simp [hr]
      · intro r hr
        simp only [PeerDownloader.outstanding_download, List.mem_append, List.mem_singleton] at hr
        refine hr.imp_right ?_
        rintro rfl
        rfl
      · intro p hp
        simp only [List.mem_append, List.mem_singleton] at hp
        refine hp.imp_right ?_
        rintro rfl
        exact ⟨request size i p id, by simp, sameAs_iff.mpr ⟨rfl, rfl, rfl⟩⟩

/-- The loop only adds requests of its peer, with their marks.
Source: `ChunkDownload::sendRequests`. Kind: L -/
theorem grows_requestLoop (t : Clock) (n : ℕ) (v : Turn) :
    Grows size i id v (requestLoop size t i id n v) := by
  induction n generalizing v with
  | zero => exact .refl v
  | succ n ih =>
    unfold requestLoop
    split
    · exact (grows_next t v).trans (ih _)
    · exact .refl v

end Turn

/-! ### The invariant -/

namespace Swarm

variable {L : Layout}

/-- Piece `p` of chunk `i` is marked for the peer. Kind: D -/
def Marked (i : Fin L.numChunks) (id p : ℕ) (s : Swarm L) : Prop := p ∈ (s.ds i id).getD []

/-- Chunk `i` is being downloaded, and its piece `p` has not arrived. Kind: D -/
def Missing (i : Fin L.numChunks) (p : ℕ) (s : Swarm L) : Prop :=
  ∃ c, s.downloads i = some c ∧ c.cd.pieces.get p = false

/-- The peer has the request for piece `p` of chunk `i`. Kind: D -/
def Asked (i : Fin L.numChunks) (id p : ℕ) (s : Swarm L) : Prop :=
  ∃ pd, s.peers id = some pd ∧
    ∃ r ∈ pd.outstanding, r.sameAs (request (sizeOf i) i p id) = true

/-- The number of downloads a peer is assigned to. Kind: D -/
def holders (id : ℕ) (s : Swarm L) : ℕ := (Finset.univ.filter (id ∈ s.pdown ·)).card

/-- The bookkeeping, but for the marks in `E`. Kind: D -/
structure BookedBut (E : Fin L.numChunks → ℕ → ℕ → Prop) (s : Swarm L) : Prop where
  asked : ∀ i id p, s.Marked i id p → s.Missing i p → s.Asked i id p ∨ E i id p
  own : ∀ id pd, s.peers id = some pd → ∀ r ∈ pd.outstanding, r.peer = id
  noted : ∀ i id, (s.ds i id).isSome = decide (id ∈ s.pdown i)
  live : ∀ i id, id ∈ s.pdown i → (s.peers id).isSome
  nodup : ∀ i, (s.pdown i).Nodup
  grabbed : ∀ id pd, s.peers id = some pd → pd.grabbed = s.holders id

/-- Fewer exceptions: those that are neither marked nor missing any more. Source: none:
infrastructure. Kind: L -/
theorem BookedBut.mono {E E' : Fin L.numChunks → ℕ → ℕ → Prop} {s : Swarm L} (h : BookedBut E s)
    (himp : ∀ i id p, E i id p → s.Marked i id p → s.Missing i p → E' i id p) : BookedBut E' s where
  asked i id p hm hp := (h.asked i id p hm hp).imp_right fun he => himp i id p he hm hp
  own := h.own
  noted := h.noted
  live := h.live
  nodup := h.nodup
  grabbed := h.grabbed

/-! ### Asking for more -/

/-- What asking for more does: requests are only added, none for a peer that chokes, and a new mark
comes with its request. Kind: D -/
structure Sends (s s' : Swarm L) : Prop where
  peer : ∀ id pd, s.peers id = some pd → ∃ pd', s'.peers id = some pd' ∧
    pd'.grabbed = pd.grabbed ∧ (∀ r ∈ pd.outstanding, r ∈ pd'.outstanding) ∧
    (∀ r ∈ pd'.outstanding, r ∈ pd.outstanding ∨ r.peer = id) ∧ (pd.choked = true → pd' = pd)
  gone : ∀ id, s.peers id = none → s'.peers id = none
  pdown : ∀ i, s'.pdown i = s.pdown i
  missing : ∀ i p, s'.Missing i p → s.Missing i p
  noted : ∀ i id, (s'.ds i id).isSome = (s.ds i id).isSome
  marked : ∀ i id p, s'.Marked i id p → s.Marked i id p ∨
    (s'.Asked i id p ∧ ∀ pd, s.peers id = some pd → pd.choked = false)

/-- Nothing sent. Source: none: infrastructure. Kind: L -/
theorem Sends.refl (s : Swarm L) : Sends s s where
  peer _ pd h := ⟨pd, h, rfl, fun _ h => h, fun _ h => .inl h, fun _ => rfl⟩
  gone _ h := h
  pdown _ := rfl
  missing _ _ h := h
  noted _ _ := rfl
  marked _ _ _ h := .inl h

/-- A request stays. Source: `torrent/chunkdownload.cpp`, `torrent/peerdownloader.cpp`. Kind: L -/
theorem Sends.asked {s s' : Swarm L} (h : Sends s s') {i : Fin L.numChunks} {id p : ℕ}
    (ha : s.Asked i id p) : s'.Asked i id p := by
  obtain ⟨pd, hpd, r, hr, hs⟩ := ha
  obtain ⟨pd', hpd', -, hkept, -, -⟩ := h.peer id pd hpd
  exact ⟨pd', hpd', r, hkept r hr, hs⟩

/-- Sending twice is sending. Source: none: infrastructure. Kind: L -/
theorem Sends.trans {s s' s'' : Swarm L} (h : Sends s s') (h' : Sends s' s'') : Sends s s'' where
  peer id pd hpd := by
    obtain ⟨pd', hpd', hg, hk, ho, hc⟩ := h.peer id pd hpd
    obtain ⟨pd'', hpd'', hg', hk', ho', hc'⟩ := h'.peer id pd' hpd'
    refine ⟨pd'', hpd'', hg'.trans hg, fun r hr => hk' r (hk r hr), ?_, ?_⟩
    · intro r hr
      exact (ho' r hr).elim (ho r) .inr
    · intro hch
      obtain rfl := hc hch
      exact hc' hch
  gone id hid := h'.gone id (h.gone id hid)
  pdown i := (h'.pdown i).trans (h.pdown i)
  missing i p hm := h.missing i p (h'.missing i p hm)
  noted i id := (h'.noted i id).trans (h.noted i id)
  marked i id p hm := by
    rcases h'.marked i id p hm with hm | ⟨ha, hch⟩
    · rcases h.marked i id p hm with hm | ⟨ha, hch⟩
      · exact .inl hm
      · exact .inr ⟨h'.asked ha, hch⟩
    · refine .inr ⟨ha, fun pd hpd => ?_⟩
      obtain ⟨pd', hpd', -, -, -, hc⟩ := h.peer id pd hpd
      by_contra hne
      obtain rfl := hc (by simpa using hne)
      exact hne (hch _ hpd')

/-- Sending to one peer after the other is sending. Source: `torrent/chunkdownload.cpp`,
`torrent/peerdownloader.cpp`. Kind: L -/
theorem Sends.foldl {f : Swarm L → ℕ → Swarm L} (hf : ∀ s id, Sends s (f s id)) (ids : List ℕ)
    (s : Swarm L) : Sends s (ids.foldl f s) := by
  induction ids generalizing s with
  | nil => exact .refl s
  | cons id ids ih => exact (hf s id).trans (ih _)

/-- Asking one peer for more only sends. Source: `ChunkDownload::sendRequests`. Kind: L -/
theorem sends_sendRequests (t : Clock) (i : Fin L.numChunks) (s : Swarm L) (id : ℕ) :
    Sends s (s.sendRequests t i id) := by
  unfold sendRequests
  rcases hc : s.downloads i with _ | c
  · exact .refl s
  rcases hpd : s.peers id with _ | pd
  · exact .refl s
  simp only
  rcases hds : c.dstatus id with _ | ds
  · exact .refl s
  simp only
  by_cases hch : pd.choked = true
  · simp only [hch, if_true]
    exact .refl s
  simp only [hch]
  have hg := @Turn.grows_requestLoop (sizeOf i) i id t c.piece_queue.length
    ⟨c.piece_queue, ds, pd⟩
  set v := requestLoop (sizeOf i) t i id c.piece_queue.length ⟨c.piece_queue, ds, pd⟩
  have hdsi : s.ds i id = some ds := by simp [Swarm.ds, hc, hds]
  refine ⟨?_, ?_, ?_, ?_, ?_, ?_⟩
  · intro id' pd' hpd'
    by_cases hid : id' = id
    · subst hid
      obtain rfl : pd = pd' := Option.some.inj (hpd.symm.trans hpd')
      exact ⟨v.pd, by simp, hg.grabbed, hg.kept, hg.own, fun h => absurd h hch⟩
    · exact ⟨pd', by simp [hid, hpd'], rfl, fun _ h => h, fun _ h => .inl h, fun _ => rfl⟩
  · intro id' hid'
    have hne : id' ≠ id := by
      rintro rfl
      rw [hpd] at hid'
      cases hid'
    simp [hne, hid']
  · intro j
    by_cases hj : j = i
    · subst hj
      simp [Swarm.pdown, hc]
    · simp [Swarm.pdown, hj]
  · rintro j p ⟨c', hc', hp⟩
    by_cases hj : j = i
    · subst hj
      simp only [Bool.false_eq_true, if_false, Function.update_self, Option.some.injEq] at hc'
      subst hc'
      exact ⟨c, hc, hp⟩
    · exact ⟨c', by simpa [hj] using hc', hp⟩
  · intro j id'
    by_cases hj : j = i
    · subst hj
      by_cases hid : id' = id
      · subst hid
        simp [Swarm.ds, hc, hds]
      · simp [Swarm.ds, hc, hid]
    · simp [Swarm.ds, hj]
  · intro j id' p hm
    by_cases hj : j = i
    · subst hj
      by_cases hid : id' = id
      · subst hid
        simp only [Marked, Swarm.ds, Bool.false_eq_true, if_false, Function.update_self,
          Option.bind_some, Option.getD_some] at hm
        rcases hg.asked p hm with hp | ⟨r, hr, hs⟩
        · left
          rw [Marked, hdsi]
          exact hp
        · right
          refine ⟨⟨v.pd, by simp, r, hr, hs⟩, fun pd' hpd' => ?_⟩
          obtain rfl : pd = pd' := Option.some.inj (hpd.symm.trans hpd')
          simpa using hch
      · left
        simpa [Marked, Swarm.ds, hc, hid] using hm
    · left
      simpa [Marked, Swarm.ds, hj] using hm

/-- Asking all peers of a download for more only sends. Source: `ChunkDownload::update`, `piece`.
Kind: L -/
theorem sends_sendAll (t : Clock) (i : Fin L.numChunks) (s : Swarm L) :
    Sends s (s.sendAll t i) :=
  .foldl (sends_sendRequests t i) _ s

/-- The number of holders depends on the lists of assigned peers only. Source: none: infrastructure.
Kind: L -/
theorem holders_congr {s s' : Swarm L} (h : ∀ i, s'.pdown i = s.pdown i) (id : ℕ) :
    s'.holders id = s.holders id := by
  simp only [holders, h]

/-- The books stay right while requests are sent. Source: `torrent/chunkdownload.cpp`,
`torrent/peerdownloader.cpp`. Kind: L -/
theorem BookedBut.sends {E : Fin L.numChunks → ℕ → ℕ → Prop} {s s' : Swarm L}
    (h : BookedBut E s) (hs : Sends s s') : BookedBut E s' where
  asked i id p hm hp := by
    rcases hs.marked i id p hm with hm | ⟨ha, -⟩
    · exact (h.asked i id p hm (hs.missing i p hp)).imp_left hs.asked
    · exact .inl ha
  own id pd' hpd' r hr := by
    rcases hpd : s.peers id with _ | pd
    · rw [hs.gone id hpd] at hpd'
      cases hpd'
    · obtain ⟨pd'', hpd'', -, -, ho, -⟩ := hs.peer id pd hpd
      obtain rfl : pd'' = pd' := Option.some.inj (hpd''.symm.trans hpd')
      exact (ho r hr).elim (h.own id pd hpd r) fun h => h
  noted i id := by rw [hs.noted, hs.pdown, h.noted]
  live i id hid := by
    rw [hs.pdown] at hid
    obtain ⟨pd, hpd⟩ := Option.isSome_iff_exists.mp (h.live i id hid)
    obtain ⟨pd', hpd', -⟩ := hs.peer id pd hpd
    exact Option.isSome_iff_exists.mpr ⟨pd', hpd'⟩
  nodup i := by
    rw [hs.pdown]
    exact h.nodup i
  grabbed id pd' hpd' := by
    rw [holders_congr hs.pdown]
    rcases hpd : s.peers id with _ | pd
    · rw [hs.gone id hpd] at hpd'
      cases hpd'
    · obtain ⟨pd'', hpd'', hgr, -⟩ := hs.peer id pd hpd
      obtain rfl : pd'' = pd' := Option.some.inj (hpd''.symm.trans hpd')
      rw [hgr]
      exact h.grabbed id pd hpd

/-! ### Changes to one peer -/

/-- What a peer's change makes of this peer. Source: `torrent/chunkdownload.cpp`,
`torrent/peerdownloader.cpp`. Kind: L -/
@[simp] theorem peers_modifyPeer_self (s : Swarm L) (id : ℕ)
    (f : PeerDownloader → PeerDownloader) :
    (s.modifyPeer id f).peers id = (s.peers id).map f :=
  Function.update_self _ _ _

/-- **A change to one peer** that takes off only the requests in `Lost` makes exceptions of the
pieces these were for, and of nothing else. Source: `torrent/chunkdownload.cpp`,
`torrent/peerdownloader.cpp`. Kind: L -/
theorem BookedBut.modifyPeer {E : Fin L.numChunks → ℕ → ℕ → Prop} {s : Swarm L} {id : ℕ}
    {f : PeerDownloader → PeerDownloader} (Lost : Request → Prop) (h : BookedBut E s)
    (hg : ∀ pd, (f pd).grabbed = pd.grabbed)
    (hsub : ∀ pd, ∀ r ∈ (f pd).outstanding, r ∈ pd.outstanding)
    (hkeep : ∀ pd, s.peers id = some pd → ∀ r ∈ pd.outstanding, r ∈ (f pd).outstanding ∨ Lost r) :
    BookedBut (fun i id' p => E i id' p ∨ (id' = id ∧
      ∃ r, Lost r ∧ r.sameAs (request (sizeOf i) i p id) = true)) (s.modifyPeer id f) where
  asked i id' p hm hp := by
    rcases h.asked i id' p hm hp with ⟨pd, hpd, r, hr, hs⟩ | he
    · by_cases hid : id' = id
      · subst hid
        rcases hkeep pd hpd r hr with hr | hl
        · exact .inl ⟨f pd, by simp [Swarm.modifyPeer, hpd], r, hr, hs⟩
        · exact .inr (.inr ⟨rfl, r, hl, hs⟩)
      · exact .inl ⟨pd, by simpa [Swarm.modifyPeer, hid] using hpd, r, hr, hs⟩
    · exact .inr (.inl he)
  own id' pd' hpd' r hr := by
    by_cases hid : id' = id
    · subst hid
      rcases hpd : s.peers id' with _ | pd
      · simp [Swarm.modifyPeer, hpd] at hpd'
      · simp only [Swarm.modifyPeer, hpd, Function.update_self, Option.map_some,
          Option.some.injEq] at hpd'
        subst hpd'
        exact h.own id' pd hpd r (hsub pd r hr)
    · exact h.own id' pd' (by simpa [Swarm.modifyPeer, hid] using hpd') r hr
  noted := h.noted
  live i id' hid' := by
    have hl := h.live i id' hid'
    by_cases hid : id' = id
    · subst hid
      simpa [Swarm.modifyPeer] using hl
    · simpa [Swarm.modifyPeer, hid] using hl
  nodup := h.nodup
  grabbed id' pd' hpd' := by
    by_cases hid : id' = id
    · subst hid
      rcases hpd : s.peers id' with _ | pd
      · simp [Swarm.modifyPeer, hpd] at hpd'
      · simp only [Swarm.modifyPeer, hpd, Function.update_self, Option.map_some,
          Option.some.injEq] at hpd'
        subst hpd'
        rw [hg]
        exact h.grabbed id' pd hpd
    · exact h.grabbed id' pd' (by simpa [Swarm.modifyPeer, hid] using hpd')

/-- A change to one peer that loses no request. Source: `torrent/chunkdownload.cpp`,
`torrent/peerdownloader.cpp`. Kind: L -/
theorem BookedBut.modifyPeer_keep {E : Fin L.numChunks → ℕ → ℕ → Prop} {s : Swarm L} {id : ℕ}
    {f : PeerDownloader → PeerDownloader} (h : BookedBut E s)
    (hg : ∀ pd, (f pd).grabbed = pd.grabbed)
    (hsame : ∀ pd r, r ∈ (f pd).outstanding ↔ r ∈ pd.outstanding) :
    BookedBut E (s.modifyPeer id f) := by
  have h' := @BookedBut.modifyPeer _ _ _ id f (fun _ => False) h hg
    (fun pd r hr => (hsame pd r).mp hr) fun pd _ r hr => .inl ((hsame pd r).mpr hr)
  refine h'.mono ?_
  rintro i id' p (he | ⟨-, r, hf, -⟩) - -
  · exact he
  · exact hf.elim

/-- A request taken off a peer makes an exception of the piece it is for.
Source: `torrent/chunkdownload.cpp`, `torrent/peerdownloader.cpp`. Kind: L -/
theorem BookedBut.remove {E : Fin L.numChunks → ℕ → ℕ → Prop} {s : Swarm L} (h : BookedBut E s)
    (id : ℕ) (req : Request) :
    BookedBut (fun i id' p => E i id' p ∨ (id' = id ∧
      req.sameAs (request (sizeOf i) i p id) = true)) (s.modifyPeer id (.remove req)) := by
  have h' := @BookedBut.modifyPeer _ _ _ id (.remove req) (fun r => r.sameAs req = true) h
    (fun pd => pd.grabbed_remove req) (fun pd r hr => PeerDownloader.mem_of_mem_remove hr)
    (fun pd _ r hr => by
      by_cases hs : r.sameAs req = true
      · exact .inr hs
      · exact .inl (PeerDownloader.mem_remove hr (by simpa using hs)))
  refine h'.mono ?_
  rintro i id' p (he | ⟨hid, r, hl, hs⟩) - -
  · exact .inl he
  · refine .inr ⟨hid, sameAs_iff.mpr ?_⟩
    obtain ⟨h1, h2, h3⟩ := sameAs_iff.mp hl
    rw [← h1, ← h2, ← h3]
    exact sameAs_iff.mp hs

/-! ### Fewer marks -/

/-- Nothing changes but that marks go and pieces arrive; a download without marks may begin or end.
Kind: D -/
structure Fewer (s s' : Swarm L) : Prop where
  peers : s'.peers = s.peers
  pdown : ∀ i, s'.pdown i = s.pdown i
  missing : ∀ i id p, s'.Marked i id p → s'.Missing i p → s.Missing i p
  noted : ∀ i id, (s'.ds i id).isSome = (s.ds i id).isSome
  marked : ∀ i id p, s'.Marked i id p → s.Marked i id p

/-- The books stay right when outstanding requests or marks become fewer together.
Source: `torrent/chunkdownload.cpp`, `torrent/peerdownloader.cpp`. Kind: L -/
theorem BookedBut.fewer {E : Fin L.numChunks → ℕ → ℕ → Prop} {s s' : Swarm L}
    (h : BookedBut E s) (hf : Fewer s s') : BookedBut E s' where
  asked i id p hm hp := by
    simp only [Asked, hf.peers]
    exact h.asked i id p (hf.marked i id p hm) (hf.missing i id p hm hp)
  own := by
    rw [hf.peers]
    exact h.own
  noted i id := by rw [hf.noted, hf.pdown, h.noted]
  live i id hid := by
    rw [hf.pdown] at hid
    rw [hf.peers]
    exact h.live i id hid
  nodup i := by
    rw [hf.pdown]
    exact h.nodup i
  grabbed id pd hpd := by
    rw [hf.peers] at hpd
    rw [holders_congr hf.pdown]
    exact h.grabbed id pd hpd

/-- A change to one download, seen from another. Source: `torrent/chunkdownload.cpp`,
`torrent/peerdownloader.cpp`. Kind: L -/
theorem downloads_modifyDownload_of_ne {s : Swarm L} {i j : Fin L.numChunks} (h : j ≠ i)
    (f : Active (sizeOf i) → Active (sizeOf i)) :
    (s.modifyDownload i f).downloads j = s.downloads j :=
  Function.update_of_ne h _ _

/-- What a download's change makes of this download. Source: `torrent/chunkdownload.cpp`,
`torrent/peerdownloader.cpp`. Kind: L -/
@[simp] theorem downloads_modifyDownload_self {s : Swarm L} {i : Fin L.numChunks}
    (f : Active (sizeOf i) → Active (sizeOf i)) :
    (s.modifyDownload i f).downloads i = (s.downloads i).map f :=
  Function.update_self _ _ _

/-- **A change to one download** that keeps its peers, loses marks and gains pieces.
Source: `torrent/chunkdownload.cpp`, `torrent/peerdownloader.cpp`. Kind: L -/
theorem fewer_modifyDownload {s : Swarm L} {i : Fin L.numChunks}
    {f : Active (sizeOf i) → Active (sizeOf i)}
    (hpdown : ∀ c, (f c).pdown = c.pdown)
    (hmissing : ∀ c, s.downloads i = some c →
      ∀ p, (f c).cd.pieces.get p = false → c.cd.pieces.get p = false)
    (hnoted : ∀ c id, s.downloads i = some c →
      ((f c).dstatus id).isSome = (c.dstatus id).isSome)
    (hmarked : ∀ c id p, s.downloads i = some c →
      p ∈ ((f c).dstatus id).getD [] → p ∈ (c.dstatus id).getD []) :
    Fewer s (s.modifyDownload i f) := by
  refine ⟨rfl, ?_, ?_, ?_, ?_⟩
  · intro j
    by_cases hj : j = i
    · subst hj
      rcases hc : s.downloads j with _ | c <;> simp [Swarm.pdown, hc, hpdown]
    · simp [Swarm.pdown, downloads_modifyDownload_of_ne hj]
  · rintro j - p - ⟨c', hc', hp⟩
    by_cases hj : j = i
    · subst hj
      rcases hc : s.downloads j with _ | c
      · simp [hc] at hc'
      · simp only [downloads_modifyDownload_self, hc, Option.map_some, Option.some.injEq] at hc'
        subst hc'
        exact ⟨c, hc, hmissing c hc p hp⟩
    · rw [downloads_modifyDownload_of_ne hj] at hc'
      exact ⟨c', hc', hp⟩
  · intro j id
    by_cases hj : j = i
    · subst hj
      rcases hc : s.downloads j with _ | c
      · simp [Swarm.ds, hc]
      · simp [Swarm.ds, hc, hnoted c id hc]
    · simp [Swarm.ds, downloads_modifyDownload_of_ne hj]
  · intro j id p hm
    by_cases hj : j = i
    · subst hj
      rcases hc : s.downloads j with _ | c
      · simp [Marked, Swarm.ds, hc] at hm
      · simp only [Marked, Swarm.ds, downloads_modifyDownload_self, hc, Option.map_some,
          Option.bind_some] at hm ⊢
        exact hmarked c id p hc hm
    · simpa only [Marked, Swarm.ds, downloads_modifyDownload_of_ne hj] using hm

/-- A mark that is taken off. Source: `ChunkDownload::piece`, `notDownloaded`. Kind: L -/
theorem fewer_unmark (i : Fin L.numChunks) (id p : ℕ) (s : Swarm L) :
    Fewer s (s.unmark i id p) := by
  refine fewer_modifyDownload (fun _ => rfl) (fun _ _ _ h => h) ?_ ?_
  · intro c id' _
    by_cases hid : id' = id
    · subst hid
      simp
    · simp [hid]
  · intro c id' q _ hq
    by_cases hid : id' = id
    · subst hid
      rcases hds : c.dstatus id' with _ | ds
      · simp [hds] at hq
      · simp only [hds, Option.map_some, Function.update_self, Option.getD_some] at hq ⊢
        exact (List.mem_filter.mp hq).1
    · simpa [hid] using hq

/-- The mark is gone. Source: `ChunkDownload::piece`, `notDownloaded`. Kind: L -/
theorem not_marked_unmark (i : Fin L.numChunks) (id p : ℕ) (s : Swarm L) :
    ¬ (s.unmark i id p).Marked i id p := by
  rcases hc : s.downloads i with _ | c
  · simp [Marked, Swarm.ds, unmark, hc]
  · rcases hds : c.dstatus id with _ | ds
    · simp [Marked, Swarm.ds, unmark, hc, hds]
    · simp [Marked, Swarm.ds, unmark, hc, hds]

/-- **The exception goes with its mark.**. Source: `ChunkDownload::piece`, `notDownloaded`.
Kind: L -/
theorem BookedBut.unmark {E E' : Fin L.numChunks → ℕ → ℕ → Prop} {s : Swarm L}
    (h : BookedBut E s) {i : Fin L.numChunks} {id p : ℕ}
    (himp : ∀ j id' q, E j id' q → E' j id' q ∨ (j = i ∧ id' = id ∧ q = p)) :
    BookedBut E' (s.unmark i id p) := by
  refine (h.fewer (fewer_unmark i id p s)).mono fun j id' q he hm _ => ?_
  rcases himp j id' q he with he' | ⟨rfl, rfl, rfl⟩
  · exact he'
  · exact absurd hm (not_marked_unmark _ _ _ s)

/-- A peer that is not assigned has no marks. Source: `torrent/chunkdownload.cpp`,
`torrent/peerdownloader.cpp`. Kind: L -/
theorem BookedBut.not_marked {E : Fin L.numChunks → ℕ → ℕ → Prop} {s : Swarm L}
    (h : BookedBut E s) {i : Fin L.numChunks} {id : ℕ} (hid : id ∉ s.pdown i) (p : ℕ) :
    ¬ s.Marked i id p := by
  have hn := h.noted i id
  rw [decide_eq_false hid] at hn
  simp [Marked, Option.isSome_eq_false_iff.mp hn |> Option.isNone_iff_eq_none.mp]

/-! ### Rejected requests -/

/-- The piece of a request is not marked for the peer. Kind: D -/
def Unnoted (id : ℕ) (r : Request) (s : Swarm L) : Prop :=
  ∀ i : Fin L.numChunks, i.val = r.index → ¬ s.Marked i id (r.off / MAX_PIECE_LEN)

/-- The signal `rejected` takes the mark of a request off, and asks for more.
Source: `ChunkDownload::onRejected`. Kind: L -/
theorem rejected_spec {E E' : Fin L.numChunks → ℕ → ℕ → Prop} {s : Swarm L} (t : Clock) {id : ℕ}
    {r : Request} (h : BookedBut E s) (hr : r.peer = id)
    (himp : ∀ j id' q, E j id' q →
      E' j id' q ∨ (j.val = r.index ∧ id' = id ∧ q = r.off / MAX_PIECE_LEN)) :
    BookedBut E' (s.rejected t id r) := by
  unfold rejected
  split
  · next hlt =>
    split
    · next hid =>
      subst hr
      refine (h.unmark fun j id' q he => ?_).sends (sends_sendAll t _ _)
      exact (himp j id' q he).imp_right fun ⟨hj, hid', hq⟩ => ⟨Fin.ext hj, hid', hq⟩
    · next hid =>
      refine h.mono fun j id' q he hm _ => ?_
      rcases himp j id' q he with he' | ⟨hj, rfl, rfl⟩
      · exact he'
      · obtain rfl : j = ⟨r.index, hlt⟩ := Fin.ext hj
        exact absurd hm (h.not_marked hid _)
  · next hlt =>
    refine h.mono fun j id' q he _ _ => ?_
    rcases himp j id' q he with he' | ⟨hj, -⟩
    · exact he'
    · exact absurd (hj ▸ j.isLt) hlt

/-- The peer that chokes keeps its requests meanwhile, and gains no marks.
Source: `ChunkDownload::onRejected`. Kind: L -/
theorem rejected_choked {E : Fin L.numChunks → ℕ → ℕ → Prop} {s : Swarm L} (t : Clock) {id : ℕ}
    {r : Request} {pd : PeerDownloader} (h : BookedBut E s) (hr : r.peer = id)
    (hpd : s.peers id = some pd) (hch : pd.choked = true) :
    (s.rejected t id r).peers id = some pd ∧ Unnoted id r (s.rejected t id r) ∧
      ∀ i p, (s.rejected t id r).Marked i id p → s.Marked i id p := by
  unfold rejected
  split
  · next hlt =>
    split
    · next hid =>
      subst hr
      have hf := fewer_unmark (⟨r.index, hlt⟩ : Fin L.numChunks) r.peer (r.off / MAX_PIECE_LEN) s
      have hs := sends_sendAll t ⟨r.index, hlt⟩
        (s.unmark ⟨r.index, hlt⟩ r.peer (r.off / MAX_PIECE_LEN))
      rw [← hf.peers] at hpd
      obtain ⟨pd', hpd', -, -, -, hsame⟩ := hs.peer r.peer pd hpd
      have hback : ∀ i p, (s.notDownloaded t ⟨r.index, hlt⟩ r).Marked i r.peer p →
          (s.unmark ⟨r.index, hlt⟩ r.peer (r.off / MAX_PIECE_LEN)).Marked i r.peer p := by
        intro i p hm
        rcases hs.marked i r.peer p hm with hm | ⟨-, hfree⟩
        · exact hm
        · rw [hfree pd hpd] at hch
          cases hch
      refine ⟨by rw [notDownloaded, hpd', hsame hch], ?_, fun i p hm =>
        hf.marked i r.peer p (hback i p hm)⟩
      intro i hi hm
      obtain rfl : i = ⟨r.index, hlt⟩ := Fin.ext hi
      exact not_marked_unmark _ _ _ s (hback _ _ hm)
    · next hid =>
      refine ⟨hpd, ?_, fun _ _ hm => hm⟩
      intro i hi
      obtain rfl : i = ⟨r.index, hlt⟩ := Fin.ext hi
      exact h.not_marked hid _
  · next hlt =>
    refine ⟨hpd, ?_, fun _ _ hm => hm⟩
    intro i hi
    exact absurd (hi ▸ i.isLt) hlt

/-- All requests of a choking peer rejected, one after the other.
Source: `ChunkDownload::onRejected`. Kind: L -/
theorem rejected_all (t : Clock) {id : ℕ} {pd : PeerDownloader} (hch : pd.choked = true)
    (rs : List Request) {s : Swarm L} (h : BookedBut (fun _ _ _ => False) s)
    (hrs : ∀ r ∈ rs, r.peer = id) (hpd : s.peers id = some pd) :
    BookedBut (fun _ _ _ => False) (rs.foldl (rejected t id) s) ∧
      (rs.foldl (rejected t id) s).peers id = some pd ∧
      (∀ r ∈ rs, Unnoted id r (rs.foldl (rejected t id) s)) ∧
      ∀ i p, (rs.foldl (rejected t id) s).Marked i id p → s.Marked i id p := by
  induction rs generalizing s with
  | nil => exact ⟨h, hpd, fun _ hr => absurd hr List.not_mem_nil, fun _ _ hm => hm⟩
  | cons r rs ih =>
    have hr : r.peer = id := hrs r List.mem_cons_self
    obtain ⟨hpd', hun, hback⟩ := rejected_choked t h hr hpd hch
    obtain ⟨hb, hp, hu, hm⟩ := ih (rejected_spec t h hr fun _ _ _ he => .inl he)
      (fun r' hr' => hrs r' (List.mem_cons_of_mem _ hr')) hpd'
    refine ⟨hb, hp, ?_, fun i p hmk => hback i p (hm i p hmk)⟩
    intro r' hr' i hi hmk
    rcases List.mem_cons.mp hr' with rfl | hr'
    · exact hun i hi (hm i _ hmk)
    · exact hu r' hr' i hi hmk

/-- Requests whose pieces are not marked may go. Source: `Chunk::clear`. Kind: L -/
theorem BookedBut.clear {s : Swarm L} (h : BookedBut (fun _ _ _ => False) s) {id : ℕ}
    {f : PeerDownloader → PeerDownloader} {rs : List Request}
    (hg : ∀ pd, (f pd).grabbed = pd.grabbed)
    (hsub : ∀ pd, ∀ r ∈ (f pd).outstanding, r ∈ pd.outstanding)
    (hkeep : ∀ pd, s.peers id = some pd → ∀ r ∈ pd.outstanding, r ∈ (f pd).outstanding ∨ r ∈ rs)
    (hun : ∀ r ∈ rs, Unnoted id r s) :
    BookedBut (fun _ _ _ => False) (s.modifyPeer id f) := by
  refine (h.modifyPeer (· ∈ rs) hg hsub hkeep).mono ?_
  rintro i id' p (hf | ⟨rfl, r, hr, hs⟩) hm -
  · exact hf
  · obtain ⟨hi, hp⟩ := piece_of_sameAs hs
    subst hp
    exact hun r hr i hi.symm hm

/-- Everything a choking peer was asked for is given up: first what was sent, then what waits.
Source: `PeerDownloader::choked`. Kind: L -/
theorem BookedBut.choked {s : Swarm L} (h : BookedBut (fun _ _ _ => False) s) (t : Clock) {id : ℕ}
    {pd : PeerDownloader} (hpd : s.peers id = some pd) (hch : pd.choked = true) :
    BookedBut (fun _ _ _ => False) (s.choked t id) := by
  simp only [Swarm.choked, hpd]
  by_cases hfast : pd.fast_extensions = true
  · rw [if_pos hfast]
    exact h
  rw [if_neg hfast]
  have hown := h.own id pd hpd
  obtain ⟨h2, hpd2, hun2, -⟩ := rejected_all t hch (pd.reqs.map (·.req)) h
    (fun r hr => hown r (List.mem_append_left _ hr)) hpd
  set s2 := (pd.reqs.map (·.req)).foldl (rejected t id) s
  have h3 := @BookedBut.clear _ _ h2 id (fun pd => { pd with reqs := [] }) (pd.reqs.map (·.req))
    (fun _ => rfl)
    (fun _ r hr => List.mem_append_right _ (by simpa [PeerDownloader.outstanding] using hr))
    (fun pd' hpd' r hr => by
      obtain rfl : pd = pd' := Option.some.inj (hpd2.symm.trans hpd')
      rcases List.mem_append.mp hr with hr | hr
      · exact .inr hr
      · exact .inl (by simpa [PeerDownloader.outstanding] using hr))
    hun2
  have hpd3 : (s2.modifyPeer id fun pd => { pd with reqs := [] }).peers id =
      some { pd with reqs := [] } := by
    rw [peers_modifyPeer_self, hpd2]
    rfl
  have hch3 : ({ pd with reqs := [] } : PeerDownloader).choked = true := hch
  obtain ⟨h4, hpd4, hun4, -⟩ := rejected_all t hch3 pd.wait_queue h3
    (fun r hr => hown r (List.mem_append_right _ hr)) hpd3
  rw [hpd3]
  refine h4.clear (fun _ => rfl) (fun _ r hr => List.mem_append_left _
    (by simpa [PeerDownloader.outstanding] using hr)) (fun pd' hpd' r hr => ?_) hun4
  obtain rfl : { pd with reqs := [] } = pd' := Option.some.inj (hpd4.symm.trans hpd')
  exact .inr (by simpa [PeerDownloader.outstanding] using hr)

/-- **A choke keeps the books.**. Source: `Peer::packetReady`. Kind: L -/
theorem BookedBut.choke {s : Swarm L} (h : BookedBut (fun _ _ _ => False) s) (t : Clock) (id : ℕ) :
    BookedBut (fun _ _ _ => False) (s.choke t id) := by
  have h1 : BookedBut (fun _ _ _ => False)
      (s.modifyPeer id fun pd => { pd with choked := true }) :=
    h.modifyPeer_keep (fun _ => rfl) fun _ _ => Iff.rfl
  rcases hpd : s.peers id with _ | pd
  · have hnone : (s.modifyPeer id fun pd => { pd with choked := true }).peers id = none := by
      rw [peers_modifyPeer_self, hpd]
      rfl
    simp only [Swarm.choke, Swarm.choked, hnone]
    exact h1
  · have hsome : (s.modifyPeer id fun pd => { pd with choked := true }).peers id =
        some { pd with choked := true } := by
      rw [peers_modifyPeer_self, hpd]
      rfl
    exact h1.choked t hsome rfl

/-- **A rejection keeps the books.**. Source: `PeerDownloader::onRejected`. Kind: L -/
theorem BookedBut.onRejected {s : Swarm L} (h : BookedBut (fun _ _ _ => False) s) (t : Clock)
    (r : Request) : BookedBut (fun _ _ _ => False) (s.onRejected t r) := by
  unfold Swarm.onRejected
  split
  · refine rejected_spec t (h.modifyPeer (fun r' => r'.sameAs r = true) ?_ ?_ ?_) rfl ?_
    · intro pd
      rfl
    · intro pd r' hr'
      simp only [PeerDownloader.outstanding, List.mem_append, List.mem_map] at hr' ⊢
      refine hr'.imp_left ?_
      rintro ⟨tr, htr, rfl⟩
      exact ⟨tr, (List.mem_filter.mp htr).1, rfl⟩
    · intro pd _ r' hr'
      by_cases hs : r'.sameAs r = true
      · exact .inr hs
      · left
        simp only [PeerDownloader.outstanding, List.mem_append, List.mem_map] at hr' ⊢
        refine hr'.imp_left ?_
        rintro ⟨tr, htr, rfl⟩
        exact ⟨tr, List.mem_filter.mpr ⟨htr, by simpa using hs⟩, rfl⟩
    · rintro j id' q (hf | ⟨rfl, r', hl, hs⟩)
      · exact hf.elim
      · obtain ⟨hj, hq⟩ := piece_of_sameAs hs
        obtain ⟨h1, -, h3⟩ := sameAs_iff.mp hl
        exact .inr ⟨by rw [← hj, h1], rfl, by rw [← hq, h3]⟩
  · exact h

/-! ### Cancelled requests -/

/-- One peer's request for an arrived piece is cancelled with its mark.
Source: `ChunkDownload::endgameCancel`. Kind: L -/
theorem BookedBut.endgameCancelOf {E : Fin L.numChunks → ℕ → ℕ → Prop} {s : Swarm L}
    (h : BookedBut E s) {i : Fin L.numChunks} {p : Piece} (hp : p.index = i.val) (id : ℕ) :
    BookedBut E (s.endgameCancelOf i p id) := by
  unfold Swarm.endgameCancelOf
  split
  · refine (h.remove id p.request).unmark ?_
    rintro j id' q (he | ⟨rfl, hs⟩)
    · exact .inl he
    · obtain ⟨hj, hq⟩ := piece_of_sameAs hs
      exact .inr ⟨Fin.ext (hj.symm.trans hp), rfl, hq.symm⟩
  · exact h

/-- A piece that came is cancelled at the other peers. Source: `ChunkDownload::endgameCancel`.
Kind: L -/
theorem BookedBut.endgameCancel {E : Fin L.numChunks → ℕ → ℕ → Prop} {s : Swarm L}
    (h : BookedBut E s) {i : Fin L.numChunks} {p : Piece} (hp : p.index = i.val) :
    BookedBut E (s.endgameCancel i p) := by
  unfold Swarm.endgameCancel
  generalize s.pdown i = ids
  induction ids generalizing s with
  | nil => exact h
  | cons id ids ih => exact ih (h.endgameCancelOf hp id)

/-- The requests for marked pieces of a chunk go first. Source: `ChunkDownload::sendCancels`.
Kind: L -/
theorem BookedBut.foldl_sendCancel {E : Fin L.numChunks → ℕ → ℕ → Prop} {s : Swarm L}
    (h : BookedBut E s) (i : Fin L.numChunks) (id : ℕ) (ps : List ℕ) :
    BookedBut (fun j id' q => E j id' q ∨ (j = i ∧ id' = id)) (ps.foldl (sendCancel i id) s) := by
  induction ps generalizing s E with
  | nil => exact h.mono fun _ _ _ he _ _ => .inl he
  | cons p ps ih =>
    refine (ih (h.remove id (request (sizeOf i) i p 0))).mono ?_
    rintro j id' q ((he | ⟨hid, hs⟩) | hji) - -
    · exact .inl he
    · exact .inr ⟨Fin.ext (piece_of_sameAs hs).1.symm, hid⟩
    · exact .inr hji

/-- CANCELs do not touch the downloads. Source: `ChunkDownload::sendCancels`. Kind: L -/
theorem downloads_foldl_sendCancel (i : Fin L.numChunks) (id : ℕ) (ps : List ℕ) (s : Swarm L) :
    (ps.foldl (sendCancel i id) s).downloads = s.downloads := by
  induction ps generalizing s with
  | nil => rfl
  | cons p ps ih => exact ih _

/-- Then their marks. Source: `ChunkDownload::sendCancels`. Kind: L -/
theorem BookedBut.sendCancels {E : Fin L.numChunks → ℕ → ℕ → Prop} {s : Swarm L}
    (h : BookedBut E s) (i : Fin L.numChunks) (id : ℕ) : BookedBut E (s.sendCancels i id) := by
  unfold Swarm.sendCancels
  rcases hds : s.ds i id with _ | ds
  · exact h
  have hrem := h.foldl_sendCancel i id ds
  have hdown := downloads_foldl_sendCancel i id ds s
  simp only
  set s' := ds.foldl (sendCancel i id) s
  have hds' : s'.ds i id = some ds := by
    rw [Swarm.ds, hdown]
    exact hds
  have hf : Fewer s' (s'.modifyDownload i fun c =>
      { c with dstatus := Function.update c.dstatus id (some []) }) := by
    refine fewer_modifyDownload (fun _ => rfl) (fun _ _ _ h => h) ?_ ?_
    · intro c id' hc
      by_cases hid : id' = id
      · subst hid
        have : c.dstatus id' = some ds := by simpa [Swarm.ds, hc] using hds'
        simp [this]
      · simp [hid]
    · intro c id' p _ hp
      by_cases hid : id' = id
      · subst hid
        simp at hp
      · simpa [hid] using hp
  refine (hrem.fewer hf).mono ?_
  rintro j id' q (he | ⟨rfl, rfl⟩) hm -
  · exact he
  · rcases hc : s'.downloads j with _ | c
    · simp [Marked, Swarm.ds, hc] at hm
    · simp [Marked, Swarm.ds, hc] at hm

/-- All requests of a download are cancelled. Source: `ChunkDownload::cancelAll`. Kind: L -/
theorem BookedBut.cancelAll {E : Fin L.numChunks → ℕ → ℕ → Prop} {s : Swarm L}
    (h : BookedBut E s) (i : Fin L.numChunks) : BookedBut E (s.cancelAll i) := by
  unfold Swarm.cancelAll
  generalize s.pdown i = ids
  induction ids generalizing s with
  | nil => exact h
  | cons id ids ih => exact ih (h.sendCancels i id)

/-! ### Peers released and assigned -/

/-- The downloads a peer is assigned to, when it is no more assigned to one of them.
Source: `torrent/chunkdownload.cpp`, `torrent/peerdownloader.cpp`. Kind: L -/
theorem holders_of_left {s s' : Swarm L} {i : Fin L.numChunks} {id : ℕ}
    (hi : id ∉ s'.pdown i) (h : ∀ j, j ≠ i → (id ∈ s'.pdown j ↔ id ∈ s.pdown j)) :
    s'.holders id = if id ∈ s.pdown i then s.holders id - 1 else s.holders id := by
  have hset : Finset.univ.filter (id ∈ s'.pdown ·) =
      (Finset.univ.filter (id ∈ s.pdown ·)).erase i := by
    ext j
    by_cases hj : j = i
    · subst hj
      simp [hi]
    · simp [hj, h j hj]
  unfold holders
  rw [hset]
  split
  · next hid => exact Finset.card_erase_of_mem (by simp [hid])
  · next hid => rw [Finset.erase_eq_of_notMem (by simp [hid])]

/-- A peer that joins one download holds one more. Source: `torrent/chunkdownload.cpp`,
`torrent/peerdownloader.cpp`. Kind: L -/
theorem holders_of_joined {s s' : Swarm L} {i : Fin L.numChunks} {id : ℕ}
    (hi : id ∈ s'.pdown i) (hnot : id ∉ s.pdown i)
    (h : ∀ j, j ≠ i → (id ∈ s'.pdown j ↔ id ∈ s.pdown j)) :
    s'.holders id = s.holders id + 1 := by
  have hset : Finset.univ.filter (id ∈ s'.pdown ·) =
      Insert.insert i (Finset.univ.filter (id ∈ s.pdown ·)) := by
    ext j
    by_cases hj : j = i
    · subst hj
      simp [hi]
    · simp [hj, h j hj]
  unfold holders
  rw [hset]
  exact Finset.card_insert_of_notMem (by simp [hnot])

/-- Released peers are released once each, the others are left alone.
Source: `PeerDownloader::release`. Kind: L -/
theorem peers_foldl_release {ids : List ℕ} (hnd : ids.Nodup) (s : Swarm L) (id : ℕ) :
    (ids.foldl (fun s id => s.modifyPeer id .release) s).peers id =
      if id ∈ ids then (s.peers id).map .release else s.peers id := by
  induction ids generalizing s with
  | nil => rfl
  | cons q ids ih =>
    obtain ⟨hq, hnd⟩ := List.nodup_cons.mp hnd
    rw [List.foldl_cons, ih hnd]
    by_cases hid : id = q
    · subst hid
      simp [hq]
    · simp [Swarm.modifyPeer, hid]

/-- Releasing peers does not touch the downloads. Source: `PeerDownloader::release`. Kind: L -/
theorem downloads_foldl_release (ids : List ℕ) (s : Swarm L) :
    (ids.foldl (fun s id => s.modifyPeer id .release) s).downloads = s.downloads := by
  induction ids generalizing s with
  | nil => rfl
  | cons q ids ih => exact ih _

/-- Other downloads keep their peers. Source: `ChunkDownload::releaseAllPDs`. Kind: L -/
theorem downloads_releaseAllPDs_of_ne {i j : Fin L.numChunks} (hj : j ≠ i) (s : Swarm L) :
    (s.releaseAllPDs i).downloads j = s.downloads j := by
  rw [releaseAllPDs, downloads_modifyDownload_of_ne hj, downloads_foldl_release]

/-- The download is left without peers and statuses. Source: `ChunkDownload::releaseAllPDs`.
Kind: L -/
theorem downloads_releaseAllPDs_self (i : Fin L.numChunks) (s : Swarm L) :
    (s.releaseAllPDs i).downloads i =
      (s.downloads i).map fun c => { c with pdown := [], dstatus := fun _ => none } := by
  rw [releaseAllPDs, downloads_modifyDownload_self, downloads_foldl_release]

/-- No peer is assigned any more. Source: `ChunkDownload`, `pdown`. Kind: L -/
theorem pdown_releaseAllPDs_self (i : Fin L.numChunks) (s : Swarm L) :
    (s.releaseAllPDs i).pdown i = [] := by
  rw [Swarm.pdown, downloads_releaseAllPDs_self]
  rcases s.downloads i with _ | c <;> rfl

/-- No peer has a status any more. Source: `ChunkDownload::releaseAllPDs`. Kind: L -/
theorem ds_releaseAllPDs_self (i : Fin L.numChunks) (id : ℕ) (s : Swarm L) :
    (s.releaseAllPDs i).ds i id = none := by
  rw [Swarm.ds, downloads_releaseAllPDs_self]
  rcases s.downloads i with _ | c <;> rfl

/-- **Releasing the peers of a download keeps the books.**. Source: `ChunkDownload::releaseAllPDs`.
Kind: L -/
theorem BookedBut.releaseAllPDs {E : Fin L.numChunks → ℕ → ℕ → Prop} {s : Swarm L}
    (h : BookedBut E s) (i : Fin L.numChunks) : BookedBut E (s.releaseAllPDs i) := by
  have hpeers : ∀ id, (s.releaseAllPDs i).peers id =
      if id ∈ s.pdown i then (s.peers id).map .release else s.peers id :=
    peers_foldl_release (h.nodup i) s
  have hpdown : ∀ j, j ≠ i → (s.releaseAllPDs i).pdown j = s.pdown j := by
    intro j hj
    rw [Swarm.pdown, downloads_releaseAllPDs_of_ne hj, Swarm.pdown]
  have hds : ∀ j id, j ≠ i → (s.releaseAllPDs i).ds j id = s.ds j id := by
    intro j id hj
    rw [Swarm.ds, downloads_releaseAllPDs_of_ne hj, Swarm.ds]
  have hpeer : ∀ id pd', (s.releaseAllPDs i).peers id = some pd' → ∃ pd, s.peers id = some pd ∧
      pd' = if id ∈ s.pdown i then pd.release else pd := by
    intro id pd' hpd'
    rw [hpeers] at hpd'
    split at hpd'
    · next hid =>
      obtain ⟨pd, hpd, rfl⟩ := Option.map_eq_some_iff.mp hpd'
      exact ⟨pd, hpd, by rw [if_pos hid]⟩
    · next hid => exact ⟨pd', hpd', by rw [if_neg hid]⟩
  refine ⟨?_, ?_, ?_, ?_, ?_, ?_⟩
  · intro j id p hm hp
    by_cases hj : j = i
    · subst hj
      simp [Marked, ds_releaseAllPDs_self] at hm
    · rw [Marked, hds j id hj] at hm
      rw [Missing, downloads_releaseAllPDs_of_ne hj] at hp
      refine (h.asked j id p hm hp).imp_left ?_
      rintro ⟨pd, hpd, r, hr, hs⟩
      rw [Asked, hpeers, hpd]
      split
      · exact ⟨pd.release, rfl, r, hr, hs⟩
      · exact ⟨pd, rfl, r, hr, hs⟩
  · intro id pd' hpd' r hr
    obtain ⟨pd, hpd, rfl⟩ := hpeer id pd' hpd'
    refine h.own id pd hpd r ?_
    split at hr <;> exact hr
  · intro j id
    by_cases hj : j = i
    · subst hj
      rw [ds_releaseAllPDs_self, pdown_releaseAllPDs_self]
      rfl
    · rw [hds j id hj, hpdown j hj]
      exact h.noted j id
  · intro j id hid
    by_cases hj : j = i
    · subst hj
      rw [pdown_releaseAllPDs_self] at hid
      exact absurd hid List.not_mem_nil
    · rw [hpdown j hj] at hid
      have hl := h.live j id hid
      rw [hpeers]
      split
      · rwa [Option.isSome_map]
      · exact hl
  · intro j
    by_cases hj : j = i
    · subst hj
      rw [pdown_releaseAllPDs_self]
      exact List.nodup_nil
    · rw [hpdown j hj]
      exact h.nodup j
  · intro id pd' hpd'
    obtain ⟨pd, hpd, rfl⟩ := hpeer id pd' hpd'
    have hg := h.grabbed id pd hpd
    rw [@holders_of_left _ s _ i _ (by simp [pdown_releaseAllPDs_self])
      fun j hj => by rw [hpdown j hj]]
    split
    · rw [← hg]
      rfl
    · exact hg

/-- A download without peers may take the place of another, or of none.
Source: `torrent/chunkdownload.cpp`, `torrent/peerdownloader.cpp`. Kind: L -/
theorem BookedBut.replace {E : Fin L.numChunks → ℕ → ℕ → Prop} {s : Swarm L}
    (h : BookedBut E s) {i : Fin L.numChunks} (hi : s.pdown i = [])
    (o : Option (Active (sizeOf i))) (hpdown : ∀ c ∈ o, c.pdown = [])
    (hdstatus : ∀ c ∈ o, ∀ id, c.dstatus id = none) :
    BookedBut E { s with downloads := Function.update s.downloads i o } := by
  have hds : ∀ id, ({ s with downloads := Function.update s.downloads i o } : Swarm L).ds i id =
      none := by
    intro id
    rcases o with _ | c
    · simp [Swarm.ds]
    · simp [Swarm.ds, hdstatus c rfl id]
  refine h.fewer ⟨rfl, ?_, ?_, ?_, ?_⟩
  · intro j
    by_cases hj : j = i
    · subst hj
      rw [hi]
      rcases o with _ | c
      · simp [Swarm.pdown]
      · simp [Swarm.pdown, hpdown c rfl]
    · simp [Swarm.pdown, hj]
  · rintro j id p hm hp
    by_cases hj : j = i
    · subst hj
      rw [Marked, hds] at hm
      exact absurd hm List.not_mem_nil
    · simpa [Missing, hj] using hp
  · intro j id
    by_cases hj : j = i
    · subst hj
      rw [hds, h.noted, hi]
      rfl
    · simp [Swarm.ds, hj]
  · intro j id p hm
    by_cases hj : j = i
    · subst hj
      rw [Marked, hds] at hm
      exact absurd hm List.not_mem_nil
    · simpa [Marked, Swarm.ds, hj] using hm

/-- A released download can go. Source: `torrent/chunkdownload.cpp`, `torrent/peerdownloader.cpp`.
Kind: L -/
theorem BookedBut.drop {E : Fin L.numChunks → ℕ → ℕ → Prop} {s : Swarm L}
    (h : BookedBut E s) (i : Fin L.numChunks) : BookedBut E ((s.releaseAllPDs i).erase i) :=
  (h.releaseAllPDs i).replace (pdown_releaseAllPDs_self i s) none (by simp) (by simp)

/-- A new download that has no peers yet. Source: `torrent/chunkdownload.cpp`,
`torrent/peerdownloader.cpp`. Kind: L -/
theorem BookedBut.insert {E : Fin L.numChunks → ℕ → ℕ → Prop} {s : Swarm L} (h : BookedBut E s)
    {i : Fin L.numChunks} {c : Active (sizeOf i)} (hpdown : c.pdown = [])
    (hdstatus : ∀ id, c.dstatus id = none) : BookedBut E (s.insert i c) := by
  unfold Swarm.insert
  split
  · exact h
  · next hc =>
    have hi : s.pdown i = [] := by
      rw [Bool.not_eq_true, Option.isSome_eq_false_iff, Option.isNone_iff_eq_none] at hc
      simp [Swarm.pdown, hc]
    refine h.replace hi (some c) ?_ ?_
    · rintro _ ⟨⟩
      exact hpdown
    · rintro _ ⟨⟩
      exact hdstatus

/-- The peer `id` has joined the download of chunk `i`, and nothing was asked of it yet. Kind: D -/
structure Joined (i : Fin L.numChunks) (id : ℕ) (s s' : Swarm L) : Prop where
  fresh : id ∉ s.pdown i
  live : (s.peers id).isSome
  pdown : s'.pdown i = s.pdown i ++ [id]
  pdown_of_ne : ∀ j, j ≠ i → s'.pdown j = s.pdown j
  ds : ∀ j id', s'.ds j id' = if j = i ∧ id' = id then some [] else s.ds j id'
  missing : ∀ j p, s'.Missing j p → s.Missing j p
  peers : ∀ id', s'.peers id' = if id' = id then (s.peers id').map .grab else s.peers id'

/-- Source: `ChunkDownload::assignPeer`, up to `sendRequests`. Kind: L -/
theorem joined_join {s : Swarm L} {i : Fin L.numChunks} {id : ℕ} {c : Active (sizeOf i)}
    (hc : s.downloads i = some c) (hlive : (s.peers id).isSome) (hid : id ∉ s.pdown i) :
    Joined i id s ((s.modifyPeer id .grab).modifyDownload i fun c =>
      { c with pdown := c.pdown ++ [id], dstatus := Function.update c.dstatus id (some []) }) := by
  set s' := (s.modifyPeer id .grab).modifyDownload i fun c =>
    { c with pdown := c.pdown ++ [id], dstatus := Function.update c.dstatus id (some []) } with hs'
  have hother : ∀ j, j ≠ i → s'.downloads j = s.downloads j := fun j hj =>
    downloads_modifyDownload_of_ne hj _
  have hself : s'.downloads i = some { c with
      pdown := c.pdown ++ [id], dstatus := Function.update c.dstatus id (some []) } := by
    rw [hs', downloads_modifyDownload_self]
    show Option.map _ (s.downloads i) = _
    rw [hc]
    rfl
  refine ⟨hid, hlive, by simp [Swarm.pdown, hself, hc], fun j hj => ?_, fun j id' => ?_,
    fun j p hm => ?_, fun id' => ?_⟩
  · rw [Swarm.pdown, hother j hj, Swarm.pdown]
  · by_cases hj : j = i
    · subst hj
      by_cases hid' : id' = id
      · subst hid'
        simp [Swarm.ds, hself]
      · simp [Swarm.ds, hself, hc, hid']
    · simp [Swarm.ds, hother j hj, hj]
  · obtain ⟨c', hc', hp⟩ := hm
    by_cases hj : j = i
    · subst hj
      obtain rfl := Option.some.inj (hself.symm.trans hc')
      exact ⟨c, hc, hp⟩
    · exact ⟨c', (hother j hj).symm.trans hc', hp⟩
  · show (s.modifyPeer id .grab).peers id' = _
    by_cases hid' : id' = id
    · subst hid'
      simp [Swarm.modifyPeer]
    · simp [Swarm.modifyPeer, hid']

/-- A peer after somebody joined: what it was asked is the same, and only the one that joined is
grabbed once more. Source: `torrent/chunkdownload.cpp`, `torrent/peerdownloader.cpp`. Kind: L -/
theorem Joined.peer {s s' : Swarm L} {i : Fin L.numChunks} {id : ℕ} (h : Joined i id s s') {id' : ℕ}
    {pd' : PeerDownloader} (hpd' : s'.peers id' = some pd') :
    ∃ pd, s.peers id' = some pd ∧ pd'.outstanding = pd.outstanding ∧
      pd'.grabbed = if id' = id then pd.grabbed + 1 else pd.grabbed := by
  rw [h.peers] at hpd'
  split at hpd'
  · next hid' =>
    obtain ⟨pd, hpd, rfl⟩ := Option.map_eq_some_iff.mp hpd'
    exact ⟨pd, hpd, rfl, by rw [if_pos hid']; rfl⟩
  · next hid' => exact ⟨pd', hpd', rfl, by rw [if_neg hid']⟩

/-- The peer that joined holds one download more. Source: `torrent/chunkdownload.cpp`,
`torrent/peerdownloader.cpp`. Kind: L -/
theorem Joined.holders {s s' : Swarm L} {i : Fin L.numChunks} {id : ℕ} (h : Joined i id s s')
    (id' : ℕ) : s'.holders id' = if id' = id then s.holders id' + 1 else s.holders id' := by
  split_ifs with hid'
  · subst hid'
    exact holders_of_joined (by simp [h.pdown]) h.fresh fun j hj => by rw [h.pdown_of_ne j hj]
  · unfold Swarm.holders
    congr 1
    ext j
    by_cases hj : j = i
    · subst hj
      simp [h.pdown, hid']
    · simp [h.pdown_of_ne j hj]

/-- **A peer that joins a download keeps the books.**. Source: `torrent/chunkdownload.cpp`,
`torrent/peerdownloader.cpp`. Kind: L -/
theorem BookedBut.joined {E : Fin L.numChunks → ℕ → ℕ → Prop} {s s' : Swarm L} (h : BookedBut E s)
    {i : Fin L.numChunks} {id : ℕ} (hj : Joined i id s s') : BookedBut E s' := by
  have hpdown : ∀ j id', id' ∈ s'.pdown j ↔ id' ∈ s.pdown j ∨ j = i ∧ id' = id := by
    intro j id'
    by_cases hji : j = i
    · subst hji
      simp [hj.pdown]
    · simp [hj.pdown_of_ne j hji, hji]
  refine ⟨?_, ?_, ?_, ?_, ?_, ?_⟩
  · intro j id' p hm hp
    rw [Marked, hj.ds] at hm
    split_ifs at hm
    · exact absurd hm List.not_mem_nil
    refine (h.asked j id' p hm (hj.missing j p hp)).imp_left ?_
    rintro ⟨pd, hpd, r, hr, hs⟩
    rw [Asked, hj.peers]
    split_ifs
    · exact ⟨pd.grab, by rw [hpd]; rfl, r, hr, hs⟩
    · exact ⟨pd, hpd, r, hr, hs⟩
  · intro id' pd' hpd' r hr
    obtain ⟨pd, hpd, hout, -⟩ := hj.peer hpd'
    exact h.own id' pd hpd r (hout ▸ hr)
  · intro j id'
    rw [hj.ds, Bool.eq_iff_iff, decide_eq_true_iff, hpdown]
    split_ifs with hself
    · simp [hself]
    · simp [hself, h.noted j id']
  · intro j id' hid'
    rw [hj.peers]
    obtain hid' | ⟨-, rfl⟩ := (hpdown j id').mp hid'
    · have hlive := h.live j id' hid'
      split_ifs
      · rwa [Option.isSome_map]
      · exact hlive
    · rw [if_pos rfl, Option.isSome_map]
      exact hj.live
  · intro j
    by_cases hji : j = i
    · subst hji
      rw [hj.pdown]
      refine List.nodup_append.mpr ⟨h.nodup j, List.nodup_singleton id, ?_⟩
      rintro a ha _ hb rfl
      exact hj.fresh (List.mem_singleton.mp hb ▸ ha)
    · rw [hj.pdown_of_ne j hji]
      exact h.nodup j
  · intro id' pd' hpd'
    obtain ⟨pd, hpd, -, hg⟩ := hj.peer hpd'
    rw [hg, h.grabbed id' pd hpd, hj.holders]

/-- **Assigning a peer keeps the books.**. Source: `ChunkDownload::assignPeer`. Kind: L -/
theorem BookedBut.assignPeer {E : Fin L.numChunks → ℕ → ℕ → Prop} {s : Swarm L}
    (h : BookedBut E s) (t : Clock) (i : Fin L.numChunks) (id : ℕ) :
    BookedBut E (s.assignPeer t i id) := by
  unfold Swarm.assignPeer
  split
  · exact h
  · next hno =>
    push Not at hno
    obtain ⟨hc, hpd, hid⟩ := hno
    obtain ⟨c, hc⟩ := Option.ne_none_iff_exists'.mp (by simpa using hc)
    have hlive : (s.peers id).isSome := Option.isSome_iff_ne_none.mpr (by simpa using hpd)
    exact (h.joined (joined_join hc hlive hid)).sends (sends_sendRequests t i _ id)

/-! ### Peers that come and go -/

/-- A new peer has no requests yet. Source: `PeerDownloader::PeerDownloader`. Kind: L -/
theorem BookedBut.newPeer {E : Fin L.numChunks → ℕ → ℕ → Prop} {s : Swarm L} (h : BookedBut E s)
    (id : ℕ) (fast_extensions : Bool) : BookedBut E (s.newPeer id fast_extensions) := by
  unfold Swarm.newPeer
  split
  · exact h
  · next hno =>
    rw [Bool.not_eq_true, Option.isSome_eq_false_iff, Option.isNone_iff_eq_none] at hno
    have hnot : ∀ i, id ∉ s.pdown i := by
      intro i hid
      have hl := h.live i id hid
      rw [hno] at hl
      cases hl
    refine ⟨?_, ?_, h.noted, ?_, h.nodup, ?_⟩
    · intro i id' p hm hp
      refine (h.asked i id' p hm hp).imp_left ?_
      rintro ⟨pd, hpd, r, hr, hs⟩
      refine ⟨pd, ?_, r, hr, hs⟩
      have hne : id' ≠ id := by
        rintro rfl
        rw [hno] at hpd
        cases hpd
      simpa [hne] using hpd
    · intro id' pd' hpd' r hr
      by_cases hid : id' = id
      · subst hid
        simp only [Function.update_self, Option.some.injEq] at hpd'
        subst hpd'
        exact absurd hr List.not_mem_nil
      · exact h.own id' pd' (by simpa [hid] using hpd') r hr
    · intro i id' hid'
      have hne : id' ≠ id := by
        rintro rfl
        exact hnot i hid'
      simpa [hne] using h.live i id' hid'
    · intro id' pd' hpd'
      by_cases hid : id' = id
      · subst hid
        simp only [Function.update_self, Option.some.injEq] at hpd'
        subst hpd'
        exact (Finset.card_eq_zero.mpr (Finset.filter_eq_empty_iff.mpr fun i _ => hnot i)).symm
      · exact h.grabbed id' pd' (by simpa [hid] using hpd')

/-- What `peerKilled` makes of a download. Kind: D -/
def left {size : ℕ} (id : ℕ) (c : Active size) : Active size :=
  if id ∈ c.pdown then
    { c with pdown := c.pdown.filter (· ≠ id), dstatus := Function.update c.dstatus id none }
  else c

/-- Each of the downloads named drops the killed peer. Source: `ChunkDownload::peerKilled`.
Kind: L -/
theorem downloads_foldl_peerKilled (id : ℕ) {is : List (Fin L.numChunks)} (hnd : is.Nodup)
    (s : Swarm L) (j : Fin L.numChunks) :
    (is.foldl (fun s i => s.peerKilled id i) s).downloads j =
      if j ∈ is then (s.downloads j).map (left id) else s.downloads j := by
  induction is generalizing s with
  | nil => rfl
  | cons i is ih =>
    obtain ⟨hi, hnd⟩ := List.nodup_cons.mp hnd
    rw [List.foldl_cons, ih hnd]
    by_cases hj : j = i
    · subst hj
      rw [if_neg hi, if_pos List.mem_cons_self]
      exact downloads_modifyDownload_self _
    · have hsame : (s.peerKilled id i).downloads j = s.downloads j :=
        downloads_modifyDownload_of_ne hj _
      simp [hsame, hj]

/-- Dropping a peer from the downloads does not touch the peers.
Source: `ChunkDownload::peerKilled`. Kind: L -/
theorem peers_foldl_peerKilled (id : ℕ) (is : List (Fin L.numChunks)) (s : Swarm L) :
    (is.foldl (fun s i => s.peerKilled id i) s).peers = s.peers := by
  induction is generalizing s with
  | nil => rfl
  | cons i is ih => exact ih _

/-- A killed peer leaves every download. Source: `Downloader::onPeerKilled`. Kind: L -/
theorem downloads_onPeerKilled (id : ℕ) (s : Swarm L) (j : Fin L.numChunks) :
    (s.onPeerKilled id).downloads j = (s.downloads j).map (left id) := by
  show ((List.finRange L.numChunks).foldl (fun s i => s.peerKilled id i) s).downloads j = _
  rw [downloads_foldl_peerKilled id (List.nodup_finRange _), if_pos (List.mem_finRange j)]

/-- A killed peer is gone, the others are left. Source: `Downloader::onPeerKilled`. Kind: L -/
theorem peers_onPeerKilled (id id' : ℕ) (s : Swarm L) :
    (s.onPeerKilled id).peers id' = if id' = id then none else s.peers id' := by
  show Function.update ((List.finRange L.numChunks).foldl _ s).peers id none id' = _
  rw [peers_foldl_peerKilled, Function.update_apply]

/-- The peers of a download without the killed one. Source: `ChunkDownload`, `pdown`. Kind: L -/
theorem pdown_onPeerKilled (id : ℕ) (s : Swarm L) (j : Fin L.numChunks) :
    (s.onPeerKilled id).pdown j = (s.pdown j).filter (· ≠ id) := by
  rw [Swarm.pdown, downloads_onPeerKilled, Swarm.pdown]
  rcases s.downloads j with _ | c
  · rfl
  · simp only [Option.map_some, Option.getD_some, left]
    split
    · rfl
    · next hid =>
      refine (List.filter_eq_self.mpr fun a ha => ?_).symm
      simp only [ne_eq, decide_not, Bool.not_eq_eq_eq_not, Bool.not_true, decide_eq_false_iff_not]
      rintro rfl
      exact hid ha

/-- Its marks go with the peer, the others stay. Source: `Downloader::onPeerKilled`. Kind: L -/
theorem BookedBut.ds_onPeerKilled {E : Fin L.numChunks → ℕ → ℕ → Prop} {s : Swarm L}
    (h : BookedBut E s) (id id' : ℕ) (j : Fin L.numChunks) :
    (s.onPeerKilled id).ds j id' = if id' = id then none else s.ds j id' := by
  have hn := h.noted j id
  unfold Swarm.ds Swarm.pdown at hn
  rw [Swarm.ds, downloads_onPeerKilled, Swarm.ds]
  rcases hc : s.downloads j with _ | c
  · simp
  · rw [hc] at hn
    simp only [Option.map_some, Option.bind_some, Option.getD_some, left] at hn ⊢
    split
    · simp [Function.update_apply]
    · next hid =>
      rw [decide_eq_false hid, Option.isSome_eq_false_iff, Option.isNone_iff_eq_none] at hn
      split
      · next heq => rw [heq, hn]
      · rfl

/-- **A peer that goes leaves the books right.**. Source: `Downloader::onPeerKilled`. Kind: L -/
theorem BookedBut.onPeerKilled {E : Fin L.numChunks → ℕ → ℕ → Prop} {s : Swarm L}
    (h : BookedBut E s) (id : ℕ) : BookedBut E (s.onPeerKilled id) := by
  refine ⟨?_, ?_, ?_, ?_, ?_, ?_⟩
  · intro i id' p hm hp
    rw [Marked, h.ds_onPeerKilled] at hm
    by_cases hid : id' = id
    · rw [if_pos hid] at hm
      exact absurd hm List.not_mem_nil
    rw [if_neg hid] at hm
    have hp' : s.Missing i p := by
      obtain ⟨c', hc', hp⟩ := hp
      rw [downloads_onPeerKilled] at hc'
      obtain ⟨c, hc, rfl⟩ := Option.map_eq_some_iff.mp hc'
      refine ⟨c, hc, ?_⟩
      rw [left] at hp
      split at hp <;> exact hp
    refine (h.asked i id' p hm hp').imp_left ?_
    rintro ⟨pd, hpd, r, hr, hs⟩
    exact ⟨pd, by rw [peers_onPeerKilled, if_neg hid, hpd], r, hr, hs⟩
  · intro id' pd hpd
    rw [peers_onPeerKilled] at hpd
    split at hpd
    · cases hpd
    · exact h.own id' pd hpd
  · intro i id'
    rw [h.ds_onPeerKilled, pdown_onPeerKilled]
    by_cases hid : id' = id
    · simp [hid]
    · simp [hid, h.noted]
  · intro i id' hid'
    rw [pdown_onPeerKilled, List.mem_filter] at hid'
    have hne : id' ≠ id := by simpa using hid'.2
    rw [peers_onPeerKilled, if_neg hne]
    exact h.live i id' hid'.1
  · intro i
    rw [pdown_onPeerKilled]
    exact (h.nodup i).filter _
  · intro id' pd hpd
    rw [peers_onPeerKilled] at hpd
    split at hpd
    · cases hpd
    · next hne =>
      rw [h.grabbed id' pd hpd]
      simp [holders, pdown_onPeerKilled, hne]

/-! ### Pieces -/

/-- A piece that is missing after an arrival was missing before. Source: `ChunkDownload::piece`.
Kind: L -/
theorem missing_of_piece {size : ℕ} {cd : ChunkDownload size} {mem : Option Mem} {p : Piece} {q : ℕ}
    (h : (cd.piece mem p).cd.pieces.get q = false) : cd.pieces.get q = false := by
  have hset : ∀ pp, (cd.pieces.set pp true).get q = false → cd.pieces.get q = false := by
    intro pp hq
    rw [BitSet.get_set] at hq
    split_ifs at hq
    exact hq
  unfold ChunkDownload.piece at h
  rcases mem with _ | mem
  · dsimp only at h
    split_ifs at h <;> exact h
  · dsimp only at h
    split_ifs at h
    · exact h
    all_goals exact hset _ h

/-- **A piece that reaches its download** closes the exception its request left.
Source: `ChunkDownload::piece`. Kind: L -/
theorem BookedBut.piece {s : Swarm L} {i : Fin L.numChunks} {p : Piece} (t : Clock)
    (mem : Option Mem) (hi : p.index = i.val) (hdown : (s.downloads i).isSome)
    (h : BookedBut (fun j id q => j = i ∧ id = p.peer ∧ q = p.off / MAX_PIECE_LEN) s) :
    BookedBut (fun _ _ _ => False) (s.piece t mem i p) := by
  obtain ⟨c, hc⟩ := Option.isSome_iff_exists.mp hdown
  simp only [Swarm.piece, hc]
  by_cases hget : c.cd.pieces.get (p.off / MAX_PIECE_LEN) = true
  · rw [if_pos hget]
    refine h.mono ?_
    rintro j id q ⟨rfl, -, rfl⟩ - ⟨c', hc', hp⟩
    obtain rfl : c = c' := Option.some.inj (hc.symm.trans hc')
    rw [hget] at hp
    cases hp
  rw [if_neg hget]
  have h1 : BookedBut (fun _ _ _ => False) (s.unmark i p.peer (p.off / MAX_PIECE_LEN)) :=
    h.unmark fun j id q he => .inr he
  set s1 := s.unmark i p.peer (p.off / MAX_PIECE_LEN) with hs1
  split
  · have h2 : BookedBut (fun _ _ _ => False) (s1.modifyDownload i fun c' =>
        { c' with
          cd := (c.cd.piece mem p).cd
          piece_queue := c'.piece_queue.filter (· ≠ p.off / MAX_PIECE_LEN) }) := by
      refine h1.fewer (fewer_modifyDownload (fun _ => rfl) ?_ (fun _ _ _ => rfl)
        fun _ _ _ _ hm => hm)
      intro c' hc' q hq
      have hcd : c'.cd = c.cd := by
        rw [hs1, Swarm.unmark, downloads_modifyDownload_self, hc] at hc'
        rw [← Option.some.inj hc']
      rw [hcd]
      exact missing_of_piece hq
    have h3 := h2.endgameCancel hi
    split_ifs
    · exact h3.drop i
    · exact h2.drop i
    · exact h3.sends (sends_sendAll t i _)
    · exact h2.sends (sends_sendAll t i _)
  · exact h1.sends (sends_sendAll t i s1)

/-- The piece answers a request that is marked for its sender, and is missing. Kind: D -/
def Answers (p : Piece) (s : Swarm L) : Prop :=
  ∃ i : Fin L.numChunks, s.Marked i p.peer (p.off / MAX_PIECE_LEN) ∧
    s.Missing i (p.off / MAX_PIECE_LEN) ∧
    p.request.sameAs (request (sizeOf i) i (p.off / MAX_PIECE_LEN) p.peer) = true

/-- **The message `PIECE` keeps the books**, unless everything wanted is complete.
Source: `PeerDownloader::piece`. Kind: L -/
theorem BookedBut.receivePiece {s : Swarm L} (h : BookedBut (fun _ _ _ => False) s) (t : Clock)
    (os : Os) (cman : ChunkManager L) {p : Piece}
    (hok : cman.completed = true → ¬ s.Answers p) :
    BookedBut (fun _ _ _ => False) (s.receivePiece t os cman p) := by
  unfold Swarm.receivePiece
  split
  · exact h
  refine BookedBut.modifyPeer_keep ?_ (fun pd => pd.grabbed_update t p.peer) fun pd r => by
    rw [PeerDownloader.outstanding_update]
  -- the request is off, the mark still there
  have hrem := h.remove p.peer p.request
  set s1 := s.modifyPeer p.peer (.remove p.request)
  unfold Swarm.pieceRecieved
  split
  · next hcomp =>
    refine hrem.mono ?_
    rintro i id q (hf | ⟨rfl, hs⟩) hm hp
    · exact hf
    · obtain ⟨-, rfl⟩ := piece_of_sameAs hs
      exact hok hcomp ⟨i, hm, hp, hs⟩
  · split
    · next hlt =>
      by_cases hnone : (s1.downloads ⟨p.index, hlt⟩).isNone = true
      · rw [if_pos hnone]
        refine hrem.mono ?_
        rintro i id q (hf | ⟨rfl, hs⟩) - ⟨c, hc, -⟩
        · exact hf
        · obtain rfl : (⟨p.index, hlt⟩ : Fin L.numChunks) = i := Fin.ext (piece_of_sameAs hs).1
          rw [hc] at hnone
          cases hnone
      · rw [if_neg hnone]
        refine BookedBut.piece t _ rfl (by simpa [Option.isSome_iff_ne_none] using hnone)
          (hrem.mono ?_)
        rintro i id q (hf | ⟨rfl, hs⟩) - -
        · exact hf.elim
        · obtain ⟨hi, hq⟩ := piece_of_sameAs hs
          exact ⟨Fin.ext hi.symm, rfl, hq.symm⟩
    · next hlt =>
      refine hrem.mono ?_
      rintro i id q (hf | ⟨rfl, hs⟩) - -
      · exact hf
      · have hi : p.index = i.val := (piece_of_sameAs hs).1
        exact absurd (hi ▸ i.isLt) hlt

/-! ### Runs -/

/-- **The bookkeeping**: a piece that is still missing and marked for a peer is asked for, and every
peer counts the downloads it is assigned to. Kind: D -/
structure Booked (s : Swarm L) : Prop where
  asked : ∀ i id p, (s.peers id).isSome → s.Marked i id p → s.Missing i p → s.Asked i id p
  grabbed : ∀ id pd, s.peers id = some pd → pd.grabbed = s.holders id

/-- Books without exceptions are right. Source: `torrent/chunkdownload.cpp`,
`torrent/peerdownloader.cpp`. Kind: L -/
theorem BookedBut.booked {s : Swarm L} (h : BookedBut (fun _ _ _ => False) s) : Booked s where
  asked i id p _ hm hp := (h.asked i id p hm hp).resolve_right not_false
  grabbed := h.grabbed

/-- A piece that answers a marked request does not come while everything wanted is complete.
Kind: D -/
def Heard (s : Swarm L) : Event L → Prop
  | .piece _ _ cman p => cman.completed = true → ¬ s.Answers p
  | _ => True

/-- **Every step keeps the books.**. Source: `torrent/chunkdownload.cpp`,
`torrent/peerdownloader.cpp`. Kind: L -/
theorem BookedBut.step {s : Swarm L} (h : BookedBut (fun _ _ _ => False) s) {e : Event L}
    (hok : s.Heard e) : BookedBut (fun _ _ _ => False) (s.step e) := by
  cases e with
  | newPeer id fast_extensions => exact h.newPeer id fast_extensions
  | kill id => exact h.onPeerKilled id
  | piece t os cman p => exact h.receivePiece t os cman hok
  | reject t r => exact h.onRejected t r
  | choke t id => exact h.choke t id
  | unchoke id => exact h.modifyPeer_keep (fun _ => rfl) fun _ _ => Iff.rfl
  | checkTimeouts t id =>
    exact h.modifyPeer_keep (fun _ => rfl) fun pd r => pd.mem_outstanding_checkTimeouts t r
  | download i => exact h.insert rfl fun _ => rfl
  | load i pieces => exact h.insert rfl fun _ => rfl
  | assign t i id => exact h.assignPeer t i id
  | update t i => exact h.sends (sends_sendAll t i s)
  | cancelAll i => exact h.cancelAll i
  | release i => exact h.releaseAllPDs i
  | exclude i => exact (h.cancelAll i).drop i
  | found i => exact h.drop i

/-- A swarm without peers and downloads. Source: `BitSet::BitSet(Uint32)`. Kind: L -/
theorem bookedBut_empty : BookedBut (fun _ _ _ => False) ({} : Swarm L) where
  asked _ _ _ hm _ := absurd hm List.not_mem_nil
  own _ _ h := by cases h
  noted _ _ := rfl
  live _ _ h := absurd h List.not_mem_nil
  nodup _ := List.nodup_nil
  grabbed _ _ h := by cases h

/-- **The books are right in every state of a run** in which no piece that answers a marked request
comes while everything wanted is complete. Source: `ChunkDownload` and `PeerDownloader`. Kind: P -/
theorem booked_run {es es' : List (Event L)} (h : Meets step Heard ({} : Swarm L) es')
    (hpre : es <+: es') : Booked (run step ({} : Swarm L) es) :=
  (h.invariant_at (fun _ _ hs hok => hs.step hok)
    bookedBut_empty hpre).booked

/-- Two files of one byte, each in a chunk of its own. Kind: D -/
def seedLayout : Layout :=
  .checked ['t'] 1 2 [⟨['a'], 1, false⟩, ⟨['b'], 1, false⟩]
    [Vector.replicate 20 0, Vector.replicate 20 0] (by decide)

/-- The first chunk is there, the second was made an only seed one while it is downloaded.
Kind: D -/
def seedManager : ChunkManager seedLayout where
  chunks i :=
    if i.val = 0 then { index := 0, size := 1, status := .onDisk }
    else { index := 1, size := 1, status := .buffered, data := .heap fun _ => 0,
           priority := .onlySeed, ref_count := 1 }
  bitset := (BitSet.empty _).set 0 true
  only_seed_chunks := (BitSet.empty _).set 1 true
  todo := .empty _
  files k := if k = 1 then { priority := .onlySeed } else {}
  cache := { disk := fun _ => 0 }

/-- The second chunk. Kind: D -/
abbrev seedChunk : Fin seedLayout.numChunks := ⟨1, by decide⟩

/-- A peer is asked for the second chunk, and sends it. Kind: D -/
def seedRun : List (Event seedLayout) :=
  [.newPeer 1 false, .unchoke 1, .download seedChunk, .assign {} seedChunk 1,
    .piece {} {} seedManager ⟨1, 0, 1, [0]⟩]

/-- The same, while the second chunk is wanted. Kind: D -/
def busyRun : List (Event seedLayout) :=
  [.newPeer 1 false, .unchoke 1, .download seedChunk, .assign {} seedChunk 1,
    .piece {} {} { seedManager with todo := (BitSet.empty _).set 1 true } ⟨1, 0, 1, [0]⟩]

/-- The books of such a download are right. Source: `torrent/chunkdownload.cpp`,
`torrent/peerdownloader.cpp`. Kind: L -/
theorem booked_run_busy : Booked (run step ({} : Swarm seedLayout) busyRun) :=
  booked_run (show Meets step Heard ({} : Swarm seedLayout) busyRun from
    ⟨trivial, trivial, trivial, trivial, fun h => absurd h (by decide), trivial⟩) List.prefix_rfl

/-- **A mark without a request**: the piece is dropped because everything wanted is complete, though
only seed chunks are to finish; its request is gone, its mark stays.
Source: `torrent/chunkdownload.cpp`, `torrent/peerdownloader.cpp`. Kind: P -/
theorem mark_stays : ¬ ∀ (L : Layout) (es : List (Event L)), Booked (run step ({} : Swarm L) es) := by
  intro h
  have hb := h seedLayout seedRun
  have hpd : (run step ({} : Swarm seedLayout) seedRun).peers 1 =
      some { choked := false, grabbed := 1, max_wait_queue_size := 10 } := rfl
  have hds : (run step ({} : Swarm seedLayout) seedRun).ds seedChunk 1 = some [0] := rfl
  have hget : ((run step ({} : Swarm seedLayout) seedRun).downloads seedChunk).map
      (·.cd.pieces.get 0) = some false := rfl
  obtain ⟨c, hc, hp⟩ := Option.map_eq_some_iff.mp hget
  have hm : (run step ({} : Swarm seedLayout) seedRun).Marked seedChunk 1 0 := by
    rw [Marked, hds]
    exact List.mem_singleton.mpr rfl
  obtain ⟨pd, hpd', r, hr, -⟩ := hb.asked seedChunk 1 0 (by rw [hpd]; rfl) hm ⟨c, hc, hp⟩
  obtain rfl := Option.some.inj (hpd.symm.trans hpd')
  exact absurd hr List.not_mem_nil

end Swarm

end KTorrent.Transfer.Requests
