import KTorrent.Transfer.Credit

/-!
# The bytes downloaded are accounted for

* `Balanced` — the counter is the account of all chunks, and has never been cut off.
* `Accounts` — for each event, what keeps the balance.
* `Accurate` — what the counter should be; `balanced_run` — it is so in every state of a run whose
  events all meet their condition.

Source: `torrent/downloader.cpp`, `torrent/torrentcontrol.cpp`
-/

namespace KTorrent.Transfer

open KTorrent.Lib KTorrent.Util KTorrent.Storage ChunkManager

namespace Accounted

variable {L : Layout} {s : Accounted L}

/-! ### Pieces -/

/-- **The counter is what it should be.** Kind: D -/
structure Balanced (s : Accounted L) : Prop where
  entries : s.down.Entries
  credit : s.downloaded = s.down.credit
  uncut : s.cut = false

/-- A complete download ends: its bytes stay if the chunk has been saved.
Source: `Downloader::pieceRecieved`. Kind: L -/
theorem Balanced.complete (h : s.Balanced) {os : Os} (hopen : os.index_opens = true)
    (hlt : s.downloaded < 2 ^ 64) {i : Fin L.numChunks} {cd : ChunkDownload (sizeOf i)}
    (hcd : s.down.current_chunks i = some cd)
    (hall : bytesOfPieces (sizeOf i) cd.pieces = sizeOf i) : (s.complete os i cd).Balanced := by
  have hi : (s.down.current_chunks i).isSome = true := by rw [hcd]; rfl
  obtain ⟨hother, hcur, hsize, howned, hdata⟩ := Downloader.finished_spec h.entries hopen hi cd
  have hworth : worth (sizeOf i) (s.down.cman.cell i) (s.down.current_chunks i) = sizeOf i := by
    rw [hcd, worth_some ((h.entries i).apart hi), hall]
  have hle := Downloader.worth_le_credit (d := s.down) i
  obtain ⟨hentries, hcredit⟩ := h.entries.erase hother hcur hsize
    fun ho => hdata (howned ▸ ho)
  rw [hworth, howned] at hcredit
  rw [hworth, ← h.credit] at hle
  rw [← h.credit] at hcredit
  cases hret : (s.down.finished os i cd).2 with
  | true =>
    have hcomplete : s.complete os i cd =
        { s with down := (s.down.finished os i cd).1.erase i } := by
      unfold Accounted.complete
      simp only [hret, if_true]
    rw [hret, if_pos rfl] at hcredit
    rw [hcomplete]
    exact ⟨hentries, by simpa using hcredit.symm, h.uncut⟩
  | false =>
    have hcomplete : s.complete os i cd =
        { s with
          downloaded := sub64 s.downloaded (sizeOf i)
          down := (s.down.finished os i cd).1.erase i } := by
      unfold Accounted.complete
      simp only [hret, hsize, Bool.false_eq_true, if_false]
      rw [if_neg (by omega)]
    rw [hret, if_neg Bool.false_ne_true] at hcredit
    rw [hcomplete]
    refine ⟨hentries, ?_, h.uncut⟩
    show sub64 s.downloaded (sizeOf i) = ((s.down.finished os i cd).1.erase i).credit
    rw [sub64_of_le hle hlt]
    omega

/-- A whole piece of its chunk arrives, and the index file can be opened.
Source: `Downloader::pieceRecieved`. Kind: L -/
theorem Balanced.pieceRecieved (h : s.Balanced) (hp : L.piece_length < 2 ^ 32) (env : Env)
    (is_idle : Bool) {p : Piece} (hok : ∀ i, s.down.addressee p = some i →
      WellFormed (sizeOf i) p ∧ env.file.index_opens = true) :
    (s.pieceRecieved env is_idle p).Balanced := by
  unfold Accounted.pieceRecieved
  cases hadd : s.down.addressee p with
  | none => exact h
  | some i =>
    obtain ⟨hwell, hopen⟩ := hok i hadd
    cases hcd : s.down.current_chunks i with
    | none =>
      simp only [hcd]
      exact h
    | some cd =>
      simp only [hcd]
      obtain ⟨hreload, hsame⟩ := h.entries.reload (env.chunk i) i
      have hcd' : (s.down.reload (env.chunk i) i).current_chunks i = some cd := by
        rw [Downloader.current_chunks_reload]
        exact hcd
      obtain ⟨hkeep, hcredit, hcomplete⟩ := hreload.keepArrival hcd' hwell
      obtain ⟨a, ha⟩ : ∃ a, a = (s.down.reload (env.chunk i) i).arrival i cd p := ⟨_, rfl⟩
      rw [← ha] at hkeep hcredit hcomplete ⊢
      rw [hsame, ← h.credit] at hcredit
      have hcount : (if a.ok = true then u64 (s.downloaded + p.len) else s.downloaded) =
          ((s.down.reload (env.chunk i) i).keepArrival i a).credit := by
        have hlt := hkeep.credit_lt hp
        rw [hcredit] at hlt ⊢
        cases hret : a.ok with
        | true =>
          rw [hret, if_pos rfl] at hlt
          rw [if_pos rfl, if_pos rfl, u64_of_lt hlt]
        | false => rfl
      obtain ⟨n, hn⟩ : ∃ n, n = if a.ok = true then u64 (s.downloaded + p.len) else s.downloaded :=
        ⟨_, rfl⟩
      rw [← hn] at hcount ⊢
      have hbal : Balanced { s with
          down := (s.down.reload (env.chunk i) i).keepArrival i a
          downloaded := n } :=
        ⟨hkeep, hcount, h.uncut⟩
      have hnow : ((s.down.reload (env.chunk i) i).keepArrival i a).current_chunks i = some a.cd :=
        Function.update_self _ _ _
      split_ifs with hc hidle
      · exact hbal.complete hopen (hcount ▸ hkeep.credit_lt hp) hnow (hcomplete hc)
      · obtain ⟨hsave, hsaved⟩ := hkeep.saveIdle (by rw [hnow]; rfl) env.file
        exact ⟨hsave, hcount.trans hsaved.symm, h.uncut⟩
      · exact hbal

/-! ### Partial downloads are loaded -/

/-- Records are read. Source: `Downloader::loadDownloads`. Kind: L -/
theorem Balanced.loadLoop (h : s.Balanced) (hp : L.piece_length < 2 ^ 32) (env : Env)
    (old : ℕ → Mem) (n : ℕ) (file : List UInt8) : (loadLoop env old n file s).Balanced := by
  induction n generalizing file s with
  | zero => exact h
  | succ n ih =>
    rw [loadLoop_succ]
    obtain ⟨hdr, hhdr⟩ : ∃ hdr, hdr = ChunkDownloadHeader.read (old n) file := ⟨_, rfl⟩
    rw [← hhdr]
    by_cases hlt : hdr.index < L.numChunks
    swap
    · rw [dif_neg hlt]
      exact h
    rw [dif_pos hlt]
    generalize (⟨hdr.index, hlt⟩ : Fin L.numChunks) = i
    have hprep : ∀ j, Kin (s.down.cman.cell j) ((s.down.prepared env i).cman.cell j) :=
      Downloader.kin_prepareChunk s.down.cman (env.chunk i) i false
    by_cases hsome : (s.down.current_chunks i).isSome = true
    · rw [if_pos hsome]
      exact h
    rw [if_neg hsome]
    split_ifs with hok hx
    · -- the chunk is prepared, and its record is read
      rw [Bool.and_eq_true, Bool.not_eq_true'] at hok
      obtain ⟨hst, hdata⟩ := Downloader.prepareChunk_ok hok.2
      obtain ⟨l, hl⟩ : ∃ l, l = (s.down.prepared env i).loaded (old n) hdr
        (file.drop ChunkDownloadHeader.size) i := ⟨_, rfl⟩
      have hr : (s.down.prepared env i).loadRecord (old n) hdr
          (file.drop ChunkDownloadHeader.size) i =
          (l.rest, if l.ok = true then ((s.down.prepared env i).filled i l.data).insert i l.cd
            else (s.down.prepared env i).filled i l.data) := by
        rw [hl]
        rfl
      rw [hr, ← hl]
      apply ih
      have hfill : ∀ j, Kin ((s.down.prepared env i).cman.cell j)
          (((s.down.prepared env i).filled i l.data).cman.cell j) := by
        intro j
        unfold Downloader.filled
        split
        · exact .refl _
        · exact Downloader.kin_copyInto i 0 _ _ j
      have hcur : ((s.down.prepared env i).filled i l.data).current_chunks =
          s.down.current_chunks := by
        unfold Downloader.filled
        split <;> rfl
      have hkin := fun j => (hprep j).trans (hfill j)
      cases hlok : l.ok with
      | false =>
        obtain ⟨hentries, hcredit⟩ := h.entries.kin hkin hcur
        exact ⟨hentries, h.credit.trans hcredit.symm, h.uncut⟩
      | true =>
        have hown : s.down.cman.bitset.get i = false := by
          by_contra hne
          exact (h.entries i).data (.inl (by simpa using hne)) hst
        have hcount : l.cd.num_downloaded = l.cd.pieces.numOnBits := by
          rw [hl] at hlok ⊢
          exact num_downloaded_load _ _ _ _ _ hlok
        obtain ⟨hentries, hcredit⟩ := h.entries.insert _ l.cd hkin hcur
          (Option.not_isSome_iff_eq_none.mp hsome) hown hok.1 ((hfill i).data hdata) hcount
        refine ⟨hentries, ?_, h.uncut⟩
        have hlt := hentries.credit_lt hp
        have hsize : sizeOf i < 2 ^ 32 := Nat.mod_lt _ (by decide)
        rw [hcredit, ← h.credit] at hlt
        refine Eq.trans ?_ hcredit.symm
        show u64 (s.downloaded + l.cd.bytesDownloaded) = _
        rw [bytesDownloaded_eq hsize, u64_of_lt hlt, h.credit]
    · exact ih h _
    · obtain ⟨hentries, hcredit⟩ := h.entries.kin hprep rfl
      have hbal : Balanced { s with down := s.down.prepared env i } :=
        ⟨hentries, h.credit.trans hcredit.symm, h.uncut⟩
      exact ih hbal _

/-- The counter is set to what is credited. Source: `torrent/downloader.cpp`,
`torrent/torrentcontrol.cpp`. Kind: L -/
theorem balanced_setDownloaded (h : s.down.Entries) {n : ℕ} (hn : n = s.down.credit)
    (hcut : s.cut = false) : (s.setDownloaded n).Balanced :=
  ⟨h, hn, hcut⟩

/-- The counter is set to what no download has a part in. Source: `Downloader::recalcDownloaded`.
Kind: L -/
theorem balanced_recalcDownloaded (h : s.down.Entries) (hp : L.piece_length < 2 ^ 32)
    (hnone : ∀ i, partialBytes (sizeOf i) (s.down.current_chunks i) = 0) (hcut : s.cut = false) :
    s.recalcDownloaded.Balanced :=
  balanced_setDownloaded h (h.recalculated hp hnone) hcut

/-- Partial downloads are loaded: the counter is as it was, or counted anew.
Source: `Downloader::loadDownloads`. Kind: L -/
theorem balanced_loadDownloads (h : s.down.Entries) (hp : L.piece_length < 2 ^ 32)
    (hnone : ∀ i, partialBytes (sizeOf i) (s.down.current_chunks i) = 0) (hcut : s.cut = false)
    (env : Env) (old : ℕ → Mem) (file : Option (List UInt8))
    (hkept : s.down.cman.completed = true ∨ file = none → s.downloaded = s.down.credit) :
    (s.loadDownloads env old file).Balanced := by
  by_cases hc : s.down.cman.completed = true
  · rw [loadDownloads_of_completed env old file hc]
    exact ⟨h, hkept (.inl hc), hcut⟩
  cases file with
  | none =>
    have hsame : s.loadDownloads env old none = s := by
      unfold loadDownloads
      rw [if_neg hc]
    rw [hsame]
    exact ⟨h, hkept (.inr rfl), hcut⟩
  | some file =>
    have hbal := balanced_recalcDownloaded h hp hnone hcut
    rw [loadDownloads_some env old file hc]
    split_ifs
    · exact hbal
    · exact hbal.loadLoop hp env old _ _

/-! ### A torrent that starts -/

/-- A torrent starts with its counter right. Source: `torrent/downloader.cpp`,
`torrent/torrentcontrol.cpp`. Kind: L -/
theorem balanced_start (hp : L.piece_length < 2 ^ 32) (env₀ env : Env) (files : ℕ → FileSelection)
    (saved : Saved) (shuffle : List ℕ → List ℕ) :
    (start L env₀ env files saved shuffle).Balanced := by
  have hheld := held_loadIndexFile (L := L) env₀ env files saved
  have hentries : (Downloader.new shuffle
      ((construct L env₀ files saved).loadIndexFile env)).Entries :=
    fun i => Entry.alone (hheld i).1 (hheld i).2
  exact balanced_recalcDownloaded (s := ⟨_, 0, false⟩) hentries hp (fun _ => rfl) rfl

/-! ### Runs -/

/-- **What keeps the balance.** A piece: it is a piece of the chunk, whole, and the index file can
be opened. A file taken out: nothing of it counts. Loading: no download has a piece yet. A restart:
if nothing is loaded, no download had a piece. A data check: no download of a chunk that is not in
order has a piece. Kind: D -/
def Accounts (s : Accounted L) : Event L → Prop
  | .piece env _ p => ∀ i, s.down.addressee p = some i →
      WellFormed (sizeOf i) p ∧ env.file.index_opens = true
  | .setDoNotDownload _ k dnd => Downloader.TakesOut s.down k dnd → ¬ s.down.Loses k
  | .loadDownloads _ _ _ => ∀ i, partialBytes (sizeOf i) (s.down.current_chunks i) = 0
  | .restart env saves _ _ file =>
      (s.down.stop env saves).cman.completed = true ∨ file = none →
        ∀ i, partialBytes (sizeOf i) (s.down.current_chunks i) = 0
  | .dataChecked _ ok_chunks => ∀ i : Fin L.numChunks, ok_chunks.get i = false →
      partialBytes (sizeOf i) (s.down.current_chunks i) = 0
  | _ => True

/-- A torrent is stopped and started again. Source: `torrent/downloader.cpp`,
`torrent/torrentcontrol.cpp`. Kind: L -/
theorem Balanced.restart (h : s.Balanced) (hp : L.piece_length < 2 ^ 32) (env : Env) (saves : Bool)
    (env' : Env) (old : ℕ → Mem) (file : Option (List UInt8))
    (hok : (s.down.stop env saves).cman.completed = true ∨ file = none →
      ∀ i, partialBytes (sizeOf i) (s.down.current_chunks i) = 0) :
    (loadDownloads env' old file { s with down := s.down.stop env saves }).Balanced := by
  obtain ⟨hstop, hdown⟩ := h.entries.stop env saves
  refine balanced_loadDownloads (s := { s with down := s.down.stop env saves }) hstop hp
    (fun i => ?_) h.uncut env' old file fun hkept => ?_
  · show partialBytes _ ((s.down.stop env saves).current_chunks i) = 0
    rw [(hdown i).1]
    rfl
  · refine h.credit.trans (Downloader.credit_congr fun i => ?_).symm
    unfold worth
    rw [(hdown i).1, (hdown i).2, hok hkept i]
    rfl

/-- The data has been checked. Source: `TorrentControl::afterDataCheck`. Kind: L -/
theorem Balanced.dataChecked (h : s.Balanced) (hp : L.piece_length < 2 ^ 32) (env : Env)
    (ok_chunks : BitSet L.numChunks) (hok : ∀ i : Fin L.numChunks, ok_chunks.get i = false →
      partialBytes (sizeOf i) (s.down.current_chunks i) = 0) :
    (s.dataChecked env ok_chunks).Balanced := by
  refine balanced_recalcDownloaded (h.entries.dataChecked env ok_chunks) hp (fun i => ?_) h.uncut
  show partialBytes _ ((s.down.dataChecked ok_chunks).current_chunks i) = 0
  rw [(Downloader.dataChecked_spec ok_chunks s.down).2 i]
  split_ifs with hi
  · rfl
  · exact hok i (by simpa using hi)

/-- What leaves the counter alone. Source: `torrent/downloader.cpp`, `torrent/torrentcontrol.cpp`.
Kind: L -/
theorem Balanced.same (h : s.Balanced) {d : Downloader L}
    (hd : d.Entries ∧ d.credit = s.down.credit) : Balanced { s with down := d } :=
  ⟨hd.1, h.credit.trans hd.2.symm, h.uncut⟩

/-- **Each event keeps the balance under its condition.**. Source: `torrent/downloader.cpp`,
`torrent/torrentcontrol.cpp`. Kind: P -/
theorem balanced_step (hp : L.piece_length < 2 ^ 32) (s : Accounted L) (e : Event L)
    (h : s.Balanced) (hok : Accounts s e) : (s.step e).Balanced := by
  cases e with
  | piece env is_idle p => exact h.pieceRecieved hp env is_idle hok
  | idle os i => exact h.same (h.entries.idle os i)
  | assign os i => exact h.same (h.entries.assign os i)
  | downloadFrom env hasChunk => exact h.same (h.entries.downloadFrom env hasChunk)
  | setDoNotDownload env k dnd => exact h.same (h.entries.setDoNotDownload env k dnd hok)
  | loadDownloads env old file =>
    exact balanced_loadDownloads h.entries hp hok h.uncut env old file fun _ => h.credit
  | restart env saves env' old file => exact h.restart hp env saves env' old file hok
  | dataChecked env ok_chunks => exact h.dataChecked hp env ok_chunks hok

/-- **The counter is right**: it is the torrent's length without the chunks that are not owned, with
the pieces of the downloads in progress; it does not exceed the length, and was never cut off.
Kind: D -/
structure Accurate (s : Accounted L) : Prop where
  uncut : s.cut = false
  bytesLeft_le : s.down.cman.bytesLeft ≤ L.file_length
  downloaded_le : s.downloaded ≤ L.file_length
  downloaded : s.downloaded = L.file_length - s.down.cman.bytesLeft +
    ∑ i, partialBytes (sizeOf i) (s.down.current_chunks i)

/-- A counter in balance is right. Source: `torrent/downloader.cpp`, `torrent/torrentcontrol.cpp`.
Kind: L -/
theorem Balanced.accurate (h : s.Balanced) (hp : L.piece_length < 2 ^ 32) : s.Accurate := by
  obtain ⟨hleft, hcredit⟩ := h.entries.credit_eq hp
  exact ⟨h.uncut, hleft, h.credit.trans_le (h.entries.credit_le hp), h.credit.trans hcredit⟩

/-- **The counter is right in every state** of a run whose events all meet their condition.
Source: `torrent/downloader.cpp`, `torrent/torrentcontrol.cpp`. Kind: P -/
theorem balanced_run (L : Layout) (hp : L.piece_length < 2 ^ 32) (env₀ env : Env)
    (files : ℕ → FileSelection) (saved : Saved) (shuffle : List ℕ → List ℕ)
    (events : List (Event L))
    (hok : Meets step Accounts (start L env₀ env files saved shuffle) events) :
    ∀ q, q <+: events → Accurate (run step (start L env₀ env files saved shuffle) q) := by
  intro q hq
  have hbal : (run step (start L env₀ env files saved shuffle) q).Balanced :=
    hok.invariant_at (balanced_step hp) (balanced_start hp env₀ env files saved shuffle) hq
  exact hbal.accurate hp

/-- A peer is asked for the clip's chunk, and sends it. Kind: D -/
def receiveClip : List (Event Downloader.clipLayout) :=
  [.downloadFrom {} fun _ => true, .piece {} true ⟨0, 0, 7, List.replicate 16 1⟩]

/-- The sample's counter is right. Source: `torrent/downloader.cpp`, `torrent/torrentcontrol.cpp`.
Kind: L -/
theorem balanced_receiveClip :
    Accurate (run step (start Downloader.clipLayout {} {} (fun _ => {})
      ⟨⟨fun _ => 0, 0⟩, [], none, none⟩ id) receiveClip) :=
  balanced_run Downloader.clipLayout (by decide) {} {} (fun _ => {})
    ⟨⟨fun _ => 0, 0⟩, [], none, none⟩ id receiveClip
    ⟨trivial, fun i _ => ⟨by revert i; decide, rfl⟩, trivial⟩ receiveClip List.prefix_rfl

end Accounted

end KTorrent.Transfer
