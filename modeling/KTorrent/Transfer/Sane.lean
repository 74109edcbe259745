import KTorrent.Storage.Ownership
import KTorrent.Transfer.Downloader

/-!
# The invariant of the downloader

Whether a chunk can be downloaded is kept in four places: its status, its have-bit, its bit in `todo`
and the selector's list.

* `View` — what is kept of one chunk: whether it has a download, whether the selector lists it, and
  its cell in the chunk manager.
* `View.Kept` — what holds of a chunk whatever happens, and `View.Found` — what may be lost: without a
  download, a chunk has data exactly when it is owned, and is listed when it is to do.
* `View.Turns` — how a chunk goes from one view to the next, with the exact condition for it to stay
  found; the `View.turns_*` lemmas are the changes there are.
* `Sound` — what they make of all chunks together, and `turns_pieceRecieved`, `turns_downloadFrom`,
  `turns_resetChunk`, `turns_saveChunk` — the operations, chunk by chunk.

Source: `torrent/downloader.cpp`, `torrent/chunkdownload.cpp`
-/

namespace KTorrent.Transfer

open KTorrent.Lib KTorrent.Util KTorrent.Storage ChunkManager

/-! ### One chunk -/

/-- What the downloader, the selector and the chunk manager keep of a chunk. Kind: D -/
structure View where
  downloading : Prop
  listed : Prop
  cell : Cell

/-- Cells that differ in what the data is and who holds it, and in nothing else. Kind: D -/
structure Alike (c c' : Cell) : Prop where
  data : c'.chunk.data.isNull = c.chunk.data.isNull
  status : c'.chunk.status = c.chunk.status
  priority : c'.chunk.priority = c.chunk.priority
  owned : c'.owned = c.owned
  todo : c'.todo = c.todo

namespace View

/-- **What holds of a chunk whatever happens.** Kind: D -/
structure Kept (v : View) : Prop where
  /-- Only a chunk in memory has a data pointer. -/
  memory : v.cell.chunk.data.isNull = false → v.cell.inMemory = true
  /-- What is owned is not to do. -/
  todo : v.cell.owned = true → v.cell.todo = false
  /-- What is being downloaded is not excluded. -/
  wanted : v.downloading → v.cell.chunk.priority ≠ .excluded

/-- **What may be lost**: without a download, a chunk has data exactly when it is owned, and is listed
when it is to do. Kind: D -/
def Found (v : View) : Prop :=
  ¬ v.downloading → v.cell.Matched ∧ (v.cell.todo = true → v.listed)

/-- The chunk goes from `v` to `v'`, and if it was found it stays so exactly when `ok` holds.
Kind: D -/
def Turns (v v' : View) (ok : Prop) : Prop := v.Kept → v'.Kept ∧ (v.Found → (v'.Found ↔ ok))

variable {v v₁ v' : View} {ok : Prop}

/-- The same turn under an equivalent condition. Source: none: infrastructure. Kind: L -/
theorem Turns.congr (h : Turns v v' ok) {ok' : Prop} (hok : ok ↔ ok') : Turns v v' ok' :=
  fun hk => ⟨(h hk).1, fun hf => ((h hk).2 hf).trans hok⟩

/-- A chunk that is being downloaded has nothing to lose. Source: `torrent/downloader.cpp`,
`torrent/chunkdownload.cpp`. Kind: L -/
theorem turns_held (hd : v'.downloading) (hk : v.Kept → v'.Kept) : Turns v v' True :=
  fun h => ⟨hk h, fun _ => ⟨fun _ => trivial, fun _ hn => absurd hd hn⟩⟩

/-- What happens during a download counts only for what it leaves. Source: `torrent/downloader.cpp`,
`torrent/chunkdownload.cpp`. Kind: L -/
theorem Turns.after_held (hk : v.Kept → v₁.Kept) (hd : v₁.downloading) (h : Turns v₁ v' ok) :
    Turns v v' ok :=
  fun h' => ⟨(h (hk h')).1, fun _ => (h (hk h')).2 fun hn => absurd hd hn⟩

/-- A change that loses nothing comes first. Source: none: infrastructure. Kind: L -/
theorem Turns.trans (h : Turns v v₁ True) (h' : Turns v₁ v' ok) : Turns v v' ok :=
  fun hk => ⟨(h' (h hk).1).1, fun hf => (h' (h hk).1).2 (((h hk).2 hf).mpr trivial)⟩

/-- A cell that is alike is as well kept. Source: `torrent/downloader.cpp`,
`torrent/chunkdownload.cpp`. Kind: L -/
theorem Kept.alike (h : v.Kept) (ha : Alike v.cell v'.cell) (hd : v'.downloading → v.downloading) :
    v'.Kept := by
  obtain ⟨h1, h2, h3, h4, h5⟩ := ha
  refine ⟨fun hn => ?_, fun ho => ?_, fun hn => ?_⟩
  · have h6 := h.memory (h1 ▸ hn)
    unfold Cell.inMemory at h6 ⊢
    rwa [h2]
  · rw [h5]
    exact h.todo (h4 ▸ ho)
  · rw [h3]
    exact h.wanted (hd hn)

/-- Operations that only move data and references around, and drop from the list owned chunks only.
Source: `torrent/downloader.cpp`, `torrent/chunkdownload.cpp`. Kind: L -/
theorem turns_alike (ha : Alike v.cell v'.cell) (hd : v'.downloading ↔ v.downloading)
    (hl : v.cell.owned = false → v.listed → v'.listed) : Turns v v' True := by
  intro hk
  refine ⟨hk.alike ha hd.mp, fun hf => iff_of_true (fun hn => ?_) trivial⟩
  obtain ⟨hm, ht⟩ := hf fun h => hn (hd.mpr h)
  refine ⟨?_, fun h => ?_⟩
  · unfold Cell.Matched at hm ⊢
    rw [ha.status, ha.owned]
    exact hm
  · rw [ha.todo] at h
    refine hl ?_ (ht h)
    by_contra ho
    exact absurd ((hk.todo (by simpa using ho)).symm.trans h) (by decide)

/-- What moves data and references around afterwards makes no difference.
Source: `torrent/downloader.cpp`, `torrent/chunkdownload.cpp`. Kind: L -/
theorem Turns.alike_right (h : Turns v v₁ ok) (ha : Alike v₁.cell v'.cell)
    (hd : v'.downloading ↔ v₁.downloading) (hl : v'.listed ↔ v₁.listed) : Turns v v' ok := by
  intro hk
  obtain ⟨h1, h2⟩ := h hk
  refine ⟨h1.alike ha hd.mp, fun hf => Iff.trans ?_ (h2 hf)⟩
  unfold Found Cell.Matched
  rw [ha.status, ha.owned, ha.todo, hd, hl]

/-- A chunk is reset. Source: `torrent/downloader.cpp`, `torrent/chunkdownload.cpp`. Kind: L -/
theorem Kept.reset (h : v.Kept) (hc : v'.cell = v.cell.reset)
    (hd : v'.downloading → v.downloading) : v'.Kept := by
  refine ⟨fun hn => ?_, fun ho => ?_, fun hn => ?_⟩
  · rw [hc] at hn
    exact absurd hn (by simp [Cell.reset, Chunk.clear, Data.isNull])
  · rw [hc] at ho
    exact absurd ho (by simp [Cell.reset])
  · rw [hc]
    exact h.wanted (hd hn)

/-- A chunk that is reset has no data and is not owned: it must be listed, unless it is excluded or
only seeded. Source: `torrent/downloader.cpp`, `torrent/chunkdownload.cpp`. Kind: L -/
theorem turns_reset (hc : v'.cell = v.cell.reset) (hd : v'.downloading ↔ v.downloading) :
    Turns v v' (¬ v.downloading → v.cell.excluded = false → v.cell.onlySeed = false →
      v'.listed) := by
  have ht : v'.cell.todo = true ↔ v.cell.excluded = false ∧ v.cell.onlySeed = false := by
    rw [hc]
    simp [Cell.reset]
  refine fun hk => ⟨hk.reset hc hd.mp, fun _ => imp_congr_ctx (not_congr hd) fun hn => ?_⟩
  rw [ht, and_imp]
  refine and_iff_right ?_
  rw [hc]
  exact Cell.matched_reset _

/-- A chunk that has lost its download, its data and its bits can lose nothing more.
Source: `torrent/downloader.cpp`, `torrent/chunkdownload.cpp`. Kind: L -/
theorem turns_gone (hn : v'.cell.chunk.data.isNull = true)
    (hs : v'.cell.chunk.status = .notDownloaded) (ho : v'.cell.owned = false)
    (ht : v'.cell.todo = false) (hd : ¬ v'.downloading) : Turns v v' True := by
  refine fun _ => ⟨⟨fun h => absurd (hn.symm.trans h) (by decide), fun _ => ht,
    fun h => absurd h hd⟩, fun _ => iff_of_true (fun _ => ⟨?_, fun h => ?_⟩) trivial⟩
  · simp [Cell.Matched, hs, ho]
  · exact absurd (ht.symm.trans h) (by decide)

/-- An excluded chunk must have no data. Source: `torrent/downloader.cpp`,
`torrent/chunkdownload.cpp`. Kind: L -/
theorem turns_exclude (hc : v'.cell = v.cell.exclude) (hd : ¬ v'.downloading) :
    Turns v v' (v.cell.chunk.status = .notDownloaded) := by
  have ht : v'.cell.todo = false := by rw [hc]; rfl
  refine fun hk => ⟨⟨fun hn => ?_, fun _ => ht, fun h => absurd h hd⟩, fun _ => ?_⟩
  · rw [hc] at hn ⊢
    exact hk.memory hn
  · refine ⟨fun hf => ?_, fun hs _ => ⟨?_, fun h => absurd (ht.symm.trans h) (by decide)⟩⟩
    · have h1 := (hf hd).1
      rw [hc] at h1
      exact (Cell.matched_exclude_iff _).mp h1
    · rw [hc]
      exact (Cell.matched_exclude_iff _).mpr hs

/-- A chunk gets a new priority, and is to do if that makes it so and it is not owned: then it must
be listed. Source: `torrent/downloader.cpp`, `torrent/chunkdownload.cpp`. Kind: L -/
theorem turns_wanted {p : Priority} {b : Bool} (hp : p ≠ .excluded)
    (hc : v'.cell.chunk = { v.cell.chunk with priority := p }) (ho : v'.cell.owned = v.cell.owned)
    (ht : (v.cell.owned = true → v.cell.todo = false) → v'.cell.todo = (b && !v.cell.owned))
    (hd : v'.downloading ↔ v.downloading) :
    Turns v v' (¬ v.downloading → b = true → v.cell.owned = false → v'.listed) := by
  intro hk
  have ht' := ht hk.todo
  refine ⟨⟨fun hn => ?_, fun h => ?_, fun _ => ?_⟩, fun hf => ?_⟩
  · rw [hc] at hn
    have h1 := hk.memory hn
    unfold Cell.inMemory at h1 ⊢
    rwa [hc]
  · rw [ht', ← ho, h]
    simp
  · rw [hc]
    exact hp
  · have hm : ¬ v.downloading → v'.cell.Matched := by
      intro hn
      have h1 := (hf hn).1
      unfold Cell.Matched at h1 ⊢
      rw [hc, ho]
      exact h1
    unfold Found
    rw [hd, ht']
    refine ⟨fun h hn hb h1 => (h hn).2 (by simp [hb, h1]), fun h hn => ⟨hm hn, fun h1 => ?_⟩⟩
    simp only [Bool.and_eq_true, Bool.not_eq_true'] at h1
    exact h hn h1.1 h1.2

/-- A chunk that is owned is loaded from disk. Source: `SingleFileCache::load`. Kind: L -/
theorem turns_load {t : Torrent} {o : Os} {k : Cache} (hs : v.cell.chunk.status = .onDisk)
    (hc : v'.cell = v.cell.load t o k) (hd : v'.downloading ↔ v.downloading)
    (hl : v.listed → v'.listed) : Turns v v' True := by
  have hprio : v'.cell.chunk.priority = v.cell.chunk.priority := by
    rw [hc]
    exact Cache.load_chunk_priority _ _ _ _
  have htodo : v'.cell.todo = v.cell.todo := by rw [hc]; rfl
  have hown : v'.cell.owned = v.cell.owned := by rw [hc]; rfl
  refine fun hk => ⟨⟨fun hn => ?_, fun ho => ?_, fun h => ?_⟩, fun hf => iff_of_true (fun hn => ?_)
    trivial⟩
  · have hchunk : v'.cell.chunk = (k.load t o v.cell.chunk).1 := by rw [hc]; rfl
    unfold Cell.inMemory
    rcases k.load_chunk_cases t o v.cell.chunk with h1 | ⟨b, st, hst, h1⟩
    · rw [hchunk, h1] at hn ⊢
      exact hk.memory hn
    · rw [hchunk, h1]
      rcases hst with rfl | rfl <;> simp [Chunk.setData]
  · rw [htodo]
    exact hk.todo (hown ▸ ho)
  · rw [hprio]
    exact hk.wanted (hd.mp h)
  · obtain ⟨hm, ht⟩ := hf fun h => hn (hd.mpr h)
    refine ⟨?_, fun h => hl (ht (htodo ▸ h))⟩
    rw [hc]
    exact Cell.matched_load hm hs t o k

/-- A chunk that is not excluded is prepared. Source: `SingleFileCache::prep`. Kind: L -/
theorem Kept.prep (h : v.Kept) {t : Torrent} {o : Os} {k : Cache} (hc : v'.cell = v.cell.prep t o k)
    (hw : v.cell.chunk.priority ≠ .excluded) : v'.Kept := by
  obtain ⟨d, st, hst, hp⟩ := k.prep_chunk_cases t o v.cell.chunk
  have hchunk : v'.cell.chunk = v.cell.chunk.setData d st := by rw [hc]; exact hp
  refine ⟨fun _ => ?_, fun ho => ?_, fun _ => ?_⟩
  · unfold Cell.inMemory
    rw [hchunk]
    rcases hst with rfl | rfl <;> simp [Chunk.setData]
  · rw [hc] at ho ⊢
    exact h.todo ho
  · rw [hchunk]
    exact hw

/-- A chunk is saved. Source: `SingleFileCache::save`. Kind: L -/
theorem Kept.save (h : v.Kept) {t : Torrent} {o : Os} {k : Cache} {u : Bool}
    (hc : v'.cell = v.cell.save t o k u) (hd : v'.downloading → v.downloading) :
    v'.Kept := by
  by_cases hx : v.cell.chunk.isExcluded = true
  · have he : v'.cell = { v.cell with
        chunk := { v.cell.chunk.clear with status := .notDownloaded } } := hc.trans (if_pos hx)
    refine ⟨fun hn => ?_, fun ho => ?_, fun hn => ?_⟩
    · rw [he] at hn
      exact absurd hn (by simp [Chunk.clear, Data.isNull])
    · rw [he] at ho ⊢
      exact h.todo ho
    · rw [he]
      exact h.wanted (hd hn)
  · obtain ⟨e1, -, e3, e4⟩ := Cell.save_wanted (Bool.eq_false_iff.mpr hx) t o k u
    rw [← hc] at e1 e3 e4
    refine ⟨fun hn => ?_, fun ho => ?_, fun hn => ?_⟩
    · unfold Cell.inMemory
      rw [e1] at hn ⊢
      rcases k.save_chunk_cases t o v.cell.chunk with h1 | h1 <;> rw [h1] at hn ⊢
      · exact h.memory hn
      · exact absurd hn (by simp [Chunk.clear, Data.isNull])
    · rw [e3] at ho
      rw [e4]
      cases hb : (k.save t o v.cell.chunk).2.2 && u
      · rw [hb, Bool.or_false] at ho
        rw [h.todo ho]
        rfl
      · exact Bool.and_false _
    · rw [e1, Cache.save_chunk_priority]
      exact h.wanted (hd hn)

/-- A chunk without a download is saved. Source: `SingleFileCache::save`. Kind: L -/
theorem turns_save {t : Torrent} {o : Os} {k : Cache} {u : Bool}
    (hc : v'.cell = v.cell.save t o k u) (hd : v'.downloading ↔ v.downloading)
    (hl : v.listed → v'.listed) :
    Turns v v' (¬ v.downloading → v.cell.SavesMatched t o u) := by
  refine fun hk => ⟨hk.save hc hd.mp, fun hf => imp_congr_ctx (not_congr hd) fun hn => ?_⟩
  obtain ⟨hm, ht⟩ := hf hn
  have hm' := Cell.matched_save_iff hm t o k u
  rw [← hc] at hm'
  rw [hm']
  refine and_iff_left fun h => hl (ht ?_)
  by_cases hx : v.cell.chunk.isExcluded = true
  · have he : v'.cell = { v.cell with
        chunk := { v.cell.chunk.clear with status := .notDownloaded } } := hc.trans (if_pos hx)
    rw [he] at h
    exact h
  · have h4 := (Cell.save_wanted (Bool.eq_false_iff.mpr hx) t o k u).2.2.2
    rw [← hc, h, eq_comm, Bool.and_eq_true] at h4
    exact h4.1

/-- A chunk in memory that is complete is saved: when its buffer cannot be written, it stays in
memory without being owned, unless it was. Source: `torrent/downloader.cpp`,
`torrent/chunkdownload.cpp`. Kind: L -/
theorem turns_saveVerified {t : Torrent} {o : Os} {k : Cache}
    (hmem : v.cell.inMemory = true) (hw : v.downloading) (hc : v'.cell = v.cell.save t o k true)
    (hd : ¬ v'.downloading) :
    Turns v v' (v.cell.chunk.status = .buffered → v.cell.owned = false → o.writes = true) := by
  intro hk
  refine ⟨hk.save hc fun h => absurd h hd, fun _ => ?_⟩
  obtain ⟨e1, -, e3, e4⟩ :=
    Cell.save_wanted (c := v.cell) (by simpa [Chunk.isExcluded] using hk.wanted hw) t o k true
  rw [← hc] at e1 e3 e4
  rw [Bool.and_true] at e3 e4
  have hmem' : v.cell.chunk.status = .mmapped ∨ v.cell.chunk.status = .buffered := by
    simpa [Cell.inMemory] using hmem
  have hin : v'.cell.chunk.status ≠ .notDownloaded := by
    rw [e1]
    rcases k.save_chunk_cases t o v.cell.chunk with h1 | h1 <;> rw [h1]
    · rcases hmem' with h2 | h2 <;> rw [h2] <;> decide
    · simp
  -- saving fails only for a buffer that cannot be written
  have hok : (k.save t o v.cell.chunk).2.2 = true ↔
      (v.cell.chunk.status = .buffered → o.writes = true) := by
    unfold Cache.save MultiFileCache.save SingleFileCache.save
    rcases hmem' with h2 | h2 <;> rw [h2]
    · split_ifs <;> simp
    · cases hw' : o.writes <;> split_ifs <;> simp_all
  unfold Found Cell.Matched
  simp only [hd, not_false_eq_true, forall_const, ne_eq, hin, true_iff]
  rw [e3, e4]
  cases ho : v.cell.owned
  · cases hsave : (k.save t o v.cell.chunk).2.2
    · simp only [hsave, Bool.false_eq_true, false_iff] at hok
      simpa using hok
    · simpa [hsave] using hok.mp hsave
  · have ht := hk.todo ho
    simp [ht]

end View

/-! ### All chunks -/

namespace Downloader

variable {L : Layout}

/-- What is kept of chunk `i`. Kind: D -/
def view (d : Downloader L) (i : Fin L.numChunks) : View where
  downloading := (d.current_chunks i).isSome = true
  listed := i.val ∈ d.selector
  cell := d.cman.cell i

/-- **Nothing is lost**: without a download, having data and being owned are the same, and a chunk
still to do can be selected and prepared. Kind: D -/
def Sound (d : Downloader L) : Prop := ∀ i : Fin L.numChunks, d.current_chunks i = none →
  (d.cman.bitset.get i = true ↔ (d.cman.chunks i).status ≠ .notDownloaded) ∧
  (d.cman.todo.get i = true →
    i.val ∈ d.selector ∧ ∀ os, (d.cman.prepareChunk os i false).2 = true)

/-- A chunk that is prepared for a new download has no data, and one without data can be.
Source: `ChunkManager::prepareChunk`. Kind: L -/
theorem prepareChunk_accepts_iff (s : ChunkManager L) (os : Os) (i : Fin L.numChunks) :
    (s.prepareChunk os i false).2 = true ↔ (s.chunks i).status = .notDownloaded := by
  unfold ChunkManager.prepareChunk
  rw [dif_pos i.2]
  by_cases hs : (s.chunks i).status = .notDownloaded
  · rw [if_neg (by simp [hs])]
    simp [hs]
  · rw [if_pos (by simp [hs])]
    simp [hs]

/-- **A state is sound exactly when every chunk is found.**. Source: `torrent/downloader.cpp`,
`torrent/chunkdownload.cpp`. Kind: P -/
theorem sound_iff_found {d : Downloader L} (hk : ∀ i, (d.view i).Kept) :
    Sound d ↔ ∀ i, (d.view i).Found := by
  refine forall_congr' fun i => ?_
  have hn : d.current_chunks i = none ↔ ¬ (d.view i).downloading := by
    simp [view, Option.isSome_iff_ne_none]
  refine imp_congr_ctx hn fun _ => ?_
  have hm : (d.cman.bitset.get i = true ↔ (d.cman.chunks i).status ≠ .notDownloaded) ↔
      (d.view i).cell.Matched := Iff.intro Iff.symm Iff.symm
  rw [hm]
  refine and_congr_right fun hmat => forall_congr' fun ht => ?_
  -- what is to do is not owned, and then it has no data
  have ho : ¬ (d.cman.bitset.get i = true) := fun h =>
    absurd ((hk i).todo h |>.symm.trans ht) (by decide)
  have hs : (d.cman.chunks i).status = .notDownloaded := by
    by_contra hs
    exact ho ((show (d.cman.chunks i).status ≠ .notDownloaded ↔ d.cman.bitset.get i = true from
      hmat).mp hs)
  exact and_iff_left fun os => (prepareChunk_accepts_iff d.cman os i).mpr hs

section steps

variable {d : Downloader L}

/-- Only chunk `i` and its download change, and nothing leaves the list. Kind: D -/
structure Apart (i : Fin L.numChunks) (d d' : Downloader L) : Prop where
  cell : ∀ j, j ≠ i → d'.cman.cell j = d.cman.cell j
  current : ∀ j, j ≠ i → d'.current_chunks j = d.current_chunks j
  selector : ∀ j ∈ d.selector, j ∈ d'.selector

/-- Nothing happens elsewhere. Source: none: infrastructure. Kind: L -/
theorem Apart.refl (i : Fin L.numChunks) (d : Downloader L) : Apart i d d :=
  ⟨fun _ _ => rfl, fun _ _ => rfl, fun _ h => h⟩

/-- What leaves the others alone twice leaves them alone. Source: none: infrastructure. Kind: L -/
theorem Apart.trans {i : Fin L.numChunks} {d₁ d' : Downloader L} (h : Apart i d d₁)
    (h' : Apart i d₁ d') : Apart i d d' :=
  ⟨fun j hj => (h'.cell j hj).trans (h.cell j hj),
    fun j hj => (h'.current j hj).trans (h.current j hj),
    fun j hj => h'.selector j (h.selector j hj)⟩

/-- The other chunks are left alone. Source: `torrent/downloader.cpp`, `torrent/chunkdownload.cpp`.
Kind: L -/
theorem Apart.turns {i : Fin L.numChunks} {d' : Downloader L} {ok : Prop} (h : Apart i d d')
    (hi : View.Turns (d.view i) (d'.view i) ok) (j : Fin L.numChunks) :
    View.Turns (d.view j) (d'.view j) (j = i → ok) := by
  by_cases hj : j = i
  · subst hj
    exact hi.congr ⟨fun h _ => h, fun h => h rfl⟩
  · have hc : (d'.view j).cell = (d.view j).cell := h.cell j hj
    have hd : (d'.view j).downloading ↔ (d.view j).downloading := by
      show (d'.current_chunks j).isSome = true ↔ _
      rw [h.current j hj]
      rfl
    refine (View.turns_alike ?_ hd fun _ => h.selector j).congr ⟨fun _ h => absurd h hj,
      fun _ => trivial⟩
    rw [hc]
    exact ⟨rfl, rfl, rfl, rfl, rfl⟩

/-- What the selector's list holds after a chunk is put back. Source: `ChunkSelector::reinsert`.
Kind: L -/
theorem mem_reinsert {i j : ℕ} {chunks : List ℕ} :
    j ∈ ChunkSelector.reinsert i chunks ↔ j ∈ chunks ∨ j = i := by
  unfold ChunkSelector.reinsert
  split_ifs with hi
  · exact ⟨Or.inl, fun h => h.elim id fun h' => h' ▸ hi⟩
  · simp

/-! ### Pieces -/

/-- Preparing again keeps the downloads. Source: `Downloader::pieceRecieved`, `findDownloadForPD`.
Kind: L -/
@[simp] theorem current_chunks_reload (os : Os) (i : Fin L.numChunks) :
    (d.reload os i).current_chunks = d.current_chunks := by
  unfold Downloader.reload
  split_ifs <;> rfl

/-- A piece changes its own download. Source: `Downloader::pieceRecieved`. Kind: L -/
theorem current_chunks_keepArrival (i : Fin L.numChunks) (a : ChunkDownload.Arrival (sizeOf i)) :
    (d.keepArrival i a).current_chunks i = some a.cd :=
  Function.update_self _ _ _

/-- Preparing a chunk again touches no other. Source: `Downloader::pieceRecieved`,
`findDownloadForPD`. Kind: L -/
theorem apart_reload (os : Os) (i : Fin L.numChunks) : Apart i d (d.reload os i) := by
  unfold Downloader.reload
  split_ifs
  · refine ⟨fun j hj => ?_, fun _ _ => rfl, fun _ h => h⟩
    rw [cell_prepareChunk, if_neg fun hji => hj (Fin.ext hji.1)]
  · exact .refl i d

/-- Preparing a chunk again keeps its view, while there is a download.
Source: `Downloader::pieceRecieved`, `findDownloadForPD`. Kind: L -/
theorem kept_reload (os : Os) {i : Fin L.numChunks} (hd : (d.view i).downloading)
    (h : (d.view i).Kept) : ((d.reload os i).view i).Kept := by
  unfold Downloader.reload
  split_ifs
  · refine h.prep (t := L.torrent) (o := os) (k := d.cman.cache) ?_ (h.wanted hd)
    show (d.cman.prepareChunk os i true).1.cell i = _
    rw [cell_prepareChunk, if_pos ⟨rfl, Or.inl rfl⟩]
    rfl
  · exact h

/-- Saving a chunk touches no other. Source: `ChunkManager::saveChunk`. Kind: L -/
theorem apart_saveChunk (os : Os) (i : Fin L.numChunks) (update_index : Bool) :
    Apart i d { d with cman := (d.cman.saveChunk os i update_index).1 } := by
  refine ⟨fun j hj => ?_, fun _ _ => rfl, fun _ h => h⟩
  rw [cell_saveChunk, if_neg fun hji => hj (Fin.ext hji)]

/-- Saving an idle chunk touches no other. Source: `Downloader::pieceRecieved`, `normalUpdate`.
Kind: L -/
theorem apart_saveIdle (os : Os) (i : Fin L.numChunks) : Apart i d (d.saveIdle os i) := by
  unfold Downloader.saveIdle
  split_ifs
  · exact apart_saveChunk os i false
  · exact .refl i d

/-- Saving an idle chunk keeps its view. Source: `Downloader::pieceRecieved`, `normalUpdate`.
Kind: L -/
theorem kept_saveIdle (os : Os) {i : Fin L.numChunks} (h : (d.view i).Kept) :
    ((d.saveIdle os i).view i).Kept := by
  unfold Downloader.saveIdle
  split_ifs
  · refine h.save (t := L.torrent) (o := os) (k := d.cman.cache) (u := false) ?_ id
    show (d.cman.saveChunk os i false).1.cell i = _
    rw [cell_saveChunk, if_pos rfl]
    rfl
  · exact h

/-- A piece touches no other chunk. Source: `Downloader::pieceRecieved`. Kind: L -/
theorem apart_keepArrival (i : Fin L.numChunks) (a : ChunkDownload.Arrival (sizeOf i)) :
    Apart i d (d.keepArrival i a) := by
  refine ⟨fun j hj => ?_, fun j hj => Function.update_of_ne hj _ _, fun _ h => h⟩
  unfold Downloader.keepArrival
  rcases a.copied with _ | ⟨off, bs⟩
  · rfl
  show (copyInto i off bs d.cman).cell j = _
  unfold copyInto
  split
  · rfl
  · rw [cell_updateChunk d.cman j i, if_neg hj]
  · rfl

/-- What is copied into a chunk's memory changes its data only. Source: `Downloader::pieceRecieved`.
Kind: L -/
theorem alike_keepArrival (i : Fin L.numChunks) (a : ChunkDownload.Arrival (sizeOf i)) :
    Alike (d.cman.cell i) ((d.keepArrival i a).cman.cell i) := by
  unfold Downloader.keepArrival
  rcases a.copied with _ | ⟨off, bs⟩
  · exact ⟨rfl, rfl, rfl, rfl, rfl⟩
  show Alike _ ((copyInto i off bs d.cman).cell i)
  unfold copyInto
  split
  · exact ⟨rfl, rfl, rfl, rfl, rfl⟩
  · rename_i m hm
    rw [cell_updateChunk d.cman i i, if_pos rfl]
    exact ⟨by rw [cell_chunk, hm]; rfl, rfl, rfl, rfl, rfl⟩
  · exact ⟨rfl, rfl, rfl, rfl, rfl⟩

/-- A download ends, and the chunk is what the operation before has left.
Source: `torrent/downloader.cpp`, `torrent/chunkdownload.cpp`. Kind: L -/
theorem apart_erase (i : Fin L.numChunks) : Apart i d (d.erase i) := by
  unfold Downloader.erase
  split
  · exact .refl i d
  · refine ⟨fun j hj => ?_, fun j hj => Function.update_of_ne hj _ _, fun _ h => h⟩
    rw [cell_modifyChunk, if_neg fun hji => hj (Fin.ext hji)]

/-- A download ends; the cell is alike. Source: `torrent/downloader.cpp`,
`torrent/chunkdownload.cpp`. Kind: L -/
theorem view_erase {i : Fin L.numChunks} (hd : (d.view i).downloading) :
    ¬ ((d.erase i).view i).downloading ∧ (((d.erase i).view i).listed ↔ (d.view i).listed) ∧
      Alike (d.view i).cell ((d.erase i).view i).cell := by
  obtain ⟨cd, hcd⟩ := Option.isSome_iff_exists.mp hd
  have he : d.erase i = { d with
      cman := d.cman.modifyChunk i fun c => { c with ref_count := c.ref_count - 1 }
      current_chunks := Function.update d.current_chunks i none } := by
    unfold Downloader.erase
    rw [hcd]
  rw [he]
  refine ⟨by simp [view], Iff.rfl, ?_⟩
  show Alike (d.cman.cell i) ((d.cman.modifyChunk i _).cell i)
  rw [cell_modifyChunk, if_pos rfl]
  exact ⟨rfl, rfl, rfl, rfl, rfl⟩

/-- Whether the data of a chunk that is complete is right. Source: `Downloader::finished`. Kind: D -/
def verifies (i : Fin L.numChunks) (cd : ChunkDownload (sizeOf i)) (d : Downloader L) : Bool :=
  L.torrent.verifyHash (if cd.usingContinuousHashing then cd.getHash
    else generate ((d.cman.cache.bytes L.torrent (d.cman.chunks i)).getD [])) i

/-- **A chunk is complete**: wrong data is reset and the chunk listed again, and right data is
saved. Source: `Downloader::finished`. Kind: L -/
theorem turns_finished {i : Fin L.numChunks} (hd : (d.view i).downloading)
    (hmem : (d.view i).cell.inMemory = true) (os : Os) (cd : ChunkDownload (sizeOf i)) :
    Apart i d ((d.finished os i cd).1.erase i) ∧
      View.Turns (d.view i) (((d.finished os i cd).1.erase i).view i)
        (d.verifies i cd = true → (d.cman.chunks i).status = .buffered →
          d.cman.bitset.get i = false → os.writes = true) := by
  cases hv : d.verifies i cd
  · -- the data is wrong: the chunk is reset, and put back into the selector's list
    have hfin : (d.finished os i cd).1 = { d with
        cman := d.cman.resetChunk os i
        selector := ChunkSelector.reinsert i d.selector } := by
      unfold Downloader.finished
      rw [if_neg (by simpa [verifies] using hv)]
    have h1 : Apart i d (d.finished os i cd).1 := by
      rw [hfin]
      refine ⟨fun j hj => ?_, fun _ _ => rfl, fun j hj => mem_reinsert.mpr (Or.inl hj)⟩
      rw [cell_resetChunk, if_neg fun hji => hj (Fin.ext hji)]
    have hd' : ((d.finished os i cd).1.view i).downloading := by
      rw [hfin]
      exact hd
    obtain ⟨e1, e2, e3⟩ := view_erase hd'
    refine ⟨h1.trans (apart_erase i), ?_⟩
    have hcell : ((d.finished os i cd).1.view i).cell = (d.view i).cell.reset := by
      rw [hfin]
      show (d.cman.resetChunk os i).cell i = _
      rw [cell_resetChunk, if_pos rfl]
      rfl
    have hlisted : ((d.finished os i cd).1.view i).listed := by
      rw [hfin]
      exact mem_reinsert.mpr (Or.inr rfl)
    obtain ⟨v, hv'⟩ : ∃ v : View, v =
        ⟨False, ((d.finished os i cd).1.view i).listed, (d.view i).cell.reset⟩ := ⟨_, rfl⟩
    have hturn : View.Turns (d.view i) v True := by
      refine fun hk => ⟨hk.reset (by rw [hv']) (by rw [hv']; exact False.elim), fun _ =>
        iff_of_true (fun _ => ⟨?_, fun _ => ?_⟩) trivial⟩
      · rw [hv']
        exact Cell.matched_reset _
      · rw [hv']
        exact hlisted
    refine (hturn.alike_right ?_ ?_ ?_).congr ?_
    · rw [hv', ← hcell]
      exact e3
    · rw [hv']
      exact iff_false_intro e1
    · rw [hv']
      exact e2
    · simp
  · have hfin : (d.finished os i cd).1.cman = (d.cman.saveChunk os i true).1 ∧
        (d.finished os i cd).1.current_chunks = d.current_chunks ∧
        (d.finished os i cd).1.selector = d.selector := by
      unfold Downloader.finished
      rw [if_pos (by simpa [verifies] using hv)]
      dsimp only
      split_ifs <;> exact ⟨rfl, rfl, rfl⟩
    obtain ⟨f1, f2, f3⟩ := hfin
    have h1 : Apart i d (d.finished os i cd).1 := by
      refine ⟨fun j hj => ?_, fun j _ => congrFun f2 j, fun j hj => f3 ▸ hj⟩
      rw [f1, cell_saveChunk, if_neg fun hji => hj (Fin.ext hji)]
    have hd' : ((d.finished os i cd).1.view i).downloading := by
      show ((d.finished os i cd).1.current_chunks i).isSome = true
      rw [f2]
      exact hd
    obtain ⟨e1, e2, e3⟩ := view_erase hd'
    refine ⟨h1.trans (apart_erase i), ?_⟩
    have hcell : ((d.finished os i cd).1.view i).cell =
        (d.view i).cell.save L.torrent os d.cman.cache true := by
      show (d.finished os i cd).1.cman.cell i = _
      rw [f1, cell_saveChunk, if_pos rfl]
      rfl
    obtain ⟨v, hv'⟩ : ∃ v : View, v = ⟨False, ((d.finished os i cd).1.view i).listed,
        (d.view i).cell.save L.torrent os d.cman.cache true⟩ := ⟨_, rfl⟩
    have hturn := View.turns_saveVerified (v := d.view i) (t := L.torrent) (o := os)
      (k := d.cman.cache) hmem hd (show v.cell = _ by rw [hv']) (by rw [hv']; exact id)
    refine (hturn.alike_right ?_ ?_ ?_).congr ?_
    · rw [hv', ← hcell]
      exact e3
    · rw [hv']
      exact iff_false_intro e1
    · rw [hv']
      exact e2
    · exact ⟨fun h _ => h, fun h => h rfl⟩

/-- The piece completes chunk `i`, with the right data. Kind: D -/
def Completes (d : Downloader L) (env : Env) (p : Piece) (i : Fin L.numChunks) : Prop :=
  d.addressee p = some i ∧ ∃ cd, d.current_chunks i = some cd ∧
    let d₁ := d.reload (env.chunk i) i
    let a := d₁.arrival i cd p
    a.complete = true ∧ (d₁.keepArrival i a).verifies i a.cd = true

/-- A chunk that a piece completes is in memory. Source: `torrent/downloader.cpp`,
`torrent/chunkdownload.cpp`. Kind: L -/
theorem inMemory_of_complete {i : Fin L.numChunks} (h : (d.view i).Kept)
    {cd : ChunkDownload (sizeOf i)} {p : Piece} (hc : (d.arrival i cd p).complete = true) :
    (d.view i).cell.inMemory = true := by
  refine h.memory ?_
  show (d.cman.chunks i).data.isNull = false
  unfold Downloader.arrival ChunkDownload.piece at hc
  cases hdata : (d.cman.chunks i).data with
  | null =>
    simp only [memory, hdata] at hc
    split_ifs at hc
  | heap m => rfl
  | mapped => rfl

/-- **A piece arrives**: only what it completes can get lost. Source: `Downloader::pieceRecieved`.
Kind: P -/
theorem turns_pieceRecieved (hk : ∀ i, (d.view i).Kept) (env : Env) (is_idle : Bool) (p : Piece)
    (j : Fin L.numChunks) :
    View.Turns (d.view j) ((d.pieceRecieved env is_idle p).view j)
      (d.Completes env p j →
        ((d.reload (env.chunk j) j).cman.chunks j).status = .buffered →
        d.cman.bitset.get j = false → env.file.writes = true) := by
  have hsame : (∀ i, d.Completes env p i → False) → ∀ i, View.Turns (d.view i) (d.view i)
      (d.Completes env p i → ((d.reload (env.chunk i) i).cman.chunks i).status = .buffered →
        d.cman.bitset.get i = false → env.file.writes = true) := fun hno i =>
    (View.turns_alike ⟨rfl, rfl, rfl, rfl, rfl⟩ Iff.rfl fun _ h => h).congr
      ⟨fun _ h => (hno i h).elim, fun _ => trivial⟩
  unfold Downloader.pieceRecieved
  cases ha : d.addressee p with
  | none => exact hsame (fun i h => by simp [Completes, ha] at h) j
  | some i =>
    cases hcd : d.current_chunks i with
    | none =>
      simp only [hcd]
      refine hsame (fun i' h => ?_) j
      obtain ⟨h1, cd, h2, -⟩ := h
      obtain rfl : i = i' := by simpa [ha] using h1
      simp [hcd] at h2
    | some cd =>
      simp only [hcd]
      obtain ⟨d₁, hd₁⟩ : ∃ d₁, d₁ = d.reload (env.chunk i) i := ⟨_, rfl⟩
      obtain ⟨a, ha'⟩ : ∃ a, a = d₁.arrival i cd p := ⟨_, rfl⟩
      obtain ⟨d₂, hd₂⟩ : ∃ d₂, d₂ = d₁.keepArrival i a := ⟨_, rfl⟩
      simp only [← hd₁, ← ha', ← hd₂]
      have hdown : (d.view i).downloading := by simp [view, hcd]
      -- until the piece is in, the chunk has a download
      have hk₁ : (d₁.view i).Kept := hd₁ ▸ kept_reload _ hdown (hk i)
      have ha₁ : Apart i d d₁ := hd₁ ▸ apart_reload _ i
      have hdown₁ : (d₁.view i).downloading := by simp [view, hd₁, hcd]
      have ha₂ : Apart i d d₂ := ha₁.trans (hd₂ ▸ apart_keepArrival i a)
      have hdown₂ : (d₂.view i).downloading := by
        simp [view, hd₂, current_chunks_keepArrival]
      have halike : Alike (d₁.view i).cell (d₂.view i).cell := hd₂ ▸ alike_keepArrival i a
      have hk₂ : (d₂.view i).Kept := hk₁.alike halike fun _ => hdown₁
      have hcompletes : ∀ i', d.Completes env p i' ↔
          i' = i ∧ a.complete = true ∧ d₂.verifies i a.cd = true := by
        intro i'
        constructor
        · rintro ⟨h1, cd', h2, h3, h4⟩
          obtain rfl : i = i' := by simpa [ha] using h1
          obtain rfl : cd = cd' := by simpa [hcd] using h2
          rw [← hd₁, ← ha'] at h3
          simp only [← hd₁, ← ha', ← hd₂] at h4
          exact ⟨rfl, h3, h4⟩
        · rintro ⟨rfl, h3, h4⟩
          refine ⟨ha, cd, hcd, ?_⟩
          simp only [← hd₁, ← ha', ← hd₂]
          exact ⟨h3, h4⟩
      have hstatus : (d₂.cman.chunks i).status = (d₁.cman.chunks i).status := halike.status
      have hown : d₂.cman.bitset.get i = d.cman.bitset.get i := by
        have h1 : d₁.cman.bitset = d.cman.bitset := by
          rw [hd₁]
          unfold Downloader.reload ChunkManager.prepareChunk
          split_ifs <;> rfl
        have h2 : d₂.cman.bitset.get i = d₁.cman.bitset.get i := halike.owned
        rw [h2, h1]
      have hheld : ∀ d' : Downloader L, Apart i d d' → (d'.view i).downloading →
          (d'.view i).Kept → a.complete = false → View.Turns (d.view j) (d'.view j)
            (d.Completes env p j → ((d.reload (env.chunk j) j).cman.chunks j).status = .buffered →
              d.cman.bitset.get j = false → env.file.writes = true) := by
        intro d' hap hdn hkp hno
        refine (hap.turns (View.turns_held hdn fun _ => hkp) j).congr
          ⟨fun _ h => ?_, fun _ _ => trivial⟩
        exact absurd (((hcompletes j).mp h).2.1.symm.trans hno) (by decide)
      by_cases hcomplete : a.complete = true
      · rw [if_pos hcomplete]
        have hmem : (d₂.view i).cell.inMemory = true := by
          have h1 := inMemory_of_complete hk₁ (ha' ▸ hcomplete)
          unfold Cell.inMemory at h1 ⊢
          rwa [halike.status]
        obtain ⟨h1, h2⟩ := turns_finished hdown₂ hmem env.file a.cd
        refine ((ha₂.trans h1).turns (h2.after_held (fun _ => hk₂) hdown₂) j).congr ?_
        rw [hcompletes j]
        constructor
        · rintro h ⟨rfl, -, h4⟩
          rw [← hd₁, ← hstatus, ← hown]
          exact h rfl h4
        · rintro h rfl h4
          have h5 := h ⟨rfl, hcomplete, h4⟩
          rw [← hd₁, ← hstatus, ← hown] at h5
          exact h5
      · rw [if_neg hcomplete]
        have hno := Bool.eq_false_iff.mpr hcomplete
        split_ifs
        · refine hheld _ (ha₂.trans (apart_saveIdle _ i)) ?_ (kept_saveIdle _ hk₂) hno
          show ((d₂.saveIdle env.file i).current_chunks i).isSome = true
          unfold Downloader.saveIdle
          split_ifs <;> exact hdown₂
        · exact hheld _ ha₂ hdown₂ hk₂ hno

/-! ### New downloads -/

/-- The selector drops owned chunks only. Source: `ChunkSelector::select`. Kind: L -/
theorem mem_select (cman : ChunkManager L) (hasChunk downloading : ℕ → Bool) {j : ℕ}
    (ho : cman.bitset.get j = false) (chunks : List ℕ) (hj : j ∈ chunks) :
    j ∈ (ChunkSelector.select cman hasChunk downloading chunks).1 := by
  induction chunks with
  | nil => cases hj
  | cons i chunks ih =>
    unfold ChunkSelector.select
    rw [List.mem_cons] at hj
    split_ifs with h1 h2
    · rcases hj with rfl | hj
      · exact absurd (ho.symm.trans h1) (by decide)
      · exact ih hj
    · exact List.mem_cons.mpr hj
    · exact List.mem_cons.mpr (hj.imp id ih)

/-- What the selector offers is neither owned nor being downloaded, and may be downloaded.
Source: `ChunkSelector::select`. Kind: L -/
theorem select_some (cman : ChunkManager L) (hasChunk downloading : ℕ → Bool) {j : ℕ}
    (chunks : List ℕ)
    (h : (ChunkSelector.select cman hasChunk downloading chunks).2 = some j) :
    cman.bitset.get j = false ∧
      ChunkSelector.selectable cman hasChunk downloading j = true := by
  induction chunks with
  | nil => cases h
  | cons i chunks ih =>
    unfold ChunkSelector.select at h
    split_ifs at h with h1 h2
    · exact ih h
    · obtain rfl : i = j := by simpa using h
      exact ⟨by simpa using h1, h2⟩
    · exact ih h

/-- **A new download loses nothing.**. Source: `Downloader::downloadFrom`. Kind: P -/
theorem turns_downloadFrom (env : Env) (hasChunk : ℕ → Bool) (j : Fin L.numChunks) :
    View.Turns (d.view j) ((d.downloadFrom env hasChunk).view j) True := by
  obtain ⟨r, hr⟩ : ∃ r, r =
    ChunkSelector.select d.cman hasChunk d.areWeDownloading d.selector := ⟨_, rfl⟩
  have hsame : View.Turns (d.view j) (view { d with selector := r.1 } j) True :=
    View.turns_alike ⟨rfl, rfl, rfl, rfl, rfl⟩ Iff.rfl fun ho hl =>
      hr ▸ mem_select d.cman hasChunk _ ho _ hl
  unfold Downloader.downloadFrom
  simp only [← hr]
  rcases hc : r.2 with _ | chunk
  · exact hsame
  dsimp only
  by_cases hlt : chunk < L.numChunks
  swap
  · rw [dif_neg hlt]
    exact hsame
  rw [dif_pos hlt]
  obtain ⟨i, rfl⟩ : ∃ i : Fin L.numChunks, i.val = chunk := ⟨⟨chunk, hlt⟩, rfl⟩
  by_cases hs : (d.cman.chunks i).status = .notDownloaded
  swap
  · have hq : d.cman.prepareChunk (env.chunk i) i false = (d.cman, false) := by
      unfold ChunkManager.prepareChunk
      rw [dif_pos i.2, if_pos (by simp [hs])]
    rw [hq]
    exact hsame
  rw [if_pos ((prepareChunk_accepts_iff d.cman _ i).mpr hs)]
  obtain ⟨-, hsel⟩ := select_some d.cman hasChunk _ _ (hr ▸ hc)
  have hpr : (d.cman.chunks i).priority ≠ .excluded := by
    intro hp
    simp [ChunkSelector.selectable, getChunk_val, Chunk.isExcluded, hp] at hsel
  obtain ⟨s, hs'⟩ : ∃ s, s = (d.cman.prepareChunk (env.chunk i) i false).1 := ⟨_, rfl⟩
  have hcell : ∀ k, s.cell k = if k = i then
      (d.cman.cell k).prep L.torrent (env.chunk i) d.cman.cache else d.cman.cell k := by
    intro k
    rw [hs', cell_prepareChunk]
    refine if_congr ⟨fun h => Fin.ext h.1, fun h => ?_⟩ rfl rfl
    subst h
    exact ⟨rfl, Or.inr hs⟩
  rw [← hs']
  obtain ⟨d', hd'⟩ : ∃ d' : Downloader L,
    d' = insert i (.new _) { d with cman := s, selector := r.1 } := ⟨_, rfl⟩
  show View.Turns (d.view j) (view (insert i (.new _) { d with cman := s, selector := r.1 }) j) True
  rw [← hd']
  have hcell' : ∀ k, d'.cman.cell k =
      if k.val = i.val then
        { s.cell k with chunk := { s.chunks k with ref_count := (s.chunks k).ref_count + 1 } }
      else s.cell k := by
    intro k
    rw [hd']
    exact cell_modifyChunk s k i _
  by_cases hj : j = i
  · subst hj
    have hdown : (d'.view j).downloading := by
      rw [hd']
      simp [view, insert]
    refine View.turns_held hdown fun hk => ?_
    obtain ⟨v, hv⟩ : ∃ v : View, v =
      ⟨True, True, (d.view j).cell.prep L.torrent (env.chunk j) d.cman.cache⟩ := ⟨_, rfl⟩
    have hkept : v.Kept := hk.prep (by rw [hv]) hpr
    refine hkept.alike ?_ fun _ => by rw [hv]; trivial
    have h1 : v.cell = s.cell j := by
      rw [hv, hcell j, if_pos rfl]
      rfl
    rw [h1]
    show Alike _ (d'.cman.cell j)
    rw [hcell' j, if_pos rfl]
    exact ⟨rfl, rfl, rfl, rfl, rfl⟩
  · have hcellj : d'.cman.cell j = d.cman.cell j := by
      rw [hcell' j, if_neg fun h => hj (Fin.ext h), hcell j, if_neg hj]
    have hcur : d'.current_chunks j = d.current_chunks j := by
      rw [hd']
      exact Function.update_of_ne hj _ _
    refine View.turns_alike ?_ ?_ fun ho hl => ?_
    · show Alike (d.cman.cell j) (d'.cman.cell j)
      rw [hcellj]
      exact ⟨rfl, rfl, rfl, rfl, rfl⟩
    · show (d'.current_chunks j).isSome = true ↔ _
      rw [hcur]
      rfl
    · rw [hd']
      exact hr ▸ mem_select d.cman hasChunk _ ho _ hl

/-! ### Resetting and saving -/

/-- **A chunk is reset.**. Source: `ChunkManager::resetChunk`. Kind: P -/
theorem turns_resetChunk (os : Os) (i j : Fin L.numChunks) :
    View.Turns (d.view j) (view { d with cman := d.cman.resetChunk os i } j)
      (j = i → d.current_chunks i = none → d.cman.excluded_chunks.get i = false →
        d.cman.only_seed_chunks.get i = false → i.val ∈ d.selector) := by
  have hap : Apart i d { d with cman := d.cman.resetChunk os i } := by
    refine ⟨fun j hj => ?_, fun _ _ => rfl, fun _ h => h⟩
    rw [cell_resetChunk, if_neg fun hji => hj (Fin.ext hji)]
  have hcell : (view { d with cman := d.cman.resetChunk os i } i).cell = (d.view i).cell.reset := by
    show (d.cman.resetChunk os i).cell i = _
    rw [cell_resetChunk, if_pos rfl]
    rfl
  have hn : ¬ (d.view i).downloading ↔ d.current_chunks i = none := by
    simp [view, Option.isSome_iff_ne_none]
  exact hap.turns ((View.turns_reset hcell Iff.rfl).congr (imp_congr_left hn)) j

/-- **A chunk is saved.**. Source: `ChunkManager::saveChunk`. Kind: P -/
theorem turns_saveChunk (os : Os) (update_index : Bool) (i j : Fin L.numChunks) :
    View.Turns (d.view j) (view { d with cman := (d.cman.saveChunk os i update_index).1 } j)
      (j = i → d.current_chunks i = none →
        (d.cman.cell i).SavesMatched L.torrent os update_index) := by
  refine (apart_saveChunk os i update_index).turns ?_ j
  have hcell : (view { d with cman := (d.cman.saveChunk os i update_index).1 } i).cell =
      (d.view i).cell.save L.torrent os d.cman.cache update_index := by
    show (d.cman.saveChunk os i update_index).1.cell i = _
    rw [cell_saveChunk, if_pos rfl]
    rfl
  have hn : ¬ (d.view i).downloading ↔ d.current_chunks i = none := by
    simp [view, Option.isSome_iff_ne_none]
  exact (View.turns_save hcell Iff.rfl id).congr (imp_congr_left hn)

/-- An idle download leaves memory, and an assigned one comes back.
Source: `Downloader::normalUpdate`. Kind: L -/
theorem turns_idle (os : Os) (i j : Fin L.numChunks) :
    View.Turns (d.view j) ((d.idle os i).view j) True ∧
      View.Turns (d.view j) ((d.assign os i).view j) True := by
  have hsame : View.Turns (d.view j) (d.view j) True :=
    View.turns_alike ⟨rfl, rfl, rfl, rfl, rfl⟩ Iff.rfl fun _ h => h
  unfold Downloader.idle Downloader.assign
  by_cases hd : (d.current_chunks i).isSome = true
  swap
  · rw [if_neg hd, if_neg hd]
    exact ⟨hsame, hsame⟩
  rw [if_pos hd, if_pos hd]
  have hidle : ((d.saveIdle os i).view i).downloading := by
    show ((d.saveIdle os i).current_chunks i).isSome = true
    unfold Downloader.saveIdle
    split_ifs <;> exact hd
  have hload : ((d.reload os i).view i).downloading := by
    show ((d.reload os i).current_chunks i).isSome = true
    rw [current_chunks_reload]
    exact hd
  exact ⟨((apart_saveIdle os i).turns (View.turns_held hidle (kept_saveIdle os)) j).congr
      ⟨fun _ => trivial, fun _ _ => trivial⟩,
    ((apart_reload os i).turns (View.turns_held hload (kept_reload os hd)) j).congr
      ⟨fun _ => trivial, fun _ _ => trivial⟩⟩

end steps

end Downloader

end KTorrent.Transfer
