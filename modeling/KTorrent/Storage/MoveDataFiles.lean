import KTorrent.Lib.GuardedRun
import KTorrent.Lib.SortedMap
import Mathlib.Order.Lattice

/-!
# Moving the files of a torrent

A job moves the files of a torrent one after another to another directory. When one of the moves
fails, or is canceled, the files moved so far are moved back. The torrent waits for the result.

* `MoveDataFilesJob` — the job: what is to be moved, what has been moved, and the moves that run.
* `Moving` — the job together with the files: a file stands at its source or at its target. The
  moves end in any order, and each may succeed, fail or be canceled (`MoveEvent`).
* `Moving.Sound` — the invariant. Before an error one move runs, and every file is to be moved, runs
  or has been moved; after an error every file that stands at its target is on the way back, waits
  for it, or could not be moved back.
* `moved_or_restored` — what a result means, on every run; `moves_le` — how long a run can be.
* `TorrentControl` — the torrent that waits, and when it stops waiting (`waits_iff`).

A move that is canceled ends with an error after it has told that it is canceled, and a job that has
given a result is deleted before another move ends; both is how the jobs of the desktop work. Files
have different targets. The directories that are made and removed are left out.

Source: `libktorrent/torrent/movedatafilesjob.cpp`, `libktorrent/torrent/torrentcontrol.cpp`
-/

namespace KTorrent.Storage

open KTorrent.Lib

/-- The errors of the job. Source: `TDEIO::ERR_INTERNAL`, `TDEIO::ERR_USER_CANCELED`. Kind: D -/
inductive JobError
  | internal
  | userCanceled
  deriving DecidableEq

/-- A running move of the file with source `src`: to its target, or back. Kind: D -/
structure FileMove (κ : Type*) where
  src : κ
  back : Bool

/-- Source: `MoveDataFilesJob`. `running` are the moves that have been started and have not ended,
`emitted` the results given. Kind: D -/
structure MoveDataFilesJob (κ : Type*) [LinearOrder κ] [Inhabited κ] where
  err : Bool := false
  m_error : Option JobError := none
  active_src : κ := default
  active_dst : κ := default
  todo : SortedMap κ κ := .empty
  success : SortedMap κ κ := .empty
  running : List (FileMove κ) := []
  emitted : List (Option JobError) := []

variable {κ : Type*} [LinearOrder κ] [Inhabited κ]

namespace MoveDataFilesJob

/-- Source: `MoveDataFilesJob::addMove`. Kind: D -/
def addMove (job : MoveDataFilesJob κ) (src dst : κ) : MoveDataFilesJob κ :=
  { job with todo := job.todo.put src dst }

/-- Source: `TDEIO::Job::emitResult`. Kind: D -/
def emitResult (job : MoveDataFilesJob κ) : MoveDataFilesJob κ :=
  { job with emitted := job.emitted ++ [job.m_error] }

/-- Source: `MoveDataFilesJob::startMoving`. Kind: D -/
def startMoving (job : MoveDataFilesJob κ) : MoveDataFilesJob κ :=
  match job.todo.entries with
  | [] => { job with m_error := none }.emitResult
  | (src, dst) :: _ =>
    { job with
      running := job.running ++ [⟨src, false⟩]
      active_src := src
      active_dst := dst
      todo := job.todo.erase src }

/-- Source: `MoveDataFilesJob::recover`. Kind: D -/
def recover (job : MoveDataFilesJob κ) : MoveDataFilesJob κ :=
  match job.success.entries with
  | [] => job.emitResult
  | (src, _) :: _ =>
    { job with
      running := job.running ++ [⟨src, true⟩]
      success := job.success.erase src }

/-- `error` is the error of the move that has ended. Source: `MoveDataFilesJob::onJobDone`.
Kind: D -/
def onJobDone (job : MoveDataFilesJob κ) (error : Bool) : MoveDataFilesJob κ :=
  if error || job.err then
    { job with
      m_error := if !job.err then some .internal else job.m_error
      err := true }.recover
  else
    { job with
      success := job.success.put job.active_src job.active_dst
      active_src := default
      active_dst := default }.startMoving

/-- Source: `MoveDataFilesJob::onCanceled`. Kind: D -/
def onCanceled (job : MoveDataFilesJob κ) : MoveDataFilesJob κ :=
  { job with m_error := some .userCanceled, err := true }.recover

/-- The `i`-th of the running moves does not run any more. Kind: D -/
def ended (job : MoveDataFilesJob κ) (i : ℕ) : MoveDataFilesJob κ :=
  { job with running := job.running.eraseIdx i }

end MoveDataFilesJob

/-! ### The files -/

/-- The job and the files, each named by its source: `moved` are those that stand at their target,
`stuck` those for which a move back has failed. Kind: D -/
structure Moving (κ : Type*) [LinearOrder κ] [Inhabited κ] where
  job : MoveDataFilesJob κ
  moved : κ → Bool := fun _ => false
  stuck : κ → Bool := fun _ => false

/-- The `i`-th of the running moves ends, with success or an error, or it is canceled. Kind: D -/
inductive MoveEvent
  | done (i : ℕ) (ok : Bool)
  | canceled (i : ℕ)

namespace MoveEvent

/-- The move that ends. Kind: D -/
def index : MoveEvent → ℕ
  | done i _ => i
  | canceled i => i

/-- The file has been moved. Kind: D -/
def ok : MoveEvent → Bool
  | done _ ok => ok
  | canceled _ => false

end MoveEvent

namespace Moving

/-- What the end of a move tells the job: nothing, when the job is gone. A canceled move first tells
that it is canceled. Kind: D -/
def signal (job : MoveDataFilesJob κ) (e : MoveEvent) : MoveDataFilesJob κ :=
  if job.emitted ≠ [] then job
  else match e with
    | .done _ ok => job.onJobDone (!ok)
    | .canceled _ => job.onCanceled.onJobDone true

/-- The files after a move has ended. Kind: D -/
def land (s : Moving κ) (m : FileMove κ) (ok : Bool) : Moving κ :=
  { s with
    moved := if ok then Function.update s.moved m.src (!m.back) else s.moved
    stuck := if m.back && !ok then Function.update s.stuck m.src true else s.stuck }

/-- One of the running moves ends. Kind: D -/
def step (s : Moving κ) (e : MoveEvent) : Moving κ :=
  match s.job.running[e.index]? with
  | none => s
  | some m =>
    { s.land m e.ok with job := signal (s.job.ended e.index) e }

/-- The job is set up with the moves in the given order, and started. Source:
`MultiFileCache::moveDataFiles`. Kind: D -/
def start (moves : List (κ × κ)) : Moving κ where
  job := (moves.foldl (fun (job : MoveDataFilesJob κ) x => job.addMove x.1 x.2) {}).startMoving

/-! ### The two phases -/

/-- Nothing has gone wrong: one file is being moved, or all have been. Kind: D -/
structure Forward (files : Finset κ) (s : Moving κ) : Prop where
  err : s.job.err = false
  phase : (s.job.running = [⟨s.job.active_src, false⟩] ∧ s.job.emitted = []) ∨
    (s.job.todo.entries = [] ∧ s.job.running = [] ∧ s.job.emitted = [none])
  known : ∀ f ∈ files, f ∈ s.job.todo.keySet ∨ (∃ m ∈ s.job.running, m.src = f) ∨ s.moved f = true
  kept : ∀ f, s.moved f = true → f ∈ s.job.success.keySet

/-- Something has gone wrong: what stands at its target waits for being moved back, is on the way,
or could not be moved. Kind: D -/
structure Backward (s : Moving κ) : Prop where
  err : s.job.err = true
  m_error : s.job.m_error ≠ none
  emitted : none ∉ s.job.emitted
  back : ∀ m ∈ s.job.running, m.back = true
  settled : s.job.emitted ≠ [] → s.job.success.entries = []
  placed : ∀ f, s.moved f = true →
    f ∈ s.job.success.keySet ∨ (∃ m ∈ s.job.running, m.src = f) ∨ s.stuck f = true

/-- The invariant. Kind: D -/
def Sound (files : Finset κ) (s : Moving κ) : Prop :=
  Forward files s ∨ Backward s ∧ (s.job.emitted = [] → s.job.running ≠ [])

/-- The sources of the moves. Kind: D -/
def files (moves : List (κ × κ)) : Finset κ := (moves.map Prod.fst).toFinset

/-- The next file is taken back, or the result is given. Source: `MoveDataFilesJob::recover`.
Kind: L -/
theorem backward_recover {s : Moving κ} (h : Backward s) :
    Backward { s with job := s.job.recover } ∧
      (s.job.recover.emitted = [] → s.job.recover.running ≠ []) := by
  unfold MoveDataFilesJob.recover
  split
  case h_1 hnil =>
    refine ⟨⟨h.err, h.m_error, ?_, h.back, fun _ => hnil, h.placed⟩, fun hem => ?_⟩
    · intro hmem
      rcases List.mem_append.mp hmem with hmem | hmem
      · exact h.emitted hmem
      · exact h.m_error (List.mem_singleton.mp hmem).symm
    · simp [MoveDataFilesJob.emitResult] at hem
  case h_2 src dst rest hcons =>
    have hnone : s.job.emitted = [] := by
      by_contra hne
      exact List.cons_ne_nil _ _ (hcons.symm.trans (h.settled hne))
    refine ⟨⟨h.err, h.m_error, h.emitted, ?_, fun hne => absurd hnone hne, ?_⟩, ?_⟩
    · intro m hm
      rcases List.mem_append.mp hm with hm | hm
      · exact h.back m hm
      · rw [List.mem_singleton.mp hm]
    · intro f hf
      rcases h.placed f hf with hk | ⟨m, hm, hsrc⟩ | hst
      · by_cases heq : f = src
        · exact .inr (.inl ⟨⟨src, true⟩, by simp, heq.symm⟩)
        · left
          change f ∈ (s.job.success.erase src).keySet
          rw [SortedMap.keySet_erase]
          exact Finset.mem_erase.mpr ⟨heq, hk⟩
      · exact .inr (.inl ⟨m, List.mem_append_left _ hm, hsrc⟩)
      · exact .inr (.inr hst)
    · simp

/-- What ran besides the `i`-th still runs. Source: `libktorrent/torrent/movedatafilesjob.cpp`.
Kind: L -/
theorem mem_eraseIdx_or {α : Type*} {l : List α} {i : ℕ} {m x : α} (hm : l[i]? = some m)
    (hx : x ∈ l) : x = m ∨ x ∈ l.eraseIdx i := by
  obtain ⟨hi, rfl⟩ := List.getElem?_eq_some_iff.mp hm
  exact List.mem_cons.mp ((List.getElem_cons_eraseIdx_perm hi).mem_iff.mpr hx)

/-- A file that has landed is at its source, or could not be moved back.
Source: `libktorrent/torrent/movedatafilesjob.cpp`. Kind: L -/
theorem backward_land {s : Moving κ} (h : Backward s) {i : ℕ} {m : FileMove κ}
    (hm : s.job.running[i]? = some m) (ok : Bool) :
    Backward { s.land m ok with job := s.job.ended i } := by
  have hback : m.back = true := h.back m (List.mem_of_getElem? hm)
  refine ⟨h.err, h.m_error, h.emitted, fun m' hm' => h.back m' (List.mem_of_mem_eraseIdx hm'),
    h.settled, fun f hf => ?_⟩
  by_cases heq : f = m.src
  · cases ok with
    | true => simp [land, heq, hback] at hf
    | false => exact .inr (.inr (by simp [land, hback, heq]))
  · have hf' : s.moved f = true := by
      cases ok with
      | true => simpa [land, Function.update_of_ne heq] using hf
      | false => simpa [land] using hf
    rcases h.placed f hf' with hk | ⟨m', hm', hsrc⟩ | hst
    · exact .inl hk
    · rcases mem_eraseIdx_or hm hm' with rfl | hm'
      · exact absurd hsrc.symm heq
      · exact .inr (.inl ⟨m', hm', hsrc⟩)
    · refine .inr (.inr ?_)
      change (if m.back && !ok then Function.update s.stuck m.src true else s.stuck) f = true
      split_ifs
      · rwa [Function.update_of_ne heq]
      · exact hst

/-- The next file is moved, or the result is given. Source: `MoveDataFilesJob::startMoving`.
Kind: L -/
theorem forward_startMoving {files : Finset κ} {s : Moving κ} (herr : s.job.err = false)
    (hrun : s.job.running = []) (hem : s.job.emitted = [])
    (hknown : ∀ f ∈ files, f ∈ s.job.todo.keySet ∨ s.moved f = true)
    (hkept : ∀ f, s.moved f = true → f ∈ s.job.success.keySet) :
    Forward files { s with job := s.job.startMoving } := by
  unfold MoveDataFilesJob.startMoving
  split
  case h_1 hnil =>
    refine ⟨herr, .inr ⟨hnil, hrun, ?_⟩, fun f hf => ?_, hkept⟩
    · simp [MoveDataFilesJob.emitResult, hem]
    · exact (hknown f hf).imp_right .inr
  case h_2 src dst rest hcons =>
    refine ⟨herr, .inl ⟨?_, hem⟩, fun f hf => ?_, hkept⟩
    · simp [hrun]
    · rcases hknown f hf with hk | hmv
      · by_cases heq : f = src
        · exact .inr (.inl ⟨⟨src, false⟩, by simp, heq.symm⟩)
        · left
          change f ∈ (s.job.todo.erase src).keySet
          rw [SortedMap.keySet_erase]
          exact Finset.mem_erase.mpr ⟨heq, hk⟩
      · exact .inr (.inr hmv)

/-- After an error a move that ends goes on with the recovery.
Source: `MoveDataFilesJob::onJobDone`. Kind: L -/
theorem onJobDone_of_err {job : MoveDataFilesJob κ} (h : job.err = true) (error : Bool) :
    job.onJobDone error = job.recover := by
  unfold MoveDataFilesJob.onJobDone
  rw [if_pos (by simp [h])]
  congr 1
  cases job
  simp_all

/-- When a move fails, all that has been moved waits for being moved back.
Source: `libktorrent/torrent/movedatafilesjob.cpp`. Kind: L -/
theorem Forward.backward {files : Finset κ} {s : Moving κ} (h : Forward files s)
    (hem : s.job.emitted = []) (e : JobError) :
    Backward { s with
      job := { s.job with running := [], m_error := some e, err := true } } where
  err := rfl
  m_error := Option.some_ne_none e
  emitted := by simp [hem]
  back := by simp
  settled hne := absurd hem hne
  placed f hf := .inl (h.kept f hf)

/-- A job that has given its result hears nothing.
Source: `libktorrent/torrent/movedatafilesjob.cpp`. Kind: L -/
theorem signal_gone {job : MoveDataFilesJob κ} (h : job.emitted ≠ []) (e : MoveEvent) :
    signal job e = job :=
  if_pos h

/-- A move ends. Source: `MoveDataFilesJob::onJobDone`. Kind: L -/
theorem signal_done {j : MoveDataFilesJob κ} (h : j.emitted = []) (i : ℕ) (ok : Bool) :
    signal j (.done i ok) = j.onJobDone (!ok) :=
  if_neg (by simp [h])

/-- A move is cancelled. Source: `MoveDataFilesJob::onJobDone`. Kind: L -/
theorem signal_canceled {job : MoveDataFilesJob κ} (h : job.emitted = []) (i : ℕ) :
    signal job (.canceled i) = job.onCanceled.onJobDone true :=
  if_neg (by simp [h])

/-- A job that takes the files back is sound. Source: `MoveDataFilesJob::recover`. Kind: L -/
theorem Backward.sound_recover {files : Finset κ} {job : MoveDataFilesJob κ} {moved stuck : κ → Bool}
    (h : Backward ⟨job, moved, stuck⟩) : Sound files ⟨job.recover, moved, stuck⟩ :=
  .inr (backward_recover h)

/-- **The step lemma** before an error. Source: `libktorrent/torrent/movedatafilesjob.cpp`.
Kind: L -/
theorem Forward.sound_step {files : Finset κ} {s : Moving κ} (h : Forward files s) (e : MoveEvent) :
    Sound files (s.step e) := by
  unfold step
  rcases h.phase with ⟨hrun, hem⟩ | ⟨htodo, hrun, hem⟩
  case inr =>
    rw [hrun, List.getElem?_nil]
    exact .inl h
  rw [hrun]
  cases hi : e.index with
  | succ i => exact .inl h
  | zero =>
    have hem' : ({ s.job with running := [] } : MoveDataFilesJob κ).emitted = [] := hem
    have hended : s.job.ended 0 = { s.job with running := [] } := by
      simp [MoveDataFilesJob.ended, hrun]
    change Sound files ⟨signal (s.job.ended 0) e, _, _⟩
    rw [hended]
    match e with
    | .canceled _ =>
      rw [signal_canceled hem']
      -- the move tells that it is canceled, and then ends with an error: two files are taken back
      have hone := backward_recover (h.backward hem .userCanceled)
      change Sound files ⟨MoveDataFilesJob.onJobDone
        (MoveDataFilesJob.recover
          { s.job with running := [], m_error := some .userCanceled, err := true }) true, s.moved, s.stuck⟩
      rw [onJobDone_of_err hone.1.err]
      exact hone.1.sound_recover
    | .done _ false =>
      rw [signal_done hem', Bool.not_false]
      have hjob : MoveDataFilesJob.onJobDone { s.job with running := [] } true =
          { s.job with running := [], m_error := some .internal, err := true }.recover := by
        simp [MoveDataFilesJob.onJobDone, h.err]
      rw [hjob]
      exact (h.backward hem .internal).sound_recover
    | .done _ true =>
      rw [signal_done hem', Bool.not_true]
      have hjob : MoveDataFilesJob.onJobDone { s.job with running := [] } false =
          MoveDataFilesJob.startMoving
            { s.job with
              success := s.job.success.put s.job.active_src s.job.active_dst
              active_src := default
              active_dst := default
              running := [] } := by
        simp [MoveDataFilesJob.onJobDone, h.err]
      change Sound files ⟨MoveDataFilesJob.onJobDone { s.job with running := [] } false,
        Function.update s.moved s.job.active_src true, s.stuck⟩
      rw [hjob]
      refine .inl (forward_startMoving (s := ⟨_, _, _⟩) h.err rfl hem (fun f hf => ?_) fun f hf => ?_)
      · by_cases heq : f = s.job.active_src
        · rw [heq]
          exact .inr (Function.update_self ..)
        · rcases h.known f hf with hk | ⟨m, hm, hsrc⟩ | hmv
          · exact .inl hk
          · rw [hrun, List.mem_singleton] at hm
            exact absurd (hsrc.symm.trans (congrArg FileMove.src hm)) heq
          · exact .inr ((Function.update_of_ne heq ..).trans hmv)
      · rw [SortedMap.keySet_put, Finset.mem_insert]
        by_cases heq : f = s.job.active_src
        · exact .inl heq
        · exact .inr (h.kept f ((Function.update_of_ne heq ..).symm.trans hf))

/-- **The step lemma** after an error. Source: `libktorrent/torrent/movedatafilesjob.cpp`.
Kind: L -/
theorem Backward.sound_step {files : Finset κ} {s : Moving κ} (h : Backward s)
    (hrun : s.job.emitted = [] → s.job.running ≠ []) (e : MoveEvent) : Sound files (s.step e) := by
  unfold step
  cases hm : s.job.running[e.index]? with
  | none => exact .inr ⟨h, hrun⟩
  | some m =>
    have hland := backward_land h hm e.ok
    set job := s.job.ended e.index
    change Sound files ⟨signal job e, (s.land m e.ok).moved, (s.land m e.ok).stuck⟩
    by_cases hem : job.emitted ≠ []
    · rw [signal_gone hem]
      exact .inr ⟨hland, fun hnil => absurd hnil hem⟩
    rw [not_not] at hem
    match e with
    | .done _ ok =>
      rw [signal_done hem, onJobDone_of_err hland.err]
      exact hland.sound_recover
    | .canceled _ =>
      have hcancel : Backward ⟨{ job with m_error := some .userCanceled, err := true },
          (s.land m false).moved, (s.land m false).stuck⟩ :=
        ⟨rfl, Option.some_ne_none _, hland.emitted, hland.back, hland.settled, hland.placed⟩
      have hone := backward_recover hcancel
      rw [signal_canceled hem, MoveDataFilesJob.onCanceled, onJobDone_of_err hone.1.err]
      exact hone.1.sound_recover

/-- **The step lemma.**. Source: `libktorrent/torrent/movedatafilesjob.cpp`. Kind: L -/
theorem Sound.step {files : Finset κ} {s : Moving κ} (h : Sound files s) (e : MoveEvent) :
    Sound files (s.step e) := by
  rcases h with h | h
  · exact h.sound_step e
  · exact h.1.sound_step h.2 e

/-! ### A whole run -/

/-- All moves are put on the list. Source: `MoveDataFilesJob::addMove`. Kind: L -/
theorem todo_foldl_addMove (moves : List (κ × κ)) (job : MoveDataFilesJob κ) :
    moves.foldl (fun (job : MoveDataFilesJob κ) x => job.addMove x.1 x.2) job =
      { job with todo := moves.foldl (fun m x => m.put x.1 x.2) job.todo } := by
  induction moves generalizing job with
  | nil => rfl
  | cons x xs ih => exact ih _

omit [Inhabited κ] in
/-- The map of moves has exactly their files. Source: `libktorrent/torrent/movedatafilesjob.cpp`.
Kind: L -/
theorem keySet_foldl_put (moves : List (κ × κ)) (m : SortedMap κ κ) :
    (moves.foldl (fun m x => m.put x.1 x.2) m).keySet = files moves ∪ m.keySet := by
  induction moves generalizing m with
  | nil => simp [files]
  | cons x xs ih =>
    rw [List.foldl_cons, ih, SortedMap.keySet_put]
    simp [files, Finset.insert_union, Finset.union_insert]

/-- The job before it is started. Kind: D -/
def ready (moves : List (κ × κ)) : MoveDataFilesJob κ :=
  { todo := moves.foldl (fun m x => m.put x.1 x.2) .empty }

/-- The job when its first moves run. Source: `MoveDataFilesJob::startMoving`. Kind: L -/
theorem start_eq (moves : List (κ × κ)) :
    start moves = { job := (ready moves).startMoving } := by
  rw [start, todo_foldl_addMove]
  rfl

/-- The job has exactly the files to move. Source: `libktorrent/torrent/movedatafilesjob.cpp`.
Kind: L -/
theorem keySet_ready (moves : List (κ × κ)) : (ready moves).todo.keySet = files moves := by
  rw [ready, keySet_foldl_put, SortedMap.keySet_empty, Finset.union_empty]

/-- A job is sound when it starts. Source: `libktorrent/torrent/movedatafilesjob.cpp`. Kind: L -/
theorem sound_start (moves : List (κ × κ)) : Sound (files moves) (start moves) := by
  rw [start_eq]
  refine .inl (forward_startMoving (s := { job := ready moves }) rfl rfl rfl (fun f hf => ?_)
    fun f hf => absurd hf Bool.false_ne_true)
  rw [keySet_ready]
  exact .inl hf

/-- A job is sound after whatever happens. Source: `libktorrent/torrent/movedatafilesjob.cpp`.
Kind: L -/
theorem sound_of_run (moves : List (κ × κ)) (es : List MoveEvent) :
    Sound (files moves) (run step (start moves) es) :=
  run_inv (fun _ e h => h.step e) (sound_start moves) es

/-- **What a result means**, however the moves end. Until there is one, a move runs. When it is
without an error, it is the only one, every file stands at its target and nothing runs. When it is
an error, each file that does not stand at its source is being moved back, or this has failed.
Source: `libktorrent/torrent/movedatafilesjob.cpp`. Kind: P -/
theorem moved_or_restored (moves : List (κ × κ)) (es : List MoveEvent) :
    ((run step (start moves) es).job.emitted = [] → (run step (start moves) es).job.running ≠ []) ∧
    (none ∈ (run step (start moves) es).job.emitted →
      (run step (start moves) es).job.emitted = [none] ∧
      (run step (start moves) es).job.running = [] ∧
      ∀ x ∈ moves, (run step (start moves) es).moved x.1 = true) ∧
    ∀ e, some e ∈ (run step (start moves) es).job.emitted →
      ∀ f, (run step (start moves) es).moved f = true →
        (∃ m ∈ (run step (start moves) es).job.running, m.src = f ∧ m.back = true) ∨
          (run step (start moves) es).stuck f = true := by
  rcases sound_of_run moves es with h | ⟨h, hrun⟩
  · rcases h.phase with ⟨hrun, hem⟩ | ⟨htodo, hrun, hem⟩
    · simp [hrun, hem]
    · refine ⟨by simp [hem], fun _ => ⟨hem, hrun, fun x hx => ?_⟩, by simp [hem]⟩
      have hx : x.1 ∈ files moves := List.mem_toFinset.mpr (List.mem_map_of_mem hx)
      rcases h.known x.1 hx with hk | ⟨m, hm, -⟩ | hmv
      · simp [SortedMap.keySet, htodo] at hk
      · simp [hrun] at hm
      · exact hmv
  · refine ⟨hrun, fun hnone => absurd hnone h.emitted, fun e he f hf => ?_⟩
    have hnil := h.settled (List.ne_nil_of_mem he)
    rcases h.placed f hf with hk | ⟨m, hm, hsrc⟩ | hst
    · simp [SortedMap.keySet, hnil] at hk
    · exact .inl ⟨m, hm, hsrc, h.back m hm⟩
    · exact .inr hst

/-- The moves that run and the results that have been given. Kind: D -/
def pending (job : MoveDataFilesJob κ) : ℕ := job.running.length + job.emitted.length

/-- One more move is pending. Source: `MoveDataFilesJob::startMoving`. Kind: L -/
theorem pending_startMoving (job : MoveDataFilesJob κ) :
    pending job.startMoving = pending job + 1 := by
  unfold MoveDataFilesJob.startMoving
  split
  case h_1 => simp [pending, MoveDataFilesJob.emitResult, Nat.add_assoc]
  case h_2 =>
    simp only [pending, List.length_append, List.length_singleton]
    omega

/-- One more move back is pending. Source: `MoveDataFilesJob::recover`. Kind: L -/
theorem pending_recover (job : MoveDataFilesJob κ) : pending job.recover = pending job + 1 := by
  unfold MoveDataFilesJob.recover
  split
  case h_1 => simp [pending, MoveDataFilesJob.emitResult, Nat.add_assoc]
  case h_2 =>
    simp only [pending, List.length_append, List.length_singleton]
    omega

/-- A move that ends is followed by another. Source: `MoveDataFilesJob::onJobDone`. Kind: L -/
theorem pending_onJobDone (job : MoveDataFilesJob κ) (error : Bool) :
    pending (job.onJobDone error) = pending job + 1 := by
  unfold MoveDataFilesJob.onJobDone
  cases error || job.err with
  | true => exact pending_recover _
  | false => exact pending_startMoving _

/-- A move that is not canceled is followed by one move or one result.
Source: `libktorrent/torrent/movedatafilesjob.cpp`. Kind: L -/
theorem pending_step {s : Moving κ} (h : pending s.job = 1) (i : ℕ) (ok : Bool) :
    pending (s.step (.done i ok)).job = 1 := by
  unfold step
  cases hm : s.job.running[(MoveEvent.done i ok).index]? with
  | none => exact h
  | some m =>
    obtain ⟨hi, -⟩ := List.getElem?_eq_some_iff.mp hm
    have hended : pending (s.job.ended (MoveEvent.done i ok).index) + 1 = pending s.job := by
      simp only [pending, MoveDataFilesJob.ended, List.length_eraseIdx_of_lt hi]
      omega
    have hem : s.job.emitted = [] := by
      rw [← List.length_eq_zero_iff]
      unfold pending at h
      omega
    change pending (signal (s.job.ended (MoveEvent.done i ok).index) (.done i ok)) = 1
    rw [signal_done (j := s.job.ended _) hem, pending_onJobDone]
    omega

/-- **One at a time**: when no move is canceled, either one move runs and there is no result, or
nothing runs and there is one result; so after an error what stands at its target could not be moved
back. Source: `libktorrent/torrent/movedatafilesjob.cpp`. Kind: P -/
theorem one_result (moves : List (κ × κ)) {es : List MoveEvent}
    (hes : ∀ e ∈ es, ∃ i ok, e = .done i ok) :
    (run step (start moves) es).job.running.length +
        (run step (start moves) es).job.emitted.length = 1 ∧
      ∀ e, some e ∈ (run step (start moves) es).job.emitted →
        ∀ f, (run step (start moves) es).moved f = true →
          (run step (start moves) es).stuck f = true := by
  have hgen : ∀ (es : List MoveEvent) (s : Moving κ), pending s.job = 1 →
      (∀ e ∈ es, ∃ i ok, e = .done i ok) → pending (run step s es).job = 1 := by
    intro es
    induction es with
    | nil => exact fun _ h _ => h
    | cons e es ih =>
      intro s h hall
      obtain ⟨i, ok, rfl⟩ := hall e List.mem_cons_self
      exact ih _ (pending_step h i ok) fun e he => hall e (List.mem_cons_of_mem _ he)
  have hstart : pending (start moves).job = 1 := by
    rw [start_eq]
    exact pending_startMoving (ready moves)
  have hone := hgen es _ hstart hes
  refine ⟨hone, fun e he f hf => ?_⟩
  have hnone : (run step (start moves) es).job.running = [] := by
    have hpos := List.length_pos_of_mem he
    rw [← List.length_eq_zero_iff]
    unfold pending at hone
    omega
  rcases (moved_or_restored moves es).2.2 e he f hf with ⟨m, hm, -⟩ | hst
  · rw [hnone] at hm
    exact absurd hm List.not_mem_nil
  · exact hst

/-- The second of two moves fails, and the first file cannot be moved back.
Source: `libktorrent/torrent/movedatafilesjob.cpp`. Kind: L -/
theorem one_result_stuck :
    (run step (start [(1, 11), (2, 12)])
      [.done 0 true, .done 0 false, .done 0 false]).stuck 1 = true :=
  (one_result [(1, 11), (2, 12)] (by simp)).2 .internal (by decide) 1 (by decide)

/-! ### The end of a run -/

/-- How many more moves can end: two for each file that has not been moved, one for the others that
can be moved back. Kind: D -/
def weight (job : MoveDataFilesJob κ) : ℕ :=
  2 * job.todo.size + job.success.size + (job.running.map fun m => if m.back then 1 else 2).sum

/-- Starting a move weighs nothing. Source: `MoveDataFilesJob::startMoving`. Kind: L -/
theorem weight_startMoving (job : MoveDataFilesJob κ) : weight job.startMoving = weight job := by
  unfold MoveDataFilesJob.startMoving
  split
  case h_1 => rfl
  case h_2 src dst rest hcons =>
    have hsize : (job.todo.erase src).size + 1 = job.todo.size :=
      SortedMap.size_erase (SortedMap.mem_keySet.mpr ⟨dst, by simp [hcons]⟩)
    simp only [weight, List.map_append, List.sum_append]
    simp
    omega

/-- Moving back weighs nothing. Source: `MoveDataFilesJob::recover`. Kind: L -/
theorem weight_recover (job : MoveDataFilesJob κ) : weight job.recover = weight job := by
  unfold MoveDataFilesJob.recover
  split
  case h_1 => rfl
  case h_2 src dst rest hcons =>
    have hsize : (job.success.erase src).size + 1 = job.success.size :=
      SortedMap.size_erase (SortedMap.mem_keySet.mpr ⟨dst, by simp [hcons]⟩)
    simp only [weight, List.map_append, List.sum_append]
    simp
    omega

omit [Inhabited κ] in
/-- The map grows by one at most. Source: `libktorrent/torrent/movedatafilesjob.cpp`. Kind: L -/
theorem size_put_le (m : SortedMap κ κ) (k b : κ) : (m.put k b).size ≤ m.size + 1 := by
  rw [← SortedMap.card_keySet, ← SortedMap.card_keySet, SortedMap.keySet_put]
  exact Finset.card_insert_le ..

/-- An end adds at most the first error. Source: `MoveDataFilesJob::onJobDone`. Kind: L -/
theorem weight_onJobDone (job : MoveDataFilesJob κ) (error : Bool) :
    weight (job.onJobDone error) ≤ weight job + if job.err then 0 else 1 := by
  unfold MoveDataFilesJob.onJobDone
  cases herr : job.err with
  | true =>
    rw [if_pos (Bool.or_true _), weight_recover]
    exact Nat.le_add_right ..
  | false =>
    cases error with
    | true => exact (weight_recover _).le.trans (Nat.le_succ _)
    | false =>
      rw [if_neg (by simp), if_neg Bool.false_ne_true]
      refine (weight_startMoving _).trans_le ?_
      have hput := size_put_le job.success job.active_src job.active_dst
      simp only [weight]
      omega

/-- The end of a move makes one more possible when the file has been moved, and none otherwise.
Source: `libktorrent/torrent/movedatafilesjob.cpp`. Kind: L -/
theorem weight_signal (job : MoveDataFilesJob κ) (e : MoveEvent) :
    weight (signal job e) ≤ weight job + if job.err then 0 else 1 := by
  by_cases hem : job.emitted ≠ []
  · rw [signal_gone hem]
    exact Nat.le_add_right ..
  rw [not_not] at hem
  match e with
  | .done i ok =>
    rw [signal_done hem]
    exact weight_onJobDone job _
  | .canceled i =>
    have herr : job.onCanceled.err = true := by
      unfold MoveDataFilesJob.onCanceled MoveDataFilesJob.recover
      split <;> rfl
    rw [signal_canceled hem, onJobDone_of_err herr, weight_recover, MoveDataFilesJob.onCanceled,
      weight_recover]
    exact Nat.le_add_right ..

/-- A move that has ended weighs no more. Source: `libktorrent/torrent/movedatafilesjob.cpp`.
Kind: L -/
theorem weight_eraseIdx {job : MoveDataFilesJob κ} {i : ℕ} {m : FileMove κ}
    (hm : job.running[i]? = some m) :
    weight (job.ended i) + (if m.back then 1 else 2) = weight job := by
  obtain ⟨hi, rfl⟩ := List.getElem?_eq_some_iff.mp hm
  have hsum := ((List.getElem_cons_eraseIdx_perm hi).map
    fun m : FileMove κ => if m.back then 1 else 2).sum_nat
  rw [List.map_cons, List.sum_cons] at hsum
  simp only [weight, MoveDataFilesJob.ended]
  omega

/-- Every move that ends uses up some of what can be moved.
Source: `libktorrent/torrent/movedatafilesjob.cpp`. Kind: L -/
theorem weight_step {files : Finset κ} {s : Moving κ} (h : Sound files s) {e : MoveEvent}
    (he : e.index < s.job.running.length) : weight (s.step e).job < weight s.job := by
  obtain ⟨m, hm⟩ : ∃ m, s.job.running[e.index]? = some m := ⟨_, List.getElem?_eq_getElem he⟩
  have herase := weight_eraseIdx hm
  have hsignal := weight_signal (s.job.ended e.index) e
  have hstep : (s.step e).job = signal (s.job.ended e.index) e := by rw [step, hm]
  rw [hstep]
  rcases h with h | ⟨h, -⟩
  · -- what runs before an error is a move to the target
    have hforth : m.back = false := by
      rcases h.phase with ⟨hrun, -⟩ | ⟨-, hrun, -⟩
      · rw [hrun] at hm
        have hmem := List.mem_of_getElem? hm
        rw [List.mem_singleton.mp hmem]
      · simp [hrun] at hm
    rw [if_neg (by simp [MoveDataFilesJob.ended, h.err])] at hsignal
    rw [hforth, if_neg Bool.false_ne_true] at herase
    omega
  · rw [if_pos (show (s.job.ended e.index).err = true from h.err)] at hsignal
    have hpos : 0 < if m.back then 1 else 2 := by
      cases m.back
      · exact Nat.two_pos
      · exact Nat.one_pos
    omega

/-- **Every run ends**: no more than two moves for each file end, however they end.
Source: `libktorrent/torrent/movedatafilesjob.cpp`. Kind: P -/
theorem moves_le (moves : List (κ × κ)) {es : List MoveEvent}
    (h : Meets step (fun s e => e.index < s.job.running.length) (start moves) es) :
    es.length ≤ 2 * (files moves).card := by
  have hgen : ∀ (es : List MoveEvent) (s : Moving κ), Sound (files moves) s →
      Meets step (fun s e => e.index < s.job.running.length) s es →
      es.length ≤ weight s.job := by
    intro es
    induction es with
    | nil => exact fun _ _ _ => Nat.zero_le _
    | cons e es ih =>
      intro s hs hmeets
      have hlt := weight_step hs hmeets.1
      have hrest := ih (s.step e) (hs.step e) hmeets.2
      rw [List.length_cons]
      omega
  refine (hgen es _ (sound_start moves) h).trans ?_
  rw [start_eq, weight_startMoving, ← keySet_ready, SortedMap.card_keySet]
  exact (Nat.add_zero _).le

/-- Two files; the second move fails, and the first file is moved back.
Source: `libktorrent/torrent/movedatafilesjob.cpp`. Kind: L -/
theorem moves_le_two_files :
    [MoveEvent.done 0 true, .done 0 false, .done 0 true].length ≤
      2 * (files [(1, 11), (2, 12)]).card :=
  moves_le [(1, 11), (2, 12)] (by simp only [meets_cons, meets_nil]; decide)

end Moving

/-! ### The torrent that waits -/

/-- The part of the torrent that the moves of its files change. Source: `TorrentControl`. Kind: D -/
structure TorrentControl (κ : Type*) [LinearOrder κ] [Inhabited κ] where
  moving_files : Bool := false
  output_path : κ
  moving : Moving κ := { job := {} }

namespace TorrentControl

/-- Source: `TorrentControl::moveDataFilesJobDone`. Kind: D -/
def moveDataFilesJobDone (dest : κ) (tc : TorrentControl κ) (error : Option JobError) :
    TorrentControl κ :=
  { tc with
    output_path := if error = none then dest else tc.output_path
    moving_files := false }

/-- The torrent listens to the job it has started, so a result given at the start is not heard.
Source: `TorrentControl::changeOutputDir`. Kind: D -/
def changeOutputDir (tc : TorrentControl κ) (dest : κ) (moves : List (κ × κ)) : TorrentControl κ :=
  if tc.moving_files then tc
  else if tc.output_path = dest then tc
  else { tc with moving_files := true, moving := Moving.start moves }

/-- A move ends, and the torrent hears the results that are given. Kind: D -/
def step (dest : κ) (tc : TorrentControl κ) (e : MoveEvent) : TorrentControl κ :=
  ((tc.moving.step e).job.emitted.drop tc.moving.job.emitted.length).foldl
    (moveDataFilesJobDone dest) { tc with moving := tc.moving.step e }

variable {dest : κ}

/-- What a list of results does to the torrent. Source: `TorrentControl::moveDataFilesJobDone`.
Kind: L -/
theorem foldl_moveDataFilesJobDone (tc : TorrentControl κ) (l : List (Option JobError)) :
    l.foldl (moveDataFilesJobDone dest) tc =
      { tc with
        output_path := if none ∈ l then dest else tc.output_path
        moving_files := tc.moving_files && l.isEmpty } := by
  induction l generalizing tc with
  | nil => simp
  | cons e l ih =>
    rw [List.foldl_cons, ih]
    cases e with
    | none => simp [moveDataFilesJobDone]
    | some e => simp [moveDataFilesJobDone]

/-- Results are only added. Source: `libktorrent/torrent/movedatafilesjob.cpp`. Kind: L -/
theorem emitted_step (s : Moving κ) (e : MoveEvent) :
    s.job.emitted <+: (s.step e).job.emitted := by
  have hstart : ∀ j : MoveDataFilesJob κ, j.emitted <+: j.startMoving.emitted := by
    intro j
    unfold MoveDataFilesJob.startMoving
    split
    · exact List.prefix_append ..
    · exact List.prefix_rfl
  have hrecover : ∀ j : MoveDataFilesJob κ, j.emitted <+: j.recover.emitted := by
    intro j
    unfold MoveDataFilesJob.recover
    split
    · exact List.prefix_append ..
    · exact List.prefix_rfl
  have hdone : ∀ (j : MoveDataFilesJob κ) (error : Bool), j.emitted <+: (j.onJobDone error).emitted := by
    intro j error
    unfold MoveDataFilesJob.onJobDone
    cases error || j.err with
    | true => exact hrecover { j with m_error := _, err := true }
    | false =>
      exact hstart
        { j with
          success := j.success.put j.active_src j.active_dst
          active_src := default
          active_dst := default }
  have hsignal : ∀ j : MoveDataFilesJob κ, j.emitted <+: (Moving.signal j e).emitted := by
    intro j
    unfold Moving.signal
    split_ifs
    · exact List.prefix_rfl
    · cases e with
      | done i ok => exact hdone j _
      | canceled i =>
        exact (hrecover { j with m_error := _, err := true }).trans (hdone j.onCanceled true)
  unfold Moving.step
  split
  · exact List.prefix_rfl
  · exact hsignal (s.job.ended e.index)

/-- What the torrent has heard: the results given after the start. Kind: D -/
structure Heard (dest out : κ) (s₀ s : Moving κ) (tc : TorrentControl κ) : Prop where
  moving : tc.moving = s
  grown : s₀.job.emitted <+: s.job.emitted
  waits : tc.moving_files = (s.job.emitted.drop s₀.job.emitted.length).isEmpty
  path : tc.output_path = if none ∈ s.job.emitted.drop s₀.job.emitted.length then dest else out

/-- The step lemma. Source: `libktorrent/torrent/movedatafilesjob.cpp`. Kind: L -/
theorem Heard.step {out : κ} {s₀ s : Moving κ} {tc : TorrentControl κ} (h : Heard dest out s₀ s tc)
    (e : MoveEvent) : Heard dest out s₀ (s.step e) (tc.step dest e) := by
  obtain ⟨l, hl⟩ := emitted_step s e
  have hlen := h.grown.length_le
  have hdrop : (s.step e).job.emitted.drop s₀.job.emitted.length =
      s.job.emitted.drop s₀.job.emitted.length ++ l := by
    rw [← hl, List.drop_append_of_le_length hlen]
  have hstep : tc.step dest e =
      { tc with
        moving := s.step e
        output_path := if none ∈ l then dest else tc.output_path
        moving_files := tc.moving_files && l.isEmpty } := by
    rw [TorrentControl.step, h.moving, ← hl, List.drop_left, foldl_moveDataFilesJobDone]
  refine ⟨by rw [hstep], h.grown.trans ⟨l, hl⟩, ?_, ?_⟩
  · rw [hstep, hdrop]
    change (tc.moving_files && l.isEmpty) = _
    rw [h.waits, Bool.eq_iff_iff]
    simp
  · rw [hstep, hdrop, h.path]
    by_cases hn : none ∈ l <;> simp [hn]

/-- The torrent hears every result on a run. Source: `libktorrent/torrent/movedatafilesjob.cpp`.
Kind: L -/
theorem Heard.run {out : κ} {s₀ s : Moving κ} {tc : TorrentControl κ} (h : Heard dest out s₀ s tc)
    (es : List MoveEvent) :
    Heard dest out s₀ (Lib.run Moving.step s es) (Lib.run (TorrentControl.step dest) tc es) := by
  induction es generalizing s tc with
  | nil => exact h
  | cons e es ih => exact ih (h.step e)

/-- A job without files is done at once. Source: `libktorrent/torrent/movedatafilesjob.cpp`.
Kind: L -/
theorem emitted_start (moves : List (κ × κ)) :
    (Moving.start moves).job.emitted = if moves = [] then [none] else [] := by
  rw [Moving.start_eq]
  change (MoveDataFilesJob.startMoving (Moving.ready moves)).emitted = _
  have hkeys := Moving.keySet_ready moves
  unfold MoveDataFilesJob.startMoving
  split
  case h_1 hnil =>
    have hfiles : Moving.files moves = ∅ := by
      rw [← hkeys]
      simp [SortedMap.keySet, hnil]
    have hmoves : moves = [] := by simpa [Moving.files] using hfiles
    rw [if_pos hmoves]
    rfl
  case h_2 src dst rest hcons =>
    have hmoves : moves ≠ [] := by
      rintro rfl
      simp [Moving.ready, SortedMap.empty] at hcons
    rw [if_neg hmoves]
    rfl

/-- **Whom the torrent waits for.** After its files have been given to a job, the torrent waits
until the job gives a result, and it has the new path exactly when a result without an error has
been given; but a torrent of which no file is to be moved waits for ever.
Source: `TorrentControl::changeOutputDir`. Kind: P -/
theorem waits_iff (tc : TorrentControl κ) (dest : κ) (hfree : tc.moving_files = false)
    (hne : tc.output_path ≠ dest) (moves : List (κ × κ)) (es : List MoveEvent) :
    ((run (step dest) (tc.changeOutputDir dest moves) es).moving_files = true ↔
      moves = [] ∨ (run Moving.step (Moving.start moves) es).job.emitted = []) ∧
    ((run (step dest) (tc.changeOutputDir dest moves) es).output_path = dest ↔
      moves ≠ [] ∧ none ∈ (run Moving.step (Moving.start moves) es).job.emitted) := by
  have hchange : tc.changeOutputDir dest moves =
      { tc with moving_files := true, moving := Moving.start moves } := by
    rw [changeOutputDir, if_neg (by simp [hfree]), if_neg hne]
  have hheard : Heard dest tc.output_path (Moving.start moves) (Moving.start moves)
      (tc.changeOutputDir dest moves) := by
    rw [hchange]
    exact ⟨rfl, List.prefix_rfl, by simp, by simp⟩
  have hrun := hheard.run es
  have hstart := emitted_start moves
  by_cases hmoves : moves = []
  · -- the result is given at the start, and nothing can follow it
    have hstay : (run Moving.step (Moving.start moves) es).job.emitted = [none] := by
      have hnone : none ∈ (run Moving.step (Moving.start moves) es).job.emitted := by
        refine hrun.grown.mem ?_
        rw [hstart, if_pos hmoves]
        exact List.mem_singleton_self _
      exact ((Moving.moved_or_restored moves es).2.1 hnone).1
    have hdrop : (run Moving.step (Moving.start moves) es).job.emitted.drop
        (Moving.start moves).job.emitted.length = [] := by
      rw [hstay, hstart, if_pos hmoves]
      rfl
    rw [hrun.waits, hrun.path, hdrop]
    simp [hmoves, hne]
  · have hdrop : (run Moving.step (Moving.start moves) es).job.emitted.drop
        (Moving.start moves).job.emitted.length =
        (run Moving.step (Moving.start moves) es).job.emitted := by
      rw [hstart, if_neg hmoves]
      rfl
    rw [hrun.waits, hrun.path, hdrop]
    simp [hmoves, hne]

/-- Two files are moved one after the other, and the torrent has the new path; after the first of
them it still waits. Where no file is to be moved it waits too, and no move can end this.
Source: `TorrentControl::changeOutputDir`. Kind: L -/
theorem waits_iff_two_files :
    ((run (step 7) (changeOutputDir { output_path := 3 } 7 [(10, 11), (20, 21)])
        [.done 0 true]).moving_files = true ∧
      (run (step 7) (changeOutputDir { output_path := 3 } 7 [(10, 11), (20, 21)])
        [.done 0 true, .done 0 true]).moving_files = false ∧
      (run (step 7) (changeOutputDir { output_path := 3 } 7 [(10, 11), (20, 21)])
        [.done 0 true, .done 0 true]).output_path = 7) ∧
    (run (step 7) (changeOutputDir { output_path := 3 } 7 []) [.done 0 true]).moving_files = true := by
  have hall := waits_iff { output_path := 3 } 7 rfl (by decide) [(10, 11), (20, 21)]
  refine ⟨⟨(hall [.done 0 true]).1.mpr (.inr (by decide)), ?_,
      (hall [.done 0 true, .done 0 true]).2.mpr ⟨by decide, by decide⟩⟩,
    (waits_iff { output_path := 3 } 7 rfl (by decide) [] _).1.mpr (.inl rfl)⟩
  rw [← Bool.not_eq_true, (hall [.done 0 true, .done 0 true]).1]
  decide

end TorrentControl

end KTorrent.Storage
