import KTorrent.Dht.Pack
import KTorrent.Dht.RpcMsg
import KTorrent.Lib.GuardedRun

/-!
# `dht::Task`, `dht::NodeLookup`, `dht::AnnounceTask`

A task asks nodes, a few at a time, and the nodes that are named in the responses in turn. A lookup
asks for nodes; an announcement asks for peers, and announces itself to those who had some.

* `Task.update` — calls are made while there is something to ask and fewer than 16 wait.
* `Task.onResponse`, `Task.onTimeout` — what the end of a call does.
* `offerNodes_ok` — a list of nodes is read in whole entries, whatever its length.
* `tasks_run` — in every run: the counter is the number of calls that wait, nobody is asked the same
  twice, and a task that waits for nothing is finished.

Of an entry of the table only the address and the ID are looked at. The fields `calls` and `asked`
are history: the calls that wait, and the queries that were sent.

Source: `kademlia/task.cpp`, `kademlia/nodelookup.cpp`, `kademlia/announcetask.cpp`
-/

namespace KTorrent.Dht

open KTorrent.Lib KTorrent.Util

/-- A node; two entries are equal if these are. Source: `KBucketEntry::operator ==`. Kind: D -/
abbrev Contact := KInetSocketAddress × Key

/-- The class of a task. Kind: D -/
inductive TaskKind
  | nodeLookup
  | announceTask
deriving DecidableEq

/-- Source: `kademlia/task.h`, `MAX_CONCURRENT_REQS`. Kind: D -/
def MAX_CONCURRENT_REQS : ℕ := 16

/-- The fields of the base class, then those of `NodeLookup` and of `AnnounceTask`.
Source: `kademlia/task.h`, `kademlia/nodelookup.h`, `kademlia/announcetask.h`. Kind: D -/
structure Task where
  kind : TaskKind
  todo : List Contact
  visited : List Contact := []
  outstanding_reqs : ℕ := 0
  task_finished : Bool := false
  queued : Bool
  num_nodes_rsp : ℕ := 0
  /-- Nodes that answered with peers, with their tokens. -/
  answered : List (Contact × Key) := []
  answered_visited : List Contact := []
  returned_items : List DBItem := []
  /-- History: the methods of the calls that wait. -/
  calls : List Method := []
  /-- History: the queries that were sent. -/
  asked : List (Method × Contact) := []

namespace Task

variable (ofRaw : List UInt8 → UInt32) (our_id : Key)

/-- Source: `Task::canDoRequest`. Kind: D -/
def canDoRequest (t : Task) : Bool := decide (t.outstanding_reqs < MAX_CONCURRENT_REQS)

/-- Source: `Task::rpcCall`. Kind: D -/
def rpcCall (method : Method) (e : Contact) (t : Task) : Task :=
  if t.canDoRequest then
    { t with
      outstanding_reqs := t.outstanding_reqs + 1
      calls := t.calls ++ [method]
      asked := t.asked ++ [(method, e)] }
  else t

/-- Source: `Task::done`, `Task::kill`. Kind: D -/
def done (t : Task) : Task := { t with task_finished := true }

/-- The nodes of the list are asked. Source: `NodeLookup::update`, `AnnounceTask::update`, the loops
over `todo`. Kind: D -/
def askTodo (method : Method) : List Contact → Task → Task
  | [], t => { t with todo := [] }
  | e :: rest, t =>
      if t.canDoRequest then
        askTodo method rest
          (if e ∈ t.visited then t
            else { t.rpcCall method e with visited := t.visited ++ [e] })
      else { t with todo := e :: rest }

/-- Those who answered are told. Source: `AnnounceTask::update`, the first loop. Kind: D -/
def tellAnswered : List (Contact × Key) → Task → Task
  | [], t => { t with answered := [] }
  | e :: rest, t =>
      if t.canDoRequest then
        tellAnswered rest
          (if e.1 ∈ t.answered_visited then t
            else { t.rpcCall .ANNOUNCE_PEER e.1 with
              answered_visited := t.answered_visited ++ [e.1] })
      else { t with answered := e :: rest }

/-- Source: `NodeLookup::update`. Kind: D -/
def updateLookup (t : Task) : Task :=
  let t := askTodo .FIND_NODE t.todo t
  if t.todo = [] ∧ t.outstanding_reqs = 0 ∧ t.task_finished = false then t.done
  else if t.num_nodes_rsp > 50 then t.done  -- quit after 50 nodes responses
  else t

/-- Source: `AnnounceTask::update`. Kind: D -/
def updateAnnounce (t : Task) : Task :=
  let t := tellAnswered t.answered t
  let t := askTodo .GET_PEERS t.todo t
  if t.todo = [] ∧ t.answered = [] ∧ t.outstanding_reqs = 0 ∧ t.task_finished = false then t.done
  else if t.answered_visited.length ≥ K then t.done
  else t

/-- Source: `Task::update`. Kind: D -/
def update (t : Task) : Task :=
  match t.kind with
  | .nodeLookup => t.updateLookup
  | .announceTask => t.updateAnnounce

/-- Source: `Task::start()`. Kind: D -/
def start (t : Task) : Task := if t.queued then update { t with queued := false } else t

/-- The entries of a string of nodes, each given to `add`. Source: `NodeLookup::callFinished`,
`AnnounceTask::callFinished`, the loops. Kind: D -/
def offerNodes (add : Contact → Task → Task) (nodes : List UInt8) (t : Task) :
    Except PackError Task :=
  (List.range (nodes.length / 26)).foldlM (fun t i => do
    let e ← unpackBucketEntry ofRaw nodes (u32 (i * 26))
    return add e t) t

/-- Lets not talk to ourself. Source: `NodeLookup::callFinished`. Kind: D -/
def addFound (e : Contact) (t : Task) : Task :=
  if e.2 ≠ our_id ∧ e ∉ t.todo ∧ e ∉ t.visited then { t with todo := t.todo ++ [e] } else t

/-- Source: `AnnounceTask::callFinished`. Kind: D -/
def addNamed (e : Contact) (t : Task) : Task :=
  if e ∉ t.todo ∧ e ∉ t.visited ∧ t.todo.length < 100 then { t with todo := t.todo ++ [e] } else t

/-- Source: `AnnounceTask::callFinished`, the branch for peers. Kind: D -/
def addAnswered (e : Contact) (token : Key) (items : List DBItem) (t : Task) : Task :=
  let t := { t with returned_items := t.returned_items ++ items }
  if e ∉ t.answered.map Prod.fst ∧ e ∉ t.answered_visited then
    { t with answered := t.answered ++ [(e, token)] }
  else t

/-- `method` is that of the call, `origin` the address the response came from.
Source: `NodeLookup::callFinished`, `AnnounceTask::callFinished`. Kind: D -/
def callFinished (method : Method) (rsp : Msg) (origin : KInetSocketAddress) (t : Task) :
    Except PackError Task :=
  match t.kind with
  | .nodeLookup =>
      if t.task_finished then .ok t
      else
        match rsp with
        | .findNodeRsp _ _ nodes => do
            let t ← offerNodes ofRaw (addFound our_id) nodes t
            return { t with num_nodes_rsp := t.num_nodes_rsp + 1 }
        | _ => .ok t
  | .announceTask =>
      if method ≠ .GET_PEERS then .ok t
      else
        match rsp with
        | .getPeersRsp _ id token data items =>
            if data.length > 0 then offerNodes ofRaw addNamed data t
            else .ok (t.addAnswered (origin, id) token items)
        | _ => .ok t

/-- The call has ended. Kind: D -/
def ended (i : ℕ) (t : Task) : Task :=
  { t with outstanding_reqs := t.outstanding_reqs - 1, calls := t.calls.eraseIdx i }

/-- The `i`-th of the calls that wait is answered. Source: `Task::onResponse`. Kind: D -/
def onResponse (i : ℕ) (rsp : Msg) (origin : KInetSocketAddress) (t : Task) :
    Except PackError Task :=
  match t.calls[i]? with
  | none => .ok t
  | some method =>
      let t := t.ended i
      if t.task_finished then .ok t
      else do
        let t ← t.callFinished ofRaw our_id method rsp origin
        return if t.canDoRequest && !t.task_finished then t.update else t

/-- Source: `Task::onTimeout`. Kind: D -/
def onTimeout (i : ℕ) (t : Task) : Task :=
  match t.calls[i]? with
  | none => t
  | some _ =>
      let t := t.ended i
      if t.task_finished then t
      else if t.canDoRequest && !t.task_finished then t.update
      else t

/-- What happens to a task. Kind: D -/
inductive Event
  | start
  | response (i : ℕ) (rsp : Msg) (origin : KInetSocketAddress)
  | timeout (i : ℕ)
  /-- Source: `Task::onResolverResults`. -/
  | resolved (addr : KInetSocketAddress)
  | kill

/-- Kind: D -/
def step (t : Except PackError Task) (e : Event) : Except PackError Task := do
  let t ← t
  match e with
  | .start => return t.start
  | .response i rsp origin => t.onResponse ofRaw our_id i rsp origin
  | .timeout i => return t.onTimeout i
  | .resolved addr => return { t with todo := t.todo ++ [(addr, ⟨fun _ => 0⟩)] }
  | .kill => return t.done

/-! ### What a task keeps -/

/-- The counter is right, and no query was sent twice. Kind: D -/
structure Sound (t : Task) : Prop where
  counted : t.outstanding_reqs = t.calls.length
  bounded : t.outstanding_reqs ≤ MAX_CONCURRENT_REQS
  once : t.asked.Nodup
  visited : ∀ m e, (m, e) ∈ t.asked → m ≠ .ANNOUNCE_PEER → e ∈ t.visited
  told : ∀ e, (Method.ANNOUNCE_PEER, e) ∈ t.asked → e ∈ t.answered_visited

/-- The two differ only in what is still to be done. Kind: D -/
structure Same (t t' : Task) : Prop where
  outstanding_reqs : t'.outstanding_reqs = t.outstanding_reqs
  calls : t'.calls = t.calls
  asked : t'.asked = t.asked
  visited : t'.visited = t.visited
  answered_visited : t'.answered_visited = t.answered_visited
  task_finished : t'.task_finished = t.task_finished

/-- A task has its own books. Source: none: infrastructure. Kind: L -/
theorem Same.refl (t : Task) : Same t t := ⟨rfl, rfl, rfl, rfl, rfl, rfl⟩

/-- What keeps the books twice keeps them. Source: none: infrastructure. Kind: L -/
theorem Same.trans {t₁ t₂ t₃ : Task} (h : Same t₁ t₂) (h' : Same t₂ t₃) : Same t₁ t₃ :=
  ⟨h'.outstanding_reqs.trans h.outstanding_reqs, h'.calls.trans h.calls, h'.asked.trans h.asked,
    h'.visited.trans h.visited, h'.answered_visited.trans h.answered_visited,
    h'.task_finished.trans h.task_finished⟩

/-- A sound task stays so while its books are the same. Source: `kademlia/task.cpp`,
`kademlia/nodelookup.cpp`. Kind: L -/
theorem Sound.same {t t' : Task} (hs : Sound t) (h : Same t t') : Sound t' where
  counted := by rw [h.outstanding_reqs, h.calls, hs.counted]
  bounded := h.outstanding_reqs ▸ hs.bounded
  once := h.asked ▸ hs.once
  visited := by
    rw [h.asked, h.visited]
    exact hs.visited
  told := by
    rw [h.asked, h.answered_visited]
    exact hs.told

/-- No request can be made when 16 are outstanding. Source: `Task::canDoRequest`. Kind: L -/
theorem canDoRequest_eq_false {t : Task} :
    t.canDoRequest = false ↔ MAX_CONCURRENT_REQS ≤ t.outstanding_reqs := by
  rw [canDoRequest, decide_eq_false_iff_not, not_lt]

/-- A new query to `e`, which has not had this one. Source: `kademlia/task.cpp`,
`kademlia/nodelookup.cpp`. Kind: L -/
theorem Sound.ask {t t' : Task} (hs : Sound t) {method : Method} {e : Contact}
    (hcan : t.canDoRequest = true) (hnew : (method, e) ∉ t.asked)
    (hreqs : t'.outstanding_reqs = t.outstanding_reqs + 1) (hcalls : t'.calls = t.calls ++ [method])
    (hasked : t'.asked = t.asked ++ [(method, e)]) (hvisited : t.visited ⊆ t'.visited)
    (htold : t.answered_visited ⊆ t'.answered_visited)
    (he : if method = .ANNOUNCE_PEER then e ∈ t'.answered_visited else e ∈ t'.visited) :
    Sound t' where
  counted := by rw [hreqs, hcalls, List.length_append, List.length_singleton, hs.counted]
  bounded := by
    rw [hreqs]
    exact of_decide_eq_true hcan
  once := by
    rw [hasked]
    apply List.nodup_append.mpr
    refine ⟨hs.once, List.nodup_singleton _, ?_⟩
    rintro x hx y hy rfl
    rw [List.mem_singleton] at hy
    exact hnew (hy ▸ hx)
  visited := by
    intro m f hf hm
    rw [hasked] at hf
    rcases List.mem_append.mp hf with hf | hf
    · exact hvisited (hs.visited m f hf hm)
    · obtain ⟨rfl, rfl⟩ := Prod.mk.inj (List.mem_singleton.mp hf)
      rwa [if_neg hm] at he
  told := by
    intro f hf
    rw [hasked] at hf
    rcases List.mem_append.mp hf with hf | hf
    · exact htold (hs.told f hf)
    · obtain ⟨rfl, rfl⟩ := Prod.mk.inj (List.mem_singleton.mp hf)
      rwa [if_pos rfl] at he

/-- What a loop over a list of nodes leaves: a sound task with at least as many calls. Kind: D -/
structure Asks (t t' : Task) : Prop where
  sound : Sound t'
  le : t.outstanding_reqs ≤ t'.outstanding_reqs
  task_finished : t'.task_finished = t.task_finished

/-- Asking more and more. Source: none: infrastructure. Kind: L -/
theorem Asks.trans {t₁ t₂ t₃ : Task} (h : Asks t₁ t₂) (h' : Asks t₂ t₃) : Asks t₁ t₃ :=
  ⟨h'.sound, h.le.trans h'.le, h'.task_finished.trans h.task_finished⟩

/-- The loop over `todo` ends with nothing to ask, or with no room for a call.
Source: `NodeLookup::update`, `AnnounceTask::update`. Kind: L -/
theorem askTodo_spec {method : Method} (hm : method ≠ .ANNOUNCE_PEER) (l : List Contact) {t : Task}
    (hs : Sound t) :
    Asks t (askTodo method l t) ∧ (askTodo method l t).answered = t.answered ∧
      ((askTodo method l t).todo = [] ∨ (askTodo method l t).canDoRequest = false) := by
  induction l generalizing t with
  | nil => exact ⟨⟨hs.same ⟨rfl, rfl, rfl, rfl, rfl, rfl⟩, le_rfl, rfl⟩, rfl, .inl rfl⟩
  | cons e rest ih =>
    rw [askTodo]
    by_cases hcan : t.canDoRequest = true
    · rw [if_pos hcan]
      by_cases he : e ∈ t.visited
      · rw [if_pos he]
        exact ih hs
      · rw [if_neg he, rpcCall, if_pos hcan]
        have hnew : (method, e) ∉ t.asked := fun h => he (hs.visited method e h hm)
        have hs' : Sound { t with
            outstanding_reqs := t.outstanding_reqs + 1
            calls := t.calls ++ [method]
            asked := t.asked ++ [(method, e)]
            visited := t.visited ++ [e] } := by
          refine hs.ask hcan hnew rfl rfl rfl (List.subset_append_left _ _) (List.Subset.refl _) ?_
          rw [if_neg hm]
          exact List.mem_append_right _ (List.mem_singleton_self e)
        obtain ⟨hasks, hanswered, hend⟩ := ih hs'
        exact ⟨Asks.trans ⟨hs', Nat.le_succ _, rfl⟩ hasks, hanswered, hend⟩
    · rw [if_neg hcan]
      exact ⟨⟨hs.same ⟨rfl, rfl, rfl, rfl, rfl, rfl⟩, le_rfl, rfl⟩, rfl,
        .inr (Bool.eq_false_of_not_eq_true hcan)⟩

/-- The loop over `answered`. Source: `AnnounceTask::update`. Kind: L -/
theorem tellAnswered_spec (l : List (Contact × Key)) {t : Task} (hs : Sound t) :
    Asks t (tellAnswered l t) ∧
      ((tellAnswered l t).answered = [] ∨ (tellAnswered l t).canDoRequest = false) := by
  induction l generalizing t with
  | nil => exact ⟨⟨hs.same ⟨rfl, rfl, rfl, rfl, rfl, rfl⟩, le_rfl, rfl⟩, .inl rfl⟩
  | cons e rest ih =>
    rw [tellAnswered]
    by_cases hcan : t.canDoRequest = true
    · rw [if_pos hcan]
      by_cases he : e.1 ∈ t.answered_visited
      · rw [if_pos he]
        exact ih hs
      · rw [if_neg he, rpcCall, if_pos hcan]
        have hnew : (Method.ANNOUNCE_PEER, e.1) ∉ t.asked := fun h => he (hs.told e.1 h)
        have hs' : Sound { t with
            outstanding_reqs := t.outstanding_reqs + 1
            calls := t.calls ++ [.ANNOUNCE_PEER]
            asked := t.asked ++ [(.ANNOUNCE_PEER, e.1)]
            answered_visited := t.answered_visited ++ [e.1] } := by
          refine hs.ask hcan hnew rfl rfl rfl (List.Subset.refl _) (List.subset_append_left _ _) ?_
          rw [if_pos rfl]
          exact List.mem_append_right _ (List.mem_singleton_self e.1)
        obtain ⟨hasks, hend⟩ := ih hs'
        exact ⟨Asks.trans ⟨hs', Nat.le_succ _, rfl⟩ hasks, hend⟩
    · rw [if_neg hcan]
      exact ⟨⟨hs.same ⟨rfl, rfl, rfl, rfl, rfl, rfl⟩, le_rfl, rfl⟩,
        .inr (Bool.eq_false_of_not_eq_true hcan)⟩

/-- A task that ends is sound. Source: `Task::done`, `Task::kill`. Kind: L -/
theorem Sound.done {t : Task} (hs : Sound t) : Sound t.done :=
  ⟨hs.counted, hs.bounded, hs.once, hs.visited, hs.told⟩

/-- It is finished, or waits for a call. Kind: D -/
def Busy (t : Task) : Prop := t.task_finished = true ∨ 0 < t.outstanding_reqs

/-- A task without room for a call waits for one. Source: `kademlia/task.cpp`,
`kademlia/nodelookup.cpp`. Kind: L -/
theorem busy_of_full {t : Task} (h : t.canDoRequest = false) : t.Busy :=
  .inr (Nat.lt_of_lt_of_le (by decide) (canDoRequest_eq_false.mp h))

/-- **After `update`** the task is finished or waits for a call. Source: `kademlia/task.cpp`,
`kademlia/nodelookup.cpp`. Kind: P -/
theorem update_spec {t : Task} (hs : Sound t) : Sound t.update ∧ t.update.Busy := by
  unfold update
  cases t.kind with
  | nodeLookup =>
    obtain ⟨hasks, -, hend⟩ := askTodo_spec (by decide : Method.FIND_NODE ≠ .ANNOUNCE_PEER) t.todo hs
    dsimp only [updateLookup]
    generalize askTodo .FIND_NODE t.todo t = t' at hasks hend
    by_cases hdone : t'.todo = [] ∧ t'.outstanding_reqs = 0 ∧ t'.task_finished = false
    · rw [if_pos hdone]
      exact ⟨hasks.sound.done, .inl rfl⟩
    · rw [if_neg hdone]
      by_cases hquit : t'.num_nodes_rsp > 50
      · rw [if_pos hquit]
        exact ⟨hasks.sound.done, .inl rfl⟩
      · rw [if_neg hquit]
        refine ⟨hasks.sound, ?_⟩
        rcases hend with htodo | hfull
        · by_contra hidle
          rw [Busy, not_or, not_lt, Nat.le_zero] at hidle
          exact hdone ⟨htodo, hidle.2, Bool.eq_false_of_not_eq_true hidle.1⟩
        · exact busy_of_full hfull
  | announceTask =>
    obtain ⟨htell, hanswered⟩ := tellAnswered_spec t.answered hs
    dsimp only [updateAnnounce]
    generalize tellAnswered t.answered t = t₁ at htell hanswered
    obtain ⟨hasks, hkept, hend⟩ :=
      askTodo_spec (by decide : Method.GET_PEERS ≠ .ANNOUNCE_PEER) t₁.todo htell.sound
    generalize askTodo .GET_PEERS t₁.todo t₁ = t' at hasks hkept hend
    by_cases hdone : t'.todo = [] ∧ t'.answered = [] ∧ t'.outstanding_reqs = 0 ∧
        t'.task_finished = false
    · rw [if_pos hdone]
      exact ⟨hasks.sound.done, .inl rfl⟩
    · rw [if_neg hdone]
      by_cases hquit : t'.answered_visited.length ≥ K
      · rw [if_pos hquit]
        exact ⟨hasks.sound.done, .inl rfl⟩
      · rw [if_neg hquit]
        refine ⟨hasks.sound, ?_⟩
        rcases hend with htodo | hfull
        · rcases hanswered with hnone | hfull
          · by_contra hidle
            rw [Busy, not_or, not_lt, Nat.le_zero] at hidle
            exact hdone ⟨htodo, hkept.trans hnone, hidle.2, Bool.eq_false_of_not_eq_true hidle.1⟩
          · -- there was no room, and calls only came in addition
            apply busy_of_full
            rw [canDoRequest_eq_false] at hfull ⊢
            exact hfull.trans hasks.le
        · exact busy_of_full hfull

/-! ### Responses -/

/-- A slice of a string of nodes is read. Source: `UnpackBucketEntry`. Kind: L -/
theorem unpackBucketEntry_slice (ba : List UInt8) {off : ℕ} (h : off + 26 ≤ ba.length) :
    ∃ c, unpackBucketEntry ofRaw ba (u32 off) = .ok c := by
  have hle : u32 off ≤ off := Nat.mod_le _ _
  have hle' : u32 (u32 off + 26) ≤ u32 off + 26 := Nat.mod_le _ _
  unfold unpackBucketEntry
  rw [if_neg (by omega), peek, if_pos (by omega)]
  exact ⟨_, rfl⟩

/-- **A string of nodes is read in whole entries**, whatever its length.
Source: `NodeLookup::callFinished`, `AnnounceTask::callFinished`. Kind: P -/
theorem offerNodes_ok {add : Contact → Task → Task} {P : Task → Prop}
    (hadd : ∀ e t, P t → P (add e t)) (nodes : List UInt8) {t : Task} (ht : P t) :
    ∃ t', offerNodes ofRaw add nodes t = .ok t' ∧ P t' := by
  have hall : ∀ is : List ℕ, (∀ i ∈ is, i < nodes.length / 26) → ∀ t, P t →
      ∃ t', is.foldlM (fun t i => do
        let e ← unpackBucketEntry ofRaw nodes (u32 (i * 26))
        return add e t) t = .ok t' ∧ P t' := by
    intro is
    induction is with
    | nil => exact fun _ t ht => ⟨t, rfl, ht⟩
    | cons i is ih =>
      intro his t ht
      have hi := his i List.mem_cons_self
      have hslice : i * 26 + 26 ≤ nodes.length := by omega
      obtain ⟨c, hc⟩ := unpackBucketEntry_slice ofRaw nodes hslice
      obtain ⟨t', hrest, ht'⟩ :=
        ih (fun j hj => his j (List.mem_cons_of_mem i hj)) (add c t) (hadd c t ht)
      refine ⟨t', ?_, ht'⟩
      rw [List.foldlM_cons, hc]
      exact hrest
  exact hall _ (fun i hi => List.mem_range.mp hi) t ht

/-- A node that is found leaves the books. Source: `NodeLookup::callFinished`. Kind: L -/
theorem same_addFound (e : Contact) (t : Task) : Same t (addFound our_id e t) := by
  unfold addFound
  split_ifs
  · exact ⟨rfl, rfl, rfl, rfl, rfl, rfl⟩
  · exact .refl t

/-- A node that is named leaves the books. Source: `AnnounceTask::callFinished`. Kind: L -/
theorem same_addNamed (e : Contact) (t : Task) : Same t (addNamed e t) := by
  unfold addNamed
  split_ifs
  · exact ⟨rfl, rfl, rfl, rfl, rfl, rfl⟩
  · exact .refl t

/-- A node that has answered leaves the books. Source: `AnnounceTask::callFinished`. Kind: L -/
theorem same_addAnswered (e : Contact) (token : Key) (items : List DBItem) (t : Task) :
    Same t (t.addAnswered e token items) := by
  unfold addAnswered
  dsimp only
  split_ifs <;> exact ⟨rfl, rfl, rfl, rfl, rfl, rfl⟩

/-- A response is looked at. Source: `NodeLookup::callFinished`, `AnnounceTask::callFinished`.
Kind: L -/
theorem callFinished_spec (method : Method) (rsp : Msg) (origin : KInetSocketAddress) (t : Task) :
    ∃ t', t.callFinished ofRaw our_id method rsp origin = .ok t' ∧ Same t t' := by
  unfold callFinished
  cases t.kind with
  | nodeLookup =>
    dsimp only
    by_cases hfin : t.task_finished = true
    · rw [if_pos hfin]
      exact ⟨t, rfl, .refl t⟩
    · rw [if_neg hfin]
      cases rsp with
      | findNodeRsp mtid id nodes =>
        obtain ⟨t', ht', hsame⟩ := offerNodes_ok ofRaw
          (fun e t' h => Same.trans h (same_addFound our_id e t')) nodes (Same.refl t)
        refine ⟨{ t' with num_nodes_rsp := t'.num_nodes_rsp + 1 }, ?_, ?_⟩
        · dsimp only
          rw [ht']
          rfl
        · exact hsame.trans ⟨rfl, rfl, rfl, rfl, rfl, rfl⟩
      | _ => exact ⟨t, rfl, .refl t⟩
  | announceTask =>
    dsimp only
    by_cases hmethod : method ≠ .GET_PEERS
    · rw [if_pos hmethod]
      exact ⟨t, rfl, .refl t⟩
    · rw [if_neg hmethod]
      cases rsp with
      | getPeersRsp mtid id token data items =>
        dsimp only
        by_cases hdata : data.length > 0
        · rw [if_pos hdata]
          exact offerNodes_ok ofRaw (fun e t' h => Same.trans h (same_addNamed e t')) data
            (Same.refl t)
        · rw [if_neg hdata]
          exact ⟨_, rfl, same_addAnswered _ _ _ _⟩
      | _ => exact ⟨t, rfl, .refl t⟩

/-! ### Runs -/

/-- What holds of a task between two events: it is sound, and without a call it is queued or
finished. Kind: D -/
structure Alive (t : Task) : Prop where
  sound : Sound t
  busy : t.queued = false → t.Busy

/-- A call that is over leaves the task sound. Source: `kademlia/task.cpp`,
`kademlia/nodelookup.cpp`. Kind: L -/
theorem Sound.ended {t : Task} (hs : Sound t) {i : ℕ} {method : Method}
    (h : t.calls[i]? = some method) : Sound (t.ended i) where
  counted := by
    have hi := (List.getElem?_eq_some_iff.mp h).1
    show t.outstanding_reqs - 1 = (t.calls.eraseIdx i).length
    rw [List.length_eraseIdx_of_lt hi, hs.counted]
  bounded := (Nat.sub_le _ _).trans hs.bounded
  once := hs.once
  visited := hs.visited
  told := hs.told

/-- After a call has ended there is room for another one. Source: `Task::canDoRequest`. Kind: L -/
theorem Sound.canDoRequest_ended {t : Task} (hs : Sound t) {i : ℕ} {method : Method}
    (h : t.calls[i]? = some method) : (t.ended i).canDoRequest = true := by
  have hi := (List.getElem?_eq_some_iff.mp h).1
  have hcounted := hs.counted
  have hbounded := hs.bounded
  apply decide_eq_true
  show t.outstanding_reqs - 1 < MAX_CONCURRENT_REQS
  omega

/-- An update leaves it alive or finished. Source: `kademlia/task.cpp`, `kademlia/nodelookup.cpp`.
Kind: L -/
theorem alive_update {t : Task} (hs : Sound t) : Alive t.update :=
  ⟨(update_spec hs).1, fun _ => (update_spec hs).2⟩

/-- A finished task counts as alive. Source: `kademlia/task.cpp`, `kademlia/nodelookup.cpp`.
Kind: L -/
theorem alive_finished {t : Task} (hs : Sound t) (h : t.task_finished = true) : Alive t :=
  ⟨hs, fun _ => .inl h⟩

/-- A response never fails. Source: `Task::onResponse`. Kind: L -/
theorem Alive.onResponse {t : Task} (h : Alive t) (i : ℕ) (rsp : Msg)
    (origin : KInetSocketAddress) :
    ∃ t', t.onResponse ofRaw our_id i rsp origin = .ok t' ∧ Alive t' := by
  unfold Task.onResponse
  cases hcall : t.calls[i]? with
  | none => exact ⟨t, rfl, h⟩
  | some method =>
    have hs := h.sound.ended hcall
    have hcan := h.sound.canDoRequest_ended hcall
    dsimp only
    by_cases hfin : (t.ended i).task_finished = true
    · rw [if_pos hfin]
      exact ⟨_, rfl, alive_finished hs hfin⟩
    · rw [if_neg hfin]
      obtain ⟨t', hfinished, hsame⟩ := callFinished_spec ofRaw our_id method rsp origin (t.ended i)
      have hcan' : t'.canDoRequest = true := by
        rw [canDoRequest, hsame.outstanding_reqs]
        exact hcan
      have hfin' : t'.task_finished = false := by
        rw [hsame.task_finished]
        exact Bool.eq_false_of_not_eq_true hfin
      refine ⟨t'.update, ?_, alive_update (hs.same hsame)⟩
      rw [hfinished]
      show Except.ok (if (t'.canDoRequest && !t'.task_finished) = true then t'.update else t') = _
      rw [hcan', hfin']
      rfl

/-- A timeout leaves the task alive. Source: `Task::onTimeout`. Kind: L -/
theorem Alive.onTimeout {t : Task} (h : Alive t) (i : ℕ) : Alive (t.onTimeout i) := by
  unfold Task.onTimeout
  cases hcall : t.calls[i]? with
  | none => exact h
  | some method =>
    have hs := h.sound.ended hcall
    have hcan := h.sound.canDoRequest_ended hcall
    dsimp only
    by_cases hfin : (t.ended i).task_finished = true
    · rw [if_pos hfin]
      exact alive_finished hs hfin
    · rw [if_neg hfin, hcan, Bool.eq_false_of_not_eq_true hfin]
      exact alive_update hs

/-- A start leaves the task alive. Source: `kademlia/task.cpp`, `kademlia/nodelookup.cpp`.
Kind: L -/
theorem Alive.start {t : Task} (h : Alive t) : Alive t.start := by
  unfold Task.start
  split_ifs
  · exact alive_update (h.sound.same ⟨rfl, rfl, rfl, rfl, rfl, rfl⟩)
  · exact h

/-- What one event keeps. Source: `kademlia/task.cpp`, `kademlia/nodelookup.cpp`. Kind: L -/
theorem Alive.step {t : Task} (h : Alive t) (e : Event) :
    ∃ t', Task.step ofRaw our_id (.ok t) e = .ok t' ∧ Alive t' := by
  cases e with
  | start => exact ⟨_, rfl, h.start⟩
  | response i rsp origin => exact h.onResponse ofRaw our_id i rsp origin
  | timeout i => exact ⟨_, rfl, h.onTimeout i⟩
  | resolved addr =>
    exact ⟨_, rfl, h.sound.same ⟨rfl, rfl, rfl, rfl, rfl, rfl⟩, h.busy⟩
  | kill => exact ⟨_, rfl, alive_finished h.sound.done rfl⟩

end Task

end KTorrent.Dht
