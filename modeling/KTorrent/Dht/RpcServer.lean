import KTorrent.Dht.RpcMsg
import KTorrent.Lib.GuardedRun
import KTorrent.Lib.While

/-!
# `dht::RPCServer`

Calls wait for their responses under transaction IDs of one byte; when all 256 are taken, further
calls are queued. A response or a timeout frees an ID, after those who listen made calls of their own.

* `doCall`, `doQueuedCalls` — the two places an ID is allocated, each with a loop around a counter
  that wraps.
* `readPacket`, `onTimeout` — the two places one is freed.
* `findFree_spec`, `nextFree_spec` — the loops end; they find a free ID if there is one.
* `History` — what the events of a run ask for: the calls, and those that end.
* `calls_run` — in every run each call that was asked for is in one place, and calls are queued only
  while all IDs are taken.

Calls are numbered in the order they are made; `answered` and `expired` note who was told of what.

Source: `kademlia/rpcserver.h`, `kademlia/rpcserver.cpp`, `kademlia/rpccall.cpp`
-/

namespace KTorrent.Dht

open KTorrent.Lib

/-- Source: `kademlia/rpccall.h`, `RPCCall`, with the method and the ID of its request. Kind: D -/
structure RPCCall where
  serial : ℕ
  method : Method
  mtid : UInt8
  queued : Bool

/-- A loop that does not end. Kind: D -/
inductive Stuck
  | endless
deriving DecidableEq

/-- Source: `kademlia/rpcserver.h`, `RPCServer`. Kind: D -/
structure RPCServer where
  calls : UInt8 → Option RPCCall := fun _ => none
  call_queue : List RPCCall := []
  next_mtid : UInt8 := 0
  /-- The number of the next call. -/
  submitted : ℕ := 0
  /-- The responses that were given to a call, by their IDs, each with the call. -/
  answered : List (UInt8 × ℕ) := []
  /-- The calls whose timeout was handled. -/
  expired : List ℕ := []

namespace RPCServer

/-- The transaction IDs. Kind: D -/
def ids : List UInt8 := (List.range 256).map UInt8.ofNat

/-- Source: `bt::PtrMap::contains`. Kind: D -/
def contains (s : RPCServer) (mtid : UInt8) : Bool := (s.calls mtid).isSome

/-- Source: `bt::PtrMap::count`. Kind: D -/
def count (s : RPCServer) : ℕ := (ids.filter s.contains).length

/-- The first component is `next_mtid`, the second says that the search came back to where it began.
Source: `RPCServer::doCall`, the loop. Kind: D -/
def findFree (s : RPCServer) : Except Stuck (UInt8 × Bool) :=
  whileM (fun q : UInt8 × Bool => s.contains q.1 = true ∧ q.2 = false)
    (fun q => .ok (q.1 + 1, decide (q.1 + 1 = s.next_mtid))) .endless 257 (s.next_mtid, false)

/-- Source: `RPCServer::doCall`. Kind: D -/
def doCall (s : RPCServer) (method : Method) : Except Stuck RPCServer := do
  let (next, full) ← s.findFree
  return if full then
    -- so queue the call
    { s with
      next_mtid := next
      call_queue := s.call_queue ++ [⟨s.submitted, method, 0, true⟩]
      submitted := s.submitted + 1 }
  else
    { s with
      next_mtid := next + 1
      calls := Function.update s.calls next (some ⟨s.submitted, method, next, false⟩)
      submitted := s.submitted + 1 }

/-- Source: `RPCServer::doQueuedCalls`, the inner loop. Kind: D -/
def nextFree (s : RPCServer) : Except Stuck UInt8 :=
  whileM (fun n => s.contains n = true) (fun n => .ok (n + 1)) .endless 256 s.next_mtid

/-- The first call of the queue is made. Source: `RPCServer::doQueuedCalls`, the body. Kind: D -/
def doQueued (s : RPCServer) : Except Stuck RPCServer :=
  match s.call_queue with
  | [] => .ok s
  | c :: rest => do
      let next ← s.nextFree
      return { s with
        call_queue := rest
        next_mtid := next + 1
        calls := Function.update s.calls next (some { c with mtid := next, queued := false }) }

/-- Source: `RPCServer::doQueuedCalls`. Kind: D -/
def doQueuedCalls (s : RPCServer) : Except Stuck RPCServer :=
  whileM (fun s : RPCServer => 0 < s.call_queue.length ∧ s.count < 256) doQueued .endless
    (s.call_queue.length + 1) s

/-- Calls that are made while an event is handled. Kind: D -/
def doCalls (methods : List Method) (s : RPCServer) : Except Stuck RPCServer :=
  methods.foldlM doCall s

/-- Source: `bt::PtrMap::erase`. Kind: D -/
def erase (mtid : UInt8) (s : RPCServer) : RPCServer :=
  { s with calls := Function.update s.calls mtid none }

/-- A response with this ID: `applied` are the calls the table makes, `heard` those of the listeners
of the call. Without a call under the ID there is no message. Source: `RPCServer::readPacket`.
Kind: D -/
def response (mtid : UInt8) (applied heard : List Method) (s : RPCServer) :
    Except Stuck RPCServer :=
  if s.contains mtid then do
    let s ← s.doCalls applied
    match s.calls mtid with
    | none => return s
    | some c =>
        let s ← s.doCalls heard
        doQueuedCalls (erase mtid { s with answered := s.answered ++ [(mtid, c.serial)] })
  else .ok s

/-- `told` are the calls the table makes. Source: `RPCServer::timedOut`. Kind: D -/
def timedOut (mtid : UInt8) (told : List Method) (s : RPCServer) : Except Stuck RPCServer := do
  match s.calls mtid with
  | none => doQueuedCalls s
  | some c =>
      let s ← s.doCalls told
      doQueuedCalls (erase mtid { s with expired := s.expired ++ [c.serial] })

/-- The timer of the call with this ID; only a call that waits has one. Source: `RPCCall::onTimeout`.
Kind: D -/
def onTimeout (mtid : UInt8) (heard told : List Method) (s : RPCServer) : Except Stuck RPCServer :=
  if s.contains mtid then do
    let s ← s.doCalls heard
    s.timedOut mtid told
  else .ok s

/-- What happens: a call is made; a packet comes that is not a response, or an error message, and the
table makes calls; a response comes; a call times out. Kind: D -/
inductive Event
  | doCall (method : Method)
  | packet (applied : List Method)
  | response (mtid : UInt8) (applied heard : List Method)
  | timeout (mtid : UInt8) (heard told : List Method)

/-- Kind: D -/
def step (s : Except Stuck RPCServer) (e : Event) : Except Stuck RPCServer := do
  let s ← s
  match e with
  | .doCall method => s.doCall method
  | .packet applied => s.doCalls applied
  | .response mtid applied heard => s.response mtid applied heard
  | .timeout mtid heard told => s.onTimeout mtid heard told

/-- What the events ask for: the calls to be made, in their order; the responses that come for a call
that waits, each with that call; and the calls that time out. Kind: D -/
structure History where
  made : List Method := []
  answered : List (UInt8 × ℕ) := []
  expired : List ℕ := []

/-- More calls are asked for. Kind: D -/
def History.make (h : History) (methods : List Method) : History := { h with made := h.made ++ methods }

/-- What an event asks for in the state it finds. Kind: D -/
def History.next (h : History) (s : RPCServer) : Event → History
  | .doCall method => h.make [method]
  | .packet applied => h.make applied
  | .response mtid applied heard =>
    match s.calls mtid with
    | none => h
    | some c => { (h.make applied).make heard with answered := h.answered ++ [(mtid, c.serial)] }
  | .timeout mtid heard told =>
    match s.calls mtid with
    | none => h
    | some c => { (h.make heard).make told with expired := h.expired ++ [c.serial] }

/-- The server and what was asked of it. Kind: D -/
def stepWith (p : Except Stuck RPCServer × History) (e : Event) : Except Stuck RPCServer × History :=
  (step p.1 e, match p.1 with
    | .error _ => p.2
    | .ok s => p.2.next s e)

/-- What a run asks for. Kind: D -/
def history (events : List Event) : History := (run stepWith (.ok {}, {}) events).2

/-! ### The IDs -/

/-- Every byte is an id. Source: `kademlia/rpcserver.h`, `kademlia/rpcserver.cpp`. Kind: L -/
theorem mem_ids (k : UInt8) : k ∈ ids :=
  List.mem_map.mpr ⟨k.toNat, List.mem_range.mpr k.toNat_lt, UInt8.ofNat_toNat⟩

/-- No id is listed twice. Source: `kademlia/rpcserver.h`, `kademlia/rpcserver.cpp`. Kind: L -/
theorem nodup_ids : ids.Nodup := by
  apply List.Nodup.map_on _ List.nodup_range
  intro i hi j hj h
  have hto := congrArg UInt8.toNat h
  rwa [UInt8.toNat_ofNat_of_lt' (List.mem_range.mp hi),
    UInt8.toNat_ofNat_of_lt' (List.mem_range.mp hj)] at hto

/-- There are at most 256 calls. Source: `kademlia/rpcserver.h`, `kademlia/rpcserver.cpp`.
Kind: L -/
theorem count_le (s : RPCServer) : s.count ≤ 256 := by
  have hlen : ids.length = 256 := by rw [ids, List.length_map, List.length_range]
  rw [← hlen]
  exact List.length_filter_le _ _

/-- All IDs are taken. Source: `bt::PtrMap::contains`. Kind: L -/
theorem count_eq_iff (s : RPCServer) : s.count = 256 ↔ ∀ k, s.contains k = true := by
  have hlen : ids.length = 256 := by rw [ids, List.length_map, List.length_range]
  rw [count, ← hlen, List.length_filter_eq_length_iff]
  exact ⟨fun h k => h k (mem_ids k), fun h k _ => h k⟩

/-- The calls that wait for a response. Kind: D -/
def active (s : RPCServer) : List ℕ := ids.filterMap fun k => (s.calls k).map RPCCall.serial

/-- A call under a free ID. Source: `kademlia/rpcserver.h`, `kademlia/rpcserver.cpp`. Kind: L -/
theorem active_insert {s s' : RPCServer} {k : UInt8} {c : RPCCall} (hk : s.calls k = none)
    (h : s'.calls = Function.update s.calls k (some c)) : s'.active.Perm (c.serial :: s.active) := by
  obtain ⟨l, r, hids⟩ := List.append_of_mem (mem_ids k)
  have hnodup := nodup_ids
  rw [hids, List.nodup_append, List.nodup_cons] at hnodup
  obtain ⟨-, ⟨hr, -⟩, hl⟩ := hnodup
  have hsame : ∀ js : List UInt8, k ∉ js →
      js.filterMap (fun j => (s'.calls j).map RPCCall.serial) =
        js.filterMap fun j => (s.calls j).map RPCCall.serial := by
    intro js hjs
    apply List.filterMap_congr
    intro j hj
    rw [h, Function.update_of_ne]
    rintro rfl
    exact hjs hj
  have hk' : s'.calls k = some c := by rw [h, Function.update_self]
  unfold active
  rw [hids, List.filterMap_append, List.filterMap_append, List.filterMap_cons, List.filterMap_cons,
    hk, hk', hsame l (fun hmem => hl k hmem k List.mem_cons_self rfl), hsame r hr]
  exact List.perm_middle

/-- A call that is taken away. Source: `kademlia/rpcserver.h`, `kademlia/rpcserver.cpp`. Kind: L -/
theorem active_erase {s : RPCServer} {k : UInt8} {c : RPCCall} (hk : s.calls k = some c) :
    s.active.Perm (c.serial :: (s.erase k).active) := by
  apply active_insert (k := k)
  · exact Function.update_self _ _ _
  · rw [erase, Function.update_idem, ← hk, Function.update_eq_self]

/-! ### The loops -/

/-- The way from one ID to another, upwards. Source: `kademlia/rpcserver.h`,
`kademlia/rpcserver.cpp`. Kind: L -/
theorem toNat_ahead (a b : UInt8) : (b - a).toNat = (b.toNat + 256 - a.toNat) % 256 := by
  have ha := a.toNat_lt
  rw [UInt8.toNat_sub]
  omega

/-- The next id, which wraps after 255. Source: `kademlia/rpcserver.h`, `kademlia/rpcserver.cpp`.
Kind: L -/
theorem toNat_next (n : UInt8) : (n + 1).toNat = (n.toNat + 1) % 256 := UInt8.toNat_add n 1

/-- One step towards another ID. Source: `kademlia/rpcserver.h`, `kademlia/rpcserver.cpp`.
Kind: L -/
theorem ahead_next {f n : UInt8} (h : n ≠ f) : (f - (n + 1)).toNat < (f - n).toNat := by
  have hne : n.toNat ≠ f.toNat := fun heq => h (UInt8.toNat_inj.mp heq)
  have hn := n.toNat_lt
  have hf := f.toNat_lt
  rw [toNat_ahead, toNat_ahead, toNat_next]
  omega

/-- What lies behind `n + 1` is `n` or lies behind `n`. Source: `kademlia/rpcserver.h`,
`kademlia/rpcserver.cpp`. Kind: L -/
theorem behind_next {start n k : UInt8} (h : (k - start).toNat < (n + 1 - start).toNat ∨
    n + 1 = start) : k = n ∨ (k - start).toNat < (n - start).toNat := by
  by_contra hno
  rw [not_or] at hno
  have hne : k.toNat ≠ n.toNat := fun heq => hno.1 (UInt8.toNat_inj.mp heq)
  have hk := k.toNat_lt
  have hn := n.toNat_lt
  have hs := start.toNat_lt
  have hback := hno.2
  rw [toNat_ahead, toNat_ahead] at hback
  rcases h with h | h
  · rw [toNat_ahead, toNat_ahead, toNat_next] at h
    omega
  · have hstart := toNat_next n
    rw [h] at hstart
    omega

/-- The IDs that the search of `doCall` has passed are taken. Kind: D -/
structure Searched (s : RPCServer) (q : UInt8 × Bool) : Prop where
  full : q.2 = true → q.1 = s.next_mtid ∧ ∀ k, s.contains k = true
  behind : q.2 = false → ∀ k, (k - s.next_mtid).toNat < (q.1 - s.next_mtid).toNat →
    s.contains k = true

/-- How many IDs are still to be looked at. Kind: D -/
def toSearch (s : RPCServer) (q : UInt8 × Bool) : ℕ :=
  if q.2 = true then 0 else (s.next_mtid - (q.1 + 1)).toNat + 1

/-- One round of the search. Source: `kademlia/rpcserver.h`, `kademlia/rpcserver.cpp`. Kind: L -/
theorem Searched.next {s : RPCServer} {n : UInt8} {full : Bool} (h : Searched s (n, full))
    (hn : s.contains n = true) (hfull : full = false) :
    Searched s (n + 1, decide (n + 1 = s.next_mtid)) ∧
      s.toSearch (n + 1, decide (n + 1 = s.next_mtid)) < s.toSearch (n, full) := by
  refine ⟨⟨fun hback => ?_, fun _ k hk => ?_⟩, ?_⟩
  · have hstart : n + 1 = s.next_mtid := of_decide_eq_true hback
    refine ⟨hstart, fun k => ?_⟩
    rcases behind_next (k := k) (.inr hstart) with rfl | hk
    · exact hn
    · exact h.behind hfull k hk
  · rcases behind_next (.inl hk) with rfl | hk
    · exact hn
    · exact h.behind hfull k hk
  · unfold toSearch
    rw [if_neg (show ¬ full = true by rw [hfull]; exact Bool.false_ne_true)]
    split_ifs with hback
    · exact Nat.succ_pos _
    · have hne : n + 1 ≠ s.next_mtid := fun heq => hback (decide_eq_true heq)
      exact Nat.add_lt_add_right (ahead_next hne) 1

/-- **The search of `doCall` ends**, at a free ID, or where it began if there is none.
Source: `RPCServer::doCall`. Kind: P -/
theorem findFree_spec (s : RPCServer) :
    ∃ next full, s.findFree = .ok (next, full) ∧
      (full = true → next = s.next_mtid ∧ ∀ k, s.contains k = true) ∧
      (full = false → s.calls next = none) := by
  have hstart : Searched s (s.next_mtid, false) := by
    refine ⟨(fun h => nomatch h), fun _ k hk => ?_⟩
    rw [toNat_ahead s.next_mtid s.next_mtid] at hk
    omega
  have hrounds : s.toSearch (s.next_mtid, false) < 257 := by
    have hlt := (s.next_mtid - (s.next_mtid + 1)).toNat_lt
    show (s.next_mtid - (s.next_mtid + 1)).toNat + 1 < 257
    omega
  have hround : ∀ q : UInt8 × Bool, Searched s q → s.contains q.1 = true ∧ q.2 = false →
      ∃ q', Except.ok (ε := Stuck) (q.1 + 1, decide (q.1 + 1 = s.next_mtid)) = .ok q' ∧
        Searched s q' ∧ s.toSearch q' < s.toSearch q :=
    fun _ h hq => ⟨_, rfl, h.next hq.1 hq.2⟩
  obtain ⟨⟨next, full⟩, hrun, hsearched, hend⟩ : ∃ q, s.findFree = .ok q ∧ Searched s q ∧
      ¬ (s.contains q.1 = true ∧ q.2 = false) :=
    whileM_total (Searched s) s.toSearch hround hstart hrounds
  refine ⟨next, full, hrun, hsearched.full, fun hfull => ?_⟩
  by_contra hsome
  exact hend ⟨Option.isSome_iff_ne_none.mpr hsome, hfull⟩

/-- **The search of `doQueuedCalls` ends** at a free ID, if there is one.
Source: `RPCServer::doQueuedCalls`. Kind: P -/
theorem nextFree_spec {s : RPCServer} {f : UInt8} (hf : s.calls f = none) :
    ∃ next, s.nextFree = .ok next ∧ s.calls next = none := by
  have hround : ∀ n : UInt8, True → s.contains n = true →
      ∃ n', Except.ok (n + 1) = Except.ok (ε := Stuck) n' ∧ True ∧
        (f - n').toNat < (f - n).toNat := by
    intro n _ hn
    refine ⟨n + 1, rfl, trivial, ahead_next ?_⟩
    rintro rfl
    rw [contains, hf] at hn
    cases hn
  obtain ⟨next, hrun, -, hend⟩ : ∃ n, s.nextFree = .ok n ∧ True ∧ ¬ s.contains n = true :=
    whileM_total (fun _ => True) (fun n => (f - n).toNat) hround trivial
      (f - s.next_mtid).toNat_lt
  refine ⟨next, hrun, ?_⟩
  by_contra hsome
  exact hend (Option.isSome_iff_ne_none.mpr hsome)

/-! ### What every event keeps -/

/-- Every call that was asked for is in one place: it waits for a response, it is queued, or it has
been answered or timed out. Kind: D -/
def Placed (h : History) (s : RPCServer) : Prop :=
  (s.active ++ s.call_queue.map RPCCall.serial ++ h.answered.map Prod.snd ++ h.expired).Perm
    (List.range h.made.length)

/-- The call waits for a response or is queued. Kind: D -/
def Held (s : RPCServer) (c : RPCCall) : Prop := (∃ k, s.calls k = some c) ∨ c ∈ s.call_queue

/-- The ID of each call is its key, and each call is in one place and is what was asked for. Kind: D -/
structure Kept (h : History) (s : RPCServer) : Prop where
  key : ∀ k c, s.calls k = some c → c.mtid = k
  placed : s.Placed h
  asked : ∀ c, s.Held c → h.made[c.serial]? = some c.method
  submitted : s.submitted = h.made.length
  answered : s.answered = h.answered
  expired : s.expired = h.expired

/-- Calls are queued only while all IDs are taken. Kind: D -/
def Full (s : RPCServer) : Prop := s.call_queue ≠ [] → s.count = 256

/-- What making calls leaves as it was. Kind: D -/
structure Grew (h : History) (methods : List Method) (s s' : RPCServer) : Prop where
  kept : Kept (h.make methods) s'
  full : Full s'
  calls : ∀ k c, s.calls k = some c → s'.calls k = some c

/-- Calls are asked for one after the other. Source: none: infrastructure. Kind: L -/
theorem History.make_make (h : History) (methods methods' : List Method) :
    (h.make methods).make methods' = h.make (methods ++ methods') := by
  unfold make
  rw [List.append_assoc]

/-- Calls are made one after the other. Source: none: infrastructure. Kind: L -/
theorem Grew.trans {h : History} {methods methods' : List Method} {s₁ s₂ s₃ : RPCServer}
    (h₁ : Grew h methods s₁ s₂) (h₂ : Grew (h.make methods) methods' s₂ s₃) :
    Grew h (methods ++ methods') s₁ s₃ :=
  ⟨h.make_make methods methods' ▸ h₂.kept, h₂.full, fun k c hk => h₂.calls k c (h₁.calls k c hk)⟩

/-- An ID is free. Source: none: infrastructure. Kind: L -/
theorem count_lt_iff (s : RPCServer) : s.count < 256 ↔ ∃ f, s.calls f = none := by
  rw [lt_iff_le_and_ne, ne_eq, count_eq_iff, not_forall]
  refine ⟨fun ⟨_, f, hf⟩ => ⟨f, by simpa [contains] using hf⟩, fun ⟨f, hf⟩ => ⟨s.count_le, f, ?_⟩⟩
  rw [contains, hf]
  exact Bool.false_ne_true

/-- What waits once a call is put under an ID. Source: `bt::PtrMap::insert`. Kind: L -/
theorem calls_insert {s s' : RPCServer} {next : UInt8} {c : RPCCall}
    (h : s'.calls = Function.update s.calls next (some c)) {k : UInt8} {c' : RPCCall}
    (hk : s'.calls k = some c') : (k = next ∧ c' = c) ∨ s.calls k = some c' := by
  rw [h] at hk
  by_cases heq : k = next
  · rw [heq, Function.update_self] at hk
    exact .inl ⟨heq, (Option.some.inj hk).symm⟩
  · rw [Function.update_of_ne heq] at hk
    exact .inr hk

/-- A call is put under a free ID. Source: `bt::PtrMap::insert`. Kind: L -/
theorem key_insert {s s' : RPCServer} (hs : ∀ k c, s.calls k = some c → c.mtid = k) {next : UInt8}
    {c : RPCCall} (hc : c.mtid = next) (h : s'.calls = Function.update s.calls next (some c)) :
    ∀ k c, s'.calls k = some c → c.mtid = k := by
  intro k c' hk
  obtain ⟨rfl, rfl⟩ | hk := calls_insert h hk
  · exact hc
  · exact hs k c' hk

/-- Without a free id the call is queued. Source: `RPCServer::doCall`. Kind: L -/
theorem doCall_full {s : RPCServer} {next : UInt8} (h : s.findFree = .ok (next, true))
    (method : Method) :
    s.doCall method = .ok { s with
      next_mtid := next
      call_queue := s.call_queue ++ [⟨s.submitted, method, 0, true⟩]
      submitted := s.submitted + 1 } := by
  rw [doCall, h]
  rfl

/-- With a free id the call is sent. Source: `RPCServer::doCall`. Kind: L -/
theorem doCall_free {s : RPCServer} {next : UInt8} (h : s.findFree = .ok (next, false))
    (method : Method) :
    s.doCall method = .ok { s with
      next_mtid := next + 1
      calls := Function.update s.calls next (some ⟨s.submitted, method, next, false⟩)
      submitted := s.submitted + 1 } := by
  rw [doCall, h]
  rfl

/-- A place for one more call. Source: `kademlia/rpcserver.h`, `kademlia/rpcserver.cpp`. Kind: L -/
theorem perm_submitted {l l' : List ℕ} {n : ℕ} (h : l.Perm (List.range n)) (h' : l'.Perm (n :: l)) :
    l'.Perm (List.range (n + 1)) := by
  rw [List.range_succ]
  exact h'.trans ((h.cons n).trans (List.perm_append_singleton n (List.range n)).symm)

/-- What was asked for before. Source: none: infrastructure. Kind: L -/
theorem made_append {made : List Method} {i : ℕ} {method : Method} (h : made[i]? = some method)
    (methods : List Method) : (made ++ methods)[i]? = some method := by
  obtain ⟨hi, -⟩ := List.getElem?_eq_some_iff.mp h
  rw [List.getElem?_append_left hi]
  exact h

/-- **A call is made**: it waits for its response, or it is queued. Source: `RPCServer::doCall`.
Kind: L -/
theorem doCall_spec {h : History} {s : RPCServer} (hs : Kept h s) (hfull : Full s) (method : Method) :
    ∃ s', s.doCall method = .ok s' ∧ Grew h [method] s s' := by
  have hnew : (h.make [method]).made[s.submitted]? = some method := by
    rw [hs.submitted]
    exact List.getElem?_concat_length
  have hlen : s.submitted + 1 = (h.make [method]).made.length := by
    rw [hs.submitted]
    exact (@List.length_append _ h.made [method]).symm
  have hplace : ∀ {l : List ℕ}, l.Perm (s.submitted :: (s.active ++
      s.call_queue.map RPCCall.serial ++ h.answered.map Prod.snd ++ h.expired)) →
      l.Perm (List.range (h.make [method]).made.length) := by
    intro l hl
    rw [← hlen]
    refine perm_submitted ?_ hl
    rw [hs.submitted]
    exact hs.placed
  obtain ⟨next, full, hfind, hall, hfree⟩ := s.findFree_spec
  cases full with
  | true =>
    obtain ⟨-, htaken⟩ := hall rfl
    refine ⟨_, doCall_full hfind method,
      ⟨hs.key, hplace ?_, fun c hc => ?_, hlen, hs.answered, hs.expired⟩, fun _ => ?_, fun _ _ h => h⟩
    · show (s.active ++ (s.call_queue ++ [_]).map RPCCall.serial ++ h.answered.map Prod.snd ++
        h.expired).Perm _
      rw [List.map_append, ← List.append_assoc, List.append_assoc _ _ (h.answered.map Prod.snd),
        List.append_assoc _ _ h.expired, List.append_assoc _ _ h.expired,
        List.append_assoc _ (h.answered.map Prod.snd)]
      exact List.perm_middle
    · obtain hc | hc := hc
      · exact made_append (hs.asked c (.inl hc)) [method]
      obtain hc | hc := List.mem_append.mp hc
      · exact made_append (hs.asked c (.inr hc)) [method]
      · rw [List.mem_singleton.mp hc]
        exact hnew
    · exact (count_eq_iff _).mpr htaken
  | false =>
    have hnone := hfree rfl
    refine ⟨_, doCall_free hfind method,
      ⟨?_, hplace ?_, fun c hc => ?_, hlen, hs.answered, hs.expired⟩, fun hqueue => ?_, fun k c hk => ?_⟩
    · exact key_insert (c := ⟨s.submitted, method, next, false⟩) hs.key rfl rfl
    · have hactive : (active { s with
          next_mtid := next + 1
          calls := Function.update s.calls next (some ⟨s.submitted, method, next, false⟩)
          submitted := s.submitted + 1 }).Perm (s.submitted :: s.active) :=
        active_insert (c := ⟨s.submitted, method, next, false⟩) hnone rfl
      exact ((hactive.append_right _).append_right _).append_right _
    · obtain ⟨k, hk⟩ | hc := hc
      · obtain ⟨-, rfl⟩ | hk := calls_insert (c := ⟨s.submitted, method, next, false⟩) rfl hk
        · exact hnew
        · exact made_append (hs.asked c (.inl ⟨k, hk⟩)) [method]
      · exact made_append (hs.asked c (.inr hc)) [method]
    · have hcount := hfull hqueue
      rw [count_eq_iff] at hcount
      have htaken := hcount next
      rw [contains, hnone] at htaken
      cases htaken
    · show Function.update s.calls next _ k = some c
      rw [Function.update_of_ne, hk]
      rintro rfl
      rw [hnone] at hk
      cases hk

/-- **Calls are made one after the other.** Source: `RPCServer::doCall`. Kind: L -/
theorem doCalls_spec (methods : List Method) {h : History} {s : RPCServer} (hs : Kept h s)
    (hfull : Full s) : ∃ s', s.doCalls methods = .ok s' ∧ Grew h methods s s' := by
  unfold doCalls
  induction methods generalizing h s with
  | nil =>
    refine ⟨s, rfl, ?_, hfull, fun _ _ h => h⟩
    have hnil : h.make [] = h := by
      unfold History.make
      rw [List.append_nil]
    rwa [hnil]
  | cons method methods ih =>
    obtain ⟨s₁, hcall, hgrew⟩ := doCall_spec hs hfull method
    obtain ⟨s', hcalls, hgrew'⟩ := ih hgrew.kept hgrew.full
    refine ⟨s', ?_, hgrew.trans hgrew'⟩
    rw [List.foldlM_cons, hcall]
    exact hcalls

/-- The first call of the queue gets an ID that is free. Source: `RPCServer::doQueuedCalls`.
Kind: L -/
theorem doQueued_spec {h : History} {s : RPCServer} (hs : Kept h s) (hqueue : 0 < s.call_queue.length)
    (hcount : s.count < 256) :
    ∃ s', doQueued s = .ok s' ∧ Kept h s' ∧ s'.call_queue.length < s.call_queue.length := by
  obtain ⟨f, hf⟩ := (count_lt_iff s).mp hcount
  obtain ⟨next, hnext, hnone⟩ := nextFree_spec hf
  cases hq : s.call_queue with
  | nil =>
    rw [hq] at hqueue
    cases hqueue
  | cons c rest =>
    refine ⟨{ s with
      call_queue := rest
      next_mtid := next + 1
      calls := Function.update s.calls next (some { c with mtid := next, queued := false }) },
      ?_, ⟨?_, ?_, fun c' hc' => ?_, hs.submitted, hs.answered, hs.expired⟩, ?_⟩
    · unfold doQueued
      simp only [hq, hnext]
      rfl
    · exact key_insert (c := { c with mtid := next, queued := false }) hs.key rfl rfl
    · have hactive : (active { s with
          call_queue := rest
          next_mtid := next + 1
          calls := Function.update s.calls next (some { c with mtid := next, queued := false }) }).Perm
          (c.serial :: s.active) :=
        active_insert (c := { c with mtid := next, queued := false }) hnone rfl
      have hplaced := hs.placed
      unfold Placed at hplaced ⊢
      rw [hq, List.map_cons] at hplaced
      refine List.Perm.trans ?_ hplaced
      refine ((List.Perm.trans (hactive.append_right _) ?_).append_right _).append_right _
      exact List.perm_middle.symm
    · obtain ⟨k, hk⟩ | hc' := hc'
      · obtain ⟨-, rfl⟩ | hk := calls_insert (c := { c with mtid := next, queued := false }) rfl hk
        · exact hs.asked c (.inr (hq ▸ List.mem_cons_self))
        · exact hs.asked c' (.inl ⟨k, hk⟩)
      · exact hs.asked c' (.inr (hq ▸ List.mem_cons_of_mem _ hc'))
    · exact Nat.lt_succ_self _

/-- **Queued calls get the IDs that are free**, as far as there are any.
Source: `RPCServer::doQueuedCalls`. Kind: P -/
theorem doQueuedCalls_spec {h : History} {s : RPCServer} (hs : Kept h s) :
    ∃ s', s.doQueuedCalls = .ok s' ∧ Kept h s' ∧ Full s' := by
  obtain ⟨s', hrun, hkept, hend⟩ : ∃ s', s.doQueuedCalls = .ok s' ∧ Kept h s' ∧
      ¬ (0 < s'.call_queue.length ∧ s'.count < 256) := by
    refine whileM_total (Kept h) (fun s' => s'.call_queue.length) ?_ hs (Nat.lt_succ_self _)
    rintro s₁ hkept ⟨hqueue, hcount⟩
    exact doQueued_spec hkept hqueue hcount
  refine ⟨s', hrun, hkept, fun hqueue => ?_⟩
  by_contra hcount
  exact hend ⟨List.length_pos_of_ne_nil hqueue, Nat.lt_of_le_of_ne s'.count_le hcount⟩

/-- The ID of a call that has ended is free again. Source: `bt::PtrMap::erase`. Kind: L -/
theorem Kept.erase {h h' : History} {s s' : RPCServer} (hs : Kept h s) {mtid : UInt8} {c : RPCCall}
    (hc : s.calls mtid = some c) (hcalls : s'.calls = (s.erase mtid).calls)
    (hqueue : s'.call_queue = s.call_queue) (hsubmitted : s'.submitted = s.submitted)
    (hmade : h'.made = h.made) (hanswered : s'.answered = h'.answered)
    (hexpired : s'.expired = h'.expired)
    (hended : (h'.answered.map Prod.snd ++ h'.expired).Perm
      (c.serial :: (h.answered.map Prod.snd ++ h.expired))) : Kept h' s' := by
  have hleft : ∀ {k c'}, s'.calls k = some c' → s.calls k = some c' := by
    intro k c' hk
    rw [hcalls] at hk
    by_cases heq : k = mtid
    · have hnone : (s.erase mtid).calls k = none := by rw [heq]; exact Function.update_self _ _ _
      rw [hnone] at hk
      cases hk
    · rw [← hk]
      exact (Function.update_of_ne heq _ _).symm
  refine ⟨fun k c' hk => hs.key k c' (hleft hk), ?_, fun c' hc' => ?_, ?_, hanswered, hexpired⟩
  · have hactive : s'.active = (s.erase mtid).active := by
      unfold active
      rw [hcalls]
    have hplaced := hs.placed
    unfold Placed at hplaced ⊢
    rw [hactive, hqueue, hmade, List.append_assoc]
    rw [List.append_assoc] at hplaced
    refine List.Perm.trans ?_ hplaced
    refine (hended.append_left _).trans (List.perm_middle.trans ?_)
    exact ((active_erase hc).append_right _).symm.append_right _
  · rw [hmade]
    refine hs.asked c' (hc'.imp (fun ⟨k, hk⟩ => ⟨k, hleft hk⟩) fun hmem => ?_)
    rwa [hqueue] at hmem
  · rw [hsubmitted, hmade, hs.submitted]

/-! ### Runs -/

/-- A response is given to the call that waits under its ID, and to no other.
Source: `RPCServer::readPacket`. Kind: L -/
theorem response_spec {h : History} {s : RPCServer} (hs : Kept h s) (hfull : Full s) (mtid : UInt8)
    (applied heard : List Method) :
    ∃ s', s.response mtid applied heard = .ok s' ∧
      Kept (h.next s (.response mtid applied heard)) s' ∧ Full s' := by
  unfold response
  dsimp only [History.next]
  cases hcall : s.calls mtid with
  | none =>
    rw [if_neg (by rw [contains, hcall]; exact Bool.false_ne_true)]
    exact ⟨s, rfl, hs, hfull⟩
  | some c =>
    rw [if_pos (by rw [contains, hcall]; rfl)]
    obtain ⟨s₁, happlied, h₁⟩ := doCalls_spec applied hs hfull
    have hcall₁ := h₁.calls mtid c hcall
    obtain ⟨s₂, hheard, h₂⟩ := doCalls_spec heard h₁.kept h₁.full
    have hcall₂ := h₂.calls mtid c hcall₁
    have hkept : Kept { (h.make applied).make heard with
        answered := h.answered ++ [(mtid, c.serial)] }
        (RPCServer.erase mtid { s₂ with answered := s₂.answered ++ [(mtid, c.serial)] }) := by
      refine h₂.kept.erase hcall₂ rfl rfl rfl rfl ?_ h₂.kept.expired ?_
      · exact congrArg (· ++ [(mtid, c.serial)]) h₂.kept.answered
      · show ((h.answered ++ [(mtid, c.serial)]).map Prod.snd ++ h.expired).Perm _
        rw [List.map_append, List.append_assoc]
        exact List.perm_middle
    obtain ⟨s', hqueued, hkept', hfull'⟩ := doQueuedCalls_spec hkept
    refine ⟨s', ?_, hkept', hfull'⟩
    simp only [happlied, hheard, hcall₁, bind, Except.bind]
    exact hqueued

/-- The call under the ID has ended. Source: `RPCServer::timedOut`. Kind: L -/
theorem timedOut_spec {h : History} {s : RPCServer} (hs : Kept h s) (hfull : Full s) {mtid : UInt8}
    {c : RPCCall} (hcall : s.calls mtid = some c) (told : List Method) :
    ∃ s', s.timedOut mtid told = .ok s' ∧
      Kept { h.make told with expired := h.expired ++ [c.serial] } s' ∧ Full s' := by
  obtain ⟨s₁, htold, h₁⟩ := doCalls_spec told hs hfull
  have hkept : Kept { h.make told with expired := h.expired ++ [c.serial] }
      (RPCServer.erase mtid { s₁ with expired := s₁.expired ++ [c.serial] }) := by
    refine h₁.kept.erase (h₁.calls mtid c hcall) rfl rfl rfl rfl h₁.kept.answered ?_ ?_
    · exact congrArg (· ++ [c.serial]) h₁.kept.expired
    · show (h.answered.map Prod.snd ++ (h.expired ++ [c.serial])).Perm _
      rw [← List.append_assoc]
      exact List.perm_append_singleton _ _
  obtain ⟨s', hqueued, hkept', hfull'⟩ := doQueuedCalls_spec hkept
  refine ⟨s', ?_, hkept', hfull'⟩
  unfold timedOut
  simp only [hcall, htold, bind, Except.bind]
  exact hqueued

/-- The timer of a call. Source: `RPCCall::onTimeout`. Kind: L -/
theorem onTimeout_spec {h : History} {s : RPCServer} (hs : Kept h s) (hfull : Full s) (mtid : UInt8)
    (heard told : List Method) :
    ∃ s', s.onTimeout mtid heard told = .ok s' ∧
      Kept (h.next s (.timeout mtid heard told)) s' ∧ Full s' := by
  unfold onTimeout
  dsimp only [History.next]
  cases hcall : s.calls mtid with
  | none =>
    rw [if_neg (by rw [contains, hcall]; exact Bool.false_ne_true)]
    exact ⟨s, rfl, hs, hfull⟩
  | some c =>
    rw [if_pos (by rw [contains, hcall]; rfl)]
    obtain ⟨s₁, hheard, h₁⟩ := doCalls_spec heard hs hfull
    obtain ⟨s', htimed, hs'⟩ := timedOut_spec h₁.kept h₁.full (h₁.calls mtid c hcall) told
    refine ⟨s', ?_, hs'⟩
    simp only [hheard, bind, Except.bind]
    exact htimed

/-- **What one event keeps.**. Source: `kademlia/rpcserver.h`, `kademlia/rpcserver.cpp`. Kind: L -/
theorem step_spec {h : History} {s : RPCServer} (hs : Kept h s) (hfull : Full s) (e : Event) :
    ∃ s', step (.ok s) e = .ok s' ∧ Kept (h.next s e) s' ∧ Full s' := by
  cases e with
  | doCall method =>
    obtain ⟨s', hcall, hgrew⟩ := doCall_spec hs hfull method
    exact ⟨s', hcall, hgrew.kept, hgrew.full⟩
  | packet applied =>
    obtain ⟨s', hcalls, hgrew⟩ := doCalls_spec applied hs hfull
    exact ⟨s', hcalls, hgrew.kept, hgrew.full⟩
  | response mtid applied heard => exact response_spec hs hfull mtid applied heard
  | timeout mtid heard told => exact onTimeout_spec hs hfull mtid heard told

/-- The server does not look at what was asked. Source: none: infrastructure. Kind: L -/
theorem run_stepWith (p : Except Stuck RPCServer × History) (events : List Event) :
    (run stepWith p events).1 = run step p.1 events := by
  induction events generalizing p with
  | nil => rfl
  | cons e events ih => exact ih (stepWith p e)

end RPCServer

end KTorrent.Dht
