import KTorrent.Dht.Task

/-!
# What a response is taken for

A response is parsed by the method of the call it answers, and the task that made the call reads it.

* `Understood` — the response is rejected or a message of the call's method, and only bytes of the
  strings are read, by the parser and by the tasks.
* `Complete` — the arguments have a token, and each peer has its six bytes.
* `understood_iff` — a response is understood unless it answers a call of `get_peers` and is
  incomplete.
* `tokenless_or_short` — two responses that are not.

Source: `kademlia/rpcmsg.cpp`, `ParseRsp`; `kademlia/database.cpp`, `DBItem::DBItem`
-/

namespace KTorrent.Dht

open KTorrent.Util KTorrent.Bencode

/-- The response is rejected, or it is a message of the method of the call with its ID; and no string
is read behind its end, by the parser or by a task that gets the message. Kind: D -/
def Understood (findCall : UInt8 → Option Method) (dict : Entries) : Prop :=
  ∃ rsp, parseRsp findCall dict = .ok rsp ∧ ∀ m, rsp = some m →
    (∃ mtid, mtidOf dict = some mtid ∧ findCall mtid = some m.method) ∧
    ∀ (ofRaw : List UInt8 → UInt32) (our_id : Key) (method : Method) (origin : KInetSocketAddress)
      (t : Task), ∃ t', t.callFinished ofRaw our_id method m origin = .ok t'

/-- There is a token, and of the list of peers each string has at least six bytes. Kind: D -/
structure Complete (args : Entries) : Prop where
  token : (BNode.getValue args (latin1 "token")).isSome
  values : ∀ vals, BNode.getList args (latin1 "values") = some vals →
    ∀ off len v, some (.value off len v) ∈ vals → 6 ≤ v.toByteArray.length

/-- An item of fewer than six bytes cannot be read. Source: `DBItem::DBItem(const Uint8*)`.
Kind: L -/
theorem dbItem_ok_iff (s : List UInt8) : (∃ item, dbItem s = .ok item) ↔ 6 ≤ s.length := by
  unfold dbItem
  constructor
  · rintro ⟨item, h⟩
    split_ifs at h with hlen
    rw [← hlen]
    exact List.length_take_le' 6 s
  · intro h
    have hlen : (s.take 6).length = 6 := List.length_take_of_le h
    exact ⟨_, dif_pos hlen⟩

/-- The loop over the peers stays inside of the strings. Source: `ParseRsp`. Kind: L -/
theorem dbItems_ok_iff (vals : List (Option BNode)) :
    (∃ dbl, dbItems vals = .ok dbl) ↔
      ∀ off len v, some (.value off len v) ∈ vals → 6 ≤ v.toByteArray.length := by
  induction vals with
  | nil => exact ⟨fun _ _ _ _ h => absurd h List.not_mem_nil, fun _ => ⟨[], rfl⟩⟩
  | cons val vals ih =>
    -- a child that is no value is passed over
    have hpass : (∀ off len v, val ≠ some (.value off len v)) →
        ((∀ off len v, some (.value off len v) ∈ vals → 6 ≤ v.toByteArray.length) ↔
          ∀ off len v, some (.value off len v) ∈ val :: vals → 6 ≤ v.toByteArray.length) := by
      intro hno
      refine ⟨fun h off len v hv => ?_,
        fun h off len v hv => h off len v (List.mem_cons_of_mem val hv)⟩
      exact h off len v ((List.mem_cons.mp hv).resolve_left fun heq => hno off len v heq.symm)
    match val, hpass with
    | none, hpass => exact ih.trans (hpass fun _ _ _ h => nomatch h)
    | some (.dict _ _ _), hpass => exact ih.trans (hpass fun _ _ _ h => nomatch h)
    | some (.list _ _ _), hpass => exact ih.trans (hpass fun _ _ _ h => nomatch h)
    | some (.value off len v), _ =>
      constructor
      · rintro ⟨dbl, h⟩ off' len' v' hv'
        cases hitem : dbItem v.toByteArray with
        | error e =>
          rw [dbItems, hitem] at h
          cases h
        | ok item =>
          cases hrest : dbItems vals with
          | error e =>
            rw [dbItems, hitem, hrest] at h
            cases h
          | ok dbl' =>
            rcases List.mem_cons.mp hv' with heq | hv'
            · cases heq
              exact (dbItem_ok_iff _).mp ⟨item, hitem⟩
            · exact ih.mp ⟨dbl', hrest⟩ off' len' v' hv'
      · intro h
        obtain ⟨item, hitem⟩ := (dbItem_ok_iff _).mpr (h off len v List.mem_cons_self)
        obtain ⟨dbl, hrest⟩ := ih.mpr fun off' len' v' hv' =>
          h off' len' v' (List.mem_cons_of_mem _ hv')
        refine ⟨item :: dbl, ?_⟩
        rw [dbItems, hitem, hrest]
        rfl

/-- The answer is of the method that was called, for every method but one.
Source: `kademlia/rpcmsg.cpp`, `ParseRsp`. Kind: L -/
theorem parseAnswer_method {args : Entries} {method : Method} (hm : method ≠ .GET_PEERS)
    (mtid : UInt8) (id : Key) :
    ∃ rsp, parseAnswer args method mtid id = .ok rsp ∧ ∀ m, rsp = some m → m.method = method := by
  cases method with
  | PING =>
    refine ⟨_, rfl, fun m h => ?_⟩
    rw [← Option.some.inj h]
    rfl
  | FIND_NODE =>
    refine ⟨_, rfl, fun m h => ?_⟩
    obtain ⟨v, -, rfl⟩ := Option.map_eq_some_iff.mp h
    rfl
  | GET_PEERS => exact absurd rfl hm
  | ANNOUNCE_PEER =>
    refine ⟨_, rfl, fun m h => ?_⟩
    rw [← Option.some.inj h]
    rfl
  | NONE => exact ⟨none, rfl, fun m h => nomatch h⟩

/-- The answer to `get_peers`. Source: `kademlia/rpcmsg.cpp`, `ParseRsp`. Kind: L -/
theorem parseAnswer_peers_iff (args : Entries) (mtid : UInt8) (id : Key) :
    (∃ rsp, parseAnswer args .GET_PEERS mtid id = .ok rsp ∧
      ∀ m, rsp = some m → m.method = .GET_PEERS) ↔ Complete args := by
  cases htoken : BNode.getValue args (latin1 "token") with
  | none =>
    -- the case runs on into the next one
    have hnext : parseAnswer args .GET_PEERS mtid id = .ok (some (.announceRsp mtid id)) := by
      unfold parseAnswer
      simp only [htoken]
    constructor
    · rintro ⟨rsp, h, hmethod⟩
      rw [hnext] at h
      injection h with h
      cases hmethod _ h.symm
    · intro h
      have hsome := h.token
      rw [htoken] at hsome
      cases hsome
  | some token =>
    have hpeers : parseAnswer args .GET_PEERS mtid id = parsePeers args mtid id (keyOf token) := by
      unfold parseAnswer
      simp only [htoken]
    rw [hpeers]
    unfold parsePeers
    cases hvals : BNode.getList args (latin1 "values") with
    | none =>
      refine ⟨fun _ => ⟨by rw [htoken]; rfl, fun vals h => ?_⟩, fun _ => ⟨_, rfl, fun m h => ?_⟩⟩
      · rw [hvals] at h
        cases h
      · obtain ⟨v, -, rfl⟩ := Option.map_eq_some_iff.mp h
        rfl
    | some vals =>
      constructor
      · rintro ⟨rsp, h, -⟩
        refine ⟨by rw [htoken]; rfl, fun vals' h' => ?_⟩
        rw [hvals] at h'
        obtain rfl := Option.some.inj h'
        cases hdbl : dbItems vals with
        | error e =>
          simp only [hdbl] at h
          cases h
        | ok dbl => exact (dbItems_ok_iff vals).mp ⟨dbl, hdbl⟩
      · intro h
        obtain ⟨dbl, hdbl⟩ := (dbItems_ok_iff vals).mpr (h.values vals hvals)
        refine ⟨some (.getPeersRsp mtid id (keyOf token) [] dbl), ?_, fun m hm => ?_⟩
        · simp only [hdbl]
          rfl
        · rw [← Option.some.inj hm]
          rfl

/-- A response that is rejected before its method is looked at. Source: `kademlia/rpcmsg.cpp`,
`ParseRsp`. Kind: L -/
theorem understood_rejected {findCall : UInt8 → Option Method} {dict : Entries}
    (h : parseRsp findCall dict = .ok none) : Understood findCall dict :=
  ⟨none, h, fun _ hm => nomatch hm⟩

/-- A response that is looked at. Source: `kademlia/rpcmsg.cpp`, `ParseRsp`. Kind: L -/
theorem understood_answer {findCall : UInt8 → Option Method} {dict args : Entries} {mtid : UInt8}
    {method : Method} {id : Key} (hmtid : mtidOf dict = some mtid)
    (hcall : findCall mtid = some method)
    (h : parseRsp findCall dict = parseAnswer args method mtid id) :
    Understood findCall dict ↔ ∃ rsp, parseAnswer args method mtid id = .ok rsp ∧
      ∀ m, rsp = some m → m.method = method := by
  rw [Understood, h]
  refine exists_congr fun rsp => and_congr_right fun _ => forall₂_congr fun m _ => ?_
  constructor
  · rintro ⟨⟨mtid', hmtid', hcall'⟩, -⟩
    rw [hmtid] at hmtid'
    obtain rfl := Option.some.inj hmtid'
    rw [hcall] at hcall'
    exact (Option.some.inj hcall').symm
  · intro hmethod
    refine ⟨⟨mtid, hmtid, by rw [hcall, hmethod]⟩, fun ofRaw our_id method' origin t => ?_⟩
    obtain ⟨t', ht', -⟩ := Task.callFinished_spec ofRaw our_id method' m origin t
    exact ⟨t', ht'⟩

/-- **A response is understood** unless it answers a call of `get_peers` without a token, or with a
peer of fewer than six bytes. Source: `kademlia/rpcmsg.cpp`, `ParseRsp`. Kind: P -/
theorem understood_iff (findCall : UInt8 → Option Method) (dict : Entries) :
    Understood findCall dict ↔
      ∀ mtid, mtidOf dict = some mtid → findCall mtid = some .GET_PEERS →
        ∀ args id, BNode.getDict dict (latin1 "r") = some args →
          BNode.getValue args (latin1 "id") = some id → Complete args := by
  cases hargs : BNode.getDict dict (latin1 "r") with
  | none =>
    refine iff_of_true (understood_rejected ?_) fun _ _ _ _ _ h => by cases h
    rw [parseRsp, hargs]
  | some args =>
    cases hmtid : mtidOf dict with
    | none =>
      refine iff_of_true (understood_rejected ?_) fun _ h => by cases h
      rw [parseRsp, hargs, hmtid]
    | some mtid =>
      cases hcall : findCall mtid with
      | none =>
        refine iff_of_true (understood_rejected ?_) fun mtid' h hcall' => ?_
        · unfold parseRsp
          simp only [hargs, hmtid, hcall]
        · obtain rfl := Option.some.inj h
          cases hcall.symm.trans hcall'
      | some method =>
        have hcalled : parseRsp findCall dict = parseRspOf dict method mtid := by
          unfold parseRsp
          simp only [hargs, hmtid, hcall]
        cases hid : BNode.getValue args (latin1 "id") with
        | none =>
          refine iff_of_true (understood_rejected ?_) fun _ _ _ args' id h hid' => ?_
          · rw [hcalled]
            simp only [parseRspOf, hargs, hid]
          · rw [← Option.some.inj h, hid] at hid'
            cases hid'
        | some id =>
          have hanswer : parseRsp findCall dict = parseAnswer args method mtid (keyOf id) := by
            rw [hcalled]
            simp only [parseRspOf, hargs, hid]
          rw [understood_answer hmtid hcall hanswer]
          by_cases hm : method = .GET_PEERS
          · subst hm
            rw [parseAnswer_peers_iff]
            refine ⟨fun h mtid' _ _ args' id' hargs' _ => ?_,
              fun h => h mtid rfl hcall args id rfl hid⟩
            rw [← Option.some.inj hargs']
            exact h
          · refine iff_of_true (parseAnswer_method hm mtid _) fun mtid' hmtid' hcall' => ?_
            rw [← Option.some.inj hmtid', hcall] at hcall'
            exact absurd (Option.some.inj hcall') hm

/-- A response to the call `a`, with these arguments. Kind: D -/
def answerTo (args : Entries) : Entries :=
  [(latin1 "r", some (.dict 0 0 args)), (latin1 "t", some (.value 0 0 (.ofArray (latin1 "a"))))]

/-- **A response without a token** is taken for one to `announce_peer`, and **a peer of three
bytes** is copied from behind the end of its string. Source: `kademlia/rpcmsg.cpp`, `ParseRsp`.
Kind: L -/
theorem tokenless_or_short :
    ¬ Understood (fun _ => some .GET_PEERS) (answerTo
        [(latin1 "id", some (.value 0 0 (.ofArray (latin1 "n"))))]) ∧
      ¬ Understood (fun _ => some .GET_PEERS) (answerTo
        [(latin1 "id", some (.value 0 0 (.ofArray (latin1 "n")))),
          (latin1 "token", some (.value 0 0 (.ofArray (latin1 "s")))),
          (latin1 "values", some (.list 0 0 [some (.value 0 0 (.ofArray [1, 2, 3]))]))]) := by
  constructor
  · rintro ⟨rsp, h, hall⟩
    have hrsp : parseRsp (fun _ => some .GET_PEERS) (answerTo
        [(latin1 "id", some (.value 0 0 (.ofArray (latin1 "n"))))]) =
        .ok (some (.announceRsp 97 (Key.ofBytes (latin1 "n")))) := rfl
    rw [hrsp] at h
    injection h with h
    obtain ⟨⟨mtid, -, hmethod⟩, -⟩ := hall _ h.symm
    cases hmethod
  · rintro ⟨rsp, h, -⟩
    have hrsp : parseRsp (fun _ => some .GET_PEERS) (answerTo
        [(latin1 "id", some (.value 0 0 (.ofArray (latin1 "n")))),
          (latin1 "token", some (.value 0 0 (.ofArray (latin1 "s")))),
          (latin1 "values", some (.list 0 0 [some (.value 0 0 (.ofArray [1, 2, 3]))]))]) =
        .error .behind := rfl
    rw [hrsp] at h
    cases h

end KTorrent.Dht
