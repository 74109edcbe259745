import KTorrent.Dht.Pack
import KTorrent.Dht.RpcMsg
import KTorrent.Dht.Tokens
import KTorrent.Lib.While

/-!
# The requests of other nodes

A request is parsed, the table learns of the node it comes from, and a response is sent back.

* `DHT.handle` — what is done for a dictionary that was received.
* `DHT.handle_mtid` — a response has the first byte of the request's transaction ID.
* `DHT.echo_iff` — it is the request's ID exactly if that is one byte long.

Source: `kademlia/dht.cpp`; `kademlia/rpcserver.cpp`, `RPCServer::readPacket`
-/

namespace KTorrent.Dht

open KTorrent.Lib KTorrent.Util KTorrent.Bencode

/-- `items` are the peers of the database. Source: `kademlia/dht.h`, `DHT`. Kind: D -/
structure DHT where
  running : Bool
  node : Node
  db : Database
  items : Key → List DBItem

/-- What a request meets: the time, the address it comes from, the hash, and what is in a buffer that
is made. Kind: D -/
structure Arrival where
  now : UInt64
  origin : KInetSocketAddress
  generate : List UInt8 → Key
  fresh : (n : ℕ) → Vector UInt8 n

namespace DHT

variable (a : Arrival)

/-- Source: `node->recieved(this,r)`. Kind: D -/
def recieved (id : Key) (d : DHT) : DHT :=
  { d with node := d.node.recieved a.now.toNat a.origin id }

/-- The nodes closest to a key, packed; `none` where the packing goes wrong.
Source: `DHT::findNode`, `DHT::getPeers`. Kind: D -/
def closestNodes (target : Key) (d : DHT) : Option (List UInt8) :=
  let kns := d.node.findKClosestNodes (.new target K)
  let rs := kns.requiredSpace
  if rs > 0 then (kns.pack (a.fresh rs).toList).toOption else some []

/-- So many of the peers of a key. Source: `Database::sample`. Kind: D -/
def sample (info_hash : Key) (max_entries : ℕ) (d : DHT) : List DBItem :=
  if (d.items info_hash).length < max_entries then d.items info_hash
  else (d.items info_hash).take max_entries

/-- Source: `DHT::ping`. Kind: D -/
def ping (mtid : UInt8) (id : Key) (d : DHT) : DHT × Option Msg :=
  (d.recieved a id, some (.pingRsp mtid d.node.our_id))

/-- Source: `DHT::findNode`. Kind: D -/
def findNode (mtid : UInt8) (id target : Key) (d : DHT) : DHT × Option Msg :=
  let d := d.recieved a id
  (d, (d.closestNodes a target).map fun nodes => .findNodeRsp mtid d.node.our_id nodes)

/-- Source: `DHT::announce`. Kind: D -/
def announce (mtid : UInt8) (id info_hash : Key) (port : UInt16) (token : Key) (d : DHT) :
    DHT × Option Msg :=
  let d := d.recieved a id
  let check := d.db.checkToken a.generate token a.origin.ip a.origin.port
  let d := { d with db := check.1 }
  if !check.2 then (d, none)
  else
    -- everything OK, so store the value
    match dbItem (uint32Bytes a.origin.ip.toNat ++ uint16Bytes port.toNat) with
    | .error _ => (d, none)
    | .ok item =>
      ({ d with items := Function.update d.items info_hash (d.items info_hash ++ [item]) },
        some (.announceRsp mtid d.node.our_id))

/-- Source: `DHT::getPeers`. Kind: D -/
def getPeers (mtid : UInt8) (id info_hash : Key) (d : DHT) : DHT × Option Msg :=
  let d := d.recieved a id
  let dbl := d.sample info_hash 50
  let given := d.db.genToken a.generate a.now a.origin.ip a.origin.port
  let d := { d with db := given.1 }
  if dbl.length = 0 then
    (d, (d.closestNodes a info_hash).map fun nodes =>
      .getPeersRsp mtid d.node.our_id given.2 nodes [])
  else (d, some (.getPeersRsp mtid d.node.our_id given.2 [] dbl))

/-- What a message does, and the response that is sent. Requests from ourself are ignored, and so is
everything while the DHT is not running. Source: the `apply` of the messages. Kind: D -/
def apply (msg : Msg) (d : DHT) : DHT × Option Msg :=
  if !d.running then (d, none)
  else
    match msg with
    | .pingReq mtid id => if id = d.node.our_id then (d, none) else d.ping a mtid id
    | .findNodeReq mtid id target =>
      if id = d.node.our_id then (d, none) else d.findNode a mtid id target
    | .getPeersReq mtid id info_hash =>
      if id = d.node.our_id then (d, none) else d.getPeers a mtid id info_hash
    | .announceReq mtid id info_hash port token =>
      if id = d.node.our_id then (d, none) else d.announce a mtid id info_hash port token
    | .errMsg .. => (d, none)
    | msg => (d.recieved a msg.id, none)

/-- A dictionary that was received. Source: `RPCServer::readPacket`. Kind: D -/
def handle (findCall : UInt8 → Option Method) (dict : Entries) (d : DHT) : DHT × Option Msg :=
  match makeRPCMsg findCall dict with
  | .ok (some msg) => d.apply a msg
  | _ => (d, none)

end DHT

/-! ### The transaction ID -/

/-- The string a message is sent with under `t`. Kind: D -/
def Msg.transaction (m : Msg) : Option (List UInt8) :=
  match m.tree with
  | some (.dict es) =>
    (es.find? fun e => e.1 = latin1 "t").bind fun e =>
      match e.2 with
      | .bytes data => some data
      | _ => none
  | _ => none

/-- The string a dictionary has under `t`. Kind: D -/
def transactionIn (dict : Entries) : Option (List UInt8) :=
  (BNode.getValue dict (latin1 "t")).map Value.toByteArray

/-- A parsed request keeps the transaction id. Source: `ParseReq`. Kind: L -/
theorem parseMethod_mtid {args : Entries} {str : List UInt8} {mtid : UInt8} {id : Key} {m : Msg}
    (h : parseMethod args str mtid id = some m) : m.mtid = mtid := by
  unfold parseMethod at h
  split_ifs at h
  · rw [← Option.some.inj h]
    rfl
  · obtain ⟨v, -, rfl⟩ := Option.map_eq_some_iff.mp h
    rfl
  · obtain ⟨v, -, rfl⟩ := Option.map_eq_some_iff.mp h
    rfl
  · obtain ⟨info_hash, -, h⟩ := Option.bind_eq_some_iff.mp h
    obtain ⟨port, -, h⟩ := Option.bind_eq_some_iff.mp h
    obtain ⟨token, -, h⟩ := Option.bind_eq_some_iff.mp h
    rw [← Option.some.inj h]
    rfl

/-- The ID of a request is the first byte of the one received. Source: `ParseReq`. Kind: L -/
theorem parseReq_mtid {dict : Entries} {m : Msg} (h : parseReq dict = some m) :
    mtidOf dict = some m.mtid := by
  obtain ⟨vn, -, h⟩ := Option.bind_eq_some_iff.mp h
  obtain ⟨args, -, h⟩ := Option.bind_eq_some_iff.mp h
  obtain ⟨id, -, h⟩ := Option.bind_eq_some_iff.mp h
  obtain ⟨mtid, hmtid, h⟩ := Option.bind_eq_some_iff.mp h
  rw [hmtid, parseMethod_mtid h]

/-- The message is one that is answered. Kind: D -/
def Msg.isRequest : Msg → Bool
  | .pingReq .. | .findNodeReq .. | .getPeersReq .. | .announceReq .. => true
  | _ => false

/-- A response with peers is no request. Source: `ParseRsp`, `GET_PEERS`. Kind: L -/
theorem parsePeers_isRequest {args : Entries} {mtid : UInt8} {id token : Key} {m : Msg}
    (h : parsePeers args mtid id token = .ok (some m)) : m.isRequest = false := by
  unfold parsePeers at h
  split at h
  · obtain ⟨dbl, -, h⟩ := bind_ok_iff.mp h
    cases h
    rfl
  · obtain ⟨v, -, rfl⟩ := Option.map_eq_some_iff.mp (Except.ok.inj h)
    rfl

/-- A dictionary of another kind makes no request. Source: `kademlia/dht.cpp`. Kind: L -/
theorem parseRsp_isRequest {findCall : UInt8 → Option Method} {dict : Entries} {m : Msg}
    (h : parseRsp findCall dict = .ok (some m)) : m.isRequest = false := by
  unfold parseRsp at h
  split at h
  · split at h
    · unfold parseRspOf at h
      split at h
      · cases h
      · split at h
        · cases h
        · unfold parseAnswer at h
          split at h
          · cases h
            rfl
          · obtain ⟨v, -, rfl⟩ := Option.map_eq_some_iff.mp (Except.ok.inj h)
            rfl
          · split at h
            · exact parsePeers_isRequest h
            · cases h
              rfl
          · cases h
            rfl
          · cases h
    · cases h
  · cases h

/-- An error is no request. Source: `ParseErr`. Kind: L -/
theorem parseErr_isRequest {dict : Entries} {m : Msg} (h : parseErr dict = some m) :
    m.isRequest = false := by
  obtain ⟨vn, -, h⟩ := Option.bind_eq_some_iff.mp h
  obtain ⟨args, -, h⟩ := Option.bind_eq_some_iff.mp h
  obtain ⟨id, -, h⟩ := Option.bind_eq_some_iff.mp h
  obtain ⟨mt_id, -, h⟩ := Option.bind_eq_some_iff.mp h
  obtain ⟨mtid, -, h⟩ := Option.bind_eq_some_iff.mp h
  rw [← Option.some.inj h]
  rfl

/-- A request that is made of a dictionary has the first byte of its ID. Source: `MakeRPCMsg`.
Kind: L -/
theorem makeRPCMsg_mtid {findCall : UInt8 → Option Method} {dict : Entries} {m : Msg}
    (h : makeRPCMsg findCall dict = .ok (some m)) (hreq : m.isRequest = true) :
    mtidOf dict = some m.mtid := by
  unfold makeRPCMsg at h
  split at h
  · cases h
  · split_ifs at h
    · exact parseReq_mtid (Except.ok.inj h)
    · rw [parseRsp_isRequest h] at hreq
      cases hreq
    · rw [parseErr_isRequest (Except.ok.inj h)] at hreq
      cases hreq
    · cases h

namespace DHT

/-- What is sent in answer to a message, with its ID. Source: `kademlia/dht.cpp`. Kind: L -/
theorem apply_reply {a : Arrival} {msg r : Msg} {d : DHT} (h : (d.apply a msg).2 = some r) :
    msg.isRequest = true ∧ r.transaction = some [msg.mtid] := by
  unfold apply at h
  by_cases hrun : (!d.running) = true
  · rw [if_pos hrun] at h
    cases h
  rw [if_neg hrun] at h
  cases msg with
  | pingReq mtid id =>
    dsimp only at h
    split_ifs at h
    rw [← Option.some.inj h]
    exact ⟨rfl, rfl⟩
  | findNodeReq mtid id target =>
    dsimp only at h
    split_ifs at h
    obtain ⟨nodes, -, rfl⟩ := Option.map_eq_some_iff.mp h
    exact ⟨rfl, rfl⟩
  | getPeersReq mtid id info_hash =>
    dsimp only at h
    split_ifs at h
    unfold getPeers at h
    dsimp only at h
    split_ifs at h
    · obtain ⟨nodes, -, rfl⟩ := Option.map_eq_some_iff.mp h
      exact ⟨rfl, rfl⟩
    · rw [← Option.some.inj h]
      exact ⟨rfl, rfl⟩
  | announceReq mtid id info_hash port token =>
    dsimp only at h
    split_ifs at h
    unfold announce at h
    dsimp only at h
    split_ifs at h
    split at h
    · cases h
    · rw [← Option.some.inj h]
      exact ⟨rfl, rfl⟩
  | pingRsp mtid id => cases h
  | findNodeRsp mtid id nodes => cases h
  | getPeersRsp mtid id token data items => cases h
  | announceRsp mtid id => cases h
  | errMsg mtid id msg => cases h

/-- **A response has the first byte of the request's transaction ID.**.
Source: `RPCServer::readPacket`. Kind: L -/
theorem handle_mtid {a : Arrival} {findCall : UInt8 → Option Method} {dict : Entries} {d : DHT}
    {r : Msg} (h : (d.handle a findCall dict).2 = some r) {t : List UInt8}
    (ht : transactionIn dict = some t) : ∃ b rest, t = b :: rest ∧ r.transaction = some [b] := by
  unfold handle at h
  split at h
  · rename_i msg hmsg
    obtain ⟨hreq, hr⟩ := apply_reply h
    have hmtid := makeRPCMsg_mtid hmsg hreq
    unfold transactionIn at ht
    obtain ⟨v, hv, rfl⟩ := Option.map_eq_some_iff.mp ht
    unfold mtidOf at hmtid
    rw [hv, Option.bind_some] at hmtid
    obtain ⟨rest, hrest⟩ := List.head?_eq_some_iff.mp hmtid
    exact ⟨msg.mtid, rest, hrest, hr⟩
  · cases h

/-- **Every response to a request carries the request's transaction ID exactly if that is one byte
long.**. Source: `kademlia/dht.cpp`. Kind: P -/
theorem echo_iff {a : Arrival} {findCall : UInt8 → Option Method} {dict : Entries} {d : DHT}
    {r : Msg} (h : (d.handle a findCall dict).2 = some r) {t : List UInt8}
    (ht : transactionIn dict = some t) : r.transaction = some t ↔ t.length = 1 := by
  obtain ⟨b, rest, rfl, hr⟩ := handle_mtid h ht
  rw [hr, Option.some.injEq, List.cons.injEq, List.length_cons]
  constructor
  · rintro ⟨-, rfl⟩
    rfl
  · intro hlen
    exact ⟨rfl, (List.eq_nil_of_length_eq_zero (Nat.succ.inj hlen)).symm⟩

/-- A DHT that has just been started. Kind: D -/
def idle : DHT := ⟨true, .new ⟨fun _ => 0⟩ false, .new, fun _ => []⟩

/-- A message from some address. Kind: D -/
def someArrival : Arrival := ⟨0, ⟨1, 1⟩, Database.sha1, fun n => Vector.replicate n 0⟩

/-- A ping of another node with a transaction ID. Kind: D -/
def pingWith (t : List UInt8) : Entries :=
  [(latin1 "a", some (.dict 0 0 [(latin1 "id", some (.value 0 0 (.ofArray [1])))])),
    (latin1 "q", some (.value 0 0 (.ofArray (latin1 "ping")))),
    (latin1 "t", some (.value 0 0 (.ofArray t))),
    (latin1 "y", some (.value 0 0 (.ofArray (latin1 "q"))))]

/-- The ping is answered with the first byte of its ID. Source: `RPCServer::readPacket`. Kind: L -/
theorem handle_pingWith (b : UInt8) (t : List UInt8) :
    (idle.handle someArrival (fun _ => none) (pingWith (b :: t))).2 =
      some (.pingRsp b ⟨fun _ => 0⟩) := by
  have hmsg : makeRPCMsg (fun _ => none) (pingWith (b :: t)) =
      .ok (some (.pingReq b (Key.ofBytes [1]))) := rfl
  have hne : Key.ofBytes [1] ≠ idle.node.our_id := fun heq =>
    absurd (congrFun (congrArg Key.hash heq) 0) (by decide)
  unfold handle
  rw [hmsg]
  dsimp only
  unfold apply
  rw [if_neg (by decide)]
  dsimp only
  rw [if_neg hne]
  rfl

/-- What the sample says. Source: `kademlia/dht.cpp`. Kind: L -/
theorem echo_iff_oneByte : (Msg.pingRsp 97 ⟨fun _ => 0⟩).transaction = some [97] ↔
    [(97 : UInt8)].length = 1 :=
  echo_iff (handle_pingWith 97 []) rfl

/-- A ping with the ID `aa` is answered with the ID `a`. Source: `RPCServer::readPacket`. Kind: P -/
theorem echo_cut : ¬ ∀ (a : Arrival) (findCall : UInt8 → Option Method) (dict : Entries) (d : DHT)
    (r : Msg) (t : List UInt8), (d.handle a findCall dict).2 = some r →
      transactionIn dict = some t → t ≠ [] → r.transaction = some t := by
  intro h
  have hcut := h someArrival (fun _ => none) (pingWith [97, 97]) idle _ [97, 97]
    (handle_pingWith 97 [97]) rfl (by decide)
  exact absurd hcut (by decide)

end DHT

end KTorrent.Dht
