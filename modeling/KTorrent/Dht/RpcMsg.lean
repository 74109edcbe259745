import KTorrent.Bencode.BEncoder
import KTorrent.Bencode.BNode
import KTorrent.Dht.Key

/-!
# Messages between nodes

A request or a response is a bencoded dictionary. `Msg.tree` is what `encode` writes; `parseReq` and
`parseRsp` make a message of a dictionary.

A port that does not fit into an `int` is left unset in the source; it is 0 here. A peer is copied out
of a string without a look at its length: `Overrun` is a read behind its end.

Source: `kademlia/rpcmsg.h`, `kademlia/rpcmsg.cpp`; `kademlia/database.cpp`, `DBItem::DBItem`
-/

namespace KTorrent.Dht

open KTorrent.Util KTorrent.Bencode

/-- Source: `kademlia/rpcmsg.h`, `Method`. Kind: D -/
inductive Method
  | PING
  | FIND_NODE
  | GET_PEERS
  | ANNOUNCE_PEER
  | NONE
deriving DecidableEq

/-- Address and port of a peer, six bytes. Source: `kademlia/database.h`, `DBItem`. Kind: D -/
abbrev DBItem := Vector UInt8 6

/-- Each with the transaction ID `mtid` and the ID of the node it comes from.
Source: `kademlia/rpcmsg.h`, `MsgBase` and its subclasses. Kind: D -/
inductive Msg
  | pingReq (mtid : UInt8) (id : Key)
  | findNodeReq (mtid : UInt8) (id target : Key)
  | getPeersReq (mtid : UInt8) (id info_hash : Key)
  | announceReq (mtid : UInt8) (id info_hash : Key) (port : UInt16) (token : Key)
  | pingRsp (mtid : UInt8) (id : Key)
  | findNodeRsp (mtid : UInt8) (id : Key) (nodes : List UInt8)
  | getPeersRsp (mtid : UInt8) (id token : Key) (data : List UInt8) (items : List DBItem)
  | announceRsp (mtid : UInt8) (id : Key)
  | errMsg (mtid : UInt8) (id : Key) (msg : List UInt8)

/-- The entries of a dictionary. -/
abbrev Entries := List (List UInt8 × Option BNode)

namespace Msg

/-- Source: `MsgBase::getMethod`. Kind: D -/
def method : Msg → Method
  | pingReq .. | pingRsp .. => .PING
  | findNodeReq .. | findNodeRsp .. => .FIND_NODE
  | getPeersReq .. | getPeersRsp .. => .GET_PEERS
  | announceReq .. | announceRsp .. => .ANNOUNCE_PEER
  | errMsg .. => .NONE

/-- Source: `MsgBase::getMTID`. Kind: D -/
def mtid : Msg → UInt8
  | pingReq mtid _ | findNodeReq mtid _ _ | getPeersReq mtid _ _ | announceReq mtid _ _ _ _
  | pingRsp mtid _ | findNodeRsp mtid _ _ | getPeersRsp mtid _ _ _ _ | announceRsp mtid _
  | errMsg mtid _ _ => mtid

/-- Source: `MsgBase::getID`. Kind: D -/
def id : Msg → Key
  | pingReq _ id | findNodeReq _ id _ | getPeersReq _ id _ | announceReq _ id _ _ _
  | pingRsp _ id | findNodeRsp _ id _ | getPeersRsp _ id _ _ _ | announceRsp _ id
  | errMsg _ id _ => id

/-! ### What is written -/

/-- A key. Source: `enc.write(id.getData(),20)`. Kind: D -/
def key (k : Key) : Tree := .bytes k.getData

/-- Source: the `encode` of the requests. Kind: D -/
def request (mtid : UInt8) (name : List UInt8) (args : List (List UInt8 × Tree)) : Tree :=
  .dict [(latin1 "a", .dict args), (latin1 "q", .bytes name), (latin1 "t", .bytes [mtid]),
    (latin1 "y", .bytes (latin1 "q"))]

/-- Source: the `encode` of the responses. Kind: D -/
def response (mtid : UInt8) (args : List (List UInt8 × Tree)) : Tree :=
  .dict [(latin1 "r", .dict args), (latin1 "t", .bytes [mtid]), (latin1 "y", .bytes (latin1 "r"))]

/-- An error is not written. Source: the `encode` of each message. Kind: D -/
def tree : Msg → Option Tree
  | pingReq mtid id => some (request mtid (latin1 "ping") [(latin1 "id", key id)])
  | findNodeReq mtid id target =>
    some (request mtid (latin1 "find_node") [(latin1 "id", key id), (latin1 "target", key target)])
  | getPeersReq mtid id info_hash =>
    some (request mtid (latin1 "get_peers")
      [(latin1 "id", key id), (latin1 "info_hash", key info_hash)])
  | announceReq mtid id info_hash port token =>
    some (request mtid (latin1 "announce_peer")
      [(latin1 "id", key id), (latin1 "info_hash", key info_hash),
        (latin1 "port", .uint32 port.toUInt32), (latin1 "token", key token)])
  | pingRsp mtid id => some (response mtid [(latin1 "id", key id)])
  | findNodeRsp mtid id nodes =>
    some (response mtid [(latin1 "id", key id), (latin1 "nodes", .array nodes)])
  | getPeersRsp mtid id token data items =>
    some (response mtid ((latin1 "id", key id) ::
      if data.length > 0 then [(latin1 "nodes", .array data), (latin1 "token", key token)]
      else [(latin1 "token", key token),
        (latin1 "values", .list (items.map fun item => .bytes item.toList))]))
  | announceRsp mtid id => some (response mtid [(latin1 "id", key id)])
  | errMsg .. => none

/-- Source: `MsgBase::encode`. Kind: D -/
def encode (m : Msg) : List UInt8 :=
  match m.tree with
  | none => []
  | some t => (t.write BEncoderBufferOutput.init).data

end Msg

/-! ### What is read -/

/-- A read behind the end of a string. Kind: D -/
inductive Overrun
  | behind
deriving DecidableEq

/-- The key in a value. Kind: D -/
def keyOf (v : Value) : Key := Key.ofBytes v.toByteArray

/-- The text of a value. Source: `Value::toString`. Kind: D -/
def textOf (v : Value) : List UInt8 := BNode.cString v.strval

/-- The transaction ID: the first byte of a string that is not empty.
Source: `ParseReq`, `ParseRsp`. Kind: D -/
def mtidOf (dict : Entries) : Option UInt8 :=
  (BNode.getValue dict (latin1 "t")).bind fun v => v.toByteArray.head?

/-- The message of a request, its arguments read. Source: `ParseReq`, the methods. Kind: D -/
def parseMethod (args : Entries) (str : List UInt8) (mtid : UInt8) (id : Key) : Option Msg :=
  if str = latin1 "ping" then some (.pingReq mtid id)
  else if str = latin1 "find_node" then
    (BNode.getValue args (latin1 "target")).map fun v => .findNodeReq mtid id (keyOf v)
  else if str = latin1 "get_peers" then
    (BNode.getValue args (latin1 "info_hash")).map fun v => .getPeersReq mtid id (keyOf v)
  else if str = latin1 "announce_peer" then do
    let info_hash ← BNode.getValue args (latin1 "info_hash")
    let port ← BNode.getValue args (latin1 "port")
    let token ← BNode.getValue args (latin1 "token")
    return .announceReq mtid id (keyOf info_hash) (UInt16.ofInt (port.ival.getD 0)) (keyOf token)
  else none

/-- Source: `ParseReq`. Kind: D -/
def parseReq (dict : Entries) : Option Msg := do
  let vn ← BNode.getValue dict (latin1 "q")
  let args ← BNode.getDict dict (latin1 "a")
  let id ← BNode.getValue args (latin1 "id")
  let mtid ← mtidOf dict
  parseMethod args (textOf vn) mtid (keyOf id)

/-- Six bytes of a string. Source: `DBItem::DBItem(const Uint8*)`. Kind: D -/
def dbItem (s : List UInt8) : Except Overrun DBItem :=
  if h : (s.take 6).length = 6 then .ok ⟨(s.take 6).toArray, h⟩ else .error .behind

/-- Children that are no values are passed over. Source: `ParseRsp`, the loop over `values`.
Kind: D -/
def dbItems : List (Option BNode) → Except Overrun (List DBItem)
  | [] => .ok []
  | some (.value _ _ v) :: vals => do
    let item ← dbItem v.toByteArray
    let dbl ← dbItems vals
    return item :: dbl
  | _ :: vals => dbItems vals

/-- A response to `get_peers` that has a token. Source: `ParseRsp`, `GET_PEERS`. Kind: D -/
def parsePeers (args : Entries) (mtid : UInt8) (id token : Key) : Except Overrun (Option Msg) :=
  match BNode.getList args (latin1 "values") with
  | some vals => do
    let dbl ← dbItems vals
    return some (.getPeersRsp mtid id token [] dbl)
  | none =>
    .ok ((BNode.getValue args (latin1 "nodes")).map fun v =>
      .getPeersRsp mtid id token v.toByteArray [])

/-- Without a token, the case `GET_PEERS` runs on into the next one.
Source: `ParseRsp(BDictNode*, Method, Uint8)`, the methods. Kind: D -/
def parseAnswer (args : Entries) (req_method : Method) (mtid : UInt8) (id : Key) :
    Except Overrun (Option Msg) :=
  match req_method with
  | .PING => .ok (some (.pingRsp mtid id))
  | .FIND_NODE =>
    .ok ((BNode.getValue args (latin1 "nodes")).map fun v => .findNodeRsp mtid id v.toByteArray)
  | .GET_PEERS =>
    match BNode.getValue args (latin1 "token") with
    | some token => parsePeers args mtid id (keyOf token)
    | none => .ok (some (.announceRsp mtid id))
  | .ANNOUNCE_PEER => .ok (some (.announceRsp mtid id))
  | .NONE => .ok none

/-- Source: `ParseRsp(BDictNode*, Method, Uint8)`. Kind: D -/
def parseRspOf (dict : Entries) (req_method : Method) (mtid : UInt8) :
    Except Overrun (Option Msg) :=
  match BNode.getDict dict (latin1 "r") with
  | none => .ok none
  | some args =>
    match BNode.getValue args (latin1 "id") with
    | none => .ok none
    | some id => parseAnswer args req_method mtid (keyOf id)

/-- `findCall` gives the method of the call that waits under an ID.
Source: `ParseRsp(BDictNode*, RPCServer*)`. Kind: D -/
def parseRsp (findCall : UInt8 → Option Method) (dict : Entries) : Except Overrun (Option Msg) :=
  match BNode.getDict dict (latin1 "r"), mtidOf dict with
  | some _, some mtid =>
    match findCall mtid with
    | some method => parseRspOf dict method mtid
    | none => .ok none
  | _, _ => .ok none

/-- Source: `ParseErr`. Kind: D -/
def parseErr (dict : Entries) : Option Msg := do
  let vn ← BNode.getValue dict (latin1 "r")
  let args ← BNode.getDict dict (latin1 "a")
  let id ← BNode.getValue args (latin1 "id")
  let mt_id ← BNode.getValue dict (latin1 "t")
  let mtid ← (textOf mt_id).head?
  return .errMsg mtid (keyOf id) (textOf vn)

/-- Source: `MakeRPCMsg`. Kind: D -/
def makeRPCMsg (findCall : UInt8 → Option Method) (dict : Entries) : Except Overrun (Option Msg) :=
  match BNode.getValue dict (latin1 "y") with
  | none => .ok none
  | some vn =>
    if textOf vn = latin1 "q" then .ok (parseReq dict)
    else if textOf vn = latin1 "r" then parseRsp findCall dict
    else if textOf vn = latin1 "e" then .ok (parseErr dict)
    else .ok none

end KTorrent.Dht
