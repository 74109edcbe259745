import KTorrent.Bencode.RoundTrip
import KTorrent.Dht.RpcMsg

/-!
# What a message is after encoding and parsing

* `request_read`, `response_read` — the parser finds the transaction ID, the method and the arguments
  where `encode` put them.
* `makeRPCMsg_tree` — parsing the dictionary of a message gives the message back.
* `codec_iff` — so a message comes back if and only if the decoder can hold its string of nodes.

Source: `kademlia/rpcmsg.cpp`
-/

namespace KTorrent.Dht

open KTorrent.Util KTorrent.Bencode

namespace Msg

/-- The messages the constructors make: a response to `get_peers` has nodes or peers, not both.
Errors are left out. Source: `GetPeersRsp::GetPeersRsp`. Kind: D -/
def Built : Msg → Prop
  | getPeersRsp _ _ _ data items => data = [] ∨ items = []
  | errMsg .. => False
  | _ => True

/-- Kind: D -/
def isResponse : Msg → Bool
  | pingRsp .. | findNodeRsp .. | getPeersRsp .. | announceRsp .. => true
  | _ => false

/-- The string of nodes is shorter than 2^31. Kind: D -/
def Fits : Msg → Prop
  | findNodeRsp _ _ nodes => nodes.length < 2 ^ 31
  | getPeersRsp _ _ _ data _ => data.length < 2 ^ 31
  | _ => True

/-- The bytes of the message are decoded to a dictionary, and this is parsed to the message.
Kind: D -/
def Decodes (findCall : UInt8 → Option Method) (m : Msg) : Prop :=
  ∃ off len dict pos, BDecoder.decode m.encode 0 = .ok (some (.dict off len dict), pos) ∧
    makeRPCMsg findCall dict = .ok (some m)

/-! ### Looking up what was written -/

/-- The parts of a request. Source: `kademlia/rpcmsg.cpp`. Kind: L -/
theorem request_read (findCall : UInt8 → Option Method) (mtid : UInt8) (id : Key)
    {name : List UInt8} (hname : BNode.cString name = name) (args : List (List UInt8 × Tree))
    (off : ℕ) :
    ∃ off', makeRPCMsg findCall (Tree.nodeEntries off
        [(latin1 "a", .dict ((latin1 "id", key id) :: args)), (latin1 "q", .bytes name),
          (latin1 "t", .bytes [mtid]), (latin1 "y", .bytes (latin1 "q"))]) =
      .ok (parseMethod (Tree.nodeEntries off' ((latin1 "id", key id) :: args)) name mtid id) := by
  refine ⟨off + 3 + 1, ?_⟩
  have hread : makeRPCMsg findCall (Tree.nodeEntries off
      [(latin1 "a", .dict ((latin1 "id", key id) :: args)), (latin1 "q", .bytes name),
        (latin1 "t", .bytes [mtid]), (latin1 "y", .bytes (latin1 "q"))]) =
      .ok (parseMethod (Tree.nodeEntries (off + 3 + 1) ((latin1 "id", key id) :: args))
        (BNode.cString name) mtid (Key.ofBytes id.getData)) := rfl
  rw [hread, hname, Key.ofBytes_getData]

/-- The parts of a response to a call that waits. Source: `kademlia/rpcmsg.cpp`. Kind: L -/
theorem response_read {findCall : UInt8 → Option Method} {mtid : UInt8} {method : Method}
    (h : findCall mtid = some method) (id : Key) (args : List (List UInt8 × Tree)) (off : ℕ) :
    ∃ off', makeRPCMsg findCall (Tree.nodeEntries off
        [(latin1 "r", .dict ((latin1 "id", key id) :: args)), (latin1 "t", .bytes [mtid]),
          (latin1 "y", .bytes (latin1 "r"))]) =
      parseAnswer (Tree.nodeEntries off' ((latin1 "id", key id) :: args)) method mtid id := by
  refine ⟨off + 3 + 1, ?_⟩
  set dict := Tree.nodeEntries off
    [(latin1 "r", .dict ((latin1 "id", key id) :: args)), (latin1 "t", .bytes [mtid]),
      (latin1 "y", .bytes (latin1 "r"))] with hdict
  have hargs : BNode.getDict dict (latin1 "r") =
      some (Tree.nodeEntries (off + 3 + 1) ((latin1 "id", key id) :: args)) := rfl
  have hmtid : mtidOf dict = some mtid := rfl
  have hread : makeRPCMsg findCall dict = parseRspOf dict method mtid := by
    show parseRsp findCall dict = _
    unfold parseRsp
    simp only [hargs, hmtid, h]
  have hanswer : parseRspOf dict method mtid =
      parseAnswer (Tree.nodeEntries (off + 3 + 1) ((latin1 "id", key id) :: args)) method mtid
        (Key.ofBytes id.getData) := rfl
  rw [hread, hanswer, Key.ofBytes_getData]

/-- The peers of a list. Source: `ParseRsp`. Kind: L -/
theorem dbItems_nodeItems (items : List DBItem) (off : ℕ) :
    dbItems (Tree.nodeItems off (items.map fun item => .bytes item.toList)) = .ok items := by
  induction items generalizing off with
  | nil => rfl
  | cons item items ih =>
    have hitem : dbItem item.toList = .ok item := by
      have htake : item.toList.take 6 = item.toList := List.take_of_length_le (by simp)
      unfold dbItem
      simp only [htake, Vector.length_toList, dif_pos]
      congr 1
    rw [List.map_cons, Tree.nodeItems, Bencode.Tree.node, dbItems]
    show (do let item ← dbItem item.toList; _) = _
    rw [hitem]
    show (do let dbl ← dbItems _; _) = _
    rw [ih]
    rfl

/-- A port. Source: `kademlia/rpcmsg.cpp`. Kind: L -/
theorem port_read (port : UInt16) :
    UInt16.ofInt ((Tree.intOf port.toUInt32.toNat).ival.getD 0) = port := by
  have hport : port.toUInt32.toNat < 2 ^ 31 := by
    rw [UInt16.toNat_toUInt32]
    exact port.toNat_lt.trans (by decide)
  rw [Tree.intOf, if_pos hport, UInt16.toNat_toUInt32]
  show UInt16.ofNat ((port.toNat : ℤ) % 2 ^ 16).toNat = port
  rw [Int.emod_eq_of_lt (Int.natCast_nonneg _) (by exact_mod_cast port.toNat_lt),
    Int.toNat_natCast, UInt16.ofNat_toNat]

/-- **The dictionary of a message is parsed to the message.**. Source: `MakeRPCMsg`. Kind: P -/
theorem makeRPCMsg_tree {findCall : UInt8 → Option Method} {m : Msg} (hm : m.Built)
    (hcall : m.isResponse = true → findCall m.mtid = some m.method) (off : ℕ) :
    ∃ es, m.tree = some (.dict es) ∧
      makeRPCMsg findCall (Tree.nodeEntries off es) = .ok (some m) := by
  cases m with
  | pingReq mtid id =>
    have hname : BNode.cString (latin1 "ping") = latin1 "ping" := rfl
    obtain ⟨off', hread⟩ := request_read findCall mtid id hname [] off
    exact ⟨_, rfl, hread⟩
  | findNodeReq mtid id target =>
    have hname : BNode.cString (latin1 "find_node") = latin1 "find_node" := rfl
    obtain ⟨off', hread⟩ :=
      request_read findCall mtid id hname [(latin1 "target", key target)] off
    have hmsg : parseMethod (Tree.nodeEntries off'
        [(latin1 "id", key id), (latin1 "target", key target)]) (latin1 "find_node") mtid id =
        some (findNodeReq mtid id (Key.ofBytes target.getData)) := rfl
    rw [hmsg, Key.ofBytes_getData] at hread
    exact ⟨_, rfl, hread⟩
  | getPeersReq mtid id info_hash =>
    have hname : BNode.cString (latin1 "get_peers") = latin1 "get_peers" := rfl
    obtain ⟨off', hread⟩ :=
      request_read findCall mtid id hname [(latin1 "info_hash", key info_hash)] off
    have hmsg : parseMethod (Tree.nodeEntries off'
        [(latin1 "id", key id), (latin1 "info_hash", key info_hash)]) (latin1 "get_peers") mtid id =
        some (getPeersReq mtid id (Key.ofBytes info_hash.getData)) := rfl
    rw [hmsg, Key.ofBytes_getData] at hread
    exact ⟨_, rfl, hread⟩
  | announceReq mtid id info_hash port token =>
    have hname : BNode.cString (latin1 "announce_peer") = latin1 "announce_peer" := rfl
    obtain ⟨off', hread⟩ := request_read findCall mtid id hname
      [(latin1 "info_hash", key info_hash), (latin1 "port", .uint32 port.toUInt32),
        (latin1 "token", key token)] off
    have hmsg : parseMethod (Tree.nodeEntries off'
        [(latin1 "id", key id), (latin1 "info_hash", key info_hash),
          (latin1 "port", .uint32 port.toUInt32), (latin1 "token", key token)])
        (latin1 "announce_peer") mtid id =
        some (announceReq mtid id (Key.ofBytes info_hash.getData)
          (UInt16.ofInt ((Tree.intOf port.toUInt32.toNat).ival.getD 0))
          (Key.ofBytes token.getData)) := rfl
    rw [hmsg, Key.ofBytes_getData, Key.ofBytes_getData, port_read] at hread
    exact ⟨_, rfl, hread⟩
  | pingRsp mtid id =>
    obtain ⟨off', hread⟩ := response_read (hcall rfl) id [] off
    exact ⟨_, rfl, hread⟩
  | findNodeRsp mtid id nodes =>
    obtain ⟨off', hread⟩ := response_read (hcall rfl) id [(latin1 "nodes", .array nodes)] off
    exact ⟨_, rfl, hread⟩
  | getPeersRsp mtid id token data items =>
    by_cases hdata : data.length > 0
    · -- there are nodes, so no peers
      obtain rfl : items = [] := hm.resolve_left (List.ne_nil_of_length_pos hdata)
      obtain ⟨off', hread⟩ := response_read (hcall rfl) id
        [(latin1 "nodes", .array data), (latin1 "token", key token)] off
      have hmsg : parseAnswer (Tree.nodeEntries off' [(latin1 "id", key id),
          (latin1 "nodes", .array data), (latin1 "token", key token)]) .GET_PEERS mtid id =
          .ok (some (getPeersRsp mtid id (Key.ofBytes token.getData) data [])) := rfl
      refine ⟨_, by rw [tree, if_pos hdata]; rfl, hread.trans ?_⟩
      rw [Key.ofBytes_getData] at hmsg
      exact hmsg
    · -- there are peers, or neither
      obtain rfl : data = [] := List.eq_nil_of_length_eq_zero (by omega)
      obtain ⟨off', hread⟩ := response_read (hcall rfl) id
        [(latin1 "token", key token),
          (latin1 "values", .list (items.map fun item : DBItem => .bytes item.toList))] off
      refine ⟨_, by rw [tree, if_neg hdata]; rfl, hread.trans ?_⟩
      show (do
        let dbl ← dbItems (Tree.nodeItems _ (items.map fun item : DBItem => .bytes item.toList))
        return some (getPeersRsp mtid id (Key.ofBytes token.getData) [] dbl)) = _
      rw [dbItems_nodeItems, Key.ofBytes_getData]
      rfl
  | announceRsp mtid id =>
    obtain ⟨off', hread⟩ := response_read (hcall rfl) id [] off
    exact ⟨_, rfl, hread⟩
  | errMsg mtid id msg => exact absurd hm not_false

/-! ### What the decoder can hold -/

/-- Items of a few bytes fit. Source: `kademlia/rpcmsg.cpp`. Kind: L -/
theorem fitItems_bytes (items : List DBItem) :
    Tree.FitItems (items.map fun item : DBItem => .bytes item.toList) := by
  induction items with
  | nil => trivial
  | cons item items ih =>
    refine ⟨?_, ih⟩
    show item.toList.length < 2 ^ 31
    rw [Vector.length_toList]
    decide

/-- A key fits. Source: `kademlia/rpcmsg.cpp`. Kind: L -/
theorem fits_key (k : Key) : (key k).Fits := by
  show k.getData.length < 2 ^ 31
  rw [Key.length_getData]
  decide

/-- A request fits if its arguments do. Source: `kademlia/rpcmsg.cpp`. Kind: L -/
theorem fits_request (mtid : UInt8) {name : List UInt8} (hname : name.length < 2 ^ 31)
    (args : List (List UInt8 × Tree)) :
    (request mtid name args).Fits ↔ Tree.FitEntries args := by
  constructor
  · rintro ⟨-, h, -⟩
    exact h
  · intro h
    exact ⟨by decide, h, by decide, hname, by decide, show 1 < 2 ^ 31 by decide, by decide,
      show (latin1 "q").length < 2 ^ 31 by decide, trivial⟩

/-- A response fits if its arguments do. Source: `kademlia/rpcmsg.cpp`. Kind: L -/
theorem fits_response (mtid : UInt8) (args : List (List UInt8 × Tree)) :
    (response mtid args).Fits ↔ Tree.FitEntries args := by
  constructor
  · rintro ⟨-, h, -⟩
    exact h
  · intro h
    exact ⟨by decide, h, by decide, show 1 < 2 ^ 31 by decide, by decide,
      show (latin1 "r").length < 2 ^ 31 by decide, trivial⟩

/-- Only the nodes can be too long. Source: `kademlia/rpcmsg.cpp`. Kind: L -/
theorem fits_tree {m : Msg} {t : Tree} (h : m.tree = some t) : t.Fits ↔ m.Fits := by
  have hkey : ∀ {name : List UInt8} (k : Key) {es : List (List UInt8 × Tree)},
      name.length < 2 ^ 31 → (Tree.FitEntries ((name, key k) :: es) ↔ Tree.FitEntries es) := by
    intro name k es hname
    exact ⟨fun h => h.2.2, fun h => ⟨hname, fits_key k, h⟩⟩
  cases m with
  | pingReq mtid id =>
    obtain rfl := Option.some.inj h
    rw [fits_request _ (by decide), hkey _ (by decide)]
    rfl
  | findNodeReq mtid id target =>
    obtain rfl := Option.some.inj h
    rw [fits_request _ (by decide), hkey _ (by decide), hkey _ (by decide)]
    rfl
  | getPeersReq mtid id info_hash =>
    obtain rfl := Option.some.inj h
    rw [fits_request _ (by decide), hkey _ (by decide), hkey _ (by decide)]
    rfl
  | announceReq mtid id info_hash port token =>
    obtain rfl := Option.some.inj h
    rw [fits_request _ (by decide), hkey _ (by decide), hkey _ (by decide)]
    exact ⟨fun _ => trivial, fun _ => ⟨by decide, trivial, by decide, fits_key token, trivial⟩⟩
  | pingRsp mtid id =>
    obtain rfl := Option.some.inj h
    rw [fits_response, hkey _ (by decide)]
    rfl
  | findNodeRsp mtid id nodes =>
    obtain rfl := Option.some.inj h
    rw [fits_response, hkey _ (by decide)]
    exact ⟨fun h => h.2.1, fun h => ⟨by decide, h, trivial⟩⟩
  | getPeersRsp mtid id token data items =>
    obtain rfl := Option.some.inj h
    rw [fits_response, hkey _ (by decide)]
    by_cases hdata : data.length > 0
    · rw [if_pos hdata]
      exact ⟨fun h => h.2.1, fun h => ⟨by decide, h, by decide, fits_key token, trivial⟩⟩
    · rw [if_neg hdata, hkey _ (by decide)]
      have hnone : data.length < 2 ^ 31 := by omega
      exact ⟨fun _ => hnone, fun _ => ⟨by decide, fitItems_bytes items, trivial⟩⟩
  | announceRsp mtid id =>
    obtain rfl := Option.some.inj h
    rw [fits_response, hkey _ (by decide)]
    rfl
  | errMsg mtid id msg => cases h

/-- A message that is too long for the decoder. Source: `kademlia/rpcmsg.cpp`. Kind: L -/
theorem not_decodes {m : Msg} (hm : m.Built) (hlen : m.encode.length < 2 ^ 32) (h : ¬ m.Fits)
    (findCall : UInt8 → Option Method) : ¬ m.Decodes findCall := by
  rintro ⟨off, len, dict, pos, hdec, -⟩
  cases htree : m.tree with
  | none =>
    cases m with
    | errMsg => exact hm
    | _ => cases htree
  | some t =>
    have hencode : m.encode = t.encode := by
      rw [encode, htree]
      exact Tree.writeTree_data t
    rw [hencode] at hlen hdec
    have hfront : t.encode.drop 0 = t.encode ++ [] := by rw [List.drop_zero, List.append_nil]
    obtain ⟨e, he⟩ := Tree.decode_unfit t hlen (mt (fits_tree htree).mp h) hfront le_rfl
    rw [BDecoder.decode, he] at hdec
    cases hdec

/-- **A message comes back** if and only if its nodes are not too long for the decoder: every
request, and every response to a call that waits. Source: `kademlia/rpcmsg.cpp`. Kind: P -/
theorem codec_iff (m : Msg) (hm : m.Built) (hlen : m.encode.length < 2 ^ 32)
    (findCall : UInt8 → Option Method)
    (hcall : m.isResponse = true → findCall m.mtid = some m.method) :
    m.Decodes findCall ↔ m.Fits := by
  constructor
  · intro h
    by_contra hfits
    exact not_decodes hm hlen hfits findCall h
  · intro h
    obtain ⟨es, htree, -⟩ := makeRPCMsg_tree hm hcall 0
    obtain ⟨es', htree', hparse⟩ := makeRPCMsg_tree hm hcall (0 + 1)
    obtain rfl : es = es' := by
      rw [htree] at htree'
      injection htree' with h
      injection h
    have hencode : m.encode = ((Tree.dict es).write BEncoderBufferOutput.init).data := by
      rw [encode, htree]
    have hround := (Tree.roundTrips_iff (.dict es) (hencode ▸ hlen)).mpr ((fits_tree htree).mpr h)
    unfold Tree.RoundTrips at hround
    simp only [Bencode.Tree.node] at hround
    rw [← hencode] at hround
    exact ⟨_, _, _, _, hround, hparse⟩

/-- A response with a peer. Source: `kademlia/rpcmsg.cpp`. Kind: L -/
theorem codec_peer :
    (getPeersRsp 255 ⟨fun _ => 0⟩ ⟨fun _ => 7⟩ [] [⟨#[1, 2, 3, 4, 5, 6], rfl⟩]).Decodes
      fun _ => some .GET_PEERS := by
  have hlen : (getPeersRsp 255 ⟨fun _ => 0⟩ ⟨fun _ => 7⟩ []
      [⟨#[1, 2, 3, 4, 5, 6], rfl⟩]).encode.length < 2 ^ 32 := by decide +kernel
  exact (codec_iff (getPeersRsp 255 ⟨fun _ => 0⟩ ⟨fun _ => 7⟩ [] [⟨#[1, 2, 3, 4, 5, 6], rfl⟩])
    (Or.inl rfl) hlen _ fun _ => rfl).mpr (show ([] : List UInt8).length < 2 ^ 31 by decide)

/-- A response with 2^31 bytes of nodes is not decoded. Source: `GetPeersRsp::GetPeersRsp`.
Kind: L -/
theorem nodes_rejected :
    ¬ ∀ (m : Msg) (findCall : UInt8 → Option Method), m.Built → m.encode.length < 2 ^ 32 →
      (m.isResponse = true → findCall m.mtid = some m.method) → m.Decodes findCall := by
  intro h
  have hlen : ∀ nodes : List UInt8, nodes.length = 2 ^ 31 →
      (findNodeRsp 0 ⟨fun _ => 0⟩ nodes).encode.length < 2 ^ 32 := by
    intro nodes hnodes
    have hnumber : (TQString.number (2 ^ 31)).length = 10 := by decide +kernel
    show ((response 0 [(latin1 "id", key ⟨fun _ => 0⟩), (latin1 "nodes", .array nodes)]).write
      BEncoderBufferOutput.init).data.length < 2 ^ 32
    rw [Tree.writeTree_data]
    simp only [response, Tree.encode, Tree.encodeEntries, key, List.length_cons, List.length_append,
      Tree.length_encodeString, Key.length_getData, hnodes, hnumber, List.length_nil]
    decide +kernel
  have hnodes : (List.replicate (2 ^ 31) (0 : UInt8)).length = 2 ^ 31 := List.length_replicate
  refine not_decodes (m := findNodeRsp 0 ⟨fun _ => 0⟩ (List.replicate (2 ^ 31) 0)) trivial
    (hlen _ hnodes) ?_ (fun _ => some .FIND_NODE) (h _ _ trivial (hlen _ hnodes) fun _ => rfl)
  show ¬ (List.replicate (2 ^ 31) (0 : UInt8)).length < 2 ^ 31
  rw [hnodes]
  exact lt_irrefl _

end Msg

end KTorrent.Dht
