import KTorrent.Dht.KBucket
import KTorrent.Util.Endian
import Mathlib.Data.List.FinRange

/-!
# The routing table

The table has a bucket for each place at which the distance to our own ID can have its first bit.

* `Node.findBucket` — the bucket an ID belongs to.
* `Node.recieved`, `Node.onTimeout` — what messages do to the table.
* `Node.saveTable`, `Node.loadTable` — the table in a file.

Source: `kademlia/node.cpp`; `kademlia/kbucket.cpp`, `KBucket::save` and `KBucket::load`
-/

namespace KTorrent.Dht

open KTorrent.Util

/-- Source: `kademlia/node.h`, `Node`; `calls` counts the operations that can make a call. Kind: D -/
structure Node where
  our_id : Key
  bucket : Fin 160 → Option KBucket
  delete_table : Bool
  calls : ℕ

namespace Node

/-- A table without buckets. Source: `Node::Node`. Kind: D -/
def new (our_id : Key) (delete_table : Bool) : Node := ⟨our_id, fun _ => none, delete_table, 0⟩

/-- The first bit that is on in a byte, from the highest on. Source: `Node::findBucket`, the inner
loop. Kind: D -/
def firstBit (b : UInt8) : Option ℕ :=
  (List.range 8).find? fun j => b &&& (0x80 >>> UInt8.ofNat j) ≠ 0

/-- Source: `Node::findBucket`. Kind: D -/
def findBucket (our_id id : Key) : ℕ :=
  let d := Key.distance id our_id
  ((List.finRange 20).findSome? fun i : Fin 20 =>
    if d.hash i = 0 then none
    else (firstBit (d.hash i)).map fun j => (19 - i.val) * 8 + (7 - j)).getD 0xFF

/-- The table with another bucket in one place. Kind: D -/
def setBucket (i : Fin 160) (b : KBucket) (n : Node) : Node :=
  { n with bucket := Function.update n.bucket i (some b), calls := n.calls + 1 }

/-- A message came from a node. Source: `Node::recieved`. Kind: D -/
def recieved (now : ℕ) (origin : KInetSocketAddress) (id : Key) (n : Node) : Node :=
  if h : findBucket n.our_id id < 160 then
    let i : Fin 160 := ⟨findBucket n.our_id id, h⟩
    n.setBucket i (((n.bucket i).getD {}).insert now n.calls (.new now origin id))
  else n

/-- A call that bucket `i` made was answered. Source: `KBucket::onResponse`. Kind: D -/
def onResponse (now : ℕ) (i : Fin 160) (call : ℕ) (n : Node) : Node :=
  match n.bucket i with
  | none => n
  | some b => n.setBucket i (b.onResponse now n.calls call)

/-- A call that bucket `i` made was not answered. Source: `KBucket::onTimeout(RPCCall*)`. Kind: D -/
def onPingTimeout (now : ℕ) (i : Fin 160) (call : ℕ) (n : Node) : Node :=
  match n.bucket i with
  | none => n
  | some b => n.setBucket i (b.onTimeout now n.calls call)

/-- Source: `Node::onTimeout`. Kind: D -/
def onTimeout (addr : KInetSocketAddress) (n : Node) : Node :=
  match (List.finRange 160).find? fun i => (n.bucket i).any (·.knows addr) with
  | none => n
  | some i =>
      match n.bucket i with
      | none => n
      | some b => n.setBucket i (b.requestTimeout addr)

/-! ### The file -/

/-- Source: `kademlia/kbucket.h`, `BUCKET_MAGIC_NUMBER`. Kind: D -/
def BUCKET_MAGIC_NUMBER : ℕ := 0xB0C4B0C4

/-- Source: `kademlia/kbucket.h`, `BucketHeader`. Kind: D -/
structure BucketHeader where
  magic : ℕ
  index : ℕ
  num_entries : ℕ
deriving DecidableEq

/-- Source: `sizeof(BucketHeader)`. Kind: D -/
def BucketHeader.size : ℕ := 12

/-- The header as it is in memory. Kind: D -/
def BucketHeader.bytes (hdr : BucketHeader) : List UInt8 :=
  hostWord hdr.magic ++ hostWord hdr.index ++ hostWord hdr.num_entries

/-- Source: `fptr.read(&hdr,sizeof(BucketHeader))`. Kind: D -/
def BucketHeader.read (file : List UInt8) : BucketHeader :=
  ⟨wordAt file 0, wordAt file 4, wordAt file 8⟩

/-- Source: `KBucket::save`, the loop body. Kind: D -/
def entryBytes (e : KBucketEntry) : List UInt8 :=
  uint32Bytes e.addr.ip.toNat ++ uint16Bytes e.addr.port.toNat ++ e.node_id.getData

/-- Source: `KBucket::save`. Kind: D -/
def saveBucket (i : Fin 160) (b : KBucket) : List UInt8 :=
  BucketHeader.bytes ⟨BUCKET_MAGIC_NUMBER, i, b.entries.length⟩ ++ b.entries.flatMap entryBytes

/-- Source: `Node::saveTable`. Kind: D -/
def saveTable (n : Node) : List UInt8 :=
  (List.finRange 160).flatMap fun i => (n.bucket i).elim [] (saveBucket i)

/-- Source: `KBucket::load`, the loop body. Kind: D -/
def readEntry (now : ℕ) (tmp : List UInt8) : KBucketEntry :=
  .new now ⟨UInt32.ofNat (readUint32 tmp 0), UInt16.ofNat (readUint16 tmp 4)⟩
    (Key.ofBytes (tmp.drop 6))

/-- So many entries are left to be read. Source: `KBucket::load`, the loop. Kind: D -/
def loadEntries (now : ℕ) : ℕ → List UInt8 → List KBucketEntry
  | 0, _ => []
  | n + 1, file =>
      if file.length < 26 then []
      else readEntry now (file.take 26) :: loadEntries now n (file.drop 26)

/-- A header that was read leaves less to be read. Source: `kademlia/node.cpp`. Kind: L -/
theorem length_drop_lt {file : List UInt8} (h : ¬ file.length < BucketHeader.size) (k : ℕ) :
    ((file.drop BucketHeader.size).drop k).length < file.length := by
  have hsize : BucketHeader.size = 12 := rfl
  rw [List.length_drop, List.length_drop]
  omega

/-- `none` is a write behind the end of the table. Source: `Node::loadTable`, the loop. Kind: D -/
def loadBuckets (now : ℕ) (file : List UInt8) (n : Node) : Option Node :=
  if hlen : file.length < BucketHeader.size then some n
  else
    let hdr := BucketHeader.read file
    let rest := file.drop BucketHeader.size
    if hdr.magic ≠ BUCKET_MAGIC_NUMBER ∨ hdr.num_entries > K ∨ hdr.index > 160 then some n
    else if hdr.num_entries = 0 then loadBuckets now rest n
    else if h : hdr.index < 160 then
      loadBuckets now (rest.drop (26 * hdr.num_entries))
        (n.setBucket ⟨hdr.index, h⟩ { entries := loadEntries now hdr.num_entries rest })
    else none
termination_by file.length
decreasing_by
  · exact length_drop_lt hlen 0
  · exact length_drop_lt hlen _

/-- Source: `Node::loadTable`. Kind: D -/
def loadTable (now : ℕ) (file : List UInt8) (n : Node) : Option Node :=
  if n.delete_table then some { n with delete_table := false } else loadBuckets now file n

end Node

end KTorrent.Dht
