import KTorrent.Dht.Key
import KTorrent.Util.Word

/-!
# A bucket of the routing table

A bucket holds the contacts whose distance to our own ID has its first bit in one place, the one
that was seen last at the end. A newcomer that finds the bucket full replaces a bad contact, or
waits until a questionable one has been pinged, or waits for its turn to do so.

* `KBucketEntry` — a contact, with what it has done lately; two are equal if address and ID are.
* `KBucket.insert`, `KBucket.onResponse`, `KBucket.onTimeout` — a message came, a ping was answered,
  a ping was not answered.
* `KBucket.requestTimeout` — some other request to an address was not answered.

A call is a number, the one that its pointer stands for; `c` is that of the call an operation makes
if it makes one.

Source: `kademlia/kbucket.cpp`
-/

namespace KTorrent.Dht

open KTorrent.Util

/-! ### Entries -/

/-- The address and the port of a node. Source: `KNetwork::KInetSocketAddress`. Kind: D -/
structure KInetSocketAddress where
  ip : UInt32
  port : UInt16
deriving DecidableEq

/-- Source: `kademlia/kbucket.h`, `KBucketEntry`. Kind: D -/
structure KBucketEntry where
  addr : KInetSocketAddress
  node_id : Key
  last_responded : ℕ
  failed_queries : ℕ
  questionable_pings : ℕ
deriving DecidableEq

/-- Source: `kademlia/kbucket.h`, `K`. Kind: D -/
def K : ℕ := 8

namespace KBucketEntry

/-- Source: `KBucketEntry::KBucketEntry(addr,id)`. Kind: D -/
def new (now : ℕ) (addr : KInetSocketAddress) (id : Key) : KBucketEntry := ⟨addr, id, now, 0, 0⟩

/-- Source: `KBucketEntry::operator ==`. Kind: D -/
def eq (e f : KBucketEntry) : Bool := decide (e.addr = f.addr) && decide (e.node_id = f.node_id)

/-- Source: `KBucketEntry::isGood`. Kind: D -/
def isGood (now : ℕ) (e : KBucketEntry) : Bool :=
  if sub64 now e.last_responded > 15 * 60 * 1000 then false else true

/-- Source: `KBucketEntry::isQuestionable`. Kind: D -/
def isQuestionable (now : ℕ) (e : KBucketEntry) : Bool :=
  if sub64 now e.last_responded > 15 * 60 * 1000 then true else false

/-- Source: `KBucketEntry::isBad`. Kind: D -/
def isBad (now : ℕ) (e : KBucketEntry) : Bool :=
  if e.isGood now then false else decide (e.failed_queries > 2 ∨ e.questionable_pings > 2)

/-- Source: `KBucketEntry::requestTimeout`. Kind: D -/
def requestTimeout (e : KBucketEntry) : KBucketEntry :=
  { e with failed_queries := u32 (e.failed_queries + 1) }

/-- Source: `KBucketEntry::onPingQuestionable`. Kind: D -/
def onPingQuestionable (e : KBucketEntry) : KBucketEntry :=
  { e with questionable_pings := u32 (e.questionable_pings + 1) }

/-- What tells one contact from another. Kind: D -/
def contact (e : KBucketEntry) : KInetSocketAddress × Key := (e.addr, e.node_id)

/-- Entries are equal when their contacts are. Source: `kademlia/kbucket.cpp`. Kind: L -/
theorem eq_iff (e f : KBucketEntry) : eq e f = true ↔ e.contact = f.contact := by
  simp [eq, contact]

/-- A timeout keeps the contact. Source: `KBucketEntry::requestTimeout`. Kind: L -/
@[simp] theorem contact_requestTimeout (e : KBucketEntry) : e.requestTimeout.contact = e.contact :=
  rfl

/-- A ping keeps the contact. Source: `KBucketEntry::onPingQuestionable`. Kind: L -/
@[simp] theorem contact_onPingQuestionable (e : KBucketEntry) :
    e.onPingQuestionable.contact = e.contact :=
  rfl

end KBucketEntry

/-! ### Buckets -/

/-- The first element with a property is changed. Kind: D -/
def modifyFirst {α : Type} (p : α → Bool) (f : α → α) : List α → List α
  | [] => []
  | x :: xs => if p x then f x :: xs else x :: modifyFirst p f xs

/-- A ping that was sent for a contact that waits: the call, the address that is pinged, and the
contact. Kind: D -/
structure Ping where
  call : ℕ
  origin : KInetSocketAddress
  entry : KBucketEntry
deriving DecidableEq

/-- Source: `kademlia/kbucket.h`, `KBucket`. Kind: D -/
structure KBucket where
  entries : List KBucketEntry := []
  pending_entries : List KBucketEntry := []
  pending_entries_busy_pinging : List Ping := []
deriving DecidableEq

namespace KBucket

/-- The first entry with a property is removed, and another one is appended.
Source: `entries.remove(i); entries.append(entry);`. Kind: D -/
def replaced (p : KBucketEntry → Bool) (entry : KBucketEntry) (es : List KBucketEntry) :
    List KBucketEntry :=
  es.eraseP p ++ [entry]

/-- `none` if there is no bad entry. Source: `KBucket::replaceBadEntry`. Kind: D -/
def replaceBadEntry (now : ℕ) (entry : KBucketEntry) (b : KBucket) : Option KBucket :=
  if b.entries.any (·.isBad now) then
    some { b with entries := replaced (·.isBad now) entry b.entries }
  else none

/-- Source: `KBucket::pingQuestionable`. Kind: D -/
def pingQuestionable (now c : ℕ) (replacement_entry : KBucketEntry) (b : KBucket) : KBucket :=
  if b.pending_entries_busy_pinging.length ≥ 2 then
    { b with pending_entries := b.pending_entries ++ [replacement_entry] }
  else
    match b.entries.find? (·.isQuestionable now) with
    | none => b
    | some e =>
        { b with
          entries :=
            modifyFirst (·.isQuestionable now) KBucketEntry.onPingQuestionable b.entries
          pending_entries_busy_pinging :=
            b.pending_entries_busy_pinging ++ [⟨c, e.addr, replacement_entry⟩] }

/-- `if (!replaceBadEntry(entry)) pingQuestionable(entry);`. Kind: D -/
def replaceOrPing (now c : ℕ) (entry : KBucketEntry) (b : KBucket) : KBucket :=
  (b.replaceBadEntry now entry).getD (b.pingQuestionable now c entry)

/-- Source: `KBucket::insert`. Kind: D -/
def insert (now c : ℕ) (entry : KBucketEntry) (b : KBucket) : KBucket :=
  if b.entries.any entry.eq then { b with entries := replaced entry.eq entry b.entries }
  else if b.entries.length < K then { b with entries := b.entries ++ [entry] }
  else b.replaceOrPing now c entry

/-- The ping that a call is. Source: `pending_entries_busy_pinging[c]`. Kind: D -/
def pinging (call : ℕ) (b : KBucket) : Option Ping :=
  b.pending_entries_busy_pinging.find? fun p => p.call = call

/-- Source: `pending_entries_busy_pinging.erase(c)`. Kind: D -/
def erasePing (call : ℕ) (b : KBucket) : KBucket :=
  { b with
    pending_entries_busy_pinging :=
      b.pending_entries_busy_pinging.eraseP fun p => p.call = call }

/-- Source: `KBucket::onResponse`. Kind: D -/
def onResponse (now c call : ℕ) (b : KBucket) : KBucket :=
  match b.pinging call with
  | none => b
  | some p => (b.erasePing call).replaceOrPing now c p.entry

/-- The contact that did not answer gives its place to the one that waits.
Source: `KBucket::onTimeout(RPCCall*)`, the loop. Kind: D -/
def replaceSilent (p : Ping) (b : KBucket) : KBucket :=
  if b.entries.any (fun e => e.addr = p.origin) then
    { b with entries := replaced (fun e => e.addr = p.origin) p.entry b.entries }
  else b

/-- Another contact that waits has its turn. Source: `KBucket::onTimeout(RPCCall*)`. Kind: D -/
def nextPending (now c : ℕ) (b : KBucket) : KBucket :=
  match b.pending_entries with
  | [] => b
  | pe :: rest =>
      if b.pending_entries_busy_pinging.length < 2 then
        { b with pending_entries := rest }.replaceOrPing now c pe
      else b

/-- Source: `KBucket::onTimeout(RPCCall*)`. Kind: D -/
def onTimeout (now c call : ℕ) (b : KBucket) : KBucket :=
  match b.pinging call with
  | none => b
  | some p => ((b.replaceSilent p).erasePing call).nextPending now c

/-- Source: `KBucket::onTimeout(const KInetSocketAddress &)`. Kind: D -/
def requestTimeout (addr : KInetSocketAddress) (b : KBucket) : KBucket :=
  { b with entries := modifyFirst (fun e => e.addr = addr) KBucketEntry.requestTimeout b.entries }

/-- Whether an address is in the bucket, which is what is returned.
Source: `KBucket::onTimeout(const KInetSocketAddress &)`. Kind: D -/
def knows (addr : KInetSocketAddress) (b : KBucket) : Bool := b.entries.any fun e => e.addr = addr

end KBucket

end KTorrent.Dht
