import KTorrent.Dht.KClosestNodesSearch
import KTorrent.Lib.Buffer

/-!
# Nodes packed into bytes

The result of a search is sent as a string of 26 bytes for each node: the ID, the address and the
port.

* `packBucketEntry`, `unpackBucketEntry` — one node.
* `KClosestNodesSearch.pack` — all nodes of a search; the iterator is advanced twice in each round.
* `KClosestNodesSearch.packs_iff` — what is packed can be unpacked again only if there is nothing to
  be packed.

The library that stands behind `KInetSocketAddress` makes an address from four bytes; that is the
parameter `ofRaw`.

Source: `kademlia/pack.cpp`; `kademlia/kclosestnodessearch.cpp`, `KClosestNodesSearch::pack`
-/

namespace KTorrent.Dht

open KTorrent.Lib KTorrent.Util

/-- What can go wrong: the error that is thrown, an access outside of the buffer, or an iterator that
is moved behind the end. Kind: D -/
inductive PackError where
  | notEnoughRoom
  | outOfBounds
  | pastTheEnd
deriving DecidableEq

/-- Source: `PackBucketEntry`. Kind: D -/
def packBucketEntry (e : KBucketEntry) (ba : List UInt8) (off : ℕ) : Except PackError (List UInt8) :=
  if u32 (off + 26) > ba.length then .error .notEnoughRoom
  else
    match place ba off (e.node_id.getData ++ uint32Bytes e.addr.ip.toNat ++
        uint16Bytes e.addr.port.toNat) with
    | none => .error .outOfBounds
    | some ba => .ok ba

/-- The address and the ID of the entry. Source: `UnpackBucketEntry`. Kind: D -/
def unpackBucketEntry (ofRaw : List UInt8 → UInt32) (ba : List UInt8) (off : ℕ) :
    Except PackError (KInetSocketAddress × Key) :=
  if u32 (off + 26) > ba.length then .error .notEnoughRoom
  else
    match peek ba off 26 with
    | none => .error .outOfBounds
    | some ptr =>
        .ok (⟨ofRaw ((ptr.drop 20).take 4), UInt16.ofNat (readUint16 ptr 24)⟩, Key.ofBytes ptr)

namespace KClosestNodesSearch

/-- Source: `KClosestNodesSearch::requiredSpace`. Kind: D -/
def requiredSpace (s : KClosestNodesSearch) : ℕ := u32 (s.emap.size * 26)

/-- The entries from the iterator on. Source: `KClosestNodesSearch::pack`, the loop. Kind: D -/
def packLoop (max_items : ℕ) :
    List (Key × KBucketEntry) → ℕ → List UInt8 → Except PackError (List UInt8)
  | [], _, ba => .ok ba
  | [x], j, ba =>
      if j < max_items then
        match packBucketEntry x.2 ba (u32 (j * 26)) with
        | .error e => .error e
        | .ok _ => .error .pastTheEnd  -- the second step of the iterator
      else .ok ba
  | x :: _ :: rest, j, ba =>
      if j < max_items then
        match packBucketEntry x.2 ba (u32 (j * 26)) with
        | .error e => .error e
        | .ok ba => packLoop max_items rest (j + 1) ba
      else .ok ba

/-- Source: `KClosestNodesSearch::pack`. Kind: D -/
def pack (ba : List UInt8) (s : KClosestNodesSearch) : Except PackError (List UInt8) :=
  packLoop (ba.length / 26) s.emap.entries 0 ba

/-- **What is packed into a buffer of the required size, whatever is in it, is unpacked again**: the
address and the ID of every entry, in the order of the distance. Kind: D -/
def Packs (ofRaw : List UInt8 → UInt32) (s : KClosestNodesSearch) : Prop :=
  ∀ ba : List UInt8, ba.length = s.requiredSpace → ∃ ba', s.pack ba = .ok ba' ∧
    ∀ k (h : k < s.emap.size),
      unpackBucketEntry ofRaw ba' (26 * k) = .ok (s.emap.entries.get ⟨k, h⟩).2.contact

/-! ### What the loop leaves out -/

/-- Packing an entry writes 26 bytes in place, and leaves what follows. Source: `PackBucketEntry`.
Kind: L -/
theorem packBucketEntry_ok {e : KBucketEntry} {ba ba' : List UInt8} {off : ℕ}
    (h : packBucketEntry e ba off = .ok ba') :
    ba'.length = ba.length ∧ ∀ i, off + 26 ≤ i → ba'[i]? = ba[i]? := by
  unfold packBucketEntry at h
  split_ifs at h
  have hlen : (e.node_id.getData ++ uint32Bytes e.addr.ip.toNat ++
      uint16Bytes e.addr.port.toNat).length = 26 := by
    simp
  unfold place at h
  split_ifs at h with hroom
  · injection h with h
    subst h
    refine ⟨?_, fun i hi => ?_⟩
    · rw [length_writeAt]
      exact max_eq_left hroom
    · rw [getElem?_writeAt, if_neg (by omega), if_neg (by omega)]

/-- **Half of the entries are packed**, and an odd number of them goes behind the end.
Source: `KClosestNodesSearch::pack`. Kind: L -/
theorem packLoop_ok {max_items : ℕ} {l : List (Key × KBucketEntry)} {j : ℕ} {ba ba' : List UInt8}
    (h : packLoop max_items l j ba = .ok ba') :
    ba'.length = ba.length ∧ (j + l.length ≤ max_items →
      l.length % 2 = 0 ∧ ∀ i, 26 * (j + l.length / 2) ≤ i → ba'[i]? = ba[i]?) := by
  induction l, j, ba using packLoop.induct max_items with
  | case1 j ba =>
    injection h with h
    subst h
    exact ⟨rfl, fun _ => ⟨rfl, fun _ _ => rfl⟩⟩
  | case2 x j ba hlt e hp =>
    unfold packLoop at h
    rw [if_pos hlt, hp] at h
    cases h
  | case3 x j ba hlt ba₁ hp =>
    unfold packLoop at h
    rw [if_pos hlt, hp] at h
    cases h
  | case4 x j ba hge =>
    unfold packLoop at h
    rw [if_neg hge] at h
    injection h with h
    subst h
    rw [List.length_singleton]
    exact ⟨rfl, fun hj => absurd hj (by omega)⟩
  | case5 x y rest j ba hlt e hp =>
    unfold packLoop at h
    rw [if_pos hlt, hp] at h
    cases h
  | case6 x y rest j ba hlt ba₁ hp ih =>
    unfold packLoop at h
    rw [if_pos hlt, hp] at h
    obtain ⟨hlen, hrest⟩ := ih h
    obtain ⟨hlen₁, hkeep₁⟩ := packBucketEntry_ok hp
    have hoff : u32 (j * 26) ≤ j * 26 := Nat.mod_le _ _
    rw [List.length_cons, List.length_cons]
    refine ⟨hlen.trans hlen₁, fun hj => ?_⟩
    obtain ⟨heven, hkeep⟩ := hrest (by omega)
    refine ⟨by omega, fun i hi => ?_⟩
    rw [hkeep i (by omega), hkeep₁ i (by omega)]
  | case7 x y rest j ba hge =>
    unfold packLoop at h
    rw [if_neg hge] at h
    injection h with h
    subst h
    rw [List.length_cons]
    exact ⟨rfl, fun hj => absurd hj (by omega)⟩

/-- The ID that is unpacked is in the buffer. Source: `UnpackBucketEntry`. Kind: L -/
theorem unpackBucketEntry_ok {ofRaw : List UInt8 → UInt32} {ba : List UInt8} {off : ℕ}
    {c : KInetSocketAddress × Key} (h : unpackBucketEntry ofRaw ba off = .ok c) :
    off + 26 ≤ ba.length ∧ ba[off]? = some (c.2.hash 0) := by
  unfold unpackBucketEntry at h
  split_ifs at h
  unfold peek at h
  split_ifs at h with hroom
  · injection h with h
    subst h
    refine ⟨hroom, ?_⟩
    show ba[off]? = some (((ba.drop off).take 26).getD 0 0)
    rw [List.getD_eq_getElem?_getD, List.getElem?_take_of_lt (by omega), List.getElem?_drop,
      Nat.add_zero, List.getElem?_eq_getElem (by omega)]
    rfl

/-- **The last entry is not written**: what is unpacked in its place is what was in the buffer.
Source: `kademlia/pack.cpp`. Kind: L -/
theorem last_unwritten {ofRaw : List UInt8 → UInt32} {s : KClosestNodesSearch}
    (h : Packs ofRaw s) (hs : s.emap.size - 1 < s.emap.size) (b : UInt8) :
    (s.emap.entries.get ⟨s.emap.size - 1, hs⟩).2.node_id.hash 0 = b := by
  obtain ⟨ba', hpack, hall⟩ := h (List.replicate s.requiredSpace b) List.length_replicate
  obtain ⟨hroom, hbyte⟩ := unpackBucketEntry_ok (hall (s.emap.size - 1) hs)
  obtain ⟨hlen, hkeep⟩ := packLoop_ok hpack
  rw [List.length_replicate] at hlen hkeep
  have hspace : s.requiredSpace ≤ s.emap.size * 26 := Nat.mod_le _ _
  have hsize : s.emap.entries.length = s.emap.size := rfl
  obtain ⟨heven, hsame⟩ := hkeep (by omega)
  rw [hsame _ (by omega), List.getElem?_replicate, if_pos (by omega)] at hbyte
  exact (Option.some.inj hbyte).symm

/-- **Packing can be undone only if there is nothing to pack**: with an odd number of entries the
iterator goes behind the end, with an even number only every second entry is written.
Source: `kademlia/pack.cpp`. Kind: P -/
theorem packs_iff (ofRaw : List UInt8 → UInt32) (s : KClosestNodesSearch) :
    Packs ofRaw s ↔ s.emap.size = 0 := by
  constructor
  · intro h
    by_contra hne
    have hs : s.emap.size - 1 < s.emap.size := by omega
    have h0 := last_unwritten h hs 0
    have h1 := last_unwritten h hs 1
    rw [h0] at h1
    exact absurd h1 (by decide)
  · intro h ba _
    have hnil : s.emap.entries = [] := List.eq_nil_of_length_eq_zero h
    refine ⟨ba, ?_, fun k hk => absurd hk (by omega)⟩
    rw [pack, hnil]
    rfl

/-- **One node is not sent**: the iterator is moved from the only entry behind the end.
Source: `kademlia/pack.cpp`. Kind: P -/
theorem one_overruns :
    ¬ ∃ ofRaw, Packs ofRaw ((new ⟨fun _ => 0⟩ K).tryInsert (smallEntry 1)) := by
  rintro ⟨ofRaw, h⟩
  obtain ⟨ba', hpack, -⟩ := h (List.replicate 26 0) (by decide +kernel)
  have hrun : ((new ⟨fun _ => 0⟩ K).tryInsert (smallEntry 1)).pack (List.replicate 26 0) =
      .error .pastTheEnd := by decide +kernel
  rw [hrun] at hpack
  cases hpack

end KClosestNodesSearch

end KTorrent.Dht
