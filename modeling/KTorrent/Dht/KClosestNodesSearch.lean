import KTorrent.Dht.Node
import KTorrent.Lib.Closest
import KTorrent.Lib.SortedMap

/-!
# The search for the closest nodes

A search keeps the nodes that are closest to a key, in a map from the distance to the entry.

* `KClosestNodesSearch.tryInsert` — one entry is offered.
* `Node.findKClosestNodes` — all entries of the routing table are offered.
* `KClosestNodesSearch.nearest_iff` — the result is right exactly if the farthest node of the result
  is not thrown out by the repetition of a closer one.

Source: `kademlia/kclosestnodessearch.cpp`; `kademlia/node.cpp`, `Node::findKClosestNodes`
-/

namespace KTorrent.Dht

open KTorrent.Lib

/-- Source: `kademlia/kclosestnodessearch.h`, `KClosestNodesSearch`. Kind: D -/
structure KClosestNodesSearch where
  key : Key
  emap : SortedMap Key KBucketEntry
  max_entries : ℕ

namespace KClosestNodesSearch

/-- Source: `KClosestNodesSearch::KClosestNodesSearch`. Kind: D -/
def new (key : Key) (max_entries : ℕ) : KClosestNodesSearch := ⟨key, SortedMap.empty, max_entries⟩

/-- With no room at all there is no greatest element to look at. Source:
`KClosestNodesSearch::tryInsert`. Kind: D -/
def tryInsert (s : KClosestNodesSearch) (e : KBucketEntry) : KClosestNodesSearch :=
  let d := Key.distance s.key e.node_id
  if s.emap.size < s.max_entries then { s with emap := s.emap.insert d e }
  else
    match s.emap.entries.getLast? with
    | none => s
    | some (max, _) =>
        if Key.lt d max then { s with emap := (s.emap.insert d e).erase max } else s

/-- All entries of a list are offered, one after the other. Kind: D -/
def tryInsertAll (s : KClosestNodesSearch) (es : List KBucketEntry) : KClosestNodesSearch :=
  es.foldl tryInsert s

/-- The IDs of the nodes found, the closest first. Kind: D -/
def ids (s : KClosestNodesSearch) : List Key := s.emap.entries.map fun x => x.2.node_id

/-- The distances of the entries of a list. Kind: D -/
def distances (key : Key) (es : List KBucketEntry) : List Key :=
  es.map fun e => Key.distance key e.node_id

/-- **The `m` IDs of `offered` with the smallest distance to the key**, or all if there are fewer.
Kind: D -/
def Nearest (key : Key) (m : ℕ) (offered found : List Key) : Prop :=
  found.Nodup ∧ found ⊆ offered ∧ found.length = min m offered.toFinset.card ∧
    ∀ x ∈ found, ∀ y ∈ offered, y ∉ found →
      (Key.distance key x).toNat < (Key.distance key y).toNat

end KClosestNodesSearch

/-- The entries of all buckets. Kind: D -/
def Node.entries (n : Node) : List KBucketEntry :=
  (List.finRange 160).flatMap fun i => (n.bucket i).elim [] KBucket.entries

/-- Source: `Node::findKClosestNodes`, `KBucket::findKClosestNodes`. Kind: D -/
def Node.findKClosestNodes (n : Node) (kns : KClosestNodesSearch) : KClosestNodesSearch :=
  (List.finRange 160).foldl (fun kns i =>
    match n.bucket i with
    | none => kns
    | some b => kns.tryInsertAll b.entries) kns

namespace KClosestNodesSearch

/-! ### The search as offers of distances -/

/-- An offer keeps the key searched for. Source: `KClosestNodesSearch::tryInsert`. Kind: L -/
@[simp] theorem key_tryInsert (s : KClosestNodesSearch) (e : KBucketEntry) :
    (s.tryInsert e).key = s.key := by
  unfold tryInsert
  simp only
  split_ifs
  · rfl
  · split
    · rfl
    · split_ifs
      · rfl
      · rfl

/-- An offer keeps the number of entries wanted. Source: `KClosestNodesSearch::tryInsert`.
Kind: L -/
@[simp] theorem max_entries_tryInsert (s : KClosestNodesSearch) (e : KBucketEntry) :
    (s.tryInsert e).max_entries = s.max_entries := by
  unfold tryInsert
  simp only
  split_ifs
  · rfl
  · split
    · rfl
    · split_ifs
      · rfl
      · rfl

/-- The greatest distance out, and a smaller one in. Source: `kademlia/kclosestnodessearch.cpp`.
Kind: L -/
theorem keySet_replace {m : SortedMap Key KBucketEntry} {max d : Key} {b : KBucketEntry}
    (h : m.entries.getLast? = some (max, b)) (hd : d < max) (e : KBucketEntry) :
    ((m.insert d e).erase max).keySet =
      (insert d m.keySet).filter fun x : Key => (x : WithBot Key) < m.keySet.max := by
  rw [SortedMap.keySet_erase, SortedMap.keySet_insert, SortedMap.max_keySet h]
  ext x
  rw [Finset.mem_erase, Finset.mem_filter, Finset.mem_insert, WithBot.coe_lt_coe]
  constructor
  · rintro ⟨hne, rfl | hx⟩
    · exact ⟨Or.inl rfl, hd⟩
    · have hle : (x : WithBot Key) ≤ max := SortedMap.max_keySet h ▸ Finset.le_max hx
      exact ⟨Or.inr hx, lt_of_le_of_ne (WithBot.coe_le_coe.mp hle) hne⟩
  · rintro ⟨hx, hlt⟩
    exact ⟨hlt.ne, hx⟩

/-- **One entry is one offer of its distance.**. Source: `KClosestNodesSearch::tryInsert`.
Kind: L -/
theorem keySet_tryInsert (s : KClosestNodesSearch) (e : KBucketEntry) :
    (s.tryInsert e).emap.keySet =
      offer s.max_entries s.emap.keySet (Key.distance s.key e.node_id) := by
  unfold tryInsert offer
  rw [SortedMap.card_keySet]
  simp only
  by_cases hroom : s.emap.size < s.max_entries
  · rw [if_pos hroom, if_pos hroom]
    exact SortedMap.keySet_insert _ _ _
  · rw [if_neg hroom, if_neg hroom]
    rcases hlast : s.emap.entries.getLast? with _ | ⟨max, b⟩
    · have hnil : s.emap.keySet = ∅ := by
        rw [SortedMap.keySet, List.getLast?_eq_none_iff.mp hlast]
        rfl
      rw [hnil, Finset.max_empty, if_neg not_lt_bot]
    · simp only [Key.lt_eq, decide_eq_true_iff]
      by_cases hlt : Key.distance s.key e.node_id < max
      · rw [if_pos hlt, if_pos (SortedMap.max_keySet hlast ▸ WithBot.coe_lt_coe.mpr hlt)]
        exact keySet_replace hlast hlt e
      · rw [if_neg hlt, if_neg]
        rwa [SortedMap.max_keySet hlast, WithBot.coe_lt_coe]

/-- Every entry found is kept under its distance. Kind: D -/
def Keyed (s : KClosestNodesSearch) : Prop :=
  ∀ x ∈ s.emap.entries, x.1 = Key.distance s.key x.2.node_id

/-- Entries stand under their distance, also after an offer.
Source: `KClosestNodesSearch::tryInsert`. Kind: L -/
theorem Keyed.tryInsert {s : KClosestNodesSearch} (h : Keyed s) (e : KBucketEntry) :
    Keyed (s.tryInsert e) := by
  have hins : ∀ x ∈ (s.emap.insert (Key.distance s.key e.node_id) e).entries,
      x.1 = Key.distance s.key x.2.node_id := by
    intro x hx
    rcases SortedMap.mem_insert hx with rfl | hx
    · rfl
    · exact h x hx
  intro x hx
  rw [key_tryInsert]
  unfold KClosestNodesSearch.tryInsert at hx
  simp only at hx
  split_ifs at hx
  · exact hins x hx
  · split at hx
    · exact h x hx
    · split_ifs at hx
      · exact hins x (SortedMap.mem_erase hx)
      · exact h x hx

/-- **A search is a list of offers.**. Source: `kademlia/kclosestnodessearch.cpp`. Kind: L -/
theorem search_spec (key : Key) (m : ℕ) (es : List KBucketEntry) :
    let s := (new key m).tryInsertAll es
    s.key = key ∧ s.max_entries = m ∧ Keyed s ∧ s.emap.keySet = offers m (distances key es) := by
  induction es using List.reverseRecOn with
  | nil => exact ⟨rfl, rfl, fun x hx => absurd hx List.not_mem_nil, rfl⟩
  | append_singleton es e ih =>
    obtain ⟨h1, h2, h3, h4⟩ := ih
    have hstep : (new key m).tryInsertAll (es ++ [e]) =
        ((new key m).tryInsertAll es).tryInsert e := by
      rw [tryInsertAll, List.foldl_append]
      rfl
    have hdist : distances key (es ++ [e]) = distances key es ++ [Key.distance key e.node_id] :=
      List.map_append
    simp only [hstep, key_tryInsert, max_entries_tryInsert, keySet_tryInsert, hdist, offers_concat,
      h1, h2, h4]
    exact ⟨trivial, trivial, h3.tryInsert e, trivial⟩

/-- The IDs found are those whose distances are kept. Source: `kademlia/kclosestnodessearch.cpp`.
Kind: L -/
theorem mem_ids {s : KClosestNodesSearch} (h : Keyed s) {x : Key} :
    x ∈ s.ids ↔ Key.distance s.key x ∈ s.emap.keySet := by
  rw [ids, List.mem_map, SortedMap.mem_keySet]
  constructor
  · rintro ⟨⟨d, e⟩, he, rfl⟩
    exact ⟨e, by rw [← h _ he]; exact he⟩
  · rintro ⟨e, he⟩
    exact ⟨_, he, (Key.distance_injective _ (h _ he)).symm⟩

/-- No node is kept twice. Source: `kademlia/kclosestnodessearch.cpp`. Kind: L -/
theorem nodup_ids {s : KClosestNodesSearch} (h : Keyed s) : s.ids.Nodup := by
  have hmap : s.emap.entries.map Prod.fst = s.ids.map (Key.distance s.key) := by
    rw [ids, List.map_map]
    exact List.map_congr_left fun x hx => h x hx
  have hnd := s.emap.nodup_keys
  rw [hmap] at hnd
  exact List.Nodup.of_map _ hnd

/-- **The nearest IDs are those at the closest distances.**.
Source: `kademlia/kclosestnodessearch.cpp`. Kind: L -/
theorem nearest_iff_closest {s : KClosestNodesSearch} (h : Keyed s) (m : ℕ)
    (es : List KBucketEntry) :
    Nearest s.key m (es.map KBucketEntry.node_id) s.ids ↔
      Closest m (distances s.key es).toFinset s.emap.keySet := by
  have hdist : distances s.key es = (es.map KBucketEntry.node_id).map (Key.distance s.key) := by
    rw [List.map_map]
    rfl
  have hinj := Key.distance_injective s.key
  have hcard : (distances s.key es).toFinset.card =
      (es.map KBucketEntry.node_id).toFinset.card := by
    have himg : (distances s.key es).toFinset =
        (es.map KBucketEntry.node_id).toFinset.image (Key.distance s.key) := by
      ext d
      rw [hdist, List.mem_toFinset, List.mem_map, Finset.mem_image]
      simp only [List.mem_toFinset]
    rw [himg, Finset.card_image_of_injective _ hinj]
  have hlen : s.ids.length = s.emap.keySet.card := by
    rw [SortedMap.card_keySet, ids, List.length_map]
    rfl
  have hmem : ∀ x, Key.distance s.key x ∈ (distances s.key es).toFinset ↔
      x ∈ es.map KBucketEntry.node_id := by
    intro x
    rw [List.mem_toFinset, hdist, List.mem_map_of_injective hinj]
  have hform : ∀ d ∈ s.emap.keySet, ∃ x, d = Key.distance s.key x := by
    intro d hd
    obtain ⟨e, he⟩ := SortedMap.mem_keySet.mp hd
    exact ⟨_, h _ he⟩
  have hform' : ∀ d ∈ (distances s.key es).toFinset, ∃ x, d = Key.distance s.key x := by
    intro d hd
    obtain ⟨e, -, rfl⟩ := List.mem_map.mp (List.mem_toFinset.mp hd)
    exact ⟨_, rfl⟩
  unfold Nearest Closest
  rw [hlen, hcard]
  constructor
  · rintro ⟨-, hsub, hc, hlt⟩
    refine ⟨fun d hd => ?_, hc, fun d hd d' hd' hnot => ?_⟩
    · obtain ⟨x, rfl⟩ := hform d hd
      exact (hmem x).mpr (hsub ((mem_ids h).mpr hd))
    · obtain ⟨x, rfl⟩ := hform d hd
      obtain ⟨y, rfl⟩ := hform' d' hd'
      rw [Key.lt_def]
      exact hlt x ((mem_ids h).mpr hd) y ((hmem y).mp hd') fun hy => hnot ((mem_ids h).mp hy)
  · rintro ⟨hsub, hc, hlt⟩
    refine ⟨nodup_ids h, fun x hx => ?_, hc, fun x hx y hy hnot => ?_⟩
    · exact (hmem x).mp (hsub ((mem_ids h).mp hx))
    · rw [← Key.lt_def]
      exact hlt _ ((mem_ids h).mp hx) _ ((hmem y).mpr hy) fun hd => hnot ((mem_ids h).mpr hd)

/-! ### The result of a search -/

/-- The table's search offers the entries of all buckets. Source: `Node::findKClosestNodes`,
`KBucket::findKClosestNodes`. Kind: L -/
theorem findKClosestNodes_eq (n : Node) (s : KClosestNodesSearch) :
    n.findKClosestNodes s = s.tryInsertAll n.entries := by
  unfold Node.findKClosestNodes Node.entries tryInsertAll
  generalize List.finRange 160 = is
  induction is generalizing s with
  | nil => rfl
  | cons i is ih =>
    rw [List.foldl_cons, List.flatMap_cons, List.foldl_append, ih]
    cases n.bucket i with
    | none => rfl
    | some b => rfl

/-- **A search finds the nearest of the IDs offered exactly if it is not disturbed**: no ID among
the nearest, other than the farthest of them, is offered once more when all of them have been
offered, unless the farthest is offered again later. In particular this is so for the entries of the
routing table. Source: `Node::findKClosestNodes`, `KBucket::findKClosestNodes`. Kind: P -/
theorem nearest_iff (key : Key) (m : ℕ) :
    (∀ es : List KBucketEntry,
      Nearest key m (es.map KBucketEntry.node_id) ((new key m).tryInsertAll es).ids ↔
        Undisturbed m (distances key es)) ∧
      ∀ n : Node, Nearest key m (n.entries.map KBucketEntry.node_id)
          (n.findKClosestNodes (new key m)).ids ↔
        Undisturbed m (distances key n.entries) := by
  have hlist : ∀ es : List KBucketEntry,
      Nearest key m (es.map KBucketEntry.node_id) ((new key m).tryInsertAll es).ids ↔
        Undisturbed m (distances key es) := by
    intro es
    obtain ⟨h1, -, h3, h4⟩ := search_spec key m es
    have h := nearest_iff_closest h3 m es
    rw [h1, h4] at h
    rw [h]
    exact closest_offers_iff m (distances key es)
  refine ⟨hlist, fun n => ?_⟩
  rw [findKClosestNodes_eq]
  exact hlist n.entries

/-- A node with a small ID. Kind: D -/
def smallEntry (b : UInt8) : KBucketEntry := .new 0 ⟨0, 0⟩ ⟨fun i => if i = 19 then b else 0⟩

/-- **A repetition throws a good node out**: of the IDs 1, 2 and again 1 only one is left where
there is room for two. Source: `kademlia/kclosestnodessearch.cpp`. Kind: P -/
theorem repeated_lost : ¬ Nearest ⟨fun _ => 0⟩ 2
    ([smallEntry 1, smallEntry 2, smallEntry 1].map KBucketEntry.node_id)
    ((new ⟨fun _ => 0⟩ 2).tryInsertAll [smallEntry 1, smallEntry 2, smallEntry 1]).ids := by
  intro h
  have hlen := h.2.2.1
  revert hlen
  decide +kernel

end KClosestNodesSearch

end KTorrent.Dht
