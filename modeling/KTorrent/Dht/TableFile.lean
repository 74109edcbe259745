import KTorrent.Dht.RoutingTable

/-!
# The file of the routing table

`loadTable` trusts the file: a header says which bucket follows and how many entries it has.

* `Room` — no bucket has more than `K` entries; so it is in every table that is reached.
* `headers` — the headers that are read, one after the other.
* `loadBuckets_isSome_iff` — nothing is written behind the end of the table exactly if none of them
  announces entries for bucket 160.
* `table_file_iff` — a table that was saved is loaded with the same entries, and any file is loaded
  exactly under this condition.
* `bucket_160` — a file of one header.

Source: `kademlia/node.cpp`, `kademlia/kbucket.cpp`
-/

namespace KTorrent.Dht

open KTorrent.Util

/-! ### Room in the buckets -/

namespace KBucket

/-- The bucket has at most `K` entries. Kind: D -/
def Room (b : KBucket) : Prop := b.entries.length ≤ K

/-- Replacing keeps the number of entries. Source: `kademlia/node.cpp`, `kademlia/kbucket.cpp`.
Kind: L -/
theorem length_replaced {p : KBucketEntry → Bool} {es : List KBucketEntry} (h : es.any p = true)
    (e : KBucketEntry) : (replaced p e es).length = es.length := by
  obtain ⟨x, hx, hp⟩ := List.any_eq_true.mp h
  have hpos : 0 < es.length := List.length_pos_of_mem hx
  unfold replaced
  rw [List.length_append, List.length_eraseP_of_mem hx hp, List.length_singleton]
  omega

/-- A change of one entry keeps their number. Source: `kademlia/node.cpp`, `kademlia/kbucket.cpp`.
Kind: L -/
theorem length_modifyFirst {α : Type} (p : α → Bool) (f : α → α) (xs : List α) :
    (modifyFirst p f xs).length = xs.length := by
  induction xs with
  | nil => rfl
  | cons x xs ih =>
    rw [modifyFirst]
    split_ifs
    · rfl
    · rw [List.length_cons, ih, List.length_cons]

/-- A bucket has no more entries than it may. Source: `kademlia/node.cpp`, `kademlia/kbucket.cpp`.
Kind: L -/
theorem Room.replaceOrPing {b : KBucket} (h : b.Room) (now c : ℕ) (e : KBucketEntry) :
    (b.replaceOrPing now c e).Room := by
  unfold KBucket.replaceOrPing replaceBadEntry
  split_ifs with hbad
  · exact (length_replaced hbad e).trans_le h
  · rw [Option.getD_none]
    unfold pingQuestionable
    split_ifs
    · exact h
    · split
      · exact h
      · exact (length_modifyFirst _ _ _).trans_le h

/-- A bucket has no more entries than it may after an insertion. Source: `kademlia/node.cpp`,
`kademlia/kbucket.cpp`. Kind: L -/
theorem Room.insert {b : KBucket} (h : b.Room) (now c : ℕ) (e : KBucketEntry) :
    (b.insert now c e).Room := by
  unfold KBucket.insert
  split_ifs with heq hlt
  · exact (length_replaced heq e).trans_le h
  · show (b.entries ++ [e]).length ≤ K
    rw [List.length_append]
    exact hlt
  · exact h.replaceOrPing now c e

/-- A bucket has no more entries than it may after an answer. Source: `KBucket::onResponse`.
Kind: L -/
theorem Room.onResponse {b : KBucket} (h : b.Room) (now c call : ℕ) :
    (b.onResponse now c call).Room := by
  unfold KBucket.onResponse
  split
  · exact h
  · have herase : (b.erasePing call).Room := h
    exact herase.replaceOrPing now c _

/-- A bucket has no more entries than it may after a timeout.
Source: `KBucket::onTimeout(RPCCall*)`. Kind: L -/
theorem Room.onTimeout {b : KBucket} (h : b.Room) (now c call : ℕ) :
    (b.onTimeout now c call).Room := by
  unfold KBucket.onTimeout
  split
  · exact h
  · rename_i p _
    have hsilent : (b.replaceSilent p).Room := by
      unfold replaceSilent
      split_ifs with hknown
      · exact (length_replaced hknown p.entry).trans_le h
      · exact h
    have herase : ((b.replaceSilent p).erasePing call).Room := hsilent
    unfold nextPending
    split
    · exact herase
    · rename_i pe rest _
      split_ifs
      · have hrest : KBucket.Room
            { (b.replaceSilent p).erasePing call with pending_entries := rest } := herase
        exact hrest.replaceOrPing now c pe
      · exact herase

end KBucket

namespace Node

/-- No bucket has more than `K` entries. Kind: D -/
def Room (n : Node) : Prop := ∀ i, ∀ b ∈ n.bucket i, b.Room

/-- A new table has room. Source: `kademlia/node.cpp`, `kademlia/kbucket.cpp`. Kind: L -/
theorem room_new (our_id : Key) (delete_table : Bool) : (new our_id delete_table).Room :=
  fun _ _ h => by cases h

/-- A table has room with a bucket that has. Source: `kademlia/node.cpp`, `kademlia/kbucket.cpp`.
Kind: L -/
theorem Room.setBucket {n : Node} (h : n.Room) (i : Fin 160) {b : KBucket} (hb : b.Room) :
    (n.setBucket i b).Room := by
  intro j b' hb'
  have hupd : Function.update n.bucket i (some b) j = some b' := hb'
  by_cases hj : j = i
  · subst hj
    rw [Function.update_self] at hupd
    obtain rfl := Option.some.inj hupd
    exact hb
  · rw [Function.update_of_ne hj] at hupd
    exact h j b' hupd

/-! ### What is read -/

/-- The header is not one of those that are taken. Source: `Node::loadTable`, its check. Kind: D -/
abbrev Refused (hdr : BucketHeader) : Prop :=
  hdr.magic ≠ BUCKET_MAGIC_NUMBER ∨ hdr.num_entries > K ∨ hdr.index > 160

/-- The headers that are read, up to the first that is not taken. Kind: D -/
def headers (file : List UInt8) : List BucketHeader :=
  if hlen : file.length < BucketHeader.size then []
  else
    let hdr := BucketHeader.read file
    if Refused hdr then []
    else hdr :: headers ((file.drop BucketHeader.size).drop (26 * hdr.num_entries))
termination_by file.length
decreasing_by exact length_drop_lt hlen _

/-- No header announces entries for a bucket behind the last. Kind: D -/
def Inside (file : List UInt8) : Prop := ∀ hdr ∈ headers file, hdr.num_entries ≠ 0 → hdr.index ≠ 160

/-- No more entries are loaded than are announced. Source: `KBucket::load`. Kind: L -/
theorem length_loadEntries (now k : ℕ) (file : List UInt8) :
    (loadEntries now k file).length ≤ k := by
  induction k generalizing file with
  | zero => exact Nat.le_refl 0
  | succ k ih =>
    rw [loadEntries]
    split_ifs
    · exact Nat.zero_le _
    · rw [List.length_cons]
      exact Nat.succ_le_succ (ih _)

/-- Behind a header that is taken. Source: none: infrastructure. Kind: L -/
theorem inside_cons {file : List UInt8} (hlen : ¬ file.length < BucketHeader.size)
    (htaken : ¬ Refused (BucketHeader.read file)) :
    Inside file ↔ ((BucketHeader.read file).num_entries ≠ 0 → (BucketHeader.read file).index ≠ 160) ∧
      Inside ((file.drop BucketHeader.size).drop (26 * (BucketHeader.read file).num_entries)) := by
  unfold Inside
  rw [headers, dif_neg hlen]
  dsimp only
  rw [if_neg htaken]
  exact List.forall_mem_cons

/-- A refused header reads nothing more. Source: `kademlia/node.cpp`, `kademlia/kbucket.cpp`.
Kind: L -/
theorem inside_of_refused {file : List UInt8} (h : Refused (BucketHeader.read file)) :
    Inside file := by
  unfold Inside
  rw [headers]
  by_cases hlen : file.length < BucketHeader.size
  · rw [dif_pos hlen]
    exact fun _ hmem => absurd hmem List.not_mem_nil
  · rw [dif_neg hlen]
    dsimp only
    rw [if_pos h]
    exact fun _ hmem => absurd hmem List.not_mem_nil

/-- A file without a whole header is read no further. Source: `kademlia/node.cpp`,
`kademlia/kbucket.cpp`. Kind: L -/
theorem inside_of_short {file : List UInt8} (h : file.length < BucketHeader.size) : Inside file := by
  unfold Inside
  rw [headers, dif_pos h]
  exact fun _ hmem => absurd hmem List.not_mem_nil

/-- **What is loaded**, and where nothing is written behind the end. Source: `Node::loadTable`.
Kind: L -/
theorem loadBuckets_spec (now : ℕ) (file : List UInt8) {n : Node} (h : n.Room) :
    ((loadBuckets now file n).isSome = true ↔ Inside file) ∧
      ∀ m ∈ loadBuckets now file n, m.Room := by
  induction hk : file.length using Nat.strong_induction_on generalizing file n with
  | _ k ih =>
    rw [loadBuckets]
    by_cases hlen : file.length < BucketHeader.size
    · rw [dif_pos hlen]
      refine ⟨iff_of_true rfl (inside_of_short hlen), ?_⟩
      rintro m ⟨⟩
      exact h
    rw [dif_neg hlen]
    dsimp only
    by_cases hrefused : Refused (BucketHeader.read file)
    · rw [if_pos hrefused]
      refine ⟨iff_of_true rfl (inside_of_refused hrefused), ?_⟩
      rintro m ⟨⟩
      exact h
    rw [if_neg hrefused, inside_cons hlen hrefused]
    have hshort : ∀ j, ((file.drop BucketHeader.size).drop j).length < k :=
      fun j => hk ▸ length_drop_lt hlen j
    by_cases hzero : (BucketHeader.read file).num_entries = 0
    · rw [if_pos hzero, hzero]
      obtain ⟨hiff, hroom⟩ := ih _ (hshort 0) _ h rfl
      refine ⟨?_, hroom⟩
      rw [Nat.mul_zero]
      exact hiff.trans (iff_and_self.mpr fun _ hne => absurd rfl hne)
    rw [if_neg hzero]
    by_cases hindex : (BucketHeader.read file).index < 160
    · rw [dif_pos hindex]
      have hnew : KBucket.Room
          { entries := loadEntries now (BucketHeader.read file).num_entries
              (file.drop BucketHeader.size) } := by
        unfold Refused at hrefused
        rw [not_or, not_or, not_lt] at hrefused
        exact (length_loadEntries _ _ _).trans hrefused.2.1
      obtain ⟨hiff, hroom⟩ := ih _ (hshort _) _ (h.setBucket ⟨_, hindex⟩ hnew) rfl
      refine ⟨hiff.trans (iff_and_self.mpr fun _ _ => hindex.ne), hroom⟩
    · rw [dif_neg hindex]
      have h160 : (BucketHeader.read file).index = 160 := by
        unfold Refused at hrefused
        rw [not_or, not_or, not_lt, not_lt] at hrefused
        omega
      refine ⟨iff_of_false Bool.false_ne_true fun hin => hin.1 hzero h160, ?_⟩
      rintro m ⟨⟩

/-! ### Tables -/

/-- A table that is reached: messages come, pings are answered or not, files are loaded. Kind: D -/
inductive Reached : Node → Prop
  | new (our_id : Key) (delete_table : Bool) : Reached (Node.new our_id delete_table)
  | step {n : Node} (h : Reached n) (e : Event) : Reached (n.step e)
  | load {n m : Node} (h : Reached n) {now : ℕ} {file : List UInt8}
      (hload : n.loadTable now file = some m) : Reached m

/-- A table that is loaded leaves room in every bucket. Source: `Node::loadTable`. Kind: L -/
theorem Room.loadTable {n m : Node} (h : n.Room) {now : ℕ} {file : List UInt8}
    (hload : n.loadTable now file = some m) : m.Room := by
  unfold Node.loadTable at hload
  split_ifs at hload
  · obtain rfl := Option.some.inj hload
    exact h
  · exact (loadBuckets_spec now file h).2 m hload

/-- Every event leaves room. Source: `kademlia/node.cpp`, `kademlia/kbucket.cpp`. Kind: L -/
theorem Room.step {n : Node} (h : n.Room) (e : Event) : (n.step e).Room := by
  have hop : ∀ (i : Fin 160) (f : KBucket → KBucket), (∀ b : KBucket, b.Room → (f b).Room) →
      ∀ b, n.bucket i = some b → (n.setBucket i (f b)).Room :=
    fun i f hf b hb => h.setBucket i (hf b (h i b hb))
  cases e with
  | recieved now origin id =>
    show (n.recieved now origin id).Room
    unfold Node.recieved
    split_ifs with hi
    · apply h.setBucket
      apply KBucket.Room.insert
      cases hb : n.bucket ⟨findBucket n.our_id id, hi⟩ with
      | none => exact Nat.zero_le _
      | some b => exact h _ b hb
    · exact h
  | response now i call =>
    show (n.onResponse now i call).Room
    unfold Node.onResponse
    split
    · exact h
    · next b hb => exact hop i _ (fun b hb => hb.onResponse now n.calls call) b hb
  | pingTimeout now i call =>
    show (n.onPingTimeout now i call).Room
    unfold Node.onPingTimeout
    split
    · exact h
    · next b hb => exact hop i _ (fun b hb => hb.onTimeout now n.calls call) b hb
  | timeout addr =>
    have hfew : ∀ b : KBucket, b.Room → (b.requestTimeout addr).Room := fun b hb =>
      (KBucket.length_modifyFirst _ _ _).trans_le hb
    show (n.onTimeout addr).Room
    unfold Node.onTimeout
    split
    · exact h
    · split
      · exact h
      · next b hb => exact hop _ _ hfew b hb
  | restart now =>
    show Room (((new n.our_id false).loadTable now n.saveTable).getD n)
    cases hload : (new n.our_id false).loadTable now n.saveTable with
    | none => exact h
    | some m => exact (room_new n.our_id false).loadTable hload

/-- **No table that is reached has a bucket with more than `K` entries.**.
Source: `kademlia/node.cpp`, `kademlia/kbucket.cpp`. Kind: L -/
theorem Reached.room {n : Node} (h : Reached n) : n.Room := by
  induction h with
  | new our_id delete_table => exact room_new our_id delete_table
  | step _ e ih => exact ih.step e
  | load _ hload ih => exact ih.loadTable hload

/-- The address, the port and the ID of each entry of a bucket. Kind: D -/
def contactsAt (n : Node) (i : Fin 160) : List (KInetSocketAddress × Key) :=
  (n.bucket i).elim [] KBucket.contacts

/-- Buckets that were saved are loaded in place of those there. Source: `Node::loadTable`.
Kind: L -/
theorem loadBuckets_flatMap {n : Node} (h : n.Room) (now : ℕ) (is : List (Fin 160)) (m : Node) :
    ∃ m', loadBuckets now (is.flatMap fun i => (n.bucket i).elim [] (saveBucket i)) m = some m' ∧
      ∀ i, m'.contactsAt i =
        if i ∈ is ∧ n.contactsAt i ≠ [] then n.contactsAt i else m.contactsAt i := by
  induction is generalizing m with
  | nil =>
    refine ⟨m, ?_, fun i => ?_⟩
    · rw [List.flatMap_nil, loadBuckets, dif_pos (by decide)]
    · rw [if_neg fun hi => absurd hi.1 List.not_mem_nil]
  | cons j is ih =>
    rw [List.flatMap_cons]
    -- a bucket that is not there, or is empty, changes nothing
    have hskip : n.contactsAt j = [] → (∃ m',
        loadBuckets now (is.flatMap fun i => (n.bucket i).elim [] (saveBucket i)) m = some m' ∧
          ∀ i, m'.contactsAt i =
            if i ∈ j :: is ∧ n.contactsAt i ≠ [] then n.contactsAt i else m.contactsAt i) := by
      intro hnil
      obtain ⟨m', hload, hm'⟩ := ih m
      refine ⟨m', hload, fun i => ?_⟩
      rw [hm' i]
      by_cases hij : i = j
      · subst hij
        rw [if_neg fun hi => hi.2 hnil, if_neg fun hi => hi.2 hnil]
      · have hmem : i ∈ j :: is ↔ i ∈ is := List.mem_cons.trans (or_iff_right hij)
        simp only [hmem]
    cases hb : n.bucket j with
    | none =>
      apply hskip
      unfold contactsAt
      rw [hb]
      rfl
    | some b =>
      have hcontacts : n.contactsAt j = b.contacts := by
        unfold contactsAt
        rw [hb]
        rfl
      have hroom : b.contacts.length ≤ K := by
        rw [KBucket.contacts, List.length_map]
        exact h j b hb
      rw [Option.elim_some, loadBuckets_saveBucket now hroom]
      by_cases hnil : b.entries = []
      · rw [if_pos hnil]
        apply hskip
        rw [hcontacts, KBucket.contacts, hnil]
        rfl
      · rw [if_neg hnil]
        obtain ⟨b', hb'⟩ : ∃ b' : KBucket,
          { entries := b.entries.map fun e => .new now e.addr e.node_id } = b' := ⟨_, rfl⟩
        rw [hb']
        have hsame : b'.contacts = b.contacts := by
          rw [← hb', KBucket.contacts, List.map_map]
          rfl
        obtain ⟨m', hload, hm'⟩ := ih (m.setBucket j b')
        refine ⟨m', hload, fun i => ?_⟩
        rw [hm' i]
        by_cases hij : i = j
        · subst hij
          have hset : (m.setBucket i b').contactsAt i = n.contactsAt i := by
            have hsome : (m.setBucket i b').bucket i = some b' := Function.update_self _ _ _
            rw [hcontacts, ← hsame]
            unfold contactsAt
            rw [hsome, Option.elim_some]
          have hne : n.contactsAt i ≠ [] := by
            rw [hcontacts, KBucket.contacts]
            exact fun hmap => hnil (List.map_eq_nil_iff.mp hmap)
          rw [hset, ite_self, if_pos ⟨List.mem_cons_self, hne⟩]
        · have hother : (m.setBucket j b').contactsAt i = m.contactsAt i := by
            have hbucket : (m.setBucket j b').bucket i = m.bucket i := Function.update_of_ne hij _ _
            unfold contactsAt
            rw [hbucket]
          have hmem : i ∈ j :: is ↔ i ∈ is := List.mem_cons.trans (or_iff_right hij)
          simp only [hother, hmem]

/-- **A table that was saved is loaded with the same entries in the same buckets.**.
Source: `Node::loadTable`. Kind: L -/
theorem loadTable_saveTable {n : Node} (h : n.Room) (now : ℕ) (our_id : Key) :
    ∃ m, (new our_id false).loadTable now n.saveTable = some m ∧
      ∀ i, m.contactsAt i = n.contactsAt i := by
  obtain ⟨m, hload, hm⟩ := loadBuckets_flatMap h now (List.finRange 160) (new our_id false)
  refine ⟨m, hload, fun i => ?_⟩
  rw [hm i]
  by_cases hne : n.contactsAt i = []
  · rw [if_neg fun hi => hi.2 hne, hne]
    rfl
  · rw [if_pos ⟨List.mem_finRange i, hne⟩]

/-- **The file of the table.** What was saved comes back; and any file is loaded without leaving the
table or overfilling a bucket exactly if no header in it is for bucket 160.
Source: `kademlia/node.cpp`, `kademlia/kbucket.cpp`. Kind: P -/
theorem table_file_iff {n : Node} (h : n.Room) (now : ℕ) :
    (∀ our_id : Key, ∃ m, (new our_id false).loadTable now n.saveTable = some m ∧
      ∀ i, m.contactsAt i = n.contactsAt i) ∧
    ∀ file, (∃ m, n.loadTable now file = some m ∧ m.Room) ↔ n.delete_table = true ∨ Inside file := by
  refine ⟨loadTable_saveTable h now, fun file => ?_⟩
  unfold loadTable
  by_cases hdelete : n.delete_table = true
  · rw [if_pos hdelete]
    exact iff_of_true ⟨_, rfl, h⟩ (.inl hdelete)
  · rw [if_neg hdelete, or_iff_right hdelete]
    obtain ⟨hiff, hroom⟩ := loadBuckets_spec now file h
    rw [← hiff, Option.isSome_iff_exists]
    constructor
    · exact fun ⟨m, hm, _⟩ => ⟨m, hm⟩
    · exact fun ⟨m, hm⟩ => ⟨m, hm, hroom m hm⟩

/-- A table with one contact. Kind: D -/
def oneContact : Node := (new ⟨fun _ => 0⟩ false).recieved 0 ⟨1, 1⟩ ⟨fun _ => 1⟩

/-- What the sample's table says. Source: `kademlia/node.cpp`, `kademlia/kbucket.cpp`. Kind: L -/
theorem table_file_oneContact :
    (∀ our_id : Key, ∃ m, (new our_id false).loadTable 0 oneContact.saveTable = some m ∧
      ∀ i, m.contactsAt i = oneContact.contactsAt i) ∧
    ∀ file, (∃ m, oneContact.loadTable 0 file = some m ∧ m.Room) ↔
      oneContact.delete_table = true ∨ Inside file :=
  table_file_iff ((room_new ⟨fun _ => 0⟩ false).step (.recieved 0 ⟨1, 1⟩ ⟨fun _ => 1⟩)) 0

/-- A header for bucket 160 writes behind the end of the table. Source: `kademlia/node.cpp`,
`kademlia/kbucket.cpp`. Kind: P -/
theorem bucket_160 : ¬ ∀ (now : ℕ) (file : List UInt8) (our_id : Key),
    ∃ m, (new our_id false).loadTable now file = some m := by
  intro h
  obtain ⟨file, hfile⟩ : ∃ file, BucketHeader.bytes ⟨BUCKET_MAGIC_NUMBER, 160, 1⟩ = file := ⟨_, rfl⟩
  have hread : BucketHeader.read file = ⟨BUCKET_MAGIC_NUMBER, 160, 1⟩ := by
    rw [← hfile, ← List.append_nil (BucketHeader.bytes _)]
    exact BucketHeader.read_bytes (by decide) (by decide) (by decide) []
  have hlen : ¬ file.length < BucketHeader.size := by
    rw [← hfile]
    decide
  obtain ⟨m, hm⟩ := h 0 file ⟨fun _ => 0⟩
  have hin : Inside file := by
    rw [← (loadBuckets_spec 0 file (room_new ⟨fun _ => 0⟩ false)).1]
    exact Option.isSome_iff_exists.mpr ⟨m, hm⟩
  rw [inside_cons hlen (by rw [hread]; decide), hread] at hin
  exact hin.1 (by decide) rfl

end Node

end KTorrent.Dht
