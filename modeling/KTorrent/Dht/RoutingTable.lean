import KTorrent.Dht.Node
import KTorrent.Lib.GuardedRun

/-!
# What every bucket of the routing table satisfies

* `KBucket.Sound` — a bucket has room for `K` contacts, no two of them are the same, and each of them
  belongs into the bucket.
* `KBucket.Fits` — what a contact that replaces another one must satisfy: it is not in the bucket
  already, unless in the place it takes.
* `Node.buckets_run` — every bucket is sound in every state of a run in which the contacts that wait
  for a place fit when they get it. A contact that comes with a message always fits.
* `Node.contact_twice` — a contact that waits, comes with a message and finds a place, and takes the
  other place too when the ping it waits for is not answered.

Source: `kademlia/kbucket.cpp`, `kademlia/node.cpp`
-/

namespace KTorrent.Dht

open KTorrent.Util KTorrent.Lib KBucketEntry

/-- What a change keeps of each element it keeps of the list. Source: `kademlia/kbucket.cpp`,
`kademlia/node.cpp`. Kind: L -/
theorem map_modifyFirst {α β : Type} (g : α → β) {p : α → Bool} {f : α → α}
    (h : ∀ x, g (f x) = g x) (l : List α) : (modifyFirst p f l).map g = l.map g := by
  induction l with
  | nil => rfl
  | cons x xs ih =>
    unfold modifyFirst
    split_ifs
    · rw [List.map_cons, List.map_cons, h]
    · rw [List.map_cons, List.map_cons, ih]

namespace KBucket

/-! ### Sound buckets -/

/-- The contacts in a bucket. Kind: D -/
def contacts (b : KBucket) : List (KInetSocketAddress × Key) := b.entries.map contact

/-- At most `K` contacts, no two the same, each of them in the bucket its ID belongs to. Kind: D -/
structure Sound (our_id : Key) (i : Fin 160) (b : KBucket) : Prop where
  room : b.contacts.length ≤ K
  distinct : b.contacts.Nodup
  placed : ∀ c ∈ b.contacts, Node.findBucket our_id c.2 = i

/-- The contacts that wait belong into the bucket as well. Kind: D -/
structure Waiting (our_id : Key) (i : Fin 160) (b : KBucket) : Prop where
  pending : ∀ e ∈ b.pending_entries, Node.findBucket our_id e.node_id = i
  pinging : ∀ p ∈ b.pending_entries_busy_pinging, Node.findBucket our_id p.entry.node_id = i

/-- **The contact is not in the bucket**, unless it is the first entry with the property, whose place
it takes. Kind: D -/
def Fits (p : KBucketEntry → Bool) (e : KBucketEntry) (b : KBucket) : Prop :=
  ∀ x ∈ b.entries.find? p, x.contact = e.contact ∨ e.contact ∉ b.contacts

instance (p : KBucketEntry → Bool) (e : KBucketEntry) (b : KBucket) : Decidable (Fits p e b) :=
  inferInstanceAs (Decidable (∀ x ∈ b.entries.find? p, x.contact = e.contact ∨ e.contact ∉ b.contacts))

/-- What is replaced, and what stays. Source: `kademlia/kbucket.cpp`, `kademlia/node.cpp`.
Kind: L -/
theorem replaced_split {p : KBucketEntry → Bool} {es : List KBucketEntry} (h : es.any p = true) :
    ∃ front x back, es = front ++ x :: back ∧ es.find? p = some x ∧
      ∀ e, replaced p e es = front ++ back ++ [e] := by
  obtain ⟨a, ha, hpa⟩ := List.any_eq_true.mp h
  obtain ⟨x, front, back, hfront, hx, hes, herase⟩ := List.exists_of_eraseP ha hpa
  refine ⟨front, x, back, hes, ?_, fun e => by rw [replaced, herase]⟩
  rw [List.find?_eq_some_iff_append]
  exact ⟨hx, front, back, hes, fun b hb => by simpa using hfront b hb⟩

variable {our_id : Key} {i : Fin 160} {b : KBucket}

/-- **A contact takes another one's place**: the contacts stay different exactly if it fits.
Source: `kademlia/kbucket.cpp`, `kademlia/node.cpp`. Kind: L -/
theorem nodup_replaced_iff {p : KBucketEntry → Bool} (hany : b.entries.any p = true)
    (hnd : b.contacts.Nodup) (e : KBucketEntry) :
    ((replaced p e b.entries).map contact).Nodup ↔ Fits p e b := by
  obtain ⟨front, x, back, hes, hfind, hrep⟩ := replaced_split hany
  have hold : b.contacts = front.map contact ++ x.contact :: back.map contact := by
    rw [contacts, hes, List.map_append, List.map_cons]
  have hnew : (replaced p e b.entries).map contact =
      (front.map contact ++ back.map contact) ++ [e.contact] := by
    rw [hrep, List.map_append, List.map_append, List.map_singleton]
  unfold Fits
  rw [hfind, hnew, hold, List.nodup_append_comm, List.singleton_append, List.nodup_cons]
  rw [hold] at hnd
  obtain ⟨hx, hrest⟩ := List.nodup_cons.mp (List.nodup_middle.mp hnd)
  simp only [Option.mem_def, Option.some.injEq, forall_eq']
  constructor
  · rintro ⟨hne, -⟩
    by_cases hxe : x.contact = e.contact
    · exact Or.inl hxe
    · refine Or.inr fun hmem => ?_
      rcases List.mem_append.mp hmem with h | h
      · exact hne (List.mem_append_left _ h)
      · rcases List.mem_cons.mp h with h | h
        · exact hxe h.symm
        · exact hne (List.mem_append_right _ h)
  · rintro (hxe | hnot)
    · exact ⟨hxe ▸ hx, hrest⟩
    · refine ⟨fun hmem => hnot ?_, hrest⟩
      rcases List.mem_append.mp hmem with h | h
      · exact List.mem_append_left _ h
      · exact List.mem_append_right _ (List.mem_cons_of_mem _ h)

/-- **A contact takes another one's place in a sound bucket.**. Source: `kademlia/kbucket.cpp`,
`kademlia/node.cpp`. Kind: L -/
theorem Sound.replaced (h : Sound our_id i b) {p : KBucketEntry → Bool}
    (hany : b.entries.any p = true) {e : KBucketEntry} (hfit : Fits p e b)
    (he : Node.findBucket our_id e.node_id = i) :
    Sound our_id i { b with entries := replaced p e b.entries } := by
  have hnd := (nodup_replaced_iff hany h.distinct e).mpr hfit
  obtain ⟨front, x, back, hes, -, hrep⟩ := replaced_split hany
  obtain ⟨hroom, -, hplaced⟩ := h
  unfold contacts at hroom hplaced
  rw [hes] at hroom hplaced
  refine ⟨?_, hnd, fun c hc => ?_⟩
  · show ((KBucket.replaced p e b.entries).map contact).length ≤ K
    rw [hrep]
    simp only [List.length_map, List.length_append, List.length_cons, List.length_nil] at hroom ⊢
    omega
  · have hc' : c ∈ (front ++ back ++ [e]).map contact := by
      rw [← hrep]
      exact hc
    rw [List.map_append, List.map_append, List.mem_append, List.mem_append, List.map_singleton,
      List.mem_singleton] at hc'
    rcases hc' with (h1 | h1) | rfl
    · exact hplaced c (by rw [List.map_append]; exact List.mem_append_left _ h1)
    · refine hplaced c ?_
      rw [List.map_append, List.map_cons]
      exact List.mem_append_right _ (List.mem_cons_of_mem _ h1)
    · exact he

/-- Soundness depends on the contacts alone. Source: none: infrastructure. Kind: L -/
theorem Sound.congr (h : Sound our_id i b) {b' : KBucket} (hc : b'.contacts = b.contacts) :
    Sound our_id i b' :=
  ⟨hc ▸ h.room, hc ▸ h.distinct, hc ▸ h.placed⟩

/-! ### The operations -/

/-- Pinging an entry leaves the contacts. Source: `KBucket::pingQuestionable`. Kind: L -/
theorem contacts_pingQuestionable (now c : ℕ) (e : KBucketEntry) (b : KBucket) :
    (b.pingQuestionable now c e).contacts = b.contacts := by
  unfold pingQuestionable
  split_ifs
  · rfl
  · split
    · rfl
    · exact map_modifyFirst contact contact_onPingQuestionable b.entries

/-- What waits for a ping belongs to the bucket. Source: `KBucket::pingQuestionable`. Kind: L -/
theorem Waiting.pingQuestionable (h : Waiting our_id i b) (now c : ℕ) {e : KBucketEntry}
    (he : Node.findBucket our_id e.node_id = i) : Waiting our_id i (b.pingQuestionable now c e) := by
  unfold KBucket.pingQuestionable
  split_ifs
  · refine ⟨fun x hx => ?_, h.pinging⟩
    rcases List.mem_append.mp hx with hx | hx
    · exact h.pending x hx
    · rw [List.mem_singleton.mp hx]
      exact he
  · split
    · exact h
    · refine ⟨h.pending, fun p hp => ?_⟩
      rcases List.mem_append.mp hp with hp | hp
      · exact h.pinging p hp
      · rw [List.mem_singleton.mp hp]
        exact he

/-- **A contact that waited gets a place, or waits again.**. Source: `kademlia/kbucket.cpp`,
`kademlia/node.cpp`. Kind: L -/
theorem Sound.replaceOrPing (h : Sound our_id i b) {now : ℕ} {e : KBucketEntry}
    (hfit : Fits (·.isBad now) e b) (he : Node.findBucket our_id e.node_id = i) (c : ℕ) :
    Sound our_id i (b.replaceOrPing now c e) := by
  unfold KBucket.replaceOrPing replaceBadEntry
  split_ifs with hany
  · exact h.replaced hany hfit he
  · exact h.congr (contacts_pingQuestionable now c e b)

/-- What waits belongs to the bucket, also when a bad entry is looked for first.
Source: `kademlia/kbucket.cpp`, `kademlia/node.cpp`. Kind: L -/
theorem Waiting.replaceOrPing (h : Waiting our_id i b) (now c : ℕ) {e : KBucketEntry}
    (he : Node.findBucket our_id e.node_id = i) : Waiting our_id i (b.replaceOrPing now c e) := by
  unfold KBucket.replaceOrPing replaceBadEntry
  split_ifs
  · exact ⟨h.pending, h.pinging⟩
  · exact h.pingQuestionable now c he

/-- A contact that is not in the bucket fits. Source: `kademlia/kbucket.cpp`, `kademlia/node.cpp`.
Kind: L -/
theorem fits_of_not_mem {p : KBucketEntry → Bool} {e : KBucketEntry} (h : e.contact ∉ b.contacts) :
    Fits p e b :=
  fun _ _ => Or.inr h

/-- The source's search for an entry, as a statement about contacts. Source: `kademlia/kbucket.cpp`,
`kademlia/node.cpp`. Kind: L -/
theorem any_eq_iff {e : KBucketEntry} : b.entries.any e.eq = true ↔ e.contact ∈ b.contacts := by
  rw [List.any_eq_true, contacts, List.mem_map]
  constructor
  · rintro ⟨x, hx, heq⟩
    exact ⟨x, hx, ((eq_iff e x).mp heq).symm⟩
  · rintro ⟨x, hx, heq⟩
    exact ⟨x, hx, (eq_iff e x).mpr heq.symm⟩

/-- **A contact that comes with a message.**. Source: `kademlia/kbucket.cpp`, `kademlia/node.cpp`.
Kind: L -/
theorem Sound.insert (h : Sound our_id i b) (now c : ℕ) {e : KBucketEntry}
    (he : Node.findBucket our_id e.node_id = i) : Sound our_id i (b.insert now c e) := by
  unfold KBucket.insert
  split_ifs with hany hroom
  · refine h.replaced hany (fun x hx => Or.inl ?_) he
    exact ((eq_iff e x).mp (List.find?_some hx)).symm
  · have hnot : e.contact ∉ b.contacts := fun hmem => hany (any_eq_iff.mpr hmem)
    have hcontacts : ({ b with entries := b.entries ++ [e] } : KBucket).contacts =
        b.contacts ++ [e.contact] := List.map_append
    refine ⟨?_, ?_, fun x hx => ?_⟩
    · rw [hcontacts, List.length_append, contacts, List.length_map]
      exact hroom
    · rw [hcontacts]
      exact List.nodup_append_comm.mp (List.nodup_cons.mpr ⟨hnot, h.distinct⟩)
    · rw [hcontacts] at hx
      rcases List.mem_append.mp hx with hx | hx
      · exact h.placed x hx
      · rw [List.mem_singleton.mp hx]
        exact he
  · exact h.replaceOrPing (fits_of_not_mem fun hmem => hany (any_eq_iff.mpr hmem)) he c

/-- What waits belongs to the bucket, also after an insertion. Source: `kademlia/kbucket.cpp`,
`kademlia/node.cpp`. Kind: L -/
theorem Waiting.insert (h : Waiting our_id i b) (now c : ℕ) {e : KBucketEntry}
    (he : Node.findBucket our_id e.node_id = i) : Waiting our_id i (b.insert now c e) := by
  unfold KBucket.insert
  split_ifs
  · exact ⟨h.pending, h.pinging⟩
  · exact ⟨h.pending, h.pinging⟩
  · exact h.replaceOrPing now c he

/-- What is found among the pings is one of them. Source: `kademlia/kbucket.cpp`,
`kademlia/node.cpp`. Kind: L -/
theorem mem_of_pinging {call : ℕ} {p : Ping} (h : b.pinging call = some p) :
    p ∈ b.pending_entries_busy_pinging :=
  List.mem_of_find?_eq_some h

/-- A ping that is over leaves the others. Source: `kademlia/kbucket.cpp`, `kademlia/node.cpp`.
Kind: L -/
theorem Waiting.erasePing (h : Waiting our_id i b) (call : ℕ) :
    Waiting our_id i (b.erasePing call) :=
  ⟨h.pending, fun p hp => h.pinging p (List.mem_of_mem_eraseP hp)⟩

/-- **The ping was answered**: the contact that waited looks for another place.
Source: `KBucket::onResponse`. Kind: L -/
theorem Sound.onResponse (h : Sound our_id i b) (hw : Waiting our_id i b) {now c call : ℕ}
    (hfit : ∀ p ∈ b.pinging call, Fits (·.isBad now) p.entry b) :
    Sound our_id i (b.onResponse now c call) ∧ Waiting our_id i (b.onResponse now c call) := by
  unfold KBucket.onResponse
  rcases hp : b.pinging call with _ | p
  · exact ⟨h, hw⟩
  · have he := hw.pinging p (mem_of_pinging hp)
    have hs : Sound our_id i (b.erasePing call) := h.congr rfl
    exact ⟨hs.replaceOrPing (hfit p hp) he c, (hw.erasePing call).replaceOrPing now c he⟩

/-- What the contacts that get a place when a ping is not answered must satisfy: the one that waits
for the ping, and the next one. Kind: D -/
def TimeoutFits (now call : ℕ) (b : KBucket) : Prop :=
  ∀ p ∈ b.pinging call, Fits (fun e => e.addr = p.origin) p.entry b ∧
    ∀ pe ∈ b.pending_entries.head?, (b.erasePing call).pending_entries_busy_pinging.length < 2 →
      Fits (·.isBad now) pe (b.replaceSilent p)

/-- The entry that did not answer is replaced by one that fits.
Source: `KBucket::onTimeout(RPCCall*)`. Kind: L -/
theorem Sound.replaceSilent (h : Sound our_id i b) {p : Ping}
    (hfit : Fits (fun e => e.addr = p.origin) p.entry b)
    (he : Node.findBucket our_id p.entry.node_id = i) : Sound our_id i (b.replaceSilent p) := by
  unfold KBucket.replaceSilent
  split_ifs with hany
  · exact h.replaced hany hfit he
  · exact h

/-- What waits is left. Source: `KBucket::onTimeout(RPCCall*)`. Kind: L -/
theorem frame_replaceSilent (p : Ping) (b : KBucket) :
    (b.replaceSilent p).pending_entries = b.pending_entries ∧
      (b.replaceSilent p).pending_entries_busy_pinging = b.pending_entries_busy_pinging := by
  unfold KBucket.replaceSilent
  split_ifs
  · exact ⟨rfl, rfl⟩
  · exact ⟨rfl, rfl⟩

/-- Another contact that waits has its turn. Source: `KBucket::onTimeout(RPCCall*)`. Kind: L -/
theorem Sound.nextPending (h : Sound our_id i b) (hw : Waiting our_id i b) {now : ℕ}
    (hfit : ∀ pe ∈ b.pending_entries.head?, b.pending_entries_busy_pinging.length < 2 →
      Fits (·.isBad now) pe b) (c : ℕ) :
    Sound our_id i (b.nextPending now c) ∧ Waiting our_id i (b.nextPending now c) := by
  unfold KBucket.nextPending
  split
  · exact ⟨h, hw⟩
  · rename_i pe rest hpend
    have hpe := hw.pending pe (by rw [hpend]; exact List.mem_cons_self)
    split_ifs with hroom
    · have hs : Sound our_id i { b with pending_entries := rest } := h.congr rfl
      have hw' : Waiting our_id i { b with pending_entries := rest } :=
        ⟨fun e he => hw.pending e (by rw [hpend]; exact List.mem_cons_of_mem _ he), hw.pinging⟩
      have hfits : Fits (·.isBad now) pe b := hfit pe (by rw [hpend]; rfl) hroom
      exact ⟨hs.replaceOrPing hfits hpe c, hw'.replaceOrPing now c hpe⟩
    · exact ⟨h, hw⟩

/-- **The ping was not answered**: the contact that waited takes the place.
Source: `KBucket::onTimeout(RPCCall*)`. Kind: L -/
theorem Sound.onTimeout (h : Sound our_id i b) (hw : Waiting our_id i b) {now c call : ℕ}
    (hfit : TimeoutFits now call b) :
    Sound our_id i (b.onTimeout now c call) ∧ Waiting our_id i (b.onTimeout now c call) := by
  unfold KBucket.onTimeout
  rcases hp : b.pinging call with _ | p
  · exact ⟨h, hw⟩
  · obtain ⟨hsilent, hnext⟩ := hfit p hp
    obtain ⟨hpend, hping⟩ := frame_replaceSilent p b
    have hs := h.replaceSilent hsilent (hw.pinging p (mem_of_pinging hp))
    have hw₁ : Waiting our_id i (b.replaceSilent p) := ⟨hpend ▸ hw.pending, hping ▸ hw.pinging⟩
    have hs₂ : Sound our_id i ((b.replaceSilent p).erasePing call) := hs.congr rfl
    refine hs₂.nextPending (hw₁.erasePing call) (fun pe hpe hroom => ?_) c
    refine hnext pe ?_ ?_
    · rw [← hpend]
      exact hpe
    · have hroom' : ((b.replaceSilent p).pending_entries_busy_pinging.eraseP fun p =>
        p.call = call).length < 2 := hroom
      rwa [hping] at hroom'

/-- A timeout leaves the contacts. Source: `KBucket::onTimeout(const KInetSocketAddress &)`.
Kind: L -/
theorem contacts_requestTimeout (addr : KInetSocketAddress) (b : KBucket) :
    (b.requestTimeout addr).contacts = b.contacts :=
  map_modifyFirst contact contact_requestTimeout b.entries

end KBucket

namespace Node

/-! ### The table -/

/-- Every bucket is sound, and what waits for a place in it belongs there. Kind: D -/
def Buckets (n : Node) : Prop :=
  ∀ i b, n.bucket i = some b → KBucket.Sound n.our_id i b ∧ KBucket.Waiting n.our_id i b

/-- One bucket is replaced by a sound one. Source: `kademlia/kbucket.cpp`, `kademlia/node.cpp`.
Kind: L -/
theorem Buckets.setBucket {n : Node} (h : Buckets n) {i : Fin 160} {b : KBucket}
    (hs : KBucket.Sound n.our_id i b) (hw : KBucket.Waiting n.our_id i b) :
    Buckets (n.setBucket i b) := by
  intro j b' hb'
  have hb : Function.update n.bucket i (some b) j = some b' := hb'
  by_cases hj : j = i
  · subst hj
    rw [Function.update_self] at hb
    obtain rfl := Option.some.inj hb
    exact ⟨hs, hw⟩
  · rw [Function.update_of_ne hj] at hb
    exact h j b' hb

/-- A new table. Source: `kademlia/kbucket.cpp`, `kademlia/node.cpp`. Kind: L -/
theorem buckets_new (our_id : Key) (delete_table : Bool) : Buckets (new our_id delete_table) :=
  fun _ _ h => by cases h

/-- An empty bucket. Source: `kademlia/kbucket.cpp`, `kademlia/node.cpp`. Kind: L -/
theorem sound_empty (our_id : Key) (i : Fin 160) :
    KBucket.Sound our_id i {} ∧ KBucket.Waiting our_id i {} :=
  ⟨⟨Nat.zero_le _, List.nodup_nil, fun _ h => absurd h List.not_mem_nil⟩,
    ⟨fun _ h => absurd h List.not_mem_nil, fun _ h => absurd h List.not_mem_nil⟩⟩

/-- **A message that came.**. Source: `Node::recieved`. Kind: L -/
theorem Buckets.recieved {n : Node} (h : Buckets n) (now : ℕ) (origin : KInetSocketAddress)
    (id : Key) : Buckets (n.recieved now origin id) := by
  unfold Node.recieved
  split_ifs with hi
  · have hb : KBucket.Sound n.our_id ⟨findBucket n.our_id id, hi⟩
          ((n.bucket ⟨findBucket n.our_id id, hi⟩).getD {}) ∧
        KBucket.Waiting n.our_id ⟨findBucket n.our_id id, hi⟩
          ((n.bucket ⟨findBucket n.our_id id, hi⟩).getD {}) := by
      rcases hb : n.bucket ⟨findBucket n.our_id id, hi⟩ with _ | b
      · exact sound_empty _ _
      · exact h _ b hb
    exact h.setBucket (hb.1.insert now n.calls rfl) (hb.2.insert now n.calls rfl)
  · exact h

/-- A ping is answered. Source: `KBucket::onResponse`. Kind: L -/
theorem Buckets.onResponse {n : Node} (h : Buckets n) {now : ℕ} {i : Fin 160} {call : ℕ}
    (hfit : ∀ b ∈ n.bucket i, ∀ p ∈ b.pinging call, KBucket.Fits (·.isBad now) p.entry b) :
    Buckets (n.onResponse now i call) := by
  unfold Node.onResponse
  rcases hb : n.bucket i with _ | b
  · exact h
  · obtain ⟨hs, hw⟩ := h i b hb
    have hop := hs.onResponse hw (c := n.calls) (hfit b hb)
    exact h.setBucket hop.1 hop.2

/-- A ping is not answered. Source: `KBucket::onTimeout(RPCCall*)`. Kind: L -/
theorem Buckets.onPingTimeout {n : Node} (h : Buckets n) {now : ℕ} {i : Fin 160} {call : ℕ}
    (hfit : ∀ b ∈ n.bucket i, b.TimeoutFits now call) : Buckets (n.onPingTimeout now i call) := by
  unfold Node.onPingTimeout
  rcases hb : n.bucket i with _ | b
  · exact h
  · obtain ⟨hs, hw⟩ := h i b hb
    have hop := hs.onTimeout hw (c := n.calls) (hfit b hb)
    exact h.setBucket hop.1 hop.2

/-- Another request is not answered. Source: `Node::onTimeout`. Kind: L -/
theorem Buckets.onTimeout {n : Node} (h : Buckets n) (addr : KInetSocketAddress) :
    Buckets (n.onTimeout addr) := by
  unfold Node.onTimeout
  split
  · exact h
  · rename_i i _
    rcases hb : n.bucket i with _ | b
    · exact h
    · obtain ⟨hs, hw⟩ := h i b hb
      exact h.setBucket (hs.congr (KBucket.contacts_requestTimeout addr b)) ⟨hw.pending, hw.pinging⟩

/-! ### The table in a file -/

/-- An entry of the file has 26 bytes. Source: `KBucket::save`. Kind: L -/
@[simp] theorem length_entryBytes (e : KBucketEntry) : (entryBytes e).length = 26 := by
  simp [entryBytes]

/-- An entry that was saved is read back as a fresh one. Source: `KBucket::load`. Kind: L -/
theorem readEntry_entryBytes (now : ℕ) (e : KBucketEntry) :
    readEntry now (entryBytes e) = .new now e.addr e.node_id := by
  have hip : readUint32 (entryBytes e) 0 = e.addr.ip.toNat := by
    have h := readUint32_append [] e.addr.ip.toNat
      (uint16Bytes e.addr.port.toNat ++ e.node_id.getData)
    rw [List.nil_append, ← List.append_assoc] at h
    exact h.trans (u32_of_lt e.addr.ip.toNat_lt)
  have hport : readUint16 (entryBytes e) 4 = e.addr.port.toNat :=
    readUint16_append (uint32Bytes e.addr.ip.toNat) e.addr.port.toNat_lt e.node_id.getData
  have hid : (entryBytes e).drop 6 = e.node_id.getData := rfl
  rw [readEntry, hip, hport, hid, Key.ofBytes_getData, UInt32.ofNat_toNat, UInt16.ofNat_toNat]

/-- Entries that were written are read back, as new ones. Source: `KBucket::load`. Kind: L -/
theorem loadEntries_flatMap (now : ℕ) (es : List KBucketEntry) (rest : List UInt8) :
    loadEntries now es.length (es.flatMap entryBytes ++ rest) =
      es.map fun e => .new now e.addr e.node_id := by
  induction es with
  | nil => rfl
  | cons e es ih =>
    rw [List.length_cons, List.flatMap_cons, List.append_assoc]
    unfold loadEntries
    rw [if_neg (by rw [List.length_append, length_entryBytes]; omega),
      List.take_left' (length_entryBytes e), List.drop_left' (length_entryBytes e), ih,
      readEntry_entryBytes, List.map_cons]

/-- The header of a bucket is read back as it was written. Source: `kademlia/kbucket.cpp`,
`kademlia/node.cpp`. Kind: L -/
theorem BucketHeader.read_bytes {hdr : BucketHeader} (h1 : hdr.magic < 2 ^ 32)
    (h2 : hdr.index < 2 ^ 32) (h3 : hdr.num_entries < 2 ^ 32) (rest : List UInt8) :
    BucketHeader.read (hdr.bytes ++ rest) = hdr := by
  have k1 : wordAt (hdr.bytes ++ rest) 0 = hdr.magic := by
    have h := wordAt_append [] h1 (hostWord hdr.index ++ hostWord hdr.num_entries ++ rest)
    simpa [BucketHeader.bytes] using h
  have k2 : wordAt (hdr.bytes ++ rest) 4 = hdr.index := by
    have h := wordAt_append (hostWord hdr.magic) h2 (hostWord hdr.num_entries ++ rest)
    simpa [BucketHeader.bytes] using h
  have k3 : wordAt (hdr.bytes ++ rest) 8 = hdr.num_entries := by
    have h := wordAt_append (hostWord hdr.magic ++ hostWord hdr.index) h3 rest
    simpa [BucketHeader.bytes] using h
  rw [BucketHeader.read, k1, k2, k3]

/-- A sound bucket that was saved is loaded, unless it is empty. Source: `Node::loadTable`.
Kind: L -/
theorem loadBuckets_saveBucket (now : ℕ) {i : Fin 160} {b : KBucket} (hroom : b.contacts.length ≤ K)
    (rest : List UInt8) (m : Node) :
    loadBuckets now (saveBucket i b ++ rest) m =
      loadBuckets now rest (if b.entries = [] then m else
        m.setBucket i { entries := b.entries.map fun e => .new now e.addr e.node_id }) := by
  have hlen : b.entries.length ≤ K := by
    rwa [KBucket.contacts, List.length_map] at hroom
  have hK : K = 8 := rfl
  have hi := i.2
  set hdr : BucketHeader := ⟨BUCKET_MAGIC_NUMBER, i, b.entries.length⟩ with hhdr
  have hsave : saveBucket i b ++ rest = hdr.bytes ++ (b.entries.flatMap entryBytes ++ rest) := by
    rw [saveBucket, List.append_assoc]
  have hread : BucketHeader.read (hdr.bytes ++ (b.entries.flatMap entryBytes ++ rest)) = hdr :=
    BucketHeader.read_bytes (by show BUCKET_MAGIC_NUMBER < _; decide)
      (by show i.val < _; omega) (by show b.entries.length < _; omega) _
  have hbytes : hdr.bytes.length = BucketHeader.size := rfl
  rw [hsave, loadBuckets]
  rw [dif_neg (by rw [List.length_append, hbytes]; omega)]
  simp only [hread, List.drop_left' hbytes]
  rw [if_neg (by
    rintro (h | h | h)
    · exact h rfl
    · exact absurd hlen (not_le.mpr h)
    · exact absurd hi (by show ¬ i.val < 160; have h' : i.val > 160 := h; omega))]
  by_cases hnil : b.entries = []
  · rw [if_pos (by show b.entries.length = 0; rw [hnil]; rfl), if_pos hnil, hnil]
    rfl
  · have hne : ¬ hdr.num_entries = 0 := fun h => hnil (List.eq_nil_of_length_eq_zero h)
    have hdrop : (b.entries.flatMap entryBytes ++ rest).drop (26 * b.entries.length) = rest := by
      apply List.drop_left'
      rw [List.length_flatMap]
      simp [Nat.mul_comm]
    have hload := loadEntries_flatMap now b.entries rest
    rw [if_neg hne, if_neg hnil, dif_pos hi]
    simp only [hhdr, hdrop, hload]

/-- **A table that was saved is loaded under the same ID.**. Source: `Node::loadTable`. Kind: L -/
theorem Buckets.loadTable {n : Node} (h : Buckets n) (now : ℕ) :
    ∃ m, (new n.our_id false).loadTable now n.saveTable = some m ∧ m.our_id = n.our_id ∧
      Buckets m := by
  have hloop : ∀ (is : List (Fin 160)) (m : Node), m.our_id = n.our_id → Buckets m →
      ∃ m', loadBuckets now (is.flatMap fun i => (n.bucket i).elim [] (saveBucket i)) m = some m' ∧
        m'.our_id = n.our_id ∧ Buckets m' := by
    intro is
    induction is with
    | nil =>
      intro m hid hm
      refine ⟨m, ?_, hid, hm⟩
      rw [List.flatMap_nil, loadBuckets, dif_pos (by decide)]
    | cons i is ih =>
      intro m hid hm
      rw [List.flatMap_cons]
      rcases hb : n.bucket i with _ | b
      · exact ih m hid hm
      · obtain ⟨hs, -⟩ := h i b hb
        rw [Option.elim_some, loadBuckets_saveBucket now hs.room]
        split_ifs with hnil
        · exact ih m hid hm
        · have hcontacts : KBucket.contacts
              { entries := b.entries.map fun e => .new now e.addr e.node_id } = b.contacts := by
            rw [KBucket.contacts, List.map_map]
            rfl
          refine ih _ hid (hm.setBucket ?_ ⟨?_, ?_⟩)
          · rw [hid]
            exact hs.congr hcontacts
          · exact fun _ he => absurd he List.not_mem_nil
          · exact fun _ hp => absurd hp List.not_mem_nil
  exact hloop (List.finRange 160) _ rfl (buckets_new _ _)

/-! ### Runs -/

/-- What happens to the table. Kind: D -/
inductive Event where
  /-- A message came from a node. -/
  | recieved (now : ℕ) (origin : KInetSocketAddress) (id : Key)
  /-- A ping of bucket `i` was answered. -/
  | response (now : ℕ) (i : Fin 160) (call : ℕ)
  /-- A ping of bucket `i` was not answered. -/
  | pingTimeout (now : ℕ) (i : Fin 160) (call : ℕ)
  /-- Some request to an address was not answered. -/
  | timeout (addr : KInetSocketAddress)
  /-- The table is saved, and loaded in a new session under the same ID. -/
  | restart (now : ℕ)

/-- Kind: D -/
def step (n : Node) : Event → Node
  | .recieved now origin id => n.recieved now origin id
  | .response now i call => n.onResponse now i call
  | .pingTimeout now i call => n.onPingTimeout now i call
  | .timeout addr => n.onTimeout addr
  | .restart now => ((new n.our_id false).loadTable now n.saveTable).getD n

/-- **A contact that has waited is not in the bucket when it gets a place there**, unless in this
place. Kind: D -/
def Fitting (n : Node) : Event → Prop
  | .response now i call =>
      ∀ b ∈ n.bucket i, ∀ p ∈ b.pinging call, KBucket.Fits (·.isBad now) p.entry b
  | .pingTimeout now i call => ∀ b ∈ n.bucket i, b.TimeoutFits now call
  | _ => True

/-- Every event keeps the buckets, under its condition. Source: `kademlia/kbucket.cpp`,
`kademlia/node.cpp`. Kind: L -/
theorem Buckets.step {n : Node} (h : Buckets n) {e : Event} (hfit : Fitting n e) :
    Buckets (n.step e) := by
  cases e with
  | recieved now origin id => exact h.recieved now origin id
  | response now i call => exact h.onResponse hfit
  | pingTimeout now i call => exact h.onPingTimeout hfit
  | timeout addr => exact h.onTimeout addr
  | restart now =>
    obtain ⟨m, hm, -, hb⟩ := h.loadTable now
    show Buckets (((new n.our_id false).loadTable now n.saveTable).getD n)
    rw [hm]
    exact hb

/-- Nothing changes our own ID. Source: `kademlia/kbucket.cpp`, `kademlia/node.cpp`. Kind: L -/
theorem our_id_step (n : Node) (e : Event) : Buckets n → (n.step e).our_id = n.our_id := by
  intro h
  cases e with
  | recieved now origin id =>
    show (n.recieved now origin id).our_id = _
    unfold Node.recieved
    split_ifs
    · rfl
    · rfl
  | response now i call =>
    show (n.onResponse now i call).our_id = _
    unfold Node.onResponse
    split
    · rfl
    · rfl
  | pingTimeout now i call =>
    show (n.onPingTimeout now i call).our_id = _
    unfold Node.onPingTimeout
    split
    · rfl
    · rfl
  | timeout addr =>
    show (n.onTimeout addr).our_id = _
    unfold Node.onTimeout
    split
    · rfl
    · split
      · rfl
      · rfl
  | restart now =>
    obtain ⟨m, hm, hid, -⟩ := h.loadTable now
    show (((new n.our_id false).loadTable now n.saveTable).getD n).our_id = _
    rw [hm]
    exact hid

/-- **Every bucket is sound in every state of a run** in which contacts that waited fit when they
get a place: it has at most `K` contacts, no two of them are the same, and each belongs there.
Source: `kademlia/kbucket.cpp`, `kademlia/node.cpp`. Kind: P -/
theorem buckets_run (our_id : Key) (delete_table : Bool) (events : List Event)
    (h : Meets step Fitting (new our_id delete_table) events) :
    ∀ pre, pre <+: events → ∀ i b, (run step (new our_id delete_table) pre).bucket i = some b →
      KBucket.Sound our_id i b := by
  intro pre hpre i b hb
  have hstep : ∀ n e, Buckets n ∧ n.our_id = our_id → Fitting n e →
      Buckets (n.step e) ∧ (n.step e).our_id = our_id := fun n e hn he =>
    ⟨hn.1.step he, (our_id_step n e hn.1).trans hn.2⟩
  have hinv := h.invariant_at hstep ⟨buckets_new our_id delete_table, rfl⟩ hpre
  have hs := (hinv.1 i b hb).1
  rwa [hinv.2] at hs

/-! ### A contact that waits and comes -/

/-- An ID that belongs into the last bucket, seen from the ID zero. Kind: D -/
def farKey (b : UInt8) : Key := ⟨fun i => if i.val = 0 then 0x80 else if i.val = 19 then b else 0⟩

/-- The node with this ID sends a message. Kind: D -/
def comes (now : ℕ) (b : UInt8) : Event := .recieved now ⟨b.toUInt32, 6881⟩ (farKey b)

/-- Eight nodes fill the bucket. Sixteen minutes later a ninth comes, and waits for a ping to the
first. Kind: D -/
def fullTable : List Event :=
  [comes 0 1, comes 0 2, comes 0 3, comes 0 4, comes 0 5, comes 0 6, comes 0 7, comes 0 8,
    comes 960000 9]

/-- The second does not answer three requests, so that the ninth, when it comes again, takes its
place. Then the ping to the first is not answered. Kind: D -/
def comesAgain : List Event :=
  [.timeout ⟨2, 6881⟩, .timeout ⟨2, 6881⟩, .timeout ⟨2, 6881⟩, comes 960000 9,
    .pingTimeout 960000 159 8]

/-- **A contact is in its bucket twice.**. Source: `kademlia/kbucket.cpp`, `kademlia/node.cpp`.
Kind: P -/
theorem contact_twice : ¬ ∀ (our_id : Key) (delete_table : Bool) (events : List Event) (i : Fin 160)
    (b : KBucket), (run step (new our_id delete_table) events).bucket i = some b →
      KBucket.Sound our_id i b := by
  intro h
  have hrun : ((run step (new ⟨fun _ => 0⟩ false) (fullTable ++ comesAgain)).bucket 159).elim true
      (fun b => decide b.contacts.Nodup) = false := by decide +kernel
  rcases hb : (run step (new ⟨fun _ => 0⟩ false) (fullTable ++ comesAgain)).bucket 159 with _ | b
  · rw [hb] at hrun
    cases hrun
  · rw [hb, Option.elim_some, decide_eq_false_iff_not] at hrun
    exact hrun (h _ _ _ _ _ hb).distinct

/-- The ping to the first node is not answered, and the ninth takes its place.
Source: `kademlia/kbucket.cpp`, `kademlia/node.cpp`. Kind: L -/
theorem sound_fullTable : Meets step Fitting (new ⟨fun _ => 0⟩ false)
      (fullTable ++ [.pingTimeout 960000 159 8]) ∧
    ∀ b, (run step (new ⟨fun _ => 0⟩ false) (fullTable ++ [.pingTimeout 960000 159 8])).bucket 159 =
      some b → KBucket.Sound ⟨fun _ => 0⟩ 159 b := by
  have hmeets : Meets step Fitting (new ⟨fun _ => 0⟩ false)
      (fullTable ++ [.pingTimeout 960000 159 8]) := by
    refine meets_append.mpr ⟨⟨trivial, trivial, trivial, trivial, trivial, trivial, trivial, trivial,
      trivial, trivial⟩, ?_, trivial⟩
    show ∀ b ∈ (run step (new ⟨fun _ => 0⟩ false) fullTable).bucket 159,
      KBucket.TimeoutFits 960000 8 b
    unfold KBucket.TimeoutFits
    decide +kernel
  exact ⟨hmeets, fun b hb => buckets_run _ _ _ hmeets _ List.prefix_rfl 159 b hb⟩

end Node

end KTorrent.Dht
