import Mathlib.Algebra.GroupWithZero.Nat
import Mathlib.Data.Finset.Max
import Mathlib.Data.Finset.Sort

/-!
# Maps kept in the order of their keys

A `SortedMap` is the list of its entries in strictly increasing order of the keys, which is what a
walk over a balanced tree gives. Inserting a key that is there changes nothing.

* `keySet` — the keys as a finite set; `keySet_insert` and `keySet_erase` are its equations.
* `max_keySet` — the last entry has the greatest key.
* `mem_insert` — where an entry of the map comes from; `put` replaces the entry of its key
  (`mem_put`).
* `find?_eq_some_iff`, `find?_insert`, `find?_put`, `find?_mapEntries` — what is found, also after an
  entry has been put, and after a walk that changes the entries in place; `sum_put` — a sum over
  the values.
-/

namespace KTorrent.Lib

/-- A map as the list of its entries, which carries the proof that the keys increase. -/
structure SortedMap (κ β : Type*) [LinearOrder κ] where
  entries : List (κ × β)
  sorted : entries.Pairwise fun x y => x.1 < y.1

namespace SortedMap

variable {κ β : Type*} [LinearOrder κ]

/-- An entry put in its place, unless its key is there. -/
def insertEntry (k : κ) (b : β) : List (κ × β) → List (κ × β)
  | [] => [(k, b)]
  | x :: xs => if k < x.1 then (k, b) :: x :: xs else if k = x.1 then x :: xs
      else x :: insertEntry k b xs

/-- An entry is the one put in, or was there. Source: none: infrastructure. Kind: L -/
theorem mem_insertEntry {k : κ} {b : β} {l : List (κ × β)} {y : κ × β} :
    y ∈ insertEntry k b l → y = (k, b) ∨ y ∈ l := by
  induction l with
  | nil => exact fun h => Or.inl (List.mem_singleton.mp h)
  | cons x xs ih =>
    intro h
    unfold insertEntry at h
    split_ifs at h
    · exact List.mem_cons.mp h
    · exact Or.inr h
    · rcases List.mem_cons.mp h with rfl | h
      · exact Or.inr List.mem_cons_self
      · exact (ih h).imp_right (List.mem_cons_of_mem x)

/-- Entries stay in order. Source: none: infrastructure. Kind: L -/
theorem sorted_insertEntry (k : κ) (b : β) {l : List (κ × β)}
    (h : l.Pairwise fun x y => x.1 < y.1) :
    (insertEntry k b l).Pairwise fun x y => x.1 < y.1 := by
  induction l with
  | nil => exact List.pairwise_singleton _ _
  | cons x xs ih =>
    obtain ⟨h1, h2⟩ := List.pairwise_cons.mp h
    unfold insertEntry
    split_ifs with hlt heq
    · refine List.pairwise_cons.mpr ⟨fun y hy => ?_, h⟩
      rcases List.mem_cons.mp hy with rfl | hy
      · exact hlt
      · exact hlt.trans (h1 y hy)
    · exact h
    · refine List.pairwise_cons.mpr ⟨fun y hy => ?_, ih h2⟩
      rcases mem_insertEntry hy with rfl | hy
      · exact lt_of_le_of_ne (not_lt.mp hlt) (Ne.symm heq)
      · exact h1 y hy

/-- The keys with the one put in. Source: none: infrastructure. Kind: L -/
theorem keys_insertEntry (k : κ) (b : β) (l : List (κ × β)) (j : κ) :
    j ∈ (insertEntry k b l).map Prod.fst ↔ j = k ∨ j ∈ l.map Prod.fst := by
  induction l with
  | nil => simp [insertEntry]
  | cons x xs ih =>
    unfold insertEntry
    split_ifs with hlt heq
    · simp
    · subst heq
      simp
    · rw [List.map_cons, List.mem_cons, ih, List.map_cons, List.mem_cons]
      exact or_left_comm

/-- The map without entries. -/
def empty : SortedMap κ β := ⟨[], List.Pairwise.nil⟩

/-- The entry is put into the map, unless its key is there. -/
def insert (k : κ) (b : β) (m : SortedMap κ β) : SortedMap κ β :=
  ⟨insertEntry k b m.entries, sorted_insertEntry k b m.sorted⟩

/-- The map without the key. -/
def erase (k : κ) (m : SortedMap κ β) : SortedMap κ β :=
  ⟨m.entries.filter fun x => x.1 ≠ k, m.sorted.filter _⟩

/-- The entry is put into the map; one with its key gives way. -/
def put (k : κ) (b : β) (m : SortedMap κ β) : SortedMap κ β := (m.erase k).insert k b

/-- The number of entries. -/
def size (m : SortedMap κ β) : ℕ := m.entries.length

/-- The keys, as a set. -/
def keySet (m : SortedMap κ β) : Finset κ := (m.entries.map Prod.fst).toFinset

/-- A key of the map has an entry. Source: none: infrastructure. Kind: L -/
theorem mem_keySet {m : SortedMap κ β} {k : κ} : k ∈ m.keySet ↔ ∃ b, (k, b) ∈ m.entries := by
  simp [keySet]

/-- The empty map has no keys. Source: none: infrastructure. Kind: L -/
@[simp] theorem keySet_empty : (empty : SortedMap κ β).keySet = ∅ := rfl

/-- No key occurs twice. Source: none: infrastructure. Kind: L -/
theorem nodup_keys (m : SortedMap κ β) : (m.entries.map Prod.fst).Nodup :=
  List.pairwise_map.mpr (m.sorted.imp fun h => h.ne)

/-- As many keys as entries. Source: none: infrastructure. Kind: L -/
theorem card_keySet (m : SortedMap κ β) : m.keySet.card = m.size := by
  rw [keySet, List.toFinset_card_of_nodup m.nodup_keys, List.length_map, size]

/-- The keys after an insertion. Source: none: infrastructure. Kind: L -/
@[simp] theorem keySet_insert (k : κ) (b : β) (m : SortedMap κ β) :
    (m.insert k b).keySet = Insert.insert k m.keySet := by
  ext j
  rw [Finset.mem_insert, keySet, keySet, List.mem_toFinset, List.mem_toFinset]
  exact keys_insertEntry k b m.entries j

/-- The keys after an erasure. Source: none: infrastructure. Kind: L -/
@[simp] theorem keySet_erase (k : κ) (m : SortedMap κ β) :
    (m.erase k).keySet = m.keySet.erase k := by
  ext j
  rw [Finset.mem_erase, mem_keySet, mem_keySet]
  simp [erase, and_comm]

/-- Erasing a key makes the map smaller by one. Source: none: infrastructure. Kind: L -/
theorem size_erase {k : κ} {m : SortedMap κ β} (h : k ∈ m.keySet) :
    (m.erase k).size + 1 = m.size := by
  rw [← card_keySet, ← card_keySet, keySet_erase]
  exact Finset.card_erase_add_one h

/-- An entry of the map is one that was there, or the new one. Source: none: infrastructure.
Kind: L -/
theorem mem_insert {k : κ} {b : β} {m : SortedMap κ β} {x : κ × β}
    (h : x ∈ (m.insert k b).entries) : x = (k, b) ∨ x ∈ m.entries :=
  mem_insertEntry h

/-- An entry that was there stays. Source: none: infrastructure. Kind: L -/
theorem mem_insert_of_mem {k : κ} {b : β} {m : SortedMap κ β} {x : κ × β} (h : x ∈ m.entries) :
    x ∈ (m.insert k b).entries := by
  have hgen : ∀ l : List (κ × β), x ∈ l → x ∈ insertEntry k b l := by
    intro l
    induction l with
    | nil => exact fun hx => absurd hx List.not_mem_nil
    | cons y ys ih =>
      intro hx
      unfold insertEntry
      split_ifs
      · exact List.mem_cons_of_mem _ hx
      · exact hx
      · rcases List.mem_cons.mp hx with rfl | hx
        · exact List.mem_cons_self
        · exact List.mem_cons_of_mem _ (ih hx)
  exact hgen _ h

/-- A new key has its entry. Source: none: infrastructure. Kind: L -/
theorem mem_insert_self {k : κ} {b : β} {m : SortedMap κ β} (h : k ∉ m.keySet) :
    (k, b) ∈ (m.insert k b).entries := by
  obtain ⟨b', hb'⟩ : ∃ b', (k, b') ∈ (m.insert k b).entries := by
    rw [← mem_keySet, keySet_insert]
    exact Finset.mem_insert_self k _
  rcases mem_insert hb' with heq | hmem
  · rwa [← heq]
  · exact absurd (mem_keySet.mpr ⟨b', hmem⟩) h

/-- Exactly the entries of other keys are left. Source: none: infrastructure. Kind: L -/
theorem mem_erase_iff {k : κ} {m : SortedMap κ β} {x : κ × β} :
    x ∈ (m.erase k).entries ↔ x ∈ m.entries ∧ x.1 ≠ k := by
  simp [erase]

/-- Replacing or inserting: the new entry, and those of other keys. Source: none: infrastructure.
Kind: L -/
theorem mem_put {k : κ} {b : β} {m : SortedMap κ β} {x : κ × β} :
    x ∈ (m.put k b).entries ↔ x = (k, b) ∨ x ∈ m.entries ∧ x.1 ≠ k := by
  have hk : k ∉ (m.erase k).keySet := by
    rw [keySet_erase]
    exact Finset.notMem_erase k _
  constructor
  · intro h
    exact (mem_insert h).imp_right mem_erase_iff.mp
  · rintro (rfl | h)
    · exact mem_insert_self hk
    · exact mem_insert_of_mem (mem_erase_iff.mpr h)

/-- The keys after it. Source: none: infrastructure. Kind: L -/
@[simp] theorem keySet_put (k : κ) (b : β) (m : SortedMap κ β) :
    (m.put k b).keySet = Insert.insert k m.keySet := by
  ext j
  simp only [put, keySet_insert, keySet_erase, Finset.mem_insert, Finset.mem_erase]
  tauto

/-- A key has one entry. Source: none: infrastructure. Kind: L -/
theorem eq_of_mem {m : SortedMap κ β} {k : κ} {b b' : β} (h : (k, b) ∈ m.entries)
    (h' : (k, b') ∈ m.entries) : b = b' := by
  have hinj := List.inj_on_of_nodup_map m.nodup_keys h h' rfl
  exact congrArg Prod.snd hinj

/-- What is left was there. Source: none: infrastructure. Kind: L -/
theorem mem_erase {k : κ} {m : SortedMap κ β} {x : κ × β} (h : x ∈ (m.erase k).entries) :
    x ∈ m.entries :=
  List.mem_of_mem_filter h

/-- **The last entry has the greatest key.**. Source: none: infrastructure. Kind: L -/
theorem max_keySet {m : SortedMap κ β} {x : κ × β} (h : m.entries.getLast? = some x) :
    m.keySet.max = x.1 := by
  obtain ⟨front, hfront⟩ := List.getLast?_eq_some_iff.mp h
  have hs := m.sorted
  rw [hfront] at hs
  have hlt := (List.pairwise_append.mp hs).2.2
  have hmem : x.1 ∈ m.keySet := mem_keySet.mpr ⟨x.2, by rw [hfront]; simp⟩
  apply le_antisymm
  · apply Finset.max_le
    intro j hj
    obtain ⟨b, hb⟩ := mem_keySet.mp hj
    rw [hfront] at hb
    rcases List.mem_append.mp hb with hb | hb
    · exact WithBot.coe_le_coe.mpr (hlt (j, b) hb x (List.mem_singleton.mpr rfl)).le
    · rw [← List.mem_singleton.mp hb]
  · exact Finset.le_max hmem

/-! ### Finding and changing entries -/

/-- What the map has for a key. -/
def find? (k : κ) (m : SortedMap κ β) : Option β :=
  (m.entries.find? fun x => x.1 = k).map Prod.snd

/-- A walk over the entries that changes each in place. -/
def mapEntries (f : κ → β → β) (m : SortedMap κ β) : SortedMap κ β :=
  ⟨m.entries.map fun x => (x.1, f x.1 x.2), List.pairwise_map.mpr m.sorted⟩

/-- What is found is an entry. Source: none: infrastructure. Kind: L -/
theorem find?_eq_some_iff {m : SortedMap κ β} {k : κ} {b : β} :
    m.find? k = some b ↔ (k, b) ∈ m.entries := by
  unfold find?
  constructor
  · intro h
    obtain ⟨x, hx, rfl⟩ := Option.map_eq_some_iff.mp h
    have hk : x.1 = k := by simpa using List.find?_some hx
    rw [← hk]
    exact List.mem_of_find?_eq_some hx
  · intro h
    obtain ⟨x, hx⟩ : ∃ x, m.entries.find? (fun x => x.1 = k) = some x :=
      Option.isSome_iff_exists.mp (List.find?_isSome.mpr ⟨(k, b), h, by simp⟩)
    have hk : x.1 = k := by simpa using List.find?_some hx
    have hmem : (k, x.2) ∈ m.entries := hk ▸ List.mem_of_find?_eq_some hx
    rw [hx, Option.map_some, eq_of_mem hmem h]

/-- Nothing is found for what is no key. Source: none: infrastructure. Kind: L -/
theorem find?_eq_none_iff {m : SortedMap κ β} {k : κ} : m.find? k = none ↔ k ∉ m.keySet := by
  rw [mem_keySet, ← not_iff_not, not_not, ← ne_eq, Option.ne_none_iff_exists']
  exact exists_congr fun b => find?_eq_some_iff

/-- A new key is found, and the others as before. Source: none: infrastructure. Kind: L -/
theorem find?_insert {k : κ} {b : β} {m : SortedMap κ β} (h : m.find? k = none) (j : κ) :
    (m.insert k b).find? j = if j = k then some b else m.find? j := by
  have hgen : ∀ l : List (κ × β), (l.find? fun x => x.1 = k).map Prod.snd = none →
      ((insertEntry k b l).find? fun x => x.1 = j).map Prod.snd =
        if j = k then some b else (l.find? fun x => x.1 = j).map Prod.snd := by
    intro l
    induction l with
    | nil =>
      intro _
      by_cases hj : j = k
      · simp [insertEntry, hj]
      · simp [insertEntry, hj, Ne.symm hj]
    | cons x xs ih =>
      intro hnone
      have hx : x.1 ≠ k := by
        intro heq
        simp [heq] at hnone
      have hxs : (xs.find? fun x => x.1 = k).map Prod.snd = none := by
        simpa [hx] using hnone
      unfold insertEntry
      by_cases hlt : k < x.1
      · rw [if_pos hlt]
        by_cases hj : j = k
        · simp [hj]
        · simp [hj, Ne.symm hj]
      · rw [if_neg hlt, if_neg hx.symm]
        by_cases hj : x.1 = j
        · have hjk : j ≠ k := hj ▸ hx
          simp [hj, hjk]
        · rw [List.find?_cons_of_neg (by simpa using hj), ih hxs,
            List.find?_cons_of_neg (by simpa using hj)]
  exact hgen m.entries h

/-- A sum over the values, after an entry has been put: the one that gave way no longer counts.
Source: none: infrastructure. Kind: L -/
theorem sum_put (f : β → ℕ) (k : κ) (b : β) (m : SortedMap κ β) :
    ((m.put k b).entries.map fun x => f x.2).sum + (m.find? k).elim 0 f =
      (m.entries.map fun x => f x.2).sum + f b := by
  have hinsert : ∀ l : List (κ × β), (∀ x ∈ l, x.1 ≠ k) →
      ((insertEntry k b l).map fun x => f x.2).sum = (l.map fun x => f x.2).sum + f b := by
    intro l hl
    induction l with
    | nil => simp [insertEntry]
    | cons x xs ih =>
      have hx : k ≠ x.1 := (hl x List.mem_cons_self).symm
      unfold insertEntry
      rw [if_neg hx]
      split_ifs
      · simp only [List.map_cons, List.sum_cons]
        omega
      · simp only [List.map_cons, List.sum_cons, ih fun y hy => hl y (List.mem_cons_of_mem x hy)]
        omega
  have herase : ∀ l : List (κ × β), l.Pairwise (fun x y => x.1 < y.1) →
      ((l.filter fun x => x.1 ≠ k).map fun x => f x.2).sum +
        ((l.find? fun x => x.1 = k).map Prod.snd).elim 0 f = (l.map fun x => f x.2).sum := by
    intro l hl
    induction l with
    | nil => rfl
    | cons x xs ih =>
      obtain ⟨hlt, hxs⟩ := List.pairwise_cons.mp hl
      by_cases hx : x.1 = k
      · have hrest : xs.filter (fun y => y.1 ≠ k) = xs :=
          List.filter_eq_self.mpr fun y hy => by simpa [← hx] using (hlt y hy).ne'
        rw [List.filter_cons_of_neg (by simpa using hx), hrest,
          List.find?_cons_of_pos (by simpa using hx), List.map_cons, List.sum_cons]
        exact Nat.add_comm _ _
      · rw [List.filter_cons_of_pos (by simpa using hx),
          List.find?_cons_of_neg (by simpa using hx), List.map_cons, List.sum_cons, List.map_cons,
          List.sum_cons, ← ih hxs]
        exact Nat.add_assoc _ _ _
  have hput := hinsert (m.erase k).entries fun x hx => (mem_erase_iff.mp hx).2
  have hall := herase m.entries m.sorted
  show ((insertEntry k b (m.erase k).entries).map fun x => f x.2).sum + _ = _
  rw [hput, ← hall]
  exact Nat.add_right_comm _ _ _

/-- What is found after an entry has been put. Source: none: infrastructure. Kind: L -/
theorem find?_put (k : κ) (b : β) (m : SortedMap κ β) (j : κ) :
    (m.put k b).find? j = if j = k then some b else m.find? j := by
  have hk : (m.erase k).find? k = none := by
    rw [find?_eq_none_iff, keySet_erase]
    exact Finset.notMem_erase k _
  rw [put, find?_insert hk]
  split_ifs with hj
  · rfl
  · ext x
    rw [find?_eq_some_iff, find?_eq_some_iff, mem_erase_iff]
    exact and_iff_left hj

/-- The walk changes what is found. Source: none: infrastructure. Kind: L -/
@[simp] theorem find?_mapEntries (f : κ → β → β) (m : SortedMap κ β) (k : κ) :
    (m.mapEntries f).find? k = (m.find? k).map (f k) := by
  have hgen : ∀ l : List (κ × β),
      ((l.map fun x => (x.1, f x.1 x.2)).find? fun x => x.1 = k).map Prod.snd =
        ((l.find? fun x => x.1 = k).map Prod.snd).map (f k) := by
    intro l
    induction l with
    | nil => rfl
    | cons x xs ih =>
      by_cases hx : x.1 = k
      · simp [hx]
      · simpa [hx] using ih
  exact hgen m.entries

end SortedMap

end KTorrent.Lib
