import KTorrent.Dht.Key
import KTorrent.Dht.RpcMsg
import KTorrent.Lib.GuardedRun
import KTorrent.Lib.Prefix
import KTorrent.Lib.SortedMap
import Mathlib.Data.List.Infix

/-!
# The peers of the database

A node that announces itself is stored under the key of its torrent, at the end of the list of that
key, with the time. Peers are kept for thirty minutes: the walk of `expire` pops the front of each list
until it meets one that is young enough, which is right as long as the lists are in the order of the
times.

* `stored_run` — in a run whose clock never goes back, what is stored under a key are the peers stored
  under it, in the order they came, without those that some expiry found too old.
* `Kept` — that order, what an expiry removes and what a sample takes, after any such run.

Lists are shorter than the numbers the container counts with.

Source: `kademlia/database.cpp`, `kademlia/database.h`
-/

namespace KTorrent.Dht.PeerStore

open KTorrent.Lib

/-- Source: `MAX_ITEM_AGE`. Kind: D -/
def MAX_ITEM_AGE : UInt64 := 30 * 60 * 1000

/-- Source: `kademlia/database.h`, `DBItem`. Kind: D -/
structure Item where
  item : DBItem
  time_stamp : UInt64

/-- Source: `DBItem::expired`. Kind: D -/
def Item.expired (now : UInt64) (it : Item) : Bool := now - it.time_stamp ≥ MAX_ITEM_AGE

/-- The peers of `Database`. Source: `kademlia/database.h`. Kind: D -/
structure Database where
  items : SortedMap Key (List Item)

namespace Database

/-- Source: `Database::Database`. Kind: D -/
def new : Database := ⟨.empty⟩

/-- Source: `Database::insert`. Kind: D -/
def insert (key : Key) (db : Database) : Database :=
  match db.items.find? key with
  | none => ⟨db.items.insert key []⟩
  | some _ => db

/-- The list of the key is made as in `insert`. Source: `Database::store`. Kind: D -/
def store (key : Key) (dbi : Item) (db : Database) : Database :=
  ⟨(db.insert key).items.mapEntries fun k dbl => if k = key then dbl ++ [dbi] else dbl⟩

/-- Source: `Database::sample`, the loop that counts. Kind: D -/
def sampleLoop (max_entries : UInt32) : ℕ → List Item → List Item → List Item
  | _, [], tdbl => tdbl
  | num_added, i :: rest, tdbl =>
    if num_added < max_entries.toNat then
      sampleLoop max_entries (num_added + 1) rest (tdbl ++ [i])
    else tdbl

/-- Source: `Database::sample`. Kind: D -/
def sample (key : Key) (tdbl : List Item) (max_entries : UInt32) (db : Database) : List Item :=
  match db.items.find? key with
  | none => tdbl
  | some dbl =>
    if dbl.length < max_entries.toNat then dbl.foldl (fun tdbl i => tdbl ++ [i]) tdbl
    else sampleLoop max_entries 0 dbl tdbl

/-- Source: `Database::expire`, the inner loop. Kind: D -/
def expireLoop (now : UInt64) : List Item → List Item
  | [] => []
  | it :: dbl => if it.expired now then expireLoop now dbl else it :: dbl

/-- Source: `Database::expire`. Kind: D -/
def expire (now : UInt64) (db : Database) : Database :=
  ⟨db.items.mapEntries fun _ dbl => expireLoop now dbl⟩

/-- What is stored under a key. Kind: D -/
def stored (key : Key) (db : Database) : List Item := (db.items.find? key).getD []

/-! ### What each call does to what is stored -/

/-- A new list for a key stores nothing. Source: `kademlia/database.cpp`, `kademlia/database.h`.
Kind: L -/
@[simp] theorem stored_insert (key j : Key) (db : Database) :
    (db.insert key).stored j = db.stored j := by
  unfold insert
  cases hfind : db.items.find? key with
  | some _ => rfl
  | none =>
    unfold stored
    simp only [SortedMap.find?_insert hfind]
    by_cases hj : j = key
    · simp [hj, hfind]
    · simp [hj]

/-- The list of a key is there afterwards. Source: `kademlia/database.cpp`, `kademlia/database.h`.
Kind: L -/
theorem find?_insert_self (key : Key) (db : Database) :
    (db.insert key).items.find? key = some (db.stored key) := by
  unfold insert
  cases hfind : db.items.find? key with
  | some dbl => simp [stored, hfind]
  | none => simp [stored, hfind, SortedMap.find?_insert hfind]

/-- An item is stored at the end of its key's list. Source: `Database::store`. Kind: L -/
theorem stored_store (key j : Key) (dbi : Item) (db : Database) :
    (db.store key dbi).stored j = db.stored j ++ (if j = key then [dbi] else []) := by
  unfold store
  by_cases hj : j = key
  · subst hj
    simp [stored, find?_insert_self]
  · have hsame := stored_insert key j db
    unfold stored at hsame ⊢
    simp [hj, hsame]

/-- The loop drops the expired items in front. Source: `Database::expire`. Kind: L -/
theorem expireLoop_eq (now : UInt64) (dbl : List Item) :
    expireLoop now dbl = dbl.dropWhile (Item.expired now) := by
  induction dbl with
  | nil => rfl
  | cons it dbl ih =>
    unfold expireLoop
    by_cases hexp : it.expired now = true
    · rw [if_pos hexp, ih, List.dropWhile_cons_of_pos hexp]
    · rw [if_neg hexp, List.dropWhile_cons_of_neg hexp]

/-- Expiring drops them from each list. Source: `Database::expire`. Kind: L -/
theorem stored_expire (now : UInt64) (j : Key) (db : Database) :
    (db.expire now).stored j = (db.stored j).dropWhile (Item.expired now) := by
  unfold expire stored
  rw [SortedMap.find?_mapEntries]
  cases db.items.find? j with
  | none => rfl
  | some dbl => exact expireLoop_eq now dbl

/-- The loop takes the first items. Source: `Database::sample`. Kind: L -/
theorem sampleLoop_eq (max_entries : UInt32) (num_added : ℕ) (dbl tdbl : List Item) :
    sampleLoop max_entries num_added dbl tdbl =
      tdbl ++ dbl.take (max_entries.toNat - num_added) := by
  induction dbl generalizing num_added tdbl with
  | nil => simp [sampleLoop]
  | cons i rest ih =>
    unfold sampleLoop
    by_cases hlt : num_added < max_entries.toNat
    · have hsub : max_entries.toNat - num_added = max_entries.toNat - (num_added + 1) + 1 := by
        omega
      rw [if_pos hlt, ih, hsub]
      simp
    · have hsub : max_entries.toNat - num_added = 0 := Nat.sub_eq_zero_of_le (not_lt.mp hlt)
      rw [if_neg hlt, hsub]
      simp

/-- Both ways of taking a sample take the front of the list. Source: `Database::sample`. Kind: L -/
theorem sample_eq (key : Key) (tdbl : List Item) (max_entries : UInt32) (db : Database) :
    db.sample key tdbl max_entries = tdbl ++ (db.stored key).take max_entries.toNat := by
  unfold sample stored
  cases db.items.find? key with
  | none => simp
  | some dbl =>
    simp only [Option.getD_some]
    by_cases hlt : dbl.length < max_entries.toNat
    · have happ : dbl.foldl (fun tdbl i => tdbl ++ [i]) tdbl = tdbl ++ dbl := by
        simp [← List.flatMap_def]
      rw [if_pos hlt, happ, List.take_of_length_le hlt.le]
    · rw [if_neg hlt, sampleLoop_eq, Nat.sub_zero]

end Database

/-! ### Runs of the database -/

/-- Kind: D -/
inductive Op
  | store (key : Key) (ip_port : DBItem)
  | insert (key : Key)
  | sample (key : Key) (max_entries : UInt32)
  | expire

/-- A call, at the time the clock shows. A peer that is stored is stamped with it. Kind: D -/
def step (db : Database) (e : UInt64 × Op) : Database :=
  match e.2 with
  | .store key ip_port => db.store key ⟨ip_port, e.1⟩
  | .insert key => db.insert key
  | .sample _ _ => db
  | .expire => db.expire e.1

/-- The clock never goes back. Kind: D -/
def Steady (trace : List (UInt64 × Op)) : Prop := trace.Pairwise fun a b => a.1 ≤ b.1

/-- The peer that a call stores under the key. Kind: D -/
def givenBy (key : Key) (e : UInt64 × Op) : Option Item :=
  match e.2 with
  | .store k ip_port => if k = key then some ⟨ip_port, e.1⟩ else none
  | _ => none

/-- The peers that a run stores under the key. Kind: D -/
def given (key : Key) (trace : List (UInt64 × Op)) : List Item := trace.filterMap (givenBy key)

/-- Kind: D -/
def Item.age (now : UInt64) (it : Item) : ℕ := now.toNat - it.time_stamp.toNat

/-- The call is no expiry, or it finds the peer young enough. Kind: D -/
def spares (e : UInt64 × Op) (it : Item) : Bool :=
  match e.2 with
  | .expire => it.age e.1 < MAX_ITEM_AGE.toNat
  | _ => true

/-- No expiry of the run finds the peer too old. Kind: D -/
def survives (trace : List (UInt64 × Op)) (it : Item) : Bool := trace.all fun e => spares e it

/-- On a clock that has not gone back, the wrapping difference is the age.
Source: `DBItem::expired`. Kind: L -/
theorem expired_eq {now : UInt64} {it : Item} (h : it.time_stamp ≤ now) :
    it.expired now = !decide (it.age now < MAX_ITEM_AGE.toNat) := by
  unfold Item.expired Item.age
  rw [← UInt64.toNat_sub_of_le now it.time_stamp h, Bool.eq_iff_iff]
  simp [UInt64.le_iff_toNat_le]

/-- An item that is given carries the time of its announce. Source: `kademlia/database.cpp`,
`kademlia/database.h`. Kind: L -/
theorem time_of_givenBy {key : Key} {e : UInt64 × Op} {it : Item} (h : it ∈ givenBy key e) :
    it.time_stamp = e.1 := by
  unfold givenBy at h
  split at h
  · split_ifs at h
    · cases h
      rfl
    · cases h
  · cases h

/-- What is given with one more operation. Source: none: infrastructure. Kind: L -/
theorem given_append (key : Key) (trace : List (UInt64 × Op)) (e : UInt64 × Op) :
    given key (trace ++ [e]) = given key trace ++ (givenBy key e).toList := by
  unfold given
  rw [List.filterMap_append]
  cases hgiven : givenBy key e <;> simp [hgiven]

/-- The peers that are stored come in the order of their times. Source: `kademlia/database.cpp`,
`kademlia/database.h`. Kind: L -/
theorem Steady.pairwise_given {trace : List (UInt64 × Op)} (h : Steady trace) (key : Key) :
    (given key trace).Pairwise fun a b => a.time_stamp ≤ b.time_stamp := by
  refine List.Pairwise.filterMap (givenBy key) (fun e e' hle a ha b hb => ?_) h
  rw [time_of_givenBy ha, time_of_givenBy hb]
  exact hle

/-- And none of them comes from the future. Source: `kademlia/database.cpp`, `kademlia/database.h`.
Kind: L -/
theorem given_le {trace : List (UInt64 × Op)} {now : UInt64} (h : ∀ e ∈ trace, e.1 ≤ now)
    {key : Key} {it : Item} (hit : it ∈ given key trace) : it.time_stamp ≤ now := by
  obtain ⟨e, he, hgiven⟩ := List.mem_filterMap.mp hit
  rw [time_of_givenBy hgiven]
  exact h e he

/-- Among the peers stored under a key, those that are too old stand in front.
Source: `DBItem::expired`. Kind: L -/
theorem dropWhile_expired {trace : List (UInt64 × Op)} (h : Steady trace) {now : UInt64}
    (hnow : ∀ e ∈ trace, e.1 ≤ now) {key : Key} {dbl : List Item}
    (hdbl : dbl.Sublist (given key trace)) :
    dbl.dropWhile (Item.expired now) = dbl.filter fun it => it.age now < MAX_ITEM_AGE.toNat := by
  have hord := (h.pairwise_given key).sublist hdbl
  have hle : ∀ it ∈ dbl, it.time_stamp ≤ now := fun it hit => given_le hnow (hdbl.subset hit)
  have hfront : dbl.Pairwise fun a b => b.expired now = true → a.expired now = true := by
    refine hord.imp_of_mem fun {a b} ha hb hab hexp => ?_
    rw [expired_eq (hle b hb)] at hexp
    rw [expired_eq (hle a ha)]
    have hage : b.age now ≤ a.age now := Nat.sub_le_sub_left (UInt64.le_iff_toNat_le.mp hab) _
    simp only [Bool.not_eq_true', decide_eq_false_iff_not, not_lt] at hexp ⊢
    exact hexp.trans hage
  rw [dropWhile_eq_filter hfront]
  apply List.filter_congr
  intro it hit
  rw [expired_eq (hle it hit), Bool.not_not]

/-- A peer stored now has been spared by all that came before. Source: `kademlia/database.cpp`,
`kademlia/database.h`. Kind: L -/
theorem survives_of_le {trace : List (UInt64 × Op)} {it : Item}
    (h : ∀ e ∈ trace, e.1 ≤ it.time_stamp) : survives trace it = true := by
  apply List.all_eq_true.mpr
  intro e he
  have hage : it.age e.1 = 0 := Nat.sub_eq_zero_of_le (UInt64.le_iff_toNat_le.mp (h e he))
  unfold spares
  split
  · rw [hage]
    rfl
  · rfl

/-- What survives one more operation. Source: none: infrastructure. Kind: L -/
theorem survives_append (trace : List (UInt64 × Op)) (e : UInt64 × Op) :
    survives (trace ++ [e]) = fun it => spares e it && survives trace it := by
  funext it
  simp [survives, Bool.and_comm]

/-- **What is stored**: the peers that were stored under the key, in the order they came, without
those that some expiry found too old. Source: `kademlia/database.cpp`, `kademlia/database.h`.
Kind: L -/
theorem stored_run {trace : List (UInt64 × Op)} (h : Steady trace) (key : Key) :
    (run step .new trace).stored key = (given key trace).filter (survives trace) := by
  induction trace using List.reverseRecOn with
  | nil => rfl
  | append_singleton trace e ih =>
    obtain ⟨hpre, -, hlast⟩ := List.pairwise_append.mp h
    have hsteady : Steady trace := hpre
    have hle : ∀ e' ∈ trace, e'.1 ≤ e.1 := fun e' he' => hlast e' he' e (List.mem_singleton.mpr rfl)
    have hih := ih hsteady
    rw [run_append, run_cons, run_nil, given_append, List.filter_append]
    obtain ⟨now, op⟩ := e
    cases op with
    | store k ip_port =>
      have hnew : survives trace ⟨ip_port, now⟩ = true := survives_of_le hle
      by_cases hk : key = k
      · subst hk
        simp [step, Database.stored_store, hih, givenBy, survives_append, spares, hnew]
      · simp [step, Database.stored_store, hih, givenBy, survives_append, spares, hk,
          Ne.symm hk]
    | insert k => simp [step, hih, givenBy, survives_append, spares]
    | sample k max_entries => simp [step, hih, givenBy, survives_append, spares]
    | expire =>
      have hsub : ((given key trace).filter (survives trace)).Sublist (given key trace) :=
        List.filter_sublist
      have hdrop := dropWhile_expired hsteady hle hsub
      simp only [step, Database.stored_expire, hih]
      rw [hdrop, List.filter_filter]
      simp [givenBy, survives_append, spares]

/-- What holds of the list of a key after a run. Kind: D -/
structure Kept (trace : List (UInt64 × Op)) (key : Key) (db : Database) : Prop where
  /-- It is in the order of the times. -/
  ordered : (db.stored key).Pairwise fun a b => a.time_stamp ≤ b.time_stamp
  /-- An expiry removes exactly the peers whose age has reached the limit. -/
  expires : ∀ now, (∀ e ∈ trace, e.1 ≤ now) → (db.expire now).stored key =
    (db.stored key).filter fun it => it.age now < MAX_ITEM_AGE.toNat
  /-- A sample appends the front of the list, as long as it may be. -/
  samples : ∀ tdbl (max_entries : UInt32), ∃ added,
    db.sample key tdbl max_entries = tdbl ++ added ∧ added <+: db.stored key ∧
      added.length = min max_entries.toNat (db.stored key).length
  /-- And it holds what was stored under the key and not found too old since, in order. -/
  stored : db.stored key = (given key trace).filter (survives trace)

/-- **The peers of a key.** In every run of calls whose clock never goes back, the list of each key
is in the order of the times, an expiry removes exactly what is too old, and a sample takes the
first peers stored under the key, none twice, as many as asked for or as there are.
Source: `kademlia/database.cpp`, `kademlia/database.h`. Kind: P -/
theorem peers_run (trace : List (UInt64 × Op)) (h : Steady trace) (key : Key) :
    Kept trace key (run step .new trace) := by
  have hstored := stored_run h key
  have hsub : ((run step .new trace).stored key).Sublist (given key trace) := by
    rw [hstored]
    exact List.filter_sublist
  refine ⟨(h.pairwise_given key).sublist hsub, fun now hle => ?_, fun tdbl max_entries => ?_, hstored⟩
  · rw [Database.stored_expire]
    exact dropWhile_expired h hle hsub
  · exact ⟨_, Database.sample_eq key tdbl max_entries _, List.take_prefix _ _, List.length_take⟩

/-- A peer of the first minute is gone after half an hour, one of the second minute is still there.
Source: `kademlia/database.cpp`, `kademlia/database.h`. Kind: P -/
theorem peers_two :
    let key := Key.ofBytes []
    let trace : List (UInt64 × Op) := [(0, .store key (.replicate 6 1)),
      (60000, .store key (.replicate 6 2)), (1800000, .expire)]
    Kept trace key (run step .new trace) ∧
      ((run step .new trace).stored key).map Item.time_stamp = [60000] := by
  intro key trace
  have hkept : Kept trace key (run step .new trace) := by
    apply peers_run
    simp [Steady, trace]
  refine ⟨hkept, ?_⟩
  rw [hkept.stored]
  simp [trace, given, givenBy, survives, spares, Item.age, MAX_ITEM_AGE]

end KTorrent.Dht.PeerStore
