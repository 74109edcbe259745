import KTorrent.Net.PeerUploader
import Mathlib.Data.Finset.Option

/-!
# Who is unchoked

The peers that may be uploaded to are ranked, and the upload slots are given to the first of them;
one slot is kept for the optimistic peer, wherever it is in the ranking.

* `unchokeLoop`, `doUnchoking` — the walk along the ranking; the ranking and the optimistic peer
  are arbitrary.
* `doChokingState` — the peers that are not ranked are choked, the others sorted.
* `unchokeLoop_spec` — what the walk does when there is a slot.
* `slotsKept_iff` — the slots are kept exactly when there is one or nobody is ranked: without a slot
  `num_slots - 1` wraps and everyone is unchoked.
* `chosen` — the best ones and the optimistic one; `unchokeLoop_eq` says that these are unchoked.
* `unchoked_iff` — which of the connected peers end unchoked, and that they are no more than there
  are slots.

Source: `torrent/advancedchokealgorithm.cpp`, `torrent/choker.h`
-/

namespace KTorrent.Net

open KTorrent.Util

variable {α : Type*} [DecidableEq α]

/-! ### The algorithm -/

/-- A list of peers; `count` returns a `Uint32`. Source: `PeerPtrList`. Kind: D -/
structure PeerPtrList (α : Type*) where
  items : List α
  count_lt : items.length < 2 ^ 32

/-- The loop; `poup` is the optimistic peer. Source: `AdvancedChokeAlgorithm::doUnchoking`.
Kind: D -/
def unchokeLoop (num_slots : ℕ) (poup : Option α) :
    List α → ℕ → (α → PeerUploader) → α → PeerUploader
  | [], _, peers => peers
  | p :: ppl, num_unchoked, peers =>
    if poup = none ∧ num_unchoked < num_slots then
      unchokeLoop num_slots poup ppl (u32 (num_unchoked + 1))
        (Function.update peers p (peers p).unchoke)
    else if num_unchoked < sub32 num_slots 1 ∨ some p = poup then
      unchokeLoop num_slots poup ppl
        (if some p ≠ poup then u32 (num_unchoked + 1) else num_unchoked)
        (Function.update peers p (peers p).unchoke)
    else
      unchokeLoop num_slots poup ppl num_unchoked (Function.update peers p (peers p).choke)

/-- Source: `AdvancedChokeAlgorithm::doUnchoking`. Kind: D -/
def doUnchoking (num_slots : ℕ) (poup : Option α) (ppl : PeerPtrList α)
    (peers : α → PeerUploader) : α → PeerUploader :=
  unchokeLoop num_slots poup ppl.items 0 peers

/-- The peers `calcACAScore` ranks; the others are choked. Source:
`AdvancedChokeAlgorithm::doChokingLeechingState`, the loop. Kind: D -/
def collect (ranks : α → Bool) :
    List α → (α → PeerUploader) → List α × (α → PeerUploader)
  | [], peers => ([], peers)
  | p :: ps, peers =>
    if ranks p then
      let r := collect ranks ps peers
      (p :: r.1, r.2)
    else collect ranks ps (Function.update peers p (peers p).choke)

/-- The peers that are ranked are collected in order.
Source: `AdvancedChokeAlgorithm::doChokingLeechingState`. Kind: L -/
theorem collect_fst (ranks : α → Bool) (ps : List α) :
    ∀ peers, (collect ranks ps peers).1 = ps.filter ranks := by
  induction ps with
  | nil =>
    intro peers
    rfl
  | cons p ps ih =>
    intro peers
    unfold collect
    split_ifs with hp
    · rw [List.filter_cons_of_pos hp]
      exact congrArg (p :: ·) (ih peers)
    · rw [List.filter_cons_of_neg hp]
      exact ih _

/-- The list the loop makes. Kind: D -/
def PeerPtrList.ranked (ranks : α → Bool) (peer_list : PeerPtrList α) (peers : α → PeerUploader) :
    PeerPtrList α where
  items := (collect ranks peer_list.items peers).1
  count_lt := by
    rw [collect_fst]
    exact (List.length_filter_le _ _).trans_lt peer_list.count_lt

/-- `sort` is the sorting of the list, by `ACACmp` or by `UpRateCmp`, and `update` is
`updateOptimisticPeer`. Source: `AdvancedChokeAlgorithm::doChokingLeechingState`,
`AdvancedChokeAlgorithm::doChokingSeedingState`. Kind: D -/
def doChokingState (ranks : α → Bool) (sort : PeerPtrList α → PeerPtrList α)
    (update : PeerPtrList α → Option α) (num_slots : ℕ) (peer_list : PeerPtrList α)
    (peers : α → PeerUploader) : α → PeerUploader :=
  let ppl := sort (peer_list.ranked ranks peers)
  doUnchoking num_slots (update ppl) ppl (collect ranks peer_list.items peers).2

/-! ### One peer -/

/-- An unchoked peer is not choked. Source: `PacketWriter::sendUnchoke`. Kind: L -/
@[simp] theorem PeerUploader.unchoke_am_choked (u : PeerUploader) :
    u.unchoke.am_choked = false := by
  unfold PeerUploader.unchoke
  split_ifs with h
  · rfl
  · exact Bool.eq_false_iff.mpr h

/-- A choked peer is. Source: `Peer::choke`, `PacketWriter::sendChoke`. Kind: L -/
@[simp] theorem PeerUploader.choke_am_choked (u : PeerUploader) : u.choke.am_choked = true := by
  unfold PeerUploader.choke
  split_ifs with h
  · exact h
  · rfl

/-! ### The walk -/

/-- The peers that are not in the list are left alone.
Source: `AdvancedChokeAlgorithm::doUnchoking`. Kind: L -/
theorem unchokeLoop_of_not_mem (num_slots : ℕ) (poup : Option α) {q : α} (ppl : List α) :
    ∀ (n : ℕ) (peers : α → PeerUploader), q ∉ ppl →
      unchokeLoop num_slots poup ppl n peers q = peers q := by
  induction ppl with
  | nil =>
    intro n peers _
    rfl
  | cons p ppl ih =>
    intro n peers hq
    obtain ⟨hne, hq⟩ := List.ne_and_not_mem_of_not_mem_cons hq
    unfold unchokeLoop
    split_ifs <;> rw [ih _ _ hq, Function.update_of_ne hne]

/-- The peers that may be given a slot besides the optimistic one. Kind: D -/
def free (num_slots : ℕ) (poup : Option α) : ℕ :=
  if poup = none then num_slots else num_slots - 1

/-- The two tests of the loop, when there is a slot and no more are taken than there are.
Source: `AdvancedChokeAlgorithm::doUnchoking`. Kind: L -/
theorem unchokeLoop_cons {num_slots : ℕ} {poup : Option α} {p : α} {ppl : List α} {n : ℕ}
    (peers : α → PeerUploader) (hpos : 0 < num_slots) (hword : num_slots < 2 ^ 32)
    (hn : n ≤ free num_slots poup) :
    unchokeLoop num_slots poup (p :: ppl) n peers =
      if some p = poup then
        unchokeLoop num_slots poup ppl n (Function.update peers p (peers p).unchoke)
      else if n < free num_slots poup then
        unchokeLoop num_slots poup ppl (n + 1) (Function.update peers p (peers p).unchoke)
      else unchokeLoop num_slots poup ppl n (Function.update peers p (peers p).choke) := by
  have hsub : sub32 num_slots 1 = num_slots - 1 := sub32_of_le hpos hword
  rw [unchokeLoop, hsub]
  cases poup with
  | none =>
    have hfree : free num_slots (none : Option α) = num_slots := if_pos rfl
    rw [hfree] at hn ⊢
    rw [if_neg (show ¬ some p = none by simp)]
    by_cases hlt : n < num_slots
    · rw [if_pos ⟨rfl, hlt⟩, if_pos hlt, u32_of_lt (by omega)]
    · have hno : ¬ (n < num_slots - 1 ∨ some p = none) := by
        rintro (h | h)
        · omega
        · simp at h
      rw [if_neg (fun h => hlt h.2), if_neg hno, if_neg hlt]
  | some o =>
    have hfree : free num_slots (some o) = num_slots - 1 := if_neg (by simp)
    rw [hfree] at hn ⊢
    rw [if_neg (show ¬ (some o = none ∧ n < num_slots) by simp)]
    by_cases ho : some p = some o
    · rw [if_pos (Or.inr ho), if_pos ho, if_neg (fun h => h ho)]
    · by_cases hlt : n < num_slots - 1
      · rw [if_pos (Or.inl hlt), if_neg ho, if_pos hlt, if_pos ho, u32_of_lt (by omega)]
      · rw [if_neg (fun h => h.elim hlt ho), if_neg ho, if_neg hlt]

/-- **The walk when there is a slot.** The optimistic peer is unchoked if it is met, and no more
others than there are slots for. Source: `AdvancedChokeAlgorithm::doUnchoking`. Kind: L -/
theorem unchokeLoop_spec {num_slots : ℕ} {poup : Option α} (hpos : 0 < num_slots)
    (hword : num_slots < 2 ^ 32) (ppl : List α) :
    ∀ (n : ℕ) (peers : α → PeerUploader), n ≤ free num_slots poup →
      let after := unchokeLoop num_slots poup ppl n peers
      (∀ p ∈ ppl, some p = poup → (after p).am_choked = false) ∧
        ∃ others : Finset α, others.card ≤ free num_slots poup - n ∧
          ∀ p ∈ ppl, some p ≠ poup → (after p).am_choked = false → p ∈ others := by
  induction ppl with
  | nil =>
    intro n peers _
    exact ⟨by simp, ∅, by simp⟩
  | cons p ppl ih =>
    intro n peers hn
    dsimp only
    rw [unchokeLoop_cons peers hpos hword hn]
    by_cases ho : some p = poup
    · rw [if_pos ho]
      obtain ⟨hopt, others, hcard, hothers⟩ := ih n _ hn
      refine ⟨?_, others, hcard, ?_⟩
      · intro q hq hqo
        obtain rfl : q = p := Option.some.inj (hqo.trans ho.symm)
        by_cases hmem : q ∈ ppl
        · exact hopt q hmem hqo
        · rw [unchokeLoop_of_not_mem _ _ _ _ _ hmem, Function.update_self]
          exact PeerUploader.unchoke_am_choked _
      · intro q hq hqo
        rcases List.mem_cons.mp hq with rfl | hq
        · exact absurd ho hqo
        · exact hothers q hq hqo
    · rw [if_neg ho]
      by_cases hlt : n < free num_slots poup
      · rw [if_pos hlt]
        obtain ⟨hopt, others, hcard, hothers⟩ := ih (n + 1) _ hlt
        refine ⟨?_, insert p others, ?_, ?_⟩
        · intro q hq hqo
          rcases List.mem_cons.mp hq with rfl | hq
          · exact absurd hqo ho
          · exact hopt q hq hqo
        · have := Finset.card_insert_le p others
          omega
        · intro q hq hqo hun
          rcases List.mem_cons.mp hq with rfl | hq
          · exact Finset.mem_insert_self _ _
          · exact Finset.mem_insert_of_mem (hothers q hq hqo hun)
      · rw [if_neg hlt]
        obtain ⟨hopt, others, hcard, hothers⟩ := ih n _ hn
        refine ⟨?_, others, hcard, ?_⟩
        · intro q hq hqo
          rcases List.mem_cons.mp hq with rfl | hq
          · exact absurd hqo ho
          · exact hopt q hq hqo
        · intro q hq hqo hun
          by_cases hmem : q ∈ ppl
          · exact hothers q hmem hqo hun
          · -- the peer is not met again, so it stays choked
            obtain rfl : q = p := (List.mem_cons.mp hq).resolve_right hmem
            rw [unchokeLoop_of_not_mem _ _ _ _ _ hmem, Function.update_self,
              PeerUploader.choke_am_choked] at hun
            exact Bool.noConfusion hun

/-- **The walk when there is no slot** unchokes everyone.
Source: `AdvancedChokeAlgorithm::doUnchoking`. Kind: L -/
theorem unchokeLoop_zero (poup : Option α) (ppl : List α) :
    ∀ (n : ℕ) (peers : α → PeerUploader), n + ppl.length < 2 ^ 32 →
      ∀ p ∈ ppl, (unchokeLoop 0 poup ppl n peers p).am_choked = false := by
  induction ppl with
  | nil =>
    intro n peers _ p hp
    exact absurd hp List.not_mem_nil
  | cons p ppl ih =>
    intro n peers hlen q hq
    rw [List.length_cons] at hlen
    have hstep : ∀ m : ℕ, m ≤ n + 1 →
        (unchokeLoop 0 poup ppl m (Function.update peers p (peers p).unchoke) q).am_choked =
          false := by
      intro m hm
      by_cases hmem : q ∈ ppl
      · exact ih m _ (by omega) q hmem
      · obtain rfl : q = p := (List.mem_cons.mp hq).resolve_right hmem
        rw [unchokeLoop_of_not_mem _ _ _ _ _ hmem, Function.update_self]
        exact PeerUploader.unchoke_am_choked _
    have hsub : sub32 0 1 = 2 ^ 32 - 1 := rfl
    rw [unchokeLoop, if_neg (fun h => Nat.not_lt_zero _ h.2), if_pos (Or.inl (by omega))]
    apply hstep
    split_ifs
    · exact (u32_of_lt (show n + 1 < 2 ^ 32 by omega)).le
    · exact Nat.le_succ n

/-! ### The slots -/

/-- **The upload slots are kept**: of the ranked peers some are unchoked and the others choked, no
more than there are slots, and the optimistic peer is among them if it is ranked and there is a
slot. Kind: D -/
def SlotsKept (num_slots : ℕ) (poup : Option α) (ppl : PeerPtrList α)
    (after : α → PeerUploader) : Prop :=
  ∃ unchoked : Finset α, unchoked ⊆ ppl.items.toFinset ∧ unchoked.card ≤ num_slots ∧
    (∀ o ∈ ppl.items, poup = some o → 0 < num_slots → o ∈ unchoked) ∧
    ∀ p ∈ ppl.items, ((after p).am_choked = false ↔ p ∈ unchoked)

omit [DecidableEq α] in
/-- The optimistic peer has the slot that is kept for it.
Source: `torrent/advancedchokealgorithm.cpp`, `torrent/choker.h`. Kind: L -/
theorem card_add_le {num_slots : ℕ} {poup : Option α} {others : Finset α} (hpos : 0 < num_slots)
    (hcard : others.card ≤ free num_slots poup - 0) :
    others.card + poup.toFinset.card ≤ num_slots := by
  cases poup with
  | none =>
    have hfree : free num_slots (none : Option α) = num_slots := if_pos rfl
    rw [hfree] at hcard
    simpa using hcard
  | some o =>
    have hfree : free num_slots (some o) = num_slots - 1 := if_neg (by simp)
    rw [hfree] at hcard
    simp only [Option.toFinset_some, Finset.card_singleton]
    omega

/-- With a slot, the slots are kept. Source: `AdvancedChokeAlgorithm::doUnchoking`. Kind: L -/
theorem slotsKept_of_pos {num_slots : ℕ} (hpos : 0 < num_slots) (hword : num_slots < 2 ^ 32)
    (poup : Option α) (ppl : PeerPtrList α) (peers : α → PeerUploader) :
    SlotsKept num_slots poup ppl (doUnchoking num_slots poup ppl peers) := by
  obtain ⟨hopt, others, hcard, hothers⟩ :=
    unchokeLoop_spec hpos hword ppl.items 0 peers (Nat.zero_le (free num_slots poup))
  refine ⟨ppl.items.toFinset.filter
    fun p => (doUnchoking num_slots poup ppl peers p).am_choked = false,
    Finset.filter_subset _ _, ?_, ?_, ?_⟩
  · refine (Finset.card_le_card (t := others ∪ poup.toFinset) ?_).trans ?_
    · intro p hp
      obtain ⟨hp, hun⟩ := Finset.mem_filter.mp hp
      by_cases ho : some p = poup
      · exact Finset.mem_union_right _ (Option.mem_toFinset.mpr ho.symm)
      · exact Finset.mem_union_left _ (hothers p (List.mem_toFinset.mp hp) ho hun)
    · exact (Finset.card_union_le _ _).trans (card_add_le hpos hcard)
  · intro o ho hpoup _
    exact Finset.mem_filter.mpr ⟨List.mem_toFinset.mpr ho, hopt o ho hpoup.symm⟩
  · intro p hp
    rw [Finset.mem_filter, List.mem_toFinset]
    exact ⟨fun h => ⟨hp, h⟩, fun h => h.2⟩

/-- **When the upload slots are kept.** Exactly when there is one, or nobody is ranked.
Source: `AdvancedChokeAlgorithm::doUnchoking`. Kind: P -/
theorem slotsKept_iff {num_slots : ℕ} (hword : num_slots < 2 ^ 32) (poup : Option α)
    (ppl : PeerPtrList α) (peers : α → PeerUploader) :
    SlotsKept num_slots poup ppl (doUnchoking num_slots poup ppl peers) ↔
      0 < num_slots ∨ ppl.items = [] := by
  constructor
  · rintro ⟨unchoked, _, hcard, _, hiff⟩
    by_contra hno
    obtain ⟨hzero, hne⟩ := not_or.mp hno
    obtain rfl : num_slots = 0 := Nat.eq_zero_of_not_pos hzero
    obtain ⟨p, hp⟩ := List.exists_mem_of_ne_nil _ hne
    have hlen : 0 + ppl.items.length < 2 ^ 32 := by
      rw [Nat.zero_add]
      exact ppl.count_lt
    have hmem : p ∈ unchoked := (hiff p hp).mp (unchokeLoop_zero poup ppl.items 0 peers hlen p hp)
    rw [Finset.card_eq_zero.mp (Nat.le_zero.mp hcard)] at hmem
    exact absurd hmem (Finset.notMem_empty p)
  · rintro (hpos | hnil)
    · exact slotsKept_of_pos hpos hword poup ppl peers
    · refine ⟨∅, Finset.empty_subset _, Nat.zero_le _, ?_, ?_⟩
      · intro o ho
        rw [hnil] at ho
        exact absurd ho List.not_mem_nil
      · intro p hp
        rw [hnil] at hp
        exact absurd hp List.not_mem_nil

/-- Two slots, three ranked peers, the last of them the optimistic one.
Source: `torrent/advancedchokealgorithm.cpp`, `torrent/choker.h`. Kind: P -/
theorem slotsKept_iff_three :
    SlotsKept 2 (some 3) ⟨[1, 2, 3], by decide⟩
        (doUnchoking 2 (some 3) ⟨[1, 2, 3], by decide⟩ fun _ : ℕ => {}) ↔
      0 < 2 ∨ [1, 2, 3] = [] :=
  slotsKept_iff (by decide) (some 3) ⟨[1, 2, 3], by decide⟩ fun _ : ℕ => {}

/-- No upload slots and one choked peer that is ranked: it is unchoked.
Source: `AdvancedChokeAlgorithm::doUnchoking`. Kind: P -/
theorem unchoked_without_slots :
    ¬ ∀ (num_slots : ℕ) (_ : num_slots < 2 ^ 32) (poup : Option ℕ) (ppl : PeerPtrList ℕ)
        (peers : ℕ → PeerUploader),
      SlotsKept num_slots poup ppl (doUnchoking num_slots poup ppl peers) := by
  intro h
  obtain ⟨unchoked, _, hcard, _, hiff⟩ := h 0 (by decide) none ⟨[1], by decide⟩ fun _ => {}
  have hmem : 1 ∈ unchoked := (hiff 1 (List.mem_singleton.mpr rfl)).mp rfl
  rw [Finset.card_eq_zero.mp (Nat.le_zero.mp hcard)] at hmem
  exact absurd hmem (Finset.notMem_empty 1)

/-! ### Which peers -/

/-- The best of the ranked peers, and the optimistic one. Kind: D -/
def chosen (num_slots : ℕ) (poup : Option α) (ppl : List α) (n : ℕ) : List α :=
  (ppl.filter fun p => some p ≠ poup).take (free num_slots poup - n) ++ poup.toList

/-- The optimistic peer takes no slot from the others. Source: `torrent/advancedchokealgorithm.cpp`,
`torrent/choker.h`. Kind: L -/
theorem chosen_cons_optimistic {num_slots : ℕ} {poup : Option α} {p : α} (ppl : List α) (n : ℕ)
    (ho : some p = poup) : chosen num_slots poup (p :: ppl) n = chosen num_slots poup ppl n := by
  simp [chosen, ho]

/-- Another peer takes a free slot. Source: `torrent/advancedchokealgorithm.cpp`,
`torrent/choker.h`. Kind: L -/
theorem chosen_cons_of_lt {num_slots : ℕ} {poup : Option α} {p : α} (ppl : List α) {n : ℕ}
    (ho : some p ≠ poup) (hlt : n < free num_slots poup) :
    chosen num_slots poup (p :: ppl) n = p :: chosen num_slots poup ppl (n + 1) := by
  have hsub : free num_slots poup - n = free num_slots poup - (n + 1) + 1 := by omega
  unfold chosen
  rw [List.filter_cons_of_pos (by simpa using ho), hsub, List.take_succ_cons, List.cons_append]

/-- Without a free slot only the optimistic peer is chosen.
Source: `torrent/advancedchokealgorithm.cpp`, `torrent/choker.h`. Kind: L -/
theorem chosen_of_le {num_slots : ℕ} {poup : Option α} (ppl : List α) {n : ℕ}
    (hle : free num_slots poup ≤ n) : chosen num_slots poup ppl n = poup.toList := by
  rw [chosen, Nat.sub_eq_zero_of_le hle, List.take_zero, List.nil_append]

/-- **Who is unchoked**: when nobody is ranked twice, the first of the ranking as far as the slots
go, and the optimistic peer in the slot that is kept for it.
Source: `AdvancedChokeAlgorithm::doUnchoking`. Kind: P -/
theorem unchokeLoop_eq {num_slots : ℕ} {poup : Option α} (hpos : 0 < num_slots)
    (hword : num_slots < 2 ^ 32) (ppl : List α) :
    ∀ (n : ℕ) (peers : α → PeerUploader), ppl.Nodup → n ≤ free num_slots poup → ∀ q ∈ ppl,
      unchokeLoop num_slots poup ppl n peers q =
        if q ∈ chosen num_slots poup ppl n then (peers q).unchoke else (peers q).choke := by
  induction ppl with
  | nil =>
    intro n peers _ _ q hq
    exact absurd hq List.not_mem_nil
  | cons p ppl ih =>
    intro n peers hnodup hn q hq
    obtain ⟨hp, hnodup⟩ := List.nodup_cons.mp hnodup
    rw [unchokeLoop_cons peers hpos hword hn]
    by_cases ho : some p = poup
    · rw [if_pos ho, chosen_cons_optimistic ppl n ho]
      rcases List.mem_cons.mp hq with rfl | hq
      · have hmem : q ∈ chosen num_slots poup ppl n :=
          List.mem_append_right _ (Option.mem_toList.mpr ho.symm)
        rw [if_pos hmem, unchokeLoop_of_not_mem _ _ _ _ _ hp, Function.update_self]
      · have hne : q ≠ p := fun h => hp (h ▸ hq)
        rw [ih n _ hnodup hn q hq, Function.update_of_ne hne]
    · rw [if_neg ho]
      by_cases hlt : n < free num_slots poup
      · rw [if_pos hlt, chosen_cons_of_lt ppl ho hlt]
        rcases List.mem_cons.mp hq with rfl | hq
        · rw [if_pos List.mem_cons_self, unchokeLoop_of_not_mem _ _ _ _ _ hp,
            Function.update_self]
        · have hne : q ≠ p := fun h => hp (h ▸ hq)
          rw [ih (n + 1) _ hnodup hlt q hq, Function.update_of_ne hne]
          simp only [List.mem_cons, hne, false_or]
      · have hfull := Nat.le_of_not_lt hlt
        rw [if_neg hlt, chosen_of_le (p :: ppl) hfull]
        rcases List.mem_cons.mp hq with rfl | hq
        · have hmem : q ∉ poup.toList := fun h => ho (Option.mem_toList.mp h).symm
          rw [if_neg hmem, unchokeLoop_of_not_mem _ _ _ _ _ hp, Function.update_self]
        · have hne : q ≠ p := fun h => hp (h ▸ hq)
          rw [ih n _ hnodup hn q hq, Function.update_of_ne hne, chosen_of_le ppl hfull]

/-! ### All connected peers -/

/-- A peer that is not ranked ends choked. Source: `AdvancedChokeAlgorithm::doChokingLeechingState`.
Kind: L -/
theorem collect_snd (ranks : α → Bool) {q : α} (hq : ranks q = false) (ps : List α) :
    ∀ peers : α → PeerUploader, q ∈ ps ∨ (peers q).am_choked = true →
      ((collect ranks ps peers).2 q).am_choked = true := by
  induction ps with
  | nil =>
    intro peers h
    exact h.resolve_left List.not_mem_nil
  | cons p ps ih =>
    intro peers h
    unfold collect
    split_ifs with hp
    · apply ih peers
      apply h.imp_left
      intro hmem
      apply (List.mem_cons.mp hmem).resolve_left
      rintro rfl
      rw [hq] at hp
      exact Bool.noConfusion hp
    · apply ih
      by_cases hqp : q = p
      · rw [hqp, Function.update_self]
        exact Or.inr (PeerUploader.choke_am_choked _)
      · rw [Function.update_of_ne hqp]
        exact h.imp_left fun hmem => (List.mem_cons.mp hmem).resolve_left hqp

/-- A peer that is not connected is left alone.
Source: `AdvancedChokeAlgorithm::doChokingLeechingState`. Kind: L -/
theorem collect_of_not_mem (ranks : α → Bool) {q : α} (ps : List α) :
    ∀ peers : α → PeerUploader, q ∉ ps → (collect ranks ps peers).2 q = peers q := by
  induction ps with
  | nil =>
    intro peers _
    rfl
  | cons p ps ih =>
    intro peers hq
    obtain ⟨hne, hq⟩ := List.ne_and_not_mem_of_not_mem_cons hq
    unfold collect
    split_ifs
    · exact ih peers hq
    · rw [ih _ hq, Function.update_of_ne hne]

/-- The peers that are ranked. Source: `torrent/advancedchokealgorithm.cpp`, `torrent/choker.h`.
Kind: L -/
theorem mem_ranked (ranks : α → Bool) {sort : PeerPtrList α → PeerPtrList α}
    (hsort : ∀ l, (sort l).items.Perm l.items) (peer_list : PeerPtrList α)
    (peers : α → PeerUploader) (q : α) :
    q ∈ (sort (peer_list.ranked ranks peers)).items ↔ q ∈ peer_list.items ∧ ranks q = true := by
  rw [(hsort _).mem_iff]
  show q ∈ (collect ranks peer_list.items peers).1 ↔ _
  rw [collect_fst, List.mem_filter]

/-- **The connected peers**: when there is a slot, no more of them are unchoked than there are
slots, however the peers are sorted and whoever the optimistic peer is.
Source: `AdvancedChokeAlgorithm::doChokingLeechingState`. Kind: L -/
theorem connected_le {ranks : α → Bool} {sort : PeerPtrList α → PeerPtrList α}
    (hsort : ∀ l, (sort l).items.Perm l.items) (update : PeerPtrList α → Option α)
    {num_slots : ℕ} (hpos : 0 < num_slots) (hword : num_slots < 2 ^ 32) (peer_list : PeerPtrList α)
    (peers : α → PeerUploader) :
    (peer_list.items.toFinset.filter fun p =>
      (doChokingState ranks sort update num_slots peer_list peers p).am_choked = false).card ≤
        num_slots := by
  obtain ⟨unchoked, _, hcard, _, hiff⟩ :=
    slotsKept_of_pos hpos hword (update (sort (peer_list.ranked ranks peers)))
      (sort (peer_list.ranked ranks peers)) (collect ranks peer_list.items peers).2
  refine (Finset.card_le_card ?_).trans hcard
  intro p hp
  obtain ⟨hmem, hun⟩ := Finset.mem_filter.mp hp
  have hlist := mem_ranked ranks hsort peer_list peers p
  by_cases hr : ranks p = true
  · exact (hiff p (hlist.mpr ⟨List.mem_toFinset.mp hmem, hr⟩)).mp hun
  · have hout : p ∉ (sort (peer_list.ranked ranks peers)).items := fun h => hr (hlist.mp h).2
    have hchoked := collect_snd ranks (Bool.eq_false_iff.mpr hr) peer_list.items peers
      (Or.inl (List.mem_toFinset.mp hmem))
    have hsame : doChokingState ranks sort update num_slots peer_list peers p =
        (collect ranks peer_list.items peers).2 p := unchokeLoop_of_not_mem _ _ _ _ _ hout
    rw [hsame, hchoked] at hun
    exact Bool.noConfusion hun

/-- **Who is unchoked.** When there is a slot and no peer is connected twice, a connected peer ends
unchoked exactly if it is ranked and either the optimistic one or among the first of the others, as
far as the slots go that are not kept for it; so no more are unchoked than there are slots. A peer
that is not connected is left alone.
Source: `AdvancedChokeAlgorithm::doChokingLeechingState`,
`AdvancedChokeAlgorithm::doChokingSeedingState`. Kind: P -/
theorem unchoked_iff {ranks : α → Bool} {sort : PeerPtrList α → PeerPtrList α}
    (hsort : ∀ l, (sort l).items.Perm l.items) (update : PeerPtrList α → Option α)
    {num_slots : ℕ} (hpos : 0 < num_slots) (hword : num_slots < 2 ^ 32) (peer_list : PeerPtrList α)
    (hnodup : peer_list.items.Nodup) (peers : α → PeerUploader) :
    (∀ p ∈ peer_list.items,
      (doChokingState ranks sort update num_slots peer_list peers p).am_choked = false ↔
        ranks p = true ∧ p ∈ chosen num_slots (update (sort (peer_list.ranked ranks peers)))
          (sort (peer_list.ranked ranks peers)).items 0) ∧
      (∀ p, p ∉ peer_list.items →
        doChokingState ranks sort update num_slots peer_list peers p = peers p) ∧
      (peer_list.items.toFinset.filter fun p =>
        (doChokingState ranks sort update num_slots peer_list peers p).am_choked = false).card ≤
          num_slots := by
  refine ⟨fun p hp => ?_, fun p hp => ?_, connected_le hsort update hpos hword peer_list peers⟩
  · have hlist := mem_ranked ranks hsort peer_list peers p
    by_cases hr : ranks p = true
    · have hranked : (sort (peer_list.ranked ranks peers)).items.Nodup := by
        rw [(hsort _).nodup_iff]
        show (collect ranks peer_list.items peers).1.Nodup
        rw [collect_fst]
        exact hnodup.filter _
      have hloop : doChokingState ranks sort update num_slots peer_list peers p = _ :=
        unchokeLoop_eq hpos hword _ 0 (collect ranks peer_list.items peers).2 hranked
          (Nat.zero_le _) p (hlist.mpr ⟨hp, hr⟩)
      rw [hloop]
      split_ifs with hchosen
      · exact iff_of_true (PeerUploader.unchoke_am_choked _) ⟨hr, hchosen⟩
      · rw [PeerUploader.choke_am_choked]
        exact iff_of_false Bool.noConfusion fun h => hchosen h.2
    · have hout : p ∉ (sort (peer_list.ranked ranks peers)).items := fun h => hr (hlist.mp h).2
      have hsame : doChokingState ranks sort update num_slots peer_list peers p =
          (collect ranks peer_list.items peers).2 p := unchokeLoop_of_not_mem _ _ _ _ _ hout
      rw [hsame, collect_snd ranks (Bool.eq_false_iff.mpr hr) peer_list.items peers (Or.inl hp)]
      exact iff_of_false Bool.noConfusion fun h => hr h.1
  · have hout : p ∉ (sort (peer_list.ranked ranks peers)).items := fun h =>
      hp ((mem_ranked ranks hsort peer_list peers p).mp h).1
    exact (unchokeLoop_of_not_mem _ _ _ _ _ hout).trans (collect_of_not_mem ranks _ peers hp)

/-- The peers in reverse. Kind: D -/
def reversed (l : PeerPtrList ℕ) : PeerPtrList ℕ :=
  ⟨l.items.reverse, by rw [List.length_reverse]; exact l.count_lt⟩

/-- Two slots and four peers, of whom the last is not ranked; the ranking is the reverse of the
list, and the first peer is the optimistic one: it and the third are unchoked.
Source: `AdvancedChokeAlgorithm::doChokingLeechingState`. Kind: P -/
theorem unchoked_iff_four :
    (∀ p ∈ [1, 2, 3, 4], (doChokingState (fun p => p ≠ 4) reversed (fun _ => some 1) 2
        ⟨[1, 2, 3, 4], by decide⟩ (fun _ => {}) p).am_choked = false ↔ p = 1 ∨ p = 3) ∧
      ([1, 2, 3, 4].toFinset.filter fun p => (doChokingState (fun p => p ≠ 4) reversed
        (fun _ => some 1) 2 ⟨[1, 2, 3, 4], by decide⟩ (fun _ => {}) p).am_choked = false).card ≤ 2 := by
  obtain ⟨hiff, -, hcard⟩ := @unchoked_iff ℕ _ (fun p => p ≠ 4) reversed
    (fun l => List.reverse_perm l.items) (fun _ => some 1) 2 (by decide) (by decide)
    ⟨[1, 2, 3, 4], by decide⟩ (by decide) fun _ => {}
  refine ⟨fun p hp => (hiff p hp).trans ?_, hcard⟩
  have hall : ∀ p ∈ [1, 2, 3, 4], (decide (p ≠ 4) = true ∧ p ∈ chosen 2 (some 1) [3, 2, 1] 0) ↔
      p = 1 ∨ p = 3 := by
    decide
  exact hall p hp

end KTorrent.Net
