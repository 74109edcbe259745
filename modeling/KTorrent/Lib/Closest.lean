import Mathlib.Data.Finset.Max
import Mathlib.Order.Interval.Finset.Defs

/-!
# The `m` smallest of what is offered, with bounded room

A set of at most `m` elements is to hold the `m` smallest of all elements offered so far. An offer
to a set that is not full is inserted; an offer to a full set goes in, and the greatest element
out, if it is smaller than the greatest. An element that is already there is not inserted again:
but the greatest goes out all the same.

* `Closest` — what the set should be; `mem_closest_iff` counts the smaller elements instead, so that
  there is one such set, and `exists_closest` finds it.
* `offer`, `offers` — the set after one element, and after a list of them.
* `mem_offer` — an element that belongs to the closest stays, unless the set is just the closest,
  the element is the greatest of them, and another one of them is offered again.
* `closest_offers_iff` — **the exact condition on the order of the offers** (`Undisturbed`) under
  which the set that results is the right one.
-/

namespace KTorrent.Lib

variable {α : Type*} [LinearOrder α]

/-- `S` consists of the `m` smallest elements of `A`, or of all if there are fewer. -/
def Closest (m : ℕ) (A S : Finset α) : Prop :=
  S ⊆ A ∧ S.card = min m A.card ∧ ∀ x ∈ S, ∀ y ∈ A, y ∉ S → x < y

/-- How many elements of `A` are smaller. -/
def rank (A : Finset α) (x : α) : ℕ := (A.filter (· < x)).card

/-- There are closest elements. Source: none: infrastructure. Kind: L -/
theorem exists_closest (m : ℕ) (A : Finset α) : ∃ S, Closest m A S := by
  induction A using Finset.induction_on_max with
  | empty => exact ⟨∅, Finset.Subset.refl ∅, by simp, fun x hx => absurd hx (Finset.notMem_empty x)⟩
  | insert a A hmax ih =>
    obtain ⟨S, hsub, hcard, hlt⟩ := ih
    have ha : a ∉ A := fun h => lt_irrefl a (hmax a h)
    have hcardA := Finset.card_insert_of_notMem ha
    by_cases hm : m ≤ A.card
    · refine ⟨S, hsub.trans (Finset.subset_insert a A), by omega, fun x hx y hy hyS => ?_⟩
      rcases Finset.mem_insert.mp hy with rfl | hy
      · exact hmax x (hsub hx)
      · exact hlt x hx y hy hyS
    · have hSA : S = A := Finset.eq_of_subset_of_card_le hsub (by omega)
      subst hSA
      exact ⟨insert a S, Finset.Subset.refl _, by omega, fun x _ y hy hyS => absurd hy hyS⟩

/-- **An element is among the closest if fewer than `m` are smaller.**. Source: none:
infrastructure. Kind: L -/
theorem mem_closest_iff {m : ℕ} {A S : Finset α} (h : Closest m A S) {x : α} :
    x ∈ S ↔ x ∈ A ∧ rank A x < m := by
  obtain ⟨hsub, hcard, hlt⟩ := h
  constructor
  · intro hx
    have hsmall : A.filter (· < x) ⊆ S.erase x := by
      intro y hy
      obtain ⟨hyA, hyx⟩ := Finset.mem_filter.mp hy
      refine Finset.mem_erase.mpr ⟨hyx.ne, ?_⟩
      by_contra hyS
      exact lt_asymm hyx (hlt x hx y hyA hyS)
    have h1 := Finset.card_le_card hsmall
    have h2 := Finset.card_erase_of_mem hx
    have h3 := Finset.card_pos.mpr ⟨x, hx⟩
    refine ⟨hsub hx, ?_⟩
    show (A.filter (· < x)).card < m
    omega
  · rintro ⟨hxA, hr⟩
    by_contra hxS
    have hsmall : S ⊆ A.filter (· < x) := fun y hy =>
      Finset.mem_filter.mpr ⟨hsub hy, hlt y hy x hxA hxS⟩
    have h1 := Finset.card_le_card hsmall
    have h2 : S.card < A.card := Finset.card_lt_card ⟨hsub, fun h => hxS (h hxA)⟩
    have h3 : (A.filter (· < x)).card < m := hr
    omega

/-- The set after an element was offered. -/
def offer (m : ℕ) (S : Finset α) (d : α) : Finset α :=
  if S.card < m then insert d S
  else if (d : WithBot α) < S.max then (insert d S).filter fun x => (x : WithBot α) < S.max else S

/-- The set after a list of elements was offered. -/
def offers (m : ℕ) (ds : List α) : Finset α := ds.foldl (offer m) ∅

/-- The farthest of the `m` closest elements. -/
def Farthest (m : ℕ) (ds : List α) (far : α) : Prop :=
  far ∈ ds ∧ rank ds.toFinset far + 1 = m

/-- **The farthest of the closest is not thrown out for good**: when all of the closest have been
offered and one of them, not the farthest, is offered again, then the farthest is offered again
later. -/
def Undisturbed (m : ℕ) (ds : List α) : Prop :=
  ∀ far, Farthest m ds far → ∀ before d after, ds = before ++ d :: after →
    (∀ x ∈ ds, x ≤ far → x ∈ before) → d < far → far ∈ after

/-! ### One offer -/

/-- An offer adds at most itself. Source: none: infrastructure. Kind: L -/
theorem offer_subset (m : ℕ) (S : Finset α) (d : α) : offer m S d ⊆ insert d S := by
  unfold offer
  split_ifs
  · exact Finset.Subset.refl _
  · exact Finset.filter_subset _ _
  · exact Finset.subset_insert d S

/-- No more elements are kept than wanted. Source: none: infrastructure. Kind: L -/
theorem card_offer_le {m : ℕ} {S : Finset α} (h : S.card ≤ m) (d : α) : (offer m S d).card ≤ m := by
  unfold offer
  split_ifs with h1 h2
  · exact (Finset.card_insert_le d S).trans h1
  · obtain ⟨x, hx⟩ : S.Nonempty := by
      by_contra hne
      rw [Finset.not_nonempty_iff_eq_empty.mp hne, Finset.max_empty] at h2
      exact absurd h2 not_lt_bot
    obtain ⟨b, hb⟩ := Finset.max_of_mem hx
    have hbS := Finset.mem_of_max hb
    have hsub : (insert d S).filter (fun x : α => (x : WithBot α) < S.max) ⊆
        insert d (S.erase b) := by
      intro y hy
      obtain ⟨hy1, hy2⟩ := Finset.mem_filter.mp hy
      rw [Finset.mem_insert] at hy1 ⊢
      refine hy1.imp_right fun hyS => Finset.mem_erase.mpr ⟨?_, hyS⟩
      rintro rfl
      rw [hb] at hy2
      exact lt_irrefl _ hy2
    have h3 := Finset.card_le_card hsub
    have h4 := Finset.card_insert_le d (S.erase b)
    have h5 := Finset.card_erase_of_mem hbS
    have h6 := Finset.card_pos.mpr ⟨b, hbS⟩
    omega
  · exact h

/-- **One offer**: an element of the set stays unless the set is full, the element is its greatest
and a smaller one is offered. Source: none: infrastructure. Kind: L -/
theorem mem_offer_of_mem {m : ℕ} {S : Finset α} {x : α} (hx : x ∈ S) (d : α) :
    x ∈ offer m S d ∨ (m ≤ S.card ∧ d < x ∧ ∀ y ∈ S, y ≤ x) := by
  unfold offer
  split_ifs with h1 h2
  · exact Or.inl (Finset.mem_insert_of_mem hx)
  · by_cases hlt : (x : WithBot α) < S.max
    · exact Or.inl (Finset.mem_filter.mpr ⟨Finset.mem_insert_of_mem hx, hlt⟩)
    · have hmax : S.max = x := le_antisymm (not_lt.mp hlt) (Finset.le_max hx)
      rw [hmax] at h2
      refine Or.inr ⟨not_lt.mp h1, WithBot.coe_lt_coe.mp h2, fun y hy => ?_⟩
      exact WithBot.coe_le_coe.mp (hmax ▸ Finset.le_max hy)
  · exact Or.inl hx

/-- What is offered is in the set, unless the set is full of smaller elements. Source: none:
infrastructure. Kind: L -/
theorem mem_offer_self {m : ℕ} (S : Finset α) (d : α) :
    d ∈ offer m S d ∨ (m ≤ S.card ∧ ∀ y ∈ S, y < d) := by
  unfold offer
  split_ifs with h1 h2
  · exact Or.inl (Finset.mem_insert_self d S)
  · exact Or.inl (Finset.mem_filter.mpr ⟨Finset.mem_insert_self d S, h2⟩)
  · by_cases hd : d ∈ S
    · exact Or.inl hd
    · refine Or.inr ⟨not_lt.mp h1, fun y hy => ?_⟩
      have hle : (y : WithBot α) ≤ d := (Finset.le_max hy).trans (not_lt.mp h2)
      exact lt_of_le_of_ne (WithBot.coe_le_coe.mp hle) fun he => hd (he ▸ hy)

/-- The greatest of a full set goes out when a smaller one is offered. Source: none: infrastructure.
Kind: L -/
theorem not_mem_offer {m : ℕ} {S : Finset α} {d x : α} (hfull : m ≤ S.card) (hx : S.max = x)
    (hd : d < x) : x ∉ offer m S d := by
  unfold offer
  rw [if_neg (not_lt.mpr hfull), hx, if_pos (WithBot.coe_lt_coe.mpr hd)]
  intro h
  exact lt_irrefl _ (Finset.mem_filter.mp h).2

/-! ### A list of offers -/

/-- The last offer comes last. Source: none: infrastructure. Kind: L -/
theorem offers_concat (m : ℕ) (ds : List α) (d : α) :
    offers m (ds ++ [d]) = offer m (offers m ds) d := by
  rw [offers, List.foldl_append]
  rfl

/-- Only what was offered is kept. Source: none: infrastructure. Kind: L -/
theorem offers_subset (m : ℕ) (ds : List α) : offers m ds ⊆ ds.toFinset := by
  induction ds using List.reverseRecOn with
  | nil => exact Finset.Subset.refl ∅
  | append_singleton ds d ih =>
    rw [offers_concat]
    intro x hx
    rw [List.mem_toFinset, List.mem_append, List.mem_singleton]
    rcases Finset.mem_insert.mp (offer_subset m _ d hx) with h | h
    · exact Or.inr h
    · exact Or.inl (List.mem_toFinset.mp (ih h))

/-- No more of the offers are kept than wanted. Source: none: infrastructure. Kind: L -/
theorem card_offers_le (m : ℕ) (ds : List α) : (offers m ds).card ≤ m := by
  induction ds using List.reverseRecOn with
  | nil => exact Nat.zero_le m
  | append_singleton ds d ih =>
    rw [offers_concat]
    exact card_offer_le ih d

/-- What is neither in the set nor offered does not get in. Source: none: infrastructure. Kind: L -/
theorem not_mem_offers_append {m : ℕ} {ds es : List α} {x : α} (h : x ∉ offers m ds)
    (hx : x ∉ es) : x ∉ offers m (ds ++ es) := by
  induction es using List.reverseRecOn with
  | nil => rwa [List.append_nil]
  | append_singleton es e ih =>
    rw [List.mem_append, not_or, List.mem_singleton] at hx
    rw [← List.append_assoc, offers_concat]
    intro hmem
    rcases Finset.mem_insert.mp (offer_subset m _ e hmem) with h1 | h1
    · exact hx.2 h1
    · exact ih hx.1 h1

variable {m : ℕ} {A S : Finset α}

/-- One of the `m` smallest gets in when it is offered. Source: none: infrastructure. Kind: L -/
theorem mem_offer_closest (hS : S ⊆ A) {x : α} (hr : rank A x < m) : x ∈ offer m S x := by
  rcases mem_offer_self (m := m) S x with h | ⟨hfull, hall⟩
  · exact h
  · have hsub : S ⊆ A.filter (· < x) := fun y hy => Finset.mem_filter.mpr ⟨hS hy, hall y hy⟩
    have h1 := Finset.card_le_card hsub
    have h2 : (A.filter (· < x)).card < m := hr
    omega

/-- **One of the `m` smallest stays**, unless it is the greatest of them, all of them are in the
set, and one of the others is offered. Source: none: infrastructure. Kind: L -/
theorem mem_offer (hS : S ⊆ A) {x : α} (hx : x ∈ S) (hr : rank A x < m) (d : α) :
    x ∈ offer m S d ∨ (rank A x + 1 = m ∧ d < x ∧ ∀ y ∈ A, y ≤ x → y ∈ S) := by
  refine (mem_offer_of_mem hx d).imp_right fun ⟨hfull, hd, hall⟩ => ?_
  have hsub : S.erase x ⊆ A.filter (· < x) := by
    intro y hy
    obtain ⟨hne, hyS⟩ := Finset.mem_erase.mp hy
    exact Finset.mem_filter.mpr ⟨hS hyS, lt_of_le_of_ne (hall y hyS) hne⟩
  have h1 := Finset.card_le_card hsub
  have h2 := Finset.card_erase_of_mem hx
  have h3 : (A.filter (· < x)).card < m := hr
  have heq : S.erase x = A.filter (· < x) := Finset.eq_of_subset_of_card_le hsub (by omega)
  have h4 : rank A x = (S.erase x).card := congrArg Finset.card heq.symm
  refine ⟨by omega, hd, fun y hyA hyx => ?_⟩
  rcases hyx.eq_or_lt with rfl | hlt
  · exact hx
  · have hy : y ∈ S.erase x := heq ▸ Finset.mem_filter.mpr ⟨hyA, hlt⟩
    exact Finset.mem_of_mem_erase hy

/-- **One of the `m` smallest is in the set once it was offered**, unless it is the greatest of them
and was thrown out since. Source: none: infrastructure. Kind: L -/
theorem mem_offers {p : List α} (hp : p.toFinset ⊆ A) {x : α} (hx : x ∈ p) (hr : rank A x < m) :
    x ∈ offers m p ∨ (rank A x + 1 = m ∧ ∃ before d after, p = before ++ d :: after ∧ d < x ∧
      (∀ y ∈ A, y ≤ x → y ∈ before) ∧ x ∉ after) := by
  induction p using List.reverseRecOn with
  | nil => cases hx
  | append_singleton p e ih =>
    have hpA : p.toFinset ⊆ A := fun y hy =>
      hp (List.mem_toFinset.mpr (List.mem_append_left _ (List.mem_toFinset.mp hy)))
    have hS : offers m p ⊆ A := (offers_subset m p).trans hpA
    rw [offers_concat]
    by_cases hxe : x = e
    · subst hxe
      exact Or.inl (mem_offer_closest hS hr)
    · have hxp : x ∈ p := by
        rcases List.mem_append.mp hx with h | h
        · exact h
        · exact absurd (List.mem_singleton.mp h) hxe
      rcases ih hpA hxp with h | ⟨hfar, before, d, after, rfl, hd, hall, hafter⟩
      · refine (mem_offer hS h hr e).imp_right fun ⟨hfar, hd, hall⟩ => ?_
        refine ⟨hfar, p, e, [], rfl, hd, fun y hyA hyx => ?_, List.not_mem_nil⟩
        exact List.mem_toFinset.mp (offers_subset m p (hall y hyA hyx))
      · refine Or.inr ⟨hfar, before, d, after ++ [e], by simp, hd, hall, fun h => ?_⟩
        rcases List.mem_append.mp h with h | h
        · exact hafter h
        · exact hxe (List.mem_singleton.mp h)

/-- The rank grows with the element. Source: none: infrastructure. Kind: L -/
theorem rank_lt_rank {x y : α} (hx : x ∈ A) (h : x < y) : rank A x < rank A y := by
  apply Finset.card_lt_card
  refine ⟨fun z hz => ?_, fun hsub => ?_⟩
  · obtain ⟨hzA, hzx⟩ := Finset.mem_filter.mp hz
    exact Finset.mem_filter.mpr ⟨hzA, hzx.trans h⟩
  · have hmem := hsub (Finset.mem_filter.mpr ⟨hx, h⟩)
    exact lt_irrefl x (Finset.mem_filter.mp hmem).2

/-- **The set that results is the right one exactly if the farthest was not thrown out for good.**.
Source: none: infrastructure. Kind: L -/
theorem closest_offers_iff (m : ℕ) (ds : List α) :
    Closest m ds.toFinset (offers m ds) ↔ Undisturbed m ds := by
  obtain ⟨C, hC⟩ := exists_closest m ds.toFinset
  constructor
  · rintro hcl far ⟨hfar, hrank⟩ before d after rfl hall hd
    by_contra hafter
    have hfarA : far ∈ (before ++ d :: after).toFinset := List.mem_toFinset.mpr hfar
    have hbefore : before.toFinset ⊆ (before ++ d :: after).toFinset := fun y hy =>
      List.mem_toFinset.mpr (List.mem_append_left _ (List.mem_toFinset.mp hy))
    have hdA : d ∈ (before ++ d :: after).toFinset :=
      List.mem_toFinset.mpr (List.mem_append_right _ List.mem_cons_self)
    -- the closer ones are all there
    have hnear : ∀ y ∈ (before ++ d :: after).toFinset, y < far → y ∈ offers m before := by
      intro y hyA hy
      have hry := rank_lt_rank hyA hy
      have hyb := hall y (List.mem_toFinset.mp hyA) hy.le
      rcases mem_offers (m := m) hbefore hyb (by omega) with h | ⟨h, -⟩
      · exact h
      · omega
    -- so the farthest goes out, if it is there
    have hout : far ∉ offers m (before ++ [d]) := by
      rw [offers_concat]
      by_cases hin : far ∈ offers m before
      · have hsub : (before ++ d :: after).toFinset.filter (· < far) ⊆
            (offers m before).erase far := by
          intro y hy
          obtain ⟨hyA, hyf⟩ := Finset.mem_filter.mp hy
          exact Finset.mem_erase.mpr ⟨hyf.ne, hnear y hyA hyf⟩
        have h1 : rank (before ++ d :: after).toFinset far ≤ ((offers m before).erase far).card :=
          Finset.card_le_card hsub
        have h2 := Finset.card_erase_of_mem hin
        have h3 := card_offers_le m before
        have h4 := Finset.card_pos.mpr ⟨far, hin⟩
        have heq := Finset.eq_of_subset_of_card_le hsub (by
          have h5 : ((before ++ d :: after).toFinset.filter (· < far)).card + 1 = m := hrank
          omega)
        have hmax : (offers m before).max = far := by
          apply le_antisymm _ (Finset.le_max hin)
          apply Finset.max_le
          intro y hy
          by_cases hyf : y = far
          · rw [hyf]
          · have hy' := Finset.mem_erase.mpr ⟨hyf, hy⟩
            rw [← heq] at hy'
            exact WithBot.coe_le_coe.mpr (Finset.mem_filter.mp hy').2.le
        exact not_mem_offer (by omega) hmax hd
      · intro hmem
        rcases Finset.mem_insert.mp (offer_subset m _ d hmem) with h | h
        · exact hd.ne h.symm
        · exact hin h
    have hfinal := not_mem_offers_append hout hafter
    rw [List.append_assoc, List.singleton_append] at hfinal
    exact hfinal ((mem_closest_iff hcl).mpr ⟨hfarA, by omega⟩)
  · intro hund
    have hsub : C ⊆ offers m ds := by
      intro x hx
      obtain ⟨hxA, hr⟩ := (mem_closest_iff hC).mp hx
      have hxd := List.mem_toFinset.mp hxA
      rcases mem_offers (Finset.Subset.refl _) hxd hr with h | ⟨hfar, before, d, after, hds, hd,
        hall, hafter⟩
      · exact h
      · refine absurd (hund x ⟨hxd, hfar⟩ before d after hds (fun y hy hyx => ?_) hd) hafter
        exact hall y (List.mem_toFinset.mpr hy) hyx
    have h1 := card_offers_le m ds
    have h2 := Finset.card_le_card (offers_subset m ds)
    have h3 := hC.2.1
    rwa [← Finset.eq_of_subset_of_card_le hsub (by omega)]

end KTorrent.Lib
