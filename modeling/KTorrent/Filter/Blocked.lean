import KTorrent.Filter.Ranges
import Mathlib.Algebra.Order.BigOperators.Group.List
import Mathlib.Data.List.Pairwise

/-!
# Which addresses are blocked

* `IPBlocklist.Keeps` — how the list and the record of what was added go together: the list holds the
  largest ranges, one before the other.
* `Operation.Passes` — what an operation needs: what is added lies before or behind everything in the
  list, or is a part of one of its ranges; what is removed lies before or behind everything that was
  added otherwise.
* `IPBlocklist.blocked_run` — in a run of such operations the list answers as the record does.
* `IPBlocklist.hidden` — a range that holds a single address of the list is not blocked.
* `IPBlocklist.abs_run` — what the states come to at most, in any run.

Source: `torrent/ipblocklist.cpp`
-/

namespace KTorrent.Filter

open KTorrent.Lib IPKey

/-! ### The record -/

namespace Record

/-- The states of a part of the record. Kind: D -/
def sum (r : Record) (p : Text → Prop) [DecidablePred p] : ℤ :=
  ((r.filter fun e => p e.1).map Prod.snd).sum

/-- The sum with one more entry. Source: none: infrastructure. Kind: L -/
theorem sum_append (r : Record) (e : Text × ℤ) (p : Text → Prop) [DecidablePred p] :
    sum (r ++ [e]) p = sum r p + if p e.1 then e.2 else 0 := by
  unfold sum
  rw [List.filter_append, List.map_append, List.sum_append]
  congr 1
  rw [List.filter_singleton]
  split_ifs with h
  · simp [h]
  · simp [h]

/-- Equivalent conditions give the same sum. Source: none: infrastructure. Kind: L -/
theorem sum_congr {r : Record} {p p' : Text → Prop} [DecidablePred p] [DecidablePred p']
    (h : ∀ e ∈ r, p e.1 ↔ p' e.1) : sum r p = sum r p' := by
  unfold sum
  rw [List.filter_congr fun e he => decide_eq_decide.mpr (h e he)]

/-- What is taken out of the record does not count, if it did not before.
Source: `torrent/ipblocklist.cpp`. Kind: L -/
theorem sum_filter {r : Record} {p : Text → Prop} [DecidablePred p] (q : Text × ℤ → Bool)
    (h : ∀ e ∈ r, p e.1 → q e = true) : sum (r.filter q) p = sum r p := by
  unfold sum
  rw [List.filter_filter]
  congr 2
  apply List.filter_congr
  intro e he
  by_cases hp : p e.1
  · simp [hp, h e he hp]
  · simp [hp]

/-- A state that is not negative does not make the sum smaller. Source: `torrent/ipblocklist.cpp`.
Kind: L -/
theorem le_sum {r : Record} {p : Text → Prop} [DecidablePred p] (h : ∀ e ∈ r, p e.1 → 0 ≤ e.2)
    {e : Text × ℤ} (he : e ∈ r) (hp : p e.1) : e.2 ≤ sum r p := by
  unfold sum
  apply List.single_le_sum
  · intro x hx
    obtain ⟨s, hs, rfl⟩ := List.mem_map.mp hx
    obtain ⟨hsr, hsp⟩ := List.mem_filter.mp hs
    exact h s hsr (of_decide_eq_true hsp)
  · exact List.mem_map.mpr ⟨e, List.mem_filter.mpr ⟨he, decide_eq_true hp⟩, rfl⟩

/-- The total is a sum over the texts that match. Source: `torrent/ipblocklist.cpp`. Kind: L -/
theorem total_eq (r : Record) (ip : Text) : r.total ip = sum r fun t => t.Matches ip := rfl

end Record

/-! ### The list and the record -/

namespace IPBlocklist

/-- What one entry of the list stands for: for what was added under its very key, with the sum of the
states; or for a range with all its parts, which is blocked. Kind: D -/
def Stands (r : Record) (e : IPKey × ℤ) : Prop :=
  ((∀ s ∈ r, Inside s.1.toKey e.1 → s.1.toKey = e.1) ∧
      e.2 = r.sum fun t => t.toKey = e.1) ∨
    3 ≤ e.2 ∧ e.1.m_mask ≠ 0xFFFFFFFF ∧
      ∀ s ∈ r, Inside s.1.toKey e.1 → s.1.toKey ≠ e.1 → 0 ≤ s.2

/-- **The list holds the largest ranges of the record**, one before the other. Kind: D -/
structure Keeps (m : IPBlocklist) (r : Record) : Prop where
  sorted : m.toList.Pairwise fun a b => Before a.1 b.1
  recorded : ∀ e ∈ m.toList, ∃ s ∈ r, s.1.toKey = e.1
  range : ∀ s ∈ r, s.1.IsRange ∧ s.1.Tidy ∧ (¬ s.1.IsAddress → s.2 = 3)
  cover : ∀ s ∈ r, ∃ e ∈ m.toList, Inside s.1.toKey e.1
  stands : ∀ e ∈ m.toList, Stands r e

/-- The keys of the map are tame. Source: `torrent/ipblocklist.cpp`. Kind: L -/
theorem Keeps.tame {m : IPBlocklist} {r : Record} (h : Keeps m r) : ∀ e ∈ m.toList, Tame e.1 := by
  intro e he
  obtain ⟨s, hs, hkey⟩ := h.recorded e he
  obtain ⟨h1, h2, -⟩ := h.range s hs
  exact ⟨s.1, h1, h2, hkey⟩

/-- How the key `k` compares to the entries of a list. Kind: D -/
def Compares (es : List (IPKey × ℤ)) (k : IPKey) : Prop :=
  ∀ e ∈ es, (k.m_ip < e.1.m_ip → lt k e.1 = true) ∧ (e.1.m_ip ≤ k.m_ip → lt k e.1 = false)

/-- The comparison of a tame key. Source: `torrent/ipblocklist.cpp`. Kind: L -/
theorem lt_tame {x : IPKey} (hx : Tame x) (k : IPKey) :
    lt x k = true ↔ x.m_ip < k.m_ip &&& x.m_mask := by
  obtain ⟨t, -, -, rfl⟩ := hx
  exact t.lt_iff k

/-- **What a search meets**: the range that the address is in, or none.
Source: `torrent/ipblocklist.cpp`. Kind: L -/
theorem Keeps.split {m : IPBlocklist} {r : Record} (h : Keeps m r) {k : IPKey}
    (hk : k.m_ip < 2 ^ 32) (hc : Compares m.toList k) :
    (∃ as e bs, m.toList = as ++ e :: bs ∧ e.1.Member k.m_ip ∧
      (∀ a ∈ as, lt a.1 k = true ∧ lt k a.1 = false) ∧
      (lt e.1 k = false ∧ lt k e.1 = false) ∧ ∀ b ∈ bs, lt b.1 k = false ∧ lt k b.1 = true) ∨
    ∃ as bs, m.toList = as ++ bs ∧ (∀ e ∈ m.toList, ¬ e.1.Member k.m_ip) ∧
      (∀ a ∈ as, lt a.1 k = true ∧ lt k a.1 = false) ∧
      ∀ b ∈ bs, lt b.1 k = false ∧ lt k b.1 = true := by
  have hbelow : ∀ a ∈ m.toList, a.1.m_ip < k.m_ip &&& a.1.m_mask →
      (lt a.1 k = true ∧ lt k a.1 = false) ∧ ¬ a.1.Member k.m_ip := by
    intro a ha hlt
    refine ⟨⟨(lt_tame (h.tame a ha) k).mpr hlt, ?_⟩, fun hmem => ?_⟩
    · exact (hc a ha).2 (hlt.le.trans Nat.and_le_left)
    · rw [hmem.2] at hlt
      exact lt_irrefl _ hlt
  have habove : ∀ b ∈ m.toList, k.m_ip < b.1.m_ip →
      (lt b.1 k = false ∧ lt k b.1 = true) ∧ ¬ b.1.Member k.m_ip := by
    intro b hb hlt
    refine ⟨⟨?_, (hc b hb).1 hlt⟩, fun hmem => ?_⟩
    · rw [← Bool.not_eq_true, lt_tame (h.tame b hb), not_lt]
      exact Nat.and_le_left.trans hlt.le
    · have hle : b.1.m_ip ≤ k.m_ip := by
        rw [← hmem.2]
        exact Nat.and_le_left
      omega
  rcases split_list h.sorted h.tame hk with ⟨as, e, bs, hlist, he, ha, hb⟩ | ⟨as, bs, hlist, ha, hb⟩
  · have hmem : ∀ x, x ∈ as ++ e :: bs → x ∈ m.toList := fun x hx => by rwa [hlist]
    refine Or.inl ⟨as, e, bs, hlist, he, fun a h' => ?_, ⟨?_, ?_⟩, fun b h' => ?_⟩
    · exact (hbelow a (hmem a (List.mem_append_left _ h')) (ha a h')).1
    · rw [← Bool.not_eq_true, lt_tame (h.tame e (hmem e (by simp))), he.2]
      exact lt_irrefl _
    · apply (hc e (hmem e (by simp))).2
      rw [← he.2]
      exact Nat.and_le_left
    · exact (habove b (hmem b (by simp [h'])) (hb b h')).1
  · have hmem : ∀ x, x ∈ as ++ bs → x ∈ m.toList := fun x hx => by rwa [hlist]
    refine Or.inr ⟨as, bs, hlist, fun e he => ?_, fun a h' => ?_, fun b h' => ?_⟩
    · rw [hlist] at he
      rcases List.mem_append.mp he with h' | h'
      · exact (hbelow e (hmem e (List.mem_append_left _ h')) (ha e h')).2
      · exact (habove e (hmem e (List.mem_append_right _ h')) (hb e h')).2
    · exact (hbelow a (hmem a (List.mem_append_left _ h')) (ha a h')).1
    · exact (habove b (hmem b (List.mem_append_right _ h')) (hb b h')).1

/-! ### The answer -/

/-- Only one range of the list has the address. Source: `torrent/ipblocklist.cpp`. Kind: L -/
theorem Keeps.unique {m : IPBlocklist} {r : Record} (h : Keeps m r) {e e' : IPKey × ℤ}
    (he : e ∈ m.toList) (he' : e' ∈ m.toList) {p : ℕ} (hp : e.1.Member p) (hp' : e'.1.Member p) :
    e = e' := by
  by_contra hne
  have hsymm : Std.Symm fun a b : IPKey × ℤ => Apart a.1 b.1 := ⟨fun _ _ hab => hab.symm⟩
  have hall : m.toList.Pairwise fun a b => Apart a.1 b.1 := h.sorted.imp Or.inl
  have hpair : Apart e.1 e'.1 := hall.forall he he' hne
  rcases hpair with hb | hb
  · exact lt_irrefl p (hb p p hp hp')
  · exact lt_irrefl p (hb p p hp' hp)

/-- An address can be searched for. Source: `torrent/ipblocklist.cpp`. Kind: L -/
theorem compares_address {m : IPBlocklist} {r : Record} (h : Keeps m r) {p : ℕ} (hp : p < 2 ^ 32) :
    Compares m.toList ⟨p, 0xFFFFFFFF⟩ := by
  have hfull : ∀ x, x < 2 ^ 32 → x &&& 0xFFFFFFFF = x := fun x hx => by
    rw [show 0xFFFFFFFF = 2 ^ 32 - 1 from rfl, Nat.and_two_pow_sub_one_eq_mod]
    exact Nat.mod_eq_of_lt hx
  intro e he
  obtain ⟨t, -, -, ht⟩ := h.tame e he
  have hlt : lt ⟨p, 0xFFFFFFFF⟩ e.1 = decide (p < e.1.m_ip) := by
    unfold lt
    rw [hfull p hp, Nat.and_comm, hfull e.1.m_ip (ht ▸ t.toKey_ip_lt)]
  rw [hlt, decide_eq_true_eq, decide_eq_false_iff_not, not_lt]
  exact ⟨id, id⟩

/-- The address is in the range of the list that covers what it matches.
Source: `torrent/ipblocklist.cpp`. Kind: L -/
theorem Keeps.inside_of_matches {m : IPBlocklist} {r : Record} (h : Keeps m r) {ip : Text}
    (hip : ip.IsAddress) {e : IPKey × ℤ} (he : e ∈ m.toList) (hmem : e.1.Member ip.toKey.m_ip)
    {s : Text × ℤ} (hs : s ∈ r) (hm : s.1.Matches ip) : Inside s.1.toKey e.1 := by
  obtain ⟨e', he', hin⟩ := h.cover s hs
  have hs' := (Text.member_iff (h.range s hs).1 hip).mpr hm
  rwa [h.unique he he' hmem (hin.member hs')]

/-- **A range that is in the list with others inside it is blocked.**.
Source: `torrent/ipblocklist.cpp`. Kind: L -/
theorem Keeps.three_le_total {m : IPBlocklist} {r : Record} (h : Keeps m r) {ip : Text}
    (hip : ip.IsAddress) {e : IPKey × ℤ} (he : e ∈ m.toList) (hmem : e.1.Member ip.toKey.m_ip)
    (hmask : e.1.m_mask ≠ 0xFFFFFFFF)
    (hneg : ∀ s ∈ r, Inside s.1.toKey e.1 → s.1.toKey ≠ e.1 → 0 ≤ s.2) : 3 ≤ r.total ip := by
  have hthree : ∀ s ∈ r, s.1.toKey = e.1 → s.2 = 3 := fun s hs hkey => by
    apply (h.range s hs).2.2
    intro haddr
    apply hmask
    rw [← hkey]
    exact Text.mask_of_isAddress haddr
  obtain ⟨s, hs, hkey⟩ := h.recorded e he
  rw [← hthree s hs hkey, Record.total_eq]
  refine Record.le_sum (fun x hx hm => ?_) hs ?_
  · by_cases hxe : x.1.toKey = e.1
    · rw [hthree x hx hxe]
      norm_num
    · exact hneg x hx (h.inside_of_matches hip he hmem hx hm) hxe
  · rw [← Text.member_iff (h.range s hs).1 hip, hkey]
    exact hmem

/-- **The list answers as the record does.** Source: `IPBlocklist::isBlockedLocal`. Kind: L -/
theorem Keeps.isBlockedLocal {m : IPBlocklist} {r : Record} (h : Keeps m r) {ip : Text}
    (hip : ip.IsAddress) : m.isBlockedLocal ip = r.isBlocked ip := by
  have hp := ip.toKey_ip_lt
  unfold IPBlocklist.isBlockedLocal Record.isBlocked
  rw [Text.toUint32_eq hip]
  dsimp only
  rcases h.split (k := ⟨ip.toKey.m_ip, 0xFFFFFFFF⟩) hp (compares_address h hp) with
    ⟨as, e, bs, hlist, hmem, ha, he, hb⟩ | ⟨as, bs, hlist, hnone, ha, hb⟩
  · have hein : e ∈ m.toList := by
      rw [hlist]
      simp
    have hfind : Tree.find lt ⟨ip.toKey.m_ip, 0xFFFFFFFF⟩ m = some e := by
      refine Tree.find_some hlist (fun a h' => (ha a h').1) (fun b h' => ?_) he.2
      rcases List.mem_cons.mp h' with rfl | h'
      · exact he.1
      · exact (hb b h').1
    rw [hfind]
    dsimp only
    rcases h.stands e hein with ⟨hexact, hsum⟩ | ⟨h3, hmask, hneg⟩
    · rw [hsum, Record.total_eq]
      congr 2
      apply Record.sum_congr
      intro s hs
      constructor
      · intro hkey
        rw [← Text.member_iff (h.range s hs).1 hip, hkey]
        exact hmem
      · intro hm
        exact hexact s hs (h.inside_of_matches hip hein hmem hs hm)
    · rw [decide_eq_true h3, decide_eq_true (h.three_le_total hip hein hmem hmask hneg)]
  · have hfind : Tree.find lt ⟨ip.toKey.m_ip, 0xFFFFFFFF⟩ m = none :=
      Tree.find_none hlist (fun a h' => (ha a h').1) hb
    have htotal : r.total ip = 0 := by
      have hnil : r.filter (fun s => s.1.Matches ip) = [] := by
        rw [List.filter_eq_nil_iff]
        intro s hs hm
        obtain ⟨e, he, hin⟩ := h.cover s hs
        have hs' := (Text.member_iff (h.range s hs).1 hip).mpr (of_decide_eq_true hm)
        exact hnone e he (hin.member hs')
      unfold Record.total
      rw [hnil]
      rfl
    rw [hfind, htotal]
    rfl

/-! ### What is added -/

/-- What is added lies before or behind an entry of the list, or is a part of it. Kind: D -/
def Fits (k : IPKey) (state : ℤ) (e : IPKey) : Prop :=
  Apart k e ∨ Inside k e ∧ (k = e ∨ 0 ≤ state)

/-- An address lies in one of two keys that are apart. Source: `torrent/ipblocklist.cpp`. Kind: L -/
theorem not_member_of_apart {a b : IPKey} (h : Apart a b) {p : ℕ} (ha : a.Member p) : ¬ b.Member p := by
  intro hb
  rcases h with h | h
  · exact lt_irrefl p (h p p ha hb)
  · exact lt_irrefl p (h p p hb ha)

/-- A range can be searched for if every key is apart from it or inside it.
Source: `torrent/ipblocklist.cpp`. Kind: L -/
theorem Keeps.compares_apart {m : IPBlocklist} {r : Record} (h : Keeps m r) {t : Text}
    (hfit : ∀ e ∈ m.toList, Apart t.toKey e.1 ∨ Inside t.toKey e.1) :
    Compares m.toList t.toKey := by
  intro e he
  obtain ⟨t', -, -, ht'⟩ := h.tame e he
  have hfit' := hfit e he
  rw [← ht'] at hfit' ⊢
  rcases hfit' with (hb | hb) | hin
  · obtain ⟨h1, h2, -⟩ := Text.lt_of_before hb
    exact ⟨fun _ => h2, fun hle => absurd h1 (not_lt.mpr hle)⟩
  · obtain ⟨h1, -, h3⟩ := Text.lt_of_before hb
    exact ⟨fun hlt => absurd hlt (not_lt.mpr h1.le), fun _ => h3⟩
  · obtain ⟨h1, h2, -⟩ := Text.lt_of_inside hin
    exact ⟨fun hlt => absurd hlt (not_lt.mpr h1), fun _ => h2⟩

/-- An entry that has nothing to do with what is added stands for what it did. Source: none:
infrastructure. Kind: L -/
theorem Stands.append {r : Record} {e : IPKey × ℤ} (h : Stands r e) {t : Text} (st : ℤ)
    (hnot : ¬ Inside t.toKey e.1) : Stands (r ++ [(t, st)]) e := by
  have hne : t.toKey ≠ e.1 := fun heq => hnot (heq ▸ t.inside_self)
  rcases h with ⟨hexact, hsum⟩ | ⟨h3, hmask, hneg⟩
  · refine Or.inl ⟨fun s hs hin => ?_, ?_⟩
    · rcases List.mem_append.mp hs with hs | hs
      · exact hexact s hs hin
      · rw [List.mem_singleton.mp hs] at hin
        exact absurd hin hnot
    · rw [Record.sum_append, if_neg hne, add_zero]
      exact hsum
  · refine Or.inr ⟨h3, hmask, fun s hs hin hkey => ?_⟩
    rcases List.mem_append.mp hs with hs | hs
    · exact hneg s hs hin hkey
    · rw [List.mem_singleton.mp hs] at hin
      exact absurd hin hnot

/-- What is part of an entry is added to it. Source: `torrent/ipblocklist.cpp`. Kind: L -/
theorem Stands.over {m : IPBlocklist} {r : Record} (hk : Keeps m r) {e : IPKey × ℤ}
    (he : e ∈ m.toList) {t : Text} {st : ℤ} (hst : ¬ t.IsAddress → st = 3)
    (hin : Inside t.toKey e.1) (hfit : t.toKey = e.1 ∨ 0 ≤ st) :
    Stands (r ++ [(t, st)]) (e.1, st + e.2) := by
  obtain ⟨s₀, hs₀, hkey₀⟩ := hk.recorded e he
  have hmaskne : t.toKey ≠ e.1 → e.1.m_mask ≠ 0xFFFFFFFF := by
    intro hne hmask
    have haddr := Text.isAddress_of_mask (hkey₀ ▸ hmask : s₀.1.toKey.m_mask = 0xFFFFFFFF)
    -- a part of a single address is this address
    have hbits : t.toKey.m_mask = 0xFFFFFFFF := by
      have h1 := hin.1
      rw [hmask] at h1
      have hle : t.toKey.m_mask ≤ 0xFFFFFFFF := by
        have b₀ := t.o₀.bits_lt
        have b₁ := t.o₁.bits_lt
        have b₂ := t.o₂.bits_lt
        have b₃ := t.o₃.bits_lt
        show quad _ _ _ _ ≤ _
        unfold quad
        omega
      have hge : 0xFFFFFFFF ≤ t.toKey.m_mask := by
        rw [← h1]
        exact Nat.and_le_left
      omega
    apply hne
    have hip : t.toKey.m_ip = e.1.m_ip := by
      rw [← hin.2, hmask, ← hbits]
      exact t.ip_and_mask.symm
    exact IPKey.ext hip (hbits.trans hmask.symm)
  have hthree : e.1.m_mask ≠ 0xFFFFFFFF → ∀ s ∈ r, s.1.toKey = e.1 → s.2 = 3 := by
    intro hmask s hs hkey
    apply (hk.range s hs).2.2
    intro haddr
    apply hmask
    rw [← hkey]
    exact Text.mask_of_isAddress haddr
  by_cases hkey : t.toKey = e.1
  · rcases hk.stands e he with ⟨hexact, hsum⟩ | ⟨h3, hmask, hneg⟩
    · refine Or.inl ⟨fun s hs hins => ?_, ?_⟩
      · rcases List.mem_append.mp hs with hs | hs
        · exact hexact s hs hins
        · rw [List.mem_singleton.mp hs]
          exact hkey
      · rw [Record.sum_append, if_pos hkey, add_comm]
        exact congrArg (· + st) hsum
    · have hst3 : st = 3 := hst fun haddr => hmask (hkey ▸ Text.mask_of_isAddress haddr)
      refine Or.inr ⟨?_, hmask, fun s hs hins hne => ?_⟩
      · show 3 ≤ st + e.2
        omega
      · rcases List.mem_append.mp hs with hs | hs
        · exact hneg s hs hins hne
        · rw [List.mem_singleton.mp hs] at hne
          exact absurd hkey hne
  · have hst0 := hfit.resolve_left hkey
    have hmask := hmaskne hkey
    have h3 : 3 ≤ e.2 := by
      rcases hk.stands e he with ⟨-, hsum⟩ | ⟨h3, -⟩
      · rw [hsum, ← hthree hmask s₀ hs₀ hkey₀]
        refine Record.le_sum (fun s hs hs' => ?_) hs₀ hkey₀
        rw [hthree hmask s hs hs']
        norm_num
      · exact h3
    refine Or.inr ⟨?_, hmask, fun s hs hins hne => ?_⟩
    · show 3 ≤ st + e.2
      omega
    · rcases List.mem_append.mp hs with hs | hs
      · rcases hk.stands e he with ⟨hexact, -⟩ | ⟨-, -, hneg⟩
        · exact absurd (hexact s hs hins) hne
        · exact hneg s hs hins hne
      · rw [List.mem_singleton.mp hs]
        exact hst0

/-- What is a part of one range of the list. Source: `torrent/ipblocklist.cpp`. Kind: L -/
theorem Keeps.over {m m' : IPBlocklist} {r : Record} (h : Keeps m r) {t : Text} {st : ℤ}
    (ht : t.IsRange ∧ t.Tidy) (hst : ¬ t.IsAddress → st = 3) {as bs : List (IPKey × ℤ)}
    {e : IPKey × ℤ} (hlist : m.toList = as ++ e :: bs)
    (hlist' : m'.toList = as ++ (e.1, st + e.2) :: bs) (hin : Inside t.toKey e.1)
    (hfit : t.toKey = e.1 ∨ 0 ≤ st) : Keeps m' (r ++ [(t, st)]) := by
  have hein : e ∈ m.toList := by
    rw [hlist]
    simp
  have hsplit := h.sorted
  rw [hlist] at hsplit
  obtain ⟨-, hsplit', hcross⟩ := List.pairwise_append.mp hsplit
  have hmem : e.1.Member t.toKey.m_ip := hin.member t.member_ip
  have hfront : ∀ a ∈ as, ¬ Inside t.toKey a.1 := fun a ha hina =>
    lt_irrefl _ (hcross a ha e List.mem_cons_self _ _ (hina.member t.member_ip) hmem)
  have hback : ∀ b ∈ bs, ¬ Inside t.toKey b.1 := fun b hb hinb =>
    lt_irrefl _ ((List.pairwise_cons.mp hsplit').1 b hb _ _ hmem (hinb.member t.member_ip))
  have hkeys : m'.toList.map Prod.fst = m.toList.map Prod.fst := by
    rw [hlist, hlist']
    simp
  have hold : ∀ k, (∃ x ∈ m'.toList, x.1 = k) ↔ ∃ x ∈ m.toList, x.1 = k := fun k => by
    rw [← List.mem_map, ← List.mem_map, hkeys]
  refine ⟨?_, fun x hx => ?_, fun s hs => ?_, fun s hs => ?_, fun x hx => ?_⟩
  · have hs := List.pairwise_map.mpr h.sorted
    rw [← hkeys] at hs
    exact List.pairwise_map.mp hs
  · obtain ⟨y, hy, hyx⟩ := (hold x.1).mp ⟨x, hx, rfl⟩
    obtain ⟨s, hs, hkey⟩ := h.recorded y hy
    exact ⟨s, List.mem_append_left _ hs, hkey.trans hyx⟩
  · rcases List.mem_append.mp hs with hs | hs
    · exact h.range s hs
    · rw [List.mem_singleton.mp hs]
      exact ⟨ht.1, ht.2, hst⟩
  · rcases List.mem_append.mp hs with hs | hs
    · obtain ⟨y, hy, hins⟩ := h.cover s hs
      obtain ⟨x, hx, hxy⟩ := (hold y.1).mpr ⟨y, hy, rfl⟩
      exact ⟨x, hx, hxy ▸ hins⟩
    · rw [List.mem_singleton.mp hs]
      obtain ⟨x, hx, hxe⟩ := (hold e.1).mpr ⟨e, hein, rfl⟩
      exact ⟨x, hx, hxe ▸ hin⟩
  · rw [hlist'] at hx
    rcases List.mem_append.mp hx with hx | hx
    · exact (h.stands x (by simp [hlist, hx])).append st (hfront x hx)
    · rcases List.mem_cons.mp hx with rfl | hx
      · exact Stands.over h hein hst hin hfit
      · exact (h.stands x (by simp [hlist, hx])).append st (hback x hx)

/-- What lies before or behind everything in the list. Source: `torrent/ipblocklist.cpp`. Kind: L -/
theorem Keeps.new {m m' : IPBlocklist} {r : Record} (h : Keeps m r) {t : Text} {st : ℤ}
    (ht : t.IsRange ∧ t.Tidy) (hst : ¬ t.IsAddress → st = 3) {as bs : List (IPKey × ℤ)}
    (hlist : m.toList = as ++ bs) (hlist' : m'.toList = as ++ (t.toKey, st) :: bs)
    (ha : ∀ a ∈ as, Before a.1 t.toKey) (hb : ∀ b ∈ bs, Before t.toKey b.1) :
    Keeps m' (r ++ [(t, st)]) := by
  have hapart : ∀ x ∈ m.toList, Apart x.1 t.toKey := by
    intro x hx
    rw [hlist] at hx
    rcases List.mem_append.mp hx with hx | hx
    · exact Or.inl (ha x hx)
    · exact Or.inr (hb x hx)
  -- nothing that was added shares an address with what is new
  have hfree : ∀ s ∈ r, ¬ Inside s.1.toKey t.toKey := by
    intro s hs hin
    obtain ⟨e, he, hins⟩ := h.cover s hs
    exact not_member_of_apart (hapart e he) (hins.member s.1.member_ip) (hin.member s.1.member_ip)
  have hsub : ∀ x ∈ m.toList, x ∈ m'.toList := by
    intro x hx
    rw [hlist] at hx
    rw [hlist']
    rcases List.mem_append.mp hx with hx | hx
    · exact List.mem_append_left _ hx
    · exact List.mem_append_right _ (List.mem_cons_of_mem _ hx)
  have hcases : ∀ x ∈ m'.toList, x = (t.toKey, st) ∨ x ∈ m.toList := by
    intro x hx
    rw [hlist'] at hx
    rw [hlist]
    rcases List.mem_append.mp hx with hx | hx
    · exact Or.inr (List.mem_append_left _ hx)
    · exact (List.mem_cons.mp hx).imp_right (List.mem_append_right _)
  refine ⟨?_, fun x hx => ?_, fun s hs => ?_, fun s hs => ?_, fun x hx => ?_⟩
  · have hs := h.sorted
    rw [hlist] at hs
    rw [hlist']
    obtain ⟨h1, h2, h3⟩ := List.pairwise_append.mp hs
    refine List.pairwise_append.mpr ⟨h1, List.pairwise_cons.mpr ⟨hb, h2⟩, fun a haa b hbb => ?_⟩
    rcases List.mem_cons.mp hbb with rfl | hbb
    · exact ha a haa
    · exact h3 a haa b hbb
  · rcases hcases x hx with rfl | hx
    · exact ⟨(t, st), List.mem_append_right _ (List.mem_singleton.mpr rfl), rfl⟩
    · obtain ⟨s, hs, hkey⟩ := h.recorded x hx
      exact ⟨s, List.mem_append_left _ hs, hkey⟩
  · rcases List.mem_append.mp hs with hs | hs
    · exact h.range s hs
    · rw [List.mem_singleton.mp hs]
      exact ⟨ht.1, ht.2, hst⟩
  · rcases List.mem_append.mp hs with hs | hs
    · obtain ⟨e, he, hins⟩ := h.cover s hs
      exact ⟨e, hsub e he, hins⟩
    · rw [List.mem_singleton.mp hs]
      exact ⟨(t.toKey, st), by simp [hlist'], t.inside_self⟩
  · rcases hcases x hx with rfl | hx
    · refine Or.inl ⟨fun s hs hin => ?_, ?_⟩
      · rcases List.mem_append.mp hs with hs | hs
        · exact absurd hin (hfree s hs)
        · rw [List.mem_singleton.mp hs]
      · have hzero : r.sum (fun s => s.toKey = t.toKey) = 0 := by
          have hnil : r.filter (fun s => s.1.toKey = t.toKey) = [] := by
            rw [List.filter_eq_nil_iff]
            intro s hs hkey
            apply hfree s hs
            rw [of_decide_eq_true hkey]
            exact t.inside_self
          unfold Record.sum
          rw [hnil]
          rfl
        rw [Record.sum_append, hzero, if_pos rfl, zero_add]
    · refine (h.stands x hx).append st fun hin => ?_
      exact not_member_of_apart (hapart x hx) (hin.member t.member_ip) t.member_ip

/-- **What is added to the list is added to the record.** Source: `IPBlocklist::insertRangeIP`.
Kind: L -/
theorem Keeps.insertRangeIP {m : IPBlocklist} {r : Record} (h : Keeps m r) (B : Balance) {t : Text}
    {st : ℤ} (ht : t.IsRange ∧ t.Tidy) (hst : ¬ t.IsAddress → st = 3)
    (hfit : ∀ e ∈ m.toList, Fits t.toKey st e.1) :
    Keeps (m.insertRangeIP B t.toKey st) (r ++ [(t, st)]) := by
  have hc := h.compares_apart fun e he => (hfit e he).imp_right And.left
  unfold IPBlocklist.insertRangeIP
  rcases h.split t.toKey_ip_lt hc with
    ⟨as, e, bs, hlist, hmem, ha, he, hb⟩ | ⟨as, bs, hlist, hnone, ha, hb⟩
  · have hein : e ∈ m.toList := by
      rw [hlist]
      simp
    have hb' : ∀ b ∈ e :: bs, lt b.1 t.toKey = false := fun b h' => by
      rcases List.mem_cons.mp h' with rfl | h'
      · exact he.1
      · exact (hb b h').1
    have hfind : Tree.find lt t.toKey m = some e :=
      Tree.find_some hlist (fun a h' => (ha a h').1) hb' he.2
    obtain ⟨hin, hle⟩ : Inside t.toKey e.1 ∧ (t.toKey = e.1 ∨ 0 ≤ st) :=
      (hfit e hein).resolve_left fun hap => not_member_of_apart hap t.member_ip hmem
    rw [hfind]
    dsimp only
    split_ifs with hmask
    · -- the key that is inserted is the key itself
      have hkey : (⟨t.toKey.m_ip, e.1.m_mask ||| t.toKey.m_mask⟩ : IPKey) = t.toKey :=
        IPKey.ext rfl hin.mask_or
      refine h.over ht hst hlist ?_ hin hle
      rw [mapInsert, B.toList_balance, hkey]
      refine Tree.toList_insert_over (st + e.2) hlist (fun a h' => ?_) he.1 fun b h' => (hb b h').2
      rcases List.mem_append.mp h' with h' | h'
      · exact (ha a h').2
      · rw [List.mem_singleton.mp h']
        exact he.2
    · refine h.over ht hst hlist ?_ hin hle
      rw [Tree.toList_update (· + st) hlist (fun a h' => (ha a h').1) hb', add_comm st]
  · have hfind : Tree.find lt t.toKey m = none :=
      Tree.find_none hlist (fun a h' => (ha a h').1) hb
    rw [hfind]
    have hbefore : ∀ e ∈ m.toList, Apart t.toKey e.1 := fun e he =>
      (hfit e he).resolve_right fun hin => hnone e he (hin.1.member t.member_ip)
    refine h.new ht hst hlist ?_ (fun a h' => ?_) fun b h' => ?_
    · rw [mapInsert, B.toList_balance]
      exact Tree.toList_insert_new st hlist (fun a h' => ⟨(ha a h').2, (ha a h').1⟩)
        fun b h' => (hb b h').2
    · have hmem : a ∈ m.toList := by simp [hlist, h']
      obtain ⟨t', -, -, ht'⟩ := h.tame a hmem
      refine (hbefore a hmem).resolve_left fun hlt => ?_
      rw [← ht'] at hlt
      have h1 := (Text.lt_of_before hlt).2.1
      rw [ht', (ha a h').2] at h1
      cases h1
    · have hmem : b ∈ m.toList := by simp [hlist, h']
      obtain ⟨t', -, -, ht'⟩ := h.tame b hmem
      refine (hbefore b hmem).resolve_right fun hlt => ?_
      rw [← ht'] at hlt
      have h1 := (Text.lt_of_before hlt).2.1
      rw [ht', (hb b h').1] at h1
      cases h1

/-! ### What is removed -/

/-- The other entries of the list do not have the address. Source: `torrent/ipblocklist.cpp`.
Kind: L -/
theorem Keeps.not_member_of_other {m : IPBlocklist} {r : Record} (h : Keeps m r)
    {as bs : List (IPKey × ℤ)} {e : IPKey × ℤ} (hlist : m.toList = as ++ e :: bs) {p : ℕ}
    (hmem : e.1.Member p) {x : IPKey × ℤ} (hx : x ∈ as ++ bs) : ¬ x.1.Member p := by
  intro hxm
  have hsorted := h.sorted
  rw [hlist] at hsorted
  obtain ⟨-, h2, h3⟩ := List.pairwise_append.mp hsorted
  rcases List.mem_append.mp hx with hx | hx
  · exact lt_irrefl _ (h3 x hx e List.mem_cons_self _ _ hxm hmem)
  · exact lt_irrefl _ ((List.pairwise_cons.mp h2).1 x hx _ _ hmem hxm)

/-- What is not inside an entry can be removed from the record. Source: `torrent/ipblocklist.cpp`.
Kind: L -/
theorem Stands.filter {r : Record} {e : IPKey × ℤ} (h : Stands r e) {t : Text}
    (hne : ∀ s : Text × ℤ, Inside s.1.toKey e.1 → s.1 ≠ t) :
    Stands (r.filter fun s => s.1 ≠ t) e := by
  rcases h with ⟨hexact, hsum⟩ | ⟨h3, hmask, hneg⟩
  · refine Or.inl ⟨fun s hs => hexact s (List.mem_filter.mp hs).1, ?_⟩
    rw [Record.sum_filter]
    · exact hsum
    · intro s _ hsk
      apply decide_eq_true
      apply hne s
      rw [hsk, ← hsk]
      exact s.1.inside_self
  · exact Or.inr ⟨h3, hmask, fun s hs => hneg s (List.mem_filter.mp hs).1⟩

/-- The entry of what is removed goes. Source: `torrent/ipblocklist.cpp`. Kind: L -/
theorem Keeps.erased {m m' : IPBlocklist} {r : Record} (h : Keeps m r) {t : Text}
    (hap : ∀ s ∈ r, s.1 = t ∨ Apart t.toKey s.1.toKey) {as bs : List (IPKey × ℤ)} {e : IPKey × ℤ}
    (hlist : m.toList = as ++ e :: bs) (hlist' : m'.toList = as ++ bs) (hkey : e.1 = t.toKey) :
    Keeps m' (r.filter fun s => s.1 ≠ t) := by
  have hmem : e.1.Member t.toKey.m_ip := hkey ▸ t.member_ip
  have hsub : as ++ bs ⊆ m.toList := by
    rw [hlist]
    intro x hx
    rcases List.mem_append.mp hx with hx | hx
    · exact List.mem_append_left _ hx
    · exact List.mem_append_right _ (List.mem_cons_of_mem _ hx)
  -- the other entries have nothing to do with what is removed
  have hne : ∀ x ∈ as ++ bs, ∀ s : Text × ℤ, Inside s.1.toKey x.1 → s.1 ≠ t := by
    intro x hx s hin heq
    rw [heq] at hin
    exact h.not_member_of_other hlist hmem hx (hin.member t.member_ip)
  refine ⟨?_, fun x hx => ?_, fun s hs => ?_, fun s hs => ?_, fun x hx => ?_⟩
  · rw [hlist']
    have hsorted := h.sorted
    rw [hlist] at hsorted
    exact hsorted.sublist ((List.sublist_cons_self e bs).append_left as)
  · rw [hlist'] at hx
    obtain ⟨s, hs, hsk⟩ := h.recorded x (hsub hx)
    refine ⟨s, List.mem_filter.mpr ⟨hs, decide_eq_true ?_⟩, hsk⟩
    apply hne x hx s
    rw [hsk, ← hsk]
    exact s.1.inside_self
  · exact h.range s (List.mem_filter.mp hs).1
  · obtain ⟨hs, hst⟩ := List.mem_filter.mp hs
    obtain ⟨y, hy, hin⟩ := h.cover s hs
    refine ⟨y, ?_, hin⟩
    rw [hlist] at hy
    rw [hlist']
    rcases List.mem_append.mp hy with hy | hy
    · exact List.mem_append_left _ hy
    · rcases List.mem_cons.mp hy with rfl | hy
      · rw [hkey] at hin
        have hs' := (hap s hs).resolve_left (of_decide_eq_true hst)
        exact absurd s.1.member_ip (not_member_of_apart hs' (hin.member s.1.member_ip))
      · exact List.mem_append_right _ hy
  · rw [hlist'] at hx
    exact (h.stands x (hsub hx)).filter (hne x hx)

/-- **What is removed from the list is removed from the record.** Source:
`IPBlocklist::removeRange`. Kind: L -/
theorem Keeps.removeRange {m : IPBlocklist} {r : Record} (h : Keeps m r) (B : Balance) {t : Text}
    (ht : t.IsRange) (hap : ∀ s ∈ r, s.1 = t ∨ Apart t.toKey s.1.toKey) :
    Keeps (m.removeRange B t) (r.filter fun s => s.1 ≠ t) := by
  have hc := h.compares_apart fun e he => by
    obtain ⟨s, hs, hkey⟩ := h.recorded e he
    rcases hap s hs with heq | hs'
    · right
      rw [← hkey, heq]
      exact t.inside_self
    · left
      rwa [← hkey]
  unfold IPBlocklist.removeRange
  rw [Text.key_eq ht]
  dsimp only
  rcases h.split t.toKey_ip_lt hc with
    ⟨as, e, bs, hlist, hmem, ha, he, hb⟩ | ⟨as, bs, hlist, hnone, ha, hb⟩
  · have hein : e ∈ m.toList := by
      rw [hlist]
      simp
    have hb' : ∀ b ∈ e :: bs, lt b.1 t.toKey = false := fun b h' => by
      rcases List.mem_cons.mp h' with rfl | h'
      · exact he.1
      · exact (hb b h').1
    have hkey : e.1 = t.toKey := by
      obtain ⟨s, hs, hkey⟩ := h.recorded e hein
      rcases hap s hs with heq | hs'
      · rw [← hkey, heq]
      · rw [hkey] at hs'
        exact absurd hmem (not_member_of_apart hs' t.member_ip)
    have hfind : Tree.find lt t.toKey m = some e :=
      Tree.find_some hlist (fun a h' => (ha a h').1) hb' he.2
    rw [hfind]
    refine h.erased hap hlist ?_ hkey
    rw [B.toList_balance]
    exact Tree.toList_erase hlist (fun a h' => (ha a h').1) hb'
  · have hfind : Tree.find lt t.toKey m = none :=
      Tree.find_none hlist (fun a h' => (ha a h').1) hb
    have hfilter : r.filter (fun s => s.1 ≠ t) = r := by
      rw [List.filter_eq_self]
      intro s hs
      apply decide_eq_true
      intro heq
      obtain ⟨e, he, hin⟩ := h.cover s hs
      rw [heq] at hin
      exact hnone e he (hin.member t.member_ip)
    rw [hfind, hfilter]
    exact h

end IPBlocklist

/-! ### Runs -/

/-- What an operation needs. Kind: D -/
def Operation.Passes (s : IPBlocklist × Record) : Operation → Prop
  | insert ip state => ip.IsAddress → ∀ e ∈ s.1.toList, IPBlocklist.Fits ip.toKey state e.1
  | addRange ip => ip.IsRange → ip.Tidy ∧ ∀ e ∈ s.1.toList, IPBlocklist.Fits ip.toKey 3 e.1
  | removeRange ip => ip.IsRange → ∀ e ∈ s.2, e.1 = ip ∨ Apart ip.toKey e.1.toKey

namespace IPBlocklist

/-- The list and the record. Kind: D -/
def step (B : Balance) (s : IPBlocklist × Record) (op : Operation) : IPBlocklist × Record :=
  (op.apply B s.1, s.2.apply op)

/-- **One operation.**. Source: `torrent/ipblocklist.cpp`. Kind: L -/
theorem Keeps.step {s : IPBlocklist × Record} (B : Balance) {op : Operation} (h : Keeps s.1 s.2)
    (hop : op.Passes s) : Keeps (IPBlocklist.step B s op).1 (IPBlocklist.step B s op).2 := by
  cases op with
  | insert ip state =>
    show Keeps (s.1.insert B ip state) (if ip.IsAddress then s.2 ++ [(ip, state)] else s.2)
    unfold IPBlocklist.insert
    split_ifs with hip
    · have hkey : (⟨ip.toKey.m_ip, 0xFFFFFFFF⟩ : IPKey) = ip.toKey :=
        IPKey.ext rfl (Text.mask_of_isAddress hip).symm
      rw [Text.toUint32_eq hip]
      dsimp only
      rw [hkey]
      exact h.insertRangeIP B ⟨Text.isRange_of_isAddress hip, Text.tidy_of_isAddress hip⟩
        (fun hnot => absurd hip hnot) (hop hip)
    · rw [Text.toUint32_eq_none hip]
      exact h
  | addRange ip =>
    show Keeps (s.1.addRange B ip) (if ip.IsRange then s.2 ++ [(ip, 3)] else s.2)
    unfold IPBlocklist.addRange
    split_ifs with hip
    · rw [Text.key_eq hip]
      exact h.insertRangeIP B ⟨hip, (hop hip).1⟩ (fun _ => rfl) (hop hip).2
    · rw [Text.key_eq_none hip]
      exact h
  | removeRange ip =>
    show Keeps (s.1.removeRange B ip) (s.2.filter fun e => e.1 ≠ ip)
    by_cases hip : ip.IsRange
    · exact h.removeRange B hip (hop hip)
    · have hfilter : s.2.filter (fun e => e.1 ≠ ip) = s.2 := by
        rw [List.filter_eq_self]
        intro e he
        apply decide_eq_true
        intro heq
        apply hip
        rw [← heq]
        exact (h.range e he).1
      rw [hfilter, IPBlocklist.removeRange, Text.key_eq_none hip]
      exact h

/-- The empty map keeps the empty record. Source: none: infrastructure. Kind: L -/
theorem keeps_nil : Keeps Tree.leaf [] :=
  ⟨List.Pairwise.nil, fun _ h => absurd h List.not_mem_nil, fun _ h => absurd h List.not_mem_nil,
    fun _ h => absurd h List.not_mem_nil, fun _ h => absurd h List.not_mem_nil⟩

/-- A range lies before what begins behind its last address. Source: `torrent/ipblocklist.cpp`.
Kind: L -/
theorem before_of_top {a b : Text} (h : a.top < b.toKey.m_ip) : Before a.toKey b.toKey := by
  intro p q hp hq
  have hpa : p ≤ a.top := a.le_top hp.1 hp.2.le
  have hqb : b.toKey.m_ip ≤ q := by
    rw [← hq.2]
    exact Nat.and_le_left
  omega

/-- The list and the record when the list has been built. Kind: D -/
def built (B : Balance) : IPBlocklist × Record := run (step B) (Tree.leaf, []) Operation.construction

/-- The sample's map keeps its record. Source: `torrent/ipblocklist.cpp`. Kind: L -/
theorem keeps_built (B : Balance) : Keeps (built B).1 (built B).2 := by
  have h₁ : Keeps (step B (Tree.leaf, []) (.insert ⟨.number 0, .number 0, .number 0, .number 0⟩ 3)).1
      (step B (Tree.leaf, []) (.insert ⟨.number 0, .number 0, .number 0, .number 0⟩ 3)).2 :=
    @Keeps.step (Tree.leaf, []) B _ keeps_nil fun _ e he => absurd he List.not_mem_nil
  refine h₁.step B fun _ => ⟨by decide, fun e he => Or.inl (Or.inr ?_)⟩
  obtain ⟨s, hs, hkey⟩ := h₁.recorded e he
  have hs' : s = (⟨.number 0, .number 0, .number 0, .number 0⟩, 3) := List.mem_singleton.mp hs
  rw [← hkey, hs']
  exact before_of_top (by decide)

/-- **The list answers as the record does, in every run**: whatever the map does to keep itself in
balance, an address is blocked if and only if the states of what matches it, was added and was not
removed since, come to three. Source: `torrent/ipblocklist.cpp`. Kind: P -/
theorem blocked_run (B : Balance) {ops : List Operation}
    (h : Meets (step B) (fun s op => op.Passes s) (built B) ops) :
    ∀ pre, pre <+: ops → ∀ ip : Text, ip.IsAddress →
      (run (step B) (built B) pre).1.isBlockedLocal ip =
        (run (step B) (built B) pre).2.isBlocked ip := by
  intro pre hpre ip hip
  have hstep : ∀ (s : IPBlocklist × Record) (op : Operation), Keeps s.1 s.2 → op.Passes s →
      Keeps (step B s op).1 (step B s op).2 := fun s op hs hop => hs.step B hop
  have hkeeps : Keeps (run (step B) (built B) pre).1 (run (step B) (built B) pre).2 :=
    @Meets.invariant_at _ _ (step B) _ (fun s : IPBlocklist × Record => Keeps s.1 s.2) hstep _ _ _ h
      (keeps_built B) hpre
  exact hkeeps.isBlockedLocal hip

/-- A map that is left as it is. Kind: D -/
def unbalanced : Balance := ⟨id, fun _ => rfl⟩

/-- One text's range ends before the other's begins. Kind: D -/
def Clear (a b : Text) : Prop := a.top < b.toKey.m_ip ∨ b.top < a.toKey.m_ip

instance (a b : Text) : Decidable (Clear a b) := inferInstanceAs (Decidable (_ ∨ _))

/-- Texts that are clear of each other have keys that are apart. Source: `torrent/ipblocklist.cpp`.
Kind: L -/
theorem apart_of_clear {a b : Text} (h : Clear a b) : Apart a.toKey b.toKey :=
  h.imp before_of_top before_of_top

/-- What is enough for an operation, by the record alone. Kind: D -/
def ClearOf (r : Record) : Operation → Prop
  | .insert ip state => ∀ e ∈ r, Clear ip e.1 ∨ Inside ip.toKey e.1.toKey ∧ 0 ≤ state
  | .addRange ip => ip.Tidy ∧ ∀ e ∈ r, Clear ip e.1 ∨ Inside ip.toKey e.1.toKey
  | .removeRange ip => ∀ e ∈ r, e.1 = ip ∨ Clear ip e.1

instance (r : Record) (op : Operation) : Decidable (ClearOf r op) :=
  match op with
  | .insert _ _ => inferInstanceAs (Decidable (∀ e ∈ r, _))
  | .addRange _ => inferInstanceAs (Decidable (_ ∧ ∀ e ∈ r, _))
  | .removeRange _ => inferInstanceAs (Decidable (∀ e ∈ r, _))

/-- An operation clear of the record passes. Source: `torrent/ipblocklist.cpp`. Kind: L -/
theorem passes_of_clear {s : IPBlocklist × Record} (h : Keeps s.1 s.2) {op : Operation}
    (hop : ClearOf s.2 op) : op.Passes s := by
  have hfits : ∀ {ip : Text} {state : ℤ},
      (∀ e ∈ s.2, Clear ip e.1 ∨ Inside ip.toKey e.1.toKey ∧ 0 ≤ state) →
        ∀ e ∈ s.1.toList, Fits ip.toKey state e.1 := by
    intro ip state hall e he
    obtain ⟨t, ht, hkey⟩ := h.recorded e he
    rw [← hkey]
    exact (hall t ht).imp apart_of_clear fun hin => ⟨hin.1, .inr hin.2⟩
  cases op with
  | insert ip state => exact fun _ => hfits hop
  | addRange ip =>
    exact fun _ => ⟨hop.1, hfits fun e he => (hop.2 e he).imp_right fun hin => ⟨hin, by decide⟩⟩
  | removeRange ip => exact fun _ e he => (hop e he).imp_right apart_of_clear

/-- A run whose operations are clear of what is on record is one that passes.
Source: `torrent/ipblocklist.cpp`. Kind: L -/
theorem meets_of_clear (B : Balance) {ops : List Operation} {s : IPBlocklist × Record}
    (h : Keeps s.1 s.2) (hops : Meets Record.apply ClearOf s.2 ops) :
    Meets (step B) (fun s op => op.Passes s) s ops := by
  induction ops generalizing s with
  | nil => trivial
  | cons op ops ih =>
    have hop := passes_of_clear h hops.1
    exact ⟨hop, ih (s := step B s op) (h.step B hop) hops.2⟩

/-- An address is found guilty once. Kind: D -/
def oneAddress (ip : Text) : List Operation := [.insert ip 1]

/-- An address is found guilty twice, with a range that stays and one that is taken back in between.
Kind: D -/
def guiltyTwice (ip other stays goes : Text) : List Operation :=
  [.insert ip 2, .addRange stays, .insert other 2, .addRange goes, .removeRange goes, .insert ip 2]

/-- The address is blocked, and so is what lies in the range that stays, but not what lies in the
other. Source: `torrent/ipblocklist.cpp`. Kind: L -/
theorem blocked_guiltyTwice :
    [⟨.number 1, .number 2, .number 3, .number 4⟩, ⟨.number 5, .number 6, .number 0, .number 9⟩,
        ⟨.number 7, .number 1, .number 1, .number 1⟩].map
      (fun ip => (run (step unbalanced) (built unbalanced) (guiltyTwice
        ⟨.number 1, .number 2, .number 3, .number 4⟩ ⟨.number 5, .number 6, .number 7, .number 8⟩
        ⟨.number 5, .number 6, .star, .star⟩
        ⟨.number 7, .star, .star, .star⟩)).1.isBlockedLocal ip) = [true, true, false] := by
  have hmeets : Meets (step unbalanced) (fun s op => op.Passes s) (built unbalanced) (guiltyTwice
      ⟨.number 1, .number 2, .number 3, .number 4⟩ ⟨.number 5, .number 6, .number 7, .number 8⟩
      ⟨.number 5, .number 6, .star, .star⟩ ⟨.number 7, .star, .star, .star⟩) :=
    meets_of_clear unbalanced (keeps_built unbalanced) (by
      refine ⟨?_, ?_, ?_, ?_, ?_, ?_, trivial⟩ <;> decide)
  have hall := blocked_run unbalanced hmeets _ List.prefix_rfl
  simp only [List.map_cons, List.map_nil]
  rw [hall _ (by decide), hall _ (by decide), hall _ (by decide)]
  decide

/-- Then the range around the address is added. Kind: D -/
def rangeAround (ip around : Text) : List Operation := oneAddress ip ++ [.addRange around]

/-- **The range is hidden by the address**: the two are not told apart, and what is added is one
more single address. Source: `torrent/ipblocklist.cpp`. Kind: L -/
theorem hidden : ¬ ∀ ip : Text, ip.IsAddress →
    (run (step unbalanced) (built unbalanced) (rangeAround
        ⟨.number 1, .number 2, .number 3, .number 4⟩
        ⟨.number 1, .number 2, .number 3, .star⟩)).1.isBlockedLocal ip =
      (run (step unbalanced) (built unbalanced) (rangeAround
        ⟨.number 1, .number 2, .number 3, .number 4⟩
        ⟨.number 1, .number 2, .number 3, .star⟩)).2.isBlocked ip := by
  intro h
  have h5 := h ⟨.number 1, .number 2, .number 3, .number 5⟩ (by decide)
  revert h5
  decide +kernel

end IPBlocklist

/-! ### The sums of states -/

/-- What an operation adds to a state at most. Kind: D -/
def Operation.weight : Operation → ℤ
  | insert _ state => |state|
  | addRange _ => 3
  | removeRange _ => 0

namespace IPBlocklist

/-- Source: `IPBlocklist::insertRangeIP`. Kind: L -/
theorem abs_insertRangeIP (B : Balance) (key : IPKey) (state : ℤ) {m : IPBlocklist} {b : ℤ}
    (hb : 0 ≤ b) (h : ∀ e ∈ m.toList, |e.2| ≤ b) :
    ∀ e ∈ (m.insertRangeIP B key state).toList, |e.2| ≤ b + |state| := by
  have hold : ∀ e ∈ m.toList, |e.2| ≤ b + |state| := fun e he =>
    (h e he).trans (le_add_of_nonneg_right (abs_nonneg state))
  have hinsert : ∀ (k : IPKey) (st : ℤ), |st| ≤ b + |state| →
      ∀ e ∈ (mapInsert B k st m).toList, |e.2| ≤ b + |state| := by
    intro k st hst e he
    rw [mapInsert, B.toList_balance] at he
    obtain he | hv := Tree.mem_insert he
    · exact hold e he
    · rwa [hv]
  unfold insertRangeIP
  split
  · next k st hfind =>
    have hst : |st| ≤ b := h _ (Tree.mem_of_find hfind)
    split_ifs
    · refine hinsert _ _ ((abs_add_le state st).trans ?_)
      rw [add_comm]
      exact add_le_add_left hst _
    · intro e he
      obtain he | ⟨e₀, he₀, hv⟩ := Tree.mem_update he
      · exact hold e he
      · rw [hv]
        exact (abs_add_le e₀.2 state).trans (add_le_add_left (h e₀ he₀) _)
  · exact hinsert _ _ (le_add_of_nonneg_left hb)

/-- **One operation.**. Source: `torrent/ipblocklist.cpp`. Kind: L -/
theorem abs_apply (B : Balance) (op : Operation) {m : IPBlocklist} {b : ℤ} (hb : 0 ≤ b)
    (h : ∀ e ∈ m.toList, |e.2| ≤ b) : ∀ e ∈ (op.apply B m).toList, |e.2| ≤ b + op.weight := by
  cases op with
  | insert ip state =>
    show ∀ e ∈ (m.insert B ip state).toList, _
    unfold insert
    split
    · exact abs_insertRangeIP B _ state hb h
    · exact fun e he => (h e he).trans (le_add_of_nonneg_right (abs_nonneg state))
  | addRange ip =>
    show ∀ e ∈ (m.addRange B ip).toList, _
    unfold addRange
    split
    · exact abs_insertRangeIP B _ 3 hb h
    · exact fun e he => (h e he).trans (le_add_of_nonneg_right (by simp [Operation.weight]))
  | removeRange ip =>
    show ∀ e ∈ (m.removeRange B ip).toList, |e.2| ≤ b + 0
    rw [add_zero]
    unfold removeRange
    split
    · split
      · intro e he
        rw [B.toList_balance] at he
        exact h e (Tree.mem_erase he)
      · exact h
    · exact h

/-- **The states fit an `int` in every run in which what was added comes to less than `2^31 - 6`.**
Source: `torrent/ipblocklist.h`, `m_peers`. Kind: P -/
theorem abs_run (B : Balance) (ops : List Operation) :
    ∀ e ∈ (run (step B) (built B) ops).1.toList, |e.2| ≤ 6 + (ops.map Operation.weight).sum := by
  have hrun : ∀ (ops : List Operation) (s : IPBlocklist × Record) (b : ℤ), 0 ≤ b →
      (∀ e ∈ s.1.toList, |e.2| ≤ b) →
      ∀ e ∈ (run (step B) s ops).1.toList, |e.2| ≤ b + (ops.map Operation.weight).sum := by
    intro ops
    induction ops with
    | nil => exact fun s b _ h e he => (h e he).trans (le_add_of_nonneg_right le_rfl)
    | cons op ops ih =>
      intro s b hb h e he
      have hweight : 0 ≤ op.weight := by
        cases op with
        | insert ip state => exact abs_nonneg state
        | addRange ip => exact (by decide : (0 : ℤ) ≤ 3)
        | removeRange ip => exact le_rfl
      have hnext := ih (step B s op) (b + op.weight) (add_nonneg hb hweight)
        (abs_apply B op hb h) e he
      rwa [List.map_cons, List.sum_cons, ← add_assoc]
  have hbuilt := hrun Operation.construction (Tree.leaf, []) 0 le_rfl fun e he =>
    absurd he List.not_mem_nil
  exact hrun ops (built B) 6 (by decide) hbuilt

end IPBlocklist

end KTorrent.Filter
