import KTorrent.Filter.Blocks

/-!
# Which addresses the file blocks

A lookup looks at one range only: the last one that starts at or before the address.

* `IPBlock.Sorted` — the file is a list of ranges, sorted by their first address, no two of which share
  an address.
* `AntiP2P.Hit` — the address is in the last range that starts at or before it.
* `AntiP2P.lookup_eq` — what a lookup answers, for ranges sorted by their first address that may
  overlap; `AntiP2P.answers_ordered_iff` — when all answers are those of the list.
* `AntiP2P.lookup_iff` — without overlaps every lookup answers, and answers what the list says, if and
  only if the last block is not one short of a full block, and the number of ranges fits a `Uint32`.
* `AntiP2P.nine_ranges` — with nine ranges the last address is not blocked.

Source: `plugins/ipfilter/antip2p.cpp`
-/

namespace KTorrent.Filter

open KTorrent.Lib KTorrent.Util

namespace IPBlock

/-- Sorted by their first address, and no address in two of them. Kind: D -/
structure Sorted (l : List IPBlock) : Prop where
  range : ∀ b ∈ l, b.ip1 ≤ b.ip2 ∧ b.ip2 < 2 ^ 32
  sorted : l.Pairwise fun a b => a.ip1 ≤ b.ip1
  disjoint : l.Pairwise fun a b => ∀ ip, ¬ (a.Contains ip ∧ b.Contains ip)

variable {l : List IPBlock}

namespace Sorted

/-- A sorted list is ordered. Source: `plugins/ipfilter/antip2p.cpp`. Kind: L -/
theorem ordered (h : Sorted l) : Ordered l := ⟨h.range, h.sorted⟩

/-- In a sorted list each range is one, of 32 bits. Source: `plugins/ipfilter/antip2p.cpp`.
Kind: L -/
theorem le (h : Sorted l) {k : ℕ} (hk : k < l.length) :
    (entry l k).ip1 ≤ (entry l k).ip2 ∧ (entry l k).ip2 < 2 ^ 32 := h.ordered.le hk

/-- A range ends before the next one begins. Source: `plugins/ipfilter/antip2p.cpp`. Kind: L -/
theorem lt (h : Sorted l) {i j : ℕ} (hij : i < j) (hj : j < l.length) :
    (entry l i).ip2 < (entry l j).ip1 := by
  have hi : i < l.length := hij.trans hj
  have hs : (entry l i).ip1 ≤ (entry l j).ip1 := h.ordered.mono hij.le hj
  have hd : ∀ ip, ¬ ((entry l i).Contains ip ∧ (entry l j).Contains ip) := by
    rw [entry_eq hi, entry_eq hj]
    exact List.pairwise_iff_get.mp h.disjoint ⟨i, hi⟩ ⟨j, hj⟩ hij
  by_contra hle
  exact hd (entry l j).ip1 ⟨⟨hs, not_lt.mp hle⟩, ⟨le_rfl, (h.le hj).1⟩⟩

/-- There are no more ranges than addresses. Source: `plugins/ipfilter/antip2p.cpp`. Kind: L -/
theorem length_le (h : Sorted l) : l.length ≤ 2 ^ 32 := by
  have hge : ∀ k, k < l.length → k ≤ (entry l k).ip1 := by
    intro k
    induction k with
    | zero => exact fun _ => Nat.zero_le _
    | succ k ih =>
      intro hk
      have h1 := ih (by omega)
      have h2 := h.lt (Nat.lt_add_one k) hk
      have h3 := (h.le (Nat.lt_of_succ_lt hk)).1
      omega
  by_contra hlt
  have h1 := hge (2 ^ 32) (not_le.mp hlt)
  have h2 := h.le (not_le.mp hlt)
  omega

end Sorted

end IPBlock

namespace AntiP2P

open IPBlock

variable {l : List IPBlock}

/-! ### Overlapping ranges -/

/-- The last range that starts at or before the address has it. Kind: D -/
def Hit (l : List IPBlock) (ip : ℕ) : Prop :=
  ∃ k < l.length, (entry l k).ip1 ≤ ip ∧ (∀ j < l.length, k < j → ip < (entry l j).ip1) ∧
    ip ≤ (entry l k).ip2

instance (l : List IPBlock) (ip : ℕ) : Decidable (Hit l ip) :=
  inferInstanceAs (Decidable (∃ k < l.length, _ ∧ _ ∧ _))

/-- There is one such range. Source: `plugins/ipfilter/antip2p.cpp`. Kind: L -/
theorem hit_iff {k ip : ℕ} (hk : k < l.length) (hle : (entry l k).ip1 ≤ ip)
    (hnext : ∀ j < l.length, k < j → ip < (entry l j).ip1) : Hit l ip ↔ ip ≤ (entry l k).ip2 := by
  constructor
  · rintro ⟨t, ht, htle, htnext, hin⟩
    rcases Nat.lt_trichotomy t k with hlt | heq | hlt
    · have := htnext k hk hlt
      omega
    · rwa [← heq]
    · have := hnext t ht hlt
      omega
  · intro hin
    exact ⟨k, hk, hle, hnext, hin⟩

/-- A hit is a range that blocks. Source: `plugins/ipfilter/antip2p.cpp`. Kind: L -/
theorem Hit.blocked {ip : ℕ} (h : Hit l ip) : Blocked l ip := by
  obtain ⟨k, hk, hle, -, hin⟩ := h
  exact (blocked_iff ip).mpr ⟨k, hk, hle, hin⟩

/-- The range a search of the whole list would find. Source: `plugins/ipfilter/antip2p.cpp`.
Kind: L -/
theorem exists_last (h : Ordered l) {lo ip : ℕ} (hlo : lo < l.length)
    (hle : (entry l lo).ip1 ≤ ip) : ∃ k < l.length, lo ≤ k ∧ (entry l k).ip1 ≤ ip ∧
      ∀ j < l.length, k < j → ip < (entry l j).ip1 := by
  have hmono : ∀ i j, 0 ≤ i → i ≤ j → j < 0 + l.length →
      decide ((entry l j).ip1 ≤ ip) = true → decide ((entry l i).ip1 ≤ ip) = true := by
    intro i j _ hij hj hlej
    rw [decide_eq_true_eq] at hlej ⊢
    exact (h.mono hij (by omega)).trans hlej
  obtain ⟨⟨-, hk⟩, hlast, hnext⟩ := bisect_spec (by omega) hmono
  have hge := le_bisect hmono (by omega) (decide_eq_true hle) (by omega)
  refine ⟨_, by omega, hge, ?_, ?_⟩
  · rcases hlast with h0 | htrue
    · exact (h.mono (by omega) hlo).trans hle
    · exact of_decide_eq_true htrue
  · intro j hj hlt
    exact not_le.mp (of_decide_eq_false (hnext j hlt (by omega)))

/-- The search of a part of the file behind which every range starts later.
Source: `AntiP2P::searchFile`. Kind: L -/
theorem searchFile_hit (h : Ordered l) {ip k start len : ℕ} (hlen : 0 < len)
    (hb : k + (start + len) ≤ l.length) (hle : (entry l (k + start)).ip1 ≤ ip)
    (hnext : ∀ j < l.length, k + (start + len) ≤ j → ip < (entry l j).ip1) :
    searchFile (file l) (8 * k) ip start len = some (decide (Hit l ip)) := by
  have hmono : ∀ i j, start ≤ i → i ≤ j → j < start + len →
      decide ((entry l (k + j)).ip1 ≤ ip) = true →
      decide ((entry l (k + i)).ip1 ≤ ip) = true := by
    intro i j _ hij hj hlej
    rw [decide_eq_true_eq] at hlej ⊢
    exact (h.mono (Nat.add_le_add_left hij k) (by omega)).trans hlej
  obtain ⟨⟨hge, hlt⟩, hlast, hafter⟩ := bisect_spec hlen hmono
  rw [searchFile_eq h ip hlen hb]
  set t := bisect (fun i => decide ((entry l (k + i)).ip1 ≤ ip)) start len
  have htle : (entry l (k + t)).ip1 ≤ ip := by
    rcases hlast with h0 | htrue
    · rw [h0]
      exact hle
    · exact of_decide_eq_true htrue
  have hhit := hit_iff (by omega : k + t < l.length) htle (by
    intro j hj hlt'
    by_cases hin : k + (start + len) ≤ j
    · exact hnext j hj hin
    · obtain ⟨i, rfl⟩ := Nat.exists_eq_add_of_le (by omega : k ≤ j)
      exact not_le.mp (of_decide_eq_false (hafter i (by omega) (by omega))))
  refine congrArg some (decide_eq_decide.mpr ?_)
  rw [hhit]
  exact ⟨fun hc => hc.2, fun hin => ⟨htle, hin⟩⟩

/-- **The search of a part that is said to have one range too many**: it reads behind the file as
soon as the last range starts at or before the address. Source: `AntiP2P::searchFile`. Kind: L -/
theorem searchFile_over (h : Ordered l) {ip k : ℕ} (len : ℕ) :
    ∀ start, 2 ≤ len → k + (start + len) = l.length + 1 → (entry l (k + start)).ip1 ≤ ip →
      searchFile (file l) (8 * k) ip start len =
        if (entry l (l.length - 1)).ip1 ≤ ip then none else some (decide (Hit l ip)) := by
  induction len using Nat.strongRecOn with
  | ind len ih =>
    intro start hlen hb hle
    rw [searchFile, if_neg (by omega), if_neg (by omega)]
    by_cases htwo : len = 2
    · have hend : l.length - 1 = k + start := by omega
      have hnone : fileBlock (file l) (8 * k) (start + len / 2) = none := by
        rw [fileBlock, if_neg]
        rw [length_file]
        omega
      rw [hnone, hend, if_pos hle]
      rfl
    · have hmid : fileBlock (file l) (8 * k) (start + len / 2) =
          some (entry l (k + (start + len / 2))) := by
        rw [fileBlock, if_pos (by rw [length_file]; omega),
          show 8 * k + 8 * (start + len / 2) = 8 * (k + (start + len / 2)) by ring,
          ofBytes_file h (by omega)]
      rw [hmid, Option.bind_some]
      by_cases hup : (entry l (k + (start + len / 2))).ip1 ≤ ip
      · rw [if_pos hup]
        exact ih (len - len / 2) (by omega) (start + len / 2) (by omega) (by omega) hup
      · have hafter : ∀ j < l.length, k + (start + len / 2) ≤ j → ip < (entry l j).ip1 := by
          intro j hj hge
          have := h.mono hge hj
          omega
        have hlast := hafter (l.length - 1) (by omega) (by omega)
        rw [if_neg hup, if_neg (by omega)]
        exact searchFile_hit h (by omega) (by omega) hle hafter

/-! ### The block that is found -/

/-- What a lookup makes of the block it finds. Kind: D -/
def answer (data : List UInt8) (b : HeaderBlock) (ip : ℕ) : Option Bool :=
  if b.ip1 ≤ ip ∧ b.ip2 ≥ ip then
    if b.ip1 = ip ∨ b.ip2 = ip then some true else searchFile data b.offset ip 0 b.nrEntries
  else some false

/-- **A lookup finds a block and looks there.**. Source: `AntiP2P::isBlockedIP`. Kind: L -/
theorem isBlockedIP_eq {data : List UInt8} {blocks : List HeaderBlock} (ip : ℕ)
    (hm : 0 < blocks.length)
    (hlt : bisect (fun i => decide ((block blocks i).ip1 ≤ ip)) 0 blocks.length < blocks.length) :
    isBlockedIP data blocks ip = answer data
      (block blocks (bisect (fun i => decide ((block blocks i).ip1 ≤ ip)) 0 blocks.length)) ip := by
  unfold isBlockedIP answer
  rw [searchHeader_eq ip hm (by omega), Option.bind_some]
  set J := bisect (fun i => decide ((block blocks i).ip1 ≤ ip)) 0 blocks.length
  unfold verdict
  by_cases hin : (block blocks J).ip1 ≤ ip ∧ (block blocks J).ip2 ≥ ip
  · rw [if_pos hin, if_pos hin]
    by_cases hends : (block blocks J).ip1 = ip ∨ (block blocks J).ip2 = ip
    · rw [if_pos hends, if_pos hends, if_neg (by norm_num), if_pos rfl]
    · rw [if_neg hends, if_neg hends, if_neg (by omega), if_neg (by omega), Int.toNat_natCast,
        getElem?_block hlt, Option.bind_some]
  · rw [if_neg hin, if_neg hin, if_pos rfl]

/-- A block that has the last address of its last range, and the number of its ranges.
Source: `plugins/ipfilter/antip2p.cpp`. Kind: L -/
theorem answer_whole (h : Ordered l) {ip lo hi : ℕ} (hlt : lo < hi) (hhi : hi ≤ l.length)
    (hnext : ∀ j < l.length, hi ≤ j → ip < (entry l j).ip1)
    (hfirst : (entry l lo).ip1 ≤ ip ∨ lo = 0) :
    answer (file l) ⟨(entry l lo).ip1, (entry l (hi - 1)).ip2, 8 * lo, hi - lo⟩ ip =
      some (decide (Hit l ip)) := by
  unfold answer
  dsimp only
  by_cases hle : (entry l lo).ip1 ≤ ip
  · obtain ⟨k, hk, hlok, hkle, hknext⟩ := exists_last h (by omega : lo < l.length) hle
    have hhit := hit_iff hk hkle hknext
    have hkhi : k < hi := by
      by_contra hge
      have := hnext k hk (not_lt.mp hge)
      omega
    have hlast := h.le (by omega : hi - 1 < l.length)
    have hkrange := h.le hk
    -- either the last range of the block is the one that is looked at, or it starts later
    have hend : k = hi - 1 ∨ ip < (entry l (hi - 1)).ip1 := by
      by_cases heq : k = hi - 1
      · exact Or.inl heq
      · exact Or.inr (hknext (hi - 1) (by omega) (by omega))
    by_cases hin : (entry l (hi - 1)).ip2 ≥ ip
    · rw [if_pos ⟨hle, hin⟩]
      by_cases hends : (entry l lo).ip1 = ip ∨ (entry l (hi - 1)).ip2 = ip
      · rw [if_pos hends]
        refine congrArg some (decide_eq_true (hhit.mpr ?_)).symm
        rcases hends with heq | heq
        · have := h.mono hlok hk
          omega
        · rcases hend with hkeq | hlater
          · rw [hkeq]
            exact heq.ge
          · omega
      · rw [if_neg hends]
        exact searchFile_hit h (by omega) (by omega) (by rwa [Nat.add_zero])
          (fun j hj hge => hnext j hj (by omega))
    · rw [if_neg (fun hc => hin hc.2)]
      refine congrArg some (decide_eq_false fun hc => ?_).symm
      have hc' := hhit.mp hc
      rcases hend with hkeq | hlater
      · rw [hkeq] at hc'
        omega
      · omega
  · rw [if_neg (fun hc => hle hc.1)]
    refine congrArg some (decide_eq_false ?_).symm
    rintro ⟨k, hk, hkle, -, -⟩
    rcases hfirst with hc | h0
    · exact hle hc
    · have := h.mono (by omega : lo ≤ k) hk
      omega

/-- A block that has the last address of its first range, and a range too many.
Source: `plugins/ipfilter/antip2p.cpp`. Kind: L -/
theorem answer_over (h : Ordered l) {ip lo bs : ℕ} (hbs : 2 ≤ bs) (hn : lo + bs = l.length + 1)
    (hle : (entry l lo).ip1 ≤ ip) :
    answer (file l) ⟨(entry l lo).ip1, (entry l lo).ip2, 8 * lo, bs⟩ ip =
      if (entry l lo).ip2 < ip then some false
      else if ip = (entry l lo).ip1 ∨ ip = (entry l lo).ip2 then some true
      else if (entry l (l.length - 1)).ip1 ≤ ip then none else some (decide (Hit l ip)) := by
  unfold answer
  dsimp only
  by_cases hin : (entry l lo).ip2 < ip
  · rw [if_neg (by omega), if_pos hin]
  · rw [if_pos ⟨hle, not_lt.mp hin⟩, if_neg hin]
    by_cases hends : ip = (entry l lo).ip1 ∨ ip = (entry l lo).ip2
    · rw [if_pos hends, if_pos (by omega)]
    · rw [if_neg hends, if_neg (by omega)]
      exact searchFile_over h bs 0 hbs (by omega) (by rwa [Nat.add_zero])

/-! ### All lookups -/

/-- The number of ranges is one short of whole blocks. Kind: D -/
def Short (l : List IPBlock) : Prop := l.length % blocksize l.length = blocksize l.length - 1

instance (l : List IPBlock) : Decidable (Short l) := inferInstanceAs (Decidable (_ = _))

/-- The first range of what comes behind the whole blocks. Kind: D -/
def lead (l : List IPBlock) : IPBlock := entry l (l.length / blocksize l.length * blocksize l.length)

/-- A block has at least ten entries. Source: `AntiP2P::loadHeader`, `blocksize`. Kind: L -/
theorem ten_le_blocksize (n : ℕ) : 10 ≤ blocksize n := by
  unfold blocksize
  split_ifs
  · exact le_rfl
  · norm_num

/-- What a lookup answers from the last block of a short file on. Kind: D -/
def shortAnswer (l : List IPBlock) (ip : ℕ) : Option Bool :=
  if (lead l).ip2 < ip then some false
  else if ip = (lead l).ip1 ∨ ip = (lead l).ip2 then some true
  else if (entry l (l.length - 1)).ip1 ≤ ip then none else some (decide (Hit l ip))

/-- The block that is found is the last one that begins at or before the address.
Source: `plugins/ipfilter/antip2p.cpp`. Kind: L -/
theorem Begins.found (h : Ordered l) {blocks : List HeaderBlock} {bs : ℕ}
    (hb : Begins l blocks bs) (hall : l.length ≤ blocks.length * bs) (hne : l ≠ []) (ip : ℕ) :
    ∃ J < blocks.length, isBlockedIP (file l) blocks ip = answer (file l) (block blocks J) ip ∧
      J = bisect (fun i => decide ((block blocks i).ip1 ≤ ip)) 0 blocks.length ∧
      ((entry l (J * bs)).ip1 ≤ ip ∨ J = 0) ∧
      ∀ j < l.length, J * bs + bs ≤ j → ip < (entry l j).ip1 := by
  have hpos : 0 < l.length := List.length_pos_iff.mpr hne
  have hm : 0 < blocks.length := by
    by_contra h0
    rw [Nat.eq_zero_of_not_pos h0, Nat.zero_mul] at hall
    omega
  obtain ⟨⟨-, hJ⟩, hlast, hafter⟩ := bisect_spec hm (hb.mono h ip)
  rw [Nat.zero_add] at hJ
  refine ⟨_, hJ, isBlockedIP_eq ip hm hJ, rfl, ?_, ?_⟩
  · rcases hlast with h0 | htrue
    · exact Or.inr h0
    · rw [decide_eq_true_eq, hb.first _ hJ] at htrue
      exact Or.inl htrue
  · intro j hj hge
    set J := bisect (fun i => decide ((block blocks i).ip1 ≤ ip)) 0 blocks.length
    have hnext : J + 1 < blocks.length := by
      by_contra hno
      have heq : J + 1 = blocks.length := by omega
      rw [← heq, Nat.succ_mul] at hall
      omega
    have hfalse := hafter (J + 1) (Nat.lt_succ_self J) (by omega)
    rw [decide_eq_false_iff_not, hb.first _ hnext, Nat.succ_mul, not_le] at hfalse
    exact hfalse.trans_le (h.mono hge hj)

/-- **With blocks that cover the list a lookup looks at one range.**.
Source: `AntiP2P::isBlockedIP`. Kind: L -/
theorem Covers.isBlockedIP (h : Ordered l) (hne : l ≠ []) {blocks : List HeaderBlock} {bs : ℕ}
    (hbs : 0 < bs) (hb : Covers l blocks bs) (ip : ℕ) :
    isBlockedIP (file l) blocks ip = some (decide (Hit l ip)) := by
  obtain ⟨J, hJ, heq, -, hfirst, hlater⟩ := hb.toBegins.found h hb.all hne ip
  have hbound := hb.bound J hJ
  have hlen : min bs (l.length - J * bs) = min (J * bs + bs) l.length - J * bs := by omega
  have hblock : block blocks J = ⟨(entry l (J * bs)).ip1,
      (entry l (min (J * bs + bs) l.length - 1)).ip2, 8 * (J * bs),
      min (J * bs + bs) l.length - J * bs⟩ := by
    rw [← hb.first J hJ, ← hb.last J hJ, ← hb.offset J hJ, ← hlen, ← hb.count J hJ]
  rw [heq, hblock]
  apply answer_whole h (by omega) (by omega)
  · intro j hj hge
    exact hlater j hj (by omega)
  · exact hfirst.imp_right fun h0 => by rw [h0, Nat.zero_mul]

/-- **What a lookup answers.** Source: `AntiP2P::loadHeader`, `isBlockedIP`. Kind: P -/
theorem lookup_eq (junk : ℕ → List UInt8) (h : Ordered l) (hne : l ≠ []) (hn : l.length < 2 ^ 32)
    (ip : ℕ) : isBlockedIP (file l) (loadHeader junk ⟨file l, 0⟩) ip =
      if Short l ∧ (lead l).ip1 ≤ ip then shortAnswer l ip else some (decide (Hit l ip)) := by
  have hload : loadHeader junk ⟨file l, 0⟩ =
      header l (l.length % 2 ^ 32) (blocksize (l.length % 2 ^ 32)) := loadHeader_eq h junk
  rw [hload, Nat.mod_eq_of_lt hn]
  have hbs := ten_le_blocksize l.length
  by_cases hshort : Short l
  · have hcut : l.length % blocksize l.length = blocksize l.length - 1 := hshort
    have hlead : lead l = entry l (l.length / blocksize l.length * blocksize l.length) := rfl
    unfold shortAnswer
    rw [hlead]
    generalize blocksize l.length = bs at hbs hcut ⊢
    have hdm := Nat.div_add_mod l.length bs
    rw [Nat.mul_comm] at hdm
    have hall : l.length ≤ (header l l.length bs).length * bs := by
      rw [length_header, if_neg (by omega), Nat.succ_mul]
      omega
    obtain ⟨J, hJ, heq, -, hfirst, hlater⟩ :=
      (begins_header l l.length (by omega : 0 < bs)).found h hall hne ip
    rw [heq]
    rcases block_header hJ with ⟨hle, hblock⟩ | ⟨hJq, hlt, hblock⟩
    · -- a whole block
      have hq : J + 1 ≤ l.length / bs := by
        rw [Nat.le_div_iff_mul_le (by omega), Nat.succ_mul]
        exact hle
      have hqm := Nat.mul_le_mul_right bs hq
      rw [Nat.succ_mul] at hqm
      have hbehind := hlater (l.length / bs * bs) (by omega) hqm
      rw [if_neg (fun hc => absurd hc.2 (not_le.mpr hbehind)), hblock, fullBlock]
      have hans := @answer_whole l h ip (J * bs) (J * bs + bs) (by omega) hle hlater
        (hfirst.imp_right fun h0 => by rw [h0, Nat.zero_mul])
      rwa [Nat.add_sub_cancel_left] at hans
    · -- the last block
      rw [← hJq] at hdm ⊢
      rw [hblock, lastBlock, if_neg hlt.ne', if_neg (by omega)]
      by_cases hle : (entry l (J * bs)).ip1 ≤ ip
      · rw [if_pos ⟨hshort, hle⟩]
        exact answer_over h (by omega) (by omega) hle
      · -- the address lies before all ranges
        rw [if_neg (fun hc => hle hc.2)]
        have hJ0 : J = 0 := hfirst.resolve_left hle
        unfold answer block
        rw [List.getD_cons_zero, if_neg (fun hc => hle hc.1)]
        refine congrArg some (decide_eq_false ?_).symm
        rintro ⟨k, hk, hkle, -, -⟩
        have := h.mono (by rw [hJ0]; omega : J * bs ≤ k) hk
        omega
  · rw [if_neg (fun hc => hshort hc.1)]
    exact (covers_header (by omega) rfl hshort).isBlockedIP h hne (by omega) ip

/-- Every lookup answers, and answers what the list says. Kind: D -/
def Answers (junk : ℕ → List UInt8) (l : List IPBlock) : Prop :=
  ∀ ip, ip < 2 ^ 32 → isBlockedIP (file l) (loadHeader junk ⟨file l, 0⟩) ip = some (decide (Blocked l ip))

/-- Each address a range has is in the last range that starts at or before it; in a short file, from
the last block on, it is the first or last address of the block's first range, or before that last
address and before the last range, too. Kind: D -/
def Apparent (l : List IPBlock) : Prop :=
  ∀ ip, Blocked l ip →
    if Short l ∧ (lead l).ip1 ≤ ip then
      ip = (lead l).ip1 ∨ ip = (lead l).ip2 ∨
        ip < (lead l).ip2 ∧ ip < (entry l (l.length - 1)).ip1 ∧ Hit l ip
    else Hit l ip

/-- **When all answers are those of the list.**. Source: `plugins/ipfilter/antip2p.cpp`. Kind: L -/
theorem answers_ordered_iff (junk : ℕ → List UInt8) (h : Ordered l) (hne : l ≠ [])
    (hn : l.length < 2 ^ 32) : Answers junk l ↔ Apparent l := by
  have hpos : 0 < l.length := List.length_pos_iff.mpr hne
  have hlead : l.length / blocksize l.length * blocksize l.length ≤ l.length :=
    Nat.div_mul_le_self _ _
  constructor
  · intro hall ip hblocked
    have hlt : ip < 2 ^ 32 := by
      obtain ⟨b, hb, hc⟩ := hblocked
      exact hc.2.trans_lt (h.range b hb).2
    have hip := hall ip hlt
    rw [lookup_eq junk h hne hn, decide_eq_true hblocked] at hip
    by_cases hs : Short l ∧ (lead l).ip1 ≤ ip
    · rw [if_pos hs] at hip ⊢
      unfold shortAnswer at hip
      by_cases h1 : (lead l).ip2 < ip
      · rw [if_pos h1] at hip
        cases hip
      · rw [if_neg h1] at hip
        by_cases h2 : ip = (lead l).ip1 ∨ ip = (lead l).ip2
        · exact h2.imp_right Or.inl
        · rw [if_neg h2] at hip
          by_cases h3 : (entry l (l.length - 1)).ip1 ≤ ip
          · rw [if_pos h3] at hip
            cases hip
          · rw [if_neg h3, Option.some.injEq, decide_eq_true_eq] at hip
            exact Or.inr (Or.inr ⟨by omega, not_le.mp h3, hip⟩)
    · rw [if_neg hs] at hip ⊢
      rwa [Option.some.injEq, decide_eq_true_eq] at hip
  · intro hright ip _
    rw [lookup_eq junk h hne hn]
    by_cases hblocked : Blocked l ip
    · have hip := hright ip hblocked
      rw [decide_eq_true hblocked]
      by_cases hs : Short l ∧ (lead l).ip1 ≤ ip
      · rw [if_pos hs] at hip ⊢
        have hrange : (lead l).ip1 ≤ (lead l).ip2 := by
          apply (h.le _).1
          have hmod := Nat.div_add_mod l.length (blocksize l.length)
          have hbs := ten_le_blocksize l.length
          have hcount : l.length % blocksize l.length = blocksize l.length - 1 := hs.1
          rw [Nat.mul_comm] at hmod
          omega
        unfold shortAnswer
        rcases hip with heq | heq | ⟨h1, h3, hhit⟩
        · rw [if_neg (by omega), if_pos (Or.inl heq)]
        · rw [if_neg (by omega), if_pos (Or.inr heq)]
        · rw [if_neg (by omega)]
          by_cases h2 : ip = (lead l).ip1 ∨ ip = (lead l).ip2
          · rw [if_pos h2]
          · rw [if_neg h2, if_neg (by omega), decide_eq_true hhit]
      · rw [if_neg hs] at hip ⊢
        rw [decide_eq_true hip]
    · rw [decide_eq_false hblocked]
      by_cases hs : Short l ∧ (lead l).ip1 ≤ ip
      · have hcount : l.length % blocksize l.length = blocksize l.length - 1 := hs.1
        have hmod := Nat.div_add_mod l.length (blocksize l.length)
        have hbs := ten_le_blocksize l.length
        rw [Nat.mul_comm] at hmod
        have hout : (lead l).ip2 < ip := by
          by_contra hin
          exact hblocked ((blocked_iff ip).mpr ⟨_, by omega, hs.2, not_lt.mp hin⟩)
        rw [if_pos hs, shortAnswer, if_pos hout]
      · rw [if_neg hs, decide_eq_false fun hhit => hblocked hhit.blocked]

/-! ### Without overlaps -/

/-- **The search of the blocks finds the block of the range that has the address.**.
Source: `plugins/ipfilter/antip2p.cpp`. Kind: L -/
theorem Begins.div_eq_bisect (h : Sorted l) {blocks : List HeaderBlock} {bs : ℕ}
    (hb : Begins l blocks bs) (hall : l.length ≤ blocks.length * bs) {ip k : ℕ} (hk : k < l.length)
    (hc : (entry l k).Contains ip) :
    k / bs = bisect (fun i => decide ((block blocks i).ip1 ≤ ip)) 0 blocks.length := by
  have hne : l ≠ [] := by
    rintro rfl
    exact absurd hk (Nat.not_lt_zero k)
  obtain ⟨J, hJ, -, hbisect, hfirst, hlater⟩ := hb.found h.ordered hall hne ip
  rw [← hbisect]
  obtain ⟨hlo, hhi⟩ := hc
  apply Nat.div_eq_of_lt_le
  · by_contra hlt
    rcases hfirst with hle | h0
    · have hnext := h.lt (not_le.mp hlt) (hb.bound J hJ)
      omega
    · rw [h0, Nat.zero_mul] at hlt
      exact hlt (Nat.zero_le k)
  · rw [Nat.succ_mul]
    by_contra hge
    have hbehind := hlater k hk (not_lt.mp hge)
    omega

/-- **Every address is a range of its own**: the number of ranges is zero for the code, and the last
block is empty. Source: `AntiP2P::isBlockedIP`. Kind: L -/
theorem isBlockedIP_full (h : Sorted l) (hn : l.length = 2 ^ 32) :
    isBlockedIP (file l) (header l 0 10) (entry l (2 ^ 32 - 2)).ip1 = some false := by
  have hlen : (header l 0 10).length = 429496730 := by
    rw [length_header, hn]
    norm_num
  have hall : l.length ≤ (header l 0 10).length * 10 := by
    rw [hlen, hn]
    norm_num
  have hne : l ≠ [] := by
    rintro rfl
    cases hn
  have hb := begins_header l 0 (by norm_num : 0 < 10)
  have hr := h.le (by omega : 2 ^ 32 - 2 < l.length)
  obtain ⟨J, hJlt, heq, hbisect, -, -⟩ := hb.found h.ordered hall hne (entry l (2 ^ 32 - 2)).ip1
  have hJ : J = 429496729 := by
    rw [hbisect, ← hb.div_eq_bisect h hall (by omega : 2 ^ 32 - 2 < l.length)
      ⟨le_rfl, hr.1⟩]
    norm_num
  have hblock : block (header l 0 10) 429496729 =
      ⟨(entry l 4294967290).ip1, (entry l 4294967295).ip2, 34359738320, 0⟩ := by
    have hdiv : l.length / 10 = 429496729 := by
      rw [hn]
      norm_num
    rw [header, hdiv, block_right, lastBlock, if_neg (by omega), if_pos (by omega), hn]
    rfl
  have h1 := h.lt (by norm_num : 4294967290 < 2 ^ 32 - 2) (by omega)
  have h2 := h.lt (by norm_num : 2 ^ 32 - 2 < 4294967295) (by omega)
  have h3 := h.le (by omega : 4294967290 < l.length)
  have h4 := h.le (by omega : 4294967295 < l.length)
  rw [heq, hJ, hblock]
  unfold answer
  dsimp only
  rw [if_pos ⟨by omega, by omega⟩, if_neg (by omega), searchFile, if_pos rfl]

/-- Without overlaps the last range that starts at or before an address is the only one that can
have it. Source: `plugins/ipfilter/antip2p.cpp`. Kind: L -/
theorem hit_iff_blocked (h : Sorted l) (ip : ℕ) : Hit l ip ↔ Blocked l ip := by
  constructor
  · exact Hit.blocked
  · intro hblocked
    obtain ⟨k, hk, hlo, hhi⟩ := (blocked_iff ip).mp hblocked
    refine ⟨k, hk, hlo, ?_, hhi⟩
    intro j hj hlt
    exact hhi.trans_lt (h.lt hlt hj)

/-- **One range short**: the last address of the file is not found.
Source: `plugins/ipfilter/antip2p.cpp`. Kind: L -/
theorem not_apparent (h : Sorted l) (hs : Short l) : ¬ Apparent l := by
  intro happ
  have hcut : l.length % blocksize l.length = blocksize l.length - 1 := hs
  have hbs := ten_le_blocksize l.length
  have hdm := Nat.div_add_mod l.length (blocksize l.length)
  rw [Nat.mul_comm] at hdm
  have hend : l.length - 1 < l.length := by omega
  have hlast := h.le hend
  have hlt : (lead l).ip2 < (entry l (l.length - 1)).ip1 := h.lt (by omega) hend
  have hlead : (lead l).ip1 ≤ (lead l).ip2 := (h.le (by omega)).1
  have hip := happ (entry l (l.length - 1)).ip2 ((blocked_iff _).mpr ⟨_, hend, hlast.1, le_rfl⟩)
  rw [if_pos ⟨hs, by omega⟩] at hip
  omega

/-- **When every lookup is right**: exactly if the last block is not one short of a full block, and the
number of ranges fits a `Uint32`. Source: `AntiP2P::loadHeader`, `isBlockedIP`. Kind: P -/
theorem lookup_iff (junk : ℕ → List UInt8) (h : Sorted l) (hne : l ≠ []) : Answers junk l ↔
    l.length < 2 ^ 32 ∧ l.length % blocksize l.length ≠ blocksize l.length - 1 := by
  constructor
  · intro hall
    have hn : l.length < 2 ^ 32 := by
      by_contra hle
      have hn : l.length = 2 ^ 32 := Nat.le_antisymm h.length_le (not_lt.mp hle)
      have hlt : 2 ^ 32 - 2 < l.length := by omega
      have hr := h.le hlt
      have hip := hall (entry l (2 ^ 32 - 2)).ip1 (by omega)
      have hload : loadHeader junk ⟨file l, 0⟩ =
          header l (l.length % 2 ^ 32) (blocksize (l.length % 2 ^ 32)) := loadHeader_eq h.ordered junk
      rw [hload, hn, Nat.mod_self, show blocksize 0 = 10 from rfl, isBlockedIP_full h hn,
        decide_eq_true ((blocked_iff _).mpr ⟨_, hlt, le_rfl, hr.1⟩)] at hip
      cases hip
    exact ⟨hn, fun hs => not_apparent h hs ((answers_ordered_iff junk h.ordered hne hn).mp hall)⟩
  · rintro ⟨hn, hs⟩
    apply (answers_ordered_iff junk h.ordered hne hn).mpr
    intro ip hblocked
    rw [if_neg fun hc => hs hc.1]
    exact (hit_iff_blocked h ip).mpr hblocked

/-- Single addresses, every second one. Kind: D -/
def singles (n : ℕ) : List IPBlock := (List.range n).map fun i => ⟨2 * i, 2 * i⟩

/-- The sample's list is sorted. Source: `plugins/ipfilter/antip2p.cpp`. Kind: L -/
theorem sorted_singles {n : ℕ} (hn : n ≤ 2 ^ 31) : Sorted (singles n) := by
  refine ⟨fun b hb => ?_, ?_, ?_⟩
  · obtain ⟨i, hi, rfl⟩ := List.mem_map.mp hb
    have hlt := List.mem_range.mp hi
    exact ⟨le_rfl, show 2 * i < 2 ^ 32 by omega⟩
  · refine List.pairwise_map.mpr (List.pairwise_lt_range.imp fun {i j} hij => ?_)
    show 2 * i ≤ 2 * j
    omega
  · refine List.pairwise_map.mpr (List.pairwise_lt_range.imp fun {i j} hij => ?_)
    rintro ip ⟨⟨-, h1⟩, h2, -⟩
    have h3 : 2 * j ≤ 2 * i := h2.trans h1
    omega

/-- Eight ranges are looked up rightly, nine are not. Source: `plugins/ipfilter/antip2p.cpp`.
Kind: L -/
theorem lookup_singles : Answers (fun _ => []) (singles 8) ∧ ¬ Answers (fun _ => []) (singles 9) := by
  refine ⟨(lookup_iff _ (sorted_singles (by norm_num)) (by decide)).mpr ⟨by decide, by decide⟩, ?_⟩
  rw [lookup_iff _ (sorted_singles (by norm_num)) (by decide)]
  exact fun h => h.2 (by decide)

/-- **With nine ranges the last address is not blocked.**. Source: `plugins/ipfilter/antip2p.cpp`.
Kind: L -/
theorem nine_ranges : ¬ Answers (fun _ => []) (singles 9) := by
  intro h
  have hs : Sorted (singles 9) := sorted_singles (by norm_num)
  have happ := (answers_ordered_iff _ hs.ordered (by decide) (by decide)).mp h
  exact not_apparent hs (by decide) happ

end AntiP2P

end KTorrent.Filter
