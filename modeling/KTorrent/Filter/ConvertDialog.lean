import KTorrent.Filter.Lookup

/-!
# Converting a list of ranges

The conversion sorts the ranges by a comparison that looks for intersections first, and writes them
one after another, whether they overlap or not. A lookup then looks at one range only: the last one
that starts at or before the address.

* `IPBlock.less`, `Heapsorted`, `convert` — the comparison, what the sort promises, and the file.
* `heapsorted_iff` — the sort gives the orders that are sorted by the first addresses.
* `converts_iff` — which lists are converted to a file that blocks what they cover.
* `nested_hides` — a range inside another one hides the end of that one.

Source: `plugins/ipfilter/convertdialog.cpp`; `plugins/ipfilter/antip2p.cpp`
-/

namespace KTorrent.Filter

open KTorrent.Lib KTorrent.Util

namespace AntiP2P

open IPBlock

/-- A lookup after the file was loaded, or without a file.
Source: `IPFilterPlugin::loadAntiP2P`, `isBlockedIP`. Kind: D -/
def lookup (junk : ℕ → List UInt8) (target : Option (List UInt8)) (ip : ℕ) : Option Bool :=
  match target with
  | none => some false
  | some data => isBlockedIP data (loadHeader junk ⟨data, 0⟩) ip

end AntiP2P

/-! ### The conversion -/

namespace IPBlock

/-- Source: `IPBlock::operator <`. Kind: D -/
def less (a b : IPBlock) : Bool :=
  if a.ip2 < b.ip1 then true
  else if b.ip2 < a.ip1 then false
  else a.ip1 < b.ip1

/-- Between ranges it is the order of the first addresses, intersecting or not.
Source: `IPBlock::operator <`. Kind: L -/
theorem less_iff {a b : IPBlock} (ha : a.ip1 ≤ a.ip2) (hb : b.ip1 ≤ b.ip2) :
    less a b = true ↔ a.ip1 < b.ip1 := by
  unfold less
  split_ifs with h1 h2
  · simp only [true_iff]
    omega
  · simp only [false_iff]
    omega
  · simp

end IPBlock

namespace ConvertDialog

open IPBlock AntiP2P

variable {list l : List IPBlock}

/-- What `qHeapSort` promises: the same ranges, none of them smaller than one before it. The order of
ranges neither of which is smaller is left open. Kind: D -/
structure Heapsorted (list l : List IPBlock) : Prop where
  perm : l.Perm list
  sorted : l.Pairwise fun a b => less b a = false

/-- The lines are counted in an `int`; it is undefined to count on. Kind: D -/
def counter (list : List IPBlock) : Option ℕ :=
  if list.length < 2 ^ 31 then some list.length else none

/-- The file that is left, for the order `l` the sort has given: without a range it is removed.
Source: `ConvertDialog::convert`. Kind: D -/
def convert (l : List IPBlock) : Option (List UInt8) :=
  if l.length ≠ 0 then some (file l) else none

/-- However the sort orders ranges neither of which is smaller, the file is sorted by the first
addresses, and the lookups block exactly what the list covers. Kind: D -/
def Converts (junk : ℕ → List UInt8) (list : List IPBlock) : Prop :=
  (counter list).isSome ∧ ∀ l, Heapsorted list l →
    (l.Pairwise fun a b => a.ip1 ≤ b.ip1) ∧
      ∀ ip < 2 ^ 32, lookup junk (convert l) ip = some (decide (Blocked list ip))

/-- What the comparison makes of a list of ranges. Source: `plugins/ipfilter/convertdialog.cpp`.
Kind: L -/
theorem heapsorted_iff (hrange : ∀ b ∈ list, b.ip1 ≤ b.ip2) :
    Heapsorted list l ↔ l.Perm list ∧ l.Pairwise fun a b => a.ip1 ≤ b.ip1 := by
  have hsame : l.Perm list → ((l.Pairwise fun a b => less b a = false) ↔
      l.Pairwise fun a b => a.ip1 ≤ b.ip1) := by
    intro hperm
    apply List.Pairwise.iff_of_mem
    intro a b ha hb
    rw [← Bool.not_eq_true, less_iff (hrange b (hperm.mem_iff.mp hb)) (hrange a (hperm.mem_iff.mp ha)),
      not_lt]
  constructor
  · intro h
    exact ⟨h.perm, (hsame h.perm).mp h.sorted⟩
  · rintro ⟨hperm, hsorted⟩
    exact ⟨hperm, (hsame hperm).mpr hsorted⟩

/-- The order of the ranges does not matter. Source: none: infrastructure. Kind: L -/
theorem blocked_perm (hperm : l.Perm list) (ip : ℕ) : Blocked l ip ↔ Blocked list ip := by
  constructor
  · rintro ⟨b, hb, hc⟩
    exact ⟨b, hperm.mem_iff.mp hb, hc⟩
  · rintro ⟨b, hb, hc⟩
    exact ⟨b, hperm.mem_iff.mpr hb, hc⟩

/-- The lookups in the file of one order. Source: `IPFilterPlugin::loadAntiP2P`, `isBlockedIP`.
Kind: L -/
theorem lookup_convert_iff (junk : ℕ → List UInt8)
    (hrange : ∀ b ∈ list, b.ip1 ≤ b.ip2 ∧ b.ip2 < 2 ^ 32) (hn : list.length < 2 ^ 31)
    (hperm : l.Perm list) (hsorted : l.Pairwise fun a b => a.ip1 ≤ b.ip1) :
    (∀ ip < 2 ^ 32, lookup junk (convert l) ip = some (decide (Blocked list ip))) ↔ Apparent l := by
  have hsame : ∀ ip, decide (Blocked l ip) = decide (Blocked list ip) := fun ip =>
    decide_eq_decide.mpr (blocked_perm hperm ip)
  by_cases hne : l = []
  · have hno : ∀ ip, ¬ Blocked l ip := by
      rintro ip ⟨b, hb, -⟩
      rw [hne] at hb
      exact List.not_mem_nil hb
    constructor
    · intro _ ip hblocked
      exact absurd hblocked (hno ip)
    · intro _ ip _
      rw [← hsame, decide_eq_false (hno ip), hne]
      rfl
  · have hlen : l.length ≠ 0 := fun h0 => hne (List.length_eq_zero_iff.mp h0)
    have hlt : l.length < 2 ^ 32 := by
      rw [hperm.length_eq]
      omega
    have hordered : Ordered l := ⟨fun b hb => hrange b (hperm.mem_iff.mp hb), hsorted⟩
    rw [← answers_ordered_iff junk hordered hne hlt, convert, if_pos hlen]
    unfold Answers lookup
    simp only [hsame]

/-- A list that is converted as it should be has only orders of that kind.
Source: `plugins/ipfilter/convertdialog.cpp`. Kind: L -/
theorem Converts.apparent {junk : ℕ → List UInt8} (h : Converts junk list)
    (hrange : ∀ b ∈ list, b.ip1 ≤ b.ip2 ∧ b.ip2 < 2 ^ 32) :
    list.length < 2 ^ 31 ∧ ∀ l : List IPBlock, l.Perm list →
      (l.Pairwise fun a b => a.ip1 ≤ b.ip1) → Apparent l := by
  obtain ⟨hcount, hall⟩ := h
  have hn : list.length < 2 ^ 31 := by
    by_contra hge
    rw [counter, if_neg hge] at hcount
    cases hcount
  refine ⟨hn, ?_⟩
  intro l hperm hsorted
  have hsort := (heapsorted_iff fun b hb => (hrange b hb).1).mpr ⟨hperm, hsorted⟩
  exact (lookup_convert_iff junk hrange hn hperm hsorted).mp (hall l hsort).2

/-- **Which lists are converted to a file that blocks what they cover.**.
Source: `plugins/ipfilter/convertdialog.cpp`. Kind: P -/
theorem converts_iff (junk : ℕ → List UInt8) (list : List IPBlock)
    (hrange : ∀ b ∈ list, b.ip1 ≤ b.ip2 ∧ b.ip2 < 2 ^ 32) :
    Converts junk list ↔ list.length < 2 ^ 31 ∧ ∀ l : List IPBlock, l.Perm list →
      (l.Pairwise fun a b => a.ip1 ≤ b.ip1) → Apparent l := by
  constructor
  · intro h
    exact h.apparent hrange
  · rintro ⟨hn, hall⟩
    refine ⟨?_, ?_⟩
    · rw [counter, if_pos hn]
      rfl
    · intro l hsort
      obtain ⟨hperm, hsorted⟩ := (heapsorted_iff fun b hb => (hrange b hb).1).mp hsort
      exact ⟨hsorted, (lookup_convert_iff junk hrange hn hperm hsorted).mpr (hall l hperm hsorted)⟩

/-- Two ranges, the later one first: the file blocks what they cover.
Source: `plugins/ipfilter/convertdialog.cpp`. Kind: L -/
theorem converts_two : Converts (fun _ => []) [⟨5, 9⟩, ⟨1, 2⟩] := by
  refine (converts_iff (fun _ => []) [⟨5, 9⟩, ⟨1, 2⟩] (by decide)).mpr ⟨by decide, ?_⟩
  intro l hperm hsorted
  have hl : l = [⟨1, 2⟩, ⟨5, 9⟩] := by
    have hlast : [(⟨1, 2⟩ : IPBlock), ⟨5, 9⟩].Pairwise fun a b => a.ip1 ≤ b.ip1 := by decide
    refine (hperm.trans (List.Perm.swap _ _ [])).eq_of_pairwise (fun a b ha hb h1 h2 => ?_) hsorted
      hlast
    -- the two ranges start at different addresses
    have hmem : ∀ a ∈ [(⟨5, 9⟩ : IPBlock), ⟨1, 2⟩], ∀ b ∈ [(⟨5, 9⟩ : IPBlock), ⟨1, 2⟩],
        a.ip1 = b.ip1 → a = b := by decide
    exact hmem a (hperm.mem_iff.mp ha) b ((List.Perm.swap _ _ []).mem_iff.mp hb) (le_antisymm h1 h2)
  subst hl
  intro ip hip
  rw [if_neg (fun h => absurd h.1 (by decide))]
  obtain ⟨b, hb, hlow, hhigh⟩ := hip
  simp only [List.mem_cons, List.not_mem_nil, or_false] at hb
  rcases hb with rfl | rfl
  · refine ⟨0, by decide, hlow, fun j hj hpos => ?_, hhigh⟩
    obtain rfl : j = 1 := by
      have : j < 2 := hj
      omega
    exact lt_of_le_of_lt hhigh (by decide)
  · refine ⟨1, by decide, hlow, fun j hj hpos => ?_, hhigh⟩
    have : j < 2 := hj
    omega

/-- **A range inside another one hides its end**: 5 is not blocked.
Source: `plugins/ipfilter/convertdialog.cpp`. Kind: P -/
theorem nested_hides : ¬ ∀ list : List IPBlock, (∀ b ∈ list, b.ip1 ≤ b.ip2 ∧ b.ip2 < 2 ^ 32) →
    Converts (fun _ => []) list := by
  intro h
  have hrange : ∀ b ∈ [(⟨0, 10⟩ : IPBlock), ⟨2, 3⟩], b.ip1 ≤ b.ip2 ∧ b.ip2 < 2 ^ 32 := by decide
  have happ := ((h _ hrange).apparent hrange).2 _ (List.Perm.refl _) (by decide) 5 (by decide)
  revert happ
  decide

end ConvertDialog

end KTorrent.Filter
