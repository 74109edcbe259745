import Mathlib.Data.List.Range

/-!
# Counting loops whose body touches one component

`forRange lo hi f s` runs `for (i = lo; i < hi; i++) s = f i s`. Most loops over an array do, in
round `i`, something to component `i` alone. For those the whole loop has a closed form, component
by component:

* `obs_forRange` — if round `i` maps the component observed at `i` by `g i` and leaves every other
  component alone, the loop maps each component inside the range by `g` and no other.
* `forRange_inv`, `forRange_reach` — the invariant rule, and the rule for what one round brings
  about, for loops whose rounds do more than that.

The state, the component type and the index type are arbitrary: a component is named by any `ι`
with a key in `ℕ`.
-/

namespace KTorrent.Lib

variable {σ β ι : Type*}

/-- `for (i = lo; i < hi; i++) s = f i s`. -/
def forRange (lo hi : ℕ) (f : ℕ → σ → σ) (s : σ) : σ :=
  (List.range' lo (hi - lo)).foldl (fun s i => f i s) s

/-- A loop over an empty range does nothing. Source: none: infrastructure. Kind: L -/
theorem forRange_of_le {lo hi : ℕ} (h : hi ≤ lo) (f : ℕ → σ → σ) (s : σ) :
    forRange lo hi f s = s := by
  simp [forRange, Nat.sub_eq_zero_of_le h]

/-- The first round, peeled off. Source: none: infrastructure. Kind: L -/
theorem forRange_of_lt {lo hi : ℕ} (h : lo < hi) (f : ℕ → σ → σ) (s : σ) :
    forRange lo hi f s = forRange (lo + 1) hi f (f lo s) := by
  obtain ⟨k, rfl⟩ := Nat.exists_eq_add_of_lt h
  have h1 : lo + k + 1 - lo = k + 1 := by omega
  have h2 : lo + k + 1 - (lo + 1) = k := by omega
  simp only [forRange, h1, h2, List.range'_succ, List.foldl_cons]

/-- The last round, split off. Source: none: infrastructure. Kind: L -/
theorem forRange_succ {lo hi : ℕ} (h : lo ≤ hi) (f : ℕ → σ → σ) (s : σ) :
    forRange lo (hi + 1) f s = f hi (forRange lo hi f s) := by
  have h1 : hi + 1 - lo = hi - lo + 1 := by omega
  have h2 : lo + (hi - lo) = hi := by omega
  simp only [forRange, h1, List.range'_1_concat, h2, List.foldl_append, List.foldl_cons,
    List.foldl_nil]

/-- The invariant rule: what every round preserves, the loop preserves. Source: none:
infrastructure. Kind: L -/
theorem forRange_inv {P : σ → Prop} {lo hi : ℕ} {f : ℕ → σ → σ}
    (hstep : ∀ i, lo ≤ i → i < hi → ∀ s, P s → P (f i s)) {s : σ} (hs : P s) :
    P (forRange lo hi f s) := by
  induction hk : hi - lo generalizing lo s with
  | zero => rwa [forRange_of_le (by omega)]
  | succ k ih =>
    rw [forRange_of_lt (by omega)]
    exact ih (fun i h1 h2 => hstep i (by omega) h2) (hstep lo le_rfl (by omega) s hs) (by omega)

/-- The reach rule: what round `i` brings about and no round undoes holds after the loop.
Source: none: infrastructure. Kind: L -/
theorem forRange_reach {P : σ → Prop} {lo hi i : ℕ} {f : ℕ → σ → σ} (hset : ∀ s, P (f i s))
    (hkeep : ∀ j s, P s → P (f j s)) (h1 : lo ≤ i) (h2 : i < hi) (s : σ) :
    P (forRange lo hi f s) := by
  induction hk : hi - lo generalizing lo s with
  | zero => omega
  | succ k ih =>
    rw [forRange_of_lt (by omega)]
    rcases Nat.eq_or_lt_of_le h1 with rfl | h
    · exact forRange_inv (fun j _ _ => hkeep j) (hset s)
    · exact ih h _ (by omega)

/-- A quantity no round changes is unchanged by the loop. Source: none: infrastructure. Kind: L -/
theorem forRange_frame {γ : Type*} (q : σ → γ) {lo hi : ℕ} {f : ℕ → σ → σ}
    (hstep : ∀ i, lo ≤ i → i < hi → ∀ s, q (f i s) = q s) (s : σ) :
    q (forRange lo hi f s) = q s :=
  forRange_inv (P := fun t => q t = q s) (fun i h1 h2 t ht => (hstep i h1 h2 t).trans ht) rfl

/-- **The closed form of a pointwise loop.** `obs s j` is component `j` of the state and `key j` its
index; round `i` maps the component with key `i` by `g i` and leaves the others alone. Source: none:
infrastructure. Kind: L -/
theorem obs_forRange (obs : σ → ι → β) (key : ι → ℕ) (g : ℕ → β → β) {f : ℕ → σ → σ}
    (hf : ∀ i s j, obs (f i s) j = if key j = i then g i (obs s j) else obs s j)
    (lo hi : ℕ) (s : σ) (j : ι) :
    obs (forRange lo hi f s) j =
      if lo ≤ key j ∧ key j < hi then g (key j) (obs s j) else obs s j := by
  induction hk : hi - lo generalizing lo s with
  | zero =>
    rw [forRange_of_le (by omega), if_neg (by omega)]
  | succ k ih =>
    rw [forRange_of_lt (by omega), ih (lo + 1) (f lo s) (by omega), hf]
    by_cases hj : key j = lo
    · subst hj
      rw [if_neg (by omega), if_pos rfl, if_pos (by omega)]
    · rw [if_neg hj]
      congr 1
      exact propext ⟨fun h => by omega, fun h => by omega⟩

end KTorrent.Lib
