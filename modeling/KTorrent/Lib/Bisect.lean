import Mathlib.Algebra.Order.Group.Nat
import Mathlib.Order.Basic

/-!
# Halving an interval

The interval `[start, start + len)` is halved until one index is left: the upper half is taken if the
index in the middle has the property, else the lower half. For a property that, once lost, does not come
back, the index that is left is the last one that has it, or the first of the interval.

* `bisect` — the index that is left.
* `bisect_spec` — which index that is.
* `le_bisect` — an index that has the property is not behind it.
-/

namespace KTorrent.Lib

/-- The index that is left when `[start, start + len)` is halved. -/
def bisect (p : ℕ → Bool) (start len : ℕ) : ℕ :=
  if len ≤ 1 then start
  else if p (start + len / 2) then bisect p (start + len / 2) (len - len / 2)
  else bisect p start (len / 2)
termination_by len
decreasing_by
  · omega
  · omega

variable {p : ℕ → Bool}

/-- The search ends at the last position, from the start on, where `p` holds. Source: none:
infrastructure. Kind: L -/
theorem bisect_spec {start len : ℕ} (hlen : 0 < len)
    (hp : ∀ i j, start ≤ i → i ≤ j → j < start + len → p j = true → p i = true) :
    (start ≤ bisect p start len ∧ bisect p start len < start + len) ∧
      (bisect p start len = start ∨ p (bisect p start len) = true) ∧
      ∀ j, bisect p start len < j → j < start + len → p j = false := by
  induction start, len using bisect.induct p with
  | case1 start len h1 =>
    rw [bisect, if_pos h1]
    refine ⟨⟨le_rfl, by omega⟩, Or.inl rfl, fun j hj hj' => ?_⟩
    omega
  | case2 start len h1 hmid ih =>
    rw [bisect, if_neg h1, if_pos hmid]
    obtain ⟨⟨hlo, hhi⟩, hlast, habove⟩ := ih (by omega) fun i j hi hij hj =>
      hp i j (by omega) hij (by omega)
    refine ⟨⟨by omega, by omega⟩, Or.inr ?_, fun j hj hj' => habove j hj (by omega)⟩
    rcases hlast with heq | htrue
    · rw [heq]
      exact hmid
    · exact htrue
  | case3 start len h1 hmid ih =>
    rw [bisect, if_neg h1, if_neg hmid]
    obtain ⟨⟨hlo, hhi⟩, hlast, habove⟩ := ih (by omega) fun i j hi hij hj =>
      hp i j hi hij (by omega)
    refine ⟨⟨hlo, by omega⟩, hlast, fun j hj hj' => ?_⟩
    by_cases hjm : j < start + len / 2
    · exact habove j hj hjm
    · by_contra hpj
      exact hmid (hp _ j (by omega) (not_lt.mp hjm) hj' (Bool.not_eq_false _ ▸ hpj))

/-- An index that has the property is not behind the one that is left. Source: none: infrastructure.
Kind: L -/
theorem le_bisect {start len : ℕ}
    (hp : ∀ i j, start ≤ i → i ≤ j → j < start + len → p j = true → p i = true) {k : ℕ}
    (hk : k < start + len) (hpk : p k = true) (hlen : 0 < len) : k ≤ bisect p start len := by
  by_contra hlt
  have hfalse := (bisect_spec hlen hp).2.2 k (not_le.mp hlt) hk
  rw [hpk] at hfalse
  cases hfalse

end KTorrent.Lib
