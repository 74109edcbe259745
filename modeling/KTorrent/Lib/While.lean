import Mathlib.Data.Nat.Basic

/-!
# Loops whose body can fail

`whileM cond body out k s` runs `while (cond s) s = body s` for at most `k` rounds. An error of the
body is an error of the loop, and so is `out` when the rounds do not suffice; a loop that does not
end is one that gives `out` for every `k`.

* `whileM_total` — the rule with an invariant and a measure: the loop ends, without an error.
* `whileM_inv` — the rule with an invariant alone, for a loop that has ended.
* `whileM_never` — a loop that does not end.
* `foldlM_inv` — the rule with an invariant for a loop over a list.
-/

namespace KTorrent.Lib

variable {σ ε : Type*} (cond : σ → Prop) [DecidablePred cond] (body : σ → Except ε σ) (out : ε)

/-- `while (cond s) s = body s`, for a number of rounds. -/
def whileM : ℕ → σ → Except ε σ
  | 0, _ => .error out
  | k + 1, s => if cond s then (body s).bind (whileM k) else .ok s

variable {cond body out}

/-- Invariant and measure: the loop ends, and the invariant holds where it does. Source: none:
infrastructure. Kind: L -/
theorem whileM_total (Inv : σ → Prop) (μ : σ → ℕ)
    (hbody : ∀ s, Inv s → cond s → ∃ s', body s = .ok s' ∧ Inv s' ∧ μ s' < μ s) {s : σ} {k : ℕ}
    (hs : Inv s) (hk : μ s < k) : ∃ s', whileM cond body out k s = .ok s' ∧ Inv s' ∧ ¬ cond s' := by
  induction k generalizing s with
  | zero => omega
  | succ k ih =>
    by_cases hc : cond s
    · obtain ⟨s', hb, hs', hlt⟩ := hbody s hs hc
      obtain ⟨s'', hw, h⟩ := ih hs' (by omega)
      refine ⟨s'', ?_, h⟩
      rw [whileM, if_pos hc, hb]
      exact hw
    · refine ⟨s, ?_, hs, hc⟩
      rw [whileM, if_neg hc]

/-- Invariant alone: it holds where the loop has ended. Source: none: infrastructure. Kind: L -/
theorem whileM_inv (Inv : σ → Prop)
    (hbody : ∀ s s', Inv s → cond s → body s = .ok s' → Inv s') {s s' : σ} {k : ℕ} (hs : Inv s)
    (h : whileM cond body out k s = .ok s') : Inv s' := by
  induction k generalizing s with
  | zero => cases h
  | succ k ih =>
    rw [whileM] at h
    by_cases hc : cond s
    · rw [if_pos hc] at h
      cases hb : body s with
      | error e =>
        rw [hb] at h
        cases h
      | ok s₁ =>
        rw [hb] at h
        exact ih (hbody s s₁ hs hc hb) h
    · rw [if_neg hc] at h
      cases h
      exact hs

/-- A loop whose condition holds again after every round. Source: none: infrastructure. Kind: L -/
theorem whileM_never (Inv : σ → Prop)
    (hbody : ∀ s, Inv s → cond s ∧ ∃ s', body s = .ok s' ∧ Inv s') {s : σ} (hs : Inv s) (k : ℕ) :
    whileM cond body out k s = .error out := by
  induction k generalizing s with
  | zero => rfl
  | succ k ih =>
    obtain ⟨hc, s', hb, hs'⟩ := hbody s hs
    rw [whileM, if_pos hc, hb]
    exact ih hs'

/-- Both parts of a sequence give results. Source: none: infrastructure. Kind: L -/
theorem bind_ok_iff {β γ : Type*} {x : Except ε β} {f : β → Except ε γ} {r : γ} :
    x.bind f = .ok r ↔ ∃ a, x = .ok a ∧ f a = .ok r := by
  cases x with
  | error e =>
    constructor
    · intro h
      cases h
    · rintro ⟨a, h, -⟩
      cases h
  | ok a =>
    constructor
    · exact fun h => ⟨a, rfl, h⟩
    · rintro ⟨b, hb, h⟩
      cases hb
      exact h

/-- Where a sequence of two computations fails. Source: none: infrastructure. Kind: L -/
theorem bind_error_iff {β γ : Type*} {x : Except ε β} {f : β → Except ε γ} {e : ε} :
    x.bind f = .error e ↔ x = .error e ∨ ∃ a, x = .ok a ∧ f a = .error e := by
  cases x with
  | error e' =>
    constructor
    · intro h
      cases h
      exact .inl rfl
    · rintro (h | ⟨a, ha, -⟩)
      · cases h
        rfl
      · cases ha
  | ok a =>
    constructor
    · exact fun h => .inr ⟨a, rfl, h⟩
    · rintro (h | ⟨b, hb, h⟩)
      · cases h
      · cases hb
        exact h

/-- Invariant, for a loop over a list. Source: none: infrastructure. Kind: L -/
theorem foldlM_inv {β : Type*} {f : σ → β → Except ε σ} (Inv : σ → Prop)
    (hbody : ∀ s b s', Inv s → f s b = .ok s' → Inv s') {l : List β} {s s' : σ} (hs : Inv s)
    (h : l.foldlM f s = .ok s') : Inv s' := by
  induction l generalizing s with
  | nil =>
    cases h
    exact hs
  | cons b l ih =>
    obtain ⟨s₁, hb, h⟩ := bind_ok_iff.mp h
    exact ih (hbody s b s₁ hs hb) h

end KTorrent.Lib
