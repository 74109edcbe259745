import Mathlib.Data.List.Basic

/-!
# Counted loops whose body can fail

`(List.range n).foldlM body s` runs `for (k = 0; k < n; k++) s = body s k`, with `none` for a body
that fails.

* `foldlM_range_succ` — the last round.
* `foldlM_range_total` — the rule with an invariant: the loop does not fail.
-/

namespace KTorrent.Lib

variable {σ : Type*} {body : σ → ℕ → Option σ}

/-- The last round of a counted loop. Source: none: infrastructure. Kind: L -/
theorem foldlM_range_succ (body : σ → ℕ → Option σ) (n : ℕ) (s : σ) :
    (List.range (n + 1)).foldlM body s =
      ((List.range n).foldlM body s).bind fun s => body s n := by
  rw [List.range_succ, List.foldlM_append]
  simp

/-- Invariant: no round fails, and the invariant holds after the loop. Source: none: infrastructure.
Kind: L -/
theorem foldlM_range_total (Inv : ℕ → σ → Prop) {n : ℕ}
    (hbody : ∀ k s, k < n → Inv k s → ∃ s', body s k = some s' ∧ Inv (k + 1) s') {s : σ}
    (hs : Inv 0 s) : ∃ s', (List.range n).foldlM body s = some s' ∧ Inv n s' := by
  induction n with
  | zero => exact ⟨s, rfl, hs⟩
  | succ n ih =>
    obtain ⟨s₁, hrun, h₁⟩ := ih fun k s hk => hbody k s (by omega)
    obtain ⟨s₂, hstep, h₂⟩ := hbody n s₁ (by omega) h₁
    refine ⟨s₂, ?_, h₂⟩
    rw [foldlM_range_succ, hrun]
    exact hstep

end KTorrent.Lib
