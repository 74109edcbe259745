import Mathlib.Data.List.Infix

/-!
# Runs of a deterministic machine, with a condition on each step

A machine is a step function `step : σ → α → σ`; a run is a list of actions. `Meets step ok s as`
says that every action of the run satisfies `ok` in the state it is applied to.

* `run_inv` — an invariant preserved by every step holds after every run.
* `Meets.invariant` — the induction rule: an invariant preserved by every admissible step holds
  after every admissible run, hence (`Meets.invariant_at`) in every state the run passes.
* `invariant_at_iff_meets` — when `ok` is *exactly* what a step from an invariant state needs
  to keep the invariant, the runs that stay inside the invariant are exactly the runs that meet
  `ok`. This is the form in which an exact condition on single steps becomes one on whole runs.
* `good_at_iff_meets` — the same for the runs a caller promises to make.

Nothing here names a particular machine.
-/

namespace KTorrent.Lib

variable {σ α : Type*} (step : σ → α → σ)

/-- The state after a list of actions, oldest first. -/
def run (s : σ) (as : List α) : σ := as.foldl step s

/-- A run of no actions. Source: none: infrastructure. Kind: L -/
@[simp] theorem run_nil (s : σ) : run step s [] = s := rfl

/-- The first action of a run. Source: none: infrastructure. Kind: L -/
@[simp] theorem run_cons (s : σ) (a : α) (as : List α) :
    run step s (a :: as) = run step (step s a) as := rfl

/-- A run split in two. Source: none: infrastructure. Kind: L -/
theorem run_append (s : σ) (as bs : List α) :
    run step s (as ++ bs) = run step (run step s as) bs := by
  simp [run, List.foldl_append]

/-- What every step preserves holds after every run. Source: none: infrastructure. Kind: L -/
theorem run_inv {step : σ → α → σ} {Inv : σ → Prop} (hstep : ∀ s a, Inv s → Inv (step s a)) {s : σ}
    (hs : Inv s) (as : List α) : Inv (run step s as) := by
  induction as generalizing s with
  | nil => exact hs
  | cons a as ih => exact ih (hstep s a hs)

/-- Every action of the run satisfies `ok` in the state it is applied to. -/
def Meets (ok : σ → α → Prop) : σ → List α → Prop
  | _, [] => True
  | s, a :: as => ok s a ∧ Meets ok (step s a) as

variable {step} {ok : σ → α → Prop} {Inv : σ → Prop}

/-- A run of no actions meets every condition. Source: none: infrastructure. Kind: L -/
@[simp] theorem meets_nil (s : σ) : Meets step ok s [] := trivial

/-- The first action meets it, and the rest from there. Source: none: infrastructure. Kind: L -/
@[simp] theorem meets_cons {s : σ} {a : α} {as : List α} :
    Meets step ok s (a :: as) ↔ ok s a ∧ Meets step ok (step s a) as := Iff.rfl

/-- A run meets the condition iff its two halves do, the second from where the first ends.
Source: none: infrastructure. Kind: L -/
theorem meets_append {s : σ} {as bs : List α} :
    Meets step ok s (as ++ bs) ↔ Meets step ok s as ∧ Meets step ok (run step s as) bs := by
  induction as generalizing s with
  | nil => simp
  | cons a as ih => simp only [List.cons_append, meets_cons, ih, run_cons, and_assoc]

/-- The condition is inherited by every prefix of a run. Source: none: infrastructure. Kind: L -/
theorem Meets.restrict {s : σ} {as bs : List α} (h : Meets step ok s bs) (hp : as <+: bs) :
    Meets step ok s as := by
  obtain ⟨cs, rfl⟩ := hp
  exact (meets_append.mp h).1

/-- A run meets a condition that always holds. Source: none: infrastructure. Kind: L -/
theorem meets_true (s : σ) (as : List α) : Meets step (fun _ _ => True) s as := by
  induction as generalizing s with
  | nil => trivial
  | cons a as ih => exact ⟨trivial, ih (step s a)⟩

/-- Conditions that agree at every step of a run are met by it together. Source: none:
infrastructure. Kind: L -/
theorem Meets.congr {ok' : σ → α → Prop} {s : σ} {as : List α}
    (h : Meets step (fun s a => ok s a ↔ ok' s a) s as) :
    Meets step ok s as ↔ Meets step ok' s as := by
  induction as generalizing s with
  | nil => exact Iff.rfl
  | cons a as ih => exact and_congr h.1 (ih h.2)

/-- **The run rule**: what admissible steps preserve holds after an admissible run. Source: none:
infrastructure. Kind: L -/
theorem Meets.invariant (hstep : ∀ s a, Inv s → ok s a → Inv (step s a)) {s : σ} {as : List α}
    (h : Meets step ok s as) (hs : Inv s) : Inv (run step s as) := by
  induction as generalizing s with
  | nil => exact hs
  | cons a as ih => exact ih h.2 (hstep s a hs h.1)

/-- The run rule for every state passed: each prefix of the run ends in an invariant state.
Source: none: infrastructure. Kind: L -/
theorem Meets.invariant_at (hstep : ∀ s a, Inv s → ok s a → Inv (step s a)) {s : σ}
    {as bs : List α} (h : Meets step ok s bs) (hs : Inv s) (hp : as <+: bs) :
    Inv (run step s as) :=
  (h.restrict hp).invariant hstep hs

/-- Along an admissible run, every single step taken from an invariant state has the property `Good`
that the step rule gives it. Source: none: infrastructure. Kind: L -/
theorem Meets.forall_step {Good : σ → α → Prop}
    (hstep : ∀ s a, Inv s → ok s a → Inv (step s a)) (hgood : ∀ s a, Inv s → ok s a → Good s a)
    {s : σ} {as : List α} (h : Meets step ok s as) (hs : Inv s) : Meets step Good s as := by
  induction as generalizing s with
  | nil => trivial
  | cons a as ih => exact ⟨hgood s a hs h.1, ih h.2 (hstep s a hs h.1)⟩

/-- **Exact conditions lift to runs**: if a step from an invariant state keeps the invariant exactly
when it satisfies `ok`, then a run from an invariant state stays inside the invariant exactly when
all its steps satisfy `ok`. Source: none: infrastructure. Kind: L -/
theorem invariant_at_iff_meets (hexact : ∀ s a, Inv s → (Inv (step s a) ↔ ok s a)) {s : σ}
    (hs : Inv s) (as : List α) :
    (∀ pre, pre <+: as → Inv (run step s pre)) ↔ Meets step ok s as := by
  constructor
  · intro h
    induction as generalizing s with
    | nil => trivial
    | cons a as ih =>
      have h1 : Inv (step s a) := h [a] ⟨as, rfl⟩
      refine ⟨(hexact s a hs).mp h1, ih h1 fun pre hpre => ?_⟩
      exact h (a :: pre) ((List.prefix_cons_inj a).mpr hpre)
  · intro h pre hpre
    exact h.invariant_at (fun s a hs ha => (hexact s a hs).mpr ha) hs hpre

/-- **Exact conditions on the runs of a caller**: `Base` holds of every state, and a step that a
caller may take (`valid`) from a state with `Base` and `Good` keeps `Good` exactly when it satisfies
`ok`. Then a run a caller may make stays inside `Good` exactly when all its steps satisfy `ok`.
Source: none: infrastructure. Kind: L -/
theorem good_at_iff_meets {Base Good : σ → Prop} {valid : σ → α → Prop}
    (hbase : ∀ s a, Base s → Base (step s a))
    (hexact : ∀ s a, Base s → Good s → valid s a → (Good (step s a) ↔ ok s a)) {s : σ}
    (hb : Base s) (hs : Good s) {as : List α} (hv : Meets step valid s as) :
    (∀ pre, pre <+: as → Good (run step s pre)) ↔ Meets step ok s as := by
  induction as generalizing s with
  | nil => simp [List.prefix_nil, hs]
  | cons a as ih =>
    constructor
    · intro h
      have h1 : Good (step s a) := h [a] ⟨as, rfl⟩
      refine ⟨(hexact s a hb hs hv.1).mp h1, (ih (hbase s a hb) h1 hv.2).mp fun pre hpre => ?_⟩
      exact h (a :: pre) ((List.prefix_cons_inj a).mpr hpre)
    · rintro ⟨ha, has⟩ pre hpre
      have h1 : Good (step s a) := (hexact s a hb hs hv.1).mpr ha
      cases pre with
      | nil => exact hs
      | cons b pre =>
        obtain ⟨rfl, hpre'⟩ := List.cons_prefix_cons.mp hpre
        exact (ih (hbase s b hb) h1 hv.2).mpr has pre hpre'

end KTorrent.Lib
