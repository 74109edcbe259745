import Mathlib.Data.List.TakeWhile

/-!
# Walks that stop at the first exception

A list may be sorted so that what a predicate holds of stands in front. A walk from the front that
stops at the first exception then meets exactly those elements.

* `takeWhile_eq_filter` — what the walk meets.
* `dropWhile_eq_filter` — what it leaves.
-/

namespace KTorrent.Lib

/-- What a predicate holds of at the front, when it holds of nothing behind the first exception.
Source: none: infrastructure. Kind: L -/
theorem takeWhile_eq_filter {α : Type*} {p : α → Bool} {l : List α}
    (h : l.Pairwise fun a b => p b = true → p a = true) : l.takeWhile p = l.filter p := by
  induction l with
  | nil => rfl
  | cons a l ih =>
    obtain ⟨ha, hl⟩ := List.pairwise_cons.mp h
    by_cases hp : p a = true
    · rw [List.takeWhile_cons_of_pos hp, List.filter_cons_of_pos hp, ih hl]
    · have hnil : l.filter p = [] := by
        apply List.filter_eq_nil_iff.mpr
        intro b hb hpb
        exact hp (ha b hb hpb)
      rw [List.takeWhile_cons_of_neg hp, List.filter_cons_of_neg hp, hnil]

/-- And the rest. Source: none: infrastructure. Kind: L -/
theorem dropWhile_eq_filter {α : Type*} {p : α → Bool} {l : List α}
    (h : l.Pairwise fun a b => p b = true → p a = true) :
    l.dropWhile p = l.filter fun a => !p a := by
  induction l with
  | nil => rfl
  | cons a l ih =>
    obtain ⟨ha, hl⟩ := List.pairwise_cons.mp h
    by_cases hp : p a = true
    · rw [List.dropWhile_cons_of_pos hp, List.filter_cons_of_neg (by simp [hp]), ih hl]
    · have hall : l.filter (fun a => !p a) = l := by
        apply List.filter_eq_self.mpr
        intro b hb
        rw [Bool.not_eq_true', Bool.eq_false_iff]
        intro hpb
        exact hp (ha b hb hpb)
      rw [List.dropWhile_cons_of_neg hp, List.filter_cons_of_pos (by simp [hp]), hall]

end KTorrent.Lib
