import Mathlib.Data.List.Basic

/-!
# Paths

A path is a list of characters, its names stand between separators. Names are followed from a
directory, an empty name and a single dot leading nowhere, two dots up.

* `resolve` — where a path leads; `Below` — it leads below a directory.
* `Climbs` — on its way the path leaves the directory it starts from.
* `walk_below` — names that do not climb lead below.
* `walk_out` — names that climb, and none of which is the directory's, do not.
-/

namespace KTorrent.Lib

variable {α : Type*} [DecidableEq α] (sep dot : α)

/-- The names between the separators. -/
def components : List α → List (List α)
  | [] => [[]]
  | c :: t =>
    if c = sep then [] :: components t
    else
      match components t with
      | [] => [[c]]
      | name :: names => (c :: name) :: names

/-- Names followed from a directory, which is given by the names up to it, the last one first. -/
def walk : List (List α) → List (List α) → List (List α)
  | dir, [] => dir
  | dir, name :: names =>
    if name = [] ∨ name = [dot] then walk dir names
    else if name = [dot, dot] then walk dir.tail names
    else walk (name :: dir) names

/-- Where a path leads. -/
def resolve (path : List α) : List (List α) := (walk dot [] (components sep path)).reverse

/-- The path leads below the directory. -/
def Below (dir path : List α) : Prop := resolve sep dot dir <+: resolve sep dot path

instance (dir path : List α) : Decidable (Below sep dot dir path) :=
  inferInstanceAs (Decidable (_ <+: _))

/-- The names lead out of the directory that is `depth` above. -/
def Climbs : ℕ → List (List α) → Prop
  | _, [] => False
  | depth, name :: names =>
    if name = [] ∨ name = [dot] then Climbs depth names
    else if name = [dot, dot] then depth = 0 ∨ Climbs (depth - 1) names
    else Climbs (depth + 1) names

/-- Whether names lead out is decided name by name. -/
instance decidableClimbs :
    (depth : ℕ) → (names : List (List α)) → Decidable (Climbs dot depth names)
  | _, [] => inferInstanceAs (Decidable False)
  | depth, name :: names =>
    have := decidableClimbs depth names
    have := decidableClimbs (depth - 1) names
    have := decidableClimbs (depth + 1) names
    inferInstanceAs (Decidable (if name = [] ∨ name = [dot] then Climbs dot depth names
      else if name = [dot, dot] then depth = 0 ∨ Climbs dot (depth - 1) names
      else Climbs dot (depth + 1) names))

variable {sep dot}

/-- Every text has a component. Source: none: infrastructure. Kind: L -/
theorem components_ne_nil (t : List α) : components sep t ≠ [] := by
  cases t with
  | nil => simp [components]
  | cons c t =>
    rw [components]
    split_ifs
    · exact List.cons_ne_nil _ _
    · split <;> exact List.cons_ne_nil _ _

/-- Names on both sides of a separator. Source: none: infrastructure. Kind: L -/
theorem components_append (a b : List α) :
    components sep (a ++ sep :: b) = components sep a ++ components sep b := by
  induction a with
  | nil => exact if_pos rfl
  | cons c a ih =>
    rw [List.cons_append, components, components, ih]
    split_ifs with hc
    · rfl
    · cases ha : components sep a with
      | nil => exact absurd ha (components_ne_nil a)
      | cons name names => rfl

/-- A name. Source: none: infrastructure. Kind: L -/
theorem components_name {t : List α} (h : sep ∉ t) : components sep t = [t] := by
  induction t with
  | nil => rfl
  | cons c t ih =>
    rw [List.mem_cons, not_or] at h
    rw [components, if_neg (Ne.symm h.1), ih h.2]

/-- A name in front. Source: none: infrastructure. Kind: L -/
theorem components_name_append {a : List α} (h : sep ∉ a) (t : List α) {name : List α}
    {names : List (List α)} (ht : components sep t = name :: names) :
    components sep (a ++ t) = (a ++ name) :: names := by
  induction a with
  | nil => exact ht
  | cons c a ih =>
    rw [List.mem_cons, not_or] at h
    rw [List.cons_append, components, if_neg (Ne.symm h.1), ih h.2]
    rfl

/-- One walk after another. Source: none: infrastructure. Kind: L -/
theorem walk_append (dir a b : List (List α)) :
    walk dot dir (a ++ b) = walk dot (walk dot dir a) b := by
  induction a generalizing dir with
  | nil => rfl
  | cons name a ih =>
    rw [List.cons_append, walk, walk]
    split_ifs
    · exact ih _
    · exact ih _
    · exact ih _

/-- An empty name goes nowhere. Source: none: infrastructure. Kind: L -/
theorem walk_empty (dir names : List (List α)) :
    walk dot dir ([] :: names) = walk dot dir names := by
  rw [walk, if_pos (.inl rfl)]

/-- A long name is one to go down. Source: none: infrastructure. Kind: L -/
theorem walk_name {name : List α} (h : 3 ≤ name.length) (dir names : List (List α)) :
    walk dot dir (name :: names) = walk dot (name :: dir) names := by
  rw [walk, if_neg, if_neg]
  · intro heq
    simp [heq] at h
  · rintro (heq | heq)
    · simp [heq] at h
    · simp [heq] at h

/-- Names that do not climb lead somewhere below. Source: none: infrastructure. Kind: L -/
theorem walk_below {names : List (List α)} {up : List (List α)} (h : ¬ Climbs dot up.length names)
    (dir : List (List α)) : dir <:+ walk dot (up ++ dir) names := by
  induction names generalizing up with
  | nil => exact List.suffix_append up dir
  | cons name names ih =>
    rw [Climbs] at h
    rw [walk]
    split_ifs at h ⊢
    · exact ih h
    · rw [not_or] at h
      cases up with
      | nil => exact absurd rfl h.1
      | cons x up => exact ih h.2
    · have hup : ¬ Climbs dot (name :: up).length names := h
      exact ih hup

/-- Without two dots among the names nothing climbs. Source: none: infrastructure. Kind: L -/
theorem not_climbs_of_not_mem {names : List (List α)} (h : [dot, dot] ∉ names) (depth : ℕ) :
    ¬ Climbs dot depth names := by
  induction names generalizing depth with
  | nil => exact id
  | cons name names ih =>
    rw [List.mem_cons, not_or] at h
    rw [Climbs]
    split_ifs with h1 h2
    · exact ih h.2 depth
    · exact absurd h2.symm h.1
    · exact ih h.2 (depth + 1)

/-- From a directory whose name is none of them, names that climb do not lead back. Source: none:
infrastructure. Kind: L -/
theorem walk_out {top : List α} {names : List (List α)} (htop : ∀ name ∈ names, name ≠ top) :
    (∀ dir, top ∉ dir → top ∉ walk dot dir names) ∧
      ∀ up, top ∉ up → Climbs dot up.length names → top ∉ walk dot (up ++ [top]) names := by
  induction names with
  | nil => exact ⟨fun _ h => h, fun _ _ h => h.elim⟩
  | cons name names ih =>
    obtain ⟨hout, hin⟩ := ih fun n hn => htop n (List.mem_cons_of_mem name hn)
    have hname : top ≠ name := (htop name List.mem_cons_self).symm
    constructor
    · intro dir hdir
      rw [walk]
      split_ifs
      · exact hout dir hdir
      · exact hout _ fun h => hdir (List.mem_of_mem_tail h)
      · apply hout
        rw [List.mem_cons, not_or]
        exact ⟨hname, hdir⟩
    · intro up hup hclimbs
      rw [Climbs] at hclimbs
      rw [walk]
      split_ifs at hclimbs ⊢
      · exact hin up hup hclimbs
      · cases up with
        | nil => exact hout [] (List.not_mem_nil)
        | cons x up =>
          obtain h | h := hclimbs
          · cases h
          · exact hin up (fun hx => hup (List.mem_cons_of_mem x hx)) h
      · have hup' : top ∉ name :: up := by
          rw [List.mem_cons, not_or]
          exact ⟨hname, hup⟩
        exact hin (name :: up) hup' hclimbs

/-- A component is no longer than the text. Source: none: infrastructure. Kind: L -/
theorem length_of_mem_components {t name : List α} (h : name ∈ components sep t) :
    name.length ≤ t.length := by
  induction t generalizing name with
  | nil => exact Nat.le_of_eq (congrArg List.length (List.mem_singleton.mp h))
  | cons c t ih =>
    rw [components] at h
    rw [List.length_cons]
    split_ifs at h
    · obtain rfl | h := List.mem_cons.mp h
      · exact Nat.zero_le _
      · exact Nat.le_succ_of_le (ih h)
    · cases ht : components sep t with
      | nil => exact absurd ht (components_ne_nil t)
      | cons first names =>
        rw [ht] at h ih
        obtain rfl | h := List.mem_cons.mp h
        · rw [List.length_cons]
          exact Nat.succ_le_succ (ih List.mem_cons_self)
        · exact Nat.le_succ_of_le (ih (List.mem_cons_of_mem first h))

/-- A component has no separator. Source: none: infrastructure. Kind: L -/
theorem not_mem_of_mem_components {t name : List α} (h : name ∈ components sep t) : sep ∉ name := by
  induction t generalizing name with
  | nil =>
    rw [List.mem_singleton.mp h]
    exact List.not_mem_nil
  | cons c t ih =>
    rw [components] at h
    split_ifs at h with hc
    · obtain rfl | h := List.mem_cons.mp h
      · exact List.not_mem_nil
      · exact ih h
    · cases ht : components sep t with
      | nil => exact absurd ht (components_ne_nil t)
      | cons first names =>
        rw [ht] at h ih
        obtain rfl | h := List.mem_cons.mp h
        · rw [List.mem_cons, not_or]
          exact ⟨Ne.symm hc, ih List.mem_cons_self⟩
        · exact ih (List.mem_cons_of_mem first h)

/-- What does not climb, behind a directory, lies below it. Source: none: infrastructure. Kind: L -/
theorem below_append {dir t : List α} (h : ¬ Climbs dot 0 (components sep t)) :
    Below sep dot dir (dir ++ sep :: t) := by
  unfold Below resolve
  rw [components_append, walk_append, List.reverse_prefix]
  have hup : ¬ Climbs dot ([] : List (List α)).length (components sep t) := h
  exact walk_below hup _

/-- A separator at the end of a directory does not matter. Source: none: infrastructure. Kind: L -/
theorem resolve_separator (dir : List α) : resolve sep dot (dir ++ [sep]) = resolve sep dot dir := by
  unfold resolve
  rw [components_append, walk_append]
  exact congrArg List.reverse (walk_empty _ [])

end KTorrent.Lib
