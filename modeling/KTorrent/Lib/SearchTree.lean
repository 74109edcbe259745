import Mathlib.Data.List.Basic

/-!
# Search trees over a comparison that need not be an order

A tree is searched by comparing keys. What a search finds depends on the shape of the tree, unless the
comparison cuts the tree's list in two: first the keys that are below the one that is searched, then
those that are not. The rules here are for that case, and speak of the list only.

* `Tree.find`, `Tree.insert`, `Tree.update`, `Tree.erase` — the operations, for any comparison.
* `Tree.find_some`, `Tree.find_none` — what is found.
* `Tree.mem_update`, `Tree.mem_erase`, `Tree.mem_insert` — an operation leaves entries that were there,
  and those it gives a value, for any comparison.
* `Tree.toList_update`, `Tree.toList_erase`, `Tree.toList_insert_new`, `Tree.toList_insert_over` —
  what an operation leaves.
-/

namespace KTorrent.Lib

variable {κ β : Type}

/-- A tree of keys and values. -/
inductive Tree (κ β : Type) where
  | leaf
  | node (l : Tree κ β) (k : κ) (v : β) (r : Tree κ β)
deriving DecidableEq

namespace Tree

/-- The keys and values, from left to right. -/
def toList : Tree κ β → List (κ × β)
  | leaf => []
  | node l k v r => toList l ++ (k, v) :: toList r

/-- An empty tree has no entries. Source: none: infrastructure. Kind: L -/
@[simp] theorem toList_leaf : (leaf : Tree κ β).toList = [] := rfl

/-- The entries of a node, in order. Source: none: infrastructure. Kind: L -/
@[simp] theorem toList_node (l : Tree κ β) (k : κ) (v : β) (r : Tree κ β) :
    (node l k v r).toList = l.toList ++ (k, v) :: r.toList := rfl

variable (lt : κ → κ → Bool) (k : κ)

/-- The first entry that is not below the key; `y` is the last one seen. -/
def lowerBound : Tree κ β → Option (κ × β) → Option (κ × β)
  | leaf, y => y
  | node l x v r, y => if lt x k then lowerBound r y else lowerBound l (some (x, v))

/-- The entry for a key: the first one that is not below it, if the key is not below that one. -/
def find (t : Tree κ β) : Option (κ × β) :=
  (lowerBound lt k t none).filter fun e => !lt k e.1

/-- The value of the entry that `find` finds is changed; `none` if every entry is below the key. -/
def updateFirst (f : β → β) : Tree κ β → Option (Tree κ β)
  | leaf => none
  | node l x v r =>
      if lt x k then (updateFirst f r).map (node l x v)
      else some ((updateFirst f l).elim (node l x (f v) r) fun l' => node l' x v r)

/-- The value of the entry that `find` finds is changed. -/
def update (f : β → β) (t : Tree κ β) : Tree κ β := (updateFirst lt k f t).getD t

/-- Two trees side by side. -/
def join : Tree κ β → Tree κ β → Tree κ β
  | leaf, t => t
  | node l x v r, t => node l x v (join r t)

/-- The entry that `find` finds is taken out; `none` if every entry is below the key. -/
def eraseFirst : Tree κ β → Option (Tree κ β)
  | leaf => none
  | node l x v r =>
      if lt x k then (eraseFirst r).map (node l x v)
      else some ((eraseFirst l).elim (join l r) fun l' => node l' x v r)

/-- The entry that `find` finds is taken out. -/
def erase (t : Tree κ β) : Tree κ β := (eraseFirst lt k t).getD t

/-- The place of a new entry is in front of the first one the key is below; `j` is the one in front of
that place. If `j` is not below the key, the answer is `none`, and `j` gets the value. -/
def insertAt (v : β) : Tree κ β → Option κ → Option (Tree κ β)
  | leaf, j => if j.all (lt · k) then some (node leaf k v leaf) else none
  | node l x w r, j =>
      if lt k x then (insertAt v l j).map fun l' => node l' x w r
      else some ((insertAt v r (some x)).elim (node l x v r) (node l x w))

/-- An entry is inserted, or takes the place of the one in front of its place. -/
def insert (v : β) (t : Tree κ β) : Tree κ β := (insertAt lt k v t none).getD t

variable {lt k}

/-! ### For any comparison

What an operation leaves was in the tree before, up to the values it gives, however the tree is
searched. -/

/-- What bounds a key from below is an entry, or the one seen before. Source: none: infrastructure.
Kind: L -/
theorem mem_of_lowerBound {t : Tree κ β} {y : Option (κ × β)} {e : κ × β}
    (h : lowerBound lt k t y = some e) : e ∈ t.toList ∨ y = some e := by
  induction t generalizing y with
  | leaf => exact .inr h
  | node l x v r ihl ihr =>
    rw [lowerBound] at h
    rw [toList_node, List.mem_append, List.mem_cons]
    split_ifs at h
    · exact (ihr h).imp_left fun hr => .inr (.inr hr)
    · obtain hl | heq := ihl h
      · exact .inl (.inl hl)
      · exact .inl (.inr (.inl (Option.some.inj heq).symm))

/-- What is found is an entry. Source: none: infrastructure. Kind: L -/
theorem mem_of_find {t : Tree κ β} {e : κ × β} (h : t.find lt k = some e) : e ∈ t.toList :=
  (mem_of_lowerBound (Option.filter_eq_some_iff.mp h).1).resolve_right fun h => nomatch h

/-- An update changes values only. Source: none: infrastructure. Kind: L -/
theorem mem_updateFirst {f : β → β} {t t' : Tree κ β} (h : updateFirst lt k f t = some t')
    {e : κ × β} (he : e ∈ t'.toList) : e ∈ t.toList ∨ ∃ e₀ ∈ t.toList, e.2 = f e₀.2 := by
  induction t generalizing t' with
  | leaf => cases h
  | node l x v r ihl ihr =>
    have hright : ∀ e' ∈ r.toList, e' ∈ (node l x v r).toList := fun e' h' => by simp [h']
    have hleft : ∀ e' ∈ l.toList, e' ∈ (node l x v r).toList := fun e' h' => by simp [h']
    rw [updateFirst] at h
    split_ifs at h
    · obtain ⟨r', hr', rfl⟩ := Option.map_eq_some_iff.mp h
      rw [toList_node, List.mem_append, List.mem_cons] at he
      obtain he | rfl | he := he
      · exact .inl (hleft e he)
      · exact .inl (by simp)
      · exact (ihr hr' he).imp (hright e) fun ⟨e₀, h₀, hv⟩ => ⟨e₀, hright e₀ h₀, hv⟩
    · obtain rfl := Option.some.inj h
      cases hl : updateFirst lt k f l with
      | none =>
        rw [hl, Option.elim_none, toList_node, List.mem_append, List.mem_cons] at he
        obtain he | rfl | he := he
        · exact .inl (hleft e he)
        · exact .inr ⟨(x, v), by simp, rfl⟩
        · exact .inl (hright e he)
      | some l' =>
        rw [hl, Option.elim_some, toList_node, List.mem_append, List.mem_cons] at he
        obtain he | rfl | he := he
        · exact (ihl hl he).imp (hleft e) fun ⟨e₀, h₀, hv⟩ => ⟨e₀, hleft e₀ h₀, hv⟩
        · exact .inl (by simp)
        · exact .inl (hright e he)

/-- An update changes values only. Source: none: infrastructure. Kind: L -/
theorem mem_update {f : β → β} {t : Tree κ β} {e : κ × β} (he : e ∈ (t.update lt k f).toList) :
    e ∈ t.toList ∨ ∃ e₀ ∈ t.toList, e.2 = f e₀.2 := by
  unfold update at he
  cases h : updateFirst lt k f t with
  | none =>
    rw [h] at he
    exact .inl he
  | some t' =>
    rw [h] at he
    exact mem_updateFirst h he

/-- The entries of two trees that are joined. Source: none: infrastructure. Kind: L -/
theorem toList_join (t t' : Tree κ β) : (join t t').toList = t.toList ++ t'.toList := by
  induction t with
  | leaf => rfl
  | node l x v r _ ihr => rw [join, toList_node, toList_node, ihr, List.append_assoc, List.cons_append]

/-- An erasure adds no entry. Source: none: infrastructure. Kind: L -/
theorem mem_eraseFirst {t t' : Tree κ β} (h : eraseFirst lt k t = some t') {e : κ × β}
    (he : e ∈ t'.toList) : e ∈ t.toList := by
  induction t generalizing t' with
  | leaf => cases h
  | node l x v r ihl ihr =>
    rw [eraseFirst] at h
    rw [toList_node, List.mem_append, List.mem_cons]
    split_ifs at h
    · obtain ⟨r', hr', rfl⟩ := Option.map_eq_some_iff.mp h
      rw [toList_node, List.mem_append, List.mem_cons] at he
      exact he.imp_right (Or.imp_right (ihr hr'))
    · obtain rfl := Option.some.inj h
      cases hl : eraseFirst lt k l with
      | none =>
        rw [hl, Option.elim_none, toList_join, List.mem_append] at he
        exact he.imp_right .inr
      | some l' =>
        rw [hl, Option.elim_some, toList_node, List.mem_append, List.mem_cons] at he
        exact he.imp_left (ihl hl)

/-- What is left was there. Source: none: infrastructure. Kind: L -/
theorem mem_erase {t : Tree κ β} {e : κ × β} (he : e ∈ (t.erase lt k).toList) : e ∈ t.toList := by
  unfold erase at he
  cases h : eraseFirst lt k t with
  | none =>
    rw [h] at he
    exact he
  | some t' =>
    rw [h] at he
    exact mem_eraseFirst h he

/-- An insertion adds one value. Source: none: infrastructure. Kind: L -/
theorem mem_insertAt {w : β} {t t' : Tree κ β} {j : Option κ} (h : insertAt lt k w t j = some t')
    {e : κ × β} (he : e ∈ t'.toList) : e ∈ t.toList ∨ e.2 = w := by
  induction t generalizing t' j with
  | leaf =>
    rw [insertAt] at h
    split_ifs at h
    obtain rfl := Option.some.inj h
    obtain rfl := List.mem_singleton.mp he
    exact .inr rfl
  | node l x v r ihl ihr =>
    have hright : ∀ e' ∈ r.toList, e' ∈ (node l x v r).toList := fun e' h' => by simp [h']
    have hleft : ∀ e' ∈ l.toList, e' ∈ (node l x v r).toList := fun e' h' => by simp [h']
    rw [insertAt] at h
    split_ifs at h
    · obtain ⟨l', hl', rfl⟩ := Option.map_eq_some_iff.mp h
      rw [toList_node, List.mem_append, List.mem_cons] at he
      obtain he | rfl | he := he
      · exact (ihl hl' he).imp_left (hleft e)
      · exact .inl (by simp)
      · exact .inl (hright e he)
    · obtain rfl := Option.some.inj h
      cases hr : insertAt lt k w r (some x) with
      | none =>
        rw [hr, Option.elim_none, toList_node, List.mem_append, List.mem_cons] at he
        obtain he | rfl | he := he
        · exact .inl (hleft e he)
        · exact .inr rfl
        · exact .inl (hright e he)
      | some r' =>
        rw [hr, Option.elim_some, toList_node, List.mem_append, List.mem_cons] at he
        obtain he | rfl | he := he
        · exact .inl (hleft e he)
        · exact .inl (by simp)
        · exact (ihr hr he).imp_left (hright e)

/-- An insertion adds its value only. Source: none: infrastructure. Kind: L -/
theorem mem_insert {w : β} {t : Tree κ β} {e : κ × β} (he : e ∈ (t.insert lt k w).toList) :
    e ∈ t.toList ∨ e.2 = w := by
  unfold insert at he
  cases h : insertAt lt k w t none with
  | none =>
    rw [h] at he
    exact .inl he
  | some t' =>
    rw [h] at he
    exact mem_insertAt h he

/-! ### A list that is cut in two -/

/-- Where the node of a tree stands in a list that is cut in two. Source: none: infrastructure.
Kind: L -/
theorem node_split {as bs ls rs : List (κ × β)} {e : κ × β} (h : ls ++ e :: rs = as ++ bs) :
    (∃ as', as = ls ++ e :: as' ∧ rs = as' ++ bs) ∨ ∃ bs', bs = bs' ++ e :: rs ∧ ls = as ++ bs' := by
  rcases List.append_eq_append_iff.mp h with ⟨as', h1, h2⟩ | ⟨bs', h1, h2⟩
  · cases as' with
    | nil => exact Or.inr ⟨[], by simpa using h2.symm, by simpa using h1.symm⟩
    | cons a as' =>
      obtain ⟨rfl, h3⟩ := List.cons.inj h2
      exact Or.inl ⟨as', h1, h3⟩
  · exact Or.inr ⟨bs', h2, h1⟩

/-- The lower bound is the first entry that is not below the key, when those below come first.
Source: none: infrastructure. Kind: L -/
theorem lowerBound_eq {t : Tree κ β} {as bs : List (κ × β)} (ht : t.toList = as ++ bs)
    (ha : ∀ a ∈ as, lt a.1 k = true) (hb : ∀ b ∈ bs, lt b.1 k = false) (y : Option (κ × β)) :
    lowerBound lt k t y = bs.head?.or y := by
  induction t generalizing as bs y with
  | leaf =>
    rw [toList_leaf] at ht
    obtain ⟨-, rfl⟩ := List.append_eq_nil_iff.mp ht.symm
    rfl
  | node l x v r ihl ihr =>
    rw [lowerBound]
    rcases node_split ht with ⟨as', rfl, hr⟩ | ⟨bs', rfl, hl⟩
    · have hx : lt x k = true := ha (x, v) (by simp)
      rw [if_pos hx]
      exact ihr hr (fun a h => ha a (by simp [h])) hb y
    · have hx : lt x k = false := hb (x, v) (by simp)
      rw [if_neg (by rw [hx]; exact Bool.false_ne_true)]
      rw [ihl hl ha (fun b h => hb b (by simp [h])) (some (x, v))]
      cases bs' with
      | nil => rfl
      | cons b bs' => rfl

/-- The search finds this entry if the key is not below it. Source: none: infrastructure. Kind: L -/
theorem find_some {t : Tree κ β} {as bs : List (κ × β)} {e : κ × β}
    (ht : t.toList = as ++ e :: bs) (ha : ∀ a ∈ as, lt a.1 k = true)
    (hb : ∀ b ∈ e :: bs, lt b.1 k = false) (he : lt k e.1 = false) : t.find lt k = some e := by
  rw [find, lowerBound_eq ht ha hb]
  simp [he]

/-- The search finds nothing if the key is below what follows. Source: none: infrastructure.
Kind: L -/
theorem find_none {t : Tree κ β} {as bs : List (κ × β)} (ht : t.toList = as ++ bs)
    (ha : ∀ a ∈ as, lt a.1 k = true) (hb : ∀ b ∈ bs, lt b.1 k = false ∧ lt k b.1 = true) :
    t.find lt k = none := by
  rw [find, lowerBound_eq ht ha fun b h => (hb b h).1]
  cases bs with
  | nil => rfl
  | cons b bs => simp [(hb b List.mem_cons_self).2]

/-- The update acts on the first entry not below the key. Source: none: infrastructure. Kind: L -/
theorem updateFirst_eq {t : Tree κ β} {as bs : List (κ × β)} (f : β → β)
    (ht : t.toList = as ++ bs) (ha : ∀ a ∈ as, lt a.1 k = true)
    (hb : ∀ b ∈ bs, lt b.1 k = false) :
    (t.updateFirst lt k f).map toList =
      bs.head?.map fun e => as ++ (e.1, f e.2) :: bs.tail := by
  induction t generalizing as bs with
  | leaf =>
    rw [toList_leaf] at ht
    obtain ⟨-, rfl⟩ := List.append_eq_nil_iff.mp ht.symm
    rfl
  | node l x v r ihl ihr =>
    rw [updateFirst]
    rcases node_split ht with ⟨as', rfl, hr⟩ | ⟨bs', rfl, hl⟩
    · have hx : lt x k = true := ha (x, v) (by simp)
      have hrest := ihr hr (fun a h => ha a (by simp [h])) hb
      rw [if_pos hx, Option.map_map]
      cases hu : updateFirst lt k f r with
      | none =>
        rw [hu] at hrest
        cases bs with
        | nil => rfl
        | cons b bs => cases hrest
      | some r' =>
        rw [hu] at hrest
        cases bs with
        | nil => cases hrest
        | cons b bs =>
          have hr' : r'.toList = as' ++ (b.1, f b.2) :: bs := Option.some.inj hrest
          simp [hr']
    · have hx : lt x k = false := hb (x, v) (by simp)
      have hrest := ihl hl ha fun b h => hb b (by simp [h])
      rw [if_neg (by rw [hx]; exact Bool.false_ne_true)]
      cases hu : updateFirst lt k f l with
      | none =>
        rw [hu] at hrest
        cases bs' with
        | nil => simp [hl]
        | cons b bs' => cases hrest
      | some l' =>
        rw [hu] at hrest
        cases bs' with
        | nil => cases hrest
        | cons b bs' =>
          have hl' : l'.toList = as ++ (b.1, f b.2) :: bs' := Option.some.inj hrest
          simp [hl']

/-- The entry that is found gets its new value. Source: none: infrastructure. Kind: L -/
theorem toList_update {t : Tree κ β} {as bs : List (κ × β)} {e : κ × β} (f : β → β)
    (ht : t.toList = as ++ e :: bs) (ha : ∀ a ∈ as, lt a.1 k = true)
    (hb : ∀ b ∈ e :: bs, lt b.1 k = false) :
    (t.update lt k f).toList = as ++ (e.1, f e.2) :: bs := by
  have h := updateFirst_eq f ht ha hb
  rw [update]
  cases hu : updateFirst lt k f t with
  | none =>
    rw [hu] at h
    cases h
  | some t' =>
    rw [hu] at h
    exact Option.some.inj h

/-- The erasure removes it. Source: none: infrastructure. Kind: L -/
theorem eraseFirst_eq {t : Tree κ β} {as bs : List (κ × β)} (ht : t.toList = as ++ bs)
    (ha : ∀ a ∈ as, lt a.1 k = true) (hb : ∀ b ∈ bs, lt b.1 k = false) :
    (t.eraseFirst lt k).map toList = bs.head?.map fun _ => as ++ bs.tail := by
  induction t generalizing as bs with
  | leaf =>
    rw [toList_leaf] at ht
    obtain ⟨-, rfl⟩ := List.append_eq_nil_iff.mp ht.symm
    rfl
  | node l x v r ihl ihr =>
    rw [eraseFirst]
    rcases node_split ht with ⟨as', rfl, hr⟩ | ⟨bs', rfl, hl⟩
    · have hx : lt x k = true := ha (x, v) (by simp)
      have hrest := ihr hr (fun a h => ha a (by simp [h])) hb
      rw [if_pos hx, Option.map_map]
      cases hu : eraseFirst lt k r with
      | none =>
        rw [hu] at hrest
        cases bs with
        | nil => rfl
        | cons b bs => cases hrest
      | some r' =>
        rw [hu] at hrest
        cases bs with
        | nil => cases hrest
        | cons b bs =>
          have hr' : r'.toList = as' ++ bs := Option.some.inj hrest
          simp [hr']
    · have hx : lt x k = false := hb (x, v) (by simp)
      have hrest := ihl hl ha fun b h => hb b (by simp [h])
      rw [if_neg (by rw [hx]; exact Bool.false_ne_true)]
      cases hu : eraseFirst lt k l with
      | none =>
        rw [hu] at hrest
        cases bs' with
        | nil => simp [hl, toList_join]
        | cons b bs' => cases hrest
      | some l' =>
        rw [hu] at hrest
        cases bs' with
        | nil => cases hrest
        | cons b bs' =>
          have hl' : l'.toList = as ++ bs' := Option.some.inj hrest
          simp [hl']

/-- The entry that is found is taken out. Source: none: infrastructure. Kind: L -/
theorem toList_erase {t : Tree κ β} {as bs : List (κ × β)} {e : κ × β}
    (ht : t.toList = as ++ e :: bs) (ha : ∀ a ∈ as, lt a.1 k = true)
    (hb : ∀ b ∈ e :: bs, lt b.1 k = false) : (t.erase lt k).toList = as ++ bs := by
  have h := eraseFirst_eq ht ha hb
  rw [erase]
  cases hu : eraseFirst lt k t with
  | none =>
    rw [hu] at h
    cases h
  | some t' =>
    rw [hu] at h
    exact Option.some.inj h

/-- The key in front of the place of a new entry. -/
def front (as : List (κ × β)) (j : Option κ) : Option κ := (as.getLast?.map Prod.fst).or j

/-- The key in front of what follows an entry. Source: none: infrastructure. Kind: L -/
theorem front_append (as as' : List (κ × β)) (e : κ × β) (j : Option κ) :
    front (as ++ e :: as') j = front as' (some e.1) := by
  unfold front
  rw [List.getLast?_append, List.getLast?_cons]
  cases as'.getLast? with
  | none => rfl
  | some a => rfl

/-- An insertion puts the value behind what is not above the key, or on the entry before.
Source: none: infrastructure. Kind: L -/
theorem insertAt_eq {t : Tree κ β} {as bs : List (κ × β)} (v : β) (ht : t.toList = as ++ bs)
    (ha : ∀ a ∈ as, lt k a.1 = false) (hb : ∀ b ∈ bs, lt k b.1 = true) (j : Option κ) :
    (t.insertAt lt k v j).map toList =
      if (front as j).all (lt · k) then some (as ++ (k, v) :: bs)
      else as.getLast?.map fun e => as.dropLast ++ (e.1, v) :: bs := by
  induction t generalizing as bs j with
  | leaf =>
    rw [toList_leaf] at ht
    obtain ⟨rfl, rfl⟩ := List.append_eq_nil_iff.mp ht.symm
    rw [insertAt]
    show _ = if j.all (lt · k) then _ else _
    split_ifs
    · rfl
    · rfl
  | node l x w r ihl ihr =>
    rw [insertAt]
    rcases node_split ht with ⟨as', rfl, hr⟩ | ⟨bs', rfl, hl⟩
    · have hx : lt k x = false := ha (x, w) (by simp)
      have hrest := ihr hr (fun a h => ha a (by simp [h])) hb (some x)
      rw [if_neg (by rw [hx]; exact Bool.false_ne_true), front_append]
      split_ifs at hrest ⊢ with hj
      · cases hu : insertAt lt k v r (some x) with
        | none =>
          rw [hu] at hrest
          cases hrest
        | some r' =>
          rw [hu] at hrest
          have hr' : r'.toList = as' ++ (k, v) :: bs := Option.some.inj hrest
          simp [hr']
      · cases hu : insertAt lt k v r (some x) with
        | none =>
          rw [hu] at hrest
          have has : as' = [] := by
            cases hlast : as'.getLast? with
            | none => exact List.getLast?_eq_none_iff.mp hlast
            | some a =>
              rw [hlast] at hrest
              cases hrest
          subst has
          simp [hr]
        | some r' =>
          rw [hu] at hrest
          cases hlast : as'.getLast? with
          | none =>
            rw [hlast] at hrest
            cases hrest
          | some a =>
            rw [hlast] at hrest
            have hr' : r'.toList = as'.dropLast ++ (a.1, v) :: bs := Option.some.inj hrest
            have hne : as' ≠ [] := by
              intro h
              rw [h] at hlast
              cases hlast
            have hdrop : (l.toList ++ (x, w) :: as').dropLast =
                l.toList ++ (x, w) :: as'.dropLast := by
              rw [List.dropLast_append_of_ne_nil (by simp), List.dropLast_cons_of_ne_nil hne]
            rw [List.getLast?_append, List.getLast?_cons, hlast, hdrop]
            simp [hr']
    · have hx : lt k x = true := hb (x, w) (by simp)
      have hrest := ihl hl ha (fun b h => hb b (by simp [h])) j
      rw [if_pos hx, Option.map_map]
      split_ifs at hrest ⊢ with hj
      · cases hu : insertAt lt k v l j with
        | none =>
          rw [hu] at hrest
          cases hrest
        | some l' =>
          rw [hu] at hrest
          have hl' : l'.toList = as ++ (k, v) :: bs' := Option.some.inj hrest
          simp [hl']
      · cases hu : insertAt lt k v l j with
        | none =>
          rw [hu] at hrest
          cases hlast : as.getLast? with
          | none => rfl
          | some a =>
            rw [hlast] at hrest
            cases hrest
        | some l' =>
          rw [hu] at hrest
          cases hlast : as.getLast? with
          | none =>
            rw [hlast] at hrest
            cases hrest
          | some a =>
            rw [hlast] at hrest
            have hl' : l'.toList = as.dropLast ++ (a.1, v) :: bs' := Option.some.inj hrest
            simp [hl']

/-- A key that is above all entries in front of its place is new. Source: none: infrastructure.
Kind: L -/
theorem toList_insert_new {t : Tree κ β} {as bs : List (κ × β)} (v : β)
    (ht : t.toList = as ++ bs) (ha : ∀ a ∈ as, lt k a.1 = false ∧ lt a.1 k = true)
    (hb : ∀ b ∈ bs, lt k b.1 = true) : (t.insert lt k v).toList = as ++ (k, v) :: bs := by
  have h := insertAt_eq v ht (fun a h => (ha a h).1) hb none
  have hfront : (front as none).all (lt · k) = true := by
    unfold front
    cases hlast : as.getLast? with
    | none => rfl
    | some a => exact (ha a (List.mem_of_getLast? hlast)).2
  rw [if_pos hfront] at h
  rw [insert]
  cases hu : insertAt lt k v t none with
  | none =>
    rw [hu] at h
    cases h
  | some t' =>
    rw [hu] at h
    exact Option.some.inj h

/-- A key that is not above the entry in front of its place gives that entry its value.
Source: none: infrastructure. Kind: L -/
theorem toList_insert_over {t : Tree κ β} {as bs : List (κ × β)} {e : κ × β} (v : β)
    (ht : t.toList = as ++ e :: bs) (ha : ∀ a ∈ as ++ [e], lt k a.1 = false)
    (he : lt e.1 k = false) (hb : ∀ b ∈ bs, lt k b.1 = true) :
    (t.insert lt k v).toList = as ++ (e.1, v) :: bs := by
  have ht' : t.toList = (as ++ [e]) ++ bs := by rw [ht, List.append_assoc, List.singleton_append]
  have h := insertAt_eq v ht' ha hb none
  have hfront : (front (as ++ [e]) none).all (lt · k) = false := by
    rw [front_append]
    exact he
  rw [if_neg (by rw [hfront]; exact Bool.false_ne_true)] at h
  rw [insert]
  cases hu : insertAt lt k v t none with
  | none =>
    rw [hu] at h
    simp at h
  | some t' =>
    rw [hu] at h
    simpa using h

end Tree

end KTorrent.Lib
