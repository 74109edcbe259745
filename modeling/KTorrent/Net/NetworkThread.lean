import KTorrent.Net.SocketGroup
import Mathlib.Algebra.GroupWithZero.Nat
import Mathlib.Data.List.Forall2
import Mathlib.Algebra.Order.BigOperators.Group.List
import Mathlib.Algebra.Order.Group.Nat

/-!
# `net::NetworkThread`

One run of the thread over its groups: passes over all the groups, with a share of the allowance for
each, until the allowance is used up or nobody is ready.

* `passGroups_spec`, `doGroups_spec` — a pass, and a run, keep the limits and end.
* `limits_iff` — **a run keeps the limits and ends, whatever the sockets transfer and the shares come
  to, if and only if no group with just one socket can be given 2^32 - 1 bytes.**

The number of ready sockets is a natural number here: a socket has a file descriptor, an `int`.

Source: `net/networkthread.h`, `net/networkthread.cpp`, `net/downloadthread.cpp`
-/

namespace KTorrent.Net

open KTorrent.Lib KTorrent.Util

/-- The state of a run. Kind: D -/
structure Turn where
  groups : List SocketGroup
  allowance : ℕ
  calls : ℕ
  shares : ℕ
  num_ready : ℕ

/-- `not to do too much and not pass 0 to the socket group (0 is unlimited)`.
Source: `NetworkThread::doGroupsLimited`. Kind: D -/
def groupAllowance (env : Answers) (shares allowance : ℕ) : ℕ :=
  if env.share shares > allowance ∨ env.share shares = 0 then allowance else env.share shares

/-- From an iterator on. Source: `NetworkThread::doGroupsLimited`, the loop. Kind: D -/
def passGroups (env : Answers) (k : ℕ) : List SocketGroup → ℕ → ℕ → ℕ → Except Fault Turn
  | [], allowance, calls, shares => .ok ⟨[], allowance, calls, shares, 0⟩
  | g :: rest, allowance, calls, shares =>
    if allowance = 0 then .ok ⟨g :: rest, allowance, calls, shares, 0⟩
    else if g.sockets.length > 0 then do
      let group_allowance := groupAllowance env shares allowance
      let p ← g.process env k group_allowance calls
      -- the group is done, or its sockets are still ready
      let g' := if p.ret then p.group else p.group.clear
      let still := if p.ret then g'.sockets.length else 0
      let done ← minus group_allowance p.allowance
      let t ← passGroups env k rest (if allowance ≥ done then allowance - done else 0) p.calls
        (shares + 1)
      return { t with groups := g' :: t.groups, num_ready := still + t.num_ready }
    else do
      let t ← passGroups env k rest allowance calls shares
      return { t with groups := g :: t.groups }

/-- The returned number is that of a truth value.
Source: `NetworkThread::doGroupsLimited`. Kind: D -/
def doGroupsLimited (env : Answers) (k : ℕ) (t : Turn) : Except Fault Turn := do
  let t' ← passGroups env k t.groups t.allowance t.calls t.shares
  return { t' with num_ready := if t'.num_ready > 0 then 1 else 0 }

/-- Without a limit: each group by its own allowance.
Source: `NetworkThread::doGroups`, the first branch. Kind: D -/
def doGroupsUnlimited (env : Answers) (k : ℕ) :
    List SocketGroup → ℕ → ℕ → Except Fault (List SocketGroup × ℕ × ℕ)
  | [], allowance, calls => .ok ([], allowance, calls)
  | g :: rest, allowance, calls =>
    if g.sockets.length > 0 then do
      let p ← g.calcAllowance.process env k allowance calls
      let r ← doGroupsUnlimited env k rest p.allowance p.calls
      return (p.group.clear :: r.1, r.2)
    else do
      let r ← doGroupsUnlimited env k rest allowance calls
      return (g :: r.1, r.2)

/-- `allowance` is the floating-point value of the thread's allowance; `k` bounds the rounds of each
loop. Source: `NetworkThread::doGroups`. Kind: D -/
def doGroups (env : Answers) (k : ℕ) (groups : List SocketGroup) (num_ready limit allowance : ℕ) :
    Except Fault Turn :=
  if limit = 0 then do
    let r ← doGroupsUnlimited env k groups 0 0
    return ⟨r.1, r.2.1, r.2.2, 0, num_ready⟩
  else do
    let t ← whileM (fun t : Turn => t.allowance > 0 ∧ t.num_ready > 0) (doGroupsLimited env k)
      .running k ⟨groups.map SocketGroup.calcAllowance, allowance, 0, 0, num_ready⟩
    return { t with groups := t.groups.map SocketGroup.clear }

/-- `num_ready++` for each socket that is added to a group. Source: `DownloadThread::update`,
`UploadThread::update`. Kind: D -/
def ready (groups : List SocketGroup) : ℕ := (groups.map fun g => g.sockets.length).sum

/-- What the groups have transferred. Kind: D -/
def transferred (groups : List SocketGroup) : ℕ := (groups.map SocketGroup.done).sum

/-! ### What a run keeps of a group -/

/-- What becomes of a group in a run. Kind: D -/
structure Follows (g g' : SocketGroup) : Prop where
  limit : g'.limit = g.limit
  due : g'.due = g.due
  done_le : g.done ≤ g'.done
  own : 0 < g.limit → g'.done + g'.group_allowance = g.done + g.group_allowance
  length_le : g'.sockets.length ≤ g.sockets.length
  short : ∀ id ∈ g.short, id ∈ g'.short
  tried : ∀ id, some id ∈ g.sockets → some id ∈ g'.sockets ∨ id ∈ g'.short ∨ g'.Exhausted

namespace Follows

/-- A group follows itself. Source: none: infrastructure. Kind: L -/
theorem refl (g : SocketGroup) : Follows g g :=
  ⟨rfl, rfl, Nat.le_refl _, fun _ => rfl, Nat.le_refl _, fun _ hid => hid, fun _ hid => .inl hid⟩

/-- A group that has used up its allowance stays so. Source: `net/networkthread.h`,
`net/networkthread.cpp`. Kind: L -/
theorem exhausted {g g' : SocketGroup} (h : Follows g g') (he : g.Exhausted) : g'.Exhausted := by
  have hown := h.own he.1
  have hdone := h.done_le
  refine ⟨?_, ?_⟩
  · rw [h.limit]
    exact he.1
  · have hzero := he.2
    omega

/-- Following is transitive. Source: none: infrastructure. Kind: L -/
theorem trans {a b c : SocketGroup} (h : Follows a b) (h' : Follows b c) : Follows a c := by
  refine ⟨h'.limit.trans h.limit, h'.due.trans h.due, h.done_le.trans h'.done_le, ?_,
    h'.length_le.trans h.length_le, fun id hid => h'.short id (h.short id hid), ?_⟩
  · intro hl
    have hl' : 0 < b.limit := by
      rw [h.limit]
      exact hl
    exact (h'.own hl').trans (h.own hl)
  · intro id hid
    obtain hm | hm | hm := h.tried id hid
    · exact h'.tried id hm
    · exact .inr (.inl (h'.short id hm))
    · exact .inr (.inr (h'.exhausted hm))

end Follows

/-- The groups of a run, one by one. Source: none: infrastructure. Kind: L -/
theorem forall₂_follows_trans {as bs cs : List SocketGroup} (h : List.Forall₂ Follows as bs)
    (h' : List.Forall₂ Follows bs cs) : List.Forall₂ Follows as cs := by
  induction h generalizing cs with
  | nil => exact h'
  | cons hab _ ih =>
    cases h' with
    | cons hbc hrest => exact .cons (hab.trans hbc) (ih hrest)

/-! ### A pass over the groups -/

variable {env : Answers} {k : ℕ}

/-- A group that no slot of zero can be for. Kind: D -/
def Spared (allowance : ℕ) (g : SocketGroup) : Prop :=
  g.Safe allowance ∨ (0 < g.limit ∧ g.group_allowance < 2 ^ 32 - 1)

/-- What spares a group also does with less. Source: none: infrastructure. Kind: L -/
theorem Spared.mono {g : SocketGroup} {a b : ℕ} (h : Spared a g) (hle : b ≤ a) : Spared b g := by
  obtain (hlt | hne) | hown := h
  · exact .inl (.inl (by omega))
  · exact .inl (.inr hne)
  · exact .inr hown

/-- A group may do something, and no more than is left. Source: `NetworkThread::doGroupsLimited`.
Kind: L -/
theorem groupAllowance_pos {a : ℕ} (ha : 0 < a) (shares : ℕ) :
    0 < groupAllowance env shares a ∧ groupAllowance env shares a ≤ a := by
  unfold groupAllowance
  split_ifs <;> omega

/-- A group's turn: it ends within the share, and if sockets are still ready, the share is used up.
Source: `SocketGroup::process`. Kind: L -/
theorem process_follows (env : Answers) {g : SocketGroup} {ga : ℕ} (hpos : 0 < ga) (h : ga < 2 ^ 32)
    (hn : 0 < g.sockets.length) (hs : Spared ga g) (hk : g.sockets.length + ga < k) (calls : ℕ) :
    ∃ p : SocketGroup.Processed, ∃ g' : SocketGroup, g.process env k ga calls = .ok p ∧
      (if p.ret then p.group else p.group.clear) = g' ∧ Follows g g' ∧
      g'.done + p.allowance = g.done + ga ∧ p.allowance ≤ ga ∧
      (p.ret = true → p.allowance = 0 ∧ 0 < g'.sockets.length) ∧
      (p.ret = false → g'.sockets = []) := by
  obtain ⟨p, hp, hsp, hown, hret, htried⟩ := SocketGroup.process_spec env hpos h hn hs hk calls
  have htot := hsp.total
  have hdone := hsp.done_le
  by_cases hr : p.ret = true
  · refine ⟨p, p.group, hp, if_pos hr, ⟨hsp.limit, hsp.due, hdone, hown, hsp.length_le, hsp.short,
      htried⟩, htot, by omega, fun _ => ⟨hret hr, ?_⟩, fun hf => ?_⟩
    · exact List.length_pos_iff.mpr (hsp.ret.mp hr)
    · rw [hr] at hf
      cases hf
  · have hnil : p.group.sockets = [] := not_not.mp fun hne => hr (hsp.ret.mpr hne)
    refine ⟨p, p.group.clear, hp, if_neg hr, ⟨hsp.limit, hsp.due, hdone, hown, Nat.zero_le _,
      hsp.short, ?_⟩, htot, by omega, fun ht => absurd ht hr, fun _ => rfl⟩
    intro id hid
    obtain hm | hm := htried id hid
    · rw [hnil] at hm
      cases hm
    · exact .inr hm

/-- **A pass ends, within the allowance.** If it leaves sockets that are ready, it has transferred
something; if not, the allowance is used up or no group has a socket left.
Source: `NetworkThread::doGroupsLimited`. Kind: L -/
theorem passGroups_spec (env : Answers) (gs : List SocketGroup) {a : ℕ} (ha : a < 2 ^ 32)
    (hg : ∀ g ∈ gs, Spared a g) (hk : ∀ g ∈ gs, g.sockets.length + a < k) (calls shares : ℕ) :
    ∃ t, passGroups env k gs a calls shares = .ok t ∧ List.Forall₂ Follows gs t.groups ∧
      transferred t.groups + t.allowance = transferred gs + a ∧ t.allowance ≤ a ∧
      (0 < t.num_ready → t.allowance < a) ∧
      (t.num_ready = 0 → t.allowance = 0 ∨ ∀ g ∈ t.groups, g.sockets = []) := by
  induction gs generalizing a calls shares with
  | nil =>
    refine ⟨_, rfl, .nil, rfl, Nat.le_refl _, fun h => absurd h (lt_irrefl _), fun _ => .inr ?_⟩
    intro g hmem
    cases hmem
  | cons g rest ih =>
    have hrest : ∀ g' ∈ rest, Spared a g' := fun g' hmem => hg g' (List.mem_cons_of_mem _ hmem)
    have hkrest : ∀ g' ∈ rest, g'.sockets.length + a < k :=
      fun g' hmem => hk g' (List.mem_cons_of_mem _ hmem)
    have hkg : g.sockets.length + a < k := hk g List.mem_cons_self
    by_cases h0 : a = 0
    · refine ⟨⟨g :: rest, a, calls, shares, 0⟩, ?_, ?_, rfl, Nat.le_refl _,
        fun h => absurd h (lt_irrefl _), fun _ => .inl h0⟩
      · rw [passGroups, if_pos h0]
      · exact List.forall₂_same.mpr fun x _ => Follows.refl x
    by_cases hn : 0 < g.sockets.length
    · obtain ⟨ga, hga⟩ : ∃ ga, groupAllowance env shares a = ga := ⟨_, rfl⟩
      obtain ⟨hpos, hle⟩ : 0 < ga ∧ ga ≤ a := hga ▸ groupAllowance_pos (Nat.pos_of_ne_zero h0) shares
      obtain ⟨p, g', hp, hg', hfol, htot, hpa, htrue, hfalse⟩ := process_follows (k := k) env
        hpos (by omega) hn ((hg g List.mem_cons_self).mono hle) (by omega) calls
      -- what is left for the other groups
      have hleft : a - (ga - p.allowance) ≤ a := Nat.sub_le _ _
      obtain ⟨t, ht, hfols, hsum, hta, hready, hnone⟩ := ih (a := a - (ga - p.allowance)) (by omega)
        (fun x hmem => (hrest x hmem).mono hleft)
        (fun x hmem => lt_of_le_of_lt (Nat.add_le_add_left hleft _) (hkrest x hmem)) p.calls
        (shares + 1)
      refine ⟨{ t with
        groups := g' :: t.groups
        num_ready := (if p.ret then g'.sockets.length else 0) + t.num_ready }, ?_,
        .cons hfol hfols, ?_, ?_, ?_, ?_⟩
      · have hm : minus ga p.allowance = .ok (ga - p.allowance) := if_pos hpa
        rw [passGroups, if_neg h0, if_pos hn]
        simp only [hga, bind, Except.bind, hp, hm, hg', if_pos (show a ≥ ga - p.allowance by omega), ht,
          pure, Except.pure]
      · show g'.done + transferred t.groups + t.allowance = g.done + transferred rest + a
        omega
      · show t.allowance ≤ a
        omega
      · intro hr
        show t.allowance < a
        by_cases hret : p.ret = true
        · have hzero := (htrue hret).1
          omega
        · have hr' : 0 < (if p.ret then g'.sockets.length else 0) + t.num_ready := hr
          rw [if_neg hret, Nat.zero_add] at hr'
          have hlt := hready hr'
          omega
      · intro hr
        have hr' : (if p.ret then g'.sockets.length else 0) + t.num_ready = 0 := hr
        by_cases hret : p.ret = true
        · have hlen := (htrue hret).2
          rw [if_pos hret] at hr'
          omega
        · rw [if_neg hret, Nat.zero_add] at hr'
          refine (hnone hr').imp_right fun hall x hmem => ?_
          obtain rfl | hmem := List.mem_cons.mp hmem
          · exact hfalse (Bool.eq_false_iff.mpr hret)
          · exact hall x hmem
    · have hnil : g.sockets = [] := List.eq_nil_of_length_eq_zero (by omega)
      obtain ⟨t, ht, hfols, hsum, hta, hready, hnone⟩ := ih ha hrest hkrest calls shares
      refine ⟨{ t with groups := g :: t.groups }, ?_, .cons (Follows.refl g) hfols, ?_, hta, hready, ?_⟩
      · rw [passGroups, if_neg h0, if_neg hn]
        simp only [bind, Except.bind, ht, pure, Except.pure]
      · show g.done + transferred t.groups + t.allowance = g.done + transferred rest + a
        omega
      · intro hr
        refine (hnone hr).imp_right fun hall x hmem => ?_
        obtain rfl | hmem := List.mem_cons.mp hmem
        · exact hnil
        · exact hall x hmem

/-! ### A run -/

/-- What a run has kept: it transferred no more than the thread's allowance, and each limited group
no more than its own; at the end the allowance is used up, or each group has used up its own or had
every socket transfer less than it might. Kind: D -/
structure Kept (groups : List SocketGroup) (allowance : ℕ) (t : Turn) : Prop where
  total : transferred t.groups + t.allowance = allowance
  own : List.Forall₂ (fun g g' => 0 < g.limit → g'.done ≤ g.due) groups t.groups
  ended : t.allowance = 0 ∨ List.Forall₂ (fun g g' => (0 < g.limit ∧ g'.done = g.due) ∨
    ∀ id, some id ∈ g.sockets → id ∈ g'.short) groups t.groups

/-- The outer loop, for the groups and the allowance it starts with. Kind: D -/
structure Running (groups : List SocketGroup) (allowance : ℕ) (t : Turn) : Prop where
  follows : List.Forall₂ Follows groups t.groups
  total : transferred t.groups + t.allowance = transferred groups + allowance
  allowance_le : t.allowance ≤ allowance
  spared : 0 < t.num_ready → ∀ g ∈ t.groups, Spared t.allowance g
  done : t.num_ready = 0 → t.allowance = 0 ∨ ∀ g ∈ t.groups, g.sockets = []

/-- An element on the right has its partner on the left. Source: `net/networkthread.h`,
`net/networkthread.cpp`. Kind: L -/
theorem exists_of_forall₂ {α β : Type*} {R : α → β → Prop} {as : List α} {bs : List β}
    (h : List.Forall₂ R as bs) {b : β} (hb : b ∈ bs) : ∃ a ∈ as, R a b := by
  induction h with
  | nil => cases hb
  | cons hab _ ih =>
    obtain rfl | hb := List.mem_cons.mp hb
    · exact ⟨_, List.mem_cons_self, hab⟩
    · obtain ⟨a, ha, hr⟩ := ih hb
      exact ⟨a, List.mem_cons_of_mem _ ha, hr⟩

/-- A group's sockets are among those ready. Source: `DownloadThread::update`,
`UploadThread::update`. Kind: L -/
theorem length_le_ready {gs : List SocketGroup} {g : SocketGroup} (h : g ∈ gs) :
    g.sockets.length ≤ ready gs :=
  List.single_le_sum (fun _ _ => Nat.zero_le _) _
    (List.mem_map_of_mem (f := fun g : SocketGroup => g.sockets.length) h)

/-- A round of the outer loop. Source: `SocketGroup::processLimited`. Kind: L -/
theorem Running.round {gs : List SocketGroup} {a : ℕ} (ha : a < 2 ^ 32) (hk : ready gs + a < k)
    {t : Turn} (h : Running gs a t) (hready : 0 < t.num_ready) :
    ∃ t', doGroupsLimited env k t = .ok t' ∧ Running gs a t' ∧
      2 * t'.allowance + t'.num_ready < 2 * t.allowance + t.num_ready := by
  have hle := h.allowance_le
  have hbound : ∀ g ∈ t.groups, g.sockets.length + t.allowance < k := by
    intro g hmem
    obtain ⟨g₀, hmem₀, hfol⟩ := exists_of_forall₂ h.follows hmem
    have h1 := hfol.length_le
    have h2 := length_le_ready hmem₀
    omega
  obtain ⟨t', ht', hfol, hsum, hta, hpos, hnone⟩ := passGroups_spec env t.groups
    (by omega) (h.spared hready) hbound t.calls t.shares
  have htot := h.total
  refine ⟨{ t' with num_ready := if t'.num_ready > 0 then 1 else 0 }, ?_,
    ⟨forall₂_follows_trans h.follows hfol, ?_, ?_, ?_, ?_⟩, ?_⟩
  · rw [doGroupsLimited, ht']
    rfl
  · show transferred t'.groups + t'.allowance = transferred gs + a
    omega
  · show t'.allowance ≤ a
    omega
  · intro hr g _
    by_cases hp : t'.num_ready > 0
    · -- something was transferred, so that not all the 2^32 - 1 bytes are left
      have hlt := hpos hp
      exact .inl (.inl (show t'.allowance < 2 ^ 32 - 1 by omega))
    · exact absurd hr (by simp [hp])
  · intro hr
    apply hnone
    by_contra hne
    have hp : t'.num_ready > 0 := Nat.pos_of_ne_zero hne
    simp [hp] at hr
  · show 2 * t'.allowance + (if t'.num_ready > 0 then 1 else 0) < _
    split_ifs with hp
    · have hlt := hpos hp
      omega
    · omega

/-- **A run ends and keeps the limits, if no group can be given a slot of zero.**.
Source: `NetworkThread::doGroups`. Kind: L -/
theorem doGroups_spec {gs : List SocketGroup} {a limit : ℕ} (ha : a < 2 ^ 32) (hl : limit ≠ 0)
    (hs : ∀ g ∈ gs, Spared a g.calcAllowance) (hk : 3 * ready gs + 2 * a < k) :
    ∃ t, doGroups env k gs (ready gs) limit a = .ok t ∧ Kept gs a t := by
  have hready : ready (gs.map SocketGroup.calcAllowance) = ready gs := by
    unfold ready
    rw [List.map_map]
    rfl
  have hzero : transferred (gs.map SocketGroup.calcAllowance) = 0 := by
    unfold transferred
    rw [List.map_map]
    apply List.sum_eq_zero
    intro n hn
    obtain ⟨g, -, rfl⟩ := List.mem_map.mp hn
    rfl
  have hinit : Running (gs.map SocketGroup.calcAllowance) a
      ⟨gs.map SocketGroup.calcAllowance, a, 0, 0, ready gs⟩ := by
    refine ⟨List.forall₂_same.mpr fun x _ => Follows.refl x, rfl, Nat.le_refl _, ?_, ?_⟩
    · intro _ g hmem
      obtain ⟨g₀, hmem₀, rfl⟩ := List.mem_map.mp hmem
      exact hs g₀ hmem₀
    · intro hr
      refine .inr fun g hmem => List.eq_nil_of_length_eq_zero ?_
      have h1 := length_le_ready hmem
      rw [hready, show ready gs = 0 from hr] at h1
      exact Nat.le_zero.mp h1
  have hloop : ∃ t, whileM (fun t : Turn => t.allowance > 0 ∧ t.num_ready > 0)
      (doGroupsLimited env k) .running k
        ⟨gs.map SocketGroup.calcAllowance, a, 0, 0, ready gs⟩ = .ok t ∧
      Running (gs.map SocketGroup.calcAllowance) a t ∧ ¬ (t.allowance > 0 ∧ t.num_ready > 0) :=
    whileM_total (Running (gs.map SocketGroup.calcAllowance) a)
      (fun t => 2 * t.allowance + t.num_ready)
      (fun t ht hc => ht.round ha (by omega) hc.2) hinit (show 2 * a + ready gs < k by omega)
  obtain ⟨t, ht, hrun, hend⟩ := hloop
  have hfol : List.Forall₂ (fun g g' => Follows g.calcAllowance g') gs t.groups :=
    List.forall₂_map_left_iff.mp hrun.follows
  -- the own allowance of a limited group is what is due
  have hown : ∀ g g' : SocketGroup, Follows g.calcAllowance g' → 0 < g.limit →
      g'.done + g'.group_allowance = g.due := by
    intro g g' h hpos
    have h1 := h.own hpos
    rw [show g.calcAllowance.group_allowance = g.due from if_pos hpos,
      show g.calcAllowance.done = 0 from rfl] at h1
    omega
  refine ⟨{ t with groups := t.groups.map SocketGroup.clear }, ?_, ?_, ?_, ?_⟩
  · unfold doGroups
    rw [if_neg hl, ht]
    rfl
  · have hsame : transferred (t.groups.map SocketGroup.clear) = transferred t.groups := by
      unfold transferred
      rw [List.map_map]
      rfl
    have htot := hrun.total
    show transferred (t.groups.map SocketGroup.clear) + t.allowance = a
    omega
  · refine List.forall₂_map_right_iff.mpr (hfol.imp fun g g' h hpos => ?_)
    have h1 := hown g g' h hpos
    show g'.done ≤ g.due
    omega
  · by_cases hall : t.allowance = 0
    · exact .inl hall
    · have hnr : t.num_ready = 0 := by omega
      have hnil := (hrun.done hnr).resolve_left hall
      right
      refine List.forall₂_map_right_iff.mpr ?_
      have hboth : List.Forall₂ (fun g g' => Follows g.calcAllowance g' ∧ g'.sockets = []) gs
          t.groups := by
        refine List.forall₂_iff_zip.mpr ⟨hfol.length_eq, fun {g g'} hz => ?_⟩
        exact ⟨List.forall₂_zip hfol hz, hnil g' (List.of_mem_zip hz).2⟩
      refine hboth.imp fun g g' h => ?_
      by_cases hex : g'.Exhausted
      · have hpos : 0 < g.limit := by
          have h1 := hex.1
          rw [h.1.limit] at h1
          exact h1
        have h1 := hown g g' h.1 hpos
        have h2 := hex.2
        exact .inl ⟨hpos, show g'.done = g.due by omega⟩
      · right
        intro id hid
        obtain hm | hm | hm := h.1.tried id hid
        · rw [h.2] at hm
          cases hm
        · exact hm
        · exact absurd hm hex

/-! ### When the limits hold -/

/-- Sockets that give nothing, shares that come to zero. Kind: D -/
def nothing : Answers := ⟨fun _ => 0, fun _ => 0⟩

/-- One socket, and 2^32 - 1 bytes for it: the group's turn has no end.
Source: `SocketGroup::process`. Kind: L -/
theorem process_starved {g : SocketGroup} (hg : ¬ Spared (2 ^ 32 - 1) g) (calls : ℕ) :
    g.process nothing k (2 ^ 32 - 1) calls = .error .running := by
  obtain ⟨hsafe, hown⟩ := not_or.mp hg
  obtain ⟨id, hid⟩ : ∃ id, g.sockets = [some id] := by
    by_contra hne
    exact hsafe (.inr (not_exists.mp hne))
  have hstarved := SocketGroup.processLimited_starved (k := k) nothing hid (fun _ => rfl) calls
  unfold SocketGroup.process
  by_cases hl : 0 < g.limit
  · have hle : 2 ^ 32 - 1 ≤ g.group_allowance := by
      by_contra hlt
      exact hown ⟨hl, not_le.mp hlt⟩
    rw [if_pos hl, if_neg (by decide), if_pos hle, hstarved]
    rfl
  · rw [if_neg hl, if_pos (by decide), hstarved]

/-- The groups before such a group leave all the bytes to it.
Source: `NetworkThread::doGroupsLimited`. Kind: L -/
theorem passGroups_starved (gs : List SocketGroup) {g : SocketGroup} (hmem : g ∈ gs)
    (hg : ¬ Spared (2 ^ 32 - 1) g) (calls shares : ℕ) (t : Turn) :
    passGroups nothing k gs (2 ^ 32 - 1) calls shares ≠ .ok t := by
  induction gs generalizing calls shares t with
  | nil => cases hmem
  | cons x rest ih =>
    intro ht
    rw [passGroups, if_neg (by decide)] at ht
    have hshare : groupAllowance nothing shares (2 ^ 32 - 1) = 2 ^ 32 - 1 := if_pos (.inr rfl)
    by_cases hn : x.sockets.length > 0
    · rw [if_pos hn, hshare] at ht
      cases hp : x.process nothing k (2 ^ 32 - 1) calls with
      | error e =>
        simp only [bind, Except.bind, hp] at ht
        cases ht
      | ok p =>
        have hstill := SocketGroup.process_still (fun _ => rfl) (by decide) hp
        simp only [hp, bind, Except.bind, hstill, minus, le_refl, if_true, Nat.sub_self, ge_iff_le,
          Nat.zero_le, Nat.sub_zero] at ht
        obtain rfl | hmem := List.mem_cons.mp hmem
        · rw [process_starved hg] at hp
          cases hp
        · cases hrec : passGroups nothing k rest (2 ^ 32 - 1) p.calls (shares + 1) with
          | error e =>
            rw [hrec] at ht
            cases ht
          | ok t' => exact ih hmem _ _ t' hrec
    · rw [if_neg hn] at ht
      obtain rfl | hmem := List.mem_cons.mp hmem
      · -- the group has one socket
        exact hg (.inl (.inr fun id hid => hn (by rw [hid]; exact Nat.one_pos)))
      · cases hrec : passGroups nothing k rest (2 ^ 32 - 1) calls shares with
        | error e =>
          rw [hrec] at ht
          cases ht
        | ok t' => exact ih hmem _ _ t' hrec

/-- A run with such a group has no end. Source: `NetworkThread::doGroups`. Kind: L -/
theorem doGroups_starved {gs : List SocketGroup} {g : SocketGroup} (hmem : g ∈ gs)
    (hg : ¬ Spared (2 ^ 32 - 1) g.calcAllowance) {limit : ℕ} (hl : limit ≠ 0) (t : Turn) :
    doGroups nothing k gs (ready gs) limit (2 ^ 32 - 1) ≠ .ok t := by
  have hready : 0 < ready gs := by
    have hone : 0 < g.sockets.length := by
      by_contra hzero
      have hnil : g.sockets = [] := List.eq_nil_of_length_eq_zero (by omega)
      exact hg (.inl (.inr fun id hid => List.cons_ne_nil _ _ (hid.symm.trans hnil)))
    exact Nat.lt_of_lt_of_le hone (length_le_ready hmem)
  intro ht
  unfold doGroups at ht
  rw [if_neg hl] at ht
  cases k with
  | zero => cases ht
  | succ k =>
    rw [whileM, if_pos ⟨Nat.succ_pos _, hready⟩, doGroupsLimited] at ht
    cases hp : passGroups nothing (k + 1) (gs.map SocketGroup.calcAllowance) (2 ^ 32 - 1) 0 0 with
    | error e =>
      rw [hp] at ht
      cases ht
    | ok t' => exact passGroups_starved _ (List.mem_map_of_mem hmem) hg 0 0 t' hp

/-- **The bandwidth limits: a run with a limit ends and keeps them, whatever the sockets transfer
and the shares come to, if and only if no group with just one socket can be given 2^32 - 1 bytes.**
The slot of one socket is the allowance and one more, and 2^32 is a slot of zero.
Source: `NetworkThread::doGroups`. Kind: P -/
theorem limits_iff (groups : List SocketGroup) {limit allowance : ℕ} (hl : limit ≠ 0)
    (ha : allowance < 2 ^ 32) :
    (∀ env, ∃ k₀, ∀ k ≥ k₀, ∃ t, doGroups env k groups (ready groups) limit allowance = .ok t ∧
      Kept groups allowance t) ↔
    ∀ g ∈ groups, g.Safe allowance ∨ (0 < g.limit ∧ g.due < 2 ^ 32 - 1) := by
  have hcond : ∀ g : SocketGroup, Spared allowance g.calcAllowance ↔
      g.Safe allowance ∨ (0 < g.limit ∧ g.due < 2 ^ 32 - 1) := by
    intro g
    refine or_congr Iff.rfl (and_congr_right fun hpos => ?_)
    rw [show g.calcAllowance.group_allowance = g.due from if_pos hpos]
  constructor
  · intro h g hmem
    by_contra hg
    have hall : allowance = 2 ^ 32 - 1 := by
      have hge : ¬ allowance < 2 ^ 32 - 1 := fun hlt => hg (.inl (.inl hlt))
      omega
    obtain ⟨k, hk⟩ := h nothing
    obtain ⟨t, ht, -⟩ := hk k (Nat.le_refl _)
    subst hall
    exact doGroups_starved hmem (fun hs => hg ((hcond g).mp hs)) hl t ht
  · intro h env
    refine ⟨3 * ready groups + 2 * allowance + 1, fun k hk => ?_⟩
    exact doGroups_spec ha hl (fun g hmem => (hcond g).mpr (h g hmem)) hk

/-- Sockets that have thirty bytes each time they are asked, and shares of forty. Kind: D -/
def busy : Answers := ⟨fun _ => 30, fun _ => 40⟩

/-- Two groups, one of them limited, whose sockets transfer what they are let: the limits are kept.
One socket alone that can be given 2^32 - 1 bytes: not with all answers.
Source: `NetworkThread::doGroups`. Kind: L -/
theorem limits_two :
    (∃ k₀, ∀ k ≥ k₀, ∃ t,
      doGroups busy k [⟨0, [some 1], 0, 0, 0, []⟩, ⟨500, [some 2, none], 0, 51, 0, []⟩]
        (ready [⟨0, [some 1], 0, 0, 0, []⟩, ⟨500, [some 2, none], 0, 51, 0, []⟩]) 1000 102 = .ok t ∧
      Kept [⟨0, [some 1], 0, 0, 0, []⟩, ⟨500, [some 2, none], 0, 51, 0, []⟩] 102 t) ∧
    ¬ ∀ env, ∃ k₀, ∀ k ≥ k₀, ∃ t, doGroups env k [⟨0, [some 1], 0, 0, 0, []⟩]
      (ready [⟨0, [some 1], 0, 0, 0, []⟩]) 1000 (2 ^ 32 - 1) = .ok t ∧
      Kept [⟨0, [some 1], 0, 0, 0, []⟩] (2 ^ 32 - 1) t := by
  refine ⟨(limits_iff _ (by decide) (by decide)).mpr (fun _ _ => .inl (.inl (by decide))) busy, ?_⟩
  rw [limits_iff _ (by decide) (by decide)]
  intro h
  rcases h _ (List.mem_singleton_self _) with (hlt | hne) | hlim
  · exact absurd hlt (by decide)
  · exact hne 1 rfl
  · exact absurd hlim.1 (by decide)

/-- One socket, which gives nothing, and all the 2^32 - 1 bytes: no number of rounds is enough.
Source: `NetworkThread::doGroups`. Kind: L -/
theorem doGroups_endless (k : ℕ) : doGroups nothing k [⟨0, [some 1], 0, 0, 0, []⟩]
    (ready [⟨0, [some 1], 0, 0, 0, []⟩]) (2 ^ 32 - 1) (2 ^ 32 - 1) = .error .running := by
  have hg : ¬ Spared (2 ^ 32 - 1) (SocketGroup.calcAllowance ⟨0, [some 1], 0, 0, 0, []⟩) := by
    rintro ((hlt | hne) | hlim)
    · exact absurd hlt (by decide)
    · exact hne 1 rfl
    · exact absurd hlim.1 (by decide)
  cases k with
  | zero => rfl
  | succ k =>
    have hp := process_starved (k := k + 1) hg 0
    have hshare : groupAllowance nothing 0 (2 ^ 32 - 1) = 2 ^ 32 - 1 := if_pos (.inr rfl)
    have hpass : passGroups nothing (k + 1) [SocketGroup.calcAllowance ⟨0, [some 1], 0, 0, 0, []⟩]
        (2 ^ 32 - 1) 0 0 = .error .running := by
      rw [passGroups, if_neg (by decide), if_pos (by decide)]
      simp only [hshare, hp, bind, Except.bind]
    unfold doGroups
    rw [if_neg (by decide), whileM, if_pos ⟨Nat.succ_pos _, Nat.one_pos⟩]
    simp only [doGroupsLimited, List.map_cons, List.map_nil, hpass, bind, Except.bind]

/-- So the limits do not hold: the run does not end. Source: `NetworkThread::doGroups`. Kind: L -/
theorem limits_endless : ¬ ∀ env, ∃ k₀, ∀ k ≥ k₀, ∃ t,
    doGroups env k [⟨0, [some 1], 0, 0, 0, []⟩] (ready [⟨0, [some 1], 0, 0, 0, []⟩]) (2 ^ 32 - 1)
      (2 ^ 32 - 1) = .ok t ∧ Kept [⟨0, [some 1], 0, 0, 0, []⟩] (2 ^ 32 - 1) t := by
  intro h
  obtain ⟨k, hk⟩ := h nothing
  obtain ⟨t, ht, -⟩ := hk k (Nat.le_refl _)
  rw [doGroups_endless] at ht
  cases ht

end KTorrent.Net
