import KTorrent.Lib.While
import KTorrent.Util.Word
import Mathlib.Data.List.Basic

/-!
# `net::SocketGroup`

A group shares its allowance out among the sockets that are ready: each gets a slot, and one that
transfers less than its slot is out of the list. The own allowance of a limited group is what it may
transfer in one run of the thread.

* `processLimited_spec` — the loop ends, has transferred no more than the allowance, and either
  used it up or tried every socket, unless the slot has wrapped to zero.
* `process_spec` — the same for `process`, with the own allowance of a limited group.
* `processLimited_starved` — one socket and the allowance 2^32 - 1: the slot is zero, and a socket
  that has nothing to give keeps the loop going.

`done` and `short` record what was transferred and the sockets that transferred less than they
might. The source has no such fields.

Source: `net/socketgroup.h`, `net/socketgroup.cpp`
-/

namespace KTorrent.Net

open KTorrent.Lib KTorrent.Util

/-- What stops a run: a division by zero, an allowance below zero, or no end. Kind: D -/
inductive Fault
  | divByZero
  | wrapped
  | running
deriving DecidableEq

/-- What the sockets can transfer, call by call, and the floating-point shares. Kind: D -/
structure Answers where
  answer : ℕ → ℕ
  share : ℕ → ℕ

/-- What a socket transfers when it is asked for `max` bytes, where 0 is no limit.
Source: `BufferedSocket::readBuffered`, `BufferedSocket::writeBuffered`. Kind: D -/
def Answers.transfer (env : Answers) (calls max : ℕ) : ℕ :=
  if max = 0 then u32 (env.answer calls) else min (env.answer calls) max

/-- A subtraction of allowances; a result below zero is a fault. Kind: D -/
def minus (a b : ℕ) : Except Fault ℕ := if b ≤ a then .ok (a - b) else .error .wrapped

/-- Source: `net/socketgroup.h`, `SocketGroup`. Kind: D -/
structure SocketGroup where
  /-- Bytes per second; zero is no limit. -/
  limit : ℕ
  /-- `none` is a null pointer. -/
  sockets : List (Option ℕ)
  group_allowance : ℕ
  /-- The floating-point value `calcAllowance` comes to. -/
  due : ℕ
  done : ℕ := 0
  short : List ℕ := []

namespace SocketGroup

/-- Source: `SocketGroup::clear`. Kind: D -/
def clear (g : SocketGroup) : SocketGroup := { g with sockets := [] }

/-- The records of a run start here. Source: `SocketGroup::calcAllowance`. Kind: D -/
def calcAllowance (g : SocketGroup) : SocketGroup :=
  { g with group_allowance := if g.limit > 0 then g.due else 0, done := 0, short := [] }

/-- The loop of `processLimited`: the sockets before the iterator and from it on. Kind: D -/
structure Limited where
  front : List (Option ℕ)
  back : List (Option ℕ)
  allowance : ℕ
  calls : ℕ
  done : ℕ
  short : List ℕ

/-- The list. Kind: D -/
def Limited.sockets (s : Limited) : List (Option ℕ) := s.front ++ s.back

/-- `if (itr == sockets.end()) itr = sockets.begin();`. Kind: D -/
def Limited.wrapAround (s : Limited) : Limited :=
  if s.back = [] then { s with front := [], back := s.front } else s

/-- One round. Source: `SocketGroup::processLimited`, the loop. Kind: D -/
def Limited.round (env : Answers) (bslot : ℕ) (s : Limited) : Except Fault Limited :=
  let as := if bslot > s.allowance then s.allowance else bslot
  match s.back with
  | [] => .ok s
  | none :: rest => .ok { s with back := rest }.wrapAround
  | some id :: rest =>
    let ret := env.transfer s.calls as
    let t := if ret ≠ as then { s with back := rest, short := s.short ++ [id] }
      else { s with front := s.front ++ [some id], back := rest }
    .ok { t with
      allowance := if ret > s.allowance then 0 else s.allowance - ret
      calls := s.calls + 1
      done := s.done + ret }.wrapAround

/-- The group, the allowance that is left, the number of calls and the returned value. Kind: D -/
structure Processed where
  group : SocketGroup
  allowance : ℕ
  calls : ℕ
  ret : Bool

/-- `k` bounds the rounds. Source: `SocketGroup::processLimited`. Kind: D -/
def processLimited (env : Answers) (k : ℕ) (g : SocketGroup) (allowance calls : ℕ) :
    Except Fault Processed :=
  if g.sockets.length = 0 then .error .divByZero
  else do
    let bslot := u32 (allowance / g.sockets.length + 1)
    let s ← whileM (fun s : Limited => s.sockets.length > 0 ∧ s.allowance > 0)
      (Limited.round env bslot) .running k ⟨[], g.sockets, allowance, calls, 0, []⟩
    return ⟨{ g with
      sockets := s.sockets
      done := g.done + s.done
      short := g.short ++ s.short }, s.allowance, s.calls, decide (s.sockets.length > 0)⟩

/-- Source: `SocketGroup::processUnlimited`. Kind: D -/
def processUnlimited (env : Answers) (g : SocketGroup) (calls : ℕ) : SocketGroup × ℕ :=
  g.sockets.foldl
    (fun r s => if s.isSome then ({ r.1 with done := r.1.done + env.transfer r.2 0 }, r.2 + 1) else r)
    (g, calls)

/-- Source: `SocketGroup::process`. Kind: D -/
def process (env : Answers) (k : ℕ) (g : SocketGroup) (global_allowance calls : ℕ) :
    Except Fault Processed :=
  if g.limit > 0 then do
    let r ←
      if global_allowance = 0 then do
        let p ← processLimited env k g g.group_allowance calls
        pure { p with
          group := { p.group with group_allowance := p.allowance }
          allowance := global_allowance }
      else if global_allowance ≤ g.group_allowance then do
        let p ← processLimited env k g global_allowance calls
        let done ← minus global_allowance p.allowance
        pure { p with
          group := { p.group with
            group_allowance := if p.group.group_allowance < done then 0
              else p.group.group_allowance - done } }
      else do
        let p ← processLimited env k g g.group_allowance calls
        let done ← minus g.group_allowance p.allowance
        pure { p with
          group := { p.group with group_allowance := p.allowance }
          allowance := if global_allowance < done then 0 else global_allowance - done }
    -- if group allowance is used up, this group can no longer do anything
    if r.group.group_allowance = 0 then return { r with group := r.group.clear, ret := false }
    else return r
  else if global_allowance > 0 then processLimited env k g global_allowance calls
  else
    let r := processUnlimited env g calls
    return ⟨r.1, global_allowance, r.2, false⟩

/-! ### The loop over the sockets -/

namespace Limited

/-- Going round leaves the sockets. Source: `net/socketgroup.h`, `net/socketgroup.cpp`. Kind: L -/
@[simp] theorem sockets_wrapAround (s : Limited) : s.wrapAround.sockets = s.sockets := by
  unfold wrapAround
  split_ifs with h
  · simp [sockets, h]
  · rfl

/-- Going round leaves everything else. Source: `net/socketgroup.h`, `net/socketgroup.cpp`.
Kind: L -/
theorem wrapAround_eq (s : Limited) : s.wrapAround.allowance = s.allowance ∧
    s.wrapAround.calls = s.calls ∧ s.wrapAround.done = s.done ∧ s.wrapAround.short = s.short := by
  unfold wrapAround
  split_ifs <;> exact ⟨rfl, rfl, rfl, rfl⟩

/-- The iterator is at the end of an empty list only. Source: `net/socketgroup.h`,
`net/socketgroup.cpp`. Kind: L -/
theorem back_wrapAround (s : Limited) (h : s.wrapAround.back = []) : s.wrapAround.sockets = [] := by
  unfold wrapAround at h ⊢
  split_ifs at h ⊢ with hb
  · simp only [sockets, List.nil_append]
    exact h
  · exact absurd h hb

/-- The loop for a list and an allowance: what was transferred came out of the allowance, and every
socket is still in the list or has transferred less than it might. Kind: D -/
structure Keeps (sockets : List (Option ℕ)) (allowance : ℕ) (s : Limited) : Prop where
  total : s.done + s.allowance = allowance
  length_le : s.sockets.length ≤ sockets.length
  subset : ∀ x ∈ s.sockets, x ∈ sockets
  tried : ∀ id, some id ∈ sockets → some id ∈ s.sockets ∨ id ∈ s.short
  back : s.back = [] → s.sockets = []

variable {env : Answers} {bslot : ℕ} {sockets : List (Option ℕ)} {allowance : ℕ} {s : Limited}

/-- What a round leaves, before the iterator wraps around. Source: `net/socketgroup.h`,
`net/socketgroup.cpp`. Kind: L -/
theorem Keeps.next {t : Limited} (h : Keeps sockets allowance s)
    (htotal : t.done + t.allowance = s.done + s.allowance)
    (hlen : t.sockets.length ≤ s.sockets.length) (hsub : ∀ x ∈ t.sockets, x ∈ s.sockets)
    (htried : ∀ id, some id ∈ s.sockets → some id ∈ t.sockets ∨ id ∈ t.short)
    (hshort : ∀ id ∈ s.short, id ∈ t.short) : Keeps sockets allowance t.wrapAround := by
  obtain ⟨e1, -, e3, e4⟩ := wrapAround_eq t
  refine ⟨?_, ?_, ?_, ?_, back_wrapAround t⟩
  · rw [e1, e3, htotal]
    exact h.total
  · rw [sockets_wrapAround]
    exact Nat.le_trans hlen h.length_le
  · intro x hx
    rw [sockets_wrapAround] at hx
    exact h.subset x (hsub x hx)
  · intro id hid
    rw [sockets_wrapAround, e4]
    obtain hm | hm := h.tried id hid
    · exact htried id hm
    · exact .inr (hshort id hm)

/-- **A round keeps this, and uses up a socket or a part of the allowance.**.
Source: `SocketGroup::processLimited`. Kind: L -/
theorem round_keeps (hslot : 0 < bslot ∨ ∀ x ∈ sockets, x = none) (h : Keeps sockets allowance s)
    (hs : 0 < s.sockets.length) (ha : 0 < s.allowance) :
    ∃ s', s.round env bslot = .ok s' ∧ Keeps sockets allowance s' ∧
      s'.sockets.length + s'.allowance < s.sockets.length + s.allowance := by
  cases hb : s.back with
  | nil =>
    rw [h.back hb] at hs
    exact absurd hs (lt_irrefl _)
  | cons x rest =>
    have hsock : s.sockets = s.front ++ x :: rest := by rw [Limited.sockets, hb]
    cases x with
    | none =>
      refine ⟨{ s with back := rest }.wrapAround, by simp only [round, hb], ?_, ?_⟩
      · apply h.next (t := { s with back := rest }) rfl
        · simp [Limited.sockets, hb]
        · intro x hx
          rw [hsock]
          obtain hx | hx := List.mem_append.mp hx
          · exact List.mem_append_left _ hx
          · exact List.mem_append_right _ (List.mem_cons_of_mem _ hx)
        · intro id hid
          rw [hsock] at hid
          left
          obtain hm | hm := List.mem_append.mp hid
          · exact List.mem_append_left _ hm
          · obtain hm | hm := List.mem_cons.mp hm
            · cases hm
            · exact List.mem_append_right _ hm
        · exact fun id hid => hid
      · rw [sockets_wrapAround, (wrapAround_eq _).1, hsock]
        simp only [Limited.sockets, List.length_append, List.length_cons]
        omega
    | some id =>
      have hpos : 0 < bslot := by
        obtain hp | hn := hslot
        · exact hp
        · have hmem : some id ∈ sockets := h.subset _ (by rw [hsock]; simp)
          cases hn _ hmem
      -- the slot is not zero, so that a socket transfers no more than it is asked for
      obtain ⟨as, has⟩ : ∃ as, (if bslot > s.allowance then s.allowance else bslot) = as := ⟨_, rfl⟩
      have has0 : 0 < as ∧ as ≤ s.allowance := by
        split_ifs at has <;> omega
      have hret : env.transfer s.calls as ≤ as := by
        unfold Answers.transfer
        rw [if_neg (by omega)]
        exact min_le_right _ _
      obtain ⟨ret, hr⟩ : ∃ ret, env.transfer s.calls as = ret := ⟨_, rfl⟩
      rw [hr] at hret
      have hround : s.round env bslot = .ok ({ (if ret ≠ as
          then { s with back := rest, short := s.short ++ [id] }
          else { s with front := s.front ++ [some id], back := rest }) with
          allowance := s.allowance - ret
          calls := s.calls + 1
          done := s.done + ret } : Limited).wrapAround := by
        simp only [round, hb, has, hr, if_neg (show ¬ ret > s.allowance by omega)]
      refine ⟨_, hround, ?_, ?_⟩
      · by_cases hne : ret ≠ as
        · rw [if_pos hne]
          apply h.next
          · show s.done + ret + (s.allowance - ret) = s.done + s.allowance
            omega
          · simp [Limited.sockets, hb]
          · intro x hx
            rw [hsock]
            obtain hx | hx := List.mem_append.mp hx
            · exact List.mem_append_left _ hx
            · exact List.mem_append_right _ (List.mem_cons_of_mem _ hx)
          · intro id' hid
            rw [hsock] at hid
            obtain hm | hm := List.mem_append.mp hid
            · exact .inl (List.mem_append_left _ hm)
            · obtain hm | hm := List.mem_cons.mp hm
              · cases hm
                exact .inr (List.mem_append_right _ List.mem_cons_self)
              · exact .inl (List.mem_append_right _ hm)
          · exact fun id' hid => List.mem_append_left _ hid
        · rw [if_neg hne]
          have hsame : s.front ++ [some id] ++ rest = s.sockets := by
            rw [hsock, List.append_assoc]
            rfl
          apply h.next
          · show s.done + ret + (s.allowance - ret) = s.done + s.allowance
            omega
          · exact Nat.le_of_eq (congrArg List.length hsame)
          · intro x hx
            rw [← hsame]
            exact hx
          · intro id' hid
            rw [← hsame] at hid
            exact .inl hid
          · exact fun id' hid => hid
      · rw [sockets_wrapAround, (wrapAround_eq _).1, hsock]
        by_cases hne : ret ≠ as
        · rw [if_pos hne]
          simp only [Limited.sockets, List.length_append, List.length_cons]
          omega
        · rw [if_neg hne]
          simp only [Limited.sockets, List.length_append, List.length_cons, List.length_nil]
          omega

end Limited

variable {env : Answers} {g : SocketGroup} {allowance k : ℕ}

/-- The slot is not zero: it is only for one socket and all the 2^32 - 1 bytes.
Source: `net/socketgroup.h`, `net/socketgroup.cpp`. Kind: L -/
theorem slot_pos (h : allowance < 2 ^ 32) (hn : 0 < g.sockets.length)
    (hs : allowance < 2 ^ 32 - 1 ∨ g.sockets.length ≠ 1) :
    0 < u32 (allowance / g.sockets.length + 1) := by
  have hlt : allowance / g.sockets.length + 1 < 2 ^ 32 := by
    by_cases h1 : g.sockets.length = 1
    · rw [h1, Nat.div_one]
      have h2 : allowance < 2 ^ 32 - 1 := hs.resolve_right fun hne => hne h1
      omega
    · have h2 : allowance / g.sockets.length ≤ allowance / 2 :=
        Nat.div_le_div_left (by omega) (by decide)
      omega
  rw [u32_of_lt hlt]
  exact Nat.succ_pos _

/-- No call of this group can be given the slot zero: fewer than 2^32 - 1 bytes, or not just one
socket. Kind: D -/
def Safe (g : SocketGroup) (allowance : ℕ) : Prop :=
  allowance < 2 ^ 32 - 1 ∨ ∀ id, g.sockets ≠ [some id]

/-- What processing a group with an allowance leaves: of the group `g`, of the allowance, and what the
returned value says. Kind: D -/
structure Spent (g : SocketGroup) (allowance : ℕ) (p : Processed) : Prop where
  total : p.group.done + p.allowance = g.done + allowance
  done_le : g.done ≤ p.group.done
  limit : p.group.limit = g.limit
  due : p.group.due = g.due
  length_le : p.group.sockets.length ≤ g.sockets.length
  short : ∀ id ∈ g.short, id ∈ p.group.short
  ret : p.ret = true ↔ p.group.sockets ≠ []

/-- **`processLimited` ends, within the allowance; it uses it up or tries every socket.**.
Source: `SocketGroup::processLimited`. Kind: L -/
theorem processLimited_spec (h : allowance < 2 ^ 32) (hn : 0 < g.sockets.length)
    (hs : g.Safe allowance) (hk : g.sockets.length + allowance < k) (calls : ℕ) :
    ∃ p, processLimited env k g allowance calls = .ok p ∧ Spent g allowance p ∧
      p.group.group_allowance = g.group_allowance ∧ (p.allowance = 0 ∨ p.group.sockets = []) ∧
      ∀ id, some id ∈ g.sockets → some id ∈ p.group.sockets ∨ id ∈ p.group.short := by
  have hslot : 0 < u32 (allowance / g.sockets.length + 1) ∨ ∀ x ∈ g.sockets, x = none := by
    by_cases h1 : allowance < 2 ^ 32 - 1 ∨ g.sockets.length ≠ 1
    · exact .inl (slot_pos h hn h1)
    · -- one socket, and it is a null pointer
      right
      obtain ⟨h2, h3⟩ := not_or.mp h1
      obtain ⟨x, hx⟩ := List.length_eq_one_iff.mp (not_not.mp h3)
      cases x with
      | none =>
        intro y hy
        rw [hx] at hy
        exact List.mem_singleton.mp hy
      | some id => exact absurd hx (hs.resolve_left h2 id)
  have hinit : Limited.Keeps g.sockets allowance ⟨[], g.sockets, allowance, calls, 0, []⟩ :=
    ⟨Nat.zero_add _, Nat.le_refl _, fun x hx => hx, fun id hid => .inl hid, fun hb => hb⟩
  have hloop : ∃ s, whileM (fun s : Limited => s.sockets.length > 0 ∧ s.allowance > 0)
      (Limited.round env (u32 (allowance / g.sockets.length + 1))) .running k
        ⟨[], g.sockets, allowance, calls, 0, []⟩ = .ok s ∧ Limited.Keeps g.sockets allowance s ∧
      ¬ (s.sockets.length > 0 ∧ s.allowance > 0) :=
    whileM_total (Limited.Keeps g.sockets allowance) (fun s => s.sockets.length + s.allowance)
      (fun s hs hc => Limited.round_keeps hslot hs hc.1 hc.2) hinit hk
  obtain ⟨s, hw, hkeep, hend⟩ := hloop
  refine ⟨⟨{ g with
    sockets := s.sockets
    done := g.done + s.done
    short := g.short ++ s.short }, s.allowance, s.calls, decide (s.sockets.length > 0)⟩, ?_, ?_, rfl,
    ?_, ?_⟩
  · unfold processLimited
    rw [if_neg (by omega)]
    dsimp only
    rw [hw]
    rfl
  · refine ⟨?_, Nat.le_add_right _ _, rfl, rfl, hkeep.length_le,
      fun id hid => List.mem_append_left _ hid, ?_⟩
    · show g.done + s.done + s.allowance = g.done + allowance
      rw [Nat.add_assoc, hkeep.total]
    · rw [decide_eq_true_eq]
      exact List.length_pos_iff
  · by_cases ha : s.allowance = 0
    · exact .inl ha
    · refine .inr (List.eq_nil_of_length_eq_zero ?_)
      show s.sockets.length = 0
      omega
  · intro id hid
    exact (hkeep.tried id hid).imp_right fun hm => List.mem_append_right _ hm

/-- **One socket, the allowance 2^32 - 1 and a socket that gives nothing: no end.** The slot is
`u32 (2 ^ 32) = 0`, so that a socket that transfers nothing did what it was supposed to do.
Source: `SocketGroup::processLimited`. Kind: P -/
theorem processLimited_starved (env : Answers) {id : ℕ} (hg : g.sockets = [some id]) (henv : ∀ n, env.answer n = 0)
    (calls : ℕ) : processLimited env k g (2 ^ 32 - 1) calls = .error .running := by
  have hround : ∀ s : Limited, (s.front = [] ∧ s.back = [some id] ∧ s.allowance = 2 ^ 32 - 1) →
      (s.sockets.length > 0 ∧ s.allowance > 0) ∧ ∃ s', Limited.round env 0 s = .ok s' ∧
        s'.front = [] ∧ s'.back = [some id] ∧ s'.allowance = 2 ^ 32 - 1 := by
    rintro ⟨front, back, allowance, c, d, sh⟩ ⟨rfl, rfl, rfl⟩
    refine ⟨⟨Nat.one_pos, Nat.succ_pos _⟩, ⟨[], [some id], 2 ^ 32 - 1, c + 1, d, sh⟩, ?_, rfl, rfl,
      rfl⟩
    have hret : env.transfer c 0 = 0 := by
      unfold Answers.transfer
      rw [if_pos rfl, henv]
      rfl
    simp [Limited.round, Limited.wrapAround, hret]
  have hw : whileM (fun s : Limited => s.sockets.length > 0 ∧ s.allowance > 0)
      (Limited.round env 0) .running k ⟨[], [some id], 2 ^ 32 - 1, calls, 0, []⟩ = .error .running :=
    whileM_never _ hround ⟨rfl, rfl, rfl⟩ k
  have hslot : u32 ((2 ^ 32 - 1) / [some id].length + 1) = 0 := by
    rw [List.length_singleton, Nat.div_one]
    decide
  unfold processLimited
  rw [hg, if_neg (show ¬ [some id].length = 0 from Nat.one_ne_zero)]
  dsimp only
  rw [hslot, hw]
  rfl

/-- The group has used up its own allowance. Kind: D -/
def Exhausted (g : SocketGroup) : Prop := 0 < g.limit ∧ g.group_allowance = 0

/-- **`process` ends, within the allowance and the group's own.** If the group can go on, it used
the allowance up; a socket that is out of the list has transferred less than it might, unless the
group's own allowance is used up. Source: `SocketGroup::process`. Kind: L -/
theorem process_spec (env : Answers) {ga : ℕ} (hpos : 0 < ga) (h : ga < 2 ^ 32) (hn : 0 < g.sockets.length)
    (hs : g.Safe ga ∨ (0 < g.limit ∧ g.group_allowance < 2 ^ 32 - 1))
    (hk : g.sockets.length + ga < k) (calls : ℕ) :
    ∃ p, process env k g ga calls = .ok p ∧ Spent g ga p ∧
      (0 < g.limit → p.group.done + p.group.group_allowance = g.done + g.group_allowance) ∧
      (p.ret = true → p.allowance = 0) ∧
      ∀ id, some id ∈ g.sockets →
        some id ∈ p.group.sockets ∨ id ∈ p.group.short ∨ p.group.Exhausted := by
  by_cases hl : 0 < g.limit
  · -- a limited group: `r` is what it has before it is looked whether its own allowance is used up
    obtain ⟨r, hr, hspent, hown, hzero, htried⟩ : ∃ r : Processed,
        process env k g ga calls = (if r.group.group_allowance = 0
          then .ok { r with group := r.group.clear, ret := false } else .ok r) ∧
        Spent g ga r ∧ r.group.done + r.group.group_allowance = g.done + g.group_allowance ∧
        (r.group.group_allowance = 0 ∨ r.allowance = 0 ∨ r.group.sockets = []) ∧
        ∀ id, some id ∈ g.sockets → some id ∈ r.group.sockets ∨ id ∈ r.group.short := by
      by_cases hle : ga ≤ g.group_allowance
      · have hsafe : g.Safe ga := hs.elim id fun h2 => .inl (by omega)
        obtain ⟨p, hp, hsp, hga, hend, htr⟩ := processLimited_spec h hn hsafe hk calls
        have htot := hsp.total
        have hdone := hsp.done_le
        refine ⟨{ p with group := { p.group with
          group_allowance := p.group.group_allowance - (ga - p.allowance) } }, ?_,
          ⟨htot, hdone, hsp.limit, hsp.due, hsp.length_le, hsp.short, hsp.ret⟩, ?_, .inr hend, htr⟩
        · have hm : minus ga p.allowance = .ok (ga - p.allowance) := if_pos (by omega)
          unfold process
          rw [if_pos hl, if_neg (by omega), if_pos hle, hp]
          simp only [bind, Except.bind, hm, pure, Except.pure,
            if_neg (show ¬ p.group.group_allowance < ga - p.allowance by omega)]
        · show p.group.done + (p.group.group_allowance - (ga - p.allowance)) = _
          omega
      · have hown : g.group_allowance < 2 ^ 32 := by omega
        have hsafe : g.Safe g.group_allowance := .inl (by omega)
        obtain ⟨p, hp, hsp, hga, hend, htr⟩ := processLimited_spec hown hn hsafe
          (show g.sockets.length + g.group_allowance < k by omega) calls
        have htot := hsp.total
        have hdone := hsp.done_le
        refine ⟨{ p with
          group := { p.group with group_allowance := p.allowance }
          allowance := ga - (g.group_allowance - p.allowance) }, ?_,
          ⟨?_, hdone, hsp.limit, hsp.due, hsp.length_le, hsp.short, hsp.ret⟩, htot, ?_, htr⟩
        · have hm : minus g.group_allowance p.allowance = .ok (g.group_allowance - p.allowance) :=
            if_pos (by omega)
          unfold process
          rw [if_pos hl, if_neg (by omega), if_neg hle, hp]
          simp only [bind, Except.bind, hm, pure, Except.pure,
            if_neg (show ¬ ga < g.group_allowance - p.allowance by omega)]
        · show p.group.done + (ga - (g.group_allowance - p.allowance)) = g.done + ga
          omega
        · obtain hend | hend := hend
          · exact .inl hend
          · exact .inr (.inr hend)
    have hlim : 0 < r.group.limit := by
      rw [hspent.limit]
      exact hl
    by_cases h0 : r.group.group_allowance = 0
    · rw [if_pos h0] at hr
      refine ⟨_, hr, ⟨hspent.total, hspent.done_le, hspent.limit, hspent.due, Nat.zero_le _,
        hspent.short, ?_⟩, fun _ => hown, ?_, ?_⟩
      · constructor
        · intro hret
          cases hret
        · exact fun hne => absurd rfl hne
      · intro hret
        cases hret
      · intro id hid
        exact .inr (.inr ⟨hlim, h0⟩)
    · rw [if_neg h0] at hr
      refine ⟨r, hr, hspent, fun _ => hown, ?_, ?_⟩
      · intro hret
        exact (hzero.resolve_left h0).resolve_right (hspent.ret.mp hret)
      · intro id hid
        exact (htried id hid).imp_right .inl
  · have hsafe : g.Safe ga := hs.resolve_right fun h2 => hl h2.1
    obtain ⟨p, hp, hsp, hga, hend, htr⟩ := processLimited_spec h hn hsafe hk calls
    refine ⟨p, ?_, hsp, fun h2 => absurd h2 hl, ?_, ?_⟩
    · unfold process
      rw [if_neg hl, if_pos hpos, hp]
    · intro hret
      exact hend.resolve_right (hsp.ret.mp hret)
    · intro id hid
      exact (htr id hid).imp_right .inl

/-! ### Sockets that give nothing -/

/-- Sockets that transfer nothing. Source: `BufferedSocket::readBuffered`,
`BufferedSocket::writeBuffered`. Kind: L -/
theorem transfer_zero (henv : ∀ n, env.answer n = 0) (calls max : ℕ) :
    env.transfer calls max = 0 := by
  unfold Answers.transfer
  rw [henv]
  split_ifs
  · rfl
  · exact Nat.zero_min _

/-- Sockets that give nothing leave the allowance as it is. Source: `SocketGroup::processLimited`.
Kind: L -/
theorem processLimited_still (henv : ∀ n, env.answer n = 0) {calls : ℕ} {p : Processed}
    (h : processLimited env k g allowance calls = .ok p) : p.allowance = allowance := by
  unfold processLimited at h
  split_ifs at h
  dsimp only at h
  cases hw : whileM (fun s : Limited => s.sockets.length > 0 ∧ s.allowance > 0)
      (Limited.round env (u32 (allowance / g.sockets.length + 1))) .running k
      ⟨[], g.sockets, allowance, calls, 0, []⟩ with
  | error e =>
    rw [hw] at h
    cases h
  | ok s =>
    rw [hw] at h
    cases h
    refine whileM_inv (fun s : Limited => s.allowance = allowance) ?_ rfl hw
    intro s s' hs _ hround
    unfold Limited.round at hround
    dsimp only at hround
    cases hb : s.back with
    | nil =>
      rw [hb] at hround
      cases hround
      exact hs
    | cons x rest =>
      rw [hb] at hround
      cases x with
      | none =>
        cases hround
        exact (Limited.wrapAround_eq _).1.trans hs
      | some id =>
        cases hround
        rw [(Limited.wrapAround_eq _).1]
        simp only [transfer_zero henv]
        simpa using hs

/-- Sockets that transfer nothing leave the allowance. Source: `SocketGroup::process`. Kind: L -/
theorem process_still (henv : ∀ n, env.answer n = 0) {ga calls : ℕ} (hpos : 0 < ga) {p : Processed}
    (h : process env k g ga calls = .ok p) : p.allowance = ga := by
  unfold process at h
  by_cases hl : 0 < g.limit
  · rw [if_pos hl, if_neg (by omega)] at h
    -- the own allowance, or the given one
    by_cases hle : ga ≤ g.group_allowance
    · rw [if_pos hle] at h
      cases hp : processLimited env k g ga calls with
      | error e =>
        rw [hp] at h
        cases h
      | ok q =>
        have hq := processLimited_still henv hp
        rw [hp] at h
        simp only [bind, Except.bind, hq, minus, le_refl, if_true, pure, Except.pure] at h
        split_ifs at h <;> cases h <;> rfl
    · rw [if_neg hle] at h
      cases hp : processLimited env k g g.group_allowance calls with
      | error e =>
        rw [hp] at h
        cases h
      | ok q =>
        have hq := processLimited_still henv hp
        rw [hp] at h
        simp only [bind, Except.bind, hq, minus, le_refl, if_true, pure, Except.pure, Nat.sub_self,
          Nat.not_lt_zero, if_false, Nat.sub_zero] at h
        split_ifs at h <;> cases h <;> rfl
  · rw [if_neg hl, if_pos hpos] at h
    exact processLimited_still henv h

end SocketGroup

end KTorrent.Net
