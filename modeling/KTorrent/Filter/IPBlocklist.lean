import KTorrent.Lib.GuardedRun
import KTorrent.Lib.SearchTree
import Mathlib.Algebra.BigOperators.Group.List.Basic
import Mathlib.Algebra.Ring.Int.Defs
import Mathlib.Logic.Function.Basic

/-!
# The list of blocked addresses

Addresses and ranges of addresses are kept in a map from an `IPKey`, an address with a mask, to the
number of times that it was found guilty. From three on it is blocked.

* `IPKey.lt` — the comparison by which the map is searched: it masks both sides, but with the mask of
  the left one only.
* `IPBlocklist.insert`, `addRange`, `removeRange`, `isBlockedLocal` — the operations.
* `Record` — what was added and not removed since, with `Record.isBlocked`, which is what the list is
  for.

The library's map is a search tree; what it does to keep itself in balance is a `Balance`, of which only
this is known: it leaves the list of the tree as it is. The text of an address is its four parts. A
state is a number without bounds here and an `int` in the source; `abs_run` bounds the sums of states
by what was added, so that the two are the same as long as that comes to less than `2^31`.

Source: `torrent/ipblocklist.cpp`
-/

namespace KTorrent.Filter

open KTorrent.Lib

/-! ### Addresses and ranges -/

/-- One part of the text of an address. Kind: D -/
inductive Octet where
  | number (n : Fin 256)
  | star
  | illegal
deriving DecidableEq

/-- The four parts of a text, between its dots. Kind: D -/
structure Text where
  o₀ : Octet
  o₁ : Octet
  o₂ : Octet
  o₃ : Octet
deriving DecidableEq

/-- An address with a mask. Source: `torrent/ipblocklist.h`, `IPKey`. Kind: D -/
@[ext] structure IPKey where
  m_ip : ℕ
  m_mask : ℕ := 0xFFFFFFFF
deriving DecidableEq

namespace IPKey

/-- Source: `IPKey::operator<`. Kind: D -/
def lt (a b : IPKey) : Bool := decide (a.m_ip &&& a.m_mask < a.m_mask &&& b.m_ip)

end IPKey

/-- One section of `IPBlocklist::addRange` and `removeRange`: a number is the next octet of the
address, a star clears an octet of the mask. Kind: D -/
def Octet.parse (clear : ℕ) (s : ℕ × ℕ) : Octet → Option (ℕ × ℕ)
  | .number n => some (s.1 <<< 8 % 2 ^ 32 ||| n, s.2)
  | .star => some (s.1 <<< 8 % 2 ^ 32, s.2 &&& clear)
  | .illegal => none

/-- Source: `IPBlocklist::addRange`, `removeRange`. Kind: D -/
def Text.key (t : Text) : Option IPKey := do
  let s ← t.o₀.parse 0x00FFFFFF (0, 0xFFFFFFFF)
  let s ← t.o₁.parse 0xFF00FFFF s
  let s ← t.o₂.parse 0xFFFF00FF s
  let s ← t.o₃.parse 0xFFFFFF00 s
  return ⟨s.1, s.2⟩

/-- Source: `toUint32`, one part. Kind: D -/
def Octet.toULong : Octet → Option ℕ
  | .number n => some n
  | _ => none

/-- Source: `toUint32`. Kind: D -/
def toUint32 (t : Text) : Option ℕ := do
  let a ← t.o₀.toULong
  let b ← t.o₁.toULong
  let c ← t.o₂.toULong
  let d ← t.o₃.toULong
  return (((a <<< 8 ||| b) <<< 8 ||| c) <<< 8 ||| d) % 2 ^ 32

/-! ### The operations -/

/-- How the map is kept in balance. Source: `TQMap`. Kind: D -/
structure Balance where
  balance : Tree IPKey ℤ → Tree IPKey ℤ
  toList_balance : ∀ m, (balance m).toList = m.toList

/-- Source: `IPBlocklist::m_peers`. Kind: D -/
abbrev IPBlocklist := Tree IPKey ℤ

namespace IPBlocklist

/-- Source: `TQMap::insert`. Kind: D -/
def mapInsert (B : Balance) (key : IPKey) (state : ℤ) (m : IPBlocklist) : IPBlocklist :=
  B.balance (Tree.insert IPKey.lt key state m)

/-- Source: `IPBlocklist::insertRangeIP`. Kind: D -/
def insertRangeIP (B : Balance) (key : IPKey) (state : ℤ) (m : IPBlocklist) : IPBlocklist :=
  match Tree.find IPKey.lt key m with
  | some (k, st) =>
      if k.m_mask ≠ key.m_mask then mapInsert B ⟨key.m_ip, k.m_mask ||| key.m_mask⟩ (state + st) m
      else Tree.update IPKey.lt key (· + state) m
  | none => mapInsert B key state m

/-- Source: `IPBlocklist::insert`. Kind: D -/
def insert (B : Balance) (ip : Text) (state : ℤ) (m : IPBlocklist) : IPBlocklist :=
  match toUint32 ip with
  | some ipi => insertRangeIP B ⟨ipi, 0xFFFFFFFF⟩ state m
  | none => m

/-- Source: `IPBlocklist::addRange`. Kind: D -/
def addRange (B : Balance) (ip : Text) (m : IPBlocklist) : IPBlocklist :=
  match ip.key with
  | some key => insertRangeIP B key 3 m
  | none => m

/-- Source: `IPBlocklist::removeRange`. Kind: D -/
def removeRange (B : Balance) (ip : Text) (m : IPBlocklist) : IPBlocklist :=
  match ip.key with
  | some key =>
      match Tree.find IPKey.lt key m with
      | some _ => B.balance (Tree.erase IPKey.lt key m)
      | none => m
  | none => m

/-- Source: `IPBlocklist::isBlockedLocal`. Kind: D -/
def isBlockedLocal (ip : Text) (m : IPBlocklist) : Bool :=
  match toUint32 ip with
  | some ipi =>
      match Tree.find IPKey.lt ⟨ipi, 0xFFFFFFFF⟩ m with
      | some (_, st) => decide (3 ≤ st)
      | none => false
  | none => false

end IPBlocklist

/-! ### What the list is for -/

/-- Kind: D -/
inductive Operation where
  | insert (ip : Text) (state : ℤ)
  | addRange (ip : Text)
  | removeRange (ip : Text)

/-- Kind: D -/
def Operation.apply (B : Balance) (m : IPBlocklist) : Operation → IPBlocklist
  | insert ip state => m.insert B ip state
  | addRange ip => m.addRange B ip
  | removeRange ip => m.removeRange B ip

/-- The list as it is built. Source: `IPBlocklist::IPBlocklist`. Kind: D -/
def Operation.construction : List Operation :=
  [.insert ⟨.number 0, .number 0, .number 0, .number 0⟩ 3,
    .addRange ⟨.number 3, .star, .star, .star⟩]

/-- Kind: D -/
def Octet.IsNumber : Octet → Prop
  | .number _ => True
  | _ => False

instance : (o : Octet) → Decidable o.IsNumber
  | .number _ => isTrue trivial
  | .star | .illegal => isFalse id

/-- The text of a single address. Kind: D -/
def Text.IsAddress (t : Text) : Prop :=
  t.o₀.IsNumber ∧ t.o₁.IsNumber ∧ t.o₂.IsNumber ∧ t.o₃.IsNumber

/-- The text of a range, or of a single address. Kind: D -/
def Text.IsRange (t : Text) : Prop :=
  t.o₀ ≠ .illegal ∧ t.o₁ ≠ .illegal ∧ t.o₂ ≠ .illegal ∧ t.o₃ ≠ .illegal

instance (t : Text) : Decidable t.IsAddress := inferInstanceAs (Decidable (_ ∧ _ ∧ _ ∧ _))

instance (t : Text) : Decidable t.IsRange := inferInstanceAs (Decidable (_ ∧ _ ∧ _ ∧ _))

/-- A star stands for any number. Kind: D -/
def Octet.Matches (o p : Octet) : Prop := o = .star ∨ o = p

instance (o p : Octet) : Decidable (o.Matches p) := inferInstanceAs (Decidable (_ ∨ _))

/-- The address is in the range. Kind: D -/
def Text.Matches (t ip : Text) : Prop :=
  t.o₀.Matches ip.o₀ ∧ t.o₁.Matches ip.o₁ ∧ t.o₂.Matches ip.o₂ ∧ t.o₃.Matches ip.o₃

instance (t ip : Text) : Decidable (t.Matches ip) := inferInstanceAs (Decidable (_ ∧ _ ∧ _ ∧ _))

/-- What was added and not removed since, with the states. Kind: D -/
abbrev Record := List (Text × ℤ)

namespace Record

/-- What is not the text of an address, or of a range, is not added. Kind: D -/
def apply (r : Record) : Operation → Record
  | .insert ip state => if ip.IsAddress then r ++ [(ip, state)] else r
  | .addRange ip => if ip.IsRange then r ++ [(ip, 3)] else r
  | .removeRange ip => r.filter fun e => e.1 ≠ ip

/-- The states accumulated by what matches the address. Kind: D -/
def total (r : Record) (ip : Text) : ℤ := ((r.filter fun e => e.1.Matches ip).map Prod.snd).sum

/-- Kind: D -/
def isBlocked (r : Record) (ip : Text) : Bool := decide (3 ≤ r.total ip)

end Record

end KTorrent.Filter
