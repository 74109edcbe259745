import KTorrent.Lib.Buffer
import KTorrent.Lib.GuardedRun
import KTorrent.Mse.RC4

/-!
# Two encryptors at the ends of a connection

Each end encrypts with the key the other end decrypts with. Bytes are encrypted into a static
buffer, in place, or one by one, sent, and decrypted by the other end in pieces of any size.

* `encryptBuffer`, `encryptByte` — the two entry points besides `encryptReplace`; the static buffer
  is a list of fixed length, and a write outside it is `none`.
* `Permuted` — the state of a generator is a permutation of the 256 bytes: the key schedule makes
  one of any key, and every round keeps it.
* `Flow` — one direction: the generator of the sender is ahead of that of the receiver by the bytes
  on their way.
* `recovered_iff` — in any interleaving both ends recover what the other one sent, exactly when no
  single call encrypts more into the static buffer than it holds.

Source: `mse/rc4encryptor.h`, `mse/rc4encryptor.cpp`, `util/constants.h`
-/

namespace KTorrent.Mse

open KTorrent.Lib KTorrent.Storage

/-! ### The state of a generator -/

namespace RC4

/-- The bytes in their order. Kind: D -/
def ascending : Vector UInt8 256 := Vector.ofFn fun t => UInt8.ofNat t.val

/-- The state is a permutation of 0..255. Kind: D -/
def Permuted (r : RC4) : Prop := r.s.Perm ascending

/-- A swap permutes. Source: `mse/rc4encryptor.cpp`, `swap`. Kind: L -/
theorem perm_swap (s : Vector UInt8 256) (a b : UInt8) : (swap s a b).Perm s :=
  Vector.swap_perm a.toNat_lt b.toNat_lt

/-- A step of the key schedule keeps a permutation. Source: `RC4::RC4`. Kind: L -/
theorem Permuted.schedule {r : RC4} (h : r.Permuted) (key : List UInt8) (t : ℕ) :
    (RC4.schedule key t r).Permuted := (perm_swap _ _ _).trans h

/-- A byte of the key stream leaves a permutation. Source: `RC4::process(Uint8)`. Kind: L -/
theorem Permuted.next {r : RC4} (h : r.Permuted) : r.next.2.Permuted := (perm_swap _ _ _).trans h

/-- The whole key schedule leaves a permutation. Source: `mse/rc4encryptor.h`,
`mse/rc4encryptor.cpp`. Kind: L -/
theorem Permuted.foldl (key : List UInt8) (ts : List ℕ) {r : RC4} (h : r.Permuted) :
    (ts.foldl (fun r t => RC4.schedule key t r) r).Permuted := by
  induction ts generalizing r with
  | nil => exact h
  | cons t ts ih => exact ih (h.schedule key t)

/-- **The key schedule makes a permutation of any key.**. Source: `RC4::RC4`. Kind: P -/
theorem permuted_make (key : List UInt8) : (make key).Permuted := by
  have hstart : Permuted ⟨0, 0, Vector.ofFn fun t => UInt8.ofNat t.val⟩ := Vector.Perm.refl _
  have h := hstart.foldl key (List.range 256)
  unfold Permuted at h
  unfold make Permuted
  exact h

/-- **And every byte keeps it one.**. Source: `mse/rc4encryptor.h`, `mse/rc4encryptor.cpp`.
Kind: P -/
theorem Permuted.advance {r : RC4} (h : r.Permuted) (n : ℕ) : (r.advance n).Permuted := by
  induction n generalizing r with
  | zero => exact h
  | succ n ih => exact ih h.next

end RC4

/-! ### The entry points -/

/-- Source: `util/constants.h`. Kind: D -/
def MAX_MSGLEN : ℕ := 9 + 131072

namespace RC4Encryptor

/-- What `encrypt` leaves in the static buffer; `none` is a write outside it.
Source: `RC4Encryptor::encrypt(const Uint8 *, Uint32)`. Kind: D -/
def encryptBuffer (rc4_enc_buffer bs : List UInt8) (e : RC4Encryptor) :
    Option (List UInt8 × RC4Encryptor) :=
  (place rc4_enc_buffer 0 (e.encrypt bs).1).map fun buffer => (buffer, (e.encrypt bs).2)

/-- Source: `RC4Encryptor::encryptReplace`. Kind: D -/
def encryptReplace (bs : List UInt8) (e : RC4Encryptor) : List UInt8 × RC4Encryptor := e.encrypt bs

/-- Source: `RC4Encryptor::encrypt(Uint8)`, `RC4::process(Uint8)`. Kind: D -/
def encryptByte (b : UInt8) (e : RC4Encryptor) : UInt8 × RC4Encryptor :=
  (e.enc.next.1 ^^^ b, { e with enc := e.enc.next.2 })

/-- **The static buffer**: it is written as far as the block goes, if the block fits.
Source: `RC4Encryptor::encrypt(const Uint8 *, Uint32)`. Kind: L -/
theorem encryptBuffer_eq {rc4_enc_buffer bs : List UInt8} (e : RC4Encryptor)
    (h : bs.length ≤ rc4_enc_buffer.length) :
    encryptBuffer rc4_enc_buffer bs e =
      some (writeAt rc4_enc_buffer 0 (e.encrypt bs).1, (e.encrypt bs).2) := by
  have hlen : 0 + (e.encrypt bs).1.length ≤ rc4_enc_buffer.length := by
    rw [Nat.zero_add, encrypt, RC4.length_process]
    exact h
  rw [encryptBuffer, place, if_pos hlen, Option.map_some]

/-- What is longer than the buffer overruns it.
Source: `RC4Encryptor::encrypt(const Uint8 *, Uint32)`. Kind: L -/
theorem encryptBuffer_eq_none {rc4_enc_buffer bs : List UInt8} (e : RC4Encryptor)
    (h : rc4_enc_buffer.length < bs.length) : encryptBuffer rc4_enc_buffer bs e = none := by
  have hlen : ¬ 0 + (e.encrypt bs).1.length ≤ rc4_enc_buffer.length := by
    rw [Nat.zero_add, encrypt, RC4.length_process]
    exact Nat.not_le_of_lt h
  rw [encryptBuffer, place, if_neg hlen, Option.map_none]

end RC4Encryptor

/-! ### The connection -/

/-- Kind: D -/
inductive Side
  | first
  | second
  deriving DecidableEq

/-- Kind: D -/
def Side.other : Side → Side
  | first => second
  | second => first

/-- The sides differ. Source: `mse/rc4encryptor.h`, `mse/rc4encryptor.cpp`. Kind: L -/
@[simp] theorem Side.other_ne (side : Side) : side.other ≠ side := by
  cases side <;> decide

/-- The other way round. Source: `mse/rc4encryptor.h`, `mse/rc4encryptor.cpp`. Kind: L -/
@[simp] theorem Side.ne_other (side : Side) : side ≠ side.other := (Side.other_ne side).symm

/-- There are two. Source: `mse/rc4encryptor.h`, `mse/rc4encryptor.cpp`. Kind: L -/
theorem Side.eq_other_of_ne {side other : Side} (h : other ≠ side) : other = side.other := by
  cases side <;> cases other <;> first | rfl | exact absurd rfl h

/-- The other one's other one. Source: `mse/rc4encryptor.h`, `mse/rc4encryptor.cpp`. Kind: L -/
@[simp] theorem Side.other_other (side : Side) : side.other.other = side := by
  cases side <;> rfl

/-- The two encryptors and the static buffer they share, with the encrypted bytes each side has on
their way. The last three fields are history: what each side sent, what was recovered of it, and
whether a write has left the buffer. Kind: D -/
structure Duplex where
  ends : Side → RC4Encryptor
  rc4_enc_buffer : List UInt8
  wire : Side → List UInt8
  sent : Side → List UInt8
  got : Side → List UInt8
  overrun : Bool

namespace Duplex

/-- Two encryptors with the keys `a` and `b`. Kind: D -/
def new (a b : SHA1Hash) : Duplex where
  ends
    | .first => RC4Encryptor.make a b
    | .second => RC4Encryptor.make b a
  rc4_enc_buffer := List.replicate MAX_MSGLEN 0
  wire _ := []
  sent _ := []
  got _ := []
  overrun := false

/-- A side has encrypted `bs` to `cs`, which it sends. Kind: D -/
def send (side : Side) (bs cs : List UInt8) (e : RC4Encryptor) (d : Duplex) : Duplex :=
  { d with
    ends := Function.update d.ends side e
    wire := Function.update d.wire side (d.wire side ++ cs)
    sent := Function.update d.sent side (d.sent side ++ bs) }

/-- Kind: D -/
inductive Call
  | encrypt (side : Side) (bs : List UInt8)
  | encryptReplace (side : Side) (bs : List UInt8)
  | encryptByte (side : Side) (b : UInt8)
  /-- The other side decrypts the next `n` bytes that `side` has sent. -/
  | decrypt (side : Side) (n : ℕ)

/-- What is in the static buffer is sent as the call returns. Kind: D -/
def call (d : Duplex) : Call → Duplex
  | .encrypt side bs =>
    match (d.ends side).encryptBuffer d.rc4_enc_buffer bs with
    | none => { d with overrun := true }
    | some (buffer, e) => send side bs (buffer.take bs.length) e { d with rc4_enc_buffer := buffer }
  | .encryptReplace side bs =>
    let r := (d.ends side).encryptReplace bs
    send side bs r.1 r.2 d
  | .encryptByte side b =>
    let r := (d.ends side).encryptByte b
    send side [b] [r.1] r.2 d
  | .decrypt side n =>
    let r := (d.ends side.other).decrypt ((d.wire side).take n)
    { d with
      ends := Function.update d.ends side.other r.2
      wire := Function.update d.wire side ((d.wire side).drop n)
      got := Function.update d.got side (d.got side ++ r.1) }

/-! ### One direction -/

/-- One direction: what was sent is what was recovered and what is on the way, and the generator of
the sender is ahead of the receiver's by the latter. Kind: D -/
structure Flow (enc dec : RC4) (wire sent got : List UInt8) : Prop where
  ahead : enc = dec.advance wire.length
  plain : got ++ dec.process wire = sent

/-- Nothing has flowed. Source: `mse/rc4encryptor.h`, `mse/rc4encryptor.cpp`. Kind: L -/
theorem Flow.start (r : RC4) : Flow r r [] [] [] := ⟨rfl, rfl⟩

/-- A block goes out. Source: `mse/rc4encryptor.h`, `mse/rc4encryptor.cpp`. Kind: L -/
theorem Flow.send {enc dec : RC4} {wire sent got : List UInt8} (h : Flow enc dec wire sent got)
    (bs : List UInt8) :
    Flow (enc.advance bs.length) dec (wire ++ enc.process bs) (sent ++ bs) got where
  ahead := by
    rw [List.length_append, RC4.length_process, RC4.advance_add, ← h.ahead]
  plain := by
    rw [RC4.process_append, ← h.ahead, RC4.process_process, ← List.append_assoc, h.plain]

/-- A block comes in. Source: `mse/rc4encryptor.h`, `mse/rc4encryptor.cpp`. Kind: L -/
theorem Flow.receive {enc dec : RC4} {wire sent got : List UInt8} (h : Flow enc dec wire sent got)
    (n : ℕ) :
    Flow enc (dec.advance (wire.take n).length) (wire.drop n) sent
      (got ++ dec.process (wire.take n)) where
  ahead := by
    rw [← RC4.advance_add, ← List.length_append, List.take_append_drop]
    exact h.ahead
  plain := by
    rw [List.append_assoc, ← RC4.process_append, List.take_append_drop]
    exact h.plain

/-! ### Both -/

/-- **What is recovered.** No write has left the buffer, of what a side sent everything but the
bytes on their way has been recovered exactly, and the states of the generators are permutations.
Kind: D -/
structure Recovered (d : Duplex) : Prop where
  inside : d.overrun = false
  exact : ∀ side, ∃ rest, rest.length = (d.wire side).length ∧ d.sent side = d.got side ++ rest
  permuted : ∀ side, (d.ends side).enc.Permuted ∧ (d.ends side).dec.Permuted

/-- What holds whatever is called. Kind: D -/
structure Linked (d : Duplex) : Prop where
  buffer : d.rc4_enc_buffer.length = MAX_MSGLEN
  flow : ∀ side, Flow (d.ends side).enc (d.ends side.other).dec (d.wire side) (d.sent side)
    (d.got side)
  permuted : ∀ side, (d.ends side).enc.Permuted ∧ (d.ends side).dec.Permuted

/-- A block of at most the size of the static buffer. Kind: D -/
def Fits (_ : Duplex) : Call → Prop
  | .encrypt _ bs => bs.length ≤ MAX_MSGLEN
  | _ => True

/-- Both sides start with the other's keys. Source: `mse/rc4encryptor.h`, `mse/rc4encryptor.cpp`.
Kind: L -/
theorem linked_new (a b : SHA1Hash) : (new a b).Linked where
  buffer := List.length_replicate
  flow side := by
    cases side
    all_goals
      simp only [new, Side.other, RC4Encryptor.make]
      exact Flow.start _
  permuted side := by
    cases side
    all_goals
      simp only [new, RC4Encryptor.make]
      exact ⟨(RC4.permuted_make _).advance 1024, (RC4.permuted_make _).advance 1024⟩

/-- What was sent is read. Source: `mse/rc4encryptor.h`, `mse/rc4encryptor.cpp`. Kind: L -/
theorem Linked.recovered {d : Duplex} (h : d.Linked) (hin : d.overrun = false) : d.Recovered where
  inside := hin
  exact side := ⟨_, RC4.length_process _ _, (h.flow side).plain.symm⟩
  permuted := h.permuted

/-- A block goes out; the other direction is not disturbed. Source: `mse/rc4encryptor.h`,
`mse/rc4encryptor.cpp`. Kind: L -/
theorem Linked.send {d : Duplex} (h : d.Linked) (side : Side) (bs : List UInt8) :
    (d.send side bs ((d.ends side).encrypt bs).1 ((d.ends side).encrypt bs).2).Linked where
  buffer := h.buffer
  flow s := by
    by_cases hs : s = side
    · subst hs
      simp only [Duplex.send, Function.update_self, Function.update_of_ne (Side.other_ne s)]
      exact (h.flow s).send bs
    · obtain rfl : s = side.other := Side.eq_other_of_ne hs
      simp only [Duplex.send, Function.update_of_ne hs, Side.other_other, Function.update_self]
      have hflow := h.flow side.other
      rw [Side.other_other] at hflow
      exact hflow
  permuted s := by
    by_cases hs : s = side
    · subst hs
      simp only [Duplex.send, Function.update_self]
      exact ⟨(h.permuted s).1.advance _, (h.permuted s).2⟩
    · simp only [Duplex.send, Function.update_of_ne hs]
      exact h.permuted s

/-- A block comes in; the other direction is not disturbed. Source: `RC4Encryptor::decrypt`.
Kind: L -/
theorem Linked.decrypt {d : Duplex} (h : d.Linked) (side : Side) (n : ℕ) :
    (d.call (.decrypt side n)).Linked where
  buffer := h.buffer
  flow s := by
    by_cases hs : s = side
    · subst hs
      simp only [Duplex.call, Function.update_self, Function.update_of_ne (Side.ne_other s)]
      exact (h.flow s).receive n
    · obtain rfl : s = side.other := Side.eq_other_of_ne hs
      simp only [Duplex.call, Function.update_of_ne hs, Side.other_other, Function.update_self,
        Function.update_of_ne (Side.ne_other side)]
      have hflow := h.flow side.other
      rw [Side.other_other] at hflow
      exact hflow
  permuted s := by
    by_cases hs : s = side.other
    · subst hs
      simp only [Duplex.call, Function.update_self]
      exact ⟨(h.permuted side.other).1, (h.permuted side.other).2.advance _⟩
    · simp only [Duplex.call, Function.update_of_ne hs]
      exact h.permuted s

/-- What `encrypt` does with the static buffer. Source: `RC4Encryptor::encrypt`. Kind: L -/
theorem call_encrypt {d : Duplex} (h : d.Linked) {side : Side} {bs : List UInt8}
    (hfits : bs.length ≤ MAX_MSGLEN) :
    d.call (.encrypt side bs) =
      send side bs ((d.ends side).encrypt bs).1 ((d.ends side).encrypt bs).2
        { d with rc4_enc_buffer := writeAt d.rc4_enc_buffer 0 ((d.ends side).encrypt bs).1 } := by
  have hlen : ((d.ends side).encrypt bs).1.length = bs.length := RC4.length_process _ _
  have htake : (writeAt d.rc4_enc_buffer 0 ((d.ends side).encrypt bs).1).take bs.length =
      ((d.ends side).encrypt bs).1 := by
    rw [writeAt, List.take_zero, List.nil_append, Nat.zero_sub, List.replicate_zero,
      List.nil_append, List.take_append_of_le_length hlen.ge, List.take_of_length_le hlen.le]
  rw [call, RC4Encryptor.encryptBuffer_eq _ (hfits.trans h.buffer.ge)]
  dsimp only
  rw [htake]

/-- A call keeps the sides linked. Source: `mse/rc4encryptor.h`, `mse/rc4encryptor.cpp`. Kind: L -/
theorem linked_call (d : Duplex) (c : Call) (h : d.Linked) : (d.call c).Linked := by
  cases c with
  | encrypt side bs =>
    by_cases hfits : bs.length ≤ MAX_MSGLEN
    · rw [call_encrypt h hfits]
      have hbuffer : ({ d with
          rc4_enc_buffer := writeAt d.rc4_enc_buffer 0 ((d.ends side).encrypt bs).1 } :
            Duplex).Linked := by
        refine ⟨?_, h.flow, h.permuted⟩
        show (writeAt _ _ _).length = _
        rw [length_writeAt, h.buffer, Nat.zero_add, RC4Encryptor.encrypt, RC4.length_process]
        exact Nat.max_eq_left hfits
      exact hbuffer.send side bs
    · rw [call, RC4Encryptor.encryptBuffer_eq_none _ (by rw [h.buffer]; omega)]
      exact ⟨h.buffer, h.flow, h.permuted⟩
  | encryptReplace side bs => exact h.send side bs
  | encryptByte side b => exact h.send side [b]
  | decrypt side n => exact h.decrypt side n

/-- **The exact condition on a call.**. Source: `mse/rc4encryptor.h`, `mse/rc4encryptor.cpp`.
Kind: P -/
theorem call_recovered_iff {d : Duplex} {c : Call} (h : d.Linked) (hr : d.Recovered) :
    (d.call c).Recovered ↔ d.Fits c := by
  have hlinked := linked_call d c h
  cases c with
  | encrypt side bs =>
    constructor
    · intro hafter
      by_contra hfits
      have hnone := RC4Encryptor.encryptBuffer_eq_none (d.ends side)
        (show d.rc4_enc_buffer.length < bs.length by
          rw [h.buffer]
          exact Nat.lt_of_not_le hfits)
      have hin := hafter.inside
      rw [call, hnone] at hin
      exact Bool.noConfusion hin
    · intro hfits
      apply hlinked.recovered
      rw [call_encrypt h hfits]
      exact hr.inside
  | encryptReplace side bs => exact ⟨fun _ => trivial, fun _ => hlinked.recovered hr.inside⟩
  | encryptByte side b => exact ⟨fun _ => trivial, fun _ => hlinked.recovered hr.inside⟩
  | decrypt side n => exact ⟨fun _ => trivial, fun _ => hlinked.recovered hr.inside⟩

/-- **When both ends recover what the other sent.** For any two keys and any interleaving of calls:
after every call exactly when no call of `encrypt` has more bytes than the static buffer.
Source: `mse/rc4encryptor.h`, `mse/rc4encryptor.cpp`. Kind: P -/
theorem recovered_iff (a b : SHA1Hash) (cs : List Call) :
    (∀ pre, pre <+: cs → (run call (new a b) pre).Recovered) ↔ Meets call Fits (new a b) cs :=
  good_at_iff_meets linked_call (fun _ _ h hr _ => call_recovered_iff h hr) (linked_new a b)
    ((linked_new a b).recovered rfl) (meets_true (new a b) cs)

/-- One byte more than the static buffer holds. Source: `RC4Encryptor::encrypt`. Kind: P -/
theorem encrypt_overruns :
    ¬ ∀ (a b : SHA1Hash) (cs : List Call), (run call (new a b) cs).Recovered := by
  intro h
  have hlen : (new (Vector.replicate 20 0) (Vector.replicate 20 1)).rc4_enc_buffer.length <
      (List.replicate (MAX_MSGLEN + 1) (0 : UInt8)).length := by
    rw [List.length_replicate]
    show (List.replicate MAX_MSGLEN 0).length < _
    rw [List.length_replicate]
    exact Nat.lt_succ_self _
  have hin := (h (Vector.replicate 20 0) (Vector.replicate 20 1)
    [.encrypt .first (List.replicate (MAX_MSGLEN + 1) 0)]).inside
  rw [run_cons, run_nil, call, RC4Encryptor.encryptBuffer_eq_none _ hlen] at hin
  exact Bool.noConfusion hin

end Duplex

end KTorrent.Mse
