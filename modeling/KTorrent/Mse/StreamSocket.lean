import KTorrent.Lib.GuardedRun
import KTorrent.Mse.RC4

/-!
# Reading from an encrypted socket

A stream socket gives back first what was reinserted into it and then what the socket receives, both
decrypted when an encryptor is installed.

* `reinsert`, `readData`, `startMonitoring`, `bytesAvailable` — the operations of the source, as far
  as they read.
* `plain` — what is still to be delivered: every byte decrypted once.
* `delivered_run_iff` — a run of reads delivers exactly that, with the right counts, if and only if
  no read mixes reinserted bytes with received ones.

Source: `mse/streamsocket.h`, `mse/streamsocket.cpp`
-/

namespace KTorrent.Mse

open KTorrent.Lib

/-- Bytes put back, and how many of them have been read again.
Source: `mse/streamsocket.h`, `reinserted_data`, `reinserted_data_size`, `reinserted_data_read`.
Kind: D -/
structure Reinserted where
  data : List UInt8
  read : ℕ := 0
  read_le : read ≤ data.length
deriving DecidableEq

/-- The bytes not read again yet. Kind: D -/
def Reinserted.rest (d : Reinserted) : List UInt8 := d.data.drop d.read

/-- Source: `mse/streamsocket.h`, `StreamSocket`. Kind: D -/
structure StreamSocket where
  enc : Option RC4Encryptor := none
  /-- `none` is a null pointer. -/
  reinserted : Option Reinserted := none
  /-- The bytes the socket has still to give. -/
  sock : List UInt8 := []
deriving DecidableEq

namespace StreamSocket

/-! ### The operations -/

/-- The reinserted bytes not read again yet. Kind: D -/
def back (s : StreamSocket) : List UInt8 := (s.reinserted.map Reinserted.rest).getD []

/-- `if (enc) enc->decrypt(buf, len);`. Kind: D -/
def decrypt (bs : List UInt8) (s : StreamSocket) : List UInt8 × StreamSocket :=
  match s.enc with
  | none => (bs, s)
  | some e => ((e.decrypt bs).1, { s with enc := some (e.decrypt bs).2 })

/-- `sock->recv(buf, len)`, which gives at most `answer` bytes. Kind: D -/
def recv (len answer : ℕ) (s : StreamSocket) : List UInt8 × StreamSocket :=
  (s.sock.take (min len answer), { s with sock := s.sock.drop (min len answer) })

/-- Source: `StreamSocket::bytesAvailable`, before `startMonitoring`. Kind: D -/
def bytesAvailable (s : StreamSocket) : ℕ := s.sock.length + s.back.length

/-- Source: `StreamSocket::reinsert`. Kind: D -/
def reinsert (d : List UInt8) (s : StreamSocket) : StreamSocket :=
  match s.reinserted with
  | none => { s with reinserted := some ⟨d, 0, Nat.zero_le _⟩ }
  | some r =>
      { s with reinserted := some ⟨r.data ++ d, r.read, by
          rw [List.length_append]
          exact r.read_le.trans (Nat.le_add_right _ _)⟩ }

/-- What a call of `readData` does. Kind: D -/
structure Read where
  /-- What it leaves in the buffer. -/
  buf : List UInt8
  /-- What it returns. -/
  ret : ℕ
  sock : StreamSocket
deriving DecidableEq

/-- The part of `readData` after the reinserted bytes; `front` is what they left in the buffer.
Source: `StreamSocket::readData`, from `if (len == ret2)` on. Kind: D -/
def readRest (len answer : ℕ) (front : List UInt8) (s : StreamSocket) : Read :=
  if len = front.length then ⟨front, front.length, s⟩
  else
    let r := s.recv (len - front.length) answer
    -- everything in the buffer is decrypted, also what was decrypted before
    if r.1.length + front.length > 0 then
      let d := r.2.decrypt (front ++ r.1)
      ⟨d.1, r.1.length, d.2⟩
    else ⟨[], r.1.length, r.2⟩

/-- Source: `StreamSocket::readData`; the socket gives at most `answer` bytes. Kind: D -/
def readData (len answer : ℕ) (s : StreamSocket) : Read :=
  match s.reinserted with
  | none => readRest len answer [] s
  | some r =>
      let tr := r.rest.length
      if h : tr < len then
        let d := decrypt r.rest { s with reinserted := none }
        readRest len answer d.1 d.2
      else
        let d := decrypt (r.rest.take len)
          { s with reinserted := some ⟨r.data, r.read + len, by
              have hlen : r.rest.length = r.data.length - r.read := List.length_drop
              have hle := r.read_le
              omega⟩ }
        ⟨d.1, len, d.2⟩

/-- What reading from a socket can be. Kind: D -/
inductive Op
  | readData (len answer : ℕ)
  | startMonitoring

/-- What an operation does; `startMonitoring` hands the reinserted bytes to the reader.
Source: `StreamSocket::readData`, `StreamSocket::startMonitoring`. Kind: D -/
def perform (s : StreamSocket) : Op → Read
  | .readData len answer => s.readData len answer
  | .startMonitoring =>
      match s.reinserted with
      | none => ⟨[], 0, s⟩
      | some r =>
          let d := decrypt r.rest { s with reinserted := none }
          ⟨d.1, r.rest.length, d.2⟩

/-- The state after an operation. Kind: D -/
def step (s : StreamSocket) (op : Op) : StreamSocket := (s.perform op).sock

/-- What the operations of a run do, in order. Kind: D -/
def reads (s : StreamSocket) : List Op → List Read
  | [] => []
  | op :: ops => s.perform op :: reads (s.step op) ops

/-! ### What is to be delivered -/

/-- The bytes still to be delivered, before decryption. Kind: D -/
def raw (s : StreamSocket) : List UInt8 := s.back ++ s.sock

/-- **What is still to be delivered**: each byte decrypted once, in order. Kind: D -/
def plain (s : StreamSocket) : List UInt8 :=
  match s.enc with
  | none => s.raw
  | some e => e.dec.process s.raw

/-- **A faithful operation**: it delivers the next bytes, and returns how many. Kind: D -/
def Faithful (s : StreamSocket) (r : Read) : Prop :=
  s.plain = r.buf ++ r.sock.plain ∧ r.ret = r.buf.length

/-- A read that takes the last reinserted bytes and asks the socket for more. Kind: D -/
def Mixes (s : StreamSocket) : Op → Prop
  | .readData len _ => 0 < s.back.length ∧ s.back.length < len
  | .startMonitoring => False

/-- Decrypting keeps the length. Source: `mse/streamsocket.h`, `mse/streamsocket.cpp`. Kind: L -/
theorem length_decrypt (bs : List UInt8) (s : StreamSocket) : (s.decrypt bs).1.length = bs.length := by
  unfold decrypt
  cases s.enc with
  | none => rfl
  | some e => exact e.dec.length_process bs

/-- Decrypting the next bytes. Source: `mse/streamsocket.h`, `mse/streamsocket.cpp`. Kind: L -/
theorem plain_decrypt {s t : StreamSocket} {bs : List UInt8} (henc : t.enc = s.enc)
    (hraw : s.raw = bs ++ t.raw) : s.plain = (t.decrypt bs).1 ++ (t.decrypt bs).2.plain := by
  unfold plain decrypt
  cases h : s.enc with
  | none =>
    rw [henc, h]
    dsimp only
    rw [henc, h, hraw]
  | some e =>
    rw [henc, h]
    dsimp only
    rw [hraw, RC4.process_append]
    rfl

/-- What is received comes off the front of the socket. Source: `mse/streamsocket.h`,
`mse/streamsocket.cpp`. Kind: L -/
theorem recv_eq (len answer : ℕ) (s : StreamSocket) :
    s.sock = (s.recv len answer).1 ++ (s.recv len answer).2.sock :=
  (List.take_append_drop _ _).symm

/-- A read from the socket alone. Source: `StreamSocket::readData`. Kind: L -/
theorem faithful_readRest {s t : StreamSocket} (hback : t.back = []) (henc : t.enc = s.enc)
    (hraw : s.raw = t.raw) (len answer : ℕ) : s.Faithful (t.readRest len answer []) := by
  have hplain : s.plain = t.plain := by
    unfold plain
    rw [henc, hraw]
  unfold readRest
  simp only [List.length_nil, Nat.sub_zero, Nat.add_zero, List.nil_append]
  have hrecv := recv_eq len answer t
  obtain ⟨r, hr⟩ : ∃ r, r = t.recv len answer := ⟨_, rfl⟩
  have henc' : r.2.enc = s.enc := by
    rw [hr]
    exact henc
  have hback' : r.2.back = [] := by
    rw [hr]
    exact hback
  rw [← hr] at hrecv ⊢
  split_ifs with hlen hpos
  · exact ⟨hplain, rfl⟩
  · refine ⟨plain_decrypt henc' ?_, (length_decrypt r.1 r.2).symm⟩
    rw [hraw, raw, raw, hback, hback', hrecv]
    rfl
  · have hnil : r.1 = [] := List.eq_nil_of_length_eq_zero (by omega)
    rw [hnil, List.nil_append] at hrecv
    refine ⟨?_, congrArg List.length hnil⟩
    show s.plain = r.2.plain
    unfold plain
    rw [henc', hraw, raw, raw, hback, hback', hrecv]

/-- **A read is faithful exactly if it does not mix reinserted bytes with received ones**; if it
does, even the count is wrong. Source: `StreamSocket::readData`, `StreamSocket::startMonitoring`.
Kind: L -/
theorem faithful_perform (s : StreamSocket) (op : Op) :
    (¬ s.Mixes op → s.Faithful (s.perform op)) ∧
      (s.Mixes op → (s.perform op).ret ≠ (s.perform op).buf.length) := by
  cases op with
  | startMonitoring =>
    refine ⟨fun _ => ?_, fun h => h.elim⟩
    unfold perform
    dsimp only
    cases hre : s.reinserted with
    | none => exact ⟨rfl, rfl⟩
    | some r =>
      dsimp only
      have hback : s.back = r.rest := by rw [back, hre]; rfl
      exact ⟨plain_decrypt rfl (by rw [raw, hback]; rfl), (length_decrypt _ _).symm⟩
  | readData len answer =>
    show (¬ (0 < s.back.length ∧ s.back.length < len) → _) ∧ (0 < s.back.length ∧ _ → _)
    unfold perform readData
    dsimp only
    cases hre : s.reinserted with
    | none =>
      have hback : s.back = [] := by rw [back, hre]; rfl
      dsimp only
      rw [hback]
      exact ⟨fun _ => faithful_readRest hback rfl rfl len answer,
        fun h => absurd h.1 (lt_irrefl 0)⟩
    | some r =>
      have hback : s.back = r.rest := by rw [back, hre]; rfl
      dsimp only
      rw [hback]
      split_ifs with hlt
      · constructor
        · intro hn
          have hnil : r.rest = [] := List.eq_nil_of_length_eq_zero (by omega)
          have hdec : decrypt r.rest { s with reinserted := none } =
              ([], { s with reinserted := none }) := by
            rw [hnil]
            unfold decrypt
            dsimp only
            cases hs : s.enc with
            | none => rfl
            | some e => rfl
          rw [hdec]
          have hraw : s.raw = raw { s with reinserted := none } := by
            rw [raw, hback, hnil]
            rfl
          exact faithful_readRest (s := s) (t := { s with reinserted := none }) rfl rfl hraw len
            answer
        · intro hmix
          obtain ⟨d, hd⟩ : ∃ d, d = decrypt r.rest { s with reinserted := none } := ⟨_, rfl⟩
          have hlen : d.1.length = r.rest.length := by
            rw [hd]
            exact length_decrypt _ _
          rw [← hd]
          unfold readRest
          rw [if_neg (by omega)]
          dsimp only
          rw [if_pos (by omega)]
          dsimp only
          rw [length_decrypt, List.length_append]
          omega
      · refine ⟨fun _ => ⟨plain_decrypt rfl ?_, ?_⟩, fun hmix => absurd hmix.2 hlt⟩
        · show s.back ++ s.sock = r.rest.take len ++ (r.data.drop (r.read + len) ++ s.sock)
          rw [hback, ← List.append_assoc, ← List.drop_drop]
          exact congrArg (· ++ s.sock) (List.take_append_drop len r.rest).symm
        · rw [length_decrypt, List.length_take]
          exact (min_eq_left (not_lt.mp hlt)).symm

/-- What a run of operations has delivered is what was to be delivered, and the counts are right.
Kind: D -/
def Delivered (s : StreamSocket) (ops : List Op) : Prop :=
  s.plain = (s.reads ops).flatMap Read.buf ++ (run step s ops).plain ∧
    ∀ r ∈ s.reads ops, r.ret = r.buf.length

/-- **A run of reads delivers every byte once, decrypted once, and counts them**, at each point
exactly if no read of it takes the last reinserted bytes and asks the socket for more.
Source: `mse/streamsocket.h`, `mse/streamsocket.cpp`. Kind: P -/
theorem delivered_run_iff (ops : List Op) : ∀ s : StreamSocket,
    (∀ pre, pre <+: ops → s.Delivered pre) ↔ Meets step (fun s op => ¬ s.Mixes op) s ops := by
  induction ops with
  | nil =>
    intro s
    refine ⟨fun _ => trivial, fun _ pre hpre => ?_⟩
    rw [List.prefix_nil.mp hpre]
    exact ⟨rfl, by simp [reads]⟩
  | cons op ops ih =>
    intro s
    obtain ⟨hfaith, hmix⟩ := faithful_perform s op
    rw [meets_cons, ← ih (s.step op)]
    constructor
    · intro h
      have hone := h [op] ((List.prefix_cons_inj op).mpr List.nil_prefix)
      have hn : ¬ s.Mixes op := fun hm => hmix hm (hone.2 _ (by simp [reads]))
      refine ⟨hn, fun pre hpre => ?_⟩
      obtain ⟨h1, h2⟩ := h (op :: pre) ((List.prefix_cons_inj op).mpr hpre)
      refine ⟨?_, fun r hr => h2 r (List.mem_cons_of_mem _ hr)⟩
      have hsplit : s.plain = (s.perform op).buf ++ (s.step op).plain := (hfaith hn).1
      rw [hsplit, reads, List.flatMap_cons, List.append_assoc] at h1
      exact List.append_cancel_left h1
    · rintro ⟨hn, htail⟩ pre hpre
      obtain ⟨hplain, hret⟩ := hfaith hn
      cases pre with
      | nil => exact ⟨rfl, by simp [reads]⟩
      | cons op' pre =>
        obtain ⟨rfl, hpre'⟩ := List.cons_prefix_cons.mp hpre
        obtain ⟨h1, h2⟩ := htail pre hpre'
        refine ⟨?_, fun r hr => ?_⟩
        · rw [hplain, reads, List.flatMap_cons, List.append_assoc]
          exact congrArg (_ ++ ·) h1
        · rcases List.mem_cons.mp hr with rfl | hr
          · exact hret
          · exact h2 r hr

/-- One byte was reinserted, and two are read. -/
def mixed : StreamSocket where
  reinserted := some ⟨[1], 0, Nat.zero_le _⟩
  sock := [2]

/-- Both bytes are delivered, and the call returns 1. Source: `StreamSocket::readData`. Kind: P -/
theorem mixed_miscounted : ¬ ∀ pre, pre <+: [Op.readData 2 2] → mixed.Delivered pre := by
  intro h
  have hret := (h _ List.prefix_rfl).2 (mixed.perform (.readData 2 2)) (by simp [reads])
  exact absurd hret (by decide)

end StreamSocket

end KTorrent.Mse
