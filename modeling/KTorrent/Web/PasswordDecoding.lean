import KTorrent.Lib.While
import KTorrent.Web.HttpServer

/-!
# The decoding of a password

A browser sends the password of a login form percent-encoded; `checkLogin` decodes it in place, once
for the parameter it stands in and once more for each parameter behind it.

* `decodePassword_ends` — the loop ends, for every text.
* `formEncode` — the encoding, a byte of the password's UTF-8 at a time; `decodePassword_encode` —
  what the loop makes of it.
* `quiet` — nothing is left to decode; `iterate_decoded` — what is decoded again keeps its length only
  if it is quiet.
* `shrinks_iterate` — decoding makes no character go away that is not ASCII, and if it makes none, the
  first of them stays where it was up to pairs; `ascii_of_iterate` — so only ASCII comes back.

Source: `plugins/webinterface/httpserver.cpp`
-/

namespace KTorrent.Web

open KTorrent.Lib KTorrent.Util

/-! ### The loop -/

/-- The next escape. Source: `HttpServer::checkLogin`, the condition of the inner loop and the test
inside. Kind: D -/
def nextEscape (s : Text × ℕ) : Option ℕ :=
  ((find (latin1 "%") (s.1.drop s.2)).map (s.2 + ·)).filter fun idx =>
    0 < idx ∧ idx + 2 < s.1.length

/-- A round. Source: `HttpServer::checkLogin`, the inner loop. Kind: D -/
def decodeRound (s : Text × ℕ) : Text × ℕ :=
  (nextEscape s).elim s (decodeEscapedChar s.1)

/-- One round of the loop, if there is another escape. Source: `HttpServer::checkLogin`. Kind: L -/
theorem decodePassword_succ (k : ℕ) (t : Text) (idx : ℕ) :
    decodePassword (k + 1) t idx =
      if (nextEscape (t, idx)).isSome = true then
        decodePassword k (decodeRound (t, idx)).1 (decodeRound (t, idx)).2
      else t := by
  unfold decodeRound nextEscape
  rw [decodePassword]
  cases find (latin1 "%") (t.drop idx) with
  | none => rfl
  | some n =>
    dsimp only
    by_cases h : idx + n > 0 ∧ idx + n + 2 < t.length
    · rw [if_pos h]
      simp only [Option.map_some, Option.filter_some, h, and_self, decide_true, if_true,
        Option.isSome_some, Option.elim_some]
    · rw [if_neg h]
      have h' : decide (0 < idx + n ∧ idx + n + 2 < t.length) = false := decide_eq_false h
      simp only [Option.map_some, Option.filter_some, h', Bool.false_eq_true, if_false,
        Option.isSome_none]

/-- A round leaves less of the text behind the index. Source: `HttpServer::checkLogin`. Kind: L -/
theorem decodeRound_lt {s : Text × ℕ} (h : (nextEscape s).isSome = true) :
    (decodeRound s).1.length - (decodeRound s).2 < s.1.length - s.2 := by
  obtain ⟨idx, hidx⟩ := Option.isSome_iff_exists.mp h
  have hle : s.2 ≤ idx ∧ idx + 2 < s.1.length := by
    unfold nextEscape at hidx
    rw [Option.filter_eq_some_iff] at hidx
    obtain ⟨hmap, hcond⟩ := hidx
    obtain ⟨n, -, rfl⟩ := Option.map_eq_some_iff.mp hmap
    simp only [decide_eq_true_eq] at hcond
    exact ⟨Nat.le_add_right _ _, hcond.2⟩
  unfold decodeRound
  rw [hidx, Option.elim_some]
  unfold decodeEscapedChar
  dsimp only
  split_ifs
  · dsimp only
    omega
  · dsimp only
    omega
  · simp only [List.length_append, List.length_take, List.length_cons, List.length_drop]
    omega

/-- **The loop ends**: so many rounds as there are characters are enough, whatever the text.
Source: `HttpServer::checkLogin`. Kind: P -/
theorem decodePassword_ends (t : Text) (idx : ℕ) {k : ℕ} (hk : t.length - idx < k) :
    ∃ i, whileM (fun s => (nextEscape s).isSome = true) (fun s => .ok (decodeRound s)) () k (t, idx) =
      .ok (decodePassword k t idx, i) := by
  induction k generalizing t idx with
  | zero => omega
  | succ k ih =>
    rw [whileM, decodePassword_succ]
    by_cases h : (nextEscape (t, idx)).isSome = true
    · rw [if_pos h, if_pos h]
      have hlt : (decodeRound (t, idx)).1.length - (decodeRound (t, idx)).2 < t.length - idx :=
        decodeRound_lt h
      exact ih (decodeRound (t, idx)).1 (decodeRound (t, idx)).2 (by omega)
    · rw [if_neg h, if_neg h]
      exact ⟨idx, rfl⟩

/-! ### The encoding -/

/-- The characters the encoding leaves alone: letters, digits and `*-._`. Kind: D -/
def unreserved (b : UInt8) : Bool :=
  (48 ≤ b && b ≤ 57) || (65 ≤ b && b ≤ 90) || (97 ≤ b && b ≤ 122) || b == 42 || b == 45 || b == 46 ||
    b == 95

/-- A hexadecimal digit, upper or lower case. Kind: D -/
def hexDigit (upper : Bool) (n : ℕ) : UInt8 :=
  .ofNat (if n < 10 then 48 + n else if upper then 55 + n else 87 + n)

/-- A byte as `application/x-www-form-urlencoded`. Kind: D -/
def formByte (upper : Bool) (b : UInt8) : Text :=
  if unreserved b then [b]
  else if b = 32 then latin1 "+"
  else [37, hexDigit upper (b.toNat / 16), hexDigit upper (b.toNat % 16)]

/-- The bytes of a password, which the browser sends as UTF-8. Kind: D -/
def passwordBytes (p : List Char) : List UInt8 := p.flatMap String.utf8EncodeChar

/-- The text of a password in the form. Kind: D -/
def formEncode (upper : Bool) (p : List Char) : Text := (passwordBytes p).flatMap (formByte upper)

/-- What the loop makes of a byte that is not the first. Kind: D -/
def decodedByte (b : UInt8) : UInt8 :=
  if unreserved b then b
  else if b = 32 then 43
  else (nibble (lower (hexDigit false (b.toNat / 16))) <<< 4) |||
    nibble (lower (hexDigit false (b.toNat % 16)))

/-- The byte needs no escape, or one of two decimal digits. Kind: D -/
def Survives (b : UInt8) : Prop :=
  unreserved b = true ∨ (b ≠ 32 ∧ b.toNat / 16 < 10 ∧ b.toNat % 16 < 10)

instance (b : UInt8) : Decidable (Survives b) := inferInstanceAs (Decidable (_ ∨ _))

/-- **The passwords that can be decoded.** Kind: D -/
def Decodable (p : List Char) : Prop :=
  (∀ c ∈ p, c.toNat < 128 ∧ Survives (.ofNat c.toNat)) ∧
    ∀ c, p.head? = some c → unreserved (.ofNat c.toNat) = true

/-- Two texts are the same, one with the characters of Unicode. Kind: D -/
def Spells (t : Text) (p : List Char) : Prop := t.map UInt8.toNat = p.map Char.toNat

instance (t : Text) (p : List Char) : Decidable (Spells t p) :=
  inferInstanceAs (Decidable (_ = _))

/-! ### What the loop makes of an encoded password -/

section decode

variable {upper : Bool}

/-- A byte that needs no escape is not the percent sign.
Source: `plugins/webinterface/httpserver.cpp`. Kind: L -/
theorem percent_ne {b : UInt8} (h : unreserved b = true) : b ≠ 37 := by
  rintro rfl
  revert h
  decide

/-- The search passes another byte. Source: `plugins/webinterface/httpserver.cpp`. Kind: L -/
theorem find_cons_ne {b : UInt8} (h : b ≠ 37) (t : Text) :
    find (latin1 "%") (b :: t) = (find (latin1 "%") t).map (· + 1) := by
  rw [find, if_neg]
  rw [show latin1 "%" = [37] from rfl, List.isPrefixOf_cons_cons]
  simp [Ne.symm h]

/-- The search stops at the percent sign. Source: `plugins/webinterface/httpserver.cpp`. Kind: L -/
theorem find_percent (t : Text) : find (latin1 "%") (37 :: t) = some 0 := by
  rw [find, if_pos]
  rw [show latin1 "%" = [37] from rfl, List.isPrefixOf_cons_cons]
  simp

/-- A character that is no `%` is passed over. Source: `HttpServer::checkLogin`. Kind: L -/
theorem decodePassword_skip (k : ℕ) (pre : Text) {b : UInt8} (hb : b ≠ 37) (t : Text) :
    decodePassword k (pre ++ b :: t) pre.length =
      decodePassword k (pre ++ b :: t) (pre ++ [b]).length := by
  cases k with
  | zero => rfl
  | succ k =>
    have hdrop : (pre ++ b :: t).drop (pre ++ [b]).length = t := by
      rw [List.append_cons pre b t, List.drop_left]
    have hnext : nextEscape (pre ++ b :: t, pre.length) =
        nextEscape (pre ++ b :: t, (pre ++ [b]).length) := by
      unfold nextEscape
      dsimp only
      rw [List.drop_left, hdrop, find_cons_ne hb, Option.map_map]
      congr 2
      funext n
      simp only [Function.comp_apply, List.length_append, List.length_singleton]
      omega
    rw [decodePassword_succ, decodePassword_succ]
    unfold decodeRound
    rw [hnext]
    dsimp only
    cases hsome : nextEscape (pre ++ b :: t, (pre ++ [b]).length) with
    | none => rfl
    | some n => rfl

/-- Nothing is left to decode. Source: `HttpServer::checkLogin`. Kind: L -/
theorem decodePassword_nil (k : ℕ) (pre : Text) : decodePassword k pre pre.length = pre := by
  cases k with
  | zero => rfl
  | succ k =>
    rw [decodePassword, List.drop_length]
    rfl

/-- A `%` with two characters behind it is the next escape. Source: `HttpServer::checkLogin`.
Kind: L -/
theorem nextEscape_percent {pre : Text} (hpre : pre ≠ []) (a b : UInt8) (t : Text) :
    nextEscape (pre ++ 37 :: a :: b :: t, pre.length) = some pre.length := by
  have hpos : 0 < pre.length := List.length_pos_iff.mpr hpre
  unfold nextEscape
  dsimp only
  rw [List.drop_left, find_percent, Option.map_some, Nat.add_zero, Option.filter_some, if_pos]
  simp only [List.length_append, List.length_cons, decide_eq_true_eq]
  omega

/-- What the loop does there. Source: `HttpServer::checkLogin`. Kind: L -/
theorem decodeRound_percent {pre : Text} (hpre : pre ≠ []) (a b : UInt8) (t : Text) :
    decodeRound (pre ++ 37 :: a :: b :: t, pre.length) =
      if isHexDigit (lower a) = true ∧ isHexDigit (lower b) = true then
        (pre ++ ((nibble (lower a) <<< 4) ||| nibble (lower b)) :: t, pre.length + 1)
      else (pre ++ 37 :: a :: b :: t, pre.length + 2) := by
  have hget : ∀ j (u : Text), (pre ++ u).getD (pre.length + j) 0 = u.getD j 0 := by
    intro j u
    simp only [List.getD_eq_getElem?_getD]
    rw [List.getElem?_append_right (Nat.le_add_right _ _), Nat.add_sub_cancel_left]
  unfold decodeRound
  rw [nextEscape_percent hpre, Option.elim_some]
  unfold decodeEscapedChar
  dsimp only
  rw [hget, hget]
  simp only [List.getD_cons_succ, List.getD_cons_zero]
  cases ha : isHexDigit (lower a)
  · rfl
  cases hb : isHexDigit (lower b)
  · rfl
  simp only [Bool.not_true, Bool.false_eq_true, if_false, and_self, if_true]
  rw [List.take_left, List.drop_append, List.drop_eq_nil_of_le (Nat.le_add_right _ _)]
  simp

/-- The digits of a byte are digits, and mean the same in lower case.
Source: `plugins/webinterface/httpserver.cpp`. Kind: L -/
theorem hexDigit_spec (upper : Bool) : ∀ n < 16, isHexDigit (lower (hexDigit false n)) = true ∧
    lower (hexDigit upper n) = lower (hexDigit false n) := by
  cases upper
  · decide
  · decide

/-- An escape that is not at the start becomes a character. Source: `HttpServer::checkLogin`.
Kind: L -/
theorem decodePassword_escape (k : ℕ) {pre : Text} (hpre : pre ≠ []) {b : UInt8}
    (hb : unreserved b = false) (h32 : b ≠ 32) (t : Text) :
    decodePassword (k + 1) (pre ++ formByte upper b ++ t) pre.length =
      decodePassword k (pre ++ [decodedByte b] ++ t) (pre ++ [decodedByte b]).length := by
  have hform : pre ++ formByte upper b ++ t = pre ++ 37 :: hexDigit upper (b.toNat / 16) ::
      hexDigit upper (b.toNat % 16) :: t := by
    unfold formByte
    rw [if_neg (by rw [hb]; exact Bool.false_ne_true), if_neg h32]
    simp
  have hhigh := hexDigit_spec upper (b.toNat / 16) (by have := b.toNat_lt; omega)
  have hlow := hexDigit_spec upper (b.toNat % 16) (Nat.mod_lt _ (by omega))
  have hround := decodeRound_percent hpre (hexDigit upper (b.toNat / 16))
    (hexDigit upper (b.toNat % 16)) t
  have hdec : decodedByte b = (nibble (lower (hexDigit false (b.toNat / 16))) <<< 4) |||
      nibble (lower (hexDigit false (b.toNat % 16))) := by
    unfold decodedByte
    rw [if_neg (by rw [hb]; exact Bool.false_ne_true), if_neg h32]
  rw [hhigh.2, hlow.2, if_pos ⟨hhigh.1, hlow.1⟩, ← hdec] at hround
  rw [hform, decodePassword_succ, nextEscape_percent hpre, if_pos (by rfl), hround]
  simp

/-- **What the loop makes of the bytes behind a first one.**. Source: `HttpServer::checkLogin`.
Kind: L -/
theorem decodePassword_bytes (bs : List UInt8) {pre : Text} (hpre : pre ≠ []) {k : ℕ}
    (hk : bs.length < k) :
    decodePassword k (pre ++ bs.flatMap (formByte upper)) pre.length =
      pre ++ bs.map decodedByte := by
  induction bs generalizing pre k with
  | nil =>
    rw [List.flatMap_nil, List.append_nil, List.map_nil, List.append_nil]
    exact decodePassword_nil k pre
  | cons b bs ih =>
    have hne : pre ++ [decodedByte b] ≠ [] := by simp
    have hskip : formByte upper b = [decodedByte b] → decodedByte b ≠ 37 →
        decodePassword k (pre ++ (b :: bs).flatMap (formByte upper)) pre.length =
          pre ++ (b :: bs).map decodedByte := by
      intro hform hb
      rw [List.flatMap_cons, hform, List.singleton_append, decodePassword_skip k pre hb,
        List.append_cons, ih hne (by rw [List.length_cons] at hk; omega)]
      simp
    by_cases hu : unreserved b = true
    · have hdec : decodedByte b = b := if_pos hu
      apply hskip
      · rw [hdec]
        exact if_pos hu
      · rw [hdec]
        exact percent_ne hu
    by_cases h32 : b = 32
    · subst h32
      exact hskip rfl (by decide)
    · obtain ⟨k, rfl⟩ : ∃ k', k = k' + 1 := ⟨k - 1, by rw [List.length_cons] at hk; omega⟩
      rw [List.flatMap_cons, ← List.append_assoc,
        decodePassword_escape k hpre (by simpa using hu) h32,
        ih hne (by rw [List.length_cons] at hk; omega)]
      simp

/-- The first byte is escaped. Kind: D -/
def startsEscaped : List UInt8 → Bool
  | [] => false
  | b :: _ => !unreserved b && b != 32

/-- **What the loop makes of an encoded password**: nothing is decoded if the password begins with
an escape. Source: `HttpServer::checkLogin`. Kind: L -/
theorem decodePassword_encode (bs : List UInt8) {k : ℕ} (hk : bs.length ≤ k) :
    decodePassword (k + 1) (bs.flatMap (formByte upper)) 0 =
      if startsEscaped bs = true then bs.flatMap (formByte upper) else bs.map decodedByte := by
  cases bs with
  | nil => rfl
  | cons b bs =>
    have hk' : bs.length < k + 1 := by
      rw [List.length_cons] at hk
      omega
    have hskip : formByte upper b = [decodedByte b] → decodedByte b ≠ 37 →
        decodePassword (k + 1) ((b :: bs).flatMap (formByte upper)) 0 = (b :: bs).map decodedByte := by
      intro hform hb
      have h := decodePassword_skip (k + 1) [] hb (bs.flatMap (formByte upper))
      rw [List.flatMap_cons, hform]
      exact h.trans (decodePassword_bytes bs (List.cons_ne_nil (decodedByte b) []) hk')
    by_cases hu : unreserved b = true
    · have hdec : decodedByte b = b := if_pos hu
      rw [if_neg (by simp [startsEscaped, hu])]
      apply hskip
      · rw [hdec]
        exact if_pos hu
      · rw [hdec]
        exact percent_ne hu
    by_cases h32 : b = 32
    · subst h32
      exact hskip rfl (by decide)
    · have hstart : startsEscaped (b :: bs) = true := by
        simp [startsEscaped, hu, h32]
      rw [if_pos hstart, decodePassword_succ, if_neg]
      unfold nextEscape formByte
      rw [List.flatMap_cons, if_neg hu, if_neg h32]
      dsimp only
      rw [List.drop_zero, List.cons_append, find_percent]
      simp

/-! ### The passwords that come back -/

/-- A character takes a byte or more. Source: `plugins/webinterface/httpserver.cpp`. Kind: L -/
theorem length_passwordBytes (p : List Char) : p.length ≤ (passwordBytes p).length := by
  induction p with
  | nil => exact le_rfl
  | cons c p ih =>
    have hpos : 0 < (String.utf8EncodeChar c).length := List.length_pos_iff.mpr
      String.utf8EncodeChar_ne_nil
    unfold passwordBytes at ih ⊢
    rw [List.flatMap_cons, List.length_append, List.length_cons]
    omega

/-- An ASCII character is its own byte. Source: `plugins/webinterface/httpserver.cpp`. Kind: L -/
theorem utf8_ascii {c : Char} (h : c.toNat < 128) :
    String.utf8EncodeChar c = [.ofNat c.toNat] := by
  have hsize : c.utf8Size = 1 := by
    rw [Char.utf8Size_eq_one_iff, UInt32.le_iff_toNat_le]
    exact Nat.le_of_lt_succ h
  rw [String.utf8EncodeChar_eq_singleton hsize]
  congr 1

/-- As many bytes as characters: they are all ASCII. Source: `plugins/webinterface/httpserver.cpp`.
Kind: L -/
theorem ascii_of_length {p : List Char} (h : (passwordBytes p).length = p.length) :
    ∀ c ∈ p, c.toNat < 128 := by
  induction p with
  | nil => simp
  | cons c p ih =>
    have hpos : 0 < (String.utf8EncodeChar c).length := List.length_pos_iff.mpr
      String.utf8EncodeChar_ne_nil
    have hrest := length_passwordBytes p
    unfold passwordBytes at h ih hrest
    rw [List.flatMap_cons, List.length_append, List.length_cons] at h
    have hone : (String.utf8EncodeChar c).length = 1 := by omega
    intro d hd
    obtain rfl | hd := List.mem_cons.mp hd
    · rw [String.length_utf8EncodeChar, Char.utf8Size_eq_one_iff, UInt32.le_iff_toNat_le] at hone
      exact Nat.lt_succ_of_le hone
    · exact ih (by omega) d hd

/-- An ASCII character takes one. Source: `plugins/webinterface/httpserver.cpp`. Kind: L -/
theorem passwordBytes_ascii {p : List Char} (h : ∀ c ∈ p, c.toNat < 128) :
    passwordBytes p = p.map fun c => .ofNat c.toNat := by
  unfold passwordBytes
  induction p with
  | nil => rfl
  | cons c p ih =>
    rw [List.flatMap_cons, utf8_ascii (h c List.mem_cons_self),
      ih fun d hd => h d (List.mem_cons_of_mem c hd)]
    rfl

/-- The bytes the loop gives back. Source: `plugins/webinterface/httpserver.cpp`. Kind: L -/
theorem decodedByte_iff (b : UInt8) : decodedByte b = b ↔ Survives b := by
  have hall : ∀ n : Fin 256, decodedByte (.ofNat n) = .ofNat n ↔ Survives (.ofNat n) := by
    decide +kernel
  simpa using hall ⟨b.toNat, b.toNat_lt⟩

/-- A form's encoding is no shorter. Source: `plugins/webinterface/httpserver.cpp`. Kind: L -/
theorem length_encode (upper : Bool) (bs : List UInt8) :
    bs.length ≤ (bs.flatMap (formByte upper)).length := by
  induction bs with
  | nil => exact le_rfl
  | cons b bs ih =>
    have hpos : 0 < (formByte upper b).length := by
      unfold formByte
      split_ifs <;> simp [latin1]
    rw [List.flatMap_cons, List.length_append, List.length_cons]
    omega

/-- Without an escape at the start. Source: `plugins/webinterface/httpserver.cpp`. Kind: L -/
theorem spells_map_iff (p : List Char) : Spells ((passwordBytes p).map decodedByte) p ↔
    ∀ c ∈ p, c.toNat < 128 ∧ Survives (.ofNat c.toNat) := by
  have hbyte : ∀ {c : Char}, c.toNat < 128 → (UInt8.ofNat c.toNat).toNat = c.toNat := by
    intro c hc
    rw [UInt8.toNat_ofNat']
    exact Nat.mod_eq_of_lt (by omega)
  unfold Spells
  constructor
  · intro h
    have hlen := congrArg List.length h
    simp only [List.length_map] at hlen
    have hascii := ascii_of_length hlen
    rw [passwordBytes_ascii hascii, List.map_map, List.map_map] at h
    intro c hc
    refine ⟨hascii c hc, (decodedByte_iff _).mp (UInt8.toNat_inj.mp ?_)⟩
    rw [hbyte (hascii c hc)]
    exact List.map_inj_left.mp h c hc
  · intro h
    rw [passwordBytes_ascii fun c hc => (h c hc).1, List.map_map, List.map_map]
    apply List.map_inj_left.mpr
    intro c hc
    obtain ⟨hascii, hs⟩ := h c hc
    simp only [Function.comp_apply]
    rw [(decodedByte_iff _).mpr hs, hbyte hascii]

end decode

/-! ### A text that is decoded again -/

/-- The password, after a parameter. Source: `HttpServer::checkLogin`, the inner loop. Kind: D -/
def decoded (t : Text) : Text := decodePassword (t.length + 1) t 0

/-- The loop finds nothing to decode: it passes over a `%` that two digits do not follow, and over the
character behind it. Kind: D -/
def quiet : Text → Bool
  | c :: a :: b :: t =>
    if c = 37 then !(isHexDigit (lower a) && isHexDigit (lower b)) && quiet (b :: t)
    else quiet (a :: b :: t)
  | _ => true

/-- A round makes the text no longer. Source: `HttpServer::checkLogin`. Kind: L -/
theorem length_decodeRound (s : Text × ℕ) : (decodeRound s).1.length ≤ s.1.length := by
  unfold decodeRound
  cases hn : nextEscape s with
  | none => exact le_rfl
  | some idx =>
    have hlt : idx + 2 < s.1.length := by
      unfold nextEscape at hn
      rw [Option.filter_eq_some_iff] at hn
      exact (of_decide_eq_true hn.2).2
    rw [Option.elim_some]
    unfold decodeEscapedChar
    dsimp only
    split_ifs
    · exact le_rfl
    · exact le_rfl
    · simp only [List.length_append, List.length_take, List.length_cons, List.length_drop]
      omega

/-- What is decoded is not longer. Source: `HttpServer::checkLogin`. Kind: L -/
theorem length_decodePassword (k : ℕ) (t : Text) (idx : ℕ) :
    (decodePassword k t idx).length ≤ t.length := by
  induction k generalizing t idx with
  | zero => exact le_rfl
  | succ k ih =>
    rw [decodePassword_succ]
    split_ifs
    · exact (ih _ _).trans (length_decodeRound (t, idx))
    · exact le_rfl

/-- **The loop leaves a text alone if it is quiet**, and else makes it shorter.
Source: `HttpServer::checkLogin`. Kind: L -/
theorem decodePassword_quiet {p : Text} (hpre : p ≠ []) (t : Text) {k : ℕ} (hk : t.length < k) :
    if quiet t = true then decodePassword k (p ++ t) p.length = p ++ t
    else (decodePassword k (p ++ t) p.length).length < (p ++ t).length := by
  induction t using quiet.induct generalizing p k with
  | case1 a b t ih =>
    obtain ⟨k, rfl⟩ : ∃ k', k = k' + 1 := ⟨k - 1, by omega⟩
    have hsome : (nextEscape (p ++ 37 :: a :: b :: t, p.length)).isSome = true := by
      rw [nextEscape_percent hpre]
      rfl
    have hround := decodeRound_percent hpre a b t
    have hq : quiet (37 :: a :: b :: t) =
        (!(isHexDigit (lower a) && isHexDigit (lower b)) && quiet (b :: t)) := by
      rw [quiet, if_pos rfl]
    rw [hq, decodePassword_succ, if_pos hsome, hround]
    by_cases hd : isHexDigit (lower a) = true ∧ isHexDigit (lower b) = true
    · rw [if_pos hd, if_neg (by simp [hd.1, hd.2])]
      refine (length_decodePassword _ _ _).trans_lt ?_
      simp only [List.length_append, List.length_cons]
      omega
    · rw [if_neg hd]
      have hdig : (!(isHexDigit (lower a) && isHexDigit (lower b))) = true := by
        revert hd
        cases isHexDigit (lower a) <;> cases isHexDigit (lower b) <;> simp
      rw [hdig, Bool.true_and]
      have h := ih (p := p ++ [37, a]) (by simp) (k := k) (by
        simp only [List.length_cons] at hk ⊢
        omega)
      simpa using h
  | case2 c a b t hc ih =>
    have hq : quiet (c :: a :: b :: t) = quiet (a :: b :: t) := by
      rw [quiet, if_neg hc]
    have h := ih (p := p ++ [c]) (by simp) (k := k) (by
      simp only [List.length_cons] at hk ⊢
      omega)
    rw [hq, decodePassword_skip k p hc]
    simpa using h
  | case3 t hshort =>
    have hlen : t.length ≤ 2 := by
      rcases t with _ | ⟨c, _ | ⟨a, _ | ⟨b, t⟩⟩⟩
      · simp
      · simp
      · simp
      · exact absurd rfl (hshort c a b t)
    have hnone : (nextEscape (p ++ t, p.length)).isSome = true → False := by
      intro h
      obtain ⟨idx, hidx⟩ := Option.isSome_iff_exists.mp h
      unfold nextEscape at hidx
      rw [Option.filter_eq_some_iff] at hidx
      obtain ⟨hmap, hcond⟩ := hidx
      obtain ⟨n, -, rfl⟩ := Option.map_eq_some_iff.mp hmap
      have h2 := (of_decide_eq_true hcond).2
      simp only [List.length_append] at h2
      omega
    have hq : quiet t = true := by
      rcases t with _ | ⟨c, _ | ⟨a, _ | ⟨b, t⟩⟩⟩
      · rfl
      · rfl
      · rfl
      · exact absurd rfl (hshort c a b t)
    rw [if_pos hq]
    cases k with
    | zero => rfl
    | succ k => rw [decodePassword_succ, if_neg hnone]

/-- Decoding makes it no longer. Source: `HttpServer::checkLogin`. Kind: L -/
theorem length_decoded (t : Text) : (decoded t).length ≤ t.length := length_decodePassword _ _ _

/-- A byte in front is left, or the decoded text is shorter. Source: `HttpServer::checkLogin`.
Kind: L -/
theorem decoded_quiet {c : UInt8} (hc : c ≠ 37) (t : Text) :
    if quiet t = true then decoded (c :: t) = c :: t
    else (decoded (c :: t)).length < (c :: t).length := by
  have h := decodePassword_quiet (List.cons_ne_nil c []) t (k := (c :: t).length + 1) (by
    simp only [List.length_cons]
    omega)
  have hskip := decodePassword_skip ((c :: t).length + 1) [] hc t
  unfold decoded
  rw [show decodePassword ((c :: t).length + 1) (c :: t) 0 = _ from hskip]
  exact h

/-- Decoding again and again makes the text no longer. Source: `HttpServer::checkLogin`. Kind: L -/
theorem length_iterate (n : ℕ) (t : Text) : (decoded^[n] t).length ≤ t.length := by
  induction n generalizing t with
  | zero => exact le_rfl
  | succ n ih => exact (ih (decoded t)).trans (length_decoded t)

/-- **Decoded any number of times, a text keeps its length only if it is quiet.**.
Source: `HttpServer::checkLogin`. Kind: L -/
theorem iterate_decoded {c : UInt8} (hc : c ≠ 37) (t : Text) (n : ℕ) :
    if n = 0 ∨ quiet t = true then decoded^[n] (c :: t) = c :: t
    else (decoded^[n] (c :: t)).length < (c :: t).length := by
  have h := decoded_quiet hc t
  cases n with
  | zero => exact rfl
  | succ n =>
    cases hq : quiet t
    · rw [hq, if_neg Bool.false_ne_true] at h
      rw [if_neg (by simp)]
      exact (length_iterate n _).trans_lt h
    · rw [hq, if_pos rfl] at h
      rw [if_pos (Or.inr rfl)]
      exact Function.iterate_fixed h (n + 1)

/-! ### Characters that are not ASCII -/

/-- How many characters are not ASCII. Kind: D -/
def highs (t : Text) : ℕ := t.countP (128 ≤ ·)

/-- How many stand in front of the first of them. Kind: D -/
def lead (t : Text) : ℕ := (t.takeWhile (· < 128)).length

/-- A decoded character: two decimal digits. Kind: D -/
def Decimal (t : Text) : Prop := ∀ b ∈ t, b ≤ 0x99

/-- A byte is above ASCII or not. Source: `plugins/webinterface/httpserver.cpp`. Kind: L -/
theorem not_lt_iff_high (b : UInt8) : decide (128 ≤ b) = !decide (b < 128) := by
  by_cases h : b < 128
  · simp [h]
  · simp [h, UInt8.not_lt.mp h]

/-- Bytes above ASCII are counted in both parts. Source: none: infrastructure. Kind: L -/
theorem highs_append (s t : Text) : highs (s ++ t) = highs s + highs t := List.countP_append

/-- The first byte counts if it is above ASCII. Source: none: infrastructure. Kind: L -/
theorem highs_cons (b : UInt8) (t : Text) :
    highs (b :: t) = (if b < 128 then 0 else 1) + highs t := by
  unfold highs
  rw [List.countP_cons, not_lt_iff_high]
  by_cases h : b < 128 <;> simp [h, Nat.add_comm]

/-- The run of ASCII bytes at the front. Source: none: infrastructure. Kind: L -/
theorem lead_cons (b : UInt8) (t : Text) : lead (b :: t) = if b < 128 then lead t + 1 else 0 := by
  unfold lead
  rw [List.takeWhile_cons]
  by_cases h : b < 128 <;> simp [h]

/-- Where there is none in front, the first is found behind. Source: none: infrastructure.
Kind: L -/
theorem lead_append (s t : Text) :
    lead (s ++ t) = if highs s = 0 then s.length + lead t else lead s := by
  induction s with
  | nil => simp [highs]
  | cons b s ih =>
    rw [List.cons_append, lead_cons, lead_cons, highs_cons, ih, List.length_cons]
    by_cases h : b < 128
    · simp only [if_pos h, Nat.zero_add]
      split_ifs <;> omega
    · simp only [if_neg h]
      rw [if_neg (by omega)]

/-- The digits of a decimal text are ASCII, and what they stand for is decimal.
Source: `plugins/webinterface/httpserver.cpp`. Kind: L -/
theorem digit_spec : ∀ n : Fin 154, isHexDigit (lower (.ofNat n)) = true →
    (UInt8.ofNat n) < 128 ∧ nibble (lower (.ofNat n)) < 10 := by
  decide +kernel

/-- A hexadecimal digit that survives the decimal reading.
Source: `plugins/webinterface/httpserver.cpp`. Kind: L -/
theorem digit_decimal {a : UInt8} (ha : a ≤ 0x99) (hd : isHexDigit (lower a) = true) :
    a < 128 ∧ nibble (lower a) < 10 := by
  have hlt : a.toNat < 154 := Nat.lt_succ_of_le (UInt8.le_iff_toNat_le.mp ha)
  simpa using digit_spec ⟨a.toNat, hlt⟩ (by simpa using hd)

/-- Two decimal digits make a byte of at most 0x99. Source: `plugins/webinterface/httpserver.cpp`.
Kind: L -/
theorem nibbles_decimal : ∀ x y : Fin 10,
    ((UInt8.ofNat x <<< 4) ||| UInt8.ofNat y : UInt8) ≤ 0x99 := by
  decide +kernel

/-- Two bytes below ten make one of at most 0x99. Source: `plugins/webinterface/httpserver.cpp`.
Kind: L -/
theorem decimal_of_nibbles {x y : UInt8} (hx : x < 10) (hy : y < 10) :
    ((x <<< 4) ||| y) ≤ 0x99 := by
  have hx' : x.toNat < 10 := UInt8.lt_iff_toNat_lt.mp hx
  have hy' : y.toNat < 10 := UInt8.lt_iff_toNat_lt.mp hy
  simpa using nibbles_decimal ⟨x.toNat, hx'⟩ ⟨y.toNat, hy'⟩

/-- What decoding does to a text: it stays decimal, and if no character is made that is not ASCII, the
first of them stays where it was up to pairs. Kind: D -/
structure Shrinks (t t' : Text) : Prop where
  decimal : Decimal t'
  grows : highs t ≤ highs t'
  even : highs t' = highs t → lead t' % 2 = lead t % 2

/-- Nothing has shrunk. Source: none: infrastructure. Kind: L -/
theorem Shrinks.refl {t : Text} (h : Decimal t) : Shrinks t t := ⟨h, le_rfl, fun _ => rfl⟩

/-- Shrinking twice. Source: none: infrastructure. Kind: L -/
theorem Shrinks.trans {s t u : Text} (h : Shrinks s t) (h' : Shrinks t u) : Shrinks s u where
  decimal := h'.decimal
  grows := h.grows.trans h'.grows
  even heq := by
    have h1 := h.grows
    have h2 := h'.grows
    exact (h'.even (by omega)).trans (h.even (by omega))

/-- An escape that is decoded. Source: `plugins/webinterface/httpserver.cpp`. Kind: L -/
theorem shrinks_escape {s t : Text} {a b : UInt8} (h : Decimal (s ++ 37 :: a :: b :: t))
    (ha : isHexDigit (lower a) = true) (hb : isHexDigit (lower b) = true) :
    Shrinks (s ++ 37 :: a :: b :: t)
      (s ++ ((nibble (lower a) <<< 4) ||| nibble (lower b)) :: t) := by
  obtain ⟨ha1, ha2⟩ := digit_decimal (h a (by simp)) ha
  obtain ⟨hb1, hb2⟩ := digit_decimal (h b (by simp)) hb
  obtain ⟨r, hr⟩ : ∃ r, r = (nibble (lower a) <<< 4) ||| nibble (lower b) := ⟨_, rfl⟩
  have hr' : r ≤ 0x99 := hr ▸ decimal_of_nibbles ha2 hb2
  rw [← hr]
  have h37 : (37 : UInt8) < 128 := by decide
  refine ⟨fun c hc => ?_, ?_, fun heq => ?_⟩
  · rcases List.mem_append.mp hc with hc | hc
    · exact h c (List.mem_append_left _ hc)
    rcases List.mem_cons.mp hc with rfl | hc
    · exact hr'
    · exact h c (by simp [hc])
  · simp only [highs_append, highs_cons, if_pos h37, if_pos ha1, if_pos hb1]
    omega
  · simp only [highs_append, highs_cons, if_pos h37, if_pos ha1, if_pos hb1] at heq
    have hr1 : r < 128 := by
      by_contra hge
      rw [if_neg hge] at heq
      omega
    simp only [lead_append, lead_cons, if_pos h37, if_pos ha1, if_pos hb1, if_pos hr1]
    split_ifs <;> omega

/-- Where the search stops there is a percent sign. Source: `plugins/webinterface/httpserver.cpp`.
Kind: L -/
theorem find_some_percent {t : Text} {n : ℕ} (h : find (latin1 "%") t = some n) :
    t[n]? = some 37 := by
  induction t generalizing n with
  | nil => cases h
  | cons b t ih =>
    by_cases hb : b = 37
    · subst hb
      rw [find_percent] at h
      obtain rfl := Option.some.inj h
      rfl
    · rw [find_cons_ne hb] at h
      obtain ⟨m, hm, rfl⟩ := Option.map_eq_some_iff.mp h
      exact ih hm

/-- One round. Source: `HttpServer::checkLogin`. Kind: L -/
theorem shrinks_decodeRound {s : Text × ℕ} (h : Decimal s.1) : Shrinks s.1 (decodeRound s).1 := by
  unfold decodeRound
  cases hn : nextEscape s with
  | none => exact .refl h
  | some idx =>
    obtain ⟨t, i⟩ := s
    -- the text, around the escape
    have hsplit : ∃ a b, t = t.take idx ++ 37 :: a :: b :: t.drop (idx + 3) ∧
        t.getD (idx + 1) 0 = a ∧ t.getD (idx + 2) 0 = b := by
      unfold nextEscape at hn
      rw [Option.filter_eq_some_iff] at hn
      obtain ⟨hmap, hcond⟩ := hn
      have hlt := (of_decide_eq_true hcond).2
      dsimp only at hmap hlt
      obtain ⟨n, hfind, rfl⟩ := Option.map_eq_some_iff.mp hmap
      have h37 : t[i + n]? = some 37 := by
        have h1 := find_some_percent hfind
        rwa [List.getElem?_drop] at h1
      have hget : ∀ j (hj : j < t.length), t.getD j 0 = t[j] := fun j hj => by
        rw [List.getD_eq_getElem?_getD, List.getElem?_eq_getElem hj, Option.getD_some]
      refine ⟨t[i + n + 1], t[i + n + 2], ?_, hget _ _, hget _ _⟩
      obtain ⟨h0, h37'⟩ := List.getElem?_eq_some_iff.mp h37
      conv_lhs => rw [← List.take_append_drop (i + n) t]
      rw [List.drop_eq_getElem_cons h0, h37', List.drop_eq_getElem_cons (by omega),
        List.drop_eq_getElem_cons hlt]
    obtain ⟨a, b, ht, ha, hb⟩ := hsplit
    rw [Option.elim_some]
    unfold decodeEscapedChar
    dsimp only at h ⊢
    rw [ha, hb]
    split_ifs with h1 h2
    · exact .refl h
    · exact .refl h
    · have h3 := shrinks_escape (ht ▸ h) (by simpa using h1) (by simpa using h2)
      rwa [← ht] at h3

/-- Decoding only shrinks a text of decimal escapes. Source: `HttpServer::checkLogin`. Kind: L -/
theorem shrinks_decodePassword (k : ℕ) {t : Text} (h : Decimal t) (idx : ℕ) :
    Shrinks t (decodePassword k t idx) := by
  induction k generalizing t idx with
  | zero => exact .refl h
  | succ k ih =>
    rw [decodePassword_succ]
    split_ifs
    · have hs : Shrinks t (decodeRound (t, idx)).1 := shrinks_decodeRound (s := (t, idx)) h
      exact hs.trans (ih hs.decimal _)
    · exact .refl h

/-- **Decoded any number of times.**. Source: `HttpServer::checkLogin`. Kind: L -/
theorem shrinks_iterate (n : ℕ) {t : Text} (h : Decimal t) : Shrinks t (decoded^[n] t) := by
  induction n generalizing t with
  | zero => exact .refl h
  | succ n ih =>
    have hs := shrinks_decodePassword (t.length + 1) h 0
    exact hs.trans (ih hs.decimal)

/-! ### Passwords that are not ASCII -/

/-- What an escape decodes to is a decimal pair of digits.
Source: `plugins/webinterface/httpserver.cpp`. Kind: L -/
theorem decimal_decodedByte (b : UInt8) : decodedByte b ≤ 0x99 := by
  have hall : ∀ n : Fin 256, decodedByte (.ofNat n) ≤ 0x99 := by
    decide +kernel
  simpa using hall ⟨b.toNat, b.toNat_lt⟩

/-- An ASCII byte stays one. Source: `plugins/webinterface/httpserver.cpp`. Kind: L -/
theorem decodedByte_ascii {b : UInt8} (h : b < 128) : decodedByte b < 128 := by
  have hall : ∀ n : Fin 128, decodedByte (.ofNat n) < 128 := by
    decide +kernel
  simpa using hall ⟨b.toNat, UInt8.lt_iff_toNat_lt.mp h⟩

/-- The characters behind ASCII that can be decoded have two bytes: one that becomes a `"`, and one
that is not ASCII. Source: `HttpServer::checkLogin`. Kind: L -/
theorem decoded_two (c : Char) (h : 128 ≤ c.toNat) (h' : c.toNat ≤ 0x99) :
    ∃ b, (String.utf8EncodeChar c).map decodedByte = [34, b] ∧ ¬ b < 128 := by
  have hall : ∀ n : Fin 26,
      (String.utf8EncodeChar (Char.ofNat (128 + n))).map decodedByte = [34,
        ((String.utf8EncodeChar (Char.ofNat (128 + n))).map decodedByte).getD 1 0] ∧
      ¬ ((String.utf8EncodeChar (Char.ofNat (128 + n))).map decodedByte).getD 1 0 < 128 := by
    decide +kernel
  have hc := hall ⟨c.toNat - 128, by omega⟩
  rw [show 128 + (c.toNat - 128) = c.toNat by omega, Char.ofNat_toNat] at hc
  exact ⟨_, hc⟩

/-- The text a password is, character for character, has as many characters that are not ASCII as
the bytes it is decoded from, and the first of them stands one place further in front.
Source: `HttpServer::checkLogin`. Kind: L -/
theorem decoded_high {t : Text} {p : List Char} (hs : Spells t p) (hd : Decimal t) :
    highs ((passwordBytes p).map decodedByte) = highs t ∧
      lead ((passwordBytes p).map decodedByte) = lead t + if highs t = 0 then 0 else 1 := by
  induction p generalizing t with
  | nil =>
    have ht : t = [] := List.map_eq_nil_iff.mp hs
    subst ht
    exact ⟨rfl, rfl⟩
  | cons c p ih =>
    obtain ⟨b, t, rfl⟩ : ∃ b t', t = b :: t' := by
      cases t with
      | nil => cases hs
      | cons b t => exact ⟨b, t, rfl⟩
    obtain ⟨hb, hs'⟩ := List.cons.inj hs
    obtain ⟨h1, h2⟩ := ih hs' fun x hx => hd x (List.mem_cons_of_mem _ hx)
    have hbytes : (passwordBytes (c :: p)).map decodedByte =
        (String.utf8EncodeChar c).map decodedByte ++ (passwordBytes p).map decodedByte := by
      unfold passwordBytes
      rw [List.flatMap_cons, List.map_append]
    rw [hbytes]
    by_cases hlow : b < 128
    · have hc : c.toNat < 128 := hb ▸ UInt8.lt_iff_toNat_lt.mp hlow
      have hofNat : UInt8.ofNat c.toNat = b := by
        rw [← hb]
        exact UInt8.ofNat_toNat
      rw [utf8_ascii hc, hofNat, List.map_cons, List.map_nil, List.singleton_append, highs_cons,
        lead_cons, highs_cons, lead_cons, if_pos (decodedByte_ascii hlow),
        if_pos (decodedByte_ascii hlow), if_pos hlow, if_pos hlow, h1, h2]
      exact ⟨rfl, by rw [Nat.zero_add]; omega⟩
    · have hge : 128 ≤ c.toNat := by
        rw [← hb]
        exact Nat.le_of_not_lt fun h => hlow (UInt8.lt_iff_toNat_lt.mpr h)
      have hle : c.toNat ≤ 0x99 := hb ▸ UInt8.le_iff_toNat_le.mp (hd b List.mem_cons_self)
      obtain ⟨b', hb', hhigh⟩ := decoded_two c hge hle
      have h34 : (34 : UInt8) < 128 := by decide
      rw [hb']
      simp only [List.cons_append, List.nil_append, highs_cons, lead_cons, if_pos h34,
        if_neg hhigh, if_neg hlow, h1]
      exact ⟨by omega, by rw [if_neg (by omega)]⟩

/-- **A password that comes back is ASCII**, however often it is decoded.
Source: `plugins/webinterface/httpserver.cpp`. Kind: P -/
theorem ascii_of_iterate {p : List Char} (n : ℕ)
    (h : Spells (decoded^[n] ((passwordBytes p).map decodedByte)) p) : ∀ c ∈ p, c.toNat < 128 := by
  have hdec : Decimal ((passwordBytes p).map decodedByte) := by
    intro b hb
    obtain ⟨b', -, rfl⟩ := List.mem_map.mp hb
    exact decimal_decodedByte b'
  have hs := shrinks_iterate n hdec
  obtain ⟨h1, h2⟩ := decoded_high h hs.decimal
  have h3 := hs.even h1.symm
  -- the first that is not ASCII would stand at an even and an odd place
  have hzero : highs (decoded^[n] ((passwordBytes p).map decodedByte)) = 0 := by
    by_contra hne
    rw [if_neg hne] at h2
    omega
  intro c hc
  have hmem : c.toNat ∈ (decoded^[n] ((passwordBytes p).map decodedByte)).map UInt8.toNat := by
    rw [show _ = p.map Char.toNat from h]
    exact List.mem_map_of_mem hc
  obtain ⟨b, hb, hbc⟩ := List.mem_map.mp hmem
  unfold highs at hzero
  rw [List.countP_eq_zero] at hzero
  have hlow : b < 128 := by simpa using hzero b hb
  rw [← hbc]
  exact UInt8.lt_iff_toNat_lt.mp hlow

/-! ### The passwords the bytes are of -/

/-- A password that begins with an escape is shorter than its encoding.
Source: `plugins/webinterface/httpserver.cpp`. Kind: L -/
theorem length_formEncode_of_escaped (upper : Bool) {p : List Char}
    (hstart : startsEscaped (passwordBytes p) = true) : p.length < (formEncode upper p).length := by
  have hp := length_passwordBytes p
  unfold formEncode
  cases hbs : passwordBytes p with
  | nil =>
    rw [hbs] at hstart
    cases hstart
  | cons b bs =>
    rw [hbs] at hstart hp
    have hrest := length_encode upper bs
    have hb : (formByte upper b).length = 3 := by
      unfold startsEscaped at hstart
      simp only [Bool.and_eq_true, Bool.not_eq_true', bne_iff_ne] at hstart
      unfold formByte
      rw [if_neg (by rw [hstart.1]; exact Bool.false_ne_true), if_neg hstart.2]
      rfl
    rw [List.flatMap_cons, List.length_append]
    rw [List.length_cons] at hp
    omega

/-- Of a password in ASCII whose characters survive, the first one decides whether it begins with an
escape. Source: `plugins/webinterface/httpserver.cpp`. Kind: L -/
theorem startsEscaped_iff {p : List Char}
    (h : ∀ c ∈ p, c.toNat < 128 ∧ Survives (.ofNat c.toNat)) :
    startsEscaped (passwordBytes p) = false ↔
      ∀ c, p.head? = some c → unreserved (.ofNat c.toNat) = true := by
  rw [passwordBytes_ascii fun c hc => (h c hc).1]
  cases p with
  | nil => exact iff_of_true rfl fun c hc => absurd hc (Option.some_ne_none c).symm
  | cons d p =>
    have hs := (h d List.mem_cons_self).2
    rw [List.map_cons]
    unfold startsEscaped
    constructor
    · intro hstart c hc
      obtain rfl : d = c := Option.some.inj hc
      by_contra hu
      have hne := (hs.resolve_left hu).1
      simp [hu, hne] at hstart
    · intro hfirst
      simp [hfirst d rfl]

/-- A password whose characters all survive is decoded as it was.
Source: `plugins/webinterface/httpserver.cpp`. Kind: L -/
theorem map_decodedByte {p : List Char}
    (h : ∀ c ∈ p, c.toNat < 128 ∧ Survives (.ofNat c.toNat)) :
    (passwordBytes p).map decodedByte = passwordBytes p := by
  rw [passwordBytes_ascii fun c hc => (h c hc).1, List.map_map]
  exact List.map_congr_left fun c hc => (decodedByte_iff _).mpr (h c hc).2

end KTorrent.Web
