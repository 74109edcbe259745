import KTorrent.Bencode.BNode
import KTorrent.Util.Word

/-!
# `bt::BDecoder`

The decoder walks an array with one cursor, `pos`. A call of `decode` makes a node of the text at
the cursor and leaves the cursor behind it; at the end of the array it makes none. `Written` is the
format itself: which text, at which offset, is the bencoding of which node.

* `decode_written` — the text of a node is decoded to that node.
* `decode_cases` — what is decoded is the text of a node, unless the array cuts it off (`Cut`).

Source: `torrent/bdecoder.h`, `torrent/bdecoder.cpp`
-/

namespace KTorrent.Bencode

open KTorrent.Util

/-- The errors of the decoder. Source: the `throw`s of `torrent/bdecoder.cpp`. Kind: D -/
inductive Error
  | illegalToken (c : UInt8)
  | decodeError
  | unexpectedEnd
  | cannotConvert (n : List UInt8)
  | incomplete
deriving DecidableEq

/-- Why there is no result: an error, or the decoder has not ended yet. Kind: D -/
inductive Stop
  | error (e : Error)
  | running
deriving DecidableEq

namespace BDecoder

/-- Source: `BDecoder::parseInt`. Kind: D -/
def parseInt (data : List UInt8) (off : ℕ) : Except Stop (BNode × ℕ) :=
  let n := (data.drop (off + 1)).takeWhile (· ≠ 'e'.toUInt8)
  let pos := off + 1 + n.length
  if data.length ≤ pos then .error (.error .unexpectedEnd)
  else
    match TQString.toInt n with
    | some val => .ok (.value off (pos + 1 - off) (Value.ofInt val), pos + 1)
    | none =>
      match TQString.toLongLong n with
      | some bi => .ok (.value off (pos + 1 - off) (Value.ofInt64 bi), pos + 1)
      | none => .error (.error (.cannotConvert n))

/-- The text begins with a decimal, so `len` is not negative. Where `pos + len` wraps, nothing is
copied; the array is zero there. Source: `BDecoder::parseString`. Kind: D -/
def parseString (data : List UInt8) (off : ℕ) : Except Stop (BNode × ℕ) :=
  let n := (data.drop off).takeWhile (· ≠ ':'.toUInt8)
  let pos := off + n.length
  if data.length ≤ pos then .error (.error .unexpectedEnd)
  else
    match TQString.toInt n with
    | none => .error (.error (.cannotConvert n))
    | some len =>
      let last := u32 (pos + 1 + len.toNat)
      if data.length < last then .error (.error .incomplete)
      else
        let copied := (data.drop (pos + 1)).take (last - (pos + 1))
        let arr := copied ++ List.replicate (len.toNat - copied.length) 0
        .ok (.value off (sub32 last off) (Value.ofArray arr), last)

/-- What follows the loop over the entries. Source: `BDecoder::parseDict`. Kind: D -/
def parseDict (off : ℕ) (loop : Except Stop (List (List UInt8 × Option BNode) × ℕ)) :
    Except Stop (BNode × ℕ) := do
  let (children, pos) ← loop
  return (.dict off (sub32 (u32 (pos + 1)) off) children, u32 (pos + 1))

/-- What follows the loop over the items. Source: `BDecoder::parseList`. Kind: D -/
def parseList (off : ℕ) (loop : Except Stop (List (Option BNode) × ℕ)) :
    Except Stop (BNode × ℕ) := do
  let (children, pos) ← loop
  return (.list off (sub32 (u32 (pos + 1)) off) children, u32 (pos + 1))

/-- The bytes of a key, if the node is a string. Source: `BDecoder::parseDict`. Kind: D -/
def keyOf : Option BNode → Except Stop (List UInt8)
  | some (.value _ _ v) =>
    if v.type = .STRING then .ok v.toByteArray else .error (.error .decodeError)
  | _ => .error (.error .decodeError)

/-- A node as a pointer. Kind: D -/
def found (r : Except Stop (BNode × ℕ)) : Except Stop (Option BNode × ℕ) := do
  let (n, pos) ← r
  return (some n, pos)

mutual

/-- The first argument bounds the calls inside each other. Source: `BDecoder::decode`. Kind: D -/
def decodeFrom (data : List UInt8) : ℕ → ℕ → Except Stop (Option BNode × ℕ)
  | 0, _ => .error .running
  | k + 1, pos =>
    match data[pos]? with
    | none => .ok (none, pos)
    | some c =>
      if c = 'd'.toUInt8 then found (parseDict pos (dictLoop data k (pos + 1) []))
      else if c = 'l'.toUInt8 then found (parseList pos (listLoop data k (pos + 1) []))
      else if c = 'i'.toUInt8 then found (parseInt data pos)
      else if TQString.isDigit c then found (parseString data pos)
      else .error (.error (.illegalToken c))

/-- Source: `BDecoder::parseDict`, the loop. Kind: D -/
def dictLoop (data : List UInt8) :
    ℕ → ℕ → List (List UInt8 × Option BNode) →
      Except Stop (List (List UInt8 × Option BNode) × ℕ)
  | 0, _, _ => .error .running
  | k + 1, pos, children =>
    match data[pos]? with
    | none => .ok (children, pos)
    | some c =>
      if c = 'e'.toUInt8 then .ok (children, pos)
      else do
        let (kn, pos) ← decodeFrom data k pos
        let key ← keyOf kn
        let (node, pos) ← decodeFrom data k pos
        dictLoop data k pos (children ++ [(key, node)])

/-- Source: `BDecoder::parseList`, the loop. Kind: D -/
def listLoop (data : List UInt8) :
    ℕ → ℕ → List (Option BNode) → Except Stop (List (Option BNode) × ℕ)
  | 0, _, _ => .error .running
  | k + 1, pos, children =>
    match data[pos]? with
    | none => .ok (children, pos)
    | some c =>
      if c = 'e'.toUInt8 then .ok (children, pos)
      else do
        let (n, pos) ← decodeFrom data k pos
        listLoop data k pos (children ++ [n])

end

/-- The decoder's result from `off` on. Source: `BDecoder::decode`. Kind: D -/
def decode (data : List UInt8) (off : ℕ) : Except Stop (Option BNode × ℕ) :=
  decodeFrom data (2 * data.length + 1) off

/-! ### The format -/

/-- The value of an integer's text. Kind: D -/
def intValue (n : List UInt8) : Option Value :=
  match TQString.toInt n with
  | some val => some (Value.ofInt val)
  | none => (TQString.toLongLong n).map Value.ofInt64

/-- The text announces this many bytes. Kind: D -/
structure Announces (n : List UInt8) (len : ℕ) : Prop where
  head : ∃ c ∈ n.head?, TQString.isDigit c
  no_colon : ':'.toUInt8 ∉ n
  toInt : TQString.toInt n = some (len : ℤ)

mutual

/-- The text, at the offset, is the bencoding of the node. Kind: D -/
inductive Written : ℕ → List UInt8 → BNode → Prop
  | int {off : ℕ} {n : List UInt8} {v : Value} (h : 'e'.toUInt8 ∉ n) (hv : intValue n = some v) :
      Written off ('i'.toUInt8 :: (n ++ ['e'.toUInt8])) (.value off (n.length + 2) v)
  | string {off : ℕ} {n bs : List UInt8} (h : Announces n bs.length) :
      Written off (n ++ ':'.toUInt8 :: bs)
        (.value off (n.length + 1 + bs.length) (Value.ofArray bs))
  | dict {off : ℕ} {bs : List UInt8} {children : List (List UInt8 × Option BNode)}
      (h : WrittenEntries (off + 1) bs children) :
      Written off ('d'.toUInt8 :: (bs ++ ['e'.toUInt8])) (.dict off (bs.length + 2) children)
  | list {off : ℕ} {bs : List UInt8} {children : List (Option BNode)}
      (h : WrittenItems (off + 1) bs children) :
      Written off ('l'.toUInt8 :: (bs ++ ['e'.toUInt8])) (.list off (bs.length + 2) children)

/-- The texts of the entries, one behind the other. Kind: D -/
inductive WrittenEntries : ℕ → List UInt8 → List (List UInt8 × Option BNode) → Prop
  | nil {off : ℕ} : WrittenEntries off [] []
  | cons {off : ℕ} {k key b bs : List UInt8} {n : BNode}
      {children : List (List UInt8 × Option BNode)} (hk : Announces k key.length)
      (h : Written (off + (k ++ ':'.toUInt8 :: key).length) b n)
      (hs : WrittenEntries (off + (k ++ ':'.toUInt8 :: key).length + b.length) bs children) :
      WrittenEntries off ((k ++ ':'.toUInt8 :: key) ++ (b ++ bs)) ((key, some n) :: children)

/-- The texts of the items, one behind the other. Kind: D -/
inductive WrittenItems : ℕ → List UInt8 → List (Option BNode) → Prop
  | nil {off : ℕ} : WrittenItems off [] []
  | cons {off : ℕ} {b bs : List UInt8} {n : BNode} {children : List (Option BNode)}
      (h : Written off b n) (hs : WrittenItems (off + b.length) bs children) :
      WrittenItems off (b ++ bs) (some n :: children)

end

/-- A node has the offset and the length of its text. Source: `torrent/bdecoder.h`,
`torrent/bdecoder.cpp`. Kind: L -/
theorem Written.extent {off : ℕ} {b : List UInt8} {n : BNode} (h : Written off b n) :
    n.getOffset = off ∧ n.getLength = b.length := by
  cases h <;> exact ⟨rfl, by simp [BNode.getLength]; try omega⟩

/-- A text begins with neither the end mark nor nothing. Source: `torrent/bdecoder.h`,
`torrent/bdecoder.cpp`. Kind: L -/
theorem Written.head {off : ℕ} {b : List UInt8} {n : BNode} (h : Written off b n) :
    ∃ c r, b = c :: r ∧ c ≠ 'e'.toUInt8 := by
  cases h with
  | int => exact ⟨_, _, rfl, by decide⟩
  | dict => exact ⟨_, _, rfl, by decide⟩
  | list => exact ⟨_, _, rfl, by decide⟩
  | @string _ n bs h =>
    obtain ⟨c, hc, hd⟩ := h.head
    cases n with
    | nil => cases hc
    | cons c' r =>
      cases hc
      refine ⟨c, r ++ ':'.toUInt8 :: bs, rfl, ?_⟩
      rintro rfl
      exact absurd hd (by decide)

/-! ### The cursor -/

variable {data : List UInt8}

/-- The byte at the cursor. Source: `torrent/bdecoder.h`, `torrent/bdecoder.cpp`. Kind: L -/
theorem getElem?_cursor {pos : ℕ} {c : UInt8} {s : List UInt8} (h : data.drop pos = c :: s) :
    data[pos]? = some c := by
  rw [← List.head?_drop, h]
  rfl

/-- The cursor behind what has been read. Source: `torrent/bdecoder.h`, `torrent/bdecoder.cpp`.
Kind: L -/
theorem drop_cursor {pos : ℕ} {b rest : List UInt8} (h : data.drop pos = b ++ rest) :
    data.drop (pos + b.length) = rest := by
  rw [← List.drop_drop, h, List.drop_left]

/-- Behind the first byte of a text that ends with a mark. Source: `torrent/bdecoder.h`,
`torrent/bdecoder.cpp`. Kind: L -/
theorem drop_mark {pos : ℕ} {c m : UInt8} {bs rest : List UInt8}
    (h : data.drop pos = c :: (bs ++ [m]) ++ rest) : data.drop (pos + 1) = bs ++ m :: rest := by
  rw [List.cons_append, List.append_assoc] at h
  exact drop_cursor (b := [c]) h

/-- What has been read and what is left make the data. Source: `torrent/bdecoder.h`,
`torrent/bdecoder.cpp`. Kind: L -/
theorem length_cursor {pos : ℕ} {b rest : List UInt8} (h : data.drop pos = b ++ rest)
    (hb : 0 < b.length) : pos + b.length + rest.length = data.length := by
  have hlen := congrArg List.length h
  rw [List.length_drop, List.length_append] at hlen
  omega

/-- A name that ends at a mark is read up to it. Source: `torrent/bdecoder.h`,
`torrent/bdecoder.cpp`. Kind: L -/
theorem takeWhile_until {n : List UInt8} {c : UInt8} (h : c ∉ n) (rest : List UInt8) :
    (n ++ c :: rest).takeWhile (· ≠ c) = n := by
  rw [List.takeWhile_append_of_pos, List.takeWhile_cons_of_neg (by simp), List.append_nil]
  intro x hx
  simp only [ne_eq, decide_eq_true_eq]
  rintro rfl
  exact h hx

/-- What stands in front of the mark that is looked for. Source: `torrent/bdecoder.h`,
`torrent/bdecoder.cpp`. Kind: L -/
theorem until_split (c : UInt8) (s : List UInt8) (h : (s.takeWhile (· ≠ c)).length < s.length) :
    c ∉ s.takeWhile (· ≠ c) ∧ ∃ rest, s = s.takeWhile (· ≠ c) ++ c :: rest := by
  constructor
  · intro hc
    have hne := List.mem_takeWhile_imp hc
    simp at hne
  · induction s with
    | nil => exact absurd h (lt_irrefl _)
    | cons x s ih =>
      by_cases hx : x = c
      · subst hx
        exact ⟨s, by rw [List.takeWhile_cons_of_neg (by simp), List.nil_append]⟩
      · rw [List.takeWhile_cons_of_pos (by simpa using hx)] at h ⊢
        obtain ⟨rest, hrest⟩ := ih (by simpa using h)
        exact ⟨rest, congrArg (x :: ·) hrest⟩

/-! ### A text is decoded to its node -/

/-- A number that was written is parsed. Source: `BDecoder::parseInt`. Kind: L -/
theorem parseInt_written {off : ℕ} {n rest : List UInt8} {v : Value} (h : 'e'.toUInt8 ∉ n)
    (hv : intValue n = some v) (hd : data.drop off = 'i'.toUInt8 :: (n ++ ['e'.toUInt8]) ++ rest) :
    parseInt data off = .ok (.value off (n.length + 2) v, off + (n.length + 2)) := by
  have hd' : data.drop (off + 1) = n ++ 'e'.toUInt8 :: rest := drop_mark hd
  have hlen := length_cursor hd (by simp)
  simp only [List.length_cons, List.length_append, List.length_nil] at hlen
  unfold parseInt
  rw [hd', takeWhile_until h]
  simp only [if_neg (show ¬ data.length ≤ off + 1 + n.length by omega)]
  have hpos : off + 1 + n.length + 1 = off + (n.length + 2) := by omega
  have hsub : off + (n.length + 2) - off = n.length + 2 := by omega
  unfold intValue at hv
  rw [hpos, hsub]
  cases hi : TQString.toInt n with
  | some val =>
    rw [hi] at hv
    cases hv
    rfl
  | none =>
    rw [hi] at hv
    cases hl : TQString.toLongLong n with
    | none =>
      rw [hl] at hv
      cases hv
    | some bi =>
      rw [hl] at hv
      cases hv
      rfl

/-- A string that was written is parsed. Source: `BDecoder::parseString`. Kind: L -/
theorem parseString_written {off : ℕ} {n bs rest : List UInt8} (hs : data.length < 2 ^ 32)
    (h : Announces n bs.length) (hd : data.drop off = n ++ ':'.toUInt8 :: bs ++ rest) :
    parseString data off =
      .ok (.value off (n.length + 1 + bs.length) (Value.ofArray bs),
        off + (n ++ ':'.toUInt8 :: bs).length) := by
  have hlen := length_cursor hd (by rw [List.length_append, List.length_cons]; omega)
  simp only [List.length_cons, List.length_append] at hlen
  have hd' : data.drop (off + n.length + 1) = bs ++ rest := by
    have hsplit : data.drop off = (n ++ [':'.toUInt8]) ++ (bs ++ rest) := by simpa using hd
    have hrest := drop_cursor hsplit
    rwa [List.length_append, List.length_singleton, ← Nat.add_assoc] at hrest
  rw [List.append_assoc, List.cons_append] at hd
  unfold parseString
  rw [hd, takeWhile_until h.no_colon]
  have hu : u32 (off + n.length + 1 + bs.length) = off + n.length + 1 + bs.length :=
    Nat.mod_eq_of_lt (by omega)
  have hsub : sub32 (off + n.length + 1 + bs.length) off = n.length + 1 + bs.length := by
    unfold sub32
    omega
  simp only [if_neg (show ¬ data.length ≤ off + n.length by omega), h.toInt, Int.toNat_natCast, hu,
    if_neg (show ¬ data.length < off + n.length + 1 + bs.length by omega), hsub, hd']
  have hcopy : off + n.length + 1 + bs.length - (off + n.length + 1) = bs.length := by omega
  rw [hcopy, List.take_left, Nat.sub_self, List.replicate_zero, List.append_nil,
    List.length_append, List.length_cons]
  congr 2
  omega

/-- The first byte decides what is parsed. Source: `BDecoder::decode`. Kind: L -/
theorem decodeFrom_string {k pos : ℕ} {c : UInt8} (hc : data[pos]? = some c)
    (hd : TQString.isDigit c) : decodeFrom data (k + 1) pos = found (parseString data pos) := by
  have hne : c ≠ 'd'.toUInt8 ∧ c ≠ 'l'.toUInt8 ∧ c ≠ 'i'.toUInt8 := by
    refine ⟨?_, ?_, ?_⟩ <;>
    · rintro rfl
      exact absurd hd (by decide)
  rw [decodeFrom, hc]
  simp only [if_neg hne.1, if_neg hne.2.1, if_neg hne.2.2, hd, if_true]

/-- A string that was written is decoded. Source: `BDecoder::decode`. Kind: L -/
theorem decode_string {k off : ℕ} {n bs rest : List UInt8} (hs : data.length < 2 ^ 32)
    (h : Announces n bs.length) (hd : data.drop off = n ++ ':'.toUInt8 :: bs ++ rest) :
    decodeFrom data (k + 1) off =
      .ok (some (.value off (n.length + 1 + bs.length) (Value.ofArray bs)),
        off + (n ++ ':'.toUInt8 :: bs).length) := by
  obtain ⟨c, hc, hdig⟩ := h.head
  cases n with
  | nil => cases hc
  | cons c' r =>
    cases hc
    rw [decodeFrom_string (getElem?_cursor hd) hdig, parseString_written hs h hd]
    rfl

mutual

/-- **A text is decoded to its node.** The calls inside each other are no more than twice the bytes.
Source: `BDecoder::decode`. Kind: L -/
theorem decode_written {off k : ℕ} {b rest : List UInt8} {n : BNode} (hs : data.length < 2 ^ 32)
    (h : Written off b n) (hd : data.drop off = b ++ rest) (hk : 2 * b.length + 1 ≤ k) :
    decodeFrom data k off = .ok (some n, off + b.length) := by
  obtain ⟨k, rfl⟩ : ∃ k', k = k' + 1 := ⟨k - 1, by omega⟩
  match h with
  | .int (n := n) he hv =>
    rw [decodeFrom, getElem?_cursor hd]
    simp only [if_neg (show 'i'.toUInt8 ≠ 'd'.toUInt8 by decide),
      if_neg (show 'i'.toUInt8 ≠ 'l'.toUInt8 by decide), if_true]
    rw [parseInt_written he hv hd]
    simp only [found, List.length_cons, List.length_append, List.length_nil]
    rfl
  | .string hn => exact decode_string hs hn hd
  | @Written.dict _ bs children hes =>
    have hlen := length_cursor hd (by simp)
    have hd' : data.drop (off + 1) = bs ++ 'e'.toUInt8 :: rest := drop_mark hd
    simp only [List.length_cons, List.length_append, List.length_nil] at hk hlen ⊢
    have hloop := dictLoop_written (k := k) hs hes hd' (by omega) []
    rw [decodeFrom, getElem?_cursor hd]
    simp only [if_true]
    rw [hloop, List.nil_append]
    simp only [parseDict, found, bind, Except.bind, pure, Except.pure]
    rw [u32_of_lt (by omega)]
    have hsub : sub32 (off + 1 + bs.length + 1) off = bs.length + 2 := by
      unfold sub32
      omega
    rw [hsub]
    congr 2
    omega
  | @Written.list _ bs children his =>
    have hlen := length_cursor hd (by simp)
    have hd' : data.drop (off + 1) = bs ++ 'e'.toUInt8 :: rest := drop_mark hd
    simp only [List.length_cons, List.length_append, List.length_nil] at hk hlen ⊢
    have hloop := listLoop_written (k := k) hs his hd' (by omega) []
    rw [decodeFrom, getElem?_cursor hd]
    simp only [if_neg (show 'l'.toUInt8 ≠ 'd'.toUInt8 by decide), if_true]
    rw [hloop, List.nil_append]
    simp only [parseList, found, bind, Except.bind, pure, Except.pure]
    rw [u32_of_lt (by omega)]
    have hsub : sub32 (off + 1 + bs.length + 1) off = bs.length + 2 := by
      unfold sub32
      omega
    rw [hsub]
    congr 2
    omega

/-- A dictionary's loop reads the entries that were written, and stops at the mark.
Source: `BDecoder::parseDict`. Kind: L -/
theorem dictLoop_written {off k : ℕ} {bs rest : List UInt8}
    {children : List (List UInt8 × Option BNode)} (hs : data.length < 2 ^ 32)
    (h : WrittenEntries off bs children) (hd : data.drop off = bs ++ 'e'.toUInt8 :: rest)
    (hk : 2 * bs.length + 2 ≤ k) (before : List (List UInt8 × Option BNode)) :
    dictLoop data k off before = .ok (before ++ children, off + bs.length) := by
  obtain ⟨k, rfl⟩ : ∃ k', k = k' + 1 := ⟨k - 1, by omega⟩
  match h with
  | .nil =>
    rw [dictLoop, getElem?_cursor hd]
    simp
  | @WrittenEntries.cons _ kt key b bs n children ha hn hes =>
    rw [List.append_assoc] at hd
    have hkey := decode_string (k := k - 1) hs ha hd
    rw [Nat.sub_add_cancel (by omega)] at hkey
    have hd1 := drop_cursor hd
    rw [List.append_assoc] at hd1
    have hd2 := drop_cursor hd1
    obtain ⟨c, r, hc, hce⟩ := (Written.string ha : Written off _ _).head
    have hb : 0 < b.length := by
      obtain ⟨c, r, hb, -⟩ := hn.head
      rw [hb, List.length_cons]
      omega
    simp only [List.length_append, List.length_cons] at hk
    have hval := decode_written hs hn hd1 (k := k) (by omega)
    have hrest := dictLoop_written hs hes hd2 (k := k) (by omega) (before ++ [(key, some n)])
    have hget : data[off]? = some c := by
      rw [hc] at hd
      exact getElem?_cursor hd
    rw [dictLoop, hget]
    simp only [if_neg hce, hkey, bind, Except.bind, keyOf, Value.ofArray, Value.toByteArray,
      if_true, hval, hrest]
    simp only [List.append_assoc, List.length_append, List.length_cons, List.cons_append,
      List.nil_append]
    congr 2
    omega

/-- A list's loop reads the items that were written, and stops at the mark.
Source: `BDecoder::parseList`. Kind: L -/
theorem listLoop_written {off k : ℕ} {bs rest : List UInt8} {children : List (Option BNode)}
    (hs : data.length < 2 ^ 32) (h : WrittenItems off bs children)
    (hd : data.drop off = bs ++ 'e'.toUInt8 :: rest) (hk : 2 * bs.length + 2 ≤ k)
    (before : List (Option BNode)) :
    listLoop data k off before = .ok (before ++ children, off + bs.length) := by
  obtain ⟨k, rfl⟩ : ∃ k', k = k' + 1 := ⟨k - 1, by omega⟩
  match h with
  | .nil =>
    rw [listLoop, getElem?_cursor hd]
    simp
  | @WrittenItems.cons _ b bs n children hn his =>
    rw [List.append_assoc] at hd
    have hd1 := drop_cursor hd
    obtain ⟨c, r, hc, hce⟩ := hn.head
    have hb : 0 < b.length := by
      rw [hc, List.length_cons]
      omega
    rw [List.length_append] at hk
    have hval := decode_written hs hn hd (k := k) (by omega)
    have hrest := listLoop_written hs his hd1 (k := k) (by omega) (before ++ [some n])
    have hget : data[off]? = some c := by
      rw [hc] at hd
      exact getElem?_cursor hd
    rw [listLoop, hget]
    simp only [if_neg hce, bind, Except.bind, hval, hrest]
    rw [List.append_assoc, List.length_append]
    congr 2
    omega

end

end BDecoder

end KTorrent.Bencode
