import KTorrent.Bencode.BDecoder
import KTorrent.Bencode.BEncoder

/-!
# What the encoder writes, the decoder reads

* `Tree.node` — the nodes that stand for a tree, each with the extent of the bytes written for it.
* `written_encode` — the text of a tree is the bencoding of these nodes.
* `decode_unfit` — a tree with a number the decoder cannot hold, or a string too long for it, is
  rejected.
* `roundTrips_iff` — a tree is read back if and only if all its numbers are below 2^63 and all its
  strings shorter than 2^31.
* `largest` — the largest `Uint64` is written and rejected.

Source: `torrent/bencoder.cpp`, `torrent/bdecoder.cpp`, `torrent/value.cpp`
-/

namespace KTorrent.Bencode

open KTorrent.Util BDecoder

namespace Tree

/-- The value that holds a number. Kind: D -/
def intOf (n : ℕ) : Value := if n < 2 ^ 31 then Value.ofInt n else Value.ofInt64 n

/-- The number is in the value. Source: `Value::toInt64`. Kind: L -/
theorem toInt64_intOf (n : ℕ) : (intOf n).toInt64 = n := by
  unfold intOf
  split <;> rfl

mutual

/-- The nodes of a tree whose text is at the offset. Kind: D -/
def node (off : ℕ) : Tree → BNode
  | uint32 val => .value off (encodeInt val.toNat).length (intOf val.toNat)
  | uint64 val => .value off (encodeInt val.toNat).length (intOf val.toNat)
  | array data => .value off (encodeString data).length (Value.ofArray data)
  | bytes data => .value off (encodeString data).length (Value.ofArray data)
  | list ts => .list off ((encodeItems ts).length + 2) (nodeItems (off + 1) ts)
  | dict es => .dict off ((encodeEntries es).length + 2) (nodeEntries (off + 1) es)

/-- The nodes of the items of a list. Kind: D -/
def nodeItems (off : ℕ) : List Tree → List (Option BNode)
  | [] => []
  | t :: ts => some (node off t) :: nodeItems (off + (encode t).length) ts

/-- The nodes of the entries of a dictionary. Kind: D -/
def nodeEntries (off : ℕ) : List (List UInt8 × Tree) → List (List UInt8 × Option BNode)
  | [] => []
  | (key, t) :: es =>
    (key, some (node (off + (encodeString key).length) t)) ::
      nodeEntries (off + (encodeString key).length + (encode t).length) es

end

mutual

/-- Every number below 2^63, every string shorter than 2^31. Kind: D -/
def Fits : Tree → Prop
  | uint32 _ => True
  | uint64 val => val.toNat < 2 ^ 63
  | array data => data.length < 2 ^ 31
  | bytes data => data.length < 2 ^ 31
  | list ts => FitItems ts
  | dict es => FitEntries es

/-- The same for the items of a list. Kind: D -/
def FitItems : List Tree → Prop
  | [] => True
  | t :: ts => Fits t ∧ FitItems ts

/-- The same for the keys and values of a dictionary. Kind: D -/
def FitEntries : List (List UInt8 × Tree) → Prop
  | [] => True
  | (key, t) :: es => key.length < 2 ^ 31 ∧ Fits t ∧ FitEntries es

end

/-- What the encoder produces for the tree is decoded to the tree, with the number and the bytes of
every leaf and the extent of every node. Kind: D -/
def RoundTrips (t : Tree) : Prop :=
  let data := (t.write BEncoderBufferOutput.init).data
  decode data 0 = .ok (some (t.node 0), data.length)

/-! ### Numbers and strings -/

/-- A mark that is no digit does not occur in a number. Source: `torrent/bencoder.cpp`,
`torrent/bdecoder.cpp`. Kind: L -/
theorem mark_not_mem {c : UInt8} (hc : TQString.isDigit c = false) (n : ℕ) :
    c ∉ TQString.number n := by
  intro h
  rw [TQString.isDigit_of_mem_number h] at hc
  exact absurd hc (by decide)

/-- A number below 2^63 is read back, and no other. Source: `TQString::number`. Kind: L -/
theorem intValue_number (n : ℕ) :
    intValue (TQString.number n) = if n < 2 ^ 63 then some (intOf n) else none := by
  unfold intValue intOf
  rw [TQString.toInt_number, TQString.toLongLong_number]
  by_cases h : n < 2 ^ 31
  · have h' : n < 2 ^ 63 := by omega
    rw [if_pos h, if_pos h, if_pos h', if_pos h']
  · rw [if_neg h, if_neg h]
    by_cases h' : n < 2 ^ 63
    · rw [if_pos h', if_pos h']
      rfl
    · rw [if_neg h', if_neg h']
      rfl

/-- A length below 2^31 is read back. Source: `TQString::number`. Kind: L -/
theorem announces_number {n : ℕ} (h : n < 2 ^ 31) : Announces (TQString.number n) n where
  head := by
    cases hs : TQString.number n with
    | nil => exact absurd hs (TQString.number_ne_nil n)
    | cons c r => exact ⟨c, rfl, TQString.isDigit_of_mem_number (hs ▸ List.mem_cons_self)⟩
  no_colon := mark_not_mem (by decide) n
  toInt := by rw [TQString.toInt_number, if_pos h]

/-- A number that fits is written properly. Source: `torrent/bencoder.cpp`, `torrent/bdecoder.cpp`.
Kind: L -/
theorem written_encodeInt (off : ℕ) {n : ℕ} (h : n < 2 ^ 63) :
    Written off (encodeInt n) (.value off (encodeInt n).length (intOf n)) := by
  have hw : Written off ('i'.toUInt8 :: (TQString.number n ++ ['e'.toUInt8]))
      (.value off ((TQString.number n).length + 2) (intOf n)) :=
    Written.int (mark_not_mem (by decide) n) (by rw [intValue_number, if_pos h])
  unfold encodeInt
  rwa [List.length_cons, List.length_append, List.length_singleton]

/-- The length, a colon and the string. Source: `torrent/bencoder.cpp`, `torrent/bdecoder.cpp`.
Kind: L -/
theorem length_encodeString (data : List UInt8) :
    (encodeString data).length = (TQString.number data.length).length + 1 + data.length := by
  unfold encodeString
  rw [List.length_append, List.length_cons]
  omega

/-- A string that fits is written properly. Source: `torrent/bencoder.cpp`, `torrent/bdecoder.cpp`.
Kind: L -/
theorem written_encodeString (off : ℕ) {data : List UInt8} (h : data.length < 2 ^ 31) :
    Written off (encodeString data)
      (.value off (encodeString data).length (Value.ofArray data)) := by
  rw [length_encodeString]
  exact Written.string (announces_number h)

/-! ### A tree that fits -/

mutual

/-- **The text of a tree is the bencoding of its nodes.**. Source: `torrent/bencoder.cpp`,
`torrent/bdecoder.cpp`. Kind: L -/
theorem written_encode (t : Tree) (off : ℕ) (h : t.Fits) : Written off t.encode (t.node off) := by
  cases t with
  | uint32 val => exact written_encodeInt off (lt_trans val.toNat_lt (by decide))
  | uint64 val => exact written_encodeInt off h
  | array data => exact written_encodeString off h
  | bytes data => exact written_encodeString off h
  | list ts => exact Written.list (written_encodeItems ts (off + 1) h)
  | dict es => exact Written.dict (written_encodeEntries es (off + 1) h)

/-- A list whose items fit is written properly. Source: `torrent/bencoder.cpp`,
`torrent/bdecoder.cpp`. Kind: L -/
theorem written_encodeItems (ts : List Tree) (off : ℕ) (h : FitItems ts) :
    WrittenItems off (encodeItems ts) (nodeItems off ts) := by
  cases ts with
  | nil => exact WrittenItems.nil
  | cons t ts =>
    exact WrittenItems.cons (written_encode t off h.1) (written_encodeItems ts _ h.2)

/-- A dictionary whose entries fit is written properly. Source: `torrent/bencoder.cpp`,
`torrent/bdecoder.cpp`. Kind: L -/
theorem written_encodeEntries (es : List (List UInt8 × Tree)) (off : ℕ) (h : FitEntries es) :
    WrittenEntries off (encodeEntries es) (nodeEntries off es) := by
  cases es with
  | nil => exact WrittenEntries.nil
  | cons e es =>
    obtain ⟨key, t⟩ := e
    exact WrittenEntries.cons (announces_number h.1) (written_encode t _ h.2.1)
      (written_encodeEntries es _ h.2.2)

end

/-! ### A tree that does not fit -/

variable {data : List UInt8}

/-- The decoder ended with an error. Kind: D -/
def Rejected {α : Type} (r : Except Stop α) : Prop := ∃ e, r = .error (.error e)

/-- A number that does not fit is rejected. Source: `torrent/bencoder.cpp`, `torrent/bdecoder.cpp`.
Kind: L -/
theorem rejected_int {off k n : ℕ} {rest : List UInt8} (h : ¬ n < 2 ^ 63)
    (hd : data.drop off = encodeInt n ++ rest) : Rejected (decodeFrom data (k + 1) off) := by
  refine ⟨.cannotConvert (TQString.number n), ?_⟩
  have hd' : data.drop (off + 1) = TQString.number n ++ 'e'.toUInt8 :: rest := drop_mark hd
  have hlen := length_cursor hd (by simp [encodeInt])
  simp only [encodeInt, List.length_cons, List.length_append, List.length_nil] at hlen
  rw [decodeFrom, getElem?_cursor hd]
  simp only [if_neg (show 'i'.toUInt8 ≠ 'd'.toUInt8 by decide),
    if_neg (show 'i'.toUInt8 ≠ 'l'.toUInt8 by decide), if_true]
  unfold parseInt
  rw [hd', takeWhile_until (mark_not_mem (by decide) n)]
  simp only [if_neg (show ¬ data.length ≤ off + 1 + (TQString.number n).length by omega),
    TQString.toInt_number, if_neg (show ¬ n < 2 ^ 31 by omega), TQString.toLongLong_number, if_neg h]
  rfl

/-- A string that does not fit is rejected. Source: `torrent/bencoder.cpp`, `torrent/bdecoder.cpp`.
Kind: L -/
theorem rejected_string {off k : ℕ} {bs rest : List UInt8} (h : ¬ bs.length < 2 ^ 31)
    (hd : data.drop off = encodeString bs ++ rest) : Rejected (decodeFrom data (k + 1) off) := by
  refine ⟨.cannotConvert (TQString.number bs.length), ?_⟩
  have hlen := length_cursor hd (by rw [length_encodeString]; omega)
  rw [length_encodeString] at hlen
  have hd' : data.drop off = TQString.number bs.length ++ ':'.toUInt8 :: (bs ++ rest) := by
    rw [hd, encodeString, List.append_assoc]
    rfl
  have hget : ∃ c, data[off]? = some c ∧ TQString.isDigit c := by
    cases hs : TQString.number bs.length with
    | nil => exact absurd hs (TQString.number_ne_nil _)
    | cons c r =>
      rw [hs] at hd'
      exact ⟨c, getElem?_cursor hd', TQString.isDigit_of_mem_number (hs ▸ List.mem_cons_self)⟩
  obtain ⟨c, hc, hdig⟩ := hget
  rw [decodeFrom_string hc hdig]
  unfold parseString
  rw [hd', takeWhile_until (mark_not_mem (by decide) _)]
  simp only [if_neg (show ¬ data.length ≤ off + (TQString.number bs.length).length by omega),
    TQString.toInt_number, if_neg h]
  rfl

/-- No tree is written with the mark of an end in front. Source: `torrent/bencoder.cpp`,
`torrent/bdecoder.cpp`. Kind: L -/
theorem encode_head (t : Tree) : ∃ c r, t.encode = c :: r ∧ c ≠ 'e'.toUInt8 := by
  have hstr : ∀ bs, ∃ c r, encodeString bs = c :: r ∧ c ≠ 'e'.toUInt8 := by
    intro bs
    cases hs : TQString.number bs.length with
    | nil => exact absurd hs (TQString.number_ne_nil _)
    | cons c r =>
      refine ⟨c, r ++ ':'.toUInt8 :: bs, by rw [encodeString, hs]; rfl, ?_⟩
      rintro rfl
      exact mark_not_mem (by decide) bs.length (hs ▸ List.mem_cons_self)
  cases t with
  | uint32 val => exact ⟨_, _, rfl, by decide⟩
  | uint64 val => exact ⟨_, _, rfl, by decide⟩
  | array data => exact hstr data
  | bytes data => exact hstr data
  | list ts => exact ⟨_, _, rfl, by decide⟩
  | dict es => exact ⟨_, _, rfl, by decide⟩

mutual

/-- **A tree with a number or a string out of range is rejected.**. Source: `BDecoder::decode`.
Kind: L -/
theorem decode_unfit (t : Tree) {off k : ℕ} {rest : List UInt8} (hs : data.length < 2 ^ 32)
    (h : ¬ t.Fits) (hd : data.drop off = t.encode ++ rest) (hk : 2 * t.encode.length + 1 ≤ k) :
    Rejected (decodeFrom data k off) := by
  obtain ⟨k, rfl⟩ : ∃ k', k = k' + 1 := ⟨k - 1, by omega⟩
  cases t with
  | uint32 val => exact absurd trivial h
  | uint64 val => exact rejected_int h hd
  | array bs => exact rejected_string h hd
  | bytes bs => exact rejected_string h hd
  | list ts =>
    have hd' : data.drop (off + 1) = encodeItems ts ++ 'e'.toUInt8 :: rest := drop_mark hd
    simp only [encode, List.length_cons, List.length_append, List.length_nil] at hk
    obtain ⟨e, he⟩ := listLoop_unfit ts (k := k) hs h hd' (by omega) []
    refine ⟨e, ?_⟩
    rw [decodeFrom, getElem?_cursor hd]
    simp only [if_neg (show 'l'.toUInt8 ≠ 'd'.toUInt8 by decide), if_true]
    rw [he]
    rfl
  | dict es =>
    have hd' : data.drop (off + 1) = encodeEntries es ++ 'e'.toUInt8 :: rest := drop_mark hd
    simp only [encode, List.length_cons, List.length_append, List.length_nil] at hk
    obtain ⟨e, he⟩ := dictLoop_unfit es (k := k) hs h hd' (by omega) []
    refine ⟨e, ?_⟩
    rw [decodeFrom, getElem?_cursor hd]
    simp only [if_true]
    rw [he]
    rfl

/-- A list with something that does not fit is rejected. Source: `BDecoder::parseList`. Kind: L -/
theorem listLoop_unfit (ts : List Tree) {off k : ℕ} {rest : List UInt8}
    (hs : data.length < 2 ^ 32) (h : ¬ FitItems ts)
    (hd : data.drop off = encodeItems ts ++ 'e'.toUInt8 :: rest)
    (hk : 2 * (encodeItems ts).length + 2 ≤ k) (before : List (Option BNode)) :
    Rejected (listLoop data k off before) := by
  obtain ⟨k, rfl⟩ : ∃ k', k = k' + 1 := ⟨k - 1, by omega⟩
  cases ts with
  | nil => exact absurd trivial h
  | cons t ts =>
    rw [encodeItems, List.append_assoc] at hd
    rw [encodeItems, List.length_append] at hk
    obtain ⟨c, r, hc, hce⟩ := encode_head t
    have hpos : 0 < t.encode.length := by
      rw [hc, List.length_cons]
      omega
    have hget : data[off]? = some c := by
      rw [hc] at hd
      exact getElem?_cursor hd
    by_cases ht : t.Fits
    · have hval := decode_written hs (written_encode t off ht) hd (k := k) (by omega)
      obtain ⟨e, he⟩ := listLoop_unfit ts hs (fun hts => h ⟨ht, hts⟩) (drop_cursor hd) (k := k)
        (by omega) (before ++ [some (t.node off)])
      refine ⟨e, ?_⟩
      rw [listLoop, hget]
      simp only [if_neg hce, bind, Except.bind, hval, he]
    · obtain ⟨e, he⟩ := decode_unfit t hs ht hd (k := k) (by omega)
      refine ⟨e, ?_⟩
      rw [listLoop, hget]
      simp only [if_neg hce, bind, Except.bind, he]

/-- A dictionary with something that does not fit is rejected. Source: `BDecoder::parseDict`.
Kind: L -/
theorem dictLoop_unfit (es : List (List UInt8 × Tree)) {off k : ℕ} {rest : List UInt8}
    (hs : data.length < 2 ^ 32) (h : ¬ FitEntries es)
    (hd : data.drop off = encodeEntries es ++ 'e'.toUInt8 :: rest)
    (hk : 2 * (encodeEntries es).length + 2 ≤ k) (before : List (List UInt8 × Option BNode)) :
    Rejected (dictLoop data k off before) := by
  obtain ⟨k, rfl⟩ : ∃ k', k = k' + 1 := ⟨k - 1, by omega⟩
  cases es with
  | nil => exact absurd trivial h
  | cons entry es =>
    obtain ⟨key, t⟩ := entry
    rw [encodeEntries, List.append_assoc] at hd
    rw [encodeEntries, List.length_append, List.length_append] at hk
    obtain ⟨c, r, hc, hce⟩ := encode_head (array key)
    rw [encode] at hc
    have hpos : 0 < (encodeString key).length := by
      rw [hc, List.length_cons]
      omega
    have hget : data[off]? = some c := by
      rw [hc] at hd
      exact getElem?_cursor hd
    obtain ⟨k, rfl⟩ : ∃ k', k = k' + 1 := ⟨k - 1, by omega⟩
    by_cases hkey : key.length < 2 ^ 31
    · have hk1 := decode_string (k := k) hs (announces_number hkey) hd
      have hd1 := drop_cursor hd
      rw [List.append_assoc] at hd1
      by_cases ht : t.Fits
      · have hval := decode_written hs (written_encode t (off + (encodeString key).length) ht) hd1
          (k := k + 1) (by omega)
        obtain ⟨e, he⟩ := dictLoop_unfit es hs (fun hes => h ⟨hkey, ht, hes⟩) (drop_cursor hd1)
          (k := k + 1) (by omega) (before ++ [(key, some (t.node (off + (encodeString key).length)))])
        refine ⟨e, ?_⟩
        rw [dictLoop, hget]
        simp only [if_neg hce, bind, Except.bind, hk1, keyOf, Value.ofArray, Value.toByteArray, if_true]
        unfold encodeString at hval he
        simp only [hval, he]
      · obtain ⟨e, he⟩ := decode_unfit t hs ht hd1 (k := k + 1) (by omega)
        refine ⟨e, ?_⟩
        rw [dictLoop, hget]
        simp only [if_neg hce, bind, Except.bind, hk1, keyOf, Value.ofArray, Value.toByteArray, if_true]
        unfold encodeString at he
        simp only [he]
    · obtain ⟨e, he⟩ := rejected_string (k := k) hkey hd
      refine ⟨e, ?_⟩
      rw [dictLoop, hget]
      simp only [if_neg hce, bind, Except.bind, he]

end

/-- **A tree is read back exactly when the decoder can hold its numbers and strings.**.
Source: `torrent/bencoder.cpp`, `torrent/bdecoder.cpp`. Kind: L -/
theorem roundTrips_iff (t : Tree) (h : (t.write BEncoderBufferOutput.init).data.length < 2 ^ 32) :
    RoundTrips t ↔ t.Fits := by
  unfold RoundTrips decode
  simp only [writeTree_data] at h ⊢
  have hd : t.encode.drop 0 = t.encode ++ [] := by rw [List.drop_zero, List.append_nil]
  constructor
  · intro hr
    by_contra hf
    obtain ⟨e, he⟩ := decode_unfit t h hf hd le_rfl
    rw [he] at hr
    cases hr
  · intro hf
    have hw := decode_written h (written_encode t 0 hf) hd le_rfl
    rwa [Nat.zero_add] at hw

/-- A dictionary with a number, an empty string and an empty list. Source: `torrent/bencoder.cpp`,
`torrent/bdecoder.cpp`. Kind: L -/
theorem roundTrips_dict :
    RoundTrips (dict [(latin1 "i", uint32 3000000000), ([], array []), ([0, 58, 101], list [])]) :=
  (roundTrips_iff _ (by decide +kernel)).mpr ⟨by decide, trivial, by decide,
    show ([] : List UInt8).length < 2 ^ 31 by decide, by decide, trivial, trivial⟩

/-- **The largest `Uint64` is written, and what is written is rejected.**.
Source: `torrent/bencoder.cpp`, `torrent/bdecoder.cpp`. Kind: P -/
theorem largest : ¬ RoundTrips (uint64 18446744073709551615) := by
  intro h
  have hdata : (write (uint64 18446744073709551615) BEncoderBufferOutput.init).data =
      latin1 "i18446744073709551615e" := by decide +kernel
  have hdec : (decode (latin1 "i18446744073709551615e") 0).toOption.isSome = false := by
    decide +kernel
  unfold RoundTrips at h
  simp only [hdata] at h
  rw [h] at hdec
  cases hdec

end Tree

end KTorrent.Bencode
