import KTorrent.Bencode.BDecoder
import KTorrent.Lib.Buffer
import KTorrent.Util.SHA1HashGen

/-!
# What the decoder accepts

* `Cut` — the array ends inside a list or a dictionary, between two of its members or behind a
  key; or an announced length runs over the range of the cursor.
* `decode_cases` — the decoder ends, with an error, with nothing at the end of the array, or with
  the node of a text, unless the array is cut off so.
* `decode_cut` — a list or a dictionary that is cut off is accepted, with an extent past the end.
* `sound_iff` — the decoder is sound exactly where the array does not cut anything off.
* `unterminated` — a single `l` is accepted as a list of two bytes.

Source: `torrent/bdecoder.cpp`; `torrent/torrent.cpp`, `Torrent::load`
-/

namespace KTorrent.Bencode

open KTorrent.Util KTorrent.Lib

namespace BDecoder

/-- The string's length, added to the cursor, leaves the range of a `Uint32`. Kind: D -/
def Wraps (off : ℕ) (bs : List UInt8) : Prop :=
  ∃ n rest len, bs = n ++ ':'.toUInt8 :: rest ∧ Announces n len ∧ 2 ^ 32 ≤ off + n.length + 1 + len

mutual

/-- The rest of the array begins a list or a dictionary that it cuts off. Kind: D -/
inductive Cut : ℕ → List UInt8 → Prop
  | wraps {off : ℕ} {bs : List UInt8} (h : Wraps off bs) : Cut off bs
  | list {off : ℕ} {bs : List UInt8} (h : CutItems (off + 1) bs) : Cut off ('l'.toUInt8 :: bs)
  | dict {off : ℕ} {bs : List UInt8} (h : CutEntries (off + 1) bs) : Cut off ('d'.toUInt8 :: bs)

/-- The array ends between two items, or inside one. Kind: D -/
inductive CutItems : ℕ → List UInt8 → Prop
  | stop {off : ℕ} : CutItems off []
  | inside {off : ℕ} {bs : List UInt8} (h : Cut off bs) : CutItems off bs
  | next {off : ℕ} {b bs : List UInt8} {n : BNode} (h : Written off b n)
      (hs : CutItems (off + b.length) bs) : CutItems off (b ++ bs)

/-- The array ends between two entries, behind a key, or inside a value; or inside a key that is no
string, where the array is so long that the cursor can wrap. Kind: D -/
inductive CutEntries : ℕ → List UInt8 → Prop
  | stop {off : ℕ} : CutEntries off []
  | wraps {off : ℕ} {bs : List UInt8} (h : Wraps off bs) : CutEntries off bs
  | long {off : ℕ} {bs : List UInt8} (h : Cut off bs) (hl : 2 ^ 31 ≤ off + bs.length) :
      CutEntries off bs
  | key {off : ℕ} {k key : List UInt8} (h : Announces k key.length) :
      CutEntries off (k ++ ':'.toUInt8 :: key)
  | inside {off : ℕ} {k key bs : List UInt8} (h : Announces k key.length)
      (hv : Cut (off + (k ++ ':'.toUInt8 :: key).length) bs) :
      CutEntries off ((k ++ ':'.toUInt8 :: key) ++ bs)
  | next {off : ℕ} {k key b bs : List UInt8} {n : BNode} (h : Announces k key.length)
      (hv : Written (off + (k ++ ':'.toUInt8 :: key).length) b n)
      (hs : CutEntries (off + (k ++ ':'.toUInt8 :: key).length + b.length) bs) :
      CutEntries off ((k ++ ':'.toUInt8 :: key) ++ (b ++ bs))

end

variable {data : List UInt8}

/-! ### What is cut off is accepted -/

/-- Below 2^31 bytes no position wraps. Source: `torrent/bdecoder.cpp`. Kind: L -/
theorem not_wraps {off : ℕ} {bs : List UInt8} (hs : data.length < 2 ^ 31)
    (hl : off + bs.length = data.length) : ¬ Wraps off bs := by
  rintro ⟨n, rest, len, rfl, ha, hw⟩
  obtain ⟨c, hc, hd⟩ := ha.head
  obtain ⟨m, hm, hlt⟩ := TQString.toInt_of_digit hc hd ha.toInt
  rw [List.length_append, List.length_cons] at hl
  omega

/-- What is cut off begins with a byte that is no end. Source: `torrent/bdecoder.cpp`. Kind: L -/
theorem cut_head {off : ℕ} {bs : List UInt8} (hs : data.length < 2 ^ 31) (h : Cut off bs)
    (hl : off + bs.length = data.length) : ∃ c s, bs = c :: s ∧ c ≠ 'e'.toUInt8 := by
  cases h with
  | wraps hw => exact absurd hw (not_wraps hs hl)
  | list => exact ⟨_, _, rfl, by decide⟩
  | dict => exact ⟨_, _, rfl, by decide⟩

/-- At the end of the array the loops stop. Source: `BDecoder::parseList`. Kind: L -/
theorem listLoop_end {k pos : ℕ} (hk : 0 < k) (hp : data.length ≤ pos)
    (before : List (Option BNode)) : listLoop data k pos before = .ok (before, pos) := by
  obtain ⟨k, rfl⟩ : ∃ k', k = k' + 1 := ⟨k - 1, by omega⟩
  rw [listLoop, List.getElem?_eq_none_iff.mpr hp]

/-- At the end of the data a dictionary's loop stops. Source: `BDecoder::parseDict`. Kind: L -/
theorem dictLoop_end {k pos : ℕ} (hk : 0 < k) (hp : data.length ≤ pos)
    (before : List (List UInt8 × Option BNode)) :
    dictLoop data k pos before = .ok (before, pos) := by
  obtain ⟨k, rfl⟩ : ∃ k', k = k' + 1 := ⟨k - 1, by omega⟩
  rw [dictLoop, List.getElem?_eq_none_iff.mpr hp]

/-- At the end of the data nothing is decoded. Source: `BDecoder::decode`. Kind: L -/
theorem decodeFrom_end {k pos : ℕ} (hk : 0 < k) (hp : data.length ≤ pos) :
    decodeFrom data k pos = .ok (none, pos) := by
  obtain ⟨k, rfl⟩ : ∃ k', k = k' + 1 := ⟨k - 1, by omega⟩
  rw [decodeFrom, List.getElem?_eq_none_iff.mpr hp]

/-- One item of a list, and the loop goes on. Source: `BDecoder::parseList`. Kind: L -/
theorem listLoop_next {k off pos : ℕ} {c : UInt8} {s : List UInt8} {n : Option BNode}
    (hd : data.drop off = c :: s) (hc : c ≠ 'e'.toUInt8)
    (hn : decodeFrom data k off = .ok (n, pos)) (before : List (Option BNode)) :
    listLoop data (k + 1) off before = listLoop data k pos (before ++ [n]) := by
  rw [listLoop, getElem?_cursor hd]
  simp only [if_neg hc, hn, bind, Except.bind]

/-- One entry of a dictionary, and the loop goes on. Source: `BDecoder::parseDict`. Kind: L -/
theorem dictLoop_next {k off pos : ℕ} {kt key s : List UInt8} {n : Option BNode}
    (hs : data.length < 2 ^ 32) (ha : Announces kt key.length)
    (hd : data.drop off = (kt ++ ':'.toUInt8 :: key) ++ s)
    (hn : decodeFrom data (k + 1) (off + (kt ++ ':'.toUInt8 :: key).length) = .ok (n, pos))
    (before : List (List UInt8 × Option BNode)) :
    dictLoop data (k + 1 + 1) off before =
      dictLoop data (k + 1) pos (before ++ [(key, n)]) := by
  obtain ⟨c, r, hc, hce⟩ := (Written.string ha : Written off _ _).head
  have hget : data[off]? = some c := by
    rw [hc] at hd
    exact getElem?_cursor hd
  rw [dictLoop, hget]
  simp only [if_neg hce, decode_string hs ha hd, bind, Except.bind, keyOf, Value.ofArray,
    Value.toByteArray, if_true, hn]

mutual

/-- **A list or a dictionary that is cut off is accepted, and ends behind the array.**.
Source: `BDecoder::decode`. Kind: L -/
theorem decode_cut {off k : ℕ} {bs : List UInt8} (hs : data.length < 2 ^ 31) (h : Cut off bs)
    (hd : data.drop off = bs) (hl : off + bs.length = data.length) (hk : 2 * bs.length + 1 ≤ k) :
    ∃ n pos, decodeFrom data k off = .ok (some n, pos) ∧
      keyOf (some n) = .error (.error .decodeError) ∧ data.length < pos ∧
      pos ≤ data.length + bs.length := by
  obtain ⟨k, rfl⟩ : ∃ k', k = k' + 1 := ⟨k - 1, by omega⟩
  match h with
  | .wraps hw => exact absurd hw (not_wraps hs hl)
  | @Cut.list _ bs hi =>
    rw [List.length_cons] at hl hk
    obtain ⟨cs, pos, hloop, h1, h2⟩ := listLoop_cut (k := k) hs hi
      (drop_cursor (b := ['l'.toUInt8]) hd) (by omega) (by omega) []
    refine ⟨.list off (sub32 (u32 (pos + 1)) off) cs, u32 (pos + 1), ?_, rfl, ?_⟩
    · rw [decodeFrom, getElem?_cursor hd]
      simp only [if_neg (show 'l'.toUInt8 ≠ 'd'.toUInt8 by decide), if_true]
      rw [hloop]
      rfl
    · rw [u32_of_lt (by omega), List.length_cons]
      omega
  | @Cut.dict _ bs hi =>
    rw [List.length_cons] at hl hk
    obtain ⟨cs, pos, hloop, h1, h2⟩ := dictLoop_cut (k := k) hs hi
      (drop_cursor (b := ['d'.toUInt8]) hd) (by omega) (by omega) []
    refine ⟨.dict off (sub32 (u32 (pos + 1)) off) cs, u32 (pos + 1), ?_, rfl, ?_⟩
    · rw [decodeFrom, getElem?_cursor hd]
      simp only [if_true]
      rw [hloop]
      rfl
    · rw [u32_of_lt (by omega), List.length_cons]
      omega

/-- A list that is cut off is read to the end of the data. Source: `BDecoder::parseList`. Kind: L -/
theorem listLoop_cut {off k : ℕ} {bs : List UInt8} (hs : data.length < 2 ^ 31)
    (h : CutItems off bs) (hd : data.drop off = bs) (hl : off + bs.length = data.length)
    (hk : 2 * bs.length + 2 ≤ k) (before : List (Option BNode)) :
    ∃ cs pos, listLoop data k off before = .ok (cs, pos) ∧ data.length ≤ pos ∧
      pos ≤ data.length + bs.length := by
  obtain ⟨k, rfl⟩ : ∃ k', k = k' + 1 := ⟨k - 1, by omega⟩
  match h with
  | .stop =>
    rw [List.length_nil] at hl
    exact ⟨_, _, listLoop_end (by omega) (by omega) before, by omega, by omega⟩
  | .inside hi =>
    obtain ⟨c, s, hc, hce⟩ := cut_head hs hi hl
    obtain ⟨n, pos, hn, -, h1, h2⟩ := decode_cut (k := k) hs hi hd hl (by omega)
    rw [hc] at hd
    rw [listLoop_next hd hce hn]
    exact ⟨_, _, listLoop_end (by omega) (by omega) _, by omega, by omega⟩
  | @CutItems.next _ b bs _ hw hi =>
    obtain ⟨c, s, hc, hce⟩ := hw.head
    rw [List.length_append] at hl hk
    have hb : b.length = s.length + 1 := by rw [hc, List.length_cons]
    have hn := decode_written (by omega) hw hd (k := k) (by omega)
    obtain ⟨cs, pos, hloop, h1, h2⟩ := listLoop_cut (k := k) hs hi (drop_cursor hd) (by omega)
      (by omega) (before ++ [_])
    rw [hc, List.cons_append] at hd
    rw [listLoop_next hd hce hn, List.length_append]
    exact ⟨cs, pos, hloop, h1, by omega⟩

/-- A dictionary that is cut off is read to the end of the data. Source: `BDecoder::parseDict`.
Kind: L -/
theorem dictLoop_cut {off k : ℕ} {bs : List UInt8} (hs : data.length < 2 ^ 31)
    (h : CutEntries off bs) (hd : data.drop off = bs) (hl : off + bs.length = data.length)
    (hk : 2 * bs.length + 2 ≤ k) (before : List (List UInt8 × Option BNode)) :
    ∃ cs pos, dictLoop data k off before = .ok (cs, pos) ∧ data.length ≤ pos ∧
      pos ≤ data.length + bs.length := by
  match h with
  | .stop =>
    rw [List.length_nil] at hl
    exact ⟨_, _, dictLoop_end (by omega) (by omega) before, by omega, by omega⟩
  | .wraps hw => exact absurd hw (not_wraps hs hl)
  | .long _ hlong => omega
  | @CutEntries.key _ kt key ha =>
    have hd' : data.drop off = (kt ++ ':'.toUInt8 :: key) ++ [] := by rw [hd, List.append_nil]
    have hlen : (kt ++ ':'.toUInt8 :: key).length = kt.length + key.length + 1 := by
      rw [List.length_append, List.length_cons]
      omega
    obtain ⟨k, rfl⟩ : ∃ k', k = k' + 1 + 1 := ⟨k - 2, by omega⟩
    rw [dictLoop_next (by omega) ha hd' (decodeFrom_end (by omega) (by omega))]
    exact ⟨_, _, dictLoop_end (by omega) (by omega) _, by omega, by omega⟩
  | @CutEntries.inside _ kt key bs ha hi =>
    have hlen : (kt ++ ':'.toUInt8 :: key).length = kt.length + key.length + 1 := by
      rw [List.length_append, List.length_cons]
      omega
    rw [List.length_append] at hl hk
    obtain ⟨k, rfl⟩ : ∃ k', k = k' + 1 + 1 := ⟨k - 2, by omega⟩
    obtain ⟨n, pos, hn, -, h1, h2⟩ := decode_cut (k := k + 1) hs hi (drop_cursor hd) (by omega)
      (by omega)
    rw [dictLoop_next (by omega) ha hd hn, List.length_append]
    exact ⟨_, _, dictLoop_end (by omega) (by omega) _, by omega, by omega⟩
  | @CutEntries.next _ kt key b bs _ ha hw hi =>
    have hlen : (kt ++ ':'.toUInt8 :: key).length = kt.length + key.length + 1 := by
      rw [List.length_append, List.length_cons]
      omega
    simp only [List.length_append, List.length_cons] at hl hk
    obtain ⟨k, rfl⟩ : ∃ k', k = k' + 1 + 1 := ⟨k - 2, by omega⟩
    have hd1 := drop_cursor hd
    have hn := decode_written (by omega) hw hd1 (k := k + 1) (by omega)
    obtain ⟨cs, pos, hloop, h1, h2⟩ := dictLoop_cut (k := k + 1) hs hi (drop_cursor hd1) (by omega)
      (by omega) (before ++ [(key, _)])
    rw [dictLoop_next (by omega) ha hd hn]
    refine ⟨cs, pos, hloop, h1, ?_⟩
    rw [List.length_append, @List.length_append _ b bs]
    omega

end

/-! ### The decoder's results -/


/-- The text at the cursor was parsed to its node, or there was an error. Kind: D -/
def Parsed (data : List UInt8) (off : ℕ) (r : Except Stop (BNode × ℕ)) : Prop :=
  (∃ e, r = .error (.error e)) ∨
    ∃ n b rest, r = .ok (n, off + b.length) ∧ data.drop off = b ++ rest ∧ Written off b n

/-- The same for a call that can be at the end of the array. Kind: D -/
def Decoded (data : List UInt8) (off : ℕ) (r : Except Stop (Option BNode × ℕ)) : Prop :=
  (∃ e, r = .error (.error e)) ∨ (r = .ok (none, off) ∧ data.length ≤ off) ∨
    ∃ n b rest, r = .ok (some n, off + b.length) ∧ data.drop off = b ++ rest ∧ Written off b n

/-- A loop stopped at an end mark, behind the texts of the nodes it made. Kind: D -/
def Looped {α : Type} (W : ℕ → List UInt8 → List α → Prop) (data : List UInt8) (off : ℕ)
    (before : List α) (r : Except Stop (List α × ℕ)) : Prop :=
  (∃ e, r = .error (.error e)) ∨
    ∃ cs b rest, r = .ok (before ++ cs, off + b.length) ∧ data.drop off = b ++ 'e'.toUInt8 :: rest ∧
      W off b cs

/-- What is parsed is what was found. Source: `torrent/bdecoder.cpp`. Kind: L -/
theorem Parsed.found {off : ℕ} {r : Except Stop (BNode × ℕ)} (h : Parsed data off r) :
    Decoded data off (found r) := by
  obtain ⟨e, rfl⟩ | ⟨n, b, rest, rfl, hd, hw⟩ := h
  · exact .inl ⟨e, rfl⟩
  · exact .inr (.inr ⟨n, b, rest, rfl, hd, hw⟩)

/-- A number is parsed, or an error. Source: `BDecoder::parseInt`. Kind: L -/
theorem parseInt_cases {off : ℕ} {s : List UInt8} (hd : data.drop off = 'i'.toUInt8 :: s) :
    Parsed data off (parseInt data off) := by
  have hd' : data.drop (off + 1) = s := drop_cursor (b := ['i'.toUInt8]) hd
  have hlen := length_cursor (b := ['i'.toUInt8]) hd (by simp)
  rw [List.length_singleton] at hlen
  by_cases hend : data.length ≤ off + 1 + (s.takeWhile (· ≠ 'e'.toUInt8)).length
  · refine .inl ⟨.unexpectedEnd, ?_⟩
    unfold parseInt
    simp only [hd', if_pos hend]
  · obtain ⟨hn, rest, hs⟩ := until_split 'e'.toUInt8 s (by omega)
    cases hv : intValue (s.takeWhile (· ≠ 'e'.toUInt8)) with
    | none =>
      refine .inl ⟨.cannotConvert (s.takeWhile (· ≠ 'e'.toUInt8)), ?_⟩
      unfold intValue at hv
      unfold parseInt
      simp only [hd', if_neg hend]
      cases hi : TQString.toInt (s.takeWhile (· ≠ 'e'.toUInt8)) with
      | some val =>
        rw [hi] at hv
        cases hv
      | none =>
        rw [hi] at hv
        rw [Option.map_eq_none_iff.mp hv]
    | some v =>
      have htext : data.drop off = 'i'.toUInt8 ::
          (s.takeWhile (· ≠ 'e'.toUInt8) ++ ['e'.toUInt8]) ++ rest := by
        rw [hd, List.cons_append, List.append_assoc]
        exact congrArg _ hs
      refine .inr ⟨_, _, rest, ?_, htext, Written.int hn hv⟩
      rw [parseInt_written hn hv htext, List.length_cons, List.length_append, List.length_singleton]

/-- A string is parsed, or an error, unless its position wraps. Source: `BDecoder::parseString`.
Kind: L -/
theorem parseString_cases {off : ℕ} {c : UInt8} {s : List UInt8} (hs : data.length < 2 ^ 32)
    (hd : data.drop off = c :: s) (hc : TQString.isDigit c) :
    Wraps off (data.drop off) ∨ Parsed data off (parseString data off) := by
  have hlen := length_cursor (b := [c]) hd (by simp)
  rw [List.length_singleton] at hlen
  by_cases hend : data.length ≤ off + ((data.drop off).takeWhile (· ≠ ':'.toUInt8)).length
  · refine .inr (.inl ⟨.unexpectedEnd, ?_⟩)
    unfold parseString
    simp only [if_pos hend]
  obtain ⟨hn, rest, hsplit⟩ := until_split ':'.toUInt8 (data.drop off)
    (by rw [List.length_drop]; omega)
  -- the text begins with a decimal, so its number is not negative
  have hhead : ∃ c' ∈ ((data.drop off).takeWhile (· ≠ ':'.toUInt8)).head?, TQString.isDigit c' := by
    rw [hd, List.takeWhile_cons_of_pos]
    · exact ⟨c, rfl, hc⟩
    · simp only [ne_eq, decide_eq_true_eq]
      rintro rfl
      exact absurd hc (by decide)
  generalize hnn : (data.drop off).takeWhile (· ≠ ':'.toUInt8) = n at *
  cases hi : TQString.toInt n with
  | none =>
    refine .inr (.inl ⟨.cannotConvert n, ?_⟩)
    unfold parseString
    simp only [hnn, if_neg hend, hi]
  | some v =>
    obtain ⟨c', hc', hd'⟩ := hhead
    obtain ⟨len, rfl, -⟩ := TQString.toInt_of_digit hc' hd' hi
    have ha : Announces n len := ⟨⟨c', hc', hd'⟩, hn, hi⟩
    by_cases hw : 2 ^ 32 ≤ off + n.length + 1 + len
    · exact .inl ⟨n, rest, len, hsplit, ha, hw⟩
    refine .inr ?_
    by_cases hlast : data.length < off + n.length + 1 + len
    · refine .inl ⟨.incomplete, ?_⟩
      unfold parseString
      simp only [hnn, if_neg hend, hi, Int.toNat_natCast]
      rw [u32_of_lt (by omega), if_pos hlast]
    · have hpos : 0 < n.length := by
        cases n with
        | nil => cases hc'
        | cons x r => exact Nat.succ_pos _
      have hrest := length_cursor hsplit hpos
      rw [List.length_cons] at hrest
      have htake : (rest.take len).length = len := by
        rw [List.length_take]
        omega
      have htext : data.drop off = n ++ ':'.toUInt8 :: rest.take len ++ rest.drop len := by
        rw [List.append_assoc, List.cons_append, List.take_append_drop]
        exact hsplit
      have ha' : Announces n (rest.take len).length := htake.symm ▸ ha
      exact .inr ⟨_, _, _, parseString_written hs ha' htext, htext, Written.string ha'⟩

/-- A loop that stands at an end mark. Source: none: infrastructure. Kind: L -/
theorem looped_nil {α : Type} {W : ℕ → List UInt8 → List α → Prop} (hW : ∀ off, W off [] [])
    {off : ℕ} {s : List UInt8} (hd : data.drop off = 'e'.toUInt8 :: s) (before : List α) :
    Looped W data off before (.ok (before, off)) :=
  .inr ⟨[], [], s, by rw [List.append_nil]; rfl, hd, hW off⟩

/-- What is decoded, with enough calls for what is left of the array. Kind: D -/
def DecodeSpec (data : List UInt8) (k : ℕ) : Prop :=
  ∀ off, 2 * (data.length - off) + 1 ≤ k →
    Cut off (data.drop off) ∨ Decoded data off (decodeFrom data k off)

/-- What the loop over the items makes. Kind: D -/
def ListSpec (data : List UInt8) (k : ℕ) : Prop :=
  ∀ off before, 2 * (data.length - off) + 2 ≤ k →
    CutItems off (data.drop off) ∨ Looped WrittenItems data off before (listLoop data k off before)

/-- What the loop over the entries makes. Kind: D -/
def DictSpec (data : List UInt8) (k : ℕ) : Prop :=
  ∀ off before, 2 * (data.length - off) + 2 ≤ k →
    CutEntries off (data.drop off) ∨
      Looped WrittenEntries data off before (dictLoop data k off before)

/-- A list is parsed when its items are. Source: `torrent/bdecoder.cpp`. Kind: L -/
theorem parsed_list {off : ℕ} {s : List UInt8} {r : Except Stop (List (Option BNode) × ℕ)}
    (hs : data.length < 2 ^ 32) (hd : data.drop off = 'l'.toUInt8 :: s)
    (h : Looped WrittenItems data (off + 1) [] r) : Parsed data off (parseList off r) := by
  obtain ⟨e, rfl⟩ | ⟨cs, b, rest, rfl, hb, hw⟩ := h
  · exact .inl ⟨e, rfl⟩
  have hd' : data.drop (off + 1) = s := drop_cursor (b := ['l'.toUInt8]) hd
  have htext : data.drop off = 'l'.toUInt8 :: (b ++ ['e'.toUInt8]) ++ rest := by
    rw [hd, ← hd', hb, List.cons_append, List.append_assoc]
    rfl
  have hlen := length_cursor htext (by simp)
  simp only [List.length_cons, List.length_append, List.length_nil] at hlen
  refine .inr ⟨_, _, rest, ?_, htext, Written.list hw⟩
  have hu : u32 (off + 1 + b.length + 1) = off + (b.length + 2) := by
    rw [u32_of_lt (by omega)]
    omega
  have hsub : sub32 (off + (b.length + 2)) off = b.length + 2 := by
    unfold sub32
    omega
  simp only [parseList, bind, Except.bind, pure, Except.pure, hu, hsub, List.nil_append,
    List.length_cons, List.length_append, List.length_nil]

/-- A dictionary is parsed when its entries are. Source: `torrent/bdecoder.cpp`. Kind: L -/
theorem parsed_dict {off : ℕ} {s : List UInt8}
    {r : Except Stop (List (List UInt8 × Option BNode) × ℕ)}
    (hs : data.length < 2 ^ 32) (hd : data.drop off = 'd'.toUInt8 :: s)
    (h : Looped WrittenEntries data (off + 1) [] r) : Parsed data off (parseDict off r) := by
  obtain ⟨e, rfl⟩ | ⟨cs, b, rest, rfl, hb, hw⟩ := h
  · exact .inl ⟨e, rfl⟩
  have hd' : data.drop (off + 1) = s := drop_cursor (b := ['d'.toUInt8]) hd
  have htext : data.drop off = 'd'.toUInt8 :: (b ++ ['e'.toUInt8]) ++ rest := by
    rw [hd, ← hd', hb, List.cons_append, List.append_assoc]
    rfl
  have hlen := length_cursor htext (by simp)
  simp only [List.length_cons, List.length_append, List.length_nil] at hlen
  refine .inr ⟨_, _, rest, ?_, htext, Written.dict hw⟩
  have hu : u32 (off + 1 + b.length + 1) = off + (b.length + 2) := by
    rw [u32_of_lt (by omega)]
    omega
  have hsub : sub32 (off + (b.length + 2)) off = b.length + 2 := by
    unfold sub32
    omega
  simp only [parseDict, bind, Except.bind, pure, Except.pure, hu, hsub, List.nil_append,
    List.length_cons, List.length_append, List.length_nil]

/-- One more level of the decoder. Source: `torrent/bdecoder.cpp`. Kind: L -/
theorem decodeSpec_succ {k : ℕ} (hs : data.length < 2 ^ 32) (hl : ListSpec data k)
    (hdict : DictSpec data k) : DecodeSpec data (k + 1) := by
  intro off hk
  cases hd : data.drop off with
  | nil =>
    have hend : data.length ≤ off := List.drop_eq_nil_iff.mp hd
    refine .inr (.inr (.inl ⟨?_, hend⟩))
    rw [decodeFrom, List.getElem?_eq_none_iff.mpr hend]
  | cons c s =>
    have hlen := length_cursor (b := [c]) hd (by simp)
    rw [List.length_singleton] at hlen
    have hd' : data.drop (off + 1) = s := drop_cursor (b := [c]) hd
    by_cases h1 : c = 'd'.toUInt8
    · subst h1
      obtain hcut | hloop := hdict (off + 1) [] (by omega)
      · exact .inl (.dict (hd' ▸ hcut))
      · rw [decodeFrom, getElem?_cursor hd]
        exact .inr (parsed_dict hs hd hloop).found
    by_cases h2 : c = 'l'.toUInt8
    · subst h2
      obtain hcut | hloop := hl (off + 1) [] (by omega)
      · exact .inl (.list (hd' ▸ hcut))
      · rw [decodeFrom, getElem?_cursor hd]
        exact .inr (parsed_list hs hd hloop).found
    by_cases h3 : c = 'i'.toUInt8
    · subst h3
      rw [decodeFrom, getElem?_cursor hd]
      exact .inr (parseInt_cases hd).found
    by_cases h4 : TQString.isDigit c
    · obtain hcut | hp := parseString_cases hs hd h4
      · exact .inl (.wraps (hd ▸ hcut))
      · rw [decodeFrom_string (getElem?_cursor hd) h4]
        exact .inr hp.found
    · refine .inr (.inl ⟨.illegalToken c, ?_⟩)
      rw [decodeFrom, getElem?_cursor hd]
      simp only [if_neg h1, if_neg h2, if_neg h3, if_neg h4]

/-- One more item of a list. Source: `torrent/bdecoder.cpp`. Kind: L -/
theorem listSpec_succ {k : ℕ} (hdec : DecodeSpec data k) (hl : ListSpec data k) :
    ListSpec data (k + 1) := by
  intro off before hk
  cases hd : data.drop off with
  | nil => exact .inl .stop
  | cons c s =>
    have hlen := length_cursor (b := [c]) hd (by simp)
    rw [List.length_singleton] at hlen
    rw [listLoop, getElem?_cursor hd]
    by_cases he : c = 'e'.toUInt8
    · subst he
      simp only [if_true]
      exact .inr (looped_nil (fun _ => WrittenItems.nil) hd before)
    simp only [if_neg he]
    obtain hcut | ⟨e, hr⟩ | ⟨-, hend⟩ | ⟨n, b, rest, hr, hb, hw⟩ := hdec off (by omega)
    · exact .inl (.inside (hd ▸ hcut))
    · exact .inr (.inl ⟨e, by simp only [hr, bind, Except.bind]⟩)
    · omega
    · obtain ⟨c', r, hb', -⟩ := hw.head
      have hpos : 0 < b.length := by
        rw [hb', List.length_cons]
        omega
      have hrest := drop_cursor hb
      simp only [hr, bind, Except.bind]
      obtain hcut | ⟨e, hl⟩ | ⟨cs, bs, rest', hl, hbs, hws⟩ :=
        hl (off + b.length) (before ++ [some n]) (by omega)
      · rw [hrest] at hcut
        rw [← hd, hb]
        exact .inl (.next hw hcut)
      · exact .inr (.inl ⟨e, hl⟩)
      · refine .inr (.inr ⟨some n :: cs, b ++ bs, rest', ?_, ?_, .cons hw hws⟩)
        · rw [hl, List.append_assoc, List.length_append, Nat.add_assoc]
          rfl
        · rw [hb, List.append_assoc, ← hbs, hrest]

/-- A key that was decoded is a string, or it is rejected. Source: `torrent/bdecoder.cpp`.
Kind: L -/
theorem key_cases {off : ℕ} {b : List UInt8} {n : BNode} (h : Written off b n) :
    keyOf (some n) = .error (.error .decodeError) ∨
      ∃ kt key, b = kt ++ ':'.toUInt8 :: key ∧
        n = .value off (kt.length + 1 + key.length) (Value.ofArray key) ∧
        Announces kt key.length := by
  cases h with
  | dict => exact .inl rfl
  | list => exact .inl rfl
  | string ha => exact .inr ⟨_, _, rfl, rfl, ha⟩
  | @int _ n v he hv =>
    refine .inl ?_
    have hty : v.type ≠ .STRING := by
      unfold intValue at hv
      cases hi : TQString.toInt n with
      | some val =>
        rw [hi] at hv
        cases hv
        exact fun h => by cases h
      | none =>
        rw [hi] at hv
        obtain ⟨bi, -, rfl⟩ := Option.map_eq_some_iff.mp hv
        exact fun h => by cases h
    simp only [keyOf, if_neg hty]

/-- One more entry of a dictionary. Source: `torrent/bdecoder.cpp`. Kind: L -/
theorem dictSpec_succ {k : ℕ} (hs : data.length < 2 ^ 32) (hdec : DecodeSpec data k)
    (hl : DictSpec data k) : DictSpec data (k + 1) := by
  intro off before hk
  cases hd : data.drop off with
  | nil => exact .inl .stop
  | cons c s =>
    have hlen := length_cursor (b := [c]) hd (by simp)
    rw [List.length_singleton] at hlen
    rw [dictLoop, getElem?_cursor hd]
    by_cases he : c = 'e'.toUInt8
    · subst he
      simp only [if_true]
      exact .inr (looped_nil (fun _ => WrittenEntries.nil) hd before)
    simp only [if_neg he]
    obtain hcut | ⟨e, hr⟩ | ⟨-, hend⟩ | ⟨n, b, rest, hr, hb, hw⟩ := hdec off (by omega)
    · -- a key that is cut off is no string; in a short array it is decoded, and rejected as a key
      by_cases hlong : 2 ^ 31 ≤ off + (c :: s).length
      · exact .inl (.long (hd ▸ hcut) hlong)
      rw [List.length_cons] at hlong
      obtain ⟨n, pos, hr, hkey, -, -⟩ := decode_cut (k := k) (by omega) hcut rfl
        (by rw [List.length_drop]; omega) (by rw [List.length_drop]; omega)
      exact .inr (.inl ⟨.decodeError, by simp only [hr, bind, Except.bind, hkey]⟩)
    · exact .inr (.inl ⟨e, by simp only [hr, bind, Except.bind]⟩)
    · omega
    simp only [hr, bind, Except.bind]
    obtain hkey | ⟨kt, key, rfl, rfl, ha⟩ := key_cases hw
    · exact .inr (.inl ⟨.decodeError, by simp only [hkey]⟩)
    simp only [keyOf, Value.ofArray, Value.toByteArray, if_true]
    have hlk : (kt ++ ':'.toUInt8 :: key).length = kt.length + key.length + 1 := by
      rw [List.length_append, List.length_cons]
      omega
    have hd1 := drop_cursor hb
    obtain hcut | ⟨e, hv⟩ | ⟨hv, hend⟩ | ⟨m, b, rest', hv, hb', hw'⟩ :=
      hdec (off + (kt ++ ':'.toUInt8 :: key).length) (by omega)
    · rw [hd1] at hcut
      rw [← hd, hb]
      exact .inl (.inside ha hcut)
    · exact .inr (.inl ⟨e, by simp only [hv]⟩)
    · have hrest : rest = [] := by rw [← hd1, List.drop_eq_nil_iff.mpr hend]
      rw [← hd, hb, hrest, List.append_nil]
      exact .inl (.key ha)
    · simp only [hv]
      have hd2 := drop_cursor hb'
      obtain hcut | ⟨e, hr'⟩ | ⟨cs, bs, rest'', hr', hbs, hws⟩ :=
        hl (off + (kt ++ ':'.toUInt8 :: key).length + b.length) (before ++ [(key, some m)])
          (by omega)
      · rw [hd2] at hcut
        rw [← hd, hb, ← hd1, hb']
        exact .inl (.next ha hw' hcut)
      · exact .inr (.inl ⟨e, hr'⟩)
      · refine .inr (.inr ⟨(key, some m) :: cs, (kt ++ ':'.toUInt8 :: key) ++ (b ++ bs), rest'', ?_,
          ?_, .cons ha hw' hws⟩)
        · rw [hr', List.append_assoc, @List.length_append _ (kt ++ ':'.toUInt8 :: key),
            @List.length_append _ b bs, Nat.add_assoc, Nat.add_assoc]
          rfl
        · rw [hb, ← hd1, hb', ← hd2, hbs]
          simp only [List.append_assoc]

/-- The decoder and its two loops, for any fuel. Source: `torrent/bdecoder.cpp`. Kind: L -/
theorem specs (hs : data.length < 2 ^ 32) (k : ℕ) :
    DecodeSpec data k ∧ ListSpec data k ∧ DictSpec data k := by
  induction k with
  | zero =>
    refine ⟨?_, ?_, ?_⟩
    · intro off hk
      omega
    · intro off before hk
      omega
    · intro off before hk
      omega
  | succ k ih =>
    exact ⟨decodeSpec_succ hs ih.2.1 ih.2.2, listSpec_succ ih.1 ih.2.1, dictSpec_succ hs ih.1 ih.2.2⟩

/-- **What is decoded is the text of a node, unless the array cuts it off.**.
Source: `BDecoder::decode`. Kind: L -/
theorem decode_cases (hs : data.length < 2 ^ 32) (off : ℕ) :
    Cut off (data.drop off) ∨ Decoded data off (decode data off) :=
  (specs hs (2 * data.length + 1)).1 off (by omega)

end BDecoder

open BDecoder

/-! ### Every node is where its text is -/

namespace BNode

/-- The node is among the children. Kind: D -/
def IsChild : BNode → BNode → Prop
  | m, .dict _ _ children => ∃ key, (key, some m) ∈ children
  | m, .list _ _ children => some m ∈ children
  | _, .value _ _ _ => False

/-- The node or one below it. Kind: D -/
def Within : BNode → BNode → Prop := Relation.ReflTransGen IsChild

end BNode

/-- The bytes between the offset of a node and its end; `none` is an access outside the array.
Kind: D -/
def extent (data : List UInt8) (n : BNode) : Option (List UInt8) := peek data n.getOffset n.getLength

/-- The hash over the extent of the node `info`. Source: `Torrent::load`. Kind: D -/
def infoHash (data : List UInt8) (children : List (List UInt8 × Option BNode)) :
    Option (Vector UInt8 20) :=
  (BNode.getData children (latin1 "info")).bind fun n => (extent data n).map generate

/-- What the decoder promises: it ends; without an error it makes nothing at the end of the array
only; and otherwise it makes the nodes of the text at the cursor. Then the extent of every node is
inside the array and is its text, and the hash over the node `info` is the hash of its text.
Kind: D -/
def Sound (data : List UInt8) (off : ℕ) : Prop :=
  match decode data off with
  | .error .running => False
  | .error (.error _) => True
  | .ok (none, _) => data.length ≤ off
  | .ok (some n, pos) =>
    (∃ b rest, data.drop off = b ++ rest ∧ Written off b n ∧ pos = off + b.length) ∧
      (∀ m, BNode.Within m n → ∃ b, extent data m = some b ∧ Written m.getOffset b m) ∧
      ∀ o l children m, n = .dict o l children →
        BNode.getData children (latin1 "info") = some m →
          ∃ b, Written m.getOffset b m ∧ infoHash data children = some (generate b)

namespace BDecoder

/-- A list's item was written inside it. Source: `torrent/bdecoder.cpp`. Kind: L -/
theorem WrittenItems.child {off : ℕ} {bs : List UInt8} {children : List (Option BNode)}
    (h : WrittenItems off bs children) {m : BNode} (hm : some m ∈ children) :
    ∃ front b back, bs = front ++ b ++ back ∧ Written (off + front.length) b m := by
  induction children generalizing off bs with
  | nil => cases hm
  | cons n children ih =>
    cases h with
    | @cons _ b bs n _ hn hs =>
      obtain hm | hm := List.mem_cons.mp hm
      · cases hm
        exact ⟨[], b, bs, rfl, hn⟩
      · obtain ⟨front, b', back, rfl, hw⟩ := ih hs hm
        refine ⟨b ++ front, b', back, by simp only [List.append_assoc], ?_⟩
        rw [List.length_append, ← Nat.add_assoc]
        exact hw

/-- A dictionary's value was written inside it. Source: `torrent/bdecoder.cpp`. Kind: L -/
theorem WrittenEntries.child {off : ℕ} {bs : List UInt8}
    {children : List (List UInt8 × Option BNode)} (h : WrittenEntries off bs children) {m : BNode}
    {key : List UInt8} (hm : (key, some m) ∈ children) :
    ∃ front b back, bs = front ++ b ++ back ∧ Written (off + front.length) b m := by
  induction children generalizing off bs with
  | nil => cases hm
  | cons n children ih =>
    cases h with
    | @cons _ k key b bs n _ hk hn hs =>
      obtain hm | hm := List.mem_cons.mp hm
      · cases hm
        exact ⟨k ++ ':'.toUInt8 :: key, b, bs, by simp only [List.append_assoc], hn⟩
      · obtain ⟨front, b', back, rfl, hw⟩ := ih hs hm
        refine ⟨(k ++ ':'.toUInt8 :: key) ++ (b ++ front), b', back,
          by simp only [List.append_assoc], ?_⟩
        rw [List.length_append, @List.length_append _ b front, ← Nat.add_assoc, ← Nat.add_assoc]
        exact hw

/-- The text of a child is inside the text of the node. Source: `torrent/bdecoder.cpp`. Kind: L -/
theorem Written.child {off : ℕ} {b : List UInt8} {n m : BNode} (h : Written off b n)
    (hm : BNode.IsChild m n) :
    ∃ front b' back, b = front ++ b' ++ back ∧ Written (off + front.length) b' m := by
  cases h with
  | int => cases hm
  | string => cases hm
  | dict hes =>
    obtain ⟨key, hm⟩ := hm
    obtain ⟨front, b', back, rfl, hw⟩ := hes.child hm
    refine ⟨'d'.toUInt8 :: front, b', back ++ ['e'.toUInt8], by simp, ?_⟩
    rw [List.length_cons, Nat.add_comm front.length, ← Nat.add_assoc]
    exact hw
  | list his =>
    obtain ⟨front, b', back, rfl, hw⟩ := his.child hm
    refine ⟨'l'.toUInt8 :: front, b', back ++ ['e'.toUInt8], by simp, ?_⟩
    rw [List.length_cons, Nat.add_comm front.length, ← Nat.add_assoc]
    exact hw

/-- The text of a node below it is inside as well. Source: `torrent/bdecoder.cpp`. Kind: L -/
theorem Written.within {off : ℕ} {b : List UInt8} {n m : BNode} (h : Written off b n)
    (hm : BNode.Within m n) :
    ∃ front b' back, b = front ++ b' ++ back ∧ Written (off + front.length) b' m := by
  induction hm using Relation.ReflTransGen.head_induction_on with
  | refl => exact ⟨[], b, [], by simp, h⟩
  | head hc _ ih =>
    obtain ⟨front, b', back, rfl, hw⟩ := ih
    obtain ⟨front', b'', back', rfl, hw'⟩ := hw.child hc
    refine ⟨front ++ front', b'', back' ++ back, by simp only [List.append_assoc], ?_⟩
    rw [List.length_append, ← Nat.add_assoc]
    exact hw'

end BDecoder

/-- The bytes of a node inside another are found at its offset. Source: `torrent/bdecoder.cpp`.
Kind: L -/
theorem extent_within {data : List UInt8} {off : ℕ} {b rest : List UInt8} {n m : BNode}
    (hd : data.drop off = b ++ rest) (hw : Written off b n) (hm : BNode.Within m n) :
    ∃ b', extent data m = some b' ∧ Written m.getOffset b' m := by
  obtain ⟨front, b', back, rfl, hw'⟩ := hw.within hm
  obtain ⟨ho, hl⟩ := hw'.extent
  obtain ⟨c, r, hc, -⟩ := hw'.head
  rw [List.append_assoc, List.append_assoc] at hd
  have hd' := drop_cursor hd
  have hlen := length_cursor hd' (by rw [hc, List.length_cons]; omega)
  refine ⟨b', ?_, ho ▸ hw'⟩
  unfold extent peek
  rw [ho, hl, if_pos (by omega), hd', List.take_left]

/-- A value that is looked up is one of the dictionary's. Source: `BDictNode::getData`. Kind: L -/
theorem getData_child {children : List (List UInt8 × Option BNode)} {key : List UInt8} {m : BNode}
    (h : BNode.getData children key = some m) (off len : ℕ) :
    BNode.IsChild m (.dict off len children) := by
  unfold BNode.getData at h
  cases hf : children.find? (fun e => BNode.cString e.1 = key) with
  | none =>
    rw [hf] at h
    cases h
  | some e =>
    rw [hf] at h
    obtain ⟨k, n⟩ := e
    have hn : n = some m := h
    exact ⟨k, hn ▸ List.mem_of_find?_eq_some hf⟩

/-- Where something is cut off, the node's length goes past the end. Source: `torrent/bdecoder.cpp`.
Kind: L -/
theorem unsound_of_cut {data : List UInt8} {off : ℕ} (hs' : data.length < 2 ^ 31)
    (hcut : Cut off (data.drop off)) : ¬ Sound data off := by
  intro hsound
  have hoff : off ≤ data.length := by
    by_contra hlt
    rw [List.drop_eq_nil_of_le (by omega)] at hcut
    cases hcut with
    | wraps hw =>
      obtain ⟨n, rest, len, hn, -⟩ := hw
      exact absurd (congrArg List.length hn) (by simp)
  obtain ⟨n, pos, hdec, -, hpos, -⟩ := decode_cut (k := 2 * data.length + 1) hs' hcut rfl
    (by rw [List.length_drop]; omega) (by rw [List.length_drop]; omega)
  unfold Sound decode at hsound
  rw [hdec] at hsound
  obtain ⟨⟨b, rest, hb, -, hp⟩, -⟩ := hsound
  have hlen := congrArg List.length hb
  rw [List.length_drop, List.length_append] at hlen
  omega

/-- **The decoder is sound where nothing is cut off; where something is, it is not.** The second
part is for arrays of fewer than 2^31 bytes, in which the cursor cannot wrap.
Source: `torrent/bdecoder.cpp`. Kind: L -/
theorem sound_iff (data : List UInt8) (off : ℕ) (hs : data.length < 2 ^ 32) :
    (¬ Cut off (data.drop off) → Sound data off) ∧
      (data.length < 2 ^ 31 → Sound data off → ¬ Cut off (data.drop off)) := by
  constructor
  · intro hcut
    unfold Sound
    obtain h | ⟨e, h⟩ | ⟨h, hend⟩ | ⟨n, b, rest, h, hb, hw⟩ := decode_cases hs off
    · exact absurd h hcut
    · rw [h]
      trivial
    · rw [h]
      exact hend
    · rw [h]
      refine ⟨⟨b, rest, hb, hw, rfl⟩, fun m hm => extent_within hb hw hm, ?_⟩
      rintro o l children m rfl hm
      obtain ⟨b', hb', hw'⟩ :=
        extent_within hb hw (Relation.ReflTransGen.single (getData_child hm o l))
      refine ⟨b', hw', ?_⟩
      rw [infoHash, hm, Option.bind_some, hb']
      rfl
  · intro hs' hsound hcut
    exact unsound_of_cut hs' hcut hsound

/-- The text of a node is not cut off. Source: `torrent/bdecoder.cpp`. Kind: L -/
theorem not_cut_of_written {data : List UInt8} {off : ℕ} {b rest : List UInt8} {n : BNode}
    (hs : data.length < 2 ^ 31) (h : Written off b n) (hd : data.drop off = b ++ rest) :
    ¬ Cut off (data.drop off) := by
  intro hcut
  have hlen := congrArg List.length hd
  rw [List.length_append, List.length_drop] at hlen
  obtain ⟨c, r, hb, -⟩ := h.head
  have hpos : 0 < b.length := by
    rw [hb]
    exact Nat.succ_pos _
  obtain ⟨n', pos, hdec, -, hpast, -⟩ := decode_cut (k := 2 * data.length + 1) hs hcut rfl
    (by rw [List.length_drop]; omega) (by rw [List.length_drop]; omega)
  rw [decode_written (hs.trans (by decide)) h hd (by omega)] at hdec
  have hend := (Prod.mk.inj (Except.ok.inj hdec)).2
  omega

/-- `d6:lengthi3ee`, part by part. Kind: D -/
def infoText : List UInt8 :=
  'd'.toUInt8 :: ((([54] ++ ':'.toUInt8 :: latin1 "length") ++
    (('i'.toUInt8 :: ([51] ++ ['e'.toUInt8])) ++ [])) ++ ['e'.toUInt8])

/-- `d4:infod6:lengthi3eee`, part by part. Kind: D -/
def torrentText : List UInt8 :=
  'd'.toUInt8 :: ((([52] ++ ':'.toUInt8 :: latin1 "info") ++ (infoText ++ [])) ++ ['e'.toUInt8])

/-- The sample is written properly. Source: `torrent/bdecoder.cpp`. Kind: L -/
theorem written_infoText (off : ℕ) : ∃ n, Written off infoText n :=
  ⟨_, .dict (.cons ⟨⟨54, rfl, by decide⟩, by decide, by decide⟩
    (.int (by decide) (by decide : intValue [51] = some (Value.ofInt 3))) .nil)⟩

/-- The sample's length is announced. Source: `torrent/bdecoder.cpp`. Kind: L -/
theorem announces_info : Announces [52] (latin1 "info").length :=
  ⟨⟨52, rfl, by decide⟩, by decide, by decide⟩

/-- A dictionary with a dictionary `info` in it is decoded, and with its last byte cut off it is
accepted as if it had it. Source: `torrent/bdecoder.cpp`. Kind: L -/
theorem sound_info : Sound torrentText 0 ∧ ¬ Sound (torrentText.dropLast) 0 := by
  obtain ⟨n, hinfo⟩ := written_infoText 7
  have hwhole : ¬ Cut 0 (torrentText.drop 0) :=
    not_cut_of_written (by decide) (.dict (.cons announces_info hinfo .nil))
      (List.append_nil _).symm
  have hless : Cut 0 (torrentText.dropLast.drop 0) := .dict (.next announces_info hinfo .stop)
  exact ⟨(sound_iff _ 0 (by decide)).1 hwhole,
    fun h => (sound_iff _ 0 (by decide)).2 (by decide) h hless⟩

/-- **A single `l` is accepted as a list of two bytes.**. Source: `torrent/bdecoder.cpp`. Kind: P -/
theorem unterminated : ¬ Sound [108] 0 := by
  intro h
  exact unsound_of_cut (by decide) (.list .stop) h

end KTorrent.Bencode
