import KTorrent.Util.SHA1Spec

/-!
# Hashing in pieces

What `start`, any number of `update`s and `end` return for a string that arrives in pieces of any
lengths, against `generate` on the whole string and against SHA-1.

* `Holds g bs old` — a generator that was fed `bs`: the words after the full blocks, and in `tmp`
  the rest of `bs` with the bytes of `old` behind it.
* `holds_update` — one `update`: the bytes behind the rest change only when a partial block is
  completed, and are then that block's.
* `stale`, `holds_fed` — so after a whole run they are those of the last block a piece ended in.
* `finish_words` — in the two-block padding of `end` they go into the hash as they are; `generate`
  pads with zeros there.
* `hashPieces_eq` — the two agree, and are SHA-1, when these bytes are zero; `markBlock_eq_iff` —
  the block `end` compresses is that of the padding only then.

Source: `util/sha1hashgen.cpp`
-/

namespace KTorrent.Util

open KTorrent.Lib

namespace SHA1HashGen

/-- The state of a generator that has been fed `bs`: the rest of `bs` that fills no block is in
`tmp`, and behind it are the bytes of `old`. Kind: D -/
structure Holds (g : SHA1HashGen) (bs old : List UInt8) : Prop where
  words : g.h = processBlocks .init bs (bs.length / 64)
  len : g.tmp_len = bs.length % 64
  total : g.total_len = u32 bs.length
  tmp : g.tmp = bs.drop (64 * (bs.length / 64)) ++ old.drop (bs.length % 64)

/-! ### One update -/

/-- The front of a buffer is overwritten. Source: `util/sha1hashgen.cpp`. Kind: L -/
theorem overwrite_zero (buf bs : List UInt8) : overwrite buf 0 bs = bs ++ buf.drop bs.length := by
  rw [overwrite, List.take_zero, List.nil_append, Nat.zero_add]

/-- A buffer is overwritten behind its front. Source: none: infrastructure. Kind: L -/
theorem overwrite_append (a b bs : List UInt8) :
    overwrite (a ++ b) a.length bs = a ++ bs ++ b.drop bs.length := by
  rw [overwrite, List.take_left, List.drop_length_add_append]

/-- The rest of a string that fills no block. Source: `util/sha1hashgen.cpp`. Kind: L -/
theorem length_rest (bs : List UInt8) :
    (bs.drop (64 * (bs.length / 64))).length = bs.length % 64 := by
  rw [List.length_drop]
  omega

/-- The rest of a string that goes on after whole blocks. Source: none: infrastructure. Kind: L -/
theorem rest_append {bs : List UInt8} (hb : bs.length % 64 = 0) (data : List UInt8) :
    (bs ++ data).drop (64 * ((bs ++ data).length / 64)) = data.drop (64 * (data.length / 64)) := by
  have hq : 64 * ((bs ++ data).length / 64) = bs.length + 64 * (data.length / 64) := by
    rw [List.length_append]
    omega
  rw [hq, List.drop_length_add_append]

/-- Bytes for a generator that holds whole blocks only. Source: `util/sha1hashgen.cpp`. Kind: L -/
theorem Holds.update_whole {g : SHA1HashGen} {bs old : List UInt8} (hg : Holds g bs old)
    (hb : bs.length % 64 = 0) (data : List UInt8) : Holds (g.update data) (bs ++ data) old := by
  obtain ⟨m, hm⟩ : ∃ m, bs.length = 64 * m := ⟨bs.length / 64, by omega⟩
  have hr : (bs ++ data).length % 64 = data.length % 64 := by
    rw [List.length_append, hm]
    omega
  have hq : (bs ++ data).length / 64 = m + data.length / 64 := by
    rw [List.length_append, hm]
    omega
  have htmp : g.tmp = old := by
    rw [hg.tmp, hb, List.drop_eq_nil_of_le (by omega)]
    rfl
  have hlen : g.tmp_len = 0 := by rw [hg.len, hb]
  rw [SHA1HashGen.update]
  dsimp only
  rw [if_pos hlen]
  refine ⟨?_, ?_, ?_, ?_⟩
  · show processBlocks g.h data (data.length / 64) = _
    rw [hq, processBlocks_append _ _ _ _ hm, hg.words, hm, Nat.mul_div_cancel_left _ (by decide)]
  · show (if data.length % 64 > 0 then data.length % 64 else g.tmp_len) = _
    rw [hr, hlen]
    split_ifs <;> omega
  · show u32 (g.total_len + data.length) = _
    rw [hg.total, List.length_append]
    simp [u32]
  · show (if data.length % 64 > 0 then overwrite g.tmp 0 (data.drop (64 * (data.length / 64)))
      else g.tmp) = _
    rw [rest_append hb, hr, htmp]
    split_ifs with h0
    · rw [overwrite_zero, length_rest]
    · have h1 : data.length % 64 = 0 := by omega
      rw [h1, List.drop_zero, List.drop_eq_nil_of_le (by omega), List.nil_append]

/-- Bytes that do not complete the partial block. Source: `util/sha1hashgen.cpp`. Kind: L -/
theorem Holds.update_short {g : SHA1HashGen} {bs old : List UInt8} (hg : Holds g bs old)
    (hb : bs.length % 64 ≠ 0) {data : List UInt8} (hd : bs.length % 64 + data.length < 64) :
    Holds (g.update data) (bs ++ data) old := by
  have hq : (bs ++ data).length / 64 = bs.length / 64 := by
    rw [List.length_append]
    omega
  have hr : (bs ++ data).length % 64 = bs.length % 64 + data.length := by
    rw [List.length_append]
    omega
  rw [SHA1HashGen.update]
  dsimp only
  rw [if_neg (by rwa [hg.len]), if_pos (by rwa [hg.len])]
  refine ⟨?_, ?_, ?_, ?_⟩
  · show g.h = _
    rw [hq, processBlocks_append_of_le _ _ _ (by omega), hg.words]
  · show g.tmp_len + data.length = _
    rw [hr, hg.len]
  · show u32 (g.total_len + data.length) = _
    rw [hg.total, List.length_append]
    simp [u32]
  · show overwrite g.tmp g.tmp_len data = _
    rw [hg.tmp, hg.len, ← length_rest bs, overwrite_append, hq,
      List.drop_append_of_le_length (by omega), List.drop_drop, length_rest, hr]

/-- The block of a string that its rest and `data` complete. Source: `util/sha1hashgen.cpp`.
Kind: L -/
theorem completed_block (bs data : List UInt8) :
    ((bs ++ data).drop (64 * (bs.length / 64))).take 64 =
      bs.drop (64 * (bs.length / 64)) ++ data.take (64 - bs.length % 64) := by
  rw [List.drop_append_of_le_length (by omega), List.take_append, length_rest,
    List.take_of_length_le]
  rw [length_rest]
  omega

/-- Bytes that complete the partial block: what lies behind the new rest is now that block's.
Source: `util/sha1hashgen.cpp`. Kind: L -/
theorem Holds.update_full {g : SHA1HashGen} {bs old : List UInt8} (hg : Holds g bs old)
    (hold : old.length = 64) (hb : bs.length % 64 ≠ 0) {data : List UInt8}
    (hd : 64 ≤ bs.length % 64 + data.length) :
    Holds (g.update data) (bs ++ data) (((bs ++ data).drop (64 * (bs.length / 64))).take 64) := by
  rw [completed_block]
  generalize hoff : 64 - bs.length % 64 = off
  have hcut := List.take_append_drop off data
  have hlen1 : (data.take off).length = off := by
    rw [List.length_take]
    omega
  have hblock : overwrite g.tmp g.tmp_len (data.take off) =
      bs.drop (64 * (bs.length / 64)) ++ data.take off := by
    have hnil : old.drop (bs.length % 64 + off) = [] := List.drop_eq_nil_of_le (by omega)
    rw [hg.tmp, hg.len, ← length_rest bs, overwrite_append, length_rest, hlen1, List.drop_drop,
      hnil, List.append_nil]
  -- the generator when the block is complete and nothing else has been read
  have hfull : Holds
      { h := processChunk g.h (bs.drop (64 * (bs.length / 64)) ++ data.take off)
        tmp := bs.drop (64 * (bs.length / 64)) ++ data.take off
        tmp_len := 0, total_len := u32 (bs.length + off) }
      (bs ++ data.take off) (bs.drop (64 * (bs.length / 64)) ++ data.take off) := by
    have hq : (bs ++ data.take off).length / 64 = bs.length / 64 + 1 := by
      rw [List.length_append, hlen1]
      omega
    have hr : (bs ++ data.take off).length % 64 = 0 := by
      rw [List.length_append, hlen1]
      omega
    have htake : (bs.drop (64 * (bs.length / 64)) ++ data.take off).take 64 =
        bs.drop (64 * (bs.length / 64)) ++ data.take off := by
      apply List.take_of_length_le
      rw [List.length_append, length_rest, hlen1]
      omega
    have hnil : (bs ++ data.take off).drop (64 * ((bs ++ data.take off).length / 64)) = [] :=
      List.drop_eq_nil_of_le (by omega)
    refine ⟨?_, hr.symm, ?_, ?_⟩
    · show processChunk g.h (bs.drop (64 * (bs.length / 64)) ++ data.take off) = _
      rw [hq, processBlocks, List.range_succ, List.foldl_append, List.foldl_cons, List.foldl_nil,
        ← processBlocks, processBlocks_append_of_le _ _ _ (by omega), ← hg.words,
        List.drop_append_of_le_length (by omega), htake]
    · show u32 (bs.length + off) = _
      rw [List.length_append, hlen1]
    · rw [hr, List.drop_zero, hnil, List.nil_append]
  have hnext := hfull.update_whole (by rw [List.length_append, hlen1]; omega) (data.drop off)
  rw [List.append_assoc, hcut] at hnext
  have hupd : g.update data = SHA1HashGen.update
      { h := processChunk g.h (bs.drop (64 * (bs.length / 64)) ++ data.take off)
        tmp := bs.drop (64 * (bs.length / 64)) ++ data.take off
        tmp_len := 0, total_len := u32 (bs.length + off) } (data.drop off) := by
    have htotal : u32 (g.total_len + data.length) =
        u32 (u32 (bs.length + off) + (data.drop off).length) := by
      rw [hg.total, List.length_drop]
      simp only [u32]
      omega
    rw [SHA1HashGen.update, SHA1HashGen.update]
    dsimp only
    rw [if_neg (by rwa [hg.len]), if_neg (by rw [hg.len]; omega), if_pos rfl, hg.len, hoff, htotal,
      ← hg.len, hblock]
  rw [hupd]
  exact hnext

end SHA1HashGen

/-! ### What a run leaves in the buffer -/

/-- A generator that has been started and fed the pieces in order.
Source: `SHA1HashGen::start`, and an `update` for each piece. Kind: D -/
def fed (ps : List (List UInt8)) : SHA1HashGen :=
  ps.foldl SHA1HashGen.update SHA1HashGen.start

/-- The hash of a string that arrives in pieces.
Source: `SHA1HashGen::start`, `update`, `end`, `get`. Kind: D -/
def hashPieces (ps : List (List UInt8)) : Vector UInt8 20 := (fed ps).finish.get

/-- A piece ends strictly inside block `k`. Kind: D -/
def CutIn (ps : List (List UInt8)) (k : ℕ) : Prop :=
  ∃ i < ps.length + 1,
    64 * k < (ps.take i).flatten.length ∧ (ps.take i).flatten.length < 64 * (k + 1)

instance (ps : List (List UInt8)) (k : ℕ) : Decidable (CutIn ps k) :=
  inferInstanceAs (Decidable (∃ i < ps.length + 1, _ ∧ _))

/-- The last full block a piece ends in. Kind: D -/
def lastCut (ps : List (List UInt8)) : Option ℕ :=
  ((List.range (ps.flatten.length / 64)).filter fun k => CutIn ps k).getLast?

/-- What `tmp` was last filled with: that block, or the zeros of `start`. Kind: D -/
def stale (ps : List (List UInt8)) : List UInt8 :=
  match lastCut ps with
  | some k => (ps.flatten.drop (64 * k)).take 64
  | none => zeros 64

/-- The last bytes of the string leave room for the length in their block, or the bytes behind
them and behind the mark are zero. Kind: D -/
def Clean (ps : List (List UInt8)) : Prop :=
  ps.flatten.length % 64 < 56 ∨
    (stale ps).drop (ps.flatten.length % 64 + 1) = zeros (63 - ps.flatten.length % 64)

instance (ps : List (List UInt8)) : Decidable (Clean ps) :=
  inferInstanceAs (Decidable (_ ∨ _))

/-- The first pieces are no longer than all. Source: `util/sha1hashgen.cpp`. Kind: L -/
theorem take_flatten_le (ps : List (List UInt8)) (i : ℕ) :
    (ps.take i).flatten.length ≤ ps.flatten.length := by
  conv_rhs => rw [← List.take_append_drop i ps]
  rw [List.flatten_append, List.length_append]
  exact Nat.le_add_right _ _

/-- A further piece adds the place it ends at. Source: `util/sha1hashgen.cpp`. Kind: L -/
theorem cutIn_concat (ps : List (List UInt8)) (d : List UInt8) (k : ℕ) :
    CutIn (ps ++ [d]) k ↔ CutIn ps k ∨
      64 * k < (ps ++ [d]).flatten.length ∧ (ps ++ [d]).flatten.length < 64 * (k + 1) := by
  have hold : ∀ i < ps.length + 1, (ps ++ [d]).take i = ps.take i := by
    intro i hi
    exact List.take_append_of_le_length (Nat.lt_succ_iff.mp hi)
  have hnew : (ps ++ [d]).take (ps.length + 1) = ps ++ [d] := by
    apply List.take_of_length_le
    rw [List.length_append, List.length_singleton]
  constructor
  · rintro ⟨i, hi, hcut⟩
    rw [List.length_append, List.length_singleton] at hi
    rcases Nat.lt_succ_iff_lt_or_eq.mp hi with hlt | rfl
    · rw [hold i hlt] at hcut
      exact .inl ⟨i, hlt, hcut⟩
    · rw [hnew] at hcut
      exact .inr hcut
  · rintro (⟨i, hi, hcut⟩ | hcut)
    · refine ⟨i, by rw [List.length_append, List.length_singleton]; omega, ?_⟩
      rwa [hold i hi]
    · refine ⟨ps.length + 1, by rw [List.length_append, List.length_singleton]; omega, ?_⟩
      rwa [hnew]

/-- No piece ends in a block that begins behind the string. Source: `util/sha1hashgen.cpp`.
Kind: L -/
theorem not_cutIn_of_le {ps : List (List UInt8)} {k : ℕ} (h : ps.flatten.length ≤ 64 * k) :
    ¬ CutIn ps k := by
  rintro ⟨i, -, hcut, -⟩
  have hle := take_flatten_le ps i
  omega

/-- The last piece ends in the block of the rest. Source: `util/sha1hashgen.cpp`. Kind: L -/
theorem cutIn_rest {ps : List (List UInt8)} (h : ps.flatten.length % 64 ≠ 0) :
    CutIn ps (ps.flatten.length / 64) := by
  refine ⟨ps.length, Nat.lt_succ_self _, ?_, ?_⟩
  · rw [List.take_length]
    omega
  · rw [List.take_length]
    omega

/-- The full blocks that are cut, after a further piece: those there were, and the one of the rest
when it has been completed. Source: `util/sha1hashgen.cpp`. Kind: L -/
theorem cut_blocks_concat (ps : List (List UInt8)) (d : List UInt8) :
    ((List.range ((ps ++ [d]).flatten.length / 64)).filter fun k => CutIn (ps ++ [d]) k) =
      ((List.range (ps.flatten.length / 64)).filter fun k => CutIn ps k) ++
        if ps.flatten.length % 64 ≠ 0 ∧ 64 ≤ ps.flatten.length % 64 + d.length
        then [ps.flatten.length / 64] else [] := by
  have hlen : (ps ++ [d]).flatten.length = ps.flatten.length + d.length := by
    rw [List.flatten_append, List.length_append, List.flatten_singleton]
  have hcut : ∀ k < (ps ++ [d]).flatten.length / 64, (CutIn (ps ++ [d]) k ↔ CutIn ps k) := by
    intro k hk
    rw [cutIn_concat]
    constructor
    · rintro (h | ⟨-, h⟩)
      · exact h
      · omega
    · exact Or.inl
  have hsame : ((List.range ((ps ++ [d]).flatten.length / 64)).filter
      fun k => CutIn (ps ++ [d]) k) =
      (List.range ((ps ++ [d]).flatten.length / 64)).filter fun k => CutIn ps k := by
    apply List.filter_congr
    intro k hk
    rw [decide_eq_decide]
    exact hcut k (List.mem_range.mp hk)
  obtain ⟨n, hn⟩ : ∃ n, (ps ++ [d]).flatten.length / 64 = ps.flatten.length / 64 + n :=
    ⟨(ps ++ [d]).flatten.length / 64 - ps.flatten.length / 64, by omega⟩
  rw [hsame, hn, List.range_eq_range', List.range_eq_range', ← List.range'_append_1,
    List.filter_append, Nat.zero_add]
  congr 1
  split_ifs with h
  · obtain ⟨n, rfl⟩ : ∃ j, n = j + 1 := ⟨n - 1, by omega⟩
    have hlater : (List.range' (ps.flatten.length / 64 + 1) n).filter (fun k => CutIn ps k) = [] := by
      rw [List.filter_eq_nil_iff]
      intro k hk
      have hk' := (List.mem_range'_1.mp hk).1
      rw [decide_eq_true_iff]
      exact not_cutIn_of_le (by omega)
    rw [List.range'_succ, List.filter_cons, if_pos (decide_eq_true (cutIn_rest h.1)), hlater]
  · rw [List.filter_eq_nil_iff]
    intro k hk
    have hk' := List.mem_range'_1.mp hk
    rw [decide_eq_true_iff]
    exact not_cutIn_of_le (by omega)

/-- What `tmp` was last filled with changes only when a block is completed.
Source: `util/sha1hashgen.cpp`. Kind: L -/
theorem stale_concat (ps : List (List UInt8)) (d : List UInt8) :
    stale (ps ++ [d]) =
      if ps.flatten.length % 64 ≠ 0 ∧ 64 ≤ ps.flatten.length % 64 + d.length
      then (((ps ++ [d]).flatten).drop (64 * (ps.flatten.length / 64))).take 64
      else stale ps := by
  rw [stale, lastCut, cut_blocks_concat]
  split_ifs with h
  · rw [List.getLast?_concat]
  · rw [List.append_nil, ← lastCut, stale]
    cases hl : lastCut ps with
    | none => rfl
    | some k =>
      have hk : k < ps.flatten.length / 64 :=
        List.mem_range.mp (List.mem_of_mem_filter (List.mem_of_getLast? hl))
      dsimp only
      rw [List.flatten_append, List.drop_append_of_le_length (by omega),
        List.take_append_of_le_length]
      rw [List.length_drop]
      omega

/-- The buffer has 64 bytes. Source: `util/sha1hashgen.cpp`. Kind: L -/
theorem length_stale (ps : List (List UInt8)) : (stale ps).length = 64 := by
  rw [stale]
  cases hl : lastCut ps with
  | none => rfl
  | some k =>
    have hk : k < ps.flatten.length / 64 :=
      List.mem_range.mp (List.mem_of_mem_filter (List.mem_of_getLast? hl))
    dsimp only
    rw [List.length_take, List.length_drop]
    omega

open SHA1HashGen in
/-- **A run:** the generator holds the string it was fed, and behind its rest the bytes of the last
full block a piece ended in. Source: `util/sha1hashgen.cpp`. Kind: P -/
theorem holds_fed (ps : List (List UInt8)) : Holds (fed ps) ps.flatten (stale ps) := by
  induction ps using List.reverseRecOn with
  | nil => exact ⟨rfl, rfl, rfl, rfl⟩
  | append_singleton ps d ih =>
    have hfed : fed (ps ++ [d]) = (fed ps).update d := by
      rw [fed, List.foldl_append]
      rfl
    rw [hfed, stale_concat, List.flatten_append, List.flatten_singleton]
    by_cases hr : ps.flatten.length % 64 = 0
    · rw [if_neg fun h => h.1 hr]
      exact ih.update_whole hr d
    · by_cases hd : 64 ≤ ps.flatten.length % 64 + d.length
      · rw [if_pos ⟨hr, hd⟩]
        exact ih.update_full (length_stale ps) hr hd
      · rw [if_neg fun h => hd h.2]
        exact ih.update_short hr (by omega)

/-! ### The end of a run -/

namespace SHA1HashGen

/-- The block `end` puts the mark into, when the length does not fit behind it.
Source: `SHA1HashGen::end`, the last branch. Kind: D -/
def markBlock (g : SHA1HashGen) : List UInt8 := overwrite g.tmp g.tmp_len [0x80]

/-- The mark, zeros and the length behind the last bytes `tail` of the data: nothing is left of what
the buffer held there. Source: `util/sha1hashgen.cpp`. Kind: L -/
theorem overwrite_mark_length {tail old : List UInt8} (htail : tail.length < 56)
    (hlen : tail.length + old.length = 64) (len : ℕ) :
    overwrite (overwrite (tail ++ old) tail.length (0x80 :: zeros (55 - tail.length))) 56
      (lengthBytes len) = tail ++ 0x80 :: zeros (55 - tail.length) ++ lengthBytes len := by
  have h56 : (tail ++ 0x80 :: zeros (55 - tail.length)).length = 56 := by
    simp only [List.length_append, List.length_cons, length_zeros]
    omega
  have hnil : (old.drop (0x80 :: zeros (55 - tail.length)).length).drop (lengthBytes len).length =
      [] := by
    rw [List.drop_drop]
    apply List.drop_eq_nil_of_le
    simp only [List.length_cons, length_zeros, length_lengthBytes]
    omega
  rw [overwrite_append]
  conv_lhs => rw [← h56]
  rw [overwrite_append, hnil, List.append_nil]

/-- The block `end` puts the mark into: behind the mark is what the buffer held there.
Source: `SHA1HashGen::end`. Kind: L -/
theorem Holds.markBlock_eq {g : SHA1HashGen} {bs old : List UInt8} (hg : Holds g bs old) :
    g.markBlock = bs.drop (64 * (bs.length / 64)) ++ 0x80 :: old.drop (bs.length % 64 + 1) := by
  rw [markBlock, hg.tmp, hg.len, ← length_rest, overwrite_append, List.length_singleton,
    List.drop_drop, List.append_assoc, List.singleton_append]

/-- **What `end` compresses.** Behind the mark of the first of two blocks is what the buffer held
there, and everything else is as in `generate`. Source: `SHA1HashGen::end`. Kind: P -/
theorem Holds.finish_words {g : SHA1HashGen} {bs old : List UInt8} (hg : Holds g bs old)
    (hold : old.length = 64) (hlt : bs.length < 2 ^ 32) :
    g.finish.h =
      if bs.length % 64 < 56 then
        processTail (processBlocks .init bs (bs.length / 64)) (bs.drop (64 * (bs.length / 64)))
          bs.length
      else
        processChunk (processChunk (processBlocks .init bs (bs.length / 64)) g.markBlock)
          (zeros 56 ++ lengthBytes bs.length) := by
  have htail := length_rest bs
  have htotal : g.total_len = bs.length := by rw [hg.total, u32_of_lt hlt]
  have hsum : (bs.drop (64 * (bs.length / 64))).length + (old.drop (bs.length % 64)).length = 64 := by
    rw [htail, List.length_drop, hold]
    omega
  have hpad : bs.length % 64 < 56 →
      overwrite (overwrite g.tmp (bs.length % 64) (0x80 :: zeros (55 - bs.length % 64))) 56
        (lengthBytes bs.length) =
      bs.drop (64 * (bs.length / 64)) ++ 0x80 :: zeros (55 - bs.length % 64) ++
        lengthBytes bs.length := by
    intro h56
    have h := overwrite_mark_length (by omega) hsum bs.length
    rwa [← hg.tmp, htail] at h
  rw [SHA1HashGen.finish, processTail, markBlock, htail, hg.len, htotal, ← hg.words]
  dsimp only
  by_cases h56 : bs.length % 64 < 56
  · rw [if_pos h56]
    by_cases h0 : bs.length % 64 = 0
    · have hnil : bs.drop (64 * (bs.length / 64)) = [] :=
        List.eq_nil_of_length_eq_zero (htail.trans h0)
      have hblock := hpad h56
      rw [h0, hnil, Nat.sub_zero, List.nil_append] at hblock
      rw [if_pos h0, if_pos h0]
      dsimp only
      rw [hblock, if_pos h56]
    · rw [if_neg h0, if_neg h0, if_pos h56, if_pos h56]
      dsimp only
      rw [hpad h56]
  · have h0 : bs.length % 64 ≠ 0 := by omega
    have hlen : (overwrite g.tmp (bs.length % 64) [0x80]).length = 64 := by
      have htmp : g.tmp.length = 64 := by rw [hg.tmp, List.length_append, hsum]
      simp only [overwrite, List.length_append, List.length_take, List.length_drop,
        List.length_singleton, htmp]
      omega
    rw [if_neg h0, if_neg h56, if_neg h56]
    dsimp only
    rw [overwrite_last hlen]

end SHA1HashGen

open SHA1HashGen

/-- The block of the specified padding that the mark is in, when the length does not fit behind
it. Kind: D -/
def paddedBlock (bs : List UInt8) : List UInt8 :=
  bs.drop (64 * (bs.length / 64)) ++ 0x80 :: zeros (63 - bs.length % 64)

/-- **`end` compresses the block of the padding just when the bytes behind the mark are zero.**.
Source: `SHA1HashGen::end`. Kind: P -/
theorem markBlock_eq_iff (ps : List (List UInt8)) (h : 56 ≤ ps.flatten.length % 64) :
    (fed ps).markBlock = paddedBlock ps.flatten ↔ Clean ps := by
  rw [(holds_fed ps).markBlock_eq, paddedBlock, List.append_cancel_left_eq, List.cons_inj_right]
  constructor
  · exact Or.inr
  · rintro (hlt | hzero)
    · exact absurd hlt (not_lt.mpr h)
    · exact hzero

/-- **A string hashed in pieces**, when nothing but zeros is left behind its last bytes: the hash is
the one of the whole string, and that is SHA-1. Source: `SHA1HashGen::start`, `update`. Kind: P -/
theorem hashPieces_eq (ps : List (List UInt8)) (hlt : ps.flatten.length < 2 ^ 32)
    (hclean : Clean ps) :
    hashPieces ps = generate ps.flatten ∧
      (generate ps.flatten).toList = Sha1.hash ps.flatten := by
  refine ⟨?_, generate_eq_hash hlt⟩
  have hwords := (holds_fed ps).finish_words (length_stale ps) hlt
  rw [hashPieces, SHA1HashGen.get, generate, hwords]
  congr 1
  split_ifs with h56
  · rfl
  · have h0 : ps.flatten.length % 64 ≠ 0 := by omega
    have htail := length_rest ps.flatten
    rw [(markBlock_eq_iff ps (not_lt.mp h56)).mpr hclean, processTail, htail, if_neg h0, if_neg h56,
      paddedBlock]

/-- A block and the mark's block, in three pieces; the first block leaves nothing.
Source: `SHA1HashGen::start`, `update`. Kind: P -/
theorem hashPieces_zero :
    hashPieces [[0], List.replicate 63 0, List.replicate 56 255] =
        generate [[0], List.replicate 63 0, List.replicate 56 255].flatten ∧
      (generate [[0], List.replicate 63 0, List.replicate 56 255].flatten).toList =
        Sha1.hash [[0], List.replicate 63 0, List.replicate 56 255].flatten :=
  hashPieces_eq _ (by decide) (by decide)

/-- The same pieces, the first block of bytes that stay behind the mark.
Source: `SHA1HashGen::start`, `update`. Kind: P -/
theorem hashPieces_stale :
    ¬ ∀ ps : List (List UInt8), ps.flatten.length < 2 ^ 32 →
      hashPieces ps = generate ps.flatten ∧
        (generate ps.flatten).toList = Sha1.hash ps.flatten := by
  intro h
  have hsame := (h [[255], List.replicate 63 255, List.replicate 56 255] (by simp)).1
  have hdiffer : hashPieces [[255], List.replicate 63 255, List.replicate 56 255] ≠
      generate [[255], List.replicate 63 255, List.replicate 56 255].flatten := by
    decide +kernel
  exact hdiffer hsame

end KTorrent.Util
