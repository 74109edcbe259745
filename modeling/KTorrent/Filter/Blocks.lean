import KTorrent.Filter.AntiP2P
import KTorrent.Lib.Bisect
import Mathlib.Data.List.Pairwise
import Mathlib.Tactic.Linarith
import Mathlib.Tactic.Ring

/-!
# The blocks of a file of ranges

* `IPBlock.Ordered` — the file is a list of ranges, sorted by their first address.
* `AntiP2P.loadHeader_eq` — the blocks, for any number of ranges.
* `AntiP2P.searchHeader_eq`, `AntiP2P.searchFile_eq` — the searches halve an interval and stay inside it.
* `AntiP2P.covers_header` — the blocks are the parts of the list, unless the last one is one short of a
  full block.

Source: `plugins/ipfilter/antip2p.cpp`
-/

namespace KTorrent.Filter

open KTorrent.Lib KTorrent.Util

namespace IPBlock

/-- The range with a number. Kind: D -/
def entry (l : List IPBlock) (k : ℕ) : IPBlock := l.getD k ⟨0, 0⟩

/-- The content of the file. Kind: D -/
def file (l : List IPBlock) : List UInt8 := l.flatMap bytes

/-- Ranges of addresses, sorted by their first one. Kind: D -/
structure Ordered (l : List IPBlock) : Prop where
  range : ∀ b ∈ l, b.ip1 ≤ b.ip2 ∧ b.ip2 < 2 ^ 32
  sorted : l.Pairwise fun a b => a.ip1 ≤ b.ip1

/-- The list has the address. Kind: D -/
def Blocked (l : List IPBlock) (ip : ℕ) : Prop := ∃ b ∈ l, b.Contains ip

instance (l : List IPBlock) (ip : ℕ) : Decidable (Blocked l ip) :=
  inferInstanceAs (Decidable (∃ b ∈ l, b.Contains ip))

variable {l : List IPBlock}

/-- An entry of the list. Source: `plugins/ipfilter/antip2p.cpp`. Kind: L -/
theorem entry_eq {k : ℕ} (h : k < l.length) : entry l k = l.get ⟨k, h⟩ := List.getD_eq_getElem _ _ h

/-- Is one of it. Source: `plugins/ipfilter/antip2p.cpp`. Kind: L -/
theorem entry_mem {k : ℕ} (h : k < l.length) : entry l k ∈ l := by
  rw [entry_eq h]
  exact List.get_mem l ⟨k, h⟩

/-- An address is blocked by one of the entries. Source: `plugins/ipfilter/antip2p.cpp`. Kind: L -/
theorem blocked_iff (ip : ℕ) : Blocked l ip ↔ ∃ k < l.length, (entry l k).Contains ip := by
  constructor
  · rintro ⟨b, hb, hc⟩
    obtain ⟨⟨k, hk⟩, rfl⟩ := List.get_of_mem hb
    exact ⟨k, hk, by rwa [entry_eq hk]⟩
  · rintro ⟨k, hk, hc⟩
    exact ⟨entry l k, entry_mem hk, hc⟩

namespace Ordered

/-- In a sorted list each range is one. Source: `plugins/ipfilter/antip2p.cpp`. Kind: L -/
theorem le (h : Ordered l) {k : ℕ} (hk : k < l.length) :
    (entry l k).ip1 ≤ (entry l k).ip2 ∧ (entry l k).ip2 < 2 ^ 32 := h.range _ (entry_mem hk)

/-- In a sorted list the beginnings are in order. Source: none: infrastructure. Kind: L -/
theorem mono (h : Ordered l) {i j : ℕ} (hij : i ≤ j) (hj : j < l.length) :
    (entry l i).ip1 ≤ (entry l j).ip1 := by
  rcases Nat.lt_or_eq_of_le hij with hlt | rfl
  · rw [entry_eq (hlt.trans hj), entry_eq hj]
    exact List.pairwise_iff_get.mp h.sorted ⟨i, hlt.trans hj⟩ ⟨j, hj⟩ hlt
  · exact le_rfl

end Ordered

/-! ### The bytes of the file -/

/-- An entry has 8 bytes. Source: `plugins/ipfilter/antip2p.cpp`. Kind: L -/
@[simp] theorem length_bytes (b : IPBlock) : b.bytes.length = 8 := rfl

/-- A file has 8 for each. Source: `plugins/ipfilter/antip2p.cpp`. Kind: L -/
@[simp] theorem length_file (l : List IPBlock) : (file l).length = 8 * l.length := by
  induction l with
  | nil => rfl
  | cons b l ih =>
    rw [file, List.flatMap_cons, List.length_append, length_bytes, List.length_cons]
    rw [file] at ih
    omega

/-- The bytes in front of a range, its own, and those behind it.
Source: `plugins/ipfilter/antip2p.cpp`. Kind: L -/
theorem file_split {k : ℕ} (hk : k < l.length) :
    file l = file (l.take k) ++ (entry l k).bytes ++ file (l.drop (k + 1)) := by
  have hsplit : l = l.take k ++ entry l k :: l.drop (k + 1) := by
    rw [entry_eq hk, List.get_eq_getElem, List.getElem_cons_drop, List.take_append_drop]
  have hfile : file (l.take k ++ entry l k :: l.drop (k + 1)) =
      file (l.take k) ++ (entry l k).bytes ++ file (l.drop (k + 1)) := by
    unfold file
    rw [List.flatMap_append, List.flatMap_cons, List.append_assoc]
  rwa [← hsplit] at hfile

/-- An entry is read where it stands. Source: none: infrastructure. Kind: L -/
theorem ofBytes_append (front rest : List UInt8) {b : IPBlock} (h : b.ip1 < 2 ^ 32 ∧ b.ip2 < 2 ^ 32) :
    ofBytes (front ++ b.bytes ++ rest) front.length = b := by
  have h1 : front ++ b.bytes ++ rest = front ++ hostWord b.ip1 ++ (hostWord b.ip2 ++ rest) := by
    simp [bytes, List.append_assoc]
  have h2 : front ++ b.bytes ++ rest = (front ++ hostWord b.ip1) ++ hostWord b.ip2 ++ rest := by
    simp [bytes, List.append_assoc]
  have hlen : (front ++ hostWord b.ip1).length = front.length + 4 := by simp
  unfold ofBytes
  congr 1
  · rw [h1]
    exact wordAt_append front h.1 _
  · rw [h2, ← hlen]
    exact wordAt_append _ h.2 rest

/-- In the file, the entry of this number. Source: `plugins/ipfilter/antip2p.cpp`. Kind: L -/
theorem ofBytes_file (h : Ordered l) {k : ℕ} (hk : k < l.length) : ofBytes (file l) (8 * k) = entry l k := by
  have hlen : (file (l.take k)).length = 8 * k := by
    rw [length_file, List.length_take, Nat.min_eq_left hk.le]
  have hb := h.le hk
  rw [file_split hk]
  conv_lhs => rw [← hlen]
  exact ofBytes_append _ _ ⟨by omega, by omega⟩

end IPBlock

namespace MMapFile

open IPBlock

variable {l : List IPBlock}

/-- A whole range is read. Source: `MMapFile::read`. Kind: L -/
theorem read_entry {f : MMapFile} (h : Ordered l) (hf : f.data = file l) {k : ℕ} (hk : k < l.length)
    (hptr : f.ptr = 8 * k) (buf : List UInt8) :
    ofBytes (f.read buf 8).1 0 = entry l k ∧
      (f.read buf 8).2 = { f with ptr := 8 * k + 8 } := by
  have hsize : f.size = 8 * l.length := by rw [size, hf, length_file]
  have hread : (if f.ptr + 8 ≥ f.size then f.size - f.ptr else 8) = 8 := by
    rw [hptr, hsize]
    split_ifs
    · omega
    · rfl
  have hfront : (file (l.take k)).length = 8 * k := by
    rw [length_file, List.length_take, Nat.min_eq_left hk.le]
  have htake : (f.data.drop f.ptr).take 8 = (entry l k).bytes := by
    rw [hf, hptr, file_split hk, List.append_assoc, ← hfront, List.drop_left,
      ← length_bytes (entry l k), List.take_left]
  unfold read
  rw [hread]
  dsimp only
  rw [htake]
  refine ⟨?_, by rw [hptr]⟩
  have hb := h.le hk
  exact ofBytes_append [] (buf.drop 8) ⟨by omega, by omega⟩

/-- Where the file is read next. Source: `MMapFile::seek`. Kind: L -/
theorem seek_ptr {f : MMapFile} {num : ℕ} (h : num < f.size) (h0 : num = 0 → f.ptr = 0) :
    f.seek num = { f with ptr := num } := by
  have hptr : (if num > 0 then num else f.ptr) = num := by
    split_ifs with hpos
    · rfl
    · rw [h0 (by omega)]
      omega
  unfold seek
  rw [hptr]
  dsimp only
  rw [if_neg (not_le.mpr h)]

/-- Where there is one byte left, only the first byte of the buffer is overwritten.
Source: `MMapFile::read`. Kind: L -/
theorem read_last {f : MMapFile} (hptr : f.ptr + 1 = f.size) (buf : List UInt8) :
    (ofBytes (f.read buf 8).1 0).ip2 = (ofBytes buf 0).ip2 := by
  have hread : (if f.ptr + 8 ≥ f.size then f.size - f.ptr else 8) = 1 := by
    rw [if_pos (by omega)]
    omega
  have hlen : ((f.data.drop f.ptr).take 1).length = 1 := by
    rw [List.length_take, List.length_drop]
    unfold size at hptr
    omega
  have hget : ∀ k, ((f.data.drop f.ptr).take 1 ++ buf.drop 1).getD (k + 1) 0 = buf.getD (k + 1) 0 := by
    intro k
    rw [List.getD_append_right _ _ _ _ (by omega), hlen, Nat.add_sub_cancel, List.getD_eq_getElem?_getD,
      List.getElem?_drop, Nat.add_comm 1 k, List.getD_eq_getElem?_getD]
  unfold read
  rw [hread]
  unfold ofBytes wordAt
  dsimp only
  rw [hget, hget, hget, hget]

end MMapFile

/-! ### The blocks -/

namespace AntiP2P

open IPBlock MMapFile

variable {l : List IPBlock}

/-- A full block. Kind: D -/
def fullBlock (l : List IPBlock) (bs j : ℕ) : HeaderBlock :=
  ⟨(entry l (j * bs)).ip1, (entry l (j * bs + bs - 1)).ip2, 8 * (j * bs), bs⟩

/-- What comes behind `q` full blocks: nothing, a short block, or, where the short block lacks one
range only, a block with the last address of its first range and a range too many. Kind: D -/
def lastBlock (l : List IPBlock) (nrElements bs q : ℕ) : List HeaderBlock :=
  if l.length = q * bs then []
  else if l.length - q * bs < bs - 1 then
    [⟨(entry l (q * bs)).ip1, (entry l (l.length - 1)).ip2, 8 * (q * bs), nrElements % bs⟩]
  else [⟨(entry l (q * bs)).ip1, (entry l (q * bs)).ip2, 8 * (q * bs), bs⟩]

/-- One round of the loop. Source: `AntiP2P::loadHeader`. Kind: L -/
theorem headerLoop_full (h : Ordered l) (junk : ℕ → List UInt8) (nr : ℕ) {bs j : ℕ} (hbs : 1 < bs)
    (hj : j * bs + bs ≤ l.length) {f : MMapFile} (hf : f.data = file l) (h0 : j = 0 → f.ptr = 0)
    (fuel : ℕ) : ∃ f' : MMapFile, f'.data = file l ∧
      headerLoop junk nr bs (fuel + 1) (8 * (j * bs)) f =
        fullBlock l bs j :: headerLoop junk nr bs fuel (8 * ((j + 1) * bs)) f' := by
  have hsize : f.size = 8 * l.length := by rw [size, hf, length_file]
  have hstep : 8 * (j * bs) + 8 * bs = 8 * ((j + 1) * bs) := by ring
  have hzero : 8 * (j * bs) = 0 → f.ptr = 0 := fun hz => h0 (by
    rcases Nat.mul_eq_zero.mp (by omega : j * bs = 0) with hj0 | hb0
    · exact hj0
    · omega)
  have hseek := seek_ptr (by omega) hzero
  obtain ⟨hread, hnext⟩ := @read_entry l (f.seek (8 * (j * bs))) h
    (by rw [hseek]; exact hf) (j * bs) (by omega) (by rw [hseek]) (junk (8 * (j * bs)))
  set buf := ((f.seek (8 * (j * bs))).read (junk (8 * (j * bs))) 8).1
  set f₁ := ((f.seek (8 * (j * bs))).read (junk (8 * (j * bs))) 8).2 with hf₁
  have hf₁d : f₁.data = file l := by rw [hnext, hseek]; exact hf
  have hs₁ : f₁.size = 8 * l.length := by rw [size, hf₁d, length_file]
  have hpos : 8 * (j * bs) + (bs - 1) * 8 = 8 * (j * bs + bs - 1) := by omega
  have hseek₁ := @seek_ptr f₁ (8 * (j * bs) + (bs - 1) * 8) (by omega) (by omega)
  obtain ⟨hread₁, hnext₁⟩ := @read_entry l (f₁.seek (8 * (j * bs) + (bs - 1) * 8)) h
    (by rw [hseek₁]; exact hf₁d) (j * bs + bs - 1) (by omega) (by rw [hseek₁, hpos]) buf
  refine ⟨((f₁.seek (8 * (j * bs) + (bs - 1) * 8)).read buf 8).2, ?_, ?_⟩
  · rw [hnext₁, hseek₁]
    exact hf₁d
  · rw [headerLoop, if_pos (by omega)]
    show (if 8 * (j * bs) + (bs - 1) * 8 > f₁.size then _ else _) = _
    rw [if_neg (by omega), ← hstep]
    show (⟨(ofBytes buf 0).ip1,
        (ofBytes ((f₁.seek (8 * (j * bs) + (bs - 1) * 8)).read buf 8).1 0).ip2, 8 * (j * bs), bs⟩ ::
      headerLoop junk nr bs fuel (8 * (j * bs) + 8 * bs)
        ((f₁.seek (8 * (j * bs) + (bs - 1) * 8)).read buf 8).2 : List HeaderBlock) = _
    rw [hread, hread₁]
    rfl

/-- Behind the full blocks. Source: `AntiP2P::loadHeader`. Kind: L -/
theorem headerLoop_last (h : Ordered l) (junk : ℕ → List UInt8) (nr : ℕ) {bs q : ℕ} (hbs : 1 < bs)
    (hq : q * bs ≤ l.length) (hq' : l.length < q * bs + bs) {f : MMapFile} (hf : f.data = file l)
    (h0 : q = 0 → f.ptr = 0) (fuel : ℕ) :
    headerLoop junk nr bs (fuel + 2) (8 * (q * bs)) f = lastBlock l nr bs q := by
  have hsize : f.size = 8 * l.length := by rw [size, hf, length_file]
  rw [headerLoop, lastBlock]
  by_cases hend : l.length = q * bs
  · rw [if_pos hend, if_neg (by omega)]
  · have hzero : 8 * (q * bs) = 0 → f.ptr = 0 := fun hz => h0 (by
      rcases Nat.mul_eq_zero.mp (by omega : q * bs = 0) with hj0 | hb0
      · exact hj0
      · omega)
    have hseek := seek_ptr (by omega : 8 * (q * bs) < f.size) hzero
    obtain ⟨hread, hnext⟩ := @read_entry l (f.seek (8 * (q * bs))) h
      (by rw [hseek]; exact hf) (q * bs) (by omega) (by rw [hseek]) (junk (8 * (q * bs)))
    rw [if_pos (by omega), if_neg hend]
    set buf := ((f.seek (8 * (q * bs))).read (junk (8 * (q * bs))) 8).1
    set f₁ := ((f.seek (8 * (q * bs))).read (junk (8 * (q * bs))) 8).2 with hf₁
    have hf₁d : f₁.data = file l := by rw [hnext, hseek]; exact hf
    have hs₁ : f₁.size = 8 * l.length := by rw [size, hf₁d, length_file]
    have hp₁ : f₁.ptr = 8 * (q * bs) + 8 := by rw [hnext]
    show (if 8 * (q * bs) + (bs - 1) * 8 > f₁.size then _ else _) = _
    by_cases hshort : l.length - q * bs < bs - 1
    · rw [if_pos (by omega), if_pos hshort]
      show ([⟨(ofBytes buf 0).ip1, (ofBytes ((f₁.seek (f₁.size - 8)).read buf 8).1 0).ip2,
        8 * (q * bs), nr % bs⟩] : List HeaderBlock) = _
      rw [hread]
      congr 2
      by_cases hone : l.length = 1
      · -- the only range: the file cannot be wound back, and one byte is read again
        have hq0 : q * bs = 0 := by omega
        have hsk : f₁.seek (f₁.size - 8) = { f₁ with ptr := f₁.size - 1 } := by
          unfold seek
          dsimp only
          rw [if_neg (by omega : ¬ f₁.size - 8 > 0), if_pos (by omega)]
        have hlast : (ofBytes ((f₁.seek (f₁.size - 8)).read buf 8).1 0).ip2 =
            (ofBytes buf 0).ip2 := by
          apply read_last
          rw [hsk]
          show f₁.size - 1 + 1 = f₁.size
          omega
        refine hlast.trans ?_
        rw [hread, hq0, hone]
      · have hsk := @seek_ptr f₁ (f₁.size - 8) (by omega) (by omega)
        obtain ⟨hread₁, -⟩ := @read_entry l (f₁.seek (f₁.size - 8)) h (by rw [hsk]; exact hf₁d)
          (l.length - 1) (by omega) (by rw [hsk]; show f₁.size - 8 = _; omega) buf
        exact congrArg IPBlock.ip2 hread₁
    · rw [if_neg (by omega), if_neg hshort]
      -- the file ends where the last range of a full block would begin
      have hsk : f₁.seek (8 * (q * bs) + (bs - 1) * 8) = { f₁ with ptr := f₁.size - 1 } := by
        unfold seek
        dsimp only
        rw [if_pos (by omega : 8 * (q * bs) + (bs - 1) * 8 > 0), if_pos (by omega)]
      have hlast : (ofBytes ((f₁.seek (8 * (q * bs) + (bs - 1) * 8)).read buf 8).1 0).ip2 =
          (ofBytes buf 0).ip2 := by
        apply read_last
        rw [hsk]
        show f₁.size - 1 + 1 = f₁.size
        omega
      have hdone : ∀ g : MMapFile, g.data = file l →
          headerLoop junk nr bs (fuel + 1) (8 * (q * bs) + 8 * bs) g = [] := by
        intro g hg
        have hgs : g.size = 8 * l.length := by rw [size, hg, length_file]
        rw [headerLoop, if_neg (by omega)]
      have hd₂ : ((f₁.seek (8 * (q * bs) + (bs - 1) * 8)).read buf 8).2.data = file l := by
        unfold MMapFile.read
        rw [hsk]
        exact hf₁d
      show (⟨(ofBytes buf 0).ip1,
          (ofBytes ((f₁.seek (8 * (q * bs) + (bs - 1) * 8)).read buf 8).1 0).ip2, 8 * (q * bs), bs⟩ ::
        headerLoop junk nr bs (fuel + 1) (8 * (q * bs) + 8 * bs)
          ((f₁.seek (8 * (q * bs) + (bs - 1) * 8)).read buf 8).2 : List HeaderBlock) = _
      rw [hdone _ hd₂, hlast, hread]

/-- The loop makes a header block of each full block, and one of the rest.
Source: `AntiP2P::loadHeader`. Kind: L -/
theorem headerLoop_eq (h : Ordered l) (junk : ℕ → List UInt8) (nr : ℕ) {bs : ℕ} (hbs : 1 < bs)
    (d : ℕ) {j : ℕ} (hd : j + d = l.length / bs) {f : MMapFile} (hf : f.data = file l)
    (h0 : j = 0 → f.ptr = 0) {fuel : ℕ} (hfuel : d + 2 ≤ fuel) :
    headerLoop junk nr bs fuel (8 * (j * bs)) f =
      (List.range' j d).map (fullBlock l bs) ++ lastBlock l nr bs (l.length / bs) := by
  have hdiv := Nat.div_add_mod l.length bs
  have hmod := Nat.mod_lt l.length (by omega : bs > 0)
  rw [Nat.mul_comm] at hdiv
  induction d generalizing j f fuel with
  | zero =>
    obtain ⟨fuel, rfl⟩ := Nat.exists_eq_add_of_le hfuel
    have hj : j = l.length / bs := by omega
    rw [show 0 + 2 + fuel = fuel + 2 by omega, hj,
      headerLoop_last h junk nr hbs (by omega) (by omega) hf (hj ▸ h0) fuel]
    rfl
  | succ d ih =>
    obtain ⟨fuel, rfl⟩ := Nat.exists_eq_add_of_le hfuel
    have hle : (j + 1) * bs ≤ l.length / bs * bs := Nat.mul_le_mul_right bs (by omega)
    obtain ⟨f', hf', hround⟩ := headerLoop_full h junk nr hbs
      (by rw [Nat.succ_mul] at hle; omega : j * bs + bs ≤ l.length) hf h0 (d + 2 + fuel)
    rw [show d + 1 + 2 + fuel = d + 2 + fuel + 1 by omega, hround,
      ih (by omega) hf' (fun hj => absurd hj (Nat.succ_ne_zero j)) (by omega), List.range'_succ,
      List.map_cons, List.cons_append]

/-- **The blocks of a file.** Source: `AntiP2P::loadHeader`. Kind: L -/
theorem loadHeader_eq (h : Ordered l) (junk : ℕ → List UInt8) :
    loadHeader junk ⟨file l, 0⟩ =
      (List.range (l.length / blocksize (l.length % 2 ^ 32))).map
          (fullBlock l (blocksize (l.length % 2 ^ 32))) ++
        lastBlock l (l.length % 2 ^ 32) (blocksize (l.length % 2 ^ 32))
          (l.length / blocksize (l.length % 2 ^ 32)) := by
  have hsize : MMapFile.size ⟨file l, 0⟩ = 8 * l.length := length_file l
  have hnr : 8 * l.length / 8 % 2 ^ 32 = l.length % 2 ^ 32 := by
    rw [Nat.mul_div_cancel_left _ (by norm_num)]
  unfold loadHeader
  rw [hsize, hnr]
  dsimp only
  set bs := blocksize (l.length % 2 ^ 32) with hbs_def
  have hbs : 10 ≤ bs := by
    rw [hbs_def, blocksize]
    split_ifs
    · exact le_rfl
    · norm_num
  by_cases hn : l.length = 0
  · have hl : l = [] := List.length_eq_zero_iff.mp hn
    subst hl
    rw [lastBlock, if_pos (by simp)]
    simp [headerLoop]
  · have hdiv : l.length / bs ≤ l.length / 10 := Nat.div_le_div_left hbs (by norm_num)
    have hloop := @headerLoop_eq l h junk (l.length % 2 ^ 32) bs (by omega) (l.length / bs) 0
      (by omega) ⟨file l, 0⟩ rfl (fun _ => rfl) (8 * l.length) (by omega)
    rw [Nat.zero_mul, Nat.mul_zero] at hloop
    rw [hloop, List.range_eq_range']

/-! ### The searches -/

/-- The block with a number. Kind: D -/
def block (blocks : List HeaderBlock) (i : ℕ) : HeaderBlock := blocks.getD i ⟨0, 0, 0, 0⟩

/-- What the search of the blocks makes of the block that is left. Kind: D -/
def verdict (b : HeaderBlock) (ip i : ℕ) : ℤ :=
  if b.ip1 ≤ ip ∧ b.ip2 ≥ ip then if b.ip1 = ip ∨ b.ip2 = ip then -2 else (i : ℤ) else -1

/-- A header block of the list. Source: `plugins/ipfilter/antip2p.cpp`. Kind: L -/
theorem getElem?_block {blocks : List HeaderBlock} {i : ℕ} (h : i < blocks.length) :
    blocks[i]? = some (block blocks i) := by
  rw [List.getElem?_eq_getElem h, block, List.getD_eq_getElem _ _ h]

/-- **The search of the blocks halves the interval and stays inside it.** Source:
`AntiP2P::searchHeader`. Kind: L -/
theorem searchHeader_eq {blocks : List HeaderBlock} (ip : ℕ) {start len : ℕ} (hlen : 0 < len)
    (hb : start + len ≤ blocks.length) :
    searchHeader blocks ip start len =
      some (verdict
        (block blocks (bisect (fun i => decide ((block blocks i).ip1 ≤ ip)) start len)) ip
        (bisect (fun i => decide ((block blocks i).ip1 ≤ ip)) start len)) := by
  induction start, len using bisect.induct fun i => decide ((block blocks i).ip1 ≤ ip) with
  | case1 start len h1 =>
    have h1' : len = 1 := by omega
    rw [searchHeader, if_neg (by omega), if_pos h1', bisect, if_pos h1, getElem?_block (by omega)]
    rfl
  | case2 start len h1 hmid ih =>
    rw [searchHeader, if_neg (by omega), if_neg (by omega), bisect, if_neg h1, if_pos hmid,
      getElem?_block (by omega), Option.bind_some, if_pos (of_decide_eq_true hmid)]
    exact ih (by omega) (by omega)
  | case3 start len h1 hmid ih =>
    rw [searchHeader, if_neg (by omega), if_neg (by omega), bisect, if_neg h1, if_neg hmid,
      getElem?_block (by omega), Option.bind_some, if_neg fun h => hmid (decide_eq_true h)]
    exact ih (by omega) (by omega)

/-- **The search of the file halves the interval and stays inside it.** Source:
`AntiP2P::searchFile`. Kind: L -/
theorem searchFile_eq (h : Ordered l) (ip : ℕ) {k start len : ℕ} (hlen : 0 < len)
    (hb : k + (start + len) ≤ l.length) :
    searchFile (file l) (8 * k) ip start len = some (decide
      ((entry l (k + bisect (fun i => decide ((entry l (k + i)).ip1 ≤ ip)) start len)).Contains ip)) := by
  have hblock : ∀ i, i < start + len →
      fileBlock (file l) (8 * k) i = some (entry l (k + i)) := by
    intro i hi
    rw [fileBlock, if_pos (by rw [length_file]; omega), show 8 * k + 8 * i = 8 * (k + i) by ring,
      ofBytes_file h (by omega)]
  induction start, len using bisect.induct fun i => decide ((entry l (k + i)).ip1 ≤ ip) with
  | case1 start len h1 =>
    have h1' : len = 1 := by omega
    rw [searchFile, if_neg (by omega), if_pos h1', bisect, if_pos h1, hblock start (by omega)]
    rfl
  | case2 start len h1 hmid ih =>
    rw [searchFile, if_neg (by omega), if_neg (by omega), bisect, if_neg h1, if_pos hmid,
      hblock _ (by omega), Option.bind_some, if_pos (of_decide_eq_true hmid)]
    exact ih (by omega) (by omega) fun i hi => hblock i (by omega)
  | case3 start len h1 hmid ih =>
    rw [searchFile, if_neg (by omega), if_neg (by omega), bisect, if_neg h1, if_neg hmid,
      hblock _ (by omega), Option.bind_some, if_neg fun h => hmid (decide_eq_true h)]
    exact ih (by omega) (by omega) fun i hi => hblock i (by omega)

/-! ### The parts of the list -/

/-- The blocks begin where they should. Kind: D -/
structure Begins (l : List IPBlock) (blocks : List HeaderBlock) (bs : ℕ) : Prop where
  first : ∀ j < blocks.length, (block blocks j).ip1 = (entry l (j * bs)).ip1
  bound : ∀ j < blocks.length, j * bs < l.length

/-- **The blocks are the parts of the list**: each has its last address and the number of its ranges,
and together they have them all. Kind: D -/
structure Covers (l : List IPBlock) (blocks : List HeaderBlock) (bs : ℕ) : Prop
    extends Begins l blocks bs where
  last : ∀ j < blocks.length,
    (block blocks j).ip2 = (entry l (min (j * bs + bs) l.length - 1)).ip2
  offset : ∀ j < blocks.length, (block blocks j).offset = 8 * (j * bs)
  count : ∀ j < blocks.length, (block blocks j).nrEntries = min bs (l.length - j * bs)
  all : l.length ≤ blocks.length * bs

/-- The first addresses of the blocks are sorted. Source: none: infrastructure. Kind: L -/
theorem Begins.mono (h : Ordered l) {blocks : List HeaderBlock} {bs : ℕ} (hb : Begins l blocks bs)
    (ip : ℕ) : ∀ i j, 0 ≤ i → i ≤ j → j < 0 + blocks.length →
      decide ((block blocks j).ip1 ≤ ip) = true → decide ((block blocks i).ip1 ≤ ip) = true := by
  intro i j _ hij hj hle
  rw [Nat.zero_add] at hj
  rw [decide_eq_true_eq, hb.first j hj] at hle
  rw [decide_eq_true_eq, hb.first i (by omega)]
  exact (h.mono (Nat.mul_le_mul_right bs hij) (hb.bound j hj)).trans hle

/-- There is a last block unless the blocks come out even. Source: `plugins/ipfilter/antip2p.cpp`.
Kind: L -/
theorem length_lastBlock (l : List IPBlock) (nr bs q : ℕ) :
    (lastBlock l nr bs q).length = if l.length = q * bs then 0 else 1 := by
  unfold lastBlock
  split_ifs
  · rfl
  · rfl
  · rfl

/-- A full block. Source: `plugins/ipfilter/antip2p.cpp`. Kind: L -/
theorem block_left {f : ℕ → HeaderBlock} {q j : ℕ} (t : List HeaderBlock) (h : j < q) :
    block ((List.range q).map f ++ t) j = f j := by
  have hlen : ((List.range q).map f).length = q := by simp
  rw [block, List.getD_append _ _ _ _ (by rwa [hlen]), List.getD_eq_getElem _ _ (by rwa [hlen])]
  simp

/-- The last one. Source: `plugins/ipfilter/antip2p.cpp`. Kind: L -/
theorem block_right {f : ℕ → HeaderBlock} {q : ℕ} (t : List HeaderBlock) :
    block ((List.range q).map f ++ t) q = block t 0 := by
  have hlen : ((List.range q).map f).length = q := by simp
  rw [block, List.getD_append_right _ _ _ _ hlen.le, hlen, Nat.sub_self]
  rfl

/-- The blocks of a file. Kind: D -/
def header (l : List IPBlock) (nr bs : ℕ) : List HeaderBlock :=
  (List.range (l.length / bs)).map (fullBlock l bs) ++ lastBlock l nr bs (l.length / bs)

/-- How many header blocks there are. Source: `plugins/ipfilter/antip2p.cpp`. Kind: L -/
theorem length_header (l : List IPBlock) (nr bs : ℕ) : (header l nr bs).length =
    l.length / bs + if l.length = l.length / bs * bs then 0 else 1 := by
  rw [header, List.length_append, List.length_map, List.length_range, length_lastBlock]

/-- A block is a full one, or the last one. Source: `plugins/ipfilter/antip2p.cpp`. Kind: L -/
theorem block_header {nr bs j : ℕ} (hj : j < (header l nr bs).length) :
    (j * bs + bs ≤ l.length ∧ block (header l nr bs) j = fullBlock l bs j) ∨
      j = l.length / bs ∧ j * bs < l.length ∧
        block (header l nr bs) j = block (lastBlock l nr bs j) 0 := by
  have hdm := Nat.div_mul_le_self l.length bs
  rw [length_header] at hj
  by_cases hlt : j < l.length / bs
  · have hle : (j + 1) * bs ≤ l.length / bs * bs := Nat.mul_le_mul_right bs hlt
    rw [Nat.succ_mul] at hle
    exact Or.inl ⟨by omega, block_left _ hlt⟩
  · have hend : l.length ≠ l.length / bs * bs := by
      intro heq
      rw [if_pos heq] at hj
      omega
    rw [if_neg hend] at hj
    have hjq : j = l.length / bs := by omega
    refine Or.inr ⟨hjq, ?_, ?_⟩
    · rw [hjq]
      omega
    · rw [hjq]
      exact block_right _

/-- Each header block begins where its block does. Source: `plugins/ipfilter/antip2p.cpp`.
Kind: L -/
theorem begins_header (l : List IPBlock) (nr : ℕ) {bs : ℕ} (hbs : 0 < bs) :
    Begins l (header l nr bs) bs := by
  constructor
  · intro j hj
    rcases block_header hj with ⟨-, heq⟩ | ⟨-, hlt, heq⟩
    · rw [heq]
      rfl
    · rw [heq, lastBlock, if_neg (by omega)]
      split_ifs
      · rfl
      · rfl
  · intro j hj
    rcases block_header hj with ⟨hle, -⟩ | ⟨-, hlt, -⟩
    · omega
    · exact hlt

/-- **The blocks cover the list**, unless the last one is one short of a full block.
Source: `plugins/ipfilter/antip2p.cpp`. Kind: L -/
theorem covers_header {nr bs : ℕ} (hbs : 0 < bs) (hnr : nr = l.length)
    (hmod : l.length % bs ≠ bs - 1) : Covers l (header l nr bs) bs := by
  have hdm := Nat.div_add_mod l.length bs
  have hml := Nat.mod_lt l.length hbs
  rw [Nat.mul_comm] at hdm
  have hlast : ∀ j, j = l.length / bs → j * bs < l.length → block (lastBlock l nr bs j) 0 =
      ⟨(entry l (j * bs)).ip1, (entry l (l.length - 1)).ip2, 8 * (j * bs), l.length - j * bs⟩ := by
    intro j hjq hlt
    rw [lastBlock, if_neg (by omega), if_pos (by rw [hjq]; omega), hnr]
    have hcount : l.length % bs = l.length - j * bs := by
      rw [hjq]
      omega
    rw [hcount]
    rfl
  refine ⟨begins_header l nr hbs, fun j hj => ?_, fun j hj => ?_, fun j hj => ?_, ?_⟩
  · rcases block_header hj with ⟨hle, heq⟩ | ⟨hjq, hlt, heq⟩
    · rw [heq, Nat.min_eq_left hle]
      rfl
    · rw [heq, hlast j hjq hlt, Nat.min_eq_right (by rw [hjq]; omega)]
  · rcases block_header hj with ⟨hle, heq⟩ | ⟨hjq, hlt, heq⟩
    · rw [heq]
      rfl
    · rw [heq, hlast j hjq hlt]
  · rcases block_header hj with ⟨hle, heq⟩ | ⟨hjq, hlt, heq⟩
    · rw [heq, Nat.min_eq_left (by omega)]
      rfl
    · rw [heq, hlast j hjq hlt, Nat.min_eq_right (by rw [hjq]; omega)]
  · rw [length_header]
    split_ifs with hend
    · rw [Nat.add_zero]
      exact hend.le
    · rw [Nat.succ_mul]
      omega

end AntiP2P

end KTorrent.Filter
