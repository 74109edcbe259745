import KTorrent.Lib.Bisect
import KTorrent.Util.Endian

/-!
# The file of blocked ranges

The file is a list of ranges, sorted. `loadHeader` cuts it into blocks and keeps the first and the last
address of each; a lookup searches the blocks, and then the part of the file that belongs to the block
it found.

* `MMapFile` — the file, with `seek` and `read`.
* `AntiP2P.loadHeader` — the blocks.
* `AntiP2P.searchHeader`, `AntiP2P.searchFile` — the two searches. An index out of bounds is `none`.
* `AntiP2P.isBlockedIP` — the lookup.

Source: `plugins/ipfilter/antip2p.cpp`; `util/mmapfile.cpp`, `read` and `seek`
-/

namespace KTorrent.Filter

open KTorrent.Util

/-! ### The file -/

/-- A file that is mapped for reading. Source: `util/mmapfile.h`, `MMapFile`. Kind: D -/
structure MMapFile where
  data : List UInt8
  ptr : ℕ := 0

namespace MMapFile

/-- Kind: D -/
def size (f : MMapFile) : ℕ := f.data.length

/-- `buf` holds what was there before. Source: `MMapFile::read`. Kind: D -/
def read (buf : List UInt8) (buf_size : ℕ) (f : MMapFile) : List UInt8 × MMapFile :=
  let to_read := if f.ptr + buf_size ≥ f.size then f.size - f.ptr else buf_size
  ((f.data.drop f.ptr).take to_read ++ buf.drop to_read, { f with ptr := f.ptr + to_read })

/-- Source: `MMapFile::seek` from the beginning. Kind: D -/
def seek (num : ℕ) (f : MMapFile) : MMapFile :=
  let ptr := if num > 0 then num else f.ptr
  { f with ptr := if ptr ≥ f.size then f.size - 1 else ptr }

end MMapFile

/-! ### The blocks -/

/-- Source: `plugins/ipfilter/antip2p.h`, `IPBlock`. Kind: D -/
structure IPBlock where
  ip1 : ℕ
  ip2 : ℕ
deriving DecidableEq

namespace IPBlock

/-- The bytes of a range in the file. Kind: D -/
def bytes (b : IPBlock) : List UInt8 := hostWord b.ip1 ++ hostWord b.ip2

/-- The range whose bytes stand at an address. Kind: D -/
def ofBytes (data : List UInt8) (off : ℕ) : IPBlock := ⟨wordAt data off, wordAt data (off + 4)⟩

/-- Kind: D -/
def Contains (b : IPBlock) (ip : ℕ) : Prop := b.ip1 ≤ ip ∧ ip ≤ b.ip2

instance (b : IPBlock) (ip : ℕ) : Decidable (b.Contains ip) := inferInstanceAs (Decidable (_ ∧ _))

end IPBlock

/-- Source: `plugins/ipfilter/antip2p.h`, `HeaderBlock`. Kind: D -/
structure HeaderBlock where
  ip1 : ℕ
  ip2 : ℕ
  offset : ℕ
  nrEntries : ℕ
deriving DecidableEq

namespace AntiP2P

/-- Source: `AntiP2P::loadHeader`, `blocksize`. Kind: D -/
def blocksize (nrElements : ℕ) : ℕ := if nrElements < 100 then 10 else 100

/-- The loop of `loadHeader`: each round pushes a block, and the last one leaves the loop. `junk` is
what `ipb` holds when a round begins. Source: `AntiP2P::loadHeader`. Kind: D -/
def headerLoop (junk : ℕ → List UInt8) (nrElements blocksize : ℕ) :
    ℕ → ℕ → MMapFile → List HeaderBlock
  | 0, _, _ => []
  | fuel + 1, i, f =>
      if i < f.size then
        let (ipb, f) := (f.seek i).read (junk i) 8
        let ip1 := (IPBlock.ofBytes ipb 0).ip1
        if i + (blocksize - 1) * 8 > f.size then
          let (ipb, _) := (f.seek (f.size - 8)).read ipb 8
          [⟨ip1, (IPBlock.ofBytes ipb 0).ip2, i, nrElements % blocksize⟩]
        else
          let (ipb, f) := (f.seek (i + (blocksize - 1) * 8)).read ipb 8
          ⟨ip1, (IPBlock.ofBytes ipb 0).ip2, i, blocksize⟩ ::
            headerLoop junk nrElements blocksize fuel (i + 8 * blocksize) f
      else []

/-- Source: `AntiP2P::loadHeader`. Kind: D -/
def loadHeader (junk : ℕ → List UInt8) (f : MMapFile) : List HeaderBlock :=
  let nrElements := f.size / 8 % 2 ^ 32
  headerLoop junk nrElements (blocksize nrElements) f.size 0 f

/-! ### The searches -/

/-- Source: `AntiP2P::searchHeader`. Kind: D -/
def searchHeader (blocks : List HeaderBlock) (ip start len : ℕ) : Option ℤ :=
  if len = 0 then some (-1)
  else if len = 1 then
    blocks[start]?.map fun b =>
      if b.ip1 ≤ ip ∧ b.ip2 ≥ ip then
        if b.ip1 = ip ∨ b.ip2 = ip then -2 else (start : ℤ)
      else -1
  else
    blocks[start + len / 2]?.bind fun b =>
      if b.ip1 ≤ ip then searchHeader blocks ip (start + len / 2) (len - len / 2)
      else searchHeader blocks ip start (len / 2)
termination_by len
decreasing_by
  · omega
  · omega

/-- A range of the file, if the file is long enough. Kind: D -/
def fileBlock (data : List UInt8) (offset i : ℕ) : Option IPBlock :=
  if offset + 8 * i + 8 ≤ data.length then some (IPBlock.ofBytes data (offset + 8 * i)) else none

/-- Source: `AntiP2P::searchFile`. Kind: D -/
def searchFile (data : List UInt8) (offset ip start len : ℕ) : Option Bool :=
  if len = 0 then some false
  else if len = 1 then
    (fileBlock data offset start).map fun b => decide (b.ip1 ≤ ip ∧ b.ip2 ≥ ip)
  else
    (fileBlock data offset (start + len / 2)).bind fun b =>
      if b.ip1 ≤ ip then searchFile data offset ip (start + len / 2) (len - len / 2)
      else searchFile data offset ip start (len / 2)
termination_by len
decreasing_by
  · omega
  · omega

/-- Source: `AntiP2P::isBlockedIP`. Kind: D -/
def isBlockedIP (data : List UInt8) (blocks : List HeaderBlock) (ip : ℕ) : Option Bool :=
  (searchHeader blocks ip 0 blocks.length).bind fun in_header =>
    if in_header = -1 then some false
    else if in_header = -2 then some true
    else blocks[in_header.toNat]?.bind fun b => searchFile data b.offset ip 0 b.nrEntries

end AntiP2P

end KTorrent.Filter
