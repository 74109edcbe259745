import KTorrent.Lib.Keystream
import KTorrent.Storage.Torrent

/-!
# RC4

The generator of the source, its key schedule, and a pair of them for the two directions. The
generator's state does not depend on the bytes it is used for, so that `process` on a block is a
cipher in the sense of `Lib/Keystream`.

Source: `mse/rc4encryptor.h`, `mse/rc4encryptor.cpp`
-/

namespace KTorrent.Mse

open KTorrent.Lib KTorrent.Storage

/-- Source: `mse/rc4encryptor.h`, `RC4`. Kind: D -/
structure RC4 where
  i : UInt8
  j : UInt8
  s : Vector UInt8 256
deriving DecidableEq

namespace RC4

/-- Source: `mse/rc4encryptor.cpp`, `swap`. Kind: D -/
def swap (s : Vector UInt8 256) (a b : UInt8) : Vector UInt8 256 :=
  s.swap a.toNat b.toNat a.toNat_lt b.toNat_lt

/-- `s[a]`. Kind: D -/
def byteAt (s : Vector UInt8 256) (a : UInt8) : UInt8 := s.get ⟨a.toNat, a.toNat_lt⟩

/-- One round of the key schedule. Source: `RC4::RC4`, the loop body. Kind: D -/
def schedule (key : List UInt8) (t : ℕ) (r : RC4) : RC4 :=
  let j := r.j + byteAt r.s (UInt8.ofNat t) + key.getD (t % key.length) 0
  { r with j := j, s := swap r.s (UInt8.ofNat t) j }

/-- Source: `RC4::RC4`. Kind: D -/
def make (key : List UInt8) : RC4 :=
  let r := (List.range 256).foldl (fun r t => schedule key t r)
    ⟨0, 0, Vector.ofFn fun t => UInt8.ofNat t.val⟩
  { r with i := 0, j := 0 }

/-- The key byte `process` combines its argument with. Source: `RC4::process(Uint8)`. Kind: D -/
def next (r : RC4) : UInt8 × RC4 :=
  let i := r.i + 1
  let j := r.j + byteAt r.s i
  let s := swap r.s i j
  (byteAt s (byteAt s i + byteAt s j), ⟨i, j, s⟩)

/-- Source: `RC4::process(const Uint8 *, Uint8 *, Uint32)`, the bytes put out. Kind: D -/
def process (r : RC4) (bs : List UInt8) : List UInt8 := cipher next (· ^^^ ·) r bs

/-- The generator after `n` bytes. Kind: D -/
def advance (n : ℕ) (r : RC4) : RC4 := skip next n r

/-- Nothing is skipped. Source: `mse/rc4encryptor.h`, `mse/rc4encryptor.cpp`. Kind: L -/
theorem advance_zero (r : RC4) : r.advance 0 = r := rfl

/-- A cipher keeps the length. Source: `RC4::process(const Uint8 *, Uint8 *, Uint32)`. Kind: L -/
theorem length_process (r : RC4) (bs : List UInt8) : (r.process bs).length = bs.length :=
  length_cipher next _ r bs

/-- What is processed in two parts. Source: `RC4::process(const Uint8 *, Uint8 *, Uint32)`.
Kind: L -/
theorem process_append (r : RC4) (as bs : List UInt8) :
    r.process (as ++ bs) = r.process as ++ (r.advance as.length).process bs :=
  cipher_append next _ r as bs

/-- What is skipped in two parts. Source: `mse/rc4encryptor.h`, `mse/rc4encryptor.cpp`. Kind: L -/
theorem advance_add (m n : ℕ) (r : RC4) : r.advance (m + n) = (r.advance m).advance n :=
  skip_add next m n r

/-- Decrypting is encrypting again. Source: `RC4::process(const Uint8 *, Uint8 *, Uint32)`.
Kind: L -/
theorem process_process (r : RC4) (bs : List UInt8) : r.process (r.process bs) = bs := by
  refine cipher_cipher next _ (fun k x => ?_) r bs
  rw [← UInt8.xor_assoc, UInt8.xor_self, UInt8.zero_xor]

end RC4

/-- Source: `mse/rc4encryptor.h`, `RC4Encryptor`. Kind: D -/
structure RC4Encryptor where
  enc : RC4
  dec : RC4
deriving DecidableEq

namespace RC4Encryptor

/-- Source: `RC4Encryptor::RC4Encryptor`. Kind: D -/
def make (dk ek : SHA1Hash) : RC4Encryptor where
  enc := (RC4.make ek.toList).advance 1024
  dec := (RC4.make dk.toList).advance 1024

/-- Source: `RC4Encryptor::decrypt`. Kind: D -/
def decrypt (bs : List UInt8) (e : RC4Encryptor) : List UInt8 × RC4Encryptor :=
  (e.dec.process bs, { e with dec := e.dec.advance bs.length })

/-- Source: `RC4Encryptor::encrypt`. Kind: D -/
def encrypt (bs : List UInt8) (e : RC4Encryptor) : List UInt8 × RC4Encryptor :=
  (e.enc.process bs, { e with enc := e.enc.advance bs.length })

end RC4Encryptor

end KTorrent.Mse
