import KTorrent.Bencode.BNode
import KTorrent.Lib.Buffer

/-!
# `bt::BEncoder`

The encoder hands pieces of text to its output, here the one that fills a byte array. `Tree` is
what a caller writes with it: the numbers and byte strings of the `write` overloads, and lists and
dictionaries of such.

* `write_append` — the output appends, whatever it is given.
* `writeTree_data` — what is written for a tree is `encode`, the text of the tree, and nothing else.

Source: `torrent/bencoder.h`, `torrent/bencoder.cpp`
-/

namespace KTorrent.Bencode

open KTorrent.Util KTorrent.Lib

/-- Source: `BEncoderBufferOutput`. Kind: D -/
structure BEncoderBufferOutput where
  data : List UInt8
  ptr : ℕ

/-- An output to an empty array. Source: `BEncoderBufferOutput::BEncoderBufferOutput`. Kind: D -/
def BEncoderBufferOutput.init : BEncoderBufferOutput := ⟨[], 0⟩

/-- The array is made longer where it ends. Source: `BEncoderBufferOutput::write`. Kind: D -/
def BEncoderBufferOutput.write (out : BEncoderBufferOutput) (str : List UInt8) :
    BEncoderBufferOutput :=
  ⟨writeAt out.data out.ptr str, out.ptr + str.length⟩

namespace BEncoder

/-- Source: `BEncoder::beginDict`. Kind: D -/
def beginDict (out : BEncoderBufferOutput) : BEncoderBufferOutput := out.write (latin1 "d")

/-- Source: `BEncoder::beginList`. Kind: D -/
def beginList (out : BEncoderBufferOutput) : BEncoderBufferOutput := out.write (latin1 "l")

/-- Source: `BEncoder::write(Uint32)`. Kind: D -/
def writeUint32 (out : BEncoderBufferOutput) (val : UInt32) : BEncoderBufferOutput :=
  out.write (latin1 "i" ++ TQString.number val.toNat ++ latin1 "e")

/-- Source: `BEncoder::write(Uint64)`. Kind: D -/
def writeUint64 (out : BEncoderBufferOutput) (val : UInt64) : BEncoderBufferOutput :=
  out.write (latin1 "i" ++ TQString.number val.toNat ++ latin1 "e")

/-- Source: `BEncoder::write(const TQByteArray &)`. Kind: D -/
def writeArray (out : BEncoderBufferOutput) (data : List UInt8) : BEncoderBufferOutput :=
  ((out.write (TQString.number data.length)).write (latin1 ":")).write data

/-- Source: `BEncoder::write(const Uint8*, Uint32)`. Kind: D -/
def writeBytes (out : BEncoderBufferOutput) (data : List UInt8) : BEncoderBufferOutput :=
  (out.write (TQString.number data.length ++ latin1 ":")).write data

/-- `utf8` is the text in UTF-8, a C string. Source: `BEncoder::write(const TQString &)`. Kind: D -/
def writeString (out : BEncoderBufferOutput) (utf8 : List UInt8) : BEncoderBufferOutput :=
  (out.write (TQString.number (BNode.cString utf8).length ++ latin1 ":")).write (BNode.cString utf8)

/-- `end` in the source. Source: `BEncoder::end`. Kind: D -/
def finish (out : BEncoderBufferOutput) : BEncoderBufferOutput := out.write (latin1 "e")

end BEncoder

/-- What is written. `array` and `bytes` are the two overloads for a byte string. Kind: D -/
inductive Tree
  | uint32 (val : UInt32)
  | uint64 (val : UInt64)
  | array (data : List UInt8)
  | bytes (data : List UInt8)
  | list (ts : List Tree)
  | dict (es : List (List UInt8 × Tree))

/-- The text of a number. Kind: D -/
def encodeInt (n : ℕ) : List UInt8 := 'i'.toUInt8 :: (TQString.number n ++ ['e'.toUInt8])

/-- The text of a byte string. Kind: D -/
def encodeString (data : List UInt8) : List UInt8 :=
  TQString.number data.length ++ ':'.toUInt8 :: data

namespace Tree

mutual

/-- The calls of the encoder for a tree. Kind: D -/
def write : Tree → BEncoderBufferOutput → BEncoderBufferOutput
  | uint32 val, out => BEncoder.writeUint32 out val
  | uint64 val, out => BEncoder.writeUint64 out val
  | array data, out => BEncoder.writeArray out data
  | bytes data, out => BEncoder.writeBytes out data
  | list ts, out => BEncoder.finish (writeItems ts (BEncoder.beginList out))
  | dict es, out => BEncoder.finish (writeEntries es (BEncoder.beginDict out))

/-- The items of a list, in order. Kind: D -/
def writeItems : List Tree → BEncoderBufferOutput → BEncoderBufferOutput
  | [], out => out
  | t :: ts, out => writeItems ts (write t out)

/-- The entries of a dictionary, each key before its value. Kind: D -/
def writeEntries : List (List UInt8 × Tree) → BEncoderBufferOutput → BEncoderBufferOutput
  | [], out => out
  | (key, t) :: es, out => writeEntries es (write t (BEncoder.writeArray out key))

end

mutual

/-- The text of a tree. Kind: D -/
def encode : Tree → List UInt8
  | uint32 val => encodeInt val.toNat
  | uint64 val => encodeInt val.toNat
  | array data => encodeString data
  | bytes data => encodeString data
  | list ts => 'l'.toUInt8 :: (encodeItems ts ++ ['e'.toUInt8])
  | dict es => 'd'.toUInt8 :: (encodeEntries es ++ ['e'.toUInt8])

/-- The texts of the items of a list. Kind: D -/
def encodeItems : List Tree → List UInt8
  | [] => []
  | t :: ts => encode t ++ encodeItems ts

/-- The texts of the entries of a dictionary. Kind: D -/
def encodeEntries : List (List UInt8 × Tree) → List UInt8
  | [] => []
  | (key, t) :: es => encodeString key ++ (encode t ++ encodeEntries es)

end

end Tree

/-! ### The encoder writes the text -/

namespace BEncoderBufferOutput

/-- Everything so far was written through this output. Kind: D -/
def AtEnd (out : BEncoderBufferOutput) (bs : List UInt8) : Prop := out = ⟨bs, bs.length⟩

/-- A new output is at its end. Source: `BEncoderBufferOutput::BEncoderBufferOutput`. Kind: L -/
theorem atEnd_init : AtEnd init [] := rfl

/-- **The output appends.**. Source: `BEncoderBufferOutput::write`. Kind: L -/
theorem write_append {out : BEncoderBufferOutput} {bs : List UInt8} (h : out.AtEnd bs)
    (str : List UInt8) : (out.write str).AtEnd (bs ++ str) := by
  subst h
  unfold AtEnd write writeAt
  rw [List.take_length, Nat.sub_self, List.replicate_zero, List.append_nil,
    List.drop_eq_nil_of_le (Nat.le_add_right _ _), List.append_nil, List.length_append]

end BEncoderBufferOutput

namespace Tree

open BEncoderBufferOutput

/-- A string is appended. Source: `BEncoder::write(const TQByteArray &)`. Kind: L -/
theorem writeArray_append {out : BEncoderBufferOutput} {bs : List UInt8} (h : out.AtEnd bs)
    (data : List UInt8) : (BEncoder.writeArray out data).AtEnd (bs ++ encodeString data) := by
  have h' := write_append (write_append (write_append h (TQString.number data.length))
    (latin1 ":")) data
  rw [List.append_assoc, List.append_assoc] at h'
  exact h'

/-- Bytes are appended. Source: `BEncoder::write(const Uint8*, Uint32)`. Kind: L -/
theorem writeBytes_append {out : BEncoderBufferOutput} {bs : List UInt8} (h : out.AtEnd bs)
    (data : List UInt8) : (BEncoder.writeBytes out data).AtEnd (bs ++ encodeString data) := by
  have h' := write_append (write_append h (TQString.number data.length ++ latin1 ":")) data
  rw [List.append_assoc, List.append_assoc] at h'
  exact h'

mutual

/-- A tree is appended as it is encoded. Source: `BEncoderBufferOutput::write`. Kind: L -/
theorem write_tree (t : Tree) {out : BEncoderBufferOutput} {bs : List UInt8} (h : out.AtEnd bs) :
    (t.write out).AtEnd (bs ++ t.encode) := by
  cases t with
  | uint32 val => exact write_append h _
  | uint64 val => exact write_append h _
  | array data => exact writeArray_append h data
  | bytes data => exact writeBytes_append h data
  | list ts =>
    have h' := write_append (write_items ts (write_append h (latin1 "l"))) (latin1 "e")
    rw [List.append_assoc, List.append_assoc] at h'
    exact h'
  | dict es =>
    have h' := write_append (write_entries es (write_append h (latin1 "d"))) (latin1 "e")
    rw [List.append_assoc, List.append_assoc] at h'
    exact h'

/-- Items are appended as they are encoded. Source: `BEncoderBufferOutput::write`. Kind: L -/
theorem write_items (ts : List Tree) {out : BEncoderBufferOutput} {bs : List UInt8}
    (h : out.AtEnd bs) : (writeItems ts out).AtEnd (bs ++ encodeItems ts) := by
  cases ts with
  | nil => rwa [encodeItems, List.append_nil]
  | cons t ts =>
    have h' := write_items ts (write_tree t h)
    rwa [List.append_assoc] at h'

/-- Entries are appended as they are encoded. Source: `BEncoderBufferOutput::write`. Kind: L -/
theorem write_entries (es : List (List UInt8 × Tree)) {out : BEncoderBufferOutput}
    {bs : List UInt8} (h : out.AtEnd bs) : (writeEntries es out).AtEnd (bs ++ encodeEntries es) := by
  cases es with
  | nil => rwa [encodeEntries, List.append_nil]
  | cons e es =>
    obtain ⟨key, t⟩ := e
    have h' := write_entries es (write_tree t (writeArray_append h key))
    rwa [List.append_assoc, List.append_assoc] at h'

end

/-- **The bytes the encoder produces for a tree.**. Source: `BEncoderBufferOutput::write`.
Kind: L -/
theorem writeTree_data (t : Tree) : (t.write BEncoderBufferOutput.init).data = t.encode := by
  have h := write_tree t atEnd_init
  rw [List.nil_append] at h
  rw [h]

end Tree

end KTorrent.Bencode
