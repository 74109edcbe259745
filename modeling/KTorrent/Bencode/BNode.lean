import KTorrent.Util.Numeral

/-!
# `bt::Value` and the tree of `bt::BNode`

What the decoder makes of bencoded data: values, dictionaries and lists, each with the place of its
bytes in the data. A child is a pointer, so it can be null.

Source: `torrent/value.h`, `torrent/value.cpp`, `torrent/bnode.h`, `torrent/bnode.cpp`
-/

namespace KTorrent.Bencode

open KTorrent.Util

/-- Source: `Value::Type`. Kind: D -/
inductive ValueType
  | STRING
  | INT
  | INT64
deriving DecidableEq

/-- `ival` is `none` where the constructor leaves it unset. Source: `bt::Value`. Kind: D -/
structure Value where
  type : ValueType
  ival : Option ℤ
  strval : List UInt8
  bigIval : ℤ
deriving DecidableEq

namespace Value

/-- Source: `Value::Value(int)`. Kind: D -/
def ofInt (val : ℤ) : Value := ⟨.INT, some val, [], val⟩

/-- Source: `Value::Value(Int64)`. Kind: D -/
def ofInt64 (val : ℤ) : Value := ⟨.INT64, none, [], val⟩

/-- Source: `Value::Value(const TQByteArray &)`. Kind: D -/
def ofArray (val : List UInt8) : Value := ⟨.STRING, some 0, val, 0⟩

/-- Source: `Value::toInt64`. Kind: D -/
def toInt64 (v : Value) : ℤ := v.bigIval

/-- Source: `Value::toByteArray`. Kind: D -/
def toByteArray (v : Value) : List UInt8 := v.strval

end Value

/-- A node with its offset and length. Source: `bt::BNode` and its three subclasses. Kind: D -/
inductive BNode
  | value (off len : ℕ) (v : Value)
  | dict (off len : ℕ) (children : List (List UInt8 × Option BNode))
  | list (off len : ℕ) (children : List (Option BNode))

namespace BNode

/-- Source: `BNode::getOffset`. Kind: D -/
def getOffset : BNode → ℕ
  | value off _ _ => off
  | dict off _ _ => off
  | list off _ _ => off

/-- Source: `BNode::getLength`. Kind: D -/
def getLength : BNode → ℕ
  | value _ len _ => len
  | dict _ len _ => len
  | list _ len _ => len

/-- The text a byte array holds as a C string. Source: `TQString(const TQByteArray &)`. Kind: D -/
def cString (bs : List UInt8) : List UInt8 := bs.takeWhile (· ≠ 0)

/-- Source: `BDictNode::getData`. Kind: D -/
def getData (children : List (List UInt8 × Option BNode)) (key : List UInt8) : Option BNode :=
  ((children.find? fun e => cString e.1 = key).map Prod.snd).join

/-- Source: `BDictNode::getValue`. Kind: D -/
def getValue (children : List (List UInt8 × Option BNode)) (key : List UInt8) : Option Value :=
  match getData children key with
  | some (value _ _ v) => some v
  | _ => none

/-- Source: `BDictNode::getDict`. Kind: D -/
def getDict (children : List (List UInt8 × Option BNode)) (key : List UInt8) :
    Option (List (List UInt8 × Option BNode)) :=
  match getData children key with
  | some (dict _ _ cs) => some cs
  | _ => none

/-- Source: `BDictNode::getList`. Kind: D -/
def getList (children : List (List UInt8 × Option BNode)) (key : List UInt8) :
    Option (List (Option BNode)) :=
  match getData children key with
  | some (list _ _ cs) => some cs
  | _ => none

end BNode

end KTorrent.Bencode
