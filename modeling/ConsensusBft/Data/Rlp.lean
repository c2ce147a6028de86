import Mathlib.Data.List.Basic

/-!
# Recursive length prefix

RLP encodes byte strings and nested lists.  Encoding is a function of the item
(`Rlp.Item.encode`); integers are the byte strings of their big-endian digits without leading
zeros.

Decoding is done through a `Rlp.Reader`, the accessors with which a decoder walks over an encoded
buffer: they never look at the parts of the buffer that no accessor asks for, and each may fail.
`Rlp.reader` is the reference reader, which accepts canonical headers only.
-/

namespace ConsensusBft

/-- Byte strings. -/
abbrev Bytes := List UInt8

instance : LawfulBEq Bytes := inferInstance

namespace Rlp

/-! ### Big-endian integers -/

/-- `u64::to_be_bytes`. -/
def toBeBytes (n : UInt64) : Bytes :=
  [(n >>> 56).toUInt8, (n >>> 48).toUInt8, (n >>> 40).toUInt8, (n >>> 32).toUInt8,
    (n >>> 24).toUInt8, (n >>> 16).toUInt8, (n >>> 8).toUInt8, n.toUInt8]

/-- `u64::from_be_bytes`; only the last eight bytes of a longer string count. -/
def fromBeBytes (b : Bytes) : UInt64 := b.foldl (fun n x => n * 256 + x.toUInt64) 0

/-- The digits of `n` without leading zeros; `0` has none. -/
def digits (n : UInt64) : Bytes := (toBeBytes n).dropWhile (· == 0)

/-! ### Encoding -/

/-- What an encoded buffer stands for. -/
inductive Item where
  | str (b : Bytes)
  | list (items : List Item)

/-- The header of a payload of `len` bytes: one byte for short payloads, otherwise the length of
the length and the length.  `offset` is `0x80` for strings and `0xc0` for lists. -/
def header (offset : UInt8) (len : ℕ) : Bytes :=
  if len ≤ 55 then [offset + UInt8.ofNat len]
  else
    let l := digits (UInt64.ofNat len)
    (offset + 55 + UInt8.ofNat l.length) :: l

/-- A byte below `0x80` is its own encoding. -/
def encodeStr : Bytes → Bytes
  | [b] => if b < 0x80 then [b] else header 0x80 1 ++ [b]
  | bs => header 0x80 bs.length ++ bs

mutual

/-- The encoding of an item. -/
def Item.encode : Item → Bytes
  | .str b => encodeStr b
  | .list items => header 0xc0 (encodeAll items).length ++ encodeAll items

/-- The encodings of the items of a list, one after the other. -/
def encodeAll : List Item → Bytes
  | [] => []
  | item :: items => item.encode ++ encodeAll items

end

/-- An integer as an item. -/
def Item.int (n : UInt64) : Item := .str (digits n)

/-! ### Reading -/

/-- Why a buffer is rejected.  `other` holds the debug text of the remaining reasons. -/
inductive DecoderError where
  | rlpInconsistentLengthAndData
  | rlpIncorrectListLen
  | other (debug : String)
deriving DecidableEq, Repr

/-- The debug text of an error. -/
def DecoderError.debug : DecoderError → String
  | .rlpInconsistentLengthAndData => "RlpInconsistentLengthAndData"
  | .rlpIncorrectListLen => "RlpIncorrectListLen"
  | .other debug => debug

/-- The shape of the item at the start of a buffer. -/
inductive Prototype where
  | null
  | data (size : ℕ)
  | list (count : ℕ)
deriving DecidableEq, Repr

/-- The accessors of a buffer that starts with an encoded item. -/
structure Reader where
  /-- The shape of the item. -/
  prototype : Bytes → Except DecoderError Prototype
  /-- The buffer starting at the `i`-th item of a list. -/
  itemAt : Bytes → ℕ → Except DecoderError Bytes
  /-- The number of items of a list. -/
  itemCount : Bytes → Except DecoderError ℕ
  /-- The buffers of the items that iterating over the buffer yields. -/
  iter : Bytes → List Bytes
  /-- The item as a byte string. -/
  asBytes : Bytes → Except DecoderError Bytes
  /-- The item as a `u64`. -/
  asU64 : Bytes → Except DecoderError UInt64
  /-- The item as a `u8`. -/
  asU8 : Bytes → Except DecoderError UInt8

/-- Header length, payload length and list flag of the item at the start of a buffer. -/
def payloadInfo : Bytes → Except DecoderError (ℕ × ℕ × Bool)
  | [] => .error (.other "RlpIsTooShort")
  | b :: bs =>
    let long (offset : UInt8) (isList : Bool) : Except DecoderError (ℕ × ℕ × Bool) :=
      let lenOfLen := (b - offset).toNat
      let len := bs.take lenOfLen
      if len.length < lenOfLen then .error (.other "RlpIsTooShort")
      else if len.head? = some 0 then
        .error (.other (if isList then "RlpListLenWithZeroPrefix" else "RlpDataLenWithZeroPrefix"))
      else if (fromBeBytes len).toNat ≤ 55 then .error (.other "RlpInvalidIndirection")
      else .ok (1 + lenOfLen, (fromBeBytes len).toNat, isList)
    let info :=
      if b < 0x80 then .ok (0, 1, false)
      else if b ≤ 0xb7 then .ok (1, (b - 0x80).toNat, false)
      else if b ≤ 0xbf then long 0xb7 false
      else if b ≤ 0xf7 then .ok (1, (b - 0xc0).toNat, true)
      else long 0xf7 true
    match info with
    | .error e => .error e
    | .ok (h, n, isList) =>
      if bs.length + 1 < h + n then .error (.other "RlpIsTooShort") else .ok (h, n, isList)

/-- The buffers of the items of a payload; the fuel bounds their number. -/
def splitItems : ℕ → Bytes → Except DecoderError (List Bytes)
  | _, [] => .ok []
  | 0, _ => .error (.other "RlpInconsistentLengthAndData")
  | fuel + 1, bs =>
    match payloadInfo bs with
    | .error e => .error e
    | .ok (h, n, _) =>
      match splitItems fuel (bs.drop (h + n)) with
      | .error e => .error e
      | .ok items => .ok (bs.take (h + n) :: items)

/-- The buffers of the items of a list. -/
def listItems (bs : Bytes) : Except DecoderError (List Bytes) :=
  match payloadInfo bs with
  | .error e => .error e
  | .ok (_, _, false) => .error (.other "RlpExpectedToBeList")
  | .ok (h, n, true) => splitItems n ((bs.drop h).take n)

/-- The payload of a byte string. -/
def strBytes (bs : Bytes) : Except DecoderError Bytes :=
  match payloadInfo bs with
  | .error e => .error e
  | .ok (_, _, true) => .error (.other "RlpExpectedToBeData")
  | .ok (h, n, false) =>
    let payload := (bs.drop h).take n
    if h = 1 ∧ n = 1 ∧ payload.all (· < 0x80) then .error (.other "RlpInvalidIndirection")
    else .ok payload

/-- An integer of at most `size` bytes without leading zeros. -/
def uint (size : ℕ) (bs : Bytes) : Except DecoderError UInt64 :=
  match strBytes bs with
  | .error e => .error e
  | .ok b =>
    if size < b.length then .error (.other "RlpIsTooBig")
    else if b.head? = some 0 then .error (.other "RlpInvalidIndirection")
    else .ok (fromBeBytes b)

/-- The reference reader, for concrete buffers.  It finds in an encoding what was encoded, as the
crate does.  On other buffers the two may differ: it takes a list apart as a whole, so that one torn
item spoils all of them, while the crate walks over the items one by one; and the crate has tests of
its own for bytes behind an item. -/
def reader : Reader where
  prototype bs :=
    if bs = [] then .ok .null
    else match payloadInfo bs with
      | .error e => .error e
      | .ok (_, n, false) => .ok (.data n)
      | .ok (_, _, true) => .ok (.list (((listItems bs).map List.length).toOption.getD 0))
  itemAt bs i := (listItems bs).bind fun items =>
    match items[i]? with
    | some item => .ok item
    | none => .error (.other "RlpIsTooShort")
  itemCount bs := (listItems bs).map List.length
  iter bs := ((listItems bs).toOption).getD []
  asBytes := strBytes
  asU64 := uint 8
  asU8 bs := (uint 1 bs).map UInt64.toUInt8

end Rlp

end ConsensusBft
