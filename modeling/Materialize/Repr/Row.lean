import Mathlib
import Materialize.Lib.Bytes

/-!
# The row encoding

The model of the byte encoding of a `Row` (`repr/src/row.rs`): `push_datum` writes a datum as a
tag byte and a payload, `read_datum` reads one back, and a row is the datums written one after
another (`Row::pack`), read back by iterating (`RowRef::iter`).

The model covers the datums whose encoding is self-contained: the constants, the integers in
their variable-length encodings (the tag counts the bytes kept after the sign bits are dropped),
the floats as their bit patterns, byte strings, strings as their UTF-8 bytes, and lists and maps
as the bytes of the datums they hold, which is what a `DatumList` or a `DatumMap` is. The tags
are numbered as in the source, dates, times, intervals, numerics, arrays, ranges and the ACL
items included, but those datums are not modelled: reading one of their tags is `none`.

In the order the module lands them:
* the two integer encodings read back as what they wrote (`minBytesSigned_extend`,
  `minBytesUnsigned_extend`), through the sign-extension lemmas of `Lib.Bytes`;
* every datum reads back as itself and consumes exactly its bytes (`readDatum_pushDatum`), and so
  a row reads back as its datums (`unpack_pack`);
* datums with the same encoding are the same datum (`pack_injective`), but the encoding is not
  canonical for `Datum`'s equality: `-0.0` and `0.0` are equal floats with different bits
  (`float_zero_eq_pack_ne`).

A panic of the source (an index past the end of a slice, an `expect` on an unknown tag, an
`unreachable!`) is `none`.
-/

namespace Materialize.Row

open Bytes

/-! ## Tags -/

/-- `Tag`, the first byte of every datum in a row; `#[repr(u8)]` numbers the variants in
declaration order, which `Tag.ctorIdx` is. -/
inductive Tag where
  | null | «false» | «true» | int16 | int32 | int64 | uInt8 | uInt32 | float32 | float64
  | date | time | timestamp | timestampTz | interval
  | bytesTiny | bytesShort | bytesLong | bytesHuge
  | stringTiny | stringShort | stringLong | stringHuge
  | uuid | array
  | listTiny | listShort | listLong | listHuge
  | dict | jsonNull | dummy | numeric | uInt16 | uInt64 | mzTimestamp | range | mzAclItem
  | aclItem | cheapTimestamp | cheapTimestampTz
  | nonNegativeInt16_0 | nonNegativeInt16_8 | nonNegativeInt16_16
  | nonNegativeInt32_0 | nonNegativeInt32_8 | nonNegativeInt32_16 | nonNegativeInt32_24
  | nonNegativeInt32_32
  | nonNegativeInt64_0 | nonNegativeInt64_8 | nonNegativeInt64_16 | nonNegativeInt64_24
  | nonNegativeInt64_32 | nonNegativeInt64_40 | nonNegativeInt64_48 | nonNegativeInt64_56
  | nonNegativeInt64_64
  | negativeInt16_0 | negativeInt16_8 | negativeInt16_16
  | negativeInt32_0 | negativeInt32_8 | negativeInt32_16 | negativeInt32_24 | negativeInt32_32
  | negativeInt64_0 | negativeInt64_8 | negativeInt64_16 | negativeInt64_24 | negativeInt64_32
  | negativeInt64_40 | negativeInt64_48 | negativeInt64_56 | negativeInt64_64
  | uInt8_0 | uInt8_8
  | uInt16_0 | uInt16_8 | uInt16_16
  | uInt32_0 | uInt32_8 | uInt32_16 | uInt32_24 | uInt32_32
  | uInt64_0 | uInt64_8 | uInt64_16 | uInt64_24 | uInt64_32 | uInt64_40 | uInt64_48 | uInt64_56
  | uInt64_64
  deriving DecidableEq, Repr

/-- `u8::from(tag)`. -/
def Tag.toU8 (t : Tag) : UInt8 := UInt8.ofNat t.ctorIdx

/-- `Tag::try_from_primitive`: the tag a byte numbers, if any. -/
def Tag.tryFromPrimitive (b : UInt8) : Option Tag :=
  if b.toNat < 94 then some (Tag.ofNat b.toNat) else none

/-- `Tag::actual_int_length`: the payload bytes of a variable-length integer tag. -/
def Tag.actualIntLength : Tag → Option Nat
  | .nonNegativeInt16_0 | .nonNegativeInt32_0 | .nonNegativeInt64_0 | .uInt8_0 | .uInt16_0
  | .uInt32_0 | .uInt64_0 => some 0
  | .nonNegativeInt16_8 | .nonNegativeInt32_8 | .nonNegativeInt64_8 | .uInt8_8 | .uInt16_8
  | .uInt32_8 | .uInt64_8 => some 1
  | .nonNegativeInt16_16 | .nonNegativeInt32_16 | .nonNegativeInt64_16 | .uInt16_16
  | .uInt32_16 | .uInt64_16 => some 2
  | .nonNegativeInt32_24 | .nonNegativeInt64_24 | .uInt32_24 | .uInt64_24 => some 3
  | .nonNegativeInt32_32 | .nonNegativeInt64_32 | .uInt32_32 | .uInt64_32 => some 4
  | .nonNegativeInt64_40 | .uInt64_40 => some 5
  | .nonNegativeInt64_48 | .uInt64_48 => some 6
  | .nonNegativeInt64_56 | .uInt64_56 => some 7
  | .nonNegativeInt64_64 | .uInt64_64 => some 8
  | .negativeInt16_0 | .negativeInt32_0 | .negativeInt64_0 => some 0
  | .negativeInt16_8 | .negativeInt32_8 | .negativeInt64_8 => some 1
  | .negativeInt16_16 | .negativeInt32_16 | .negativeInt64_16 => some 2
  | .negativeInt32_24 | .negativeInt64_24 => some 3
  | .negativeInt32_32 | .negativeInt64_32 => some 4
  | .negativeInt64_40 => some 5
  | .negativeInt64_48 => some 6
  | .negativeInt64_56 => some 7
  | .negativeInt64_64 => some 8
  | _ => none

theorem Tag.ctorIdx_lt (t : Tag) : t.ctorIdx < 94 := by
  cases t <;> decide

/-- Every tag reads back from its byte. -/
@[simp] theorem Tag.tryFromPrimitive_toU8 (t : Tag) : Tag.tryFromPrimitive t.toU8 = some t := by
  have ht := t.ctorIdx_lt
  have hbyte : t.toU8.toNat = t.ctorIdx := by
    rw [Tag.toU8, UInt8.toNat_ofNat']
    exact Nat.mod_eq_of_lt (by omega)
  rw [Tag.tryFromPrimitive, hbyte, if_pos ht, Tag.ofNat_ctorIdx]

/-! ## Datums -/

/-- The datums of `Datum<'a>` whose encoding the model covers. A float is its bit pattern
(`to_bits`); a string is its UTF-8 bytes, which the row stores and reads back unchecked; a list
or a map is the bytes of the datums it holds (`DatumList::data`, `DatumMap::data`). -/
inductive Datum where
  | null
  | «false»
  | «true»
  | int16 (i : Int16)
  | int32 (i : Int32)
  | int64 (i : Int64)
  | uInt8 (i : UInt8)
  | uInt16 (i : UInt16)
  | uInt32 (i : UInt32)
  | uInt64 (i : UInt64)
  | float32 (bits : UInt32)
  | float64 (bits : UInt64)
  | bytes (bytes : List UInt8)
  | string (utf8 : List UInt8)
  | list (data : List UInt8)
  | map (data : List UInt8)
  | jsonNull
  | dummy
  deriving DecidableEq, Repr

/-- The datum's byte strings have lengths that a `usize` holds, as every slice in memory does. -/
def Datum.Fits : Datum → Prop
  | .bytes b | .string b | .list b | .map b => b.length < 2 ^ 64
  | _ => True

/-! ## Writing -/

/-- `min_bytes_signed`: the bytes that hold `i` once the leading sign bits of its 64-bit widening
are dropped. The leading ones of a negative `i` are the leading zeros of its complement
`-i - 1`, and a 64-bit word `x` has `64 - x.size` leading zeros. -/
def minBytesSigned (i : Int) : Nat :=
  let nSignBits := if i < 0 then 64 - (-i - 1).toNat.size else 64 - i.toNat.size
  (64 - nSignBits + 7) / 8

/-- `min_bytes_unsigned`. -/
def minBytesUnsigned (i : Nat) : Nat :=
  let nSignBits := 64 - i.size
  (64 - nSignBits + 7) / 8

/-- `TINY`, `SHORT` and `LONG`: the bounds of the lengths of the four length widths. -/
def TINY : Nat := 2 ^ 8
def SHORT : Nat := 2 ^ 16
def LONG : Nat := 2 ^ 32

/-- The arm of `push_datum` for a signed integer of `width` bytes with value `i` and bits `bits`:
the tag the sign picks, moved up by `min_bytes_signed`, then that many bytes of
`i.to_le_bytes()`. -/
def pushSigned (negative nonNegative : Tag) (width : Nat) (i : Int) (bits : Nat) : List UInt8 :=
  let mbs := minBytesSigned i
  let tag := (if i < 0 then negative else nonNegative).toU8 + UInt8.ofNat mbs
  tag :: (leBytes bits width).take mbs

/-- The arm of `push_datum` for an unsigned integer of `width` bytes. -/
def pushUnsigned (zero : Tag) (width : Nat) (i : Nat) : List UInt8 :=
  let mbu := minBytesUnsigned i
  (zero.toU8 + UInt8.ofNat mbu) :: (leBytes i width).take mbu

/-- The tag of a byte string of `len` bytes: `match len { 0..TINY => tiny, TINY..SHORT => short,
SHORT..LONG => long, _ => huge }`. -/
def lengthTag (tiny short long huge : Tag) (len : Nat) : Tag :=
  if len < TINY then tiny else if len < SHORT then short else if len < LONG then long else huge

/-- `push_lengthed_bytes`: the low bytes of `bytes.len().to_le_bytes()` that the tag's width
keeps, then the bytes. -/
def pushLengthedBytes (bytes : List UInt8) (tag : Tag) : Option (List UInt8) :=
  let len := leBytes bytes.length 8
  match tag with
  | .bytesTiny | .stringTiny | .listTiny => some (len.take 1 ++ bytes)
  | .bytesShort | .stringShort | .listShort => some (len.take 2 ++ bytes)
  | .bytesLong | .stringLong | .listLong => some (len.take 4 ++ bytes)
  | .bytesHuge | .stringHuge | .listHuge => some (len ++ bytes)
  | _ => none

/-- `push_untagged_bytes`: the length as a `u64`, then the bytes. -/
def pushUntaggedBytes (bytes : List UInt8) : List UInt8 :=
  leBytes bytes.length 8 ++ bytes

/-- `push_datum`: the bytes a datum is written as. -/
def pushDatum : Datum → Option (List UInt8)
  | .null => some [Tag.null.toU8]
  | .false => some [Tag.false.toU8]
  | .true => some [Tag.true.toU8]
  | .int16 i => some (pushSigned .negativeInt16_0 .nonNegativeInt16_0 2 i.toInt i.toBitVec.toNat)
  | .int32 i => some (pushSigned .negativeInt32_0 .nonNegativeInt32_0 4 i.toInt i.toBitVec.toNat)
  | .int64 i => some (pushSigned .negativeInt64_0 .nonNegativeInt64_0 8 i.toInt i.toBitVec.toNat)
  | .uInt8 i => some (pushUnsigned .uInt8_0 1 i.toNat)
  | .uInt16 i => some (pushUnsigned .uInt16_0 2 i.toNat)
  | .uInt32 i => some (pushUnsigned .uInt32_0 4 i.toNat)
  | .uInt64 i => some (pushUnsigned .uInt64_0 8 i.toNat)
  | .float32 bits => some (Tag.float32.toU8 :: leBytes bits.toNat 4)
  | .float64 bits => some (Tag.float64.toU8 :: leBytes bits.toNat 8)
  | .bytes b =>
    let tag := lengthTag .bytesTiny .bytesShort .bytesLong .bytesHuge b.length
    (pushLengthedBytes b tag).map (tag.toU8 :: ·)
  | .string s =>
    let tag := lengthTag .stringTiny .stringShort .stringLong .stringHuge s.length
    (pushLengthedBytes s tag).map (tag.toU8 :: ·)
  | .list data =>
    let tag := lengthTag .listTiny .listShort .listLong .listHuge data.length
    (pushLengthedBytes data tag).map (tag.toU8 :: ·)
  | .map data => some (Tag.dict.toU8 :: pushUntaggedBytes data)
  | .jsonNull => some [Tag.jsonNull.toU8]
  | .dummy => some [Tag.dummy.toU8]

/-- `Row::pack`: the datums written one after another. -/
def pack : List Datum → Option (List UInt8)
  | [] => some []
  | d :: ds => (pushDatum d).bind fun bytes => (pack ds).map (bytes ++ ·)

/-! ## Reading -/

/-- `read_byte`. -/
def readByte : List UInt8 → Option (UInt8 × List UInt8)
  | [] => none
  | b :: data => some (b, data)

/-- `read_byte_array::<N>`: the first `n` bytes. -/
def readByteArray (n : Nat) (data : List UInt8) : Option (List UInt8 × List UInt8) :=
  if n ≤ data.length then some (data.take n, data.drop n) else none

/-- `read_byte_array_sign_extending::<N, FILL>`: the first `length` bytes, filled out to `n` bytes
with `fill`. -/
def readByteArraySignExtending (n : Nat) (fill : UInt8) (data : List UInt8) (length : Nat) :
    Option (List UInt8 × List UInt8) :=
  if length ≤ n ∧ length ≤ data.length then
    some (data.take length ++ List.replicate (n - length) fill, data.drop length)
  else none

/-- `data.split_at(len)`: the first `len` bytes and the rest. -/
def splitAt (data : List UInt8) (len : Nat) : Option (List UInt8 × List UInt8) :=
  if len ≤ data.length then some (data.take len, data.drop len) else none

/-- `read_untagged_bytes`. -/
def readUntaggedBytes (data : List UInt8) : Option (List UInt8 × List UInt8) := do
  let (len, data) ← readByteArray 8 data
  splitAt data (leValue len)

/-- `read_lengthed_datum`: the length in the tag's width, then that many bytes. -/
def readLengthedDatum (data : List UInt8) (tag : Tag) : Option (Datum × List UInt8) := do
  let (len, data) ← match tag with
    | .bytesTiny | .stringTiny | .listTiny => (readByte data).map fun (b, data) => (b.toNat, data)
    | .bytesShort | .stringShort | .listShort =>
      (readByteArray 2 data).map fun (bs, data) => (leValue bs, data)
    | .bytesLong | .stringLong | .listLong =>
      (readByteArray 4 data).map fun (bs, data) => (leValue bs, data)
    | .bytesHuge | .stringHuge | .listHuge =>
      (readByteArray 8 data).map fun (bs, data) => (leValue bs, data)
    | _ => none
  let (bytes, data) ← splitAt data len
  match tag with
  | .bytesTiny | .bytesShort | .bytesLong | .bytesHuge => some (.bytes bytes, data)
  | .stringTiny | .stringShort | .stringLong | .stringHuge => some (.string bytes, data)
  | .listTiny | .listShort | .listLong | .listHuge => some (.list bytes, data)
  | _ => none

/-- The body of `read_datum` after the tag: the payload the tag announces. -/
def readTagged (tag : Tag) (data : List UInt8) : Option (Datum × List UInt8) :=
  match tag with
  | .null => some (.null, data)
  | .false => some (.false, data)
  | .true => some (.true, data)
  | .uInt8_0 | .uInt8_8 => do
    let (bs, data) ← readByteArraySignExtending 1 0 data (← tag.actualIntLength)
    some (.uInt8 (UInt8.ofNat (leValue bs)), data)
  | .int16 => do
    let (bs, data) ← readByteArray 2 data
    some (.int16 (Int16.ofNat (leValue bs)), data)
  | .nonNegativeInt16_0 | .nonNegativeInt16_16 | .nonNegativeInt16_8 => do
    let (bs, data) ← readByteArraySignExtending 2 0 data (← tag.actualIntLength)
    some (.int16 (Int16.ofNat (leValue bs)), data)
  | .uInt16_0 | .uInt16_8 | .uInt16_16 => do
    let (bs, data) ← readByteArraySignExtending 2 0 data (← tag.actualIntLength)
    some (.uInt16 (UInt16.ofNat (leValue bs)), data)
  | .int32 => do
    let (bs, data) ← readByteArray 4 data
    some (.int32 (Int32.ofNat (leValue bs)), data)
  | .nonNegativeInt32_0 | .nonNegativeInt32_32 | .nonNegativeInt32_8 | .nonNegativeInt32_16
  | .nonNegativeInt32_24 => do
    let (bs, data) ← readByteArraySignExtending 4 0 data (← tag.actualIntLength)
    some (.int32 (Int32.ofNat (leValue bs)), data)
  | .uInt32_0 | .uInt32_8 | .uInt32_16 | .uInt32_24 | .uInt32_32 => do
    let (bs, data) ← readByteArraySignExtending 4 0 data (← tag.actualIntLength)
    some (.uInt32 (UInt32.ofNat (leValue bs)), data)
  | .int64 => do
    let (bs, data) ← readByteArray 8 data
    some (.int64 (Int64.ofNat (leValue bs)), data)
  | .nonNegativeInt64_0 | .nonNegativeInt64_64 | .nonNegativeInt64_8 | .nonNegativeInt64_16
  | .nonNegativeInt64_24 | .nonNegativeInt64_32 | .nonNegativeInt64_40 | .nonNegativeInt64_48
  | .nonNegativeInt64_56 => do
    let (bs, data) ← readByteArraySignExtending 8 0 data (← tag.actualIntLength)
    some (.int64 (Int64.ofNat (leValue bs)), data)
  | .uInt64_0 | .uInt64_8 | .uInt64_16 | .uInt64_24 | .uInt64_32 | .uInt64_40 | .uInt64_48
  | .uInt64_56 | .uInt64_64 => do
    let (bs, data) ← readByteArraySignExtending 8 0 data (← tag.actualIntLength)
    some (.uInt64 (UInt64.ofNat (leValue bs)), data)
  | .negativeInt16_0 | .negativeInt16_16 | .negativeInt16_8 => do
    let (bs, data) ← readByteArraySignExtending 2 255 data (← tag.actualIntLength)
    some (.int16 (Int16.ofNat (leValue bs)), data)
  | .negativeInt32_0 | .negativeInt32_32 | .negativeInt32_8 | .negativeInt32_16
  | .negativeInt32_24 => do
    let (bs, data) ← readByteArraySignExtending 4 255 data (← tag.actualIntLength)
    some (.int32 (Int32.ofNat (leValue bs)), data)
  | .negativeInt64_0 | .negativeInt64_64 | .negativeInt64_8 | .negativeInt64_16
  | .negativeInt64_24 | .negativeInt64_32 | .negativeInt64_40 | .negativeInt64_48
  | .negativeInt64_56 => do
    let (bs, data) ← readByteArraySignExtending 8 255 data (← tag.actualIntLength)
    some (.int64 (Int64.ofNat (leValue bs)), data)
  | .uInt8 => do
    let (bs, data) ← readByteArray 1 data
    some (.uInt8 (UInt8.ofNat (leValue bs)), data)
  | .uInt16 => do
    let (bs, data) ← readByteArray 2 data
    some (.uInt16 (UInt16.ofNat (leValue bs)), data)
  | .uInt32 => do
    let (bs, data) ← readByteArray 4 data
    some (.uInt32 (UInt32.ofNat (leValue bs)), data)
  | .uInt64 => do
    let (bs, data) ← readByteArray 8 data
    some (.uInt64 (UInt64.ofNat (leValue bs)), data)
  | .float32 => do
    let (bs, data) ← readByteArray 4 data
    some (.float32 (UInt32.ofNat (leValue bs)), data)
  | .float64 => do
    let (bs, data) ← readByteArray 8 data
    some (.float64 (UInt64.ofNat (leValue bs)), data)
  | .bytesTiny | .bytesShort | .bytesLong | .bytesHuge | .stringTiny | .stringShort
  | .stringLong | .stringHuge | .listTiny | .listShort | .listLong | .listHuge =>
    readLengthedDatum data tag
  | .dict => do
    let (bytes, data) ← readUntaggedBytes data
    some (.map bytes, data)
  | .jsonNull => some (.jsonNull, data)
  | .dummy => some (.dummy, data)
  -- the datums the model leaves out
  | _ => none

/-- `read_datum`: the tag, then its payload; an unknown tag panics (`expect`). -/
def readDatum (data : List UInt8) : Option (Datum × List UInt8) := do
  let (b, data) ← readByte data
  readTagged (← Tag.tryFromPrimitive b) data

/-- `RowRef::iter`, collected: datums read until the bytes run out. Every datum takes at least its
tag byte, so as many steps as there are bytes are enough. -/
def unpackFuel : Nat → List UInt8 → Option (List Datum)
  | _, [] => some []
  | 0, _ :: _ => none
  | fuel + 1, data@(_ :: _) => do
    let (d, rest) ← readDatum data
    (unpackFuel fuel rest).map (d :: ·)

/-- The datums of a row. -/
def unpack (data : List UInt8) : Option (List Datum) := unpackFuel data.length data

/-! ## Equality of datums -/

/-- `OrderedFloat`'s `PartialEq` on the bits of a float with `e` exponent bits and `m` fraction
bits: a NaN equals exactly the NaNs; any other float is compared by IEEE 754 `==`, under which it
equals the float with its bits, and the two zeros are equal. -/
def orderedFloatEq (e m : Nat) (a b : Nat) : Bool :=
  -- the bits below the sign bit; a NaN has them all set in the exponent and not all clear in the
  -- fraction
  let magnitude (x : Nat) := x % 2 ^ (e + m)
  let isNan (x : Nat) := decide ((2 ^ e - 1) * 2 ^ m < magnitude x)
  if isNan a then isNan b else !isNan b && (a == b || (magnitude a == 0 && magnitude b == 0))

/-- `PartialEq for Datum`, looking `depth` lists or maps deep: the derived equality of the
variants, `OrderedFloat`'s for the floats and, for lists and maps, `iter().eq(..)`: the datums
they hold, compared in order. A map's keys are strings, compared as their bytes. -/
def Datum.eqAt : Nat → Datum → Datum → Bool
  | _, .null, .null | _, .false, .false | _, .true, .true | _, .jsonNull, .jsonNull
  | _, .dummy, .dummy => Bool.true
  | _, .int16 a, .int16 b => a == b
  | _, .int32 a, .int32 b => a == b
  | _, .int64 a, .int64 b => a == b
  | _, .uInt8 a, .uInt8 b => a == b
  | _, .uInt16 a, .uInt16 b => a == b
  | _, .uInt32 a, .uInt32 b => a == b
  | _, .uInt64 a, .uInt64 b => a == b
  | _, .float32 a, .float32 b => orderedFloatEq 8 23 a.toNat b.toNat
  | _, .float64 a, .float64 b => orderedFloatEq 11 52 a.toNat b.toNat
  | _, .bytes a, .bytes b | _, .string a, .string b => a == b
  | depth + 1, .list a, .list b | depth + 1, .map a, .map b =>
    match unpack a, unpack b with
    | some xs, some ys => xs.length == ys.length && (List.zipWith (Datum.eqAt depth) xs ys).all id
    | _, _ => Bool.false
  | _, _, _ => Bool.false

/-- `PartialEq for Datum`. Each level of nesting takes at least a tag and a length byte, so the
bytes of a list or a map bound how deep the comparison has to look. -/
def Datum.eq (a b : Datum) : Bool :=
  let depth := match a with
    | .list data | .map data => data.length + 1
    | _ => 0
  a.eqAt depth b

/-! ## Integers read back -/

/-- A number below `2 ^ 64` fits in the bytes its bit length rounds up to. -/
theorem lt_pow_bytes (m : Nat) : m < 256 ^ ((m.size + 7) / 8) := by
  have hsize : m.size ≤ 8 * ((m.size + 7) / 8) := by omega
  calc m < 2 ^ m.size := Nat.lt_size_self m
    _ ≤ 2 ^ (8 * ((m.size + 7) / 8)) := Nat.pow_le_pow_right (by norm_num) hsize
    _ = 256 ^ ((m.size + 7) / 8) := by rw [pow_mul]; norm_num

/-- A number below `256 ^ w` takes at most `w` bytes. -/
theorem bytes_le_of_lt {m w : Nat} (h : m < 256 ^ w) : (m.size + 7) / 8 ≤ w := by
  have : m.size ≤ 8 * w := Nat.size_le.2 (by rw [pow_mul]; norm_num; exact h)
  omega

theorem minBytesUnsigned_eq {i : Nat} (h : i < 2 ^ 64) : minBytesUnsigned i = (i.size + 7) / 8 := by
  have : i.size ≤ 64 := Nat.size_le.2 h
  unfold minBytesUnsigned
  dsimp only
  omega

/-- An unsigned integer of `w` bytes, written in `min_bytes_unsigned` bytes and zero-extended,
reads back as itself. -/
theorem minBytesUnsigned_extend {w u : Nat} (hw : w ≤ 8) (hu : u < 256 ^ w) :
    minBytesUnsigned u ≤ w ∧
      leValue (leBytes u (minBytesUnsigned u) ++ List.replicate (w - minBytesUnsigned u) 0) = u := by
  have h64 : u < 2 ^ 64 := lt_of_lt_of_le hu (by
    calc 256 ^ w ≤ 256 ^ 8 := Nat.pow_le_pow_right (by norm_num) hw
      _ = 2 ^ 64 := by norm_num)
  rw [minBytesUnsigned_eq h64]
  exact ⟨bytes_le_of_lt hu, leValue_leBytes_extend_zero _ (lt_pow_bytes u)⟩

/-- The magnitude `min_bytes_signed` measures: the integer, or the complement of a negative one. -/
theorem minBytesSigned_eq {i : Int} (h : (if i < 0 then (-i - 1).toNat else i.toNat) < 2 ^ 64) :
    minBytesSigned i = ((if i < 0 then (-i - 1).toNat else i.toNat).size + 7) / 8 := by
  have := Nat.size_le.2 h
  unfold minBytesSigned
  dsimp only
  split_ifs at this ⊢ <;> omega

/-- A two's-complement integer of `w` bytes with bits `u`, written in `min_bytes_signed` bytes and
extended with its sign, reads back as its bits. -/
theorem minBytesSigned_extend {w u : Nat} {v : Int} (hw : w ≤ 8) (hu : u < 256 ^ w)
    (hv : v = if 2 * u < 256 ^ w then (u : Int) else (u : Int) - ((256 ^ w : Nat) : Int)) :
    minBytesSigned v ≤ w ∧
      leValue (leBytes u (minBytesSigned v) ++
        List.replicate (w - minBytesSigned v) (if v < 0 then 255 else 0)) = u := by
  have hP : 256 ^ w ≤ 2 ^ 64 := by
    calc 256 ^ w ≤ 256 ^ 8 := Nat.pow_le_pow_right (by norm_num) hw
      _ = 2 ^ 64 := by norm_num
  by_cases hpos : 2 * u < 256 ^ w
  · -- a nonnegative integer is its bits
    rw [if_pos hpos] at hv
    subst hv
    have hm : (if (u : Int) < 0 then (-(u : Int) - 1).toNat else (u : Int).toNat) = u := by simp
    rw [minBytesSigned_eq (by rw [hm]; omega), hm, if_neg (by omega)]
    exact ⟨bytes_le_of_lt hu, leValue_leBytes_extend_zero _ (lt_pow_bytes u)⟩
  · -- a negative integer's bits are `256 ^ w - 1` less its magnitude
    rw [if_neg hpos] at hv
    subst hv
    have hm : (if (u : Int) - ((256 ^ w : Nat) : Int) < 0
        then (-((u : Int) - ((256 ^ w : Nat) : Int)) - 1).toNat
        else ((u : Int) - ((256 ^ w : Nat) : Int)).toNat) = 256 ^ w - 1 - u := by
      rw [if_pos (by omega)]
      omega
    rw [minBytesSigned_eq (by rw [hm]; omega), hm, if_pos (by omega)]
    have hk : ((256 ^ w - 1 - u).size + 7) / 8 ≤ w := bytes_le_of_lt (by omega)
    have hlt := lt_pow_bytes (256 ^ w - 1 - u)
    refine ⟨hk, leValue_leBytes_extend_ff hk hu ?_⟩
    omega

/-! ## Reading what was written -/

theorem readDatum_cons (b : UInt8) (data : List UInt8) :
    readDatum (b :: data) = (Tag.tryFromPrimitive b).bind (readTagged · data) := rfl

@[simp] theorem readDatum_toU8 (t : Tag) (data : List UInt8) :
    readDatum (t.toU8 :: data) = readTagged t data := by
  rw [readDatum_cons, Tag.tryFromPrimitive_toU8, Option.bind_some]

theorem readByteArray_append {n : Nat} {bs : List UInt8} (h : bs.length = n) (rest : List UInt8) :
    readByteArray n (bs ++ rest) = some (bs, rest) := by
  simp [readByteArray, ← h]

theorem splitAt_append (bs rest : List UInt8) : splitAt (bs ++ rest) bs.length = some (bs, rest) := by
  simp [splitAt]

/-- The signed integer's bytes read back, sign-extended, as its bits. -/
theorem readByteArraySignExtending_signed {w u : Nat} {v : Int} (hw : w ≤ 8) (hu : u < 256 ^ w)
    (hv : v = if 2 * u < 256 ^ w then (u : Int) else (u : Int) - ((256 ^ w : Nat) : Int))
    (rest : List UInt8) :
    ∃ bs, readByteArraySignExtending w (if v < 0 then 255 else 0)
        ((leBytes u w).take (minBytesSigned v) ++ rest) (minBytesSigned v) = some (bs, rest) ∧
      leValue bs = u := by
  obtain ⟨hk, hval⟩ := minBytesSigned_extend hw hu hv
  refine ⟨_, ?_, hval⟩
  rw [take_leBytes _ hk, readByteArraySignExtending]
  simp [hk]

/-- The unsigned integer's bytes read back, zero-extended, as itself. -/
theorem readByteArraySignExtending_unsigned {w u : Nat} (hw : w ≤ 8) (hu : u < 256 ^ w)
    (rest : List UInt8) :
    ∃ bs, readByteArraySignExtending w 0
        ((leBytes u w).take (minBytesUnsigned u) ++ rest) (minBytesUnsigned u) = some (bs, rest) ∧
      leValue bs = u := by
  obtain ⟨hk, hval⟩ := minBytesUnsigned_extend hw hu
  refine ⟨_, ?_, hval⟩
  rw [take_leBytes _ hk, readByteArraySignExtending]
  simp [hk]

/-- A signed integer written by `push_datum` reads back as its bits, for a tag group that reads
the bytes its tags count, extended with the sign, as the datum `mk` makes of them. -/
theorem readDatum_pushSigned {negative nonNegative : Tag} {w : Nat} (mk : Nat → Datum) (hw : w ≤ 8)
    (hgroup : ∀ k ≤ w, ∀ (p : Prop) [Decidable p] (data : List UInt8),
      readDatum (((if p then negative else nonNegative).toU8 + UInt8.ofNat k) :: data) =
        (readByteArraySignExtending w (if p then 255 else 0) data k).bind
          fun (bs, data) => some (mk (leValue bs), data))
    {u : Nat} {v : Int} (hu : u < 256 ^ w)
    (hv : v = if 2 * u < 256 ^ w then (u : Int) else (u : Int) - ((256 ^ w : Nat) : Int))
    (rest : List UInt8) :
    readDatum (pushSigned negative nonNegative w v u ++ rest) = some (mk u, rest) := by
  obtain ⟨bs, hread, hbs⟩ := readByteArraySignExtending_signed hw hu hv rest
  rw [pushSigned, List.cons_append, hgroup _ (minBytesSigned_extend hw hu hv).1, hread,
    Option.bind_some]
  dsimp only
  rw [hbs]

/-- An unsigned integer written by `push_datum` reads back as itself, for a tag group that reads
the bytes its tags count, zero-extended, as the datum `mk` makes of them. -/
theorem readDatum_pushUnsigned {zero : Tag} {w : Nat} (mk : Nat → Datum) (hw : w ≤ 8)
    (hgroup : ∀ k ≤ w, ∀ data : List UInt8,
      readDatum ((zero.toU8 + UInt8.ofNat k) :: data) =
        (readByteArraySignExtending w 0 data k).bind fun (bs, data) => some (mk (leValue bs), data))
    {u : Nat} (hu : u < 256 ^ w) (rest : List UInt8) :
    readDatum (pushUnsigned zero w u ++ rest) = some (mk u, rest) := by
  obtain ⟨bs, hread, hbs⟩ := readByteArraySignExtending_unsigned hw hu rest
  rw [pushUnsigned, List.cons_append, hgroup _ (minBytesUnsigned_extend hw hu).1, hread,
    Option.bind_some]
  dsimp only
  rw [hbs]

/-! ### The tag groups of the integers

The tag `push_datum` writes for an integer is the group's first tag moved up by the bytes kept;
`read_datum` maps each such tag back to its group and `actual_int_length` to the bytes. -/

theorem readDatum_int16 {k : Nat} (hk : k ≤ 2) (p : Prop) [Decidable p] (data : List UInt8) :
    readDatum (((if p then Tag.negativeInt16_0 else .nonNegativeInt16_0).toU8 + UInt8.ofNat k) ::
      data) = (readByteArraySignExtending 2 (if p then 255 else 0) data k).bind
        fun (bs, data) => some (.int16 (Int16.ofNat (leValue bs)), data) := by
  split_ifs <;> interval_cases k <;> rfl

theorem readDatum_int32 {k : Nat} (hk : k ≤ 4) (p : Prop) [Decidable p] (data : List UInt8) :
    readDatum (((if p then Tag.negativeInt32_0 else .nonNegativeInt32_0).toU8 + UInt8.ofNat k) ::
      data) = (readByteArraySignExtending 4 (if p then 255 else 0) data k).bind
        fun (bs, data) => some (.int32 (Int32.ofNat (leValue bs)), data) := by
  split_ifs <;> interval_cases k <;> rfl

theorem readDatum_int64 {k : Nat} (hk : k ≤ 8) (p : Prop) [Decidable p] (data : List UInt8) :
    readDatum (((if p then Tag.negativeInt64_0 else .nonNegativeInt64_0).toU8 + UInt8.ofNat k) ::
      data) = (readByteArraySignExtending 8 (if p then 255 else 0) data k).bind
        fun (bs, data) => some (.int64 (Int64.ofNat (leValue bs)), data) := by
  split_ifs <;> interval_cases k <;> rfl

theorem readDatum_uInt8 {k : Nat} (hk : k ≤ 1) (data : List UInt8) :
    readDatum ((Tag.uInt8_0.toU8 + UInt8.ofNat k) :: data) =
      (readByteArraySignExtending 1 0 data k).bind
        fun (bs, data) => some (.uInt8 (UInt8.ofNat (leValue bs)), data) := by
  interval_cases k <;> rfl

theorem readDatum_uInt16 {k : Nat} (hk : k ≤ 2) (data : List UInt8) :
    readDatum ((Tag.uInt16_0.toU8 + UInt8.ofNat k) :: data) =
      (readByteArraySignExtending 2 0 data k).bind
        fun (bs, data) => some (.uInt16 (UInt16.ofNat (leValue bs)), data) := by
  interval_cases k <;> rfl

theorem readDatum_uInt32 {k : Nat} (hk : k ≤ 4) (data : List UInt8) :
    readDatum ((Tag.uInt32_0.toU8 + UInt8.ofNat k) :: data) =
      (readByteArraySignExtending 4 0 data k).bind
        fun (bs, data) => some (.uInt32 (UInt32.ofNat (leValue bs)), data) := by
  interval_cases k <;> rfl

theorem readDatum_uInt64 {k : Nat} (hk : k ≤ 8) (data : List UInt8) :
    readDatum ((Tag.uInt64_0.toU8 + UInt8.ofNat k) :: data) =
      (readByteArraySignExtending 8 0 data k).bind
        fun (bs, data) => some (.uInt64 (UInt64.ofNat (leValue bs)), data) := by
  interval_cases k <;> rfl

/-! ### Fixed-width payloads -/

theorem readDatum_float32 (bits : UInt32) (rest : List UInt8) :
    readDatum (Tag.float32.toU8 :: leBytes bits.toNat 4 ++ rest) = some (.float32 bits, rest) := by
  have hlt : bits.toNat < 256 ^ 4 := lt_of_lt_of_eq bits.toNat_lt (by norm_num)
  have hread : ∀ data, readDatum (Tag.float32.toU8 :: data) = (readByteArray 4 data).bind
      fun (bs, data) => some (.float32 (UInt32.ofNat (leValue bs)), data) := fun _ => rfl
  rw [List.cons_append, hread, readByteArray_append (length_leBytes _ _), Option.bind_some]
  dsimp only
  rw [leValue_leBytes, Nat.mod_eq_of_lt hlt, UInt32.ofNat_toNat]

theorem readDatum_float64 (bits : UInt64) (rest : List UInt8) :
    readDatum (Tag.float64.toU8 :: leBytes bits.toNat 8 ++ rest) = some (.float64 bits, rest) := by
  have hlt : bits.toNat < 256 ^ 8 := lt_of_lt_of_eq bits.toNat_lt (by norm_num)
  have hread : ∀ data, readDatum (Tag.float64.toU8 :: data) = (readByteArray 8 data).bind
      fun (bs, data) => some (.float64 (UInt64.ofNat (leValue bs)), data) := fun _ => rfl
  rw [List.cons_append, hread, readByteArray_append (length_leBytes _ _), Option.bind_some]
  dsimp only
  rw [leValue_leBytes, Nat.mod_eq_of_lt hlt, UInt64.ofNat_toNat]

/-! ### Byte strings -/

/-- The low `j` bytes of a length below `256 ^ j` read back, as a `j`-byte integer, as the length. -/
theorem readByteArray_length {n j : Nat} (hj : j ≤ 8) (hn : n < 256 ^ j) (data : List UInt8) :
    (readByteArray j ((leBytes n 8).take j ++ data)).map (fun (bs, data) => (leValue bs, data)) =
      some (n, data) := by
  rw [take_leBytes _ hj, readByteArray_append (length_leBytes _ _)]
  simp [leValue_leBytes, Nat.mod_eq_of_lt hn]

/-- `read_byte` is the one-byte read of `read_byte_array`. -/
theorem readByte_eq_readByteArray (data : List UInt8) :
    (readByte data).map (fun (b, data) => (b.toNat, data)) =
      (readByteArray 1 data).map (fun (bs, data) => (leValue bs, data)) := by
  cases data <;> simp [readByte, readByteArray]

/-- The four tags of one kind of byte string (`Tiny`, `Short`, `Long`, `Huge`), each with the
bytes of the length it writes and reads. -/
def LengthedKind (tiny short long huge : Tag) (mk : List UInt8 → Datum) : Prop :=
  ∀ j t, (j, t) ∈ [(1, tiny), (2, short), (4, long), (8, huge)] →
    (∀ b, pushLengthedBytes b t = some ((leBytes b.length 8).take j ++ b)) ∧
    ∀ data, readDatum (t.toU8 :: data) =
      ((readByteArray j data).map fun (bs, data) => (leValue bs, data)).bind
        fun (len, data) => (splitAt data len).bind fun (bytes, data) => some (mk bytes, data)

/-- The tag `push_datum` picks for a length has a width that holds it. -/
theorem lengthTag_width (tiny short long huge : Tag) {n : Nat} (hn : n < 2 ^ 64) :
    ∃ j, (j, lengthTag tiny short long huge n) ∈ [(1, tiny), (2, short), (4, long), (8, huge)] ∧
      j ≤ 8 ∧ n < 256 ^ j := by
  unfold lengthTag TINY SHORT LONG
  split_ifs with h1 h2 h3
  · exact ⟨1, by simp, by norm_num, by simpa using h1⟩
  · exact ⟨2, by simp, by norm_num, by simpa using h2⟩
  · exact ⟨4, by simp, by norm_num, by simpa using h3⟩
  · exact ⟨8, by simp, by norm_num, by simpa using hn⟩

/-- A byte string of any of the kinds reads back as itself, its length first. -/
theorem readDatum_pushLengthed {tiny short long huge : Tag} {mk : List UInt8 → Datum}
    (hkind : LengthedKind tiny short long huge mk) {b : List UInt8} (hb : b.length < 2 ^ 64) :
    ∃ bytes, (pushLengthedBytes b (lengthTag tiny short long huge b.length)).map
        ((lengthTag tiny short long huge b.length).toU8 :: ·) = some bytes ∧
      ∀ rest, readDatum (bytes ++ rest) = some (mk b, rest) := by
  obtain ⟨j, hmem, hj, hlt⟩ := lengthTag_width tiny short long huge hb
  obtain ⟨hpush, hread⟩ := hkind j _ hmem
  rw [hpush]
  refine ⟨_, rfl, fun rest => ?_⟩
  rw [List.cons_append, hread, List.append_assoc, readByteArray_length hj hlt, Option.bind_some]
  dsimp only
  rw [splitAt_append]
  rfl

theorem lengthedKind_bytes : LengthedKind .bytesTiny .bytesShort .bytesLong .bytesHuge .bytes := by
  intro j t hmem
  simp only [List.mem_cons, Prod.mk.injEq, List.not_mem_nil, or_false] at hmem
  rcases hmem with ⟨rfl, rfl⟩ | ⟨rfl, rfl⟩ | ⟨rfl, rfl⟩ | ⟨rfl, rfl⟩
  · exact ⟨fun _ => rfl, fun data => by rw [← readByte_eq_readByteArray]; rfl⟩
  all_goals exact ⟨fun _ => rfl, fun _ => rfl⟩

theorem lengthedKind_string :
    LengthedKind .stringTiny .stringShort .stringLong .stringHuge .string := by
  intro j t hmem
  simp only [List.mem_cons, Prod.mk.injEq, List.not_mem_nil, or_false] at hmem
  rcases hmem with ⟨rfl, rfl⟩ | ⟨rfl, rfl⟩ | ⟨rfl, rfl⟩ | ⟨rfl, rfl⟩
  · exact ⟨fun _ => rfl, fun data => by rw [← readByte_eq_readByteArray]; rfl⟩
  all_goals exact ⟨fun _ => rfl, fun _ => rfl⟩

theorem lengthedKind_list : LengthedKind .listTiny .listShort .listLong .listHuge .list := by
  intro j t hmem
  simp only [List.mem_cons, Prod.mk.injEq, List.not_mem_nil, or_false] at hmem
  rcases hmem with ⟨rfl, rfl⟩ | ⟨rfl, rfl⟩ | ⟨rfl, rfl⟩ | ⟨rfl, rfl⟩
  · exact ⟨fun _ => rfl, fun data => by rw [← readByte_eq_readByteArray]; rfl⟩
  all_goals exact ⟨fun _ => rfl, fun _ => rfl⟩

theorem readDatum_pushDatum_map {data : List UInt8} (hd : data.length < 2 ^ 64) (rest : List UInt8) :
    readDatum (Tag.dict.toU8 :: pushUntaggedBytes data ++ rest) = some (.map data, rest) := by
  have hlt : data.length < 256 ^ 8 := lt_of_lt_of_eq hd (by norm_num)
  have hread : ∀ bytes, readDatum (Tag.dict.toU8 :: bytes) =
      (readUntaggedBytes bytes).bind fun (bytes, data) => some (.map bytes, data) := fun _ => rfl
  rw [List.cons_append, hread, pushUntaggedBytes, readUntaggedBytes, List.append_assoc,
    readByteArray_append (length_leBytes _ _)]
  simp only [Option.bind_eq_bind, Option.bind_some]
  rw [leValue_leBytes, Nat.mod_eq_of_lt hlt, splitAt_append]
  rfl

/-! ### Every datum -/

theorem ofNat_bits_int16 (i : Int16) : Int16.ofNat i.toBitVec.toNat = i :=
  Int16.toBitVec_inj.1 (by simp)

theorem toInt_int16 (i : Int16) : i.toInt = if 2 * i.toBitVec.toNat < 256 ^ 2 then
    (i.toBitVec.toNat : Int) else (i.toBitVec.toNat : Int) - ((256 ^ 2 : Nat) : Int) :=
  BitVec.toInt_eq_toNat_cond i.toBitVec

theorem ofNat_bits_int32 (i : Int32) : Int32.ofNat i.toBitVec.toNat = i :=
  Int32.toBitVec_inj.1 (by simp)

theorem toInt_int32 (i : Int32) : i.toInt = if 2 * i.toBitVec.toNat < 256 ^ 4 then
    (i.toBitVec.toNat : Int) else (i.toBitVec.toNat : Int) - ((256 ^ 4 : Nat) : Int) :=
  BitVec.toInt_eq_toNat_cond i.toBitVec

theorem ofNat_bits_int64 (i : Int64) : Int64.ofNat i.toBitVec.toNat = i :=
  Int64.toBitVec_inj.1 (by simp)

theorem toInt_int64 (i : Int64) : i.toInt = if 2 * i.toBitVec.toNat < 256 ^ 8 then
    (i.toBitVec.toNat : Int) else (i.toBitVec.toNat : Int) - ((256 ^ 8 : Nat) : Int) :=
  BitVec.toInt_eq_toNat_cond i.toBitVec

/-- Every datum is written, and reads back as itself, consuming exactly the bytes written. -/
theorem readDatum_pushDatum (d : Datum) (hd : d.Fits) :
    ∃ bytes, pushDatum d = some bytes ∧ ∀ rest, readDatum (bytes ++ rest) = some (d, rest) := by
  cases d with
  | int16 i =>
    refine ⟨_, rfl, fun rest => ?_⟩
    rw [readDatum_pushSigned (fun u => .int16 (Int16.ofNat u)) (by norm_num)
      (fun _ hk => readDatum_int16 hk) (lt_of_lt_of_eq i.toBitVec.isLt (by norm_num)) (toInt_int16 i),
      ofNat_bits_int16]
  | int32 i =>
    refine ⟨_, rfl, fun rest => ?_⟩
    rw [readDatum_pushSigned (fun u => .int32 (Int32.ofNat u)) (by norm_num)
      (fun _ hk => readDatum_int32 hk) (lt_of_lt_of_eq i.toBitVec.isLt (by norm_num)) (toInt_int32 i),
      ofNat_bits_int32]
  | int64 i =>
    refine ⟨_, rfl, fun rest => ?_⟩
    rw [readDatum_pushSigned (fun u => .int64 (Int64.ofNat u)) (by norm_num)
      (fun _ hk => readDatum_int64 hk) (lt_of_lt_of_eq i.toBitVec.isLt (by norm_num)) (toInt_int64 i),
      ofNat_bits_int64]
  | uInt8 i =>
    refine ⟨_, rfl, fun rest => ?_⟩
    rw [readDatum_pushUnsigned (fun u => .uInt8 (UInt8.ofNat u)) (by norm_num)
      (fun _ hk => readDatum_uInt8 hk) (lt_of_lt_of_eq i.toNat_lt (by norm_num)), UInt8.ofNat_toNat]
  | uInt16 i =>
    refine ⟨_, rfl, fun rest => ?_⟩
    rw [readDatum_pushUnsigned (fun u => .uInt16 (UInt16.ofNat u)) (by norm_num)
      (fun _ hk => readDatum_uInt16 hk) (lt_of_lt_of_eq i.toNat_lt (by norm_num)), UInt16.ofNat_toNat]
  | uInt32 i =>
    refine ⟨_, rfl, fun rest => ?_⟩
    rw [readDatum_pushUnsigned (fun u => .uInt32 (UInt32.ofNat u)) (by norm_num)
      (fun _ hk => readDatum_uInt32 hk) (lt_of_lt_of_eq i.toNat_lt (by norm_num)), UInt32.ofNat_toNat]
  | uInt64 i =>
    refine ⟨_, rfl, fun rest => ?_⟩
    rw [readDatum_pushUnsigned (fun u => .uInt64 (UInt64.ofNat u)) (by norm_num)
      (fun _ hk => readDatum_uInt64 hk) (lt_of_lt_of_eq i.toNat_lt (by norm_num)), UInt64.ofNat_toNat]
  | float32 bits => exact ⟨_, rfl, readDatum_float32 bits⟩
  | float64 bits => exact ⟨_, rfl, readDatum_float64 bits⟩
  | bytes b => exact readDatum_pushLengthed lengthedKind_bytes hd
  | string s => exact readDatum_pushLengthed lengthedKind_string hd
  | list data => exact readDatum_pushLengthed lengthedKind_list hd
  | map data => exact ⟨_, rfl, readDatum_pushDatum_map hd⟩
  | null | «false» | «true» | jsonNull | dummy => exact ⟨_, rfl, fun _ => rfl⟩

/-! ## A row reads back as its datums -/

/-- `push_datum` writes at least the tag. -/
theorem pushDatum_ne_nil {d : Datum} {bytes : List UInt8} (h : pushDatum d = some bytes) :
    bytes ≠ [] := by
  cases d <;> simp only [pushDatum, Option.some.injEq, Option.map_eq_some_iff] at h
  all_goals first
    | (subst h; exact List.cons_ne_nil _ _)
    | (obtain ⟨_, -, rfl⟩ := h; exact List.cons_ne_nil _ _)

/-- Datums that fit are written one after another and read back in order, with as many steps as
there are bytes. -/
theorem unpackFuel_pack {ds : List Datum} (hds : ∀ d ∈ ds, d.Fits) :
    ∃ bytes, pack ds = some bytes ∧ ∀ fuel, bytes.length ≤ fuel → unpackFuel fuel bytes = some ds := by
  induction ds with
  | nil => exact ⟨[], rfl, fun fuel _ => by cases fuel <;> rfl⟩
  | cons d ds ih =>
    obtain ⟨b, hpush, hread⟩ := readDatum_pushDatum d (hds d (by simp))
    obtain ⟨bs, hpack, hunpack⟩ := ih fun d' hd' => hds d' (by simp [hd'])
    refine ⟨b ++ bs, by simp [pack, hpush, hpack], fun fuel hfuel => ?_⟩
    obtain ⟨x, y, hxy⟩ := List.exists_cons_of_ne_nil (List.append_ne_nil_of_left_ne_nil (pushDatum_ne_nil hpush) bs)
    have hb : 1 ≤ b.length := List.length_pos_iff.2 (pushDatum_ne_nil hpush)
    obtain ⟨f, rfl⟩ : ∃ f, fuel = f + 1 := ⟨fuel - 1, by simp at hfuel; omega⟩
    rw [hxy, unpackFuel, ← hxy, hread, Option.bind_eq_bind, Option.bind_some]
    dsimp only
    rw [hunpack f (by simp at hfuel; omega), Option.map_some]

/-- A row of datums that fit reads back as those datums. -/
theorem unpack_pack {ds : List Datum} (hds : ∀ d ∈ ds, d.Fits) :
    ∃ bytes, pack ds = some bytes ∧ unpack bytes = some ds := by
  obtain ⟨bytes, hpack, hunpack⟩ := unpackFuel_pack hds
  exact ⟨bytes, hpack, hunpack _ le_rfl⟩

/-- Rows of datums that fit are the same bytes only for the same datums. -/
theorem pack_injective {a b : List Datum} (ha : ∀ d ∈ a, d.Fits) (hb : ∀ d ∈ b, d.Fits)
    (h : pack a = pack b) : a = b := by
  obtain ⟨x, hx, hxa⟩ := unpack_pack ha
  obtain ⟨y, hy, hyb⟩ := unpack_pack hb
  have hxy : x = y := Option.some.inj (hx.symm.trans (h.trans hy))
  rw [hxy] at hxa
  exact Option.some.inj (hxa.symm.trans hyb)

/-! ## The encoding is not canonical for equality -/

/-- `-0.0` and `0.0` are equal `f64` datums under `OrderedFloat`'s equality, but `push_datum`
writes their bits, so the rows that hold them differ. -/
theorem float_zero_eq_pack_ne :
    Datum.eq (.float64 0x8000000000000000) (.float64 0) = true ∧
      pack [.float64 0x8000000000000000] ≠ pack [.float64 0] := by
  decide

end Materialize.Row
