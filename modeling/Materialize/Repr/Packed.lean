import Mathlib
import Materialize.Lib.Bytes
import Materialize.Lib.Signed
import Materialize.Repr.Interval
import Materialize.Repr.Fallible

/-!
# Packed fixed-size codecs

The `FixedSizeCodec`s through which persist stores intervals, timestamps, times, ACL items and
array dimensions in fixed-size binary columns (`repr/src/adt/interval.rs`, `timestamp.rs`,
`datetime.rs`, `mz_acl_item.rs`, `array.rs`). Each writes the fields of a value big-endian in
the order of the type's derived `Ord`, a signed field in its biased form (its pattern with the top
bit flipped), so that comparing the bytes compares the values, and `preserves_order` can say so.

* `from_bytes` is the same length check in every codec (`FixedSizeCodec.fromBytes`).
* Every codec decodes what it encodes (the `_roundTrip` lemmas), the ACL item only where its mode
  has no bits beyond the flags that `AclMode` declares: `AclMode::from_proto` keeps any bits, and
  `PackedAclItem::into_value` then panics.
* Every codec's bytes compare as its values do (the `_compare` lemmas).

`chrono`'s `NaiveDate` and `NaiveTime` are modelled by what the codecs read of them: a year and a
day of that year, and the seconds from midnight and a fraction in nanoseconds, each in the range
`chrono` keeps.
-/

namespace Materialize.Adt

open Bytes Signed Row

/-! ## Codecs -/

/-- `FixedSizeCodec<T>`: a value as `SIZE` bytes and back, `into_value` being `none` where it
panics. -/
structure FixedSizeCodec (T : Type) where
  name : String
  SIZE : Nat
  fromValue : T → List UInt8
  intoValue : List UInt8 → Option T

namespace FixedSizeCodec

variable {T : Type}

/-- `from_bytes`: the slice as the packed array, where it has `SIZE` bytes. -/
def fromBytes (c : FixedSizeCodec T) (slice : List UInt8) : Except String (List UInt8) :=
  if slice.length = c.SIZE then .ok slice
  else .error ("size for " ++ c.name ++ " is " ++ toString c.SIZE ++ " bytes, got " ++
    toString slice.length)

/-- `into_value(from_bytes(as_bytes(from_value(v))))`. -/
def roundTrip (c : FixedSizeCodec T) (v : T) : Except String (Option T) :=
  (c.fromBytes (c.fromValue v)).map c.intoValue

/-- An encoding of `SIZE` bytes passes the length check, and the round trip is the decode of the
encoding. -/
theorem roundTrip_eq (c : FixedSizeCodec T) {v : T} (hlen : (c.fromValue v).length = c.SIZE) :
    c.roundTrip v = .ok (c.intoValue (c.fromValue v)) := by
  rw [roundTrip, fromBytes, if_pos hlen]
  rfl

end FixedSizeCodec

/-! ## Fields

A field of `k` bytes is read back from the front of the bytes that follow it, and compares as its
value; a signed field is written in its biased form. -/

theorem take_beBytes_append (a k : Nat) (rest : List UInt8) :
    (beBytes a k ++ rest).take k = beBytes a k :=
  List.take_left' (length_beBytes a k)

theorem drop_beBytes_append (a k : Nat) (rest : List UInt8) :
    (beBytes a k ++ rest).drop k = rest :=
  List.drop_left' (length_beBytes a k)

theorem drop_beBytes_append_of_le {a k n : Nat} (rest : List UInt8) (h : k ≤ n) :
    (beBytes a k ++ rest).drop n = rest.drop (n - k) := by
  rw [List.drop_append, List.drop_eq_nil_of_le (by simp [h]), length_beBytes, List.nil_append]

/-- The flipped top bits of an `i32` and an `i64`. -/
theorem bias32 : (0x8000_0000 : Nat) = 2 ^ (32 - 1) := rfl

theorem bias64 : (0x8000_0000_0000_0000 : Nat) = 2 ^ (64 - 1) := rfl

/-- An unsigned field reads back as itself. -/
theorem beValue_beBytes_of_lt {a k : Nat} (h : a < 256 ^ k) : beValue (beBytes a k) = a := by
  rw [beValue_beBytes, Nat.mod_eq_of_lt h]

/-- A signed field, written in its biased form, reads back as itself. -/
theorem ofBits_biased (w k : Nat) (hw : 0 < w) (hk : 2 ^ w = 256 ^ k) (a : SInt w) :
    SInt.ofBits (beValue (beBytes (a.toBits ^^^ 2 ^ (w - 1)) k) ^^^ 2 ^ (w - 1)) = a := by
  rw [beValue_beBytes_of_lt (hk ▸ SInt.toBits_xor_lt hw a), Nat.xor_assoc, Nat.xor_self,
    Nat.xor_zero, SInt.ofBits_toBits hw]

/-- Signed fields in their biased forms compare as the values. -/
theorem compare_biased (w k : Nat) (hw : 0 < w) (hk : 2 ^ w = 256 ^ k) (a b : SInt w) :
    compare (beBytes (a.toBits ^^^ 2 ^ (w - 1)) k) (beBytes (b.toBits ^^^ 2 ^ (w - 1)) k) =
      compare a.val b.val := by
  rw [compare_beBytes (hk ▸ SInt.toBits_xor_lt hw a) (hk ▸ SInt.toBits_xor_lt hw b),
    SInt.compare_toBits_xor hw]

/-- An `u32` and an `u64` fill their fields. -/
theorem uInt32_toNat_lt (x : UInt32) : x.toNat < 256 ^ 4 := by simpa using x.toNat_lt

theorem uInt64_toNat_lt (x : UInt64) : x.toNat < 256 ^ 8 := by simpa using x.toNat_lt

/-! ## Intervals -/

/-- The derived `Ord` of `Interval`: by the months, then the days, then the microseconds. -/
def Interval.cmp (a b : Interval) : Ordering :=
  (compare a.months.val b.months.val).then
    ((compare a.days.val b.days.val).then (compare a.micros.val b.micros.val))

/-- `PackedInterval::from_value`. -/
def PackedInterval.fromValue (v : Interval) : List UInt8 :=
  beBytes (v.months.toBits ^^^ 0x8000_0000) 4 ++ beBytes (v.days.toBits ^^^ 0x8000_0000) 4 ++
    beBytes (v.micros.toBits ^^^ 0x8000_0000_0000_0000) 8

/-- `PackedInterval::into_value`. -/
def PackedInterval.intoValue (b : List UInt8) : Interval :=
  ⟨.ofBits (beValue (b.take 4) ^^^ 0x8000_0000),
    .ofBits (beValue ((b.drop 4).take 4) ^^^ 0x8000_0000),
    .ofBits (beValue (b.drop 8) ^^^ 0x8000_0000_0000_0000)⟩

/-- `PackedInterval`. -/
def PackedInterval : FixedSizeCodec Interval :=
  ⟨"PackedInterval", 16, PackedInterval.fromValue, fun b => some (PackedInterval.intoValue b)⟩

/-- An interval reads back from its fields. -/
theorem PackedInterval.intoValue_fromValue (v : Interval) :
    PackedInterval.intoValue (PackedInterval.fromValue v) = v := by
  unfold PackedInterval.intoValue PackedInterval.fromValue
  rw [List.append_assoc, take_beBytes_append, drop_beBytes_append, take_beBytes_append,
    drop_beBytes_append_of_le _ (by norm_num : 4 ≤ 8), drop_beBytes_append, bias32, bias64,
    ofBits_biased 32 4 (by norm_num) (by norm_num), ofBits_biased 32 4 (by norm_num) (by norm_num),
    ofBits_biased 64 8 (by norm_num) (by norm_num)]

theorem PackedInterval_roundTrip (v : Interval) : PackedInterval.roundTrip v = .ok (some v) := by
  rw [FixedSizeCodec.roundTrip_eq _ (by simp [PackedInterval, PackedInterval.fromValue])]
  exact congrArg (Except.ok ∘ some) (PackedInterval.intoValue_fromValue v)

theorem PackedInterval_compare (a b : Interval) :
    compare (PackedInterval.fromValue a) (PackedInterval.fromValue b) = a.cmp b := by
  unfold PackedInterval.fromValue Interval.cmp
  rw [compare_append_of_length_eq (by simp), compare_append_of_length_eq (by simp), bias32,
    bias64, compare_biased 32 4 (by norm_num) (by norm_num),
    compare_biased 32 4 (by norm_num) (by norm_num),
    compare_biased 64 8 (by norm_num) (by norm_num), Ordering.then_assoc]

/-! ## Dates and times -/

/-- The years `chrono` represents, `MIN_YEAR` to `MAX_YEAR`. -/
def MIN_YEAR : Int := -262_143

def MAX_YEAR : Int := 262_142

/-- A leap year of the proleptic Gregorian calendar. -/
def isLeapYear (year : Int) : Bool :=
  year % 4 == 0 && (year % 100 != 0 || year % 400 == 0)

/-- The number of days of the year. -/
def daysInYear (year : Int) : Nat := if isLeapYear year then 366 else 365

/-- `chrono::NaiveDate`: an `i32` year in `chrono`'s range and a day of that year. -/
structure NaiveDate where
  year : SInt 32
  ordinal : Nat
  year_mem : MIN_YEAR ≤ year.val ∧ year.val ≤ MAX_YEAR
  ordinal_mem : 1 ≤ ordinal ∧ ordinal ≤ daysInYear year.val
  deriving DecidableEq

/-- `NaiveDate::from_yo_opt`: `none` for a year or a day of the year out of range. -/
def NaiveDate.fromYoOpt (year : SInt 32) (ordinal : Nat) : Option NaiveDate :=
  if h : (MIN_YEAR ≤ year.val ∧ year.val ≤ MAX_YEAR) ∧
      (1 ≤ ordinal ∧ ordinal ≤ daysInYear year.val) then
    some ⟨year, ordinal, h.1, h.2⟩
  else none

/-- `chrono::NaiveTime`: the seconds from midnight and a fraction in nanoseconds. The fraction is
a second or more only in a leap second, which ends a minute. -/
structure NaiveTime where
  secs : Nat
  frac : Nat
  secs_lt : secs < 86_400
  frac_lt : frac < 2_000_000_000
  leap : 1_000_000_000 ≤ frac → secs % 60 = 59
  deriving DecidableEq

/-- `NaiveTime::from_num_seconds_from_midnight_opt`. -/
def NaiveTime.fromNumSecondsFromMidnightOpt (secs nano : Nat) : Option NaiveTime :=
  if h : secs < 86_400 ∧ nano < 2_000_000_000 ∧ (1_000_000_000 ≤ nano → secs % 60 = 59) then
    some ⟨secs, nano, h.1, h.2.1, h.2.2⟩
  else none

/-- `chrono::NaiveDateTime`. -/
structure NaiveDateTime where
  date : NaiveDate
  time : NaiveTime
  deriving DecidableEq

/-- The `Ord` of `NaiveDate`, derived on its packed `yof` (the year, then the day of the year,
then flags the year fixes): by the year, then the day. -/
def NaiveDate.cmp (a b : NaiveDate) : Ordering :=
  (compare a.year.val b.year.val).then (compare a.ordinal b.ordinal)

/-- The derived `Ord` of `NaiveTime`: by the seconds, then the fraction. -/
def NaiveTime.cmp (a b : NaiveTime) : Ordering :=
  (compare a.secs b.secs).then (compare a.frac b.frac)

/-- The derived `Ord` of `NaiveDateTime`: by the date, then the time. -/
def NaiveDateTime.cmp (a b : NaiveDateTime) : Ordering :=
  (a.date.cmp b.date).then (a.time.cmp b.time)

/-- `PackedNaiveDateTime::from_value`: the year, the day of the year, the seconds from midnight
and the nanoseconds. -/
def PackedNaiveDateTime.fromValue (v : NaiveDateTime) : List UInt8 :=
  beBytes (v.date.year.toBits ^^^ 0x8000_0000) 4 ++ beBytes v.date.ordinal 4 ++
    beBytes v.time.secs 4 ++ beBytes v.time.frac 4

/-- `PackedNaiveDateTime::into_value`; the `expect`s on the date and the time panic. -/
def PackedNaiveDateTime.intoValue (b : List UInt8) : Option NaiveDateTime := do
  let year := beValue (b.take 4) ^^^ 0x8000_0000
  let ordinal := beValue ((b.drop 4).take 4)
  let secs := beValue ((b.drop 8).take 4)
  let nano := beValue (b.drop 12)
  let date ← NaiveDate.fromYoOpt (.ofBits year) ordinal
  let time ← NaiveTime.fromNumSecondsFromMidnightOpt secs nano
  pure ⟨date, time⟩

/-- `PackedNaiveDateTime`. -/
def PackedNaiveDateTime : FixedSizeCodec NaiveDateTime :=
  ⟨"PackedNaiveDateTime", 16, PackedNaiveDateTime.fromValue, PackedNaiveDateTime.intoValue⟩

/-- `PackedNaiveTime::from_value`. -/
def PackedNaiveTime.fromValue (v : NaiveTime) : List UInt8 :=
  beBytes v.secs 4 ++ beBytes v.frac 4

/-- `PackedNaiveTime::into_value`. -/
def PackedNaiveTime.intoValue (b : List UInt8) : Option NaiveTime :=
  NaiveTime.fromNumSecondsFromMidnightOpt (beValue (b.take 4)) (beValue (b.drop 4))

/-- `PackedNaiveTime`. -/
def PackedNaiveTime : FixedSizeCodec NaiveTime :=
  ⟨"PackedNaiveTime", 8, PackedNaiveTime.fromValue, PackedNaiveTime.intoValue⟩

theorem daysInYear_le (year : Int) : daysInYear year ≤ 366 := by
  unfold daysInYear
  split <;> omega

/-- The day of the year, the seconds and the fraction each fill four bytes. -/
theorem NaiveDate.ordinal_lt (d : NaiveDate) : d.ordinal < 256 ^ 4 := by
  have := d.ordinal_mem.2.trans (daysInYear_le _)
  omega

theorem NaiveTime.secs_lt_field (t : NaiveTime) : t.secs < 256 ^ 4 := by
  have := t.secs_lt
  omega

theorem NaiveTime.frac_lt_field (t : NaiveTime) : t.frac < 256 ^ 4 := by
  have := t.frac_lt
  omega

/-- The constructors give back every value in range. -/
theorem NaiveDate.fromYoOpt_self (d : NaiveDate) :
    NaiveDate.fromYoOpt d.year d.ordinal = some d := by
  rw [NaiveDate.fromYoOpt, dif_pos ⟨d.year_mem, d.ordinal_mem⟩]

theorem NaiveTime.fromNumSecondsFromMidnightOpt_self (t : NaiveTime) :
    NaiveTime.fromNumSecondsFromMidnightOpt t.secs t.frac = some t := by
  rw [NaiveTime.fromNumSecondsFromMidnightOpt, dif_pos ⟨t.secs_lt, t.frac_lt, t.leap⟩]

theorem PackedNaiveDateTime.intoValue_fromValue (v : NaiveDateTime) :
    PackedNaiveDateTime.intoValue (PackedNaiveDateTime.fromValue v) = some v := by
  unfold PackedNaiveDateTime.intoValue PackedNaiveDateTime.fromValue
  simp only [List.append_assoc]
  rw [take_beBytes_append, drop_beBytes_append, take_beBytes_append,
    drop_beBytes_append_of_le _ (by norm_num : 4 ≤ 8), drop_beBytes_append, take_beBytes_append,
    drop_beBytes_append_of_le _ (by norm_num : 4 ≤ 12),
    drop_beBytes_append_of_le _ (by norm_num : 4 ≤ 12 - 4), drop_beBytes_append, bias32,
    ofBits_biased 32 4 (by norm_num) (by norm_num), beValue_beBytes_of_lt v.date.ordinal_lt,
    beValue_beBytes_of_lt v.time.secs_lt_field, beValue_beBytes_of_lt v.time.frac_lt_field,
    NaiveDate.fromYoOpt_self,
    NaiveTime.fromNumSecondsFromMidnightOpt_self]
  rfl

theorem PackedNaiveDateTime_roundTrip (v : NaiveDateTime) :
    PackedNaiveDateTime.roundTrip v = .ok (some v) := by
  rw [FixedSizeCodec.roundTrip_eq _
    (by simp [PackedNaiveDateTime, PackedNaiveDateTime.fromValue])]
  exact congrArg Except.ok (PackedNaiveDateTime.intoValue_fromValue v)

theorem PackedNaiveDateTime_compare (a b : NaiveDateTime) :
    compare (PackedNaiveDateTime.fromValue a) (PackedNaiveDateTime.fromValue b) = a.cmp b := by
  unfold PackedNaiveDateTime.fromValue NaiveDateTime.cmp NaiveDate.cmp NaiveTime.cmp
  rw [compare_append_of_length_eq (by simp), compare_append_of_length_eq (by simp),
    compare_append_of_length_eq (by simp), bias32, compare_biased 32 4 (by norm_num) (by norm_num),
    compare_beBytes a.date.ordinal_lt b.date.ordinal_lt,
    compare_beBytes a.time.secs_lt_field b.time.secs_lt_field,
    compare_beBytes a.time.frac_lt_field b.time.frac_lt_field, Ordering.then_assoc]

theorem PackedNaiveTime.intoValue_fromValue (v : NaiveTime) :
    PackedNaiveTime.intoValue (PackedNaiveTime.fromValue v) = some v := by
  unfold PackedNaiveTime.intoValue PackedNaiveTime.fromValue
  rw [take_beBytes_append, drop_beBytes_append, beValue_beBytes_of_lt v.secs_lt_field,
    beValue_beBytes_of_lt v.frac_lt_field, NaiveTime.fromNumSecondsFromMidnightOpt_self]

theorem PackedNaiveTime_roundTrip (v : NaiveTime) :
    PackedNaiveTime.roundTrip v = .ok (some v) := by
  rw [FixedSizeCodec.roundTrip_eq _ (by simp [PackedNaiveTime, PackedNaiveTime.fromValue])]
  exact congrArg Except.ok (PackedNaiveTime.intoValue_fromValue v)

theorem PackedNaiveTime_compare (a b : NaiveTime) :
    compare (PackedNaiveTime.fromValue a) (PackedNaiveTime.fromValue b) = a.cmp b := by
  unfold PackedNaiveTime.fromValue NaiveTime.cmp
  rw [compare_append_of_length_eq (by simp), compare_beBytes a.secs_lt_field b.secs_lt_field,
    compare_beBytes a.frac_lt_field b.frac_lt_field]

/-! ## ACL items -/

/-- `Oid`. -/
structure Oid where
  val : UInt32
  deriving DecidableEq

/-- `AclMode`, a `bitflags` set of privileges, by its bits. -/
structure AclMode where
  bits : UInt64
  deriving DecidableEq

/-- The bits of the privileges `AclMode` declares (`AclMode::all()`): `INSERT` to `DELETE` at bits
0 to 3, `USAGE` and `CREATE` at 8 and 9, `CREATE_CLUSTER`, `CREATE_DB` and `CREATE_ROLE` at 29 to
31, and `CREATE_NETWORK_POLICY` at 32. -/
def AclMode.all : UInt64 :=
  0x1 ||| 0x2 ||| 0x4 ||| 0x8 ||| 0x100 ||| 0x200 ||| 0x2000_0000 ||| 0x4000_0000 |||
    0x8000_0000 ||| 0x1_0000_0000

/-- `AclMode::from_bits`: `none` where a bit is set that no privilege declares. -/
def AclMode.fromBits (bits : UInt64) : Option AclMode :=
  if bits &&& ~~~AclMode.all = 0 then some ⟨bits⟩ else none

/-- `AclMode::from_proto`, which takes the bits as they are. -/
def AclMode.fromProto (aclMode : UInt64) : AclMode := ⟨aclMode⟩

/-- `AclItem`. -/
structure AclItem where
  grantee : Oid
  grantor : Oid
  aclMode : AclMode
  deriving DecidableEq

/-- `AclItem::from_proto`: an error names the missing field. -/
def AclItem.fromProto (grantee grantor : UInt32) (aclMode : Option UInt64) :
    Except String AclItem :=
  match aclMode with
  | some aclMode => .ok ⟨⟨grantee⟩, ⟨grantor⟩, AclMode.fromProto aclMode⟩
  | none => .error "ProtoMzAclItem::acl_mode"

/-- The derived `Ord` of `AclItem`: by the grantee, the grantor, then the bits of the mode (the
`Ord` that `bitflags` derives). -/
def AclItem.cmp (a b : AclItem) : Ordering :=
  (compare a.grantee.val b.grantee.val).then
    ((compare a.grantor.val b.grantor.val).then (compare a.aclMode.bits b.aclMode.bits))

/-- `PackedAclItem::from_value`. -/
def PackedAclItem.fromValue (v : AclItem) : List UInt8 :=
  beBytes v.grantee.val.toNat 4 ++ beBytes v.grantor.val.toNat 4 ++ beBytes v.aclMode.bits.toNat 8

/-- `PackedAclItem::into_value`; the `expect` on the mode panics. -/
def PackedAclItem.intoValue (b : List UInt8) : Option AclItem := do
  let grantee := beValue (b.take 4)
  let grantor := beValue ((b.drop 4).take 4)
  let aclMode ← AclMode.fromBits (.ofNat (beValue (b.drop 8)))
  pure ⟨⟨.ofNat grantee⟩, ⟨.ofNat grantor⟩, aclMode⟩

/-- `PackedAclItem`. -/
def PackedAclItem : FixedSizeCodec AclItem :=
  ⟨"PackedAclItem", 16, PackedAclItem.fromValue, PackedAclItem.intoValue⟩

theorem PackedAclItem.intoValue_fromValue (v : AclItem) :
    PackedAclItem.intoValue (PackedAclItem.fromValue v) =
      if v.aclMode.bits &&& ~~~AclMode.all = 0 then some v else none := by
  unfold PackedAclItem.intoValue PackedAclItem.fromValue
  simp only [List.append_assoc]
  rw [take_beBytes_append, drop_beBytes_append, take_beBytes_append,
    drop_beBytes_append_of_le _ (by norm_num : 4 ≤ 8), drop_beBytes_append,
    beValue_beBytes_of_lt (uInt32_toNat_lt _), beValue_beBytes_of_lt (uInt32_toNat_lt _),
    beValue_beBytes_of_lt (uInt64_toNat_lt _), UInt32.ofNat_toNat, UInt32.ofNat_toNat,
    UInt64.ofNat_toNat, AclMode.fromBits]
  -- the decode is the item where `from_bits` accepts the mode
  split <;> rfl

/-- An ACL item round-trips exactly when its mode has no bits beyond the declared privileges;
otherwise the decode panics. -/
theorem PackedAclItem_roundTrip (v : AclItem) :
    PackedAclItem.roundTrip v =
      .ok (if v.aclMode.bits &&& ~~~AclMode.all = 0 then some v else none) := by
  rw [FixedSizeCodec.roundTrip_eq _ (by simp [PackedAclItem, PackedAclItem.fromValue])]
  exact congrArg Except.ok (PackedAclItem.intoValue_fromValue v)

theorem PackedAclItem_compare (a b : AclItem) :
    compare (PackedAclItem.fromValue a) (PackedAclItem.fromValue b) = a.cmp b := by
  unfold PackedAclItem.fromValue AclItem.cmp
  rw [compare_append_of_length_eq (by simp), compare_append_of_length_eq (by simp),
    compare_beBytes (uInt32_toNat_lt _) (uInt32_toNat_lt _),
    compare_beBytes (uInt32_toNat_lt _) (uInt32_toNat_lt _),
    compare_beBytes (uInt64_toNat_lt _) (uInt64_toNat_lt _), compare_uInt32, compare_uInt32,
    compare_uInt64, Ordering.then_assoc]

theorem packedAclItem_unknown_privilege :
    AclItem.fromProto 1 2 (some 0x100_0000_0000) = .ok ⟨⟨1⟩, ⟨2⟩, ⟨0x100_0000_0000⟩⟩ ∧
    PackedAclItem.roundTrip ⟨⟨1⟩, ⟨2⟩, ⟨0x100_0000_0000⟩⟩ = .ok none := by
  refine ⟨rfl, ?_⟩
  rw [PackedAclItem_roundTrip, if_neg (by decide)]

/-! ## Array dimensions -/

/-- The derived `Ord` of `ArrayDimension`: by the lower bound, then the length. -/
def ArrayDimension.cmp (a b : Row.ArrayDimension) : Ordering :=
  (compare a.lowerBound.val b.lowerBound.val).then (compare a.length b.length)

/-- `PackedArrayDimension::from_value`. -/
def PackedArrayDimension.fromValue (v : Row.ArrayDimension) : List UInt8 :=
  beBytes (v.lowerBound.toBits ^^^ 0x8000_0000_0000_0000) 8 ++ beBytes v.length.toNat 8

/-- `PackedArrayDimension::into_value`. -/
def PackedArrayDimension.intoValue (b : List UInt8) : Row.ArrayDimension :=
  ⟨.ofBits (beValue (b.take 8) ^^^ 0x8000_0000_0000_0000), .ofNat (beValue (b.drop 8))⟩

/-- `PackedArrayDimension`. -/
def PackedArrayDimension : FixedSizeCodec Row.ArrayDimension :=
  ⟨"PackedArrayDimension", 16, PackedArrayDimension.fromValue,
    fun b => some (PackedArrayDimension.intoValue b)⟩

theorem PackedArrayDimension.intoValue_fromValue (v : ArrayDimension) :
    PackedArrayDimension.intoValue (PackedArrayDimension.fromValue v) = v := by
  unfold PackedArrayDimension.intoValue PackedArrayDimension.fromValue
  rw [take_beBytes_append, drop_beBytes_append, bias64,
    ofBits_biased 64 8 (by norm_num) (by norm_num), beValue_beBytes_of_lt (uInt64_toNat_lt _),
    UInt64.ofNat_toNat]

theorem PackedArrayDimension_roundTrip (v : ArrayDimension) :
    PackedArrayDimension.roundTrip v = .ok (some v) := by
  rw [FixedSizeCodec.roundTrip_eq _
    (by simp [PackedArrayDimension, PackedArrayDimension.fromValue])]
  exact congrArg (Except.ok ∘ some) (PackedArrayDimension.intoValue_fromValue v)

theorem PackedArrayDimension_compare (a b : ArrayDimension) :
    compare (PackedArrayDimension.fromValue a) (PackedArrayDimension.fromValue b) =
      ArrayDimension.cmp a b := by
  unfold PackedArrayDimension.fromValue ArrayDimension.cmp
  rw [compare_append_of_length_eq (by simp), bias64,
    compare_biased 64 8 (by norm_num) (by norm_num),
    compare_beBytes (uInt64_toNat_lt _) (uInt64_toNat_lt _), compare_uInt64]

end Materialize.Adt
