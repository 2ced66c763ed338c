import Mathlib
import Materialize.Persist.MergeRes
import Materialize.Persist.StateDiff

/-!
# The columnar encoding of field diffs

`ProtoStateFieldDiffs` (`persist-client/src/internal/diff.proto`, `state_diff.rs`) holds the diffs
of a persist state in four columns: each diff's field and diff type, and the encoded key and
values of all diffs concatenated in `data_bytes`, with the length of each slice in `data_lens`. A
diff has one slice for its key and one (insert, delete) or two (update) for its values.
`ProtoStateFieldDiffsWriter` writes the columns, `validate` checks a decoded blob, and
`ProtoStateFieldDiffsIter` reads the diffs back, slicing `data_bytes` without checks.

The two directions meet at `layout`, the columns that a list of diffs lays out. The writer writes
the layout of what it is given (`writeFieldDiffs_intoProto`). Every proto that `validate`
accepts, with fields the iterator knows, is the layout of some diffs (`exists_layout`). And the
iterator reads a layout back diff by diff (`ProtoStateFieldDiffsIter.Before.take_eq`): it does
not panic, yields each diff once and then ends, and its slices tile `data_bytes`.

`validate` does not check the fields, and on a field it does not know the iterator returns an
error without moving on, so it returns that error again on every later call
(`iter_unknown_field_repeats`).

What the model fixes:

* A `usize` has 64 bits: `usize::try_from(u64)` always succeeds, and a buffer holds fewer than
  `2 ^ 64` bytes.
* An encoded message is its bytes; how `prost` encodes the keys and values is left out.
* A panic (an index out of range, a slice out of range, an `assert!`) is the failure of `Option`.
-/

namespace Materialize.Persist

/-! ## The proto enums -/

/-- `ProtoStateField`. -/
inductive ProtoStateField
  | deprecatedRollups
  | rollups
  | hostname
  | lastGcReq
  | leasedReaders
  | criticalReaders
  | writers
  | schemas
  | since
  | legacyBatches
  | hollowBatches
  | spineBatches
  | spineMerges
  | activeRollup
  | activeGc
deriving DecidableEq, Repr

/-- The number `diff.proto` gives each field. -/
def ProtoStateField.toI32 : ProtoStateField → Int
  | .deprecatedRollups => 0
  | .rollups => 8
  | .hostname => 7
  | .lastGcReq => 1
  | .leasedReaders => 2
  | .criticalReaders => 6
  | .writers => 3
  | .schemas => 12
  | .since => 4
  | .legacyBatches => 5
  | .hollowBatches => 9
  | .spineBatches => 10
  | .spineMerges => 11
  | .activeRollup => 13
  | .activeGc => 14

/-- `ProtoStateField::try_from(i32)`. -/
def ProtoStateField.tryFrom (v : Int) : Option ProtoStateField :=
  match v with
  | 0 => some .deprecatedRollups
  | 8 => some .rollups
  | 7 => some .hostname
  | 1 => some .lastGcReq
  | 2 => some .leasedReaders
  | 6 => some .criticalReaders
  | 3 => some .writers
  | 12 => some .schemas
  | 4 => some .since
  | 5 => some .legacyBatches
  | 9 => some .hollowBatches
  | 10 => some .spineBatches
  | 11 => some .spineMerges
  | 13 => some .activeRollup
  | 14 => some .activeGc
  | _ => none

/-- `ProtoStateFieldDiffType`. -/
inductive ProtoStateFieldDiffType
  | insert
  | update
  | delete
deriving DecidableEq, Repr

def ProtoStateFieldDiffType.toI32 : ProtoStateFieldDiffType → Int
  | .insert => 0
  | .update => 1
  | .delete => 2

/-- `ProtoStateFieldDiffType::try_from(i32)`. -/
def ProtoStateFieldDiffType.tryFrom (v : Int) : Option ProtoStateFieldDiffType :=
  match v with
  | 0 => some .insert
  | 1 => some .update
  | 2 => some .delete
  | _ => none

@[simp]
theorem ProtoStateField.tryFrom_toI32 (f : ProtoStateField) : tryFrom f.toI32 = some f := by
  cases f <;> rfl

@[simp]
theorem ProtoStateFieldDiffType.tryFrom_toI32 (t : ProtoStateFieldDiffType) :
    tryFrom t.toI32 = some t := by
  cases t <;> rfl

theorem ProtoStateFieldDiffType.toI32_of_tryFrom {v : Int} {t : ProtoStateFieldDiffType}
    (h : tryFrom v = some t) : v = t.toI32 := by
  unfold tryFrom at h
  split at h <;> cases h <;> rfl

/-! ## The columns -/

/-- `ProtoStateFieldDiffs`: the fields and diff types as the `i32`s of the wire, the slice lengths
and the bytes. -/
structure ProtoStateFieldDiffs where
  fields : List Int
  diffTypes : List Int
  dataLens : List UInt64
  dataBytes : List UInt8
deriving DecidableEq, Repr

/-- `ProtoStateFieldDiffs::default()`. -/
def ProtoStateFieldDiffs.default : ProtoStateFieldDiffs := ⟨[], [], [], []⟩

/-- One `checked_add` on `u64`. -/
def checkedAdd (acc : Nat) (len : UInt64) : Option Nat :=
  if acc + len.toNat < 2 ^ 64 then some (acc + len.toNat) else none

/-- The sum of `data_lens` by `try_fold` with `checked_add`: `none` when it overflows. -/
def checkedSum (lens : List UInt64) : Option Nat := lens.foldlM checkedAdd 0

/-- One round of the loop of `validate` over the diff types: one slice for the key, and one or two
for the values. -/
def expectedDataSlicesStep (n : Nat) (diffType : Int) : Except String Nat :=
  match ProtoStateFieldDiffType.tryFrom diffType with
  | some .insert => .ok (n + 1 + 1)
  | some .update => .ok (n + 1 + 2)
  | some .delete => .ok (n + 1 + 1)
  | none => .error ("unknown diff_type " ++ toString diffType)

/-- The data slices the diff types call for. -/
def expectedDataSlices (diffTypes : List Int) : Except String Nat :=
  diffTypes.foldlM expectedDataSlicesStep 0

/-- `ProtoStateFieldDiffs::validate`. -/
def ProtoStateFieldDiffs.validate (self : ProtoStateFieldDiffs) : Except String Unit := do
  if self.fields.length ≠ self.diffTypes.length then
    throw ("fields " ++ toString self.fields.length ++ " and diff_types " ++
      toString self.diffTypes.length ++ " lengths disagree")
  let expected ← expectedDataSlices self.diffTypes
  if expected ≠ self.dataLens.length then
    throw ("expected " ++ toString expected ++ " data slices got " ++
      toString self.dataLens.length)
  match checkedSum self.dataLens with
  | none =>
    throw ("data_lens sum overflows, got " ++ toString self.dataLens.length ++ " lens over " ++
      toString self.dataBytes.length ++ " data bytes")
  | some expectedDataBytes =>
    if expectedDataBytes ≠ self.dataBytes.length then
      throw ("expected " ++ toString expectedDataBytes ++ " data bytes got " ++
        toString self.dataBytes.length)
    pure ()

/-! ## The writer -/

/-- `ProtoStateFieldDiffsWriter`: the bytes written so far, and the other columns. -/
structure ProtoStateFieldDiffsWriter where
  dataBuf : List UInt8
  proto : ProtoStateFieldDiffs

/-- `ProtoStateFieldDiffs::into_writer`: the bytes move into the writer's buffer. -/
def ProtoStateFieldDiffs.intoWriter (self : ProtoStateFieldDiffs) : ProtoStateFieldDiffsWriter :=
  ⟨self.dataBytes, { self with dataBytes := [] }⟩

namespace ProtoStateFieldDiffsWriter

/-- `push_field`. -/
def pushField (self : ProtoStateFieldDiffsWriter) (field : ProtoStateField) :
    ProtoStateFieldDiffsWriter :=
  { self with proto := { self.proto with fields := self.proto.fields ++ [field.toI32] } }

/-- `push_diff_type`. -/
def pushDiffType (self : ProtoStateFieldDiffsWriter) (diffType : ProtoStateFieldDiffType) :
    ProtoStateFieldDiffsWriter :=
  { self with proto := { self.proto with diffTypes := self.proto.diffTypes ++ [diffType.toI32] } }

/-- `encode_proto`: append the message's bytes and record how many were written. -/
def encodeProto (self : ProtoStateFieldDiffsWriter) (msg : List UInt8) :
    ProtoStateFieldDiffsWriter :=
  let lenBefore := self.dataBuf.length
  let dataBuf := self.dataBuf ++ msg
  let writtenLen := dataBuf.length - lenBefore
  { dataBuf, proto := { self.proto with dataLens := self.proto.dataLens ++ [writtenLen.toUInt64] } }

theorem encodeProto_eq (self : ProtoStateFieldDiffsWriter) (msg : List UInt8) :
    self.encodeProto msg = ⟨self.dataBuf ++ msg,
      { self.proto with dataLens := self.proto.dataLens ++ [msg.length.toUInt64] }⟩ := by
  simp [encodeProto]

/-- `into_proto`: a panic if the proto's own bytes are not empty. -/
def intoProto (self : ProtoStateFieldDiffsWriter) : Option ProtoStateFieldDiffs :=
  if self.proto.dataBytes.isEmpty then some { self.proto with dataBytes := self.dataBuf } else none

end ProtoStateFieldDiffsWriter

/-- A diff as the writer is given it: the field, and the diff of encoded key and values. -/
abbrev FieldDiff := ProtoStateField × StateFieldDiff (List UInt8) (List UInt8)

/-- `field_diff_into_proto` (`encoding.rs`). -/
def fieldDiffIntoProto (field : ProtoStateField) (diff : StateFieldDiff (List UInt8) (List UInt8))
    (writer : ProtoStateFieldDiffsWriter) : ProtoStateFieldDiffsWriter :=
  let writer := (writer.pushField field).encodeProto diff.key
  match diff.val with
  | .insert toVal => (writer.pushDiffType .insert).encodeProto toVal
  | .update fromVal toVal => ((writer.pushDiffType .update).encodeProto fromVal).encodeProto toVal
  | .delete fromVal => (writer.pushDiffType .delete).encodeProto fromVal

/-- `field_diffs_into_proto` (`encoding.rs`): the diffs of one field, in order. -/
def fieldDiffsIntoProto (field : ProtoStateField)
    (diffs : List (StateFieldDiff (List UInt8) (List UInt8)))
    (writer : ProtoStateFieldDiffsWriter) : ProtoStateFieldDiffsWriter :=
  diffs.foldl (fun writer diff => fieldDiffIntoProto field diff writer) writer

/-! ## The iterator -/

/-- `ProtoStateFieldDiff`: a diff as the iterator reads it, with an empty `from` for an insertion
and an empty `to` for a deletion. -/
structure ProtoStateFieldDiff where
  key : List UInt8
  diffType : ProtoStateFieldDiffType
  fromVal : List UInt8
  toVal : List UInt8
deriving DecidableEq, Repr

/-- `ProtoStateFieldDiffsIter`: the number of diffs and the positions in the three columns. -/
structure ProtoStateFieldDiffsIter where
  len : Nat
  diffIdx : Nat
  dataIdx : Nat
  dataOffset : Nat
deriving DecidableEq, Repr

/-- `ProtoStateFieldDiffs::iter`: a panic unless there are as many diff types as fields. -/
def ProtoStateFieldDiffs.iter (self : ProtoStateFieldDiffs) : Option ProtoStateFieldDiffsIter :=
  if self.diffTypes.length = self.fields.length then some ⟨self.fields.length, 0, 0, 0⟩ else none

/-- What the iterator yields: a field and its diff, or the error of an unknown enum value. -/
abbrev FieldDiffItem := Except String (ProtoStateField × ProtoStateFieldDiff)

namespace ProtoStateFieldDiffsIter

/-- The `next_data` closure: the next slice, from the offset on for the next length. The addition
is unchecked (it wraps) and the slice panics out of range. -/
def nextData (self : ProtoStateFieldDiffsIter) (diffs : ProtoStateFieldDiffs) :
    Option (List UInt8 × ProtoStateFieldDiffsIter) := do
  let start := self.dataOffset
  let len ← diffs.dataLens[self.dataIdx]?
  let stop := (start + len.toNat) % 2 ^ 64
  let data ← slice diffs.dataBytes start stop
  pure (data, { self with dataIdx := self.dataIdx + 1, dataOffset := stop })

/-- The values of a diff of the given type, read after its key. -/
def nextValues (self : ProtoStateFieldDiffsIter) (diffs : ProtoStateFieldDiffs) :
    ProtoStateFieldDiffType → Option ((List UInt8 × List UInt8) × ProtoStateFieldDiffsIter)
  | .insert => do
    let (toVal, self) ← self.nextData diffs
    pure (([], toVal), self)
  | .update => do
    let (fromVal, self) ← self.nextData diffs
    let (toVal, self) ← self.nextData diffs
    pure ((fromVal, toVal), self)
  | .delete => do
    let (fromVal, self) ← self.nextData diffs
    pure ((fromVal, []), self)

/-- `Iterator::next`: `none` at the end; on an unknown field or diff type an error, with the
iterator left where it was. -/
def next (self : ProtoStateFieldDiffsIter) (diffs : ProtoStateFieldDiffs) :
    Option (Option FieldDiffItem × ProtoStateFieldDiffsIter) :=
  if self.diffIdx ≥ self.len then some (none, self) else do
  let fieldNum ← diffs.fields[self.diffIdx]?
  match ProtoStateField.tryFrom fieldNum with
  | none => pure (some (.error ("ProtoStateField(" ++ toString fieldNum ++ ")")), self)
  | some field =>
    let diffTypeNum ← diffs.diffTypes[self.diffIdx]?
    match ProtoStateFieldDiffType.tryFrom diffTypeNum with
    | none =>
      pure (some (.error ("ProtoStateFieldDiffType(" ++ toString diffTypeNum ++ ")")), self)
    | some diffType =>
      let (key, self) ← self.nextData diffs
      let ((fromVal, toVal), self) ← self.nextValues diffs diffType
      pure (some (.ok (field, ⟨key, diffType, fromVal, toVal⟩)),
        { self with diffIdx := self.diffIdx + 1 })

/-- Up to `n` calls of `next`, stopping at the end: the items and the iterator after them. -/
def take (diffs : ProtoStateFieldDiffs) :
    Nat → ProtoStateFieldDiffsIter → Option (List FieldDiffItem × ProtoStateFieldDiffsIter)
  | 0, self => some ([], self)
  | n + 1, self => do
    let (item, self) ← self.next diffs
    match item with
    | none => pure ([], self)
    | some item =>
      let (items, self) ← take diffs n self
      pure (item :: items, self)

end ProtoStateFieldDiffsIter

/-! ## The layout of a list of diffs -/

/-- The type of a value diff, as `field_diff_into_proto` records it. -/
def StateFieldValDiff.diffType {V : Type} : StateFieldValDiff V → ProtoStateFieldDiffType
  | .insert _ => .insert
  | .update _ _ => .update
  | .delete _ => .delete

/-- The slices `field_diff_into_proto` writes for a diff: its key, then its values. -/
def diffSlices (diff : StateFieldDiff (List UInt8) (List UInt8)) : List (List UInt8) :=
  diff.key :: match diff.val with
    | .insert toVal => [toVal]
    | .update fromVal toVal => [fromVal, toVal]
    | .delete fromVal => [fromVal]

/-- The columns a list of diffs lays out. -/
def layout (diffs : List FieldDiff) : ProtoStateFieldDiffs where
  fields := diffs.map fun d => d.1.toI32
  diffTypes := diffs.map fun d => d.2.val.diffType.toI32
  dataLens := (diffs.flatMap fun d => diffSlices d.2).map fun s => s.length.toUInt64
  dataBytes := (diffs.flatMap fun d => diffSlices d.2).flatten

/-- A diff as the iterator yields it. -/
def decodeFieldDiff (d : FieldDiff) : FieldDiffItem :=
  .ok (d.1, match d.2.val with
    | .insert toVal => ⟨d.2.key, .insert, [], toVal⟩
    | .update fromVal toVal => ⟨d.2.key, .update, fromVal, toVal⟩
    | .delete fromVal => ⟨d.2.key, .delete, fromVal, []⟩)

/-- The slices an item was read from. -/
def itemSlices : FieldDiffItem → List (List UInt8)
  | .ok (_, d) => d.key :: match d.diffType with
    | .insert => [d.toVal]
    | .update => [d.fromVal, d.toVal]
    | .delete => [d.fromVal]
  | .error _ => []

theorem itemSlices_decodeFieldDiff (d : FieldDiff) :
    itemSlices (decodeFieldDiff d) = diffSlices d.2 := by
  obtain ⟨field, key, val⟩ := d
  cases val <;> rfl

/-! ## The writer writes the layout -/

theorem fieldDiffIntoProto_layout (diffs : List FieldDiff) (d : FieldDiff) :
    fieldDiffIntoProto d.1 d.2 (layout diffs).intoWriter = (layout (diffs ++ [d])).intoWriter := by
  obtain ⟨field, key, val⟩ := d
  cases val <;>
    simp [fieldDiffIntoProto, layout, ProtoStateFieldDiffs.intoWriter, diffSlices,
      StateFieldValDiff.diffType, ProtoStateFieldDiffsWriter.pushField,
      ProtoStateFieldDiffsWriter.pushDiffType, ProtoStateFieldDiffsWriter.encodeProto_eq]

/-- Writing diffs one after the other lays them out after what was written. -/
theorem foldl_fieldDiffIntoProto (pre : List FieldDiff) :
    ∀ diffs : List FieldDiff,
      diffs.foldl (fun writer d => fieldDiffIntoProto d.1 d.2 writer) (layout pre).intoWriter =
        (layout (pre ++ diffs)).intoWriter
  | [] => by simp
  | d :: diffs => by
    rw [List.foldl_cons, fieldDiffIntoProto_layout, foldl_fieldDiffIntoProto (pre ++ [d]) diffs,
      List.append_assoc, List.singleton_append]

/-- `into_proto` after writing diffs from `ProtoStateFieldDiffs::default()` gives their layout. -/
theorem writeFieldDiffs_intoProto (diffs : List FieldDiff) :
    (diffs.foldl (fun writer d => fieldDiffIntoProto d.1 d.2 writer)
      ProtoStateFieldDiffs.default.intoWriter).intoProto = some (layout diffs) := by
  have h := foldl_fieldDiffIntoProto [] diffs
  rw [List.nil_append] at h
  rw [show ProtoStateFieldDiffs.default.intoWriter = (layout []).intoWriter from rfl, h]
  rfl

/-! ## What `validate` accepts -/

/-- The data slices of a diff of the given type. -/
def ProtoStateFieldDiffType.dataSlices : ProtoStateFieldDiffType → Nat
  | .insert => 2
  | .update => 3
  | .delete => 2

theorem expectedDataSlicesStep_toI32 (n : Nat) (t : ProtoStateFieldDiffType) :
    expectedDataSlicesStep n t.toI32 = .ok (n + t.dataSlices) := by
  cases t <;> rfl

theorem foldlM_expectedDataSlicesStep_map (ts : List ProtoStateFieldDiffType) (n : Nat) :
    (ts.map ProtoStateFieldDiffType.toI32).foldlM expectedDataSlicesStep n =
      .ok (n + (ts.map ProtoStateFieldDiffType.dataSlices).sum) := by
  induction ts generalizing n with
  | nil => rfl
  | cons t ts ih =>
    simp only [List.map_cons, List.foldlM_cons, expectedDataSlicesStep_toI32, List.sum_cons]
    rw [← Nat.add_assoc]
    exact ih _

/-- The loop over the diff types succeeds only on known types, and counts their slices. -/
theorem eq_map_of_foldlM_expectedDataSlicesStep {diffTypes : List Int} {n e : Nat}
    (h : diffTypes.foldlM expectedDataSlicesStep n = .ok e) :
    ∃ ts : List ProtoStateFieldDiffType, diffTypes = ts.map ProtoStateFieldDiffType.toI32 ∧
      e = n + (ts.map ProtoStateFieldDiffType.dataSlices).sum := by
  induction diffTypes generalizing n with
  | nil => exact ⟨[], rfl, by simp [(Except.ok.inj h).symm]⟩
  | cons v vs ih =>
    rw [List.foldlM_cons] at h
    cases ht : ProtoStateFieldDiffType.tryFrom v with
    | none =>
      simp [expectedDataSlicesStep, ht, bind, Except.bind] at h
    | some t =>
      have hv := ProtoStateFieldDiffType.toI32_of_tryFrom ht
      subst hv
      rw [expectedDataSlicesStep_toI32] at h
      obtain ⟨ts, rfl, rfl⟩ := ih h
      exact ⟨t :: ts, rfl, by simp [Nat.add_assoc]⟩

theorem foldlM_checkedAdd_of_lt {lens : List UInt64} {acc : Nat}
    (h : acc + (lens.map UInt64.toNat).sum < 2 ^ 64) :
    lens.foldlM checkedAdd acc = some (acc + (lens.map UInt64.toNat).sum) := by
  induction lens generalizing acc with
  | nil => rfl
  | cons len lens ih =>
    simp only [List.map_cons, List.sum_cons] at h ⊢
    have hstep : checkedAdd acc len = some (acc + len.toNat) := if_pos (by omega)
    rw [List.foldlM_cons, hstep, Option.bind_eq_bind, Option.bind_some, ← Nat.add_assoc]
    exact ih (by omega)

/-- A `checked_add` fold that succeeds adds up the lengths without leaving `u64`. -/
theorem eq_sum_of_foldlM_checkedAdd {lens : List UInt64} {acc s : Nat} (hacc : acc < 2 ^ 64)
    (h : lens.foldlM checkedAdd acc = some s) :
    s = acc + (lens.map UInt64.toNat).sum ∧ s < 2 ^ 64 := by
  induction lens generalizing acc with
  | nil =>
    obtain rfl : acc = s := Option.some.inj h
    exact ⟨by simp, hacc⟩
  | cons len lens ih =>
    rw [List.foldlM_cons] at h
    unfold checkedAdd at h
    split at h
    · rename_i hlt
      obtain ⟨hs, hlt'⟩ := ih hlt h
      exact ⟨by simp [hs, Nat.add_assoc], hlt'⟩
    · cases h

/-- The lengths of slices that fit in `u64` read back as themselves. -/
theorem map_toNat_lengths {slices : List (List UInt8)} (h : slices.flatten.length < 2 ^ 64) :
    (slices.map fun s => s.length.toUInt64).map UInt64.toNat = slices.map List.length := by
  rw [List.map_map]
  refine List.map_congr_left fun s hs => ?_
  have hle : s.length ≤ slices.flatten.length :=
    List.IsInfix.length_le (List.infix_of_mem_flatten hs)
  simp only [Function.comp_apply, Nat.toUInt64_eq]
  exact Nat.mod_eq_of_lt (by omega)

theorem length_diffSlices (d : StateFieldDiff (List UInt8) (List UInt8)) :
    (diffSlices d).length = d.val.diffType.dataSlices := by
  obtain ⟨key, val⟩ := d
  cases val <;> rfl

/-- `validate` accepts the layout of any diffs whose bytes fit in a buffer. -/
theorem validate_layout (diffs : List FieldDiff) (hsize : (layout diffs).dataBytes.length < 2 ^ 64) :
    (layout diffs).validate = .ok () := by
  have hlen : (layout diffs).fields.length = (layout diffs).diffTypes.length := by simp [layout]
  have hslices : expectedDataSlices (layout diffs).diffTypes =
      .ok (layout diffs).dataLens.length := by
    have htypes : (layout diffs).diffTypes =
        (diffs.map fun d => d.2.val.diffType).map ProtoStateFieldDiffType.toI32 := by
      simp [layout]
    rw [expectedDataSlices, htypes, foldlM_expectedDataSlicesStep_map]
    simp [layout, List.length_flatMap, length_diffSlices, Function.comp_def]
  have hsum : checkedSum (layout diffs).dataLens = some (layout diffs).dataBytes.length := by
    have hmap := map_toNat_lengths hsize
    have htotal : ((layout diffs).dataLens.map UInt64.toNat).sum = (layout diffs).dataBytes.length := by
      simp only [layout] at hmap ⊢
      rw [hmap, List.length_flatten]
    rw [checkedSum, foldlM_checkedAdd_of_lt (by omega), htotal, Nat.zero_add]
  simp only [ProtoStateFieldDiffs.validate, hlen, hslices, hsum]
  simp [bind, Except.bind, pure, Except.pure]

theorem ProtoStateField.toI32_of_tryFrom {v : Int} {f : ProtoStateField} (h : tryFrom v = some f) :
    v = f.toI32 := by
  unfold tryFrom at h
  split at h <;> cases h <;> rfl

theorem eq_map_of_tryFrom {vs : List Int} (h : ∀ v ∈ vs, (ProtoStateField.tryFrom v).isSome) :
    ∃ fs : List ProtoStateField, vs = fs.map ProtoStateField.toI32 := by
  induction vs with
  | nil => exact ⟨[], rfl⟩
  | cons v vs ih =>
    obtain ⟨f, hf⟩ := Option.isSome_iff_exists.1 (h v List.mem_cons_self)
    obtain ⟨fs, rfl⟩ := ih fun w hw => h w (List.mem_cons_of_mem _ hw)
    exact ⟨f :: fs, by rw [List.map_cons, ← ProtoStateField.toI32_of_tryFrom hf]⟩

/-- Slices in the numbers the diff types call for are the slices of diffs of those types. -/
theorem exists_diffs_of_slices :
    ∀ (fs : List ProtoStateField) (ts : List ProtoStateFieldDiffType) (slices : List (List UInt8)),
      fs.length = ts.length → slices.length = (ts.map ProtoStateFieldDiffType.dataSlices).sum →
        ∃ diffs : List FieldDiff, diffs.map Prod.fst = fs ∧
          diffs.map (fun d => d.2.val.diffType) = ts ∧ diffs.flatMap (fun d => diffSlices d.2) = slices
  | [], [], slices, _, hs => ⟨[], rfl, rfl, by simpa using (List.length_eq_zero_iff.1 hs).symm⟩
  | f :: fs, t :: ts, slices, hl, hs => by
    simp only [List.length_cons, Nat.add_right_cancel_iff, List.map_cons, List.sum_cons] at hl hs
    -- the diff takes its key and values from the front of the slices
    have hfront : ∃ d : StateFieldDiff (List UInt8) (List UInt8), ∃ rest,
        d.val.diffType = t ∧ slices = diffSlices d ++ rest := by
      cases t with
      | insert =>
        obtain ⟨k, v, rest, rfl⟩ : ∃ k v rest, slices = k :: v :: rest := by
          rcases slices with _ | ⟨k, _ | ⟨v, rest⟩⟩ <;> simp_all [ProtoStateFieldDiffType.dataSlices] <;>
            omega
        exact ⟨⟨k, .insert v⟩, rest, rfl, rfl⟩
      | update =>
        obtain ⟨k, a, b, rest, rfl⟩ : ∃ k a b rest, slices = k :: a :: b :: rest := by
          rcases slices with _ | ⟨k, _ | ⟨a, _ | ⟨b, rest⟩⟩⟩ <;>
            simp_all [ProtoStateFieldDiffType.dataSlices] <;> omega
        exact ⟨⟨k, .update a b⟩, rest, rfl, rfl⟩
      | delete =>
        obtain ⟨k, a, rest, rfl⟩ : ∃ k a rest, slices = k :: a :: rest := by
          rcases slices with _ | ⟨k, _ | ⟨a, rest⟩⟩ <;> simp_all [ProtoStateFieldDiffType.dataSlices] <;>
            omega
        exact ⟨⟨k, .delete a⟩, rest, rfl, rfl⟩
    obtain ⟨d, rest, hd, rfl⟩ := hfront
    have hrest : rest.length = (ts.map ProtoStateFieldDiffType.dataSlices).sum := by
      simp only [List.length_append, length_diffSlices, hd] at hs
      omega
    obtain ⟨diffs, h1, h2, h3⟩ := exists_diffs_of_slices fs ts rest hl hrest
    exact ⟨(f, d) :: diffs, by simp [h1], by simp [h2, hd], by simp [h3]⟩
  | [], _ :: _, _, hl, _ | _ :: _, [], _, hl, _ => by simp at hl

/-- What `validate` checks: as many diff types as fields, known diff types calling for as many
slices as there are lengths, and lengths adding up to the bytes without leaving `u64`. -/
theorem validate_eq_ok_iff (p : ProtoStateFieldDiffs) :
    p.validate = .ok () ↔ p.fields.length = p.diffTypes.length ∧
      expectedDataSlices p.diffTypes = .ok p.dataLens.length ∧
      checkedSum p.dataLens = some p.dataBytes.length := by
  unfold ProtoStateFieldDiffs.validate
  by_cases h1 : p.fields.length = p.diffTypes.length
  · cases h2 : expectedDataSlices p.diffTypes with
    | error e => simp [h1, bind, Except.bind]
    | ok n =>
      by_cases h3 : n = p.dataLens.length
      · cases checkedSum p.dataLens with
        | none => simp [h1, h3, bind, Except.bind, throw, throwThe, MonadExceptOf.throw]
        | some m =>
          by_cases h5 : m = p.dataBytes.length
          · simp [h1, h3, h5, bind, Except.bind, pure, Except.pure]
          · simp [h1, h3, h5, bind, Except.bind, throw, throwThe, MonadExceptOf.throw]
      · simp [h1, h3, bind, Except.bind, throw, throwThe, MonadExceptOf.throw]
  · simp [h1, throw, throwThe, MonadExceptOf.throw, bind, Except.bind]

/-- Every proto that `validate` accepts, with fields the iterator knows, is the layout of some
diffs. -/
theorem exists_layout {p : ProtoStateFieldDiffs} (hv : p.validate = .ok ())
    (hfields : ∀ v ∈ p.fields, (ProtoStateField.tryFrom v).isSome) :
    ∃ diffs, p = layout diffs := by
  obtain ⟨hlen, hslices, hsum⟩ := (validate_eq_ok_iff p).1 hv
  obtain ⟨fields, diffTypes, dataLens, dataBytes⟩ := p
  dsimp only at hlen hslices hsum hfields
  obtain ⟨ts, rfl, hcount⟩ := eq_map_of_foldlM_expectedDataSlicesStep hslices
  obtain ⟨htotal, -⟩ := eq_sum_of_foldlM_checkedAdd (by norm_num) hsum
  obtain ⟨fs, rfl⟩ := eq_map_of_tryFrom hfields
  -- cut the bytes at the lengths, then group the slices into diffs by their types
  set slices := (dataLens.map UInt64.toNat).splitLengths dataBytes
  have hcut_lens : slices.map List.length = dataLens.map UInt64.toNat :=
    List.map_splitLengths_length dataBytes _ (by omega)
  have hcut_bytes : slices.flatten = dataBytes := List.flatten_splitLengths dataBytes _ (by omega)
  obtain ⟨diffs, rfl, rfl, hsl⟩ := exists_diffs_of_slices fs ts slices
    (by simpa using hlen) (by simp [slices, List.length_splitLengths, hcount])
  refine ⟨diffs, ?_⟩
  have hlens : ((diffs.flatMap fun d => diffSlices d.2).map fun s => s.length.toUInt64) =
      dataLens := by
    rw [hsl, show (fun s : List UInt8 => s.length.toUInt64) = Nat.toUInt64 ∘ List.length from rfl,
      ← List.map_map, hcut_lens]
    simp [Function.comp_def]
  simp only [layout]
  rw [hlens, hsl, hcut_bytes, List.map_map, List.map_map]
  rfl

/-! ## The iterator reads a layout back -/

theorem getElem?_of_drop_eq_cons {α : Type} {l : List α} {i : Nat} {x : α} {xs : List α}
    (h : l.drop i = x :: xs) : l[i]? = some x := by
  rw [← List.head?_drop, h]
  rfl

namespace ProtoStateFieldDiffsIter

/-- The iterator's data positions stand before `slices`: from them on, the lengths and bytes are
those of `slices`. -/
structure DataAt (diffs : ProtoStateFieldDiffs) (it : ProtoStateFieldDiffsIter)
    (slices : List (List UInt8)) : Prop where
  lens_drop : diffs.dataLens.drop it.dataIdx = slices.map fun s => s.length.toUInt64
  bytes_drop : diffs.dataBytes.drop it.dataOffset = slices.flatten
  idx_le : it.dataIdx ≤ diffs.dataLens.length
  offset_le : it.dataOffset ≤ diffs.dataBytes.length
  size : diffs.dataBytes.length < 2 ^ 64

/-- The iterator past one more slice of `n` bytes. -/
def pastSlice (it : ProtoStateFieldDiffsIter) (n : Nat) : ProtoStateFieldDiffsIter :=
  { it with dataIdx := it.dataIdx + 1, dataOffset := it.dataOffset + n }

/-- `next_data` reads the next slice, and moves past it. -/
theorem DataAt.nextData {diffs : ProtoStateFieldDiffs} {it : ProtoStateFieldDiffsIter}
    {s : List UInt8} {slices : List (List UInt8)} (h : DataAt diffs it (s :: slices)) :
    it.nextData diffs = some (s, it.pastSlice s.length) ∧
      DataAt diffs (it.pastSlice s.length) slices := by
  have hbytes := congrArg List.length h.bytes_drop
  simp only [List.length_drop, List.flatten_cons, List.length_append] at hbytes
  have hoff := h.offset_le
  have hsize := h.size
  have hstop : it.dataOffset + s.length < 2 ^ 64 := by omega
  have hlen : diffs.dataLens[it.dataIdx]? = some s.length.toUInt64 :=
    getElem?_of_drop_eq_cons h.lens_drop
  have hslice : slice diffs.dataBytes it.dataOffset (it.dataOffset + s.length) = some s := by
    rw [slice, if_pos ⟨Nat.le_add_right _ _, by omega⟩, Nat.add_sub_cancel_left, h.bytes_drop,
      List.flatten_cons, List.take_left' rfl]
  have hlens_lt : it.dataIdx < diffs.dataLens.length := by
    have := congrArg List.length h.lens_drop
    simp only [List.length_drop, List.length_map, List.length_cons] at this
    omega
  refine ⟨?_, ⟨?_, ?_, by simp only [pastSlice]; omega, by simp only [pastSlice]; omega, h.size⟩⟩
  · have htoNat : s.length.toUInt64.toNat = s.length := by
      simp only [Nat.toUInt64_eq]
      exact Nat.mod_eq_of_lt (by omega)
    simp only [ProtoStateFieldDiffsIter.nextData, hlen, htoNat, Nat.mod_eq_of_lt hstop, hslice,
      Option.bind_eq_bind, Option.bind_some]
    rfl
  · rw [pastSlice, ← List.tail_drop, h.lens_drop]
    rfl
  · rw [pastSlice, ← List.drop_drop, h.bytes_drop, List.flatten_cons, List.drop_left]

/-- The values of a diff are read from the slices after its key. -/
theorem DataAt.nextValues {diffs : ProtoStateFieldDiffs} {it : ProtoStateFieldDiffsIter}
    {d : StateFieldDiff (List UInt8) (List UInt8)} {slices : List (List UInt8)}
    (h : DataAt diffs it ((diffSlices d).tail ++ slices)) :
    ∃ it', it.nextValues diffs d.val.diffType =
        some ((match d.val with
          | .insert _ => []
          | .update fromVal _ => fromVal
          | .delete fromVal => fromVal,
          match d.val with
          | .insert toVal => toVal
          | .update _ toVal => toVal
          | .delete _ => []), it') ∧
      DataAt diffs it' slices ∧ it'.diffIdx = it.diffIdx ∧ it'.len = it.len := by
  obtain ⟨key, val⟩ := d
  cases val with
  | insert toVal =>
    obtain ⟨h₁, h₁'⟩ := DataAt.nextData h
    refine ⟨_, ?_, h₁', rfl, rfl⟩
    unfold ProtoStateFieldDiffsIter.nextValues
    simp [StateFieldValDiff.diffType, h₁]
  | update fromVal toVal =>
    obtain ⟨h₁, h₁'⟩ := DataAt.nextData h
    obtain ⟨h₂, h₂'⟩ := DataAt.nextData h₁'
    refine ⟨_, ?_, h₂', rfl, rfl⟩
    unfold ProtoStateFieldDiffsIter.nextValues
    simp [StateFieldValDiff.diffType, h₁, h₂]
  | delete fromVal =>
    obtain ⟨h₁, h₁'⟩ := DataAt.nextData h
    refine ⟨_, ?_, h₁', rfl, rfl⟩
    unfold ProtoStateFieldDiffsIter.nextValues
    simp [StateFieldValDiff.diffType, h₁]

/-- The iterator stands before the diffs `rest` of `diffs`: from its positions on, the columns
hold the layout of `rest`. -/
structure Before (diffs : ProtoStateFieldDiffs) (it : ProtoStateFieldDiffsIter)
    (rest : List FieldDiff) : Prop where
  len_eq : it.len = it.diffIdx + rest.length
  fields_drop : diffs.fields.drop it.diffIdx = rest.map fun d => d.1.toI32
  diffTypes_drop : diffs.diffTypes.drop it.diffIdx = rest.map fun d => d.2.val.diffType.toI32
  data : DataAt diffs it (rest.flatMap fun d => diffSlices d.2)

/-- The step lemma: before a diff, `next` yields it and moves past it. -/
theorem Before.next {diffs : ProtoStateFieldDiffs} {it : ProtoStateFieldDiffsIter}
    {e : FieldDiff} {rest : List FieldDiff} (h : Before diffs it (e :: rest)) :
    ∃ it', it.next diffs = some (some (decodeFieldDiff e), it') ∧ Before diffs it' rest := by
  have hlt : ¬ it.diffIdx ≥ it.len := by rw [h.len_eq]; simp
  have hfield : diffs.fields[it.diffIdx]? = some e.1.toI32 :=
    getElem?_of_drop_eq_cons h.fields_drop
  have htype : diffs.diffTypes[it.diffIdx]? = some e.2.val.diffType.toI32 :=
    getElem?_of_drop_eq_cons h.diffTypes_drop
  have hdata : DataAt diffs it (e.2.key :: ((diffSlices e.2).tail ++
      rest.flatMap fun d => diffSlices d.2)) := by
    simpa [diffSlices] using h.data
  obtain ⟨hkey, hkey'⟩ := hdata.nextData
  obtain ⟨it', hvals, hdata', hidx, hlen⟩ := hkey'.nextValues
  refine ⟨{ it' with diffIdx := it'.diffIdx + 1 }, ?_,
    ⟨?_, ?_, ?_, ⟨hdata'.1, hdata'.2, hdata'.3, hdata'.4, hdata'.5⟩⟩⟩
  · obtain ⟨field, key, val⟩ := e
    simp only at hvals hkey
    simp only [ProtoStateFieldDiffsIter.next, hlt, if_false, hfield, htype,
      ProtoStateField.tryFrom_toI32, ProtoStateFieldDiffType.tryFrom_toI32, hkey, hvals,
      Option.bind_eq_bind, Option.bind_some]
    cases val <;> rfl
  · simp only [hlen, hidx, pastSlice, h.len_eq, List.length_cons]
    omega
  · simp only [hidx, pastSlice]
    rw [← List.tail_drop, h.fields_drop]
    rfl
  · simp only [hidx, pastSlice]
    rw [← List.tail_drop, h.diffTypes_drop]
    rfl

/-- At the end of the diffs, `next` returns `None` and stays. -/
theorem Before.next_nil {diffs : ProtoStateFieldDiffs} {it : ProtoStateFieldDiffsIter}
    (h : Before diffs it []) : it.next diffs = some (none, it) := by
  have hge : it.diffIdx ≥ it.len := by rw [h.len_eq]; simp
  simp [ProtoStateFieldDiffsIter.next, hge]

/-- The run lemma: before some diffs, `n` calls of `next` yield the first `n` of them, and after
all of them the iterator stands at the end. -/
theorem Before.take_eq {diffs : ProtoStateFieldDiffs} :
    ∀ (n : Nat) {it : ProtoStateFieldDiffsIter} {rest : List FieldDiff}, Before diffs it rest →
      ∃ it', take diffs n it = some ((rest.take n).map decodeFieldDiff, it') ∧
        (rest.length ≤ n → Before diffs it' [])
  | 0, it, rest, h => ⟨it, rfl, fun hn => by
      rw [Nat.le_zero, List.length_eq_zero_iff] at hn
      exact hn ▸ h⟩
  | n + 1, it, [], h => ⟨it, by simp [ProtoStateFieldDiffsIter.take, h.next_nil], fun _ => h⟩
  | n + 1, it, e :: rest, h => by
    obtain ⟨it₁, hnext, h₁⟩ := h.next
    obtain ⟨it', htake, hend⟩ := Before.take_eq n h₁
    refine ⟨it', ?_, fun hn => hend (by simpa using hn)⟩
    simp [ProtoStateFieldDiffsIter.take, hnext, htake]

/-- At the end of the diffs, the iterator has read every length and every byte. -/
theorem Before.at_end {diffs : ProtoStateFieldDiffs} {it : ProtoStateFieldDiffsIter}
    (h : Before diffs it []) :
    it.dataIdx = diffs.dataLens.length ∧ it.dataOffset = diffs.dataBytes.length := by
  have hl := h.data.lens_drop
  have hb := h.data.bytes_drop
  simp only [List.flatMap_nil, List.map_nil, List.flatten_nil, List.drop_eq_nil_iff] at hl hb
  exact ⟨le_antisymm h.data.idx_le hl, le_antisymm h.data.offset_le hb⟩

end ProtoStateFieldDiffsIter

/-- `iter` on the layout of diffs whose bytes fit in a buffer stands before all of them. -/
theorem iter_layout (diffs : List FieldDiff) (hsize : (layout diffs).dataBytes.length < 2 ^ 64) :
    ∃ it, (layout diffs).iter = some it ∧ ProtoStateFieldDiffsIter.Before (layout diffs) it diffs :=
  ⟨_, if_pos (by simp [layout]),
    ⟨by simp [layout], rfl, rfl, ⟨rfl, rfl, Nat.zero_le _, Nat.zero_le _, hsize⟩⟩⟩

/-- Reading the layout of diffs: `n` calls of `next` never panic and yield the first `n` diffs, and
once all are read the iterator has read every length and byte. -/
theorem take_layout (diffs : List FieldDiff) (hsize : (layout diffs).dataBytes.length < 2 ^ 64)
    (n : Nat) :
    ∃ it', ((layout diffs).iter.bind (ProtoStateFieldDiffsIter.take (layout diffs) n)) =
        some ((diffs.take n).map decodeFieldDiff, it') ∧
      (diffs.length ≤ n → it'.dataIdx = (layout diffs).dataLens.length ∧
        it'.dataOffset = (layout diffs).dataBytes.length) := by
  obtain ⟨it, hit, hbefore⟩ := iter_layout diffs hsize
  obtain ⟨it', htake, hend⟩ := hbefore.take_eq n
  exact ⟨it', by rw [hit, Option.bind_some, htake], fun hn => (hend hn).at_end⟩

/-- The bytes of a proto that `validate` accepts fit in a buffer. -/
theorem dataBytes_length_lt_of_validate {p : ProtoStateFieldDiffs} (hv : p.validate = .ok ()) :
    p.dataBytes.length < 2 ^ 64 :=
  (eq_sum_of_foldlM_checkedAdd (by norm_num) ((validate_eq_ok_iff p).1 hv).2.2).2

/-- The slices of the diffs read back are the slices of their layout. -/
theorem flatMap_itemSlices (diffs : List FieldDiff) :
    (diffs.map decodeFieldDiff).flatMap itemSlices = diffs.flatMap fun d => diffSlices d.2 := by
  simp [List.flatMap_map, itemSlices_decodeFieldDiff]

/-- The columnar encoding, both ways. Iterating a proto that `validate` accepts and whose fields
are all known never panics, yields exactly one item per field, each a diff, and reads every slice
once, in order, tiling the bytes. And the diffs written through the writer from
`ProtoStateFieldDiffs::default()` give a proto that `validate` accepts and that iterates back to
them, when their bytes fit in a buffer. -/
theorem field_diffs_columnar_round_trip :
    (∀ (p : ProtoStateFieldDiffs), p.validate = .ok () →
      (∀ v ∈ p.fields, (ProtoStateField.tryFrom v).isSome) → ∀ n : Nat,
      ∃ items it', (p.iter.bind (ProtoStateFieldDiffsIter.take p n)) = some (items, it') ∧
        items.length = min n p.fields.length ∧ (∀ x ∈ items, ∃ d, x = .ok d) ∧
        (p.fields.length ≤ n → it'.dataIdx = p.dataLens.length ∧
          it'.dataOffset = p.dataBytes.length ∧
          (items.flatMap itemSlices).map List.length = p.dataLens.map UInt64.toNat ∧
          (items.flatMap itemSlices).flatten = p.dataBytes)) ∧
    (∀ diffs : List FieldDiff, (diffs.flatMap fun d => diffSlices d.2).flatten.length < 2 ^ 64 →
      ∃ p, (diffs.foldl (fun writer d => fieldDiffIntoProto d.1 d.2 writer)
          ProtoStateFieldDiffs.default.intoWriter).intoProto = some p ∧
        p.validate = .ok () ∧
        ∃ it', (p.iter.bind (ProtoStateFieldDiffsIter.take p (diffs.length + 1))) =
          some (diffs.map decodeFieldDiff, it')) := by
  refine ⟨fun p hv hfields n => ?_, fun diffs hsize => ?_⟩
  · have hsize := dataBytes_length_lt_of_validate hv
    obtain ⟨diffs, rfl⟩ := exists_layout hv hfields
    obtain ⟨it', htake, hend⟩ := take_layout diffs hsize n
    have hlen : (layout diffs).fields.length = diffs.length := by simp [layout]
    have hok : ∀ x ∈ (diffs.take n).map decodeFieldDiff, ∃ d, x = .ok d := by
      intro x hx
      obtain ⟨d, -, rfl⟩ := List.mem_map.1 hx
      exact ⟨_, rfl⟩
    refine ⟨_, it', htake, by simp [hlen], hok, fun hn => ?_⟩
    rw [hlen] at hn
    obtain ⟨hidx, hoff⟩ := hend hn
    rw [List.take_of_length_le hn, flatMap_itemSlices]
    exact ⟨hidx, hoff, (map_toNat_lengths hsize).symm, rfl⟩
  · refine ⟨layout diffs, writeFieldDiffs_intoProto diffs, validate_layout diffs hsize, ?_⟩
    obtain ⟨it', htake, -⟩ := take_layout diffs hsize (diffs.length + 1)
    exact ⟨it', by rw [htake, List.take_of_length_le (by omega)]⟩

theorem field_diffs_columnar_round_trip_rollups :
    let p : ProtoStateFieldDiffs := ⟨[8], [0], [1, 2], [1, 2, 3]⟩
    let diffs : List FieldDiff := [(.rollups, ⟨[1], .insert [2, 3]⟩)]
    (∃ items it', (p.iter.bind (ProtoStateFieldDiffsIter.take p 2)) = some (items, it') ∧
        items.length = min 2 p.fields.length ∧ (∀ x ∈ items, ∃ d, x = .ok d) ∧
        (p.fields.length ≤ 2 → it'.dataIdx = p.dataLens.length ∧
          it'.dataOffset = p.dataBytes.length ∧
          (items.flatMap itemSlices).map List.length = p.dataLens.map UInt64.toNat ∧
          (items.flatMap itemSlices).flatten = p.dataBytes)) ∧
      ∃ q, (diffs.foldl (fun writer d => fieldDiffIntoProto d.1 d.2 writer)
          ProtoStateFieldDiffs.default.intoWriter).intoProto = some q ∧
        q.validate = .ok () ∧
        ∃ it', (q.iter.bind (ProtoStateFieldDiffsIter.take q (diffs.length + 1))) =
          some (diffs.map decodeFieldDiff, it') := by
  intro p diffs
  exact ⟨field_diffs_columnar_round_trip.1 p rfl (by decide) 2,
    field_diffs_columnar_round_trip.2 diffs (by decide)⟩

/-- On a field it does not know the iterator stays where it is: `n` calls of `next` return the
same error `n` times. -/
theorem take_unknown_field_replicate (n : Nat) :
    ProtoStateFieldDiffsIter.take ⟨[99], [0], [0, 0], []⟩ n ⟨1, 0, 0, 0⟩ =
      some (List.replicate n (.error "ProtoStateField(99)"), ⟨1, 0, 0, 0⟩) := by
  have hnext : (⟨1, 0, 0, 0⟩ : ProtoStateFieldDiffsIter).next ⟨[99], [0], [0, 0], []⟩ =
      some (some (.error "ProtoStateField(99)"), ⟨1, 0, 0, 0⟩) := by
    rfl
  induction n with
  | zero => rfl
  | succ n ih => simp [ProtoStateFieldDiffsIter.take, hnext, ih, List.replicate_succ]

/-- A proto whose one field the iterator does not know passes `validate`, and three calls of
`next` return the same error: the iterator never moves past the field, and yields more items than
there are fields. -/
theorem iter_unknown_field_repeats :
    let p : ProtoStateFieldDiffs := ⟨[99], [0], [0, 0], []⟩
    p.validate = .ok () ∧ (p.iter.bind (ProtoStateFieldDiffsIter.take p 3)) =
      some (List.replicate 3 (.error "ProtoStateField(99)"), ⟨1, 0, 0, 0⟩) :=
  ⟨rfl, take_unknown_field_replicate 3⟩

end Materialize.Persist
