import Mathlib
import Materialize.Lib.Buffer
import Materialize.Repr.Packer
import Materialize.Repr.Range
import Materialize.Lib.Signed

/-!
# The packer methods that can fail

The model of the `RowPacker` methods that write an array or a range and can return an error
(`repr/src/row.rs`). Each writes a header first, then runs caller code (a closure that pushes the
elements or a bound), then checks what was written. The source documents that on an error "the
packer's state will be unchanged", so every error path truncates the row back to where the
method started.

* `push_array_with_unchecked` (behind `try_push_array` and `try_push_array_fallible`) does so:
  every error leaves the row as it was (`pushArrayWithUnchecked_error`, `tryPushArray_error`,
  `tryPushArrayFallible_error`), and what it accepts is one array with the dimensions given
  (`pushArrayWithUnchecked_ok`). So does `push_range`, whose bounds cannot fail
  (`pushRange_error`).
* `push_range_with` returns through `?` when a bound's closure fails, before any truncation, so
  the range tag and its flags stay in the row (`pushRangeWith_lower_error`).
* `push_array_with_row_major` truncates on each of its errors (`pushArrayWithRowMajor_error`), but
  counts the dimensions in a `u8` before it checks their number. In a release build `256`
  dimensions count as `0`: the check passes and the header says that the array has no
  dimensions, while the bytes of all of them follow (`pushArrayWithRowMajor_dims_wrap`). Where
  overflow checks are on, the count panics instead.

A closure of the source may only push; the lemmas assume so of the closures they are given
(`Appends`).

The row's bytes are a list; a closure maps the bytes to the bytes it leaves and its result, `none`
where it panics.
-/

namespace Materialize.Row

open Bytes Adt Signed

/-! ## Arrays -/

/-- `InvalidArrayError`. -/
inductive InvalidArrayError where
  | tooManyDimensions (n : Nat)
  | wrongCardinality (actual expected : Nat)
  deriving DecidableEq, Repr

/-- `ArrayDimension`: an `isize` lower bound and a `usize` length, both 64 bits wide. -/
structure ArrayDimension where
  lowerBound : SInt 64
  length : UInt64
  deriving DecidableEq

/-- `MAX_ARRAY_DIMENSIONS`. -/
def MAX_ARRAY_DIMENSIONS : Nat := 6

/-- `usize::saturating_mul`. -/
def saturatingMul (a b : Nat) : Nat := min (a * b) (2 ^ 64 - 1)

/-- The bytes of one dimension: the lower bound as an `i64` and the length as a `u64`, each
little-endian. -/
def dimensionBytes (dim : ArrayDimension) : List UInt8 :=
  leBytes dim.lowerBound.toBits 8 ++ leBytes dim.length.toNat 8

/-- `RowPacker::push_array_with_unchecked`: the `Array` tag, the number of dimensions, each
dimension, then the elements behind their length in bytes. The closure returns the number of
elements it pushed, or an error. -/
def pushArrayWithUnchecked {E : Type} (ofArray : InvalidArrayError → E)
    (dims : List ArrayDimension) (f : List UInt8 → Option (List UInt8 × Except E Nat))
    (data : List UInt8) : Option (List UInt8 × Except E Unit) := do
  if MAX_ARRAY_DIMENSIONS < dims.length then
    return (data, .error (ofArray (.tooManyDimensions dims.length)))
  let start := data.length
  let data := data ++ [Tag.array.toU8, UInt8.ofNat dims.length] ++ dims.flatMap dimensionBytes
  let off := data.length
  let (data, res) ← f (data ++ List.replicate 8 0)
  match res with
  | .error e => return (data.take start, .error e)
  | .ok nelements =>
    let len := data.length - off - 8
    let data ← Buffer.copyFromSlice? data off (leBytes len 8)
    let cardinality := if dims = [] then 0 else dims.foldl (fun c d => saturatingMul c d.length.toNat) 1
    if nelements ≠ cardinality then
      return (data.take start, .error (ofArray (.wrongCardinality nelements cardinality)))
    return (data, .ok ())

/-- The closure of `try_push_array_fallible`: the elements pushed in turn and counted, up to the
first error. -/
def pushElements {E : Type} : List (Except E Datum) → List UInt8 → Nat →
    Option (List UInt8 × Except E Nat)
  | [], data, n => some (data, .ok n)
  | .error e :: _, data, _ => some (data, .error e)
  | .ok d :: ds, data, n => (push data d).bind (pushElements ds · (n + 1))

/-- `RowPacker::try_push_array`: the closure pushes every element and returns their number. -/
def tryPushArray (dims : List ArrayDimension) (ds : List Datum) (data : List UInt8) :
    Option (List UInt8 × Except InvalidArrayError Unit) :=
  pushArrayWithUnchecked id dims (fun packer => (extend packer ds).map (·, .ok ds.length)) data

/-- `RowPacker::try_push_array_fallible`: the array's own errors (`Error::Usage`) and the
elements' (`Error::Inner`) as the two sides of a sum, split apart again afterwards. -/
def tryPushArrayFallible {E : Type} (dims : List ArrayDimension) (iter : List (Except E Datum))
    (data : List UInt8) : Option (List UInt8 × Except InvalidArrayError (Except E Unit)) := do
  let (data, res) ← pushArrayWithUnchecked Sum.inl dims
    (fun packer => (pushElements iter packer 0).map fun (data, r) => (data, r.mapError Sum.inr)) data
  pure (data, match res with
    | .ok () => .ok (.ok ())
    | .error (.inl e) => .error e
    | .error (.inr e) => .ok (.error e))

/-- The loop of `push_array_with_row_major` over the dimensions: the `u8` count, the saturated
product of the lengths, and the bytes. `num_dims += 1` wraps, as in a release build. -/
def rowMajorDims (numDims : UInt8) (cardinality : Nat) (data : List UInt8) :
    List ArrayDimension → UInt8 × Nat × List UInt8
  | [] => (numDims, cardinality, data)
  | dim :: dims =>
    rowMajorDims (numDims + 1) (saturatingMul cardinality dim.length.toNat) (data ++ dimensionBytes dim)
      dims

/-- `RowPacker::push_array_with_row_major`: the `Array` tag and a dummy count, the dimensions
while counting them, the count fixed up, then the elements the closure pushes. -/
def pushArrayWithRowMajor (dims : List ArrayDimension) (f : List UInt8 → Option (List UInt8 × Nat))
    (data : List UInt8) : Option (List UInt8 × Except InvalidArrayError Unit) := do
  let start := data.length
  let data := data ++ [Tag.array.toU8]
  let dimsStart := data.length
  let (numDims, cardinality, data) := rowMajorDims 0 1 (data ++ [42]) dims
  if MAX_ARRAY_DIMENSIONS < numDims.toNat then
    return (data.take start, .error (.tooManyDimensions numDims.toNat))
  let data ← Buffer.copyFromSlice? data dimsStart [numDims]
  let off := data.length
  let (data, nelements) ← f (data ++ List.replicate 8 0)
  let len := data.length - off - 8
  let data ← Buffer.copyFromSlice? data off (leBytes len 8)
  let cardinality := if numDims = 0 then 0 else cardinality
  if nelements ≠ cardinality then
    return (data.take start, .error (.wrongCardinality nelements cardinality))
  return (data, .ok ())

/-! ## Ranges -/

/-- The flag bits of a range's row encoding (`InternalFlags`) for the given bounds. -/
def rangeFlags {L U : Type} (lower : RangeBound L) (upper : RangeBound U) : UInt8 :=
  (if lower.inclusive then 2 else 0) + (if lower.bound.isNone then 4 else 0) +
    (if upper.inclusive then 8 else 0) + (if upper.bound.isNone then 16 else 0)

/-- The datum kind `DatumKind::from` names: the variant. -/
def Datum.kind (d : Datum) : Nat := d.ctorIdx

section RangeWith

-- the derived order of `Datum`, which the check of `push_range_with` uses; the model does not
-- spell it out
variable (datumGt : Datum → Datum → Bool)

/-- The check loop of `push_range_with` over the bytes the bounds pushed: no datum is null, the
second is of the first's kind and not below it, and the datums read are counted. `fuel` bounds
the loop by the bytes left; every datum read takes at least one. -/
def checkRangeDatums : Nat → List UInt8 → Option Datum → Nat →
    Option (Except InvalidRangeError Nat)
  | 0, _, _, actual => some (.ok actual)
  | fuel + 1, dataz, seen, actual =>
    if dataz = [] then some (.ok actual)
    else do
      let (d, dataz) ← readDatum dataz
      if d = .null then return .error .invalidRangeData
      match seen with
      | none => checkRangeDatums fuel dataz (some d) (actual + 1)
      | some seen =>
        if seen.kind ≠ d.kind then return .error .invalidRangeData
        if datumGt seen d then return .error .misorderedRangeBounds
        checkRangeDatums fuel dataz (some seen) (actual + 1)

/-- One bound of `push_range_with`: its closure, which must push exactly one value (the source
asserts that it pushed at least one byte). A closure that fails leaves what it wrote. -/
def pushRangeBound {E : Type} (bound : Option (List UInt8 → Option (List UInt8 × Except E Unit)))
    (data : List UInt8) (expected : Nat) : Option (List UInt8 × Except E Nat) := do
  match bound with
  | none => pure (data, .ok expected)
  | some value =>
    let start := data.length
    let (data, res) ← value data
    match res with
    | .error e => pure (data, .error e)
    | .ok () => if start < data.length then pure (data, .ok (expected + 1)) else none

/-- `RowPacker::push_range_with`: the `Range` tag and the flags, the bounds, then the check of
what they pushed. A bound's closure that fails returns its error at once (`value(self)?`). -/
def pushRangeWith {E : Type} (ofRange : InvalidRangeError → E)
    (lower upper : RangeBound (List UInt8 → Option (List UInt8 × Except E Unit)))
    (data : List UInt8) : Option (List UInt8 × Except E Unit) := do
  let start := data.length
  let data := data ++ [Tag.range.toU8, rangeFlags lower upper]
  let datumCheck := data.length
  let (data, res) ← pushRangeBound lower.bound data 0
  match res with
  | .error e => pure (data, .error e)
  | .ok expected =>
    let (data, res) ← pushRangeBound upper.bound data expected
    match res with
    | .error e => pure (data, .error e)
    | .ok expected =>
      let dataz := data.drop datumCheck
      match ← checkRangeDatums datumGt dataz.length dataz none 0 with
      | .error e => pure (data.take start, .error (ofRange e))
      | .ok actual =>
        if actual ≠ expected then pure (data.take start, .error (ofRange .invalidRangeData))
        else pure (data, .ok ())

/-- A finite bound as `push_range` hands it to `push_range_with`: a closure that pushes the
datum and cannot fail. -/
def boundPusher {E : Type} (b : RangeBound Datum) :
    RangeBound (List UInt8 → Option (List UInt8 × Except E Unit)) :=
  ⟨b.inclusive, b.bound.map fun value row => (push row value).map (·, .ok ())⟩

/-- `RowPacker::push_range`: the range canonicalized first, then an empty range as its tag and the
`EMPTY` flag, and any other through `push_range_with`. `canonicalize` is `Range::canonicalize` at
datums, which the model takes as given. -/
def pushRange (canonicalize : Range Datum → Except InvalidRangeError (Range Datum))
    (range : Range Datum) (data : List UInt8) : Option (List UInt8 × Except InvalidRangeError Unit) :=
  match canonicalize range with
  | .error e => some (data, .error e)
  | .ok range =>
    match range.inner with
    | none => some (data ++ [Tag.range.toU8, 1], .ok ())
    | some inner => pushRangeWith datumGt id (boundPusher inner.lower) (boundPusher inner.upper) data

end RangeWith

/-! ## Closures that only push

The source's own closures only push, so what they leave starts with the row they were given. -/

/-- The closure leaves the row it was given with bytes after it. -/
def Appends {R : Type} (f : List UInt8 → Option (List UInt8 × R)) : Prop :=
  ∀ data data' r, f data = some (data', r) → data <+: data'

/-- The closure only pushes and cannot fail: the bounds of `push_range`. -/
def PushesOk {E : Type} (v : List UInt8 → Option (List UInt8 × Except E Unit)) : Prop :=
  ∀ data data' r, v data = some (data', r) → data <+: data' ∧ r = .ok ()

theorem prefix_of_push {data data' : List UInt8} {d : Datum} (h : push data d = some data') :
    data <+: data' := by
  obtain ⟨bytes, -, rfl⟩ := Option.map_eq_some_iff.mp h
  exact List.prefix_append _ _

theorem prefix_of_extend {data data' : List UInt8} {ds : List Datum}
    (h : extend data ds = some data') : data <+: data' := by
  rw [extend_eq] at h
  obtain ⟨bytes, -, rfl⟩ := Option.map_eq_some_iff.mp h
  exact List.prefix_append _ _

theorem pushElements_appends {E : Type} (iter : List (Except E Datum)) (n : Nat) :
    Appends (pushElements iter · n) := by
  induction iter generalizing n with
  | nil =>
    intro data data' r h
    cases h
    exact List.prefix_refl _
  | cons x iter ih =>
    intro data data' r h
    cases x with
    | error e =>
      cases h
      exact List.prefix_refl _
    | ok d =>
      obtain ⟨data₁, hpush, h⟩ := Option.bind_eq_some_iff.mp h
      exact (prefix_of_push hpush).trans (ih _ _ _ _ h)

theorem boundPusher_pushesOk {E : Type} (b : RangeBound Datum) :
    ∀ v ∈ (boundPusher (E := E) b).bound, PushesOk v := by
  intro v hv
  obtain ⟨value, -, rfl⟩ := Option.map_eq_some_iff.mp hv
  intro data data' r h
  obtain ⟨data₁, hpush, hr⟩ := Option.map_eq_some_iff.mp h
  cases hr
  exact ⟨prefix_of_push hpush, rfl⟩

/-! ## Arrays: every error leaves the row as it was -/

/-- Every error of `push_array_with_unchecked`, the closure's included, truncates the row back to
where it started. -/
theorem pushArrayWithUnchecked_error {E : Type} (ofArray : InvalidArrayError → E)
    (dims : List ArrayDimension) {f : List UInt8 → Option (List UInt8 × Except E Nat)}
    (hf : Appends f) {data data' : List UInt8} {e : E}
    (h : pushArrayWithUnchecked ofArray dims f data = some (data', .error e)) : data' = data := by
  unfold pushArrayWithUnchecked at h
  split at h
  · cases h
    rfl
  · dsimp only at h
    obtain ⟨⟨data₁, res⟩, hf₁, h⟩ := Option.bind_eq_some_iff.mp h
    -- the closure was given the row with the header after it, and only pushed
    have hpre : data <+: data₁ := by
      refine List.IsPrefix.trans ?_ (hf _ _ _ hf₁)
      simp [List.append_assoc]
    have htake : data₁.take data.length = data := (List.prefix_iff_eq_take.mp hpre).symm
    cases res with
    | error e' =>
      cases h
      exact htake
    | ok n =>
      obtain ⟨data₂, hcopy, h⟩ := Option.bind_eq_some_iff.mp h
      generalize (if dims = [] then 0 else _) = card at h
      split at h
      · cases h
        rw [Buffer.take_copyFromSlice? hcopy (by simp), htake]
      · cases h

/-- What `push_array_with_unchecked` accepts: at most `MAX_ARRAY_DIMENSIONS` dimensions, so that
the count byte is exact; the closure pushed as many elements as the dimensions describe; and the
row gained the header, the length of the elements in bytes and the elements. -/
theorem pushArrayWithUnchecked_ok {E : Type} (ofArray : InvalidArrayError → E)
    (dims : List ArrayDimension) {f : List UInt8 → Option (List UInt8 × Except E Nat)}
    (hf : Appends f) {data data' : List UInt8}
    (h : pushArrayWithUnchecked ofArray dims f data = some (data', .ok ())) :
    dims.length ≤ MAX_ARRAY_DIMENSIONS ∧ ∃ elems,
      f (data ++ [Tag.array.toU8, UInt8.ofNat dims.length] ++ dims.flatMap dimensionBytes ++
          List.replicate 8 0) =
        some (data ++ [Tag.array.toU8, UInt8.ofNat dims.length] ++ dims.flatMap dimensionBytes ++
          List.replicate 8 0 ++ elems,
          .ok (if dims = [] then 0 else dims.foldl (fun c d => saturatingMul c d.length.toNat) 1)) ∧
      data' = data ++ [Tag.array.toU8, UInt8.ofNat dims.length] ++ dims.flatMap dimensionBytes ++
        leBytes elems.length 8 ++ elems := by
  unfold pushArrayWithUnchecked at h
  split at h
  · cases h
  · rename_i hmax
    refine ⟨Nat.le_of_not_lt hmax, ?_⟩
    dsimp only at h
    set header := data ++ [Tag.array.toU8, UInt8.ofNat dims.length] ++ dims.flatMap dimensionBytes
    obtain ⟨⟨data₁, res⟩, hf₁, h⟩ := Option.bind_eq_some_iff.mp h
    -- what the closure left is its input and the elements it pushed
    obtain ⟨elems, rfl⟩ := hf _ _ _ hf₁
    cases res with
    | error e => cases h
    | ok n =>
      obtain ⟨data₂, hcopy, h⟩ := Option.bind_eq_some_iff.mp h
      have hlen : (header ++ List.replicate 8 0 ++ elems).length - header.length - 8 =
          elems.length := by simp
      dsimp only at hcopy
      rw [hlen, Buffer.copyFromSlice?_append _ _ _ _ (by simp)] at hcopy
      cases hcopy
      by_cases hcard : n = if dims = [] then 0 else dims.foldl (fun c d => saturatingMul c d.length.toNat) 1
      · rw [if_neg (not_not.mpr hcard)] at h
        cases h
        exact ⟨elems, by rw [hf₁, hcard], rfl⟩
      · rw [if_pos hcard] at h
        cases h

theorem tryPushArray_error {dims : List ArrayDimension} {ds : List Datum}
    {data data' : List UInt8} {e : InvalidArrayError}
    (h : tryPushArray dims ds data = some (data', .error e)) : data' = data := by
  refine pushArrayWithUnchecked_error id dims ?_ h
  intro data₁ data₂ r hf
  obtain ⟨data₃, hext, hr⟩ := Option.map_eq_some_iff.mp hf
  cases hr
  exact prefix_of_extend hext

/-- Either kind of error of `try_push_array_fallible`, the array's or an element's, leaves the row
as it was. -/
theorem tryPushArrayFallible_error {E : Type} {dims : List ArrayDimension}
    {iter : List (Except E Datum)} {data data' : List UInt8}
    {r : Except InvalidArrayError (Except E Unit)}
    (h : tryPushArrayFallible dims iter data = some (data', r)) (hr : r ≠ .ok (.ok ())) :
    data' = data := by
  obtain ⟨⟨data₁, res⟩, hpush, h⟩ := Option.bind_eq_some_iff.mp h
  cases h
  have happ : Appends fun packer => (pushElements iter packer 0).map
      fun (data, r) => (data, r.mapError (Sum.inr (α := InvalidArrayError))) := by
    intro data₁ data₂ r hf
    obtain ⟨⟨data₃, r'⟩, hel, hr⟩ := Option.map_eq_some_iff.mp hf
    cases hr
    exact pushElements_appends iter 0 _ _ _ hel
  cases res with
  | ok u => exact absurd rfl hr
  | error e => exact pushArrayWithUnchecked_error Sum.inl dims happ hpush

/-- The loop over the dimensions counts them modulo 256. -/
theorem rowMajorDims_eq (numDims : UInt8) (cardinality : Nat) (data : List UInt8)
    (dims : List ArrayDimension) :
    rowMajorDims numDims cardinality data dims =
      (numDims + UInt8.ofNat dims.length,
        dims.foldl (fun c d => saturatingMul c d.length.toNat) cardinality,
        data ++ dims.flatMap dimensionBytes) := by
  induction dims generalizing numDims cardinality data with
  | nil => simp [rowMajorDims]
  | cons dim dims ih =>
    rw [rowMajorDims, ih]
    simp [UInt8.ofNat_add, add_assoc, add_comm]

theorem pushArrayWithRowMajor_error {dims : List ArrayDimension}
    {f : List UInt8 → Option (List UInt8 × Nat)} (hf : Appends f) {data data' : List UInt8}
    {e : InvalidArrayError} (h : pushArrayWithRowMajor dims f data = some (data', .error e)) :
    data' = data := by
  unfold pushArrayWithRowMajor at h
  dsimp only at h
  rw [rowMajorDims_eq] at h
  dsimp only at h
  have hpre₀ : data <+: data ++ [Tag.array.toU8] ++ [42] ++ dims.flatMap dimensionBytes := by
    simp [List.append_assoc]
  split at h
  · cases h
    exact (List.prefix_iff_eq_take.mp hpre₀).symm
  · -- the count, the closure and the length keep the row's old bytes in front
    obtain ⟨data₁, hdims, h⟩ := Option.bind_eq_some_iff.mp h
    have hpre₁ := Buffer.prefix_copyFromSlice? hpre₀ (by simp) hdims
    obtain ⟨⟨data₂, n⟩, hf₂, h⟩ := Option.bind_eq_some_iff.mp h
    have hpre₂ : data <+: data₂ := (hpre₁.trans (List.prefix_append _ _)).trans (hf _ _ _ hf₂)
    obtain ⟨data₃, hlen, h⟩ := Option.bind_eq_some_iff.mp h
    have hpre₃ := Buffer.prefix_copyFromSlice? hpre₂ hpre₁.length_le hlen
    generalize (if _ = (0 : UInt8) then 0 else _) = card at h
    split at h
    · cases h
      exact (List.prefix_iff_eq_take.mp hpre₃).symm
    · cases h

/-- A number of dimensions that is a multiple of 256 counts as none: with a closure that pushes
nothing, the array is accepted, and its header says that it has no dimensions while the bytes of
all of them follow. -/
theorem pushArrayWithRowMajor_dims_wrap {dims : List ArrayDimension}
    (hdims : dims.length % 256 = 0) (data : List UInt8) :
    pushArrayWithRowMajor dims (fun packer => some (packer, 0)) data =
      some (data ++ [Tag.array.toU8, 0] ++ dims.flatMap dimensionBytes ++ List.replicate 8 0,
        .ok ()) := by
  have hnum : (0 : UInt8) + UInt8.ofNat dims.length = 0 := by
    rw [zero_add, ← UInt8.ofNat_mod_size]
    simp [hdims]
  have hdims₁ := Buffer.copyFromSlice?_append (data ++ [Tag.array.toU8]) [42] [(0 : UInt8)]
    (dims.flatMap dimensionBytes) rfl
  have hlen := Buffer.copyFromSlice?_append
    (data ++ [Tag.array.toU8] ++ [0] ++ dims.flatMap dimensionBytes) (List.replicate 8 0)
    (leBytes 0 8) [] (by simp)
  rw [List.append_nil, List.append_nil, leBytes_zero] at hlen
  unfold pushArrayWithRowMajor
  dsimp only
  rw [rowMajorDims_eq, hnum, if_neg (by simp [MAX_ARRAY_DIMENSIONS]), hdims₁]
  simp only [Option.bind_eq_bind, Option.bind_some, List.length_append, List.length_replicate,
    Nat.add_sub_cancel_left, Nat.sub_self, leBytes_zero] at hlen ⊢
  rw [hlen]
  simp

/-! ## Ranges -/

section RangeLemmas

variable (datumGt : Datum → Datum → Bool)

theorem prefix_of_pushRangeBound {E : Type}
    {bound : Option (List UInt8 → Option (List UInt8 × Except E Unit))}
    (hb : ∀ v ∈ bound, PushesOk v) {data data' : List UInt8} {n : Nat} {r : Except E Nat}
    (h : pushRangeBound bound data n = some (data', r)) : data <+: data' ∧ ∃ m, r = .ok m := by
  cases bound with
  | none =>
    cases h
    exact ⟨List.prefix_refl _, n, rfl⟩
  | some v =>
    obtain ⟨⟨data₁, res⟩, hv, h⟩ := Option.bind_eq_some_iff.mp h
    obtain ⟨hpre, rfl⟩ := hb v rfl _ _ _ hv
    dsimp only at h
    split at h
    · cases h
      exact ⟨hpre, n + 1, rfl⟩
    · cases h

/-- With bounds that cannot fail, every error of `push_range_with` comes from its check of the
datums, and truncates. -/
theorem pushRangeWith_error {E : Type} (ofRange : InvalidRangeError → E)
    {lower upper : RangeBound (List UInt8 → Option (List UInt8 × Except E Unit))}
    (hl : ∀ v ∈ lower.bound, PushesOk v) (hu : ∀ v ∈ upper.bound, PushesOk v)
    {data data' : List UInt8} {e : E}
    (h : pushRangeWith datumGt ofRange lower upper data = some (data', .error e)) :
    data' = data := by
  unfold pushRangeWith at h
  dsimp only at h
  obtain ⟨⟨data₁, res₁⟩, hlow, h⟩ := Option.bind_eq_some_iff.mp h
  obtain ⟨hpre₁, n, rfl⟩ := prefix_of_pushRangeBound hl hlow
  obtain ⟨⟨data₂, res₂⟩, hup, h⟩ := Option.bind_eq_some_iff.mp h
  obtain ⟨hpre₂, m, rfl⟩ := prefix_of_pushRangeBound hu hup
  -- only the check can fail now, and each of its errors truncates
  have htake : data₂.take data.length = data :=
    (List.prefix_iff_eq_take.mp (((List.prefix_append _ _).trans hpre₁).trans hpre₂)).symm
  obtain ⟨c, -, h⟩ := Option.bind_eq_some_iff.mp h
  cases c with
  | error e' =>
    cases h
    exact htake
  | ok actual =>
    dsimp only at h
    split at h
    · cases h
      exact htake
    · cases h

/-- `push_range` is atomic: its closures push a datum and cannot fail. -/
theorem pushRange_error (canonicalize : Range Datum → Except InvalidRangeError (Range Datum))
    {range : Range Datum} {data data' : List UInt8} {e : InvalidRangeError}
    (h : pushRange datumGt canonicalize range data = some (data', .error e)) : data' = data := by
  unfold pushRange at h
  split at h
  · cases h
    rfl
  · split at h
    · cases h
    · exact pushRangeWith_error datumGt id (boundPusher_pushesOk _) (boundPusher_pushesOk _) h

/-- A lower bound whose closure fails returns its error through `?`, past every truncation: the
row keeps the range's tag and flags, and whatever the closure wrote. -/
theorem pushRangeWith_lower_error {E : Type} (ofRange : InvalidRangeError → E)
    {lower upper : RangeBound (List UInt8 → Option (List UInt8 × Except E Unit))}
    {value : List UInt8 → Option (List UInt8 × Except E Unit)} (hlower : lower.bound = some value)
    {data data' : List UInt8} {e : E}
    (hv : value (data ++ [Tag.range.toU8, rangeFlags lower upper]) = some (data', .error e)) :
    pushRangeWith datumGt ofRange lower upper data = some (data', .error e) := by
  unfold pushRangeWith pushRangeBound
  simp [hlower, hv]

theorem fallible_pushes_not_atomic :
    pushRangeWith datumGt id
        ⟨true, some fun packer => some (packer, .error InvalidRangeError.invalidRangeData)⟩
        ⟨false, none⟩ [] =
      some ([Tag.range.toU8, 18], .error .invalidRangeData) ∧
    pushArrayWithRowMajor (List.replicate 256 ⟨.lit 0, 1⟩) (fun packer => some (packer, 0))
        [] =
      some ([Tag.array.toU8, 0] ++ (List.replicate 256 ⟨.lit 0, 1⟩).flatMap dimensionBytes ++
        List.replicate 8 0, .ok ()) := by
  constructor
  · exact pushRangeWith_lower_error datumGt id rfl rfl
  · have hlen : (List.replicate 256 (⟨.lit 0, 1⟩ : ArrayDimension)).length % 256 = 0 := by
      rw [List.length_replicate]
    rw [pushArrayWithRowMajor_dims_wrap hlen [], List.nil_append]

end RangeLemmas

end Materialize.Row
