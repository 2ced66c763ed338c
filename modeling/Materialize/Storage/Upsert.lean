import Mathlib.Data.List.Basic
import Materialize.Lib.Weighted

/-!
# The consolidating state of an upsert key

During a snapshot the upsert operator (`src/storage/src/upsert/types.rs`) folds the updates of a
key into a `StateValue::Consolidating` that keeps four accumulators instead of the updates: the
sum of the diffs, the sums of the diff-weighted lengths and `seahash` checksums of the values'
`bincode` encodings, and the exclusive or of the encodings of the values with an odd diff, padded
with zeros. This module models:
- the states `Consolidating`, `Value` and `StateValue`, with `finalized_value` and `tombstone`;
- `merge_update`, which turns a `Value` back into a `Consolidating` first;
- `merge_update_state` and `consolidating_merge_function`;
- `ensure_decoded`, which decodes the accumulators once consolidation is over, and panics on
  accumulators of any other shape.

`bincode` and `seahash` are parameters (`Codec`). The accumulators are `Int64`, which adds and
multiplies as `Wrapping<i64>` does. A panic is `none`.
-/

namespace Materialize.Upsert

open Weighted

/-- What the accumulators need of the value type: its encoding and decoding under
`upsert_bincode_opts`, and `seahash::hash`. -/
structure Codec (V : Type) where
  serialize : V → List UInt8
  deserialize : List UInt8 → Option V
  hash : List UInt8 → UInt64

/-- `Consolidating`: the accumulators of the updates folded so far. The default is all zero. -/
structure Consolidating where
  valueXor : List UInt8 := []
  lenSum : Int64 := 0
  checksumSum : Int64 := 0
  diffSum : Int64 := 0
deriving DecidableEq, Repr

/-- `ProvisionalValue`: a value emitted for a timestamp that is not yet complete. -/
structure ProvisionalValue (V T O : Type) where
  timestamp : T
  order : O
  value : Option V
deriving DecidableEq, Repr

/-- `Value`: a consolidated value, `finalized = none` being a tombstone. -/
structure Value (V T O : Type) where
  finalized : Option V
  provisional : Option (ProvisionalValue V T O)
deriving DecidableEq, Repr

/-- `StateValue`. -/
inductive StateValue (V T O : Type) where
  | consolidating (c : Consolidating)
  | value (v : Value V T O)
deriving DecidableEq, Repr

namespace StateValue

variable {V T O : Type}

/-- `Default`: a `Consolidating` with every accumulator zero. -/
instance : Inhabited (StateValue V T O) := ⟨.consolidating {}⟩

@[simp] theorem default_eq : (default : StateValue V T O) = .consolidating {} := rfl

/-- `finalized_value`. -/
def finalizedValue (value : V) : StateValue V T O := .value ⟨some value, none⟩

/-- `tombstone`. -/
def tombstone : StateValue V T O := .value ⟨none, none⟩

/-- `into_finalized_value`: the finalized value of a decoded state; a `Consolidating` panics. -/
def intoFinalizedValue : StateValue V T O → Option (Option V)
  | .value v => some v.finalized
  | .consolidating _ => none

end StateValue

/-! ## Folding updates in -/

/-- The byte-wise exclusive or of `acc` with `buf`, after `acc` is resized with zeros to at least
the length of `buf`: the loop of `merge_update` and of `merge_update_state`. -/
def xorInto (acc buf : List UInt8) : List UInt8 :=
  let acc := acc ++ List.replicate (buf.length - acc.length) 0
  List.zipWith (· ^^^ ·) (acc.take buf.length) buf ++ acc.drop buf.length

/-- Whether `diff.abs() % 2 == 1`: the diff is odd. Only the parity of `|diff|` is read, so the
wrapped `abs` of `i64::MIN` (even either way) makes no difference. -/
def isOdd (diff : Int64) : Bool := diff.toInt.natAbs % 2 == 1

/-- The `bool` `merge_update` returns: whether the state may be deleted. It does not read
`len_sum`. -/
def Consolidating.canDelete (c : Consolidating) : Bool :=
  c.diffSum == 0 && c.checksumSum == 0 && c.valueXor.all (· == 0)

section Merge

variable {V T O : Type} (C : Codec V)

/-- `merge_update` on a `Consolidating`: add the update's diff, its diff-weighted length and
checksum, and, for an odd diff, exclusive-or its encoding in. An encoding longer than `i64::MAX`
panics in `i64::try_from(len).unwrap()`. -/
def Consolidating.mergeUpdate (c : Consolidating) (value : V) (diff : Int64) :
    Option (Consolidating × Bool) := do
  let buf := C.serialize value
  let len ← if buf.length < 2 ^ 63 then some (Int64.ofInt buf.length) else none
  let c : Consolidating :=
    { diffSum := c.diffSum + diff
      lenSum := c.lenSum + len * diff
      checksumSum := c.checksumSum + (C.hash buf).toInt64 * diff
      valueXor := if isOdd diff then xorInto c.valueXor buf else c.valueXor }
  pure (c, c.canDelete)

/-- `merge_update_state` on two `Consolidating`s: add the sums, exclusive-or the buffers. -/
def Consolidating.mergeUpdateState (c other : Consolidating) : Consolidating :=
  { diffSum := c.diffSum + other.diffSum
    lenSum := c.lenSum + other.lenSum
    checksumSum := c.checksumSum + other.checksumSum
    valueXor := xorInto c.valueXor other.valueXor }

namespace StateValue

/-- `merge_update`. A `Value` becomes a default `Consolidating` into which its finalized value, if
any, is merged with diff one before the update. Reference: `types.rs:446`. -/
def mergeUpdate : StateValue V T O → V → Int64 → Option (StateValue V T O × Bool)
  | .consolidating c, newValue, diff => do
    let (c, canDelete) ← c.mergeUpdate C newValue diff
    pure (.consolidating c, canDelete)
  | .value v, newValue, diff => do
    match v.finalized with
    | some finalizedValue =>
      let (c, _) ← ({} : Consolidating).mergeUpdate C finalizedValue 1
      let (c, canDelete) ← c.mergeUpdate C newValue diff
      pure (.consolidating c, canDelete)
    | none =>
      let (c, canDelete) ← ({} : Consolidating).mergeUpdate C newValue diff
      pure (.consolidating c, canDelete)

/-- `merge_update_state`: panics unless both states are `Consolidating`. Reference:
`types.rs:556`. -/
def mergeUpdateState : StateValue V T O → StateValue V T O → Option (StateValue V T O)
  | .consolidating c, .consolidating other => some (.consolidating (c.mergeUpdateState other))
  | _, _ => none

end StateValue

/-- One operand of `consolidating_merge_function`: a `Consolidating` operand is merged into the
state so far; a `Value` operand is first turned into the `Consolidating` of its finalized value,
and a tombstone is skipped. -/
def mergeOperand (current update : StateValue V T O) : Option (StateValue V T O) :=
  match update with
  | .consolidating _ => current.mergeUpdateState update
  | .value v =>
    match v.finalized with
    | some finalizedValue => do
      let (update, _) ← (default : StateValue V T O).mergeUpdate C finalizedValue 1
      current.mergeUpdateState update
    | none => some current

/-- `consolidating_merge_function`: the operands merged in turn into a default state. Reference:
`types.rs:935`. -/
def consolidatingMergeFunction (updates : List (StateValue V T O)) :
    Option (StateValue V T O) :=
  updates.foldlM (mergeOperand C) default

/-- `ensure_decoded`: a `Consolidating` with diff sum one is decoded from the first `len_sum` bytes
of its buffer once their checksum matches, and one with diff sum zero must have every other
accumulator zero and becomes a tombstone; anything else panics. A `Value` is left as it is.
Reference: `types.rs:589`. -/
def StateValue.ensureDecoded : StateValue V T O → Option (StateValue V T O)
  | .consolidating c =>
    if c.diffSum = 1 then do
      let len ← if 0 ≤ c.lenSum.toInt then some c.lenSum.toInt.toNat else none
      let value ← if len ≤ c.valueXor.length then some (c.valueXor.take len) else none
      if c.checksumSum = (C.hash value).toInt64 then (C.deserialize value).map finalizedValue
      else none
    else if c.diffSum = 0 then
      if c.lenSum = 0 ∧ c.checksumSum = 0 ∧ c.valueXor.all (· == 0) then some tombstone
      else none
    else none
  | .value v => some (.value v)

end Merge

/-! ## The accumulators of a list of updates -/

theorem getD_xorInto (acc buf : List UInt8) (i : ℕ) :
    (xorInto acc buf).getD i 0 = acc.getD i 0 ^^^ buf.getD i 0 := by
  simp only [xorInto, List.getD_eq_getElem?_getD, List.getElem?_append, List.getElem?_zipWith,
    List.getElem?_take, List.getElem?_drop, List.length_zipWith, List.length_take,
    List.length_append, List.length_replicate]
  -- within `buf` the two bytes are exclusive-ored; past it the padded accumulator is kept
  by_cases hb : i < buf.length <;> grind

theorem bytesAt_xorInto (acc buf : List UInt8) :
    bytesAt (xorInto acc buf) = bytesAt acc + bytesAt buf := by
  funext i
  exact XorByte.ext (getD_xorInto acc buf i)

theorem length_xorInto (acc buf : List UInt8) :
    (xorInto acc buf).length = max acc.length buf.length := by
  simp only [xorInto, List.length_append, List.length_zipWith, List.length_take,
    List.length_drop, List.length_replicate]
  omega

theorem isOdd_iff (diff : Int64) : isOdd diff = true ↔ diff.toInt % 2 = 1 := by
  simp only [isOdd, beq_iff_eq]
  omega

section Accumulators

variable {V : Type} (C : Codec V)

/-- What decoding needs of `bincode`: every encoding decodes back to its value, and its length
fits an `i64`. -/
structure Codec.Lawful : Prop where
  deserialize_serialize : ∀ v, C.deserialize (C.serialize v) = some v
  length_lt : ∀ v, (C.serialize v).length < 2 ^ 63

/-- The accumulators of `c` are those of the weighted updates `U`: the three sums, wrapped to
64 bits, and the exclusive or of the encodings of odd weight, whose longest one fits in the
buffer. -/
structure Represents (c : Consolidating) (U : List (V × ℤ)) : Prop where
  diffSum : c.diffSum = Int64.ofInt (wsum (fun _ => 1) U)
  lenSum : c.lenSum = Int64.ofInt (wsum (fun v => ((C.serialize v).length : ℤ)) U)
  checksumSum : c.checksumSum = Int64.ofInt (wsum (fun v => (C.hash (C.serialize v)).toInt64.toInt) U)
  valueXor : bytesAt c.valueXor = wsum (fun v => bytesAt (C.serialize v)) U
  length_le : ∀ p ∈ U, p.2 % 2 = 1 → (C.serialize p.1).length ≤ c.valueXor.length

theorem represents_default : Represents C {} [] where
  diffSum := rfl
  lenSum := rfl
  checksumSum := rfl
  valueXor := by
    funext i
    simp [bytesAt]
    rfl
  length_le := by simp

/-- One more update, weighted by its diff, adds `diff • x` to a sum whose summand is `x`. -/
theorem ofInt_wsum_concat (g : V → ℤ) (U : List (V × ℤ)) (v : V) (diff : Int64) :
    Int64.ofInt (wsum g (U ++ [(v, diff.toInt)])) =
      Int64.ofInt (wsum g U) + Int64.ofInt (g v) * diff := by
  rw [wsum_append, wsum_cons, wsum_nil, add_zero, smul_eq_mul, Int64.ofInt_add,
    Int64.ofInt_mul, Int64.ofInt_toInt, Int64.mul_comm]

/-- `merge_update` on a `Consolidating` accumulates one more update. -/
theorem Represents.mergeUpdate {c c' : Consolidating} {U : List (V × ℤ)} {v : V} {diff : Int64}
    {canDelete : Bool} (h : Represents C c U) (hm : c.mergeUpdate C v diff = some (c', canDelete)) :
    Represents C c' (U ++ [(v, diff.toInt)]) := by
  simp only [Consolidating.mergeUpdate, Option.bind_eq_bind] at hm
  split at hm
  case isFalse => simp at hm
  case isTrue hlen =>
    simp only [Option.bind_some, Option.pure_def, Option.some.injEq, Prod.mk.injEq] at hm
    obtain ⟨rfl, -⟩ := hm
    have hodd : diff.toInt • bytesAt (C.serialize v) =
        if isOdd diff then bytesAt (C.serialize v) else 0 := by
      rw [zsmul_of_add_self bytesAt_add_self]
      by_cases hd : diff.toInt % 2 = 1
      · simp [hd, (isOdd_iff diff).2 hd]
      · have hne : isOdd diff = false := by rw [← Bool.not_eq_true, isOdd_iff]; exact hd
        simp [hd, hne]
    constructor
    · rw [ofInt_wsum_concat, ← h.diffSum, show Int64.ofInt 1 = 1 from rfl, Int64.one_mul]
    · rw [ofInt_wsum_concat, ← h.lenSum]
    · rw [ofInt_wsum_concat, ← h.checksumSum, Int64.ofInt_toInt]
    · rw [wsum_append, wsum_cons, wsum_nil, add_zero, ← h.valueXor, hodd]
      split <;> simp [bytesAt_xorInto]
    · intro p hp hodd'
      simp only [List.mem_append, List.mem_singleton] at hp
      rcases hp with hp | rfl
      · have := h.length_le p hp hodd'
        split <;> simp only [length_xorInto] <;> omega
      · rw [if_pos ((isOdd_iff diff).2 hodd'), length_xorInto]
        exact le_max_right _ _

/-- `merge_update_state` on two `Consolidating`s accumulates the updates of both. -/
theorem Represents.mergeUpdateState {c c' : Consolidating} {U W : List (V × ℤ)}
    (h : Represents C c U) (h' : Represents C c' W) :
    Represents C (c.mergeUpdateState c') (U ++ W) where
  diffSum := by simp [Consolidating.mergeUpdateState, h.diffSum, h'.diffSum, Int64.ofInt_add]
  lenSum := by simp [Consolidating.mergeUpdateState, h.lenSum, h'.lenSum, Int64.ofInt_add]
  checksumSum := by
    simp [Consolidating.mergeUpdateState, h.checksumSum, h'.checksumSum, Int64.ofInt_add]
  valueXor := by
    simp [Consolidating.mergeUpdateState, bytesAt_xorInto, h.valueXor, h'.valueXor]
  length_le p hp hodd := by
    simp only [Consolidating.mergeUpdateState, length_xorInto]
    rcases List.mem_append.1 hp with hp | hp
    · exact le_max_of_le_left (h.length_le p hp hodd)
    · exact le_max_of_le_right (h'.length_le p hp hodd)

end Accumulators

/-! ## Any way of folding updates in -/

section Folds

variable {V T O : Type} (C : Codec V)

/-- `Folds s U`: the state `s` holds the weighted updates `U`. It is reached from a default state,
a finalized value or a tombstone by `merge_update` calls, and by combining such states with
`merge_update_state` or `consolidating_merge_function`, in any order. A finalized value holds
its value with weight one. -/
inductive Folds : StateValue V T O → List (V × ℤ) → Prop
  | default : Folds default []
  | finalizedValue (v : V) : Folds (.finalizedValue v) [(v, 1)]
  | tombstone : Folds .tombstone []
  | mergeUpdate {s s' : StateValue V T O} {U : List (V × ℤ)} {v : V} {diff : Int64}
      {canDelete : Bool} :
      Folds s U → s.mergeUpdate C v diff = some (s', canDelete) →
        Folds s' (U ++ [(v, diff.toInt)])
  | mergeUpdateState {s t r : StateValue V T O} {U W : List (V × ℤ)} :
      Folds s U → Folds t W → s.mergeUpdateState t = some r → Folds r (U ++ W)
  | consolidatingMergeFunction {parts : List (StateValue V T O × List (V × ℤ))}
      {r : StateValue V T O} :
      (∀ p ∈ parts, Folds p.1 p.2) → consolidatingMergeFunction C (parts.map (·.1)) = some r →
        Folds r (parts.flatMap (·.2))

/-- What a state holds: the accumulators of its updates, or, for a decoded state, its finalized
value with weight one and no provisional value. -/
def Holds : StateValue V T O → List (V × ℤ) → Prop
  | .consolidating c, U => Represents C c U
  | .value v, U => v.provisional = none ∧ U = v.finalized.toList.map (·, 1)

theorem holds_default : Holds C (default : StateValue V T O) [] := represents_default C

/-- `merge_update` adds its update to what the state holds. -/
theorem Holds.mergeUpdate {s s' : StateValue V T O} {U : List (V × ℤ)} {v : V} {diff : Int64}
    {canDelete : Bool} (h : Holds C s U) (hm : s.mergeUpdate C v diff = some (s', canDelete)) :
    Holds C s' (U ++ [(v, diff.toInt)]) := by
  cases s with
  | consolidating c =>
    simp only [StateValue.mergeUpdate, Option.bind_eq_bind, Option.bind_eq_some_iff,
      Option.pure_def, Option.some.injEq, Prod.mk.injEq] at hm
    obtain ⟨⟨c', b⟩, hc', rfl, -⟩ := hm
    exact Represents.mergeUpdate C h hc'
  | value w =>
    obtain ⟨-, rfl⟩ := h
    cases hf : w.finalized with
    | none =>
      simp only [StateValue.mergeUpdate, hf, Option.bind_eq_bind, Option.bind_eq_some_iff,
        Option.pure_def, Option.some.injEq, Prod.mk.injEq] at hm
      obtain ⟨⟨c', b⟩, hc', rfl, -⟩ := hm
      exact Represents.mergeUpdate C (represents_default C) hc'
    | some fv =>
      simp only [StateValue.mergeUpdate, hf, Option.bind_eq_bind, Option.bind_eq_some_iff,
        Option.pure_def, Option.some.injEq, Prod.mk.injEq] at hm
      obtain ⟨⟨c₁, b₁⟩, hc₁, ⟨c', b⟩, hc', rfl, -⟩ := hm
      have h₁ := Represents.mergeUpdate C (represents_default C) hc₁
      exact Represents.mergeUpdate C h₁ hc'

/-- `merge_update_state`, where it does not panic, adds the updates of both states. -/
theorem Holds.mergeUpdateState {s t r : StateValue V T O} {U W : List (V × ℤ)}
    (hs : Holds C s U) (ht : Holds C t W) (hm : s.mergeUpdateState t = some r) :
    Holds C r (U ++ W) := by
  cases s <;> cases t <;> simp only [StateValue.mergeUpdateState, reduceCtorEq,
    Option.some.injEq] at hm
  subst hm
  exact Represents.mergeUpdateState C hs ht

/-- One operand of `consolidating_merge_function` adds its updates to the state merged so far. -/
theorem Holds.operand {current update r : StateValue V T O} {U W : List (V × ℤ)}
    (hc : Holds C current U) (hu : Holds C update W) (hm : mergeOperand C current update = some r) :
    Holds C r (U ++ W) := by
  cases update with
  | consolidating c => exact hc.mergeUpdateState C hu hm
  | value w =>
    obtain ⟨-, rfl⟩ := hu
    cases hf : w.finalized with
    | none =>
      simp only [mergeOperand] at hm
      simp only [hf, Option.some.injEq] at hm
      simpa [← hm] using hc
    | some fv =>
      simp only [mergeOperand] at hm
      simp only [hf, Option.bind_eq_bind, Option.bind_eq_some_iff] at hm
      obtain ⟨⟨u, b⟩, hu', hm⟩ := hm
      have hu₁ := (holds_default C).mergeUpdate C hu'
      simpa using hc.mergeUpdateState C hu₁ hm

/-- `consolidating_merge_function` holds the updates of all its operands. -/
theorem holds_consolidatingMergeFunction {parts : List (StateValue V T O × List (V × ℤ))}
    {r : StateValue V T O} (h : ∀ p ∈ parts, Holds C p.1 p.2)
    (hm : consolidatingMergeFunction C (parts.map (·.1)) = some r) :
    Holds C r (parts.flatMap (·.2)) := by
  unfold consolidatingMergeFunction at hm
  -- the fold, from any state holding `U`, holds `U` followed by the operands' updates
  suffices ∀ (parts : List (StateValue V T O × List (V × ℤ))) (current : StateValue V T O) U,
      (∀ p ∈ parts, Holds C p.1 p.2) → Holds C current U →
      (parts.map (·.1)).foldlM (mergeOperand C) current = some r →
        Holds C r (U ++ parts.flatMap (·.2)) by
    simpa using this parts default [] h (holds_default C) hm
  intro parts
  induction parts with
  | nil =>
    intro current U _ hU hm
    simpa [← Option.some.inj hm] using hU
  | cons p parts ih =>
    intro current U hp hU hm
    simp only [List.map_cons, List.foldlM_cons, Option.bind_eq_bind,
      Option.bind_eq_some_iff] at hm
    obtain ⟨next, hnext, hm⟩ := hm
    have hnext' := hU.operand C (hp p (List.mem_cons_self ..)) hnext
    simpa using ih next _ (fun q hq => hp q (List.mem_cons_of_mem _ hq)) hnext' hm

/-- `merge_update` returns whether the `Consolidating` it leaves may be deleted. -/
theorem mergeUpdate_canDelete {s s' : StateValue V T O} {v : V} {diff : Int64} {canDelete : Bool}
    (hm : s.mergeUpdate C v diff = some (s', canDelete)) :
    ∃ c, s' = .consolidating c ∧ canDelete = c.canDelete := by
  have hc : ∀ {c c' : Consolidating} {v : V} {diff : Int64} {b : Bool},
      c.mergeUpdate C v diff = some (c', b) → b = c'.canDelete := by
    intro c c' v diff b h
    simp only [Consolidating.mergeUpdate, Option.bind_eq_bind] at h
    split at h
    · simp only [Option.bind_some, Option.pure_def, Option.some.injEq, Prod.mk.injEq] at h
      obtain ⟨rfl, rfl⟩ := h
      rfl
    · simp at h
  cases s with
  | consolidating c =>
    simp only [StateValue.mergeUpdate, Option.bind_eq_bind, Option.bind_eq_some_iff,
      Option.pure_def, Option.some.injEq, Prod.mk.injEq] at hm
    obtain ⟨⟨c', b⟩, hc', rfl, rfl⟩ := hm
    exact ⟨c', rfl, hc hc'⟩
  | value w =>
    cases hf : w.finalized with
    | none =>
      simp only [StateValue.mergeUpdate, hf, Option.bind_eq_bind, Option.bind_eq_some_iff,
        Option.pure_def, Option.some.injEq, Prod.mk.injEq] at hm
      obtain ⟨⟨c', b⟩, hc', rfl, rfl⟩ := hm
      exact ⟨c', rfl, hc hc'⟩
    | some fv =>
      simp only [StateValue.mergeUpdate, hf, Option.bind_eq_bind, Option.bind_eq_some_iff,
        Option.pure_def, Option.some.injEq, Prod.mk.injEq] at hm
      obtain ⟨_, _, ⟨c', b⟩, hc', hs, rfl⟩ := hm
      exact ⟨c', hs.symm, hc hc'⟩

/-- Every way of folding updates in holds them. -/
theorem Folds.holds {s : StateValue V T O} {U : List (V × ℤ)} (h : Folds C s U) :
    Holds C s U := by
  induction h with
  | default => exact holds_default C
  | finalizedValue v => exact ⟨rfl, rfl⟩
  | tombstone => exact ⟨rfl, rfl⟩
  | mergeUpdate _ hm ih => exact ih.mergeUpdate C hm
  | mergeUpdateState _ _ hm ih₁ ih₂ => exact ih₁.mergeUpdateState C ih₂ hm
  | consolidatingMergeFunction _ hm ih => exact holds_consolidatingMergeFunction C ih hm

end Folds

/-! ## Decoding -/

section Decode

variable {V T O : Type} [DecidableEq V] (C : Codec V)

/-- Accumulators of updates that consolidate to nothing are all zero. -/
theorem Represents.eq_zero {c : Consolidating} {U : List (V × ℤ)} (h : Represents C c U)
    (hw : ∀ a, weight U a = 0) :
    c.diffSum = 0 ∧ c.lenSum = 0 ∧ c.checksumSum = 0 ∧ ∀ x ∈ c.valueXor, x = 0 := by
  refine ⟨?_, ?_, ?_, ?_⟩
  · rw [h.diffSum, wsum_of_weight_eq_zero _ hw]; rfl
  · rw [h.lenSum, wsum_of_weight_eq_zero _ hw]; rfl
  · rw [h.checksumSum, wsum_of_weight_eq_zero _ hw]; rfl
  · rw [← bytesAt_eq_zero_iff, h.valueXor, wsum_of_weight_eq_zero _ hw]

/-- Accumulators of updates that consolidate to `cur` with weight one are those of `cur`: its
diff, length and checksum, and an exclusive or whose first bytes are its encoding. -/
theorem Represents.eq_single (hC : C.Lawful) {c : Consolidating} {U : List (V × ℤ)} {cur : V}
    (h : Represents C c U) (hw : ∀ a, weight U a = if a = cur then 1 else 0) :
    c.diffSum = 1 ∧ c.lenSum.toInt = (C.serialize cur).length ∧
      c.checksumSum = (C.hash (C.serialize cur)).toInt64 ∧
      c.valueXor.take (C.serialize cur).length = C.serialize cur := by
  have hlen := hC.length_lt cur
  refine ⟨?_, ?_, ?_, ?_⟩
  · rw [h.diffSum, wsum_of_weight_eq_single _ hw]; rfl
  · rw [h.lenSum, wsum_of_weight_eq_single _ hw, Int64.toInt_ofInt]
    exact Int.bmod_eq_of_le (by omega) (by simp [Int64.size]; omega)
  · rw [h.checksumSum, wsum_of_weight_eq_single _ hw, Int64.ofInt_toInt]
  · -- `cur` was exclusive-ored in with an odd weight, so the buffer is at least as long
    obtain ⟨p, hp, rfl, hodd⟩ := exists_odd_of_weight_odd (U := U) (a := cur) (by simp [hw])
    apply take_eq_of_bytesAt_eq _ (h.length_le p hp hodd)
    rw [h.valueXor, wsum_of_weight_eq_single _ hw]

/-- A decoded state's updates consolidate to nothing only if it is a tombstone. -/
theorem Holds.value_of_weight_eq_zero {w : Value V T O} {U : List (V × ℤ)}
    (h : Holds C (.value w) U) (hw : ∀ a, weight U a = 0) : StateValue.value w = .tombstone := by
  obtain ⟨hp, rfl⟩ := h
  cases hf : w.finalized with
  | none => cases w; simp_all [StateValue.tombstone]
  | some v => simpa [hf] using hw v

/-- A decoded state's updates consolidate to `cur` with weight one only if it is `cur`'s finalized
value. -/
theorem Holds.value_of_weight_eq_single {w : Value V T O} {U : List (V × ℤ)} {cur : V}
    (h : Holds C (.value w) U) (hw : ∀ a, weight U a = if a = cur then 1 else 0) :
    StateValue.value w = .finalizedValue cur := by
  obtain ⟨hp, rfl⟩ := h
  cases hf : w.finalized with
  | none => simpa [hf] using hw cur
  | some v =>
    have hv : v = cur := by simpa [hf] using hw v
    cases w
    simp_all [StateValue.finalizedValue]

/-- `ensure_decoded` of a state whose updates consolidate to nothing gives a tombstone. -/
theorem ensureDecoded_of_weight_eq_zero {s : StateValue V T O} {U : List (V × ℤ)}
    (h : Holds C s U) (hw : ∀ a, weight U a = 0) : s.ensureDecoded C = some .tombstone := by
  cases s with
  | value w => rw [← h.value_of_weight_eq_zero C hw]; rfl
  | consolidating c =>
    obtain ⟨hd, hl, hc, hx⟩ := Represents.eq_zero C h hw
    simpa [StateValue.ensureDecoded, hd, hl, hc] using hx

/-- `ensure_decoded` of a state whose updates consolidate to `cur` with weight one gives `cur`'s
finalized value. -/
theorem ensureDecoded_of_weight_eq_single (hC : C.Lawful) {s : StateValue V T O}
    {U : List (V × ℤ)} {cur : V} (h : Holds C s U)
    (hw : ∀ a, weight U a = if a = cur then 1 else 0) :
    s.ensureDecoded C = some (.finalizedValue cur) := by
  cases s with
  | value w => rw [← h.value_of_weight_eq_single C hw]; rfl
  | consolidating c =>
    obtain ⟨hd, hl, hc, hx⟩ := Represents.eq_single C hC h hw
    have hle : (C.serialize cur).length ≤ c.valueXor.length := by
      have := congrArg List.length hx
      simp only [List.length_take] at this
      omega
    simp [StateValue.ensureDecoded, hd, hl, hc, hle, hx, hC.deserialize_serialize]

/-- The last `merge_update` of updates that consolidate to nothing says the state may be deleted,
and leaves every accumulator zero. -/
theorem mergeUpdate_canDelete_of_weight_eq_zero {s s' : StateValue V T O} {U : List (V × ℤ)}
    {v : V} {diff : Int64} {canDelete : Bool} (h : Holds C s U)
    (hm : s.mergeUpdate C v diff = some (s', canDelete))
    (hw : ∀ a, weight (U ++ [(v, diff.toInt)]) a = 0) :
    canDelete = true ∧ ∃ c, s' = .consolidating c ∧
      c.diffSum = 0 ∧ c.lenSum = 0 ∧ c.checksumSum = 0 ∧ ∀ x ∈ c.valueXor, x = 0 := by
  obtain ⟨c, rfl, rfl⟩ := mergeUpdate_canDelete C hm
  have hz := Represents.eq_zero C (h.mergeUpdate C hm) hw
  have hx : c.valueXor.all (· == 0) = true := by simpa using hz.2.2.2
  exact ⟨by simp [Consolidating.canDelete, hz.1, hz.2.2.1, hx], c, rfl, hz⟩

end Decode

/-! ## Totality -/

section Total

variable {V T O : Type} (C : Codec V)

theorem Consolidating.mergeUpdate_isSome (hC : C.Lawful) (c : Consolidating) (v : V)
    (diff : Int64) : (c.mergeUpdate C v diff).isSome := by
  simpa [Consolidating.mergeUpdate] using hC.length_lt v

/-- `merge_update` never panics. -/
theorem StateValue.mergeUpdate_isSome (hC : C.Lawful) (s : StateValue V T O) (v : V)
    (diff : Int64) : (s.mergeUpdate C v diff).isSome := by
  have hc := Consolidating.mergeUpdate_isSome C hC
  cases s with
  | consolidating c =>
    obtain ⟨r, hr⟩ := Option.isSome_iff_exists.1 (hc c v diff)
    simp [StateValue.mergeUpdate, hr]
  | value w =>
    obtain ⟨r, hr⟩ := Option.isSome_iff_exists.1 (hc {} v diff)
    cases hf : w.finalized with
    | none => simp [StateValue.mergeUpdate, hf, hr]
    | some fv =>
      obtain ⟨r₁, hr₁⟩ := Option.isSome_iff_exists.1 (hc {} fv 1)
      obtain ⟨r₂, hr₂⟩ := Option.isSome_iff_exists.1 (hc r₁.1 v diff)
      simp [StateValue.mergeUpdate, hf, hr₁, hr₂]

/-- An operand merged into a `Consolidating` leaves a `Consolidating`. -/
theorem mergeOperand_consolidating (hC : C.Lawful) (c : Consolidating)
    (update : StateValue V T O) :
    ∃ c', mergeOperand C (.consolidating c) update = some (.consolidating c') := by
  cases update with
  | consolidating u => exact ⟨_, rfl⟩
  | value w =>
    cases hf : w.finalized with
    | none => exact ⟨c, by simp [mergeOperand, hf]⟩
    | some fv =>
      obtain ⟨⟨u, b⟩, hu⟩ :=
        Option.isSome_iff_exists.1 (Consolidating.mergeUpdate_isSome C hC {} fv 1)
      exact ⟨c.mergeUpdateState u, by
        simp [mergeOperand, hf, StateValue.mergeUpdate, hu, StateValue.mergeUpdateState]⟩

/-- `consolidating_merge_function` never panics. -/
theorem consolidatingMergeFunction_isSome (hC : C.Lawful) (updates : List (StateValue V T O)) :
    (consolidatingMergeFunction C updates).isSome := by
  -- the state merged so far stays a `Consolidating`
  suffices ∀ c, (updates.foldlM (mergeOperand C) (.consolidating c)).isSome from this {}
  induction updates with
  | nil => simp
  | cons u updates ih =>
    intro c
    obtain ⟨c', hc'⟩ := mergeOperand_consolidating C hC c u
    simpa [hc'] using ih c'

end Total

/-! ## Consolidation is exact -/

/-- However updates of one key are folded into states (by `merge_update` from a default state, a
finalized value or a tombstone, combined by `merge_update_state` or `consolidating_merge_function`,
in any order and grouping), `merge_update` and `consolidating_merge_function` never panic, and
`ensure_decoded` gives a tombstone when the updates consolidate to nothing and `cur`'s finalized
value when they consolidate to `cur` with diff one. A `merge_update` that completes an empty
consolidation says the state may be deleted, and leaves every accumulator zero. -/
theorem xor_consolidation_exact {V T O : Type} [DecidableEq V] (C : Codec V) (hC : C.Lawful) :
    (∀ (s : StateValue V T O) (v : V) (diff : Int64), (s.mergeUpdate C v diff).isSome) ∧
    (∀ updates : List (StateValue V T O), (consolidatingMergeFunction C updates).isSome) ∧
    (∀ (s : StateValue V T O) (U : List (V × ℤ)), Folds C s U → (∀ a, weight U a = 0) →
      s.ensureDecoded C = some .tombstone) ∧
    (∀ (s : StateValue V T O) (U : List (V × ℤ)) (cur : V), Folds C s U →
      (∀ a, weight U a = if a = cur then 1 else 0) →
      s.ensureDecoded C = some (.finalizedValue cur)) ∧
    (∀ (s s' : StateValue V T O) (U : List (V × ℤ)) (v : V) (diff : Int64) (canDelete : Bool),
      Folds C s U → s.mergeUpdate C v diff = some (s', canDelete) →
      (∀ a, weight (U ++ [(v, diff.toInt)]) a = 0) →
      canDelete = true ∧ ∃ c, s' = .consolidating c ∧
        c.diffSum = 0 ∧ c.lenSum = 0 ∧ c.checksumSum = 0 ∧ ∀ x ∈ c.valueXor, x = 0) :=
  ⟨StateValue.mergeUpdate_isSome C hC, consolidatingMergeFunction_isSome C hC,
    fun _ _ h hw => ensureDecoded_of_weight_eq_zero C (h.holds C) hw,
    fun _ _ _ h hw => ensureDecoded_of_weight_eq_single C hC (h.holds C) hw,
    fun _ _ _ _ _ _ h hm hw => mergeUpdate_canDelete_of_weight_eq_zero C (h.holds C) hm hw⟩

/-- `bool` under `bincode`: one byte, `0` or `1`. The checksum stands in for `seahash`. -/
def boolCodec : Codec Bool where
  serialize b := [if b then 1 else 0]
  deserialize
    | [0] => some false
    | [1] => some true
    | _ => none
  hash l := l.length.toUInt64

theorem boolCodec_lawful : boolCodec.Lawful where
  deserialize_serialize v := by cases v <;> rfl
  length_lt v := by cases v <;> decide

/-- Folded in any way, `false` inserted and retracted and `true` inserted twice and retracted
once decode to `true`. -/
theorem xor_consolidation_exact_bool :
    boolCodec.Lawful ∧ ∀ s : StateValue Bool Unit Unit,
      Folds boolCodec s [(false, 1), (true, 2), (false, -1), (true, -1)] →
      s.ensureDecoded boolCodec = some (.finalizedValue true) :=
  ⟨boolCodec_lawful, fun s h =>
    (xor_consolidation_exact boolCodec boolCodec_lawful).2.2.2.1 s _ true h (by decide)⟩

end Materialize.Upsert
