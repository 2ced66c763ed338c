import Mathlib.Data.Prod.Lex
import Mathlib.Data.List.Nodup
import Mathlib.Data.List.Sort
import Mathlib.Order.Nat
import Materialize.Lib.SortedMap
import Materialize.Persist.Trace

/-!
# Flattening a trace, and decoding it back

The model of `Trace::flatten` and `Trace::unflatten` from `persist-client/src/internal/trace.rs`,
the encoding a trace is stored and diffed in. `flatten` lists every spine batch under its id with
its level and the ids of its parts, every merge and every batch's active compaction under an id,
and the hollow batches: those over an empty time range under their id, the others in a set of
"legacy" batches that carries no id. `unflatten` reads a `FlatTrace` decoded from a blob, which
may be anything, and rebuilds the levels from it: legacy batches are matched to the parts that
ask for them by their frontiers, and a trace whose structure was not written out is rebuilt by
pushing its legacy batches one after the other.

What the model fixes, beyond `Persist.Spine`:

* `BTreeMap`s keyed by `SpineId` are `SortedMap`s under the order the derived `Ord` gives; the
  keys of `legacy_batches` are a list without repeats in the order they were inserted, since
  `unflatten` sorts them by lower before it reads them and their own order only decides between
  batches with equal lowers.
* The legacy batches `unflatten` pops from the end of a vector are a stack whose head is popped
  first.
* Error messages keep their fixed text; the values they format are left out, and the
  `warn!` on a since out of sync is not modelled.
-/

namespace Materialize.Persist

/-- The order the derived `Ord` of `SpineId(usize, usize)` gives: by `lo`, then by `hi`. -/
instance : LinearOrder SpineId :=
  LinearOrder.lift' (fun id => toLex (id.lo, id.hi)) fun a b h => by
    cases a; cases b; simp_all

variable {A P M : Type}

/-! ## The flattened trace -/

/-- `ThinSpineBatch<T>`: a spine batch by the ids of its parts. -/
structure ThinSpineBatch (A : Type) where
  level : Nat
  desc : Description A
  parts : List SpineId
  descs : List (Description A)
deriving DecidableEq, Repr

/-- `ThinMerge<T>`: a merge in progress, or the compaction claimed on a batch. -/
structure ThinMerge (A : Type) where
  since : A
  remainingWork : Nat
  activeCompaction : Option ActiveCompaction
deriving DecidableEq, Repr

/-- `ThinMerge::fueling`. -/
def ThinMerge.fueling (merge : FuelingMerge A) : ThinMerge A :=
  ⟨merge.since, merge.remainingWork, none⟩

/-- `ThinMerge::fueled`. -/
def ThinMerge.fueled (batch : SpineBatch A P M) : ThinMerge A :=
  ⟨batch.desc.since, 0, batch.activeCompaction⟩

/-- `FlatTrace<T>`. -/
structure FlatTrace (A P M : Type) where
  since : A
  legacyBatches : List (HollowBatch A P M)
  legacy_nodup : legacyBatches.Nodup
  hollowBatches : SortedMap SpineId (HollowBatch A P M)
  spineBatches : SortedMap SpineId (ThinSpineBatch A)
  merges : SortedMap SpineId (ThinMerge A)

/-! ## `flatten` -/

/-- The empty flattened trace at `since`. -/
def FlatTrace.empty (since : A) : FlatTrace A P M :=
  ⟨since, [], List.nodup_nil, .empty, .empty, .empty⟩

section Flatten
variable [DecidableEq A] [DecidableEq P] [DecidableEq M]

/-- `legacy_batches.insert(batch, ())`: a batch already there is not added again. -/
def FlatTrace.insertLegacy (flat : FlatTrace A P M) (batch : HollowBatch A P M) : FlatTrace A P M :=
  if h : batch ∈ flat.legacyBatches then flat
  else { flat with legacyBatches := flat.legacyBatches ++ [batch],
                   legacy_nodup := by
                     simpa only [List.concat_eq_append] using List.Nodup.concat h flat.legacy_nodup }

/-- The closure `push_spine_batch` of `Trace::flatten`: the batch's hollow batches, those over an
empty time range under their id and the others as legacy batches, and the batch by the ids of its
parts. -/
def FlatTrace.pushSpineBatch (flat : FlatTrace A P M) (level : Nat) (batch : SpineBatch A P M) :
    FlatTrace A P M :=
  let flat := batch.parts.foldl (fun flat part =>
    if part.batch.desc.lower = part.batch.desc.upper then
      { flat with hollowBatches := (flat.hollowBatches.insert part.id part.batch).2 }
    else flat.insertLegacy part.batch) flat
  { flat with spineBatches := (flat.spineBatches.insert batch.id
      ⟨level, batch.desc, batch.parts.map (·.id), batch.parts.map (·.batch.desc)⟩).2 }

/-- Record a merge under `id`; a panic if one is recorded there already. -/
def FlatTrace.insertMerge (flat : FlatTrace A P M) (id : SpineId) (merge : ThinMerge A) :
    Option (FlatTrace A P M) :=
  match flat.merges.insert id merge with
  | (none, merges) => some { flat with merges }
  | (some _, _) => none

/-- One level of `Trace::flatten`'s loop: each batch with the compaction claimed on it, then the
level's merge. -/
def FlatTrace.pushLevel (flat : FlatTrace A P M) (level : Nat) (state : MergeState A P M) :
    Option (FlatTrace A P M) := do
  let flat ← state.batches.foldlM (fun flat batch =>
    let flat := flat.pushSpineBatch level batch
    match batch.activeCompaction with
    | some _ => flat.insertMerge batch.id (ThinMerge.fueled batch)
    | none => some flat) flat
  match state.merge with
  | some ⟨id, merge⟩ => flat.insertMerge id (ThinMerge.fueling merge)
  | none => some flat

/-- `Trace::flatten`. Without its structure a trace keeps only the legacy batches, and a hollow
batch over an empty time range is a panic. -/
def Trace.flatten (t : Trace A P M) : Option (FlatTrace A P M) := do
  let flat ← t.spine.merging.zipIdx.foldlM (fun flat (state, level) => flat.pushLevel level state)
    (FlatTrace.empty t.spine.since)
  if t.roundtripStructure then return flat
  -- `assert!(hollow_batches.is_empty())`
  if !flat.hollowBatches.isEmpty then failure
  return { flat with spineBatches := .empty, merges := .empty }

end Flatten

/-! ## `unflatten` -/

/-- `MAX_TOTAL_LEN`: `usize::MAX >> 3`. -/
def maxTotalLen : Nat := (2 ^ 64 - 1) / 2 ^ 3

/-- `MAX_LEVELS`. -/
def maxLevels : Nat := 256

/-- The bound `unflatten` puts on the total len of the batches it reads. -/
def checkTotalLen (batches : List (HollowBatch A P M)) : Except String Unit :=
  (batches.foldlM (fun (total : Nat) batch =>
    (if total + batch.len ≤ maxTotalLen then .ok (total + batch.len)
    else .error "total len of batches exceeds the maximum trace size" : Except String Nat)) 0).map
      fun _ => ()

/-- Where `unflatten` takes its hollow batches from: those by id, and the legacy batches as a
stack whose head `pop` takes first. -/
structure BatchSource (A P M : Type) where
  hollowBatches : SortedMap SpineId (HollowBatch A P M)
  legacy : List (HollowBatch A P M)

section Unflatten
variable [LinearOrder A]

/-- The loop of `pop_batch` that rolls the empty legacy batches that follow into an empty one
ending at `newUpper`, until it reaches the expected upper or meets a batch with parts. -/
def rollInEmpty (expectedUpper : A) :
    A → List (HollowBatch A P M) → A × List (HollowBatch A P M)
  | newUpper, stack =>
    if newUpper < expectedUpper then
      match stack with
      | [] => (newUpper, [])
      | next :: rest =>
        if next.isEmpty then rollInEmpty expectedUpper next.desc.upper rest
        else (newUpper, next :: rest)
    else (newUpper, stack)

/-- An empty legacy batch taken for a part that expects `expected`: rolled on into the empty
batches after it, then cut at the expected upper, the rest going back on the stack. -/
def resplitEmpty (expected : Description A) (batch : HollowBatch A P M)
    (legacy : List (HollowBatch A P M)) : HollowBatch A P M × List (HollowBatch A P M) :=
  let (newUpper, legacy) := rollInEmpty expected.upper batch.desc.upper legacy
  let (newUpper, legacy) :=
    if expected.upper < newUpper then
      (expected.upper, HollowBatch.empty ⟨expected.upper, newUpper, batch.desc.since⟩ :: legacy)
    else (newUpper, legacy)
  (HollowBatch.empty ⟨batch.desc.lower, newUpper, batch.desc.since⟩, legacy)

/-- The closure `pop_batch` of `Trace::unflatten`: the hollow batch with id `id` if there is one,
else the next legacy batch, checked against the description the spine batch expects of it. -/
def BatchSource.popBatch (src : BatchSource A P M) (id : SpineId)
    (expectedDesc : Option (Description A)) :
    Except String (IdHollowBatch A P M × BatchSource A P M) :=
  match src.hollowBatches.remove id with
  | (some batch, hollowBatches) =>
    match expectedDesc with
    | some desc =>
      if desc.lower ≠ batch.desc.lower ∨ desc.upper ≠ batch.desc.upper then
        .error "hollow batch desc did not match the spine batch desc"
      else .ok (⟨id, batch⟩, { src with hollowBatches })
    | none => .ok (⟨id, batch⟩, { src with hollowBatches })
  | (none, _) =>
    match src.legacy with
    | [] => .error "missing referenced hollow batch"
    | batch :: legacy =>
      match expectedDesc with
      | none => .ok (⟨id, batch⟩, { src with legacy })
      | some expected =>
        if expected.lower ≠ batch.desc.lower then
          .error "hollow batch lower did not match expected lower"
        else
          -- empty legacy batches are split up as the spine batches ask
          let (batch, legacy) :=
            if batch.parts.isEmpty ∧ batch.runSplits.isEmpty ∧ batch.len = 0 then
              resplitEmpty expected batch legacy
            else (batch, legacy)
          if expected.upper ≠ batch.desc.upper then
            .error "hollow batch upper did not match expected upper"
          else .ok (⟨id, batch⟩, { src with legacy })

/-- The parts of a thin spine batch, popped in order with the descriptions they expect. -/
def BatchSource.popParts : BatchSource A P M → List (SpineId × Option (Description A)) →
    Except String (List (IdHollowBatch A P M) × BatchSource A P M)
  | src, [] => .ok ([], src)
  | src, (id, desc) :: rest => do
    let (part, src) ← src.popBatch id desc
    let (parts, src) ← BatchSource.popParts src rest
    pure (part :: parts, src)

end Unflatten

/-- The parts tile the id range `id`: the first starts it, the last ends it, and each ends where
the next starts. -/
def partsTile (id : SpineId) (parts : List (IdHollowBatch A P M)) : Bool :=
  parts.head?.map (·.id.lo) == some id.lo && parts.getLast?.map (·.id.hi) == some id.hi &&
    !(parts.zip parts.tail).any fun (a, b) => a.id.hi != b.id.lo

/-- What the loop of `unflatten` over the spine batches carries: the hollow batches not yet
taken, the merges not yet placed, and the levels built so far. -/
structure Unflattening (A P M : Type) where
  src : BatchSource A P M
  merges : SortedMap SpineId (ThinMerge A)
  merging : List (MergeState A P M)

section Unflatten
variable [LinearOrder A]

/-- Place the merge recorded under the level's id on the level. -/
def MergeState.placeMerge (state : MergeState A P M) (merges : SortedMap SpineId (ThinMerge A)) :
    MergeState A P M × SortedMap SpineId (ThinMerge A) :=
  match state.id with
  | some id =>
    match merges.remove id with
    | (some merge, merges) =>
      ({ state with merge := some ⟨id, ⟨merge.since, merge.remainingWork⟩⟩ }, merges)
    | (none, _) => (state, merges)
  | none => (state, merges)

/-- One step of `unflatten`'s loop: rebuild the spine batch `id` from its parts, with the
compaction claimed on it, push it onto its level, and place the level's merge. -/
def Unflattening.addSpineBatch (u : Unflattening A P M) (id : SpineId) (batch : ThinSpineBatch A) :
    Except String (Unflattening A P M) := do
  if batch.descs.length > batch.parts.length then
    throw "spine batch has more descs than parts"
  let descs := batch.descs.map some ++ List.replicate (batch.parts.length - batch.descs.length) none
  let (parts, src) ← u.src.popParts (batch.parts.zip descs)
  if !partsTile id parts then
    throw "spine batch parts do not tile the batch's id range"
  let len := (parts.map (·.batch.len)).sum
  let (compaction, merges) := u.merges.remove id
  let spineBatch : SpineBatch A P M :=
    { id, desc := batch.desc, parts, activeCompaction := compaction.bind (·.activeCompaction), len }
  let some state := u.merging[batch.level]? | throw "spine batch level out of bounds"
  let state ← state.tryPushBatch spineBatch
  let (state, merges) := state.placeMerge merges
  pure { src, merges, merging := u.merging.set batch.level state }

variable [OrderBot A]

/-- The legacy path of `unflatten`: push the legacy batches left, checked first so that a
corrupted one is an error rather than a panic of `Spine::insert`. -/
def Trace.replayLegacy : Trace A P M → List (HollowBatch A P M) → Option (Except String (Trace A P M))
  | trace, [] => some (.ok trace)
  | trace, batch :: rest =>
    if batch.desc.lower = batch.desc.upper then some (.error "legacy batch has an empty time range")
    else if batch.desc.lower ≠ trace.upper then
      some (.error "legacy batch lower does not match the trace upper")
    else (trace.pushBatchNoMergeReqs batch).bind fun trace => Trace.replayLegacy trace rest

/-- `Trace::unflatten`: `none` is a panic, `.error` a decode error. -/
def Trace.unflatten (value : FlatTrace A P M) : Option (Except String (Trace A P M)) :=
  let roundtripStructure := !value.spineBatches.isEmpty || value.legacyBatches.isEmpty
  match checkTotalLen (value.legacyBatches ++ value.hollowBatches.entries.map Prod.snd) with
  | .error err => some (.error err)
  | .ok () =>
    -- sorted by lower, descending; the sort is stable, as `sort_by` is. `pop` takes from the end
    let legacy := (value.legacyBatches.insertionSort fun a b => b.desc.lower ≤ a.desc.lower).reverse
    let (upper, nextId) := match value.spineBatches.last? with
      | some (id, batch) => (batch.desc.upper, id.hi)
      | none => (⊥, 0)
    let levels := match value.spineBatches.first? with
      | some (_, batch) => batch.level + 1
      | none => 0
    if levels > maxLevels then some (.error "spine level exceeds the maximum") else
    let start : Unflattening A P M :=
      ⟨⟨value.hollowBatches, legacy⟩, value.merges, List.replicate levels .default⟩
    match value.spineBatches.entries.foldlM (fun u (id, batch) => u.addSpineBatch id batch) start with
    | .error err => some (.error err)
    | .ok u =>
      let trace : Trace A P M := ⟨⟨1, nextId, value.since, upper, u.merging⟩, roundtripStructure⟩
      let replayed :=
        if roundtripStructure then
          if u.src.legacy.length ≠ 0 then some (.error "legacy batches left after reconstructing spine")
          else some (.ok trace)
        else trace.replayLegacy u.src.legacy
      replayed.map fun result => result.bind fun trace => do
        if u.src.hollowBatches.size ≠ 0 then
          throw "hollow batches left after reconstructing spine"
        if u.merges.size ≠ 0 then
          throw "merges left after reconstructing spine"
        match trace.validate with
        | .error err => throw ("reconstructed trace failed validation: " ++ err)
        | .ok () => pure trace

end Unflatten

/-- Two batches on level `0` under a merge with more work left than the fuel of the next push:
`unflatten` accepts the trace, for it validates, and pushing the next batch, which continues its
upper over a nonempty interval, panics at the push onto the level whose merge is still running. -/
theorem Trace.unflatten_accepts_unfueled_merge :
    (Trace.unflatten (⟨0, [], List.nodup_nil,
        ⟨[(⟨0, 1⟩, ⟨⟨0, 1, 0⟩, 1, [()], [], [()]⟩), (⟨1, 2⟩, ⟨⟨1, 2, 0⟩, 1, [()], [], [()]⟩)], by decide⟩,
        ⟨[(⟨0, 1⟩, ⟨0, ⟨0, 1, 0⟩, [⟨0, 1⟩], [⟨0, 1, 0⟩]⟩),
          (⟨1, 2⟩, ⟨0, ⟨1, 2, 0⟩, [⟨1, 2⟩], [⟨1, 2, 0⟩]⟩)], by decide⟩,
        ⟨[(⟨0, 2⟩, ⟨0, 1000, none⟩)], by decide⟩⟩ : FlatTrace Nat Unit Unit)).map
      (fun r => r.map fun t => (t.upper, (t.pushBatch ⟨⟨2, 3, 0⟩, 1, [()], [], [()]⟩).isSome)) =
      some (Except.ok (2, false)) := by
  decide +kernel

end Materialize.Persist
