import Materialize.Lib.Replace
import Materialize.Persist.Spine

/-!
# The persist `Trace`

The model of `Trace` from `persist-client/src/internal/trace.rs`: a `Spine` and the flag that says
whether its structure is written out when it is flattened. Pushing a batch inserts it into the
spine (`Trace.pushBatch`, `Trace.pushBatchNoMergeReqs`), exerting spends fuel on the spine's merges
(`Trace.exert`), and the results of compactions done outside the spine replace the spine batches,
or the hollow batches inside one, that they cover (`Trace.applyMergeResUnchecked`,
`Trace.applyTombstoneMerge`). Every search for a spine batch walks the batches from the newest
back, as `spine_batches_mut().rev()` does (`Spine.replaceNewest`).

`apply_merge_res_checked`, which checks the replacements against what the compaction read and
against the sums of the diffs its parts record, is in `Persist.MergeRes`. What the model leaves
out: the `debug_assert!`s of the spine's validity, which a release build does not run.
-/

namespace Materialize.Persist

open Replace

variable {A P M : Type}

/-! ## Searching the spine batches -/

/-- Try `f` on the level's batches from the last back: the first it matches is replaced. -/
def MergeState.replaceLast? {ρ : Type} (f : SpineBatch A P M → Option (SpineBatch A P M × ρ))
    (m : MergeState A P M) : Option (MergeState A P M × ρ) :=
  match h : Replace.replaceLast? f m.batches with
  | some (bs, r) =>
    some (⟨bs, m.merge, by rw [Replace.replaceLast?_length h]; exact m.batches_length_le⟩, r)
  | none => none

/-- `for batch in self.spine_batches_mut().rev() { .. }` with a `return` at the first batch `f`
matches: the batches from the newest (the last batch of level `0`) back, and the one `f` matches
replaced by what `f` made of it. `none` if it matches none. -/
def Spine.replaceNewest {ρ : Type} (s : Spine A P M)
    (f : SpineBatch A P M → Option (SpineBatch A P M × ρ)) : Option (Spine A P M × ρ) :=
  (replaceFirst? (MergeState.replaceLast? f) s.merging).map fun (merging, r) =>
    ({ s with merging }, r)

/-! ## Merge results -/

/-- `ApplyMergeResult`. -/
inductive ApplyMergeResult where
  | appliedExact
  | appliedSubset
  | notAppliedNoMatch
  | notAppliedInvalidSince
  | notAppliedTooManyUpdates
deriving DecidableEq, Repr

/-- `ApplyMergeResult::matched`: the result stops the search for a batch to replace. -/
def ApplyMergeResult.matched : ApplyMergeResult → Bool
  | .appliedExact | .appliedSubset | .notAppliedTooManyUpdates => true
  | _ => false

/-- `RunId`: the id of a run of parts (a UUID in the source; only its equality matters). -/
structure RunId where
  id : Nat
deriving DecidableEq, Repr

/-- `CompactionInput`: what a compaction read, as `apply_merge_res_checked` uses it to find the
parts its output replaces. The set of runs is a list read as a set. -/
inductive CompactionInput where
  | legacy
  | idRange (id : SpineId)
  | partialBatch (id : SpineId) (runs : List RunId)
deriving DecidableEq, Repr

/-- `FueledMergeRes<T>`: the output of a compaction, what it read, and the compaction to record on
the batch it replaces. -/
structure FueledMergeRes (A P M : Type) where
  output : HollowBatch A P M
  input : CompactionInput
  newActiveCompaction : Option ActiveCompaction
deriving DecidableEq, Repr

/-- The loop of `SpineBatch::find_replacement_range`: from part `i` on, remember the last part
whose lower is `desc`'s lower and the last whose upper is `desc`'s upper (index and id bound),
stopping as soon as both are found. -/
def SpineBatch.findReplacementRangeAux (desc : Description A) [DecidableEq A] :
    Nat → List (IdHollowBatch A P M) → Option (Nat × Nat) → Option (Nat × Nat) →
      Option (Nat × Nat) × Option (Nat × Nat)
  | _, [], lower, upper => (lower, upper)
  | i, batch :: parts, lower, upper =>
    let lower := if batch.batch.desc.lower = desc.lower then some (i, batch.id.lo) else lower
    let upper := if batch.batch.desc.upper = desc.upper then some (i, batch.id.hi) else upper
    if lower.isSome && upper.isSome then (lower, upper)
    else findReplacementRangeAux desc (i + 1) parts lower upper

/-- `SpineBatch::find_replacement_range`: the parts a result for `desc` can replace, as the id
range they cover and the index range `start..end`. -/
def SpineBatch.findReplacementRange [DecidableEq A] (self : SpineBatch A P M)
    (desc : Description A) : Option (SpineId × Nat × Nat) :=
  match SpineBatch.findReplacementRangeAux desc 0 self.parts none none with
  | (some (lowerIdx, idLower), some (upperIdx, idUpper)) =>
    some (⟨idLower, idUpper⟩, lowerIdx, upperIdx + 1)
  | _ => none

/-- `SpineBatch::perform_subset_replacement`: replace the parts `start..end` by `res` under
`spineId`, unless that would make the batch larger. -/
def SpineBatch.performSubsetReplacement (self : SpineBatch A P M) (res : HollowBatch A P M)
    (spineId : SpineId) (start stop : Nat) (newActiveCompaction : Option ActiveCompaction) :
    SpineBatch A P M × ApplyMergeResult :=
  let newParts := self.parts.take start ++ [⟨spineId, res⟩] ++ self.parts.drop stop
  -- `range.len()` of `start..stop` is `stop - start`, or `0` when `stop < start`
  let result := if stop - start = self.parts.length then ApplyMergeResult.appliedExact
    else .appliedSubset
  let newSpineBatch : SpineBatch A P M :=
    { id := self.id, desc := self.desc, len := (newParts.map (·.batch.len)).sum,
      parts := newParts, activeCompaction := newActiveCompaction }
  if newSpineBatch.len > self.len then (self, .notAppliedTooManyUpdates)
  else (newSpineBatch, result)

section Replace
variable [LinearOrder A]

/-- `SpineBatch::maybe_replace_unchecked`: swap in a result that covers the whole batch, or one
that covers a run of its parts, provided its since is not past the batch's. -/
def SpineBatch.maybeReplaceUnchecked (self : SpineBatch A P M) (res : FueledMergeRes A P M) :
    SpineBatch A P M × ApplyMergeResult :=
  if ¬ res.output.desc.since ≤ self.desc.since then (self, .notAppliedInvalidSince)
  else if res.output.desc.lower = self.desc.lower ∧ res.output.desc.upper = self.desc.upper then
    if res.output.len > self.len then (self, .notAppliedTooManyUpdates)
    else (SpineBatch.merged ⟨self.id, res.output⟩, .appliedExact)
  else
    match self.findReplacementRange res.output.desc with
    | some (id, start, stop) =>
      self.performSubsetReplacement res.output id start stop res.newActiveCompaction
    | none => (self, .notAppliedNoMatch)

/-- `SpineBatch::maybe_replace_with_tombstone`: replace the batch, or the run of its parts that
`desc` covers, by an empty batch of `desc`. -/
def SpineBatch.maybeReplaceWithTombstone (self : SpineBatch A P M) (desc : Description A) :
    SpineBatch A P M × ApplyMergeResult :=
  let emptyBatch : HollowBatch A P M := .empty desc
  if desc.lower = self.desc.lower ∧ desc.upper = self.desc.upper then
    (SpineBatch.merged ⟨self.id, emptyBatch⟩, .appliedExact)
  else
    match self.findReplacementRange desc with
    | some (id, start, stop) => self.performSubsetReplacement emptyBatch id start stop none
    | none => (self, .notAppliedNoMatch)

end Replace

/-- The step of a search for a spine batch: `step` matched this batch when its result is
`matched`. -/
def matchedStep (step : SpineBatch A P M → SpineBatch A P M × ApplyMergeResult)
    (b : SpineBatch A P M) : Option (SpineBatch A P M × ApplyMergeResult) :=
  let (b', result) := step b
  if result.matched then some (b', result) else none

/-! ## The trace -/

/-- `Trace<T>`. -/
structure Trace (A P M : Type) where
  spine : Spine A P M
  roundtripStructure : Bool

/-- `Trace::default`: an empty spine; the structure is written out. -/
def Trace.default [LE A] [OrderBot A] : Trace A P M := ⟨Spine.new, true⟩

/-- `Trace::since`. -/
def Trace.since (t : Trace A P M) : A := t.spine.since

/-- `Trace::upper`. -/
def Trace.upper (t : Trace A P M) : A := t.spine.upper

/-- `Trace::batches`: the hollow batches of the spine batches, oldest first. -/
def Trace.batches (t : Trace A P M) : List (HollowBatch A P M) :=
  t.spine.spineBatches.flatMap fun b => b.parts.map IdHollowBatch.batch

/-- `Trace::downgrade_since`. -/
def Trace.downgradeSince (t : Trace A P M) (since : A) : Trace A P M :=
  { t with spine := { t.spine with since } }

/-- The `covers` of `Trace::remove_redundant_merge_reqs`. -/
def FueledMergeReq.covers [DecidableEq A] (b0 b1 : FueledMergeReq A P M) : Bool :=
  b0.id.covers b1.id && b0.desc.since = b1.desc.since

/-- `Trace::remove_redundant_merge_reqs`: from the last request back, keep a request no kept one
covers, and drop the kept ones it covers. -/
def Trace.removeRedundantMergeReqs [DecidableEq A] (mergeReqs : List (FueledMergeReq A P M)) :
    List (FueledMergeReq A P M) :=
  mergeReqs.reverse.foldl (fun ret mergeReq =>
    if ret.any (·.covers mergeReq) then ret
    else ret.filter (fun r => !mergeReq.covers r) ++ [mergeReq]) []

section Ops
variable [LinearOrder A]

/-- `Trace::push_batch`: insert the batch, and return the merge requests it caused that no other
one covers. -/
def Trace.pushBatch (t : Trace A P M) (batch : HollowBatch A P M) :
    Option (Trace A P M × List (FueledMergeReq A P M)) := do
  let (spine, mergeReqs) ← (t.spine.insert batch).run []
  pure ({ t with spine }, Trace.removeRedundantMergeReqs mergeReqs)

/-- `Trace::push_batch_no_merge_reqs`. -/
def Trace.pushBatchNoMergeReqs (t : Trace A P M) (batch : HollowBatch A P M) :
    Option (Trace A P M) := do
  let (spine, _) ← (t.spine.insert batch).run []
  pure { t with spine }

/-- `Trace::claim_compaction`: record the compaction on the newest batch with the id. -/
def Trace.claimCompaction (t : Trace A P M) (id : SpineId) (compaction : ActiveCompaction) :
    Trace A P M :=
  match t.spine.replaceNewest (fun batch =>
      if batch.id = id then some ({ batch with activeCompaction := some compaction }, ())
      else none) with
  | some (spine, ()) => { t with spine }
  | none => t

/-- `Trace::exert`: the merge requests, and whether the spine did any work. -/
def Trace.exert (t : Trace A P M) (fuel : Nat) :
    Option (Trace A P M × List (FueledMergeReq A P M) × Bool) := do
  let ((spine, didWork), mergeReqs) ← (t.spine.exert fuel).run []
  pure ({ t with spine }, Trace.removeRedundantMergeReqs mergeReqs, didWork)

/-- `Trace::validate`. -/
def Trace.validate [OrderBot A] (t : Trace A P M) : Except String Unit := t.spine.validate

/-- `Trace::apply_merge_res_unchecked`. -/
def Trace.applyMergeResUnchecked (t : Trace A P M) (res : FueledMergeRes A P M) :
    Trace A P M × ApplyMergeResult :=
  match t.spine.replaceNewest (matchedStep (·.maybeReplaceUnchecked res)) with
  | some (spine, result) => ({ t with spine }, result)
  | none => (t, .notAppliedNoMatch)

/-- `Trace::apply_tombstone_merge`. -/
def Trace.applyTombstoneMerge (t : Trace A P M) (desc : Description A) :
    Trace A P M × ApplyMergeResult :=
  match t.spine.replaceNewest (matchedStep (·.maybeReplaceWithTombstone desc)) with
  | some (spine, result) => ({ t with spine }, result)
  | none => (t, .notAppliedNoMatch)

end Ops

end Materialize.Persist
