import Mathlib.Algebra.Group.Defs
import Mathlib.Data.List.Sort
import Materialize.Persist.Trace

/-!
# Applying a compaction's result with its checks

The model of `Trace::apply_merge_res_checked` and of the `SpineBatch` methods behind it, from
`persist-client/src/internal/trace.rs`. Where `apply_merge_res_unchecked` matches a result to the
parts it replaces by their frontiers alone, the checked path goes by what the compaction read
(`CompactionInput`): a range of spine ids, some runs of one hollow batch, or nothing known (the
legacy path, which matches by frontiers). On the way it asserts that the replaced parts and the
result record the same sum of diffs, where both record one.

What the model fixes:

* A part's recorded sum of diffs and a run's id and len are read through `RunFields`; the diff
  type `D` is an additive monoid with decidable equality (`Monoid + PartialEq`).
* Every `assert!`, `assert_eq!`, `expect` and out-of-range slice is a panic, the failure of
  `Option`.
* `HollowBatch::runs` is a lazy iterator that panics where its two sides stop matching:
  `HollowBatch.runs` gives the runs read before that point and whether reading on panics, so
  that a loop that returns early does not panic.
* A `BTreeSet` of run ids is a list read as a set; one of spine ids is a sorted list without
  repeats, as `id_range` reads it.
-/

namespace Materialize.Persist

variable {A P M D : Type}

/-- What the checked path reads of a run part and of a run's metadata. -/
structure RunFields (P M D : Type) where
  /-- `RunPart::diffs_sum`: the sum of the part's diffs, when the part records one. -/
  diffsSum : P → Option D
  /-- `RunMeta::id`. -/
  runId : M → Option RunId
  /-- `RunMeta::len`. -/
  runLen : M → Option Nat

/-! ## Slices and runs -/

/-- `&v[start..stop]`: a panic unless `start ≤ stop ≤ v.len()`. -/
def slice {α : Type} (v : List α) (start stop : Nat) : Option (List α) :=
  if start ≤ stop ∧ stop ≤ v.length then some ((v.drop start).take (stop - start)) else none

/-- The ranges `start..end` that `HollowBatch::runs` scans from the run ends, each starting where
the last ended. -/
def runRanges : Nat → List Nat → List (Nat × Nat)
  | _, [] => []
  | start, stop :: ends => (start, stop) :: runRanges stop ends

/-- `run_metas.zip_eq(run_parts)`: the runs read before the iterator panics, and whether it does:
one side ends before the other, or a range runs past the parts. -/
def zipRuns (parts : List P) : List M → List (Nat × Nat) → List (M × List P) × Bool
  | [], [] => ([], false)
  | m :: metas, (start, stop) :: ranges =>
    match slice parts start stop with
    | some run =>
      let (runs, panics) := zipRuns parts metas ranges
      ((m, run) :: runs, panics)
    | none => ([], true)
  | _, _ => ([], true)

/-- `HollowBatch::runs`: each run's metadata with its parts, up to where reading on panics; the
empty ranges are skipped. -/
def HollowBatch.runs (b : HollowBatch A P M) : List (M × List P) × Bool :=
  zipRuns b.parts b.runMeta
    ((runRanges 0 (b.runSplits ++ [b.parts.length])).filter fun (start, stop) => start < stop)

/-- `b.runs().collect()`: all runs, or a panic. -/
def HollowBatch.allRuns (b : HollowBatch A P M) : Option (List (M × List P)) :=
  let (runs, panics) := b.runs
  if panics then none else some runs

/-! ## Sums of diffs -/

section Sums
variable [AddMonoid D]

/-- `SpineBatch::diffs_sum`: the sum of the parts' diffs, `None` as soon as a part records none. -/
def SpineBatch.diffsSum (f : RunFields P M D) (parts : List P) : Option D :=
  parts.foldlM (fun sum part => (f.diffsSum part).map (sum + ·)) 0

/-- The loop of `SpineBatch::diffs_sum_for_runs`: the ids still to find and the sum so far, or
`none` where the loop returns `None` early (a run without an id, or a run whose parts record no
sum). -/
def SpineBatch.diffsSumForRunsLoop (f : RunFields P M D) :
    List (M × List P) → List RunId → D → Option (List RunId × D)
  | [], runIds, sum => some (runIds, sum)
  | (m, run) :: runs, runIds, sum =>
    (f.runId m).bind fun id =>
      if id ∈ runIds then
        (SpineBatch.diffsSum f run).bind fun s =>
          SpineBatch.diffsSumForRunsLoop f runs (runIds.filter (· != id)) (sum + s)
      else SpineBatch.diffsSumForRunsLoop f runs runIds sum

/-- `SpineBatch::diffs_sum_for_runs`: the sum of the diffs of the runs with the given ids, `None`
unless every id is found and its runs' sums are known. The outer `none` is a panic of `runs()`,
which a loop that returned early never reaches. -/
def SpineBatch.diffsSumForRuns (f : RunFields P M D) (batch : HollowBatch A P M)
    (runIds : List RunId) : Option (Option D) :=
  let (runs, panics) := batch.runs
  match SpineBatch.diffsSumForRunsLoop f runs runIds 0 with
  | none => some none
  | some (left, sum) => if panics then none else some (if left.isEmpty then some sum else none)

variable [DecidableEq D]

/-- `SpineBatch::validate_diffs_sum_match`: a panic when the old sum is known and differs from the
new one, a new sum that is not known counting as zero. -/
def SpineBatch.validateDiffsSumMatch (oldDiffsSum newDiffsSum : Option D) : Option Unit :=
  match oldDiffsSum with
  | some old => if old = newDiffsSum.getD 0 then some () else none
  | none => some ()

/-- The `assert_eq!` of `maybe_replace_checked_classic`: a panic when both sums are known and
differ. -/
def SpineBatch.assertDiffsSumsMatch (oldDiffsSum newDiffsSum : Option D) : Option Unit :=
  match oldDiffsSum, newDiffsSum with
  | some old, some new => if old = new then some () else none
  | _, _ => some ()

end Sums

/-! ## Replacing runs of a hollow batch -/

/-- The `run_splits` of `construct_batch_with_runs_replaced`: after each nonempty run but the
last, the number of parts up to its end. -/
def runSplitsOf (numRuns : Nat) : Nat → Nat → List (List P) → List Nat
  | _, _, [] => []
  | i, pointer, parts :: runs =>
    if parts.isEmpty then runSplitsOf numRuns (i + 1) pointer runs
    else (if i < numRuns - 1 then [pointer + parts.length] else []) ++
      runSplitsOf numRuns (i + 1) (pointer + parts.length) runs

/-- `SpineBatch::construct_batch_with_runs_replaced`: `original` with its runs of the given ids
replaced by the runs of `replacement`, under `replacement`'s description; `NotAppliedNoMatch`
when no id is given or `original` lacks one. A run of `original` without an id panics
(`expect`). -/
def SpineBatch.constructBatchWithRunsReplaced (f : RunFields P M D) (original : HollowBatch A P M)
    (runIds : List RunId) (replacement : HollowBatch A P M) :
    Option (Except ApplyMergeResult (HollowBatch A P M)) :=
  if runIds.isEmpty then some (.error .notAppliedNoMatch) else
  original.allRuns.bind fun origRuns =>
    let origRunIds := origRuns.filterMap fun (m, _) => f.runId m
    if !runIds.all origRunIds.contains then some (.error .notAppliedNoMatch) else
    -- `meta.id.expect(..)`: a run without an id panics
    let keep (r : M × List P) : Option Bool := (f.runId r.1).map fun id => !runIds.contains id
    (origRuns.filterM keep).bind fun kept =>
      replacement.allRuns.map fun added =>
        let runs := kept ++ added
        let len := (runs.filterMap fun (m, _) => f.runLen m).sum
        let runMeta := runs.map Prod.fst
        let parts := runs.flatMap Prod.snd
        .ok { desc := replacement.desc, parts, len, runMeta,
              runSplits := runSplitsOf runMeta.length 0 0 (runs.map Prod.snd) }

/-! ## The checked replacements -/

/-- The order of spine ids in a `BTreeSet`: by `lo`, then by `hi`. -/
def SpineId.le (a b : SpineId) : Bool := a.lo < b.lo || (a.lo == b.lo && a.hi ≤ b.hi)

/-- A `BTreeSet` of spine ids, read in order: sorted, without repeats. -/
def SpineId.sortedSet (ids : List SpineId) : List SpineId :=
  (ids.insertionSort fun a b => SpineId.le a b).dedup

/-- `id_range`: the range that contiguous ids cover; a panic when there is none or two are not
adjacent. -/
def idRange : List SpineId → Option SpineId
  | [] => none
  | first :: ids => ids.foldlM (fun result id =>
      if result.hi = id.lo then some ⟨result.lo, id.hi⟩ else none) first

section Checked
variable [AddMonoid D] [DecidableEq D]

/-- `SpineBatch::handle_id_range_replacement`: replace the parts whose ids the compaction's id
range covers, when their ids make up exactly that range. -/
def SpineBatch.handleIdRangeReplacement (f : RunFields P M D) (self : SpineBatch A P M)
    (res : FueledMergeRes A P M) (id : SpineId) (newDiffsSum : Option D) :
    Option (SpineBatch A P M × ApplyMergeResult) :=
  let range := self.parts.zipIdx.filterMap fun (p, i) =>
    if id.covers p.id then some (i, p.id) else none
  let ids := SpineId.sortedSet (range.map Prod.snd)
  -- `ids.is_empty() || id != &id_range(ids)`: `id_range` runs only on a nonempty set
  if ids.isEmpty then some (self, .notAppliedNoMatch) else
  (idRange ids).bind fun covered =>
    if id ≠ covered then some (self, .notAppliedNoMatch) else
    match (range.map Prod.fst).min?, (range.map Prod.fst).max? with
    | some min, some max =>
      (slice self.parts min (max + 1)).bind fun replaced =>
        let oldDiffsSum := SpineBatch.diffsSum f (replaced.flatMap fun p => p.batch.parts)
        (SpineBatch.validateDiffsSumMatch oldDiffsSum newDiffsSum).map fun () =>
          self.performSubsetReplacement res.output id min (max + 1) res.newActiveCompaction
    | _, _ => some (self, .notAppliedNoMatch)

variable [LinearOrder A]

/-- `SpineBatch::handle_partial_batch_replacement`: replace the given runs of the part with the
compaction's id by the result's runs. -/
def SpineBatch.handlePartialBatchReplacement (f : RunFields P M D) (self : SpineBatch A P M)
    (res : FueledMergeRes A P M) (id : SpineId) (runs : List RunId) (newDiffsSum : Option D) :
    Option (SpineBatch A P M × ApplyMergeResult) :=
  if runs.isEmpty then some (self, .notAppliedNoMatch) else
  match self.parts.zipIdx.find? fun (p, _) => p.id = id with
  | none => some (self, .notAppliedNoMatch)
  | some (part, i) =>
    let replacementDesc := res.output.desc
    let existingDesc := part.batch.desc
    -- the two `assert_eq!`s of the frontiers
    if replacementDesc.lower ≠ existingDesc.lower ∨ replacementDesc.upper ≠ existingDesc.upper then
      none
    else if ¬ existingDesc.since ≤ replacementDesc.since then some (self, .notAppliedInvalidSince)
    else
      (SpineBatch.constructBatchWithRunsReplaced f part.batch runs res.output).bind fun
        | .ok newBatch =>
          (SpineBatch.diffsSumForRuns f part.batch runs).bind fun oldDiffsSum =>
            (SpineBatch.validateDiffsSumMatch oldDiffsSum newDiffsSum).bind fun () =>
              (SpineBatch.validateDiffsSumMatch (SpineBatch.diffsSum f part.batch.parts)
                  (SpineBatch.diffsSum f newBatch.parts)).map fun () =>
                self.performSubsetReplacement newBatch id i (i + 1) res.newActiveCompaction
        | .error err => some (self, err)

/-- `SpineBatch::maybe_replace_checked_classic`: the frontier matching of
`maybe_replace_unchecked`, with the sums of diffs compared where both are known. -/
def SpineBatch.maybeReplaceCheckedClassic (f : RunFields P M D) (self : SpineBatch A P M)
    (res : FueledMergeRes A P M) : Option (SpineBatch A P M × ApplyMergeResult) :=
  if ¬ res.output.desc.since ≤ self.desc.since then some (self, .notAppliedInvalidSince) else
  let newDiffsSum := SpineBatch.diffsSum f res.output.parts
  if res.output.desc.lower = self.desc.lower ∧ res.output.desc.upper = self.desc.upper then
    let oldDiffsSum := SpineBatch.diffsSum f (self.parts.flatMap fun p => p.batch.parts)
    (SpineBatch.assertDiffsSumsMatch oldDiffsSum newDiffsSum).map fun () =>
      if res.output.len > self.len then (self, .notAppliedTooManyUpdates)
      else (SpineBatch.merged ⟨self.id, res.output⟩, .appliedExact)
  else
    match self.findReplacementRange res.output.desc with
    | some (id, start, stop) =>
      (slice self.parts start stop).bind fun replaced =>
        let oldDiffsSum := SpineBatch.diffsSum f (replaced.flatMap fun p => p.batch.parts)
        (SpineBatch.assertDiffsSumsMatch oldDiffsSum newDiffsSum).map fun () =>
          self.performSubsetReplacement res.output id start stop res.newActiveCompaction
    | none => some (self, .notAppliedNoMatch)

/-- `SpineBatch::maybe_replace_checked`: the replacement `res.input` calls for, after the check
of the since; a panic if it left the batch with more parts. -/
def SpineBatch.maybeReplaceChecked (f : RunFields P M D) (self : SpineBatch A P M)
    (res : FueledMergeRes A P M) : Option (SpineBatch A P M × ApplyMergeResult) :=
  if ¬ res.output.desc.since ≤ self.desc.since then some (self, .notAppliedInvalidSince) else
  let newDiffsSum := SpineBatch.diffsSum f res.output.parts
  let numBatches := self.parts.length
  let replaced := match res.input with
    | .idRange id => self.handleIdRangeReplacement f res id newDiffsSum
    | .partialBatch id runs => self.handlePartialBatchReplacement f res id runs newDiffsSum
    | .legacy => self.maybeReplaceCheckedClassic f res
  replaced.bind fun (self', result) =>
    -- `replacing parts should not increase the number of batches`
    if self'.parts.length ≤ numBatches then some (self', result) else none

end Checked

/-- The step of a search whose step may panic: a panic stops the search, as a match does, and is
then the panic of the whole search. -/
def panickingStep (step : SpineBatch A P M → Option (SpineBatch A P M × ApplyMergeResult))
    (b : SpineBatch A P M) : Option (SpineBatch A P M × Option ApplyMergeResult) :=
  match step b with
  | none => some (b, none)
  | some (b', result) => if result.matched then some (b', some result) else none

/-- `Trace::apply_merge_res_checked`. -/
def Trace.applyMergeResChecked [AddMonoid D] [DecidableEq D] [LinearOrder A]
    (f : RunFields P M D) (t : Trace A P M) (res : FueledMergeRes A P M) :
    Option (Trace A P M × ApplyMergeResult) :=
  match t.spine.replaceNewest (panickingStep (·.maybeReplaceChecked f res)) with
  | some (spine, some result) => some ({ t with spine }, result)
  | some (_, none) => none
  | none => some (t, .notAppliedNoMatch)

end Materialize.Persist
