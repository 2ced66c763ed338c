import Mathlib.Algebra.Group.Nat.Defs
import Materialize.Persist.MergeRes

/-!
# Cutting a compaction into chunks

The model of `Compactor::chunk_runs` from `persist-client/src/internal/compact.rs`, which cuts the
input batches of a compaction request into the chunks that `compact_stream` compacts one at a
time and whose results are applied to the spine one at a time. The batches are read in spine-id
order. While they fit in the memory budget, or while the chunk would hold at most two runs, whole
batches are gathered into one chunk, which replaces their range of ids
(`CompactionInput::IdRange`). A batch too large for the budget is cut alone, run by run, into
chunks that each replace the runs they name (`CompactionInput::PartialBatch`). A run that is not
in the preferred order is first exploded into one entry per part, each under the run's metadata.

The chunks hold the input's parts in order (`chunkRuns_parts`): this is the
`parts_before == parts_after` assertion of `compact_stream`, which never fires on batches whose
run splits are sorted. A chunk of whole batches covers a range of contiguous ids and chained
descriptions (`chunkRuns_idRange`). The cut of a large batch is made between entries, not between
runs, so an exploded run can be split between two chunks that both name it.

What the model fixes:

* What `chunk_runs` reads of a run's metadata and of a part goes through `ChunkFields`, and of
  `CompactConfig` only the two fields it reads are kept.
* A panic (`input_id_range` on ids that are not contiguous, the `assert_eq!` of `desc_range`, the
  `zip_eq` of `HollowBatch::runs`) is the failure of `Option`.
* The memory-violation metric and the soft assertions are not modelled.
-/

namespace Materialize.Persist

variable {A P M : Type}

/-! ## The data `chunk_runs` reads and returns -/

/-- `RunOrder`: how the parts of a run are ordered. -/
inductive RunOrder where
  | unordered
  | codec
  | structured
deriving DecidableEq, Repr

/-- What `chunk_runs` reads of a run's metadata and of a part. -/
structure ChunkFields (P M : Type) where
  /-- `RunMeta::order`. -/
  order : M → Option RunOrder
  /-- `RunMeta::id`. -/
  runId : M → Option RunId
  /-- `RunPart::max_part_bytes`. -/
  maxPartBytes : P → Nat

/-- The fields of `CompactConfig` (its `batch: BatchBuilderConfig`) that `chunk_runs` reads. -/
structure CompactConfig where
  blobTargetSize : Nat
  preferredOrder : RunOrder
deriving DecidableEq, Repr

/-- `CompactReq<T>`: the batches to compact and the description of the output. -/
structure CompactReq (A P M : Type) where
  desc : Description A
  inputs : List (IdHollowBatch A P M)
deriving DecidableEq, Repr

/-- A run as a chunk hands it to `compact_runs`: its batch's description, its metadata and its
parts. -/
structure ChunkRun (A P M : Type) where
  desc : Description A
  runMeta : M
  parts : List P
deriving DecidableEq, Repr

/-- An element of the result of `chunk_runs`: what the compaction of the chunk replaces, the
description of its output, its runs, and the memory they take. -/
structure Chunk (A P M : Type) where
  input : CompactionInput
  desc : Description A
  runs : List (ChunkRun A P M)
  maxMemoryUsage : Nat
deriving DecidableEq, Repr

/-! ## The runs of a batch cut its parts -/

/-- The run splits of a batch rise and stay within its parts. `HollowBatch::new` asks that they
be strictly increasing and less than the number of parts. -/
def HollowBatch.SplitsSorted (b : HollowBatch A P M) : Prop :=
  (b.runSplits ++ [b.parts.length]).Pairwise (· ≤ ·)

/-- The parts from `start` to `stop`. -/
def partsIn (parts : List P) (r : Nat × Nat) : List P := (parts.drop r.1).take (r.2 - r.1)

theorem partsIn_of_le {parts : List P} {r : Nat × Nat} (h : r.2 ≤ r.1) : partsIn parts r = [] := by
  simp [partsIn, Nat.sub_eq_zero_of_le h]

/-- Consecutive ranges that rise cut out the parts of the range they make up. -/
theorem flatMap_partsIn_runRanges (parts : List P) (stop : Nat) :
    ∀ (start : Nat) (ends : List Nat), (start :: (ends ++ [stop])).Pairwise (· ≤ ·) →
      (runRanges start (ends ++ [stop])).flatMap (partsIn parts) = partsIn parts (start, stop)
  | start, [], _ => by simp [runRanges]
  | start, e :: ends, h => by
    have hse : start ≤ e := List.rel_of_pairwise_cons h (by simp)
    have het : e ≤ stop := List.rel_of_pairwise_cons (List.Pairwise.of_cons h) (by simp)
    have hdrop : parts.drop e = (parts.drop start).drop (e - start) := by
      rw [List.drop_drop, Nat.add_sub_cancel' hse]
    have hlen : e - start + (stop - e) = stop - start := by omega
    simp only [List.cons_append, runRanges, List.flatMap_cons,
      flatMap_partsIn_runRanges parts stop e ends (List.Pairwise.of_cons h), partsIn]
    rw [hdrop, ← List.take_add, hlen]

/-- The runs that `zip_eq` reads to the end are the parts of their ranges. -/
theorem zipRuns_flatMap {parts : List P} :
    ∀ {metas : List M} {ranges : List (Nat × Nat)} {runs : List (M × List P)},
      zipRuns parts metas ranges = (runs, false) →
        runs.flatMap Prod.snd = ranges.flatMap (partsIn parts)
  | [], [], runs, h => by
    simp only [zipRuns, Prod.mk.injEq] at h
    simp [← h.1]
  | m :: metas, (start, stop) :: ranges, runs, h => by
    simp only [zipRuns] at h
    split at h
    · rename_i run hrun
      obtain ⟨rfl, hpanics⟩ := Prod.mk.inj h
      have hslice : run = partsIn parts (start, stop) := by
        unfold slice at hrun
        split at hrun
        · exact (Option.some.inj hrun).symm
        · cases hrun
      rw [List.flatMap_cons, List.flatMap_cons, zipRuns_flatMap (Prod.ext rfl hpanics), hslice]
    · cases h
  | [], _ :: _, _, h | _ :: _, [], _, h => by simp [zipRuns] at h

/-- The runs of a batch whose splits are sorted are its parts, cut in order. -/
theorem HollowBatch.allRuns_parts {b : HollowBatch A P M} (hb : b.SplitsSorted)
    {runs : List (M × List P)} (h : b.allRuns = some runs) : runs.flatMap Prod.snd = b.parts := by
  unfold allRuns HollowBatch.runs at h
  split at h
  rename_i rs panics hz
  cases panics with
  | true => cases h
  | false =>
    obtain rfl : rs = runs := Option.some.inj h
    have hpairwise : (0 :: (b.runSplits ++ [b.parts.length])).Pairwise (· ≤ ·) :=
      List.pairwise_cons.2 ⟨fun _ _ => Nat.zero_le _, hb⟩
    have hfilter : ((runRanges 0 (b.runSplits ++ [b.parts.length])).filter
        fun r => decide (r.1 < r.2)).flatMap (partsIn b.parts) =
          (runRanges 0 (b.runSplits ++ [b.parts.length])).flatMap (partsIn b.parts) := by
      induction runRanges 0 (b.runSplits ++ [b.parts.length]) with
      | nil => rfl
      | cons r rs ih =>
        by_cases hr : r.1 < r.2
        · simp [hr, ih]
        · simp [hr, ih, partsIn_of_le (Nat.le_of_not_lt hr)]
    rw [zipRuns_flatMap hz, hfilter, flatMap_partsIn_runRanges _ _ 0 _ hpairwise]
    simp [partsIn]

/-! ## `chunk_runs` -/

/-- `max_part_bytes`: the largest part of a run, or the target size of a blob for a run of no
parts. -/
def maxPartBytes (f : ChunkFields P M) (cfg : CompactConfig) (parts : List P) : Nat :=
  ((parts.map f.maxPartBytes).max?).getD cfg.blobTargetSize

/-- `desc_range`: from the first lower to the last upper, at `since`; a panic for no descriptions
or for two in a row that do not chain. -/
def descRange [DecidableEq A] (descs : List (Description A)) (since : A) :
    Option (Description A) :=
  match descs with
  | [] => none
  | first :: descs =>
    (descs.foldlM (fun upper desc => if upper = desc.lower then some desc.upper else none)
      first.upper).map fun upper => ⟨first.lower, upper, since⟩

/-- The runs of a batch as a chunk takes them: a run in the preferred order whole, any other one
part at a time, each part under the run's metadata. A run without an order is taken to be in
codec order. -/
def chunkRunsOf (f : ChunkFields P M) (cfg : CompactConfig) (desc : Description A)
    (runs : List (M × List P)) : List (ChunkRun A P M) :=
  runs.flatMap fun (m, parts) =>
    if (f.order m).getD .codec = cfg.preferredOrder then [⟨desc, m, parts⟩]
    else parts.map fun p => ⟨desc, m, [p]⟩

/-- The locals of `chunk_runs`: the chunks so far, and the ids, descriptions, runs and memory of the
chunk being gathered. -/
structure ChunkState (A P M : Type) where
  chunks : List (Chunk A P M)
  ids : List SpineId
  descs : List (Description A)
  runs : List (ChunkRun A P M)
  maxMemoryUsage : Nat

/-- The locals before the first batch. -/
def ChunkState.init : ChunkState A P M := ⟨[], [], [], [], 0⟩

/-- Gather a whole batch into the current chunk. -/
def ChunkState.add (s : ChunkState A P M) (spineId : SpineId) (desc : Description A)
    (runs : List (ChunkRun A P M)) (batchSize : Nat) : ChunkState A P M :=
  { s with ids := s.ids ++ [spineId], descs := s.descs ++ [desc], runs := s.runs ++ runs,
           maxMemoryUsage := s.maxMemoryUsage + batchSize }

/-- Push the chunk of whole batches being gathered, if there is one, as the replacement of its
range of ids; a panic if its ids are not contiguous or its descriptions do not chain. -/
def ChunkState.flush [DecidableEq A] (since : A) (s : ChunkState A P M) :
    Option (ChunkState A P M) :=
  if s.ids.isEmpty then some s else
  (idRange (SpineId.sortedSet s.ids)).bind fun id =>
    (descRange s.descs since).map fun desc =>
      { chunks := s.chunks ++ [⟨.idRange id, desc, s.runs, s.maxMemoryUsage⟩], ids := [],
        descs := [], runs := [], maxMemoryUsage := 0 }

/-- Push the runs gathered from one batch as the replacement of the runs they name. -/
def ChunkState.pushPartial (s : ChunkState A P M) (spineId : SpineId) (runIds : List RunId)
    (desc : Description A) : ChunkState A P M :=
  { s with chunks := s.chunks ++ [⟨.partialBatch spineId runIds, desc, s.runs, s.maxMemoryUsage⟩],
           runs := [], maxMemoryUsage := 0 }

/-- The `while let` loop over the runs of a batch too large for the budget, with the ids of the
runs gathered so far: each run joins the current chunk, which is pushed before the next run when
that run would take it over the budget and it holds more than one run. -/
def ChunkState.splitLoop (f : ChunkFields P M) (cfg : CompactConfig) (budget : Nat)
    (spineId : SpineId) (desc : Description A) :
    List (ChunkRun A P M) → List RunId → ChunkState A P M → ChunkState A P M × List RunId
  | [], runIds, s => (s, runIds)
  | run :: rest, runIds, s =>
    let s := { s with runs := s.runs ++ [run],
                      maxMemoryUsage := s.maxMemoryUsage + maxPartBytes f cfg run.parts }
    let runIds := match f.runId run.runMeta with
      | some id => runIds.insert id
      | none => runIds
    match rest with
    | next :: _ =>
      -- a chunk of one run is kept over the budget (a memory violation) rather than pushed
      if budget < s.maxMemoryUsage + maxPartBytes f cfg next.parts ∧ s.runs.length ≠ 1 then
        splitLoop f cfg budget spineId desc rest [] (s.pushPartial spineId runIds desc)
      else splitLoop f cfg budget spineId desc rest runIds s
    | [] => (s, runIds)

/-- Cut a batch too large for the budget into chunks of its runs, after the chunk being gathered
was pushed. -/
def ChunkState.split (f : ChunkFields P M) (cfg : CompactConfig) (budget : Nat)
    (spineId : SpineId) (desc : Description A) (runs : List (ChunkRun A P M))
    (s : ChunkState A P M) : ChunkState A P M :=
  let (s, runIds) := s.splitLoop f cfg budget spineId desc runs []
  if s.runs.isEmpty then s else s.pushPartial spineId runIds desc

/-- One pass of the loop of `chunk_runs` over the batches. -/
def ChunkState.step [DecidableEq A] (f : ChunkFields P M) (cfg : CompactConfig) (budget : Nat)
    (since : A) (s : ChunkState A P M) (input : SpineId × HollowBatch A P M) :
    Option (ChunkState A P M) :=
  let (spineId, batch) := input
  batch.allRuns.bind fun runs =>
    let batchSize := (runs.map fun (_, parts) => maxPartBytes f cfg parts).sum
    let numRuns := batch.runMeta.length
    let runs := chunkRunsOf f cfg batch.desc runs
    if s.maxMemoryUsage + batchSize ≤ budget ∨ s.runs.length + numRuns ≤ 2 then
      some (s.add spineId batch.desc runs batchSize)
    else
      (s.flush since).bind fun s =>
        if batchSize ≤ budget then some (s.add spineId batch.desc runs batchSize)
        else (descRange [batch.desc] since).map fun desc => s.split f cfg budget spineId desc runs

/-- The input batches in spine-id order (`sort_by_key`, a stable sort). -/
def CompactReq.batches (req : CompactReq A P M) : List (SpineId × HollowBatch A P M) :=
  (req.inputs.map fun x => (x.id, x.batch)).insertionSort fun a b => SpineId.le a.1 b.1

/-- `Compactor::chunk_runs`, with `budget` the memory reserved for runs. -/
def chunkRuns [DecidableEq A] (f : ChunkFields P M) (cfg : CompactConfig) (req : CompactReq A P M)
    (budget : Nat) (since : A) : Option (List (Chunk A P M)) :=
  -- the assertion that the inputs' ids are contiguous
  (idRange (SpineId.sortedSet (req.inputs.map (·.id)))).bind fun _ =>
    (req.batches.foldlM (ChunkState.step f cfg budget since) .init).bind fun s =>
      (s.flush since).map (·.chunks)

/-! ## The chunks hold the input's parts -/

/-- The parts of the chunks pushed so far, then those of the chunk being gathered. -/
def ChunkState.parts (s : ChunkState A P M) : List P :=
  s.chunks.flatMap (fun c => c.runs.flatMap (·.parts)) ++ s.runs.flatMap (·.parts)

theorem chunkRunsOf_parts (f : ChunkFields P M) (cfg : CompactConfig) (desc : Description A)
    (runs : List (M × List P)) :
    (chunkRunsOf f cfg desc runs).flatMap (·.parts) = runs.flatMap Prod.snd := by
  simp only [chunkRunsOf, List.flatMap_assoc]
  congr 1
  funext ⟨m, parts⟩
  by_cases horder : (f.order m).getD .codec = cfg.preferredOrder <;> simp [horder, List.flatMap_map]

@[simp] theorem ChunkState.add_parts (s : ChunkState A P M) (spineId : SpineId)
    (desc : Description A) (runs : List (ChunkRun A P M)) (batchSize : Nat) :
    (s.add spineId desc runs batchSize).parts = s.parts ++ runs.flatMap (·.parts) := by
  simp [ChunkState.add, ChunkState.parts]

@[simp] theorem ChunkState.pushPartial_parts (s : ChunkState A P M) (spineId : SpineId)
    (runIds : List RunId) (desc : Description A) :
    (s.pushPartial spineId runIds desc).parts = s.parts := by
  simp [ChunkState.pushPartial, ChunkState.parts]

theorem ChunkState.flush_parts [DecidableEq A] {since : A} {s s' : ChunkState A P M}
    (h : s.flush since = some s') : s'.parts = s.parts := by
  unfold flush at h
  split at h
  · cases h; rfl
  · obtain ⟨id, -, h⟩ := Option.bind_eq_some_iff.1 h
    obtain ⟨desc, -, rfl⟩ := Option.map_eq_some_iff.1 h
    simp [ChunkState.parts]

theorem ChunkState.splitLoop_parts (f : ChunkFields P M) (cfg : CompactConfig) (budget : Nat)
    (spineId : SpineId) (desc : Description A) :
    ∀ (runs : List (ChunkRun A P M)) (runIds : List RunId) (s : ChunkState A P M),
      (s.splitLoop f cfg budget spineId desc runs runIds).1.parts =
        s.parts ++ runs.flatMap (·.parts)
  | [], _, _ => by simp [splitLoop]
  | run :: rest, runIds, s => by
    -- the run joins the current chunk, whether or not the chunk is pushed before the next run
    have hjoin : ∀ usage : Nat,
        ({ s with runs := s.runs ++ [run], maxMemoryUsage := usage } : ChunkState A P M).parts =
          s.parts ++ run.parts := by
      simp [ChunkState.parts]
    have ih := splitLoop_parts f cfg budget spineId desc rest
    simp only [splitLoop]
    split
    · split <;> simp [ih, hjoin]
    · simp [hjoin]

@[simp] theorem ChunkState.split_parts (f : ChunkFields P M) (cfg : CompactConfig) (budget : Nat)
    (spineId : SpineId) (desc : Description A) (runs : List (ChunkRun A P M))
    (s : ChunkState A P M) :
    (s.split f cfg budget spineId desc runs).parts = s.parts ++ runs.flatMap (·.parts) := by
  have hloop := splitLoop_parts f cfg budget spineId desc runs [] s
  unfold split
  rcases hl : s.splitLoop f cfg budget spineId desc runs [] with ⟨s', runIds⟩
  rw [hl] at hloop
  by_cases hempty : s'.runs = [] <;> simp_all

/-- A pass of the loop adds the parts of the batch it reads. -/
theorem ChunkState.step_parts [DecidableEq A] {f : ChunkFields P M} {cfg : CompactConfig}
    {budget : Nat} {since : A} {s s' : ChunkState A P M} {spineId : SpineId}
    {b : HollowBatch A P M} (hb : b.SplitsSorted)
    (h : s.step f cfg budget since (spineId, b) = some s') : s'.parts = s.parts ++ b.parts := by
  simp only [ChunkState.step, Option.bind_eq_some_iff] at h
  obtain ⟨runs, hruns, h⟩ := h
  have hparts : (chunkRunsOf f cfg b.desc runs).flatMap (·.parts) = b.parts := by
    rw [chunkRunsOf_parts, b.allRuns_parts hb hruns]
  split at h
  · cases h
    simp [hparts]
  · obtain ⟨s₁, hflush, h⟩ := Option.bind_eq_some_iff.1 h
    rw [← flush_parts hflush]
    split at h
    · cases h
      simp [hparts]
    · obtain ⟨desc, -, rfl⟩ := Option.map_eq_some_iff.1 h
      simp [hparts]

/-- The loop over the batches adds their parts, in order. -/
theorem ChunkState.foldlM_step_parts [DecidableEq A] {f : ChunkFields P M} {cfg : CompactConfig}
    {budget : Nat} {since : A} :
    ∀ {bs : List (SpineId × HollowBatch A P M)} {s s' : ChunkState A P M},
      (∀ x ∈ bs, x.2.SplitsSorted) → bs.foldlM (step f cfg budget since) s = some s' →
        s'.parts = s.parts ++ bs.flatMap (·.2.parts)
  | [], s, s', _, h => by
    cases h
    simp
  | (spineId, b) :: bs, s, s', hwf, h => by
    obtain ⟨s₁, h₁, h⟩ := Option.bind_eq_some_iff.1 h
    have hwf' : ∀ x ∈ bs, x.2.SplitsSorted := fun x hx => hwf x (List.mem_cons_of_mem _ hx)
    rw [foldlM_step_parts hwf' h, step_parts (hwf _ List.mem_cons_self) h₁]
    simp

/-! ## Chunks of whole batches -/

/-- The runs a chunk takes from a batch. -/
def batchRuns (f : ChunkFields P M) (cfg : CompactConfig) (x : SpineId × HollowBatch A P M) :
    List (ChunkRun A P M) :=
  chunkRunsOf f cfg x.2.desc (x.2.allRuns.getD [])

/-- The chunk replaces the range `id` of the whole batches `group`: their ids make up `id`, their
descriptions chain into the chunk's, and its runs are all of theirs. -/
def Chunk.OfBatches [DecidableEq A] (f : ChunkFields P M) (cfg : CompactConfig) (since : A)
    (c : Chunk A P M) (id : SpineId) (group : List (SpineId × HollowBatch A P M)) : Prop :=
  idRange (SpineId.sortedSet (group.map Prod.fst)) = some id ∧
    descRange (group.map (·.2.desc)) since = some c.desc ∧ c.runs = group.flatMap (batchRuns f cfg)

/-- What the loop keeps of the batches `done` it has read: the chunk being gathered holds the
whole batches at the end of `done`, and each chunk of whole batches pushed replaces batches that
stand together in `done`. -/
structure ChunkState.Inv [DecidableEq A] (f : ChunkFields P M) (cfg : CompactConfig) (since : A)
    (done : List (SpineId × HollowBatch A P M)) (s : ChunkState A P M) : Prop where
  pending : ∃ group, group <:+ done ∧ s.ids = group.map Prod.fst ∧
    s.descs = group.map (·.2.desc) ∧ s.runs = group.flatMap (batchRuns f cfg)
  chunks : ∀ c ∈ s.chunks, ∀ id, c.input = .idRange id →
    ∃ group, group <:+: done ∧ c.OfBatches f cfg since id group

/-- The chunks of `s'` are those of `s` and chunks of runs of the batch `spineId`, and the ids and
descriptions gathered are kept. -/
def ChunkState.PushesPartial (spineId : SpineId) (s s' : ChunkState A P M) : Prop :=
  s'.ids = s.ids ∧ s'.descs = s.descs ∧
    ∀ c ∈ s'.chunks, c ∈ s.chunks ∨ ∃ runIds, c.input = .partialBatch spineId runIds

theorem ChunkState.PushesPartial.trans {spineId : SpineId} {s₁ s₂ s₃ : ChunkState A P M}
    (h₁ : PushesPartial spineId s₁ s₂) (h₂ : PushesPartial spineId s₂ s₃) :
    PushesPartial spineId s₁ s₃ := by
  refine ⟨h₂.1.trans h₁.1, h₂.2.1.trans h₁.2.1, fun c hc => ?_⟩
  rcases h₂.2.2 c hc with hc | hc
  · exact h₁.2.2 c hc
  · exact .inr hc

theorem ChunkState.pushesPartial_pushPartial (s : ChunkState A P M) (spineId : SpineId)
    (runIds : List RunId) (desc : Description A) :
    PushesPartial spineId s (s.pushPartial spineId runIds desc) := by
  refine ⟨rfl, rfl, fun c hc => ?_⟩
  simp only [pushPartial, List.mem_append, List.mem_singleton] at hc
  rcases hc with hc | rfl
  · exact .inl hc
  · exact .inr ⟨runIds, rfl⟩

theorem ChunkState.pushesPartial_splitLoop (f : ChunkFields P M) (cfg : CompactConfig)
    (budget : Nat) (spineId : SpineId) (desc : Description A) :
    ∀ (runs : List (ChunkRun A P M)) (runIds : List RunId) (s : ChunkState A P M),
      PushesPartial spineId s (s.splitLoop f cfg budget spineId desc runs runIds).1
  | [], _, _ => ⟨rfl, rfl, fun _ hc => .inl hc⟩
  | run :: rest, runIds, s => by
    -- the run joins the current chunk, which leaves the chunks, ids and descriptions alone
    have hjoin : ∀ usage : Nat, PushesPartial spineId s
        { s with runs := s.runs ++ [run], maxMemoryUsage := usage } :=
      fun _ => ⟨rfl, rfl, fun _ hc => .inl hc⟩
    have ih := pushesPartial_splitLoop f cfg budget spineId desc rest
    simp only [splitLoop]
    split
    · split
      · exact ((hjoin _).trans (pushesPartial_pushPartial _ _ _ _)).trans (ih _ _)
      · exact (hjoin _).trans (ih _ _)
    · exact hjoin _

theorem ChunkState.split_pushesPartial (f : ChunkFields P M) (cfg : CompactConfig) (budget : Nat)
    (spineId : SpineId) (desc : Description A) (runs : List (ChunkRun A P M))
    (s : ChunkState A P M) :
    PushesPartial spineId s (s.split f cfg budget spineId desc runs) ∧
      (s.split f cfg budget spineId desc runs).runs = [] := by
  have hloop := pushesPartial_splitLoop f cfg budget spineId desc runs [] s
  unfold split
  rcases hl : s.splitLoop f cfg budget spineId desc runs [] with ⟨s', runIds⟩
  rw [hl] at hloop
  by_cases hempty : s'.runs = []
  · simpa [hempty] using hloop
  · simpa [hempty, pushPartial] using hloop.trans (pushesPartial_pushPartial s' spineId runIds desc)

section Inv
variable [DecidableEq A] {f : ChunkFields P M} {cfg : CompactConfig} {since : A}
  {done : List (SpineId × HollowBatch A P M)} {s s' : ChunkState A P M}

theorem ChunkState.inv_init : ChunkState.Inv f cfg since [] (.init : ChunkState A P M) :=
  ⟨⟨[], List.nil_suffix, rfl, rfl, rfl⟩, fun _ hc => nomatch hc⟩

/-- A chunk of whole batches of `done` is one of `done` and a further batch. -/
theorem ChunkState.Inv.chunks_append (hinv : Inv f cfg since done s)
    (x : SpineId × HollowBatch A P M) :
    ∀ c ∈ s.chunks, ∀ id, c.input = .idRange id →
      ∃ group, group <:+: done ++ [x] ∧ c.OfBatches f cfg since id group := by
  intro c hc id hid
  obtain ⟨group, hgroup, hof⟩ := hinv.chunks c hc id hid
  exact ⟨group, hgroup.trans (List.prefix_append done [x]).isInfix, hof⟩

/-- Gathering a batch whole keeps the invariant. -/
theorem ChunkState.Inv.add (hinv : Inv f cfg since done s) (x : SpineId × HollowBatch A P M)
    (batchSize : Nat) :
    Inv f cfg since (done ++ [x]) (s.add x.1 x.2.desc (batchRuns f cfg x) batchSize) := by
  obtain ⟨group, ⟨t, rfl⟩, hids, hdescs, hruns⟩ := hinv.pending
  refine ⟨⟨group ++ [x], ⟨t, by simp⟩, ?_, ?_, ?_⟩, hinv.chunks_append x⟩ <;>
    simp [ChunkState.add, hids, hdescs, hruns]

/-- Pushing the chunk being gathered keeps the invariant and leaves no ids gathered. -/
theorem ChunkState.Inv.flush (hinv : Inv f cfg since done s) (h : s.flush since = some s') :
    Inv f cfg since done s' ∧ s'.ids = [] := by
  obtain ⟨group, hsuffix, hids, hdescs, hruns⟩ := hinv.pending
  unfold ChunkState.flush at h
  split at h
  · cases h
    exact ⟨hinv, by simpa using ‹s.ids.isEmpty = true›⟩
  · obtain ⟨id, hid, h⟩ := Option.bind_eq_some_iff.1 h
    obtain ⟨desc, hdesc, rfl⟩ := Option.map_eq_some_iff.1 h
    refine ⟨⟨⟨[], List.nil_suffix, rfl, rfl, rfl⟩, fun c hc id' hid' => ?_⟩, rfl⟩
    simp only [List.mem_append, List.mem_singleton] at hc
    rcases hc with hc | rfl
    · exact hinv.chunks c hc id' hid'
    · cases hid'
      exact ⟨group, hsuffix.isInfix, by rw [← hids]; exact hid, by rw [← hdescs]; exact hdesc,
        hruns⟩

/-- A state with no ids gathered holds no runs. -/
theorem ChunkState.Inv.runs_eq_nil (hinv : Inv f cfg since done s) (hids : s.ids = []) :
    s.runs = [] := by
  obtain ⟨group, -, hgroup, -, hruns⟩ := hinv.pending
  rw [hids, eq_comm, List.map_eq_nil_iff] at hgroup
  simp [hruns, hgroup]

/-- Cutting a batch into chunks of its runs, from a state with no ids gathered, keeps the
invariant. -/
theorem ChunkState.Inv.split (hinv : Inv f cfg since done s) (hids : s.ids = [])
    (x : SpineId × HollowBatch A P M) (budget : Nat) (desc : Description A)
    (runs : List (ChunkRun A P M)) :
    Inv f cfg since (done ++ [x]) (s.split f cfg budget x.1 desc runs) := by
  obtain ⟨⟨hids', hdescs', hchunks⟩, hruns⟩ := s.split_pushesPartial f cfg budget x.1 desc runs
  obtain ⟨group, -, hgroup, hdescs, -⟩ := hinv.pending
  have hnil : group = [] := by simpa [hids] using hgroup.symm
  refine ⟨⟨[], List.nil_suffix, by rw [hids', hids]; rfl, by rw [hdescs', hdescs, hnil],
    hruns⟩, fun c hc id hid => ?_⟩
  rcases hchunks c hc with hc | ⟨runIds, hc⟩
  · exact hinv.chunks_append x c hc id hid
  · rw [hid] at hc
    cases hc

/-- A pass of the loop keeps the invariant. -/
theorem ChunkState.Inv.step {budget : Nat} (hinv : Inv f cfg since done s)
    {x : SpineId × HollowBatch A P M} (h : s.step f cfg budget since x = some s') :
    Inv f cfg since (done ++ [x]) s' := by
  obtain ⟨spineId, b⟩ := x
  simp only [ChunkState.step, Option.bind_eq_some_iff] at h
  obtain ⟨runs, hruns, h⟩ := h
  have hbatch : chunkRunsOf f cfg b.desc runs = batchRuns f cfg (spineId, b) := by
    simp [batchRuns, hruns]
  split at h
  · cases h
    rw [hbatch]
    exact hinv.add _ _
  · obtain ⟨s₁, hflush, h⟩ := Option.bind_eq_some_iff.1 h
    obtain ⟨hinv₁, hids₁⟩ := hinv.flush hflush
    split at h
    · cases h
      rw [hbatch]
      exact hinv₁.add _ _
    · obtain ⟨desc, -, rfl⟩ := Option.map_eq_some_iff.1 h
      exact hinv₁.split hids₁ (spineId, b) budget desc _

/-- The loop over the batches keeps the invariant. -/
theorem ChunkState.Inv.foldlM_step {budget : Nat} :
    ∀ {bs : List (SpineId × HollowBatch A P M)} {done : List (SpineId × HollowBatch A P M)}
      {s s' : ChunkState A P M}, Inv f cfg since done s →
        bs.foldlM (ChunkState.step f cfg budget since) s = some s' →
          Inv f cfg since (done ++ bs) s'
  | [], done, s, s', hinv, h => by
    cases h
    simpa using hinv
  | x :: bs, done, s, s', hinv, h => by
    obtain ⟨s₁, h₁, h⟩ := Option.bind_eq_some_iff.1 h
    simpa using (hinv.step h₁).foldlM_step h

end Inv

/-- The state `chunk_runs` ends with: the invariant over all the batches, and nothing gathered. -/
theorem chunkRuns_final [DecidableEq A] {f : ChunkFields P M} {cfg : CompactConfig}
    {req : CompactReq A P M} {budget : Nat} {since : A} {chunks : List (Chunk A P M)}
    (h : chunkRuns f cfg req budget since = some chunks) :
    ∃ s s', req.batches.foldlM (ChunkState.step f cfg budget since) .init = some s ∧
      s.flush since = some s' ∧ chunks = s'.chunks ∧ s'.Inv f cfg since req.batches ∧
        s'.runs = [] := by
  obtain ⟨-, -, h⟩ := Option.bind_eq_some_iff.1 h
  obtain ⟨s, hfold, h⟩ := Option.bind_eq_some_iff.1 h
  obtain ⟨s', hflush, rfl⟩ := Option.map_eq_some_iff.1 h
  have hinit : ChunkState.Inv f cfg since [] (.init : ChunkState A P M) := ChunkState.inv_init
  have hinv := hinit.foldlM_step hfold
  rw [List.nil_append] at hinv
  obtain ⟨hinv', hids⟩ := hinv.flush hflush
  exact ⟨s, s', hfold, hflush, rfl, hinv', hinv'.runs_eq_nil hids⟩

/-- Each chunk that replaces a range of ids is made of whole input batches that stand together in
spine-id order: their ids are contiguous and make up the range, their descriptions chain into the
chunk's, and the chunk holds all their runs. -/
theorem chunkRuns_idRange [DecidableEq A] {f : ChunkFields P M} {cfg : CompactConfig}
    {req : CompactReq A P M} {budget : Nat} {since : A} {chunks : List (Chunk A P M)}
    (h : chunkRuns f cfg req budget since = some chunks) {c : Chunk A P M} (hc : c ∈ chunks)
    {id : SpineId} (hid : c.input = .idRange id) :
    ∃ group, group <:+: req.batches ∧ c.OfBatches f cfg since id group := by
  obtain ⟨-, s', -, -, rfl, hinv, -⟩ := chunkRuns_final h
  exact hinv.chunks c hc id hid

/-- The runs of the chunks are the parts of the input batches, in spine-id order: none is lost and
none is read twice, so `compact_stream`'s count of the parts before and after chunking agrees. -/
theorem chunkRuns_parts [DecidableEq A] {f : ChunkFields P M} {cfg : CompactConfig}
    {req : CompactReq A P M} {budget : Nat} {since : A} {chunks : List (Chunk A P M)}
    (hwf : ∀ x ∈ req.inputs, x.batch.SplitsSorted)
    (h : chunkRuns f cfg req budget since = some chunks) :
    chunks.flatMap (fun c => c.runs.flatMap (·.parts)) = req.batches.flatMap (·.2.parts) := by
  obtain ⟨s, s', hfold, hflush, rfl, -, hrest⟩ := chunkRuns_final h
  have hbatches : ∀ x ∈ req.batches, x.2.SplitsSorted := by
    intro x hx
    obtain ⟨y, hy, rfl⟩ := List.mem_map.1 ((List.perm_insertionSort _ _).mem_iff.1 hx)
    exact hwf y hy
  have hparts := (ChunkState.flush_parts hflush).trans
    (ChunkState.foldlM_step_parts hbatches hfold)
  simpa [ChunkState.parts, ChunkState.init, hrest] using hparts

/-! ## A run split between two chunks -/

/-- A batch of one spine id whose three runs are in codec order, while the structured order is
preferred, is too large for a budget of 5 bytes when every part takes 10. Its runs are exploded
into five entries; the first run's three parts are cut between the first chunk and the second,
and both chunks name that run. -/
theorem chunkRuns_splits_exploded_run :
    chunkRuns (⟨fun _ => some .codec, fun m => some ⟨m⟩, fun _ => 10⟩ : ChunkFields Nat Nat)
      ⟨10, .structured⟩
      ⟨⟨0, 1, 0⟩, [⟨⟨0, 1⟩, ⟨⟨0, 1, 0⟩, 5, [1, 2, 3, 4, 5], [3, 4], [1, 2, 3]⟩⟩]⟩ 5 0 =
    some [⟨.partialBatch ⟨0, 1⟩ [⟨1⟩], ⟨0, 1, 0⟩, [⟨⟨0, 1, 0⟩, 1, [1]⟩, ⟨⟨0, 1, 0⟩, 1, [2]⟩], 20⟩,
      ⟨.partialBatch ⟨0, 1⟩ [⟨2⟩, ⟨1⟩], ⟨0, 1, 0⟩, [⟨⟨0, 1, 0⟩, 1, [3]⟩, ⟨⟨0, 1, 0⟩, 2, [4]⟩], 20⟩,
      ⟨.partialBatch ⟨0, 1⟩ [⟨3⟩], ⟨0, 1, 0⟩, [⟨⟨0, 1, 0⟩, 3, [5]⟩], 10⟩] := by
  decide

/-- Applying the first chunk's output (part 6, run 4) to the spine batch of the batch above
replaces all of run 1, part 3 with it, when the parts record no sums of diffs: part 3 is in no
output, and the second chunk, which holds it, names a run the batch no longer has. -/
theorem handlePartialBatchReplacement_drops_split_run :
    ((SpineBatch.merged ⟨⟨0, 1⟩, ⟨⟨0, 1, 0⟩, 5, [1, 2, 3, 4, 5], [3, 4], [1, 2, 3]⟩⟩ :
        SpineBatch Nat Nat Nat).handlePartialBatchReplacement
        (⟨fun _ => none, fun m => some ⟨m⟩, fun _ => some 1⟩ : RunFields Nat Nat Nat)
        ⟨⟨⟨0, 1, 0⟩, 2, [6], [], [4]⟩, .partialBatch ⟨0, 1⟩ [⟨1⟩], none⟩ ⟨0, 1⟩ [⟨1⟩] none).map
      (fun r => r.1.parts.flatMap (·.batch.parts)) = some [4, 5, 6] := by
  decide

end Materialize.Persist
