import Materialize.Temporal.BucketChain

/-!
# The correction buffer of the persist sink

`CorrectionV2` (`src/compute/src/sink/correction_v2.rs`) holds the updates a materialized view's
sink still has to write: a stage for small inserts, a bucket chain of chains at times from the
`boundary` on, chains below it that are pending, and the chain last emitted. Reads consolidate the
updates before an `upper` into `emitted`; the `since` is the frontier all times are advanced to.

The model keeps the state and the calls the sink makes: `insert` and `insert_negated` (which
discard their updates once the since is empty), the stage's `insert`, `flush` and
`advance_times`, `route`, `consolidate_before` with its early return, its branch for an empty since
and its peel, split and merge, `consolidated_updates_before`, `updates_before`, `advance_since` and
`consolidate_at_since`. A chain is its list of updates; the buckets split as `ChainBucket::split`
does, which is a `Bucket` whose split partitions its updates by time (`ChainBucket.partitions`), so
the bucket-chain results hold of the sink's chain.

`consolidate_before` returns at once unless `since < upper` in the order of antichains, and nothing
is beyond the empty antichain. So once `advance_since` has made the since empty, no
`consolidate_before` reaches the branch written to discard the buffer: the chain, the pending
chains and the emitted chain keep their updates (`consolidateBefore_after_empty_since`), and no
later sequence of calls changes the buffer again (`run_of_since_none`).
-/

namespace Materialize.Sink

open Materialize.Temporal

/-- `mz_repr::Timestamp`, a `u64`. -/
abbrev Timestamp := Fin (2 ^ 64)

/-- A frontier of timestamps, `Antichain<Timestamp>`: at most one element. -/
abbrev Antichain := Option Timestamp

/-- An update `(data, time, diff)`. -/
abbrev Update (D : Type) := D × Timestamp × Int

variable {D : Type}

/-! ## Chains and buckets -/

section Consolidate

variable [LinearOrder D]

/-- The order `consolidate` sorts by: time, then data. -/
def timeDataLe (a b : Update D) : Bool :=
  decide (a.2.1 < b.2.1) || (decide (a.2.1 = b.2.1) && decide (a.1 ≤ b.1))

/-- The walk of `consolidate` over sorted updates: the diffs of neighbours with equal data and time
are added up, and a sum of zero is dropped. -/
def consolidateWalk : Update D → List (Update D) → List (Update D)
  | (d, t, acc), [] => if acc ≠ 0 then [(d, t, acc)] else []
  | (d, t, acc), (d', t', r) :: rest =>
    if d' = d ∧ t' = t then consolidateWalk (d, t, acc + r) rest
    else (if acc ≠ 0 then [(d, t, acc)] else []) ++ consolidateWalk (d', t', r) rest

/-- `consolidate`: the updates sorted by time and data, equal ones summed, zeros dropped; a list of
at most one update is left as it is. -/
def consolidate (updates : List (Update D)) : List (Update D) :=
  if updates.length ≤ 1 then updates
  else
    match updates.mergeSort timeDataLe with
    | [] => []
    | u :: rest => consolidateWalk u rest

end Consolidate

/-- `Chain`: updates sorted by time and data, and consolidated. The chunks that hold them are not
modelled. -/
structure Chain (D : Type) where
  updates : List (Update D)

namespace Chain

/-- `Chain::new`. -/
def new : Chain D := ⟨[]⟩

/-- `Chain::is_empty`. -/
def isEmpty (c : Chain D) : Bool := c.updates.isEmpty

/-- `Chain::split_at_time`: the updates before `time`, and the rest. -/
def splitAtTime (c : Chain D) (time : Timestamp) : Chain D × Chain D :=
  (⟨c.updates.filter (·.2.1 < time)⟩, ⟨c.updates.filter fun u => ¬ u.2.1 < time⟩)

end Chain

/-- `ChainBucket`: the chains of one bucket, and the proportion between neighbouring chains'
lengths above which `push_chain` merges them. -/
structure ChainBucket (D : Type) where
  chains : List (Chain D)
  chainProportionality : ℚ

/-- Push a chain where it is not empty. -/
def pushNonempty (chains : List (Chain D)) (c : Chain D) : List (Chain D) :=
  if c.isEmpty then chains else chains ++ [c]

namespace ChainBucket

/-- One chain of `ChainBucket::split`: its parts before and from the time, each kept where it is not
empty, and one unit of fuel spent. -/
def splitStep (t : Timestamp) (acc : List (Chain D) × List (Chain D) × Int) (chain : Chain D) :
    List (Chain D) × List (Chain D) × Int :=
  (pushNonempty acc.1 (chain.splitAtTime t).1, pushNonempty acc.2.1 (chain.splitAtTime t).2,
    acc.2.2 - 1)

end ChainBucket

/-- `ChainBucket::split`: every chain split at the time. -/
instance : Bucket 64 (ChainBucket D) where
  split b t fuel :=
    let r := b.chains.foldl (ChainBucket.splitStep t) ([], [], fuel)
    ((⟨r.1, b.chainProportionality⟩, ⟨r.2.1, b.chainProportionality⟩), r.2.2)

namespace ChainBucket

/-- The updates of a list of chains. -/
def updatesOf (chains : List (Chain D)) : Multiset (Update D) :=
  (chains.map fun c => (c.updates : Multiset (Update D))).sum

@[simp] theorem updatesOf_nil : updatesOf ([] : List (Chain D)) = 0 := rfl

@[simp] theorem updatesOf_cons (c : Chain D) (l : List (Chain D)) :
    updatesOf (c :: l) = c.updates + updatesOf l := by
  simp [updatesOf]

theorem updatesOf_pushNonempty (l : List (Chain D)) (c : Chain D) :
    updatesOf (pushNonempty l c) = updatesOf l + c.updates := by
  unfold pushNonempty
  split
  · rename_i he
    simp only [Chain.isEmpty, List.isEmpty_iff] at he
    simp [he]
  · simp [updatesOf]

/-- The fold of `split` adds to each half the updates of the chains on its side of the time. -/
theorem updatesOf_foldl_splitStep (t : Timestamp) (chains : List (Chain D))
    (acc : List (Chain D) × List (Chain D) × Int) :
    updatesOf (chains.foldl (splitStep t) acc).1 =
        updatesOf acc.1 + (updatesOf chains).filter (·.2.1 < t) ∧
      updatesOf (chains.foldl (splitStep t) acc).2.1 =
        updatesOf acc.2.1 + (updatesOf chains).filter fun u => ¬ u.2.1 < t := by
  induction chains generalizing acc with
  | nil => simp
  | cons c chains ih =>
    obtain ⟨h₁, h₂⟩ := ih (splitStep t acc c)
    rw [List.foldl_cons, h₁, h₂]
    simp [splitStep, updatesOf_pushNonempty, Chain.splitAtTime, Multiset.filter_add,
      Multiset.filter_coe, add_assoc]

/-- A chain bucket holds the updates of its chains, and `split` partitions them by time. -/
def partitions : Bucket.Partitions 64 (ChainBucket D) (Update D) where
  contents b := updatesOf b.chains
  time u := u.2.1
  split_fst b t fuel := by
    simpa [Bucket.split] using (updatesOf_foldl_splitStep t b.chains ([], [], fuel)).1
  split_snd b t fuel := by
    simpa [Bucket.split] using (updatesOf_foldl_splitStep t b.chains ([], [], fuel)).2

end ChainBucket

/-! ## Pushing chains -/

section Push

variable [LinearOrder D]

/-- `push_chain`'s test: the last chain is longer, in the proportion, than the one before it. -/
def mergeNeeded (prop : ℚ) (chains : List (Chain D)) : Bool :=
  match chains.reverse with
  | last :: prev :: _ => decide ((last.updates.length : ℚ) * prop > prev.updates.length)
  | _ => false

/-- `merge_cursors` of the cursors of two chains: their updates, consolidated. -/
def mergeTwo (a b : Chain D) : Chain D := ⟨consolidate (a.updates ++ b.updates)⟩

/-- The loop of `push_chain`: merge the last two chains while the last is too long against the one
before it. Each round removes a chain, so `fuel` at the number of chains never runs out. -/
def pushChainLoop (prop : ℚ) : Nat → List (Chain D) → List (Chain D)
  | 0, chains => chains
  | fuel + 1, chains =>
    if mergeNeeded prop chains then
      match chains.reverse with
      | a :: b :: rest => pushChainLoop prop fuel (pushNonempty rest.reverse (mergeTwo a b))
      | _ => chains
    else chains

/-- `ChainBucket::push_chain`: a chain that is not empty goes last, then chains are merged. -/
def ChainBucket.pushChain (b : ChainBucket D) (chain : Chain D) : ChainBucket D :=
  if chain.isEmpty then b
  else
    { b with chains :=
        pushChainLoop b.chainProportionality (b.chains.length + 1) (b.chains ++ [chain]) }

end Push

/-! ## The stage -/

/-- `Stage`: staged updates, shipped a chunk's capacity at a time. -/
structure Stage (D : Type) where
  data : List (Update D)
  capacity : Nat

namespace Stage

variable [LinearOrder D]

/-- `Stage::insert`: as many whole chunks as the staged and new updates fill are shipped,
consolidated; the rest is staged. -/
def insert (st : Stage D) (updates : List (Update D)) : Stage D × Option (List (Update D)) :=
  if updates.isEmpty then (st, none)
  else
    let chunkCount := (st.data.length + updates.length) / st.capacity
    if 0 < chunkCount then
      let taken := chunkCount * st.capacity - st.data.length
      (⟨updates.drop taken, st.capacity⟩, some (consolidate (st.data ++ updates.take taken)))
    else (⟨st.data ++ updates, st.capacity⟩, none)

/-- `Stage::flush`: all staged updates, consolidated, where there are any. -/
def flush (st : Stage D) : Stage D × Option (List (Update D)) :=
  let data := consolidate st.data
  if data.isEmpty then (⟨data, st.capacity⟩, none) else (⟨[], st.capacity⟩, some data)

/-- `Stage::advance_times`: times advanced to the since; everything dropped at the empty since. -/
def advanceTimes (st : Stage D) : Antichain → Stage D
  | none => ⟨[], st.capacity⟩
  | some sinceTs => ⟨st.data.map fun u => (u.1, max u.2.1 sinceTs, u.2.2), st.capacity⟩

end Stage

/-! ## The buffer -/

/-- `CorrectionV2`; its metrics and logging are not modelled. -/
structure CorrectionV2 (D : Type) where
  chain : BucketChain 64 (ChainBucket D)
  pendingLow : List (Chain D)
  emitted : Chain D
  stage : Stage D
  boundary : Antichain
  since : Antichain

/-- `RESTORE_FUEL`. -/
def RESTORE_FUEL : Int := 1000000

/-- `Timestamp::try_step_forward`. -/
def tryStepForward (t : Timestamp) : Option Timestamp :=
  if h : t.val + 1 < 2 ^ 64 then some ⟨t.val + 1, h⟩ else none

namespace CorrectionV2

variable [LinearOrder D]

/-- `CorrectionV2::new`, with the chunk capacity `chunk_size / update_size`. -/
def new (chainProportionality : ℚ) (chunkCapacity : Nat) : CorrectionV2 D :=
  ⟨BucketChain.new ⟨[], chainProportionality⟩, [], Chain.new, ⟨[], max chunkCapacity 1⟩, some 0,
    some 0⟩

/-- `find_mut(range.start).push_chain`: a group of updates of one bucket's range into the bucket;
it panics where no bucket holds the start. -/
def pushGroup (s : CorrectionV2 D) (range : BucketRange 64) (group : List (Update D)) :
    Option (CorrectionV2 D) :=
  (s.chain.modify range.start fun b => b.pushChain ⟨group⟩).map fun chain => { s with chain }

/-- The loop of `route` over the updates from the boundary on: a group grows while its bucket's
range holds the next update; `range_of` panics where no bucket holds an update. -/
def routeHigh (s : CorrectionV2 D) : BucketRange 64 × List (Update D) → List (Update D) →
    Option (CorrectionV2 D)
  | (range, group), [] => s.pushGroup range group
  | (range, group), u :: rest =>
    if range.contains u.2.1 then s.routeHigh (range, group ++ [u]) rest
    else
      (s.pushGroup range group).bind fun s =>
        (s.chain.rangeOf u.2.1).bind fun range' => s.routeHigh (range', [u]) rest

/-- `route`: sorted, consolidated updates before the boundary become a pending chain, the others go
to the buckets of their times. -/
def route (s : CorrectionV2 D) (updates : List (Update D)) : Option (CorrectionV2 D) :=
  let lows := updates.takeWhile fun u => !Frontier.lessEqual s.boundary u.2.1
  let s := if lows.isEmpty then s else { s with pendingLow := s.pendingLow ++ [⟨lows⟩] }
  match updates.dropWhile fun u => !Frontier.lessEqual s.boundary u.2.1 with
  | [] => some s
  | u :: rest => (s.chain.rangeOf u.2.1).bind fun range => s.routeHigh (range, [u]) rest

/-- `insert_inner`: into the stage, routing what it ships. -/
def insertInner (s : CorrectionV2 D) (updates : List (Update D)) : Option (CorrectionV2 D) :=
  let (stage, ready) := s.stage.insert updates
  match ready with
  | none => some { s with stage }
  | some ready => { s with stage }.route ready

/-- `insert`: the updates with their times advanced to the since; none at the empty since. -/
def insert (s : CorrectionV2 D) (updates : List (Update D)) : Option (CorrectionV2 D) :=
  match s.since with
  | none => some s
  | some sinceTs => s.insertInner (updates.map fun u => (u.1, max u.2.1 sinceTs, u.2.2))

/-- `insert_negated`: as `insert`, with the diffs negated. -/
def insertNegated (s : CorrectionV2 D) (updates : List (Update D)) : Option (CorrectionV2 D) :=
  match s.since with
  | none => some s
  | some sinceTs => s.insertInner (updates.map fun u => (u.1, max u.2.1 sinceTs, -u.2.2))

/-- `restore_chain`. -/
def restoreChain (s : CorrectionV2 D) : Option (CorrectionV2 D) :=
  (s.chain.restore RESTORE_FUEL).map fun r => { s with chain := r.1 }

/-- One candidate of `consolidate_before`: its part before the upper to merge, the rest pending. -/
def splitCandidate (upper : Antichain) (acc : List (Chain D) × List (Chain D)) (chain : Chain D) :
    List (Chain D) × List (Chain D) :=
  match upper with
  | some upperTs =>
    (pushNonempty acc.1 (chain.splitAtTime upperTs).1, pushNonempty acc.2 (chain.splitAtTime upperTs).2)
  | none => (acc.1 ++ [chain], acc.2)

/-- The merge of the lower parts with their times advanced to the since, split at the upper: the
path of `consolidate_before` that materializes, advances and consolidates. The two paths through
cursors compute the same chain, and their split is empty because the since is below the upper. -/
def mergeLowers (sinceTs : Timestamp) (upper : Antichain) (lowers : List (Chain D)) :
    Chain D × Option (Chain D) :=
  let chain : Chain D :=
    ⟨consolidate ((lowers.flatMap (·.updates)).map fun u => (u.1, max u.2.1 sinceTs, u.2.2))⟩
  match upper with
  | some upperTs =>
    ((chain.splitAtTime upperTs).1,
      if (chain.splitAtTime upperTs).2.isEmpty then none else some (chain.splitAtTime upperTs).2)
  | none => (chain, none)

/-- The part of `consolidate_before` for a since that is not empty: peel the buckets before the
upper, advance the boundary, and merge the updates before the upper into `emitted`. -/
def peelAndMerge (s : CorrectionV2 D) (sinceTs : Timestamp) (upper : Antichain) :
    Option (CorrectionV2 D) :=
  (s.chain.peel upper).bind fun (chain, peeled) =>
    let candidates := peeled.flatMap (·.chains) ++ s.pendingLow ++
      (if s.emitted.isEmpty then [] else [s.emitted])
    let s : CorrectionV2 D :=
      { s with chain, boundary := if Frontier.lt s.boundary upper then upper else s.boundary,
               pendingLow := [], emitted := Chain.new }
    if candidates.isEmpty then s.restoreChain
    else
      let (lowers, pending) := candidates.foldl (splitCandidate upper) ([], [])
      let (merged, remainder) := mergeLowers sinceTs upper lowers
      { s with pendingLow := pending ++ remainder.toList, emitted := merged }.restoreChain

/-- `consolidate_before`: nothing unless the upper is beyond the since; otherwise the stage is
flushed and routed, and then everything is discarded at the empty since, and the updates before the
upper are merged into `emitted` otherwise. -/
def consolidateBefore (s : CorrectionV2 D) (upper : Antichain) : Option (CorrectionV2 D) :=
  if !Frontier.lt s.since upper then some s
  else
    let (stage, ready) := s.stage.flush
    let routed := match ready with
      | none => some { s with stage }
      | some ready => { s with stage }.route ready
    routed.bind fun s =>
      match s.since with
      | none =>
        (s.chain.peel none).map fun r => { s with chain := r.1, pendingLow := [], emitted := Chain.new }
      | some sinceTs => s.peelAndMerge sinceTs upper

/-- `consolidated_updates_before`: `emitted`, where the upper is beyond the since. -/
def consolidatedUpdatesBefore (s : CorrectionV2 D) (upper : Antichain) : List (Update D) :=
  if !Frontier.lt s.since upper then [] else s.emitted.updates

/-- `updates_before`. -/
def updatesBefore (s : CorrectionV2 D) (upper : Antichain) :
    Option (List (Update D) × CorrectionV2 D) :=
  (s.consolidateBefore upper).map fun s => (s.consolidatedUpdatesBefore upper, s)

/-- `advance_since`: the stage's times advanced and the new since; it panics where the since would
go back. -/
def advanceSince (s : CorrectionV2 D) (since : Antichain) : Option (CorrectionV2 D) :=
  if Frontier.le s.since since then some { s with stage := s.stage.advanceTimes since, since }
  else none

/-- `consolidate_at_since`: consolidate before the time after the since, where there is one. -/
def consolidateAtSince (s : CorrectionV2 D) : Option (CorrectionV2 D) :=
  match s.since.bind tryStepForward with
  | none => some s
  | some upperTs => s.consolidateBefore (some upperTs)

/-- The number of updates the buffer holds, as `update_metrics` counts them. -/
def updateCount (s : CorrectionV2 D) : Nat :=
  s.stage.data.length + (s.pendingLow.map (·.updates.length)).sum + s.emitted.updates.length +
    (s.chain.content.values.map fun v => (v.2.chains.map (·.updates.length)).sum).sum

/-- A call of the buffer's API that changes it; `updates_before` is `consolidate_before` followed by
a read. -/
inductive Call (D : Type)
  | insert (updates : List (Update D))
  | insertNegated (updates : List (Update D))
  | advanceSince (since : Antichain)
  | consolidateBefore (upper : Antichain)
  | consolidateAtSince

/-- One call; `none` where it panics. -/
def apply (s : CorrectionV2 D) : Call D → Option (CorrectionV2 D)
  | .insert updates => s.insert updates
  | .insertNegated updates => s.insertNegated updates
  | .advanceSince since => s.advanceSince since
  | .consolidateBefore upper => s.consolidateBefore upper
  | .consolidateAtSince => s.consolidateAtSince

/-- A sequence of calls, stopping at the first that panics. -/
def run (s : CorrectionV2 D) (calls : List (Call D)) : Option (CorrectionV2 D) :=
  calls.foldlM apply s

/-! ## The empty since -/

/-- Where the upper is not beyond the since, `consolidate_before` returns at its first check. -/
theorem consolidateBefore_of_not_lt {s : CorrectionV2 D} {upper : Antichain}
    (h : Frontier.lt s.since upper = false) : s.consolidateBefore upper = some s := by
  simp [consolidateBefore, h]

/-- Where the upper is not beyond the since, a read is empty. -/
theorem updatesBefore_of_not_lt {s : CorrectionV2 D} {upper : Antichain}
    (h : Frontier.lt s.since upper = false) : s.updatesBefore upper = some ([], s) := by
  simp [updatesBefore, consolidateBefore_of_not_lt h, consolidatedUpdatesBefore, h]

omit [LinearOrder D] in
/-- `advance_since` to the empty frontier always succeeds, and only the stage and since change. -/
theorem advanceSince_none (s : CorrectionV2 D) :
    s.advanceSince none = some { s with stage := ⟨[], s.stage.capacity⟩, since := none } := by
  simp [advanceSince, Stage.advanceTimes]

/-- After the since has advanced to the empty frontier, nothing is strictly beyond it, so every
`consolidate_before` returns at its first check: the branch that discards all updates at the empty
since is never reached, and the buffer keeps its bucket chain, pending and emitted chains. -/
theorem consolidateBefore_after_empty_since {s s' : CorrectionV2 D}
    (h : s.advanceSince none = some s') (upper : Antichain) :
    s'.consolidateBefore upper = some s' ∧ s'.updatesBefore upper = some ([], s') ∧
      s'.chain = s.chain ∧ s'.pendingLow = s.pendingLow ∧ s'.emitted = s.emitted := by
  rw [advanceSince_none, Option.some_inj] at h
  subst h
  have hlt : Frontier.lt (none : Antichain) upper = false := Frontier.lt_none_left upper
  exact ⟨consolidateBefore_of_not_lt hlt, updatesBefore_of_not_lt hlt, rfl, rfl, rfl⟩

/-- A buffer at the empty since with nothing staged is final: every call either panics (an
`advance_since` back to a time) or leaves it as it is. -/
theorem apply_of_since_none {s s' : CorrectionV2 D} (hs : s.since = none) (hst : s.stage.data = [])
    (c : Call D) (h : s.apply c = some s') : s' = s := by
  have hlt : ∀ upper, Frontier.lt s.since upper = false := fun upper => hs ▸ Frontier.lt_none_left upper
  -- advancing to the empty since again drops a stage that is already empty
  have hself : { s with stage := ⟨[], s.stage.capacity⟩, since := none } = s := by
    obtain ⟨chain, pendingLow, emitted, ⟨data, capacity⟩, boundary, since⟩ := s
    simp only at hs hst
    rw [hs, hst]
  cases c with
  | insert updates => simpa [apply, insert, hs] using h.symm
  | insertNegated updates => simpa [apply, insertNegated, hs] using h.symm
  | advanceSince since =>
    cases since with
    | none =>
      rw [apply, advanceSince_none, hself] at h
      exact (Option.some_inj.mp h).symm
    | some t => simp [apply, advanceSince, hs] at h
  | consolidateBefore upper =>
    rw [apply, consolidateBefore_of_not_lt (hlt upper)] at h
    exact (Option.some_inj.mp h).symm
  | consolidateAtSince => simpa [apply, consolidateAtSince, hs] using h.symm

/-- The run lemma for `apply_of_since_none`: no sequence of calls changes such a buffer. -/
theorem run_of_since_none {s s' : CorrectionV2 D} (hs : s.since = none) (hst : s.stage.data = [])
    (calls : List (Call D)) (h : s.run calls = some s') : s' = s := by
  induction calls generalizing s' with
  | nil => simpa [run] using h.symm
  | cons c calls ih =>
    rw [run, List.foldlM_cons] at h
    cases hc : s.apply c with
    | none => simp [hc] at h
    | some s₁ =>
      simp only [hc, Option.bind_eq_bind, Option.bind_some] at h
      have hs₁ : s₁ = s := apply_of_since_none hs hst c hc
      subst hs₁
      exact ih h

/-- A buffer shipping every update at once, given one update at time 5 and then the empty since, keeps
that update under every later sequence of calls, while every read of it is empty. -/
theorem empty_since_keeps_update :
    ∃ s : CorrectionV2 Nat,
      (CorrectionV2.new 1 1).run [.insert [(0, 5, 1)], .advanceSince none] = some s ∧
      ∀ calls s', s.run calls = some s' →
        s'.updateCount = 1 ∧ ∀ upper, s'.updatesBefore upper = some ([], s') := by
  refine ⟨_, rfl, fun calls s' h => ?_⟩
  have hs' := run_of_since_none rfl rfl calls h
  subst hs'
  exact ⟨by decide, fun upper => updatesBefore_of_not_lt (Frontier.lt_none_left upper)⟩

/-! ## A lone update with diff zero -/

/-- `consolidate` returns a list of at most one update as it is. -/
theorem consolidate_of_length_le_one {updates : List (Update D)} (h : updates.length ≤ 1) :
    consolidate updates = updates := if_pos h

/-- `consolidate` keeps a lone update whose diff is zero, where `consolidate_updates`, which its
documentation says it matches, drops it; so a buffer given one update with diff zero returns it
from `updates_before`. -/
theorem consolidate_keeps_lone_zero_diff :
    (∀ (d : D) (t : Timestamp), consolidate [(d, t, 0)] = [(d, t, 0)]) ∧
      ((CorrectionV2.new 1 1 : CorrectionV2 Nat).run [.insert [(0, 5, 0)]]).bind
        (fun s => (s.updatesBefore (some 6)).map Prod.fst) = some [(0, 5, 0)] :=
  ⟨fun _ _ => consolidate_of_length_le_one (by simp), by decide +kernel⟩

end CorrectionV2

end Materialize.Sink
