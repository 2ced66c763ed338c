import Mathlib

/-!
# The persist `Spine`: a merge tree of batches

The model of `Spine` from `persist-client/src/internal/trace.rs`, the structure behind a shard's
`Trace`. Batches of updates live in levels; a level holds at most two batches, and a level that
holds two of them carries a fueling merge that combines them. Inserting a batch first spends fuel
on the merges in progress (`Spine.applyFuel`), then merges every level below the target into it
(`Spine.rollUp`), inserts the batch (`Spine.insertAt`) and draws the largest level down
(`Spine.tidyLayers`). `Spine.validate` checks what the rest of persist relies on.

What the model fixes:

* A frontier `Antichain<T>` is an element of a linear order `A` with a bottom: persist's
  timestamps are totally ordered, their antichains are `[t]` or `[]`, and `[T::minimum()]` is
  `⊥`, `join_assign` is `⊔` and `PartialOrder::less_equal` is `≤`.
* A run part and a run's metadata are the opaque types `P` and `M`: the spine never looks inside.
* A `usize` is a `Nat`; the one place where the source's bit width shows, the fuel an introduced
  batch brings, is computed modulo `2 ^ 64` as the source does.
* A panic (`assert!`, `expect`, an out-of-range index) is the failure of the monad `SpineM`, or
  `none` for the functions that do not log. The `FueledMergeReq`s a `SpineLog::Enabled` collects
  are the state of `SpineM`; `SpineLog::Disabled` is running with a log that is then dropped.
* Soft assertions (`soft_assert_eq_no_log!`) and `debug_assert!`s do not stop a release build and
  are not modelled; the `println!` on a large batch index is dropped.
-/

namespace Materialize.Persist

/-! ## Ids, descriptions and batches -/

/-- `SpineId(lo, hi)`: the range of insertion ids a spine batch covers. -/
structure SpineId where
  lo : Nat
  hi : Nat
deriving DecidableEq, Repr

/-- `SpineId::covers`. -/
def SpineId.covers (self other : SpineId) : Bool := self.lo ≤ other.lo && other.hi ≤ self.hi

/-- `Description<T>`: the lower and upper frontiers of a batch's times, and its since. -/
structure Description (A : Type) where
  lower : A
  upper : A
  since : A
deriving DecidableEq, Repr

/-- `HollowBatch<T>` (`state.rs`): a batch whose updates are stored in blobs, referenced by
`parts`. -/
structure HollowBatch (A P M : Type) where
  desc : Description A
  len : Nat
  parts : List P
  runSplits : List Nat
  runMeta : List M
deriving DecidableEq, Repr

variable {A P M : Type}

/-- `HollowBatch::empty`. -/
def HollowBatch.empty (desc : Description A) : HollowBatch A P M :=
  { desc, len := 0, parts := [], runSplits := [], runMeta := [] }

/-- `HollowBatch::is_empty`: no parts. -/
def HollowBatch.isEmpty (b : HollowBatch A P M) : Bool := b.parts.isEmpty

/-- `IdHollowBatch<T>`. -/
structure IdHollowBatch (A P M : Type) where
  id : SpineId
  batch : HollowBatch A P M
deriving DecidableEq, Repr

/-- `ActiveCompaction`. -/
structure ActiveCompaction where
  startMs : Nat
deriving DecidableEq, Repr

/-- `SpineBatch<T>`: one or more hollow batches the spine treats as one batch; `len` caches the
sum of their lens. -/
structure SpineBatch (A P M : Type) where
  id : SpineId
  desc : Description A
  parts : List (IdHollowBatch A P M)
  activeCompaction : Option ActiveCompaction
  len : Nat
deriving DecidableEq, Repr

/-- `SpineBatch::merged`: the spine batch of one hollow batch. -/
def SpineBatch.merged (batch : IdHollowBatch A P M) : SpineBatch A P M :=
  { id := batch.id, desc := batch.batch.desc, len := batch.batch.len, parts := [batch],
    activeCompaction := none }

/-- `SpineBatch::is_empty`: no updates. -/
def SpineBatch.isEmpty (b : SpineBatch A P M) : Bool := b.len == 0

/-- `SpineBatch::empty`. -/
def SpineBatch.empty (id : SpineId) (lower upper since : A) : SpineBatch A P M :=
  .merged ⟨id, .empty ⟨lower, upper, since⟩⟩

/-- `SpineBatch::is_compact`: at most one run over all parts. -/
def SpineBatch.isCompact (b : SpineBatch A P M) : Bool :=
  (b.parts.map fun p => p.batch.runMeta.length).sum ≤ 1

/-- `SpineBatch::is_merging`. -/
def SpineBatch.isMerging (b : SpineBatch A P M) : Bool := b.activeCompaction.isSome

/-- `FuelingMerge<T>`. -/
structure FuelingMerge (A : Type) where
  since : A
  remainingWork : Nat
deriving DecidableEq, Repr

/-- `IdFuelingMerge<T>`. -/
structure IdFuelingMerge (A : Type) where
  id : SpineId
  merge : FuelingMerge A
deriving DecidableEq, Repr

/-- `FueledMergeReq<T>`: a request to compact the inputs of a completed merge. -/
structure FueledMergeReq (A P M : Type) where
  id : SpineId
  desc : Description A
  inputs : List (IdHollowBatch A P M)
deriving DecidableEq, Repr

/-- Spine code that may panic and that logs the merge requests it produces. -/
abbrev SpineM (A P M : Type) := StateT (List (FueledMergeReq A P M)) Option

/-- `FuelingMerge::work`: spend fuel on the remaining work; a negative fuel buys nothing. -/
def FuelingMerge.work (self : FuelingMerge A) (fuel : Int) : FuelingMerge A × Int :=
  let available := fuel.toNat
  let used := min available self.remainingWork
  ({ self with remainingWork := self.remainingWork - used }, fuel - used)

section Merge
variable [LinearOrder A]

/-- `SpineBatch::begin_merge`: the merge of a run of batches, at the join of their sinces and of
the compaction frontier; `none` for no batches. -/
def SpineBatch.beginMerge (bs : List (SpineBatch A P M)) (compactionFrontier : Option A) :
    Option (IdFuelingMerge A) := do
  let first ← bs.head?
  let last ← bs.getLast?
  let since := bs.foldl (fun since b => since ⊔ b.desc.since) first.desc.since
  let since := match compactionFrontier with
    | some frontier => since ⊔ frontier
    | none => since
  some ⟨⟨first.id.lo, last.id.hi⟩, ⟨since, (bs.map SpineBatch.len).sum⟩⟩

end Merge

/-- `FuelingMerge::done`: the batch a merge of `bs` produces. Batches that are all empty give one
empty batch over their range; otherwise the parts are concatenated and a merge request is
logged. -/
def FuelingMerge.done (self : FuelingMerge A) (bs : List (SpineBatch A P M)) :
    SpineM A P M (Option (SpineBatch A P M)) := do
  let some first := bs.head? | return none
  let some last := bs.getLast? | return none
  let id : SpineId := ⟨first.id.lo, last.id.hi⟩
  unless id.lo < id.hi do failure
  let lower := first.desc.lower
  let upper := last.desc.upper
  let since := self.since
  if bs.all SpineBatch.isEmpty then
    return some (SpineBatch.empty id lower upper since)
  let desc : Description A := ⟨lower, upper, since⟩
  let len := (bs.map SpineBatch.len).sum
  let mergedParts := bs.flatMap SpineBatch.parts
  modify (· ++ [⟨id, desc, mergedParts⟩])
  return some { id, desc, len, parts := mergedParts, activeCompaction := none }

/-! ## Levels -/

/-- `BATCHES_PER_LEVEL`. -/
def batchesPerLevel : Nat := 2

/-- `MergeState<T>`: a level of the spine. Its batches are an `ArrayVec` of capacity
`BATCHES_PER_LEVEL`, so a level never holds more. -/
structure MergeState (A P M : Type) where
  batches : List (SpineBatch A P M)
  merge : Option (IdFuelingMerge A)
  batches_length_le : batches.length ≤ batchesPerLevel
deriving DecidableEq, Repr

/-- `MergeState::default`: a vacant level. -/
def MergeState.default : MergeState A P M := ⟨[], none, by simp [batchesPerLevel]⟩

/-- `MergeState::single`: a level of one batch (the push onto a vacant level cannot fail). -/
def MergeState.single (batch : SpineBatch A P M) : MergeState A P M :=
  ⟨[batch], none, by simp [batchesPerLevel]⟩

/-- `MergeState::id`: the range of ids the level's batches cover. -/
def MergeState.id (self : MergeState A P M) : Option SpineId := do
  let first ← self.batches.head?
  let last ← self.batches.getLast?
  some ⟨first.id.lo, last.id.hi⟩

/-- `MergeState::len`: the updates the level holds. -/
def MergeState.len (self : MergeState A P M) : Nat := (self.batches.map SpineBatch.len).sum

/-- `MergeState::is_empty`: no updates. -/
def MergeState.isEmpty (self : MergeState A P M) : Bool := self.batches.all SpineBatch.isEmpty

/-- `MergeState::is_vacant`: no batches. -/
def MergeState.isVacant (self : MergeState A P M) : Bool := self.batches.isEmpty

/-- `MergeState::is_single`. -/
def MergeState.isSingle (self : MergeState A P M) : Bool := self.batches.length == 1

/-- `MergeState::is_full`: as many batches as the level can hold. -/
def MergeState.isFull (self : MergeState A P M) : Bool := self.batches.length == batchesPerLevel

/-- `MergeState::try_push_batch`: append a batch that continues the level's last one, to a level
with no merge in progress and room for it. -/
def MergeState.tryPushBatch [DecidableEq A] (self : MergeState A P M) (batch : SpineBatch A P M) :
    Except String (MergeState A P M) := do
  if let some last := self.batches.getLast? then
    if last.id.hi ≠ batch.id.lo then
      throw "batch id does not chain with the previous id"
    if last.desc.upper ≠ batch.desc.lower then
      throw "batch lower does not match the previous upper"
  if self.merge.isSome then
    throw "attempted to insert batch into incomplete merge!"
  if h : self.batches.length < batchesPerLevel then
    return { self with batches := self.batches ++ [batch],
                       batches_length_le := by simp only [List.length_append]; simp at h ⊢; omega }
  else
    throw "attempted to insert batch into full layer!"

/-- `MergeState::push_batch`: `try_push_batch`, panicking on its error. -/
def MergeState.pushBatch [DecidableEq A] (self : MergeState A P M) (batch : SpineBatch A P M) :
    Option (MergeState A P M) :=
  match self.tryPushBatch batch with
  | .ok m => some m
  | .error _ => none

/-- `MergeState::is_complete`: a merge with no work left. -/
def MergeState.isComplete (self : MergeState A P M) : Bool :=
  match self.merge with
  | some ⟨_, merge⟩ => merge.remainingWork == 0
  | none => false

/-- `MergeState::work`: spend fuel on the level's merge, if any. -/
def MergeState.work (self : MergeState A P M) (fuel : Int) : MergeState A P M :=
  match self.merge with
  | some ⟨id, merge⟩ => { self with merge := some ⟨id, (merge.work fuel).1⟩ }
  | none => self

/-- `MergeState::complete`: the batch the level amounts to, taking the level's contents
(`mem::take` leaves it vacant). A full level is merged with its merge, or with one begun over
`self.batches` — which, the level having been taken, are those of a vacant level. -/
def MergeState.complete [LinearOrder A] (self : MergeState A P M) :
    SpineM A P M (Option (SpineBatch A P M)) :=
  let this := self
  if this.batches.length ≤ 1 then
    pure this.batches.getLast?
  else
    match this.merge.or (SpineBatch.beginMerge (MergeState.default : MergeState A P M).batches none) with
    | some idMerge => idMerge.merge.done this.batches
    | none => pure none

/-! ## The spine -/

/-- `Spine<T>`. Level `0` is the first of `merging`; older batches sit at higher levels. -/
structure Spine (A P M : Type) where
  effort : Nat
  nextId : Nat
  since : A
  upper : A
  merging : List (MergeState A P M)
deriving DecidableEq, Repr

/-- `Spine::spine_batches`: all batches, oldest (highest level) first. -/
def Spine.spineBatches (s : Spine A P M) : List (SpineBatch A P M) :=
  s.merging.reverse.flatMap MergeState.batches

/-- `Spine::new`. -/
def Spine.new [LE A] [OrderBot A] : Spine A P M :=
  { effort := 1, nextId := 0, since := ⊥, upper := ⊥, merging := [] }

/-- `Spine::next_id`: a fresh id, one past the last. -/
def Spine.takeNextId (s : Spine A P M) : SpineId × Spine A P M :=
  (⟨s.nextId, s.nextId + 1⟩, { s with nextId := s.nextId + 1 })

/-- Replace level `i`. -/
def Spine.setLevel (s : Spine A P M) (i : Nat) (m : MergeState A P M) : Spine A P M :=
  { s with merging := s.merging.set i m }

/-- `while self.merging.len() <= index { self.merging.push(MergeState::default()) }`. -/
def Spine.ensureLevels (s : Spine A P M) (index : Nat) : Spine A P M :=
  { s with merging := s.merging ++ List.replicate (index + 1 - s.merging.length) .default }

/-- The level a batch of `len` updates belongs to:
`len.next_power_of_two().trailing_zeros()`, which for a power of two is its base-2 logarithm. -/
def levelFor (len : Nat) : Nat := (Nat.nextPowerOfTwo len).log2

/-- `isize::MAX`. -/
def isizeMax : Nat := 2 ^ 63 - 1

/-- The fuel `introduce_batch` spends for a batch at `batchIndex`: `8 << batch_index` as a
`usize` (bits shifted out are lost; no shift of `64` or more), times the effort, saturated at
`isize::MAX`. -/
def introduceFuel (batchIndex effort : Nat) : Int :=
  if batchIndex < 64 then min (8 * 2 ^ batchIndex % 2 ^ 64 * effort) isizeMax else isizeMax

/-- Up to index `60` nothing is shifted out of `8 << batch_index`, and the fuel is the product
saturated at `isize::MAX`. -/
theorem introduceFuel_eq_min {batchIndex : Nat} (h : batchIndex ≤ 60) (effort : Nat) :
    introduceFuel batchIndex effort = min (8 * 2 ^ batchIndex * (effort : Int)) isizeMax := by
  have hpow : (2 : Int) ^ batchIndex ≤ 2 ^ 60 := pow_le_pow_right₀ (by decide) h
  have hlt : (8 : Int) * 2 ^ batchIndex < 2 ^ 64 := by
    calc (8 : Int) * 2 ^ batchIndex ≤ 8 * 2 ^ 60 := by omega
      _ < 2 ^ 64 := by decide
  unfold introduceFuel
  rw [if_pos (by omega), Int.emod_eq_of_lt (by positivity) hlt]

/-- From index `64` on `checked_shl` refuses the shift and the fuel saturates. -/
theorem introduceFuel_eq_max {batchIndex : Nat} (h : 64 ≤ batchIndex) {effort : Nat}
    (he : 1 ≤ effort) :
    introduceFuel batchIndex effort = min (8 * 2 ^ batchIndex * (effort : Int)) isizeMax := by
  have hpow : (2 : Int) ^ 64 ≤ 2 ^ batchIndex := pow_le_pow_right₀ (by decide) h
  have hbig : (isizeMax : Int) ≤ 8 * 2 ^ batchIndex * effort := by
    have : (isizeMax : Int) < 2 ^ 64 := by decide
    have : (1 : Int) ≤ effort := by exact_mod_cast he
    nlinarith
  unfold introduceFuel
  rw [if_neg (by omega), min_eq_right hbig]

/-- From index `61` to `63` the one set bit of `8 << batch_index` is shifted out: the shift is
accepted and the fuel is `0`, whatever the effort. -/
theorem introduceFuel_eq_zero {batchIndex : Nat} (h₁ : 61 ≤ batchIndex) (h₂ : batchIndex < 64)
    (effort : Nat) : introduceFuel batchIndex effort = 0 := by
  have hshift : (8 : Int) * 2 ^ batchIndex = 2 ^ 64 * 2 ^ (batchIndex - 61) := by
    rw [show (8 : Int) = 2 ^ 3 by decide, ← Int.pow_add, ← Int.pow_add]
    congr 1
    omega
  unfold introduceFuel
  rw [if_pos h₂, hshift, Int.mul_emod_right, Int.zero_mul]
  decide

/-- A batch of `2 ^ 60 + 1` updates, within the `usize::MAX >> 3` that `unflatten` lets through,
belongs to level `61`, and the merges in progress are given no fuel when it is introduced. -/
theorem introduceFuel_levelFor_wraps (effort : Nat) :
    introduceFuel (levelFor (2 ^ 60 + 1)) effort = 0 := by
  have hlevel : levelFor (2 ^ 60 + 1) = 61 := by decide +kernel
  rw [hlevel]
  exact introduceFuel_eq_zero (by decide) (by decide) effort

section Ops
variable [LinearOrder A]

/-- `Spine::insert_at`: push a batch onto level `index`, beginning the level's merge when that
fills it. Panics if the level cannot take the batch. -/
def Spine.insertAt (s : Spine A P M) (batch : SpineBatch A P M) (index : Nat) :
    Option (Spine A P M) := do
  let s := s.ensureLevels index
  let merging ← s.merging[index]?
  let merging ← merging.pushBatch batch
  let merging := if merging.isFull then
      { merging with merge := SpineBatch.beginMerge merging.batches (some s.since) }
    else merging
  return s.setLevel index merging

/-- `Spine::complete_at`: complete level `index`, leaving it vacant. -/
def Spine.completeAt (s : Spine A P M) (index : Nat) :
    SpineM A P M (Spine A P M × Option (SpineBatch A P M)) := do
  let some m := s.merging[index]? | failure
  let merged ← m.complete
  return (s.setLevel index .default, merged)

/-- One pass of `Spine::apply_fuel`'s loop: fuel level `index`, and move a merge it completes
into the next level. -/
def Spine.applyFuelAt (fuel : Int) (s : Spine A P M) (index : Nat) : SpineM A P M (Spine A P M) := do
  let some m := s.merging[index]? | failure
  let s := s.setLevel index (m.work fuel)
  if (m.work fuel).isComplete then
    let (s, complete) ← s.completeAt index
    let some complete := complete | failure
    StateT.lift (s.insertAt complete (index + 1))
  else
    pure s

/-- `Spine::apply_fuel`: the same fuel for every level that exists when it starts. -/
def Spine.applyFuel (s : Spine A P M) (fuel : Int) : SpineM A P M (Spine A P M) :=
  (List.range s.merging.length).foldlM (Spine.applyFuelAt fuel) s

/-- `if let Some(merged) = merged { self.insert_at(merged, index) }`. -/
def Spine.insertMerged (s : Spine A P M) (merged : Option (SpineBatch A P M)) (index : Nat) :
    Option (Spine A P M) :=
  match merged with
  | some merged => s.insertAt merged index
  | none => some s

/-- One pass of `Spine::roll_up`'s loop: put what the levels below `i` merged into level `i`, then
complete level `i`. -/
def Spine.rollUpAt (acc : Spine A P M × Option (SpineBatch A P M)) (i : Nat) :
    SpineM A P M (Spine A P M × Option (SpineBatch A P M)) := do
  let s ← StateT.lift (acc.1.insertMerged acc.2 i)
  s.completeAt i

/-- `Spine::roll_up`: merge every batch below level `index` into it, and if that fills it, merge it
into the next level. -/
def Spine.rollUp (s : Spine A P M) (index : Nat) : SpineM A P M (Spine A P M) := do
  let s := s.ensureLevels index
  if (s.merging.take index).any (fun m => !m.isVacant) then
    let (s, merged) ← (List.range index).foldlM Spine.rollUpAt (s, none)
    let s ← StateT.lift (s.insertMerged merged index)
    let some m := s.merging[index]? | failure
    if m.isFull then
      let (s, merged) ← s.completeAt index
      let some merged := merged | failure
      StateT.lift (s.insertAt merged (index + 1))
    else
      pure s
  else
    pure s

/-- The loop of `Spine::tidy_layers`: while the top level belongs lower than it sits, absorb the
vacant level under it, or stop at a level with batches, first merging that level's single batch
into the top one when the levels below hold few enough virtual records. Each pass removes a level
or stops, so `merging.length` passes suffice. -/
def Spine.tidyLoop (appropriateLevel : Nat) : Nat → Spine A P M → Option (Spine A P M)
  | 0, s => some s
  | fuel + 1, s =>
    let length := s.merging.length
    if appropriateLevel < length - 1 then
      match s.merging[length - 2]? with
      | none => none
      | some current =>
        if current.isVacant then
          tidyLoop appropriateLevel fuel { s with merging := s.merging.eraseIdx (length - 2) }
        else if !current.isFull then
          let smaller := ((s.merging.take (length - 2)).mapIdx
            fun index batch => batch.batches.length <<< index).sum
          if smaller ≤ (1 <<< length) / 8 then
            let s := { s with merging := s.merging.eraseIdx (length - 2) }
            if current.batches.length ≠ 1 then none
            else current.batches.foldlM (fun s batch => s.insertAt batch (length - 2)) s
          else some s
        else some s
    else some s

/-- `Spine::tidy_layers`: draw a single top level down to the level its size calls for. -/
def Spine.tidyLayers (s : Spine A P M) : Option (Spine A P M) :=
  match s.merging.getLast? with
  | none => some s
  | some top => if top.isSingle then s.tidyLoop (levelFor top.len) s.merging.length else some s

/-- `Spine::introduce_batch`: fuel the merges, roll up to `batchIndex`, insert there and tidy. -/
def Spine.introduceBatch (s : Spine A P M) (batch : SpineBatch A P M) (batchIndex : Nat) :
    SpineM A P M (Spine A P M) := do
  let s ← s.applyFuel (introduceFuel batchIndex s.effort)
  let s ← s.rollUp batchIndex
  let s ← StateT.lift (s.insertAt batch batchIndex)
  StateT.lift s.tidyLayers

/-- The level an empty batch fuses into: the first level with batches, when it holds a single
empty batch. -/
def Spine.fusePosition (s : Spine A P M) : Option Nat := do
  let position ← s.merging.findIdx? (fun m => !m.isVacant)
  let m ← s.merging[position]?
  if m.isSingle && m.isEmpty then some position else none

/-- `Spine::insert`: add a batch that continues the spine's upper. An empty batch after a single
empty batch is fused with it in place; any other batch is introduced at the level its len calls
for. -/
def Spine.insert (s : Spine A P M) (batch : HollowBatch A P M) : SpineM A P M (Spine A P M) := do
  if batch.desc.lower = batch.desc.upper then failure
  if batch.desc.lower ≠ s.upper then failure
  let (id, s) := s.takeNextId
  let batch := SpineBatch.merged ⟨id, batch⟩
  let s := { s with upper := batch.desc.upper }
  match (if batch.isEmpty then s.fusePosition else none) with
  | some position =>
    let s ← StateT.lift (s.insertAt batch position)
    let (s, merged) ← s.completeAt position
    match merged with
    | some merged => pure (s.setLevel position (.single merged))
    | none => pure s
  | none => s.introduceBatch batch (levelFor batch.len)

/-- `Spine::reduced`: fewer than two runs in all. -/
def Spine.reduced (s : Spine A P M) : Bool :=
  (s.spineBatches.map fun b => (b.parts.map fun p => p.batch.runMeta.length).sum).sum < 2

/-- `Spine::exert`: tidy, then fuel the merges in progress, or if there are none introduce an
empty batch at the level of the effort. The flag says whether anything was done. -/
def Spine.exert (s : Spine A P M) (effort : Nat) : SpineM A P M (Spine A P M × Bool) := do
  let s ← StateT.lift s.tidyLayers
  if s.reduced then return (s, false)
  if s.merging.any (fun b => b.merge.isSome) then
    let s ← s.applyFuel (min effort isizeMax)
    return (s, true)
  else
    let level := levelFor effort
    let (id, s) := s.takeNextId
    let s ← s.introduceBatch (SpineBatch.empty id s.upper s.upper s.since) level
    return (s, true)

/-- The check `Spine::validate` makes of one batch, given the id and the upper the batches before
it reached: its id and lower continue them and its since is at most the spine's. -/
def Spine.validateBatch (since : A) (acc : SpineId × A) (batch : SpineBatch A P M) :
    Except String (SpineId × A) := do
  if batch.id.lo ≠ acc.1.hi then
    throw "batch id does not match the previous id"
  if batch.desc.lower ≠ acc.2 then
    throw "batch lower does not match the previous upper"
  if ¬ batch.desc.since ≤ since then
    throw "since of batch past the spine since"
  pure (batch.id, batch.desc.upper)

/-- The check `Spine::validate` makes of one level: a merge exactly when it is full, covering the
level's ids; then the check of each of its batches. -/
def Spine.validateLevel (since : A) (acc : SpineId × A) (x : MergeState A P M) :
    Except String (SpineId × A) := do
  if x.isFull != x.merge.isSome then
    throw "all (and only) full batches should have fueling merges"
  if let some m := x.merge then
    if !x.isFull then
      throw "merge should only exist for full batches"
    if x.id ≠ some m.id then
      throw "merge id should match the range of the batch ids"
  x.batches.foldlM (Spine.validateBatch since) acc

/-- `Spine::validate`, with the error texts' leading words (the source appends the values it
compared). From the oldest level down, each level and its batches are checked, starting from
`SpineId(0, 0)` and `⊥`; the last id and upper reached are the spine's. -/
def Spine.validate [OrderBot A] (s : Spine A P M) : Except String Unit := do
  let (id, frontier) ← s.merging.reverse.foldlM (Spine.validateLevel s.since)
    ((⟨0, 0⟩ : SpineId), (⊥ : A))
  if s.nextId ≠ id.hi then
    throw "spine next_id does not match the last batch's id"
  if s.upper ≠ frontier then
    throw "spine upper does not match the last batch's upper"

end Ops

end Materialize.Persist
