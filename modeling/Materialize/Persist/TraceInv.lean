import Mathlib.Order.Nat
import Materialize.Lib.Run
import Materialize.Lib.Maximal
import Materialize.Persist.SpineInv
import Materialize.Persist.MergeRes

/-!
# The trace's invariant over whole runs

Every operation on a `Trace` keeps the spine invariant `Spine.InvAt` (`SpineInv.lean`) with the
batches linking up to the spine's next id and upper (`Trace.InvFor`). An insertion adds its batch
after the ones already there (`Spine.Extends`), maintenance only regroups them, and a merge result
(checked or not) or a tombstone replaces one spine batch by one over the same ids and frontiers
(`SpineBatch.Replaces`). Over every run from `Trace::default` this gives:

* `Trace.validate` succeeds on every trace the operations reach when their callers keep the
  conditions they promise (`Trace.Op.Allowed`): pushed batches continue the upper and are not
  compacted past the trace's since, the since only advances, and tombstones are written at a since
  the trace has reached;
* on every trace any sequence of the operations reaches, pushing a batch adds exactly its
  updates after the others, exerting and claiming a compaction leave the updates as they were,
  and a full level always completes to a batch.
-/

namespace Materialize.Persist

open Chain Replace

variable {A P M : Type}

/-! ## Replacing one spine batch -/

section Replaces
variable (ok : A → Prop)

/-- `b'` may take the place of `b` in the spine: the same ids and frontiers, well formed when `b`
is, and with a since that has `ok` when `b`'s has. -/
structure SpineBatch.Replaces (b b' : SpineBatch A P M) : Prop where
  id_eq : b'.id = b.id
  lower_eq : b'.desc.lower = b.desc.lower
  upper_eq : b'.desc.upper = b.desc.upper
  wf : b.Wf → b'.Wf
  since_ok : ok b.desc.since → ok b'.desc.since

variable {ok}

theorem SpineBatch.Replaces.refl (b : SpineBatch A P M) : SpineBatch.Replaces ok b b :=
  ⟨rfl, rfl, rfl, fun h => h, fun h => h⟩

/-- The range of ids a level covers, read off its batches' ids. -/
theorem MergeState.id_eq_map (m : MergeState A P M) :
    m.id = ((m.batches.map SpineBatch.id).head?).bind fun first =>
      ((m.batches.map SpineBatch.id).getLast?).map fun last => ⟨first.lo, last.hi⟩ := by
  simp only [MergeState.id, List.head?_map, List.getLast?_map]
  cases m.batches.head? <;> cases m.batches.getLast? <;> rfl

/-- A level whose batches have the ids of another's has its range of ids. -/
theorem MergeState.id_eq_of_map {m m' : MergeState A P M}
    (h : m'.batches.map SpineBatch.id = m.batches.map SpineBatch.id) : m'.id = m.id := by
  rw [MergeState.id_eq_map, MergeState.id_eq_map, h]

/-- A well-formed level with one batch replaced by one over the same ids, and the same merge, is
well formed. -/
theorem MergeState.Wf.replace {m m' : MergeState A P M} (hm : m.Wf ok)
    {l₁ l₂ : List (SpineBatch A P M)} {b b' : SpineBatch A P M} (hb : m.batches = l₁ ++ b :: l₂)
    (hb' : m'.batches = l₁ ++ b' :: l₂) (hmerge : m'.merge = m.merge) (hid : b'.id = b.id) :
    m'.Wf ok := by
  have hmap : m'.batches.map SpineBatch.id = m.batches.map SpineBatch.id := by
    simp [hb, hb', hid]
  have hfull : m'.isFull = m.isFull := by simp [MergeState.isFull, hb, hb']
  refine ⟨by rw [hmerge, hfull]; exact hm.merge_isSome, fun im h => ?_, fun im h => ?_⟩
  · rw [MergeState.id_eq_of_map hmap]
    exact hm.merge_id im (hmerge ▸ h)
  · exact hm.merge_since im (hmerge ▸ h)

theorem MergeState.replaceLast?_eq_some {ρ : Type}
    {f : SpineBatch A P M → Option (SpineBatch A P M × ρ)} {m m' : MergeState A P M} {r : ρ}
    (h : m.replaceLast? f = some (m', r)) :
    ∃ l₁ b l₂ b', m.batches = l₁ ++ b :: l₂ ∧ f b = some (b', r) ∧
      m'.batches = l₁ ++ b' :: l₂ ∧ m'.merge = m.merge := by
  unfold MergeState.replaceLast? at h
  split at h
  · rename_i bs r' hrep
    simp only [Option.some.injEq, Prod.mk.injEq] at h
    obtain ⟨rfl, rfl⟩ := h
    obtain ⟨l₁, b, l₂, b', hl, hb, rfl⟩ := Replace.replaceLast?_eq_some hrep
    exact ⟨l₁, b, l₂, b', hl, hb, rfl, rfl⟩
  · cases h

section ReplaceNewest
variable {ρ : Type} {f : SpineBatch A P M → Option (SpineBatch A P M × ρ)} {s s' : Spine A P M}
  {r : ρ}

theorem Spine.replaceNewest_eq_some (h : s.replaceNewest f = some (s', r)) :
    ∃ L₁ m L₂ m', s.merging = L₁ ++ m :: L₂ ∧ m.replaceLast? f = some (m', r) ∧
      s' = { s with merging := L₁ ++ m' :: L₂ } := by
  unfold Spine.replaceNewest at h
  obtain ⟨⟨merging, r'⟩, hrep, h'⟩ := Option.map_eq_some_iff.1 h
  simp only [Prod.mk.injEq] at h'
  obtain ⟨rfl, rfl⟩ := h'
  obtain ⟨L₁, m, L₂, m', hl, hm, rfl⟩ := replaceFirst?_eq_some hrep
  exact ⟨L₁, m, L₂, m', hl, hm, rfl⟩

/-- The search replaced one batch, in place, and changed nothing else of the flat list. -/
theorem Spine.replaceNewest_spineBatches (h : s.replaceNewest f = some (s', r)) :
    ∃ pre b post b', s.spineBatches = pre ++ b :: post ∧ f b = some (b', r) ∧
      s'.spineBatches = pre ++ b' :: post := by
  obtain ⟨L₁, m, L₂, m', hs, hm, rfl⟩ := Spine.replaceNewest_eq_some h
  obtain ⟨l₁, b, l₂, b', hb, hfb, hb', -⟩ := MergeState.replaceLast?_eq_some hm
  refine ⟨levelsBatches L₂ ++ l₁, b, l₂ ++ levelsBatches L₁, b', ?_, hfb, ?_⟩
  · simp [Spine.spineBatches_eq, hs, hb]
  · simp [Spine.spineBatches_eq, hb']

theorem Spine.replaceNewest_fields (h : s.replaceNewest f = some (s', r)) :
    s'.nextId = s.nextId ∧ s'.upper = s.upper ∧ s'.since = s.since ∧ s'.effort = s.effort := by
  obtain ⟨L₁, m, L₂, m', -, -, rfl⟩ := Spine.replaceNewest_eq_some h
  exact ⟨rfl, rfl, rfl, rfl⟩

theorem Spine.replaceNewest_levels_wf (h : s.replaceNewest f = some (s', r))
    (hlv : ∀ m ∈ s.merging, m.Wf ok) (hid : ∀ b b' r, f b = some (b', r) → b'.id = b.id) :
    ∀ m ∈ s'.merging, m.Wf ok := by
  obtain ⟨L₁, m, L₂, m', hs, hm, rfl⟩ := Spine.replaceNewest_eq_some h
  obtain ⟨l₁, b, l₂, b', hb, hfb, hb', hmerge⟩ := MergeState.replaceLast?_eq_some hm
  intro x hx
  simp only [List.mem_append, List.mem_cons] at hx
  rcases hx with hx | rfl | hx
  · exact hlv x (by simp [hs, hx])
  · exact (hlv m (by simp [hs])).replace hb hb' hmerge (hid b b' r hfb)
  · exact hlv x (by simp [hs, hx])

variable [LinearOrder A] [OrderBot A] {idEnd : Nat} {upperEnd : A}

/-- Replacing the newest batch a search matches by one that may take its place keeps the
invariant. -/
theorem Spine.InvAt.replaceNewest (hinv : s.InvAt ok idEnd upperEnd)
    (h : s.replaceNewest f = some (s', r))
    (hf : ∀ b b' r, f b = some (b', r) → SpineBatch.Replaces ok b b') :
    s'.InvAt ok idEnd upperEnd := by
  obtain ⟨pre, b, post, b', hF, hfb, hF'⟩ := Spine.replaceNewest_spineBatches h
  have hrep := hf b b' r hfb
  have hb : b.Wf ∧ ok b.desc.since := hinv.batches b (by simp [hF])
  refine ⟨Spine.replaceNewest_levels_wf h hinv.levels fun b b' r hfb => (hf b b' r hfb).id_eq,
    ?_, ?_, ?_, (Spine.replaceNewest_fields h).2.2.1 ▸ hinv.since_ok⟩
  · rw [hF']
    exact (hF ▸ hinv.ids).replace_one (by rw [hrep.id_eq]) (by rw [hrep.id_eq])
  · rw [hF']
    exact (hF ▸ hinv.frontiers).replace_one hrep.lower_eq hrep.upper_eq
  · rw [hF']
    intro x hx
    simp only [List.mem_append, List.mem_cons] at hx
    rcases hx with hx | rfl | hx
    · exact hinv.batches x (by simp [hF, hx])
    · exact ⟨hrep.wf hb.1, hrep.since_ok hb.2⟩
    · exact hinv.batches x (by simp [hF, hx])

end ReplaceNewest

end Replaces

/-! ## What each replacement does to a batch -/

section ReplaceSpecs
variable {ok : A → Prop}

/-- A subset replacement keeps the batch's id and description, and its len is its parts' total. -/
theorem SpineBatch.performSubsetReplacement_replaces (b : SpineBatch A P M) (res : HollowBatch A P M)
    (spineId : SpineId) (start stop : Nat) (nac : Option ActiveCompaction) :
    SpineBatch.Replaces ok b (b.performSubsetReplacement res spineId start stop nac).1 := by
  unfold SpineBatch.performSubsetReplacement
  dsimp only
  split
  · exact .refl b
  · exact ⟨rfl, rfl, rfl, fun hw => ⟨hw.id_lt, rfl⟩, fun h => h⟩

theorem matchedStep_eq_some {step : SpineBatch A P M → SpineBatch A P M × ApplyMergeResult}
    {b b' : SpineBatch A P M} {r : ApplyMergeResult} (h : matchedStep step b = some (b', r)) :
    b' = (step b).1 := by
  unfold matchedStep at h
  split at h
  rename_i b₀ result hstep
  split at h
  · simp only [Option.some.injEq, Prod.mk.injEq] at h
    rw [hstep]
    exact h.1.symm
  · cases h

/-- The batch a checked replacement leaves is `b` itself, or `b` with a run of its parts
replaced. -/
def SpineBatch.KeptOrSubset (b b' : SpineBatch A P M) : Prop :=
  b' = b ∨ ∃ x id start stop nac, b' = (b.performSubsetReplacement x id start stop nac).1

theorem SpineBatch.KeptOrSubset.replaces {b b' : SpineBatch A P M} (h : b.KeptOrSubset b') :
    SpineBatch.Replaces ok b b' := by
  rcases h with rfl | ⟨x, id, start, stop, nac, rfl⟩
  · exact .refl _
  · exact SpineBatch.performSubsetReplacement_replaces b x id start stop nac

variable [LinearOrder A]

/-- What a replacement by a result with output `out` leaves of a batch: the batch, or the batch
with a run of its parts replaced, or, where the output spans the batch at a since no later and
with no more updates, the output as a spine batch of its own. -/
def SpineBatch.ReplacedBy (out : HollowBatch A P M) (b b' : SpineBatch A P M) : Prop :=
  b.KeptOrSubset b' ∨ b' = SpineBatch.merged ⟨b.id, out⟩ ∧
    (out.desc.lower = b.desc.lower ∧ out.desc.upper = b.desc.upper) ∧
    out.desc.since ≤ b.desc.since ∧ out.len ≤ b.len

/-- What a replacement leaves may take the batch's place, for sinces with a property that holds
below any since that has it. -/
theorem SpineBatch.ReplacedBy.replaces (hdown : ∀ a a', a ≤ a' → ok a' → ok a)
    {out : HollowBatch A P M} {b b' : SpineBatch A P M} (h : b.ReplacedBy out b') :
    SpineBatch.Replaces ok b b' := by
  rcases h with hkept | ⟨rfl, hexact, hsince, -⟩
  · exact hkept.replaces
  · exact ⟨rfl, hexact.1, hexact.2, fun hw => SpineBatch.merged_wf hw.id_lt, hdown _ _ hsince⟩

theorem SpineBatch.maybeReplaceUnchecked_replacedBy (b : SpineBatch A P M)
    (res : FueledMergeRes A P M) : b.ReplacedBy res.output (b.maybeReplaceUnchecked res).1 := by
  unfold SpineBatch.maybeReplaceUnchecked
  split
  · exact .inl (.inl rfl)
  · rename_i hsince
    split
    · rename_i hexact
      split
      · exact .inl (.inl rfl)
      · rename_i hlen
        exact .inr ⟨rfl, hexact, not_not.1 hsince, Nat.le_of_not_lt hlen⟩
    · split
      · exact .inl (.inr ⟨_, _, _, _, _, rfl⟩)
      · exact .inl (.inl rfl)

/-- The batch a merge result leaves in place of `b` may take its place, for sinces with a
property that holds below any since that has it. -/
theorem SpineBatch.maybeReplaceUnchecked_replaces (hdown : ∀ a a', a ≤ a' → ok a' → ok a)
    (b : SpineBatch A P M) (res : FueledMergeRes A P M) :
    SpineBatch.Replaces ok b (b.maybeReplaceUnchecked res).1 :=
  (b.maybeReplaceUnchecked_replacedBy res).replaces hdown

/-- The batch a tombstone leaves in place of `b` may take its place, when the tombstone's since
has the property. -/
theorem SpineBatch.maybeReplaceWithTombstone_replaces {desc : Description A} (hdesc : ok desc.since)
    (b : SpineBatch A P M) : SpineBatch.Replaces ok b (b.maybeReplaceWithTombstone desc).1 := by
  unfold SpineBatch.maybeReplaceWithTombstone
  dsimp only
  split
  · rename_i hexact
    exact ⟨rfl, hexact.1, hexact.2, fun hw => SpineBatch.merged_wf hw.id_lt, fun _ => hdesc⟩
  · split
    · exact SpineBatch.performSubsetReplacement_replaces b _ _ _ _ _
    · exact .refl b

end ReplaceSpecs

section CheckedSpecs
variable {D : Type} [AddMonoid D] [DecidableEq D] {f : RunFields P M D} {ok : A → Prop}

theorem SpineBatch.handleIdRangeReplacement_kept {b b' : SpineBatch A P M}
    {res : FueledMergeRes A P M} {id : SpineId} {newDiffsSum : Option D} {r : ApplyMergeResult}
    (h : b.handleIdRangeReplacement f res id newDiffsSum = some (b', r)) : b.KeptOrSubset b' := by
  unfold SpineBatch.handleIdRangeReplacement at h
  dsimp only at h
  split at h
  · obtain ⟨rfl, -⟩ := Prod.mk.inj (Option.some.inj h)
    exact .inl rfl
  · obtain ⟨covered, -, h⟩ := Option.bind_eq_some_iff.1 h
    split at h
    · obtain ⟨rfl, -⟩ := Prod.mk.inj (Option.some.inj h)
      exact .inl rfl
    · split at h
      · obtain ⟨replaced, -, h⟩ := Option.bind_eq_some_iff.1 h
        obtain ⟨⟨⟩, -, h⟩ := Option.map_eq_some_iff.1 h
        exact .inr ⟨_, _, _, _, _, (congrArg Prod.fst h).symm⟩
      · obtain ⟨rfl, -⟩ := Prod.mk.inj (Option.some.inj h)
        exact .inl rfl

variable [LinearOrder A]

theorem SpineBatch.handlePartialBatchReplacement_kept {b b' : SpineBatch A P M}
    {res : FueledMergeRes A P M} {id : SpineId} {runs : List RunId} {newDiffsSum : Option D}
    {r : ApplyMergeResult} (h : b.handlePartialBatchReplacement f res id runs newDiffsSum = some (b', r)) :
    b.KeptOrSubset b' := by
  unfold SpineBatch.handlePartialBatchReplacement at h
  dsimp only at h
  split at h
  · obtain ⟨rfl, -⟩ := Prod.mk.inj (Option.some.inj h)
    exact .inl rfl
  · split at h
    · obtain ⟨rfl, -⟩ := Prod.mk.inj (Option.some.inj h)
      exact .inl rfl
    · split at h
      · cases h
      · split at h
        · obtain ⟨rfl, -⟩ := Prod.mk.inj (Option.some.inj h)
          exact .inl rfl
        · obtain ⟨replaced, -, h⟩ := Option.bind_eq_some_iff.1 h
          split at h
          · obtain ⟨old, -, h⟩ := Option.bind_eq_some_iff.1 h
            obtain ⟨⟨⟩, -, h⟩ := Option.bind_eq_some_iff.1 h
            obtain ⟨⟨⟩, -, h⟩ := Option.map_eq_some_iff.1 h
            exact .inr ⟨_, _, _, _, _, (congrArg Prod.fst h).symm⟩
          · obtain ⟨rfl, -⟩ := Prod.mk.inj (Option.some.inj h)
            exact .inl rfl

theorem SpineBatch.maybeReplaceCheckedClassic_replacedBy {b b' : SpineBatch A P M}
    {res : FueledMergeRes A P M} {r : ApplyMergeResult}
    (h : b.maybeReplaceCheckedClassic f res = some (b', r)) : b.ReplacedBy res.output b' := by
  unfold SpineBatch.maybeReplaceCheckedClassic at h
  dsimp only at h
  split at h
  · obtain ⟨rfl, -⟩ := Prod.mk.inj (Option.some.inj h)
    exact .inl (.inl rfl)
  · rename_i hsince
    split at h
    · rename_i hexact
      obtain ⟨⟨⟩, -, h⟩ := Option.map_eq_some_iff.1 h
      split at h
      · obtain ⟨rfl, -⟩ := Prod.mk.inj h
        exact .inl (.inl rfl)
      · rename_i hlen
        obtain ⟨rfl, -⟩ := Prod.mk.inj h
        exact .inr ⟨rfl, hexact, not_not.1 hsince, Nat.le_of_not_lt hlen⟩
    · split at h
      · obtain ⟨replaced, -, h⟩ := Option.bind_eq_some_iff.1 h
        obtain ⟨⟨⟩, -, h⟩ := Option.map_eq_some_iff.1 h
        exact .inl (.inr ⟨_, _, _, _, _, (congrArg Prod.fst h).symm⟩)
      · obtain ⟨rfl, -⟩ := Prod.mk.inj (Option.some.inj h)
        exact .inl (.inl rfl)

/-- What a checked merge result leaves in place of `b`, where it does not panic, is what the
replacement `res.input` calls for left, with no more parts than `b` had. -/
theorem SpineBatch.maybeReplaceChecked_replacedBy {b b' : SpineBatch A P M}
    {res : FueledMergeRes A P M} {r : ApplyMergeResult}
    (h : b.maybeReplaceChecked f res = some (b', r)) :
    b.ReplacedBy res.output b' ∧ b'.parts.length ≤ b.parts.length := by
  unfold SpineBatch.maybeReplaceChecked at h
  dsimp only at h
  split at h
  · obtain ⟨rfl, -⟩ := Prod.mk.inj (Option.some.inj h)
    exact ⟨.inl (.inl rfl), le_rfl⟩
  · obtain ⟨⟨b₁, r₁⟩, h₁, h⟩ := Option.bind_eq_some_iff.1 h
    split at h
    · rename_i hparts
      obtain ⟨rfl, -⟩ := Prod.mk.inj (Option.some.inj h)
      refine ⟨?_, hparts⟩
      -- the replacement `res.input` calls for
      split at h₁
      · exact .inl (SpineBatch.handleIdRangeReplacement_kept h₁)
      · exact .inl (SpineBatch.handlePartialBatchReplacement_kept h₁)
      · exact SpineBatch.maybeReplaceCheckedClassic_replacedBy h₁
    · cases h

/-- The batch a checked merge result leaves in place of `b` may take its place, for sinces with a
property that holds below any since that has it. -/
theorem SpineBatch.maybeReplaceChecked_replaces (hdown : ∀ a a', a ≤ a' → ok a' → ok a)
    {b b' : SpineBatch A P M} {res : FueledMergeRes A P M} {r : ApplyMergeResult}
    (h : b.maybeReplaceChecked f res = some (b', r)) : SpineBatch.Replaces ok b b' :=
  (SpineBatch.maybeReplaceChecked_replacedBy h).1.replaces hdown

end CheckedSpecs

/-! ## The merge requests a trace returns -/

section MergeReqs
variable [DecidableEq A]

theorem FueledMergeReq.covers_refl (r : FueledMergeReq A P M) : r.covers r := by
  simp [FueledMergeReq.covers, SpineId.covers]

theorem FueledMergeReq.covers_trans (r₀ r₁ r₂ : FueledMergeReq A P M) (h₀₁ : r₀.covers r₁)
    (h₁₂ : r₁.covers r₂) : r₀.covers r₂ := by
  simp only [FueledMergeReq.covers, SpineId.covers, Bool.and_eq_true, decide_eq_true_eq] at *
  obtain ⟨⟨hlo₀₁, hhi₀₁⟩, hs₀₁⟩ := h₀₁
  obtain ⟨⟨hlo₁₂, hhi₁₂⟩, hs₁₂⟩ := h₁₂
  exact ⟨⟨hlo₀₁.trans hlo₁₂, hhi₁₂.trans hhi₀₁⟩, hs₀₁.trans hs₁₂⟩

/-- `remove_redundant_merge_reqs` is the maximal-items loop over the requests from the last back. -/
theorem Trace.removeRedundantMergeReqs_eq (reqs : List (FueledMergeReq A P M)) :
    Trace.removeRedundantMergeReqs reqs =
      Maximal.keepMaximal FueledMergeReq.covers reqs.reverse := rfl

/-- The requests `remove_redundant_merge_reqs` keeps are requests it was given, none covers
another, and each request it was given is covered by one it keeps. -/
theorem remove_redundant_merge_reqs_maximal (reqs : List (FueledMergeReq A P M)) :
    (Trace.removeRedundantMergeReqs reqs).Pairwise
        (fun a b => a.covers b = false ∧ b.covers a = false) ∧
      (∀ r ∈ reqs, ∃ o ∈ Trace.removeRedundantMergeReqs reqs, o.covers r) ∧
      ∀ o ∈ Trace.removeRedundantMergeReqs reqs, o ∈ reqs := by
  have h := Maximal.keepMaximal_kept FueledMergeReq.covers_refl FueledMergeReq.covers_trans
    reqs.reverse
  rw [Trace.removeRedundantMergeReqs_eq]
  exact ⟨h.antichain, fun r hr => h.covered r (List.mem_reverse.2 hr),
    fun o ho => List.mem_reverse.1 (h.mem o ho)⟩

end MergeReqs

/-! ## The trace's operations -/

/-- The operations a trace goes through. -/
inductive Trace.Op (A P M : Type) : Type 1 where
  | pushBatch (batch : HollowBatch A P M)
  | pushBatchNoMergeReqs (batch : HollowBatch A P M)
  | exert (fuel : Nat)
  | downgradeSince (since : A)
  | claimCompaction (id : SpineId) (compaction : ActiveCompaction)
  | applyMergeResUnchecked (res : FueledMergeRes A P M)
  | applyMergeResChecked (D : Type) [AddMonoid D] [DecidableEq D] (f : RunFields P M D)
      (res : FueledMergeRes A P M)
  | applyTombstoneMerge (desc : Description A)

section Runs
variable [LinearOrder A]

/-- The trace an operation leaves; `none` if it panics. -/
def Trace.apply (t : Trace A P M) : Trace.Op A P M → Option (Trace A P M)
  | .pushBatch batch => (t.pushBatch batch).map Prod.fst
  | .pushBatchNoMergeReqs batch => t.pushBatchNoMergeReqs batch
  | .exert fuel => (t.exert fuel).map Prod.fst
  | .downgradeSince since => some (t.downgradeSince since)
  | .claimCompaction id compaction => some (t.claimCompaction id compaction)
  | .applyMergeResUnchecked res => some (t.applyMergeResUnchecked res).1
  | @Trace.Op.applyMergeResChecked _ _ _ _ _ _ f res => (t.applyMergeResChecked f res).map Prod.fst
  | .applyTombstoneMerge desc => some (t.applyTombstoneMerge desc).1

/-- What the callers of the operations promise: a pushed batch continues the trace's upper over a
nonempty interval and is not compacted past the trace's since (writers write batches at since
`⊥`); the since only advances; a tombstone is not compacted past the trace's since (persist
writes them once the since is the empty antichain, the top). -/
def Trace.Op.Allowed (t : Trace A P M) : Trace.Op A P M → Prop
  | .pushBatch batch | .pushBatchNoMergeReqs batch =>
    batch.desc.lower = t.upper ∧ batch.desc.lower ≠ batch.desc.upper ∧ batch.desc.since ≤ t.since
  | .downgradeSince since => t.since ≤ since
  | .applyTombstoneMerge desc => desc.since ≤ t.since
  | _ => True

variable [OrderBot A]

/-- The traces that operations whose callers keep their promises reach from `Trace::default`. -/
def Trace.Reachable : Trace A P M → Prop :=
  Run.Reachable (· = Trace.default) fun t t' => ∃ op, op.Allowed t ∧ t.apply op = some t'

/-- The traces that any operations reach from `Trace::default`. -/
def Trace.ReachableAny : Trace A P M → Prop :=
  Run.Reachable (· = Trace.default) fun t t' => ∃ op, t.apply op = some t'

end Runs

/-! ## The invariant of a trace -/

section Inv
variable [LinearOrder A] [OrderBot A]

/-- The spine invariant of a trace, for batch sinces with `ok`: the batches link from `0` to the
spine's next id and from `⊥` to its upper. -/
def Trace.InvFor (ok : A → Prop) (t : Trace A P M) : Prop :=
  t.spine.InvAt ok t.spine.nextId t.spine.upper

variable {ok : A → Prop}

/-- The empty trace has the invariant. -/
theorem Trace.default_invFor (h : ok ⊥) : (Trace.default : Trace A P M).InvFor ok :=
  ⟨fun m hm => by simp [Trace.default, Spine.new] at hm, rfl, rfl,
    fun b hb => by simp [Trace.default, Spine.new, Spine.spineBatches] at hb, h⟩

/-- The invariant for one property of sinces gives it for a weaker one that the spine's since has. -/
theorem Spine.InvAt.mono {s : Spine A P M} {idEnd : Nat} {upperEnd : A}
    (h : s.InvAt ok idEnd upperEnd) {ok' : A → Prop} (hmono : ∀ a, ok a → ok' a)
    (hs : ok' s.since) : s.InvAt ok' idEnd upperEnd where
  levels m hm := ⟨(h.levels m hm).merge_isSome, (h.levels m hm).merge_id,
    fun im him => hmono _ ((h.levels m hm).merge_since im him)⟩
  ids := h.ids
  frontiers := h.frontiers
  batches b hb := ⟨(h.batches b hb).1, hmono _ (h.batches b hb).2⟩
  since_ok := hs

/-- A search that replaces the newest batch it matches, or leaves the spine as it was, keeps the
invariant and the spine's next id, upper and since. -/
theorem Spine.InvAt.replaceNewest_or {ρ : Type} {f : SpineBatch A P M → Option (SpineBatch A P M × ρ)}
    {s s' : Spine A P M} {idEnd : Nat} {upperEnd : A} (hinv : s.InvAt ok idEnd upperEnd)
    (h : s' = s ∨ ∃ r, s.replaceNewest f = some (s', r))
    (hf : ∀ b b' r, f b = some (b', r) → SpineBatch.Replaces ok b b') :
    s'.InvAt ok idEnd upperEnd ∧ s'.nextId = s.nextId ∧ s'.upper = s.upper ∧ s'.since = s.since := by
  rcases h with rfl | ⟨r, h⟩
  · exact ⟨hinv, rfl, rfl, rfl⟩
  · obtain ⟨hid, hup, hsince, -⟩ := Spine.replaceNewest_fields h
    exact ⟨hinv.replaceNewest h hf, hid, hup, hsince⟩

variable (hsup : ∀ a b, ok a → ok b → ok (a ⊔ b))
include hsup

/-- `Trace::push_batch` keeps the invariant and adds the batch after the others, under the next
id. -/
theorem Trace.pushBatch_inv {t t' : Trace A P M} {batch : HollowBatch A P M}
    {reqs : List (FueledMergeReq A P M)} (h : t.pushBatch batch = some (t', reqs))
    (hinv : t.InvFor ok) (hok : ok batch.desc.since) :
    t'.InvFor ok ∧
      Spine.Extends ok t.spine [SpineBatch.merged ⟨⟨t.spine.nextId, t.spine.nextId + 1⟩, batch⟩]
        t'.spine := by
  simp only [Trace.pushBatch, Option.bind_eq_bind] at h
  obtain ⟨⟨spine, log⟩, hins, h⟩ := Option.bind_eq_some_iff.1 h
  simp only [Option.pure_def, Option.some.injEq, Prod.mk.injEq] at h
  obtain ⟨rfl, -⟩ := h
  obtain ⟨hinv', hext, -, -⟩ := Spine.insert_inv hsup hins hinv hok
  exact ⟨hinv', hext⟩

/-- `Trace::push_batch_no_merge_reqs` keeps the invariant and adds the batch after the others. -/
theorem Trace.pushBatchNoMergeReqs_inv {t t' : Trace A P M} {batch : HollowBatch A P M}
    (h : t.pushBatchNoMergeReqs batch = some t') (hinv : t.InvFor ok) (hok : ok batch.desc.since) :
    t'.InvFor ok ∧
      Spine.Extends ok t.spine [SpineBatch.merged ⟨⟨t.spine.nextId, t.spine.nextId + 1⟩, batch⟩]
        t'.spine := by
  simp only [Trace.pushBatchNoMergeReqs, Option.bind_eq_bind] at h
  obtain ⟨⟨spine, log⟩, hins, h⟩ := Option.bind_eq_some_iff.1 h
  obtain rfl := (Option.some.inj h).symm
  obtain ⟨hinv', hext, -, -⟩ := Spine.insert_inv hsup hins hinv hok
  exact ⟨hinv', hext⟩

/-- `Trace::exert` keeps the invariant and the updates: the one batch it may add is empty. -/
theorem Trace.exert_inv {t t' : Trace A P M} {fuel : Nat} {reqs : List (FueledMergeReq A P M)}
    {didWork : Bool} (h : t.exert fuel = some (t', reqs, didWork)) (hinv : t.InvFor ok) :
    t'.InvFor ok ∧ ∃ new, Spine.Extends ok t.spine new t'.spine ∧
      new.flatMap SpineBatch.updates = [] := by
  simp only [Trace.exert, Option.bind_eq_bind] at h
  obtain ⟨⟨⟨spine, w⟩, log⟩, hexert, h⟩ := Option.bind_eq_some_iff.1 h
  simp only [Option.pure_def, Option.some.injEq, Prod.mk.injEq] at h
  obtain ⟨rfl, -, -⟩ := h
  obtain ⟨hinv', -, hext⟩ := Spine.exert_inv hsup hexert hinv
  exact ⟨hinv', hext⟩

end Inv

/-! ## Replacements on a trace -/

section TraceReplace
variable {D : Type} [AddMonoid D] [DecidableEq D] {f : RunFields P M D}

/-- The step `claim_compaction` searches the batches with. -/
def claimStep (id : SpineId) (compaction : ActiveCompaction) (batch : SpineBatch A P M) :
    Option (SpineBatch A P M × Unit) :=
  if batch.id = id then some ({ batch with activeCompaction := some compaction }, ()) else none

theorem Trace.claimCompaction_spine (t : Trace A P M) (id : SpineId) (c : ActiveCompaction) :
    (t.claimCompaction id c).spine = t.spine ∨
      ∃ r, t.spine.replaceNewest (claimStep id c) = some ((t.claimCompaction id c).spine, r) := by
  unfold Trace.claimCompaction
  split
  · rename_i spine h
    exact .inr ⟨(), h⟩
  · exact .inl rfl

/-- Claiming a compaction changes only the compaction recorded on the batch. -/
theorem claimStep_eq_some {id : SpineId} {c : ActiveCompaction} {b b' : SpineBatch A P M} {r : Unit}
    (h : claimStep id c b = some (b', r)) : b' = { b with activeCompaction := some c } := by
  unfold claimStep at h
  split at h
  · exact (Prod.mk.inj (Option.some.inj h)).1.symm
  · cases h

/-- Where a search whose step may panic stops without a panic, the step gave the batch. -/
theorem panickingStep_eq_some
    {step : SpineBatch A P M → Option (SpineBatch A P M × ApplyMergeResult)}
    {b b' : SpineBatch A P M} {r : Option ApplyMergeResult} (h : panickingStep step b = some (b', r)) :
    (b' = b ∧ r = none) ∨ ∃ result, step b = some (b', result) ∧ r = some result := by
  unfold panickingStep at h
  split at h
  · obtain ⟨rfl, rfl⟩ := Prod.mk.inj (Option.some.inj h)
    exact .inl ⟨rfl, rfl⟩
  · rename_i b₁ result hstep
    split at h
    · obtain ⟨rfl, rfl⟩ := Prod.mk.inj (Option.some.inj h)
      exact .inr ⟨result, hstep, rfl⟩
    · cases h

variable [LinearOrder A]

theorem Trace.applyMergeResUnchecked_spine (t : Trace A P M) (res : FueledMergeRes A P M) :
    (t.applyMergeResUnchecked res).1.spine = t.spine ∨
      ∃ r, t.spine.replaceNewest (matchedStep (·.maybeReplaceUnchecked res)) =
        some ((t.applyMergeResUnchecked res).1.spine, r) := by
  unfold Trace.applyMergeResUnchecked
  split
  · rename_i spine r h
    exact .inr ⟨r, h⟩
  · exact .inl rfl

theorem Trace.applyTombstoneMerge_spine (t : Trace A P M) (desc : Description A) :
    (t.applyTombstoneMerge desc).1.spine = t.spine ∨
      ∃ r, t.spine.replaceNewest (matchedStep (·.maybeReplaceWithTombstone desc)) =
        some ((t.applyTombstoneMerge desc).1.spine, r) := by
  unfold Trace.applyTombstoneMerge
  split
  · rename_i spine r h
    exact .inr ⟨r, h⟩
  · exact .inl rfl

theorem Trace.applyMergeResChecked_spine {t t' : Trace A P M} {res : FueledMergeRes A P M}
    {r : ApplyMergeResult} (h : t.applyMergeResChecked f res = some (t', r)) :
    t'.spine = t.spine ∨
      ∃ r', t.spine.replaceNewest (panickingStep (·.maybeReplaceChecked f res)) = some (t'.spine, r') := by
  unfold Trace.applyMergeResChecked at h
  split at h
  · rename_i spine result hs
    obtain ⟨rfl, -⟩ := Prod.mk.inj (Option.some.inj h)
    exact .inr ⟨_, hs⟩
  · cases h
  · obtain ⟨rfl, -⟩ := Prod.mk.inj (Option.some.inj h)
    exact .inl rfl

variable [OrderBot A] {ok : A → Prop}

/-- `Trace::claim_compaction` keeps the invariant, the next id, the upper and the since. -/
theorem Trace.claimCompaction_inv {t : Trace A P M} (hinv : t.InvFor ok) (id : SpineId)
    (c : ActiveCompaction) :
    (t.claimCompaction id c).InvFor ok ∧ (t.claimCompaction id c).since = t.since := by
  obtain ⟨h, hid, hup, hsince⟩ := hinv.replaceNewest_or (t.claimCompaction_spine id c)
    fun b b' r hb => by
      rw [claimStep_eq_some hb]
      exact ⟨rfl, rfl, rfl, fun hw => ⟨hw.id_lt, hw.len_eq⟩, fun h => h⟩
  exact ⟨by unfold Trace.InvFor; rw [hid, hup]; exact h, hsince⟩

/-- `Trace::apply_merge_res_unchecked` keeps the invariant, the next id, the upper and the since,
for sinces with a property that holds below any since that has it. -/
theorem Trace.applyMergeResUnchecked_inv (hdown : ∀ a a', a ≤ a' → ok a' → ok a) {t : Trace A P M}
    (hinv : t.InvFor ok) (res : FueledMergeRes A P M) :
    (t.applyMergeResUnchecked res).1.InvFor ok ∧ (t.applyMergeResUnchecked res).1.since = t.since := by
  obtain ⟨h, hid, hup, hsince⟩ := hinv.replaceNewest_or (t.applyMergeResUnchecked_spine res)
    fun b b' r hb => by
      rw [matchedStep_eq_some hb]
      exact SpineBatch.maybeReplaceUnchecked_replaces hdown b res
  exact ⟨by unfold Trace.InvFor; rw [hid, hup]; exact h, hsince⟩

/-- `Trace::apply_tombstone_merge` keeps the invariant, the next id, the upper and the since, when
the tombstone's since has the property. -/
theorem Trace.applyTombstoneMerge_inv {t : Trace A P M} (hinv : t.InvFor ok) {desc : Description A}
    (hdesc : ok desc.since) :
    (t.applyTombstoneMerge desc).1.InvFor ok ∧ (t.applyTombstoneMerge desc).1.since = t.since := by
  obtain ⟨h, hid, hup, hsince⟩ := hinv.replaceNewest_or (t.applyTombstoneMerge_spine desc)
    fun b b' r hb => by
      rw [matchedStep_eq_some hb]
      exact SpineBatch.maybeReplaceWithTombstone_replaces hdesc b
  exact ⟨by unfold Trace.InvFor; rw [hid, hup]; exact h, hsince⟩

/-- `Trace::apply_merge_res_checked`, where it does not panic, keeps the invariant, the next id,
the upper and the since, for sinces with a property that holds below any since that has it. -/
theorem Trace.applyMergeResChecked_inv (hdown : ∀ a a', a ≤ a' → ok a' → ok a) {t t' : Trace A P M}
    (hinv : t.InvFor ok) {res : FueledMergeRes A P M} {r : ApplyMergeResult}
    (h : t.applyMergeResChecked f res = some (t', r)) : t'.InvFor ok ∧ t'.since = t.since := by
  obtain ⟨h', hid, hup, hsince⟩ := hinv.replaceNewest_or (Trace.applyMergeResChecked_spine h)
    fun b b' r hb => by
      rcases panickingStep_eq_some hb with ⟨rfl, -⟩ | ⟨result, hstep, -⟩
      · exact .refl _
      · exact SpineBatch.maybeReplaceChecked_replaces hdown hstep
  exact ⟨by unfold Trace.InvFor; rw [hid, hup]; exact h', hsince⟩

/-- `Trace::downgrade_since` keeps the invariant, for any property of sinces that the new since
has and that follows from the old one. -/
theorem Trace.downgradeSince_inv {t : Trace A P M} (hinv : t.InvFor ok) {since : A}
    {ok' : A → Prop} (hmono : ∀ a, ok a → ok' a) (hs : ok' since) :
    (t.downgradeSince since).InvFor ok' := by
  have h' := Spine.InvAt.mono hinv hmono (hmono _ hinv.since_ok)
  exact ⟨h'.levels, h'.ids, h'.frontiers, h'.batches, hs⟩

end TraceReplace

/-! ## Over whole runs -/

section Valid
variable [LinearOrder A] [OrderBot A]

/-- What `Trace::validate` checks, as an invariant: the trace's batches link up to its next id and
its upper, at sinces its own since has reached. -/
def Trace.Valid (t : Trace A P M) : Prop := t.InvFor (· ≤ t.since)

/-- An operation whose caller keeps its promise keeps the trace valid. -/
theorem Trace.Valid.apply {t t' : Trace A P M} {op : Trace.Op A P M} (hinv : t.Valid)
    (hop : op.Allowed t) (h : t.apply op = some t') : t'.Valid := by
  have hsup : ∀ a b : A, a ≤ t.since → b ≤ t.since → a ⊔ b ≤ t.since := fun _ _ => sup_le
  cases op with
  | pushBatch batch =>
    obtain ⟨⟨t₁, reqs⟩, h₁, rfl⟩ := Option.map_eq_some_iff.1 h
    obtain ⟨h₂, hext⟩ := Trace.pushBatch_inv hsup h₁ hinv hop.2.2
    unfold Trace.Valid Trace.since
    rw [hext.since]
    exact h₂
  | pushBatchNoMergeReqs batch =>
    obtain ⟨h₂, hext⟩ := Trace.pushBatchNoMergeReqs_inv hsup h hinv hop.2.2
    unfold Trace.Valid Trace.since
    rw [hext.since]
    exact h₂
  | exert fuel =>
    obtain ⟨⟨t₁, reqs, didWork⟩, h₁, rfl⟩ := Option.map_eq_some_iff.1 h
    obtain ⟨h₂, new, hext, -⟩ := Trace.exert_inv hsup h₁ hinv
    unfold Trace.Valid Trace.since
    rw [hext.since]
    exact h₂
  | downgradeSince since =>
    obtain rfl := Option.some.inj h
    exact Trace.downgradeSince_inv hinv (fun _ ha => le_trans ha hop) le_rfl
  | claimCompaction id c =>
    obtain rfl := Option.some.inj h
    obtain ⟨h₂, hsince⟩ := Trace.claimCompaction_inv hinv id c
    unfold Trace.Valid
    rw [hsince]
    exact h₂
  | applyMergeResUnchecked res =>
    obtain rfl := Option.some.inj h
    obtain ⟨h₂, hsince⟩ := Trace.applyMergeResUnchecked_inv (fun _ _ => le_trans) hinv res
    unfold Trace.Valid
    rw [hsince]
    exact h₂
  | applyMergeResChecked D f res =>
    obtain ⟨⟨t₁, r⟩, h₁, rfl⟩ := Option.map_eq_some_iff.1 h
    obtain ⟨h₂, hsince⟩ := Trace.applyMergeResChecked_inv (fun _ _ => le_trans) hinv h₁
    unfold Trace.Valid
    rw [hsince]
    exact h₂
  | applyTombstoneMerge desc =>
    obtain rfl := Option.some.inj h
    obtain ⟨h₂, hsince⟩ := Trace.applyTombstoneMerge_inv hinv hop
    unfold Trace.Valid
    rw [hsince]
    exact h₂

theorem Trace.validate_of_reachable {t : Trace A P M} (h : t.Reachable) : t.validate = .ok () := by
  have hvalid : t.Valid := by
    refine Run.Reachable.induction (I := Trace.Valid) ?_ ?_ h
    · rintro _ rfl
      exact Trace.default_invFor bot_le
    · rintro t₁ t₂ hinv ⟨op, hop, happ⟩
      exact hinv.apply hop happ
  exact Spine.validate_of_inv hvalid

end Valid

/-- The empty trace accepts a batch over `[0, 1)` with one update and one part. -/
theorem Trace.apply_pushBatch_default_isSome :
    (Trace.default.apply (.pushBatch ⟨⟨0, 1, 0⟩, 1, [()], [], [()]⟩) :
      Option (Trace Nat Unit Unit)).isSome = true := by
  decide +kernel

theorem Trace.validate_after_one_push :
    ∃ t : Trace Nat Unit Unit, Trace.default.apply (.pushBatch ⟨⟨0, 1, 0⟩, 1, [()], [], [()]⟩) = some t ∧
      t.Reachable ∧ t.validate = .ok () := by
  obtain ⟨t, ht⟩ := Option.isSome_iff_exists.1 Trace.apply_pushBatch_default_isSome
  have hr : t.Reachable := Run.Reachable.step (Run.Reachable.init rfl)
    ⟨.pushBatch _, ⟨rfl, by decide, by decide⟩, ht⟩
  exact ⟨t, ht, hr, Trace.validate_of_reachable hr⟩

/-- Batches compacted past the trace's since: one pushed onto the empty trace (it continues the
upper over a nonempty interval), and a tombstone over a batch pushed there. After either the trace
no longer validates. -/
theorem Trace.validate_fails_past_since :
    ((Trace.default : Trace Nat Unit Unit).pushBatch ⟨⟨0, 1, 1⟩, 1, [()], [], [()]⟩).map
        (·.1.validate) = some (.error "since of batch past the spine since") ∧
      ((Trace.default : Trace Nat Unit Unit).pushBatch ⟨⟨0, 1, 0⟩, 1, [()], [], [()]⟩).map
        (fun (t, _) => (t.applyTombstoneMerge ⟨0, 1, 1⟩).1.validate) =
          some (.error "since of batch past the spine since") :=
  ⟨by decide +kernel, by decide +kernel⟩

/-- The hollow batches of a trace that hold updates, in order, are those of its spine batches. -/
theorem Trace.batches_filter (t : Trace A P M) :
    t.batches.filter (fun b => b.len ≠ 0) = t.spine.spineBatches.flatMap SpineBatch.updates := by
  simp only [Trace.batches, List.filter_flatMap]
  rfl

/-- Claiming a compaction leaves every batch's parts as they were. -/
theorem Trace.claimCompaction_updates (t : Trace A P M) (id : SpineId) (c : ActiveCompaction) :
    (t.claimCompaction id c).spine.spineBatches.flatMap SpineBatch.updates =
      t.spine.spineBatches.flatMap SpineBatch.updates := by
  rcases t.claimCompaction_spine id c with h | ⟨r, h⟩
  · rw [h]
  · obtain ⟨pre, b, post, b', hF, hfb, hF'⟩ := Spine.replaceNewest_spineBatches h
    rw [hF, hF', claimStep_eq_some hfb]
    simp only [List.flatMap_append, List.flatMap_cons]
    rfl

section Sound
variable [LinearOrder A] [OrderBot A]

/-- Any operation keeps the spine invariant, for sinces of any kind. -/
theorem Trace.InvFor.apply_true {t t' : Trace A P M} {op : Trace.Op A P M}
    (hinv : t.InvFor fun _ => True) (h : t.apply op = some t') : t'.InvFor fun _ => True := by
  have hsup : ∀ _ _ : A, True → True → True := fun _ _ _ _ => trivial
  cases op with
  | pushBatch batch =>
    obtain ⟨⟨t₁, reqs⟩, h₁, rfl⟩ := Option.map_eq_some_iff.1 h
    exact (Trace.pushBatch_inv hsup h₁ hinv trivial).1
  | pushBatchNoMergeReqs batch => exact (Trace.pushBatchNoMergeReqs_inv hsup h hinv trivial).1
  | exert fuel =>
    obtain ⟨⟨t₁, reqs, didWork⟩, h₁, rfl⟩ := Option.map_eq_some_iff.1 h
    exact (Trace.exert_inv hsup h₁ hinv).1
  | downgradeSince since =>
    obtain rfl := Option.some.inj h
    exact Trace.downgradeSince_inv hinv (fun _ h => h) trivial
  | claimCompaction id c =>
    obtain rfl := Option.some.inj h
    exact (Trace.claimCompaction_inv hinv id c).1
  | applyMergeResUnchecked res =>
    obtain rfl := Option.some.inj h
    exact (Trace.applyMergeResUnchecked_inv (fun _ _ _ _ => trivial) hinv res).1
  | applyMergeResChecked D f res =>
    obtain ⟨⟨t₁, r⟩, h₁, rfl⟩ := Option.map_eq_some_iff.1 h
    exact (Trace.applyMergeResChecked_inv (fun _ _ _ _ => trivial) hinv h₁).1
  | applyTombstoneMerge desc =>
    obtain rfl := Option.some.inj h
    exact (Trace.applyTombstoneMerge_inv hinv trivial).1

/-- Every trace any operations reach has the spine invariant. -/
theorem Trace.invFor_of_reachableAny {t : Trace A P M} (h : t.ReachableAny) :
    t.InvFor fun _ => True := by
  refine Run.Reachable.induction (I := Trace.InvFor fun _ => True) ?_ ?_ h
  · rintro _ rfl
    exact Trace.default_invFor trivial
  · rintro t₁ t₂ hinv ⟨op, happ⟩
    exact hinv.apply_true happ

theorem Trace.nonempty_batches_kept {t : Trace A P M} (h : t.ReachableAny) :
    (∀ batch t' reqs, t.pushBatch batch = some (t', reqs) →
      t'.batches.filter (fun b => b.len ≠ 0) =
        t.batches.filter (fun b => b.len ≠ 0) ++ [batch].filter (fun b => b.len ≠ 0)) ∧
    (∀ fuel t' reqs didWork, t.exert fuel = some (t', reqs, didWork) →
      t'.batches.filter (fun b => b.len ≠ 0) = t.batches.filter (fun b => b.len ≠ 0)) ∧
    (∀ id c, (t.claimCompaction id c).batches.filter (fun b => b.len ≠ 0) =
      t.batches.filter (fun b => b.len ≠ 0)) ∧
    (∀ m ∈ t.spine.merging, m.isFull = true →
      ∀ log, ∃ y log', m.complete.run log = some (some y, log')) := by
  have hinv := Trace.invFor_of_reachableAny h
  have hsup : ∀ _ _ : A, True → True → True := fun _ _ _ _ => trivial
  refine ⟨?_, ?_, ?_, ?_⟩
  · -- the pushed batch lands after the others, as one spine batch of its own
    intro batch t' reqs hpush
    obtain ⟨-, hext⟩ := Trace.pushBatch_inv hsup hpush hinv trivial
    rw [Trace.batches_filter, Trace.batches_filter, hext.updates]
    simp
  · -- exerting regroups the batches and adds at most an empty one
    intro fuel t' reqs didWork hexert
    obtain ⟨-, new, hext, hnew⟩ := Trace.exert_inv hsup hexert hinv
    rw [Trace.batches_filter, Trace.batches_filter, hext.updates, hnew, List.append_nil]
  · intro id c
    rw [Trace.batches_filter, Trace.batches_filter, Trace.claimCompaction_updates]
  · -- a full level holds batches, and a level with batches completes to the batch they merge into
    intro m hm hfull log
    obtain ⟨j, hj, rfl⟩ := List.mem_iff_getElem.1 hm
    have hlev : t.spine.levelAt j = t.spine.merging[j] := Spine.levelAt_of_lt hj
    obtain ⟨y, log', hrun, -⟩ := hinv.complete_levelAt (j := j)
      (by rw [hlev]; exact MergeState.batches_ne_nil_of_isFull hfull) log
    exact ⟨y, log', hlev ▸ hrun⟩

end Sound

theorem Trace.nonempty_batches_kept_after_push :
    ∃ t : Trace Nat Unit Unit, Trace.default.apply (.pushBatch ⟨⟨0, 1, 0⟩, 1, [()], [], [()]⟩) = some t ∧
      ∀ batch t' reqs, t.pushBatch batch = some (t', reqs) →
        t'.batches.filter (fun b => b.len ≠ 0) =
          t.batches.filter (fun b => b.len ≠ 0) ++ [batch].filter (fun b => b.len ≠ 0) := by
  obtain ⟨t, ht⟩ := Option.isSome_iff_exists.1 Trace.apply_pushBatch_default_isSome
  exact ⟨t, ht, (Trace.nonempty_batches_kept (Run.Reachable.step (Run.Reachable.init rfl)
    ⟨.pushBatch _, ht⟩)).1⟩

/-- A batch with a part but no updates, then an empty batch: the second fuses with the first into
one empty batch, and the first batch's part is gone. -/
theorem Trace.parts_dropped_by_empty_fusion :
    (((Trace.default : Trace Nat Unit Unit).pushBatch ⟨⟨0, 1, 0⟩, 0, [()], [], []⟩).bind
      fun (t, _) => (t.pushBatch ⟨⟨1, 2, 0⟩, 0, [], [], []⟩).map fun (t', _) =>
        (t.batches.filter (!·.isEmpty), t'.batches.filter (!·.isEmpty))) =
      some ([⟨⟨0, 1, 0⟩, 0, [()], [], []⟩], []) := by
  decide +kernel

end Materialize.Persist
