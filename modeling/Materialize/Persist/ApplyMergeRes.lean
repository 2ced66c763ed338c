import Mathlib
import Materialize.Persist.TraceInv

/-!
# What a merge result does to the spine

Applying the result of a compaction (`Trace::apply_merge_res_checked`,
`Trace::apply_merge_res_unchecked`) swaps at most one spine batch, in place. `SpineBatch.Swaps`
says what the swapped batch may be, whichever replacement matched:
* the batch itself, where the result is not applied;
* the result made a spine batch of its own (`SpineBatch::merged`), where it covers the whole batch:
  the id, the lower and the upper stay, but the description is the result's, whose since may be
  earlier than the batch's, and the batch's active compaction is dropped;
* the batch with one contiguous run of its parts replaced by one hollow batch (the result, or for
  a `PartialBatch` input the part with the compacted runs replaced), under its own description.

In every case the batch has no more updates than before. `Trace.applyMergeRes_swaps_one` puts
this together for both entry points; the checked one also never leaves more parts than it found.
-/

namespace Materialize.Persist

variable {A P M : Type}

/-! ## The swapped batch -/

section Swaps
variable [LinearOrder A]

/-- `b'` is what a merge result with output `out` may leave in place of `b`. -/
structure SpineBatch.Swaps (out : HollowBatch A P M) (b b' : SpineBatch A P M) : Prop where
  id_eq : b'.id = b.id
  lower_eq : b'.desc.lower = b.desc.lower
  upper_eq : b'.desc.upper = b.desc.upper
  since_le : b'.desc.since ≤ b.desc.since
  len_le : b'.len ≤ b.len
  shape : b' = b ∨ b' = SpineBatch.merged ⟨b.id, out⟩ ∨
    ∃ id x start stop, b'.desc = b.desc ∧ b'.parts = b.parts.take start ++ ⟨id, x⟩ :: b.parts.drop stop

theorem SpineBatch.Swaps.refl (out : HollowBatch A P M) (b : SpineBatch A P M) :
    SpineBatch.Swaps out b b :=
  ⟨rfl, rfl, rfl, le_rfl, le_rfl, .inl rfl⟩

/-- The result made a spine batch of its own, when it spans the batch, is no later and has no more
updates. -/
theorem SpineBatch.Swaps.merged {out : HollowBatch A P M} {b : SpineBatch A P M}
    (hexact : out.desc.lower = b.desc.lower ∧ out.desc.upper = b.desc.upper)
    (hsince : out.desc.since ≤ b.desc.since) (hlen : out.len ≤ b.len) :
    SpineBatch.Swaps out b (SpineBatch.merged ⟨b.id, out⟩) :=
  ⟨rfl, hexact.1, hexact.2, hsince, hlen, .inr (.inl rfl)⟩

/-- A subset replacement swaps one run of the parts, unless that would add updates. -/
theorem SpineBatch.performSubsetReplacement_swaps (out : HollowBatch A P M) (b : SpineBatch A P M)
    (x : HollowBatch A P M) (spineId : SpineId) (start stop : Nat)
    (nac : Option ActiveCompaction) :
    SpineBatch.Swaps out b (b.performSubsetReplacement x spineId start stop nac).1 := by
  unfold SpineBatch.performSubsetReplacement
  dsimp only
  split
  · exact .refl out b
  · rename_i hlen
    exact ⟨rfl, rfl, rfl, le_rfl, Nat.le_of_not_lt hlen,
      .inr (.inr ⟨spineId, x, start, stop, rfl, by simp⟩)⟩

theorem SpineBatch.KeptOrSubset.swaps {out : HollowBatch A P M} {b b' : SpineBatch A P M}
    (h : b.KeptOrSubset b') : SpineBatch.Swaps out b b' := by
  rcases h with rfl | ⟨x, id, start, stop, nac, rfl⟩
  · exact .refl out _
  · exact SpineBatch.performSubsetReplacement_swaps out b x id start stop nac

/-- What a replacement leaves is a swap. -/
theorem SpineBatch.ReplacedBy.swaps {out : HollowBatch A P M} {b b' : SpineBatch A P M}
    (h : b.ReplacedBy out b') : SpineBatch.Swaps out b b' := by
  rcases h with hkept | ⟨rfl, hexact, hsince, hlen⟩
  · exact hkept.swaps
  · exact .merged hexact hsince hlen

/-- `maybe_replace_unchecked` swaps the batch for what its result allows. -/
theorem SpineBatch.maybeReplaceUnchecked_swaps (b : SpineBatch A P M) (res : FueledMergeRes A P M) :
    SpineBatch.Swaps res.output b (b.maybeReplaceUnchecked res).1 :=
  (b.maybeReplaceUnchecked_replacedBy res).swaps

/-- `maybe_replace_checked`, where it does not panic, swaps the batch for what its result allows,
and leaves no more parts than it found. -/
theorem SpineBatch.maybeReplaceChecked_swaps {D : Type} [AddMonoid D] [DecidableEq D]
    {f : RunFields P M D} {b b' : SpineBatch A P M} {res : FueledMergeRes A P M}
    {r : ApplyMergeResult} (h : b.maybeReplaceChecked f res = some (b', r)) :
    SpineBatch.Swaps res.output b b' ∧ b'.parts.length ≤ b.parts.length :=
  ⟨(SpineBatch.maybeReplaceChecked_replacedBy h).1.swaps,
    (SpineBatch.maybeReplaceChecked_replacedBy h).2⟩

end Swaps

/-! ## The trace -/

section TraceSwaps

/-- `t'` is `t` with its spine unchanged, or with one spine batch `b` swapped in place for a `b'`
with `R b b'`, the other spine batches, the since and the upper as they were. -/
def Trace.SwapsOne (R : SpineBatch A P M → SpineBatch A P M → Prop) (t t' : Trace A P M) : Prop :=
  t'.spine = t.spine ∨ ∃ pre b post b', t.spine.spineBatches = pre ++ b :: post ∧
    t'.spine.spineBatches = pre ++ b' :: post ∧ R b b' ∧ t'.since = t.since ∧ t'.upper = t.upper

/-- A search that swaps the newest batch it matches, by a step whose swaps have `R`, swaps one. -/
theorem Trace.swapsOne_of_replaceNewest {ρ : Type} {R : SpineBatch A P M → SpineBatch A P M → Prop}
    {t t' : Trace A P M} {g : SpineBatch A P M → Option (SpineBatch A P M × ρ)} {r : ρ}
    (h : t.spine.replaceNewest g = some (t'.spine, r)) (hg : ∀ b b' r, g b = some (b', r) → R b b') :
    Trace.SwapsOne R t t' := by
  obtain ⟨pre, b, post, b', hF, hfb, hF'⟩ := Spine.replaceNewest_spineBatches h
  obtain ⟨-, hup, hsince, -⟩ := Spine.replaceNewest_fields h
  exact .inr ⟨pre, b, post, b', hF, hF', hg b b' r hfb, hsince, hup⟩

variable [LinearOrder A]

/-- Swapping one batch for one over the same frontiers keeps the chain of the spine batches'
lowers and uppers. -/
theorem Trace.SwapsOne.frontiers {out : HollowBatch A P M}
    {R : SpineBatch A P M → SpineBatch A P M → Prop} (hR : ∀ b b', R b b' → b.Swaps out b')
    {t t' : Trace A P M} (h : Trace.SwapsOne R t t') :
    t'.spine.spineBatches.map (fun b => (b.desc.lower, b.desc.upper)) =
      t.spine.spineBatches.map (fun b => (b.desc.lower, b.desc.upper)) := by
  rcases h with h | ⟨pre, b, post, b', hF, hF', hsw, -⟩
  · rw [h]
  · rw [hF, hF']
    simp [(hR b b' hsw).lower_eq, (hR b b' hsw).upper_eq]

variable {D : Type} [AddMonoid D] [DecidableEq D]

/-- `apply_merge_res_checked`, where it does not panic, swaps at most one spine batch, and leaves
it no more parts than it had. -/
theorem Trace.applyMergeResChecked_swapsOne {f : RunFields P M D} {t t' : Trace A P M}
    {res : FueledMergeRes A P M} {r : ApplyMergeResult} (h : t.applyMergeResChecked f res = some (t', r)) :
    Trace.SwapsOne (fun b b' => b.Swaps res.output b' ∧ b'.parts.length ≤ b.parts.length) t t' := by
  rcases Trace.applyMergeResChecked_spine h with hspine | ⟨r', hrep⟩
  · exact .inl hspine
  · refine Trace.swapsOne_of_replaceNewest hrep fun b b' r hb => ?_
    rcases panickingStep_eq_some hb with ⟨rfl, -⟩ | ⟨result, hstep, -⟩
    · exact ⟨.refl _ _, le_rfl⟩
    · exact SpineBatch.maybeReplaceChecked_swaps hstep

/-- `apply_merge_res_unchecked` swaps at most one spine batch. -/
theorem Trace.applyMergeResUnchecked_swapsOne (t : Trace A P M) (res : FueledMergeRes A P M) :
    Trace.SwapsOne (SpineBatch.Swaps res.output) t (t.applyMergeResUnchecked res).1 := by
  rcases Trace.applyMergeResUnchecked_spine t res with hspine | ⟨r', hrep⟩
  · exact .inl hspine
  · refine Trace.swapsOne_of_replaceNewest hrep fun b b' r hb => ?_
    rw [matchedStep_eq_some hb]
    exact SpineBatch.maybeReplaceUnchecked_swaps b res

end TraceSwaps

end Materialize.Persist
