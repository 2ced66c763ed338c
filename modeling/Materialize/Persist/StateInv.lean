import Materialize.Persist.State
import Materialize.Persist.TraceInv

/-!
# Invariants of a shard's state

What holds of every state `Persist.State`'s commands reach from `TypedState::new`, the contract the
rest of persist relies on: the trace's since is at most every reader's since, every writer's last
upper is at most the trace's upper, `last_gc_req` is at most the sequence number since, and the
trace is one that trace operations reach from the empty trace. From one state to the next, the
since, the upper and `last_gc_req` only advance. When writers append at sinces the trace has
reached, as `WriteHandle` does, the trace also passes `Trace::validate`.

Each command is first described by what its result is made of (`registerLeasedReader_eq`,
`compareAndAppend_eq` and the others); the invariant's lemmas are then read off those
descriptions, without going back into the commands.
-/

namespace Materialize.Persist

variable {A P M : Type}

/-! ## Meets of frontiers -/

section Meet
variable [Lattice A]

/-- The meet of a list of frontiers is above anything below them all. -/
theorem le_foldl_inf {a : A} : ∀ {s : A} {l : List A}, (∀ x ∈ s :: l, a ≤ x) →
    a ≤ l.foldl (· ⊓ ·) s
  | _, [], h => h _ List.mem_cons_self
  | s, x :: l, h => by
    rw [List.foldl_cons]
    refine le_foldl_inf fun y hy => ?_
    rcases List.mem_cons.1 hy with rfl | hy
    · exact le_inf (h _ List.mem_cons_self) (h x (List.mem_cons_of_mem _ List.mem_cons_self))
    · exact h y (List.mem_cons_of_mem _ (List.mem_cons_of_mem _ hy))

/-- The meet of a list of frontiers is below each of them. -/
theorem foldl_inf_le : ∀ {s : A} {l : List A} {x : A}, x ∈ s :: l → l.foldl (· ⊓ ·) s ≤ x
  | s, [], x, hx => by
    rw [List.mem_singleton.1 hx]
    rfl
  | s, y :: l, x, hx => by
    rw [List.foldl_cons]
    have hhead : l.foldl (· ⊓ ·) (s ⊓ y) ≤ s ⊓ y := foldl_inf_le List.mem_cons_self
    rcases List.mem_cons.1 hx with rfl | hx
    · exact hhead.trans inf_le_left
    · rcases List.mem_cons.1 hx with rfl | hx
      · exact hhead.trans inf_le_right
      · exact foldl_inf_le (List.mem_cons_of_mem _ hx)

end Meet

/-! ## What the trace operations do to the upper and the since -/

section TraceOps

theorem Trace.claimCompaction_frontiers (t : Trace A P M) (id : SpineId) (c : ActiveCompaction) :
    (t.claimCompaction id c).upper = t.upper ∧ (t.claimCompaction id c).since = t.since := by
  rcases t.claimCompaction_spine id c with h | ⟨r, h⟩
  · exact ⟨congrArg Spine.upper h, congrArg Spine.since h⟩
  · obtain ⟨-, hup, hsince, -⟩ := Spine.replaceNewest_fields h
    exact ⟨hup, hsince⟩

/-- What claiming a compaction keeps, claiming compactions one after another keeps. -/
theorem Trace.claims_preserve {R : Trace A P M → Prop}
    (hR : ∀ t id c, R t → R (t.claimCompaction id c)) (heartbeat : Nat) :
    ∀ (reqs : List (FueledMergeReq A P M)) (t : Trace A P M), R t →
      R (reqs.foldl (fun t req => t.claimCompaction req.id ⟨heartbeat⟩) t)
  | [], _, ht => ht
  | req :: reqs, t, ht => Trace.claims_preserve hR heartbeat reqs _ (hR t req.id ⟨heartbeat⟩ ht)

/-- Claiming compactions one after another changes neither frontier. -/
theorem Trace.claims_frontiers (heartbeat : Nat) (reqs : List (FueledMergeReq A P M))
    (t : Trace A P M) :
    (reqs.foldl (fun t req => t.claimCompaction req.id ⟨heartbeat⟩) t).upper = t.upper ∧
      (reqs.foldl (fun t req => t.claimCompaction req.id ⟨heartbeat⟩) t).since = t.since :=
  Trace.claims_preserve (R := fun t' => t'.upper = t.upper ∧ t'.since = t.since)
    (fun t' id c ⟨hup, hsince⟩ =>
      ⟨(t'.claimCompaction_frontiers id c).1.trans hup, (t'.claimCompaction_frontiers id c).2.trans hsince⟩)
    heartbeat reqs t ⟨rfl, rfl⟩

@[simp] theorem Trace.downgradeSince_upper (t : Trace A P M) (since : A) :
    (t.downgradeSince since).upper = t.upper := rfl

@[simp] theorem Trace.downgradeSince_since (t : Trace A P M) (since : A) :
    (t.downgradeSince since).since = since := rfl

variable [LinearOrder A]

theorem Trace.applyTombstoneMerge_frontiers (t : Trace A P M) (desc : Description A) :
    (t.applyTombstoneMerge desc).1.upper = t.upper ∧
      (t.applyTombstoneMerge desc).1.since = t.since := by
  rcases t.applyTombstoneMerge_spine desc with h | ⟨r, h⟩
  · exact ⟨congrArg Spine.upper h, congrArg Spine.since h⟩
  · obtain ⟨-, hup, hsince, -⟩ := Spine.replaceNewest_fields h
    exact ⟨hup, hsince⟩

theorem Trace.applyMergeResChecked_frontiers {D : Type} [AddMonoid D] [DecidableEq D]
    {f : RunFields P M D} {t t' : Trace A P M} {res : FueledMergeRes A P M} {r : ApplyMergeResult}
    (h : t.applyMergeResChecked f res = some (t', r)) : t'.upper = t.upper ∧ t'.since = t.since := by
  rcases Trace.applyMergeResChecked_spine h with h | ⟨r, h⟩
  · exact ⟨congrArg Spine.upper h, congrArg Spine.since h⟩
  · obtain ⟨-, hup, hsince, -⟩ := Spine.replaceNewest_fields h
    exact ⟨hup, hsince⟩

/-- A batch the spine takes starts at its upper and spans a nonempty interval. -/
theorem Trace.pushBatch_desc {t t' : Trace A P M} {batch : HollowBatch A P M}
    {reqs : List (FueledMergeReq A P M)} (h : t.pushBatch batch = some (t', reqs)) :
    batch.desc.lower = t.upper ∧ batch.desc.lower ≠ batch.desc.upper := by
  simp only [Trace.pushBatch, Option.bind_eq_bind] at h
  obtain ⟨⟨spine, log⟩, hins, -⟩ := Option.bind_eq_some_iff.1 h
  unfold Spine.insert at hins
  by_cases hempty : batch.desc.lower = batch.desc.upper
  · simp [hempty] at hins
  · by_cases hlower : batch.desc.lower = t.spine.upper
    · exact ⟨hlower, hempty⟩
    · simp [hempty, hlower] at hins

variable [OrderBot A]

theorem Trace.exert_frontiers {t t' : Trace A P M} {fuel : Nat} {reqs : List (FueledMergeReq A P M)}
    {didWork : Bool} (h : t.exert fuel = some (t', reqs, didWork)) (hinv : t.InvFor fun _ => True) :
    t'.upper = t.upper ∧ t'.since = t.since := by
  simp only [Trace.exert, Option.bind_eq_bind] at h
  obtain ⟨⟨⟨spine, w⟩, log⟩, hexert, h⟩ := Option.bind_eq_some_iff.1 h
  simp only [Option.pure_def, Option.some.injEq, Prod.mk.injEq] at h
  obtain ⟨rfl, -, -⟩ := h
  obtain ⟨-, hup, new, hext, -⟩ := Spine.exert_inv (fun _ _ _ _ => trivial) hexert hinv
  exact ⟨hup, hext.since⟩

theorem Trace.pushBatch_frontiers {t t' : Trace A P M} {batch : HollowBatch A P M}
    {reqs : List (FueledMergeReq A P M)} (h : t.pushBatch batch = some (t', reqs))
    (hinv : t.InvFor fun _ => True) : t'.upper = batch.desc.upper ∧ t'.since = t.since := by
  simp only [Trace.pushBatch, Option.bind_eq_bind] at h
  obtain ⟨⟨spine, log⟩, hins, h⟩ := Option.bind_eq_some_iff.1 h
  simp only [Option.pure_def, Option.some.injEq, Prod.mk.injEq] at h
  obtain ⟨rfl, -⟩ := h
  obtain ⟨-, hext, -, hup⟩ := Spine.insert_inv (fun _ _ _ _ => trivial) hins hinv trivial
  exact ⟨hup, hext.since⟩

end TraceOps

/-! ## What each command does -/

namespace StateCollections

section Specs
variable [LinearOrder A] [BoundedOrder A] {c c' : StateCollections A P M}

theorem registerLeasedReader_eq {readerId : LeasedReaderId}
    {seqno leaseDurationMs heartbeatTimestampMs : Nat} {useCriticalSince : Bool}
    {r : LeasedReaderState A × Nat}
    (h : c.registerLeasedReader readerId seqno leaseDurationMs heartbeatTimestampMs
      useCriticalSince = .ok (r, c')) :
    c.isTombstone = false ∧ c' = { c with leasedReaders := (c.leasedReaders.insert readerId
      ⟨seqno, if useCriticalSince then c.criticalSince.getD c.trace.since else c.trace.since,
        heartbeatTimestampMs, leaseDurationMs⟩).2 } := by
  cases htomb : c.isTombstone with
  | true => simp [registerLeasedReader, htomb] at h
  | false =>
    simp only [registerLeasedReader, htomb, Bool.false_eq_true, if_false, Except.ok.injEq,
      Prod.mk.injEq] at h
    exact ⟨rfl, h.2.symm⟩

theorem registerCriticalReader_eq {readerId : CriticalReaderId} {readerOpaque : Opaque}
    {r : CriticalReaderState A} (h : c.registerCriticalReader readerId readerOpaque = .ok (r, c')) :
    c.isTombstone = false ∧ (c' = c ∨
      c' = { c with criticalReaders :=
        (c.criticalReaders.insert readerId ⟨c.trace.since, readerOpaque⟩).2 }) := by
  cases htomb : c.isTombstone with
  | true => simp [registerCriticalReader, htomb] at h
  | false =>
    simp only [registerCriticalReader, htomb, Bool.false_eq_true, if_false] at h
    refine ⟨rfl, ?_⟩
    split at h
    · exact .inl (Prod.mk.inj (Except.ok.inj h)).2.symm
    · exact .inr (Prod.mk.inj (Except.ok.inj h)).2.symm

/-- An append that continues: the shard is no tombstone, the batch starts at the shard's upper and
ends at or after it, the token is not the writer's last one, and the writer's upper does not go
back. The batch is pushed (or, over an empty interval, nothing is), the merge requests returned are
claimed, and the writer's entry records the token and the batch's upper. -/
theorem compareAndAppend_eq {f : StateFields P} {batch : HollowBatch A P M} {writerId : WriterId}
    {heartbeatTimestampMs leaseDurationMs : Nat} {token : IdempotencyToken}
    {inlineMax claimPercent : Nat} {minVersion : Option Nat} {reqs : List (FueledMergeReq A P M)}
    (h : c.compareAndAppend f batch writerId heartbeatTimestampMs leaseDurationMs token inlineMax
      claimPercent minVersion = some (.ok (reqs, c'))) :
    c.isTombstone = false ∧ ¬ batch.desc.upper < batch.desc.lower ∧
      ¬ (batch.desc.upper = batch.desc.lower ∧ (!batch.isEmpty) = true) ∧
      c.trace.upper = batch.desc.lower ∧
      token ≠ (c.writerEntry writerId heartbeatTimestampMs leaseDurationMs).mostRecentWriteToken ∧
      (c.writerEntry writerId heartbeatTimestampMs leaseDurationMs).mostRecentWriteUpper ≤
        batch.desc.upper ∧
      ∃ t₁ reqs₁, ((batch.desc.lower ≠ batch.desc.upper ∧ c.trace.pushBatch batch = some (t₁, reqs₁)) ∨
          (batch.desc.lower = batch.desc.upper ∧ t₁ = c.trace ∧ reqs₁ = [])) ∧
        reqs = (if (reqs₁.all fun req => req.inputs.all (·.batch.isEmpty)) && !batch.isEmpty then
            reqs₁ ++ (t₁.fueledMergeReqsBeforeMs f (heartbeatTimestampMs - leaseDurationMs)
              minVersion).take (claimPercent / 100 +
                if f.hashed token % 100 < claimPercent % 100 then 1 else 0)
          else reqs₁) ∧
        c' = { c with
          trace := reqs.foldl (fun t req => t.claimCompaction req.id ⟨heartbeatTimestampMs⟩) t₁,
          writers := (c.writers.insert writerId
            { c.writerEntry writerId heartbeatTimestampMs leaseDurationMs with
              mostRecentWriteToken := token, mostRecentWriteUpper := batch.desc.upper,
              lastHeartbeatTimestampMs := max heartbeatTimestampMs
                (c.writerEntry writerId heartbeatTimestampMs leaseDurationMs).lastHeartbeatTimestampMs
            }).2 } := by
  unfold compareAndAppend at h
  dsimp only at h
  by_cases htomb : c.isTombstone = true
  · rw [if_pos htomb] at h; cases h
  rw [if_neg htomb] at h
  by_cases hbounds : batch.desc.upper < batch.desc.lower
  · rw [if_pos hbounds] at h; cases h
  rw [if_neg hbounds] at h
  by_cases hempty : batch.desc.upper = batch.desc.lower ∧ (!batch.isEmpty) = true
  · rw [if_pos hempty] at h; cases h
  rw [if_neg hempty] at h
  by_cases htoken :
      token = (c.writerEntry writerId heartbeatTimestampMs leaseDurationMs).mostRecentWriteToken
  · -- a retry of the writer's last append never continues
    rw [if_pos htoken] at h
    split_ifs at h
    cases h
  rw [if_neg htoken] at h
  by_cases hupper : c.trace.upper ≠ batch.desc.lower
  · rw [if_pos hupper] at h; cases h
  rw [if_neg hupper] at h
  split at h
  · cases h
  obtain ⟨⟨t₁, reqs₁⟩, hpush, h⟩ := Option.bind_eq_some_iff.1 h
  by_cases hwriter :
      ¬ (c.writerEntry writerId heartbeatTimestampMs leaseDurationMs).mostRecentWriteUpper ≤
        batch.desc.upper
  · rw [if_pos hwriter] at h; cases h
  rw [if_neg hwriter] at h
  obtain ⟨rfl, rfl⟩ := Prod.mk.inj (Except.ok.inj (Option.some.inj h))
  refine ⟨by simpa using htomb, hbounds, hempty, not_not.1 hupper, htoken, not_not.1 hwriter, t₁,
    reqs₁, ?_, rfl, rfl⟩
  by_cases hne : batch.desc.upper ≠ batch.desc.lower
  · rw [if_pos hne] at hpush
    exact .inl ⟨Ne.symm hne, hpush⟩
  · rw [if_neg hne] at hpush
    obtain ⟨ht, hreqs⟩ := Prod.mk.inj (Option.some.inj hpush)
    exact .inr ⟨(not_not.1 hne).symm, ht.symm, hreqs.symm⟩

theorem downgradeSince_eq {readerId : LeasedReaderId}
    {seqno outstandingSeqno heartbeatTimestampMs : Nat} {newSince r : A}
    (h : c.downgradeSince readerId seqno outstandingSeqno newSince heartbeatTimestampMs =
      some (.ok (r, c'))) :
    c.isTombstone = false ∧ ∃ rs, c.leasedReaders.get? readerId = some rs ∧
      rs.seqno ≤ outstandingSeqno ∧
      ((rs.since < newSince ∧ c' = ({ c with leasedReaders := (c.leasedReaders.insert readerId
          ⟨min outstandingSeqno seqno, newSince,
            max heartbeatTimestampMs rs.lastHeartbeatTimestampMs, rs.leaseDurationMs⟩).2 } :
            StateCollections A P M).updateSince) ∨
        (¬ rs.since < newSince ∧ c' = { c with leasedReaders := (c.leasedReaders.insert readerId
          ⟨min outstandingSeqno seqno, rs.since,
            max heartbeatTimestampMs rs.lastHeartbeatTimestampMs, rs.leaseDurationMs⟩).2 })) := by
  unfold downgradeSince at h
  by_cases htomb : c.isTombstone = true
  · rw [if_pos htomb] at h; cases h
  rw [if_neg htomb] at h
  refine ⟨by simpa using htomb, ?_⟩
  cases hr : c.leasedReaders.get? readerId with
  | none => rw [hr] at h; cases h
  | some rs =>
    rw [hr] at h
    dsimp only at h
    by_cases hseq : outstandingSeqno < rs.seqno
    · rw [if_pos hseq] at h; cases h
    rw [if_neg hseq] at h
    refine ⟨rs, rfl, not_lt.1 hseq, ?_⟩
    by_cases hlt : rs.since < newSince
    · rw [if_pos hlt] at h
      exact .inl ⟨hlt, (Prod.mk.inj (Except.ok.inj (Option.some.inj h))).2.symm⟩
    · rw [if_neg hlt] at h
      exact .inr ⟨hlt, (Prod.mk.inj (Except.ok.inj (Option.some.inj h))).2.symm⟩

theorem compareAndDowngradeSince_eq {readerId : CriticalReaderId}
    {expectedOpaque newOpaque : Opaque} {newSince : A} {r : Except (Opaque × A) A}
    (h : c.compareAndDowngradeSince readerId expectedOpaque newOpaque newSince =
      some (.ok (r, c'))) :
    c.isTombstone = false ∧ ∃ rs, c.criticalReaders.get? readerId = some rs ∧
      ((rs.readerOpaque ≠ expectedOpaque ∧ c' = c) ∨
        (rs.readerOpaque = expectedOpaque ∧ rs.since ≤ newSince ∧ c' = ({ c with criticalReaders :=
          (c.criticalReaders.insert readerId ⟨newSince, newOpaque⟩).2 } :
            StateCollections A P M).updateSince) ∨
        (rs.readerOpaque = expectedOpaque ∧ ¬ rs.since ≤ newSince ∧ c' = { c with criticalReaders :=
          (c.criticalReaders.insert readerId ⟨rs.since, newOpaque⟩).2 })) := by
  unfold compareAndDowngradeSince at h
  by_cases htomb : c.isTombstone = true
  · rw [if_pos htomb] at h; cases h
  rw [if_neg htomb] at h
  refine ⟨by simpa using htomb, ?_⟩
  obtain ⟨rs, hrs, h⟩ := Option.map_eq_some_iff.1 h
  refine ⟨rs, hrs, ?_⟩
  by_cases hop : rs.readerOpaque ≠ expectedOpaque
  · rw [if_pos hop] at h
    exact .inl ⟨hop, (Prod.mk.inj (Except.ok.inj h)).2.symm⟩
  rw [if_neg hop] at h
  dsimp only at h
  by_cases hle : rs.since ≤ newSince
  · rw [if_pos hle] at h
    exact .inr (.inl ⟨not_not.1 hop, hle, (Prod.mk.inj (Except.ok.inj h)).2.symm⟩)
  · rw [if_neg hle] at h
    exact .inr (.inr ⟨not_not.1 hop, hle, (Prod.mk.inj (Except.ok.inj h)).2.symm⟩)

theorem expireLeasedReader_eq {readerId : LeasedReaderId} {existed : Bool}
    (h : c.expireLeasedReader readerId = .ok (existed, c')) :
    c.isTombstone = false ∧ c' = { c with leasedReaders := (c.leasedReaders.remove readerId).2 } := by
  cases htomb : c.isTombstone with
  | true => simp [expireLeasedReader, htomb] at h
  | false =>
    simp only [expireLeasedReader, expireIn, htomb, Bool.false_eq_true, if_false, Except.ok.injEq,
      Prod.mk.injEq] at h
    exact ⟨rfl, h.2.symm⟩

theorem expireCriticalReader_eq {readerId : CriticalReaderId} {existed : Bool}
    (h : c.expireCriticalReader readerId = .ok (existed, c')) :
    c.isTombstone = false ∧
      c' = { c with criticalReaders := (c.criticalReaders.remove readerId).2 } := by
  cases htomb : c.isTombstone with
  | true => simp [expireCriticalReader, htomb] at h
  | false =>
    simp only [expireCriticalReader, expireIn, htomb, Bool.false_eq_true, if_false,
      Except.ok.injEq, Prod.mk.injEq] at h
    exact ⟨rfl, h.2.symm⟩

theorem expireWriter_eq {writerId : WriterId} {existed : Bool}
    (h : c.expireWriter writerId = .ok (existed, c')) :
    c.isTombstone = false ∧ c' = { c with writers := (c.writers.remove writerId).2 } := by
  cases htomb : c.isTombstone with
  | true => simp [expireWriter, htomb] at h
  | false =>
    simp only [expireWriter, expireIn, htomb, Bool.false_eq_true, if_false, Except.ok.injEq,
      Prod.mk.injEq] at h
    exact ⟨rfl, h.2.symm⟩

theorem applyMergeRes_eq {D : Type} [AddMonoid D] [DecidableEq D] {f : RunFields P M D}
    {res : FueledMergeRes A P M} {r : ApplyMergeResult}
    (h : c.applyMergeRes f res = some (.ok (r, c'))) :
    c.isTombstone = false ∧ ∃ t', c.trace.applyMergeResChecked f res = some (t', r) ∧
      c' = { c with trace := t' } := by
  unfold applyMergeRes at h
  by_cases htomb : c.isTombstone = true
  · rw [if_pos htomb] at h; cases h
  rw [if_neg htomb] at h
  obtain ⟨⟨t', r'⟩, hres, h⟩ := Option.map_eq_some_iff.1 h
  obtain ⟨rfl, rfl⟩ := Prod.mk.inj (Except.ok.inj h)
  exact ⟨by simpa using htomb, t', hres, rfl⟩

theorem becomeTombstoneAndShrink_eq (h : c.becomeTombstoneAndShrink = some (.ok ((), c'))) :
    c.trace.upper = ⊤ ∧ c.trace.since = ⊤ ∧ ∃ t', c' = { c with
        writers := .empty, leasedReaders := .empty, criticalReaders := .empty, trace := t' } ∧
      ((∃ desc, t' = (c.trace.applyTombstoneMerge desc).1) ∨
        (∃ reqs, (Trace.default.downgradeSince ⊤).pushBatch tombstoneBatch = some (t', reqs)) ∨
        t' = c.trace) := by
  unfold becomeTombstoneAndShrink at h
  by_cases hup : c.trace.upper ≠ ⊤
  · rw [if_pos hup] at h; cases h
  rw [if_neg hup] at h
  by_cases hsince : c.trace.since ≠ ⊤
  · rw [if_pos hsince] at h; cases h
  rw [if_neg hsince] at h
  refine ⟨not_not.1 hup, not_not.1 hsince, ?_⟩
  dsimp only at h
  split at h
  · -- the first batch with parts becomes an empty one
    next b _ =>
    split at h
    · cases h
    exact ⟨_, (Prod.mk.inj (Except.ok.inj (Option.some.inj h))).2.symm, .inl ⟨b.desc, rfl⟩⟩
  · split at h
    · -- several empty batches become the single tombstone batch
      obtain ⟨⟨t', reqs⟩, hpush, h⟩ := Option.bind_eq_some_iff.1 h
      split at h
      · cases h
      exact ⟨t', (Prod.mk.inj (Except.ok.inj (Option.some.inj h))).2.symm, .inr (.inl ⟨reqs, hpush⟩)⟩
    · split at h
      · exact ⟨c.trace, (Prod.mk.inj (Except.ok.inj (Option.some.inj h))).2.symm, .inr (.inr rfl)⟩
      · cases h

end Specs

section LinearSpecs
variable [LinearOrder A] {c c' : StateCollections A P M}

theorem spineExert_eq {fuel : Nat} {reqs : List (FueledMergeReq A P M)}
    (h : c.spineExert fuel = some (.ok (reqs, c'))) :
    ∃ t', c.trace.exert fuel = some (t', reqs, true) ∧ c' = { c with trace := t' } := by
  unfold spineExert at h
  obtain ⟨⟨t', reqs', didWork⟩, hexert, h⟩ := Option.bind_eq_some_iff.1 h
  cases didWork with
  | true =>
    obtain ⟨rfl, rfl⟩ := Prod.mk.inj (Except.ok.inj (Option.some.inj h))
    exact ⟨t', hexert, rfl⟩
  | false =>
    simp only [Bool.false_eq_true, if_false] at h
    split at h <;> cases h

theorem updateSince_eq (c : StateCollections A P M) :
    (c.readerSinces = [] ∧ c.updateSince = c) ∨
      ∃ since sinces, c.readerSinces = since :: sinces ∧
        c.updateSince = { c with trace := c.trace.downgradeSince (sinces.foldl (· ⊓ ·) since) } := by
  unfold updateSince
  split
  · next h => exact .inl ⟨h, rfl⟩
  · next since sinces h => exact .inr ⟨since, sinces, h, rfl⟩

end LinearSpecs

/-! ## The invariant of the collections -/

section Holds

theorem seqnoSince_eq (c : StateCollections A P M) (seqno : Nat) :
    c.seqnoSince seqno = (c.leasedReaders.values.map (·.seqno)).foldl (· ⊓ ·) seqno := by
  rw [seqnoSince, List.foldl_map]

theorem seqnoSince_le_seqno (c : StateCollections A P M) (seqno : Nat) :
    c.seqnoSince seqno ≤ seqno := by
  rw [seqnoSince_eq]
  exact foldl_inf_le List.mem_cons_self

theorem seqnoSince_le_reader {c : StateCollections A P M} {r : LeasedReaderState A}
    (hr : r ∈ c.leasedReaders.values) (seqno : Nat) : c.seqnoSince seqno ≤ r.seqno := by
  rw [seqnoSince_eq]
  exact foldl_inf_le (List.mem_cons_of_mem _ (List.mem_map_of_mem hr))

theorem le_seqnoSince {c : StateCollections A P M} {a seqno : Nat} (hs : a ≤ seqno)
    (hr : ∀ r ∈ c.leasedReaders.values, a ≤ r.seqno) : a ≤ c.seqnoSince seqno := by
  rw [seqnoSince_eq]
  refine le_foldl_inf fun x hx => ?_
  rcases List.mem_cons.1 hx with rfl | hx
  · exact hs
  · obtain ⟨r, hr', rfl⟩ := List.mem_map.1 hx
    exact hr r hr'

end Holds

section Advances
variable [LinearOrder A] {c c' : StateCollections A P M}

/-- From one state's collections to the next: the trace's since and upper and the last gc request
only advance. -/
structure Advances (c c' : StateCollections A P M) : Prop where
  since_le : c.trace.since ≤ c'.trace.since
  upper_le : c.trace.upper ≤ c'.trace.upper
  lastGcReq_le : c.lastGcReq ≤ c'.lastGcReq

theorem Advances.of_eq (htrace : c'.trace = c.trace) (hgc : c'.lastGcReq = c.lastGcReq) :
    c.Advances c' :=
  ⟨by rw [htrace], by rw [htrace], by rw [hgc]⟩

/-- Collections with the trace and the gc request of `c'` advance as `c'` does. -/
theorem Advances.congr_left {c₀ c'' : StateCollections A P M} (h : c'.Advances c'')
    (htrace : c'.trace = c₀.trace) (hgc : c'.lastGcReq = c₀.lastGcReq) : c₀.Advances c'' :=
  ⟨htrace ▸ h.since_le, htrace ▸ h.upper_le, hgc ▸ h.lastGcReq_le⟩

theorem Advances.trans {c'' : StateCollections A P M} (h₁ : c.Advances c') (h₂ : c'.Advances c'') :
    c.Advances c'' :=
  ⟨h₁.since_le.trans h₂.since_le, h₁.upper_le.trans h₂.upper_le,
    h₁.lastGcReq_le.trans h₂.lastGcReq_le⟩

end Advances

section Inv
variable [LinearOrder A] [BoundedOrder A] {c c' : StateCollections A P M} {seqno : Nat}

/-- What the collections of every reachable state keep, at the state's sequence number `seqno`. -/
structure Inv (seqno : Nat) (c : StateCollections A P M) : Prop where
  /-- Every leased reader's since is at or past the trace's. -/
  leased_since : ∀ r ∈ c.leasedReaders.values, c.trace.since ≤ r.since
  /-- Every critical reader's since is at or past the trace's. -/
  critical_since : ∀ r ∈ c.criticalReaders.values, c.trace.since ≤ r.since
  /-- No writer's last upper is past the trace's. -/
  writer_upper : ∀ w ∈ c.writers.values, w.mostRecentWriteUpper ≤ c.trace.upper
  /-- Garbage collection was never asked past the state's sequence number, -/
  gc_le_seqno : c.lastGcReq ≤ seqno
  /-- nor past a leased reader's hold. -/
  gc_le_reader : ∀ r ∈ c.leasedReaders.values, c.lastGcReq ≤ r.seqno
  /-- The trace is one that trace operations reach from the empty trace. -/
  trace : c.trace.ReachableAny

theorem Inv.mono {n : Nat} (h : c.Inv n) (hle : n ≤ seqno) : c.Inv seqno :=
  { h with gc_le_seqno := h.gc_le_seqno.trans hle }

theorem Inv.gc_le_seqnoSince (h : c.Inv seqno) : c.lastGcReq ≤ c.seqnoSince seqno :=
  le_seqnoSince h.gc_le_seqno h.gc_le_reader

/-- The readers' sinces are all at or past the trace's. -/
theorem Inv.le_readerSinces (h : c.Inv seqno) {x : A} (hx : x ∈ c.readerSinces) :
    c.trace.since ≤ x := by
  rcases List.mem_append.1 hx with hx | hx
  · obtain ⟨r, hr, rfl⟩ := List.mem_map.1 hx
    exact h.leased_since r hr
  · obtain ⟨r, hr, rfl⟩ := List.mem_map.1 hx
    exact h.critical_since r hr

/-- The critical readers' meet, where `register_leased_reader` may start a reader, is at or past
the trace's since. -/
theorem Inv.le_criticalSince (h : c.Inv seqno) :
    c.trace.since ≤ c.criticalSince.getD c.trace.since := by
  unfold criticalSince
  split
  · exact le_rfl
  · next since sinces hs =>
    refine le_foldl_inf fun x hx => ?_
    rw [← hs] at hx
    obtain ⟨r, hr, rfl⟩ := List.mem_map.1 hx
    exact h.critical_since r hr

/-- Collections with the trace and the gc request of invariant ones, and only readers and writers
those had, keep the invariant. -/
theorem Inv.of_subset (h : c.Inv seqno) (htrace : c'.trace = c.trace)
    (hgc : c'.lastGcReq = c.lastGcReq)
    (hleased : ∀ r ∈ c'.leasedReaders.values, r ∈ c.leasedReaders.values)
    (hcritical : ∀ r ∈ c'.criticalReaders.values, r ∈ c.criticalReaders.values)
    (hwriters : ∀ w ∈ c'.writers.values, w ∈ c.writers.values) : c'.Inv seqno where
  leased_since r hr := htrace ▸ h.leased_since r (hleased r hr)
  critical_since r hr := htrace ▸ h.critical_since r (hcritical r hr)
  writer_upper w hw := htrace ▸ h.writer_upper w (hwriters w hw)
  gc_le_seqno := hgc ▸ h.gc_le_seqno
  gc_le_reader r hr := hgc ▸ h.gc_le_reader r (hleased r hr)
  trace := htrace ▸ h.trace

/-- A new trace with the same frontiers keeps the invariant. -/
theorem Inv.of_trace {t : Trace A P M} (h : c.Inv seqno) (hup : t.upper = c.trace.upper)
    (hsince : t.since = c.trace.since) (hr : t.ReachableAny) :
    { c with trace := t }.Inv seqno ∧ c.Advances { c with trace := t } :=
  ⟨⟨fun r hr' => hsince.trans_le (h.leased_since r hr'),
      fun r hr' => hsince.trans_le (h.critical_since r hr'),
      fun w hw => (h.writer_upper w hw).trans_eq hup.symm, h.gc_le_seqno, h.gc_le_reader, hr⟩,
    ⟨hsince.ge, hup.ge, le_rfl⟩⟩

theorem Inv.insertLeased (h : c.Inv seqno) (readerId : LeasedReaderId) (r : LeasedReaderState A)
    (hsince : c.trace.since ≤ r.since) (hseqno : c.lastGcReq ≤ r.seqno) :
    { c with leasedReaders := (c.leasedReaders.insert readerId r).2 }.Inv seqno where
  leased_since x hx := by
    rcases SortedMap.mem_values_insert hx with rfl | hx
    · exact hsince
    · exact h.leased_since x hx
  critical_since := h.critical_since
  writer_upper := h.writer_upper
  gc_le_seqno := h.gc_le_seqno
  gc_le_reader x hx := by
    rcases SortedMap.mem_values_insert hx with rfl | hx
    · exact hseqno
    · exact h.gc_le_reader x hx
  trace := h.trace

theorem Inv.insertCritical (h : c.Inv seqno) (readerId : CriticalReaderId)
    (r : CriticalReaderState A) (hsince : c.trace.since ≤ r.since) :
    { c with criticalReaders := (c.criticalReaders.insert readerId r).2 }.Inv seqno where
  leased_since := h.leased_since
  critical_since x hx := by
    rcases SortedMap.mem_values_insert hx with rfl | hx
    · exact hsince
    · exact h.critical_since x hx
  writer_upper := h.writer_upper
  gc_le_seqno := h.gc_le_seqno
  gc_le_reader := h.gc_le_reader
  trace := h.trace

/-- `update_since` leaves the trace, or moves its since to a frontier at or past it and at or
before every reader's. -/
theorem Inv.updateSince_trace (h : c.Inv seqno) :
    c.updateSince = c ∨ ∃ since, c.trace.since ≤ since ∧ (∀ x ∈ c.readerSinces, since ≤ x) ∧
      c.updateSince = { c with trace := c.trace.downgradeSince since } := by
  rcases updateSince_eq c with ⟨-, heq⟩ | ⟨since, sinces, hs, heq⟩
  · exact .inl heq
  · refine .inr ⟨_, le_foldl_inf fun x hx => h.le_readerSinces (hs ▸ hx), fun x hx => ?_, heq⟩
    exact foldl_inf_le (hs ▸ hx)

theorem Inv.updateSince (h : c.Inv seqno) : c.updateSince.Inv seqno ∧ c.Advances c.updateSince := by
  rcases h.updateSince_trace with heq | ⟨since, hle, hreaders, heq⟩
  · rw [heq]
    exact ⟨h, .of_eq rfl rfl⟩
  · rw [heq]
    refine ⟨⟨fun r hr => hreaders _ (List.mem_append_left _ (List.mem_map_of_mem hr)),
      fun r hr => hreaders _ (List.mem_append_right _ (List.mem_map_of_mem hr)),
      h.writer_upper, h.gc_le_seqno, h.gc_le_reader, .step h.trace ⟨.downgradeSince since, rfl⟩⟩,
      ⟨hle, le_rfl, le_rfl⟩⟩

/-! ### Each command keeps the invariant -/

theorem Inv.registerLeasedReader (h : c.Inv seqno) {readerId : LeasedReaderId}
    {leaseDurationMs heartbeatTimestampMs : Nat} {useCriticalSince : Bool}
    {r : LeasedReaderState A × Nat}
    (hreg : c.registerLeasedReader readerId seqno leaseDurationMs heartbeatTimestampMs
      useCriticalSince = .ok (r, c')) : c'.Inv seqno ∧ c.Advances c' := by
  obtain ⟨-, rfl⟩ := registerLeasedReader_eq hreg
  -- the reader starts at the trace's since or at the critical readers' meet, past it
  have hsince : c.trace.since ≤
      if useCriticalSince then c.criticalSince.getD c.trace.since else c.trace.since := by
    split
    · exact h.le_criticalSince
    · exact le_rfl
  exact ⟨h.insertLeased _ _ hsince h.gc_le_seqno, .of_eq rfl rfl⟩

theorem Inv.registerCriticalReader (h : c.Inv seqno) {readerId : CriticalReaderId}
    {readerOpaque : Opaque} {r : CriticalReaderState A}
    (hreg : c.registerCriticalReader readerId readerOpaque = .ok (r, c')) :
    c'.Inv seqno ∧ c.Advances c' := by
  obtain ⟨-, rfl | rfl⟩ := registerCriticalReader_eq hreg
  · exact ⟨h, .of_eq rfl rfl⟩
  · exact ⟨h.insertCritical _ _ le_rfl, .of_eq rfl rfl⟩

theorem Inv.compareAndAppend (h : c.Inv seqno) {f : StateFields P} {batch : HollowBatch A P M}
    {writerId : WriterId} {heartbeatTimestampMs leaseDurationMs : Nat} {token : IdempotencyToken}
    {inlineMax claimPercent : Nat} {minVersion : Option Nat} {reqs : List (FueledMergeReq A P M)}
    (hcaa : c.compareAndAppend f batch writerId heartbeatTimestampMs leaseDurationMs token inlineMax
      claimPercent minVersion = some (.ok (reqs, c'))) : c'.Inv seqno ∧ c.Advances c' := by
  obtain ⟨-, hbounds, -, hlower, -, -, t₁, reqs₁, ht₁, -, rfl⟩ := compareAndAppend_eq hcaa
  -- the batch is pushed, moving the upper to its own, or spans nothing and is not
  have ht₁' : t₁.upper = batch.desc.upper ∧ t₁.since = c.trace.since ∧ t₁.ReachableAny := by
    rcases ht₁ with ⟨-, hpush⟩ | ⟨heq, rfl, -⟩
    · obtain ⟨hup, hsince⟩ := Trace.pushBatch_frontiers hpush (Trace.invFor_of_reachableAny h.trace)
      exact ⟨hup, hsince, .step h.trace ⟨.pushBatch batch, by simp [Trace.apply, hpush]⟩⟩
    · exact ⟨hlower.trans heq, rfl, h.trace⟩
  obtain ⟨hup₁, hsince₁, hr₁⟩ := ht₁'
  obtain ⟨hup₂, hsince₂⟩ := Trace.claims_frontiers heartbeatTimestampMs reqs t₁
  have hup := hup₂.trans hup₁
  have hsince := hsince₂.trans hsince₁
  have hle : c.trace.upper ≤ batch.desc.upper := hlower ▸ not_lt.1 hbounds
  refine ⟨⟨fun r hr => hsince.trans_le (h.leased_since r hr),
    fun r hr => hsince.trans_le (h.critical_since r hr), fun w hw => ?_, h.gc_le_seqno,
    h.gc_le_reader, Trace.claims_preserve (fun t id c ht => .step ht ⟨.claimCompaction id c, rfl⟩)
      heartbeatTimestampMs reqs t₁ hr₁⟩, ⟨hsince.ge, hle.trans_eq hup.symm, le_rfl⟩⟩
  -- the writer's entry moves to the batch's upper, the trace's new upper; the others are behind
  rcases SortedMap.mem_values_insert hw with rfl | hw
  · exact hup.ge
  · exact (h.writer_upper w hw).trans (hle.trans_eq hup.symm)

/-- Collections that keep the invariant, with the trace and gc request of `c`, and then maybe an
`update_since`: what the two downgrades do. -/
theorem Inv.of_maybeUpdateSince {c₁ : StateCollections A P M} (h₁ : c₁.Inv seqno)
    (htrace : c₁.trace = c.trace) (hgc : c₁.lastGcReq = c.lastGcReq)
    (hc : c' = c₁ ∨ c' = c₁.updateSince) : c'.Inv seqno ∧ c.Advances c' := by
  rcases hc with rfl | rfl
  · exact ⟨h₁, .of_eq htrace hgc⟩
  · exact ⟨h₁.updateSince.1, h₁.updateSince.2.congr_left htrace hgc⟩

/-- `downgrade_since` records the reader's new state, at or past its old since and hold, then
updates the trace's since if the reader's advanced. -/
theorem Inv.downgradeSince_cases (h : c.Inv seqno) {readerId : LeasedReaderId}
    {outstandingSeqno heartbeatTimestampMs : Nat} {newSince r : A}
    (hd : c.downgradeSince readerId seqno outstandingSeqno newSince heartbeatTimestampMs =
      some (.ok (r, c'))) :
    ∃ c₁ : StateCollections A P M, c₁.Inv seqno ∧ c₁.trace = c.trace ∧
      c₁.lastGcReq = c.lastGcReq ∧ (c' = c₁ ∨ c' = c₁.updateSince) := by
  obtain ⟨-, rs, hrs, hout, hcase⟩ := downgradeSince_eq hd
  have hmem := SortedMap.mem_values_of_get? hrs
  -- the reader's new hold is past the last gc request: its old hold was, and so is `seqno`
  have hseqno : c.lastGcReq ≤ min outstandingSeqno seqno :=
    le_min ((h.gc_le_reader rs hmem).trans hout) h.gc_le_seqno
  rcases hcase with ⟨hlt, rfl⟩ | ⟨-, rfl⟩
  · exact ⟨_, h.insertLeased readerId _ ((h.leased_since rs hmem).trans hlt.le) hseqno, rfl, rfl,
      .inr rfl⟩
  · exact ⟨_, h.insertLeased readerId ⟨min outstandingSeqno seqno, rs.since,
      max heartbeatTimestampMs rs.lastHeartbeatTimestampMs, rs.leaseDurationMs⟩
      (h.leased_since rs hmem) hseqno, rfl, rfl, .inl rfl⟩

theorem Inv.downgradeSince (h : c.Inv seqno) {readerId : LeasedReaderId}
    {outstandingSeqno heartbeatTimestampMs : Nat} {newSince r : A}
    (hd : c.downgradeSince readerId seqno outstandingSeqno newSince heartbeatTimestampMs =
      some (.ok (r, c'))) : c'.Inv seqno ∧ c.Advances c' := by
  obtain ⟨c₁, h₁, htrace, hgc, hc⟩ := h.downgradeSince_cases hd
  exact h₁.of_maybeUpdateSince htrace hgc hc

/-- `compare_and_downgrade_since` leaves the collections, or records the reader's new state, at or
past its old since, then updates the trace's since if the reader's moved. -/
theorem Inv.compareAndDowngradeSince_cases (h : c.Inv seqno) {readerId : CriticalReaderId}
    {expectedOpaque newOpaque : Opaque} {newSince : A} {r : Except (Opaque × A) A}
    (hd : c.compareAndDowngradeSince readerId expectedOpaque newOpaque newSince =
      some (.ok (r, c'))) :
    ∃ c₁ : StateCollections A P M, c₁.Inv seqno ∧ c₁.trace = c.trace ∧
      c₁.lastGcReq = c.lastGcReq ∧ (c' = c₁ ∨ c' = c₁.updateSince) := by
  obtain ⟨-, rs, hrs, hcase⟩ := compareAndDowngradeSince_eq hd
  have hsince := h.critical_since rs (SortedMap.mem_values_of_get? hrs)
  rcases hcase with ⟨-, rfl⟩ | ⟨-, hle, rfl⟩ | ⟨-, -, rfl⟩
  · exact ⟨_, h, rfl, rfl, .inl rfl⟩
  · exact ⟨_, h.insertCritical readerId _ (hsince.trans hle), rfl, rfl, .inr rfl⟩
  · exact ⟨_, h.insertCritical readerId ⟨rs.since, newOpaque⟩ hsince, rfl, rfl, .inl rfl⟩

theorem Inv.compareAndDowngradeSince (h : c.Inv seqno) {readerId : CriticalReaderId}
    {expectedOpaque newOpaque : Opaque} {newSince : A} {r : Except (Opaque × A) A}
    (hd : c.compareAndDowngradeSince readerId expectedOpaque newOpaque newSince =
      some (.ok (r, c'))) : c'.Inv seqno ∧ c.Advances c' := by
  obtain ⟨c₁, h₁, htrace, hgc, hc⟩ := h.compareAndDowngradeSince_cases hd
  exact h₁.of_maybeUpdateSince htrace hgc hc

theorem Inv.expireLeasedReader (h : c.Inv seqno) {readerId : LeasedReaderId} {existed : Bool}
    (he : c.expireLeasedReader readerId = .ok (existed, c')) : c'.Inv seqno ∧ c.Advances c' := by
  obtain ⟨-, rfl⟩ := expireLeasedReader_eq he
  exact ⟨h.of_subset rfl rfl (fun _ hr => SortedMap.mem_values_remove hr) (fun _ hr => hr)
    (fun _ hw => hw), .of_eq rfl rfl⟩

theorem Inv.expireCriticalReader (h : c.Inv seqno) {readerId : CriticalReaderId} {existed : Bool}
    (he : c.expireCriticalReader readerId = .ok (existed, c')) : c'.Inv seqno ∧ c.Advances c' := by
  obtain ⟨-, rfl⟩ := expireCriticalReader_eq he
  exact ⟨h.of_subset rfl rfl (fun _ hr => hr) (fun _ hr => SortedMap.mem_values_remove hr)
    (fun _ hw => hw), .of_eq rfl rfl⟩

theorem Inv.expireWriter (h : c.Inv seqno) {writerId : WriterId} {existed : Bool}
    (he : c.expireWriter writerId = .ok (existed, c')) : c'.Inv seqno ∧ c.Advances c' := by
  obtain ⟨-, rfl⟩ := expireWriter_eq he
  exact ⟨h.of_subset rfl rfl (fun _ hr => hr) (fun _ hr => hr)
    (fun _ hw => SortedMap.mem_values_remove hw), .of_eq rfl rfl⟩

theorem Inv.applyMergeRes (h : c.Inv seqno) {D : Type} [AddMonoid D] [DecidableEq D]
    {f : RunFields P M D} {res : FueledMergeRes A P M} {r : ApplyMergeResult}
    (hres : c.applyMergeRes f res = some (.ok (r, c'))) : c'.Inv seqno ∧ c.Advances c' := by
  obtain ⟨-, t', ht', rfl⟩ := applyMergeRes_eq hres
  obtain ⟨hup, hsince⟩ := Trace.applyMergeResChecked_frontiers ht'
  exact h.of_trace hup hsince
    (.step h.trace ⟨.applyMergeResChecked D f res, by simp [Trace.apply, ht']⟩)

theorem Inv.spineExert (h : c.Inv seqno) {fuel : Nat} {reqs : List (FueledMergeReq A P M)}
    (hexert : c.spineExert fuel = some (.ok (reqs, c'))) : c'.Inv seqno ∧ c.Advances c' := by
  obtain ⟨t', ht', rfl⟩ := spineExert_eq hexert
  obtain ⟨hup, hsince⟩ := Trace.exert_frontiers ht' (Trace.invFor_of_reachableAny h.trace)
  exact h.of_trace hup hsince (.step h.trace ⟨.exert fuel, by simp [Trace.apply, ht']⟩)

/-- The trace `become_tombstone_and_shrink` builds afresh is one trace operations reach. -/
theorem tombstone_reachable {t : Trace A P M} {reqs : List (FueledMergeReq A P M)}
    (hpush : (Trace.default.downgradeSince ⊤).pushBatch tombstoneBatch = some (t, reqs)) :
    t.Reachable := by
  have hdown : (Trace.default.downgradeSince ⊤ : Trace A P M).Reachable :=
    .step (.init rfl) ⟨.downgradeSince ⊤, le_top, rfl⟩
  obtain ⟨hlower, hne⟩ := Trace.pushBatch_desc hpush
  exact .step hdown ⟨.pushBatch tombstoneBatch, ⟨hlower, hne, le_rfl⟩, by simp [Trace.apply, hpush]⟩

theorem Inv.becomeTombstoneAndShrink (h : c.Inv seqno)
    (ht : c.becomeTombstoneAndShrink = some (.ok ((), c'))) : c'.Inv seqno ∧ c.Advances c' := by
  obtain ⟨hup, hsince, t', rfl, ht'⟩ := becomeTombstoneAndShrink_eq ht
  -- the new trace is at the empty antichain both ways, as the old one was
  have : t'.upper = ⊤ ∧ t'.since = ⊤ ∧ t'.ReachableAny := by
    rcases ht' with ⟨desc, rfl⟩ | ⟨reqs, hpush⟩ | rfl
    · obtain ⟨hu, hs⟩ := c.trace.applyTombstoneMerge_frontiers desc
      exact ⟨hu.trans hup, hs.trans hsince, .step h.trace ⟨.applyTombstoneMerge desc, rfl⟩⟩
    · obtain ⟨hu, hs⟩ := Trace.pushBatch_frontiers hpush
        (Trace.downgradeSince_inv (Trace.default_invFor trivial) (fun _ h => h) trivial)
      exact ⟨hu, hs, (tombstone_reachable hpush).mono fun _ _ ⟨op, _, hop⟩ => ⟨op, hop⟩⟩
    · exact ⟨hup, hsince, h.trace⟩
  obtain ⟨hu', hs', hr'⟩ := this
  refine ⟨⟨by simp, by simp, by simp, h.gc_le_seqno, by simp, hr'⟩, ⟨?_, ?_, le_rfl⟩⟩
  · rw [hs']
    exact le_top
  · rw [hu']
    exact le_top

end Inv

/-! ### The trace stays one allowed operations reach -/

section Reach
variable [LinearOrder A] [BoundedOrder A] {c c' : StateCollections A P M} {seqno : Nat}

theorem Inv.updateSince_reachable (h : c.Inv seqno) (hr : c.trace.Reachable) :
    c.updateSince.trace.Reachable := by
  rcases h.updateSince_trace with heq | ⟨since, hle, -, heq⟩
  · rw [heq]
    exact hr
  · rw [heq]
    exact .step hr ⟨.downgradeSince since, hle, rfl⟩

theorem Inv.maybeUpdateSince_reachable {c₁ : StateCollections A P M} (h₁ : c₁.Inv seqno)
    (htrace : c₁.trace = c.trace) (hr : c.trace.Reachable) (hc : c' = c₁ ∨ c' = c₁.updateSince) :
    c'.trace.Reachable := by
  rcases hc with rfl | rfl
  · exact htrace ▸ hr
  · exact h₁.updateSince_reachable (htrace ▸ hr)

/-- An append at a since the trace has reached pushes its batch by an allowed operation. -/
theorem compareAndAppend_reachable {f : StateFields P} {batch : HollowBatch A P M}
    {writerId : WriterId} {heartbeatTimestampMs leaseDurationMs : Nat} {token : IdempotencyToken}
    {inlineMax claimPercent : Nat} {minVersion : Option Nat} {reqs : List (FueledMergeReq A P M)}
    (hbelow : batch.desc.since ≤ c.trace.since) (hr : c.trace.Reachable)
    (hcaa : c.compareAndAppend f batch writerId heartbeatTimestampMs leaseDurationMs token inlineMax
      claimPercent minVersion = some (.ok (reqs, c'))) : c'.trace.Reachable := by
  obtain ⟨-, -, -, -, -, -, t₁, reqs₁, ht₁, -, rfl⟩ := compareAndAppend_eq hcaa
  have hr₁ : t₁.Reachable := by
    rcases ht₁ with ⟨-, hpush⟩ | ⟨-, rfl, -⟩
    · obtain ⟨hlower, hne⟩ := Trace.pushBatch_desc hpush
      exact .step hr ⟨.pushBatch batch, ⟨hlower, hne, hbelow⟩, by simp [Trace.apply, hpush]⟩
    · exact hr
  exact Trace.claims_preserve (fun t id c ht => .step ht ⟨.claimCompaction id c, trivial, rfl⟩)
    heartbeatTimestampMs reqs t₁ hr₁

theorem becomeTombstoneAndShrink_reachable (hr : c.trace.Reachable)
    (ht : c.becomeTombstoneAndShrink = some (.ok ((), c'))) : c'.trace.Reachable := by
  obtain ⟨-, hsince, t', rfl, ht'⟩ := becomeTombstoneAndShrink_eq ht
  rcases ht' with ⟨desc, rfl⟩ | ⟨reqs, hpush⟩ | rfl
  · -- a tombstone is compacted at most to the trace's since, the empty antichain
    have hallowed : desc.since ≤ c.trace.since := hsince ▸ le_top
    exact .step hr ⟨.applyTombstoneMerge desc, hallowed, rfl⟩
  · exact tombstone_reachable hpush
  · exact hr

end Reach

end StateCollections

/-! ## Over whole runs -/

section Runs
variable [LinearOrder A] [BoundedOrder A] {f : StateFields P} {c c' : StateCollections A P M}
  {seqno : Nat}

/-- Every command that continues keeps the invariant and only advances the collections. -/
theorem Cmd.work_inv {cmd : Cmd A P M} (h : c.Inv seqno)
    (hw : cmd.work f seqno c = some (.ok ((), c'))) : c'.Inv seqno ∧ c.Advances c' := by
  cases cmd with
  | compareAndAppend batch writerId heartbeat lease token inlineMax claimPercent minVersion =>
    obtain ⟨r, hr⟩ := map_continued_eq_ok.1 hw
    exact h.compareAndAppend hr
  | registerLeasedReader readerId lease heartbeat useCriticalSince =>
    obtain ⟨r, hr⟩ := continued_eq_ok.1 (Option.some.inj hw)
    exact h.registerLeasedReader hr
  | registerCriticalReader readerId readerOpaque =>
    obtain ⟨r, hr⟩ := continued_eq_ok.1 (Option.some.inj hw)
    exact h.registerCriticalReader hr
  | downgradeSince readerId outstanding newSince heartbeat =>
    obtain ⟨r, hr⟩ := map_continued_eq_ok.1 hw
    exact h.downgradeSince hr
  | compareAndDowngradeSince readerId expected new newSince =>
    obtain ⟨r, hr⟩ := map_continued_eq_ok.1 hw
    exact h.compareAndDowngradeSince hr
  | expireLeasedReader readerId =>
    obtain ⟨r, hr⟩ := continued_eq_ok.1 (Option.some.inj hw)
    exact h.expireLeasedReader hr
  | expireCriticalReader readerId =>
    obtain ⟨r, hr⟩ := continued_eq_ok.1 (Option.some.inj hw)
    exact h.expireCriticalReader hr
  | expireWriter writerId =>
    obtain ⟨r, hr⟩ := continued_eq_ok.1 (Option.some.inj hw)
    exact h.expireWriter hr
  | applyMergeRes D g res =>
    obtain ⟨r, hr⟩ := map_continued_eq_ok.1 hw
    exact h.applyMergeRes hr
  | spineExert fuel =>
    obtain ⟨r, hr⟩ := map_continued_eq_ok.1 hw
    exact h.spineExert hr
  | becomeTombstoneAndShrink =>
    obtain ⟨r, hr⟩ := map_continued_eq_ok.1 hw
    exact h.becomeTombstoneAndShrink hr

/-- Every command that continues, with a batch appended at a since the trace has reached, keeps
the trace one that allowed operations reach. -/
theorem Cmd.work_reachable {cmd : Cmd A P M} (h : c.Inv seqno) (hbelow : cmd.AppendsBelowSince c)
    (hr : c.trace.Reachable) (hw : cmd.work f seqno c = some (.ok ((), c'))) :
    c'.trace.Reachable := by
  cases cmd with
  | compareAndAppend batch writerId heartbeat lease token inlineMax claimPercent minVersion =>
    obtain ⟨r, hcaa⟩ := map_continued_eq_ok.1 hw
    exact StateCollections.compareAndAppend_reachable hbelow hr hcaa
  | registerLeasedReader readerId lease heartbeat useCriticalSince =>
    obtain ⟨r, hreg⟩ := continued_eq_ok.1 (Option.some.inj hw)
    obtain ⟨-, rfl⟩ := StateCollections.registerLeasedReader_eq hreg
    exact hr
  | registerCriticalReader readerId readerOpaque =>
    obtain ⟨r, hreg⟩ := continued_eq_ok.1 (Option.some.inj hw)
    obtain ⟨-, rfl | rfl⟩ := StateCollections.registerCriticalReader_eq hreg <;> exact hr
  | downgradeSince readerId outstanding newSince heartbeat =>
    obtain ⟨r, hd⟩ := map_continued_eq_ok.1 hw
    obtain ⟨c₁, h₁, htrace, -, hc⟩ := h.downgradeSince_cases hd
    exact h₁.maybeUpdateSince_reachable htrace hr hc
  | compareAndDowngradeSince readerId expected new newSince =>
    obtain ⟨r, hd⟩ := map_continued_eq_ok.1 hw
    obtain ⟨c₁, h₁, htrace, -, hc⟩ := h.compareAndDowngradeSince_cases hd
    exact h₁.maybeUpdateSince_reachable htrace hr hc
  | expireLeasedReader readerId =>
    obtain ⟨r, he⟩ := continued_eq_ok.1 (Option.some.inj hw)
    obtain ⟨-, rfl⟩ := StateCollections.expireLeasedReader_eq he
    exact hr
  | expireCriticalReader readerId =>
    obtain ⟨r, he⟩ := continued_eq_ok.1 (Option.some.inj hw)
    obtain ⟨-, rfl⟩ := StateCollections.expireCriticalReader_eq he
    exact hr
  | expireWriter writerId =>
    obtain ⟨r, he⟩ := continued_eq_ok.1 (Option.some.inj hw)
    obtain ⟨-, rfl⟩ := StateCollections.expireWriter_eq he
    exact hr
  | applyMergeRes D g res =>
    obtain ⟨r, hres⟩ := map_continued_eq_ok.1 hw
    obtain ⟨-, t', ht', rfl⟩ := StateCollections.applyMergeRes_eq hres
    exact .step hr ⟨.applyMergeResChecked D g res, trivial, by simp [Trace.apply, ht']⟩
  | spineExert fuel =>
    obtain ⟨r, hexert⟩ := map_continued_eq_ok.1 hw
    obtain ⟨t', ht', rfl⟩ := StateCollections.spineExert_eq hexert
    exact .step hr ⟨.exert fuel, trivial, by simp [Trace.apply, ht']⟩
  | becomeTombstoneAndShrink =>
    obtain ⟨r, ht⟩ := map_continued_eq_ok.1 hw
    exact StateCollections.becomeTombstoneAndShrink_reachable hr ht

namespace State

variable {allowed : StateCollections A P M → Cmd A P M → Prop} {s s' : State A P M}

/-- `maybe_gc` leaves the state, or moves `last_gc_req` to the new sequence number since, but no
more than `max_versions` past where it was. -/
theorem maybeGc_eq (s : State A P M) (isWrite : Bool) (now : Nat) (cfg : GcConfig) :
    (s.maybeGc isWrite now cfg).2 = s ∨ (s.maybeGc isWrite now cfg).2 = { s with collections :=
      { s.collections with
        lastGcReq := min s.seqnoSince (s.collections.lastGcReq + cfg.maxVersions) } } := by
  unfold maybeGc
  split
  · exact .inr rfl
  · exact .inl rfl

/-- The invariant of a state: that of its collections, at its sequence number. -/
def Inv (s : State A P M) : Prop := s.collections.Inv s.seqno

theorem inv_new (walltimeMs : Nat) : (State.new walltimeMs : State A P M).Inv where
  leased_since r hr := by simp [State.new] at hr
  critical_since r hr := by simp [State.new] at hr
  writer_upper w hw := by simp [State.new] at hw
  gc_le_seqno := le_rfl
  gc_le_reader r hr := by simp [State.new] at hr
  trace := .init rfl

/-- A gc request between the last one and the sequence number since keeps the invariant. -/
theorem Inv.setLastGcReq (h : s.Inv) {gc : Nat} (hle : s.collections.lastGcReq ≤ gc)
    (hsince : gc ≤ s.seqnoSince) :
    State.Inv { s with collections := { s.collections with lastGcReq := gc } } ∧
      s.collections.Advances { s.collections with lastGcReq := gc } :=
  ⟨⟨h.leased_since, h.critical_since, h.writer_upper,
      hsince.trans (s.collections.seqnoSince_le_seqno s.seqno),
      fun _ hr => hsince.trans (StateCollections.seqnoSince_le_reader hr s.seqno), h.trace⟩,
    ⟨le_rfl, le_rfl, hle⟩⟩

/-- A command that continues through `clone_apply` keeps the invariant, at the next sequence
number, and only advances the collections. -/
theorem Inv.cloneApply (h : s.Inv) {cmd : Cmd A P M} {now : Nat}
    (hc : s.cloneApply now (cmd.work f) = some (.ok ((), s'))) :
    s'.Inv ∧ s.collections.Advances s'.collections := by
  obtain ⟨hseqno, hw⟩ := cloneApply_eq_ok hc
  unfold Inv
  rw [hseqno]
  exact Cmd.work_inv (StateCollections.Inv.mono h (Nat.le_succ _)) hw

/-- Every step keeps the invariant and only advances the collections. -/
theorem Inv.step (h : s.Inv) (hs : State.Step f allowed s s') :
    s'.Inv ∧ s.collections.Advances s'.collections := by
  cases hs with
  | cmd cmd now _ hc => exact h.cloneApply hc
  | expireAt walltimeMs =>
    -- expiry only drops leased readers and writers
    exact ⟨StateCollections.Inv.of_subset h rfl rfl (fun _ hr => SortedMap.mem_values_retain hr)
      (fun _ hr => hr) (fun _ hw => SortedMap.mem_values_retain hw), .of_eq rfl rfl⟩
  | maybeGc isWrite now cfg =>
    rcases maybeGc_eq s isWrite now cfg with heq | heq <;> rw [heq]
    · exact ⟨h, .of_eq rfl rfl⟩
    · -- the new request is past the last one, which the sequence number since is at or past
      exact h.setLastGcReq (le_min (StateCollections.Inv.gc_le_seqnoSince h) (Nat.le_add_right _ _))
        (min_le_left _ _)
  | recordActiveGc gc now =>
    exact ⟨StateCollections.Inv.of_subset h rfl rfl (fun _ hr => hr) (fun _ hr => hr)
      (fun _ hw => hw), .of_eq rfl rfl⟩

/-- Every reachable state has the invariant. -/
theorem Reachable.inv (h : State.Reachable f allowed s) : s.Inv :=
  Run.Reachable.induction (fun _ ⟨w, hw⟩ => hw ▸ inv_new w) (fun _ _ hinv hs => (hinv.step hs).1) h

/-- When every allowed command appends at a since the trace has reached, every reachable state's
trace is one allowed trace operations reach. -/
theorem Reachable.trace_reachable (h : State.Reachable f allowed s)
    (hallowed : ∀ c cmd, allowed c cmd → cmd.AppendsBelowSince c) :
    s.collections.trace.Reachable := by
  refine (Run.Reachable.induction (I := fun s => s.Inv ∧ s.collections.trace.Reachable)
    (fun _ ⟨w, hw⟩ => hw ▸ ⟨inv_new w, .init rfl⟩) (fun s₁ s₂ ⟨hinv, hr⟩ hs => ⟨(hinv.step hs).1, ?_⟩)
    h).2
  cases hs with
  | cmd cmd now hcmd hc =>
    obtain ⟨-, hw⟩ := cloneApply_eq_ok hc
    exact Cmd.work_reachable (StateCollections.Inv.mono hinv (Nat.le_succ _)) (hallowed _ _ hcmd)
      hr hw
  | expireAt walltimeMs => exact hr
  | maybeGc isWrite now cfg =>
    rcases maybeGc_eq s₁ isWrite now cfg with heq | heq <;> rw [heq] <;> exact hr
  | recordActiveGc gc now => exact hr

end State

end Runs

end Materialize.Persist
