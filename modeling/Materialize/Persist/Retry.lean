import Materialize.Persist.StateInv

/-!
# Retried appends

A writer whose `compare_and_append` had an indeterminate outcome retries it with the same batch
and the same idempotency token, against a state that other writers and readers may have moved on
in the meantime, and where its own lease may have expired. The token is what makes the retry
harmless: after the first append succeeded, the writer's entry holds the token and the batch's
upper until the writer appends again or is dropped, and the shard's upper is at or past that upper.

So a retry that finds the entry breaks with `AlreadyCommitted`; one whose writer expired finds the
sentinel token instead and, for a batch over a nonempty interval, breaks with an upper mismatch,
since the shard's upper has passed the batch's lower. A retry that continues at all (an expired
writer's retry of an append over an empty interval) leaves the trace as it was: the batch is never
appended twice.

The steps between the append and the retry are any steps of the state machine whose commands are
not appends by the retrying writer (`Cmd.AppendsAs`). Each of them keeps the writer's entry or drops
it (`StateCollections.WriterKept`), and none moves the shard's upper back (`State.Inv.step`).
-/

namespace Materialize.Persist

variable {A P M : Type}

/-- Whether a command is an append by the writer `writerId`. -/
def Cmd.AppendsAs (writerId : WriterId) : Cmd A P M → Prop
  | .compareAndAppend _ w .. => w = writerId
  | _ => False

namespace StateCollections

/-- From `c` to `c'` the entry of the writer `writerId` is kept or dropped: it is never changed,
nor made anew. -/
def WriterKept (writerId : WriterId) (c c' : StateCollections A P M) : Prop :=
  ∀ e, c'.writers.get? writerId = some e → c.writers.get? writerId = some e

section Kept
variable {writerId : WriterId} {c c' : StateCollections A P M}

theorem WriterKept.of_eq (h : c'.writers = c.writers) : c.WriterKept writerId c' := by
  intro e he
  rwa [h] at he

theorem WriterKept.trans {c'' : StateCollections A P M} (h₁ : c.WriterKept writerId c')
    (h₂ : c'.WriterKept writerId c'') : c.WriterKept writerId c'' :=
  fun e he => h₁ e (h₂ e he)

theorem updateSince_writers [LinearOrder A] (c : StateCollections A P M) :
    c.updateSince.writers = c.writers := by
  rcases updateSince_eq c with ⟨-, h⟩ | ⟨_, _, -, h⟩ <;> rw [h]

end Kept

section Retry
variable [LinearOrder A] [BoundedOrder A] {c c' : StateCollections A P M} {f : StateFields P}
  {batch : HollowBatch A P M} {writerId : WriterId} {heartbeatTimestampMs leaseDurationMs : Nat}
  {token : IdempotencyToken} {inlineMax claimPercent : Nat} {minVersion : Option Nat}

theorem isTombstone_eq_false_of_writer {e : WriterState A} (he : c.writers.get? writerId = some e) :
    c.isTombstone = false := by
  simp [isTombstone, SortedMap.isEmpty_eq_false_of_get? he]

/-- A retry that finds the writer's entry as its append left it, with the token and the batch's
upper, breaks with `AlreadyCommitted`. -/
theorem compareAndAppend_committed {e : WriterState A} (he : c.writers.get? writerId = some e)
    (htoken : e.mostRecentWriteToken = token) (hupper : e.mostRecentWriteUpper = batch.desc.upper)
    (hle : batch.desc.upper ≤ c.trace.upper) (hbounds : ¬ batch.desc.upper < batch.desc.lower)
    (hempty : ¬ (batch.desc.upper = batch.desc.lower ∧ (!batch.isEmpty) = true)) :
    c.compareAndAppend f batch writerId heartbeatTimestampMs leaseDurationMs token inlineMax
      claimPercent minVersion = some (.error .alreadyCommitted) := by
  have hentry : c.writerEntry writerId heartbeatTimestampMs leaseDurationMs = e := by
    simp [writerEntry, he]
  unfold compareAndAppend
  dsimp only
  rw [if_neg (by simp [isTombstone_eq_false_of_writer he]), if_neg hbounds, if_neg hempty, hentry,
    if_pos htoken.symm, if_neg (not_not.2 hupper.symm), if_neg (not_not.2 hle)]

/-- A retry by a writer that expired, of an append over a nonempty interval that the shard's
upper has passed, breaks with an upper mismatch. -/
theorem compareAndAppend_expired (he : c.writers.get? writerId = none)
    (htoken : token ≠ .sentinel) (hlt : batch.desc.lower < batch.desc.upper)
    (hle : batch.desc.upper ≤ c.trace.upper) :
    ∃ shardUpper writerUpper, c.compareAndAppend f batch writerId heartbeatTimestampMs
      leaseDurationMs token inlineMax claimPercent minVersion =
        some (.error (.upper shardUpper writerUpper)) := by
  have hentry : c.writerEntry writerId heartbeatTimestampMs leaseDurationMs =
      ⟨heartbeatTimestampMs, leaseDurationMs, .sentinel, ⊥⟩ := by
    simp [writerEntry, he]
  unfold compareAndAppend
  dsimp only
  by_cases htomb : c.isTombstone = true
  · exact ⟨⊤, ⊤, by rw [if_pos htomb]⟩
  rw [if_neg htomb, if_neg (not_lt.2 hlt.le), if_neg fun h => hlt.ne h.1.symm, hentry,
    if_neg htoken, if_pos (hlt.trans_le hle).ne']
  exact ⟨_, _, rfl⟩

/-- An append over an empty interval that continues leaves the trace as it was: it pushes nothing,
and having no updates it takes no older merge requests to claim. -/
theorem compareAndAppend_empty_trace {reqs : List (FueledMergeReq A P M)}
    (h : c.compareAndAppend f batch writerId heartbeatTimestampMs leaseDurationMs token inlineMax
      claimPercent minVersion = some (.ok (reqs, c')))
    (heq : batch.desc.lower = batch.desc.upper) : c'.trace = c.trace := by
  obtain ⟨-, -, hempty, -, -, -, t₁, reqs₁, ht₁, hreqs, rfl⟩ := compareAndAppend_eq h
  rcases ht₁ with ⟨hne, -⟩ | ⟨-, rfl, rfl⟩
  · exact absurd heq hne
  have hbatch : batch.isEmpty = true := by simpa [heq] using hempty
  subst hreqs
  simp [hbatch]

end Retry

end StateCollections

section Runs
variable [LinearOrder A] [BoundedOrder A] {f : StateFields P} {writerId : WriterId}
  {c c' : StateCollections A P M} {seqno : Nat}

open StateCollections in
/-- A command that is not an append by the writer keeps its entry or drops it. -/
theorem Cmd.work_writerKept {cmd : Cmd A P M} (hne : ¬ cmd.AppendsAs writerId)
    (hw : cmd.work f seqno c = some (.ok ((), c'))) : c.WriterKept writerId c' := by
  cases cmd with
  | compareAndAppend batch w heartbeat lease token inlineMax claimPercent minVersion =>
    obtain ⟨r, hcaa⟩ := map_continued_eq_ok.1 hw
    obtain ⟨-, -, -, -, -, -, -, -, -, -, rfl⟩ := compareAndAppend_eq hcaa
    -- another writer's append touches only its own entry
    intro e he
    rwa [SortedMap.get?_insert, if_neg (Ne.symm hne)] at he
  | registerLeasedReader readerId lease heartbeat useCriticalSince =>
    obtain ⟨r, hreg⟩ := continued_eq_ok.1 (Option.some.inj hw)
    obtain ⟨-, rfl⟩ := registerLeasedReader_eq hreg
    exact .of_eq rfl
  | registerCriticalReader readerId readerOpaque =>
    obtain ⟨r, hreg⟩ := continued_eq_ok.1 (Option.some.inj hw)
    obtain ⟨-, rfl | rfl⟩ := registerCriticalReader_eq hreg <;> exact .of_eq rfl
  | downgradeSince readerId outstanding newSince heartbeat =>
    obtain ⟨r, hd⟩ := map_continued_eq_ok.1 hw
    obtain ⟨-, rs, -, -, ⟨-, rfl⟩ | ⟨-, rfl⟩⟩ := downgradeSince_eq hd
    · exact .of_eq (updateSince_writers _)
    · exact .of_eq rfl
  | compareAndDowngradeSince readerId expected new newSince =>
    obtain ⟨r, hd⟩ := map_continued_eq_ok.1 hw
    obtain ⟨-, rs, -, ⟨-, rfl⟩ | ⟨-, -, rfl⟩ | ⟨-, -, rfl⟩⟩ := compareAndDowngradeSince_eq hd
    · exact .of_eq rfl
    · exact .of_eq (updateSince_writers _)
    · exact .of_eq rfl
  | expireLeasedReader readerId =>
    obtain ⟨r, he⟩ := continued_eq_ok.1 (Option.some.inj hw)
    obtain ⟨-, rfl⟩ := expireLeasedReader_eq he
    exact .of_eq rfl
  | expireCriticalReader readerId =>
    obtain ⟨r, he⟩ := continued_eq_ok.1 (Option.some.inj hw)
    obtain ⟨-, rfl⟩ := expireCriticalReader_eq he
    exact .of_eq rfl
  | expireWriter w =>
    obtain ⟨r, he⟩ := continued_eq_ok.1 (Option.some.inj hw)
    obtain ⟨-, rfl⟩ := expireWriter_eq he
    intro e he
    by_cases heq : writerId = w
    · subst heq
      simp at he
    · rwa [SortedMap.get?_remove_of_ne heq] at he
  | applyMergeRes D g res =>
    obtain ⟨r, hres⟩ := map_continued_eq_ok.1 hw
    obtain ⟨-, t', -, rfl⟩ := applyMergeRes_eq hres
    exact .of_eq rfl
  | spineExert fuel =>
    obtain ⟨r, hexert⟩ := map_continued_eq_ok.1 hw
    obtain ⟨t', -, rfl⟩ := spineExert_eq hexert
    exact .of_eq rfl
  | becomeTombstoneAndShrink =>
    obtain ⟨r, ht⟩ := map_continued_eq_ok.1 hw
    obtain ⟨-, -, t', rfl, -⟩ := becomeTombstoneAndShrink_eq ht
    intro e he
    simp at he

namespace State

variable {s s' s₀ s₁ s₂ : State A P M}

/-- A step whose command is not an append by the writer keeps its entry or drops it. -/
theorem Step.writerKept (hs : State.Step f (fun _ cmd => ¬ cmd.AppendsAs writerId) s s') :
    s.collections.WriterKept writerId s'.collections := by
  cases hs with
  | cmd cmd now hne hc =>
    obtain ⟨-, hw⟩ := cloneApply_eq_ok hc
    exact Cmd.work_writerKept hne hw
  | expireAt walltimeMs => exact fun _ he => SortedMap.get?_of_retain he
  | maybeGc isWrite now cfg =>
    rcases maybeGc_eq s isWrite now cfg with heq | heq <;> rw [heq] <;> exact .of_eq rfl
  | recordActiveGc gc now => exact .of_eq rfl

/-- Over steps that are not appends by the writer, from a state with the invariant: the invariant
holds at the end, the shard's upper has only advanced, and the writer's entry was kept or
dropped. -/
theorem Inv.others_run (h : s₁.Inv)
    (hrun : Relation.ReflTransGen (State.Step f fun _ cmd => ¬ cmd.AppendsAs writerId) s₁ s₂) :
    s₂.Inv ∧ s₁.collections.trace.upper ≤ s₂.collections.trace.upper ∧
      s₁.collections.WriterKept writerId s₂.collections := by
  induction hrun with
  | refl => exact ⟨h, le_rfl, fun _ he => he⟩
  | tail _ hs ih =>
    obtain ⟨hinv, hup, hkept⟩ := ih
    obtain ⟨hinv', hadv⟩ := hinv.step hs
    exact ⟨hinv', hup.trans hadv.upper_le, hkept.trans hs.writerKept⟩

/-- Exactly-once appends under retries. Let a writer's append of `batch`, with a token other than
the sentinel, continue from a reachable state, and let any steps follow whose commands are not
appends by that writer. A retry of the append, with the same batch and token and any other
arguments, then breaks with `AlreadyCommitted` while the writer is registered, and with an upper
mismatch once it expired if the batch spans a nonempty interval; and a retry that continues
leaves the trace as it was. -/
theorem retry_exactly_once {allowed : StateCollections A P M → Cmd A P M → Prop}
    {batch : HollowBatch A P M} {heartbeatTimestampMs leaseDurationMs : Nat}
    {token : IdempotencyToken} {inlineMax claimPercent : Nat} {minVersion : Option Nat} {now : Nat}
    (hr : State.Reachable f allowed s₀)
    (happ : s₀.cloneApply now ((Cmd.compareAndAppend batch writerId heartbeatTimestampMs
      leaseDurationMs token inlineMax claimPercent minVersion).work f) = some (.ok ((), s₁)))
    (hrun : Relation.ReflTransGen (State.Step f fun _ cmd => ¬ cmd.AppendsAs writerId) s₁ s₂)
    (htoken : token ≠ .sentinel) (heartbeatTimestampMs' leaseDurationMs' inlineMax'
      claimPercent' : Nat) (minVersion' : Option Nat) :
    ((∃ e, s₂.collections.writers.get? writerId = some e) →
      s₂.collections.compareAndAppend f batch writerId heartbeatTimestampMs' leaseDurationMs' token
        inlineMax' claimPercent' minVersion' = some (.error .alreadyCommitted)) ∧
    (s₂.collections.writers.get? writerId = none → batch.desc.lower ≠ batch.desc.upper →
      ∃ shardUpper writerUpper, s₂.collections.compareAndAppend f batch writerId
        heartbeatTimestampMs' leaseDurationMs' token inlineMax' claimPercent' minVersion' =
          some (.error (.upper shardUpper writerUpper))) ∧
    (∀ reqs c', s₂.collections.compareAndAppend f batch writerId heartbeatTimestampMs'
        leaseDurationMs' token inlineMax' claimPercent' minVersion' = some (.ok (reqs, c')) →
      c'.trace = s₂.collections.trace) := by
  obtain ⟨-, hw⟩ := cloneApply_eq_ok happ
  obtain ⟨r, hcaa⟩ := map_continued_eq_ok.1 hw
  obtain ⟨-, hbounds, hempty, -, -, -, t₁, reqs₁, -, -, hc₁⟩ :=
    StateCollections.compareAndAppend_eq hcaa
  -- the append left the writer's entry with the token and the batch's upper
  obtain ⟨e₁, he₁, htoken₁, hupper₁⟩ : ∃ e₁, s₁.collections.writers.get? writerId = some e₁ ∧
      e₁.mostRecentWriteToken = token ∧ e₁.mostRecentWriteUpper = batch.desc.upper := by
    rw [hc₁]
    exact ⟨_, by rw [SortedMap.get?_insert, if_pos rfl], rfl, rfl⟩
  have hinv₁ := (hr.inv.cloneApply happ).1
  obtain ⟨-, hup, hkept⟩ := hinv₁.others_run hrun
  -- the shard's upper is at or past the batch's, as it was for the writer's entry at the append
  have hle : batch.desc.upper ≤ s₂.collections.trace.upper := by
    rw [← hupper₁]
    exact (hinv₁.writer_upper e₁ (SortedMap.mem_values_of_get? he₁)).trans hup
  have hcommitted : (∃ e, s₂.collections.writers.get? writerId = some e) →
      s₂.collections.compareAndAppend f batch writerId heartbeatTimestampMs' leaseDurationMs' token
        inlineMax' claimPercent' minVersion' = some (.error .alreadyCommitted) := by
    rintro ⟨e, he⟩
    obtain rfl : e = e₁ := Option.some.inj ((hkept e he).symm.trans he₁)
    exact StateCollections.compareAndAppend_committed he htoken₁ hupper₁ hle hbounds hempty
  have hexpired : s₂.collections.writers.get? writerId = none → batch.desc.lower ≠ batch.desc.upper →
      ∃ shardUpper writerUpper, s₂.collections.compareAndAppend f batch writerId
        heartbeatTimestampMs' leaseDurationMs' token inlineMax' claimPercent' minVersion' =
          some (.error (.upper shardUpper writerUpper)) := fun he hne =>
    StateCollections.compareAndAppend_expired he htoken (lt_of_le_of_ne (not_lt.1 hbounds) hne) hle
  refine ⟨hcommitted, hexpired, fun reqs c' hok => ?_⟩
  -- over a nonempty interval every retry breaks, so one that continues is over an empty one
  by_cases heq : batch.desc.lower = batch.desc.upper
  · exact StateCollections.compareAndAppend_empty_trace hok heq
  · cases he : s₂.collections.writers.get? writerId with
    | some e =>
      rw [hcommitted ⟨e, he⟩] at hok
      cases hok
    | none =>
      obtain ⟨_, _, hbreak⟩ := hexpired he heq
      rw [hbreak] at hok
      cases hok

end State

end Runs

theorem State.retry_exactly_once_new :
    ∃ s₁ : State (Fin 3) Unit Unit,
      (State.new 0).cloneApply 0 ((Cmd.compareAndAppend ⟨⟨0, 1, 0⟩, 1, [()], [], [()]⟩ ⟨0⟩ 0 0 ⟨1⟩
        100 0 none).work ⟨fun _ => 0, fun _ => none, fun _ => 0⟩) = some (.ok ((), s₁)) ∧
      ((∃ e, s₁.collections.writers.get? ⟨0⟩ = some e) →
        s₁.collections.compareAndAppend ⟨fun _ => 0, fun _ => none, fun _ => 0⟩
          ⟨⟨0, 1, 0⟩, 1, [()], [], [()]⟩ ⟨0⟩ 0 0 ⟨1⟩ 100 0 none = some (.error .alreadyCommitted)) ∧
      (s₁.collections.writers.get? ⟨0⟩ = none → (0 : Fin 3) ≠ 1 →
        ∃ shardUpper writerUpper, s₁.collections.compareAndAppend ⟨fun _ => 0, fun _ => none,
          fun _ => 0⟩ ⟨⟨0, 1, 0⟩, 1, [()], [], [()]⟩ ⟨0⟩ 0 0 ⟨1⟩ 100 0 none =
            some (.error (.upper shardUpper writerUpper))) ∧
      (∀ reqs c', s₁.collections.compareAndAppend ⟨fun _ => 0, fun _ => none, fun _ => 0⟩
          ⟨⟨0, 1, 0⟩, 1, [()], [], [()]⟩ ⟨0⟩ 0 0 ⟨1⟩ 100 0 none = some (.ok (reqs, c')) →
        c'.trace = s₁.collections.trace) := by
  obtain ⟨⟨u, s₁⟩, h₁⟩ := Option.isSome_iff_exists.1 (show (((State.new 0 : State (Fin 3) Unit Unit).cloneApply 0
      ((Cmd.compareAndAppend ⟨⟨0, 1, 0⟩, 1, [()], [], [()]⟩ ⟨0⟩ 0 0 ⟨1⟩ 100 0 none).work
        ⟨fun _ => 0, fun _ => none, fun _ => 0⟩)).bind Except.toOption).isSome = true by
    decide +kernel)
  have happ := bind_toOption_eq_some.1 h₁
  have hr : State.Reachable ⟨fun _ => 0, fun _ => none, fun _ => 0⟩ (fun _ _ => True)
      (State.new 0 : State (Fin 3) Unit Unit) := .init ⟨0, rfl⟩
  exact ⟨s₁, happ, State.retry_exactly_once hr happ .refl (by decide) 0 0 100 0 none⟩

/-- Two retries the token does not turn away. An append over the empty interval `[0, 0)` by a
writer that then expires: its retry continues. And an append with the sentinel token by a writer
whose last token was another: once the writer expired, its retry panics on the check that the
writer's last upper is the batch's. -/
theorem State.retry_continues_or_panics :
    (∃ s : State (Fin 3) Unit Unit,
      (State.new 0).runCmds ⟨fun _ => 0, fun _ => none, fun _ => 0⟩ 0
          [.compareAndAppend ⟨⟨0, 0, 0⟩, 0, [], [], []⟩ ⟨0⟩ 0 0 ⟨1⟩ 100 0 none,
            .expireWriter ⟨0⟩] = some s ∧
        ∃ reqs c', s.collections.compareAndAppend ⟨fun _ => 0, fun _ => none, fun _ => 0⟩
          ⟨⟨0, 0, 0⟩, 0, [], [], []⟩ ⟨0⟩ 0 0 ⟨1⟩ 100 0 none = some (.ok (reqs, c'))) ∧
    (∃ s : State (Fin 3) Unit Unit,
      (State.new 0).runCmds ⟨fun _ => 0, fun _ => none, fun _ => 0⟩ 0
          [.compareAndAppend ⟨⟨0, 1, 0⟩, 1, [()], [], [()]⟩ ⟨0⟩ 0 0 ⟨1⟩ 100 0 none,
            .compareAndAppend ⟨⟨1, 2, 0⟩, 1, [()], [], [()]⟩ ⟨0⟩ 0 0 .sentinel 100 0 none,
            .expireWriter ⟨0⟩] = some s ∧
        s.collections.compareAndAppend ⟨fun _ => 0, fun _ => none, fun _ => 0⟩
          ⟨⟨1, 2, 0⟩, 1, [()], [], [()]⟩ ⟨0⟩ 0 0 .sentinel 100 0 none = none) := by
  constructor
  · obtain ⟨s, hrun, hok⟩ := Option.map_eq_some_iff.1 (show ((State.new 0 : State (Fin 3) Unit Unit).runCmds
        ⟨fun _ => 0, fun _ => none, fun _ => 0⟩ 0
          [.compareAndAppend ⟨⟨0, 0, 0⟩, 0, [], [], []⟩ ⟨0⟩ 0 0 ⟨1⟩ 100 0 none,
            .expireWriter ⟨0⟩]).map (fun s => ((s.collections.compareAndAppend
              ⟨fun _ => 0, fun _ => none, fun _ => 0⟩ ⟨⟨0, 0, 0⟩, 0, [], [], []⟩ ⟨0⟩ 0 0 ⟨1⟩ 100 0
                none).bind Except.toOption).isSome) = some true by
      decide +kernel)
    obtain ⟨⟨reqs, c'⟩, h⟩ := Option.isSome_iff_exists.1 hok
    exact ⟨s, hrun, reqs, c', bind_toOption_eq_some.1 h⟩
  · obtain ⟨s, hrun, hnone⟩ := Option.map_eq_some_iff.1 (show ((State.new 0 : State (Fin 3) Unit Unit).runCmds
        ⟨fun _ => 0, fun _ => none, fun _ => 0⟩ 0
          [.compareAndAppend ⟨⟨0, 1, 0⟩, 1, [()], [], [()]⟩ ⟨0⟩ 0 0 ⟨1⟩ 100 0 none,
            .compareAndAppend ⟨⟨1, 2, 0⟩, 1, [()], [], [()]⟩ ⟨0⟩ 0 0 .sentinel 100 0 none,
            .expireWriter ⟨0⟩]).map (fun s => (s.collections.compareAndAppend
              ⟨fun _ => 0, fun _ => none, fun _ => 0⟩ ⟨⟨1, 2, 0⟩, 1, [()], [], [()]⟩ ⟨0⟩ 0 0
                .sentinel 100 0 none).isNone) = some true by
      decide +kernel)
    exact ⟨s, hrun, Option.isNone_iff_eq_none.1 hnone⟩

end Materialize.Persist
