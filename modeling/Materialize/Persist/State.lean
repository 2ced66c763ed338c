import Materialize.Lib.Run
import Materialize.Lib.SortedMap
import Materialize.Persist.MergeRes

/-!
# The state of a shard

The model of `StateCollections`, `State` and `TypedState` from
`persist-client/src/internal/state.rs`: a shard's trace together with its leased readers, its
critical readers, its writers and the progress of garbage collection, and the commands that change
them. A command works on a copy of the collections at the next sequence number
(`State.cloneApply`): if it breaks, the copy is dropped and the state stays as it was.

A leased reader holds back the trace's since and, through its sequence number, garbage collection;
it is registered at the trace's since (or at the critical readers' meet) and expires when its
lease runs out. A critical reader holds back the since until it is expired by hand. A writer
remembers the idempotency token and the upper of its last append, so that a retried append is
recognised (`AlreadyCommitted`). Every command but `become_tombstone_and_shrink` breaks on a
tombstone, the state of a shard no one can read from or write to again.

What the model fixes:

* A frontier is an element of a linear order `A` with a bottom and a top: `[T::minimum()]` is `⊥`,
  the empty antichain is `⊤` and the meet of two frontiers is `⊓`.
* A `SeqNo` and a time in milliseconds are `Nat`s: a `u64` sequence number, one per state
  version, would overflow only after `2 ^ 64` versions, so `saturating_add` is `+`. The ids of
  readers and writers, the idempotency tokens and the opaque values of critical readers are
  numbers, compared for equality and, for the ids of a map, in order.
* `ControlFlow<B, C>` is `Except B C`. A command that breaks returns no collections: whatever it
  changed before it broke is dropped by `clone_apply`.
* A panic (`assert!`, `expect`, an unknown critical reader) is the failure of `Option`.
* What the state reads of a part and of a token and that the model keeps abstract goes through
  `StateFields`.
* Left out: rollups, schemas, the version, hostnames and debug states, the shard id and the
  metrics; no command here reads them.
-/

namespace Materialize.Persist

variable {A P M : Type}

/-! ## Ids, tokens and the states of readers and writers -/

/-- `LeasedReaderId`. -/
structure LeasedReaderId where
  id : Nat
deriving DecidableEq, Repr

/-- `CriticalReaderId`. -/
structure CriticalReaderId where
  id : Nat
deriving DecidableEq, Repr

/-- `WriterId`. -/
structure WriterId where
  id : Nat
deriving DecidableEq, Repr

instance : LinearOrder LeasedReaderId :=
  LinearOrder.lift' LeasedReaderId.id fun a b h => by cases a; cases b; cases h; rfl

instance : LinearOrder CriticalReaderId :=
  LinearOrder.lift' CriticalReaderId.id fun a b h => by cases a; cases b; cases h; rfl

instance : LinearOrder WriterId :=
  LinearOrder.lift' WriterId.id fun a b h => by cases a; cases b; cases h; rfl

/-- `IdempotencyToken`: sixteen bytes, read as a number. -/
structure IdempotencyToken where
  id : Nat
deriving DecidableEq, Repr

/-- `IdempotencyToken::SENTINEL`, the token of sixteen bytes `17`: the token of a writer that has
not appended yet. -/
def IdempotencyToken.sentinel : IdempotencyToken := ⟨0x11111111111111111111111111111111⟩

/-- `Opaque`: the value a critical reader compares and swaps along with its since. -/
structure Opaque where
  value : Nat
deriving DecidableEq, Repr

/-- `LeasedReaderState<T>`. -/
structure LeasedReaderState (A : Type) where
  seqno : Nat
  since : A
  lastHeartbeatTimestampMs : Nat
  leaseDurationMs : Nat
deriving DecidableEq, Repr

/-- `CriticalReaderState<T>`; `readerOpaque` is its field `opaque`. -/
structure CriticalReaderState (A : Type) where
  since : A
  readerOpaque : Opaque
deriving DecidableEq, Repr

/-- `WriterState<T>`. -/
structure WriterState (A : Type) where
  lastHeartbeatTimestampMs : Nat
  leaseDurationMs : Nat
  mostRecentWriteToken : IdempotencyToken
  mostRecentWriteUpper : A
deriving DecidableEq, Repr

/-- `ActiveGc`. -/
structure ActiveGc where
  seqno : Nat
  startMs : Nat
deriving DecidableEq, Repr

/-- `StateCollections<T>`: the part of a state that commands change. -/
structure StateCollections (A P M : Type) where
  lastGcReq : Nat
  activeGc : Option ActiveGc
  leasedReaders : SortedMap LeasedReaderId (LeasedReaderState A)
  criticalReaders : SortedMap CriticalReaderId (CriticalReaderState A)
  writers : SortedMap WriterId (WriterState A)
  trace : Trace A P M

/-- `State<T>`, and `TypedState<K, V, T, D>`, whose other parameters are phantoms. -/
structure State (A P M : Type) where
  seqno : Nat
  walltimeMs : Nat
  collections : StateCollections A P M

/-- What the state reads of a part and of a token that the model keeps abstract. -/
structure StateFields (P : Type) where
  /-- `RunPart::inline_bytes`. -/
  inlineBytes : P → Nat
  /-- `RunPart::writer_key`, a version. -/
  writerKey : P → Option Nat
  /-- `IdempotencyToken::hashed`. -/
  hashed : IdempotencyToken → Nat

/-! ## What commands return -/

/-- `InvalidUsage<T>`, the variants `compare_and_append` returns; the part names of
`InvalidEmptyTimeInterval` are not kept. -/
inductive InvalidUsage (A : Type) where
  | invalidBounds (lower upper : A)
  | invalidEmptyTimeInterval (lower upper : A)
deriving DecidableEq, Repr

/-- `CompareAndAppendBreak<T>`. -/
inductive CompareAndAppendBreak (A : Type) where
  | alreadyCommitted
  | upper (shardUpper writerUpper : A)
  | invalidUsage (err : InvalidUsage A)
  | inlineBackpressure
deriving DecidableEq, Repr

/-- `GcConfig`. -/
structure GcConfig where
  useActiveGc : Bool
  fallbackThresholdMs : Nat
  minVersions : Nat
  maxVersions : Nat
deriving DecidableEq, Repr

/-- `GcReq`, without the shard id. -/
structure GcReq where
  newSeqnoSince : Nat
deriving DecidableEq, Repr

/-- `ExpiryMetrics`. -/
structure ExpiryMetrics where
  readersExpired : Nat
  writersExpired : Nat
deriving DecidableEq, Repr

/-- `SnapshotErr<T>`. -/
inductive SnapshotErr (A : Type) where
  | asOfNotYetAvailable (seqno : Nat) (upper : A)
  | asOfHistoricalDistinctionsLost (since : A)
deriving DecidableEq, Repr

/-! ## Reads of the trace -/

section TraceReads
variable [LinearOrder A]

/-- `Trace::fueled_merge_reqs_before_ms`: a request for every spine batch that is not compact or
has a part written by a writer older than `thresholdWriter`, and whose compaction, if any, started
at `thresholdMs` or before; oldest first. -/
def Trace.fueledMergeReqsBeforeMs (f : StateFields P) (t : Trace A P M) (thresholdMs : Nat)
    (thresholdWriter : Option Nat) : List (FueledMergeReq A P M) :=
  ((t.spine.spineBatches.filter fun b =>
      let noncompact := !b.isCompact
      let oldWriter := match thresholdWriter with
        | some minWriter => b.parts.any fun b => b.batch.parts.any fun p =>
            (f.writerKey p).any (· < minWriter)
        | none => false
      noncompact || oldWriter).filter fun b =>
      b.activeCompaction.all (·.startMs ≤ thresholdMs)).map fun b => ⟨b.id, b.desc, b.parts⟩

/-- The inline bytes of all the trace's batches (`map_batches` summing `inline_bytes`). -/
def Trace.inlineBytes (f : StateFields P) (t : Trace A P M) : Nat :=
  (t.batches.map fun b => (b.parts.map f.inlineBytes).sum).sum

end TraceReads

/-! ## The collections -/

namespace StateCollections

section Reads
variable [LinearOrder A] [BoundedOrder A]

/-- `StateCollections::is_tombstone`: the upper and the since are the empty antichain, and no
reader or writer is registered. -/
def isTombstone (c : StateCollections A P M) : Bool :=
  c.trace.upper = ⊤ && c.trace.since = ⊤ && c.writers.isEmpty && c.leasedReaders.isEmpty &&
    c.criticalReaders.isEmpty

/-- `critical_since`: the meet of the critical readers' sinces, if there are any. -/
def criticalSince (c : StateCollections A P M) : Option A :=
  match c.criticalReaders.values.map (·.since) with
  | [] => none
  | since :: sinces => some (sinces.foldl (· ⊓ ·) since)

/-- The sinces of all readers, leased then critical. -/
def readerSinces (c : StateCollections A P M) : List A :=
  c.leasedReaders.values.map (·.since) ++ c.criticalReaders.values.map (·.since)

/-- `update_since`: the trace's since becomes the meet of the readers' sinces; with no readers it
stays, so that it does not regress. -/
def updateSince (c : StateCollections A P M) : StateCollections A P M :=
  match c.readerSinces with
  | [] => c
  | since :: sinces => { c with trace := c.trace.downgradeSince (sinces.foldl (· ⊓ ·) since) }

end Reads

/-- `seqno_since`: the least of `seqno` and the leased readers' sequence numbers (a critical
reader holds no sequence number back). -/
def seqnoSince (c : StateCollections A P M) (seqno : Nat) : Nat :=
  c.leasedReaders.values.foldl (fun seqnoSince r => min seqnoSince r.seqno) seqno

/-- `tombstone_batch`: an empty batch from `[T::minimum()]` to the empty antichain, at the empty
antichain. -/
def tombstoneBatch [Bot A] [Top A] : HollowBatch A P M := .empty ⟨⊥, ⊤, ⊤⟩

/-- The three expiries, of a leased reader, a critical reader and a writer: remove the entry and
say whether it was there. On a tombstone they break. -/
def expireIn {κ ν : Type} [LinearOrder κ] (m : SortedMap κ ν) (id : κ) : Bool × SortedMap κ ν :=
  let (old, m) := m.remove id
  (old.isSome, m)

section Commands
variable [LinearOrder A] [BoundedOrder A]

/-- The writer's entry, or the one `compare_and_append` inserts for a writer it does not know:
the sentinel token and the upper `[T::minimum()]`. -/
def writerEntry (c : StateCollections A P M) (writerId : WriterId)
    (heartbeatTimestampMs leaseDurationMs : Nat) : WriterState A :=
  (c.writers.get? writerId).getD ⟨heartbeatTimestampMs, leaseDurationMs, .sentinel, ⊥⟩

/-- `register_leased_reader`: a reader at the critical readers' meet (if asked and there are
critical readers) or at the trace's since, holding `seqno`; returned with the sequence number
since. -/
def registerLeasedReader (c : StateCollections A P M) (readerId : LeasedReaderId)
    (seqno leaseDurationMs heartbeatTimestampMs : Nat) (useCriticalSince : Bool) :
    Except (LeasedReaderState A × Nat) ((LeasedReaderState A × Nat) × StateCollections A P M) :=
  let since := if useCriticalSince then c.criticalSince.getD c.trace.since else c.trace.since
  let readerState : LeasedReaderState A := ⟨seqno, since, heartbeatTimestampMs, leaseDurationMs⟩
  if c.isTombstone then .error (readerState, c.seqnoSince seqno)
  else
    let c := { c with leasedReaders := (c.leasedReaders.insert readerId readerState).2 }
    .ok ((readerState, c.seqnoSince seqno), c)

/-- `register_critical_reader`: a reader at the trace's since; a reader already registered under
the id is kept as it is. -/
def registerCriticalReader (c : StateCollections A P M) (readerId : CriticalReaderId)
    (readerOpaque : Opaque) :
    Except (CriticalReaderState A) (CriticalReaderState A × StateCollections A P M) :=
  let state : CriticalReaderState A := ⟨c.trace.since, readerOpaque⟩
  if c.isTombstone then .error state
  else match c.criticalReaders.get? readerId with
    | some existing => .ok (existing, c)
    | none => .ok (state, { c with criticalReaders := (c.criticalReaders.insert readerId state).2 })

/-- `compare_and_append`: append `batch` if it starts at the shard's upper, unless the writer's
last append had the same token, in which case it was committed already. An append of an empty
interval moves nothing. The appended batch's merge requests are returned, with some older ones
when the batch brought no real merge work, and each is claimed for compaction. -/
def compareAndAppend (f : StateFields P) (c : StateCollections A P M) (batch : HollowBatch A P M)
    (writerId : WriterId) (heartbeatTimestampMs leaseDurationMs : Nat)
    (idempotencyToken : IdempotencyToken)
    (inlineWritesTotalMaxBytes claimCompactionPercent : Nat) (claimCompactionMinVersion : Option Nat) :
    Option (Except (CompareAndAppendBreak A) (List (FueledMergeReq A P M) × StateCollections A P M)) :=
  if c.isTombstone then some (.error (.upper ⊤ ⊤)) else
  let writerState := c.writerEntry writerId heartbeatTimestampMs leaseDurationMs
  if batch.desc.upper < batch.desc.lower then
    some (.error (.invalidUsage (.invalidBounds batch.desc.lower batch.desc.upper)))
  else if batch.desc.upper = batch.desc.lower ∧ !batch.isEmpty then
    some (.error (.invalidUsage (.invalidEmptyTimeInterval batch.desc.lower batch.desc.upper)))
  else if idempotencyToken = writerState.mostRecentWriteToken then
    -- the two sanity checks of a write that must have committed already
    if batch.desc.upper ≠ writerState.mostRecentWriteUpper then none
    else if ¬ batch.desc.upper ≤ c.trace.upper then none
    else some (.error .alreadyCommitted)
  else if c.trace.upper ≠ batch.desc.lower then
    some (.error (.upper c.trace.upper writerState.mostRecentWriteUpper))
  else
    let newInlineBytes := (batch.parts.map f.inlineBytes).sum
    if 0 < newInlineBytes ∧ inlineWritesTotalMaxBytes ≤ c.trace.inlineBytes f + newInlineBytes then
      some (.error .inlineBackpressure)
    else
      (if batch.desc.upper ≠ batch.desc.lower then c.trace.pushBatch batch
       else some (c.trace, [])).bind fun (trace, mergeReqs) =>
        let allEmptyReqs := mergeReqs.all fun req => req.inputs.all (·.batch.isEmpty)
        let mergeReqs :=
          if allEmptyReqs && !batch.isEmpty then
            let reqsToTake := claimCompactionPercent / 100 +
              if f.hashed idempotencyToken % 100 < claimCompactionPercent % 100 then 1 else 0
            let thresholdMs := heartbeatTimestampMs - leaseDurationMs
            mergeReqs ++ (trace.fueledMergeReqsBeforeMs f thresholdMs claimCompactionMinVersion).take
              reqsToTake
          else mergeReqs
        let trace := mergeReqs.foldl (fun t req => t.claimCompaction req.id ⟨heartbeatTimestampMs⟩)
          trace
        -- the writer's most recent upper only goes forward
        if ¬ writerState.mostRecentWriteUpper ≤ batch.desc.upper then none
        else
          let writerState := { writerState with
            mostRecentWriteToken := idempotencyToken, mostRecentWriteUpper := batch.desc.upper,
            lastHeartbeatTimestampMs := max heartbeatTimestampMs writerState.lastHeartbeatTimestampMs }
          some (.ok (mergeReqs, { c with trace, writers := (c.writers.insert writerId writerState).2 }))

/-- `apply_merge_res`: the checked replacement of the batches the result names. -/
def applyMergeRes {D : Type} [AddMonoid D] [DecidableEq D] (f : RunFields P M D)
    (c : StateCollections A P M) (res : FueledMergeRes A P M) :
    Option (Except ApplyMergeResult (ApplyMergeResult × StateCollections A P M)) :=
  if c.isTombstone then some (.error .notAppliedNoMatch)
  else (c.trace.applyMergeResChecked f res).map fun (trace, result) => .ok (result, { c with trace })

/-- `spine_exert`: spend `fuel` on the spine's merges; a break when there was nothing to do. -/
def spineExert (c : StateCollections A P M) (fuel : Nat) :
    Option (Except (List (FueledMergeReq A P M)) (List (FueledMergeReq A P M) × StateCollections A P M)) :=
  (c.trace.exert fuel).bind fun (trace, mergeReqs, didWork) =>
    if didWork then some (.ok (mergeReqs, { c with trace }))
    else if mergeReqs.isEmpty then some (.error []) else none

/-- `downgrade_since`: heartbeat the leased reader and lower its sequence number hold to
`min(outstanding_seqno, seqno)`; if `newSince` is past its since, advance it and then the trace's.
An expired reader is taken as downgraded to the empty antichain. -/
def downgradeSince (c : StateCollections A P M) (readerId : LeasedReaderId)
    (seqno outstandingSeqno : Nat) (newSince : A) (heartbeatTimestampMs : Nat) :
    Option (Except A (A × StateCollections A P M)) :=
  if c.isTombstone then some (.error ⊤) else
  match c.leasedReaders.get? readerId with
  | none => some (.error ⊤)
  | some r =>
    let r := { r with lastHeartbeatTimestampMs := max heartbeatTimestampMs r.lastHeartbeatTimestampMs }
    -- `SeqNos cannot go backward`
    if outstandingSeqno < r.seqno then none else
    let r := { r with seqno := min outstandingSeqno seqno }
    if r.since < newSince then
      let r := { r with since := newSince }
      some (.ok (newSince, { c with leasedReaders := (c.leasedReaders.insert readerId r).2 }.updateSince))
    else some (.ok (r.since, { c with leasedReaders := (c.leasedReaders.insert readerId r).2 }))

/-- `compare_and_downgrade_since`: if the critical reader's opaque value is the expected one, swap
in the new one and advance its since to `newSince` if that is not behind it, then the trace's. An
unknown reader panics. -/
def compareAndDowngradeSince (c : StateCollections A P M) (readerId : CriticalReaderId)
    (expectedOpaque newOpaque : Opaque) (newSince : A) :
    Option (Except (Except (Opaque × A) A) (Except (Opaque × A) A × StateCollections A P M)) :=
  if c.isTombstone then some (.error (.ok ⊤)) else
  (c.criticalReaders.get? readerId).map fun r =>
    if r.readerOpaque ≠ expectedOpaque then .ok (.error (r.readerOpaque, r.since), c)
    else
      let r := { r with readerOpaque := newOpaque }
      if r.since ≤ newSince then
        let r := { r with since := newSince }
        .ok (.ok newSince, { c with criticalReaders := (c.criticalReaders.insert readerId r).2 }.updateSince)
      else .ok (.ok r.since, { c with criticalReaders := (c.criticalReaders.insert readerId r).2 })

/-- `expire_leased_reader`; the trace's since is left as it is. -/
def expireLeasedReader (c : StateCollections A P M) (readerId : LeasedReaderId) :
    Except Bool (Bool × StateCollections A P M) :=
  if c.isTombstone then .error false else
  let (existed, leasedReaders) := expireIn c.leasedReaders readerId
  .ok (existed, { c with leasedReaders })

/-- `expire_critical_reader`; the trace's since is left as it is. -/
def expireCriticalReader (c : StateCollections A P M) (readerId : CriticalReaderId) :
    Except Bool (Bool × StateCollections A P M) :=
  if c.isTombstone then .error false else
  let (existed, criticalReaders) := expireIn c.criticalReaders readerId
  .ok (existed, { c with criticalReaders })

/-- `expire_writer`. -/
def expireWriter (c : StateCollections A P M) (writerId : WriterId) :
    Except Bool (Bool × StateCollections A P M) :=
  if c.isTombstone then .error false else
  let (existed, writers) := expireIn c.writers writerId
  .ok (existed, { c with writers })

/-- `become_tombstone_and_shrink`: on a shard whose upper and since are the empty antichain, drop
every reader and writer, then shrink the trace by a step: the first batch with parts becomes an
empty one, or several empty batches become the single tombstone batch. A tombstone that cannot
shrink further breaks. -/
def becomeTombstoneAndShrink (c : StateCollections A P M) :
    Option (Except Unit (Unit × StateCollections A P M)) :=
  if c.trace.upper ≠ ⊤ then none else
  if c.trace.since ≠ ⊤ then none else
  let wasTombstone := c.isTombstone
  let c := { c with writers := .empty, leasedReaders := .empty, criticalReaders := .empty }
  match c.trace.batches.find? (!·.isEmpty) with
  | some b =>
    let (trace, result) := c.trace.applyTombstoneMerge b.desc
    if !result.matched then none else some (.ok ((), { c with trace }))
  | none =>
    if 1 < c.trace.batches.length then
      ((Trace.default.downgradeSince ⊤).pushBatch tombstoneBatch).bind fun (trace, mergeReqs) =>
        if !mergeReqs.isEmpty then none else some (.ok ((), { c with trace }))
    else if !wasTombstone then some (.ok ((), c))
    else some (.error ())

end Commands

end StateCollections

/-! ## The state -/

namespace State

/-- `TypedState::new`: sequence number `0`, no readers or writers, and the empty trace. -/
def new [LE A] [OrderBot A] (walltimeMs : Nat) : State A P M :=
  ⟨0, walltimeMs, ⟨0, none, .empty, .empty, .empty, .default⟩⟩

/-- `TypedState::clone_apply`: run `work` on a copy of the collections at the next sequence number
and a later wall time; a break keeps the state as it was. -/
def cloneApply {B R : Type} (s : State A P M) (now : Nat)
    (work : Nat → StateCollections A P M → Option (Except B (R × StateCollections A P M))) :
    Option (Except B (R × State A P M)) :=
  let seqno := s.seqno + 1
  -- the wall time strictly increases, in case clocks are offset
  let walltimeMs := if now ≤ s.walltimeMs then s.walltimeMs + 1 else now
  (work seqno s.collections).map fun r => r.map fun (ret, c) => (ret, ⟨seqno, walltimeMs, c⟩)

theorem cloneApply_eq_ok {B R : Type} {s s' : State A P M} {now : Nat}
    {work : Nat → StateCollections A P M → Option (Except B (R × StateCollections A P M))} {r : R}
    (h : s.cloneApply now work = some (.ok (r, s'))) :
    s'.seqno = s.seqno + 1 ∧ work (s.seqno + 1) s.collections = some (.ok (r, s'.collections)) := by
  obtain ⟨e, he, h⟩ := Option.map_eq_some_iff.1 h
  cases e with
  | error b => cases h
  | ok rc =>
    obtain ⟨r', c⟩ := rc
    obtain ⟨rfl, rfl⟩ := Prod.mk.inj (Except.ok.inj h)
    exact ⟨rfl, he⟩

/-- `State::seqno_since`. -/
def seqnoSince (s : State A P M) : Nat := s.collections.seqnoSince s.seqno

/-- `State::expire_at`: drop the leased readers and writers whose lease ran out before
`walltimeMs`. -/
def expireAt (s : State A P M) (walltimeMs : Nat) : ExpiryMetrics × State A P M :=
  let alive (lastHeartbeatTimestampMs leaseDurationMs : Nat) : Bool :=
    walltimeMs ≤ lastHeartbeatTimestampMs + leaseDurationMs
  let leasedReaders := s.collections.leasedReaders.retain fun _ r =>
    alive r.lastHeartbeatTimestampMs r.leaseDurationMs
  let writers := s.collections.writers.retain fun _ w =>
    alive w.lastHeartbeatTimestampMs w.leaseDurationMs
  (⟨s.collections.leasedReaders.size - leasedReaders.size, s.collections.writers.size - writers.size⟩,
    { s with collections := { s.collections with leasedReaders, writers } })

section Reads
variable [LinearOrder A] [BoundedOrder A]

/-- The decision of `State::maybe_gc`: enough versions since the last request (or, with active
gc, an active gc that has run for long enough), on a write or with no writers; always on a
tombstone; and with active gc, only once the active one is old enough. -/
def shouldGc (s : State A P M) (isWrite : Bool) (now : Nat) (cfg : GcConfig) : Bool :=
  let gcThreshold := if cfg.useActiveGc then cfg.minVersions
    else max 1 (Nat.nextPowerOfTwo s.seqno).log2
  let activeGcOld : Option Bool := s.collections.activeGc.map fun activeGc =>
    cfg.fallbackThresholdMs < now - activeGc.startMs
  let shouldGc := gcThreshold ≤ s.seqnoSince - s.collections.lastGcReq
  let shouldGc := if cfg.useActiveGc && !shouldGc then activeGcOld.getD false else shouldGc
  let shouldGc := shouldGc && (isWrite || s.collections.writers.isEmpty)
  let shouldGc := shouldGc || s.collections.isTombstone
  if cfg.useActiveGc then shouldGc && activeGcOld.getD true else shouldGc

/-- `State::maybe_gc`: whether this state is picked to collect garbage up to the new sequence number
since, but no more than `max_versions` past the last request; if so `last_gc_req` moves there. -/
def maybeGc (s : State A P M) (isWrite : Bool) (now : Nat) (cfg : GcConfig) :
    Option GcReq × State A P M :=
  let gcUntilSeqno := min s.seqnoSince (s.collections.lastGcReq + cfg.maxVersions)
  if s.shouldGc isWrite now cfg then
    (some ⟨gcUntilSeqno⟩, { s with collections := { s.collections with lastGcReq := gcUntilSeqno } })
  else (none, s)

/-- `State::snapshot`: the batches with updates at or before `asOf`, once the since has not passed
`asOf` and the upper has. -/
def snapshot (s : State A P M) (asOf : A) : Except (SnapshotErr A) (List (HollowBatch A P M)) :=
  if asOf < s.collections.trace.since then
    .error (.asOfHistoricalDistinctionsLost s.collections.trace.since)
  else if s.collections.trace.upper ≤ asOf then
    .error (.asOfNotYetAvailable s.seqno s.collections.trace.upper)
  else .ok (s.collections.trace.batches.filter fun b => ¬ asOf < b.desc.lower)

/-- `State::next_listen_batch`: the first batch whose interval holds `frontier`, or the sequence
number to wait past. -/
def nextListenBatch (s : State A P M) (frontier : A) : Except Nat (HollowBatch A P M) :=
  match s.collections.trace.batches.find? fun b => b.desc.lower ≤ frontier ∧ frontier < b.desc.upper with
  | some b => .ok b
  | none => .error s.seqno

end Reads

end State

/-! ## Commands and runs -/

/-- The commands of `StateCollections`, with the arguments their callers choose. -/
inductive Cmd (A P M : Type) : Type 1 where
  | compareAndAppend (batch : HollowBatch A P M) (writerId : WriterId)
      (heartbeatTimestampMs leaseDurationMs : Nat) (idempotencyToken : IdempotencyToken)
      (inlineWritesTotalMaxBytes claimCompactionPercent : Nat)
      (claimCompactionMinVersion : Option Nat)
  | registerLeasedReader (readerId : LeasedReaderId) (leaseDurationMs heartbeatTimestampMs : Nat)
      (useCriticalSince : Bool)
  | registerCriticalReader (readerId : CriticalReaderId) (readerOpaque : Opaque)
  | downgradeSince (readerId : LeasedReaderId) (outstandingSeqno : Nat) (newSince : A)
      (heartbeatTimestampMs : Nat)
  | compareAndDowngradeSince (readerId : CriticalReaderId) (expectedOpaque newOpaque : Opaque)
      (newSince : A)
  | expireLeasedReader (readerId : LeasedReaderId)
  | expireCriticalReader (readerId : CriticalReaderId)
  | expireWriter (writerId : WriterId)
  | applyMergeRes (D : Type) [AddMonoid D] [DecidableEq D] (f : RunFields P M D)
      (res : FueledMergeRes A P M)
  | spineExert (fuel : Nat)
  | becomeTombstoneAndShrink

/-- Whether a command continued, and with what collections; what it returned is dropped. -/
def continued {B R σ : Type} : Except B (R × σ) → Except Unit (Unit × σ)
  | .ok (_, c) => .ok ((), c)
  | .error _ => .error ()

theorem continued_eq_ok {B R σ : Type} {e : Except B (R × σ)} {c : σ} :
    continued e = .ok ((), c) ↔ ∃ r, e = .ok (r, c) := by
  cases e with
  | error b => simp [continued]
  | ok rc =>
    obtain ⟨r, c'⟩ := rc
    simp [continued, eq_comm]

theorem map_continued_eq_ok {B R σ : Type} {x : Option (Except B (R × σ))} {c : σ} :
    x.map continued = some (.ok ((), c)) ↔ ∃ r, x = some (.ok (r, c)) := by
  cases x with
  | none => simp
  | some e => simp [continued_eq_ok]

section Run
variable [LinearOrder A] [BoundedOrder A]

/-- The work function the machine hands `clone_apply` for a command: the command at the new
state's sequence number, which the reader commands take as the reader's hold. -/
def Cmd.work (f : StateFields P) : Cmd A P M → Nat → StateCollections A P M →
    Option (Except Unit (Unit × StateCollections A P M))
  | .compareAndAppend batch writerId heartbeat lease token inlineMax claimPercent minVersion, _, c =>
    (c.compareAndAppend f batch writerId heartbeat lease token inlineMax claimPercent
      minVersion).map continued
  | .registerLeasedReader readerId lease heartbeat useCriticalSince, seqno, c =>
    some (continued (c.registerLeasedReader readerId seqno lease heartbeat useCriticalSince))
  | .registerCriticalReader readerId readerOpaque, _, c =>
    some (continued (c.registerCriticalReader readerId readerOpaque))
  | .downgradeSince readerId outstanding newSince heartbeat, seqno, c =>
    (c.downgradeSince readerId seqno outstanding newSince heartbeat).map continued
  | .compareAndDowngradeSince readerId expected new newSince, _, c =>
    (c.compareAndDowngradeSince readerId expected new newSince).map continued
  | .expireLeasedReader readerId, _, c => some (continued (c.expireLeasedReader readerId))
  | .expireCriticalReader readerId, _, c => some (continued (c.expireCriticalReader readerId))
  | .expireWriter writerId, _, c => some (continued (c.expireWriter writerId))
  | @Cmd.applyMergeRes _ _ _ _ _ _ g res, _, c => (c.applyMergeRes g res).map continued
  | .spineExert fuel, _, c => (c.spineExert fuel).map continued
  | .becomeTombstoneAndShrink, _, c => c.becomeTombstoneAndShrink.map continued

/-- A step of a shard's state: a command that continues (through `clone_apply`), the expiry of
leases at a wall time, a pass of `maybe_gc`, or the recording of a gc request as the active one
(`compute_next_state` does the last three after each command). `allowed` says which commands the
callers may issue from which collections. -/
inductive State.Step (f : StateFields P) (allowed : StateCollections A P M → Cmd A P M → Prop) :
    State A P M → State A P M → Prop where
  | cmd {s s' : State A P M} (cmd : Cmd A P M) (now : Nat) (hallowed : allowed s.collections cmd)
      (h : s.cloneApply now (cmd.work f) = some (.ok ((), s'))) : State.Step f allowed s s'
  | expireAt (s : State A P M) (walltimeMs : Nat) : State.Step f allowed s (s.expireAt walltimeMs).2
  | maybeGc (s : State A P M) (isWrite : Bool) (now : Nat) (cfg : GcConfig) :
      State.Step f allowed s (s.maybeGc isWrite now cfg).2
  | recordActiveGc (s : State A P M) (gc : GcReq) (now : Nat) :
      State.Step f allowed s
        { s with collections := { s.collections with activeGc := some ⟨gc.newSeqnoSince, now⟩ } }

/-- The states reached from `TypedState::new` by steps whose commands `allowed` admits. -/
def State.Reachable (f : StateFields P) (allowed : StateCollections A P M → Cmd A P M → Prop) :
    State A P M → Prop :=
  Run.Reachable (fun s => ∃ walltimeMs, s = State.new walltimeMs) (State.Step f allowed)

theorem bind_toOption_eq_some {ε α : Type} {x : Option (Except ε α)} {a : α} :
    x.bind Except.toOption = some a ↔ x = some (.ok a) := by
  cases x with
  | none => simp
  | some e => cases e <;> simp [Except.toOption]

/-- Commands run one after another through `clone_apply` at the wall time `now`: the state after
the last, or `none` if one of them breaks or panics. -/
def State.runCmds (f : StateFields P) (now : Nat) (s : State A P M) :
    List (Cmd A P M) → Option (State A P M)
  | [] => some s
  | cmd :: cmds =>
    ((s.cloneApply now (cmd.work f)).bind Except.toOption).bind fun r => r.2.runCmds f now cmds

/-- Commands run from a reachable state reach the state after the last. -/
theorem State.runCmds_reachable {f : StateFields P} {now : Nat} :
    ∀ {cmds : List (Cmd A P M)} {s s' : State A P M}, State.Reachable f (fun _ _ => True) s →
      s.runCmds f now cmds = some s' → State.Reachable f (fun _ _ => True) s'
  | [], _, _, hr, h => by
    cases h
    exact hr
  | cmd :: _, _, _, hr, h => by
    obtain ⟨⟨u, s₁⟩, h₁, h₂⟩ := Option.bind_eq_some_iff.1 h
    exact runCmds_reachable (.step hr (.cmd cmd now trivial (bind_toOption_eq_some.1 h₁))) h₂

/-- What writers promise of the batches they append: a since the trace's has reached.
`WriteHandle` appends every batch at `[T::minimum()]`. -/
def Cmd.AppendsBelowSince (c : StateCollections A P M) : Cmd A P M → Prop
  | .compareAndAppend batch .. => batch.desc.since ≤ c.trace.since
  | _ => True

end Run

end Materialize.Persist
