import Materialize.Oracle.Timestamp

/-!
# The batching timestamp oracle

`BatchingTimestampOracle` (`src/timestamp-oracle/src/batching_oracle.rs`) passes `write_ts` and
`apply_write` straight to an inner oracle, and batches `read_ts`: a caller sends a command on a
channel and waits for its answer, while a worker task takes the first command (`recv`), every
command still queued behind it (`try_recv` until the channel is empty), asks the inner oracle for
one read timestamp, and sends that timestamp to each command it took.

This module models the callers, the channel and the worker's loop as one machine over the inner
oracle's row, whose steps carry the calls as labels, and proves that every answer a caller
receives is the answer of an inner `read_ts` that ran after the caller's command was sent and
before the answer (`reply_of_inner_read`). The inner statements of every run are a run of the
inner oracle (`trace_inner`), so the answers of the batched `read_ts` are linearizable at those
inner reads.
-/

namespace Materialize.Oracle.Batching

/-- Where the worker task is in its loop. -/
inductive Phase where
  /-- Waiting in `command_rx.recv()`. -/
  | idle
  /-- In the `try_recv` loop that collects the queued commands into `pending_cmds`. -/
  | draining
  /-- In `task_oracle.read_ts().await`. -/
  | reading
  /-- Sending the read timestamp to the commands it collected. -/
  | replying (ts : UInt64)
deriving DecidableEq, Repr

/-- The inner oracle's row, the channel of `read_ts` commands (each named by the request of its
caller), the worker's `pending_cmds` and phase, and the next request's name. -/
structure State where
  row : Row
  commands : List Nat
  pending : List Nat
  phase : Phase
  nextRequest : Nat
deriving DecidableEq, Repr

/-- A state with the given row, an empty channel and an idle worker. -/
def init (row : Row) : State := ⟨row, [], [], .idle, 0⟩

/-- What a step does, as seen by callers. -/
inductive Event where
  /-- A statement of the inner oracle. -/
  | inner (e : Oracle.Event)
  /-- A caller of `read_ts` sends its command. -/
  | request (id : Nat)
  /-- The worker sends a caller its read timestamp. -/
  | reply (id : Nat) (ts : UInt64)
  /-- A step of the worker that no caller sees. -/
  | silent
deriving DecidableEq, Repr

/-- The statement of the inner oracle a step makes, if any. -/
def Event.inner? : Event → Option Oracle.Event
  | .inner e => some e
  | _ => none

/-- One step of a caller or of the worker task. -/
inductive Step : State → Event → State → Prop where
  /-- `read_ts` sends `Command::ReadTs` with the caller's reply channel. -/
  | request (s : State) :
      Step s (.request s.nextRequest)
        { s with commands := s.commands ++ [s.nextRequest], nextRequest := s.nextRequest + 1 }
  /-- `write_ts` and `apply_write` go to the inner oracle. -/
  | passThrough {s : State} {e : Oracle.Event} {row' : Row} :
      Oracle.Step s.row e row' → (∀ ts, e ≠ .readTs ts) → Step s (.inner e) { s with row := row' }
  /-- `command_rx.recv()` takes the first command. -/
  | recv {s : State} {c : Nat} {rest : List Nat} : s.phase = .idle → s.commands = c :: rest →
      Step s .silent { s with commands := rest, pending := [c], phase := .draining }
  /-- `command_rx.try_recv()` takes one more queued command. -/
  | tryRecv {s : State} {c : Nat} {rest : List Nat} : s.phase = .draining → s.commands = c :: rest →
      Step s .silent { s with commands := rest, pending := s.pending ++ [c] }
  /-- `command_rx.try_recv()` finds the channel empty. -/
  | tryRecvEmpty {s : State} : s.phase = .draining → s.commands = [] →
      Step s .silent { s with phase := .reading }
  /-- `task_oracle.read_ts()`. -/
  | read {s : State} {ts : UInt64} {row' : Row} : s.phase = .reading →
      Oracle.Step s.row (.readTs ts) row' →
      Step s (.inner (.readTs ts)) { s with row := row', phase := .replying ts }
  /-- `response_tx.send(ts)` for the next collected command. -/
  | reply {s : State} {ts : UInt64} {c : Nat} {rest : List Nat} : s.phase = .replying ts →
      s.pending = c :: rest → Step s (.reply c ts) { s with pending := rest }
  /-- Every collected command is answered; back to `recv`. -/
  | done {s : State} {ts : UInt64} : s.phase = .replying ts → s.pending = [] →
      Step s .silent { s with phase := .idle }

/-! ## Answers come from inner reads -/

/-- The event at `i` of a run. -/
def At (evs : List Event) (i : Nat) (e : Event) : Prop := evs[i]? = some e

theorem At.append {evs : List Event} {i : Nat} {e : Event} (h : At evs i e) (e' : Event) :
    At (evs ++ [e']) i e := by
  unfold At at h ⊢
  rw [List.getElem?_append_left (List.getElem?_eq_some_iff.1 h).1, h]

theorem at_append_length (evs : List Event) (e : Event) : At (evs ++ [e]) evs.length e := by
  simp [At]

theorem At.lt_length {evs : List Event} {i : Nat} {e : Event} (h : At evs i e) :
    i < evs.length :=
  (List.getElem?_eq_some_iff.1 h).1

/-- An event of a run with one more event is an event of the run, or the new one at its end. -/
theorem at_append_iff {evs : List Event} {i : Nat} {e e' : Event} :
    At (evs ++ [e']) i e ↔ At evs i e ∨ (i = evs.length ∧ e = e') := by
  unfold At
  rw [List.getElem?_append]
  split
  · rename_i h
    constructor
    · exact Or.inl
    · rintro (h' | ⟨rfl, -⟩)
      · exact h'
      · omega
  · rename_i h
    rw [List.getElem?_singleton]
    constructor
    · intro h'
      split at h'
      · rename_i hi
        exact Or.inr ⟨by omega, (Option.some.inj h').symm⟩
      · cases h'
    · rintro (h' | ⟨rfl, rfl⟩)
      · exact absurd (List.getElem?_eq_some_iff.1 h').1 h
      · simp

/-- Every answer a caller got came from an inner read after its request and before the
answer. -/
def Answered (evs : List Event) : Prop :=
  ∀ j c ts, At evs j (.reply c ts) →
    ∃ i k, i < k ∧ k < j ∧ At evs i (.request c) ∧ At evs k (.inner (.readTs ts))

/-- What the run so far leaves: every queued or collected command was requested, the inner read
whose timestamp is being sent came after every command still to be answered, and every answer
so far came from an inner read between its request and the answer. -/
structure Inv (evs : List Event) (s : State) : Prop where
  commands : ∀ c ∈ s.commands, ∃ i, At evs i (.request c)
  pending : s.phase ≠ .idle → ∀ c ∈ s.pending, ∃ i, At evs i (.request c)
  replying : ∀ ts, s.phase = .replying ts →
    ∃ k, At evs k (.inner (.readTs ts)) ∧ ∀ c ∈ s.pending, ∃ i < k, At evs i (.request c)
  answered : Answered evs

theorem inv_init (row : Row) : Inv [] (init row) where
  commands := by simp [init]
  pending := by simp [init]
  replying := by simp [init]
  answered := by simp [Answered, At]

/-- Facts about the events so far stay true when one more event happens. -/
theorem exists_at_append {evs : List Event} {e : Event} (e' : Event) :
    (∃ i, At evs i e) → ∃ i, At (evs ++ [e']) i e
  | ⟨i, h⟩ => ⟨i, h.append e'⟩

theorem Answered.append {evs : List Event} (h : Answered evs) {e : Event}
    (he : ∀ c ts, e = .reply c ts →
      ∃ i k, i < k ∧ k < evs.length ∧ At evs i (.request c) ∧ At evs k (.inner (.readTs ts))) :
    Answered (evs ++ [e]) := by
  intro j c ts hj
  rcases at_append_iff.1 hj with hj | ⟨rfl, rfl⟩
  · obtain ⟨i, k, hik, hkj, hi, hk⟩ := h j c ts hj
    exact ⟨i, k, hik, hkj, hi.append _, hk.append _⟩
  · obtain ⟨i, k, hik, hkj, hi, hk⟩ := he c ts rfl
    exact ⟨i, k, hik, hkj, hi.append _, hk.append _⟩

/-- A step keeps the invariant. -/
theorem Inv.step {evs : List Event} {s s' : State} {e : Event} (h : Inv evs s)
    (hs : Step s e s') : Inv (evs ++ [e]) s' := by
  cases hs with
  | request =>
    refine ⟨?_, fun hp c hc => exists_at_append _ (h.pending hp c hc), ?_, h.answered.append ?_⟩
    · intro c hc
      rcases List.mem_append.1 hc with hc | hc
      · exact exists_at_append _ (h.commands c hc)
      · rw [List.mem_singleton.1 hc]
        exact ⟨_, at_append_length _ _⟩
    · intro ts hts
      obtain ⟨k, hk, hpk⟩ := h.replying ts hts
      exact ⟨k, hk.append _, fun c hc => (hpk c hc).imp fun i hi => ⟨hi.1, hi.2.append _⟩⟩
    · intro c ts he
      cases he
  | passThrough _ hne =>
    refine ⟨fun c hc => exists_at_append _ (h.commands c hc),
      fun hp c hc => exists_at_append _ (h.pending hp c hc), ?_, h.answered.append ?_⟩
    · intro ts hts
      obtain ⟨k, hk, hpk⟩ := h.replying ts hts
      exact ⟨k, hk.append _, fun c hc => (hpk c hc).imp fun i hi => ⟨hi.1, hi.2.append _⟩⟩
    · intro c ts he
      cases he
  | recv hidle hcmd =>
    refine ⟨fun c hc => exists_at_append _ (h.commands c (by simp [hcmd, hc])), ?_, ?_,
      h.answered.append (fun _ _ he => by cases he)⟩
    · intro _ c hc
      rw [List.mem_singleton.1 hc]
      exact exists_at_append _ (h.commands _ (by simp [hcmd]))
    · intro ts hts
      cases hts
  | tryRecv hdrain hcmd =>
    refine ⟨fun c hc => exists_at_append _ (h.commands c (by simp [hcmd, hc])), ?_, ?_,
      h.answered.append (fun _ _ he => by cases he)⟩
    · intro _ c hc
      rcases List.mem_append.1 hc with hc | hc
      · exact exists_at_append _ (h.pending (by simp [hdrain]) c hc)
      · rw [List.mem_singleton.1 hc]
        exact exists_at_append _ (h.commands _ (by simp [hcmd]))
    · intro ts hts
      simp [hdrain] at hts
  | tryRecvEmpty hdrain hcmd =>
    refine ⟨by simp [hcmd],
      fun _ c hc => exists_at_append _ (h.pending (by simp [hdrain]) c hc), ?_,
      h.answered.append (fun _ _ he => by cases he)⟩
    intro ts hts
    cases hts
  | read hreading _ =>
    refine ⟨fun c hc => exists_at_append _ (h.commands c hc),
      fun _ c hc => exists_at_append _ (h.pending (by simp [hreading]) c hc), ?_,
      h.answered.append (fun _ _ he => by cases he)⟩
    -- the read happens now, after every command the worker collected
    intro ts hts
    simp only [Phase.replying.injEq] at hts
    subst hts
    refine ⟨evs.length, at_append_length _ _, fun c hc => ?_⟩
    obtain ⟨i, hi⟩ := h.pending (by simp [hreading]) c hc
    exact ⟨i, hi.lt_length, hi.append _⟩
  | reply hreplying hpend =>
    rename_i ts c rest
    have hne : s.phase ≠ .idle := by simp [hreplying]
    refine ⟨fun c hc => exists_at_append _ (h.commands c hc),
      fun _ c hc => exists_at_append _ (h.pending hne c (by simp [hpend, hc])), ?_,
      h.answered.append ?_⟩
    · intro ts' hts'
      obtain ⟨k, hk, hpk⟩ := h.replying ts' hts'
      exact ⟨k, hk.append _, fun c hc =>
        (hpk c (by simp [hpend, hc])).imp fun i hi => ⟨hi.1, hi.2.append _⟩⟩
    · -- the answer carries the timestamp of the read that followed the command
      intro c' ts' he
      simp only [Event.reply.injEq] at he
      obtain ⟨rfl, rfl⟩ := he
      obtain ⟨k, hk, hpk⟩ := h.replying ts hreplying
      obtain ⟨i, hik, hi⟩ := hpk c (by simp [hpend])
      exact ⟨i, k, hik, hk.lt_length, hi, hk⟩
  | done _ hpend =>
    refine ⟨fun c hc => exists_at_append _ (h.commands c hc), by simp, ?_,
      h.answered.append (fun _ _ he => by cases he)⟩
    intro ts hts
    cases hts

/-- In every run, every answer a caller of the batched `read_ts` receives is the timestamp of an
inner `read_ts` that ran after the caller sent its command and before the answer. -/
theorem reply_of_inner_read {row : Row} {evs : List Event} {s : State}
    (h : Run.Trace Step (init row) evs s) : Answered evs :=
  (Run.Trace.induction (inv_init row) (fun _ _ _ _ hi hs => hi.step hs) h).answered

/-- The inner statements of a run are a run of the inner oracle. -/
theorem trace_inner {s s' : State} {evs : List Event} (h : Run.Trace Step s evs s') :
    Run.Trace Oracle.Step s.row (evs.filterMap Event.inner?) s'.row := by
  refine Run.Trace.project State.row Event.inner? (fun s e s' hs => ?_) h
  cases hs with
  | request | recv | tryRecv | tryRecvEmpty | reply | done => exact .inl ⟨rfl, rfl⟩
  | passThrough hstep _ => exact .inr ⟨_, rfl, hstep⟩
  | read _ hstep => exact .inr ⟨_, rfl, hstep⟩

/-! ## Linearizability -/

/-- The timestamp oracle is linearizable. Every run of Postgres or CockroachDB statements, and
every run of FoundationDB transactions, from the `open` that inserts the timeline's row keeps
`read_ts <= write_ts`, and its answers, in the order of their statements, respect each other:
write timestamps increase strictly and exceed every read timestamp before them, and every read
timestamp is at least every `apply_write` before it. Through `BatchingTimestampOracle` the inner
statements are such a run, and every batched `read_ts` answer is the answer of an inner
`read_ts` that ran after the caller's command was sent and before the answer. -/
theorem timestamp_oracle_linearizable :
    (∀ (initially : UInt64) (evs : List Oracle.Event) (row : Row),
      Run.Trace Oracle.Step (Postgres.open initially none) evs row →
      row.readTs ≤ row.writeTs ∧ evs.Pairwise Respects) ∧
    (∀ (initially : UInt64) (keys keys' : Fdb.Keys) (evs : List Oracle.Event),
      Fdb.open initially ⟨none, none⟩ = some keys → Run.Trace Fdb.Step keys evs keys' →
      (∃ row, keys'.toRow? = some row ∧ row.readTs ≤ row.writeTs) ∧ evs.Pairwise Respects) ∧
    (∀ (initially : UInt64) (evs : List Event) (s : State),
      Run.Trace Step (init (Postgres.open initially none)) evs s →
      s.row.readTs ≤ s.row.writeTs ∧ (evs.filterMap Event.inner?).Pairwise Respects ∧
        Answered evs) := by
  have hopen : ∀ initially : UInt64,
      (Postgres.open initially none).readTs ≤ (Postgres.open initially none).writeTs := by
    intro initially
    simp [open_none]
  refine ⟨fun initially _ _ h => ?_, fun initially keys keys' evs hkeys h => ?_,
    fun initially evs s h => ?_⟩
  · obtain ⟨hinv, hpair⟩ := trace_inv (hopen initially) h
    exact ⟨hinv.read_le_write, hpair⟩
  · -- a FoundationDB run is a Postgres run from the row `(initially, initially)`
    rw [Fdb.open_none, Option.some.injEq] at hkeys
    subst hkeys
    have hrow : (⟨some initially, some initially⟩ : Fdb.Keys).toRow? =
        some ⟨initially.toNat, initially.toNat⟩ := rfl
    obtain ⟨row', h', hrow'⟩ := Fdb.trace_simulates h hrow
    obtain ⟨hinv, hpair⟩ := trace_inv (Nat.le_refl _) h'
    exact ⟨⟨row', hrow', hinv.read_le_write⟩, hpair⟩
  · obtain ⟨hinv, hpair⟩ := trace_inv (hopen initially) (trace_inner h)
    exact ⟨hinv.read_le_write, hpair, reply_of_inner_read h⟩

/-- After `open(5)`, a `write_ts` proposing `3` gets `6`, and a `read_ts` then gets `5`. -/
theorem timestamp_oracle_linearizable_open :
    Run.Trace Oracle.Step (Postgres.open 5 none) [.writeTs 3 6, .readTs 5] ⟨5, 6⟩ ∧
      (⟨5, 6⟩ : Row).readTs ≤ (⟨5, 6⟩ : Row).writeTs ∧
      [Oracle.Event.writeTs 3 6, .readTs 5].Pairwise Respects := by
  have h : Run.Trace Oracle.Step (Postgres.open 5 none) [.writeTs 3 6, .readTs 5] ⟨5, 6⟩ :=
    have hw : Postgres.fallibleWriteTs 3 (Postgres.open 5 none) = (⟨5, 6⟩, some ⟨6, 7⟩) := by
      decide
    .snoc (.snoc (.nil _) (Oracle.Step.writeTs hw)) (Oracle.Step.readTs (by decide))
  exact ⟨h, timestamp_oracle_linearizable.1 5 _ _ h⟩

end Materialize.Oracle.Batching
