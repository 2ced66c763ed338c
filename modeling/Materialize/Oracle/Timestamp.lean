import Mathlib
import Materialize.Lib.Trace

/-!
# The timestamp oracle

A timestamp oracle (`src/timestamp-oracle`) hands out write timestamps and read timestamps for a
timeline, so that reads observe exactly the writes before them. Each backend keeps one row per
timeline, `(read_ts, write_ts)`, and changes it by one atomic statement per call:
- Postgres and CockroachDB (`postgres_oracle.rs`): `INSERT ... ON CONFLICT DO NOTHING` when the
  oracle opens, `UPDATE ... SET write_ts = GREATEST(write_ts+1, $2) RETURNING write_ts`,
  `SELECT read_ts` and the two-column `GREATEST` update of `apply_write`, over `NUMERIC`s that
  `decimal_to_ts` reads back as `u64`;
- FoundationDB (`foundationdb_oracle.rs`): transactions that read the two keys and set them.

This module models the statements and transactions, the steps of a whole oracle with their
answers as labels, and proves what makes it linearizable: on every run, `read_ts <= write_ts`, and
the answers, in the order of their statements, satisfy `Respects` pairwise. FoundationDB runs are
Postgres runs (`Fdb.step_simulates`). A retried call whose first attempt committed is one more
step whose answer nobody receives; what holds of every step's answer holds of the answers given.
A panic (`decimal_to_ts` or `step_forward` past `u64::MAX`) is a step that does not happen.
-/

namespace Materialize.Oracle

/-- `Timestamp::step_forward`: the next timestamp; panics at `u64::MAX`. -/
def stepForward (t : UInt64) : Option UInt64 :=
  if t.toNat + 1 < 2 ^ 64 then some (t + 1) else none

/-- `decimal_to_ts`: a `NUMERIC` read back as a `u64`; panics past `u64::MAX`. -/
def decimalToTs (n : Nat) : Option UInt64 :=
  if n < 2 ^ 64 then some n.toUInt64 else none

/-- `WriteTimestamp`. -/
structure WriteTimestamp where
  timestamp : UInt64
  advanceTo : UInt64
deriving DecidableEq, Repr

/-- The row of one timeline in the `timestamp_oracle` table. -/
structure Row where
  readTs : Nat
  writeTs : Nat
deriving DecidableEq, Repr

namespace Postgres

/-- The `INSERT ... ON CONFLICT (timeline) DO NOTHING` of `open`. -/
def insert (initially : UInt64) : Option Row → Row
  | some row => row
  | none => ⟨initially.toNat, initially.toNat⟩

/-- `fallible_write_ts`: the `UPDATE ... RETURNING write_ts` statement commits, then the answer is
read back by `decimal_to_ts` and stepped forward for `advance_to`, either of which may panic. -/
def fallibleWriteTs (proposedNextTs : UInt64) (row : Row) : Row × Option WriteTimestamp :=
  let writeTs := max (row.writeTs + 1) proposedNextTs.toNat
  ({ row with writeTs }, do
    let writeTs ← decimalToTs writeTs
    let advanceTo ← stepForward writeTs
    pure ⟨writeTs, advanceTo⟩)

/-- `fallible_read_ts`: `SELECT read_ts`. -/
def fallibleReadTs (row : Row) : Option UInt64 := decimalToTs row.readTs

/-- `fallible_apply_write`: `write_ts = GREATEST(write_ts, $2), read_ts = GREATEST(read_ts, $2)`. -/
def fallibleApplyWrite (writeTs : UInt64) (row : Row) : Row :=
  ⟨max row.readTs writeTs.toNat, max row.writeTs writeTs.toNat⟩

/-- `open` when not read-only: the row is inserted unless present, then `apply_write(initially)`. -/
def «open» (initially : UInt64) (row : Option Row) : Row :=
  fallibleApplyWrite initially (insert initially row)

end Postgres

/-- An answered call of the oracle, at its statement. -/
inductive Event where
  | writeTs (proposedNextTs : UInt64) (timestamp : UInt64)
  | readTs (timestamp : UInt64)
  | applyWrite (writeTs : UInt64)
deriving DecidableEq, Repr

/-- One statement of the oracle that does not panic, with its answer. -/
inductive Step : Row → Event → Row → Prop where
  | writeTs {row row' : Row} {proposedNextTs : UInt64} {ts : WriteTimestamp} :
      Postgres.fallibleWriteTs proposedNextTs row = (row', some ts) →
        Step row (.writeTs proposedNextTs ts.timestamp) row'
  | readTs {row : Row} {ts : UInt64} : Postgres.fallibleReadTs row = some ts →
      Step row (.readTs ts) row
  | applyWrite (row : Row) (writeTs : UInt64) :
      Step row (.applyWrite writeTs) (Postgres.fallibleApplyWrite writeTs row)

/-- What linearizability asks of an answer `b` given after an answer `a`: write timestamps grow
strictly and exceed every earlier read timestamp, and a read timestamp is at least every earlier
`apply_write`. -/
def Respects : Event → Event → Prop
  | .writeTs _ a, .writeTs _ b => a < b
  | .readTs a, .writeTs _ b => a < b
  | .applyWrite t, .readTs r => t ≤ r
  | _, _ => True

namespace Fdb

/-- The two keys of a timeline, `<timeline>/read_ts` and `<timeline>/write_ts`. -/
structure Keys where
  readTs : Option UInt64
  writeTs : Option UInt64
deriving DecidableEq, Repr

/-- `initialize`: each key set to `initially` if it is absent. -/
def initializeKeys (initially : UInt64) (keys : Keys) : Keys :=
  ⟨keys.readTs.getD initially, keys.writeTs.getD initially⟩

/-- `write_ts_trx`: `GREATEST(write_ts+1, proposed_next_ts)`. A missing key is an error that
`write_ts` panics on. -/
def writeTsTrx (proposedNextTs : UInt64) (keys : Keys) : Option (Keys × UInt64) := do
  let current ← keys.writeTs
  let incremented ← stepForward current
  let newTs := max incremented proposedNextTs
  pure ({ keys with writeTs := some newTs }, newTs)

/-- `read_ts_trx`; a missing key is an error that `read_ts` panics on. -/
def readTsTrx (keys : Keys) : Option UInt64 := keys.readTs

/-- `apply_write_trx`: each key raised to `write_ts` if below it. -/
def applyWriteTrx (writeTs : UInt64) (keys : Keys) : Option Keys := do
  let currentRead ← keys.readTs
  let keys := if writeTs > currentRead then { keys with readTs := some writeTs } else keys
  let currentWrite ← keys.writeTs
  pure (if writeTs > currentWrite then { keys with writeTs := some writeTs } else keys)

/-- One transaction that does not panic, with its answer; `write_ts` then steps its answer
forward for `advance_to`. -/
inductive Step : Keys → Event → Keys → Prop where
  | writeTs {keys keys' : Keys} {proposedNextTs ts advanceTo : UInt64} :
      writeTsTrx proposedNextTs keys = some (keys', ts) → stepForward ts = some advanceTo →
        Step keys (.writeTs proposedNextTs ts) keys'
  | readTs {keys : Keys} {ts : UInt64} : readTsTrx keys = some ts → Step keys (.readTs ts) keys
  | applyWrite {keys keys' : Keys} {writeTs : UInt64} : applyWriteTrx writeTs keys = some keys' →
      Step keys (.applyWrite writeTs) keys'

/-- The row the two keys stand for. -/
def Keys.toRow? (keys : Keys) : Option Row :=
  match keys.readTs, keys.writeTs with
  | some r, some w => some ⟨r.toNat, w.toNat⟩
  | _, _ => none

end Fdb

/-! ## The answers of a step -/

theorem toNat_of_decimalToTs {n : Nat} {t : UInt64} (h : decimalToTs n = some t) :
    t.toNat = n := by
  unfold decimalToTs at h
  split at h
  · cases h
    simp only [Nat.toUInt64, UInt64.toNat_ofNat']
    omega
  · cases h

theorem decimalToTs_toNat (t : UInt64) : decimalToTs t.toNat = some t := by
  simp [decimalToTs, t.toNat_lt]

theorem toNat_of_stepForward {t t' : UInt64} (h : stepForward t = some t') :
    t'.toNat = t.toNat + 1 := by
  unfold stepForward at h
  split at h
  · cases h
    rw [UInt64.toNat_add, UInt64.toNat_one]
    omega
  · cases h

/-- `fallible_write_ts` answers, when it does, the new `write_ts`: one past the old one or the
proposed timestamp, whichever is larger. -/
theorem fallibleWriteTs_answer {row row' : Row} {p : UInt64} {ts : WriteTimestamp}
    (h : Postgres.fallibleWriteTs p row = (row', some ts)) :
    row' = { row with writeTs := ts.timestamp.toNat } ∧
      ts.timestamp.toNat = max (row.writeTs + 1) p.toNat := by
  simp only [Postgres.fallibleWriteTs, Prod.mk.injEq, Option.bind_eq_bind,
    Option.bind_eq_some_iff, Option.pure_def, Option.some.injEq] at h
  obtain ⟨rfl, w, hw, a, -, rfl⟩ := h
  rw [toNat_of_decimalToTs hw]
  exact ⟨rfl, rfl⟩

/-! ## Every run -/

/-- What the answers given so far leave in the row: `read_ts <= write_ts`, every write or read
timestamp handed out is at most `write_ts` or `read_ts`, and every `apply_write` is at most
`read_ts`. -/
structure Inv (evs : List Event) (row : Row) : Prop where
  read_le_write : row.readTs ≤ row.writeTs
  writeTs_le : ∀ p t, Event.writeTs p t ∈ evs → t.toNat ≤ row.writeTs
  readTs_le : ∀ t, Event.readTs t ∈ evs → t.toNat ≤ row.readTs
  applyWrite_le : ∀ t, Event.applyWrite t ∈ evs → t.toNat ≤ row.readTs

theorem inv_nil {row : Row} (h : row.readTs ≤ row.writeTs) : Inv [] row :=
  ⟨h, by simp, by simp, by simp⟩

/-- A step keeps the invariant, and its answer respects every answer before it. -/
theorem Inv.step {evs : List Event} {row row' : Row} {e : Event} (h : Inv evs row)
    (hs : Step row e row') : Inv (evs ++ [e]) row' ∧ ∀ a ∈ evs, Respects a e := by
  cases hs with
  | writeTs hw =>
    obtain ⟨rfl, hts⟩ := fallibleWriteTs_answer hw
    refine ⟨⟨?_, ?_, ?_, ?_⟩, ?_⟩
    · have := h.read_le_write
      dsimp only
      omega
    · intro p t ht
      rcases List.mem_append.1 ht with ht | ht
      · have := h.writeTs_le p t ht
        dsimp only
        omega
      · simp only [List.mem_singleton, Event.writeTs.injEq] at ht
        obtain ⟨rfl, rfl⟩ := ht
        exact Nat.le_refl _
    · simpa using h.readTs_le
    · simpa using h.applyWrite_le
    · -- the new write timestamp is past the old `write_ts`, hence past every earlier answer
      intro a ha
      cases a with
      | writeTs p t =>
        have := h.writeTs_le p t ha
        simp only [Respects, UInt64.lt_iff_toNat_lt]
        omega
      | readTs t =>
        have := h.readTs_le t ha
        have := h.read_le_write
        simp only [Respects, UInt64.lt_iff_toNat_lt]
        omega
      | applyWrite t => trivial
  | readTs hr =>
    have hts := toNat_of_decimalToTs hr
    refine ⟨⟨h.read_le_write, by simpa using h.writeTs_le, ?_, by simpa using h.applyWrite_le⟩, ?_⟩
    · intro t ht
      rcases List.mem_append.1 ht with ht | ht
      · exact h.readTs_le t ht
      · simp only [List.mem_singleton, Event.readTs.injEq] at ht
        subst ht
        exact Nat.le_of_eq hts
    · -- the read timestamp is the current `read_ts`, at least every earlier `apply_write`
      intro a ha
      cases a with
      | applyWrite t =>
        have := h.applyWrite_le t ha
        simp only [Respects, UInt64.le_iff_toNat_le]
        omega
      | writeTs | readTs => trivial
  | applyWrite t =>
    have := h.read_le_write
    refine ⟨⟨?_, ?_, ?_, ?_⟩, fun a _ => by cases a <;> trivial⟩
    · simp only [Postgres.fallibleApplyWrite]
      omega
    · intro p t' ht
      have := h.writeTs_le p t' (by simpa using ht)
      simp only [Postgres.fallibleApplyWrite]
      omega
    · intro t' ht
      have := h.readTs_le t' (by simpa using ht)
      simp only [Postgres.fallibleApplyWrite]
      omega
    · intro t' ht
      rcases List.mem_append.1 ht with ht | ht
      · have := h.applyWrite_le t' ht
        simp only [Postgres.fallibleApplyWrite]
        omega
      · simp only [List.mem_singleton, Event.applyWrite.injEq] at ht
        simp only [ht, Postgres.fallibleApplyWrite]
        omega

/-- Every run from a row with `read_ts <= write_ts` keeps it, and its answers respect each other
in the order of their statements. -/
theorem trace_inv {row row' : Row} {evs : List Event} (h0 : row.readTs ≤ row.writeTs)
    (h : Run.Trace Step row evs row') : Inv evs row' ∧ evs.Pairwise Respects :=
  Run.Trace.pairwise (inv_nil h0) (fun _ _ _ _ hi hs => hi.step hs) h

/-! ## FoundationDB runs are Postgres runs -/

theorem toNat_max (a b : UInt64) : (max a b).toNat = max a.toNat b.toNat := by
  show (if a ≤ b then b else a).toNat = _
  split <;> rename_i h <;> rw [UInt64.le_iff_toNat_le] at h <;> omega

/-- A FoundationDB transaction is the Postgres statement of the same call on the row its keys
stand for, with the same answer. -/
theorem Fdb.step_simulates {keys keys' : Fdb.Keys} {e : Event} {row : Row}
    (hs : Fdb.Step keys e keys') (hrow : keys.toRow? = some row) :
    ∃ row', Oracle.Step row e row' ∧ keys'.toRow? = some row' := by
  obtain ⟨_ | r, _ | w⟩ := keys <;>
    simp only [Fdb.Keys.toRow?, reduceCtorEq, Option.some.injEq] at hrow
  subst hrow
  cases hs with
  | writeTs htrx hadv =>
    rename_i p ts adv
    simp only [Fdb.writeTsTrx, Option.bind_eq_bind, Option.bind_some, Option.bind_eq_some_iff,
      Option.pure_def, Option.some.injEq, Prod.mk.injEq] at htrx
    obtain ⟨inc, hinc, rfl, rfl⟩ := htrx
    have hmax : (max inc p).toNat = max (w.toNat + 1) p.toNat := by
      rw [toNat_max, toNat_of_stepForward hinc]
    have hpg : Postgres.fallibleWriteTs p ⟨r.toNat, w.toNat⟩ =
        (⟨r.toNat, (max inc p).toNat⟩, some ⟨max inc p, adv⟩) := by
      simp [Postgres.fallibleWriteTs, ← hmax, decimalToTs_toNat, hadv]
    exact ⟨_, Oracle.Step.writeTs hpg, rfl⟩
  | readTs hread =>
    simp only [Fdb.readTsTrx, Option.some.injEq] at hread
    subst hread
    exact ⟨_, Oracle.Step.readTs (decimalToTs_toNat _), rfl⟩
  | applyWrite happ =>
    rename_i t
    refine ⟨_, Oracle.Step.applyWrite _ t, ?_⟩
    simp only [Fdb.applyWriteTrx, Option.bind_eq_bind, Option.bind_some, Option.pure_def, GT.gt,
      UInt64.lt_iff_toNat_lt] at happ
    -- each key is set exactly when `GREATEST` would raise its column
    by_cases hr : r.toNat < t.toNat <;> by_cases hw : w.toNat < t.toNat <;>
      simp only [hr, hw, if_true, if_false, Option.bind_some, Option.some.injEq] at happ <;>
      subst happ <;>
      simp only [Fdb.Keys.toRow?, Postgres.fallibleApplyWrite, Option.some.injEq, Row.mk.injEq] <;>
      omega

/-- Every FoundationDB run is a Postgres run with the same answers. -/
theorem Fdb.trace_simulates {keys keys' : Fdb.Keys} {evs : List Event}
    (h : Run.Trace Fdb.Step keys evs keys') {row : Row} (hrow : keys.toRow? = some row) :
    ∃ row', Run.Trace Oracle.Step row evs row' ∧ keys'.toRow? = some row' := by
  have hsim : ∀ k r e k', (fun k r => Fdb.Keys.toRow? k = some r) k r → Fdb.Step k e k' →
      ∃ r', Oracle.Step r e r' ∧ (fun k r => Fdb.Keys.toRow? k = some r) k' r' :=
    fun _ _ _ _ hr hs => Fdb.step_simulates hs hr
  exact Run.Trace.simulate hsim h hrow

/-- `open` on FoundationDB when not read-only: `initialize`, then `apply_write(initially)`. -/
def Fdb.open (initially : UInt64) (keys : Fdb.Keys) : Option Fdb.Keys :=
  Fdb.applyWriteTrx initially (Fdb.initializeKeys initially keys)

theorem Fdb.open_none (initially : UInt64) :
    Fdb.open initially ⟨none, none⟩ = some ⟨some initially, some initially⟩ := by
  simp [Fdb.open, Fdb.initializeKeys, Fdb.applyWriteTrx]

/-- `open` leaves the row at `(initially, initially)` when it inserts it. -/
theorem open_none (initially : UInt64) :
    Postgres.open initially none = ⟨initially.toNat, initially.toNat⟩ := by
  simp [Postgres.open, Postgres.insert, Postgres.fallibleApplyWrite]

end Materialize.Oracle
