import Mathlib
import Materialize.Lib.Frontier

/-!
# Timestamp selection

`determine_timestamp_via_constraints` (adapter, `coord/timestamp_selection.rs`) picks the
timestamp of a read in three stages.

* **Constraints.** Lower frontiers: the read holds' `since` for the storage and for the compute
  inputs, the query's own timestamp, the timestamp oracle's read timestamp (a hard lower bound for
  every level but strong session serializable and bounded staleness, and whenever the query must
  advance to the timeline), the real-time-recency timestamp, `anchor - D` under bounded staleness
  and the session oracle's read timestamp under strong session serializable. Upper frontiers: the
  `AS OF` time, and `largest_not_in_advance_of_upper` under bounded staleness. `minimize` then
  drops the constraints that do not meet their bound.
* **Preference.** `freshestAvailable` when the query may advance to the upper and the level is
  serializable, bounded staleness, or there is no timeline; `stalestValid` otherwise.
* **Candidate.** The least time advanced to the lower bound, and under `freshestAvailable` further
  to the upper bound with `largest_not_in_advance_of_upper` inserted. A candidate outside the
  constraints is an error.

Over the totally ordered `Timestamp` a frontier is an `Option` (`Lib/Frontier`). When the inputs'
`since` is not empty every lower constraint holds one time. `lowerTime` is then the greatest of
them, from the least time, and `upperTime` the least upper time, if there is one. The candidate is
`lowerTime` or `max lowerTime (min upperTime largest)`, and it is accepted iff
`lowerTime ≤ upperTime` (`candidateOf_stalestValid`, `candidateOf_freshestAvailable`,
`candidate_accepted_iff`). Every constraint pushed then holds at the chosen time (`Feasible`,
`feasible_candidateOf`), and from each block's own constraint follows the bound the chosen time
meets for that input (`SelectionBounds`, `pushConstraints_spec`).

An `assert!` of the source is the failure of `Option`: a real-time-recency timestamp supplied
without real time recency enabled under strict serializable panics.
-/

namespace Materialize.Coord

/-- `mz_repr::Timestamp`, a `u64`. -/
abbrev Timestamp := Fin (2 ^ 64)

/-- `Timestamp::MAX`. -/
def Timestamp.MAX : Timestamp := ⟨2 ^ 64 - 1, by norm_num⟩

/-- `Timestamp::saturating_sub`. -/
def Timestamp.saturatingSub (a b : Timestamp) : Timestamp := ⟨a.val - b.val, by omega⟩

/-- `Timestamp::step_back`: `checked_sub(1)`. -/
def Timestamp.stepBack (t : Timestamp) : Option Timestamp :=
  if t.val = 0 then none else some ⟨t.val - 1, by omega⟩

/-- `largest_not_in_advance_of_upper`: the time before the upper's element (the least time if
there is none), and `Timestamp::MAX` for the empty upper. -/
def largestNotInAdvanceOfUpper (upper : Option Timestamp) : Timestamp :=
  match upper with
  | some u => (Timestamp.stepBack u).getD 0
  | none => Timestamp.MAX

/-- Below an upper whose element is not the least time, `largest_not_in_advance_of_upper` is the
greatest time before it. -/
theorem le_largestNotInAdvanceOfUpper_iff {u t : Timestamp} (hu : 0 < u) :
    t ≤ largestNotInAdvanceOfUpper (some u) ↔ t < u := by
  have hu' : u.val ≠ 0 := Nat.pos_iff_ne_zero.1 (Fin.lt_def.1 hu)
  simp only [largestNotInAdvanceOfUpper, Timestamp.stepBack, if_neg hu', Option.getD_some,
    Fin.le_def, Fin.lt_def]
  omega

/-- Under the empty upper every time is at or below `largest_not_in_advance_of_upper`. -/
theorem le_largestNotInAdvanceOfUpper_none (t : Timestamp) :
    t ≤ largestNotInAdvanceOfUpper none := by
  simp only [largestNotInAdvanceOfUpper, Timestamp.MAX, Fin.le_def]
  omega

/-- `std::time::Duration`, by its nanoseconds. -/
structure Duration where
  nanos : Nat
  deriving DecidableEq, Repr

/-- `Duration::as_millis`. -/
def Duration.asMillis (d : Duration) : Nat := d.nanos / 1000000

/-- `u64::try_from(d.as_millis()).unwrap_or(u64::MAX)`: the staleness bound in milliseconds. -/
def boundMs (d : Duration) : Timestamp :=
  if h : d.asMillis < 2 ^ 64 then ⟨d.asMillis, h⟩ else Timestamp.MAX

/-- `Timeline`. -/
inductive Timeline
  | epochMilliseconds
  | external (name : String)
  | user (name : String)
  deriving DecidableEq, Repr

/-- `QueryWhen`: when a peek or a subscribe should occur. -/
inductive QueryWhen
  | immediately
  | freshestTableWrite
  | atTimestamp (t : Timestamp)
  | atLeastTimestamp (t : Timestamp)
  deriving DecidableEq, Repr

namespace QueryWhen

/-- `advance_to_timestamp`. -/
def advanceToTimestamp : QueryWhen → Option Timestamp
  | atTimestamp t | atLeastTimestamp t => some t
  | immediately | freshestTableWrite => none

/-- `constrains_upper`. -/
def constrainsUpper : QueryWhen → Bool
  | atTimestamp _ => true
  | atLeastTimestamp _ | immediately | freshestTableWrite => false

/-- `can_advance_to_upper`. -/
def canAdvanceToUpper : QueryWhen → Bool
  | immediately => true
  | freshestTableWrite | atTimestamp _ | atLeastTimestamp _ => false

/-- `can_advance_to_timeline_ts`. -/
def canAdvanceToTimelineTs : QueryWhen → Bool
  | immediately | freshestTableWrite => true
  | atTimestamp _ | atLeastTimestamp _ => false

/-- `must_advance_to_timeline_ts`. -/
def mustAdvanceToTimelineTs : QueryWhen → Bool
  | freshestTableWrite => true
  | immediately | atLeastTimestamp _ | atTimestamp _ => false

end QueryWhen

/-- `IsolationLevel`. -/
inductive IsolationLevel
  | readUncommitted
  | readCommitted
  | repeatableRead
  | serializable
  | strongSessionSerializable
  | strictSerializable
  | boundedStaleness (d : Duration)
  deriving DecidableEq, Repr

/-- `matches!(isolation_level, IsolationLevel::BoundedStaleness(_))`. -/
def IsolationLevel.isBoundedStaleness : IsolationLevel → Bool
  | boundedStaleness _ => true
  | _ => false

/-- Whether the level takes the oracle read timestamp as a hard lower bound: every level but
strong session serializable and bounded staleness, which consult it in their own way. -/
def IsolationLevel.hardLowerBound : IsolationLevel → Bool
  | strongSessionSerializable | boundedStaleness _ => false
  | readUncommitted | readCommitted | repeatableRead | serializable | strictSerializable => true

/-- `GlobalId`, by a number. -/
abbrev GlobalId := Nat

/-- `ComputeInstanceId`, by a number. -/
abbrev ComputeInstanceId := Nat

/-- `CollectionIdBundle`: the storage collections and, per compute instance, the compute
collections a query reads. -/
structure CollectionIdBundle where
  storageIds : List GlobalId
  computeIds : List (ComputeInstanceId × List GlobalId)
  deriving DecidableEq, Repr

/-- `CollectionIdBundle::is_empty`. -/
def CollectionIdBundle.isEmpty (b : CollectionIdBundle) : Bool :=
  b.storageIds.isEmpty && b.computeIds.all fun p => p.2.isEmpty

/-- `Reason`: why a constraint was pushed. -/
inductive Reason
  | computeInput (ids : List (ComputeInstanceId × GlobalId))
  | storageInput (ids : List GlobalId)
  | isolationLevel (level : IsolationLevel)
  | realTimeRecency
  | queryAsOf
  deriving DecidableEq, Repr

/-- `Constraints`: lower and upper frontiers, each with its reason. -/
structure Constraints where
  lower : List (Option Timestamp × Reason)
  upper : List (Option Timestamp × Reason)
  deriving DecidableEq, Repr

/-- `Preference`. -/
inductive Preference
  | freshestAvailable
  | stalestValid
  deriving DecidableEq, Repr

/-- What timestamp selection reads of the session: whether real time recency is enabled, and the
read timestamp of the session's own timestamp oracle for a timeline, if it has one. -/
structure Session where
  realTimeRecency : Bool
  timestampOracleReadTs : Timeline → Option Timestamp

/-- The two errors of timestamp selection: a bounded staleness the inputs cannot meet, with the gap
in milliseconds, and constraints no time satisfies. -/
inductive TimestampError
  | boundedStalenessExceeded (bound : Duration) (gapMs : Nat)
  | impossibleTimestampConstraints (constraints : Constraints)
  deriving DecidableEq, Repr

/-- `RawTimestampDetermination`. -/
structure RawTimestampDetermination where
  timestamp : Timestamp
  constraints : Constraints
  sessionOracleReadTs : Option Timestamp
  deriving DecidableEq, Repr

namespace Constraints

/-- `Constraints::default`. -/
def empty : Constraints := ⟨[], []⟩

/-- Pushes a lower constraint. -/
def pushLower (c : Constraints) (f : Option Timestamp) (r : Reason) : Constraints :=
  { c with lower := c.lower ++ [(f, r)] }

/-- Pushes an upper constraint. -/
def pushUpper (c : Constraints) (f : Option Timestamp) (r : Reason) : Constraints :=
  { c with upper := c.upper ++ [(f, r)] }

/-- `lower_bound`: the join of the lower frontiers, from the least time. -/
def lowerBound (c : Constraints) : Option Timestamp :=
  c.lower.foldl (fun lower p => Frontier.join lower p.1) (some 0)

/-- `upper_bound`: the frontier collected from every upper time. -/
def upperBound (c : Constraints) : Option Timestamp :=
  Frontier.ofList (c.upper.flatMap fun p => p.1.toList)

/-- `minimize`: keeps the constraints that meet their bound. -/
def minimize (c : Constraints) : Constraints :=
  let lowerFrontier := c.lowerBound
  let lower := c.lower.filter fun p => p.1.any fun time => lowerFrontier.toList.contains time
  let upperFrontier := c.upperBound
  { lower, upper := c.upper.filter fun p => p.1.any fun time => upperFrontier.toList.contains time }

end Constraints

/-! ## The constraints, block by block -/

/-- The read holds of the inputs: `since` below, once for the storage and once for the compute
inputs, each if there are any. -/
def pushInputs (since : Option Timestamp) (idBundle : CollectionIdBundle) (c : Constraints) :
    Constraints :=
  let storage := idBundle.storageIds
  let c := if storage.isEmpty then c else c.pushLower since (.storageInput storage)
  let compute := idBundle.computeIds.flatMap fun p => p.2.map (p.1, ·)
  if compute.isEmpty then c else c.pushLower since (.computeInput compute)

/-- The query's own timestamp below, and above too when it constrains the upper. -/
def pushWhen (when : QueryWhen) (c : Constraints) : Constraints :=
  match when.advanceToTimestamp with
  | none => c
  | some ts =>
    let c := c.pushLower (some ts) .queryAsOf
    if when.constrainsUpper then c.pushUpper (some ts) .queryAsOf else c

/-- The oracle read timestamp below, where the level takes it as a hard lower bound or the query
must advance to the timeline's timestamp. -/
def pushOracleReadTs (when : QueryWhen) (oracleReadTs : Option Timestamp)
    (isolationLevel : IsolationLevel) (c : Constraints) : Constraints :=
  match oracleReadTs with
  | none => c
  | some timestamp =>
    if isolationLevel.hardLowerBound || when.mustAdvanceToTimelineTs then
      c.pushLower (some timestamp) (.isolationLevel isolationLevel)
    else c

/-- The real-time-recency timestamp below. The source asserts that real time recency is enabled
and the level strict serializable when one is supplied. -/
def pushRealTimeRecency (session : Session) (isolationLevel : IsolationLevel)
    (realTimeRecencyTs : Option Timestamp) (c : Constraints) : Option Constraints :=
  match realTimeRecencyTs with
  | none => some c
  | some ts =>
    if session.realTimeRecency && isolationLevel == .strictSerializable then
      some (c.pushLower (some ts) .realTimeRecency)
    else none

/-- Bounded staleness with an oracle anchor: `anchor - D` below, saturating, and
`largest_not_in_advance_of_upper` above. -/
def pushBoundedStaleness (oracleReadTs : Option Timestamp) (isolationLevel : IsolationLevel)
    (largestNotInAdvanceOfUpper : Timestamp) (c : Constraints) : Constraints :=
  match isolationLevel, oracleReadTs with
  | .boundedStaleness d, some anchor =>
    let lower := Timestamp.saturatingSub anchor (boundMs d)
    (c.pushLower (some lower) (.isolationLevel isolationLevel)).pushUpper
      (some largestNotInAdvanceOfUpper) (.isolationLevel isolationLevel)
  | _, _ => c

/-- The session's own oracle read timestamp below, if the session has an oracle for the timeline;
also returns that read timestamp. -/
def pushSessionOracleReadTs (session : Session) (isolationLevel : IsolationLevel)
    (timeline : Timeline) (c : Constraints) : Constraints × Option Timestamp :=
  match session.timestampOracleReadTs timeline with
  | some sessionTs =>
    (c.pushLower (some sessionTs) (.isolationLevel isolationLevel), some sessionTs)
  | none => (c, none)

/-- For a query that may advance to the upper and to the timeline, the least of
`largest_not_in_advance_of_upper` and the oracle read timestamp below: a proxy for now that does
not block later queries. -/
def pushAdvanceTo (when : QueryWhen) (oracleReadTs : Option Timestamp)
    (isolationLevel : IsolationLevel) (largestNotInAdvanceOfUpper : Timestamp) (c : Constraints) :
    Constraints :=
  if when.canAdvanceToUpper && when.canAdvanceToTimelineTs then
    let advanceTo :=
      match oracleReadTs with
      | some oracleReadTs => min largestNotInAdvanceOfUpper oracleReadTs
      | none => largestNotInAdvanceOfUpper
    c.pushLower (some advanceTo) (.isolationLevel isolationLevel)
  else c

/-- Strong session serializable in a timeline: the session oracle's read timestamp, then
`advance_to`. Also returns the session oracle's read timestamp. -/
def pushStrongSessionSerializable (session : Session) (when : QueryWhen)
    (oracleReadTs : Option Timestamp) (isolationLevel : IsolationLevel)
    (timeline : Option Timeline) (largestNotInAdvanceOfUpper : Timestamp) (c : Constraints) :
    Constraints × Option Timestamp :=
  if isolationLevel = .strongSessionSerializable then
    match timeline with
    | none => (c, none)
    | some timeline =>
      let pushed := pushSessionOracleReadTs session isolationLevel timeline c
      (pushAdvanceTo when oracleReadTs isolationLevel largestNotInAdvanceOfUpper pushed.1, pushed.2)
  else (c, none)

/-- The constraints as pushed, before `minimize`, and the session oracle's read timestamp; `none`
is the panic of the real-time-recency assertion. -/
def pushConstraints (session : Session) (since : Option Timestamp) (idBundle : CollectionIdBundle)
    (when : QueryWhen) (oracleReadTs realTimeRecencyTs : Option Timestamp)
    (isolationLevel : IsolationLevel) (timeline : Option Timeline)
    (largestNotInAdvanceOfUpper : Timestamp) : Option (Constraints × Option Timestamp) := do
  let c := pushInputs since idBundle .empty
  let c := pushWhen when c
  let c := pushOracleReadTs when oracleReadTs isolationLevel c
  let c ← pushRealTimeRecency session isolationLevel realTimeRecencyTs c
  let c := pushBoundedStaleness oracleReadTs isolationLevel largestNotInAdvanceOfUpper c
  pure (pushStrongSessionSerializable session when oracleReadTs isolationLevel timeline
    largestNotInAdvanceOfUpper c)

/-- The preference: the freshest available time for a query that may advance to the upper under
serializable, bounded staleness or outside a timeline; the stalest valid one otherwise. -/
def preferenceOf (when : QueryWhen) (isolationLevel : IsolationLevel)
    (timeline : Option Timeline) : Preference :=
  if when.canAdvanceToUpper &&
      (isolationLevel == .serializable || isolationLevel.isBoundedStaleness || timeline.isNone) then
    .freshestAvailable
  else .stalestValid

/-- The candidate: the least time advanced by the lower bound and, under `freshestAvailable`, by
the upper bound with `largest_not_in_advance_of_upper` inserted. -/
def candidateOf (constraints : Constraints) (preference : Preference)
    (largestNotInAdvanceOfUpper : Timestamp) : Timestamp :=
  let candidate := Frontier.advanceBy 0 constraints.lowerBound
  match preference with
  | .freshestAvailable =>
    Frontier.advanceBy candidate (Frontier.insert constraints.upperBound largestNotInAdvanceOfUpper)
  | .stalestValid => candidate

/-- The error for a candidate outside the constraints: under bounded staleness with an anchor, the
gap between `anchor - D` and `largest_not_in_advance_of_upper` if it is positive; the constraints
themselves otherwise. -/
def infeasibleError (constraints : Constraints) (oracleReadTs : Option Timestamp)
    (isolationLevel : IsolationLevel) (largestNotInAdvanceOfUpper : Timestamp) : TimestampError :=
  match isolationLevel, oracleReadTs with
  | .boundedStaleness d, some anchor =>
    let bsLower := Timestamp.saturatingSub anchor (boundMs d)
    let gap := bsLower.val - largestNotInAdvanceOfUpper.val
    if 0 < gap then .boundedStalenessExceeded d gap else .impossibleTimestampConstraints constraints
  | _, _ => .impossibleTimestampConstraints constraints

/-- `determine_timestamp_via_constraints`. -/
def determineTimestampViaConstraints (session : Session) (since : Option Timestamp)
    (idBundle : CollectionIdBundle) (when : QueryWhen)
    (oracleReadTs realTimeRecencyTs : Option Timestamp) (isolationLevel : IsolationLevel)
    (timeline : Option Timeline) (largestNotInAdvanceOfUpper : Timestamp) :
    Option (Except TimestampError RawTimestampDetermination) := do
  let (c, sessionOracleReadTs) ← pushConstraints session since idBundle when oracleReadTs
    realTimeRecencyTs isolationLevel timeline largestNotInAdvanceOfUpper
  let constraints := c.minimize
  let candidate :=
    candidateOf constraints (preferenceOf when isolationLevel timeline) largestNotInAdvanceOfUpper
  if !Frontier.lessEqual constraints.lowerBound candidate ||
      Frontier.lessThan constraints.upperBound candidate then
    pure (.error
      (infeasibleError constraints oracleReadTs isolationLevel largestNotInAdvanceOfUpper))
  else
    pure (.ok ⟨candidate, constraints, sessionOracleReadTs⟩)

/-! ## The bounds of the constraints -/

namespace Constraints

/-- The greatest lower time, from the least time: the join of the lower constraints when each holds
one time. -/
def lowerTime (c : Constraints) : Timestamp := (c.lower.filterMap Prod.fst).foldl max 0

/-- The least upper time, if there is one. -/
def upperTime (c : Constraints) : Option Timestamp := (c.upper.filterMap Prod.fst).min?

/-- Every lower constraint holds one time. -/
def Singles (c : Constraints) : Prop := ∀ p ∈ c.lower, p.1.isSome

/-- A time meets every constraint: at or above each lower time and at or below each upper time. -/
def Feasible (c : Constraints) (t : Timestamp) : Prop :=
  (∀ p ∈ c.lower, ∀ x ∈ p.1, x ≤ t) ∧ ∀ p ∈ c.upper, ∀ x ∈ p.1, t ≤ x

@[simp] theorem empty_lower : empty.lower = [] := rfl

@[simp] theorem empty_upper : empty.upper = [] := rfl

@[simp] theorem pushLower_lower (c : Constraints) (f : Option Timestamp) (r : Reason) :
    (c.pushLower f r).lower = c.lower ++ [(f, r)] := rfl

@[simp] theorem pushLower_upper (c : Constraints) (f : Option Timestamp) (r : Reason) :
    (c.pushLower f r).upper = c.upper := rfl

@[simp] theorem pushUpper_lower (c : Constraints) (f : Option Timestamp) (r : Reason) :
    (c.pushUpper f r).lower = c.lower := rfl

@[simp] theorem pushUpper_upper (c : Constraints) (f : Option Timestamp) (r : Reason) :
    (c.pushUpper f r).upper = c.upper ++ [(f, r)] := rfl

/-- With one time in each lower constraint, `lower_bound` is the lower time. -/
theorem lowerBound_eq {c : Constraints} (h : c.Singles) : c.lowerBound = some c.lowerTime :=
  Frontier.foldl_join_of_isSome Prod.fst c.lower 0 h

theorem flatMap_toList_eq_filterMap (l : List (Option Timestamp × Reason)) :
    l.flatMap (fun p => p.1.toList) = l.filterMap Prod.fst := by
  induction l with
  | nil => rfl
  | cons x l ih =>
    rw [List.flatMap_cons, ih, List.filterMap_cons]
    cases x.1 <;> rfl

/-- `upper_bound` is the upper time. -/
theorem upperBound_eq (c : Constraints) : c.upperBound = c.upperTime := by
  rw [upperBound, Frontier.ofList_eq_min?, flatMap_toList_eq_filterMap, upperTime]

theorem max?_lowerTime (c : Constraints) :
    ((0 : Timestamp) :: c.lower.filterMap Prod.fst).max? = some c.lowerTime :=
  List.max?_cons'

theorem forall_mem_filterMap_fst {l : List (Option Timestamp × Reason)} {P : Timestamp → Prop} :
    (∀ x ∈ l.filterMap Prod.fst, P x) ↔ ∀ p ∈ l, ∀ x ∈ p.1, P x := by
  refine ⟨fun h p hp x hx => h x (List.mem_filterMap.2 ⟨p, hp, hx⟩), fun h x hx => ?_⟩
  obtain ⟨p, hp, hpx⟩ := List.mem_filterMap.1 hx
  exact h p hp x hpx

/-- The lower time is the least time at or above every lower constraint. -/
theorem lowerTime_le_iff (c : Constraints) {t : Timestamp} :
    c.lowerTime ≤ t ↔ ∀ p ∈ c.lower, ∀ x ∈ p.1, x ≤ t := by
  rw [List.max?_le_iff (max?_lowerTime c), List.forall_mem_cons, forall_mem_filterMap_fst]
  exact ⟨And.right, fun h => ⟨Fin.zero_le _, h⟩⟩

theorem le_lowerTime {c : Constraints} {p : Option Timestamp × Reason} (hp : p ∈ c.lower)
    {x : Timestamp} (hx : x ∈ p.1) : x ≤ c.lowerTime :=
  (lowerTime_le_iff c).1 le_rfl p hp x hx

/-- The lower time is the least time or one of the lower constraints' own. -/
theorem lowerTime_eq_zero_or_mem (c : Constraints) :
    c.lowerTime = 0 ∨ ∃ p ∈ c.lower, p.1 = some c.lowerTime := by
  rcases List.mem_cons.1 (List.max?_mem (max?_lowerTime c)) with h | h
  · exact .inl h
  · exact .inr (List.mem_filterMap.1 h)

theorem upperTime_eq_some_iff {c : Constraints} {u : Timestamp} :
    c.upperTime = some u ↔
      (∃ p ∈ c.upper, p.1 = some u) ∧ ∀ p ∈ c.upper, ∀ x ∈ p.1, u ≤ x := by
  rw [upperTime, List.min?_eq_some_iff, List.mem_filterMap, forall_mem_filterMap_fst]

theorem upperTime_eq_none_iff {c : Constraints} :
    c.upperTime = none ↔ ∀ p ∈ c.upper, p.1 = none := by
  simp [upperTime, List.filterMap_eq_nil_iff]

/-- An upper constraint's time is at or above the upper time. -/
theorem upperTime_le {c : Constraints} {p : Option Timestamp × Reason} (hp : p ∈ c.upper)
    {x : Timestamp} (hx : x ∈ p.1) : ∃ u, c.upperTime = some u ∧ u ≤ x := by
  cases hU : c.upperTime with
  | none => simp [upperTime_eq_none_iff.1 hU p hp] at hx
  | some u => exact ⟨u, rfl, (upperTime_eq_some_iff.1 hU).2 p hp x hx⟩

/-- The feasible times are those between the lower and the upper time. -/
theorem feasible_iff (c : Constraints) (t : Timestamp) :
    c.Feasible t ↔ c.lowerTime ≤ t ∧ ∀ u, c.upperTime = some u → t ≤ u := by
  rw [Feasible, lowerTime_le_iff]
  refine and_congr_right fun _ => ⟨fun h u hu => ?_, fun h p hp x hx => ?_⟩
  · obtain ⟨⟨p, hp, hpu⟩, -⟩ := upperTime_eq_some_iff.1 hu
    exact h p hp u hpu
  · obtain ⟨u, hu, hux⟩ := upperTime_le hp hx
    exact (h u hu).trans hux

/-! ## `minimize` keeps both bounds -/

theorem mem_minimize_lower {c : Constraints} (h : c.Singles) {p : Option Timestamp × Reason} :
    p ∈ c.minimize.lower ↔ p ∈ c.lower ∧ p.1 = some c.lowerTime := by
  simp only [minimize, List.mem_filter, lowerBound_eq h]
  refine and_congr_right fun _ => ?_
  cases p.1 <;> simp

theorem mem_minimize_upper {c : Constraints} {p : Option Timestamp × Reason} :
    p ∈ c.minimize.upper ↔ p ∈ c.upper ∧ ∃ u, p.1 = some u ∧ c.upperTime = some u := by
  simp only [minimize, List.mem_filter, upperBound_eq]
  refine and_congr_right fun _ => ?_
  cases p.1 <;> cases c.upperTime <;> simp [eq_comm]

theorem Singles.minimize {c : Constraints} (h : c.Singles) : c.minimize.Singles :=
  fun p hp => h p ((mem_minimize_lower h).1 hp).1

theorem lowerTime_minimize {c : Constraints} (h : c.Singles) :
    c.minimize.lowerTime = c.lowerTime := by
  apply le_antisymm
  · rw [lowerTime_le_iff]
    intro p hp x hx
    exact le_lowerTime ((mem_minimize_lower h).1 hp).1 hx
  · -- the lower time is the least time or kept by `minimize`
    rcases lowerTime_eq_zero_or_mem c with h0 | ⟨p, hp, hpL⟩
    · rw [h0]
      exact Fin.zero_le _
    · exact le_lowerTime ((mem_minimize_lower h).2 ⟨hp, hpL⟩) hpL

theorem upperTime_minimize (c : Constraints) : c.minimize.upperTime = c.upperTime := by
  cases hU : c.upperTime with
  | none =>
    rw [upperTime_eq_none_iff] at hU ⊢
    exact fun p hp => hU p (mem_minimize_upper.1 hp).1
  | some u =>
    obtain ⟨⟨p, hp, hpu⟩, hmin⟩ := upperTime_eq_some_iff.1 hU
    exact upperTime_eq_some_iff.2 ⟨⟨p, mem_minimize_upper.2 ⟨hp, u, hpu, hU⟩, hpu⟩,
      fun q hq => hmin q (mem_minimize_upper.1 hq).1⟩

/-! ## Growing the constraints -/

/-- `c'` keeps every constraint of `c`. -/
structure Le (c c' : Constraints) : Prop where
  lower : c.lower ⊆ c'.lower
  upper : c.upper ⊆ c'.upper

theorem Le.refl (c : Constraints) : c.Le c := ⟨List.Subset.refl _, List.Subset.refl _⟩

theorem Le.trans {c₁ c₂ c₃ : Constraints} (h₁ : c₁.Le c₂) (h₂ : c₂.Le c₃) :
    c₁.Le c₃ :=
  ⟨List.Subset.trans h₁.lower h₂.lower, List.Subset.trans h₁.upper h₂.upper⟩

theorem Le.pushLower {c c' : Constraints} (h : c.Le c') (f : Option Timestamp) (r : Reason) :
    c.Le (c'.pushLower f r) :=
  ⟨List.Subset.trans h.lower (List.subset_append_left _ _), h.upper⟩

theorem Le.pushUpper {c c' : Constraints} (h : c.Le c') (f : Option Timestamp) (r : Reason) :
    c.Le (c'.pushUpper f r) :=
  ⟨h.lower, List.Subset.trans h.upper (List.subset_append_left _ _)⟩

theorem Singles.pushLower {c : Constraints} (h : c.Singles) {f : Option Timestamp}
    (hf : f.isSome) (r : Reason) : (c.pushLower f r).Singles := by
  intro p hp
  rcases List.mem_append.1 hp with hp | hp
  · exact h p hp
  · rw [List.mem_singleton.1 hp]
    exact hf

theorem Singles.pushUpper {c : Constraints} (h : c.Singles) (f : Option Timestamp) (r : Reason) :
    (c.pushUpper f r).Singles := h

/-- A time that meets the constraints meets every constraint they keep. -/
theorem Feasible.of_le {c c' : Constraints} (hle : c.Le c') {t : Timestamp} (ht : c'.Feasible t) :
    c.Feasible t :=
  ⟨fun p hp => ht.1 p (hle.lower hp), fun p hp => ht.2 p (hle.upper hp)⟩

theorem Feasible.le_of_mem_lower {c : Constraints} {t : Timestamp} (ht : c.Feasible t)
    {x : Timestamp} {r : Reason} (hp : (some x, r) ∈ c.lower) : x ≤ t :=
  ht.1 _ hp x rfl

theorem Feasible.le_of_mem_upper {c : Constraints} {t : Timestamp} (ht : c.Feasible t)
    {x : Timestamp} {r : Reason} (hp : (some x, r) ∈ c.upper) : t ≤ x :=
  ht.2 _ hp x rfl

end Constraints

/-! ## The candidate -/

open Constraints

theorem advanceBy_lowerBound {c : Constraints} (h : c.Singles) :
    Frontier.advanceBy 0 c.lowerBound = c.lowerTime := by
  rw [lowerBound_eq h, Frontier.advanceBy_some]
  exact max_eq_right (Fin.zero_le _)

/-- Under `stalestValid` the candidate is the lower time. -/
theorem candidateOf_stalestValid {c : Constraints} (h : c.Singles) (largest : Timestamp) :
    candidateOf c .stalestValid largest = c.lowerTime :=
  advanceBy_lowerBound h

/-- Under `freshestAvailable` the candidate is the lower time advanced to the least of the upper
time and `largest`. -/
theorem candidateOf_freshestAvailable {c : Constraints} (h : c.Singles) (largest : Timestamp) :
    candidateOf c .freshestAvailable largest =
      max c.lowerTime (c.upperTime.elim largest (min · largest)) := by
  simp only [candidateOf, advanceBy_lowerBound h, upperBound_eq]
  cases c.upperTime <;> simp

theorem lowerTime_le_candidateOf {c : Constraints} (h : c.Singles) (preference : Preference)
    (largest : Timestamp) : c.lowerTime ≤ candidateOf c preference largest := by
  cases preference with
  | freshestAvailable =>
    rw [candidateOf_freshestAvailable h]
    exact le_max_left _ _
  | stalestValid => rw [candidateOf_stalestValid h]

theorem candidateOf_le_of_upperTime {c : Constraints} (h : c.Singles) (preference : Preference)
    (largest : Timestamp) {u : Timestamp} (hu : c.upperTime = some u) (hLu : c.lowerTime ≤ u) :
    candidateOf c preference largest ≤ u := by
  cases preference with
  | freshestAvailable =>
    rw [candidateOf_freshestAvailable h, hu]
    exact max_le hLu (min_le_left _ _)
  | stalestValid => rwa [candidateOf_stalestValid h]

/-- The candidate is accepted iff the lower time is at or below the upper time. -/
theorem candidate_accepted_iff {c : Constraints} (h : c.Singles) (preference : Preference)
    (largest : Timestamp) :
    (!Frontier.lessEqual c.lowerBound (candidateOf c preference largest) ||
        Frontier.lessThan c.upperBound (candidateOf c preference largest)) = false ↔
      ∀ u, c.upperTime = some u → c.lowerTime ≤ u := by
  have hL := lowerTime_le_candidateOf h preference largest
  rw [lowerBound_eq h, upperBound_eq, Frontier.lessEqual_some, decide_eq_true hL]
  cases hU : c.upperTime with
  | none => simp
  | some u =>
    simp only [Frontier.lessThan_some, Bool.not_true, Bool.false_or, decide_eq_false_iff_not,
      not_lt, Option.some.injEq, forall_eq']
    exact ⟨fun hcu => hL.trans hcu, candidateOf_le_of_upperTime h preference largest hU⟩

/-- An accepted candidate meets every constraint. -/
theorem feasible_candidateOf {c : Constraints} (h : c.Singles) (preference : Preference)
    (largest : Timestamp) (hok : ∀ u, c.upperTime = some u → c.lowerTime ≤ u) :
    c.Feasible (candidateOf c preference largest) :=
  (feasible_iff _ _).2 ⟨lowerTime_le_candidateOf h preference largest,
    fun u hu => candidateOf_le_of_upperTime h preference largest hu (hok u hu)⟩

/-- `minimize` does not move the candidate. -/
theorem candidateOf_minimize {c : Constraints} (h : c.Singles) (preference : Preference)
    (largest : Timestamp) :
    candidateOf c.minimize preference largest = candidateOf c preference largest := by
  cases preference with
  | freshestAvailable =>
    rw [candidateOf_freshestAvailable h.minimize, candidateOf_freshestAvailable h,
      lowerTime_minimize h, upperTime_minimize]
  | stalestValid =>
    rw [candidateOf_stalestValid h.minimize, candidateOf_stalestValid h, lowerTime_minimize h]

/-! ## What each block pushes

Each block keeps the constraints before it (`le_*`), pushes lower constraints of one time each,
the inputs' `since` apart (`Singles.*`), and pushes the constraint it is for (`mem_*`). -/

theorem le_pushInputs (since : Option Timestamp) (idBundle : CollectionIdBundle)
    (c : Constraints) : c.Le (pushInputs since idBundle c) := by
  simp only [pushInputs]
  split_ifs
  · exact .refl c
  · exact (Le.refl c).pushLower _ _
  · exact (Le.refl c).pushLower _ _
  · exact ((Le.refl c).pushLower _ _).pushLower _ _

theorem Constraints.Singles.pushInputs {c : Constraints} (h : c.Singles) {since : Option Timestamp}
    (hs : since.isSome) (idBundle : CollectionIdBundle) :
    (pushInputs since idBundle c).Singles := by
  simp only [Materialize.Coord.pushInputs]
  split_ifs
  · exact h
  · exact h.pushLower hs _
  · exact h.pushLower hs _
  · exact (h.pushLower hs _).pushLower hs _

/-- A query that reads an input pushes the inputs' `since`. -/
theorem exists_mem_pushInputs (since : Option Timestamp) {idBundle : CollectionIdBundle}
    (h : idBundle.isEmpty = false) (c : Constraints) :
    ∃ r, (since, r) ∈ (pushInputs since idBundle c).lower := by
  simp only [pushInputs]
  by_cases hc : (idBundle.computeIds.flatMap fun p => p.2.map (p.1, ·)).isEmpty
  · -- no compute input: then a storage input
    have hs : idBundle.storageIds.isEmpty = false := by
      rw [List.isEmpty_iff, List.flatMap_eq_nil_iff] at hc
      rw [CollectionIdBundle.isEmpty, Bool.and_eq_false_iff] at h
      rcases h with h | h
      · exact h
      · obtain ⟨p, hp, hne⟩ := List.all_eq_false.1 h
        simp [List.map_eq_nil_iff.1 (hc p hp)] at hne
    simp [hc, hs]
  · simp [hc]

theorem le_pushWhen (when : QueryWhen) (c : Constraints) : c.Le (pushWhen when c) := by
  unfold pushWhen
  split
  · exact .refl c
  · split
    · exact ((Le.refl c).pushLower _ _).pushUpper _ _
    · exact (Le.refl c).pushLower _ _

theorem Constraints.Singles.pushWhen {c : Constraints} (h : c.Singles) (when : QueryWhen) :
    (pushWhen when c).Singles := by
  unfold Materialize.Coord.pushWhen
  split
  · exact h
  · split
    · exact (h.pushLower rfl _).pushUpper _ _
    · exact h.pushLower rfl _

/-- The query's own timestamp is a lower constraint, and an upper one for `AS OF`. -/
theorem mem_pushWhen {when : QueryWhen} {t : Timestamp} (h : when.advanceToTimestamp = some t)
    (c : Constraints) :
    (some t, .queryAsOf) ∈ (pushWhen when c).lower ∧
      (when.constrainsUpper = true → (some t, .queryAsOf) ∈ (pushWhen when c).upper) := by
  simp only [pushWhen, h]
  split <;> simp_all

theorem le_pushOracleReadTs (when : QueryWhen) (oracleReadTs : Option Timestamp)
    (isolationLevel : IsolationLevel) (c : Constraints) :
    c.Le (pushOracleReadTs when oracleReadTs isolationLevel c) := by
  unfold pushOracleReadTs
  split
  · exact .refl c
  · split
    · exact (Le.refl c).pushLower _ _
    · exact .refl c

theorem Constraints.Singles.pushOracleReadTs {c : Constraints} (h : c.Singles) (when : QueryWhen)
    (oracleReadTs : Option Timestamp) (isolationLevel : IsolationLevel) :
    (pushOracleReadTs when oracleReadTs isolationLevel c).Singles := by
  unfold Materialize.Coord.pushOracleReadTs
  split
  · exact h
  · split
    · exact h.pushLower rfl _
    · exact h

/-- The oracle read timestamp is a lower constraint where the level or the query asks for it. -/
theorem mem_pushOracleReadTs {when : QueryWhen} {oracleReadTs : Option Timestamp} {o : Timestamp}
    (ho : oracleReadTs = some o) {isolationLevel : IsolationLevel}
    (h : (isolationLevel.hardLowerBound || when.mustAdvanceToTimelineTs) = true) (c : Constraints) :
    (some o, .isolationLevel isolationLevel) ∈
      (pushOracleReadTs when oracleReadTs isolationLevel c).lower := by
  simp [pushOracleReadTs, ho, h]

/-- Where the assertion holds, the real-time-recency block pushes its timestamp if there is one. -/
theorem pushRealTimeRecency_eq {session : Session} {isolationLevel : IsolationLevel}
    {realTimeRecencyTs : Option Timestamp}
    (h : ∀ r, realTimeRecencyTs = some r →
      session.realTimeRecency = true ∧ isolationLevel = .strictSerializable) (c : Constraints) :
    pushRealTimeRecency session isolationLevel realTimeRecencyTs c =
      some (realTimeRecencyTs.elim c fun ts => c.pushLower (some ts) .realTimeRecency) := by
  cases realTimeRecencyTs with
  | none => rfl
  | some r =>
    obtain ⟨hrtr, hiso⟩ := h r rfl
    simp [pushRealTimeRecency, hrtr, hiso]

theorem le_pushBoundedStaleness (oracleReadTs : Option Timestamp) (isolationLevel : IsolationLevel)
    (largest : Timestamp) (c : Constraints) :
    c.Le (pushBoundedStaleness oracleReadTs isolationLevel largest c) := by
  unfold pushBoundedStaleness
  split
  · exact ((Le.refl c).pushLower _ _).pushUpper _ _
  · exact .refl c

theorem Constraints.Singles.pushBoundedStaleness {c : Constraints} (h : c.Singles)
    (oracleReadTs : Option Timestamp) (isolationLevel : IsolationLevel) (largest : Timestamp) :
    (pushBoundedStaleness oracleReadTs isolationLevel largest c).Singles := by
  unfold Materialize.Coord.pushBoundedStaleness
  split
  · exact (h.pushLower rfl _).pushUpper _ _
  · exact h

/-- Bounded staleness with an anchor pushes `anchor - D` below and `largest` above. -/
theorem mem_pushBoundedStaleness {oracleReadTs : Option Timestamp} {anchor : Timestamp}
    (ho : oracleReadTs = some anchor) {isolationLevel : IsolationLevel} {d : Duration}
    (hiso : isolationLevel = .boundedStaleness d) (largest : Timestamp) (c : Constraints) :
    (some (Timestamp.saturatingSub anchor (boundMs d)), .isolationLevel isolationLevel) ∈
        (pushBoundedStaleness oracleReadTs isolationLevel largest c).lower ∧
      (some largest, .isolationLevel isolationLevel) ∈
        (pushBoundedStaleness oracleReadTs isolationLevel largest c).upper := by
  subst ho hiso
  simp [pushBoundedStaleness]

theorem le_pushSessionOracleReadTs (session : Session) (isolationLevel : IsolationLevel)
    (timeline : Timeline) (c : Constraints) :
    c.Le (pushSessionOracleReadTs session isolationLevel timeline c).1 := by
  unfold pushSessionOracleReadTs
  split
  · exact (Le.refl c).pushLower _ _
  · exact .refl c

theorem le_pushAdvanceTo (when : QueryWhen) (oracleReadTs : Option Timestamp)
    (isolationLevel : IsolationLevel) (largest : Timestamp) (c : Constraints) :
    c.Le (pushAdvanceTo when oracleReadTs isolationLevel largest c) := by
  unfold pushAdvanceTo
  split
  · exact (Le.refl c).pushLower _ _
  · exact .refl c

theorem le_pushStrongSessionSerializable (session : Session) (when : QueryWhen)
    (oracleReadTs : Option Timestamp) (isolationLevel : IsolationLevel)
    (timeline : Option Timeline) (largest : Timestamp) (c : Constraints) :
    c.Le (pushStrongSessionSerializable session when oracleReadTs isolationLevel timeline
      largest c).1 := by
  unfold pushStrongSessionSerializable
  split
  · split
    · exact .refl c
    · exact (le_pushSessionOracleReadTs ..).trans (le_pushAdvanceTo ..)
  · exact .refl c

theorem Constraints.Singles.pushStrongSessionSerializable {c : Constraints} (h : c.Singles)
    (session : Session) (when : QueryWhen) (oracleReadTs : Option Timestamp)
    (isolationLevel : IsolationLevel) (timeline : Option Timeline) (largest : Timestamp) :
    (Materialize.Coord.pushStrongSessionSerializable session when oracleReadTs isolationLevel
      timeline largest c).1.Singles := by
  have hsession : ∀ tl, (pushSessionOracleReadTs session isolationLevel tl c).1.Singles := by
    intro tl
    unfold pushSessionOracleReadTs
    split
    · exact h.pushLower rfl _
    · exact h
  unfold Materialize.Coord.pushStrongSessionSerializable pushAdvanceTo
  split
  · split
    · exact h
    · split
      · exact (hsession _).pushLower rfl _
      · exact hsession _
  · exact h

/-- Under strong session serializable, the session oracle's read timestamp is a lower
constraint. -/
theorem mem_pushStrongSessionSerializable {session : Session} (when : QueryWhen)
    (oracleReadTs : Option Timestamp) {isolationLevel : IsolationLevel}
    (hiso : isolationLevel = .strongSessionSerializable) {timeline : Option Timeline}
    {tl : Timeline} (htl : timeline = some tl) {o : Timestamp}
    (ho : session.timestampOracleReadTs tl = some o) (largest : Timestamp) (c : Constraints) :
    (some o, .isolationLevel isolationLevel) ∈
      (pushStrongSessionSerializable session when oracleReadTs isolationLevel timeline
        largest c).1.lower := by
  subst hiso htl
  have hmem : (some o, .isolationLevel .strongSessionSerializable) ∈
      (pushSessionOracleReadTs session .strongSessionSerializable tl c).1.lower := by
    simp [pushSessionOracleReadTs, ho]
  simp only [pushStrongSessionSerializable, if_true]
  exact (le_pushAdvanceTo ..).lower hmem

/-! ## The selection -/

/-- What the chosen time owes each input of the selection. -/
structure SelectionBounds (session : Session) (since : Timestamp) (idBundle : CollectionIdBundle)
    (when : QueryWhen) (oracleReadTs realTimeRecencyTs : Option Timestamp)
    (isolationLevel : IsolationLevel) (timeline : Option Timeline) (largest : Timestamp)
    (t : Timestamp) : Prop where
  /-- At or after the inputs' `since` when the query reads any input. -/
  since_le : idBundle.isEmpty = false → since ≤ t
  /-- At or after the oracle read timestamp where the level or the query takes it as a hard lower
  bound. -/
  oracleReadTs_le : ∀ o, oracleReadTs = some o →
    (isolationLevel.hardLowerBound || when.mustAdvanceToTimelineTs) = true → o ≤ t
  /-- At or after the session oracle's read timestamp under strong session serializable. -/
  sessionOracleReadTs_le : isolationLevel = .strongSessionSerializable → ∀ tl o,
    timeline = some tl → session.timestampOracleReadTs tl = some o → o ≤ t
  /-- Between `anchor - D` and `largest_not_in_advance_of_upper` under bounded staleness. -/
  boundedStaleness : ∀ d anchor, isolationLevel = .boundedStaleness d →
    oracleReadTs = some anchor →
      Timestamp.saturatingSub anchor (boundMs d) ≤ t ∧ t ≤ largest
  /-- The query's own time when it constrains the upper. -/
  asOf : ∀ ts, when.advanceToTimestamp = some ts → when.constrainsUpper = true → t = ts
  /-- At or after the real-time-recency timestamp. -/
  realTimeRecencyTs_le : ∀ r, realTimeRecencyTs = some r → r ≤ t

theorem Constraints.singles_empty : Constraints.empty.Singles := by
  intro p hp
  simp at hp

section Selection

variable (session : Session) (since : Timestamp) (idBundle : CollectionIdBundle)
  (when : QueryWhen) (oracleReadTs realTimeRecencyTs : Option Timestamp)
  (isolationLevel : IsolationLevel) (timeline : Option Timeline) (largest : Timestamp)

/-- Where the assertion holds, the constraints are pushed, each lower one holds one time, and every
time that meets them meets the bounds of the selection. -/
theorem pushConstraints_spec
    (hrtr : ∀ r, realTimeRecencyTs = some r →
      session.realTimeRecency = true ∧ isolationLevel = .strictSerializable) :
    ∃ c so, pushConstraints session (some since) idBundle when oracleReadTs realTimeRecencyTs
        isolationLevel timeline largest = some (c, so) ∧ c.Singles ∧
      ∀ t, c.Feasible t → SelectionBounds session since idBundle when oracleReadTs
        realTimeRecencyTs isolationLevel timeline largest t := by
  -- the blocks in the source's order
  let c₀ := pushInputs (some since) idBundle .empty
  let c₁ := pushWhen when c₀
  let c₂ := pushOracleReadTs when oracleReadTs isolationLevel c₁
  let c₃ := realTimeRecencyTs.elim c₂ fun ts => c₂.pushLower (some ts) .realTimeRecency
  let c₄ := pushBoundedStaleness oracleReadTs isolationLevel largest c₃
  let c₅ := pushStrongSessionSerializable session when oracleReadTs isolationLevel timeline
    largest c₄
  have h₃ : c₂.Le c₃ ∧ (c₂.Singles → c₃.Singles) := by
    cases realTimeRecencyTs with
    | none => exact ⟨.refl _, id⟩
    | some r => exact ⟨(Le.refl _).pushLower _ _, fun h => h.pushLower rfl _⟩
  have hle₄ : c₄.Le c₅.1 := le_pushStrongSessionSerializable ..
  have hle₃ : c₃.Le c₅.1 := (le_pushBoundedStaleness ..).trans hle₄
  have hle₁ : c₁.Le c₅.1 := (le_pushOracleReadTs ..).trans (h₃.1.trans hle₃)
  have hle₀ : c₀.Le c₅.1 := (le_pushWhen ..).trans hle₁
  have hs₂ : c₂.Singles :=
    ((singles_empty.pushInputs (show (some since).isSome = true from rfl) idBundle).pushWhen
      when).pushOracleReadTs when oracleReadTs isolationLevel
  have hs₅ : c₅.1.Singles :=
    ((h₃.2 hs₂).pushBoundedStaleness oracleReadTs isolationLevel
      largest).pushStrongSessionSerializable session when oracleReadTs isolationLevel timeline
      largest
  refine ⟨c₅.1, c₅.2, ?_, hs₅, fun t ht => ⟨?_, ?_, ?_, ?_, ?_, ?_⟩⟩
  · simp [pushConstraints, pushRealTimeRecency_eq hrtr, c₅, c₄, c₃, c₂, c₁, c₀]
  · intro hread
    obtain ⟨r, hr⟩ := exists_mem_pushInputs (some since) hread Constraints.empty
    exact (ht.of_le hle₀).le_of_mem_lower hr
  · intro o ho hhard
    exact (ht.of_le (h₃.1.trans hle₃)).le_of_mem_lower (mem_pushOracleReadTs ho hhard c₁)
  · intro hiso tl o htl ho
    exact ht.le_of_mem_lower
      (mem_pushStrongSessionSerializable when oracleReadTs hiso htl ho largest c₄)
  · intro d anchor hiso ho
    have hmem := mem_pushBoundedStaleness ho hiso largest c₃
    exact ⟨(ht.of_le hle₄).le_of_mem_lower hmem.1, (ht.of_le hle₄).le_of_mem_upper hmem.2⟩
  · intro ts hts hup
    have hmem := mem_pushWhen hts c₀
    exact le_antisymm ((ht.of_le hle₁).le_of_mem_upper (hmem.2 hup))
      ((ht.of_le hle₁).le_of_mem_lower hmem.1)
  · intro r hr
    have hmem : (some r, Reason.realTimeRecency) ∈ c₃.lower := by
      simp [c₃, hr]
    exact (ht.of_le hle₃).le_of_mem_lower hmem

/-- Timestamp selection, where its real-time-recency assertion holds: it returns, it succeeds iff
the greatest lower time of the constraints it pushes is at or below their least upper time, the
time it picks is the lower time under `stalestValid` and the lower time advanced to the least of
the upper time and `largest` under `freshestAvailable`, and that time meets the bound set by each
input. -/
theorem determine_timestamp_via_constraints_extreme
    (hrtr : ∀ r, realTimeRecencyTs = some r →
      session.realTimeRecency = true ∧ isolationLevel = .strictSerializable) :
    ∃ c sessionOracleReadTs res,
      pushConstraints session (some since) idBundle when oracleReadTs realTimeRecencyTs
          isolationLevel timeline largest = some (c, sessionOracleReadTs) ∧
      determineTimestampViaConstraints session (some since) idBundle when oracleReadTs
          realTimeRecencyTs isolationLevel timeline largest = some res ∧
      ((∃ d, res = .ok d) ↔ ∀ u, c.upperTime = some u → c.lowerTime ≤ u) ∧
      ∀ d, res = .ok d →
        d.constraints = c.minimize ∧ d.sessionOracleReadTs = sessionOracleReadTs ∧
        (preferenceOf when isolationLevel timeline = .stalestValid →
          d.timestamp = c.lowerTime) ∧
        (preferenceOf when isolationLevel timeline = .freshestAvailable →
          d.timestamp = max c.lowerTime (c.upperTime.elim largest (min · largest))) ∧
        SelectionBounds session since idBundle when oracleReadTs realTimeRecencyTs isolationLevel
          timeline largest d.timestamp := by
  obtain ⟨c, so, hpush, hs, hbounds⟩ := pushConstraints_spec session since idBundle when
    oracleReadTs realTimeRecencyTs isolationLevel timeline largest hrtr
  set preference := preferenceOf when isolationLevel timeline
  have hcand := candidateOf_minimize hs preference largest
  -- the check of the source, on the minimized constraints
  have hcheck := candidate_accepted_iff hs.minimize preference largest
  rw [lowerTime_minimize hs, upperTime_minimize] at hcheck
  have hdet : determineTimestampViaConstraints session (some since) idBundle when oracleReadTs
      realTimeRecencyTs isolationLevel timeline largest =
      if (!Frontier.lessEqual c.minimize.lowerBound (candidateOf c.minimize preference largest) ||
          Frontier.lessThan c.minimize.upperBound (candidateOf c.minimize preference largest))
      then some (.error (infeasibleError c.minimize oracleReadTs isolationLevel largest))
      else some (.ok ⟨candidateOf c.minimize preference largest, c.minimize, so⟩) := by
    simp only [determineTimestampViaConstraints, hpush]
    rfl
  by_cases hok : ∀ u, c.upperTime = some u → c.lowerTime ≤ u
  · -- accepted: the candidate, which meets every constraint
    rw [← hcheck] at hok
    rw [if_neg (by simp [hok])] at hdet
    refine ⟨c, so, _, hpush, hdet, ⟨fun _ => hcheck.1 hok, fun _ => ⟨_, rfl⟩⟩, ?_⟩
    rintro d hd
    cases hd
    refine ⟨rfl, rfl, fun hp => ?_, fun hp => ?_, hbounds _ ?_⟩
    · rw [hcand, hp, candidateOf_stalestValid hs]
    · rw [hcand, hp, candidateOf_freshestAvailable hs]
    · rw [hcand]
      exact feasible_candidateOf hs preference largest (hcheck.1 hok)
  · -- rejected: an error
    rw [← hcheck, Bool.not_eq_false] at hok
    rw [if_pos hok] at hdet
    refine ⟨c, so, _, hpush, hdet, ⟨fun ⟨d, hd⟩ => (nomatch hd), fun h => ?_⟩,
      fun d hd => nomatch hd⟩
    rw [← hcheck, hok] at h
    cases h

/-- A real-time-recency timestamp supplied without real time recency enabled under strict
serializable panics at the assertion. -/
theorem determineTimestampViaConstraints_eq_none_of_realTimeRecency (since : Option Timestamp)
    {r : Timestamp} (hr : realTimeRecencyTs = some r)
    (hfail : (session.realTimeRecency && isolationLevel == .strictSerializable) = false) :
    determineTimestampViaConstraints session since idBundle when oracleReadTs realTimeRecencyTs
      isolationLevel timeline largest = none := by
  simp [determineTimestampViaConstraints, pushConstraints, pushRealTimeRecency, hr, hfail]

end Selection

theorem determine_timestamp_via_constraints_extreme_strict :
    let session : Session := ⟨true, fun _ => some 4⟩
    let idBundle : CollectionIdBundle := ⟨[1], []⟩
    ∃ c sessionOracleReadTs res,
      pushConstraints session (some 2) idBundle .immediately (some 7) (some 5) .strictSerializable
          (some .epochMilliseconds) 9 = some (c, sessionOracleReadTs) ∧
      determineTimestampViaConstraints session (some 2) idBundle .immediately (some 7) (some 5)
          .strictSerializable (some .epochMilliseconds) 9 = some res ∧
      ((∃ d, res = .ok d) ↔ ∀ u, c.upperTime = some u → c.lowerTime ≤ u) ∧
      ∀ d, res = .ok d →
        d.constraints = c.minimize ∧ d.sessionOracleReadTs = sessionOracleReadTs ∧
        (preferenceOf .immediately .strictSerializable (some .epochMilliseconds) = .stalestValid →
          d.timestamp = c.lowerTime) ∧
        (preferenceOf .immediately .strictSerializable (some .epochMilliseconds) =
            .freshestAvailable →
          d.timestamp = max c.lowerTime (c.upperTime.elim 9 (min · 9))) ∧
        SelectionBounds session 2 idBundle .immediately (some 7) (some 5) .strictSerializable
          (some .epochMilliseconds) 9 d.timestamp := by
  intro session idBundle
  exact determine_timestamp_via_constraints_extreme session 2 idBundle .immediately (some 7)
    (some 5) .strictSerializable (some .epochMilliseconds) 9 fun _ _ => ⟨rfl, rfl⟩

/-- A serializable read handed a real-time-recency timestamp panics instead of returning. -/
theorem determine_timestamp_rtr_serializable_panics :
    determineTimestampViaConstraints ⟨true, fun _ => none⟩ (some 2) ⟨[1], []⟩ .immediately
      (some 7) (some 5) .serializable (some .epochMilliseconds) 9 = none :=
  determineTimestampViaConstraints_eq_none_of_realTimeRecency _ _ _ _ _ _ _ _ _ rfl rfl

end Materialize.Coord
