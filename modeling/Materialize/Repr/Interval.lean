import Mathlib
import Materialize.Lib.Signed

/-!
# Intervals and their justification

The model of `Interval` (`repr/src/adt/interval.rs`): months and days as `i32`, microseconds as
`i64`, each field kept in its range by `SInt`. An arithmetic step that leaves the range is
`none`: the panic of `+=` and `-=` where overflow checks are on, or of `/` and `%`. A
`checked_add` that fails is the error the source returns, with its text.

* `justify_days` and `justify_hours` move whole months out of the days and whole days out of the
  microseconds, each ending with a `borrow` where the two fields have opposite signs;
  `justify_interval` does both and then borrows so that the three fields have one sign.
* Each step is specified by one lemma that says all it can return (`justifyDaysInner_spec`,
  `justifyHoursInner_spec`, `borrow_spec`, `borrowMonth_spec`): none of them panics, and what
  they return is the same length of time (`asMicroseconds`).
* The result of `justify_interval` has fewer than 30 days, less than a day of microseconds, and
  fields that are all non-negative or all non-positive (`justifyInterval_spec`).
-/

namespace Materialize.Adt

open Signed

/-- `Interval`. -/
structure Interval where
  months : SInt 32
  days : SInt 32
  micros : SInt 64
  deriving DecidableEq

/-- `Interval::DAY_PER_MONTH`, as the `i32` the justification uses. -/
def DAY_PER_MONTH : SInt 32 := .lit 30

/-- `USECS_PER_DAY`: `convert_date_time_unit` from days to microseconds at `1`, that is
`24 * 60 * 60 * 1000 * 1000`. -/
def USECS_PER_DAY : SInt 64 := .lit 86_400_000_000

/-- `MONTH_OVERFLOW_ERROR`. -/
def MONTH_OVERFLOW_ERROR : String :=
  "Overflows maximum months; cannot exceed 2147483647/-2147483648 microseconds"

/-- `DAY_OVERFLOW_ERROR`. -/
def DAY_OVERFLOW_ERROR : String :=
  "Overflows maximum days; cannot exceed 2147483647/-2147483648 microseconds"

/-- `Interval::as_microseconds`: the months at 30 days each, the days, and the microseconds, as
an `i128`. `convert_date_time_unit` multiplies the months by `30 * USECS_PER_DAY` and the days by
`USECS_PER_DAY`, and neither product of an `i32` overflows an `i128`, so its `unwrap`s hold. -/
def Interval.asMicroseconds (i : Interval) : Int :=
  i.months.val * (30 * 86_400_000_000) + i.days.val * 86_400_000_000 + i.micros.val

/-- `justify_days_inner`: the whole months of the days, by truncating division, moved to the
months; an error where the months overflow. -/
def justifyDaysInner (months days : SInt 32) : Option (Except String (SInt 32 × SInt 32)) := do
  let wholeMonth ← days.div? DAY_PER_MONTH
  let days ← days.sub? (← wholeMonth.mul? DAY_PER_MONTH)
  match months.add? wholeMonth with
  | none => pure (.error MONTH_OVERFLOW_ERROR)
  | some months => pure (.ok (months, days))

/-- The borrow that ends `justify_days` and `justify_hours` and is the last step of
`justify_interval`: where the larger unit and the smaller one have opposite signs, one of the
larger, worth `unit` of the smaller, is moved into the smaller. -/
def borrow {v : Nat} (unit : SInt v) (big : SInt 32) (small : SInt v) :
    Option (SInt 32 × SInt v) :=
  if 0 < big.val ∧ small.val < 0 then do
    let small ← small.add? unit
    let big ← big.sub? (.lit 1)
    pure (big, small)
  else if big.val < 0 ∧ 0 < small.val then do
    let small ← small.sub? unit
    let big ← big.add? (.lit 1)
    pure (big, small)
  else pure (big, small)

/-- `Interval::justify_days`: fewer than 30 days, with a month borrowed where the months and the
days that are left have opposite signs. -/
def justifyDays (i : Interval) : Option (Except String Interval) := do
  match ← justifyDaysInner i.months i.days with
  | .error e => pure (.error e)
  | .ok (months, days) =>
    let (months, days) ← borrow DAY_PER_MONTH months days
    pure (.ok ⟨months, days, i.micros⟩)

/-- `justify_hours_inner`: the whole days of the microseconds moved to the days; an error where
they do not fit an `i32` or the days overflow. -/
def justifyHoursInner (days : SInt 32) (micros : SInt 64) :
    Option (Except String (SInt 32 × SInt 64)) := do
  let wholeDays ← micros.div? USECS_PER_DAY
  match (wholeDays.cast? : Option (SInt 32)).bind days.add? with
  | none => pure (.error DAY_OVERFLOW_ERROR)
  | some days =>
    let micros ← micros.rem? USECS_PER_DAY
    pure (.ok (days, micros))

/-- `Interval::justify_hours`: less than a day of microseconds, with a day borrowed where the
days and the microseconds that are left have opposite signs. -/
def justifyHours (i : Interval) : Option (Except String Interval) := do
  match ← justifyHoursInner i.days i.micros with
  | .error e => pure (.error e)
  | .ok (days, micros) =>
    let (days, micros) ← borrow USECS_PER_DAY days micros
    pure (.ok ⟨i.months, days, micros⟩)

/-- The first borrow of `justify_interval`, of a month into the days. Unlike `borrow`, days of
zero borrow too where the microseconds have the sign opposite to the months'. -/
def borrowMonth (months days : SInt 32) (micros : SInt 64) : Option (SInt 32 × SInt 32) :=
  if 0 < months.val ∧ (days.val < 0 ∨ (days.val = 0 ∧ micros.val < 0)) then do
    let days ← days.add? DAY_PER_MONTH
    let months ← months.sub? (.lit 1)
    pure (months, days)
  else if months.val < 0 ∧ (0 < days.val ∨ (days.val = 0 ∧ 0 < micros.val)) then do
    let days ← days.sub? DAY_PER_MONTH
    let months ← months.add? (.lit 1)
    pure (months, days)
  else pure (months, days)

/-- `Interval::justify_interval`: the days justified (first already where the days and the
microseconds have one sign, so that the days do not overflow where the months can take them),
the microseconds justified, the days justified again, then a month and a day borrowed so that
all three fields have one sign. -/
def justifyInterval (i : Interval) : Option (Except String Interval) := do
  let first ← (if (0 < i.days.val ∧ 0 < i.micros.val) ∨ (i.days.val < 0 ∧ i.micros.val < 0) then
      justifyDaysInner i.months i.days
    else pure (.ok (i.months, i.days)))
  match first with
  | .error e => pure (.error e)
  | .ok (months, days) =>
  match ← justifyHoursInner days i.micros with
  | .error e => pure (.error e)
  | .ok (days, micros) =>
  match ← justifyDaysInner months days with
  | .error e => pure (.error e)
  | .ok (months, days) =>
  let (months, days) ← borrowMonth months days micros
  let (days, micros) ← borrow USECS_PER_DAY days micros
  pure (.ok ⟨months, days, micros⟩)

/-! ## Ranges and constants -/

theorem inRange32_iff (x : Int) : InRange 32 x ↔ -2147483648 ≤ x ∧ x < 2147483648 := Iff.rfl
theorem inRange64_iff (x : Int) : InRange 64 x ↔ -9223372036854775808 ≤ x ∧ x < 9223372036854775808 := Iff.rfl
theorem val_bounds32 (a : SInt 32) : -2147483648 ≤ a.val ∧ a.val < 2147483648 := a.inRange
theorem val_bounds64 (a : SInt 64) : -9223372036854775808 ≤ a.val ∧ a.val < 9223372036854775808 := a.inRange

@[simp] theorem DAY_PER_MONTH_val : DAY_PER_MONTH.val = 30 := rfl
@[simp] theorem USECS_PER_DAY_val : USECS_PER_DAY.val = 86_400_000_000 := rfl

/-! ## The steps

Each step is specified by what it can return: an error with its text, or fields that hold the
same length of time. -/

/-- What moving the whole units of the smaller field into the larger one leaves: the same length
of time, less than one unit in the smaller field, and the smaller field's sign where it had one. -/
structure Carried (unit big small big' small' : Int) : Prop where
  total : big' * unit + small' = big * unit + small
  small_lt : -unit < small' ∧ small' < unit
  nonneg : 0 ≤ small → 0 ≤ small'
  nonpos : small ≤ 0 → small' ≤ 0

/-- Truncating division carries the whole units. -/
theorem carried_tdiv_tmod (big small : Int) {unit : Int} (hunit : 0 < unit) :
    Carried unit big small (big + small.tdiv unit) (small.tmod unit) := by
  obtain ⟨hqr, hpos, hneg⟩ := tdiv_tmod_bounds small hunit
  refine ⟨?_, ?_, fun h => (hpos h).1, fun h => (hneg h).2⟩
  · rw [Int.add_mul, Int.mul_comm (small.tdiv unit)]
    omega
  · rcases le_total 0 small with h | h
    · have := hpos h; omega
    · have := hneg h; omega

theorem justifyDaysInner_spec (months days : SInt 32) :
    ∃ r, justifyDaysInner months days = some r ∧
      (r = .error MONTH_OVERFLOW_ERROR ∨ ∃ m d : SInt 32, r = .ok (m, d) ∧
        Carried 30 months.val days.val m.val d.val) := by
  obtain ⟨hqr, hpos, hneg⟩ := tdiv_tmod_bounds days.val (u := 30) (by norm_num)
  have hd := val_bounds32 days
  -- the quotient, its product with 30 and the remainder all fit an `i32`
  have h1 : InRange 32 (days.val.tdiv 30) := by rw [inRange32_iff]; omega
  have h2 : InRange 32 (days.val.tdiv 30 * 30) := by rw [inRange32_iff]; omega
  have h3 : InRange 32 (days.val - days.val.tdiv 30 * 30) := by rw [inRange32_iff]; omega
  simp [justifyDaysInner, SInt.div?, SInt.mul?, SInt.sub?, SInt.ofInt?, h1, h2, h3]
  split
  · exact ⟨_, rfl, .inl rfl⟩
  · rename_i m hm
    refine ⟨_, rfl, .inr ⟨m, _, rfl, ?_⟩⟩
    have hrem : days.val - days.val.tdiv 30 * 30 = days.val.tmod 30 := by omega
    rw [SInt.add?_eq_some_iff.mp hm]
    simpa only [hrem] using carried_tdiv_tmod months.val days.val (by norm_num : (0 : Int) < 30)

theorem justifyHoursInner_spec (days : SInt 32) (micros : SInt 64) :
    ∃ r, justifyHoursInner days micros = some r ∧
      (r = .error DAY_OVERFLOW_ERROR ∨ ∃ (d : SInt 32) (μ : SInt 64), r = .ok (d, μ) ∧
        Carried 86_400_000_000 days.val micros.val d.val μ.val) := by
  obtain ⟨hqr, hpos, hneg⟩ := tdiv_tmod_bounds micros.val (u := 86_400_000_000) (by norm_num)
  have hm := val_bounds64 micros
  -- a quotient of an `i64` by the microseconds of a day fits even an `i32`
  have h1 : InRange 64 (micros.val.tdiv 86_400_000_000) := by rw [inRange64_iff]; omega
  have h2 : InRange 32 (micros.val.tdiv 86_400_000_000) := by rw [inRange32_iff]; omega
  have h3 : InRange 64 (micros.val.tmod 86_400_000_000) := by rw [inRange64_iff]; omega
  simp [justifyHoursInner, SInt.div?, SInt.rem?, SInt.cast?, SInt.ofInt?, h1, h2, h3]
  split
  · exact ⟨_, rfl, .inl rfl⟩
  · rename_i d hd
    refine ⟨_, rfl, .inr ⟨d, _, rfl, ?_⟩⟩
    rw [SInt.add?_eq_some_iff.mp hd]
    exact carried_tdiv_tmod days.val micros.val (by norm_num)

/-- A borrow on a smaller field within one unit cannot panic, and either moves one unit or
leaves the fields as they are. -/
theorem borrow_spec {v : Nat} (unit : SInt v) (big : SInt 32) (small : SInt v)
    (hsmall : -unit.val < small.val ∧ small.val < unit.val) :
    ∃ big' small', borrow unit big small = some (big', small') ∧
      ((0 < big.val ∧ small.val < 0 ∧ big'.val = big.val - 1 ∧ small'.val = small.val + unit.val) ∨
       (big.val < 0 ∧ 0 < small.val ∧ big'.val = big.val + 1 ∧ small'.val = small.val - unit.val) ∨
       (¬(0 < big.val ∧ small.val < 0) ∧ ¬(big.val < 0 ∧ 0 < small.val) ∧
         big'.val = big.val ∧ small'.val = small.val)) := by
  have hu := unit.inRange
  have hb := val_bounds32 big
  unfold InRange at hu
  unfold borrow
  split_ifs with h₁ h₂
  · -- a negative smaller field gains a unit and stays within one
    have hs : InRange v (small.val + unit.val) := by unfold InRange; omega
    have hb' : InRange 32 (big.val - (SInt.lit 1 : SInt 32).val) := by rw [SInt.val_lit, inRange32_iff]; omega
    rw [SInt.add?_of_inRange hs, SInt.sub?_of_inRange hb']
    exact ⟨_, _, rfl, .inl ⟨h₁.1, h₁.2, rfl, rfl⟩⟩
  · have hs : InRange v (small.val - unit.val) := by unfold InRange; omega
    have hb' : InRange 32 (big.val + (SInt.lit 1 : SInt 32).val) := by rw [SInt.val_lit, inRange32_iff]; omega
    rw [SInt.sub?_of_inRange hs, SInt.add?_of_inRange hb']
    exact ⟨_, _, rfl, .inr (.inl ⟨h₂.1, h₂.2, rfl, rfl⟩)⟩
  · exact ⟨_, _, rfl, .inr (.inr ⟨h₁, h₂, rfl, rfl⟩)⟩


theorem borrowMonth_spec (months days : SInt 32) (micros : SInt 64)
    (hdays : -30 < days.val ∧ days.val < 30) :
    ∃ months' days', borrowMonth months days micros = some (months', days') ∧
      ((0 < months.val ∧ (days.val < 0 ∨ (days.val = 0 ∧ micros.val < 0)) ∧
          months'.val = months.val - 1 ∧ days'.val = days.val + 30) ∨
       (months.val < 0 ∧ (0 < days.val ∨ (days.val = 0 ∧ 0 < micros.val)) ∧
          months'.val = months.val + 1 ∧ days'.val = days.val - 30) ∨
       (¬(0 < months.val ∧ (days.val < 0 ∨ (days.val = 0 ∧ micros.val < 0))) ∧
          ¬(months.val < 0 ∧ (0 < days.val ∨ (days.val = 0 ∧ 0 < micros.val))) ∧
          months'.val = months.val ∧ days'.val = days.val)) := by
  have hm := val_bounds32 months
  unfold borrowMonth
  split_ifs with h₁ h₂
  · have hd : InRange 32 (days.val + DAY_PER_MONTH.val) := by
      rw [DAY_PER_MONTH_val, inRange32_iff]; omega
    have hm' : InRange 32 (months.val - (SInt.lit 1 : SInt 32).val) := by
      rw [SInt.val_lit, inRange32_iff]; omega
    rw [SInt.add?_of_inRange hd, SInt.sub?_of_inRange hm']
    exact ⟨_, _, rfl, .inl ⟨h₁.1, h₁.2, rfl, rfl⟩⟩
  · have hd : InRange 32 (days.val - DAY_PER_MONTH.val) := by
      rw [DAY_PER_MONTH_val, inRange32_iff]; omega
    have hm' : InRange 32 (months.val + (SInt.lit 1 : SInt 32).val) := by
      rw [SInt.val_lit, inRange32_iff]; omega
    rw [SInt.sub?_of_inRange hd, SInt.add?_of_inRange hm']
    exact ⟨_, _, rfl, .inr (.inl ⟨h₂.1, h₂.2, rfl, rfl⟩)⟩
  · exact ⟨_, _, rfl, .inr (.inr ⟨h₁, h₂, rfl, rfl⟩)⟩

/-- Where the days are not zero, the first borrow of `justify_interval` is the borrow of
`justify_days`. -/
theorem borrowMonth_of_ne_zero (months days : SInt 32) (micros : SInt 64) (h : days.val ≠ 0) :
    borrowMonth months days micros = borrow DAY_PER_MONTH months days := by
  simp only [borrowMonth, borrow, h, false_and, or_false]

/-! ## The justifications -/

theorem justifyDays_spec (i : Interval) :
    ∃ r, justifyDays i = some r ∧ ∀ j, r = .ok j → j.asMicroseconds = i.asMicroseconds := by
  obtain ⟨r, hr, rfl | ⟨m, d, rfl, hc⟩⟩ := justifyDaysInner_spec i.months i.days
  · exact ⟨.error MONTH_OVERFLOW_ERROR, by rw [justifyDays, hr]; rfl, by simp⟩
  · obtain ⟨m', d', hb, hcases⟩ := borrow_spec DAY_PER_MONTH m d (by simpa using hc.small_lt)
    refine ⟨.ok ⟨m', d', i.micros⟩, by simp [justifyDays, hr, hb], ?_⟩
    rintro j ⟨⟩
    have := hc.total
    simp only [Interval.asMicroseconds, DAY_PER_MONTH_val] at hcases ⊢
    omega

theorem justifyHours_spec (i : Interval) :
    ∃ r, justifyHours i = some r ∧ ∀ j, r = .ok j → j.asMicroseconds = i.asMicroseconds := by
  obtain ⟨r, hr, rfl | ⟨d, μ, rfl, hc⟩⟩ := justifyHoursInner_spec i.days i.micros
  · exact ⟨.error DAY_OVERFLOW_ERROR, by rw [justifyHours, hr]; rfl, by simp⟩
  · obtain ⟨d', μ', hb, hcases⟩ := borrow_spec USECS_PER_DAY d μ (by simpa using hc.small_lt)
    refine ⟨.ok ⟨i.months, d', μ'⟩, by simp [justifyHours, hr, hb], ?_⟩
    rintro j ⟨⟩
    have := hc.total
    simp only [Interval.asMicroseconds, USECS_PER_DAY_val] at hcases ⊢
    omega

/-- The days justified first, where the days and the microseconds have one sign. -/
theorem justifyInterval_first (i : Interval) :
    ∃ r, (if (0 < i.days.val ∧ 0 < i.micros.val) ∨ (i.days.val < 0 ∧ i.micros.val < 0) then
        justifyDaysInner i.months i.days else pure (.ok (i.months, i.days))) = some r ∧
      (r = .error MONTH_OVERFLOW_ERROR ∨ ∃ m d : SInt 32, r = .ok (m, d) ∧
        m.val * 30 + d.val = i.months.val * 30 + i.days.val) := by
  split_ifs
  · obtain ⟨r, hr, h⟩ := justifyDaysInner_spec i.months i.days
    exact ⟨r, hr, h.imp_right fun ⟨m, d, hmd, hc⟩ => ⟨m, d, hmd, hc.total⟩⟩
  · exact ⟨_, rfl, .inr ⟨_, _, rfl, rfl⟩⟩

/-- `justify_interval` cannot panic, and what it returns is the same length of time, within a
month of days and a day of microseconds, with one sign. -/
theorem justifyInterval_spec (i : Interval) :
    ∃ r, justifyInterval i = some r ∧ ∀ j, r = .ok j →
      j.asMicroseconds = i.asMicroseconds ∧
      (-30 < j.days.val ∧ j.days.val < 30) ∧
      (-86_400_000_000 < j.micros.val ∧ j.micros.val < 86_400_000_000) ∧
      ((0 ≤ j.months.val ∧ 0 ≤ j.days.val ∧ 0 ≤ j.micros.val) ∨
        (j.months.val ≤ 0 ∧ j.days.val ≤ 0 ∧ j.micros.val ≤ 0)) := by
  obtain ⟨r₁, h₁, rfl | ⟨m₁, d₁, rfl, ht₁⟩⟩ := justifyInterval_first i
  · exact ⟨.error MONTH_OVERFLOW_ERROR, by rw [justifyInterval, h₁]; rfl, by simp⟩
  obtain ⟨r₂, h₂, rfl | ⟨d₂, μ₂, rfl, hc₂⟩⟩ := justifyHoursInner_spec d₁ i.micros
  · exact ⟨.error DAY_OVERFLOW_ERROR, by rw [justifyInterval, h₁]; simp [h₂], by simp⟩
  obtain ⟨r₃, h₃, rfl | ⟨m₃, d₃, rfl, hc₃⟩⟩ := justifyDaysInner_spec m₁ d₂
  · exact ⟨.error MONTH_OVERFLOW_ERROR, by rw [justifyInterval, h₁]; simp [h₂, h₃], by simp⟩
  -- the two borrows are left, on fields that the steps before brought within one unit
  obtain ⟨m₄, d₄, h₄, hcases₄⟩ := borrowMonth_spec m₃ d₃ μ₂ hc₃.small_lt
  obtain ⟨d₅, μ₅, h₅, hcases₅⟩ := borrow_spec USECS_PER_DAY d₄ μ₂ (by simpa using hc₂.small_lt)
  refine ⟨.ok ⟨m₄, d₅, μ₅⟩, by rw [justifyInterval, h₁]; simp [h₂, h₃, h₄, h₅], ?_⟩
  rintro j ⟨⟩
  obtain ⟨ht₂, hμ₂, -, -⟩ := hc₂
  obtain ⟨ht₃, hd₃, -, -⟩ := hc₃
  simp only [Interval.asMicroseconds, USECS_PER_DAY_val] at hcases₅ ⊢
  omega

example : justifyInterval ⟨.lit 1, .lit 0, .lit (-1)⟩ =
    some (.ok ⟨.lit 0, .lit 29, .lit 86_399_999_999⟩) := by
  decide

theorem justify_no_panic_same_length (i : Interval) :
    (∃ r, justifyDays i = some r) ∧ (∃ r, justifyHours i = some r) ∧
    (∃ r, justifyInterval i = some r) ∧
    (∀ j, justifyDays i = some (.ok j) → j.asMicroseconds = i.asMicroseconds) ∧
    (∀ j, justifyHours i = some (.ok j) → j.asMicroseconds = i.asMicroseconds) ∧
    ∀ j, justifyInterval i = some (.ok j) → j.asMicroseconds = i.asMicroseconds ∧
      |j.days.val| < 30 ∧ |j.micros.val| < 86_400_000_000 ∧
      ((0 ≤ j.months.val ∧ 0 ≤ j.days.val ∧ 0 ≤ j.micros.val) ∨
        (j.months.val ≤ 0 ∧ j.days.val ≤ 0 ∧ j.micros.val ≤ 0)) := by
  obtain ⟨r₁, h₁, hok₁⟩ := justifyDays_spec i
  obtain ⟨r₂, h₂, hok₂⟩ := justifyHours_spec i
  obtain ⟨r₃, h₃, hok₃⟩ := justifyInterval_spec i
  refine ⟨⟨r₁, h₁⟩, ⟨r₂, h₂⟩, ⟨r₃, h₃⟩, fun j hj => hok₁ j (Option.some.inj (h₁.symm.trans hj)),
    fun j hj => hok₂ j (Option.some.inj (h₂.symm.trans hj)), ?_⟩
  intro j hj
  obtain ⟨hμ, hdays, hmicros, hsign⟩ := hok₃ j (Option.some.inj (h₃.symm.trans hj))
  exact ⟨hμ, abs_lt.mpr hdays, abs_lt.mpr hmicros, hsign⟩

end Materialize.Adt
