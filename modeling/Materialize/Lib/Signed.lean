import Mathlib

/-!
# Signed integers of a fixed width

`SInt w` is a signed integer of `w` bits as the `Int` it stands for, its range carried by the
type. An operation whose exact result leaves the range gives `none`: a `checked_*` method that
returns `None`, or an operator that panics where overflow checks are on. Division and remainder
truncate toward zero (`Int.tdiv`, `Int.tmod`); both fail on a zero divisor and where the quotient
overflows (`MIN / -1`).

Each operation is specified through `val` by an `_eq_some_iff` lemma, and succeeds with the exact
result wherever that is in range (`_of_inRange`). `tdiv_tmod_bounds` gives the truncating
division by a positive divisor in the terms `omega` reads.

The `as` casts to and from the unsigned integer of the same width are `toBits` and `ofBits`;
flipping the top bit of the pattern gives the biased form, which is read back by `ofBits`
(`ofBits_toBits`) and compares as the values do (`compare_toBits_xor`).
-/

namespace Signed

/-- The range of a signed integer of `w` bits. -/
def InRange (w : Nat) (x : Int) : Prop := -2 ^ (w - 1) ≤ x ∧ x < 2 ^ (w - 1)

instance (w : Nat) (x : Int) : Decidable (InRange w x) :=
  inferInstanceAs (Decidable (_ ∧ _))

/-- A signed integer of `w` bits. -/
structure SInt (w : Nat) where
  val : Int
  inRange : InRange w val
  deriving DecidableEq

/-! ## Powers of two and bits -/

theorem two_pow_le_two_mul (w : Nat) : (2 : Int) ^ w ≤ 2 * 2 ^ (w - 1) := by
  cases w with
  | zero => norm_num
  | succ w => rw [Nat.add_sub_cancel, pow_succ, Int.mul_comm]

theorem cast_two_pow (k : Nat) : ((2 ^ k : Nat) : Int) = 2 ^ k := by
  push_cast
  rfl

/-- Setting a bit above a number adds it. -/
theorem xor_two_pow_of_lt {a k : Nat} (h : a < 2 ^ k) : a ^^^ 2 ^ k = a + 2 ^ k := by
  rw [← Nat.or_two_pow_eq_add_of_lt h]
  apply Nat.eq_of_testBit_eq
  intro i
  rw [Nat.testBit_xor, Nat.testBit_or, Nat.testBit_two_pow]
  by_cases hi : k = i
  · subst hi
    simp [Nat.testBit_lt_two_pow h]
  · simp [hi]

namespace SInt

variable {w v : Nat}

@[ext] theorem ext {a b : SInt w} (h : a.val = b.val) : a = b := by
  cases a
  cases b
  cases h
  rfl

/-- Signed integers are ordered as the integers they stand for. -/
instance : LinearOrder (SInt w) := LinearOrder.lift' SInt.val fun _ _ => SInt.ext

theorem lt_iff_val_lt {a b : SInt w} : a < b ↔ a.val < b.val := Iff.rfl

theorem le_iff_val_le {a b : SInt w} : a ≤ b ↔ a.val ≤ b.val := Iff.rfl

instance : Inhabited (SInt w) :=
  ⟨⟨0, neg_nonpos.mpr (by positivity), by positivity⟩⟩

/-- The value right above a signed integer is its successor, where that is in range. -/
theorem covBy_iff {a b : SInt w} : a ⋖ b ↔ b.val = a.val + 1 := by
  constructor
  · intro h
    have hab := lt_iff_val_lt.mp h.lt
    by_contra hne
    -- a value strictly between: `a + 1`, in range as it lies between `a` and `b`
    have hin : InRange w (a.val + 1) := ⟨by linarith [a.inRange.1], by linarith [b.inRange.2]⟩
    exact h.2 (c := ⟨a.val + 1, hin⟩) (lt_iff_val_lt.mpr (by simp))
      (lt_iff_val_lt.mpr (show a.val + 1 < b.val by omega))
  · intro h
    refine ⟨lt_iff_val_lt.mpr (by omega), fun c hac hcb => ?_⟩
    rw [lt_iff_val_lt] at hac hcb
    omega

/-- A constant, its range checked where it is written. -/
def lit (x : Int) (h : InRange w x := by decide) : SInt w := ⟨x, h⟩

@[simp] theorem val_lit (x : Int) (h : InRange w x) : (lit x h).val = x := rfl

theorem inRange_one (w : Nat) : InRange (w + 2) 1 := by
  have h : (1 : Int) < 2 ^ (w + 2 - 1) := one_lt_pow₀ (by norm_num) (by omega)
  exact ⟨by omega, h⟩

/-- The constant one, its range proved once for every width of at least two bits. -/
def one : SInt (w + 2) := ⟨1, inRange_one w⟩

@[simp] theorem val_one : (one : SInt (w + 2)).val = 1 := rfl

theorem one_eq_lit : (one : SInt (w + 2)) = lit 1 (inRange_one w) := rfl

/-- The integer as a signed integer of `w` bits, `none` out of range. -/
def ofInt? (x : Int) : Option (SInt w) :=
  if h : InRange w x then some ⟨x, h⟩ else none

theorem ofInt?_eq_some_iff {x : Int} {a : SInt w} : ofInt? x = some a ↔ a.val = x := by
  unfold ofInt?
  constructor
  · intro h
    split at h
    · cases h
      rfl
    · cases h
  · rintro rfl
    rw [dif_pos a.inRange]

theorem ofInt?_of_inRange {x : Int} (h : InRange w x) : ofInt? x = some ⟨x, h⟩ :=
  ofInt?_eq_some_iff.mpr rfl

/-- `checked_add`, or `+` where it panics. -/
def add? (a b : SInt w) : Option (SInt w) := ofInt? (a.val + b.val)

/-- `checked_sub`, or `-` where it panics. -/
def sub? (a b : SInt w) : Option (SInt w) := ofInt? (a.val - b.val)

/-- `checked_mul`, or `*` where it panics. -/
def mul? (a b : SInt w) : Option (SInt w) := ofInt? (a.val * b.val)

/-- `/`, which panics on a zero divisor and on an overflow. -/
def div? (a b : SInt w) : Option (SInt w) :=
  if b.val = 0 then none else ofInt? (a.val.tdiv b.val)

/-- `%`, which panics where `/` does. -/
def rem? (a b : SInt w) : Option (SInt w) :=
  if b.val = 0 ∨ ¬InRange w (a.val.tdiv b.val) then none else ofInt? (a.val.tmod b.val)

/-- `try_from` between widths. -/
def cast? (a : SInt v) : Option (SInt w) := ofInt? a.val

theorem add?_eq_some_iff {a b c : SInt w} : a.add? b = some c ↔ c.val = a.val + b.val :=
  ofInt?_eq_some_iff

theorem sub?_eq_some_iff {a b c : SInt w} : a.sub? b = some c ↔ c.val = a.val - b.val :=
  ofInt?_eq_some_iff

theorem add?_of_inRange {a b : SInt w} (h : InRange w (a.val + b.val)) :
    a.add? b = some ⟨_, h⟩ :=
  ofInt?_of_inRange h

theorem sub?_of_inRange {a b : SInt w} (h : InRange w (a.val - b.val)) :
    a.sub? b = some ⟨_, h⟩ :=
  ofInt?_of_inRange h

theorem mul?_of_inRange {a b : SInt w} (h : InRange w (a.val * b.val)) :
    a.mul? b = some ⟨_, h⟩ :=
  ofInt?_of_inRange h

theorem div?_of_inRange {a b : SInt w} (hb : b.val ≠ 0) (h : InRange w (a.val.tdiv b.val)) :
    a.div? b = some ⟨_, h⟩ := by
  rw [div?, if_neg hb, ofInt?_of_inRange h]

theorem rem?_of_inRange {a b : SInt w} (hb : b.val ≠ 0) (hq : InRange w (a.val.tdiv b.val))
    (h : InRange w (a.val.tmod b.val)) : a.rem? b = some ⟨_, h⟩ := by
  rw [rem?, if_neg (by simp [hb, hq]), ofInt?_of_inRange h]

theorem cast?_of_inRange {a : SInt v} (h : InRange w a.val) : (a.cast? : Option (SInt w)) = some ⟨_, h⟩ :=
  ofInt?_of_inRange h

/-! ## Bit patterns

The `as` casts between a signed integer and the unsigned one of its width, and the biased form
(the pattern with its top bit flipped) that encoders use so that unsigned order is signed order. -/

/-- `as u<w>`: the two's-complement bit pattern. -/
def toBits (a : SInt w) : Nat := (a.val % 2 ^ w).toNat

/-- `as i<w>` of a `w`-bit pattern: its two's-complement reading. -/
def ofBits (n : Nat) : SInt w :=
  if h : (n : Int) % 2 ^ w < 2 ^ (w - 1) then
    ⟨(n : Int) % 2 ^ w, by
      have : 0 ≤ (n : Int) % 2 ^ w := Int.emod_nonneg _ (by positivity)
      have : (0 : Int) ≤ 2 ^ (w - 1) := by positivity
      exact ⟨by omega, h⟩⟩
  else
    ⟨(n : Int) % 2 ^ w - 2 ^ w, by
      have : (n : Int) % 2 ^ w < 2 ^ w := Int.emod_lt_of_pos _ (by positivity)
      have := two_pow_le_two_mul w
      exact ⟨by omega, by omega⟩⟩

/-- Flipping the top bit of the pattern gives the value moved up by `2 ^ (w - 1)`: the biased
form, which is non-negative and ordered as the values are. -/
theorem toBits_xor (hw : 0 < w) (a : SInt w) :
    a.toBits ^^^ 2 ^ (w - 1) = (a.val + 2 ^ (w - 1)).toNat := by
  obtain ⟨hlo, hhi⟩ := a.inRange
  have hw' : (2 : Int) ^ w = 2 * 2 ^ (w - 1) := by
    rw [← pow_succ', Nat.sub_add_cancel hw]
  simp only [← cast_two_pow] at hlo hhi hw' ⊢
  unfold toBits
  rcases le_or_gt 0 a.val with hpos | hneg
  · -- a non-negative value is its own pattern, below the flipped bit
    rw [Int.emod_eq_of_lt hpos (by simp only [← cast_two_pow]; omega)]
    rw [xor_two_pow_of_lt (by omega)]
    omega
  · -- a negative value's pattern is the biased form with the bit set; flipping it clears it
    have hlt : (a.val + ((2 ^ (w - 1) : Nat) : Int)).toNat < 2 ^ (w - 1) := by omega
    have hmod : (a.val % 2 ^ w).toNat = (a.val + ((2 ^ (w - 1) : Nat) : Int)).toNat + 2 ^ (w - 1) := by
      rw [← Int.add_emod_right, Int.emod_eq_of_lt (by simp only [← cast_two_pow]; omega)
        (by simp only [← cast_two_pow]; omega)]
      simp only [← cast_two_pow]
      omega
    rw [hmod, ← xor_two_pow_of_lt hlt, Nat.xor_assoc, Nat.xor_self, Nat.xor_zero]

theorem ofBits_toBits (hw : 0 < w) (a : SInt w) : ofBits a.toBits = a := by
  obtain ⟨hlo, hhi⟩ := a.inRange
  have hpos : (0 : Int) < 2 ^ (w - 1) := by positivity
  have hw' : (2 : Int) ^ w = 2 * 2 ^ (w - 1) := by
    rw [← pow_succ', Nat.sub_add_cancel hw]
  have hnn : 0 ≤ a.val % 2 ^ w := Int.emod_nonneg _ (by omega)
  -- the pattern read back as an `Int` is the value modulo `2 ^ w`
  have hcast : ((a.toBits : Nat) : Int) % 2 ^ w = a.val % 2 ^ w := by
    rw [toBits, Int.toNat_of_nonneg hnn, Int.emod_emod_of_dvd _ dvd_rfl]
  rcases le_or_gt 0 a.val with hnonneg | hneg
  · -- a non-negative value is its own pattern, below the sign bit
    have hmod : a.val % 2 ^ w = a.val := Int.emod_eq_of_lt hnonneg (by omega)
    have hcond : a.val < 2 ^ (w - 1) := hhi
    simp only [ofBits, hcast, hmod, hcond, dite_true]
  · -- a negative value's pattern is `2 ^ w` above it, at or above the sign bit
    have hmod : a.val % 2 ^ w = a.val + 2 ^ w := by
      rw [← Int.add_emod_right, Int.emod_eq_of_lt (by omega) (by omega)]
    have hcond : ¬a.val + 2 ^ w < 2 ^ (w - 1) := by omega
    simp only [ofBits, hcast, hmod, hcond, dite_false]
    exact SInt.ext (Int.add_sub_cancel _ _)

/-- The biased forms of two values compare as the values do. -/
theorem compare_toBits_xor (hw : 0 < w) (a b : SInt w) :
    compare (a.toBits ^^^ 2 ^ (w - 1)) (b.toBits ^^^ 2 ^ (w - 1)) = compare a.val b.val := by
  rw [toBits_xor hw, toBits_xor hw]
  have ha := a.inRange.1
  have hb := b.inRange.1
  rcases lt_trichotomy a.val b.val with h | h | h
  · rw [compare_lt_iff_lt.mpr h, compare_lt_iff_lt.mpr (by omega)]
  · rw [h, compare_eq_iff_eq.mpr rfl, compare_eq_iff_eq.mpr rfl]
  · rw [compare_gt_iff_gt.mpr h, compare_gt_iff_gt.mpr (by omega)]

theorem toBits_xor_lt (hw : 0 < w) (a : SInt w) : a.toBits ^^^ 2 ^ (w - 1) < 2 ^ w := by
  have hr := a.inRange
  have hw' : (2 : Int) ^ w = 2 * 2 ^ (w - 1) := by
    rw [← pow_succ', Nat.sub_add_cancel hw]
  rw [toBits_xor hw]
  unfold InRange at hr
  simp only [← cast_two_pow] at hr hw' ⊢
  omega

end SInt

/-- Truncating division by a positive divisor: the quotient and the remainder make up the
dividend, and the remainder has the dividend's sign and is smaller than the divisor. -/
theorem tdiv_tmod_bounds (x : Int) {u : Int} (hu : 0 < u) :
    u * x.tdiv u + x.tmod u = x ∧ (0 ≤ x → 0 ≤ x.tmod u ∧ x.tmod u < u) ∧
      (x ≤ 0 → -u < x.tmod u ∧ x.tmod u ≤ 0) := by
  refine ⟨Int.mul_tdiv_add_tmod x u, fun hx => ⟨Int.tmod_nonneg u hx, Int.tmod_lt_of_pos x hu⟩,
    fun hx => ⟨Int.lt_tmod_of_pos x hu, ?_⟩⟩
  -- a remainder of a non-positive dividend is the negated remainder of its negation
  have hneg : 0 ≤ (-x).tmod u := Int.tmod_nonneg u (by omega)
  rw [Int.neg_tmod] at hneg
  omega

end Signed
