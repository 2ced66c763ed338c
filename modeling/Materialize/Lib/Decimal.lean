import Mathlib.Data.Nat.Log
import Mathlib.Algebra.Order.Field.Rat
import Mathlib.Algebra.Order.Field.Power
import Mathlib.Tactic.Ring

/-!
# Finite decimal arithmetic with a rounding context

A finite decimal in the data model of the General Decimal Arithmetic specification: a sign, a
coefficient and an exponent, denoting `±coefficient · 10 ^ exponent`. Every arithmetic operation
computes its exact result (`Decimal.mulExact`, `Decimal.addExact`) and then rounds it under a
context, a precision and an exponent range, raising status flags.

The rounding function is a parameter: its laws (`RoundingLaws`) are the behaviour the
specification documents and that callers rely on. A result that fits is returned unchanged, a
result with too many digits raises `rounded`, a result without `inexact` has the exact value,
a result without any flag keeps its exponent, and dropping only zeros is not inexact.
`roundDown` is one rounding function that obeys them (`roundDown_lawful`).
-/

namespace Decimal

/-- The number of decimal digits of a coefficient; zero has one digit, as in the specification. -/
def numDigits (c : Nat) : Nat := Nat.log 10 c + 1

/-- A finite decimal `±coefficient · 10 ^ exponent`. -/
structure Dec where
  negative : Bool
  coefficient : Nat
  exponent : Int
  deriving DecidableEq, Repr

/-- The rational number a decimal denotes. -/
def Dec.value (d : Dec) : ℚ :=
  (if d.negative then -1 else 1) * d.coefficient * (10 : ℚ) ^ d.exponent

/-- The exponent of the most significant digit. -/
def Dec.adjusted (d : Dec) : Int := d.exponent + numDigits d.coefficient - 1

/-- Precision and exponent range of a rounding context. -/
structure Context where
  precision : Nat
  emax : Int
  emin : Int
  deriving DecidableEq, Repr

/-- A decimal whose adjusted exponent lies in the context's range: neither an overflow nor a
subnormal. -/
def Context.InRange (cx : Context) (d : Dec) : Prop := cx.emin ≤ d.adjusted ∧ d.adjusted ≤ cx.emax

instance (cx : Context) (d : Dec) : Decidable (cx.InRange d) :=
  inferInstanceAs (Decidable (_ ∧ _))

/-- The status flags of a context: `inexact`, `rounded`, and all others together. -/
structure Status where
  inexact : Bool
  rounded : Bool
  other : Bool
  deriving DecidableEq, Repr

/-- No flag raised. -/
def Status.clear : Status := ⟨false, false, false⟩

/-- Flags accumulate: a context keeps every flag an operation raised. -/
def Status.merge (s t : Status) : Status := ⟨s.inexact || t.inexact, s.rounded || t.rounded, s.other || t.other⟩

/-- Some flag is raised. -/
def Status.any (s : Status) : Bool := s.inexact || s.rounded || s.other

@[simp] theorem Status.merge_inexact (s t : Status) : (s.merge t).inexact = (s.inexact || t.inexact) := rfl
@[simp] theorem Status.merge_rounded (s t : Status) : (s.merge t).rounded = (s.rounded || t.rounded) := rfl
@[simp] theorem Status.merge_other (s t : Status) : (s.merge t).other = (s.other || t.other) := rfl
@[simp] theorem Status.merge_clear (s : Status) : s.merge .clear = s := by
  cases s; simp [Status.merge, Status.clear]

theorem Status.any_eq_false {s : Status} : s.any = false ↔ s = .clear := by
  cases s; simp [Status.any, Status.clear, and_assoc]

/-! ## Exact operations -/

/-- A non-negative integer with exponent zero. -/
def Dec.ofNat (n : Nat) : Dec := ⟨false, n, 0⟩

/-- The sign flipped. -/
def Dec.negate (d : Dec) : Dec := { d with negative := !d.negative }

/-- The exact product. -/
def Dec.mulExact (a b : Dec) : Dec :=
  ⟨a.negative != b.negative, a.coefficient * b.coefficient, a.exponent + b.exponent⟩

/-- The signed integer coefficient of `d` at exponent `e ≤ d.exponent`. -/
def Dec.scaledTo (d : Dec) (e : Int) : Int :=
  (if d.negative then -1 else 1) * (d.coefficient * 10 ^ (d.exponent - e).toNat : Nat)

/-- The exact sum, at the smaller of the two exponents; a zero sum is negative only when both
operands are. -/
def Dec.addExact (a b : Dec) : Dec :=
  let e := min a.exponent b.exponent
  let z := a.scaledTo e + b.scaledTo e
  ⟨decide (z < 0) || (z == 0 && (a.negative && b.negative)), z.natAbs, e⟩

@[simp] theorem Dec.value_ofNat (n : Nat) : (Dec.ofNat n).value = n := by
  simp [Dec.ofNat, Dec.value]

@[simp] theorem Dec.value_negate (d : Dec) : d.negate.value = -d.value := by
  cases d with
  | mk s c e => cases s <;> simp [Dec.negate, Dec.value]

theorem Dec.value_mulExact (a b : Dec) : (a.mulExact b).value = a.value * b.value := by
  obtain ⟨sa, ca, ea⟩ := a
  obtain ⟨sb, cb, eb⟩ := b
  simp only [Dec.mulExact, Dec.value, Nat.cast_mul]
  rw [zpow_add₀ (by norm_num)]
  cases sa <;> cases sb <;> simp <;> ring

theorem Dec.scaledTo_value (d : Dec) (e : Int) (he : e ≤ d.exponent) :
    (d.scaledTo e : ℚ) * (10 : ℚ) ^ e = d.value := by
  obtain ⟨s, c, x⟩ := d
  have hx : ((x - e).toNat : Int) = x - e := Int.toNat_of_nonneg (by simp at he; omega)
  have hp : (10 : ℚ) ^ ((x - e).toNat) * (10 : ℚ) ^ e = (10 : ℚ) ^ x := by
    rw [← zpow_natCast, hx, ← zpow_add₀ (by norm_num), sub_add_cancel]
  simp only [Dec.scaledTo, Dec.value, Int.cast_mul, Nat.cast_mul, Nat.cast_pow]
  cases s <;> simp [← hp] <;> ring

/-- A sign and a magnitude read back as the integer they were taken from. -/
theorem signed_natAbs (z : Int) (p : Bool) :
    (if (decide (z < 0) || (z == 0 && p)) = true then (-1 : ℚ) else 1) * (z.natAbs : ℚ) = z := by
  rw [Nat.cast_natAbs, Int.cast_abs]
  rcases lt_trichotomy z 0 with hz | rfl | hz
  · have : (z : ℚ) < 0 := by exact_mod_cast hz
    simp [hz, abs_of_neg this]
  · simp
  · have : (0 : ℚ) < z := by exact_mod_cast hz
    simp [not_lt.mpr hz.le, hz.ne', abs_of_pos this]

theorem Dec.value_signed (z : Int) (p : Bool) (e : Int) :
    (⟨decide (z < 0) || (z == 0 && p), z.natAbs, e⟩ : Dec).value = z * (10 : ℚ) ^ e := by
  unfold Dec.value
  rw [signed_natAbs]

theorem Dec.value_addExact (a b : Dec) : (a.addExact b).value = a.value + b.value := by
  have ha := a.scaledTo_value (min a.exponent b.exponent) (min_le_left _ _)
  have hb := b.scaledTo_value (min a.exponent b.exponent) (min_le_right _ _)
  rw [← ha, ← hb, ← add_mul, ← Int.cast_add]
  exact Dec.value_signed _ _ _

/-- The same sign and coefficient at another exponent. -/
def Dec.setExponent (d : Dec) (e : Int) : Dec := { d with exponent := e }

/-- Replacing the exponent of a decimal with exponent zero scales its value. -/
theorem Dec.value_setExponent (d : Dec) (hd : d.exponent = 0) (e : Int) :
    (d.setExponent e).value = d.value * (10 : ℚ) ^ e := by
  obtain ⟨s, c, x⟩ := d
  simp only at hd
  subst hd
  simp only [Dec.value, Dec.setExponent, zpow_zero, mul_one]
  rfl

@[simp] theorem Dec.mulExact_ofNat (m n : Nat) : (Dec.ofNat m).mulExact (Dec.ofNat n) = Dec.ofNat (m * n) := by
  simp [Dec.mulExact, Dec.ofNat]

@[simp] theorem Dec.addExact_ofNat (m n : Nat) : (Dec.ofNat m).addExact (Dec.ofNat n) = Dec.ofNat (m + n) := by
  simp only [Dec.addExact, Dec.ofNat, Dec.scaledTo, min_self, sub_self, Int.toNat_zero, pow_zero,
    mul_one, Bool.false_eq_true, ↓reduceIte, one_mul, Bool.and_false, Bool.or_false, decide_eq_false_iff_not,
    not_lt, Dec.mk.injEq, and_true]
  omega

theorem Dec.addExact_exponent (a b : Dec) : (a.addExact b).exponent = min a.exponent b.exponent := rfl

theorem Dec.mulExact_exponent (a b : Dec) : (a.mulExact b).exponent = a.exponent + b.exponent := rfl

@[simp] theorem Dec.ofNat_exponent (n : Nat) : (Dec.ofNat n).exponent = 0 := rfl

@[simp] theorem Dec.ofNat_coefficient (n : Nat) : (Dec.ofNat n).coefficient = n := rfl

@[simp] theorem Dec.negate_coefficient (d : Dec) : d.negate.coefficient = d.coefficient := rfl

@[simp] theorem Dec.negate_exponent (d : Dec) : d.negate.exponent = d.exponent := rfl

@[simp] theorem Dec.setExponent_coefficient (d : Dec) (e : Int) :
    (d.setExponent e).coefficient = d.coefficient := rfl

@[simp] theorem Dec.setExponent_exponent (d : Dec) (e : Int) : (d.setExponent e).exponent = e := rfl

/-- At exponent zero, a decimal denoting a natural number has it as its coefficient. -/
theorem Dec.coefficient_eq_of_value (d : Dec) (he : d.exponent = 0) (n : Nat)
    (hv : d.value = n) : d.coefficient = n := by
  obtain ⟨s, c, e⟩ := d
  simp only at he
  subst he
  cases s
  · simpa [Dec.value] using hv
  · have : -(c : ℚ) = n := by simpa [Dec.value] using hv
    have hc : ((c + n : Nat) : ℚ) = 0 := by push_cast; rw [← this]; ring
    have hc' : c + n = 0 := by exact_mod_cast hc
    show c = n
    omega

theorem numDigits_mono {m n : Nat} (h : m ≤ n) : numDigits m ≤ numDigits n :=
  Nat.succ_le_succ (Nat.log_mono_right h)

theorem numDigits_pow (k : Nat) : numDigits (10 ^ k) = k + 1 := by
  simp [numDigits, Nat.log_pow (by norm_num : 1 < 10)]

/-- A coefficient below `10 ^ k` has at most `k` digits. -/
theorem numDigits_le_of_lt {n k : Nat} (hk : 0 < k) (h : n < 10 ^ k) : numDigits n ≤ k := by
  rcases Nat.eq_zero_or_pos n with rfl | hn
  · simp only [numDigits, Nat.log_zero_right]
    omega
  · have := (Nat.log_lt_iff_lt_pow (by norm_num : 1 < 10) hn.ne').mpr h
    simp only [numDigits]
    omega

/-! ## Rounding -/

/-- The documented behaviour of rounding an exact result under a context. -/
structure RoundingLaws (round : Context → Dec → Dec × Status) : Prop where
  /-- A result that fits the precision and the exponent range is returned unchanged. -/
  exact : ∀ cx d, numDigits d.coefficient ≤ cx.precision → cx.InRange d → round cx d = (d, .clear)
  /-- Dropping digits raises `rounded`. -/
  rounded : ∀ cx d, cx.precision < numDigits d.coefficient → (round cx d).2.rounded = true
  /-- A result that is not `inexact` has the exact value. -/
  value_eq : ∀ cx d, (round cx d).2.inexact = false → (round cx d).1.value = d.value
  /-- A result without any flag keeps its exponent. -/
  exponent_eq : ∀ cx d, (round cx d).2 = .clear → (round cx d).1.exponent = d.exponent
  /-- Dropping trailing zeros only, within the exponent range, is not `inexact`. -/
  not_inexact : ∀ cx d c k, d.coefficient = c * 10 ^ k → numDigits c ≤ cx.precision →
    cx.InRange d → (round cx d).2.inexact = false

/-- Rounding by truncation, with every out-of-range result flagged as an inexact overflow. -/
def roundDown (cx : Context) (d : Dec) : Dec × Status :=
  if cx.InRange d then
    if numDigits d.coefficient ≤ cx.precision then (d, .clear)
    else
      let k := numDigits d.coefficient - cx.precision
      (⟨d.negative, d.coefficient / 10 ^ k, d.exponent + k⟩, ⟨d.coefficient % 10 ^ k != 0, true, false⟩)
  else (d, ⟨true, true, true⟩)

theorem numDigits_mul_pow (c k : Nat) (hc : c ≠ 0) : numDigits (c * 10 ^ k) = numDigits c + k := by
  induction k with
  | zero => simp
  | succ k ih =>
    have hne : c * 10 ^ k ≠ 0 := Nat.mul_ne_zero hc (pow_ne_zero _ (by norm_num))
    have := Nat.log_mul_base (b := 10) (by norm_num) hne
    simp only [numDigits] at ih ⊢
    rw [pow_succ, ← mul_assoc, this]
    omega

theorem numDigits_pos (c : Nat) : 0 < numDigits c := Nat.succ_pos _

/-- Truncating a coefficient that ends in enough zeros drops only zeros. -/
theorem mod_pow_eq_zero_of_fit (c k p : Nat) (hp : numDigits c ≤ p) :
    c * 10 ^ k % 10 ^ (numDigits (c * 10 ^ k) - p) = 0 := by
  rcases Nat.eq_zero_or_pos c with rfl | hc
  · simp
  · rw [numDigits_mul_pow c k hc.ne']
    exact Nat.mod_eq_zero_of_dvd
      (Dvd.dvd.mul_left (Nat.pow_dvd_pow 10 (by omega)) c)

/-- A truncation that drops only zeros keeps the value. -/
theorem value_truncate (s : Bool) (c k : Nat) (e : Int) (h : c % 10 ^ k = 0) :
    (⟨s, c / 10 ^ k, e + k⟩ : Dec).value = (⟨s, c, e⟩ : Dec).value := by
  obtain ⟨m, rfl⟩ := Nat.dvd_of_mod_eq_zero h
  have hk : (10 : Nat) ^ k ≠ 0 := pow_ne_zero _ (by norm_num)
  simp only [Dec.value, Nat.mul_div_cancel_left m (Nat.pos_of_ne_zero hk)]
  rw [zpow_add₀ (by norm_num), zpow_natCast]
  push_cast
  ring

theorem roundDown_lawful : RoundingLaws roundDown where
  exact cx d hp hr := by simp [roundDown, hr, hp]
  rounded cx d hp := by
    unfold roundDown
    split_ifs <;> first | omega | rfl
  value_eq cx d h := by
    unfold roundDown at h ⊢
    split_ifs at h ⊢ with hr hp
    · rfl
    · simp only [bne_eq_false_iff_eq] at h
      exact value_truncate d.negative d.coefficient _ d.exponent h
  exponent_eq cx d h := by
    unfold roundDown at h ⊢
    split_ifs at h ⊢ <;> simp_all [Status.clear]
  not_inexact cx d c k hc hp hr := by
    unfold roundDown
    split_ifs with hd
    · rfl
    · simp only [hc, bne_eq_false_iff_eq]
      exact mod_pow_eq_zero_of_fit c k cx.precision hp

end Decimal
