import Mathlib
import Materialize.Lib.Segment
import Materialize.Lib.Signed
import Materialize.Repr.Range

/-!
# The elements of a range

`Range.denote r` is the set of the elements `contains_elem` accepts. Over a type whose `step` is
the successor (`int4`, `int8`, `date`), `canonicalize` keeps the elements of a range and gives a
range in canonical form: empty, or an inclusive-or-infinite lower bound and an exclusive upper
bound in order (`Range.Canon`). Such a range is the segment `[lowerPt, upperPt)` of
`Segment.Ext B`, and each operation on canonical ranges is an operation on segments:

* `RangeBound.satisfiedBy_lower`, `satisfiedBy_upper`, `Range.denote_some`: the elements of a
  canonical range;
* `RangeBound.cmp_lower`, `cmp_upper`, `rangeBoundCmp_upper_lower`: the bound comparisons as the
  order of the ends;
* `Range.canon_of_canonicalize`, `canonicalize_of_canon`, `denote_canonicalize`:
  `canonicalize`;
* `Range.containsRange_iff`, `overlaps_iff`, `adjacent_iff`, `denote_intersection`, `union_gives`,
  `difference_gives`: the operations.

Where a finite bound is the least value of its type, two canonical ranges have the same elements
(`[MIN, u)` and `(-∞, u)`), and `(-∞, MIN)` has none; the results on the operations therefore
take ranges whose finite bounds are not least values (`Range.AvoidsMin`).
-/

namespace Materialize.Adt

open Segment Signed

variable {B : Type} [LinearOrder B]

/-- `[[r]]`: the elements `contains_elem` accepts. -/
def Range.denote (r : Range B) : Set B := {x | r.containsElem x = true}

/-- A `step` that gives the next value, the one right above, where there is one. -/
def Discrete.IsSucc (d : Discrete B) : Prop := ∀ v w, d.step v = some w ↔ v ⋖ w

/-- `RangeOps for i32`: `step` is `checked_add(1)`. -/
def Discrete.int4 : Discrete (SInt 32) := ⟨fun v => v.add? .one, "integer"⟩

/-- `RangeOps for i64`. -/
def Discrete.int8 : Discrete (SInt 64) := ⟨fun v => v.add? .one, "bigint"⟩

namespace RangeBound

/-- A lower bound in the form `canonicalize` gives over a type that steps: inclusive exactly
where it is finite. -/
def LowerCanon (b : RangeBound B) : Prop := b.inclusive = b.bound.isSome

/-- An upper bound in that form: exclusive. -/
def UpperCanon (b : RangeBound B) : Prop := b.inclusive = false

/-- The end a lower bound stands at: minus infinity where it is infinite. -/
def lowerPt (b : RangeBound B) : Ext B :=
  match b.bound with
  | none => ⊥
  | some l => pt l

/-- The end an upper bound stands at: plus infinity where it is infinite. -/
def upperPt (b : RangeBound B) : Ext B :=
  match b.bound with
  | none => top
  | some u => pt u

end RangeBound

/-- The bounds of a non-empty range in canonical form, in order. -/
structure RangeInner.Canon (i : RangeInner B) : Prop where
  lower : i.lower.LowerCanon
  upper : i.upper.UpperCanon
  lt : i.lower.lowerPt < i.upper.upperPt

/-- A range in the form `canonicalize` gives over a type that steps. -/
def Range.Canon (r : Range B) : Prop := ∀ i ∈ r.inner, i.Canon

/-- No finite bound of the range is a least value of its type. -/
def Range.AvoidsMin (r : Range B) : Prop :=
  ∀ i ∈ r.inner, (∀ l ∈ i.lower.bound, ¬IsMin l) ∧ (∀ u ∈ i.upper.bound, ¬IsMin u)

/-- An operation's result on the elements `S`: a range with exactly those elements where they
form one interval, and the error `err` where they do not. -/
def Range.Gives (S : Set B) (err : InvalidRangeError) : Except InvalidRangeError (Range B) → Prop
  | .ok r => r.denote = S ∧ S.OrdConnected
  | .error e => e = err ∧ ¬S.OrdConnected

namespace RangeBound

/-! ## Bounds -/

omit [LinearOrder B] in
@[simp] theorem lowerPt_none (inclusive : Bool) : (⟨inclusive, none⟩ : RangeBound B).lowerPt = ⊥ :=
  rfl

omit [LinearOrder B] in
@[simp] theorem lowerPt_some (inclusive : Bool) (l : B) :
    (⟨inclusive, some l⟩ : RangeBound B).lowerPt = pt l := rfl

omit [LinearOrder B] in
@[simp] theorem upperPt_none (inclusive : Bool) : (⟨inclusive, none⟩ : RangeBound B).upperPt = top :=
  rfl

omit [LinearOrder B] in
@[simp] theorem upperPt_some (inclusive : Bool) (u : B) :
    (⟨inclusive, some u⟩ : RangeBound B).upperPt = pt u := rfl

/-- An infinite bound is satisfied by every element. -/
@[simp] theorem satisfiedBy_none (upper inclusive : Bool) (x : B) :
    satisfiedBy upper ⟨inclusive, none⟩ x = true := by
  cases upper <;> rfl

/-- A finite bound is satisfied on its inner side, and at itself where it is inclusive. -/
theorem satisfiedBy_some (upper inclusive : Bool) (v x : B) :
    satisfiedBy upper ⟨inclusive, some v⟩ x =
      if upper then (if inclusive then decide (x ≤ v) else decide (x < v))
      else (if inclusive then decide (v ≤ x) else decide (v < x)) := by
  simp only [satisfiedBy, elemCmp]
  rcases lt_trichotomy v x with h | rfl | h
  · rw [compare_lt_iff_lt.mpr h]
    cases upper <;> cases inclusive <;> simp [h, h.le, not_le.mpr h]
  · rw [compare_eq_iff_eq.mpr rfl]
    cases upper <;> cases inclusive <;> simp
  · rw [compare_gt_iff_gt.mpr h]
    cases upper <;> cases inclusive <;> simp [h, h.le, not_le.mpr h]

theorem satisfiedBy_lower {b : RangeBound B} (h : b.LowerCanon) (x : B) :
    b.satisfiedBy false x = decide (b.lowerPt ≤ pt x) := by
  rcases b with ⟨inclusive, _ | l⟩
  · simp
  · simp only [LowerCanon, Option.isSome_some] at h
    subst h
    simp [satisfiedBy_some]

theorem satisfiedBy_upper {b : RangeBound B} (h : b.UpperCanon) (x : B) :
    b.satisfiedBy true x = decide (pt x < b.upperPt) := by
  rcases b with ⟨inclusive, _ | u⟩
  · simp
  · simp only [UpperCanon] at h
    subst h
    simp [satisfiedBy_some]

theorem notMin_lowerPt {b : RangeBound B} (h : ∀ l ∈ b.bound, ¬IsMin l) : NotMin b.lowerPt := by
  rcases b with ⟨inclusive, _ | l⟩
  · exact notMin_bot
  · intro x hx
    rw [lowerPt_some, pt_inj] at hx
    exact hx ▸ h l rfl

theorem notMin_upperPt {b : RangeBound B} (h : ∀ u ∈ b.bound, ¬IsMin u) : NotMin b.upperPt := by
  rcases b with ⟨inclusive, _ | u⟩
  · exact notMin_top
  · intro x hx
    rw [upperPt_some, pt_inj] at hx
    exact hx ▸ h u rfl

/-! ## Comparisons of canonical bounds -/

/-- Canonical lower bounds compare as their ends. -/
theorem cmp_lower {a b : RangeBound B} (ha : a.LowerCanon) (hb : b.LowerCanon) :
    cmp false a b = compare a.lowerPt b.lowerPt := by
  rcases a with ⟨ia, _ | x⟩ <;> rcases b with ⟨ib, _ | y⟩ <;>
    simp only [LowerCanon, Option.isSome_none, Option.isSome_some] at ha hb <;> subst ha hb
  · rfl
  · exact (compare_lt_iff_lt.mpr (bot_lt_pt y)).symm
  · exact (compare_gt_iff_gt.mpr (bot_lt_pt x)).symm
  · simp [cmp, cmpOption]

/-- Canonical upper bounds compare as their ends. -/
theorem cmp_upper {a b : RangeBound B} (ha : a.UpperCanon) (hb : b.UpperCanon) :
    cmp true a b = compare a.upperPt b.upperPt := by
  rcases a with ⟨ia, _ | x⟩ <;> rcases b with ⟨ib, _ | y⟩ <;>
    simp only [UpperCanon] at ha hb <;> subst ha hb
  · rfl
  · exact (compare_gt_iff_gt.mpr (pt_lt_top y)).symm
  · exact (compare_lt_iff_lt.mpr (pt_lt_top x)).symm
  · simp [cmp, cmpOption]

/-- A canonical upper bound against a canonical lower bound: greater exactly where the segment
between them is not empty; never equal, as the upper bound is exclusive. -/
theorem rangeBoundCmp_upper_lower {u l : RangeBound B} (hu : u.UpperCanon) (hl : l.LowerCanon) :
    rangeBoundCmp true false u l = if l.lowerPt < u.upperPt then .gt else .lt := by
  rcases u with ⟨iu, _ | x⟩ <;> rcases l with ⟨il, _ | y⟩ <;>
    simp only [UpperCanon, LowerCanon, Option.isSome_none, Option.isSome_some] at hu hl <;>
    subst hu hl
  · simp [rangeBoundCmp]
  · simp [rangeBoundCmp]
  · simp [rangeBoundCmp]
  · rcases lt_trichotomy x y with h | rfl | h
    · simp [rangeBoundCmp, cmpOption, compare_lt_iff_lt.mpr h, not_lt.mpr h.le]
    · simp [rangeBoundCmp, cmpOption]
    · simp [rangeBoundCmp, cmpOption, compare_gt_iff_gt.mpr h, h]

theorem min_eq_or (upper : Bool) (a b : RangeBound B) :
    RangeBound.min upper a b = a ∨ RangeBound.min upper a b = b := by
  unfold RangeBound.min
  split
  · exact .inr rfl
  · exact .inl rfl

theorem max_eq_or (upper : Bool) (a b : RangeBound B) :
    RangeBound.max upper a b = a ∨ RangeBound.max upper a b = b := by
  unfold RangeBound.max
  split
  · exact .inl rfl
  · exact .inr rfl

theorem lowerPt_min {a b : RangeBound B} (ha : a.LowerCanon) (hb : b.LowerCanon) :
    (RangeBound.min false a b).lowerPt = Min.min a.lowerPt b.lowerPt := by
  rw [← ite_compare_gt_eq_min, RangeBound.min, cmp_lower ha hb]
  split <;> rfl

theorem lowerPt_max {a b : RangeBound B} (ha : a.LowerCanon) (hb : b.LowerCanon) :
    (RangeBound.max false a b).lowerPt = Max.max a.lowerPt b.lowerPt := by
  rw [← ite_compare_gt_eq_max, RangeBound.max, cmp_lower ha hb]
  split <;> rfl

theorem upperPt_min {a b : RangeBound B} (ha : a.UpperCanon) (hb : b.UpperCanon) :
    (RangeBound.min true a b).upperPt = Min.min a.upperPt b.upperPt := by
  rw [← ite_compare_gt_eq_min, RangeBound.min, cmp_upper ha hb]
  split <;> rfl

theorem upperPt_max {a b : RangeBound B} (ha : a.UpperCanon) (hb : b.UpperCanon) :
    (RangeBound.max true a b).upperPt = Max.max a.upperPt b.upperPt := by
  rw [← ite_compare_gt_eq_max, RangeBound.max, cmp_upper ha hb]
  split <;> rfl

/-! ## Canonicalizing a bound -/

omit [LinearOrder B] in
theorem canonicalize_lowerCanon {d : Discrete B} {b b' : RangeBound B}
    (h : b.canonicalize (some d) false = .ok b') : b'.LowerCanon := by
  rcases b with ⟨inclusive, _ | v⟩
  · cases h
    rfl
  · simp only [canonicalize, canonicalizeInner] at h
    split at h
    · split at h
      · cases h
      · cases h
        rfl
    · cases h
      simp_all [LowerCanon]

omit [LinearOrder B] in
theorem canonicalize_upperCanon {d : Discrete B} {b b' : RangeBound B}
    (h : b.canonicalize (some d) true = .ok b') : b'.UpperCanon := by
  rcases b with ⟨inclusive, _ | v⟩
  · cases h
    rfl
  · simp only [canonicalize, canonicalizeInner] at h
    split at h
    · split at h
      · cases h
      · cases h
        rfl
    · cases h
      simp_all [UpperCanon]

omit [LinearOrder B] in
theorem canonicalize_of_lowerCanon (d : Discrete B) {b : RangeBound B} (h : b.LowerCanon) :
    b.canonicalize (some d) false = .ok b := by
  rcases b with ⟨inclusive, _ | v⟩ <;> simp only [LowerCanon] at h <;> subst h
  · rfl
  · simp [canonicalize, canonicalizeInner]

omit [LinearOrder B] in
theorem canonicalize_of_upperCanon (d : Discrete B) {b : RangeBound B} (h : b.UpperCanon) :
    b.canonicalize (some d) true = .ok b := by
  rcases b with ⟨inclusive, _ | v⟩ <;> simp only [UpperCanon] at h <;> subst h
  · rfl
  · simp [canonicalize, canonicalizeInner]

/-- Stepping a bound of a type whose step is the successor keeps the elements that satisfy it:
`x > v` is `x ≥ v + 1`, and `x ≤ v` is `x < v + 1`. -/
theorem satisfiedBy_canonicalize {d : Option (Discrete B)} (hd : ∀ d' ∈ d, d'.IsSucc)
    {upper : Bool} {b b' : RangeBound B} (h : b.canonicalize d upper = .ok b') (x : B) :
    b'.satisfiedBy upper x = b.satisfiedBy upper x := by
  rcases b with ⟨inclusive, _ | v⟩
  · cases h
    simp
  rcases d with _ | d
  · cases h
    rfl
  simp only [canonicalize, canonicalizeInner] at h
  split at h
  · rename_i hinc
    split at h
    · cases h
    · rename_i w hw
      cases h
      have hcov : v ⋖ w := (hd d rfl v w).mp hw
      cases upper <;> subst hinc <;> simp only [satisfiedBy_some, Bool.not_true, Bool.not_false,
        Bool.false_eq_true, ↓reduceIte, decide_eq_decide]
      · exact ⟨fun hwx => lt_of_lt_of_le hcov.lt hwx, fun hvx => le_of_not_gt fun hxw =>
          absurd (hcov.le_of_lt hxw) (not_le_of_gt hvx)⟩
      · exact ⟨hcov.le_of_lt, fun hxv => lt_of_le_of_lt hxv hcov.lt⟩
  · cases h
    rfl

/-- With canonical bounds, the test by which `canonicalize` finds a range empty is that its ends
are out of order. -/
theorem emptyTest_iff {lo up : RangeBound B} (hlo : lo.LowerCanon) (hup : up.UpperCanon) :
    (!(lo.inclusive && up.inclusive) && cmpOption lo.bound up.bound != .lt &&
        up.bound.isSome) = true ↔ ¬lo.lowerPt < up.upperPt := by
  rcases lo with ⟨il, _ | l⟩ <;> rcases up with ⟨iu, _ | u⟩ <;>
    simp only [LowerCanon, UpperCanon, Option.isSome_none, Option.isSome_some] at hlo hup <;>
    subst hlo hup
  · simp
  · simp [cmpOption]
  · simp
  · simp [cmpOption, compare_lt_iff_lt]

/-- Bounds that the emptiness test rejects leave no element between them: they are in the wrong
order, or equal and not both inclusive. -/
theorem not_satisfiedBy_of_emptyTest {lo up : RangeBound B}
    (h : (!(lo.inclusive && up.inclusive) && cmpOption lo.bound up.bound != .lt &&
        up.bound.isSome) = true) (x : B) :
    (lo.satisfiedBy false x && up.satisfiedBy true x) = false := by
  rcases lo with ⟨il, _ | l⟩ <;> rcases up with ⟨iu, _ | u⟩
  · simp at h
  · simp [cmpOption] at h
  · simp at h
  · simp only [cmpOption, Option.isSome_some, Bool.and_true, Bool.and_eq_true, Bool.not_eq_true',
      Bool.and_eq_false_iff, bne_iff_ne, ne_eq, compare_lt_iff_lt] at h
    obtain ⟨hinc, hlu⟩ := h
    rw [Bool.eq_false_iff]
    intro hx
    cases il <;> cases iu <;> simp [satisfiedBy_some] at hx hinc <;> order

/-! ## Choosing and flipping canonical bounds -/

/-- `min` and `max` choose one of the two bounds, so keep what both satisfy. -/
theorem of_min (P : RangeBound B → Prop) {upper : Bool} {a b : RangeBound B} (ha : P a)
    (hb : P b) : P (RangeBound.min upper a b) := by
  rcases min_eq_or upper a b with h | h <;> rw [h] <;> assumption

theorem of_max (P : RangeBound B → Prop) {upper : Bool} {a b : RangeBound B} (ha : P a)
    (hb : P b) : P (RangeBound.max upper a b) := by
  rcases max_eq_or upper a b with h | h <;> rw [h] <;> assumption

theorem eq_of_lowerPt_eq {a b : RangeBound B} (ha : a.LowerCanon) (hb : b.LowerCanon)
    (h : a.lowerPt = b.lowerPt) : a = b := by
  rcases a with ⟨ia, _ | x⟩ <;> rcases b with ⟨ib, _ | y⟩ <;>
    simp only [LowerCanon, Option.isSome_none, Option.isSome_some] at ha hb <;> subst ha hb <;>
    simp_all

theorem eq_of_upperPt_eq {a b : RangeBound B} (ha : a.UpperCanon) (hb : b.UpperCanon)
    (h : a.upperPt = b.upperPt) : a = b := by
  rcases a with ⟨ia, _ | x⟩ <;> rcases b with ⟨ib, _ | y⟩ <;>
    simp only [UpperCanon] at ha hb <;> subst ha hb <;> simp_all [eq_comm]

omit [LinearOrder B] in
/-- A finite canonical upper bound, made inclusive, is a canonical lower bound at the same end. -/
theorem flip_upper {u : RangeBound B} (h : u.UpperCanon) (hne : u.upperPt ≠ top) :
    (⟨!u.inclusive, u.bound⟩ : RangeBound B).LowerCanon ∧
      (⟨!u.inclusive, u.bound⟩ : RangeBound B).lowerPt = u.upperPt := by
  rcases u with ⟨iu, _ | x⟩ <;> simp only [UpperCanon] at h <;> subst h
  · exact absurd rfl hne
  · exact ⟨rfl, rfl⟩

omit [LinearOrder B] in
/-- A finite canonical lower bound, made exclusive, is a canonical upper bound at the same end. -/
theorem flip_lower {l : RangeBound B} (h : l.LowerCanon) (hne : l.lowerPt ≠ ⊥) :
    (⟨!l.inclusive, l.bound⟩ : RangeBound B).UpperCanon ∧
      (⟨!l.inclusive, l.bound⟩ : RangeBound B).upperPt = l.lowerPt := by
  rcases l with ⟨il, _ | x⟩ <;> simp only [LowerCanon, Option.isSome_none, Option.isSome_some] at h <;>
    subst h
  · exact absurd rfl hne
  · exact ⟨rfl, rfl⟩

end RangeBound

namespace Range

open RangeBound

/-! ## Elements of ranges -/

@[simp] theorem denote_none : (⟨none⟩ : Range B).denote = ∅ := by
  ext x
  simp [denote, containsElem]

theorem mem_denote_some {i : RangeInner B} {x : B} :
    x ∈ (⟨some i⟩ : Range B).denote ↔
      i.lower.satisfiedBy false x = true ∧ i.upper.satisfiedBy true x = true := by
  simp [denote, containsElem]

/-- A canonical range is the segment between its ends. -/
theorem denote_some {i : RangeInner B} (h : i.Canon) :
    (⟨some i⟩ : Range B).denote = toSet i.lower.lowerPt i.upper.upperPt := by
  ext x
  simp [mem_denote_some, satisfiedBy_lower h.lower, satisfiedBy_upper h.upper]

theorem ordConnected_denote {r : Range B} (h : r.Canon) : r.denote.OrdConnected := by
  rcases r with ⟨_ | i⟩
  · rw [denote_none]
    exact Set.ordConnected_empty
  · rw [denote_some (h i rfl)]
    exact ordConnected_toSet _ _

/-- The ends of a canonical range whose finite bounds are not least values make a fine
segment. -/
theorem fine_of_canon {i : RangeInner B} (h : (⟨some i⟩ : Range B).Canon)
    (hm : (⟨some i⟩ : Range B).AvoidsMin) : Fine i.lower.lowerPt i.upper.upperPt :=
  ⟨(h i rfl).lt, notMin_lowerPt (hm i rfl).1, notMin_upperPt (hm i rfl).2⟩

/-! ## `canonicalize` -/

/-- Past the check for misordered bounds, `canonicalize` puts each bound in canonical form and
tests the result for emptiness. -/
theorem canonicalize_some_eq_ok {d : Option (Discrete B)} {lo up : RangeBound B}
    {r' : Range B} (h : Range.canonicalize d ⟨some ⟨lo, up⟩⟩ = .ok r') :
    ∃ lo' up', lo.canonicalize d false = .ok lo' ∧ up.canonicalize d true = .ok up' ∧
      r' = if (!(lo'.inclusive && up'.inclusive) && cmpOption lo'.bound up'.bound != .lt &&
          up'.bound.isSome) = true then ⟨none⟩ else ⟨some ⟨lo', up'⟩⟩ := by
  simp only [Range.canonicalize] at h
  -- the check throws on misordered bounds, or passes on to the same steps
  split at h <;> try (split at h; cases h)
  all_goals
    cases hlo : lo.canonicalize d false with
    | error e => simp [hlo, bind, Except.bind] at h
    | ok lo' =>
      cases hup : up.canonicalize d true with
      | error e => simp [hlo, hup, bind, Except.bind] at h
      | ok up' =>
        refine ⟨lo', up', rfl, rfl, ?_⟩
        simp only [hlo, hup, bind, Except.bind, pure, Except.pure] at h
        split at h <;> rename_i hc <;> simp only [hc] <;> exact (Except.ok.inj h).symm

/-- Over a type that steps, `canonicalize` gives a canonical range. -/
theorem canon_of_canonicalize {d : Discrete B} {r r' : Range B}
    (h : r.canonicalize (some d) = .ok r') : r'.Canon := by
  rcases r with ⟨_ | ⟨lo, up⟩⟩
  · cases h
    intro i hi
    cases hi
  obtain ⟨lo', up', hlo, hup, rfl⟩ := canonicalize_some_eq_ok h
  have hlo' := canonicalize_lowerCanon hlo
  have hup' := canonicalize_upperCanon hup
  split
  · intro i hi
    cases hi
  · rename_i hc
    intro i hi
    cases hi
    exact ⟨hlo', hup', not_not.mp ((emptyTest_iff hlo' hup').not.mp hc)⟩

/-- `canonicalize` leaves a canonical range as it is. -/
theorem canonicalize_of_canon (d : Discrete B) {r : Range B} (h : r.Canon) :
    r.canonicalize (some d) = .ok r := by
  rcases r with ⟨_ | ⟨lo, up⟩⟩
  · rfl
  have hc := h _ rfl
  have hne : ¬(!(lo.inclusive && up.inclusive) && cmpOption lo.bound up.bound != .lt &&
      up.bound.isSome) = true := (emptyTest_iff hc.lower hc.upper).not.mpr (not_not.mpr hc.lt)
  simp only [Range.canonicalize]
  split
  · rename_i l u heq
    simp only [Prod.mk.injEq] at heq
    have hlu := hc.lt
    rw [lowerPt, heq.1, upperPt, heq.2, pt_lt_pt] at hlu
    simp only [not_lt.mpr hlu.le, canonicalize_of_lowerCanon d hc.lower,
      canonicalize_of_upperCanon d hc.upper, bind, Except.bind, pure, Except.pure, ↓reduceIte]
    rw [if_neg hne]
  · simp only [canonicalize_of_lowerCanon d hc.lower, canonicalize_of_upperCanon d hc.upper, bind,
      Except.bind, pure, Except.pure]
    rw [if_neg hne]

/-- `canonicalize` keeps the elements of a range, over a type whose step is the successor and
over a type that does not step. -/
theorem denote_canonicalize {d : Option (Discrete B)} (hd : ∀ d' ∈ d, d'.IsSucc) {r r' : Range B}
    (h : r.canonicalize d = .ok r') : r'.denote = r.denote := by
  rcases r with ⟨_ | ⟨lo, up⟩⟩
  · cases h
    rfl
  obtain ⟨lo', up', hlo, hup, rfl⟩ := canonicalize_some_eq_ok h
  ext x
  have hsat := satisfiedBy_canonicalize hd hlo x
  have hsat' := satisfiedBy_canonicalize hd hup x
  split
  · rename_i hc
    have hnot := not_satisfiedBy_of_emptyTest hc x
    rw [hsat, hsat'] at hnot
    simp only [denote_none, Set.mem_empty_iff_false, false_iff, mem_denote_some, not_and]
    intro hl hu
    simp [hl, hu] at hnot
  · simp [mem_denote_some, hsat, hsat']

/-! ## Operations on canonical ranges -/

theorem adjacent_some_iff {i j : RangeInner B} (hi : i.Canon) (hj : j.Canon) :
    Range.adjacent ⟨some i⟩ ⟨some j⟩ = true ↔
      i.lower.lowerPt = j.upper.upperPt ∨ j.lower.lowerPt = i.upper.upperPt := by
  obtain ⟨hil, hiu, -⟩ := hi
  obtain ⟨hjl, hju, -⟩ := hj
  rcases i with ⟨⟨il, _ | l⟩, ⟨iu, _ | u⟩⟩ <;> rcases j with ⟨⟨jl, _ | l'⟩, ⟨ju, _ | u'⟩⟩ <;>
    simp only [LowerCanon, UpperCanon, Option.isSome_none, Option.isSome_some] at hil hiu hjl hju <;>
    subst hil hiu hjl hju <;> simp [adjacent]

theorem overlaps_some_iff {i j : RangeInner B} (hi : i.Canon) (hj : j.Canon) :
    Range.overlaps ⟨some i⟩ ⟨some j⟩ = true ↔
      i.lower.lowerPt < j.upper.upperPt ∧ j.lower.lowerPt < i.upper.upperPt := by
  have hli := hi.lt
  have hlj := hj.lt
  have hcmp : i.cmp j = (compare i.lower.lowerPt j.lower.lowerPt).then
      (compare i.upper.upperPt j.upper.upperPt) := by
    rw [RangeInner.cmp, cmp_lower hi.lower hj.lower, cmp_upper hi.upper hj.upper]
  simp only [overlaps]
  split
  · rename_i heq
    rw [hcmp, Ordering.then_eq_eq, compare_eq_iff_eq, compare_eq_iff_eq] at heq
    simp only [beq_self_eq_true, Bool.or_true, true_iff]
    constructor <;> order
  · rename_i heq
    rw [hcmp, Ordering.then_eq_lt, compare_lt_iff_lt, compare_eq_iff_eq, compare_lt_iff_lt] at heq
    have hle : i.lower.lowerPt ≤ j.lower.lowerPt := by
      rcases heq with h | ⟨h, -⟩
      · exact h.le
      · exact h.le
    rw [rangeBoundCmp_upper_lower hi.upper hj.lower]
    by_cases hc : j.lower.lowerPt < i.upper.upperPt
    · simp only [hc, if_true, beq_self_eq_true, Bool.true_or, true_iff, and_true]
      order
    · simp [hc]
  · rename_i heq
    rw [hcmp, Ordering.then_eq_gt, compare_gt_iff_gt, compare_eq_iff_eq, compare_gt_iff_gt] at heq
    have hle : j.lower.lowerPt ≤ i.lower.lowerPt := by
      rcases heq with h | ⟨h, -⟩
      · exact h.le
      · exact h.ge
    rw [rangeBoundCmp_upper_lower hj.upper hi.lower]
    by_cases hc : i.lower.lowerPt < j.upper.upperPt
    · simp only [hc, if_true, beq_self_eq_true, Bool.true_or, true_iff, true_and]
      order
    · simp [hc]



theorem containsRange_some_iff {i j : RangeInner B} (hi : i.Canon) (hj : j.Canon) :
    Range.containsRange ⟨some i⟩ ⟨some j⟩ = true ↔
      i.lower.lowerPt ≤ j.lower.lowerPt ∧ j.upper.upperPt ≤ i.upper.upperPt := by
  simp [containsRange, cmp_lower hi.lower hj.lower, cmp_upper hj.upper hi.upper, compare_le_iff_le]

/-- The bounds `union` gives two canonical ranges: the lesser lower and the greater upper. -/
theorem canon_union {i j : RangeInner B} (hi : i.Canon) (hj : j.Canon) :
    (⟨RangeBound.min false i.lower j.lower, RangeBound.max true i.upper j.upper⟩ :
      RangeInner B).Canon where
  lower := RangeBound.of_min _ hi.lower hj.lower
  upper := RangeBound.of_max _ hi.upper hj.upper
  lt := by
    rw [lowerPt_min hi.lower hj.lower, upperPt_max hi.upper hj.upper]
    exact lt_of_le_of_lt (min_le_left _ _) (lt_of_lt_of_le hi.lt (le_max_left _ _))

/-- The bounds `intersection` gives two overlapping canonical ranges. -/
theorem canon_intersection {i j : RangeInner B} (hi : i.Canon) (hj : j.Canon)
    (h : Range.overlaps ⟨some i⟩ ⟨some j⟩ = true) :
    (⟨RangeBound.max false i.lower j.lower, RangeBound.min true i.upper j.upper⟩ :
      RangeInner B).Canon where
  lower := RangeBound.of_max _ hi.lower hj.lower
  upper := RangeBound.of_min _ hi.upper hj.upper
  lt := by
    rw [lowerPt_max hi.lower hj.lower, upperPt_min hi.upper hj.upper, max_lt_iff, lt_min_iff,
      lt_min_iff]
    obtain ⟨h₁, h₂⟩ := (overlaps_some_iff hi hj).mp h
    exact ⟨⟨hi.lt, h₁⟩, ⟨h₂, hj.lt⟩⟩

theorem intersection_canon {a b : Range B} (ha : a.Canon) (hb : b.Canon) :
    (a.intersection b).Canon := by
  rcases a with ⟨_ | i⟩ <;> rcases b with ⟨_ | j⟩
  · exact fun _ h => nomatch h
  · exact fun _ h => nomatch h
  · exact fun _ h => nomatch h
  · simp only [intersection]
    split
    · exact fun _ h => nomatch h
    · rename_i hov
      rintro _ ⟨⟩
      exact canon_intersection (ha i rfl) (hb j rfl) (by simpa using hov)

theorem denote_intersection {a b : Range B} (ha : a.Canon) (hb : b.Canon) :
    (a.intersection b).denote = a.denote ∩ b.denote := by
  rcases a with ⟨_ | i⟩ <;> rcases b with ⟨_ | j⟩
  · simp [intersection]
  · simp [intersection]
  · simp [intersection]
  · have hi := ha i rfl
    have hj := hb j rfl
    rw [denote_some hi, denote_some hj, toSet_inter]
    simp only [intersection]
    split
    · rename_i hov
      -- no overlap: the ends are out of order, and the segment between them is empty
      have hno : ¬Max.max i.lower.lowerPt j.lower.lowerPt < Min.min i.upper.upperPt j.upper.upperPt := by
        rw [max_lt_iff, lt_min_iff, lt_min_iff]
        rintro ⟨⟨-, h₁⟩, ⟨h₂, -⟩⟩
        simp [(overlaps_some_iff hi hj).mpr ⟨h₁, h₂⟩] at hov
      rw [denote_none, eq_comm, Set.eq_empty_iff_forall_notMem]
      exact fun x hx => hno (lt_of_le_of_lt hx.1 hx.2)
    · rename_i hov
      rw [denote_some (canon_intersection hi hj (by simpa using hov)), lowerPt_max hi.lower hj.lower,
        upperPt_min hi.upper hj.upper]

section Elements

variable [Nonempty B]

theorem nonempty_denote_some {i : RangeInner B} (h : (⟨some i⟩ : Range B).Canon)
    (hm : (⟨some i⟩ : Range B).AvoidsMin) : (⟨some i⟩ : Range B).denote.Nonempty := by
  rw [denote_some (h i rfl)]
  exact (fine_of_canon h hm).nonempty

variable {a b : Range B}

theorem eq_iff_denote_eq (ha : a.Canon) (hb : b.Canon) (hma : a.AvoidsMin) (hmb : b.AvoidsMin) :
    a = b ↔ a.denote = b.denote := by
  refine ⟨fun h => h ▸ rfl, fun h => ?_⟩
  rcases a with ⟨_ | i⟩ <;> rcases b with ⟨_ | j⟩
  · rfl
  · exact absurd (h ▸ denote_none) (nonempty_denote_some hb hmb).ne_empty
  · exact absurd (h.symm ▸ denote_none) (nonempty_denote_some ha hma).ne_empty
  · have hi := ha i rfl
    have hj := hb j rfl
    rw [denote_some hi, denote_some hj, toSet_inj (fine_of_canon ha hma) (fine_of_canon hb hmb)] at h
    rcases i with ⟨li, ui⟩
    rcases j with ⟨lj, uj⟩
    have hl : li = lj := RangeBound.eq_of_lowerPt_eq hi.lower hj.lower h.1
    have hu : ui = uj := RangeBound.eq_of_upperPt_eq hi.upper hj.upper h.2
    rw [hl, hu]

theorem containsRange_iff (ha : a.Canon) (hb : b.Canon) (hma : a.AvoidsMin) (hmb : b.AvoidsMin) :
    a.containsRange b = true ↔ b.denote ⊆ a.denote := by
  rcases a with ⟨_ | i⟩ <;> rcases b with ⟨_ | j⟩
  · simp [containsRange]
  · simp only [containsRange, denote_none, Set.subset_empty_iff, Bool.false_eq_true, false_iff]
    exact (nonempty_denote_some hb hmb).ne_empty
  · simp [containsRange]
  · rw [containsRange_some_iff (ha i rfl) (hb j rfl), denote_some (ha i rfl), denote_some (hb j rfl),
      toSet_subset_iff (fine_of_canon hb hmb) (notMin_lowerPt (hma i rfl).1)]

theorem overlaps_iff (ha : a.Canon) (hb : b.Canon) (hma : a.AvoidsMin) (hmb : b.AvoidsMin) :
    a.overlaps b = true ↔ (a.denote ∩ b.denote).Nonempty := by
  rcases a with ⟨_ | i⟩ <;> rcases b with ⟨_ | j⟩
  · simp [overlaps]
  · simp [overlaps]
  · simp [overlaps]
  · have hfi := fine_of_canon ha hma
    have hfj := fine_of_canon hb hmb
    rw [overlaps_some_iff (ha i rfl) (hb j rfl), denote_some (ha i rfl), denote_some (hb j rfl),
      toSet_inter, toSet_nonempty_iff (hfi.lo_notMin.max hfj.lo_notMin)
        (hfi.hi_notMin.min hfj.hi_notMin), max_lt_iff, lt_min_iff, lt_min_iff]
    exact ⟨fun h => ⟨⟨hfi.lt, h.1⟩, ⟨h.2, hfj.lt⟩⟩, fun h => ⟨h.1.2, h.2.1⟩⟩

/-- Two non-empty canonical ranges are adjacent exactly where they share no element and together
form one interval. -/
theorem adjacent_iff (ha : a.Canon) (hb : b.Canon) (hma : a.AvoidsMin) (hmb : b.AvoidsMin)
    (hsa : a.inner.isSome) (hsb : b.inner.isSome) :
    a.adjacent b = true ↔ Disjoint a.denote b.denote ∧ (a.denote ∪ b.denote).OrdConnected := by
  rcases a with ⟨_ | i⟩
  · cases hsa
  rcases b with ⟨_ | j⟩
  · cases hsb
  have hfi := fine_of_canon ha hma
  have hfj := fine_of_canon hb hmb
  rw [adjacent_some_iff (ha i rfl) (hb j rfl), denote_some (ha i rfl), denote_some (hb j rfl),
    Set.disjoint_iff_inter_eq_empty, toSet_inter, ← Set.not_nonempty_iff_eq_empty,
    toSet_nonempty_iff (hfi.lo_notMin.max hfj.lo_notMin) (hfi.hi_notMin.min hfj.hi_notMin),
    ordConnected_union_iff hfi hfj, max_lt_iff, lt_min_iff, lt_min_iff]
  have := hfi.lt
  have := hfj.lt
  -- touching ends are exactly ends in order that leave no element between the ranges
  constructor
  · rintro (h | h) <;> refine ⟨?_, ?_, ?_⟩ <;> order
  · rintro ⟨hn, h₁, h₂⟩
    rcases h₂.lt_or_eq with h₂ | h₂
    · rcases h₁.lt_or_eq with h₁ | h₁
      · exact absurd ⟨⟨hfi.lt, h₂⟩, ⟨h₁, hfj.lt⟩⟩ hn
      · exact .inr h₁
    · exact .inl h₂


/-- `union`: the elements of both ranges, where those form one interval. -/
theorem union_gives (ha : a.Canon) (hb : b.Canon) (hma : a.AvoidsMin) (hmb : b.AvoidsMin) :
    Gives (a.denote ∪ b.denote) .discontiguousUnion (a.union b) := by
  rcases a with ⟨_ | i⟩ <;> rcases b with ⟨_ | j⟩
  · exact ⟨by simp, by simpa using (Set.ordConnected_empty : (∅ : Set B).OrdConnected)⟩
  · exact ⟨by simp, by simpa using ordConnected_denote hb⟩
  · exact ⟨by simp, by simpa using ordConnected_denote ha⟩
  have hi := ha i rfl
  have hj := hb j rfl
  have hfi := fine_of_canon ha hma
  have hfj := fine_of_canon hb hmb
  -- overlapping or adjacent is the condition for the union of the two segments to be one
  have hjoin : (Range.overlaps ⟨some i⟩ ⟨some j⟩ || Range.adjacent ⟨some i⟩ ⟨some j⟩) = true ↔
      j.lower.lowerPt ≤ i.upper.upperPt ∧ i.lower.lowerPt ≤ j.upper.upperPt := by
    rw [Bool.or_eq_true, overlaps_some_iff hi hj, adjacent_some_iff hi hj]
    have := hi.lt
    have := hj.lt
    constructor
    · rintro (⟨h₁, h₂⟩ | h | h) <;> constructor <;> order
    · rintro ⟨h₁, h₂⟩
      rcases h₁.lt_or_eq with h₁ | h₁
      · rcases h₂.lt_or_eq with h₂ | h₂
        · exact .inl ⟨h₂, h₁⟩
        · exact .inr (.inl h₂)
      · exact .inr (.inr h₁)
  cases hc : (Range.overlaps ⟨some i⟩ ⟨some j⟩ || Range.adjacent ⟨some i⟩ ⟨some j⟩)
  · simp only [union, hc, Bool.not_false, if_true]
    refine ⟨rfl, ?_⟩
    rw [denote_some hi, denote_some hj, ordConnected_union_iff hfi hfj, ← hjoin, hc]
    exact Bool.false_ne_true
  · simp only [union, hc, Bool.not_true, Bool.false_eq_true, if_false]
    have hle := hjoin.mp hc
    refine ⟨?_, ?_⟩
    · rw [denote_some (canon_union hi hj), lowerPt_min hi.lower hj.lower,
        upperPt_max hi.upper hj.upper, denote_some hi, denote_some hj, toSet_union hle.1 hle.2]
    · rw [denote_some hi, denote_some hj, ordConnected_union_iff hfi hfj]
      exact hle

end Elements

section Difference

variable {a b c d : Ext B} {err : InvalidRangeError}

/-- The branches of `difference` on two canonical ranges with ends `[a, b)` and `[c, d)` that
overlap. The second lies strictly inside the first: two pieces are left. -/
theorem gives_diff_inside [Nonempty B] (h₁ : Fine a b) (h₂ : Fine c d) (hac : a < c)
    (hdb : d < b) : Gives (toSet a b \ toSet c d) err (.error err) :=
  ⟨rfl, not_ordConnected_diff h₁ h₂ hac hdb⟩

/-- The second covers the first: nothing is left. -/
theorem gives_diff_covered (hca : c ≤ a) (hbd : b ≤ d) :
    Gives (toSet a b \ toSet c d) err (.ok ⟨none⟩) := by
  rw [toSet_diff_of_le hca hbd]
  exact ⟨denote_none, Set.ordConnected_empty⟩

/-- The second covers the lower part: the part above its upper end is left, its upper bound
turned into a lower one. -/
theorem gives_diff_upper (dis : Discrete B) {i j : RangeInner B} (hi : i.Canon) (hj : j.Canon)
    (hca : j.lower.lowerPt ≤ i.lower.lowerPt) (hdb : j.upper.upperPt < i.upper.upperPt)
    (had : i.lower.lowerPt < j.upper.upperPt) :
    Gives (toSet i.lower.lowerPt i.upper.upperPt \ toSet j.lower.lowerPt j.upper.upperPt) err
      ((⟨some ⟨⟨!j.upper.inclusive, j.upper.bound⟩, i.upper⟩⟩ : Range B).canonicalize
        (some dis)) := by
  obtain ⟨hcanon, hpt⟩ := RangeBound.flip_upper hj.upper (ne_top_of_lt hdb)
  have hr : (⟨some ⟨⟨!j.upper.inclusive, j.upper.bound⟩, i.upper⟩⟩ : Range B).Canon := by
    rintro _ ⟨⟩
    exact ⟨hcanon, hi.upper, hpt ▸ hdb⟩
  rw [canonicalize_of_canon dis hr, toSet_diff_left hca had]
  refine ⟨?_, ordConnected_toSet _ _⟩
  rw [denote_some (hr _ rfl), hpt]

/-- The second covers the upper part: the part below its lower end is left, its lower bound
turned into an upper one. -/
theorem gives_diff_lower (dis : Discrete B) {i j : RangeInner B} (hi : i.Canon) (hj : j.Canon)
    (hac : i.lower.lowerPt < j.lower.lowerPt) (hbd : i.upper.upperPt ≤ j.upper.upperPt)
    (hcb : j.lower.lowerPt < i.upper.upperPt) :
    Gives (toSet i.lower.lowerPt i.upper.upperPt \ toSet j.lower.lowerPt j.upper.upperPt) err
      ((⟨some ⟨i.lower, ⟨!j.lower.inclusive, j.lower.bound⟩⟩⟩ : Range B).canonicalize
        (some dis)) := by
  obtain ⟨hcanon, hpt⟩ := RangeBound.flip_lower hj.lower (ne_bot_of_gt hac)
  have hr : (⟨some ⟨i.lower, ⟨!j.lower.inclusive, j.lower.bound⟩⟩⟩ : Range B).Canon := by
    rintro _ ⟨⟩
    exact ⟨hi.lower, hcanon, hpt ▸ hac⟩
  rw [canonicalize_of_canon dis hr, toSet_diff_right hcb hbd]
  refine ⟨?_, ordConnected_toSet _ _⟩
  rw [denote_some (hr _ rfl), hpt]

end Difference

/-- `difference`: the elements of the first range not in the second, where those form one
interval. -/
theorem difference_gives [Nonempty B] (dis : Discrete B) {a b : Range B} (ha : a.Canon)
    (hb : b.Canon) (hma : a.AvoidsMin) (hmb : b.AvoidsMin) :
    Gives (a.denote \ b.denote) .discontiguousDifference (a.difference (some dis) b) := by
  cases hov : a.overlaps b
  · -- no overlap: the first range is left as it is
    have hdisj : Disjoint a.denote b.denote := by
      rw [Set.disjoint_iff_inter_eq_empty, ← Set.not_nonempty_iff_eq_empty,
        ← overlaps_iff ha hb hma hmb, hov]
      exact Bool.false_ne_true
    simp only [difference, hov, Bool.not_false, if_true]
    rw [sdiff_eq_left.mpr hdisj]
    exact ⟨rfl, ordConnected_denote ha⟩
  rcases a with ⟨_ | i⟩ <;> rcases b with ⟨_ | j⟩
  · cases hov
  · cases hov
  · cases hov
  simp only [difference, hov, Bool.not_true, Bool.false_eq_true, if_false]
  have hi := ha i rfl
  have hj := hb j rfl
  have hfi := fine_of_canon ha hma
  have hfj := fine_of_canon hb hmb
  obtain ⟨hij, hji⟩ := (overlaps_some_iff hi hj).mp hov
  rw [denote_some hi, denote_some hj]
  simp only [cmp_lower hi.lower hj.lower, cmp_upper hi.upper hj.upper]
  -- one case for each pair of comparisons of the lower ends and of the upper ends
  split <;> rename_i hl hu <;>
    simp only [compare_lt_iff_lt, compare_eq_iff_eq, compare_gt_iff_gt] at hl hu
  · exact gives_diff_inside hfi hfj hl hu
  · exact gives_diff_covered hl.le hu.le
  · exact gives_diff_covered hl.le hu.le
  · exact gives_diff_covered hl.ge hu.le
  · exact gives_diff_covered hl.ge hu.le
  · exact gives_diff_upper dis hi hj hl.le hu hij
  · exact gives_diff_upper dis hi hj hl.ge hu hij
  · exact gives_diff_lower dis hi hj hl hu.le hji
  · exact gives_diff_lower dis hi hj hl hu.le hji

end Range

/-! ## Range operations as set algebra -/

/-- `i32`'s `checked_add(1)` gives the successor. -/
theorem Discrete.int4_isSucc : Discrete.int4.IsSucc := by
  intro v w
  show v.add? .one = some w ↔ v ⋖ w
  rw [SInt.add?_eq_some_iff, SInt.covBy_iff, SInt.val_one]

open Range in
theorem range_ops_set_algebra [Nonempty B] {d : Discrete B} (hd : d.IsSucc)
    {ra rb a b : Range B} (ha : ra.canonicalize (some d) = .ok a)
    (hb : rb.canonicalize (some d) = .ok b) (hma : a.AvoidsMin) (hmb : b.AvoidsMin) :
    (∀ (dd : Option (Discrete B)) (r r' : Range B), (dd = none ∨ dd = some d) →
      r.canonicalize dd = .ok r' → r'.denote = r.denote) ∧
    (a = b ↔ a.denote = b.denote) ∧
    (a.intersection b).denote = a.denote ∩ b.denote ∧
    (a.intersection b).canonicalize (some d) = .ok (a.intersection b) ∧
    Gives (a.denote ∪ b.denote) .discontiguousUnion (a.union b) ∧
    Gives (a.denote \ b.denote) .discontiguousDifference (a.difference (some d) b) ∧
    (a.containsRange b = true ↔ b.denote ⊆ a.denote) ∧
    (a.overlaps b = true ↔ (a.denote ∩ b.denote).Nonempty) ∧
    (a.inner.isSome → b.inner.isSome →
      (a.adjacent b = true ↔ Disjoint a.denote b.denote ∧ (a.denote ∪ b.denote).OrdConnected)) := by
  have hca := canon_of_canonicalize ha
  have hcb := canon_of_canonicalize hb
  -- both a type that does not step and one whose step is the successor keep the elements
  have hkeep : ∀ (dd : Option (Discrete B)) (r r' : Range B), (dd = none ∨ dd = some d) →
      r.canonicalize dd = .ok r' → r'.denote = r.denote := by
    rintro dd r r' (rfl | rfl) h
    · exact denote_canonicalize (by rintro _ ⟨⟩) h
    · exact denote_canonicalize (fun _ h => Option.some.inj h ▸ hd) h
  exact ⟨hkeep, eq_iff_denote_eq hca hcb hma hmb, denote_intersection hca hcb,
    canonicalize_of_canon d (intersection_canon hca hcb), union_gives hca hcb hma hmb,
    difference_gives d hca hcb hma hmb, containsRange_iff hca hcb hma hmb,
    overlaps_iff hca hcb hma hmb, adjacent_iff hca hcb hma hmb⟩

/-- The `int4` range `[1, 5)`: canonical, away from `i32::MIN`, and meeting itself. -/
theorem range_ops_set_algebra_int4 :
    Discrete.int4.IsSucc ∧
    (⟨some ⟨⟨true, some (.lit 1)⟩, ⟨false, some (.lit 5)⟩⟩⟩ : Range (SInt 32)).canonicalize
        (some .int4) = .ok ⟨some ⟨⟨true, some (.lit 1)⟩, ⟨false, some (.lit 5)⟩⟩⟩ ∧
    (⟨some ⟨⟨true, some (.lit 1)⟩, ⟨false, some (.lit 5)⟩⟩⟩ : Range (SInt 32)).AvoidsMin ∧
    ((⟨some ⟨⟨true, some (.lit 1)⟩, ⟨false, some (.lit 5)⟩⟩⟩ : Range (SInt 32)).overlaps
        ⟨some ⟨⟨true, some (.lit 1)⟩, ⟨false, some (.lit 5)⟩⟩⟩ = true ↔
      ((⟨some ⟨⟨true, some (.lit 1)⟩, ⟨false, some (.lit 5)⟩⟩⟩ : Range (SInt 32)).denote ∩
        (⟨some ⟨⟨true, some (.lit 1)⟩, ⟨false, some (.lit 5)⟩⟩⟩ : Range (SInt 32)).denote).Nonempty) := by
  have hcanon : (⟨some ⟨⟨true, some (.lit 1)⟩, ⟨false, some (.lit 5)⟩⟩⟩ : Range (SInt 32)).Canon := by
    rintro _ ⟨⟩
    exact ⟨rfl, rfl, by simp [SInt.lt_iff_val_lt]⟩
  have hc := Range.canonicalize_of_canon Discrete.int4 hcanon
  have hm : (⟨some ⟨⟨true, some (.lit 1)⟩, ⟨false, some (.lit 5)⟩⟩⟩ : Range (SInt 32)).AvoidsMin := by
    rintro _ ⟨⟩
    refine ⟨?_, ?_⟩ <;> rintro x ⟨⟩ <;> exact not_isMin_iff.mpr ⟨.lit 0, by decide⟩
  exact ⟨Discrete.int4_isSucc, hc, hm,
    (range_ops_set_algebra Discrete.int4_isSucc hc hc hm hm).2.2.2.2.2.2.2.1⟩

/-- At `i32::MIN` the elements do not determine a canonical range: `[MIN, 5)` and `(-∞, 5)` are
both left as they are by `canonicalize` and have the same elements. And an empty range is
adjacent to no range, though it shares no element with `[0, 5)` and their union is an
interval. -/
theorem int4_canonical_ranges_at_min :
    (⟨some ⟨⟨true, some (.lit (-2147483648))⟩, ⟨false, some (.lit 5)⟩⟩⟩ : Range (SInt 32)).canonicalize
        (some .int4) = .ok ⟨some ⟨⟨true, some (.lit (-2147483648))⟩, ⟨false, some (.lit 5)⟩⟩⟩ ∧
    (⟨some ⟨⟨false, none⟩, ⟨false, some (.lit 5)⟩⟩⟩ : Range (SInt 32)).canonicalize (some .int4) =
        .ok ⟨some ⟨⟨false, none⟩, ⟨false, some (.lit 5)⟩⟩⟩ ∧
    (⟨some ⟨⟨true, some (.lit (-2147483648))⟩, ⟨false, some (.lit 5)⟩⟩⟩ : Range (SInt 32)) ≠
        ⟨some ⟨⟨false, none⟩, ⟨false, some (.lit 5)⟩⟩⟩ ∧
    (⟨some ⟨⟨true, some (.lit (-2147483648))⟩, ⟨false, some (.lit 5)⟩⟩⟩ : Range (SInt 32)).denote =
        (⟨some ⟨⟨false, none⟩, ⟨false, some (.lit 5)⟩⟩⟩ : Range (SInt 32)).denote ∧
    (⟨none⟩ : Range (SInt 32)).adjacent ⟨some ⟨⟨true, some (.lit 0)⟩, ⟨false, some (.lit 5)⟩⟩⟩ =
        false ∧
    Disjoint (⟨none⟩ : Range (SInt 32)).denote
        (⟨some ⟨⟨true, some (.lit 0)⟩, ⟨false, some (.lit 5)⟩⟩⟩ : Range (SInt 32)).denote ∧
    ((⟨none⟩ : Range (SInt 32)).denote ∪
        (⟨some ⟨⟨true, some (.lit 0)⟩, ⟨false, some (.lit 5)⟩⟩⟩ : Range (SInt 32)).denote).OrdConnected := by
  have hmin : (⟨some ⟨⟨true, some (.lit (-2147483648))⟩, ⟨false, some (.lit 5)⟩⟩⟩ :
      Range (SInt 32)).Canon := by
    rintro _ ⟨⟩
    exact ⟨rfl, rfl, by simp [SInt.lt_iff_val_lt]⟩
  have hinf : (⟨some ⟨⟨false, none⟩, ⟨false, some (.lit 5)⟩⟩⟩ : Range (SInt 32)).Canon := by
    rintro _ ⟨⟩
    exact ⟨rfl, rfl, bot_lt_pt _⟩
  have hfive : (⟨some ⟨⟨true, some (.lit 0)⟩, ⟨false, some (.lit 5)⟩⟩⟩ : Range (SInt 32)).Canon := by
    rintro _ ⟨⟩
    exact ⟨rfl, rfl, by simp [SInt.lt_iff_val_lt]⟩
  refine ⟨Range.canonicalize_of_canon _ hmin, Range.canonicalize_of_canon _ hinf, by decide, ?_,
    rfl, by simp, ?_⟩
  · -- every `i32` is at least `MIN`
    rw [Range.denote_some (hmin _ rfl), Range.denote_some (hinf _ rfl)]
    ext x
    have hx : -2147483648 ≤ x.val := by simpa [InRange] using x.inRange.1
    simp [SInt.le_iff_val_le, hx]
  · rw [Range.denote_none, Set.empty_union]
    exact Range.ordConnected_denote hfive

end Materialize.Adt
