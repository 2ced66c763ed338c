import Mathlib

/-!
# Half-open segments of an order with both infinities

A segment `[lo, hi)` of `Ext B = WithBot (WithTop B)`, read back in `B`: the points `x` with
`lo ≤ x < hi`, where `⊥` stands for minus infinity and `⊤` for plus infinity. A segment is *fine*
where its ends are in order and neither is a least point of `B`: then it has points, and the set
algebra of the points of fine segments is the order algebra of their ends.

* `Fine.nonempty`, `toSet_nonempty_iff`: a fine segment has points;
* `toSet_subset_iff`, `toSet_inj`: inclusion and equality of fine segments are those of their ends;
* `toSet_inter`, `toSet_union`, `ordConnected_union_iff`: the meet, and when the union of two
  segments is one;
* `toSet_diff_of_le`, `toSet_diff_left`, `toSet_diff_right`, `not_ordConnected_diff`: the
  difference of two segments, which is one only where the second does not lie strictly inside.
-/

namespace Segment

variable {B : Type*}

/-- `B` with minus and plus infinity. -/
abbrev Ext (B : Type*) := WithBot (WithTop B)

/-- The point of `Ext B` at `x`. -/
def pt (x : B) : Ext B := ((x : WithTop B) : WithBot (WithTop B))

/-- Plus infinity. -/
def top : Ext B := ((⊤ : WithTop B) : WithBot (WithTop B))

@[simp] theorem pt_inj {x y : B} : pt x = pt y ↔ x = y := by
  simp [pt]

/-- Every end is minus infinity, plus infinity or a point. -/
theorem ext_cases (p : Ext B) : p = ⊥ ∨ p = top ∨ ∃ x, p = pt x := by
  rcases p with _ | _ | x
  · exact .inl rfl
  · exact .inr (.inl rfl)
  · exact .inr (.inr ⟨x, rfl⟩)

variable [LinearOrder B]

/-- The points of `B` in `[lo, hi)`. -/
def toSet (lo hi : Ext B) : Set B := Set.preimage pt (Set.Ico lo hi)

/-- An end that is not a least point of `B`. -/
def NotMin (p : Ext B) : Prop := ∀ x, p = pt x → ¬IsMin x

/-- A segment whose ends are in order and are not least points. -/
structure Fine (lo hi : Ext B) : Prop where
  lt : lo < hi
  lo_notMin : NotMin lo
  hi_notMin : NotMin hi

/-! ## Points -/

@[simp] theorem pt_le_pt {x y : B} : pt x ≤ pt y ↔ x ≤ y := by
  simp [pt]

@[simp] theorem pt_lt_pt {x y : B} : pt x < pt y ↔ x < y := by
  simp [pt]

@[simp] theorem bot_lt_pt (x : B) : (⊥ : Ext B) < pt x := WithBot.bot_lt_coe _

@[simp] theorem pt_lt_top (x : B) : pt x < (top : Ext B) :=
  WithBot.coe_lt_coe.mpr (WithTop.coe_lt_top x)

@[simp] theorem bot_lt_top : (⊥ : Ext B) < top := WithBot.bot_lt_coe _

@[simp] theorem pt_ne_bot (x : B) : pt x ≠ ⊥ := (bot_lt_pt x).ne'

@[simp] theorem pt_ne_top (x : B) : pt x ≠ top := (pt_lt_top x).ne

@[simp] theorem bot_ne_pt (x : B) : (⊥ : Ext B) ≠ pt x := (bot_lt_pt x).ne

@[simp] theorem top_ne_pt (x : B) : (top : Ext B) ≠ pt x := (pt_lt_top x).ne'

@[simp] theorem bot_ne_top : (⊥ : Ext B) ≠ top := bot_lt_top.ne

theorem monotone_pt : Monotone (pt : B → Ext B) := fun _ _ h => pt_le_pt.mpr h

@[simp] theorem compare_pt (x y : B) : compare (pt x) (pt y) = compare x y := by
  rcases lt_trichotomy x y with h | rfl | h
  · rw [compare_lt_iff_lt.mpr h, compare_lt_iff_lt.mpr (pt_lt_pt.mpr h)]
  · rw [compare_eq_iff_eq.mpr rfl, compare_eq_iff_eq.mpr rfl]
  · rw [compare_gt_iff_gt.mpr h, compare_gt_iff_gt.mpr (pt_lt_pt.mpr h)]

theorem le_top (p : Ext B) : p ≤ top := by
  rcases ext_cases p with rfl | rfl | ⟨x, rfl⟩
  · exact bot_lt_top.le
  · exact le_rfl
  · exact (pt_lt_top x).le

/-- An end strictly between two others is a point. -/
theorem exists_pt_of_lt_of_lt {p q r : Ext B} (hpq : p < q) (hqr : q < r) : ∃ x, q = pt x := by
  rcases ext_cases q with rfl | rfl | hq
  · exact absurd hpq not_lt_bot
  · exact absurd hqr (not_lt_of_ge (le_top r))
  · exact hq

theorem NotMin.exists_lt {x : B} (h : NotMin (pt x)) : ∃ y, y < x :=
  not_isMin_iff.mp (h x rfl)

@[simp] theorem notMin_bot : NotMin (⊥ : Ext B) := fun x h => absurd h.symm (pt_ne_bot x)

@[simp] theorem notMin_top : NotMin (top : Ext B) := fun x h => absurd h.symm (pt_ne_top x)

theorem NotMin.max {p q : Ext B} (hp : NotMin p) (hq : NotMin q) : NotMin (max p q) := by
  rcases max_choice p q with h | h <;> rw [h] <;> assumption

theorem NotMin.min {p q : Ext B} (hp : NotMin p) (hq : NotMin q) : NotMin (min p q) := by
  rcases min_choice p q with h | h <;> rw [h] <;> assumption

/-- The lesser and the greater of two ends, chosen by `compare` as `std::cmp::min` and `max`
choose. -/
theorem ite_compare_gt_eq_min (p q : Ext B) : (if compare p q = .gt then q else p) = min p q := by
  by_cases h : p ≤ q
  · rw [if_neg (compare_le_iff_le.mpr h), min_eq_left h]
  · rw [if_pos (compare_gt_iff_gt.mpr (lt_of_not_ge h)), min_eq_right (le_of_not_ge h)]

theorem ite_compare_gt_eq_max (p q : Ext B) : (if compare p q = .gt then p else q) = max p q := by
  by_cases h : p ≤ q
  · rw [if_neg (compare_le_iff_le.mpr h), max_eq_right h]
  · rw [if_pos (compare_gt_iff_gt.mpr (lt_of_not_ge h)), max_eq_left (le_of_not_ge h)]

/-! ## Segments -/

@[simp] theorem mem_toSet {lo hi : Ext B} {x : B} : x ∈ toSet lo hi ↔ lo ≤ pt x ∧ pt x < hi :=
  Iff.rfl

theorem ordConnected_toSet (lo hi : Ext B) : (toSet lo hi).OrdConnected :=
  Set.ordConnected_Ico.preimage_mono monotone_pt

theorem toSet_mono {a b c d : Ext B} (hca : c ≤ a) (hbd : b ≤ d) : toSet a b ⊆ toSet c d :=
  Set.preimage_mono (Set.Ico_subset_Ico hca hbd)

theorem toSet_inter (a b c d : Ext B) : toSet a b ∩ toSet c d = toSet (max a c) (min b d) := by
  rw [toSet, toSet, ← Set.preimage_inter, Set.Ico_inter_Ico, toSet]

theorem toSet_union {a b c d : Ext B} (hcb : c ≤ b) (had : a ≤ d) :
    toSet a b ∪ toSet c d = toSet (min a c) (max b d) := by
  rw [toSet, toSet, ← Set.preimage_union, Set.Ico_union_Ico' hcb had, toSet]

variable {a b c d : Ext B}

theorem toSet_diff_of_le (hca : c ≤ a) (hbd : b ≤ d) : toSet a b \ toSet c d = ∅ :=
  Set.sdiff_eq_empty.mpr (toSet_mono hca hbd)

/-- Removing a segment that covers the lower part leaves the upper part. -/
theorem toSet_diff_left (hca : c ≤ a) (had : a < d) :
    toSet a b \ toSet c d = toSet d b := by
  ext x
  simp only [Set.mem_sdiff, mem_toSet, not_and, not_lt]
  constructor
  · rintro ⟨⟨hax, hxb⟩, hx⟩
    exact ⟨hx (hca.trans hax), hxb⟩
  · rintro ⟨hdx, hxb⟩
    exact ⟨⟨had.le.trans hdx, hxb⟩, fun _ => hdx⟩

/-- Removing a segment that covers the upper part leaves the lower part. -/
theorem toSet_diff_right (hcb : c < b) (hbd : b ≤ d) :
    toSet a b \ toSet c d = toSet a c := by
  ext x
  simp only [Set.mem_sdiff, mem_toSet, not_and, not_lt]
  constructor
  · rintro ⟨⟨hax, hxb⟩, hx⟩
    exact ⟨hax, lt_of_not_ge fun hcx => absurd (hx hcx) (not_le_of_gt (hxb.trans_le hbd))⟩
  · rintro ⟨hax, hxc⟩
    exact ⟨⟨hax, hxc.trans hcb⟩, fun hcx => absurd hcx (not_le_of_gt hxc)⟩

section Fine

variable [Nonempty B]

/-- A fine segment has points: its lower end if that is a point, and otherwise one below its
upper end. -/
theorem Fine.nonempty (h : Fine a b) : (toSet a b).Nonempty := by
  rcases ext_cases a with rfl | rfl | ⟨l, rfl⟩
  · rcases ext_cases b with rfl | rfl | ⟨u, rfl⟩
    · exact absurd h.lt (lt_irrefl _)
    · obtain ⟨x⟩ := ‹Nonempty B›
      exact ⟨x, bot_le, pt_lt_top x⟩
    · obtain ⟨y, hy⟩ := h.hi_notMin.exists_lt
      exact ⟨y, bot_le, pt_lt_pt.mpr hy⟩
  · exact absurd h.lt (not_lt_of_ge (le_top b))
  · exact ⟨l, le_rfl, h.lt⟩

theorem toSet_nonempty_iff (ha : NotMin a) (hb : NotMin b) : (toSet a b).Nonempty ↔ a < b := by
  constructor
  · rintro ⟨x, hax, hxb⟩
    exact lt_of_le_of_lt hax hxb
  · intro hab
    exact Fine.nonempty ⟨hab, ha, hb⟩

/-- Below an end above a fine segment's lower end lies a point of the segment. -/
theorem Fine.exists_mem_lt (h : Fine a b) (hac : a < c) (hc : NotMin c) :
    ∃ x ∈ toSet a b, pt x < c := by
  obtain ⟨z, hz⟩ := h.nonempty
  rcases ext_cases a with rfl | rfl | ⟨l, rfl⟩
  · rcases ext_cases c with rfl | rfl | ⟨l', rfl⟩
    · exact absurd hac (lt_irrefl _)
    · exact ⟨z, hz, pt_lt_top z⟩
    · -- the lower end is minus infinity: a point below both `l'` and `z`
      obtain ⟨y, hy⟩ := hc.exists_lt
      refine ⟨min y z, ⟨bot_le, ?_⟩, ?_⟩
      · exact lt_of_le_of_lt (pt_le_pt.mpr (min_le_right y z)) hz.2
      · exact pt_lt_pt.mpr (lt_of_le_of_lt (min_le_left y z) hy)
  · exact absurd h.lt (not_lt_of_ge (le_top b))
  · exact ⟨l, ⟨le_rfl, h.lt⟩, hac⟩

/-- At or above an end below a fine segment's upper end lies a point of the segment. -/
theorem Fine.exists_mem_ge (h : Fine a b) (hcb : c < b) : ∃ x ∈ toSet a b, c ≤ pt x := by
  obtain ⟨z, hz⟩ := h.nonempty
  rcases le_or_gt c a with hca | hac
  · exact ⟨z, hz, hca.trans hz.1⟩
  · obtain ⟨v, rfl⟩ := exists_pt_of_lt_of_lt hac hcb
    exact ⟨v, ⟨hac.le, hcb⟩, le_rfl⟩

theorem toSet_subset_iff (h : Fine a b) (hc : NotMin c) :
    toSet a b ⊆ toSet c d ↔ c ≤ a ∧ b ≤ d := by
  refine ⟨fun hsub => ⟨?_, ?_⟩, fun hle => toSet_mono hle.1 hle.2⟩
  · by_contra hac
    obtain ⟨x, hx, hxc⟩ := h.exists_mem_lt (lt_of_not_ge hac) hc
    exact absurd (hsub hx).1 (not_le_of_gt hxc)
  · by_contra hbd
    obtain ⟨x, hx, hdx⟩ := h.exists_mem_ge (lt_of_not_ge hbd)
    exact absurd (hsub hx).2 (not_lt_of_ge hdx)

theorem toSet_inj (h₁ : Fine a b) (h₂ : Fine c d) : toSet a b = toSet c d ↔ a = c ∧ b = d := by
  constructor
  · intro heq
    obtain ⟨hca, hbd⟩ := (toSet_subset_iff h₁ h₂.lo_notMin).mp heq.subset
    obtain ⟨hac, hdb⟩ := (toSet_subset_iff h₂ h₁.lo_notMin).mp heq.symm.subset
    exact ⟨le_antisymm hac hca, le_antisymm hbd hdb⟩
  · rintro ⟨rfl, rfl⟩
    rfl

/-- A segment ending before another begins leaves a gap: the first's upper end, a point in
neither. -/
theorem not_ordConnected_union_of_lt (h₁ : Fine a b) (h₂ : Fine c d) (hbc : b < c) :
    ¬(toSet a b ∪ toSet c d).OrdConnected := by
  intro hconn
  obtain ⟨v, rfl⟩ := exists_pt_of_lt_of_lt h₁.lt hbc
  obtain ⟨w, rfl⟩ := exists_pt_of_lt_of_lt hbc h₂.lt
  obtain ⟨x, hx, hxv⟩ := h₁.exists_mem_lt h₁.lt h₁.hi_notMin
  have hvw : v ≤ w := pt_le_pt.mp hbc.le
  rcases hconn.out (Or.inl hx) (Or.inr ⟨le_rfl, h₂.lt⟩) ⟨(pt_lt_pt.mp hxv).le, hvw⟩ with hv | hv
  · exact absurd hv.2 (lt_irrefl _)
  · exact absurd hv.1 (not_le_of_gt hbc)

theorem ordConnected_union_iff (h₁ : Fine a b) (h₂ : Fine c d) :
    (toSet a b ∪ toSet c d).OrdConnected ↔ c ≤ b ∧ a ≤ d := by
  constructor
  · intro hconn
    refine ⟨le_of_not_gt fun hbc => not_ordConnected_union_of_lt h₁ h₂ hbc hconn,
      le_of_not_gt fun hda => ?_⟩
    rw [Set.union_comm] at hconn
    exact not_ordConnected_union_of_lt h₂ h₁ hda hconn
  · rintro ⟨hcb, had⟩
    rw [toSet_union hcb had]
    exact ordConnected_toSet _ _

/-! ## Differences -/

/-- Removing a segment strictly inside another leaves two pieces: a point below the removed
segment, its lower end, and its upper end lie in that order, the middle one removed. -/
theorem not_ordConnected_diff (h₁ : Fine a b) (h₂ : Fine c d) (hac : a < c) (hdb : d < b) :
    ¬(toSet a b \ toSet c d).OrdConnected := by
  intro hconn
  obtain ⟨w, rfl⟩ := exists_pt_of_lt_of_lt hac h₂.lt
  obtain ⟨v, rfl⟩ := exists_pt_of_lt_of_lt h₂.lt hdb
  obtain ⟨x, hx, hxw⟩ := h₁.exists_mem_lt hac h₂.lo_notMin
  have hx_mem : x ∈ toSet a b \ toSet (pt w) (pt v) :=
    ⟨hx, fun hx' => absurd hx'.1 (not_le_of_gt hxw)⟩
  have hv_mem : v ∈ toSet a b \ toSet (pt w) (pt v) :=
    ⟨⟨(hac.trans h₂.lt).le, hdb⟩, fun hv' => absurd hv'.2 (lt_irrefl _)⟩
  exact (hconn.out hx_mem hv_mem ⟨(pt_lt_pt.mp hxw).le, (pt_lt_pt.mp h₂.lt).le⟩).2 ⟨le_rfl, h₂.lt⟩

end Fine

end Segment
