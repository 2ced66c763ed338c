import Materialize.Lib.Chain
import Materialize.Lib.Run
import Materialize.Persist.Spine

/-!
# What every spine operation keeps

Read oldest first, a spine's batches (`Spine.spineBatches`) are one list, however they sit in the
levels. Every operation of `trace.rs` either leaves that list as it is, or *regroups* it —
replaces a run of consecutive batches by the one batch they merge into (`SpineBatch.Spans`) — or
appends the batch it inserts. The invariant `Spine.InvAt` is stated over that list: the batches'
ids and frontiers link up (`Chain.Links`), each batch is well formed, and each level holds a merge
exactly when it is full. Each operation is proved to keep it, and to regroup the list
(`Spine.insertAt_spineBatches`, `Spine.applyFuel_inv`, `Spine.rollUp_inv`, `Spine.tidyLayers_inv`,
`Spine.introduceBatch_inv`, `Spine.insert_inv`, `Spine.exert_inv`), and `Spine.validate_of_inv`
reads the invariant back as `Spine::validate`'s success.

The invariant is parametrized by the property `ok` every since must have: `fun _ => True` for the
structural facts alone, `(· ≤ s.since)` for the one `validate` checks.
-/

namespace Materialize.Persist

open Chain

variable {A P M : Type}

/-! ## The batches of a list of levels -/

/-- The batches of a list of levels, from the last (highest) level down. -/
def levelsBatches (l : List (MergeState A P M)) : List (SpineBatch A P M) :=
  l.reverse.flatMap MergeState.batches

@[simp] theorem levelsBatches_nil : levelsBatches ([] : List (MergeState A P M)) = [] := rfl

@[simp] theorem levelsBatches_append (l₁ l₂ : List (MergeState A P M)) :
    levelsBatches (l₁ ++ l₂) = levelsBatches l₂ ++ levelsBatches l₁ := by
  simp [levelsBatches]

@[simp] theorem levelsBatches_cons (m : MergeState A P M) (l : List (MergeState A P M)) :
    levelsBatches (m :: l) = levelsBatches l ++ m.batches := by
  simp [levelsBatches]

@[simp] theorem MergeState.default_batches : (MergeState.default : MergeState A P M).batches = [] :=
  rfl

@[simp] theorem MergeState.default_merge : (MergeState.default : MergeState A P M).merge = none :=
  rfl

@[simp] theorem levelsBatches_replicate_default (n : Nat) :
    levelsBatches (List.replicate n (MergeState.default : MergeState A P M)) = [] := by
  induction n with
  | zero => rfl
  | succ n ih => rw [List.replicate_succ, levelsBatches_cons, ih, MergeState.default_batches]; rfl

/-- The batches of a list of levels, split around level `i`. -/
theorem levelsBatches_split {l : List (MergeState A P M)} {i : Nat} (h : i < l.length) :
    levelsBatches l = levelsBatches (l.drop (i + 1)) ++ l[i].batches ++ levelsBatches (l.take i) := by
  have hl : l.take i ++ l[i] :: l.drop (i + 1) = l := by
    rw [← List.drop_eq_getElem_cons h, List.take_append_drop]
  calc levelsBatches l = levelsBatches (l.take i ++ l[i] :: l.drop (i + 1)) := by rw [hl]
    _ = _ := by simp only [levelsBatches_append, levelsBatches_cons, List.append_assoc]

@[simp] theorem MergeState.single_batches (b : SpineBatch A P M) : (MergeState.single b).batches = [b] :=
  rfl

@[simp] theorem MergeState.single_merge (b : SpineBatch A P M) : (MergeState.single b).merge = none :=
  rfl

theorem Spine.spineBatches_eq (s : Spine A P M) : s.spineBatches = levelsBatches s.merging := rfl

/-! ## One level and the levels around it -/

/-- Level `i`, vacant when the spine has no such level. -/
def Spine.levelAt (s : Spine A P M) (i : Nat) : MergeState A P M := s.merging.getD i .default

/-- The batches of the levels above `i`. -/
def Spine.above (s : Spine A P M) (i : Nat) : List (SpineBatch A P M) :=
  levelsBatches (s.merging.drop (i + 1))

/-- The batches of the levels below `i`. -/
def Spine.below (s : Spine A P M) (i : Nat) : List (SpineBatch A P M) :=
  levelsBatches (s.merging.take i)

theorem Spine.levelAt_of_lt {s : Spine A P M} {i : Nat} (h : i < s.merging.length) :
    s.levelAt i = s.merging[i] := by
  simp [Spine.levelAt, List.getD_eq_getElem?_getD, h]

theorem Spine.levelAt_of_le {s : Spine A P M} {i : Nat} (h : s.merging.length ≤ i) :
    s.levelAt i = .default := by
  simp [Spine.levelAt, List.getD_eq_getElem?_getD, h]

/-- A level the spine has is its level `i`. -/
theorem Spine.levelAt_of_getElem? {s : Spine A P M} {i : Nat} {m : MergeState A P M}
    (h : s.merging[i]? = some m) : i < s.merging.length ∧ s.levelAt i = m := by
  obtain ⟨hi, rfl⟩ := List.getElem?_eq_some_iff.1 h
  exact ⟨hi, Spine.levelAt_of_lt hi⟩

/-- The batches, split around any level. -/
theorem Spine.spineBatches_split (s : Spine A P M) (i : Nat) :
    s.spineBatches = s.above i ++ (s.levelAt i).batches ++ s.below i := by
  rw [Spine.spineBatches_eq, Spine.above, Spine.below]
  by_cases h : i < s.merging.length
  · rw [levelsBatches_split h, Spine.levelAt_of_lt h]
  · have hle : s.merging.length ≤ i := Nat.le_of_not_lt h
    simp [List.take_of_length_le hle, List.drop_of_length_le (Nat.le_succ_of_le hle),
      Spine.levelAt_of_le hle]

theorem Spine.below_succ (s : Spine A P M) (i : Nat) :
    s.below (i + 1) = (s.levelAt i).batches ++ s.below i := by
  rw [Spine.below, Spine.below, List.take_add_one]
  by_cases h : i < s.merging.length
  · simp only [List.getElem?_eq_getElem h, Option.toList_some, levelsBatches_append,
      levelsBatches_cons, levelsBatches_nil, List.nil_append, Spine.levelAt_of_lt h]
  · have hle : s.merging.length ≤ i := Nat.le_of_not_lt h
    simp [List.getElem?_eq_none hle, Spine.levelAt_of_le hle]

/-- The batches of the levels from `i` up. -/
theorem Spine.levelsBatches_drop (s : Spine A P M) (i : Nat) :
    levelsBatches (s.merging.drop i) = s.above i ++ (s.levelAt i).batches := by
  rw [Spine.above]
  by_cases h : i < s.merging.length
  · rw [List.drop_eq_getElem_cons h, Spine.levelAt_of_lt h, levelsBatches_cons]
  · have hle : s.merging.length ≤ i := Nat.le_of_not_lt h
    simp [List.drop_of_length_le hle, List.drop_of_length_le (Nat.le_succ_of_le hle),
      Spine.levelAt_of_le hle]

theorem Spine.above_eq (s : Spine A P M) (i : Nat) :
    s.above i = s.above (i + 1) ++ (s.levelAt (i + 1)).batches :=
  Spine.levelsBatches_drop s (i + 1)

/-- The levels below `0` hold nothing. -/
@[simp] theorem Spine.below_zero (s : Spine A P M) : s.below 0 = [] := by
  simp [Spine.below]

theorem Spine.mem_spineBatches_of_levelAt {s : Spine A P M} {j : Nat} {x : SpineBatch A P M}
    (hx : x ∈ (s.levelAt j).batches) : x ∈ s.spineBatches := by
  rw [Spine.spineBatches_split s j]
  simp [hx]

theorem Spine.below_eq_nil {s : Spine A P M} {k : Nat} (h : ∀ j < k, (s.levelAt j).batches = []) :
    s.below k = [] := by
  induction k with
  | zero => exact Spine.below_zero s
  | succ k ih =>
    rw [Spine.below_succ, h k (Nat.lt_succ_self k), ih fun j hj => h j (Nat.lt_succ_of_lt hj)]
    rfl

/-! ### Replacing a level -/

section SetLevel
variable {s : Spine A P M} {i : Nat} {m : MergeState A P M}

@[simp] theorem Spine.setLevel_merging_length :
    (s.setLevel i m).merging.length = s.merging.length := by
  simp [Spine.setLevel]

@[simp] theorem Spine.setLevel_nextId : (s.setLevel i m).nextId = s.nextId := rfl
@[simp] theorem Spine.setLevel_upper : (s.setLevel i m).upper = s.upper := rfl
@[simp] theorem Spine.setLevel_since : (s.setLevel i m).since = s.since := rfl
@[simp] theorem Spine.setLevel_effort : (s.setLevel i m).effort = s.effort := rfl

theorem Spine.setLevel_above : (s.setLevel i m).above i = s.above i := by
  simp [Spine.above, Spine.setLevel, List.drop_set_of_lt (Nat.lt_succ_self i)]

theorem Spine.setLevel_below : (s.setLevel i m).below i = s.below i := by
  simp [Spine.below, Spine.setLevel, List.take_set_of_le (le_refl i)]

theorem Spine.setLevel_levelAt (h : i < s.merging.length) : (s.setLevel i m).levelAt i = m := by
  rw [Spine.levelAt_of_lt (by simpa using h)]
  simp [Spine.setLevel]

theorem Spine.setLevel_levelAt_ne {j : Nat} (hij : j ≠ i) :
    (s.setLevel i m).levelAt j = s.levelAt j := by
  simp [Spine.levelAt, Spine.setLevel, List.getD_eq_getElem?_getD, Ne.symm hij]

/-- Replacing level `i` replaces its batches in the flat list. -/
theorem Spine.setLevel_spineBatches (h : i < s.merging.length) :
    (s.setLevel i m).spineBatches = s.above i ++ m.batches ++ s.below i := by
  rw [Spine.spineBatches_split _ i, Spine.setLevel_above, Spine.setLevel_below,
    Spine.setLevel_levelAt h]

theorem Spine.mem_setLevel_merging {m' : MergeState A P M} (hm : m' ∈ (s.setLevel i m).merging) :
    m' = m ∨ m' ∈ s.merging := by
  simp only [Spine.setLevel] at hm
  exact List.mem_or_eq_of_mem_set hm |>.symm

end SetLevel

/-! ### Adding vacant levels -/

section EnsureLevels
variable {s : Spine A P M} {i : Nat}

@[simp] theorem Spine.ensureLevels_spineBatches : (s.ensureLevels i).spineBatches = s.spineBatches := by
  simp [Spine.ensureLevels, Spine.spineBatches_eq]

theorem Spine.ensureLevels_length : i < (s.ensureLevels i).merging.length := by
  simp [Spine.ensureLevels]
  omega

@[simp] theorem Spine.ensureLevels_nextId : (s.ensureLevels i).nextId = s.nextId := rfl
@[simp] theorem Spine.ensureLevels_upper : (s.ensureLevels i).upper = s.upper := rfl
@[simp] theorem Spine.ensureLevels_since : (s.ensureLevels i).since = s.since := rfl
@[simp] theorem Spine.ensureLevels_effort : (s.ensureLevels i).effort = s.effort := rfl

theorem Spine.ensureLevels_levelAt (j : Nat) : (s.ensureLevels i).levelAt j = s.levelAt j := by
  simp only [Spine.levelAt, Spine.ensureLevels, List.getD_eq_getElem?_getD, List.getElem?_append]
  split
  · rfl
  · rename_i h
    simp only [List.getElem?_replicate]
    split <;> simp [List.getElem?_eq_none (Nat.le_of_not_lt h)]

theorem Spine.ensureLevels_above (j : Nat) : (s.ensureLevels i).above j = s.above j := by
  simp only [Spine.above, Spine.ensureLevels, List.drop_append, levelsBatches_append]
  rw [List.drop_replicate, levelsBatches_replicate_default, List.nil_append]

theorem Spine.ensureLevels_below (j : Nat) : (s.ensureLevels i).below j = s.below j := by
  simp only [Spine.below, Spine.ensureLevels, List.take_append, levelsBatches_append,
    List.take_replicate, levelsBatches_replicate_default, List.nil_append]

theorem Spine.mem_ensureLevels_merging {m : MergeState A P M} (hm : m ∈ (s.ensureLevels i).merging) :
    m = .default ∨ m ∈ s.merging := by
  simp only [Spine.ensureLevels, List.mem_append, List.mem_replicate] at hm
  rcases hm with hm | ⟨-, rfl⟩
  · exact .inr hm
  · exact .inl rfl

theorem Spine.ensureLevels_getElem? (s : Spine A P M) (i : Nat) :
    (s.ensureLevels i).merging[i]? = some (s.levelAt i) := by
  rw [List.getElem?_eq_getElem Spine.ensureLevels_length,
    ← Spine.levelAt_of_lt Spine.ensureLevels_length, Spine.ensureLevels_levelAt]

end EnsureLevels

/-! ## Well-formed batches and levels -/

/-- The hollow batches of a spine batch that hold updates. -/
def SpineBatch.updates (b : SpineBatch A P M) : List (HollowBatch A P M) :=
  (b.parts.map IdHollowBatch.batch).filter (·.len ≠ 0)

/-- A well-formed spine batch: its id range is nonempty and its cached len is its parts' total. -/
structure SpineBatch.Wf (b : SpineBatch A P M) : Prop where
  id_lt : b.id.lo < b.id.hi
  len_eq : b.len = (b.parts.map (·.batch.len)).sum

/-- An empty well-formed spine batch holds no hollow batch with updates. -/
theorem SpineBatch.updates_eq_nil {b : SpineBatch A P M} (hw : b.Wf) (he : b.len = 0) :
    b.updates = [] := by
  have hsum := hw.len_eq
  rw [he, eq_comm, List.sum_eq_zero_iff_forall_eq_nat] at hsum
  simp only [SpineBatch.updates, List.filter_eq_nil_iff, List.mem_map]
  rintro _ ⟨p, hp, rfl⟩
  simpa using hsum p.batch.len (List.mem_map.2 ⟨p, hp, rfl⟩)

@[simp] theorem SpineBatch.merged_updates (b : IdHollowBatch A P M) :
    (SpineBatch.merged b).updates = [b.batch].filter (·.len ≠ 0) := rfl

theorem SpineBatch.merged_wf {b : IdHollowBatch A P M} (h : b.id.lo < b.id.hi) :
    (SpineBatch.merged b).Wf :=
  ⟨h, by simp [SpineBatch.merged]⟩

@[simp] theorem SpineBatch.empty_updates (id : SpineId) (lower upper since : A) :
    (SpineBatch.empty id lower upper since : SpineBatch A P M).updates = [] := by
  simp [SpineBatch.empty, HollowBatch.empty]

section Spans
variable (ok : A → Prop)

/-- `y` is the batch the consecutive batches `blk` merge into: it covers their ids and frontiers
from the first to the last, holds the updates they hold, is well formed, and its since has
`ok`. -/
structure SpineBatch.Spans (blk : List (SpineBatch A P M)) (y : SpineBatch A P M) : Prop where
  ne_nil : blk ≠ []
  lo_eq : y.id.lo = (blk.head ne_nil).id.lo
  hi_eq : y.id.hi = (blk.getLast ne_nil).id.hi
  lower_eq : y.desc.lower = (blk.head ne_nil).desc.lower
  upper_eq : y.desc.upper = (blk.getLast ne_nil).desc.upper
  updates_eq : y.updates = blk.flatMap SpineBatch.updates
  wf : y.Wf
  since_ok : ok y.desc.since

variable {ok}

/-- A well-formed batch is what it alone merges into. -/
theorem SpineBatch.Spans.single {b : SpineBatch A P M} (hw : b.Wf) (hok : ok b.desc.since) :
    SpineBatch.Spans ok [b] b :=
  ⟨List.cons_ne_nil b [], rfl, rfl, rfl, rfl, by simp, hw, hok⟩

end Spans

section Levels
variable (ok : A → Prop)

/-- A well-formed level: it holds a merge exactly when it is full, and the merge covers the
level's ids and has a since with `ok`. -/
structure MergeState.Wf (m : MergeState A P M) : Prop where
  merge_isSome : m.merge.isSome = m.isFull
  merge_id : ∀ im, m.merge = some im → m.id = some im.id
  merge_since : ∀ im, m.merge = some im → ok im.merge.since

variable {ok}

theorem MergeState.default_wf : (MergeState.default : MergeState A P M).Wf ok :=
  ⟨by simp [MergeState.isFull, batchesPerLevel], by simp, by simp⟩

theorem MergeState.single_wf (b : SpineBatch A P M) : (MergeState.single b).Wf ok :=
  ⟨by simp [MergeState.isFull, batchesPerLevel], by simp, by simp⟩

end Levels

/-! ## Pushing onto a level -/

theorem MergeState.tryPushBatch_ok [DecidableEq A] {m m' : MergeState A P M} {b : SpineBatch A P M}
    (h : m.tryPushBatch b = .ok m') :
    m.merge = none ∧ m'.batches = m.batches ++ [b] ∧ m'.merge = none := by
  simp only [MergeState.tryPushBatch, bind, Except.bind, pure, Except.pure, throw, throwThe,
    MonadExceptOf.throw] at h
  split at h <;> split_ifs at h with hmerge <;> cases h <;> simp_all

theorem MergeState.pushBatch_some [DecidableEq A] {m m' : MergeState A P M} {b : SpineBatch A P M}
    (h : m.pushBatch b = some m') :
    m.merge = none ∧ m'.batches = m.batches ++ [b] ∧ m'.merge = none := by
  unfold MergeState.pushBatch at h
  split at h
  · rename_i hok
    cases h
    exact MergeState.tryPushBatch_ok hok
  · cases h

/-! ## Beginning a merge -/

theorem MergeState.id_of_ne_nil {m : MergeState A P M} (h : m.batches ≠ []) :
    m.id = some ⟨(m.batches.head h).id.lo, (m.batches.getLast h).id.hi⟩ := by
  simp [MergeState.id, List.head?_eq_some_head h, List.getLast?_eq_some_getLast h]

section BeginMerge
variable [LinearOrder A] {ok : A → Prop}

@[simp] theorem SpineBatch.beginMerge_nil (cf : Option A) :
    SpineBatch.beginMerge ([] : List (SpineBatch A P M)) cf = none := rfl

theorem SpineBatch.beginMerge_of_ne_nil {bs : List (SpineBatch A P M)} (h : bs ≠ []) (cf : Option A) :
    ∃ im, SpineBatch.beginMerge bs cf = some im ∧
      im.id = ⟨(bs.head h).id.lo, (bs.getLast h).id.hi⟩ := by
  simp [SpineBatch.beginMerge, List.head?_eq_some_head h, List.getLast?_eq_some_getLast h]

variable (hsup : ∀ a b, ok a → ok b → ok (a ⊔ b))
include hsup

theorem foldl_sup_since_ok {bs : List (SpineBatch A P M)} {a : A} (ha : ok a)
    (hbs : ∀ b ∈ bs, ok b.desc.since) : ok (bs.foldl (fun since b => since ⊔ b.desc.since) a) := by
  induction bs generalizing a with
  | nil => exact ha
  | cons b bs ih =>
    exact ih (hsup _ _ ha (hbs b List.mem_cons_self)) fun x hx => hbs x (List.mem_cons_of_mem b hx)

/-- A merge begun over batches whose sinces have `ok`, at a frontier with `ok`, has a since with
`ok`. -/
theorem SpineBatch.beginMerge_since_ok {bs : List (SpineBatch A P M)} {cf : Option A}
    {im : IdFuelingMerge A} (h : SpineBatch.beginMerge bs cf = some im)
    (hbs : ∀ b ∈ bs, ok b.desc.since) (hcf : ∀ f, cf = some f → ok f) : ok im.merge.since := by
  obtain ⟨first, hfirst⟩ := Option.isSome_iff_exists.1 (by
    cases bs with
    | nil => cases h
    | cons b bs => exact rfl : bs.head?.isSome)
  have hfirst_mem : first ∈ bs := List.mem_of_head? hfirst
  have hfold := foldl_sup_since_ok hsup (hbs first hfirst_mem) hbs
  simp only [SpineBatch.beginMerge, hfirst, Option.bind_eq_bind, Option.bind_some] at h
  cases hlast : bs.getLast? with
  | none => simp [hlast] at h
  | some last =>
    simp only [hlast, Option.bind_some, Option.some.injEq] at h
    subst h
    cases cf with
    | none => exact hfold
    | some f => exact hsup _ _ hfold (hcf f rfl)

end BeginMerge

/-! ## Inserting into a level -/

section InsertAt
variable [LinearOrder A] {s s' : Spine A P M} {b : SpineBatch A P M} {i : Nat}

/-- The level `insert_at` leaves: the pushed level, with a merge begun if it is now full. -/
def MergeState.afterPush (m : MergeState A P M) (since : A) : MergeState A P M :=
  if m.isFull then { m with merge := SpineBatch.beginMerge m.batches (some since) } else m

@[simp] theorem MergeState.afterPush_batches (m : MergeState A P M) (since : A) :
    (m.afterPush since).batches = m.batches := by
  unfold MergeState.afterPush
  split <;> rfl

theorem Spine.insertAt_eq_some (h : s.insertAt b i = some s') :
    ∃ m', (s.levelAt i).pushBatch b = some m' ∧
      s' = (s.ensureLevels i).setLevel i (m'.afterPush s.since) := by
  simp only [Spine.insertAt, Spine.ensureLevels_getElem?, Option.bind_eq_bind,
    Option.bind_some] at h
  obtain ⟨m', hpush, hs'⟩ := Option.bind_eq_some_iff.1 h
  exact ⟨m', hpush, (Option.some.inj hs').symm⟩

/-- Inserting at level `i` puts the batch right after the level's batches. -/
theorem Spine.insertAt_spineBatches (h : s.insertAt b i = some s') :
    s'.spineBatches = s.above i ++ (s.levelAt i).batches ++ [b] ++ s.below i := by
  obtain ⟨m', hpush, rfl⟩ := Spine.insertAt_eq_some h
  rw [Spine.setLevel_spineBatches Spine.ensureLevels_length, Spine.ensureLevels_above,
    Spine.ensureLevels_below, MergeState.afterPush_batches, (MergeState.pushBatch_some hpush).2.1]
  simp only [List.append_assoc]

/-- Inserting at a level with only vacant levels below it appends the batch. -/
theorem Spine.insertAt_spineBatches_of_vacant (hvac : ∀ j < i, (s.levelAt j).batches = [])
    (h : s.insertAt b i = some s') : s'.spineBatches = s.spineBatches ++ [b] := by
  rw [Spine.insertAt_spineBatches h, Spine.spineBatches_split s i, Spine.below_eq_nil hvac]
  simp

theorem Spine.insertAt_lt_length (h : s.insertAt b i = some s') : i < s'.merging.length := by
  obtain ⟨m', -, rfl⟩ := Spine.insertAt_eq_some h
  simpa using Spine.ensureLevels_length

theorem Spine.insertAt_levelAt_ne {j : Nat} (h : s.insertAt b i = some s') (hj : j ≠ i) :
    s'.levelAt j = s.levelAt j := by
  obtain ⟨m', -, rfl⟩ := Spine.insertAt_eq_some h
  rw [Spine.setLevel_levelAt_ne hj, Spine.ensureLevels_levelAt]

theorem Spine.insertAt_levelAt (h : s.insertAt b i = some s') :
    (s'.levelAt i).batches = (s.levelAt i).batches ++ [b] := by
  obtain ⟨m', hpush, rfl⟩ := Spine.insertAt_eq_some h
  rw [Spine.setLevel_levelAt Spine.ensureLevels_length, MergeState.afterPush_batches,
    (MergeState.pushBatch_some hpush).2.1]

theorem Spine.insertAt_length_le (h : s.insertAt b i = some s') :
    s.merging.length ≤ s'.merging.length := by
  obtain ⟨m', -, rfl⟩ := Spine.insertAt_eq_some h
  simp [Spine.ensureLevels]

theorem Spine.insertAt_fields (h : s.insertAt b i = some s') :
    s'.nextId = s.nextId ∧ s'.upper = s.upper ∧ s'.since = s.since ∧ s'.effort = s.effort := by
  obtain ⟨m', -, rfl⟩ := Spine.insertAt_eq_some h
  exact ⟨rfl, rfl, rfl, rfl⟩

/-- The level `insert_at` leaves is well formed, whatever it was before: it had no merge to take
the batch, and it begins one exactly when it fills. -/
theorem MergeState.afterPush_wf {ok : A → Prop} (hsup : ∀ a b, ok a → ok b → ok (a ⊔ b))
    {m m' : MergeState A P M} {b : SpineBatch A P M} {since : A} (hpush : m.pushBatch b = some m')
    (hbs : ∀ x ∈ m.batches, ok x.desc.since) (hb : ok b.desc.since) (hS : ok since) :
    (m'.afterPush since).Wf ok := by
  obtain ⟨-, hbatches, hmerge⟩ := MergeState.pushBatch_some hpush
  have hne : m'.batches ≠ [] := by simp [hbatches]
  unfold MergeState.afterPush
  split
  · rename_i hfull
    obtain ⟨im, him, hid⟩ := SpineBatch.beginMerge_of_ne_nil hne (some since)
    refine ⟨by simpa [him, MergeState.isFull] using hfull, ?_, ?_⟩
    · intro im' h'
      simp only [him, Option.some.injEq] at h'
      subst h'
      rw [hid]
      exact MergeState.id_of_ne_nil (m := { m' with merge := _ }) hne
    · intro im' h'
      simp only [him, Option.some.injEq] at h'
      subst h'
      refine SpineBatch.beginMerge_since_ok hsup him ?_ (by simp [hS])
      intro x hx
      rw [hbatches, List.mem_append, List.mem_singleton] at hx
      rcases hx with hx | rfl
      · exact hbs x hx
      · exact hb
  · rename_i hfull
    exact ⟨by simp [hmerge, hfull], by simp [hmerge], by simp [hmerge]⟩

/-- `insert_at` keeps every level well formed. -/
theorem Spine.insertAt_levels_wf {ok : A → Prop} (hsup : ∀ a b, ok a → ok b → ok (a ⊔ b))
    (h : s.insertAt b i = some s') (hlv : ∀ m ∈ s.merging, m.Wf ok)
    (hbs : ∀ x ∈ (s.levelAt i).batches, ok x.desc.since) (hb : ok b.desc.since) (hS : ok s.since) :
    ∀ m ∈ s'.merging, m.Wf ok := by
  obtain ⟨m', hpush, rfl⟩ := Spine.insertAt_eq_some h
  intro m hm
  rcases Spine.mem_setLevel_merging hm with rfl | hm
  · exact MergeState.afterPush_wf hsup hpush hbs hb hS
  · rcases Spine.mem_ensureLevels_merging hm with rfl | hm
    · exact MergeState.default_wf
    · exact hlv m hm

end InsertAt

/-! ## Completing a level -/

/-- The ids of a linking run of well-formed batches span a nonempty range. -/
theorem idSpan_lt {bs : List (SpineBatch A P M)} (hne : bs ≠ [])
    (hlinks : ∃ a c, Links (fun b : SpineBatch A P M => b.id.lo) (fun b => b.id.hi) a bs c)
    (hwf : ∀ x ∈ bs, x.Wf) : (bs.head hne).id.lo < (bs.getLast hne).id.hi := by
  obtain ⟨a, c, h⟩ := hlinks
  obtain ⟨ha, hc⟩ := h.head_last hne
  rw [ha, hc]
  exact h.lt hne fun x hx => (hwf x hx).id_lt

theorem updates_flatMap (bs : List (SpineBatch A P M)) :
    ((bs.flatMap SpineBatch.parts).map IdHollowBatch.batch).filter (·.len ≠ 0) =
      bs.flatMap SpineBatch.updates := by
  induction bs with
  | nil => rfl
  | cons b bs ih =>
    simp only [List.flatMap_cons, List.map_append, List.filter_append, ih, SpineBatch.updates]

theorem len_flatMap {bs : List (SpineBatch A P M)} (hwf : ∀ x ∈ bs, x.Wf) :
    (bs.map SpineBatch.len).sum = ((bs.flatMap SpineBatch.parts).map (·.batch.len)).sum := by
  induction bs with
  | nil => rfl
  | cons b bs ih =>
    simp only [List.map_cons, List.sum_cons, List.flatMap_cons, List.map_append, List.sum_append]
    rw [(hwf b List.mem_cons_self).len_eq, ih fun x hx => hwf x (List.mem_cons_of_mem b hx)]

section Complete
variable {ok : A → Prop}

/-- A merge of a nonempty run of linked, well-formed batches does not panic and yields the batch
they merge into. -/
theorem FuelingMerge.done_spans {fm : FuelingMerge A} {bs : List (SpineBatch A P M)} (hne : bs ≠ [])
    (hlinks : ∃ a c, Links (fun b : SpineBatch A P M => b.id.lo) (fun b => b.id.hi) a bs c)
    (hwf : ∀ x ∈ bs, x.Wf) (hsince : ok fm.since) (log : List (FueledMergeReq A P M)) :
    ∃ y log', (fm.done bs).run log = some (some y, log') ∧ SpineBatch.Spans ok bs y := by
  have hlt := idSpan_lt hne hlinks hwf
  by_cases hempty : bs.all SpineBatch.isEmpty = true
  · refine ⟨SpineBatch.empty ⟨(bs.head hne).id.lo, (bs.getLast hne).id.hi⟩ (bs.head hne).desc.lower
      (bs.getLast hne).desc.upper fm.since, log, ?_, ?_⟩
    · simp [FuelingMerge.done, List.head?_eq_some_head hne, List.getLast?_eq_some_getLast hne, hlt,
        hempty]
    · have hnil : bs.flatMap SpineBatch.updates = [] := by
        rw [List.flatMap_eq_nil_iff]
        intro x hx
        exact SpineBatch.updates_eq_nil (hwf x hx) (by
          simpa [SpineBatch.isEmpty] using List.all_eq_true.1 hempty x hx)
      refine ⟨hne, rfl, rfl, rfl, rfl, by rw [hnil]; rfl, ⟨hlt, rfl⟩, hsince⟩
  · refine ⟨SpineBatch.mk ⟨(bs.head hne).id.lo, (bs.getLast hne).id.hi⟩
      ⟨(bs.head hne).desc.lower, (bs.getLast hne).desc.upper, fm.since⟩
      (bs.flatMap SpineBatch.parts) none (bs.map SpineBatch.len).sum,
      log ++ [⟨⟨(bs.head hne).id.lo, (bs.getLast hne).id.hi⟩,
        ⟨(bs.head hne).desc.lower, (bs.getLast hne).desc.upper, fm.since⟩,
        bs.flatMap SpineBatch.parts⟩], ?_, ?_⟩
    · simp [FuelingMerge.done, List.head?_eq_some_head hne, List.getLast?_eq_some_getLast hne, hlt,
        hempty]
    · exact ⟨hne, rfl, rfl, rfl, rfl, updates_flatMap bs, ⟨hlt, len_flatMap hwf⟩, hsince⟩

variable [LinearOrder A]

/-- Completing a vacant level yields nothing and logs nothing. -/
theorem MergeState.complete_of_vacant {m : MergeState A P M} (h : m.batches = [])
    (log : List (FueledMergeReq A P M)) : m.complete.run log = some (none, log) := by
  simp [MergeState.complete, h]

/-- Completing a well-formed level with batches does not panic and yields the batch they merge
into: in particular a level holding two batches never completes to nothing. -/
theorem MergeState.complete_spans {m : MergeState A P M} (hm : m.Wf ok) (hne : m.batches ≠ [])
    (hlinks : ∃ a c, Links (fun b : SpineBatch A P M => b.id.lo) (fun b => b.id.hi) a m.batches c)
    (hbs : ∀ x ∈ m.batches, x.Wf ∧ ok x.desc.since) (log : List (FueledMergeReq A P M)) :
    ∃ y log', m.complete.run log = some (some y, log') ∧ SpineBatch.Spans ok m.batches y := by
  have hlen := m.batches_length_le
  rcases hb : m.batches with _ | ⟨x, _ | ⟨x', _ | ⟨x'', rest⟩⟩⟩
  · exact absurd hb hne
  · refine ⟨x, log, ?_, ?_⟩
    · simp [MergeState.complete, hb]
    · have hx := hbs x (by simp [hb])
      exact SpineBatch.Spans.single hx.1 hx.2
  · have hfull : m.isFull = true := by simp [MergeState.isFull, hb, batchesPerLevel]
    obtain ⟨im, him⟩ := Option.isSome_iff_exists.1 (hm.merge_isSome.trans hfull)
    have hdone : ∃ y log', (im.merge.done [x, x']).run log = some (some y, log') ∧
        SpineBatch.Spans ok [x, x'] y :=
      FuelingMerge.done_spans (hb ▸ hne) (hb ▸ hlinks) (fun y hy => (hbs y (hb ▸ hy)).1)
        (hm.merge_since im him) log
    obtain ⟨y, log', hrun, hspans⟩ := hdone
    refine ⟨y, log', ?_, hb ▸ hspans⟩
    simpa [MergeState.complete, hb, him] using hrun
  · simp [hb, batchesPerLevel] at hlen

theorem Spine.completeAt_eq {s s' : Spine A P M} {i : Nat} {r : Option (SpineBatch A P M)}
    {log log' : List (FueledMergeReq A P M)} (h : (s.completeAt i).run log = some ((s', r), log')) :
    i < s.merging.length ∧ s' = s.setLevel i .default ∧ (s.levelAt i).complete.run log = some (r, log') := by
  unfold Spine.completeAt at h
  split at h
  · rename_i m hm
    obtain ⟨hi, hlev⟩ := Spine.levelAt_of_getElem? hm
    simp only [StateT.run_bind] at h
    obtain ⟨⟨r', log''⟩, hc, hrest⟩ := Option.bind_eq_some_iff.1 h
    simp only [StateT.run_pure] at hrest
    obtain ⟨⟨rfl, rfl⟩, rfl⟩ := hrest
    exact ⟨hi, rfl, hlev ▸ hc⟩
  · simp at h

end Complete

/-! ## The invariant -/

section Regroup
variable (ok : A → Prop)

/-- `s'` holds the batches of `s` regrouped, and the same next id, upper, since and effort: what
every maintenance pass of the spine does. -/
structure Spine.Regroup (s s' : Spine A P M) : Prop where
  batches : Regroups (SpineBatch.Spans ok) s.spineBatches s'.spineBatches
  nextId : s'.nextId = s.nextId
  upper : s'.upper = s.upper
  since : s'.since = s.since
  effort : s'.effort = s.effort

variable {ok}

theorem Spine.Regroup.refl (s : Spine A P M) : Spine.Regroup ok s s :=
  ⟨Regroups.refl _, rfl, rfl, rfl, rfl⟩

theorem Spine.Regroup.trans {s s' s'' : Spine A P M} (h : Spine.Regroup ok s s')
    (h' : Spine.Regroup ok s' s'') : Spine.Regroup ok s s'' :=
  ⟨h.batches.trans h'.batches, h'.nextId.trans h.nextId, h'.upper.trans h.upper,
    h'.since.trans h.since, h'.effort.trans h.effort⟩

end Regroup

section Inv
variable [LinearOrder A] [OrderBot A] (ok : A → Prop)

/-- The spine invariant, for batches that link up to the id `idEnd` and the frontier `upperEnd`:
every level is well formed, the batches' ids link from `0` and their frontiers from `⊥`, every
batch is well formed with a since that has `ok`, and so has the spine's since. -/
structure Spine.InvAt (idEnd : Nat) (upperEnd : A) (s : Spine A P M) : Prop where
  levels : ∀ m ∈ s.merging, m.Wf ok
  ids : Links (fun b : SpineBatch A P M => b.id.lo) (fun b => b.id.hi) 0 s.spineBatches idEnd
  frontiers : Links (fun b : SpineBatch A P M => b.desc.lower) (fun b => b.desc.upper) ⊥
    s.spineBatches upperEnd
  batches : ∀ b ∈ s.spineBatches, b.Wf ∧ ok b.desc.since
  since_ok : ok s.since

/-- The invariant between operations: the batches link up to the spine's next id and upper. -/
def Spine.Inv (s : Spine A P M) : Prop := s.InvAt ok s.nextId s.upper

variable {ok} {idEnd : Nat} {upperEnd : A}

/-- Regrouping the batches into well-formed levels keeps the invariant. -/
theorem Spine.InvAt.regroup {s s' : Spine A P M} (h : s.InvAt ok idEnd upperEnd)
    (hr : Spine.Regroup ok s s') (hlv : ∀ m ∈ s'.merging, m.Wf ok) :
    s'.InvAt ok idEnd upperEnd where
  levels := hlv
  ids := hr.batches.links (fun _ _ hy _ => ⟨hy.lo_eq, hy.hi_eq⟩) h.ids
  frontiers := hr.batches.links (fun _ _ hy _ => ⟨hy.lower_eq, hy.upper_eq⟩) h.frontiers
  batches := hr.batches.forall_mem (Q := fun b => b.Wf ∧ ok b.desc.since)
    (fun _ _ hy => ⟨hy.wf, hy.since_ok⟩) h.batches
  since_ok := hr.since ▸ h.since_ok

theorem Spine.InvAt.levelAt_wf {s : Spine A P M} (h : s.InvAt ok idEnd upperEnd) (j : Nat) :
    (s.levelAt j).Wf ok := by
  by_cases hj : j < s.merging.length
  · rw [Spine.levelAt_of_lt hj]
    exact h.levels _ (List.getElem_mem hj)
  · rw [Spine.levelAt_of_le (Nat.le_of_not_lt hj)]
    exact MergeState.default_wf

theorem Spine.InvAt.levelAt_batches {s : Spine A P M} (h : s.InvAt ok idEnd upperEnd) (j : Nat) :
    ∀ x ∈ (s.levelAt j).batches, x.Wf ∧ ok x.desc.since :=
  fun _ hx => h.batches _ (Spine.mem_spineBatches_of_levelAt hx)

theorem Spine.InvAt.levelAt_links {s : Spine A P M} (h : s.InvAt ok idEnd upperEnd) (j : Nat) :
    ∃ a c, Links (fun b : SpineBatch A P M => b.id.lo) (fun b => b.id.hi) a (s.levelAt j).batches c := by
  have hl := h.ids
  rw [Spine.spineBatches_split s j] at hl
  obtain ⟨c', h₁₂, -⟩ := links_append.1 hl
  obtain ⟨a, -, h₂⟩ := links_append.1 h₁₂
  exact ⟨a, c', h₂⟩

/-- Completing a level of a spine with the invariant, when the level has batches, yields the batch
they merge into. -/
theorem Spine.InvAt.complete_levelAt {s : Spine A P M} (h : s.InvAt ok idEnd upperEnd) {j : Nat}
    (hne : (s.levelAt j).batches ≠ []) (log : List (FueledMergeReq A P M)) :
    ∃ y log', (s.levelAt j).complete.run log = some (some y, log') ∧
      SpineBatch.Spans ok (s.levelAt j).batches y :=
  MergeState.complete_spans (h.levelAt_wf j) hne (h.levelAt_links j) (h.levelAt_batches j) log

/-- The batch a level of a spine with the invariant completes to spans the level's batches. -/
theorem Spine.InvAt.spans_of_complete {s : Spine A P M} (h : s.InvAt ok idEnd upperEnd) {j : Nat}
    (hne : (s.levelAt j).batches ≠ []) {y : SpineBatch A P M} {log log' : List (FueledMergeReq A P M)}
    (hrun : (s.levelAt j).complete.run log = some (some y, log')) :
    SpineBatch.Spans ok (s.levelAt j).batches y := by
  obtain ⟨y', log₂, hrun', hspans⟩ := h.complete_levelAt hne log
  rw [hrun] at hrun'
  simp only [Option.some.injEq, Prod.mk.injEq] at hrun'
  exact hrun'.1 ▸ hspans

end Inv

section Levels
variable {ok : A → Prop} {s : Spine A P M} {i : Nat}

theorem Spine.setLevel_levels_wf {m : MergeState A P M} (hlv : ∀ m ∈ s.merging, m.Wf ok)
    (hm : m.Wf ok) : ∀ m' ∈ (s.setLevel i m).merging, m'.Wf ok := by
  intro m' hm'
  rcases Spine.mem_setLevel_merging hm' with rfl | hm'
  · exact hm
  · exact hlv m' hm'

@[simp] theorem MergeState.work_batches (m : MergeState A P M) (fuel : Int) :
    (m.work fuel).batches = m.batches := by
  unfold MergeState.work
  split <;> rfl

theorem MergeState.work_wf {m : MergeState A P M} (hm : m.Wf ok) (fuel : Int) :
    (m.work fuel).Wf ok := by
  unfold MergeState.work
  split
  · rename_i id merge hmerge
    refine ⟨?_, ?_, ?_⟩
    · simpa [MergeState.isFull, hmerge] using hm.merge_isSome
    · rintro im h
      simp only [Option.some.injEq] at h
      subst h
      simpa [MergeState.id] using hm.merge_id _ hmerge
    · rintro im h
      simp only [Option.some.injEq] at h
      subst h
      exact hm.merge_since ⟨id, merge⟩ hmerge
  · exact hm

/-- Fueling a level leaves the batches where they are. -/
theorem Spine.setLevel_work_spineBatches {m : MergeState A P M} (hm : s.merging[i]? = some m)
    (fuel : Int) : (s.setLevel i (m.work fuel)).spineBatches = s.spineBatches := by
  obtain ⟨hi, hlev⟩ := Spine.levelAt_of_getElem? hm
  rw [Spine.setLevel_spineBatches hi, MergeState.work_batches, Spine.spineBatches_split s i, hlev]

end Levels

/-! ## Fueling the merges -/

section ApplyFuel
variable [LinearOrder A]

/-- What one pass of `apply_fuel` does: fuel level `index`, and if its merge is then complete,
move the batch it completes to into the next level. -/
theorem Spine.applyFuelAt_eq {fuel : Int} {s s' : Spine A P M} {index : Nat}
    {log log' : List (FueledMergeReq A P M)}
    (h : (Spine.applyFuelAt fuel s index).run log = some (s', log')) :
    ∃ m, s.merging[index]? = some m ∧
      (((m.work fuel).isComplete = false ∧ s' = s.setLevel index (m.work fuel) ∧ log' = log) ∨
       ((m.work fuel).isComplete = true ∧ ∃ y log₁,
          (m.work fuel).complete.run log = some (some y, log₁) ∧
          ((s.setLevel index (m.work fuel)).setLevel index .default).insertAt y (index + 1) = some s' ∧
          log' = log₁)) := by
  unfold Spine.applyFuelAt at h
  split at h
  · rename_i m hm
    have hi : index < s.merging.length := (List.getElem?_eq_some_iff.1 hm).1
    refine ⟨m, hm, ?_⟩
    split at h
    · rename_i hc
      right
      simp only [StateT.run_bind] at h
      obtain ⟨⟨⟨s2, c⟩, log₁⟩, hcomp, h2⟩ := Option.bind_eq_some_iff.1 h
      obtain ⟨-, rfl, hrun⟩ := Spine.completeAt_eq hcomp
      rw [Spine.setLevel_levelAt hi] at hrun
      cases c with
      | none => simp at h2
      | some y =>
        simp only [StateT.run_lift, Option.bind_eq_bind] at h2
        obtain ⟨s3, h3, h4⟩ := Option.bind_eq_some_iff.1 h2
        simp only [Option.pure_def, Option.some.injEq, Prod.mk.injEq] at h4
        obtain ⟨rfl, rfl⟩ := h4
        exact ⟨hc, y, log₁, hrun, h3, rfl⟩
    · rename_i hc
      left
      simp only [StateT.run_pure, Option.pure_def, Option.some.injEq, Prod.mk.injEq] at h
      exact ⟨by simpa using hc, h.1.symm, h.2.symm⟩
  · simp at h

end ApplyFuel

theorem MergeState.isComplete_merge {m : MergeState A P M} (h : m.isComplete = true) :
    ∃ im, m.merge = some im := by
  unfold MergeState.isComplete at h
  split at h
  · exact ⟨_, ‹_›⟩
  · cases h

theorem MergeState.batches_ne_nil_of_isFull {m : MergeState A P M} (h : m.isFull = true) :
    m.batches ≠ [] := by
  intro hnil
  simp [MergeState.isFull, hnil, batchesPerLevel] at h

/-- A level whose merge is in progress holds batches. -/
theorem MergeState.batches_ne_nil_of_merge {ok : A → Prop} {m : MergeState A P M} (hm : m.Wf ok)
    {im : IdFuelingMerge A} (h : m.merge = some im) : m.batches ≠ [] :=
  MergeState.batches_ne_nil_of_isFull (hm.merge_isSome ▸ (by simp [h]))

/-- After a level is completed and the batch it completes to is inserted one level up, the flat
list has that batch where the level's batches were. -/
theorem Spine.completeInsert_spineBatches [LinearOrder A] {s s' : Spine A P M} {index : Nat}
    {y : SpineBatch A P M} (hi : index < s.merging.length)
    (h : (s.setLevel index .default).insertAt y (index + 1) = some s') :
    s'.spineBatches = s.above index ++ [y] ++ s.below index := by
  have habove : (s.setLevel index .default).above (index + 1) ++
      ((s.setLevel index .default).levelAt (index + 1)).batches = s.above index := by
    rw [← Spine.above_eq, Spine.setLevel_above]
  have hbelow : (s.setLevel index .default).below (index + 1) = s.below index := by
    rw [Spine.below_succ, Spine.setLevel_levelAt hi, MergeState.default_batches, List.nil_append,
      Spine.setLevel_below]
  rw [Spine.insertAt_spineBatches h, hbelow, ← habove]

/-- Fueling a merge does not change what completing its level gives: the merge's since is all
`done` reads. -/
theorem MergeState.work_complete [LinearOrder A] (m : MergeState A P M) (fuel : Int) :
    (m.work fuel).complete = m.complete := by
  unfold MergeState.work
  split
  · rename_i id merge hmerge
    simp only [MergeState.complete, hmerge, Option.some_or]
    rfl
  · rfl

section ApplyFuelInv
variable [LinearOrder A] [OrderBot A] {ok : A → Prop} {idEnd : Nat} {upperEnd : A}
  (hsup : ∀ a b, ok a → ok b → ok (a ⊔ b))
include hsup

/-- Completing a level that holds batches and inserting the batch it completes to one level up
keeps the invariant: the level's batches are regrouped into that batch. -/
theorem Spine.completeInsert_inv {s s' : Spine A P M} {index : Nat} {y : SpineBatch A P M}
    {log log' : List (FueledMergeReq A P M)} (hinv : s.InvAt ok idEnd upperEnd)
    (hi : index < s.merging.length) (hne : (s.levelAt index).batches ≠ [])
    (hrun : (s.levelAt index).complete.run log = some (some y, log'))
    (hins : (s.setLevel index .default).insertAt y (index + 1) = some s') :
    s'.InvAt ok idEnd upperEnd ∧ Spine.Regroup ok s s' ∧ s.merging.length ≤ s'.merging.length := by
  have hspans := hinv.spans_of_complete hne hrun
  have hr : Spine.Regroup ok s s' := by
    obtain ⟨hid, hup, hsince, heff⟩ := Spine.insertAt_fields hins
    exact ⟨Regroups.single ⟨s.above index, (s.levelAt index).batches, s.below index, y, hne, hspans,
      Spine.spineBatches_split s index, Spine.completeInsert_spineBatches hi hins⟩,
      hid, hup, hsince, heff⟩
  refine ⟨hinv.regroup hr ?_, hr, ?_⟩
  · refine Spine.insertAt_levels_wf hsup hins
      (Spine.setLevel_levels_wf hinv.levels MergeState.default_wf) ?_ hspans.since_ok hinv.since_ok
    intro x hx
    rw [Spine.setLevel_levelAt_ne (by omega)] at hx
    exact (hinv.levelAt_batches (index + 1) x hx).2
  · simpa using Spine.insertAt_length_le hins

/-- One pass of `apply_fuel` keeps the invariant and regroups the batches. -/
theorem Spine.applyFuelAt_inv {fuel : Int} {s s' : Spine A P M} {index : Nat}
    {log log' : List (FueledMergeReq A P M)}
    (h : (Spine.applyFuelAt fuel s index).run log = some (s', log'))
    (hinv : s.InvAt ok idEnd upperEnd) :
    s'.InvAt ok idEnd upperEnd ∧ Spine.Regroup ok s s' ∧ s.merging.length ≤ s'.merging.length := by
  obtain ⟨m, hm, hcases⟩ := Spine.applyFuelAt_eq h
  obtain ⟨hi, hlev⟩ := Spine.levelAt_of_getElem? hm
  have hwork : (m.work fuel).Wf ok := MergeState.work_wf (hlev ▸ hinv.levelAt_wf index) fuel
  -- fueling only changes the level's remaining work, never its batches
  have hr : Spine.Regroup ok s (s.setLevel index (m.work fuel)) :=
    ⟨by rw [Spine.setLevel_work_spineBatches hm], rfl, rfl, rfl, rfl⟩
  have hinv₁ := hinv.regroup hr (Spine.setLevel_levels_wf hinv.levels hwork)
  rcases hcases with ⟨-, rfl, -⟩ | ⟨hc, y, log₁, hrun, hins, -⟩
  · exact ⟨hinv₁, hr, by simp⟩
  · obtain ⟨im, him⟩ := MergeState.isComplete_merge hc
    have hi₁ : index < (s.setLevel index (m.work fuel)).merging.length := by simpa using hi
    have hlev₁ : (s.setLevel index (m.work fuel)).levelAt index = m.work fuel :=
      Spine.setLevel_levelAt hi
    have hne : ((s.setLevel index (m.work fuel)).levelAt index).batches ≠ [] := by
      rw [hlev₁]
      exact MergeState.batches_ne_nil_of_merge hwork him
    obtain ⟨h₂, hr₂, hl₂⟩ := Spine.completeInsert_inv hsup hinv₁ hi₁ hne (by rw [hlev₁]; exact hrun)
      hins
    exact ⟨h₂, hr.trans hr₂, by simpa using hl₂⟩

/-- `apply_fuel` keeps the invariant and regroups the batches. -/
theorem Spine.applyFuel_inv {fuel : Int} {s s' : Spine A P M} {log log' : List (FueledMergeReq A P M)}
    (h : (s.applyFuel fuel).run log = some (s', log')) (hinv : s.InvAt ok idEnd upperEnd) :
    s'.InvAt ok idEnd upperEnd ∧ Spine.Regroup ok s s' ∧ s.merging.length ≤ s'.merging.length := by
  unfold Spine.applyFuel at h
  refine Run.foldlM_range_run_inv (P := fun _ s₁ => s₁.InvAt ok idEnd upperEnd ∧
    Spine.Regroup ok s s₁ ∧ s.merging.length ≤ s₁.merging.length) ?_ ⟨hinv, .refl s, le_rfl⟩ h
  rintro k - s₁ log₁ s₂ log₂ ⟨h₁, hr₁, hl₁⟩ hstep
  obtain ⟨h₂, hr₂, hl₂⟩ := Spine.applyFuelAt_inv hsup hstep h₁
  exact ⟨h₂, hr₁.trans hr₂, hl₁.trans hl₂⟩

end ApplyFuelInv

/-! ## Rolling up the lower levels -/

section BatchesOk
variable [LinearOrder A] [OrderBot A] (ok : A → Prop)

/-- What the invariant asks of a flat list of batches: their ids link from `0` to `idEnd`, their
frontiers from `⊥` to `upperEnd`, and each is well formed with a since that has `ok`. -/
structure BatchesOk (idEnd : Nat) (upperEnd : A) (l : List (SpineBatch A P M)) : Prop where
  ids : Links (fun b : SpineBatch A P M => b.id.lo) (fun b => b.id.hi) 0 l idEnd
  frontiers : Links (fun b : SpineBatch A P M => b.desc.lower) (fun b => b.desc.upper) ⊥ l upperEnd
  batches : ∀ b ∈ l, b.Wf ∧ ok b.desc.since

variable {ok} {idEnd : Nat} {upperEnd : A}

theorem Spine.InvAt.batchesOk {s : Spine A P M} (h : s.InvAt ok idEnd upperEnd) :
    BatchesOk ok idEnd upperEnd s.spineBatches :=
  ⟨h.ids, h.frontiers, h.batches⟩

theorem BatchesOk.regroup {l l' : List (SpineBatch A P M)} (h : BatchesOk ok idEnd upperEnd l)
    (hr : Regroups (SpineBatch.Spans ok) l l') : BatchesOk ok idEnd upperEnd l' where
  ids := hr.links (fun _ _ hy _ => ⟨hy.lo_eq, hy.hi_eq⟩) h.ids
  frontiers := hr.links (fun _ _ hy _ => ⟨hy.lower_eq, hy.upper_eq⟩) h.frontiers
  batches := hr.forall_mem (Q := fun b => b.Wf ∧ ok b.desc.since)
    (fun _ _ hy => ⟨hy.wf, hy.since_ok⟩) h.batches

/-- The ids of a block inside a list that satisfies `BatchesOk` link. -/
theorem BatchesOk.block_links {l₁ blk l₂ : List (SpineBatch A P M)}
    (h : BatchesOk ok idEnd upperEnd (l₁ ++ blk ++ l₂)) :
    ∃ a c, Links (fun b : SpineBatch A P M => b.id.lo) (fun b => b.id.hi) a blk c := by
  obtain ⟨c, h₁₂, -⟩ := links_append.1 h.ids
  obtain ⟨a, -, h₂⟩ := links_append.1 h₁₂
  exact ⟨a, c, h₂⟩

theorem BatchesOk.block_batches {l₁ blk l₂ : List (SpineBatch A P M)}
    (h : BatchesOk ok idEnd upperEnd (l₁ ++ blk ++ l₂)) : ∀ x ∈ blk, x.Wf ∧ ok x.desc.since :=
  fun x hx => h.batches x (by simp [hx])

end BatchesOk

section RollUp
variable [LinearOrder A] {ok : A → Prop}

theorem Spine.insertMerged_eq {s s₁ : Spine A P M} {merged : Option (SpineBatch A P M)} {i : Nat}
    (h : s.insertMerged merged i = some s₁) :
    (merged = none ∧ s₁ = s) ∨ ∃ y, merged = some y ∧ s.insertAt y i = some s₁ := by
  unfold Spine.insertMerged at h
  split at h
  · exact .inr ⟨_, rfl, h⟩
  · exact .inl ⟨rfl, (Option.some.inj h).symm⟩

/-- Putting what the vacant levels below `k` merged into level `k` appends it to the batches. -/
theorem Spine.insertMerged_spec {s s₁ : Spine A P M} {merged : Option (SpineBatch A P M)} {k : Nat}
    (hvac : ∀ j < k, (s.levelAt j).batches = []) (h : s.insertMerged merged k = some s₁) :
    s₁.spineBatches = s.spineBatches ++ merged.toList ∧ (∀ j < k, (s₁.levelAt j).batches = []) ∧
      s₁.nextId = s.nextId ∧ s₁.upper = s.upper ∧ s₁.since = s.since ∧ s₁.effort = s.effort := by
  rcases Spine.insertMerged_eq h with ⟨rfl, rfl⟩ | ⟨y, rfl, hins⟩
  · exact ⟨by simp, hvac, rfl, rfl, rfl, rfl⟩
  · refine ⟨by simpa using Spine.insertAt_spineBatches_of_vacant hvac hins, fun j hj => ?_,
      Spine.insertAt_fields hins⟩
    rw [Spine.insertAt_levelAt_ne hins (Nat.ne_of_lt hj)]
    exact hvac j hj

theorem Spine.insertMerged_levels_wf (hsup : ∀ a b, ok a → ok b → ok (a ⊔ b)) {s s₁ : Spine A P M}
    {merged : Option (SpineBatch A P M)} {k : Nat} (h : s.insertMerged merged k = some s₁)
    (hlv : ∀ m ∈ s.merging, m.Wf ok) (hbs : ∀ x ∈ (s.levelAt k).batches, ok x.desc.since)
    (hy : ∀ y, merged = some y → ok y.desc.since) (hS : ok s.since) : ∀ m ∈ s₁.merging, m.Wf ok := by
  rcases Spine.insertMerged_eq h with ⟨-, rfl⟩ | ⟨y, hsome, hins⟩
  · exact hlv
  · exact Spine.insertAt_levels_wf hsup hins hlv hbs (hy y hsome) hS

/-- What one pass of `roll_up`'s loop does: insert what the lower levels merged into level `i`,
then complete level `i`. -/
theorem Spine.rollUpAt_eq {acc : Spine A P M × Option (SpineBatch A P M)} {i : Nat}
    {s' : Spine A P M} {r : Option (SpineBatch A P M)} {log log' : List (FueledMergeReq A P M)}
    (h : (Spine.rollUpAt acc i).run log = some ((s', r), log')) :
    ∃ s₁, acc.1.insertMerged acc.2 i = some s₁ ∧ (s₁.completeAt i).run log = some ((s', r), log') := by
  simp only [Spine.rollUpAt, StateT.run_bind, StateT.run_lift, Option.bind_eq_bind] at h
  obtain ⟨⟨s₁, log₁⟩, h₁, h₂⟩ := Option.bind_eq_some_iff.1 h
  obtain ⟨s₂, h₃, h₄⟩ := Option.bind_eq_some_iff.1 h₁
  simp only [Option.pure_def, Option.some.injEq, Prod.mk.injEq] at h₄
  obtain ⟨rfl, rfl⟩ := h₄
  exact ⟨s₂, h₃, h₂⟩

/-- What `roll_up` does: nothing when the levels below `index` are vacant; otherwise the loop, the
insertion of what it merged at `index`, and, if that fills level `index`, its completion into the
next level. -/
theorem Spine.rollUp_eq {s s' : Spine A P M} {index : Nat} {log log' : List (FueledMergeReq A P M)}
    (h : (s.rollUp index).run log = some (s', log')) :
    (((s.ensureLevels index).merging.take index).any (fun m => !m.isVacant) = false ∧
        s' = s.ensureLevels index) ∨
    ∃ s₁ merged log₁,
      ((List.range index).foldlM Spine.rollUpAt (s.ensureLevels index, none)).run log =
        some ((s₁, merged), log₁) ∧
      ∃ s₂, s₁.insertMerged merged index = some s₂ ∧ index < s₂.merging.length ∧
        (((s₂.levelAt index).isFull = false ∧ s' = s₂) ∨
         ((s₂.levelAt index).isFull = true ∧ ∃ y log₂,
            (s₂.levelAt index).complete.run log₁ = some (some y, log₂) ∧
            (s₂.setLevel index .default).insertAt y (index + 1) = some s')) := by
  unfold Spine.rollUp at h
  dsimp only at h
  split at h
  · right
    simp only [StateT.run_bind] at h
    obtain ⟨⟨⟨s₁, merged⟩, log₁⟩, hloop, h⟩ := Option.bind_eq_some_iff.1 h
    refine ⟨s₁, merged, log₁, hloop, ?_⟩
    simp only [StateT.run_lift, Option.bind_eq_bind] at h
    obtain ⟨⟨s₂', log₂⟩, h₁, h⟩ := Option.bind_eq_some_iff.1 h
    obtain ⟨s₂, h₃, h₄⟩ := Option.bind_eq_some_iff.1 h₁
    simp only [Option.pure_def, Option.some.injEq, Prod.mk.injEq] at h₄
    obtain ⟨rfl, rfl⟩ := h₄
    refine ⟨s₂, h₃, ?_⟩
    split at h
    · rename_i m hm
      obtain ⟨hi, hlev⟩ := Spine.levelAt_of_getElem? hm
      refine ⟨hi, ?_⟩
      split at h
      · rename_i hfull
        right
        simp only [StateT.run_bind] at h
        obtain ⟨⟨⟨s₄, c⟩, log₃⟩, hcomp, h⟩ := Option.bind_eq_some_iff.1 h
        obtain ⟨-, rfl, hrun⟩ := Spine.completeAt_eq hcomp
        cases c with
        | none => simp at h
        | some y =>
          simp only [StateT.run_lift, Option.bind_eq_bind] at h
          obtain ⟨s₅, h₅, h₆⟩ := Option.bind_eq_some_iff.1 h
          simp only [Option.pure_def, Option.some.injEq, Prod.mk.injEq] at h₆
          obtain ⟨rfl, rfl⟩ := h₆
          exact ⟨hlev ▸ hfull, y, log₃, hrun, h₅⟩
      · rename_i hfull
        left
        simp only [StateT.run_pure, Option.pure_def, Option.some.injEq, Prod.mk.injEq] at h
        exact ⟨by simpa [hlev] using hfull, h.1.symm⟩
    · simp at h
  · rename_i hany
    left
    simp only [StateT.run_pure, Option.pure_def, Option.some.injEq, Prod.mk.injEq] at h
    exact ⟨by simpa using hany, h.1.symm⟩

variable [OrderBot A]

/-- The state of `roll_up`'s loop after `k` passes from `s₀`: the levels below `k` are vacant, the
levels are well formed, and the batches followed by what the passes merged so far regroup those
of `s₀`. -/
structure Spine.RollUpInv (ok : A → Prop) (s₀ : Spine A P M) (k : Nat)
    (acc : Spine A P M × Option (SpineBatch A P M)) : Prop where
  vacant : ∀ j < k, (acc.1.levelAt j).batches = []
  regroup : Regroups (SpineBatch.Spans ok) s₀.spineBatches (acc.1.spineBatches ++ acc.2.toList)
  levels : ∀ m ∈ acc.1.merging, m.Wf ok
  nextId : acc.1.nextId = s₀.nextId
  upper : acc.1.upper = s₀.upper
  since : acc.1.since = s₀.since
  effort : acc.1.effort = s₀.effort

variable {idEnd : Nat} {upperEnd : A} (hsup : ∀ a b, ok a → ok b → ok (a ⊔ b))
include hsup

/-- One pass of `roll_up`'s loop advances its invariant. -/
theorem Spine.rollUpAt_inv {s₀ : Spine A P M} (h₀ : s₀.InvAt ok idEnd upperEnd) {k : Nat}
    {acc acc' : Spine A P M × Option (SpineBatch A P M)} {log log' : List (FueledMergeReq A P M)}
    (hacc : Spine.RollUpInv ok s₀ k acc) (h : (Spine.rollUpAt acc k).run log = some (acc', log')) :
    Spine.RollUpInv ok s₀ (k + 1) acc' := by
  obtain ⟨s', r⟩ := acc'
  obtain ⟨s₁, hins, hcomp⟩ := Spine.rollUpAt_eq h
  obtain ⟨hk₁, rfl, hrun⟩ := Spine.completeAt_eq hcomp
  have hok₀ := h₀.batchesOk.regroup hacc.regroup
  obtain ⟨hF₁, hvac₁, hid, hup, hsince, heff⟩ := Spine.insertMerged_spec hacc.vacant hins
  have hlv₁ : ∀ m ∈ s₁.merging, m.Wf ok :=
    Spine.insertMerged_levels_wf hsup hins hacc.levels
      (fun x hx => (hok₀.batches x (by simp [Spine.mem_spineBatches_of_levelAt hx])).2)
      (fun y hy => (hok₀.batches y (by simp [hy])).2) (hacc.since ▸ h₀.since_ok)
  -- after the insertion, level `k` holds the block that the completion merges
  have hsplit : s₁.spineBatches = s₁.above k ++ (s₁.levelAt k).batches ++ [] := by
    rw [Spine.spineBatches_split s₁ k, Spine.below_eq_nil hvac₁]
  have hok₁ : BatchesOk ok idEnd upperEnd (s₁.above k ++ (s₁.levelAt k).batches ++ []) := by
    rw [← hsplit, hF₁]
    exact hok₀
  have hvac' : ∀ j < k + 1, ((s₁.setLevel k .default).levelAt j).batches = [] := by
    intro j hj
    rcases Nat.lt_succ_iff_lt_or_eq.1 hj with hj | rfl
    · rw [Spine.setLevel_levelAt_ne (Nat.ne_of_lt hj)]
      exact hvac₁ j hj
    · rw [Spine.setLevel_levelAt hk₁]
      rfl
  have hF' : (s₁.setLevel k .default).spineBatches = s₁.above k := by
    rw [Spine.setLevel_spineBatches hk₁, Spine.below_eq_nil hvac₁]
    simp
  refine ⟨hvac', ?_, Spine.setLevel_levels_wf hlv₁ MergeState.default_wf, hid.trans hacc.nextId,
    hup.trans hacc.upper, hsince.trans hacc.since, heff.trans hacc.effort⟩
  refine hacc.regroup.trans ?_
  rw [← hF₁, hF']
  by_cases hne : (s₁.levelAt k).batches = []
  · -- a vacant level completes to nothing
    rw [MergeState.complete_of_vacant hne log] at hrun
    simp only [Option.some.injEq, Prod.mk.injEq] at hrun
    rw [← hrun.1, hsplit, hne]
    simp only [List.append_nil, Option.toList_none]
    exact Regroups.refl _
  · -- the level's batches complete to the one batch they merge into
    have hwf : (s₁.levelAt k).Wf ok := by
      rw [Spine.levelAt_of_lt hk₁]
      exact hlv₁ _ (List.getElem_mem hk₁)
    obtain ⟨y, log₂, hrun', hspans⟩ :=
      MergeState.complete_spans hwf hne hok₁.block_links hok₁.block_batches log
    rw [hrun'] at hrun
    simp only [Option.some.injEq, Prod.mk.injEq] at hrun
    rw [← hrun.1]
    exact Regroups.single ⟨s₁.above k, (s₁.levelAt k).batches, [], y, hne, hspans,
      by rw [hsplit], by simp⟩

/-- `roll_up` keeps the invariant, regroups the batches and leaves every level below `index`
vacant, so that a batch inserted at `index` comes after all the others. -/
theorem Spine.rollUp_inv {s s' : Spine A P M} {index : Nat} {log log' : List (FueledMergeReq A P M)}
    (h : (s.rollUp index).run log = some (s', log')) (hinv : s.InvAt ok idEnd upperEnd) :
    s'.InvAt ok idEnd upperEnd ∧ Spine.Regroup ok s s' ∧ ∀ j < index, (s'.levelAt j).batches = [] := by
  have hr₀ : Spine.Regroup ok s (s.ensureLevels index) :=
    ⟨by rw [Spine.ensureLevels_spineBatches], rfl, rfl, rfl, rfl⟩
  have hinv₀ : (s.ensureLevels index).InvAt ok idEnd upperEnd := by
    refine hinv.regroup hr₀ fun m hm => ?_
    rcases Spine.mem_ensureLevels_merging hm with rfl | hm
    · exact MergeState.default_wf
    · exact hinv.levels m hm
  rcases Spine.rollUp_eq h with ⟨hany, rfl⟩ | ⟨s₁, merged, log₁, hloop, s₂, hins, hi, hcases⟩
  · -- no level below `index` holds batches
    refine ⟨hinv₀, hr₀, fun j hj => ?_⟩
    have hj' : j < (s.ensureLevels index).merging.length := lt_trans hj Spine.ensureLevels_length
    have hmem : (s.ensureLevels index).merging[j] ∈ (s.ensureLevels index).merging.take index :=
      List.mem_take_iff_getElem.2 ⟨j, by omega, rfl⟩
    have hvac := List.any_eq_false.1 hany _ hmem
    rw [Spine.levelAt_of_lt hj']
    simpa [MergeState.isVacant] using hvac
  · -- the loop empties the levels below `index` into the batch it merged
    have hloop' : Spine.RollUpInv ok (s.ensureLevels index) index (s₁, merged) := by
      refine Run.foldlM_range_run_inv (P := fun k acc => Spine.RollUpInv ok (s.ensureLevels index) k acc)
        (fun k _ acc log₂ acc' log₃ hacc hstep => Spine.rollUpAt_inv hsup hinv₀ hacc hstep) ?_ hloop
      exact ⟨fun _ h => absurd h (Nat.not_lt_zero _), by simpa using Regroups.refl _, hinv₀.levels,
        rfl, rfl, rfl, rfl⟩
    obtain ⟨hF₂, hvac₂, hid, hup, hsince, heff⟩ := Spine.insertMerged_spec hloop'.vacant hins
    have hok₁ := hinv₀.batchesOk.regroup hloop'.regroup
    have hr₂ : Spine.Regroup ok s s₂ := hr₀.trans ⟨by rw [hF₂]; exact hloop'.regroup,
      hid.trans hloop'.nextId, hup.trans hloop'.upper, hsince.trans hloop'.since,
      heff.trans hloop'.effort⟩
    have hinv₂ : s₂.InvAt ok idEnd upperEnd := by
      refine hinv.regroup hr₂ (Spine.insertMerged_levels_wf hsup hins hloop'.levels ?_ ?_ ?_)
      · exact fun x hx => (hok₁.batches x (by simp [Spine.mem_spineBatches_of_levelAt hx])).2
      · exact fun y hy => (hok₁.batches y (by simp [hy])).2
      · exact hloop'.since ▸ hinv.since_ok
    rcases hcases with ⟨-, rfl⟩ | ⟨hfull, y, log₂, hrun, hins'⟩
    · exact ⟨hinv₂, hr₂, hvac₂⟩
    · -- the level filled up: it is completed into the next one
      obtain ⟨h₃, hr₃, -⟩ := Spine.completeInsert_inv hsup hinv₂ hi
        (MergeState.batches_ne_nil_of_isFull hfull) hrun hins'
      refine ⟨h₃, hr₂.trans hr₃, fun j hj => ?_⟩
      rw [Spine.insertAt_levelAt_ne hins' (by omega), Spine.setLevel_levelAt_ne (by omega)]
      exact hvac₂ j hj

end RollUp

/-! ## Tidying the top level down -/

section EraseLevel
variable {s : Spine A P M} {i : Nat}

/-- Removing level `i` moves the levels above it down by one. -/
theorem Spine.eraseIdx_above_levelAt :
    ({ s with merging := s.merging.eraseIdx i } : Spine A P M).above i ++
      (({ s with merging := s.merging.eraseIdx i } : Spine A P M).levelAt i).batches = s.above i := by
  rw [← Spine.levelsBatches_drop, Spine.above]
  congr 1
  rw [List.eraseIdx_eq_take_drop_succ, List.drop_append]
  simp
  omega

theorem Spine.eraseIdx_below :
    ({ s with merging := s.merging.eraseIdx i } : Spine A P M).below i = s.below i := by
  simp only [Spine.below]
  congr 1
  rw [List.eraseIdx_eq_take_drop_succ, List.take_append]
  rcases le_or_gt i s.merging.length with h | h
  · simp [h, List.take_take]
  · simp [List.take_take, List.drop_of_length_le (Nat.le_succ_of_le h.le)]

theorem Spine.eraseIdx_spineBatches :
    ({ s with merging := s.merging.eraseIdx i } : Spine A P M).spineBatches = s.above i ++ s.below i := by
  rw [Spine.spineBatches_split _ i, Spine.eraseIdx_above_levelAt, Spine.eraseIdx_below]

end EraseLevel

section Tidy
variable [LinearOrder A]

/-- What one pass of `tidy_layers`' loop does: stop; absorb the vacant level `i` under the top one
and go on; or move the single batch of level `i` into the level above it and stop. -/
theorem Spine.tidyLoop_succ_eq {a fuel : Nat} {s s' : Spine A P M}
    (h : s.tidyLoop a (fuel + 1) = some s') :
    s' = s ∨
    (∃ i, (s.levelAt i).batches = [] ∧
      ({ s with merging := s.merging.eraseIdx i } : Spine A P M).tidyLoop a fuel = some s') ∨
    (∃ i b, (s.levelAt i).batches = [b] ∧
      ({ s with merging := s.merging.eraseIdx i } : Spine A P M).insertAt b i = some s') := by
  unfold Spine.tidyLoop at h
  dsimp only at h
  split at h
  · split at h
    · cases h
    · rename_i current hcur
      obtain ⟨-, hlev⟩ := Spine.levelAt_of_getElem? hcur
      split at h
      · rename_i hvac
        exact .inr (.inl ⟨_, by simpa [hlev, MergeState.isVacant] using hvac, h⟩)
      · split at h
        · split at h
          · split at h
            · cases h
            · rename_i hone
              obtain ⟨b, hb⟩ := List.length_eq_one_iff.1 (not_not.1 hone)
              rw [hb] at h
              simp only [List.foldlM_cons, List.foldlM_nil, bind_pure] at h
              exact .inr (.inr ⟨_, b, by rw [hlev, hb], h⟩)
          · exact .inl (Option.some.inj h).symm
        · exact .inl (Option.some.inj h).symm
  · exact .inl (Option.some.inj h).symm

end Tidy

section TidyInv
variable [LinearOrder A] [OrderBot A] {ok : A → Prop} {idEnd : Nat} {upperEnd : A}

/-- Absorbing a vacant level keeps the invariant and the batches. -/
theorem Spine.InvAt.eraseIdx_vacant {s : Spine A P M} {i : Nat} (hinv : s.InvAt ok idEnd upperEnd)
    (hvac : (s.levelAt i).batches = []) :
    ({ s with merging := s.merging.eraseIdx i } : Spine A P M).InvAt ok idEnd upperEnd ∧
      Spine.Regroup ok s { s with merging := s.merging.eraseIdx i } := by
  have hF : ({ s with merging := s.merging.eraseIdx i } : Spine A P M).spineBatches =
      s.spineBatches := by
    rw [Spine.eraseIdx_spineBatches, Spine.spineBatches_split s i, hvac, List.append_nil]
  have hr : Spine.Regroup ok s { s with merging := s.merging.eraseIdx i } :=
    ⟨hF ▸ Regroups.refl _, rfl, rfl, rfl, rfl⟩
  exact ⟨hinv.regroup hr fun m hm => hinv.levels m (List.mem_of_mem_eraseIdx hm), hr⟩

variable (hsup : ∀ a b, ok a → ok b → ok (a ⊔ b))
include hsup

/-- Moving the single batch of level `i` into the level above it keeps the invariant and the
batches. -/
theorem Spine.InvAt.eraseIdx_insertAt {s s' : Spine A P M} {i : Nat} {b : SpineBatch A P M}
    (hinv : s.InvAt ok idEnd upperEnd) (hb : (s.levelAt i).batches = [b])
    (hins : ({ s with merging := s.merging.eraseIdx i } : Spine A P M).insertAt b i = some s') :
    s'.InvAt ok idEnd upperEnd ∧ Spine.Regroup ok s s' := by
  have hF : s'.spineBatches = s.spineBatches := by
    rw [Spine.insertAt_spineBatches hins, Spine.eraseIdx_above_levelAt, Spine.eraseIdx_below,
      Spine.spineBatches_split s i, hb]
  obtain ⟨hid, hup, hsince, heff⟩ := Spine.insertAt_fields hins
  have hr : Spine.Regroup ok s s' := ⟨hF ▸ Regroups.refl _, hid, hup, hsince, heff⟩
  refine ⟨hinv.regroup hr (Spine.insertAt_levels_wf hsup hins ?_ ?_ ?_ hinv.since_ok), hr⟩
  · exact fun m hm => hinv.levels m (List.mem_of_mem_eraseIdx hm)
  · intro x hx
    have hx' := Spine.mem_spineBatches_of_levelAt hx
    rw [Spine.eraseIdx_spineBatches] at hx'
    refine (hinv.batches x ?_).2
    rw [Spine.spineBatches_split s i, List.mem_append, List.mem_append]
    exact (List.mem_append.1 hx').imp_left .inl
  · exact (hinv.levelAt_batches i b (by simp [hb])).2

/-- `tidy_layers`' loop keeps the invariant and the batches. -/
theorem Spine.tidyLoop_inv {a fuel : Nat} {s s' : Spine A P M} (h : s.tidyLoop a fuel = some s')
    (hinv : s.InvAt ok idEnd upperEnd) : s'.InvAt ok idEnd upperEnd ∧ Spine.Regroup ok s s' := by
  induction fuel generalizing s with
  | zero =>
    simp only [Spine.tidyLoop, Option.some.injEq] at h
    subst h
    exact ⟨hinv, .refl _⟩
  | succ fuel ih =>
    rcases Spine.tidyLoop_succ_eq h with rfl | ⟨i, hvac, h'⟩ | ⟨i, b, hb, hins⟩
    · exact ⟨hinv, .refl _⟩
    · obtain ⟨h₁, hr₁⟩ := hinv.eraseIdx_vacant hvac
      obtain ⟨h₂, hr₂⟩ := ih h' h₁
      exact ⟨h₂, hr₁.trans hr₂⟩
    · exact hinv.eraseIdx_insertAt hsup hb hins

/-- `tidy_layers` keeps the invariant and the batches. -/
theorem Spine.tidyLayers_inv {s s' : Spine A P M} (h : s.tidyLayers = some s')
    (hinv : s.InvAt ok idEnd upperEnd) : s'.InvAt ok idEnd upperEnd ∧ Spine.Regroup ok s s' := by
  unfold Spine.tidyLayers at h
  split at h
  · obtain rfl := Option.some.inj h
    exact ⟨hinv, .refl _⟩
  · split at h
    · exact Spine.tidyLoop_inv hsup h hinv
    · obtain rfl := Option.some.inj h
      exact ⟨hinv, .refl _⟩

end TidyInv

/-! ## Adding a batch -/

section Extends
variable (ok : A → Prop)

/-- `s'` holds the batches of `s` followed by `new`, regrouped, and the same since and effort: what
an operation that adds batches leaves. -/
structure Spine.Extends (s : Spine A P M) (new : List (SpineBatch A P M)) (s' : Spine A P M) :
    Prop where
  batches : Regroups (SpineBatch.Spans ok) (s.spineBatches ++ new) s'.spineBatches
  since : s'.since = s.since
  effort : s'.effort = s.effort

variable {ok}

theorem Spine.Regroup.trans_extends {s s₁ s₂ : Spine A P M} {new : List (SpineBatch A P M)}
    (h : Spine.Regroup ok s s₁) (h' : Spine.Extends ok s₁ new s₂) : Spine.Extends ok s new s₂ where
  batches := by
    have hframe := h.batches.frame [] new
    simp only [List.nil_append] at hframe
    exact hframe.trans h'.batches
  since := h'.since.trans h.since
  effort := h'.effort.trans h.effort

theorem Spine.Extends.trans_regroup {s s₁ s₂ : Spine A P M} {new : List (SpineBatch A P M)}
    (h : Spine.Extends ok s new s₁) (h' : Spine.Regroup ok s₁ s₂) : Spine.Extends ok s new s₂ where
  batches := h.batches.trans h'.batches
  since := h'.since.trans h.since
  effort := h'.effort.trans h.effort

theorem Spine.Regroup.toExtends {s s' : Spine A P M} (h : Spine.Regroup ok s s') :
    Spine.Extends ok s [] s' :=
  ⟨by simpa using h.batches, h.since, h.effort⟩

/-- After an extension the spine holds the updates it held, followed by those of the new batches. -/
theorem Spine.Extends.updates {s s' : Spine A P M} {new : List (SpineBatch A P M)}
    (h : Spine.Extends ok s new s') :
    s'.spineBatches.flatMap SpineBatch.updates =
      s.spineBatches.flatMap SpineBatch.updates ++ new.flatMap SpineBatch.updates := by
  rw [h.batches.flatMap_eq fun _ _ hy => hy.updates_eq, List.flatMap_append]

end Extends

section Introduce
variable [LinearOrder A] [OrderBot A] {ok : A → Prop} {idEnd : Nat} {upperEnd : A}

/-- A batch that continues the ids and frontiers, appended to the batches, extends the invariant
to its own ends. -/
theorem Spine.InvAt.extend {s s' : Spine A P M} {b : SpineBatch A P M}
    (hinv : s.InvAt ok idEnd upperEnd) (hF : s'.spineBatches = s.spineBatches ++ [b])
    (hlv : ∀ m ∈ s'.merging, m.Wf ok) (hsince : s'.since = s.since) (hlo : b.id.lo = idEnd)
    (hlower : b.desc.lower = upperEnd) (hb : b.Wf ∧ ok b.desc.since) :
    s'.InvAt ok b.id.hi b.desc.upper where
  levels := hlv
  ids := hF ▸ hinv.ids.concat hlo
  frontiers := hF ▸ hinv.frontiers.concat hlower
  batches := by
    rw [hF]
    intro x hx
    rcases List.mem_append.1 hx with hx | hx
    · exact hinv.batches x hx
    · rw [List.mem_singleton.1 hx]
      exact hb
  since_ok := hsince ▸ hinv.since_ok

omit [OrderBot A] in
theorem Spine.introduceBatch_eq {s s' : Spine A P M} {b : SpineBatch A P M} {index : Nat}
    {log log' : List (FueledMergeReq A P M)}
    (h : (s.introduceBatch b index).run log = some (s', log')) :
    ∃ s₁ log₁ s₂ s₃, (s.applyFuel (introduceFuel index s.effort)).run log = some (s₁, log₁) ∧
      (s₁.rollUp index).run log₁ = some (s₂, log') ∧ s₂.insertAt b index = some s₃ ∧
      s₃.tidyLayers = some s' := by
  simp only [Spine.introduceBatch, StateT.run_bind, StateT.run_lift, Option.bind_eq_bind] at h
  obtain ⟨⟨s₁, log₁⟩, h₁, h⟩ := Option.bind_eq_some_iff.1 h
  obtain ⟨⟨s₂, log₂⟩, h₂, h⟩ := Option.bind_eq_some_iff.1 h
  obtain ⟨⟨s₃, log₃⟩, h₃, h⟩ := Option.bind_eq_some_iff.1 h
  obtain ⟨s₃', h₃', h₃''⟩ := Option.bind_eq_some_iff.1 h₃
  simp only [Option.pure_def, Option.some.injEq, Prod.mk.injEq] at h₃''
  obtain ⟨rfl, rfl⟩ := h₃''
  obtain ⟨s₄, h₄, h₄'⟩ := Option.bind_eq_some_iff.1 h
  simp only [Option.pure_def, Option.some.injEq, Prod.mk.injEq] at h₄'
  obtain ⟨rfl, rfl⟩ := h₄'
  exact ⟨s₁, log₁, s₂, s₃', h₁, h₂, h₃', h₄⟩

variable (hsup : ∀ a b, ok a → ok b → ok (a ⊔ b))
include hsup

/-- `introduce_batch` extends the invariant by the batch it introduces: the batches it leaves
regroup the ones before it followed by the new batch. -/
theorem Spine.introduceBatch_inv {s s' : Spine A P M} {b : SpineBatch A P M} {index : Nat}
    {log log' : List (FueledMergeReq A P M)}
    (h : (s.introduceBatch b index).run log = some (s', log')) (hinv : s.InvAt ok idEnd upperEnd)
    (hlo : b.id.lo = idEnd) (hlower : b.desc.lower = upperEnd) (hb : b.Wf ∧ ok b.desc.since) :
    s'.InvAt ok b.id.hi b.desc.upper ∧ Spine.Extends ok s [b] s' ∧ s'.nextId = s.nextId ∧
      s'.upper = s.upper := by
  obtain ⟨s₁, log₁, s₂, s₃, h₁, h₂, h₃, h₄⟩ := Spine.introduceBatch_eq h
  obtain ⟨hinv₁, hr₁, -⟩ := Spine.applyFuel_inv hsup h₁ hinv
  obtain ⟨hinv₂, hr₂, hvac₂⟩ := Spine.rollUp_inv hsup h₂ hinv₁
  -- the roll-up emptied the levels below `index`, so the batch lands after all the others
  have hF₃ := Spine.insertAt_spineBatches_of_vacant hvac₂ h₃
  obtain ⟨hid₃, hup₃, hsince₃, heff₃⟩ := Spine.insertAt_fields h₃
  have hlv₃ := Spine.insertAt_levels_wf hsup h₃ hinv₂.levels
    (fun x hx => (hinv₂.levelAt_batches index x hx).2) hb.2 hinv₂.since_ok
  have hinv₃ : s₃.InvAt ok b.id.hi b.desc.upper := hinv₂.extend hF₃ hlv₃ hsince₃ hlo hlower hb
  obtain ⟨hinv₄, hr₄⟩ := Spine.tidyLayers_inv hsup h₄ hinv₃
  have hr₁₂ := hr₁.trans hr₂
  have hext₃ : Spine.Extends ok s₂ [b] s₃ := ⟨by rw [hF₃], hsince₃, heff₃⟩
  refine ⟨hinv₄, (hr₁₂.trans_extends hext₃).trans_regroup hr₄, ?_, ?_⟩
  · rw [hr₄.nextId, hid₃, hr₁₂.nextId]
  · rw [hr₄.upper, hup₃, hr₁₂.upper]

end Introduce

/-- The levels below the one an empty batch fuses into are vacant. -/
theorem Spine.fusePosition_vacant {s : Spine A P M} {position : Nat}
    (h : s.fusePosition = some position) : ∀ j < position, (s.levelAt j).batches = [] := by
  simp only [Spine.fusePosition, Option.bind_eq_bind] at h
  obtain ⟨p, hp, h⟩ := Option.bind_eq_some_iff.1 h
  obtain ⟨m, -, h⟩ := Option.bind_eq_some_iff.1 h
  split at h
  · obtain rfl := Option.some.inj h
    obtain ⟨hp', -, hbefore⟩ := List.findIdx?_eq_some_iff_getElem.1 hp
    intro j hj
    rw [Spine.levelAt_of_lt (by omega)]
    simpa [MergeState.isVacant] using hbefore j hj
  · cases h

section Insert
variable [LinearOrder A] [OrderBot A] {ok : A → Prop} {idEnd : Nat} {upperEnd : A}

/-- Completing a level that holds batches in place keeps the invariant: the level's batches are
regrouped into the one batch they complete to. -/
theorem Spine.completeSet_inv {s : Spine A P M} {i : Nat} {y : SpineBatch A P M}
    {log log' : List (FueledMergeReq A P M)} (hinv : s.InvAt ok idEnd upperEnd)
    (hi : i < s.merging.length) (hne : (s.levelAt i).batches ≠ [])
    (hrun : (s.levelAt i).complete.run log = some (some y, log')) :
    ((s.setLevel i .default).setLevel i (.single y)).InvAt ok idEnd upperEnd ∧
      Spine.Regroup ok s ((s.setLevel i .default).setLevel i (.single y)) := by
  have hspans := hinv.spans_of_complete hne hrun
  have hF : ((s.setLevel i .default).setLevel i (.single y)).spineBatches =
      s.above i ++ [y] ++ s.below i := by
    rw [Spine.setLevel_spineBatches (by simpa using hi), Spine.setLevel_above, Spine.setLevel_below,
      MergeState.single_batches]
  have hr : Spine.Regroup ok s ((s.setLevel i .default).setLevel i (.single y)) :=
    ⟨Regroups.single ⟨s.above i, (s.levelAt i).batches, s.below i, y, hne, hspans,
      Spine.spineBatches_split s i, hF⟩, rfl, rfl, rfl, rfl⟩
  exact ⟨hinv.regroup hr (Spine.setLevel_levels_wf
    (Spine.setLevel_levels_wf hinv.levels MergeState.default_wf) (MergeState.single_wf y)), hr⟩

variable (hsup : ∀ a b, ok a → ok b → ok (a ⊔ b))
include hsup

/-- `Spine::insert` extends the invariant by the batch it is given, under the next id: an empty
batch fused into the empty one before it, or any batch introduced at its level. -/
theorem Spine.insert_inv {s s' : Spine A P M} {batch : HollowBatch A P M}
    {log log' : List (FueledMergeReq A P M)} (h : (s.insert batch).run log = some (s', log'))
    (hinv : s.InvAt ok s.nextId s.upper) (hok : ok batch.desc.since) :
    s'.InvAt ok s'.nextId s'.upper ∧
      Spine.Extends ok s [SpineBatch.merged ⟨⟨s.nextId, s.nextId + 1⟩, batch⟩] s' ∧
      s'.nextId = s.nextId + 1 ∧ s'.upper = batch.desc.upper := by
  unfold Spine.insert at h
  split at h
  rename_i id s₀ hid
  simp only [Spine.takeNextId, Prod.mk.injEq] at hid
  obtain ⟨rfl, rfl⟩ := hid
  dsimp only at h
  split at h
  · simp at h
  split at h
  · simp at h
  rename_i hlower
  set b : SpineBatch A P M := SpineBatch.merged ⟨⟨s.nextId, s.nextId + 1⟩, batch⟩ with hb
  have hbwf : b.Wf ∧ ok b.desc.since := ⟨SpineBatch.merged_wf (Nat.lt_succ_self _), hok⟩
  have hblower : b.desc.lower = s.upper := not_not.1 hlower
  -- the spine with the id taken and the upper advanced: the same batches and levels
  set s₀ : Spine A P M := { s with nextId := s.nextId + 1, upper := b.desc.upper } with hs₀
  have hinv₀ : s₀.InvAt ok s.nextId s.upper :=
    ⟨hinv.levels, hinv.ids, hinv.frontiers, hinv.batches, hinv.since_ok⟩
  have hext₀ : ∀ s₁ : Spine A P M, s₁.spineBatches = s₀.spineBatches ++ [b] → s₁.since = s₀.since →
      s₁.effort = s₀.effort → Spine.Extends ok s [b] s₁ :=
    fun s₁ hF hsince heff => ⟨by rw [hF]; rfl, hsince, heff⟩
  split at h
  · -- an empty batch fuses with the single empty batch of the first level that has batches
    rename_i position hpos
    have hfuse : s₀.fusePosition = some position := by
      by_cases hE : b.isEmpty = true
      · simpa only [hE, ↓reduceIte] using hpos
      · simp [hE] at hpos
    simp only [StateT.run_bind, StateT.run_lift, Option.bind_eq_bind] at h
    obtain ⟨⟨s₁, log₁⟩, h₁, h⟩ := Option.bind_eq_some_iff.1 h
    obtain ⟨s₁', hins, h₁'⟩ := Option.bind_eq_some_iff.1 h₁
    simp only [Option.pure_def, Option.some.injEq, Prod.mk.injEq] at h₁'
    obtain ⟨rfl, rfl⟩ := h₁'
    obtain ⟨⟨⟨s₂, r⟩, log₂⟩, hcomp, h⟩ := Option.bind_eq_some_iff.1 h
    obtain ⟨hi, rfl, hrun⟩ := Spine.completeAt_eq hcomp
    have hF₁ := Spine.insertAt_spineBatches_of_vacant (Spine.fusePosition_vacant hfuse) hins
    obtain ⟨hid₁, hup₁, hsince₁, heff₁⟩ := Spine.insertAt_fields hins
    have hlv₁ := Spine.insertAt_levels_wf hsup hins hinv₀.levels
      (fun x hx => (hinv₀.levelAt_batches position x hx).2) hbwf.2 hinv₀.since_ok
    have hinv₁ : s₁'.InvAt ok b.id.hi b.desc.upper :=
      hinv₀.extend hF₁ hlv₁ hsince₁ rfl hblower hbwf
    have hne : (s₁'.levelAt position).batches ≠ [] := by
      simp [Spine.insertAt_levelAt hins]
    -- the level completes to a batch, never to nothing
    obtain ⟨y, log₃, hrun', -⟩ := hinv₁.complete_levelAt hne log
    rw [hrun'] at hrun
    simp only [Option.some.injEq, Prod.mk.injEq] at hrun
    obtain ⟨rfl, rfl⟩ := hrun
    simp only [StateT.run_pure, Option.pure_def, Option.some.injEq, Prod.mk.injEq] at h
    obtain ⟨rfl, rfl⟩ := h
    obtain ⟨hinv₂, hr₂⟩ := Spine.completeSet_inv hinv₁ hi hne hrun'
    have hid₂ : ((s₁'.setLevel position .default).setLevel position (.single y)).nextId =
        s.nextId + 1 := by
      rw [hr₂.nextId, hid₁]
    have hup₂ : ((s₁'.setLevel position .default).setLevel position (.single y)).upper =
        batch.desc.upper := by
      rw [hr₂.upper, hup₁]
      rfl
    refine ⟨by rw [hid₂, hup₂]; exact hinv₂, ?_, hid₂, hup₂⟩
    exact (hext₀ s₁' hF₁ hsince₁ heff₁).trans_regroup hr₂
  · -- any other batch is introduced at the level its len calls for
    obtain ⟨hinv₁, hext₁, hid₁, hup₁⟩ := Spine.introduceBatch_inv hsup h hinv₀ rfl hblower hbwf
    refine ⟨by rw [hid₁, hup₁]; exact hinv₁, ⟨hext₁.batches, hext₁.since, hext₁.effort⟩, hid₁, hup₁⟩

/-- `Spine::exert` keeps the invariant and the updates: it regroups the batches, and the one batch it
may add is empty. -/
theorem Spine.exert_inv {s s' : Spine A P M} {effort : Nat} {flag : Bool}
    {log log' : List (FueledMergeReq A P M)} (h : (s.exert effort).run log = some ((s', flag), log'))
    (hinv : s.InvAt ok s.nextId s.upper) :
    s'.InvAt ok s'.nextId s'.upper ∧ s'.upper = s.upper ∧
      ∃ new, Spine.Extends ok s new s' ∧ new.flatMap SpineBatch.updates = [] := by
  unfold Spine.exert at h
  simp only [StateT.run_bind, StateT.run_lift, Option.bind_eq_bind] at h
  obtain ⟨⟨s₁', log₁⟩, h₁, h⟩ := Option.bind_eq_some_iff.1 h
  obtain ⟨s₁, htidy, h₁'⟩ := Option.bind_eq_some_iff.1 h₁
  simp only [Option.pure_def, Option.some.injEq, Prod.mk.injEq] at h₁'
  obtain ⟨rfl, rfl⟩ := h₁'
  obtain ⟨hinv₁, hr₁⟩ := Spine.tidyLayers_inv hsup htidy hinv
  rw [← hr₁.nextId, ← hr₁.upper] at hinv₁
  split at h
  · -- few enough runs: nothing more to do
    simp only [StateT.run_pure, Option.pure_def, Option.some.injEq, Prod.mk.injEq] at h
    obtain ⟨⟨rfl, -⟩, -⟩ := h
    exact ⟨hinv₁, hr₁.upper, [], hr₁.toExtends, rfl⟩
  split at h
  · -- merges in progress take the fuel
    simp only [StateT.run_bind] at h
    obtain ⟨⟨s₂, log₂⟩, h₂, h⟩ := Option.bind_eq_some_iff.1 h
    simp only [StateT.run_pure, Option.pure_def, Option.some.injEq, Prod.mk.injEq] at h
    obtain ⟨⟨rfl, -⟩, -⟩ := h
    obtain ⟨hinv₂, hr₂, -⟩ := Spine.applyFuel_inv hsup h₂ hinv₁
    refine ⟨by rw [hr₂.nextId, hr₂.upper]; exact hinv₂, hr₂.upper.trans hr₁.upper, [],
      (hr₁.trans hr₂).toExtends, rfl⟩
  · -- otherwise an empty batch at the level of the effort moves the merges along
    simp only [Spine.takeNextId, StateT.run_bind] at h
    obtain ⟨⟨s₂, log₂⟩, h₂, h⟩ := Option.bind_eq_some_iff.1 h
    simp only [StateT.run_pure, Option.pure_def, Option.some.injEq, Prod.mk.injEq] at h
    obtain ⟨⟨rfl, -⟩, -⟩ := h
    obtain ⟨hinv₂, hext₂, hid₂, hup₂⟩ := Spine.introduceBatch_inv hsup h₂
      (s := { s₁ with nextId := s₁.nextId + 1 })
      ⟨hinv₁.levels, hinv₁.ids, hinv₁.frontiers, hinv₁.batches, hinv₁.since_ok⟩ rfl rfl
      ⟨SpineBatch.merged_wf (Nat.lt_succ_self _), hinv₁.since_ok⟩
    refine ⟨by rw [hid₂, hup₂]; exact hinv₂, hup₂.trans hr₁.upper, _,
      hr₁.trans_extends ⟨hext₂.batches, hext₂.since, hext₂.effort⟩, by simp⟩

end Insert

/-! ## What `validate` checks -/

section Validate
variable [LinearOrder A]

/-- Batches whose ids and frontiers continue from where the check is, each with a since at most
`since`, pass the check of each batch, which ends where they end. -/
theorem Spine.validateBatches_ok (since : A) :
    ∀ {bs : List (SpineBatch A P M)} (acc : SpineId × A) {c : Nat} {d : A},
      Links (fun b : SpineBatch A P M => b.id.lo) (fun b => b.id.hi) acc.1.hi bs c →
      Links (fun b : SpineBatch A P M => b.desc.lower) (fun b => b.desc.upper) acc.2 bs d →
      (∀ b ∈ bs, b.desc.since ≤ since) →
      ∃ acc', bs.foldlM (Spine.validateBatch since) acc = .ok acc' ∧ acc'.1.hi = c ∧ acc'.2 = d
  | [], acc, _, _, hid, hfr, _ => ⟨acc, rfl, hid, hfr⟩
  | b :: bs, acc, c, d, ⟨hlo, hid⟩, ⟨hlower, hfr⟩, hsince => by
    have hb : Spine.validateBatch since acc b = .ok (b.id, b.desc.upper) := by
      simp [Spine.validateBatch, hlo, hlower, hsince b List.mem_cons_self]
      rfl
    obtain ⟨acc', h, hc, hd⟩ := Spine.validateBatches_ok since (b.id, b.desc.upper) hid hfr
      fun x hx => hsince x (List.mem_cons_of_mem b hx)
    refine ⟨acc', ?_, hc, hd⟩
    rw [List.foldlM_cons, hb]
    exact h

/-- A well-formed level whose batches continue from where the check is passes the check of the
level. -/
theorem Spine.validateLevel_ok {since : A} {x : MergeState A P M} (hx : x.Wf (· ≤ since))
    {acc : SpineId × A} {c : Nat} {d : A}
    (hid : Links (fun b : SpineBatch A P M => b.id.lo) (fun b => b.id.hi) acc.1.hi x.batches c)
    (hfr : Links (fun b : SpineBatch A P M => b.desc.lower) (fun b => b.desc.upper) acc.2 x.batches d)
    (hsince : ∀ b ∈ x.batches, b.desc.since ≤ since) :
    ∃ acc', Spine.validateLevel since acc x = .ok acc' ∧ acc'.1.hi = c ∧ acc'.2 = d := by
  obtain ⟨acc', h, hc, hd⟩ := Spine.validateBatches_ok since acc hid hfr hsince
  refine ⟨acc', ?_, hc, hd⟩
  have hfull : (x.isFull != x.merge.isSome) = false := by simp [hx.merge_isSome]
  unfold Spine.validateLevel
  rw [hfull]
  split
  · rename_i m hm
    have hisFull : x.isFull = true := by rw [← hx.merge_isSome, hm]; rfl
    simp [hisFull, hx.merge_id m hm, h]
  · simpa using h

/-- Levels that are well formed and whose batches continue from where the check is pass the
check of each level in turn. -/
theorem Spine.validateLevels_ok {since : A} :
    ∀ {L : List (MergeState A P M)} (acc : SpineId × A) {c : Nat} {d : A},
      (∀ x ∈ L, x.Wf (· ≤ since)) →
      Links (fun b : SpineBatch A P M => b.id.lo) (fun b => b.id.hi) acc.1.hi
        (L.flatMap MergeState.batches) c →
      Links (fun b : SpineBatch A P M => b.desc.lower) (fun b => b.desc.upper) acc.2
        (L.flatMap MergeState.batches) d →
      (∀ b ∈ L.flatMap MergeState.batches, b.desc.since ≤ since) →
      ∃ acc', L.foldlM (Spine.validateLevel since) acc = .ok acc' ∧ acc'.1.hi = c ∧ acc'.2 = d
  | [], acc, _, _, _, hid, hfr, _ => ⟨acc, rfl, hid, hfr⟩
  | x :: L, acc, c, d, hwf, hid, hfr, hsince => by
    rw [List.flatMap_cons] at hid hfr hsince
    obtain ⟨c₁, hid₁, hid₂⟩ := links_append.1 hid
    obtain ⟨d₁, hfr₁, hfr₂⟩ := links_append.1 hfr
    obtain ⟨acc₁, h₁, hc₁, hd₁⟩ := Spine.validateLevel_ok (hwf x List.mem_cons_self) hid₁ hfr₁
      fun b hb => hsince b (List.mem_append_left _ hb)
    rw [← hc₁] at hid₂
    rw [← hd₁] at hfr₂
    obtain ⟨acc', h₂, hc, hd⟩ := Spine.validateLevels_ok acc₁
      (fun y hy => hwf y (List.mem_cons_of_mem x hy)) hid₂ hfr₂
      fun b hb => hsince b (List.mem_append_right _ hb)
    refine ⟨acc', ?_, hc, hd⟩
    rw [List.foldlM_cons, h₁]
    exact h₂

/-- A spine with the invariant for sinces at most its own passes `Spine::validate`. -/
theorem Spine.validate_of_inv [OrderBot A] {s : Spine A P M}
    (h : s.InvAt (· ≤ s.since) s.nextId s.upper) : s.validate = .ok () := by
  obtain ⟨acc, hfold, hc, hd⟩ := Spine.validateLevels_ok (L := s.merging.reverse)
    ((⟨0, 0⟩ : SpineId), (⊥ : A)) (fun x hx => h.levels x (List.mem_reverse.1 hx))
    h.ids h.frontiers fun b hb => (h.batches b hb).2
  rw [Spine.validate, hfold]
  simp [bind, Except.bind, hc, hd]
  rfl

end Validate

end Materialize.Persist
