import Materialize.Lib.SortedMap
import Materialize.Lib.Frontier

/-!
# Bucket chains

A `BucketChain` (`src/timely-util/src/temporal.rs`) stores data by time for a frontier that
advances: buckets keyed by the least time they cover, each of a size in bits, a bucket of `b` bits
at `k` covering `[k, k + 2 ^ b)`. The chain starts as one bucket over the whole domain of `w`-bit
times; `peel` takes off the buckets before a frontier, splitting (with no fuel: the split must
happen) the buckets that reach past it; `restore` splits buckets, with the fuel a caller gives,
until each is within two bits of the one before it.

The model keeps the map (`SortedMap`, ordered like the `BTreeMap`), the two loops, and the panics of
`split_and_insert` (a bucket of no bits, whose `bits - 1` underflows, and a midpoint past the
domain) as `none`. Over any storage whose `split` partitions its data by time
(`Bucket.Partitions`), a chain whose buckets tile the domain from their least time and hold only
data of their ranges (`BucketChain.Inv`) keeps that through every `peel` and `restore`, which never
panic (`peel_spec`, `restore_spec`); `peel` returns exactly the data before the frontier; each
`restore` that ends without fuel lowers a measure (`weight`), so a caller who calls it until fuel is
left stops, with a well-formed chain (`restoreUntil_spec`).
-/

namespace Materialize.Temporal

/-! ## Times of `w` bits -/

/-- `BucketTimestamp::advance_by_power_of_two` of the unsigned integers of `w` bits, `DOMAIN = w`:
`self.checked_add(1.checked_shl(exponent)?)`. -/
def advanceByPowerOfTwo {w : Nat} (t : Fin (2 ^ w)) (exponent : Nat) : Option (Fin (2 ^ w)) :=
  if exponent < w then
    if h : t.val + 2 ^ exponent < 2 ^ w then some ⟨t.val + 2 ^ exponent, h⟩ else none
  else none

theorem advanceByPowerOfTwo_of_lt {w : Nat} {t : Fin (2 ^ w)} {e : Nat} (h : t.val + 2 ^ e < 2 ^ w) :
    advanceByPowerOfTwo t e = some ⟨t.val + 2 ^ e, h⟩ := by
  have hlt : 2 ^ e < 2 ^ w := by omega
  have he : e < w := (Nat.pow_lt_pow_iff_right (a := 2) (by norm_num)).1 hlt
  simp [advanceByPowerOfTwo, he, h]

theorem advanceByPowerOfTwo_of_le {w : Nat} {t : Fin (2 ^ w)} {e : Nat} (h : 2 ^ w ≤ t.val + 2 ^ e) :
    advanceByPowerOfTwo t e = none := by
  simp [advanceByPowerOfTwo, Nat.not_lt.2 h]

theorem val_of_advanceByPowerOfTwo {w : Nat} {t u : Fin (2 ^ w)} {e : Nat}
    (h : advanceByPowerOfTwo t e = some u) : u.val = t.val + 2 ^ e := by
  unfold advanceByPowerOfTwo at h
  split_ifs at h
  cases h
  rfl

/-! ## Buckets and the chain -/

/-- `Bucket`: storage that splits at a time, spending fuel; the data strictly before the time goes
to the left. -/
class Bucket (w : outParam Nat) (S : Type) where
  split : S → Fin (2 ^ w) → Int → (S × S) × Int

/-- What a bucket holds, as data with times, and that its `split` partitions it by time. -/
structure Bucket.Partitions (w : Nat) (S D : Type) [Bucket w S] where
  contents : S → Multiset D
  time : D → Fin (2 ^ w)
  split_fst : ∀ s t fuel,
    contents (Bucket.split s t fuel).1.1 = (contents s).filter (time · < t)
  split_snd : ∀ s t fuel,
    contents (Bucket.split s t fuel).1.2 = (contents s).filter fun d => ¬ time d < t

/-- `BucketRange`: `[start, end)`, with no end for a bucket that reaches the end of the domain. -/
structure BucketRange (w : Nat) where
  start : Fin (2 ^ w)
  end_ : Option (Fin (2 ^ w))
  deriving DecidableEq

/-- `BucketRange::contains`. -/
def BucketRange.contains {w : Nat} (r : BucketRange w) (time : Fin (2 ^ w)) : Bool :=
  decide (r.start ≤ time) && r.end_.all (time < ·)

/-- `BucketChain`: the buckets by the least time they cover, each with its size in bits. -/
structure BucketChain (w : Nat) (S : Type) where
  content : SortedMap (Fin (2 ^ w)) (Nat × S)

/-- The map of a bucket chain. -/
abbrev Content (w : Nat) (S : Type) := SortedMap (Fin (2 ^ w)) (Nat × S)

namespace BucketChain

variable {w : Nat} {S : Type}

/-- `BucketChain::new`: one bucket from the minimum time, over the whole domain. -/
def new (storage : S) : BucketChain w S :=
  ⟨⟨[(⟨0, Nat.two_pow_pos w⟩, (w, storage))], List.pairwise_singleton _ _⟩⟩

/-- The bucket from the greatest time at or below `t`: `content.range(..=t).next_back()`. -/
def lastAtOrBelow (c : BucketChain w S) (t : Fin (2 ^ w)) : Option (Fin (2 ^ w) × Nat × S) :=
  (c.content.entries.filter (·.1 ≤ t)).getLast?

/-- `BucketChain::range_of`: the range of the bucket of `t`. -/
def rangeOf (c : BucketChain w S) (t : Fin (2 ^ w)) : Option (BucketRange w) :=
  (c.lastAtOrBelow t).map fun e => ⟨e.1, advanceByPowerOfTwo e.1 e.2.1⟩

/-- `BucketChain::find`: the bucket of `t`. -/
def find (c : BucketChain w S) (t : Fin (2 ^ w)) : Option S :=
  (c.lastAtOrBelow t).map (·.2.2)

/-- `BucketChain::find_mut` and a change made through it: `f` applied to the bucket of `t`, `none`
where no bucket holds `t`. -/
def modify (c : BucketChain w S) (t : Fin (2 ^ w)) (f : S → S) : Option (BucketChain w S) :=
  (c.lastAtOrBelow t).map fun e => ⟨(c.content.insert e.1 (e.2.1, f e.2.2)).2⟩

end BucketChain

section Weight

variable {w : Nat} {S : Type}

/-- The measure that peeling and restoring lower: three to the bits of each bucket, so that the two
halves of a bucket weigh less than the bucket. -/
def weight (l : List (Fin (2 ^ w) × Nat × S)) : Nat := (l.map fun e => 3 ^ e.2.1).sum

@[simp] theorem weight_nil : weight ([] : List (Fin (2 ^ w) × Nat × S)) = 0 := rfl

@[simp] theorem weight_cons (e : Fin (2 ^ w) × Nat × S) (l : List (Fin (2 ^ w) × Nat × S)) :
    weight (e :: l) = 3 ^ e.2.1 + weight l := by
  simp [weight]

theorem weight_append (l l' : List (Fin (2 ^ w) × Nat × S)) :
    weight (l ++ l') = weight l + weight l' := by
  simp [weight]

theorem weight_popFirst? {content rest : Content w S} {e : Fin (2 ^ w) × Nat × S}
    (h : content.popFirst? = some (e, rest)) :
    weight content.entries = 3 ^ e.2.1 + weight rest.entries := by
  rw [SortedMap.popFirst?_eq_some h, weight_cons]

theorem weight_insert_le (content : Content w S) (k : Fin (2 ^ w)) (v : Nat × S) :
    weight (content.insert k v).2.entries ≤ weight content.entries + 3 ^ v.1 :=
  SortedMap.sum_insertList_le (fun v : Nat × S => 3 ^ v.1) k v content.entries

end Weight

section Loops

variable {w : Nat} {S : Type} [Bucket w S]

/-- `split_and_insert`: the two halves of a bucket into the map. It panics on a bucket of no bits,
whose `bits - 1` underflows, and where the midpoint is past the domain. -/
def splitAndInsert (content : Content w S) (fuel : Int) (bits : Nat) (offset : Fin (2 ^ w))
    (storage : S) : Option (Content w S × Int) :=
  if bits = 0 then none
  else
    match advanceByPowerOfTwo offset (bits - 1) with
    | none => none
    | some midpoint =>
      let ((bot, top), fuel) := Bucket.split storage midpoint fuel
      some (((content.insert offset (bits - 1, bot)).2.insert midpoint (bits - 1, top)).2, fuel)

/-- What `split_and_insert` does when it does not panic. -/
theorem splitAndInsert_eq_some {content content' : Content w S} {fuel fuel' : Int} {bits : Nat}
    {offset : Fin (2 ^ w)} {storage : S}
    (h : splitAndInsert content fuel bits offset storage = some (content', fuel')) :
    0 < bits ∧ ∃ midpoint, advanceByPowerOfTwo offset (bits - 1) = some midpoint ∧
      content' = ((content.insert offset (bits - 1, (Bucket.split storage midpoint fuel).1.1)).2.insert
        midpoint (bits - 1, (Bucket.split storage midpoint fuel).1.2)).2 ∧
      fuel' = (Bucket.split storage midpoint fuel).2 := by
  unfold splitAndInsert at h
  split_ifs at h with hb
  split at h
  · cases h
  · rename_i midpoint hmid
    cases h
    exact ⟨Nat.pos_of_ne_zero hb, midpoint, hmid, rfl, rfl⟩

/-- The halves weigh less than the bucket. -/
theorem weight_splitAndInsert_lt {content content' : Content w S} {fuel fuel' : Int} {bits : Nat}
    {offset : Fin (2 ^ w)} {storage : S}
    (h : splitAndInsert content fuel bits offset storage = some (content', fuel')) :
    weight content'.entries < weight content.entries + 3 ^ bits := by
  obtain ⟨hb, midpoint, -, rfl, -⟩ := splitAndInsert_eq_some h
  have h₁ := weight_insert_le content offset (bits - 1, (Bucket.split storage midpoint fuel).1.1)
  have h₂ := weight_insert_le (content.insert offset (bits - 1, (Bucket.split storage midpoint fuel).1.1)).2
    midpoint (bits - 1, (Bucket.split storage midpoint fuel).1.2)
  have h₃ : 3 ^ bits = 3 * 3 ^ (bits - 1) := by
    rw [← pow_succ']
    congr 1
    omega
  have : 0 < 3 ^ (bits - 1) := by positivity
  simp only at h₁ h₂
  omega

/-- The bucket of `bits` at `offset` reaches past the frontier, or to the end of the domain past a
frontier that is not empty: `peel` must split it. -/
def spansFrontier (frontier : Option (Fin (2 ^ w))) (offset : Fin (2 ^ w)) (bits : Nat) : Bool :=
  let upper := advanceByPowerOfTwo offset bits
  upper.isNone && frontier.isSome || upper.any (Frontier.lessThan frontier)

/-- The loop of `peel`: while the least bucket starts before the frontier, take it off; split it in
two where it reaches past the frontier, and peel it otherwise. -/
def peelLoop (frontier : Option (Fin (2 ^ w))) (content : Content w S) (peeled : List S) :
    Option (Content w S × List S) :=
  match h : content.popFirst? with
  | none => some (content, peeled)
  | some ((offset, bits, storage), rest) =>
    if Frontier.lessEqual frontier offset then some (content, peeled)
    else
      if spansFrontier frontier offset bits then
        -- the split happens whatever the fuel
        match h' : splitAndInsert rest 0 bits offset storage with
        | none => none
        | some (content', _) => peelLoop frontier content' peeled
      else peelLoop frontier rest (peeled ++ [storage])
termination_by weight content.entries
decreasing_by
  · have := weight_splitAndInsert_lt h'
    rw [weight_popFirst? h]
    dsimp only
    omega
  · rw [weight_popFirst? h]
    have : 0 < 3 ^ bits := by positivity
    dsimp only
    omega

/-- Each bucket within two bits of the one before it, the first within two bits of `last`. -/
def wellFormedFrom : Int → List (Fin (2 ^ w) × Nat × S) → Bool
  | _, [] => true
  | last, (_, bits, _) :: rest => decide ((bits : Int) ≤ last + 2) && wellFormedFrom bits rest

/-- The loop of `restore`: while fuel lasts, move the least bucket into the new map if it is within
two bits of the last one moved, and split it otherwise. -/
def restoreLoop (new content : Content w S) (lastBits fuel : Int) :
    Option (Content w S × Content w S × Int) :=
  if 0 < fuel then
    match h : content.popFirst? with
    | none => some (new, content, fuel)
    | some ((time, bits, storage), rest) =>
      if (bits : Int) ≤ lastBits + 2 then
        restoreLoop (new.insert time (bits, storage)).2 rest bits fuel
      else
        match h' : splitAndInsert rest fuel bits time storage with
        | none => none
        | some (content', fuel') => restoreLoop new content' lastBits fuel'
  else some (new, content, fuel)
termination_by weight content.entries
decreasing_by
  · rw [weight_popFirst? h]
    have : 0 < 3 ^ bits := by positivity
    dsimp only
    omega
  · have := weight_splitAndInsert_lt h'
    rw [weight_popFirst? h]
    dsimp only
    omega

namespace BucketChain

/-- `BucketChain::peel`: the buckets of all data before the frontier, taken off the chain. -/
def peel (c : BucketChain w S) (frontier : Option (Fin (2 ^ w))) :
    Option (BucketChain w S × List S) :=
  (peelLoop frontier c.content []).map fun r => (⟨r.1⟩, r.2)

/-- `BucketChain::restore`: nothing on a well-formed chain; otherwise the loop into a new map, and
what it did not reach appended when the fuel ran out. -/
def restore (c : BucketChain w S) (fuel : Int) : Option (BucketChain w S × Int) :=
  if wellFormedFrom (-2) c.content.entries then some (c, fuel)
  else
    (restoreLoop SortedMap.empty c.content (-2) fuel).map fun r => (⟨r.1.append r.2.1⟩, r.2.2)

end BucketChain

end Loops

/-! ## Tilings -/

section Tiling

variable {w : Nat} {S : Type}

/-- The buckets cover `[lo, hi)` one after another, each starting where the one before it ends. -/
def Covers (w : Nat) : Nat → List (Fin (2 ^ w) × Nat × S) → Nat → Prop
  | lo, [], hi => lo = hi
  | lo, (k, bits, _) :: rest, hi => k.val = lo ∧ Covers w (lo + 2 ^ bits) rest hi

@[simp] theorem covers_nil {lo hi : Nat} :
    Covers w lo ([] : List (Fin (2 ^ w) × Nat × S)) hi ↔ lo = hi := Iff.rfl

@[simp] theorem covers_cons {lo hi : Nat} {k : Fin (2 ^ w)} {bits : Nat} {s : S}
    {rest : List (Fin (2 ^ w) × Nat × S)} :
    Covers w lo ((k, bits, s) :: rest) hi ↔ k.val = lo ∧ Covers w (lo + 2 ^ bits) rest hi :=
  Iff.rfl

theorem covers_append {lo hi : Nat} {l l' : List (Fin (2 ^ w) × Nat × S)} :
    Covers w lo (l ++ l') hi ↔ ∃ mid, Covers w lo l mid ∧ Covers w mid l' hi := by
  induction l generalizing lo with
  | nil => simp
  | cons e l ih =>
    obtain ⟨k, bits, s⟩ := e
    simp only [List.cons_append, covers_cons, ih]
    constructor
    · rintro ⟨hk, mid, h₁, h₂⟩
      exact ⟨mid, ⟨hk, h₁⟩, h₂⟩
    · rintro ⟨mid, ⟨hk, h₁⟩, h₂⟩
      exact ⟨hk, mid, h₁, h₂⟩

theorem Covers.le {lo hi : Nat} {l : List (Fin (2 ^ w) × Nat × S)} (h : Covers w lo l hi) :
    lo ≤ hi := by
  induction l generalizing lo with
  | nil => exact Nat.le_of_eq h
  | cons e l ih => exact le_trans (Nat.le_add_right _ _) (ih h.2)

/-- Every bucket starts at or after the start of what the buckets cover. -/
theorem Covers.le_key {lo hi : Nat} {l : List (Fin (2 ^ w) × Nat × S)} (h : Covers w lo l hi) :
    ∀ e ∈ l, lo ≤ e.1.val := by
  induction l generalizing lo with
  | nil => simp
  | cons e l ih =>
    intro e' he'
    rcases List.mem_cons.1 he' with rfl | he'
    · exact Nat.le_of_eq h.1.symm
    · exact le_trans (Nat.le_add_right _ _) (ih h.2 e' he')

/-- Every bucket ends by the end of what the buckets cover. -/
theorem Covers.end_le {lo hi : Nat} {l : List (Fin (2 ^ w) × Nat × S)} (h : Covers w lo l hi) :
    ∀ e ∈ l, e.1.val + 2 ^ e.2.1 ≤ hi := by
  induction l generalizing lo with
  | nil => simp
  | cons e l ih =>
    intro e' he'
    rcases List.mem_cons.1 he' with rfl | he'
    · rw [h.1]
      exact h.2.le
    · exact ih h.2 e' he'

/-- Buckets that cover a range one after another are sorted by their least times. -/
theorem Covers.pairwise {lo hi : Nat} {l : List (Fin (2 ^ w) × Nat × S)} (h : Covers w lo l hi) :
    l.Pairwise (·.1 < ·.1) := by
  induction l generalizing lo with
  | nil => exact .nil
  | cons e l ih =>
    refine List.pairwise_cons.2 ⟨fun e' he' => ?_, ih h.2⟩
    have h₁ : lo + 2 ^ e.2.1 ≤ e'.1.val := h.2.le_key e' he'
    have h₂ : 0 < 2 ^ e.2.1 := by positivity
    have h₃ : e.1.val = lo := h.1
    rw [Fin.lt_def]
    omega

/-- A bucket of some bits covers what its two halves cover. -/
theorem covers_split {lo hi : Nat} {k midpoint : Fin (2 ^ w)} {bits : Nat} {s bot top : S}
    {rest : List (Fin (2 ^ w) × Nat × S)} (hb : 0 < bits)
    (hmid : midpoint.val = k.val + 2 ^ (bits - 1)) (h : Covers w lo ((k, bits, s) :: rest) hi) :
    Covers w lo ((k, bits - 1, bot) :: (midpoint, bits - 1, top) :: rest) hi := by
  obtain ⟨hk, hrest⟩ := h
  refine ⟨hk, by omega, ?_⟩
  rwa [Nat.add_assoc, Nat.two_pow_pred_add_two_pow_pred hb]

/-- Consecutive buckets of a tiling of the domain are one advance apart, and the last one's
advance overflows. -/
theorem Covers.isChain_advance {lo : Nat} {l : List (Fin (2 ^ w) × Nat × S)}
    (h : Covers w lo l (2 ^ w)) :
    l.IsChain (fun e e' => advanceByPowerOfTwo e.1 e.2.1 = some e'.1) ∧
      ∀ e ∈ l.getLast?, advanceByPowerOfTwo e.1 e.2.1 = none := by
  induction l generalizing lo with
  | nil => exact ⟨.nil, by simp⟩
  | cons e l ih =>
    obtain ⟨ih₁, ih₂⟩ := ih h.2
    cases l with
    | nil =>
      refine ⟨.singleton _, fun e' he' => ?_⟩
      rw [List.getLast?_singleton, Option.mem_some_iff] at he'
      subst he'
      have hend : lo + 2 ^ e.2.1 = 2 ^ w := h.2
      exact advanceByPowerOfTwo_of_le (by rw [h.1, hend])
    | cons e' l =>
      refine ⟨List.IsChain.cons_cons ?_ ih₁, by rwa [List.getLast?_cons_cons]⟩
      have hk : e'.1.val = lo + 2 ^ e.2.1 := h.2.1
      have hlt : e.1.val + 2 ^ e.2.1 < 2 ^ w := by
        rw [h.1, ← hk]
        exact e'.1.isLt
      rw [advanceByPowerOfTwo_of_lt hlt]
      congr 1
      ext
      show e.1.val + 2 ^ e.2.1 = e'.1.val
      rw [hk, h.1]

/-- For every time from the start of a tiling on, the last bucket at or below it covers it. -/
theorem Covers.lastAtOrBelow {lo : Nat} {l : List (Fin (2 ^ w) × Nat × S)}
    (h : Covers w lo l (2 ^ w)) {t : Fin (2 ^ w)} (ht : lo ≤ t.val) :
    ∃ e ∈ l, (l.filter (·.1 ≤ t)).getLast? = some e ∧ e.1.val ≤ t.val ∧
      t.val < e.1.val + 2 ^ e.2.1 := by
  induction l generalizing lo with
  | nil =>
    have : lo = 2 ^ w := h
    have := t.isLt
    omega
  | cons e l ih =>
    obtain ⟨k, bits, s⟩ := e
    rw [covers_cons] at h
    have hle : k ≤ t := Fin.le_def.2 (h.1 ▸ ht)
    by_cases hin : t.val < lo + 2 ^ bits
    · -- `t` is in the first bucket, and every later bucket starts after it
      have hnil : l.filter (·.1 ≤ t) = [] := List.filter_eq_nil_iff.2 fun e' he' => by
        have := h.2.le_key e' he'
        simp only [decide_eq_true_eq, not_le, Fin.lt_def]
        omega
      refine ⟨(k, bits, s), List.mem_cons_self, ?_, h.1 ▸ ht, h.1 ▸ hin⟩
      rw [List.filter_cons, if_pos (decide_eq_true hle), hnil, List.getLast?_singleton]
    · obtain ⟨e', he', hlast, hk', hlt'⟩ := ih h.2 (by omega)
      refine ⟨e', List.mem_cons_of_mem _ he', ?_, hk', hlt'⟩
      rw [List.filter_cons, if_pos (decide_eq_true hle), List.getLast?_cons, hlast]
      rfl

end Tiling

/-! ## Steps of the loops -/

section Steps

variable {w : Nat} {S : Type} [Bucket w S]

theorem splitAndInsert_of_advance {content : Content w S} {fuel : Int} {bits : Nat}
    {offset midpoint : Fin (2 ^ w)} {storage : S} (hb : 0 < bits)
    (hmid : advanceByPowerOfTwo offset (bits - 1) = some midpoint) :
    splitAndInsert content fuel bits offset storage =
      some (((content.insert offset (bits - 1, (Bucket.split storage midpoint fuel).1.1)).2.insert
        midpoint (bits - 1, (Bucket.split storage midpoint fuel).1.2)).2,
        (Bucket.split storage midpoint fuel).2) := by
  simp only [splitAndInsert, Nat.pos_iff_ne_zero.1 hb, if_false, hmid]

/-- On a bucket that ends where the rest of the map begins, `split_and_insert` does not panic and
puts the two halves in front of the rest. -/
theorem splitAndInsert_of_covers {rest : Content w S} {bits : Nat} {offset : Fin (2 ^ w)}
    (fuel : Int) (storage : S) (hb : 0 < bits)
    (hT : Covers w (offset.val + 2 ^ bits) rest.entries (2 ^ w)) :
    ∃ midpoint : Fin (2 ^ w), ∃ content', midpoint.val = offset.val + 2 ^ (bits - 1) ∧
      splitAndInsert rest fuel bits offset storage =
        some (content', (Bucket.split storage midpoint fuel).2) ∧
      content'.entries = (offset, bits - 1, (Bucket.split storage midpoint fuel).1.1) ::
        (midpoint, bits - 1, (Bucket.split storage midpoint fuel).1.2) :: rest.entries := by
  have hhalf : 2 ^ (bits - 1) < 2 ^ bits := Nat.pow_lt_pow_right (by norm_num) (by omega)
  have hpos : 0 < 2 ^ (bits - 1) := by positivity
  have hlt : offset.val + 2 ^ (bits - 1) < 2 ^ w := by have := hT.le; omega
  have hkeys : ∀ x ∈ rest.entries, offset.val + 2 ^ bits ≤ x.1.val := hT.le_key
  refine ⟨⟨offset.val + 2 ^ (bits - 1), hlt⟩, _, rfl,
    splitAndInsert_of_advance hb (advanceByPowerOfTwo_of_lt hlt), ?_⟩
  have h₁ := SortedMap.insertList_of_forall_lt
    (v := (bits - 1, (Bucket.split storage ⟨offset.val + 2 ^ (bits - 1), hlt⟩ fuel).1.1))
    fun x hx => show offset < x.1 by rw [Fin.lt_def]; have := hkeys x hx; omega
  have h₂ := SortedMap.insertList_of_forall_lt
    (v := (bits - 1, (Bucket.split storage ⟨offset.val + 2 ^ (bits - 1), hlt⟩ fuel).1.2))
    fun x hx => show (⟨offset.val + 2 ^ (bits - 1), hlt⟩ : Fin (2 ^ w)) < x.1 by
      rw [Fin.lt_def]; have := hkeys x hx; simp only; omega
  have hgt : ¬ (⟨offset.val + 2 ^ (bits - 1), hlt⟩ : Fin (2 ^ w)) < offset := by
    rw [Fin.lt_def]; simp
  have hne : ¬ (⟨offset.val + 2 ^ (bits - 1), hlt⟩ : Fin (2 ^ w)) = offset := by
    rw [Fin.ext_iff]; simp only; omega
  simp only [SortedMap.insert, h₁, SortedMap.insertList_cons, hgt, hne, if_false, h₂]

/-- A bucket that `peel` must split has bits to split. -/
theorem pos_of_spansFrontier {f : Option (Fin (2 ^ w))} {offset : Fin (2 ^ w)} {bits : Nat}
    (hle : Frontier.lessEqual f offset = false) (hs : spansFrontier f offset bits = true) :
    0 < bits := by
  cases f with
  | none =>
    rw [spansFrontier] at hs
    cases h : advanceByPowerOfTwo offset bits <;> simp [h] at hs
  | some x =>
    rw [Frontier.lessEqual_some, decide_eq_false_iff_not, not_le, Fin.lt_def] at hle
    refine Nat.pos_of_ne_zero fun h0 => ?_
    subst h0
    by_cases hend : offset.val + 2 ^ 0 < 2 ^ w
    · simp [spansFrontier, advanceByPowerOfTwo_of_lt hend, Fin.lt_def] at hs
      omega
    · have := x.isLt
      simp at hend
      omega

/-- A bucket that `peel` does not split holds only data before the frontier. -/
theorem lessEqual_eq_false_of_spansFrontier {f : Option (Fin (2 ^ w))} {offset t : Fin (2 ^ w)}
    {bits : Nat} (hs : spansFrontier f offset bits = false) (ht : t.val < offset.val + 2 ^ bits) :
    Frontier.lessEqual f t = false := by
  cases f with
  | none => rfl
  | some x =>
    by_cases hend : offset.val + 2 ^ bits < 2 ^ w
    · rw [spansFrontier, advanceByPowerOfTwo_of_lt hend] at hs
      simp only [Option.isNone_some, Bool.false_and, Bool.false_or, Option.any_some,
        Frontier.lessThan_some, decide_eq_false_iff_not, not_lt, Fin.le_def] at hs
      rw [Frontier.lessEqual_some, decide_eq_false_iff_not, not_le, Fin.lt_def]
      omega
    · rw [spansFrontier, advanceByPowerOfTwo_of_le (Nat.le_of_not_lt hend)] at hs
      simp at hs

end Steps

/-! ## The invariant -/

section Invariant

variable {w : Nat} {S D : Type} [Bucket w S] (P : Bucket.Partitions w S D)

/-- Every bucket holds only data of its range. -/
def InRange (l : List (Fin (2 ^ w) × Nat × S)) : Prop :=
  ∀ e ∈ l, ∀ d ∈ P.contents e.2.2, e.1.val ≤ (P.time d).val ∧ (P.time d).val < e.1.val + 2 ^ e.2.1

/-- The data of a list of buckets. -/
def contentsOf (l : List (Fin (2 ^ w) × Nat × S)) : Multiset D :=
  (l.map fun e => P.contents e.2.2).sum

@[simp] theorem contentsOf_nil : contentsOf P [] = 0 := rfl

@[simp] theorem contentsOf_cons (e : Fin (2 ^ w) × Nat × S) (l : List (Fin (2 ^ w) × Nat × S)) :
    contentsOf P (e :: l) = P.contents e.2.2 + contentsOf P l := by
  simp [contentsOf]

theorem contentsOf_append (l l' : List (Fin (2 ^ w) × Nat × S)) :
    contentsOf P (l ++ l') = contentsOf P l + contentsOf P l' := by
  simp [contentsOf]

theorem inRange_cons {e : Fin (2 ^ w) × Nat × S} {l : List (Fin (2 ^ w) × Nat × S)} :
    InRange P (e :: l) ↔ (∀ d ∈ P.contents e.2.2,
      e.1.val ≤ (P.time d).val ∧ (P.time d).val < e.1.val + 2 ^ e.2.1) ∧ InRange P l :=
  List.forall_mem_cons

theorem inRange_append {l l' : List (Fin (2 ^ w) × Nat × S)} :
    InRange P (l ++ l') ↔ InRange P l ∧ InRange P l' :=
  List.forall_mem_append

/-- The halves of a bucket hold its data. -/
theorem contents_split (s : S) (t : Fin (2 ^ w)) (fuel : Int) :
    P.contents (Bucket.split s t fuel).1.1 + P.contents (Bucket.split s t fuel).1.2 =
      P.contents s := by
  rw [P.split_fst, P.split_snd, Multiset.filter_add_not]

/-- The halves of a bucket that holds data of its range hold data of their own ranges. -/
theorem inRange_split {k midpoint : Fin (2 ^ w)} {bits : Nat} {s : S} (fuel : Int) (hb : 0 < bits)
    (hmid : midpoint.val = k.val + 2 ^ (bits - 1))
    (h : ∀ d ∈ P.contents s, k.val ≤ (P.time d).val ∧ (P.time d).val < k.val + 2 ^ bits) :
    InRange P [(k, bits - 1, (Bucket.split s midpoint fuel).1.1),
      (midpoint, bits - 1, (Bucket.split s midpoint fuel).1.2)] := by
  have h2 := Nat.two_pow_pred_add_two_pow_pred hb
  intro e he d hd
  simp only [List.mem_cons, List.not_mem_nil, or_false] at he
  rcases he with rfl | rfl
  · rw [P.split_fst, Multiset.mem_filter, Fin.lt_def] at hd
    have := h d hd.1
    simp only
    omega
  · rw [P.split_snd, Multiset.mem_filter, Fin.lt_def] at hd
    have := h d hd.1
    simp only
    omega

/-- A bucket chain whose buckets tile the domain from their least time and hold only data of their
ranges. -/
structure BucketChain.Inv (c : BucketChain w S) : Prop where
  covers : ∃ lo, Covers w lo c.content.entries (2 ^ w)
  inRange : InRange P c.content.entries

/-- A new chain is one bucket over the whole domain, holding whatever its storage holds. -/
theorem BucketChain.inv_new (storage : S) : (BucketChain.new storage : BucketChain w S).Inv P := by
  refine ⟨⟨0, rfl, by simp⟩, fun e he d _ => ?_⟩
  simp only [BucketChain.new, List.mem_singleton] at he
  subst he
  exact ⟨Nat.zero_le _, by simp⟩

/-- `peel`'s loop on buckets that tile the rest of the domain: it does not panic, what it leaves
tiles the domain from its least time, and it moves to the peeled buckets exactly the data before
the frontier. -/
theorem peelLoop_spec (f : Option (Fin (2 ^ w))) (content : Content w S) (peeled : List S)
    {lo : Nat} (hT : Covers w lo content.entries (2 ^ w)) (hR : InRange P content.entries) :
    ∃ content' q, peelLoop f content peeled = some (content', peeled ++ q) ∧
      (∃ lo', Covers w lo' content'.entries (2 ^ w)) ∧ InRange P content'.entries ∧
      contentsOf P content'.entries + (q.map P.contents).sum = contentsOf P content.entries ∧
      (∀ s ∈ q, ∀ d ∈ P.contents s, Frontier.lessEqual f (P.time d) = false) ∧
      ∀ e ∈ content'.entries, ∀ d ∈ P.contents e.2.2, Frontier.lessEqual f (P.time d) = true := by
  fun_induction peelLoop f content peeled generalizing lo with
  | case1 content peeled hpop =>
    refine ⟨content, [], by rw [List.append_nil], ⟨lo, hT⟩, hR, by simp, by simp, ?_⟩
    rw [SortedMap.popFirst?_eq_none hpop]
    simp
  | case2 content peeled offset bits storage rest hpop hle =>
    refine ⟨content, [], by rw [List.append_nil], ⟨lo, hT⟩, hR, by simp, by simp,
      fun e he d hd => ?_⟩
    -- every bucket starts at or after the first, and holds data from its start on
    have hentries := SortedMap.popFirst?_eq_some hpop
    rw [hentries] at hT
    have hk : offset.val ≤ e.1.val := hT.1 ▸ hT.le_key e (hentries ▸ he)
    exact Frontier.lessEqual_mono hle (Fin.le_def.2 (hk.trans (hR e he d hd).1))
  | case3 content peeled offset bits storage rest hpop hle hs hsplit =>
    have hentries := SortedMap.popFirst?_eq_some hpop
    rw [hentries, covers_cons] at hT
    obtain ⟨_, _, _, hsplit', -⟩ := splitAndInsert_of_covers 0 storage
      (pos_of_spansFrontier (Bool.eq_false_iff.2 hle) hs) (hT.1 ▸ hT.2)
    rw [hsplit'] at hsplit
    cases hsplit
  | case4 content peeled offset bits storage rest hpop hle hs content' _ hsplit ih =>
    have hentries := SortedMap.popFirst?_eq_some hpop
    rw [hentries, covers_cons] at hT
    rw [hentries, inRange_cons] at hR
    have hb := pos_of_spansFrontier (Bool.eq_false_iff.2 hle) hs
    obtain ⟨midpoint, c₁, hmid, hsplit', hc₁⟩ := splitAndInsert_of_covers 0 storage hb (hT.1 ▸ hT.2)
    rw [hsplit'] at hsplit
    cases hsplit
    have hT₁ : Covers w lo content'.entries (2 ^ w) := by
      rw [hc₁]
      exact covers_split (s := storage) hb hmid ⟨hT.1, hT.2⟩
    have hR₁ : InRange P content'.entries := by
      rw [hc₁]
      exact (inRange_append P (l := [_, _])).2 ⟨inRange_split P 0 hb hmid hR.1, hR.2⟩
    obtain ⟨content'', q, heq, hcov, hin, hsum, hq, hrem⟩ := ih hT₁ hR₁
    refine ⟨content'', q, heq, hcov, hin, ?_, hq, hrem⟩
    rw [hsum, hc₁, hentries]
    simp only [contentsOf_cons, ← contents_split P storage midpoint 0, add_assoc]
  | case5 content peeled offset bits storage rest hpop hle hs ih =>
    have hentries := SortedMap.popFirst?_eq_some hpop
    rw [hentries, covers_cons] at hT
    rw [hentries, inRange_cons] at hR
    obtain ⟨content'', q, heq, hcov, hin, hsum, hq, hrem⟩ := ih hT.2 hR.2
    refine ⟨content'', storage :: q, ?_, hcov, hin, ?_, ?_, hrem⟩
    · rw [heq, List.append_assoc, List.singleton_append]
    · rw [hentries, contentsOf_cons, ← hsum, List.map_cons, List.sum_cons]
      abel
    · intro s hs' d hd
      rcases List.mem_cons.1 hs' with rfl | hs'
      · exact lessEqual_eq_false_of_spansFrontier (Bool.eq_false_iff.2 hs) (hR.1 d hd).2
      · exact hq s hs' d hd

/-! ### Restoring -/

/-- The bits of the last bucket, `-2` where there is none: the imaginary bucket before the first. -/
def lastBitsOf (l : List (Fin (2 ^ w) × Nat × S)) : Int :=
  (l.getLast?.map fun e => (e.2.1 : Int)).getD (-2)

omit [Bucket w S] in
theorem neg_two_le_lastBitsOf (l : List (Fin (2 ^ w) × Nat × S)) : -2 ≤ lastBitsOf l := by
  unfold lastBitsOf
  cases l.getLast? <;> simp

omit [Bucket w S] in
@[simp] theorem lastBitsOf_append_singleton (l : List (Fin (2 ^ w) × Nat × S))
    (e : Fin (2 ^ w) × Nat × S) : lastBitsOf (l ++ [e]) = e.2.1 := by
  simp [lastBitsOf]

omit [Bucket w S] in
/-- A bucket after well-formed buckets keeps them well formed when it is within two bits of the
last one. -/
theorem wellFormedFrom_append_singleton (a : Int) (l : List (Fin (2 ^ w) × Nat × S))
    (e : Fin (2 ^ w) × Nat × S) :
    wellFormedFrom a (l ++ [e]) = true ↔ wellFormedFrom a l = true ∧
      (e.2.1 : Int) ≤ (l.getLast?.map fun e => (e.2.1 : Int)).getD a + 2 := by
  induction l generalizing a with
  | nil => simp [wellFormedFrom]
  | cons e' l ih =>
    obtain ⟨k, bits, s⟩ := e'
    have hlast : (((k, bits, s) :: l).getLast?.map fun e => (e.2.1 : Int)).getD a =
        (l.getLast?.map fun e => (e.2.1 : Int)).getD bits := by
      cases l <;> simp [List.getLast?_cons]
    rw [List.cons_append, wellFormedFrom, wellFormedFrom, Bool.and_eq_true, Bool.and_eq_true, ih,
      hlast, and_assoc]

/-- What `restore`'s loop keeps: the buckets moved to the new map and those still to move tile the
domain in order and hold data of their ranges, and the moved ones are well formed, the last of
`lastBits` bits. -/
structure RestoreInv (lo : Nat) (new content : Content w S) (lastBits : Int) : Prop where
  covers : Covers w lo (new.entries ++ content.entries) (2 ^ w)
  inRange : InRange P (new.entries ++ content.entries)
  wellFormed : wellFormedFrom (-2) new.entries = true
  last : lastBits = lastBitsOf new.entries

variable {P}
variable {lo : Nat} {new content rest : Content w S} {lastBits : Int} {time : Fin (2 ^ w)}
  {bits : Nat} {storage : S}

/-- Moving the least bucket still to move, within two bits of the last one moved, appends it to
the new map and keeps the loop's invariant. -/
theorem RestoreInv.move (h : RestoreInv P lo new content lastBits)
    (hpop : content.popFirst? = some ((time, bits, storage), rest)) (hb : (bits : Int) ≤ lastBits + 2) :
    (new.insert time (bits, storage)).2.entries = new.entries ++ [(time, bits, storage)] ∧
      RestoreInv P lo (new.insert time (bits, storage)).2 rest bits := by
  have hentries := SortedMap.popFirst?_eq_some hpop
  have hins : (new.insert time (bits, storage)).2.entries = new.entries ++ [(time, bits, storage)] := by
    have hsorted := h.covers.pairwise
    rw [hentries, List.pairwise_append] at hsorted
    exact congrArg Prod.snd (SortedMap.insertList_of_forall_gt fun x hx =>
      hsorted.2.2 x hx _ List.mem_cons_self)
  have hsame : (new.insert time (bits, storage)).2.entries ++ rest.entries =
      new.entries ++ content.entries := by
    rw [hins, hentries, List.append_assoc, List.singleton_append]
  refine ⟨hins, ⟨hsame ▸ h.covers, hsame ▸ h.inRange, ?_, by rw [hins, lastBitsOf_append_singleton]⟩⟩
  rw [hins, wellFormedFrom_append_singleton]
  exact ⟨h.wellFormed, show (bits : Int) ≤ lastBitsOf new.entries + 2 from h.last ▸ hb⟩

/-- Splitting the least bucket still to move, more than two bits above the last one moved, does
not panic, keeps the loop's invariant and the data, and lowers the weight. -/
theorem RestoreInv.split (h : RestoreInv P lo new content lastBits) (fuel : Int)
    (hpop : content.popFirst? = some ((time, bits, storage), rest)) (hb : ¬ (bits : Int) ≤ lastBits + 2) :
    ∃ content' fuel', splitAndInsert rest fuel bits time storage = some (content', fuel') ∧
      RestoreInv P lo new content' lastBits ∧
      contentsOf P content'.entries = contentsOf P content.entries := by
  have hentries := SortedMap.popFirst?_eq_some hpop
  have hpos : 0 < bits := by have := neg_two_le_lastBitsOf new.entries; have := h.last; omega
  have hcov := h.covers
  rw [hentries, covers_append] at hcov
  obtain ⟨mid, hnew, hmid⟩ := hcov
  rw [covers_cons] at hmid
  obtain ⟨midpoint, content', hmp, hsplit, hc⟩ := splitAndInsert_of_covers fuel storage hpos (hmid.1 ▸ hmid.2)
  have hR := h.inRange
  rw [hentries, inRange_append, inRange_cons] at hR
  refine ⟨content', _, hsplit, ⟨?_, ?_, h.wellFormed, h.last⟩, ?_⟩
  · rw [hc, covers_append]
    exact ⟨mid, hnew, covers_split (s := storage) hpos hmp hmid⟩
  · rw [hc, inRange_append]
    exact ⟨hR.1, (inRange_append P (l := [_, _])).2 ⟨inRange_split P fuel hpos hmp hR.2.1, hR.2.2⟩⟩
  · rw [hc, hentries]
    simp only [contentsOf_cons, ← contents_split P storage midpoint fuel, add_assoc]

variable (P) in
/-- `restore`'s loop: it does not panic, keeps the invariant and the data, never adds weight, and
lowers it when it starts with fuel and ends without; when it ends with fuel left, it has moved
every bucket. -/
theorem restoreLoop_spec (new content : Content w S) (lastBits fuel : Int)
    (h : RestoreInv P lo new content lastBits) :
    ∃ new' content' fuel', restoreLoop new content lastBits fuel = some (new', content', fuel') ∧
      RestoreInv P lo new' content' (lastBitsOf new'.entries) ∧
      contentsOf P (new'.entries ++ content'.entries) = contentsOf P (new.entries ++ content.entries) ∧
      (0 < fuel' → content'.entries = []) ∧
      weight (new'.entries ++ content'.entries) ≤ weight (new.entries ++ content.entries) ∧
      (0 < fuel → fuel' ≤ 0 →
        weight (new'.entries ++ content'.entries) < weight (new.entries ++ content.entries)) := by
  fun_induction restoreLoop new content lastBits fuel with
  | case1 new content lastBits fuel hfuel hpop =>
    refine ⟨new, content, fuel, rfl, ⟨h.covers, h.inRange, h.wellFormed, rfl⟩, rfl,
      fun _ => SortedMap.popFirst?_eq_none hpop, le_rfl, fun _ h' => absurd hfuel (by omega)⟩
  | case2 new content lastBits fuel hfuel time bits storage rest hpop hb ih =>
    obtain ⟨hins, h'⟩ := h.move hpop hb
    have hsame : (new.insert time (bits, storage)).2.entries ++ rest.entries =
        new.entries ++ content.entries := by
      rw [hins, SortedMap.popFirst?_eq_some hpop, List.append_assoc, List.singleton_append]
    rw [← hsame]
    exact ih h'
  | case3 new content lastBits fuel hfuel time bits storage rest hpop hb hsplit =>
    obtain ⟨_, _, hsplit', -⟩ := h.split fuel hpop hb
    rw [hsplit'] at hsplit
    cases hsplit
  | case4 new content lastBits fuel hfuel time bits storage rest hpop hb content' fuel' hsplit ih =>
    obtain ⟨content₁, fuel₁, hsplit', h', hdata⟩ := h.split fuel hpop hb
    rw [hsplit'] at hsplit
    obtain ⟨rfl, rfl⟩ := Prod.mk.inj (Option.some.inj hsplit)
    have hlt : weight (new.entries ++ content₁.entries) < weight (new.entries ++ content.entries) := by
      have := weight_splitAndInsert_lt hsplit'
      rw [weight_append, weight_append, weight_popFirst? hpop]
      dsimp only
      omega
    obtain ⟨new', content', fuel', heq, hinv, hsum, hdone, hle, -⟩ := ih h'
    refine ⟨new', content', fuel', heq, hinv, ?_, hdone, hle.trans hlt.le, fun _ _ => hle.trans_lt hlt⟩
    rw [hsum, contentsOf_append, contentsOf_append, hdata]
  | case5 new content lastBits fuel hfuel =>
    exact ⟨new, content, fuel, rfl, ⟨h.covers, h.inRange, h.wellFormed, rfl⟩, rfl,
      fun h' => absurd h' hfuel, le_rfl, fun h' => absurd h' hfuel⟩

/-! ### The chain's calls -/

omit [Bucket w S] in
theorem mem_sum_map {ι : Type} {g : ι → Multiset D} {l : List ι} {d : D} :
    d ∈ (l.map g).sum ↔ ∃ i ∈ l, d ∈ g i := by
  induction l with
  | nil => simp
  | cons i l ih => simp [Multiset.mem_add, ih]

variable (P)

/-- `peel` does not panic on a chain with the invariant, keeps it, and takes off exactly the data
before the frontier: the peeled buckets hold the data the frontier does not hold back, and the
chain keeps the rest. -/
theorem BucketChain.peel_spec (c : BucketChain w S) (f : Option (Fin (2 ^ w))) (hc : c.Inv P) :
    ∃ c' peeled, c.peel f = some (c', peeled) ∧ c'.Inv P ∧
      (peeled.map P.contents).sum =
        (contentsOf P c.content.entries).filter (fun d => Frontier.lessEqual f (P.time d) = false) ∧
      contentsOf P c'.content.entries =
        (contentsOf P c.content.entries).filter (fun d => Frontier.lessEqual f (P.time d) = true) := by
  obtain ⟨lo, hT⟩ := hc.covers
  obtain ⟨content', q, heq, hcov, hin, hsum, hq, hrem⟩ := peelLoop_spec P f c.content [] hT hc.inRange
  have hq' : ∀ d ∈ (q.map P.contents).sum, Frontier.lessEqual f (P.time d) = false := by
    intro d hd
    obtain ⟨s, hs, hds⟩ := mem_sum_map.1 hd
    exact hq s hs d hds
  have hrem' : ∀ d ∈ contentsOf P content'.entries, Frontier.lessEqual f (P.time d) = true := by
    intro d hd
    obtain ⟨e, he, hde⟩ := mem_sum_map.1 hd
    exact hrem e he d hde
  refine ⟨⟨content'⟩, q, by simp [BucketChain.peel, heq], ⟨hcov, hin⟩, ?_, ?_⟩
  · rw [← hsum, Multiset.filter_add, Multiset.filter_eq_nil.2 fun d hd => by simp [hrem' d hd],
      Multiset.filter_eq_self.2 hq', zero_add]
  · rw [← hsum, Multiset.filter_add, Multiset.filter_eq_self.2 hrem',
      Multiset.filter_eq_nil.2 fun d hd => by simp [hq' d hd], add_zero]

/-- `restore` does not panic on a chain with the invariant and keeps it and the data; it leaves a
well-formed chain when it ends with fuel left, and lowers the weight when it starts with fuel and
ends without. -/
theorem BucketChain.restore_spec (c : BucketChain w S) (fuel : Int) (hc : c.Inv P) :
    ∃ c' fuel', c.restore fuel = some (c', fuel') ∧ c'.Inv P ∧
      contentsOf P c'.content.entries = contentsOf P c.content.entries ∧
      (0 < fuel' → wellFormedFrom (-2) c'.content.entries = true) ∧
      (0 < fuel → fuel' ≤ 0 → weight c'.content.entries < weight c.content.entries) := by
  unfold BucketChain.restore
  split
  · rename_i hwf
    exact ⟨c, fuel, rfl, hc, rfl, fun _ => hwf, fun h h' => absurd h (by omega)⟩
  · obtain ⟨lo, hT⟩ := hc.covers
    have h₀ : RestoreInv P lo SortedMap.empty c.content (-2) := ⟨hT, hc.inRange, rfl, rfl⟩
    obtain ⟨new', content', fuel', heq, hinv, hsum, hdone, -, hlt⟩ :=
      restoreLoop_spec P SortedMap.empty c.content (-2) fuel h₀
    have happ : (new'.append content').entries = new'.entries ++ content'.entries :=
      SortedMap.append_entries fun x hx y hy => (List.pairwise_append.1 hinv.covers.pairwise).2.2 x hx y hy
    refine ⟨⟨new'.append content'⟩, fuel', by rw [heq]; rfl, ⟨⟨lo, happ ▸ hinv.covers⟩,
      happ ▸ hinv.inRange⟩, by rw [happ, hsum]; rfl, fun hf => ?_, fun hf hf' => ?_⟩
    · rw [happ, hdone hf, List.append_nil]
      exact hinv.wellFormed
    · rw [happ]
      exact hlt hf hf'

/-- `find` and `range_of` find, for every time from the least one not peeled, the bucket whose range
holds it. -/
theorem BucketChain.rangeOf_spec (c : BucketChain w S) (hc : c.Inv P) {t : Fin (2 ^ w)}
    (ht : ∃ e ∈ c.content.entries.head?, e.1 ≤ t) :
    ∃ e ∈ c.content.entries, c.rangeOf t = some ⟨e.1, advanceByPowerOfTwo e.1 e.2.1⟩ ∧
      c.find t = some e.2.2 ∧ (⟨e.1, advanceByPowerOfTwo e.1 e.2.1⟩ : BucketRange w).contains t := by
  obtain ⟨lo, hT⟩ := hc.covers
  obtain ⟨e₀, he₀, hle⟩ := ht
  have hlo : lo ≤ t.val := by
    cases hl : c.content.entries with
    | nil => rw [hl] at he₀; cases he₀
    | cons e l =>
      rw [hl, List.head?_cons, Option.mem_some_iff] at he₀
      rw [hl] at hT
      subst he₀
      exact hT.1 ▸ Fin.le_def.1 hle
  obtain ⟨e, he, hlast, hk, hlt⟩ := hT.lastAtOrBelow hlo
  refine ⟨e, he, by simp [BucketChain.rangeOf, BucketChain.lastAtOrBelow, hlast],
    by simp [BucketChain.find, BucketChain.lastAtOrBelow, hlast], ?_⟩
  simp only [BucketRange.contains, Bool.and_eq_true, decide_eq_true_eq]
  refine ⟨Fin.le_def.2 hk, ?_⟩
  by_cases hend : e.1.val + 2 ^ e.2.1 < 2 ^ w
  · rw [advanceByPowerOfTwo_of_lt hend, Option.all_some, decide_eq_true_iff, Fin.lt_def]
    exact hlt
  · simp [advanceByPowerOfTwo_of_le (Nat.le_of_not_lt hend)]

end Invariant

/-! ## Runs of calls -/

/-- The calls a bucket chain answers. -/
inductive Op (w : Nat) where
  | peel (frontier : Option (Fin (2 ^ w)))
  | restore (fuel : Int)
  | find (t : Fin (2 ^ w))
  | rangeOf (t : Fin (2 ^ w))

namespace BucketChain

variable {w : Nat} {S D : Type} [Bucket w S]

/-- A caller that calls `restore` with each fuel in turn until a call ends with fuel left, as
`restore` asks of its callers. -/
def restoreUntil (c : BucketChain w S) : List Int → Option (BucketChain w S)
  | [] => none
  | fuel :: fuels =>
    match c.restore fuel with
    | none => none
    | some (c', fuel') => if 0 < fuel' then some c' else c'.restoreUntil fuels

/-- The chain after one call, `none` where the call panics. -/
def apply (c : BucketChain w S) : Op w → Option (BucketChain w S)
  | .peel frontier => (c.peel frontier).map Prod.fst
  | .restore fuel => (c.restore fuel).map Prod.fst
  | .find _ | .rangeOf _ => some c

/-- The chain after a run of calls, `none` where one panics. -/
def run (c : BucketChain w S) (ops : List (Op w)) : Option (BucketChain w S) :=
  ops.foldlM apply c

variable (P : Bucket.Partitions w S D)

/-- Calling `restore` with positive fuel until a call ends with fuel left stops within as many calls
as the chain weighs, with a well-formed chain that keeps the invariant and the data. -/
theorem restoreUntil_spec (c : BucketChain w S) (fuels : List Int) (hc : c.Inv P)
    (hpos : ∀ fuel ∈ fuels, 0 < fuel) (hlen : weight c.content.entries < fuels.length) :
    ∃ c', c.restoreUntil fuels = some c' ∧ c'.Inv P ∧
      wellFormedFrom (-2) c'.content.entries = true ∧
      contentsOf P c'.content.entries = contentsOf P c.content.entries := by
  induction fuels generalizing c with
  | nil => simp at hlen
  | cons fuel fuels ih =>
    obtain ⟨c₁, fuel₁, heq, hinv, hsum, hwf, hlt⟩ := c.restore_spec P fuel hc
    by_cases hleft : 0 < fuel₁
    · exact ⟨c₁, by simp [restoreUntil, heq, hleft], hinv, hwf hleft, hsum⟩
    · -- the call ended without fuel, so it lowered the weight
      have hw := hlt (hpos fuel List.mem_cons_self) (by omega)
      obtain ⟨c', hc', hinv', hwf', hsum'⟩ := ih c₁ hinv
        (fun f hf => hpos f (List.mem_cons_of_mem _ hf)) (by simp at hlen; omega)
      exact ⟨c', by simp [restoreUntil, heq, hleft, hc'], hinv', hwf', hsum'.trans hsum⟩

/-- One call on a chain with the invariant does not panic and keeps the invariant. -/
theorem apply_inv (c : BucketChain w S) (op : Op w) (hc : c.Inv P) :
    ∃ c', c.apply op = some c' ∧ c'.Inv P := by
  cases op with
  | peel frontier =>
    obtain ⟨c', _, heq, hinv, -⟩ := c.peel_spec P frontier hc
    exact ⟨c', by simp [apply, heq], hinv⟩
  | restore fuel =>
    obtain ⟨c', _, heq, hinv, -⟩ := c.restore_spec P fuel hc
    exact ⟨c', by simp [apply, heq], hinv⟩
  | find _ | rangeOf _ => exact ⟨c, rfl, hc⟩

/-- A run of calls on a chain with the invariant does not panic and keeps the invariant. -/
theorem run_inv (c : BucketChain w S) (ops : List (Op w)) (hc : c.Inv P) :
    ∃ c', c.run ops = some c' ∧ c'.Inv P := by
  induction ops generalizing c with
  | nil => exact ⟨c, rfl, hc⟩
  | cons op ops ih =>
    obtain ⟨c₁, h₁, hinv₁⟩ := c.apply_inv P op hc
    obtain ⟨c', h', hinv'⟩ := ih c₁ hinv₁
    exact ⟨c', by simp only [run, List.foldlM_cons, h₁, Option.bind_eq_bind, Option.bind_some]; exact h', hinv'⟩

end BucketChain

/-- Over every storage whose split partitions its data by time, every run of `peel`, `restore`,
`find` and `range_of` calls from a new chain leaves a chain whose buckets follow each other one
advance apart up to the end of the domain; from it, `peel` takes off exactly the data before its
frontier and leaves only data the frontier holds back, neither `peel` nor `restore` panics,
`find` and `range_of` find the bucket of every time not peeled, and calling `restore` with positive
fuel until a call ends with fuel left stops, with a well-formed chain. -/
theorem bucket_chain_partitions {w : Nat} {S D : Type} [Bucket w S] (P : Bucket.Partitions w S D)
    (storage : S) (ops : List (Op w)) :
    ∃ c, (BucketChain.new storage).run ops = some c ∧
      c.content.entries.IsChain (fun e e' => advanceByPowerOfTwo e.1 e.2.1 = some e'.1) ∧
      (∀ e ∈ c.content.entries.getLast?, advanceByPowerOfTwo e.1 e.2.1 = none) ∧
      (∀ f, ∃ c' peeled, c.peel f = some (c', peeled) ∧
        (peeled.map P.contents).sum =
          (contentsOf P c.content.entries).filter (fun d => Frontier.lessEqual f (P.time d) = false) ∧
        ∀ d ∈ contentsOf P c'.content.entries, Frontier.lessEqual f (P.time d) = true) ∧
      (∀ fuel, (c.restore fuel).isSome) ∧
      (∀ t, (∃ e ∈ c.content.entries.head?, e.1 ≤ t) → ∃ e ∈ c.content.entries,
        c.rangeOf t = some ⟨e.1, advanceByPowerOfTwo e.1 e.2.1⟩ ∧ c.find t = some e.2.2 ∧
        (⟨e.1, advanceByPowerOfTwo e.1 e.2.1⟩ : BucketRange w).contains t) ∧
      ∀ fuels : List Int, (∀ fuel ∈ fuels, 0 < fuel) → weight c.content.entries < fuels.length →
        ∃ c', c.restoreUntil fuels = some c' ∧ wellFormedFrom (-2) c'.content.entries = true := by
  obtain ⟨c, hrun, hc⟩ := (BucketChain.new storage).run_inv P ops (BucketChain.inv_new P storage)
  obtain ⟨lo, hT⟩ := hc.covers
  refine ⟨c, hrun, (hT.isChain_advance).1, (hT.isChain_advance).2, fun f => ?_, fun fuel => ?_,
    fun t ht => c.rangeOf_spec P hc ht, fun fuels hpos hlen => ?_⟩
  · obtain ⟨c', peeled, heq, -, hpeeled, hleft⟩ := c.peel_spec P f hc
    refine ⟨c', peeled, heq, hpeeled, fun d hd => ?_⟩
    rw [hleft] at hd
    exact (Multiset.mem_filter.1 hd).2
  · obtain ⟨c', fuel', heq, -⟩ := c.restore_spec P fuel hc
    simp [heq]
  · obtain ⟨c', heq, -, hwf, -⟩ := c.restoreUntil_spec P fuels hc hpos hlen
    exact ⟨c', heq, hwf⟩

end Materialize.Temporal
