import Mathlib

/-!
# Wildcard segments, and searching for a literal from the right

A wildcard pattern over an alphabet `α` reads as a list of segments: wildcards that take at least
`consume` items, and any number more when `many`, then a literal `suffix`. Its meaning is a
`Language α` (Mathlib's), the product of one language per segment (`segmentsLang`), so that the
semiring laws of languages do the bookkeeping of concatenation. Wildcards one after another
combine by adding their least lengths (`wild_mul_wild`).

A matcher decides membership without building words. The segment's wildcards are taken first
(`mem_wild_mul`, `mem_wild_many_mul`), and the literal after unbounded wildcards is found by a
search: `rfind` gives the last occurrence of a needle (`rfind_occurs`, `rfind_last`), and `rfindLoop`
goes through the occurrences from there to the first, until the rest after one passes a test.
The search succeeds exactly when the rest after some occurrence is in the language the test
decides (`rfindLoop_spec`). Nothing here is specific to one program.
-/

namespace Glob

variable {α : Type}

/-! ## Words of a length -/

/-- The words of length `n`, or of any length from `n` on when `many`. -/
def wild (n : Nat) (many : Bool) : Language α :=
  {w | w.length = n ∨ (many = true ∧ n ≤ w.length)}

@[simp] theorem mem_wild {n : Nat} {many : Bool} {w : List α} :
    w ∈ (wild n many : Language α) ↔ w.length = n ∨ (many = true ∧ n ≤ w.length) :=
  Iff.rfl

theorem wild_zero_true : (wild 0 true : Language α) = ⊤ := by
  ext w
  exact iff_of_true (by simp) trivial

theorem wild_zero_false : (wild 0 false : Language α) = 1 := by
  ext w
  simp [Language.mem_one]

/-- A word splits at any position into a prefix and a suffix of the lengths it adds up to. -/
theorem exists_append_of_length {w : List α} {a : Nat} (h : a ≤ w.length) :
    ∃ u v, u ++ v = w ∧ u.length = a ∧ v.length = w.length - a :=
  ⟨w.take a, w.drop a, List.take_append_drop a w, by simp [h], by simp⟩

/-- Wildcards one after another take the sum of their least lengths, and any number more when
either does. -/
theorem wild_mul_wild (a b : Nat) (m m' : Bool) :
    (wild a m * wild b m' : Language α) = wild (a + b) (m || m') := by
  ext w
  simp only [Language.mem_mul, mem_wild]
  constructor
  · rintro ⟨u, hu, v, hv, rfl⟩
    simp only [List.length_append]
    cases m <;> cases m' <;> simp at hu hv ⊢ <;> omega
  · intro hw
    -- the unbounded wildcard, if any, takes what is left over
    cases m
    · obtain ⟨u, v, rfl, hu, hv⟩ := exists_append_of_length (w := w) (a := a) (by cases m' <;> simp at hw <;> omega)
      refine ⟨u, by simp [hu], v, ?_, rfl⟩
      cases m' <;> simp at hw ⊢ <;> omega
    · obtain ⟨u, v, rfl, hu, hv⟩ :=
        exists_append_of_length (w := w) (a := w.length - b) (Nat.sub_le _ _)
      simp only [List.length_append, Bool.true_or, true_and] at hw hu hv
      refine ⟨u, .inr ⟨rfl, by omega⟩, v, .inl (by omega), rfl⟩

/-- The empty word alone is the unit of concatenation. -/
theorem singleton_nil : ({[]} : Language α) = 1 := Language.one_def.symm

/-- The single word `u ++ v` is `u` followed by `v`. -/
theorem singleton_append (u v : List α) : ({u ++ v} : Language α) = {u} * {v} := by
  ext w
  simp only [Language.mem_mul]
  constructor
  · rintro rfl
    exact ⟨u, rfl, v, rfl, rfl⟩
  · rintro ⟨u', rfl, v', rfl, rfl⟩
    rfl

/-- A word is a given word followed by a word of `L` when it starts with it and the rest is in
`L`. -/
theorem mem_singleton_mul {u t : List α} {L : Language α} :
    t ∈ ({u} : Language α) * L ↔ u <+: t ∧ t.drop u.length ∈ L := by
  simp only [Language.mem_mul]
  constructor
  · rintro ⟨u', rfl, v, hv, rfl⟩
    exact ⟨List.prefix_append _ _, by simpa using hv⟩
  · rintro ⟨⟨v, rfl⟩, hv⟩
    exact ⟨u, rfl, v, by simpa using hv, rfl⟩

/-- Wildcards of one length: the first `n` items, and the rest in `L`. -/
theorem mem_wild_mul {n : Nat} {t : List α} {L : Language α} :
    t ∈ (wild n false : Language α) * L ↔ n ≤ t.length ∧ t.drop n ∈ L := by
  simp only [Language.mem_mul, mem_wild, Bool.false_eq_true, false_and, or_false]
  constructor
  · rintro ⟨u, hu, v, hv, rfl⟩
    simp only [List.length_append, ← hu, List.drop_left]
    exact ⟨by omega, hv⟩
  · rintro ⟨hn, hL⟩
    exact ⟨t.take n, by simp [hn], t.drop n, hL, List.take_append_drop n t⟩

theorem mem_wild_zero_many_mul {t : List α} {L : Language α} :
    t ∈ (wild 0 true : Language α) * L ↔ ∃ i ≤ t.length, t.drop i ∈ L := by
  simp only [Language.mem_mul, mem_wild, true_and, Nat.zero_le, or_true]
  constructor
  · rintro ⟨u, v, hv, rfl⟩
    exact ⟨u.length, by simp, by simpa using hv⟩
  · rintro ⟨i, -, hL⟩
    exact ⟨t.take i, t.drop i, hL, List.take_append_drop i t⟩

/-- Unbounded wildcards: the first `n` items, then any number more, and the rest in `L`. -/
theorem mem_wild_many_mul {n : Nat} {t : List α} {L : Language α} :
    t ∈ (wild n true : Language α) * L ↔
      n ≤ t.length ∧ ∃ i ≤ (t.drop n).length, (t.drop n).drop i ∈ L := by
  have hsplit : (wild n true : Language α) = wild n false * wild 0 true := by
    rw [wild_mul_wild]
    rfl
  rw [hsplit, mul_assoc, mem_wild_mul, mem_wild_zero_many_mul]

/-- Wildcards in general: the first `i` items for a length `i` they take, and the rest in `L`. -/
theorem mem_wild_mul_iff {n : Nat} {m : Bool} {t : List α} {L : Language α} :
    t ∈ (wild n m : Language α) * L ↔
      ∃ i ≤ t.length, (i = n ∨ (m = true ∧ n ≤ i)) ∧ t.drop i ∈ L := by
  simp only [Language.mem_mul, mem_wild]
  constructor
  · rintro ⟨u, hu, v, hv, rfl⟩
    exact ⟨u.length, by simp, hu, by simpa using hv⟩
  · rintro ⟨i, hi, hlen, hL⟩
    exact ⟨t.take i, by simpa [Nat.min_eq_left hi] using hlen, t.drop i, hL, List.take_append_drop i t⟩

/-! ## Segments -/

/-- A segment of a wildcard pattern: wildcards that take at least `consume` items, and any number
more when `many`, then the literal `suffix`. -/
structure Segment (α : Type) where
  consume : Nat
  many : Bool
  suffix : List α
  deriving DecidableEq, Repr

/-- The words a segment matches. -/
def Segment.lang (s : Segment α) : Language α := wild s.consume s.many * {s.suffix}

/-- The words a list of segments matches, one segment after another. -/
def segmentsLang (segs : List (Segment α)) : Language α := (segs.map Segment.lang).prod

@[simp] theorem segmentsLang_nil : segmentsLang ([] : List (Segment α)) = 1 := rfl

@[simp] theorem segmentsLang_cons (s : Segment α) (segs : List (Segment α)) :
    segmentsLang (s :: segs) = s.lang * segmentsLang segs := by
  simp [segmentsLang]

/-- More wildcards after a segment with no literal add to its wildcards. -/
theorem Segment.lang_mul_wild {s : Segment α} (h : s.suffix = []) (k : Nat) (m : Bool)
    (L : Language α) :
    s.lang * (wild k m * L) = ({ s with consume := s.consume + k, many := s.many || m }).lang * L := by
  rw [Segment.lang, Segment.lang, h, singleton_nil, mul_one, mul_one, ← mul_assoc, wild_mul_wild]

/-- One more item of literal at the end of a segment. -/
theorem Segment.lang_append_suffix (s : Segment α) (a : α) (L : Language α) :
    ({ s with suffix := s.suffix ++ [a] }).lang * L = s.lang * ({[a]} * L) := by
  simp only [Segment.lang, singleton_append, mul_assoc]

theorem segmentsLang_append (segs segs' : List (Segment α)) :
    segmentsLang (segs ++ segs') = segmentsLang segs * segmentsLang segs' := by
  simp [segmentsLang]

/-! ## The last occurrence of a needle -/

section Search

variable [DecidableEq α]

/-- `needle` occurs at the position `i` of `text`, and ends within its first `e` items. -/
def OccursBefore (needle text : List α) (e i : Nat) : Prop :=
  i + needle.length ≤ e ∧ i ≤ text.length ∧ needle <+: text.drop i

/-- `str::rfind`: the position of the last occurrence of `needle` in `hay`. -/
def rfind (needle : List α) : List α → Option Nat
  | [] => if needle.isPrefixOf [] then some 0 else none
  | c :: hay =>
    match rfind needle hay with
    | some i => some (i + 1)
    | none => if needle.isPrefixOf (c :: hay) then some 0 else none

theorem rfind_nil (needle : List α) :
    rfind needle [] = if needle.isPrefixOf [] then some 0 else none := rfl

/-- One step of the search: an occurrence further on is kept, one position later. -/
theorem rfind_cons (needle : List α) (c : α) (hay : List α) :
    rfind needle (c :: hay) =
      (rfind needle hay).elim (if needle.isPrefixOf (c :: hay) then some 0 else none)
        (fun i => some (i + 1)) := by
  rw [rfind]
  cases rfind needle hay <;> rfl

/-- What `rfind` finds is an occurrence. -/
theorem rfind_occurs {needle hay : List α} {i : Nat} (h : rfind needle hay = some i) :
    needle <+: hay.drop i ∧ i ≤ hay.length := by
  induction hay generalizing i with
  | nil =>
    simp only [rfind_nil, List.isPrefixOf_iff_prefix] at h
    split at h
    · next hp =>
      cases h
      exact ⟨hp, Nat.le_refl _⟩
    · cases h
  | cons c hay ih =>
    rw [rfind_cons] at h
    cases hk : rfind needle hay with
    | some k =>
      rw [hk, Option.elim_some] at h
      cases h
      obtain ⟨h1, h2⟩ := ih hk
      exact ⟨by simpa using h1, by simpa using h2⟩
    | none =>
      rw [hk, Option.elim_none] at h
      split at h
      · next hp =>
        cases h
        exact ⟨by simpa [List.isPrefixOf_iff_prefix] using hp, Nat.zero_le _⟩
      · cases h

/-- `rfind` finds nothing when the needle occurs nowhere. -/
theorem rfind_eq_none_iff {needle hay : List α} :
    rfind needle hay = none ↔ ∀ j ≤ hay.length, ¬needle <+: hay.drop j := by
  induction hay with
  | nil => simp [rfind_nil, List.isPrefixOf_iff_prefix]
  | cons c hay ih =>
    rw [rfind_cons]
    cases hr : rfind needle hay with
    | some k =>
      obtain ⟨hk, hkle⟩ := rfind_occurs hr
      simp only [Option.elim_some, reduceCtorEq, false_iff, not_forall, not_not]
      exact ⟨k + 1, by simpa using hkle, by simpa using hk⟩
    | none =>
      have hnone := ih.1 hr
      simp only [Option.elim_none, List.isPrefixOf_iff_prefix, ite_eq_right_iff, reduceCtorEq,
        imp_false]
      constructor
      · intro hc j hj
        cases j with
        | zero => simpa using hc
        | succ j => simpa using hnone j (by simpa using hj)
      · intro h
        simpa using h 0 (Nat.zero_le _)

/-- Nothing occurs after what `rfind` finds. -/
theorem rfind_last {needle hay : List α} {i : Nat} (h : rfind needle hay = some i) :
    ∀ j, i < j → j ≤ hay.length → ¬needle <+: hay.drop j := by
  induction hay generalizing i with
  | nil =>
    intro j hij hj
    simp only [List.length_nil] at hj
    omega
  | cons c hay ih =>
    rw [rfind_cons] at h
    cases hk : rfind needle hay with
    | some k =>
      rw [hk, Option.elim_some] at h
      cases h
      intro j hij hj
      obtain ⟨j, rfl⟩ : ∃ j', j = j' + 1 := ⟨j - 1, by omega⟩
      simpa using ih hk j (by omega) (by simpa using hj)
    | none =>
      rw [hk, Option.elim_none] at h
      split at h
      · cases h
        intro j hij hj
        obtain ⟨j, rfl⟩ : ∃ j', j = j' + 1 := ⟨j - 1, by omega⟩
        simpa using rfind_eq_none_iff.1 hk j (by simpa using hj)
      · cases h

omit [DecidableEq α] in
/-- An occurrence in the first `e` items. -/
theorem prefix_drop_take_iff {needle text : List α} {e j : Nat} :
    needle <+: (text.take e).drop j ∧ j ≤ (text.take e).length ↔ OccursBefore needle text e j := by
  rw [List.drop_take, List.prefix_take_iff, OccursBefore, List.length_take]
  constructor
  · rintro ⟨⟨hp, hlen⟩, hj⟩
    exact ⟨by omega, by omega, hp⟩
  · rintro ⟨hlen, hj, hp⟩
    exact ⟨⟨hp, by omega⟩, by omega⟩

/-- In the first `e` items, `rfind` finds an occurrence, and the last one. -/
theorem rfind_take_eq_some {needle text : List α} {e offset : Nat}
    (h : rfind needle (text.take e) = some offset) :
    OccursBefore needle text e offset ∧ ∀ j, OccursBefore needle text e j → j ≤ offset := by
  refine ⟨prefix_drop_take_iff.1 (rfind_occurs h), fun j hj => ?_⟩
  by_contra hlt
  obtain ⟨hp, hle⟩ := prefix_drop_take_iff.2 hj
  exact rfind_last h j (by omega) hle hp

theorem rfind_take_eq_none {needle text : List α} {e : Nat}
    (h : rfind needle (text.take e) = none) : ∀ j, ¬OccursBefore needle text e j := by
  intro j hj
  obtain ⟨hp, hle⟩ := prefix_drop_take_iff.2 hj
  exact rfind_eq_none_iff.1 h j hle hp

/-! ## Going through the occurrences from the right -/

/-- The search from the occurrence at `offset` back to the first, for an occurrence whose rest
`test` accepts. A test that fails (`none`) stops the search. -/
def rfindLoop (test : List α → Option Bool) (needle text : List α) (offset : Nat) :
    Option Bool :=
  match test (text.drop (offset + needle.length)) with
  | none => none
  | some true => some true
  | some false =>
    if h0 : offset = 0 then some false
    else
      -- the occurrences that end before this one does
      match h : rfind needle (text.take (offset + needle.length - 1)) with
      | none => some false
      | some i => rfindLoop test needle text i
termination_by offset
decreasing_by
  have := (rfind_take_eq_some h).1.1
  omega

/-- The search succeeds exactly when the rest after some occurrence, from the one found on back,
is in the language the test decides. -/
theorem rfindLoop_spec {test : List α → Option Bool} {L : Language α}
    (htest : ∀ r, ∃ b, test r = some b ∧ (b = true ↔ r ∈ L)) {needle text : List α}
    {e offset : Nat} (hfound : rfind needle (text.take e) = some offset) :
    ∃ b, rfindLoop test needle text offset = some b ∧
      (b = true ↔ ∃ i, OccursBefore needle text e i ∧ text.drop (i + needle.length) ∈ L) := by
  induction offset using Nat.strong_induction_on generalizing e with
  | _ offset ih =>
  obtain ⟨hocc, hlast⟩ := rfind_take_eq_some hfound
  obtain ⟨b₀, hb₀, hb₀L⟩ := htest (text.drop (offset + needle.length))
  rw [rfindLoop, hb₀]
  cases b₀ with
  | true => exact ⟨true, rfl, iff_of_true rfl ⟨offset, hocc, hb₀L.1 rfl⟩⟩
  | false =>
    have hfail : text.drop (offset + needle.length) ∉ L := fun h => absurd (hb₀L.2 h) (by simp)
    -- an accepted occurrence lies before this one, and so ends before it does
    have hbefore : ∀ i, OccursBefore needle text e i → text.drop (i + needle.length) ∈ L →
        i < offset := by
      intro i hi hL
      have := hlast i hi
      rcases Nat.lt_or_eq_of_le this with hlt | rfl
      · exact hlt
      · exact absurd hL hfail
    dsimp only
    split
    · next h0 =>
      refine ⟨false, rfl, iff_of_false (by simp) ?_⟩
      rintro ⟨i, hi, hL⟩
      have := hbefore i hi hL
      omega
    · next h0 =>
      split
      · next hnone =>
        refine ⟨false, rfl, iff_of_false (by simp) ?_⟩
        rintro ⟨i, hi, hL⟩
        have hlt := hbefore i hi hL
        exact rfind_take_eq_none hnone i ⟨by omega, hi.2⟩
      · next i hi =>
        have hi' := (rfind_take_eq_some hi).1
        obtain ⟨b, hb, hbL⟩ := ih i (by have := hi'.1; omega) hi
        refine ⟨b, hb, hbL.trans ⟨?_, ?_⟩⟩
        · rintro ⟨j, hj, hL⟩
          exact ⟨j, ⟨by have := hocc.1; have := hj.1; omega, hj.2⟩, hL⟩
        · rintro ⟨j, hj, hL⟩
          have hlt := hbefore j hj hL
          exact ⟨j, ⟨by omega, hj.2⟩, hL⟩

omit [DecidableEq α] in
/-- Any number of items, the needle, and a rest in `L`: an occurrence of the needle anywhere,
with the rest after it in `L`. -/
theorem mem_wild_zero_many_singleton_mul {needle t : List α} {L : Language α} :
    t ∈ (wild 0 true : Language α) * ({needle} * L) ↔
      ∃ i, OccursBefore needle t t.length i ∧ t.drop (i + needle.length) ∈ L := by
  rw [mem_wild_zero_many_mul]
  constructor
  · rintro ⟨i, hi, hmem⟩
    obtain ⟨hp, hL⟩ := mem_singleton_mul.1 hmem
    have hlen := hp.length_le
    rw [List.length_drop] at hlen
    exact ⟨i, ⟨by omega, hi, hp⟩, by simpa [List.drop_drop] using hL⟩
  · rintro ⟨i, ⟨-, hi, hp⟩, hL⟩
    exact ⟨i, hi, mem_singleton_mul.2 ⟨hp, by simpa [List.drop_drop] using hL⟩⟩

/-- No occurrence of the needle: no word of the language has it after any number of items. -/
theorem rfind_eq_none_not_mem {needle t : List α} {L : Language α} (h : rfind needle t = none) :
    t ∉ (wild 0 true : Language α) * ({needle} * L) := by
  rw [mem_wild_zero_many_singleton_mul]
  rintro ⟨i, hi, -⟩
  rw [← List.take_length (l := t)] at h
  exact rfind_take_eq_none h i hi

/-- Searching the whole text from its last occurrence of the needle decides whether the text is
some items, the needle, and a rest the test accepts. -/
theorem rfindLoop_mem {test : List α → Option Bool} {L : Language α}
    (htest : ∀ r, ∃ b, test r = some b ∧ (b = true ↔ r ∈ L)) {needle t : List α} {offset : Nat}
    (hfound : rfind needle t = some offset) :
    ∃ b, rfindLoop test needle t offset = some b ∧
      (b = true ↔ t ∈ (wild 0 true : Language α) * ({needle} * L)) := by
  rw [mem_wild_zero_many_singleton_mul]
  rw [← List.take_length (l := t)] at hfound
  exact rfindLoop_spec htest hfound

end Search

end Glob
