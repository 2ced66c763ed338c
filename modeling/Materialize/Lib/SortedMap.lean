import Mathlib

/-!
# Ordered maps as sorted association lists

A map whose keys are kept in increasing order, the shape of an ordered map iterated from its
least key: `entries` lists the key-value pairs in that order, and the field `sorted` makes every
value of the type such a list. Inserting returns the value it replaced and removing returns the
value it took, as the usual ordered-map interfaces do. Nothing here is specific to one program.
-/

namespace SortedMap

variable {κ ν : Type} [LinearOrder κ]

/-- Insert `(k, v)` into a list sorted by key, replacing the pair with key `k` if there is one;
the replaced value comes first. -/
def insertList (k : κ) (v : ν) : List (κ × ν) → Option ν × List (κ × ν)
  | [] => (none, [(k, v)])
  | (k', v') :: rest =>
    if k < k' then (none, (k, v) :: (k', v') :: rest)
    else if k = k' then (some v', (k, v) :: rest)
    else
      let (old, rest') := insertList k v rest
      (old, (k', v') :: rest')

@[simp] theorem insertList_nil (k : κ) (v : ν) : insertList k v [] = (none, [(k, v)]) := rfl

/-- One step of the insertion, with the pair at the head left whole. -/
theorem insertList_cons (k : κ) (v : ν) (y : κ × ν) (rest : List (κ × ν)) :
    insertList k v (y :: rest) =
      if k < y.1 then (none, (k, v) :: y :: rest)
      else if k = y.1 then (some y.2, (k, v) :: rest)
      else ((insertList k v rest).1, y :: (insertList k v rest).2) := rfl

/-- Every pair after an insertion is the inserted one or was there before. -/
theorem mem_insertList {k : κ} {v : ν} {l : List (κ × ν)} {x : κ × ν}
    (h : x ∈ (insertList k v l).2) : x = (k, v) ∨ x ∈ l := by
  induction l with
  | nil => simpa using h
  | cons y rest ih =>
    rw [insertList_cons] at h
    split_ifs at h with hlt heq
    · simpa using h
    · rcases List.mem_cons.1 h with rfl | h
      · exact .inl rfl
      · exact .inr (List.mem_cons_of_mem _ h)
    · rcases List.mem_cons.1 h with rfl | h
      · exact .inr List.mem_cons_self
      · exact (ih h).imp id (List.mem_cons_of_mem _)

/-- Insertion keeps a list sorted by key. -/
theorem insertList_sorted (k : κ) (v : ν) {l : List (κ × ν)} (hl : l.Pairwise (·.1 < ·.1)) :
    (insertList k v l).2.Pairwise (·.1 < ·.1) := by
  induction l with
  | nil => simp
  | cons y rest ih =>
    obtain ⟨hy, hrest⟩ := List.pairwise_cons.1 hl
    rw [insertList_cons]
    split_ifs with hlt heq
    · refine List.pairwise_cons.2 ⟨?_, hl⟩
      intro x hx
      rcases List.mem_cons.1 hx with rfl | hx
      · exact hlt
      · exact hlt.trans (hy x hx)
    · refine List.pairwise_cons.2 ⟨?_, hrest⟩
      intro x hx
      rw [heq]
      exact hy x hx
    · have hgt : y.1 < k := lt_of_le_of_ne (not_lt.1 hlt) (Ne.symm heq)
      refine List.pairwise_cons.2 ⟨?_, ih hrest⟩
      intro x hx
      rcases mem_insertList hx with rfl | hx
      · exact hgt
      · exact hy x hx

/-- A key below every key of the list goes first. -/
theorem insertList_of_forall_lt {k : κ} {v : ν} {l : List (κ × ν)} (h : ∀ x ∈ l, k < x.1) :
    insertList k v l = (none, (k, v) :: l) := by
  cases l with
  | nil => rfl
  | cons y rest =>
    rw [insertList_cons, if_pos (h _ List.mem_cons_self)]

/-- A key above every key of the list goes last. -/
theorem insertList_of_forall_gt {k : κ} {v : ν} {l : List (κ × ν)} (h : ∀ x ∈ l, x.1 < k) :
    insertList k v l = (none, l ++ [(k, v)]) := by
  induction l with
  | nil => rfl
  | cons y rest ih =>
    have hy : y.1 < k := h _ List.mem_cons_self
    rw [insertList_cons, if_neg (not_lt.2 hy.le), if_neg (ne_of_gt hy),
      ih fun x hx => h x (List.mem_cons_of_mem _ hx)]
    rfl

/-- An insertion adds at most the new value's weight to a sum over the values. -/
theorem sum_insertList_le (f : ν → ℕ) (k : κ) (v : ν) (l : List (κ × ν)) :
    ((insertList k v l).2.map (f ·.2)).sum ≤ (l.map (f ·.2)).sum + f v := by
  induction l with
  | nil => simp
  | cons y rest ih =>
    rw [insertList_cons]
    split_ifs
    · simp only [List.map_cons, List.sum_cons]
      omega
    · simp only [List.map_cons, List.sum_cons]
      omega
    · simp only [List.map_cons, List.sum_cons]
      omega

/-- Inserting past a prefix of smaller keys leaves the prefix as it is. -/
theorem insertList_append {k : κ} {v : ν} {P l : List (κ × ν)} (hP : ∀ x ∈ P, x.1 < k) :
    insertList k v (P ++ l) = ((insertList k v l).1, P ++ (insertList k v l).2) := by
  induction P with
  | nil => rfl
  | cons y P ih =>
    have hy : y.1 < k := hP _ List.mem_cons_self
    rw [List.cons_append, insertList_cons, if_neg (not_lt.2 hy.le), if_neg (ne_of_gt hy),
      ih fun x hx => hP x (List.mem_cons_of_mem _ hx)]
    rfl

/-- Inserting under the first key replaces its value. -/
theorem insertList_cons_self (k : κ) (v v' : ν) (l : List (κ × ν)) :
    insertList k v ((k, v') :: l) = (some v', (k, v) :: l) := by
  rw [insertList_cons, if_neg (lt_irrefl k), if_pos rfl]

end SortedMap

/-- A map with keys in `κ`, its pairs listed by increasing key. -/
structure SortedMap (κ ν : Type) [LinearOrder κ] where
  entries : List (κ × ν)
  sorted : entries.Pairwise (·.1 < ·.1)

namespace SortedMap

variable {κ ν : Type} [LinearOrder κ]

/-- The empty map. -/
def empty : SortedMap κ ν := ⟨[], List.Pairwise.nil⟩

/-- The value under `k`. -/
def get? (m : SortedMap κ ν) (k : κ) : Option ν := (m.entries.find? (·.1 = k)).map Prod.snd

/-- Insert `v` under `k`: the value it replaces, and the new map. -/
def insert (m : SortedMap κ ν) (k : κ) (v : ν) : Option ν × SortedMap κ ν :=
  ((insertList k v m.entries).1, ⟨(insertList k v m.entries).2, insertList_sorted k v m.sorted⟩)

/-- Remove the pair under `k`: its value, and the map without it. -/
def remove (m : SortedMap κ ν) (k : κ) : Option ν × SortedMap κ ν :=
  (m.get? k, ⟨m.entries.filter (·.1 ≠ k), m.sorted.sublist List.filter_sublist⟩)

@[simp] theorem get?_empty (k : κ) : (empty : SortedMap κ ν).get? k = none := rfl

theorem find?_insertList (k : κ) (v : ν) (l : List (κ × ν)) (k' : κ) :
    (((insertList k v l).2.find? (·.1 = k')).map Prod.snd) =
      if k' = k then some v else (l.find? (·.1 = k')).map Prod.snd := by
  induction l with
  | nil =>
    by_cases h : k' = k
    · subst h; simp
    · simp [Ne.symm h, h]
  | cons y rest ih =>
    obtain ⟨k₁, v₁⟩ := y
    rw [insertList_cons]
    by_cases h : k' = k
    · subst h
      rw [if_pos rfl] at ih ⊢
      split_ifs with hlt heq
      · simp
      · simp
      · simpa [List.find?_cons, Ne.symm heq] using ih
    · rw [if_neg h] at ih ⊢
      split_ifs with hlt heq
      · simp [Ne.symm h]
      · subst heq
        simp [Ne.symm h]
      · by_cases h₁ : k₁ = k'
        · simp [h₁]
        · simpa [List.find?_cons, h₁] using ih

/-- The value under `k'` once `k` is given `v`. -/
theorem get?_insert (m : SortedMap κ ν) (k : κ) (v : ν) (k' : κ) :
    (m.insert k v).2.get? k' = if k' = k then some v else m.get? k' :=
  find?_insertList k v m.entries k'

/-- The pair with the least key. -/
def first? (m : SortedMap κ ν) : Option (κ × ν) := m.entries.head?

/-- The pair with the greatest key. -/
def last? (m : SortedMap κ ν) : Option (κ × ν) := m.entries.getLast?

/-- The number of pairs. -/
def size (m : SortedMap κ ν) : Nat := m.entries.length

/-- No pairs. -/
def isEmpty (m : SortedMap κ ν) : Bool := m.entries.isEmpty

/-- The values, by increasing key. -/
def values (m : SortedMap κ ν) : List ν := m.entries.map Prod.snd

/-- Keep the pairs `p` holds of, as `BTreeMap::retain` does. -/
def retain (m : SortedMap κ ν) (p : κ → ν → Bool) : SortedMap κ ν :=
  ⟨m.entries.filter (fun e => p e.1 e.2), m.sorted.sublist List.filter_sublist⟩

/-- Two pairs of a sorted map with one key are one pair. -/
theorem eq_of_mem_of_fst_eq (m : SortedMap κ ν) {x y : κ × ν} (hx : x ∈ m.entries)
    (hy : y ∈ m.entries) (h : x.1 = y.1) : x = y := by
  obtain ⟨entries, sorted⟩ := m
  induction entries with
  | nil => cases hx
  | cons z rest ih =>
    obtain ⟨hz, hrest⟩ := List.pairwise_cons.1 sorted
    rcases List.mem_cons.1 hx with rfl | hxr
    · rcases List.mem_cons.1 hy with rfl | hyr
      · rfl
      · exact absurd h (ne_of_lt (hz y hyr))
    · rcases List.mem_cons.1 hy with rfl | hyr
      · exact absurd h.symm (ne_of_lt (hz x hxr))
      · exact ih hrest hxr hyr

/-- The value under `k` is the value of the pair with key `k`. -/
theorem get?_eq_some_iff (m : SortedMap κ ν) {k : κ} {v : ν} :
    m.get? k = some v ↔ (k, v) ∈ m.entries := by
  constructor
  · intro h
    obtain ⟨e, he, rfl⟩ := Option.map_eq_some_iff.1 h
    have hk : e.1 = k := by simpa using List.find?_some he
    rw [← hk]
    exact List.mem_of_find?_eq_some he
  · intro h
    obtain ⟨e, he⟩ := Option.isSome_iff_exists.1
      (List.find?_isSome.2 ⟨(k, v), h, by simp⟩ : (m.entries.find? (·.1 = k)).isSome)
    have hk : e.1 = k := by simpa using List.find?_some he
    have : e = (k, v) := m.eq_of_mem_of_fst_eq (List.mem_of_find?_eq_some he) h hk
    simp [get?, he, this]

theorem mem_values_of_get? {m : SortedMap κ ν} {k : κ} {v : ν} (h : m.get? k = some v) :
    v ∈ m.values :=
  List.mem_map.2 ⟨(k, v), (get?_eq_some_iff m).1 h, rfl⟩

theorem mem_values_insert {m : SortedMap κ ν} {k : κ} {v x : ν} (h : x ∈ (m.insert k v).2.values) :
    x = v ∨ x ∈ m.values := by
  obtain ⟨e, he, rfl⟩ := List.mem_map.1 h
  rcases mem_insertList he with rfl | he
  · exact .inl rfl
  · exact .inr (List.mem_map.2 ⟨e, he, rfl⟩)

theorem mem_values_remove {m : SortedMap κ ν} {k : κ} {x : ν} (h : x ∈ (m.remove k).2.values) :
    x ∈ m.values := by
  obtain ⟨e, he, rfl⟩ := List.mem_map.1 h
  exact List.mem_map.2 ⟨e, (List.mem_filter.1 he).1, rfl⟩

theorem mem_values_retain {m : SortedMap κ ν} {p : κ → ν → Bool} {x : ν}
    (h : x ∈ (m.retain p).values) : x ∈ m.values := by
  obtain ⟨e, he, rfl⟩ := List.mem_map.1 h
  exact List.mem_map.2 ⟨e, (List.mem_filter.1 he).1, rfl⟩

/-- A value that removing another key leaves was there before. -/
theorem get?_remove_of_ne {m : SortedMap κ ν} {k k' : κ} (hk : k' ≠ k) :
    (m.remove k).2.get? k' = m.get? k' := by
  cases h : m.get? k' with
  | none =>
    cases h' : (m.remove k).2.get? k' with
    | none => rfl
    | some v =>
      obtain ⟨-, hmem⟩ := List.mem_filter.1 ((get?_eq_some_iff _).1 h')
      have := (get?_eq_some_iff m).2 (List.mem_filter.1 ((get?_eq_some_iff _).1 h')).1
      rw [h] at this
      cases this
  | some v =>
    exact (get?_eq_some_iff _).2 (List.mem_filter.2 ⟨(get?_eq_some_iff m).1 h, by simpa using hk⟩)

@[simp] theorem get?_remove_self (m : SortedMap κ ν) (k : κ) : (m.remove k).2.get? k = none := by
  cases h : (m.remove k).2.get? k with
  | none => rfl
  | some v => simpa using (List.mem_filter.1 ((get?_eq_some_iff _).1 h)).2

/-- A value under a key after `retain` was under it before. -/
theorem get?_of_retain {m : SortedMap κ ν} {p : κ → ν → Bool} {k : κ} {v : ν}
    (h : (m.retain p).get? k = some v) : m.get? k = some v :=
  (get?_eq_some_iff m).2 ((List.mem_filter.1 ((get?_eq_some_iff _).1 h)).1)

@[simp] theorem values_empty : (empty : SortedMap κ ν).values = [] := rfl

/-- Take the pair with the least key, as `BTreeMap::pop_first` does. -/
def popFirst? (m : SortedMap κ ν) : Option ((κ × ν) × SortedMap κ ν) :=
  match m with
  | ⟨[], _⟩ => none
  | ⟨x :: rest, h⟩ => some (x, ⟨rest, (List.pairwise_cons.1 h).2⟩)

theorem popFirst?_eq_some {m m' : SortedMap κ ν} {x : κ × ν} (h : m.popFirst? = some (x, m')) :
    m.entries = x :: m'.entries := by
  obtain ⟨_ | ⟨y, rest⟩, _⟩ := m
  · cases h
  · cases h
    rfl

theorem popFirst?_eq_none {m : SortedMap κ ν} (h : m.popFirst? = none) : m.entries = [] := by
  obtain ⟨_ | ⟨y, rest⟩, _⟩ := m
  · rfl
  · cases h

/-- Move the pairs of `m'` into `m`, each replacing the pair of `m` with its key, as
`BTreeMap::append` does. -/
def append (m m' : SortedMap κ ν) : SortedMap κ ν :=
  m'.entries.foldl (fun acc e => (acc.insert e.1 e.2).2) m

/-- A map whose keys all come before those of another is appended to by concatenation. -/
theorem append_entries {m m' : SortedMap κ ν}
    (h : ∀ x ∈ m.entries, ∀ y ∈ m'.entries, x.1 < y.1) :
    (m.append m').entries = m.entries ++ m'.entries := by
  obtain ⟨l, hl⟩ := m'
  simp only [append] at h ⊢
  induction l generalizing m with
  | nil => simp
  | cons y ys ih =>
    obtain ⟨hy, hys⟩ := List.pairwise_cons.1 hl
    have hins : (m.insert y.1 y.2).2.entries = m.entries ++ [y] := by
      simp only [insert]
      rw [insertList_of_forall_gt fun x hx => h x hx y List.mem_cons_self]
    rw [List.foldl_cons, ih hys, hins, List.append_assoc, List.singleton_append]
    intro x hx z hz
    rw [hins] at hx
    rcases List.mem_append.1 hx with hx | hx
    · exact h x hx z (List.mem_cons_of_mem _ hz)
    · rw [List.mem_singleton.1 hx]
      exact hy z hz

/-- Maps are equal when their pairs are. -/
theorem ext {m m' : SortedMap κ ν} (h : m.entries = m'.entries) : m = m' := by
  cases m
  cases m'
  cases h
  rfl

/-- The keys before a pair of a map are below its key, and those after it above. -/
theorem keys_around {m : SortedMap κ ν} {P l : List (κ × ν)} {k : κ} {v : ν}
    (hm : m.entries = P ++ (k, v) :: l) : (∀ x ∈ P, x.1 < k) ∧ ∀ x ∈ l, k < x.1 := by
  have hs := m.sorted
  rw [hm, List.pairwise_append, List.pairwise_cons] at hs
  exact ⟨fun x hx => hs.2.2 x hx _ List.mem_cons_self, hs.2.1.1⟩

/-- Inserting a key between the keys of a map's two parts puts it there. -/
theorem insert_between {m : SortedMap κ ν} {P l : List (κ × ν)} {k : κ} (v : ν)
    (hm : m.entries = P ++ l) (hP : ∀ x ∈ P, x.1 < k) (hl : ∀ x ∈ l, k < x.1) :
    (m.insert k v).1 = none ∧ (m.insert k v).2.entries = P ++ (k, v) :: l := by
  simp only [insert, hm, insertList_append hP, insertList_of_forall_lt hl, and_self]

/-- Inserting under a key of the map replaces its value in place. -/
theorem insert_at {m : SortedMap κ ν} {P l : List (κ × ν)} {k : κ} {v' : ν} (v : ν)
    (hm : m.entries = P ++ (k, v') :: l) :
    (m.insert k v).1 = some v' ∧ (m.insert k v).2.entries = P ++ (k, v) :: l := by
  simp only [insert, hm, insertList_append (keys_around hm).1, insertList_cons_self, and_self]

/-- Removing a key of the map takes its pair out. -/
theorem remove_at {m : SortedMap κ ν} {P l : List (κ × ν)} {k : κ} {v : ν}
    (hm : m.entries = P ++ (k, v) :: l) :
    (m.remove k).1 = some v ∧ (m.remove k).2.entries = P ++ l := by
  obtain ⟨hP, hl⟩ := keys_around hm
  refine ⟨?_, ?_⟩
  · rw [remove, get?_eq_some_iff, hm]
    simp
  · simp only [remove, hm, List.filter_append, List.filter_cons, ne_eq, not_true_eq_false,
      decide_false, Bool.false_eq_true, if_false]
    rw [List.filter_eq_self.2 fun x hx => by simpa using (hP x hx).ne,
      List.filter_eq_self.2 fun x hx => by simpa using (hl x hx).ne']

theorem isEmpty_iff (m : SortedMap κ ν) : m.isEmpty = true ↔ m.values = [] := by
  simp [isEmpty, values]

theorem isEmpty_eq_false_of_get? {m : SortedMap κ ν} {k : κ} {v : ν} (h : m.get? k = some v) :
    m.isEmpty = false := by
  cases hm : m.isEmpty with
  | false => rfl
  | true =>
    have hv := mem_values_of_get? h
    rw [(isEmpty_iff m).1 hm] at hv
    cases hv

end SortedMap
