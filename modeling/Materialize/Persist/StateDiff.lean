import Mathlib
import Materialize.Lib.SortedMap

/-!
# Diffs of ordered maps

`src/persist-client/src/internal/state_diff.rs` sends a persist state to its followers as the
diff between two versions of each of its fields. A field that is an ordered map is diffed by
`diff_field_sorted_iter`, a merge of the two maps' pairs in key order that emits a deletion, an
insertion or an update per key that differs, and is rebuilt by `apply_diffs_map`, which checks
each diff against the map it is applied to.

For keys with a total order and values whose equality is reflexive, applying the diff from `a`
to `b` to `a` gives `b` (`applyDiffsMap_diffFieldSortedIter`); the diffs come in increasing key
order and hold no update from a value to an equal one. The checks of `apply_diff_map` compare
values with their `PartialEq`, so for a value type whose equality is not reflexive, such as `f64`
with a NaN, the diff of a map with itself is an update that the check then rejects
(`diff_apply_nan_fails`).
-/

namespace Materialize.Persist

/-- `StateFieldValDiff`. -/
inductive StateFieldValDiff (V : Type)
  | insert (toVal : V)
  | update (fromVal toVal : V)
  | delete (fromVal : V)

/-- `StateFieldDiff`. -/
structure StateFieldDiff (K V : Type) where
  key : K
  val : StateFieldValDiff V

section Diff

variable {K V : Type} [LinearOrder K] [BEq V]

/-- `diff_field_sorted_iter` over the pairs of two maps in key order: a key only in `from` is
deleted, a key only in `to` inserted, and a key in both is updated where the values differ. -/
def diffFieldSortedIter : List (K × V) → List (K × V) → List (StateFieldDiff K V)
  | [], [] => []
  | (fk, fv) :: fromRest, (tk, tv) :: toRest =>
    match compare fk tk with
    | .lt => ⟨fk, .delete fv⟩ :: diffFieldSortedIter fromRest ((tk, tv) :: toRest)
    | .gt => ⟨tk, .insert tv⟩ :: diffFieldSortedIter ((fk, fv) :: fromRest) toRest
    | .eq =>
      (if fv != tv then [⟨fk, .update fv tv⟩] else []) ++ diffFieldSortedIter fromRest toRest
  | [], (tk, tv) :: toRest => ⟨tk, .insert tv⟩ :: diffFieldSortedIter [] toRest
  | (fk, fv) :: fromRest, [] => ⟨fk, .delete fv⟩ :: diffFieldSortedIter fromRest []
termination_by fromEntries toEntries => fromEntries.length + toEntries.length

/-- `apply_diff_map`: an insertion must find no value, an update and a deletion the value they
name, compared with the values' `PartialEq`. The messages leave out the values' `Debug` text. -/
def applyDiffMap (name : String) (diff : StateFieldDiff K V) (map : SortedMap K V) :
    Except String (SortedMap K V) :=
  match diff.val with
  | .insert toVal =>
    let (prev, map) := map.insert diff.key toVal
    if prev.isSome then .error (name ++ " insert found existing value") else .ok map
  | .update fromVal toVal =>
    let (prev, map) := map.insert diff.key toVal
    if !(prev.any (· == fromVal)) then .error (name ++ " update didn't match") else .ok map
  | .delete fromVal =>
    let (prev, map) := map.remove diff.key
    if !(prev.any (· == fromVal)) then .error (name ++ " delete didn't match") else .ok map

/-- `apply_diffs_map`: the diffs in order, stopping at the first that fails. -/
def applyDiffsMap (name : String) (diffs : List (StateFieldDiff K V)) (map : SortedMap K V) :
    Except String (SortedMap K V) :=
  diffs.foldlM (fun map diff => applyDiffMap name diff map) map

/-! ### What the diffs are -/

/-- Every key of the diffs is a key of one of the two maps. -/
theorem key_mem_of_mem_diffFieldSortedIter {F T : List (K × V)} {d : StateFieldDiff K V}
    (h : d ∈ diffFieldSortedIter F T) : d.key ∈ F.map (·.1) ∨ d.key ∈ T.map (·.1) := by
  fun_induction diffFieldSortedIter F T with
  | case1 => cases h
  | case2 fk fv _ tk tv _ _ ih | case3 fk fv _ tk tv _ _ ih =>
    rcases List.mem_cons.1 h with rfl | h
    · simp
    · rcases ih h with h | h <;> simp_all
  | case4 fk fv fromRest tk tv toRest _ ih =>
    rcases List.mem_append.1 h with h | h
    · split at h
      · rw [List.mem_singleton.1 h]
        simp
      · cases h
    · rcases ih h with h | h <;> simp_all
  | case5 tk tv _ ih | case6 tk tv _ ih =>
    rcases List.mem_cons.1 h with rfl | h
    · simp
    · rcases ih h with h | h <;> simp_all

/-- The diffs of two maps come in strictly increasing key order. -/
theorem diffFieldSortedIter_sorted {F T : List (K × V)} (hF : F.Pairwise (·.1 < ·.1))
    (hT : T.Pairwise (·.1 < ·.1)) :
    ((diffFieldSortedIter F T).map (·.key)).Pairwise (· < ·) := by
  -- a key emitted for the heads is below every key of the diffs of the tails
  have above : ∀ {k : K} {F' T' : List (K × V)}, (∀ x ∈ F', k < x.1) → (∀ x ∈ T', k < x.1) →
      ∀ d ∈ diffFieldSortedIter F' T', k < d.key := by
    intro k F' T' hF' hT' d hd
    rcases key_mem_of_mem_diffFieldSortedIter hd with h | h
    · obtain ⟨x, hx, hxk⟩ := List.mem_map.1 h
      exact hxk ▸ hF' x hx
    · obtain ⟨x, hx, hxk⟩ := List.mem_map.1 h
      exact hxk ▸ hT' x hx
  fun_induction diffFieldSortedIter F T with
  | case1 => simp
  | case2 fk fv fromRest tk tv toRest hlt ih =>
    obtain ⟨hfk, hF'⟩ := List.pairwise_cons.1 hF
    have hlt' : fk < tk := compare_lt_iff_lt.1 hlt
    obtain ⟨htk, -⟩ := List.pairwise_cons.1 hT
    refine List.pairwise_cons.2 ⟨?_, ih hF' hT⟩
    intro k hk
    obtain ⟨d, hd, rfl⟩ := List.mem_map.1 hk
    refine above hfk ?_ d hd
    intro x hx
    rcases List.mem_cons.1 hx with rfl | hx
    · exact hlt'
    · exact hlt'.trans (htk x hx)
  | case3 fk fv fromRest tk tv toRest hgt ih =>
    obtain ⟨htk, hT'⟩ := List.pairwise_cons.1 hT
    have hgt' : tk < fk := compare_gt_iff_gt.1 hgt
    obtain ⟨hfk, -⟩ := List.pairwise_cons.1 hF
    refine List.pairwise_cons.2 ⟨?_, ih hF hT'⟩
    intro k hk
    obtain ⟨d, hd, rfl⟩ := List.mem_map.1 hk
    refine above ?_ htk d hd
    intro x hx
    rcases List.mem_cons.1 hx with rfl | hx
    · exact hgt'
    · exact hgt'.trans (hfk x hx)
  | case4 fk fv fromRest tk tv toRest heq ih =>
    obtain ⟨hfk, hF'⟩ := List.pairwise_cons.1 hF
    obtain ⟨htk, hT'⟩ := List.pairwise_cons.1 hT
    have heq' : fk = tk := compare_eq_iff_eq.1 heq
    subst heq'
    rw [List.map_append]
    refine List.pairwise_append.2 ⟨?_, ih hF' hT', ?_⟩
    · split <;> simp
    · intro k hk k' hk'
      obtain ⟨d, hd, rfl⟩ := List.mem_map.1 hk'
      have hk : k = fk := by split at hk <;> simp_all
      exact hk ▸ above hfk htk d hd
  | case5 tk tv toRest ih =>
    obtain ⟨htk, hT'⟩ := List.pairwise_cons.1 hT
    refine List.pairwise_cons.2 ⟨?_, ih hF hT'⟩
    intro k hk
    obtain ⟨d, hd, rfl⟩ := List.mem_map.1 hk
    exact above (by simp) htk d hd
  | case6 fk fv fromRest ih =>
    obtain ⟨hfk, hF'⟩ := List.pairwise_cons.1 hF
    refine List.pairwise_cons.2 ⟨?_, ih hF' hT⟩
    intro k hk
    obtain ⟨d, hd, rfl⟩ := List.mem_map.1 hk
    exact above hfk (by simp) d hd

/-- An update is emitted only between values that are not equal. -/
theorem update_ne_of_mem_diffFieldSortedIter {F T : List (K × V)} {d : StateFieldDiff K V}
    (h : d ∈ diffFieldSortedIter F T) {a b : V} (hd : d.val = .update a b) : (a == b) = false := by
  fun_induction diffFieldSortedIter F T with
  | case1 => cases h
  | case2 _ _ _ _ _ _ _ ih | case3 _ _ _ _ _ _ _ ih | case5 _ _ _ ih | case6 _ _ _ ih =>
    rcases List.mem_cons.1 h with rfl | h
    · cases hd
    · exact ih h
  | case4 fk fv fromRest tk tv toRest _ ih =>
    rcases List.mem_append.1 h with h | h
    · split at h
      · rename_i hne
        rw [List.mem_singleton.1 h] at hd
        cases hd
        rw [bne, Bool.not_eq_true'] at hne
        exact hne
      · cases h
    · exact ih h

/-! ### Applying the diffs -/

theorem applyDiffsMap_cons_of_ok {name : String} {d : StateFieldDiff K V}
    {ds : List (StateFieldDiff K V)} {map map₁ : SortedMap K V}
    (h : applyDiffMap name d map = .ok map₁) :
    applyDiffsMap name (d :: ds) map = applyDiffsMap name ds map₁ := by
  simp [applyDiffsMap, List.foldlM_cons, h, bind, Except.bind]

/-- An insertion of a key between the keys of the map's two parts succeeds. -/
theorem applyDiffMap_insert (name : String) {map : SortedMap K V} {P l : List (K × V)} {k : K}
    (v : V) (hm : map.entries = P ++ l) (hP : ∀ x ∈ P, x.1 < k) (hl : ∀ x ∈ l, k < x.1) :
    ∃ map', applyDiffMap name ⟨k, .insert v⟩ map = .ok map' ∧ map'.entries = P ++ (k, v) :: l := by
  obtain ⟨hprev, hentries⟩ := SortedMap.insert_between v hm hP hl
  exact ⟨_, by simp [applyDiffMap, hprev], hentries⟩

section Lawful

variable [LawfulBEq V]

/-- An update from the value the map holds succeeds: the check compares the value with itself. -/
theorem applyDiffMap_update (name : String) {map : SortedMap K V} {P l : List (K × V)} {k : K}
    {v : V} (v' : V) (hm : map.entries = P ++ (k, v) :: l) :
    ∃ map', applyDiffMap name ⟨k, .update v v'⟩ map = .ok map' ∧
      map'.entries = P ++ (k, v') :: l := by
  obtain ⟨hprev, hentries⟩ := SortedMap.insert_at v' hm
  exact ⟨_, by simp [applyDiffMap, hprev], hentries⟩

/-- A deletion of the value the map holds succeeds. -/
theorem applyDiffMap_delete (name : String) {map : SortedMap K V} {P l : List (K × V)} {k : K}
    {v : V} (hm : map.entries = P ++ (k, v) :: l) :
    ∃ map', applyDiffMap name ⟨k, .delete v⟩ map = .ok map' ∧ map'.entries = P ++ l := by
  obtain ⟨hprev, hentries⟩ := SortedMap.remove_at hm
  exact ⟨_, by simp [applyDiffMap, hprev], hentries⟩

/-- The run lemma of the merge: with `P` the pairs already rebuilt and below every key still to
come, the diffs of `F` to `T`, applied to `P ++ F`, give `P ++ T`. -/
theorem applyDiffsMap_diffFieldSortedIter_of_prefix (name : String) {F T : List (K × V)}
    (hF : F.Pairwise (·.1 < ·.1)) (hT : T.Pairwise (·.1 < ·.1)) {P : List (K × V)}
    {map : SortedMap K V} (hm : map.entries = P ++ F) (hPF : ∀ x ∈ P, ∀ y ∈ F, x.1 < y.1)
    (hPT : ∀ x ∈ P, ∀ y ∈ T, x.1 < y.1) :
    ∃ map', applyDiffsMap name (diffFieldSortedIter F T) map = .ok map' ∧
      map'.entries = P ++ T := by
  fun_induction diffFieldSortedIter F T generalizing P map with
  | case1 => exact ⟨map, rfl, by simpa using hm⟩
  | case2 fk fv fromRest tk tv toRest hlt ih =>
    -- the least key is only in `from`: it is deleted
    obtain ⟨map₁, h₁, hm₁⟩ := applyDiffMap_delete name hm
    obtain ⟨map', h', hm'⟩ := ih (List.pairwise_cons.1 hF).2 hT hm₁
      (fun x hx y hy => hPF x hx y (List.mem_cons_of_mem _ hy)) hPT
    exact ⟨map', by rw [applyDiffsMap_cons_of_ok h₁, h'], hm'⟩
  | case3 fk fv fromRest tk tv toRest hgt ih =>
    -- the least key is only in `to`: it is inserted, and joins the rebuilt pairs
    have hgt' : tk < fk := compare_gt_iff_gt.1 hgt
    obtain ⟨hfk, -⟩ := List.pairwise_cons.1 hF
    obtain ⟨htk, hT'⟩ := List.pairwise_cons.1 hT
    have habove : ∀ x ∈ (fk, fv) :: fromRest, tk < x.1 := by
      intro x hx
      rcases List.mem_cons.1 hx with rfl | hx
      · exact hgt'
      · exact hgt'.trans (hfk x hx)
    obtain ⟨map₁, h₁, hm₁⟩ := applyDiffMap_insert name tv hm
      (fun x hx => hPT x hx _ List.mem_cons_self) habove
    have hm₁' : map₁.entries = (P ++ [(tk, tv)]) ++ (fk, fv) :: fromRest := by simp [hm₁]
    obtain ⟨map', h', hm'⟩ := ih hF hT' hm₁'
      (fun x hx y hy => by
        rcases List.mem_append.1 hx with hx | hx
        · exact hPF x hx y hy
        · rw [List.mem_singleton.1 hx]
          exact habove y hy)
      (fun x hx y hy => by
        rcases List.mem_append.1 hx with hx | hx
        · exact hPT x hx y (List.mem_cons_of_mem _ hy)
        · rw [List.mem_singleton.1 hx]
          exact htk y hy)
    exact ⟨map', by rw [applyDiffsMap_cons_of_ok h₁, h'], by simp [hm']⟩
  | case4 fk fv fromRest tk tv toRest heq ih =>
    -- the least key is in both: it takes `to`'s value, by an update where the values differ
    have heq' : fk = tk := compare_eq_iff_eq.1 heq
    subst heq'
    obtain ⟨hfk, hF'⟩ := List.pairwise_cons.1 hF
    obtain ⟨htk, hT'⟩ := List.pairwise_cons.1 hT
    have hPF' : ∀ x ∈ P ++ [(fk, tv)], ∀ y ∈ fromRest, x.1 < y.1 := by
      intro x hx y hy
      rcases List.mem_append.1 hx with hx | hx
      · exact hPF x hx y (List.mem_cons_of_mem _ hy)
      · rw [List.mem_singleton.1 hx]
        exact hfk y hy
    have hPT' : ∀ x ∈ P ++ [(fk, tv)], ∀ y ∈ toRest, x.1 < y.1 := by
      intro x hx y hy
      rcases List.mem_append.1 hx with hx | hx
      · exact hPT x hx y (List.mem_cons_of_mem _ hy)
      · rw [List.mem_singleton.1 hx]
        exact htk y hy
    split
    · obtain ⟨map₁, h₁, hm₁⟩ := applyDiffMap_update name tv hm
      have hm₁' : map₁.entries = (P ++ [(fk, tv)]) ++ fromRest := by simp [hm₁]
      obtain ⟨map', h', hm'⟩ := ih hF' hT' hm₁' hPF' hPT'
      exact ⟨map', by rw [List.singleton_append, applyDiffsMap_cons_of_ok h₁, h'], by simp [hm']⟩
    · rename_i hsame
      have hv : fv = tv := by simpa [bne] using hsame
      subst hv
      have hm' : map.entries = (P ++ [(fk, fv)]) ++ fromRest := by simp [hm]
      obtain ⟨map', h', hm'⟩ := ih hF' hT' hm' hPF' hPT'
      exact ⟨map', by rw [List.nil_append, h'], by simp [hm']⟩
  | case5 tk tv toRest ih =>
    obtain ⟨htk, hT'⟩ := List.pairwise_cons.1 hT
    obtain ⟨map₁, h₁, hm₁⟩ := applyDiffMap_insert name tv hm
      (fun x hx => hPT x hx _ List.mem_cons_self) (by simp)
    have hm₁' : map₁.entries = (P ++ [(tk, tv)]) ++ [] := by simp [hm₁]
    obtain ⟨map', h', hm'⟩ := ih hF hT' hm₁' (by simp)
      (fun x hx y hy => by
        rcases List.mem_append.1 hx with hx | hx
        · exact hPT x hx y (List.mem_cons_of_mem _ hy)
        · rw [List.mem_singleton.1 hx]
          exact htk y hy)
    exact ⟨map', by rw [applyDiffsMap_cons_of_ok h₁, h'], by simp [hm']⟩
  | case6 fk fv fromRest ih =>
    obtain ⟨map₁, h₁, hm₁⟩ := applyDiffMap_delete name hm
    obtain ⟨map', h', hm'⟩ := ih (List.pairwise_cons.1 hF).2 hT hm₁
      (fun x hx y hy => hPF x hx y (List.mem_cons_of_mem _ hy)) hPT
    exact ⟨map', by rw [applyDiffsMap_cons_of_ok h₁, h'], hm'⟩

/-- Applying the diff from `a` to `b` to `a` gives `b`. -/
theorem applyDiffsMap_diffFieldSortedIter (name : String) (a b : SortedMap K V) :
    applyDiffsMap name (diffFieldSortedIter a.entries b.entries) a = .ok b := by
  have ha : a.entries = [] ++ a.entries := rfl
  obtain ⟨map', h, hm'⟩ := applyDiffsMap_diffFieldSortedIter_of_prefix name a.sorted b.sorted
    ha (by simp) (by simp)
  have hb : map' = b := SortedMap.ext (by simpa using hm')
  rw [h, hb]

/-- The diffs of two maps rebuild the second from the first, come in increasing key order and
hold no update from a value to an equal one. -/
theorem diff_field_sorted_round_trip (name : String) (a b : SortedMap K V) :
    applyDiffsMap name (diffFieldSortedIter a.entries b.entries) a = .ok b ∧
      ((diffFieldSortedIter a.entries b.entries).map (·.key)).Pairwise (· < ·) ∧
      ∀ d ∈ diffFieldSortedIter a.entries b.entries, ∀ x y, d.val = .update x y → x ≠ y := by
  refine ⟨applyDiffsMap_diffFieldSortedIter name a b,
    diffFieldSortedIter_sorted a.sorted b.sorted, ?_⟩
  intro d hd x y hxy
  exact ne_of_beq_false (update_ne_of_mem_diffFieldSortedIter hd hxy)

theorem diff_field_sorted_round_trip_nat :
    let a : SortedMap Nat Nat := ⟨[(1, 10), (2, 20)], by decide⟩
    let b : SortedMap Nat Nat := ⟨[(2, 21), (3, 30)], by decide⟩
    applyDiffsMap "rollups" (diffFieldSortedIter a.entries b.entries) a = .ok b ∧
      ((diffFieldSortedIter a.entries b.entries).map (·.key)).Pairwise (· < ·) ∧
      ∀ d ∈ diffFieldSortedIter a.entries b.entries, ∀ x y, d.val = .update x y → x ≠ y :=
  diff_field_sorted_round_trip "rollups" _ _

end Lawful

end Diff

/-! ### Values whose equality is not reflexive -/

/-- `f64` by its bits. -/
structure F64 where
  bits : UInt64

/-- The `PartialEq` of `f64`, IEEE 754 `==`: a NaN (all exponent bits set, fraction not zero)
equals nothing, itself included, and the two zeros are equal. -/
instance : BEq F64 where
  beq a b :=
    let magnitude (x : F64) := x.bits.toNat % 2 ^ 63
    let isNan (x : F64) := decide ((2 ^ 11 - 1) * 2 ^ 52 < magnitude x)
    !isNan a && !isNan b && (a.bits == b.bits || (magnitude a == 0 && magnitude b == 0))

/-- A map holding the quiet NaN: its diff with itself is an update of the NaN to itself, which
`apply_diff_map` then rejects. -/
theorem diff_apply_nan_fails :
    let a : SortedMap Nat F64 := ⟨[(0, ⟨0x7FF8000000000000⟩)], by simp⟩
    applyDiffsMap "rollups" (diffFieldSortedIter a.entries a.entries) a =
      .error "rollups update didn't match" := by
  intro a
  have hnan : ((⟨0x7FF8000000000000⟩ : F64) == ⟨0x7FF8000000000000⟩) = false := by decide
  have hdiff : diffFieldSortedIter a.entries a.entries =
      [⟨0, .update ⟨0x7FF8000000000000⟩ ⟨0x7FF8000000000000⟩⟩] := by
    have hcmp : compare (0 : Nat) 0 = .eq := rfl
    simp only [a, diffFieldSortedIter, hcmp, bne, hnan]
    rfl
  rw [hdiff]
  rfl

end Materialize.Persist
