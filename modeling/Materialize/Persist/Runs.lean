import Mathlib
import Materialize.Persist.Compact

/-!
# Replacing runs of a hollow batch

`SpineBatch::construct_batch_with_runs_replaced` (`persist-client/src/internal/trace.rs`) cuts the
runs with the given ids out of a hollow batch and appends the runs of a compaction's output. It
lays the runs' parts end to end and recomputes the run splits from the running count of parts.

Read back by `HollowBatch::runs`, a batch laid out that way gives the runs it was built from when
none of them is empty (`HollowBatch.allRuns_ofRuns`), and its splits are what `HollowBatch::new`
asks for (`HollowBatch.ofRuns_wf`). The runs `HollowBatch::runs` returns are never empty
(`HollowBatch.allRuns_ne_nil`), so the batch the surgery builds is well formed, holds the
original's other runs followed by the replacement's, and its parts' sum of diffs moves by the
runs it replaced (`construct_batch_with_runs_replaced_wf`).
-/

namespace Materialize.Persist

variable {A P M D : Type}

/-- What `HollowBatch::new` asks of a batch: strictly increasing run splits, each positive and an
index into the parts, and one run metadata for each run. The source checks the count only when
there are parts; with no parts there is no run for a metadata to describe. -/
structure HollowBatch.Wf (b : HollowBatch A P M) : Prop where
  splits_lt : b.runSplits.Pairwise (· < ·)
  splits_pos : ∀ i ∈ b.runSplits, 0 < i
  splits_lt_parts : ∀ i ∈ b.runSplits, i < b.parts.length
  runMeta_length : b.runMeta.length = if b.parts = [] then 0 else b.runSplits.length + 1

/-! ## Runs laid end to end -/

/-- The ends of runs laid end to end from `start`. -/
def runEnds (start : Nat) : List (List P) → List Nat
  | [] => []
  | parts :: runs => (start + parts.length) :: runEnds (start + parts.length) runs

/-- The hollow batch whose parts are the runs' parts laid end to end, split where
`construct_batch_with_runs_replaced` splits them. -/
def HollowBatch.ofRuns (desc : Description A) (len : Nat) (runs : List (M × List P)) :
    HollowBatch A P M :=
  { desc, parts := runs.flatMap Prod.snd, len, runMeta := runs.map Prod.fst,
    runSplits := runSplitsOf (runs.map Prod.fst).length 0 0 (runs.map Prod.snd) }

@[simp]
theorem length_runEnds (start : Nat) (runs : List (List P)) :
    (runEnds start runs).length = runs.length := by
  induction runs generalizing start with
  | nil => rfl
  | cons parts runs ih => simp [runEnds, ih]

theorem lt_of_mem_runEnds {start : Nat} {runs : List (List P)} (hne : ∀ r ∈ runs, r ≠ [])
    {e : Nat} (he : e ∈ runEnds start runs) : start < e := by
  induction runs generalizing start with
  | nil => cases he
  | cons parts runs ih =>
    have hpos : 0 < parts.length := List.length_pos_iff.2 (hne parts List.mem_cons_self)
    rcases List.mem_cons.1 he with rfl | he
    · omega
    · have := ih (fun r hr => hne r (List.mem_cons_of_mem _ hr)) he
      omega

/-- The ends of nonempty runs rise strictly from where they start. -/
theorem runEnds_pairwise {runs : List (List P)} (hne : ∀ r ∈ runs, r ≠ []) (start : Nat) :
    (start :: runEnds start runs).Pairwise (· < ·) := by
  induction runs generalizing start with
  | nil => simp [runEnds]
  | cons parts runs ih =>
    have hne' : ∀ r ∈ runs, r ≠ [] := fun r hr => hne r (List.mem_cons_of_mem _ hr)
    refine List.pairwise_cons.2 ⟨fun e he => lt_of_mem_runEnds hne he, ?_⟩
    exact ih hne' _

/-- The loop of `construct_batch_with_runs_replaced` writes the end of each nonempty run but the
last; the last ends at the number of parts. -/
theorem runSplitsOf_append {n : Nat} :
    ∀ (runs : List (List P)) (i pointer : Nat), (∀ r ∈ runs, r ≠ []) → runs ≠ [] →
      i + runs.length = n →
      runSplitsOf n i pointer runs ++ [pointer + runs.flatten.length] = runEnds pointer runs
  | [], _, _, _, hnil, _ => absurd rfl hnil
  | [parts], i, pointer, hne, _, hn => by
    have hparts : parts.isEmpty = false := by simpa using hne parts List.mem_cons_self
    have hi : ¬ i < n - 1 := by simp at hn; omega
    simp [runSplitsOf, hparts, hi, runEnds]
  | parts :: next :: runs, i, pointer, hne, _, hn => by
    have hparts : parts.isEmpty = false := by simpa using hne parts List.mem_cons_self
    have hi : i < n - 1 := by simp at hn; omega
    have ih := runSplitsOf_append (n := n) (next :: runs) (i + 1) (pointer + parts.length)
      (fun r hr => hne r (List.mem_cons_of_mem _ hr))
      (List.cons_ne_nil _ _) (by simp at hn ⊢; omega)
    have hstep : runSplitsOf n i pointer (parts :: next :: runs) =
        [pointer + parts.length] ++ runSplitsOf n (i + 1) (pointer + parts.length) (next :: runs) := by
      rw [runSplitsOf, hparts]
      simp [hi]
    rw [hstep, List.append_assoc, List.flatten_cons, List.length_append, ← Nat.add_assoc, ih]
    rfl

/-- Ranges between rising ends are nonempty and end at one of the ends. -/
theorem mem_runRanges {start : Nat} {ends : List Nat} (h : (start :: ends).Pairwise (· < ·))
    {rg : Nat × Nat} (hrg : rg ∈ runRanges start ends) : rg.1 < rg.2 ∧ rg.2 ∈ ends := by
  induction ends generalizing start with
  | nil => cases hrg
  | cons e ends ih =>
    rcases List.mem_cons.1 hrg with rfl | hrg
    · exact ⟨List.rel_of_pairwise_cons h List.mem_cons_self, List.mem_cons_self⟩
    · obtain ⟨hlt, hmem⟩ := ih (List.Pairwise.of_cons h) hrg
      exact ⟨hlt, List.mem_cons_of_mem _ hmem⟩

@[simp]
theorem length_runRanges (start : Nat) (ends : List Nat) :
    (runRanges start ends).length = ends.length := by
  induction ends generalizing start with
  | nil => rfl
  | cons e ends ih => simp [runRanges, ih]

/-- `HollowBatch::runs` skips no range between rising ends. -/
theorem filter_runRanges {start : Nat} {ends : List Nat} (h : (start :: ends).Pairwise (· < ·)) :
    (runRanges start ends).filter (fun rg => decide (rg.1 < rg.2)) = runRanges start ends :=
  List.filter_eq_self.2 fun rg hrg => by simpa using (mem_runRanges h hrg).1

/-- Read from the parts of runs laid end to end after `pre`, the ranges of their ends give the
runs back. -/
theorem zipRuns_runEnds :
    ∀ (runs : List (M × List P)) (pre : List P),
      zipRuns (pre ++ runs.flatMap Prod.snd) (runs.map Prod.fst)
        (runRanges pre.length (runEnds pre.length (runs.map Prod.snd))) = (runs, false)
  | [], pre => by simp [runEnds, runRanges, zipRuns]
  | (m, parts) :: runs, pre => by
    have hslice : slice (pre ++ (parts ++ runs.flatMap Prod.snd)) pre.length
        (pre.length + parts.length) = some parts := by
      simp [slice]
    have ih := zipRuns_runEnds runs (pre ++ parts)
    simp only [List.length_append, List.append_assoc] at ih
    simp only [List.flatMap_cons, List.map_cons, runEnds, runRanges, zipRuns, hslice, ih]

theorem map_snd_ne_nil {runs : List (M × List P)} (hne : ∀ r ∈ runs, r.2 ≠ []) :
    ∀ r ∈ runs.map Prod.snd, r ≠ [] := by
  intro r hr
  obtain ⟨x, hx, rfl⟩ := List.mem_map.1 hr
  exact hne x hx

/-- The splits of a batch laid out from nonempty runs, closed by its number of parts, are the
runs' ends. -/
theorem HollowBatch.ofRuns_ends (desc : Description A) (len : Nat) {runs : List (M × List P)}
    (hne : ∀ r ∈ runs, r.2 ≠ []) (hnil : runs ≠ []) :
    (HollowBatch.ofRuns desc len runs).runSplits ++
        [(HollowBatch.ofRuns desc len runs).parts.length] = runEnds 0 (runs.map Prod.snd) := by
  have h := runSplitsOf_append (n := (runs.map Prod.fst).length) (runs.map Prod.snd) 0 0
    (map_snd_ne_nil hne) (by simpa using hnil) (by simp)
  simpa [HollowBatch.ofRuns, List.flatMap_def] using h

/-- A batch laid out from nonempty runs reads back as those runs. -/
theorem HollowBatch.allRuns_ofRuns (desc : Description A) (len : Nat) {runs : List (M × List P)}
    (hne : ∀ r ∈ runs, r.2 ≠ []) : (HollowBatch.ofRuns desc len runs).allRuns = some runs := by
  by_cases hnil : runs = []
  · subst hnil
    rfl
  have hz := zipRuns_runEnds runs []
  simp only [List.nil_append, List.length_nil] at hz
  simp only [HollowBatch.allRuns, HollowBatch.runs, HollowBatch.ofRuns_ends desc len hne hnil,
    filter_runRanges (runEnds_pairwise (map_snd_ne_nil hne) 0)]
  simp only [HollowBatch.ofRuns, hz]
  rfl

/-! ## Well-formed batches -/

/-- A batch with parts is well formed when its splits rise strictly from `0` to its number of
parts and it has one metadata more than splits. -/
theorem HollowBatch.Wf.of_pairwise {b : HollowBatch A P M} (hp : b.parts ≠ [])
    (h : (0 :: (b.runSplits ++ [b.parts.length])).Pairwise (· < ·))
    (hm : b.runMeta.length = b.runSplits.length + 1) : b.Wf := by
  obtain ⟨hpos, h⟩ := List.pairwise_cons.1 h
  obtain ⟨hsplits, -, hlast⟩ := List.pairwise_append.1 h
  refine ⟨hsplits, fun i hi => hpos i (List.mem_append_left _ hi),
    fun i hi => hlast i hi _ (List.mem_singleton_self _), ?_⟩
  rw [if_neg hp, hm]

/-- The splits of a well-formed batch with parts rise strictly from `0` to its number of parts. -/
theorem HollowBatch.Wf.pairwise {b : HollowBatch A P M} (h : b.Wf) (hp : b.parts ≠ []) :
    (0 :: (b.runSplits ++ [b.parts.length])).Pairwise (· < ·) := by
  refine List.pairwise_cons.2 ⟨fun i hi => ?_, List.pairwise_append.2 ⟨h.splits_lt, by simp,
    fun i hi j hj => (List.mem_singleton.1 hj) ▸ h.splits_lt_parts i hi⟩⟩
  rcases List.mem_append.1 hi with hi | hi
  · exact h.splits_pos i hi
  · rw [List.mem_singleton.1 hi]
    exact List.length_pos_iff.2 hp

/-- A batch without parts is well formed only without splits and metadata. -/
theorem HollowBatch.Wf.of_parts_eq_nil {b : HollowBatch A P M} (h : b.Wf) (hp : b.parts = []) :
    b.runSplits = [] ∧ b.runMeta = [] := by
  have hsplits : b.runSplits = [] := List.eq_nil_iff_forall_not_mem.2 fun i hi => by
    simpa [hp] using h.splits_lt_parts i hi
  exact ⟨hsplits, List.eq_nil_of_length_eq_zero (by simpa [hp] using h.runMeta_length)⟩

theorem HollowBatch.Wf.splitsSorted {b : HollowBatch A P M} (h : b.Wf) : b.SplitsSorted := by
  by_cases hp : b.parts = []
  · simp [HollowBatch.SplitsSorted, (h.of_parts_eq_nil hp).1]
  · exact ((List.pairwise_cons.1 (h.pairwise hp)).2).imp le_of_lt

/-- A batch laid out from nonempty runs is well formed. -/
theorem HollowBatch.ofRuns_wf (desc : Description A) (len : Nat) {runs : List (M × List P)}
    (hne : ∀ r ∈ runs, r.2 ≠ []) : (HollowBatch.ofRuns desc len runs).Wf := by
  by_cases hnil : runs = []
  · subst hnil
    exact ⟨List.Pairwise.nil, by simp [HollowBatch.ofRuns, runSplitsOf],
      by simp [HollowBatch.ofRuns, runSplitsOf], by simp [HollowBatch.ofRuns]⟩
  have hends := HollowBatch.ofRuns_ends desc len hne hnil
  obtain ⟨r, hr⟩ := List.exists_mem_of_ne_nil runs hnil
  have hp : (HollowBatch.ofRuns desc len runs).parts ≠ [] := by
    simpa [HollowBatch.ofRuns] using ⟨r.1, r.2, hr, hne r hr⟩
  refine HollowBatch.Wf.of_pairwise hp (hends ▸ runEnds_pairwise (map_snd_ne_nil hne) 0) ?_
  have hlen := congrArg List.length hends
  simp only [List.length_append, List.length_singleton, length_runEnds, List.length_map] at hlen
  rw [hlen]
  simp [HollowBatch.ofRuns]

/-- `zip_eq` reads to the end when there is one metadata per range and every range lies in the
parts. -/
theorem zipRuns_snd_eq_false {parts : List P} :
    ∀ (metas : List M) (ranges : List (Nat × Nat)), metas.length = ranges.length →
      (∀ rg ∈ ranges, rg.1 ≤ rg.2 ∧ rg.2 ≤ parts.length) → (zipRuns parts metas ranges).2 = false
  | [], [], _, _ => rfl
  | m :: metas, (start, stop) :: ranges, hlen, hin => by
    have hslice : slice parts start stop = some ((parts.drop start).take (stop - start)) :=
      if_pos (hin _ List.mem_cons_self)
    have ih := zipRuns_snd_eq_false metas ranges (by simpa using hlen)
      (fun rg hrg => hin rg (List.mem_cons_of_mem _ hrg))
    simpa only [zipRuns, hslice] using ih
  | [], _ :: _, hlen, _ | _ :: _, [], hlen, _ => by simp at hlen

/-- The runs of a well-formed batch can be read: `HollowBatch::runs` does not panic. -/
theorem HollowBatch.Wf.allRuns {b : HollowBatch A P M} (h : b.Wf) :
    ∃ runs, b.allRuns = some runs := by
  by_cases hp : b.parts = []
  · obtain ⟨hs, hm⟩ := h.of_parts_eq_nil hp
    exact ⟨[], by simp [HollowBatch.allRuns, HollowBatch.runs, hp, hs, hm, runRanges, zipRuns]⟩
  have hpw := h.pairwise hp
  have hz : (zipRuns b.parts b.runMeta (runRanges 0 (b.runSplits ++ [b.parts.length]))).2 =
      false := by
    refine zipRuns_snd_eq_false _ _ (by simp [h.runMeta_length, hp]) fun rg hrg => ?_
    obtain ⟨hlt, hmem⟩ := mem_runRanges hpw hrg
    refine ⟨hlt.le, ?_⟩
    rcases List.mem_append.1 hmem with hmem | hmem
    · exact (h.splits_lt_parts _ hmem).le
    · exact (List.mem_singleton.1 hmem).le
  unfold HollowBatch.allRuns HollowBatch.runs
  rw [filter_runRanges hpw]
  rcases hzr : zipRuns b.parts b.runMeta (runRanges 0 (b.runSplits ++ [b.parts.length])) with
    ⟨runs, panics⟩
  rw [hzr] at hz
  subst hz
  exact ⟨runs, rfl⟩

/-- The runs `zip_eq` reads from nonempty ranges are nonempty. -/
theorem zipRuns_ne_nil {parts : List P} :
    ∀ (metas : List M) (ranges : List (Nat × Nat)) {runs : List (M × List P)},
      (∀ rg ∈ ranges, rg.1 < rg.2) → zipRuns parts metas ranges = (runs, false) →
        ∀ r ∈ runs, r.2 ≠ []
  | [], [], runs, _, h => by
    simp only [zipRuns, Prod.mk.injEq] at h
    simp [← h.1]
  | m :: metas, (start, stop) :: ranges, runs, hlt, h => by
    simp only [zipRuns] at h
    split at h
    · rename_i run hrun
      obtain ⟨rfl, hpanics⟩ := Prod.mk.inj h
      intro r hr
      rcases List.mem_cons.1 hr with rfl | hr
      · have hss := hlt _ List.mem_cons_self
        unfold slice at hrun
        split at hrun
        · rename_i hin
          rw [← Option.some.inj hrun]
          apply List.ne_nil_of_length_pos
          simp only [List.length_take, List.length_drop]
          simp only at hss
          omega
        · cases hrun
      · exact zipRuns_ne_nil metas ranges (fun rg hrg => hlt rg (List.mem_cons_of_mem _ hrg))
          (Prod.ext rfl hpanics) r hr
    · cases h
  | [], _ :: _, _, _, h | _ :: _, [], _, _, h => by simp [zipRuns] at h

/-- The runs `HollowBatch::runs` returns are never empty: it skips the empty ranges. -/
theorem HollowBatch.allRuns_ne_nil {b : HollowBatch A P M} {runs : List (M × List P)}
    (h : b.allRuns = some runs) : ∀ r ∈ runs, r.2 ≠ [] := by
  unfold HollowBatch.allRuns HollowBatch.runs at h
  split at h
  rename_i rs panics hz
  cases panics with
  | true => cases h
  | false =>
    obtain rfl : rs = runs := Option.some.inj h
    exact zipRuns_ne_nil _ _ (fun rg hrg => by simpa using (List.mem_filter.1 hrg).2) hz

/-! ## The surgery -/

theorem filterAuxM_eq_some {α : Type} {keep : α → Option Bool} {p : α → Bool} :
    ∀ (l acc : List α), (∀ x ∈ l, keep x = some (p x)) →
      List.filterAuxM keep l acc = some ((l.filter p).reverse ++ acc)
  | [], acc, _ => rfl
  | x :: l, acc, h => by
    simp only [List.filterAuxM, h x List.mem_cons_self, Option.bind_eq_bind, Option.bind_some]
    rw [filterAuxM_eq_some l _ (fun y hy => h y (List.mem_cons_of_mem _ hy))]
    cases hp : p x <;> simp [hp]

/-- A filter by a predicate that never panics keeps what the pure filter keeps. -/
theorem filterM_eq_some {α : Type} {keep : α → Option Bool} {p : α → Bool} {l : List α}
    (h : ∀ x ∈ l, keep x = some (p x)) : l.filterM keep = some (l.filter p) := by
  simp [List.filterM, filterAuxM_eq_some l [] h]

variable (f : RunFields P M D)

/-- What `construct_batch_with_runs_replaced` builds when the original's runs carry ids and hold
the ones to replace: the kept runs and the replacement's, laid end to end. -/
theorem constructBatchWithRunsReplaced_eq {original replacement : HollowBatch A P M}
    {runIds : List RunId} {origRuns added : List (M × List P)}
    (horig : original.allRuns = some origRuns) (hids : ∀ r ∈ origRuns, (f.runId r.1).isSome)
    (hne : runIds ≠ []) (hsub : ∀ id ∈ runIds, id ∈ origRuns.filterMap fun r => f.runId r.1)
    (hadded : replacement.allRuns = some added) :
    let runs := origRuns.filter (fun r => !(f.runId r.1).any runIds.contains) ++ added
    SpineBatch.constructBatchWithRunsReplaced f original runIds replacement =
      some (.ok (HollowBatch.ofRuns replacement.desc
        (runs.filterMap fun (m, _) => f.runLen m).sum runs)) := by
  intro runs
  have hall : (runIds.all (origRuns.filterMap fun r => f.runId r.1).contains) = true :=
    List.all_eq_true.2 fun id hid => List.contains_iff_mem.2 (hsub id hid)
  have hkeep : origRuns.filterM (fun r => (f.runId r.1).map fun id => !runIds.contains id) =
      some (origRuns.filter fun r => !(f.runId r.1).any runIds.contains) := by
    refine filterM_eq_some fun r hr => ?_
    obtain ⟨id, hid⟩ := Option.isSome_iff_exists.1 (hids r hr)
    simp [hid]
  simp only [SpineBatch.constructBatchWithRunsReplaced, List.isEmpty_iff, hne, if_false, horig,
    Option.bind_some, hall, Bool.not_true, Bool.false_eq_true, hkeep, hadded, Option.map_some]
  rfl

/-- Run surgery on a batch whose runs can be read and carry ids, with a well-formed replacement:
the batch it builds is well formed, holds the original's runs without the given ids followed by
the replacement's runs, and its parts' sum of diffs is the original's less the replaced runs' plus
the replacement's. -/
theorem construct_batch_with_runs_replaced_wf {G : Type} [AddCommGroup G] (w : P → G)
    {original replacement : HollowBatch A P M} {runIds : List RunId}
    {origRuns : List (M × List P)} (horig : original.allRuns = some origRuns)
    (hsorted : original.SplitsSorted) (hids : ∀ r ∈ origRuns, (f.runId r.1).isSome)
    (hne : runIds ≠ []) (hsub : ∀ id ∈ runIds, id ∈ origRuns.filterMap fun r => f.runId r.1)
    (hrepl : replacement.Wf) :
    ∃ out added, SpineBatch.constructBatchWithRunsReplaced f original runIds replacement =
        some (.ok out) ∧ replacement.allRuns = some added ∧
      out.allRuns = some (origRuns.filter (fun r => !(f.runId r.1).any runIds.contains) ++ added) ∧
      out.Wf ∧
      (out.parts.map w).sum = (original.parts.map w).sum -
        (((origRuns.filter fun r => (f.runId r.1).any runIds.contains).flatMap Prod.snd).map w).sum +
        (replacement.parts.map w).sum := by
  obtain ⟨added, hadded⟩ := hrepl.allRuns
  have hcon := constructBatchWithRunsReplaced_eq f horig hids hne hsub hadded
  set kept := origRuns.filter fun r => !(f.runId r.1).any runIds.contains
  set replaced := origRuns.filter fun r => (f.runId r.1).any runIds.contains
  have hnonempty : ∀ r ∈ kept ++ added, r.2 ≠ [] := by
    intro r hr
    rcases List.mem_append.1 hr with hr | hr
    · exact HollowBatch.allRuns_ne_nil horig r (List.mem_filter.1 hr).1
    · exact HollowBatch.allRuns_ne_nil hadded r hr
  refine ⟨_, added, hcon, hadded, HollowBatch.allRuns_ofRuns _ _ hnonempty,
    HollowBatch.ofRuns_wf _ _ hnonempty, ?_⟩
  -- the original's parts are its runs' parts, which the filter splits into kept and replaced
  have horigParts := HollowBatch.allRuns_parts hsorted horig
  have hreplParts := HollowBatch.allRuns_parts hrepl.splitsSorted hadded
  have hperm : ((replaced ++ kept).flatMap Prod.snd).Perm (origRuns.flatMap Prod.snd) :=
    (List.filter_append_perm _ origRuns).flatMap_right _
  have hsplit : ((origRuns.flatMap Prod.snd).map w).sum =
      ((replaced.flatMap Prod.snd).map w).sum + ((kept.flatMap Prod.snd).map w).sum := by
    rw [← (hperm.map w).sum_eq, List.flatMap_append, List.map_append, List.sum_append]
  rw [← horigParts, ← hreplParts, hsplit]
  simp only [HollowBatch.ofRuns, List.flatMap_append, List.map_append, List.sum_append]
  abel

theorem construct_batch_with_runs_replaced_wf_two_runs :
    let f : RunFields Nat Nat Nat := ⟨fun _ => none, fun m => some ⟨m⟩, fun _ => some 1⟩
    let original : HollowBatch Nat Nat Nat := ⟨⟨0, 1, 0⟩, 3, [1, 2, 3], [2], [7, 8]⟩
    let replacement : HollowBatch Nat Nat Nat := ⟨⟨0, 1, 0⟩, 1, [9], [], [5]⟩
    let origRuns : List (Nat × List Nat) := [(7, [1, 2]), (8, [3])]
    ∃ out added, SpineBatch.constructBatchWithRunsReplaced f original [⟨8⟩] replacement =
        some (.ok out) ∧ replacement.allRuns = some added ∧
      out.allRuns = some (origRuns.filter (fun r => !(f.runId r.1).any [⟨8⟩].contains) ++ added) ∧
      out.Wf ∧
      (out.parts.map fun p : Nat => (p : Int)).sum = (original.parts.map fun p : Nat => (p : Int)).sum -
        (((origRuns.filter fun r => (f.runId r.1).any [⟨8⟩].contains).flatMap Prod.snd).map
          fun p : Nat => (p : Int)).sum + (replacement.parts.map fun p : Nat => (p : Int)).sum := by
  intro f original replacement origRuns
  exact construct_batch_with_runs_replaced_wf f (fun p : Nat => (p : Int))
    (show original.allRuns = some origRuns by rfl)
    (show original.SplitsSorted by unfold HollowBatch.SplitsSorted; decide)
    (show ∀ r ∈ origRuns, (f.runId r.1).isSome by decide) (by simp)
    (show ∀ id ∈ [RunId.mk 8], id ∈ origRuns.filterMap fun r => f.runId r.1 by decide)
    (show replacement.Wf from
      ⟨List.Pairwise.nil, fun _ hi => (by cases hi), fun _ hi => (by cases hi), rfl⟩)

end Materialize.Persist
