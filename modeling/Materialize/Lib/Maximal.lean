import Mathlib.Data.List.Basic

/-!
# Keeping the maximal items of a list

`keepMaximal covers l` reads `l` from the front and keeps the items that no other kept item
covers: an item a kept one covers is dropped, and an item that is kept first drops the kept items
it covers. The loop is the naive quadratic one of a request queue that drops redundant work.

For a covering relation that is reflexive and transitive, what it keeps is an antichain, every
item read is covered by a kept one, and only items read are kept (`keepMaximal_kept`). The step
lemma `Kept.keepStep` carries the three facts over one item. Nothing here is specific to one
program.
-/

namespace Maximal

variable {α : Type} (covers : α → α → Bool)

/-- One item: dropped if a kept item covers it, else appended after dropping the kept items it
covers. -/
def keepStep (ret : List α) (x : α) : List α :=
  if ret.any (covers · x) then ret else ret.filter (fun r => !covers x r) ++ [x]

/-- The maximal items of `l`, in the order they were kept. -/
def keepMaximal (l : List α) : List α := l.foldl (keepStep covers) []

/-- What the loop keeps after reading `seen`: no two kept items cover each other, each item read
is covered by a kept one, and only items read are kept. -/
structure Kept (seen ret : List α) : Prop where
  antichain : ret.Pairwise fun a b => covers a b = false ∧ covers b a = false
  covered : ∀ x ∈ seen, ∃ r ∈ ret, covers r x
  mem : ∀ r ∈ ret, r ∈ seen

section Preorder

variable {covers}
variable (refl : ∀ x, covers x x) (trans : ∀ x y z, covers x y → covers y z → covers x z)
include refl trans

/-- The step lemma: reading one more item keeps the three facts. -/
theorem Kept.keepStep {seen ret : List α} (h : Kept covers seen ret) (x : α) :
    Kept covers (seen ++ [x]) (keepStep covers ret x) := by
  unfold Maximal.keepStep
  split
  · -- a kept item covers `x`: nothing changes
    rename_i hcov
    obtain ⟨r, hr, hrx⟩ := List.any_eq_true.1 hcov
    refine ⟨h.antichain, fun y hy => ?_, fun r hr => List.mem_append_left _ (h.mem r hr)⟩
    rcases List.mem_append.1 hy with hy | hy
    · exact h.covered y hy
    · exact ⟨r, hr, by rw [List.mem_singleton.1 hy]; exact hrx⟩
  · -- `x` is kept and drops what it covers
    rename_i hcov
    have hnot : ∀ r ∈ ret, covers r x = false := by
      simpa using hcov
    refine ⟨?_, fun y hy => ?_, fun r hr => ?_⟩
    · rw [List.pairwise_append]
      refine ⟨(h.antichain.sublist List.filter_sublist), by simp, fun a ha b hb => ?_⟩
      rw [List.mem_singleton.1 hb]
      obtain ⟨ha, hxa⟩ := List.mem_filter.1 ha
      exact ⟨hnot a ha, by simpa using hxa⟩
    · rcases List.mem_append.1 hy with hy | hy
      · obtain ⟨r, hr, hry⟩ := h.covered y hy
        by_cases hxr : covers x r
        · exact ⟨x, List.mem_append_right _ (List.mem_singleton_self x), trans x r y hxr hry⟩
        · exact ⟨r, List.mem_append_left _ (List.mem_filter.2 ⟨hr, by simpa using hxr⟩), hry⟩
      · exact ⟨x, List.mem_append_right _ (List.mem_singleton_self x),
          by rw [List.mem_singleton.1 hy]; exact refl x⟩
    · rcases List.mem_append.1 hr with hr | hr
      · exact List.mem_append_left _ (h.mem r (List.mem_filter.1 hr).1)
      · exact List.mem_append_right _ hr

/-- The run lemma: the facts hold after every prefix of the input. -/
theorem Kept.foldl {seen ret : List α} (h : Kept covers seen ret) (l : List α) :
    Kept covers (seen ++ l) (l.foldl (Maximal.keepStep covers) ret) := by
  induction l generalizing seen ret with
  | nil => simpa using h
  | cons x l ih =>
    rw [List.foldl_cons, ← List.singleton_append, ← List.append_assoc]
    exact ih (h.keepStep refl trans x)

/-- `keepMaximal` keeps an antichain of the items read that covers all of them. -/
theorem keepMaximal_kept (l : List α) : Kept covers l (keepMaximal covers l) := by
  have h0 : Kept covers [] [] := ⟨List.Pairwise.nil, by simp, by simp⟩
  simpa [keepMaximal] using h0.foldl refl trans l

end Preorder

end Maximal
