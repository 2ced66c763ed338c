import Mathlib.Data.List.Basic

/-!
# Replacing the first item a search matches

Two searches that stop at the first item a step function matches and put what the step made of it
in its place, returning the step's result with the new list: `replaceFirst?` tries the items from
the front, `replaceLast?` from the back. A loop of the shape
`for x in xs.iter_mut() { let r = step(x); if matched(r) { return r } }` is one of them. The
results here say where the replaced item sits (`replaceFirst?_eq_some`, `replaceLast?_eq_some`),
which is what an invariant of the list needs. Nothing here is specific to one program.
-/

namespace Replace

variable {α ρ : Type}

/-- Try `f` on the items from the first on; the first it matches is replaced. `none` if it matches
none of them. -/
def replaceFirst? (f : α → Option (α × ρ)) : List α → Option (List α × ρ)
  | [] => none
  | x :: xs =>
    match f x with
    | some (x', r) => some (x' :: xs, r)
    | none => (replaceFirst? f xs).map fun (xs', r) => (x :: xs', r)

/-- Try `f` on the items from the last back; the first it matches is replaced. `none` if it matches
none of them. -/
def replaceLast? (f : α → Option (α × ρ)) : List α → Option (List α × ρ)
  | [] => none
  | x :: xs =>
    match replaceLast? f xs with
    | some (xs', r) => some (x :: xs', r)
    | none => (f x).map fun (x', r) => (x' :: xs, r)

variable {f : α → Option (α × ρ)}

/-- What `replaceFirst?` did: one item matched and was replaced, the others are as they were. -/
theorem replaceFirst?_eq_some {l l' : List α} {r : ρ} (h : replaceFirst? f l = some (l', r)) :
    ∃ l₁ x l₂ x', l = l₁ ++ x :: l₂ ∧ f x = some (x', r) ∧ l' = l₁ ++ x' :: l₂ := by
  induction l generalizing l' with
  | nil => cases h
  | cons x xs ih =>
    unfold replaceFirst? at h
    split at h
    · rename_i x' r' hx
      simp only [Option.some.injEq, Prod.mk.injEq] at h
      obtain ⟨rfl, rfl⟩ := h
      exact ⟨[], x, xs, x', rfl, hx, rfl⟩
    · obtain ⟨⟨xs', r'⟩, hxs, h'⟩ := Option.map_eq_some_iff.1 h
      simp only [Prod.mk.injEq] at h'
      obtain ⟨rfl, rfl⟩ := h'
      obtain ⟨l₁, y, l₂, y', rfl, hy, rfl⟩ := ih hxs
      exact ⟨x :: l₁, y, l₂, y', rfl, hy, rfl⟩

/-- What `replaceLast?` did: one item matched and was replaced, the others are as they were. -/
theorem replaceLast?_eq_some {l l' : List α} {r : ρ} (h : replaceLast? f l = some (l', r)) :
    ∃ l₁ x l₂ x', l = l₁ ++ x :: l₂ ∧ f x = some (x', r) ∧ l' = l₁ ++ x' :: l₂ := by
  induction l generalizing l' with
  | nil => cases h
  | cons x xs ih =>
    unfold replaceLast? at h
    split at h
    · rename_i xs' r' hxs
      simp only [Option.some.injEq, Prod.mk.injEq] at h
      obtain ⟨rfl, rfl⟩ := h
      obtain ⟨l₁, y, l₂, y', rfl, hy, rfl⟩ := ih hxs
      exact ⟨x :: l₁, y, l₂, y', rfl, hy, rfl⟩
    · obtain ⟨⟨x', r'⟩, hx, h'⟩ := Option.map_eq_some_iff.1 h
      simp only [Prod.mk.injEq] at h'
      obtain ⟨rfl, rfl⟩ := h'
      exact ⟨[], x, xs, x', rfl, hx, rfl⟩

/-- `replaceLast?` keeps the length of the list. -/
theorem replaceLast?_length {l l' : List α} {r : ρ} (h : replaceLast? f l = some (l', r)) :
    l'.length = l.length := by
  obtain ⟨l₁, x, l₂, x', rfl, -, rfl⟩ := replaceLast?_eq_some h
  simp

end Replace
