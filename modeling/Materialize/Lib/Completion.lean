import Mathlib.Data.List.Forall2

/-!
# Completions and the most-defined extension of a function

Evaluation that stops at its first error is partial: a value that failed, or that was never
needed, is missing. For a list of partial arguments its *completions* are the total argument
lists that agree with it wherever it is defined, and the *most-defined extension* of a function
to partial arguments is the value the function takes at every completion, when there is one.

A result is *below* a partial value when any value it has is that value. A function is
*error-monotone* when turning some of its arguments into errors can turn its result into an
error but never into another value. `extend_of_below` is the bridge: an error-monotone function
applied to results below some partial arguments computes a value below its most-defined
extension at them. Two evaluations that differ only in which errors they run into therefore
agree wherever both return a value.
-/

namespace Completion

variable {α β ε : Type}

/-- `c` completes `a`: the two have one length and agree wherever `a` is defined. -/
def Completes (c : List α) (a : List (Option α)) : Prop :=
  List.Forall₂ (fun x o => ∀ y, o = some y → x = y) c a

/-- The most-defined extension of `f` to partial arguments: the value `f` takes at every
completion of `a`, if there is one. -/
noncomputable def extend (f : List α → Option β) (a : List (Option α)) : Option β :=
  open Classical in
  if h : ∃ v, ∀ c, Completes c a → f c = some v then some h.choose else none

/-- A result lies below a partial value: any value it has is that value. -/
def Below (x : Except ε α) (o : Option α) : Prop := ∀ v, x = .ok v → o = some v

/-- `x` is `y`, or an error where `y` may be anything. -/
def ErrorOrEq (x y : Except ε α) : Prop := x = y ∨ ∃ e, x = .error e

/-- `f` keeps every value it returns when arguments that were errors are replaced by
anything. -/
def ErrorMonotone (f : List (Except ε α) → Except ε β) : Prop :=
  ∀ x y v, List.Forall₂ ErrorOrEq x y → f x = .ok v → f y = .ok v

@[simp] theorem below_error (e : ε) (o : Option α) : Below (.error e) o := by
  intro v h
  cases h

@[simp] theorem below_ok_iff (v : α) (o : Option α) :
    Below (.ok v : Except ε α) o ↔ o = some v := by
  constructor
  · intro h
    exact h v rfl
  · rintro rfl w h
    cases h
    rfl

/-- Where the first of two related results has a value, the second has it too. -/
theorem ErrorOrEq.eq_of_ok {x y : Except ε α} (h : ErrorOrEq x y) {v : α} (hx : x = .ok v) :
    y = .ok v := by
  rcases h with rfl | ⟨e, rfl⟩
  · exact hx
  · cases hx

/-- A function of one argument that fails on every error keeps each value it returns. -/
theorem ErrorOrEq.map_of_strict {f : Except ε α → Except ε β}
    (hf : ∀ e, ∃ e', f (.error e) = .error e') {x y : Except ε α} (h : ErrorOrEq x y) {v : β}
    (hv : f x = .ok v) : f y = .ok v := by
  rcases h with rfl | ⟨e, rfl⟩
  · exact hv
  · obtain ⟨e', he'⟩ := hf e
    rw [he'] at hv
    cases hv

/-- Arguments that all have values are the only ones related to them. -/
theorem eq_of_forall₂_errorOrEq {x y : List (Except ε α)} (h : List.Forall₂ ErrorOrEq x y)
    (hx : ∀ a ∈ x, ∃ v, a = .ok v) : y = x := by
  induction h with
  | nil => rfl
  | @cons a b x y hab _ ih =>
    obtain ⟨v, rfl⟩ := hx a List.mem_cons_self
    rw [hab.eq_of_ok rfl, ih fun a ha => hx a (List.mem_cons_of_mem _ ha)]

/-- A value among the arguments stays among the related ones. -/
theorem mem_of_forall₂_errorOrEq {x y : List (Except ε α)} (h : List.Forall₂ ErrorOrEq x y)
    {v : α} (hv : .ok v ∈ x) : .ok v ∈ y := by
  induction h with
  | nil => cases hv
  | @cons a b x y hab _ ih =>
    rcases List.mem_cons.1 hv with rfl | hv
    · rw [hab.eq_of_ok rfl]
      exact List.mem_cons_self
    · exact List.mem_cons_of_mem _ (ih hv)

/-- A function that fails whenever one of its arguments is an error is error-monotone. -/
theorem errorMonotone_of_strict {f : List (Except ε α) → Except ε β}
    (hf : ∀ x, (∃ e, .error e ∈ x) → ∃ e, f x = .error e) : ErrorMonotone f := by
  intro x y v hxy hv
  have hx : ∀ a ∈ x, ∃ w, a = .ok w := by
    intro a ha
    cases a with
    | ok w => exact ⟨w, rfl⟩
    | error e =>
      obtain ⟨e', he'⟩ := hf x ⟨e, ha⟩
      rw [he'] at hv
      cases hv
  rw [eq_of_forall₂_errorOrEq hxy hx]
  exact hv

/-- A total list completes itself. -/
theorem completes_map_some (c : List α) : Completes c (c.map some) := by
  induction c with
  | nil => exact List.Forall₂.nil
  | cons x c ih => exact List.Forall₂.cons (by simp) ih

/-- A total list is its only completion. -/
theorem eq_of_completes_map_some {c c' : List α} (h : Completes c' (c.map some)) : c' = c := by
  induction c generalizing c' with
  | nil => exact List.forall₂_nil_right_iff.1 h
  | cons x c ih =>
    obtain ⟨y, c'', hy, hrest, rfl⟩ := List.forall₂_cons_right_iff.1 h
    rw [hy x rfl, ih hrest]

/-- Over an inhabited type every list of partial arguments has a completion. -/
theorem exists_completes [Inhabited α] (a : List (Option α)) : ∃ c, Completes c a := by
  induction a with
  | nil => exact ⟨[], List.Forall₂.nil⟩
  | cons o a ih =>
    obtain ⟨c, hc⟩ := ih
    refine ⟨o.getD default :: c, List.Forall₂.cons ?_ hc⟩
    rintro y rfl
    rfl

/-- The completions of `o :: a` are those of `a` with a completion of `o` in front. -/
theorem completes_cons_iff {x : α} {c : List α} {o : Option α} {a : List (Option α)} :
    Completes (x :: c) (o :: a) ↔ (∀ y, o = some y → x = y) ∧ Completes c a :=
  List.forall₂_cons

/-- A pair completes a pair of partial values elementwise. -/
theorem completes_pair {x y : α} {o₁ o₂ : Option α} (h₁ : ∀ z, o₁ = some z → x = z)
    (h₂ : ∀ z, o₂ = some z → y = z) : Completes [x, y] [o₁, o₂] :=
  List.Forall₂.cons h₁ (List.Forall₂.cons h₂ List.Forall₂.nil)

/-- A partial value completed by its own value, or by a default where it has none. -/
theorem getD_completes {o : Option α} {d : α} : ∀ z, o = some z → o.getD d = z := by
  rintro z rfl
  rfl

theorem extend_eq_some_of {f : List α → Option β} {a : List (Option α)} {v : β}
    (h : extend f a = some v) : ∀ c, Completes c a → f c = some v := by
  unfold extend at h
  split at h
  · rename_i hex
    cases h
    exact hex.choose_spec
  · cases h

/-- The most-defined extension has a value exactly when `f` takes that one value at every
completion. -/
theorem extend_eq_some_iff [Inhabited α] {f : List α → Option β} {a : List (Option α)}
    {v : β} : extend f a = some v ↔ ∀ c, Completes c a → f c = some v := by
  refine ⟨extend_eq_some_of, fun h => ?_⟩
  have hex : ∃ v, ∀ c, Completes c a → f c = some v := ⟨v, h⟩
  obtain ⟨c, hc⟩ := exists_completes a
  unfold extend
  rw [dif_pos hex, ← h c hc, hex.choose_spec c hc]

/-- At total arguments the most-defined extension is the function itself. -/
@[simp] theorem extend_map_some (f : List α → Option β) (c : List α) :
    extend f (c.map some) = f c := by
  cases hfc : f c with
  | none =>
    unfold extend
    rw [dif_neg]
    rintro ⟨v, hv⟩
    rw [hv c (completes_map_some c)] at hfc
    cases hfc
  | some v =>
    have hex : ∃ v, ∀ c', Completes c' (c.map some) → f c' = some v :=
      ⟨v, fun c' hc' => by rw [eq_of_completes_map_some hc', hfc]⟩
    unfold extend
    rw [dif_pos hex, ← Option.some.inj (hfc.symm.trans (hex.choose_spec c (completes_map_some c)))]

/-- Extensions of two functions that agree on completions taken in corresponding orders agree:
the form used when a call's operands are swapped. -/
theorem extend_pair_swap [Inhabited α] (f g : List α → Option β)
    (hfg : ∀ x y, f [x, y] = g [y, x]) (o₁ o₂ : Option α) :
    extend f [o₁, o₂] = extend g [o₂, o₁] := by
  apply Option.ext
  intro v
  rw [extend_eq_some_iff, extend_eq_some_iff]
  constructor
  · intro h c hc
    obtain ⟨y, c', hy, hc', rfl⟩ := List.forall₂_cons_right_iff.1 hc
    obtain ⟨x, c'', hx, hc'', rfl⟩ := List.forall₂_cons_right_iff.1 hc'
    rw [List.forall₂_nil_right_iff.1 hc'', ← hfg]
    exact h [x, y] (List.Forall₂.cons hx (List.Forall₂.cons hy List.Forall₂.nil))
  · intro h c hc
    obtain ⟨x, c', hx, hc', rfl⟩ := List.forall₂_cons_right_iff.1 hc
    obtain ⟨y, c'', hy, hc'', rfl⟩ := List.forall₂_cons_right_iff.1 hc'
    rw [List.forall₂_nil_right_iff.1 hc'', hfg]
    exact h [y, x] (List.Forall₂.cons hy (List.Forall₂.cons hx List.Forall₂.nil))

/-- A result below a partial value differs from a completion of it only if it is an error. -/
theorem errorOrEq_of_below {x : Except ε α} {o : Option α} (hx : Below x o) {y : α}
    (hy : ∀ z, o = some z → y = z) : ErrorOrEq x (.ok y) := by
  cases x with
  | error e => exact .inr ⟨e, rfl⟩
  | ok w => exact .inl (by rw [hy w (hx w rfl)])

/-- Results below some partial arguments differ from any completion of them only where the
results are errors. -/
theorem replaces_errors_of_below {x : List (Except ε α)} {a : List (Option α)}
    (hxa : List.Forall₂ Below x a) {c : List α} (hc : Completes c a) :
    List.Forall₂ ErrorOrEq x (c.map .ok) := by
  induction hxa generalizing c with
  | nil =>
    rw [List.forall₂_nil_right_iff.1 hc]
    exact List.Forall₂.nil
  | cons hb _ ih =>
    obtain ⟨y, c', hy, hc', rfl⟩ := List.forall₂_cons_right_iff.1 hc
    exact List.Forall₂.cons (errorOrEq_of_below hb hy) (ih hc')

/-- **An error-monotone function computes below its most-defined extension.** Where the actual
arguments have values, the partial ones have the same; any completion then differs from the
actual arguments only where those were errors, so it gives `f` the same value. -/
theorem extend_of_below [Inhabited α] {f : List (Except ε α) → Except ε β} (hf : ErrorMonotone f)
    {x : List (Except ε α)} {a : List (Option α)} (hxa : List.Forall₂ Below x a) {v : β}
    (h : f x = .ok v) : extend (fun c => (f (c.map .ok)).toOption) a = some v := by
  rw [extend_eq_some_iff]
  intro c hc
  simp [hf x _ v (replaces_errors_of_below hxa hc) h, Except.toOption]

end Completion
