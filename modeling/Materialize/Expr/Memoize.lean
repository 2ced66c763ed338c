import Materialize.Expr.Ideal

/-!
# Memoizing keeps meaning

`memoize_expr` (`src/expr/src/linear.rs`) replaces the parts of an expression that are sure to be
evaluated by references to columns it appends to a list of memoized parts. `memoizeExpr_spec`
states three things. The visit does not panic on an expression whose columns exist. The parts
only grow, and each still refers to the columns before it. Over the columns the grown parts
define, the rewritten expression means what the original meant over the columns before. Parts
are only appended, so the columns that were there keep their meanings as well.

The meaning here is `idealEval`, so the statement holds whatever the visit chooses to evaluate
eagerly. That includes the arguments of `AND` and `OR`, which evaluation itself may skip: the
most-defined meaning of a call does not depend on which arguments evaluation reaches.
-/

namespace Materialize.Expr

namespace MirScalarExpr

open Completion

variable {D Err T F : Type} [DecidableEq D]
variable {S : EvalSem D Err F}

variable (S) in
/-- What a memoizing visit of `e` over `parts` guarantees when it returns `e'` and `parts'`:
the parts only grow and still refer back, `e'` refers to columns that exist, and over the
columns of the grown parts `e'` means what `e` meant before. -/
structure Memoized (base : List (Option D)) (parts : List (MirScalarExpr D Err T F))
    (e e' : MirScalarExpr D Err T F) (parts' : List (MirScalarExpr D Err T F)) : Prop where
  grows : parts <+: parts'
  refersBack : RefersBack base.length parts'
  bound : ∀ c ∈ e'.support, c < base.length + parts'.length
  meaning : idealEval S (idealColumns S base parts') e' = idealEval S (idealColumns S base parts) e

variable (S) in
/-- `Memoized` for the arguments of a call, visited from the left. -/
structure MemoizedList (base : List (Option D)) (parts : List (MirScalarExpr D Err T F))
    (es es' : List (MirScalarExpr D Err T F)) (parts' : List (MirScalarExpr D Err T F)) : Prop where
  grows : parts <+: parts'
  refersBack : RefersBack base.length parts'
  bound : ∀ c ∈ supportList es', c < base.length + parts'.length
  meaning : idealEvalList S (idealColumns S base parts') es' =
    idealEvalList S (idealColumns S base parts) es

section

variable {base : List (Option D)}

/-- A visit that leaves an expression alone while the parts grow. -/
theorem Memoized.of_grows {parts parts' : List (MirScalarExpr D Err T F)} (h : parts <+: parts')
    (hw : RefersBack base.length parts') {e : MirScalarExpr D Err T F}
    (he : ∀ c ∈ e.support, c < base.length + parts.length) : Memoized S base parts e e parts' where
  grows := h
  refersBack := hw
  bound c hc := Nat.lt_of_lt_of_le (he c hc) (Nat.add_le_add_left h.length_le _)
  meaning := idealEval_idealColumns_of_isPrefix h he

/-- Two visits, one after the other. -/
theorem Memoized.trans {p₀ p₁ p₂ : List (MirScalarExpr D Err T F)} {e₀ e₁ e₂}
    (h₁ : Memoized S base p₀ e₀ e₁ p₁) (h₂ : Memoized S base p₁ e₁ e₂ p₂) :
    Memoized S base p₀ e₀ e₂ p₂ where
  grows := h₁.grows.trans h₂.grows
  refersBack := h₂.refersBack
  bound := h₂.bound
  meaning := h₂.meaning.trans h₁.meaning

/-- What a visit returned keeps its meaning while later visits grow the parts. -/
theorem Memoized.later {p₀ p₁ p₂ : List (MirScalarExpr D Err T F)} {e e'}
    (h : Memoized S base p₀ e e' p₁) (h₂ : p₁ <+: p₂) :
    idealEval S (idealColumns S base p₂) e' = idealEval S (idealColumns S base p₀) e :=
  (idealEval_idealColumns_of_isPrefix h₂ h.bound).trans h.meaning

/-- Columns below `n` stay below anything at least `n`. -/
theorem bound_mono {cs : List Nat} {n m : Nat} (h : ∀ c ∈ cs, c < n) (hnm : n ≤ m) :
    ∀ c ∈ cs, c < m :=
  fun c hc => Nat.lt_of_lt_of_le (h c hc) hnm

/-! ### The visit of a node from the visits of its eager children -/

theorem Memoized.unary (f : UnaryFunc F) {p₀ p₁ : List (MirScalarExpr D Err T F)} {a a'}
    (h : Memoized S base p₀ a a' p₁) :
    Memoized S base p₀ (.callUnary f a) (.callUnary f a') p₁ where
  grows := h.grows
  refersBack := h.refersBack
  bound := by simpa [support] using h.bound
  meaning := by simp only [idealEval, h.meaning]

theorem Memoized.binary (f : BinaryFunc F) {p₀ p₁ p₂ : List (MirScalarExpr D Err T F)}
    {a a' b b'} (ha : Memoized S base p₀ a a' p₁) (hb : Memoized S base p₁ b b' p₂)
    (hb₀ : ∀ c ∈ b.support, c < base.length + p₀.length) :
    Memoized S base p₀ (.callBinary f a b) (.callBinary f a' b') p₂ where
  grows := ha.grows.trans hb.grows
  refersBack := hb.refersBack
  bound := by
    simp only [support, List.mem_append]
    rintro c (hc | hc)
    · exact bound_mono ha.bound (Nat.add_le_add_left hb.grows.length_le _) c hc
    · exact hb.bound c hc
  meaning := by
    simp only [idealEval, ha.later hb.grows, hb.meaning,
      idealEval_idealColumns_of_isPrefix ha.grows hb₀]

/-- Only the second operand visited: a temporal filter already in normal form. -/
theorem Memoized.binarySecond (f : BinaryFunc F) {p₀ p₁ : List (MirScalarExpr D Err T F)}
    {a b b'} (hb : Memoized S base p₀ b b' p₁)
    (ha₀ : ∀ c ∈ a.support, c < base.length + p₀.length) :
    Memoized S base p₀ (.callBinary f a b) (.callBinary f a b') p₁ where
  grows := hb.grows
  refersBack := hb.refersBack
  bound := by
    simp only [support, List.mem_append]
    rintro c (hc | hc)
    · exact bound_mono ha₀ (Nat.add_le_add_left hb.grows.length_le _) c hc
    · exact hb.bound c hc
  meaning := by
    simp only [idealEval, hb.meaning, idealEval_idealColumns_of_isPrefix hb.grows ha₀]

/-- A temporal filter `a f mz_now()` turned around into `mz_now() f' a`, with `a` visited. -/
theorem Memoized.binaryFlip (hS : S.Lawful) {f f' : BinaryFunc F} (hf : f.flip = some f')
    {p₀ p₁ : List (MirScalarExpr D Err T F)} {a a' b} (ha : Memoized S base p₀ a a' p₁)
    (hb₀ : ∀ c ∈ b.support, c < base.length + p₀.length) :
    Memoized S base p₀ (.callBinary f a b) (.callBinary f' b a') p₁ where
  grows := ha.grows
  refersBack := ha.refersBack
  bound := by
    simp only [support, List.mem_append]
    rintro c (hc | hc)
    · exact bound_mono hb₀ (Nat.add_le_add_left ha.grows.length_le _) c hc
    · exact ha.bound c hc
  meaning := by
    rw [← idealEval_flip hS hf]
    simp only [idealEval, ha.meaning, idealEval_idealColumns_of_isPrefix ha.grows hb₀]

/-- Arguments left alone. -/
theorem MemoizedList.refl {parts : List (MirScalarExpr D Err T F)}
    (hw : RefersBack base.length parts) {es : List (MirScalarExpr D Err T F)}
    (hes : ∀ c ∈ supportList es, c < base.length + parts.length) :
    MemoizedList S base parts es es parts :=
  ⟨List.prefix_refl _, hw, hes, rfl⟩

theorem MemoizedList.cons {p₀ p₁ p₂ : List (MirScalarExpr D Err T F)} {e e' es es'}
    (he : Memoized S base p₀ e e' p₁) (hes : MemoizedList S base p₁ es es' p₂)
    (hes₀ : ∀ c ∈ supportList es, c < base.length + p₀.length) :
    MemoizedList S base p₀ (e :: es) (e' :: es') p₂ where
  grows := he.grows.trans hes.grows
  refersBack := hes.refersBack
  bound := by
    simp only [supportList, List.mem_append]
    rintro c (hc | hc)
    · exact bound_mono he.bound (Nat.add_le_add_left hes.grows.length_le _) c hc
    · exact hes.bound c hc
  meaning := by
    simp only [idealEvalList, he.later hes.grows, hes.meaning,
      idealEvalList_of_isPrefix (idealColumns_prefix_of_isPrefix he.grows) (by simpa using hes₀)]

theorem Memoized.variadic (f : VariadicFunc F) {p₀ p₁ : List (MirScalarExpr D Err T F)} {es es'}
    (h : MemoizedList S base p₀ es es' p₁) :
    Memoized S base p₀ (.callVariadic f es) (.callVariadic f es') p₁ where
  grows := h.grows
  refersBack := h.refersBack
  bound := by simpa [support] using h.bound
  meaning := by simp only [idealEval, h.meaning]

/-- Only the first argument of `COALESCE` visited. -/
theorem Memoized.coalesce {p₀ p₁ : List (MirScalarExpr D Err T F)} {e e' es}
    (he : Memoized S base p₀ e e' p₁) (hes₀ : ∀ c ∈ supportList es, c < base.length + p₀.length) :
    Memoized S base p₀ (.callVariadic .coalesce (e :: es)) (.callVariadic .coalesce (e' :: es))
      p₁ :=
  .variadic .coalesce (MemoizedList.cons he (.refl he.refersBack
    (bound_mono hes₀ (Nat.add_le_add_left he.grows.length_le _))) hes₀)

/-- Only the condition of an `if` visited. -/
theorem Memoized.cond {p₀ p₁ : List (MirScalarExpr D Err T F)} {c c' t e}
    (hc : Memoized S base p₀ c c' p₁) (ht₀ : ∀ x ∈ t.support, x < base.length + p₀.length)
    (he₀ : ∀ x ∈ e.support, x < base.length + p₀.length) :
    Memoized S base p₀ (.«if» c t e) (.«if» c' t e) p₁ where
  grows := hc.grows
  refersBack := hc.refersBack
  bound := by
    simp only [support, List.mem_append]
    rintro x ((hx | hx) | hx)
    · exact hc.bound x hx
    · exact bound_mono ht₀ (Nat.add_le_add_left hc.grows.length_le _) x hx
    · exact bound_mono he₀ (Nat.add_le_add_left hc.grows.length_le _) x hx
  meaning := by
    simp only [idealEval, hc.meaning, idealEval_idealColumns_of_isPrefix hc.grows ht₀,
      idealEval_idealColumns_of_isPrefix hc.grows he₀]

end

/-! ## The visit -/

section

variable [DecidableEq Err] [DecidableEq T] [DecidableEq F] {base : List (Option D)}

/-- A temporal filter is turned around only with the function `flip` gives. -/
theorem flip_of_asTemporalFilter {f f' : BinaryFunc F} {a b : MirScalarExpr D Err T F}
    (h : asTemporalFilter f a b = .ok (f', true)) : f.flip = some f' := by
  unfold asTemporalFilter at h
  split_ifs at h <;> cases hf : f.flip <;> simp_all

/-- A node that goes to `memoizeFresh` comes back as a column that means it. -/
theorem memoizeFresh_spec {parts : List (MirScalarExpr D Err T F)}
    (hparts : RefersBack base.length parts) {e : MirScalarExpr D Err T F}
    (he : ∀ c ∈ e.support, c < base.length + parts.length) :
    Memoized S base parts e (memoizeFresh base.length e parts).1
      (memoizeFresh base.length e parts).2 := by
  unfold memoizeFresh
  split
  · -- an equal part exists: refer to it
    rename_i pos hpos
    obtain ⟨hlt, heq, -⟩ := List.findIdx?_eq_some_iff_getElem.1 hpos
    have hpe : parts[pos] = e := by simpa using heq
    refine ⟨List.prefix_refl _, hparts, by simp [support, hlt], ?_⟩
    simp only [idealEval]
    rw [idealColumns_getElem hparts hlt, hpe]
  · -- push the node as a new part
    refine ⟨List.prefix_append _ _, hparts.concat he, by simp [support], ?_⟩
    simp only [idealEval, idealColumns_concat]
    rw [List.getElem?_append_right (by simp)]
    simp

/-- The visit after the eager children. -/
theorem memoizePost_spec {parts : List (MirScalarExpr D Err T F)}
    (hparts : RefersBack base.length parts) {e : MirScalarExpr D Err T F}
    (he : ∀ c ∈ e.support, c < base.length + parts.length) :
    ∃ e' parts', memoizePost base.length e parts = some (e', parts') ∧
      Memoized S base parts e e' parts' := by
  unfold memoizePost
  split_ifs with hlit
  · exact ⟨e, parts, rfl, .of_grows (List.prefix_refl _) hparts he⟩
  · cases e
    case column c =>
      simp only
      split_ifs with hc
      · -- a column past the input names a part; follow it if it is itself a column
        have hj : c - base.length < parts.length := by
          have := he c (by simp [support])
          omega
        have hcj : base.length + (c - base.length) = c := by omega
        rw [List.getElem?_eq_getElem hj]
        simp only
        cases hp : parts[c - base.length].asColumn with
        | none => exact ⟨_, _, rfl, .of_grows (List.prefix_refl _) hparts he⟩
        | some c₂ =>
          have hpc : parts[c - base.length] = .column c₂ := by
            revert hp
            cases parts[c - base.length] <;> simp [asColumn]
          have hc₂ : c₂ < c := by
            have := hparts _ hj c₂ (by simp [hpc, support])
            omega
          refine ⟨_, _, rfl, List.prefix_refl _, hparts, by simp [support]; omega, ?_⟩
          simp only [idealEval]
          rw [← hcj, idealColumns_getElem hparts hj, hpc]
          rfl
      · exact ⟨_, _, rfl, .of_grows (List.prefix_refl _) hparts he⟩
    case literal => simp [isLiteral] at hlit
    all_goals exact ⟨_, _, rfl, memoizeFresh_spec hparts he⟩

mutual

/-- **The memoizing visit keeps meaning**, and does not panic on an expression whose columns
exist. -/
theorem memoizeExpr_spec (hS : S.Lawful) :
    ∀ {e : MirScalarExpr D Err T F} {parts : List (MirScalarExpr D Err T F)},
      RefersBack base.length parts → (∀ c ∈ e.support, c < base.length + parts.length) →
      ∃ e' parts', memoizeExpr base.length e parts = some (e', parts') ∧
        Memoized S base parts e e' parts'
  | .column _, _, hw, he | .literal _ _, _, hw, he | .callUnmaterializable _, _, hw, he =>
    memoizePost_spec hw he
  | .callUnary f a, parts, hw, he => by
    obtain ⟨a', p₁, h₁, m₁⟩ := memoizeExpr_spec hS hw (by simpa [support] using he)
    obtain ⟨e', p₂, h₂, m₂⟩ := memoizePost_spec m₁.refersBack (m₁.unary f).bound
    exact ⟨e', p₂, by simp [memoizeExpr, h₁, h₂], (m₁.unary f).trans m₂⟩
  | .callBinary f a b, parts, hw, he => by
    simp only [support, List.mem_append] at he
    have ha : ∀ c ∈ a.support, c < base.length + parts.length := fun c hc => he c (.inl hc)
    have hb : ∀ c ∈ b.support, c < base.length + parts.length := fun c hc => he c (.inr hc)
    cases hT : asTemporalFilter f a b with
    | error msg =>
      obtain ⟨a', p₁, h₁, m₁⟩ := memoizeExpr_spec hS hw ha
      obtain ⟨b', p₂, h₂, m₂⟩ := memoizeExpr_spec hS m₁.refersBack
        (bound_mono hb (Nat.add_le_add_left m₁.grows.length_le _))
      have m := m₁.binary f m₂ hb
      obtain ⟨e', p₃, h₃, m₃⟩ := memoizePost_spec m₂.refersBack m.bound
      exact ⟨e', p₃, by simp [memoizeExpr, hT, h₁, h₂, h₃], m.trans m₃⟩
    | ok r =>
      obtain ⟨f', swapped⟩ := r
      cases swapped with
      | true =>
        -- `a f mz_now()` is turned around and only `a` is visited
        obtain ⟨a', p₁, h₁, m₁⟩ := memoizeExpr_spec hS hw ha
        have m := m₁.binaryFlip hS (flip_of_asTemporalFilter hT) hb
        obtain ⟨e', p₂, h₂, m₂⟩ := memoizePost_spec m₁.refersBack m.bound
        exact ⟨e', p₂, by simp [memoizeExpr, hT, h₁, h₂], m.trans m₂⟩
      | false =>
        -- `mz_now() f b`: only `b` is visited
        obtain ⟨b', p₁, h₁, m₁⟩ := memoizeExpr_spec hS hw hb
        have m := m₁.binarySecond f ha
        obtain ⟨e', p₂, h₂, m₂⟩ := memoizePost_spec m₁.refersBack m.bound
        exact ⟨e', p₂, by simp [memoizeExpr, hT, h₁, h₂], m.trans m₂⟩
  | .callVariadic .coalesce (e :: es), parts, hw, he => by
    simp only [support, supportList, List.mem_append] at he
    obtain ⟨e', p₁, h₁, m₁⟩ := memoizeExpr_spec hS hw fun c hc => he c (.inl hc)
    have m := m₁.coalesce fun c hc => he c (.inr hc)
    obtain ⟨e'', p₂, h₂, m₂⟩ := memoizePost_spec m₁.refersBack m.bound
    exact ⟨e'', p₂, by simp [memoizeExpr, h₁, h₂], m.trans m₂⟩
  | .callVariadic .coalesce [], parts, hw, he => by
    have m : Memoized S base parts (.callVariadic .coalesce []) (.callVariadic .coalesce [])
        parts := .variadic .coalesce (.refl hw (by simp [supportList]))
    obtain ⟨e', p₁, h₁, m₁⟩ := memoizePost_spec hw m.bound
    exact ⟨e', p₁, by simp [memoizeExpr, memoizeExprList, h₁], m.trans m₁⟩
  | .callVariadic (.other g) es, parts, hw, he => by
    obtain ⟨es', p₁, h₁, m₁⟩ := memoizeExprList_spec hS hw (by simpa [support] using he)
    have m := Memoized.variadic (.other g) m₁
    obtain ⟨e', p₂, h₂, m₂⟩ := memoizePost_spec m₁.refersBack m.bound
    exact ⟨e', p₂, by simp [memoizeExpr, h₁, h₂], m.trans m₂⟩
  | .«if» c t e, parts, hw, he => by
    simp only [support, List.mem_append] at he
    obtain ⟨c', p₁, h₁, m₁⟩ := memoizeExpr_spec hS hw fun x hx => he x (.inl (.inl hx))
    have m := m₁.cond (fun x hx => he x (.inl (.inr hx))) fun x hx => he x (.inr hx)
    obtain ⟨e', p₂, h₂, m₂⟩ := memoizePost_spec m₁.refersBack m.bound
    exact ⟨e', p₂, by simp [memoizeExpr, h₁, h₂], m.trans m₂⟩

/-- `memoizeExpr_spec` for the arguments of a call. -/
theorem memoizeExprList_spec (hS : S.Lawful) :
    ∀ {es : List (MirScalarExpr D Err T F)} {parts : List (MirScalarExpr D Err T F)},
      RefersBack base.length parts → (∀ c ∈ supportList es, c < base.length + parts.length) →
      ∃ es' parts', memoizeExprList base.length es parts = some (es', parts') ∧
        MemoizedList S base parts es es' parts'
  | [], parts, hw, _ => ⟨[], parts, rfl, .refl hw (by simp [supportList])⟩
  | e :: es, parts, hw, he => by
    simp only [supportList, List.mem_append] at he
    obtain ⟨e', p₁, h₁, m₁⟩ := memoizeExpr_spec hS hw fun c hc => he c (.inl hc)
    obtain ⟨es', p₂, h₂, m₂⟩ := memoizeExprList_spec hS m₁.refersBack
      (bound_mono (fun c hc => he c (.inr hc)) (Nat.add_le_add_left m₁.grows.length_le _))
    exact ⟨e' :: es', p₂, by simp [memoizeExprList, h₁, h₂],
      MemoizedList.cons m₁ m₂ fun c hc => he c (.inr hc)⟩

end

end

end MirScalarExpr

end Materialize.Expr
