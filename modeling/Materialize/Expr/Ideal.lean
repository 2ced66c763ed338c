import Materialize.Lib.Completion
import Materialize.Expr.Scalar

/-!
# The most-defined meaning of a scalar expression

Evaluation stops at errors and runs only the arguments a function asks for. The optimizer moves
evaluation around. It evaluates once what was evaluated twice, and eagerly what a lazy `AND`
might have skipped. It also turns `e < mz_now()` around into `mz_now() > e`. None of this may
change a value that evaluation returns; it may only change which errors are met. To say so, an
expression gets a *most-defined meaning* `idealEval`. It reads columns that may be undefined,
and gives every call the value its function takes at every completion of the undefined
arguments (`Completion.extend`).

Under the laws of `EvalSem.Lawful`, `eval_below` says that evaluation computes below this
meaning. The rewrites the optimizer makes keep the meaning exactly:
- `idealEval_congr`: renumbered columns with the same meaning give the same meaning.
- `idealEval_bindColumns`: replacing a column by an expression of the same meaning keeps it.
- `idealEval_flip`: turning a comparison around keeps it.

`idealEval_eq_true` is the step the equality-alias rewrite needs: a true `a = b` makes the two
sides mean the same datum.
-/

namespace Materialize.Expr

open Completion

variable {D Err T F : Type}

namespace EvalSem

variable (S : EvalSem D Err F)

/-- A unary function on total arguments, as a partial function of an argument list. -/
def unaryOn (f : UnaryFunc F) : List D → Option D
  | [x] => (S.unary f (.ok x)).toOption
  | _ => none

/-- A binary function on total arguments, as a partial function of an argument list. -/
def binaryOn (f : BinaryFunc F) : List D → Option D
  | [x, y] => (S.binary f (.ok x) (.ok y)).toOption
  | _ => none

/-- A variadic function on total arguments, as a partial function of an argument list. -/
def variadicOn (f : VariadicFunc F) (c : List D) : Option D :=
  (S.variadic f (c.map .ok)).toOption

/-- The laws the optimizer's rewrites need of the functions. Every function keeps a value it
returns when arguments that were errors are given values instead: no function turns an error
into a value it would not also return otherwise. The comparisons turn around as `flip` says.
And `true` and `false` are different datums. -/
structure Lawful : Prop where
  unary_mono : ∀ f x y v, ErrorOrEq x y → S.unary f x = .ok v → S.unary f y = .ok v
  binary_mono : ∀ f x₁ x₂ y₁ y₂ v, ErrorOrEq x₁ y₁ → ErrorOrEq x₂ y₂ →
    S.binary f x₁ x₂ = .ok v → S.binary f y₁ y₂ = .ok v
  variadic_mono : ∀ f, ErrorMonotone (S.variadic f)
  binary_flip : ∀ f f', f.flip = some f' → ∀ x y : D,
    S.binary f (.ok x) (.ok y) = S.binary f' (.ok y) (.ok x)
  true_ne_false : S.datumTrue ≠ S.datumFalse

/-- SQL `=` holds of two datums only if they are the same datum. -/
def EqIdentity : Prop :=
  ∀ x y : D, S.binary .eq (.ok x) (.ok y) = .ok S.datumTrue → x = y

end EvalSem

namespace MirScalarExpr

variable [DecidableEq D] (S : EvalSem D Err F)

mutual

/-- The most-defined meaning of an expression over columns `env` that may be undefined. -/
noncomputable def idealEval (env : List (Option D)) : MirScalarExpr D Err T F → Option D
  | .column c => env[c]?.join
  | .literal r _ => r.toOption
  | .callUnmaterializable _ => none
  | .callUnary f a => extend (S.unaryOn f) [idealEval env a]
  | .callBinary f a b => extend (S.binaryOn f) [idealEval env a, idealEval env b]
  | .callVariadic f es => extend (S.variadicOn f) (idealEvalList env es)
  | .«if» c t e =>
    match idealEval env c with
    | some d =>
      if d = S.datumTrue then idealEval env t
      else if d = S.datumFalse ∨ d = S.datumNull then idealEval env e
      else none
    | none => none

/-- `idealEval` of each argument of a call. -/
noncomputable def idealEvalList (env : List (Option D)) :
    List (MirScalarExpr D Err T F) → List (Option D)
  | [] => []
  | e :: es => idealEval env e :: idealEvalList env es

end

section

variable {S}

/-! ## Congruence -/

mutual

/-- The meaning of an expression reads only the columns of its support. -/
theorem idealEval_congr {env env' : List (Option D)} :
    ∀ (e : MirScalarExpr D Err T F), (∀ c ∈ e.support, env'[c]?.join = env[c]?.join) →
      idealEval S env' e = idealEval S env e
  | .column c, h => h c (by simp [support])
  | .literal _ _, _ | .callUnmaterializable _, _ => rfl
  | .callUnary f a, h => by
    simp only [idealEval, idealEval_congr a (by simpa [support] using h)]
  | .callBinary f a b, h => by
    simp only [support, List.mem_append] at h
    simp only [idealEval, idealEval_congr a fun c hc => h c (.inl hc),
      idealEval_congr b fun c hc => h c (.inr hc)]
  | .callVariadic f es, h => by
    simp only [idealEval, idealEvalList_congr es (by simpa [support] using h)]
  | .«if» c t e, h => by
    simp only [support, List.mem_append] at h
    simp only [idealEval, idealEval_congr c fun x hx => h x (.inl (.inl hx)),
      idealEval_congr t fun x hx => h x (.inl (.inr hx)),
      idealEval_congr e fun x hx => h x (.inr hx)]

theorem idealEvalList_congr {env env' : List (Option D)} :
    ∀ (es : List (MirScalarExpr D Err T F)), (∀ c ∈ supportList es, env'[c]?.join = env[c]?.join) →
      idealEvalList S env' es = idealEvalList S env es
  | [], _ => rfl
  | e :: es, h => by
    simp only [supportList, List.mem_append] at h
    simp only [idealEvalList, idealEval_congr e fun c hc => h c (.inl hc),
      idealEvalList_congr es fun c hc => h c (.inr hc)]

end

/-- Columns appended after an expression's support do not change its meaning. -/
theorem idealEval_append {env : List (Option D)} (more : List (Option D))
    {e : MirScalarExpr D Err T F} (he : ∀ c ∈ e.support, c < env.length) :
    idealEval S (env ++ more) e = idealEval S env e :=
  idealEval_congr e fun c hc => by rw [List.getElem?_append_left (he c hc)]

/-- A longer list of columns that starts with `env` gives an expression over `env` the same
meaning. -/
theorem idealEval_of_isPrefix {env env' : List (Option D)} (h : env <+: env')
    {e : MirScalarExpr D Err T F} (he : ∀ c ∈ e.support, c < env.length) :
    idealEval S env' e = idealEval S env e := by
  obtain ⟨more, rfl⟩ := h
  exact idealEval_append more he

/-- `idealEval_of_isPrefix` for the arguments of a call. -/
theorem idealEvalList_of_isPrefix {env env' : List (Option D)} (h : env <+: env')
    {es : List (MirScalarExpr D Err T F)} (hes : ∀ c ∈ supportList es, c < env.length) :
    idealEvalList S env' es = idealEvalList S env es := by
  obtain ⟨more, rfl⟩ := h
  exact idealEvalList_congr es fun c hc => by rw [List.getElem?_append_left (hes c hc)]

/-! ## Substitution -/

mutual

/-- Replacing each column by an expression that means, over `env'`, what the column means
over `env` keeps the meaning. This covers renumbering (`permute`, `permute_map`) and inlining. -/
theorem idealEval_bindColumns {env env' : List (Option D)}
    {g : Nat → Option (MirScalarExpr D Err T F)} :
    ∀ {e e' : MirScalarExpr D Err T F}, e.bindColumns g = some e' →
      (∀ c ∈ e.support, ∀ x, g c = some x → idealEval S env' x = env[c]?.join) →
      idealEval S env' e' = idealEval S env e
  | .column c, e', h, hg => hg c (by simp [support]) e' h
  | .literal _ _, e', h, _ | .callUnmaterializable _, e', h, _ => by
    simp only [bindColumns, Option.some.injEq] at h
    subst h; rfl
  | .callUnary f a, e', h, hg => by
    obtain ⟨a', ha, rfl⟩ := Option.map_eq_some_iff.1 h
    simp only [idealEval, idealEval_bindColumns ha (by simpa [support] using hg)]
  | .callBinary f a b, e', h, hg => by
    simp only [bindColumns, Option.bind_eq_bind, Option.bind_eq_some_iff,
      Option.pure_def, Option.some.injEq] at h
    obtain ⟨a', ha, b', hb, rfl⟩ := h
    simp only [support, List.mem_append] at hg
    simp only [idealEval, idealEval_bindColumns ha fun c hc => hg c (.inl hc),
      idealEval_bindColumns hb fun c hc => hg c (.inr hc)]
  | .callVariadic f es, e', h, hg => by
    obtain ⟨es', hes, rfl⟩ := Option.map_eq_some_iff.1 h
    simp only [idealEval, idealEvalList_bindColumns hes (by simpa [support] using hg)]
  | .«if» c t e, e', h, hg => by
    simp only [bindColumns, Option.bind_eq_bind, Option.bind_eq_some_iff,
      Option.pure_def, Option.some.injEq] at h
    obtain ⟨c', hc, t', ht, e'', he, rfl⟩ := h
    simp only [support, List.mem_append] at hg
    simp only [idealEval, idealEval_bindColumns hc fun x hx => hg x (.inl (.inl hx)),
      idealEval_bindColumns ht fun x hx => hg x (.inl (.inr hx)),
      idealEval_bindColumns he fun x hx => hg x (.inr hx)]

theorem idealEvalList_bindColumns {env env' : List (Option D)}
    {g : Nat → Option (MirScalarExpr D Err T F)} :
    ∀ {es es' : List (MirScalarExpr D Err T F)}, bindColumnsList g es = some es' →
      (∀ c ∈ supportList es, ∀ x, g c = some x → idealEval S env' x = env[c]?.join) →
      idealEvalList S env' es' = idealEvalList S env es
  | [], es', h, _ => by
    simp only [bindColumnsList, Option.some.injEq] at h
    subst h; rfl
  | e :: es, es', h, hg => by
    simp only [bindColumnsList, Option.bind_eq_bind, Option.bind_eq_some_iff,
      Option.pure_def, Option.some.injEq] at h
    obtain ⟨e', he, es'', hes, rfl⟩ := h
    simp only [supportList, List.mem_append] at hg
    simp only [idealEvalList, idealEval_bindColumns he fun c hc => hg c (.inl hc),
      idealEvalList_bindColumns hes fun c hc => hg c (.inr hc)]

end

/-! ## Columns defined one after another -/

variable (S) in
/-- The meanings of the columns `base` followed by one column per expression, each expression
read over the columns before it: how a `MapFilterProject` extends its input row. -/
noncomputable def idealColumns (base : List (Option D)) (exprs : List (MirScalarExpr D Err T F)) :
    List (Option D) :=
  exprs.foldl (fun env e => env ++ [idealEval S env e]) base

/-- Each expression refers only to the columns before its own: the `arity` columns it starts
from and the expressions before it. -/
def RefersBack (arity : Nat) (exprs : List (MirScalarExpr D Err T F)) : Prop :=
  ∀ j (h : j < exprs.length), ∀ c ∈ exprs[j].support, c < arity + j

@[simp] theorem idealColumns_nil (base : List (Option D)) :
    idealColumns S base ([] : List (MirScalarExpr D Err T F)) = base := rfl

theorem idealColumns_cons (base : List (Option D)) (e : MirScalarExpr D Err T F) (es) :
    idealColumns S base (e :: es) = idealColumns S (base ++ [idealEval S base e]) es := rfl

theorem idealColumns_append (base : List (Option D)) (es more : List (MirScalarExpr D Err T F)) :
    idealColumns S base (es ++ more) = idealColumns S (idealColumns S base es) more := by
  simp [idealColumns, List.foldl_append]

theorem idealColumns_concat (base : List (Option D)) (es : List (MirScalarExpr D Err T F)) (e) :
    idealColumns S base (es ++ [e]) =
      idealColumns S base es ++ [idealEval S (idealColumns S base es) e] := by
  rw [idealColumns_append]
  rfl

@[simp] theorem length_idealColumns (base : List (Option D)) (es : List (MirScalarExpr D Err T F)) :
    (idealColumns S base es).length = base.length + es.length := by
  induction es generalizing base with
  | nil => simp
  | cons e es ih => simp [idealColumns_cons, ih]; omega

/-- The columns one starts from stay as they are. -/
theorem prefix_idealColumns (base : List (Option D)) (es : List (MirScalarExpr D Err T F)) :
    base <+: idealColumns S base es := by
  induction es generalizing base with
  | nil => exact List.prefix_refl base
  | cons e es ih =>
    rw [idealColumns_cons]
    exact (List.prefix_append base _).trans (ih _)

/-- Columns defined by more expressions extend those defined by fewer. -/
theorem idealColumns_isPrefix (base : List (Option D)) (es more : List (MirScalarExpr D Err T F)) :
    idealColumns S base es <+: idealColumns S base (es ++ more) := by
  rw [idealColumns_append]
  exact prefix_idealColumns _ _

/-- Columns defined by a longer list of expressions extend those of a prefix of it. -/
theorem idealColumns_prefix_of_isPrefix {base : List (Option D)}
    {es es' : List (MirScalarExpr D Err T F)} (h : es <+: es') :
    idealColumns S base es <+: idealColumns S base es' := by
  obtain ⟨more, rfl⟩ := h
  exact idealColumns_isPrefix base es more

/-- An expression over the columns of a prefix of the expressions means the same over the
columns of all of them. -/
theorem idealEval_idealColumns_of_isPrefix {base : List (Option D)}
    {es es' : List (MirScalarExpr D Err T F)} (h : es <+: es') {e : MirScalarExpr D Err T F}
    (he : ∀ c ∈ e.support, c < base.length + es.length) :
    idealEval S (idealColumns S base es') e = idealEval S (idealColumns S base es) e :=
  idealEval_of_isPrefix (idealColumns_prefix_of_isPrefix h) (by simpa using he)

/-- The column an expression defines means what the expression means. -/
theorem idealColumns_getElem {base : List (Option D)} {es : List (MirScalarExpr D Err T F)}
    (hes : RefersBack base.length es) {j : Nat} (hj : j < es.length) :
    (idealColumns S base es)[base.length + j]?.join = idealEval S (idealColumns S base es) es[j] := by
  have hsplit : es = es.take j ++ es[j] :: es.drop (j + 1) := by simp
  have hlen : (idealColumns S base (es.take j)).length = base.length + j := by
    rw [length_idealColumns, List.length_take]
    omega
  obtain ⟨t, ht⟩ : idealColumns S base (es.take j ++ [es[j]]) <+: idealColumns S base es := by
    have hp := idealColumns_isPrefix (S := S) base (es.take j ++ [es[j]]) (es.drop (j + 1))
    rwa [List.append_assoc, List.singleton_append, ← hsplit] at hp
  have hsupp : ∀ c ∈ es[j].support, c < (idealColumns S base (es.take j)).length :=
    fun c hc => hlen ▸ hes j hj c hc
  rw [idealColumns_concat] at ht
  rw [← ht, List.append_assoc, idealEval_append _ hsupp, List.getElem?_append_right (by omega)]
  simp [hlen]

omit [DecidableEq D] in
theorem RefersBack.concat {arity : Nat} {es : List (MirScalarExpr D Err T F)}
    (hes : RefersBack arity es) {e : MirScalarExpr D Err T F}
    (he : ∀ c ∈ e.support, c < arity + es.length) : RefersBack arity (es ++ [e]) := by
  intro j hj c hc
  rcases Nat.lt_or_ge j es.length with hlt | hge
  · rw [List.getElem_append_left hlt] at hc
    exact hes j hlt c hc
  · have hj' : j = es.length := by simp at hj; omega
    subst hj'
    simp only [List.getElem_append_right (Nat.le_refl _), Nat.sub_self,
      List.getElem_cons_zero] at hc
    exact he c hc

omit [DecidableEq D] in
theorem RefersBack.of_prefix {arity : Nat} {es es' : List (MirScalarExpr D Err T F)}
    (hes : RefersBack arity es') (h : es <+: es') : RefersBack arity es := by
  intro j hj c hc
  have hj' : j < es'.length := Nat.lt_of_lt_of_le hj h.length_le
  rw [h.getElem hj] at hc
  exact hes j hj' c hc

/-! ## Evaluation computes below the meaning -/

mutual

/-- **Evaluation computes below the most-defined meaning.** A value that `eval` returns over
a row of datums is the meaning over any columns that agree with those datums. At a call, the
laws of `Lawful` carry the value from the arguments `eval` met (some of them errors) to every
completion of the arguments' meanings. -/
theorem eval_below (hS : S.Lawful) {datums : List D} {env : List (Option D)}
    (henv : ∀ (i : Nat) d, datums[i]? = some d → env[i]? = some (some d)) :
    ∀ {e : MirScalarExpr D Err T F} {x}, eval S datums e = some x → Below x (idealEval S env e)
  | .column c, x, h => by
    obtain ⟨d, hd, rfl⟩ := Option.map_eq_some_iff.1 h
    simp [idealEval, henv c d hd]
  | .literal r _, x, h => by
    cases h
    cases r <;> simp [idealEval, Except.toOption]
  | .callUnmaterializable _, x, h => by
    cases h
    simp
  | .callUnary f a, x, h => by
    obtain ⟨xa, ha, rfl⟩ := Option.map_eq_some_iff.1 h
    intro v hv
    have : Inhabited D := ⟨S.datumTrue⟩
    simp only [idealEval]
    rw [extend_eq_some_iff]
    intro c hc
    obtain ⟨y, c', hy, hc', rfl⟩ := List.forall₂_cons_right_iff.1 hc
    rw [List.forall₂_nil_right_iff.1 hc']
    simp [EvalSem.unaryOn, Except.toOption,
      hS.unary_mono f xa _ v (errorOrEq_of_below (eval_below hS henv ha) hy) hv]
  | .callBinary f a b, x, h => by
    simp only [eval, Option.bind_eq_bind, Option.bind_eq_some_iff, Option.pure_def,
      Option.some.injEq] at h
    obtain ⟨xa, ha, xb, hb, rfl⟩ := h
    intro v hv
    have : Inhabited D := ⟨S.datumTrue⟩
    simp only [idealEval]
    rw [extend_eq_some_iff]
    intro c hc
    obtain ⟨y₁, c', hy₁, hc', rfl⟩ := List.forall₂_cons_right_iff.1 hc
    obtain ⟨y₂, c'', hy₂, hc'', rfl⟩ := List.forall₂_cons_right_iff.1 hc'
    rw [List.forall₂_nil_right_iff.1 hc'']
    simp [EvalSem.binaryOn, Except.toOption,
      hS.binary_mono f xa xb _ _ v (errorOrEq_of_below (eval_below hS henv ha) hy₁)
        (errorOrEq_of_below (eval_below hS henv hb) hy₂) hv]
  | .callVariadic f es, x, h => by
    obtain ⟨xs, hxs, rfl⟩ := Option.map_eq_some_iff.1 h
    intro v hv
    have : Inhabited D := ⟨S.datumTrue⟩
    exact extend_of_below (hS.variadic_mono f) (evalList_below hS henv hxs) hv
  | .«if» c t e, x, h => by
    simp only [eval, Option.bind_eq_bind, Option.bind_eq_some_iff] at h
    obtain ⟨xc, hc, h⟩ := h
    cases xc with
    | error err =>
      cases h
      simp
    | ok d =>
      have hcd : idealEval S env c = some d := eval_below hS henv hc d rfl
      simp only [idealEval, hcd]
      simp only at h
      split_ifs at h ⊢
      · exact eval_below hS henv h
      · exact eval_below hS henv h
      · cases h
        simp

/-- `eval_below` for the arguments of a call. -/
theorem evalList_below (hS : S.Lawful) {datums : List D} {env : List (Option D)}
    (henv : ∀ (i : Nat) d, datums[i]? = some d → env[i]? = some (some d)) :
    ∀ {es : List (MirScalarExpr D Err T F)} {xs}, evalList S datums es = some xs →
      List.Forall₂ Below xs (idealEvalList S env es)
  | [], xs, h => by
    cases h
    exact List.Forall₂.nil
  | e :: es, xs, h => by
    simp only [evalList, Option.bind_eq_bind, Option.bind_eq_some_iff, Option.pure_def,
      Option.some.injEq] at h
    obtain ⟨x, hx, xs', hxs, rfl⟩ := h
    exact List.Forall₂.cons (eval_below hS henv hx) (evalList_below hS henv hxs)

end

/-! ## Comparisons turned around -/

/-- Turning a comparison around, as `as_mut_temporal_filter` does, keeps the meaning. -/
theorem idealEval_flip (hS : S.Lawful) {f f' : BinaryFunc F} (hf : f.flip = some f')
    (env : List (Option D)) (a b : MirScalarExpr D Err T F) :
    idealEval S env (.callBinary f' b a) = idealEval S env (.callBinary f a b) := by
  have : Inhabited D := ⟨S.datumTrue⟩
  simp only [idealEval]
  refine (extend_pair_swap _ _ (fun x y => ?_) _ _).symm
  simp only [EvalSem.binaryOn, hS.binary_flip f f' hf x y]

/-! ## A true equality -/

/-- A true `a = b` means its two sides have one meaning. The hypothesis `EqIdentity` is what
makes it so; `true ≠ false` rules out a side that is undefined, which could be completed either
way. -/
theorem idealEval_eq_true (hS : S.Lawful) (hEq : S.EqIdentity) {env : List (Option D)}
    {a b : MirScalarExpr D Err T F}
    (h : idealEval S env (.callBinary .eq a b) = some S.datumTrue) :
    ∃ d, idealEval S env a = some d ∧ idealEval S env b = some d := by
  simp only [idealEval] at h
  have hall := extend_eq_some_of h
  generalize idealEval S env a = oa at hall ⊢
  generalize idealEval S env b = ob at hall ⊢
  -- the function is true at every completion, so every completion has equal sides
  have hsame : ∀ x y, Completes [x, y] [oa, ob] → x = y := by
    intro x y hc
    have hxy := hall [x, y] hc
    simp only [EvalSem.binaryOn] at hxy
    exact hEq x y (by
      cases hres : S.binary .eq (.ok x) (.ok y) <;> simp_all [Except.toOption])
  cases oa with
  | none =>
    have h₁ := hsame S.datumTrue (ob.getD S.datumTrue) (completes_pair (by simp) getD_completes)
    have h₂ := hsame S.datumFalse (ob.getD S.datumTrue) (completes_pair (by simp) getD_completes)
    exact absurd (h₁.trans h₂.symm) hS.true_ne_false
  | some da =>
    cases ob with
    | none =>
      have h₁ := hsame da S.datumTrue (completes_pair (by simp) (by simp))
      have h₂ := hsame da S.datumFalse (completes_pair (by simp) (by simp))
      exact absurd (h₁.symm.trans h₂) hS.true_ne_false
    | some db =>
      exact ⟨da, rfl, by rw [hsame da db (completes_pair (by simp) (by simp))]⟩

end

end MirScalarExpr

end Materialize.Expr
