import Materialize.Expr.Ideal

/-!
# Datums, evaluation errors and scalar functions

A fragment of `Datum` (`src/repr/src/scalar.rs`) and `EvalError` (`src/expr/src/scalar.rs`),
and the functions over them that the optimizer treats specially or that show how it treats the
others: the comparisons, `step_mz_timestamp`, `coalesce`, `div_int64` and `or`. Together they
give `evalSem`, an `EvalSem` whose functions compute as the source's do.

The source's eager functions evaluate every argument, then report an argument of the wrong type,
then the first error, then a null (`impl_tuple_input_datum_type`); `eagerUnary` and
`eagerBinary` are that order. `or` and `coalesce` are lazy and read their arguments in turn.
`evalSem` is `Lawful`, and its `=` holds only of equal datums (`evalSem_eqIdentity`).
-/

namespace Materialize.Expr

/-- `Datum`: the variants the functions here read, in the source's order. -/
inductive Datum where
  | «false»
  | «true»
  | int64 (v : Int)
  | mzTimestamp (t : UInt64)
  | null
  deriving DecidableEq, Repr

namespace Datum

/-- The position of a variant in the declaration of `Datum`. -/
def variantIndex : Datum → Nat
  | .false => 0
  | .true => 1
  | .int64 _ => 4
  | .mzTimestamp _ => 24
  | .null => 32

/-- The derived order of `Datum`: by variant, then by value. -/
def compare : Datum → Datum → Ordering
  | .int64 a, .int64 b => Ord.compare a b
  | .mzTimestamp a, .mzTimestamp b => Ord.compare a b
  | a, b => Ord.compare a.variantIndex b.variantIndex

instance : Ord Datum := ⟨Datum.compare⟩

theorem eq_of_compare {a b : Datum} (h : Datum.compare a b = .eq) : a = b := by
  cases a <;> cases b <;> simp only [Datum.compare, variantIndex] at h <;>
    first
    | rfl
    | rw [Std.LawfulEqOrd.eq_of_compare h]
    | cases Std.LawfulEqOrd.eq_of_compare h

theorem compare_swap (a b : Datum) : (Datum.compare a b).swap = Datum.compare b a := by
  cases a <;> cases b <;> simp only [Datum.compare, variantIndex] <;> exact Std.OrientedOrd.eq_swap.symm

/-- `is_null`. -/
def isNull (d : Datum) : Bool := d == .null

/-- A Boolean as a datum. -/
def ofBool : Bool → Datum
  | .true => .true
  | .false => .false

end Datum

/-- `EvalError`: the variants raised here, in the source's order. The `Box<str>` payloads are the
messages. -/
inductive EvalError where
  | divisionByZero
  | int64OutOfRange (msg : String)
  | mzTimestampStepOverflow
  | internal (msg : String)
  deriving DecidableEq, Ord, Repr

/-- The functions the optimizer does not single out. -/
inductive Func where
  | divInt64
  | or
  deriving DecidableEq, Ord, Repr

/-- The `EvalError::Internal` of an argument of the wrong type. -/
def invalidInputType : EvalError := .internal "invalid input type"

/-- An argument that is not an error, not null, and not of the input type. -/
def invalidInput (accepts : Datum → Bool) : Except EvalError Datum → Bool
  | .ok d => !d.isNull && !accepts d
  | .error _ => false

/-- A unary function over the datums `accepts` admits: an error or a null passes through, and an
argument of another type is an internal error. -/
def eagerUnary (accepts : Datum → Bool) (call : Datum → Except EvalError Datum) :
    Except EvalError Datum → Except EvalError Datum
  | .error e => .error e
  | .ok a => if a.isNull then .ok .null else if accepts a then call a else .error invalidInputType

/-- A binary function over the datums `accepts` admits: both arguments are evaluated; an argument
of another type is reported first, then the first error, then a null. -/
def eagerBinary (accepts : Datum → Bool) (call : Datum → Datum → Except EvalError Datum)
    (a b : Except EvalError Datum) : Except EvalError Datum :=
  if invalidInput accepts a || invalidInput accepts b then .error invalidInputType
  else
    match a, b with
    | .error e, _ => .error e
    | .ok _, .error e => .error e
    | .ok a, .ok b => if a.isNull || b.isNull then .ok .null else call a b

/-- Comparisons take any datum that is not null (`ExcludeNull<Datum>`). -/
def compareWith (test : Ordering → Bool) : Except EvalError Datum → Except EvalError Datum →
    Except EvalError Datum :=
  eagerBinary (fun _ => true) fun a b => .ok (.ofBool (test (Ord.compare a b)))

/-- `div_int64`. Reference: `func.rs:1283`. -/
def divInt64 : Datum → Datum → Except EvalError Datum
  | .int64 a, .int64 b =>
    if b = 0 then .error .divisionByZero
    else if a = -2 ^ 63 ∧ b = -1 then
      .error (.int64OutOfRange (toString a ++ " / " ++ toString b))
    else .ok (.int64 (a.tdiv b))
  | _, _ => .error invalidInputType

/-- `step_mz_timestamp`. Reference: `mz_timestamp.rs:164`. -/
def stepMzTimestamp : Datum → Except EvalError Datum
  | .mzTimestamp a => if a = UInt64.ofNat (2 ^ 64 - 1) then .error .mzTimestampStepOverflow
    else .ok (.mzTimestamp (a + 1))
  | _ => .error invalidInputType

/-- `Coalesce::eval`: the first argument that is not null; an error before it is returned. -/
def coalesce : List (Except EvalError Datum) → Except EvalError Datum
  | [] => .ok .null
  | .error e :: _ => .error e
  | .ok d :: rest => if d.isNull then coalesce rest else .ok d

/-- `std::cmp::max(err, Some(this_err))` over optional errors. -/
def maxError (err : Option EvalError) (e : EvalError) : EvalError :=
  match err with
  | some e' => if Ord.compare e' e = .gt then e' else e
  | none => e

/-- The loop of `Or::eval`, with the flag for a null seen and the greatest error seen. A true
argument returns at once. The source's `unreachable!()` for an argument that is not a Boolean is
taken as a null here: the functions of the model cannot panic. Reference: `variadic.rs:1188`. -/
def orLoop (null : Bool) (err : Option EvalError) : List (Except EvalError Datum) →
    Except EvalError Datum
  | [] =>
    match err with
    | some e => .error e
    | none => if null then .ok .null else .ok .false
  | .ok .true :: _ => .ok .true
  | .ok .false :: rest => orLoop null err rest
  | .ok _ :: rest => orLoop true err rest
  | .error e :: rest => orLoop null (some (maxError err e)) rest

/-- The semantics of the functions above. -/
def evalSem : EvalSem Datum EvalError Func where
  datumTrue := .true
  datumFalse := .false
  datumNull := .null
  cannotEvaluate _ := .internal "cannot evaluate unmaterializable function"
  nonBoolean _ := .internal "if condition evaluated to non-boolean datum"
  unary
    | .stepMzTimestamp => eagerUnary (· matches .mzTimestamp _) stepMzTimestamp
    | .other _ => eagerUnary (fun _ => false) fun _ => .error invalidInputType
  binary
    | .eq => compareWith (· == .eq)
    | .lt => compareWith (· == .lt)
    | .lte => compareWith (· != .gt)
    | .gt => compareWith (· == .gt)
    | .gte => compareWith (· != .lt)
    | .other .divInt64 => eagerBinary (· matches .int64 _) divInt64
    | .other .or => eagerBinary (fun _ => false) fun _ _ => .error invalidInputType
  variadic
    | .coalesce => coalesce
    | .other .or => orLoop false none
    | .other .divInt64 => fun _ => .error invalidInputType

/-! ## The laws of `evalSem` -/

open Completion

theorem eagerUnary_error (accepts : Datum → Bool) (call : Datum → Except EvalError Datum)
    (e : EvalError) : ∃ e', eagerUnary accepts call (.error e) = .error e' :=
  ⟨e, rfl⟩

/-- An eager binary function returns a value only at arguments that have values. -/
theorem eagerBinary_eq_ok {accepts : Datum → Bool} {call : Datum → Datum → Except EvalError Datum}
    {a b : Except EvalError Datum} {v : Datum} (h : eagerBinary accepts call a b = .ok v) :
    (∃ x, a = .ok x) ∧ ∃ y, b = .ok y := by
  unfold eagerBinary at h
  split_ifs at h
  split at h
  · cases h
  · cases h
  · exact ⟨⟨_, rfl⟩, ⟨_, rfl⟩⟩

theorem eagerBinary_mono (accepts : Datum → Bool) (call : Datum → Datum → Except EvalError Datum)
    {x₁ x₂ y₁ y₂ : Except EvalError Datum} {v : Datum} (h₁ : ErrorOrEq x₁ y₁)
    (h₂ : ErrorOrEq x₂ y₂) (h : eagerBinary accepts call x₁ x₂ = .ok v) :
    eagerBinary accepts call y₁ y₂ = .ok v := by
  obtain ⟨⟨a, rfl⟩, ⟨b, rfl⟩⟩ := eagerBinary_eq_ok h
  rw [h₁.eq_of_ok rfl, h₂.eq_of_ok rfl]
  exact h

/-- The functions of `evalSem` that are not lazy fail at every error. -/
theorem strict_invalid (x : List (Except EvalError Datum)) :
    (∃ e, .error e ∈ x) → ∃ e, (fun _ : List (Except EvalError Datum) =>
      (.error invalidInputType : Except EvalError Datum)) x = .error e :=
  fun _ => ⟨_, rfl⟩

/-- `coalesce` returns a value only from a prefix of nulls and the value itself, which any
related arguments share. -/
theorem coalesce_mono : ErrorMonotone coalesce := by
  intro x y v hxy hv
  induction hxy with
  | nil => exact hv
  | @cons a b x y hab _ ih =>
    cases a with
    | error e => cases hv
    | ok d =>
      rw [hab.eq_of_ok rfl]
      cases hd : d.isNull
      · simpa [coalesce, hd] using hv
      · simp only [coalesce, hd, if_true] at hv ⊢
        exact ih hv

/-- `or` is true exactly when one of its arguments is. -/
theorem orLoop_eq_true_iff (null : Bool) (err : Option EvalError)
    (x : List (Except EvalError Datum)) : orLoop null err x = .ok .true ↔ .ok .true ∈ x := by
  induction x generalizing null err with
  | nil =>
    cases err <;> cases null <;> simp [orLoop]
  | cons a x ih =>
    rcases a with e | d
    · simp [orLoop, ih]
    · cases d <;> simp [orLoop, ih]

/-- Without a true argument `or` has a value only if no argument was an error. -/
theorem orLoop_no_error {null : Bool} {err : Option EvalError} {x : List (Except EvalError Datum)}
    {v : Datum} (h : orLoop null err x = .ok v) (ht : .ok .true ∉ x) :
    ∀ a ∈ x, ∃ d, a = .ok d := by
  induction x generalizing null err with
  | nil => simp
  | cons a x ih =>
    have hx : .ok .true ∉ x := fun hx => ht (List.mem_cons_of_mem _ hx)
    rcases a with e | d
    · exfalso
      have herr : ∀ null e' x, orLoop null (some e') x ≠ .ok v ∨ .ok .true ∈ x := by
        intro null e' x
        induction x generalizing null e' with
        | nil => simp [orLoop]
        | cons b x ihx =>
          rcases b with e'' | d
          · simpa [orLoop] using ihx null (maxError (some e') e'')
          · cases d <;> simp [orLoop, ihx]
      rcases herr null (maxError err e) x with hne | hmem
      · exact hne h
      · exact hx hmem
    · intro b hb
      rcases List.mem_cons.1 hb with rfl | hb
      · exact ⟨d, rfl⟩
      · -- past a datum that is not true the loop goes on, with the null flag set or not
        have hrest : ∃ null', orLoop null' err x = .ok v := by
          cases d
          · exact ⟨null, h⟩
          · exact absurd List.mem_cons_self ht
          all_goals exact ⟨true, h⟩
        obtain ⟨_, hrest⟩ := hrest
        exact ih hrest hx b hb

theorem orLoop_mono : ErrorMonotone (orLoop false none) := by
  intro x y v hxy hv
  by_cases ht : .ok .true ∈ x
  · have hvt : v = .true := by
      have := (orLoop_eq_true_iff false none x).2 ht
      rw [hv] at this
      cases this
      rfl
    subst hvt
    exact (orLoop_eq_true_iff false none y).2 (mem_of_forall₂_errorOrEq hxy ht)
  · rw [eq_of_forall₂_errorOrEq hxy (orLoop_no_error hv ht)]
    exact hv

/-- `evalSem` satisfies the laws the ideal semantics needs. -/
theorem evalSem_lawful : evalSem.Lawful where
  unary_mono f x y v h hv := by
    cases f <;> exact h.map_of_strict (eagerUnary_error _ _) hv
  binary_mono f x₁ x₂ y₁ y₂ v h₁ h₂ hv := by
    rcases f with _ | _ | _ | _ | _ | (_ | _) <;> exact eagerBinary_mono _ _ h₁ h₂ hv
  variadic_mono f := by
    rcases f with _ | (_ | _)
    · exact coalesce_mono
    · exact errorMonotone_of_strict strict_invalid
    · exact orLoop_mono
  binary_flip f f' hf x y := by
    cases f <;> simp only [BinaryFunc.flip, Option.some.injEq, reduceCtorEq] at hf <;> subst hf <;>
      simp only [evalSem, compareWith, eagerBinary, invalidInput, Bool.or_comm, Ord.compare,
        ← Datum.compare_swap y x] <;>
      cases Datum.compare y x <;> rfl
  true_ne_false := by decide

/-- `=` of `evalSem` is true only of equal datums. -/
theorem evalSem_eqIdentity : evalSem.EqIdentity := by
  intro x y h
  simp only [evalSem, compareWith, eagerBinary, invalidInput] at h
  split_ifs at h with hn
  · cases h
  · cases hc : Datum.compare x y <;> simp [Ord.compare, hc, Datum.ofBool] at h
    exact Datum.eq_of_compare hc

end Materialize.Expr
