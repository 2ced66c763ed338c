import Mathlib

/-!
# Scalar expressions

`MirScalarExpr` (`src/expr/src/scalar.rs`): the expressions a `MapFilterProject` maps rows with
and filters them by. Alongside it are the parts of its interface that
`MapFilterProject::optimize` and evaluation use:
- structural equality and the derived order;
- size, column support and renumbering of columns;
- the `mz_now()` test and the temporal-filter normal form (`scalar/optimizable.rs`);
- evaluation.

The model separates function symbols from their meaning. The optimizer inspects a few functions
by name: `mz_now()`, `step_mz_timestamp`, the five comparisons and `COALESCE`. Every other
function is `other f`, with `f` drawn from a parameter type. `EvalSem` says what evaluation
tests datums for, and how each function evaluates from the results of its arguments. The source
hands each function its argument expressions to evaluate lazily. Evaluation has no effects, so
a function's result is a function of its arguments' results; results it never asks for do not
matter.

A panic of the source (an index out of range, a missing map key) is `none`. An evaluation
error is `Except.error`.
-/

namespace Materialize.Expr

/-- `UnmaterializableFunc`: only `mz_now()` is told apart. -/
inductive UnmaterializableFunc where
  | mzNow
  | other (name : String)
  deriving DecidableEq, Ord

/-- `UnaryFunc`: `step_mz_timestamp` is told apart. -/
inductive UnaryFunc (F : Type) where
  | stepMzTimestamp
  | other (f : F)
  deriving DecidableEq, Ord

/-- `BinaryFunc`: the comparisons are told apart. -/
inductive BinaryFunc (F : Type) where
  | eq
  | lt
  | lte
  | gt
  | gte
  | other (f : F)
  deriving DecidableEq, Ord

/-- `VariadicFunc`: `COALESCE` is told apart. -/
inductive VariadicFunc (F : Type) where
  | coalesce
  | other (f : F)
  deriving DecidableEq, Ord

/-- `MirScalarExpr` over datums `D`, errors `Err`, column types `T` and function names `F`.
The column name that `Column` carries compares equal always (`TreatAsEqual`) and is left out. -/
inductive MirScalarExpr (D Err T F : Type) where
  | column (c : Nat)
  | literal (res : Except Err D) (typ : T)
  | callUnmaterializable (func : UnmaterializableFunc)
  | callUnary (func : UnaryFunc F) (expr : MirScalarExpr D Err T F)
  | callBinary (func : BinaryFunc F) (expr1 expr2 : MirScalarExpr D Err T F)
  | callVariadic (func : VariadicFunc F) (exprs : List (MirScalarExpr D Err T F))
  | «if» (cond thn els : MirScalarExpr D Err T F)

/-- The comparison that `e f mz_now()` is when written `mz_now() f' e`. Reference:
`as_mut_temporal_filter` (`scalar.rs:557`). -/
def BinaryFunc.flip {F : Type} : BinaryFunc F → Option (BinaryFunc F)
  | .eq => some .eq
  | .lt => some .gt
  | .lte => some .gte
  | .gt => some .lt
  | .gte => some .lte
  | .other _ => none

/-- What evaluation needs to know of datums and functions: the datums `if` and filters test for,
the errors evaluation itself raises, and the result of every function from the results of its
arguments. -/
structure EvalSem (D Err F : Type) where
  datumTrue : D
  datumFalse : D
  datumNull : D
  /-- `cannot evaluate unmaterializable function` -/
  cannotEvaluate : UnmaterializableFunc → Err
  /-- `if condition evaluated to non-boolean datum` -/
  nonBoolean : D → Err
  unary : UnaryFunc F → Except Err D → Except Err D
  binary : BinaryFunc F → Except Err D → Except Err D → Except Err D
  variadic : VariadicFunc F → List (Except Err D) → Except Err D

namespace MirScalarExpr

variable {D Err T F : Type}

/-- `mz_now()`. -/
abbrev mzNow : MirScalarExpr D Err T F := .callUnmaterializable .mzNow

/-- `is_literal`. -/
def isLiteral : MirScalarExpr D Err T F → Bool
  | .literal _ _ => true
  | _ => false

/-- `is_literal_err`. -/
def isLiteralErr : MirScalarExpr D Err T F → Bool
  | .literal (.error _) _ => true
  | _ => false

/-- `as_column`. -/
def asColumn : MirScalarExpr D Err T F → Option Nat
  | .column c => some c
  | _ => none

/-! ## Equality and order -/

section Eq

variable [DecidableEq D] [DecidableEq Err] [DecidableEq T] [DecidableEq F]

mutual

/-- Structural equality (the derived `PartialEq`). -/
def beq : MirScalarExpr D Err T F → MirScalarExpr D Err T F → Bool
  | .column c, .column c' => c == c'
  | .literal (.ok d) t, .literal (.ok d') t' => d == d' && t == t'
  | .literal (.error e) t, .literal (.error e') t' => e == e' && t == t'
  | .callUnmaterializable f, .callUnmaterializable f' => f == f'
  | .callUnary f a, .callUnary f' a' => f == f' && beq a a'
  | .callBinary f a b, .callBinary f' a' b' => f == f' && beq a a' && beq b b'
  | .callVariadic f es, .callVariadic f' es' => f == f' && beqList es es'
  | .«if» c t e, .«if» c' t' e' => beq c c' && beq t t' && beq e e'
  | _, _ => false

/-- `beq` on argument lists. -/
def beqList : List (MirScalarExpr D Err T F) → List (MirScalarExpr D Err T F) → Bool
  | [], [] => true
  | e :: es, e' :: es' => beq e e' && beqList es es'
  | _, _ => false

end

mutual

theorem beq_iff_eq : ∀ a b : MirScalarExpr D Err T F, beq a b = true ↔ a = b
  | .column c, b => by cases b <;> simp [beq]
  | .literal (.ok d) t, b => by
    cases b with
    | literal r t' => cases r <;> simp [beq]
    | _ => simp [beq]
  | .literal (.error e) t, b => by
    cases b with
    | literal r t' => cases r <;> simp [beq]
    | _ => simp [beq]
  | .callUnmaterializable f, b => by cases b <;> simp [beq]
  | .callUnary f a, b => by cases b <;> simp [beq, beq_iff_eq a]
  | .callBinary f a₁ a₂, b => by cases b <;> simp [beq, beq_iff_eq a₁, beq_iff_eq a₂, and_assoc]
  | .callVariadic f es, b => by cases b <;> simp [beq, beqList_iff_eq es]
  | .«if» c t e, b => by
    cases b <;> simp [beq, beq_iff_eq c, beq_iff_eq t, beq_iff_eq e, and_assoc]

theorem beqList_iff_eq : ∀ as bs : List (MirScalarExpr D Err T F), beqList as bs = true ↔ as = bs
  | [], bs => by cases bs <;> simp [beqList]
  | a :: as, bs => by cases bs <;> simp [beqList, beq_iff_eq a, beqList_iff_eq as]

end

instance : DecidableEq (MirScalarExpr D Err T F) :=
  fun a b => decidable_of_iff _ (beq_iff_eq a b)

end Eq

section Ord

variable [Ord D] [Ord Err] [Ord T] [Ord F]

/-- The position of a node's variant in the declaration, which the derived order compares
first. -/
def variantIndex : MirScalarExpr D Err T F → Nat
  | .column _ => 0
  | .literal _ _ => 1
  | .callUnmaterializable _ => 2
  | .callUnary _ _ => 3
  | .callBinary _ _ _ => 4
  | .callVariadic _ _ => 5
  | .«if» _ _ _ => 6

/-- The derived order of `Result`: every `Ok` before every `Err`. -/
def cmpResult : Except Err D → Except Err D → Ordering
  | .ok d, .ok d' => compare d d'
  | .ok _, .error _ => .lt
  | .error _, .ok _ => .gt
  | .error e, .error e' => compare e e'

mutual

/-- The derived `Ord`: variants in declaration order, then fields from the left. -/
def cmp : MirScalarExpr D Err T F → MirScalarExpr D Err T F → Ordering
  | .column c, .column c' => compare c c'
  | .literal r t, .literal r' t' => (cmpResult r r').then (compare t t')
  | .callUnmaterializable f, .callUnmaterializable f' => compare f f'
  | .callUnary f a, .callUnary f' a' => (compare f f').then (cmp a a')
  | .callBinary f a b, .callBinary f' a' b' => ((compare f f').then (cmp a a')).then (cmp b b')
  | .callVariadic f es, .callVariadic f' es' => (compare f f').then (cmpList es es')
  | .«if» c t e, .«if» c' t' e' => ((cmp c c').then (cmp t t')).then (cmp e e')
  | a, b => compare a.variantIndex b.variantIndex

/-- The lexicographic order of argument lists. -/
def cmpList : List (MirScalarExpr D Err T F) → List (MirScalarExpr D Err T F) → Ordering
  | [], [] => .eq
  | [], _ :: _ => .lt
  | _ :: _, [] => .gt
  | e :: es, e' :: es' => (cmp e e').then (cmpList es es')

end

end Ord

/-! ## Size, support and columns -/

mutual

/-- `size`: the number of nodes. -/
def size : MirScalarExpr D Err T F → Nat
  | .column _ | .literal _ _ | .callUnmaterializable _ => 1
  | .callUnary _ a => a.size + 1
  | .callBinary _ a b => a.size + b.size + 1
  | .callVariadic _ es => sizeList es + 1
  | .«if» c t e => c.size + t.size + e.size + 1

/-- `size` summed over a list. -/
def sizeList : List (MirScalarExpr D Err T F) → Nat
  | [] => 0
  | e :: es => e.size + sizeList es

end

mutual

/-- `support`: the columns the expression refers to, as a list (the source collects them into a
set). -/
def support : MirScalarExpr D Err T F → List Nat
  | .column c => [c]
  | .literal _ _ | .callUnmaterializable _ => []
  | .callUnary _ a => a.support
  | .callBinary _ a b => a.support ++ b.support
  | .callVariadic _ es => supportList es
  | .«if» c t e => c.support ++ t.support ++ e.support

/-- `support` over a list. -/
def supportList : List (MirScalarExpr D Err T F) → List Nat
  | [] => []
  | e :: es => e.support ++ supportList es

end

mutual

/-- `contains_temporal`: some node is `mz_now()`. -/
def containsTemporal : MirScalarExpr D Err T F → Bool
  | .callUnmaterializable .mzNow => true
  | .column _ | .literal _ _ | .callUnmaterializable (.other _) => false
  | .callUnary _ a => a.containsTemporal
  | .callBinary _ a b => a.containsTemporal || b.containsTemporal
  | .callVariadic _ es => containsTemporalList es
  | .«if» c t e => c.containsTemporal || t.containsTemporal || e.containsTemporal

/-- `contains_temporal` of some expression of a list. -/
def containsTemporalList : List (MirScalarExpr D Err T F) → Bool
  | [] => false
  | e :: es => e.containsTemporal || containsTemporalList es

end

mutual

/-- Replace every column reference `c` by `g c`; `g c = none` is a panic of the caller's lookup.
This is `visit_columns` with an action that rewrites the index, and `visit_mut_post` with an
action that replaces column nodes (nothing else is rewritten, and a replaced node is not
visited again). -/
def bindColumns (g : Nat → Option (MirScalarExpr D Err T F)) :
    MirScalarExpr D Err T F → Option (MirScalarExpr D Err T F)
  | .column c => g c
  | .literal r t => some (.literal r t)
  | .callUnmaterializable f => some (.callUnmaterializable f)
  | .callUnary f a => (bindColumns g a).map (.callUnary f)
  | .callBinary f a b => do
    let a' ← bindColumns g a
    let b' ← bindColumns g b
    pure (.callBinary f a' b')
  | .callVariadic f es => (bindColumnsList g es).map (.callVariadic f)
  | .«if» c t e => do
    let c' ← bindColumns g c
    let t' ← bindColumns g t
    let e' ← bindColumns g e
    pure (.«if» c' t' e')

/-- `bindColumns` over a list. -/
def bindColumnsList (g : Nat → Option (MirScalarExpr D Err T F)) :
    List (MirScalarExpr D Err T F) → Option (List (MirScalarExpr D Err T F))
  | [] => some []
  | e :: es => do
    let e' ← bindColumns g e
    let es' ← bindColumnsList g es
    pure (e' :: es')

end

/-- `permute`: column `c` becomes `permutation[c]`. Reference: `Columns::permute`
(`scalar/columns.rs:45`). -/
def permute (permutation : List Nat) (e : MirScalarExpr D Err T F) :
    Option (MirScalarExpr D Err T F) :=
  e.bindColumns fun c => permutation[c]?.map .column

/-! ## Temporal filters -/

section Temporal

variable [DecidableEq D] [DecidableEq Err] [DecidableEq T] [DecidableEq F]

/-- The start of the message for a temporal predicate of an unsupported shape. -/
def unsupportedTemporalPredicate : String :=
  "Unsupported temporal predicate. Note: mz_now() must be directly compared to a "

/-- `as_mut_temporal_filter` on the call `expr1 func expr2`: the function of its normal form
`mz_now() func' e`, and whether the operands had to be swapped to reach it. Reference:
`scalar.rs:557`. -/
def asTemporalFilter (func : BinaryFunc F) (expr1 expr2 : MirScalarExpr D Err T F) :
    Except String (BinaryFunc F × Bool) :=
  if !(callBinary func expr1 expr2).containsTemporal then .error "Does not involve mz_now()"
  else if !expr1.containsTemporal && expr2 == mzNow then
    match func.flip with
    | some func' => .ok (func', true)
    | none => .error "Unsupported binary temporal operation"
  else if expr2.containsTemporal || expr1 != mzNow then .error unsupportedTemporalPredicate
  else .ok (func, false)

/-- `as_mut_temporal_filter`: the expression as it leaves the call (normalised to
`mz_now() func e` when it is a temporal filter written the other way round), with the function
and the operand `e`, or the reason it is not a temporal filter. -/
def asMutTemporalFilter (e : MirScalarExpr D Err T F) :
    MirScalarExpr D Err T F × Except String (BinaryFunc F × MirScalarExpr D Err T F) :=
  match e with
  | .callBinary func expr1 expr2 =>
    match asTemporalFilter func expr1 expr2 with
    | .ok (func', true) => (.callBinary func' expr2 expr1, .ok (func', expr1))
    | .ok (func', false) => (e, .ok (func', expr2))
    | .error msg => (e, .error msg)
  | e =>
    (e, .error (if e.containsTemporal then unsupportedTemporalPredicate
      else "Does not involve mz_now()"))

/-! ## Optimizer hooks -/

/-- One side of `equality_column_alias`: `side` is a column below `threshold` and the other
side is `expr`. -/
def columnAliasOf (side other expr : MirScalarExpr D Err T F) (threshold : Nat) :
    Option (MirScalarExpr D Err T F) :=
  match side with
  | .column c => if c < threshold ∧ other = expr then some (.column c) else none
  | _ => none

/-- `equality_column_alias`: if `predicate` is `col = expr` or `expr = col` with `col` a column
below `threshold`, that column. Reference: `scalar/optimizable.rs:106`. -/
def equalityColumnAlias (predicate expr : MirScalarExpr D Err T F) (threshold : Nat) :
    Option (MirScalarExpr D Err T F) :=
  match predicate with
  | .callBinary .eq expr1 expr2 =>
    (columnAliasOf expr1 expr2 expr threshold).orElse fun _ =>
      columnAliasOf expr2 expr1 expr threshold
  | _ => none

/-- A node that is neither a literal nor a column becomes a reference to the first equal
memoized part, which is pushed if there is none. -/
def memoizeFresh (inputArity : Nat) (e : MirScalarExpr D Err T F)
    (parts : List (MirScalarExpr D Err T F)) :
    MirScalarExpr D Err T F × List (MirScalarExpr D Err T F) :=
  match parts.findIdx? (· == e) with
  | some position => (.column (inputArity + position), parts)
  | none => (.column (inputArity + parts.length), parts ++ [e])

/-- The visit `memoize_expr` makes of a node once its eager children are done: literals stay,
a column that names a memoized column reference is redirected to what that names, and any other
node goes to `memoizeFresh`. Reference: `linear.rs:1441`. -/
def memoizePost (inputArity : Nat) (e : MirScalarExpr D Err T F)
    (parts : List (MirScalarExpr D Err T F)) :
    Option (MirScalarExpr D Err T F × List (MirScalarExpr D Err T F)) :=
  if e.isLiteral then some (e, parts)
  else match e with
    | .column c =>
      if inputArity < c then
        match parts[c - inputArity]? with
        | none => none
        | some p =>
          match p.asColumn with
          | some c₂ => some (.column c₂, parts)
          | none => some (e, parts)
      else some (e, parts)
    | _ => some (memoizeFresh inputArity e parts)

mutual

/-- `memoize_expr`: the visit `visit_mut_pre_post(eager_children, memoizePost)`. Only the
children `eager_children` names are visited, before the node: the condition of an `if`, the
first argument of `COALESCE`, the operand opposite `mz_now()` in a temporal filter (after
`as_mut_temporal_filter` has put `mz_now()` first), and every child otherwise. Reference:
`linear.rs:1441`, `scalar/optimizable.rs:79`. -/
def memoizeExpr (inputArity : Nat) :
    MirScalarExpr D Err T F → List (MirScalarExpr D Err T F) →
      Option (MirScalarExpr D Err T F × List (MirScalarExpr D Err T F))
  | .column c, parts => memoizePost inputArity (.column c) parts
  | .literal r t, parts => memoizePost inputArity (.literal r t) parts
  | .callUnmaterializable f, parts => memoizePost inputArity (.callUnmaterializable f) parts
  | .callUnary f a, parts => do
    let (a', parts) ← memoizeExpr inputArity a parts
    memoizePost inputArity (.callUnary f a') parts
  | .callBinary f a b, parts =>
    match asTemporalFilter f a b with
    | .ok (f', true) => do
      -- `a f mz_now()` became `mz_now() f' a`; only `a` is visited
      let (a', parts) ← memoizeExpr inputArity a parts
      memoizePost inputArity (.callBinary f' b a') parts
    | .ok (_, false) => do
      let (b', parts) ← memoizeExpr inputArity b parts
      memoizePost inputArity (.callBinary f a b') parts
    | .error _ => do
      let (a', parts) ← memoizeExpr inputArity a parts
      let (b', parts) ← memoizeExpr inputArity b parts
      memoizePost inputArity (.callBinary f a' b') parts
  | .callVariadic .coalesce (e :: es), parts => do
    let (e', parts) ← memoizeExpr inputArity e parts
    memoizePost inputArity (.callVariadic .coalesce (e' :: es)) parts
  | .callVariadic f es, parts => do
    let (es', parts) ← memoizeExprList inputArity es parts
    memoizePost inputArity (.callVariadic f es') parts
  | .«if» c t e, parts => do
    let (c', parts) ← memoizeExpr inputArity c parts
    memoizePost inputArity (.«if» c' t e) parts

/-- `memoizeExpr` over the arguments of a call, from the left. -/
def memoizeExprList (inputArity : Nat) :
    List (MirScalarExpr D Err T F) → List (MirScalarExpr D Err T F) →
      Option (List (MirScalarExpr D Err T F) × List (MirScalarExpr D Err T F))
  | [], parts => some ([], parts)
  | e :: es, parts => do
    let (e', parts) ← memoizeExpr inputArity e parts
    let (es', parts) ← memoizeExprList inputArity es parts
    pure (e' :: es', parts)

end

end Temporal

/-! ## Evaluation -/

section Eval

variable [DecidableEq D] (S : EvalSem D Err F)

mutual

/-- `eval` on a row of datums. Reference: `scalar.rs:1177`. -/
def eval (datums : List D) : MirScalarExpr D Err T F → Option (Except Err D)
  | .column c => datums[c]?.map .ok
  | .literal r _ => some r
  | .callUnmaterializable f => some (.error (S.cannotEvaluate f))
  | .callUnary f a => (eval datums a).map (S.unary f)
  | .callBinary f a b => do
    let x ← eval datums a
    let y ← eval datums b
    pure (S.binary f x y)
  | .callVariadic f es => (evalList datums es).map (S.variadic f)
  | .«if» c t e => do
    match ← eval datums c with
    | .error err => pure (.error err)
    | .ok d =>
      if d = S.datumTrue then eval datums t
      else if d = S.datumFalse ∨ d = S.datumNull then eval datums e
      else pure (.error (S.nonBoolean d))

/-- `eval` of each argument of a call. -/
def evalList (datums : List D) : List (MirScalarExpr D Err T F) → Option (List (Except Err D))
  | [] => some []
  | e :: es => do
    let x ← eval datums e
    let xs ← evalList datums es
    pure (x :: xs)

end

end Eval

end MirScalarExpr

end Materialize.Expr
