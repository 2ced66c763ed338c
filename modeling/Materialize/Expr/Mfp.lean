import Mathlib.Data.List.Sort
import Mathlib.Data.List.Destutter
import Materialize.Lib.SortedMap
import Materialize.Expr.Scalar

/-!
# `MapFilterProject` and its optimizer

`MapFilterProject` (`src/expr/src/linear.rs`) appends the values of `expressions` to an input
row, drops the row unless every predicate is true, and keeps the columns of `projection`. Each
predicate carries the column before which it is first tested. This module models:
- the builders `new`, `map`, `filter` and `project`;
- evaluation (`SafeMfpPlan::evaluate_inner` and `evaluate_iter`);
- `optimize` with its rewrites: the equality-alias substitution, `memoize_expressions`, sorting
  and deduplication of predicates, `inline_expressions` with its reference counts, and
  `remove_undemanded`.

The source's `BTreeMap` column maps are `SortedMap`s. Its `BTreeSet`s of columns are lists read
for membership. Reference counts are `UInt64`: a release build of `usize` arithmetic wraps, and
`inline_expressions` subtracts one from a count that may be zero.
-/

namespace Materialize.Expr

/-- `MapFilterProject` over the expressions `MirScalarExpr D Err T F`. -/
structure MapFilterProject (D Err T F : Type) where
  expressions : List (MirScalarExpr D Err T F)
  predicates : List (Nat × MirScalarExpr D Err T F)
  projection : List Nat
  inputArity : Nat

namespace MapFilterProject

open MirScalarExpr

variable {D Err T F : Type}

/-- `new`: the identity on rows of `inputArity` columns. -/
def new (inputArity : Nat) : MapFilterProject D Err T F :=
  ⟨[], [], List.range inputArity, inputArity⟩

/-- `project`: keep the columns `columns` of the current output; an index past it panics. -/
def project (m : MapFilterProject D Err T F) (columns : List Nat) :
    Option (MapFilterProject D Err T F) :=
  (columns.mapM (m.projection[·]?)).map fun projection => { m with projection }

/-- The column before which `filter` and `memoize_expressions` place a predicate: one past the
largest column of its support. -/
def supportPosition (predicate : MirScalarExpr D Err T F) : Nat :=
  (predicate.support.max?.map (· + 1)).getD 0

/-- The key `filter` sorts predicates by, stably: literal errors last, then by position. -/
def filterKeyLe (p q : Nat × MirScalarExpr D Err T F) : Bool :=
  (!p.2.isLiteralErr && q.2.isLiteralErr) || (p.2.isLiteralErr == q.2.isLiteralErr && p.1 ≤ q.1)

/-- `as_map_filter_project`. -/
def asMapFilterProject (m : MapFilterProject D Err T F) :
    List (MirScalarExpr D Err T F) × List (MirScalarExpr D Err T F) × List Nat :=
  (m.expressions, m.predicates.map (·.2), m.projection)

/-- `size`: the nodes of all expressions and predicates. -/
def size (m : MapFilterProject D Err T F) : Nat :=
  (m.expressions.map MirScalarExpr.size).sum + (m.predicates.map (·.2.size)).sum

/-- `permute_map`: column `c` becomes `permutation[c]`; a column with no entry panics. -/
def permuteMap (permutation : SortedMap Nat Nat) (e : MirScalarExpr D Err T F) :
    Option (MirScalarExpr D Err T F) :=
  e.bindColumns fun c => (permutation.get? c).map .column

/-- The map `c ↦ c` on the first `n` columns. -/
def identityMap (n : Nat) : SortedMap Nat Nat :=
  (List.range n).foldl (fun remaps i => (remaps.insert i i).2) SortedMap.empty

variable [DecidableEq D] [DecidableEq Err] [DecidableEq T] [DecidableEq F]

/-! ## Building -/

/-- One expression of `map`: renumber it through the projection, check that its columns exist,
and append it as a new output column. -/
def mapOne (m : MapFilterProject D Err T F) (expression : MirScalarExpr D Err T F) :
    Option (MapFilterProject D Err T F) := do
  let expression ← expression.permute m.projection
  guard (expression.support.all (· < m.inputArity + m.expressions.length))
  pure { m with
    expressions := m.expressions ++ [expression]
    projection := m.projection ++ [m.inputArity + m.expressions.length] }

/-- `map`. Reference: `linear.rs:166`. -/
def map (m : MapFilterProject D Err T F) (expressions : List (MirScalarExpr D Err T F)) :
    Option (MapFilterProject D Err T F) :=
  expressions.foldlM mapOne m

/-- One predicate of `filter`: renumber it through the projection, check that its columns exist,
and add it at the position after its largest column. -/
def filterOne (m : MapFilterProject D Err T F) (predicate : MirScalarExpr D Err T F) :
    Option (MapFilterProject D Err T F) := do
  let predicate ← predicate.permute m.projection
  guard (predicate.support.all (· < m.inputArity + m.expressions.length))
  pure { m with predicates := m.predicates ++ [(supportPosition predicate, predicate)] }

/-- `filter`, then the stable sort of all predicates by `filterKeyLe`. Reference:
`linear.rs:131`. -/
def filter (m : MapFilterProject D Err T F) (predicates : List (MirScalarExpr D Err T F)) :
    Option (MapFilterProject D Err T F) := do
  let m ← predicates.foldlM filterOne m
  pure { m with predicates := m.predicates.insertionSort fun p q => filterKeyLe p q }

/-! ## Evaluation -/

section Eval

variable (S : EvalSem D Err F)

/-- The loop of `evaluate_inner` that pushes the value of expression `expression` and the ones
after it while `input_arity + expression < support`. `rest` are the expressions from
`expression` on; running out of them is an index out of range. -/
def pushExpressions (inputArity support : Nat) :
    List (MirScalarExpr D Err T F) → Nat → List D →
      Option (Except Err (Nat × List (MirScalarExpr D Err T F) × List D))
  | rest, expression, datums =>
    if inputArity + expression < support then
      match rest with
      | [] => none
      | e :: rest => do
        match ← e.eval S datums with
        | .error err => pure (.error err)
        | .ok d => pushExpressions inputArity support rest (expression + 1) (datums ++ [d])
    else some (.ok (expression, rest, datums))

/-- The loop of `evaluate_inner` over the predicates, each tested once the expressions before
its position are pushed. -/
def evaluatePredicates (m : MapFilterProject D Err T F) :
    List (Nat × MirScalarExpr D Err T F) → List (MirScalarExpr D Err T F) → Nat → List D →
      Option (Except Err (Bool × List D))
  | [], rest, expression, datums => do
    match ← pushExpressions S m.inputArity (m.inputArity + m.expressions.length) rest
        expression datums with
    | .error err => pure (.error err)
    | .ok (_, _, datums) => pure (.ok (true, datums))
  | (support, predicate) :: predicates, rest, expression, datums => do
    match ← pushExpressions S m.inputArity support rest expression datums with
    | .error err => pure (.error err)
    | .ok (expression, rest, datums) =>
      match ← predicate.eval S datums with
      | .error err => pure (.error err)
      | .ok d =>
        if d ≠ S.datumTrue then pure (.ok (false, datums))
        else evaluatePredicates m predicates rest expression datums

/-- `SafeMfpPlan::evaluate_inner`: whether every predicate held, with the row extended by the
values of the expressions. Reference: `linear.rs:1677`. -/
def evaluateInner (m : MapFilterProject D Err T F) (datums : List D) :
    Option (Except Err (Bool × List D)) :=
  evaluatePredicates S m m.predicates m.expressions 0 datums

/-- `SafeMfpPlan::evaluate_iter`: the projected row, `none` if a predicate failed. Reference:
`linear.rs:1661`. -/
def evaluateIter (m : MapFilterProject D Err T F) (datums : List D) :
    Option (Except Err (Option (List D))) := do
  match ← evaluateInner S m datums with
  | .error err => pure (.error err)
  | .ok (false, _) => pure (.ok none)
  | .ok (true, datums) => (m.projection.mapM (datums[·]?)).map (.ok ∘ some)

end Eval

/-! ## The equality-alias rewrite -/

/-- The first loop of `optimize`: each expression equated by a predicate to an earlier column
becomes that column. Reference: `linear.rs:999`. -/
def aliasExpressions (m : MapFilterProject D Err T F) : MapFilterProject D Err T F :=
  { m with
    expressions := m.expressions.zipIdx.map fun (expr, index) =>
      m.predicates.foldl (fun expr (_, predicate) =>
        (equalityColumnAlias predicate expr (index + m.inputArity)).getD expr) expr }

/-! ## Memoizing -/

/-- One step of `memoize_expressions`: renumber expression `expression` through `remaps`,
memoize it into the new expressions, record the column its value is now in, and push it. -/
def memoizeStep (inputArity : Nat) (remaps : SortedMap Nat Nat)
    (newExpressions : List (MirScalarExpr D Err T F)) (expression : Nat)
    (e : MirScalarExpr D Err T F) :
    Option (SortedMap Nat Nat × List (MirScalarExpr D Err T F)) := do
  let e ← permuteMap remaps e
  let (e, newExpressions) ← memoizeExpr inputArity e newExpressions
  let remaps := (remaps.insert (inputArity + expression) (inputArity + newExpressions.length)).2
  pure (remaps, newExpressions ++ [e])

/-- The inner loop of `memoize_expressions`: memoize the expressions from `expression` on while
`input_arity + expression < support`. -/
def memoizeUpTo (inputArity support : Nat) :
    List (MirScalarExpr D Err T F) → Nat → SortedMap Nat Nat → List (MirScalarExpr D Err T F) →
      Option (Nat × List (MirScalarExpr D Err T F) × SortedMap Nat Nat ×
        List (MirScalarExpr D Err T F))
  | rest, expression, remaps, newExpressions =>
    if inputArity + expression < support then
      match rest with
      | [] => none
      | e :: rest => do
        let (remaps, newExpressions) ← memoizeStep inputArity remaps newExpressions expression e
        memoizeUpTo inputArity support rest (expression + 1) remaps newExpressions
    else some (expression, rest, remaps, newExpressions)

/-- The loop of `memoize_expressions` over the predicates: the expressions before each one are
memoized first, then the predicate itself. -/
def memoizePredicates (inputArity : Nat) :
    List (Nat × MirScalarExpr D Err T F) → List (MirScalarExpr D Err T F) → Nat →
      SortedMap Nat Nat → List (MirScalarExpr D Err T F) →
      Option (List (Nat × MirScalarExpr D Err T F) × List (MirScalarExpr D Err T F) × Nat ×
        SortedMap Nat Nat × List (MirScalarExpr D Err T F))
  | [], rest, expression, remaps, newExpressions =>
    some ([], rest, expression, remaps, newExpressions)
  | (support, predicate) :: predicates, rest, expression, remaps, newExpressions => do
    let (expression, rest, remaps, newExpressions) ←
      memoizeUpTo inputArity support rest expression remaps newExpressions
    let predicate ← permuteMap remaps predicate
    let (predicate, newExpressions) ← memoizeExpr inputArity predicate newExpressions
    let (predicates, rest, expression, remaps, newExpressions) ←
      memoizePredicates inputArity predicates rest expression remaps newExpressions
    pure ((support, predicate) :: predicates, rest, expression, remaps, newExpressions)

/-- `memoize_expressions`: every expression and predicate in A-normal form over new expressions,
shared parts computed once. Reference: `linear.rs:1141`. -/
def memoizeExpressions (m : MapFilterProject D Err T F) : Option (MapFilterProject D Err T F) := do
  let (predicates, rest, expression, remaps, newExpressions) ←
    memoizePredicates m.inputArity m.predicates m.expressions 0 (identityMap m.inputArity) []
  let (_, _, remaps, newExpressions) ←
    memoizeUpTo m.inputArity (m.inputArity + m.expressions.length) rest expression remaps
      newExpressions
  let projection ← m.projection.mapM remaps.get?
  pure { m with
    expressions := newExpressions
    projection
    predicates := predicates.map fun (_, predicate) => (supportPosition predicate, predicate) }

/-- `memoize_expr` redirects a reference to a memoized column reference only past column
`input_arity`, so an alias that is the first expression is still read through. Over one input
column, `[#0, f(#1)]` memoizes to `[#0, f(#1), #2]`: `f(#1)` reads column 1, which is the
reference `#0`. One expression later the same alias is redirected: `[f(#0), #0, g(#2)]` memoizes
to `[f(#0), #1, #0, g(#0), #4]`. -/
theorem memoizeExpressions_first_alias_kept :
    ∃ m₁ m₂ : MapFilterProject Nat Nat Nat Nat,
      memoizeExpressions ⟨[.column 0, .callUnary (.other 0) (.column 1)], [], [0, 1, 2], 1⟩ =
          some m₁ ∧
        m₁.expressions = [.column 0, .callUnary (.other 0) (.column 1), .column 2] ∧
      memoizeExpressions ⟨[.callUnary (.other 0) (.column 0), .column 0,
          .callUnary (.other 1) (.column 2)], [], [0, 1, 2, 3], 1⟩ = some m₂ ∧
        m₂.expressions = [.callUnary (.other 0) (.column 0), .column 1, .column 0,
          .callUnary (.other 1) (.column 0), .column 4] :=
  ⟨_, _, rfl, rfl, rfl, rfl⟩

/-! ## Inlining -/

/-- Add one to the count of column `c`; a column past the counts panics. -/
def countReference (counts : List UInt64) (c : Nat) : Option (List UInt64) :=
  if c < counts.length then some (counts.modify c (· + 1)) else none

/-- The reference counts of `inline_expressions`: every column node of the expressions and
predicates, and every projected column. -/
def referenceCounts (m : MapFilterProject D Err T F) : Option (List UInt64) :=
  ((m.expressions.flatMap support) ++ (m.predicates.flatMap (·.2.support)) ++ m.projection).foldlM
    countReference (List.replicate (m.inputArity + m.expressions.length) 0)

/-- Which columns hold an expression that contains `mz_now()` or reads such a column. -/
def temporalColumns (m : MapFilterProject D Err T F) : Option (List Bool) :=
  m.expressions.foldlM (fun isTemporal expr => do
    if expr.containsTemporal then pure (isTemporal ++ [true])
    else
      let refers ← expr.support.anyM fun col => isTemporal[col]?
      pure (isTemporal ++ [refers])) (List.replicate m.inputArity false)

/-- One column of the `should_inline` loop, from the last down: an expression that is a column
reference is always inlined and hands its references on to that column (less the one it makes
itself); any other expression is inlined if referenced once or if it is temporal. -/
def shouldInlineStep (m : MapFilterProject D Err T F) (isTemporal : List Bool)
    (state : List UInt64 × List Bool) (i : Nat) : Option (List UInt64 × List Bool) := do
  let (counts, shouldInline) := state
  let expr ← m.expressions[i - m.inputArity]?
  let count ← counts[i]?
  match expr.asColumn with
  | some c =>
    let _ ← counts[c]?
    pure (counts.modify c (· + (count - 1)), shouldInline.set i true)
  | none =>
    let temporal ← isTemporal[i]?
    pure (counts, shouldInline.set i (count == 1 || temporal))

/-- `perform_inlining` on one column: an inlined column is replaced by (the already inlined)
expression that defines it. -/
def inlineColumn (inputArity : Nat) (shouldInline : List Bool)
    (prior : List (MirScalarExpr D Err T F)) (i : Nat) : Option (MirScalarExpr D Err T F) := do
  if ← shouldInline[i]? then prior[i - inputArity]? else pure (.column i)

/-- `perform_inlining`: each expression in turn, then the predicates, with the inlined columns
replaced. Reference: `linear.rs:1318`. -/
def performInlining (m : MapFilterProject D Err T F) (shouldInline : List Bool) :
    Option (MapFilterProject D Err T F) := do
  let expressions ← m.expressions.foldlM (fun prior expr => do
    let expr ← expr.bindColumns (inlineColumn m.inputArity shouldInline prior)
    pure (prior ++ [expr])) []
  let predicates ← m.predicates.mapM fun (position, predicate) => do
    let predicate ← predicate.bindColumns (inlineColumn m.inputArity shouldInline expressions)
    pure (position, predicate)
  pure { m with expressions, predicates }

/-- `inline_expressions`. Reference: `linear.rs:1255`. -/
def inlineExpressions (m : MapFilterProject D Err T F) : Option (MapFilterProject D Err T F) := do
  let counts ← m.referenceCounts
  let isTemporal ← m.temporalColumns
  let n := m.inputArity + m.expressions.length
  let (_, shouldInline) ← ((List.range m.expressions.length).reverse.map (m.inputArity + ·)).foldlM
    (m.shouldInlineStep isTemporal) (counts, List.replicate n false)
  let m ← m.performInlining shouldInline
  let projection ← m.projection.mapM fun proj =>
    if m.inputArity ≤ proj then do
      let expr ← m.expressions[proj - m.inputArity]?
      pure (expr.asColumn.getD proj)
    else pure proj
  pure { m with projection }

/-! ## Removing what is not demanded -/

/-- The demanded columns of `remove_undemanded`: the predicates' and the projection's, and,
from the last expression down, the columns a demanded expression reads. -/
def demand (m : MapFilterProject D Err T F) : List Nat :=
  m.expressions.zipIdx.reverse.foldl (fun demand (expr, index) =>
    if m.inputArity + index ∈ demand then demand ++ expr.support else demand)
    (m.predicates.flatMap (·.2.support) ++ m.projection)

/-- The demanded expressions, and the map from old columns to where they end up. -/
def retainDemanded (m : MapFilterProject D Err T F) :
    SortedMap Nat Nat × List (MirScalarExpr D Err T F) :=
  m.expressions.zipIdx.foldl (fun (remap, kept) (expr, index) =>
    if index + m.inputArity ∈ m.demand then
      ((remap.insert (index + m.inputArity) remap.size).2, kept ++ [expr])
    else (remap, kept)) (identityMap m.inputArity, [])

/-- `remove_undemanded`. Reference: `linear.rs:1368`. -/
def removeUndemanded (m : MapFilterProject D Err T F) : Option (MapFilterProject D Err T F) := do
  let (remap, kept) := m.retainDemanded
  let expressions ← kept.mapM (permuteMap remap)
  let predicates ← m.predicates.mapM fun (_, predicate) => permuteMap remap predicate
  let projection ← m.projection.mapM remap.get?
  let m' ← (new m.inputArity).map expressions
  let m' ← m'.filter predicates
  m'.project projection

/-! ## `optimize` -/

section Optimize

variable [Ord D] [Ord Err] [Ord T] [Ord F]

/-- The derived order of `(usize, MirScalarExpr)` pairs, which `predicates.sort()` uses. -/
def predicateLe (p q : Nat × MirScalarExpr D Err T F) : Bool :=
  (compare p.1 q.1).then (p.2.cmp q.2) != .gt

/-- One round of the loop of `optimize`: the equality-alias rewrite, memoizing, sorting and
deduplicating the predicates, inlining, removing what is not demanded, and rebuilding from the
map, filter and project. Reference: `linear.rs:977`. -/
def optimizeStep (m : MapFilterProject D Err T F) : Option (MapFilterProject D Err T F) := do
  let m := m.aliasExpressions
  let m ← m.memoizeExpressions
  let m := { m with
    predicates := (m.predicates.insertionSort fun p q => predicateLe p q).destutter (· ≠ ·) }
  let m ← m.inlineExpressions
  let m ← m.removeUndemanded
  let (map, filter, project) := m.asMapFilterProject
  let m' ← (new m.inputArity).map map
  let m' ← m'.filter filter
  m'.project project

/-- `usize::MAX`, where the size `optimize` compares with starts. -/
def usizeMax : Nat := 2 ^ 64 - 1

/-- The loop of `optimize`: another round as long as the size strictly decreases. The source's
loop needs no bound, as sizes cannot decrease forever; the fuel is never exhausted, since each
round past the first decreases the size from at most `usize::MAX`. -/
def optimizeLoop : Nat → Option Nat → Nat → MapFilterProject D Err T F →
    Option (MapFilterProject D Err T F)
  | 0, _, _, m => some m
  | fuel + 1, prevSize, selfSize, m =>
    if (prevSize.map fun p => decide (selfSize < p)).getD true then do
      let m ← optimizeStep m
      optimizeLoop fuel (some selfSize) m.size m
    else some m

/-- `optimize`. Reference: `linear.rs:977`. -/
def optimize (m : MapFilterProject D Err T F) : Option (MapFilterProject D Err T F) :=
  optimizeLoop (2 ^ 64) none usizeMax m

/-- An alias that nothing reads reaches `inline_expressions` with a reference count of zero.
`MapFilterProject::new(2).map([#0]).project([0, 1])` goes through the equality-alias rewrite and
`memoize_expressions` unchanged, so the first round of `optimize` hands `inline_expressions` the
expression `#0` at column 2, which no expression, predicate or projection reads. Its loop then
computes `reference_count[2] - 1` with `reference_count[2] = 0`: a `usize` underflow, which panics
wherever overflow checks are on and wraps where they are off (the `UInt64` counts here). -/
theorem optimize_alias_count_underflow :
    ∃ m m₁ : MapFilterProject Nat Nat Nat Nat,
      ((new 2).map [.column 0]).bind (·.project [0, 1]) = some m ∧
      m.aliasExpressions.memoizeExpressions = some m₁ ∧
      m₁.inputArity = 2 ∧ m₁.predicates = [] ∧ m₁.expressions = [.column 0] ∧
      m₁.referenceCounts = some [2, 1, 0] :=
  ⟨_, _, rfl, rfl, rfl, rfl, rfl, rfl⟩

end Optimize

end MapFilterProject

end Materialize.Expr
