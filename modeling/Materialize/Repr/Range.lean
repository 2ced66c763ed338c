import Mathlib

/-!
# Ranges

The model of `Range` (`repr/src/adt/range.rs`), over any totally ordered type `B` of bounds. A
range is empty (`inner = None`) or has a lower and an upper bound, each inclusive or not and each
finite or infinite. The const parameter `UPPER` of `RangeBound` is the argument `upper`: the two
kinds of bound compare differently (an infinite upper bound is the greatest, and inclusivity
breaks ties the other way).

`canonicalize` rewrites the bounds of a type that steps (`int4`, `int8`, `date`) to the form
`[lower, upper)` and finds empty ranges; `Discrete` is what it needs of such a type. The types
that do not step (`numeric`, the timestamps) are `none`.
-/

namespace Materialize.Adt

/-- `InvalidRangeError`. -/
inductive InvalidRangeError where
  | misorderedRangeBounds
  | canonicalizationOverflow (typeName : String)
  | invalidRangeBoundFlags
  | discontiguousUnion
  | discontiguousDifference
  | nullRangeBoundFlags
  | invalidRangeData
  deriving DecidableEq, Repr

/-- What `canonicalize` needs of a type whose values step: `RangeOps::step`, `none` where the
step overflows, and `RangeOps::err_type_name`. -/
structure Discrete (B : Type) where
  step : B → Option B
  errTypeName : String

/-- `RangeBound`: a finite bound (`some`) or an infinite one (`none`), inclusive or not. -/
structure RangeBound (B : Type) where
  inclusive : Bool
  bound : Option B
  deriving DecidableEq, Repr

/-- `RangeInner`: the bounds of a non-empty range. -/
structure RangeInner (B : Type) where
  lower : RangeBound B
  upper : RangeBound B
  deriving DecidableEq, Repr

/-- `Range`: `none` is the empty range. -/
structure Range (B : Type) where
  inner : Option (RangeInner B)
  deriving DecidableEq, Repr

variable {B : Type} [LinearOrder B]

/-- The derived order of `Option`: `None` first. -/
def cmpOption : Option B → Option B → Ordering
  | none, none => .eq
  | none, some _ => .lt
  | some _, none => .gt
  | some a, some b => compare a b

namespace RangeBound

/-- `Ord for RangeBound<B, UPPER>`: by the bounds, with an infinite upper bound after every finite
one, then an inclusive lower bound first and an inclusive upper bound last. -/
def cmp (upper : Bool) (a b : RangeBound B) : Ordering :=
  let c := cmpOption a.bound b.bound
  let c := if upper && (b.bound.isNone ^^ a.bound.isNone) then c.swap else c
  c.then (if a.inclusive = b.inclusive then .eq
    else if a.inclusive then (if upper then .gt else .lt)
    else if upper then .lt else .gt)

/-- `std::cmp::min` by `cmp`: the first of two equal bounds. -/
def min (upper : Bool) (a b : RangeBound B) : RangeBound B :=
  if cmp upper a b = .gt then b else a

/-- `std::cmp::max` by `cmp`: the second of two equal bounds. -/
def max (upper : Bool) (a b : RangeBound B) : RangeBound B :=
  if cmp upper a b = .gt then a else b

/-- `range_bound_cmp`: a bound of kind `upper` against one of kind `otherUpper`. Against a bound
of the other kind, an infinite bound makes an upper bound greater and a lower bound less, and two
equal finite bounds are equal only if both are inclusive. -/
def rangeBoundCmp (upper otherUpper : Bool) (a b : RangeBound B) : Ordering :=
  if upper = otherUpper then cmp upper a b
  else if a.bound.isNone || b.bound.isNone then (if upper then .gt else .lt)
  else (cmpOption a.bound b.bound).then
    (if a.inclusive && b.inclusive then .eq else if upper then .lt else .gt)

/-- `elem_cmp`: where the bound lies against `elem`. -/
def elemCmp (upper : Bool) (b : RangeBound B) (elem : B) : Ordering :=
  match b.bound with
  | none => if upper then .gt else .lt
  | some x => compare x elem

/-- `satisfied_by`: whether `elem` lies on the inner side of the bound. -/
def satisfiedBy (upper : Bool) (b : RangeBound B) (elem : B) : Bool :=
  match elemCmp upper b elem with
  | .eq => b.inclusive
  | .gt => upper
  | .lt => !upper

/-- `canonicalize_inner`: a lower bound made inclusive and an upper bound made exclusive by one
step, which may overflow. -/
def canonicalizeInner (d : Discrete B) (upper : Bool) (b : RangeBound B) (v : B) :
    Except InvalidRangeError (RangeBound B) :=
  if upper = b.inclusive then
    match d.step v with
    | none => .error (.canonicalizationOverflow d.errTypeName)
    | some v' => .ok ⟨!upper, some v'⟩
  else .ok b

/-- `RangeBound::canonicalize`: an infinite bound is exclusive, and a finite bound of a type that
steps is put in canonical form. -/
def canonicalize (d : Option (Discrete B)) (upper : Bool) (b : RangeBound B) :
    Except InvalidRangeError (RangeBound B) :=
  match b.bound, d with
  | none, _ => .ok { b with inclusive := false }
  | some v, some d => canonicalizeInner d upper b v
  | some _, none => .ok b

end RangeBound

/-- `Ord for RangeInner`: by the lower bounds, then by the upper bounds. -/
def RangeInner.cmp (a b : RangeInner B) : Ordering :=
  (a.lower.cmp false b.lower).then (a.upper.cmp true b.upper)

namespace Range

open RangeBound

/-- `contains_elem`. -/
def containsElem (r : Range B) (elem : B) : Bool :=
  match r.inner with
  | none => false
  | some i => i.lower.satisfiedBy false elem && i.upper.satisfiedBy true elem

/-- `contains_range`. -/
def containsRange (r o : Range B) : Bool :=
  match r.inner, o.inner with
  | _, none => true
  | none, some _ => false
  | some i, some j => i.lower.cmp false j.lower != .gt && j.upper.cmp true i.upper != .gt

/-- `overlaps`: the smaller range's upper bound is not before the larger range's lower bound. -/
def overlaps (r o : Range B) : Bool :=
  match r.inner, o.inner with
  | some s, some o =>
    let c := match s.cmp o with
      | .eq => Ordering.eq
      | .lt => rangeBoundCmp true false s.upper o.lower
      | .gt => rangeBoundCmp true false o.upper s.lower
    c == .gt || c == .eq
  | _, _ => false

/-- `adjacent`: a finite bound of one range equals the opposite bound of the other, inclusive in
exactly one of them. -/
def adjacent (r o : Range B) : Bool :=
  match r.inner, o.inner with
  | some s, some o =>
    [(s.lower, o.upper), (o.lower, s.upper)].any fun (lower, upper) =>
      match lower.bound, upper.bound with
      | some l, some u => (lower.inclusive ^^ upper.inclusive) && l == u
      | _, _ => false
  | _, _ => false

/-- `union`: an error where the ranges neither overlap nor are adjacent. -/
def union (r o : Range B) : Except InvalidRangeError (Range B) :=
  match r.inner, o.inner with
  | none, none => .ok ⟨none⟩
  | some s, none => .ok ⟨some s⟩
  | none, some o => .ok ⟨some o⟩
  | some s, some o' =>
    if !(r.overlaps o || r.adjacent o) then .error .discontiguousUnion
    else .ok ⟨some ⟨RangeBound.min false s.lower o'.lower, RangeBound.max true s.upper o'.upper⟩⟩

/-- `intersection`. -/
def intersection (r o : Range B) : Range B :=
  match r.inner, o.inner with
  | some s, some o' =>
    if !r.overlaps o then ⟨none⟩
    else ⟨some ⟨RangeBound.max false s.lower o'.lower, RangeBound.min true s.upper o'.upper⟩⟩
  | _, _ => ⟨none⟩

/-- `Range::canonicalize`: misordered finite bounds are an error; then each bound is put in
canonical form, and a range whose bounds leave nothing between them is empty. The source's
check that both finite bounds are datums of one kind holds of every `Range B`. -/
def canonicalize (d : Option (Discrete B)) (r : Range B) : Except InvalidRangeError (Range B) :=
  match r.inner with
  | none => .ok r
  | some ⟨lower, upper⟩ => do
    if let (some l, some u) := (lower.bound, upper.bound) then
      if u < l then throw .misorderedRangeBounds
    let lower ← lower.canonicalize d false
    let upper ← upper.canonicalize d true
    -- `None` is less than any `Some`, so only a finite upper bound can make the range empty
    if !(lower.inclusive && upper.inclusive) && cmpOption lower.bound upper.bound != .lt &&
        upper.bound.isSome then
      pure ⟨none⟩
    else pure ⟨some ⟨lower, upper⟩⟩

/-- `difference`: an error where `o` lies strictly inside `r`, so that two pieces would be left;
otherwise the part of `r` on one side of `o`, canonicalized. -/
def difference (d : Option (Discrete B)) (r o : Range B) : Except InvalidRangeError (Range B) :=
  if !r.overlaps o then .ok r
  else match r.inner, o.inner with
    | some s, some o =>
      match s.lower.cmp false o.lower, s.upper.cmp true o.upper with
      | .lt, .gt => .error .discontiguousDifference
      | .gt, .lt | .gt, .eq | .eq, .lt | .eq, .eq => .ok ⟨none⟩
      | .gt, .gt | .eq, .gt => canonicalize d ⟨some ⟨⟨!o.upper.inclusive, o.upper.bound⟩, s.upper⟩⟩
      | .lt, .lt | .lt, .eq => canonicalize d ⟨some ⟨s.lower, ⟨!o.lower.inclusive, o.lower.bound⟩⟩⟩
    -- unreachable: ranges that overlap are both non-empty
    | _, _ => .ok r

end Range

end Materialize.Adt
