import Mathlib

/-!
# Frontiers of a totally ordered time

A frontier is an antichain of times: the times not yet complete are those at or above one of its
elements. Over a totally ordered time an antichain has at most one element, so a frontier is an
`Option`: `some t` holds back every time from `t` on, and `none`, the empty frontier, holds back
nothing. The comparisons are those of antichains of any partial order, specialised:
- `lessEqual f t` and `lessThan f t`: some element of `f` is at or below, or below, the time `t`;
- `le f g`: every element of `g` is at or above an element of `f`, and `lt f g` is `le` between
  distinct frontiers.

The empty frontier is above every frontier, and `lt none g` never holds (`lt_none_left`): nothing is
strictly beyond the empty frontier.

The operations that build frontiers specialise the same way: `join` is the maximum of two times,
absorbed by the empty frontier; `insert` keeps the least time, so that collecting times into a
frontier (`ofList`) is their minimum (`ofList_eq_min?`); advancing a time by a frontier
(`advanceBy`) is the maximum with its element. Folding joins over frontiers of one time each is the
maximum of their times (`foldl_join_of_isSome`). Nothing here is specific to one program.
-/

/-- Times are 64-bit words, `Fin (2 ^ 64)`, where frontiers are used; their literals rest on
`2 ^ 64 ≠ 0`. -/
instance instNeZeroTwoPow64 : NeZero (2 ^ 64 : ℕ) := ⟨by norm_num⟩

namespace Frontier

variable {α : Type} [LinearOrder α]

/-- Some element of the frontier is at or below `t`: `t` is not yet complete. -/
def lessEqual (f : Option α) (t : α) : Bool := f.any (· ≤ t)

/-- Some element of the frontier is strictly below `t`. -/
def lessThan (f : Option α) (t : α) : Bool := f.any (· < t)

/-- Every element of `g` is at or above an element of `f`. -/
def le (f g : Option α) : Bool := g.all (lessEqual f)

/-- `f` is at or below `g`, and they differ. -/
def lt (f g : Option α) : Bool := le f g && f != g

@[simp] theorem lessEqual_none (t : α) : lessEqual none t = false := rfl

@[simp] theorem lessEqual_some (a t : α) : lessEqual (some a) t = decide (a ≤ t) := rfl

@[simp] theorem lessThan_none (t : α) : lessThan none t = false := rfl

@[simp] theorem lessThan_some (a t : α) : lessThan (some a) t = decide (a < t) := rfl

@[simp] theorem le_none_right (f : Option α) : le f none = true := rfl

@[simp] theorem le_none_some (b : α) : le none (some b) = false := rfl

@[simp] theorem le_some_some (a b : α) : le (some a) (some b) = decide (a ≤ b) := rfl

/-- A time after one that is not yet complete is not complete either. -/
theorem lessEqual_mono {f : Option α} {a b : α} (h : lessEqual f a = true) (hab : a ≤ b) :
    lessEqual f b = true := by
  cases f with
  | none => cases h
  | some x =>
    rw [lessEqual_some, decide_eq_true_iff] at h ⊢
    exact h.trans hab

/-- Nothing is strictly beyond the empty frontier. -/
@[simp] theorem lt_none_left (g : Option α) : lt none g = false := by
  cases g <;> rfl

@[simp] theorem lt_some_none (a : α) : lt (some a) none = true := rfl

@[simp] theorem lt_some_some (a b : α) : lt (some a) (some b) = decide (a < b) := by
  rw [Bool.eq_iff_iff]
  simp [lt, lt_iff_le_and_ne]

/-! ## Building frontiers -/

/-- The join of two frontiers: the times at or above an element of each. -/
def join (f g : Option α) : Option α := f.bind fun a => g.map (max a)

/-- Adds a time to a frontier: an element at or below `t` keeps it out, else `t` replaces the
elements at or above it. -/
def insert (f : Option α) (t : α) : Option α :=
  match f with
  | none => some t
  | some u => if u ≤ t then some u else some t

/-- Collects times into a frontier, inserting them one by one. -/
def ofList (l : List α) : Option α := l.foldl insert none

/-- Advances a time by a frontier: to its join with the frontier's element, and unchanged by the
empty frontier. -/
def advanceBy (t : α) (f : Option α) : α :=
  match f with
  | none => t
  | some u => max t u

@[simp] theorem join_none_left (g : Option α) : join none g = none := rfl

@[simp] theorem join_none_right (f : Option α) : join f none = none := by
  cases f <;> rfl

@[simp] theorem join_some_some (a b : α) : join (some a) (some b) = some (max a b) := rfl

@[simp] theorem insert_none (t : α) : insert none t = some t := rfl

@[simp] theorem insert_some (u t : α) : insert (some u) t = some (min u t) := by
  simp only [insert, min_def]
  split <;> rfl

@[simp] theorem advanceBy_none (t : α) : advanceBy t none = t := rfl

@[simp] theorem advanceBy_some (t u : α) : advanceBy t (some u) = max t u := rfl

/-- Inserting into a frontier of one time keeps the least. -/
theorem foldl_insert_some (l : List α) (a : α) : l.foldl insert (some a) = some (l.foldl min a) := by
  induction l generalizing a with
  | nil => rfl
  | cons x l ih => rw [List.foldl_cons, insert_some, ih, List.foldl_cons]

/-- A frontier collected from times is their least one. -/
theorem ofList_eq_min? (l : List α) : ofList l = l.min? := by
  cases l with
  | nil => rfl
  | cons x l => rw [ofList, List.foldl_cons, insert_none, foldl_insert_some, List.min?_cons']

/-- Folding joins from one time over frontiers of one time each gives one time: the maximum of all
of them. -/
theorem foldl_join_of_isSome {β : Type} (g : β → Option α) (l : List β) (a : α)
    (h : ∀ x ∈ l, (g x).isSome) :
    l.foldl (fun f x => join f (g x)) (some a) = some ((l.filterMap g).foldl max a) := by
  induction l generalizing a with
  | nil => rfl
  | cons x l ih =>
    obtain ⟨b, hb⟩ := Option.isSome_iff_exists.1 (h x List.mem_cons_self)
    rw [List.foldl_cons, hb, join_some_some, ih _ fun y hy => h y (List.mem_cons_of_mem x hy),
      List.filterMap_cons_some hb, List.foldl_cons]

end Frontier
