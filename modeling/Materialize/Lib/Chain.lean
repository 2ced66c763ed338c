import Mathlib.Logic.Relation
import Mathlib.Data.List.Basic
import Mathlib.Order.Basic

/-!
# Lists of intervals that link end to start

A list of items, each with a start and an end, *links* from `a` to `b` when the first item starts
at `a`, each item starts where the one before it ends, and the last one ends at `b` (`Links`).
A sequence of batches whose lowers and uppers line up, or whose id ranges tile a range of ids, is
such a list. The results here are the ones a structure that regroups such a list is proved with:
how links split over an append (`links_append`), that a nonempty linking list is bounded by its
first start and its last end (`Links.head_last`), and that replacing a nonempty block by one item
spanning it keeps the links (`Links.replace_block`), also along any number of such replacements
(`Regroups`, `Regroups.links`). Nothing here is specific to one program.
-/

namespace Chain

section Links
variable {α β : Type} (lo hi : α → β)

/-- `Links lo hi a l b`: the items of `l` link end to start, the first starting at `a` (by `lo`)
and the last ending at `b` (by `hi`); the empty list links `a` to `a`. -/
def Links : β → List α → β → Prop
  | a, [], b => a = b
  | a, x :: xs, b => lo x = a ∧ Links (hi x) xs b

variable {lo hi}

@[simp] theorem links_nil {a b : β} : Links lo hi a [] b ↔ a = b := Iff.rfl

@[simp] theorem links_cons {a b : β} {x : α} {xs : List α} :
    Links lo hi a (x :: xs) b ↔ lo x = a ∧ Links lo hi (hi x) xs b := Iff.rfl

theorem links_singleton {a b : β} {x : α} : Links lo hi a [x] b ↔ lo x = a ∧ hi x = b := by
  simp

/-- Links split over an append at the point where the first part ends. -/
theorem links_append {a c : β} {l₁ l₂ : List α} :
    Links lo hi a (l₁ ++ l₂) c ↔ ∃ b, Links lo hi a l₁ b ∧ Links lo hi b l₂ c := by
  induction l₁ generalizing a with
  | nil => simp
  | cons x xs ih =>
    simp only [List.cons_append, links_cons, ih]
    constructor
    · rintro ⟨hx, b, h₁, h₂⟩
      exact ⟨b, ⟨hx, h₁⟩, h₂⟩
    · rintro ⟨b, ⟨hx, h₁⟩, h₂⟩
      exact ⟨hx, b, h₁, h₂⟩

/-- Appending an item that starts where a linking list ends extends it to the item's end. -/
theorem Links.concat {a b : β} {l : List α} {x : α} (h : Links lo hi a l b) (hx : lo x = b) :
    Links lo hi a (l ++ [x]) (hi x) :=
  links_append.2 ⟨b, h, links_singleton.2 ⟨hx, rfl⟩⟩

/-- The end a linking list reaches is determined by its start. -/
theorem Links.unique {a b b' : β} {l : List α} (h : Links lo hi a l b) (h' : Links lo hi a l b') :
    b = b' := by
  induction l generalizing a with
  | nil => exact h.symm.trans h'
  | cons x xs ih => exact ih h.2 h'.2

/-- A nonempty linking list starts at its first item's start and ends at its last item's end. -/
theorem Links.head_last {a b : β} {l : List α} (h : Links lo hi a l b) (hl : l ≠ []) :
    lo (l.head hl) = a ∧ hi (l.getLast hl) = b := by
  induction l generalizing a with
  | nil => exact absurd rfl hl
  | cons x xs ih =>
    rcases xs with _ | ⟨y, ys⟩
    · simpa using h
    · refine ⟨h.1, ?_⟩
      simpa [List.getLast_cons] using (ih h.2 (List.cons_ne_nil y ys)).2

/-- Along items that each end strictly after they start, a nonempty linking list ends strictly
after it starts. -/
theorem Links.lt [Preorder β] {a b : β} {l : List α} (h : Links lo hi a l b) (hl : l ≠ [])
    (hlt : ∀ x ∈ l, lo x < hi x) : a < b := by
  induction l generalizing a with
  | nil => exact absurd rfl hl
  | cons x xs ih =>
    obtain ⟨hx, hxs⟩ := h
    have hax : a < hi x := hx ▸ hlt x List.mem_cons_self
    rcases xs with _ | ⟨y, ys⟩
    · exact hxs ▸ hax
    · exact hax.trans (ih hxs (List.cons_ne_nil y ys) fun z hz => hlt z (List.mem_cons_of_mem x hz))

/-- The start and end of a nonempty list, if it links, are its first start and its last end. -/
theorem links_iff_of_ne_nil {a b : β} {l : List α} (hl : l ≠ []) (hlinks : ∃ c d, Links lo hi c l d) :
    Links lo hi a l b ↔ lo (l.head hl) = a ∧ hi (l.getLast hl) = b := by
  obtain ⟨c, d, h⟩ := hlinks
  constructor
  · intro h'
    exact h'.head_last hl
  · rintro ⟨ha, hb⟩
    obtain ⟨hc, hd⟩ := h.head_last hl
    rw [← hc, ha] at h
    rwa [← hd, hb] at h

/-- An item spanning a linking block, from the block's start to its end, may replace the block. -/
theorem Links.replace_block {a c : β} {l₁ blk l₂ : List α} {y : α}
    (h : Links lo hi a (l₁ ++ blk ++ l₂) c) (hblk : blk ≠ [])
    (hlo : lo y = lo (blk.head hblk)) (hhi : hi y = hi (blk.getLast hblk)) :
    Links lo hi a (l₁ ++ [y] ++ l₂) c := by
  obtain ⟨b', h₁₂, h₃⟩ := links_append.1 h
  obtain ⟨b, h₁, h₂⟩ := links_append.1 h₁₂
  obtain ⟨hb, hb'⟩ := h₂.head_last hblk
  exact links_append.2 ⟨b', links_append.2 ⟨b, h₁, links_singleton.2 ⟨hlo.trans hb, hhi.trans hb'⟩⟩, h₃⟩

/-- An item with the same start and end as another may take its place. -/
theorem Links.replace_one {a c : β} {l₁ l₂ : List α} {x y : α} (h : Links lo hi a (l₁ ++ x :: l₂) c)
    (hlo : lo y = lo x) (hhi : hi y = hi x) : Links lo hi a (l₁ ++ y :: l₂) c := by
  obtain ⟨b, h₁, hx, h₂⟩ := links_append.1 h
  exact links_append.2 ⟨b, h₁, hlo.trans hx, hhi ▸ h₂⟩

end Links

/-! ## Regrouping -/

section Regroups
variable {α : Type} (R : List α → α → Prop)

/-- One regrouping step: a nonempty block of consecutive items is replaced by one item that `R`
relates to the block. -/
def RegroupStep (l l' : List α) : Prop :=
  ∃ l₁ blk l₂ y, blk ≠ [] ∧ R blk y ∧ l = l₁ ++ blk ++ l₂ ∧ l' = l₁ ++ [y] ++ l₂

/-- Any number of regrouping steps. -/
def Regroups : List α → List α → Prop := Relation.ReflTransGen (RegroupStep R)

variable {R}

@[refl] theorem Regroups.refl (l : List α) : Regroups R l l := Relation.ReflTransGen.refl

theorem Regroups.trans {l l' l'' : List α} (h : Regroups R l l') (h' : Regroups R l' l'') :
    Regroups R l l'' :=
  Relation.ReflTransGen.trans h h'

theorem Regroups.single {l l' : List α} (h : RegroupStep R l l') : Regroups R l l' :=
  Relation.ReflTransGen.single h

/-- A regrouping of a list is a regrouping of the list with the same items around it. -/
theorem RegroupStep.frame {l l' : List α} (h : RegroupStep R l l') (pre post : List α) :
    RegroupStep R (pre ++ l ++ post) (pre ++ l' ++ post) := by
  obtain ⟨l₁, blk, l₂, y, hblk, hR, rfl, rfl⟩ := h
  exact ⟨pre ++ l₁, blk, l₂ ++ post, y, hblk, hR, by simp, by simp⟩

theorem Regroups.frame {l l' : List α} (h : Regroups R l l') (pre post : List α) :
    Regroups R (pre ++ l ++ post) (pre ++ l' ++ post) := by
  induction h with
  | refl => exact Regroups.refl _
  | tail _ hstep ih => exact ih.trans (Regroups.single (hstep.frame pre post))

/-- A property of lists that one regrouping step keeps holds along any number of them. -/
theorem Regroups.preserves {P : List α → Prop} (hstep : ∀ l l', RegroupStep R l l' → P l → P l')
    {l l' : List α} (h : Regroups R l l') (hl : P l) : P l' := by
  induction h with
  | refl => exact hl
  | tail _ hs ih => exact hstep _ _ hs ih

/-- A property of items that every block's item has holds of every item after a regrouping. -/
theorem Regroups.forall_mem {Q : α → Prop} (hR : ∀ blk y, R blk y → Q y) {l l' : List α}
    (h : Regroups R l l') (hl : ∀ x ∈ l, Q x) : ∀ x ∈ l', Q x := by
  refine Regroups.preserves (P := fun l => ∀ x ∈ l, Q x) ?_ h hl
  rintro _ _ ⟨l₁, blk, l₂, y, -, hy, rfl, rfl⟩ hall x hx
  simp only [List.mem_append, List.mem_singleton] at hx
  rcases hx with (hx | rfl) | hx
  · exact hall x (by simp [hx])
  · exact hR blk x hy
  · exact hall x (by simp [hx])

variable {β : Type} {lo hi : α → β}

/-- Links survive regrouping when each block's item spans the block. -/
theorem Regroups.links
    (hR : ∀ blk y, R blk y → ∀ hblk : blk ≠ [], lo y = lo (blk.head hblk) ∧ hi y = hi (blk.getLast hblk))
    {l l' : List α} (h : Regroups R l l') {a b : β} (hl : Links lo hi a l b) :
    Links lo hi a l' b := by
  refine Regroups.preserves (P := fun l => Links lo hi a l b) ?_ h hl
  rintro _ _ ⟨l₁, blk, l₂, y, hblk, hy, rfl, rfl⟩ hlinks
  obtain ⟨hlo, hhi⟩ := hR blk y hy hblk
  exact hlinks.replace_block hblk hlo hhi

/-- What the items carry, listed in order, is the same before and after a regrouping when each
block's item carries what the block does. -/
theorem Regroups.flatMap_eq {δ : Type} {g : α → List δ}
    (hR : ∀ blk y, R blk y → g y = blk.flatMap g) {l l' : List α} (h : Regroups R l l') :
    l'.flatMap g = l.flatMap g := by
  induction h with
  | refl => rfl
  | tail _ hs ih =>
    obtain ⟨l₁, blk, l₂, y, -, hy, rfl, rfl⟩ := hs
    rw [← ih]
    simp [List.flatMap_append, hR blk y hy]

end Regroups

end Chain
