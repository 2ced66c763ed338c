import Mathlib

/-!
# In-place writes to a buffer

A growable buffer (a `Vec<u8>` or any slice) as a list, and the three writes that change bytes in
place rather than at the end: one element (`slice[i] = x`), a range from another slice
(`copy_from_slice`), and a range from elsewhere in the same buffer (`copy_within`, a memmove). An
index or a range out of bounds panics, which is `none`.

The lemmas say what each write does to a buffer that is cut at the place it writes: the part
before and the part after stay, and the written part is replaced. Nothing here is specific to one
program.
-/

namespace Buffer

variable {α : Type}

/-- `data[i] = x`. -/
def set? (data : List α) (i : Nat) (x : α) : Option (List α) :=
  if i < data.length then some (data.set i x) else none

/-- `data[start..start + src.len()].copy_from_slice(src)`. -/
def copyFromSlice? (data : List α) (start : Nat) (src : List α) : Option (List α) :=
  if start + src.length ≤ data.length then
    some (data.take start ++ src ++ data.drop (start + src.length))
  else none

/-- `data.copy_within(srcStart..srcEnd, dest)`: the range is read before any of it is written,
so source and destination may overlap. -/
def copyWithin? (data : List α) (srcStart srcEnd dest : Nat) : Option (List α) :=
  if srcStart ≤ srcEnd ∧ srcEnd ≤ data.length then
    copyFromSlice? data dest ((data.drop srcStart).take (srcEnd - srcStart))
  else none

/-- Writing an element at the end of a prefix replaces the element there. -/
theorem set?_append (pre post : List α) (x y : α) :
    set? (pre ++ x :: post) pre.length y = some (pre ++ y :: post) := by
  simp [set?, List.set_append_right]

/-- Copying a slice over a range of the same length replaces that range. -/
theorem copyFromSlice?_append (pre old new post : List α) (h : old.length = new.length) :
    copyFromSlice? (pre ++ old ++ post) pre.length new = some (pre ++ new ++ post) := by
  have hlen : pre.length + new.length ≤ (pre ++ old ++ post).length := by simp [h]
  have hdrop : (pre ++ old ++ post).drop (pre.length + new.length) = post := by
    rw [← h, ← List.length_append, List.drop_left]
  rw [copyFromSlice?, if_pos hlen, hdrop, List.append_assoc pre old, List.take_left]

/-- A copy leaves the bytes before its range as they were. -/
theorem take_copyFromSlice? {data data' src : List α} {start k : Nat}
    (h : copyFromSlice? data start src = some data') (hk : k ≤ start) :
    data'.take k = data.take k := by
  unfold copyFromSlice? at h
  split at h
  · cases h
    have hlen : k ≤ (data.take start).length := by simp; omega
    rw [List.append_assoc, List.take_append_of_le_length hlen, List.take_take, Nat.min_eq_left hk]
  · cases h

/-- A copy past the end of a prefix keeps the prefix. -/
theorem prefix_copyFromSlice? {pre data data' src : List α} {start : Nat}
    (hpre : pre <+: data) (hstart : pre.length ≤ start)
    (h : copyFromSlice? data start src = some data') : pre <+: data' := by
  rw [List.prefix_iff_eq_take, take_copyFromSlice? h hstart]
  exact List.prefix_iff_eq_take.mp hpre

/-- Moving a block right by the length of what follows it: the block ends up at the end, and the
bytes it leaves behind are the first ones of the block and what followed. -/
theorem copyWithin?_shift (pre blk pad : List α) :
    copyWithin? (pre ++ blk ++ pad) pre.length (pre.length + blk.length)
        (pre.length + pad.length) =
      some (pre ++ (blk ++ pad).take pad.length ++ blk) := by
  -- the range read is the block itself
  have hchunk : ((pre ++ blk ++ pad).drop pre.length).take (pre.length + blk.length - pre.length) =
      blk := by
    rw [List.append_assoc, List.drop_left, Nat.add_sub_cancel_left, List.take_left]
  have hlen : pre.length + pad.length + blk.length ≤ (pre ++ blk ++ pad).length := by
    simp; omega
  have htake : (pre ++ blk ++ pad).take (pre.length + pad.length) =
      pre ++ (blk ++ pad).take pad.length := by
    rw [List.append_assoc, List.take_append]; simp
  -- the destination range ends at the end of the buffer
  have hdrop : (pre ++ blk ++ pad).drop (pre.length + pad.length + blk.length) = [] := by
    simp; omega
  rw [copyWithin?, if_pos (by simp), hchunk, copyFromSlice?, if_pos hlen, htake, hdrop,
    List.append_nil]

end Buffer
