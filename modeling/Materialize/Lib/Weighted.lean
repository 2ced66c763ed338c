import Mathlib.Data.Finsupp.Basic

/-!
# Weighted sums over lists of updates

A list of weighted elements `(a, n)` stands for the formal sum `Σ n · a`: its *consolidation*
gives each element the total of its weights (`weight`, and `consolidate` as a finitely supported
function). A sum `Σ n • g a` into any abelian group depends only on the consolidation
(`wsum_eq_sum_consolidate`), so it vanishes when every total weight is zero and is `g c` when the
consolidation is the single element `c` with weight one.

Bytes under exclusive or form an abelian group in which every element is its own inverse
(`XorByte`). In such a group a weight acts through its parity (`zsmul_of_add_self`), and a byte
string read as its zero-extended sequence of bytes (`bytesAt`) turns the byte-wise exclusive or of
two strings, the shorter padded with zeros, into the sum of their sequences. Nothing here is
specific to one program.
-/

namespace Weighted

section Sums
variable {α G : Type} [AddCommGroup G]

/-- The sum `Σ n • g a` over a list of weighted elements. -/
def wsum (g : α → G) (U : List (α × ℤ)) : G :=
  (U.map fun p => p.2 • g p.1).sum

@[simp] theorem wsum_nil (g : α → G) : wsum g [] = 0 := rfl

@[simp] theorem wsum_cons (g : α → G) (p : α × ℤ) (U : List (α × ℤ)) :
    wsum g (p :: U) = p.2 • g p.1 + wsum g U := by
  simp [wsum]

@[simp] theorem wsum_append (g : α → G) (U V : List (α × ℤ)) :
    wsum g (U ++ V) = wsum g U + wsum g V := by
  simp [wsum]

/-- The consolidation of a list of weighted elements, as a finitely supported function. -/
noncomputable def consolidate (U : List (α × ℤ)) : α →₀ ℤ :=
  (U.map fun p => Finsupp.single p.1 p.2).sum

@[simp] theorem consolidate_nil : consolidate ([] : List (α × ℤ)) = 0 := rfl

@[simp] theorem consolidate_cons (p : α × ℤ) (U : List (α × ℤ)) :
    consolidate (p :: U) = Finsupp.single p.1 p.2 + consolidate U := by
  simp [consolidate]

theorem wsum_eq_sum_consolidate (g : α → G) (U : List (α × ℤ)) :
    wsum g U = (consolidate U).sum fun a n => n • g a := by
  induction U with
  | nil => simp
  | cons p U ih =>
    rw [wsum_cons, ih, consolidate_cons,
      Finsupp.sum_add_index' (fun _ => zero_zsmul _) (fun _ _ _ => add_zsmul _ _ _),
      Finsupp.sum_single_index (zero_zsmul _)]

variable [DecidableEq α]

/-- The total weight of `a`. -/
def weight (U : List (α × ℤ)) (a : α) : ℤ :=
  ((U.filter (·.1 = a)).map (·.2)).sum

@[simp] theorem weight_nil (a : α) : weight ([] : List (α × ℤ)) a = 0 := rfl

@[simp] theorem weight_cons (p : α × ℤ) (U : List (α × ℤ)) (a : α) :
    weight (p :: U) a = (if p.1 = a then p.2 else 0) + weight U a := by
  by_cases h : p.1 = a <;> simp [weight, h]

theorem consolidate_apply (U : List (α × ℤ)) (a : α) : consolidate U a = weight U a := by
  induction U with
  | nil => simp
  | cons p U ih =>
    rw [consolidate_cons, Finsupp.add_apply, ih, weight_cons, Finsupp.single_apply]

/-- An element of odd total weight occurs with an odd weight. -/
theorem exists_odd_of_weight_odd {U : List (α × ℤ)} {a : α} (h : weight U a % 2 = 1) :
    ∃ p ∈ U, p.1 = a ∧ p.2 % 2 = 1 := by
  induction U with
  | nil => simp at h
  | cons p U ih =>
    by_cases hp : p.1 = a ∧ p.2 % 2 = 1
    · exact ⟨p, List.mem_cons_self .., hp⟩
    · -- the head adds an even weight, or none, so the rest has odd weight
      have hU : weight U a % 2 = 1 := by
        rw [weight_cons] at h
        split at h
        case isTrue hpa =>
          have : ¬p.2 % 2 = 1 := fun h' => hp ⟨hpa, h'⟩
          omega
        case isFalse => omega
      obtain ⟨q, hq, hq'⟩ := ih hU
      exact ⟨q, List.mem_cons_of_mem _ hq, hq'⟩

/-- A list whose total weights all vanish sums to zero. -/
theorem wsum_of_weight_eq_zero (g : α → G) {U : List (α × ℤ)} (h : ∀ a, weight U a = 0) :
    wsum g U = 0 := by
  have hc : consolidate U = 0 := by
    ext a
    rw [consolidate_apply, h, Finsupp.coe_zero, Pi.zero_apply]
  rw [wsum_eq_sum_consolidate, hc, Finsupp.sum_zero_index]

/-- A list that consolidates to `c` with weight one sums to `g c`. -/
theorem wsum_of_weight_eq_single (g : α → G) {U : List (α × ℤ)} {c : α}
    (h : ∀ a, weight U a = if a = c then 1 else 0) : wsum g U = g c := by
  have hc : consolidate U = Finsupp.single c 1 := by
    ext a
    rw [consolidate_apply, h, Finsupp.single_apply]
    by_cases hac : a = c
    · simp [hac]
    · simp [hac, Ne.symm hac]
  rw [wsum_eq_sum_consolidate, hc, Finsupp.sum_single_index (zero_zsmul _), one_zsmul]

end Sums

/-! ## Groups in which every element is its own inverse -/

section SelfInverse
variable {G : Type} [AddCommGroup G]

/-- Where `x + x = 0`, a weight acts on `x` through its parity. -/
theorem zsmul_of_add_self (h : ∀ x : G, x + x = 0) (n : ℤ) (x : G) :
    n • x = if n % 2 = 1 then x else 0 := by
  have h2 : (2 : ℤ) • x = 0 := by rw [two_zsmul, h]
  have hn : n • x = (n % 2) • x := by
    conv_lhs => rw [← Int.emod_add_mul_ediv n 2]
    rw [add_zsmul, mul_comm, mul_zsmul, h2, zsmul_zero, add_zero]
  rw [hn]
  rcases Int.emod_two_eq_zero_or_one n with h0 | h1
  · simp [h0]
  · simp [h1]

end SelfInverse

/-! ## Bytes under exclusive or -/

/-- A byte, added by exclusive or. -/
@[ext] structure XorByte where
  byte : UInt8

instance : Zero XorByte := ⟨⟨0⟩⟩

instance : Add XorByte := ⟨fun a b => ⟨a.byte ^^^ b.byte⟩⟩

/-- Every byte is its own inverse. -/
instance : Neg XorByte := ⟨fun a => a⟩

instance : AddCommGroup XorByte where
  add_assoc a b c := XorByte.ext (UInt8.xor_assoc a.byte b.byte c.byte)
  zero_add _ := XorByte.ext UInt8.zero_xor
  add_zero _ := XorByte.ext UInt8.xor_zero
  add_comm a b := XorByte.ext (UInt8.xor_comm a.byte b.byte)
  neg_add_cancel _ := XorByte.ext UInt8.xor_self
  nsmul := nsmulRec
  nsmul_zero _ := rfl
  nsmul_succ _ _ := rfl
  zsmul := zsmulRec
  zsmul_zero' _ := rfl
  zsmul_succ' _ _ := rfl
  zsmul_neg' _ _ := rfl

@[simp] theorem XorByte.add_byte (a b : XorByte) : (a + b).byte = a.byte ^^^ b.byte := rfl

@[simp] theorem XorByte.zero_byte : (0 : XorByte).byte = 0 := rfl

theorem XorByte.add_self (a : XorByte) : a + a = 0 := XorByte.ext UInt8.xor_self

/-- A byte string as the sequence of its bytes, extended by zeros. -/
def bytesAt (l : List UInt8) (i : ℕ) : XorByte := ⟨l.getD i 0⟩

theorem bytesAt_add_self (f : ℕ → XorByte) : f + f = 0 := by
  funext i
  exact XorByte.add_self (f i)

/-- Two strings read the same where both are extended by zeros, if one is the other with zeros
appended. -/
theorem bytesAt_append_replicate_zero (l : List UInt8) (n : ℕ) :
    bytesAt (l ++ List.replicate n 0) = bytesAt l := by
  funext i
  simp only [bytesAt, XorByte.mk.injEq, List.getD_eq_getElem?_getD, List.getElem?_append]
  split
  · rfl
  · rename_i h
    rw [List.getElem?_eq_none (Nat.le_of_not_lt h)]
    simp [List.getElem?_replicate]
    split <;> rfl

/-- A string is all zeros exactly when its zero-extended sequence is zero. -/
theorem bytesAt_eq_zero_iff (l : List UInt8) : bytesAt l = 0 ↔ ∀ x ∈ l, x = 0 := by
  constructor
  · intro h x hx
    obtain ⟨i, hi, rfl⟩ := List.getElem_of_mem hx
    have := congrArg XorByte.byte (congrFun h i)
    simpa [bytesAt, List.getD_eq_getElem?_getD, List.getElem?_eq_getElem hi] using this
  · intro h
    funext i
    simp only [bytesAt, Pi.zero_apply, List.getD_eq_getElem?_getD]
    cases hi : l[i]? with
    | none => rfl
    | some x => rw [Option.getD_some, h x (List.mem_of_getElem? hi)]; rfl

/-- The first `n` bytes of a string at least `n` long are determined by its sequence. -/
theorem take_eq_of_bytesAt_eq {l m : List UInt8} (h : bytesAt l = bytesAt m)
    (hl : m.length ≤ l.length) : l.take m.length = m := by
  apply List.ext_getElem (by simp [hl])
  intro i h₁ h₂
  have := congrArg XorByte.byte (congrFun h i)
  simp only [bytesAt, List.getD_eq_getElem?_getD, List.getElem?_eq_getElem h₂,
    List.getElem?_eq_getElem (Nat.lt_of_lt_of_le h₂ hl), Option.getD_some] at this
  simpa using this

end Weighted
