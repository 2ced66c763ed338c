import Mathlib.Algebra.Order.Group.Nat
import Mathlib.Algebra.Order.Ring.Int
import Mathlib.Tactic.Ring

/-!
# Byte strings as unsigned and two's-complement integers

The denotation of a byte string read little- or big-endian, its two's-complement reading, and
the three facts an encoder or decoder of such strings is proved with: the value of a
concatenation (`leValue_append`, `beValue_append`), the value of the byte-wise complement
(`leValue_complement`), and the value a chunked big-endian read accumulates
(`beValue_foldl_chunks`). Nothing here is specific to one program.
-/

namespace Bytes

/-! ## Unsigned readings -/

/-- The natural number whose base-256 digits are the bytes, least significant first. -/
def leValue : List UInt8 → Nat
  | [] => 0
  | b :: bs => b.toNat + 256 * leValue bs

/-- The natural number whose base-256 digits are the bytes, most significant first. -/
def beValue (l : List UInt8) : Nat := leValue l.reverse

@[simp] theorem leValue_nil : leValue [] = 0 := rfl

@[simp] theorem leValue_cons (b : UInt8) (bs : List UInt8) :
    leValue (b :: bs) = b.toNat + 256 * leValue bs := rfl

theorem leValue_lt (l : List UInt8) : leValue l < 256 ^ l.length := by
  induction l with
  | nil => simp
  | cons b bs ih =>
    have hb : b.toNat < 256 := b.toNat_lt
    rw [leValue_cons, List.length_cons, pow_succ]
    omega

theorem leValue_append (l₁ l₂ : List UInt8) :
    leValue (l₁ ++ l₂) = leValue l₁ + 256 ^ l₁.length * leValue l₂ := by
  induction l₁ with
  | nil => simp
  | cons b bs ih =>
    rw [List.cons_append, leValue_cons, leValue_cons, ih, List.length_cons, pow_succ]
    ring

theorem beValue_lt (l : List UInt8) : beValue l < 256 ^ l.length := by
  simpa [beValue] using leValue_lt l.reverse

@[simp] theorem beValue_nil : beValue [] = 0 := rfl

theorem beValue_append (l₁ l₂ : List UInt8) :
    beValue (l₁ ++ l₂) = beValue l₁ * 256 ^ l₂.length + beValue l₂ := by
  simp only [beValue, List.reverse_append, leValue_append, List.length_reverse]
  ring

theorem beValue_cons (b : UInt8) (bs : List UInt8) :
    beValue (b :: bs) = b.toNat * 256 ^ bs.length + beValue bs := by
  have := beValue_append [b] bs
  simpa [beValue] using this

/-! ## Writing a number's low bytes -/

/-- The `k` least significant base-256 digits of `n`, least significant first: the first `k`
bytes of a little-endian encoding of `n`. -/
def leBytes (n : Nat) : Nat → List UInt8
  | 0 => []
  | k + 1 => UInt8.ofNat n :: leBytes (n / 256) k

theorem leBytes_len_zero (n : Nat) : leBytes n 0 = [] := rfl

theorem leBytes_succ (n k : Nat) : leBytes n (k + 1) = UInt8.ofNat n :: leBytes (n / 256) k := rfl

@[simp] theorem length_leBytes (n k : Nat) : (leBytes n k).length = k := by
  induction k generalizing n with
  | zero => rfl
  | succ k ih => simp [leBytes_succ, ih]

theorem leValue_leBytes (n k : Nat) : leValue (leBytes n k) = n % 256 ^ k := by
  induction k generalizing n with
  | zero => simp [leBytes_len_zero, Nat.mod_one]
  | succ k ih =>
    have hbyte : (UInt8.ofNat n).toNat = n % 256 := UInt8.toNat_ofNat'
    rw [leBytes_succ, leValue_cons, ih, hbyte, pow_succ, Nat.mul_comm _ 256, Nat.mod_mul]

@[simp] theorem leBytes_zero (k : Nat) : leBytes 0 k = List.replicate k 0 := by
  induction k with
  | zero => rfl
  | succ k ih => simp [leBytes_succ, ih, List.replicate_succ]

/-- The first `j` of the low `k` bytes are the low `j` bytes. -/
theorem take_leBytes (n : Nat) {j k : Nat} (h : j ≤ k) : (leBytes n k).take j = leBytes n j := by
  induction j generalizing n k with
  | zero => simp [leBytes_len_zero]
  | succ j ih =>
    obtain ⟨k, rfl⟩ : ∃ k', k = k' + 1 := ⟨k - 1, by omega⟩
    simp [leBytes_succ, ih _ (Nat.le_of_succ_le_succ h)]

@[simp] theorem leValue_replicate_zero (j : Nat) : leValue (List.replicate j 0) = 0 := by
  induction j with
  | zero => rfl
  | succ j ih => simp [List.replicate_succ, ih]

theorem leValue_replicate_ff (j : Nat) : leValue (List.replicate j 0xFF) = 256 ^ j - 1 := by
  induction j with
  | zero => rfl
  | succ j ih =>
    have : 1 ≤ 256 ^ j := Nat.one_le_pow _ _ (by norm_num)
    rw [List.replicate_succ, leValue_cons, ih, pow_succ]
    simp
    omega

/-! ## Writing a number's bytes most significant first -/

/-- The `k` least significant base-256 digits of `n`, most significant first: `to_be_bytes`. -/
def beBytes (n k : Nat) : List UInt8 := (leBytes n k).reverse

@[simp] theorem length_beBytes (n k : Nat) : (beBytes n k).length = k := by
  simp [beBytes]

theorem beValue_beBytes (n k : Nat) : beValue (beBytes n k) = n % 256 ^ k := by
  rw [beValue, beBytes, List.reverse_reverse, leValue_leBytes]

/-! ## Lexicographic order -/

/-- Lists compared lexicographically, where the first parts have one length, compare by the first
parts and then by the rest. -/
theorem compare_append_of_length_eq {α : Type} [Ord α] {a b c d : List α}
    (h : a.length = c.length) : compare (a ++ b) (c ++ d) = (compare a c).then (compare b d) := by
  induction a generalizing c with
  | nil =>
    rw [List.length_nil, eq_comm, List.length_eq_zero_iff] at h
    subst h
    rfl
  | cons x a ih =>
    cases c with
    | nil => simp at h
    | cons y c =>
      simp only [List.cons_append, List.compare_cons_cons, ih (by simpa using h), Ordering.then_assoc]

/-- Comparing `a * p + x` with `b * p + y`, for digits below `p`, compares `a` with `b` and then `x`
with `y`. -/
theorem compare_mul_add {a b x y p : Nat} (hx : x < p) (hy : y < p) :
    compare (a * p + x) (b * p + y) = (compare a b).then (compare x y) := by
  rcases lt_trichotomy a b with hab | rfl | hab
  · have : (a + 1) * p ≤ b * p := Nat.mul_le_mul_right p hab
    rw [Nat.compare_eq_lt.mpr hab, Nat.compare_eq_lt.mpr (by rw [Nat.add_mul] at this; omega)]
    rfl
  · rw [(Nat.compare_eq_eq.mpr rfl), Ordering.eq_then]
    rcases lt_trichotomy x y with hxy | rfl | hxy
    · rw [Nat.compare_eq_lt.mpr hxy, Nat.compare_eq_lt.mpr (by omega)]
    · rw [(Nat.compare_eq_eq.mpr rfl), (Nat.compare_eq_eq.mpr rfl)]
    · rw [Nat.compare_eq_gt.mpr hxy, Nat.compare_eq_gt.mpr (by omega)]
  · have : (b + 1) * p ≤ a * p := Nat.mul_le_mul_right p hab
    rw [Nat.compare_eq_gt.mpr hab, Nat.compare_eq_gt.mpr (by rw [Nat.add_mul] at this; omega)]
    rfl

/-- Bytes, and the wider unsigned integers, compare as their values. -/
theorem compare_uInt8 (a b : UInt8) : compare a b = compare a.toNat b.toNat := by
  simp only [compare, compareOfLessAndEq, UInt8.lt_iff_toNat_lt, ← UInt8.toNat_inj]

theorem compare_uInt32 (a b : UInt32) : compare a b = compare a.toNat b.toNat := by
  simp only [compare, compareOfLessAndEq, UInt32.lt_iff_toNat_lt, ← UInt32.toNat_inj]

theorem compare_uInt64 (a b : UInt64) : compare a b = compare a.toNat b.toNat := by
  simp only [compare, compareOfLessAndEq, UInt64.lt_iff_toNat_lt, ← UInt64.toNat_inj]

/-- Byte strings of one length compare lexicographically as their big-endian values compare. -/
theorem compare_eq_compare_beValue {l₁ l₂ : List UInt8} (h : l₁.length = l₂.length) :
    compare l₁ l₂ = compare (beValue l₁) (beValue l₂) := by
  induction l₁ generalizing l₂ with
  | nil =>
    rw [List.length_nil, eq_comm, List.length_eq_zero_iff] at h
    subst h
    rfl
  | cons b bs ih =>
    cases l₂ with
    | nil => simp at h
    | cons c cs =>
      have hlen : bs.length = cs.length := by simpa using h
      rw [List.compare_cons_cons, ih hlen, beValue_cons, beValue_cons, hlen,
        compare_mul_add (beValue_lt bs |>.trans_eq (by rw [hlen])) (beValue_lt cs), compare_uInt8]

theorem compare_beBytes {m n k : Nat} (hm : m < 256 ^ k) (hn : n < 256 ^ k) :
    compare (beBytes m k) (beBytes n k) = compare m n := by
  rw [compare_eq_compare_beValue (by simp), beValue_beBytes, beValue_beBytes, Nat.mod_eq_of_lt hm,
    Nat.mod_eq_of_lt hn]

/-! ## Sign extension -/

/-- A number below `256 ^ k`, written in `k` bytes and zero-extended, reads back as itself. -/
theorem leValue_leBytes_extend_zero {n k : Nat} (j : Nat) (hn : n < 256 ^ k) :
    leValue (leBytes n k ++ List.replicate j 0) = n := by
  rw [leValue_append, leValue_replicate_zero, leValue_leBytes, Nat.mod_eq_of_lt hn]
  simp

/-- A `w`-byte number whose top `w - k` bytes are all `0xFF`, written in `k` bytes and extended
with `0xFF` to `w`, reads back as itself: the two's-complement sign extension of a negative
number. -/
theorem leValue_leBytes_extend_ff {n k w : Nat} (hk : k ≤ w) (hn : n < 256 ^ w)
    (hhi : 256 ^ w - 256 ^ k ≤ n) :
    leValue (leBytes n k ++ List.replicate (w - k) 0xFF) = n := by
  have hw : 256 ^ w = 256 ^ (w - k) * 256 ^ k := by rw [← pow_add, Nat.sub_add_cancel hk]
  have hpos : 1 ≤ 256 ^ (w - k) := Nat.one_le_pow _ _ (by norm_num)
  -- the high part of `n` is all ones
  have hdiv : n / 256 ^ k = 256 ^ (w - k) - 1 := by
    apply Nat.div_eq_of_lt_le
    · rw [Nat.sub_one_mul, ← hw]
      exact hhi
    · rw [Nat.sub_add_cancel hpos, ← hw]
      exact hn
  rw [leValue_append, leValue_replicate_ff, leValue_leBytes, length_leBytes, ← hdiv]
  exact Nat.mod_add_div n (256 ^ k)

/-! ## The byte-wise complement -/

/-- Complementing a byte subtracts it from `255`: `0xFF` is the all-ones vector, and xor with it
is the complement. -/
theorem toNat_xor_ff_fin : ∀ n : Fin 256, (UInt8.ofNat n.val ^^^ 0xFF).toNat = 255 - n.val := by
  intro n
  rw [← UInt8.toNat_toBitVec, UInt8.toBitVec_xor]
  have hff : (0xFF : UInt8).toBitVec = BitVec.allOnes 8 := by decide
  rw [hff, BitVec.xor_allOnes, BitVec.toNat_not]
  simp

theorem toNat_xor_ff (b : UInt8) : (b ^^^ 0xFF).toNat = 255 - b.toNat := by
  simpa using toNat_xor_ff_fin ⟨b.toNat, b.toNat_lt⟩

/-- Complementing every byte of a string of `k` bytes reads as `256 ^ k - 1` minus its value. -/
theorem leValue_complement (l : List UInt8) :
    leValue (l.map (· ^^^ 0xFF)) = 256 ^ l.length - 1 - leValue l := by
  induction l with
  | nil => simp
  | cons b bs ih =>
    have hb : b.toNat < 256 := b.toNat_lt
    have hlt := leValue_lt bs
    rw [List.map_cons, leValue_cons, leValue_cons, ih, toNat_xor_ff, List.length_cons, pow_succ]
    have : 256 * (256 ^ bs.length - 1 - leValue bs) = 256 * 256 ^ bs.length - 256 - 256 * leValue bs := by
      rw [Nat.mul_sub, Nat.mul_sub, Nat.mul_one]
    omega

/-! ## Two's complement -/

/-- The sign bit of a big-endian string: the top bit of its first byte. -/
def signBit (l : List UInt8) : Bool :=
  match l with
  | [] => false
  | b :: _ => b &&& 0x80 != 0

/-- The integer a big-endian two's-complement string denotes. -/
def beSigned (l : List UInt8) : Int :=
  if signBit l then (beValue l : Int) - 256 ^ l.length else beValue l

/-- The sign bit is set exactly when the first byte is at least `0x80`: `0x80` is the top bit,
and a byte has it exactly when it is at least `2 ^ 7`. -/
theorem and_80_ne_zero_fin : ∀ n : Fin 256,
    ((UInt8.ofNat n.val &&& 0x80) != 0) = decide (128 ≤ n.val) := by
  intro n
  have h80 : (0x80 : UInt8) = UInt8.ofBitVec (BitVec.twoPow 8 7) := by decide
  have hbit : (UInt8.ofNat n.val).toBitVec.getLsbD 7 = decide (128 ≤ n.val) := by
    rw [show (7 : Nat) = 8 - 1 from rfl, BitVec.getLsbD_last]
    simp
  rw [h80]
  cases h : decide (128 ≤ n.val) <;> simp_all [← UInt8.toBitVec_inj, BitVec.and_twoPow]

theorem signBit_cons (b : UInt8) (bs : List UInt8) :
    signBit (b :: bs) = decide (128 ≤ b.toNat) := by
  simpa [signBit] using and_80_ne_zero_fin ⟨b.toNat, b.toNat_lt⟩

/-- A set sign bit puts the unsigned reading in the upper half of its range. -/
theorem signBit_iff_le (b : UInt8) (bs : List UInt8) :
    signBit (b :: bs) = true ↔ 128 * 256 ^ bs.length ≤ beValue (b :: bs) := by
  have hbs := beValue_lt bs
  have hb : b.toNat < 256 := b.toNat_lt
  rw [signBit_cons, beValue_cons, decide_eq_true_iff]
  constructor
  · intro h
    have := Nat.mul_le_mul_right (256 ^ bs.length) h
    omega
  · intro h
    by_contra hlt
    have : b.toNat * 256 ^ bs.length + beValue bs < 128 * 256 ^ bs.length := by
      have h1 : b.toNat + 1 ≤ 128 := by omega
      have := Nat.mul_le_mul_right (256 ^ bs.length) h1
      rw [Nat.add_mul, Nat.one_mul] at this
      omega
    omega

/-! ## Chunked reads -/

/-- `l` cut into consecutive pieces of `n` elements, the last one possibly shorter; the fuel is
the length of `l`, enough for every `n > 0`. -/
def chunks {α : Type} (n : Nat) (l : List α) : List (List α) := go l.length l
where
  /-- `chunks` with explicit fuel. -/
  go : Nat → List α → List (List α)
    | 0, _ => []
    | fuel + 1, l => if l.isEmpty then [] else l.take n :: go fuel (l.drop n)

/-- With enough fuel, the chunks of a string whose length is a multiple of `n` are its
`n`-element pieces, and the big-endian reading accumulates one piece at a time. -/
theorem beValue_foldl_chunks_go (n : Nat) :
    ∀ (fuel : Nat) (l : List UInt8) (acc : Nat), l.length ≤ fuel → n ∣ l.length →
      (chunks.go n fuel l).foldl (fun a c => a * 256 ^ n + beValue c) acc =
        acc * 256 ^ l.length + beValue l := by
  intro fuel
  induction fuel with
  | zero =>
    intro l acc hl _
    have : l = [] := List.eq_nil_of_length_eq_zero (by omega)
    subst this
    simp [chunks.go]
  | succ fuel ih =>
    intro l acc hl hdvd
    rcases l with _ | ⟨b, bs⟩
    · simp [chunks.go]
    · generalize hl' : b :: bs = l at hl hdvd
      have hne : l ≠ [] := by rw [← hl']; simp
      have hlen : n ≤ l.length := Nat.le_of_dvd (by simp [List.length_pos_iff, hne]) hdvd
      have hn : 0 < n := Nat.pos_of_ne_zero fun h => by
        subst h
        exact hne (List.eq_nil_of_length_eq_zero (Nat.eq_zero_of_zero_dvd hdvd))
      have hdrop : (l.drop n).length = l.length - n := by simp
      have hv : beValue l = beValue (l.take n) * 256 ^ (l.length - n) + beValue (l.drop n) := by
        conv_lhs => rw [← List.take_append_drop n l]
        rw [beValue_append, hdrop]
      have hp : 256 ^ l.length = 256 ^ n * 256 ^ (l.length - n) := by
        rw [← pow_add, Nat.add_sub_cancel' hlen]
      simp only [chunks.go, List.isEmpty_iff, hne, ↓reduceIte, List.foldl_cons]
      rw [ih _ _ (by rw [hdrop]; omega) (by rw [hdrop]; exact Nat.dvd_sub hdvd (dvd_refl n)),
        hdrop, hv, hp]
      ring

theorem beValue_foldl_chunks (n : Nat) (l : List UInt8) (acc : Nat)
    (hdvd : n ∣ l.length) :
    (chunks n l).foldl (fun a c => a * 256 ^ n + beValue c) acc =
      acc * 256 ^ l.length + beValue l :=
  beValue_foldl_chunks_go n l.length l acc le_rfl hdvd

end Bytes
