import Materialize.Lib.Bytes
import Materialize.Lib.Decimal

/-!
# Two's-complement decoding of `Numeric` values

The model of `src/repr/src/adt/numeric.rs:254-460`: the byte-level negation
`negate_twos_complement_le`, and the decoder `twos_complement_be_to_numeric`, which reads a
big-endian two's-complement integer into a 39-digit `Numeric`, trying the narrow width first
and the 81-digit `NumericAgg` width second. Decoding takes the caller's buffer by `&mut` and
negates it in place, so each decoding function returns its result together with the buffer as
the call leaves it.

The decimal library (the `dec` crate over decNumber) is not part of the repository: its rounding
is the parameter `round`, constrained by `Decimal.RoundingLaws` where a result depends on it.

The main results: `negateTwosComplementLe_value` (the negation maps the encoding of `x` to that
of `-x mod 256 ^ k`), `twosComplementBeToNumericInner_value` (a successful inner decode is exact),
and `twosComplementBeToNumeric_opposite_sign`: a negative input of at most 17 bytes with more
than 39 significant digits makes the narrow attempt fail after it has negated the buffer, so the
wide attempt reads the magnitude, and every `Ok` result has the opposite sign.
-/

namespace Materialize.Numeric

open Bytes Decimal

/-! ## Constants -/

/-- `NUMERIC_DATUM_WIDTH`: the decimal units of a `Numeric`. -/
def numericDatumWidth : Nat := 13

/-- `NUMERIC_AGG_WIDTH`: the decimal units of a `NumericAgg`. -/
def numericAggWidth : Nat := 27

/-- `D::context()` for `Decimal<N>`: `N` units of three digits, and decNumber's base exponent
range. -/
def context (width : Nat) : Context := ⟨3 * width, 999999999, -999999999⟩

/-- `CX_DATUM`: 39 digits, exponents `-39 ..= 38`. -/
def cxDatum : Context := ⟨39, 38, -39⟩

/-- `D::u128_splitter()`: `1 << 128`. -/
def u128Splitter : Dec := Dec.ofNat (2 ^ 128)

/-! ## Byte-level negation -/

/-- `u8::trailing_zeros`: the number of low zero bits, `8` for zero. -/
def trailingZeros (b : UInt8) : Nat := go 8 b.toNat
where
  /-- Count low zero bits of `n`, for at most `fuel` bits. -/
  go : Nat → Nat → Nat
    | 0, _ => 0
    | fuel + 1, n => if n % 2 = 1 then 0 else go fuel (n / 2) + 1

/-- `negate_twos_complement_le`: negates a little-endian two's-complement string in place. Bytes
up to the first non-zero one are kept, that byte has every bit above its lowest set bit flipped
(`0x80` has none), and every later byte is complemented. -/
def negateTwosComplementLe (b : List UInt8) : List UInt8 := go false b
where
  /-- The loop, with `seen_first_one` as its state. -/
  go (seenFirstOne : Bool) : List UInt8 → List UInt8
    | [] => []
    | i :: rest =>
      if seenFirstOne then (i ^^^ 0xFF) :: go true rest
      else if i > 0 then
        if i = 0x80 then i :: go true rest
        else (i ^^^ ((0xFF : UInt8) <<< UInt8.ofNat (trailingZeros i + 1))) :: go true rest
      else i :: go false rest

/-- At the first non-zero byte the loop negates the byte modulo 256, checked over the bytes. -/
theorem negate_first_one_fin : ∀ n : Fin 256, n.val ≠ 0 →
    (if UInt8.ofNat n.val = 0x80 then UInt8.ofNat n.val
      else UInt8.ofNat n.val ^^^ ((0xFF : UInt8) <<< UInt8.ofNat (trailingZeros (UInt8.ofNat n.val) + 1))).toNat =
      256 - n.val := by
  decide +kernel

theorem negate_first_one (i : UInt8) (hi : i ≠ 0) :
    (if i = 0x80 then i else i ^^^ ((0xFF : UInt8) <<< UInt8.ofNat (trailingZeros i + 1))).toNat =
      256 - i.toNat := by
  have hn : i.toNat ≠ 0 := fun h => hi (UInt8.toNat_inj.mp (by simpa using h))
  simpa using negate_first_one_fin ⟨i.toNat, i.toNat_lt⟩ hn

/-- After the first one, the loop complements every byte. -/
theorem negateTwosComplementLe_go_true (l : List UInt8) :
    negateTwosComplementLe.go true l = l.map (· ^^^ 0xFF) := by
  induction l with
  | nil => rfl
  | cons i rest ih => simp [negateTwosComplementLe.go, ih]

theorem negateTwosComplementLe_go_false_cons_zero (rest : List UInt8) :
    negateTwosComplementLe.go false (0 :: rest) = 0 :: negateTwosComplementLe.go false rest := by
  simp [negateTwosComplementLe.go]

theorem negateTwosComplementLe_go_false_cons_ne_zero (i : UInt8) (rest : List UInt8) (hi : i ≠ 0) :
    negateTwosComplementLe.go false (i :: rest) =
      (if i = 0x80 then i else i ^^^ ((0xFF : UInt8) <<< UInt8.ofNat (trailingZeros i + 1))) ::
        negateTwosComplementLe.go true rest := by
  have hpos : 0 < i := UInt8.pos_iff_ne_zero.mpr hi
  simp only [negateTwosComplementLe.go, Bool.false_eq_true, ↓reduceIte, gt_iff_lt, hpos]
  split_ifs <;> rfl

theorem negateTwosComplementLe_go_false_zero (l : List UInt8) (h : leValue l = 0) :
    leValue (negateTwosComplementLe.go false l) = 0 := by
  induction l with
  | nil => rfl
  | cons i rest ih =>
    have hi : i = 0 := UInt8.toNat_inj.mp (by simp at h ⊢; omega)
    subst hi
    have hr : leValue rest = 0 := by simp at h; omega
    simp [negateTwosComplementLe_go_false_cons_zero, ih hr]

theorem negateTwosComplementLe_go_false_pos (l : List UInt8) (h : 0 < leValue l) :
    leValue (negateTwosComplementLe.go false l) = 256 ^ l.length - leValue l := by
  induction l with
  | nil => simp at h
  | cons i rest ih =>
    have hlt := leValue_lt rest
    by_cases hi : i = 0
    · -- a zero byte is kept, and the string above it is negated
      subst hi
      have hr : 0 < leValue rest := by simp at h; omega
      rw [negateTwosComplementLe_go_false_cons_zero, leValue_cons, leValue_cons, ih hr,
        List.length_cons, pow_succ, Nat.mul_sub]
      simp only [UInt8.toNat_zero, Nat.zero_add]
      ring_nf
    · -- the first one: negate this byte, complement the rest
      have hb : i.toNat < 256 := i.toNat_lt
      rw [negateTwosComplementLe_go_false_cons_ne_zero i rest hi, leValue_cons, leValue_cons,
        negate_first_one i hi, negateTwosComplementLe_go_true, leValue_complement,
        List.length_cons, pow_succ]
      have : 256 * (256 ^ rest.length - 1 - leValue rest) =
          256 * 256 ^ rest.length - 256 - 256 * leValue rest := by
        rw [Nat.mul_sub, Nat.mul_sub, Nat.mul_one]
      omega

/-- `negate_twos_complement_le` maps the little-endian encoding of `x` to that of
`-x mod 256 ^ k`, for every byte length `k`. -/
theorem negateTwosComplementLe_value (l : List UInt8) :
    leValue (negateTwosComplementLe l) = (256 ^ l.length - leValue l) % 256 ^ l.length := by
  have hlt := leValue_lt l
  rcases Nat.eq_zero_or_pos (leValue l) with h | h
  · rw [negateTwosComplementLe, negateTwosComplementLe_go_false_zero l h, h, Nat.sub_zero,
      Nat.mod_self]
  · rw [negateTwosComplementLe, negateTwosComplementLe_go_false_pos l h,
      Nat.mod_eq_of_lt (by omega)]

theorem negateTwosComplementLe_length (l : List UInt8) :
    (negateTwosComplementLe l).length = l.length := by
  suffices ∀ s, (negateTwosComplementLe.go s l).length = l.length from this false
  induction l with
  | nil => intro s; rfl
  | cons i rest ih => intro s; unfold negateTwosComplementLe.go; split_ifs <;> simp [ih]

/-! ## Decoding -/

section Decode

variable (round : Context → Dec → Dec × Status)

/-- An operation of a `Context`: the exact result rounded, with the flags it raises added to the
context's status. -/
def roundIn (cx : Context) (st : Status) (d : Dec) : Dec × Status :=
  ((round cx d).1, st.merge (round cx d).2)

/-- `twos_complement_be_to_u128`: the big-endian bytes as an unsigned integer. Its assertion
`input.len() <= 16` holds at both call sites, which pass fewer than 16 bytes or one chunk. -/
def twosComplementBeToU128 (input : List UInt8) : Nat := beValue input

/-- One iteration of the chunk loop of `twos_complement_be_to_numeric_inner`: `d << 128`, then
`d + i` for the chunk's integer `i`, each through the context. -/
def accumulateChunk (cx : Context) (acc : Dec × Status) (c : List UInt8) : Dec × Status :=
  let shifted := roundIn round cx acc.2 (acc.1.mulExact u128Splitter)
  let i := roundIn round cx shifted.2 (Dec.ofNat (twosComplementBeToU128 c))
  roundIn round cx i.2 (shifted.1.addExact i.1)

/-- The digit-reading loop of `twos_complement_be_to_numeric_inner`: the leading
`input.len() % 16` bytes as one integer, then every 16-byte chunk shifted in. -/
def readDigits (cx : Context) (input : List UInt8) : Dec × Status :=
  let head := input.length % 16
  (chunks 16 (input.drop head)).foldl (accumulateChunk round cx)
    (roundIn round cx .clear (Dec.ofNat (twosComplementBeToU128 (input.take head))))

/-- The buffer after the in-place negation `negate_twos_complement_le(input.iter_mut().rev())`. -/
def negateBe (input : List UInt8) : List UInt8 := (negateTwosComplementLe input.reverse).reverse

/-- `twos_complement_be_to_numeric_inner::<D, N>` at `N = width`: the decoded integer, and the
buffer as the call leaves it. A negative input is negated in place before the digits are read,
and stays negated whatever the outcome. -/
def twosComplementBeToNumericInner (width : Nat) (input : List UInt8) :
    Except String Dec × List UInt8 :=
  if input.isEmpty then (.error "cannot parse a numeric value from an empty byte string", input)
  else
    let isNeg := signBit input
    let input := if isNeg then negateBe input else input
    let cx := context width
    let acc := readDigits round cx input
    if acc.2.inexact then (.error "Value exceeds maximum numeric value", input)
    else if acc.2.any then (.error "unexpected status", input)
    else (.ok (if isNeg then (roundIn round cx acc.2 acc.1.negate).1 else acc.1), input)

/-- `twos_complement_be_to_numeric`: the narrow attempt for inputs of at most 17 bytes, then the
wide attempt on the buffer the narrow one left, rounded to `CX_DATUM`. -/
def twosComplementBeToNumeric (input : List UInt8) (scale : UInt8) : Except String Dec × List UInt8 :=
  let attempt :=
    if input.length ≤ 17 then some (twosComplementBeToNumericInner round numericDatumWidth input)
    else none
  match attempt with
  | some (.ok n, input) => (.ok (n.setExponent (-(scale.toNat : Int))), input)
  | _ =>
    let input := (attempt.map Prod.snd).getD input
    match twosComplementBeToNumericInner round numericAggWidth input with
    | (.error e, input) => (.error e, input)
    | (.ok n, input) =>
      let d := round cxDatum (n.setExponent (-(scale.toNat : Int)))
      if d.2.inexact then (.error "Value exceeds maximum numeric value", input) else (.ok d.1, input)

end Decode

/-! ## The inner decode is exact -/

section Laws

variable {round : Context → Dec → Dec × Status} (hR : RoundingLaws round)

@[simp] theorem roundIn_fst {cx : Context} {st : Status} {d : Dec} :
    (roundIn round cx st d).1 = (round cx d).1 := rfl

theorem roundIn_clear {cx : Context} {st : Status} {d : Dec} :
    (roundIn round cx st d).2 = .clear ↔ st = .clear ∧ (round cx d).2 = .clear := by
  obtain ⟨a, b, c⟩ := st
  cases h : (round cx d).2
  simp [roundIn, h, Status.merge, Status.clear, and_assoc, and_left_comm]

include hR in
/-- A rounding that raised no flag kept the value and the exponent, and had nothing to drop. -/
theorem round_of_clear {cx : Context} {d : Dec} (h : (round cx d).2 = .clear) :
    (round cx d).1.value = d.value ∧ (round cx d).1.exponent = d.exponent ∧
      numDigits d.coefficient ≤ cx.precision := by
  refine ⟨hR.value_eq cx d (by rw [h]; rfl), hR.exponent_eq cx d h, ?_⟩
  by_contra hlt
  have := hR.rounded cx d (by omega)
  rw [h] at this
  cases this

/-- What a clear status says of the chunk loop's state: the decimal holds the integer `a` read so
far, at exponent zero, within the precision. -/
def ReadExactly (cx : Context) (acc : Dec × Status) (a : Nat) : Prop :=
  acc.2 = .clear → acc.1.value = a ∧ acc.1.exponent = 0 ∧ numDigits a ≤ cx.precision

/-- The integer the chunk loop reads: one chunk shifts in 128 bits. -/
def shiftIn (a : Nat) (c : List UInt8) : Nat := a * 256 ^ 16 + beValue c

include hR in
theorem readExactly_start (cx : Context) (n : Nat) :
    ReadExactly cx (roundIn round cx .clear (Dec.ofNat n)) n := by
  intro h
  obtain ⟨hv, he, hd⟩ := round_of_clear hR (roundIn_clear.mp h).2
  exact ⟨by simpa using hv, by simpa using he, by simpa using hd⟩

include hR in
/-- The step lemma of the chunk loop. -/
theorem accumulateChunk_readExactly {cx : Context} {acc : Dec × Status} {a : Nat}
    (c : List UInt8) (h : ReadExactly cx acc a) :
    ReadExactly cx (accumulateChunk round cx acc c) (shiftIn a c) := by
  intro hclear
  simp only [accumulateChunk, roundIn_fst] at hclear ⊢
  -- a clear status after the addition means every earlier step was clear too
  obtain ⟨h2, h3⟩ := roundIn_clear.mp hclear
  obtain ⟨h1, h2'⟩ := roundIn_clear.mp h2
  obtain ⟨h0, h1'⟩ := roundIn_clear.mp h1
  obtain ⟨hav, hae, -⟩ := h h0
  obtain ⟨v1, e1, -⟩ := round_of_clear hR h1'
  obtain ⟨v2, e2, -⟩ := round_of_clear hR h2'
  obtain ⟨v3, e3, d3⟩ := round_of_clear hR h3
  have hsum : (((round cx (acc.1.mulExact u128Splitter)).1).addExact
      (round cx (Dec.ofNat (twosComplementBeToU128 c))).1).value = (shiftIn a c : ℚ) := by
    rw [Dec.value_addExact, v1, v2, Dec.value_mulExact, hav]
    simp [u128Splitter, twosComplementBeToU128, shiftIn]
  have hexp : (((round cx (acc.1.mulExact u128Splitter)).1).addExact
      (round cx (Dec.ofNat (twosComplementBeToU128 c))).1).exponent = 0 := by
    rw [Dec.addExact_exponent, e1, e2, Dec.mulExact_exponent, hae]
    rfl
  refine ⟨by rw [v3, hsum], by rw [e3, hexp], ?_⟩
  rwa [Dec.coefficient_eq_of_value _ hexp _ hsum] at d3

include hR in
/-- The run lemma of the chunk loop. -/
theorem foldl_accumulateChunk_readExactly {cx : Context} (cs : List (List UInt8))
    {acc : Dec × Status} {a : Nat} (h : ReadExactly cx acc a) :
    ReadExactly cx (cs.foldl (accumulateChunk round cx) acc) (cs.foldl shiftIn a) := by
  induction cs generalizing acc a with
  | nil => exact h
  | cons c cs ih => exact ih (accumulateChunk_readExactly hR c h)

/-- The head and the chunks of the buffer read back as the whole buffer. -/
theorem foldl_shiftIn_chunks (l : List UInt8) :
    (chunks 16 (l.drop (l.length % 16))).foldl shiftIn (beValue (l.take (l.length % 16))) =
      beValue l := by
  have hdvd : 16 ∣ (l.drop (l.length % 16)).length := by
    rw [List.length_drop]
    exact Nat.dvd_sub_mod l.length
  rw [show shiftIn = fun a c => a * 256 ^ 16 + beValue c from rfl,
    beValue_foldl_chunks 16 _ _ hdvd, ← beValue_append, List.take_append_drop]

theorem twosComplementBeToNumericInner_buffer (width : Nat) (input : List UInt8)
    (hne : input ≠ []) :
    (twosComplementBeToNumericInner round width input).2 =
      if signBit input then negateBe input else input := by
  simp only [twosComplementBeToNumericInner, List.isEmpty_iff, hne, ↓reduceIte]
  split_ifs <;> rfl

theorem beValue_negateBe (l : List UInt8) :
    beValue (negateBe l) = (256 ^ l.length - beValue l) % 256 ^ l.length := by
  simp only [beValue, negateBe, List.reverse_reverse, negateTwosComplementLe_value,
    List.length_reverse]

/-- The buffer the digits are read from holds the magnitude of the input. -/
theorem beValue_readBuffer (input : List UInt8) (hne : input ≠ []) :
    beValue (if signBit input then negateBe input else input) = (beSigned input).natAbs := by
  cases input with
  | nil => exact absurd rfl hne
  | cons b bs =>
    have hlt := beValue_lt (b :: bs)
    by_cases hs : signBit (b :: bs) = true
    · -- a negative input: the buffer is negated into its magnitude
      have hle := (signBit_iff_le b bs).mp hs
      have hpos : 0 < 256 ^ bs.length := pow_pos (by norm_num) _
      have hk : (b :: bs).length = bs.length + 1 := rfl
      have hsigned : beSigned (b :: bs) = -((256 ^ (b :: bs).length - beValue (b :: bs) : Nat) : Int) := by
        rw [beSigned, if_pos hs, Nat.cast_sub hlt.le]
        push_cast
        ring
      rw [if_pos hs, beValue_negateBe, Nat.mod_eq_of_lt (by rw [hk, pow_succ] at hlt ⊢; omega),
        hsigned, Int.natAbs_neg, Int.natAbs_natCast]
    · rw [if_neg hs, beSigned, if_neg hs, Int.natAbs_natCast]

include hR in
theorem readDigits_readExactly (cx : Context) (buf : List UInt8) :
    ReadExactly cx (readDigits round cx buf) (beValue buf) := by
  have := foldl_accumulateChunk_readExactly hR (chunks 16 (buf.drop (buf.length % 16)))
    (readExactly_start hR cx (twosComplementBeToU128 (buf.take (buf.length % 16))))
  rwa [twosComplementBeToU128, foldl_shiftIn_chunks] at this

/-- What a successful inner decode did: the input was not empty, the digits were read without a
flag, and a negative input's magnitude was negated. -/
theorem twosComplementBeToNumericInner_ok {width : Nat} {input : List UInt8} {d : Dec}
    {buf : List UInt8} (h : twosComplementBeToNumericInner round width input = (.ok d, buf)) :
    input ≠ [] ∧
      (readDigits round (context width) (if signBit input then negateBe input else input)).2 = .clear ∧
      d = if signBit input
        then (round (context width)
          (readDigits round (context width) (if signBit input then negateBe input else input)).1.negate).1
        else (readDigits round (context width) (if signBit input then negateBe input else input)).1 := by
  unfold twosComplementBeToNumericInner at h
  by_cases hne : input = []
  · subst hne
    simp at h
  refine ⟨hne, ?_⟩
  simp only [List.isEmpty_iff, hne, ↓reduceIte] at h
  generalize readDigits round (context width) (if signBit input then negateBe input else input) = acc
    at h ⊢
  -- the two status checks, in the order the source makes them
  by_cases hi : acc.2.inexact = true
  · rw [if_pos hi] at h
    cases h
  rw [if_neg hi] at h
  by_cases ha : acc.2.any = true
  · rw [if_pos ha] at h
    cases h
  rw [if_neg ha] at h
  refine ⟨Status.any_eq_false.mp (by simpa using ha), ?_⟩
  simp only [Prod.mk.injEq, Except.ok.injEq] at h
  rw [← h.1]
  split_ifs <;> rfl

/-- Every coefficient with at most `3 * width` digits at exponent zero lies in the range of
`D::context()`. -/
theorem context_inRange {width : Nat} (hw : 3 * width ≤ 999999999) {d : Dec} (he : d.exponent = 0)
    (h : numDigits d.coefficient ≤ 3 * width) : (context width).InRange d := by
  have := numDigits_pos d.coefficient
  simp only [Context.InRange, Dec.adjusted, context, he]
  omega

include hR in
/-- A successful inner decode is exact: it returns the integer the input denotes, at exponent
zero. -/
theorem twosComplementBeToNumericInner_value {width : Nat} (hw : 3 * width ≤ 999999999)
    {input : List UInt8} {d : Dec} {buf : List UInt8}
    (h : twosComplementBeToNumericInner round width input = (.ok d, buf)) :
    d.value = beSigned input ∧ d.exponent = 0 := by
  obtain ⟨hne, hclear, rfl⟩ := twosComplementBeToNumericInner_ok h
  have hmag := beValue_readBuffer input hne
  obtain ⟨hv, he, hd⟩ := readDigits_readExactly hR (context width)
    (if signBit input then negateBe input else input) hclear
  rw [hmag] at hv hd
  by_cases hs : signBit input = true
  · -- the magnitude is negated back, exactly, since it fits
    simp only [hs, ↓reduceIte] at hv he hd ⊢
    have hc := Dec.coefficient_eq_of_value _ he _ hv
    have hfit : numDigits (readDigits round (context width) (negateBe input)).1.negate.coefficient ≤
        (context width).precision := by
      rw [Dec.negate_coefficient, hc]; exact hd
    rw [hR.exact _ _ hfit (context_inRange hw he (by rw [Dec.negate_coefficient, hc]; exact hd))]
    refine ⟨?_, he⟩
    rw [Dec.value_negate, hv]
    have hneg : beSigned input < 0 := by
      cases input with
      | nil => exact absurd rfl hne
      | cons b bs =>
        have hlt : (beValue (b :: bs) : Int) < 256 ^ (b :: bs).length := by
          exact_mod_cast beValue_lt (b :: bs)
        rw [beSigned, if_pos hs]
        omega
    rw [Nat.cast_natAbs, Int.cast_abs, abs_of_neg (by exact_mod_cast hneg), neg_neg]
  · simp only [hs, Bool.false_eq_true, ↓reduceIte] at hv he ⊢
    refine ⟨?_, he⟩
    rw [hv]
    have hnn : 0 ≤ beSigned input := by
      rw [beSigned, if_neg hs]
      exact Int.natCast_nonneg _
    rw [Nat.cast_natAbs, Int.cast_abs, abs_of_nonneg (by exact_mod_cast hnn)]

include hR in
/-- An input whose magnitude has more digits than the width holds fails to decode. -/
theorem twosComplementBeToNumericInner_error_of_digits {width : Nat} {input : List UInt8}
    (hdig : 3 * width < numDigits (beSigned input).natAbs) (d : Dec) (buf : List UInt8) :
    twosComplementBeToNumericInner round width input ≠ (.ok d, buf) := by
  intro h
  obtain ⟨hne, hclear, -⟩ := twosComplementBeToNumericInner_ok h
  obtain ⟨-, -, hd⟩ := readDigits_readExactly hR (context width)
    (if signBit input then negateBe input else input) hclear
  rw [beValue_readBuffer input hne] at hd
  exact absurd hd (by simp only [context]; omega)

/-! ## The inner decode succeeds on what fits -/

theorem le_foldl_shiftIn (cs : List (List UInt8)) (a : Nat) : a ≤ cs.foldl shiftIn a := by
  induction cs generalizing a with
  | nil => exact le_rfl
  | cons c cs ih =>
    have : a ≤ shiftIn a c :=
      (Nat.le_mul_of_pos_right a (pow_pos (by norm_num) 16)).trans (Nat.le_add_right _ _)
    exact this.trans (ih _)

include hR in
theorem roundIn_exact {cx : Context} (hrange : ∀ n, numDigits n ≤ cx.precision → cx.InRange (Dec.ofNat n))
    {n : Nat} (h : numDigits n ≤ cx.precision) :
    roundIn round cx .clear (Dec.ofNat n) = (Dec.ofNat n, .clear) := by
  simp only [roundIn, hR.exact cx (Dec.ofNat n) (by simpa using h) (hrange n h), Status.merge_clear]

include hR in
/-- The step lemma of the chunk loop when every value fits: each operation is exact. -/
theorem accumulateChunk_exact {cx : Context}
    (hrange : ∀ n, numDigits n ≤ cx.precision → cx.InRange (Dec.ofNat n)) (a : Nat)
    (c : List UInt8) (hfit : numDigits (shiftIn a c) ≤ cx.precision) :
    accumulateChunk round cx (Dec.ofNat a, .clear) c = (Dec.ofNat (shiftIn a c), .clear) := by
  have h256 : (256 : Nat) ^ 16 = 2 ^ 128 := by norm_num
  have hshift : a * 2 ^ 128 ≤ shiftIn a c := by unfold shiftIn; rw [h256]; omega
  have hchunk : beValue c ≤ shiftIn a c := by unfold shiftIn; omega
  simp only [accumulateChunk, u128Splitter, Dec.mulExact_ofNat]
  rw [roundIn_exact hR hrange ((numDigits_mono hshift).trans hfit), twosComplementBeToU128,
    roundIn_exact hR hrange ((numDigits_mono hchunk).trans hfit), Dec.addExact_ofNat]
  rw [show a * 2 ^ 128 + beValue c = shiftIn a c by unfold shiftIn; rw [h256]]
  exact roundIn_exact hR hrange hfit

include hR in
/-- The run lemma of the chunk loop when the whole integer fits. -/
theorem foldl_accumulateChunk_exact {cx : Context}
    (hrange : ∀ n, numDigits n ≤ cx.precision → cx.InRange (Dec.ofNat n))
    (cs : List (List UInt8)) (a : Nat) (hfit : numDigits (cs.foldl shiftIn a) ≤ cx.precision) :
    cs.foldl (accumulateChunk round cx) (Dec.ofNat a, .clear) =
      (Dec.ofNat (cs.foldl shiftIn a), .clear) := by
  induction cs generalizing a with
  | nil => rfl
  | cons c cs ih =>
    have hle := le_foldl_shiftIn cs (shiftIn a c)
    rw [List.foldl_cons, accumulateChunk_exact hR hrange a c ((numDigits_mono hle).trans hfit)]
    exact ih _ hfit

include hR in
theorem readDigits_exact {cx : Context}
    (hrange : ∀ n, numDigits n ≤ cx.precision → cx.InRange (Dec.ofNat n)) (buf : List UInt8)
    (hfit : numDigits (beValue buf) ≤ cx.precision) :
    readDigits round cx buf = (Dec.ofNat (beValue buf), .clear) := by
  have htotal := foldl_shiftIn_chunks buf
  have hhead := le_foldl_shiftIn (chunks 16 (buf.drop (buf.length % 16)))
    (beValue (buf.take (buf.length % 16)))
  rw [htotal] at hhead
  simp only [readDigits, twosComplementBeToU128]
  rw [roundIn_exact hR hrange ((numDigits_mono hhead).trans hfit),
    foldl_accumulateChunk_exact hR hrange _ _ (by rwa [htotal]), htotal]

include hR in
/-- A non-negative input whose digits fit the width decodes exactly and leaves the buffer
alone. -/
theorem twosComplementBeToNumericInner_fits {width : Nat} (hw : 3 * width ≤ 999999999)
    (input : List UInt8) (hne : input ≠ []) (hs : signBit input = false)
    (hfit : numDigits (beValue input) ≤ 3 * width) :
    twosComplementBeToNumericInner round width input = (.ok (Dec.ofNat (beValue input)), input) := by
  have hrange : ∀ n, numDigits n ≤ (context width).precision → (context width).InRange (Dec.ofNat n) :=
    fun n h => context_inRange hw rfl h
  unfold twosComplementBeToNumericInner
  simp only [List.isEmpty_iff, hne, ↓reduceIte, hs, Bool.false_eq_true]
  rw [readDigits_exact hR hrange input hfit]
  rfl

/-! ## The fallback reads the negated buffer -/

/-- When the narrow attempt runs and fails, the result is the wide attempt's on the buffer the
narrow attempt left. -/
theorem twosComplementBeToNumeric_of_narrow_error (input : List UInt8) (scale : UInt8)
    (hlen : input.length ≤ 17) (e : String) (buf : List UInt8)
    (h : twosComplementBeToNumericInner round numericDatumWidth input = (.error e, buf)) :
    twosComplementBeToNumeric round input scale =
      match twosComplementBeToNumericInner round numericAggWidth buf with
      | (.error e, input) => (.error e, input)
      | (.ok n, input) =>
        let d := round cxDatum (n.setExponent (-(scale.toNat : Int)))
        if d.2.inexact then (.error "Value exceeds maximum numeric value", input)
        else (.ok d.1, input) := by
  simp only [twosComplementBeToNumeric, hlen, ↓reduceIte, h, Option.map_some, Option.getD_some]

include hR in
/-- A negative input of at most 17 bytes whose magnitude has more than 39 digits, other than the
most negative one, decodes to the opposite sign whenever it decodes: the narrow attempt negates
the buffer and fails, and the wide attempt reads the negated buffer as a positive integer. -/
theorem twosComplementBeToNumeric_opposite_sign (b : List UInt8) (scale : UInt8)
    (hlen : b.length ≤ 17) (hneg : beSigned b < 0)
    (hmin : -beSigned b < 128 * 256 ^ (b.length - 1))
    (hdig : 39 < numDigits (beSigned b).natAbs) (v : Dec)
    (hv : (twosComplementBeToNumeric round b scale).1 = .ok v) :
    v.value = -((beSigned b : ℚ) * 10 ^ (-(scale.toNat : Int))) := by
  have hne : b ≠ [] := by rintro rfl; simp [beSigned, signBit] at hneg
  have hsb : signBit b = true := by
    by_contra hs
    rw [beSigned, if_neg hs] at hneg
    omega
  -- the narrow attempt fails, leaving the negated buffer behind
  have hbuf : (twosComplementBeToNumericInner round numericDatumWidth b).2 = _ :=
    twosComplementBeToNumericInner_buffer numericDatumWidth b hne
  rw [if_pos hsb] at hbuf
  obtain ⟨e, he⟩ : ∃ e, twosComplementBeToNumericInner round numericDatumWidth b =
      (.error e, negateBe b) := by
    rcases hr : twosComplementBeToNumericInner round numericDatumWidth b with ⟨r, buf⟩
    rw [hr] at hbuf
    subst hbuf
    cases r with
    | error e => exact ⟨e, rfl⟩
    | ok d => exact absurd hr (twosComplementBeToNumericInner_error_of_digits hR hdig d _)
  rw [twosComplementBeToNumeric_of_narrow_error b scale hlen e _ he] at hv
  -- the negated buffer holds the magnitude, with a clear sign bit
  have hmag : beValue (negateBe b) = (beSigned b).natAbs := by
    simpa [hsb] using beValue_readBuffer b hne
  have habs : ((beSigned b).natAbs : Int) = -beSigned b := by
    rw [Int.natCast_natAbs, abs_of_neg hneg]
  have hsb' : signBit (negateBe b) = false := by
    have hlen' : (negateBe b).length = b.length := by
      simp [negateBe, negateTwosComplementLe_length]
    cases hnb : negateBe b with
    | nil => rfl
    | cons c cs =>
      rw [hnb] at hlen' hmag
      by_contra hs
      have hle := (signBit_iff_le c cs).mp (by simpa using hs)
      simp only [List.length_cons] at hlen'
      rw [hmag] at hle
      rw [← hlen', Nat.add_sub_cancel] at hmin
      have hle' : (128 * 256 ^ cs.length : Int) ≤ ((beSigned b).natAbs : Int) := by
        exact_mod_cast hle
      omega
  rcases hw : twosComplementBeToNumericInner round numericAggWidth (negateBe b) with ⟨r, buf⟩
  rw [hw] at hv
  cases r with
  | error e' => cases hv
  | ok n =>
    simp only at hv
    split_ifs at hv with hi
    cases hv
    obtain ⟨hnv, hne0⟩ := twosComplementBeToNumericInner_value hR (by decide) hw
    have hI : beSigned (negateBe b) = -beSigned b := by
      rw [beSigned, if_neg (by simp [hsb']), hmag, habs]
    rw [hR.value_eq _ _ (by simpa using hi), Dec.value_setExponent _ hne0, hnv, hI]
    push_cast
    ring

include hR in
/-- The 17-byte two's-complement encoding of `-10 ^ 40` with scale 39 denotes `-10`, and the
decoder returns `Ok(10)`: the narrow attempt negates the buffer and fails on 41 digits, and the
wide attempt reads `10 ^ 40` from the negated buffer, which `CX_DATUM` holds exactly. -/
theorem twosComplementBeToNumeric_negative_wide :
    ∃ v, (twosComplementBeToNumeric round
        [0xe2, 0x9c, 0xd6, 0x0e, 0x3c, 0xa3, 0x5b, 0x40, 0x54, 0x46, 0x0a, 0x9f, 0, 0, 0, 0, 0] 39).1 =
        .ok v ∧ v.value = 10 ∧
      (beSigned [0xe2, 0x9c, 0xd6, 0x0e, 0x3c, 0xa3, 0x5b, 0x40, 0x54, 0x46, 0x0a, 0x9f, 0, 0, 0, 0, 0] : ℚ) *
        10 ^ (-39 : Int) = -10 := by
  set b : List UInt8 := [0xe2, 0x9c, 0xd6, 0x0e, 0x3c, 0xa3, 0x5b, 0x40, 0x54, 0x46, 0x0a, 0x9f, 0, 0, 0, 0, 0]
  have hI : beSigned b = -(10 ^ 40) := by decide
  have hnb : negateBe b = [0x1d, 0x63, 0x29, 0xf1, 0xc3, 0x5c, 0xa4, 0xbf, 0xab, 0xb9, 0xf5, 0x61, 0, 0, 0, 0, 0] := by
    decide
  have hdig : numDigits (10 ^ 40) = 41 := numDigits_pow 40
  have habs : (beSigned b).natAbs = 10 ^ 40 := by rw [hI]; rfl
  have h39 : ((39 : UInt8).toNat : Int) = 39 := rfl
  -- the narrow attempt fails on 41 digits, after negating the buffer
  obtain ⟨e, he⟩ : ∃ e, twosComplementBeToNumericInner round numericDatumWidth b =
      (.error e, negateBe b) := by
    have hbuf : (twosComplementBeToNumericInner round numericDatumWidth b).2 = _ :=
      twosComplementBeToNumericInner_buffer numericDatumWidth b (by simp [b])
    rw [if_pos (by decide)] at hbuf
    rcases hr : twosComplementBeToNumericInner round numericDatumWidth b with ⟨r, buf⟩
    rw [hr] at hbuf
    subst hbuf
    cases r with
    | error e => exact ⟨e, rfl⟩
    | ok d =>
      refine absurd hr (twosComplementBeToNumericInner_error_of_digits hR ?_ d _)
      rw [habs, hdig]
      decide
  -- the wide attempt reads the magnitude exactly
  have hwide := twosComplementBeToNumericInner_fits hR (by decide : 3 * numericAggWidth ≤ 999999999)
    (negateBe b) (by rw [hnb]; simp) (by rw [hnb]; decide)
    (by rw [show beValue (negateBe b) = 10 ^ 40 by rw [hnb]; decide, hdig]; decide)
  have hval : beValue (negateBe b) = 10 ^ 40 := by rw [hnb]; decide
  rw [hval] at hwide
  -- `CX_DATUM` holds `10 ^ 40 · 10 ^ -39` exactly
  have hexact : (round cxDatum ((Dec.ofNat (10 ^ 40)).setExponent (-((39 : UInt8).toNat : Int)))).2.inexact = false :=
    hR.not_inexact _ _ 1 40 (by simp) (by simp [numDigits, cxDatum])
      (by
        simp only [Context.InRange, Dec.adjusted, cxDatum, Dec.setExponent_exponent,
          Dec.setExponent_coefficient, Dec.ofNat_coefficient, hdig, h39]
        decide)
  refine ⟨(round cxDatum ((Dec.ofNat (10 ^ 40)).setExponent (-((39 : UInt8).toNat : Int)))).1, ?_, ?_, ?_⟩
  · rw [twosComplementBeToNumeric_of_narrow_error b 39 (by simp [b]) e _ he, hwide]
    simp only [hexact, Bool.false_eq_true, ↓reduceIte]
  · rw [hR.value_eq _ _ hexact, Dec.value_setExponent _ rfl, Dec.value_ofNat, h39]
    norm_num
  · rw [hI]
    norm_num

end Laws

/-- The failing input under the truncating rounding `Decimal.roundDown`. -/
theorem twosComplementBeToNumeric_negative_wide_roundDown :
    ∃ v, (twosComplementBeToNumeric roundDown
        [0xe2, 0x9c, 0xd6, 0x0e, 0x3c, 0xa3, 0x5b, 0x40, 0x54, 0x46, 0x0a, 0x9f, 0, 0, 0, 0, 0] 39).1 =
        .ok v ∧ v.value = 10 ∧
      (beSigned [0xe2, 0x9c, 0xd6, 0x0e, 0x3c, 0xa3, 0x5b, 0x40, 0x54, 0x46, 0x0a, 0x9f, 0, 0, 0, 0, 0] : ℚ) *
        10 ^ (-39 : Int) = -10 :=
  twosComplementBeToNumeric_negative_wide roundDown_lawful

end Materialize.Numeric
