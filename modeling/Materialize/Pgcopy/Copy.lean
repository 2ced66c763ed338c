import Mathlib

/-!
# The text format of COPY

`src/pgcopy/src/copy.rs` writes and reads the text format of PostgreSQL's COPY: rows of fields
separated by a delimiter byte and ended by a newline, a NULL written as the null string, and a
text's backslash, newline, carriage return and tab escaped with a backslash. The reader,
`CopyTextFormatParser`, decodes the escapes PostgreSQL writes (`\b \f \n \r \t \v`, octal and
hexadecimal digits) and stops at the end-of-copy marker `\.`.

The model keeps the writer of a row of text fields (`encodeCopyRowText`), the parser's reading of
one raw value (`consumeRawValue`) with its null-string test, escapes and stops, and
`decode_copy_format_text` over text columns, each field checked as UTF-8 without NUL as
`Value::decode_text` does. A text is its UTF-8 bytes, and the parser's data and position are the
data from the position on.

The writer escapes neither the delimiter nor a text that starts with the null string, and the
parser takes the null string as a prefix of the field, where PostgreSQL compares the whole raw
field with it. So a text holding the delimiter, or starting with the null string, does not read
back (`copy_text_round_trip_fails`). Where neither happens, and the null string can neither run
into the next field nor start the marker, every list of rows reads back as itself
(`decodeCopyFormatText_encodeCopyText`).
-/

namespace Materialize.Pgcopy

/-- `END_OF_COPY_MARKER`: a backslash and a dot. -/
def END_OF_COPY_MARKER : List UInt8 := [92, 46]

/-- `CopyTextFormatParams`: the null string, as its bytes, and the delimiter. -/
structure CopyTextFormatParams where
  null : List UInt8
  delimiter : UInt8

/-- A row of text columns: a NULL is `none`, a text its UTF-8 bytes. -/
abbrev TextRow := List (Option (List UInt8))

/-! ## Writing -/

/-- How `encode_copy_row_text` writes one byte of a text. -/
def escapeByte : UInt8 → List UInt8
  | 92 => [92, 92]
  | 10 => [92, 110]
  | 13 => [92, 114]
  | 9 => [92, 116]
  | b => [b]

/-- One field: the null string, or the bytes of the text escaped. -/
def encodeField (null : List UInt8) : Option (List UInt8) → List UInt8
  | none => null
  | some text => text.flatMap escapeByte

/-- `encode_copy_row_text` on a row of text fields: each field after a delimiter but the first,
then a newline. -/
def encodeCopyRowText (params : CopyTextFormatParams) (row : TextRow) : List UInt8 :=
  (row.mapIdx fun idx field =>
    (if idx > 0 then [params.delimiter] else []) ++ encodeField params.null field).flatten ++ [10]

/-- Rows written one after another. -/
def encodeCopyText (params : CopyTextFormatParams) (rows : List TextRow) : List UInt8 :=
  rows.flatMap (encodeCopyRowText params)

/-! ## Reading -/

/-- `CopyTextFormatParser`, with its data from the position on. -/
structure CopyTextFormatParser where
  rest : List UInt8
  columnDelimiter : UInt8
  nullString : List UInt8

namespace CopyTextFormatParser

/-- `peek`. -/
def peek (p : CopyTextFormatParser) : Option UInt8 := p.rest.head?

/-- `consume_n`: at most to the end of the data. -/
def consumeN (p : CopyTextFormatParser) (n : Nat) : CopyTextFormatParser :=
  { p with rest := p.rest.drop n }

/-- `check_bytes`: the data at the position starts with `bytes`. -/
def checkBytes (p : CopyTextFormatParser) (bytes : List UInt8) : Bool := bytes.isPrefixOf p.rest

/-- `consume_bytes`. -/
def consumeBytes (p : CopyTextFormatParser) (bytes : List UInt8) : Bool × CopyTextFormatParser :=
  if p.checkBytes bytes then (true, p.consumeN bytes.length) else (false, p)

/-- `is_end_of_copy_marker`. -/
def isEndOfCopyMarker (p : CopyTextFormatParser) : Bool := p.checkBytes END_OF_COPY_MARKER

/-- `is_eof`: the end of the data or the end-of-copy marker. -/
def isEof (p : CopyTextFormatParser) : Bool := p.peek.isNone || p.isEndOfCopyMarker

/-- `is_end_of_line`: a newline or the end of the data. -/
def isEndOfLine (p : CopyTextFormatParser) : Bool :=
  match p.peek with
  | some 10 | none => true
  | _ => false

/-- `expect_end_of_line`. -/
def expectEndOfLine (p : CopyTextFormatParser) : Except String CopyTextFormatParser :=
  if p.isEndOfLine then .ok (p.consumeN 1) else .error "extra data after last expected column"

/-- `is_column_delimiter`. -/
def isColumnDelimiter (p : CopyTextFormatParser) : Bool := p.checkBytes [p.columnDelimiter]

/-- `expect_column_delimiter`. -/
def expectColumnDelimiter (p : CopyTextFormatParser) : Except String CopyTextFormatParser :=
  match p.consumeBytes [p.columnDelimiter] with
  | (true, p) => .ok p
  | (false, _) => .error "missing data for column"

/-- `consume_null_string`: an empty null string is only looked ahead for, a null string that is
not empty is consumed where the data starts with it. -/
def consumeNullString (p : CopyTextFormatParser) : Bool × CopyTextFormatParser :=
  if p.nullString.isEmpty then
    (p.isColumnDelimiter || p.isEndOfLine || p.isEndOfCopyMarker || p.isEof, p)
  else p.consumeBytes p.nullString

/-- `decode_nibble`: the value of a hexadecimal digit. -/
def decodeNibble (b : UInt8) : Option UInt8 :=
  if 97 ≤ b ∧ b ≤ 102 then some (b - 97 + 10)
  else if 65 ≤ b ∧ b ≤ 70 then some (b - 65 + 10)
  else if 48 ≤ b ∧ b ≤ 57 then some (b - 48)
  else none

/-- The value of an octal digit. -/
def octalDigit (b : UInt8) : Option UInt8 := if 48 ≤ b ∧ b ≤ 55 then some (b - 48) else none

/-- The two digit loops of `consume_raw_value`: up to `n` digits, each shifted into `value`. The
value is a `u8`, so the bits of an octal escape above `\377` are shifted out. -/
def readDigits (digit : UInt8 → Option UInt8) (shift : UInt8) :
    Nat → UInt8 → CopyTextFormatParser → UInt8 × CopyTextFormatParser
  | 0, value, p => (value, p)
  | n + 1, value, p =>
    match p.peek.bind digit with
    | some c => readDigits digit shift n ((value <<< shift) ||| c) (p.consumeN 1)
    | none => (value, p)

/-- The escape after a backslash in `consume_raw_value`: the byte it stands for, and the parser
after it. A backslash at the end of the data stands for itself. -/
def unescape (p : CopyTextFormatParser) : UInt8 × CopyTextFormatParser :=
  match p.peek with
  | some 98 => (8, p.consumeN 1)
  | some 102 => (12, p.consumeN 1)
  | some 110 => (10, p.consumeN 1)
  | some 114 => (13, p.consumeN 1)
  | some 116 => (9, p.consumeN 1)
  | some 118 => (11, p.consumeN 1)
  | some 120 =>
    match (p.consumeN 1).peek.bind decodeNibble with
    | some _ => readDigits decodeNibble 4 2 0 (p.consumeN 1)
    | none => (120, p.consumeN 1)
  | some c =>
    match octalDigit c with
    | some _ => readDigits octalDigit 3 3 0 p
    | none => (c, p.consumeN 1)
  | none => (92, p)

@[simp] theorem rest_consumeN (p : CopyTextFormatParser) (n : Nat) :
    (p.consumeN n).rest = p.rest.drop n := rfl

theorem consumeN_consumeN (p : CopyTextFormatParser) (a b : Nat) :
    (p.consumeN a).consumeN b = p.consumeN (a + b) := by
  simp [consumeN, List.drop_drop]

/-- `q` is `p` after some bytes have been consumed: the only way the parser moves. -/
def Advances (p q : CopyTextFormatParser) : Prop := ∃ n, q = p.consumeN n

theorem Advances.refl (p : CopyTextFormatParser) : Advances p p := ⟨0, by simp [consumeN]⟩

theorem Advances.trans {p q r : CopyTextFormatParser} (hpq : Advances p q) (hqr : Advances q r) :
    Advances p r := by
  obtain ⟨a, rfl⟩ := hpq
  obtain ⟨b, rfl⟩ := hqr
  exact ⟨a + b, consumeN_consumeN p a b⟩

theorem advances_consumeN (p : CopyTextFormatParser) (n : Nat) : Advances p (p.consumeN n) :=
  ⟨n, rfl⟩

theorem Advances.length_le {p q : CopyTextFormatParser} (h : Advances p q) :
    q.rest.length ≤ p.rest.length := by
  obtain ⟨n, rfl⟩ := h
  simp

theorem Advances.delimiter_eq {p q : CopyTextFormatParser} (h : Advances p q) :
    q.columnDelimiter = p.columnDelimiter := by
  obtain ⟨n, rfl⟩ := h
  rfl

theorem advances_readDigits (digit : UInt8 → Option UInt8) (shift : UInt8) (n : Nat)
    (value : UInt8) (p : CopyTextFormatParser) :
    Advances p (readDigits digit shift n value p).2 := by
  induction n generalizing value p with
  | zero => exact Advances.refl p
  | succ n ih =>
    rw [readDigits]
    split
    · exact (advances_consumeN p 1).trans (ih _ _)
    · exact Advances.refl p

theorem advances_unescape (p : CopyTextFormatParser) : Advances p p.unescape.2 := by
  have hone := advances_consumeN p 1
  unfold unescape
  split
  all_goals first
    | exact hone
    | exact Advances.refl p
    | split <;> first
        | exact hone
        | exact hone.trans (advances_readDigits _ _ _ _ _)
        | exact advances_readDigits _ _ _ _ _

theorem rest_ne_nil_of_peek {p : CopyTextFormatParser} {b : UInt8} (h : p.peek = some b) :
    p.rest ≠ [] := by
  intro hnil
  simp [peek, hnil] at h

/-- The loop of `consume_raw_value`: bytes up to the end of the data or of the line, the
end-of-copy marker or the delimiter, with escapes decoded into `buffer`. -/
def rawLoop (p : CopyTextFormatParser) (buffer : List UInt8) : List UInt8 × CopyTextFormatParser :=
  if p.isEof || p.isEndOfCopyMarker then (buffer, p)
  else if p.isEndOfLine || p.isColumnDelimiter then (buffer, p)
  else
    match h : p.peek with
    | some 92 => rawLoop (p.consumeN 1).unescape.2 (buffer ++ [(p.consumeN 1).unescape.1])
    | some b => rawLoop (p.consumeN 1) (buffer ++ [b])
    -- not reached: the data is not at its end
    | none => (buffer, p)
termination_by p.rest.length
decreasing_by
  all_goals
    have hne := rest_ne_nil_of_peek h
    have hpos : 0 < p.rest.length := List.length_pos_iff.mpr hne
  · have := (advances_unescape (p.consumeN 1)).length_le
    simp only [rest_consumeN, List.length_drop] at this
    omega
  · simp only [rest_consumeN, List.length_drop]
    omega

/-- `consume_raw_value`: `none` for the null string, the unescaped bytes otherwise. It never
fails. -/
def consumeRawValue (p : CopyTextFormatParser) : Option (List UInt8) × CopyTextFormatParser :=
  match p.consumeNullString with
  | (true, p) => (none, p)
  | (false, p) => ((p.rawLoop []).1 |> some, (p.rawLoop []).2)

theorem advances_rawLoop (p : CopyTextFormatParser) (buffer : List UInt8) :
    Advances p (p.rawLoop buffer).2 := by
  fun_induction rawLoop p buffer with
  | case1 | case2 | case5 => exact Advances.refl _
  | case3 p buffer _ _ _ ih =>
    exact ((advances_consumeN p 1).trans (advances_unescape _)).trans ih
  | case4 p buffer _ _ _ _ _ ih => exact (advances_consumeN p 1).trans ih

theorem advances_consumeBytes (p : CopyTextFormatParser) (bytes : List UInt8) :
    Advances p (p.consumeBytes bytes).2 := by
  unfold consumeBytes
  split
  · exact advances_consumeN p _
  · exact Advances.refl p

theorem advances_consumeNullString (p : CopyTextFormatParser) :
    Advances p p.consumeNullString.2 := by
  unfold consumeNullString
  split
  · exact Advances.refl p
  · exact advances_consumeBytes p _

theorem advances_consumeRawValue (p : CopyTextFormatParser) :
    Advances p p.consumeRawValue.2 := by
  have hnull := advances_consumeNullString p
  unfold consumeRawValue
  split
  all_goals
    rename_i q heq
    rw [heq] at hnull
  · exact hnull
  · exact hnull.trans (advances_rawLoop q [])

theorem advances_of_expectColumnDelimiter {p q : CopyTextFormatParser}
    (h : p.expectColumnDelimiter = .ok q) : Advances p q := by
  have hbytes := advances_consumeBytes p [p.columnDelimiter]
  unfold expectColumnDelimiter at h
  split at h
  · rename_i q' heq
    cases h
    rw [heq] at hbytes
    exact hbytes
  · cases h

/-! ### Reading an escaped text back -/

theorem isEof_or_marker_eq_false {p : CopyTextFormatParser} {b : UInt8} {l : List UInt8}
    (hp : p.rest = b :: l) (h : b = 92 → l.head? ≠ some 46) :
    (p.isEof || p.isEndOfCopyMarker) = false := by
  rcases l with _ | ⟨c, l⟩
  · simp [isEof, isEndOfCopyMarker, checkBytes, peek, hp, END_OF_COPY_MARKER, List.isPrefixOf]
  · simp only [isEof, isEndOfCopyMarker, checkBytes, peek, hp, END_OF_COPY_MARKER]
    simp only [List.head?_cons, Option.isNone_some, List.isPrefixOf, Bool.false_or, Bool.or_self,
      Bool.and_eq_false_imp, beq_iff_eq]
    intro h92 h46
    simp [← h92, ← h46] at h

/-- The loop stops at a newline or a delimiter that is not a backslash. -/
theorem rawLoop_stop {p : CopyTextFormatParser} {sep : UInt8} {l : List UInt8}
    (hp : p.rest = sep :: l) (h92 : sep ≠ 92) (hsep : sep = p.columnDelimiter ∨ sep = 10)
    (buffer : List UInt8) : p.rawLoop buffer = (buffer, p) := by
  rw [rawLoop, if_neg (by simp [isEof_or_marker_eq_false hp (absurd · h92)]), if_pos]
  rcases hsep with h | h
  · simp [isColumnDelimiter, checkBytes, hp, h]
  · simp [isEndOfLine, peek, hp, h]

/-- A byte that is neither a backslash, a newline nor the delimiter is taken as it is. -/
theorem rawLoop_plain {p : CopyTextFormatParser} {b : UInt8} {l : List UInt8}
    (hp : p.rest = b :: l) (h92 : b ≠ 92) (h10 : b ≠ 10) (hd : b ≠ p.columnDelimiter)
    (buffer : List UInt8) : p.rawLoop buffer = (p.consumeN 1).rawLoop (buffer ++ [b]) := by
  rw [rawLoop, if_neg (by simp [isEof_or_marker_eq_false hp (absurd · h92)]), if_neg]
  · split
    all_goals rename_i heq
    all_goals simp only [peek, hp, List.head?_cons, Option.some.injEq, reduceCtorEq] at heq
    · exact absurd heq h92
    · rw [heq]
  · simp [isEndOfLine, isColumnDelimiter, checkBytes, peek, hp, h10, hd.symm]

/-- A backslash that does not start the end-of-copy marker starts an escape. -/
theorem rawLoop_backslash {p : CopyTextFormatParser} {c : UInt8} {l : List UInt8}
    (hp : p.rest = 92 :: c :: l) (h46 : c ≠ 46) (hd : (92 : UInt8) ≠ p.columnDelimiter)
    (buffer : List UInt8) :
    p.rawLoop buffer =
      (p.consumeN 1).unescape.2.rawLoop (buffer ++ [(p.consumeN 1).unescape.1]) := by
  rw [rawLoop, if_neg (by simp [isEof_or_marker_eq_false hp (fun _ => by simpa using h46)]), if_neg]
  · split
    all_goals rename_i heq
    all_goals simp only [peek, hp, List.head?_cons, Option.some.injEq, reduceCtorEq] at heq
    · rfl
    · exact absurd heq.symm (by assumption)
  · simp [isEndOfLine, isColumnDelimiter, checkBytes, peek, hp, hd.symm]


/-- The five ways `encode_copy_row_text` writes a byte. -/
theorem escapeByte_cases (b : UInt8) :
    (b = 92 ∧ escapeByte b = [92, 92]) ∨ (b = 10 ∧ escapeByte b = [92, 110]) ∨
      (b = 13 ∧ escapeByte b = [92, 114]) ∨ (b = 9 ∧ escapeByte b = [92, 116]) ∨
      (b ≠ 92 ∧ b ≠ 10 ∧ b ≠ 13 ∧ b ≠ 9 ∧ escapeByte b = [b]) := by
  unfold escapeByte
  split <;> simp_all

/-- An escaped byte is read back as itself, unless it is written as the delimiter. -/
theorem rawLoop_escapeByte {p : CopyTextFormatParser} {b : UInt8} {l : List UInt8}
    (hd : (92 : UInt8) ≠ p.columnDelimiter) (hb : escapeByte b ≠ [p.columnDelimiter])
    (hp : p.rest = escapeByte b ++ l) (buffer : List UInt8) :
    p.rawLoop buffer = (p.consumeN (escapeByte b).length).rawLoop (buffer ++ [b]) := by
  -- an escape is a backslash and a letter, which `unescape` turns back into the byte
  have hescape : ∀ c, escapeByte b = [92, c] → c ≠ 46 →
      (p.consumeN 1).unescape = (b, (p.consumeN 1).consumeN 1) →
      p.rawLoop buffer = (p.consumeN (escapeByte b).length).rawLoop (buffer ++ [b]) := by
    intro c he h46 hun
    rw [he] at hp
    rw [rawLoop_backslash hp h46 hd, hun, consumeN_consumeN, he]
    rfl
  have hpeek : ∀ c, escapeByte b = [92, c] → (p.consumeN 1).peek = some c := by
    intro c he
    simp [peek, hp, he]
  rcases escapeByte_cases b with ⟨rfl, he⟩ | ⟨rfl, he⟩ | ⟨rfl, he⟩ | ⟨rfl, he⟩ |
      ⟨h92, h10, -, -, he⟩
  · exact hescape 92 he (by decide) (by simp [unescape, hpeek 92 he, octalDigit])
  · exact hescape 110 he (by decide) (by simp [unescape, hpeek 110 he])
  · exact hescape 114 he (by decide) (by simp [unescape, hpeek 114 he])
  · exact hescape 116 he (by decide) (by simp [unescape, hpeek 116 he])
  · rw [he] at hp hb ⊢
    exact rawLoop_plain hp h92 h10 (fun h => hb (h ▸ rfl)) buffer

/-- The loop reads an escaped text back, up to the newline or delimiter after it. -/
theorem rawLoop_escaped {p : CopyTextFormatParser} {text : List UInt8} {sep : UInt8}
    {l : List UInt8} (hd : (92 : UInt8) ≠ p.columnDelimiter)
    (htext : ∀ b ∈ text, escapeByte b ≠ [p.columnDelimiter])
    (hsep : sep = p.columnDelimiter ∨ sep = 10) (hp : p.rest = text.flatMap escapeByte ++ sep :: l)
    (buffer : List UInt8) :
    p.rawLoop buffer = (buffer ++ text, p.consumeN (text.flatMap escapeByte).length) := by
  induction text generalizing p buffer with
  | nil =>
    have h92 : sep ≠ 92 := by
      rcases hsep with h | h
      · exact h ▸ hd.symm
      · exact h ▸ by decide
    simpa [consumeN] using rawLoop_stop hp h92 hsep buffer
  | cons b text ih =>
    rw [List.flatMap_cons, List.append_assoc] at hp
    rw [rawLoop_escapeByte hd (htext b (by simp)) hp, ih (p := p.consumeN _) hd
      (fun b' hb' => htext b' (by simp [hb'])) hsep (by simp [hp]), consumeN_consumeN]
    simp

theorem consumeNullString_of_prefix {p : CopyTextFormatParser} {l : List UInt8}
    (hne : p.nullString ≠ []) (hp : p.rest = p.nullString ++ l) :
    p.consumeNullString = (true, p.consumeN p.nullString.length) := by
  have hcheck : p.checkBytes p.nullString = true := by
    simp [checkBytes, hp, List.isPrefixOf_iff_prefix]
  simp [consumeNullString, consumeBytes, hne, hcheck]

theorem consumeNullString_of_not_prefix {p : CopyTextFormatParser} (hne : p.nullString ≠ [])
    (hp : ¬ p.nullString <+: p.rest) : p.consumeNullString = (false, p) := by
  have hcheck : p.checkBytes p.nullString = false := by
    rw [checkBytes, Bool.eq_false_iff, ne_eq, List.isPrefixOf_iff_prefix]
    exact hp
  simp [consumeNullString, consumeBytes, hne, hcheck]

/-- A successful `expect_end_of_line` consumes the newline, or stands at the end of the data. -/
theorem expectEndOfLine_eq_ok {p q : CopyTextFormatParser} (h : p.expectEndOfLine = .ok q) :
    q.rest.length < p.rest.length ∨ q.rest = [] := by
  unfold expectEndOfLine at h
  split at h
  · cases h
    rcases hp : p.rest with _ | ⟨b, rest⟩
    · exact .inr (by simp [hp])
    · exact .inl (by simp [hp])
  · cases h

end CopyTextFormatParser

open CopyTextFormatParser

/-- `Value::decode_text` at the text type: the bytes as UTF-8 (`str::from_utf8`), with NUL
rejected. -/
def decodeText (raw : List UInt8) : Except String (List UInt8) :=
  if (ByteArray.mk raw.toArray).validateUTF8 then
    if raw.contains 0 then .error "invalid byte sequence for encoding \"UTF8\": 0x00" else .ok raw
  else .error "invalid utf-8 sequence"

/-- One field of `decode_copy_format_text`. -/
def decodeField (p : CopyTextFormatParser) :
    Except String (Option (List UInt8) × CopyTextFormatParser) :=
  match p.consumeRawValue with
  | (none, p) => .ok (none, p)
  | (some raw, p) =>
    match decodeText raw with
    | .ok text => .ok (some text, p)
    | .error err => .error ("unable to decode column: " ++ err)

/-- `expect_column_delimiter` before each field of a row but the first. -/
def delimiterBefore (p : CopyTextFormatParser) (col : Nat) : Except String CopyTextFormatParser :=
  if col > 0 then p.expectColumnDelimiter else .ok p

/-- The fields of a row from column `col` on, `n` of them. -/
def decodeFields (p : CopyTextFormatParser) (col : Nat) :
    Nat → Except String (TextRow × CopyTextFormatParser)
  | 0 => .ok ([], p)
  | n + 1 => do
    let p ← delimiterBefore p col
    let (field, p) ← decodeField p
    let (fields, p) ← decodeFields p (col + 1) n
    return (field :: fields, p)

/-- One row of `decode_copy_format_text`, of `columns` text columns, then the end of the line. -/
def decodeRow (p : CopyTextFormatParser) (columns : Nat) :
    Except String (TextRow × CopyTextFormatParser) := do
  let (row, p) ← decodeFields p 0 columns
  let p ← p.expectEndOfLine
  return (row, p)

theorem bind_eq_ok {ε α β : Type} {x : Except ε α} {f : α → Except ε β} {b : β} :
    x >>= f = .ok b ↔ ∃ a, x = .ok a ∧ f a = .ok b := by
  cases x <;> simp [bind, Except.bind]

theorem advances_of_decodeField {p q : CopyTextFormatParser} {field : Option (List UInt8)}
    (h : decodeField p = .ok (field, q)) : Advances p q := by
  have hraw := advances_consumeRawValue p
  unfold decodeField at h
  split at h
  all_goals rename_i q' heq
  · cases h
    rw [heq] at hraw
    exact hraw
  · split at h
    · cases h
      rw [heq] at hraw
      exact hraw
    · cases h

theorem advances_of_decodeFields {p q : CopyTextFormatParser} {col n : Nat} {row : TextRow}
    (h : decodeFields p col n = .ok (row, q)) : Advances p q := by
  induction n generalizing p col row with
  | zero =>
    cases h
    exact Advances.refl _
  | succ n ih =>
    -- the delimiter, the field, then the later fields, each peeled off the `do` block
    rw [decodeFields, bind_eq_ok] at h
    obtain ⟨p₁, h₁, h⟩ := h
    rw [bind_eq_ok] at h
    obtain ⟨⟨field, p₂⟩, h₂, h⟩ := h
    rw [bind_eq_ok] at h
    obtain ⟨⟨fields, p₃⟩, h₃, h⟩ := h
    cases h
    have hp₁ : Advances p p₁ := by
      unfold delimiterBefore at h₁
      split at h₁
      · exact advances_of_expectColumnDelimiter h₁
      · cases h₁
        exact Advances.refl p
    exact (hp₁.trans (advances_of_decodeField h₂)).trans (ih h₃)

/-- A row that decodes from data that is not at its end consumes some of it. -/
theorem rest_length_lt_of_decodeRow {p q : CopyTextFormatParser} {columns : Nat} {row : TextRow}
    (h : decodeRow p columns = .ok (row, q)) (hne : p.rest ≠ []) :
    q.rest.length < p.rest.length := by
  rw [decodeRow, bind_eq_ok] at h
  obtain ⟨⟨fields, q₁⟩, hfields, h⟩ := h
  rw [bind_eq_ok] at h
  obtain ⟨q₂, heol, h⟩ := h
  cases h
  have hle := (advances_of_decodeFields hfields).length_le
  have hpos : 0 < p.rest.length := List.length_pos_iff.mpr hne
  rcases expectEndOfLine_eq_ok heol with hlt | hnil
  · omega
  · simp only [hnil, List.length_nil]
    exact hpos

/-- The loop of `decode_copy_format_text`: rows until the end of the data or the end-of-copy
marker. -/
def decodeLoop (columns : Nat) (p : CopyTextFormatParser) (rows : List TextRow) :
    Except String (List TextRow) :=
  if p.isEof || p.isEndOfCopyMarker then .ok rows
  else
    match h : decodeRow p columns with
    | .error err => .error err
    | .ok (row, p') => decodeLoop columns p' (rows ++ [row])
termination_by p.rest.length
decreasing_by
  apply rest_length_lt_of_decodeRow h
  intro hnil
  simp [isEof, peek, hnil] at *

/-- `decode_copy_format_text` over `columns` text columns. Junk after the end-of-copy marker is
dropped, as PostgreSQL drops it. -/
def decodeCopyFormatText (data : List UInt8) (columns : Nat) (params : CopyTextFormatParams) :
    Except String (List TextRow) :=
  decodeLoop columns ⟨data, params.delimiter, params.null⟩ []

/-! ## Reading back what was written -/

/-- A prefix that holds neither byte after `e` is a prefix of `e ++ sep :: l` only if it is one
of `e`. -/
theorem not_prefix_append_cons {N e l : List UInt8} {sep : UInt8} (he : ¬ N <+: e)
    (hsep : sep ∉ N) : ¬ N <+: e ++ sep :: l := by
  intro h
  by_cases hlen : N.length ≤ e.length
  · exact he (List.prefix_of_prefix_length_le h (List.prefix_append e _) hlen)
  · have hlt : e.length < N.length := by omega
    have hget := h.getElem hlt
    simp only [List.getElem_append_right (Nat.le_refl _), Nat.sub_self,
      List.getElem_cons_zero] at hget
    exact hsep (hget ▸ List.getElem_mem hlt)

/-- The fields after the first, each written after a delimiter. -/
theorem encodeCopyRowText_cons (params : CopyTextFormatParams) (f : Option (List UInt8))
    (fs : TextRow) :
    encodeCopyRowText params (f :: fs) = encodeField params.null f ++
      (fs.flatMap fun f => params.delimiter :: encodeField params.null f) ++ [10] := by
  have htail : ∀ fs : TextRow,
      (fs.mapIdx fun _ f => params.delimiter :: encodeField params.null f).flatten =
        fs.flatMap fun f => params.delimiter :: encodeField params.null f := by
    intro fs
    induction fs with
    | nil => rfl
    | cons f fs ih => simp [List.mapIdx_cons, ih]
  simp [encodeCopyRowText, List.mapIdx_cons, htail]

/-- Parameters under which the text format reads back what it writes: the delimiter is not a
backslash, and the null string is not empty, holds neither the delimiter nor a newline, and does
not start the end-of-copy marker. -/
structure CopyTextFormatParams.Readable (params : CopyTextFormatParams) : Prop where
  delimiter_ne : params.delimiter ≠ 92
  null_ne_nil : params.null ≠ []
  delimiter_not_mem : params.delimiter ∉ params.null
  newline_not_mem : (10 : UInt8) ∉ params.null
  not_marker : ¬ END_OF_COPY_MARKER <+: params.null ++ [params.delimiter]

/-- A field that reads back as itself: a NULL, or a text that the text decoder accepts, with no
byte written as the delimiter, and that is not written starting with the null string. -/
def FieldReadable (params : CopyTextFormatParams) : Option (List UInt8) → Prop
  | none => True
  | some text => decodeText text = .ok text ∧ (∀ b ∈ text, escapeByte b ≠ [params.delimiter]) ∧
      ¬ params.null <+: text.flatMap escapeByte

section Readable

variable {params : CopyTextFormatParams} {p : CopyTextFormatParser}

/-- A field is read back from its bytes, up to the delimiter or newline after it. -/
theorem decodeField_encodeField (hr : params.Readable) (hn : p.nullString = params.null)
    (hd : p.columnDelimiter = params.delimiter) {field : Option (List UInt8)}
    (hf : FieldReadable params field) {sep : UInt8} {l : List UInt8}
    (hsep : sep = params.delimiter ∨ sep = 10)
    (hp : p.rest = encodeField params.null field ++ sep :: l) :
    decodeField p = .ok (field, p.consumeN (encodeField params.null field).length) := by
  have hne : p.nullString ≠ [] := hn ▸ hr.null_ne_nil
  cases field with
  | none =>
    rw [encodeField, ← hn] at hp
    have hnull := consumeNullString_of_prefix hne hp
    simp [decodeField, consumeRawValue, hnull, hn, encodeField]
  | some text =>
    obtain ⟨htext, hbytes, hprefix⟩ := hf
    have hsepN : sep ∉ params.null := by
      rcases hsep with rfl | rfl
      exacts [hr.delimiter_not_mem, hr.newline_not_mem]
    have hnull := consumeNullString_of_not_prefix hne
      (by rw [hn, hp]; exact not_prefix_append_cons hprefix hsepN)
    have hraw := rawLoop_escaped (p := p) (by rw [hd]; exact hr.delimiter_ne.symm)
      (by rw [hd]; exact hbytes) (by rw [hd]; exact hsep) hp []
    simp [decodeField, consumeRawValue, hnull, hraw, htext, encodeField]

theorem expectColumnDelimiter_of_cons {l : List UInt8} (hp : p.rest = p.columnDelimiter :: l) :
    p.expectColumnDelimiter = .ok (p.consumeN 1) := by
  have hcheck : p.checkBytes [p.columnDelimiter] = true := by simp [checkBytes, hp]
  simp [expectColumnDelimiter, consumeBytes, hcheck]

/-- What follows the fields of a row starts with a delimiter or the newline. -/
theorem rest_of_fields (params : CopyTextFormatParams) (fs : TextRow) (l : List UInt8) :
    ∃ sep l', (fs.flatMap fun f => params.delimiter :: encodeField params.null f) ++ 10 :: l =
      sep :: l' ∧ (sep = params.delimiter ∨ sep = 10) := by
  cases fs with
  | nil => exact ⟨10, l, rfl, .inr rfl⟩
  | cons f fs => exact ⟨params.delimiter, _, by simp; rfl, .inl rfl⟩

/-- The fields of a row after its first are read back, each after its delimiter. -/
theorem decodeFields_encode (hr : params.Readable) (hn : p.nullString = params.null)
    (hd : p.columnDelimiter = params.delimiter) {fields : TextRow}
    (hf : ∀ f ∈ fields, FieldReadable params f) {l : List UInt8}
    (hp : p.rest = (fields.flatMap fun f => params.delimiter :: encodeField params.null f) ++
      10 :: l) (col : Nat) :
    decodeFields p (col + 1) fields.length =
      .ok (fields, p.consumeN (fields.flatMap fun f =>
        params.delimiter :: encodeField params.null f).length) := by
  induction fields generalizing p col with
  | nil => simp [decodeFields, consumeN]
  | cons f fs ih =>
    rw [List.flatMap_cons, List.cons_append, List.cons_append, List.append_assoc] at hp
    have hdelim : delimiterBefore p (col + 1) = .ok (p.consumeN 1) := by
      rw [delimiterBefore, if_pos (by omega)]
      exact expectColumnDelimiter_of_cons (hd ▸ hp)
    obtain ⟨sep, l', hrest, hsep⟩ := rest_of_fields params fs l
    have hfield := decodeField_encodeField (p := p.consumeN 1) (l := l') hr hn hd (hf f (by simp))
      hsep (by simp [hp, hrest])
    have hfields := ih (p := (p.consumeN 1).consumeN (encodeField params.null f).length) hn hd
      (fun f' hf' => hf f' (by simp [hf'])) (by simp [hp]) (col + 1)
    rw [List.length_cons, decodeFields, hdelim]
    simp only [bind, Except.bind]
    rw [hfield]
    simp only
    rw [hfields]
    simp only [pure, Except.pure, consumeN_consumeN, List.flatMap_cons, List.length_cons,
      List.length_append]
    congr 3
    omega

/-- A row of fields is read back, with the newline after it. -/
theorem decodeRow_encode (hr : params.Readable) (hn : p.nullString = params.null)
    (hd : p.columnDelimiter = params.delimiter) {f : Option (List UInt8)} {fs : TextRow}
    (hf : ∀ g ∈ f :: fs, FieldReadable params g) {l : List UInt8}
    (hp : p.rest = encodeCopyRowText params (f :: fs) ++ l) :
    decodeRow p (f :: fs).length =
      .ok (f :: fs, p.consumeN (encodeCopyRowText params (f :: fs)).length) := by
  rw [encodeCopyRowText_cons, List.append_assoc, List.append_assoc, List.singleton_append] at hp
  obtain ⟨sep, l', hrest, hsep⟩ := rest_of_fields params fs l
  have hfield := decodeField_encodeField (l := l') hr hn hd (hf f (by simp)) hsep
    (by rw [hp, hrest])
  have hfields := decodeFields_encode (p := p.consumeN (encodeField params.null f).length)
    (l := l) hr hn hd (fun g (hg : g ∈ fs) => hf g (by simp [hg])) (by simp [hp]) 0
  have heol : (((p.consumeN (encodeField params.null f).length).consumeN
      (fs.flatMap fun f => params.delimiter :: encodeField params.null f).length).expectEndOfLine) =
        .ok (((p.consumeN (encodeField params.null f).length).consumeN
          (fs.flatMap fun f => params.delimiter :: encodeField params.null f).length).consumeN 1) := by
    simp [expectEndOfLine, isEndOfLine, peek, hp]
  rw [List.length_cons, decodeRow, decodeFields, delimiterBefore, if_neg (by omega)]
  simp only [bind, Except.bind]
  rw [hfield]
  simp only
  rw [hfields]
  simp only [pure, Except.pure]
  rw [heol]
  simp only [consumeN_consumeN, encodeCopyRowText_cons, List.length_append, List.length_singleton]

/-- A row does not start with the end-of-copy marker. -/
theorem not_marker_encodeCopyRowText (hr : params.Readable) {f : Option (List UInt8)}
    {fs : TextRow} (hf : FieldReadable params f) (l : List UInt8) :
    ¬ END_OF_COPY_MARKER <+: encodeCopyRowText params (f :: fs) ++ l := by
  obtain ⟨sep, l', hrest, hsep⟩ := rest_of_fields params fs l
  rw [encodeCopyRowText_cons, List.append_assoc, List.append_assoc, List.singleton_append, hrest]
  have hsep92 : sep ≠ 92 := by
    rcases hsep with rfl | rfl
    exacts [hr.delimiter_ne, by decide]
  cases f with
  | none =>
    -- the null string: its first two bytes, or its byte and the delimiter or newline after it
    have hmarker := hr.not_marker
    obtain ⟨a, N, hN⟩ := List.exists_cons_of_ne_nil hr.null_ne_nil
    rw [encodeField, hN]
    rw [hN] at hmarker
    cases N with
    | nil =>
      rcases hsep with rfl | rfl
      · simpa [END_OF_COPY_MARKER] using hmarker
      · simp [END_OF_COPY_MARKER]
    | cons c N => simpa [END_OF_COPY_MARKER] using hmarker
  | some text =>
    cases text with
    | nil => simp [END_OF_COPY_MARKER, encodeField, Ne.symm hsep92]
    | cons t text =>
      rw [encodeField, List.flatMap_cons, List.append_assoc]
      rcases escapeByte_cases t with ⟨-, he⟩ | ⟨-, he⟩ | ⟨-, he⟩ | ⟨-, he⟩ | ⟨h92, -, -, -, he⟩
      all_goals simp [END_OF_COPY_MARKER, he]
      exact fun h => absurd h.symm h92

theorem isEof_or_marker_of_not_prefix {p : CopyTextFormatParser} (hne : p.rest ≠ [])
    (hm : ¬ END_OF_COPY_MARKER <+: p.rest) : (p.isEof || p.isEndOfCopyMarker) = false := by
  obtain ⟨b, l, hp⟩ := List.exists_cons_of_ne_nil hne
  have hcheck : p.checkBytes END_OF_COPY_MARKER = false := by
    rw [checkBytes, Bool.eq_false_iff, ne_eq, List.isPrefixOf_iff_prefix]
    exact hm
  simp [isEof, isEndOfCopyMarker, peek, hp, hcheck]

/-- The run lemma of the reader: rows written one after another are read back one per round of
the loop, after the rows read before. -/
theorem decodeLoop_encode (hr : params.Readable) {columns : Nat} (hcol : 0 < columns)
    {rows : List TextRow}
    (hrows : ∀ row ∈ rows, row.length = columns ∧ ∀ f ∈ row, FieldReadable params f)
    (hn : p.nullString = params.null) (hd : p.columnDelimiter = params.delimiter)
    (hp : p.rest = encodeCopyText params rows) (acc : List TextRow) :
    decodeLoop columns p acc = .ok (acc ++ rows) := by
  induction rows generalizing p acc with
  | nil =>
    rw [decodeLoop, if_pos (by simp [isEof, peek, hp, encodeCopyText])]
    simp
  | cons row rows ih =>
    obtain ⟨hlen, hfields⟩ := hrows row (by simp)
    obtain ⟨f, fs, rfl⟩ := List.exists_cons_of_ne_nil (List.ne_nil_of_length_pos (hlen ▸ hcol))
    rw [encodeCopyText, List.flatMap_cons] at hp
    have hrow := decodeRow_encode hr hn hd hfields hp
    have hnot : (p.isEof || p.isEndOfCopyMarker) = false := by
      apply isEof_or_marker_of_not_prefix
      · simp [hp, encodeCopyRowText_cons]
      · rw [hp]
        exact not_marker_encodeCopyRowText hr (hfields f (by simp)) _
    rw [decodeLoop, if_neg (by simp [hnot])]
    split
    · rename_i err heq
      rw [← hlen, hrow] at heq
      cases heq
    · rename_i row' p' heq
      rw [← hlen, hrow] at heq
      cases heq
      have hnext := ih (p := p.consumeN (encodeCopyRowText params (f :: fs)).length)
        (fun r hr' => hrows r (by simp [hr'])) hn hd (by simp [hp, encodeCopyText]) (acc ++ [f :: fs])
      rw [hnext]
      simp

end Readable

/-- The text format reads back every list of rows it writes, for parameters and fields that
keep it readable. -/
theorem decodeCopyFormatText_encodeCopyText {params : CopyTextFormatParams}
    (hr : params.Readable) {columns : Nat} (hcol : 0 < columns) {rows : List TextRow}
    (hrows : ∀ row ∈ rows, row.length = columns ∧ ∀ f ∈ row, FieldReadable params f) :
    decodeCopyFormatText (encodeCopyText params rows) columns params = .ok rows := by
  rw [decodeCopyFormatText]
  simpa using decodeLoop_encode (p := ⟨encodeCopyText params rows, params.delimiter, params.null⟩)
    hr hcol hrows rfl rfl rfl []


/-- A row that fails to decode fails the whole decoding. -/
theorem decodeLoop_of_decodeRow_error {p : CopyTextFormatParser} {columns : Nat} {err : String}
    (hnot : (p.isEof || p.isEndOfCopyMarker) = false) (h : decodeRow p columns = .error err)
    (rows : List TextRow) : decodeLoop columns p rows = .error err := by
  rw [decodeLoop, if_neg (by simp [hnot])]
  split
  · rename_i err' heq
    rw [h] at heq
    cases heq
    rfl
  · rename_i row p' heq
    rw [h] at heq
    cases heq

/-! ## What does not read back -/

/-- With the delimiter `,` and the null string `NULL`, the text `,` and the text `NULLX` are written
as they are, and neither reads back: the first is cut at its delimiter, and the second is read as a
NULL followed by an `X`. -/
theorem copy_text_round_trip_fails :
    decodeCopyFormatText (encodeCopyText ⟨[78, 85, 76, 76], 44⟩ [[some [44]]]) 1
        ⟨[78, 85, 76, 76], 44⟩ = .error "extra data after last expected column" ∧
      decodeCopyFormatText (encodeCopyText ⟨[78, 85, 76, 76], 44⟩ [[some [78, 85, 76, 76, 88]]]) 1
        ⟨[78, 85, 76, 76], 44⟩ = .error "extra data after last expected column" := by
  -- the text `,`: an empty field, then the delimiter where the newline should be
  have hcomma : decodeRow ⟨[44, 10], 44, [78, 85, 76, 76]⟩ 1 =
      .error "extra data after last expected column" := by
    have hraw : CopyTextFormatParser.rawLoop ⟨[44, 10], 44, [78, 85, 76, 76]⟩ [] =
        ([], ⟨[44, 10], 44, [78, 85, 76, 76]⟩) :=
      rawLoop_stop rfl (by decide) (.inl rfl) []
    simp [decodeRow, decodeFields, delimiterBefore, decodeField, consumeRawValue,
      consumeNullString, consumeBytes, checkBytes, hraw, bind, Except.bind]
    rfl
  -- the text `NULLX`: the null string is consumed as a prefix, and `X` is left over
  have hnullx : decodeRow ⟨[78, 85, 76, 76, 88, 10], 44, [78, 85, 76, 76]⟩ 1 =
      .error "extra data after last expected column" := rfl
  exact ⟨decodeLoop_of_decodeRow_error rfl hcomma [], decodeLoop_of_decodeRow_error rfl hnullx []⟩

end Materialize.Pgcopy
