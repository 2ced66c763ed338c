import Mathlib
import Materialize.Repr.Strconv

/-!
# Text lists and arrays read back what was written

A list or a one-dimensional array of optional strings, written by `format_list` or `format_array`
with `format_string` and `write_null`, is read back by `parse_list` or `parse_array` as the same
elements; a list of such lists is read back by `parse_list` with `is_element_type_list` as each
inner list's text (`text_list_array_round_trip`). In the order the module proves it:

* `escape_elem` quotes an element in place (`escapeElem_append`): its backward walk keeps the
  element's unread prefix, a gap of junk and the escaped suffix in the buffer (`escapeWalk_spec`);
* an element formatter that `Writes` each element's text makes `format_elems` write the texts
  with commas between them (`formatElems_writes`); the text formatter writes `encodeText`;
* each lexer reads back what the escaper writes: `lex_quoted_element` a quoted element
  (`lexQuotedElement_quoted`), `lex_unquoted_element` an element left unquoted
  (`lexUnquotedElement_text`), which needs that the parser's upper-casing test for `NULL`
  agrees with the escaper's ASCII test (`eqIgnoreAsciiCase_of_toUppercase`), and
  `lex_embedded_element` a formatted list, whose quoted parts hide their braces
  (`lexEmbeddedElement_list`);
* the loop of `parse_list` reads one element a round, given an element reader that `ReadsBack`
  each element's text (`parseListLoop_sepElems`, `parseListInner_encodeList`);
* the `ArrayBuilder` loop of `parse_array` stages an element, commits it at the comma and seals
  the one dimension at the closing brace (`buildLoop_sepElems`, `build_text`).
-/

namespace Materialize.Strconv

/-! ## ASCII case -/

/-- What the parser reads as `NULL` the escaper quotes: a text that upper-cases to `NULL` is
equal to `NULL` up to ASCII case. -/
theorem eqIgnoreAsciiCase_of_toUppercase {s : List Char} (h : toUppercase s = "NULL".toList) :
    eqIgnoreAsciiCase s "NULL".toList = true := by
  have hl : s.map Char.toLower = "NULL".toList.map Char.toLower :=
    calc s.map Char.toLower = (toUppercase s).map Char.toLower := by
          simp [toUppercase, Function.comp_def, Char.toLower_toUpper_eq_toLower]
      _ = "NULL".toList.map Char.toLower := by rw [h]
  simp [eqIgnoreAsciiCase, hl]

/-! ## The escaper -/

/-- A character that the escaper writes an escape character before. -/
def IsEscaped (c : Char) : Prop := c = '\\' ∨ c = '"'

instance : DecidablePred IsEscaped := fun c => inferInstanceAs (Decidable (c = '\\' ∨ c = '"'))

/-- The number of characters of `s` that get an escape character. -/
def escCount (s : List Char) : Nat := (s.filter fun b => b = '"' || b = '\\').length

/-- The text between the quotes of an escaped element. -/
def escapeBody (E : ElementEscaper) (s : List Char) : List Char :=
  s.flatMap fun c => if IsEscaped c then [E.escapeChar c, c] else [c]

/-- An element as `escape_elem` quotes it. -/
def quoted (E : ElementEscaper) (s : List Char) : List Char := '"' :: (escapeBody E s ++ ['"'])

@[simp] theorem escCount_nil : escCount [] = 0 := rfl

theorem escCount_append_single (s : List Char) (c : Char) :
    escCount (s ++ [c]) = escCount s + if IsEscaped c then 1 else 0 := by
  by_cases hc : IsEscaped c
  · rcases hc with rfl | rfl <;> simp [escCount, IsEscaped]
  · simp only [IsEscaped, not_or] at hc
    simp [escCount, IsEscaped, hc]

@[simp] theorem escapeBody_nil (E : ElementEscaper) : escapeBody E [] = [] := rfl

theorem escapeBody_cons (E : ElementEscaper) (c : Char) (s : List Char) :
    escapeBody E (c :: s) = (if IsEscaped c then [E.escapeChar c, c] else [c]) ++ escapeBody E s :=
  List.flatMap_cons

section Walk

/-- One step of the walk of `escape_elem`, where the character read is `c` both before and after
it is copied. -/
theorem escapeWalk_succ {E : ElementEscaper} {start k wi : Nat} {buf buf' : List Char} {c : Char}
    (hr : buf[start + k]? = some c) (hs : Buffer.set? buf wi c = some buf')
    (hr' : buf'[start + k]? = some c) :
    escapeWalk E start (k + 1) buf wi =
      if IsEscaped c then
        (Buffer.set? buf' (wi - 1) (E.escapeChar c)).bind fun buf => escapeWalk E start k buf (wi - 2)
      else escapeWalk E start k buf' (wi - 1) := by
  simp only [escapeWalk, hr, hs, hr', Option.bind_eq_bind, Option.bind_some, IsEscaped]
  rfl

variable (E : ElementEscaper) (pre s : List Char)

/-- The walk reads the character at `start + k` where the buffer holds the element's first `k`
characters after `pre`. -/
theorem getElem?_walk {k : Nat} (hk : k < s.length) (X : List Char) :
    (pre ++ s.take k ++ s[k] :: X)[pre.length + k]? = some s[k] := by
  have hlen : (pre ++ s.take k).length = pre.length + k := by simp; omega
  rw [← hlen, List.getElem?_append_right (le_refl _)]
  simp

/-- **The walk of `escape_elem`.** With `k` characters left to copy, the buffer holds `pre`, the
element's first `k` characters, a gap `J` of junk one longer than the escape characters those
need, and the escaped rest of the element with its closing quote; `wi` is the gap's last index.
Each step copies a character, and its escape character, to the end of the gap, which moves
down, so the walk ends with a gap of one at `start`. -/
theorem escapeWalk_spec :
    ∀ k, k ≤ s.length → ∀ J : List Char, J.length = escCount (s.take k) + 1 →
      ∃ j, escapeWalk E pre.length k (pre ++ s.take k ++ J ++ (escapeBody E (s.drop k) ++ ['"']))
        (pre.length + k + escCount (s.take k)) =
          some (pre ++ j :: (escapeBody E s ++ ['"']), pre.length)
  | 0, _, J, hJ => by
    obtain ⟨j, rfl⟩ : ∃ j, J = [j] := List.length_eq_one_iff.mp (by simpa using hJ)
    exact ⟨j, by simp [escapeWalk]⟩
  | k + 1, hk, J, hJ => by
    have hks : k < s.length := by omega
    have htake : s.take (k + 1) = s.take k ++ [s[k]] := List.take_succ_eq_append_getElem hks
    have hdrop : s.drop k = s[k] :: s.drop (k + 1) := List.drop_eq_getElem_cons hks
    have hcount := escCount_append_single (s.take k) s[k]
    have hlen : (s.take k).length = k := by simp; omega
    have hJne : J ≠ [] := by rintro rfl; simp at hJ
    obtain ⟨J₁, j₀, rfl⟩ : ∃ J₁ j₀, J = J₁ ++ [j₀] :=
      ⟨J.dropLast, J.getLast hJne, (List.dropLast_append_getLast hJne).symm⟩
    have hJ₁ : J₁.length = escCount (s.take (k + 1)) := by simpa using hJ
    -- the character is copied to the gap's last cell
    have hbuf : pre ++ s.take (k + 1) ++ (J₁ ++ [j₀]) ++ (escapeBody E (s.drop (k + 1)) ++ ['"']) =
        (pre ++ s.take k ++ s[k] :: J₁) ++ j₀ :: (escapeBody E (s.drop (k + 1)) ++ ['"']) := by
      rw [htake]
      simp only [List.append_assoc, List.cons_append, List.nil_append]
    have hwi : pre.length + (k + 1) + escCount (s.take (k + 1)) =
        (pre ++ s.take k ++ s[k] :: J₁).length := by
      simp only [List.length_append, List.length_cons, hlen, hJ₁]
      omega
    have hset := Buffer.set?_append (pre ++ s.take k ++ s[k] :: J₁)
      (escapeBody E (s.drop (k + 1)) ++ ['"']) j₀ s[k]
    have hr := getElem?_walk pre s hks (J₁ ++ j₀ :: (escapeBody E (s.drop (k + 1)) ++ ['"']))
    have hr' := getElem?_walk pre s hks (J₁ ++ s[k] :: (escapeBody E (s.drop (k + 1)) ++ ['"']))
    simp only [List.append_assoc] at hr hr'
    rw [hbuf, hwi, escapeWalk_succ (by simpa using hr) hset (by simpa using hr')]
    by_cases hc : IsEscaped s[k]
    · -- its escape character goes to the cell before
      rw [htake, hcount, if_pos hc] at hJ₁
      have hJ₁ne : J₁ ≠ [] := by rintro rfl; simp at hJ₁
      obtain ⟨J', j₁, rfl⟩ : ∃ J' j₁, J₁ = J' ++ [j₁] :=
        ⟨J₁.dropLast, J₁.getLast hJ₁ne, (List.dropLast_append_getLast hJ₁ne).symm⟩
      have hJ' : J'.length = escCount (s.take k) := by simpa using hJ₁
      have hbuf' : pre ++ s.take k ++ s[k] :: (J' ++ [j₁]) ++
            s[k] :: (escapeBody E (s.drop (k + 1)) ++ ['"']) =
          (pre ++ s.take k ++ s[k] :: J') ++ j₁ :: s[k] :: (escapeBody E (s.drop (k + 1)) ++ ['"']) := by
        simp
      have hwi' : (pre ++ s.take k ++ s[k] :: (J' ++ [j₁])).length - 1 =
          (pre ++ s.take k ++ s[k] :: J').length := by
        simp only [List.length_append, List.length_cons, List.length_nil]
        omega
      obtain ⟨j, hj⟩ := escapeWalk_spec k (by omega) (s[k] :: J') (by simp [hJ'])
      refine ⟨j, ?_⟩
      rw [if_pos hc, hbuf', hwi', Buffer.set?_append, Option.bind_some, ← hj, hdrop, escapeBody_cons,
        if_pos hc]
      congr 1
      simp only [List.length_append, List.length_cons, List.length_nil, hlen, hJ']
      omega
    · rw [htake, hcount, if_neg hc, Nat.add_zero] at hJ₁
      obtain ⟨j, hj⟩ := escapeWalk_spec k (by omega) (s[k] :: J₁) (by simp [hJ₁])
      refine ⟨j, ?_⟩
      rw [if_neg hc, ← hj, hdrop, escapeBody_cons, if_neg hc]
      congr 1
      simp only [List.length_append, List.length_cons, hlen, hJ₁]
      omega

end Walk

/-- **`escape_elem`** quotes the element after `pre` when the escaper says that it needs it, and
leaves it as it is otherwise. -/
theorem escapeElem_append (E : ElementEscaper) (pre s : List Char) :
    escapeElem E (pre ++ s) pre.length =
      some (if E.needsEscaping s then pre ++ quoted E s else pre ++ s) := by
  unfold escapeElem
  rw [if_neg (by simp), List.drop_left]
  by_cases hn : E.needsEscaping s = true
  · -- the padding is one cell of junk per escape character, and the two quotes
    have hpad : pre ++ s ++ List.replicate (2 + escCount s) '\x00' =
        (pre ++ s ++ List.replicate (escCount s + 1) '\x00') ++ '\x00' :: [] := by
      rw [show 2 + escCount s = (escCount s + 1) + 1 by omega, List.replicate_succ']
      simp
    have hwi : (pre ++ s).length + (2 + escCount s) - 1 =
        (pre ++ s ++ List.replicate (escCount s + 1) '\x00').length := by
      simp only [List.length_append, List.length_replicate]
      omega
    obtain ⟨j, hj⟩ := escapeWalk_spec E pre s s.length le_rfl
      (List.replicate (escCount s + 1) '\x00') (by simp)
    simp only [List.take_length, List.drop_length, escapeBody_nil, List.nil_append] at hj
    have hset := Buffer.set?_append pre (escapeBody E s ++ ['"']) j '"'
    have hk : (pre ++ s).length - pre.length = s.length := by simp
    have hwi' : (pre ++ s ++ List.replicate (escCount s + 1) '\x00').length - 1 =
        pre.length + s.length + escCount s := by
      simp only [List.length_append, List.length_replicate]
      omega
    simp only [escCount] at hj hpad hwi hwi'
    simp only [hn, Bool.not_true, Bool.false_eq_true, ↓reduceIte, hpad, hwi, Buffer.set?_append,
      Option.bind_eq_bind, Option.bind_some, hk, hwi', hj, hset, quoted]
  · simp [hn]

/-! ## What the formatter writes -/

/-- The text of one element of a text list or array: `NULL` for a null, and a string, quoted when
the list escaper says that it needs it. -/
def encodeText : Option (List Char) → List Char
  | none => "NULL".toList
  | some s => if listElementEscaper.needsEscaping s then quoted listElementEscaper s else s

section Encode

variable {α : Type}

/-- The text after the first element of a list: a comma and the text of each element. -/
def sepElems (enc : α → List Char) (xs : List α) : List Char := xs.flatMap fun x => ',' :: enc x

/-- The elements' texts with a comma between two of them. -/
def encodeElems (enc : α → List Char) : List α → List Char
  | [] => []
  | x :: xs => enc x ++ sepElems enc xs

/-- A list as `format_list` writes it, each element's text given by `enc`. -/
def encodeList (enc : α → List Char) (xs : List α) : List Char :=
  '{' :: (encodeElems enc xs ++ ['}'])

end Encode

section Writes

variable {α E : Type}

/-- What `format_elems` needs of an element formatter: it writes `enc x`, or a text that the
escaper turns into `enc x` when it says that the text may need escaping. -/
def Writes (formatElem : List Char → α → Option (Except E (List Char × Nestable)))
    (enc : α → List Char) : Prop :=
  ∀ buf x, formatElem buf x = some (.ok (buf ++ enc x, .yes)) ∨
    ∃ t, formatElem buf x = some (.ok (buf ++ t, .mayNeedEscaping)) ∧
      escapeElem listElementEscaper (buf ++ t) buf.length = some (buf ++ enc x)

/-- **`format_elems`** writes the elements' texts with commas between them. -/
theorem formatElems_writes {formatElem : List Char → α → Option (Except E (List Char × Nestable))}
    {enc : α → List Char} (h : Writes formatElem enc) :
    ∀ (xs : List α) (buf : List Char),
      formatElems formatElem ',' xs buf = some (.ok (buf ++ encodeElems enc xs))
  | [], buf => by simp [formatElems, encodeElems]
  | x :: xs, buf => by
    -- the separator goes after the element unless it is the last
    have hsep : formatElems formatElem ',' xs
        (if xs.isEmpty then buf ++ enc x else buf ++ enc x ++ [',']) =
          some (.ok (buf ++ (enc x ++ sepElems enc xs))) := by
      cases xs with
      | nil => simp [formatElems, sepElems]
      | cons y ys =>
        rw [formatElems_writes h (y :: ys)]
        simp [encodeElems, sepElems]
    rcases h buf x with hx | ⟨t, hx, he⟩
    · simp only [formatElems, hx, encodeElems]
      exact hsep
    · simp only [formatElems, hx, he, encodeElems]
      exact hsep

/-- **`format_list`** writes the list's text. -/
theorem formatList_writes {formatElem : List Char → α → Option (Except E (List Char × Nestable))}
    {enc : α → List Char} (h : Writes formatElem enc) (buf : List Char) (xs : List α) :
    formatList buf xs formatElem = some (.ok (buf ++ encodeList enc xs, .yes)) := by
  simp [formatList, formatElems_writes h, encodeList, Except.map]

end Writes

/-- The text formatter writes each element's text: `NULL` as it is, a string escaped. -/
theorem writes_text : Writes formatTextElem encodeText := by
  intro buf x
  cases x with
  | none => exact .inl rfl
  | some s =>
    refine .inr ⟨s, rfl, ?_⟩
    simp only [escapeElem_append, encodeText]
    split <;> simp

/-! ## The lexers -/

/-- `take_while` takes a prefix whose characters all pass, up to one that does not. -/
theorem takeWhile_append {p : Char → Bool} {seen t rest : List Char} (ht : ∀ c ∈ t, p c = true)
    (hr : ∀ c ∈ rest.head?, p c = false) :
    LexBuf.takeWhile p ⟨seen, t ++ rest⟩ = (t, ⟨t.reverse ++ seen, rest⟩) := by
  have hnil : rest.takeWhile p = [] := by
    cases rest with
    | nil => rfl
    | cons c rest => simp [hr c rfl]
  simp [LexBuf.takeWhile, List.takeWhile_append_of_pos ht, hnil]

/-- `take_while` takes nothing before a character that does not pass. -/
theorem takeWhile_of_head {p : Char → Bool} {seen rest : List Char}
    (hr : ∀ c ∈ rest.head?, p c = false) :
    LexBuf.takeWhile p ⟨seen, rest⟩ = ([], ⟨seen, rest⟩) :=
  takeWhile_append (t := []) (by simp) hr

section Quoted

variable {acc seen rest : List Char}

theorem lexQuotedLoop_escape (c : Char) :
    lexQuotedLoop acc seen ('\\' :: c :: rest) = lexQuotedLoop (acc ++ [c]) (c :: '\\' :: seen) rest := by
  rw [lexQuotedLoop_cons, if_pos rfl]

theorem lexQuotedLoop_quote : lexQuotedLoop acc seen ('"' :: rest) = .ok (acc, ⟨'"' :: seen, rest⟩) := by
  rw [lexQuotedLoop_cons, if_neg (by decide), if_pos rfl]

theorem lexQuotedLoop_plain_cons {c : Char} (hc : ¬IsEscaped c) :
    lexQuotedLoop acc seen (c :: rest) = lexQuotedLoop (acc ++ [c]) (c :: seen) rest := by
  simp only [IsEscaped, not_or] at hc
  rw [lexQuotedLoop_cons, if_neg hc.1, if_neg hc.2]

/-- The loop of `lex_quoted_element` reads a run of plain characters one at a time. -/
theorem lexQuotedLoop_plain {t : List Char} (ht : ∀ c ∈ t, ¬IsEscaped c) :
    lexQuotedLoop acc seen (t ++ rest) = lexQuotedLoop (acc ++ t) (t.reverse ++ seen) rest := by
  induction t generalizing acc seen with
  | nil => simp
  | cons c t ih =>
    rw [List.cons_append, lexQuotedLoop_plain_cons (ht c (by simp)),
      ih (fun d hd => ht d (by simp [hd]))]
    simp

end Quoted

/-- The first `take_while` of `lex_quoted_element`, and the return before the loop when the text
had no escape, do what the loop does from the start. -/
theorem lexQuotedElement_eq (seen rest : List Char) :
    lexQuotedElement ⟨seen, '"' :: rest⟩ = some (lexQuotedLoop [] ('"' :: seen) rest) := by
  set q : Char → Bool := fun ch => !(ch = '"' || ch = '\\')
  have hsplit := List.takeWhile_append_dropWhile (p := q) (l := rest)
  set t := rest.takeWhile q
  set r := rest.dropWhile q
  have ht : ∀ c ∈ t, ¬IsEscaped c := by
    intro c hc
    have := List.mem_takeWhile_imp hc
    simp only [q, Bool.not_eq_true', Bool.or_eq_false_iff, decide_eq_false_iff_not] at this
    simp only [IsEscaped, not_or]
    exact ⟨this.2, this.1⟩
  have hr : ∀ c ∈ r.head?, q c = false := by
    intro c hc
    have hne : r ≠ [] := by
      rintro h
      simp [h] at hc
    have hhead : r.head hne = c := by simpa [List.head?_eq_some_head hne] using hc
    rw [← hhead]
    exact List.head_dropWhile_not q hne
  have ht' : ∀ c ∈ t, q c = true := fun c hc => List.mem_takeWhile_imp hc
  have hcons : LexBuf.consume '"' ⟨seen, '"' :: (t ++ r)⟩ = (true, ⟨'"' :: seen, t ++ r⟩) := by
    simp [LexBuf.consume, LexBuf.peek, LexBuf.next]
  rw [← hsplit, lexQuotedLoop_plain ht, List.nil_append]
  simp only [lexQuotedElement, hcons, Bool.not_true, Bool.false_eq_true, ↓reduceIte]
  rw [takeWhile_append (p := fun ch => !(ch = '"' || ch = '\\')) ht' hr]
  cases r with
  | nil => simp [LexBuf.peek]
  | cons c r =>
    by_cases hc : c = '"'
    · subst hc
      simp [LexBuf.peek, LexBuf.next, lexQuotedLoop_quote]
    · simp [LexBuf.peek, hc]

/-- The loop of `lex_quoted_element` undoes the escaping up to the closing quote. -/
theorem lexQuotedLoop_escapeBody (acc seen rest s : List Char) :
    lexQuotedLoop acc seen (escapeBody listElementEscaper s ++ '"' :: rest) =
      .ok (acc ++ s, ⟨'"' :: ((escapeBody listElementEscaper s).reverse ++ seen), rest⟩) := by
  induction s generalizing acc seen with
  | nil => simp [lexQuotedLoop_quote]
  | cons c s ih =>
    rw [escapeBody_cons]
    by_cases hc : IsEscaped c
    · simp only [if_pos hc, List.cons_append, List.nil_append]
      rw [show listElementEscaper.escapeChar c = '\\' from rfl, lexQuotedLoop_escape, ih]
      simp
    · simp only [if_neg hc, List.cons_append, List.nil_append]
      rw [lexQuotedLoop_plain_cons hc, ih]
      simp

/-- **`lex_quoted_element`** reads a quoted element back. -/
theorem lexQuotedElement_quoted (seen rest s : List Char) :
    lexQuotedElement ⟨seen, quoted listElementEscaper s ++ rest⟩ =
      some (.ok (s, ⟨(quoted listElementEscaper s).reverse ++ seen, rest⟩)) := by
  simp only [quoted, List.cons_append, List.append_assoc]
  rw [lexQuotedElement_eq, lexQuotedLoop_escapeBody]
  simp

/-- **`lex_unquoted_element`** reads a text with no special character and no whitespace, up to
a comma or a closing brace, without entering its loop. -/
theorem lexUnquotedElement_plain {seen rest s : List Char} {c : Char} (hs : s ≠ [])
    (hplain : ∀ ch ∈ s, isSpecialChar ch = false ∧ isAsciiWhitespace ch = false)
    (hc : c = ',' ∨ c = '}') :
    lexUnquotedElement isSpecialChar isEndOfLiteral ⟨seen, s ++ c :: rest⟩ =
      some (.ok (if toUppercase s = "NULL".toList then none else some s,
        ⟨s.reverse ++ seen, c :: rest⟩)) := by
  obtain ⟨d, ds, rfl⟩ := List.exists_cons_of_ne_nil hs
  have hd := (hplain d (by simp)).2
  have htake : LexBuf.takeWhile (fun ch => !isSpecialChar ch && !isAsciiWhitespace ch)
      ⟨seen, (d :: ds) ++ c :: rest⟩ = (d :: ds, ⟨(d :: ds).reverse ++ seen, c :: rest⟩) := by
    apply takeWhile_append
    · intro ch hch
      simp [(hplain ch hch).1, (hplain ch hch).2]
    · rcases hc with rfl | rfl <;> simp [isSpecialChar]
  have hpeek : LexBuf.peek ⟨seen, (d :: ds) ++ c :: rest⟩ = some d := rfl
  simp only [lexUnquotedElement, hpeek, hd, Bool.false_eq_true, ↓reduceIte, htake]
  rcases hc with rfl | rfl <;> simp [LexBuf.peek]

/-- An element the list escaper leaves unquoted is not empty, is not `NULL` in any case, and has
no special character and no whitespace. -/
theorem plain_of_not_needsEscaping {s : List Char}
    (h : listElementEscaper.needsEscaping s = false) :
    s ≠ [] ∧ eqIgnoreAsciiCase s "NULL".toList = false ∧
      ∀ ch ∈ s, isSpecialChar ch = false ∧ isAsciiWhitespace ch = false := by
  simp only [listElementEscaper, Bool.or_eq_false_iff, List.isEmpty_eq_false_iff,
    List.any_eq_false] at h
  obtain ⟨⟨hne, hnull⟩, hany⟩ := h
  refine ⟨hne, hnull, fun ch hch => ?_⟩
  have := hany ch hch
  simp only [Bool.or_eq_true, decide_eq_true_eq, not_or] at this
  obtain ⟨⟨⟨⟨⟨h1, h2⟩, h3⟩, h4⟩, h5⟩, h6⟩ := this
  simp [isSpecialChar, h1, h2, h3, h4, h5, h6]

section Elem

variable {T : Type} (isElementTypeList : Bool) (makeNull : T)
  (generated : List Char → Except String T) {seen rest : List Char}

/-- `parse_list_inner` reads an element that starts with a quote with `lex_quoted_element`. -/
theorem parseListElem_quote (h : LexBuf.peek ⟨seen, rest⟩ = some '"') :
    parseListElem isElementTypeList makeNull generated ⟨seen, rest⟩ =
      (lexQuotedElement ⟨seen, rest⟩).map (·.bind fun (s, b) => (generated s).map (·, b)) := by
  simp [parseListElem, h]

/-- `parse_list_inner` reads an element that starts with a brace with `lex_embedded_element`,
where the elements are lists. -/
theorem parseListElem_brace (h : LexBuf.peek ⟨seen, rest⟩ = some '{') :
    parseListElem true makeNull generated ⟨seen, rest⟩ =
      (lexEmbeddedElement ⟨seen, rest⟩).map (·.bind fun (s, b) => (generated s).map (·, b)) := by
  simp [parseListElem, h]

/-- `parse_list_inner` reads any other element with `lex_unquoted_element`. -/
theorem parseListElem_unquoted {d : Char} (h : LexBuf.peek ⟨seen, rest⟩ = some d)
    (hq : d ≠ '"') (hb : d ≠ '{') :
    parseListElem isElementTypeList makeNull generated ⟨seen, rest⟩ =
      (lexUnquotedElement isSpecialChar isEndOfLiteral ⟨seen, rest⟩).map (·.bind fun (e, b) =>
        match e with
        | some e => (generated e).map (·, b)
        | none => .ok (makeNull, b)) := by
  simp only [parseListElem, h]
  -- the statement's `match` may elaborate to a matcher of its own, equal to the definition's
  all_goals rfl

end Elem

/-- An element the escaper leaves unquoted, `NULL` included, starts with a character that is
neither special nor whitespace, and `lex_unquoted_element` reads it back. -/
theorem lexUnquotedElement_text {x : Option (List Char)}
    (hx : ∀ s, x = some s → listElementEscaper.needsEscaping s = false)
    (seen rest : List Char) {c : Char} (hc : c = ',' ∨ c = '}') :
    ∃ d ds, encodeText x = d :: ds ∧ isSpecialChar d = false ∧ isAsciiWhitespace d = false ∧
      lexUnquotedElement isSpecialChar isEndOfLiteral ⟨seen, encodeText x ++ c :: rest⟩ =
        some (.ok (x, ⟨(encodeText x).reverse ++ seen, c :: rest⟩)) := by
  cases x with
  | none =>
    -- `NULL` is read as a null
    have hnull : toUppercase "NULL".toList = "NULL".toList := by decide
    have hplain : ∀ ch ∈ "NULL".toList, isSpecialChar ch = false ∧ isAsciiWhitespace ch = false := by
      simp [isSpecialChar, isAsciiWhitespace]
    refine ⟨'N', "ULL".toList, rfl, by decide, by decide, ?_⟩
    change lexUnquotedElement _ _ ⟨seen, "NULL".toList ++ c :: rest⟩ =
      some (.ok (none, ⟨("NULL".toList).reverse ++ seen, c :: rest⟩))
    rw [lexUnquotedElement_plain (by simp) hplain hc, if_pos hnull]
  | some s =>
    have hn := hx s rfl
    obtain ⟨hne, hnull, hplain⟩ := plain_of_not_needsEscaping hn
    obtain ⟨d, ds, rfl⟩ := List.exists_cons_of_ne_nil hne
    -- the parser's test for `NULL` fails where the escaper's does
    have hup : toUppercase (d :: ds) ≠ "NULL".toList := fun h => by
      have := eqIgnoreAsciiCase_of_toUppercase h
      simp_all
    simp only [encodeText, hn, Bool.false_eq_true, ↓reduceIte]
    refine ⟨d, ds, rfl, (hplain d (by simp)).1, (hplain d (by simp)).2, ?_⟩
    rw [lexUnquotedElement_plain hne hplain hc, if_neg hup]

/-- **One element of a text list** is read back, up to the comma or the brace after it. -/
theorem parseListElem_text (isElementTypeList : Bool) (x : Option (List Char))
    {seen rest : List Char} {c : Char} (hc : c = ',' ∨ c = '}') :
    parseListElem isElementTypeList none (fun s => .ok (some s)) ⟨seen, encodeText x ++ c :: rest⟩ =
      some (.ok (x, ⟨(encodeText x).reverse ++ seen, c :: rest⟩)) := by
  by_cases hq : ∃ s, x = some s ∧ listElementEscaper.needsEscaping s = true
  · -- a quoted element
    obtain ⟨s, rfl, hn⟩ := hq
    simp only [encodeText, hn, ↓reduceIte]
    rw [parseListElem_quote _ _ _ rfl, lexQuotedElement_quoted]
    simp [Except.map, Except.bind]
  · have hx : ∀ s, x = some s → listElementEscaper.needsEscaping s = false := by
      rintro s rfl
      simpa using hq
    obtain ⟨d, ds, hd, hsp, -, hlex⟩ := lexUnquotedElement_text hx seen rest hc
    rw [parseListElem_unquoted (d := d) _ _ _ (by simp [LexBuf.peek, hd])
      (by rintro rfl; simp [isSpecialChar] at hsp) (by rintro rfl; simp [isSpecialChar] at hsp),
      hlex]
    cases x <;> rfl

/-! ## The list loop -/

section Loop

variable {α T : Type} {isElementTypeList : Bool} {makeNull : T}
  {generated : List Char → Except String T}

/-- What the list loop needs of the elements' texts: each starts with a character that is neither
whitespace nor a closing brace, and the element reader reads it back as `f x`, up to the comma or
the brace after it. -/
structure ReadsBack (read : LexBuf → Option (Except String (T × LexBuf))) (enc : α → List Char)
    (f : α → T) : Prop where
  head : ∀ x, ∃ c cs, enc x = c :: cs ∧ isAsciiWhitespace c = false ∧ c ≠ '}'
  read : ∀ x seen rest c, (c = ',' ∨ c = '}') →
    read ⟨seen, enc x ++ c :: rest⟩ = some (.ok (f x, ⟨(enc x).reverse ++ seen, c :: rest⟩))

/-- The text after an element starts with a comma or, after the last one, the closing brace. -/
theorem sepElems_append_cons (enc : α → List Char) (xs : List α) (tail : List Char) :
    ∃ c rest, sepElems enc xs ++ '}' :: tail = c :: rest ∧ (c = ',' ∨ c = '}') := by
  cases xs with
  | nil => exact ⟨'}', tail, by simp [sepElems], .inr rfl⟩
  | cons x xs => exact ⟨',', enc x ++ (sepElems enc xs ++ '}' :: tail), by simp [sepElems], .inl rfl⟩

/-- The round at the closing brace ends the loop. -/
theorem parseListLoop_close (fuel : Nat) (elems : List T) (seen tail : List Char) :
    parseListLoop isElementTypeList makeNull generated (fuel + 1) elems ⟨seen, '}' :: tail⟩ =
      some (.ok (elems, ⟨'}' :: seen, tail⟩)) := by
  rw [parseListLoop, takeWhile_of_head (by simp [isAsciiWhitespace])]
  rfl

/-- **The loop of `parse_list_inner`**, past the first element, reads a comma and an element a
round until the closing brace. -/
theorem parseListLoop_sepElems {enc : α → List Char} {f : α → T}
    (h : ReadsBack (parseListElem isElementTypeList makeNull generated) enc f) :
    ∀ (xs : List α) (fuel : Nat) (elems : List T) (seen tail : List Char), elems ≠ [] →
      (sepElems enc xs).length < fuel →
      parseListLoop isElementTypeList makeNull generated fuel elems
          ⟨seen, sepElems enc xs ++ '}' :: tail⟩ =
        some (.ok (elems ++ xs.map f, ⟨(sepElems enc xs).reverse ++ seen |>.cons '}', tail⟩))
  | [], fuel, elems, seen, tail, _, hfuel => by
    obtain ⟨k, rfl⟩ : ∃ k, fuel = k + 1 := ⟨fuel - 1, by simp [sepElems] at hfuel; omega⟩
    simpa [sepElems] using parseListLoop_close k elems seen tail
  | x :: xs, fuel, elems, seen, tail, helems, hfuel => by
    obtain ⟨k, rfl⟩ : ∃ k, fuel = k + 1 := ⟨fuel - 1, by simp [sepElems] at hfuel; omega⟩
    obtain ⟨c, rest, hrest, hc⟩ := sepElems_append_cons enc xs tail
    obtain ⟨d, ds, hd, hws, -⟩ := h.head x
    have hbuf : sepElems enc (x :: xs) ++ '}' :: tail = ',' :: (enc x ++ c :: rest) := by
      simp [sepElems, ← hrest]
    have hw₁ : LexBuf.takeWhile isAsciiWhitespace ⟨seen, ',' :: (enc x ++ c :: rest)⟩ =
        ([], ⟨seen, ',' :: (enc x ++ c :: rest)⟩) := takeWhile_of_head (by simp [isAsciiWhitespace])
    have hw₂ : LexBuf.takeWhile isAsciiWhitespace ⟨',' :: seen, enc x ++ c :: rest⟩ =
        ([], ⟨',' :: seen, enc x ++ c :: rest⟩) := takeWhile_of_head (by simp [hd, hws])
    have hlen : elems.length ≠ 0 := by simpa using helems
    rw [hbuf, parseListLoop, hw₁]
    simp only [LexBuf.next, Option.some.injEq, Char.reduceEq, imp_self, hlen, ↓reduceIte, hw₂,
      h.read x _ rest c hc]
    -- the rounds left read the rest of the elements
    have hfuel' : (sepElems enc xs).length < k := by
      simp only [sepElems, List.flatMap_cons, List.length_append, List.length_cons, hd] at hfuel
      simp only [sepElems]
      omega
    rw [← hrest, parseListLoop_sepElems h xs k (elems ++ [f x]) _ tail (by simp) hfuel']
    simp [sepElems]

/-- The first round of the loop reads the first element: the character it reads is put back,
as nothing is expected before the first element. -/
theorem parseListLoop_first {enc : α → List Char} {f : α → T}
    (h : ReadsBack (parseListElem isElementTypeList makeNull generated) enc f)
    (x : α) (fuel : Nat) (seen rest : List Char) {c : Char} (hc : c = ',' ∨ c = '}') :
    parseListLoop isElementTypeList makeNull generated (fuel + 1) [] ⟨seen, enc x ++ c :: rest⟩ =
      parseListLoop isElementTypeList makeNull generated fuel [f x]
        ⟨(enc x).reverse ++ seen, c :: rest⟩ := by
  obtain ⟨d, ds, hd, hws, hb⟩ := h.head x
  have hw : LexBuf.takeWhile isAsciiWhitespace ⟨seen, enc x ++ c :: rest⟩ =
      ([], ⟨seen, enc x ++ c :: rest⟩) := takeWhile_of_head (by simp [hd, hws])
  have hread := h.read x seen rest c hc
  rw [hd] at hw hread ⊢
  simp only [List.cons_append] at hw hread ⊢
  rw [parseListLoop, hw]
  simp only [LexBuf.next, Option.some.injEq, hb, imp_self, List.length_nil, ↓reduceIte,
    LexBuf.prev, Option.map_some, hw, hread, List.nil_append]

/-- **`parse_list_inner`** reads a list's text back, whatever the elements, given an element
reader that reads back each element's text. -/
theorem parseListInner_encodeList {enc : α → List Char} {f : α → T}
    (h : ReadsBack (parseListElem isElementTypeList makeNull generated) enc f) (xs : List α) :
    parseListInner isElementTypeList makeNull generated (encodeList enc xs) =
      some (.ok (xs.map f)) := by
  -- the opening brace is consumed, and the loop ends at the end of the input
  have hinner : ∀ (body : List Char) (elems : List T) (seen' : List Char),
      parseListLoop isElementTypeList makeNull generated (body.length + 2) [] ⟨['{'], body⟩ =
        some (.ok (elems, ⟨seen', []⟩)) →
      parseListInner isElementTypeList makeNull generated ('{' :: body) = some (.ok elems) := by
    intro body elems seen' hloop
    simp only [parseListInner, LexBuf.new, LexBuf.consume, LexBuf.peek, LexBuf.next,
      List.head?_cons, ↓reduceIte, Bool.not_true, Bool.false_eq_true, List.length_cons, hloop]
    rfl
  cases xs with
  | nil =>
    apply hinner
    have hclose : parseListLoop isElementTypeList makeNull generated (2 + 1) [] ⟨['{'], ['}']⟩ =
        some (.ok ([], ⟨['}', '{'], []⟩)) := parseListLoop_close 2 [] ['{'] []
    simpa [encodeElems] using hclose
  | cons x xs =>
    obtain ⟨c, rest, hrest, hc⟩ := sepElems_append_cons enc xs []
    have hbody : encodeElems enc (x :: xs) ++ ['}'] = enc x ++ c :: rest := by
      simp [encodeElems, ← hrest]
    have hfuel : (sepElems enc xs).length < (enc x ++ c :: rest).length + 1 := by
      have := congrArg List.length hrest
      simp only [List.length_append, List.length_cons, List.length_nil] at this ⊢
      omega
    refine hinner _ _ ('}' :: ((sepElems enc xs).reverse ++ ((enc x).reverse ++ ['{']))) ?_
    rw [hbody, parseListLoop_first h x _ _ rest hc]
    generalize (enc x ++ c :: rest).length + 1 = n at hfuel ⊢
    rw [← hrest, parseListLoop_sepElems h xs n [f x] _ [] (by simp) hfuel]
    simp

end Loop

/-- The text elements read back: each element's text starts with `N`, a quote or a character
that is not special, and `parse_list_inner` reads it back. -/
theorem readsBack_text (isElementTypeList : Bool) :
    ReadsBack (parseListElem isElementTypeList none fun s => .ok (some s)) encodeText id where
  head x := by
    cases x with
    | none => exact ⟨'N', "ULL".toList, rfl, by decide, by decide⟩
    | some s =>
      by_cases hn : listElementEscaper.needsEscaping s = true
      · exact ⟨'"', escapeBody listElementEscaper s ++ ['"'], by simp [encodeText, hn, quoted],
          by decide, by decide⟩
      · obtain ⟨hne, -, hplain⟩ := plain_of_not_needsEscaping (by simpa using hn)
        obtain ⟨d, ds, rfl⟩ := List.exists_cons_of_ne_nil hne
        obtain ⟨hd, hws⟩ := hplain d (by simp)
        refine ⟨d, ds, by simp [encodeText, hn], hws, ?_⟩
        rintro rfl
        simp [isSpecialChar] at hd
  read x _ _ _ hc := parseListElem_text isElementTypeList x hc

/-- **`parse_list`** reads back the text of a text list. -/
theorem parseList_text (isElementTypeList : Bool) (xs : List (Option (List Char))) :
    parseList isElementTypeList none (fun s => .ok (some s)) (encodeList encodeText xs) =
      some (.ok xs) := by
  simp [parseList, parseListInner_encodeList (readsBack_text isElementTypeList), Except.mapError]

/-! ## Nested lists -/

section Embedded

variable {depth : Nat} {inEscape : Bool} {seen rest : List Char}

theorem lexEmbeddedLoop_zero : lexEmbeddedLoop 0 inEscape seen rest = .ok ⟨seen, rest⟩ := by
  cases rest with
  | nil => rw [lexEmbeddedLoop_nil, if_pos rfl]
  | cons c rest => rw [lexEmbeddedLoop_cons, if_pos rfl]

theorem lexEmbeddedLoop_escape (hd : depth ≠ 0) (c : Char) :
    lexEmbeddedLoop depth inEscape seen ('\\' :: c :: rest) =
      lexEmbeddedLoop depth inEscape (c :: '\\' :: seen) rest := by
  rw [lexEmbeddedLoop_cons, if_neg hd, if_pos rfl]

theorem lexEmbeddedLoop_quote (hd : depth ≠ 0) :
    lexEmbeddedLoop depth inEscape seen ('"' :: rest) =
      lexEmbeddedLoop depth (!inEscape) ('"' :: seen) rest := by
  rw [lexEmbeddedLoop_cons, if_neg hd, if_neg (by decide), if_pos rfl]

theorem lexEmbeddedLoop_close (hd : depth ≠ 0) :
    lexEmbeddedLoop depth false seen ('}' :: rest) =
      lexEmbeddedLoop (depth - 1) false ('}' :: seen) rest := by
  rw [lexEmbeddedLoop_cons, if_neg hd, if_neg (by decide), if_neg (by decide), if_neg (by decide),
    if_pos (by decide)]

/-- A character that is neither an escape nor a quote, and no brace outside quotes, changes
nothing. -/
theorem lexEmbeddedLoop_plain_cons (hd : depth ≠ 0) {c : Char} (hc : ¬IsEscaped c)
    (hb : inEscape = true ∨ (c ≠ '{' ∧ c ≠ '}')) :
    lexEmbeddedLoop depth inEscape seen (c :: rest) =
      lexEmbeddedLoop depth inEscape (c :: seen) rest := by
  simp only [IsEscaped, not_or] at hc
  rw [lexEmbeddedLoop_cons, if_neg hd, if_neg hc.1, if_neg hc.2]
  rcases hb with rfl | ⟨hb₁, hb₂⟩ <;> simp [*]

/-- Inside quotes, an escaped text changes nothing: each escape character skips the character
after it. -/
theorem lexEmbeddedLoop_escapeBody (hd : depth ≠ 0) (s : List Char) :
    lexEmbeddedLoop depth true seen (escapeBody listElementEscaper s ++ rest) =
      lexEmbeddedLoop depth true ((escapeBody listElementEscaper s).reverse ++ seen) rest := by
  induction s generalizing seen with
  | nil => simp
  | cons c s ih =>
    rw [escapeBody_cons]
    by_cases hc : IsEscaped c
    · simp only [if_pos hc, List.cons_append, List.nil_append]
      rw [show listElementEscaper.escapeChar c = '\\' from rfl, lexEmbeddedLoop_escape hd, ih]
      simp
    · simp only [if_neg hc, List.cons_append, List.nil_append]
      rw [lexEmbeddedLoop_plain_cons hd hc (.inl rfl), ih]
      simp

/-- Outside quotes, a text with no special character changes nothing. -/
theorem lexEmbeddedLoop_plain (hd : depth ≠ 0) {t : List Char}
    (ht : ∀ c ∈ t, isSpecialChar c = false) :
    lexEmbeddedLoop depth false seen (t ++ rest) =
      lexEmbeddedLoop depth false (t.reverse ++ seen) rest := by
  induction t generalizing seen with
  | nil => simp
  | cons c t ih =>
    have hc := ht c (by simp)
    simp only [isSpecialChar, Bool.or_eq_false_iff, decide_eq_false_iff_not] at hc
    rw [List.cons_append, lexEmbeddedLoop_plain_cons hd (by simp [IsEscaped, hc.1.2, hc.2])
      (.inr ⟨hc.1.1.1.1, hc.1.1.1.2⟩), ih (fun d hd => ht d (by simp [hd]))]
    simp

/-- An element's text changes neither the depth nor whether the lexer is inside quotes. -/
theorem lexEmbeddedLoop_encodeText (hd : depth ≠ 0) (x : Option (List Char)) :
    lexEmbeddedLoop depth false seen (encodeText x ++ rest) =
      lexEmbeddedLoop depth false ((encodeText x).reverse ++ seen) rest := by
  cases x with
  | none => exact lexEmbeddedLoop_plain hd (by simp [encodeText, isSpecialChar])
  | some s =>
    by_cases hn : listElementEscaper.needsEscaping s = true
    · simp only [encodeText, hn, ↓reduceIte, quoted, List.cons_append, List.append_assoc]
      rw [lexEmbeddedLoop_quote hd, Bool.not_false, lexEmbeddedLoop_escapeBody hd,
        List.nil_append, lexEmbeddedLoop_quote hd, Bool.not_true]
      simp
    · obtain ⟨-, -, hplain⟩ := plain_of_not_needsEscaping (by simpa using hn)
      simp only [encodeText, hn, Bool.false_eq_true, ↓reduceIte]
      exact lexEmbeddedLoop_plain hd fun c hc => (hplain c hc).1

/-- The elements after the first change nothing either. -/
theorem lexEmbeddedLoop_sepElems (hd : depth ≠ 0) (xs : List (Option (List Char))) :
    lexEmbeddedLoop depth false seen (sepElems encodeText xs ++ rest) =
      lexEmbeddedLoop depth false ((sepElems encodeText xs).reverse ++ seen) rest := by
  induction xs generalizing seen with
  | nil => simp [sepElems]
  | cons x xs ih =>
    simp only [sepElems, List.flatMap_cons, List.cons_append, List.append_assoc] at ih ⊢
    rw [lexEmbeddedLoop_plain_cons hd (by simp [IsEscaped]) (.inr ⟨by decide, by decide⟩),
      lexEmbeddedLoop_encodeText hd, ih]
    simp

end Embedded

/-- The elements of a list change nothing. -/
theorem lexEmbeddedLoop_encodeElems {depth : Nat} {seen rest : List Char} (hd : depth ≠ 0)
    (xs : List (Option (List Char))) :
    lexEmbeddedLoop depth false seen (encodeElems encodeText xs ++ rest) =
      lexEmbeddedLoop depth false ((encodeElems encodeText xs).reverse ++ seen) rest := by
  cases xs with
  | nil => simp [encodeElems]
  | cons x xs =>
    simp only [encodeElems, List.append_assoc]
    rw [lexEmbeddedLoop_encodeText hd, lexEmbeddedLoop_sepElems hd]
    simp

/-- The slice from a position is what was read since. -/
theorem sliceFrom_append (t seen rest : List Char) :
    LexBuf.sliceFrom ⟨t.reverse ++ seen, rest⟩ seen.length = t := by
  have hlen : (t.reverse ++ seen).length = (seen.reverse ++ t).length := by simp [Nat.add_comm]
  simp only [LexBuf.sliceFrom, LexBuf.inner, LexBuf.pos, List.reverse_append,
    List.reverse_reverse, hlen, List.append_assoc]
  rw [← List.append_assoc, List.take_left, List.drop_left' (by simp)]

/-- **`lex_embedded_element`** reads a formatted text list as its text, braces included. -/
theorem lexEmbeddedElement_list (xs : List (Option (List Char))) (seen rest : List Char) :
    lexEmbeddedElement ⟨seen, encodeList encodeText xs ++ rest⟩ =
      some (.ok (encodeList encodeText xs, ⟨(encodeList encodeText xs).reverse ++ seen, rest⟩)) := by
  -- the closing brace takes the depth back to zero
  have hloop : lexEmbeddedLoop 1 false ('{' :: seen) (encodeElems encodeText xs ++ '}' :: rest) =
      .ok ⟨(encodeList encodeText xs).reverse ++ seen, rest⟩ := by
    rw [lexEmbeddedLoop_encodeElems one_ne_zero, lexEmbeddedLoop_close one_ne_zero, Nat.sub_self,
      lexEmbeddedLoop_zero]
    simp [encodeList]
  have hbuf : encodeList encodeText xs ++ rest = '{' :: (encodeElems encodeText xs ++ '}' :: rest) := by
    simp [encodeList]
  rw [hbuf]
  simp only [lexEmbeddedElement, LexBuf.next, LexBuf.pos, hloop, Except.map, sliceFrom_append]

/-- The text of one element of a list of text lists: `NULL` for a null, and the inner list as
`format_list` writes it. -/
def encodeTextList : Option (List (Option (List Char))) → List Char
  | none => "NULL".toList
  | some xs => encodeList encodeText xs

/-- The formatter of a list of text lists writes each inner list's text, which needs no
escaping. -/
theorem writes_textList : Writes formatTextListElem encodeTextList := by
  intro buf x
  cases x with
  | none => exact .inl rfl
  | some xs => exact .inl (formatList_writes writes_text buf xs)

/-- `parse_list_inner` with list elements reads each inner list back as its text. -/
theorem readsBack_textList :
    ReadsBack (parseListElem true none fun s => .ok (some s)) encodeTextList
      (Option.map (encodeList encodeText)) where
  head x := by
    cases x with
    | none => exact ⟨'N', "ULL".toList, rfl, by decide, by decide⟩
    | some xs => exact ⟨'{', encodeElems encodeText xs ++ ['}'], rfl, by decide, by decide⟩
  read x seen rest c hc := by
    cases x with
    | none => exact parseListElem_text true none hc
    | some xs =>
      have hb : encodeTextList (some xs) ++ c :: rest = encodeList encodeText xs ++ c :: rest := rfl
      rw [hb, parseListElem_brace _ _ (by simp [LexBuf.peek, encodeList]),
        lexEmbeddedElement_list]
      simp [Except.map, Except.bind, encodeTextList]

/-! ## Arrays -/

section Row

variable {α E : Type} {cell : List Char → List α → Option (Except E (List Char × List α))}
  {enc : α → List Char}

/-- After the first position, each position of a row writes a comma and one element. -/
theorem formatArrayRow_sepElems (hcell : ∀ buf x rest, cell buf (x :: rest) = some (.ok (buf ++ enc x, rest))) :
    ∀ (xs : List α) (j : Nat) (buf : List Char), 0 < j →
      formatArrayRow cell xs.length j buf xs = some (.ok (buf ++ sepElems enc xs, []))
  | [], j, buf, _ => by simp [formatArrayRow, sepElems]
  | x :: xs, j, buf, hj => by
    rw [List.length_cons, formatArrayRow, if_pos hj, hcell]
    dsimp only
    rw [formatArrayRow_sepElems hcell xs (j + 1) _ (by omega)]
    simp [sepElems]

/-- **A row of `format_array_inner`** writes its elements' texts with commas between them. -/
theorem formatArrayRow_encodeElems (enc : α → List Char)
    (hcell : ∀ buf x rest, cell buf (x :: rest) = some (.ok (buf ++ enc x, rest)))
    (xs : List α) (buf : List Char) :
    formatArrayRow cell xs.length 0 buf xs = some (.ok (buf ++ encodeElems enc xs, [])) := by
  cases xs with
  | nil => simp [formatArrayRow, encodeElems]
  | cons x xs =>
    rw [List.length_cons, formatArrayRow, if_neg (by omega), hcell]
    dsimp only
    rw [formatArrayRow_sepElems hcell xs (0 + 1) _ (by omega)]
    simp [encodeElems]

end Row

/-- **`format_array`** with one dimension of lower bound 1 and the elements' number as its length
writes what `format_list` writes. -/
theorem formatArray_text (xs : List (Option (List Char))) (len : UInt64)
    (hlen : len.toNat = xs.length) :
    formatArray [] [⟨.lit 1, len⟩] xs formatTextElem =
      some (.ok (encodeList encodeText xs, .yes)) := by
  -- the lower bound is 1, so no bounds are written
  have hhead : ([⟨.lit 1, len⟩] : List Row.ArrayDimension).any
      (fun d => decide (d.lowerBound.val ≠ 1)) = false := by
    simp [Signed.SInt.lit]
  simp only [formatArray, formatArrayInner, hhead, Bool.false_eq_true, ↓reduceIte, List.nil_append]
  rw [hlen, formatArrayRow_encodeElems encodeText]
  · simp [encodeList, Except.map]
  · -- the one dimension's cell writes an element's text
    intro buf x rest
    rcases writes_text buf x with hx | ⟨t, hx, he⟩
    · simp [hx]
    · simp [hx, he]

/-! ### The array builder on one dimension -/

namespace ArrayBuilder

variable (ch : Char) (k : Nat) (es : List (Option (List Char)))

/-- An element is staged in the one dimension and kept. -/
theorem insertElement_one (x : Option (List Char)) :
    insertElement ⟨ch, [⟨none, false, k⟩], 0, false, es⟩ x =
      some (.ok ⟨ch, [⟨none, true, k⟩], 0, false, es ++ [x]⟩) := by
  simp [insertElement, stageElement, Except.map]

/-- A comma commits the staged element. -/
theorem commitElement_one :
    commitElement ⟨ch, [⟨none, true, k⟩], 0, false, es⟩ true =
      some (.ok ⟨ch, [⟨none, false, k + 1⟩], 0, false, es⟩) := by
  simp [commitElement]

/-- The closing brace commits the staged element, fixes the dimension's length and seals the
builder. -/
theorem exitDim_one :
    exitDim ⟨ch, [⟨none, true, k⟩], 0, false, es⟩ =
      some (.ok ⟨ch, [⟨some (k + 1), false, 0⟩], 0, true, es⟩) := by
  simp [exitDim, commitElement]

/-- The closing brace of an empty array fixes the length at zero. -/
theorem exitDim_empty :
    exitDim ⟨ch, [⟨none, false, 0⟩], 0, false, es⟩ =
      some (.ok ⟨ch, [⟨some 0, false, 0⟩], 0, true, es⟩) := by
  simp [exitDim, commitElement]

end ArrayBuilder

section Build

variable {ch : Char} {k : Nat} {es : List (Option (List Char))} {seen rest : List Char}

/-- **An element round of `build`**: the element's first character is put back, the element is
lexed and staged in the one dimension. -/
theorem buildCommand_text (ch : Char) (k : Nat) (es : List (Option (List Char)))
    (seen rest : List Char) (x : Option (List Char)) {c : Char} (hc : c = ',' ∨ c = '}') :
    ∃ d ds, encodeText x = d :: ds ∧ isAsciiWhitespace d = false ∧ d ≠ '{' ∧
      buildCommand ⟨ch, [⟨none, false, k⟩], 0, false, es⟩ d ⟨d :: seen, ds ++ c :: rest⟩ =
        some (.ok (⟨d, [⟨none, true, k⟩], 0, false, es ++ [x]⟩,
          ⟨(encodeText x).reverse ++ seen, c :: rest⟩)) := by
  by_cases hq : ∃ s, x = some s ∧ listElementEscaper.needsEscaping s = true
  · -- a quoted element
    obtain ⟨s, rfl, hn⟩ := hq
    have hlex := lexQuotedElement_quoted seen (c :: rest) s
    simp only [quoted, List.cons_append, List.append_assoc, List.nil_append] at hlex
    refine ⟨'"', escapeBody listElementEscaper s ++ ['"'], by simp [encodeText, hn, quoted],
      by decide, by decide, ?_⟩
    simp [buildCommand, LexBuf.prev, hlex, ArrayBuilder.insertElement_one, encodeText, hn, quoted,
      Except.map]
  · have hx : ∀ s, x = some s → listElementEscaper.needsEscaping s = false := by
      rintro s rfl
      simpa using hq
    obtain ⟨d, ds, hd, hsp, hws, hlex⟩ :=
      lexUnquotedElement_text hx seen rest hc
    simp only [isSpecialChar, Bool.or_eq_false_iff, decide_eq_false_iff_not] at hsp
    refine ⟨d, ds, hd, hws, hsp.1.1.1.1, ?_⟩
    rw [hd] at hlex
    simp only [List.cons_append] at hlex
    simp [buildCommand, LexBuf.prev, hsp.1.1.1.1, hsp.1.1.1.2, hsp.1.1.2, hsp.2, hlex,
      ArrayBuilder.insertElement_one, hd, Except.map]

/-- A comma round of `build` commits the staged element. -/
theorem buildCommand_comma (b : LexBuf) :
    buildCommand ⟨ch, [⟨none, true, k⟩], 0, false, es⟩ ',' b =
      some (.ok (⟨',', [⟨none, false, k + 1⟩], 0, false, es⟩, b)) := by
  simp [buildCommand, ArrayBuilder.commitElement_one, Except.map]

/-- The closing brace seals the builder. -/
theorem buildCommand_close (b : LexBuf) :
    buildCommand ⟨ch, [⟨none, true, k⟩], 0, false, es⟩ '}' b =
      some (.ok (⟨'}', [⟨some (k + 1), false, 0⟩], 0, true, es⟩, b)) := by
  simp [buildCommand, ArrayBuilder.exitDim_one, Except.map]

/-- The closing brace of an empty array seals the builder. -/
theorem buildCommand_close_empty (b : LexBuf) :
    buildCommand ⟨ch, [⟨none, false, 0⟩], 0, false, es⟩ '}' b =
      some (.ok (⟨'}', [⟨some 0, false, 0⟩], 0, true, es⟩, b)) := by
  simp [buildCommand, ArrayBuilder.exitDim_empty, Except.map]

/-- A round of `build` at a character that is not whitespace runs one command. -/
theorem buildLoop_cons {fuel : Nat} {a a' : ArrayBuilder} {c : Char} {b' : LexBuf}
    (hws : isAsciiWhitespace c = false) (hs : a.sealed = false)
    (h : buildCommand a c ⟨c :: seen, rest⟩ = some (.ok (a', b'))) :
    buildLoop (fuel + 1) a ⟨seen, c :: rest⟩ = buildLoop fuel a' b' := by
  rw [buildLoop, takeWhile_of_head (by simp [hws])]
  simp [LexBuf.next, hs, h]

/-- The round at the end of the input ends the loop of a sealed builder. -/
theorem buildLoop_end {fuel : Nat} {a : ArrayBuilder} (hs : a.sealed = true) :
    buildLoop (fuel + 1) a ⟨seen, []⟩ = some (.ok (a, ⟨seen, []⟩)) := by
  rw [buildLoop, takeWhile_of_head (by simp)]
  simp [LexBuf.next, hs]

/-- **The loop of `build`**, past the first element, reads a comma and an element in two rounds,
until the closing brace seals the builder with the dimension's length. -/
theorem buildLoop_sepElems :
    ∀ (xs : List (Option (List Char))) (fuel k : Nat) (ch : Char) (es : List (Option (List Char)))
      (seen : List Char), (sepElems encodeText xs ++ ['}']).length < fuel →
      ∃ seen', buildLoop fuel ⟨ch, [⟨none, true, k⟩], 0, false, es⟩
          ⟨seen, sepElems encodeText xs ++ ['}']⟩ =
        some (.ok (⟨'}', [⟨some (k + 1 + xs.length), false, 0⟩], 0, true, es ++ xs⟩, ⟨seen', []⟩))
  | [], fuel, k, ch, es, seen, hfuel => by
    obtain ⟨f, rfl⟩ : ∃ f, fuel = f + 2 := ⟨fuel - 2, by simp [sepElems] at hfuel; omega⟩
    refine ⟨'}' :: seen, ?_⟩
    rw [show sepElems encodeText [] ++ ['}'] = ['}'] from rfl,
      buildLoop_cons (by decide) rfl (buildCommand_close _), buildLoop_end rfl]
    simp
  | x :: xs, fuel, k, ch, es, seen, hfuel => by
    obtain ⟨c, rest, hrest, hc⟩ := sepElems_append_cons encodeText xs []
    obtain ⟨d, ds, hd, hws, -, hcmd⟩ :=
      buildCommand_text ',' (k + 1) es (',' :: seen) rest x hc
    have hbuf : sepElems encodeText (x :: xs) ++ ['}'] = ',' :: d :: (ds ++ c :: rest) := by
      simp [sepElems, ← hrest, hd]
    have hlen : (sepElems encodeText xs ++ ['}']).length < fuel - 2 := by
      rw [hbuf] at hfuel
      have := congrArg List.length hrest
      simp only [List.length_append, List.length_cons, List.length_nil] at hfuel this ⊢
      omega
    obtain ⟨f, rfl⟩ : ∃ f, fuel = f + 2 := ⟨fuel - 2, by omega⟩
    obtain ⟨seen', hloop⟩ := buildLoop_sepElems xs f (k + 1) d (es ++ [x])
      ((encodeText x).reverse ++ ',' :: seen) (by simpa using hlen)
    refine ⟨seen', ?_⟩
    rw [hbuf, buildLoop_cons (by decide) rfl (buildCommand_comma _),
      buildLoop_cons hws rfl hcmd, ← hrest, hloop]
    rw [show k + 1 + 1 + xs.length = k + 1 + (x :: xs).length by simp; omega]
    simp

/-- The leading braces end at the first character that is neither whitespace nor a brace. -/
theorem countDims_of_head {dims : Nat} {c : Char} (hws : isAsciiWhitespace c = false)
    (hc : c ≠ '{') : countDims dims seen (c :: rest) = (dims, ⟨seen, c :: rest⟩) := by
  simp [countDims, hws, hc]

/-- **`build`** reads a text array back: its elements, and one dimension of lower bound 1 unless
it is empty. -/
theorem build_text (xs : List (Option (List Char))) :
    build (encodeList encodeText xs) =
      some (.ok (xs, if xs = [] then [] else [⟨.lit 1, UInt64.ofNat xs.length⟩])) := by
  -- no bounds, then the one opening brace
  have hstart : ∀ body : List Char,
      (LexBuf.new ('{' :: body)).consume '[' = (false, ⟨[], '{' :: body⟩) ∧
        (LexBuf.takeWhile isAsciiWhitespace ⟨[], '{' :: body⟩).2.consume '{' =
          (true, ⟨['{'], body⟩) := by
    intro body
    rw [takeWhile_of_head (by simp [isAsciiWhitespace])]
    simp [LexBuf.new, LexBuf.consume, LexBuf.peek, LexBuf.next]
  cases xs with
  | nil =>
    have hclose : buildCommand ⟨'{', [⟨none, false, 0⟩], 0, false, []⟩ '}' ⟨['}', '{'], []⟩ =
        some (.ok (⟨'}', [⟨some 0, false, 0⟩], 0, true, []⟩, ⟨['}', '{'], []⟩)) :=
      buildCommand_close_empty _
    have hloop : buildLoop (2 + 1) ⟨'{', [⟨none, false, 0⟩], 0, false, []⟩ ⟨['{'], ['}']⟩ =
        buildLoop 2 ⟨'}', [⟨some 0, false, 0⟩], 0, true, []⟩ ⟨['}', '{'], []⟩ :=
      buildLoop_cons (by decide) rfl hclose
    rw [buildLoop_end rfl] at hloop
    simp only [build, encodeList, encodeElems, List.nil_append, (hstart ['}']).1, (hstart ['}']).2]
    simp [countDims, isAsciiWhitespace, hloop]
  | cons x xs =>
    obtain ⟨c, rest, hrest, hc⟩ := sepElems_append_cons encodeText xs []
    obtain ⟨d, ds, hd, hws, hb, hcmd⟩ :=
      buildCommand_text '{' 0 [] ['{'] rest x hc
    have hbody : encodeElems encodeText (x :: xs) ++ ['}'] = d :: (ds ++ c :: rest) := by
      simp [encodeElems, ← hrest, hd]
    simp only [build, encodeList, hbody, (hstart _).1, (hstart _).2, Bool.false_eq_true,
      ↓reduceIte, Bool.not_true, countDims_of_head hws hb, List.replicate_one, Nat.sub_self]
    rw [List.length_cons, buildLoop_cons hws rfl hcmd]
    generalize hn : (d :: (ds ++ c :: rest)).length = n
    have hfuel : (sepElems encodeText xs ++ ['}']).length < n := by
      rw [← hn, ← hrest]
      simp
    rw [← hrest]
    obtain ⟨seen', hloop⟩ := buildLoop_sepElems xs (n + 1) 0 d ([] ++ [x])
      ((encodeText x).reverse ++ ['{']) (by omega)
    rw [hloop]
    simp only [List.nil_append, List.singleton_append, List.isEmpty_cons, Bool.false_eq_true,
      ↓reduceIte, List.mapM_cons, List.mapM_nil, reduceCtorEq, List.length_cons, Nat.zero_add]
    simp [Nat.add_comm, Signed.SInt.one_eq_lit]

end Build

/-- An element generator that keeps every raw element keeps the list. -/
theorem mapM_eq_ok {ε α : Type} {f : α → Except ε α} (hf : ∀ x, f x = .ok x) (xs : List α) :
    xs.mapM f = .ok xs := by
  have hpure : f = pure := funext hf
  rw [hpure, List.mapM_pure, List.map_id']
  rfl

/-- **`parse_array`** reads back the text of a one-dimensional text array. -/
theorem parseArray_text (xs : List (Option (List Char))) :
    parseArray none (fun s => .ok (some s)) (encodeList encodeText xs) =
      some (.ok (xs, if xs = [] then [] else [⟨.lit 1, UInt64.ofNat xs.length⟩])) := by
  simp only [parseArray, parseArrayInner, build_text, Option.map_some, Except.bind]
  rw [mapM_eq_ok (fun x => by cases x <;> rfl)]
  rfl

/-! ## The round trips -/

/-- A text list, a one-dimensional text array of lower bound 1, and a list of text lists are
each read back from what the formatter writes: the elements, nulls as nulls, the array's one
dimension unless it is empty, and each inner list as the text `format_list` wrote for it. -/
theorem text_list_array_round_trip :
    (∀ xs : List (Option (List Char)), ∃ text,
      formatList [] xs formatTextElem = some (.ok (text, .yes)) ∧
      parseList false none (fun s => .ok (some s)) text = some (.ok xs)) ∧
    (∀ (xs : List (Option (List Char))) (len : UInt64), len.toNat = xs.length → ∃ text,
      formatArray [] [⟨.lit 1, len⟩] xs formatTextElem = some (.ok (text, .yes)) ∧
      parseArray none (fun s => .ok (some s)) text =
        some (.ok (xs, if xs = [] then [] else [⟨.lit 1, len⟩]))) ∧
    (∀ xss : List (Option (List (Option (List Char)))), ∃ text texts,
      formatList [] xss formatTextListElem = some (.ok (text, .yes)) ∧
      parseList true none (fun s => .ok (some s)) text = some (.ok texts) ∧
      List.Forall₂ (Option.Rel fun xs t => formatList [] xs formatTextElem = some (.ok (t, .yes)))
        xss texts) := by
  refine ⟨fun xs => ?_, fun xs len hlen => ?_, fun xss => ?_⟩
  · exact ⟨_, formatList_writes writes_text [] xs, parseList_text false xs⟩
  · refine ⟨_, formatArray_text xs len hlen, ?_⟩
    rw [parseArray_text, ← hlen, UInt64.ofNat_toNat]
  · refine ⟨_, xss.map (Option.map (encodeList encodeText)),
      formatList_writes writes_textList [] xss, ?_, ?_⟩
    · simp [parseList, parseListInner_encodeList readsBack_textList, Except.mapError]
    · -- each inner list's text is what `format_list` writes for it
      rw [List.forall₂_map_right_iff]
      refine List.forall₂_same.mpr fun x _ => ?_
      cases x with
      | none => exact .none
      | some xs => exact .some (formatList_writes writes_text [] xs)

theorem text_array_round_trip_single :
    (1 : UInt64).toNat = [some ['a']].length ∧ ∃ text,
      formatArray [] [⟨.lit 1, 1⟩] [some ['a']] formatTextElem = some (.ok (text, .yes)) ∧
      parseArray none (fun s => .ok (some s)) text =
        some (.ok ([some ['a']], if [some ['a']] = [] then [] else [⟨.lit 1, 1⟩])) :=
  ⟨by decide, text_list_array_round_trip.2.1 [some ['a']] 1 (by decide)⟩

end Materialize.Strconv
