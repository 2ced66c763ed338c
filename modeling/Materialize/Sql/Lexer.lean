import Mathlib

/-!
# The SQL lexer

`lex` (`sql-lexer/src/lexer.rs`) turns a query into tokens, each with the byte offset at which it
starts. A `LexBuf` is a cursor over the query's chars; here the lexer reads the chars that are
left, and a position is the number of bytes read (`cursor`). Where the source reads a char and
puts it back with `prev`, the model does not read it.

Each piece of the lexer is a function of the chars left that returns what it read and the chars
after it:
- comments (`lexLineComment`, `lexMultilineComment`), identifiers (`lexIdent`,
  `lexQuotedIdent`), numbers (`lexNumber`), parameters (`lexParameter`), operators (`lexOp`);
- strings: one loop over adjacent strings (`adjacentStrings`) around the body of one string,
  plain (`stringBody`) or with backslash escapes (`extendedBody`), and dollar-quoted strings
  (`lexDollarString`);
- `lexOne`, one turn of the loop of `lex`, and `lexLoop`, the loop.

Every piece leaves a suffix of what it was given, and `lexOne` reads at least the char it
dispatches on (`lexOne_progress`): the loop terminates on the length of what is left.

The keyword table (`keywords.txt`) and Unicode lowercasing are what the lexer takes from outside:
`LexEnv` holds both, with lowercasing fixed on ASCII text only. The debug assertion of `lex` that
every offset is a char boundary is the failure of `Option`.
-/

namespace Materialize.Sql

/-! ## Tokens and errors -/

/-- `Token`. A keyword is its name in the keyword table. -/
inductive Token
  | keyword (kw : String)
  | ident (s : List Char)
  | string (s : List Char)
  | hexString (s : List Char)
  | number (s : List Char)
  | parameter (n : Nat)
  | op (s : List Char)
  | star
  | eq
  | lParen
  | rParen
  | lBracket
  | rBracket
  | dot
  | comma
  | colon
  | doubleColon
  | semicolon
  | arrow
  deriving DecidableEq, Repr

/-- `PosToken`: a token and the byte offset it starts at. -/
structure PosToken where
  kind : Token
  offset : Nat
  deriving DecidableEq, Repr

/-- `LexerError`: a message and the byte position it is about. -/
structure LexerError where
  message : String
  pos : Nat
  deriving DecidableEq, Repr

/-- `LexerError::new`. -/
def LexerError.new (pos : Nat) (message : String) : LexerError := ⟨message, pos⟩

theorem map_eq_ok {ε α β : Type} {f : α → β} {x : Except ε α} {b : β} :
    x.map f = .ok b ↔ ∃ a, x = .ok a ∧ f a = b := by
  cases x <;> simp [Except.map]

theorem map_eq_error {ε α β : Type} {f : α → β} {x : Except ε α} {e : ε} :
    x.map f = .error e ↔ x = .error e := by
  cases x <;> simp [Except.map]

theorem bind_eq_ok {ε α β : Type} {x : Except ε α} {f : α → Except ε β} {b : β} :
    x >>= f = .ok b ↔ ∃ a, x = .ok a ∧ f a = .ok b := by
  cases x <;> simp [bind, Except.bind]

/-- What the lexer takes from outside this file: the keyword table of `keywords.txt`, and Unicode
lowercasing (`str::to_lowercase`), which maps ASCII text char by char. -/
structure LexEnv where
  keywords : List String
  toLowercase : List Char → List Char
  toLowercase_ascii : ∀ s : List Char, (∀ c ∈ s, c.toNat < 128) →
    toLowercase s = s.map Char.toLower

/-- `Keyword::from_str`: the keyword whose name is `word` up to ASCII case (`UncasedStr`). -/
def LexEnv.parseKeyword (env : LexEnv) (word : List Char) : Option String :=
  env.keywords.find? fun kw => kw.toList.map Char.toLower == word.map Char.toLower

/-- A keyword found for a word is in the table, and equals the word up to ASCII case. -/
theorem LexEnv.parseKeyword_spec {env : LexEnv} {word : List Char} {kw : String}
    (h : env.parseKeyword word = some kw) :
    kw ∈ env.keywords ∧ kw.toList.map Char.toLower = word.map Char.toLower := by
  unfold LexEnv.parseKeyword at h
  have hfound := List.find?_some h
  exact ⟨List.mem_of_find?_eq_some h, beq_iff_eq.1 hfound⟩

/-! ## Bytes and positions -/

/-- The length of a string in UTF-8 bytes (`str::len`). -/
def byteLength (s : List Char) : Nat := (s.map Char.utf8Size).sum

@[simp] theorem byteLength_nil : byteLength [] = 0 := rfl

@[simp] theorem byteLength_cons (c : Char) (s : List Char) :
    byteLength (c :: s) = c.utf8Size + byteLength s := by
  simp [byteLength]

@[simp] theorem byteLength_append (s t : List Char) :
    byteLength (s ++ t) = byteLength s + byteLength t := by
  simp [byteLength]

theorem byteLength_le_of_suffix {l q : List Char} (h : l <:+ q) : byteLength l ≤ byteLength q := by
  obtain ⟨p, rfl⟩ := h
  simp

/-- The cursor of a `LexBuf` over a query of `total` bytes with `rest` left to read. -/
def cursor (total : Nat) (rest : List Char) : Nat := total - byteLength rest

/-- `str::is_char_boundary`: `b` is the byte offset of a char of `q`, or its length. -/
def isCharBoundary (q : List Char) (b : Nat) : Bool :=
  (List.range (q.length + 1)).any fun i => byteLength (q.take i) == b

/-- The position of what is left of a query is a char boundary of it. -/
theorem isCharBoundary_of_suffix {l q : List Char} (h : l <:+ q) :
    isCharBoundary q (byteLength q - byteLength l) := by
  obtain ⟨p, rfl⟩ := h
  simp only [isCharBoundary, List.any_eq_true, List.mem_range, beq_iff_eq]
  exact ⟨p.length, by simp, by simp⟩

/-- `MAX_IDENTIFIER_LENGTH`. -/
def maxIdentifierLength : Nat := 255

/-- `IdentString::new`: an identifier of at most `MAX_IDENTIFIER_LENGTH` bytes. -/
def identString (s : List Char) : Option (List Char) :=
  if byteLength s ≤ maxIdentifierLength then some s else none

/-! ## Classes of chars -/

/-- `char::is_ascii_whitespace`. -/
def isAsciiWhitespace (c : Char) : Bool :=
  c == ' ' || c == '\t' || c == '\n' || c == '\x0c' || c == '\r'

/-- The chars an identifier starts with: `'A'..='Z' | 'a'..='z' | '_' | '\u{80}'..=char::MAX`. -/
def isIdentStart (c : Char) : Bool :=
  ('A' ≤ c && c ≤ 'Z') || ('a' ≤ c && c ≤ 'z') || c == '_' || '\x80' ≤ c

/-- The chars an identifier continues with: also digits and `$`. -/
def isIdentChar (c : Char) : Bool :=
  ('A' ≤ c && c ≤ 'Z') || ('a' ≤ c && c ≤ 'z') || ('0' ≤ c && c ≤ '9') || c == '$' ||
    c == '_' || '\x80' ≤ c

theorem isIdentChar_of_isIdentStart {c : Char} (h : isIdentStart c) : isIdentChar c := by
  simp only [isIdentStart, isIdentChar, Bool.or_eq_true, Bool.and_eq_true, decide_eq_true_eq,
    beq_iff_eq] at h ⊢
  tauto

theorem not_isAsciiWhitespace_of_isIdentStart {c : Char} (h : isIdentStart c) :
    ¬isAsciiWhitespace c := by
  simp only [isAsciiWhitespace, Bool.or_eq_true, beq_iff_eq]
  rintro ((((rfl | rfl) | rfl) | rfl) | rfl) <;> exact absurd h (by decide)

/-- The chars of an operator: `+ - * / < > = ~ ! @ # % ^ & | ? ` and the backquote. -/
def isOpChar (c : Char) : Bool :=
  ['+', '-', '*', '/', '<', '>', '=', '~', '!', '@', '#', '%', '^', '&', '|', '\x60',
    '?'].contains c

/-- The operator chars outside the SQL standard's. -/
def isNonstandardOpChar (c : Char) : Bool :=
  ['~', '!', '@', '#', '%', '^', '&', '|', '\x60', '?'].contains c

/-! ## Comments and identifiers -/

/-- `lex_line_comment`: up to the end of the line. -/
def lexLineComment (rest : List Char) : List Char := rest.dropWhile (· != '\n')

/-- `lex_multiline_comment`, from after the opening `/*`: nested comments close in turn. -/
def lexMultilineComment (pos : Nat) : Nat → List Char → Except LexerError (List Char)
  | nesting, '*' :: '/' :: rest =>
    if nesting = 0 then .ok rest else lexMultilineComment pos (nesting - 1) rest
  | nesting, '/' :: '*' :: rest => lexMultilineComment pos (nesting + 1) rest
  | nesting, _ :: rest => lexMultilineComment pos nesting rest
  | _, [] => .error (.new pos "unterminated multiline comment")

theorem lexMultilineComment_suffix {pos nesting : Nat} {l r : List Char}
    (h : lexMultilineComment pos nesting l = .ok r) : r <:+ l := by
  fun_induction lexMultilineComment pos nesting l with
  | case1 rest =>
    cases h
    exact (List.suffix_cons _ _).trans (List.suffix_cons _ _)
  | case2 _ rest _ ih | case3 _ rest ih =>
    exact (ih h).trans ((List.suffix_cons _ _).trans (List.suffix_cons _ _))
  | case4 _ c rest _ _ ih => exact (ih h).trans (List.suffix_cons _ _)
  | case5 => cases h

/-- `lex_ident`, from the identifier's first char: a keyword, else the word lowercased. -/
def lexIdent (env : LexEnv) (pos : Nat) (input : List Char) :
    Except LexerError (Token × List Char) :=
  let word := input.takeWhile isIdentChar
  let rest := input.dropWhile isIdentChar
  match env.parseKeyword word with
  | some kw => .ok (.keyword kw, rest)
  | none =>
    match identString (env.toLowercase word) with
    | some small => .ok (.ident small, rest)
    | none => .error (.new pos "identifier length exceeds 255 bytes")

/-- `lex_ident` makes a keyword or an identifier of the word of identifier chars it reads. -/
theorem lexIdent_spec {env : LexEnv} {pos : Nat} {input r : List Char} {t : Token}
    (h : lexIdent env pos input = .ok (t, r)) :
    r = input.dropWhile isIdentChar ∧ ((∃ kw, t = .keyword kw) ∨ ∃ s, t = .ident s) := by
  simp only [lexIdent] at h
  split at h
  · next kw _ =>
    cases h
    exact ⟨rfl, .inl ⟨kw, rfl⟩⟩
  · split at h
    · next small _ =>
      cases h
      exact ⟨rfl, .inr ⟨small, rfl⟩⟩
    · cases h

/-- A strict suffix of the tail of a list is a strict suffix of the list. -/
theorem strictSuffix_cons {r l : List Char} (c : Char) (h : r <:+ l ∧ r.length < l.length) :
    r <:+ c :: l ∧ r.length < (c :: l).length :=
  ⟨h.1.trans (List.suffix_cons c l), by simp only [List.length_cons]; omega⟩

theorem strictSuffix_of_suffix {r l : List Char} (c : Char) (h : r <:+ l) :
    r <:+ c :: l ∧ r.length < (c :: l).length :=
  ⟨h.trans (List.suffix_cons c l), by simp only [List.length_cons]; have := h.length_le; omega⟩

/-- The loop of a quoted identifier or string, from after its opening `quote`: a doubled `quote`
is one, a lone one ends the text, and a null char or the end of the input is an error. The loops
of `lex_quoted_ident` and `lex_string` are this one, each with its quote and its messages. -/
def quotedLoop (quote : Char) (nullMessage unterminatedMessage : String) (pos : Nat) :
    List Char → List Char → Except LexerError (List Char × List Char)
  | s, c :: rest =>
    if c = quote then
      match rest with
      | d :: rest' =>
        if d = quote then quotedLoop quote nullMessage unterminatedMessage pos (s ++ [quote]) rest'
        else .ok (s, d :: rest')
      | [] => .ok (s, [])
    else if c = '\x00' then .error (.new pos nullMessage)
    else quotedLoop quote nullMessage unterminatedMessage pos (s ++ [c]) rest
  | _, [] => .error (.new pos unterminatedMessage)

/-- The quoted loop reads at least its closing quote. -/
theorem quotedLoop_progress {quote : Char} {m₁ m₂ : String} {pos : Nat} {s l s' rest : List Char}
    (h : quotedLoop quote m₁ m₂ pos s l = .ok (s', rest)) : rest <:+ l ∧ rest.length < l.length := by
  fun_induction quotedLoop quote m₁ m₂ pos s l with
  | case1 _ rest' ih => exact strictSuffix_cons _ (strictSuffix_cons _ (ih h))
  | case2 | case3 =>
    cases h
    exact strictSuffix_of_suffix _ (List.suffix_refl _)
  | case4 | case6 => cases h
  | case5 _ c rest' _ _ ih => exact strictSuffix_cons _ (ih h)

/-- The loop of `lex_quoted_ident`, from after the opening `"`. -/
def quotedIdentLoop (pos : Nat) : List Char → List Char → Except LexerError (List Char × List Char) :=
  quotedLoop '"' "null character in quoted identifier" "unterminated quoted identifier" pos

/-- `lex_quoted_ident`. -/
def lexQuotedIdent (pos : Nat) (rest : List Char) : Except LexerError (Token × List Char) := do
  let (s, rest) ← quotedIdentLoop pos [] rest
  match identString s with
  | some small => pure (.ident small, rest)
  | none => .error (.new pos "identifier length exceeds 255 bytes")

theorem lexQuotedIdent_spec {pos : Nat} {rest r : List Char} {t : Token}
    (h : lexQuotedIdent pos rest = .ok (t, r)) : r <:+ rest ∧ ∃ s, t = .ident s := by
  obtain ⟨⟨s, r'⟩, hloop, h⟩ := bind_eq_ok.1 h
  dsimp only at h
  split at h
  · next small _ =>
    cases h
    exact ⟨(quotedLoop_progress hloop).1, small, rfl⟩
  · cases h

/-! ## Strings -/

/-- The loop of `lex_string`: the body of one quoted string, from after its opening quote. -/
def stringBody (pos : Nat) : List Char → List Char → Except LexerError (List Char × List Char) :=
  quotedLoop '\'' "null character in string literal" "unterminated quoted string" pos

/-- The value of a hex digit. -/
def hexDigit (c : Char) : Option Nat :=
  if '0' ≤ c ∧ c ≤ '9' then some (c.toNat - '0'.toNat)
  else if 'a' ≤ c ∧ c ≤ 'f' then some (c.toNat - 'a'.toNat + 10)
  else if 'A' ≤ c ∧ c ≤ 'F' then some (c.toNat - 'A'.toNat + 10)
  else none

/-- `u32::from_str_radix(s, 16)`: an optional `+`, then at least one hex digit, below `2 ^ 32`. -/
def fromStrRadix16 (s : List Char) : Option Nat := do
  let digits := match s with
    | '+' :: ds => ds
    | ds => ds
  if digits = [] then none else
  let values ← digits.mapM hexDigit
  let n := values.foldl (fun n d => 16 * n + d) 0
  if n < 2 ^ 32 then some n else none

/-- `char::try_from(u32)`: a Unicode scalar value. -/
def charTryFrom (n : Nat) : Option Char :=
  if n < 0xD800 ∨ (0xDFFF < n ∧ n < 0x110000) then some (Char.ofNat n) else none

/-- `lex_unicode_escape`, from after `\u` or `\U`: `n` hex digits naming a char other than
`'\0'`. -/
def unicodeEscape (pos : Nat) (n : Nat) (rest : List Char) : Except LexerError Char :=
  if rest.length < n then .error (.new pos "invalid unicode escape")
  else
    match (fromStrRadix16 (rest.take n)).bind charTryFrom with
    | none => .error (.new pos "invalid unicode escape")
    | some ch => if ch = '\x00' then .error (.new pos "null character in string literal") else .ok ch

/-- The body of one string of `lex_extended_string`, from after its opening quote: as
`stringBody`, with backslash escapes. Octal and hexadecimal escapes are errors. -/
def extendedBody (total pos : Nat) (s : List Char) (l : List Char) :
    Except LexerError (List Char × List Char) :=
  match l with
  | '\'' :: '\'' :: rest => extendedBody total pos (s ++ ['\'']) rest
  | '\'' :: rest => .ok (s, rest)
  | '\\' :: 'b' :: rest => extendedBody total pos (s ++ ['\x08']) rest
  | '\\' :: 'f' :: rest => extendedBody total pos (s ++ ['\x0c']) rest
  | '\\' :: 'n' :: rest => extendedBody total pos (s ++ ['\n']) rest
  | '\\' :: 'r' :: rest => extendedBody total pos (s ++ ['\r']) rest
  | '\\' :: 't' :: rest => extendedBody total pos (s ++ ['\t']) rest
  | '\\' :: 'u' :: rest =>
    match unicodeEscape (cursor total rest - 2) 4 rest with
    | .ok ch => extendedBody total pos (s ++ [ch]) (rest.drop 4)
    | .error e => .error e
  | '\\' :: 'U' :: rest =>
    match unicodeEscape (cursor total rest - 2) 8 rest with
    | .ok ch => extendedBody total pos (s ++ [ch]) (rest.drop 8)
    | .error e => .error e
  | '\\' :: 'x' :: rest => .error (.new (cursor total rest - 2) "hexadecimal escapes are not supported")
  | '\\' :: '\x00' :: _ => .error (.new pos "null character in string literal")
  | '\\' :: c :: rest =>
    if '0' ≤ c ∧ c ≤ '7' then .error (.new (cursor total rest - 2) "octal escapes are not supported")
    else extendedBody total pos (s ++ [c]) rest
  | ['\\'] => .error (.new pos "unterminated quoted string")
  | '\x00' :: _ => .error (.new pos "null character in string literal")
  | c :: rest => extendedBody total pos (s ++ [c]) rest
  | [] => .error (.new pos "unterminated quoted string")
termination_by l.length

/-- `lex_to_adjacent_string`: skips the whitespace after a string, and tells whether another
string follows across a newline, whose opening quote it then reads. -/
def toAdjacentString (rest : List Char) : Bool × List Char :=
  let whitespace := rest.takeWhile isAsciiWhitespace
  let after := rest.dropWhile isAsciiWhitespace
  if whitespace.contains '\n' || whitespace.contains '\r' then
    match after with
    | '\'' :: after => (true, after)
    | after => (false, after)
  else (false, after)

/-- The body of one string, from after its opening quote at `pos`: it reads to the closing quote,
which it reads too. -/
structure StringBody where
  run : Nat → List Char → List Char → Except LexerError (List Char × List Char)
  progress : ∀ pos s l s' rest, run pos s l = .ok (s', rest) →
    rest <:+ l ∧ rest.length < l.length

theorem extendedBody_progress (total pos : Nat) (s l s' rest : List Char)
    (h : extendedBody total pos s l = .ok (s', rest)) : rest <:+ l ∧ rest.length < l.length := by
  fun_induction extendedBody total pos s l
  all_goals (try cases h)
  case case2.refl => exact strictSuffix_of_suffix _ (List.suffix_refl _)
  case case8 | case10 =>
    rename_i ih
    exact strictSuffix_cons _ (strictSuffix_of_suffix _ ((ih h).1.trans (List.drop_suffix _ _)))
  case case18 =>
    rename_i ih
    exact strictSuffix_of_suffix _ (ih h).1
  all_goals
    rename_i ih
    exact strictSuffix_cons _ (strictSuffix_of_suffix _ (ih h).1)

/-- The plain string body. -/
def plainBody : StringBody := ⟨stringBody, fun _ _ _ _ _ h => quotedLoop_progress h⟩

/-- The string body of `lex_extended_string`, over a query of `total` bytes. -/
def extendedStringBody (total : Nat) : StringBody :=
  ⟨extendedBody total, extendedBody_progress total⟩

theorem toAdjacentString_suffix (rest : List Char) : (toAdjacentString rest).2 <:+ rest := by
  have h := List.dropWhile_suffix isAsciiWhitespace (l := rest)
  simp only [toAdjacentString]
  split
  · split
    · next after heq => exact (List.suffix_cons _ _).trans (heq ▸ h)
    · exact h
  · exact h

/-- `lex_string` and `lex_extended_string` around their bodies: strings separated by whitespace
with a newline in it are one string. -/
def adjacentStrings (body : StringBody) (total : Nat) (s l : List Char) :
    Except LexerError (List Char × List Char) :=
  match h : body.run (cursor total l - 1) s l with
  | .error e => .error e
  | .ok (s, rest) =>
    match h' : toAdjacentString rest with
    | (true, after) => adjacentStrings body total s after
    | (false, after) => .ok (s, after)
termination_by l.length
decreasing_by
  have hlt := (body.progress _ _ _ _ _ h).2
  have hle := (toAdjacentString_suffix rest).length_le
  rw [h'] at hle
  exact Nat.lt_of_le_of_lt hle hlt

theorem adjacentStrings_suffix {body : StringBody} {total : Nat} {s l s' r : List Char}
    (h : adjacentStrings body total s l = .ok (s', r)) : r <:+ l := by
  fun_induction adjacentStrings body total s l with
  | case1 => cases h
  | case2 _ l _ rest hrun after hadj ih =>
    have hafter := toAdjacentString_suffix rest
    rw [hadj] at hafter
    exact (ih h).trans (hafter.trans (body.progress _ _ _ _ _ hrun).1)
  | case3 _ l _ rest hrun after hadj =>
    cases h
    have hafter := toAdjacentString_suffix rest
    rw [hadj] at hafter
    exact hafter.trans (body.progress _ _ _ _ _ hrun).1

/-- `take_to_delimiter`: the chars up to the first occurrence of `delim`, and those after it;
`none` if it does not occur. -/
def takeToDelimiter (delim : List Char) : List Char → Option (List Char × List Char)
  | [] => if delim.isPrefixOf [] then some ([], []) else none
  | c :: l =>
    if delim.isPrefixOf (c :: l) then some ([], (c :: l).drop delim.length)
    else (takeToDelimiter delim l).map fun (s, rest) => (c :: s, rest)

theorem takeToDelimiter_suffix {delim l s r : List Char}
    (h : takeToDelimiter delim l = some (s, r)) : r <:+ l := by
  fun_induction takeToDelimiter delim l generalizing s with
  | case1 =>
    cases h
    exact List.suffix_refl _
  | case2 => cases h
  | case3 c l _ =>
    cases h
    exact List.drop_suffix _ _
  | case4 c l _ ih =>
    obtain ⟨⟨s', r'⟩, hs, heq⟩ := Option.map_eq_some_iff.1 h
    cases heq
    exact (ih hs).trans (List.suffix_cons _ _)

/-- `lex_dollar_string`, from after the opening `$`: the tag up to the next `$`, then the string
up to the same tag. -/
def lexDollarString (total : Nat) (rest : List Char) : Except LexerError (Token × List Char) :=
  let pos := cursor total rest - 1
  let tag := '$' :: rest.takeWhile (· != '$') ++ ['$']
  let rest := (rest.dropWhile (· != '$')).drop 1
  match takeToDelimiter tag rest with
  | some (s, rest) =>
    if s.contains '\x00' then .error (.new pos "null character in string literal")
    else .ok (.string s, rest)
  | none => .error (.new pos "unterminated dollar-quoted string")

theorem lexDollarString_spec {total : Nat} {rest r : List Char} {t : Token}
    (h : lexDollarString total rest = .ok (t, r)) : r <:+ rest ∧ ∃ s, t = .string s := by
  simp only [lexDollarString] at h
  split at h
  · next s r' hdelim =>
    split at h
    · cases h
    · cases h
      have hafter := (List.drop_suffix 1 _).trans (List.dropWhile_suffix (· != '$') (l := rest))
      exact ⟨(takeToDelimiter_suffix hdelim).trans hafter, s, rfl⟩
  · cases h

/-! ## Numbers, parameters and operators -/

/-- The value of a string of decimal digits. -/
def decimalValue (digits : List Char) : Nat :=
  digits.foldl (fun n c => 10 * n + (c.toNat - '0'.toNat)) 0

/-- `lex_parameter`, from after the `$`: the digits, as a `usize`. -/
def lexParameter (total : Nat) (rest : List Char) : Except LexerError (Token × List Char) :=
  let pos := cursor total rest - 1
  let n := decimalValue (rest.takeWhile Char.isDigit)
  if n < 2 ^ 64 then .ok (.parameter n, rest.dropWhile Char.isDigit)
  else .error (.new pos "invalid parameter number")

theorem lexParameter_spec {total : Nat} {rest r : List Char} {t : Token}
    (h : lexParameter total rest = .ok (t, r)) :
    r = rest.dropWhile Char.isDigit ∧ ∃ n, t = .parameter n := by
  simp only [lexParameter] at h
  split at h
  · cases h
    exact ⟨rfl, _, rfl⟩
  · cases h

/-- The numbers `lex_number` makes: `[0-9]*(\.[0-9]*)?(E-?[0-9]+)?`. -/
def NumberShape (s : List Char) : Prop :=
  ∃ whole frac exp : List Char, s = whole ++ frac ++ exp ∧ (∀ c ∈ whole, c.isDigit) ∧
    (frac = [] ∨ ∃ ds, frac = '.' :: ds ∧ ∀ c ∈ ds, c.isDigit) ∧
    (exp = [] ∨ ∃ sign ds, exp = 'E' :: (sign ++ ds) ∧ (sign = [] ∨ sign = ['-']) ∧ ds ≠ [] ∧
      ∀ c ∈ ds, c.isDigit)

/-- The optional decimal part of `lex_number`: a `.` and the digits after it. -/
def numberFraction (s : List Char) : List Char → List Char × List Char
  | '.' :: r => (s ++ ['.'] ++ r.takeWhile Char.isDigit, r.dropWhile Char.isDigit)
  | r => (s, r)

theorem numberFraction_spec (s rest : List Char) :
    ((numberFraction s rest).2 <:+ rest ∧ ∀ r, rest = '.' :: r → (numberFraction s rest).2 <:+ r) ∧
      ((numberFraction s rest).1 = s ∨
        ∃ ds, (numberFraction s rest).1 = s ++ '.' :: ds ∧ ∀ c ∈ ds, c.isDigit) := by
  unfold numberFraction
  split
  · next r =>
    refine ⟨⟨(List.dropWhile_suffix _).trans (List.suffix_cons _ _), ?_⟩,
      .inr ⟨r.takeWhile Char.isDigit, by simp, ?_⟩⟩
    · rintro r' ⟨⟩
      exact List.dropWhile_suffix _
    · exact fun c hc => List.mem_takeWhile_imp hc
  · next r hr =>
    exact ⟨⟨List.suffix_refl _, fun r' h => absurd h (hr r')⟩, .inl rfl⟩

/-- The sign of an exponent: `-` is kept and `+` dropped, and either makes digits required. -/
def exponentSign : List Char → List Char × Bool × List Char
  | '-' :: r => (['-'], true, r)
  | '+' :: r => ([], true, r)
  | r => ([], false, r)

theorem exponentSign_spec (rest : List Char) :
    ((exponentSign rest).1 = [] ∨ (exponentSign rest).1 = ['-']) ∧ (exponentSign rest).2.2 <:+ rest := by
  unfold exponentSign
  split
  · exact ⟨.inr rfl, List.suffix_cons _ _⟩
  · exact ⟨.inl rfl, List.suffix_cons _ _⟩
  · exact ⟨.inl rfl, List.suffix_refl _⟩

/-- The optional exponent of `lex_number`, after its digits and decimal part: an `e` or `E`, then
an optional sign, then digits, which a sign makes required. Without digits and sign, the `e` is
given back. -/
def numberExponent (total : Nat) (s : List Char) : List Char →
    Except LexerError (List Char × List Char)
  | e :: rest =>
    if e = 'e' ∨ e = 'E' then
      let (sign, requireExp, rest') := exponentSign rest
      let exp := rest'.takeWhile Char.isDigit
      if requireExp ∧ exp = [] then
        .error (.new (cursor total rest' - 1) "missing required exponent")
      else if exp = [] then .ok (s, e :: rest)
      else .ok (s ++ ['E'] ++ sign ++ exp, rest'.dropWhile Char.isDigit)
    else .ok (s, e :: rest)
  | [] => .ok (s, [])

theorem numberExponent_spec {total : Nat} {s rest s' r : List Char}
    (h : numberExponent total s rest = .ok (s', r)) :
    r <:+ rest ∧ (s' = s ∨ ∃ sign ds, s' = s ++ 'E' :: (sign ++ ds) ∧ (sign = [] ∨ sign = ['-']) ∧
      ds ≠ [] ∧ ∀ c ∈ ds, c.isDigit) := by
  unfold numberExponent at h
  split at h
  · next e rest =>
    have hsign := exponentSign_spec rest
    split_ifs at h with he
    · generalize exponentSign rest = x at h hsign
      obtain ⟨sign, req, rest'⟩ := x
      obtain ⟨hsign, hsuf⟩ := hsign
      dsimp only at h hsign hsuf
      split_ifs at h with h1 h2
      · cases h
        exact ⟨List.suffix_refl _, .inl rfl⟩
      · cases h
        refine ⟨(List.dropWhile_suffix _).trans (hsuf.trans (List.suffix_cons _ _)), .inr ?_⟩
        exact ⟨sign, _, by simp, hsign, h2, fun c hc => List.mem_takeWhile_imp hc⟩
    · cases h
      exact ⟨List.suffix_refl _, .inl rfl⟩
  · cases h
    exact ⟨List.suffix_refl _, .inl rfl⟩

/-- `lex_number`, from the number's first char: digits, an optional decimal part, an optional
exponent. -/
def lexNumber (total : Nat) (input : List Char) : Except LexerError (Token × List Char) :=
  let (s, rest) := numberFraction (input.takeWhile Char.isDigit) (input.dropWhile Char.isDigit)
  (numberExponent total s rest).map fun (s, rest) => (.number s, rest)

/-- `lex_number` makes a number of the shape its regular expression gives, and reads past the
digits it starts with, and past the `.` that follows them. -/
theorem lexNumber_spec {total : Nat} {input r : List Char} {t : Token}
    (h : lexNumber total input = .ok (t, r)) :
    (r <:+ input.dropWhile Char.isDigit ∧
      ∀ r₁, input.dropWhile Char.isDigit = '.' :: r₁ → r <:+ r₁) ∧
      ∃ s, t = .number s ∧ NumberShape s := by
  have hfrac := numberFraction_spec (input.takeWhile Char.isDigit) (input.dropWhile Char.isDigit)
  simp only [lexNumber] at h
  generalize numberFraction _ _ = x at h hfrac
  obtain ⟨s, rest⟩ := x
  obtain ⟨⟨hsuf, hdot⟩, hs⟩ := hfrac
  obtain ⟨⟨s', r'⟩, hexp, heq⟩ := map_eq_ok.1 h
  cases heq
  obtain ⟨hr, hs'⟩ := numberExponent_spec hexp
  refine ⟨⟨hr.trans hsuf, fun r₁ h₁ => hr.trans (hdot r₁ h₁)⟩, s', rfl, ?_⟩
  have hwhole : ∀ c ∈ input.takeWhile Char.isDigit, c.isDigit := fun c hc => List.mem_takeWhile_imp hc
  dsimp only at hs
  rcases hs with rfl | ⟨ds, rfl, hds⟩ <;> rcases hs' with rfl | ⟨sign, es, rfl, hsign, hne, hes⟩
  · exact ⟨_, [], [], by simp, hwhole, .inl rfl, .inl rfl⟩
  · exact ⟨_, [], _, by simp, hwhole, .inl rfl, .inr ⟨sign, es, rfl, hsign, hne, hes⟩⟩
  · exact ⟨_, _, [], by simp, hwhole, .inr ⟨ds, rfl, hds⟩, .inl rfl⟩
  · exact ⟨_, _, _, by simp, hwhole, .inr ⟨ds, rfl, hds⟩, .inr ⟨sign, es, rfl, hsign, hne, hes⟩⟩

/-- The loop of `lex_op`: operator chars, stopping before the start of a comment. -/
def opLoop : List Char → List Char → List Char × List Char
  | s, '-' :: '-' :: rest => (s, '-' :: '-' :: rest)
  | s, '/' :: '*' :: rest => (s, '/' :: '*' :: rest)
  | s, c :: rest => if isOpChar c then opLoop (s ++ [c]) rest else (s, c :: rest)
  | s, [] => (s, [])

theorem opLoop_spec (acc l : List Char) :
    ∃ p, (opLoop acc l).1 = acc ++ p ∧ l = p ++ (opLoop acc l).2 := by
  fun_induction opLoop acc l with
  | case1 | case2 | case4 | case5 => exact ⟨[], by simp, rfl⟩
  | case3 s c rest _ _ _ ih =>
    obtain ⟨p, h1, h2⟩ := ih
    exact ⟨c :: p, by simp [h1], by rw [List.cons_append, ← h2]⟩

/-- How many trailing `-` and `+` `lex_op` gives back from an operator of standard chars: all of
them, but never its first char. -/
def trailingSigns (s : List Char) : Nat :=
  if s.any isNonstandardOpChar then 0
  else min (s.reverse.takeWhile fun c => c == '-' || c == '+').length (s.length - 1)

theorem trailingSigns_le (s : List Char) : trailingSigns s ≤ s.length - 1 := by
  unfold trailingSigns
  split
  · exact Nat.zero_le _
  · exact Nat.min_le_right _ _

/-- `lex_op`, from the operator's first char. -/
def lexOp (input : List Char) : Token × List Char :=
  match input with
  | '=' :: '>' :: rest => (.arrow, rest)
  | _ =>
    let (s, rest) := opLoop [] input
    let keep := s.length - trailingSigns s
    let rest := s.drop keep ++ rest
    let s := s.take keep
    if s = ['*'] then (.star, rest)
    else if s = ['='] then (.eq, rest)
    else if s = ['!', '='] then (.op ['<', '>'], rest)
    else (.op s, rest)

/-- `lex_op` from an operator char that does not start a comment: it makes an operator token, and
reads at least that char. -/
theorem lexOp_spec {ch : Char} {rest r : List Char} {t : Token} (hc : isOpChar ch)
    (h1 : ∀ r, ch = '-' → rest = '-' :: r → False) (h2 : ∀ r, ch = '/' → rest = '*' :: r → False)
    (h : lexOp (ch :: rest) = (t, r)) :
    r <:+ rest ∧ (t = .arrow ∨ t = .star ∨ t = .eq ∨ ∃ s, t = .op s) := by
  unfold lexOp at h
  split at h
  · next rest' heq =>
    cases h
    obtain ⟨-, rfl⟩ := List.cons_eq_cons.1 heq
    exact ⟨List.suffix_cons _ _, .inl rfl⟩
  · rw [opLoop.eq_3 _ _ _ h1 h2, if_pos hc, List.nil_append] at h
    obtain ⟨p, hp, hrest⟩ := opLoop_spec [ch] rest
    generalize opLoop [ch] rest = x at h hp hrest
    obtain ⟨s, rest'⟩ := x
    dsimp only at h hp hrest
    subst hp
    -- the operator keeps its first char: what it gives back is a suffix of `rest`
    have hkeep := trailingSigns_le ([ch] ++ p)
    obtain ⟨j, hj⟩ : ∃ j, ([ch] ++ p).length - trailingSigns ([ch] ++ p) = j + 1 :=
      ⟨([ch] ++ p).length - trailingSigns ([ch] ++ p) - 1, by simp at hkeep ⊢; omega⟩
    have hjp : j ≤ p.length := by simp at hj; omega
    have hr : List.drop (j + 1) ([ch] ++ p) ++ rest' <:+ rest := by
      rw [List.singleton_append, List.drop_succ_cons, ← List.drop_append_of_le_length hjp, hrest]
      exact List.drop_suffix _ _
    rw [hj] at h
    split_ifs at h <;> cases h
    · exact ⟨hr, .inr (.inl rfl)⟩
    · exact ⟨hr, .inr (.inr (.inl rfl))⟩
    · exact ⟨hr, .inr (.inr (.inr ⟨_, rfl⟩))⟩
    · exact ⟨hr, .inr (.inr (.inr ⟨_, rfl⟩))⟩

/-! ## The loop -/

/-- One turn of the loop of `lex`, on the char `ch` it read with `rest` after it: the token that
starts at `ch`, none for whitespace and comments, and what is left after it. The arms are the
source's, in its order. -/
def lexOne (env : LexEnv) (total : Nat) (ch : Char) (rest : List Char) :
    Except LexerError (Option Token × List Char) :=
  let pos := cursor total rest - ch.utf8Size
  let token (r : Except LexerError (Token × List Char)) := r.map fun (t, rest) => (some t, rest)
  let str (r : Except LexerError (List Char × List Char)) (kind : List Char → Token) :=
    r.map fun (s, rest) => (some (kind s), rest)
  if isAsciiWhitespace ch then .ok (none, rest)
  else
    match ch, rest with
    | '-', '-' :: rest => .ok (none, lexLineComment rest)
    | '/', '*' :: rest => (lexMultilineComment pos 0 rest).map fun rest => (none, rest)
    | '\'', rest => str (adjacentStrings plainBody total [] rest) .string
    | 'x', '\'' :: rest | 'X', '\'' :: rest =>
      str (adjacentStrings plainBody total [] rest) .hexString
    | 'e', '\'' :: rest | 'E', '\'' :: rest =>
      str (adjacentStrings (extendedStringBody total) total [] rest) .string
    | '"', rest => token (lexQuotedIdent pos rest)
    | '.', c :: rest =>
      if c.isDigit then token (lexNumber total ('.' :: c :: rest)) else .ok (some .dot, c :: rest)
    | '$', c :: rest =>
      if c.isDigit then token (lexParameter total (c :: rest))
      else token (lexDollarString total (c :: rest))
    | '$', [] => token (lexDollarString total [])
    | '(', rest => .ok (some .lParen, rest)
    | ')', rest => .ok (some .rParen, rest)
    | ',', rest => .ok (some .comma, rest)
    | '.', [] => .ok (some .dot, [])
    | ':', ':' :: rest => .ok (some .doubleColon, rest)
    | ':', rest => .ok (some .colon, rest)
    | ';', rest => .ok (some .semicolon, rest)
    | '[', rest => .ok (some .lBracket, rest)
    | ']', rest => .ok (some .rBracket, rest)
    | ch, rest =>
      if isIdentStart ch then token (lexIdent env pos (ch :: rest))
      else if ch.isDigit then token (lexNumber total (ch :: rest))
      else if isOpChar ch then
        let (t, rest) := lexOp (ch :: rest)
        .ok (some t, rest)
      else .error (.new pos ("unexpected character in input: " ++ ch.toString))

/-- What one turn of the loop guarantees: what it leaves is a suffix of what follows the char it
read, and a number it makes has the shape of `lex_number`'s. -/
structure LexOneSpec (rest : List Char) (t : Option Token) (r : List Char) : Prop where
  suffix : r <:+ rest
  number : ∀ s, t = some (.number s) → NumberShape s

/-- A turn that makes no number needs only its suffix. -/
theorem LexOneSpec.of_suffix {rest r : List Char} {t : Option Token} (hr : r <:+ rest)
    (ht : ∀ s, t ≠ some (.number s)) : LexOneSpec rest t r :=
  ⟨hr, fun s h => absurd h (ht s)⟩

theorem token_eq_ok {x : Except LexerError (Token × List Char)} {t : Option Token} {r : List Char}
    (h : x.map (fun (t, rest) => (some t, rest)) = .ok (t, r)) :
    ∃ tok, x = .ok (tok, r) ∧ t = some tok := by
  obtain ⟨⟨tok, r'⟩, hx, heq⟩ := map_eq_ok.1 h
  cases heq
  exact ⟨tok, hx, rfl⟩

theorem str_eq_ok {x : Except LexerError (List Char × List Char)} {kind : List Char → Token}
    {t : Option Token} {r : List Char}
    (h : x.map (fun (s, rest) => (some (kind s), rest)) = .ok (t, r)) :
    ∃ s, x = .ok (s, r) ∧ t = some (kind s) := by
  obtain ⟨⟨s, r'⟩, hx, heq⟩ := map_eq_ok.1 h
  cases heq
  exact ⟨s, hx, rfl⟩

theorem lexOne_spec {env : LexEnv} {total : Nat} {ch : Char} {rest r : List Char}
    {t : Option Token} (h : lexOne env total ch rest = .ok (t, r)) : LexOneSpec rest t r := by
  unfold lexOne at h
  split at h
  · cases h
    exact .of_suffix (List.suffix_refl _) (by simp)
  split at h <;> dsimp only at h
  case h_1 =>
    cases h
    exact .of_suffix ((List.dropWhile_suffix _).trans (List.suffix_cons _ _)) (by simp)
  case h_2 =>
    obtain ⟨r', hr', heq⟩ := map_eq_ok.1 h
    cases heq
    exact .of_suffix ((lexMultilineComment_suffix hr').trans (List.suffix_cons _ _)) (by simp)
  case h_3 =>
    obtain ⟨s, hs, rfl⟩ := str_eq_ok h
    exact .of_suffix (adjacentStrings_suffix hs) (by simp)
  case h_4 | h_5 | h_6 | h_7 =>
    obtain ⟨s, hs, rfl⟩ := str_eq_ok h
    exact .of_suffix ((adjacentStrings_suffix hs).trans (List.suffix_cons _ _)) (by simp)
  case h_8 =>
    obtain ⟨tok, htok, rfl⟩ := token_eq_ok h
    obtain ⟨hr, s, rfl⟩ := lexQuotedIdent_spec htok
    exact .of_suffix hr (by simp)
  case h_9 c rest' =>
    split_ifs at h with hc
    · obtain ⟨tok, htok, rfl⟩ := token_eq_ok h
      obtain ⟨⟨-, hdot⟩, s, rfl, hs⟩ := lexNumber_spec htok
      refine ⟨hdot _ (List.dropWhile_cons_of_neg (by decide)), fun s' h' => ?_⟩
      cases h'
      exact hs
    · cases h
      exact .of_suffix (List.suffix_refl _) (by simp)
  case h_10 c rest' =>
    split_ifs at h with hc
    · obtain ⟨tok, htok, rfl⟩ := token_eq_ok h
      obtain ⟨rfl, n, rfl⟩ := lexParameter_spec htok
      exact .of_suffix (List.dropWhile_suffix _) (by simp)
    · obtain ⟨tok, htok, rfl⟩ := token_eq_ok h
      obtain ⟨hr, s, rfl⟩ := lexDollarString_spec htok
      exact .of_suffix hr (by simp)
  case h_11 =>
    obtain ⟨tok, htok, rfl⟩ := token_eq_ok h
    obtain ⟨hr, s, rfl⟩ := lexDollarString_spec htok
    exact .of_suffix hr (by simp)
  case h_16 =>
    cases h
    exact .of_suffix (List.suffix_cons _ _) (by simp)
  case h_21 =>
    have h1 : ∀ r', ch = '-' → rest = '-' :: r' → False := by assumption
    have h2 : ∀ r', ch = '/' → rest = '*' :: r' → False := by assumption
    split_ifs at h with hid hdig hop
    · obtain ⟨tok, htok, rfl⟩ := token_eq_ok h
      obtain ⟨hr, hkind⟩ := lexIdent_spec htok
      subst hr
      refine .of_suffix ?_ ?_
      · rw [List.dropWhile_cons_of_pos (isIdentChar_of_isIdentStart hid)]
        exact List.dropWhile_suffix _
      · rcases hkind with ⟨kw, rfl⟩ | ⟨s, rfl⟩ <;> simp
    · obtain ⟨tok, htok, rfl⟩ := token_eq_ok h
      obtain ⟨⟨hr, -⟩, s, rfl, hs⟩ := lexNumber_spec htok
      rw [List.dropWhile_cons_of_pos hdig] at hr
      refine ⟨hr.trans (List.dropWhile_suffix _), fun s' h' => ?_⟩
      cases h'
      exact hs
    · generalize hop' : lexOp (ch :: rest) = x at h
      obtain ⟨tok, r'⟩ := x
      cases h
      obtain ⟨hr, htok⟩ := lexOp_spec hop h1 h2 hop'
      exact .of_suffix hr (by rcases htok with rfl | rfl | rfl | ⟨s, rfl⟩ <;> simp)
  -- the tokens of one char
  all_goals
    cases h
    exact .of_suffix (List.suffix_refl _) (by simp)
/-- The dispatch of `lex` on an identifier's first char: unless it opens a string (`x'`, `e'`), the
turn is `lex_ident`'s. -/
theorem lexOne_of_isIdentStart {env : LexEnv} {total : Nat} {ch : Char} {rest : List Char}
    (hid : isIdentStart ch)
    (hstr : ∀ r, rest = '\'' :: r → ch ≠ 'x' ∧ ch ≠ 'X' ∧ ch ≠ 'e' ∧ ch ≠ 'E') :
    lexOne env total ch rest = (lexIdent env (cursor total rest - ch.utf8Size) (ch :: rest)).map
      fun (t, rest) => (some t, rest) := by
  unfold lexOne
  rw [if_neg (not_isAsciiWhitespace_of_isIdentStart hid)]
  split
  case h_4 | h_5 | h_6 | h_7 => simp at hstr
  case h_21 => rw [if_pos hid]
  all_goals exact absurd hid (by decide)
/-- The loop of `lex` over what is left of a query of `total` bytes. A token's offset is the
position of the char it starts at. -/
def lexLoop (env : LexEnv) (total : Nat) (l : List Char) : Except LexerError (List PosToken) :=
  match l with
  | [] => .ok []
  | ch :: rest =>
    match h : lexOne env total ch rest with
    | .error e => .error e
    | .ok (none, rest') => lexLoop env total rest'
    | .ok (some t, rest') =>
      (lexLoop env total rest').map fun tokens => ⟨t, cursor total rest - ch.utf8Size⟩ :: tokens
termination_by l.length
decreasing_by
  all_goals
    have := (lexOne_spec h).suffix.length_le
    simp only [List.length_cons]
    omega

/-- `lex`: the tokens of a query, each with the byte offset it starts at. `none` is the failure of
its debug assertion that every offset is a char boundary. -/
def lex (env : LexEnv) (query : List Char) : Option (Except LexerError (List PosToken)) :=
  match lexLoop env (byteLength query) query with
  | .error e => some (.error e)
  | .ok tokens =>
    if tokens.all fun token => isCharBoundary query token.offset then some (.ok tokens) else none

/-- A query that one turn of the loop reads whole is one token, at offset 0. -/
theorem lex_of_lexOne {env : LexEnv} {ch : Char} {rest : List Char} {t : Token}
    (h : lexOne env (byteLength (ch :: rest)) ch rest = .ok (some t, [])) :
    lex env (ch :: rest) = some (.ok [⟨t, 0⟩]) := by
  have hoff : cursor (byteLength (ch :: rest)) rest - ch.utf8Size = 0 := by simp [cursor]
  have hloop : lexLoop env (byteLength (ch :: rest)) (ch :: rest) = .ok [⟨t, 0⟩] := by
    rw [lexLoop]
    split
    next heq =>
      rw [h] at heq
      cases heq
    next heq =>
      rw [h] at heq
      cases heq
    next heq =>
      rw [h] at heq
      cases heq
      rw [hoff, lexLoop]
      rfl
  have hzero := isCharBoundary_of_suffix (List.suffix_refl (ch :: rest))
  rw [Nat.sub_self] at hzero
  unfold lex
  rw [hloop]
  simp [hzero]
/-! ## What a run of the lexer guarantees -/

/-- What the loop guarantees of the tokens it makes from a suffix `l` of a query `q`: every offset
is a char boundary of `q` at or after the position of `l`, the offsets strictly increase, and every
number has the shape of `lex_number`'s. -/
structure LoopSpec (q l : List Char) (tokens : List PosToken) : Prop where
  boundary : ∀ t ∈ tokens, isCharBoundary q t.offset
  after : ∀ t ∈ tokens, byteLength q - byteLength l ≤ t.offset
  increasing : tokens.Pairwise fun a b => a.offset < b.offset
  number : ∀ t ∈ tokens, ∀ s, t.kind = .number s → NumberShape s

theorem LoopSpec.nil (q l : List Char) : LoopSpec q l [] :=
  ⟨by simp, by simp, .nil, by simp⟩

/-- The tokens made after a suffix of `l` come after `l` too. -/
theorem LoopSpec.of_suffix {q l l' : List Char} {tokens : List PosToken}
    (h : LoopSpec q l' tokens) (hl : l' <:+ l) : LoopSpec q l tokens := by
  have := byteLength_le_of_suffix hl
  refine ⟨h.boundary, fun t ht => ?_, h.increasing, h.number⟩
  have := h.after t ht
  omega

/-- The step of the loop: the token read at `ch`, before those made after it. -/
theorem LoopSpec.cons {q rest : List Char} {ch : Char} {t : Token} {tokens : List PosToken}
    (hq : ch :: rest <:+ q) (h : LoopSpec q rest tokens) (ht : ∀ s, t = .number s → NumberShape s) :
    LoopSpec q (ch :: rest) (⟨t, cursor (byteLength q) rest - ch.utf8Size⟩ :: tokens) := by
  have hle := byteLength_le_of_suffix hq
  have hpos := Char.utf8Size_pos ch
  simp only [byteLength_cons] at hle
  -- the token's offset is the position of `ch :: rest`
  have hoff : cursor (byteLength q) rest - ch.utf8Size = byteLength q - byteLength (ch :: rest) := by
    simp only [cursor, byteLength_cons]
    omega
  refine ⟨?_, ?_, ?_, ?_⟩
  · simp only [List.mem_cons, forall_eq_or_imp]
    exact ⟨hoff ▸ isCharBoundary_of_suffix hq, h.boundary⟩
  · simp only [List.mem_cons, forall_eq_or_imp, byteLength_cons]
    refine ⟨by simp only [cursor]; omega, fun t' ht' => ?_⟩
    have := h.after t' ht'
    omega
  · refine List.Pairwise.cons (fun t' ht' => ?_) h.increasing
    have := h.after t' ht'
    simp only [cursor] at this ⊢
    omega
  · simp only [List.mem_cons, forall_eq_or_imp]
    exact ⟨ht, h.number⟩

/-- A run of the loop from a suffix of the query keeps `LoopSpec`. -/
theorem lexLoop_spec {env : LexEnv} {q l : List Char} {tokens : List PosToken} (hl : l <:+ q)
    (h : lexLoop env (byteLength q) l = .ok tokens) : LoopSpec q l tokens := by
  fun_induction lexLoop env (byteLength q) l generalizing tokens with
  | case1 =>
    cases h
    exact .nil _ _
  | case2 => cases h
  | case3 ch rest rest' hone ih =>
    have hsuf := (lexOne_spec hone).suffix.trans (List.suffix_cons ch rest)
    exact (ih (hsuf.trans hl) h).of_suffix hsuf
  | case4 ch rest t rest' hone ih =>
    have hs := lexOne_spec hone
    obtain ⟨tokens', h', rfl⟩ := map_eq_ok.1 h
    have hrest := ih ((hs.suffix.trans (List.suffix_cons ch rest)).trans hl) h'
    exact .cons hl (hrest.of_suffix hs.suffix) fun s hn => hs.number s (by rw [hn])

/-- `lex` never fails its debug assertion: it returns tokens or an error for every query. -/
theorem lex_ne_none (env : LexEnv) (q : List Char) : lex env q ≠ none := by
  unfold lex
  split
  · simp
  · next tokens h =>
    have hs := lexLoop_spec (List.suffix_refl q) h
    rw [if_pos (List.all_eq_true.2 hs.boundary)]
    simp

/-- The tokens `lex` returns start at strictly increasing offsets, and its numbers have the shape
of `lex_number`'s. -/
theorem lex_tokens_spec {env : LexEnv} {q : List Char} {tokens : List PosToken}
    (h : lex env q = some (.ok tokens)) :
    tokens.Pairwise (fun a b => a.offset < b.offset) ∧
      ∀ t ∈ tokens, ∀ s, t.kind = .number s → NumberShape s := by
  unfold lex at h
  split at h
  · cases h
  · next tokens' hloop =>
    split_ifs at h
    cases h
    have hs := lexLoop_spec (List.suffix_refl q) hloop
    exact ⟨hs.increasing, hs.number⟩

end Materialize.Sql
