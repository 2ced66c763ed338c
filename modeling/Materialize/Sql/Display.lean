import Mathlib
import Materialize.Sql.Lexer

/-!
# Displaying literals and identifiers, and lexing them back

The SQL printer (`sql-parser/src/ast/defs/value.rs`, `name.rs` and `display.rs`) writes a string
literal between single quotes with each single quote doubled (`escape_single_quote_string`), a hex
string the same way after an `X`, and an identifier bare when it can be printed bare and the
display is not stable, else between double quotes with each double quote doubled. Lexing a display
gives back the token it was made from:

- the quoted loop of the lexer reads back any text escaped for its quote (`quotedLoop_escapeQuote`);
- string and hex string literals lex to themselves (`lex_displayString`, `lex_displayHexString`);
- an identifier without a null char, of at most `MAX_IDENTIFIER_LENGTH` bytes, lexes to itself
  when quoted (`lex_quotedIdent`), and when printed bare to itself or to the keyword it names
  (`lex_bareIdent`).

Which keywords must be quoted (`is_sometimes_reserved`, `begins_query_body` and the exceptions
listed in `can_be_printed_bare`) is a predicate `reserved` on keyword names: the round trips hold
for every such predicate.
-/

namespace Materialize.Sql

/-! ## The display -/

/-- The text between the quotes of a quoted `s`: each `quote` in it doubled. -/
def escapeQuote (quote : Char) (s : List Char) : List Char :=
  s.flatMap fun c => if c = quote then [quote, quote] else [c]

/-- `escape_single_quote_string`. -/
def escapeSingleQuoteString (s : List Char) : List Char := escapeQuote '\'' s

/-- `AstDisplay for Value` on `Value::String`. -/
def displayString (s : List Char) : List Char := '\'' :: (escapeSingleQuoteString s ++ ['\''])

/-- `AstDisplay for Value` on `Value::HexString`. -/
def displayHexString (s : List Char) : List Char :=
  'X' :: '\'' :: (escapeSingleQuoteString s ++ ['\''])

/-- The chars that never need quoting in an identifier: `[a-z0-9_]`. -/
def isBareChar (c : Char) : Bool := ('a' ≤ c && c ≤ 'z') || ('0' ≤ c && c ≤ '9') || c == '_'

/-- `Ident::has_only_bare_chars`: the identifier matches `[a-z_][a-z0-9_]*`. -/
def hasOnlyBareChars : List Char → Bool
  | [] => false
  | c :: cs => (('a' ≤ c && c ≤ 'z') || c == '_') && cs.all isBareChar

/-- `Ident::can_be_printed_bare`: only bare chars, and not a keyword that must be quoted. -/
def canBePrintedBare (env : LexEnv) (reserved : String → Bool) (s : List Char) : Bool :=
  hasOnlyBareChars s && !((env.parseKeyword s).map reserved).getD false

/-- `AstDisplay for Ident`: bare if it can be printed bare and the display is not stable, else
between double quotes with each double quote doubled. -/
def displayIdent (env : LexEnv) (reserved : String → Bool) (stable : Bool) (s : List Char) :
    List Char :=
  if canBePrintedBare env reserved s && !stable then s else '"' :: (escapeQuote '"' s ++ ['"'])

/-! ## Bare chars -/

theorem isBareChar_cases {c : Char} (h : isBareChar c) :
    ('a' ≤ c ∧ c ≤ 'z') ∨ ('0' ≤ c ∧ c ≤ '9') ∨ c = '_' := by
  simpa [isBareChar, or_assoc] using h

theorem toNat_le_of_le {c d : Char} (h : c ≤ d) : c.toNat ≤ d.toNat :=
  UInt32.le_iff_toNat_le.1 (Char.le_def.1 h)

theorem isBareChar_isIdentChar {c : Char} (h : isBareChar c) : isIdentChar c := by
  rcases isBareChar_cases h with ⟨h1, h2⟩ | ⟨h1, h2⟩ | rfl
  · simp [isIdentChar, h1, h2]
  · simp [isIdentChar, h1, h2]
  · decide

theorem isBareChar_ascii {c : Char} (h : isBareChar c) : c.toNat < 128 := by
  rcases isBareChar_cases h with ⟨-, h2⟩ | ⟨-, h2⟩ | rfl
  · have := toNat_le_of_le h2
    have hz : ('z' : Char).toNat = 122 := rfl
    omega
  · have := toNat_le_of_le h2
    have h9 : ('9' : Char).toNat = 57 := rfl
    omega
  · decide

/-- Lowercasing keeps a char that is not an ASCII capital. -/
theorem toLower_of_not_upper {c : Char} (h : c < 'A' ∨ 'Z' < c) : c.toLower = c := by
  unfold Char.toLower
  rw [dif_neg]
  rintro ⟨h1, h2⟩
  rw [ge_iff_le, UInt32.le_iff_toNat_le] at h1
  rw [UInt32.le_iff_toNat_le] at h2
  rcases h with h | h
  · have := UInt32.lt_iff_toNat_lt.1 (Char.lt_def.1 h)
    omega
  · have := UInt32.lt_iff_toNat_lt.1 (Char.lt_def.1 h)
    omega

theorem isBareChar_toLower {c : Char} (h : isBareChar c) : c.toLower = c := by
  apply toLower_of_not_upper
  rcases isBareChar_cases h with ⟨h1, -⟩ | ⟨-, h2⟩ | rfl
  · exact .inr (lt_of_lt_of_le (by decide) h1)
  · exact .inl (lt_of_le_of_lt h2 (by decide))
  · exact .inr (by decide)

theorem map_toLower_of_bare {s : List Char} (h : ∀ d ∈ s, isBareChar d) :
    s.map Char.toLower = s :=
  (List.map_congr_left fun d hd => isBareChar_toLower (h d hd)).trans (List.map_id' _)

theorem hasOnlyBareChars_spec {s : List Char} (h : hasOnlyBareChars s) :
    ∃ c cs, s = c :: cs ∧ isIdentStart c ∧ ∀ d ∈ s, isBareChar d := by
  match s, h with
  | c :: cs, h =>
    simp only [hasOnlyBareChars, Bool.and_eq_true, Bool.or_eq_true, List.all_eq_true] at h
    obtain ⟨hc, hcs⟩ := h
    refine ⟨c, cs, rfl, ?_, ?_⟩
    · rcases hc with hc | hc <;> simp_all [isIdentStart]
    · simp only [List.mem_cons, forall_eq_or_imp]
      exact ⟨by rcases hc with hc | hc <;> simp_all [isBareChar], hcs⟩

/-! ## Lexing the display back -/

/-- The quoted loop reads back a text escaped for its quote, up to the closing quote, when no
quote follows that one. -/
theorem quotedLoop_escapeQuote {quote : Char} {m₁ m₂ : String} {pos : Nat}
    (acc s rest : List Char) (hs : '\x00' ∉ s) (hrest : ∀ r, rest ≠ quote :: r) :
    quotedLoop quote m₁ m₂ pos acc (escapeQuote quote s ++ quote :: rest) = .ok (acc ++ s, rest) := by
  induction s generalizing acc with
  | nil =>
    cases rest with
    | nil => simp [escapeQuote, quotedLoop]
    | cons d rest =>
      have hd : d ≠ quote := fun h => hrest rest (by rw [h])
      simp [escapeQuote, quotedLoop, hd]
  | cons c s ih =>
    have hs' : '\x00' ∉ s := fun h => hs (List.mem_cons_of_mem _ h)
    by_cases hc : c = quote
    · subst hc
      have heq : escapeQuote c (c :: s) ++ c :: rest = c :: c :: (escapeQuote c s ++ c :: rest) := by
        simp [escapeQuote]
      rw [heq, quotedLoop, if_pos rfl, if_pos rfl, ih _ hs']
      simp
    · have hc0 : c ≠ '\x00' := fun h => hs (h ▸ List.mem_cons_self)
      have heq : escapeQuote quote (c :: s) ++ quote :: rest =
          c :: (escapeQuote quote s ++ quote :: rest) := by
        simp [escapeQuote, hc]
      rw [heq, quotedLoop.eq_def]
      simp only [if_neg hc, if_neg hc0]
      rw [ih _ hs']
      simp

/-- The string loop of `lex_string` reads back a string escaped by `escape_single_quote_string`
that closes the query. -/
theorem adjacentStrings_escape (total : Nat) (s : List Char) (hs : '\x00' ∉ s) :
    adjacentStrings plainBody total [] (escapeSingleQuoteString s ++ ['\'']) = .ok (s, []) := by
  have hbody : plainBody.run (cursor total (escapeSingleQuoteString s ++ ['\'']) - 1) []
      (escapeSingleQuoteString s ++ ['\'']) = .ok (s, []) :=
    quotedLoop_escapeQuote [] s [] hs (fun _ => by simp)
  rw [adjacentStrings]
  split
  next e h => rw [hbody] at h; cases h
  next s' rest h =>
    rw [hbody] at h
    cases h
    simp [toAdjacentString]

theorem lex_displayString (env : LexEnv) (s : List Char) (hs : '\x00' ∉ s) :
    lex env (displayString s) = some (.ok [⟨.string s, 0⟩]) := by
  apply lex_of_lexOne
  simp [lexOne, isAsciiWhitespace, adjacentStrings_escape _ s hs, Except.map]

theorem lex_displayHexString (env : LexEnv) (s : List Char) (hs : '\x00' ∉ s) :
    lex env (displayHexString s) = some (.ok [⟨.hexString s, 0⟩]) := by
  apply lex_of_lexOne
  simp [lexOne, isAsciiWhitespace, adjacentStrings_escape _ s hs, Except.map]

/-- A quoted identifier lexes to itself. -/
theorem lex_quotedIdent (env : LexEnv) (s : List Char) (hs : '\x00' ∉ s)
    (hlen : byteLength s ≤ maxIdentifierLength) :
    lex env ('"' :: (escapeQuote '"' s ++ ['"'])) = some (.ok [⟨.ident s, 0⟩]) := by
  have hloop : ∀ pos, quotedIdentLoop pos [] (escapeQuote '"' s ++ ['"']) = .ok (s, []) :=
    fun _ => quotedLoop_escapeQuote [] s [] hs (fun _ => by simp)
  apply lex_of_lexOne
  simp [lexOne, isAsciiWhitespace, lexQuotedIdent, hloop, identString, hlen, bind, Except.bind,
    pure, Except.pure, Except.map]

/-- An identifier printed bare lexes to the keyword it names, or else to itself. -/
theorem lex_bareIdent (env : LexEnv) (s : List Char) (hb : hasOnlyBareChars s)
    (hlen : byteLength s ≤ maxIdentifierLength) :
    lex env s = some (.ok [⟨((env.parseKeyword s).map Token.keyword).getD (.ident s), 0⟩]) := by
  obtain ⟨c, cs, rfl, hid, hbare⟩ := hasOnlyBareChars_spec hb
  have hword : (c :: cs).takeWhile isIdentChar = c :: cs :=
    List.takeWhile_eq_self_iff.2 fun d hd => isBareChar_isIdentChar (hbare d hd)
  have hrest : (c :: cs).dropWhile isIdentChar = [] :=
    List.dropWhile_eq_nil_iff.2 fun d hd => isBareChar_isIdentChar (hbare d hd)
  have hlower : env.toLowercase (c :: cs) = c :: cs := by
    rw [env.toLowercase_ascii _ fun d hd => isBareChar_ascii (hbare d hd)]
    exact map_toLower_of_bare hbare
  -- no quote follows the first char, so it does not open an `x'` or `e'` string
  have hstr : ∀ r, cs = '\'' :: r → c ≠ 'x' ∧ c ≠ 'X' ∧ c ≠ 'e' ∧ c ≠ 'E' := by
    rintro r rfl
    exact absurd (hbare '\'' (by simp)) (by decide)
  apply lex_of_lexOne
  rw [lexOne_of_isIdentStart hid hstr]
  cases hkw : env.parseKeyword (c :: cs) with
  | some kw => simp [lexIdent, hword, hrest, hkw, Except.map]
  | none =>
    rw [byteLength_cons] at hlen
    simp [lexIdent, hword, hrest, hkw, hlower, identString, hlen, Except.map]

/-- The stable display always quotes. -/
theorem displayIdent_stable (env : LexEnv) (reserved : String → Bool) (s : List Char) :
    displayIdent env reserved true s = '"' :: (escapeQuote '"' s ++ ['"']) := by
  simp [displayIdent]

/-- The simple display lexes back to the identifier, or to the keyword it prints bare. -/
theorem lex_displayIdent_simple (env : LexEnv) (reserved : String → Bool) (s : List Char)
    (hs : '\x00' ∉ s) (hlen : byteLength s ≤ maxIdentifierLength) :
    lex env (displayIdent env reserved false s) = some (.ok [⟨.ident s, 0⟩]) ∨
      ∃ kw, canBePrintedBare env reserved s ∧ env.parseKeyword s = some kw ∧
        kw.toList.map Char.toLower = s ∧
        lex env (displayIdent env reserved false s) = some (.ok [⟨.keyword kw, 0⟩]) := by
  by_cases hbare : canBePrintedBare env reserved s
  · have hdisplay : displayIdent env reserved false s = s := by simp [displayIdent, hbare]
    have hb : hasOnlyBareChars s := by
      simp only [canBePrintedBare, Bool.and_eq_true] at hbare
      exact hbare.1
    obtain ⟨_, _, -, -, hchars⟩ := hasOnlyBareChars_spec hb
    rw [hdisplay, lex_bareIdent env s hb hlen]
    cases hkw : env.parseKeyword s with
    | none => exact .inl rfl
    | some kw =>
      have hlower := (LexEnv.parseKeyword_spec hkw).2
      rw [map_toLower_of_bare hchars] at hlower
      exact .inr ⟨kw, hbare, rfl, hlower, rfl⟩
  · have hdisplay : displayIdent env reserved false s = '"' :: (escapeQuote '"' s ++ ['"']) := by
      simp [displayIdent, hbare]
    rw [hdisplay]
    exact .inl (lex_quotedIdent env s hs hlen)

/-! ## Lexing inverts the display, and never panics -/

theorem lex_inverts_display (env : LexEnv) (reserved : String → Bool) :
    (∀ s, '\x00' ∉ s →
      lex env (displayString s) = some (.ok [⟨.string s, 0⟩]) ∧
        lex env (displayHexString s) = some (.ok [⟨.hexString s, 0⟩])) ∧
    (∀ s, '\x00' ∉ s → byteLength s ≤ maxIdentifierLength →
      lex env (displayIdent env reserved true s) = some (.ok [⟨.ident s, 0⟩]) ∧
        (lex env (displayIdent env reserved false s) = some (.ok [⟨.ident s, 0⟩]) ∨
          ∃ kw, canBePrintedBare env reserved s ∧ env.parseKeyword s = some kw ∧
            kw.toList.map Char.toLower = s ∧
            lex env (displayIdent env reserved false s) = some (.ok [⟨.keyword kw, 0⟩]))) ∧
    (∀ q, lex env q ≠ none) ∧
    (∀ q tokens, lex env q = some (.ok tokens) →
      tokens.Pairwise (fun a b => a.offset < b.offset) ∧
        ∀ t ∈ tokens, ∀ s, t.kind = .number s → NumberShape s) := by
  refine ⟨fun s hs => ⟨lex_displayString env s hs, lex_displayHexString env s hs⟩,
    fun s hs hlen => ⟨?_, lex_displayIdent_simple env reserved s hs hlen⟩,
    lex_ne_none env, fun q tokens h => lex_tokens_spec h⟩
  rw [displayIdent_stable]
  exact lex_quotedIdent env s hs hlen

/-- A keyword table of one keyword, and ASCII lowercasing. -/
def selectEnv : LexEnv := ⟨["Select"], fun s => s.map Char.toLower, fun _ _ => rfl⟩

theorem lex_inverts_display_select :
    '\x00' ∉ "a\"b".toList ∧ byteLength "a\"b".toList ≤ maxIdentifierLength ∧
      lex selectEnv (displayIdent selectEnv (fun _ => false) true "a\"b".toList) =
        some (.ok [⟨.ident "a\"b".toList, 0⟩]) :=
  ⟨by decide, by decide,
    ((lex_inverts_display selectEnv (fun _ => false)).2.1 _ (by decide) (by decide)).1⟩

end Materialize.Sql
