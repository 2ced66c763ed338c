import Mathlib
import Materialize.Lib.Glob
import Materialize.Sql.Lexer

/-!
# LIKE patterns

`expr/src/scalar/like_pattern.rs`. A LIKE or ILIKE pattern is first rewritten to the default
escape `\` (`normalize_pattern`), then broken into subpatterns, each some wildcards and a literal
suffix (`build_subpatterns`), and matched either by string search over the subpatterns
(`is_match_subpatterns`) or by a regular expression written from them (`build_regex`); `compile`
chooses between the two.

The subpatterns are the segments of `Glob`, and what a pattern means is the language `likeLang`:
`_` is any one char, `%` any string, and the escape makes the char after it literal. Each stage
keeps that meaning: normalising changes the escape and nothing else (`normalizePattern_likeLang`),
the subpatterns mean what the pattern does (`buildSubpatterns_segmentsLang`), and both the string
matcher (`isMatchSubpatterns_spec`) and the regex (`regexIsMatch_buildRegex`) decide membership
in it, so that a compiled matcher matches exactly the texts of its pattern's language
(`compile_isMatch`).

The regex crate is modelled by the language of the pieces that `write_regex_to` writes (`.`,
`.+`, `.*`, `.{n}`, `.{n,}` and an escaped literal, with `dot_matches_new_line`), decided by a
matcher that tries every split. Under ILIKE its case folding is a parameter `fold`, and whether
the compiled regex fits the crate's size limit (the only way `Regex::new` fails on these
pieces) a parameter `fits`. Texts and patterns are lists of chars; lengths in bytes are
`Sql.byteLength`.
-/

namespace Materialize.Expr.LikePattern

open Glob

/-- The errors of `like_pattern.rs`, as `EvalError` names them. -/
inductive LikeError where
  | likeEscapeTooLong
  | unterminatedLikeEscapeSequence
  | likePatternTooLong
  deriving DecidableEq, Repr

/-- `DEFAULT_ESCAPE`. -/
def defaultEscape : Char := '\\'

/-- `MAX_SUBPATTERNS`: the number of subpatterns after which a regex is used. -/
def maxSubpatterns : Nat := 5

/-- The longest pattern `compile` accepts, in bytes: `8 << 10`. -/
def maxPatternBytes : Nat := 8 <<< 10

/-! ## What a pattern means -/

/-- What a pattern char that is not the escape matches: `_` any one char (the words of length
one), `%` any string, and any other char itself. -/
def charLang (c : Char) : Language Char :=
  if c = '_' then wild 1 false else if c = '%' then ⊤ else {[c]}

/-- What a LIKE pattern matches, with `esc` as its escape char when there is one: the escape
char makes the char after it literal, and a pattern that ends in it matches nothing. -/
def likeLang (esc : Option Char) : List Char → Language Char
  | [] => 1
  | c :: p =>
    if some c = esc then
      match p with
      | [] => 0
      | d :: p => {[d]} * likeLang esc p
    else charLang c * likeLang esc p

theorem charLang_underscore : charLang '_' = wild 1 false := rfl

theorem charLang_percent : charLang '%' = wild 0 true := by
  rw [wild_zero_true]
  exact (if_neg (by decide)).trans (if_pos rfl)

theorem charLang_of_ne {c : Char} (h₁ : c ≠ '_') (h₂ : c ≠ '%') : charLang c = {[c]} :=
  (if_neg h₁).trans (if_neg h₂)

-- The arms of `likeLang`, each true by unfolding it once.
@[simp] theorem likeLang_nil (esc : Option Char) : likeLang esc [] = 1 := rfl

theorem likeLang_cons_of_ne {esc : Option Char} {c : Char} (h : some c ≠ esc) (p : List Char) :
    likeLang esc (c :: p) = charLang c * likeLang esc p := by
  cases p <;> exact if_neg h

theorem likeLang_escape {c : Char} (d : Char) (p : List Char) :
    likeLang (some c) (c :: d :: p) = {[d]} * likeLang (some c) p :=
  if_pos rfl

theorem likeLang_escape_nil (c : Char) : likeLang (some c) [c] = 0 :=
  if_pos rfl

/-- The pattern ends in its escape char with nothing after it to escape, reading each escape char
with the char after it. -/
def endsInUnpairedEscape (esc : Char) : List Char → Bool
  | [] => false
  | c :: p =>
    if c = esc then
      match p with
      | [] => true
      | _ :: p => endsInUnpairedEscape esc p
    else endsInUnpairedEscape esc p

@[simp] theorem endsInUnpairedEscape_nil (esc : Char) : endsInUnpairedEscape esc [] = false := rfl

theorem endsInUnpairedEscape_cons_of_ne {esc c : Char} (h : c ≠ esc) (p : List Char) :
    endsInUnpairedEscape esc (c :: p) = endsInUnpairedEscape esc p := by
  cases p <;> exact if_neg h

theorem endsInUnpairedEscape_escape (esc d : Char) (p : List Char) :
    endsInUnpairedEscape esc (esc :: d :: p) = endsInUnpairedEscape esc p :=
  if_pos rfl

theorem endsInUnpairedEscape_escape_nil (esc : Char) : endsInUnpairedEscape esc [esc] = true :=
  if_pos rfl

/-! ## Escapes -/

/-- `EscapeBehavior`. -/
inductive EscapeBehavior where
  | disabled
  | char (c : Char)
  deriving DecidableEq, Repr

/-- `EscapeBehavior::default`. -/
def EscapeBehavior.default : EscapeBehavior := .char defaultEscape

/-- `EscapeBehavior::from_str`: no char disables escaping, one char is the escape. -/
def EscapeBehavior.fromStr : List Char → Except LikeError EscapeBehavior
  | [] => .ok .disabled
  | [c] => .ok (.char c)
  | _ :: _ :: _ => .error .likeEscapeTooLong

/-- The escape char of an escape behaviour, if escaping is on. -/
def EscapeBehavior.escapeChar : EscapeBehavior → Option Char
  | .disabled => none
  | .char c => some c

/-- A char written literally under the default escape: `\` doubled (`DOUBLED_ESCAPE`), any other
char itself. -/
def doubleEscape (c : Char) : List Char :=
  if c = defaultEscape then [defaultEscape, defaultEscape] else [c]

/-- The loop of `normalize_pattern` for an escape char `esc` other than the default: `esc c`
becomes `\c`, `esc` with nothing after it is an error, and any other char is written literally. -/
def normalizeLoop (esc : Char) : List Char → Except LikeError (List Char)
  | [] => .ok []
  | c :: cs =>
    if c = esc then
      match cs with
      | c2 :: cs => (normalizeLoop esc cs).map (defaultEscape :: c2 :: ·)
      | [] => .error .unterminatedLikeEscapeSequence
    else (normalizeLoop esc cs).map (doubleEscape c ++ ·)

/-- `normalize_pattern`: the same pattern written with the default escape `\`. -/
def normalizePattern (pattern : List Char) : EscapeBehavior → Except LikeError (List Char)
  -- `pattern.replace(DEFAULT_ESCAPE, DOUBLED_ESCAPE)`
  | .disabled => .ok (pattern.flatMap doubleEscape)
  | .char c => if c = defaultEscape then .ok pattern else normalizeLoop c pattern

theorem normalizeLoop_nil (esc : Char) : normalizeLoop esc [] = .ok [] := rfl

theorem normalizeLoop_escape (esc c2 : Char) (cs : List Char) :
    normalizeLoop esc (esc :: c2 :: cs) = (normalizeLoop esc cs).map (defaultEscape :: c2 :: ·) :=
  if_pos rfl

theorem normalizeLoop_escape_nil (esc : Char) :
    normalizeLoop esc [esc] = .error .unterminatedLikeEscapeSequence :=
  if_pos rfl

theorem normalizeLoop_cons_of_ne {esc c : Char} (h : c ≠ esc) (cs : List Char) :
    normalizeLoop esc (c :: cs) = (normalizeLoop esc cs).map (doubleEscape c ++ ·) := by
  cases cs <;> exact if_neg h

/-- A char written literally means itself, `\` included. -/
theorem likeLang_doubleEscape (c : Char) (q : List Char) :
    likeLang (some defaultEscape) (doubleEscape c ++ q) =
      charLang c * likeLang (some defaultEscape) q := by
  unfold doubleEscape
  split_ifs with hc
  · subst hc
    rw [List.cons_append, List.cons_append, List.nil_append, likeLang_escape,
      charLang_of_ne (by decide) (by decide)]
  · rw [List.singleton_append, likeLang_cons_of_ne (by simpa [eq_comm] using hc)]

theorem endsInUnpairedEscape_doubleEscape (c : Char) (q : List Char) :
    endsInUnpairedEscape defaultEscape (doubleEscape c ++ q) =
      endsInUnpairedEscape defaultEscape q := by
  unfold doubleEscape
  split_ifs with hc
  · subst hc
    rw [List.cons_append, List.cons_append, List.nil_append, endsInUnpairedEscape_escape]
  · rw [List.singleton_append, endsInUnpairedEscape_cons_of_ne hc]

/-- The loop keeps the pattern's meaning, read with the default escape. -/
theorem normalizeLoop_likeLang {esc : Char} {p q : List Char} (h : normalizeLoop esc p = .ok q) :
    likeLang (some defaultEscape) q = likeLang (some esc) p := by
  induction p using normalizeLoop.induct esc generalizing q with
  | case1 =>
    cases h
    rfl
  | case2 c2 cs ih =>
    obtain ⟨q', hq', rfl⟩ := Sql.map_eq_ok.1 ((normalizeLoop_escape esc c2 cs).symm.trans h)
    rw [likeLang_escape, likeLang_escape, ih hq']
  | case3 =>
    rw [normalizeLoop_escape_nil] at h
    cases h
  | case4 c cs hc ih =>
    obtain ⟨q', hq', rfl⟩ := Sql.map_eq_ok.1 ((normalizeLoop_cons_of_ne hc cs).symm.trans h)
    rw [likeLang_doubleEscape, likeLang_cons_of_ne (by simpa using hc), ih hq']

/-- What the loop writes has every `\` paired. -/
theorem normalizeLoop_paired {esc : Char} {p q : List Char} (h : normalizeLoop esc p = .ok q) :
    endsInUnpairedEscape defaultEscape q = false := by
  induction p using normalizeLoop.induct esc generalizing q with
  | case1 =>
    cases h
    rfl
  | case2 c2 cs ih =>
    obtain ⟨q', hq', rfl⟩ := Sql.map_eq_ok.1 ((normalizeLoop_escape esc c2 cs).symm.trans h)
    rw [endsInUnpairedEscape_escape, ih hq']
  | case3 =>
    rw [normalizeLoop_escape_nil] at h
    cases h
  | case4 c cs hc ih =>
    obtain ⟨q', hq', rfl⟩ := Sql.map_eq_ok.1 ((normalizeLoop_cons_of_ne hc cs).symm.trans h)
    rw [endsInUnpairedEscape_doubleEscape, ih hq']

/-- The loop fails exactly on a pattern that ends in an unpaired escape char. -/
theorem normalizeLoop_eq_error_iff {esc : Char} {p : List Char} {e : LikeError} :
    normalizeLoop esc p = .error e ↔
      e = .unterminatedLikeEscapeSequence ∧ endsInUnpairedEscape esc p = true := by
  induction p using normalizeLoop.induct esc with
  | case1 => simp [normalizeLoop_nil]
  | case2 c2 cs ih => rw [normalizeLoop_escape, Sql.map_eq_error, ih, endsInUnpairedEscape_escape]
  | case3 =>
    rw [normalizeLoop_escape_nil, endsInUnpairedEscape_escape_nil]
    simp [eq_comm]
  | case4 c cs hc ih =>
    rw [normalizeLoop_cons_of_ne hc, Sql.map_eq_error, ih, endsInUnpairedEscape_cons_of_ne hc]

theorem likeLang_flatMap_doubleEscape (p : List Char) :
    likeLang (some defaultEscape) (p.flatMap doubleEscape) = likeLang none p := by
  induction p with
  | nil => rfl
  | cons c p ih =>
    rw [List.flatMap_cons, likeLang_doubleEscape, likeLang_cons_of_ne (by simp), ih]

theorem endsInUnpairedEscape_flatMap_doubleEscape (p : List Char) :
    endsInUnpairedEscape defaultEscape (p.flatMap doubleEscape) = false := by
  induction p with
  | nil => rfl
  | cons c p ih => rw [List.flatMap_cons, endsInUnpairedEscape_doubleEscape, ih]

/-- `normalize_pattern` keeps the pattern's meaning, read with its own escape before and with
the default one after. -/
theorem normalizePattern_likeLang {p q : List Char} {e : EscapeBehavior}
    (h : normalizePattern p e = .ok q) :
    likeLang (some defaultEscape) q = likeLang e.escapeChar p := by
  cases e with
  | disabled =>
    cases h
    exact likeLang_flatMap_doubleEscape p
  | char c =>
    rw [normalizePattern] at h
    split_ifs at h with hc
    · cases h
      rw [hc]
      rfl
    · exact normalizeLoop_likeLang h

/-- `normalize_pattern` fails exactly for an escape char other than `\` that the pattern ends in
unpaired. -/
theorem normalizePattern_eq_error_iff {p : List Char} {e : EscapeBehavior} {err : LikeError} :
    normalizePattern p e = .error err ↔
      err = .unterminatedLikeEscapeSequence ∧
        ∃ c, e = .char c ∧ c ≠ defaultEscape ∧ endsInUnpairedEscape c p = true := by
  cases e with
  | disabled => simp [normalizePattern]
  | char c =>
    rw [normalizePattern]
    split_ifs with hc
    · simp [hc]
    · rw [normalizeLoop_eq_error_iff]
      simp [hc]

/-- After normalising, a `\` is unpaired at the end only where it was the escape already. -/
theorem normalizePattern_paired {p q : List Char} {e : EscapeBehavior}
    (h : normalizePattern p e = .ok q) :
    endsInUnpairedEscape defaultEscape q =
      (e == .char defaultEscape && endsInUnpairedEscape defaultEscape p) := by
  cases e with
  | disabled =>
    cases h
    simp [endsInUnpairedEscape_flatMap_doubleEscape]
  | char c =>
    rw [normalizePattern] at h
    split_ifs at h with hc
    · cases h
      simp [hc]
    · simp [normalizeLoop_paired h, hc]

/-! ## Subpatterns -/

/-- `Subpattern`: wildcards that take at least `consume` chars, and any number more when `many`,
then the literal `suffix`. -/
abbrev Subpattern := Segment Char

/-- `Subpattern::default`. -/
def Subpattern.default : Subpattern := ⟨0, false, []⟩

/-- The state of the loop of `build_subpatterns`: the subpatterns closed so far, the one being
read, and its two flags. -/
structure BuildState where
  subpatterns : List Subpattern
  current : Subpattern
  inWildcard : Bool
  inEscape : Bool
  deriving DecidableEq, Repr

/-- A wildcard after a literal closes the subpattern being read:
`subpatterns.push(mem::take(&mut current))`. -/
def BuildState.startWildcard (st : BuildState) : BuildState :=
  if st.inWildcard then st
  else { st with subpatterns := st.subpatterns ++ [st.current], current := Subpattern.default,
                 inWildcard := true }

/-- One char of the loop of `build_subpatterns`, its arms in the source's order. -/
def buildStep (st : BuildState) (c : Char) : BuildState :=
  match st.inEscape, c with
  -- `c if !in_escape && c == DEFAULT_ESCAPE`
  | false, '\\' => { st with inEscape := true, inWildcard := false }
  | false, '_' =>
    let st := st.startWildcard
    { st with current := { st.current with consume := st.current.consume + 1 } }
  | false, '%' =>
    let st := st.startWildcard
    { st with current := { st.current with many := true } }
  | _, c =>
    { st with current := { st.current with suffix := st.current.suffix ++ [c] },
              inEscape := false, inWildcard := false }

/-- The state `build_subpatterns` starts from. -/
def BuildState.init : BuildState := ⟨[], Subpattern.default, true, false⟩

/-- `build_subpatterns`: breaks a pattern, written with the default escape, into subpatterns. -/
def buildSubpatterns (pattern : List Char) : Except LikeError (List Subpattern) :=
  let st := pattern.foldl buildStep BuildState.init
  if st.inEscape then .error .unterminatedLikeEscapeSequence
  else .ok (st.subpatterns ++ [st.current])

/-! ## What the subpatterns mean -/

theorem Subpattern.default_lang : Subpattern.default.lang = 1 := by
  rw [Subpattern.default, Segment.lang, wild_zero_false, singleton_nil, mul_one]

/-- What is left of the pattern, with the escape char put back where one is pending. -/
def BuildState.pending (st : BuildState) (rest : List Char) : List Char :=
  if st.inEscape then defaultEscape :: rest else rest

/-- What the loop has read and what is left of the pattern mean, together. -/
def BuildState.lang (st : BuildState) (rest : List Char) : Language Char :=
  segmentsLang st.subpatterns *
    (st.current.lang * likeLang (some defaultEscape) (st.pending rest))

/-- What the loop keeps of its state: the subpattern being read has no literal while in
wildcards and has one once a literal follows them, and the closed ones all end in a literal. -/
structure BuildState.Inv (st : BuildState) : Prop where
  wildcard_suffix : st.inWildcard = true → st.current.suffix = []
  literal_suffix : st.inWildcard = false → st.inEscape = false → st.current.suffix ≠ []
  closed : ∀ sp ∈ st.subpatterns, sp.suffix ≠ []

theorem BuildState.init_inv : BuildState.init.Inv :=
  ⟨fun _ => rfl, fun h => (by cases h), fun _ h => (by cases h)⟩

/-- Where the loop ends, a pending escape is an unpaired one. -/
theorem BuildState.endsInUnpairedEscape_pending_nil (st : BuildState) :
    endsInUnpairedEscape defaultEscape (st.pending []) = st.inEscape := by
  cases h : st.inEscape <;> simp [BuildState.pending, h, endsInUnpairedEscape_escape_nil]

/-- Closing the subpattern being read keeps the meaning, and leaves one in wildcards with no
literal. -/
theorem BuildState.startWildcard_spec {st : BuildState} (hinv : st.Inv)
    (hesc : st.inEscape = false) :
    st.startWildcard.inWildcard = true ∧ st.startWildcard.inEscape = false ∧
      st.startWildcard.current.suffix = [] ∧
      (∀ sp ∈ st.startWildcard.subpatterns, sp.suffix ≠ []) ∧
      ∀ L : Language Char, segmentsLang st.startWildcard.subpatterns *
          (st.startWildcard.current.lang * L) = segmentsLang st.subpatterns * (st.current.lang * L) := by
  unfold BuildState.startWildcard
  split
  · next hw => exact ⟨hw, hesc, hinv.wildcard_suffix hw, hinv.closed, fun _ => rfl⟩
  · next hw =>
    have hlit := hinv.literal_suffix (by simpa using hw) hesc
    refine ⟨rfl, hesc, rfl, ?_, fun L => ?_⟩
    · simpa [or_imp, forall_and] using ⟨hinv.closed, hlit⟩
    · simp [segmentsLang_append, Subpattern.default_lang, mul_assoc]

/-- One char read: the invariant is kept, and so are the meaning of what is read and left and
whether the pattern ends in an unpaired escape. -/
theorem buildStep_spec {st : BuildState} (hinv : st.Inv) (c : Char) (rest : List Char) :
    (buildStep st c).Inv ∧ (buildStep st c).lang rest = st.lang (c :: rest) ∧
      endsInUnpairedEscape defaultEscape ((buildStep st c).pending rest) =
        endsInUnpairedEscape defaultEscape (st.pending (c :: rest)) := by
  unfold buildStep
  split
  · -- the escape char: the char after it is read as a literal
    next hesc =>
    refine ⟨⟨fun h => (by cases h), fun _ h => (by cases h), hinv.closed⟩, ?_, ?_⟩ <;>
      simp [BuildState.lang, BuildState.pending, hesc, defaultEscape]
  · -- `_`: one more char taken by the wildcards
    next hesc =>
    obtain ⟨hw, he, hsuf, hclosed, hlang⟩ := BuildState.startWildcard_spec hinv hesc
    refine ⟨⟨fun _ => hsuf, fun h => (by simp_all), hclosed⟩, ?_, ?_⟩
    · simp only [BuildState.lang, BuildState.pending, he, hesc, Bool.false_eq_true, if_false]
      rw [likeLang_cons_of_ne (by simp [defaultEscape]), charLang_underscore, ← hlang,
        Segment.lang_mul_wild hsuf, Bool.or_false]
    · simp [BuildState.pending, he, hesc, endsInUnpairedEscape_cons_of_ne, defaultEscape]
  · -- `%`: any number more chars taken by the wildcards
    next hesc =>
    obtain ⟨hw, he, hsuf, hclosed, hlang⟩ := BuildState.startWildcard_spec hinv hesc
    refine ⟨⟨fun _ => hsuf, fun h => (by simp_all), hclosed⟩, ?_, ?_⟩
    · simp only [BuildState.lang, BuildState.pending, he, hesc, Bool.false_eq_true, if_false]
      rw [likeLang_cons_of_ne (by simp [defaultEscape]), charLang_percent, ← hlang,
        Segment.lang_mul_wild hsuf, Bool.or_true, Nat.add_zero]
    · simp [BuildState.pending, he, hesc, endsInUnpairedEscape_cons_of_ne, defaultEscape]
  · -- a literal char, escaped or not
    next ch _ _ hescape hunder hpercent =>
    refine ⟨⟨fun h => (by cases h), fun _ _ => (by simp), hinv.closed⟩, ?_, ?_⟩
    · have hlit : likeLang (some defaultEscape) (st.pending (ch :: rest)) =
          {[ch]} * likeLang (some defaultEscape) rest := by
        cases hie : st.inEscape
        · rw [BuildState.pending, if_neg (by simp [hie]),
            likeLang_cons_of_ne (by simpa [defaultEscape, eq_comm] using hescape hie),
            charLang_of_ne (hunder hie) (hpercent hie)]
        · rw [BuildState.pending, if_pos hie, likeLang_escape]
      show segmentsLang st.subpatterns * (Segment.lang { st.current with
        suffix := st.current.suffix ++ [ch] } * likeLang (some defaultEscape) rest) = _
      rw [BuildState.lang, hlit, Segment.lang_append_suffix]
    · show endsInUnpairedEscape defaultEscape rest = _
      cases hie : st.inEscape
      · rw [BuildState.pending, if_neg (by simp [hie]),
          endsInUnpairedEscape_cons_of_ne (by simpa [defaultEscape] using hescape hie)]
      · rw [BuildState.pending, if_pos hie, endsInUnpairedEscape_escape]

/-- The loop over the rest of a pattern, from any state that keeps the invariant: by induction on
the rest, one `buildStep_spec` per char. -/
theorem foldl_buildStep_spec {st : BuildState} (hinv : st.Inv) (p : List Char) :
    (p.foldl buildStep st).Inv ∧ (p.foldl buildStep st).lang [] = st.lang p ∧
      (p.foldl buildStep st).inEscape = endsInUnpairedEscape defaultEscape (st.pending p) := by
  induction p generalizing st with
  | nil => exact ⟨hinv, rfl, (BuildState.endsInUnpairedEscape_pending_nil st).symm⟩
  | cons c p ih =>
    obtain ⟨hinv', hlang, hend⟩ := buildStep_spec hinv c p
    obtain ⟨hinv'', hlang', hend'⟩ := ih hinv'
    exact ⟨hinv'', hlang'.trans hlang, hend'.trans hend⟩

/-- `build_subpatterns` fails exactly on a pattern that ends in an unpaired `\`. -/
theorem buildSubpatterns_eq_error_iff {p : List Char} {e : LikeError} :
    buildSubpatterns p = .error e ↔
      e = .unterminatedLikeEscapeSequence ∧ endsInUnpairedEscape defaultEscape p = true := by
  obtain ⟨-, -, hend⟩ := foldl_buildStep_spec BuildState.init_inv p
  unfold buildSubpatterns
  dsimp only
  -- the loop starts with no escape pending
  rw [show BuildState.init.pending p = p from rfl] at hend
  split_ifs with hesc <;> rw [hend] at hesc
  · simp [hesc, eq_comm]
  · simp [hesc]

/-- The subpatterns `build_subpatterns` gives mean what the pattern does, and all but the last
end in a literal. -/
theorem buildSubpatterns_segmentsLang {p : List Char} {sps : List Subpattern}
    (h : buildSubpatterns p = .ok sps) :
    segmentsLang sps = likeLang (some defaultEscape) p ∧ ∀ sp ∈ sps.dropLast, sp.suffix ≠ [] := by
  obtain ⟨hinv, hlang, -⟩ := foldl_buildStep_spec BuildState.init_inv p
  unfold buildSubpatterns at h
  dsimp only at h
  split_ifs at h with hesc
  cases h
  refine ⟨?_, by simpa using hinv.closed⟩
  have hinit : BuildState.init.lang p = likeLang (some defaultEscape) p := by
    simp [BuildState.lang, BuildState.init, BuildState.pending, Subpattern.default_lang]
  rw [← hinit, ← hlang, segmentsLang_append, BuildState.lang, BuildState.pending, if_neg hesc]
  simp

/-! ## The string matcher -/

/-- `is_match_subpatterns`; `none` where its assertion that an empty suffix after `%` comes
last fails. -/
def isMatchSubpatterns : List Subpattern → List Char → Option Bool
  | [], text => some text.isEmpty
  | subpattern :: subpatterns, text =>
    -- `chars.nth(consume - 1)` is `None`: fewer chars than the wildcards take
    if text.length < subpattern.consume then some false
    else
      let text := text.drop subpattern.consume
      if subpattern.many then
        if subpattern.suffix.isEmpty then
          -- `assert!(subpatterns.is_empty(), "empty suffix in middle of a pattern")`
          if subpatterns.isEmpty then some true else none
        else
          -- the last occurrence of the suffix first, then back through the earlier ones
          match rfind subpattern.suffix text with
          | none => some false
          | some offset => rfindLoop (isMatchSubpatterns subpatterns) subpattern.suffix text offset
      else if subpattern.suffix.isPrefixOf text then
        isMatchSubpatterns subpatterns (text.drop subpattern.suffix.length)
      else some false

/-- The string matcher decides the subpatterns' language, on every list whose subpatterns all
end in a literal but the last; on such a list its assertion never fails. By induction on the
list, the search for a suffix after `%` deciding by `rfindLoop_mem`. -/
theorem isMatchSubpatterns_spec {sps : List Subpattern}
    (hwf : ∀ sp ∈ sps.dropLast, sp.suffix ≠ []) (text : List Char) :
    ∃ b, isMatchSubpatterns sps text = some b ∧ (b = true ↔ text ∈ segmentsLang sps) := by
  induction sps generalizing text with
  | nil => exact ⟨text.isEmpty, rfl, by simp [Language.mem_one]⟩
  | cons sp sps ih =>
    have ih := ih (fun s hs => hwf s (by
      cases sps with
      | nil => simp at hs
      | cons _ _ => exact List.mem_cons_of_mem _ hs))
    rw [segmentsLang_cons, Segment.lang, mul_assoc]
    unfold isMatchSubpatterns
    dsimp only
    split_ifs with hshort hmany hempty hlast hprefix
    · -- too short for the wildcards
      refine ⟨false, rfl, iff_of_false (by simp) ?_⟩
      rw [mem_wild_mul_iff]
      rintro ⟨i, hi, hlen, -⟩
      omega
    · -- `%` with nothing after it, and nothing after it in the pattern either
      rw [List.isEmpty_iff] at hempty hlast
      subst hlast
      refine ⟨true, rfl, iff_of_true rfl ?_⟩
      rw [hempty, singleton_nil, one_mul, segmentsLang_nil, mul_one, mem_wild]
      right
      exact ⟨hmany, by omega⟩
    · -- an empty suffix after `%` in the middle: not what `build_subpatterns` gives
      rw [List.isEmpty_iff] at hempty
      rw [List.isEmpty_iff] at hlast
      exact absurd hempty (hwf sp (by
        cases sps with
        | nil => exact absurd rfl hlast
        | cons _ _ => exact List.mem_cons_self))
    · -- `%` then a suffix: search for it from the right
      have hsplit : (wild sp.consume sp.many : Language Char) = wild sp.consume false * wild 0 true := by
        rw [wild_mul_wild, Nat.add_zero, Bool.false_or, hmany]
      rw [hsplit, mul_assoc, mem_wild_mul]
      split
      · next hnone =>
        exact ⟨false, rfl, iff_of_false (by simp) fun h => rfind_eq_none_not_mem hnone h.2⟩
      · next offset hfound =>
        obtain ⟨b, hb, hbL⟩ := rfindLoop_mem ih hfound
        exact ⟨b, hb, hbL.trans ⟨fun h => ⟨by omega, h⟩, fun h => h.2⟩⟩
    · -- no `%`: the suffix must come right after the wildcards
      rw [Bool.not_eq_true] at hmany
      rw [hmany, mem_wild_mul, mem_singleton_mul, ← List.isPrefixOf_iff_prefix]
      obtain ⟨b, hb, hbL⟩ := ih ((text.drop sp.consume).drop sp.suffix.length)
      exact ⟨b, hb, hbL.trans ⟨fun h => ⟨by omega, hprefix, h⟩, fun h => h.2.2⟩⟩
    · rw [Bool.not_eq_true] at hmany
      refine ⟨false, rfl, iff_of_false (by simp) ?_⟩
      rw [hmany, mem_wild_mul, mem_singleton_mul, ← List.isPrefixOf_iff_prefix]
      exact fun h => hprefix h.2.1

/-! ## The regex -/

/-- The pieces `Subpattern::write_regex_to` writes: `.`, `.+`, `.*`, `.{n}` or `.{n,}`, and the
suffix escaped by `regex_syntax::escape_into`. -/
inductive RegexPiece where
  | dot
  | dotPlus
  | dotStar
  | dotRepeat (n : Nat) (atLeast : Bool)
  | literal (s : List Char)
  deriving DecidableEq, Repr

/-- `Subpattern::write_regex_to`. -/
def Subpattern.writeRegexTo (sp : Subpattern) : List RegexPiece :=
  (match sp.consume with
    | 0 => if sp.many then [.dotStar] else []
    | 1 => if sp.many then [.dotPlus] else [.dot]
    | n => [.dotRepeat n sp.many]) ++ [.literal sp.suffix]

/-- What `build_regex` writes between `^` and `$`. -/
def regexPieces (subpatterns : List Subpattern) : List RegexPiece :=
  subpatterns.flatMap Subpattern.writeRegexTo

/-- What a piece matches; `.` is any char, newlines included (`dot_matches_new_line`). -/
def RegexPiece.lang : RegexPiece → Language Char
  | .dot => wild 1 false
  | .dotPlus => wild 1 true
  | .dotStar => wild 0 true
  | .dotRepeat n atLeast => wild n atLeast
  | .literal s => {s}

/-- What `^` pieces `$` matches: the whole text, one piece after another. -/
def regexLang (pieces : List RegexPiece) : Language Char := (pieces.map RegexPiece.lang).prod

/-- Whether, for some length `i` that `n` dots take (or any from `n` on, when `atLeast`), the
rest after the first `i` chars passes `rest`. -/
def matchDots (n : Nat) (atLeast : Bool) (rest : List Char → Bool) (t : List Char) : Bool :=
  (List.range (t.length + 1)).any fun i => (i == n || atLeast && n ≤ i) && rest (t.drop i)

/-- A matcher for the pieces that tries every split. `fold` maps each char to its case-folded
form under ILIKE, and is the identity otherwise. -/
def regexIsMatch (fold : Char → Char) : List RegexPiece → List Char → Bool
  | [], t => t.isEmpty
  | .dot :: ps, t => matchDots 1 false (regexIsMatch fold ps) t
  | .dotPlus :: ps, t => matchDots 1 true (regexIsMatch fold ps) t
  | .dotStar :: ps, t => matchDots 0 true (regexIsMatch fold ps) t
  | .dotRepeat n atLeast :: ps, t => matchDots n atLeast (regexIsMatch fold ps) t
  | .literal s :: ps, t =>
    (s.map fold).isPrefixOf (t.map fold) && regexIsMatch fold ps (t.drop s.length)

/-- The dots decide the words that, after the first `i` chars for a length `i` they take, go on
with a rest that `rest` accepts, all compared after case folding. -/
theorem matchDots_iff {fold : Char → Char} {n : Nat} {atLeast : Bool} {rest : List Char → Bool}
    {L : Language Char} (hrest : ∀ r, rest r = true ↔ ∃ w ∈ L, w.map fold = r.map fold)
    (t : List Char) :
    matchDots n atLeast rest t = true ↔ ∃ w ∈ wild n atLeast * L, w.map fold = t.map fold := by
  simp only [matchDots, List.any_eq_true, List.mem_range, Bool.and_eq_true, Bool.or_eq_true,
    beq_iff_eq, decide_eq_true_eq, hrest, Nat.lt_succ_iff]
  constructor
  · rintro ⟨i, hi, hlen, w', hw', hmap⟩
    refine ⟨t.take i ++ w', Language.mem_mul.2 ⟨t.take i, ?_, w', hw', rfl⟩, ?_⟩
    · simpa [Nat.min_eq_left hi] using hlen
    · rw [List.map_append, hmap, List.map_drop, List.map_take, List.take_append_drop]
  · rintro ⟨w, hw, hmap⟩
    obtain ⟨u, hu, v, hv, rfl⟩ := Language.mem_mul.1 hw
    have hlen : u.length + v.length = t.length := by
      simpa using congrArg List.length hmap
    refine ⟨u.length, by omega, hu, v, hv, ?_⟩
    have hdrop := congrArg (List.drop u.length) hmap
    rw [List.map_append, List.drop_left' (List.length_map _), ← List.map_drop] at hdrop
    exact hdrop

/-- A literal decides the words that start with it and go on with a rest that `rest` accepts,
compared after case folding. -/
theorem matchLiteral_iff {fold : Char → Char} {s : List Char} {rest : List Char → Bool}
    {L : Language Char} (hrest : ∀ r, rest r = true ↔ ∃ w ∈ L, w.map fold = r.map fold)
    (t : List Char) :
    ((s.map fold).isPrefixOf (t.map fold) && rest (t.drop s.length)) = true ↔
      ∃ w ∈ ({s} : Language Char) * L, w.map fold = t.map fold := by
  rw [Bool.and_eq_true, List.isPrefixOf_iff_prefix, hrest]
  constructor
  · rintro ⟨⟨r, hr⟩, w', hw', hmap⟩
    refine ⟨s ++ w', Language.mem_mul.2 ⟨s, rfl, w', hw', rfl⟩, ?_⟩
    have hlen : (s.map fold).length = s.length := List.length_map _
    rw [List.map_append, hmap, List.map_drop, ← hr, ← hlen, List.drop_left]
  · rintro ⟨w, hw, hmap⟩
    obtain ⟨u, rfl, v, hv, rfl⟩ := Language.mem_mul.1 hw
    rw [List.map_append] at hmap
    refine ⟨⟨v.map fold, hmap⟩, v, hv, ?_⟩
    have hdrop := congrArg (List.drop u.length) hmap
    rw [List.drop_left' (List.length_map _), ← List.map_drop] at hdrop
    exact hdrop

@[simp] theorem regexLang_nil : regexLang [] = 1 := rfl

@[simp] theorem regexLang_cons (p : RegexPiece) (ps : List RegexPiece) :
    regexLang (p :: ps) = p.lang * regexLang ps := by
  simp [regexLang]

theorem regexLang_append (ps ps' : List RegexPiece) :
    regexLang (ps ++ ps') = regexLang ps * regexLang ps' := by
  simp [regexLang]

/-- The matcher decides the words that match the pieces after case folding: those that fold to
what a word of the pieces' language folds to. By induction on the pieces, one case per kind. -/
theorem regexIsMatch_fold_iff (fold : Char → Char) (ps : List RegexPiece) (t : List Char) :
    regexIsMatch fold ps t = true ↔ ∃ w ∈ regexLang ps, w.map fold = t.map fold := by
  induction ps generalizing t with
  | nil =>
    simp only [regexIsMatch, List.isEmpty_iff, regexLang_nil, Language.mem_one,
      exists_eq_left, List.map_nil]
    exact ⟨fun h => by simp [h], fun h => List.map_eq_nil_iff.1 h.symm⟩
  | cons p ps ih =>
    rw [regexLang_cons]
    cases p with
    | dot => exact matchDots_iff ih t
    | dotPlus => exact matchDots_iff ih t
    | dotStar => exact matchDots_iff ih t
    | dotRepeat n atLeast => exact matchDots_iff ih t
    | literal s => exact matchLiteral_iff ih t

/-- Without case folding the matcher decides the pieces' language. -/
theorem regexIsMatch_iff (ps : List RegexPiece) (t : List Char) :
    regexIsMatch id ps t = true ↔ t ∈ regexLang ps := by
  rw [regexIsMatch_fold_iff]
  simp

/-- The regex a subpattern writes means what the subpattern does. -/
theorem regexLang_writeRegexTo (sp : Subpattern) :
    regexLang (Subpattern.writeRegexTo sp) = sp.lang := by
  obtain ⟨n, many, s⟩ := sp
  rw [Subpattern.writeRegexTo, regexLang_append, Segment.lang]
  rcases n with _ | _ | n <;> cases many <;>
    simp [RegexPiece.lang, wild_zero_false]

theorem regexLang_regexPieces (sps : List Subpattern) :
    regexLang (regexPieces sps) = segmentsLang sps := by
  induction sps with
  | nil => rfl
  | cons sp sps ih =>
    rw [regexPieces, List.flatMap_cons, regexLang_append, ← regexPieces, ih,
      regexLang_writeRegexTo, segmentsLang_cons]

/-- The regex written from subpatterns decides their language, whatever they are. -/
theorem regexIsMatch_regexPieces (sps : List Subpattern) (t : List Char) :
    regexIsMatch id (regexPieces sps) t = true ↔ t ∈ segmentsLang sps := by
  rw [regexIsMatch_iff, regexLang_regexPieces]

/-! ## Compiling a pattern -/

/-- The `Regex` that `build_regex` makes: its pieces, and whether it ignores case. -/
structure Regex where
  pieces : List RegexPiece
  caseInsensitive : Bool
  deriving DecidableEq, Repr

/-- `Regex::is_match` for `^` pieces `$`, with `fold` the case folding when it ignores case. -/
def Regex.isMatch (fold : Char → Char) (r : Regex) (text : List Char) : Bool :=
  regexIsMatch (if r.caseInsensitive then fold else id) r.pieces text

/-- `MatcherImpl`. -/
inductive MatcherImpl where
  | string (subpatterns : List Subpattern)
  | regex (r : Regex)
  deriving DecidableEq, Repr

/-- `Matcher`. -/
structure Matcher where
  pattern : List Char
  caseInsensitive : Bool
  matcherImpl : MatcherImpl
  deriving DecidableEq, Repr

/-- `Matcher::is_match`; `none` where `is_match_subpatterns` panics. -/
def Matcher.isMatch (fold : Char → Char) (m : Matcher) (text : List Char) : Option Bool :=
  match m.matcherImpl with
  | .string subpatterns => isMatchSubpatterns subpatterns text
  | .regex r => some (r.isMatch fold text)

/-- `build_regex`. `fits` says whether `Regex::new` compiles the regex within its size limits; one
too big is `LikePatternTooLong`. -/
def buildRegex (fits : Regex → Bool) (subpatterns : List Subpattern) (caseInsensitive : Bool) :
    Except LikeError Regex :=
  let r : Regex := ⟨regexPieces subpatterns, caseInsensitive⟩
  if fits r then .ok r else .error .likePatternTooLong

/-- `compile`. -/
def compile (fits : Regex → Bool) (pattern : List Char) (caseInsensitive : Bool) :
    Except LikeError Matcher := do
  if Sql.byteLength pattern > maxPatternBytes then
    throw .likePatternTooLong
  let subpatterns ← buildSubpatterns pattern
  -- `%` followed by a literal backtracks in `is_match_subpatterns`
  let backtrackingManys := (subpatterns.filter fun s => s.many && !s.suffix.isEmpty).length
  let useRegex :=
    caseInsensitive || subpatterns.length > maxSubpatterns || backtrackingManys > 1
  let matcherImpl ← match useRegex with
    | false => pure (MatcherImpl.string subpatterns)
    | true => (buildRegex fits subpatterns caseInsensitive).map MatcherImpl.regex
  pure ⟨pattern, caseInsensitive, matcherImpl⟩

theorem buildRegex_eq_ok {fits : Regex → Bool} {sps : List Subpattern} {ci : Bool} {r : Regex}
    (h : buildRegex fits sps ci = .ok r) : r = ⟨regexPieces sps, ci⟩ := by
  unfold buildRegex at h
  dsimp only at h
  split_ifs at h
  cases h
  rfl

theorem buildRegex_eq_error {fits : Regex → Bool} {sps : List Subpattern} {ci : Bool}
    {e : LikeError} (h : buildRegex fits sps ci = .error e) : e = .likePatternTooLong := by
  unfold buildRegex at h
  dsimp only at h
  split_ifs at h
  cases h
  rfl

/-- What `compile` returns on success: a matcher for the pattern over the subpatterns that
`build_subpatterns` gives, by string search only when case matters. -/
theorem compile_eq_ok {fits : Regex → Bool} {pattern : List Char} {ci : Bool} {m : Matcher}
    (h : compile fits pattern ci = .ok m) :
    ∃ sps, buildSubpatterns pattern = .ok sps ∧ m.pattern = pattern ∧ m.caseInsensitive = ci ∧
      ((ci = false ∧ m.matcherImpl = .string sps) ∨
        m.matcherImpl = .regex ⟨regexPieces sps, ci⟩) := by
  unfold compile at h
  dsimp only at h
  split_ifs at h
  · cases h
  obtain ⟨sps, hsps, h⟩ := Sql.bind_eq_ok.1 h
  refine ⟨sps, hsps, ?_⟩
  split at h
  · next hdec =>
    cases h
    simp only [Bool.or_eq_false_iff] at hdec
    exact ⟨rfl, rfl, .inl ⟨hdec.1.1, rfl⟩⟩
  · obtain ⟨impl, himpl, h⟩ := Sql.bind_eq_ok.1 h
    obtain ⟨r, hr, rfl⟩ := Sql.map_eq_ok.1 himpl
    cases buildRegex_eq_ok hr
    cases h
    exact ⟨rfl, rfl, .inr rfl⟩

/-- `compile` fails only on a pattern too long, or one that ends in an unpaired `\`. -/
theorem compile_eq_error {fits : Regex → Bool} {pattern : List Char} {ci : Bool} {e : LikeError}
    (h : compile fits pattern ci = .error e) :
    e = .likePatternTooLong ∨
      (e = .unterminatedLikeEscapeSequence ∧
        endsInUnpairedEscape defaultEscape pattern = true) := by
  unfold compile at h
  dsimp only at h
  split_ifs at h
  · cases h
    exact .inl rfl
  cases hsps : buildSubpatterns pattern with
  | error err =>
    rw [hsps] at h
    cases h
    exact .inr (buildSubpatterns_eq_error_iff.1 hsps)
  | ok sps =>
    rw [hsps] at h
    change (match _ with | false => _ | true => _) = _ at h
    split at h
    · cases h
    · cases hr : buildRegex fits sps ci with
      | error err =>
        rw [hr] at h
        cases h
        exact .inl (buildRegex_eq_error hr)
      | ok r =>
        rw [hr] at h
        cases h

/-- A pattern within the length limit that ends in an unpaired `\` fails to compile, with
`UnterminatedLikeEscapeSequence`. -/
theorem compile_unterminated {fits : Regex → Bool} {pattern : List Char} {ci : Bool}
    (hlen : Sql.byteLength pattern ≤ maxPatternBytes)
    (hend : endsInUnpairedEscape defaultEscape pattern = true) :
    compile fits pattern ci = .error .unterminatedLikeEscapeSequence := by
  have herr := buildSubpatterns_eq_error_iff.2 ⟨rfl, hend⟩
  simp [compile, bind, Except.bind, herr, Nat.not_lt.2 hlen]

/-- A matcher that `compile` builds for LIKE decides the pattern's language, whichever matcher it
chose, and never panics. -/
theorem compile_isMatch {fits : Regex → Bool} {pattern : List Char} {m : Matcher}
    (h : compile fits pattern false = .ok m) (fold : Char → Char) (t : List Char) :
    ∃ b, m.isMatch fold t = some b ∧ (b = true ↔ t ∈ likeLang (some defaultEscape) pattern) := by
  obtain ⟨sps, hsps, -, -, himpl⟩ := compile_eq_ok h
  obtain ⟨hlang, hwf⟩ := buildSubpatterns_segmentsLang hsps
  rw [← hlang]
  rcases himpl with ⟨-, himpl⟩ | himpl
  · rw [Matcher.isMatch, himpl]
    exact isMatchSubpatterns_spec hwf t
  · rw [Matcher.isMatch, himpl]
    exact ⟨_, rfl, regexIsMatch_regexPieces sps t⟩

/-- A matcher that `compile` builds for ILIKE is a regex, and matches the texts that fold to what
a word of the pattern's language folds to. -/
theorem compile_isMatch_caseInsensitive {fits : Regex → Bool} {pattern : List Char} {m : Matcher}
    (h : compile fits pattern true = .ok m) (fold : Char → Char) (t : List Char) :
    ∃ b, m.isMatch fold t = some b ∧
      (b = true ↔ ∃ w ∈ likeLang (some defaultEscape) pattern, w.map fold = t.map fold) := by
  obtain ⟨sps, hsps, -, -, himpl⟩ := compile_eq_ok h
  obtain ⟨hlang, -⟩ := buildSubpatterns_segmentsLang hsps
  rcases himpl with ⟨h, -⟩ | himpl
  · cases h
  · rw [Matcher.isMatch, himpl, ← hlang, ← regexLang_regexPieces]
    exact ⟨_, rfl, regexIsMatch_fold_iff fold _ t⟩

end Materialize.Expr.LikePattern
