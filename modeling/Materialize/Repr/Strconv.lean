import Mathlib
import Materialize.Lib.Buffer
import Materialize.Repr.Fallible

/-!
# The text form of lists and arrays

The model of the list and array text codec of `repr/src/strconv.rs`, over the lexical buffer of
`ore/src/lex.rs`.

* The lexical buffer `LexBuf` is a zipper: the characters read so far, the latest first, and the
  characters still to read. Its byte position is the number of characters read.
* Three lexers read one element: `lex_quoted_element`, `lex_embedded_element` (a nested list,
  kept as text) and `lex_unquoted_element` (which trims trailing whitespace and reads an
  unescaped case variant of `NULL` as a null). Their loops run over the characters still to
  read.
* `parse_list` reads a list with one loop round per element; `parse_array` drives the
  `ArrayBuilder` state machine with one command character per round. Both loops are given one
  round more than the input has characters: every round but the last reads a character.
* `format_list` and `format_array` write each element, then `escape_elem` quotes it in place by
  a backward walk when the element formatter says that it may need escaping.

Strings are lists of characters. The escaper of the source works on bytes; it inserts ASCII
bytes only, before ASCII bytes, so over characters it is the same walk, and its ASCII tests
agree with the same tests on characters. A panic is `none`.
-/

namespace Materialize.Strconv

open Signed

/-! ## The lexical buffer -/

/-- `LexBuf` as a zipper: `seen` holds the characters read, the latest first, and `rest` those
still to read. -/
structure LexBuf where
  seen : List Char
  rest : List Char
  deriving DecidableEq, Repr

namespace LexBuf

/-- `LexBuf::new`. -/
def new (s : List Char) : LexBuf := ⟨[], s⟩

/-- `LexBuf::inner`: the whole text, wherever the cursor is. -/
def inner (b : LexBuf) : List Char := b.seen.reverse ++ b.rest

/-- `LexBuf::pos`. -/
def pos (b : LexBuf) : Nat := b.seen.length

/-- `LexBuf::peek`. -/
def peek (b : LexBuf) : Option Char := b.rest.head?

/-- `LexBuf::next`: the next character, and the buffer past it. -/
def next (b : LexBuf) : Option Char × LexBuf :=
  match b.rest with
  | c :: rest => (some c, ⟨c :: b.seen, rest⟩)
  | [] => (none, b)

/-- `LexBuf::prev`, which panics at position 0. -/
def prev (b : LexBuf) : Option LexBuf :=
  match b.seen with
  | c :: seen => some ⟨seen, c :: b.rest⟩
  | [] => none

/-- `LexBuf::consume`. -/
def consume (ch : Char) (b : LexBuf) : Bool × LexBuf :=
  if b.peek = some ch then (true, b.next.2) else (false, b)

/-- `LexBuf::take_while`: the characters taken, and the buffer past them. -/
def takeWhile (p : Char → Bool) (b : LexBuf) : List Char × LexBuf :=
  let s := b.rest.takeWhile p
  (s, ⟨s.reverse ++ b.seen, b.rest.drop s.length⟩)

/-- The slice `&buf.inner()[pos..buf.pos()]`. -/
def sliceFrom (b : LexBuf) (pos : Nat) : List Char := (b.inner.take b.pos).drop pos

end LexBuf

/-- `char::is_ascii_whitespace`: space, tab, line feed, form feed and carriage return. -/
def isAsciiWhitespace (c : Char) : Bool :=
  c = ' ' || c = '\t' || c = '\n' || c = '\x0C' || c = '\r'

/-- `str::to_uppercase`, which the lexer only compares with `NULL`. It is ASCII upper-casing
here: no string but a case variant of `null` upper-cases to `NULL` under the full Unicode
mapping either. -/
def toUppercase (s : List Char) : List Char := s.map Char.toUpper

/-- `[u8]::eq_ignore_ascii_case`. -/
def eqIgnoreAsciiCase (a b : List Char) : Bool := a.map Char.toLower == b.map Char.toLower

/-- The special characters of a list or array element (the closure `is_special_char`). -/
def isSpecialChar (c : Char) : Bool := c = '{' || c = '}' || c = ',' || c = '\\' || c = '"'

/-- The characters that end an unquoted list or array element (the closure
`is_end_of_literal`). -/
def isEndOfLiteral (c : Char) : Bool := c = ',' || c = '}'

/-! ## The element lexers -/

/-- The loop of `lex_quoted_element` after its first `take_while`, over the characters still to
read: `s` is the text so far and `seen` the characters read. -/
def lexQuotedLoop (s seen : List Char) : List Char → Except String (List Char × LexBuf)
  | c :: rest =>
    if c = '\\' then
      match rest with
      | c' :: rest' => lexQuotedLoop (s ++ [c']) (c' :: c :: seen) rest'
      | [] => .error "unterminated quoted string"
    else if c = '"' then .ok (s, ⟨c :: seen, rest⟩)
    else lexQuotedLoop (s ++ [c]) (c :: seen) rest
  | [] => .error "unterminated quoted string"

theorem lexQuotedLoop_cons (s seen : List Char) (c : Char) (rest : List Char) :
    lexQuotedLoop s seen (c :: rest) =
      if c = '\\' then
        (match rest with
          | c' :: rest' => lexQuotedLoop (s ++ [c']) (c' :: c :: seen) rest'
          | [] => .error "unterminated quoted string")
      else if c = '"' then .ok (s, ⟨c :: seen, rest⟩)
      else lexQuotedLoop (s ++ [c]) (c :: seen) rest := by
  cases rest <;> rfl

/-- `lex_quoted_element`; `none` where its `assert!` fails. -/
def lexQuotedElement (b : LexBuf) : Option (Except String (List Char × LexBuf)) :=
  let (ok, b) := b.consume '"'
  if !ok then none
  else
    let (s, b) := b.takeWhile fun ch => !(ch = '"' || ch = '\\')
    -- the text had no escape: the borrowed slice is returned
    if b.peek = some '"' then some (.ok (s, b.next.2))
    else some (lexQuotedLoop s b.seen b.rest)

/-- The loop of `lex_embedded_element` while `depth` braces are open; `inEscape` inside a quoted
part, where braces do not count. -/
def lexEmbeddedLoop (depth : Nat) (inEscape : Bool) (seen : List Char) :
    List Char → Except String LexBuf
  | [] => if depth = 0 then .ok ⟨seen, []⟩ else .error "unterminated embedded element"
  | c :: rest =>
    if depth = 0 then .ok ⟨seen, c :: rest⟩
    else if c = '\\' then
      -- the next character is escaped, and skipped
      match rest with
      | c' :: rest' => lexEmbeddedLoop depth inEscape (c' :: c :: seen) rest'
      -- there is none: the loop goes on at the end of the input
      | [] => .error "unterminated embedded element"
    else if c = '"' then lexEmbeddedLoop depth (!inEscape) (c :: seen) rest
    else if c = '{' ∧ !inEscape then lexEmbeddedLoop (depth + 1) inEscape (c :: seen) rest
    else if c = '}' ∧ !inEscape then lexEmbeddedLoop (depth - 1) inEscape (c :: seen) rest
    else lexEmbeddedLoop depth inEscape (c :: seen) rest

theorem lexEmbeddedLoop_nil (depth : Nat) (inEscape : Bool) (seen : List Char) :
    lexEmbeddedLoop depth inEscape seen [] =
      if depth = 0 then .ok ⟨seen, []⟩ else .error "unterminated embedded element" := rfl

theorem lexEmbeddedLoop_cons (depth : Nat) (inEscape : Bool) (seen : List Char) (c : Char)
    (rest : List Char) :
    lexEmbeddedLoop depth inEscape seen (c :: rest) =
      if depth = 0 then .ok ⟨seen, c :: rest⟩
      else if c = '\\' then
        (match rest with
          | c' :: rest' => lexEmbeddedLoop depth inEscape (c' :: c :: seen) rest'
          | [] => .error "unterminated embedded element")
      else if c = '"' then lexEmbeddedLoop depth (!inEscape) (c :: seen) rest
      else if c = '{' ∧ !inEscape then lexEmbeddedLoop (depth + 1) inEscape (c :: seen) rest
      else if c = '}' ∧ !inEscape then lexEmbeddedLoop (depth - 1) inEscape (c :: seen) rest
      else lexEmbeddedLoop depth inEscape (c :: seen) rest := by
  cases rest <;> rfl

/-- `lex_embedded_element`: the nested list's text, braces included; `none` where its `assert!`
fails. -/
def lexEmbeddedElement (b : LexBuf) : Option (Except String (List Char × LexBuf)) :=
  let pos := b.pos
  match b.next with
  | (some '{', b) =>
    some ((lexEmbeddedLoop 1 false b.seen b.rest).map fun b => (b.sliceFrom pos, b))
  | _ => none

/-- The loop of `lex_unquoted_element` after its first `take_while`: the text `s` so far,
whether a character was escaped, and the length that leaves out trailing whitespace. It returns
the truncated text, whether a character was escaped, and the buffer at the terminator. -/
def lexUnquotedLoop (isSpecialChar isEndOfLiteral : Char → Bool) (s : List Char)
    (escapedChar : Bool) (trimmedLen : Nat) (seen : List Char) :
    List Char → Except String (List Char × Bool × LexBuf)
  | c :: rest =>
    if c = '\\' then
      match rest with
      | c' :: rest' =>
        lexUnquotedLoop isSpecialChar isEndOfLiteral (s ++ [c']) true (s.length + 1)
          (c' :: c :: seen) rest'
      | [] => .error "unterminated element"
    else if isEndOfLiteral c then
      if s.isEmpty then .error "malformed literal; missing element"
      -- `buf.prev()` puts the terminator back
      else .ok (s.take trimmedLen, escapedChar, ⟨seen, c :: rest⟩)
    else if isSpecialChar c then
      .error ("malformed literal; must escape special character '" ++ c.toString ++ "'")
    else
      lexUnquotedLoop isSpecialChar isEndOfLiteral (s ++ [c]) escapedChar
        (if isAsciiWhitespace c then trimmedLen else s.length + 1) (c :: seen) rest
  | [] => .error "unterminated element"

/-- `lex_unquoted_element`: `none` inside for a null element, and `none` outside where it
panics (at the end of the input, or at whitespace). -/
def lexUnquotedElement (isSpecialChar isEndOfLiteral : Char → Bool) (b : LexBuf) :
    Option (Except String (Option (List Char) × LexBuf)) :=
  match b.peek with
  | none => none
  | some c =>
    if isAsciiWhitespace c then none
    else
      let (s, b) := b.takeWhile fun ch => !isSpecialChar ch && !isAsciiWhitespace ch
      -- the text had no special character: the borrowed slice is returned
      if (b.peek = some ',' ∨ b.peek = some '}') ∧ s ≠ [] then
        some (.ok (if toUppercase s = "NULL".toList then none else some s, b))
      else
        some ((lexUnquotedLoop isSpecialChar isEndOfLiteral s false s.length b.seen b.rest).map
          fun (s, escapedChar, b) =>
            (if toUppercase s = "NULL".toList ∧ !escapedChar then none else some s, b))

/-! ## Parse errors -/

/-- `ParseErrorKind`. -/
inductive ParseErrorKind where
  | outOfRange
  | invalidInputSyntax
  deriving DecidableEq, Repr

/-- `ParseError`. -/
structure ParseError where
  kind : ParseErrorKind
  typeName : String
  input : List Char
  details : Option String
  deriving DecidableEq, Repr

/-- `ParseError::invalid_input_syntax`. -/
def ParseError.invalidInputSyntax (typeName : String) (input : List Char) : ParseError :=
  ⟨.invalidInputSyntax, typeName, input, none⟩

/-- `ParseError::with_details`. -/
def ParseError.withDetails (e : ParseError) (details : String) : ParseError :=
  { e with details := some details }

/-! ## Lists -/

section List

variable {T : Type}

/-- One element of `parse_list_inner`'s loop, read after the whitespace before it; `generated`
is the element generator, its error turned into a string. -/
def parseListElem (isElementTypeList : Bool) (makeNull : T)
    (generated : List Char → Except String T) (b : LexBuf) :
    Option (Except String (T × LexBuf)) :=
  match b.peek with
  | some '"' => (lexQuotedElement b).map (·.bind fun (s, b) => (generated s).map (·, b))
  | some '{' =>
    if !isElementTypeList then
      some (.error ("unescaped '\x7b' at beginning of element; perhaps you want a nested list, " ++
        "e.g. '\x7ba\x7d'::text list list"))
    else (lexEmbeddedElement b).map (·.bind fun (s, b) => (generated s).map (·, b))
  | some _ =>
    (lexUnquotedElement isSpecialChar isEndOfLiteral b).map (·.bind fun (e, b) =>
      match e with
      | some e => (generated e).map (·, b)
      | none => .ok (makeNull, b))
  | none => some (.error "unexpected end of input")

/-- The loop of `parse_list_inner`, from the elements read so far. A round reads the terminator
or separator after the last element (none before the first), then one element. -/
def parseListLoop (isElementTypeList : Bool) (makeNull : T)
    (generated : List Char → Except String T) :
    Nat → List T → LexBuf → Option (Except String (List T × LexBuf))
  | 0, _, _ => none
  | fuel + 1, elems, b =>
    let b := (b.takeWhile isAsciiWhitespace).2
    match b.next with
    | (some '}', b) => some (.ok (elems, b))
    | (c, b') =>
      let afterSep : Option (Except String LexBuf) :=
        -- before the first element nothing is expected: the character is put back
        if elems.length = 0 then b'.prev.map .ok
        else
          match c with
          | some ',' => some (.ok b')
          | some c => some (.error ("expected ',' or '\x7d', got '" ++ c.toString ++ "'"))
          | none => some (.error "unexpected end of input")
      match afterSep with
      | some (.ok b) =>
        match parseListElem isElementTypeList makeNull generated (b.takeWhile isAsciiWhitespace).2
          with
        | some (.ok (elem, b)) =>
          parseListLoop isElementTypeList makeNull generated fuel (elems ++ [elem]) b
        | some (.error e) => some (.error e)
        | none => none
      | some (.error e) => some (.error e)
      | none => none

/-- `parse_list_inner`. -/
def parseListInner (isElementTypeList : Bool) (makeNull : T)
    (genElem : List Char → Except String T) (s : List Char) :
    Option (Except String (List T)) :=
  let (ok, b) := (LexBuf.new s).consume '{'
  if !ok then
    some (.error ("expected '\x7b', found " ++
      match b.next.1 with
      | some c => c.toString
      | none => "empty string"))
  else
    match parseListLoop isElementTypeList makeNull genElem (s.length + 1) [] b with
    | some (.ok (elems, b)) =>
      match ((b.takeWhile isAsciiWhitespace).2.next).1 with
      | some c =>
        some (.error ("malformed array literal; contains '" ++ c.toString ++
          "' after terminal '\x7d'"))
      | none => some (.ok elems)
    | some (.error e) => some (.error e)
    | none => none

/-- `parse_list`. -/
def parseList (isElementTypeList : Bool) (makeNull : T)
    (genElem : List Char → Except String T) (s : List Char) :
    Option (Except ParseError (List T)) :=
  (parseListInner isElementTypeList makeNull genElem s).map
    (·.mapError ((ParseError.invalidInputSyntax "list" s).withDetails ·))

end List

/-! ## Arrays -/

/-- `ArrayParsingError`. -/
inductive ArrayParsingError where
  | openingBraceMissing
  | dimsUnsupported
  | generic (s : String)
  | unexpectedChar (c : Char)
  | nonRectilinearDims
  | unexpectedElement
  | junk
  | earlyTerm
  deriving DecidableEq, Repr

/-- The message of an `ArrayParsingError`. -/
def ArrayParsingError.toString : ArrayParsingError → String
  | .openingBraceMissing => "Array value must start with \"\x7b\""
  | .dimsUnsupported => "Specifying array lower bounds is not supported"
  | .generic s => s
  | .unexpectedChar c => "Unexpected \"" ++ c.toString ++ "\" character."
  | .nonRectilinearDims =>
    "Multidimensional arrays must have sub-arrays with matching dimensions."
  | .unexpectedElement => "Unexpected array element."
  | .junk => "Junk after closing right brace."
  | .earlyTerm => "Unexpected end of input."

/-- A dimension of the array builder: its length once known, whether an element is staged, and
how many elements it has committed since it was entered. -/
structure Dimension where
  length : Option Nat := none
  stagedElement : Bool := false
  committedElementCount : Nat := 0
  deriving DecidableEq, Repr

/-- `ArrayBuilder`. -/
structure ArrayBuilder where
  currentCommandChar : Char
  dimensions : List Dimension
  currentDim : Nat
  sealed : Bool
  elements : List (Option (List Char))
  deriving DecidableEq, Repr

namespace ArrayBuilder

/-- `enter_dim`. -/
def enterDim (a : ArrayBuilder) : Option (Except ArrayParsingError ArrayBuilder) :=
  match a.dimensions[a.currentDim]? with
  | none => none
  | some d =>
    if d.stagedElement then some (.error (.unexpectedChar a.currentCommandChar))
    else if a.currentDim + 1 ≥ a.dimensions.length then some (.error .nonRectilinearDims)
    else some (.ok { a with currentDim := a.currentDim + 1 })

/-- `stage_element`. -/
def stageElement (a : ArrayBuilder) : Option (Except ArrayParsingError ArrayBuilder) :=
  match a.dimensions[a.currentDim]? with
  | none => none
  | some d =>
    if d.stagedElement then some (.error .unexpectedElement)
    else
      some (.ok { a with
        dimensions := a.dimensions.set a.currentDim { d with stagedElement := true } })

/-- `insert_element`. -/
def insertElement (a : ArrayBuilder) (s : Option (List Char)) :
    Option (Except ArrayParsingError ArrayBuilder) :=
  if a.currentDim ≠ a.dimensions.length - 1 then some (.error .unexpectedElement)
  else (a.stageElement).map (·.map fun a => { a with elements := a.elements ++ [s] })

/-- `commit_element`. -/
def commitElement (a : ArrayBuilder) (requireStaged : Bool) :
    Option (Except ArrayParsingError ArrayBuilder) :=
  match a.dimensions[a.currentDim]? with
  | none => none
  | some d =>
    if !d.stagedElement then
      -- only the brace that closes an empty dimension needs no staged element
      if requireStaged || d.committedElementCount > 0 then
        some (.error (.unexpectedChar a.currentCommandChar))
      else some (.ok a)
    else
      some (.ok { a with
        dimensions := a.dimensions.set a.currentDim
          { d with stagedElement := false, committedElementCount := d.committedElementCount + 1 } })

/-- `exit_dim`. -/
def exitDim (a : ArrayBuilder) : Option (Except ArrayParsingError ArrayBuilder) :=
  match a.commitElement false with
  | some (.ok a) =>
    match a.dimensions[a.currentDim]? with
    | none => none
    | some d =>
      if d.committedElementCount = 0 ∧ a.dimensions.length > 1 then
        some (.error (.unexpectedChar a.currentCommandChar))
      else
        let length : Except ArrayParsingError Nat :=
          match d.length with
          | none => .ok d.committedElementCount
          | some l => if l ≠ d.committedElementCount then .error .nonRectilinearDims else .ok l
        match length with
        | .error e => some (.error e)
        | .ok l =>
          let a := { a with
            dimensions := a.dimensions.set a.currentDim
              { d with length := some l, committedElementCount := 0 } }
          if a.currentDim = 0 then some (.ok { a with sealed := true })
          -- the closed dimension is an element of the one around it
          else stageElement { a with currentDim := a.currentDim - 1 }
  | r => r

end ArrayBuilder

/-- The loop of `build` over the leading braces: one more dimension for each, whitespace around
them skipped. -/
def countDims (dimensions : Nat) (seen : List Char) : List Char → Nat × LexBuf
  | c :: rest =>
    if isAsciiWhitespace c then countDims dimensions (c :: seen) rest
    else if c = '{' then countDims (dimensions + 1) (c :: seen) rest
    else (dimensions, ⟨seen, c :: rest⟩)
  | [] => (dimensions, ⟨seen, []⟩)

/-- One command of `build`'s main loop, at the command character `c`, with `b` the buffer past
it. -/
def buildCommand (a : ArrayBuilder) (c : Char) (b : LexBuf) :
    Option (Except ArrayParsingError (ArrayBuilder × LexBuf)) :=
  let a := { a with currentCommandChar := c }
  if c = '{' then a.enterDim.map (·.map (·, b))
  else if c = '}' then a.exitDim.map (·.map (·, b))
  else if c = ',' then (a.commitElement true).map (·.map (·, b))
  else
    -- `buf.prev()` puts the element's first character back
    match b.prev with
    | none => none
    | some b =>
      let s : Option (Except String (Option (List Char) × LexBuf)) :=
        if c = '"' then (lexQuotedElement b).map (·.map fun (s, b) => (some s, b))
        else lexUnquotedElement isSpecialChar isEndOfLiteral b
      match s with
      | some (.ok (s, b)) => (a.insertElement s).map (·.map (·, b))
      | some (.error e) => some (.error (.generic e))
      | none => none

/-- The main loop of `build`. -/
def buildLoop : Nat → ArrayBuilder → LexBuf →
    Option (Except ArrayParsingError (ArrayBuilder × LexBuf))
  | 0, _, _ => none
  | fuel + 1, a, b =>
    let b := (b.takeWhile isAsciiWhitespace).2
    match b.next with
    | (none, b) => if a.sealed then some (.ok (a, b)) else some (.error .earlyTerm)
    | (some c, b) =>
      if a.sealed then some (.error .junk)
      else
        match buildCommand a c b with
        | some (.ok (a, b)) => buildLoop fuel a b
        | r => r

/-- `ArrayBuilder::build`: the raw elements and the dimensions, each of lower bound 1. -/
def build (s : List Char) :
    Option (Except ArrayParsingError (List (Option (List Char)) × List Row.ArrayDimension)) :=
  let (dimsGiven, b) := (LexBuf.new s).consume '['
  if dimsGiven then some (.error .dimsUnsupported)
  else
    let (ok, b) := (b.takeWhile isAsciiWhitespace).2.consume '{'
    if !ok then some (.error .openingBraceMissing)
    else
      let (dimensions, b) := countDims 1 b.seen b.rest
      -- the builder starts at the element-bearing dimension, the last one
      let builder : ArrayBuilder := ⟨'{', List.replicate dimensions {}, dimensions - 1, false, []⟩
      match buildLoop (s.length + 1) builder b with
      | some (.ok (a, _)) =>
        -- an empty array has no dimensions rather than one of length 0
        if a.elements.isEmpty then some (.ok ([], []))
        else
          -- every dimension's length is known, or `expect` panics
          (a.dimensions.mapM fun d : Dimension => d.length).map fun lengths =>
            .ok (a.elements, lengths.map fun l => ⟨.one, UInt64.ofNat l⟩)
      | some (.error e) => some (.error e)
      | none => none

section Array

variable {T : Type}

/-- `parse_array_inner`. -/
def parseArrayInner (makeNull : T) (genElem : List Char → Except String T) (s : List Char) :
    Option (Except ArrayParsingError (List T × List Row.ArrayDimension)) :=
  (build s).map (·.bind fun (rawElems, dims) =>
    (rawElems.mapM fun
      | some elem => (genElem elem).mapError ArrayParsingError.generic
      | none => .ok makeNull).map (·, dims))

/-- `parse_array`. -/
def parseArray (makeNull : T) (genElem : List Char → Except String T) (s : List Char) :
    Option (Except ParseError (List T × List Row.ArrayDimension)) :=
  (parseArrayInner makeNull genElem s).map
    (·.mapError fun details =>
      (ParseError.invalidInputSyntax "array" s).withDetails details.toString)

end Array

/-! ## Formatting -/

/-- `Nestable`: whether a formatted element may need quoting inside a list or array. -/
inductive Nestable where
  | yes
  | mayNeedEscaping
  deriving DecidableEq, Repr

/-- `format_string`. -/
def formatString (buf s : List Char) : List Char × Nestable := (buf ++ s, .mayNeedEscaping)

/-- `ListElementWriter::write_null`. -/
def writeNull (buf : List Char) : List Char × Nestable := (buf ++ "NULL".toList, .yes)

/-- The `ElementEscaper` trait: which elements are quoted, and the character written before a
quote or a backslash inside the quotes. -/
structure ElementEscaper where
  needsEscaping : List Char → Bool
  escapeChar : Char → Char

/-- `ListElementEscaper`. -/
def listElementEscaper : ElementEscaper where
  needsEscaping elem :=
    elem.isEmpty || eqIgnoreAsciiCase elem "NULL".toList ||
      elem.any fun c => c = '{' || c = '}' || c = ',' || c = '"' || c = '\\' ||
        isAsciiWhitespace c
  escapeChar _ := '\\'

/-- The backward walk of `escape_elem`: `k` characters of the element, from `start`, are still
to copy, and `wi` is the next index written. Each character is copied, and a quote or a backslash
gets the escape character before it. -/
def escapeWalk (E : ElementEscaper) (start : Nat) : Nat → List Char → Nat → Option (List Char × Nat)
  | 0, buf, wi => some (buf, wi)
  | k + 1, buf, wi => do
    let c ← buf[start + k]?
    let buf ← Buffer.set? buf wi c
    let wi := wi - 1
    let c ← buf[start + k]?
    if c = '\\' ∨ c = '"' then
      let buf ← Buffer.set? buf wi (E.escapeChar c)
      escapeWalk E start k buf (wi - 1)
    else escapeWalk E start k buf wi

/-- `escape_elem`: quotes the element from `start` to the end of the buffer in place, if the
escaper says it needs it. The buffer is padded first, and the walk ends at `start`, which the
`assert!` checks. -/
def escapeElem (E : ElementEscaper) (buf : List Char) (start : Nat) : Option (List Char) :=
  if buf.length < start then none
  else
    let elem := buf.drop start
    if !E.needsEscaping elem then some buf
    else
      let extras := 2 + (elem.filter fun b => b = '"' || b = '\\').length
      let origEnd := buf.length
      let newEnd := buf.length + extras
      let buf := buf ++ List.replicate extras '\x00'
      let wi := newEnd - 1
      do
      let buf ← Buffer.set? buf wi '"'
      let (buf, wi) ← escapeWalk E start (origEnd - start) buf (wi - 1)
      let buf ← Buffer.set? buf wi '"'
      if wi = start then some buf else none

section Format

variable {T E : Type}

/-- `format_elems`: each element written by `formatElem`, escaped if it may need it, and `sep`
between two elements. -/
def formatElems (formatElem : List Char → T → Option (Except E (List Char × Nestable))) (sep : Char) :
    List T → List Char → Option (Except E (List Char))
  | [], buf => some (.ok buf)
  | elem :: elems, buf =>
    let start := buf.length
    match formatElem buf elem with
    | none => none
    | some (.error e) => some (.error e)
    | some (.ok (buf, n)) =>
      let buf : Option (List Char) :=
        match n with
        | .mayNeedEscaping => escapeElem listElementEscaper buf start
        | .yes => some buf
      match buf with
      | none => none
      | some buf =>
        -- `elems.peek().is_some()`
        let buf := if elems.isEmpty then buf else buf ++ [sep]
        formatElems formatElem sep elems buf

/-- `format_list`. -/
def formatList (buf : List Char) (elems : List T)
    (formatElem : List Char → T → Option (Except E (List Char × Nestable))) :
    Option (Except E (List Char × Nestable)) :=
  (formatElems formatElem ',' elems (buf ++ ['{'])).map (·.map fun buf => (buf ++ ['}'], .yes))

/-- The loop of `format_array_inner` over the first dimension, from position `j` with `n`
positions left; `cell` writes one position. -/
def formatArrayRow (cell : List Char → List T → Option (Except E (List Char × List T))) :
    Nat → Nat → List Char → List T → Option (Except E (List Char × List T))
  | 0, _, buf, elems => some (.ok (buf, elems))
  | n + 1, j, buf, elems =>
    let buf := if j > 0 then buf ++ [','] else buf
    match cell buf elems with
    | some (.ok (buf, elems)) => formatArrayRow cell n (j + 1) buf elems
    | r => r

/-- `format_array_inner`, which takes its elements from the front of `elems` and returns those
left. -/
def formatArrayInner (formatElem : List Char → T → Option (Except E (List Char × Nestable))) :
    List Row.ArrayDimension → List Char → List T → Option (Except E (List Char × List T))
  | [], buf, elems => some (.ok (buf ++ ['{', '}'], elems))
  | d :: dims, buf, elems =>
    let cell : List Char → List T → Option (Except E (List Char × List T)) := fun buf elems =>
      if dims.isEmpty then
        -- `elems.next().unwrap()`
        match elems with
        | [] => none
        | elem :: elems =>
          let start := buf.length
          match formatElem buf elem with
          | none => none
          | some (.error e) => some (.error e)
          | some (.ok (buf, .mayNeedEscaping)) =>
            (escapeElem listElementEscaper buf start).map fun buf => .ok (buf, elems)
          | some (.ok (buf, .yes)) => some (.ok (buf, elems))
      else formatArrayInner formatElem dims buf elems
    match formatArrayRow cell d.length.toNat 0 (buf ++ ['{']) elems with
    | some (.ok (buf, elems)) => some (.ok (buf ++ ['}'], elems))
    | r => r

/-- `ArrayDimension::dimension_bounds`: the lower and the upper bound, `none` where the length
does not fit in an `isize` or the upper bound overflows. -/
def dimensionBounds (d : Row.ArrayDimension) : Option (SInt 64 × SInt 64) := do
  let length ← SInt.ofInt? (w := 64) d.length.toNat
  let end_ ← d.lowerBound.add? length
  let upper ← end_.sub? .one
  return (d.lowerBound, upper)

/-- `format_array`: the bounds of every dimension first when one does not start at 1. -/
def formatArray (buf : List Char) (dims : List Row.ArrayDimension) (elems : List T)
    (formatElem : List Char → T → Option (Except E (List Char × Nestable))) :
    Option (Except E (List Char × Nestable)) :=
  let header : Option (List Char) :=
    if dims.any fun d => d.lowerBound.val ≠ 1 then
      (dims.foldlM (fun buf d => (dimensionBounds d).map fun (lower, upper) =>
        buf ++ ['['] ++ (toString lower.val).toList ++ [':'] ++ (toString upper.val).toList ++
          [']']) buf).map (· ++ ['='])
    else some buf
  match header with
  | none => none
  | some buf => (formatArrayInner formatElem dims buf elems).map (·.map fun (buf, _) => (buf, .yes))

end Format

/-- The element formatter of a text list or array, as its callers write it: `write_null` for a
null, `format_string` for a string. -/
def formatTextElem (buf : List Char) :
    Option (List Char) → Option (Except String (List Char × Nestable))
  | none => some (.ok (writeNull buf))
  | some s => some (.ok (formatString buf s))

/-- The element formatter of a list of text lists: `write_null` for a null, `format_list` with
the text formatter for a list. -/
def formatTextListElem (buf : List Char) :
    Option (List (Option (List Char))) → Option (Except String (List Char × Nestable))
  | none => some (.ok (writeNull buf))
  | some l => formatList buf l formatTextElem

end Materialize.Strconv
