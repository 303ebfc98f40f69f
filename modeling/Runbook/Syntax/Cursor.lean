import Runbook.Text.Utf8
import Runbook.Text.Blank
import Runbook.Syntax.Basic
import Runbook.Syntax.Expectation

/-!
A place in a text, and the reading of what holds no other construct: blanks and names.

A cursor pairs the byte offset with the characters from there on, and stands between two characters
of its text. All cursors but the first are made by passing characters that are next.
-/
namespace Runbook

/-- A place in a text: its byte offset, and the text from there on. -/
structure Cursor (text : List Char) where
  offset : Nat
  rest : List Char
  stands : ∃ before, before ++ rest = text ∧ Text.byteLength before = offset

/-- What a reader gives, mostly with the place after it, or where and why it stopped. -/
abbrev Reading := Except ParseError

namespace Cursor

variable {text : List Char}

def start (text : List Char) : Cursor text := ⟨0, text, [], rfl, rfl⟩

/-- The place after `passed`, which stands here before `rest`. -/
def past (c : Cursor text) (passed rest : List Char) (here : passed ++ rest = c.rest) :
    Cursor text where
  offset := c.offset + Text.byteLength passed
  rest := rest
  stands := by
    obtain ⟨before, whole, length⟩ := c.stands
    refine ⟨before ++ passed, ?_, ?_⟩
    · rw [List.append_assoc, here, whole]
    · rw [Text.byteLength_append, length]

@[simp] theorem past_rest (c : Cursor text) {passed rest : List Char}
    (here : passed ++ rest = c.rest) : (c.past passed rest here).rest = rest := rfl

@[simp] theorem past_offset (c : Cursor text) {passed rest : List Char}
    (here : passed ++ rest = c.rest) :
    (c.past passed rest here).offset = c.offset + Text.byteLength passed := rfl

/-- A place is known by the text from there on. -/
theorem ext {c d : Cursor text} (same : c.rest = d.rest) : c = d := by
  obtain ⟨offset, rest, before, whole, length⟩ := c
  obtain ⟨other, rest', before', whole', length'⟩ := d
  obtain rfl : rest = rest' := same
  obtain rfl := List.append_cancel_right (whole.trans whole'.symm)
  obtain rfl : offset = other := length.symm.trans length'
  rfl

def peek? (c : Cursor text) : Option Char := c.rest.head?

theorem peek?_eq_some {c : Cursor text} {ch : Char} :
    c.peek? = some ch ↔ ∃ rest, c.rest = ch :: rest := by
  rw [peek?, List.head?_eq_some_iff]

def advance (c : Cursor text) : Cursor text :=
  c.past (c.rest.take 1) (c.rest.drop 1) (List.take_append_drop 1 c.rest)

@[simp] theorem advance_rest (c : Cursor text) : c.advance.rest = c.rest.drop 1 := rfl

/-- The characters from here on that satisfy `p`. -/
def taken (p : Char → Bool) (c : Cursor text) : List Char := c.rest.takeWhile p

/-- The place after the characters that satisfy `p`. -/
def skipWhile (p : Char → Bool) (c : Cursor text) : Cursor text :=
  c.past (c.taken p) (c.rest.dropWhile p) List.takeWhile_append_dropWhile

@[simp] theorem skipWhile_rest (p : Char → Bool) (c : Cursor text) :
    (c.skipWhile p).rest = c.rest.dropWhile p := rfl

@[simp] theorem skipWhile_offset (p : Char → Bool) (c : Cursor text) :
    (c.skipWhile p).offset = c.offset + Text.byteLength (c.taken p) := rfl

def skipBlanks (c : Cursor text) : Cursor text := c.skipWhile Text.isBlank

@[simp] theorem skipBlanks_rest (c : Cursor text) :
    c.skipBlanks.rest = c.rest.dropWhile Text.isBlank := rfl

/-- Passes white space, line ends included. -/
def skipSpace (c : Cursor text) : Cursor text := c.skipWhile Text.isAsciiSpace

@[simp] theorem skipSpace_rest (c : Cursor text) :
    c.skipSpace.rest = c.rest.dropWhile Text.isAsciiSpace := rfl

def skipLineFeed (c : Cursor text) : Cursor text := if c.peek? = some '\n' then c.advance else c

theorem skipLineFeed_rest (c : Cursor text) :
    c.skipLineFeed.rest = if c.peek? = some '\n' then c.rest.drop 1 else c.rest := by
  rw [skipLineFeed]
  split <;> rfl

def atComment (c : Cursor text) : Bool := ['-', '-'].isPrefixOf c.rest

/-- The end of the text. -/
def finish (c : Cursor text) : Cursor text := c.past c.rest [] (List.append_nil c.rest)

/-- The error of finding none of `expected` here. -/
def unexpected (c : Cursor text) (expected : List Item) : ParseError where
  offset := c.offset
  unexpected := ItemSet.ofList [match c.peek? with
    | none => .endOfInput
    | some ch => .tokens (String.singleton ch)]
  expected := ItemSet.ofList expected

/-- The place after the character `ch`, which must be next. -/
def expect (ch : Char) (c : Cursor text) : Reading (Cursor text) :=
  if c.peek? = some ch then .ok c.advance
  else .error (c.unexpected [.tokens (String.singleton ch)])

theorem expect_eq_ok {ch : Char} {c after : Cursor text} :
    c.expect ch = .ok after ↔ c.peek? = some ch ∧ after = c.advance := by
  rw [expect]
  split
  · simp [*, eq_comm]
  · simp [*]

/-- The place after the character `ch`, if that is what stands here. -/
def take? (ch : Char) (c : Cursor text) : Option (Cursor text) :=
  if c.peek? = some ch then some c.advance else none

theorem take?_eq_some {ch : Char} {c after : Cursor text} :
    c.take? ch = some after ↔ c.peek? = some ch ∧ after = c.advance := by
  rw [take?]
  split
  · simp [*, eq_comm]
  · simp [*]

theorem take?_eq_none {ch : Char} {c : Cursor text} :
    c.take? ch = none ↔ c.peek? ≠ some ch := by
  rw [take?]
  split
  · simp [*]
  · simp [*]

end Cursor

/-- How many characters at the beginning are white space and comments, as they stand between
procedures; `inside` a comment, up to its line's end. -/
def triviaLength : (inside : Bool) → List Char → Nat
  | _, [] => 0
  | true, ch :: rest => triviaLength (ch != '\n') rest + 1
  | false, '-' :: '-' :: rest => triviaLength true rest + 2
  | false, ch :: rest => if Text.isAsciiSpace ch then triviaLength false rest + 1 else 0

def isNameStart (c : Char) : Bool := c.isAlpha || c == '_'

def isNameChar (c : Char) : Bool := c.isAlphanum || c == '_'

/-- May it begin the argument of an application? -/
def startsTerm (c : Char) : Bool :=
  c == '(' || c == '"' || c == '[' || c == '?' || c == '@' || c == '^' || c.isDigit
    || isNameStart c

namespace Cursor

variable {text : List Char}

/-- Passes white space and comments, as they stand between procedures. -/
def skipTrivia (c : Cursor text) : Cursor text :=
  let length := triviaLength false c.rest
  c.past (c.rest.take length) (c.rest.drop length) (List.take_append_drop length c.rest)

def atName (c : Cursor text) : Bool := c.peek?.any isNameStart

/-- The name that stands here, and the place after it. -/
def name (c : Cursor text) : Identifier × Cursor text :=
  (String.ofList (c.taken isNameChar), c.skipWhile isNameChar)

@[simp] theorem name_rest (c : Cursor text) :
    c.name.2.rest = c.rest.dropWhile isNameChar := rfl

@[simp] theorem name_toList (c : Cursor text) : c.name.1.toList = c.rest.takeWhile isNameChar :=
  String.toList_ofList

/-- A name; `what` it should have been is said otherwise. -/
def identifier (what : String) (c : Cursor text) : Reading (Identifier × Cursor text) :=
  if c.atName then .ok c.name else .error (c.unexpected [.label what])

theorem identifier_eq_ok {what : String} {c : Cursor text}
    {result : Identifier × Cursor text} :
    c.identifier what = .ok result ↔ c.atName = true ∧ result = c.name := by
  rw [identifier]
  split
  · simp [*, eq_comm]
  · simp [*]

end Cursor

end Runbook
