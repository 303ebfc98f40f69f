import Runbook.Syntax.Cursor
import Runbook.Word

/-!
What holds no expression: lists of names, amounts, strings, comments, the end of a statement.

Lists of names are read up to a bound on their length; the characters that are left are bound
enough, since each name takes one.
-/
namespace Runbook

/-- What a letter after a backslash stands for in a string. -/
def escaped? (ch : Char) : Option Char :=
  if ch = '"' ∨ ch = '\\' then some ch
  else if ch = 'n' then some '\n'
  else if ch = 't' then some '\t'
  else none

/-- Does it stand for itself in a string? -/
def isPlain (ch : Char) : Bool := ch != '"' && ch != '\\' && ch != '\n'

def isWithinLine (ch : Char) : Bool := ch != '\n'

/-- Can it stand in the remark on a procedure's parameters? -/
def isWithinHeader (ch : Char) : Bool := ch != '\x7b' && ch != '\n'

namespace Cursor

variable {text : List Char}

/-- At most `bound` names with blanks before each, and the place after the last blank. -/
def namesWithin : Nat → Cursor text → List Identifier × Cursor text
  | 0, c => ([], c.skipBlanks)
  | bound + 1, c =>
    let c := c.skipBlanks
    if c.atName then
      let (others, last) := namesWithin bound c.name.2
      (c.name.1 :: others, last)
    else ([], c)

/-- All names that follow with blanks before each, and the place after the last blank. -/
def names (c : Cursor text) : List Identifier × Cursor text := namesWithin c.rest.length c

/-- At most `bound` names with commas between them; the last may have a comma too. -/
def targetsWithin : Nat → Cursor text → List Identifier × Cursor text
  | 0, c => ([], c.skipBlanks)
  | bound + 1, c =>
    let c := c.skipBlanks
    if c.atName then
      let after := c.name.2.skipBlanks
      match after.take? ',' with
      | some next =>
        let (others, last) := targetsWithin bound next
        (c.name.1 :: others, last)
      | none => ([c.name.1], after)
    else ([], c)

/-- The names before the `=` of an assignment, and the place after it; `none` if this is no
assignment. -/
def targets? (c : Cursor text) : Option (List Identifier × Cursor text) :=
  match targetsWithin c.rest.length c with
  | ([], _) => none
  | (names, after) => (after.take? '=').map (names, ·)

/-- At most `bound` names with a comma before each. A comma that no name follows is not taken. -/
def commaNamesWithin : Nat → Cursor text → List Identifier × Cursor text
  | 0, c => ([], c)
  | bound + 1, c =>
    match c.take? ',' with
    | none => ([], c)
    | some next =>
      let next := next.skipBlanks
      if next.atName then
        let (others, last) := commaNamesWithin bound next.name.2.skipBlanks
        (next.name.1 :: others, last)
      else ([], c)

/-- All names that follow with a comma before each. -/
def commaNames (c : Cursor text) : List Identifier × Cursor text := commaNamesWithin c.rest.length c

/-- Names up to a colon or an opening brace begin a procedure. -/
def atDeclaration (c : Cursor text) : Bool :=
  c.atName && (let next := c.names.2.peek?; next == some ':' || next == some '\x7b')

/-- The remark on the parameters after a colon: up to the brace or the line's end, without the
white space around it. -/
def signature (c : Cursor text) : Option String × Cursor text :=
  match c.take? ':' with
  | none => (none, c)
  | some next =>
    let remark := Text.trim (next.taken isWithinHeader)
    (if remark.isEmpty then none else some (String.ofList remark), next.skipWhile isWithinHeader)

/-- A whole number of 63 bits and its unit, if letters follow. -/
def amount (c : Cursor text) : Reading (Expression × Cursor text) :=
  let magnitude := Nat.ofDigitChars 10 (c.taken Char.isDigit) 0
  if magnitude < Word.signedLimit then
    let after := c.skipWhile Char.isDigit
    let value := Int64.ofNat magnitude
    match after.taken Char.isAlpha with
    | [] => .ok (.amount c.offset (.number value), after)
    | unit =>
      .ok (.amount c.offset (.measure value (String.ofList unit)), after.skipWhile Char.isAlpha)
  else .error (c.unexpected [.label "number"])

/-- The characters of a string up to its closing quote, which stands on the same line, with at most
`bound` escapes. -/
def stringWithin : Nat → Cursor text → Reading (List Char × Cursor text)
  | 0, c => .error (c.unexpected [.tokens "\""])
  | bound + 1, c => do
    let piece := c.taken isPlain
    let stop := c.skipWhile isPlain
    match stop.take? '"', stop.take? '\\' with
    | some after, _ => .ok (piece, after)
    | none, some letter =>
      match letter.peek?.bind escaped? with
      | none => .error (letter.unexpected [.label "escape sequence"])
      | some meant =>
        let (others, after) ← stringWithin bound letter.advance
        .ok (piece ++ meant :: others, after)
    | none, none => .error (stop.unexpected [.tokens "\""])

/-- A string, whose opening quote is next. -/
def string (c : Cursor text) : Reading (String × Cursor text) := do
  let (meant, after) ← stringWithin c.rest.length c.advance
  .ok (String.ofList meant, after)

/-- A comment, which is next, without the white space around its text; it takes the line's end. -/
def comment (c : Cursor text) : Statement × Cursor text :=
  let within := c.advance.advance
  (.comment c.offset (String.ofList (Text.trim (within.taken isWithinLine))),
    (within.skipWhile isWithinLine).skipLineFeed)

/-- What ends a statement: a line feed, a semicolon, a comment, or the brace after it, which is not
taken. It may leave statements of its own. -/
def statementEnd (c : Cursor text) : Reading (List Statement × Cursor text) :=
  let c := c.skipBlanks
  if c.atComment then .ok ([c.comment.1], c.comment.2)
  else
    match c.peek? with
    | some '\n' => .ok ([], c.advance)
    | some ';' => .ok ([.series c.offset], c.advance.skipBlanks.skipLineFeed)
    | some '\x7d' => .ok ([], c)
    | _ =>
      .error (c.unexpected [.tokens "\n", .tokens ";", .tokens "\x7d", .label "operator"])

end Cursor

end Runbook
