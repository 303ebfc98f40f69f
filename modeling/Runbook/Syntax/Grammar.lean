import Runbook.Syntax.Lexeme

/-!
The grammar of runbooks: `Document.read` reads a text into its document, or says where and why it
cannot.

Constructs nest, so their readers count down from a bound on the number of constructs that one
reading enters. Every character is met by fewer than eight of them, so eight for each character
never run out.
-/
namespace Runbook

def operator? (ch : Char) : Option Operator :=
  if ch = '|' then some .waitEither
  else if ch = '&' then some .waitBoth
  else if ch = '+' then some .combine
  else none

namespace Cursor

variable {text : List Char}

mutual

/-- An expression: terms with operators between them, grouped to the left. -/
def expression : Nat → Cursor text → Reading (Expression × Cursor text)
  | 0, c => .error (c.unexpected [.label "expression"])
  | bound + 1, c => do
    let (first, after) ← term bound c
    operations bound c.offset first after

/-- The operators after the operand `left`, of an expression that begins at `offset`. -/
def operations : Nat → Nat → Expression → Cursor text → Reading (Expression × Cursor text)
  | 0, _, _, c => .error (c.unexpected [.label "expression"])
  | bound + 1, offset, left, c => do
    let c := c.skipBlanks
    match c.peek?.bind operator? with
    | none => .ok (left, c)
    | some operator =>
      let (right, after) ← term bound c.advance
      operations bound offset (.operation offset operator left right) after

/-- A term, with the blanks before it. -/
def term : Nat → Cursor text → Reading (Expression × Cursor text)
  | 0, c => .error (c.unexpected [.label "expression"])
  | bound + 1, c => do
    let c := c.skipBlanks
    match c.peek? with
    | some '(' =>
      let inside := c.advance.skipBlanks
      match inside.take? ')' with
      | some after => .ok (.unit c.offset, after)
      | none =>
        let (inner, after) ← expression bound inside
        let after ← after.skipBlanks.expect ')'
        .ok (.grouping c.offset inner, after)
    | some '"' =>
      let (text, after) ← c.string
      .ok (.text c.offset text, after)
    | some '[' =>
      let (fields, after) ← fields bound c.advance
      .ok (.tablet c.offset fields, after)
    | some '?' => .ok (.hole c.offset, c.advance)
    | some '@' =>
      match c.advance.take? '*' with
      | some after => restriction bound c.offset .inherit after
      | none =>
        let (name, after) ← c.advance.identifier "role"
        restriction bound c.offset (.role name) after
    | some '^' =>
      let (name, after) ← c.advance.identifier "place"
      restriction bound c.offset (.place name) after
    | some ch =>
      if ch.isDigit then c.amount
      else if isNameStart ch then named bound c
      else .error (c.unexpected [.label "expression"])
    | none => .error (c.unexpected [.label "expression"])

/-- What begins with a name: a hole, names with commas between them, or an application. -/
def named : Nat → Cursor text → Reading (Expression × Cursor text)
  | 0, c => .error (c.unexpected [.label "expression"])
  | bound + 1, c => do
    let (first, after) := c.name
    if first = "undefined" then .ok (.hole c.offset, after)
    else
      let after := after.skipBlanks
      if after.peek?.any startsTerm then
        let (argument, last) ← term bound after
        .ok (.application c.offset first argument, last)
      else
        let (others, last) := after.commaNames
        .ok (.reference c.offset (first :: others), last)

/-- The fields of a tablet up to its closing bracket. -/
def fields : Nat → Cursor text → Reading (List (Label × Expression) × Cursor text)
  | 0, c => .error (c.unexpected [.label "label", .tokens "]"])
  | bound + 1, c => do
    let c := c.skipSpace
    match c.take? ']' with
    | some after => .ok ([], after)
    | none =>
      if c.peek? = some '"' then
        let (label, after) ← c.string
        let after ← after.skipSpace.expect '='
        let (value, after) ← expression bound after.skipSpace
        let after := after.skipSpace
        match after.take? ',', after.take? ']' with
        | some next, _ =>
          let (others, last) ← fields bound next
          .ok ((label, value) :: others, last)
        | none, some last => .ok ([(label, value)], last)
        | none, none => .error (after.unexpected [.tokens ",", .tokens "]"])
      else .error (c.unexpected [.label "label", .tokens "]"])

/-- The block of a restriction that begins at `offset`. -/
def restriction : Nat → Nat → Setting → Cursor text → Reading (Expression × Cursor text)
  | 0, _, _, c => .error (c.unexpected [.tokens "\x7b"])
  | bound + 1, offset, setting, c => do
    let (block, after) ← bracedBlock bound c.skipSpace
    .ok (.restriction offset setting block, after)

/-- A block between braces. A line end right after the opening brace leaves no blank line. -/
def bracedBlock : Nat → Cursor text → Reading (Block × Cursor text)
  | 0, c => .error (c.unexpected [.tokens "\x7b"])
  | bound + 1, c => do
    let inside ← c.expect '\x7b'
    let (block, after) ← block bound inside.skipBlanks.skipLineFeed
    let after ← after.expect '\x7d'
    .ok (block, after)

/-- The statements up to the closing brace, which is not taken. -/
def block : Nat → Cursor text → Reading (Block × Cursor text)
  | 0, c => .error (c.unexpected [.tokens "\x7d", .label "statement"])
  | bound + 1, c => do
    let c := c.skipBlanks
    match c.peek? with
    | none => .error (c.unexpected [.tokens "\x7d", .label "statement"])
    | some '\x7d' => .ok ([], c)
    | some '\n' =>
      let (others, last) ← block bound c.advance
      .ok (.blank c.offset :: others, last)
    | some _ =>
      if c.atComment then
        let (others, last) ← block bound c.comment.2
        .ok (c.comment.1 :: others, last)
      else
        let (statement, after) ← statement bound c
        let (endings, after) ← after.statementEnd
        let (others, last) ← block bound after
        .ok (statement :: endings ++ others, last)

/-- A statement that is no comment: an assignment if names and `=` are next, a procedure if it
looks like one, else an expression. -/
def statement : Nat → Cursor text → Reading (Statement × Cursor text)
  | 0, c => .error (c.unexpected [.label "expression"])
  | bound + 1, c => do
    match c.targets? with
    | some (targets, after) =>
      let (value, last) ← expression bound after.skipBlanks
      .ok (.assignment c.offset targets value, last)
    | none =>
      if c.atDeclaration then
        let (procedure, last) ← declaration bound c
        .ok (.declaration c.offset procedure, last)
      else
        let (value, last) ← expression bound c
        .ok (.execute c.offset value, last)

def declaration : Nat → Cursor text → Reading (Procedure × Cursor text)
  | 0, c => .error (c.unexpected [.label "procedure name"])
  | bound + 1, c => do
    let (name, after) ← c.identifier "procedure name"
    let (parameters, after) := after.names
    let (signature, after) := after.signature
    let (block, last) ← bracedBlock bound after.skipSpace
    .ok (⟨c.offset, name, parameters, signature, block⟩, last)

end

/-- The bound on the constructs that are entered from here on. -/
def bound (c : Cursor text) : Nat := 8 * (c.rest.length + 1)

/-- At most `limit` procedures, up to the end of the text. -/
def proceduresWithin : Nat → Cursor text → Reading (List Procedure)
  | 0, c => .error (c.unexpected [.label "procedure name"])
  | limit + 1, c => do
    let c := c.skipTrivia
    if c.rest.isEmpty then .ok []
    else
      let (first, after) ← declaration c.bound c
      let others ← proceduresWithin limit after
      .ok (first :: others)

end Cursor

/-- The document that `text` spells, which holds at least one procedure. -/
def Document.read (text : String) : Reading Document := do
  let start := Cursor.start text.toList
  match ← start.proceduresWithin (start.rest.length + 1) with
  | [] => .error (start.finish.unexpected [.label "procedure declaration"])
  | procedures => .ok ⟨procedures⟩

/-- The document that `text` spells, or all that is wrong with it. -/
def Document.parse (text : String) : Except ParseFailure Document :=
  (Document.read text).mapError fun error => ⟨[error]⟩

end Runbook
