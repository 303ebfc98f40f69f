import Runbook.Syntax.Grammar

/-!
What the readers of the grammar read.

`Reads c phrase after` has one rule for each way in which a construct is spelled, and knows no bound
on the constructs that are entered. What holds of all that is read is proved by induction on it.
Whatever a reader reads with some bound is read by the rules, and what is read by the rules the
readers read with every bound that is large enough.
-/
namespace Runbook

/-- What is read between two places, by the construct that reads it. -/
inductive Phrase where
  | expression (value : Expression)
  /-- The operators after the operand `left` of an expression that begins at `offset`. -/
  | operations (offset : Nat) (left value : Expression)
  | term (value : Expression)
  | named (value : Expression)
  | fields (fields : List (Label × Expression))
  | restriction (offset : Nat) (setting : Setting) (value : Expression)
  | bracedBlock (block : Block)
  | block (block : Block)
  | statement (statement : Statement)
  | declaration (procedure : Procedure)

/-- The phrase is what stands between the two places, by the rules of the grammar. -/
inductive Reads {text : List Char} : Cursor text → Phrase → Cursor text → Prop
  | expression {c middle after left value} :
      Reads c (.term left) middle → Reads middle (.operations c.offset left value) after →
      Reads c (.expression value) after
  | last {c offset left} : c.skipBlanks.peek?.bind operator? = none →
      Reads c (.operations offset left left) c.skipBlanks
  | operator {c operator right middle offset left value after} :
      c.skipBlanks.peek?.bind operator? = some operator →
      Reads c.skipBlanks.advance (.term right) middle →
      Reads middle (.operations offset (.operation offset operator left right) value) after →
      Reads c (.operations offset left value) after
  | unit {c after} : c.skipBlanks.peek? = some '(' →
      c.skipBlanks.advance.skipBlanks.take? ')' = some after →
      Reads c (.term (.unit c.skipBlanks.offset)) after
  | grouping {c inner middle after} : c.skipBlanks.peek? = some '(' →
      c.skipBlanks.advance.skipBlanks.take? ')' = none →
      Reads c.skipBlanks.advance.skipBlanks (.expression inner) middle →
      middle.skipBlanks.expect ')' = .ok after →
      Reads c (.term (.grouping c.skipBlanks.offset inner)) after
  | string {c meant after} : c.skipBlanks.peek? = some '"' →
      c.skipBlanks.string = .ok (meant, after) →
      Reads c (.term (.text c.skipBlanks.offset meant)) after
  | tablet {c fields after} : c.skipBlanks.peek? = some '[' →
      Reads c.skipBlanks.advance (.fields fields) after →
      Reads c (.term (.tablet c.skipBlanks.offset fields)) after
  | hole {c} : c.skipBlanks.peek? = some '?' →
      Reads c (.term (.hole c.skipBlanks.offset)) c.skipBlanks.advance
  | inherited {c middle value after} : c.skipBlanks.peek? = some '@' →
      c.skipBlanks.advance.take? '*' = some middle →
      Reads middle (.restriction c.skipBlanks.offset .inherit value) after →
      Reads c (.term value) after
  | role {c name middle value after} : c.skipBlanks.peek? = some '@' →
      c.skipBlanks.advance.take? '*' = none →
      c.skipBlanks.advance.identifier "role" = .ok (name, middle) →
      Reads middle (.restriction c.skipBlanks.offset (.role name) value) after →
      Reads c (.term value) after
  | place {c name middle value after} : c.skipBlanks.peek? = some '^' →
      c.skipBlanks.advance.identifier "place" = .ok (name, middle) →
      Reads middle (.restriction c.skipBlanks.offset (.place name) value) after →
      Reads c (.term value) after
  | amount {c ch value after} : c.skipBlanks.peek? = some ch → ch.isDigit = true →
      c.skipBlanks.amount = .ok (value, after) → Reads c (.term value) after
  | name {c value after} : c.skipBlanks.atName = true →
      Reads c.skipBlanks (.named value) after → Reads c (.term value) after
  | undefined {c} : c.atName = true → c.name.1 = "undefined" →
      Reads c (.named (.hole c.offset)) c.name.2
  | application {c argument after} : c.atName = true → c.name.1 ≠ "undefined" →
      c.name.2.skipBlanks.peek?.any startsTerm = true →
      Reads c.name.2.skipBlanks (.term argument) after →
      Reads c (.named (.application c.offset c.name.1 argument)) after
  | reference {c} : c.atName = true → c.name.1 ≠ "undefined" →
      c.name.2.skipBlanks.peek?.any startsTerm = false →
      Reads c (.named (.reference c.offset (c.name.1 :: c.name.2.skipBlanks.commaNames.1)))
        c.name.2.skipBlanks.commaNames.2
  | noField {c after} : c.skipSpace.take? ']' = some after → Reads c (.fields []) after
  | field {c label named begun value middle next others after} : c.skipSpace.take? ']' = none →
      c.skipSpace.peek? = some '"' → c.skipSpace.string = .ok (label, named) →
      named.skipSpace.expect '=' = .ok begun →
      Reads begun.skipSpace (.expression value) middle →
      middle.skipSpace.take? ',' = some next → Reads next (.fields others) after →
      Reads c (.fields ((label, value) :: others)) after
  | lastField {c label named begun value middle after} : c.skipSpace.take? ']' = none →
      c.skipSpace.peek? = some '"' → c.skipSpace.string = .ok (label, named) →
      named.skipSpace.expect '=' = .ok begun →
      Reads begun.skipSpace (.expression value) middle →
      middle.skipSpace.take? ',' = none → middle.skipSpace.take? ']' = some after →
      Reads c (.fields [(label, value)]) after
  | restriction {c offset setting block after} :
      Reads c.skipSpace (.bracedBlock block) after →
      Reads c (.restriction offset setting (.restriction offset setting block)) after
  | bracedBlock {c inside block middle after} : c.expect '\x7b' = .ok inside →
      Reads inside.skipBlanks.skipLineFeed (.block block) middle →
      middle.expect '\x7d' = .ok after → Reads c (.bracedBlock block) after
  | noStatement {c} : c.skipBlanks.peek? = some '\x7d' → Reads c (.block []) c.skipBlanks
  | blank {c others after} : c.skipBlanks.peek? = some '\n' →
      Reads c.skipBlanks.advance (.block others) after →
      Reads c (.block (.blank c.skipBlanks.offset :: others)) after
  | comment {c others after} : c.skipBlanks.atComment = true →
      Reads c.skipBlanks.comment.2 (.block others) after →
      Reads c (.block (c.skipBlanks.comment.1 :: others)) after
  | nextStatement {c ch statement middle endings next others after} :
      c.skipBlanks.peek? = some ch → ch ≠ '\x7d' → ch ≠ '\n' → c.skipBlanks.atComment = false →
      Reads c.skipBlanks (.statement statement) middle →
      middle.statementEnd = .ok (endings, next) → Reads next (.block others) after →
      Reads c (.block (statement :: endings ++ others)) after
  | assignment {c targets middle value after} : c.targets? = some (targets, middle) →
      Reads middle.skipBlanks (.expression value) after →
      Reads c (.statement (.assignment c.offset targets value)) after
  | procedure {c procedure after} : c.targets? = none → c.atDeclaration = true →
      Reads c (.declaration procedure) after →
      Reads c (.statement (.declaration c.offset procedure)) after
  | execute {c value after} : c.targets? = none → c.atDeclaration = false →
      Reads c (.expression value) after →
      Reads c (.statement (.execute c.offset value)) after
  | declaration {c block after} : c.atName = true →
      Reads c.name.2.names.2.signature.2.skipSpace (.bracedBlock block) after →
      Reads c (.declaration ⟨c.offset, c.name.1, c.name.2.names.1, c.name.2.names.2.signature.1,
        block⟩) after

theorem Reading.bind_eq_ok {α β : Type} {part : Reading α} {next : α → Reading β} {b : β} :
    (part >>= next) = .ok b ↔ ∃ a, part = .ok a ∧ next a = .ok b := by
  cases part with
  | error error =>
      refine iff_of_false nofun ?_
      intro found
      obtain ⟨a, none, _⟩ := found
      cases none
  | ok a => simp [bind, Except.bind]

namespace Cursor

variable {text : List Char}

/-! What is read with a bound is read by the rules. -/

mutual

theorem expression_reads : ∀ (bound : Nat) {c after : Cursor text} {value : Expression},
    expression bound c = .ok (value, after) → Reads c (.expression value) after
  | 0, _, _, _, read => by cases read
  | bound + 1, c, after, value, read => by
      rw [expression, Reading.bind_eq_ok] at read
      obtain ⟨⟨first, middle⟩, head, tail⟩ := read
      exact .expression (term_reads bound head) (operations_reads bound tail)

theorem operations_reads : ∀ (bound : Nat) {offset : Nat} {left : Expression}
    {c after : Cursor text} {value : Expression},
    operations bound offset left c = .ok (value, after) →
      Reads c (.operations offset left value) after
  | 0, _, _, _, _, _, read => by cases read
  | bound + 1, offset, left, c, after, value, read => by
      rw [operations] at read
      split at read
      · rename_i none
        cases read
        exact .last none
      · rename_i operator found
        rw [Reading.bind_eq_ok] at read
        obtain ⟨⟨right, middle⟩, head, tail⟩ := read
        exact .operator found (term_reads bound head) (operations_reads bound tail)

theorem term_reads : ∀ (bound : Nat) {c after : Cursor text} {value : Expression},
    term bound c = .ok (value, after) → Reads c (.term value) after
  | 0, _, _, _, read => by cases read
  | bound + 1, c, after, value, read => by
      rw [term] at read
      split at read
      · rename_i first
        dsimp only at read
        split at read
        · cases read
          exact .unit first ‹_›
        · rw [Reading.bind_eq_ok] at read
          obtain ⟨⟨inner, middle⟩, head, tail⟩ := read
          rw [Reading.bind_eq_ok] at tail
          obtain ⟨last, closed, same⟩ := tail
          cases same
          exact .grouping first ‹_› (expression_reads bound head) closed
      · rename_i first
        rw [Reading.bind_eq_ok] at read
        obtain ⟨⟨meant, last⟩, read, same⟩ := read
        cases same
        exact .string first read
      · rename_i first
        rw [Reading.bind_eq_ok] at read
        obtain ⟨⟨inside, last⟩, read, same⟩ := read
        cases same
        exact .tablet first (fields_reads bound read)
      · rename_i first
        cases read
        exact .hole first
      · rename_i first
        split at read
        · exact .inherited first ‹_› (restriction_reads bound read)
        · rw [Reading.bind_eq_ok] at read
          obtain ⟨⟨name, middle⟩, named, tail⟩ := read
          exact .role first ‹_› named (restriction_reads bound tail)
      · rename_i first
        rw [Reading.bind_eq_ok] at read
        obtain ⟨⟨name, middle⟩, named, tail⟩ := read
        exact .place first named (restriction_reads bound tail)
      · rename_i ch _ _ _ _ _ _ first
        split at read
        · exact .amount first ‹_› read
        · split at read
          · have there : c.skipBlanks.atName = true := by
              rw [atName, first]
              simpa
            exact .name there (named_reads bound there read)
          · cases read
      · cases read

theorem named_reads : ∀ (bound : Nat) {c after : Cursor text} {value : Expression},
    c.atName = true → named bound c = .ok (value, after) → Reads c (.named value) after
  | 0, _, _, _, _, read => by cases read
  | bound + 1, c, after, value, there, read => by
      simp only [named] at read
      split at read
      · cases read
        exact .undefined there ‹_›
      · split at read
        · rw [Reading.bind_eq_ok] at read
          obtain ⟨⟨argument, last⟩, head, same⟩ := read
          cases same
          exact .application there ‹_› ‹_› (term_reads bound head)
        · rename_i absent
          cases read
          exact .reference there ‹_› (Bool.eq_false_iff.mpr absent)

theorem fields_reads : ∀ (bound : Nat) {c after : Cursor text}
    {value : List (Label × Expression)},
    fields bound c = .ok (value, after) → Reads c (.fields value) after
  | 0, _, _, _, read => by cases read
  | bound + 1, c, after, value, read => by
      rw [fields] at read
      split at read
      · cases read
        exact .noField ‹_›
      · split at read
        · rw [Reading.bind_eq_ok] at read
          obtain ⟨⟨label, named⟩, quoted, read⟩ := read
          rw [Reading.bind_eq_ok] at read
          obtain ⟨begun, equal, read⟩ := read
          rw [Reading.bind_eq_ok] at read
          obtain ⟨⟨value, middle⟩, head, read⟩ := read
          dsimp only at read
          split at read
          · rw [Reading.bind_eq_ok] at read
            obtain ⟨⟨others, last⟩, tail, same⟩ := read
            cases same
            exact .field ‹_› ‹_› quoted equal (expression_reads bound head) ‹_›
              (fields_reads bound tail)
          · cases read
            exact .lastField ‹_› ‹_› quoted equal (expression_reads bound head) ‹_› ‹_›
          · cases read
        · cases read

theorem restriction_reads : ∀ (bound : Nat) {offset : Nat} {setting : Setting}
    {c after : Cursor text} {value : Expression},
    restriction bound offset setting c = .ok (value, after) →
      Reads c (.restriction offset setting value) after
  | 0, _, _, _, _, _, read => by cases read
  | bound + 1, offset, setting, c, after, value, read => by
      rw [restriction, Reading.bind_eq_ok] at read
      obtain ⟨⟨inside, last⟩, head, same⟩ := read
      cases same
      exact .restriction (bracedBlock_reads bound head)

theorem bracedBlock_reads : ∀ (bound : Nat) {c after : Cursor text} {value : Block},
    bracedBlock bound c = .ok (value, after) → Reads c (.bracedBlock value) after
  | 0, _, _, _, read => by cases read
  | bound + 1, c, after, value, read => by
      rw [bracedBlock, Reading.bind_eq_ok] at read
      obtain ⟨inside, opened, read⟩ := read
      rw [Reading.bind_eq_ok] at read
      obtain ⟨⟨statements, middle⟩, head, read⟩ := read
      rw [Reading.bind_eq_ok] at read
      obtain ⟨last, closed, same⟩ := read
      cases same
      exact .bracedBlock opened (block_reads bound head) closed

theorem block_reads : ∀ (bound : Nat) {c after : Cursor text} {value : Block},
    block bound c = .ok (value, after) → Reads c (.block value) after
  | 0, _, _, _, read => by cases read
  | bound + 1, c, after, value, read => by
      rw [block] at read
      split at read
      · cases read
      · cases read
        exact .noStatement ‹_›
      · rw [Reading.bind_eq_ok] at read
        obtain ⟨⟨others, last⟩, tail, same⟩ := read
        cases same
        exact .blank ‹_› (block_reads bound tail)
      · rename_i ch other another first
        split at read
        · rw [Reading.bind_eq_ok] at read
          obtain ⟨⟨others, last⟩, tail, same⟩ := read
          cases same
          exact .comment ‹_› (block_reads bound tail)
        · rename_i uncommented
          rw [Reading.bind_eq_ok] at read
          obtain ⟨⟨stated, middle⟩, head, read⟩ := read
          rw [Reading.bind_eq_ok] at read
          obtain ⟨⟨endings, next⟩, ended, read⟩ := read
          rw [Reading.bind_eq_ok] at read
          obtain ⟨⟨others, last⟩, tail, same⟩ := read
          cases same
          exact .nextStatement first other another (Bool.eq_false_iff.mpr uncommented)
            (statement_reads bound head) ended (block_reads bound tail)

theorem statement_reads : ∀ (bound : Nat) {c after : Cursor text} {value : Statement},
    statement bound c = .ok (value, after) → Reads c (.statement value) after
  | 0, _, _, _, read => by cases read
  | bound + 1, c, after, value, read => by
      rw [statement] at read
      split at read
      · rw [Reading.bind_eq_ok] at read
        obtain ⟨⟨assigned, last⟩, head, same⟩ := read
        cases same
        exact .assignment ‹_› (expression_reads bound head)
      · split at read
        · rw [Reading.bind_eq_ok] at read
          obtain ⟨⟨declared, last⟩, head, same⟩ := read
          cases same
          exact .procedure ‹_› ‹_› (declaration_reads bound head)
        · rename_i undeclared
          rw [Reading.bind_eq_ok] at read
          obtain ⟨⟨executed, last⟩, head, same⟩ := read
          cases same
          exact .execute ‹_› (Bool.eq_false_iff.mpr undeclared) (expression_reads bound head)

theorem declaration_reads : ∀ (bound : Nat) {c after : Cursor text} {value : Procedure},
    declaration bound c = .ok (value, after) → Reads c (.declaration value) after
  | 0, _, _, _, read => by cases read
  | bound + 1, c, after, value, read => by
      rw [declaration, Reading.bind_eq_ok] at read
      obtain ⟨⟨name, named⟩, begun, read⟩ := read
      obtain ⟨atName, same⟩ := identifier_eq_ok.mp begun
      cases same
      rw [Reading.bind_eq_ok] at read
      obtain ⟨⟨inside, last⟩, head, same⟩ := read
      cases same
      exact .declaration atName (bracedBlock_reads bound head)

end

end Cursor

end Runbook
