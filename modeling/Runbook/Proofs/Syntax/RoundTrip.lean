import Runbook.Proofs.Syntax.Spelling

/-!
Documents are read back from their text.

The text of each construct is read by the rules of the grammar as the construct itself, up to the
places of its parts, wherever what follows cannot be taken for more of it. An expression that
begins at some place is followed along its operators: `Expression.Spelled` says that its first term
is read, and that the operators after the whole are operators after that term.
-/
namespace Runbook

open Cursor

/-- A term may end before `rest`: no letter, argument or further name follows. -/
structure EndsTerm (rest : List Char) : Prop where
  name : Halts isNameChar rest
  term : Halts startsTerm (rest.dropWhile Text.isBlank)
  list : ∀ others, rest.dropWhile Text.isBlank = ',' :: others →
    Halts isNameStart (others.dropWhile Text.isBlank)

theorem EndsTerm.of_mark {ch : Char} {rest others : List Char} (name : Halts isNameChar rest)
    (next : rest.dropWhile Text.isBlank = ch :: others) (mark : startsTerm ch = false)
    (other : ch ≠ ',') : EndsTerm rest where
  name := name
  term := next ▸ .cons mark
  list := by
    intro others comma
    rw [next] at comma
    cases comma
    exact absurd rfl other

/-- An operand of a statement may end before `rest`: an operator or the end of the statement
follows. -/
def EndsOperand (rest : List Char) : Prop :=
  Halts isNameChar rest ∧
    ∃ ch ∈ ['\n', ';', '|', '&', '+'], ∃ others, rest.dropWhile Text.isBlank = ch :: others

theorem EndsOperand.halts {rest : List Char} (ends : EndsOperand rest) {p : Char → Bool}
    (marks : ['\n', ';', '|', '&', '+'].any p = false) :
    Halts p (rest.dropWhile Text.isBlank) := by
  obtain ⟨_, ch, mem, others, next⟩ := ends
  exact next ▸ .cons (Bool.eq_false_iff.mpr (List.any_eq_false.mp marks ch mem))

theorem EndsOperand.endsTerm {rest : List Char} (ends : EndsOperand rest) : EndsTerm rest where
  name := ends.1
  term := ends.halts (by decide)
  list := by
    intro others comma
    have other : Halts (· == ',') (rest.dropWhile Text.isBlank) := ends.halts (by decide)
    rw [comma] at other
    cases other ',' rfl

/-- A statement ends before `rest`, with its line or a semicolon. -/
def EndsStatement (rest : List Char) : Prop :=
  (∃ others, rest = '\n' :: others) ∨ ∃ others, rest = ' ' :: ';' :: others

theorem EndsStatement.endsOperand {rest : List Char} (ends : EndsStatement rest) :
    EndsOperand rest := by
  rcases ends with ⟨others, rfl⟩ | ⟨others, rfl⟩
  · exact ⟨.cons rfl, '\n', by decide, others, rfl⟩
  · exact ⟨.cons rfl, ';', by decide, others, rfl⟩

theorem EndsStatement.operator {rest : List Char} (ends : EndsStatement rest) :
    (rest.dropWhile Text.isBlank).head?.bind operator? = none := by
  rcases ends with ⟨others, rfl⟩ | ⟨others, rfl⟩
  all_goals rfl

theorem endsStatement_lineEnd (block : List Statement) (rest : List Char) :
    EndsStatement (lineEnd block ++ (blockSpelling block ++ rest)) := by
  cases block with
  | nil => exact .inl ⟨_, rfl⟩
  | cons statement block =>
      cases statement with
      | series offset =>
          rw [lineEnd, blockSpelling, Statement.spelling]
          exact .inr ⟨_, rfl⟩
      | _ => exact .inl ⟨_, rfl⟩

theorem dropWhile_sign (operator : Operator) (rest : List Char) :
    (' ' :: operator.sign :: rest).dropWhile Text.isBlank = operator.sign :: rest := by
  cases operator with
  | waitEither => rfl
  | waitBoth => rfl
  | combine => rfl

theorem endsOperand_sign (operator : Operator) (rest : List Char) :
    EndsOperand (' ' :: operator.sign :: rest) := by
  refine ⟨.cons rfl, operator.sign, ?_, rest, dropWhile_sign operator rest⟩
  cases operator with
  | waitEither => decide
  | waitBoth => decide
  | combine => decide

/-! What a printable tree begins with. -/

theorem startsTerm_of_isDigit {ch : Char} (digit : ch.isDigit = true) : startsTerm ch = true := by
  rw [startsTerm, digit, Bool.or_true, Bool.true_or]

theorem Quantity.spelling_digit (quantity : Quantity) :
    ∃ ch others, quantity.spelling = ch :: others ∧ ch.isDigit = true := by
  have digits : ∀ n, ∃ ch others, Nat.toDigits 10 n = ch :: others ∧ ch.isDigit = true := by
    intro n
    obtain ⟨ch, others, same⟩ := List.exists_cons_of_ne_nil (Nat.toDigits_ne_nil (n := n) (b := 10))
    have digit := Nat.isDigit_of_mem_toDigits (by decide) (by decide)
      (same ▸ List.mem_cons_self : ch ∈ Nat.toDigits 10 n)
    exact ⟨ch, others, same, digit⟩
  cases quantity with
  | number value => exact digits _
  | measure magnitude unit =>
      obtain ⟨ch, others, same, digit⟩ := digits magnitude.toInt.toNat
      exact ⟨ch, others ++ unit.toList, by rw [spelling, same]; rfl, digit⟩

theorem namesSpelling_cons {names : List Identifier} (some : names ≠ [])
    (isName : ∀ name ∈ names, IsName name) :
    ∃ ch others, namesSpelling names = ch :: others ∧ isNameStart ch = true := by
  obtain ⟨first, names, rfl⟩ := List.exists_cons_of_ne_nil some
  obtain ⟨ch, letters, same, begins⟩ := (isName first List.mem_cons_self).cons
  exact ⟨ch, _, by rw [namesSpelling, same]; rfl, begins⟩

/-- Does it begin with a sign of its own, and with no name or operand? -/
def Expression.isSigned : Expression → Bool
  | .application .. | .reference .. | .operation .. => false
  | .unit _ | .text _ _ | .amount _ _ | .hole _ | .tablet _ _ | .grouping _ _
  | .restriction _ _ _ => true

theorem Expression.spelling_sign {e : Expression} (signed : e.isSigned = true) :
    ∃ ch others, e.spelling = ch :: others ∧ startsTerm ch = true ∧ isNameStart ch = false := by
  cases e with
  | application | reference | operation => cases signed
  | unit | text | hole | tablet | grouping =>
      rw [spelling]
      exact ⟨_, _, rfl, rfl, rfl⟩
  | amount offset quantity =>
      obtain ⟨ch, others, same, digit⟩ := quantity.spelling_digit
      refine ⟨ch, others, by rw [spelling, same], startsTerm_of_isDigit digit, ?_⟩
      exact Bool.eq_false_iff.mpr fun begins => not_isDigit_of_isNameStart begins digit
  | restriction offset setting block =>
      obtain ⟨ch, others, same, begins⟩ := setting.show_cons
      exact ⟨ch, _, by rw [spelling, same]; rfl, begins⟩

theorem Expression.spelling_cons_of_isSigned {e : Expression} (signed : e.isSigned = true) :
    ∃ ch others, e.spelling = ch :: others ∧ startsTerm ch = true := by
  obtain ⟨ch, others, same, begins, _⟩ := spelling_sign signed
  exact ⟨ch, others, same, begins⟩

theorem Expression.spelling_cons : ∀ {e : Expression}, e.Printable →
    ∃ ch others, e.spelling = ch :: others ∧ startsTerm ch = true
  | .application _ name argument, printable => by
      obtain ⟨ch, letters, same, begins⟩ := printable.1.cons
      exact ⟨ch, _, by rw [spelling, same]; rfl, startsTerm_of_isNameStart begins⟩
  | .reference _ names, printable => by
      obtain ⟨ch, others, same, begins⟩ := namesSpelling_cons printable.1 printable.2.2
      exact ⟨ch, others, by rw [spelling, same], startsTerm_of_isNameStart begins⟩
  | .operation _ operator left right, printable => by
      obtain ⟨ch, others, same, begins⟩ := spelling_cons printable.1
      exact ⟨ch, _, by rw [spelling, same]; rfl, begins⟩
  | .unit _, _ | .text _ _, _ | .amount _ _, _ | .hole _, _ | .tablet _ _, _ | .grouping _ _, _
  | .restriction _ _ _, _ => spelling_cons_of_isSigned rfl

/-! Expressions. -/

/-- Where its text stands, the expression is read as one term. -/
def Expression.SpelledTerm (e : Expression) : Prop :=
  ∀ ⦃text : List Char⦄ ⦃c : Cursor text⦄ ⦃rest : List Char⦄, EndsTerm rest →
    c.skipBlanks.rest = e.spelling ++ rest →
    ∃ value after, Reads c (.term value) after ∧ value.bare = e.bare ∧
      after.skipBlanks.rest = rest.dropWhile Text.isBlank

/-- Where its text stands, the first term of the expression is read, and the operators after the
expression, which is `left`, are operators after that term. -/
def Expression.Spelled (e : Expression) : Prop :=
  ∀ ⦃text : List Char⦄ ⦃c : Cursor text⦄ ⦃rest : List Char⦄ (offset : Nat), EndsTerm rest →
    c.skipBlanks.rest = e.spelling ++ rest →
    ∃ first middle left last, Reads c (.term first) middle ∧ left.bare = e.bare ∧
      last.skipBlanks.rest = rest.dropWhile Text.isBlank ∧
      (e.isOperation = false → first = left ∧ middle = last) ∧
      ∀ value after, Reads last (.operations offset left value) after →
        Reads middle (.operations offset first value) after

namespace Expression

variable {text : List Char} {c : Cursor text} {rest : List Char} {e : Expression}

theorem SpelledTerm.spelled (spelled : e.SpelledTerm) : e.Spelled := by
  intro text c rest offset ends here
  obtain ⟨value, after, read, same, last⟩ := spelled ends here
  exact ⟨value, after, value, after, read, same, last, fun _ => ⟨rfl, rfl⟩, fun _ _ => id⟩

theorem Spelled.term (spelled : e.Spelled) (single : e.isOperation = false) : e.SpelledTerm := by
  intro text c rest ends here
  obtain ⟨first, middle, left, last, read, same, after, only, _⟩ := spelled 0 ends here
  obtain ⟨rfl, rfl⟩ := only single
  exact ⟨first, middle, read, same, after⟩

/-- Before what is no operator the expression is read to its end. -/
theorem Spelled.expression (spelled : e.Spelled) (ends : EndsTerm rest)
    (operator : (rest.dropWhile Text.isBlank).head?.bind operator? = none)
    (here : c.skipBlanks.rest = e.spelling ++ rest) :
    ∃ value after, Reads c (.expression value) after ∧ value.bare = e.bare ∧
      after.rest = rest.dropWhile Text.isBlank := by
  obtain ⟨first, middle, left, last, read, same, after, _, onward⟩ := spelled c.offset ends here
  refine ⟨left, last.skipBlanks, ?_, same, after⟩
  exact .expression read (onward left _ (.last (by rw [peek?, after]; exact operator)))

theorem spelledTerm_unit (offset : Nat) : (unit offset).SpelledTerm := by
  intro text c rest _ here
  rw [spelling] at here
  have inside : c.skipBlanks.advance.rest = ')' :: rest := advance_of_rest here
  have stay := skipBlanks_of_rest inside rfl
  refine ⟨_, _, .unit (peek?_of_rest here) (by rw [stay]; exact take?_of_rest inside), ?_, ?_⟩
  · rw [bare, bare]
  · rw [skipBlanks_rest, advance_of_rest inside]

theorem spelledTerm_text (offset : Nat) (meant : String) :
    (Expression.text offset meant).SpelledTerm := by
  intro text c rest _ here
  rw [spelling] at here
  obtain ⟨after, read, last⟩ := string_spelled here
  refine ⟨_, after, .string (peek?_of_rest here) read, ?_, ?_⟩
  · rw [bare, bare]
  · rw [skipBlanks_rest, last]

theorem spelledTerm_amount (offset : Nat) {quantity : Quantity} (printable : quantity.Printable) :
    (amount offset quantity).SpelledTerm := by
  intro text c rest ends here
  rw [spelling] at here
  obtain ⟨after, read, last⟩ := amount_spelled printable here ends.name
  obtain ⟨ch, others, same, digit⟩ := quantity.spelling_digit
  refine ⟨_, after, .amount (peek?_of_rest (here.trans (by rw [same]; rfl))) digit read, ?_, ?_⟩
  · rw [bare, bare]
  · rw [skipBlanks_rest, last]

theorem spelledTerm_hole (offset : Nat) : (hole offset).SpelledTerm := by
  intro text c rest _ here
  rw [spelling] at here
  refine ⟨_, _, .hole (peek?_of_rest here), ?_, ?_⟩
  · rw [bare, bare]
  · rw [skipBlanks_rest, advance_of_rest here]
    rfl

theorem spelledTerm_reference (offset : Nat) {names : List Identifier}
    (printable : (reference offset names).Printable) : (reference offset names).SpelledTerm := by
  intro text c rest ends here
  obtain ⟨some, other, isName⟩ := printable
  obtain ⟨first, others, rfl⟩ := List.exists_cons_of_ne_nil some
  obtain ⟨isFirst, areOthers⟩ := List.forall_mem_cons.mp isName
  rw [spelling, namesSpelling, List.append_assoc] at here
  have separate : Halts isNameChar
      ((others.flatMap fun name => ',' :: ' ' :: name.toList) ++ rest) := by
    cases others with
    | nil => exact ends.name
    | cons second others => exact .cons rfl
  have argumentless : Halts startsTerm
      (((others.flatMap fun name => ',' :: ' ' :: name.toList) ++ rest).dropWhile
        Text.isBlank) := by
    cases others with
    | nil => exact ends.term
    | cons second others => exact .cons rfl
  obtain ⟨there, same, after⟩ := name_spelled isFirst here separate
  have next : c.skipBlanks.name.2.skipBlanks.rest =
      ((others.flatMap fun name => ',' :: ' ' :: name.toList) ++ rest).dropWhile
        Text.isBlank := by
    rw [skipBlanks_rest, after]
  obtain ⟨list, last⟩ := commaNames_spelled areOthers ends.name ends.list next
  refine ⟨_, _, .name there (.reference there ?_ (next ▸ argumentless).any), ?_, ?_⟩
  · rw [same]
    exact fun undefined => other (congrArg Option.some undefined)
  · rw [bare, bare, same, list]
  · rw [skipBlanks_rest, last, Text.dropWhile_dropWhile]

theorem spelledTerm_application (offset : Nat) {name : Identifier} {argument : Expression}
    (printable : (application offset name argument).Printable) (spelled : argument.Spelled) :
    (application offset name argument).SpelledTerm := by
  intro text c rest ends here
  obtain ⟨isName, other, single, printable⟩ := printable
  rw [spelling, List.append_assoc] at here
  obtain ⟨there, same, after⟩ := name_spelled isName here (.cons rfl)
  obtain ⟨ch, others, first, begins⟩ := argument.spelling_cons printable
  have next : c.skipBlanks.name.2.skipBlanks.rest = argument.spelling ++ rest :=
    rest_of_blank after first begins
  obtain ⟨value, last, read, sameValue, ended⟩ := spelled.term single ends
    (c := c.skipBlanks.name.2.skipBlanks) (by rw [skipBlanks_skipBlanks, next])
  refine ⟨_, last, .name there (.application there ?_ ?_ read), ?_, ended⟩
  · rw [same]
    exact other
  · rw [peek?, next, first]
    exact begins
  · rw [bare, bare, same, sameValue]

theorem spelledTerm_grouping (offset : Nat) (inner : Expression) (printable : inner.Printable)
    (spelled : inner.Spelled) : (grouping offset inner).SpelledTerm := by
  intro text c rest _ here
  rw [spelling, List.cons_append, List.append_assoc] at here
  obtain ⟨ch, others, first, begins⟩ := inner.spelling_cons printable
  have inside : c.skipBlanks.advance.rest = inner.spelling ++ ')' :: rest := advance_of_rest here
  have stay : c.skipBlanks.advance.skipBlanks = c.skipBlanks.advance :=
    skipBlanks_of_begins inside first begins
  have closes : EndsTerm (')' :: rest) := .of_mark (.cons rfl) rfl rfl (by decide)
  obtain ⟨value, middle, read, same, last⟩ := spelled.expression closes rfl
    (c := c.skipBlanks.advance.skipBlanks) (by rw [skipBlanks_skipBlanks, stay, inside])
  have last : middle.rest = ')' :: rest := last
  have closed : middle.skipBlanks = middle := skipBlanks_of_rest last rfl
  refine ⟨_, _, .grouping (peek?_of_rest here) ?_ read (by rw [closed]; exact expect_of_rest last),
    ?_, ?_⟩
  · rw [stay]
    have open? : (ch == ')') = false := beq_false_of_ne (ne_of_startsTerm begins rfl)
    exact take?_of_halts (inside ▸ .append first open? _)
  · rw [bare, bare, same]
  · rw [skipBlanks_rest, advance_of_rest last]

theorem spelled_operation (offset : Nat) (operator : Operator) {left right : Expression}
    (printable : (operation offset operator left right).Printable) (leftSpelled : left.Spelled)
    (rightSpelled : right.Spelled) : (operation offset operator left right).Spelled := by
  intro text c rest offset ends here
  obtain ⟨_, single, printable⟩ := printable
  rw [spelling, List.append_assoc] at here
  obtain ⟨first, middle, value, last, read, same, next, _, onward⟩ :=
    leftSpelled offset (endsOperand_sign operator _).endsTerm here
  have next : last.skipBlanks.rest = operator.sign :: ' ' :: (right.spelling ++ rest) :=
    next.trans (dropWhile_sign operator _)
  obtain ⟨ch, others, begun, begins⟩ := right.spelling_cons printable
  have operand : last.skipBlanks.advance.skipBlanks.rest = right.spelling ++ rest :=
    rest_of_blank (advance_of_rest next) begun begins
  obtain ⟨other, after, readOther, sameOther, ended⟩ := rightSpelled.term single ends operand
  have found : last.skipBlanks.peek?.bind operator? = some operator := by
    rw [peek?_of_rest next]
    exact operator.operator?_sign
  refine ⟨first, middle, .operation offset operator value other, after, read, ?_, ended, nofun, ?_⟩
  · rw [bare, bare, same, sameOther]
  · exact fun value after rest => onward value after (.operator found readOther rest)

end Expression

/-- Where their text stands, the fields are read, and the closing bracket. -/
def FieldsSpelled (fields : List (Label × Expression)) : Prop :=
  ∀ ⦃text : List Char⦄ ⦃c : Cursor text⦄ ⦃rest : List Char⦄,
    c.skipSpace.rest = fieldsSpelling fields ++ rest →
    ∃ value after, Reads c (.fields value) after ∧ bareFields value = bareFields fields ∧
      after.rest = rest

theorem fieldsSpelled_nil : FieldsSpelled [] := by
  intro text c rest here
  rw [fieldsSpelling] at here
  exact ⟨_, _, .noField (take?_of_rest here), rfl, advance_of_rest here⟩

theorem not_isAsciiSpace_of_startsTerm {ch : Char} (begins : startsTerm ch = true) :
    Text.isAsciiSpace ch = false :=
  Bool.eq_false_iff.mpr fun space => ne_of_startsTerm begins (startsTerm_of_isAsciiSpace space) rfl

/-- A field up to what stands after its value. -/
theorem field_spelled {text : List Char} {c : Cursor text} {rest : List Char} (label : Label)
    {value : Expression} (printable : value.Printable) (spelled : value.Spelled)
    (ends : EndsTerm rest) (operator : (rest.dropWhile Text.isBlank).head?.bind operator? = none)
    (here : c.skipSpace.rest = quote label ++ ' ' :: '=' :: ' ' :: (value.spelling ++ rest)) :
    ∃ labelled begun read middle, c.skipSpace.take? ']' = none ∧ c.skipSpace.peek? = some '"' ∧
      c.skipSpace.string = .ok (label, labelled) ∧ labelled.skipSpace.expect '=' = .ok begun ∧
      Reads begun.skipSpace (.expression read) middle ∧ read.bare = value.bare ∧
      middle.rest = rest.dropWhile Text.isBlank := by
  have quoteNext : c.skipSpace.rest = '"' :: _ := here
  obtain ⟨labelled, quoted, next⟩ := string_spelled here
  have equal : labelled.skipSpace.rest = '=' :: ' ' :: (value.spelling ++ rest) :=
    rest_skipSpace next
  obtain ⟨ch, letters, first, begins⟩ := value.spelling_cons printable
  have begun : labelled.skipSpace.advance.skipSpace.rest = value.spelling ++ rest := by
    rw [rest_skipSpace (advance_of_rest equal)]
    exact Text.dropWhile_eq_self (Halts.append first (not_isAsciiSpace_of_startsTerm begins) rest)
  have stay : labelled.skipSpace.advance.skipSpace.skipBlanks =
      labelled.skipSpace.advance.skipSpace := skipBlanks_of_begins begun first begins
  obtain ⟨read, middle, reads, same, last⟩ := spelled.expression ends operator
    (c := labelled.skipSpace.advance.skipSpace) (by rw [stay, begun])
  exact ⟨labelled, _, read, middle, take?_of_halts (halts_of_rest quoteNext rfl),
    peek?_of_rest quoteNext, quoted, expect_of_rest equal, reads, same, last⟩

theorem fieldsSpelling_cons (fields : List (Label × Expression)) :
    ∃ ch others, fieldsSpelling fields = ch :: others ∧ Text.isAsciiSpace ch = false ∧
      isNameStart ch = false := by
  cases fields with
  | nil => exact ⟨']', [], by rw [fieldsSpelling], rfl, rfl⟩
  | cons field fields =>
      obtain ⟨label, value⟩ := field
      rw [fieldsSpelling]
      exact ⟨'"', _, rfl, rfl, rfl⟩

theorem fieldsSpelled_cons (label : Label) {value : Expression}
    {fields : List (Label × Expression)} (printable : value.Printable) (spelled : value.Spelled)
    (others : FieldsSpelled fields) : FieldsSpelled ((label, value) :: fields) := by
  intro text c rest here
  rw [fieldsSpelling, List.append_assoc, List.cons_append, List.cons_append, List.cons_append,
    List.append_assoc, List.append_assoc] at here
  cases fields with
  | nil =>
      rw [fieldsSpelling] at here
      have ends : EndsTerm (']' :: rest) := .of_mark (.cons rfl) rfl rfl (by decide)
      obtain ⟨labelled, begun, read, middle, open?, next, quoted, equal, reads, same, last⟩ :=
        field_spelled label printable spelled ends rfl here
      have last : middle.rest = ']' :: rest := last
      have stay : middle.skipSpace = middle := skipSpace_of_rest last rfl
      refine ⟨_, _, .lastField open? next quoted equal reads ?_ ?_, ?_, advance_of_rest last⟩
      · rw [stay]
        exact take?_of_halts (halts_of_rest last rfl)
      · rw [stay]
        exact take?_of_rest last
      · simp only [bareFields, same]
  | cons field fields =>
      obtain ⟨ch, letters, first, notSpace, notName⟩ := fieldsSpelling_cons (field :: fields)
      have ends : EndsTerm (',' :: ' ' :: (fieldsSpelling (field :: fields) ++ rest)) := by
        refine ⟨.cons rfl, .cons rfl, fun others comma => ?_⟩
        cases comma
        have blank : Text.isBlank ch = false := Bool.eq_false_iff.mpr fun blank =>
          Bool.eq_false_iff.mp notSpace (isAsciiSpace_of_isBlank blank)
        rw [first, List.dropWhile_cons_of_pos rfl, List.cons_append,
          List.dropWhile_cons_of_neg (Bool.eq_false_iff.mp blank)]
        exact .cons notName
      obtain ⟨labelled, begun, read, middle, open?, next, quoted, equal, reads, same, last⟩ :=
        field_spelled label printable spelled ends rfl here
      have last : middle.rest = ',' :: ' ' :: (fieldsSpelling (field :: fields) ++ rest) := last
      have stay : middle.skipSpace = middle := skipSpace_of_rest last rfl
      have more : middle.advance.skipSpace.rest = fieldsSpelling (field :: fields) ++ rest := by
        rw [rest_skipSpace (advance_of_rest last)]
        exact Text.dropWhile_eq_self (Halts.append first notSpace rest)
      obtain ⟨values, after, readOthers, sameOthers, ended⟩ := others more
      refine ⟨_, _, .field open? next quoted equal reads ?_ readOthers, ?_, ended⟩
      · rw [stay]
        exact take?_of_rest last
      · rw [bareFields, bareFields, same, sameOthers]

theorem Expression.spelledTerm_tablet (offset : Nat) {fields : List (Label × Expression)}
    (spelled : FieldsSpelled fields) : (tablet offset fields).SpelledTerm := by
  intro text c rest ends here
  rw [spelling, List.cons_append] at here
  obtain ⟨ch, letters, first, notSpace, _⟩ := fieldsSpelling_cons fields
  have inside := advance_of_rest here
  have stay : c.skipBlanks.advance.skipSpace = c.skipBlanks.advance :=
    skipWhile_of_halts (inside ▸ .append first notSpace rest)
  obtain ⟨values, after, read, same, last⟩ := spelled (by rw [stay, inside])
  refine ⟨_, after, .tablet (peek?_of_rest here) read, ?_, ?_⟩
  · rw [bare, bare, same]
  · rw [skipBlanks_rest, last]

/-! Blocks. -/

/-- Where its text stands, the block is read with its braces. -/
def BracedSpelled (block : Block) : Prop :=
  ∀ ⦃text : List Char⦄ ⦃c : Cursor text⦄ ⦃rest : List Char⦄,
    c.rest = braced (blockSpelling block) ++ rest →
    ∃ value after, Reads c (.bracedBlock value) after ∧ bareBlock value = bareBlock block ∧
      after.rest = rest

theorem restriction_spelled {text : List Char} {c : Cursor text} {rest : List Char} (offset : Nat)
    (setting : Setting) {block : Block} (spelled : BracedSpelled block)
    (here : c.rest = ' ' :: (braced (blockSpelling block) ++ rest)) :
    ∃ value after, Reads c (.restriction offset setting value) after ∧
      value.bare = (Expression.restriction 0 setting block).bare ∧ after.rest = rest := by
  have braces : c.skipSpace.rest = braced (blockSpelling block) ++ rest := by
    rw [rest_skipSpace here, braced]
    rfl
  obtain ⟨value, after, read, same, last⟩ := spelled braces
  refine ⟨_, after, .restriction read, ?_, last⟩
  rw [Expression.bare, Expression.bare, same]

theorem Expression.spelledTerm_restriction (offset : Nat) {setting : Setting} {block : Block}
    (printable : setting.Printable) (spelled : BracedSpelled block) :
    (restriction offset setting block).SpelledTerm := by
  intro text c rest ends here
  rw [spelling, List.append_assoc, List.cons_append] at here
  cases setting with
  | inherit =>
      have star : c.skipBlanks.advance.rest =
          '*' :: ' ' :: (braced (blockSpelling block) ++ rest) := advance_of_rest here
      obtain ⟨value, after, read, same, last⟩ :=
        restriction_spelled c.skipBlanks.offset .inherit spelled (advance_of_rest star)
      refine ⟨value, after, .inherited (peek?_of_rest here) (take?_of_rest star) read, ?_, ?_⟩
      · rw [same, bare, bare]
      · rw [skipBlanks_rest, last]
  | role name =>
      have here : c.skipBlanks.rest =
          '@' :: (name.toList ++ ' ' :: (braced (blockSpelling block) ++ rest)) := by
        rw [here, Setting.show, String.toList_append]
        rfl
      have next := advance_of_rest here
      obtain ⟨ch, letters, first, begins⟩ := IsName.cons printable
      have star : (ch == '*') = false :=
        beq_false_of_ne (ne_of_startsTerm (startsTerm_of_isNameStart begins) rfl)
      obtain ⟨named, isNamed, after⟩ := identifier_spelled "role" printable next (.cons rfl)
      obtain ⟨value, after, read, same, last⟩ :=
        restriction_spelled c.skipBlanks.offset (.role name) spelled after
      refine ⟨value, _, .role (peek?_of_rest here) ?_ isNamed read, ?_, ?_⟩
      · exact take?_of_halts (next ▸ .append first star _)
      · rw [same, bare, bare]
      · rw [skipBlanks_rest, last]
  | place name =>
      have here : c.skipBlanks.rest =
          '^' :: (name.toList ++ ' ' :: (braced (blockSpelling block) ++ rest)) := by
        rw [here, Setting.show, String.toList_append]
        rfl
      obtain ⟨named, isNamed, after⟩ :=
        identifier_spelled "place" printable (advance_of_rest here) (.cons rfl)
      obtain ⟨value, after, read, same, last⟩ :=
        restriction_spelled c.skipBlanks.offset (.place name) spelled after
      refine ⟨value, _, .place (peek?_of_rest here) isNamed read, ?_, ?_⟩
      · rw [same, bare, bare]
      · rw [skipBlanks_rest, last]

/-- Where its text stands as a block's, the block is read up to its brace. -/
def BlockSpelled (block : Block) : Prop :=
  ∀ ⦃text : List Char⦄ ⦃c : Cursor text⦄ ⦃rest : List Char⦄,
    c.rest = blockSpelling block ++ '\x7d' :: rest →
    ∃ value after, Reads c (.block value) after ∧ bareBlock value = bareBlock block ∧
      after.rest = '\x7d' :: rest

/-- Where its text stands after a step, the end of the step is read and then the block. -/
def BlockSpelledAfterStep (block : Block) : Prop :=
  ∀ ⦃text : List Char⦄ ⦃c : Cursor text⦄ ⦃rest : List Char⦄,
    c.skipBlanks.rest =
      (lineEnd block ++ (blockSpelling block ++ '\x7d' :: rest)).dropWhile Text.isBlank →
    ∃ endings next value after, c.statementEnd = .ok (endings, next) ∧
      Reads next (.block value) after ∧ bareBlock (endings ++ value) = bareBlock block ∧
      after.rest = '\x7d' :: rest

theorem BlockSpelled.within {block : Block} (spelled : BlockSpelled block) :
    BracedSpelled block := by
  intro text c rest here
  rw [braced, List.cons_append, List.cons_append, List.append_assoc] at here
  have feed := advance_of_rest here
  have inside : c.advance.skipBlanks.skipLineFeed.rest = blockSpelling block ++ '\x7d' :: rest := by
    rw [skipBlanks_of_rest feed rfl, skipLineFeed_rest, peek?_of_rest feed, if_pos rfl, feed]
    rfl
  obtain ⟨value, middle, read, same, last⟩ := spelled inside
  exact ⟨value, _, .bracedBlock (expect_of_rest here) read (expect_of_rest last), same,
    advance_of_rest last⟩

theorem BlockSpelled.afterStep {block : Block} (spelled : BlockSpelled block)
    (line : lineEnd block = ['\n']) : BlockSpelledAfterStep block := by
  intro text c rest here
  rw [line] at here
  have here : c.skipBlanks.rest = '\n' :: (blockSpelling block ++ '\x7d' :: rest) := here
  obtain ⟨value, after, read, same, last⟩ := spelled (advance_of_rest here)
  refine ⟨[], _, value, after, ?_, read, same, last⟩
  have uncommented : c.skipBlanks.atComment = false := by
    rw [atComment, here]
    rfl
  rw [statementEnd, uncommented, if_neg Bool.false_ne_true, peek?_of_rest here]
  rfl

theorem blockSpelled_nil : BlockSpelled [] := by
  intro text c rest here
  rw [blockSpelling, List.nil_append] at here
  have stay := skipBlanks_of_rest here rfl
  refine ⟨[], c, ?_, rfl, here⟩
  have read : Reads c (.block []) c.skipBlanks :=
    .noStatement (by rw [stay]; exact peek?_of_rest here)
  rwa [stay] at read

theorem blockSpelled_blank (offset : Nat) {block : Block} (spelled : BlockSpelled block)
    (line : lineEnd block = ['\n']) : BlockSpelled (.blank offset :: block) := by
  intro text c rest here
  rw [blockSpelling, Statement.spelling, line] at here
  have here : c.rest = '\n' :: (blockSpelling block ++ '\x7d' :: rest) := here
  have stay := skipBlanks_of_rest here rfl
  obtain ⟨value, after, read, same, last⟩ := spelled (advance_of_rest here)
  refine ⟨_, after, .blank (by rw [stay]; exact peek?_of_rest here) (by rwa [stay]), ?_, last⟩
  rw [bareBlock, bareBlock, Statement.bare, Statement.bare, same]

theorem blockSpelled_comment (offset : Nat) {remark : String} {block : Block}
    (isRemark : IsRemark remark) (spelled : BlockSpelled block)
    (line : lineEnd block = ['\n']) : BlockSpelled (.comment offset remark :: block) := by
  intro text c rest here
  rw [blockSpelling, Statement.spelling, line] at here
  have here : c.rest =
      '-' :: '-' :: ' ' :: (remark.toList ++ '\n' :: (blockSpelling block ++ '\x7d' :: rest)) := by
    rw [here]
    simp only [List.cons_append, List.append_assoc, List.nil_append]
  have stay := skipBlanks_of_rest here rfl
  obtain ⟨begins, same, next⟩ := comment_spelled isRemark here
  obtain ⟨value, after, read, sameBlock, last⟩ := spelled next
  refine ⟨_, after, .comment (by rwa [stay]) (by rwa [stay]), ?_, last⟩
  rw [stay, same, bareBlock, bareBlock, Statement.bare, Statement.bare, sameBlock]

theorem blockSpelledAfterStep_series (offset : Nat) {block : Block} (spelled : BlockSpelled block)
    (line : lineEnd block = ['\n']) : BlockSpelledAfterStep (.series offset :: block) := by
  intro text c rest here
  rw [lineEnd, blockSpelling, Statement.spelling, line] at here
  have here : c.skipBlanks.rest = ';' :: '\n' :: (blockSpelling block ++ '\x7d' :: rest) := here
  have feed := advance_of_rest here
  have next : c.skipBlanks.advance.skipBlanks.skipLineFeed.rest =
      blockSpelling block ++ '\x7d' :: rest := by
    rw [skipBlanks_of_rest feed rfl, skipLineFeed_rest, peek?_of_rest feed, if_pos rfl, feed]
    rfl
  obtain ⟨value, after, read, same, last⟩ := spelled next
  refine ⟨[.series c.skipBlanks.offset], _, value, after, ?_, read, ?_, last⟩
  · have uncommented : c.skipBlanks.atComment = false := by
      rw [atComment, here]
      rfl
    rw [statementEnd, uncommented, if_neg Bool.false_ne_true, peek?_of_rest here]
    rfl
  · rw [List.singleton_append, bareBlock, bareBlock, Statement.bare, Statement.bare, same]

/-- Where its text stands as a line's, the statement is read up to its end. -/
def Statement.Spelled (statement : Statement) : Prop :=
  ∀ ⦃text : List Char⦄ ⦃c : Cursor text⦄ ⦃rest : List Char⦄, EndsStatement rest →
    c.rest = statement.spelling ++ rest →
    ∃ value after, Reads c (.statement value) after ∧ value.bare = statement.bare ∧
      after.skipBlanks.rest = rest.dropWhile Text.isBlank

theorem blockSpelled_step {statement : Statement} {block : Block} {ch : Char} {others : List Char}
    (first : statement.spelling = ch :: others) (begins : startsTerm ch = true)
    (spelled : statement.Spelled) (more : BlockSpelledAfterStep block) :
    BlockSpelled (statement :: block) := by
  intro text c rest here
  rw [blockSpelling, List.append_assoc, List.append_assoc] at here
  have next : c.rest = ch :: _ := here.trans (by rw [first]; rfl)
  have stay := skipBlanks_of_rest next (not_isBlank_of_startsTerm begins)
  obtain ⟨value, middle, read, same, ended⟩ := spelled (endsStatement_lineEnd block _) here
  obtain ⟨endings, following, values, after, ends, readMore, sameMore, last⟩ := more ended
  have uncommented : c.atComment = false := by
    refine Bool.eq_false_iff.mpr fun comment => ?_
    have dash := peek?_of_atComment comment
    rw [peek?_of_rest next] at dash
    cases dash
    cases begins
  refine ⟨value :: endings ++ values, after, ?_, ?_, last⟩
  · have none (mark : Char) (other : startsTerm mark = false) := ne_of_startsTerm begins other
    refine .nextStatement ?_ (none _ rfl) (none _ rfl) ?_ ?_ ends readMore
    · rw [stay]
      exact peek?_of_rest next
    · rwa [stay]
    · rwa [stay]
  · rw [List.cons_append, bareBlock, bareBlock, same, sameMore]

/-! Statements: what is no assignment, and what is no procedure. -/

namespace Cursor

variable {text : List Char} {c : Cursor text} {rest : List Char}

theorem targets?_of_names {names : List Identifier} (some : names ≠ [])
    (isName : ∀ name ∈ names, IsName name) (halts : Halts isNameChar rest)
    (comma : Halts (· == ',') (rest.dropWhile Text.isBlank))
    (equal : Halts (· == '=') (rest.dropWhile Text.isBlank))
    (here : c.skipBlanks.rest = namesSpelling names ++ rest) : c.targets? = none := by
  obtain ⟨after, read, last⟩ := targetsWithin_spelled some isName halts comma
    (Nat.le_add_right _ c.left) here
  rw [targets?, ← left, ← (isUnbound c).targets _ (Nat.le_add_left _ _), read]
  cases names with
  | nil => exact absurd rfl some
  | cons first others =>
      dsimp only
      rw [take?_of_halts (last ▸ equal)]
      rfl

theorem targets?_of_halts (halts : Halts isNameStart c.skipBlanks.rest) : c.targets? = none := by
  have none : c.targetsWithin c.rest.length = ([], c.skipBlanks) := by
    cases c.rest.length with
    | zero => rfl
    | succ bound =>
        rw [targetsWithin, if_neg (by rw [atName_of_halts halts]; exact Bool.false_ne_true)]
  rw [targets?, none]

end Cursor

theorem Expression.targets?_of_isSigned {text : List Char} {c : Cursor text} {e : Expression}
    {rest : List Char} (here : c.skipBlanks.rest = e.spelling ++ rest)
    (signed : e.isSigned = true) : c.targets? = none := by
  obtain ⟨ch, others, same, _, notName⟩ := spelling_sign signed
  exact targets?_of_halts (here ▸ .append same notName _)

/-- An expression is no assignment. -/
theorem Expression.targets?_eq_none {text : List Char} {c : Cursor text} :
    ∀ {e : Expression} {rest : List Char}, e.Printable → EndsOperand rest →
      c.skipBlanks.rest = e.spelling ++ rest → c.targets? = none
  | .application _ name argument, rest, printable, ends, here => by
      rw [spelling, List.append_assoc] at here
      obtain ⟨ch, letters, first, begins⟩ := argument.spelling_cons printable.2.2.2
      have next : (' ' :: argument.spelling ++ rest).dropWhile Text.isBlank =
          ch :: (letters ++ rest) := by
        rw [List.cons_append, List.dropWhile_cons_of_pos rfl, first]
        exact List.dropWhile_cons_of_neg (Bool.eq_false_iff.mp (not_isBlank_of_startsTerm begins))
      have isNot (mark : Char) (other : startsTerm mark = false) :
          Halts (· == mark) ((' ' :: argument.spelling ++ rest).dropWhile Text.isBlank) :=
        next ▸ .cons (beq_false_of_ne (ne_of_startsTerm begins other))
      refine targets?_of_names (List.cons_ne_nil name [])
        (List.forall_mem_singleton.mpr printable.1) (.cons rfl) (isNot ',' rfl) (isNot '=' rfl) ?_
      rw [here, namesSpelling, List.flatMap_nil, List.append_nil]
      rfl
  | .reference _ names, rest, printable, ends, here => by
      rw [spelling] at here
      exact targets?_of_names printable.1 printable.2.2 ends.1 (ends.halts (by decide))
        (ends.halts (by decide)) here
  | .operation _ operator left right, rest, printable, ends, here => by
      rw [spelling, List.append_assoc] at here
      exact targets?_eq_none printable.1 (endsOperand_sign operator _) here
  | .unit _, _, _, _, here | .text _ _, _, _, _, here | .amount _ _, _, _, _, here
  | .hole _, _, _, _, here | .tablet _ _, _, _, _, here | .grouping _ _, _, _, _, here
  | .restriction _ _ _, _, _, _, here => targets?_of_isSigned here rfl

namespace Cursor

variable {text : List Char} {c : Cursor text} {rest : List Char}

theorem names_of_halts (halts : Halts isNameStart c.skipBlanks.rest) :
    c.names = ([], c.skipBlanks) := by
  rw [names]
  cases c.rest.length with
  | zero => rfl
  | succ bound => rw [namesWithin, if_neg (by rw [atName_of_halts halts]; exact Bool.false_ne_true)]

theorem names_of_name {name : Identifier} (isName : IsName name)
    (here : c.skipBlanks.rest = name.toList ++ rest) (halts : Halts isNameChar rest) :
    ∃ next : Cursor text, next.rest = rest ∧ c.names = (name :: next.names.1, next.names.2) := by
  obtain ⟨there, same, after⟩ := name_spelled isName here halts
  refine ⟨c.skipBlanks.name.2, after, ?_⟩
  have shorter := left_name there
  have blanks := left_skipBlanks_le c
  rw [← (isUnbound c).names (c.left + 1) (Nat.le_succ _), namesWithin, if_pos there,
    (isUnbound c.skipBlanks.name.2).names c.left (by omega), same]

/-- Is a colon or a brace next, as in the head of a procedure? -/
def heads (ch : Char) : Bool := ch == ':' || ch == '\x7b'

theorem atDeclaration_of_rest {ch : Char} (there : c.atName = true)
    (next : c.names.2.rest = ch :: rest) (head : heads ch = true) : c.atDeclaration = true := by
  rw [heads, Bool.or_eq_true, beq_iff_eq, beq_iff_eq] at head
  rw [atDeclaration, there, peek?_of_rest next]
  rcases head with rfl | rfl
  · rfl
  · rfl

theorem atDeclaration_of_halts (halts : Halts heads c.names.2.rest) : c.atDeclaration = false := by
  rw [atDeclaration]
  cases next : c.names.2.peek? with
  | none => exact Bool.and_false _
  | some ch =>
      have other := halts ch next
      rw [heads, Bool.or_eq_false_iff, beq_eq_false_iff_ne, beq_eq_false_iff_ne] at other
      simp [other]

end Cursor

theorem Expression.names_of_isSigned {text : List Char} {c : Cursor text} {e : Expression}
    {rest : List Char} (here : c.skipBlanks.rest = e.spelling ++ rest)
    (signed : e.isSigned = true) : Halts heads c.names.2.rest := by
  obtain ⟨ch, others, same, begins, notName⟩ := spelling_sign signed
  rw [names_of_halts (here ▸ .append same notName _), here]
  refine .append same ?_ rest
  rw [heads, beq_false_of_ne (ne_of_startsTerm begins rfl),
    beq_false_of_ne (ne_of_startsTerm begins rfl)]
  rfl

/-- The names that an expression begins with do not make it a procedure. -/
theorem Expression.names_halts {text : List Char} :
    ∀ {e : Expression} {c : Cursor text} {rest : List Char}, e.Printable → EndsOperand rest →
      c.skipBlanks.rest = e.spelling ++ rest → Halts heads c.names.2.rest
  | .application _ name argument, c, rest, printable, ends, here => by
      rw [spelling, List.append_assoc] at here
      obtain ⟨next, after, same⟩ := names_of_name printable.1 here (.cons rfl)
      rw [same]
      obtain ⟨ch, letters, first, begins⟩ := argument.spelling_cons printable.2.2.2
      exact names_halts printable.2.2.2 ends (rest_of_blank after first begins)
  | .reference _ names, c, rest, printable, ends, here => by
      obtain ⟨some, _, isName⟩ := printable
      obtain ⟨first, others, rfl⟩ := List.exists_cons_of_ne_nil some
      rw [spelling, namesSpelling, List.append_assoc] at here
      obtain ⟨isFirst, _⟩ := List.forall_mem_cons.mp isName
      cases others with
      | nil =>
          obtain ⟨next, after, same⟩ := names_of_name isFirst here ends.1
          have last : next.skipBlanks.rest = rest.dropWhile Text.isBlank := by
            rw [skipBlanks_rest, after]
            rfl
          have nameless : Halts isNameStart next.skipBlanks.rest := last ▸ ends.halts (by decide)
          rw [same, names_of_halts nameless, last]
          exact ends.halts (by decide)
      | cons second others =>
          obtain ⟨next, after, same⟩ := names_of_name isFirst here (.cons rfl)
          have comma : next.skipBlanks.rest = ',' :: _ :=
            (congrArg Cursor.rest (skipBlanks_of_rest after rfl)).trans after
          rw [same, names_of_halts (comma ▸ .cons rfl), comma]
          exact .cons rfl
  | .operation _ operator left right, c, rest, printable, ends, here => by
      rw [spelling, List.append_assoc] at here
      exact names_halts printable.1 (endsOperand_sign operator _) here
  | .unit _, _, _, _, _, here | .text _ _, _, _, _, _, here | .amount _ _, _, _, _, _, here
  | .hole _, _, _, _, _, here | .tablet _ _, _, _, _, _, here | .grouping _ _, _, _, _, _, here
  | .restriction _ _ _, _, _, _, _, here => names_of_isSigned here rfl

theorem Statement.spelled_execute (offset : Nat) {value : Expression} (printable : value.Printable)
    (spelled : value.Spelled) : (execute offset value).Spelled := by
  intro text c rest ends here
  rw [spelling] at here
  obtain ⟨ch, others, first, begins⟩ := value.spelling_cons printable
  have blanks : c.skipBlanks.rest = value.spelling ++ rest := by
    rw [skipBlanks_of_begins here first begins, here]
  have operand := ends.endsOperand
  obtain ⟨read, after, reads, same, last⟩ :=
    spelled.expression operand.endsTerm ends.operator blanks
  refine ⟨_, after, .execute (value.targets?_eq_none printable operand blanks)
    (atDeclaration_of_halts (value.names_halts printable operand blanks)) reads, ?_, ?_⟩
  · rw [bare, bare, same]
  · rw [skipBlanks_rest, last, Text.dropWhile_dropWhile]

theorem Statement.spelled_assignment (offset : Nat) {targets : List Identifier} {value : Expression}
    (some : targets ≠ []) (isName : ∀ target ∈ targets, IsName target)
    (printable : value.Printable) (spelled : value.Spelled) :
    (assignment offset targets value).Spelled := by
  intro text c rest ends here
  rw [spelling, List.append_assoc] at here
  obtain ⟨ch, others, first, begins⟩ := namesSpelling_cons some isName
  have blanks : c.skipBlanks.rest =
      namesSpelling targets ++ ' ' :: '=' :: ' ' :: (value.spelling ++ rest) := by
    rw [skipBlanks_of_begins here first (startsTerm_of_isNameStart begins), here]
    rfl
  obtain ⟨middle, found, next⟩ := targets?_spelled some isName blanks
  obtain ⟨ch, others, first, begins⟩ := value.spelling_cons printable
  have operand : middle.skipBlanks.rest = value.spelling ++ rest := rest_of_blank next first begins
  obtain ⟨read, after, reads, same, last⟩ := spelled.expression ends.endsOperand.endsTerm
    ends.operator (c := middle.skipBlanks) (by rw [skipBlanks_skipBlanks, operand])
  refine ⟨_, after, .assignment found reads, ?_, ?_⟩
  · rw [bare, bare, same]
  · rw [skipBlanks_rest, last, Text.dropWhile_dropWhile]

/-! Procedures. -/

/-- Where its text stands, the procedure is read. -/
def Procedure.Spelled (procedure : Procedure) : Prop :=
  ∀ ⦃text : List Char⦄ ⦃c : Cursor text⦄ ⦃rest : List Char⦄, c.rest = procedure.spelling ++ rest →
    ∃ value after, Reads c (.declaration value) after ∧ value.bare = procedure.bare ∧
      after.rest = rest

/-- What stands after the parameters of a procedure. -/
def headEnd (signature : Option String) (block : Block) (rest : List Char) : List Char :=
  signatureSpelling signature ++ ' ' :: (braced (blockSpelling block) ++ rest)

/-- What stands after the parameters begins with a colon or a brace. -/
theorem headEnd_cons (signature : Option String) (block : Block) (rest : List Char) :
    ∃ ch others, headEnd signature block rest = ' ' :: ch :: others ∧ Text.isBlank ch = false ∧
      isNameStart ch = false ∧ heads ch = true := by
  cases signature with
  | none =>
      rw [headEnd, braced]
      exact ⟨'\x7b', _, rfl, rfl, rfl, rfl⟩
  | some remark => exact ⟨':', _, rfl, rfl, rfl, rfl⟩

theorem headEnd_halts (signature : Option String) (block : Block) (rest : List Char) :
    Halts isNameChar (headEnd signature block rest) ∧
      Halts isNameStart ((headEnd signature block rest).dropWhile Text.isBlank) := by
  obtain ⟨ch, others, same, notBlank, notName, _⟩ := headEnd_cons signature block rest
  rw [same, List.dropWhile_cons_of_pos rfl,
    List.dropWhile_cons_of_neg (Bool.eq_false_iff.mp notBlank)]
  exact ⟨.cons rfl, .cons notName⟩

section

variable {offset : Nat} {name : Identifier} {parameters : List Identifier}
  {signature : Option String} {block : Block} {text : List Char} {c : Cursor text}
  {rest : List Char}

theorem Procedure.spelling_cons (isName : IsName name) : ∃ ch others,
    (Procedure.mk offset name parameters signature block).spelling = ch :: others ∧
      isNameStart ch = true := by
  obtain ⟨ch, letters, first, begins⟩ := isName.cons
  exact ⟨ch, _, by rw [spelling, first]; rfl, begins⟩

theorem Procedure.spelling_append :
    (Procedure.mk offset name parameters signature block).spelling ++ rest =
      name.toList ++ (parametersSpelling parameters ++ headEnd signature block rest) := by
  rw [spelling, headEnd]
  simp only [List.append_assoc, List.cons_append]

theorem Procedure.spelled
    (printable : (Procedure.mk offset name parameters signature block).Printable)
    (spelled : BracedSpelled block) :
    (Procedure.mk offset name parameters signature block).Spelled := by
  intro text c rest here
  obtain ⟨isName, areNames, isSignature, _⟩ := printable
  rw [spelling_append] at here
  obtain ⟨ends, last⟩ := headEnd_halts signature block rest
  obtain ⟨there, sameName, after⟩ := name_spelled isName here (parametersSpelling_halts ends)
  obtain ⟨sameParameters, next⟩ := names_spelled areNames ends last after
  rw [headEnd, braced, List.cons_append] at next
  obtain ⟨sameSignature, brace⟩ := signature_spelled isSignature next
  have stay := skipSpace_of_rest brace rfl
  obtain ⟨value, after, read, same, ended⟩ :=
    spelled (c := c.name.2.names.2.signature.2.skipSpace) (by rw [stay, brace, braced]; rfl)
  refine ⟨_, after, .declaration there read, ?_, ended⟩
  rw [bare, bare, sameName, sameParameters, sameSignature, same]

/-- Neither a comma nor an equality sign follows the name of a procedure. -/
theorem parametersSpelling_cons (areNames : ∀ parameter ∈ parameters, IsName parameter)
    {mark : Char} (other : startsTerm mark = false) (unlike : heads mark = false) :
    Halts (· == mark)
      ((parametersSpelling parameters ++ headEnd signature block rest).dropWhile Text.isBlank) := by
  cases parameters with
  | nil =>
      obtain ⟨ch, others, same, notBlank, _, head⟩ := headEnd_cons signature block rest
      rw [parametersSpelling, List.flatMap_nil, List.nil_append, same,
        List.dropWhile_cons_of_pos rfl, List.dropWhile_cons_of_neg (Bool.eq_false_iff.mp notBlank)]
      refine .cons (beq_false_of_ne ?_)
      rintro rfl
      rw [unlike] at head
      cases head
  | cons first others =>
      obtain ⟨ch, letters, same, begins⟩ := (areNames first List.mem_cons_self).cons
      have starts := startsTerm_of_isNameStart begins
      rw [parametersSpelling, List.flatMap_cons, List.append_assoc, List.cons_append,
        List.dropWhile_cons_of_pos rfl, same, List.cons_append,
        List.dropWhile_cons_of_neg (Bool.eq_false_iff.mp (not_isBlank_of_startsTerm starts))]
      exact .cons (beq_false_of_ne (ne_of_startsTerm starts other))

theorem Statement.spelled_declaration (place : Nat)
    (printable : (Procedure.mk offset name parameters signature block).Printable)
    (spelled : BracedSpelled block) :
    (declaration place ⟨offset, name, parameters, signature, block⟩).Spelled := by
  intro text c rest _ here
  rw [spelling] at here
  obtain ⟨value, after, read, same, last⟩ := Procedure.spelled printable spelled here
  obtain ⟨isName, areNames, _, _⟩ := printable
  obtain ⟨ch, letters, first, begins⟩ := Procedure.spelling_cons isName
  have stay := skipBlanks_of_begins here first (startsTerm_of_isNameStart begins)
  rw [Procedure.spelling_append] at here
  obtain ⟨ends, ended⟩ := headEnd_halts signature block rest
  have blanks := (congrArg Cursor.rest stay).trans here
  have targetless : c.targets? = none := by
    refine targets?_of_names (List.cons_ne_nil name []) (List.forall_mem_singleton.mpr isName)
      (parametersSpelling_halts ends) (parametersSpelling_cons areNames rfl rfl)
      (parametersSpelling_cons areNames rfl rfl) ?_
    rw [blanks, namesSpelling, List.flatMap_nil, List.append_nil]
  have declares : c.atDeclaration = true := by
    obtain ⟨next, begun, names⟩ := names_of_name isName blanks (parametersSpelling_halts ends)
    obtain ⟨_, header⟩ := names_spelled areNames ends ended begun
    obtain ⟨mark, others, same, notBlank, _, head⟩ := headEnd_cons signature block rest
    rw [same, List.dropWhile_cons_of_pos rfl,
      List.dropWhile_cons_of_neg (Bool.eq_false_iff.mp notBlank)] at header
    have there := (name_spelled isName here (parametersSpelling_halts ends)).1
    exact atDeclaration_of_rest there (by rw [names]; exact header) head
  refine ⟨_, after, .procedure targetless declares read, ?_, ?_⟩
  · rw [bare, bare, same]
  · rw [skipBlanks_rest, last]

theorem blockSpelled_assignment {targets : List Identifier} {value : Expression}
    (printable : BlockPrintable false (.assignment offset targets value :: block))
    (spelled : value.Spelled) (more : BlockSpelledAfterStep block) :
    BlockSpelled (.assignment offset targets value :: block) := by
  obtain ⟨⟨some, isName, printable⟩, _⟩ := printable
  obtain ⟨ch, others, first, begins⟩ := namesSpelling_cons some isName
  refine blockSpelled_step (by rw [Statement.spelling, first]; rfl)
    (startsTerm_of_isNameStart begins) ?_ more
  exact Statement.spelled_assignment offset some isName printable spelled

theorem blockSpelled_execute {value : Expression} (printable : value.Printable)
    (spelled : value.Spelled) (more : BlockSpelledAfterStep block) :
    BlockSpelled (.execute offset value :: block) := by
  obtain ⟨ch, others, first, begins⟩ := value.spelling_cons printable
  refine blockSpelled_step (by rw [Statement.spelling, first]) begins ?_ more
  exact Statement.spelled_execute offset printable spelled

theorem blockSpelled_declaration {place : Nat} {others : Block}
    (printable : (Procedure.mk offset name parameters signature block).Printable)
    (spelled : BracedSpelled block) (more : BlockSpelledAfterStep others) :
    BlockSpelled (.declaration place ⟨offset, name, parameters, signature, block⟩ :: others) := by
  obtain ⟨ch, letters, first, begins⟩ := Procedure.spelling_cons printable.1
  refine blockSpelled_step (by rw [Statement.spelling, first]) (startsTerm_of_isNameStart begins)
    ?_ more
  exact Statement.spelled_declaration place printable spelled

end

/-! All trees. -/

theorem lineEnd_of_printable {block : Block} (printable : BlockPrintable false block) :
    lineEnd block = ['\n'] := by
  cases block with
  | nil => rfl
  | cons statement block =>
      cases statement with
      | series => exact absurd printable.1 Bool.false_ne_true
      | _ => rfl

/-- A block that does not begin with a semicolon is read after a step if it is read. -/
theorem blockSpelled_alike {block : Block} (line : lineEnd block = ['\n'])
    (alike : BlockPrintable true block → BlockPrintable false block)
    (spelled : BlockPrintable false block → BlockSpelled block) :
    (BlockPrintable false block → BlockSpelled block) ∧
      (BlockPrintable true block → BlockSpelledAfterStep block) :=
  ⟨spelled, fun printable => BlockSpelled.afterStep (spelled (alike printable)) line⟩

mutual

theorem Expression.spelled : ∀ {e : Expression}, e.Printable → e.Spelled
  | .application offset _ _, printable =>
      (Expression.spelledTerm_application offset printable
        (Expression.spelled printable.2.2.2)).spelled
  | .unit offset, _ => (Expression.spelledTerm_unit offset).spelled
  | .text offset meant, _ => (Expression.spelledTerm_text offset meant).spelled
  | .amount offset _, printable => (Expression.spelledTerm_amount offset printable).spelled
  | .hole offset, _ => (Expression.spelledTerm_hole offset).spelled
  | .tablet offset _, printable =>
      (Expression.spelledTerm_tablet offset (fields_spelled printable)).spelled
  | .reference offset _, printable => (Expression.spelledTerm_reference offset printable).spelled
  | .operation offset operator _ _, printable =>
      Expression.spelled_operation offset operator printable (Expression.spelled printable.1)
        (Expression.spelled printable.2.2)
  | .grouping offset inner, printable =>
      (Expression.spelledTerm_grouping offset inner printable
        (Expression.spelled printable)).spelled
  | .restriction offset _ _, printable =>
      (Expression.spelledTerm_restriction offset printable.1
        (BlockSpelled.within (block_spelled.1 printable.2))).spelled

theorem fields_spelled : ∀ {fields : List (Label × Expression)}, FieldsPrintable fields →
    FieldsSpelled fields
  | [], _ => fieldsSpelled_nil
  | (label, _) :: _, printable =>
      fieldsSpelled_cons label printable.1 (Expression.spelled printable.1)
        (fields_spelled printable.2)

theorem block_spelled : ∀ {block : Block},
    (BlockPrintable false block → BlockSpelled block) ∧
      (BlockPrintable true block → BlockSpelledAfterStep block)
  | [] => blockSpelled_alike rfl id fun _ => blockSpelled_nil
  | .assignment _ _ _ :: _ => blockSpelled_alike rfl id fun printable =>
      blockSpelled_assignment printable (Expression.spelled printable.1.2.2)
        (block_spelled.2 printable.2)
  | .execute _ _ :: _ => blockSpelled_alike rfl id fun printable =>
      blockSpelled_execute printable.1 (Expression.spelled printable.1)
        (block_spelled.2 printable.2)
  | .declaration _ ⟨_, _, _, _, _⟩ :: _ => blockSpelled_alike rfl id fun printable =>
      blockSpelled_declaration printable.1 (BlockSpelled.within (block_spelled.1 printable.1.2.2.2))
        (block_spelled.2 printable.2)
  | .comment offset _ :: _ => blockSpelled_alike rfl id fun printable =>
      blockSpelled_comment offset printable.1 (block_spelled.1 printable.2)
        (lineEnd_of_printable printable.2)
  | .blank offset :: _ => blockSpelled_alike rfl id fun printable =>
      blockSpelled_blank offset (block_spelled.1 printable.2) (lineEnd_of_printable printable.2)
  | .series offset :: _ =>
      ⟨fun printable => absurd printable.1 Bool.false_ne_true, fun printable =>
        blockSpelledAfterStep_series offset (block_spelled.1 printable.2)
          (lineEnd_of_printable printable.2)⟩

end

/-! Documents. -/

theorem Procedure.spelled_of_printable {procedure : Procedure} (printable : procedure.Printable) :
    procedure.Spelled := by
  obtain ⟨offset, name, parameters, signature, block⟩ := procedure
  exact Procedure.spelled printable (BlockSpelled.within (block_spelled.1 printable.2.2.2))

theorem triviaLength_of_name {ch : Char} (begins : isNameStart ch = true) (rest : List Char) :
    triviaLength false (ch :: rest) = 0 := by
  have begins := startsTerm_of_isNameStart begins
  rw [triviaLength, not_isAsciiSpace_of_startsTerm begins]
  · rfl
  · rintro _ rfl
    cases begins

namespace Cursor

variable {text : List Char} {c : Cursor text} {procedures : List Procedure}

theorem skipTrivia_rest (c : Cursor text) :
    c.skipTrivia.rest = c.rest.drop (triviaLength false c.rest) := rfl

theorem triviaLength_procedures (printable : ∀ procedure ∈ procedures, procedure.Printable) :
    triviaLength false (proceduresSpelling procedures) = 0 := by
  cases procedures with
  | nil => rfl
  | cons first others =>
      obtain ⟨offset, name, parameters, signature, block⟩ := first
      obtain ⟨ch, letters, same, begins⟩ :=
        Procedure.spelling_cons (printable _ List.mem_cons_self).1
      rw [proceduresSpelling, List.flatMap_cons, same]
      exact triviaLength_of_name begins _

theorem proceduresWithin_spelled (printable : ∀ procedure ∈ procedures, procedure.Printable)
    {limit : Nat} (enough : c.left < limit)
    (here : c.skipTrivia.rest = proceduresSpelling procedures) :
    ∃ values, c.proceduresWithin limit = .ok values ∧
      values.map Procedure.bare = procedures.map Procedure.bare := by
  induction procedures generalizing c limit with
  | nil =>
      obtain ⟨limit, rfl⟩ := Nat.exists_eq_succ_of_ne_zero (Nat.ne_zero_of_lt enough)
      refine ⟨[], ?_, rfl⟩
      rw [proceduresWithin]
      dsimp only
      rw [here]
      rfl
  | cons first others ih =>
      obtain ⟨limit, rfl⟩ := Nat.exists_eq_succ_of_ne_zero (Nat.ne_zero_of_lt enough)
      obtain ⟨isFirst, areOthers⟩ := List.forall_mem_cons.mp printable
      rw [proceduresSpelling, List.flatMap_cons, List.append_assoc] at here
      obtain ⟨value, after, read, same, last⟩ := Procedure.spelled_of_printable isFirst here
      have onward := read.left_lt rfl
      have trivia := left_skipTrivia_le c
      have last : after.rest = '\n' :: proceduresSpelling others := last
      have feed : triviaLength false ('\n' :: proceduresSpelling others) = 1 :=
        congrArg (· + 1) (triviaLength_procedures areOthers)
      have next : after.skipTrivia.rest = proceduresSpelling others := by
        rw [skipTrivia_rest, last, feed]
        rfl
      have some : c.skipTrivia.rest.isEmpty = false :=
        List.isEmpty_eq_false_iff.mpr (List.ne_nil_of_length_pos (Nat.lt_of_lt_of_le
          (Nat.zero_lt_succ _) onward))
      obtain ⟨values, readOthers, sameOthers⟩ := @ih after areOthers limit (by omega) next
      refine ⟨value :: values, ?_, ?_⟩
      · have whole : c.skipTrivia.declaration c.skipTrivia.bound = .ok (value, after) :=
          read.isRead _ (by simp only [Phrase.nested, bound, left]; omega)
        rw [proceduresWithin]
        dsimp only
        rw [some, whole]
        simp only [bind, Except.bind, readOthers, Bool.false_eq_true, if_false]
      · rw [List.map_cons, List.map_cons, same, sameOthers]

end Cursor

/-- The text of a printable document is read as that document. -/
theorem Document.parse_spell {document : Document} (printable : document.Printable) :
    ∃ read, Document.parse document.spell = .ok read ∧ read.bare = document.bare := by
  obtain ⟨some, procedures⟩ := printable
  have start : (Cursor.start document.spell.toList).skipTrivia.rest =
      proceduresSpelling document.procedures := by
    have whole : (Cursor.start document.spell.toList).rest =
        proceduresSpelling document.procedures := String.toList_ofList
    rw [skipTrivia_rest, whole, triviaLength_procedures procedures]
    rfl
  obtain ⟨values, read, same⟩ := proceduresWithin_spelled procedures (Nat.lt_succ_self _) start
  refine ⟨⟨values⟩, Document.parse_eq_ok.mpr ?_, congrArg Document.mk same⟩
  rw [Document.read, ← left, read]
  cases values with
  | nil => exact absurd (List.map_eq_nil_iff.mp same.symm) some
  | cons first others => rfl

/-- The printable documents are those that are read from texts, up to the places of their parts:
each is read from its own text, and whatever is read is one. -/
theorem Document.parse_inverts_spell :
    (∀ document : Document, document.Printable →
      ∃ read, Document.parse document.spell = .ok read ∧ read.bare = document.bare) ∧
    ∀ text document, Document.parse text = .ok document → document.Printable :=
  ⟨fun _ => Document.parse_spell, fun _ _ => Document.parse_printable⟩

/-- A list before a comma of its tablet, operators without brackets, escapes, and a semicolon. -/
def Document.brewing : Document where
  procedures := [
    ⟨0, "brew", ["cup"], some "Cup -> Tea", [
      .comment 0 "the pot",
      .blank 0,
      .assignment 0 ["pot", "lid"] (.operation 0 .waitBoth
        (.operation 0 .combine (.application 0 "kettle" (.text 0 "\"hot\"\n"))
          (.amount 0 (.measure 90 "C")))
        (.grouping 0 (.operation 0 .waitEither (.amount 0 (.number 3)) (.hole 0)))),
      .series 0,
      .execute 0 (.restriction 0 (.role "chef")
        [.execute 0 (.application 0 "stir" (.reference 0 ["pot", "cup"]))]),
      .execute 0 (.application 0 "mix"
        (.tablet 0 [("a", .reference 0 ["pot", "cup"]), ("b", .unit 0)])),
      .declaration 0 ⟨0, "rinse", [], none, []⟩]⟩,
    ⟨0, "serve", [], none, []⟩]

theorem Document.parse_inverts_spell_brewing : Document.brewing.Printable ∧
    Document.brewing.spell =
      "brew cup : Cup -> Tea \x7b\n-- the pot\n\n" ++
      "pot, lid = kettle \"\\\"hot\\\"\\n\" + 90C & (3 | ?) ;\n" ++
      "@chef \x7b\nstir pot, cup\n\x7d\n" ++
      "mix [\"a\" = pot, cup, \"b\" = ()]\nrinse \x7b\n\x7d\n\x7d\nserve \x7b\n\x7d\n" ∧
    ∃ read, Document.parse Document.brewing.spell = .ok read ∧
      read.bare = Document.brewing.bare ∧ read.Printable := by
  have printable : Document.brewing.Printable := by decide +kernel
  obtain ⟨inverts, reads⟩ := Document.parse_inverts_spell
  obtain ⟨read, parsed, same⟩ := inverts Document.brewing printable
  exact ⟨printable, by decide +kernel, read, parsed, same, reads _ read parsed⟩

end Runbook
