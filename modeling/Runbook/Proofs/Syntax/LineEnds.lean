import Runbook.Proofs.Syntax.Returns

/-!
Carriage returns before line feeds have no meaning.

The readers keep step in a text and in the same text with a carriage return before each line feed:
from near places both are refused or both read the same, up to near places, with each offset carried
to where its character stands in the other text.
-/
namespace Runbook

open Cursor Text

mutual

/-- The expression with its offsets replaced. -/
def Expression.relocated (place : Nat → Nat) : Expression → Expression
  | .application offset name argument => .application (place offset) name (argument.relocated place)
  | .unit offset => .unit (place offset)
  | .text offset text => .text (place offset) text
  | .amount offset quantity => .amount (place offset) quantity
  | .hole offset => .hole (place offset)
  | .tablet offset fields => .tablet (place offset) (relocatedFields place fields)
  | .reference offset names => .reference (place offset) names
  | .operation offset operator left right =>
    .operation (place offset) operator (left.relocated place) (right.relocated place)
  | .grouping offset inner => .grouping (place offset) (inner.relocated place)
  | .restriction offset setting block =>
    .restriction (place offset) setting (relocatedBlock place block)

def relocatedFields (place : Nat → Nat) : List (Label × Expression) → List (Label × Expression)
  | [] => []
  | (label, value) :: fields => (label, value.relocated place) :: relocatedFields place fields

def Statement.relocated (place : Nat → Nat) : Statement → Statement
  | .assignment offset targets value => .assignment (place offset) targets (value.relocated place)
  | .execute offset value => .execute (place offset) (value.relocated place)
  | .declaration offset procedure => .declaration (place offset) (procedure.relocated place)
  | .comment offset remark => .comment (place offset) remark
  | .blank offset => .blank (place offset)
  | .series offset => .series (place offset)

def relocatedBlock (place : Nat → Nat) : List Statement → List Statement
  | [] => []
  | statement :: block => statement.relocated place :: relocatedBlock place block

def Procedure.relocated (place : Nat → Nat) : Procedure → Procedure
  | ⟨offset, name, parameters, signature, block⟩ =>
    ⟨place offset, name, parameters, signature, relocatedBlock place block⟩

end

def Document.relocated (place : Nat → Nat) (document : Document) : Document :=
  ⟨document.procedures.map (Procedure.relocated place)⟩

theorem relocatedBlock_append (place : Nat → Nat) (block others : List Statement) :
    relocatedBlock place (block ++ others) =
      relocatedBlock place block ++ relocatedBlock place others := by
  induction block with
  | nil => rw [relocatedBlock]; rfl
  | cons statement block ih =>
      rw [List.cons_append, relocatedBlock, relocatedBlock, ih, List.cons_append]

/-- Both readings are refused, or both give results, which are related. -/
inductive Reading.Alike {α β : Type} (related : α → β → Prop) : Reading α → Reading β → Prop
  | refused {error other : ParseError} : Alike related (.error error) (.error other)
  | read {a : α} {b : β} : related a b → Alike related (.ok a) (.ok b)

section
variable {α β γ δ : Type} {related : α → β → Prop} {later : γ → δ → Prop} {part : Reading α}
  {other : Reading β}

theorem Reading.Alike.left {a : α} (alike : Alike related (.ok a) other) :
    ∃ b, other = .ok b ∧ related a b := by
  cases alike with
  | read holds => exact ⟨_, rfl, holds⟩

theorem Reading.Alike.right {b : β} (alike : Alike related part (.ok b)) :
    ∃ a, part = .ok a ∧ related a b := by
  cases alike with
  | read holds => exact ⟨_, rfl, holds⟩

theorem Reading.Alike.bind {next : α → Reading γ} {rest : β → Reading δ}
    (first : Alike related part other)
    (follow : ∀ a b, related a b → Alike later (next a) (rest b)) :
    Alike later (part >>= next) (other >>= rest) := by
  cases first with
  | refused => exact .refused
  | read holds => exact follow _ _ holds

end

/-- The second result is the first one carried over, and the places behind them are near. -/
def Carries {α : Type} {text : List Char} (relocated : (Nat → Nat) → α → α) (a : α × Cursor text)
    (b : α × Cursor (withReturns text)) : Prop :=
  b.1 = relocated (carried text) a.1 ∧ a.2.Near b.2

/-- The results are the same, and the places behind them are near. -/
def Agrees {α : Type} {text : List Char} (a : α × Cursor text)
    (b : α × Cursor (withReturns text)) : Prop := b.1 = a.1 ∧ a.2.Near b.2

open Reading (Alike)

namespace Cursor

variable {text : List Char} {c : Cursor text} {d : Cursor (withReturns text)}

/-! What holds no expression. -/

theorem Near.expect (near : c.Near d) (ch : Char) (returns : ch ≠ '\r') (feeds : ch ≠ '\n') :
    Alike Near (c.expect ch) (d.expect ch) := by
  rw [Cursor.expect, Cursor.expect]
  by_cases next : c.peek? = some ch
  · rw [if_pos next, if_pos ((near.next ch returns feeds).mpr next)]
    exact .read (near.even next returns feeds).advance
  · rw [if_neg next, if_neg (next ∘ (near.next ch returns feeds).mp)]
    exact .refused

theorem Near.identifier (near : c.Near d) (what : String) :
    Alike Agrees (c.identifier what) (d.identifier what) := by
  rw [Cursor.identifier, Cursor.identifier, near.atName]
  split
  · exact .read near.name
  · exact .refused

theorem Even.amount (even : c.Even d) :
    Alike (Carries Expression.relocated) c.amount d.amount := by
  obtain ⟨after, digits⟩ := even.near.stopWhile (p := Char.isDigit) (by decide) (by decide)
  obtain ⟨last, letters⟩ := after.stopWhile (p := Char.isAlpha) (by decide) (by decide)
  rw [Cursor.amount, Cursor.amount, digits, even.offset]
  dsimp only
  rw [letters]
  split
  · split
    · exact .read ⟨rfl, after⟩
    · exact .read ⟨rfl, last⟩
  · exact .refused

/-- No string goes beyond its line, so no carriage return comes into one. -/
theorem Near.stringWithin (near : c.Near d) (bound : Nat) :
    Alike Agrees (c.stringWithin bound) (d.stringWithin bound) := by
  induction bound generalizing c d with
  | zero => exact .refused
  | succ bound ih =>
      rw [Cursor.stringWithin, Cursor.stringWithin]
      dsimp only
      obtain ⟨stop, pieces⟩ := near.skipWhile (p := isPlain) rfl rfl
      have plain {ch : Char} {after : Cursor text}
          (taken : (c.skipWhile isPlain).take? ch = some after) (other : ch ≠ '\n') :
          d.taken isPlain = c.taken isPlain := by
        refine pieces.resolve_right fun feed => other ?_
        exact Option.some_inj.mp ((take?_eq_some.mp taken).1.symm.trans feed.1)
      obtain ⟨quote, quote'⟩ | ⟨taken, taken', after⟩ :=
        stop.near.take? '"' (by decide) (by decide)
      · rw [quote, quote']
        obtain ⟨slash, slash'⟩ | ⟨taken, taken', letter⟩ :=
          stop.near.take? '\\' (by decide) (by decide)
        · rw [slash, slash']
          exact .refused
        · rw [taken, taken']
          dsimp only
          rw [letter.bind (f := escaped?) (by decide) (by decide)]
          cases found : c.skipWhile isPlain |>.advance.peek?.bind escaped? with
          | none => exact .refused
          | some meant =>
              dsimp only
              obtain ⟨ch, next, escape⟩ := Option.bind_eq_some_iff.mp found
              have inside : ch ≠ '\r' ∧ ch ≠ '\n' := by
                constructor
                · rintro rfl
                  cases escape
                · rintro rfl
                  cases escape
              have onward := (letter.even next inside.1 inside.2).advance
              refine (ih onward).bind fun others others' rest => ?_
              exact .read ⟨by rw [plain taken (by decide), rest.1], rest.2⟩
      · rw [taken, taken']
        exact .read ⟨plain taken (by decide), after⟩

theorem Even.string (even : c.Even d) {ch : Char} (next : c.peek? = some ch) :
    Alike Agrees c.string d.string := by
  rw [Cursor.string, Cursor.string, ← left, ← left,
    ← (isUnbound c).string ch (c.left + d.left) next (by omega),
    ← (isUnbound d).string ch (c.left + d.left) (even.peek?.trans next) (by omega)]
  refine (even.advance.stringWithin _).bind fun meant meant' read => ?_
  exact .read ⟨by rw [read.1], read.2⟩

theorem Even.comment (even : c.Even d) (begins : c.atComment = true) :
    Carries Statement.relocated c.comment d.comment := by
  have dash := even.advance
  have other : c.advance.Even d.advance := by
    rw [Cursor.atComment, List.isPrefixOf_iff_prefix] at begins
    obtain ⟨rest, here⟩ := begins
    exact dash.even (peek?_of_rest (advance_of_rest here.symm)) (by decide) (by decide)
  obtain ⟨stop, taken⟩ := other.advance.skipWhile (p := isWithinLine) rfl rfl
  have trimmed : trim (d.advance.advance.taken isWithinLine) =
      trim (c.advance.advance.taken isWithinLine) := by
    obtain same | ⟨_, same⟩ := taken
    · rw [same]
    · rw [same, trim_return]
  refine ⟨?_, stop.skipLineFeed⟩
  rw [Cursor.comment, Cursor.comment, Statement.relocated, trimmed, even.offset]

theorem Near.statementEnd (near : c.Near d) :
    Alike (Carries relocatedBlock) c.statementEnd d.statementEnd := by
  have blanks := near.skipBlanks
  rw [Cursor.statementEnd, Cursor.statementEnd]
  rw [blanks.atComment, blanks.peek?]
  split
  · rename_i begins
    have comment := blanks.comment begins
    exact .read ⟨congrArg ([·]) comment.1, comment.2⟩
  · split
    · exact .read ⟨rfl, blanks.advance⟩
    · exact .read ⟨by rw [blanks.offset]; rfl, blanks.advance.skipBlanks.skipLineFeed⟩
    · exact .read ⟨rfl, blanks.near⟩
    · exact .refused

/-! The constructs. -/

mutual

theorem expression_alike : ∀ (bound : Nat) {c : Cursor text} {d : Cursor (withReturns text)},
    c.Even d → Alike (Carries Expression.relocated) (c.expression bound) (d.expression bound)
  | 0, _, _, _ => .refused
  | bound + 1, c, d, even => by
      rw [expression, expression, even.offset]
      refine (term_alike bound even.near).bind ?_
      rintro ⟨first, middle⟩ ⟨_, middle'⟩ ⟨rfl, after⟩
      exact operations_alike bound c.offset first after

theorem operations_alike : ∀ (bound offset : Nat) (left : Expression) {c : Cursor text}
    {d : Cursor (withReturns text)}, c.Near d →
    Alike (Carries Expression.relocated) (c.operations bound offset left)
      (d.operations bound (carried text offset) (left.relocated (carried text)))
  | 0, _, _, _, _, _ => .refused
  | bound + 1, offset, left, c, d, near => by
      have blanks := near.skipBlanks
      rw [operations, operations]
      dsimp only
      rw [blanks.peek?]
      split
      · exact .read ⟨rfl, blanks.near⟩
      · rename_i operator _
        refine (term_alike bound blanks.advance).bind fun right right' read => ?_
        rw [read.1]
        exact operations_alike bound offset (.operation offset operator left right.1) read.2

theorem term_alike : ∀ (bound : Nat) {c : Cursor text} {d : Cursor (withReturns text)},
    c.Near d → Alike (Carries Expression.relocated) (c.term bound) (d.term bound)
  | 0, _, _, _ => .refused
  | bound + 1, c, d, near => by
      have blanks := near.skipBlanks
      rw [term, term]
      dsimp only
      rw [blanks.peek?, blanks.offset]
      split
      · have inside := blanks.advance.skipBlanks
        obtain ⟨none, none'⟩ | ⟨taken, taken', after⟩ :=
          inside.near.take? ')' (by decide) (by decide)
        · rw [none, none']
          refine (expression_alike bound inside).bind fun inner inner' read => ?_
          have closing := read.2.skipBlanks.near.expect ')' (by decide) (by decide)
          refine closing.bind fun last last' near => ?_
          exact .read ⟨by rw [read.1]; rfl, near⟩
        · rw [taken, taken']
          exact .read ⟨rfl, after⟩
      · rename_i quote
        refine (blanks.string quote).bind fun meant meant' read => ?_
        exact .read ⟨by rw [read.1]; rfl, read.2⟩
      · refine (fields_alike bound blanks.advance).bind fun inside inside' read => ?_
        exact .read ⟨by rw [read.1]; rfl, read.2⟩
      · exact .read ⟨rfl, blanks.advance⟩
      · obtain ⟨none, none'⟩ | ⟨taken, taken', after⟩ :=
          blanks.advance.take? '*' (by decide) (by decide)
        · rw [none, none']
          refine (blanks.advance.identifier _).bind fun name name' read => ?_
          rw [read.1]
          exact restriction_alike bound _ _ read.2
        · rw [taken, taken']
          exact restriction_alike bound _ _ after
      · refine (blanks.advance.identifier _).bind fun name name' read => ?_
        rw [read.1]
        exact restriction_alike bound _ _ read.2
      · split
        · exact blanks.amount
        · split
          · exact named_alike bound blanks
          · exact .refused
      · exact .refused

theorem named_alike : ∀ (bound : Nat) {c : Cursor text} {d : Cursor (withReturns text)},
    c.Even d → Alike (Carries Expression.relocated) (c.named bound) (d.named bound)
  | 0, _, _, _ => .refused
  | bound + 1, c, d, even => by
      obtain ⟨same, after⟩ := even.near.name
      have blanks := after.skipBlanks
      rw [named, named]
      dsimp only
      rw [same, blanks.peek?, even.offset]
      split
      · exact .read ⟨rfl, after⟩
      · split
        · refine (term_alike bound blanks.near).bind fun argument argument' read => ?_
          exact .read ⟨by rw [read.1]; rfl, read.2⟩
        · obtain ⟨others, last⟩ := blanks.commaNames
          rw [others]
          exact .read ⟨rfl, last.near⟩

theorem fields_alike : ∀ (bound : Nat) {c : Cursor text} {d : Cursor (withReturns text)},
    c.Near d → Alike (Carries relocatedFields) (c.fields bound) (d.fields bound)
  | 0, _, _, _ => .refused
  | bound + 1, c, d, near => by
      have space := near.skipSpace
      rw [fields, fields]
      dsimp only
      rw [space.peek?]
      obtain ⟨none, none'⟩ | ⟨taken, taken', after⟩ :=
        space.near.take? ']' (by decide) (by decide)
      · rw [none, none']
        dsimp only
        split
        · rename_i quote
          refine (space.string quote).bind fun label label' labelled => ?_
          have sign := labelled.2.skipSpace.near.expect '=' (by decide) (by decide)
          refine sign.bind fun begun begun' after => ?_
          refine (expression_alike bound after.skipSpace).bind fun value value' read => ?_
          have next := read.2.skipSpace.near
          rw [labelled.1, read.1]
          obtain ⟨none, none'⟩ | ⟨taken, taken', more⟩ :=
            next.take? ',' (by decide) (by decide)
          · rw [none, none']
            obtain ⟨none, none'⟩ | ⟨taken, taken', last⟩ :=
              next.take? ']' (by decide) (by decide)
            · rw [none, none']
              exact .refused
            · rw [taken, taken']
              exact .read ⟨rfl, last⟩
          · rw [taken, taken']
            refine (fields_alike bound more).bind fun others others' rest => ?_
            exact .read ⟨by rw [rest.1]; rfl, rest.2⟩
        · exact .refused
      · rw [taken, taken']
        exact .read ⟨rfl, after⟩

theorem restriction_alike : ∀ (bound offset : Nat) (setting : Setting) {c : Cursor text}
    {d : Cursor (withReturns text)}, c.Near d →
    Alike (Carries Expression.relocated) (c.restriction bound offset setting)
      (d.restriction bound (carried text offset) setting)
  | 0, _, _, _, _, _ => .refused
  | bound + 1, offset, setting, c, d, near => by
      rw [restriction, restriction]
      refine (bracedBlock_alike bound near.skipSpace.near).bind fun block block' read => ?_
      exact .read ⟨by rw [read.1]; rfl, read.2⟩

theorem bracedBlock_alike : ∀ (bound : Nat) {c : Cursor text} {d : Cursor (withReturns text)},
    c.Near d → Alike (Carries relocatedBlock) (c.bracedBlock bound) (d.bracedBlock bound)
  | 0, _, _, _ => .refused
  | bound + 1, c, d, near => by
      rw [bracedBlock, bracedBlock]
      have opening := near.expect '\x7b' (by decide) (by decide)
      refine opening.bind fun inside inside' after => ?_
      refine (block_alike bound after.skipBlanks.skipLineFeed).bind fun block block' read => ?_
      have closing := read.2.expect '\x7d' (by decide) (by decide)
      refine closing.bind fun last last' near => ?_
      exact .read ⟨read.1, near⟩

theorem block_alike : ∀ (bound : Nat) {c : Cursor text} {d : Cursor (withReturns text)},
    c.Near d → Alike (Carries relocatedBlock) (c.block bound) (d.block bound)
  | 0, _, _, _ => .refused
  | bound + 1, c, d, near => by
      have blanks := near.skipBlanks
      rw [block, block]
      dsimp only
      rw [blanks.peek?, blanks.offset, blanks.atComment]
      split
      · exact .refused
      · exact .read ⟨rfl, blanks.near⟩
      · refine (block_alike bound blanks.advance).bind fun others others' rest => ?_
        exact .read ⟨by rw [rest.1]; rfl, rest.2⟩
      · split
        · rename_i begins
          have comment := blanks.comment begins
          refine (block_alike bound comment.2).bind fun others others' rest => ?_
          exact .read ⟨by rw [comment.1, rest.1]; rfl, rest.2⟩
        · refine (statement_alike bound blanks).bind fun first first' read => ?_
          refine read.2.statementEnd.bind fun endings endings' ended => ?_
          refine (block_alike bound ended.2).bind fun others others' rest => ?_
          refine .read ⟨?_, rest.2⟩
          dsimp only
          rw [read.1, ended.1, rest.1, relocatedBlock_append, relocatedBlock]

theorem statement_alike : ∀ (bound : Nat) {c : Cursor text} {d : Cursor (withReturns text)},
    c.Even d → Alike (Carries Statement.relocated) (c.statement bound) (d.statement bound)
  | 0, _, _, _ => .refused
  | bound + 1, c, d, even => by
      rw [statement, statement, even.near.atDeclaration, even.offset]
      obtain ⟨none, none'⟩ | ⟨targets, after, after', found, found', onward⟩ := even.near.targets?
      · rw [none, none']
        dsimp only
        split
        · refine (declaration_alike bound even).bind fun procedure procedure' read => ?_
          exact .read ⟨by rw [read.1]; rfl, read.2⟩
        · refine (expression_alike bound even).bind fun value value' read => ?_
          exact .read ⟨by rw [read.1]; rfl, read.2⟩
      · rw [found, found']
        refine (expression_alike bound onward.skipBlanks).bind fun value value' read => ?_
        exact .read ⟨by rw [read.1]; rfl, read.2⟩

theorem declaration_alike : ∀ (bound : Nat) {c : Cursor text} {d : Cursor (withReturns text)},
    c.Even d → Alike (Carries Procedure.relocated) (c.declaration bound) (d.declaration bound)
  | 0, _, _, _ => .refused
  | bound + 1, c, d, even => by
      rw [declaration, declaration, even.offset]
      refine (even.near.identifier _).bind fun name name' named => ?_
      obtain ⟨parameters, listed⟩ := named.2.names
      obtain ⟨signature, after⟩ := listed.signature
      dsimp only
      rw [named.1, parameters, signature]
      refine (bracedBlock_alike bound after.skipSpace.near).bind fun block block' read => ?_
      exact .read ⟨by rw [read.1]; rfl, read.2⟩

end

end Cursor

/-! The procedures of a text. -/

section
variable {text : List Char} {c : Cursor text} {d : Cursor (withReturns text)}

/-- The readers of a procedure keep step with their own bounds. -/
theorem Cursor.Even.declaration (even : c.Even d) :
    Alike (Carries Procedure.relocated) (c.declaration c.bound) (d.declaration d.bound) := by
  rw [← (isUnbound c).declaration (c.bound + d.bound) (Nat.le_add_right _ _),
    ← (isUnbound d).declaration (c.bound + d.bound) (Nat.le_add_left _ _)]
  exact declaration_alike _ even

theorem Cursor.Near.ended (near : c.Near d) (ended : c.skipTrivia.rest = []) :
    d.skipTrivia.rest = [] := by
  have next := near.skipTrivia.peek?
  rw [Cursor.peek?, Cursor.peek?, ended] at next
  exact List.head?_eq_none_iff.mp next

theorem Declares.carried {procedures : List Procedure} (declares : Declares c procedures)
    (near : c.Near d) :
    Declares d (procedures.map (Procedure.relocated (carried text))) := by
  induction declares generalizing d with
  | nil ended => exact .nil (near.ended ended)
  | cons reads _ ih =>
      have alike := near.skipTrivia.declaration
      rw [reads.declaration_eq_ok] at alike
      obtain ⟨⟨_, after⟩, read, rfl, onward⟩ := alike.left
      exact .cons (declaration_reads _ read) (ih onward)

theorem Declares.carried_back {procedures : List Procedure} (declares : Declares d procedures)
    (near : c.Near d) : ∃ others, Declares c others ∧
      procedures = others.map (Procedure.relocated (Text.carried text)) := by
  induction declares generalizing c with
  | nil ended =>
      have next := near.skipTrivia.peek?
      rw [Cursor.peek?, Cursor.peek?, ended] at next
      exact ⟨[], .nil (List.head?_eq_none_iff.mp next.symm), rfl⟩
  | cons reads _ ih =>
      have alike := near.skipTrivia.declaration
      rw [reads.declaration_eq_ok] at alike
      obtain ⟨⟨first, after⟩, read, same, onward⟩ := alike.right
      obtain ⟨others, rest, rfl⟩ := ih onward
      exact ⟨first :: others, .cons (declaration_reads _ read) rest,
        congrArg (· :: others.map _) same⟩

end

/-- With a carriage return before each line feed a text spells the same document, with each offset
carried to where its byte stands then. -/
theorem Document.parse_withReturns (text : String) (document : Document) :
    Document.parse (.ofList (withReturns text.toList)) = .ok document ↔ ∃ other,
      Document.parse text = .ok other ∧ document = other.relocated (carried text.toList) := by
  rw [parse_iff_declares, String.toList_ofList]
  constructor
  · rintro ⟨some, declares⟩
    obtain ⟨others, read, same⟩ := declares.carried_back (.start text.toList)
    refine ⟨⟨others⟩, parse_iff_declares.mpr ⟨?_, read⟩, congrArg Document.mk same⟩
    rintro rfl
    exact some same
  · rintro ⟨other, parsed, rfl⟩
    obtain ⟨some, declares⟩ := parse_iff_declares.mp parsed
    exact ⟨fun none => some (List.map_eq_nil_iff.mp none), declares.carried (.start text.toList)⟩

end Runbook
