import Runbook.Proofs.Syntax.Mends

/-!
Where a text is refused it could have gone on.

Each reader of the grammar that fails stops at a place where what it is to read can be mended. So
what stands before the place of an error is the beginning of a document.
-/
namespace Runbook

open Cursor

/-- Where the reading fails it could have gone on. -/
def Cursor.Viable {text : List Char} (aim : Aim) (c : Cursor text) {α : Type}
    (reading : Reading α) : Prop :=
  ∀ error, reading = .error error → ∃ d w, error.offset = d.offset ∧ c.Mends aim d w

section
variable {text : List Char} {c d s middle after : Cursor text} {aim others : Aim} {w : List Char}
  {α β : Type}

namespace Cursor.Viable

theorem ok {a : α} : c.Viable aim (.ok a : Reading α) := nofun

theorem unexpected {items : List Item} (mends : c.Mends aim d w) :
    c.Viable aim (.error (d.unexpected items) : Reading α) := by
  intro error same
  cases same
  exact ⟨d, w, rfl, mends⟩

theorem bind {part : Reading α} {next : α → Reading β} (first : c.Viable aim part)
    (rest : ∀ a, part = .ok a → c.Viable aim (next a)) : c.Viable aim (part >>= next) := by
  cases part with
  | error error =>
      intro _ same
      cases same
      exact first error rfl
  | ok a => exact rest a rfl

theorem expect {ch : Char} (mends : c.Mends aim d w) : c.Viable aim (d.expect ch) := by
  rw [Cursor.expect]
  split
  · exact .ok
  · exact .unexpected mends

theorem identifier {what : String} (mends : c.Mends aim d w) :
    c.Viable aim (d.identifier what) := by
  rw [Cursor.identifier]
  split
  · exact .ok
  · exact .unexpected mends

theorem statementEnd (mends : c.Mends aim d.skipBlanks w) : c.Viable aim d.statementEnd := by
  rw [Cursor.statementEnd]
  split
  · exact .ok
  · split
    · exact .ok
    · exact .ok
    · exact .ok
    · exact .unexpected mends

/-- What mends a part mends the whole. -/
theorem of {part : Reading α} (viable : s.Viable others part)
    (whole : ∀ d w, s.Mends others d w → ∃ w', c.Mends aim d w') : c.Viable aim part := by
  intro error same
  obtain ⟨d, w, offset, mends⟩ := viable error same
  obtain ⟨w', mends⟩ := whole d w mends
  exact ⟨d, w', offset, mends⟩

end Cursor.Viable

end

/-! Where the readers fail. -/

section
variable {text : List Char}

theorem Cursor.quoted_viable (bound : Nat) (c : Cursor text) :
    c.Viable .quoted (c.stringWithin bound) := by
  induction bound generalizing c with
  | zero => exact .unexpected (.quoted (.inl rfl))
  | succ bound ih =>
      rw [stringWithin]
      dsimp only
      split
      · exact .ok
      · rename_i letter _ taken
        split
        · exact .unexpected (.quoted_of_letter taken)
        · rename_i found
          refine .bind ((ih letter.advance).of fun d w part => ⟨w, ?_⟩) fun _ _ => .ok
          exact .quoted_of_quoted taken found part
      · exact .unexpected (.quoted (.inr rfl))

theorem Cursor.string_viable (c : Cursor text) : c.advance.Viable .quoted c.string :=
  .bind (quoted_viable _ _) fun _ _ => .ok

namespace Cursor

mutual

theorem expression_viable : ∀ (bound : Nat) (c : Cursor text),
    c.Viable .expression (c.expression bound)
  | 0, c => .unexpected (.expression_of_term (.unit (.inl rfl)))
  | bound + 1, c => by
      rw [expression]
      refine .bind ((term_viable bound c).of fun d w part => ⟨w, .expression_of_term part⟩) ?_
      intro ⟨first, middle⟩ read
      exact (operations_viable bound _ _ middle).of fun d w part =>
        ⟨w, .expression_of_operations (term_reads bound read) part⟩

theorem operations_viable : ∀ (bound offset : Nat) (left : Expression) (c : Cursor text),
    c.Viable .operations (c.operations bound offset left)
  | 0, _, _, c => .unexpected .operand
  | bound + 1, offset, left, c => by
      rw [operations]
      split
      · exact .ok
      · rename_i operator found
        refine .bind ((term_viable bound _).of fun d w part =>
          ⟨w, .operations_of_term found part⟩) ?_
        intro ⟨right, middle⟩ read
        exact (operations_viable bound _ _ middle).of fun d w part =>
          ⟨w, .operations_of_operations found (term_reads bound read) part⟩

theorem term_viable : ∀ (bound : Nat) (c : Cursor text), c.Viable .term (c.term bound)
  | 0, c => .unexpected (.unit (.inl rfl))
  | bound + 1, c => by
      have none : ∀ {α : Type}, c.Viable .term
          (.error (c.skipBlanks.unexpected [.label "expression"]) : Reading α) :=
        .unexpected (.unit (.inr rfl))
      rw [term]
      split
      · rename_i next
        dsimp only
        split
        · exact .ok
        · refine .bind ((expression_viable bound _).of fun d w part =>
            ⟨_, .term_of_inner next part⟩) ?_
          intro ⟨inner, middle⟩ read
          refine .bind ?_ fun _ _ => .ok
          exact .expect (.term_of_closing next (expression_reads bound read))
      · rename_i next
        exact .bind ((string_viable _).of fun d w part => ⟨w, .term_of_string next part⟩)
          fun _ _ => .ok
      · rename_i next
        exact .bind ((fields_viable bound _).of fun d w part => ⟨w, .term_of_fields next part⟩)
          fun _ _ => .ok
      · exact .ok
      · rename_i next
        split
        · rename_i taken
          exact (restriction_viable bound _ _ _).of fun d w part =>
            ⟨w, .term_of_inherited next taken part⟩
        · refine .bind (.identifier (.term_of_sign (.inl rfl) next)) ?_
          intro ⟨name, middle⟩ named
          exact (restriction_viable bound _ _ _).of fun d w part =>
            ⟨w, .term_of_signed (.inl rfl) next named part⟩
      · rename_i next
        refine .bind (.identifier (.term_of_sign (.inr rfl) next)) ?_
        intro ⟨name, middle⟩ named
        exact (restriction_viable bound _ _ _).of fun d w part =>
          ⟨w, .term_of_signed (.inr rfl) next named part⟩
      · rename_i ch _ _ _ _ _ _ next
        split
        · rw [amount]
          dsimp only
          split
          · split
            · exact .ok
            · exact .ok
          · exact .unexpected (.unit (.inr rfl))
        · split
          · have there : c.skipBlanks.atName = true := by
              rw [atName, next]
              simpa
            exact named_viable bound c there
          · exact none
      · exact none

theorem named_viable : ∀ (bound : Nat) (c : Cursor text), c.skipBlanks.atName = true →
    c.Viable .term (c.skipBlanks.named bound)
  | 0, c, _ => .unexpected (.unit (.inr rfl))
  | bound + 1, c, there => by
      simp only [named]
      split
      · exact .ok
      · rename_i other
        split
        · refine .bind ((term_viable bound _).of fun d w part =>
            ⟨w, .term_of_argument there other part⟩) fun _ _ => .ok
        · exact .ok

theorem fields_viable : ∀ (bound : Nat) (c : Cursor text), c.Viable .fields (c.fields bound)
  | 0, c => .unexpected (.noField (.inl rfl))
  | bound + 1, c => by
      rw [fields]
      split
      · exact .ok
      · split
        · rename_i quote
          refine .bind ((string_viable _).of fun d w part => ⟨_, .fields_of_label quote part⟩) ?_
          intro ⟨label, named⟩ quoted
          refine .bind (.expect (.fields_of_equal quote quoted)) ?_
          intro begun equal
          refine .bind ((expression_viable bound _).of fun d w part =>
            ⟨_, .fields_of_value quote quoted equal part⟩) ?_
          intro ⟨value, middle⟩ read
          have first := expression_reads bound read
          dsimp only
          split
          · rename_i comma
            exact .bind ((fields_viable bound _).of fun d w part =>
              ⟨w, .fields_of_fields quote quoted equal first comma part⟩) fun _ _ => .ok
          · exact .ok
          · exact .unexpected (.fields_of_closing quote quoted equal first)
        · exact .unexpected (.noField (.inr rfl))

theorem restriction_viable : ∀ (bound offset : Nat) (setting : Setting) (c : Cursor text),
    c.Viable .restriction (c.restriction bound offset setting)
  | 0, _, _, c => .unexpected .restricted
  | bound + 1, offset, setting, c => by
      rw [restriction]
      exact .bind ((bracedBlock_viable bound _).of fun d w part =>
        ⟨w, .restriction_of_bracedBlock part⟩) fun _ _ => .ok

theorem bracedBlock_viable : ∀ (bound : Nat) (c : Cursor text),
    c.Viable .bracedBlock (c.bracedBlock bound)
  | 0, c => .unexpected .braces
  | bound + 1, c => by
      rw [bracedBlock]
      refine .bind (.expect .braces) ?_
      intro within opened
      refine .bind ((block_viable bound _).of fun d w part =>
        ⟨_, .bracedBlock_of_block opened part⟩) ?_
      intro ⟨block, middle⟩ read
      have closed : middle.expect '\x7d' = .ok middle.advance :=
        expect_eq_ok.mpr ⟨(block_reads bound read).closes, rfl⟩
      dsimp only
      rw [closed]
      exact .ok

theorem block_viable : ∀ (bound : Nat) (c : Cursor text), c.Viable .block (c.block bound)
  | 0, c => .unexpected (.noStatement (.inl rfl))
  | bound + 1, c => by
      rw [block]
      dsimp only
      split
      · exact .unexpected (.noStatement (.inr rfl))
      · exact .ok
      · rename_i next
        exact .bind ((block_viable bound _).of fun d w part => ⟨w, .block_of_feed next part⟩)
          fun _ _ => .ok
      · split
        · rename_i begins
          exact .bind ((block_viable bound _).of fun d w part => 
            Mends.block_of_comment begins part)
            fun _ _ => .ok
        · refine .bind ((statement_viable bound _).of fun d w part =>
            ⟨w, .block_of_statement part⟩) ?_
          intro ⟨statement, middle⟩ read
          have first := statement_reads bound read
          refine .bind (.statementEnd (.block_of_ending first)) ?_
          intro ⟨endings, next⟩ ended
          exact .bind ((block_viable bound _).of fun d w part =>
            Mends.block_of_next first ended part)
            fun _ _ => .ok

theorem statement_viable : ∀ (bound : Nat) (c : Cursor text),
    c.Viable .statement (c.statement bound)
  | 0, c => .unexpected (.statement_of_expression (.expression_of_term (.unit (.inl rfl))))
  | bound + 1, c => by
      rw [statement]
      split
      · rename_i found
        exact .bind ((expression_viable bound _).of fun d w part =>
          ⟨w, .statement_of_targets found part⟩) fun _ _ => .ok
      · split
        · rename_i declares
          exact .bind ((declaration_viable bound c true fun _ => declares).of fun d w part =>
            ⟨w, .statement_of_declaration part⟩) fun _ _ => .ok
        · exact .bind ((expression_viable bound c).of fun d w part =>
            ⟨w, .statement_of_expression part⟩) fun _ _ => .ok

theorem declaration_viable : ∀ (bound : Nat) (c : Cursor text) (looked : Bool),
    (looked = true → c.atDeclaration = true) →
      c.Viable (.declaration looked) (c.declaration bound)
  | 0, c, looked, _ => .unexpected (.named looked)
  | bound + 1, c, looked, looks => by
      rw [declaration]
      refine .bind (.identifier (.named looked)) ?_
      intro ⟨name, after⟩ named
      obtain ⟨there, same⟩ := identifier_eq_ok.mp named
      cases same
      exact .bind ((bracedBlock_viable bound _).of fun d w part =>
        ⟨w, .declaration_of_bracedBlock there looks part⟩) fun _ _ => .ok

end

end Cursor

theorem Cursor.proceduresWithin_viable (limit : Nat) (c : Cursor text) :
    c.Viable .procedures (c.proceduresWithin limit) := by
  induction limit generalizing c with
  | zero => exact .unexpected .procedure
  | succ limit ih =>
      rw [proceduresWithin]
      dsimp only
      split
      · exact .ok
      · rename_i some
        rw [List.isEmpty_iff] at some
        refine .bind ((declaration_viable _ c.skipTrivia false (absurd · Bool.false_ne_true)).of
          fun d w part => ⟨w, .procedures_of_declaration some part⟩) ?_
        rintro ⟨first, after⟩ read
        exact .bind ((ih after).of fun d w part =>
          ⟨w, .procedures_of_procedures (declaration_reads _ read) part⟩) fun _ _ => .ok

/-- Where a text cannot be read, it could have gone on. -/
theorem Document.read_viable (text : String) :
    (Cursor.start text.toList).Viable .procedures (Document.read text) := by
  refine .bind (proceduresWithin_viable _ _) ?_
  intro procedures read
  split
  · cases proceduresWithin_declares _ read with
    | nil ended => exact .unexpected (.procedure_line ended)
  · exact .ok

end

/-- A text is refused where what stands before is the beginning of a document. -/
theorem Document.parse_viable {text : String} {failure : ParseFailure}
    (refused : Document.parse text = .error failure) :
    ∃ error, failure.errors = [error] ∧ ∃ before after, before ++ after = text.toList ∧
      Text.byteLength before = error.offset ∧
      ∃ rest document, Document.parse (String.ofList (before ++ rest)) = .ok document := by
  rw [Document.parse] at refused
  cases read : Document.read text with
  | ok document =>
      rw [read] at refused
      cases refused
  | error error =>
      rw [read] at refused
      cases refused
      obtain ⟨d, w, offset, mends⟩ := Document.read_viable text error read
      obtain ⟨before, whole, length⟩ := d.stands
      refine ⟨error, rfl, before, d.rest, whole, length.trans offset.symm, w, ?_⟩
      have twins : (Cursor.start text.toList).Twins 0 d.rest (w ++ [])
          (Cursor.start (before ++ w)) :=
        ⟨rfl, before, whole.symm, by rw [List.append_nil]; rfl⟩
      obtain ⟨_, ⟨procedures, some, declares⟩, _⟩ := mends.reads [] rfl _ _ twins
      refine ⟨⟨procedures⟩, parse_iff_declares.mpr ⟨some, ?_⟩⟩
      rwa [String.toList_ofList]

/-- An escape that there is not, in a tablet in two blocks. -/
def Document.spilt : String :=
  "brew cup : tea\x7b\n  pour cup ; @cook \x7b [\"é\" = \"\\q\"] \x7d\n\x7d -- hot\n"

theorem Document.parse_viable_spilt : ∃ error, Document.parse spilt = .error ⟨[error]⟩ ∧
    error.offset = 47 ∧ ∃ before after, before ++ after = spilt.toList ∧
      Text.byteLength before = error.offset ∧
      ∃ rest document, Document.parse (String.ofList (before ++ rest)) = .ok document := by
  obtain ⟨error, parsed, offset⟩ : ∃ error, Document.parse spilt = .error ⟨[error]⟩ ∧
      error.offset = 47 := ⟨_, rfl, rfl⟩
  obtain ⟨_, same, viable⟩ := Document.parse_viable parsed
  cases same
  exact ⟨error, parsed, offset, viable⟩

end Runbook
