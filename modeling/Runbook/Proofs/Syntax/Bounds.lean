import Runbook.Proofs.Syntax.Onward

/-!
The bounds of the readers are never met.

Readers count down from a bound. A reader that is given eight for each character that is left, and a
few more for the constructs that begin at one place, reads whatever stands there by the rules, and
reads the same with every greater bound. So what a document is read as owes nothing to its bounds.
-/
namespace Runbook

open Cursor

/-- How many constructs may begin inside the phrase at the place where it begins. -/
def Phrase.nested : Phrase → Nat
  | .term _ | .restriction _ _ _ => 1
  | .expression _ => 2
  | .statement _ => 3
  | .block _ => 4
  | _ => 0

/-- The reader of the phrase reads it with that bound. -/
def Phrase.IsRead {text : List Char} (bound : Nat) (c after : Cursor text) : Phrase → Prop
  | .expression value => c.expression bound = .ok (value, after)
  | .operations offset left value => c.operations bound offset left = .ok (value, after)
  | .term value => c.term bound = .ok (value, after)
  | .named value => c.named bound = .ok (value, after)
  | .fields value => c.fields bound = .ok (value, after)
  | .restriction offset setting value =>
    c.restriction bound offset setting = .ok (value, after)
  | .bracedBlock value => c.bracedBlock bound = .ok (value, after)
  | .block value => c.block bound = .ok (value, after)
  | .statement value => c.statement bound = .ok (value, after)
  | .declaration value => c.declaration bound = .ok (value, after)

namespace Cursor

variable {text : List Char} {c : Cursor text} {ch : Char}

theorem term_eq_amount (bound : Nat) (next : c.skipBlanks.peek? = some ch)
    (digit : ch.isDigit = true) : c.term (bound + 1) = c.skipBlanks.amount := by
  rw [term]
  simp only [next]
  split
  all_goals
    rename_i same
    cases same
  case h_7 => rw [if_pos digit]
  all_goals cases digit

theorem term_eq_named (bound : Nat) (there : c.skipBlanks.atName = true) :
    c.term (bound + 1) = c.skipBlanks.named bound := by
  obtain ⟨ch, rest, same, begins⟩ := atName_iff.mp there
  have next : c.skipBlanks.peek? = some ch := peek?_eq_some.mpr ⟨rest, same⟩
  rw [term]
  simp only [next]
  split
  all_goals
    rename_i same
    cases same
  case h_7 => rw [if_neg (not_isDigit_of_isNameStart begins), if_pos begins]
  all_goals cases begins

theorem block_eq_statement (bound : Nat) (next : c.skipBlanks.peek? = some ch) (brace : ch ≠ '\x7d')
    (feed : ch ≠ '\n') (plain : c.skipBlanks.atComment = false) :
    c.block (bound + 1) = c.skipBlanks.statement bound >>= fun first =>
      first.2.statementEnd >>= fun ended => ended.2.block bound >>= fun others =>
        .ok (first.1 :: ended.1 ++ others.1, others.2) := by
  rw [block]
  simp only [next, plain, Bool.false_eq_true, if_false]

end Cursor

theorem forall_lt_of_succ {least : Nat} {P : Nat → Prop}
    (step : ∀ bound, least ≤ bound → P (bound + 1)) : ∀ bound, least < bound → P bound := by
  intro bound enough
  cases bound with
  | zero => exact absurd enough (Nat.not_lt_zero _)
  | succ bound => exact step bound (Nat.le_of_lt_succ enough)

/-- What is read by the rules is read with every bound that is large enough. -/
theorem Reads.isRead {text : List Char} {c after : Cursor text} {phrase : Phrase}
    (reads : Reads c phrase after) :
    ∀ bound, 8 * c.left + phrase.nested < bound → phrase.IsRead bound c after := by
  induction reads with
  | @expression c middle _ _ _ read _ first rest =>
      refine forall_lt_of_succ fun bound enough => ?_
      have onward := read.left_le
      simp only [Phrase.nested, Phrase.least, Phrase.IsRead] at *
      rw [Cursor.expression, first bound (by omega)]
      exact rest bound (by omega)
  | last none =>
      refine forall_lt_of_succ fun bound _ => ?_
      simp only [Phrase.IsRead, Cursor.operations, none]
  | @operator c _ _ middle _ _ _ _ found read _ first rest =>
      refine forall_lt_of_succ fun bound enough => ?_
      have blanks := left_skipBlanks_le c
      obtain ⟨ch, next, _⟩ := Option.bind_eq_some_iff.mp found
      have sign := left_advance next
      have onward := read.left_le
      simp only [Phrase.nested, Phrase.least, Phrase.IsRead] at *
      simp only [Cursor.operations, found]
      rw [first bound (by omega)]
      exact rest bound (by omega)
  | unit next taken =>
      refine forall_lt_of_succ fun bound _ => ?_
      simp only [Phrase.IsRead, Cursor.term, next, taken]
  | @grouping c _ _ _ next open? _ closed ih =>
      refine forall_lt_of_succ fun bound enough => ?_
      have opened := left_opened next
      have inside := left_skipBlanks_le c.skipBlanks.advance
      simp only [Phrase.nested, Phrase.IsRead] at *
      simp only [Cursor.term, next, open?]
      rw [ih bound (by omega)]
      simp only [bind, Except.bind, closed]
  | string next read =>
      refine forall_lt_of_succ fun bound _ => ?_
      simp only [Phrase.IsRead, Cursor.term, next, read, bind, Except.bind]
  | @tablet c _ _ next _ ih =>
      refine forall_lt_of_succ fun bound enough => ?_
      have opened := left_opened next
      simp only [Phrase.nested, Phrase.IsRead] at *
      simp only [Cursor.term, next]
      rw [ih bound (by omega)]
      rfl
  | hole next =>
      refine forall_lt_of_succ fun bound _ => ?_
      simp only [Phrase.IsRead, Cursor.term, next]
  | @inherited c _ _ _ next taken _ ih =>
      refine forall_lt_of_succ fun bound enough => ?_
      have opened := left_opened next
      have star := left_take? taken
      simp only [Phrase.nested, Phrase.IsRead] at *
      simp only [Cursor.term, next, taken]
      exact ih bound (by omega)
  | @role c _ middle _ _ next none named _ ih =>
      refine forall_lt_of_succ fun bound enough => ?_
      have opened := left_opened next
      have name : middle.left ≤ _ := left_identifier_le named
      simp only [Phrase.nested, Phrase.IsRead] at *
      simp only [Cursor.term, next, none, named, bind, Except.bind]
      exact ih bound (by omega)
  | @place c _ middle _ _ next named _ ih =>
      refine forall_lt_of_succ fun bound enough => ?_
      have opened := left_opened next
      have name : middle.left ≤ _ := left_identifier_le named
      simp only [Phrase.nested, Phrase.IsRead] at *
      simp only [Cursor.term, next, named, bind, Except.bind]
      exact ih bound (by omega)
  | @amount c ch _ _ next digit read =>
      refine forall_lt_of_succ fun bound _ => ?_
      rw [Phrase.IsRead, term_eq_amount bound next digit, read]
  | @name c _ _ there _ ih =>
      refine forall_lt_of_succ fun bound enough => ?_
      have blanks := left_skipBlanks_le c
      simp only [Phrase.nested, Phrase.IsRead] at *
      rw [term_eq_named bound there]
      exact ih bound (by omega)
  | undefined _ same =>
      refine forall_lt_of_succ fun bound _ => ?_
      simp only [Phrase.IsRead, Cursor.named, same, if_true]
  | @application c _ _ there other begins _ ih =>
      refine forall_lt_of_succ fun bound enough => ?_
      have name := left_name there
      have blanks := left_skipBlanks_le c.name.2
      simp only [Phrase.nested, Phrase.IsRead] at *
      simp only [Cursor.named, other, begins, if_true, if_false]
      rw [ih bound (by omega)]
      rfl
  | reference _ other ends =>
      refine forall_lt_of_succ fun bound _ => ?_
      simp only [Phrase.IsRead, Cursor.named, other, ends, if_false, Bool.false_eq_true]
  | noField taken =>
      refine forall_lt_of_succ fun bound _ => ?_
      simp only [Phrase.IsRead, Cursor.fields, taken]
  | @field c _ labelled begun _ middle _ _ _ open? next quoted equal read comma _ first rest =>
      refine forall_lt_of_succ fun bound enough => ?_
      have label := left_labelled next quoted equal
      have onward := read.left_le
      have last := left_skipSpace_le middle
      have passed := left_take? comma
      simp only [Phrase.nested, Phrase.least, Phrase.IsRead] at *
      simp only [Cursor.fields, open?, next, quoted, equal, bind, Except.bind, if_true]
      rw [first bound (by omega)]
      simp only [comma]
      rw [rest bound (by omega)]
  | @lastField c _ labelled begun _ middle _ open? next quoted equal _ comma closed ih =>
      refine forall_lt_of_succ fun bound enough => ?_
      have label := left_labelled next quoted equal
      simp only [Phrase.nested, Phrase.IsRead] at *
      simp only [Cursor.fields, open?, next, quoted, equal, bind, Except.bind, if_true]
      rw [ih bound (by omega)]
      simp only [comma, closed]
  | @restriction c _ _ _ _ _ ih =>
      refine forall_lt_of_succ fun bound enough => ?_
      have spaces := left_skipSpace_le c
      simp only [Phrase.nested, Phrase.IsRead] at *
      rw [Cursor.restriction, ih bound (by omega)]
      rfl
  | @bracedBlock c inside _ _ _ opened _ closed ih =>
      refine forall_lt_of_succ fun bound enough => ?_
      have brace := left_expect opened
      have blanks := left_skipBlanks_le inside
      have feed := left_skipLineFeed_le inside.skipBlanks
      simp only [Phrase.nested, Phrase.IsRead] at *
      simp only [Cursor.bracedBlock, opened, bind, Except.bind]
      rw [ih bound (by omega)]
      simp only [closed]
  | noStatement next =>
      refine forall_lt_of_succ fun bound _ => ?_
      simp only [Phrase.IsRead, Cursor.block, next]
  | @blank c _ _ next _ ih =>
      refine forall_lt_of_succ fun bound enough => ?_
      have feed := left_opened next
      simp only [Phrase.nested, Phrase.IsRead] at *
      simp only [Cursor.block, next]
      rw [ih bound (by omega)]
      rfl
  | @comment c _ _ begins _ ih =>
      refine forall_lt_of_succ fun bound enough => ?_
      have blanks := left_skipBlanks_le c
      have onward := left_comment begins
      have next := peek?_of_atComment begins
      simp only [Phrase.nested, Phrase.IsRead] at *
      simp only [Cursor.block, next, begins, if_true]
      rw [ih bound (by omega)]
      rfl
  | @nextStatement c ch _ _ _ _ _ _ next open? line plain read ended _ first rest =>
      refine forall_lt_of_succ fun bound enough => ?_
      have blanks := left_skipBlanks_le c
      have onward := read.left_le
      have ending := left_statementEnd_le ended
      simp only [Phrase.nested, Phrase.least, Phrase.IsRead] at *
      rw [block_eq_statement bound next open? line plain, first bound (by omega)]
      simp only [bind, Except.bind, ended]
      rw [rest bound (by omega)]
  | @assignment c _ middle _ _ found _ ih =>
      refine forall_lt_of_succ fun bound enough => ?_
      have targets := left_targets? found
      have blanks := left_skipBlanks_le middle
      simp only [Phrase.nested, Phrase.IsRead] at *
      simp only [Cursor.statement, found]
      rw [ih bound (by omega)]
      rfl
  | procedure none declares _ ih =>
      refine forall_lt_of_succ fun bound enough => ?_
      simp only [Phrase.nested, Phrase.IsRead] at *
      simp only [Cursor.statement, none, declares, if_true]
      rw [ih bound (by omega)]
      rfl
  | execute none executes _ ih =>
      refine forall_lt_of_succ fun bound enough => ?_
      simp only [Phrase.nested, Phrase.IsRead] at *
      simp only [Cursor.statement, none, executes, Bool.false_eq_true, if_false]
      rw [ih bound (by omega)]
      rfl
  | @declaration c _ _ there _ ih =>
      refine forall_lt_of_succ fun bound enough => ?_
      have heading := left_heading there
      simp only [Phrase.nested, Phrase.IsRead] at *
      rw [Cursor.declaration, identifier_eq_ok.mpr ⟨there, rfl⟩]
      simp only [bind, Except.bind]
      rw [ih bound (by omega)]

theorem eq_of_le {α : Type} {f : Nat → α} {least : Nat}
    (same : ∀ bound, least ≤ bound → f (bound + 1) = f bound) {bound : Nat}
    (enough : least ≤ bound) : f bound = f least := by
  induction enough with
  | refl => rfl
  | step enough ih => exact (same _ enough).trans ih

theorem Reading.bind_congr {α β : Type} {part : Reading α} {next other : α → Reading β}
    (same : ∀ a, part = .ok a → next a = other a) : part >>= next = part >>= other := by
  cases part with
  | error error => rfl
  | ok a => exact same a rfl

namespace Cursor

variable {text : List Char}

/-! A bound that is large enough may as well be one larger. -/

mutual

theorem expression_succ : ∀ (bound : Nat) (c : Cursor text), 8 * c.left + 2 < bound →
    c.expression (bound + 1) = c.expression bound
  | 0, _, enough => absurd enough (Nat.not_lt_zero _)
  | bound + 1, c, enough => by
      conv => lhs; rw [expression]
      conv => rhs; rw [expression]
      rw [term_succ bound c (by omega)]
      refine Reading.bind_congr fun result read => ?_
      have onward := (term_reads bound read).left_lt rfl
      exact operations_succ bound _ _ result.2 (by omega)

theorem operations_succ : ∀ (bound offset : Nat) (left : Expression) (c : Cursor text),
    8 * c.left < bound → c.operations (bound + 1) offset left = c.operations bound offset left
  | 0, _, _, _, enough => absurd enough (Nat.not_lt_zero _)
  | bound + 1, offset, left, c, enough => by
      conv => lhs; rw [operations]
      conv => rhs; rw [operations]
      dsimp only
      split
      · rfl
      · rename_i operator found
        have blanks := left_skipBlanks_le c
        obtain ⟨ch, next, _⟩ := Option.bind_eq_some_iff.mp found
        have sign := left_advance next
        rw [term_succ bound _ (by omega)]
        refine Reading.bind_congr fun result read => ?_
        have onward := (term_reads bound read).left_lt rfl
        exact operations_succ bound _ _ result.2 (by omega)

theorem term_succ : ∀ (bound : Nat) (c : Cursor text), 8 * c.left + 1 < bound →
    c.term (bound + 1) = c.term bound
  | 0, _, enough => absurd enough (Nat.not_lt_zero _)
  | bound + 1, c, enough => by
      have blanks := left_skipBlanks_le c
      conv => lhs; rw [term]
      conv => rhs; rw [term]
      dsimp only
      split
      · rename_i next
        have opened := left_opened next
        have inside := left_skipBlanks_le c.skipBlanks.advance
        rw [expression_succ bound _ (by omega)]
      · rfl
      · rename_i next
        have opened := left_opened next
        rw [fields_succ bound _ (by omega)]
      · rfl
      · rename_i next
        have opened := left_opened next
        split
        · rename_i taken
          have star := left_take? taken
          rw [restriction_succ bound _ _ _ (by omega)]
        · refine Reading.bind_congr fun result named => ?_
          have name := left_identifier_le named
          exact restriction_succ bound _ _ result.2 (by omega)
      · rename_i next
        have opened := left_opened next
        refine Reading.bind_congr fun result named => ?_
        have name := left_identifier_le named
        exact restriction_succ bound _ _ result.2 (by omega)
      · split
        · rfl
        · split
          · rename_i ch _ _ _ _ _ _ next _ begins
            refine named_succ bound _ ?_ (by omega)
            rw [atName, next]
            simpa
          · rfl
      · rfl

theorem named_succ : ∀ (bound : Nat) (c : Cursor text), c.atName = true → 8 * c.left < bound →
    c.named (bound + 1) = c.named bound
  | 0, _, _, enough => absurd enough (Nat.not_lt_zero _)
  | bound + 1, c, there, enough => by
      have name := left_name there
      have blanks := left_skipBlanks_le c.name.2
      conv => lhs; rw [named]
      conv => rhs; rw [named]
      dsimp only
      rw [term_succ bound _ (by omega)]

theorem fields_succ : ∀ (bound : Nat) (c : Cursor text), 8 * c.left < bound →
    c.fields (bound + 1) = c.fields bound
  | 0, _, enough => absurd enough (Nat.not_lt_zero _)
  | bound + 1, c, enough => by
      conv => lhs; rw [fields]
      conv => rhs; rw [fields]
      dsimp only
      split
      · rfl
      · split
        · rename_i next
          refine Reading.bind_congr fun labelled quoted => ?_
          refine Reading.bind_congr fun begun equal => ?_
          have label := left_labelled next quoted equal
          rw [expression_succ bound _ (by omega)]
          refine Reading.bind_congr fun result read => ?_
          have onward := (expression_reads bound read).left_lt rfl
          have last := left_skipSpace_le result.2
          split
          · rename_i comma
            have passed := left_take? comma
            rw [fields_succ bound _ (by omega)]
          · rfl
          · rfl
        · rfl

theorem restriction_succ : ∀ (bound offset : Nat) (setting : Setting) (c : Cursor text),
    8 * c.left + 1 < bound →
      c.restriction (bound + 1) offset setting = c.restriction bound offset setting
  | 0, _, _, _, enough => absurd enough (Nat.not_lt_zero _)
  | bound + 1, offset, setting, c, enough => by
      have spaces := left_skipSpace_le c
      conv => lhs; rw [restriction]
      conv => rhs; rw [restriction]
      rw [bracedBlock_succ bound _ (by omega)]

theorem bracedBlock_succ : ∀ (bound : Nat) (c : Cursor text), 8 * c.left < bound →
    c.bracedBlock (bound + 1) = c.bracedBlock bound
  | 0, _, enough => absurd enough (Nat.not_lt_zero _)
  | bound + 1, c, enough => by
      conv => lhs; rw [bracedBlock]
      conv => rhs; rw [bracedBlock]
      refine Reading.bind_congr fun inside opened => ?_
      have brace := left_expect opened
      have blanks := left_skipBlanks_le inside
      have feed := left_skipLineFeed_le inside.skipBlanks
      rw [block_succ bound _ (by omega)]

theorem block_succ : ∀ (bound : Nat) (c : Cursor text), 8 * c.left + 4 < bound →
    c.block (bound + 1) = c.block bound
  | 0, _, enough => absurd enough (Nat.not_lt_zero _)
  | bound + 1, c, enough => by
      have blanks := left_skipBlanks_le c
      conv => lhs; rw [block]
      conv => rhs; rw [block]
      dsimp only
      split
      · rfl
      · rfl
      · rename_i next
        have feed := left_opened next
        rw [block_succ bound _ (by omega)]
      · split
        · rename_i begins
          have onward := left_comment begins
          rw [block_succ bound _ (by omega)]
        · rw [statement_succ bound _ (by omega)]
          refine Reading.bind_congr fun result read => ?_
          have onward := (statement_reads bound read).left_lt rfl
          refine Reading.bind_congr fun ended ends => ?_
          have ending := left_statementEnd_le ends
          rw [block_succ bound _ (by omega)]

theorem statement_succ : ∀ (bound : Nat) (c : Cursor text), 8 * c.left + 3 < bound →
    c.statement (bound + 1) = c.statement bound
  | 0, _, enough => absurd enough (Nat.not_lt_zero _)
  | bound + 1, c, enough => by
      conv => lhs; rw [statement]
      conv => rhs; rw [statement]
      split
      · rename_i found
        have targets := left_targets? found
        rw [expression_succ bound _ (by have := left_skipBlanks_le ‹Cursor text›; omega)]
      · rw [declaration_succ bound _ (by omega), expression_succ bound _ (by omega)]

theorem declaration_succ : ∀ (bound : Nat) (c : Cursor text), 8 * c.left < bound →
    c.declaration (bound + 1) = c.declaration bound
  | 0, _, enough => absurd enough (Nat.not_lt_zero _)
  | bound + 1, c, enough => by
      conv => lhs; rw [declaration]
      conv => rhs; rw [declaration]
      refine Reading.bind_congr fun result named => ?_
      obtain ⟨there, same⟩ := identifier_eq_ok.mp named
      cases same
      have heading := left_heading there
      dsimp only
      rw [bracedBlock_succ bound _ (by omega)]

end

/-- The bound that a procedure is read with is not met. -/
theorem declaration_of_le {bound : Nat} {c : Cursor text} (enough : c.bound ≤ bound) :
    c.declaration bound = c.declaration c.bound := by
  refine eq_of_le (f := fun bound => c.declaration bound) ?_ enough
  intro bound enough
  rw [Cursor.bound] at enough
  exact declaration_succ bound c (by rw [left]; omega)

end Cursor

end Runbook
