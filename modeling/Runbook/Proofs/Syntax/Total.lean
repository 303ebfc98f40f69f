import Runbook.Proofs.Text.Bytes
import Runbook.Proofs.Syntax.Bounds

/-!
Every text is read to an end, as a document or up to one place.

The bounds of the readers are never met, so what is read is what readers without bounds would read.
Where a text cannot be read on, the one error stands at a place between two of its characters, names
the character there or the end, and says what could have been there. The readers ask only for
characters of ASCII, so the same pieces of the text are found by going over its bytes.
-/
namespace Runbook

open Cursor

/-- The reading gives a result, or it is stopped at a place of the text for something that could
have been there. -/
def Stops (text : List Char) {α : Type} (reading : Reading α) : Prop :=
  ∀ error, reading = .error error →
    ∃ (c : Cursor text) (item : Item) (items : List Item), error = c.unexpected (item :: items)

namespace Stops

variable {text : List Char} {α β : Type}

theorem ok {a : α} : Stops text (.ok a : Reading α) := nofun

theorem unexpected {c : Cursor text} {item : Item} {items : List Item} :
    Stops text (.error (c.unexpected (item :: items)) : Reading α) := by
  intro error same
  cases same
  exact ⟨c, item, items, rfl⟩

theorem bind {part : Reading α} {next : α → Reading β} (first : Stops text part)
    (rest : ∀ a, part = .ok a → Stops text (next a)) : Stops text (part >>= next) := by
  cases part with
  | error error =>
      intro other same
      cases same
      exact first error rfl
  | ok a => exact rest a rfl

end Stops

namespace Cursor

variable {text : List Char}

theorem expect_stops (ch : Char) (c : Cursor text) : Stops text (c.expect ch) := by
  rw [expect]
  split
  · exact .ok
  · exact .unexpected

theorem identifier_stops (what : String) (c : Cursor text) : Stops text (c.identifier what) := by
  rw [identifier]
  split
  · exact .ok
  · exact .unexpected

theorem amount_stops (c : Cursor text) : Stops text c.amount := by
  rw [amount]
  split
  · dsimp only
    split
    · exact .ok
    · exact .ok
  · exact .unexpected

theorem stringWithin_stops (bound : Nat) (c : Cursor text) : Stops text (c.stringWithin bound) := by
  induction bound generalizing c with
  | zero => exact .unexpected
  | succ bound ih =>
      rw [stringWithin]
      dsimp only
      split
      · exact .ok
      · split
        · exact .unexpected
        · exact .bind (ih _) fun _ _ => .ok
      · exact .unexpected

theorem string_stops (c : Cursor text) : Stops text c.string :=
  .bind (stringWithin_stops _ _) fun _ _ => .ok

theorem statementEnd_stops (c : Cursor text) : Stops text c.statementEnd := by
  rw [statementEnd]
  split
  · exact .ok
  · split
    · exact .ok
    · exact .ok
    · exact .ok
    · exact .unexpected

mutual

theorem expression_stops : ∀ (bound : Nat) (c : Cursor text), Stops text (c.expression bound)
  | 0, _ => .unexpected
  | bound + 1, c => by
      rw [expression]
      exact .bind (term_stops bound c) fun _ _ => operations_stops bound _ _ _

theorem operations_stops : ∀ (bound offset : Nat) (left : Expression) (c : Cursor text),
    Stops text (c.operations bound offset left)
  | 0, _, _, _ => .unexpected
  | bound + 1, offset, left, c => by
      rw [operations]
      dsimp only
      split
      · exact .ok
      · exact .bind (term_stops bound _) fun _ _ => operations_stops bound _ _ _

theorem term_stops : ∀ (bound : Nat) (c : Cursor text), Stops text (c.term bound)
  | 0, _ => .unexpected
  | bound + 1, c => by
      rw [term]
      dsimp only
      split
      · split
        · exact .ok
        · refine .bind (expression_stops bound _) fun _ _ => ?_
          exact .bind (expect_stops _ _) fun _ _ => .ok
      · exact .bind (string_stops _) fun _ _ => .ok
      · exact .bind (fields_stops bound _) fun _ _ => .ok
      · exact .ok
      · split
        · exact restriction_stops bound _ _ _
        · exact .bind (identifier_stops _ _) fun _ _ => restriction_stops bound _ _ _
      · exact .bind (identifier_stops _ _) fun _ _ => restriction_stops bound _ _ _
      · split
        · exact amount_stops _
        · split
          · exact named_stops bound _
          · exact .unexpected
      · exact .unexpected

theorem named_stops : ∀ (bound : Nat) (c : Cursor text), Stops text (c.named bound)
  | 0, _ => .unexpected
  | bound + 1, c => by
      rw [named]
      dsimp only
      split
      · exact .ok
      · split
        · exact .bind (term_stops bound _) fun _ _ => .ok
        · exact .ok

theorem fields_stops : ∀ (bound : Nat) (c : Cursor text), Stops text (c.fields bound)
  | 0, _ => .unexpected
  | bound + 1, c => by
      rw [fields]
      dsimp only
      split
      · exact .ok
      · split
        · refine .bind (string_stops _) fun _ _ => ?_
          refine .bind (expect_stops _ _) fun _ _ => ?_
          refine .bind (expression_stops bound _) fun _ _ => ?_
          split
          · exact .bind (fields_stops bound _) fun _ _ => .ok
          · exact .ok
          · exact .unexpected
        · exact .unexpected

theorem restriction_stops : ∀ (bound offset : Nat) (setting : Setting) (c : Cursor text),
    Stops text (c.restriction bound offset setting)
  | 0, _, _, _ => .unexpected
  | bound + 1, offset, setting, c => by
      rw [restriction]
      exact .bind (bracedBlock_stops bound _) fun _ _ => .ok

theorem bracedBlock_stops : ∀ (bound : Nat) (c : Cursor text), Stops text (c.bracedBlock bound)
  | 0, _ => .unexpected
  | bound + 1, c => by
      rw [bracedBlock]
      refine .bind (expect_stops _ _) fun _ _ => ?_
      refine .bind (block_stops bound _) fun _ _ => ?_
      exact .bind (expect_stops _ _) fun _ _ => .ok

theorem block_stops : ∀ (bound : Nat) (c : Cursor text), Stops text (c.block bound)
  | 0, _ => .unexpected
  | bound + 1, c => by
      rw [block]
      dsimp only
      split
      · exact .unexpected
      · exact .ok
      · exact .bind (block_stops bound _) fun _ _ => .ok
      · split
        · exact .bind (block_stops bound _) fun _ _ => .ok
        · refine .bind (statement_stops bound _) fun _ _ => ?_
          refine .bind (statementEnd_stops _) fun _ _ => ?_
          exact .bind (block_stops bound _) fun _ _ => .ok

theorem statement_stops : ∀ (bound : Nat) (c : Cursor text), Stops text (c.statement bound)
  | 0, _ => .unexpected
  | bound + 1, c => by
      rw [statement]
      split
      · exact .bind (expression_stops bound _) fun _ _ => .ok
      · split
        · exact .bind (declaration_stops bound _) fun _ _ => .ok
        · exact .bind (expression_stops bound _) fun _ _ => .ok

theorem declaration_stops : ∀ (bound : Nat) (c : Cursor text), Stops text (c.declaration bound)
  | 0, _ => .unexpected
  | bound + 1, c => by
      rw [declaration]
      refine .bind (identifier_stops _ _) fun _ _ => ?_
      exact .bind (bracedBlock_stops bound _) fun _ _ => .ok

end

theorem proceduresWithin_stops (limit : Nat) (c : Cursor text) :
    Stops text (c.proceduresWithin limit) := by
  induction limit generalizing c with
  | zero => exact .unexpected
  | succ limit ih =>
      rw [proceduresWithin]
      dsimp only
      split
      · exact .ok
      · refine .bind (declaration_stops _ _) fun _ _ => ?_
        exact .bind (ih _) fun _ _ => .ok

end Cursor

theorem Document.read_stops (text : String) : Stops text.toList (Document.read text) := by
  refine .bind (proceduresWithin_stops _ _) fun procedures _ => ?_
  split
  · exact .unexpected
  · exact .ok

namespace Cursor

variable {text : List Char}

/-! The readers of lists and strings do not meet their bounds either. -/

theorem namesWithin_succ (bound : Nat) (c : Cursor text) (enough : c.left ≤ bound) :
    c.namesWithin (bound + 1) = c.namesWithin bound := by
  have blanks := left_skipBlanks_le c
  induction bound generalizing c with
  | zero =>
      rw [namesWithin, namesWithin]
      dsimp only
      split
      · rename_i there
        have name := left_name there
        omega
      · rfl
  | succ bound ih =>
      conv => lhs; rw [namesWithin]
      conv => rhs; rw [namesWithin]
      dsimp only
      split
      · rename_i there
        have name := left_name there
        rw [ih _ (by omega) (left_skipBlanks_le _)]
      · rfl

theorem targetsWithin_succ (bound : Nat) (c : Cursor text) (enough : c.left ≤ bound) :
    c.targetsWithin (bound + 1) = c.targetsWithin bound := by
  have blanks := left_skipBlanks_le c
  induction bound generalizing c with
  | zero =>
      rw [targetsWithin, targetsWithin]
      dsimp only
      split
      · rename_i there
        have name := left_name there
        omega
      · rfl
  | succ bound ih =>
      conv => lhs; rw [targetsWithin]
      conv => rhs; rw [targetsWithin]
      dsimp only
      split
      · rename_i there
        have name := left_name there
        have more := left_skipBlanks_le c.skipBlanks.name.2
        split
        · rename_i next taken
          have comma := left_take? taken
          rw [ih next (by omega) (left_skipBlanks_le _)]
        · rfl
      · rfl

theorem commaNamesWithin_succ (bound : Nat) (c : Cursor text) (enough : c.left ≤ bound) :
    c.commaNamesWithin (bound + 1) = c.commaNamesWithin bound := by
  induction bound generalizing c with
  | zero =>
      rw [commaNamesWithin, commaNamesWithin]
      split
      · rfl
      · rename_i next taken
        have comma := left_take? taken
        omega
  | succ bound ih =>
      conv => lhs; rw [commaNamesWithin]
      conv => rhs; rw [commaNamesWithin]
      split
      · rfl
      · rename_i next taken
        have comma := left_take? taken
        have blanks := left_skipBlanks_le next
        have name := left_name_le next.skipBlanks
        have more := left_skipBlanks_le next.skipBlanks.name.2
        dsimp only
        rw [ih _ (by omega)]

theorem stringWithin_succ (bound : Nat) (c : Cursor text) (enough : c.left < bound) :
    c.stringWithin (bound + 1) = c.stringWithin bound := by
  induction bound generalizing c with
  | zero => exact absurd enough (Nat.not_lt_zero _)
  | succ bound ih =>
      have piece := left_skipWhile_le isPlain c
      conv => lhs; rw [stringWithin]
      conv => rhs; rw [stringWithin]
      dsimp only
      split
      · rfl
      · rename_i letter _ taken
        have slash := left_take? taken
        split
        · rfl
        · rename_i meant found
          obtain ⟨ch, next, _⟩ := Option.bind_eq_some_iff.mp found
          have escape := left_advance next
          rw [ih _ (by omega)]
      · rfl

theorem proceduresWithin_succ (limit : Nat) (c : Cursor text) (enough : c.left < limit) :
    c.proceduresWithin (limit + 1) = c.proceduresWithin limit := by
  induction limit generalizing c with
  | zero => exact absurd enough (Nat.not_lt_zero _)
  | succ limit ih =>
      have trivia := left_skipTrivia_le c
      conv => lhs; rw [proceduresWithin]
      conv => rhs; rw [proceduresWithin]
      dsimp only
      split
      · rfl
      · refine Reading.bind_congr fun result read => ?_
        have onward := (declaration_reads _ read).left_lt rfl
        rw [ih result.2 (by omega)]

/-- No reader that counts down from a bound meets the bound that it is given here. -/
structure IsUnbound (c : Cursor text) : Prop where
  names : ∀ bound, c.left ≤ bound → c.namesWithin bound = c.names
  targets : ∀ bound, c.left ≤ bound → c.targetsWithin bound = c.targetsWithin c.left
  commaNames : ∀ bound, c.left ≤ bound → c.commaNamesWithin bound = c.commaNames
  string : ∀ ch bound, c.peek? = some ch → c.left ≤ bound →
    c.advance.stringWithin bound = c.advance.stringWithin c.left
  declaration : ∀ bound, c.bound ≤ bound → c.declaration bound = c.declaration c.bound
  procedures : ∀ limit, c.left < limit → c.proceduresWithin limit = c.proceduresWithin (c.left + 1)

theorem isUnbound (c : Cursor text) : c.IsUnbound where
  names _ := eq_of_le (f := fun bound => c.namesWithin bound) fun bound enough =>
    namesWithin_succ bound c enough
  targets _ := eq_of_le (f := fun bound => c.targetsWithin bound) fun bound enough =>
    targetsWithin_succ bound c enough
  commaNames _ := eq_of_le (f := fun bound => c.commaNamesWithin bound) fun bound enough =>
    commaNamesWithin_succ bound c enough
  string _ _ next := eq_of_le (f := fun bound => c.advance.stringWithin bound) fun bound enough =>
    stringWithin_succ bound _ (Nat.lt_of_lt_of_le (left_advance next) enough)
  declaration _ := declaration_of_le
  procedures _ := eq_of_le (f := fun limit => c.proceduresWithin limit) fun limit enough =>
    proceduresWithin_succ limit c enough

/-- The questions that the readers ask of one character after the other. -/
def scans : List (Char → Bool) :=
  [Text.isBlank, Text.isAsciiSpace, isNameChar, Char.isDigit, Char.isAlpha, isWithinLine,
    isWithinHeader, isPlain]

/-- The piece that is read by asking `passes` is found by going over the bytes of the text, and has
both its ends between characters. -/
structure Slices (passes : Char → Bool) (c : Cursor text) : Prop where
  begins : Text.dropBytes? c.offset text = some c.rest
  ends : Text.dropBytes? (c.skipWhile passes).offset text = some (c.skipWhile passes).rest
  scanned : Text.scan (passes ∘ Char.ofUInt8) (Text.bytes text) c.offset =
    (c.skipWhile passes).offset
  slice : ((Text.bytes text).drop c.offset).take ((c.skipWhile passes).offset - c.offset) =
    Text.bytes (c.taken passes)

theorem dropBytes?_offset (c : Cursor text) : Text.dropBytes? c.offset text = some c.rest := by
  obtain ⟨before, whole, length⟩ := c.stands
  have dropped := Text.dropBytes?_byteLength before c.rest
  rwa [whole, length] at dropped

theorem slices {passes : Char → Bool} (ascii : Text.IsOfAscii passes) (c : Cursor text) :
    c.Slices passes := by
  obtain ⟨before, whole, length⟩ := c.stands
  refine ⟨dropBytes?_offset c, dropBytes?_offset _, ?_, ?_⟩
  · have scanned := ascii.scan_bytes before c.rest
    rwa [whole, length] at scanned
  · have pieces : before ++ (c.taken passes ++ c.rest.dropWhile passes) = text := by
      rw [taken, List.takeWhile_append_dropWhile, whole]
    have slice := Text.slice_bytes before (c.taken passes) (c.rest.dropWhile passes)
    rw [pieces, length] at slice
    rwa [skipWhile_offset, Nat.add_sub_cancel_left]

theorem isOfAscii_scans : ∀ passes ∈ scans, Text.IsOfAscii passes := by
  have is {ch : Char} (ascii : ch.toNat < 128) := Text.IsOfAscii.beq ascii
  have isNot {ch : Char} (ascii : ch.toNat < 128) := Text.IsOfAscii.bne ascii
  have blank : Text.IsOfAscii Text.isBlank :=
    ((is (by decide)).or (is (by decide))).or (is (by decide))
  have space : Text.IsOfAscii Text.isAsciiSpace :=
    (blank.or (is (by decide))).or (is (by decide))
  have name : Text.IsOfAscii isNameChar :=
    (Text.IsOfAscii.isAlpha.or Text.IsOfAscii.isDigit).or (is (by decide))
  have line : Text.IsOfAscii isWithinLine := isNot (by decide)
  have header : Text.IsOfAscii isWithinHeader := (isNot (by decide)).and (isNot (by decide))
  have plain : Text.IsOfAscii isPlain :=
    ((isNot (by decide)).and (isNot (by decide))).and (isNot (by decide))
  simp only [scans, List.forall_mem_cons]
  exact ⟨blank, space, name, .isDigit, .isAlpha, line, header, plain,
    List.forall_mem_nil _⟩

end Cursor

theorem ItemSet.mem_ofList {items : List Item} {item : Item} :
    item ∈ (ItemSet.ofList items).toList ↔ item ∈ items := by
  have inserted : ∀ set : ItemSet, item ∈ (items.foldl insert set).toList ↔
      item ∈ set.toList ∨ item ∈ items := by
    induction items with
    | nil => simp
    | cons first items ih =>
        intro set
        rw [List.foldl_cons, ih]
        simp only [insert, Item.mem_insertInto, List.mem_cons]
        rw [or_assoc, or_left_comm]
  exact (inserted empty).trans (by simp [empty])

/-- The error stands between two characters of the text, or at its end. It names the character
there, or the end, and something that could have been there. -/
structure ParseError.StandsIn (error : ParseError) (text : List Char) : Prop where
  unexpected : ∃ rest, Text.dropBytes? error.offset text = some rest ∧
    error.unexpected.toList = [match rest with
      | [] => .endOfInput
      | ch :: _ => .tokens (String.singleton ch)]
  atEnd : Item.endOfInput ∈ error.unexpected.toList ↔ error.offset = Text.byteLength text
  expected : error.expected.toList ≠ []

theorem Cursor.rest_eq_nil_iff {text : List Char} {c : Cursor text} :
    c.rest = [] ↔ c.offset = Text.byteLength text := by
  obtain ⟨before, whole, length⟩ := c.stands
  have sum : Text.byteLength text = c.offset + Text.byteLength c.rest := by
    rw [← length, ← Text.byteLength_append, whole]
  rw [sum]
  cases c.rest with
  | nil => simp
  | cons ch rest =>
      have size := ch.utf8Size_pos
      simp only [Text.byteLength_cons, reduceCtorEq, false_iff]
      omega

theorem Cursor.unexpected_standsIn {text : List Char} (c : Cursor text) (item : Item)
    (items : List Item) : (c.unexpected (item :: items)).StandsIn text where
  unexpected := by
    refine ⟨c.rest, dropBytes?_offset c, ?_⟩
    rw [Cursor.unexpected, peek?]
    cases c.rest with
    | nil => rfl
    | cons ch rest => rfl
  atEnd := by
    refine Iff.trans ?_ rest_eq_nil_iff
    rw [Cursor.unexpected, ItemSet.mem_ofList, List.mem_singleton, peek?]
    cases c.rest with
    | nil => simp
    | cons ch rest => simp
  expected := List.ne_nil_of_mem (ItemSet.mem_ofList.mpr List.mem_cons_self)

/-- Every text is read to an end. The readers' bounds are never met, and the pieces that they take
lie between characters of the text, where its bytes are passed one by one. A text that is no
document has one error, at a place between its characters. -/
theorem Document.parse_total (text : String) :
    (∀ c : Cursor text.toList, c.IsUnbound) ∧
    (∀ passes ∈ scans, ∀ c : Cursor text.toList, c.Slices passes) ∧
    ∀ failure, Document.parse text = .error failure →
      ∃ error, failure.errors = [error] ∧ error.StandsIn text.toList := by
  refine ⟨isUnbound, fun passes mem => slices (isOfAscii_scans passes mem), ?_⟩
  intro failure failed
  rw [Document.parse] at failed
  cases read : Document.read text with
  | ok document =>
      rw [read] at failed
      cases failed
  | error error =>
      rw [read] at failed
      cases failed
      obtain ⟨c, item, items, rfl⟩ := Document.read_stops text error read
      exact ⟨_, rfl, c.unexpected_standsIn item items⟩

/-- A string that holds a snowman and is not closed is missed a quote at its end. -/
theorem Document.parse_unclosed :
    (isPlain ∈ scans ∧ ∀ c : Cursor "f \x7b \"é☃".toList, c.Slices isPlain) ∧
    ∃ error, Document.parse "f \x7b \"é☃" = .error ⟨[error]⟩ ∧ error.offset = 10 ∧
      error.StandsIn "f \x7b \"é☃".toList := by
  have scan : isPlain ∈ scans := by simp [scans]
  obtain ⟨_, slices, fails⟩ := Document.parse_total "f \x7b \"é☃"
  refine ⟨⟨scan, slices isPlain scan⟩, _, rfl, rfl, ?_⟩
  obtain ⟨error, same, stands⟩ := fails _ rfl
  cases same
  exact stands

end Runbook
