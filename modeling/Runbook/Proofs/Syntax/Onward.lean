import Runbook.Proofs.Syntax.Reads

/-!
Readers go onward in their text.

No reader comes back to a place before the one where it began, and every construct takes at least
one character, but for the operators after an operand and the statements of a block, of which there
may be none.
-/
namespace Runbook

namespace Cursor

variable {text : List Char} {c after : Cursor text}

/-- How many characters are left. -/
def left (c : Cursor text) : Nat := c.rest.length

theorem left_skipWhile_le (p : Char → Bool) (c : Cursor text) : (c.skipWhile p).left ≤ c.left :=
  (List.dropWhile_suffix p).length_le

theorem left_skipBlanks_le (c : Cursor text) : c.skipBlanks.left ≤ c.left :=
  left_skipWhile_le _ c

theorem left_skipSpace_le (c : Cursor text) : c.skipSpace.left ≤ c.left :=
  left_skipWhile_le _ c

theorem left_advance_le (c : Cursor text) : c.advance.left ≤ c.left := by
  rw [left, advance_rest, List.length_drop]
  exact Nat.sub_le _ _

theorem left_skipLineFeed_le (c : Cursor text) : c.skipLineFeed.left ≤ c.left := by
  rw [skipLineFeed]
  split
  · exact left_advance_le c
  · exact Nat.le_refl _

/-- Where a character is next, passing it leaves one less. -/
theorem left_advance {ch : Char} (next : c.peek? = some ch) : c.advance.left < c.left := by
  obtain ⟨rest, same⟩ := peek?_eq_some.mp next
  rw [left, left, advance_rest, same]
  exact Nat.lt_succ_self _

theorem left_skipTrivia_le (c : Cursor text) : c.skipTrivia.left ≤ c.left := by
  change (c.rest.drop _).length ≤ _
  rw [List.length_drop]
  exact Nat.sub_le _ _

theorem left_opened {ch : Char} (next : c.skipBlanks.peek? = some ch) :
    c.skipBlanks.advance.left < c.left :=
  Nat.lt_of_lt_of_le (left_advance next) (left_skipBlanks_le c)

theorem left_take? {ch : Char} (taken : c.take? ch = some after) : after.left < c.left := by
  obtain ⟨next, rfl⟩ := take?_eq_some.mp taken
  exact left_advance next

theorem left_expect {ch : Char} (met : c.expect ch = .ok after) : after.left < c.left := by
  obtain ⟨next, rfl⟩ := expect_eq_ok.mp met
  exact left_advance next

theorem isNameChar_of_isNameStart {ch : Char} (begins : isNameStart ch = true) :
    isNameChar ch = true := by
  rw [isNameStart, Bool.or_eq_true] at begins
  rw [isNameChar, Char.isAlphanum, Bool.or_eq_true, Bool.or_eq_true]
  exact begins.imp_left .inl

theorem not_isDigit_of_isNameStart {ch : Char} (begins : isNameStart ch = true) :
    ¬ch.isDigit = true := by
  have upper : ch.isUpper = decide (ch.val ≥ 'A'.val ∧ ch.val ≤ 'Z'.val) := rfl
  have lower : ch.isLower = (ch.val ≥ 'a'.val && ch.val ≤ 'z'.val) := rfl
  have alpha : ch.isAlpha = (ch.isUpper || ch.isLower) := rfl
  intro digit
  simp only [isNameStart, alpha, upper, lower, Char.isDigit, Bool.or_eq_true, Bool.and_eq_true,
    decide_eq_true_eq, beq_iff_eq, UInt32.le_iff_toNat_le, ge_iff_le] at begins digit
  rcases begins with (upper | lower) | rfl
  · have apart := Nat.le_trans upper.1 digit.2
    revert apart
    decide
  · have apart := Nat.le_trans lower.1 digit.2
    revert apart
    decide
  · revert digit
    decide

theorem atName_iff : c.atName = true ↔ ∃ ch rest, c.rest = ch :: rest ∧ isNameStart ch = true := by
  rw [atName, peek?]
  cases c.rest with
  | nil => simp
  | cons ch rest => simp

theorem left_skipWhile_lt {p : Char → Bool} {ch : Char} (next : c.peek? = some ch)
    (passes : p ch = true) : (c.skipWhile p).left < c.left := by
  obtain ⟨rest, same⟩ := peek?_eq_some.mp next
  rw [left, left, skipWhile_rest, same, List.dropWhile_cons_of_pos passes]
  exact Nat.lt_succ_of_le (List.dropWhile_suffix p).length_le

theorem left_name_le (c : Cursor text) : c.name.2.left ≤ c.left := left_skipWhile_le _ c

theorem left_name (there : c.atName = true) : c.name.2.left < c.left := by
  obtain ⟨ch, rest, same, begins⟩ := atName_iff.mp there
  exact left_skipWhile_lt (peek?_eq_some.mpr ⟨rest, same⟩) (isNameChar_of_isNameStart begins)

theorem left_identifier_le {what : String} {name : Identifier}
    (named : c.identifier what = .ok (name, after)) : after.left ≤ c.left := by
  obtain ⟨_, same⟩ := identifier_eq_ok.mp named
  cases same
  exact left_name_le c

theorem left_namesWithin_le (bound : Nat) (c : Cursor text) :
    (c.namesWithin bound).2.left ≤ c.left := by
  induction bound generalizing c with
  | zero => exact left_skipBlanks_le c
  | succ bound ih =>
      have blanks := left_skipBlanks_le c
      rw [namesWithin]
      split
      · have others := ih c.skipBlanks.name.2
        have name := left_name_le c.skipBlanks
        dsimp only
        omega
      · exact blanks

theorem left_names_le (c : Cursor text) : c.names.2.left ≤ c.left := left_namesWithin_le _ c

theorem left_targetsWithin_le (bound : Nat) (c : Cursor text) :
    (c.targetsWithin bound).2.left ≤ c.left := by
  induction bound generalizing c with
  | zero => exact left_skipBlanks_le c
  | succ bound ih =>
      have blanks := left_skipBlanks_le c
      have name := left_name_le c.skipBlanks
      have more := left_skipBlanks_le c.skipBlanks.name.2
      rw [targetsWithin]
      split
      · dsimp only
        split
        · rename_i next taken
          have comma := left_take? taken
          have others := ih next
          dsimp only
          omega
        · dsimp only
          omega
      · exact blanks

theorem left_targets? {targets : List Identifier} (found : c.targets? = some (targets, after)) :
    after.left < c.left := by
  have within := left_targetsWithin_le c.rest.length c
  rw [targets?] at found
  split at found
  · cases found
  · rename_i names last _ same
    rw [same] at within
    obtain ⟨begun, equal, same⟩ := Option.map_eq_some_iff.mp found
    cases same
    have equal := left_take? equal
    exact Nat.lt_of_lt_of_le equal within

theorem left_commaNamesWithin_le (bound : Nat) (c : Cursor text) :
    (c.commaNamesWithin bound).2.left ≤ c.left := by
  induction bound generalizing c with
  | zero => exact Nat.le_refl _
  | succ bound ih =>
      rw [commaNamesWithin]
      split
      · exact Nat.le_refl _
      · rename_i next taken
        have comma := left_take? taken
        have blanks := left_skipBlanks_le next
        have name := left_name_le next.skipBlanks
        have more := left_skipBlanks_le next.skipBlanks.name.2
        have others := ih next.skipBlanks.name.2.skipBlanks
        dsimp only
        split
        · dsimp only
          omega
        · exact Nat.le_refl _

theorem left_commaNames_le (c : Cursor text) : c.commaNames.2.left ≤ c.left :=
  left_commaNamesWithin_le _ c

theorem left_signature_le (c : Cursor text) : c.signature.2.left ≤ c.left := by
  rw [signature]
  split
  · exact Nat.le_refl _
  · rename_i next taken
    have colon := left_take? taken
    exact Nat.le_trans (left_skipWhile_le _ next) (Nat.le_of_lt colon)

theorem left_amount {ch : Char} {value : Expression} (next : c.peek? = some ch)
    (digit : ch.isDigit = true) (read : c.amount = .ok (value, after)) : after.left < c.left := by
  have digits := left_skipWhile_lt next digit
  have letters := left_skipWhile_le Char.isAlpha (c.skipWhile Char.isDigit)
  rw [amount] at read
  split at read
  · dsimp only at read
    split at read
    · cases read
      exact digits
    · cases read
      exact Nat.lt_of_le_of_lt letters digits
  · cases read

theorem left_stringWithin_le {bound : Nat} {meant : List Char}
    (read : c.stringWithin bound = .ok (meant, after)) : after.left ≤ c.left := by
  induction bound generalizing c meant with
  | zero => cases read
  | succ bound ih =>
      have piece := left_skipWhile_le isPlain c
      rw [stringWithin] at read
      dsimp only at read
      split at read
      · cases read
        have quote := left_take? ‹_›
        omega
      · rename_i letter _ taken
        have slash := left_take? taken
        have escape := left_advance_le letter
        split at read
        · cases read
        · rw [Reading.bind_eq_ok] at read
          obtain ⟨⟨others, last⟩, read, same⟩ := read
          cases same
          have others := ih read
          omega
      · cases read

theorem left_string {ch : Char} {meant : String} (next : c.peek? = some ch)
    (read : c.string = .ok (meant, after)) : after.left < c.left := by
  rw [string, Reading.bind_eq_ok] at read
  obtain ⟨⟨others, last⟩, read, same⟩ := read
  cases same
  exact Nat.lt_of_le_of_lt (left_stringWithin_le read) (left_advance next)

/-- The value of a field begins after its label and the equality sign. -/
theorem left_labelled {ch : Char} {label : String} {labelled begun : Cursor text}
    (next : c.skipSpace.peek? = some ch) (quoted : c.skipSpace.string = .ok (label, labelled))
    (equal : labelled.skipSpace.expect '=' = .ok begun) :
    begun.skipSpace.left + 1 < c.left := by
  have spaces := left_skipSpace_le c
  have string := left_string next quoted
  have more := left_skipSpace_le labelled
  have sign := left_expect equal
  have again := left_skipSpace_le begun
  omega

/-- The block of a procedure begins after its name, its parameters and its signature. -/
theorem left_heading (there : c.atName = true) :
    c.name.2.names.2.signature.2.skipSpace.left < c.left := by
  have name := left_name there
  have names := left_names_le c.name.2
  have signature := left_signature_le c.name.2.names.2
  have spaces := left_skipSpace_le c.name.2.names.2.signature.2
  omega

theorem left_comment_le (c : Cursor text) : c.comment.2.left ≤ c.left := by
  have line := left_skipWhile_le isWithinLine c.advance.advance
  have first := left_advance_le c
  have second := left_advance_le c.advance
  have feed := left_skipLineFeed_le (c.advance.advance.skipWhile isWithinLine)
  change ((c.advance.advance.skipWhile isWithinLine).skipLineFeed).left ≤ _
  omega

theorem peek?_of_atComment (begins : c.atComment = true) : c.peek? = some '-' := by
  rw [atComment, List.isPrefixOf_iff_prefix] at begins
  obtain ⟨rest, same⟩ := begins
  exact peek?_eq_some.mpr ⟨'-' :: rest, same.symm⟩

theorem left_comment (begins : c.atComment = true) : c.comment.2.left < c.left := by
  have line := left_skipWhile_le isWithinLine c.advance.advance
  have first := left_advance (peek?_of_atComment begins)
  have second := left_advance_le c.advance
  have feed := left_skipLineFeed_le (c.advance.advance.skipWhile isWithinLine)
  change ((c.advance.advance.skipWhile isWithinLine).skipLineFeed).left < _
  omega

theorem left_statementEnd_le {endings : List Statement}
    (read : c.statementEnd = .ok (endings, after)) : after.left ≤ c.left := by
  have blanks := left_skipBlanks_le c
  have next := left_advance_le c.skipBlanks
  rw [statementEnd] at read
  split at read
  · cases read
    exact Nat.le_trans (left_comment_le c.skipBlanks) blanks
  · split at read
    · cases read
      exact Nat.le_trans next blanks
    · cases read
      have more := left_skipBlanks_le c.skipBlanks.advance
      have feed := left_skipLineFeed_le c.skipBlanks.advance.skipBlanks
      omega
    · cases read
      exact blanks
    · cases read

end Cursor

open Cursor

/-- The fewest characters that the phrase takes. -/
def Phrase.least : Phrase → Nat
  | .operations _ _ _ | .block _ => 0
  | _ => 1

theorem Reads.left_le {text : List Char} {c after : Cursor text} {phrase : Phrase}
    (reads : Reads c phrase after) : after.left + phrase.least ≤ c.left := by
  induction reads with
  | expression _ _ first rest =>
      simp only [Phrase.least] at first rest ⊢
      omega
  | last _ => exact left_skipBlanks_le _
  | @operator c _ _ _ _ _ _ _ found _ _ first rest =>
      have blanks := left_skipBlanks_le c
      have next := left_advance_le c.skipBlanks
      simp only [Phrase.least] at first rest ⊢
      omega
  | @unit c _ next taken =>
      have opened := left_opened next
      have inside := left_skipBlanks_le c.skipBlanks.advance
      have closed := left_take? taken
      simp only [Phrase.least]
      omega
  | @grouping c _ middle _ next _ _ closed ih =>
      have opened := left_opened next
      have inside := left_skipBlanks_le c.skipBlanks.advance
      have more := left_skipBlanks_le middle
      have closed := left_expect closed
      simp only [Phrase.least] at ih ⊢
      omega
  | @string c _ _ next read =>
      have blanks := left_skipBlanks_le c
      have quoted := left_string next read
      simp only [Phrase.least]
      omega
  | @tablet c _ _ next _ ih =>
      have opened := left_opened next
      simp only [Phrase.least] at ih ⊢
      omega
  | @hole c next =>
      have mark := left_opened next
      simp only [Phrase.least]
      omega
  | @inherited c _ _ _ next taken _ ih =>
      have opened := left_opened next
      have star := left_take? taken
      simp only [Phrase.least] at ih ⊢
      omega
  | @role c _ _ _ _ next _ named _ ih | @place c _ _ _ _ next named _ ih =>
      have opened := left_opened next
      have name := left_identifier_le named
      simp only [Phrase.least] at ih ⊢
      omega
  | @amount c _ _ _ next digit read =>
      have blanks := left_skipBlanks_le c
      have number := left_amount next digit read
      simp only [Phrase.least]
      omega
  | @name c _ _ _ _ ih =>
      have blanks := left_skipBlanks_le c
      simp only [Phrase.least] at ih ⊢
      omega
  | undefined there _ => exact left_name there
  | @application c _ _ _ _ _ _ ih =>
      have name := left_name_le c
      have blanks := left_skipBlanks_le c.name.2
      simp only [Phrase.least] at ih ⊢
      omega
  | @reference c there _ _ =>
      have name := left_name there
      have blanks := left_skipBlanks_le c.name.2
      have others := left_commaNames_le c.name.2.skipBlanks
      simp only [Phrase.least]
      omega
  | @noField c _ taken =>
      have spaces := left_skipSpace_le c
      have closed := left_take? taken
      simp only [Phrase.least]
      omega
  | @field c _ named begun _ middle _ _ _ _ next quoted equal _ comma _ first rest =>
      have label := left_labelled next quoted equal
      have last := left_skipSpace_le middle
      have comma := left_take? comma
      simp only [Phrase.least] at first rest ⊢
      omega
  | @lastField c _ named begun _ middle _ _ next quoted equal _ _ closed ih =>
      have label := left_labelled next quoted equal
      have last := left_skipSpace_le middle
      have closed := left_take? closed
      simp only [Phrase.least] at ih ⊢
      omega
  | @restriction c _ _ _ _ _ ih =>
      have spaces := left_skipSpace_le c
      simp only [Phrase.least] at ih ⊢
      omega
  | @bracedBlock c inside _ middle _ opened _ closed ih =>
      have opened := left_expect opened
      have blanks := left_skipBlanks_le inside
      have feed := left_skipLineFeed_le inside.skipBlanks
      have closed := left_expect closed
      simp only [Phrase.least] at ih ⊢
      omega
  | noStatement _ => exact left_skipBlanks_le _
  | @blank c _ _ next _ ih =>
      have feed := left_opened next
      simp only [Phrase.least] at ih ⊢
      omega
  | @comment c _ _ begins _ ih =>
      have blanks := left_skipBlanks_le c
      have comment := left_comment begins
      simp only [Phrase.least] at ih ⊢
      omega
  | @nextStatement c _ _ _ _ _ _ _ _ _ _ _ _ ended _ first rest =>
      have blanks := left_skipBlanks_le c
      have ended := left_statementEnd_le ended
      simp only [Phrase.least] at first rest ⊢
      omega
  | @assignment c _ middle _ _ found _ ih =>
      have targets := left_targets? found
      have blanks := left_skipBlanks_le middle
      simp only [Phrase.least] at ih ⊢
      omega
  | procedure _ _ _ ih => exact ih
  | execute _ _ _ ih => exact ih
  | @declaration c _ _ there _ ih =>
      have heading := left_heading there
      simp only [Phrase.least] at ih ⊢
      omega

/-- A phrase that is never empty goes on. -/
theorem Reads.left_lt {text : List Char} {c after : Cursor text} {phrase : Phrase}
    (reads : Reads c phrase after) (least : phrase.least = 1) : after.left < c.left := by
  have onward := reads.left_le
  rwa [least] at onward

end Runbook
