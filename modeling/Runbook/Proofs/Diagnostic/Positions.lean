import Mathlib.Order.Bounds.Basic
import Runbook.Diagnostic.Render

/-!
Positions lead back to the places that they are of.

A place of a text lies between two of its characters or at an end. An offset stands for the last
place that is not beyond it. The line feeds before a place and the characters between the last of
them and the place are its position; they are counted again along the lines of the text, so no two
places share a position, and the order of positions is that of the places.
-/
namespace Runbook

namespace Text

variable {text before after : List Char} {offset : Nat}

/-- The offset lies between two characters of the text, or at one of its ends. -/
def IsPlace (text : List Char) (offset : Nat) : Prop :=
  ∃ before after, before ++ after = text ∧ byteLength before = offset

/-- The last place up to the offset. -/
def placeAt (offset : Nat) (text : List Char) : Nat := byteLength (splitBytes offset text).1

theorem splitBytes_append (offset : Nat) (text : List Char) :
    (splitBytes offset text).1 ++ (splitBytes offset text).2 = text := by
  induction text generalizing offset with
  | nil => rfl
  | cons ch text ih =>
      rw [splitBytes]
      split
      · exact congrArg (ch :: ·) (ih (offset - ch.utf8Size))
      · rfl

theorem placeAt_le (offset : Nat) (text : List Char) : placeAt offset text ≤ offset := by
  induction text generalizing offset with
  | nil => exact Nat.zero_le offset
  | cons ch text ih =>
      rw [placeAt, splitBytes]
      split
      · rename_i fits
        have rest := ih (offset - ch.utf8Size)
        calc byteLength (ch :: (splitBytes (offset - ch.utf8Size) text).1)
            ≤ ch.utf8Size + (offset - ch.utf8Size) := Nat.add_le_add_left rest _
          _ = offset := Nat.add_sub_cancel' fits
      · exact Nat.zero_le offset

/-- No place up to the offset lies behind it. -/
theorem le_placeAt (fits : byteLength before ≤ offset) (after : List Char) :
    byteLength before ≤ placeAt offset (before ++ after) := by
  induction before generalizing offset with
  | nil => exact Nat.zero_le _
  | cons ch before ih =>
      rw [byteLength_cons] at fits
      rw [List.cons_append, placeAt, splitBytes, if_pos (Nat.le_of_add_right_le fits)]
      exact Nat.add_le_add_left (ih (Nat.le_sub_of_add_le' fits)) _

theorem placeAt_isGreatest (offset : Nat) (text : List Char) :
    IsGreatest {place | IsPlace text place ∧ place ≤ offset ∧ place ≤ byteLength text}
      (placeAt offset text) := by
  have whole := splitBytes_append offset text
  constructor
  · refine ⟨⟨_, _, whole, rfl⟩, placeAt_le offset text, ?_⟩
    have length := congrArg byteLength whole
    rw [byteLength_append] at length
    exact Nat.le.intro length
  · rintro place ⟨⟨before, after, rfl, rfl⟩, fits, _⟩
    exact le_placeAt fits after

end Text

/-! The last line of a text, and its lines in order. -/

theorem lastLine_append_of_not_mem (first : List Char) {rest : List Char} (flat : '\n' ∉ rest) :
    lastLine (first ++ rest) = lastLine first ++ rest := by
  have passes : ∀ ch ∈ rest.reverse, (ch != '\n') = true := by
    intro ch mem
    rw [bne_iff_ne]
    rintro rfl
    exact flat (List.mem_reverse.mp mem)
  rw [lastLine, List.reverse_append, List.takeWhile_append_of_pos passes, List.reverse_append,
    List.reverse_reverse, lastLine]

theorem lastLine_append_of_mem (first : List Char) {rest : List Char} (breaks : '\n' ∈ rest) :
    lastLine (first ++ rest) = lastLine rest := by
  have stops : (rest.reverse.takeWhile (· != '\n')).length ≠ rest.reverse.length := by
    intro whole
    have same := (List.takeWhile_prefix (· != '\n')).eq_of_length whole
    have passes := List.all_eq_true.mp List.all_takeWhile _ (same ▸ List.mem_reverse.mpr breaks)
    exact absurd passes Bool.false_ne_true
  rw [lastLine, List.reverse_append, List.takeWhile_append, if_neg stops, lastLine]

theorem lastLine_of_not_mem {cs : List Char} (flat : '\n' ∉ cs) : lastLine cs = cs :=
  lastLine_append_of_not_mem [] flat

theorem lastLine_newline_cons (cs : List Char) : lastLine ('\n' :: cs) = lastLine cs := by
  by_cases breaks : '\n' ∈ cs
  · exact lastLine_append_of_mem ['\n'] breaks
  · rw [lastLine_of_not_mem breaks]
    exact lastLine_append_of_not_mem ['\n'] breaks

theorem splitOn_feed (cs : List Char) : ('\n' :: cs).splitOn '\n' = [] :: cs.splitOn '\n' := by
  rw [List.splitOn_cons_eq_if_modifyHead, if_pos (beq_self_eq_true _)]

theorem splitOn_other {ch : Char} (other : ch ≠ '\n') (cs : List Char) :
    (ch :: cs).splitOn '\n' = (cs.splitOn '\n').modifyHead (ch :: ·) := by
  rw [List.splitOn_cons_eq_if_modifyHead, if_neg (mt eq_of_beq other)]

theorem splitOn_firstLine (cs : List Char) : (cs.splitOn '\n')[0]? = some (firstLine cs) := by
  induction cs with
  | nil => rfl
  | cons ch cs ih =>
      rw [firstLine, List.takeWhile_cons]
      by_cases feed : ch = '\n'
      · subst feed
        rw [splitOn_feed]
        rfl
      · rw [splitOn_other feed, if_pos (bne_iff_ne.mpr feed), List.getElem?_modifyHead]
        exact congrArg (Option.map (ch :: ·)) ih

/-- A place is on the line that as many line feeds stand before, behind the end of what stands
before it; and the lines before that one hold all else before it. -/
theorem splitOn_at (before after : List Char) :
    ((before ++ after).splitOn '\n')[before.count '\n']? =
        some (lastLine before ++ firstLine after) ∧
      (((before ++ after).splitOn '\n').take (before.count '\n')).flatMap (· ++ ['\n']) ++
        lastLine before = before := by
  induction before with
  | nil => exact ⟨splitOn_firstLine after, rfl⟩
  | cons ch before ih =>
      obtain ⟨line, earlier⟩ := ih
      rw [List.cons_append]
      by_cases feed : ch = '\n'
      · subst feed
        rw [splitOn_feed, List.count_cons_self, lastLine_newline_cons]
        exact ⟨line, congrArg ('\n' :: ·) earlier⟩
      · rw [splitOn_other feed, List.count_cons_of_ne feed]
        by_cases breaks : '\n' ∈ before
        · obtain ⟨count, same⟩ := Nat.exists_eq_succ_of_ne_zero (List.count_pos_iff.mpr breaks).ne'
          have last : lastLine (ch :: before) = lastLine before :=
            lastLine_append_of_mem [ch] breaks
          rw [same] at line earlier ⊢
          rw [last]
          cases lines : (before ++ after).splitOn '\n' with
          | nil => exact absurd lines (List.splitOn_ne_nil _ _)
          | cons head rest =>
              rw [lines] at line earlier
              exact ⟨line, congrArg (ch :: ·) earlier⟩
        · have flat : '\n' ∉ ch :: before :=
            List.not_mem_cons_of_ne_of_not_mem (Ne.symm feed) breaks
          rw [List.count_eq_zero.mpr breaks] at line ⊢
          rw [lastLine_of_not_mem breaks] at line
          rw [lastLine_of_not_mem flat, List.getElem?_modifyHead]
          exact ⟨congrArg (Option.map (ch :: ·)) line, rfl⟩

namespace Position

/-- The place that a position leads to, along the lines of the text. -/
def place? (position : Position) (text : List Char) : Option Nat :=
  let lines := text.splitOn '\n'
  (lines[position.line - 1]?).bind fun line =>
    if position.column - 1 ≤ line.length then
      some (Text.byteLength ((lines.take (position.line - 1)).flatMap (· ++ ['\n'])) +
        Text.byteLength (line.take (position.column - 1)))
    else none

/-- It is on an earlier line, or before the other one on the same. -/
def Precedes (position other : Position) : Prop :=
  position.line < other.line ∨ position.line = other.line ∧ position.column < other.column

/-- The position behind a beginning of a text. -/
def behind (before : List Char) : Position :=
  ⟨before.count '\n' + 1, (lastLine before).length + 1⟩

variable {position other : Position}

theorem Precedes.ne (precedes : position.Precedes other) : position ≠ other := by
  rintro rfl
  rcases precedes with less | ⟨_, less⟩ <;> exact Nat.lt_irrefl _ less

theorem Precedes.asymm (precedes : position.Precedes other) : ¬other.Precedes position := by
  rintro (more | ⟨same, more⟩) <;> rcases precedes with less | ⟨same', less⟩ <;> omega

theorem place?_behind (before after : List Char) :
    (behind before).place? (before ++ after) = some (Text.byteLength before) := by
  obtain ⟨line, earlier⟩ := splitOn_at before after
  have fits : (lastLine before).length ≤ (lastLine before ++ firstLine after).length :=
    (List.prefix_append _ _).length_le
  have counted := congrArg Text.byteLength earlier
  rw [Text.byteLength_append] at counted
  simp only [place?, behind, Nat.add_sub_cancel]
  rw [line, Option.bind_some, if_pos fits, List.take_left, counted]

theorem behind_precedes (before : List Char) {rest : List Char} (more : rest ≠ []) :
    (behind before).Precedes (behind (before ++ rest)) := by
  rw [Precedes, behind, behind]
  dsimp only
  rw [List.count_append]
  by_cases breaks : '\n' ∈ rest
  · have := List.count_pos_iff.mpr breaks
    omega
  · rw [List.count_eq_zero.mpr breaks, lastLine_append_of_not_mem before breaks, List.length_append]
    have := List.length_pos_iff.mpr more
    omega

end Position

theorem Text.byteLength_lt_append (before : List Char) {rest : List Char} (more : rest ≠ []) :
    byteLength before < byteLength (before ++ rest) := by
  obtain ⟨ch, rest, rfl⟩ := List.exists_cons_of_ne_nil more
  rw [byteLength_append, byteLength_cons]
  have := ch.utf8Size_pos
  omega

namespace Source

/-- Of two places either one comes first, and so does its position, or they are the same. -/
theorem position_cases (source : Source) (offset other : Nat) :
    let text := source.contents.toList
    (Text.placeAt offset text < Text.placeAt other text ∧
      (source.position offset).Precedes (source.position other)) ∨
    (Text.placeAt offset text = Text.placeAt other text ∧
      source.position offset = source.position other) ∨
    (Text.placeAt other text < Text.placeAt offset text ∧
      (source.position other).Precedes (source.position offset)) := by
  intro text
  have here := Text.splitBytes_append offset text
  have there := Text.splitBytes_append other text
  have ordered : ∀ {one two : Nat}, (Text.splitBytes one text).1 <+: (Text.splitBytes two text).1 →
      (Text.placeAt one text < Text.placeAt two text ∧
        (source.position one).Precedes (source.position two)) ∨
      (Text.placeAt one text = Text.placeAt two text ∧
        source.position one = source.position two) := by
    rintro one two ⟨rest, whole⟩
    have ends : source.position two = .behind ((Text.splitBytes one text).1 ++ rest) := by
      rw [whole]
      rfl
    rw [ends, Text.placeAt, Text.placeAt, ← whole]
    by_cases more : rest = []
    · rw [more, List.append_nil]
      exact .inr ⟨rfl, rfl⟩
    · exact .inl ⟨Text.byteLength_lt_append _ more, Position.behind_precedes _ more⟩
  rcases List.prefix_or_prefix_of_prefix ⟨_, here⟩ ⟨_, there⟩ with first | second
  · rcases ordered first with less | same
    · exact .inl less
    · exact .inr (.inl same)
  · rcases ordered second with less | ⟨same, same'⟩
    · exact .inr (.inr less)
    · exact .inr (.inl ⟨same.symm, same'.symm⟩)

theorem render_begins (source : Source) (offset : Nat) (reason : Reason) :
    ∃ rest, Diagnostic.render ⟨source, offset, reason⟩ =
      source.filename ++ ":" ++ toString (source.position offset).line ++ ":"
        ++ toString (source.position offset).column ++ "\n\n" ++ rest := by
  simp only [Diagnostic.render, String.append_assoc, String.append_right_inj, exists_eq']

/-- A diagnostic is shown with the position of the last place up to its offset and the end of the
text. Lines and columns count from 1, and along the lines of the text the position leads back to
exactly that place. So places with the same position are the same, and of two places the one that
comes first has the position that precedes the other's. -/
theorem position_leads_back (source : Source) (offset : Nat) :
    let text := source.contents.toList
    let place := Text.placeAt offset text
    let position := source.position offset
    (∀ reason, ∃ rest, Diagnostic.render ⟨source, offset, reason⟩ =
      source.filename ++ ":" ++ toString position.line ++ ":" ++ toString position.column
        ++ "\n\n" ++ rest) ∧
    IsGreatest {place | Text.IsPlace text place ∧ place ≤ offset ∧ place ≤ Text.byteLength text}
      place ∧
    1 ≤ position.line ∧ 1 ≤ position.column ∧ position.place? text = some place ∧
    ∀ other,
      (source.position other = position ↔ Text.placeAt other text = place) ∧
      (position.Precedes (source.position other) ↔ place < Text.placeAt other text) := by
  intro text place position
  refine ⟨source.render_begins offset, Text.placeAt_isGreatest offset text,
    Nat.le_add_left 1 _, Nat.le_add_left 1 _, ?_, fun other => ?_⟩
  · have leads := Position.place?_behind (Text.splitBytes offset text).1
      (Text.splitBytes offset text).2
    rw [Text.splitBytes_append] at leads
    exact leads
  · rcases source.position_cases offset other with ⟨less, before⟩ | ⟨same, same'⟩ | ⟨more, after⟩
    · exact ⟨iff_of_false before.ne.symm less.ne', iff_of_true before less⟩
    · refine ⟨iff_of_true same'.symm same.symm, iff_of_false ?_ same.not_lt⟩
      exact fun before => before.ne same'
    · exact ⟨iff_of_false after.ne more.ne, iff_of_false after.asymm more.not_gt⟩

/-- An offset inside a character stands for the place before it, one past the end for the end. -/
example : (⟨"a\n√b", ""⟩ : Source).position 4 = ⟨2, 1⟩ ∧
    (⟨"a\n√b", ""⟩ : Source).position 9 = ⟨2, 3⟩ := by decide +kernel

end Source

end Runbook
