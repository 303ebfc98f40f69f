import Mathlib.Data.List.DropRight
import Runbook.Proofs.Diagnostic.Positions

/-!
What stands above the carets of a diagnostic.

The carets begin at the column of the offset. The line above them lacks the carriage returns at its
end and those directly before the offset. Without the latter the character at the offset stands
above the first caret; with them it stands as many columns before it as there are of them.
-/
namespace Runbook

variable {before after : List Char} {ch : Char}

namespace Text

theorem splitBytes_place (before after : List Char) :
    splitBytes (byteLength before) (before ++ after) = (before, after) := by
  induction before with
  | nil =>
      cases after with
      | nil => rfl
      | cons ch after =>
          have size := ch.utf8Size_pos
          simp [splitBytes, Nat.not_le.mpr size]
  | cons ch before ih => simp [splitBytes, ih]

end Text

/-! Carriage returns at the end of a line. -/

theorem dropReturns_eq_rdropWhile (cs : List Char) : dropReturns cs = cs.rdropWhile (· == '\r') :=
  rfl

/-- What stands before a character that is no carriage return stays. -/
theorem dropReturns_append_cons (other : ch ≠ '\r') (cs rest : List Char) :
    ∃ kept, dropReturns (ch :: rest) = ch :: kept ∧
      dropReturns (cs ++ ch :: rest) = cs ++ ch :: kept := by
  induction rest using List.reverseRecOn with
  | nil =>
      refine ⟨[], ?_, ?_⟩
      · simp [dropReturns_eq_rdropWhile, List.rdropWhile_singleton, other]
      · rw [dropReturns_eq_rdropWhile, List.rdropWhile_concat_neg _ _ _ (by simpa using other)]
  | append_singleton rest last ih =>
      obtain ⟨kept, alone, behind⟩ := ih
      simp only [← List.cons_append, ← List.append_assoc, dropReturns_eq_rdropWhile] at alone behind ⊢
      by_cases returns : last = '\r'
      · subst returns
        refine ⟨kept, ?_, ?_⟩
        · rw [List.rdropWhile_concat_pos _ _ _ rfl, alone]
        · rw [List.rdropWhile_concat_pos _ _ _ rfl, behind]
      · refine ⟨rest ++ [last], ?_, ?_⟩
        · rw [List.rdropWhile_concat_neg _ _ _ (by simpa using returns)]
          rfl
        · rw [List.rdropWhile_concat_neg _ _ _ (by simpa using returns)]
          simp

theorem lastLine_concat (cs : List Char) (other : ch ≠ '\n') :
    lastLine (cs ++ [ch]) = lastLine cs ++ [ch] :=
  lastLine_append_of_not_mem cs (by simpa using other.symm)

/-- The returns directly before a place are those at the end of its line up to there. -/
theorem rtakeWhile_lastLine (cs : List Char) :
    (lastLine cs).rtakeWhile (· == '\r') = cs.rtakeWhile (· == '\r') := by
  induction cs using List.reverseRecOn with
  | nil => rfl
  | append_singleton cs last ih =>
      by_cases feed : last = '\n'
      · subst feed
        simp [lastLine]
      · rw [lastLine_concat cs feed, List.rtakeWhile_concat, List.rtakeWhile_concat, ih]

theorem getLast?_ne_return (cs : List Char) :
    cs.getLast? ≠ some '\r' ↔ cs.rtakeWhile (· == '\r') = [] := by
  cases cs using List.reverseRecOn with
  | nil => simp
  | append_singleton cs last => simp [List.rtakeWhile_concat]

/-! The line that is shown. -/

/-- A character up to the column is not cut off. -/
theorem getElem?_cutLine {column : Nat} (fits : before.length < column) (ch : Char)
    (rest : List Char) :
    (cutLine column (before ++ ch :: rest))[before.length]? = some ch := by
  have here : (before ++ ch :: rest)[before.length]? = some ch := by simp
  unfold cutLine
  split
  · next long =>
      have inside : before.length < maximumWidth := Nat.lt_of_lt_of_le fits long.2
      rw [List.getElem?_append_left (by simp [inside]), List.getElem?_take, if_pos inside, here]
  · exact here

/-- Returns that are left out before a character change the line that is shown. -/
theorem cutLine_dropReturns {column : Nat} (fits : before.length < column) (other : ch ≠ '\r')
    (rest : List Char) :
    cutLine column (before ++ ch :: rest) = cutLine column (dropReturns before ++ ch :: rest) ↔
      before.rtakeWhile (· == '\r') = [] := by
  have parts : dropReturns before ++ before.rtakeWhile (· == '\r') = before := by
    rw [dropReturns_eq_rdropWhile, List.rdropWhile_append_rtakeWhile]
  constructor
  · intro same
    cases returns : before.rtakeWhile (· == '\r') with
    | nil => rfl
    | cons first more =>
        have isReturn : first = '\r' := by
          have inside : first ∈ before.rtakeWhile (· == '\r') := by simp [returns]
          simpa using List.mem_rtakeWhile_imp inside
        have shorter : (dropReturns before).length < column := by
          rw [← parts, List.length_append] at fits
          omega
        -- one line has the first of the returns where the other has the character
        have kept := getElem?_cutLine shorter first (more ++ ch :: rest)
        have left := getElem?_cutLine shorter ch rest
        rw [returns] at parts
        rw [← same, ← parts, List.append_assoc, List.cons_append, parts, kept] at left
        exact absurd (Option.some.inj left) (fun eq => other (eq ▸ isReturn))
  · intro none
    rw [none, List.append_nil] at parts
    rw [parts]

namespace Diagnostic

/-- The diagnostic is shown with that line, and under it with carets from its column on. -/
def Shows (diagnostic : Diagnostic) (line : List Char) : Prop :=
  let position := diagnostic.source.position diagnostic.offset
  diagnostic.render =
    diagnostic.source.filename ++ ":" ++ toString position.line ++ ":" ++ toString position.column
      ++ "\n\n" ++ String.ofList line ++ "\n"
      ++ String.ofList (List.replicate (position.column - 1) ' ' ++
        List.replicate diagnostic.reason.width '^')
      ++ "\n\n" ++ diagnostic.reason.message

variable {diagnostic : Diagnostic} {line other : List Char}

theorem shows_cutLine (diagnostic : Diagnostic) :
    diagnostic.Shows (cutLine (diagnostic.source.position diagnostic.offset).column
      (diagnostic.source.lineAt diagnostic.offset)) := rfl

theorem Shows.unique (one : diagnostic.Shows line) (two : diagnostic.Shows other) :
    line = other := by
  have same := one.symm.trans two
  rw [← String.ofList_inj]
  simpa [String.append_assoc, String.append_right_inj, String.append_left_inj] using same

end Diagnostic

theorem Reason.width_pos (reason : Reason) : 0 < reason.width := by
  unfold Reason.width
  split <;> try split
  all_goals omega

namespace Source

/-- The line of a place, its character in it, and that line as it is shown. -/
theorem lineAt_place {source : Source} (text : source.contents.toList = before ++ ch :: after)
    (stays : ch ≠ '\n') (other : ch ≠ '\r') :
    ∃ line rest,
      (source.contents.toList.splitOn '\n')[before.count '\n']? = some line ∧
      dropReturns line = lastLine before ++ ch :: rest ∧
      source.lineAt (Text.byteLength before) = dropReturns (lastLine before) ++ ch :: rest := by
  have first : firstLine (ch :: after) = ch :: firstLine after := by
    simp [firstLine, stays]
  obtain ⟨kept, alone, behind⟩ :=
    dropReturns_append_cons other (lastLine before) (firstLine after)
  refine ⟨lastLine before ++ ch :: firstLine after, kept, ?_, behind, ?_⟩
  · rw [text, (splitOn_at before (ch :: after)).1, first]
  · rw [lineAt, text, Text.splitBytes_place]
    simp only [first, alone]

theorem position_place {source : Source} (text : source.contents.toList = before ++ after) :
    source.position (Text.byteLength before) =
      ⟨before.count '\n' + 1, (lastLine before).length + 1⟩ := by
  rw [position, text, Text.splitBytes_place]

/-- The carets begin at the column of the offset, under the line of the text that holds it, without
the carriage returns at its end and cut only where it is long and the column is not. There the first
caret stands under the character at the offset, but that line is shown just where no carriage return
stands directly before it. Otherwise those returns are left out of the line, and the character
stands before the caret by as many columns. -/
theorem caret_under {source : Source} (text : source.contents.toList = before ++ ch :: after)
    (stays : ch ≠ '\n') (other : ch ≠ '\r') (reason : Reason) :
    let diagnostic : Diagnostic := ⟨source, Text.byteLength before, reason⟩
    let position := source.position diagnostic.offset
    ∃ line told shown given,
      (source.contents.toList.splitOn '\n')[position.line - 1]? = some line ∧
      told = line.rdropWhile (· == '\r') ∧
      shown = (if 77 < told.length ∧ position.column ≤ 77 then told.take 77 ++ ['…'] else told) ∧
      shown[position.column - 1]? = some ch ∧ 0 < reason.width ∧
      (diagnostic.Shows shown ↔ before.getLast? ≠ some '\r') ∧
      diagnostic.Shows given ∧
      given[position.column - 1 - (before.rtakeWhile (· == '\r')).length]? = some ch := by
  intro diagnostic position
  obtain ⟨line, rest, held, told, given⟩ := lineAt_place text stays other
  have place : position = _ := position_place text
  have column : position.column = (lastLine before).length + 1 := by rw [place]
  have fits : (lastLine before).length < position.column := by omega
  have shows : diagnostic.Shows
      (cutLine position.column (dropReturns (lastLine before) ++ ch :: rest)) :=
    given ▸ diagnostic.shows_cutLine
  have returns := rtakeWhile_lastLine before
  refine ⟨line, _, _, _, by rw [place]; exact held, rfl, rfl, ?_, reason.width_pos, ?_, shows, ?_⟩
  · rw [← dropReturns_eq_rdropWhile, told, column]
    exact getElem?_cutLine (Nat.lt_succ_self _) ch rest
  · rw [← dropReturns_eq_rdropWhile, told, getLast?_ne_return, ← returns,
      ← cutLine_dropReturns fits other rest]
    constructor
    · intro shown
      exact shown.unique shows
    · intro same
      rw [← same] at shows
      exact shows
  · have parts := congrArg List.length
      (List.rdropWhile_append_rtakeWhile (p := (· == '\r')) (l := lastLine before))
    rw [List.length_append, ← dropReturns_eq_rdropWhile, returns] at parts
    have index : position.column - 1 - (before.rtakeWhile (· == '\r')).length =
        (dropReturns (lastLine before)).length := by omega
    rw [index]
    exact getElem?_cutLine (by omega) ch rest

/-- A hole with two carriage returns before it and one behind it. -/
def steeping : Source := ⟨"cup \x7b\n  té = \r\r?\r\n\x7d", "tea.tq"⟩

theorem caret_under_steeping :
    let diagnostic : Diagnostic := ⟨steeping, 16, .hole⟩
    steeping.contents.toList = "cup \x7b\n  té = \r\r".toList ++ '?' :: "\r\n\x7d".toList ∧
      '?' ≠ '\n' ∧ '?' ≠ '\r' ∧ steeping.position 16 = ⟨2, 10⟩ ∧
      ¬ diagnostic.Shows "  té = \r\r?".toList ∧
      ∃ given, diagnostic.Shows given ∧ given[7]? = some '?' := by
  have text : steeping.contents.toList =
      "cup \x7b\n  té = \r\r".toList ++ '?' :: "\r\n\x7d".toList := by decide +kernel
  obtain ⟨line, told, shown, given, held, rfl, rfl, -, -, claimed, shows, character⟩ :=
    caret_under text (by decide) (by decide) .hole
  have position : steeping.position 16 = ⟨2, 10⟩ := by decide +kernel
  have same : line = "  té = \r\r?\r".toList := by
    have found : (steeping.contents.toList.splitOn '\n')[1]? = some "  té = \r\r?\r".toList := by
      decide +kernel
    exact Option.some.inj (held.symm.trans found)
  subst same
  refine ⟨text, by decide, by decide, position, ?_, given, shows, character⟩
  exact fun whole => claimed.mp whole (by decide +kernel)

end Source

end Runbook
