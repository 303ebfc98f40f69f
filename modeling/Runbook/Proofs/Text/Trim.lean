import Runbook.Text.Blank

/-!
Texts without white space around them.
-/
namespace Runbook.Text

/-- Has the text no white space at its ends? -/
def IsTrimmed (cs : List Char) : Prop := trim cs = cs

theorem dropWhile_eq_self {p : Char → Bool} {cs : List Char}
    (first : ∀ ch, cs.head? = some ch → p ch = false) : cs.dropWhile p = cs := by
  cases cs with
  | nil => rfl
  | cons ch cs => rw [List.dropWhile_cons_of_neg (by rw [first ch rfl]; exact Bool.false_ne_true)]

theorem head?_dropWhile {p : Char → Bool} {cs : List Char} {ch : Char}
    (first : (cs.dropWhile p).head? = some ch) : p ch = false := by
  have stops := List.head?_dropWhile_not p cs
  rwa [first] at stops

theorem dropWhile_dropWhile (p : Char → Bool) (cs : List Char) :
    (cs.dropWhile p).dropWhile p = cs.dropWhile p :=
  dropWhile_eq_self fun _ => head?_dropWhile

theorem dropWhileEnd_begins (p : Char → Bool) (cs : List Char) : dropWhileEnd p cs <+: cs := by
  have suffix := List.reverse_prefix.mpr (List.dropWhile_suffix p (l := cs.reverse))
  rwa [List.reverse_reverse] at suffix

theorem dropWhileEnd_concat {p : Char → Bool} {ch : Char} (cs : List Char) (passes : p ch = true) :
    dropWhileEnd p (cs ++ [ch]) = dropWhileEnd p cs := by
  rw [dropWhileEnd, List.reverse_append, List.reverse_singleton, List.singleton_append,
    List.dropWhile_cons_of_pos passes, dropWhileEnd]

theorem dropWhileEnd_dropWhileEnd (p : Char → Bool) (cs : List Char) :
    dropWhileEnd p (dropWhileEnd p cs) = dropWhileEnd p cs := by
  rw [dropWhileEnd, dropWhileEnd, List.reverse_reverse, dropWhile_dropWhile]

theorem trim_sublist (cs : List Char) : (trim cs).Sublist cs :=
  (dropWhileEnd_begins isWhite _).sublist.trans (List.dropWhile_suffix isWhite).sublist

theorem trim_length_le (cs : List Char) : (trim cs).length ≤ (cs.dropWhile isWhite).length :=
  (dropWhileEnd_begins isWhite _).length_le

/-- What is trimmed does not begin with white space. -/
theorem IsTrimmed.dropWhile {cs : List Char} (trimmed : IsTrimmed cs) :
    cs.dropWhile isWhite = cs := by
  refine (List.dropWhile_suffix isWhite).eq_of_length_le ?_
  have short := trim_length_le cs
  rwa [trimmed] at short

theorem IsTrimmed.dropWhileEnd {cs : List Char} (trimmed : IsTrimmed cs) :
    dropWhileEnd isWhite cs = cs := by
  have same : trim cs = cs := trimmed
  rwa [trim, trimmed.dropWhile] at same

theorem isTrimmed_trim (cs : List Char) : IsTrimmed (trim cs) := by
  have begins : (trim cs).dropWhile isWhite = trim cs := by
    refine dropWhile_eq_self fun ch first => ?_
    obtain ⟨rest, same⟩ := dropWhileEnd_begins isWhite (cs.dropWhile isWhite)
    refine @head?_dropWhile isWhite cs ch ?_
    rw [← same, ← trim, List.head?_append, first]
    rfl
  rw [IsTrimmed, trim, begins]
  exact dropWhileEnd_dropWhileEnd isWhite _

/-- White space around a text is trimmed off, if there is one character of it before and after. -/
theorem IsTrimmed.trim_between {cs : List Char} {first last : Char} (trimmed : IsTrimmed cs)
    (some : cs ≠ []) (before : isWhite first = true) (after : isWhite last = true) :
    trim (first :: (cs ++ [last])) = cs := by
  rw [trim, List.dropWhile_cons_of_pos before, List.dropWhile_append, trimmed.dropWhile,
    if_neg (by simpa using some), dropWhileEnd_concat cs after, trimmed.dropWhileEnd]

theorem IsTrimmed.trim_after {cs : List Char} {first : Char} (trimmed : IsTrimmed cs)
    (before : isWhite first = true) : trim (first :: cs) = cs := by
  rw [trim, List.dropWhile_cons_of_pos before, trimmed.dropWhile, trimmed.dropWhileEnd]

end Runbook.Text
