import Runbook.Proofs.Syntax.Twins

/-!
What is read is read again where another text goes on differently.

A statement is told from its names alone, by a look ahead that may go beyond what it is read as. But
the end of a statement is no part of a list of names, so what is read as an expression up to such an
end is looked at as one wherever it stands. All else depends on what is read and on what ends it.
-/
namespace Runbook

open Cursor

theorem not_isNameChar_of_isBlank {ch : Char} (blank : Text.isBlank ch = true) :
    isNameChar ch = false := not_isNameChar_of_isAsciiSpace (isAsciiSpace_of_isBlank blank)

/-- The characters that end a statement, the first of a comment among them. -/
def statementEnds : List Char := ['\n', ';', '\x7d', '-']

/-- The characters that end an operand of a statement. -/
def operandEnds : List Char := statementEnds ++ ['|', '&', '+']

theorem mem_signs {ch : Char} {operator : Operator} (sign : operator? ch = some operator) :
    ch ∈ ['|', '&', '+'] := by
  rw [operator?] at sign
  split at sign
  · subst ch
    decide
  · split at sign
    · subst ch
      decide
    · split at sign
      · subst ch
        decide
      · cases sign

namespace Cursor

variable {text : List Char} {c after : Cursor text} {marks : List Char}

theorem halts_of_peek? {p : Char → Bool} {ch : Char} (next : c.peek? = some ch)
    (other : p ch = false) : Halts p c.rest := by
  obtain ⟨rest, here⟩ := peek?_eq_some.mp next
  exact halts_of_rest here other

theorem halts_of_skipBlanks {p : Char → Bool} (halts : Halts p c.skipBlanks.rest)
    (blank : ∀ ch, Text.isBlank ch = true → p ch = false) : Halts p c.rest := by
  rw [skipBlanks_rest] at halts
  intro ch next
  cases passes : Text.isBlank ch with
  | true => exact blank ch passes
  | false =>
      have stays : Halts Text.isBlank c.rest := fun other same => by
        rw [next] at same
        cases same
        exact passes
      rw [Text.dropWhile_eq_self stays] at halts
      exact halts ch next

theorem endsTerm_of_skipBlanks (ends : EndsTerm c.skipBlanks.rest) : EndsTerm c.rest where
  name := halts_of_skipBlanks ends.name fun _ => not_isNameChar_of_isBlank
  term := by
    have term := ends.term
    rwa [skipBlanks_rest, Text.dropWhile_dropWhile] at term
  list := by
    have list := ends.list
    rwa [skipBlanks_rest, Text.dropWhile_dropWhile] at list

/-- Behind the blanks one of the characters is next. -/
def Meets (marks : List Char) (c : Cursor text) : Prop :=
  ∃ ch ∈ marks, c.skipBlanks.peek? = some ch

namespace Meets

theorem halts {p : Char → Bool} (meets : c.Meets marks) (other : marks.any p = false) :
    Halts p c.skipBlanks.rest := by
  obtain ⟨ch, mem, next⟩ := meets
  obtain ⟨rest, here⟩ := peek?_eq_some.mp next
  exact halts_of_rest here (Bool.eq_false_iff.mpr (List.any_eq_false.mp other ch mem))

theorem mono {others : List Char} (meets : c.Meets marks) (more : marks ⊆ others) :
    c.Meets others := by
  obtain ⟨ch, mem, next⟩ := meets
  exact ⟨ch, more mem, next⟩

theorem of_rest {ch : Char} {rest : List Char} (here : c.rest = ch :: rest)
    (other : Text.isBlank ch = false) (mem : ch ∈ marks) : c.Meets marks := by
  refine ⟨ch, mem, ?_⟩
  rw [skipBlanks_of_rest here other, peek?_of_rest here]

theorem skipBlanks (meets : c.skipBlanks.Meets marks) : c.Meets marks := by
  rwa [Meets, skipBlanks_skipBlanks] at meets

/-- A term may end where none of the characters is more of it. -/
theorem endsTerm (meets : c.Meets marks)
    (other : marks.any (fun ch => isNameChar ch || startsTerm ch || ch == ',') = false) :
    EndsTerm c.rest := by
  obtain ⟨ch, mem, next⟩ := meets
  obtain ⟨rest, here⟩ := peek?_eq_some.mp next
  have ends := Bool.eq_false_iff.mpr (List.any_eq_false.mp other ch mem)
  rw [Bool.or_eq_false_iff, Bool.or_eq_false_iff, beq_eq_false_iff_ne] at ends
  have again : c.skipBlanks.rest.dropWhile Text.isBlank = ch :: rest := by
    rw [← skipBlanks_rest, skipBlanks_skipBlanks, here]
  exact endsTerm_of_skipBlanks (.of_mark (halts_of_rest here ends.1.1) again ends.1.2 ends.2)

theorem operator (meets : c.Meets marks)
    (other : marks.any (fun ch => (operator? ch).isSome) = false) :
    c.skipBlanks.peek?.bind operator? = none := by
  obtain ⟨ch, mem, next⟩ := meets
  have none := List.any_eq_false.mp other ch mem
  rw [next]
  exact Option.not_isSome_iff_eq_none.mp none

end Meets

/-! What is no assignment and no procedure, by the names that stand there. -/

theorem names_skipBlanks (c : Cursor text) : c.skipBlanks.names = c.names := by
  have blanks := left_skipBlanks_le c
  rw [← (isUnbound c.skipBlanks).names (c.left + 1) (by omega),
    ← (isUnbound c).names (c.left + 1) (by omega), namesWithin, namesWithin, skipBlanks_skipBlanks]

theorem targetsWithin_skipBlanks (bound : Nat) (c : Cursor text) :
    c.skipBlanks.targetsWithin bound = c.targetsWithin bound := by
  cases bound with
  | zero => rw [targetsWithin, targetsWithin, skipBlanks_skipBlanks]
  | succ bound => rw [targetsWithin, targetsWithin, skipBlanks_skipBlanks]

theorem targets?_skipBlanks (c : Cursor text) : c.skipBlanks.targets? = c.targets? := by
  have blanks := left_skipBlanks_le c
  rw [targets?, targets?, ← left, ← left, ← (isUnbound c.skipBlanks).targets c.left blanks,
    targetsWithin_skipBlanks]

theorem startsTerm_of_atName (there : c.atName = true) : c.peek?.any startsTerm = true := by
  obtain ⟨ch, rest, here, begins⟩ := atName_iff.mp there
  rw [peek?_of_rest here]
  exact startsTerm_of_isNameStart begins

theorem halts_of_not_atName (nameless : c.atName = false) : Halts isNameStart c.rest := by
  intro ch next
  rwa [atName, peek?, next] at nameless

theorem skipBlanks_of_atName (there : c.atName = true) : c.skipBlanks = c := by
  obtain ⟨ch, rest, here, begins⟩ := atName_iff.mp there
  exact skipBlanks_of_rest here (not_isBlank_of_startsTerm (startsTerm_of_isNameStart begins))

/-- Names that no equality sign follows are no targets. -/
theorem targets?_of_end {bound : Nat} (enough : c.left ≤ bound)
    (halts : Halts (· == '=') (c.targetsWithin bound).2.rest) : c.targets? = none := by
  rw [(isUnbound c).targets bound enough] at halts
  rw [targets?, ← left]
  split
  · rfl
  · rename_i same
    rw [same] at halts
    rw [take?_of_halts halts]
    rfl

theorem names_of_atName (there : c.atName = true) :
    c.names = (c.name.1 :: c.name.2.names.1, c.name.2.names.2) := by
  have name := left_name there
  rw [← (isUnbound c).names (c.left + 1) (by omega), namesWithin, skipBlanks_of_atName there]
  dsimp only
  rw [if_pos there, (isUnbound c.name.2).names c.left (by omega)]

theorem targetsWithin_of_atName (bound : Nat) (there : c.atName = true)
    (none : c.name.2.skipBlanks.take? ',' = none) :
    c.targetsWithin (bound + 1) = ([c.name.1], c.name.2.skipBlanks) := by
  rw [targetsWithin, skipBlanks_of_atName there]
  dsimp only
  rw [if_pos there, none]

/-- Does the character go on with a list of names as with targets, or end the list? -/
def lists (ch : Char) : Bool := ch == ',' || ch == '='

theorem not_lists_of_startsTerm {ch : Char} (begins : startsTerm ch = true) : lists ch = false := by
  rw [lists, beq_false_of_ne (ne_of_startsTerm begins rfl),
    beq_false_of_ne (ne_of_startsTerm begins rfl)]
  rfl

/-- One name is no target where neither a comma nor an equality sign follows. -/
theorem targets?_of_name (there : c.atName = true)
    (other : Halts lists c.name.2.skipBlanks.rest) : c.targets? = none := by
  have only := targetsWithin_of_atName c.left there
    (take?_of_halts (other.mono fun ch comma => by rw [lists, comma, Bool.true_or]))
  refine targets?_of_end (Nat.le_succ _) ?_
  rw [only]
  exact other.mono fun ch equal => by rw [lists, equal, Bool.or_true]

theorem skipBlanks_names (c : Cursor text) : c.names.2.skipBlanks = c.names.2 := by
  rw [names]
  induction c.rest.length generalizing c with
  | zero => exact skipBlanks_skipBlanks c
  | succ bound ih =>
      rw [namesWithin]
      dsimp only
      split
      · exact ih _
      · exact skipBlanks_skipBlanks c

/-- Names are no targets where neither a comma nor an equality sign stands behind the last. -/
theorem targets?_of_names_halt (there : c.atName = true) (other : Halts lists c.names.2.rest) :
    c.targets? = none := by
  refine targets?_of_name there ?_
  cases more : c.name.2.skipBlanks.atName with
  | true =>
      obtain ⟨ch, rest, here, begins⟩ := atName_iff.mp more
      exact halts_of_rest here (not_lists_of_startsTerm (startsTerm_of_isNameStart begins))
  | false =>
      have nameless := halts_of_not_atName more
      rw [← skipBlanks_skipBlanks] at nameless
      rwa [names_of_atName there, ← names_skipBlanks, names_of_halts nameless,
        skipBlanks_skipBlanks] at other

/-- A procedure is no assignment. -/
theorem targets?_of_atDeclaration (declares : c.atDeclaration = true) : c.targets? = none := by
  rw [atDeclaration, Bool.and_eq_true] at declares
  obtain ⟨there, head⟩ := declares
  refine targets?_of_names_halt there fun ch next => ?_
  rw [peek?, next, Bool.or_eq_true, beq_iff_eq, beq_iff_eq] at head
  rcases head with same | same
  · cases same
    rfl
  · cases same
    rfl

theorem not_heads_of_startsTerm {ch : Char} (begins : startsTerm ch = true) : heads ch = false := by
  rw [heads, beq_false_of_ne (ne_of_startsTerm begins rfl),
    beq_false_of_ne (ne_of_startsTerm begins rfl)]
  rfl

/-- An expression may begin here: the names are no targets and do not head a procedure. -/
structure Plain (c : Cursor text) : Prop where
  targets : c.targets? = none
  heads : Halts heads c.names.2.rest

theorem Plain.of_halts (halts : Halts isNameStart c.skipBlanks.rest)
    (other : Halts Runbook.Cursor.heads c.skipBlanks.rest) : c.Plain where
  targets := targets?_of_halts halts
  heads := by rwa [names_of_halts halts]

theorem Plain.skipBlanks (plain : c.skipBlanks.Plain) : c.Plain where
  targets := by
    have targets := plain.targets
    rwa [targets?_skipBlanks] at targets
  heads := by
    have heads := plain.heads
    rwa [names_skipBlanks] at heads

/-- Targets go on as long as the names of a list, if an operand ends behind these. -/
theorem targetsWithin_of_commaNames (bound : Nat) (there : c.atName = true)
    (meets : (c.name.2.skipBlanks.commaNamesWithin bound).2.Meets operandEnds) :
    Halts (· == '=') (c.targetsWithin (bound + 1)).2.rest := by
  have ended {c : Cursor text} (bound : Nat) (there : c.atName = true)
      (meets : c.name.2.skipBlanks.Meets operandEnds) :
      Halts (· == '=') (c.targetsWithin (bound + 1)).2.rest := by
    have comma := meets.halts (p := (· == ',')) (by decide)
    have equal := meets.halts (p := (· == '=')) (by decide)
    rw [skipBlanks_skipBlanks] at comma equal
    rwa [targetsWithin_of_atName bound there (take?_of_halts comma)]
  induction bound generalizing c with
  | zero => exact ended 0 there meets
  | succ bound ih =>
      rw [commaNamesWithin] at meets
      dsimp only at meets
      split at meets
      · exact ended _ there meets
      · rename_i next taken
        split at meets
        · rename_i more
          have others := ih more meets
          rw [targetsWithin_skipBlanks] at others
          rw [targetsWithin, skipBlanks_of_atName there]
          dsimp only
          rwa [if_pos there, taken]
        · exact ended _ there meets

end Cursor

open Cursor

theorem Reads.meets_operations {text : List Char} {c after : Cursor text} {offset : Nat}
    {left value : Expression} (reads : Reads c (.operations offset left value) after)
    (meets : after.Meets operandEnds) : c.Meets operandEnds := by
  cases reads with
  | last _ => exact meets.skipBlanks
  | operator found _ _ =>
      obtain ⟨ch, next, sign⟩ := Option.bind_eq_some_iff.mp found
      exact ⟨ch, List.mem_append_right _ (mem_signs sign), next⟩

theorem Cursor.commaNames_of_none {text : List Char} {c : Cursor text}
    (none : c.take? ',' = none) : c.commaNames = ([], c) := by
  rw [← (isUnbound c).commaNames (c.left + 1) (Nat.le_succ _), commaNamesWithin, none]

/-- The names of a list do not head a procedure, if an operand ends behind them. -/
theorem Cursor.heads_of_commaNames {text : List Char} {c : Cursor text}
    (meets : c.commaNames.2.Meets operandEnds) : Halts heads c.skipBlanks.rest := by
  cases taken : c.take? ',' with
  | none =>
      rw [commaNames_of_none taken] at meets
      exact meets.halts (by decide)
  | some next =>
      obtain ⟨comma, _⟩ := take?_eq_some.mp taken
      obtain ⟨rest, here⟩ := peek?_eq_some.mp comma
      rw [skipBlanks_of_rest here (by decide)]
      exact halts_of_rest here (by decide)

/-- What begins a term is no assignment and no procedure. -/
def Phrase.IsPlain {text : List Char} (c : Cursor text) : Phrase → Prop
  | .term _ | .named _ => c.Plain
  | _ => True

/-- What is read as a term up to where an operand may end is no assignment and no procedure. -/
theorem Reads.isPlain {text : List Char} {c after : Cursor text} {phrase : Phrase}
    (reads : Reads c phrase after) (meets : after.Meets operandEnds) : phrase.IsPlain c := by
  induction reads with
  | unit next _ | grouping next _ _ _ _ | string next _ | tablet next _ _ | hole next
  | inherited next _ _ _ | role next _ _ _ _ | place next _ _ _ =>
      exact .of_halts (halts_of_peek? next (by decide)) (halts_of_peek? next (by decide))
  | amount next digit _ =>
      refine .of_halts (halts_of_peek? next ?_) (halts_of_peek? next ?_)
      · exact Bool.eq_false_iff.mpr fun begins => not_isDigit_of_isNameStart begins digit
      · exact not_heads_of_startsTerm (startsTerm_of_isDigit digit)
  | name _ _ ih => exact (ih meets).skipBlanks
  | undefined there _ =>
      refine ⟨targets?_of_name there (meets.halts (by decide)), ?_⟩
      rw [names_of_atName there, names_of_halts (meets.halts (by decide))]
      exact meets.halts (by decide)
  | application there _ begins _ ih =>
      refine ⟨targets?_of_name there fun ch next => not_lists_of_startsTerm ?_, ?_⟩
      · rwa [peek?, next] at begins
      · rw [names_of_atName there, ← names_skipBlanks]
        exact (ih meets).heads
  | @reference c there _ other =>
      refine ⟨targets?_of_end (Nat.le_succ _) (targetsWithin_of_commaNames c.left there ?_), ?_⟩
      · have name := left_name_le c
        have blanks := left_skipBlanks_le c.name.2
        rwa [(isUnbound _).commaNames c.left (by omega)]
      · have nameless : Halts isNameStart c.name.2.skipBlanks.rest := fun ch next => by
          rw [peek?, next] at other
          exact Bool.eq_false_iff.mpr fun begins =>
            Bool.eq_false_iff.mp other (startsTerm_of_isNameStart begins)
        have heads := heads_of_commaNames meets
        rw [skipBlanks_skipBlanks] at heads
        rwa [names_of_atName there, names_of_halts nameless]
  | _ => trivial

/-- What is read as an expression up to the end of a statement is looked at as one. -/
theorem Reads.looks {text : List Char} {c after : Cursor text} {value : Expression}
    (reads : Reads c (.expression value) after) (meets : after.Meets statementEnds) :
    c.targets? = none ∧ c.atDeclaration = false := by
  cases reads with
  | expression first rest =>
      have plain : c.Plain := first.isPlain
        (rest.meets_operations (meets.mono (List.subset_append_left _ _)))
      exact ⟨plain.targets, atDeclaration_of_halts plain.heads⟩

/-! What a phrase begins with. -/

/-- What a term begins with, behind the blanks. -/
def Phrase.Begins {text : List Char} (c : Cursor text) : Phrase → Prop
  | .term _ | .expression _ | .statement _ => c.skipBlanks.peek?.any startsTerm = true
  | .named _ | .declaration _ => c.atName = true
  | .fields _ => c.skipSpace.peek?.any (fun ch => ch == ']' || ch == '"') = true
  | _ => True

theorem Reads.begins {text : List Char} {c after : Cursor text} {phrase : Phrase}
    (reads : Reads c phrase after) : phrase.Begins c := by
  induction reads with
  | expression _ _ first _ => exact first
  | unit next _ | grouping next _ _ _ _ | string next _ | tablet next _ _ | hole next
  | inherited next _ _ _ | role next _ _ _ _ | place next _ _ _ =>
      rw [Phrase.Begins, next]
      rfl
  | amount next digit _ =>
      rw [Phrase.Begins, next]
      exact startsTerm_of_isDigit digit
  | name there _ _ => exact startsTerm_of_atName there
  | undefined there _ | application there _ _ _ _ | reference there _ _ => exact there
  | noField taken =>
      rw [Phrase.Begins, (take?_eq_some.mp taken).1]
      rfl
  | field _ next _ _ _ _ _ _ _ | lastField _ next _ _ _ _ _ _ =>
      rw [Phrase.Begins, next]
      rfl
  | assignment found _ _ =>
      refine startsTerm_of_atName (Bool.of_not_eq_false fun nameless => ?_)
      rw [targets?_of_halts (halts_of_not_atName nameless)] at found
      cases found
  | procedure _ _ _ there =>
      rw [Phrase.Begins, skipBlanks_of_atName there]
      exact startsTerm_of_atName there
  | execute _ _ _ ih => exact ih
  | declaration there _ _ => exact there
  | _ => trivial

/-! What may stand behind a phrase. -/

/-- The phrase may end here. -/
def Phrase.Ends {text : List Char} (c : Cursor text) : Phrase → Prop
  | .expression _ | .operations _ _ _ =>
    EndsTerm c.rest ∧ c.skipBlanks.peek?.bind operator? = none
  | .term _ | .named _ => EndsTerm c.rest
  | .block _ => c.peek? = some '\x7d'
  | .statement _ => c.Meets statementEnds
  | _ => True

section
variable {text other : List Char} {shift : Nat} {old new : List Char} {c after : Cursor text}
  {d e : Cursor other} {phrase : Phrase}

/-- A term may end where operators are read up to where one may end. -/
theorem Reads.endsTerm {offset : Nat} {left value : Expression}
    (reads : Reads c (.operations offset left value) after) (ends : EndsTerm after.rest) :
    EndsTerm c.rest := by
  cases reads with
  | last _ => exact endsTerm_of_skipBlanks ends
  | operator found _ _ =>
      obtain ⟨ch, next, sign⟩ := Option.bind_eq_some_iff.mp found
      have meets : c.Meets ['|', '&', '+'] := ⟨ch, mem_signs sign, next⟩
      exact meets.endsTerm (by decide)

/-- A block ends before its closing brace. -/
theorem Reads.closes {block : Block} (reads : Reads c (.block block) after) :
    after.peek? = some '\x7d' := by
  generalize same : Phrase.block block = phrase at reads
  induction reads generalizing block with
  | noStatement next => exact next
  | blank _ _ ih | comment _ _ ih | nextStatement _ _ _ _ _ _ _ _ ih => exact ih rfl
  | _ => cases same

theorem Reads.block_more {block : Block} (reads : Reads c (.block block) after) : c.rest ≠ [] := by
  obtain ⟨rest, here⟩ := peek?_eq_some.mp reads.closes
  have onward := reads.left_le
  simp only [Phrase.least, left, here, List.length_cons] at onward
  exact List.ne_nil_of_length_pos (by omega)

theorem Reads.left_names {procedure : Procedure}
    (reads : Reads c (.declaration procedure) after) : after.left < c.names.2.left := by
  cases reads with
  | declaration there reads =>
      have onward := reads.left_lt rfl
      have spaces := left_skipSpace_le c.name.2.names.2.signature.2
      have remark := left_signature_le c.name.2.names.2
      rw [names_of_atName there]
      dsimp only
      omega

theorem meets_statementEnds {endings : List Statement}
    (ended : c.statementEnd = .ok (endings, after)) : c.Meets statementEnds := by
  rw [statementEnd] at ended
  split at ended
  · exact ⟨'-', by decide, peek?_of_atComment ‹_›⟩
  · split at ended
    · exact ⟨'\n', by decide, ‹_›⟩
    · exact ⟨';', by decide, ‹_›⟩
    · exact ⟨'\x7d', by decide, ‹_›⟩
    · cases ended

/-- A statement is no comment. -/
theorem Reads.uncommented {statement : Statement}
    (reads : Reads c.skipBlanks (.statement statement) after) : c.skipBlanks.atComment = false := by
  refine Bool.eq_false_iff.mpr fun comments => ?_
  have begins := reads.begins
  rw [Phrase.Begins, skipBlanks_skipBlanks, peek?_of_atComment comments] at begins
  exact absurd begins (by decide)

/-- A statement that ends is the first of a block. -/
theorem Reads.block_of_statement {statement : Statement} {middle next : Cursor text}
    {endings : List Statement} {others : Block}
    (reads : Reads c.skipBlanks (.statement statement) middle)
    (ended : middle.statementEnd = .ok (endings, next)) (rest : Reads next (.block others) after) :
    Reads c (.block (statement :: endings ++ others)) after := by
  have begins := reads.begins
  rw [Phrase.Begins, skipBlanks_skipBlanks] at begins
  obtain ⟨ch, first, term⟩ := Option.any_eq_true _ _ |>.mp begins
  refine .nextStatement first ?_ ?_ reads.uncommented reads ended rest
  · exact ne_of_startsTerm term (by decide)
  · exact ne_of_startsTerm term (by decide)

theorem Cursor.skipSpace_skipBlanks (c : Cursor text) : c.skipBlanks.skipSpace = c.skipSpace := by
  refine ext ?_
  rw [skipSpace_rest, skipBlanks_rest, skipSpace_rest]
  induction c.rest with
  | nil => rfl
  | cons ch rest ih =>
      cases blank : Text.isBlank ch with
      | true =>
          rw [List.dropWhile_cons_of_pos blank, ih,
            List.dropWhile_cons_of_pos (isAsciiSpace_of_isBlank blank)]
      | false => rw [List.dropWhile_cons_of_neg (Bool.eq_false_iff.mp blank)]

/-- Behind the blanks either white space goes on or what stands behind all of it is next. -/
theorem Cursor.meets_or_skipSpace (c : Cursor text) :
    c.Meets ['\n', '\x0c'] ∨ c.skipBlanks = c.skipSpace := by
  cases next : c.skipBlanks.peek?.any Text.isAsciiSpace with
  | false =>
      refine .inr ?_
      rw [← skipSpace_skipBlanks]
      refine (skipWhile_of_halts fun ch first => ?_).symm
      rwa [peek?, first] at next
  | true =>
      obtain ⟨ch, first, space⟩ := Option.any_eq_true _ _ |>.mp next
      have shown : Text.isBlank ch = false := Text.head?_dropWhile first
      rw [Text.isAsciiSpace, shown, Bool.false_or, Bool.or_eq_true, beq_iff_eq, beq_iff_eq] at space
      exact .inl ⟨ch, by rcases space with rfl | rfl <;> decide, first⟩

/-- A value of a tablet ends where a comma or the bracket stands behind white space, if the comma
does not go on with a list of names. -/
theorem ends_of_skipSpace {ch : Char} (next : c.skipSpace.peek? = some ch)
    (mark : ch = ']' ∨ ch = ',' ∧ Halts isNameStart c.skipSpace.advance.skipBlanks.rest) :
    EndsTerm c.rest ∧ c.skipBlanks.peek?.bind operator? = none := by
  rcases meets_or_skipSpace c with meets | same
  · exact ⟨meets.endsTerm (by decide), meets.operator (by decide)⟩
  · rw [← same] at next mark
    rcases mark with rfl | ⟨rfl, nameless⟩
    · have meets : c.Meets [']'] := ⟨_, List.mem_singleton_self _, next⟩
      exact ⟨meets.endsTerm (by decide), meets.operator (by decide)⟩
    · obtain ⟨rest, here⟩ := peek?_eq_some.mp next
      have again : c.skipBlanks.rest.dropWhile Text.isBlank = ',' :: rest := by
        rw [← skipBlanks_rest, skipBlanks_skipBlanks, here]
      refine ⟨endsTerm_of_skipBlanks ⟨halts_of_rest here (by decide), ?_, ?_⟩, by rw [next]; rfl⟩
      · exact again ▸ .cons (by decide)
      · intro others comma
        rw [again] at comma
        cases comma
        rwa [skipBlanks_rest, advance_of_rest here] at nameless

/-- No name begins the fields of a tablet. -/
theorem Reads.nameless {fields : List (Label × Expression)}
    (reads : Reads c (.fields fields) after) : Halts isNameStart c.skipBlanks.rest := by
  rcases meets_or_skipSpace c with meets | same
  · exact meets.halts (by decide)
  · have begins := reads.begins
    rw [Phrase.Begins, ← same] at begins
    intro ch next
    rw [peek?, next] at begins
    have begins : (ch == ']' || ch == '"') = true := begins
    rw [Bool.or_eq_true, beq_iff_eq, beq_iff_eq] at begins
    rcases begins with rfl | rfl
    · rfl
    · rfl

theorem unclosed_of_quote (quote : c.skipSpace.peek? = some '"') :
    c.skipSpace.take? ']' = none := by
  rw [take?_eq_none, quote]
  decide

/-- What is read from one text is read from the other at the twin of its place, if it may end
where its end has its twin. -/
theorem Reads.again (reads : Reads c phrase after) (blank : Halts Text.isBlank new)
    (twins : c.Twins shift old new d) (last : after.Twins shift old new e)
    (ends : phrase.Ends e) : Reads d (phrase.moved shift) e := by
  have inside := last.stop_le
  induction reads generalizing d e with
  | @expression c middle _ _ _ first rest ihFirst ihRest =>
      have onward := first.left_lt rfl
      have further := rest.left_le
      obtain ⟨middle', parted⟩ := twins.reach (m := middle) (by omega) (by omega)
      have tail := ihRest parted last ends inside
      rw [Phrase.moved, ← twins.offset] at tail
      exact .expression (ihFirst twins parted (tail.endsTerm ends.1) (by omega)) tail
  | last _ =>
      obtain rfl := last.unique (twins.skipBlanks blank inside)
      refine .last ?_
      rw [← skipBlanks_skipBlanks]
      exact ends.2
  | @operator c _ _ middle _ _ _ _ found first rest ihFirst ihRest =>
      obtain ⟨ch, next, _⟩ := Option.bind_eq_some_iff.mp found
      have sign := left_advance next
      have onward := first.left_lt rfl
      have further := rest.left_le
      have blanks := left_skipBlanks_le c
      have spaced := twins.skipBlanks blank (by omega)
      have begun := spaced.advance (by omega)
      obtain ⟨middle', parted⟩ := twins.reach (m := middle) (by omega) (by omega)
      have tail := ihRest parted last ends inside
      simp only [Phrase.moved, Expression.moved] at tail ⊢
      exact .operator (by rwa [spaced.peek? (by omega)])
        (ihFirst begun parted (tail.endsTerm ends.1) (by omega)) tail
  | @unit c _ next taken =>
      have opened := left_advance next
      have blanks := left_skipBlanks_le c.skipBlanks.advance
      have closed := left_take? taken
      have spaced := twins.skipBlanks blank (by omega)
      have begun := (spaced.advance (by omega)).skipBlanks blank (by omega)
      obtain ⟨_, taken', ended⟩ := begun.take? (by omega) taken
      obtain rfl := last.unique ended
      rw [Phrase.moved, Expression.moved, ← spaced.offset]
      exact .unit ((spaced.peek? (by omega)).trans next) taken'
  | @grouping c _ middle _ next none first closed ih =>
      have opened := left_advance next
      have blanks := left_skipBlanks_le c.skipBlanks.advance
      have onward := first.left_lt rfl
      have more := left_skipBlanks_le middle
      have last' := left_expect closed
      have spaced := twins.skipBlanks blank (by omega)
      have begun := (spaced.advance (by omega)).skipBlanks blank (by omega)
      obtain ⟨middle', parted⟩ := begun.reach (m := middle) (by omega) (by omega)
      obtain ⟨_, closed', ended⟩ := (parted.skipBlanks blank (by omega)).expect (by omega) closed
      obtain rfl := last.unique ended
      have meets : middle'.Meets [')'] :=
        ⟨_, List.mem_singleton_self _, (expect_eq_ok.mp closed').1⟩
      rw [Phrase.moved, Expression.moved, ← spaced.offset]
      exact .grouping ((spaced.peek? (by omega)).trans next) (begun.take?_none (by omega) none)
        (ih begun parted ⟨meets.endsTerm (by decide), meets.operator (by decide)⟩ (by omega))
        closed'
  | string next read =>
      have onward := left_string next read
      have spaced := twins.skipBlanks blank (by omega)
      obtain ⟨_, read', ended⟩ := spaced.string inside next read
      obtain rfl := last.unique ended
      rw [Phrase.moved, Expression.moved, ← spaced.offset]
      exact .string ((spaced.peek? (by omega)).trans next) read'
  | tablet next first ih =>
      have opened := left_advance next
      have onward := first.left_lt rfl
      have spaced := twins.skipBlanks blank (by omega)
      rw [Phrase.moved, Expression.moved, ← spaced.offset]
      exact .tablet ((spaced.peek? (by omega)).trans next)
        (ih (spaced.advance (by omega)) last trivial inside)
  | hole next =>
      have mark := left_advance next
      have spaced := twins.skipBlanks blank (by omega)
      obtain rfl := last.unique (spaced.advance (by omega))
      rw [Phrase.moved, Expression.moved, ← spaced.offset]
      exact .hole ((spaced.peek? (by omega)).trans next)
  | inherited next taken first ih =>
      have sign := left_advance next
      have star := left_take? taken
      have onward := first.left_lt rfl
      have spaced := twins.skipBlanks blank (by omega)
      obtain ⟨_, taken', begun⟩ := (spaced.advance (by omega)).take? (by omega) taken
      have within := ih begun last trivial inside
      rw [Phrase.moved, ← spaced.offset] at within
      exact .inherited ((spaced.peek? (by omega)).trans next) taken' within
  | role next none named first ih =>
      have sign := left_advance next
      have name := left_identifier_le named
      have onward := first.left_lt rfl
      have spaced := twins.skipBlanks blank (by omega)
      have signed := spaced.advance (by omega)
      obtain ⟨_, named', begun⟩ := signed.identifier (by omega) (fun stop => by omega) named
      have within := ih begun last trivial inside
      rw [Phrase.moved, ← spaced.offset] at within
      exact .role ((spaced.peek? (by omega)).trans next) (signed.take?_none (by omega) none) named'
        within
  | place next named first ih =>
      have sign := left_advance next
      have name := left_identifier_le named
      have onward := first.left_lt rfl
      have spaced := twins.skipBlanks blank (by omega)
      have signed := spaced.advance (by omega)
      obtain ⟨_, named', begun⟩ := signed.identifier (by omega) (fun stop => by omega) named
      have within := ih begun last trivial inside
      rw [Phrase.moved, ← spaced.offset] at within
      exact .place ((spaced.peek? (by omega)).trans next) named' within
  | amount next digit read =>
      have onward := left_amount next digit read
      have spaced := twins.skipBlanks blank (by omega)
      exact .amount ((spaced.peek? (by omega)).trans next) digit (spaced.amount last ends.name read)
  | name there first ih =>
      have onward := first.left_lt rfl
      have spaced := twins.skipBlanks blank (by omega)
      exact .name (by rwa [spaced.atName (by omega)]) (ih spaced last ends inside)
  | undefined there same =>
      have name := left_name there
      obtain ⟨ended, alike⟩ := twins.name inside fun stop => (last.parted stop).2 ▸ ends.name
      obtain rfl := last.unique ended
      rw [Phrase.moved, Expression.moved, ← twins.offset]
      exact .undefined (by rwa [twins.atName (by omega)]) (alike.trans same)
  | @application c _ _ there other begins first ih =>
      have name := left_name there
      have blanks := left_skipBlanks_le c.name.2
      have onward := first.left_lt rfl
      obtain ⟨named, alike⟩ := twins.name_of_lt (by omega)
      have spaced := named.skipBlanks blank (by omega)
      rw [Phrase.moved, Expression.moved, ← twins.offset, ← alike]
      exact .application (by rwa [twins.atName (by omega)]) (by rwa [alike])
        (by rwa [spaced.peek? (by omega)]) (ih spaced last ends inside)
  | @reference c there _ none =>
      have name := left_name there
      have blanks := left_skipBlanks_le c.name.2
      have others := left_commaNames_le c.name.2.skipBlanks
      obtain ⟨named, alike⟩ := twins.name (by omega) fun stop =>
        (last.parted (by omega)).2 ▸ ends.name
      have spaced := named.skipBlanks blank (by omega)
      have listed := spaced.commaNames blank last ends
      have none' : d.name.2.skipBlanks.peek?.any startsTerm = false := by
        rcases Nat.eq_or_lt_of_le spaced.stop_le with stop | before
        · have term := ends.term
          rw [(last.parted (by omega)).2, ← (spaced.parted stop.symm).2, ← skipBlanks_rest,
            skipBlanks_skipBlanks] at term
          exact term.any
        · rwa [spaced.peek? before]
      have reads := Reads.reference (by rwa [twins.atName (by omega)]) (by rwa [alike]) none'
      rwa [listed, alike, twins.offset] at reads
  | noField taken =>
      have closed := left_take? taken
      have spaced := twins.skipSpace_of_lt (by omega)
      obtain ⟨_, taken', ended⟩ := spaced.take? (by omega) taken
      obtain rfl := last.unique ended
      exact .noField taken'
  | @field c _ named begun _ middle next _ _ _ quote quoted equal first comma rest ihFirst
      ihRest =>
      have onward := first.left_lt rfl
      have more := left_skipSpace_le middle
      have mark := left_take? comma
      have further := rest.left_lt rfl
      obtain ⟨_, _, quote', quoted', equal', begun⟩ :=
        twins.labelled quote quoted equal (by omega) fun stop => by omega
      obtain ⟨middle', parted⟩ := begun.reach (m := middle) (by omega) (by omega)
      obtain ⟨_, comma', passed⟩ := (parted.skipSpace_of_lt (by omega)).take? (by omega) comma
      have tail := ihRest passed last trivial inside
      obtain ⟨there, rfl⟩ := take?_eq_some.mp comma'
      have ended := ends_of_skipSpace there (.inr ⟨rfl, tail.nameless⟩)
      rw [Phrase.moved, movedFields]
      exact .field (unclosed_of_quote quote') quote' quoted' equal'
        (ihFirst begun parted ended (by omega)) comma' tail
  | @lastField c _ named begun _ middle _ _ quote quoted equal first other closed ih =>
      have onward := first.left_lt rfl
      have more := left_skipSpace_le middle
      have mark := left_take? closed
      obtain ⟨_, _, quote', quoted', equal', begun⟩ :=
        twins.labelled quote quoted equal (by omega) fun stop => by omega
      obtain ⟨middle', parted⟩ := begun.reach (m := middle) (by omega) (by omega)
      have stop := parted.skipSpace_of_lt (by omega)
      obtain ⟨_, closed', ended⟩ := stop.take? (by omega) closed
      obtain rfl := last.unique ended
      have ended := ends_of_skipSpace (take?_eq_some.mp closed').1 (.inl rfl)
      rw [Phrase.moved, movedFields, movedFields]
      exact .lastField (unclosed_of_quote quote') quote' quoted' equal'
        (ih begun parted ended (by omega)) (stop.take?_none (by omega) other) closed'
  | restriction first ih =>
      have onward := first.left_lt rfl
      rw [Phrase.moved, Expression.moved]
      exact .restriction (ih (twins.skipSpace_of_lt (by omega)) last trivial inside)
  | @bracedBlock c within _ middle _ opened first closed ih =>
      have brace := left_expect opened
      have blanks := left_skipBlanks_le within
      have feed := left_skipLineFeed_le within.skipBlanks
      have onward := first.left_le
      have more := left_expect closed
      obtain ⟨_, opened', begun⟩ := twins.expect (by omega) opened
      have lined := (begun.skipBlanks blank (by omega)).skipLineFeed (by omega) fun stop => by omega
      obtain ⟨middle', parted⟩ := lined.reach (m := middle) (by omega) (by omega)
      obtain ⟨_, closed', ended⟩ := parted.expect (by omega) closed
      obtain rfl := last.unique ended
      exact .bracedBlock opened' (ih lined parted (expect_eq_ok.mp closed').1 (by omega)) closed'
  | noStatement next =>
      obtain rfl := last.unique (twins.skipBlanks blank inside)
      exact .noStatement ends
  | blank next first ih =>
      have feed := left_advance next
      have onward := first.left_le
      have spaced := twins.skipBlanks blank (by omega)
      rw [Phrase.moved, movedBlock, Statement.moved, ← spaced.offset]
      exact .blank ((spaced.peek? (by omega)).trans next)
        (ih (spaced.advance (by omega)) last ends inside)
  | comment begins first ih =>
      have onward := first.left_le
      have fewer := left_comment begins
      have spaced := twins.skipBlanks blank (by omega)
      obtain ⟨begins', same, passed⟩ :=
        spaced.comment (by omega) (endsLine_of_more first.block_more) begins
      rw [Phrase.moved, movedBlock, ← same]
      exact .comment begins' (ih passed last ends inside)
  | @nextStatement c _ _ middle _ following _ _ _ _ _ _ first ended rest ihFirst ihRest =>
      have onward := first.left_lt rfl
      have ending := left_statementEnd_le ended
      have further := rest.left_le
      have spaced := twins.skipBlanks blank (by omega)
      obtain ⟨middle', parted⟩ := spaced.reach (m := middle) (by omega) (by omega)
      have brace (stop : following.left = old.length) : new.head? = some '\x7d' := by
        rw [← (last.parted (by omega)).2]
        exact ends
      have line (begins : middle.skipBlanks.atComment = true) : middle.skipBlanks.EndsLine := by
        rw [statementEnd, if_pos begins] at ended
        cases ended
        exact endsLine_of_more rest.block_more
      have space (stop : following.left = old.length) : Halts Text.isAsciiSpace new := by
        intro ch next
        cases (brace stop).symm.trans next
        rfl
      obtain ⟨_, ended', begun⟩ :=
        parted.statementEnd blank (by omega) line space (fun stop _ => brace stop) ended
      have head := ihFirst spaced parted (meets_statementEnds ended') (by omega)
      rw [Phrase.moved, movedBlock_append]
      exact head.block_of_statement ended' (ihRest begun last ends inside)
  | @assignment c _ middle _ _ found first ih =>
      have onward := first.left_lt rfl
      have blanks := left_skipBlanks_le middle
      obtain ⟨_, found', begun⟩ := twins.targets? found (by omega)
      have meets : e.Meets statementEnds := ends
      rw [Phrase.moved, Statement.moved, ← twins.offset]
      exact .assignment found' (ih (begun.skipBlanks blank (by omega)) last
        ⟨meets.endsTerm (by decide), meets.operator (by decide)⟩ inside)
  | procedure none declares first ih =>
      have names := first.left_names
      have declares' : d.atDeclaration = true := by rwa [twins.atDeclaration (by omega)]
      rw [Phrase.moved, Statement.moved, ← twins.offset]
      exact .procedure (targets?_of_atDeclaration declares') declares'
        (ih twins last trivial inside)
  | execute none executes first ih =>
      have meets : e.Meets statementEnds := ends
      have head := ih twins last ⟨meets.endsTerm (by decide), meets.operator (by decide)⟩ inside
      obtain ⟨none', executes'⟩ := head.looks ends
      rw [Phrase.moved, Statement.moved, ← twins.offset]
      exact .execute none' executes' head
  | declaration there first ih =>
      have onward := first.left_lt rfl
      obtain ⟨there', name, names, remark, headed⟩ :=
        twins.heading there (by omega) fun stop => by omega
      rw [Phrase.moved, Procedure.moved, ← twins.offset, ← name, ← names, ← remark]
      exact .declaration there' (ih headed last trivial inside)

end

/-! The procedures of a text. -/

theorem Cursor.skipTrivia_of_atName {text : List Char} {c : Cursor text}
    (there : c.atName = true) : c.skipTrivia = c := by
  obtain ⟨ch, rest, here, begins⟩ := atName_iff.mp there
  refine ext ?_
  rw [skipTrivia_rest, here, triviaLength_of_name begins]
  rfl

theorem Cursor.skipTrivia_of_end {text : List Char} {c : Cursor text} (ended : c.rest = []) :
    c.skipTrivia.rest = [] := by
  rw [skipTrivia_rest, ended, List.drop_nil]

/-- The procedures are all that stands from here to the end of the text, but for white space and
comments. -/
inductive Declares {text : List Char} : Cursor text → List Procedure → Prop
  | nil {c} : c.skipTrivia.rest = [] → Declares c []
  | cons {c first after others} : Reads c.skipTrivia (.declaration first) after →
      Declares after others → Declares c (first :: others)

section
variable {text : List Char} {c after also : Cursor text} {procedures : List Procedure}

theorem Cursor.proceduresWithin_declares (limit : Nat)
    (read : c.proceduresWithin limit = .ok procedures) : Declares c procedures := by
  induction limit generalizing c procedures with
  | zero => cases read
  | succ limit ih =>
      rw [proceduresWithin] at read
      dsimp only at read
      split at read
      · rename_i ended
        cases read
        exact .nil (List.isEmpty_iff.mp ended)
      · rw [Reading.bind_eq_ok] at read
        obtain ⟨⟨first, after⟩, head, read⟩ := read
        rw [Reading.bind_eq_ok] at read
        obtain ⟨others, tail, same⟩ := read
        cases same
        exact .cons (declaration_reads _ head) (ih tail)

theorem Reads.declaration_eq_ok {procedure : Procedure}
    (reads : Reads c (.declaration procedure) after) :
    c.declaration c.bound = .ok (procedure, after) :=
  reads.isRead _ (by simp only [Phrase.nested, bound, left]; omega)

/-- At one place one procedure is read. -/
theorem Reads.unique {one other : Procedure} (reads : Reads c (.declaration one) after)
    (reads' : Reads c (.declaration other) also) : one = other ∧ after = also := by
  have same := reads.declaration_eq_ok.symm.trans reads'.declaration_eq_ok
  cases same
  exact ⟨rfl, rfl⟩

theorem Declares.proceduresWithin (declares : Declares c procedures) {limit : Nat}
    (enough : c.left < limit) : c.proceduresWithin limit = .ok procedures := by
  induction declares generalizing limit with
  | nil ended =>
      obtain ⟨limit, rfl⟩ := Nat.exists_eq_succ_of_ne_zero (Nat.ne_zero_of_lt enough)
      rw [Cursor.proceduresWithin]
      dsimp only
      rw [ended]
      rfl
  | @cons c _ _ _ reads _ ih =>
      obtain ⟨limit, rfl⟩ := Nat.exists_eq_succ_of_ne_zero (Nat.ne_zero_of_lt enough)
      have onward := reads.left_lt rfl
      have trivia := left_skipTrivia_le c
      have some : c.skipTrivia.rest.isEmpty = false :=
        List.isEmpty_eq_false_iff.mpr (List.ne_nil_of_length_pos (Nat.lt_of_lt_of_le
          (Nat.zero_lt_succ _) onward))
      rw [Cursor.proceduresWithin]
      dsimp only
      rw [some, reads.declaration_eq_ok]
      simp only [bind, Except.bind, @ih limit (by omega), Bool.false_eq_true, if_false]

end

/-- A text is read as the procedures that stand in it, if there are any. -/
theorem Document.parse_iff_declares {text : String} {document : Document} :
    Document.parse text = .ok document ↔
      document.procedures ≠ [] ∧ Declares (Cursor.start text.toList) document.procedures := by
  rw [parse_eq_ok, Document.read, Reading.bind_eq_ok]
  constructor
  · rintro ⟨procedures, read, same⟩
    have declares := proceduresWithin_declares _ read
    split at same
    · cases same
    · rename_i some
      cases same
      exact ⟨some, declares⟩
  · rintro ⟨some, declares⟩
    refine ⟨_, declares.proceduresWithin (Nat.lt_succ_self _), ?_⟩
    obtain ⟨procedures⟩ := document
    cases procedures with
    | nil => exact absurd rfl some
    | cons first others => rfl

end Runbook
