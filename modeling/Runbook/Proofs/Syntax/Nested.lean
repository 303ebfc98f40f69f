import Runbook.Proofs.Syntax.Reread

/-!
A procedure in the block of another is what it is at the top of a text.

There its reader is called at once. In a block a look ahead must find its head first, and that
passes blanks only, where the reader of a procedure passes all white space before the brace. The
text behind the procedure is read as statements there, which passes no form feed.
-/
namespace Runbook

open Cursor

/-- Is it a comment or a blank line? -/
def Statement.isRemark : Statement → Bool
  | .comment .. | .blank _ => true
  | _ => false

/-- Does a form feed stand in the text outside of comments? The text begins `inside` one or not. -/
def hasFormFeed : (inside : Bool) → List Char → Bool
  | _, [] => false
  | true, ch :: rest => hasFormFeed (ch != '\n') rest
  | false, '-' :: '-' :: rest => hasFormFeed true rest
  | false, ch :: rest => ch == '\x0c' || hasFormFeed false rest

section
variable {text : List Char} {c after : Cursor text}

/-! What is read of the text behind a procedure. -/

/-- A block is known by what stands behind its blanks. -/
theorem Reads.block_congr {block : Block} {d : Cursor text} (same : c.skipBlanks = d.skipBlanks)
    (reads : Reads c (.block block) after) : Reads d (.block block) after := by
  cases reads with
  | noStatement next =>
      rw [same] at next ⊢
      exact .noStatement next
  | blank next rest =>
      rw [same] at next rest ⊢
      exact .blank next rest
  | comment begins rest =>
      rw [same] at begins rest ⊢
      exact .comment begins rest
  | nextStatement next brace feed plain first ended rest =>
      rw [same] at next plain first
      exact .nextStatement next brace feed plain first ended rest

theorem Cursor.skipBlanks_of_blank {ch : Char} {rest : List Char} (here : c.rest = ch :: rest)
    (blank : Text.isBlank ch = true) : c.advance.skipBlanks = c.skipBlanks := by
  refine ext ?_
  rw [skipBlanks_rest, skipBlanks_rest, advance_of_rest here, here,
    List.dropWhile_cons_of_pos blank]

theorem Reads.block_of_feed {block : Block} {rest : List Char} (here : c.rest = '\n' :: rest)
    (reads : Reads c (.block block) after) : ∃ others, Reads c.advance (.block others) after := by
  have stays : c.skipBlanks = c := skipBlanks_of_rest here rfl
  have feed := peek?_of_rest here
  cases reads with
  | noStatement next =>
      rw [stays, feed] at next
      cases next
  | blank _ rest =>
      rw [stays] at rest
      exact ⟨_, rest⟩
  | comment begins _ =>
      have next := peek?_of_atComment begins
      rw [stays, feed] at next
      cases next
  | nextStatement next _ other _ _ _ _ =>
      rw [stays, feed] at next
      cases next
      exact absurd rfl other

theorem Reads.block_of_atComment {block : Block} (begins : c.atComment = true)
    (reads : Reads c (.block block) after) : ∃ others, Reads c.comment.2 (.block others) after := by
  have dash := peek?_of_atComment begins
  obtain ⟨_, here⟩ := peek?_eq_some.mp dash
  have stays : c.skipBlanks = c := skipBlanks_of_rest here rfl
  cases reads with
  | noStatement next =>
      rw [stays, dash] at next
      cases next
  | blank next _ =>
      rw [stays, dash] at next
      cases next
  | comment _ rest =>
      rw [stays] at rest
      exact ⟨_, rest⟩
  | nextStatement _ _ _ plain _ _ _ =>
      rw [stays, begins] at plain
      cases plain

/-- What stands behind the blanks of a block is its brace, a line feed, a comment or a statement. -/
theorem Reads.block_begins {block : Block} (reads : Reads c (.block block) after) :
    c.Meets ['\x7d', '\n', '-'] ∨ c.skipBlanks.peek?.any startsTerm = true := by
  cases reads with
  | noStatement next => exact .inl ⟨_, by decide, next⟩
  | blank next _ => exact .inl ⟨_, by decide, next⟩
  | comment begins _ => exact .inl ⟨_, by decide, peek?_of_atComment begins⟩
  | nextStatement _ _ _ _ first _ _ =>
      have begins := first.begins
      rw [Phrase.Begins, skipBlanks_skipBlanks] at begins
      exact .inr begins

/-- The block that is read from here up to the last character of the text is one of remarks. -/
def Cursor.ReadsRemarks (c : Cursor text) : Prop :=
  ∃ block after, Reads c (.block block) after ∧ (∀ statement ∈ block, statement.isRemark = true) ∧
    after.rest = ['\x7d']

namespace Cursor.ReadsRemarks

theorem brace (here : c.rest = ['\x7d']) : c.ReadsRemarks := by
  have stays : c.skipBlanks = c := skipBlanks_of_rest here rfl
  have reads : Reads c (.block []) c.skipBlanks := .noStatement (by rw [stays, peek?_of_rest here])
  exact ⟨_, _, reads, List.forall_mem_nil _, by rwa [stays]⟩

theorem feed {rest : List Char} (here : c.rest = '\n' :: rest)
    (remarks : c.advance.ReadsRemarks) : c.ReadsRemarks := by
  obtain ⟨block, after, reads, all, last⟩ := remarks
  have stays : c.skipBlanks = c := skipBlanks_of_rest here rfl
  have reads : Reads c (.block (.blank c.skipBlanks.offset :: block)) after :=
    .blank (by rw [stays, peek?_of_rest here]) (stays.symm ▸ reads)
  exact ⟨_, after, reads, List.forall_mem_cons.mpr ⟨rfl, all⟩, last⟩

theorem comment (begins : c.atComment = true) (remarks : c.comment.2.ReadsRemarks) :
    c.ReadsRemarks := by
  obtain ⟨block, after, reads, all, last⟩ := remarks
  obtain ⟨_, here⟩ := peek?_eq_some.mp (peek?_of_atComment begins)
  have stays : c.skipBlanks = c := skipBlanks_of_rest here rfl
  have reads : Reads c (.block (c.skipBlanks.comment.1 :: block)) after :=
    .comment (by rwa [stays]) (stays.symm ▸ reads)
  exact ⟨_, after, reads, List.forall_mem_cons.mpr ⟨rfl, all⟩, last⟩

end Cursor.ReadsRemarks

/-- The place where a comment is left, if this is `inside` one. -/
def Cursor.outside : (inside : Bool) → Cursor text → Cursor text
  | true, c => (c.skipWhile isWithinLine).skipLineFeed
  | false, c => c

theorem Cursor.outside_of_cons {ch : Char} {rest : List Char} (here : c.rest = ch :: rest) :
    c.advance.outside (ch != '\n') = c.outside true := by
  cases other : ch != '\n' with
  | false =>
      rw [bne_eq_false_iff_eq] at other
      subst other
      have stays : c.skipWhile isWithinLine = c := skipWhile_of_halts (halts_of_rest here rfl)
      rw [outside, outside, stays]
      exact (if_pos (peek?_of_rest here)).symm
  | true =>
      have within : isWithinLine ch = true := other
      have same : c.advance.skipWhile isWithinLine = c.skipWhile isWithinLine := by
        refine ext ?_
        rw [skipWhile_rest, skipWhile_rest, advance_of_rest here, here,
          List.dropWhile_cons_of_pos within]
      rw [outside, same, outside]

theorem hasFormFeed_of_isAsciiSpace {ch : Char} (space : Text.isAsciiSpace ch = true)
    (rest : List Char) :
    hasFormFeed false (ch :: rest) = (ch == '\x0c' || hasFormFeed false rest) := by
  rw [hasFormFeed]
  rintro _ rfl
  cases space

/-- White space and comments before the end of a block are read as remarks if no form feed stands
there, and are not read as a block otherwise. -/
theorem readsRemarks_iff (inside : Bool) (trivia : List Char)
    (whole : trivia.length ≤ triviaLength inside trivia)
    (here : c.rest = trivia ++ ['\n', '\x7d']) :
    (hasFormFeed inside trivia = false → (c.outside inside).ReadsRemarks) ∧
      ∀ block after, Reads (c.outside inside) (.block block) after →
        hasFormFeed inside trivia = false := by
  fun_induction triviaLength inside trivia generalizing c with
  | case1 inside =>
      have line : c.advance.ReadsRemarks := .brace (advance_of_rest here)
      have none : hasFormFeed inside [] = false := by rw [hasFormFeed]
      refine ⟨fun _ => ?_, fun _ _ _ => none⟩
      cases inside with
      | false => exact .feed here line
      | true =>
          have behind : c.advance = c.outside true := outside_of_cons here
          exact behind ▸ line
  | case2 ch rest ih =>
      rw [hasFormFeed, ← outside_of_cons here]
      exact ih (Nat.le_of_succ_le_succ whole) (advance_of_rest here)
  | case3 rest ih =>
      have begins : c.atComment = true := by rw [atComment, here]; rfl
      have whole : rest.length ≤ triviaLength true rest :=
        Nat.le_of_succ_le_succ (Nat.le_of_succ_le_succ whole)
      obtain ⟨read, unread⟩ := ih whole (advance_of_rest (advance_of_rest here))
      rw [hasFormFeed]
      refine ⟨fun none => .comment begins (read none), fun block after reads => ?_⟩
      obtain ⟨others, reads⟩ := reads.block_of_atComment begins
      exact unread others after reads
  | case4 ch rest _ space ih =>
      have here : c.rest = ch :: (rest ++ ['\n', '\x7d']) := here
      obtain ⟨read, unread⟩ := ih (Nat.le_of_succ_le_succ whole) (advance_of_rest here)
      rw [hasFormFeed_of_isAsciiSpace space, Bool.or_eq_false_iff, beq_eq_false_iff_ne]
      cases blank : Text.isBlank ch with
      | true =>
          have same := skipBlanks_of_blank here blank
          refine ⟨fun none => ?_, fun block after reads => ⟨?_, ?_⟩⟩
          · obtain ⟨block, after, reads, remarks⟩ := read none.2
            exact ⟨block, after, reads.block_congr same, remarks⟩
          · rintro rfl
            cases blank
          · exact unread block after (reads.block_congr same.symm)
      | false =>
          rw [Text.isAsciiSpace, blank, Bool.false_or, Bool.or_eq_true, beq_iff_eq,
            beq_iff_eq] at space
          rcases space with rfl | rfl
          · refine ⟨fun none => .feed here (read none.2), fun block after reads => ⟨by decide, ?_⟩⟩
            obtain ⟨others, reads⟩ := reads.block_of_feed here
            exact unread others after reads
          · refine ⟨fun none => absurd rfl none.1, fun block after reads => ?_⟩
            have stays : c.skipBlanks = c := skipBlanks_of_rest here rfl
            have feed := peek?_of_rest here
            rw [outside] at reads
            rcases reads.block_begins with ⟨other, mem, next⟩ | begins
            · rw [stays, feed] at next
              cases next
              exact absurd mem (by decide)
            · rw [stays, feed] at begins
              exact absurd begins (by decide)
  | case5 ch rest _ _ => exact absurd whole (Nat.not_succ_le_zero _)

/-- Behind the blanks a line ends, a comment begins or a form feed stands. -/
theorem meets_of_trivia (inside : Bool) (trivia : List Char) (outside : inside = false)
    (whole : trivia.length ≤ triviaLength inside trivia)
    (here : c.rest = trivia ++ ['\n', '\x7d']) : c.Meets ['\n', '\x0c', '-'] := by
  fun_induction triviaLength inside trivia generalizing c with
  | case1 _ => exact .of_rest here rfl (by decide)
  | case2 _ _ _ => cases outside
  | case3 _ _ => exact .of_rest here rfl (by decide)
  | case4 ch rest _ space ih =>
      cases blank : Text.isBlank ch with
      | true =>
          have meets := @ih c.advance outside (Nat.le_of_succ_le_succ whole) (advance_of_rest here)
          rwa [Meets, skipBlanks_of_blank here blank] at meets
      | false =>
          rw [Text.isAsciiSpace, blank, Bool.false_or, Bool.or_eq_true, beq_iff_eq,
            beq_iff_eq] at space
          exact .of_rest here blank (by rcases space with rfl | rfl <;> decide)
  | case5 ch rest _ _ => exact absurd whole (Nat.not_succ_le_zero _)

theorem statementEnd_of_feed (next : c.skipBlanks.peek? = some '\n') :
    c.statementEnd = .ok ([], c.skipBlanks.advance) := by
  have plain : ¬c.skipBlanks.atComment = true := fun begins => by
    rw [peek?_of_atComment begins] at next
    cases next
  rw [statementEnd, if_neg plain, next]
  rfl

/-- What stands behind a statement is read on as remarks if no form feed stands there. -/
theorem statementEnd_readsRemarks {trivia : List Char}
    (whole : trivia.length ≤ triviaLength false trivia)
    (here : c.rest = trivia ++ ['\n', '\x7d']) (none : hasFormFeed false trivia = false) :
    ∃ endings next others after, c.statementEnd = .ok (endings, next) ∧
      Reads next (.block others) after ∧
      (∀ statement ∈ endings ++ others, statement.isRemark = true) ∧ after.rest = ['\x7d'] := by
  obtain ⟨block, after, reads, remarks, last⟩ : c.ReadsRemarks :=
    (readsRemarks_iff false trivia whole here).1 none
  have meets := meets_of_trivia false trivia rfl whole here
  cases reads with
  | noStatement next =>
      obtain ⟨ch, mem, first⟩ := meets
      cases next.symm.trans first
      exact absurd mem (by decide)
  | @blank _ others _ next rest =>
      exact ⟨[], _, others, after, statementEnd_of_feed next, rest,
        (List.forall_mem_cons.mp remarks).2, last⟩
  | @comment _ others _ begins rest =>
      exact ⟨[c.skipBlanks.comment.1], _, others, after, if_pos begins, rest, remarks, last⟩
  | nextStatement _ _ _ _ first _ _ =>
      have remark := (List.forall_mem_cons.mp remarks).1
      cases first with
      | assignment _ _ => cases remark
      | procedure _ _ _ => cases remark
      | execute _ _ _ => cases remark

theorem hasFormFeed_of_statementEnd {trivia : List Char} {endings : List Statement}
    {next : Cursor text} {others : Block} (whole : trivia.length ≤ triviaLength false trivia)
    (here : c.rest = trivia ++ ['\n', '\x7d']) (ended : c.statementEnd = .ok (endings, next))
    (reads : Reads next (.block others) after) : hasFormFeed false trivia = false := by
  have unread : ∀ block after, Reads c (.block block) after → hasFormFeed false trivia = false :=
    (readsRemarks_iff false trivia whole here).2
  obtain ⟨ch, mem, first⟩ := meets_of_trivia false trivia rfl whole here
  rw [statementEnd] at ended
  split at ended
  · cases ended
    exact unread _ _ (.comment ‹_› reads)
  · split at ended
    · cases ended
      exact unread _ _ (.blank ‹_› reads)
    · rename_i semicolon
      cases semicolon.symm.trans first
      exact absurd mem (by decide)
    · rename_i brace
      cases brace.symm.trans first
      exact absurd mem (by decide)
    · cases ended

/-! What stands where a procedure does. -/

/-- Behind the names of a procedure stands its colon, or its brace behind white space. -/
theorem Reads.behind_names {procedure : Procedure}
    (declared : Reads c (.declaration procedure) after) :
    c.names.2.peek? = some ':' ∨ c.names.2.skipSpace.peek? = some '\x7b' := by
  cases declared with
  | declaration there first =>
      rw [names_of_atName there]
      dsimp only
      cases taken : c.name.2.names.2.take? ':' with
      | some next => exact .inl (take?_eq_some.mp taken).1
      | none =>
          have same : c.name.2.names.2.signature = (none, c.name.2.names.2) := by
            rw [signature, taken]
          rw [same] at first
          cases first with
          | bracedBlock opened _ _ => exact .inr (expect_eq_ok.mp opened).1

/-- A procedure that is not looked at as one has a line end or a form feed behind its names. -/
theorem Reads.lined {procedure : Procedure} (declared : Reads c (.declaration procedure) after)
    (other : c.atDeclaration = false) :
    c.names.2.Meets ['\n', '\x0c'] ∧ c.names.2.skipSpace.peek? = some '\x7b' := by
  have there := declared.begins
  rw [Phrase.Begins] at there
  rw [atDeclaration, there, Bool.true_and, Bool.or_eq_false_iff, beq_eq_false_iff_ne,
    beq_eq_false_iff_ne] at other
  have brace := declared.behind_names.resolve_left other.1
  refine ⟨(meets_or_skipSpace _).resolve_right fun same => other.2 ?_, brace⟩
  rwa [← same, skipBlanks_names] at brace

/-- A procedure is no assignment. -/
theorem Reads.targets?_of_declaration {procedure : Procedure}
    (declared : Reads c (.declaration procedure) after) : c.targets? = none := by
  cases other : c.atDeclaration with
  | true => exact targets?_of_atDeclaration other
  | false =>
      have halts := (declared.lined other).1.halts (p := lists) (by decide)
      rw [skipBlanks_names] at halts
      exact targets?_of_names_halt declared.begins halts

theorem names_of_not_atName (nameless : c.skipBlanks.atName = false) :
    c.names = ([], c.skipBlanks) := names_of_halts (halts_of_not_atName nameless)

/-- Where the names end with a line another name stands next, or nothing but the line's end. -/
theorem atName_of_lined {p : Char → Bool} (lined : c.names.2.Meets ['\n', '\x0c'])
    (passes : c.skipBlanks.peek?.any p = true) (other : ['\n', '\x0c'].any p = false) :
    c.skipBlanks.atName = true := by
  refine Bool.of_not_eq_false fun nameless => ?_
  have halts := lined.halts other
  rw [skipBlanks_names, names_of_not_atName nameless] at halts
  rw [peek?, halts.any] at passes
  cases passes

/-- What is read ends among the names that it begins with. -/
def Phrase.EndsInNames {text : List Char} (c after : Cursor text) : Phrase → Prop
  | .term _ | .expression _ => c.skipBlanks.atName = true → after.names.2 = c.names.2
  | .operations _ _ _ | .named _ => after.names.2 = c.names.2
  | _ => True

/-- An expression does not go on behind its names, if the line does not. -/
theorem Reads.endsInNames {phrase : Phrase} (reads : Reads c phrase after)
    (lined : c.names.2.Meets ['\n', '\x0c']) : phrase.EndsInNames c after := by
  have unnamed {c : Cursor text} {ch : Char} (next : c.skipBlanks.peek? = some ch)
      (other : isNameStart ch = false) : ¬c.skipBlanks.atName = true := by
    rw [atName, next]
    exact Bool.eq_false_iff.mp other
  induction reads with
  | expression _ _ first rest =>
      intro there
      have same := first lined there
      exact (rest (same.symm ▸ lined)).trans same
  | last _ => rw [Phrase.EndsInNames, names_skipBlanks]
  | @operator c _ _ _ _ _ _ _ found _ _ _ _ =>
      obtain ⟨ch, next, sign⟩ := Option.bind_eq_some_iff.mp found
      have there := atName_of_lined (p := fun ch => (operator? ch).isSome) lined
        (by rw [next]; exact Option.isSome_iff_exists.mpr ⟨_, sign⟩) (by decide)
      have meets : c.Meets ['|', '&', '+'] := ⟨ch, mem_signs sign, next⟩
      rw [atName_of_halts (meets.halts (by decide))] at there
      cases there
  | unit next _ | grouping next _ _ _ _ | string next _ | tablet next _ _ | hole next
  | inherited next _ _ _ | role next _ _ _ _ | place next _ _ _ =>
      exact fun there => absurd there (unnamed next (by decide))
  | amount next digit _ =>
      refine fun there => absurd there (unnamed next ?_)
      exact Bool.eq_false_iff.mpr fun begins => not_isDigit_of_isNameStart begins digit
  | name _ _ ih =>
      intro _
      rw [← names_skipBlanks] at lined
      exact (ih lined).trans (by rw [names_skipBlanks])
  | undefined there _ =>
      rw [Phrase.EndsInNames, names_of_atName there]
  | @application c _ _ there _ begins _ ih =>
      rw [names_of_atName there] at lined
      have more := atName_of_lined lined begins (by decide)
      rw [← names_skipBlanks] at lined
      have same := ih lined (by rwa [skipBlanks_skipBlanks])
      rw [Phrase.EndsInNames, names_of_atName there, same, names_skipBlanks]
  | @reference c there _ none =>
      have nameless : c.name.2.skipBlanks.atName = false :=
        Bool.eq_false_iff.mpr fun more => by rw [startsTerm_of_atName more] at none; cases none
      have last : c.names.2 = c.name.2.skipBlanks := by
        rw [names_of_atName there, names_of_not_atName nameless]
      rw [last] at lined
      have halts := lined.halts (p := (· == ',')) (by decide)
      rw [skipBlanks_skipBlanks] at halts
      rw [Phrase.EndsInNames, commaNames_of_none (take?_of_halts halts), last, names_skipBlanks,
        names_of_not_atName nameless]
  | _ => trivial

theorem skipSpace_of_peek? {ch : Char} (next : c.skipBlanks.peek? = some ch)
    (other : Text.isAsciiSpace ch = false) : c.skipSpace = c.skipBlanks := by
  rw [← skipSpace_skipBlanks]
  exact skipWhile_of_halts (halts_of_peek? next other)

theorem skipSpace_of_feed (next : c.skipBlanks.peek? = some '\n') :
    c.skipBlanks.advance.skipSpace = c.skipSpace := by
  obtain ⟨rest, here⟩ := peek?_eq_some.mp next
  refine Eq.trans (ext ?_) (skipSpace_skipBlanks c)
  rw [skipSpace_rest, skipSpace_rest, advance_of_rest here, here]
  rfl

/-- No brace opens among the statements of a block. -/
theorem Reads.braceless {block : Block} (reads : Reads c (.block block) after) :
    c.skipSpace.peek? ≠ some '\x7b' := by
  generalize same : Phrase.block block = phrase at reads
  intro brace
  induction reads generalizing block with
  | noStatement next =>
      rw [skipSpace_of_peek? next (by decide), next] at brace
      cases brace
  | blank next _ ih => exact ih rfl ((skipSpace_of_feed next).symm ▸ brace)
  | comment begins _ _ =>
      have next := peek?_of_atComment begins
      rw [skipSpace_of_peek? next (by decide), next] at brace
      cases brace
  | nextStatement next _ _ _ first _ _ _ _ =>
      have begins := first.begins
      rw [Phrase.Begins, skipBlanks_skipBlanks, next] at begins
      rw [skipSpace_of_peek? next (not_isAsciiSpace_of_startsTerm begins), next] at brace
      cases brace
      exact absurd begins (by decide)
  | _ => cases same

/-- A procedure that a block begins with is looked at as one, and its statement ends behind it. -/
theorem Reads.atDeclaration_of_block {procedure : Procedure} {block : Block}
    {last : Cursor text} (declared : Reads c (.declaration procedure) after)
    (reads : Reads c (.block block) last) : c.atDeclaration = true ∧
      ∃ endings next others, after.statementEnd = .ok (endings, next) ∧
        Reads next (.block others) last := by
  have there : c.atName = true := declared.begins
  have stays := skipBlanks_of_atName there
  have begins := startsTerm_of_atName there
  cases reads with
  | noStatement next =>
      rw [← stays, next] at begins
      exact absurd begins (by decide)
  | blank next _ =>
      rw [← stays, next] at begins
      exact absurd begins (by decide)
  | comment comments _ =>
      rw [← stays, peek?_of_atComment comments] at begins
      exact absurd begins (by decide)
  | nextStatement _ _ _ _ first ended rest =>
      rw [stays] at first
      cases first with
      | assignment found _ =>
          rw [declared.targets?_of_declaration] at found
          cases found
      | procedure _ declares first =>
          obtain ⟨_, rfl⟩ := first.unique declared
          exact ⟨declares, _, _, _, ended, rest⟩
      | execute _ other first =>
          obtain ⟨lined, brace⟩ := declared.lined other
          have same : _ = c.names.2 := first.endsInNames lined (by rwa [stays])
          have meets := meets_statementEnds ended
          have nameless := atName_of_halts (meets.halts (p := isNameStart) (by decide))
          rw [names_of_not_atName nameless] at same
          dsimp only at same
          obtain ⟨ch, mem, next⟩ := lined
          obtain ⟨ch', mem', next'⟩ := meets
          rw [skipBlanks_names] at next
          rw [same, next] at next'
          cases next'
          rcases List.mem_cons.mp mem with rfl | mem
          · have feed : _ = some '\n' := (congrArg Cursor.peek? same).trans next
            rw [statementEnd_of_feed feed] at ended
            cases ended
            rw [← same, skipSpace_skipBlanks, ← skipSpace_of_feed feed] at brace
            exact absurd brace rest.braceless
          · cases List.mem_singleton.mp mem
            exact absurd mem' (by decide)

/-- A procedure that is looked at as one is read at the beginning of a block. -/
theorem Reads.block_of_declaration {procedure : Procedure} {endings : List Statement}
    {next last : Cursor text} {others : Block} (declared : Reads c (.declaration procedure) after)
    (declares : c.atDeclaration = true) (ended : after.statementEnd = .ok (endings, next))
    (rest : Reads next (.block others) last) :
    Reads c (.block (.declaration c.offset procedure :: endings ++ others)) last := by
  have statement : Reads c.skipBlanks (.statement (.declaration c.offset procedure)) after := by
    rw [skipBlanks_of_atName declared.begins]
    exact .procedure (targets?_of_atDeclaration declares) declares declared
  exact statement.block_of_statement ended rest

end

/-- The text before a block that begins on a line of its own. -/
def Text.mainHead : List Char := ['m', 'a', 'i', 'n', ' ', '\x7b', '\n']

/-- Behind its head the block of a procedure is read. -/
theorem Cursor.reads_main (body : List Char) : ∃ c : Cursor (Text.mainHead ++ body),
    c.rest = body ∧ c.offset = 7 ∧ ∀ procedure after,
      Reads (start (Text.mainHead ++ body)) (.declaration procedure) after ↔
        ∃ block middle, Reads c (.block block) middle ∧ middle.expect '\x7d' = .ok after ∧
          procedure = ⟨0, "main", [], none, block⟩ := by
  have isName : IsName "main" := by decide
  have whole : (start (Text.mainHead ++ body)).rest =
      "main".toList ++ ' ' :: '\x7b' :: '\n' :: body := rfl
  obtain ⟨there, named, after⟩ := name_spelled isName whole (.cons rfl)
  generalize same : start (Text.mainHead ++ body) = s at *
  have brace : s.name.2.skipBlanks.rest = '\x7b' :: '\n' :: body := by
    rw [skipBlanks_rest, after]
    rfl
  have listed : s.name.2.names = ([], s.name.2.skipBlanks) :=
    names_of_not_atName (atName_of_halts (halts_of_rest brace rfl))
  have remark : s.name.2.skipBlanks.signature = (none, s.name.2.skipBlanks) := by
    rw [signature, take?_of_halts (halts_of_rest brace rfl)]
  have stays : s.name.2.skipBlanks.skipSpace = s.name.2.skipBlanks :=
    skipWhile_of_halts (halts_of_rest brace rfl)
  have feed := advance_of_rest brace
  have line : s.name.2.skipBlanks.advance.skipBlanks.skipLineFeed.rest = body := by
    rw [skipBlanks_of_rest feed rfl, skipLineFeed, if_pos (peek?_of_rest feed),
      advance_of_rest feed]
  have zero : s.offset = 0 := by rw [← same]; rfl
  refine ⟨_, line, ?_, fun procedure last => ⟨fun reads => ?_, ?_⟩⟩
  · obtain ⟨before, stands, length⟩ := s.name.2.skipBlanks.advance.skipBlanks.skipLineFeed.stands
    rw [line] at stands
    rw [← length, List.append_cancel_right stands]
    rfl
  · cases reads with
    | declaration _ first =>
        rw [listed, remark] at first
        dsimp only at first
        rw [stays] at first
        cases first with
        | bracedBlock opened first closed =>
            obtain ⟨_, rfl⟩ := expect_eq_ok.mp opened
            refine ⟨_, _, first, closed, ?_⟩
            rw [listed, remark, named, zero]
  · rintro ⟨block, middle, first, closed, rfl⟩
    have braced : Reads s.name.2.names.2.signature.2.skipSpace (.bracedBlock block) last := by
      rw [listed, remark]
      dsimp only
      rw [stays]
      exact .bracedBlock (expect_eq_ok.mpr ⟨peek?_of_rest brace, rfl⟩) first closed
    have reads := Reads.declaration there braced
    rwa [listed, remark, named, zero] at reads

/-- The text with a head before it and a brace behind it, on lines of their own. -/
def Text.nested (text : String) : String := "main \x7b\n" ++ text ++ "\n\x7d"

theorem Text.nested_toList (text : String) :
    (nested text).toList = mainHead ++ (text.toList ++ ['\n', '\x7d']) := by
  rw [nested, String.toList_append, String.toList_append, List.append_assoc]
  rfl

/-- A text that begins with a name and spells one procedure spells the same procedure in a block, or
is refused there: where its head does not stand on one line, or a form feed follows outside of
comments. Besides it there are only remarks. -/
theorem Document.parse_nested {text : String} {procedure : Procedure}
    (begins : (Cursor.start text.toList).atName = true)
    (parsed : Document.parse text = .ok ⟨[procedure]⟩) :
    ∃ after, (Cursor.start text.toList).declaration (Cursor.start text.toList).bound =
        .ok (procedure, after) ∧
      ((∃ document, Document.parse (Text.nested text) = .ok document) ↔
        (Cursor.start text.toList).atDeclaration = true ∧ hasFormFeed false after.rest = false) ∧
      ∀ document, Document.parse (Text.nested text) = .ok document →
        ∃ remarks, (∀ statement ∈ remarks, statement.isRemark = true) ∧
          document = ⟨[⟨0, "main", [], none,
            .declaration 7 (procedure.moved 7) :: remarks⟩]⟩ := by
  obtain ⟨_, declares⟩ := parse_iff_declares.mp parsed
  cases declares with
  | @cons _ _ after _ declared behind =>
  rw [skipTrivia_of_atName begins] at declared
  have trivia : after.rest.length ≤ triviaLength false after.rest := by
    cases behind with
    | nil ended => exact List.drop_eq_nil_iff.mp ended
  obtain ⟨c, here, offset, head⟩ := reads_main (text.toList ++ ['\n', '\x7d'])
  have there : (Cursor.start (Text.mainHead ++ (text.toList ++ ['\n', '\x7d']))).atName = true :=
    rfl
  have twins : (Cursor.start text.toList).Twins 7 [] ['\n', '\x7d'] c :=
    ⟨offset, text.toList, (List.append_nil _).symm, here⟩
  have onward := declared.left_le
  obtain ⟨e, last⟩ := twins.reach (m := after) (by omega) (Nat.zero_le _)
  have nested := declared.again (.cons rfl) twins last trivial
  have names := declared.left_names
  have looks : c.atDeclaration = _ := twins.atDeclaration (Nat.zero_lt_of_lt names)
  have rest : e.rest = after.rest ++ ['\n', '\x7d'] := by
    obtain ⟨_, between, here, there⟩ := last
    rw [there, here, List.append_nil]
  have refused {document : Document} (parsed : Document.parse (Text.nested text) = .ok document) :
      (Cursor.start text.toList).atDeclaration = true ∧ hasFormFeed false after.rest = false := by
    obtain ⟨procedures⟩ := document
    obtain ⟨some, declares⟩ := parse_iff_declares.mp parsed
    rw [Text.nested_toList] at declares
    cases declares with
    | nil _ => exact absurd rfl some
    | cons main _ =>
        rw [skipTrivia_of_atName there] at main
        obtain ⟨block, middle, reads, _⟩ := (head _ _).mp main
        obtain ⟨declares, _, _, _, ended, others⟩ := nested.atDeclaration_of_block reads
        exact ⟨looks ▸ declares, hasFormFeed_of_statementEnd trivia rest ended others⟩
  have read (declares : (Cursor.start text.toList).atDeclaration = true)
      (none : hasFormFeed false after.rest = false) :
      ∃ remarks, (∀ statement ∈ remarks, statement.isRemark = true) ∧
        Document.parse (Text.nested text) = .ok ⟨[⟨0, "main", [], .none,
          .declaration 7 (procedure.moved 7) :: remarks⟩]⟩ := by
    obtain ⟨endings, next, others, middle, ended, reads, remarks, brace⟩ :=
      statementEnd_readsRemarks trivia rest none
    have block := nested.block_of_declaration (looks.trans declares) ended reads
    rw [offset] at block
    have main := (head _ _).mpr ⟨_, _, block, expect_of_rest brace, rfl⟩
    refine ⟨endings ++ others, remarks, parse_iff_declares.mpr ⟨List.cons_ne_nil _ _, ?_⟩⟩
    rw [Text.nested_toList]
    refine .cons ?_ (.nil (skipTrivia_of_end (advance_of_rest brace)))
    rw [skipTrivia_of_atName there]
    exact main
  refine ⟨after, declared.declaration_eq_ok, ⟨fun ⟨_, parsed⟩ => refused parsed, ?_⟩, ?_⟩
  · rintro ⟨declares, none⟩
    obtain ⟨_, _, parsed⟩ := read declares none
    exact ⟨_, parsed⟩
  · intro document parsed
    obtain ⟨declares, none⟩ := refused parsed
    obtain ⟨remarks, all, parsed'⟩ := read declares none
    exact ⟨remarks, all, Except.ok.inj (parsed.symm.trans parsed')⟩

/-- A head on one line, and remarks behind the block. -/
def Document.brew : String := "brew cup : tea\x7b\n  pour cup ; \n\x7d -- hot\n\n"

theorem Document.parse_nested_brew : ∃ procedure remarks, Document.parse brew = .ok ⟨[procedure]⟩ ∧
    (∀ statement ∈ remarks, statement.isRemark = true) ∧ Document.parse (Text.nested brew) =
      .ok ⟨[⟨0, "main", [], none, .declaration 7 (procedure.moved 7) :: remarks⟩]⟩ := by
  obtain ⟨procedure, parsed, last, read, behind⟩ : ∃ procedure,
      Document.parse brew = .ok ⟨[procedure]⟩ ∧ ∃ last,
        (Cursor.start brew.toList).declaration (Cursor.start brew.toList).bound =
          .ok (procedure, last) ∧ hasFormFeed false last.rest = false :=
    ⟨_, rfl, _, rfl, rfl⟩
  obtain ⟨after, same, accepted, only⟩ := Document.parse_nested rfl parsed
  cases read.symm.trans same
  obtain ⟨document, nested⟩ := accepted.mpr ⟨rfl, behind⟩
  obtain ⟨remarks, all, rfl⟩ := only document nested
  exact ⟨procedure, remarks, parsed, all, nested⟩

end Runbook
