import Runbook.Proofs.Syntax.Tokens

/-!
What is read has the tokens of its text.

The readers drop nothing and make nothing up: along every rule of the grammar the tokens of the text
that is passed are those of the tree, in order. A hole may have been written as a word, and a comma
may stand before the bracket that closes a tablet. The reader of targets also takes a comma before
the equality sign, which the tree does not keep.
-/
namespace Runbook

/-- What was written is what is meant, but for holes that are called `undefined` and for commas
right before one of the marks `closers`. -/
inductive Token.Matches (closers : List Char) : List Token → List Token → Prop
  | nil : Matches closers [] []
  | same {token written meant} : Matches closers written meant →
      Matches closers (token :: written) (token :: meant)
  | hole {written meant} : Matches closers written meant →
      Matches closers (.word "undefined" :: written) (.mark '?' :: meant)
  | comma {closer written meant} : closer ∈ closers → Matches closers written meant →
      Matches closers (.mark ',' :: .mark closer :: written) (.mark closer :: meant)

namespace Token.Matches

variable {closers : List Char} {written meant more others : List Token}

theorem refl (tokens : List Token) : Matches closers tokens tokens := by
  induction tokens with
  | nil => exact .nil
  | cons token tokens ih => exact .same ih

theorem append (first : Matches closers written meant) (rest : Matches closers more others) :
    Matches closers (written ++ more) (meant ++ others) := by
  induction first with
  | nil => exact rest
  | same _ ih => exact .same ih
  | hole _ ih => exact .hole ih
  | comma mem _ ih => exact .comma mem ih

/-- Where no comma stands before an equality sign, none is dropped there. -/
theorem strict (matched : Matches [']', '='] written meant)
    (kept : ¬[.mark ',', .mark '='] <:+: written) : Matches [']'] written meant := by
  induction matched with
  | nil => exact .nil
  | same _ ih => exact .same (ih fun within => kept (List.infix_cons within))
  | hole _ ih => exact .hole (ih fun within => kept (List.infix_cons within))
  | @comma closer written _ mem _ ih =>
      have rest := ih fun within => kept (List.infix_cons (List.infix_cons within))
      simp only [List.mem_cons, List.not_mem_nil, or_false] at mem
      rcases mem with rfl | rfl
      · exact .comma List.mem_cons_self rest
      · exact absurd ⟨[], written, rfl⟩ kept

end Token.Matches

namespace Cursor

variable {text : List Char} {c after : Cursor text} {depth : Nat} {made meant : List Token}

/-- The text between the two places writes the tokens. -/
def Writes (depth : Nat) (c : Cursor text) (meant : List Token) (after : Cursor text) : Prop :=
  ∃ written, Token.Matches [']', '='] written meant ∧ c.Makes depth written after

theorem Makes.writes (makes : c.Makes depth made after) : c.Writes depth made after :=
  ⟨made, .refl made, makes⟩

theorem Writes.trans {middle : Cursor text} {more : List Token}
    (first : c.Writes depth meant middle) (rest : middle.Writes depth more after) :
    c.Writes depth (meant ++ more) after := by
  obtain ⟨written, matched, makes⟩ := first
  obtain ⟨others, also, onward⟩ := rest
  exact ⟨written ++ others, matched.append also, makes.trans onward⟩

/-- Tokens that are made, and what is written behind them. -/
theorem Makes.then {middle : Cursor text} (first : c.Makes depth made middle)
    (rest : middle.Writes depth meant after) : c.Writes depth (made ++ meant) after :=
  first.writes.trans rest

theorem Writes.ends {last : Cursor text} (first : c.Writes depth meant after)
    (rest : after.Makes depth made last) : c.Writes depth (meant ++ made) last :=
  first.trans rest.writes

/-- A label and its sign. -/
theorem makes_label {label : Label} {labelled begun : Cursor text}
    (next : c.skipSpace.peek? = some '"') (quoted : c.skipSpace.string = .ok (label, labelled))
    (equal : labelled.skipSpace.expect '=' = .ok begun) :
    c.Makes depth [.string label, .mark '='] begun.skipSpace := by
  obtain ⟨sign, rfl⟩ := expect_eq_ok.mp equal
  refine (makes_skipSpace c).trans ((makes_string next quoted).trans ?_)
  exact (makes_skipSpace _).trans ((makes_mark sign (by decide)).trans (makes_skipSpace _))

/-- Braces, and what stands between them one level deeper. -/
theorem Writes.braced {inside middle : Cursor text} (opened : c.expect '\x7b' = .ok inside)
    (within : inside.Writes (depth + 1) meant middle) (closed : middle.expect '\x7d' = .ok after) :
    c.Writes depth (bracedTokens meant) after := by
  obtain ⟨written, matched, made⟩ := within
  obtain ⟨brace, rfl⟩ := expect_eq_ok.mp opened
  obtain ⟨rest, here⟩ := peek?_eq_some.mp brace
  obtain ⟨last, rfl⟩ := expect_eq_ok.mp closed
  obtain ⟨others, there⟩ := peek?_eq_some.mp last
  refine ⟨bracedTokens written, .same (matched.append (.refl _)), ?_⟩
  rw [Makes, advance_of_rest here, there, Text.tokens_close] at made
  rw [Makes, here, advance_of_rest there, Text.tokens_open, made, bracedTokens, List.cons_append,
    List.append_assoc]
  rfl

theorem targetsWithin_nil {bound : Nat} (none : c.targetsWithin bound = ([], after)) :
    after = c.skipBlanks := by
  cases bound with
  | zero =>
      cases none
      rfl
  | succ bound =>
      rw [targetsWithin] at none
      dsimp only at none
      split at none
      · split at none
        · cases none
        · cases none
      · cases none
        rfl

theorem namesTokens_cons (first : Identifier) {others : List Identifier} (some : others ≠ []) :
    namesTokens (first :: others) = .word first :: .mark ',' :: namesTokens others := by
  obtain ⟨second, others, rfl⟩ := List.exists_cons_of_ne_nil some
  rfl

/-- Targets and their sign, before which a comma may be dropped. -/
theorem writes_targetsWithin {bound : Nat} {names : List Identifier} {stop : Cursor text}
    (found : c.targetsWithin bound = (names, stop)) (some : names ≠ [])
    (equal : stop.take? '=' = .some after) :
    c.Writes depth (namesTokens names ++ [.mark '=']) after := by
  induction bound generalizing c names with
  | zero =>
      cases found
      exact absurd rfl some
  | succ bound ih =>
      obtain ⟨sign, rfl⟩ := take?_eq_some.mp equal
      rw [targetsWithin] at found
      dsimp only at found
      split at found
      · rename_i there
        have name : c.Makes depth [.word c.skipBlanks.name.1] c.skipBlanks.name.2.skipBlanks :=
          (makes_skipBlanks c).trans ((makes_name there).trans (makes_skipBlanks _))
        split at found
        · rename_i next taken
          obtain ⟨comma, rfl⟩ := take?_eq_some.mp taken
          cases others : targetsWithin bound c.skipBlanks.name.2.skipBlanks.advance with
          | mk more last =>
              rw [others] at found
              cases found
              cases more with
              | nil =>
                  have stays := targetsWithin_nil others
                  subst stays
                  refine name.then ⟨_, .comma (by decide) .nil, ?_⟩
                  exact (makes_mark comma (by decide)).trans
                    ((makes_skipBlanks _).trans (makes_mark sign (by decide)))
              | cons second more =>
                  have rest := ih others (List.cons_ne_nil _ _)
                  rw [namesTokens_cons _ (List.cons_ne_nil second more)]
                  exact name.then ((makes_mark comma (by decide)).then rest)
        · cases found
          exact name.then (makes_mark sign (by decide)).writes
      · cases found
        exact absurd rfl some

theorem writes_targets? {targets : List Identifier} (found : c.targets? = some (targets, after)) :
    c.Writes depth (namesTokens targets ++ [.mark '=']) after := by
  rw [targets?] at found
  split at found
  · cases found
  · rename_i names stop some within
    obtain ⟨last, equal, same⟩ := Option.map_eq_some_iff.mp found
    cases same
    exact writes_targetsWithin within (fun none => some none) equal

end Cursor

open Cursor

/-- The text between the two places writes the tokens of the phrase; the operand and the setting are
written before. -/
def Phrase.Writes {text : List Char} (depth : Nat) (c after : Cursor text) : Phrase → Prop
  | .expression value | .term value | .named value => c.Writes depth value.tokens after
  | .operations _ left value =>
    ∃ more, value.tokens = left.tokens ++ more ∧ c.Writes depth more after
  | .fields value => c.Writes depth (fieldsTokens value) after
  | .restriction _ setting value =>
    ∃ more, value.tokens = setting.tokens ++ more ∧ c.Writes depth more after
  | .bracedBlock value => c.Writes depth (bracedTokens (blockTokens value)) after
  | .block value => c.Writes (depth + 1) (blockTokens value) after
  | .statement value => c.Writes (depth + 1) value.tokens after
  | .declaration value => c.Writes depth value.tokens after

/-- All that is read has the tokens of its text. -/
theorem Reads.writes {text : List Char} {c after : Cursor text} {phrase : Phrase}
    (reads : Reads c phrase after) : ∀ depth, phrase.Writes depth c after := by
  induction reads with
  | expression _ _ first rest =>
      intro depth
      obtain ⟨more, same, rest⟩ := rest depth
      rw [Phrase.Writes, same]
      exact (first depth).trans rest
  | last _ => exact fun depth => ⟨[], (List.append_nil _).symm, (makes_skipBlanks _).writes⟩
  | @operator c operator right _ _ left _ _ found _ _ first rest =>
      intro depth
      obtain ⟨more, same, rest⟩ := rest depth
      refine ⟨.mark operator.sign :: (right.tokens ++ more), ?_, ?_⟩
      · rw [same, Expression.tokens, List.append_assoc]
        rfl
      · exact (makes_skipBlanks c).then ((makes_operator found).then ((first depth).trans rest))
  | @unit c after next taken =>
      intro depth
      obtain ⟨closing, rfl⟩ := take?_eq_some.mp taken
      refine (makes_skipBlanks c).then ((makes_mark next (by decide)).then ?_)
      exact ((makes_skipBlanks _).trans (makes_mark closing (by decide))).writes
  | @grouping c inner middle after next _ _ closed ih =>
      intro depth
      obtain ⟨closing, rfl⟩ := expect_eq_ok.mp closed
      refine (makes_skipBlanks c).then ((makes_mark next (by decide)).then ?_)
      refine (makes_skipBlanks _).then ((ih depth).ends ?_)
      exact (makes_skipBlanks middle).trans (makes_mark closing (by decide))
  | @string c _ _ next read =>
      exact fun depth => ((makes_skipBlanks c).trans (makes_string next read)).writes
  | @tablet c _ _ next _ ih =>
      intro depth
      exact (makes_skipBlanks c).then ((makes_mark next (by decide)).then (ih depth))
  | @hole c next =>
      exact fun depth => ((makes_skipBlanks c).trans (makes_mark next (by decide))).writes
  | @inherited c _ _ _ next taken _ ih =>
      intro depth
      obtain ⟨more, same, rest⟩ := ih depth
      obtain ⟨star, rfl⟩ := take?_eq_some.mp taken
      rw [Phrase.Writes, same]
      refine (makes_skipBlanks c).then ((makes_mark next (by decide)).then ?_)
      exact (makes_mark star (by decide)).then rest
  | @role c _ _ _ _ next _ named _ ih | @place c _ _ _ _ next named _ ih =>
      intro depth
      obtain ⟨more, same, rest⟩ := ih depth
      obtain ⟨there, exact⟩ := identifier_eq_ok.mp named
      cases exact
      rw [Phrase.Writes, same]
      refine (makes_skipBlanks c).then ((makes_mark next (by decide)).then ?_)
      exact (makes_name there).then rest
  | @amount c _ _ _ next digit read =>
      intro depth
      exact ((makes_skipBlanks c).trans (makes_amount next digit read)).writes
  | @name c _ _ _ _ ih => exact fun depth => (makes_skipBlanks c).then (ih depth)
  | @undefined c there same =>
      intro depth
      have word : c.Makes depth _ _ := makes_name there
      rw [same] at word
      exact ⟨_, .hole .nil, word⟩
  | application there _ _ _ ih =>
      intro depth
      exact (makes_name there).then ((makes_skipBlanks _).then (ih depth))
  | reference there _ _ =>
      intro depth
      refine (makes_name there).then ((makes_skipBlanks _).then ?_)
      exact (makes_commaNamesWithin _ _).writes
  | @noField c _ taken =>
      intro depth
      obtain ⟨closing, rfl⟩ := take?_eq_some.mp taken
      exact ((makes_skipSpace c).trans (makes_mark closing (by decide))).writes
  | @field c label _ _ value middle next others after _ quote quoted equal _ comma more first
      rest =>
      intro depth
      obtain ⟨mark, rfl⟩ := take?_eq_some.mp comma
      rw [Phrase.Writes, fieldsTokens]
      refine (makes_label quote quoted equal).then ((first depth).trans ?_)
      refine (makes_skipSpace middle).then ?_
      cases more with
      | noField closed =>
          obtain ⟨closing, rfl⟩ := take?_eq_some.mp closed
          refine ⟨_, .comma (by decide) .nil, (makes_mark mark (by decide)).trans ?_⟩
          exact (makes_skipSpace _).trans (makes_mark closing (by decide))
      | field => exact (makes_mark mark (by decide)).then (rest depth)
      | lastField => exact (makes_mark mark (by decide)).then (rest depth)
  | @lastField c label _ _ value middle after _ quote quoted equal _ _ closed ih =>
      intro depth
      obtain ⟨closing, rfl⟩ := take?_eq_some.mp closed
      rw [Phrase.Writes, fieldsTokens]
      refine (makes_label quote quoted equal).then ((ih depth).ends ?_)
      exact (makes_skipSpace middle).trans (makes_mark closing (by decide))
  | @restriction c _ setting block _ _ ih =>
      exact fun depth => ⟨_, rfl, (makes_skipSpace c).then (ih depth)⟩
  | bracedBlock opened _ closed ih =>
      intro depth
      refine Writes.braced opened ?_ closed
      exact (makes_skipBlanks _).then ((makes_skipLineFeed _).then (ih depth))
  | noStatement _ => exact fun depth => (makes_skipBlanks _).writes
  | @blank c _ _ next _ ih =>
      intro depth
      exact (makes_skipBlanks c).then ((makes_feed next).then (ih depth))
  | @comment c _ _ begins _ ih =>
      exact fun depth => (makes_skipBlanks c).then ((makes_comment begins).then (ih depth))
  | @nextStatement c _ _ _ _ _ _ _ _ _ _ _ _ ended _ first rest =>
      intro depth
      rw [Phrase.Writes, List.cons_append, blockTokens, blockTokens_append]
      refine (makes_skipBlanks c).then ((first depth).trans ?_)
      exact (makes_statementEnd ended).then (rest depth)
  | @assignment _ _ middle _ _ found _ ih =>
      intro depth
      rw [Phrase.Writes, Statement.tokens, List.append_cons]
      exact (writes_targets? found).trans ((makes_skipBlanks middle).then (ih (depth + 1)))
  | procedure _ _ _ ih => exact fun depth => ih (depth + 1)
  | execute _ _ _ ih => exact fun depth => ih (depth + 1)
  | @declaration c _ _ there _ ih =>
      intro depth
      refine (makes_name there).then ((makes_namesWithin _ c.name.2).then ?_)
      exact (makes_signature _).then ((makes_skipSpace _).then (ih depth))

theorem Cursor.makes_skipTrivia {text : List Char} (c : Cursor text) : c.Makes 0 [] c.skipTrivia :=
  (Text.tokens_triviaLength false c.rest).symm

/-- The tokens of the procedures are those of the text, up to its end. -/
theorem Cursor.proceduresWithin_writes {text : List Char} (limit : Nat) {c : Cursor text}
    {procedures : List Procedure} (read : c.proceduresWithin limit = .ok procedures) :
    Token.Matches [']', '='] (Text.tokens 0 c.rest) (procedures.flatMap Procedure.tokens) := by
  induction limit generalizing c procedures with
  | zero => cases read
  | succ limit ih =>
      have trivia := makes_skipTrivia c
      rw [Makes, List.nil_append] at trivia
      rw [proceduresWithin] at read
      dsimp only at read
      rw [trivia]
      split at read
      · rename_i ended
        cases read
        rw [List.isEmpty_iff.mp ended, Text.tokens]
        exact .nil
      · rw [Reading.bind_eq_ok] at read
        obtain ⟨⟨first, after⟩, head, read⟩ := read
        rw [Reading.bind_eq_ok] at read
        obtain ⟨others, tail, same⟩ := read
        cases same
        obtain ⟨written, matched, made⟩ := (declaration_reads _ head).writes 0
        rw [made, List.flatMap_cons]
        exact matched.append (ih tail)

/-- The tokens of a document are those of any text that it is read from. -/
theorem Document.matches_tokens {text : String} {document : Document}
    (parsed : Document.parse text = .ok document) :
    Token.Matches [']', '='] (Text.tokens 0 text.toList) document.tokens := by
  rw [Document.parse_eq_ok, Document.read, Reading.bind_eq_ok] at parsed
  obtain ⟨procedures, read, same⟩ := parsed
  have matched := proceduresWithin_writes _ read
  split at same
  · cases same
  · cases same
    exact matched

/-- A document's own text has the same tokens as any text that it is read from, in order, but for
holes that are called `undefined`, for a comma before the bracket that closes a tablet, and for one
that the reader of targets takes before an equality sign. -/
theorem Document.parse_tokens {text : String} {document : Document}
    (parsed : Document.parse text = .ok document) :
    Token.Matches [']', '='] (Text.tokens 0 text.toList)
      (Text.tokens 0 document.spell.toList) ∧
    (¬[.mark ',', .mark '='] <:+: Text.tokens 0 text.toList →
      Token.Matches [']'] (Text.tokens 0 text.toList) (Text.tokens 0 document.spell.toList)) := by
  rw [tokens_spell (parse_printable parsed)]
  have matched := matches_tokens parsed
  exact ⟨matched, matched.strict⟩

/-- A comment outside of braces, an empty remark, zeros before a number, a hole by its name and a
comma before a bracket. -/
def Document.soaking : String :=
  "-- tea\nmain :\n\x7b\n  a , b = (007min) & undefined -- soak\n  mix [\"x\" = a,\n]\n\x7d"

def Document.soakingTokens : List Token := [.word "main", .mark '\x7b', .word "a", .mark ',',
  .word "b", .mark '=', .mark '(', .number 7 "min", .mark ')', .mark '&', .word "undefined",
  .comment "soak", .word "mix", .mark '[', .string "x", .mark '=', .word "a", .mark ',',
  .mark ']', .mark '\x7d']

theorem Document.parse_tokens_soaking : ∃ document, Document.parse soaking = .ok document ∧
    Text.tokens 0 soaking.toList = soakingTokens ∧
    Token.Matches [']'] soakingTokens (Text.tokens 0 document.spell.toList) := by
  have written : Text.tokens 0 soaking.toList = soakingTokens := by decide +kernel
  refine ⟨_, rfl, written, ?_⟩
  have strict := (@Document.parse_tokens soaking _ rfl).2
  rw [written] at strict
  exact strict (by decide +kernel)

end Runbook
