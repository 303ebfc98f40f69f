import Runbook.Diagnostic.Render
import Runbook.Proofs.Syntax.Words
import Runbook.Proofs.Lowering.Refuses

/-!
A misuse is reported where it stands.

A document does not keep the places of the names in a list. They are found by searching the text,
and the search finds them: what is read has only blanks and commas between the names of a list, so
the first occurrence of a name behind the one before it is its own.
-/
namespace Runbook

open Cursor Lowering

/-- The names are the next words of the text from the offset on, and begin at the places. -/
def Text.ListsAt (text : List Char) (offset : Nat) (names : List Identifier) (places : List Nat) :
    Prop :=
  ∃ (c : Cursor text) (cursors : List (Cursor text)), c.offset = offset ∧ c.Lists names cursors ∧
    cursors.map Cursor.offset = places

/-- The text has the use at its offset, with its names at the places. -/
def Use.Stands (text : List Char) (places : List Nat) : Use → Prop
  | .applied offset name => places = [offset] ∧ Text.SpellsAt text offset name
  | .hole offset => places = [] ∧ Text.HoleAt text offset
  | .read offset names | .assigned offset names => Text.ListsAt text offset names places
  | .header offset name parameters =>
    Text.SpellsAt text offset name ∧ Text.ListsAt text (past offset name) parameters places
  | .declared procedures =>
    places = procedures.map Procedure.offset ∧
      ∀ procedure ∈ procedures, Text.SpellsAt text procedure.offset procedure.name

/-! Where names stand they are found. -/

section
variable {text : List Char} {primitives : List Identifier} {c d : Cursor text}

theorem Cursor.Parts.locate_name (parts : c.Parts d) (there : d.atName = true) :
    Context.locate ⟨text, primitives⟩ c.offset d.name.1 = d.offset := by
  obtain ⟨gap, between, separate⟩ := parts
  obtain ⟨first, rest, here, begins⟩ := atName_iff.mp there
  have inside := isNameChar_of_isNameStart begins
  have head : d.name.1.toList.head? = some first := by
    rw [name_toList, here, List.takeWhile_cons_of_pos inside]
    rfl
  have absent : first ∉ gap := by
    intro mem
    rw [not_isNameChar_of_isSeparator (separate first mem)] at inside
    cases inside
  have found := Text.find?_append head absent d.name.2.rest
  rw [name_toList, name_rest, List.takeWhile_append_dropWhile, between, ← name_toList] at found
  rw [Context.locate, dropBytes?_offset, Option.bind_some, found]
  exact (offset_of_passed between).symm

theorem Cursor.past_name (c : Cursor text) :
    Lowering.past c.offset c.name.1 = c.name.2.offset := by
  rw [Lowering.past, name_toList]
  rfl

theorem Cursor.Lists.places {names : List Identifier} {cursors : List (Cursor text)}
    (lists : c.Lists names cursors) :
    Context.places ⟨text, primitives⟩ c.offset names = cursors.map Cursor.offset := by
  induction lists with
  | nil => rfl
  | cons parts spells _ ih =>
      rw [Context.places, ← spells.same, parts.locate_name spells.there, past_name, ih,
        List.map_cons]

theorem Text.ListsAt.places {offset : Nat} {names : List Identifier} {places : List Nat}
    (lists : Text.ListsAt text offset names places) :
    Context.places ⟨text, primitives⟩ offset names = places := by
  obtain ⟨c, cursors, rfl, lists, rfl⟩ := lists
  exact lists.places

theorem Use.Stands.found {use : Use} {places : List Nat} (stands : use.Stands text places) :
    Context.found ⟨text, primitives⟩ use = places := by
  cases use with
  | applied offset name => exact stands.1.symm
  | hole offset => exact stands.1.symm
  | read offset names => exact stands.places
  | assigned offset targets => exact stands.places
  | header offset name parameters => exact stands.2.places
  | declared procedures => exact stands.1.symm

/-! What is wrong with a use is wrong at one of its names. -/

theorem Blames.spelled {bad : List Identifier → Identifier → Prop} {reason : Identifier → Reason}
    {names : List Identifier} {places : List Nat} {misuse : Misuse}
    (blames : Blames bad reason names places misuse)
    (stands : ∀ {index : Nat} {name : Identifier} {place : Nat}, names[index]? = some name →
      places[index]? = some place → Text.SpellsAt text place name) :
    ∃ name, misuse.reason = reason name ∧ Text.SpellsAt text misuse.offset name := by
  obtain ⟨index, name, place, named, found, _, rfl⟩ := blames
  exact ⟨name, rfl, stands named found⟩

theorem Text.ListsAt.spelled {offset : Nat} {names : List Identifier} {places : List Nat}
    (lists : Text.ListsAt text offset names places) {index : Nat} {name : Identifier} {place : Nat}
    (named : names[index]? = some name) (stands : places[index]? = some place) :
    Text.SpellsAt text place name := by
  obtain ⟨c, cursors, _, lists, rfl⟩ := lists
  rw [List.getElem?_map, Option.map_eq_some_iff] at stands
  obtain ⟨d, found, rfl⟩ := stands
  exact (lists.spells named found).spellsAt

/-- The misuse is of a name that stands at its place, or of a hole that does. -/
theorem Use.Wrong.stands {around : Vicinity} {use : Use} {places : List Nat} {misuse : Misuse}
    (wrong : use.Wrong primitives around places misuse) (stands : use.Stands text places) :
    (∃ name, misuse.reason.name? = some name ∧ misuse.reason.width = max name.length 1 ∧
      Text.SpellsAt text misuse.offset name) ∨
    misuse.reason = .hole ∧ Text.HoleAt text misuse.offset := by
  cases use with
  | applied offset name =>
      obtain ⟨_, rfl⟩ := wrong
      exact .inl ⟨name, rfl, rfl, stands.2⟩
  | hole offset =>
      obtain rfl := wrong
      exact .inr ⟨rfl, stands.2⟩
  | read offset names =>
      rw [Use.Wrong] at wrong
      obtain ⟨name, same, spelled⟩ := Blames.spelled wrong stands.spelled
      exact .inl ⟨name, by rw [same]; rfl, by rw [same]; rfl, spelled⟩
  | assigned offset targets =>
      rw [Use.Wrong] at wrong
      obtain ⟨name, same, spelled⟩ := Blames.spelled wrong stands.spelled
      exact .inl ⟨name, by rw [same]; rfl, by rw [same]; rfl, spelled⟩
  | header offset name parameters =>
      rw [Use.Wrong] at wrong
      obtain ⟨name, same, spelled⟩ := Blames.spelled wrong stands.2.spelled
      exact .inl ⟨name, by rw [same]; rfl, by rw [same]; rfl, spelled⟩
  | declared procedures =>
      rw [Use.Wrong] at wrong
      obtain ⟨rfl, spelled⟩ := stands
      obtain ⟨name, same, spelled⟩ := Blames.spelled wrong fun named found => by
        rw [List.getElem?_map, Option.map_eq_some_iff] at named found
        obtain ⟨procedure, here, rfl⟩ := named
        obtain ⟨other, there, rfl⟩ := found
        cases here.symm.trans there
        exact spelled procedure (List.mem_of_getElem? here)
      exact .inl ⟨name, by rw [same]; rfl, by rw [same]; rfl, spelled⟩

end

/-! What is read stands in the text. -/

/-- All of the uses stand in the text. -/
def UsesStand (text : List Char) (uses : List (Vicinity × Use)) : Prop :=
  ∀ entry ∈ uses, ∃ places, entry.2.Stands text places

section
variable {text : List Char} {uses others : List (Vicinity × Use)} {c after : Cursor text}

theorem UsesStand.nil : UsesStand text [] := nofun

theorem UsesStand.cons {around : Vicinity} {use : Use} {places : List Nat}
    (first : use.Stands text places) (rest : UsesStand text uses) :
    UsesStand text ((around, use) :: uses) :=
  List.forall_mem_cons.mpr ⟨⟨places, first⟩, rest⟩

theorem UsesStand.append (first : UsesStand text uses) (rest : UsesStand text others) :
    UsesStand text (uses ++ others) :=
  List.forall_mem_append.mpr ⟨first, rest⟩

/-- The procedures that stand in a block are declared where their headers stand. -/
theorem UsesStand.declared {around : Vicinity} {block : Block}
    (stand : UsesStand text (blockUses around block)) :
    (Use.declared (declarations block)).Stands text
      ((declarations block).map Procedure.offset) := by
  refine ⟨rfl, ?_⟩
  induction block generalizing around with
  | nil => exact nofun
  | cons statement block ih =>
      rw [blockUses] at stand
      obtain ⟨first, rest⟩ := List.forall_mem_append.mp stand
      cases statement with
      | declaration offset procedure =>
          obtain ⟨begin, name, parameters, signature, inside⟩ := procedure
          obtain ⟨_, header⟩ := first _ List.mem_cons_self
          exact List.forall_mem_cons.mpr ⟨header.1, ih rest⟩
      | assignment offset targets value => exact ih rest
      | execute offset value => exact ih rest
      | comment offset remark => exact ih rest
      | blank offset => exact ih rest
      | series offset => exact ih rest

theorem Cursor.uses_amount {value : Expression} (read : c.amount = .ok (value, after))
    (around : Vicinity) : value.uses around = [] := by
  rw [amount] at read
  split at read
  · dsimp only at read
    split at read
    · cases read
      rfl
    · cases read
      rfl
  · cases read

theorem Cursor.uses_statementEnd {endings others : List Statement}
    (ended : c.statementEnd = .ok (endings, after)) (around : Vicinity) :
    blockUses around (endings ++ others) = blockUses around others := by
  rw [statementEnd] at ended
  split at ended
  · cases ended
    rfl
  · split at ended
    · cases ended
      rfl
    · cases ended
      rfl
    · cases ended
      rfl
    · cases ended

/-- Can the phrase begin with a word? -/
def Phrase.BeginsWord : Phrase → Prop
  | .operations .. | .fields _ | .restriction .. | .bracedBlock _ => False
  | _ => True

/-- All uses in the phrase stand in the text. -/
def Phrase.Stands (text : List Char) : Phrase → Prop
  | .expression value | .term value | .named value | .restriction _ _ value =>
    ∀ around, UsesStand text (value.uses around)
  | .operations _ left value =>
    (∀ around, UsesStand text (left.uses around)) → ∀ around, UsesStand text (value.uses around)
  | .fields value => ∀ around, UsesStand text (fieldsUses around value)
  | .bracedBlock value | .block value => ∀ around, UsesStand text (blockUses around value)
  | .statement value => ∀ around, UsesStand text (value.uses around)
  | .declaration value => ∀ procedures, UsesStand text (value.uses procedures)

/-- What is read from between two words on has its uses where they stand. -/
theorem Reads.stands {phrase : Phrase} (reads : Reads c phrase after) :
    (phrase.BeginsWord → c.Apart) → phrase.Stands text := by
  induction reads with
  | expression _ _ first rest => exact fun apart => rest nofun (first apart)
  | last _ => exact fun _ => id
  | operator found _ _ first rest =>
      intro _ left
      refine rest nofun fun around => ?_
      exact (left around).append (first (fun _ => .operator found) around)
  | unit _ _ => exact fun _ _ => .nil
  | grouping next _ _ _ ih =>
      exact fun _ => ih fun _ => .skipBlanks (.advance next (by decide))
  | string _ _ => exact fun _ _ => .nil
  | tablet _ _ ih => exact fun _ => ih nofun
  | hole next => exact fun _ _ => .cons ⟨rfl, holeAt_of_peek? next⟩ .nil
  | inherited _ _ _ ih => exact fun _ => ih nofun
  | role _ _ _ _ ih => exact fun _ => ih nofun
  | place _ _ _ ih => exact fun _ => ih nofun
  | amount _ _ read =>
      intro _ around
      rw [uses_amount read]
      exact .nil
  | name _ _ ih => exact fun apart => ih fun _ => (apart ⟨⟩).skipBlanks
  | undefined there same =>
      intro apart around
      exact .cons ⟨rfl, .inr (Spells.spellsAt ⟨there, same, apart ⟨⟩⟩)⟩ .nil
  | application there _ _ _ ih =>
      intro apart around
      have spells : Spells _ _ := ⟨there, rfl, apart ⟨⟩⟩
      exact .cons ⟨rfl, spells.spellsAt⟩ (ih (fun _ => .skipBlanks (.name _)) around)
  | @reference c there _ _ =>
      intro apart around
      obtain ⟨cursors, others⟩ :=
        lists_commaNamesWithin c.name.2.skipBlanks.rest.length (Apart.name c).skipBlanks
      have lists := Lists.cons (.refl c) ⟨there, rfl, apart ⟨⟩⟩ (others.before (.skipBlanks _))
      exact .cons ⟨c, _, rfl, lists, rfl⟩ .nil
  | noField _ => exact fun _ _ => .nil
  | field _ _ _ equal _ _ _ first rest =>
      intro _ around
      exact (first (fun _ => .skipSpace (.expect equal (by decide))) around).append
        (rest nofun around)
  | lastField _ _ _ equal _ _ _ ih =>
      intro _ around
      exact (ih (fun _ => .skipSpace (.expect equal (by decide))) around).append .nil
  | @restriction c offset setting block after _ ih =>
      intro _ around
      have inside := ih nofun (around.enter block)
      exact .cons inside.declared inside
  | bracedBlock opened _ _ ih =>
      exact fun _ => ih fun _ => .skipLineFeed (.skipBlanks (.expect opened (by decide)))
  | noStatement _ => exact fun _ _ => .nil
  | blank next _ ih => exact fun _ => ih fun _ => .advance next (by decide)
  | comment _ _ ih => exact fun _ => ih fun _ => .comment _
  | @nextStatement c _ statement _ endings _ others _ _ _ _ _ _ ended _ first rest =>
      intro apart around
      change UsesStand text (statement.uses around ++
        blockUses (around.after statement) (endings ++ others))
      rw [uses_statementEnd ended]
      exact (first (fun _ => (apart ⟨⟩).skipBlanks) around).append
        (rest (fun _ => .statementEnd ended) _)
  | assignment found _ ih =>
      intro apart around
      obtain ⟨⟨cursors, lists⟩, after⟩ := lists_targets? (apart ⟨⟩) found
      exact .cons ⟨_, _, rfl, lists, rfl⟩ (ih (fun _ => after.skipBlanks) around)
  | procedure _ _ _ ih => exact fun apart around => ih apart around.procedures
  | execute _ _ _ ih => exact fun apart => ih apart
  | @declaration c block _ there _ ih =>
      intro apart procedures
      have spells : c.Spells c.name.1 := ⟨there, rfl, apart ⟨⟩⟩
      obtain ⟨cursors, lists⟩ := lists_namesWithin c.name.2.rest.length (Apart.name c)
      have inside := ih nofun ⟨c.name.2.names.1, [], declaredNames block ++ procedures⟩
      refine .cons ⟨spells.spellsAt, c.name.2, _, ?_, lists, rfl⟩ (.cons inside.declared inside)
      exact (past_name c).symm

theorem Reads.apart_of_declaration {procedure : Procedure}
    (reads : Reads c (.declaration procedure) after) : after.Apart := by
  cases reads with
  | declaration _ body =>
      cases body with
      | bracedBlock _ _ closed => exact .expect closed (by decide)

theorem Cursor.proceduresWithin_stand (limit : Nat) (apart : c.Apart) {procedures : List Procedure}
    (read : c.proceduresWithin limit = .ok procedures) :
    ∀ procedure ∈ procedures, ∀ names, UsesStand text (procedure.uses names) := by
  induction limit generalizing c procedures with
  | zero => cases read
  | succ limit ih =>
      rw [proceduresWithin] at read
      dsimp only at read
      split at read
      · cases read
        exact List.forall_mem_nil _
      · rw [Reading.bind_eq_ok] at read
        obtain ⟨⟨first, after⟩, head, read⟩ := read
        rw [Reading.bind_eq_ok] at read
        obtain ⟨others, tail, same⟩ := read
        cases same
        have reads := declaration_reads _ head
        exact List.forall_mem_cons.mpr
          ⟨reads.stands fun _ => apart.skipTrivia, ih reads.apart_of_declaration tail⟩

end

theorem Document.read_stand {text : String} {document : Document}
    (read : Document.read text = .ok document) :
    document.procedures ≠ [] ∧ UsesStand text.toList document.uses := by
  rw [Document.read, Reading.bind_eq_ok] at read
  obtain ⟨procedures, read, same⟩ := read
  have stand := proceduresWithin_stand _ .start read
  split at same
  · cases same
  · rename_i some
    cases same
    refine ⟨some, .cons ⟨rfl, ?_⟩ fun entry mem => ?_⟩
    · intro procedure mem
      obtain ⟨offset, name, parameters, signature, block⟩ := procedure
      obtain ⟨_, header⟩ := stand _ mem [] _ List.mem_cons_self
      exact header.1
    · obtain ⟨procedure, inside, mem⟩ := List.mem_flatMap.mp mem
      exact stand procedure inside _ entry mem

/-- The diagnostic is shown with `count` carets, the first below the character that it is at. -/
def Diagnostic.HasCarets (diagnostic : Diagnostic) (count : Nat) : Prop :=
  ∃ above, diagnostic.render =
    above ++ "\n" ++ String.ofList
        (List.replicate ((diagnostic.source.position diagnostic.offset).column - 1) ' ' ++
          List.replicate count '^')
      ++ "\n\n" ++ diagnostic.reason.message

/-- The diagnostic is about something that stands in the text at its offset, and is wrong there. -/
structure Diagnostic.Points (diagnostic : Diagnostic) (text : List Char)
    (primitives : List Identifier) (document : Document) : Prop where
  isSetUp : diagnostic.reason ≠ .invalidSetup
  inside : ∃ before ch rest, before ++ ch :: rest = text ∧
    Text.byteLength before = diagnostic.offset
  named : ∀ name, diagnostic.reason.name? = some name →
    Text.SpellsAt text diagnostic.offset name ∧ diagnostic.HasCarets name.length
  hole : diagnostic.reason = .hole → Text.HoleAt text diagnostic.offset
  wrong : ∃ around use places, (around, use) ∈ document.uses ∧ use.Stands text places ∧
    use.Wrong primitives around places ⟨diagnostic.offset, diagnostic.reason⟩

theorem Text.SpellsAt.inside {text : List Char} {offset : Nat} {word : Identifier}
    (spelled : Text.SpellsAt text offset word) :
    ∃ before ch rest, before ++ ch :: rest = text ∧ Text.byteLength before = offset := by
  obtain ⟨isName, before, after, whole, length, _⟩ := spelled
  obtain ⟨ch, letters, same, _⟩ := isName.cons
  rw [same] at whole
  exact ⟨before, ch, letters ++ after, whole, length⟩

theorem Text.HoleAt.inside {text : List Char} {offset : Nat} (hole : Text.HoleAt text offset) :
    ∃ before ch rest, before ++ ch :: rest = text ∧ Text.byteLength before = offset := by
  obtain ⟨before, rest, whole, length⟩ | spelled := hole
  · exact ⟨before, '?', rest, whole, length⟩
  · exact spelled.inside

theorem Text.SpellsAt.length_pos {text : List Char} {offset : Nat} {word : Identifier}
    (spelled : Text.SpellsAt text offset word) : 1 ≤ word.length := by
  obtain ⟨ch, letters, same, _⟩ := spelled.1.cons
  rw [← String.length_toList, same]
  exact Nat.le_add_left _ _

/-- Where a text that can be read does not compile, the diagnostic points at a name or a hole that
is wrong. -/
theorem Source.compile_points {source : Source} {primitives : List Identifier}
    {document : Document} {diagnostic : Diagnostic}
    (read : Document.read source.contents = .ok document)
    (failed : source.compile primitives = .error diagnostic) :
    diagnostic.source = source ∧
      diagnostic.Points source.contents.toList primitives document := by
  rw [Source.compile, read] at failed
  obtain ⟨some, stand⟩ := Document.read_stand read
  obtain ⟨same, around, use, mem, wrong⟩ := Document.compile_eq_error some failed
  obtain ⟨places, stands⟩ := stand _ mem
  rw [stands.found] at wrong
  refine ⟨same, ?_⟩
  obtain ⟨name, isNamed, width, spelled⟩ | ⟨isHole, holeAt⟩ := wrong.stands stands
  · refine ⟨?_, spelled.inside, ?_, ?_, around, use, places, mem, stands, wrong⟩
    · intro setUp
      rw [setUp] at isNamed
      cases isNamed
    · intro other also
      cases isNamed.symm.trans also
      rw [← Nat.max_eq_left spelled.length_pos]
      exact ⟨spelled, width ▸ ⟨_, rfl⟩⟩
    · intro isHole
      rw [isHole] at isNamed
      cases isNamed
  · have hole : diagnostic.reason = .hole := isHole
    refine ⟨?_, holeAt.inside, ?_, fun _ => holeAt, around, use, places, mem, stands, wrong⟩
    · rw [hole]
      exact nofun
    · rw [hole]
      exact nofun

/-- A list of two names, of which the second is unknown and a part of the first. -/
def Source.teapot : Source := ⟨"f \x7b\n teapot = 1\n teapot, tea\n\x7d", "f.tq"⟩

theorem Source.compile_points_teapot : ∃ document diagnostic,
    Document.read teapot.contents = .ok document ∧ teapot.compile [] = .error diagnostic ∧
    diagnostic = ⟨teapot, 25, .unknownVariable "tea"⟩ ∧
    diagnostic.Points teapot.contents.toList [] document := by
  have failed : teapot.compile [] = .error ⟨teapot, 25, .unknownVariable "tea"⟩ := by rfl
  exact ⟨_, _, rfl, failed, rfl, (Source.compile_points rfl failed).2⟩

end Runbook
