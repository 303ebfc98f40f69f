import Runbook.Proofs.Lowering.Points

/-!
Every piece of a document stands where its offset says.

The text begins there with what the piece is known by, nothing inside the piece stands before it,
and its parts stand one behind the other. A reader skips blanks before it notes an offset, so this holds
of an operation only because no expression is begun before a blank.
-/
namespace Runbook

/-- The place at which it begins. -/
def Expression.offset : Expression → Nat
  | .application offset _ _ | .unit offset | .text offset _ | .amount offset _ | .hole offset
  | .tablet offset _ | .reference offset _ | .operation offset _ _ _ | .grouping offset _
  | .restriction offset _ _ => offset

def Statement.offset : Statement → Nat
  | .assignment offset _ _ | .execute offset _ | .declaration offset _ | .comment offset _
  | .blank offset | .series offset => offset

/-- Whatever in a document has an offset. -/
inductive Piece where
  | expression (value : Expression)
  | statement (value : Statement)
  | procedure (value : Procedure)

namespace Piece

def offset : Piece → Nat
  | .expression value => value.offset
  | .statement value => value.offset
  | .procedure value => value.offset

/-- The pieces right below it, as they are written one after the other. -/
def parts : Piece → List Piece
  | .expression (.application _ _ argument) => [.expression argument]
  | .expression (.tablet _ fields) => fields.map fun field => .expression field.2
  | .expression (.operation _ _ left right) => [.expression left, .expression right]
  | .expression (.grouping _ inner) => [.expression inner]
  | .expression (.restriction _ _ block) => block.map .statement
  | .expression _ => []
  | .statement (.assignment _ _ value) => [.expression value]
  | .statement (.execute _ value) => [.expression value]
  | .statement (.declaration _ value) => [.procedure value]
  | .statement _ => []
  | .procedure value => value.block.map .statement

/-- The first is the second or stands somewhere below it. -/
inductive Within : Piece → Piece → Prop
  | self {piece : Piece} : Within piece piece
  | part {inner part piece : Piece} : part ∈ piece.parts → Within inner part → Within inner piece

end Piece

/-- The offset lies before a character of the text. -/
def Text.Boundary (text : List Char) (offset : Nat) : Prop :=
  ∃ before ch rest, before ++ ch :: rest = text ∧ Text.byteLength before = offset

/-- The text goes on with the token from the offset on. -/
def Text.BeginsAt (text : List Char) (offset : Nat) (token : List Char) : Prop :=
  ∃ before after, before ++ (token ++ after) = text ∧ Text.byteLength before = offset

/-- The first of the names is the word at the offset. -/
def Text.HeadsAt (text : List Char) (offset : Nat) (names : List Identifier) : Prop :=
  ∃ first others, names = first :: others ∧ Text.SpellsAt text offset first

/-- The text has at the piece's offset what such a piece begins with: a token of its own, or the
piece that is its first part. -/
def Piece.Begins (text : List Char) : Piece → Prop
  | .expression (.application offset name _) => Text.SpellsAt text offset name
  | .expression (.unit offset) | .expression (.grouping offset _) => Text.BeginsAt text offset ['(']
  | .expression (.text offset _) => Text.BeginsAt text offset ['"']
  | .expression (.amount offset _) => ∃ digit, digit.isDigit ∧ Text.BeginsAt text offset [digit]
  | .expression (.hole offset) => Text.HoleAt text offset
  | .expression (.tablet offset _) => Text.BeginsAt text offset ['[']
  | .expression (.reference offset names) => Text.HeadsAt text offset names
  | .expression (.operation offset _ left _) => offset = left.offset
  | .expression (.restriction offset setting _) => Text.BeginsAt text offset setting.show.toList
  | .statement (.assignment offset targets _) => Text.HeadsAt text offset targets
  | .statement (.execute offset value) => offset = value.offset
  | .statement (.declaration offset value) => offset = value.offset
  | .statement (.comment offset _) => Text.BeginsAt text offset ['-', '-']
  | .statement (.blank offset) => Text.BeginsAt text offset ['\n']
  | .statement (.series offset) => Text.BeginsAt text offset [';']
  | .procedure value => Text.SpellsAt text value.offset value.name

/-- The piece stands in the text at its offset, before all that is inside it, and all that is inside
one of its parts stands before the parts that follow. -/
structure Piece.Placed (text : List Char) (piece : Piece) : Prop where
  inside : Text.Boundary text piece.offset
  begins : piece.Begins text
  first : ∀ inner : Piece, inner.Within piece → piece.offset ≤ inner.offset
  parted : piece.parts.Pairwise fun one other => ∀ inner : Piece,
    inner.Within one → inner.offset < other.offset

/-- The piece begins at `start`, and it is placed with all that is inside it, before `stop`. -/
structure Piece.Spans (text : List Char) (start stop : Nat) (piece : Piece) : Prop where
  starts : piece.offset = start
  placed : ∀ inner : Piece, inner.Within piece → inner.Placed text
  stops : ∀ inner : Piece, inner.Within piece → inner.offset < stop

/-- The pieces stand one behind the other between two places. -/
inductive Piece.Row (text : List Char) : Nat → Nat → List Piece → Prop
  | nil {low high : Nat} : low ≤ high → Row text low high []
  | cons {low high start stop : Nat} {piece : Piece} {pieces : List Piece} : low ≤ start →
      piece.Spans text start stop → Row text stop high pieces → Row text low high (piece :: pieces)

section
variable {text : List Char} {low high start stop : Nat} {piece : Piece} {pieces others : List Piece}

theorem Piece.Spans.mono (spans : piece.Spans text start stop) (onward : stop ≤ high) :
    piece.Spans text start high where
  starts := spans.starts
  placed := spans.placed
  stops inner within := Nat.lt_of_lt_of_le (spans.stops inner within) onward

theorem Piece.Spans.lt (spans : piece.Spans text start stop) : start < stop :=
  spans.starts ▸ spans.stops piece .self

namespace Piece.Row

theorem le (row : Row text low high pieces) : low ≤ high := by
  induction row with
  | nil onward => exact onward
  | cons onward spans _ ih => exact Nat.le_trans onward (Nat.le_trans (Nat.le_of_lt spans.lt) ih)

theorem from_le (row : Row text start high pieces) (onward : low ≤ start) :
    Row text low high pieces := by
  cases row with
  | nil le => exact .nil (Nat.le_trans onward le)
  | cons le spans rest => exact .cons (Nat.le_trans onward le) spans rest

theorem append (row : Row text low start pieces) (rest : Row text start high others) :
    Row text low high (pieces ++ others) := by
  induction row with
  | nil onward => exact rest.from_le onward
  | cons onward spans _ ih => exact .cons onward spans (ih rest)

theorem single (spans : piece.Spans text start stop) (onward : low ≤ start) :
    Row text low stop [piece] :=
  .cons onward spans (.nil (Nat.le_refl _))

theorem placed (row : Row text low high pieces) :
    ∀ part ∈ pieces, ∀ inner : Piece, inner.Within part → inner.Placed text := by
  induction row with
  | nil _ => exact List.forall_mem_nil _
  | cons _ spans _ ih => exact List.forall_mem_cons.mpr ⟨spans.placed, ih⟩

theorem stops (row : Row text low high pieces) :
    ∀ part ∈ pieces, ∀ inner : Piece, inner.Within part → inner.offset < high := by
  induction row with
  | nil _ => exact List.forall_mem_nil _
  | cons _ spans rest ih =>
      refine List.forall_mem_cons.mpr ⟨fun inner within => ?_, ih⟩
      exact Nat.lt_of_lt_of_le (spans.stops inner within) rest.le

theorem starts (row : Row text low high pieces) : ∀ part ∈ pieces, low ≤ part.offset := by
  induction row with
  | nil _ => exact List.forall_mem_nil _
  | cons onward spans _ ih =>
      refine List.forall_mem_cons.mpr ⟨spans.starts ▸ onward, fun part mem => ?_⟩
      exact Nat.le_trans (Nat.le_trans onward (Nat.le_of_lt spans.lt)) (ih part mem)

theorem parted (row : Row text low high pieces) :
    pieces.Pairwise fun one other => ∀ inner : Piece,
      inner.Within one → inner.offset < other.offset := by
  induction row with
  | nil _ => exact .nil
  | cons _ spans rest ih =>
      refine .cons (fun other mem inner within => ?_) ih
      exact Nat.lt_of_lt_of_le (spans.stops inner within) (rest.starts other mem)

/-- A piece spans what its own beginning and the row of its parts span. -/
theorem spans (piece : Piece) (row : Row text low high piece.parts)
    (inside : Text.Boundary text piece.offset) (begins : piece.Begins text)
    (onward : piece.offset ≤ low) (ends : piece.offset < high) :
    piece.Spans text piece.offset high where
  starts := rfl
  placed inner within := by
    cases within with
    | part mem within => exact row.placed _ mem inner within
    | self =>
        refine ⟨inside, begins, fun inner within => ?_, row.parted⟩
        cases within with
        | self => exact Nat.le_refl _
        | part mem within =>
            have later := (row.placed _ mem _ .self).first inner within
            exact Nat.le_trans onward (Nat.le_trans (row.starts _ mem) later)
  stops inner within := by
    cases within with
    | self => exact ends
    | part mem within => exact row.stops _ mem inner within

end Piece.Row

/-- A piece without parts spans its beginning. -/
theorem Piece.Spans.leaf (piece : Piece) (none : piece.parts = [])
    (inside : Text.Boundary text piece.offset) (begins : piece.Begins text)
    (ends : piece.offset < high) : piece.Spans text piece.offset high := by
  have row : Piece.Row text piece.offset high piece.parts := none ▸ .nil (Nat.le_of_lt ends)
  exact row.spans piece inside begins (Nat.le_refl _) ends

end

/-! Where the readers stand. -/

theorem Text.BeginsAt.inside {text : List Char} {offset : Nat} {ch : Char} {token : List Char}
    (begins : Text.BeginsAt text offset (ch :: token)) :
    Text.Boundary text offset := by
  obtain ⟨before, after, whole, length⟩ := begins
  exact ⟨before, ch, token ++ after, whole, length⟩

namespace Cursor

variable {text : List Char} {c d after : Cursor text}

theorem passed_of_left_le (onward : d.left ≤ c.left) : ∃ passed, passed ++ d.rest = c.rest := by
  obtain ⟨before, whole, _⟩ := c.stands
  obtain ⟨further, also, _⟩ := d.stands
  exact List.suffix_of_suffix_length_le ⟨further, also⟩ ⟨before, whole⟩ onward

/-- Where no more is left, the offset is no smaller. -/
theorem offset_le (onward : d.left ≤ c.left) : c.offset ≤ d.offset := by
  obtain ⟨passed, between⟩ := passed_of_left_le onward
  rw [offset_of_passed between]
  exact Nat.le_add_right _ _

theorem offset_lt (onward : d.left < c.left) : c.offset < d.offset := by
  obtain ⟨passed, between⟩ := passed_of_left_le (Nat.le_of_lt onward)
  rw [offset_of_passed between]
  cases passed with
  | nil =>
      rw [left, left, ← between] at onward
      exact absurd onward (Nat.lt_irrefl _)
  | cons ch passed =>
      have size := ch.utf8Size_pos
      rw [Text.byteLength_cons]
      omega

theorem beginsAt_of_rest {token rest : List Char} (here : c.rest = token ++ rest) :
    Text.BeginsAt text c.offset token := by
  obtain ⟨before, whole, length⟩ := c.stands
  exact ⟨before, rest, here ▸ whole, length⟩

theorem beginsAt_of_peek? {ch : Char} (next : c.peek? = some ch) :
    Text.BeginsAt text c.offset [ch] := by
  obtain ⟨rest, here⟩ := peek?_eq_some.mp next
  exact beginsAt_of_rest here

theorem beginsAt_of_atComment (begins : c.atComment = true) :
    Text.BeginsAt text c.offset ['-', '-'] := by
  rw [atComment, List.isPrefixOf_iff_prefix] at begins
  obtain ⟨rest, here⟩ := begins
  exact beginsAt_of_rest here.symm

/-- A sign and the name behind it. -/
theorem beginsAt_sign {ch : Char} {what : String} {name : Identifier} (next : c.peek? = some ch)
    (named : c.advance.identifier what = .ok (name, after)) :
    Text.BeginsAt text c.offset (ch :: name.toList) := by
  obtain ⟨_, same⟩ := identifier_eq_ok.mp named
  obtain ⟨rest, here⟩ := peek?_eq_some.mp next
  have word : name.toList = c.advance.rest.takeWhile isNameChar := by
    rw [← name_toList, ← same]
  have here : c.rest = (ch :: name.toList) ++ c.advance.name.2.rest := by
    rw [List.cons_append, word, name_rest, List.takeWhile_append_dropWhile, advance_rest, here,
      List.drop_one, List.tail_cons]
  exact beginsAt_of_rest here

theorem skipBlanks_skipSpace (c : Cursor text) : c.skipSpace.skipBlanks = c.skipSpace := by
  refine ext (Text.dropWhile_eq_self fun ch next => ?_)
  refine Bool.eq_false_iff.mpr fun blank => ?_
  have other : Text.isAsciiSpace ch = false := Text.head?_dropWhile next
  rw [isAsciiSpace_of_isBlank blank] at other
  cases other

/-- The targets begin with the name that stands behind the blanks. -/
theorem headsAt_targets? {targets : List Identifier} (apart : c.Apart)
    (found : c.targets? = some (targets, after)) :
    Text.HeadsAt text c.skipBlanks.offset targets := by
  rw [targets?] at found
  split at found
  · cases found
  · rename_i names last some read
    obtain ⟨next, _, same⟩ := Option.map_eq_some_iff.mp found
    cases same
    generalize c.rest.length = bound at read
    cases bound with
    | zero =>
        cases read
        exact absurd rfl some
    | succ bound =>
        rw [targetsWithin] at read
        dsimp only at read
        split at read
        · rename_i there
          have spells : c.skipBlanks.Spells c.skipBlanks.name.1 := ⟨there, rfl, apart.skipBlanks⟩
          split at read
          · cases read
            exact ⟨_, _, rfl, spells.spellsAt⟩
          · cases read
            exact ⟨_, _, rfl, spells.spellsAt⟩
        · cases read
          exact absurd rfl some

theorem amount_quantity {value : Expression} (read : c.amount = .ok (value, after)) :
    ∃ quantity, value = .amount c.offset quantity := by
  rw [amount] at read
  split at read
  · dsimp only at read
    split at read
    · cases read
      exact ⟨_, rfl⟩
    · cases read
      exact ⟨_, rfl⟩
  · cases read

theorem comment_spans (begins : c.atComment = true) :
    Piece.Spans text c.offset c.comment.2.offset (.statement c.comment.1) := by
  have here := beginsAt_of_atComment begins
  exact .leaf (.statement c.comment.1) rfl here.inside here (offset_lt (left_comment begins))

theorem statementEnd_row {endings : List Statement}
    (ended : c.statementEnd = .ok (endings, after)) :
    Piece.Row text c.offset after.offset (endings.map .statement) := by
  have blanks := offset_le (left_skipBlanks_le c)
  have onward := offset_le (left_statementEnd_le ended)
  rw [statementEnd] at ended
  split at ended
  · cases ended
    exact .single (comment_spans ‹_›) blanks
  · split at ended
    · cases ended
      exact .nil onward
    · rename_i next
      cases ended
      have here := beginsAt_of_peek? next
      have mark := left_advance next
      have more := left_skipBlanks_le c.skipBlanks.advance
      have feed := left_skipLineFeed_le c.skipBlanks.advance.skipBlanks
      have series := Piece.Spans.leaf (.statement (.series _)) rfl here.inside here
        (offset_lt (d := c.skipBlanks.advance.skipBlanks.skipLineFeed) (by omega))
      exact .single series blanks
    · cases ended
      exact .nil onward
    · cases ended

end Cursor

open Cursor

section
variable {text : List Char} {c after : Cursor text}

/-- What is read between two places spans what is between them, where it begins behind all blanks
and what it goes on with spans what is before. -/
def Phrase.Spans {text : List Char} (c after : Cursor text) : Phrase → Prop
  | .expression value =>
    c.skipBlanks = c → Piece.Spans text c.offset after.offset (.expression value)
  | .operations offset left value =>
    Piece.Spans text offset c.offset (.expression left) →
      Piece.Spans text offset after.offset (.expression value)
  | .term value => Piece.Spans text c.skipBlanks.offset after.offset (.expression value)
  | .named value => Piece.Spans text c.offset after.offset (.expression value)
  | .fields members =>
    Piece.Row text c.offset after.offset (members.map fun field => .expression field.2)
  | .restriction offset setting value =>
    Text.BeginsAt text offset setting.show.toList → offset < c.offset →
      Piece.Spans text offset after.offset (.expression value)
  | .bracedBlock value | .block value =>
    Piece.Row text c.offset after.offset (value.map .statement)
  | .statement value => c.skipBlanks = c → Piece.Spans text c.offset after.offset (.statement value)
  | .declaration value => Piece.Spans text c.offset after.offset (.procedure value)

theorem Reads.spans {phrase : Phrase} (reads : Reads c phrase after) :
    (phrase.BeginsWord → c.Apart) → phrase.Spans c after := by
  induction reads with
  | expression _ _ first rest =>
      intro apart behind
      have operand := first apart
      rw [Phrase.Spans, behind] at operand
      exact rest nofun operand
  | last _ => exact fun _ spans => spans.mono (offset_le (left_skipBlanks_le _))
  | @operator c _ _ middle _ left _ _ found reads _ first rest =>
      intro _ spans
      have operand := first fun _ => .operator found
      have blanks := left_skipBlanks_le c
      have sign := left_advance_le c.skipBlanks
      have more := left_skipBlanks_le c.skipBlanks.advance
      have onward := reads.left_le
      have begins : left.offset = _ := spans.starts
      refine rest nofun ?_
      have row : Piece.Row text left.offset middle.offset [.expression left, .expression _] :=
        .cons (Nat.le_of_eq begins) spans (.single operand (offset_le (by omega)))
      rw [← begins] at spans ⊢
      have later : left.offset < middle.offset :=
        Nat.lt_of_lt_of_le spans.lt (offset_le (by omega))
      exact row.spans (.expression (.operation left.offset _ left _))
        (spans.placed _ .self).inside rfl (Nat.le_refl _) later
  | @unit c after next taken =>
      intro _
      have here := beginsAt_of_peek? next
      have opened := left_advance next
      have inside := left_skipBlanks_le c.skipBlanks.advance
      have closed := left_take? taken
      exact .leaf (.expression (.unit _)) rfl here.inside here (offset_lt (by omega))
  | @grouping c inner middle after next _ reads closed ih =>
      intro _
      have here := beginsAt_of_peek? next
      have opened := left_advance next
      have more := left_skipBlanks_le c.skipBlanks.advance
      have onward := reads.left_le
      have blanks := left_skipBlanks_le middle
      have closed := left_expect closed
      have within := ih (fun _ => .skipBlanks (.advance next (by decide)))
        (skipBlanks_skipBlanks _)
      have row := Piece.Row.single (within.mono (offset_le (d := after) (by omega)))
        (offset_le (c := c.skipBlanks) (by omega))
      exact row.spans (.expression (.grouping _ _)) here.inside here (Nat.le_refl _)
        (offset_lt (by omega))
  | string next read =>
      intro _
      have here := beginsAt_of_peek? next
      exact .leaf (.expression (.text _ _)) rfl here.inside here (offset_lt (left_string next read))
  | @tablet c fields after next reads ih =>
      intro _
      have here := beginsAt_of_peek? next
      have opened := left_advance next
      have onward := reads.left_le
      exact (ih nofun).spans (.expression (.tablet _ _)) here.inside here
        (offset_le (Nat.le_of_lt opened)) (offset_lt (by omega))
  | hole next =>
      intro _
      have here := holeAt_of_peek? next
      exact .leaf (.expression (.hole _)) rfl here.inside here (offset_lt (left_advance next))
  | @inherited c middle _ _ next taken _ ih =>
      intro _
      obtain ⟨star, rfl⟩ := take?_eq_some.mp taken
      obtain ⟨rest, here⟩ := peek?_eq_some.mp next
      obtain ⟨others, there⟩ := peek?_eq_some.mp star
      rw [advance_rest, here, List.drop_one, List.tail_cons] at there
      have sign : c.skipBlanks.rest = ['@', '*'] ++ others := by rw [here, there]; rfl
      exact ih nofun (beginsAt_of_rest sign)
        (offset_lt (Nat.lt_trans (left_take? taken) (left_advance next)))
  | role next _ named _ ih =>
      intro _
      refine ih nofun ?_ (offset_lt (Nat.lt_of_le_of_lt (left_identifier_le named)
        (left_advance next)))
      rw [Setting.show, String.toList_append]
      exact beginsAt_sign next named
  | place next named _ ih =>
      intro _
      refine ih nofun ?_ (offset_lt (Nat.lt_of_le_of_lt (left_identifier_le named)
        (left_advance next)))
      rw [Setting.show, String.toList_append]
      exact beginsAt_sign next named
  | amount next digit read =>
      intro _
      have here := beginsAt_of_peek? next
      obtain ⟨quantity, rfl⟩ := amount_quantity read
      exact .leaf (.expression (.amount _ _)) rfl here.inside ⟨_, digit, here⟩
        (offset_lt (left_amount next digit read))
  | name _ _ ih => exact fun apart => ih fun _ => (apart ⟨⟩).skipBlanks
  | undefined there same =>
      intro apart
      have here : Text.SpellsAt text _ _ := Spells.spellsAt ⟨there, same, apart ⟨⟩⟩
      exact .leaf (.expression (.hole _)) rfl here.inside (.inr here) (offset_lt (left_name there))
  | @application c argument after there _ _ reads ih =>
      intro apart
      have spells : c.Spells c.name.1 := ⟨there, rfl, apart ⟨⟩⟩
      have here := spells.spellsAt
      have name := left_name there
      have blanks := left_skipBlanks_le c.name.2
      have onward := reads.left_le
      have within := ih fun _ => .skipBlanks (.name _)
      rw [Phrase.Spans, skipBlanks_skipBlanks] at within
      have row := Piece.Row.single within (offset_le (c := c) (by omega))
      exact row.spans (.expression (.application _ _ _)) here.inside here (Nat.le_refl _)
        (offset_lt (by omega))
  | @reference c there _ _ =>
      intro apart
      have spells : c.Spells c.name.1 := ⟨there, rfl, apart ⟨⟩⟩
      have here := spells.spellsAt
      have name := left_name there
      have blanks := left_skipBlanks_le c.name.2
      have others := left_commaNames_le c.name.2.skipBlanks
      exact .leaf (.expression (.reference _ _)) rfl here.inside ⟨_, _, rfl, here⟩
        (offset_lt (by omega))
  | noField taken =>
      intro _
      exact .nil (offset_le (Nat.le_trans (Nat.le_of_lt (left_take? taken)) (left_skipSpace_le _)))
  | @field c _ named begun value middle next others after _ label quoted equal reads comma _ first
      rest =>
      intro _
      have labelled := left_labelled label quoted equal
      have spaces := left_skipSpace_le middle
      have comma := left_take? comma
      have value := first (fun _ => .skipSpace (.expect equal (by decide)))
        (skipBlanks_skipSpace _)
      exact .cons (offset_le (by omega)) value ((rest nofun).from_le (offset_le (by omega)))
  | @lastField c _ named begun value middle after _ label quoted equal reads _ closed ih =>
      intro _
      have labelled := left_labelled label quoted equal
      have spaces := left_skipSpace_le middle
      have closed := left_take? closed
      have value := ih (fun _ => .skipSpace (.expect equal (by decide))) (skipBlanks_skipSpace _)
      exact .single (value.mono (offset_le (by omega))) (offset_le (by omega))
  | @restriction c offset setting block after reads ih =>
      intro _ begins later
      have onward := reads.left_le
      have spaces := left_skipSpace_le c
      have passed := offset_le (d := c.skipSpace) spaces
      obtain ⟨ch, others, same, _⟩ := setting.show_cons
      have inside : Text.Boundary text offset := by
        rw [same] at begins
        exact begins.inside
      exact (ih nofun).spans (.expression (.restriction _ _ _)) inside begins
        (Nat.le_trans (Nat.le_of_lt later) passed) (Nat.lt_of_lt_of_le later (offset_le (by omega)))
  | @bracedBlock c inside block middle after opened _ closed ih =>
      intro _
      have first := left_expect opened
      have blanks := left_skipBlanks_le inside
      have feed := left_skipLineFeed_le inside.skipBlanks
      have last := left_expect closed
      have row := ih fun _ => .skipLineFeed (.skipBlanks (.expect opened (by decide)))
      have tail : Piece.Row text middle.offset after.offset [] :=
        .nil (offset_le (Nat.le_of_lt last))
      have whole := (row.from_le (offset_le (c := c) (by omega))).append tail
      rwa [List.append_nil] at whole
  | noStatement _ => exact fun _ => .nil (offset_le (left_skipBlanks_le _))
  | blank next _ ih =>
      intro _
      have here := beginsAt_of_peek? next
      exact .cons (offset_le (left_skipBlanks_le _))
        (.leaf (.statement (.blank _)) rfl here.inside here (offset_lt (left_advance next)))
        (ih fun _ => .advance next (by decide))
  | comment begins _ ih =>
      exact fun _ => .cons (offset_le (left_skipBlanks_le _)) (comment_spans begins)
        (ih fun _ => .comment _)
  | nextStatement _ _ _ _ _ ended _ first rest =>
      intro apart
      have statement := first (fun _ => (apart ⟨⟩).skipBlanks) (skipBlanks_skipBlanks _)
      have row := (statementEnd_row ended).append (rest fun _ => .statementEnd ended)
      rw [Phrase.Spans, List.cons_append, List.map_cons, List.map_append]
      exact .cons (offset_le (left_skipBlanks_le _)) statement row
  | @assignment c targets middle value after found reads ih =>
      intro apart behind
      have heads := headsAt_targets? (apart ⟨⟩) found
      rw [behind] at heads
      have names := left_targets? found
      have blanks := left_skipBlanks_le middle
      have onward := reads.left_le
      obtain ⟨_, separate⟩ := lists_targets? (apart ⟨⟩) found
      have within := ih (fun _ => separate.skipBlanks) (skipBlanks_skipBlanks _)
      obtain ⟨first, others, same, spelled⟩ := heads
      have row := Piece.Row.single within (offset_le (c := c) (by omega))
      exact row.spans (.statement (.assignment _ _ _)) spelled.inside
        ⟨first, others, same, spelled⟩ (Nat.le_refl _) (offset_lt (by omega))
  | procedure _ _ _ ih =>
      intro apart _
      have within := ih apart
      have inside := (within.placed _ .self).inside
      rw [within.starts] at inside
      exact (Piece.Row.single within (Nat.le_refl _)).spans (.statement (.declaration _ _)) inside
        within.starts.symm (Nat.le_refl _) within.lt
  | execute _ _ _ ih =>
      intro apart behind
      have within := ih apart behind
      have inside := (within.placed _ .self).inside
      rw [within.starts] at inside
      exact (Piece.Row.single within (Nat.le_refl _)).spans (.statement (.execute _ _)) inside
        within.starts.symm (Nat.le_refl _) within.lt
  | @declaration c block after there reads ih =>
      intro apart
      have spells : c.Spells c.name.1 := ⟨there, rfl, apart ⟨⟩⟩
      have here := spells.spellsAt
      have heading := left_heading there
      have onward := reads.left_le
      exact (ih nofun).spans (.procedure ⟨c.offset, c.name.1, _, _, block⟩) here.inside here
        (offset_le (by omega)) (offset_lt (by omega))

theorem Cursor.proceduresWithin_row (limit : Nat) (apart : c.Apart) {procedures : List Procedure}
    (read : c.proceduresWithin limit = .ok procedures) :
    ∃ high, Piece.Row text c.offset high (procedures.map .procedure) := by
  induction limit generalizing c procedures with
  | zero => cases read
  | succ limit ih =>
      rw [proceduresWithin] at read
      dsimp only at read
      split at read
      · cases read
        exact ⟨_, .nil (Nat.le_refl _)⟩
      · rw [Reading.bind_eq_ok] at read
        obtain ⟨⟨first, after⟩, head, read⟩ := read
        rw [Reading.bind_eq_ok] at read
        obtain ⟨others, tail, same⟩ := read
        cases same
        have reads := declaration_reads _ head
        obtain ⟨high, row⟩ := ih reads.apart_of_declaration tail
        exact ⟨high, .cons (offset_le (left_skipTrivia_le c))
          (reads.spans fun _ => apart.skipTrivia) row⟩

end

/-- In what is read from a text all pieces are placed, and the procedures stand one behind the
other. -/
theorem Document.parse_places {text : String} {document : Document}
    (parsed : Document.parse text = .ok document) :
    (∀ procedure ∈ document.procedures, ∀ piece : Piece, piece.Within (.procedure procedure) →
      piece.Placed text.toList) ∧
    document.procedures.Pairwise fun one other => ∀ piece : Piece, piece.Within (.procedure one) →
      piece.offset < other.offset := by
  rw [Document.parse_eq_ok, Document.read, Reading.bind_eq_ok] at parsed
  obtain ⟨procedures, read, same⟩ := parsed
  obtain ⟨high, row⟩ := proceduresWithin_row _ .start read
  split at same
  · cases same
  · cases same
    have placed := row.placed
    have parted := row.parted
    rw [List.pairwise_map] at parted
    exact ⟨fun procedure mem => placed _ (List.mem_map_of_mem mem), parted⟩

/-- A list behind a comma, an operand in brackets, a setting and a comment behind a statement. -/
def Document.kettle : String :=
  "fill :\n\x7b\n  a , b = (1L) & ? ; @cook\x7b a,b \x7d -- hot\n\x7d\n" ++
    "serve c \x7b [\"cup\" = c] \x7d"

theorem Document.parse_places_kettle : ∃ document,
    Document.parse kettle = .ok document ∧
    document.procedures.map Procedure.offset = [0, 52] ∧
    ∀ procedure ∈ document.procedures, ∀ piece : Piece, piece.Within (.procedure procedure) →
      piece.Placed kettle.toList :=
  ⟨_, rfl, rfl, (Document.parse_places rfl).1⟩

end Runbook
