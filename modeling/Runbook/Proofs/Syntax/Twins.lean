import Runbook.Proofs.Syntax.Places
import Runbook.Proofs.Syntax.RoundTrip

/-!
Two texts that go on alike.

Two places in two texts are twins if the texts go on alike from them, up to what is still to come.
A reader that stays where they go on alike does the same in both. It looks one character ahead, but
for lists of names and for the look ahead that tells statements apart, so it matters what comes next
only where it stops.
-/
namespace Runbook

open Cursor

mutual

/-- The expression as many bytes further on. -/
def Expression.moved (shift : Nat) : Expression → Expression
  | .application offset name argument =>
    .application (offset + shift) name (argument.moved shift)
  | .unit offset => .unit (offset + shift)
  | .text offset text => .text (offset + shift) text
  | .amount offset quantity => .amount (offset + shift) quantity
  | .hole offset => .hole (offset + shift)
  | .tablet offset fields => .tablet (offset + shift) (movedFields shift fields)
  | .reference offset names => .reference (offset + shift) names
  | .operation offset operator left right =>
    .operation (offset + shift) operator (left.moved shift) (right.moved shift)
  | .grouping offset inner => .grouping (offset + shift) (inner.moved shift)
  | .restriction offset setting block =>
    .restriction (offset + shift) setting (movedBlock shift block)

def movedFields (shift : Nat) : List (Label × Expression) → List (Label × Expression)
  | [] => []
  | (label, value) :: fields => (label, value.moved shift) :: movedFields shift fields

def Statement.moved (shift : Nat) : Statement → Statement
  | .assignment offset targets value => .assignment (offset + shift) targets (value.moved shift)
  | .execute offset value => .execute (offset + shift) (value.moved shift)
  | .declaration offset procedure => .declaration (offset + shift) (procedure.moved shift)
  | .comment offset remark => .comment (offset + shift) remark
  | .blank offset => .blank (offset + shift)
  | .series offset => .series (offset + shift)

def movedBlock (shift : Nat) : List Statement → List Statement
  | [] => []
  | statement :: block => statement.moved shift :: movedBlock shift block

def Procedure.moved (shift : Nat) : Procedure → Procedure
  | ⟨offset, name, parameters, signature, block⟩ =>
    ⟨offset + shift, name, parameters, signature, movedBlock shift block⟩

end

theorem movedBlock_append (shift : Nat) (block others : List Statement) :
    movedBlock shift (block ++ others) = movedBlock shift block ++ movedBlock shift others := by
  induction block with
  | nil => rw [movedBlock]; rfl
  | cons statement block ih => rw [List.cons_append, movedBlock, movedBlock, ih, List.cons_append]

def Phrase.moved (shift : Nat) : Phrase → Phrase
  | .expression value => .expression (value.moved shift)
  | .operations offset left value =>
    .operations (offset + shift) (left.moved shift) (value.moved shift)
  | .term value => .term (value.moved shift)
  | .named value => .named (value.moved shift)
  | .fields value => .fields (movedFields shift value)
  | .restriction offset setting value =>
    .restriction (offset + shift) setting (value.moved shift)
  | .bracedBlock value => .bracedBlock (movedBlock shift value)
  | .block value => .block (movedBlock shift value)
  | .statement value => .statement (value.moved shift)
  | .declaration value => .declaration (value.moved shift)

/-- Two texts that begin alike are passed alike, if no more is passed and it ends there in both. -/
theorem dropWhile_alike {p : Char → Bool} {between old new : List Char}
    (inside : old.length ≤ ((between ++ old).dropWhile p).length)
    (halts : ((between ++ old).dropWhile p).length = old.length → Halts p new) :
    ∃ rest, (between ++ old).dropWhile p = rest ++ old ∧
      (between ++ new).dropWhile p = rest ++ new ∧
      (between ++ new).takeWhile p = (between ++ old).takeWhile p := by
  induction between with
  | nil =>
      have whole : old.dropWhile p = old := (List.dropWhile_suffix p).eq_of_length_le inside
      have ends := halts (congrArg List.length whole)
      have none : ∀ {cs : List Char}, cs.dropWhile p = cs → cs.takeWhile p = [] := by
        intro cs whole
        have pieces := @List.takeWhile_append_dropWhile _ p cs
        rwa [whole, List.append_left_eq_self] at pieces
      refine ⟨[], whole, Text.dropWhile_eq_self ends, ?_⟩
      exact (none (Text.dropWhile_eq_self ends)).trans (none whole).symm
  | cons ch between ih =>
      rw [List.cons_append] at inside halts ⊢
      cases passes : p ch with
      | true =>
          rw [List.dropWhile_cons_of_pos passes] at inside halts ⊢
          rw [List.cons_append, List.dropWhile_cons_of_pos passes,
            List.takeWhile_cons_of_pos passes, List.takeWhile_cons_of_pos passes]
          obtain ⟨rest, same, same', taken⟩ := ih inside halts
          exact ⟨rest, same, same', congrArg _ taken⟩
      | false =>
          have fails : ¬p ch = true := by rw [passes]; exact Bool.false_ne_true
          rw [List.cons_append, List.dropWhile_cons_of_neg fails,
            List.dropWhile_cons_of_neg fails, List.takeWhile_cons_of_neg fails,
            List.takeWhile_cons_of_neg fails]
          exact ⟨ch :: between, rfl, rfl, rfl⟩

namespace Cursor

variable {text other : List Char}

/-- No further name is taken where a term may end. -/
theorem commaNamesWithin_of_endsTerm {bound : Nat} {c : Cursor text} (ends : EndsTerm c.rest) :
    c.commaNamesWithin bound = ([], c) := by
  cases bound with
  | zero => rfl
  | succ bound =>
      rw [commaNamesWithin]
      split
      · rfl
      · rename_i next taken
        obtain ⟨comma, rfl⟩ := take?_eq_some.mp taken
        obtain ⟨others, here⟩ := peek?_eq_some.mp comma
        have nameless : Halts isNameStart c.advance.skipBlanks.rest := by
          rw [skipBlanks_rest, advance_of_rest here]
          exact ends.list others (by rw [here]; rfl)
        exact if_neg (Bool.eq_false_iff.mp (atName_of_halts nameless))

theorem skipWhile_of_taken {p : Char → Bool} {c : Cursor text} (none : c.taken p = []) :
    c.skipWhile p = c := by
  have pieces := @List.takeWhile_append_dropWhile _ p c.rest
  rw [← taken, none] at pieces
  exact ext pieces

/-- An amount ends with its letters. -/
theorem end_of_amount {c after : Cursor text} {value : Expression}
    (read : c.amount = .ok (value, after)) :
    (c.skipWhile Char.isDigit).skipWhile Char.isAlpha = after := by
  rw [amount] at read
  split at read
  · dsimp only at read
    split at read
    · rename_i none
      cases read
      exact skipWhile_of_taken none
    · cases read
      rfl
  · cases read

/-- The comment that begins here has a line feed behind it. -/
def EndsLine (c : Cursor text) : Prop :=
  (c.advance.advance.skipWhile isWithinLine).peek? = some '\n'

/-- Only the end of its text ends a comment otherwise. -/
theorem endsLine_of_more {c : Cursor text} (more : c.comment.2.rest ≠ []) : c.EndsLine := by
  change (c.advance.advance.skipWhile isWithinLine).skipLineFeed.rest ≠ [] at more
  rw [EndsLine]
  cases next : (c.advance.advance.skipWhile isWithinLine).peek? with
  | none =>
      rw [skipLineFeed, if_neg (by rw [next]; exact Option.some_ne_none _ |>.symm)] at more
      exact absurd (List.head?_eq_none_iff.mp next) more
  | some ch =>
      have within : isWithinLine ch = false := Text.head?_dropWhile next
      rw [isWithinLine, bne_eq_false_iff_eq] at within
      rw [within]

/-- From the two places on the texts go on alike, up to `old` in the one and `new` in the other. The
second stands as many bytes further on. -/
structure Twins (shift : Nat) (old new : List Char) (c : Cursor text) (d : Cursor other) :
    Prop where
  offset : d.offset = c.offset + shift
  alike : ∃ between, c.rest = between ++ old ∧ d.rest = between ++ new

namespace Twins

variable {shift : Nat} {old new : List Char} {c m : Cursor text} {d e : Cursor other}

theorem stop_le (twins : c.Twins shift old new d) : old.length ≤ c.left := by
  obtain ⟨_, between, here, _⟩ := twins
  rw [left, here, List.length_append]
  exact Nat.le_add_left _ _

theorem unique (twins : c.Twins shift old new d) (also : c.Twins shift old new e) : d = e := by
  obtain ⟨_, between, here, there⟩ := twins
  obtain ⟨_, passed, here', there'⟩ := also
  obtain rfl := List.append_cancel_right (here.symm.trans here')
  exact ext (there.trans there'.symm)

/-- Each place up to `old` has its twin. -/
theorem reach (twins : c.Twins shift old new d) (onward : m.left ≤ c.left)
    (inside : old.length ≤ m.left) : ∃ m' : Cursor other, m.Twins shift old new m' := by
  obtain ⟨offset, between, here, there⟩ := twins
  obtain ⟨passed, whole⟩ := passed_of_left_le onward
  obtain ⟨rest, same⟩ : ∃ rest, m.rest = rest ++ old := by
    have suffix : old <:+ c.rest := ⟨between, here.symm⟩
    obtain ⟨rest, same⟩ := List.suffix_of_suffix_length_le suffix ⟨passed, whole⟩ inside
    exact ⟨rest, same.symm⟩
  rw [same, here, ← List.append_assoc] at whole
  have pieces := List.append_cancel_right whole
  refine ⟨d.past passed (rest ++ new) ?_, ?_, rest, same, rfl⟩
  · rw [there, ← pieces, List.append_assoc]
  · have stands : passed ++ m.rest = c.rest := by rw [same, ← List.append_assoc, pieces, here]
    rw [past_offset, offset, offset_of_passed stands]
    omega

/-- At the stop the texts part. -/
theorem parted (twins : c.Twins shift old new d) (stop : c.left = old.length) :
    c.rest = old ∧ d.rest = new := by
  obtain ⟨_, between, here, there⟩ := twins
  rw [left, here, List.length_append] at stop
  obtain rfl : between = [] := List.length_eq_zero_iff.mp (by omega)
  exact ⟨here, there⟩

/-- Before the stop they go on with the same character. -/
theorem next (twins : c.Twins shift old new d) (before : old.length < c.left) :
    ∃ ch between, c.rest = ch :: (between ++ old) ∧ d.rest = ch :: (between ++ new) := by
  obtain ⟨_, between, here, there⟩ := twins
  cases between with
  | nil =>
      rw [left, here] at before
      exact absurd before (Nat.lt_irrefl _)
  | cons ch between => exact ⟨ch, between, here, there⟩

theorem peek? (twins : c.Twins shift old new d) (before : old.length < c.left) :
    d.peek? = c.peek? := by
  obtain ⟨ch, between, here, there⟩ := twins.next before
  rw [peek?_of_rest here, peek?_of_rest there]

theorem atName (twins : c.Twins shift old new d) (before : old.length < c.left) :
    d.atName = c.atName := by
  rw [Cursor.atName, Cursor.atName, twins.peek? before]

theorem advance (twins : c.Twins shift old new d) (before : old.length < c.left) :
    c.advance.Twins shift old new d.advance := by
  obtain ⟨ch, between, here, there⟩ := twins.next before
  have offsets : ∀ {text : List Char} (c : Cursor text), c.peek? = some ch →
      c.advance.offset = c.offset + ch.utf8Size := by
    intro text c next
    obtain ⟨rest, here⟩ := peek?_eq_some.mp next
    rw [Cursor.advance, past_offset, here]
    rfl
  refine ⟨?_, between, advance_of_rest here, advance_of_rest there⟩
  rw [offsets d (peek?_of_rest there), offsets c (peek?_of_rest here), twins.offset]
  omega

/-- What is passed ends at a place that has a twin, if it stops there in both texts. -/
theorem skipWhile {p : Char → Bool} (twins : c.Twins shift old new d)
    (inside : old.length ≤ (c.skipWhile p).left)
    (halts : (c.skipWhile p).left = old.length → Halts p new) :
    (c.skipWhile p).Twins shift old new (d.skipWhile p) ∧ d.taken p = c.taken p := by
  obtain ⟨offset, between, here, there⟩ := twins
  rw [left, skipWhile_rest, here] at inside halts
  obtain ⟨rest, same, same', taken⟩ := dropWhile_alike inside halts
  rw [← here, ← there] at taken
  refine ⟨⟨?_, rest, ?_, ?_⟩, taken⟩
  · have taken : d.taken p = c.taken p := taken
    rw [skipWhile_offset, skipWhile_offset, taken, offset]
    omega
  · rw [skipWhile_rest, here, same]
  · rw [skipWhile_rest, there, same']

/-- Where more is left no character need be known. -/
theorem skipWhile_of_lt {p : Char → Bool} (twins : c.Twins shift old new d)
    (before : old.length < (c.skipWhile p).left) :
    (c.skipWhile p).Twins shift old new (d.skipWhile p) :=
  (twins.skipWhile (Nat.le_of_lt before) fun stop => absurd stop (Nat.ne_of_gt before)).1

theorem skipBlanks (twins : c.Twins shift old new d) (blank : Halts Text.isBlank new)
    (inside : old.length ≤ c.skipBlanks.left) :
    c.skipBlanks.Twins shift old new d.skipBlanks := (twins.skipWhile inside fun _ => blank).1

theorem skipSpace (twins : c.Twins shift old new d) (inside : old.length ≤ c.skipSpace.left)
    (space : c.skipSpace.left = old.length → Halts Text.isAsciiSpace new) :
    c.skipSpace.Twins shift old new d.skipSpace := (twins.skipWhile inside space).1

theorem skipSpace_of_lt (twins : c.Twins shift old new d) (before : old.length < c.skipSpace.left) :
    c.skipSpace.Twins shift old new d.skipSpace := twins.skipWhile_of_lt before

theorem take? {ch : Char} (twins : c.Twins shift old new d) (before : old.length < c.left)
    (taken : c.take? ch = some m) : ∃ m', d.take? ch = some m' ∧ m.Twins shift old new m' := by
  obtain ⟨next, rfl⟩ := take?_eq_some.mp taken
  exact ⟨d.advance, take?_eq_some.mpr ⟨twins.peek? before ▸ next, rfl⟩, twins.advance before⟩

theorem take?_none {ch : Char} (twins : c.Twins shift old new d) (before : old.length < c.left)
    (other : c.take? ch = none) : d.take? ch = none := by
  rw [take?_eq_none] at other ⊢
  rwa [twins.peek? before]

theorem expect {ch : Char} (twins : c.Twins shift old new d) (before : old.length < c.left)
    (met : c.expect ch = .ok m) : ∃ m', d.expect ch = .ok m' ∧ m.Twins shift old new m' := by
  obtain ⟨next, rfl⟩ := expect_eq_ok.mp met
  exact ⟨d.advance, expect_eq_ok.mpr ⟨twins.peek? before ▸ next, rfl⟩, twins.advance before⟩

theorem skipLineFeed (twins : c.Twins shift old new d)
    (inside : old.length ≤ c.skipLineFeed.left)
    (feed : c.skipLineFeed.left = old.length → Halts Text.isAsciiSpace new) :
    c.skipLineFeed.Twins shift old new d.skipLineFeed := by
  by_cases next : c.peek? = some '\n'
  · have passes : c.skipLineFeed = c.advance := if_pos next
    have fewer := left_advance next
    rw [passes] at inside ⊢
    have also : d.skipLineFeed = d.advance := if_pos (by rwa [twins.peek? (by omega)])
    rw [also]
    exact twins.advance (by omega)
  · have stays : c.skipLineFeed = c := if_neg next
    rw [stays] at inside feed ⊢
    have also : d.skipLineFeed = d := by
      refine if_neg fun there => ?_
      rcases Nat.eq_or_lt_of_le inside with stop | before
      · have space : Text.isAsciiSpace '\n' = false := by
          refine feed stop.symm '\n' ?_
          rw [← (twins.parted stop.symm).2]
          exact there
        cases space
      · exact next (twins.peek? before ▸ there)
    rwa [also]

/-- A name whose end is a place with a twin. -/
theorem name (twins : c.Twins shift old new d) (inside : old.length ≤ c.name.2.left)
    (halts : c.name.2.left = old.length → Halts isNameChar new) :
    c.name.2.Twins shift old new d.name.2 ∧ d.name.1 = c.name.1 := by
  obtain ⟨after, taken⟩ := twins.skipWhile inside halts
  exact ⟨after, congrArg String.ofList taken⟩

theorem name_of_lt (twins : c.Twins shift old new d) (before : old.length < c.name.2.left) :
    c.name.2.Twins shift old new d.name.2 ∧ d.name.1 = c.name.1 :=
  twins.name (Nat.le_of_lt before) fun stop => absurd stop (Nat.ne_of_gt before)

theorem identifier {what : String} {named : Identifier} (twins : c.Twins shift old new d)
    (inside : old.length ≤ m.left) (halts : m.left = old.length → Halts isNameChar new)
    (found : c.identifier what = .ok (named, m)) :
    ∃ m', d.identifier what = .ok (named, m') ∧ m.Twins shift old new m' := by
  obtain ⟨there, same⟩ := identifier_eq_ok.mp found
  obtain rfl : m = c.name.2 := congrArg Prod.snd same
  obtain rfl : named = c.name.1 := congrArg Prod.fst same
  have onward := left_name there
  obtain ⟨after, alike⟩ := twins.name inside halts
  refine ⟨d.name.2, identifier_eq_ok.mpr ⟨?_, by rw [← alike]⟩, after⟩
  rwa [twins.atName (by omega)]

/-! Lists of names. -/

theorem namesWithin {bound : Nat} (twins : c.Twins shift old new d)
    (inside : old.length ≤ (c.namesWithin bound).2.left)
    (halts : (c.namesWithin bound).2.left = old.length →
      Halts Text.isBlank new ∧ Halts isNameChar new) :
    (c.namesWithin bound).2.Twins shift old new (d.namesWithin bound).2 ∧
      (d.namesWithin bound).1 = (c.namesWithin bound).1 := by
  induction bound generalizing c d with
  | zero => exact ⟨(twins.skipWhile inside fun stop => (halts stop).1).1, rfl⟩
  | succ bound ih =>
      rw [Cursor.namesWithin] at inside halts ⊢
      rw [Cursor.namesWithin]
      dsimp only at inside halts ⊢
      split at inside
      · rename_i there
        rw [if_pos there] at halts
        have others := left_namesWithin_le bound c.skipBlanks.name.2
        have fewer := left_name there
        dsimp only at inside halts
        have begun : c.skipBlanks.Twins shift old new d.skipBlanks :=
          twins.skipWhile_of_lt (by change _ < c.skipBlanks.left; omega)
        obtain ⟨after, same⟩ := begun.name (by omega) fun stop => (halts (by omega)).2
        obtain ⟨last, alike⟩ := ih after inside halts
        rw [if_pos there, if_pos (by rwa [begun.atName (by omega)])]
        exact ⟨last, by dsimp only; rw [alike, same]⟩
      · rename_i ended
        rw [if_neg ended] at halts
        have begun : c.skipBlanks.Twins shift old new d.skipBlanks :=
          (twins.skipWhile inside fun stop => (halts stop).1).1
        have also : ¬d.skipBlanks.atName = true := by
          rcases Nat.eq_or_lt_of_le inside with stop | before
          · have none : Halts isNameStart d.skipBlanks.rest :=
              (begun.parted stop.symm).2 ▸
                (halts stop.symm).2.mono fun _ => isNameChar_of_isNameStart
            exact Bool.eq_false_iff.mp (atName_of_halts none)
          · rwa [begun.atName before]
        rw [if_neg ended, if_neg also]
        exact ⟨begun, rfl⟩

theorem names (twins : c.Twins shift old new d) (inside : old.length ≤ c.names.2.left)
    (halts : c.names.2.left = old.length → Halts Text.isBlank new ∧ Halts isNameChar new) :
    c.names.2.Twins shift old new d.names.2 ∧ d.names.1 = c.names.1 := by
  rw [← (isUnbound c).names (c.left + d.left) (by omega)] at inside halts ⊢
  rw [← (isUnbound d).names (c.left + d.left) (by omega)]
  exact twins.namesWithin inside halts

theorem atDeclaration (twins : c.Twins shift old new d) (before : old.length < c.names.2.left) :
    d.atDeclaration = c.atDeclaration := by
  have onward := left_names_le c
  have listed := twins.names (Nat.le_of_lt before) fun stop => absurd stop (Nat.ne_of_gt before)
  rw [Cursor.atDeclaration, Cursor.atDeclaration, twins.atName (by omega), listed.1.peek? before]

theorem targetsWithin {bound : Nat} (twins : c.Twins shift old new d)
    (before : old.length < (c.targetsWithin bound).2.left) :
    (c.targetsWithin bound).2.Twins shift old new (d.targetsWithin bound).2 ∧
      (d.targetsWithin bound).1 = (c.targetsWithin bound).1 := by
  induction bound generalizing c d with
  | zero => exact ⟨twins.skipWhile_of_lt before, rfl⟩
  | succ bound ih =>
      rw [Cursor.targetsWithin] at before ⊢
      rw [Cursor.targetsWithin]
      dsimp only at before ⊢
      split at before
      · rename_i there
        have fewer := left_name there
        have blanks := left_skipBlanks_le c.skipBlanks.name.2
        split at before
        · rename_i next taken
          have comma := left_take? taken
          have others := left_targetsWithin_le bound next
          dsimp only at before
          have begun : c.skipBlanks.Twins shift old new d.skipBlanks :=
            twins.skipWhile_of_lt (by change _ < c.skipBlanks.left; omega)
          obtain ⟨after, same⟩ := begun.name_of_lt (by omega)
          have spaced : c.skipBlanks.name.2.skipBlanks.Twins shift old new
              d.skipBlanks.name.2.skipBlanks :=
            after.skipWhile_of_lt (by change _ < c.skipBlanks.name.2.skipBlanks.left; omega)
          obtain ⟨next', taken', onward⟩ := spaced.take? (by omega) taken
          obtain ⟨last, alike⟩ := ih onward before
          rw [if_pos there, if_pos (by rwa [begun.atName (by omega)]), taken']
          exact ⟨last, by dsimp only; rw [alike, same]⟩
        · rename_i none
          dsimp only at before
          have begun : c.skipBlanks.Twins shift old new d.skipBlanks :=
            twins.skipWhile_of_lt (by change _ < c.skipBlanks.left; omega)
          obtain ⟨after, same⟩ := begun.name_of_lt (by omega)
          have spaced : c.skipBlanks.name.2.skipBlanks.Twins shift old new
              d.skipBlanks.name.2.skipBlanks := after.skipWhile_of_lt before
          rw [if_pos there, if_pos (by rwa [begun.atName (by omega)]),
            spaced.take?_none before none]
          exact ⟨spaced, by dsimp only; rw [same]⟩
      · rename_i ended
        have begun : c.skipBlanks.Twins shift old new d.skipBlanks := twins.skipWhile_of_lt before
        rw [if_neg ended, if_neg (by rwa [begun.atName before])]
        exact ⟨begun, rfl⟩

theorem targets? {targets : List Identifier} (twins : c.Twins shift old new d)
    (found : c.targets? = some (targets, m)) (inside : old.length ≤ m.left) :
    ∃ m', d.targets? = some (targets, m') ∧ m.Twins shift old new m' := by
  rw [Cursor.targets?, ← left, ← (isUnbound c).targets (c.left + d.left) (by omega)] at found
  rw [Cursor.targets?, ← left, ← (isUnbound d).targets (c.left + d.left) (by omega)]
  split at found
  · cases found
  · rename_i listed after some within
    obtain ⟨last, taken, same⟩ := Option.map_eq_some_iff.mp found
    cases same
    have equal := left_take? taken
    have before : old.length < (c.targetsWithin (c.left + d.left)).2.left := by
      rw [within]
      exact Nat.lt_of_le_of_lt inside equal
    obtain ⟨onward, alike⟩ := twins.targetsWithin before
    rw [within] at onward alike before
    obtain ⟨last', taken', twins⟩ := onward.take? before taken
    rw [← Prod.eta (d.targetsWithin _), alike]
    refine ⟨last', ?_, twins⟩
    split
    · rename_i none
      exact absurd (congrArg Prod.fst none) some
    · rename_i same
      cases same
      exact Option.map_eq_some_iff.mpr ⟨last', taken', rfl⟩

theorem commaNamesWithin {bound : Nat} {listed : List Identifier}
    (twins : c.Twins shift old new d) (blank : Halts Text.isBlank new)
    (last : m.Twins shift old new e) (ends : EndsTerm e.rest)
    (read : c.commaNamesWithin bound = (listed, m)) : d.commaNamesWithin bound = (listed, e) := by
  induction bound generalizing c d listed with
  | zero =>
      cases read
      rw [twins.unique last]
      rfl
  | succ bound ih =>
      have none (same : c = m) (empty : listed = []) :
          d.commaNamesWithin (bound + 1) = (listed, e) := by
        subst same empty
        rw [twins.unique last]
        exact commaNamesWithin_of_endsTerm ends
      rw [Cursor.commaNamesWithin] at read
      dsimp only at read
      split at read
      · cases read
        exact none rfl rfl
      · rename_i next taken
        split at read
        · rename_i there
          have inside := last.stop_le
          have others := left_commaNamesWithin_le bound next.skipBlanks.name.2.skipBlanks
          have blanks := left_skipBlanks_le next.skipBlanks.name.2
          have fewer := left_name there
          have spaces := left_skipBlanks_le next
          have comma := left_take? taken
          cases read
          obtain ⟨next', taken', onward⟩ := twins.take? (by omega) taken
          have begun : next.skipBlanks.Twins shift old new next'.skipBlanks :=
            onward.skipWhile_of_lt (by change _ < next.skipBlanks.left; omega)
          obtain ⟨after, same⟩ := begun.name (by omega) fun stop =>
            (last.parted (by omega)).2 ▸ ends.name
          have spaced := after.skipBlanks blank (by omega)
          rw [Cursor.commaNamesWithin, taken']
          dsimp only
          rw [if_pos (by rwa [begun.atName (by omega)]), ih spaced rfl, same]
        · cases read
          exact none rfl rfl

theorem commaNames (twins : c.Twins shift old new d) (blank : Halts Text.isBlank new)
    (last : c.commaNames.2.Twins shift old new e) (ends : EndsTerm e.rest) :
    d.commaNames = (c.commaNames.1, e) := by
  rw [← (isUnbound c).commaNames (c.left + d.left) (by omega)] at last ⊢
  rw [← (isUnbound d).commaNames (c.left + d.left) (by omega)]
  exact twins.commaNamesWithin blank last ends rfl

/-! What else holds no expression. -/

theorem signature (twins : c.Twins shift old new d) (inside : old.length ≤ c.signature.2.left)
    (brace : c.signature.2.left = old.length → new.head? = some '\x7b') :
    c.signature.2.Twins shift old new d.signature.2 ∧ d.signature.1 = c.signature.1 := by
  rw [Cursor.signature] at inside brace ⊢
  rw [Cursor.signature]
  split at inside
  · rename_i none
    have none' : d.take? ':' = Option.none := by
      rcases Nat.eq_or_lt_of_le inside with stop | before
      · rw [none] at brace
        rw [take?_eq_none, Cursor.peek?, (twins.parted stop.symm).2, brace stop.symm]
        decide
      · exact twins.take?_none before none
    rw [none']
    exact ⟨twins, rfl⟩
  · rename_i next taken
    rw [taken] at brace
    have header := left_skipWhile_le isWithinHeader next
    have colon := left_take? taken
    dsimp only at inside brace
    obtain ⟨next', taken', begun⟩ := twins.take? (by omega) taken
    obtain ⟨after, same⟩ := begun.skipWhile inside fun stop ch first => by
      cases (brace stop).symm.trans first
      rfl
    rw [taken']
    dsimp only
    rw [same]
    exact ⟨after, rfl⟩

/-- The head of a procedure, up to its brace. -/
theorem heading (twins : c.Twins shift old new d) (there : c.atName = true)
    (inside : old.length ≤ c.name.2.names.2.signature.2.skipSpace.left)
    (brace : c.name.2.names.2.signature.2.skipSpace.left = old.length →
      new.head? = some '\x7b') :
    d.atName = true ∧ d.name.1 = c.name.1 ∧ d.name.2.names.1 = c.name.2.names.1 ∧
      d.name.2.names.2.signature.1 = c.name.2.names.2.signature.1 ∧
      c.name.2.names.2.signature.2.skipSpace.Twins shift old new
        d.name.2.names.2.signature.2.skipSpace := by
  have name := left_name there
  have names := left_names_le c.name.2
  have remark := left_signature_le c.name.2.names.2
  have spaces := left_skipSpace_le c.name.2.names.2.signature.2
  have halts {p : Char → Bool} (other : p '\x7b' = false)
      (stop : c.name.2.names.2.signature.2.skipSpace.left = old.length) : Halts p new := by
    intro ch next
    cases (brace stop).symm.trans next
    exact other
  obtain ⟨named, alike⟩ := twins.name (by omega) fun stop => halts (by decide) (by omega)
  obtain ⟨listed, alike'⟩ := named.names (by omega) fun stop =>
    ⟨halts (by decide) (by omega), halts (by decide) (by omega)⟩
  obtain ⟨remarked, alike''⟩ := listed.signature (by omega) fun stop => brace (by omega)
  refine ⟨by rwa [twins.atName (by omega)], alike, alike', alike'', ?_⟩
  exact remarked.skipSpace inside (halts (by decide))

theorem stringWithin {bound : Nat} {meant : List Char} (twins : c.Twins shift old new d)
    (inside : old.length ≤ m.left) (read : c.stringWithin bound = .ok (meant, m)) :
    ∃ m', d.stringWithin bound = .ok (meant, m') ∧ m.Twins shift old new m' := by
  induction bound generalizing c d meant with
  | zero => cases read
  | succ bound ih =>
      rw [Cursor.stringWithin] at read ⊢
      dsimp only at read ⊢
      have plain (before : old.length < (c.skipWhile isPlain).left) :=
        twins.skipWhile (Nat.le_of_lt before) fun stop => absurd stop (Nat.ne_of_gt before)
      split at read
      · rename_i after _ taken
        cases read
        have quote := left_take? taken
        obtain ⟨stop, same⟩ := plain (by omega)
        obtain ⟨m', taken', onward⟩ := stop.take? (by omega) taken
        rw [taken', same]
        exact ⟨m', rfl, onward⟩
      · rename_i letter other taken
        have slash := left_take? taken
        split at read
        · cases read
        · rename_i meant found
          rw [Reading.bind_eq_ok] at read
          obtain ⟨⟨others, last⟩, read, same⟩ := read
          cases same
          dsimp only at inside
          obtain ⟨ch, next, _⟩ := Option.bind_eq_some_iff.mp found
          have escape := left_advance next
          have onward := left_stringWithin_le read
          obtain ⟨stop, same⟩ := plain (by omega)
          obtain ⟨letter', taken', begun⟩ := stop.take? (by omega) taken
          obtain ⟨m', read', last⟩ := ih (begun.advance (by omega)) read
          rw [stop.take?_none (by omega) other, taken', same]
          dsimp only
          rw [begun.peek? (by omega), found]
          dsimp only
          rw [read']
          exact ⟨m', rfl, last⟩
      · cases read

theorem string {ch : Char} {meant : String} (twins : c.Twins shift old new d)
    (inside : old.length ≤ m.left) (next : c.peek? = some ch)
    (read : c.string = .ok (meant, m)) :
    ∃ m', d.string = .ok (meant, m') ∧ m.Twins shift old new m' := by
  have onward := left_string next read
  have next' : d.peek? = some ch := by rwa [twins.peek? (by omega)]
  rw [Cursor.string, ← left, ← (isUnbound c).string ch (c.left + d.left) next (by omega),
    Reading.bind_eq_ok] at read
  obtain ⟨⟨letters, after⟩, within, same⟩ := read
  cases same
  obtain ⟨m', within', last⟩ := (twins.advance (by omega)).stringWithin inside within
  refine ⟨m', ?_, last⟩
  rw [Cursor.string, ← left, ← (isUnbound d).string ch (c.left + d.left) next' (by omega), within']
  rfl

/-- A label and the equality sign behind it, up to the value of the field. -/
theorem labelled {label : String} {named begun : Cursor text} (twins : c.Twins shift old new d)
    (next : c.skipSpace.peek? = some '"') (quoted : c.skipSpace.string = .ok (label, named))
    (equal : named.skipSpace.expect '=' = .ok begun) (inside : old.length ≤ begun.skipSpace.left)
    (space : begun.skipSpace.left = old.length → Halts Text.isAsciiSpace new) :
    ∃ named' begun', d.skipSpace.peek? = some '"' ∧ d.skipSpace.string = .ok (label, named') ∧
      named'.skipSpace.expect '=' = .ok begun' ∧
      begun.skipSpace.Twins shift old new begun'.skipSpace := by
  have string := left_string next quoted
  have spaces := left_skipSpace_le named
  have sign := left_expect equal
  have behind := left_skipSpace_le begun
  have spaced := twins.skipSpace_of_lt (by omega)
  obtain ⟨named', quoted', labelled⟩ := spaced.string (by omega) next quoted
  obtain ⟨begun', equal', signed⟩ := (labelled.skipSpace_of_lt (by omega)).expect (by omega) equal
  exact ⟨named', begun', (spaced.peek? (by omega)).trans next, quoted', equal',
    signed.skipSpace inside space⟩

theorem amount {value : Expression} (twins : c.Twins shift old new d)
    (last : m.Twins shift old new e) (ends : Halts isNameChar e.rest)
    (read : c.amount = .ok (value, m)) : d.amount = .ok (value.moved shift, e) := by
  have inside := last.stop_le
  have halts : m.left = old.length → Halts isNameChar new := fun stop => (last.parted stop).2 ▸ ends
  have ended : (c.skipWhile Char.isDigit).skipWhile Char.isAlpha = m := end_of_amount read
  have letters := left_skipWhile_le Char.isAlpha (c.skipWhile Char.isDigit)
  rw [ended] at letters
  have after := Nat.le_trans inside letters
  obtain ⟨digits, number⟩ := twins.skipWhile (p := Char.isDigit) after fun stop =>
    (halts (by omega)).mono fun _ => isNameChar_of_isDigit
  obtain ⟨stop, unit⟩ := digits.skipWhile (p := Char.isAlpha) (ended ▸ inside) fun stop =>
    (halts (ended ▸ stop)).mono fun _ => isNameChar_of_isAlpha
  rw [ended] at stop
  obtain rfl := last.unique stop
  rw [Cursor.amount] at read ⊢
  dsimp only at read ⊢
  rw [number, unit, twins.offset]
  split at read
  · rename_i small
    rw [if_pos small]
    split at read
    · rename_i none
      rw [none] at unit
      cases read
      rw [skipWhile_of_taken unit]
      rfl
    · cases read
      rfl
  · cases read

theorem atComment (twins : c.Twins shift old new d) (before : old.length + 1 < c.left) :
    d.atComment = c.atComment := by
  obtain ⟨ch, between, here, there⟩ := twins.next (by omega)
  cases between with
  | nil =>
      rw [left, here] at before
      exact absurd before (Nat.lt_irrefl _)
  | cons next between =>
      rw [Cursor.atComment, Cursor.atComment, here, there]
      rfl

/-- A comment takes the line feed behind it. -/
theorem comment (twins : c.Twins shift old new d) (inside : old.length ≤ c.comment.2.left)
    (feed : c.EndsLine) (begins : c.atComment = true) :
    d.atComment = true ∧ d.comment.1 = c.comment.1.moved shift ∧
      c.comment.2.Twins shift old new d.comment.2 := by
  have dash := left_advance (peek?_of_atComment begins)
  have other : c.advance.peek? = some '-' := by
    rw [Cursor.atComment, List.isPrefixOf_iff_prefix] at begins
    obtain ⟨rest, here⟩ := begins
    exact peek?_of_rest (advance_of_rest here.symm)
  have also := left_advance other
  have line := left_skipWhile_le isWithinLine c.advance.advance
  have fewer := left_advance feed
  rw [EndsLine] at feed
  have last : c.comment.2 = (c.advance.advance.skipWhile isWithinLine).advance := if_pos feed
  rw [last] at inside ⊢
  have within := (twins.advance (by omega)).advance (by omega)
  obtain ⟨stop, same⟩ := within.skipWhile (p := isWithinLine) (by omega) fun _ => by omega
  have feed' : (d.advance.advance.skipWhile isWithinLine).peek? = some '\n' := by
    rw [stop.peek? (by omega), feed]
  have last' : d.comment.2 = (d.advance.advance.skipWhile isWithinLine).advance := if_pos feed'
  refine ⟨by rw [twins.atComment (by omega), begins], ?_, ?_⟩
  · rw [Cursor.comment, Cursor.comment, Statement.moved, twins.offset, same]
  · rw [last']
    exact stop.advance (by omega)

/-- A comment that ends with its text ends before a line feed that the other text has there. -/
theorem comment_last {more : List Char} (twins : c.Twins shift [] ('\n' :: more) d)
    (begins : c.atComment = true) (endless : ¬c.EndsLine) :
    d.atComment = true ∧ d.comment.2.rest = more := by
  have last : (c.advance.advance.skipWhile isWithinLine).rest = [] := by
    have ends : c.comment.2.rest = [] := by_contra fun more => endless (endsLine_of_more more)
    change (c.advance.advance.skipWhile isWithinLine).skipLineFeed.rest = [] at ends
    rw [EndsLine] at endless
    rwa [Cursor.skipLineFeed, if_neg endless] at ends
  rw [Cursor.atComment, List.isPrefixOf_iff_prefix] at begins
  obtain ⟨rest, here⟩ := begins
  have length : c.left = rest.length + 2 := by rw [left, ← here]; rfl
  have fewer : c.advance.left = rest.length + 1 := by
    rw [left, advance_of_rest here.symm]
    rfl
  have within := (twins.advance (by change 0 < _; omega)).advance (by change 0 < _; omega)
  have stop : (c.advance.advance.skipWhile isWithinLine).left = 0 := by rw [left, last]; rfl
  have behind := ((within.skipWhile (p := isWithinLine) (by change 0 ≤ _; omega)
    fun _ => .cons rfl).1.parted stop).2
  refine ⟨?_, ?_⟩
  · rw [twins.atComment (by change 1 < _; omega), Cursor.atComment, List.isPrefixOf_iff_prefix]
    exact ⟨rest, here⟩
  · change (d.advance.advance.skipWhile isWithinLine).skipLineFeed.rest = more
    rw [Cursor.skipLineFeed, if_pos (peek?_of_rest behind), advance_of_rest behind]

/-- A statement ends alike where comments have a line feed behind them and what is met at the end
is met in both texts. -/
theorem statementEnd {endings : List Statement} (twins : c.Twins shift old new d)
    (blank : Halts Text.isBlank new) (inside : old.length ≤ m.left)
    (line : c.skipBlanks.atComment = true → c.skipBlanks.EndsLine)
    (space : m.left = old.length → Halts Text.isAsciiSpace new)
    (brace : m.left = old.length → c.skipBlanks.peek? = some '\x7d' → new.head? = some '\x7d')
    (ended : c.statementEnd = .ok (endings, m)) :
    ∃ m', d.statementEnd = .ok (movedBlock shift endings, m') ∧ m.Twins shift old new m' := by
  rw [Cursor.statementEnd] at ended ⊢
  have spaced := twins.skipBlanks blank
  split at ended
  · rename_i begins
    cases ended
    have onward := left_comment_le c.skipBlanks
    obtain ⟨begins', same, last⟩ := (spaced (by omega)).comment inside (line begins) begins
    rw [if_pos begins', same]
    exact ⟨_, rfl, last⟩
  · rename_i plain
    have plain' {ch : Char} (next : d.skipBlanks.peek? = some ch) (other : ch ≠ '-') :
        ¬d.skipBlanks.atComment = true := fun begins =>
      other (Option.some_inj.mp (next.symm.trans (peek?_of_atComment begins)))
    split at ended
    · rename_i next
      cases ended
      have feed := left_advance next
      have next' := (spaced (by omega)).peek? (by omega)
      rw [next] at next'
      rw [if_neg (plain' next' (by decide)), next']
      exact ⟨_, rfl, (spaced (by omega)).advance (by omega)⟩
    · rename_i next
      cases ended
      have series := left_advance next
      have blanks := left_skipBlanks_le c.skipBlanks.advance
      have feed := left_skipLineFeed_le c.skipBlanks.advance.skipBlanks
      have next' := (spaced (by omega)).peek? (by omega)
      rw [next] at next'
      rw [if_neg (plain' next' (by decide)), next']
      have begun := ((spaced (by omega)).advance (by omega)).skipBlanks blank (by omega)
      have last := begun.skipLineFeed inside space
      exact ⟨_, by rw [(spaced (by omega)).offset]; rfl, last⟩
    · rename_i next
      cases ended
      have last := spaced inside
      have next' : d.skipBlanks.peek? = some '\x7d' := by
        rcases Nat.eq_or_lt_of_le inside with stop | before
        · rw [Cursor.peek?, (last.parted stop.symm).2, brace stop.symm next]
        · rw [last.peek? before, next]
      rw [if_neg (plain' next' (by decide)), next']
      exact ⟨_, rfl, last⟩
    · cases ended

end Twins

end Cursor

end Runbook
