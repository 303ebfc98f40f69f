import Runbook.Proofs.Syntax.Mends

/-!
Line feeds with carriage returns before them.

A carriage return is a blank, so a reader may stand before it or behind it where the text without it
has a line feed. Two places are near if they are the same up to that, and even if the same character
is next in both: behind blanks near places are even. All else passes from near places to near ones,
and what it has taken differs at most in a carriage return at its end.
-/
namespace Runbook

open Cursor

namespace Text

/-- The text with a carriage return before each line feed. -/
def withReturns (text : List Char) : List Char :=
  text.flatMap fun ch => if ch = '\n' then ['\r', '\n'] else [ch]

@[simp] theorem withReturns_nil : withReturns [] = [] := rfl

@[simp] theorem withReturns_feed (rest : List Char) :
    withReturns ('\n' :: rest) = '\r' :: '\n' :: withReturns rest := rfl

theorem withReturns_cons {ch : Char} (other : ch ≠ '\n') (rest : List Char) :
    withReturns (ch :: rest) = ch :: withReturns rest := by
  rw [withReturns, List.flatMap_cons, if_neg other]
  rfl

theorem withReturns_append (before rest : List Char) :
    withReturns (before ++ rest) = withReturns before ++ withReturns rest :=
  List.flatMap_append

/-- Where the byte at `offset` of the text stands when each line feed has a carriage return before
it. -/
def carried : List Char → Nat → Nat
  | [], offset => offset
  | ch :: rest, offset =>
    if offset < ch.utf8Size then if ch = '\n' then offset + 1 else offset
    else byteLength (withReturns [ch]) + carried rest (offset - ch.utf8Size)

/-- What stands before a byte has a carriage return before each line feed, as the byte itself has
if it is a line feed. -/
theorem carried_length (before rest : List Char) :
    carried (before ++ rest) (byteLength before) =
      byteLength (withReturns before) + if rest.head? = some '\n' then 1 else 0 := by
  induction before with
  | nil =>
      cases rest with
      | nil => rfl
      | cons ch rest =>
          rw [List.nil_append, carried, byteLength_nil, if_pos ch.utf8Size_pos]
          simp
  | cons ch before ih =>
      have size : ¬ byteLength (ch :: before) < ch.utf8Size :=
        Nat.not_lt.mpr (Nat.le_add_right _ _)
      rw [List.cons_append, carried, if_neg size, byteLength_cons, Nat.add_sub_cancel_left, ih,
        ← Nat.add_assoc, ← byteLength_append, ← withReturns_append]
      rfl

end Text

open Text

/-! Two texts are passed alike, but for the carriage return before a line feed. -/

section
variable {p : Char → Bool}

theorem dropWhile_withReturns (passes : p '\r' = true) (stops : p '\n' = false)
    (rest : List Char) :
    ((withReturns rest).dropWhile p = withReturns (rest.dropWhile p) ∧
        (rest.dropWhile p).head? ≠ some '\n' ∧
        (withReturns rest).takeWhile p = rest.takeWhile p) ∨
      ∃ more, rest.dropWhile p = '\n' :: more ∧
        (withReturns rest).dropWhile p = '\n' :: withReturns more ∧
        (withReturns rest).takeWhile p = rest.takeWhile p ++ ['\r'] := by
  induction rest with
  | nil => exact .inl ⟨rfl, nofun, rfl⟩
  | cons ch rest ih =>
      by_cases feed : ch = '\n'
      · subst feed
        refine .inr ⟨rest, ?_⟩
        simp [passes, stops]
      · rw [withReturns_cons feed]
        cases more : p ch with
        | false =>
            refine .inl ?_
            simp [more, withReturns_cons feed, feed]
        | true =>
            rw [List.dropWhile_cons_of_pos more, List.dropWhile_cons_of_pos more,
              List.takeWhile_cons_of_pos more, List.takeWhile_cons_of_pos more]
            obtain ⟨same, next, taken⟩ | ⟨behind, same, other, taken⟩ := ih
            · exact .inl ⟨same, next, congrArg _ taken⟩
            · exact .inr ⟨behind, same, other, congrArg _ taken⟩

/-- What stops before a carriage return stops where it does without it. -/
theorem stopWhile_withReturns (returns : p '\r' = false) (feeds : p '\n' = false)
    (rest : List Char) :
    (withReturns rest).dropWhile p = withReturns (rest.dropWhile p) ∧
      (withReturns rest).takeWhile p = rest.takeWhile p := by
  induction rest with
  | nil => exact ⟨rfl, rfl⟩
  | cons ch rest ih =>
      by_cases feed : ch = '\n'
      · subst feed
        simp [returns, feeds]
      · rw [withReturns_cons feed]
        cases more : p ch with
        | false => simp [more, withReturns_cons feed]
        | true => simp [more, ih]

theorem passWhile_withReturns (returns : p '\r' = true) (feeds : p '\n' = true)
    (rest : List Char) :
    (withReturns rest).dropWhile p = withReturns (rest.dropWhile p) ∧
      (rest.dropWhile p).head? ≠ some '\n' := by
  induction rest with
  | nil => exact ⟨rfl, nofun⟩
  | cons ch rest ih =>
      by_cases feed : ch = '\n'
      · subst feed
        simpa [returns, feeds] using ih
      · rw [withReturns_cons feed]
        cases more : p ch with
        | false => simp [more, withReturns_cons feed, feed]
        | true => simpa [more] using ih

end

/-- A carriage return behind a text is trimmed off. -/
theorem Text.trim_return (cs : List Char) : trim (cs ++ ['\r']) = trim cs := by
  rw [trim, trim, List.dropWhile_append]
  split
  · rename_i none
    rw [List.isEmpty_iff.mp none]
    rfl
  · exact dropWhileEnd_concat _ rfl

theorem head?_withReturns {ch : Char} (other : ch ≠ '\r') (feed : ch ≠ '\n') (rest : List Char) :
    (withReturns rest).head? = some ch ↔ rest.head? = some ch := by
  cases rest with
  | nil => rfl
  | cons first rest =>
      by_cases same : first = '\n'
      · subst same
        simp [Ne.symm other, Ne.symm feed]
      · rw [withReturns_cons same]
        rfl

/-- Behind white space and comments both texts go on alike, and not with a line feed. -/
theorem drop_triviaLength (inside : Bool) (rest : List Char) :
    (withReturns rest).drop (triviaLength inside (withReturns rest)) =
        withReturns (rest.drop (triviaLength inside rest)) ∧
      (rest.drop (triviaLength inside rest)).head? ≠ some '\n' := by
  fun_induction triviaLength inside rest with
  | case1 inside =>
      refine ⟨?_, fun found => by cases found⟩
      rw [withReturns_nil, triviaLength]
      rfl
  | case2 ch rest ih =>
      refine ⟨?_, ih.2⟩
      rw [List.drop_succ_cons, ← ih.1]
      by_cases feed : ch = '\n'
      · subst feed
        rfl
      · rw [withReturns_cons feed]
        rfl
  | case3 rest ih =>
      refine ⟨?_, ih.2⟩
      rw [withReturns_cons (by decide), withReturns_cons (by decide)]
      exact ih.1
  | case4 ch rest _ space ih =>
      refine ⟨?_, ih.2⟩
      rw [List.drop_succ_cons, ← ih.1]
      by_cases feed : ch = '\n'
      · subst feed
        rw [withReturns_feed, triviaLength_of_space rfl, triviaLength_of_space rfl]
        rfl
      · rw [withReturns_cons feed, triviaLength_of_space space]
        rfl
  | case5 ch rest uncommented other =>
      have feed : ch ≠ '\n' := by
        rintro rfl
        exact other rfl
      refine ⟨?_, by simpa using feed⟩
      rw [withReturns_cons feed, triviaLength, if_neg other, List.drop_zero, List.drop_zero,
        withReturns_cons feed]
      rintro others rfl more
      have next : rest.head? = some '-' := by
        rw [← head?_withReturns (by decide) (by decide), more]
        rfl
      obtain ⟨others, rfl⟩ := List.head?_eq_some_iff.mp next
      exact uncommented others rfl rfl

namespace Cursor

variable {text : List Char}

/-- The places are the same, but that the second may be behind the carriage return before a line
feed. -/
inductive Near (c : Cursor text) (d : Cursor (withReturns text)) : Prop
  | same : d.rest = withReturns c.rest → Near c d
  | feed {rest : List Char} : c.rest = '\n' :: rest → d.rest = '\n' :: withReturns rest → Near c d

/-- The same character is next. -/
structure Even (c : Cursor text) (d : Cursor (withReturns text)) : Prop where
  near : c.Near d
  peek? : d.peek? = c.peek?

section
variable {c : Cursor text} {d : Cursor (withReturns text)} {p : Char → Bool} {ch : Char}

theorem Near.start (text : List Char) : (start text).Near (start (withReturns text)) := .same rfl

theorem Even.of_same (same : d.rest = withReturns c.rest) (next : c.rest.head? ≠ some '\n') :
    c.Even d := by
  refine ⟨.same same, ?_⟩
  rw [Cursor.peek?, Cursor.peek?, same]
  cases here : c.rest with
  | nil => rfl
  | cons ch rest =>
      rw [here] at next
      rw [withReturns_cons fun feed => next (congrArg some feed)]
      rfl

theorem Even.of_feed {rest : List Char} (here : c.rest = '\n' :: rest)
    (there : d.rest = '\n' :: withReturns rest) : c.Even d :=
  ⟨.feed here there, by rw [peek?_of_rest here, peek?_of_rest there]⟩

/-- A character stands where the carriage returns before it let it stand. -/
theorem Even.offset (even : c.Even d) : d.offset = carried text c.offset := by
  obtain ⟨before, whole, length⟩ := c.stands
  obtain ⟨before', whole', length'⟩ := d.stands
  have place := carried_length before c.rest
  rw [whole, length] at place
  have parts := withReturns_append before c.rest
  rw [whole, ← whole'] at parts
  obtain ⟨same | ⟨here, there⟩, next⟩ := even
  · rw [same] at parts
    have other : c.rest.head? ≠ some '\n' := by
      intro feed
      obtain ⟨rest, here⟩ := List.head?_eq_some_iff.mp feed
      rw [Cursor.peek?, Cursor.peek?, same, here] at next
      cases next
    rw [place, if_neg other, ← length', List.append_cancel_right parts]
    rfl
  · rw [here, there, withReturns_feed, List.append_cons _ '\r'] at parts
    rw [place, here, ← length', List.append_cancel_right parts, byteLength_append]
    rfl

theorem Even.advance (even : c.Even d) : c.advance.Near d.advance := by
  refine .same ?_
  obtain ⟨same | ⟨here, there⟩, next⟩ := even
  · cases here : c.rest with
    | nil =>
        rw [here] at same
        rw [advance_rest, advance_rest, same, here]
        rfl
    | cons ch rest =>
        have other : ch ≠ '\n' := by
          rintro rfl
          rw [Cursor.peek?, Cursor.peek?, same, here] at next
          cases next
        rw [here, withReturns_cons other] at same
        rw [advance_of_rest same, advance_of_rest here]
  · rw [advance_of_rest here, advance_of_rest there]

/-- The next characters differ only at the end of a line. -/
theorem Near.peek? (near : c.Near d) :
    d.peek? = c.peek? ∨ c.peek? = some '\n' ∧ d.peek? = some '\r' := by
  obtain same | ⟨here, there⟩ := near
  · cases here : c.rest with
    | nil =>
        rw [here] at same
        refine .inl ?_
        rw [Cursor.peek?, Cursor.peek?, same, here]
        rfl
    | cons ch rest =>
        by_cases feed : ch = '\n'
        · subst feed
          rw [here, withReturns_feed] at same
          exact .inr ⟨peek?_of_rest here, peek?_of_rest same⟩
        · rw [here, withReturns_cons feed] at same
          exact .inl (by rw [peek?_of_rest same, peek?_of_rest here])
  · exact .inl (by rw [peek?_of_rest there, peek?_of_rest here])

/-- What no line end begins is met in both texts. -/
theorem Near.bind {α : Type} {f : Char → Option α} (near : c.Near d) (returns : f '\r' = none)
    (feeds : f '\n' = none) : d.peek?.bind f = c.peek?.bind f := by
  obtain same | ⟨here, there⟩ := near.peek?
  · rw [same]
  · rw [here, there, Option.bind_some, Option.bind_some, returns, feeds]

theorem Near.any (near : c.Near d) (returns : p '\r' = false) (feeds : p '\n' = false) :
    d.peek?.any p = c.peek?.any p := by
  obtain same | ⟨here, there⟩ := near.peek?
  · rw [same]
  · rw [here, there, Option.any_some, Option.any_some, returns, feeds]

theorem Near.atName (near : c.Near d) : d.atName = c.atName := near.any rfl rfl

/-- Blanks are passed up to even places. -/
theorem Near.skipWhile (near : c.Near d) (passes : p '\r' = true) (stops : p '\n' = false) :
    (c.skipWhile p).Even (d.skipWhile p) ∧
      (d.taken p = c.taken p ∨ (c.skipWhile p).peek? = some '\n' ∧
        d.taken p = c.taken p ++ ['\r']) := by
  obtain same | ⟨here, there⟩ := near
  · have passed := dropWhile_withReturns passes stops c.rest
    rw [← same] at passed
    obtain ⟨same, next, taken⟩ | ⟨rest, here, there, taken⟩ := passed
    · exact ⟨.of_same same next, .inl taken⟩
    · exact ⟨.of_feed here there, .inr ⟨peek?_of_rest here, taken⟩⟩
  · have stays : c.skipWhile p = c := skipWhile_of_halts (halts_of_rest here stops)
    have stays' : d.skipWhile p = d := skipWhile_of_halts (halts_of_rest there stops)
    rw [stays, stays', taken, taken, here, there]
    refine ⟨.of_feed here there, .inl ?_⟩
    rw [List.takeWhile_cons_of_neg (Bool.eq_false_iff.mp stops),
      List.takeWhile_cons_of_neg (Bool.eq_false_iff.mp stops)]

theorem Near.skipBlanks (near : c.Near d) : c.skipBlanks.Even d.skipBlanks :=
  (near.skipWhile rfl rfl).1

/-- White space is passed up to even places. -/
theorem Near.skipSpace (near : c.Near d) : c.skipSpace.Even d.skipSpace := by
  obtain same | @⟨rest, here, there⟩ := near
  · have passed := passWhile_withReturns (p := isAsciiSpace) rfl rfl c.rest
    rw [← same] at passed
    exact .of_same passed.1 passed.2
  · have passed := passWhile_withReturns (p := isAsciiSpace) rfl rfl rest
    refine .of_same ?_ ?_
    · rw [skipSpace_rest, skipSpace_rest, here, there]
      exact passed.1
    · rw [skipSpace_rest, here]
      exact passed.2

/-- What stops before every line end takes the same. -/
theorem Near.stopWhile (near : c.Near d) (returns : p '\r' = false) (feeds : p '\n' = false) :
    (c.skipWhile p).Near (d.skipWhile p) ∧ d.taken p = c.taken p := by
  obtain same | ⟨here, there⟩ := near
  · have stopped := stopWhile_withReturns returns feeds c.rest
    rw [← same] at stopped
    exact ⟨.same stopped.1, stopped.2⟩
  · have stays : c.skipWhile p = c := skipWhile_of_halts (halts_of_rest here feeds)
    have stays' : d.skipWhile p = d := skipWhile_of_halts (halts_of_rest there feeds)
    rw [stays, stays', taken, taken, here, there]
    refine ⟨.feed here there, ?_⟩
    rw [List.takeWhile_cons_of_neg (Bool.eq_false_iff.mp feeds),
      List.takeWhile_cons_of_neg (Bool.eq_false_iff.mp feeds)]

theorem Near.name (near : c.Near d) : d.name.1 = c.name.1 ∧ c.name.2.Near d.name.2 := by
  obtain ⟨after, same⟩ := near.stopWhile (p := isNameChar) rfl rfl
  exact ⟨congrArg String.ofList same, after⟩

theorem Even.skipLineFeed (even : c.Even d) : c.skipLineFeed.Near d.skipLineFeed := by
  rw [Cursor.skipLineFeed, Cursor.skipLineFeed, even.peek?]
  split
  · exact even.advance
  · exact even.near

theorem Near.skipTrivia (near : c.Near d) : c.skipTrivia.Even d.skipTrivia := by
  obtain same | @⟨rest, here, there⟩ := near
  · have passed := drop_triviaLength false c.rest
    rw [← same] at passed
    exact .of_same passed.1 passed.2
  · have passed := drop_triviaLength false rest
    refine .of_same ?_ ?_
    · rw [skipTrivia_rest, skipTrivia_rest, here, there, triviaLength_of_space rfl,
        triviaLength_of_space rfl]
      exact passed.1
    · rw [skipTrivia_rest, here, triviaLength_of_space rfl]
      exact passed.2

theorem Near.next (near : c.Near d) (ch : Char) (returns : ch ≠ '\r') (feeds : ch ≠ '\n') :
    d.peek? = some ch ↔ c.peek? = some ch := by
  obtain same | ⟨here, there⟩ := near.peek?
  · rw [same]
  · rw [here, there, Option.some_inj, Option.some_inj]
    exact iff_of_false (Ne.symm returns) (Ne.symm feeds)

theorem Near.even (near : c.Near d) (next : c.peek? = some ch) (returns : ch ≠ '\r')
    (feeds : ch ≠ '\n') : c.Even d :=
  ⟨near, by rw [(near.next ch returns feeds).mpr next, next]⟩

theorem Near.take? (near : c.Near d) (ch : Char) (returns : ch ≠ '\r') (feeds : ch ≠ '\n') :
    c.take? ch = none ∧ d.take? ch = none ∨
      c.take? ch = some c.advance ∧ d.take? ch = some d.advance ∧ c.advance.Near d.advance := by
  by_cases next : c.peek? = some ch
  · have next' := (near.next ch returns feeds).mpr next
    exact .inr ⟨if_pos next, if_pos next', (near.even next returns feeds).advance⟩
  · exact .inl ⟨take?_eq_none.mpr next, take?_eq_none.mpr (next ∘ (near.next ch returns feeds).mp)⟩

/-! Lists of names. -/

theorem Near.namesWithin (near : c.Near d) (bound : Nat) :
    (d.namesWithin bound).1 = (c.namesWithin bound).1 ∧
      (c.namesWithin bound).2.Even (d.namesWithin bound).2 := by
  induction bound generalizing c d with
  | zero => exact ⟨rfl, near.skipBlanks⟩
  | succ bound ih =>
      rw [Cursor.namesWithin, Cursor.namesWithin]
      dsimp only
      have blanks := near.skipBlanks
      rw [blanks.near.atName]
      split
      · obtain ⟨same, after⟩ := blanks.near.name
        obtain ⟨others, last⟩ := ih after
        exact ⟨by rw [same, others], last⟩
      · exact ⟨rfl, blanks⟩

theorem Near.names (near : c.Near d) : d.names.1 = c.names.1 ∧ c.names.2.Even d.names.2 := by
  rw [← (isUnbound c).names (c.left + d.left) (by omega),
    ← (isUnbound d).names (c.left + d.left) (by omega)]
  exact near.namesWithin _

theorem Near.targetsWithin (near : c.Near d) (bound : Nat) :
    (d.targetsWithin bound).1 = (c.targetsWithin bound).1 ∧
      (c.targetsWithin bound).2.Even (d.targetsWithin bound).2 := by
  induction bound generalizing c d with
  | zero => exact ⟨rfl, near.skipBlanks⟩
  | succ bound ih =>
      rw [Cursor.targetsWithin, Cursor.targetsWithin]
      dsimp only
      have blanks := near.skipBlanks
      rw [blanks.near.atName]
      split
      · obtain ⟨same, after⟩ := blanks.near.name
        have spaced := after.skipBlanks
        obtain ⟨none, none'⟩ | ⟨taken, taken', next⟩ :=
          spaced.near.take? ',' (by decide) (by decide)
        · rw [none, none', same]
          exact ⟨rfl, spaced⟩
        · rw [taken, taken', same]
          obtain ⟨others, last⟩ := ih next
          exact ⟨congrArg _ others, last⟩
      · exact ⟨rfl, blanks⟩

theorem Near.targets? (near : c.Near d) :
    c.targets? = none ∧ d.targets? = none ∨ ∃ targets after after',
      c.targets? = some (targets, after) ∧ d.targets? = some (targets, after') ∧
        after.Near after' := by
  rw [Cursor.targets?, Cursor.targets?, ← left, ← left,
    ← (isUnbound c).targets (c.left + d.left) (by omega),
    ← (isUnbound d).targets (c.left + d.left) (by omega)]
  obtain ⟨same, even⟩ := near.targetsWithin (c.left + d.left)
  generalize c.targetsWithin (c.left + d.left) = read, d.targetsWithin (c.left + d.left) = read'
    at same even
  obtain ⟨targets, after⟩ := read
  obtain ⟨others, after'⟩ := read'
  obtain rfl : others = targets := same
  cases others with
  | nil => exact .inl ⟨rfl, rfl⟩
  | cons target targets =>
      dsimp only
      obtain ⟨none, none'⟩ | ⟨taken, taken', next⟩ :=
        even.near.take? '=' (by decide) (by decide)
      · rw [none, none']
        exact .inl ⟨rfl, rfl⟩
      · rw [taken, taken']
        exact .inr ⟨_, _, _, rfl, rfl, next⟩

theorem Even.commaNamesWithin (even : c.Even d) (bound : Nat) :
    (d.commaNamesWithin bound).1 = (c.commaNamesWithin bound).1 ∧
      (c.commaNamesWithin bound).2.Even (d.commaNamesWithin bound).2 := by
  induction bound generalizing c d with
  | zero => exact ⟨rfl, even⟩
  | succ bound ih =>
      rw [Cursor.commaNamesWithin, Cursor.commaNamesWithin]
      obtain ⟨none, none'⟩ | ⟨taken, taken', next⟩ :=
        even.near.take? ',' (by decide) (by decide)
      · rw [none, none']
        exact ⟨rfl, even⟩
      · rw [taken, taken']
        dsimp only
        have blanks := next.skipBlanks
        rw [blanks.near.atName]
        split
        · obtain ⟨same, after⟩ := blanks.near.name
          obtain ⟨others, last⟩ := ih after.skipBlanks
          exact ⟨by rw [same, others], last⟩
        · exact ⟨rfl, even⟩

theorem Even.commaNames (even : c.Even d) :
    d.commaNames.1 = c.commaNames.1 ∧ c.commaNames.2.Even d.commaNames.2 := by
  rw [← (isUnbound c).commaNames (c.left + d.left) (by omega),
    ← (isUnbound d).commaNames (c.left + d.left) (by omega)]
  exact even.commaNamesWithin _

theorem Near.atDeclaration (near : c.Near d) : d.atDeclaration = c.atDeclaration := by
  rw [Cursor.atDeclaration, Cursor.atDeclaration, near.atName, near.names.2.peek?]

theorem Even.signature (even : c.Even d) :
    d.signature.1 = c.signature.1 ∧ c.signature.2.Near d.signature.2 := by
  rw [Cursor.signature, Cursor.signature]
  obtain ⟨none, none'⟩ | ⟨taken, taken', next⟩ :=
    even.near.take? ':' (by decide) (by decide)
  · rw [none, none']
    exact ⟨rfl, even.near⟩
  · rw [taken, taken']
    obtain ⟨last, same⟩ := next.skipWhile (p := isWithinHeader) rfl rfl
    have trimmed : trim (d.advance.taken isWithinHeader) = trim (c.advance.taken isWithinHeader) := by
      obtain same | ⟨_, same⟩ := same
      · rw [same]
      · rw [same, trim_return]
    dsimp only
    rw [trimmed]
    exact ⟨rfl, last.near⟩

theorem Even.atComment (even : c.Even d) : d.atComment = c.atComment := by
  have dashes {text : List Char} (c : Cursor text) :
      c.atComment = true ↔ c.peek? = some '-' ∧ c.advance.peek? = some '-' := by
    rw [Cursor.atComment, List.isPrefixOf_iff_prefix]
    constructor
    · rintro ⟨rest, here⟩
      exact ⟨peek?_of_rest here.symm, peek?_of_rest (advance_of_rest here.symm)⟩
    · rintro ⟨first, second⟩
      obtain ⟨others, here⟩ := peek?_eq_some.mp first
      rw [Cursor.peek?, advance_of_rest here] at second
      obtain ⟨rest, rfl⟩ := List.head?_eq_some_iff.mp second
      exact ⟨rest, here.symm⟩
  rw [Bool.eq_iff_iff, dashes, dashes, even.peek?,
    even.advance.next '-' (by decide) (by decide)]

end

end Cursor

end Runbook
