import Runbook.Proofs.Syntax.Spelling
import Runbook.Proofs.Syntax.Total

/-!
The words of a text, and where they stand.

A word is a longest piece of characters that may stand in a name. Names are read only where a word
begins, and only blanks and commas stand between the names of a list. So each name of a list is the
first word after the one before it.
-/
namespace Runbook

/-- Can the byte stand in a name? No byte of a character beyond ASCII can. -/
def isNameByte (byte : UInt8) : Bool := isNameChar (Char.ofUInt8 byte)

/-- The word stands at the offset of the text, and the bytes beside it stand in no name. -/
def Text.SpellsAt (text : List Char) (offset : Nat) (word : Identifier) : Prop :=
  IsName word ∧ ∃ before after : List Char, before ++ (word.toList ++ after) = text ∧
    Text.byteLength before = offset ∧
    (∀ byte, (Text.bytes before).getLast? = some byte → isNameByte byte = false) ∧
    ∀ byte, (Text.bytes after).head? = some byte → isNameByte byte = false

/-- A question mark stands at the offset, or the word `undefined`. -/
def Text.HoleAt (text : List Char) (offset : Nat) : Prop :=
  (∃ before after, before ++ '?' :: after = text ∧ Text.byteLength before = offset) ∨
    Text.SpellsAt text offset "undefined"

theorem isNameByte_of_mem {ch : Char} {byte : UInt8} (mem : byte ∈ String.utf8EncodeChar ch) :
    isNameByte byte = isNameChar ch :=
  (Cursor.isOfAscii_scans isNameChar (by simp [Cursor.scans])).byte mem

theorem isNameByte_head {cs : List Char} (halts : Halts isNameChar cs) {byte : UInt8}
    (first : (Text.bytes cs).head? = some byte) : isNameByte byte = false := by
  cases cs with
  | nil => cases first
  | cons ch cs =>
      have mem : byte ∈ String.utf8EncodeChar ch := by
        rw [Text.bytes, List.flatMap_cons, List.head?_append,
          List.head?_eq_some_head String.utf8EncodeChar_ne_nil, Option.some_or] at first
        exact Option.some.inj first ▸ List.head_mem _
      rw [isNameByte_of_mem mem]
      exact halts ch rfl

theorem isNameByte_getLast {cs : List Char} (halts : Halts isNameChar cs.reverse) {byte : UInt8}
    (last : (Text.bytes cs).getLast? = some byte) : isNameByte byte = false := by
  cases reversed : cs.reverse with
  | nil =>
      rw [List.reverse_eq_nil_iff.mp reversed] at last
      cases last
  | cons ch front =>
      have whole : cs = front.reverse ++ [ch] := by
        rw [← List.reverse_cons, ← reversed, List.reverse_reverse]
      have mem : byte ∈ String.utf8EncodeChar ch := by
        rw [whole, Text.bytes_append, Text.bytes, Text.bytes, List.flatMap_singleton,
          List.getLast?_append, List.getLast?_eq_some_getLast String.utf8EncodeChar_ne_nil,
          Option.some_or] at last
        exact Option.some.inj last ▸ List.getLast_mem _
      rw [isNameByte_of_mem mem]
      exact halts ch (by rw [reversed]; rfl)

/-- Can it stand between the names of a list? -/
def isSeparator (ch : Char) : Bool := Text.isBlank ch || ch == ','

theorem not_isNameChar_of_isAsciiSpace {ch : Char} (space : Text.isAsciiSpace ch = true) :
    isNameChar ch = false := by
  simp only [Text.isAsciiSpace, Text.isBlank, Bool.or_eq_true, beq_iff_eq] at space
  rcases space with (((rfl | rfl) | rfl) | rfl) | rfl
  all_goals rfl

theorem not_isNameChar_of_isSeparator {ch : Char} (parts : isSeparator ch = true) :
    isNameChar ch = false := by
  rw [isSeparator, Bool.or_eq_true, beq_iff_eq] at parts
  rcases parts with blank | rfl
  · exact not_isNameChar_of_isAsciiSpace (isAsciiSpace_of_isBlank blank)
  · rfl

theorem halts_reverse {p q : Char → Bool} {cs : List Char} (all : ∀ ch ∈ cs, q ch = true)
    (other : ∀ ch, q ch = true → p ch = false) : Halts p cs.reverse := by
  intro ch last
  exact other ch (all ch (List.mem_reverse.mp (List.mem_of_head? last)))

namespace Cursor

variable {text : List Char} {c d e : Cursor text}

/-- The place does not stand inside a word. -/
def Apart (c : Cursor text) : Prop :=
  ∀ before, before ++ c.rest = text →
    Halts isNameChar before.reverse ∨ Halts isNameChar c.rest

/-- The name is the word that begins here. -/
structure Spells (c : Cursor text) (name : Identifier) : Prop where
  there : c.atName = true
  same : c.name.1 = name
  apart : c.Apart

/-- Only separators stand between the two places. -/
def Parts (c d : Cursor text) : Prop :=
  ∃ gap, gap ++ d.rest = c.rest ∧ ∀ ch ∈ gap, isSeparator ch = true

/-- The names are the next words from here on, and begin at the places. -/
inductive Lists : Cursor text → List Identifier → List (Cursor text) → Prop
  | nil {c : Cursor text} : Lists c [] []
  | cons {c d : Cursor text} {name names places} : c.Parts d → d.Spells name →
      Lists d.name.2 names places → Lists c (name :: names) (d :: places)

theorem offset_of_passed {passed : List Char} (between : passed ++ d.rest = c.rest) :
    d.offset = c.offset + Text.byteLength passed :=
  congrArg offset (ext rfl : d = c.past passed d.rest between)

theorem Apart.of_halts (halts : Halts isNameChar c.rest) : c.Apart := fun _ _ => .inr halts

theorem Apart.start : (start text).Apart := by
  intro before whole
  rw [List.append_left_eq_self.mp whole]
  exact .inl nofun

/-- Behind characters the last of which stands in no name no word goes on. -/
theorem Apart.passed {passed : List Char} (between : passed ++ d.rest = c.rest)
    (last : Halts isNameChar passed.reverse) (apart : passed = [] → c.Apart) : d.Apart := by
  cases reversed : passed.reverse with
  | nil =>
      obtain rfl := List.reverse_eq_nil_iff.mp reversed
      rw [ext between]
      exact apart rfl
  | cons ch front =>
      intro before whole
      left
      obtain ⟨earlier, stands, _⟩ := c.stands
      rw [← between, ← List.append_assoc] at stands
      rw [List.append_cancel_right (whole.trans stands.symm), List.reverse_append, reversed]
      exact .cons (last ch (by rw [reversed]; rfl))

theorem Apart.skipWhile {p : Char → Bool} (other : ∀ ch, p ch = true → isNameChar ch = false)
    (apart : c.Apart) : (c.skipWhile p).Apart :=
  .passed List.takeWhile_append_dropWhile (halts_reverse (fun _ mem => mem_taken mem) other)
    fun _ => apart

theorem Apart.skipSpace (apart : c.Apart) : c.skipSpace.Apart :=
  .skipWhile (fun _ => not_isNameChar_of_isAsciiSpace) apart

theorem Apart.skipBlanks (apart : c.Apart) : c.skipBlanks.Apart :=
  .skipWhile (fun _ blank => not_isNameChar_of_isAsciiSpace (isAsciiSpace_of_isBlank blank)) apart

theorem Apart.advance {ch : Char} (next : c.peek? = some ch) (other : isNameChar ch = false) :
    c.advance.Apart := by
  obtain ⟨rest, here⟩ := peek?_eq_some.mp next
  have between : [ch] ++ c.advance.rest = c.rest := by
    rw [advance_rest, here]
    rfl
  exact .passed between (.cons other) nofun

theorem Apart.operator {operator : Operator}
    (found : c.peek?.bind operator? = some operator) : c.advance.Apart := by
  obtain ⟨ch, next, same⟩ := Option.bind_eq_some_iff.mp found
  refine .advance next ?_
  rw [operator?] at same
  split at same
  · subst ch
    decide
  · split at same
    · subst ch
      decide
    · split at same
      · subst ch
        decide
      · cases same

theorem Apart.expect {ch : Char} (met : c.expect ch = .ok d)
    (other : isNameChar ch = false) : d.Apart := by
  obtain ⟨next, rfl⟩ := expect_eq_ok.mp met
  exact .advance next other

theorem Apart.name (c : Cursor text) : c.name.2.Apart :=
  .of_halts fun _ next => Text.head?_dropWhile next

theorem Apart.skipLineFeed (apart : c.Apart) : c.skipLineFeed.Apart := by
  rw [Cursor.skipLineFeed]
  split
  · exact .advance ‹_› (by decide)
  · exact apart

/-- A comment ends with its line or with the text. -/
theorem Apart.comment (c : Cursor text) : c.comment.2.Apart := by
  rw [Cursor.comment, Cursor.skipLineFeed]
  dsimp only
  split
  · exact .advance ‹_› (by decide)
  · rename_i other
    refine .of_halts fun ch next => absurd ?_ other
    have feed : ch = '\n' := by simpa [isWithinLine] using Text.head?_dropWhile next
    rw [← feed]
    exact next

theorem Apart.statementEnd {endings : List Statement} (ended : c.statementEnd = .ok (endings, d)) :
    d.Apart := by
  rw [Cursor.statementEnd] at ended
  split at ended
  · cases ended
    exact .comment _
  · split at ended
    · cases ended
      exact .advance ‹_› (by decide)
    · cases ended
      exact .skipLineFeed (.skipBlanks (.advance ‹_› (by decide)))
    · rename_i next
      cases ended
      obtain ⟨rest, here⟩ := peek?_eq_some.mp next
      exact .of_halts (halts_of_rest here (by decide))
    · cases ended

/-- White space and comments leave a word behind them whole. What was passed before is `before`. -/
theorem halts_triviaLength (inside : Bool) (before rest : List Char)
    (apart : inside = false → Halts isNameChar before.reverse ∨ Halts isNameChar rest) :
    Halts isNameChar (before ++ rest.take (triviaLength inside rest)).reverse ∨
      Halts isNameChar (rest.drop (triviaLength inside rest)) := by
  fun_induction triviaLength inside rest generalizing before with
  | case1 => exact .inr nofun
  | case2 ch rest ih =>
      rw [List.take_succ_cons, List.drop_succ_cons, List.append_cons]
      refine ih _ fun feed => .inl ?_
      rw [List.reverse_append]
      exact .cons (by rw [bne_eq_false_iff_eq.mp feed]; decide)
  | case3 rest ih =>
      rw [List.take_succ_cons, List.drop_succ_cons, List.take_succ_cons, List.drop_succ_cons,
        List.append_cons, List.append_cons]
      exact ih _ nofun
  | case4 ch rest _ space ih =>
      rw [List.take_succ_cons, List.drop_succ_cons, List.append_cons]
      refine ih _ fun _ => .inl ?_
      rw [List.reverse_append]
      exact .cons (not_isNameChar_of_isAsciiSpace space)
  | case5 ch rest _ _ =>
      rw [List.take_zero, List.append_nil]
      exact apart rfl

theorem Apart.skipTrivia (apart : c.Apart) : c.skipTrivia.Apart := by
  intro before whole
  obtain ⟨earlier, stands, _⟩ := c.stands
  have between : c.rest.take (triviaLength false c.rest) ++ c.skipTrivia.rest = c.rest :=
    List.take_append_drop _ _
  have both := whole.trans stands.symm
  rw [← between, ← List.append_assoc] at both
  rw [List.append_cancel_right both]
  exact halts_triviaLength false earlier c.rest fun _ => apart earlier stands

theorem Parts.refl (c : Cursor text) : c.Parts c := ⟨[], rfl, nofun⟩

theorem Parts.skipBlanks (c : Cursor text) : c.Parts c.skipBlanks := by
  refine ⟨_, List.takeWhile_append_dropWhile, fun ch mem => ?_⟩
  rw [isSeparator, mem_taken mem, Bool.true_or]

theorem Parts.take? (taken : c.take? ',' = some d) : c.Parts d := by
  obtain ⟨next, rfl⟩ := take?_eq_some.mp taken
  obtain ⟨rest, here⟩ := peek?_eq_some.mp next
  refine ⟨[','], ?_, ?_⟩
  · rw [advance_rest, here]
    rfl
  · intro ch mem
    rw [List.mem_singleton.mp mem]
    rfl

theorem Parts.trans (first : c.Parts d) (second : d.Parts e) : c.Parts e := by
  obtain ⟨gap, between, parts⟩ := first
  obtain ⟨others, rest, more⟩ := second
  refine ⟨gap ++ others, ?_, ?_⟩
  · rw [List.append_assoc, rest, between]
  · intro ch mem
    exact (List.mem_append.mp mem).elim (parts ch) (more ch)

theorem Parts.apart (parts : c.Parts d) (apart : c.Apart) : d.Apart := by
  obtain ⟨gap, between, parts⟩ := parts
  exact .passed between (halts_reverse parts fun _ => not_isNameChar_of_isSeparator) fun _ => apart

theorem Lists.before {names : List Identifier} {places : List (Cursor text)} (parts : c.Parts d)
    (lists : d.Lists names places) : c.Lists names places := by
  cases lists with
  | nil => exact .nil
  | cons more spells rest => exact .cons (parts.trans more) spells rest

theorem Lists.spells {names : List Identifier} {places : List (Cursor text)}
    (lists : c.Lists names places) {index : Nat} {name : Identifier}
    (named : names[index]? = some name) (stands : places[index]? = some d) : d.Spells name := by
  induction lists generalizing index with
  | nil => cases named
  | cons parts spells rest ih =>
      cases index with
      | zero =>
          cases named
          cases stands
          exact spells
      | succ index => exact ih named stands

/-! The lists of names that are read. -/

theorem lists_namesWithin (bound : Nat) (apart : c.Apart) :
    ∃ places, c.Lists (c.namesWithin bound).1 places := by
  induction bound generalizing c with
  | zero => exact ⟨[], .nil⟩
  | succ bound ih =>
      rw [namesWithin]
      dsimp only
      split
      · rename_i there
        obtain ⟨places, lists⟩ := ih (.name c.skipBlanks)
        exact ⟨_, .cons (.skipBlanks c) ⟨there, rfl, apart.skipBlanks⟩ lists⟩
      · exact ⟨[], .nil⟩

theorem lists_commaNamesWithin (bound : Nat) (apart : c.Apart) :
    ∃ places, c.Lists (c.commaNamesWithin bound).1 places := by
  induction bound generalizing c with
  | zero => exact ⟨[], .nil⟩
  | succ bound ih =>
      rw [commaNamesWithin]
      split
      · exact ⟨[], .nil⟩
      · rename_i next taken
        have parts := (Parts.take? taken).trans (.skipBlanks next)
        dsimp only
        split
        · rename_i there
          obtain ⟨places, lists⟩ := ih (Apart.name next.skipBlanks).skipBlanks
          exact ⟨_, .cons parts ⟨there, rfl, parts.apart apart⟩ (.before (.skipBlanks _) lists)⟩
        · exact ⟨[], .nil⟩

theorem lists_targetsWithin (bound : Nat) (apart : c.Apart) :
    ∃ places, c.Lists (c.targetsWithin bound).1 places := by
  induction bound generalizing c with
  | zero => exact ⟨[], .nil⟩
  | succ bound ih =>
      rw [targetsWithin]
      dsimp only
      split
      · rename_i there
        have spells : c.skipBlanks.Spells c.skipBlanks.name.1 := ⟨there, rfl, apart.skipBlanks⟩
        split
        · rename_i next taken
          have parts := (Parts.skipBlanks c.skipBlanks.name.2).trans (.take? taken)
          obtain ⟨places, lists⟩ := ih (parts.apart (.name _))
          exact ⟨_, .cons (.skipBlanks c) spells (.before parts lists)⟩
        · exact ⟨_, .cons (.skipBlanks c) spells .nil⟩
      · exact ⟨[], .nil⟩

theorem lists_targets? {targets : List Identifier} (apart : c.Apart)
    (found : c.targets? = some (targets, d)) : (∃ places, c.Lists targets places) ∧ d.Apart := by
  rw [targets?] at found
  split at found
  · cases found
  · rename_i names after _ read
    obtain ⟨next, taken, same⟩ := Option.map_eq_some_iff.mp found
    cases same
    obtain ⟨first, rfl⟩ := take?_eq_some.mp taken
    refine ⟨?_, .advance first (by decide)⟩
    have lists := lists_targetsWithin c.rest.length apart
    rwa [read] at lists

theorem Spells.spellsAt {name : Identifier} (spells : c.Spells name) :
    Text.SpellsAt text c.offset name := by
  obtain ⟨before, whole, length⟩ := c.stands
  obtain ⟨there, rfl, apart⟩ := spells
  refine ⟨isName_name there, before, c.name.2.rest, ?_, length, ?_, ?_⟩
  · rw [name_toList, name_rest, List.takeWhile_append_dropWhile, whole]
  · refine fun _ last => isNameByte_getLast ((apart before whole).resolve_right ?_) last
    intro halts
    obtain ⟨ch, rest, same, begins⟩ := atName_iff.mp there
    have inside := isNameChar_of_isNameStart begins
    rw [halts ch (by rw [same]; rfl)] at inside
    cases inside
  · exact fun _ first => isNameByte_head (fun _ next => Text.head?_dropWhile next) first

theorem holeAt_of_peek? (next : c.peek? = some '?') : Text.HoleAt text c.offset := by
  obtain ⟨before, whole, length⟩ := c.stands
  obtain ⟨rest, here⟩ := peek?_eq_some.mp next
  exact .inl ⟨before, rest, here ▸ whole, length⟩

end Cursor

end Runbook
