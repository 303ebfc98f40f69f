import Runbook.Proofs.Syntax.Reread

/-!
What mends a text at a place where its reading has stopped.

A few characters go on from there: they end what is to be read, with an empty pair of brackets or
braces where nothing was read yet, and then what is around it. What was read before is read again
if nothing of it goes on into them, so each construct is mended by what mends the part at fault and
the rest of its own spelling.
-/
namespace Runbook

open Cursor

/-- What a reader is to read. -/
structure Aim where
  /-- May this stand behind what is read? -/
  fits : List Char → Prop
  /-- The characters that what stands before would take. -/
  clings : Char → Bool
  reads : (text : List Char) → Cursor text → Cursor text → Prop

/-- The place `d`, where a reader that began at `c` has stopped, can be followed by `w`. -/
structure Cursor.Mends {text : List Char} (aim : Aim) (c d : Cursor text) (w : List Char) :
    Prop where
  onward : d.left ≤ c.left
  blank : ∀ more, aim.fits more → Halts Text.isBlank (w ++ more)
  first : c.left ≤ d.left → ∀ more, aim.fits more → Halts aim.clings (w ++ more)
  reads : ∀ more, aim.fits more → ∀ (other : List Char) (c' : Cursor other),
    c.Twins 0 d.rest (w ++ more) c' → ∃ after, aim.reads other c' after ∧ after.rest = more

section
variable {text : List Char} {c d s : Cursor text} {aim others : Aim} {w : List Char}

/-- What ends a part, and a tail behind it, end the whole. -/
theorem Cursor.Mends.lift (part : s.Mends others d w) (tail : List Char)
    (onward : s.left ≤ c.left) (fits : ∀ more, aim.fits more → others.fits (tail ++ more))
    (first : c.left ≤ d.left → ∀ more, aim.fits more → Halts aim.clings (w ++ (tail ++ more)))
    (reads : ∀ more, aim.fits more → ∀ (other : List Char) (c' s' after' : Cursor other),
      c.Twins 0 d.rest (w ++ (tail ++ more)) c' → s.Twins 0 d.rest (w ++ (tail ++ more)) s' →
      others.reads other s' after' → after'.rest = tail ++ more →
      ∃ after, aim.reads other c' after ∧ after.rest = more) :
    c.Mends aim d (w ++ tail) where
  onward := Nat.le_trans part.onward onward
  blank more fit := by
    rw [List.append_assoc]
    exact part.blank _ (fits more fit)
  first here more fit := by
    rw [List.append_assoc]
    exact first here more fit
  reads more fit other c' twins := by
    rw [List.append_assoc] at twins
    obtain ⟨s', twins'⟩ := twins.reach onward part.onward
    obtain ⟨after', reads', rest⟩ := part.reads _ (fits more fit) other s' twins'
    exact reads more fit other c' s' after' twins twins' reads' rest

/-- What ends the last part of the whole ends the whole. -/
theorem Cursor.Mends.pass (part : s.Mends others d w) (onward : s.left ≤ c.left)
    (fits : ∀ more, aim.fits more → others.fits more)
    (first : c.left ≤ d.left → ∀ more, aim.fits more → Halts aim.clings (w ++ more))
    (reads : ∀ more, aim.fits more → ∀ (other : List Char) (c' s' after' : Cursor other),
      c.Twins 0 d.rest (w ++ more) c' → s.Twins 0 d.rest (w ++ more) s' →
      others.reads other s' after' → after'.rest = more →
      ∃ after, aim.reads other c' after ∧ after.rest = more) : c.Mends aim d w := by
  have whole := part.lift [] onward fits first reads
  rwa [List.append_nil] at whole

/-- Behind the beginning of the whole nothing clings to what ends its last part. -/
theorem Cursor.Mends.enter (part : s.Mends others d w) (onward : s.left < c.left)
    (fits : ∀ more, aim.fits more → others.fits more)
    (reads : ∀ more, aim.fits more → ∀ (other : List Char) (c' s' after' : Cursor other),
      c.Twins 0 d.rest (w ++ more) c' → s.Twins 0 d.rest (w ++ more) s' →
      others.reads other s' after' → after'.rest = more →
      ∃ after, aim.reads other c' after ∧ after.rest = more) : c.Mends aim d w :=
  part.pass (Nat.le_of_lt onward) fits
    (fun here => absurd (Nat.lt_of_le_of_lt part.onward onward) (Nat.not_lt_of_le here)) reads

end

/-! What is looked for by the readers. -/

def closers : List Char := [')', ']', '\x7d']

/-- What holds an expression is closed here. -/
def Closes (more : List Char) : Prop := ∃ ch ∈ closers, more.head? = some ch

/-- Would it be taken for more of a name or of white space? -/
def goesOn (ch : Char) : Bool := isNameChar ch || Text.isAsciiSpace ch

namespace Aim

def expression : Aim where
  fits := Closes
  clings := goesOn
  reads _ c after := ∃ value, Reads c (.expression value) after

def operations : Aim where
  fits := Closes
  clings := goesOn
  reads _ c after := ∀ offset left, ∃ value, Reads c (.operations offset left value) after

def term : Aim where
  fits := Closes
  clings := goesOn
  reads _ c after := ∃ value, Reads c (.term value) after

/-- A string from behind its opening quote. -/
def quoted : Aim where
  fits _ := True
  clings _ := false
  reads _ c after := ∃ meant, ∀ bound, c.left < bound → c.stringWithin bound = .ok (meant, after)

def fields : Aim where
  fits _ := True
  clings := goesOn
  reads _ c after := ∃ value, Reads c (.fields value) after

def restriction : Aim where
  fits _ := True
  clings := goesOn
  reads _ c after := ∀ offset setting, ∃ value, Reads c (.restriction offset setting value) after

def bracedBlock : Aim where
  fits _ := True
  clings := goesOn
  reads _ c after := ∃ value, Reads c (.bracedBlock value) after

def block : Aim where
  fits more := more.head? = some '\x7d'
  clings := Text.isAsciiSpace
  reads _ c after := ∃ value, Reads c (.block value) after

def statement : Aim where
  fits more := more.head? = some '\x7d'
  clings := Text.isAsciiSpace
  reads _ c after := ∃ value, Reads c (.statement value) after

/-- A procedure, which may have to be looked at as one. -/
def declaration (looked : Bool) : Aim where
  fits _ := True
  clings := Text.isAsciiSpace
  reads _ c after := (∃ value, Reads c (.declaration value) after) ∧
    (looked = true → c.atDeclaration = true)

/-- Procedures up to the end of the text, of which there is at least one. -/
def procedures : Aim where
  fits more := more = []
  clings _ := false
  reads _ c _ := ∃ procedures, procedures ≠ [] ∧ Declares c procedures

end Aim

/-! What ends a construct of which nothing is read yet. -/

section
variable {text other : List Char} {c d s middle after : Cursor text} {c' : Cursor other}
  {more w : List Char}

theorem Closes.halts {p : Char → Bool} (closes : Closes more) (other : closers.any p = false) :
    Halts p more := by
  obtain ⟨ch, mem, next⟩ := closes
  intro first same
  cases next.symm.trans same
  exact Bool.eq_false_iff.mpr (List.any_eq_false.mp other ch mem)

theorem Closes.meets (closes : Closes c.rest) : c.Meets closers := by
  have other := closes.halts (p := Text.isBlank) (by decide)
  obtain ⟨ch, mem, next⟩ := closes
  obtain ⟨rest, here⟩ := List.head?_eq_some_iff.mp next
  exact .of_rest here (other ch next) mem

/-- No operator follows where something closes. -/
theorem Closes.last (closes : Closes c.rest) (offset : Nat) (left : Expression) :
    Reads c (.operations offset left left) c := by
  have stays : c.skipBlanks = c := skipWhile_of_halts (closes.halts (by decide))
  have last : Reads c (.operations offset left left) c.skipBlanks :=
    .last (closes.meets.operator (by decide))
  rwa [stays] at last

theorem reads_unit (here : c.skipBlanks.rest = '(' :: ')' :: more) :
    ∃ value after, Reads c (.term value) after ∧ after.rest = more := by
  have inner := advance_of_rest here
  have stays := skipBlanks_of_rest inner (by decide)
  refine ⟨_, _, .unit (peek?_of_rest here) (take?_of_rest (by rw [stays, inner])), ?_⟩
  rw [stays, advance_of_rest inner]

theorem reads_braces (here : c.rest = '\x7b' :: '\x7d' :: more) :
    ∃ value after, Reads c (.bracedBlock value) after ∧ after.rest = more := by
  have inner := advance_of_rest here
  have stays : c.advance.skipBlanks.skipLineFeed = c.advance := by
    rw [skipBlanks_of_rest inner (by decide), skipLineFeed, if_neg]
    rw [peek?_of_rest inner]
    decide
  have again := skipBlanks_of_rest inner (by decide)
  have none : Reads c.advance.skipBlanks.skipLineFeed (.block []) c.advance.skipBlanks := by
    rw [stays]
    exact .noStatement (by rw [again, peek?_of_rest inner])
  exact ⟨_, _, .bracedBlock (expect_of_rest here) none
    (expect_of_rest (by rw [again, inner])), by rw [again, advance_of_rest inner]⟩

theorem reads_restriction (here : c.rest = '\x7b' :: '\x7d' :: more) : ∃ after : Cursor text,
    (∀ offset setting, ∃ value, Reads c (.restriction offset setting value) after) ∧
      after.rest = more := by
  have stays : c.skipSpace = c := skipWhile_of_halts (halts_of_rest here (by decide))
  obtain ⟨block, after, reads, rest⟩ := reads_braces here
  rw [← stays] at reads
  exact ⟨after, fun offset setting => ⟨_, .restriction reads⟩, rest⟩

theorem reads_quote (here : (c.skipWhile isPlain).rest = '"' :: more) :
    Aim.quoted.reads text c (c.skipWhile isPlain).advance := by
  refine ⟨c.taken isPlain, fun bound enough => ?_⟩
  obtain ⟨bound, rfl⟩ := Nat.exists_eq_succ_of_ne_zero (Nat.ne_zero_of_lt enough)
  rw [stringWithin]
  dsimp only
  rw [take?_of_rest here]

/-- A string goes on behind an escape. -/
theorem reads_escaped {ch : Char} (taken : (c.skipWhile isPlain).take? '\\' = some middle)
    (found : middle.peek?.bind escaped? = some ch)
    (quoted : Aim.quoted.reads text middle.advance after) : Aim.quoted.reads text c after := by
  obtain ⟨meant, read⟩ := quoted
  have slash := left_take? taken
  have plain := left_skipWhile_le isPlain c
  have letter := left_advance_le middle
  have other : (c.skipWhile isPlain).take? '"' = none := by
    rw [take?_eq_none, (take?_eq_some.mp taken).1]
    decide
  refine ⟨c.taken isPlain ++ ch :: meant, fun bound enough => ?_⟩
  obtain ⟨bound, rfl⟩ := Nat.exists_eq_succ_of_ne_zero (Nat.ne_zero_of_lt enough)
  rw [stringWithin]
  dsimp only
  rw [other, taken]
  dsimp only
  rw [found]
  dsimp only
  rw [read bound (by omega)]
  rfl

theorem reads_string (next : c.peek? = some '"') (quoted : Aim.quoted.reads text c.advance after) :
    ∃ meant, c.string = .ok (meant, after) := by
  obtain ⟨meant, read⟩ := quoted
  refine ⟨String.ofList meant, ?_⟩
  rw [string, ← left, read _ (left_advance next)]
  rfl

/-- A procedure that is a name and an empty block. -/
theorem reads_named (here : c.rest = 'x' :: '\x7b' :: '\x7d' :: more) :
    c.atDeclaration = true ∧ ∃ value after, Reads c (.declaration value) after ∧
      after.rest = more := by
  have isName : IsName "x" := by decide
  obtain ⟨there, named, after⟩ := name_spelled isName here (.cons rfl)
  have stays := skipBlanks_of_rest after (by decide)
  have listed : c.name.2.names = ([], c.name.2) := by
    rw [names_of_halts (by rw [stays]; exact halts_of_rest after rfl), stays]
  have remark : c.name.2.signature = (none, c.name.2) := by
    rw [signature, take?_of_halts (halts_of_rest after rfl)]
  have head : c.name.2.names.2.signature.2.skipSpace = c.name.2 := by
    rw [listed, remark]
    exact skipWhile_of_halts (halts_of_rest after rfl)
  obtain ⟨block, last, reads, rest⟩ := reads_braces after
  rw [← head] at reads
  have brace : c.names.2.rest = '\x7b' :: '\x7d' :: more := by
    rw [names_of_atName there, listed, after]
  exact ⟨atDeclaration_of_rest there brace rfl, _, last, .declaration there reads, rest⟩

theorem reads_grouping {inner : Expression} (next : c.skipBlanks.peek? = some '(')
    (first : Reads c.skipBlanks.advance.skipBlanks (.expression inner) middle)
    (here : middle.skipBlanks.rest = ')' :: more) :
    ∃ value after, Reads c (.term value) after ∧ after.rest = more := by
  have none : c.skipBlanks.advance.skipBlanks.take? ')' = none := by
    refine take?_eq_none.mpr fun closed => ?_
    have begins := first.begins
    rw [Phrase.Begins, skipBlanks_skipBlanks, closed] at begins
    exact absurd begins (by decide)
  exact ⟨_, _, .grouping next none first (expect_of_rest here), advance_of_rest here⟩

/-- A setting has a name behind its sign. -/
theorem reads_signed {sign : Char} {what : String} {name : Identifier}
    (is : (sign, what) = ('@', "role") ∨ (sign, what) = ('^', "place"))
    (next : c.skipBlanks.peek? = some sign)
    (named : c.skipBlanks.advance.identifier what = .ok (name, middle))
    (within : ∀ offset setting, ∃ value, Reads middle (.restriction offset setting value) after) :
    ∃ value, Reads c (.term value) after := by
  rcases is with is | is
  · cases is
    obtain ⟨value, reads⟩ := within c.skipBlanks.offset (.role name)
    have none : c.skipBlanks.advance.take? '*' = none := by
      refine take?_eq_none.mpr fun star => ?_
      have there := (identifier_eq_ok.mp named).1
      rw [atName, star] at there
      exact absurd there (by decide)
    exact ⟨value, .role next none named reads⟩
  · cases is
    obtain ⟨value, reads⟩ := within c.skipBlanks.offset (.place name)
    exact ⟨value, .place next named reads⟩

theorem reads_lastField {label : String} {named begun : Cursor text} {value : Expression}
    (next : c.skipSpace.peek? = some '"') (quoted : c.skipSpace.string = .ok (label, named))
    (equal : named.skipSpace.expect '=' = .ok begun)
    (first : Reads begun.skipSpace (.expression value) middle)
    (here : middle.skipSpace.rest = ']' :: more) :
    ∃ after, Reads c (.fields [(label, value)]) after ∧ after.rest = more := by
  have other : middle.skipSpace.take? ',' = none := take?_of_halts (halts_of_rest here (by decide))
  exact ⟨_, .lastField (unclosed_of_quote next) next quoted equal first other (take?_of_rest here),
    advance_of_rest here⟩

/-- The last field of a tablet, of which the label is read. -/
theorem reads_labelled {label : String} {named : Cursor text}
    (next : c.skipSpace.peek? = some '"') (quoted : c.skipSpace.string = .ok (label, named))
    (here : named.skipSpace.rest = '=' :: '(' :: ')' :: ']' :: more) :
    ∃ value after, Reads c (.fields value) after ∧ after.rest = more := by
  have sign := advance_of_rest here
  have stays : named.skipSpace.advance.skipSpace = named.skipSpace.advance :=
    skipWhile_of_halts (halts_of_rest sign (by decide))
  have behind : named.skipSpace.advance.skipSpace.skipBlanks.rest = '(' :: ')' :: ']' :: more := by
    rw [stays, skipBlanks_of_rest sign (by decide), sign]
  obtain ⟨value, middle, first, rest⟩ := reads_unit behind
  have closes : Closes middle.rest := ⟨']', by decide, by rw [rest]; rfl⟩
  obtain ⟨after, reads, rest⟩ :=
    reads_lastField next quoted (expect_of_rest here) (.expression first (closes.last _ _))
      ((congrArg Cursor.rest (skipSpace_of_rest rest (by decide))).trans rest)
  exact ⟨_, after, reads, rest⟩

theorem Cursor.statementEnd_of_brace (brace : c.skipBlanks.peek? = some '\x7d') :
    c.statementEnd = .ok ([], c.skipBlanks) := by
  have uncommented : ¬c.skipBlanks.atComment = true := fun begins => by
    cases brace.symm.trans (peek?_of_atComment begins)
  rw [statementEnd, if_neg uncommented, brace]
  rfl

theorem Reads.onlyStatement {statement : Statement}
    (reads : Reads c.skipBlanks (.statement statement) middle)
    (brace : middle.skipBlanks.peek? = some '\x7d') :
    Reads c (.block [statement]) middle.skipBlanks := by
  have again := skipBlanks_skipBlanks middle
  have none : Reads middle.skipBlanks (.block []) middle.skipBlanks.skipBlanks :=
    .noStatement (by rw [again]; exact brace)
  rw [again] at none
  exact reads.block_of_statement (statementEnd_of_brace brace) none

/-- What is passed up to the stop is passed in the other text. -/
theorem Cursor.Twins.skipWhile_rest {p : Char → Bool} {new : List Char}
    (stands : d = c ∨ d = c.skipWhile p) (halts : Halts p new)
    (twins : c.Twins 0 d.rest new c') : (c'.skipWhile p).rest = new := by
  rcases stands with rfl | rfl
  · rw [skipWhile_rest, (twins.parted rfl).2, Text.dropWhile_eq_self halts]
  · exact ((twins.skipWhile (Nat.le_refl _) fun _ => halts).1.parted rfl).2

/-- What is looked at as a procedure is so where the other text goes on with a brace. -/
theorem Cursor.Twins.atDeclaration_of_brace {shift : Nat} {old new : List Char}
    (twins : c.Twins shift old new c') (inside : old.length ≤ c.names.2.left)
    (brace : c.names.2.left = old.length → new.head? = some '\x7b')
    (declares : c.atDeclaration = true) : c'.atDeclaration = true := by
  rcases Nat.eq_or_lt_of_le inside with stop | before
  · have head := brace stop.symm
    have halts {p : Char → Bool} (other : p '\x7b' = false) : Halts p new := by
      intro ch next
      cases head.symm.trans next
      exact other
    obtain ⟨listed, _⟩ := twins.names inside fun _ => ⟨halts (by decide), halts (by decide)⟩
    rw [Cursor.atDeclaration, Bool.and_eq_true] at declares
    have name := left_name declares.1
    have more := left_names_le c.name.2
    have names : c.names.2 = c.name.2.names.2 := by rw [names_of_atName declares.1]
    rw [← names] at more
    obtain ⟨rest, rfl⟩ := List.head?_eq_some_iff.mp head
    refine atDeclaration_of_rest ?_ (listed.parted stop.symm).2 rfl
    rw [twins.atName (by omega), declares.1]
  · rwa [twins.atDeclaration before]

theorem Reads.opens {block : Block} (reads : Reads c (.bracedBlock block) after) :
    c.peek? = some '\x7b' := by
  cases reads with
  | bracedBlock opened _ _ => exact (expect_eq_ok.mp opened).1

namespace Cursor.Mends

theorem onward_of_stands {p : Char → Bool} (stands : d = c ∨ d = c.skipWhile p) :
    d.left ≤ c.left := by
  rcases stands with rfl | rfl
  · exact Nat.le_refl _
  · exact left_skipWhile_le p c

theorem halts_name {cs : List Char} (halts : Halts goesOn cs) : Halts isNameChar cs :=
  halts.mono fun _ word => by rw [goesOn, word, Bool.true_or]

theorem halts_space {cs : List Char} (halts : Halts goesOn cs) : Halts Text.isAsciiSpace cs :=
  halts.mono fun _ space => by rw [goesOn, space, Bool.or_true]

theorem unit (stands : d = c ∨ d = c.skipBlanks) : c.Mends .term d ['(', ')'] where
  onward := onward_of_stands stands
  blank _ _ := .cons rfl
  first _ _ _ := .cons (by decide)
  reads more _ _ _ twins := by
    obtain ⟨value, after, reads, rest⟩ := reads_unit (twins.skipWhile_rest stands (.cons rfl))
    exact ⟨after, ⟨value, reads⟩, rest⟩

theorem operand : c.Mends .operations c [] where
  onward := Nat.le_refl _
  blank _ closes := closes.halts (by decide)
  first _ _ closes := closes.halts (by decide)
  reads more closes _ c' twins := by
    have here : c'.rest = more := (twins.parted rfl).2
    have closes : Closes c'.rest := here ▸ closes
    exact ⟨c', fun offset left => ⟨left, closes.last offset left⟩, here⟩

theorem noField (stands : d = c ∨ d = c.skipSpace) : c.Mends .fields d [']'] where
  onward := onward_of_stands stands
  blank _ _ := .cons rfl
  first _ _ _ := .cons (by decide)
  reads more _ _ _ twins := by
    have here := twins.skipWhile_rest stands (.cons rfl)
    exact ⟨_, ⟨_, .noField (take?_of_rest here)⟩, advance_of_rest here⟩

theorem braces : c.Mends .bracedBlock c ['\x7b', '\x7d'] where
  onward := Nat.le_refl _
  blank _ _ := .cons rfl
  first _ _ _ := .cons (by decide)
  reads more _ _ _ twins := by
    obtain ⟨value, after, reads, rest⟩ := reads_braces (twins.parted rfl).2
    exact ⟨after, ⟨value, reads⟩, rest⟩

theorem restricted : c.Mends .restriction c ['\x7b', '\x7d'] where
  onward := Nat.le_refl _
  blank _ _ := .cons rfl
  first _ _ _ := .cons (by decide)
  reads more _ _ _ twins := reads_restriction (twins.parted rfl).2

theorem noStatement (stands : d = c ∨ d = c.skipBlanks) : c.Mends .block d [] where
  onward := onward_of_stands stands
  blank more brace := by
    intro ch next
    cases brace.symm.trans next
    rfl
  first _ more brace := by
    intro ch next
    cases brace.symm.trans next
    rfl
  reads more brace _ c' twins := by
    obtain ⟨rest, rfl⟩ := List.head?_eq_some_iff.mp brace
    have here := twins.skipWhile_rest stands (.cons rfl)
    exact ⟨_, ⟨_, .noStatement (peek?_of_rest here)⟩, here⟩

theorem named (looked : Bool) : c.Mends (.declaration looked) c ['x', '\x7b', '\x7d'] where
  onward := Nat.le_refl _
  blank _ _ := .cons rfl
  first _ _ _ := .cons rfl
  reads more _ _ _ twins := by
    obtain ⟨looks, value, after, reads, rest⟩ := reads_named (twins.parted rfl).2
    exact ⟨after, ⟨⟨value, reads⟩, fun _ => looks⟩, rest⟩

theorem halts_of_brace {p : Char → Bool} {cs : List Char} (brace : cs.head? = some '\x7d')
    (other : p '\x7d' = false) : Halts p cs := by
  intro ch next
  cases brace.symm.trans next
  exact other

theorem closes_of_brace {cs : List Char} (brace : cs.head? = some '\x7d') : Closes cs :=
  ⟨_, by decide, brace⟩

theorem eq_of_left (same : c.left = d.left) : c = d := by
  have suffix : d.rest <:+ c.rest := passed_of_left_le (Nat.le_of_eq same.symm)
  exact ext (suffix.eq_of_length same.symm).symm

theorem rest_of_endless (endless : ¬c.EndsLine) (part : c.comment.2.Mends aim d w) :
    d.rest = [] := by
  have last : c.comment.2.rest = [] := by_contra fun more => endless (endsLine_of_more more)
  have onward := part.onward
  rw [left, left, last] at onward
  exact List.length_eq_zero_iff.mp (Nat.le_zero.mp onward)

/-! Expressions. -/

theorem expression_of_term (part : c.Mends .term d w) : c.Mends .expression d w := by
  refine part.pass (Nat.le_refl _) (fun _ closes => closes) part.first ?_
  intro more closes other c' s' after' twins twins' ⟨value, reads⟩ rest
  obtain rfl := twins.unique twins'
  have closes : Closes after'.rest := rest ▸ closes
  exact ⟨after', ⟨_, .expression reads (closes.last _ _)⟩, rest⟩

theorem expression_of_operations {left : Expression} (first : Reads c (.term left) middle)
    (part : middle.Mends .operations d w) : c.Mends .expression d w := by
  have onward := first.left_lt rfl
  have further := part.onward
  refine part.enter (by omega) (fun _ closes => closes) ?_
  intro more closes other c' s' after' twins twins' reads rest
  have closed : Closes after'.rest := rest ▸ closes
  obtain ⟨value, tail⟩ := reads c'.offset (left.moved 0)
  have head := first.again (part.blank more closes) twins twins'
    (tail.endsTerm (closed.meets.endsTerm (by decide)))
  exact ⟨after', ⟨_, .expression head tail⟩, rest⟩

theorem operations_of_term {operator : Operator}
    (found : c.skipBlanks.peek?.bind operator? = some operator)
    (part : c.skipBlanks.advance.Mends .term d w) : c.Mends .operations d w := by
  obtain ⟨ch, next, _⟩ := Option.bind_eq_some_iff.mp found
  have sign := left_advance next
  have blanks := left_skipBlanks_le c
  have further := part.onward
  have inside : d.rest.length = d.left := rfl
  refine part.enter (by omega) (fun _ closes => closes) ?_
  intro more closes other c' s' after' twins twins' ⟨value, reads⟩ rest
  have spaced := twins.skipBlanks (part.blank more closes) (by omega)
  obtain rfl := twins'.unique (spaced.advance (by omega))
  have closed : Closes after'.rest := rest ▸ closes
  exact ⟨after', fun offset left => ⟨_, .operator (by rwa [spaced.peek? (by omega)]) reads
    (closed.last _ _)⟩, rest⟩

theorem operations_of_operations {operator : Operator} {right : Expression}
    (found : c.skipBlanks.peek?.bind operator? = some operator)
    (first : Reads c.skipBlanks.advance (.term right) middle)
    (part : middle.Mends .operations d w) : c.Mends .operations d w := by
  obtain ⟨ch, next, _⟩ := Option.bind_eq_some_iff.mp found
  have sign := left_advance next
  have blanks := left_skipBlanks_le c
  have onward := first.left_lt rfl
  have further := part.onward
  have inside : d.rest.length = d.left := rfl
  refine part.enter (by omega) (fun _ closes => closes) ?_
  intro more closes other c' s' after' twins twins' reads rest
  have blank := part.blank more closes
  have spaced := twins.skipBlanks blank (by omega)
  have closed : Closes after'.rest := rest ▸ closes
  refine ⟨after', fun offset left => ?_, rest⟩
  obtain ⟨value, tail⟩ := reads offset (.operation offset operator left (right.moved 0))
  have head := first.again blank (spaced.advance (by omega)) twins'
    (tail.endsTerm (closed.meets.endsTerm (by decide)))
  exact ⟨value, .operator (by rwa [spaced.peek? (by omega)]) head tail⟩

/-! Terms. -/

theorem term_of_inner (next : c.skipBlanks.peek? = some '(')
    (part : c.skipBlanks.advance.skipBlanks.Mends .expression d w) :
    c.Mends .term d (w ++ [')']) := by
  have opened := left_advance next
  have blanks := left_skipBlanks_le c
  have more := left_skipBlanks_le c.skipBlanks.advance
  have further := part.onward
  have inside : d.rest.length = d.left := rfl
  have closes (more : List Char) : Closes ([')'] ++ more) := ⟨')', by decide, rfl⟩
  refine part.lift [')'] (by omega) (fun more _ => closes more) (fun here => by omega) ?_
  intro more _ other c' s' after' twins twins' ⟨value, reads⟩ rest
  have blank := part.blank _ (closes more)
  have spaced := twins.skipBlanks blank (by omega)
  obtain rfl := twins'.unique ((spaced.advance (by omega)).skipBlanks blank (by omega))
  have stays : after'.skipBlanks = after' := skipBlanks_of_rest rest (by decide)
  obtain ⟨value, last, reads, rest⟩ :=
    reads_grouping ((spaced.peek? (by omega)).trans next) reads (stays ▸ rest)
  exact ⟨last, ⟨value, reads⟩, rest⟩

theorem term_of_closing {inner : Expression} (next : c.skipBlanks.peek? = some '(')
    (first : Reads c.skipBlanks.advance.skipBlanks (.expression inner) middle) :
    c.Mends .term middle.skipBlanks [')'] := by
  have opened := left_advance next
  have blanks := left_skipBlanks_le c
  have spaces := left_skipBlanks_le c.skipBlanks.advance
  have onward := first.left_lt rfl
  have behind := left_skipBlanks_le middle
  have inside : middle.skipBlanks.rest.length = middle.skipBlanks.left := rfl
  refine ⟨by omega, fun _ _ => .cons rfl, fun here => by omega, ?_⟩
  intro more _ other c' twins
  have blank : Halts Text.isBlank ([')'] ++ more) := .cons rfl
  have spaced := twins.skipBlanks blank (by omega)
  have begun := (spaced.advance (by omega)).skipBlanks blank (by omega)
  obtain ⟨middle', parted⟩ := begun.reach (m := middle) (by omega) (by omega)
  have rest : middle'.skipBlanks.rest = ')' :: more :=
    ((parted.skipBlanks blank (Nat.le_refl _)).parted rfl).2
  have meets : middle'.Meets [')'] := ⟨_, List.mem_singleton_self _, peek?_of_rest rest⟩
  have head :=
    first.again blank begun parted ⟨meets.endsTerm (by decide), meets.operator (by decide)⟩
  obtain ⟨value, last, reads, rest⟩ :=
    reads_grouping ((spaced.peek? (by omega)).trans next) head rest
  exact ⟨last, ⟨value, reads⟩, rest⟩

theorem term_of_string (next : c.skipBlanks.peek? = some '"')
    (part : c.skipBlanks.advance.Mends .quoted d w) : c.Mends .term d w := by
  have opened := left_advance next
  have blanks := left_skipBlanks_le c
  have onward := part.onward
  have inside : d.rest.length = d.left := rfl
  refine part.enter (by omega) (fun _ _ => trivial) ?_
  intro more _ other c' s' after' twins twins' quoted rest
  have spaced := twins.skipBlanks (part.blank more trivial) (by omega)
  obtain rfl := twins'.unique (spaced.advance (by omega))
  have next' := (spaced.peek? (by omega)).trans next
  obtain ⟨meant, read⟩ := reads_string next' quoted
  exact ⟨after', ⟨_, .string next' read⟩, rest⟩

theorem term_of_fields (next : c.skipBlanks.peek? = some '[')
    (part : c.skipBlanks.advance.Mends .fields d w) : c.Mends .term d w := by
  have opened := left_advance next
  have blanks := left_skipBlanks_le c
  have onward := part.onward
  have inside : d.rest.length = d.left := rfl
  refine part.enter (by omega) (fun _ _ => trivial) ?_
  intro more _ other c' s' after' twins twins' ⟨value, reads⟩ rest
  have spaced := twins.skipBlanks (part.blank more trivial) (by omega)
  obtain rfl := twins'.unique (spaced.advance (by omega))
  exact ⟨after', ⟨_, .tablet ((spaced.peek? (by omega)).trans next) reads⟩, rest⟩

theorem term_of_inherited (next : c.skipBlanks.peek? = some '@')
    (taken : c.skipBlanks.advance.take? '*' = some middle)
    (part : middle.Mends .restriction d w) : c.Mends .term d w := by
  have sign := left_advance next
  have star := left_take? taken
  have blanks := left_skipBlanks_le c
  have onward := part.onward
  have inside : d.rest.length = d.left := rfl
  refine part.enter (by omega) (fun _ _ => trivial) ?_
  intro more _ other c' s' after' twins twins' within rest
  have spaced := twins.skipBlanks (part.blank more trivial) (by omega)
  obtain ⟨_, taken', begun⟩ := (spaced.advance (by omega)).take? (by omega) taken
  obtain rfl := twins'.unique begun
  obtain ⟨value, reads⟩ := within c'.skipBlanks.offset .inherit
  exact ⟨after', ⟨value, .inherited ((spaced.peek? (by omega)).trans next) taken' reads⟩, rest⟩

theorem term_of_sign {sign : Char} {what : String}
    (is : (sign, what) = ('@', "role") ∨ (sign, what) = ('^', "place"))
    (next : c.skipBlanks.peek? = some sign) :
    c.Mends .term c.skipBlanks.advance ['x', '\x7b', '\x7d'] := by
  have signed := left_advance next
  have blanks := left_skipBlanks_le c
  have inside : c.skipBlanks.advance.rest.length = c.skipBlanks.advance.left := rfl
  refine ⟨by omega, fun _ _ => .cons rfl, fun here => by omega, ?_⟩
  intro more _ other c' twins
  have spaced := twins.skipBlanks (.cons rfl) (by omega)
  have here := ((spaced.advance (by omega)).parted rfl).2
  have isName : IsName "x" := by decide
  obtain ⟨there, named, rest⟩ := name_spelled isName here (.cons rfl)
  obtain ⟨after', within, rest⟩ := reads_restriction rest
  obtain ⟨value, reads⟩ := reads_signed is ((spaced.peek? (by omega)).trans next)
    (identifier_eq_ok.mpr ⟨there, rfl⟩) within
  exact ⟨after', ⟨value, reads⟩, rest⟩

theorem term_of_signed {sign : Char} {what : String} {name : Identifier}
    (is : (sign, what) = ('@', "role") ∨ (sign, what) = ('^', "place"))
    (next : c.skipBlanks.peek? = some sign)
    (named : c.skipBlanks.advance.identifier what = .ok (name, middle))
    (part : middle.Mends .restriction d w) : c.Mends .term d w := by
  have signed := left_advance next
  have word := left_identifier_le named
  have blanks := left_skipBlanks_le c
  have onward := part.onward
  have inside : d.rest.length = d.left := rfl
  refine part.enter (by omega) (fun _ _ => trivial) ?_
  intro more _ other c' s' after' twins twins' within rest
  have spaced := twins.skipBlanks (part.blank more trivial) (by omega)
  obtain ⟨_, named', begun⟩ := (spaced.advance (by omega)).identifier (by omega)
    (fun stop => halts_name (part.first (by omega) more trivial)) named
  obtain rfl := twins'.unique begun
  obtain ⟨value, reads⟩ := reads_signed is ((spaced.peek? (by omega)).trans next) named' within
  exact ⟨after', ⟨value, reads⟩, rest⟩

theorem term_of_argument (there : c.skipBlanks.atName = true)
    (other : c.skipBlanks.name.1 ≠ "undefined")
    (part : c.skipBlanks.name.2.skipBlanks.Mends .term d w) : c.Mends .term d w := by
  have spaces := left_skipBlanks_le c
  have name := left_name there
  have blanks := left_skipBlanks_le c.skipBlanks.name.2
  have onward := part.onward
  have inside : d.rest.length = d.left := rfl
  refine part.enter (by omega) (fun _ closes => closes) ?_
  intro more closes _ c' s' after' twins twins' ⟨value, reads⟩ rest
  have blank := part.blank more closes
  have spaced := twins.skipBlanks blank (by omega)
  obtain ⟨named, alike⟩ := spaced.name (by omega) fun stop =>
    halts_name (part.first (by omega) more closes)
  obtain rfl := twins'.unique (named.skipBlanks blank (by omega))
  have there' : c'.skipBlanks.atName = true := by rwa [spaced.atName (by omega)]
  have begins := reads.begins
  rw [Phrase.Begins, skipBlanks_skipBlanks] at begins
  exact ⟨after', ⟨_, .name there' (.application there' (alike ▸ other) begins reads)⟩, rest⟩

/-! Tablets. -/

/-- What is read up to the equality sign of a field is read in the other text. -/
theorem fields_of_label (next : c.skipSpace.peek? = some '"')
    (part : c.skipSpace.advance.Mends .quoted d w) :
    c.Mends .fields d (w ++ ['=', '(', ')', ']']) := by
  have quote := left_advance next
  have spaces := left_skipSpace_le c
  have onward := part.onward
  have inside : d.rest.length = d.left := rfl
  refine part.lift _ (by omega) (fun _ _ => trivial) (fun here => by omega) ?_
  intro more _ other c' s' after' twins twins' quoted rest
  have spaced := twins.skipSpace_of_lt (by omega)
  obtain rfl := twins'.unique (spaced.advance (by omega))
  have next' := (spaced.peek? (by omega)).trans next
  obtain ⟨meant, read⟩ := reads_string next' quoted
  obtain ⟨value, last, reads, rest⟩ := reads_labelled next' read
    ((congrArg Cursor.rest (skipSpace_of_rest rest (by decide))).trans rest)
  exact ⟨last, ⟨value, reads⟩, rest⟩

theorem fields_of_equal {label : String} (next : c.skipSpace.peek? = some '"')
    (quoted : c.skipSpace.string = .ok (label, middle)) :
    c.Mends .fields middle.skipSpace ['=', '(', ')', ']'] := by
  have quote := left_string next quoted
  have spaces := left_skipSpace_le c
  have behind := left_skipSpace_le middle
  have inside : middle.skipSpace.rest.length = middle.skipSpace.left := rfl
  refine ⟨by omega, fun _ _ => .cons rfl, fun here => by omega, ?_⟩
  intro more _ other c' twins
  have spaced := twins.skipSpace_of_lt (by omega)
  obtain ⟨middle', quoted', parted⟩ := spaced.string (by omega) next quoted
  have here := ((parted.skipSpace (Nat.le_refl _) fun _ => .cons rfl).parted rfl).2
  obtain ⟨value, last, reads, rest⟩ :=
    reads_labelled ((spaced.peek? (by omega)).trans next) quoted' here
  exact ⟨last, ⟨value, reads⟩, rest⟩

section
variable {label : String} {named begun next : Cursor text}
  (quote : c.skipSpace.peek? = some '"') (quoted : c.skipSpace.string = .ok (label, named))
  (equal : named.skipSpace.expect '=' = .ok begun)

include quote quoted equal

theorem fields_of_value (part : begun.skipSpace.Mends .expression d w) :
    c.Mends .fields d (w ++ [']']) := by
  have field := left_labelled quote quoted equal
  have onward := part.onward
  have inside : d.rest.length = d.left := rfl
  have closes (more : List Char) : Closes ([']'] ++ more) := ⟨']', by decide, rfl⟩
  refine part.lift [']'] (by omega) (fun more _ => closes more) (fun here => by omega) ?_
  intro more _ other c' s' after' twins twins' ⟨value, reads⟩ rest
  obtain ⟨_, _, quote', quoted', equal', started⟩ :=
    twins.labelled quote quoted equal (by omega) fun stop =>
      halts_space (part.first (by omega) _ (closes more))
  obtain rfl := twins'.unique started
  obtain ⟨last, reads, rest⟩ := reads_lastField quote' quoted' equal' reads
    ((congrArg Cursor.rest (skipSpace_of_rest rest (by decide))).trans rest)
  exact ⟨last, ⟨_, reads⟩, rest⟩

theorem fields_of_closing {value : Expression}
    (first : Reads begun.skipSpace (.expression value) middle) :
    c.Mends .fields middle.skipSpace [']'] := by
  have field := left_labelled quote quoted equal
  have onward := first.left_lt rfl
  have last := left_skipSpace_le middle
  have inside : middle.skipSpace.rest.length = middle.skipSpace.left := rfl
  refine ⟨by omega, fun _ _ => .cons rfl, fun here => by omega, ?_⟩
  intro more _ other c' twins
  obtain ⟨_, _, quote', quoted', equal', started⟩ :=
    twins.labelled quote quoted equal (by omega) fun _ => .cons rfl
  obtain ⟨middle', parted⟩ := started.reach (m := middle) (by omega) (by omega)
  have here := ((parted.skipSpace (Nat.le_refl _) fun _ => .cons rfl).parted rfl).2
  have value := first.again (.cons rfl) started parted
    (ends_of_skipSpace (peek?_of_rest here) (.inl rfl))
  obtain ⟨last, reads, rest⟩ := reads_lastField quote' quoted' equal' value here
  exact ⟨last, ⟨_, reads⟩, rest⟩

theorem fields_of_fields {value : Expression}
    (first : Reads begun.skipSpace (.expression value) middle)
    (comma : middle.skipSpace.take? ',' = some next)
    (part : next.Mends .fields d w) : c.Mends .fields d w := by
  have field := left_labelled quote quoted equal
  have onward := first.left_lt rfl
  have last := left_skipSpace_le middle
  have mark := left_take? comma
  have further := part.onward
  have inside : d.rest.length = d.left := rfl
  refine part.enter (by omega) (fun _ _ => trivial) ?_
  intro more _ other c' s' after' twins twins' ⟨others, tail⟩ rest
  obtain ⟨_, _, quote', quoted', equal', started⟩ :=
    twins.labelled quote quoted equal (by omega) fun stop => by omega
  obtain ⟨middle', parted⟩ := started.reach (m := middle) (by omega) (by omega)
  obtain ⟨_, comma', passed⟩ := (parted.skipSpace_of_lt (by omega)).take? (by omega) comma
  obtain rfl := twins'.unique passed
  obtain ⟨there, rfl⟩ := take?_eq_some.mp comma'
  have value := first.again (part.blank more trivial) started parted
    (ends_of_skipSpace there (.inr ⟨rfl, tail.nameless⟩))
  exact ⟨after', ⟨_, .field (unclosed_of_quote quote') quote' quoted' equal' value comma' tail⟩,
    rest⟩

end

/-! Blocks. -/

theorem restriction_of_bracedBlock (part : c.skipSpace.Mends .bracedBlock d w) :
    c.Mends .restriction d w := by
  have spaces := left_skipSpace_le c
  have onward := part.onward
  have inside : d.rest.length = d.left := rfl
  refine part.pass spaces (fun _ _ => trivial) (fun here => part.first (by omega)) ?_
  intro more _ other c' s' after' twins twins' ⟨block, reads⟩ rest
  obtain rfl := twins'.unique (twins.skipSpace (by omega) fun stop =>
    halts_space (part.first (by omega) more trivial))
  exact ⟨after', fun offset setting => ⟨_, .restriction reads⟩, rest⟩

theorem bracedBlock_of_block {within : Cursor text} (opened : c.expect '\x7b' = .ok within)
    (part : within.skipBlanks.skipLineFeed.Mends .block d w) :
    c.Mends .bracedBlock d (w ++ ['\x7d']) := by
  have brace := left_expect opened
  have blanks := left_skipBlanks_le within
  have feed := left_skipLineFeed_le within.skipBlanks
  have onward := part.onward
  have inside : d.rest.length = d.left := rfl
  refine part.lift ['\x7d'] (by omega) (fun _ _ => rfl) (fun here => by omega) ?_
  intro more _ other c' s' after' twins twins' ⟨block, reads⟩ rest
  have blank := part.blank (['\x7d'] ++ more) rfl
  obtain ⟨within', opened', begun⟩ := twins.expect (by omega) opened
  obtain rfl := twins'.unique ((begun.skipBlanks blank (by omega)).skipLineFeed (by omega)
    fun stop => part.first (by omega) _ rfl)
  exact ⟨after'.advance, ⟨block, .bracedBlock opened' reads (expect_of_rest rest)⟩,
    advance_of_rest rest⟩

theorem block_of_feed (next : c.skipBlanks.peek? = some '\n')
    (part : c.skipBlanks.advance.Mends .block d w) : c.Mends .block d w := by
  have feed := left_advance next
  have blanks := left_skipBlanks_le c
  have onward := part.onward
  have inside : d.rest.length = d.left := rfl
  refine part.enter (by omega) (fun _ brace => brace) ?_
  intro more brace other c' s' after' twins twins' ⟨block, reads⟩ rest
  have spaced := twins.skipBlanks (part.blank more brace) (by omega)
  obtain rfl := twins'.unique (spaced.advance (by omega))
  exact ⟨after', ⟨_, .blank ((spaced.peek? (by omega)).trans next) reads⟩, rest⟩

theorem block_of_statement (part : c.skipBlanks.Mends .statement d w) : c.Mends .block d w := by
  have blanks := left_skipBlanks_le c
  have onward := part.onward
  have inside : d.rest.length = d.left := rfl
  refine part.pass blanks (fun _ brace => brace) (fun here => part.first (by omega)) ?_
  intro more brace other c' s' after' twins twins' ⟨statement, reads⟩ rest
  obtain rfl := twins'.unique (twins.skipBlanks (part.blank more brace) (by omega))
  obtain ⟨others, here⟩ := List.head?_eq_some_iff.mp brace
  rw [here] at rest
  have stays := skipBlanks_of_rest rest (by decide)
  have whole := reads.onlyStatement (by rw [stays, peek?_of_rest rest])
  rw [stays] at whole
  exact ⟨after', ⟨_, whole⟩, rest.trans here.symm⟩

/-- The block may end behind its first statement. -/
theorem block_of_ending {statement : Statement}
    (first : Reads c.skipBlanks (.statement statement) middle) :
    c.Mends .block middle.skipBlanks [] := by
  have blanks := left_skipBlanks_le c
  have onward := first.left_lt rfl
  have behind := left_skipBlanks_le middle
  have inside : middle.skipBlanks.rest.length = middle.skipBlanks.left := rfl
  refine ⟨by omega, fun _ brace => halts_of_brace brace rfl, fun here => by omega, ?_⟩
  intro more brace other c' twins
  have blank : Halts Text.isBlank ([] ++ more) := halts_of_brace brace rfl
  have spaced := twins.skipBlanks blank (by omega)
  obtain ⟨middle', parted⟩ := spaced.reach (m := middle) (by omega) (by omega)
  have rest : middle'.skipBlanks.rest = more :=
    ((parted.skipBlanks blank (Nat.le_refl _)).parted rfl).2
  have next : middle'.skipBlanks.peek? = some '\x7d' := by rw [peek?, rest, brace]
  have head := first.again blank spaced parted ⟨'\x7d', by decide, next⟩
  exact ⟨_, ⟨_, head.onlyStatement next⟩, rest⟩

/-- A line feed ends a comment that ends with the text. -/
theorem block_of_open_comment (begins : c.skipBlanks.atComment = true)
    (endless : ¬c.skipBlanks.EndsLine) (part : c.skipBlanks.comment.2.Mends .block d w) :
    c.Mends .block d ['\n'] := by
  have fewer := left_comment begins
  have blanks := left_skipBlanks_le c
  have onward := part.onward
  have ended : d.rest = [] := rest_of_endless endless part
  refine ⟨by omega, fun _ _ => .cons rfl, fun here => by omega, ?_⟩
  intro more brace other c' twins
  rw [ended] at twins
  have spaced := twins.skipBlanks (.cons rfl) (Nat.zero_le _)
  obtain ⟨begins', rest⟩ := spaced.comment_last begins endless
  obtain ⟨others, rfl⟩ := List.head?_eq_some_iff.mp brace
  have stays := skipBlanks_of_rest rest (by decide)
  exact ⟨_, ⟨_, .comment begins' (.noStatement (by rw [stays, peek?_of_rest rest]))⟩,
    by rw [stays]; exact rest⟩

theorem block_of_comment (begins : c.skipBlanks.atComment = true)
    (part : c.skipBlanks.comment.2.Mends .block d w) : ∃ w', c.Mends .block d w' := by
  by_cases line : c.skipBlanks.EndsLine
  swap
  · exact ⟨_, block_of_open_comment begins line part⟩
  have fewer := left_comment begins
  have blanks := left_skipBlanks_le c
  have onward := part.onward
  have inside : d.rest.length = d.left := rfl
  refine ⟨w, part.enter (by omega) (fun _ brace => brace) ?_⟩
  intro more brace other c' s' after' twins twins' ⟨block, reads⟩ rest
  have spaced := twins.skipBlanks (part.blank more brace) (by omega)
  obtain ⟨begins', _, passed⟩ := spaced.comment (by omega) line begins
  obtain rfl := twins'.unique passed
  exact ⟨after', ⟨_, .comment begins' reads⟩, rest⟩

/-- A line feed ends a comment behind a statement that ends with the text. -/
theorem block_of_ending_comment {statement : Statement}
    (first : Reads c.skipBlanks (.statement statement) middle)
    (begins : middle.skipBlanks.atComment = true)
    (endless : ¬middle.skipBlanks.EndsLine) (part : middle.skipBlanks.comment.2.Mends .block d w) :
    c.Mends .block d ['\n'] := by
  have fewer := left_comment begins
  have blanks := left_skipBlanks_le c
  have onward := first.left_lt rfl
  have behind := left_skipBlanks_le middle
  have further := part.onward
  have ended : d.rest = [] := rest_of_endless endless part
  refine ⟨by omega, fun _ _ => .cons rfl, fun here => by omega, ?_⟩
  intro more brace other c' twins
  rw [ended] at twins
  have blank : Halts Text.isBlank (['\n'] ++ more) := .cons rfl
  have spaced := twins.skipBlanks blank (Nat.zero_le _)
  obtain ⟨middle', parted⟩ := spaced.reach (m := middle) (by omega) (Nat.zero_le _)
  obtain ⟨begins', rest⟩ :=
    (parted.skipBlanks blank (Nat.zero_le _)).comment_last begins endless
  have head := first.again blank spaced parted ⟨'-', by decide, peek?_of_atComment begins'⟩
  obtain ⟨others, rfl⟩ := List.head?_eq_some_iff.mp brace
  have stays := skipBlanks_of_rest rest (by decide)
  have ended : middle'.statementEnd = .ok ([middle'.skipBlanks.comment.1],
      middle'.skipBlanks.comment.2) := if_pos begins'
  exact ⟨_, ⟨_, head.block_of_statement ended (.noStatement (by rw [stays, peek?_of_rest rest]))⟩,
    by rw [stays]; exact rest⟩

/-- What ends the block behind a statement ends the block, but where no statement may follow at
once or a comment goes on. -/
theorem block_of_next {statement : Statement} {endings : List Statement} {next : Cursor text}
    (first : Reads c.skipBlanks (.statement statement) middle)
    (ended : middle.statementEnd = .ok (endings, next)) (part : next.Mends .block d w) :
    ∃ w', c.Mends .block d w' := by
  have blanks := left_skipBlanks_le c
  have onward := first.left_lt rfl
  have ending := left_statementEnd_le ended
  have further := part.onward
  have inside : d.rest.length = d.left := rfl
  by_cases endless : middle.skipBlanks.atComment = true ∧ ¬middle.skipBlanks.EndsLine
  · rw [statementEnd, if_pos endless.1] at ended
    cases ended
    exact ⟨_, block_of_ending_comment first endless.1 endless.2 part⟩
  by_cases closed : middle.skipBlanks.peek? = some '\x7d' ∧ next.left = d.left
  · rw [statementEnd_of_brace closed.1] at ended
    cases ended
    obtain rfl := eq_of_left closed.2
    exact ⟨_, block_of_ending first⟩
  refine ⟨w, part.enter (by omega) (fun _ brace => brace) ?_⟩
  rintro more brace other c' s' after' twins twins' ⟨block, reads⟩ rest
  have blank := part.blank more brace
  have spaced := twins.skipBlanks blank (by omega)
  obtain ⟨middle', parted⟩ := spaced.reach (m := middle) (by omega) (by omega)
  obtain ⟨_, ended', begun⟩ := parted.statementEnd blank (by omega)
    (fun begins => by_contra fun line => endless ⟨begins, line⟩)
    (fun stop => part.first (by omega) more brace)
    (fun stop next => absurd ⟨next, stop⟩ closed) ended
  obtain rfl := twins'.unique begun
  have head := first.again blank spaced parted (meets_statementEnds ended')
  exact ⟨after', ⟨_, head.block_of_statement ended' reads⟩, rest⟩

theorem statement_of_targets {targets : List Identifier}
    (found : c.targets? = some (targets, middle)) (part : middle.skipBlanks.Mends .expression d w) :
    c.Mends .statement d w := by
  have equal := left_targets? found
  have blanks := left_skipBlanks_le middle
  have onward := part.onward
  have inside : d.rest.length = d.left := rfl
  refine part.enter (by omega) (fun _ => closes_of_brace) ?_
  intro more brace other c' s' after' twins twins' ⟨value, reads⟩ rest
  obtain ⟨_, found', begun⟩ := twins.targets? found (by omega)
  have blank := part.blank more (closes_of_brace brace)
  obtain rfl := twins'.unique (begun.skipBlanks blank (by omega))
  exact ⟨after', ⟨_, .assignment found' reads⟩, rest⟩

theorem statement_of_declaration (part : c.Mends (.declaration true) d w) :
    c.Mends .statement d w := by
  refine part.pass (Nat.le_refl _) (fun _ _ => trivial)
    (fun here more _ => part.first here more trivial) ?_
  intro more brace other c' s' after' twins twins' ⟨⟨value, reads⟩, looks⟩ rest
  obtain rfl := twins.unique twins'
  have declares := looks rfl
  exact ⟨after', ⟨_, .procedure (targets?_of_atDeclaration declares) declares reads⟩, rest⟩

theorem statement_of_expression (part : c.Mends .expression d w) : c.Mends .statement d w := by
  refine part.pass (Nat.le_refl _) (fun _ => closes_of_brace)
    (fun here more brace => halts_space (part.first here more (closes_of_brace brace))) ?_
  intro more brace other c' s' after' twins twins' ⟨value, reads⟩ rest
  obtain rfl := twins.unique twins'
  obtain ⟨others, same⟩ := List.head?_eq_some_iff.mp brace
  have meets : after'.Meets statementEnds := .of_rest (rest.trans same) (by decide) (by decide)
  obtain ⟨none, executes⟩ := reads.looks meets
  exact ⟨after', ⟨_, .execute none executes reads⟩, rest⟩

theorem declaration_of_bracedBlock {looked : Bool} (there : c.atName = true)
    (looks : looked = true → c.atDeclaration = true)
    (part : c.name.2.names.2.signature.2.skipSpace.Mends .bracedBlock d w) :
    c.Mends (.declaration looked) d w := by
  have heading := left_heading there
  have spaces := left_skipSpace_le c.name.2.names.2.signature.2
  have remark := left_signature_le c.name.2.names.2
  have onward := part.onward
  have inside : d.rest.length = d.left := rfl
  refine part.enter (by omega) (fun _ _ => trivial) ?_
  intro more _ other c' s' after' twins twins' ⟨block, reads⟩ rest
  have brace (stop : c.name.2.names.2.signature.2.skipSpace.left = d.rest.length) :
      (w ++ more).head? = some '\x7b' := by
    rw [← (twins'.parted stop).2]
    exact reads.opens
  obtain ⟨there', _, _, _, headed⟩ := twins.heading there (by omega) brace
  obtain rfl := twins'.unique headed
  have names : c.names.2.left = c.name.2.names.2.left := by rw [names_of_atName there]
  exact ⟨after', ⟨⟨_, .declaration there' reads⟩, fun same => twins.atDeclaration_of_brace
    (by omega) (fun stop => brace (by omega)) (looks same)⟩, rest⟩

/-! Strings. -/

theorem quoted (stands : d = c ∨ d = c.skipWhile isPlain) : c.Mends .quoted d ['"'] where
  onward := onward_of_stands stands
  blank _ _ := .cons rfl
  first _ _ _ := .cons rfl
  reads more _ _ c' twins := by
    have here := twins.skipWhile_rest stands (.cons rfl)
    exact ⟨_, reads_quote here, advance_of_rest here⟩

theorem quoted_of_letter (taken : (c.skipWhile isPlain).take? '\\' = some middle) :
    c.Mends .quoted middle ['n', '"'] := by
  have slash := left_take? taken
  have plain := left_skipWhile_le isPlain c
  have inside : middle.rest.length = middle.left := rfl
  refine ⟨by omega, fun _ _ => .cons rfl, fun _ _ _ => .cons rfl, ?_⟩
  intro more _ other c' twins
  have begun := twins.skipWhile_of_lt (p := isPlain) (by omega)
  obtain ⟨middle', taken', parted⟩ := begun.take? (by omega) taken
  have here := (parted.parted rfl).2
  have letter := advance_of_rest here
  have stays : middle'.advance.skipWhile isPlain = middle'.advance :=
    skipWhile_of_halts (halts_of_rest letter rfl)
  have quoted := reads_quote (stays ▸ letter)
  rw [stays] at quoted
  exact ⟨_, reads_escaped taken' (by rw [peek?_of_rest here]; rfl) quoted, advance_of_rest letter⟩

theorem quoted_of_quoted {ch : Char} (taken : (c.skipWhile isPlain).take? '\\' = some middle)
    (found : middle.peek?.bind escaped? = some ch) (part : middle.advance.Mends .quoted d w) :
    c.Mends .quoted d w := by
  obtain ⟨_, next, _⟩ := Option.bind_eq_some_iff.mp found
  have letter := left_advance next
  have slash := left_take? taken
  have plain := left_skipWhile_le isPlain c
  have onward := part.onward
  have inside : d.rest.length = d.left := rfl
  refine part.enter (by omega) (fun _ _ => trivial) ?_
  intro more _ other c' s' after' twins twins' quoted rest
  have begun := twins.skipWhile_of_lt (p := isPlain) (by omega)
  obtain ⟨middle', taken', parted⟩ := begun.take? (by omega) taken
  obtain rfl := twins'.unique (parted.advance (by omega))
  exact ⟨after', reads_escaped taken' (by rwa [parted.peek? (by omega)]) quoted, rest⟩

end Cursor.Mends

end

section
variable {text : List Char}

/-! The procedures of a text. -/

theorem triviaLength_of_space {ch : Char} (space : Text.isAsciiSpace ch = true)
    (rest : List Char) : triviaLength false (ch :: rest) = triviaLength false rest + 1 := by
  rw [triviaLength, if_pos space]
  rintro _ rfl
  cases space

/-- White space and comments are passed whatever begins with a name behind them. -/
theorem triviaLength_before {inside : Bool} {trivia rest : List Char} {ch : Char}
    (others : List Char) (some : rest ≠ [])
    (whole : triviaLength inside (trivia ++ rest) = trivia.length)
    (begins : isNameStart ch = true) :
    triviaLength inside (trivia ++ ch :: others) = trivia.length := by
  fun_induction triviaLength inside trivia with
  | case1 inside =>
      cases inside with
      | false => exact triviaLength_of_name begins others
      | true =>
          obtain ⟨first, rest, rfl⟩ := List.exists_cons_of_ne_nil some
          cases whole
  | case2 first trivia ih => exact congrArg (· + 1) (ih (Nat.succ.inj whole))
  | case3 trivia ih => exact congrArg (· + 2) (ih (Nat.succ.inj (Nat.succ.inj whole)))
  | case4 first trivia _ space ih =>
      rw [List.cons_append, triviaLength_of_space space] at whole ⊢
      exact congrArg (· + 1) (ih (Nat.succ.inj whole))
  | case5 first trivia uncommented other =>
      have plain : ∀ others, first = '-' → trivia ++ rest = '-' :: others → False := by
        rintro others rfl same
        cases trivia with
        | nil =>
            obtain rfl : rest = '-' :: others := same
            cases whole
        | cons second trivia =>
            cases same
            exact uncommented trivia rfl rfl
      rw [List.cons_append, triviaLength, if_neg other] at whole
      · cases whole
      · exact plain

/-- Behind white space and comments that end the text, a line feed is passed and what stands behind
it is looked at anew. -/
theorem triviaLength_feed {inside : Bool} {trivia : List Char} (rest : List Char)
    (whole : trivia.length ≤ triviaLength inside trivia) :
    triviaLength inside (trivia ++ '\n' :: rest) =
      trivia.length + 1 + triviaLength false rest := by
  have one (length : Nat) : length + 1 = 0 + 1 + length := by omega
  have further {length before : Nat} (n : Nat) (ih : length = before + 1 + triviaLength false rest) :
      length + n = before + n + 1 + triviaLength false rest := by omega
  fun_induction triviaLength inside trivia with
  | case1 inside =>
      cases inside with
      | false => exact (triviaLength_of_space rfl _).trans (one _)
      | true => exact one _
  | case2 first trivia ih => exact further 1 (ih (Nat.le_of_succ_le_succ whole))
  | case3 trivia ih =>
      exact further 2 (ih (Nat.le_of_succ_le_succ (Nat.le_of_succ_le_succ whole)))
  | case4 first trivia _ space ih =>
      rw [List.cons_append, triviaLength_of_space space]
      exact further 1 (ih (Nat.le_of_succ_le_succ whole))
  | case5 first trivia _ other => cases whole

/-- A line feed ends white space and comments before a name. -/
theorem triviaLength_line {inside : Bool} {trivia : List Char} {ch : Char} (others : List Char)
    (whole : trivia.length ≤ triviaLength inside trivia) (begins : isNameStart ch = true) :
    triviaLength inside (trivia ++ '\n' :: ch :: others) = trivia.length + 1 := by
  rw [triviaLength_feed _ whole, triviaLength_of_name begins]

/-- Where a procedure is to begin in both texts, what stands before it is passed in both. -/
theorem Cursor.Twins.skipTrivia {other : List Char} {shift : Nat} {old new : List Char}
    {c : Cursor text} {d e : Cursor other} (twins : c.Twins shift old new d)
    (begun : c.skipTrivia.Twins shift old new e) (some : c.skipTrivia.rest ≠ [])
    (there : e.atName = true) : d.skipTrivia = e := by
  obtain ⟨_, between, here, here'⟩ := twins
  obtain ⟨_, behind, rest, rest'⟩ := begun
  obtain ⟨ch, others, name, begins⟩ := atName_iff.mp there
  obtain ⟨trivia, pieces, length⟩ : ∃ trivia, trivia ++ c.skipTrivia.rest = c.rest ∧
      triviaLength false c.rest = trivia.length := by
    refine ⟨_, List.take_append_drop _ _, (List.length_take_of_le ?_).symm⟩
    refine Nat.le_of_lt (Nat.lt_of_not_le fun whole => some ?_)
    rw [skipTrivia_rest, List.drop_eq_nil_iff.mpr whole]
  have whole := triviaLength_before others some (by rw [pieces, length]) begins
  rw [← name] at whole
  rw [rest, ← List.append_assoc, here] at pieces
  have same : d.rest = trivia ++ e.rest := by
    rw [here', ← List.append_cancel_right pieces, List.append_assoc, rest']
  refine ext ?_
  rw [skipTrivia_rest, same, whole, List.drop_left]

namespace Cursor.Mends

variable {c d after : Cursor text} {w : List Char}

/-- A procedure may begin here. -/
theorem procedure : c.Mends .procedures c ['x', '\x7b', '\x7d'] where
  onward := Nat.le_refl _
  blank _ _ := .cons rfl
  first _ _ _ := .cons rfl
  reads more ended _ c' twins := by
    obtain ⟨looks, value, after, reads, rest⟩ := reads_named (twins.parted rfl).2
    rw [← skipTrivia_of_atName reads.begins] at reads
    exact ⟨after, ⟨[value], List.cons_ne_nil _ _, .cons reads
      (.nil (skipTrivia_of_end (rest.trans ended)))⟩, rest⟩

/-- A procedure may begin on a line of its own behind white space and comments. -/
theorem procedure_line (ended : c.skipTrivia.rest = []) :
    c.Mends .procedures c.finish ['\n', 'x', '\x7b', '\x7d'] where
  onward := Nat.zero_le _
  blank _ _ := .cons rfl
  first _ _ _ := .cons rfl
  reads more last _ c' twins := by
    obtain ⟨_, between, here, here'⟩ := twins
    have whole : c'.rest = c.rest ++ '\n' :: 'x' :: '\x7b' :: '\x7d' :: more := by
      rw [here', here]
      exact congrArg (· ++ _) (List.append_nil _).symm
    have length := triviaLength_line ('\x7b' :: '\x7d' :: more)
      (List.drop_eq_nil_iff.mp ended) (rfl : isNameStart 'x' = true)
    have begun : c'.skipTrivia.rest = 'x' :: '\x7b' :: '\x7d' :: more := by
      rw [skipTrivia_rest, whole, length, List.append_cons]
      exact List.drop_left' List.length_append
    obtain ⟨looks, value, after, reads, rest⟩ := reads_named begun
    exact ⟨after, ⟨[value], List.cons_ne_nil _ _, .cons reads
      (.nil (skipTrivia_of_end (rest.trans last)))⟩, rest⟩

theorem procedures_of_declaration (some : c.skipTrivia.rest ≠ [])
    (part : c.skipTrivia.Mends (.declaration false) d w) : c.Mends .procedures d w := by
  refine part.pass (left_skipTrivia_le c) (fun _ _ => trivial) (fun _ _ _ _ _ => rfl) ?_
  intro more ended _ c' s' after' twins twins' ⟨⟨value, reads⟩, _⟩ rest
  rw [← twins.skipTrivia twins' some reads.begins] at reads
  exact ⟨after', ⟨_, List.cons_ne_nil _ _, .cons reads
    (.nil (skipTrivia_of_end (rest.trans ended)))⟩, rest⟩

theorem procedures_of_procedures {procedure : Procedure}
    (first : Reads c.skipTrivia (.declaration procedure) after)
    (part : after.Mends .procedures d w) : c.Mends .procedures d w := by
  have trivia := left_skipTrivia_le c
  have onward := first.left_lt rfl
  have further := part.onward
  have inside : d.rest.length = d.left := rfl
  refine part.enter (by omega) (fun _ ended => ended) ?_
  intro more ended _ c' s' after' twins twins' ⟨others, _, declares⟩ rest
  obtain ⟨begun', begun⟩ := twins.reach (m := c.skipTrivia) trivia (by omega)
  have some : c.skipTrivia.rest ≠ [] :=
    List.ne_nil_of_length_pos (Nat.lt_of_lt_of_le (Nat.zero_lt_succ _) onward)
  have head := first.again (part.blank more ended) begun twins' trivial
  rw [← twins.skipTrivia begun some head.begins] at head
  exact ⟨after', ⟨_, List.cons_ne_nil _ _, .cons head declares⟩, rest⟩

end Cursor.Mends

end

end Runbook
