import Runbook.Proofs.Syntax.Places
import Runbook.Proofs.Syntax.Tokenized

/-!
What is still to be written does not compile.

A hole is a question mark or the word `undefined` where an expression begins. In a text that
compiles no expression begins with one. Behind a comma of a list the word is a name like any other,
so it may stand there where a target or a parameter has it as its name.
-/
namespace Runbook

open Cursor

/-! What begins at a place of a text. -/

section
variable {text : List Char} {offset : Nat} {word other : Identifier} {ch : Char}
  {token : List Char}

theorem Text.SpellsAt.next (spelled : Text.SpellsAt text offset word) :
    ∃ rest, Text.dropBytes? offset text = some rest ∧
      rest.takeWhile isNameChar = word.toList := by
  obtain ⟨isName, before, after, rfl, rfl, _, ends⟩ := spelled
  refine ⟨word.toList ++ after, Text.dropBytes?_byteLength _ _, ?_⟩
  have halts : Halts isNameChar after := by
    intro ch first
    obtain ⟨rest, rfl⟩ := List.head?_eq_some_iff.mp first
    obtain ⟨byte, bytes, encoded⟩ := List.exists_cons_of_ne_nil (@String.utf8EncodeChar_ne_nil ch)
    have head : (Text.bytes (ch :: rest)).head? = some byte := by
      rw [Text.bytes, List.flatMap_cons, encoded]
      rfl
    rw [← isNameByte_of_mem (encoded ▸ List.mem_cons_self)]
    exact ends byte head
  exact (taken_of_halts (c := .start (word.toList ++ after)) rfl isName.2 halts).1

theorem Text.SpellsAt.unique (spelled : Text.SpellsAt text offset word)
    (also : Text.SpellsAt text offset other) : word = other := by
  obtain ⟨rest, here, same⟩ := spelled.next
  obtain ⟨_, there, same'⟩ := also.next
  cases here.symm.trans there
  exact String.toList_inj.mp (same.symm.trans same')

theorem Text.BeginsAt.next (begins : Text.BeginsAt text offset (ch :: token)) :
    ∃ rest, Text.dropBytes? offset text = some (ch :: rest) := by
  obtain ⟨before, after, rfl, rfl⟩ := begins
  exact ⟨token ++ after, Text.dropBytes?_byteLength _ _⟩

theorem Text.BeginsAt.unique (begins : Text.BeginsAt text offset (ch :: token)) {mark : Char}
    {more : List Char} (also : Text.BeginsAt text offset (mark :: more)) : ch = mark := by
  obtain ⟨rest, here⟩ := begins.next
  obtain ⟨_, there⟩ := also.next
  cases here.symm.trans there
  rfl

theorem Text.SpellsAt.beginsAt (spelled : Text.SpellsAt text offset word) :
    Text.BeginsAt text offset word.toList := by
  obtain ⟨_, before, after, whole, length, _⟩ := spelled
  exact ⟨before, after, whole, length⟩

/-- Another word than `undefined` is no hole. -/
theorem Text.SpellsAt.not_holeAt (spelled : Text.SpellsAt text offset word)
    (named : word ≠ "undefined") : ¬Text.HoleAt text offset := by
  rintro (⟨before, after, whole, length⟩ | hole)
  · obtain ⟨ch, letters, same, begins⟩ := spelled.1.cons
    have word := spelled.beginsAt
    rw [same] at word
    have mark : Text.BeginsAt text offset ['?'] := ⟨before, after, whole, length⟩
    rw [word.unique mark] at begins
    cases begins
  · exact named (spelled.unique hole)

theorem Text.BeginsAt.not_holeAt (begins : Text.BeginsAt text offset (ch :: token))
    (mark : ch ≠ '?') (letter : isNameStart ch = false) : ¬Text.HoleAt text offset := by
  rintro (⟨before, after, whole, length⟩ | hole)
  · have other : Text.BeginsAt text offset ['?'] := ⟨before, after, whole, length⟩
    exact mark (begins.unique other)
  · rw [begins.unique hole.beginsAt] at letter
    cases letter

end

/-! The pieces of a tree. -/

theorem fieldsTokens_subset {fields : List (Label × Expression)} {field : Label × Expression}
    (mem : field ∈ fields) : field.2.tokens ⊆ fieldsTokens fields := by
  induction fields with
  | nil => cases mem
  | cons first fields ih =>
      obtain ⟨label, value⟩ := first
      intro token within
      simp only [fieldsTokens, List.mem_cons, List.mem_append]
      cases mem with
      | head => exact .inr (.inr (.inl within))
      | tail _ mem => exact .inr (.inr (.inr (.inr (ih mem within))))

theorem blockTokens_subset {block : List Statement} {statement : Statement}
    (mem : statement ∈ block) : statement.tokens ⊆ blockTokens block := by
  induction block with
  | nil => cases mem
  | cons first block ih =>
      rw [blockTokens]
      cases mem with
      | head => exact List.subset_append_left _ _
      | tail _ mem => exact List.Subset.trans (ih mem) (List.subset_append_right _ _)

theorem fieldsPrintable_mem {fields : List (Label × Expression)}
    (printable : FieldsPrintable fields) {field : Label × Expression} (mem : field ∈ fields) :
    field.2.Printable := by
  induction fields with
  | nil => cases mem
  | cons first fields ih =>
      cases mem with
      | head => exact printable.1
      | tail _ mem => exact ih printable.2 mem

theorem blockPrintable_mem {block : List Statement} {stepped : Bool}
    (printable : BlockPrintable stepped block) {statement : Statement} (mem : statement ∈ block) :
    ∃ stepped, statement.Printable stepped := by
  induction block generalizing stepped with
  | nil => cases mem
  | cons first block ih =>
      cases mem with
      | head => exact ⟨stepped, printable.1⟩
      | tail _ mem => exact ih printable.2 mem

namespace Piece

def tokens : Piece → List Token
  | .expression value => value.tokens
  | .statement value => value.tokens
  | .procedure value => value.tokens

def Printable : Piece → Prop
  | .expression value => value.Printable
  | .statement value => ∃ stepped, value.Printable stepped
  | .procedure value => value.Printable

variable {part piece inner : Piece}

theorem tokens_part (mem : part ∈ piece.parts) : part.tokens ⊆ piece.tokens := by
  intro token within
  cases piece with
  | expression value =>
      cases value with
      | unit | text | amount | hole | reference => cases mem
      | application offset name argument =>
          cases List.mem_singleton.mp mem
          exact List.mem_cons_of_mem _ within
      | tablet offset fields =>
          obtain ⟨field, there, rfl⟩ := List.mem_map.mp mem
          exact List.mem_cons_of_mem _ (fieldsTokens_subset there within)
      | operation offset operator left right =>
          rw [tokens, Expression.tokens, List.mem_append, List.mem_cons]
          simp only [parts, List.mem_cons, List.not_mem_nil, or_false] at mem
          rcases mem with rfl | rfl
          · exact .inl within
          · exact .inr (.inr within)
      | grouping offset inner =>
          cases List.mem_singleton.mp mem
          exact List.mem_cons_of_mem _ (List.mem_append_left _ within)
      | restriction offset setting block =>
          obtain ⟨statement, there, rfl⟩ := List.mem_map.mp mem
          rw [tokens, Expression.tokens, bracedTokens]
          refine List.mem_append_right _ (List.mem_cons_of_mem _ (List.mem_append_left _ ?_))
          exact blockTokens_subset there within
  | statement value =>
      cases value with
      | comment | blank | series => cases mem
      | assignment offset targets value =>
          cases List.mem_singleton.mp mem
          exact List.mem_append_right _ (List.mem_cons_of_mem _ within)
      | execute offset value =>
          cases List.mem_singleton.mp mem
          exact within
      | declaration offset procedure =>
          cases List.mem_singleton.mp mem
          exact within
  | procedure value =>
      obtain ⟨offset, name, parameters, signature, block⟩ := value
      obtain ⟨statement, there, rfl⟩ := List.mem_map.mp mem
      simp only [tokens, Procedure.tokens, bracedTokens, List.mem_cons, List.mem_append]
      exact .inr (.inr (.inr (.inr (.inl (blockTokens_subset there within)))))

theorem printable_part (printable : piece.Printable) (mem : part ∈ piece.parts) :
    part.Printable := by
  cases piece with
  | expression value =>
      cases value with
      | unit | text | amount | hole | reference => cases mem
      | application offset name argument =>
          cases List.mem_singleton.mp mem
          exact printable.2.2.2
      | tablet offset fields =>
          obtain ⟨field, there, rfl⟩ := List.mem_map.mp mem
          exact fieldsPrintable_mem printable there
      | operation offset operator left right =>
          simp only [parts, List.mem_cons, List.not_mem_nil, or_false] at mem
          rcases mem with rfl | rfl
          · exact printable.1
          · exact printable.2.2
      | grouping offset inner =>
          cases List.mem_singleton.mp mem
          exact printable
      | restriction offset setting block =>
          obtain ⟨statement, there, rfl⟩ := List.mem_map.mp mem
          exact blockPrintable_mem printable.2 there
  | statement value =>
      obtain ⟨stepped, printable⟩ := printable
      cases value with
      | comment | blank | series => cases mem
      | assignment offset targets value =>
          cases List.mem_singleton.mp mem
          exact printable.2.2
      | execute offset value =>
          cases List.mem_singleton.mp mem
          exact printable
      | declaration offset procedure =>
          cases List.mem_singleton.mp mem
          exact printable
  | procedure value =>
      obtain ⟨offset, name, parameters, signature, block⟩ := value
      obtain ⟨statement, there, rfl⟩ := List.mem_map.mp mem
      exact blockPrintable_mem printable.2.2.2 there

theorem Within.tokens_subset (within : inner.Within piece) : inner.tokens ⊆ piece.tokens := by
  induction within with
  | self => exact List.Subset.refl _
  | part mem _ ih => exact List.Subset.trans ih (tokens_part mem)

theorem Within.trans {middle : Piece} (within : inner.Within middle)
    (around : middle.Within piece) : inner.Within piece := by
  induction around with
  | self => exact within
  | part mem _ ih => exact .part mem ih

theorem Within.printable (within : inner.Within piece) (printable : piece.Printable) :
    inner.Printable := by
  induction within with
  | self => exact printable
  | part mem _ ih => exact ih (printable_part printable mem)

end Piece

/-- An expression that has no hole does not begin with one. -/
theorem Expression.not_holeAt {text : List Char} : ∀ {value : Expression}, value.Printable →
    .mark '?' ∉ value.tokens →
    (∀ inner : Piece, inner.Within (.expression value) → inner.Placed text) →
      ¬Text.HoleAt text value.offset
  | .application _ name _, printable, _, placed =>
      Text.SpellsAt.not_holeAt (placed _ .self).begins printable.2.1
  | .unit _, _, _, placed | .grouping _ _, _, _, placed | .text _ _, _, _, placed
  | .tablet _ _, _, _, placed =>
      Text.BeginsAt.not_holeAt (placed _ .self).begins (by decide) (by decide)
  | .amount _ _, _, _, placed => by
      obtain ⟨digit, isDigit, begins⟩ := (placed _ .self).begins
      refine begins.not_holeAt ?_ ?_
      · rintro rfl
        cases isDigit
      · exact Bool.eq_false_iff.mpr fun starts => not_isDigit_of_isNameStart starts isDigit
  | .hole _, _, whole, _ => absurd List.mem_cons_self whole
  | .reference _ names, printable, _, placed => by
      obtain ⟨first, others, rfl, spelled⟩ := (placed _ .self).begins
      exact spelled.not_holeAt fun same => printable.2.1 (congrArg some same)
  | .operation offset operator left right, printable, whole, placed => by
      have begins : offset = left.offset := (placed _ .self).begins
      rw [Expression.offset, begins]
      exact Expression.not_holeAt printable.1 (fun mem => whole (List.mem_append_left _ mem))
        fun inner inside => placed inner (.part List.mem_cons_self inside)
  | .restriction _ setting _, _, _, placed => by
      have begins := (placed _ .self).begins
      rw [Piece.Begins] at begins
      cases setting with
      | inherit => exact Text.BeginsAt.not_holeAt begins (by decide) (by decide)
      | role name | place name =>
          rw [Setting.show, String.toList_append] at begins
          exact Text.BeginsAt.not_holeAt begins (by decide) (by decide)

/-! What is well scoped has no hole. -/

theorem not_mem_namesTokens {names : List Identifier} {ch : Char} (comma : ch ≠ ',') :
    .mark ch ∉ namesTokens names := by
  cases names with
  | nil => exact List.not_mem_nil
  | cons first others => simp [namesTokens, comma]

theorem Setting.not_mem_tokens (setting : Setting) : .mark '?' ∉ setting.tokens := by
  cases setting with
  | inherit => simp [tokens]
  | role name | place name => simp [tokens]

theorem Operator.sign_ne (operator : Operator) : operator.sign ≠ '?' := by
  cases operator <;> decide

section
variable {primitives : List Identifier}

mutual

theorem Expression.WellScoped.holeless : ∀ {value : Expression} {place : Vicinity},
    value.WellScoped primitives place → .mark '?' ∉ value.tokens
  | .application _ name argument, _, wellScoped => by
      simpa [Expression.tokens] using Expression.WellScoped.holeless wellScoped.2
  | .unit _, _, _ => by simp [Expression.tokens]
  | .text _ _, _, _ => by simp [Expression.tokens]
  | .amount _ quantity, _, _ => by cases quantity <;> simp [Expression.tokens, Quantity.token]
  | .hole _, _, wellScoped => wellScoped.elim
  | .tablet _ fields, _, wellScoped => by
      simpa [Expression.tokens] using fieldsWellScoped_holeless wellScoped
  | .reference _ names, _, _ => not_mem_namesTokens (by decide)
  | .operation _ operator left right, _, wellScoped => by
      have first := Expression.WellScoped.holeless wellScoped.1
      have rest := Expression.WellScoped.holeless wellScoped.2
      simp [Expression.tokens, first, rest, operator.sign_ne.symm]
  | .grouping _ inner, _, wellScoped => by
      have within : .mark '?' ∉ inner.tokens := Expression.WellScoped.holeless wellScoped
      simp [Expression.tokens, within]
  | .restriction _ setting block, _, wellScoped => by
      have within := blockWellScoped_holeless wellScoped.2
      simp [Expression.tokens, bracedTokens, setting.not_mem_tokens, within]

theorem fieldsWellScoped_holeless : ∀ {fields : List (Label × Expression)} {place : Vicinity},
    FieldsWellScoped primitives place fields → .mark '?' ∉ fieldsTokens fields
  | [], _, _ => by simp [fieldsTokens]
  | (label, value) :: fields, _, wellScoped => by
      have first := Expression.WellScoped.holeless wellScoped.1
      have rest := fieldsWellScoped_holeless wellScoped.2
      simp [fieldsTokens, first, rest]

theorem blockWellScoped_holeless : ∀ {block : List Statement} {place : Vicinity},
    StatementsWellScoped primitives place block → .mark '?' ∉ blockTokens block
  | [], _, _ => by simp [blockTokens]
  | .assignment _ targets value :: block, _, wellScoped => by
      have names := @not_mem_namesTokens targets '?' (by decide)
      have first := Expression.WellScoped.holeless wellScoped.2.1
      have rest := blockWellScoped_holeless wellScoped.2.2
      simp [blockTokens, Statement.tokens, names, first, rest]
  | .execute _ value :: block, _, wellScoped => by
      have first := Expression.WellScoped.holeless wellScoped.1
      have rest := blockWellScoped_holeless wellScoped.2
      simp [blockTokens, Statement.tokens, first, rest]
  | .declaration _ procedure :: block, _, wellScoped => by
      have first := Procedure.WellScoped.holeless wellScoped.1
      have rest := blockWellScoped_holeless wellScoped.2
      simp [blockTokens, Statement.tokens, first, rest]
  | .comment _ _ :: block, _, wellScoped | .blank _ :: block, _, wellScoped
  | .series _ :: block, _, wellScoped => by
      have rest : .mark '?' ∉ blockTokens block := blockWellScoped_holeless wellScoped
      simp [blockTokens, Statement.tokens, rest]

theorem Procedure.WellScoped.holeless : ∀ {procedure : Procedure} {procedures : List Identifier},
    procedure.WellScoped primitives procedures → .mark '?' ∉ procedure.tokens
  | ⟨_, name, parameters, signature, block⟩, _, wellScoped => by
      have within := blockWellScoped_holeless wellScoped.2.2
      simp [Procedure.tokens, bracedTokens, within]

end

end

/-- The names that a use gives a meaning. -/
def Use.given : Use → List Identifier
  | .assigned _ targets => targets
  | .header _ _ parameters => parameters
  | .applied _ _ | .hole _ | .read _ _ | .declared _ => []

/-- The names of all targets and parameters. -/
def given (uses : List (Vicinity × Use)) : List Identifier :=
  uses.flatMap fun entry => entry.2.given

/-- A variable of the vicinity. -/
def Vicinity.Has (place : Vicinity) (name : Identifier) : Prop :=
  name ∈ place.inner ∨ name ∈ place.outer

/-- The names that are read have a meaning, and the first is not the word for a hole. -/
def Use.Meant (around : Vicinity) : Use → Prop
  | .read _ names => names.head? ≠ some "undefined" ∧ ∀ name ∈ names, around.Has name
  | _ => True

section
variable {primitives : List Identifier}

mutual

theorem Expression.WellScoped.meant : ∀ {value : Expression} {place : Vicinity},
    value.WellScoped primitives place → value.Printable →
      ∀ entry ∈ value.uses place, entry.2.Meant entry.1
  | .application _ _ _, _, wellScoped, printable =>
      List.forall_mem_cons.mpr
        ⟨trivial, Expression.WellScoped.meant wellScoped.2 printable.2.2.2⟩
  | .unit _, _, _, _ | .text _ _, _, _, _ | .amount _ _, _, _, _ => List.forall_mem_nil _
  | .hole _, _, wellScoped, _ => wellScoped.elim
  | .tablet _ _, _, wellScoped, printable => fieldsWellScoped_meant wellScoped printable
  | .reference _ _, _, wellScoped, printable =>
      List.forall_mem_singleton.mpr ⟨printable.2.1, wellScoped⟩
  | .operation _ _ _ _, _, wellScoped, printable =>
      List.forall_mem_append.mpr ⟨Expression.WellScoped.meant wellScoped.1 printable.1,
        Expression.WellScoped.meant wellScoped.2 printable.2.2⟩
  | .grouping _ inner, _, wellScoped, printable => by
      rw [Expression.uses]
      exact Expression.WellScoped.meant wellScoped printable
  | .restriction _ _ _, _, wellScoped, printable =>
      List.forall_mem_cons.mpr ⟨trivial, blockWellScoped_meant wellScoped.2 printable.2⟩

theorem fieldsWellScoped_meant : ∀ {fields : List (Label × Expression)} {place : Vicinity},
    FieldsWellScoped primitives place fields → FieldsPrintable fields →
      ∀ entry ∈ fieldsUses place fields, entry.2.Meant entry.1
  | [], _, _, _ => List.forall_mem_nil _
  | (_, _) :: _, _, wellScoped, printable =>
      List.forall_mem_append.mpr ⟨Expression.WellScoped.meant wellScoped.1 printable.1,
        fieldsWellScoped_meant wellScoped.2 printable.2⟩

theorem blockWellScoped_meant : ∀ {block : List Statement} {place : Vicinity} {stepped : Bool},
    StatementsWellScoped primitives place block → BlockPrintable stepped block →
      ∀ entry ∈ blockUses place block, entry.2.Meant entry.1
  | [], _, _, _, _ => List.forall_mem_nil _
  | .assignment _ _ _ :: _, _, _, wellScoped, printable => by
      have first := Expression.WellScoped.meant wellScoped.2.1 printable.1.2.2
      exact List.forall_mem_append.mpr ⟨List.forall_mem_cons.mpr ⟨trivial, first⟩,
        blockWellScoped_meant wellScoped.2.2 printable.2⟩
  | .execute _ _ :: _, _, _, wellScoped, printable =>
      List.forall_mem_append.mpr ⟨Expression.WellScoped.meant wellScoped.1 printable.1,
        blockWellScoped_meant wellScoped.2 printable.2⟩
  | .declaration _ _ :: _, _, _, wellScoped, printable =>
      List.forall_mem_append.mpr ⟨Procedure.WellScoped.meant wellScoped.1 printable.1,
        blockWellScoped_meant wellScoped.2 printable.2⟩
  | .comment _ _ :: _, _, _, wellScoped, printable | .blank _ :: _, _, _, wellScoped, printable
  | .series _ :: _, _, _, wellScoped, printable =>
      List.forall_mem_append.mpr ⟨List.forall_mem_nil _,
        blockWellScoped_meant wellScoped printable.2⟩

theorem Procedure.WellScoped.meant : ∀ {procedure : Procedure} {procedures : List Identifier},
    procedure.WellScoped primitives procedures → procedure.Printable →
      ∀ entry ∈ procedure.uses procedures, entry.2.Meant entry.1
  | ⟨_, _, _, _, _⟩, _, wellScoped, printable =>
      List.forall_mem_cons.mpr ⟨trivial, List.forall_mem_cons.mpr
        ⟨trivial, blockWellScoped_meant wellScoped.2.2 printable.2.2.2⟩⟩

end

end

/-- Whatever has a meaning at one of the uses had one before, or gets it from one of them. -/
def Gives (place : Vicinity) (uses : List (Vicinity × Use)) : Prop :=
  ∀ entry ∈ uses, ∀ name, entry.1.Has name → place.Has name ∨ name ∈ given uses

section
variable {place : Vicinity} {uses others : List (Vicinity × Use)} {use : Use}

theorem mem_given_left {name : Identifier} (mem : name ∈ given uses) :
    name ∈ given (uses ++ others) := by
  rw [given, List.flatMap_append]
  exact List.mem_append_left _ mem

theorem mem_given_right {name : Identifier} (mem : name ∈ given others) :
    name ∈ given (uses ++ others) := by
  rw [given, List.flatMap_append]
  exact List.mem_append_right _ mem

theorem Gives.nil : Gives place [] := nofun

theorem Gives.single : Gives place [(place, use)] :=
  List.forall_mem_singleton.mpr fun _ => .inl

/-- What is met later may have a meaning from what was met before. -/
theorem Gives.then {later : Vicinity} (first : Gives place uses) (rest : Gives later others)
    (onward : ∀ name, later.Has name → place.Has name ∨ name ∈ given uses) :
    Gives place (uses ++ others) := by
  refine List.forall_mem_append.mpr ⟨fun entry mem name has => ?_, fun entry mem name has => ?_⟩
  · exact (first entry mem name has).imp_right mem_given_left
  · rcases rest entry mem name has with before | given
    · exact (onward name before).imp_right mem_given_left
    · exact .inr (mem_given_right given)

theorem Gives.append (first : Gives place uses) (rest : Gives place others) :
    Gives place (uses ++ others) := first.then rest fun _ => .inl

theorem Gives.cons (rest : Gives place uses) : Gives place ((place, use) :: uses) :=
  Gives.single.append rest

theorem Gives.enter {block : Block} (within : Gives (place.enter block) uses) :
    Gives place uses := by
  intro entry mem name has
  refine (within entry mem name has).imp_left fun before => ?_
  rcases before with none | outer
  · cases none
  · exact List.mem_append.mp outer

end

mutual

theorem Expression.uses_give : ∀ (value : Expression) (place : Vicinity),
    Gives place (value.uses place)
  | .application _ _ argument, place => (argument.uses_give place).cons
  | .unit _, _ | .text _ _, _ | .amount _ _, _ => .nil
  | .hole _, _ | .reference _ _, _ => .single
  | .tablet _ fields, place => fieldsUses_give fields place
  | .operation _ _ left right, place => (left.uses_give place).append (right.uses_give place)
  | .grouping _ inner, place => inner.uses_give place
  | .restriction _ _ block, place =>
      (blockUses_give block (place.enter block)).cons.enter

theorem fieldsUses_give : ∀ (fields : List (Label × Expression)) (place : Vicinity),
    Gives place (fieldsUses place fields)
  | [], _ => .nil
  | (_, value) :: fields, place =>
      (Expression.uses_give value place).append (fieldsUses_give fields place)

theorem blockUses_give : ∀ (block : List Statement) (place : Vicinity),
    Gives place (blockUses place block)
  | [], _ => .nil
  | .assignment _ targets value :: block, place => by
      refine (Expression.uses_give value place).cons.then
        (blockUses_give block (place.bind targets)) fun name has => ?_
      rcases has with inner | outer
      · rcases List.mem_append.mp inner with target | inner
        · exact .inr (List.mem_append_left _ target)
        · exact .inl (.inl inner)
      · exact .inl (.inr outer)
  | .execute _ value :: block, place =>
      (Expression.uses_give value place).append (blockUses_give block place)
  | .declaration _ procedure :: block, place => by
      have inside := Procedure.uses_give procedure place.procedures
      exact Gives.append (fun entry mem name has => .inr (inside entry mem name has))
        (blockUses_give block place)
  | .comment _ _ :: block, place | .blank _ :: block, place | .series _ :: block, place =>
      Gives.append .nil (blockUses_give block place)

/-- A procedure sees no variables of what is around it. -/
theorem Procedure.uses_give : ∀ (procedure : Procedure) (procedures : List Identifier),
    ∀ entry ∈ procedure.uses procedures, ∀ name, entry.1.Has name →
      name ∈ given (procedure.uses procedures)
  | ⟨offset, name, parameters, signature, block⟩, procedures => by
      intro entry mem other has
      have inside := (blockUses_give block
        ⟨parameters, [], declaredNames block ++ procedures⟩).cons.cons entry mem other has
      rcases inside with (parameter | none) | given
      · exact List.mem_append_left _ parameter
      · cases none
      · exact given

end

theorem Document.uses_give (document : Document) :
    ∀ entry ∈ document.uses, ∀ name, entry.1.Has name → name ∈ given document.uses := by
  intro entry mem name has
  rcases List.mem_cons.mp mem with rfl | mem
  · rcases has with none | none
    · cases none
    · cases none
  · obtain ⟨procedure, declared, mem⟩ := List.mem_flatMap.mp mem
    have inside := procedure.uses_give _ entry mem name has
    obtain ⟨use, within, named⟩ := List.mem_flatMap.mp inside
    refine List.mem_flatMap.mpr ⟨use, List.mem_cons_of_mem _ ?_, named⟩
    exact List.mem_flatMap.mpr ⟨procedure, declared, within⟩

/-! Documents. -/

theorem Document.wellScoped_of_compile {document : Document} {source : Source}
    {primitives : List Identifier} {routine : Routine}
    (compiled : document.compile source primitives = .ok routine) :
    document.WellScoped primitives := by
  obtain ⟨distinct, after, main, made, found, _⟩ :=
    Lowering.makes_document.mp (compile_eq_ok.mp compiled)
  have shown (name : Identifier) :
      ((Scope.root.declareAll 0 document.procedures).procedures.get? name).isSome ↔
        name ∈ document.procedures.map Procedure.name := by
    rw [Scope.isSome_declareAll]
    simp [Scope.root]
  refine ⟨?_, distinct, (Lowering.lowerProcedures_succeeds_iff shown 0 _ _).mp ⟨_, _, made⟩⟩
  intro empty
  rw [empty] at made
  obtain ⟨_, rfl⟩ := Lowering.makes_pure.mp made
  cases found

theorem Document.read_placed {text : String} {document : Document}
    (read : Document.read text = .ok document) :
    ∀ procedure ∈ document.procedures, ∀ piece : Piece, piece.Within (.procedure procedure) →
      piece.Placed text.toList := by
  rw [Document.read, Reading.bind_eq_ok] at read
  obtain ⟨procedures, read, same⟩ := read
  obtain ⟨high, row⟩ := proceduresWithin_row _ .start read
  split at same
  · cases same
  · cases same
    exact fun procedure mem => row.placed _ (List.mem_map_of_mem mem)

theorem Token.Matches.hole_mem {closers : List Char} {written meant : List Token}
    (matched : Token.Matches closers written meant) (mem : .mark '?' ∈ written)
    (other : '?' ∉ closers) : .mark '?' ∈ meant := by
  induction matched with
  | nil => exact mem
  | same _ ih =>
      rcases List.mem_cons.mp mem with same | mem
      · exact same ▸ List.mem_cons_self
      · exact List.mem_cons_of_mem _ (ih mem)
  | hole _ ih => exact List.mem_cons_self
  | comma closes _ ih =>
      rcases List.mem_cons.mp mem with comma | mem
      · cases comma
      · rcases List.mem_cons.mp mem with closer | mem
        · cases closer
          exact absurd closes other
        · exact List.mem_cons_of_mem _ (ih mem)

/-- In a text that compiles no expression begins with a hole, and the first name of a list is never
the word for one. The names that are read all have a meaning where they stand, and are those of
targets and parameters. -/
theorem Source.compile_holeless {source : Source} {primitives : List Identifier} {routine : Routine}
    (compiled : source.compile primitives = .ok routine) :
    ∃ document, Document.read source.contents = .ok document ∧
      .mark '?' ∉ Text.tokens 0 source.contents.toList ∧
      (∀ procedure ∈ document.procedures, ∀ value : Expression,
        Piece.Within (.expression value) (.procedure procedure) →
          ¬Text.HoleAt source.contents.toList value.offset) ∧
      ∀ around offset names, (around, .read offset names) ∈ document.uses →
        names.head? ≠ some "undefined" ∧
        ∀ name ∈ names, around.Has name ∧ name ∈ given document.uses := by
  rw [Source.compile] at compiled
  split at compiled
  · rename_i document read
    have parsed := Document.parse_eq_ok.mpr read
    obtain ⟨_, _, wellScoped⟩ := Document.wellScoped_of_compile compiled
    obtain ⟨_, printable⟩ := Document.parse_printable parsed
    have holeless : .mark '?' ∉ document.tokens := by
      intro mem
      obtain ⟨procedure, declared, mem⟩ := List.mem_flatMap.mp mem
      exact (wellScoped procedure declared).holeless mem
    refine ⟨document, read, fun mem => ?_, fun procedure declared value within => ?_, ?_⟩
    · exact holeless ((Document.matches_tokens parsed).hole_mem mem (by decide))
    · refine Expression.not_holeAt (within.printable (printable procedure declared)) ?_ ?_
      · intro mem
        exact (wellScoped procedure declared).holeless (within.tokens_subset mem)
      · intro inner inside
        exact Document.read_placed read procedure declared inner (inside.trans within)
    · intro around offset names mem
      have meant : (Use.read offset names).Meant around := by
        rcases List.mem_cons.mp mem with none | mem
        · cases none
        · obtain ⟨procedure, declared, mem⟩ := List.mem_flatMap.mp mem
          exact (wellScoped procedure declared).meant (printable procedure declared) _ mem
      refine ⟨meant.1, fun name named => ?_⟩
      have has := meant.2 name named
      exact ⟨has, document.uses_give _ mem name has⟩
  · cases compiled

/-- A target has the word for a hole as its name, and is read behind a comma. -/
def Source.naming : Source := ⟨"main \x7b\n a = 1\n undefined = 2\n a, undefined\n\x7d", "main.tq"⟩

def Document.naming : Document where
  procedures := [⟨0, "main", [], none, [
    .assignment 8 ["a"] (.amount 12 (.number 1)),
    .assignment 15 ["undefined"] (.amount 27 (.number 2)),
    .execute 30 (.reference 30 ["a", "undefined"])]⟩]

theorem Source.compile_holeless_naming : ∃ routine, naming.compile [] = .ok routine ∧
    Document.read naming.contents = .ok Document.naming ∧
    .mark '?' ∉ Text.tokens 0 naming.contents.toList ∧
    given Document.naming.uses = ["a", "undefined"] ∧
    ∃ around, (around, .read 30 ["a", "undefined"]) ∈ Document.naming.uses ∧
      around.Has "undefined" ∧ "undefined" ∈ given Document.naming.uses := by
  have compiled : ∃ routine, naming.compile [] = .ok routine := ⟨_, rfl⟩
  have is : Document.read naming.contents = .ok Document.naming := rfl
  obtain ⟨routine, compiled⟩ := compiled
  obtain ⟨document, read, whole, _, reads⟩ := Source.compile_holeless compiled
  cases is.symm.trans read
  have mem : (⟨["undefined", "a"], [], ["main"]⟩, .read 30 ["a", "undefined"]) ∈
      Document.naming.uses :=
    .tail _ (.tail _ (.tail _ (.tail _ (.tail _ (.head _)))))
  have last := (reads _ _ _ mem).2 "undefined" (by simp)
  exact ⟨routine, compiled, is, whole, rfl, _, mem, last⟩

end Runbook
