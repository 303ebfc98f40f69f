import Runbook.Proofs.Lowering.Refuses
import Runbook.Proofs.Lowering.Renumbering

/-!
A procedure on its own, and alone in a file.

A file declares its procedures itself, before their bodies are compiled. So in a file of one
procedure each callee has the number after the one that it has when the procedure is compiled on its
own, and number 0 is the procedure's. Unless it applies its own name, there is no other difference:
what is declared around a procedure does not count for the names that may be declared in it.
-/
namespace Runbook

/-- Callees have the numbers after theirs, and names keep their numbers. -/
def Renumbering.oneUp : Renumbering := ⟨id, (· + 1)⟩

mutual

/-- The routine with other numbers, in its library too. -/
def Routine.renumber (numbers : Renumbering) : Routine → Routine
  | ⟨procedure, parameters, sequence, library⟩ =>
    ⟨procedure, parameters.map numbers.name, sequence.map (Entry.renumber numbers),
      libraryRenumber numbers library⟩

/-- The library with other numbers for its routines, and in them. -/
def libraryRenumber (numbers : Renumbering) : List (Callee × Routine) → List (Callee × Routine)
  | [] => []
  | (callee, routine) :: library =>
    (numbers.callee callee, routine.renumber numbers) :: libraryRenumber numbers library

end

theorem Renumbering.map_name_oneUp (names : List Name) : names.map oneUp.name = names :=
  List.map_id names

namespace Library

/-- Numbers that keep the order of callees keep the places of routines. -/
theorem renumber_insert (library : Library) (callee : Callee) (routine : Routine) :
    libraryRenumber .oneUp (library.insert callee routine) =
      insert (libraryRenumber .oneUp library) (callee + 1) (routine.renumber .oneUp) := by
  induction library with
  | nil => rfl
  | cons entry library ih =>
      obtain ⟨other, kept⟩ := entry
      have same : callee + 1 = other + 1 ↔ callee = other := Nat.add_right_cancel_iff
      have before : callee + 1 < other + 1 ↔ callee < other := Nat.add_lt_add_iff_right
      rw [insert, libraryRenumber, insert]
      simp only [Renumbering.oneUp, same, before]
      split_ifs
      · rfl
      · rfl
      · exact congrArg _ ih

/-- All routines with the numbers after theirs stand behind one with number 0. -/
theorem insert_zero (library : Library) (routine : Routine) :
    insert (libraryRenumber .oneUp library) 0 routine =
      (0, routine) :: libraryRenumber .oneUp library := by
  cases library with
  | nil => rfl
  | cons entry library => rfl

end Library

/-- The name is not applied in any of the uses. -/
def Spares (name : Identifier) (uses : List (Vicinity × Use)) : Prop :=
  ∀ around offset, (around, .applied offset name) ∉ uses

namespace Spares

variable {name : Identifier} {uses others : List (Vicinity × Use)} {use : Vicinity × Use}

theorem left (spares : Spares name (uses ++ others)) : Spares name uses :=
  fun around offset mem => spares around offset (List.mem_append_left _ mem)

theorem right (spares : Spares name (uses ++ others)) : Spares name others :=
  fun around offset mem => spares around offset (List.mem_append_right _ mem)

theorem tail (spares : Spares name (use :: uses)) : Spares name uses :=
  fun around offset mem => spares around offset (List.mem_cons_of_mem _ mem)

theorem head {around : Vicinity} {offset : Nat} {applied : Identifier}
    (spares : Spares name ((around, .applied offset applied) :: uses)) : applied ≠ name := by
  rintro rfl
  exact spares around offset List.mem_cons_self

end Spares

/-- The second scope gives procedures the numbers after those of the first; it may also know a
procedure of the hidden name. -/
structure Scope.Hides (hidden : Identifier) (scope other : Scope) : Prop where
  names : other.names = scope.names
  setting : other.setting = scope.setting
  holds : ∀ name, other.procedures.holds name = scope.procedures.holds name
  procedures : ∀ name, name ≠ hidden →
    other.procedures.get? name = (scope.procedures.get? name).map (· + 1)

namespace Scope.Hides

variable {hidden : Identifier} {scope other : Scope}

theorem restrict (hides : scope.Hides hidden other) (setting : Setting) :
    (scope.restrict setting).Hides hidden (other.restrict setting) where
  names := congrArg Levels.push hides.names
  setting := by
    cases setting with
    | inherit => exact hides.setting
    | role name => rfl
    | place name => rfl
  holds _ := rfl
  procedures := hides.procedures

theorem body (hides : scope.Hides hidden other) : scope.body.Hides hidden other.body where
  names := rfl
  setting := rfl
  holds _ := rfl
  procedures := hides.procedures

theorem bind (hides : scope.Hides hidden other) (identifier : Identifier) (name : Name) :
    (scope.bind identifier name).Hides hidden (other.bind identifier name) where
  names := congrArg (Levels.bind · identifier name) hides.names
  setting := hides.setting
  holds := hides.holds
  procedures := hides.procedures

theorem declare (hides : scope.Hides hidden other) (name : Identifier) (callee : Callee) :
    (scope.declare name callee).Hides hidden (other.declare name (callee + 1)) where
  names := hides.names
  setting := hides.setting
  holds asked := by
    rw [Scope.declare, Scope.declare, Levels.holds_bind, Levels.holds_bind, hides.holds]
  procedures asked apart := by
    rw [Scope.declare, Scope.declare, Levels.get?_bind, Levels.get?_bind, hides.procedures asked
      apart]
    split <;> rfl

/-- In the body of the only procedure of a file, its own name is hidden. -/
theorem root (name : Identifier) :
    Scope.root.body.Hides name (Scope.root.declare name 0).body where
  names := rfl
  setting := rfl
  holds _ := rfl
  procedures asked apart := by
    rw [Scope.body, Levels.get?_push, Scope.declare, Levels.get?_bind, if_neg apart]
    rfl

end Scope.Hides

namespace Lowering

/-- The same has been made, with the numbers after theirs for procedures. -/
def Progress.oneUp (progress : Progress) : Progress :=
  ⟨progress.names, progress.callees + 1, libraryRenumber .oneUp progress.library⟩

/-- The other part does what the part does, one number up, up to the relation of their results. -/
def Raises {α β : Type} (same : α → β → Prop) (part : Lowering α) (other : Lowering β) : Prop :=
  ∀ before : Progress,
    (∃ misuse, part.run before = .error misuse ∧ other.run before.oneUp = .error misuse) ∨
    ∃ a b after, part.run before = .ok (a, after) ∧ other.run before.oneUp = .ok (b, after.oneUp) ∧
      same a b

namespace Raises

variable {α β γ δ : Type} {same : α → β → Prop} {final : γ → δ → Prop}

theorem pure {a : α} {b : β} (holds : same a b) : Raises same (Pure.pure a) (Pure.pure b) :=
  fun before => .inr ⟨a, b, before, rfl, rfl, holds⟩

theorem refuse (offset : Nat) (reason : Reason) :
    Raises same (Lowering.refuse offset reason) (Lowering.refuse offset reason) :=
  fun _ => .inl ⟨⟨offset, reason⟩, rfl, rfl⟩

theorem bind {part : Lowering α} {other : Lowering β} {next : α → Lowering γ}
    {rest : β → Lowering δ} (first : Raises same part other)
    (follow : ∀ a b, same a b → Raises final (next a) (rest b)) :
    Raises final (part >>= next) (other >>= rest) := by
  intro before
  simp only [StateT.run_bind]
  rcases first before with ⟨misuse, fails, fails'⟩ | ⟨a, b, after, makes, makes', holds⟩
  · rw [fails, fails']
    exact .inl ⟨misuse, rfl, rfl⟩
  · rw [makes, makes']
    exact follow a b holds after

end Raises

variable {hidden : Identifier} {context : Context} {scope other : Scope}

theorem fresh_raises (identifier : Identifier) :
    Raises Eq (fresh identifier) (fresh identifier) :=
  fun _ => .inr ⟨_, _, _, rfl, rfl, rfl⟩

theorem keep_raises (callee : Callee) (routine : Routine) :
    Raises Eq (keep callee routine) (keep (callee + 1) (routine.renumber .oneUp)) := by
  intro before
  have kept := Library.renumber_insert before.library callee routine
  refine .inr ⟨(), (), _, rfl, ?_, rfl⟩
  exact congrArg (fun library => Except.ok ((), { before.oneUp with library })) kept.symm

theorem declareAll_go_raises (progress : Progress) (hides : scope.Hides hidden other)
    (next : Callee) (procedures : List Procedure) :
    Raises (fun one two => two.1 = one.1 + 1 ∧ one.2.Hides hidden two.2)
      (declareAll.go progress scope next procedures)
      (declareAll.go progress.oneUp other (next + 1) procedures) := by
  induction procedures generalizing scope other next with
  | nil =>
      intro _
      exact .inr ⟨_, _, _, rfl, rfl, rfl, hides⟩
  | cons procedure procedures ih =>
      rw [declareAll.go, declareAll.go, hides.holds]
      split
      · exact .refuse _ _
      · exact ih (hides.declare _ next) (next + 1)

theorem declareAll_raises (hides : scope.Hides hidden other) (procedures : List Procedure) :
    Raises (fun one two => two.1 = one.1 + 1 ∧ one.2.Hides hidden two.2)
      (declareAll scope procedures) (declareAll other procedures) := by
  have given : Raises (fun one two => two = one.oneUp) (MonadState.get : Lowering Progress)
      MonadState.get := fun before => .inr ⟨before, before.oneUp, before, rfl, rfl, rfl⟩
  refine given.bind ?_
  rintro progress _ rfl
  exact declareAll_go_raises progress hides progress.callees procedures

theorem bindParameters_raises (hides : scope.Hides hidden other) (cursor : Nat)
    (parameters : List Identifier) :
    Raises (fun one two => two.1 = one.1 ∧ one.2.Hides hidden two.2)
      (bindParameters context scope cursor parameters)
      (bindParameters context other cursor parameters) := by
  induction parameters generalizing scope other cursor with
  | nil => exact .pure ⟨rfl, hides⟩
  | cons parameter parameters ih =>
      rw [bindParameters, bindParameters]
      simp only [hides.names]
      split
      · exact .refuse _ _
      · refine (fresh_raises parameter).bind ?_
        rintro name _ rfl
        refine (ih (hides.bind parameter name) _).bind ?_
        rintro ⟨names, inner⟩ ⟨_, inner'⟩ ⟨rfl, hides⟩
        exact .pure ⟨rfl, hides⟩

theorem checkTargets_raises (hides : scope.Hides hidden other) (cursor : Nat)
    (before targets : List Identifier) :
    Raises Eq (checkTargets context scope cursor before targets)
      (checkTargets context other cursor before targets) := by
  induction targets generalizing cursor before with
  | nil => exact .pure rfl
  | cons target targets ih =>
      rw [checkTargets, checkTargets, hides.names]
      split
      · exact .refuse _ _
      · exact ih _ _

theorem bindTargets_raises (hides : scope.Hides hidden other) (targets : List Identifier) :
    Raises (fun one two => two.1 = one.1 ∧ one.2.Hides hidden two.2) (bindTargets scope targets)
      (bindTargets other targets) := by
  induction targets generalizing scope other with
  | nil => exact .pure ⟨rfl, hides⟩
  | cons target targets ih =>
      rw [bindTargets, bindTargets]
      refine (fresh_raises target).bind ?_
      rintro name _ rfl
      refine (ih (hides.bind target name)).bind ?_
      rintro ⟨names, inner⟩ ⟨_, inner'⟩ ⟨rfl, hides⟩
      exact .pure ⟨rfl, hides⟩

theorem lowerReads_raises (hides : scope.Hides hidden other) (cursor : Nat)
    (identifiers : List Identifier) :
    Raises (fun one two => two = stepsRenumber .oneUp one)
      (lowerReads context scope cursor identifiers)
      (lowerReads context other cursor identifiers) := by
  induction identifiers generalizing cursor with
  | nil => exact .pure rfl
  | cons identifier identifiers ih =>
      rw [lowerReads, lowerReads, hides.names]
      split
      · exact .refuse _ _
      · refine (ih _).bind ?_
        rintro reads _ rfl
        exact .pure rfl

theorem target_raises (hides : scope.Hides hidden other) (offset : Nat) {name : Identifier}
    (apart : name ≠ hidden) :
    Raises (fun one two => ∀ step : Step, two (step.renumber .oneUp) = (one step).renumber .oneUp)
      (target context scope offset name) (target context other offset name) := by
  rw [target, target, hides.procedures name apart]
  cases scope.procedures.get? name with
  | some callee => exact .pure fun _ => rfl
  | none =>
      dsimp only [Option.map_none]
      split
      · exact .pure fun _ => rfl
      · exact .refuse _ _

/-- Sequences that differ in the numbers of callees. -/
abbrev OneUp (sequence other : Sequence) : Prop := other = sequence.map (Entry.renumber .oneUp)

theorem inScope_raises (hides : scope.Hides hidden other) (block : Block)
    (stated : ∀ {scope other : Scope}, scope.Hides hidden other →
      Raises (fun one two => OneUp one.1 two.1 ∧ one.2.Hides hidden two.2)
        (lowerStatements context scope block) (lowerStatements context other block))
    (compiled : ∀ {scope other : Scope} (callee : Callee), scope.Hides hidden other →
      Raises Eq (lowerBodies context scope callee block)
        (lowerBodies context other (callee + 1) block)) :
    Raises OneUp
      (inScope scope block (fun scope => lowerStatements context scope block)
        (fun scope first => lowerBodies context scope first block))
      (inScope other block (fun scope => lowerStatements context scope block)
        (fun scope first => lowerBodies context scope first block)) := by
  rw [inScope, inScope]
  refine (declareAll_raises hides (declarations block)).bind ?_
  rintro ⟨first, opened⟩ ⟨_, opened'⟩ ⟨rfl, hides⟩
  refine (stated hides).bind ?_
  rintro ⟨sequence, after⟩ ⟨_, after'⟩ ⟨rfl, hides⟩
  exact (compiled first hides).bind fun _ _ _ => .pure rfl

mutual

theorem lowerExpression_raises {around : Vicinity} : ∀ (expression : Expression)
    {scope other : Scope}, scope.Hides hidden other → Spares hidden (expression.uses around) →
    Raises OneUp (lowerExpression context scope expression)
      (lowerExpression context other expression)
  | .application offset name argument, _, _, hides, spares => by
      rw [lowerExpression, lowerExpression, hides.setting]
      refine (target_raises hides offset spares.head).bind ?_
      intro apply apply' same
      refine (lowerExpression_raises argument hides spares.tail).bind ?_
      rintro sequence _ rfl
      rw [Sequence.toStep_renumber, same]
      exact .pure rfl
  | .unit _, _, _, hides, _ => by
      rw [lowerExpression, lowerExpression, hides.setting]
      exact .pure rfl
  | .text _ _, _, _, hides, _ => by
      rw [lowerExpression, lowerExpression, hides.setting]
      exact .pure rfl
  | .amount _ _, _, _, hides, _ => by
      rw [lowerExpression, lowerExpression, hides.setting]
      exact .pure rfl
  | .hole _, _, _, _, _ => .refuse _ _
  | .tablet _ fields, _, _, hides, spares => by
      rw [lowerExpression, lowerExpression, hides.setting]
      refine (lowerFields_raises fields hides spares).bind ?_
      rintro steps _ rfl
      exact .pure rfl
  | .reference offset names, _, _, hides, _ => by
      rw [lowerExpression, lowerExpression, hides.setting]
      refine (lowerReads_raises hides offset names).bind ?_
      rintro reads _ rfl
      exact .pure rfl
  | .operation _ operator left right, _, _, hides, spares => by
      rw [lowerExpression, lowerExpression, hides.setting]
      refine (lowerExpression_raises left hides spares.left).bind ?_
      rintro first _ rfl
      refine (lowerExpression_raises right hides spares.right).bind ?_
      rintro second _ rfl
      rw [Sequence.toStep_renumber, Sequence.toStep_renumber]
      exact .pure rfl
  | .grouping _ inner, _, _, hides, spares => lowerExpression_raises inner hides spares
  | .restriction _ setting block, _, _, hides, spares => by
      rw [lowerExpression, lowerExpression]
      exact inScope_raises (hides.restrict setting) block
        (fun hides => lowerStatements_raises block hides spares.tail)
        (fun callee hides => lowerBodies_raises block callee hides spares.tail)

theorem lowerFields_raises {around : Vicinity} : ∀ (fields : List (Label × Expression))
    {scope other : Scope}, scope.Hides hidden other → Spares hidden (fieldsUses around fields) →
    Raises (fun one two => two = stepFieldsRenumber .oneUp one) (lowerFields context scope fields)
      (lowerFields context other fields)
  | [], _, _, _, _ => .pure rfl
  | (label, value) :: fields, _, _, hides, spares => by
      rw [lowerFields, lowerFields]
      refine (lowerExpression_raises value hides spares.left).bind ?_
      rintro sequence _ rfl
      refine (lowerFields_raises fields hides spares.right).bind ?_
      rintro others _ rfl
      rw [Sequence.toStep_renumber]
      exact .pure rfl

theorem lowerStatements_raises {around : Vicinity} : ∀ (block : List Statement)
    {scope other : Scope}, scope.Hides hidden other → Spares hidden (blockUses around block) →
    Raises (fun one two => OneUp one.1 two.1 ∧ one.2.Hides hidden two.2)
      (lowerStatements context scope block) (lowerStatements context other block)
  | [], _, _, hides, _ => .pure ⟨rfl, hides⟩
  | .assignment offset targets value :: block, _, _, hides, spares => by
      rw [lowerStatements, lowerStatements, hides.setting]
      refine (checkTargets_raises hides offset [] targets).bind ?_
      rintro _ _ _
      refine (lowerExpression_raises value hides spares.left.tail).bind ?_
      rintro sequence _ rfl
      refine (bindTargets_raises hides targets).bind ?_
      rintro ⟨names, bound⟩ ⟨_, bound'⟩ ⟨rfl, hides⟩
      refine (lowerStatements_raises block hides spares.right).bind ?_
      rintro ⟨others, after⟩ ⟨_, after'⟩ ⟨rfl, hides⟩
      refine .pure ⟨?_, hides⟩
      rw [OneUp, List.map_cons, Entry.renumber, Step.renumber, Renumbering.map_name_oneUp,
        Sequence.toStep_renumber]
  | .execute _ value :: block, _, _, hides, spares => by
      rw [lowerStatements, lowerStatements]
      refine (lowerExpression_raises value hides spares.left).bind ?_
      rintro entries _ rfl
      refine (lowerStatements_raises block hides spares.right).bind ?_
      rintro ⟨others, after⟩ ⟨_, after'⟩ ⟨rfl, hides⟩
      exact .pure ⟨List.map_append.symm, hides⟩
  | .declaration _ _ :: block, _, _, hides, spares =>
      lowerStatements_raises block hides spares.right
  | .comment _ _ :: block, _, _, hides, spares => lowerStatements_raises block hides spares
  | .blank _ :: block, _, _, hides, spares => lowerStatements_raises block hides spares
  | .series _ :: block, _, _, hides, spares => lowerStatements_raises block hides spares

theorem lowerBodies_raises {around : Vicinity} : ∀ (block : List Statement) (callee : Callee)
    {scope other : Scope}, scope.Hides hidden other → Spares hidden (blockUses around block) →
    Raises Eq (lowerBodies context scope callee block)
      (lowerBodies context other (callee + 1) block)
  | [], _, _, _, _, _ => .pure rfl
  | .declaration _ procedure :: block, callee, _, _, hides, spares => by
      rw [lowerBodies, lowerBodies]
      refine (lowerProcedure_raises procedure hides.body spares.left).bind ?_
      rintro routine _ ⟨rfl, _⟩
      refine (keep_raises callee routine).bind ?_
      rintro _ _ _
      exact lowerBodies_raises block (callee + 1) hides spares.right
  | .assignment _ _ _ :: block, callee, _, _, hides, spares =>
      lowerBodies_raises block callee hides spares.right
  | .execute _ _ :: block, callee, _, _, hides, spares =>
      lowerBodies_raises block callee hides spares.right
  | .comment _ _ :: block, callee, _, _, hides, spares =>
      lowerBodies_raises block callee hides spares
  | .blank _ :: block, callee, _, _, hides, spares => lowerBodies_raises block callee hides spares
  | .series _ :: block, callee, _, _, hides, spares => lowerBodies_raises block callee hides spares

theorem lowerProcedure_raises {names : List Identifier} : ∀ (procedure : Procedure)
    {scope other : Scope}, scope.body.Hides hidden other.body →
    Spares hidden (procedure.uses names) →
    Raises (fun one two => two = one.renumber .oneUp ∧ one.library = [])
      (lowerProcedure context scope procedure) (lowerProcedure context other procedure)
  | ⟨offset, name, parameters, signature, block⟩, _, _, hides, spares => by
      rw [lowerProcedure, lowerProcedure]
      refine (bindParameters_raises hides (past offset name) parameters).bind ?_
      rintro ⟨bound, inner⟩ ⟨_, inner'⟩ ⟨rfl, hides⟩
      refine (inScope_raises hides block
        (fun hides => lowerStatements_raises block hides spares.tail.tail)
        (fun callee hides => lowerBodies_raises block callee hides spares.tail.tail)).bind ?_
      rintro sequence _ rfl
      refine .pure ⟨?_, rfl⟩
      rw [Routine.renumber, Renumbering.map_name_oneUp]
      rfl

end

/-- A file of one procedure is compiled by compiling the procedure with number 0 taken. -/
theorem document_single (context : Context) (procedure : Procedure) :
    Lowering.document context ⟨[procedure]⟩ =
      ((lowerProcedure context (Scope.root.declare procedure.name 0) procedure).run
        Progress.start.oneUp).bind fun made =>
          mainOf { made.2 with library := made.2.library.insert 0 made.1 } := by
  have unfolded : Lowering.document context ⟨[procedure]⟩ =
      (wholeDocument context ⟨[procedure]⟩).run .start >>= fun result => mainOf result.2 := rfl
  have declared : (Lowering.declareAll .root [procedure]).run .start =
      .ok ((0, Scope.root.declare procedure.name 0), Progress.start.oneUp) := rfl
  rw [unfolded, wholeDocument, StateT.run_bind, declared]
  change ((lowerProcedures context (Scope.root.declare procedure.name 0) 0 [procedure]).run
    Progress.start.oneUp >>= _) = _
  rw [lowerProcedures, StateT.run_bind]
  cases (lowerProcedure context (Scope.root.declare procedure.name 0) procedure).run
    Progress.start.oneUp with
  | error misuse => rfl
  | ok made => rfl

end Lowering

/-- The routine of a file in which the procedure is alone. -/
def Routine.alone (routine : Routine) : Routine :=
  let main := { routine.renumber .oneUp with library := [] }
  { main with library := (0, main) :: libraryRenumber .oneUp routine.library }

/-- A procedure that does not apply its own name compiles alike on its own and alone in a file. -/
theorem Lowering.document_alone (context : Context) (procedure : Procedure)
    (spares : Spares procedure.name (procedure.uses [])) :
    Lowering.document context ⟨[procedure]⟩ =
      (Lowering.procedure context procedure).map Routine.alone := by
  have unfolded : Lowering.procedure context procedure =
      (lowerProcedure context .root procedure).run .start >>= fun made =>
        pure { made.1 with library := made.2.library } := rfl
  rw [document_single, unfolded]
  rcases lowerProcedure_raises procedure (.root procedure.name) spares .start with
    ⟨misuse, fails, fails'⟩ | ⟨⟨compiled, parameters, sequence, _⟩, _, after, makes, makes', rfl,
      rfl⟩
  · rw [fails, fails']
    rfl
  · rw [makes, makes']
    change mainOf { after.oneUp with library := Library.insert after.oneUp.library 0 _ } = _
    rw [Progress.oneUp, Library.insert_zero]
    rfl

/-- A procedure that does not apply its own name compiles alike on its own and alone in a file. Both
are refused with the same misuse at the same place, or both compile: to the same parameters, and to
sequences in which each callee of the one has the number after that of the other. The library of the
file is that of the procedure one number up, with the procedure itself as number 0. -/
theorem Procedure.compile_alone (procedure : Procedure)
    (spares : Spares procedure.name (procedure.uses [])) (source : Source)
    (primitives : List Identifier) :
    (∀ diagnostic, Document.compile ⟨[procedure]⟩ source primitives = .error diagnostic ↔
      procedure.compile source primitives = .error diagnostic) ∧
    ∀ routine, procedure.compile source primitives = .ok routine → ∃ whole,
      Document.compile ⟨[procedure]⟩ source primitives = .ok whole ∧
      whole.procedure = routine.procedure ∧ whole.parameters = routine.parameters ∧
      whole.sequence = routine.sequence.map (Entry.renumber .oneUp) ∧
      whole.library = (0, { whole with library := [] }) ::
        libraryRenumber .oneUp routine.library := by
  rw [Document.compile, Lowering.document_alone _ procedure spares, compile]
  cases Lowering.procedure ⟨source.contents.toList, primitives⟩ procedure with
  | error misuse =>
      refine ⟨fun _ => Iff.rfl, ?_⟩
      rintro routine ⟨⟩
  | ok routine =>
      refine ⟨fun diagnostic => iff_of_false ?_ ?_, ?_⟩
      · rintro ⟨⟩
      · rintro ⟨⟩
      rintro _ ⟨⟩
      obtain ⟨compiled, parameters, sequence, library⟩ := routine
      refine ⟨_, rfl, rfl, ?_, rfl, rfl⟩
      exact Renumbering.map_name_oneUp parameters

/-- A procedure that calls another one, which it declares. -/
def Procedure.airing : Procedure :=
  ⟨0, "main", ["room"], none, [
    .execute 0 (.application 0 "open" (.reference 0 ["room"])),
    .declaration 0 ⟨0, "open", ["window"], none, [
      .execute 0 (.application 0 "task" (.reference 0 ["window"]))]⟩]⟩

theorem Procedure.compile_alone_airing :
    Spares "main" (airing.uses []) ∧ ∃ routine whole,
      airing.compile ⟨"", ""⟩ ["task"] = .ok routine ∧
      Document.compile ⟨[airing]⟩ ⟨"", ""⟩ ["task"] = .ok whole ∧
      routine.sequence = [⟨.inherit, .call 0 (.tuple [.read ⟨0, "room"⟩])⟩] ∧
      whole.sequence = [⟨.inherit, .call 1 (.tuple [.read ⟨0, "room"⟩])⟩] ∧
      whole.library.map Prod.fst = [0, 1] := by
  have spares : Spares "main" (airing.uses []) := by
    intro around offset mem
    simp [airing, uses, blockUses, Statement.uses, Expression.uses] at mem
  have compiled : airing.compile ⟨"", ""⟩ ["task"] = .ok _ := rfl
  obtain ⟨whole, compiled', _, _, sequence, library⟩ :=
    (compile_alone airing spares ⟨"", ""⟩ ["task"]).2 _ compiled
  exact ⟨spares, _, whole, compiled, compiled', rfl, sequence, by rw [library]; rfl⟩

end Runbook
