import Runbook.Proofs.Lowering.Makes

/-!
What settings have no influence on.

`unset` is a tree, or a routine, in which everything is performed as around it, so those that differ
in settings only are the same when they are unset. Compiling keeps step with compiling what is
unset: names, callees and steps are the same, and so is a misuse with its place.
-/
namespace Runbook

mutual

/-- The expression with `@*` in place of each setting. -/
def Expression.unset : Expression → Expression
  | .application offset name argument => .application offset name argument.unset
  | .unit offset => .unit offset
  | .text offset text => .text offset text
  | .amount offset quantity => .amount offset quantity
  | .hole offset => .hole offset
  | .tablet offset fields => .tablet offset (fieldsUnset fields)
  | .reference offset names => .reference offset names
  | .operation offset operator left right => .operation offset operator left.unset right.unset
  | .grouping offset inner => .grouping offset inner.unset
  | .restriction offset _ block => .restriction offset .inherit (blockUnset block)

def fieldsUnset : List (Label × Expression) → List (Label × Expression)
  | [] => []
  | (label, value) :: fields => (label, value.unset) :: fieldsUnset fields

def Statement.unset : Statement → Statement
  | .assignment offset targets value => .assignment offset targets value.unset
  | .execute offset value => .execute offset value.unset
  | .declaration offset procedure => .declaration offset procedure.unset
  | .comment offset text => .comment offset text
  | .blank offset => .blank offset
  | .series offset => .series offset

def blockUnset : List Statement → List Statement
  | [] => []
  | statement :: block => statement.unset :: blockUnset block

def Procedure.unset : Procedure → Procedure
  | ⟨offset, name, parameters, signature, block⟩ =>
    ⟨offset, name, parameters, signature, blockUnset block⟩

end

/-- The document with `@*` in place of each setting. -/
def Document.unset (document : Document) : Document := ⟨document.procedures.map Procedure.unset⟩

/-- The entry, performed as around it. -/
def Entry.unset (entry : Entry) : Entry := ⟨.inherit, entry.step⟩

def Sequence.unset (sequence : Sequence) : Sequence := sequence.map Entry.unset

mutual

/-- The routine without the settings of its entries, and of those of its library. -/
def Routine.unset : Routine → Routine
  | ⟨procedure, parameters, sequence, library⟩ =>
    ⟨procedure.unset, parameters, Sequence.unset sequence, libraryUnset library⟩

def libraryUnset : List (Callee × Routine) → List (Callee × Routine)
  | [] => []
  | (callee, routine) :: library => (callee, routine.unset) :: libraryUnset library

end

@[simp] theorem Procedure.unset_name (procedure : Procedure) :
    procedure.unset.name = procedure.name := by
  cases procedure
  rfl

@[simp] theorem Procedure.unset_offset (procedure : Procedure) :
    procedure.unset.offset = procedure.offset := by
  cases procedure
  rfl

theorem declarations_unset (block : List Statement) :
    declarations (blockUnset block) = (declarations block).map Procedure.unset := by
  induction block with
  | nil => rfl
  | cons statement block ih =>
      cases statement with
      | declaration offset procedure => exact congrArg (procedure.unset :: ·) ih
      | _ => exact ih

/-- What a sequence does as one step has no setting. -/
@[simp] theorem Sequence.toStep_unset (sequence : Sequence) :
    sequence.unset.toStep = sequence.toStep := by
  match sequence with
  | [] => rfl
  | [entry] => rfl
  | first :: second :: entries =>
      have steps : (first :: second :: entries).map (Entry.step ∘ Entry.unset) =
          (first :: second :: entries).map Entry.step := rfl
      exact congrArg Step.tuple (List.map_map.trans steps)

namespace Library

theorem unset_insert (library : Library) (callee : Callee) (routine : Routine) :
    libraryUnset (library.insert callee routine) =
      insert (libraryUnset library) callee routine.unset := by
  induction library with
  | nil => rfl
  | cons entry library ih =>
      obtain ⟨other, kept⟩ := entry
      rw [insert, libraryUnset, insert]
      split_ifs with same before
      · rw [libraryUnset]
      · rw [libraryUnset, libraryUnset]
      · rw [libraryUnset, ih]

theorem unset_get? (library : Library) (callee : Callee) :
    get? (libraryUnset library) callee = (library.get? callee).map Routine.unset := by
  induction library with
  | nil => rfl
  | cons entry library ih =>
      obtain ⟨other, kept⟩ := entry
      rw [get?, libraryUnset, get?]
      split
      · rfl
      · exact ih

end Library

/-- The scope, in which everything is performed as around it. -/
def Scope.unset (scope : Scope) : Scope := { scope with setting := .inherit }

/-- A restriction with any setting is one with `@*`. -/
theorem Scope.unset_restrict (scope : Scope) (setting : Setting) :
    (scope.restrict setting).unset = scope.unset.restrict .inherit := rfl

namespace Lowering

/-- The same has been made, but for settings. -/
def Progress.unset (progress : Progress) : Progress :=
  { progress with library := libraryUnset progress.library }

/-- The other part gives what the part does, without its settings. -/
def Unsets {α β : Type} (image : α → β) (part : Lowering α) (other : Lowering β) : Prop :=
  ∀ before : Progress,
    other.run before.unset = (part.run before).map (Prod.map image Progress.unset)

namespace Unsets

variable {α β γ δ : Type} {image : α → β} {later : γ → δ}

theorem pure (a : α) : Unsets image (Pure.pure a) (Pure.pure (image a)) := fun _ => rfl

theorem refuse (offset : Nat) (reason : Reason) :
    Unsets image (refuse offset reason) (Lowering.refuse offset reason) := fun _ => rfl

theorem bind {part : Lowering α} {other : Lowering β} {next : α → Lowering γ}
    {rest : β → Lowering δ} (first : Unsets image part other)
    (follow : ∀ a, Unsets later (next a) (rest (image a))) :
    Unsets later (part >>= next) (other >>= rest) := by
  intro before
  rw [StateT.run_bind, StateT.run_bind, first before]
  cases part.run before with
  | error misuse => rfl
  | ok made => exact follow made.1 made.2

theorem entry (setting : Setting) (step : Step) :
    Unsets Sequence.unset (Pure.pure [⟨setting, step⟩]) (Pure.pure [⟨.inherit, step⟩]) :=
  fun _ => rfl

end Unsets

theorem fresh_unsets (identifier : Identifier) :
    Unsets id (fresh identifier) (fresh identifier) := fun _ => rfl

theorem keep_unsets (callee : Callee) (routine : Routine) :
    Unsets id (keep callee routine) (keep callee routine.unset) := by
  intro before
  have kept := Library.unset_insert before.library callee routine
  exact congrArg (fun library => Except.ok ((), { before with library })) kept.symm

theorem declareAll_go_unsets (progress : Progress) (scope : Scope) (next : Callee)
    (procedures : List Procedure) :
    Unsets (Prod.map id Scope.unset) (declareAll.go progress scope next procedures)
      (declareAll.go progress.unset scope.unset next (procedures.map Procedure.unset)) := by
  induction procedures generalizing scope next with
  | nil => exact fun _ => rfl
  | cons procedure procedures ih =>
      have same : scope.unset.procedures = scope.procedures := rfl
      rw [List.map_cons, declareAll.go, declareAll.go, Procedure.unset_name,
        Procedure.unset_offset, same]
      split
      · exact .refuse _ _
      · exact ih _ _

theorem declareAll_unsets (scope : Scope) (procedures : List Procedure) :
    Unsets (Prod.map id Scope.unset) (declareAll scope procedures)
      (declareAll scope.unset (procedures.map Procedure.unset)) := by
  have given : Unsets Progress.unset (MonadState.get : Lowering Progress) MonadState.get :=
    fun _ => rfl
  exact given.bind fun progress => declareAll_go_unsets progress scope progress.callees procedures

variable {context : Context}

theorem bindParameters_unsets (scope : Scope) (cursor : Nat) (parameters : List Identifier) :
    Unsets (Prod.map id Scope.unset) (bindParameters context scope cursor parameters)
      (bindParameters context scope.unset cursor parameters) := by
  induction parameters generalizing scope cursor with
  | nil => exact .pure ([], scope)
  | cons parameter parameters ih =>
      rw [bindParameters, bindParameters]
      have same : scope.unset.names = scope.names := rfl
      simp only [same]
      split
      · exact .refuse _ _
      · refine (fresh_unsets parameter).bind fun name => ?_
        refine (ih (scope.bind parameter name) _).bind fun bound => ?_
        exact .pure (name :: bound.1, bound.2)

theorem checkTargets_unsets (scope : Scope) (cursor : Nat) (before targets : List Identifier) :
    Unsets id (checkTargets context scope cursor before targets)
      (checkTargets context scope.unset cursor before targets) := by
  induction targets generalizing cursor before with
  | nil => exact .pure ()
  | cons target targets ih =>
      have same : scope.unset.names = scope.names := rfl
      rw [checkTargets, checkTargets, same]
      split
      · exact .refuse _ _
      · exact ih _ _

theorem bindTargets_unsets (scope : Scope) (targets : List Identifier) :
    Unsets (Prod.map id Scope.unset) (bindTargets scope targets)
      (bindTargets scope.unset targets) := by
  induction targets generalizing scope with
  | nil => exact .pure ([], scope)
  | cons target targets ih =>
      rw [bindTargets]
      refine (fresh_unsets target).bind fun name => ?_
      refine (ih (scope.bind target name)).bind fun bound => ?_
      exact .pure (name :: bound.1, bound.2)

theorem lowerReads_unsets (scope : Scope) (cursor : Nat) (identifiers : List Identifier) :
    Unsets id (lowerReads context scope cursor identifiers)
      (lowerReads context scope.unset cursor identifiers) := by
  induction identifiers generalizing cursor with
  | nil => exact .pure []
  | cons identifier identifiers ih =>
      have same : scope.unset.names = scope.names := rfl
      rw [lowerReads, lowerReads, same]
      split
      · exact .refuse _ _
      · refine (ih _).bind fun reads => ?_
        exact .pure _

theorem target_unsets (scope : Scope) (offset : Nat) (name : Identifier) :
    Unsets id (target context scope offset name) (target context scope.unset offset name) := by
  have same : scope.unset.procedures = scope.procedures := rfl
  rw [target, target, same]
  split
  · exact .pure _
  · split
    · exact .pure _
    · exact .refuse _ _

theorem inScope_unsets (scope : Scope) (block : Block)
    (stated : ∀ scope, Unsets (Prod.map Sequence.unset Scope.unset)
      (lowerStatements context scope block)
      (lowerStatements context scope.unset (blockUnset block)))
    (compiled : ∀ scope callee, Unsets id (lowerBodies context scope callee block)
      (lowerBodies context scope.unset callee (blockUnset block))) :
    Unsets Sequence.unset
      (inScope scope block (fun scope => lowerStatements context scope block)
        (fun scope first => lowerBodies context scope first block))
      (inScope scope.unset (blockUnset block)
        (fun scope => lowerStatements context scope (blockUnset block))
        (fun scope first => lowerBodies context scope first (blockUnset block))) := by
  rw [inScope, inScope, declarations_unset]
  refine (declareAll_unsets scope (declarations block)).bind fun declared => ?_
  refine (stated declared.2).bind fun made => ?_
  exact (compiled made.2 declared.1).bind fun _ => .pure made.1

mutual

/-- An expression without settings is lowered to its steps without settings. -/
theorem lowerExpression_unsets : ∀ (expression : Expression) (scope : Scope),
    Unsets Sequence.unset (lowerExpression context scope expression)
      (lowerExpression context scope.unset expression.unset)
  | .application offset name argument, scope => by
      rw [Expression.unset, lowerExpression, lowerExpression]
      refine (target_unsets scope offset name).bind fun apply => ?_
      refine (lowerExpression_unsets argument scope).bind fun entries => ?_
      rw [Sequence.toStep_unset]
      exact .entry _ _
  | .unit _, scope => .entry _ _
  | .text _ _, scope => .entry _ _
  | .amount _ _, scope => .entry _ _
  | .hole _, _ => .refuse _ _
  | .tablet _ fields, scope => by
      rw [Expression.unset, lowerExpression, lowerExpression]
      refine (lowerFields_unsets fields scope).bind fun steps => ?_
      exact .entry _ _
  | .reference offset names, scope => by
      rw [Expression.unset, lowerExpression, lowerExpression]
      refine (lowerReads_unsets scope offset names).bind fun reads => ?_
      exact .entry _ _
  | .operation _ operator left right, scope => by
      rw [Expression.unset, lowerExpression, lowerExpression]
      refine (lowerExpression_unsets left scope).bind fun first => ?_
      refine (lowerExpression_unsets right scope).bind fun second => ?_
      rw [Sequence.toStep_unset, Sequence.toStep_unset]
      exact .entry _ _
  | .grouping _ inner, scope => lowerExpression_unsets inner scope
  | .restriction _ setting block, scope => by
      rw [Expression.unset, lowerExpression, lowerExpression, ← Scope.unset_restrict scope setting]
      exact inScope_unsets (scope.restrict setting) block
        (fun scope => lowerStatements_unsets block scope)
        (fun scope callee => lowerBodies_unsets block scope callee)

theorem lowerFields_unsets : ∀ (fields : List (Label × Expression)) (scope : Scope),
    Unsets id (lowerFields context scope fields)
      (lowerFields context scope.unset (fieldsUnset fields))
  | [], _ => .pure []
  | (label, value) :: fields, scope => by
      rw [fieldsUnset, lowerFields, lowerFields]
      refine (lowerExpression_unsets value scope).bind fun entries => ?_
      refine (lowerFields_unsets fields scope).bind fun others => ?_
      rw [Sequence.toStep_unset]
      exact .pure _

theorem lowerStatements_unsets : ∀ (block : List Statement) (scope : Scope),
    Unsets (Prod.map Sequence.unset Scope.unset) (lowerStatements context scope block)
      (lowerStatements context scope.unset (blockUnset block))
  | [], scope => .pure ([], scope)
  | .assignment offset targets value :: block, scope => by
      rw [blockUnset, Statement.unset, lowerStatements, lowerStatements]
      refine (checkTargets_unsets scope offset [] targets).bind fun _ => ?_
      refine (lowerExpression_unsets value scope).bind fun entries => ?_
      refine (bindTargets_unsets scope targets).bind fun bound => ?_
      refine (lowerStatements_unsets block bound.2).bind fun others => ?_
      rw [Sequence.toStep_unset]
      exact .pure (⟨scope.setting, .bind bound.1 entries.toStep⟩ :: others.1, others.2)
  | .execute _ value :: block, scope => by
      rw [blockUnset, Statement.unset, lowerStatements, lowerStatements]
      refine (lowerExpression_unsets value scope).bind fun entries => ?_
      refine (lowerStatements_unsets block scope).bind fun others => ?_
      have both := @Unsets.pure _ _ (Prod.map Sequence.unset Scope.unset)
        (entries ++ others.1, others.2)
      rw [Prod.map_apply, Sequence.unset, List.map_append] at both
      exact both
  | .declaration _ _ :: block, scope => lowerStatements_unsets block scope
  | .comment _ _ :: block, scope => lowerStatements_unsets block scope
  | .blank _ :: block, scope => lowerStatements_unsets block scope
  | .series _ :: block, scope => lowerStatements_unsets block scope

theorem lowerBodies_unsets : ∀ (block : List Statement) (scope : Scope) (callee : Callee),
    Unsets id (lowerBodies context scope callee block)
      (lowerBodies context scope.unset callee (blockUnset block))
  | [], _, _ => .pure ()
  | .declaration _ procedure :: block, scope, callee => by
      rw [blockUnset, Statement.unset, lowerBodies, lowerBodies]
      refine (lowerProcedure_unsets procedure scope).bind fun routine => ?_
      refine (keep_unsets callee routine).bind fun _ => ?_
      exact lowerBodies_unsets block scope (callee + 1)
  | .assignment _ _ _ :: block, scope, callee => lowerBodies_unsets block scope callee
  | .execute _ _ :: block, scope, callee => lowerBodies_unsets block scope callee
  | .comment _ _ :: block, scope, callee => lowerBodies_unsets block scope callee
  | .blank _ :: block, scope, callee => lowerBodies_unsets block scope callee
  | .series _ :: block, scope, callee => lowerBodies_unsets block scope callee

theorem lowerProcedure_unsets : ∀ (procedure : Procedure) (scope : Scope),
    Unsets Routine.unset (lowerProcedure context scope procedure)
      (lowerProcedure context scope.unset procedure.unset)
  | ⟨offset, name, parameters, signature, block⟩, scope => by
      rw [Procedure.unset, lowerProcedure, lowerProcedure]
      refine (bindParameters_unsets scope.body (past offset name) parameters).bind fun bound => ?_
      refine (inScope_unsets bound.2 block
        (fun scope => lowerStatements_unsets block scope)
        (fun scope callee => lowerBodies_unsets block scope callee)).bind fun sequence => ?_
      exact .pure (Routine.mk ⟨offset, name, parameters, signature, block⟩ bound.1 sequence [])

end

theorem lowerProcedures_unsets (scope : Scope) (callee : Callee) (procedures : List Procedure) :
    Unsets id (lowerProcedures context scope callee procedures)
      (lowerProcedures context scope.unset callee (procedures.map Procedure.unset)) := by
  induction procedures generalizing callee with
  | nil => exact .pure ()
  | cons procedure procedures ih =>
      rw [List.map_cons, lowerProcedures, lowerProcedures]
      refine (lowerProcedure_unsets procedure scope).bind fun routine => ?_
      exact (keep_unsets callee routine).bind fun _ => ih _

theorem wholeDocument_unsets (document : Document) :
    Unsets id (wholeDocument context document) (wholeDocument context document.unset) :=
  (declareAll_unsets .root document.procedures).bind fun declared =>
    lowerProcedures_unsets declared.2 declared.1 document.procedures

theorem mainOf_unset (progress : Progress) :
    mainOf progress.unset = (mainOf progress).map Routine.unset := by
  have found := Library.unset_get? progress.library 0
  rw [mainOf, mainOf]
  simp only [Progress.unset, found]
  cases progress.library.get? 0 with
  | none => rfl
  | some routine => cases routine; rfl

end Lowering

/-- A document without settings compiles to its routine without settings. -/
theorem Document.compile_unset (document : Document) (source : Source)
    (primitives : List Identifier) :
    document.unset.compile source primitives =
      (document.compile source primitives).map Routine.unset := by
  let context : Lowering.Context := ⟨source.contents.toList, primitives⟩
  have unfolded (document : Document) : Lowering.document context document =
      (Lowering.wholeDocument context document).run .start >>= fun result =>
        Lowering.mainOf result.2 := rfl
  have same : (Lowering.wholeDocument context document.unset).run .start =
      ((Lowering.wholeDocument context document).run .start).map
        (Prod.map id Lowering.Progress.unset) := Lowering.wholeDocument_unsets document .start
  rw [compile, compile, unfolded, unfolded, same]
  cases (Lowering.wholeDocument context document).run .start with
  | error misuse => rfl
  | ok made =>
      change (Lowering.mainOf made.2.unset).mapError _ = ((Lowering.mainOf made.2).mapError _).map _
      rw [Lowering.mainOf_unset]
      cases Lowering.mainOf made.2 <;> rfl

end Runbook
