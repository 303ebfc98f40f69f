import Runbook.Proofs.Lowering.WellScoped

/-!
What a block compiles to, entry by entry.

A block compiles to one entry for each assignment and each expression that is performed, in the
order of the text. A restriction that is a statement is no expression of its own, be it in
parentheses or not: in its place stand the jobs of its block, and so at any depth. The entries of a
block are its jobs, each compiled in a scope that shows the names of its place, under the setting
of the innermost restriction around it that has one.
-/
namespace Runbook

/-- Where a block begins that declares procedures to the place. -/
def Vicinity.declare (place : Vicinity) (block : Block) : Vicinity :=
  { place with procedures := declaredNames block ++ place.procedures }

/-- What becomes an entry of a block, and where it stands in the block. -/
structure Job where
  /-- The names that have a meaning there. -/
  place : Vicinity
  /-- The settings of the restrictions around it that are statements, the innermost first. -/
  around : List Setting
  /-- What an assignment binds; `none` if the value is only performed. -/
  targets : Option (List Identifier)
  value : Expression

/-- The setting inside restrictions that stand in a block of the setting `own`: that of the
innermost one which does not keep the setting around it. -/
def Setting.inside (own : Setting) (around : List Setting) : Setting :=
  (around.find? (· ≠ .inherit)).getD own

mutual

/-- What a statement performs that has the expression. -/
def Expression.jobs (place : Vicinity) (around : List Setting) : Expression → List Job
  | .grouping _ inner => inner.jobs place around
  | .restriction _ setting block => blockJobs (place.enter block) (setting :: around) block
  | value => [⟨place, around, none, value⟩]

/-- What the statements of a block perform, in order. -/
def blockJobs (place : Vicinity) (around : List Setting) : List Statement → List Job
  | [] => []
  | .assignment _ targets value :: block =>
    ⟨place, around, some targets, value⟩ :: blockJobs (place.bind targets) around block
  | .execute _ value :: block => value.jobs place around ++ blockJobs place around block
  | _ :: block => blockJobs place around block

end

/-- In a block of the setting `own` the job is compiled to the entry. -/
structure Job.Becomes (context : Lowering.Context) (own : Setting) (job : Job) (entry : Entry) :
    Prop where
  setting : entry.setting = own.inside job.around
  step : ∃ scope before entries after, scope.Shows job.place ∧ scope.setting = entry.setting ∧
    Lowering.Makes (Lowering.lowerExpression context scope job.value) before entries after ∧
    match job.targets with
    | none => entries = [entry]
    | some targets => entry.step = .bind (Name.number after.names targets) entries.toStep

/-- The names that have a meaning in the scope. -/
def Scope.vicinity (scope : Scope) : Vicinity where
  inner := scope.names.inner.map Prod.fst
  outer := scope.names.outer.flatMap (·.map Prod.fst)
  procedures := (scope.procedures.inner :: scope.procedures.outer).flatMap (·.map Prod.fst)

theorem Levels.isSome_lookup {α : Type} (table : List (Identifier × α)) (name : Identifier) :
    (table.lookup name).isSome = true ↔ name ∈ table.map Prod.fst := by
  induction table with
  | nil => simp
  | cons entry table ih =>
      rw [List.lookup_cons, List.map_cons, List.mem_cons, ← ih]
      cases same : name == entry.1 with
      | true => simp [eq_of_beq same]
      | false => simp [ne_of_beq_false same]

theorem Levels.isSome_get? {α : Type} (levels : Levels α) (name : Identifier) :
    (levels.get? name).isSome = true ↔
      name ∈ (levels.inner :: levels.outer).flatMap (·.map Prod.fst) := by
  rw [get?, List.findSome?_isSome_iff, List.mem_flatMap]
  simp only [isSome_lookup]

theorem Scope.shows_vicinity (scope : Scope) : scope.Shows scope.vicinity where
  inner name := Levels.isSome_lookup _ name
  visible name := by
    rw [Levels.isSome_get?, List.flatMap_cons, List.mem_append]
    rfl
  procedures name := Levels.isSome_get? _ name

theorem Scope.Shows.declare {scope : Scope} {place : Vicinity} (shown : scope.Shows place)
    (first : Callee) (block : Block) :
    (scope.declareAll first (declarations block)).Shows (place.declare block) where
  inner name := by
    rw [declareAll_names]
    exact shown.inner name
  visible name := by
    rw [declareAll_names]
    exact shown.visible name
  procedures name := by
    rw [isSome_declareAll, shown.procedures]
    simp only [Vicinity.declare, List.mem_append, declaredNames]

theorem Scope.restrict_setting {scope : Scope} {own : Setting} {around : List Setting}
    (setting : Setting) (within : scope.setting = own.inside around) :
    (scope.restrict setting).setting = own.inside (setting :: around) := by
  cases setting with
  | inherit => exact within
  | role name => rfl
  | place name => rfl

namespace Lowering

variable {context : Context} {own : Setting}

/-- What a block compiles to in its own scope, be it that of a restriction or of a procedure. -/
def lowerBlock (context : Context) (scope : Scope) (block : Block) : Lowering Sequence :=
  inScope scope block (fun scope => lowerStatements context scope block)
    (fun scope first => lowerBodies context scope first block)

theorem lowerExpression_restriction (scope : Scope) (offset : Nat) (setting : Setting)
    (block : Block) : lowerExpression context scope (.restriction offset setting block) =
      lowerBlock context (scope.restrict setting) block := by
  rw [lowerExpression, lowerBlock]

/-- An expression that makes one entry is a job. -/
theorem becomes_execute {scope : Scope} {place : Vicinity} {around : List Setting}
    {before after : Progress} {value : Expression} {step : Step} (shown : scope.Shows place)
    (within : scope.setting = own.inside around)
    (made : Makes (lowerExpression context scope value) before [⟨scope.setting, step⟩] after) :
    List.Forall₂ (Job.Becomes context own) [⟨place, around, none, value⟩]
      [⟨scope.setting, step⟩] :=
  .cons ⟨within, scope, before, _, after, shown, rfl, made, rfl⟩ .nil

mutual

theorem lowerExpression_jobs {scope : Scope} {place : Vicinity} {around : List Setting}
    {before after : Progress} {sequence : Sequence} (shown : scope.Shows place)
    (within : scope.setting = own.inside around) : ∀ value : Expression,
      Makes (lowerExpression context scope value) before sequence after →
      List.Forall₂ (Job.Becomes context own) (value.jobs place around) sequence
  | .application _ _ _, made => by
      obtain ⟨_, _, ⟨_, _, rfl⟩ | ⟨_, _, rfl⟩⟩ := makes_application.mp made
      · exact becomes_execute shown within made
      · exact becomes_execute shown within made
  | .unit _, made | .text _ _, made | .amount _ _, made => by
      obtain ⟨rfl, _⟩ := makes_pure.mp made
      exact becomes_execute shown within made
  | .hole _, made => absurd made makes_refuse
  | .tablet _ _, made => by
      obtain ⟨_, _, rfl⟩ := makes_tablet.mp made
      exact becomes_execute shown within made
  | .reference _ _, made => by
      obtain ⟨_, _, rfl, _⟩ := makes_reference.mp made
      exact becomes_execute shown within made
  | .operation _ _ _ _, made => by
      obtain ⟨_, _, _, _, _, rfl⟩ := makes_operation.mp made
      exact becomes_execute shown within made
  | .grouping _ inner, made => lowerExpression_jobs shown within inner made
  | .restriction _ setting block, made => by
      rw [lowerExpression_restriction] at made
      obtain ⟨_, inner, middle, first, _⟩ := makes_inScope.mp made
      refine lowerStatements_jobs (shown.enter setting _ block) ?_ block first
      rw [Scope.declareAll_setting]
      exact Scope.restrict_setting setting within

/-- Each statement adds its jobs, where those before it have bound their names. -/
theorem lowerStatements_jobs {scope inner : Scope} {place : Vicinity} {around : List Setting}
    {before after : Progress} {sequence : Sequence} (shown : scope.Shows place)
    (within : scope.setting = own.inside around) : ∀ block : List Statement,
      Makes (lowerStatements context scope block) before (sequence, inner) after →
      List.Forall₂ (Job.Becomes context own) (blockJobs place around block) sequence
  | [], made => by
      simp only [lowerStatements, makes_pure, Prod.mk.injEq] at made
      rw [made.1.1]
      exact .nil
  | .assignment _ targets value :: block, made => by
      obtain ⟨_, entries, middle, _, others, first, rfl, rest, rfl⟩ := makes_assignment.mp made
      have bound := shown.bindAll (Name.number middle.names targets)
      rw [Name.number_identifiers] at bound
      refine .cons ⟨within, scope, before, entries, middle, shown, rfl, first, rfl⟩ ?_
      refine lowerStatements_jobs bound ?_ block rest
      rwa [Scope.bindAll_setting]
  | .execute _ value :: block, made => by
      obtain ⟨entries, middle, others, first, rest, rfl⟩ := makes_execute.mp made
      exact List.rel_append (lowerExpression_jobs shown within value first)
        (lowerStatements_jobs shown within block rest)
  | .declaration _ _ :: block, made => lowerStatements_jobs shown within block made
  | .comment _ _ :: block, made => lowerStatements_jobs shown within block made
  | .blank _ :: block, made => lowerStatements_jobs shown within block made
  | .series _ :: block, made => lowerStatements_jobs shown within block made

end

/-- The entries of a block are its jobs in the order of the text. -/
theorem lowerBlock_jobs {scope : Scope} {block : Block} {before after : Progress}
    {sequence : Sequence} (made : Makes (lowerBlock context scope block) before sequence after) :
    List.Forall₂ (Job.Becomes context scope.setting)
      (blockJobs (scope.vicinity.declare block) [] block) sequence := by
  obtain ⟨_, inner, middle, first, _⟩ := makes_inScope.mp made
  refine lowerStatements_jobs (scope.shows_vicinity.declare _ block) ?_ block first
  exact Scope.declareAll_setting _ _ _

/-- Restrictions in parentheses in restrictions, one of them in an argument. -/
def supper : Block := [
  .assignment 0 ["x"] (.text 0 "leek"),
  .execute 0 (.grouping 0 (.grouping 0 (.restriction 0 (.role "cook") [
    .comment 0 "soup",
    .execute 0 (.grouping 0 (.restriction 0 .inherit [
      .assignment 0 ["x"] (.reference 0 ["x"]),
      .series 0,
      .execute 0 (.application 0 "boil" (.restriction 0 (.place "stove") [
        .execute 0 (.unit 0),
        .execute 0 (.reference 0 ["x"])]))])),
    .blank 0,
    .execute 0 (.restriction 0 (.place "oven") [.execute 0 (.unit 0)])]))),
  .execute 0 (.reference 0 ["x"])]

theorem lowerBlock_jobs_supper : ∃ sequence after,
    Makes (lowerBlock ⟨[], ["boil"]⟩ .root supper) .start sequence after ∧
      sequence = [
        ⟨.inherit, .bind [⟨0, "x"⟩] (.literal (.text "leek"))⟩,
        ⟨.role "cook", .bind [⟨1, "x"⟩] (.tuple [.read ⟨0, "x"⟩])⟩,
        ⟨.role "cook", .invoke "boil" (.tuple [.literal .unit, .tuple [.read ⟨1, "x"⟩]])⟩,
        ⟨.place "oven", .literal .unit⟩,
        ⟨.inherit, .tuple [.read ⟨0, "x"⟩]⟩] ∧
      (blockJobs (Scope.root.vicinity.declare supper) [] supper).map Job.around = [[],
        [.inherit, .role "cook"], [.inherit, .role "cook"], [.place "oven", .role "cook"], []] ∧
      List.Forall₂ (Job.Becomes ⟨[], ["boil"]⟩ .inherit)
        (blockJobs (Scope.root.vicinity.declare supper) [] supper) sequence := by
  obtain ⟨sequence, after, made, same⟩ : ∃ sequence after,
      Makes (lowerBlock ⟨[], ["boil"]⟩ .root supper) .start sequence after ∧ sequence = [
        ⟨.inherit, .bind [⟨0, "x"⟩] (.literal (.text "leek"))⟩,
        ⟨.role "cook", .bind [⟨1, "x"⟩] (.tuple [.read ⟨0, "x"⟩])⟩,
        ⟨.role "cook", .invoke "boil" (.tuple [.literal .unit, .tuple [.read ⟨1, "x"⟩]])⟩,
        ⟨.place "oven", .literal .unit⟩,
        ⟨.inherit, .tuple [.read ⟨0, "x"⟩]⟩] := ⟨_, _, rfl, rfl⟩
  exact ⟨sequence, after, made, same, rfl, lowerBlock_jobs made⟩

/-- A procedure is compiled under no setting of the place where it is declared. -/
theorem lowerProcedure_jobs {scope : Scope} {procedure : Procedure} {routine : Routine}
    {before after : Progress}
    (made : Makes (lowerProcedure context scope procedure) before routine after) :
    ∃ names, names.map Name.identifier = procedure.parameters ∧ routine.parameters = names ∧
      List.Forall₂ (Job.Becomes context .inherit) (blockJobs
        ((scope.body.bindAll names).vicinity.declare procedure.block) [] procedure.block)
        routine.sequence := by
  obtain ⟨_, _, _, _, block⟩ := procedure
  obtain ⟨_, names, sequence, rfl, part, rfl⟩ := makes_procedure.mp made
  obtain ⟨_, inner, middle, first, _⟩ := makes_inScope.mp part
  refine ⟨_, Name.number_identifiers _ _, rfl, ?_⟩
  refine lowerStatements_jobs (Scope.Shows.declare (Scope.shows_vicinity _) _ block) ?_ block first
  rw [Scope.declareAll_setting, Scope.bindAll_setting]
  rfl

end Lowering

end Runbook
