import Runbook.Proofs.Lowering.WellScoped

/-!
What comes into the library.

A document declares procedures at any depth: in its file, in blocks, and in blocks that are parts of
values. Each of them gets a routine of the library, which binds what is bound in it, under the
identifiers that the document has for it. The routines are numbered without a gap, and so are the
names that they bind.
-/
namespace Runbook

mutual

/-- The procedures that are declared in an expression, at any depth. -/
def Expression.procedures : Expression → List Procedure
  | .application _ _ argument => argument.procedures
  | .unit _ | .text _ _ | .amount _ _ | .hole _ | .reference _ _ => []
  | .tablet _ fields => fieldsProcedures fields
  | .operation _ _ left right => left.procedures ++ right.procedures
  | .grouping _ inner => inner.procedures
  | .restriction _ _ block => valuesProcedures block ++ bodiesProcedures block

def fieldsProcedures : List (Label × Expression) → List Procedure
  | [] => []
  | (_, value) :: fields => value.procedures ++ fieldsProcedures fields

/-- The procedures that are declared in what the statements perform. -/
def valuesProcedures : List Statement → List Procedure
  | [] => []
  | .assignment _ _ value :: block => value.procedures ++ valuesProcedures block
  | .execute _ value :: block => value.procedures ++ valuesProcedures block
  | _ :: block => valuesProcedures block

/-- The procedures that the statements declare, each with those that are declared in it. -/
def bodiesProcedures : List Statement → List Procedure
  | [] => []
  | .declaration _ procedure :: block =>
    procedure :: procedure.procedures ++ bodiesProcedures block
  | _ :: block => bodiesProcedures block

/-- The procedures that are declared in a procedure, at any depth. -/
def Procedure.procedures : Procedure → List Procedure
  | ⟨_, _, _, _, block⟩ => valuesProcedures block ++ bodiesProcedures block

end

/-- The procedures of a document at any depth. -/
def Document.everyProcedure (document : Document) : List Procedure :=
  document.procedures.flatMap fun procedure => procedure :: procedure.procedures

/-- A procedure that is declared, and the names of the procedures that its block and the blocks
around that declare. -/
structure Scene where
  procedure : Procedure
  visible : List Identifier

mutual

/-- The scenes of the procedures that are declared in an expression at a place where the names are
visible. -/
def Expression.scenes (visible : List Identifier) : Expression → List Scene
  | .application _ _ argument => argument.scenes visible
  | .unit _ | .text _ _ | .amount _ _ | .hole _ | .reference _ _ => []
  | .tablet _ fields => fieldsScenes visible fields
  | .operation _ _ left right => left.scenes visible ++ right.scenes visible
  | .grouping _ inner => inner.scenes visible
  | .restriction _ _ block =>
    valuesScenes (declaredNames block ++ visible) block ++
      bodiesScenes (declaredNames block ++ visible) block

def fieldsScenes (visible : List Identifier) : List (Label × Expression) → List Scene
  | [] => []
  | (_, value) :: fields => value.scenes visible ++ fieldsScenes visible fields

def valuesScenes (visible : List Identifier) : List Statement → List Scene
  | [] => []
  | .assignment _ _ value :: block => value.scenes visible ++ valuesScenes visible block
  | .execute _ value :: block => value.scenes visible ++ valuesScenes visible block
  | _ :: block => valuesScenes visible block

def bodiesScenes (visible : List Identifier) : List Statement → List Scene
  | [] => []
  | .declaration _ procedure :: block =>
    ⟨procedure, visible⟩ :: procedure.scenes visible ++ bodiesScenes visible block
  | _ :: block => bodiesScenes visible block

def Procedure.scenes (visible : List Identifier) : Procedure → List Scene
  | ⟨_, _, _, _, block⟩ =>
    valuesScenes (declaredNames block ++ visible) block ++
      bodiesScenes (declaredNames block ++ visible) block

end

/-- The scenes of all procedures of a document. -/
def Document.scenes (document : Document) : List Scene :=
  let visible := document.procedures.map Procedure.name
  document.procedures.flatMap fun procedure =>
    ⟨procedure, visible⟩ :: procedure.scenes visible

mutual

theorem Expression.scenes_procedures (visible : List Identifier) : ∀ expression : Expression,
    (expression.scenes visible).map Scene.procedure = expression.procedures
  | .application _ _ argument => argument.scenes_procedures visible
  | .unit _ | .text _ _ | .amount _ _ | .hole _ | .reference _ _ => rfl
  | .tablet _ fields => fieldsScenes_procedures visible fields
  | .operation _ _ left right => by
      rw [Expression.scenes, Expression.procedures, List.map_append,
        left.scenes_procedures visible, right.scenes_procedures visible]
  | .grouping _ inner => inner.scenes_procedures visible
  | .restriction _ _ block => by
      rw [Expression.scenes, Expression.procedures, List.map_append, valuesScenes_procedures,
        bodiesScenes_procedures]

theorem fieldsScenes_procedures (visible : List Identifier) :
    ∀ fields : List (Label × Expression),
      (fieldsScenes visible fields).map Scene.procedure = fieldsProcedures fields
  | [] => rfl
  | (_, value) :: fields => by
      rw [fieldsScenes, fieldsProcedures, List.map_append, value.scenes_procedures visible,
        fieldsScenes_procedures visible fields]

theorem valuesScenes_procedures (visible : List Identifier) : ∀ block : List Statement,
    (valuesScenes visible block).map Scene.procedure = valuesProcedures block
  | [] => rfl
  | .assignment _ _ value :: block => by
      rw [valuesScenes, valuesProcedures, List.map_append, value.scenes_procedures visible,
        valuesScenes_procedures visible block]
  | .execute _ value :: block => by
      rw [valuesScenes, valuesProcedures, List.map_append, value.scenes_procedures visible,
        valuesScenes_procedures visible block]
  | .declaration _ _ :: block | .comment _ _ :: block | .blank _ :: block | .series _ :: block =>
      valuesScenes_procedures visible block

theorem bodiesScenes_procedures (visible : List Identifier) : ∀ block : List Statement,
    (bodiesScenes visible block).map Scene.procedure = bodiesProcedures block
  | [] => rfl
  | .declaration _ procedure :: block => by
      rw [bodiesScenes, bodiesProcedures, List.map_append, List.map_cons,
        procedure.scenes_procedures visible, bodiesScenes_procedures visible block]
  | .assignment _ _ _ :: block | .execute _ _ :: block | .comment _ _ :: block
  | .blank _ :: block | .series _ :: block => bodiesScenes_procedures visible block

theorem Procedure.scenes_procedures (visible : List Identifier) : ∀ procedure : Procedure,
    (procedure.scenes visible).map Scene.procedure = procedure.procedures
  | ⟨_, _, _, _, block⟩ => by
      rw [Procedure.scenes, Procedure.procedures, List.map_append, valuesScenes_procedures,
        bodiesScenes_procedures]

end

theorem Document.scenes_procedures (document : Document) :
    document.scenes.map Scene.procedure = document.everyProcedure := by
  simp only [scenes, everyProcedure, List.map_flatMap, List.map_cons,
    Procedure.scenes_procedures]

mutual

/-- What the assignments in an expression bind, but for those of procedures that are declared in it,
in the order of binding. -/
def Expression.targets : Expression → List Identifier
  | .application _ _ argument => argument.targets
  | .unit _ | .text _ _ | .amount _ _ | .hole _ | .reference _ _ => []
  | .tablet _ fields => fieldsTargets fields
  | .operation _ _ left right => left.targets ++ right.targets
  | .grouping _ inner => inner.targets
  | .restriction _ _ block => blockTargets block

def fieldsTargets : List (Label × Expression) → List Identifier
  | [] => []
  | (_, value) :: fields => value.targets ++ fieldsTargets fields

def blockTargets : List Statement → List Identifier
  | [] => []
  | .assignment _ targets value :: block => value.targets ++ targets ++ blockTargets block
  | .execute _ value :: block => value.targets ++ blockTargets block
  | _ :: block => blockTargets block

end

/-- The routine is one of a library: it has no library of its own, and it binds, in order, what its
procedure says. -/
structure Routine.Faithful (routine : Routine) : Prop where
  library : routine.library = []
  parameters : routine.parameters.map Name.identifier = routine.procedure.parameters
  targets : (Sequence.binders routine.sequence).map Name.identifier =
    blockTargets routine.procedure.block

namespace Library

/-- Puts routines in their places, one after the other. -/
def insertAll (library : Library) (added : List (Callee × Routine)) : Library :=
  added.foldl (fun library entry => library.insert entry.1 entry.2) library

theorem insertAll_append (library : Library) (first rest : List (Callee × Routine)) :
    library.insertAll (first ++ rest) = (library.insertAll first).insertAll rest :=
  List.foldl_append

/-- The routines stand in the order of their numbers, which differ. -/
def Ordered (library : Library) : Prop := (library.map Prod.fst).Pairwise (· < ·)

theorem insert_perm {library : Library} {callee : Callee} (routine : Routine)
    (absent : callee ∉ library.map Prod.fst) :
    (library.insert callee routine).Perm ((callee, routine) :: library) := by
  induction library with
  | nil => exact .refl _
  | cons entry library ih =>
      obtain ⟨other, kept⟩ := entry
      rw [List.map_cons, List.mem_cons, not_or] at absent
      rw [insert, if_neg absent.1]
      split
      · exact .refl _
      · exact ((ih absent.2).cons _).trans (.swap _ _ _)

theorem insertAll_perm {library : Library} {added : List (Callee × Routine)}
    (distinct : ((library ++ added).map Prod.fst).Nodup) :
    (library.insertAll added).Perm (library ++ added) := by
  induction added generalizing library with
  | nil => rw [List.append_nil]; exact .refl _
  | cons entry added ih =>
      have first : (library ++ entry :: added).Perm ((entry :: library) ++ added) :=
        List.perm_middle
      rw [List.Perm.nodup_iff (first.map Prod.fst), List.map_append] at distinct
      have absent : entry.1 ∉ library.map Prod.fst :=
        (List.nodup_cons.mp (List.nodup_append.mp distinct).1).1
      have placed := insert_perm entry.2 absent
      have unique : ((library.insert entry.1 entry.2 ++ added).map Prod.fst).Nodup := by
        rw [List.map_append]
        exact (List.Perm.nodup_iff ((placed.map Prod.fst).append_right _)).mpr distinct
      exact ((ih unique).trans (placed.append_right added)).trans first.symm

theorem mem_insert_keys {library : Library} {callee other : Callee} {routine : Routine}
    (inside : other ∈ (library.insert callee routine).map Prod.fst) :
    other = callee ∨ other ∈ library.map Prod.fst := by
  induction library with
  | nil => exact .inl (List.mem_singleton.mp inside)
  | cons entry library ih =>
      obtain ⟨first, kept⟩ := entry
      rw [insert] at inside
      split_ifs at inside with same before
      · exact (List.mem_cons.mp inside).imp_right (List.mem_cons_of_mem _)
      · exact List.mem_cons.mp inside
      · rcases List.mem_cons.mp inside with rfl | later
        · exact .inr List.mem_cons_self
        · exact (ih later).imp_right (List.mem_cons_of_mem _)

theorem Ordered.insert {library : Library} (ordered : library.Ordered) (callee : Callee)
    (routine : Routine) : (library.insert callee routine).Ordered := by
  induction library with
  | nil => exact List.pairwise_singleton _ _
  | cons entry library ih =>
      obtain ⟨other, kept⟩ := entry
      rw [Ordered, List.map_cons, List.pairwise_cons] at ordered
      obtain ⟨first, rest⟩ := ordered
      rw [Library.insert]
      split_ifs with same before
      · rw [same]
        exact List.pairwise_cons.mpr ⟨first, rest⟩
      · refine List.pairwise_cons.mpr ⟨fun later member => ?_, List.pairwise_cons.mpr ⟨first, rest⟩⟩
        rcases List.mem_cons.mp member with rfl | member
        · exact before
        · exact Nat.lt_trans before (first later member)
      · refine List.pairwise_cons.mpr ⟨fun later member => ?_, ih rest⟩
        rcases mem_insert_keys member with rfl | member
        · exact Nat.lt_of_le_of_ne (Nat.le_of_not_lt before) (Ne.symm same)
        · exact first later member

theorem Ordered.insertAll {library : Library} (ordered : library.Ordered)
    (added : List (Callee × Routine)) : (library.insertAll added).Ordered := by
  induction added generalizing library with
  | nil => exact ordered
  | cons entry added ih => exact ih (ordered.insert entry.1 entry.2)

end Library

namespace Lowering

variable {context : Context}

/-! What is bound keeps the identifiers of its targets. -/

mutual

theorem lowerExpression_targets {scope : Scope} {before after : Progress} {sequence : Sequence} :
    ∀ expression : Expression,
      Makes (lowerExpression context scope expression) before sequence after →
        sequence.binders.map Name.identifier = expression.targets
  | .application offset name argument, made => by
      obtain ⟨entries, part, ⟨callee, _, rfl⟩ | ⟨_, _, rfl⟩⟩ := makes_application.mp made
      · simpa [Sequence.binders, stepsBinders, Step.binders, Expression.targets] using
          lowerExpression_targets argument part
      · simpa [Sequence.binders, stepsBinders, Step.binders, Expression.targets] using
          lowerExpression_targets argument part
  | .unit offset, made => by
      obtain ⟨rfl, rfl⟩ := makes_pure.mp made
      rfl
  | .text offset text, made => by
      obtain ⟨rfl, rfl⟩ := makes_pure.mp made
      rfl
  | .amount offset quantity, made => by
      obtain ⟨rfl, rfl⟩ := makes_pure.mp made
      rfl
  | .hole offset, made => absurd made makes_refuse
  | .tablet offset fields, made => by
      obtain ⟨steps, part, rfl⟩ := makes_tablet.mp made
      simpa [Sequence.binders, stepsBinders, Step.binders, Literal.binders, Expression.targets]
        using lowerFields_targets fields part
  | .reference offset identifiers, made => by
      obtain ⟨names, _, rfl, rfl⟩ := makes_reference.mp made
      simp [Sequence.binders, stepsBinders, Step.binders, Expression.targets]
  | .operation offset operator left right, made => by
      obtain ⟨first, middle, second, part, rest, rfl⟩ := makes_operation.mp made
      rw [Expression.targets, ← lowerExpression_targets left part,
        ← lowerExpression_targets right rest]
      simp [Sequence.binders, stepsBinders, Step.binders]
  | .grouping offset inner, made => lowerExpression_targets inner made
  | .restriction offset setting block, made => by
      rw [lowerExpression] at made
      obtain ⟨_, inner, middle, first, _⟩ := makes_inScope.mp made
      exact lowerStatements_targets block first

theorem lowerFields_targets {scope : Scope} {before after : Progress}
    {steps : List (Label × Step)} : ∀ fields : List (Label × Expression),
      Makes (lowerFields context scope fields) before steps after →
        (fieldsBinders steps).map Name.identifier = fieldsTargets fields
  | [], made => by
      obtain ⟨rfl, rfl⟩ := makes_pure.mp made
      rfl
  | (label, value) :: fields, made => by
      obtain ⟨entries, middle, others, part, rest, rfl⟩ := makes_field.mp made
      rw [fieldsTargets, ← lowerExpression_targets value part, ← lowerFields_targets fields rest]
      simp [fieldsBinders]

theorem lowerStatements_targets {scope inner : Scope} {before after : Progress}
    {sequence : Sequence} : ∀ block : List Statement,
      Makes (lowerStatements context scope block) before (sequence, inner) after →
        sequence.binders.map Name.identifier = blockTargets block
  | [], made => by
      simp only [lowerStatements, makes_pure, Prod.mk.injEq] at made
      obtain ⟨⟨rfl, rfl⟩, rfl⟩ := made
      rfl
  | .assignment offset targets value :: block, made => by
      obtain ⟨_, entries, middle, names, others, part, rfl, rest, rfl⟩ :=
        makes_assignment.mp made
      rw [blockTargets, ← lowerExpression_targets value part,
        ← lowerStatements_targets block rest]
      simp [Sequence.binders, stepsBinders, Step.binders]
  | .execute offset value :: block, made => by
      obtain ⟨entries, middle, others, part, rest, rfl⟩ := makes_execute.mp made
      rw [blockTargets, ← lowerExpression_targets value part,
        ← lowerStatements_targets block rest]
      simp [Sequence.binders, stepsBinders_append]
  | .declaration _ _ :: block, made => lowerStatements_targets block made
  | .comment _ _ :: block, made => lowerStatements_targets block made
  | .blank _ :: block, made => lowerStatements_targets block made
  | .series _ :: block, made => lowerStatements_targets block made

end

theorem lowerProcedure_faithful {scope : Scope} {before after : Progress} {routine : Routine}
    {procedure : Procedure} (made : Makes (lowerProcedure context scope procedure) before routine
      after) : routine.procedure = procedure ∧ routine.Faithful := by
  obtain ⟨offset, name, parameters, signature, block⟩ := procedure
  obtain ⟨_, names, sequence, rfl, part, rfl⟩ := makes_procedure.mp made
  obtain ⟨_, inner, middle, first, _⟩ := makes_inScope.mp part
  exact ⟨rfl, rfl, Name.number_identifiers _ _, lowerStatements_targets block first⟩

/-- The names are those of the procedures that the scope has. -/
def Sees (scope : Scope) (visible : List Identifier) : Prop :=
  ∀ name, name ∈ visible ↔ (scope.procedures.get? name).isSome

theorem Sees.declareAll {scope : Scope} {visible : List Identifier} (sees : Sees scope visible)
    (first : Callee) (procedures : List Procedure) :
    Sees (scope.declareAll first procedures) (procedures.map Procedure.name ++ visible) := by
  intro name
  rw [Scope.isSome_declareAll, List.mem_append, sees name]

theorem Sees.of_get? {scope other : Scope} {visible : List Identifier} (sees : Sees scope visible)
    (same : ∀ name, other.procedures.get? name = scope.procedures.get? name) :
    Sees other visible := by
  intro name
  rw [same]
  exact sees name

theorem Sees.restrict {scope : Scope} {visible : List Identifier} (sees : Sees scope visible)
    (setting : Setting) : Sees (scope.restrict setting) visible := sees.of_get? fun _ => rfl

theorem Sees.bindAll {scope : Scope} {visible : List Identifier} (sees : Sees scope visible)
    (names : List Name) : Sees (scope.bindAll names) visible :=
  sees.of_get? fun name => by rw [Scope.bindAll_procedures]

theorem Sees.body {scope : Scope} {visible : List Identifier} (sees : Sees scope visible) :
    Sees scope.body visible := sees.of_get? fun _ => rfl

/-- The routine is what the procedure of the scene is compiled to, in some scope that sees what is
visible there. -/
def Fits (context : Context) (routine : Routine) (scene : Scene) : Prop :=
  ∃ scope before after, Sees scope scene.visible ∧
    Makes (lowerProcedure context scope scene.procedure) before routine after

/-- From `before` to `after` the library gets the routines of the scenes: those of the numbers that
are owed, and those of the numbers that are given on the way. -/
structure Progress.Gains (context : Context) (before after : Progress) (owed : List Nat)
    (scenes : List Scene) : Prop where
  callees : before.callees ≤ after.callees
  added : ∃ added : List (Callee × Routine), after.library = before.library.insertAll added ∧
    (added.map Prod.fst).Perm
      (owed ++ List.range' before.callees (after.callees - before.callees)) ∧
    ∃ routines, (added.map Prod.snd).Perm routines ∧ List.Forall₂ (Fits context) routines scenes

namespace Progress.Gains

variable {before middle after : Progress} {owed : List Nat} {scenes : List Scene}

theorem refl (progress : Progress) : progress.Gains context progress [] [] where
  callees := Nat.le_refl _
  added := ⟨[], rfl, by simp, [], .refl _, .nil⟩

theorem trans {others : List Nat} {more : List Scene}
    (first : before.Gains context middle owed scenes)
    (second : middle.Gains context after others more) :
    before.Gains context after (owed ++ others) (scenes ++ more) where
  callees := Nat.le_trans first.callees second.callees
  added := by
    obtain ⟨added, same, keys, routines, perm, fit⟩ := first.added
    obtain ⟨rest, later, numbers, others, also, suit⟩ := second.added
    have whole : List.range' before.callees (after.callees - before.callees) =
        List.range' before.callees (middle.callees - before.callees) ++
          List.range' middle.callees (after.callees - middle.callees) := by
      have := first.callees
      have := second.callees
      have length : after.callees - before.callees =
          (middle.callees - before.callees) + (after.callees - middle.callees) := by omega
      have start : before.callees + (middle.callees - before.callees) = middle.callees := by omega
      rw [length, ← List.range'_append_1, start]
    refine ⟨added ++ rest, ?_, ?_, routines ++ others, ?_, List.rel_append fit suit⟩
    · rw [Library.insertAll_append, ← same, later]
    · rw [List.map_append, whole]
      refine (keys.append numbers).trans (List.perm_iff_count.mpr fun callee => ?_)
      simp only [List.count_append]
      omega
    · rw [List.map_append]
      exact perm.append also

/-- Declaring procedures gives numbers to them, for which their routines are owed. -/
theorem declare {count : Nat}
    (gains : Gains context { before with callees := before.callees + count } after
      (List.range' before.callees count) scenes) : before.Gains context after [] scenes where
  callees := Nat.le_trans (Nat.le_add_right _ _) gains.callees
  added := by
    obtain ⟨added, same, keys, rest⟩ := gains.added
    have := gains.callees
    have length : after.callees - before.callees =
        count + (after.callees - (before.callees + count)) := by
      simp only at this
      omega
    refine ⟨added, same, ?_, rest⟩
    rwa [List.nil_append, length, ← List.range'_append_1]

/-- Names are made, and no procedure is compiled. -/
theorem bind (progress : Progress) (count : Nat) :
    progress.Gains context { progress with names := progress.names + count } [] [] where
  callees := Nat.le_refl _
  added := ⟨[], rfl, by simp, [], .refl _, .nil⟩

/-- A compiled procedure comes into the library after those that are declared in it. -/
theorem keep {callee : Nat} {routine : Routine} {scene : Scene}
    (gains : before.Gains context after [] scenes) (fits : Fits context routine scene) :
    before.Gains context { after with library := after.library.insert callee routine } [callee]
      (scene :: scenes) where
  callees := gains.callees
  added := by
    obtain ⟨added, same, keys, routines, perm, fit⟩ := gains.added
    refine ⟨added ++ [(callee, routine)], ?_, ?_, routine :: routines, ?_, .cons fits fit⟩
    · rw [Library.insertAll_append, ← same]
      rfl
    · rw [List.map_append]
      exact List.perm_append_comm.trans (keys.cons _)
    · rw [List.map_append]
      exact List.perm_append_comm.trans (perm.cons _)

end Progress.Gains

theorem inScope_gains {scope : Scope} {visible : List Identifier} {block : Block}
    {sequence : Sequence} {before after : Progress} {inside declared : List Scene}
    (made : Makes (inScope scope block (fun scope => lowerStatements context scope block)
      (fun scope first => lowerBodies context scope first block)) before sequence after)
    (sees : Sees scope visible)
    (stated : ∀ {outer inner : Scope} {before after : Progress},
      Sees outer (declaredNames block ++ visible) →
      Makes (lowerStatements context outer block) before (sequence, inner) after →
        before.Gains context after [] inside)
    (compiled : ∀ {inner : Scope} {callee : Nat} {before after : Progress},
      Sees inner (declaredNames block ++ visible) →
      Makes (lowerBodies context inner callee block) before () after →
        before.Gains context after (List.range' callee (declarations block).length) declared) :
    before.Gains context after [] (inside ++ declared) := by
  obtain ⟨_, inner, middle, first, rest⟩ := makes_inScope.mp made
  have within := sees.declareAll before.callees (declarations block)
  exact .declare ((stated within first).trans
    (compiled (within.of_get? fun name => by rw [lowerStatements_procedures first]) rest))

/-- The first of several procedures is compiled, then the others. -/
theorem keep_gains {routine : Routine} {callee count : Nat} {before middle after : Progress}
    {scene : Scene} {inside others : List Scene} (first : before.Gains context middle [] inside)
    (fits : Fits context routine scene)
    (rest : Progress.Gains context
      { middle with library := middle.library.insert callee routine } after
      (List.range' (callee + 1) count) others) :
    before.Gains context after (List.range' callee (count + 1)) (scene :: inside ++ others) := by
  rw [List.range'_succ]
  exact (first.keep fits).trans rest

mutual

theorem lowerExpression_gains {scope : Scope} {visible : List Identifier}
    {before after : Progress} {sequence : Sequence} (sees : Sees scope visible) :
    ∀ expression : Expression,
      Makes (lowerExpression context scope expression) before sequence after →
        before.Gains context after [] (expression.scenes visible)
  | .application offset name argument, made => by
      obtain ⟨entries, part, _⟩ := makes_application.mp made
      exact lowerExpression_gains sees argument part
  | .unit offset, made => by
      obtain ⟨rfl, rfl⟩ := makes_pure.mp made
      exact .refl _
  | .text offset text, made => by
      obtain ⟨rfl, rfl⟩ := makes_pure.mp made
      exact .refl _
  | .amount offset quantity, made => by
      obtain ⟨rfl, rfl⟩ := makes_pure.mp made
      exact .refl _
  | .hole offset, made => absurd made makes_refuse
  | .tablet offset fields, made => by
      obtain ⟨steps, part, rfl⟩ := makes_tablet.mp made
      exact lowerFields_gains sees fields part
  | .reference offset identifiers, made => by
      obtain ⟨names, _, rfl, rfl⟩ := makes_reference.mp made
      exact .refl _
  | .operation offset operator left right, made => by
      obtain ⟨first, middle, second, part, rest, rfl⟩ := makes_operation.mp made
      exact (lowerExpression_gains sees left part).trans (lowerExpression_gains sees right rest)
  | .grouping offset inner, made => lowerExpression_gains sees inner made
  | .restriction offset setting block, made => by
      rw [lowerExpression] at made
      exact inScope_gains made (sees.restrict setting)
        (fun sees => lowerStatements_gains sees block) (fun sees => lowerBodies_gains sees block)

theorem lowerFields_gains {scope : Scope} {visible : List Identifier} {before after : Progress}
    {steps : List (Label × Step)} (sees : Sees scope visible) :
    ∀ fields : List (Label × Expression),
      Makes (lowerFields context scope fields) before steps after →
        before.Gains context after [] (fieldsScenes visible fields)
  | [], made => by
      obtain ⟨rfl, rfl⟩ := makes_pure.mp made
      exact .refl _
  | (label, value) :: fields, made => by
      obtain ⟨entries, middle, others, part, rest, rfl⟩ := makes_field.mp made
      exact (lowerExpression_gains sees value part).trans (lowerFields_gains sees fields rest)

theorem lowerStatements_gains {scope inner : Scope} {visible : List Identifier}
    {before after : Progress} {sequence : Sequence} (sees : Sees scope visible) :
    ∀ block : List Statement,
      Makes (lowerStatements context scope block) before (sequence, inner) after →
        before.Gains context after [] (valuesScenes visible block)
  | [], made => by
      simp only [lowerStatements, makes_pure, Prod.mk.injEq] at made
      obtain ⟨⟨rfl, rfl⟩, rfl⟩ := made
      exact .refl _
  | .assignment offset targets value :: block, made => by
      obtain ⟨_, entries, middle, names, others, part, _, rest, rfl⟩ := makes_assignment.mp made
      have within := sees.bindAll names
      have binds : Progress.Gains context middle _ _ _ := .bind middle targets.length
      exact (lowerExpression_gains sees value part).trans
        (binds.trans (lowerStatements_gains within block rest))
  | .execute offset value :: block, made => by
      obtain ⟨entries, middle, others, part, rest, rfl⟩ := makes_execute.mp made
      exact (lowerExpression_gains sees value part).trans (lowerStatements_gains sees block rest)
  | .declaration _ _ :: block, made => lowerStatements_gains sees block made
  | .comment _ _ :: block, made => lowerStatements_gains sees block made
  | .blank _ :: block, made => lowerStatements_gains sees block made
  | .series _ :: block, made => lowerStatements_gains sees block made

theorem lowerBodies_gains {scope : Scope} {visible : List Identifier} {callee : Nat}
    {before after : Progress} (sees : Sees scope visible) :
    ∀ block : List Statement, Makes (lowerBodies context scope callee block) before () after →
      before.Gains context after (List.range' callee (declarations block).length)
        (bodiesScenes visible block)
  | [], made => by
      obtain ⟨_, rfl⟩ := makes_pure.mp made
      exact .refl _
  | .assignment _ _ _ :: block, made => lowerBodies_gains sees block made
  | .execute _ _ :: block, made => lowerBodies_gains sees block made
  | .declaration offset procedure :: block, made => by
      obtain ⟨routine, middle, part, rest⟩ := makes_declaration.mp made
      exact keep_gains (lowerProcedure_gains sees procedure part) ⟨_, _, _, sees, part⟩
        (lowerBodies_gains sees block rest)
  | .comment _ _ :: block, made => lowerBodies_gains sees block made
  | .blank _ :: block, made => lowerBodies_gains sees block made
  | .series _ :: block, made => lowerBodies_gains sees block made

theorem lowerProcedure_gains {scope : Scope} {visible : List Identifier}
    {before after : Progress} {routine : Routine} (sees : Sees scope visible) :
    ∀ procedure : Procedure,
      Makes (lowerProcedure context scope procedure) before routine after →
        before.Gains context after [] (procedure.scenes visible)
  | ⟨offset, name, parameters, signature, block⟩, made => by
      obtain ⟨_, names, sequence, rfl, part, rfl⟩ := makes_procedure.mp made
      have within := sees.body.bindAll (Name.number before.names parameters)
      exact (Progress.Gains.bind before parameters.length).trans
        (inScope_gains part within (fun sees => lowerStatements_gains sees block)
          (fun sees => lowerBodies_gains sees block))

end

theorem lowerProcedures_gains {scope : Scope} {visible : List Identifier}
    {procedures : List Procedure} {callee : Nat} {before after : Progress}
    (sees : Sees scope visible)
    (made : Makes (lowerProcedures context scope callee procedures) before () after) :
    before.Gains context after (List.range' callee procedures.length)
      (procedures.flatMap fun procedure => ⟨procedure, visible⟩ :: procedure.scenes visible) := by
  induction procedures generalizing callee before with
  | nil =>
      obtain ⟨_, rfl⟩ := makes_pure.mp made
      exact .refl _
  | cons procedure procedures ih =>
      obtain ⟨routine, middle, part, rest⟩ := makes_lowerProcedures.mp made
      exact keep_gains (lowerProcedure_gains sees procedure part) ⟨_, _, _, sees, part⟩ (ih rest)

/-- The members of the library are what the scenes of the document are compiled to, numbered without
a gap. -/
theorem document_members {document : Document} {routine : Routine}
    (made : Lowering.document context document = .ok routine) :
    routine.library.map Prod.fst = List.range document.scenes.length ∧
    ∃ routines, (routine.library.map Prod.snd).Perm routines ∧
      List.Forall₂ (Fits context) routines document.scenes := by
  obtain ⟨_, after, main, part, _, rfl⟩ := makes_document.mp made
  have none : Sees .root [] := fun name => by simp [Scope.root]
  have sees := none.declareAll 0 document.procedures
  rw [List.append_nil] at sees
  have gains : Progress.start.Gains context after [] document.scenes :=
    .declare (by simpa [Progress.start, Document.scenes] using lowerProcedures_gains sees part)
  obtain ⟨added, same, keys, routines, perm, fits⟩ := gains.added
  have numbered : (added.map Prod.fst).Perm (List.range after.callees) := by
    simpa [Progress.start, List.range_eq_range'] using keys
  have whole : after.library.Perm added := by
    rw [same]
    exact Library.insertAll_perm (numbered.nodup_iff.mpr List.nodup_range)
  have ordered : after.library.Ordered := by
    have none : Library.Ordered Progress.start.library := List.Pairwise.nil
    rw [same]
    exact none.insertAll added
  have count : after.callees = document.scenes.length := by
    have length := numbered.length_eq
    rw [List.length_map, List.length_range] at length
    rw [← length, ← fits.length_eq, ← perm.length_eq, List.length_map]
  refine ⟨?_, routines, (whole.map _).trans perm, fits⟩
  rw [← count]
  refine List.Perm.eq_of_pairwise (fun _ _ _ _ first second => ?_) ordered
    List.pairwise_lt_range ((whole.map _).trans numbered)
  exact absurd first (Nat.lt_asymm second)

end Lowering

/-- The library has the routines of the document's procedures at any depth, numbered without a gap,
each as its procedure says, and the names that they bind are numbered without a gap. -/
structure Document.Fills (document : Document) (library : Library) : Prop where
  numbers : library.map Prod.fst = List.range document.everyProcedure.length
  sources : (library.map fun entry => entry.2.procedure).Perm document.everyProcedure
  faithful : ∀ entry ∈ library, entry.2.Faithful
  indices : ((Library.binders library).map Name.index).Perm
    (List.range (Library.binders library).length)

namespace Lowering

variable {context : Context}

/-- What scenes are compiled to is as their procedures say. -/
theorem fits_faithful {routines : List Routine} {scenes : List Scene}
    (fits : List.Forall₂ (Fits context) routines scenes) :
    routines.map Routine.procedure = scenes.map Scene.procedure ∧
      ∀ routine ∈ routines, routine.Faithful := by
  induction fits with
  | nil => exact ⟨rfl, List.forall_mem_nil _⟩
  | cons fits _ ih =>
      obtain ⟨_, _, _, _, part⟩ := fits
      obtain ⟨same, faithful⟩ := lowerProcedure_faithful part
      exact ⟨by rw [List.map_cons, List.map_cons, ih.1, same],
        List.forall_mem_cons.mpr ⟨faithful, ih.2⟩⟩

theorem document_fills {document : Document} {routine : Routine}
    (made : Lowering.document context document = .ok routine) :
    document.Fills routine.library := by
  obtain ⟨numbers, routines, perm, fits⟩ := document_members made
  obtain ⟨sources, faithful⟩ := fits_faithful fits
  obtain ⟨last, whole, advances⟩ := document_advances made
  have indices := advances.numbered fun _ _ => rfl
  rw [whole] at indices
  refine ⟨?_, ?_, fun entry member => faithful _ ?_, ?_⟩
  · rw [numbers, ← document.scenes_procedures, List.length_map]
  · have procedures := perm.map Routine.procedure
    rwa [List.map_map, sources, document.scenes_procedures] at procedures
  · exact perm.mem_iff.mp (List.mem_map_of_mem member)
  · have whole : ((Library.binders routine.library).map Name.index).Perm
        (List.range last.names) := by
      simpa [Progress.start, Library.binders, List.range_eq_range'] using indices
    have length := whole.length_eq
    rw [List.length_map, List.length_range] at length
    rwa [length]

end Lowering

end Runbook
