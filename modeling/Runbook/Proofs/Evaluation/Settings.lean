import Runbook.Proofs.Evaluation.Registering
import Runbook.Proofs.Lowering.Supported

/-!
In whose settings primitives are performed.

A primitive is performed with the entry that its step is part of, in that entry's setting. A
restriction gives its setting to the entries that it consists of. Where it stands as a statement
they stay entries; in an argument, an operand, a field or on the right of an assignment they become
one step, which is part of another entry, and their setting is lost.
-/
namespace Runbook

/-- A primitive in the text of a procedure. -/
structure Act where
  primitive : Identifier
  /-- The setting of the innermost restriction around it that has one of its own. -/
  own : Setting
  /-- The setting of the entry that it is part of. -/
  entry : Setting

/-- The act as part of another entry. -/
def Act.under (setting : Setting) (act : Act) : Act := { act with entry := setting }

/-- What is performed, and in which setting. -/
def Act.performed (act : Act) : Identifier × Setting := (act.primitive, act.entry)

/-- The setting inside of a restriction. -/
def Setting.within : Setting → Setting → Setting
  | .inherit, outer => outer
  | inner, _ => inner

mutual

/-- The acts of an expression as entries, in a setting where procedures of the names are visible. -/
def Expression.acts (visible : List Identifier) (setting : Setting) : Expression → List Act
  | .application _ name argument =>
    (if name ∈ visible then [] else [⟨name, setting, setting⟩]) ++
      (argument.acts visible setting).map (Act.under setting)
  | .unit _ | .text _ _ | .amount _ _ | .hole _ | .reference _ _ => []
  | .tablet _ fields => (fieldsActs visible setting fields).map (Act.under setting)
  | .operation _ operator left right =>
    ⟨operator.primitive, setting, setting⟩ ::
      (left.acts visible setting ++ right.acts visible setting).map (Act.under setting)
  | .grouping _ inner => inner.acts visible setting
  | .restriction _ inner block =>
    blockActs (declaredNames block ++ visible) (inner.within setting) block

def fieldsActs (visible : List Identifier) (setting : Setting) :
    List (Label × Expression) → List Act
  | [] => []
  | (_, value) :: fields => value.acts visible setting ++ fieldsActs visible setting fields

def blockActs (visible : List Identifier) (setting : Setting) : List Statement → List Act
  | [] => []
  | .assignment _ _ value :: block =>
    (value.acts visible setting).map (Act.under setting) ++ blockActs visible setting block
  | .execute _ value :: block => value.acts visible setting ++ blockActs visible setting block
  | _ :: block => blockActs visible setting block

end

/-- The acts of a procedure. -/
def Scene.acts (scene : Scene) : List Act :=
  blockActs (declaredNames scene.procedure.block ++ scene.visible) .inherit scene.procedure.block

/-! Restrictions that stand as statements keep their settings. -/

mutual

/-- No restriction in the expression has a setting of its own. -/
def Expression.Plain : Expression → Prop
  | .application _ _ argument => argument.Plain
  | .unit _ | .text _ _ | .amount _ _ | .hole _ | .reference _ _ => True
  | .tablet _ fields => fieldsPlain fields
  | .operation _ _ left right => left.Plain ∧ right.Plain
  | .grouping _ inner => inner.Plain
  | .restriction _ setting block => setting = .inherit ∧ blockPlain block

def fieldsPlain : List (Label × Expression) → Prop
  | [] => True
  | (_, value) :: fields => value.Plain ∧ fieldsPlain fields

def blockPlain : List Statement → Prop
  | [] => True
  | .assignment _ _ value :: block | .execute _ value :: block => value.Plain ∧ blockPlain block
  | _ :: block => blockPlain block

end

mutual

/-- A restriction in the expression that has a setting of its own stands as a statement. -/
def Expression.Level : Expression → Prop
  | .application _ _ argument => argument.Plain
  | .unit _ | .text _ _ | .amount _ _ | .hole _ | .reference _ _ => True
  | .tablet _ fields => fieldsPlain fields
  | .operation _ _ left right => left.Plain ∧ right.Plain
  | .grouping _ inner => inner.Level
  | .restriction _ _ block => blockLevel block

def blockLevel : List Statement → Prop
  | [] => True
  | .assignment _ _ value :: block => value.Plain ∧ blockLevel block
  | .execute _ value :: block => value.Level ∧ blockLevel block
  | _ :: block => blockLevel block

end

/-- The act is part of an entry of its own setting, which is this one. -/
def Act.In (setting : Setting) (act : Act) : Prop := act.own = setting ∧ act.entry = setting

theorem Act.In.under {setting : Setting} {act : Act} (inside : act.In setting) :
    (act.under setting).In setting := ⟨inside.1, rfl⟩

section
variable {visible : List Identifier} {setting : Setting}

theorem Act.forall_under {acts : List Act} (inside : ∀ act ∈ acts, act.In setting) :
    ∀ act ∈ acts.map (Act.under setting), act.In setting := by
  intro act member
  obtain ⟨other, among, rfl⟩ := List.mem_map.mp member
  exact (inside other among).under

theorem Act.forall_applied {name : Identifier} {acts : List Act}
    (inside : ∀ act ∈ acts, act.In setting) :
    ∀ act ∈ (if name ∈ visible then [] else [⟨name, setting, setting⟩]) ++
      acts.map (Act.under setting), act.In setting := by
  refine List.forall_mem_append.mpr ⟨?_, Act.forall_under inside⟩
  split
  · exact List.forall_mem_nil _
  · exact List.forall_mem_singleton.mpr ⟨rfl, rfl⟩

mutual

theorem Expression.acts_plain (visible : List Identifier) (setting : Setting) :
    ∀ expression : Expression, expression.Plain →
      ∀ act ∈ expression.acts visible setting, act.In setting
  | .application _ _ argument, plain =>
      Act.forall_applied (argument.acts_plain visible setting plain)
  | .unit _, _ | .text _ _, _ | .amount _ _, _ | .hole _, _ | .reference _ _, _ =>
      List.forall_mem_nil _
  | .tablet _ fields, plain => Act.forall_under (fieldsActs_plain visible setting fields plain)
  | .operation _ _ left right, plain =>
      List.forall_mem_cons.mpr ⟨⟨rfl, rfl⟩, Act.forall_under (List.forall_mem_append.mpr
        ⟨left.acts_plain visible setting plain.1, right.acts_plain visible setting plain.2⟩)⟩
  | .grouping _ inner, plain => inner.acts_plain visible setting plain
  | .restriction _ _ block, plain => by
      obtain ⟨rfl, rest⟩ := plain
      exact blockActs_plain _ setting block rest

theorem fieldsActs_plain (visible : List Identifier) (setting : Setting) :
    ∀ fields : List (Label × Expression), fieldsPlain fields →
      ∀ act ∈ fieldsActs visible setting fields, act.In setting
  | [], _ => List.forall_mem_nil _
  | (_, value) :: fields, plain =>
      List.forall_mem_append.mpr ⟨value.acts_plain visible setting plain.1,
        fieldsActs_plain visible setting fields plain.2⟩

theorem blockActs_plain (visible : List Identifier) (setting : Setting) :
    ∀ block : List Statement, blockPlain block →
      ∀ act ∈ blockActs visible setting block, act.In setting
  | [], _ => List.forall_mem_nil _
  | .assignment _ _ value :: block, plain =>
      List.forall_mem_append.mpr ⟨Act.forall_under (value.acts_plain visible setting plain.1),
        blockActs_plain visible setting block plain.2⟩
  | .execute _ value :: block, plain =>
      List.forall_mem_append.mpr ⟨value.acts_plain visible setting plain.1,
        blockActs_plain visible setting block plain.2⟩
  | .declaration _ _ :: block, plain | .comment _ _ :: block, plain | .blank _ :: block, plain
  | .series _ :: block, plain => blockActs_plain visible setting block plain

end

theorem Act.In.same {act : Act} (inside : act.In setting) : act.entry = act.own :=
  inside.2.trans inside.1.symm

mutual

theorem Expression.acts_level (visible : List Identifier) (setting : Setting) :
    ∀ expression : Expression, expression.Level →
      ∀ act ∈ expression.acts visible setting, act.entry = act.own
  | .application o name argument, level => fun act member =>
      Act.In.same (Expression.acts_plain visible setting (.application o name argument) level act
        member)
  | .unit _, _ | .text _ _, _ | .amount _ _, _ | .hole _, _ | .reference _ _, _ =>
      List.forall_mem_nil _
  | .tablet o fields, level => fun act member =>
      Act.In.same (Expression.acts_plain visible setting (.tablet o fields) level act member)
  | .operation o operator left right, level => fun act member =>
      Act.In.same (Expression.acts_plain visible setting (.operation o operator left right) level
        act member)
  | .grouping _ inner, level => inner.acts_level visible setting level
  | .restriction _ _ block, level => blockActs_level _ _ block level

theorem blockActs_level (visible : List Identifier) (setting : Setting) :
    ∀ block : List Statement, blockLevel block →
      ∀ act ∈ blockActs visible setting block, act.entry = act.own
  | [], _ => List.forall_mem_nil _
  | .assignment _ _ value :: block, level => by
      have value := Act.forall_under (value.acts_plain visible setting level.1)
      exact List.forall_mem_append.mpr ⟨fun act member => (value act member).same,
        blockActs_level visible setting block level.2⟩
  | .execute _ value :: block, level =>
      List.forall_mem_append.mpr ⟨value.acts_level visible setting level.1,
        blockActs_level visible setting block level.2⟩
  | .declaration _ _ :: block, level | .comment _ _ :: block, level | .blank _ :: block, level
  | .series _ :: block, level => blockActs_level visible setting block level

end

end

/-! What is compiled performs the acts of its text. -/

/-- The primitive, if one is needed. -/
def Need.primitive? : Need → Option Identifier
  | .primitive name => some name
  | .routine _ => none

/-- The primitives that steps perform, with all that is nested in them. -/
def stepsPrimitives (steps : List Step) : List Identifier :=
  (stepsNeeds steps).filterMap Need.primitive?

/-- The primitives that the entries perform, each with the setting of its entry. -/
def Sequence.acts (sequence : Sequence) : List (Identifier × Setting) :=
  sequence.flatMap fun entry => (stepsPrimitives [entry.step]).map (·, entry.setting)

theorem stepsPrimitives_cons (step : Step) (steps : List Step) :
    stepsPrimitives (step :: steps) = stepsPrimitives [step] ++ stepsPrimitives steps := by
  rw [stepsPrimitives, stepsNeeds_cons, List.filterMap_append]
  rfl

@[simp] theorem stepsPrimitives_call (callee : Callee) (argument : Step) :
    stepsPrimitives [.call callee argument] = stepsPrimitives [argument] := by
  rw [stepsPrimitives, stepsNeeds_call, List.filterMap_cons_none rfl, stepsPrimitives]

@[simp] theorem stepsPrimitives_invoke (name : Identifier) (argument : Step) :
    stepsPrimitives [.invoke name argument] = name :: stepsPrimitives [argument] := by
  have kept : (Need.primitive name).primitive? = some name := rfl
  rw [stepsPrimitives, stepsNeeds_invoke, List.filterMap_cons_some kept, stepsPrimitives]

@[simp] theorem stepsPrimitives_tuple (steps : List Step) :
    stepsPrimitives [.tuple steps] = stepsPrimitives steps := by
  rw [stepsPrimitives, stepsNeeds_tuple, stepsPrimitives]

@[simp] theorem stepsPrimitives_tablet (fields : List (Label × Step)) :
    stepsPrimitives [.literal (.tablet fields)] = stepsPrimitives (fields.map Prod.snd) := by
  rw [stepsPrimitives, stepsNeeds_tablet, stepsPrimitives]

@[simp] theorem stepsPrimitives_reads (names : List Name) :
    stepsPrimitives (names.map Step.read) = [] := by
  induction names with
  | nil => rfl
  | cons name names ih =>
      rw [List.map_cons, stepsPrimitives_cons, ih]
      rfl

namespace Sequence

theorem acts_append (first rest : Sequence) : acts (first ++ rest) = first.acts ++ rest.acts :=
  List.flatMap_append

@[simp] theorem acts_single (setting : Setting) (step : Step) :
    acts [⟨setting, step⟩] = (stepsPrimitives [step]).map (·, setting) := List.flatMap_singleton _ _

theorem acts_primitives (sequence : Sequence) :
    sequence.acts.map Prod.fst = stepsPrimitives (sequence.map Entry.step) := by
  induction sequence with
  | nil => rfl
  | cons entry sequence ih =>
      have first : (acts [entry]).map Prod.fst = stepsPrimitives [entry.step] := by
        rw [acts_single, List.map_map]
        exact List.map_id _
      rw [List.map_cons, stepsPrimitives_cons, ← ih, ← first, ← List.map_append, ← acts_append]
      rfl

/-- In one step the entries lose their settings. -/
theorem primitives_toStep (sequence : Sequence) :
    stepsPrimitives [sequence.toStep] = sequence.acts.map Prod.fst := by
  rw [acts_primitives]
  match sequence with
  | [] => rfl
  | [entry] => rfl
  | first :: second :: rest => exact stepsPrimitives_tuple _

end Sequence

namespace Lowering

variable {context : Context}

/-- The acts of entries that become a step of another entry. -/
theorem collapsed_acts {entries : Sequence} {acts : List Act} (setting : Setting)
    (same : entries.acts = acts.map Act.performed) :
    (stepsPrimitives [entries.toStep]).map (·, setting) =
      (acts.map (Act.under setting)).map Act.performed := by
  rw [Sequence.primitives_toStep, same, List.map_map, List.map_map, List.map_map]
  rfl

mutual

theorem lowerExpression_acts {scope : Scope} {visible : List Identifier}
    {before after : Progress} {sequence : Sequence} (sees : Sees scope visible) :
    ∀ expression : Expression,
      Makes (lowerExpression context scope expression) before sequence after →
        sequence.acts = (expression.acts visible scope.setting).map Act.performed
  | .application offset name argument, made => by
      obtain ⟨entries, part, meant⟩ := makes_application.mp made
      have inner := collapsed_acts scope.setting (lowerExpression_acts sees argument part)
      rw [Expression.acts, List.map_append, ← inner]
      rcases meant with ⟨callee, found, rfl⟩ | ⟨missing, _, rfl⟩
      · rw [if_pos ((sees name).mpr (Option.isSome_of_eq_some found)), Sequence.acts_single,
          stepsPrimitives_call]
        rfl
      · have unseen : name ∉ visible := fun seen => by
          have found := (sees name).mp seen
          rw [missing] at found
          cases found
        rw [if_neg unseen, Sequence.acts_single, stepsPrimitives_invoke]
        rfl
  | .unit offset, made => by
      obtain ⟨rfl, rfl⟩ := makes_pure.mp made
      rfl
  | .text offset text, made => by
      obtain ⟨rfl, rfl⟩ := makes_pure.mp made
      rfl
  | .amount offset quantity, made => by
      obtain ⟨rfl, rfl⟩ := makes_pure.mp made
      rfl
  | .hole offset, made => absurd made makes_refuse
  | .tablet offset fields, made => by
      obtain ⟨steps, part, rfl⟩ := makes_tablet.mp made
      rw [Expression.acts, List.map_map, Sequence.acts_single, stepsPrimitives_tablet,
        lowerFields_acts sees fields part, List.map_map]
      rfl
  | .reference offset identifiers, made => by
      obtain ⟨names, _, rfl, rfl⟩ := makes_reference.mp made
      rw [Sequence.acts_single, stepsPrimitives_tuple, stepsPrimitives_reads]
      rfl
  | .operation offset operator left right, made => by
      obtain ⟨first, middle, second, part, rest, rfl⟩ := makes_operation.mp made
      have one := collapsed_acts scope.setting (lowerExpression_acts sees left part)
      have other := collapsed_acts scope.setting (lowerExpression_acts sees right rest)
      rw [Expression.acts, List.map_cons, List.map_append, List.map_append, ← one, ← other,
        Sequence.acts_single, stepsPrimitives_invoke, stepsPrimitives_tuple,
        stepsPrimitives_cons, List.map_cons, List.map_append]
      rfl
  | .grouping offset inner, made => lowerExpression_acts sees inner made
  | .restriction offset setting block, made => by
      rw [lowerExpression] at made
      obtain ⟨_, inner, middle, first, _⟩ := makes_inScope.mp made
      have within := (sees.restrict setting).declareAll before.callees (declarations block)
      have acts := lowerStatements_acts within block first
      rw [Scope.declareAll_setting] at acts
      cases setting with
      | _ => exact acts

theorem lowerFields_acts {scope : Scope} {visible : List Identifier} {before after : Progress}
    {steps : List (Label × Step)} (sees : Sees scope visible) :
    ∀ fields : List (Label × Expression),
      Makes (lowerFields context scope fields) before steps after →
        stepsPrimitives (steps.map Prod.snd) =
          (fieldsActs visible scope.setting fields).map Act.primitive
  | [], made => by
      obtain ⟨rfl, rfl⟩ := makes_pure.mp made
      rfl
  | (label, value) :: fields, made => by
      obtain ⟨entries, middle, others, part, rest, rfl⟩ := makes_field.mp made
      have inner := lowerExpression_acts sees value part
      rw [fieldsActs, List.map_append, ← lowerFields_acts sees fields rest, List.map_cons,
        stepsPrimitives_cons, Sequence.primitives_toStep, inner, List.map_map]
      rfl

theorem lowerStatements_acts {scope inner : Scope} {visible : List Identifier}
    {before after : Progress} {sequence : Sequence} (sees : Sees scope visible) :
    ∀ block : List Statement,
      Makes (lowerStatements context scope block) before (sequence, inner) after →
        sequence.acts = (blockActs visible scope.setting block).map Act.performed
  | [], made => by
      simp only [lowerStatements, makes_pure, Prod.mk.injEq] at made
      obtain ⟨⟨rfl, rfl⟩, rfl⟩ := made
      rfl
  | .assignment offset targets value :: block, made => by
      obtain ⟨_, entries, middle, names, others, part, _, rest, rfl⟩ := makes_assignment.mp made
      have first := collapsed_acts scope.setting (lowerExpression_acts sees value part)
      have later := lowerStatements_acts (sees.bindAll names) block rest
      rw [Scope.bindAll_setting] at later
      rw [blockActs, List.map_append, ← first, ← later]
      rfl
  | .execute offset value :: block, made => by
      obtain ⟨entries, middle, others, part, rest, rfl⟩ := makes_execute.mp made
      rw [blockActs, List.map_append, ← lowerExpression_acts sees value part,
        ← lowerStatements_acts sees block rest, Sequence.acts_append]
  | .declaration _ _ :: block, made => lowerStatements_acts sees block made
  | .comment _ _ :: block, made => lowerStatements_acts sees block made
  | .blank _ :: block, made => lowerStatements_acts sees block made
  | .series _ :: block, made => lowerStatements_acts sees block made

end

theorem lowerProcedure_acts {scope : Scope} {before after : Progress} {routine : Routine}
    {scene : Scene} (sees : Sees scope scene.visible)
    (made : Makes (lowerProcedure context scope scene.procedure) before routine after) :
    Sequence.acts routine.sequence = scene.acts.map Act.performed := by
  obtain ⟨⟨offset, name, parameters, signature, block⟩, visible⟩ := scene
  obtain ⟨_, names, sequence, rfl, part, rfl⟩ := makes_procedure.mp made
  obtain ⟨_, inner, middle, first, _⟩ := makes_inScope.mp part
  have within := (sees.body.bindAll (Name.number before.names parameters)).declareAll
    before.callees (declarations block)
  have acts := lowerStatements_acts within block first
  rw [Scope.declareAll_setting, Scope.bindAll_setting] at acts
  exact acts

theorem fits_acts {routines : List Routine} {scenes : List Scene}
    (fits : List.Forall₂ (Fits context) routines scenes) :
    (routines.map fun routine => (routine.procedure, Sequence.acts routine.sequence)) =
      scenes.map fun scene => (scene.procedure, scene.acts.map Act.performed) := by
  induction fits with
  | nil => rfl
  | cons fits _ ih =>
      obtain ⟨_, _, _, sees, part⟩ := fits
      rw [List.map_cons, List.map_cons, ih, lowerProcedure_acts sees part,
        (lowerProcedure_faithful part).1]

end Lowering

/-- What is reported as an entry is begun is in the setting of the entry. -/
theorem Machine.begin_setting (machine : Machine) (next : TaskId) (frame : Frame) (index : Nat)
    (entry : Entry) (entries : List Entry) :
    ∀ event ∈ (machine.begin next frame index entry entries).events,
      event.setting? = some entry.setting := by
  cases run : (setUpEntry machine.registry index entries.isEmpty entry).run.run
      ⟨frame, next, [], []⟩ with
  | mk result state =>
      obtain ⟨_, told, happened, tells⟩ :=
        (SetUp.setUpEntry_registers index entries.isEmpty entry _ _ _ run).1
      have events : (machine.begin next frame index entry entries).events = state.events := by
        rw [begin, run]
        cases result <;> rfl
      rw [events, happened]
      exact tells

/-- Each routine performs the acts of its procedure, and no others, in the order of the text, each
with an entry in the setting that `Scene.acts` says; that is the setting of the innermost
restriction around it that has one of its own, if such restrictions stand as statements only. What
is reported as an entry is begun is in its setting. -/
theorem Document.compile_settings {document : Document} {source : Source}
    {primitives : List Identifier} {routine : Routine}
    (compiled : document.compile source primitives = .ok routine) :
    (routine.library.map fun entry => (entry.2.procedure, Sequence.acts entry.2.sequence)).Perm
      (document.scenes.map fun scene => (scene.procedure, scene.acts.map Act.performed)) ∧
    (∀ scene ∈ document.scenes, blockLevel scene.procedure.block →
      ∀ act ∈ scene.acts, act.entry = act.own) ∧
    ∀ (machine : Machine) (next : TaskId) (frame : Frame) (index : Nat) (entry : Entry)
      (entries : List Entry), ∀ event ∈ (machine.begin next frame index entry entries).events,
        event.setting? = some entry.setting := by
  obtain ⟨_, routines, perm, fits⟩ := Lowering.document_members (compile_eq_ok.mp compiled)
  refine ⟨?_, fun scene _ level => blockActs_level _ _ _ level, Machine.begin_setting⟩
  rw [← Lowering.fits_acts fits]
  have members := perm.map fun routine => (routine.procedure, Sequence.acts routine.sequence)
  rwa [List.map_map] at members

/-- One restriction stands on the right of an assignment, and one as a statement. -/
def Document.assigning : Document where
  procedures := [⟨0, "main", [], none, [
    .assignment 0 ["x"] (.restriction 0 (.role "chef") [
      .execute 0 (.application 0 "task" (.text 0 "boil"))]),
    .execute 0 (.restriction 0 (.role "chef") [
      .execute 0 (.application 0 "task" (.text 0 "serve"))])]⟩]

/-- The first task is not in the setting of the restriction around it, but the second one is. -/
theorem Document.compile_settings_assigning : ∃ routine,
    assigning.compile ⟨"", ""⟩ ["task"] = .ok routine ∧
    Sequence.acts routine.sequence = [("task", .inherit), ("task", .role "chef")] ∧
    (routine.library.map fun entry => (entry.2.procedure, Sequence.acts entry.2.sequence)).Perm
      (assigning.scenes.map fun scene => (scene.procedure, scene.acts.map Act.performed)) ∧
    assigning.scenes.flatMap Scene.acts =
      [⟨"task", .role "chef", .inherit⟩, ⟨"task", .role "chef", .role "chef"⟩] :=
  ⟨_, rfl, rfl, (@compile_settings _ ⟨"", ""⟩ ["task"] _ rfl).1, rfl⟩

end Runbook
