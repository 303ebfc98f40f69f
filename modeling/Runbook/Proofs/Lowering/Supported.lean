import Runbook.Proofs.Lowering.Progress

/-!
What compiled steps need.

A step needs primitives, routines of the library, and names that are bound before it. What compiling
makes needs nothing else than the primitives that it was made against, the routines that it makes,
and the names that are bound by then when steps are set up: what is nested in a step before the
step, and a step before those that follow it.
-/
namespace Runbook

/-- What a step needs from outside of its routine. -/
inductive Need where
  | primitive (name : Identifier)
  | routine (callee : Callee)
  deriving DecidableEq, Repr

mutual

/-- What a step needs, with all that is nested in it. -/
def Step.needs : Step → List Need
  | .literal literal => literal.needs
  | .bind _ step => step.needs
  | .call callee argument => .routine callee :: argument.needs
  | .invoke name argument => .primitive name :: argument.needs
  | .tuple steps => stepsNeeds steps
  | .read _ => []

def Literal.needs : Literal → List Need
  | .unit | .text _ | .quantity _ => []
  | .tablet fields => fieldsNeeds fields

def stepsNeeds : List Step → List Need
  | [] => []
  | step :: steps => step.needs ++ stepsNeeds steps

def fieldsNeeds : List (Label × Step) → List Need
  | [] => []
  | (_, step) :: fields => step.needs ++ fieldsNeeds fields

end

mutual

/-- Each name that the step reads is known or bound in it before. -/
def Step.Bound (known : List Name) : Step → Prop
  | .literal literal => literal.Bound known
  | .bind _ step => step.Bound known
  | .call _ argument | .invoke _ argument => argument.Bound known
  | .tuple steps => stepsBound known steps
  | .read name => name ∈ known

def Literal.Bound (known : List Name) : Literal → Prop
  | .unit | .text _ | .quantity _ => True
  | .tablet fields => fieldsBound known fields

def stepsBound (known : List Name) : List Step → Prop
  | [] => True
  | step :: steps => step.Bound known ∧ stepsBound (known ++ step.binders) steps

def fieldsBound (known : List Name) : List (Label × Step) → Prop
  | [] => True
  | (_, step) :: fields => step.Bound known ∧ fieldsBound (known ++ step.binders) fields

end

theorem fieldsBinders_eq (fields : List (Label × Step)) :
    fieldsBinders fields = stepsBinders (fields.map Prod.snd) := by
  induction fields with
  | nil => rfl
  | cons field fields ih => simp only [fieldsBinders, List.map_cons, stepsBinders, ih]

theorem fieldsNeeds_eq (fields : List (Label × Step)) :
    fieldsNeeds fields = stepsNeeds (fields.map Prod.snd) := by
  induction fields with
  | nil => rfl
  | cons field fields ih => simp only [fieldsNeeds, List.map_cons, stepsNeeds, ih]

theorem stepsNeeds_cons (step : Step) (steps : List Step) :
    stepsNeeds (step :: steps) = stepsNeeds [step] ++ stepsNeeds steps := by
  simp only [stepsNeeds, List.append_nil]

theorem stepsNeeds_tablet (fields : List (Label × Step)) :
    stepsNeeds [.literal (.tablet fields)] = stepsNeeds (fields.map Prod.snd) := by
  simp only [stepsNeeds, Step.needs, Literal.needs, List.append_nil, fieldsNeeds_eq]

theorem stepsNeeds_call (callee : Callee) (argument : Step) :
    stepsNeeds [.call callee argument] = .routine callee :: stepsNeeds [argument] := by
  simp only [stepsNeeds, Step.needs, List.cons_append]

theorem stepsNeeds_invoke (name : Identifier) (argument : Step) :
    stepsNeeds [.invoke name argument] = .primitive name :: stepsNeeds [argument] := by
  simp only [stepsNeeds, Step.needs, List.cons_append]

theorem stepsNeeds_tuple (steps : List Step) : stepsNeeds [.tuple steps] = stepsNeeds steps := by
  simp only [stepsNeeds, Step.needs, List.append_nil]

theorem stepsNeeds_operands (name : Identifier) (left right : Step) :
    stepsNeeds [.invoke name (.tuple [left, right])] =
      .primitive name :: (stepsNeeds [left] ++ stepsNeeds [right]) := by
  rw [stepsNeeds_invoke, stepsNeeds_tuple, stepsNeeds_cons]

theorem fieldsBound_iff {known : List Name} (fields : List (Label × Step)) :
    fieldsBound known fields ↔ stepsBound known (fields.map Prod.snd) := by
  induction fields generalizing known with
  | nil => rfl
  | cons field fields ih => simp only [fieldsBound, List.map_cons, stepsBound, ih]

/-- The steps can be set up after the known names are bound, where what is allowed is at hand. -/
structure Supported (allowed : Need → Prop) (known : List Name) (steps : List Step) : Prop where
  bound : stepsBound known steps
  needs : ∀ need ∈ stepsNeeds steps, allowed need

/-- The routine's body can be set up after its parameters are bound. -/
def Routine.Supported (allowed : Need → Prop) (routine : Routine) : Prop :=
  Runbook.Supported allowed routine.parameters (routine.sequence.map Entry.step)

namespace Supported

variable {allowed : Need → Prop} {known : List Name}

@[simp] theorem nil : Supported allowed known [] := ⟨trivial, nofun⟩

theorem cons {step : Step} {steps : List Step} :
    Supported allowed known (step :: steps) ↔
      Supported allowed known [step] ∧ Supported allowed (known ++ step.binders) steps := by
  constructor
  · intro supported
    obtain ⟨⟨first, rest⟩, needs⟩ := supported
    rw [stepsNeeds_cons, List.forall_mem_append] at needs
    exact ⟨⟨⟨first, trivial⟩, needs.1⟩, rest, needs.2⟩
  · intro supported
    obtain ⟨first, rest⟩ := supported
    refine ⟨⟨first.bound.1, rest.bound⟩, ?_⟩
    rw [stepsNeeds_cons, List.forall_mem_append]
    exact ⟨first.needs, rest.needs⟩

theorem append {first second : List Step} (earlier : Supported allowed known first)
    (later : Supported allowed (known ++ stepsBinders first) second) :
    Supported allowed known (first ++ second) := by
  induction first generalizing known with
  | nil => simpa [stepsBinders] using later
  | cons step first ih =>
      rw [cons] at earlier
      rw [List.cons_append, cons]
      refine ⟨earlier.1, ih earlier.2 ?_⟩
      rwa [List.append_assoc]

theorem literal {literal : Literal} :
    Supported allowed known [.literal literal] ↔
      literal.Bound known ∧ ∀ need ∈ literal.needs, allowed need := by
  constructor
  · intro supported
    refine ⟨supported.bound.1, fun need member => ?_⟩
    exact supported.needs need (List.mem_append_left _ member)
  · intro supported
    refine ⟨⟨supported.1, trivial⟩, fun need member => ?_⟩
    rw [stepsNeeds, stepsNeeds, List.append_nil] at member
    exact supported.2 need member

@[simp] theorem tablet {fields : List (Label × Step)} :
    Supported allowed known [.literal (.tablet fields)] ↔
      Supported allowed known (fields.map Prod.snd) := by
  rw [literal, Literal.Bound, Literal.needs, fieldsBound_iff, fieldsNeeds_eq]
  constructor
  · intro supported
    exact ⟨supported.1, supported.2⟩
  · intro supported
    exact ⟨supported.bound, supported.needs⟩

@[simp] theorem bind {names : List Name} {step : Step} :
    Supported allowed known [.bind names step] ↔ Supported allowed known [step] := by
  constructor
  · intro supported
    exact ⟨supported.bound, supported.needs⟩
  · intro supported
    exact ⟨supported.bound, supported.needs⟩

theorem applied {step argument : Step} {need : Need}
    (bound : step.Bound known ↔ argument.Bound known)
    (needs : stepsNeeds [step] = need :: stepsNeeds [argument]) :
    Supported allowed known [step] ↔ allowed need ∧ Supported allowed known [argument] := by
  constructor
  · intro supported
    have all := supported.needs
    rw [needs, List.forall_mem_cons] at all
    exact ⟨all.1, ⟨bound.mp supported.bound.1, trivial⟩, all.2⟩
  · intro supported
    refine ⟨⟨bound.mpr supported.2.bound.1, trivial⟩, ?_⟩
    rw [needs, List.forall_mem_cons]
    exact ⟨supported.1, supported.2.needs⟩

@[simp] theorem call {callee : Callee} {argument : Step} :
    Supported allowed known [.call callee argument] ↔
      allowed (.routine callee) ∧ Supported allowed known [argument] :=
  applied .rfl (stepsNeeds_call callee argument)

@[simp] theorem invoke {name : Identifier} {argument : Step} :
    Supported allowed known [.invoke name argument] ↔
      allowed (.primitive name) ∧ Supported allowed known [argument] :=
  applied .rfl (stepsNeeds_invoke name argument)

@[simp] theorem tuple {steps : List Step} :
    Supported allowed known [.tuple steps] ↔ Supported allowed known steps := by
  constructor
  · intro supported
    refine ⟨supported.bound.1, ?_⟩
    rw [← stepsNeeds_tuple]
    exact supported.needs
  · intro supported
    refine ⟨⟨supported.bound, trivial⟩, ?_⟩
    rw [stepsNeeds_tuple]
    exact supported.needs

theorem reads {names : List Name} (bound : ∀ name ∈ names, name ∈ known) :
    Supported allowed known (names.map Step.read) := by
  induction names generalizing known with
  | nil => exact nil
  | cons name names ih =>
      rw [List.map_cons, cons]
      refine ⟨⟨⟨bound name List.mem_cons_self, trivial⟩, nofun⟩, ih fun other member => ?_⟩
      exact List.mem_append_left _ (bound other (List.mem_cons_of_mem _ member))

@[simp] theorem toStep {sequence : Sequence} :
    Supported allowed known [sequence.toStep] ↔
      Supported allowed known (sequence.map Entry.step) := by
  match sequence with
  | [] => exact tuple
  | [entry] => rfl
  | _ :: _ :: _ => exact tuple

end Supported

namespace Scope

theorem get?_bindAll {scope : Scope} {names : List Name} {identifier : Identifier} {name : Name}
    (found : (scope.bindAll names).names.get? identifier = some name) :
    name ∈ names ∨ scope.names.get? identifier = some name := by
  induction names generalizing scope with
  | nil => exact .inr found
  | cons first names ih =>
      rcases ih found with member | found
      · exact .inl (List.mem_cons_of_mem _ member)
      · rw [bind, Levels.get?_bind] at found
        split at found
        · rw [Option.some.inj found]
          exact .inl List.mem_cons_self
        · exact .inr found

theorem get?_declareAll {scope : Scope} {first : Nat} {procedures : List Procedure}
    {identifier : Identifier} {callee : Nat}
    (found : (scope.declareAll first procedures).procedures.get? identifier = some callee) :
    callee < first + procedures.length ∨ scope.procedures.get? identifier = some callee := by
  induction procedures generalizing scope first with
  | nil => exact .inr found
  | cons procedure procedures ih =>
      rw [List.length_cons]
      rcases ih found with below | found
      · exact .inl (by omega)
      · rw [declare, Levels.get?_bind] at found
        split at found
        · have : first = callee := Option.some.inj found
          exact .inl (by omega)
        · exact .inr found

/-- The variables that the scope has are known. -/
def Knows (scope : Scope) (known : List Name) : Prop :=
  ∀ identifier name, scope.names.get? identifier = some name → name ∈ known

/-- The procedures that the scope has are among the first ones declared. -/
def Declares (scope : Scope) (callees : Nat) : Prop :=
  ∀ identifier (callee : Nat), scope.procedures.get? identifier = some callee → callee < callees

variable {scope : Scope} {known : List Name} {callees : Nat}

theorem Knows.append (knows : scope.Knows known) (more : List Name) :
    scope.Knows (known ++ more) :=
  fun identifier name found => List.mem_append_left _ (knows identifier name found)

theorem Knows.bindAll (knows : scope.Knows known) (names : List Name) :
    (scope.bindAll names).Knows (known ++ names) := by
  intro identifier name found
  rcases get?_bindAll found with member | found
  · exact List.mem_append_right _ member
  · exact List.mem_append_left _ (knows identifier name found)

theorem Knows.declareAll (knows : scope.Knows known) (first : Callee)
    (procedures : List Procedure) : (scope.declareAll first procedures).Knows known := by
  intro identifier name found
  rw [declareAll_names] at found
  exact knows identifier name found

theorem Declares.mono (declares : scope.Declares callees) {later : Nat} (le : callees ≤ later) :
    scope.Declares later :=
  fun identifier callee found => Nat.lt_of_lt_of_le (declares identifier callee found) le

theorem Declares.bindAll (declares : scope.Declares callees) (names : List Name) :
    (scope.bindAll names).Declares callees := by
  intro identifier callee found
  rw [bindAll_procedures] at found
  exact declares identifier callee found

theorem Declares.declareAll (declares : scope.Declares callees) (procedures : List Procedure) :
    (scope.declareAll callees procedures).Declares (callees + procedures.length) := by
  intro identifier callee found
  rcases get?_declareAll found with below | found
  · exact below
  · have := declares identifier callee found
    omega

end Scope

namespace Lowering

/-- What routines may need that are made against the context: its primitives, those of the
operators, and the routines up to a number. -/
def Context.Allows (context : Context) (callees : Nat) : Need → Prop
  | .primitive name => name ∈ context.primitives ∨ ∃ operator : Operator, name = operator.primitive
  | .routine callee => Nat.lt callee callees

/-- The routines that are compiled so far can be set up. -/
def Progress.Supported (allowed : Need → Prop) (progress : Progress) : Prop :=
  ∀ callee routine, progress.library.get? callee = some routine → routine.Supported allowed

theorem Progress.Supported.keep {allowed : Need → Prop} {progress : Progress}
    (supported : progress.Supported allowed) {routine : Routine}
    (added : routine.Supported allowed) (callee : Callee) :
    Progress.Supported allowed
      { progress with library := progress.library.insert callee routine } := by
  intro other kept found
  rw [Library.get?_insert] at found
  split at found
  · rw [← Option.some.inj found]
    exact added
  · exact supported other kept found

variable {context : Context} {callees : Nat}

theorem inScope_supported {scope : Scope} {known : List Name} {block : Block}
    {sequence : Sequence} {before after : Progress}
    (made : Makes (inScope scope block (fun scope => lowerStatements context scope block)
      (fun scope first => lowerBodies context scope first block)) before sequence after)
    (supported : before.Supported (context.Allows callees)) (knows : scope.Knows known)
    (declares : scope.Declares before.callees) (below : after.callees ≤ callees)
    (stated : ∀ {outer inner : Scope} {before after : Progress},
      Makes (lowerStatements context outer block) before (sequence, inner) after →
      before.Supported (context.Allows callees) → outer.Knows known →
      outer.Declares before.callees → after.callees ≤ callees →
        Supported (context.Allows callees) known (sequence.map Entry.step) ∧
          after.Supported (context.Allows callees))
    (compiled : ∀ {inner : Scope} {callee : Nat} {before after : Progress},
      Makes (lowerBodies context inner callee block) before () after →
      callee + (declarations block).length ≤ before.callees →
      before.Supported (context.Allows callees) → inner.Declares before.callees →
      after.callees ≤ callees → after.Supported (context.Allows callees)) :
    Supported (context.Allows callees) known (sequence.map Entry.step) ∧
      after.Supported (context.Allows callees) := by
  obtain ⟨_, inner, middle, first, rest⟩ := makes_inScope.mp made
  have advances := lowerStatements_advances block first
  have later := (lowerBodies_advances block rest advances.callees).callees
  have declared := declares.declareAll (declarations block)
  obtain ⟨steps, library⟩ := stated first supported (knows.declareAll _ _) declared
    (Nat.le_trans later below)
  refine ⟨steps, compiled rest advances.callees library ?_ below⟩
  intro identifier callee found
  rw [lowerStatements_procedures first] at found
  exact Nat.lt_of_lt_of_le (declared identifier callee found) advances.callees

mutual

theorem lowerExpression_supported {scope : Scope} {known : List Name} {before after : Progress}
    {sequence : Sequence} (supported : before.Supported (context.Allows callees))
    (knows : scope.Knows known) (declares : scope.Declares before.callees)
    (below : after.callees ≤ callees) :
    ∀ expression : Expression,
      Makes (lowerExpression context scope expression) before sequence after →
        Supported (context.Allows callees) known (sequence.map Entry.step) ∧
          after.Supported (context.Allows callees)
  | .application offset name argument, made => by
      obtain ⟨entries, part, meant⟩ := makes_application.mp made
      have later := (lowerExpression_advances argument part).callees
      obtain ⟨steps, library⟩ := lowerExpression_supported supported knows declares below argument
        part
      rcases meant with ⟨callee, found, rfl⟩ | ⟨_, member, rfl⟩
      · have declared := declares name callee found
        have : Nat.lt callee callees := Nat.lt_of_lt_of_le declared (Nat.le_trans later below)
        exact ⟨Supported.call.mpr ⟨this, Supported.toStep.mpr steps⟩, library⟩
      · exact ⟨Supported.invoke.mpr ⟨.inl member, Supported.toStep.mpr steps⟩, library⟩
  | .unit offset, made => by
      obtain ⟨rfl, rfl⟩ := makes_pure.mp made
      exact ⟨Supported.literal.mpr ⟨trivial, nofun⟩, supported⟩
  | .text offset text, made => by
      obtain ⟨rfl, rfl⟩ := makes_pure.mp made
      exact ⟨Supported.literal.mpr ⟨trivial, nofun⟩, supported⟩
  | .amount offset quantity, made => by
      obtain ⟨rfl, rfl⟩ := makes_pure.mp made
      exact ⟨Supported.literal.mpr ⟨trivial, nofun⟩, supported⟩
  | .hole offset, made => absurd made makes_refuse
  | .tablet offset fields, made => by
      obtain ⟨steps, part, rfl⟩ := makes_tablet.mp made
      obtain ⟨fields, library⟩ := lowerFields_supported supported knows declares below fields part
      exact ⟨Supported.tablet.mpr fields, library⟩
  | .reference offset identifiers, made => by
      obtain ⟨names, meant, rfl, rfl⟩ := makes_reference.mp made
      refine ⟨Supported.tuple.mpr (Supported.reads fun name member => ?_), supported⟩
      have : some name ∈ identifiers.map scope.names.get? := meant ▸ List.mem_map_of_mem member
      obtain ⟨identifier, _, found⟩ := List.mem_map.mp this
      exact knows identifier name found
  | .operation offset operator left right, made => by
      obtain ⟨first, middle, second, part, rest, rfl⟩ := makes_operation.mp made
      have earlier := (lowerExpression_advances left part).callees
      have later := (lowerExpression_advances right rest).callees
      obtain ⟨steps, library⟩ := lowerExpression_supported supported knows declares
        (Nat.le_trans later below) left part
      obtain ⟨others, library⟩ := lowerExpression_supported library
        (knows.append first.toStep.binders) (declares.mono earlier) below right rest
      refine ⟨Supported.invoke.mpr ⟨.inr ⟨operator, rfl⟩, Supported.tuple.mpr ?_⟩, library⟩
      exact Supported.cons.mpr ⟨Supported.toStep.mpr steps, Supported.toStep.mpr others⟩
  | .grouping offset inner, made =>
      lowerExpression_supported supported knows declares below inner made
  | .restriction offset setting block, made => by
      rw [lowerExpression] at made
      have inside : (scope.restrict setting).Knows known := knows
      exact inScope_supported made supported inside declares below
        (fun made supported knows declares below =>
          lowerStatements_supported supported knows declares below block made)
        (fun made declared supported declares below =>
          lowerBodies_supported supported declares below block made declared)

theorem lowerFields_supported {scope : Scope} {known : List Name} {before after : Progress}
    {steps : List (Label × Step)} (supported : before.Supported (context.Allows callees))
    (knows : scope.Knows known) (declares : scope.Declares before.callees)
    (below : after.callees ≤ callees) :
    ∀ fields : List (Label × Expression),
      Makes (lowerFields context scope fields) before steps after →
        Supported (context.Allows callees) known (steps.map Prod.snd) ∧
          after.Supported (context.Allows callees)
  | [], made => by
      obtain ⟨rfl, rfl⟩ := makes_pure.mp made
      exact ⟨Supported.nil, supported⟩
  | (label, value) :: fields, made => by
      obtain ⟨entries, middle, others, part, rest, rfl⟩ := makes_field.mp made
      have earlier := (lowerExpression_advances value part).callees
      have later := (lowerFields_advances fields rest).callees
      obtain ⟨first, library⟩ := lowerExpression_supported supported knows declares
        (Nat.le_trans later below) value part
      obtain ⟨others, library⟩ := lowerFields_supported library
        (knows.append entries.toStep.binders) (declares.mono earlier) below fields rest
      exact ⟨Supported.cons.mpr ⟨Supported.toStep.mpr first, others⟩, library⟩

theorem lowerStatements_supported {scope inner : Scope} {known : List Name}
    {before after : Progress} {sequence : Sequence}
    (supported : before.Supported (context.Allows callees)) (knows : scope.Knows known)
    (declares : scope.Declares before.callees) (below : after.callees ≤ callees) :
    ∀ block : List Statement,
      Makes (lowerStatements context scope block) before (sequence, inner) after →
        Supported (context.Allows callees) known (sequence.map Entry.step) ∧
          after.Supported (context.Allows callees)
  | [], made => by
      simp only [lowerStatements, makes_pure, Prod.mk.injEq] at made
      obtain ⟨⟨rfl, rfl⟩, rfl⟩ := made
      exact ⟨Supported.nil, supported⟩
  | .assignment offset targets value :: block, made => by
      obtain ⟨_, entries, middle, names, others, part, _, rest, rfl⟩ :=
        makes_assignment.mp made
      have earlier := (lowerExpression_advances value part).callees
      have later : middle.callees ≤ after.callees := (lowerStatements_advances block rest).callees
      obtain ⟨steps, library⟩ := lowerExpression_supported supported knows declares
        (Nat.le_trans later below) value part
      have bound : Progress.Supported (context.Allows callees)
          { middle with names := middle.names + targets.length } := library
      obtain ⟨others, library⟩ := lowerStatements_supported bound
        ((knows.append entries.toStep.binders).bindAll names)
        ((declares.mono earlier).bindAll names) below block rest
      rw [List.append_assoc] at others
      exact ⟨Supported.cons.mpr ⟨Supported.bind.mpr (Supported.toStep.mpr steps), others⟩, library⟩
  | .execute offset value :: block, made => by
      obtain ⟨entries, middle, others, part, rest, rfl⟩ := makes_execute.mp made
      have earlier := (lowerExpression_advances value part).callees
      have later := (lowerStatements_advances block rest).callees
      obtain ⟨steps, library⟩ := lowerExpression_supported supported knows declares
        (Nat.le_trans later below) value part
      obtain ⟨others, library⟩ := lowerStatements_supported library
        (knows.append entries.binders) (declares.mono earlier) below block rest
      rw [List.map_append]
      exact ⟨steps.append others, library⟩
  | .declaration _ _ :: block, made =>
      lowerStatements_supported supported knows declares below block made
  | .comment _ _ :: block, made =>
      lowerStatements_supported supported knows declares below block made
  | .blank _ :: block, made =>
      lowerStatements_supported supported knows declares below block made
  | .series _ :: block, made =>
      lowerStatements_supported supported knows declares below block made

theorem lowerBodies_supported {scope : Scope} {callee : Nat} {before after : Progress}
    (supported : before.Supported (context.Allows callees))
    (declares : scope.Declares before.callees) (below : after.callees ≤ callees) :
    ∀ block : List Statement,
      Makes (lowerBodies context scope callee block) before () after →
      callee + (declarations block).length ≤ before.callees →
        after.Supported (context.Allows callees)
  | [], made, _ => by
      obtain ⟨_, rfl⟩ := makes_pure.mp made
      exact supported
  | .assignment _ _ _ :: block, made, declared =>
      lowerBodies_supported supported declares below block made declared
  | .execute _ _ :: block, made, declared =>
      lowerBodies_supported supported declares below block made declared
  | .declaration offset procedure :: block, made, declared => by
      obtain ⟨routine, middle, part, rest⟩ := makes_declaration.mp made
      have earlier := (lowerProcedure_advances procedure part).callees
      rw [declarations, List.length_cons] at declared
      have left : callee + 1 + (declarations block).length ≤ middle.callees := by omega
      have later : middle.callees ≤ after.callees :=
        (lowerBodies_advances block rest left).callees
      obtain ⟨added, library⟩ := lowerProcedure_supported supported declares
        (Nat.le_trans later below) procedure part
      exact lowerBodies_supported (library.keep added callee) (declares.mono earlier) below block
        rest left
  | .comment _ _ :: block, made, declared =>
      lowerBodies_supported supported declares below block made declared
  | .blank _ :: block, made, declared =>
      lowerBodies_supported supported declares below block made declared
  | .series _ :: block, made, declared =>
      lowerBodies_supported supported declares below block made declared

theorem lowerProcedure_supported {scope : Scope} {before after : Progress} {routine : Routine}
    (supported : before.Supported (context.Allows callees))
    (declares : scope.Declares before.callees) (below : after.callees ≤ callees) :
    ∀ procedure : Procedure,
      Makes (lowerProcedure context scope procedure) before routine after →
        routine.Supported (context.Allows callees) ∧ after.Supported (context.Allows callees)
  | ⟨offset, name, parameters, signature, block⟩, made => by
      obtain ⟨_, names, sequence, _, part, rfl⟩ := makes_procedure.mp made
      have knows : scope.body.Knows [] := nofun
      have inside : scope.body.Declares before.callees := declares
      exact inScope_supported part supported (knows.bindAll names) (inside.bindAll names) below
        (fun made supported knows declares below =>
          lowerStatements_supported supported knows declares below block made)
        (fun made declared supported declares below =>
          lowerBodies_supported supported declares below block made declared)

end

theorem lowerProcedures_supported {scope : Scope} {procedures : List Procedure} {callee : Nat}
    {before after : Progress} (supported : before.Supported (context.Allows callees))
    (declares : scope.Declares before.callees) (below : after.callees ≤ callees)
    (made : Makes (lowerProcedures context scope callee procedures) before () after)
    (declared : callee + procedures.length ≤ before.callees) :
    after.Supported (context.Allows callees) := by
  induction procedures generalizing callee before with
  | nil =>
      obtain ⟨_, rfl⟩ := makes_pure.mp made
      exact supported
  | cons procedure procedures ih =>
      obtain ⟨routine, middle, part, rest⟩ := makes_lowerProcedures.mp made
      have earlier := (lowerProcedure_advances procedure part).callees
      rw [List.length_cons] at declared
      have left : callee + 1 + procedures.length ≤ middle.callees := by omega
      have later : middle.callees ≤ after.callees := (lowerProcedures_advances rest left).callees
      obtain ⟨added, library⟩ := lowerProcedure_supported supported declares
        (Nat.le_trans later below) procedure part
      exact ih (library.keep added callee) (declares.mono earlier) rest left

/-- The routines of a document's library can be set up, and every callee has its routine. -/
theorem library_supported {document : Document} {routine : Routine}
    (made : Lowering.document context document = .ok routine) :
    ∃ callees, (∀ callee other, Library.get? routine.library callee = some other →
        other.Supported (context.Allows callees)) ∧
      ∀ callee, Nat.lt callee callees →
        ∃ other, Library.get? routine.library callee = some other := by
  obtain ⟨_, after, main, part, found, rfl⟩ := makes_document.mp made
  have declared : (Scope.root.declareAll 0 document.procedures).Declares
      (0 + document.procedures.length) :=
    Scope.Declares.declareAll (fun _ _ found => by cases found) _
  rw [Nat.zero_add] at declared
  refine ⟨after.callees, lowerProcedures_supported (fun _ _ found => by cases found) declared
    (Nat.le_refl after.callees) part (Nat.le_of_eq (Nat.zero_add _)), fun callee below => ?_⟩
  have advances := lowerProcedures_advances part (Nat.le_of_eq (Nat.zero_add _))
  have compiled := advances.compiled callee (by
    simp only [Progress.Open, List.mem_range'_1]
    omega) below
  exact Option.isSome_iff_exists.mp compiled

/-- The routine that a document compiles to is the first one of its library. -/
theorem document_main {document : Document} {routine : Routine}
    (made : Lowering.document context document = .ok routine) :
    ∃ main, Library.get? routine.library 0 = some main ∧
      routine = { main with library := routine.library } := by
  obtain ⟨_, after, main, _, found, rfl⟩ := makes_document.mp made
  exact ⟨main, found, rfl⟩

end Lowering

end Runbook
