import Runbook.Proofs.Evaluation.Opening
import Runbook.Proofs.Evaluation.Races

/-!
Where an operation stands in a program, and when it is performed.

An operation stands in a step, the step in an entry of a procedure. Each time an invocation of the
procedure begins the entry, it starts tasks in a fixed order, so that those of the operands have
fixed places among them. What is said of an operation in a run is said of these tasks, each time.
-/
namespace Runbook

/-- Are steps that the primitive is performed on as a pair performed as tasks of their own? -/
def Registry.operates (registry : Registry) (name : Identifier) : Bool :=
  ((registry.lookup name).bind Primitive.operator).isSome

/-- How many tasks a primitive starts for its argument. -/
def Registry.splits (registry : Registry) (name : Identifier) : Step → Nat
  | .tuple [_, _] => if registry.operates name then 2 else 0
  | _ => 0

mutual

/-- How many tasks a step starts when it is set up, with all that is nested in it. -/
def Step.starts (registry : Registry) : Step → Nat
  | .literal literal => literal.starts registry
  | .bind _ step => step.starts registry + 1
  | .call _ argument => argument.starts registry
  | .invoke name argument => argument.starts registry + registry.splits name argument
  | .tuple steps => stepsStarts registry steps
  | .read _ => 0

def Literal.starts (registry : Registry) : Literal → Nat
  | .unit | .text _ | .quantity _ => 0
  | .tablet fields => fieldsStarts registry fields

def stepsStarts (registry : Registry) : List Step → Nat
  | [] => 0
  | step :: steps => step.starts registry + stepsStarts registry steps

def fieldsStarts (registry : Registry) : List (Label × Step) → Nat
  | [] => 0
  | (_, step) :: fields => step.starts registry + fieldsStarts registry fields

end

/-- A place in a step. -/
inductive Step.Context where
  | here
  | bind (names : List Name) (inner : Context)
  | call (callee : Callee) (inner : Context)
  | invoke (primitive : Identifier) (inner : Context)
  | tuple (before : List Step) (inner : Context) (after : List Step)
  | tablet (before : List (Label × Step)) (label : Label) (inner : Context)
      (after : List (Label × Step))

namespace Step.Context

/-- The step that has another one at the place. -/
def fill (step : Step) : Context → Step
  | .here => step
  | .bind names inner => .bind names (inner.fill step)
  | .call callee inner => .call callee (inner.fill step)
  | .invoke primitive inner => .invoke primitive (inner.fill step)
  | .tuple before inner after => .tuple (before ++ inner.fill step :: after)
  | .tablet before label inner after =>
    .literal (.tablet (before ++ (label, inner.fill step) :: after))

/-- Does the second step of a pair stand at the place? -/
def isSecond : Context → Bool
  | .tuple [_] _ [] => true
  | _ => false

/-- How many tasks are started before the step at the place is set up. -/
def starts (registry : Registry) : Context → Nat
  | .here => 0
  | .bind _ inner | .call _ inner => inner.starts registry
  | .invoke primitive inner =>
    inner.starts registry + if inner.isSecond && registry.operates primitive then 1 else 0
  | .tuple before inner _ => stepsStarts registry before + inner.starts registry
  | .tablet before _ inner _ => fieldsStarts registry before + inner.starts registry

/-- What is mentioned around the place. -/
def mentions : Context → List Mention
  | .here => []
  | .bind names inner => inner.mentions ++ [.binding names]
  | .call _ inner | .invoke _ inner => inner.mentions
  | .tuple before inner after => stepsMentions before ++ inner.mentions ++ stepsMentions after
  | .tablet before _ inner after => fieldsMentions before ++ inner.mentions ++ fieldsMentions after

end Step.Context

/-- A place in the sequence of a procedure. -/
structure Site where
  before : Sequence
  setting : Setting
  context : Step.Context
  after : Sequence

namespace Site

/-- The sequence that has the step at the place. -/
def sequence (site : Site) (step : Step) : Sequence :=
  site.before ++ ⟨site.setting, site.context.fill step⟩ :: site.after

/-- What is mentioned around the place. -/
def mentions (site : Site) : List Mention :=
  site.before.mentions ++ site.context.mentions ++ site.after.mentions

end Site

/-- On which side of an operation the operand stands that decides it. -/
inductive Side where
  | left
  | right

namespace Side

/-- Two operands, of which the first stands on that side. -/
def operands : Side → Step → Step → List Step
  | .left, winner, loser => [winner, loser]
  | .right, winner, loser => [loser, winner]

/-- The operation that waits for either of two steps, of which the first stands on that side. -/
def either (side : Side) (winner loser : Step) : Step :=
  .invoke Operator.waitEither.primitive (.tuple (side.operands winner loser))

/-- The task of the operand on that side, in an operation that starts its tasks from `first` on. -/
def winner (registry : Registry) (first : TaskId) : Side → Step → Step → TaskId
  | .left, winner, _ => first + winner.starts registry
  | .right, winner, loser => first + loser.starts registry + 1 + winner.starts registry

/-- The task of the other operand. -/
def loser (registry : Registry) (first : TaskId) : Side → Step → Step → TaskId
  | .left, winner, loser => first + winner.starts registry + 1 + loser.starts registry
  | .right, _, loser => first + loser.starts registry

end Side

/-- The task has its outcome, or has broken down. -/
def World.Ended (world : World) (task : TaskId) : Prop :=
  (world.tasks[task]?.bind Work.ended?).isSome

/-- An invocation of the procedure of that number begins at the place: the run itself, which
performs procedure 0, or a call whose argument has a value. -/
inductive Enters (machine : Machine) (main : Routine) (argument : Value) (callee : Callee)
    (task : TaskId) (place : List Nat) : World → Prop
  | run : callee = 0 → task = 0 → place = [] →
      Enters machine main argument callee task place (World.start main argument)
  | call {world next : World} {routine : Routine} {value : Value} :
      (World.start main argument).Reaches machine world → world.step? machine = some next →
      world.part? task place = some (.after (.done (.ok value)) (.call callee)) →
      machine.library.get? callee = some routine →
      next.part? task place = some (enter routine value).work →
      Enters machine main argument callee task place next

namespace Library

/-- The library in which the procedure of that number has another sequence. -/
def revise (library : Library) (callee : Callee) (sequence : Sequence) : Library :=
  library.map fun (number, routine) =>
    (number, if number = callee then { routine with sequence } else routine)

end Library

namespace Routine

/-- The program, whose first procedure is that of number 0, in which the procedure of that number has
another sequence. -/
def revise (program : Routine) (callee : Callee) (sequence : Sequence) : Routine :=
  { program with
    sequence := if callee = 0 then sequence else program.sequence
    library := Library.revise program.library callee sequence }

/-- In a run of the program, an invocation of the procedure stands at the place. -/
def Invoked (program : Routine) (registry : Registry) (argument : Value) (callee : Callee)
    (task : TaskId) (place : List Nat) (world : World) : Prop :=
  ∃ start bound, Enters ⟨registry, program.library⟩ program argument callee task place start ∧
    Proceeds ⟨registry, program.library⟩ task place ⟨start, []⟩ ⟨world, bound⟩

/-- In a run of the program, an invocation of the procedure begins its entry of that number when so
many tasks have been started. -/
def Performs (program : Routine) (registry : Registry) (argument : Value) (callee : Callee)
    (index count : Nat) : Prop :=
  ∃ task place world next frame value entries after,
    program.Invoked registry argument callee task place world ∧
    world.step? ⟨registry, program.library⟩ = some next ∧
    world.part? task place = some (.body frame (.done (.ok value)) index entries) ∧
    next.part? task place = some after ∧ after ≠ .body frame (.done (.ok value)) index entries ∧
    world.tasks.length = count

/-- Each time the operation at the site is performed, the loser has no end before the winner has had
one at an earlier moment. -/
def Outruns (program : Routine) (registry : Registry) (argument : Value) (callee : Callee)
    (site : Site) (side : Side) (winner loser : Step) : Prop :=
  ∀ count, program.Performs registry argument callee site.before.length count →
    ∀ world, (World.start program argument).Reaches ⟨registry, program.library⟩ world →
      world.Ended (side.loser registry (count + site.context.starts registry) winner loser) →
      ∃ earlier, (World.start program argument).Reaches ⟨registry, program.library⟩ earlier ∧
        earlier.Ended (side.winner registry (count + site.context.starts registry) winner loser) ∧
        earlier.clock < world.clock

end Routine

section Checking

variable {machine : Machine} {world last : World} {program : Routine} {registry : Registry}
  {argument : Value} {callee : Callee} {task : TaskId} {place : List Nat}

theorem Enters.reaches {start : World}
    (enters : Enters machine program argument callee task place start) :
    (World.start program argument).Reaches machine start := by
  cases enters with
  | run => exact .refl
  | call reaches stepped _ _ _ => exact reaches.tail stepped

theorem Routine.Invoked.reaches
    (invoked : program.Invoked registry argument callee task place world) :
    (World.start program argument).Reaches ⟨registry, program.library⟩ world := by
  obtain ⟨start, bound, enters, proceeds⟩ := invoked
  exact enters.reaches.trans proceeds.reaches

instance : Decidable (world.Ended task) := inferInstanceAs (Decidable (_ = true))

/-- All worlds of a run that stops within so many steps. -/
def World.worlds? (machine : Machine) : Nat → World → Option (List World)
  | 0, _ => none
  | fuel + 1, world =>
    match world.step? machine with
    | none => some [world]
    | some next => (worlds? machine fuel next).map (world :: ·)

theorem World.mem_worlds? {fuel : Nat} {worlds : List World}
    (found : world.worlds? machine fuel = some worlds) :
    last ∈ worlds ↔ world.Reaches machine last := by
  induction fuel generalizing world worlds with
  | zero => cases found
  | succ fuel ih =>
      rw [worlds?] at found
      split at found
      · rename_i still
        cases found
        rw [List.mem_singleton]
        constructor
        · rintro rfl
          exact .refl
        · intro reaches
          rcases reaches.cases_head with same | ⟨next, stepped, _⟩
          · exact same.symm
          · cases still.symm.trans stepped
      · rename_i next stepped
        obtain ⟨later, inner, rfl⟩ := Option.map_eq_some_iff.mp found
        rw [List.mem_cons, ih inner]
        constructor
        · rintro (rfl | reaches)
          · exact .refl
          · exact .head stepped reaches
        · intro reaches
          rcases reaches.cases_head with same | ⟨after, again, rest⟩
          · exact .inl same.symm
          · obtain rfl := Option.some.inj (again.symm.trans stepped)
            exact .inr rest

/-- In a run that stops within so many steps, is the loser outrun wherever the operation can have
started its tasks? -/
def Routine.outruns? (program : Routine) (registry : Registry) (argument : Value) (site : Site)
    (side : Side) (winner loser : Step) (fuel : Nat) : Option Bool :=
  ((World.start program argument).worlds? ⟨registry, program.library⟩ fuel).map fun worlds =>
    worlds.all fun begun =>
      let first := begun.tasks.length + site.context.starts registry
      worlds.all fun world => !decide (world.Ended (side.loser registry first winner loser)) ||
        worlds.any fun earlier =>
          decide (earlier.Ended (side.winner registry first winner loser)) &&
            decide (earlier.clock < world.clock)

theorem Routine.Outruns.of_check {site : Site} {side : Side} {winner loser : Step} {fuel : Nat}
    (checked : program.outruns? registry argument site side winner loser fuel = some true) :
    program.Outruns registry argument callee site side winner loser := by
  obtain ⟨worlds, found, checked⟩ := Option.map_eq_some_iff.mp checked
  rintro count ⟨task, place, begun, _, _, _, _, _, invoked, _, _, _, _, rfl⟩ world reaches ended
  have all := List.all_eq_true.mp checked begun ((World.mem_worlds? found).mpr invoked.reaches)
  have outrun := List.all_eq_true.mp all world ((World.mem_worlds? found).mpr reaches)
  rw [decide_eq_true ended, Bool.not_true, Bool.false_or, List.any_eq_true] at outrun
  obtain ⟨earlier, inside, before⟩ := outrun
  rw [Bool.and_eq_true, decide_eq_true_eq, decide_eq_true_eq] at before
  exact ⟨earlier, (World.mem_worlds? found).mp inside, before⟩

end Checking

namespace SetUp

variable {registry : Registry} {setting : Setting}

/-- A primitive that does not operate on its argument as a pair is performed on it. -/
theorem setUp_invoke {name : Identifier} {primitive : Primitive} {argument : Step}
    (found : registry.lookup name = some primitive)
    (whole : ∀ operator left right, primitive.operator = some operator →
      argument ≠ .tuple [left, right]) :
    setUp registry setting (.invoke name argument) = (do
      let work ← setUp registry setting argument
      pure (.after work (.invoke primitive))) := by
  rw [setUp, found]
  dsimp only
  split
  · exact absurd rfl (whole _ _ _ ‹_›)
  · rfl

theorem setUp_operands {name : Identifier} {primitive : Primitive} {operator : Operator}
    (found : registry.lookup name = some primitive) (operates : primitive.operator = some operator)
    (left right : Step) :
    setUp registry setting (.invoke name (.tuple [left, right])) = (do
      let first ← SetUp.start (← setUp registry setting left)
      let second ← SetUp.start (← setUp registry setting right)
      pure (.after (operator.await first second) (.join primitive))) := by
  rw [setUp, found]
  dsimp only
  rw [operates]

theorem setUpFields_eq (fields : List (Label × Step)) :
    setUpFields registry setting fields = setUpAll registry setting (fields.map Prod.snd) := by
  induction fields with
  | nil => rfl
  | cons field fields ih => rw [setUpFields, List.map_cons, setUpAll, ih]

end SetUp

theorem fieldsStarts_eq (registry : Registry) (fields : List (Label × Step)) :
    fieldsStarts registry fields = stepsStarts registry (fields.map Prod.snd) := by
  induction fields with
  | nil => rfl
  | cons field fields ih => rw [fieldsStarts, List.map_cons, stepsStarts, ih]

theorem Registry.operates_eq {registry : Registry} {name : Identifier} {primitive : Primitive}
    (found : registry.lookup name = some primitive) :
    registry.operates name = primitive.operator.isSome := by
  rw [operates, found, Option.bind_some]

theorem Registry.splits_eq_zero {registry : Registry} {name : Identifier} {primitive : Primitive}
    {argument : Step} (found : registry.lookup name = some primitive)
    (whole : ∀ operator left right, primitive.operator = some operator →
      argument ≠ .tuple [left, right]) : registry.splits name argument = 0 := by
  unfold splits
  split
  · rw [operates_eq found]
    cases performs : primitive.operator with
    | none => rfl
    | some operator => exact absurd rfl (whole operator _ _ performs)
  · rfl

namespace SetUp

variable {registry : Registry} {before after : State}

mutual

/-- Setting a step up starts as many tasks as it says. -/
theorem setUp_starts (setting : Setting) : ∀ (step : Step) {before after : State} {work : Work},
    (setUp registry setting step).Gives before work after →
      after.next = before.next + step.starts registry
  | .literal literal, _, _, _, gives => setUpLiteral_starts setting literal gives
  | .bind names step, _, _, _, gives => by
      rw [setUp] at gives
      obtain ⟨_, _, reports, gives⟩ := gives_bind_iff.mp gives
      obtain ⟨work, _, inner, gives⟩ := gives_bind_iff.mp gives
      obtain ⟨task, _, binds, gives⟩ := gives_bind_iff.mp gives
      have starts := setUp_starts setting step inner
      cases reports
      cases binds
      cases gives
      exact congrArg (· + 1) starts
  | .call callee argument, _, _, _, gives => by
      rw [setUp] at gives
      obtain ⟨work, _, inner, gives⟩ := gives_bind_iff.mp gives
      cases gives
      exact setUp_starts setting argument inner
  | .invoke name argument, before, after, _, gives => by
      cases found : registry.lookup name with
      | none =>
          rw [setUp, found] at gives
          cases gives
      | some primitive =>
          have operates := Registry.operates_eq found
          by_cases pair : ∃ operator left right, primitive.operator = some operator ∧
              argument = .tuple [left, right]
          · obtain ⟨operator, left, right, performs, rfl⟩ := pair
            rw [setUp_operands found performs] at gives
            obtain ⟨work, _, first, gives⟩ := gives_bind_iff.mp gives
            obtain ⟨task, _, begins, gives⟩ := gives_bind_iff.mp gives
            obtain ⟨work', _, second, gives⟩ := gives_bind_iff.mp gives
            obtain ⟨task', _, begins', gives⟩ := gives_bind_iff.mp gives
            have early := setUp_starts setting left first
            have late := setUp_starts setting right second
            cases begins
            cases begins'
            cases gives
            rw [performs] at operates
            rw [Step.starts, Step.starts, stepsStarts, stepsStarts, stepsStarts, Registry.splits,
              operates]
            have sum (first one two : Nat) :
                first + one + 1 + two + 1 = first + (one + (two + 0) + 2) := by
              omega
            simp only at late ⊢
            rw [late, early]
            exact sum _ _ _
          · have whole : ∀ operator left right, primitive.operator = some operator →
                argument ≠ .tuple [left, right] :=
              fun operator left right performs same => pair ⟨operator, left, right, performs, same⟩
            rw [setUp_invoke found whole] at gives
            obtain ⟨work, _, inner, gives⟩ := gives_bind_iff.mp gives
            cases gives
            rw [Step.starts, Registry.splits_eq_zero found whole]
            exact setUp_starts setting argument inner
  | .tuple steps, _, _, _, gives => by
      rw [setUp] at gives
      obtain ⟨works, _, inner, gives⟩ := gives_bind_iff.mp gives
      cases gives
      exact setUpAll_starts setting steps inner
  | .read name, _, _, _, gives => by
      rw [setUp] at gives
      obtain ⟨_, _, fetched, gives⟩ := gives_bind_iff.mp gives
      cases fetched
      split at gives
      · cases gives
      · cases gives
        rfl
      · cases gives
        rfl

theorem setUpLiteral_starts (setting : Setting) : ∀ (literal : Literal) {before after : State}
    {work : Work}, (setUpLiteral registry setting literal).Gives before work after →
      after.next = before.next + literal.starts registry
  | .unit, _, _, _, gives => by
      cases gives
      rfl
  | .text _, _, _, _, gives => by
      cases gives
      rfl
  | .quantity _, _, _, _, gives => by
      cases gives
      rfl
  | .tablet fields, _, _, _, gives => by
      rw [setUpLiteral] at gives
      obtain ⟨works, _, inner, gives⟩ := gives_bind_iff.mp gives
      cases gives
      exact setUpFields_starts setting fields inner

theorem setUpAll_starts (setting : Setting) : ∀ (steps : List Step) {before after : State}
    {works : List Work}, (setUpAll registry setting steps).Gives before works after →
      after.next = before.next + stepsStarts registry steps
  | [], _, _, _, gives => by
      cases gives
      rfl
  | step :: steps, _, _, _, gives => by
      rw [setUpAll] at gives
      obtain ⟨work, _, first, gives⟩ := gives_bind_iff.mp gives
      obtain ⟨works, _, rest, gives⟩ := gives_bind_iff.mp gives
      cases gives
      rw [setUpAll_starts setting steps rest, setUp_starts setting step first, stepsStarts,
        Nat.add_assoc]

theorem setUpFields_starts (setting : Setting) : ∀ (fields : List (Label × Step))
    {before after : State} {works : List Work},
    (setUpFields registry setting fields).Gives before works after →
      after.next = before.next + fieldsStarts registry fields
  | [], _, _, _, gives => by
      cases gives
      rfl
  | (_, step) :: fields, _, _, _, gives => by
      rw [setUpFields] at gives
      obtain ⟨work, _, first, gives⟩ := gives_bind_iff.mp gives
      obtain ⟨works, _, rest, gives⟩ := gives_bind_iff.mp gives
      cases gives
      rw [setUpFields_starts setting fields rest, setUp_starts setting step first, fieldsStarts,
        Nat.add_assoc]

end

end SetUp

end Runbook
