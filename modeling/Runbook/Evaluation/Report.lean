import Runbook.Evaluation.World

/-!
Whole runs: a routine is performed until it has its outcome, and what goes on by itself for some
time after it.

The number of moves is limited by `fuel`, and a run that has no outcome within it has no report.
-/
namespace Runbook

structure Report where
  outcome : Outcome
  /-- The moment of the outcome. -/
  elapsed : Nat
  /-- What has happened up to the end of the time that was asked for. -/
  log : List Logged

namespace World

/-- The first world of the run in which it has its outcome, and that outcome. -/
def toOutcome? (machine : Machine) : Nat → World → Option (Except Defect Outcome × World)
  | 0, _ => none
  | fuel + 1, world =>
    match world.outcome? with
    | some outcome => some (outcome, world)
    | none =>
      match world.step? machine with
      | some next => toOutcome? machine fuel next
      | none => none

/-- The last world of the run up to the moment `limit`. -/
def toMoment (machine : Machine) (limit : Nat) : Nat → World → World
  | 0, world => world
  | fuel + 1, world =>
    match world.step? machine with
    | none => world
    | some next => if limit < next.clock then world else toMoment machine limit fuel next

end World

namespace Routine

/-- The argument of a routine that is given none: `()` for each parameter. -/
def defaultArgument (routine : Routine) : Value :=
  .ofResults (routine.parameters.map fun _ => .unit)

/-- Performs a routine, and reports what happens up to `drain` milliseconds after its outcome. -/
def perform? (routine : Routine) (registry : Registry) (argument : Value) (drain fuel : Nat) :
    Option (Except Defect Report) :=
  let machine : Machine := ⟨registry, routine.library⟩
  match (World.start routine argument).toOutcome? machine fuel with
  | none => none
  | some (.error defect, _) => some (.error defect)
  | some (.ok outcome, world) =>
    let last := world.toMoment machine (world.clock + drain) fuel
    some (.ok ⟨outcome, world.clock, last.log⟩)

end Routine

def Primitive.perform (primitive : Primitive) (argument : Value) : Report :=
  let response := primitive.action argument
  ⟨response.outcome, response.delay, response.events.map (⟨0, ·⟩)⟩

end Runbook
