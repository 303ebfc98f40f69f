import Runbook.Evaluation.Work

/-!
The tasks of a run and their clock, and how they go on.

A task has turns, and goes on as far as it can in each. Those that are started or that need not
wait any more get their next turn in that order; the run itself, task 0, when there is no other.
When no task can go on, the clock moves to the next moment that a work waits for. The order of the
turns is a matter of `World.queue` alone: what a task does does not depend on it.
-/
namespace Runbook

/-- What a run has at hand throughout. -/
structure Machine where
  registry : Registry
  library : Library

structure World where
  /-- Milliseconds since the beginning. -/
  clock : Nat
  tasks : List Work
  /-- The tasks that have turns, the one that has the turn first. -/
  queue : List TaskId
  /-- What has happened, the first event first. -/
  log : List Logged

/-- What one move of a work changes: the work itself, the tasks that it starts, what is reported,
and the task whose end it meets. -/
structure Change where
  work : Work
  started : List Work
  events : List Event
  met : Option TaskId

namespace Change

def become (work : Work) : Change := ⟨work, [], [], none⟩

/-- A procedure has its outcome. -/
def finish (outcome : Outcome) : Change := ⟨.done outcome, [], [.finished outcome.isOk], none⟩

/-- The same change, which meets the end of a task. -/
def meeting (task : TaskId) (change : Change) : Change := { change with met := some task }

/-- The same change of a larger work. -/
def within (context : Work → Work) (change : Change) : Change :=
  { change with work := context change.work }

end Change

/-- Begins a routine: its parameters get the parts of the argument. -/
def enter (routine : Routine) (argument : Value) : Change :=
  let events := [.entered routine.procedure.name]
  let begin (frame : Frame) : Change :=
    ⟨.body frame (.done (.ok .unit)) 0 routine.sequence, [], events, none⟩
  if routine.parameters.isEmpty then begin .empty
  else
    match argument.split routine.parameters.length with
    | .ok ⟨values, _⟩ => begin (.ofParameters routine.parameters values)
    | .error failure => ⟨.done (.error failure), [], events, none⟩

namespace Work

def value? : Work → Option Value
  | .done (.ok value) => some value
  | _ => none

def broken? : Work → Option Work
  | .broken defect => some (.broken defect)
  | _ => none

def failed? : Work → Option Work
  | .done (.error failure) => some (.done (.error failure))
  | .broken defect => some (.broken defect)
  | _ => none

/-- The most works that are gathered at once. -/
def gatheredAtOnce : Nat := 30

/-- What ends the gathering of works before all have values. Of more works than are gathered at
once, a failure ends it only when all works before it have values, and a defect at any time. -/
def spoiled? (members : List Work) : Option Work :=
  if members.length ≤ gatheredAtOnce then members.findSome? failed?
  else
    match members.findSome? broken? with
    | some defect => some defect
    | none => (members.dropWhile (·.value?.isSome)).head?.bind failed?

def ended? : Work → Option Work
  | .done outcome => some (.done outcome)
  | .broken defect => some (.broken defect)
  | _ => none

/-- The work after its end has been met. -/
def meet : Work → Work
  | .broken _ => .broken .met
  | work => work

mutual

/-- The moments that a work waits for. -/
def wakes : Work → List Nat
  | .sleep wake _ => [wake]
  | .fresh work => work.wakes
  | .after source _ => source.wakes
  | .gather _ members => wakesOfAll members
  | .body _ current _ _ => current.wakes
  | _ => []

def wakesOfAll : List Work → List Nat
  | [] => []
  | work :: works => work.wakes ++ wakesOfAll works

end

end Work

namespace Machine

def goOn (machine : Machine) (clock : Nat) (value : Value) : Continuation → Change
  | .pick names place =>
    match value.split names with
    | .ok ⟨values, h⟩ => .become (.done (.ok (values.get (place.cast h.symm))))
    | .error failure => .become (.done (.error failure))
  | .call callee =>
    match machine.library.get? callee with
    | some routine => enter routine value
    | none => .become (.broken (.missingRoutine callee))
  | .invoke primitive => perform primitive [.invoking primitive.name]
  | .join primitive => perform primitive []
where
  perform (primitive : Primitive) (events : List Event) : Change :=
    let response := primitive.action value
    let work := if response.delay = 0 then .done response.outcome
      else .sleep (clock + response.delay) response.outcome
    ⟨work, [], events ++ response.events, none⟩

/-- Begins the entry of that number; more entries follow it. -/
def begin (machine : Machine) (next : TaskId) (frame : Frame) (index : Nat) (entry : Entry)
    (entries : List Entry) : Change :=
  match (setUpEntry machine.registry index entries.isEmpty entry).run.run ⟨frame, next, [], []⟩ with
  | (.ok work, state) =>
    ⟨.body state.frame work (index + 1) entries, state.started, state.events, none⟩
  | (.error defect, state) => ⟨.broken defect, state.started, state.events, none⟩

/-- Checks a binding that no step has asked for, with the work of the task that gives its value:
other bindings and the result follow. -/
def settle (count : Nat) (bindings : List (TaskId × Nat)) (result : Value) : Work → Option Change
  | .done (.ok value) =>
    match value.split count with
    | .ok _ => some (.become (.settle bindings result))
    | .error failure => some (.finish (.error failure))
  | .done (.error failure) => some (.finish (.error failure))
  | .broken defect => some (.become (.broken defect))
  | _ => none

/-- The outcome of the first of two tasks that has one; its value becomes the only operand. -/
def race (left right : Option Work) : Option Work :=
  match left.bind Work.ended?, right.bind Work.ended? with
  | some winner, _ | none, some winner =>
    match winner with
    | .done (.ok value) => some (.done (.ok (.parallel [value])))
    | other => some other
  | none, none => none

mutual

/-- The next move of a work in a world. -/
def step? (machine : Machine) (world : World) : Work → Option Change
  | .done _ | .broken _ => none
  | .fresh work => some (.become work)
  | .wait task =>
    (world.tasks[task]?.bind Work.ended?).map fun ended => (Change.become ended).meeting task
  | .race left right => (race world.tasks[left]? world.tasks[right]?).map .become
  | .sleep wake outcome => if wake ≤ world.clock then some (.become (.done outcome)) else none
  | .after source next =>
    match source with
    | .done (.ok value) => some (machine.goOn world.clock value next)
    | .done (.error failure) => some (.become (.done (.error failure)))
    | .broken defect => some (.become (.broken defect))
    | _ => (step? machine world source).map (·.within (.after · next))
  | .gather shape members =>
    match Work.spoiled? members, members.mapM Work.value? with
    | some failed, _ => some (.become failed)
    | none, some values => some (.become (.done (.ok (shape.collect values))))
    | none, none => stepFirst? machine world (.gather shape) members
  | .body frame current index entries =>
    match current with
    | .done (.ok value) =>
      match entries with
      | [] => some (.become (.settle frame.unobserved value))
      | entry :: entries => some (machine.begin world.tasks.length frame index entry entries)
    | .done (.error failure) => some (.finish (.error failure))
    | .broken defect => some (.become (.broken defect))
    | _ => (step? machine world current).map (·.within (.body frame · index entries))
  | .settle [] result => some (.finish (.ok result))
  | .settle ((task, count) :: bindings) result =>
    (world.tasks[task]?.bind (settle count bindings result)).map (·.meeting task)

/-- The next move of works that stand in `context`: that of the first that can move. -/
def stepFirst? (machine : Machine) (world : World) (context : List Work → Work) :
    List Work → Option Change
  | [] => none
  | member :: members =>
    match step? machine world member with
    | some change => some (change.within fun work => context (work :: members))
    | none => stepFirst? machine world (fun later => context (member :: later)) members

end

def stepTask? (machine : Machine) (world : World) (task : TaskId) : Option Change :=
  world.tasks[task]?.bind (step? machine world)

/-- The first task of a queue that can move, its move, and the tasks after it. -/
def turn? (machine : Machine) (world : World) :
    List TaskId → Option (TaskId × Change × List TaskId)
  | [] => none
  | task :: queue =>
    match stepTask? machine world task with
    | some change => some (task, change, queue)
    | none => turn? machine world queue

def awake (machine : Machine) (world : World) : List TaskId :=
  (List.range world.tasks.length).filter fun task => (stepTask? machine world task).isSome

end Machine

namespace World

def start (routine : Routine) (argument : Value) : World :=
  let change := enter routine argument
  ⟨0, [change.work], [0], change.events.map (⟨0, ·⟩)⟩

/-- The world after a move of one of its tasks, which keeps the turn; the tasks of `queue` follow
it, and those that it starts. -/
def apply (world : World) (task : TaskId) (change : Change) (queue : List TaskId) : World where
  clock := world.clock
  tasks :=
    let tasks := world.tasks.set task change.work
    (change.met.elim tasks fun met => tasks.modify met Work.meet) ++ change.started
  queue := task :: queue ++ List.range' world.tasks.length change.started.length
  log := world.log ++ change.events.map (⟨world.clock, ·⟩)

/-- Puts into the queue what can move and has no turn, beside the run itself. -/
def enqueue (machine : Machine) (world : World) : World :=
  let woken := (machine.awake world).filter fun task => task != 0 && !world.queue.contains task
  { world with queue := world.queue ++ woken }

/-- The next moment that a work waits for. -/
def wake? (world : World) : Option Nat := (Work.wakesOfAll world.tasks).min?

/-- The world after a turn; the end of a task may let others move. -/
def afterTurn (machine : Machine) (world : World) :
    TaskId × Change × List TaskId → World
  | (task, change, queue) =>
    let next := world.apply task change queue
    if change.work.ended?.isSome then next.enqueue machine else next

/-- The next state of a run; `none` if nothing will happen any more. -/
def step? (machine : Machine) (world : World) : Option World :=
  match machine.turn? world world.queue with
  | some turn => some (world.afterTurn machine turn)
  | none =>
    match machine.turn? world (machine.awake world) with
    | some turn => some (world.afterTurn machine turn)
    | none => world.wake?.map fun wake => { world with clock := wake, queue := [] }

def outcome? (world : World) : Option (Except Defect Outcome) :=
  match world.tasks with
  | .done outcome :: _ => some (.ok outcome)
  | .broken defect :: _ => some (.error defect)
  | _ => none

end World

end Runbook
