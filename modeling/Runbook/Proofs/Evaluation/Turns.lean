import Runbook.Proofs.Evaluation.Invocation

/-!
The order of turns.

The agenda of a world lists the tasks that can move, in the order in which they will have their
turns if no other gets ready before. A move takes the first of them, and leaves the order of the
others as it is. Behind these come the tasks that are started, then those that have become ready,
and the run itself last.
-/
namespace Runbook

/-- Tasks that are started have still to begin. -/
def SetUp.Upkeep.freshly (registry : Registry) : Upkeep registry where
  holds state := ∀ work ∈ state.started, ∃ inner, work = .fresh inner
  grows _ _ := True
  fits _ _ := True
  known _ _ := True
  refl _ := trivial
  trans _ _ := trivial
  fits_later _ _ := trivial
  known_later _ _ := trivial
  report _ fresh := ⟨fresh, trivial⟩
  start fresh _ := ⟨List.forall_mem_append.mpr
    ⟨fresh, List.forall_mem_singleton.mpr ⟨_, rfl⟩⟩, trivial, trivial⟩
  register _ _ _ fresh _ := ⟨List.forall_mem_append.mpr
    ⟨fresh, List.forall_mem_singleton.mpr ⟨_, rfl⟩⟩, trivial, trivial⟩
  read fresh _ := ⟨fresh, trivial, trivial⟩
  done _ _ := trivial
  wait _ := trivial
  after _ _ := trivial
  gather _ _ _ := trivial
  await _ _ _ _ _ := trivial

variable {machine : Machine} {world next : World}

/-- The tasks that a move starts have still to begin. -/
theorem Moves.started_fresh {work : Work} {change : Change} (moves : Moves machine world work change) :
    ∀ work ∈ change.started, ∃ inner, work = .fresh inner := by
  induction moves with
  | source _ ih => exact ih
  | member _ ih => exact ih
  | current _ ih => exact ih
  | goOn =>
      rw [goOn_started]
      exact List.forall_mem_nil _
  | @begin frame value index entry entries =>
      let keeping := SetUp.Upkeep.freshly machine.registry
      have vacant : keeping.holds ⟨frame, world.tasks.length, [], []⟩ := List.forall_mem_nil _
      obtain ⟨result, state, run, fresh, _⟩ :=
        SetUp.setUpEntry_keeps keeping index entries.isEmpty entry vacant
      rw [Machine.begin, run]
      cases result with
      | error defect => exact fresh
      | ok work => exact fresh
  | settle _ settles =>
      rcases settle_cases settles with rfl | ⟨ended, events, _, rfl⟩
      · exact List.forall_mem_nil _
      · exact List.forall_mem_nil _
  | _ => exact List.forall_mem_nil _

namespace Machine

theorem race_eq_none {left right : Option Work} :
    race left right = none ↔ left.bind Work.ended? = none ∧ right.bind Work.ended? = none := by
  constructor
  · intro still
    rw [race] at still
    split at still
    · split at still <;> cases still
    · split at still <;> cases still
    · exact ⟨‹_›, ‹_›⟩
  · intro going
    rw [race, going.1, going.2]

theorem stepFirst?_still {members : List Work} {context : List Work → Work}
    (still : ∀ member ∈ members, step? machine world member = none) :
    stepFirst? machine world context members = none := by
  induction members generalizing context with
  | nil => rfl
  | cons member members ih =>
      rw [List.forall_mem_cons] at still
      rw [stepFirst?, still.1]
      exact ih still.2

mutual

/-- A work that can move still can when more tasks have ended and more moments have come. -/
theorem step?_still (ends : ∀ task : TaskId, next.tasks[task]?.bind Work.ended? = none →
      world.tasks[task]?.bind Work.ended? = none) (come : world.clock ≤ next.clock) :
    ∀ work : Work, step? machine next work = none → step? machine world work = none
  | .done _, _ | .broken _, _ => rfl
  | .fresh _, still => by cases still
  | .wait task, still => by
      rw [step?, Option.map_eq_none_iff] at still ⊢
      exact ends task still
  | .race left right, still => by
      rw [step?, Option.map_eq_none_iff, race_eq_none] at still ⊢
      exact ⟨ends left still.1, ends right still.2⟩
  | .sleep wake outcome, still => by
      rw [step?] at still ⊢
      split at still
      · cases still
      · exact if_neg fun past => absurd (Nat.le_trans past come) ‹_›
  | .after source after, still => by
      obtain ⟨going, part⟩ := step?_after_eq_none still
      rw [step?_after after going, step?_still ends come source part]
      rfl
  | .gather shape members, still => by
      have parts := stepAll_still ends come members (step?_gather_eq_none still).2
      rw [step?] at still ⊢
      split at still
      · cases still
      · cases still
      · exact stepFirst?_still parts
  | .body frame current index entries, still => by
      obtain ⟨going, part⟩ := step?_body_eq_none still
      rw [step?_body frame index entries going, step?_still ends come current part]
      rfl
  | .settle [] result, still => by
      rw [step?] at still
      cases still
  | .settle ((task, count) :: bindings) result, still => by
      have waits : next.tasks[task]?.bind Work.ended? = none := by
        rw [step?, Option.map_eq_none_iff, Option.bind_eq_none_iff] at still
        rw [Option.bind_eq_none_iff]
        exact fun work there => settle_eq_none (still work there)
      have waited := ends task waits
      rw [step?, Option.map_eq_none_iff]
      rw [Option.bind_eq_none_iff] at waited ⊢
      intro work there
      have going := waited work there
      cases work with
      | done outcome => cases going
      | broken defect => cases going
      | _ => rfl

theorem stepAll_still (ends : ∀ task : TaskId, next.tasks[task]?.bind Work.ended? = none →
      world.tasks[task]?.bind Work.ended? = none) (come : world.clock ≤ next.clock) :
    ∀ works : List Work, (∀ work ∈ works, step? machine next work = none) →
      ∀ work ∈ works, step? machine world work = none
  | [], _ => List.forall_mem_nil _
  | work :: works, still => by
      rw [List.forall_mem_cons] at still
      exact List.forall_mem_cons.mpr
        ⟨step?_still ends come work still.1, stepAll_still ends come works still.2⟩

end

end Machine

/-- Can the task move? -/
def Machine.ready (machine : Machine) (world : World) (task : TaskId) : Bool :=
  (machine.stepTask? world task).isSome

theorem Machine.mem_awake_iff {task : TaskId} :
    task ∈ machine.awake world ↔ machine.ready world task = true := mem_awake

namespace World

variable {task : TaskId} {work : Work} {change : Change}

theorem bind_ended?_goes (goes : world.Goes machine next) (other : TaskId)
    (going : next.tasks[other]?.bind Work.ended? = none) :
    world.tasks[other]?.bind Work.ended? = none := by
  rw [Option.bind_eq_none_iff] at going ⊢
  intro work there
  cases ends : work.ended? with
  | none => rfl
  | some ended =>
      obtain rfl := Machine.ended?_eq ends
      rcases goes.ended there ends with later | later
      · exact absurd (going _ later) (ends ▸ Option.some_ne_none _)
      · have going := going _ later
        cases ended with
        | broken defect => cases going
        | done outcome => cases going
        | _ => cases ends

/-- While the work that moves has not ended, no other task ends. -/
theorem bind_ended?_move (moves : Moves machine world work change)
    (same : next.tasks = world.tasksAfter task change)
    (going : change.work.ended? = none) (other : TaskId)
    (before : world.tasks[other]?.bind Work.ended? = none) :
    next.tasks[other]?.bind Work.ended? = none := by
  have unmet {found work : Work} (met : found = work ∨ found = work.meet)
      (going : work.ended? = none) : found.ended? = none := by
    rcases met with rfl | rfl
    · exact going
    · cases work with
      | done outcome => cases going
      | broken defect => cases going
      | _ => rfl
  rw [Option.bind_eq_none_iff] at before ⊢
  intro found later
  rw [same] at later
  obtain ⟨origin, met, origins⟩ := getElem?_tasksAfter later
  rcases origins with ⟨_, rfl⟩ | ⟨_, stays⟩ | ⟨index, _, starts⟩
  · exact unmet met going
  · exact unmet met (before origin stays)
  · obtain ⟨inner, rfl⟩ := moves.started_fresh origin (List.mem_of_getElem? starts)
    exact unmet met rfl

/-- Another task has the same work after a move, unless it has ended. -/
theorem getElem?_stays {other : TaskId} {found : Work} (differs : other ≠ task)
    (same : next.tasks = world.tasksAfter task change) (there : world.tasks[other]? = some found)
    (going : found.ended? = none) : next.tasks[other]? = some found := by
  have below : other < next.tasks.length := by
    rw [same, length_tasksAfter]
    exact Nat.lt_add_right _ (List.getElem?_eq_some_iff.mp there).1
  obtain ⟨after, later⟩ : ∃ after, next.tasks[other]? = some after :=
    ⟨_, List.getElem?_eq_getElem below⟩
  rw [later]
  rw [same] at later
  obtain ⟨origin, met, origins⟩ := getElem?_tasksAfter later
  rcases origins with ⟨moved, _⟩ | ⟨_, stays⟩ | ⟨index, starts, _⟩
  · exact absurd moved differs
  · obtain rfl := Option.some.inj (stays.symm.trans there)
    rcases met with same | same
    · rw [same]
    · rw [same]
      cases origin with
      | broken defect => cases going
      | _ => rfl
  · rw [starts] at there
    exact absurd (List.getElem?_eq_some_iff.mp there).1 (Nat.not_lt_of_le (Nat.le_add_right _ _))

theorem ready_below {other : TaskId} (ready : machine.ready world other = true) :
    other < world.tasks.length :=
  List.mem_range.mp (List.mem_filter.mp (Machine.mem_awake_iff.mpr ready)).1

theorem ready_going {other : TaskId} (ready : machine.ready world other = true) :
    world.tasks[other]?.bind Work.ended? = none := by
  rw [Machine.ready, Machine.stepTask?] at ready
  rw [Option.bind_eq_none_iff]
  intro found there
  rw [there, Option.bind_some] at ready
  cases found with
  | done outcome => cases ready
  | broken defect => cases ready
  | _ => rfl

/-- What another task waits for is what tells if it can move after a move. -/
theorem ready_move (machine : Machine) {other : TaskId} {found : Work} (differs : other ≠ task)
    (same : next.tasks = world.tasksAfter task change) (there : world.tasks[other]? = some found)
    (going : found.ended? = none) :
    machine.ready world other = (Machine.step? machine world found).isSome ∧
      machine.ready next other = (Machine.step? machine next found).isSome := by
  rw [Machine.ready, Machine.ready, Machine.stepTask?, Machine.stepTask?, there,
    getElem?_stays differs same there going]
  exact ⟨rfl, rfl⟩

theorem isSome_of_still {one other : Option Change} (still : other = none → one = none)
    (moves : one.isSome) : other.isSome := by
  cases other with
  | none =>
      rw [still rfl] at moves
      cases moves
  | some change => rfl

/-- A task that can move still can after a move of another one. -/
theorem ready_stays {other : TaskId} (goes : world.Goes machine next)
    (same : next.tasks = world.tasksAfter task change) (clock : next.clock = world.clock)
    (differs : other ≠ task) (ready : machine.ready world other = true) :
    machine.ready next other = true := by
  have going := ready_going ready
  cases there : world.tasks[other]? with
  | none =>
      rw [Machine.ready, Machine.stepTask?, there] at ready
      cases ready
  | some found =>
      rw [there, Option.bind_some] at going
      obtain ⟨before, after⟩ := ready_move machine differs same there going
      rw [before] at ready
      rw [after]
      exact isSome_of_still (Machine.step?_still (bind_ended?_goes goes) (Nat.le_of_eq clock.symm)
        found) ready

/-- While the work that moves has not ended, no other task gets ready. -/
theorem ready_before {other : TaskId} (goes : world.Goes machine next)
    (moves : Moves machine world work change) (same : next.tasks = world.tasksAfter task change)
    (clock : next.clock = world.clock) (going : change.work.ended? = none) (differs : other ≠ task)
    (old : other < world.tasks.length) (ready : machine.ready next other = true) :
    machine.ready world other = true := by
  obtain ⟨found, there⟩ : ∃ found, world.tasks[other]? = some found :=
    ⟨_, List.getElem?_eq_getElem old⟩
  have unfinished := bind_ended?_goes goes other (ready_going ready)
  rw [there, Option.bind_some] at unfinished
  obtain ⟨before, after⟩ := ready_move machine differs same there unfinished
  rw [after] at ready
  rw [before]
  exact isSome_of_still (Machine.step?_still (bind_ended?_move moves same going)
    (Nat.le_of_eq clock) found) ready

/-- A task that has just been started can move. -/
theorem ready_started {other : TaskId} (there : world.tasks[task]? = some work)
    (moves : Moves machine world work change) (same : next.tasks = world.tasksAfter task change)
    (fresh : world.tasks.length ≤ other) (below : other < next.tasks.length) :
    machine.ready next other = true := by
  obtain ⟨after, later⟩ : ∃ after, next.tasks[other]? = some after :=
    ⟨_, List.getElem?_eq_getElem below⟩
  rw [Machine.ready, Machine.stepTask?, later, Option.bind_some]
  rw [same] at later
  obtain ⟨origin, met, origins⟩ := getElem?_tasksAfter later
  rcases origins with ⟨moved, _⟩ | ⟨_, stays⟩ | ⟨index, _, starts⟩
  · rw [moved] at fresh
    exact absurd (List.getElem?_eq_some_iff.mp there).1 (Nat.not_lt_of_le fresh)
  · exact absurd (List.getElem?_eq_some_iff.mp stays).1 (Nat.not_lt_of_le fresh)
  · obtain ⟨inner, rfl⟩ := moves.started_fresh origin (List.mem_of_getElem? starts)
    rcases met with rfl | rfl
    · rfl
    · rfl

/-- The tasks that can move, in the order of their turns. -/
def agenda (machine : Machine) (world : World) : List TaskId :=
  world.queue.filter (machine.ready world) ++
    (machine.awake world).filter fun task => !world.queue.contains task

/-- The queue holds what can move, but for the task that has moved last, and the run itself only if
it has. -/
structure Orderly (machine : Machine) (world : World) : Prop where
  follow : ∀ task ∈ world.queue.tail, machine.ready world task = true ∧ task ≠ 0
  queued : world.queue ≠ [] → ∀ task, machine.ready world task = true → task ≠ 0 →
    task ∈ world.queue
  distinct : world.queue.Nodup

theorem mem_agenda {task : TaskId} :
    task ∈ world.agenda machine ↔ machine.ready world task = true := by
  rw [agenda, List.mem_append, List.mem_filter, List.mem_filter, Machine.mem_awake_iff,
    Bool.not_eq_true', List.contains_eq_mem, decide_eq_false_iff_not]
  by_cases queued : task ∈ world.queue
  · simp only [queued, true_and, not_true, and_false, or_false]
  · simp only [queued, false_and, not_false_eq_true, and_true, false_or]

theorem nodup_awake (machine : Machine) (world : World) : (machine.awake world).Nodup :=
  List.nodup_range.filter _

theorem Orderly.nodup_agenda (orderly : world.Orderly machine) : (world.agenda machine).Nodup := by
  refine (orderly.distinct.filter _).append ((nodup_awake machine world).filter _) ?_
  intro task first second
  have queued := (List.mem_filter.mp first).1
  have unqueued := (List.mem_filter.mp second).2
  rw [Bool.not_eq_true', List.contains_eq_mem, decide_eq_false_iff_not] at unqueued
  exact unqueued queued

/-- The first task of a queue that can move has its turn. -/
theorem turn?_eq (machine : Machine) (world : World) (queue : List TaskId) :
    machine.turn? world queue = none ∧ queue.filter (machine.ready world) = [] ∨
      ∃ task change before rest, machine.turn? world queue = some (task, change, rest) ∧
        queue = before ++ task :: rest ∧ machine.stepTask? world task = some change ∧
        queue.filter (machine.ready world) = task :: rest.filter (machine.ready world) := by
  induction queue with
  | nil => exact .inl ⟨rfl, rfl⟩
  | cons first queue ih =>
      rw [Machine.turn?, List.filter_cons, Machine.ready]
      cases moved : machine.stepTask? world first with
      | some change => exact .inr ⟨first, change, [], queue, rfl, rfl, moved, rfl⟩
      | none =>
          rcases ih with none | ⟨task, change, before, rest, found, same, moves, ready⟩
          · exact .inl none
          · exact .inr ⟨task, change, first :: before, rest, found, congrArg (first :: ·) same,
              moves, ready⟩

/-- What comes after a world: the first task of the agenda moves, or the clock does. -/
inductive Turns (machine : Machine) (world : World) : Option World → Prop
  | move {task change rest} : world.agenda machine = task :: rest →
      machine.stepTask? world task = some change →
      (0 ∈ rest → rest = rest.filter (· ≠ 0) ++ [0]) →
      Turns machine world (some (world.afterTurn machine (task, change, rest.filter (· ≠ 0))))
  | tick : world.agenda machine = [] →
      Turns machine world (world.wake?.map fun wake => { world with clock := wake, queue := [] })

theorem filter_ready_awake (machine : Machine) (world : World) :
    (machine.awake world).filter (machine.ready world) = machine.awake world :=
  List.filter_eq_self.mpr fun _ inside => Machine.mem_awake_iff.mp inside

theorem eq_singleton_of_nodup {tasks : List TaskId} {task : TaskId} (nodup : tasks.Nodup)
    (all : ∀ other ∈ tasks, other = task) (inside : task ∈ tasks) : tasks = [task] := by
  cases tasks with
  | nil => cases inside
  | cons first tasks =>
      rw [List.forall_mem_cons] at all
      rw [all.1] at nodup ⊢
      cases tasks with
      | nil => rfl
      | cons second tasks =>
          rw [all.2 second List.mem_cons_self] at nodup
          exact absurd List.mem_cons_self (List.nodup_cons.mp nodup).1

theorem Orderly.step? (orderly : world.Orderly machine) :
    Turns machine world (world.step? machine) := by
  have unqueued {task : TaskId} (late : task ∈ (machine.awake world).filter
      fun task => !world.queue.contains task) :
      machine.ready world task = true ∧ task ∉ world.queue := by
    obtain ⟨ready, absent⟩ := List.mem_filter.mp late
    rw [Bool.not_eq_true', List.contains_eq_mem, decide_eq_false_iff_not] at absent
    exact ⟨Machine.mem_awake_iff.mp ready, absent⟩
  rw [World.step?]
  rcases turn?_eq machine world world.queue with
    ⟨none, stuck⟩ | ⟨task, change, before, rest, found, same, moves, ready⟩
  · have whole : world.agenda machine = machine.awake world := by
      rw [agenda, stuck, List.nil_append, List.filter_eq_self]
      intro task inside
      rw [Bool.not_eq_true', List.contains_eq_mem, decide_eq_false_iff_not]
      intro queued
      have none := List.filter_eq_nil_iff.mp stuck task queued
      exact none (Machine.mem_awake_iff.mp inside)
    rw [none]
    rcases turn?_eq machine world (machine.awake world) with
      ⟨none, empty⟩ | ⟨task, change, before, rest, found, same, moves, ready⟩
    · rw [filter_ready_awake] at empty
      rw [none]
      exact .tick (whole.trans empty)
    · have all : rest.filter (machine.ready world) = rest := by
        refine List.filter_eq_self.mpr fun other inside => Machine.mem_awake_iff.mp ?_
        rw [same]
        exact List.mem_append_right _ (List.mem_cons_of_mem _ inside)
      rw [filter_ready_awake, all] at ready
      -- the run itself would be the first of all
      have nonzero : ∀ other ∈ rest, other ≠ 0 := by
        have sorted := (@List.pairwise_lt_range world.tasks.length).filter (machine.ready world)
        change (machine.awake world).Pairwise (· < ·) at sorted
        rw [ready, List.pairwise_cons] at sorted
        exact fun other inside => Nat.ne_of_gt (Nat.lt_of_le_of_lt (Nat.zero_le _)
          (sorted.1 other inside))
      have turn : Turns machine world
          (some (world.afterTurn machine (task, change, rest.filter (· ≠ 0)))) :=
        .move (whole.trans ready) moves fun zero => absurd rfl (nonzero 0 zero)
      rw [List.filter_eq_self.mpr fun other inside => decide_eq_true (nonzero other inside)] at turn
      rw [found]
      exact turn
  · have follows : ∀ other ∈ rest, machine.ready world other = true ∧ other ≠ 0 := by
      intro other inside
      refine orderly.follow other ?_
      rw [same]
      cases before with
      | nil => exact inside
      | cons first before => exact List.mem_append_right _ (List.mem_cons_of_mem _ inside)
    have occupied : world.queue ≠ [] := by
      rw [same]
      exact List.append_ne_nil_of_right_ne_nil _ (List.cons_ne_nil _ _)
    have late : ∀ other ∈ (machine.awake world).filter fun task => !world.queue.contains task,
        other = 0 := by
      intro other inside
      obtain ⟨ready, absent⟩ := unqueued inside
      by_contra differs
      exact absent (orderly.queued occupied other ready differs)
    have nodup : ((machine.awake world).filter fun task => !world.queue.contains task).Nodup :=
      (nodup_awake machine world).filter _
    generalize whole : (machine.awake world).filter (fun task => !world.queue.contains task) = last
      at late nodup
    have agenda : world.agenda machine = task :: (rest ++ last) := by
      rw [agenda, ready, List.filter_eq_self.mpr fun other inside => (follows other inside).1, whole]
      rfl
    have first : (rest ++ last).filter (· ≠ 0) = rest := by
      rw [List.filter_append, List.filter_eq_self.mpr fun other inside =>
        decide_eq_true (follows other inside).2, List.filter_eq_nil_iff.mpr, List.append_nil]
      intro other inside
      rw [late other inside]
      decide
    have turn : Turns machine world
        (some (world.afterTurn machine (task, change, (rest ++ last).filter (· ≠ 0)))) := by
      refine .move agenda moves fun zero => ?_
      rw [first]
      rcases List.mem_append.mp zero with inside | inside
      · exact absurd rfl (follows 0 inside).2
      · rw [eq_singleton_of_nodup nodup late inside]
    rw [first] at turn
    rw [found]
    exact turn

/-- Which tasks can move is a matter of the tasks and the clock. -/
theorem ready_congr (tasks : next.tasks = world.tasks) (clock : next.clock = world.clock)
    (other : TaskId) : machine.ready next other = machine.ready world other := by
  have ends (task : TaskId) : next.tasks[task]?.bind Work.ended? =
      world.tasks[task]?.bind Work.ended? := by rw [tasks]
  rw [Machine.ready, Machine.ready, Machine.stepTask?, Machine.stepTask?, tasks]
  cases world.tasks[other]? with
  | none => rfl
  | some found =>
      rw [Option.bind_some, Option.bind_some, Bool.eq_iff_iff]
      constructor
      · exact isSome_of_still (Machine.step?_still (fun task => (ends task).trans)
          (Nat.le_of_eq clock) found)
      · exact isSome_of_still (Machine.step?_still (fun task => (ends task).symm.trans)
          (Nat.le_of_eq clock.symm) found)

/-- The tasks that become ready by the move of another one. -/
def woken (machine : Machine) (world next : World) (task : TaskId) : List TaskId :=
  (List.range world.tasks.length).filter fun other =>
    machine.ready next other && !machine.ready world other && other != 0 && other != task

section
variable {rest : List TaskId}

/-- A move of the first task of the agenda, and what is known of the world after it. -/
structure Move (machine : Machine) (world next : World) (task : TaskId) (work : Work)
    (change : Change) (rest : List TaskId) : Prop where
  agenda : world.agenda machine = task :: rest
  there : world.tasks[task]? = some work
  moved : machine.step? world work = some change
  last : 0 ∈ rest → rest = rest.filter (· ≠ 0) ++ [0]
  becomes : next = world.afterTurn machine (task, change, rest.filter (· ≠ 0))

namespace Move

theorem moves (move : Move machine world next task work change rest) :
    Moves machine world work change := Machine.step?_moves work move.moved

theorem tasks (move : Move machine world next task work change rest) :
    next.tasks = world.tasksAfter task change := by
  rw [move.becomes]
  exact (afterTurn_eq machine world task change _).2

theorem clock (move : Move machine world next task work change rest) :
    next.clock = world.clock := by
  rw [move.becomes]
  exact (afterTurn_eq machine world task change _).1

theorem goes (move : Move machine world next task work change rest) : world.Goes machine next :=
  .move move.there move.moves move.clock move.tasks

theorem length (move : Move machine world next task work change rest) :
    next.tasks.length = world.tasks.length + change.started.length := by
  rw [move.tasks, length_tasksAfter]

theorem below (move : Move machine world next task work change rest) :
    task < world.tasks.length := (List.getElem?_eq_some_iff.mp move.there).1

/-- One task moves in a step. -/
theorem same {other : TaskId} {work' : Work} {change' : Change} {rest' : List TaskId}
    (move : Move machine world next task work change rest)
    (again : Move machine world next other work' change' rest') : task = other :=
  (List.cons.inj (move.agenda.symm.trans again.agenda)).1

theorem fresh (move : Move machine world next task work change rest)
    (orderly : world.Orderly machine) : task ∉ rest := by
  have nodup := orderly.nodup_agenda
  rw [move.agenda] at nodup
  exact (List.nodup_cons.mp nodup).1

theorem mem_rest (move : Move machine world next task work change rest) {other : TaskId}
    (differs : other ≠ task) : other ∈ rest ↔ machine.ready world other = true := by
  rw [← mem_agenda, move.agenda, List.mem_cons]
  simp only [differs, false_or]

theorem rest_below (move : Move machine world next task work change rest) {other : TaskId}
    (listed : other ∈ rest) : other < world.tasks.length := by
  have among : other ∈ world.agenda machine := by
    rw [move.agenda]
    exact List.mem_cons_of_mem _ listed
  exact ready_below (mem_agenda.mp among)

theorem queue (move : Move machine world next task work change rest) :
    next.queue = task :: rest.filter (· ≠ 0) ++
      List.range' world.tasks.length change.started.length ++ woken machine world next task := by
  have tasks := move.tasks
  have clock := move.clock
  cases ends : change.work.ended?.isSome with
  | false =>
      have going : change.work.ended? = none := by
        rw [← Option.not_isSome_iff_eq_none, ends]
        exact Bool.false_ne_true
      have none : woken machine world next task = [] := by
        rw [woken, List.filter_eq_nil_iff]
        intro other below wakes
        simp only [Bool.and_eq_true, Bool.not_eq_true', bne_iff_ne, ne_eq] at wakes
        obtain ⟨⟨⟨ready, asleep⟩, _⟩, differs⟩ := wakes
        rw [ready_before move.goes move.moves tasks clock going differs (List.mem_range.mp below)
          ready] at asleep
        cases asleep
      rw [none, List.append_nil, move.becomes, afterTurn, ends]
      rfl
  | true =>
      let applied := world.apply task change (rest.filter (· ≠ 0))
      have ready (other : TaskId) : machine.ready applied other = machine.ready next other := by
        refine ready_congr ?_ ?_ other
        · exact tasks.symm
        · exact clock.symm
      have length : applied.tasks.length = world.tasks.length + change.started.length :=
        length_tasksAfter task change
      have enqueued : next.queue = applied.queue ++ (machine.awake applied).filter
          fun other => other != 0 && !applied.queue.contains other := by
        rw [move.becomes, afterTurn, ends]
        rfl
      rw [enqueued]
      refine congrArg (applied.queue ++ ·) ?_
      rw [woken, Machine.awake, length, List.range_add, List.filter_append, List.filter_append,
        List.filter_filter]
      have none : (((List.range change.started.length).map (world.tasks.length + ·)).filter
          fun other => (machine.stepTask? applied other).isSome).filter
            (fun other => other != 0 && !applied.queue.contains other) = [] := by
        refine List.filter_eq_nil_iff.mpr fun other inside => ?_
        obtain ⟨index, below, rfl⟩ := List.mem_map.mp (List.mem_filter.mp inside).1
        have queued : world.tasks.length + index ∈ applied.queue := by
          refine List.mem_append_right _ (List.mem_range'_1.mpr ⟨Nat.le_add_right _ _, ?_⟩)
          exact Nat.add_lt_add_left (List.mem_range.mp below) _
        simp only [List.contains_eq_mem, queued, decide_true, Bool.not_true, Bool.and_false,
          Bool.false_eq_true, not_false_eq_true]
      rw [none, List.append_nil]
      refine List.filter_congr fun other inside => ?_
      have old : other ∉ List.range' world.tasks.length change.started.length := by
        intro fresh
        exact Nat.not_lt_of_le (List.mem_range'_1.mp fresh).1 (List.mem_range.mp inside)
      have queued : other ∈ applied.queue ↔ other = task ∨ other ∈ rest ∧ other ≠ 0 := by
        change other ∈ task :: rest.filter (· ≠ 0) ++ _ ↔ _
        simp only [List.mem_append, old, or_false, List.mem_cons, List.mem_filter, decide_eq_true_eq]
      rw [Bool.eq_iff_iff]
      simp only [Bool.and_eq_true, Bool.not_eq_true', bne_iff_ne, ne_eq, List.contains_eq_mem,
        decide_eq_false_iff_not, queued]
      have stands : (machine.stepTask? applied other).isSome = machine.ready next other := ready other
      rw [stands]
      by_cases differs : other = task
      · simp only [differs, true_or, not_true, and_false, false_and]
      · rw [move.mem_rest differs, ← Bool.not_eq_true]
        tauto

theorem mem_woken {other : TaskId} : other ∈ woken machine world next task ↔
    other < world.tasks.length ∧ machine.ready next other = true ∧
      machine.ready world other = false ∧ other ≠ 0 ∧ other ≠ task := by
  simp only [woken, List.mem_filter, List.mem_range, Bool.and_eq_true, Bool.not_eq_true',
    bne_iff_ne, ne_eq, and_assoc]

/-- What has its turn after the task that has moved. -/
theorem follows (move : Move machine world next task work change rest)
    (orderly : world.Orderly machine) :
    ∀ other ∈ rest.filter (· ≠ 0) ++ List.range' world.tasks.length change.started.length ++
      woken machine world next task, machine.ready next other = true ∧ other ≠ 0 := by
  intro other inside
  rcases List.mem_append.mp inside with inside | wakes
  · rcases List.mem_append.mp inside with stays | starts
    · obtain ⟨stays, nonzero⟩ := List.mem_filter.mp stays
      have differs : other ≠ task := fun same => move.fresh orderly (same ▸ stays)
      exact ⟨ready_stays move.goes move.tasks move.clock differs ((move.mem_rest differs).mp stays),
        of_decide_eq_true nonzero⟩
    · obtain ⟨fresh, below⟩ := List.mem_range'_1.mp starts
      rw [← move.length] at below
      exact ⟨ready_started move.there move.moves move.tasks fresh below,
        Nat.ne_of_gt (Nat.lt_of_lt_of_le (Nat.zero_lt_of_lt move.below) fresh)⟩
  · obtain ⟨_, ready, _, nonzero, _⟩ := mem_woken.mp wakes
    exact ⟨ready, nonzero⟩

theorem queued (move : Move machine world next task work change rest) {other : TaskId}
    (ready : machine.ready next other = true) (nonzero : other ≠ 0) : other ∈ next.queue := by
  have below := ready_below ready
  rw [move.queue]
  by_cases differs : other = task
  · rw [differs]
    exact List.mem_append_left _ (List.mem_append_left _ List.mem_cons_self)
  · rcases Nat.lt_or_ge other world.tasks.length with old | fresh
    · cases before : machine.ready world other with
      | true =>
          refine List.mem_append_left _ (List.mem_append_left _ (List.mem_cons_of_mem _ ?_))
          exact List.mem_filter.mpr ⟨(move.mem_rest differs).mpr before, decide_eq_true nonzero⟩
      | false =>
          exact List.mem_append_right _ (mem_woken.mpr ⟨old, ready, before, nonzero, differs⟩)
    · refine List.mem_append_left _ (List.mem_append_right _ (List.mem_range'_1.mpr ⟨fresh, ?_⟩))
      rw [← move.length]
      exact below

theorem orderly (move : Move machine world next task work change rest)
    (before : world.Orderly machine) : next.Orderly machine := by
  refine ⟨?_, fun _ other ready nonzero => move.queued ready nonzero, ?_⟩
  · rw [move.queue, List.append_assoc, List.cons_append, List.tail_cons, ← List.append_assoc]
    exact move.follows before
  · have nodup := before.nodup_agenda
    rw [move.agenda, List.nodup_cons] at nodup
    rw [move.queue]
    refine List.Nodup.append (List.Nodup.append ?_ List.nodup_range' ?_)
      (List.nodup_range.filter _) ?_
    · refine List.nodup_cons.mpr ⟨fun inside => nodup.1 (List.mem_filter.mp inside).1, ?_⟩
      exact nodup.2.filter _
    · intro other first second
      refine absurd ?_ (Nat.not_lt_of_le (List.mem_range'_1.mp second).1)
      rcases List.mem_cons.mp first with rfl | stays
      · exact move.below
      · exact move.rest_below (List.mem_filter.mp stays).1
    · intro other first second
      obtain ⟨old, _, asleep, _, differs⟩ := mem_woken.mp second
      rcases List.mem_append.mp first with inside | fresh
      · rcases List.mem_cons.mp inside with same | stays
        · exact differs same
        · rw [(move.mem_rest differs).mp (List.mem_filter.mp stays).1] at asleep
          cases asleep
      · exact Nat.not_lt_of_le (List.mem_range'_1.mp fresh).1 old

/-- The agenda after a move: the task that has moved, those that followed it, those that are
started, and those that have become ready; the run itself comes last unless it has moved. -/
theorem agenda_next (move : Move machine world next task work change rest)
    (orderly : world.Orderly machine) :
    next.agenda machine = [task].filter (machine.ready next) ++
      (rest.filter (· ≠ 0) ++ List.range' world.tasks.length change.started.length ++
        woken machine world next task) ++
      [0].filter fun other => machine.ready next other && task != 0 := by
  have follows := move.follows orderly
  rw [World.agenda]
  refine congrArg₂ (fun first last : List TaskId => first ++ last) ?_ ?_
  · rw [move.queue, List.append_assoc, List.cons_append, ← List.singleton_append,
      List.filter_append, ← List.append_assoc,
      List.filter_eq_self.mpr fun other inside => (follows other inside).1]
  · have late : ∀ other, other ∈ (machine.awake next).filter (fun other =>
        !next.queue.contains other) ↔ other = 0 ∧ machine.ready next 0 = true ∧ task ≠ 0 := by
      intro other
      rw [List.mem_filter, Machine.mem_awake_iff, Bool.not_eq_true', List.contains_eq_mem,
        decide_eq_false_iff_not]
      constructor
      · intro inside
        obtain ⟨ready, absent⟩ := inside
        have zero : other = 0 := by
          by_contra nonzero
          exact absent (move.queued ready nonzero)
        rw [zero] at ready absent
        refine ⟨zero, ready, fun same => absent ?_⟩
        rw [move.queue, same]
        exact List.mem_append_left _ (List.mem_append_left _ List.mem_cons_self)
      · intro known
        obtain ⟨rfl, ready, nonzero⟩ := known
        refine ⟨ready, fun inside => ?_⟩
        rw [move.queue, List.append_assoc, List.cons_append, List.mem_cons, ← List.append_assoc]
          at inside
        rcases inside with same | inside
        · exact nonzero same.symm
        · exact (follows 0 inside).2 rfl
    by_cases runs : machine.ready next 0 = true ∧ task ≠ 0
    · rw [eq_singleton_of_nodup ((nodup_awake machine next).filter _)
        (fun other inside => ((late other).mp inside).1) ((late 0).mpr ⟨rfl, runs⟩)]
      simp only [List.filter_cons, runs.1, bne_iff_ne, ne_eq, runs.2, not_false_eq_true,
        if_true, List.filter_nil, Bool.true_and]
    · rw [List.eq_nil_iff_forall_not_mem.mpr fun other inside => runs ((late other).mp inside).2]
      refine (List.filter_eq_nil_iff.mpr fun other inside wakes => runs ?_).symm
      rw [List.mem_singleton.mp inside, Bool.and_eq_true, bne_iff_ne] at wakes
      exact wakes

/-- A task after a move of another one, or one that is started. -/
theorem getElem?_next (move : Move machine world next task work change rest) {other : TaskId}
    {found : Work} (differs : other ≠ task)
    (there : (world.tasks ++ change.started)[other]? = some found) :
    next.tasks[other]? = some found ∨ next.tasks[other]? = some found.meet := by
  have below : other < next.tasks.length := by
    rw [move.length, ← List.length_append]
    exact (List.getElem?_eq_some_iff.mp there).1
  obtain ⟨after, later⟩ : ∃ after, next.tasks[other]? = some after :=
    ⟨_, List.getElem?_eq_getElem below⟩
  rw [later]
  rw [move.tasks] at later
  obtain ⟨origin, met, origins⟩ := getElem?_tasksAfter later
  have same : origin = found := by
    rcases origins with ⟨moved, _⟩ | ⟨_, stays⟩ | ⟨index, rfl, starts⟩
    · exact absurd moved differs
    · rw [List.getElem?_append_left (List.getElem?_eq_some_iff.mp stays).1] at there
      exact Option.some.inj (stays.symm.trans there)
    · rw [List.getElem?_append_right (Nat.le_add_right _ _), Nat.add_sub_cancel_left] at there
      exact Option.some.inj (starts.symm.trans there)
  rw [← same]
  exact met.imp (congrArg some) (congrArg some)

/-- The task that has moved. -/
theorem getElem?_moved (move : Move machine world next task work change rest) :
    next.tasks[task]? = some change.work ∨ next.tasks[task]? = some change.work.meet := by
  have below : task < next.tasks.length := by
    rw [move.length]
    exact Nat.lt_add_right _ move.below
  obtain ⟨after, later⟩ : ∃ after, next.tasks[task]? = some after :=
    ⟨_, List.getElem?_eq_getElem below⟩
  rw [later]
  rw [move.tasks] at later
  obtain ⟨origin, met, origins⟩ := getElem?_tasksAfter later
  have same : origin = change.work := by
    rcases origins with ⟨_, moved⟩ | ⟨differs, _⟩ | ⟨index, fresh, _⟩
    · exact moved
    · exact absurd rfl differs
    · exact absurd move.below (Nat.not_lt_of_le (fresh ▸ Nat.le_add_right _ _))
  rw [← same]
  exact met.imp (congrArg some) (congrArg some)

/-- Of some tasks, which can move after the move if they could before, the order is not touched by
the move of another one. -/
theorem agenda_stray {mine : TaskId → Bool}
    (move : Move machine world next task work change rest) (orderly : world.Orderly machine)
    (stray : mine task = false) (old : ∀ other, world.tasks.length ≤ other → mine other = false)
    (same : ∀ other, mine other = true → machine.ready next other = machine.ready world other) :
    (next.agenda machine).filter mine = (world.agenda machine).filter mine := by
  have started : (List.range' world.tasks.length change.started.length).filter mine = [] := by
    refine List.filter_eq_nil_iff.mpr fun other inside => ?_
    rw [old other (List.mem_range'_1.mp inside).1]
    exact Bool.false_ne_true
  have wakes : (woken machine world next task).filter mine = [] := by
    refine List.filter_eq_nil_iff.mpr fun other inside among => ?_
    obtain ⟨_, ready, asleep, _⟩ := mem_woken.mp inside
    rw [← same other among, ready] at asleep
    cases asleep
  have moved : ([task].filter (machine.ready next)).filter mine = [] := by
    refine List.filter_eq_nil_iff.mpr fun other inside => ?_
    rw [List.mem_singleton.mp (List.mem_filter.mp inside).1, stray]
    exact Bool.false_ne_true
  have last : (rest.filter (· ≠ 0)).filter mine ++ ([0].filter fun other =>
      machine.ready next other && task != 0).filter mine = rest.filter mine := by
    by_cases queued : 0 ∈ rest
    · have differs : task ≠ 0 := fun zero => move.fresh orderly (zero ▸ queued)
      have ready := (move.mem_rest differs.symm).mp queued
      conv_rhs => rw [move.last queued, List.filter_append]
      refine congrArg₂ (fun first last : List TaskId => first ++ last) rfl ?_
      rw [List.filter_comm]
      cases among : mine 0 with
      | false => simp only [List.filter_cons, among, Bool.false_eq_true, if_false, List.filter_nil]
      | true => simp only [List.filter_cons, among, same 0 among, ready, Bool.true_and, bne_iff_ne,
          ne_eq, differs, not_false_eq_true, if_true, List.filter_nil]
    · have all : rest.filter (· ≠ 0) = rest := by
        refine List.filter_eq_self.mpr fun other inside => decide_eq_true ?_
        exact fun zero => queued (zero ▸ inside)
      have none : ([0].filter fun other => machine.ready next other && task != 0).filter mine =
          [] := by
        refine List.filter_eq_nil_iff.mpr fun other inside among => ?_
        obtain ⟨zero, moves⟩ := List.mem_filter.mp inside
        rw [List.mem_singleton.mp zero] at moves among
        rw [same 0 among, Bool.and_eq_true, bne_iff_ne] at moves
        exact queued ((move.mem_rest (Ne.symm moves.2)).mpr moves.1)
      rw [all, none, List.append_nil]
  rw [move.agenda_next orderly, move.agenda, List.filter_append, List.filter_append,
    List.filter_append, List.filter_append, started, wakes, moved, List.append_nil, List.append_nil,
    List.nil_append, last, List.filter_cons, stray]
  rfl

theorem log (move : Move machine world next task work change rest) :
    next.log = world.log ++ change.events.map (⟨world.clock, ·⟩) := by
  rw [move.becomes, afterTurn]
  split
  · rfl
  · rfl

end Move

end

/-- The clock moves, because no task can. -/
structure Tick (machine : Machine) (world next : World) : Prop where
  asleep : world.agenda machine = []
  wakes : world.wake? = some next.clock
  becomes : next = { world with clock := next.clock, queue := [] }

theorem Tick.tasks (tick : Tick machine world next) : next.tasks = world.tasks := by
  rw [tick.becomes]

theorem Tick.not_move {rest : List TaskId} (tick : Tick machine world next) :
    ¬Move machine world next task work change rest :=
  fun move => List.cons_ne_nil _ _ (move.agenda.symm.trans tick.asleep)

theorem Tick.log (tick : Tick machine world next) : next.log = world.log := by
  rw [tick.becomes]

theorem Tick.orderly (tick : Tick machine world next) : next.Orderly machine := by
  have empty : next.queue = [] := by rw [tick.becomes]
  refine ⟨?_, fun occupied => absurd empty occupied, ?_⟩
  · rw [empty]
    exact List.forall_mem_nil _
  · rw [empty]
    exact .nil

theorem Tick.agenda_next (tick : Tick machine world next) :
    next.agenda machine = machine.awake next := by
  have empty : next.queue = [] := by rw [tick.becomes]
  rw [World.agenda, empty]
  exact List.filter_eq_self.mpr fun _ _ => rfl

/-- The moments that works wait for are to come, if none of them can move. -/
theorem wakes_later (asleep : world.agenda machine = []) {other : TaskId} {found : Work}
    (there : world.tasks[other]? = some found) {moment : Nat} (wakes : moment ∈ found.wakes) :
    world.clock < moment := by
  by_contra past
  have due := @Machine.due machine world moment (Nat.le_of_not_lt past) found wakes
  have ready : machine.ready world other = true := by
    rw [Machine.ready, Machine.stepTask?, there, Option.bind_some]
    exact Option.isSome_iff_ne_none.mpr due
  have listed := mem_agenda.mpr ready
  rw [asleep] at listed
  cases listed

theorem Tick.later (tick : Tick machine world next) : world.clock < next.clock := by
  obtain ⟨work, inside, moment⟩ := Work.mem_wakesOfAll.mp (List.min?_mem tick.wakes)
  obtain ⟨task, there⟩ := List.mem_iff_getElem?.mp inside
  exact wakes_later tick.asleep there moment

/-- The clock moves to the first of the moments. -/
theorem Tick.first (tick : Tick machine world next) {other : TaskId} {found : Work}
    (there : world.tasks[other]? = some found) {moment : Nat} (wakes : moment ∈ found.wakes) :
    next.clock ≤ moment := by
  have among : moment ∈ Work.wakesOfAll world.tasks :=
    Work.mem_wakesOfAll.mpr ⟨found, List.mem_of_getElem? there, wakes⟩
  exact (List.min?_eq_some_iff.mp tick.wakes).2 moment among

/-- One step of a run is a move of the first task of the agenda, or of the clock. -/
theorem Orderly.cases (orderly : world.Orderly machine) (stepped : world.step? machine = some next) :
    (∃ task work change rest, Move machine world next task work change rest) ∨
      Tick machine world next := by
  have turns := orderly.step?
  rw [stepped] at turns
  generalize same : some next = result at turns
  cases turns with
  | @move task change rest agenda moved last =>
      obtain ⟨work, there, moved⟩ := Option.bind_eq_some_iff.mp moved
      exact .inl ⟨task, work, change, rest, agenda, there, moved, last, Option.some.inj same⟩
  | tick asleep =>
      obtain ⟨wake, wakes, rfl⟩ := Option.map_eq_some_iff.mp same.symm
      exact .inr ⟨asleep, wakes, rfl⟩

theorem Orderly.later (orderly : world.Orderly machine) (stepped : world.step? machine = some next) :
    next.Orderly machine := by
  rcases orderly.cases stepped with ⟨task, work, change, rest, move⟩ | tick
  · exact move.orderly orderly
  · exact tick.orderly

/-- While a task can move, a run goes on. -/
theorem Orderly.goes_on (orderly : world.Orderly machine) (awake : world.agenda machine ≠ []) :
    ∃ next task work change rest, world.step? machine = some next ∧
      Move machine world next task work change rest := by
  have turns := orderly.step?
  generalize same : world.step? machine = result at turns
  cases turns with
  | @move task change rest agenda moved last =>
      obtain ⟨work, there, moved⟩ := Option.bind_eq_some_iff.mp moved
      exact ⟨_, task, work, change, rest, rfl, agenda, there, moved, last, rfl⟩
  | tick asleep => exact absurd asleep awake

/-- A step of a run in which none of those tasks moves. -/
structure Aside (machine : Machine) (tasks : List Nat) (world next : World) : Prop where
  stepped : world.step? machine = some next
  stray : ∀ {task : TaskId} {work : Work} {change : Change} {rest : List TaskId},
    Move machine world next task work change rest → task ∉ tasks

theorem Move.aside {rest : List TaskId} {tasks : List Nat}
    (move : Move machine world next task work change rest)
    (stepped : world.step? machine = some next) (stray : task ∉ tasks) :
    Aside machine tasks world next := by
  refine ⟨stepped, fun {other work change rest} again => ?_⟩
  rw [again.same move]
  exact stray

theorem Tick.aside (tick : Tick machine world next) (stepped : world.step? machine = some next)
    (tasks : List Nat) : Aside machine tasks world next :=
  ⟨stepped, fun move => absurd move tick.not_move⟩

theorem start_orderly (routine : Routine) (argument : Value) :
    (World.start routine argument).Orderly machine where
  follow := List.forall_mem_nil _
  queued _ task ready nonzero := by
    have below := ready_below ready
    exact absurd (Nat.lt_one_iff.mp below) nonzero
  distinct := List.nodup_singleton 0

theorem Orderly.reaches (orderly : world.Orderly machine) (reaches : world.Reaches machine next) :
    next.Orderly machine := by
  induction reaches with
  | refl => exact orderly
  | tail _ stepped ih => exact ih.later stepped

end World

end Runbook
