import Runbook.Proofs.Evaluation.Mirrored
import Runbook.Proofs.Evaluation.Translated

/-!
Two runs in tandem.

A run follows another in tandem if it makes a step for each step of the other, some time later, and
tells the same then. Its report is that of the other, as far as it is heard: later, and after what
was told before. For runs whose tasks have the same numbers it is enough to tie the works of each
task together: ties that moves keep are kept by the runs.
-/
namespace Runbook

/-- What is logged, that much later. -/
def Logged.later (late : Nat) (logged : Logged) : Logged := ⟨logged.ms + late, logged.event⟩

/-- The report of a run that begins when something has been told already, at that moment. -/
def Report.after (told : List Logged) (late : Nat) (report : Report) : Report :=
  ⟨report.outcome, report.elapsed + late, told ++ report.log.map (Logged.later late)⟩

/-- What a world is heard to report, up to `drain` milliseconds after its outcome. -/
def World.report? (machine : Machine) (drain fuel more : Nat) (world : World) :
    Option (Option Report) :=
  (world.toOutcome? machine fuel).map fun found => found.1.toOption.map fun outcome =>
    ⟨outcome, found.2.clock, heard (found.2.toMoment machine (found.2.clock + drain) more).log⟩

/-- Whatever one of two runs does, the other does as well, that much later. -/
structure Tandem (machine machine' : Machine) (told : List Logged) (late : Nat)
    (same : World → World → Prop) : Prop where
  step : ∀ {world other}, same world other →
    Option.Rel same (world.step? machine) (other.step? machine')
  clock : ∀ {world other}, same world other → other.clock = world.clock + late
  result : ∀ {world other}, same world other → other.result? = world.result?
  log : ∀ {world other}, same world other →
    heard other.log = told ++ (heard world.log).map (Logged.later late)

namespace Tandem

variable {machine machine' : Machine} {told : List Logged} {late : Nat} {same : World → World → Prop}
  {world other last : World}

theorem toOutcome? (tandem : Tandem machine machine' told late same) (fuel : Nat)
    (here : same world other) :
    Option.Rel (fun one two => two.1.toOption = one.1.toOption ∧ same one.2 two.2)
      (world.toOutcome? machine fuel) (other.toOutcome? machine' fuel) := by
  induction fuel generalizing world other with
  | zero => exact .none
  | succ fuel ih =>
      have result := tandem.result here
      have step := tandem.step here
      rw [World.result?, World.result?] at result
      rw [World.toOutcome?, World.toOutcome?]
      cases first : world.outcome? with
      | some one =>
          rw [first] at result
          obtain ⟨two, second, ends⟩ := Option.map_eq_some_iff.mp result
          rw [second]
          exact .some ⟨ends, here⟩
      | none =>
          rw [first, Option.map_none, Option.map_eq_none_iff] at result
          rw [result]
          generalize world.step? machine = one at step ⊢
          generalize other.step? machine' = two at step ⊢
          cases step with
          | none => exact .none
          | some later => exact ih later

theorem toMoment (tandem : Tandem machine machine' told late same) (limit fuel : Nat)
    (here : same world other) :
    same (world.toMoment machine limit fuel) (other.toMoment machine' (limit + late) fuel) := by
  induction fuel generalizing world other with
  | zero => exact here
  | succ fuel ih =>
      have step := tandem.step here
      rw [World.toMoment, World.toMoment]
      generalize world.step? machine = one at step ⊢
      generalize other.step? machine' = two at step ⊢
      cases step with
      | none => exact here
      | some later =>
          dsimp only
          simp only [tandem.clock later, Nat.add_lt_add_iff_right]
          split
          · exact here
          · exact ih later

/-- The one run reports what the other does, later and after what was told before. -/
theorem report? (tandem : Tandem machine machine' told late same) (drain fuel more : Nat)
    (here : same world other) :
    other.report? machine' drain fuel more =
      (world.report? machine drain fuel more).map (Option.map (Report.after told late)) := by
  have outcomes := tandem.toOutcome? fuel here
  rw [World.report?, World.report?]
  generalize world.toOutcome? machine fuel = one at outcomes ⊢
  generalize other.toOutcome? machine' fuel = two at outcomes ⊢
  cases outcomes with
  | none => rfl
  | @some one two found =>
      obtain ⟨ends, there⟩ := found
      rw [Option.map_some, Option.map_some, Option.map_some, ends]
      cases one.1.toOption with
      | none => rfl
      | some outcome =>
          have clock := tandem.clock there
          have log := tandem.log (tandem.toMoment (one.2.clock + drain) more there)
          rw [Nat.add_right_comm, ← clock] at log
          rw [Option.map_some, Option.map_some, Option.map_some, Report.after, log, clock]

/-- Each world that the one run comes to goes with one that the other comes to. -/
theorem reaches (tandem : Tandem machine machine' told late same) (here : same world other)
    (reaches : other.Reaches machine' last) :
    ∃ first, world.Reaches machine first ∧ same first last := by
  induction reaches with
  | refl => exact ⟨world, .refl, here⟩
  | tail _ stepped ih =>
      obtain ⟨first, before, there⟩ := ih
      have step := tandem.step there
      rw [stepped] at step
      cases taken : first.step? machine with
      | none =>
          rw [taken] at step
          cases step
      | some next =>
          rw [taken] at step
          cases step with
          | some later => exact ⟨next, before.tail taken, later⟩

end Tandem

/-- Which works of two runs go together, as those of the task of that number. -/
abbrev Ties := TaskId → Work → Work → Prop

/-- The works of all tasks go together. -/
def Ties.All (ties : Ties) (works others : List Work) : Prop :=
  ∀ task : TaskId, Option.Rel (ties task) works[task]? others[task]?

/-- Changes after which the works of the task go together, and of the tasks from `next` on. -/
structure Change.Tied (ties : Ties) (task next : TaskId) (change other : Change) : Prop where
  work : ties task change.work other.work
  started : ∀ index : Nat,
    Option.Rel (ties (next + index)) change.started[index]? other.started[index]?
  told : told other.events = told change.events
  met : other.met = change.met

/-- Turns in which the same task changes, and after which the same ones are queued. -/
inductive Ties.Turns (ties : Ties) (next : TaskId) :
    TaskId × Change × List TaskId → TaskId × Change × List TaskId → Prop
  | intro {task change change' queue} : Change.Tied ties task next change change' →
      Turns ties next (task, change, queue) (task, change', queue)

/-- Two worlds in which the works of all tasks go together. -/
structure World.Tied (ties : Ties) (told : List Logged) (late : Nat) (world other : World) :
    Prop where
  clock : other.clock = world.clock + late
  queue : other.queue = world.queue
  tasks : ties.All world.tasks other.tasks
  log : heard other.log = told ++ (heard world.log).map (Logged.later late)

/-- Works that go together have ended or not, can move or not, and wait for the same moments; and
they stay together when a defect is met. -/
structure Ties.Sound (ties : Ties) (machine machine' : Machine) (told : List Logged) (late : Nat) :
    Prop where
  ended? : ∀ {task one two}, ties task one two → two.ended? = one.ended?
  wakes : ∀ {task one two}, ties task one two → two.wakes = one.wakes.map (· + late)
  meet : ∀ {task one two}, ties task one two → ties task one.meet two.meet
  moves : ∀ {world other task one two}, World.Tied ties told late world other → task ≠ 0 →
    world.tasks[task]? = some one → ties task one two →
    (machine'.step? other two).isSome = (machine.step? world one).isSome

/-- Ties that tasks beside the run itself keep, move by move. -/
structure Ties.Lawful (ties : Ties) (machine machine' : Machine) (told : List Logged) (late : Nat) :
    Prop where
  ended? : ∀ {task one two}, ties task one two → two.ended? = one.ended?
  wakes : ∀ {task one two}, ties task one two → two.wakes = one.wakes.map (· + late)
  meet : ∀ {task one two}, ties task one two → ties task one.meet two.meet
  beside : ∀ {world other task one two}, World.Tied ties told late world other → task ≠ 0 →
    world.tasks[task]? = some one → ties task one two →
    Option.Rel (Change.Tied ties task world.tasks.length) (machine.step? world one)
      (machine'.step? other two)

theorem rel_isSome {α β : Type} {same : α → β → Prop} {one : Option α} {two : Option β}
    (moves : Option.Rel same one two) : two.isSome = one.isSome := by
  cases moves with
  | none => rfl
  | some _ => rfl

theorem Ties.Lawful.sound {ties : Ties} {machine machine' : Machine} {told : List Logged}
    {late : Nat} (lawful : ties.Lawful machine machine' told late) :
    ties.Sound machine machine' told late where
  ended? := lawful.ended?
  wakes := lawful.wakes
  meet := lawful.meet
  moves tied beside there same := rel_isSome (lawful.beside tied beside there same)

namespace Ties.All

variable {ties : Ties} {works others started started' : List Work} {one two : Work} {task : TaskId}

theorem length_eq (all : ties.All works others) : others.length = works.length := by
  have bound {first second : List Work} (same : ∀ task : Nat,
      first[task]? = none → second[task]? = none) : second.length ≤ first.length := by
    rw [← List.getElem?_eq_none_iff]
    exact same _ (List.getElem?_eq_none_iff.mpr (Nat.le_refl _))
  refine Nat.le_antisymm (bound fun task none => ?_) (bound fun task none => ?_)
  · have tied := all task
    rw [none] at tied
    generalize others[task]? = found at tied ⊢
    cases tied
    rfl
  · have tied := all task
    rw [none] at tied
    generalize works[task]? = found at tied ⊢
    cases tied
    rfl

/-- To each of the one works there is one of the others. -/
theorem other (all : ties.All works others) (there : works[task]? = some one) :
    ∃ two, others[task]? = some two ∧ ties task one two := by
  have tied := all task
  rw [there] at tied
  generalize others[task]? = found at tied ⊢
  cases tied with
  | some tied => exact ⟨_, rfl, tied⟩

/-- To each of the others there is one of the one works. -/
theorem former (all : ties.All works others) (there : others[task]? = some two) :
    ∃ one, works[task]? = some one ∧ ties task one two := by
  have tied := all task
  rw [there] at tied
  generalize works[task]? = found at tied ⊢
  cases tied with
  | some tied => exact ⟨_, rfl, tied⟩

/-- A task has ended among the one works as it has among the others. -/
theorem ends (all : ties.All works others)
    (same : ∀ {task one two}, ties task one two → two.ended? = one.ended?) (task : TaskId) :
    others[task]?.bind Work.ended? = works[task]?.bind Work.ended? := by
  have tied := all task
  generalize works[task]? = one at tied ⊢
  generalize others[task]? = two at tied ⊢
  cases tied with
  | none => rfl
  | some tied => exact same tied

theorem set (all : ties.All works others) (tied : ties task one two) :
    ties.All (works.set task one) (others.set task two) := by
  intro other
  rw [List.getElem?_set, List.getElem?_set, all.length_eq]
  split
  · rename_i same
    rw [← same]
    split
    · exact .some tied
    · exact .none
  · exact all other

theorem modify {f : Work → Work} (all : ties.All works others)
    (keeps : ∀ {task one two}, ties task one two → ties task (f one) (f two)) (met : TaskId) :
    ties.All (works.modify met f) (others.modify met f) := by
  intro task
  rw [List.getElem?_modify, List.getElem?_modify]
  refine Machine.rel_map (all task) fun tied => ?_
  by_cases here : met = task
  · simp only [if_pos here]
    exact keeps tied
  · simp only [if_neg here]
    exact tied

theorem append (all : ties.All works others)
    (more : ∀ index : Nat,
      Option.Rel (ties (works.length + index)) started[index]? started'[index]?) :
    ties.All (works ++ started) (others ++ started') := by
  intro task
  rw [List.getElem?_append, List.getElem?_append, all.length_eq]
  split
  · exact all task
  · have rest := more (task - works.length)
    rw [Nat.add_sub_cancel' (Nat.le_of_not_lt ‹_›)] at rest
    exact rest

theorem wakes {late : Nat} (all : ties.All works others)
    (same : ∀ {task one two}, ties task one two → two.wakes = one.wakes.map (· + late)) :
    Work.wakesOfAll others = (Work.wakesOfAll works).map (· + late) := by
  induction works generalizing ties others with
  | nil =>
      rw [List.length_eq_zero_iff.mp all.length_eq]
      rfl
  | cons work works ih =>
      cases others with
      | nil => cases all.length_eq
      | cons other others =>
          have rest := @ih (fun task => ties (task + 1)) others (fun task => all (task + 1)) same
          have first := all 0
          rw [List.getElem?_cons_zero, List.getElem?_cons_zero] at first
          cases first with
          | some tied => rw [Work.wakesOfAll, Work.wakesOfAll, same tied, rest, List.map_append]

end Ties.All

namespace World.Tied

variable {ties : Ties} {machine machine' : Machine} {told : List Logged} {late : Nat}
  {world other : World} {task : TaskId} {change change' : Change}

theorem outcome? (sound : ties.Sound machine machine' told late)
    (tied : Tied ties told late world other) :
    other.outcome? = world.outcome? := by
  have first := tied.tasks 0
  obtain ⟨_, works, _, _⟩ := world
  obtain ⟨_, others, _, _⟩ := other
  cases works with
  | nil =>
      cases others with
      | nil => rfl
      | cons two others => cases first
  | cons one works =>
      cases others with
      | nil => cases first
      | cons two others =>
          cases first with
          | some tied =>
              have same := sound.ended? tied
              cases ended : one.ended? with
              | none =>
                  exact (outcome?_eq_none rfl (same.trans ended)).trans
                    (outcome?_eq_none rfl ended).symm
              | some work =>
                  obtain rfl := Machine.ended?_eq ended
                  obtain rfl := Machine.ended?_eq (same.trans ended)
                  cases work <;> rfl

/-- Tasks that change together are tied after it. -/
theorem tasksAfter (sound : ties.Sound machine machine' told late)
    (tied : Tied ties told late world other)
    (changes : Change.Tied ties task world.tasks.length change change') :
    ties.All (world.tasksAfter task change) (other.tasksAfter task change') := by
  have moved := tied.tasks.set changes.work
  rw [World.tasksAfter, World.tasksAfter, changes.met]
  cases change.met with
  | none =>
      refine moved.append fun index => ?_
      rw [List.length_set]
      exact changes.started index
  | some met =>
      refine (moved.modify sound.meet met).append fun index => ?_
      rw [List.length_modify, List.length_set]
      exact changes.started index

theorem apply (sound : ties.Sound machine machine' told late)
    (tied : Tied ties told late world other)
    (changes : Change.Tied ties task world.tasks.length change change') (queue : List TaskId) :
    Tied ties told late (world.apply task change queue) (other.apply task change' queue) := by
  have tasks := tied.tasksAfter sound changes
  have all : Ties.All (fun index => ties (world.tasks.length + index)) change.started
      change'.started := changes.started
  have started : change'.started.length = change.started.length := all.length_eq
  refine ⟨tied.clock, ?_, tasks, ?_⟩
  · rw [World.apply, World.apply, started, tied.tasks.length_eq]
  · change heard (other.log ++ _) = told ++ (heard (world.log ++ _)).map _
    rw [heard_append, heard_append, tied.log, List.map_append, List.append_assoc, heard_map,
      heard_map, changes.told, tied.clock, List.map_map]
    rfl

/-- Tied works that make tied changes are moved alike. -/
theorem stepTask? (tied : Tied ties told late world other)
    (moves : ∀ {one two}, world.tasks[task]? = some one → ties task one two →
      Option.Rel (Change.Tied ties task world.tasks.length) (machine.step? world one)
        (machine'.step? other two)) :
    Option.Rel (Change.Tied ties task world.tasks.length) (machine.stepTask? world task)
      (machine'.stepTask? other task) := by
  have works := tied.tasks task
  rw [Machine.stepTask?, Machine.stepTask?]
  cases there : world.tasks[task]? with
  | none =>
      rw [there] at works
      generalize other.tasks[task]? = two at works ⊢
      cases works
      exact .none
  | some work =>
      rw [there] at works
      generalize other.tasks[task]? = two at works ⊢
      cases works with
      | some ties => exact moves there ties

theorem turn? (moves : ∀ task, Option.Rel (Change.Tied ties task world.tasks.length)
      (machine.stepTask? world task) (machine'.stepTask? other task)) (queue : List TaskId) :
    Option.Rel (ties.Turns world.tasks.length) (machine.turn? world queue)
      (machine'.turn? other queue) := by
  induction queue with
  | nil => exact .none
  | cons task queue ih =>
      have here := moves task
      rw [Machine.turn?, Machine.turn?]
      generalize machine.stepTask? world task = one at here ⊢
      generalize machine'.stepTask? other task = two at here ⊢
      cases here with
      | none => exact ih
      | some changes => exact .some (.intro changes)

/-- The same tasks can move, among those that do so in tied works. -/
theorem stepTask?_isSome (tied : Tied ties told late world other)
    (moves : ∀ {one two}, world.tasks[task]? = some one → ties task one two →
      (machine'.step? other two).isSome = (machine.step? world one).isSome) :
    (machine'.stepTask? other task).isSome = (machine.stepTask? world task).isSome := by
  have works := tied.tasks task
  rw [Machine.stepTask?, Machine.stepTask?]
  cases there : world.tasks[task]? with
  | none =>
      rw [there] at works
      generalize other.tasks[task]? = two at works ⊢
      cases works
      rfl
  | some work =>
      rw [there] at works
      generalize other.tasks[task]? = two at works ⊢
      cases works with
      | some ties => exact moves there ties

theorem awake_eq (tied : Tied ties told late world other)
    (moves : ∀ task, (machine'.stepTask? other task).isSome =
      (machine.stepTask? world task).isSome) :
    machine'.awake other = machine.awake world := by
  rw [Machine.awake, Machine.awake, tied.tasks.length_eq]
  exact List.filter_congr fun task _ => moves task

section
variable (sound : ties.Sound machine machine' told late)
include sound

theorem wake?_eq (tied : Tied ties told late world other) :
    other.wake? = world.wake?.map (· + late) := by
  rw [World.wake?, World.wake?, tied.tasks.wakes sound.wakes, min?_later]

theorem enqueue (tied : Tied ties told late world other) :
    Tied ties told late (world.enqueue machine) (other.enqueue machine') := by
  refine ⟨tied.clock, ?_, tied.tasks, tied.log⟩
  rw [World.enqueue, World.enqueue, Machine.awake, Machine.awake, tied.tasks.length_eq, tied.queue,
    List.filter_filter, List.filter_filter]
  refine congrArg (world.queue ++ ·) (List.filter_congr fun task _ => ?_)
  by_cases run : task = 0
  · rw [run]
    rfl
  · rw [tied.stepTask?_isSome (sound.moves tied run)]

theorem afterTurn (tied : Tied ties told late world other)
    {turn turn' : TaskId × Change × List TaskId} (turns : ties.Turns world.tasks.length turn turn') :
    Tied ties told late (world.afterTurn machine turn) (other.afterTurn machine' turn') := by
  cases turns with
  | @intro task change change' queue changes =>
      have next := tied.apply sound changes queue
      rw [World.afterTurn, World.afterTurn, sound.ended? changes.work]
      split
      · exact next.enqueue sound
      · exact next

end

section
variable (lawful : ties.Lawful machine machine' told late)
include lawful

/-- If the run itself keeps the ties, so do both worlds. -/
theorem step? (tied : Tied ties told late world other)
    (run : ∀ one two, world.tasks[0]? = some one → ties 0 one two →
      Option.Rel (Change.Tied ties 0 world.tasks.length) (machine.step? world one)
        (machine'.step? other two)) :
    Option.Rel (Tied ties told late) (world.step? machine) (other.step? machine') := by
  have moves (task : TaskId) : Option.Rel (Change.Tied ties task world.tasks.length)
      (machine.stepTask? world task) (machine'.stepTask? other task) := by
    by_cases first : task = 0
    · rw [first]
      exact tied.stepTask? fun there tied => run _ _ there tied
    · exact tied.stepTask? (lawful.beside tied first)
  have awake := tied.awake_eq fun task => rel_isSome (moves task)
  have wake := tied.wake?_eq lawful.sound
  have queued := turn? moves world.queue
  have woken := turn? moves (machine.awake world)
  rw [World.step?, World.step?, tied.queue, awake, wake]
  generalize machine.turn? world world.queue = one at queued ⊢
  generalize machine'.turn? other world.queue = two at queued ⊢
  cases queued with
  | some turns => exact .some (tied.afterTurn lawful.sound turns)
  | none =>
      generalize machine.turn? world (machine.awake world) = one at woken ⊢
      generalize machine'.turn? other (machine.awake world) = two at woken ⊢
      cases woken with
      | some turns => exact .some (tied.afterTurn lawful.sound turns)
      | none =>
          cases world.wake? with
          | none => exact .none
          | some moment => exact .some ⟨rfl, rfl, tied.tasks, tied.log⟩

end

end World.Tied

/-- Runs whose works are tied are in tandem, in worlds where the run itself keeps the ties. -/
theorem Ties.Lawful.tandem {ties : Ties} {machine machine' : Machine} {told : List Logged}
    {late : Nat} (lawful : ties.Lawful machine machine' told late) {allowed : World → Prop}
    (stays : ∀ {world next : World}, allowed world → world.step? machine = some next → allowed next)
    (run : ∀ {world other one two}, allowed world → World.Tied ties told late world other →
      world.tasks[0]? = some one → ties 0 one two →
      Option.Rel (Change.Tied ties 0 world.tasks.length) (machine.step? world one)
        (machine'.step? other two)) :
    Tandem machine machine' told late fun world other =>
      allowed world ∧ World.Tied ties told late world other where
  step := by
    intro world other here
    obtain ⟨holds, tied⟩ := here
    have step := tied.step? lawful fun one two there ties => run holds tied there ties
    cases stepped : world.step? machine with
    | none =>
        rw [stepped] at step
        generalize other.step? machine' = two at step ⊢
        cases step
        exact .none
    | some next =>
        rw [stepped] at step
        generalize other.step? machine' = two at step ⊢
        cases step with
        | some later => exact .some ⟨stays holds stepped, later⟩
  clock here := here.2.clock
  result here := congrArg (Option.map Except.toOption) (here.2.outcome? lawful.sound)
  log here := here.2.log

/-! Runs that differ in the work of the run itself. -/

namespace Machine

variable {machine : Machine} {world other : World}

/-- What a work does is told by the clock, the number of tasks, and those that have ended. -/
theorem step?_congr (clock : other.clock = world.clock)
    (count : other.tasks.length = world.tasks.length)
    (ends : ∀ task : TaskId,
      other.tasks[task]?.bind Work.ended? = world.tasks[task]?.bind Work.ended?) (work : Work) :
    step? machine other work = step? machine world work := by
  have works : Work.translate (.delaying 0) = id := funext Work.translate_delaying_zero
  have changes : Change.translate (.delaying 0) = id := by
    funext change
    rw [Change.translate, works, funext (Event.translate_delaying 0), List.map_id, List.map_id']
    rfl
  have worlds : world.Translates (.delaying 0) other := ⟨clock, count, fun task => by
    rw [ends, works, Option.map_id, id]⟩
  have moves := step?_translate (machine.translates_delaying 0) worlds work
  rwa [works, changes, Option.map_id] at moves

end Machine

/-- Only the works of the run itself differ. -/
def Ties.ofRun (same : Work → Work → Prop) : Ties
  | 0, one, two => same one two
  | _ + 1, one, two => two = one

section
variable {same : Work → Work → Prop} {machine : Machine} {told : List Logged}
  {world other : World}

/-- Other tasks go on in the same way, and what they start does too. -/
theorem Ties.ofRun_started (works : List Work) {next : Nat} (positive : 0 < next) (index : Nat) :
    Option.Rel (Ties.ofRun same (next + index)) works[index]? works[index]? := by
  obtain ⟨before, rfl⟩ := Nat.exists_eq_add_of_lt positive
  rw [Nat.zero_add, Nat.add_right_comm]
  cases works[index]? with
  | none => exact .none
  | some work => exact .some rfl

theorem Ties.ofRun_ended? (ends : ∀ {one two}, same one two → two.ended? = one.ended?)
    {task : TaskId} {one two : Work} (tied : Ties.ofRun same task one two) :
    two.ended? = one.ended? := by
  cases task with
  | zero => exact ends tied
  | succ task => exact congrArg Work.ended? tied

/-- No work takes notice of what only the run itself is about. -/
theorem World.Tied.unaware (ends : ∀ {one two}, same one two → two.ended? = one.ended?)
    (tied : World.Tied (.ofRun same) told 0 world other) (work : Work) :
    Machine.step? machine other work = Machine.step? machine world work :=
  Machine.step?_congr tied.clock tied.tasks.length_eq (tied.tasks.ends (Ties.ofRun_ended? ends)) work

theorem Ties.ofRun_lawful (ends : ∀ {one two}, same one two → two.ended? = one.ended?)
    (wakes : ∀ {one two}, same one two → two.wakes = one.wakes)
    (meet : ∀ {one two}, same one two → same one.meet two.meet) :
    (Ties.ofRun same).Lawful machine machine told 0 where
  ended? := ofRun_ended? ends
  wakes := by
    intro task one two tied
    have still : one.wakes.map (· + 0) = one.wakes := List.map_id _
    rw [still]
    cases task with
    | zero => exact wakes tied
    | succ task => exact congrArg Work.wakes tied
  meet := by
    intro task one two tied
    cases task with
    | zero => exact meet tied
    | succ task => exact congrArg Work.meet tied
  beside := by
    intro world other task one two tied beside there same
    cases task with
    | zero => exact absurd rfl beside
    | succ task =>
        cases same
        have positive := Nat.zero_lt_of_lt (List.getElem?_eq_some_iff.mp there).1
        rw [tied.unaware ends]
        cases Machine.step? machine world one with
        | none => exact .none
        | some change => exact .some ⟨rfl, ofRun_started change.started positive, rfl, rfl⟩

end

end Runbook
