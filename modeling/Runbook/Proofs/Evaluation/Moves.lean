import Runbook.Evaluation.Report
import Mathlib.Logic.Relation

/-!
What can happen in one step of a run.

`Moves` has one rule for each way in which a work goes on. A world goes on by a move of one of its
tasks or, when none can move, by its clock; whose turn it is does not matter to what is proved of
all moves.
-/
namespace Runbook

/-- The change is a move of the work in the world. -/
inductive Moves (machine : Machine) (world : World) : Work → Change → Prop
  | fresh {work} : Moves machine world (.fresh work) (.become work)
  | wait {task ended} : world.tasks[task]? = some ended → ended.ended? = some ended →
      Moves machine world (.wait task) ((Change.become ended).meeting task)
  | race {left right winner} :
      Machine.race world.tasks[left]? world.tasks[right]? = some winner →
      Moves machine world (.race left right) (.become winner)
  | wake {moment outcome} : moment ≤ world.clock →
      Moves machine world (.sleep moment outcome) (.become (.done outcome))
  | goOn {value next} :
      Moves machine world (.after (.done (.ok value)) next) (machine.goOn world.clock value next)
  | fail {failure next} :
      Moves machine world (.after (.done (.error failure)) next)
        (.become (.done (.error failure)))
  | breaks {defect next} :
      Moves machine world (.after (.broken defect) next) (.become (.broken defect))
  | source {source next change} : Moves machine world source change →
      Moves machine world (.after source next) (change.within (.after · next))
  | spoil {shape members failed} : Work.spoiled? members = some failed →
      Moves machine world (.gather shape members) (.become failed)
  | collect {shape members values} : members.mapM Work.value? = some values →
      Moves machine world (.gather shape members) (.become (.done (.ok (shape.collect values))))
  | member {shape before member after change} : Moves machine world member change →
      Moves machine world (.gather shape (before ++ member :: after))
        (change.within fun work => .gather shape (before ++ work :: after))
  | last {frame value index} :
      Moves machine world (.body frame (.done (.ok value)) index [])
        (.become (.settle frame.unobserved value))
  | begin {frame value index entry entries} :
      Moves machine world (.body frame (.done (.ok value)) index (entry :: entries))
        (machine.begin world.tasks.length frame index entry entries)
  | bodyFails {frame failure index entries} :
      Moves machine world (.body frame (.done (.error failure)) index entries)
        (.finish (.error failure))
  | bodyBreaks {frame defect index entries} :
      Moves machine world (.body frame (.broken defect) index entries) (.become (.broken defect))
  | current {frame current index entries change} : Moves machine world current change →
      Moves machine world (.body frame current index entries)
        (change.within (.body frame · index entries))
  | settled {result} : Moves machine world (.settle [] result) (.finish (.ok result))
  | settle {task count bindings result other change} : world.tasks[task]? = some other →
      Machine.settle count bindings result other = some change →
      Moves machine world (.settle ((task, count) :: bindings) result) (change.meeting task)

namespace Machine

variable {machine : Machine} {world : World}

theorem ended?_eq {work ended : Work} (ends : work.ended? = some ended) : ended = work := by
  cases work with
  | done outcome => exact (Option.some.inj ends).symm
  | broken defect => exact (Option.some.inj ends).symm
  | _ => cases ends

/-- A race is won by what has ended, whose value becomes the only operand. -/
theorem race_cases {left right : Option Work} {winner : Work}
    (won : race left right = some winner) :
    ∃ ended, (left.bind Work.ended? = some ended ∨ right.bind Work.ended? = some ended) ∧
      ((∃ value, ended = .done (.ok value) ∧ winner = .done (.ok (.parallel [value]))) ∨
        (∀ value, ended ≠ .done (.ok value)) ∧ winner = ended) := by
  rw [race] at won
  split at won
  · rename_i found
    split at won
    · cases won
      exact ⟨_, .inl found, .inl ⟨_, rfl, rfl⟩⟩
    · rename_i other
      cases won
      exact ⟨_, .inl found, .inr ⟨other, rfl⟩⟩
  · rename_i found
    split at won
    · cases won
      exact ⟨_, .inr found, .inl ⟨_, rfl, rfl⟩⟩
    · rename_i other
      cases won
      exact ⟨_, .inr found, .inr ⟨other, rfl⟩⟩
  · cases won

mutual

/-- Each next move is one by the rules. -/
theorem step?_moves : ∀ (work : Work) {change : Change},
    step? machine world work = some change → Moves machine world work change
  | .done _, _, moved | .broken _, _, moved => by cases moved
  | .fresh work, _, moved => by
      cases moved
      exact .fresh
  | .wait task, _, moved => by
      rw [step?] at moved
      obtain ⟨ended, found, rfl⟩ := Option.map_eq_some_iff.mp moved
      obtain ⟨work, there, ends⟩ := Option.bind_eq_some_iff.mp found
      obtain rfl := ended?_eq ends
      exact .wait there ends
  | .race left right, _, moved => by
      rw [step?] at moved
      obtain ⟨winner, won, rfl⟩ := Option.map_eq_some_iff.mp moved
      exact .race won
  | .sleep wake outcome, _, moved => by
      rw [step?] at moved
      split at moved
      · cases moved
        exact .wake ‹_›
      · cases moved
  | .after source next, _, moved => by
      unfold step? at moved
      split at moved
      · cases moved
        exact .goOn
      · cases moved
        exact .fail
      · cases moved
        exact .breaks
      · obtain ⟨change, part, rfl⟩ := Option.map_eq_some_iff.mp moved
        exact .source (step?_moves source part)
  | .gather shape members, _, moved => by
      rw [step?] at moved
      split at moved
      · rename_i failed _ spoiled
        cases moved
        exact .spoil spoiled
      · rename_i values _ collected
        cases moved
        exact .collect collected
      · obtain ⟨before, member, after, change, rfl, part, rfl⟩ := stepFirst?_moves members moved
        exact .member part
  | .body frame current index entries, _, moved => by
      unfold step? at moved
      split at moved
      · split at moved
        · cases moved
          exact .last
        · cases moved
          exact .begin
      · cases moved
        exact .bodyFails
      · cases moved
        exact .bodyBreaks
      · obtain ⟨change, part, rfl⟩ := Option.map_eq_some_iff.mp moved
        exact .current (step?_moves current part)
  | .settle [] result, _, moved => by
      rw [step?] at moved
      cases moved
      exact .settled
  | .settle ((task, count) :: bindings) result, _, moved => by
      rw [step?] at moved
      obtain ⟨change, found, rfl⟩ := Option.map_eq_some_iff.mp moved
      obtain ⟨other, there, settles⟩ := Option.bind_eq_some_iff.mp found
      exact .settle there settles

/-- The next move of works in a context is a move of one of them. -/
theorem stepFirst?_moves : ∀ (members : List Work) {context : List Work → Work} {change : Change},
    stepFirst? machine world context members = some change →
      ∃ before member after inner, members = before ++ member :: after ∧
        Moves machine world member inner ∧
        change = inner.within fun work => context (before ++ work :: after)
  | [], _, _, moved => by cases moved
  | member :: members, context, _, moved => by
      rw [stepFirst?] at moved
      split at moved
      · rename_i inner part
        cases moved
        exact ⟨[], member, members, inner, rfl, step?_moves member part, rfl⟩
      · obtain ⟨before, other, after, inner, rfl, part, rfl⟩ := stepFirst?_moves members moved
        exact ⟨member :: before, other, after, inner, rfl, part, rfl⟩

end

theorem turn?_moves {queue rest : List TaskId} {task : TaskId} {change : Change}
    (found : machine.turn? world queue = some (task, change, rest)) :
    ∃ work, world.tasks[task]? = some work ∧ Moves machine world work change := by
  induction queue with
  | nil => cases found
  | cons first queue ih =>
      rw [turn?] at found
      split at found
      · rename_i moved
        cases found
        obtain ⟨work, there, part⟩ := Option.bind_eq_some_iff.mp moved
        exact ⟨work, there, step?_moves work part⟩
      · exact ih found

theorem turn?_eq_none {queue : List TaskId} :
    machine.turn? world queue = none ↔ ∀ task ∈ queue, machine.stepTask? world task = none := by
  induction queue with
  | nil => exact iff_of_true rfl nofun
  | cons first queue ih =>
      rw [turn?, List.forall_mem_cons]
      cases moved : machine.stepTask? world first with
      | none => simpa only [true_and] using ih
      | some change => exact iff_of_false nofun fun none => nomatch none.1

theorem mem_awake {task : TaskId} :
    task ∈ machine.awake world ↔ (machine.stepTask? world task).isSome := by
  simp only [awake, List.mem_filter, List.mem_range, and_iff_right_iff_imp]
  intro moves
  obtain ⟨change, moved⟩ := Option.isSome_iff_exists.mp moves
  obtain ⟨work, there, _⟩ := Option.bind_eq_some_iff.mp moved
  exact (List.getElem?_eq_some_iff.mp there).1

theorem awake_eq_nil (asleep : machine.turn? world (machine.awake world) = none) :
    machine.awake world = [] := by
  refine List.eq_nil_iff_forall_not_mem.mpr fun task member => ?_
  have moves := mem_awake.mp member
  rw [turn?_eq_none.mp asleep task member] at moves
  cases moves

end Machine

namespace World

variable {machine : Machine} {world next : World}

/-- The tasks after a move of one of them. -/
def tasksAfter (world : World) (task : TaskId) (change : Change) : List Work :=
  let tasks := world.tasks.set task change.work
  (change.met.elim tasks fun met => tasks.modify met Work.meet) ++ change.started

theorem afterTurn_eq (machine : Machine) (world : World) (task : TaskId) (change : Change)
    (queue : List TaskId) :
    (world.afterTurn machine (task, change, queue)).clock = world.clock ∧
      (world.afterTurn machine (task, change, queue)).tasks = world.tasksAfter task change := by
  rw [afterTurn]
  split
  · exact ⟨rfl, rfl⟩
  · exact ⟨rfl, rfl⟩

/-- What becomes of a world in one step: a task moves, or the clock does because none can. -/
inductive Goes (machine : Machine) (world next : World) : Prop
  | move {task : TaskId} {work : Work} {change : Change} : world.tasks[task]? = some work →
      Moves machine world work change → next.clock = world.clock →
      next.tasks = world.tasksAfter task change → Goes machine world next
  | tick : machine.awake world = [] → world.wake? = some next.clock →
      next.tasks = world.tasks → Goes machine world next

theorem step?_goes (stepped : world.step? machine = some next) : world.Goes machine next := by
  have turned {queue : List TaskId} {turn : TaskId × Change × List TaskId}
      (found : machine.turn? world queue = some turn) :
      world.Goes machine (world.afterTurn machine turn) := by
    obtain ⟨task, change, rest⟩ := turn
    obtain ⟨work, there, moves⟩ := Machine.turn?_moves found
    obtain ⟨clock, tasks⟩ := afterTurn_eq machine world task change rest
    exact .move there moves clock tasks
  rw [step?] at stepped
  split at stepped
  · cases stepped
    exact turned ‹_›
  · split at stepped
    · cases stepped
      exact turned ‹_›
    · rename_i asleep
      obtain ⟨wake, found, rfl⟩ := Option.map_eq_some_iff.mp stepped
      exact .tick (Machine.awake_eq_nil asleep) found rfl

/-- The worlds that a run can come to. -/
def Reaches (machine : Machine) : World → World → Prop :=
  Relation.ReflTransGen fun world next => world.step? machine = some next

/-- What steps keep holds in all worlds that a run comes to. -/
theorem Reaches.keeps {invariant : World → Prop} (reaches : world.Reaches machine next)
    (step : ∀ {world next : World}, invariant world → world.Goes machine next → invariant next)
    (start : invariant world) : invariant next := by
  induction reaches with
  | refl => exact start
  | tail _ stepped ih => exact step ih (step?_goes stepped)

/-- The world in which a run has its outcome is one that it comes to. -/
theorem toOutcome?_reaches {fuel : Nat} {outcome : Except Defect Outcome}
    (found : world.toOutcome? machine fuel = some (outcome, next)) :
    world.Reaches machine next ∧ next.outcome? = some outcome := by
  induction fuel generalizing world with
  | zero => cases found
  | succ fuel ih =>
      rw [toOutcome?] at found
      split at found
      · cases found
        exact ⟨.refl, ‹_›⟩
      · split at found
        · rename_i stepped
          obtain ⟨reaches, ends⟩ := ih found
          exact ⟨.head stepped reaches, ends⟩
        · cases found

end World

/-- A report is of the first world in which the run has its outcome, and of the time after it. -/
theorem Routine.perform?_eq_ok {routine : Routine} {registry : Registry} {argument : Value}
    {drain fuel : Nat} {report : Report} :
    routine.perform? registry argument drain fuel = some (.ok report) ↔
      ∃ outcome first, (World.start routine argument).toOutcome? ⟨registry, routine.library⟩ fuel =
          some (.ok outcome, first) ∧
        report = ⟨outcome, first.clock,
          (first.toMoment ⟨registry, routine.library⟩ (first.clock + drain) fuel).log⟩ := by
  rw [perform?]
  constructor
  · intro performed
    split at performed
    · cases performed
    · cases performed
    · rename_i outcome first found
      cases performed
      exact ⟨outcome, first, found, rfl⟩
  · rintro ⟨outcome, first, found, rfl⟩
    rw [found]

end Runbook
