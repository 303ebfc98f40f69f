import Runbook.Proofs.Evaluation.Moments
import Runbook.Proofs.Evaluation.Owed

/-!
What does not depend on whose turn it is.

Tasks that can move at the same moment have turns in an order that the queue makes. Here they have
them in any order: a run may end in some way if it does in one of the orders, and must if it does in
each. What a run must come to it does come to, and what it comes to it may come to.
-/
namespace Runbook

/-- The task that has the turn is one that can move. -/
theorem Machine.turn?_stepTask? {machine : Machine} {world : World} {queue rest : List TaskId}
    {task : TaskId} {change : Change} (found : machine.turn? world queue = some (task, change, rest)) :
    machine.stepTask? world task = some change := by
  induction queue generalizing rest with
  | nil => cases found
  | cons first queue ih =>
      rw [turn?] at found
      split at found
      · cases found
        exact ‹_›
      · exact ih found

namespace World

/-- What may become of a world next: any task that can move does, or none can and the clock moves. -/
inductive Next (machine : Machine) (world next : World) : Prop
  | move {task : TaskId} {change : Change} : machine.stepTask? world task = some change →
      next.clock = world.clock → next.tasks = world.tasksAfter task change → Next machine world next
  | tick : machine.awake world = [] → world.wake? = some next.clock → next.tasks = world.tasks →
      Next machine world next

/-- In some order of turns, the run has an outcome at a moment that are as asked for. -/
inductive May (machine : Machine) (ends : Outcome → Nat → Prop) : World → Prop
  | now {world outcome} : world.outcome? = some (.ok outcome) → ends outcome world.clock →
      May machine ends world
  | later {world next} : world.outcome? = none → Next machine world next → May machine ends next →
      May machine ends world

/-- In each order of turns, the run has an outcome at a moment that are as asked for. -/
inductive Must (machine : Machine) (ends : Outcome → Nat → Prop) : World → Prop
  | now {world outcome} : world.outcome? = some (.ok outcome) → ends outcome world.clock →
      Must machine ends world
  | later {world} : world.outcome? = none → (∃ next, Next machine world next) →
      (∀ next, Next machine world next → Must machine ends next) → Must machine ends world

variable {machine : Machine} {world next last : World} {ends ends' : Outcome → Nat → Prop}

theorem Next.goes (step : Next machine world next) : world.Goes machine next := by
  cases step with
  | @move task change moved clock tasks =>
      obtain ⟨work, there, moves⟩ := Option.bind_eq_some_iff.mp moved
      exact .move there (Machine.step?_moves work moves) clock tasks
  | tick asleep wakes tasks => exact .tick asleep wakes tasks

/-- A step of the run is one that may be made. -/
theorem step?_next (stepped : world.step? machine = some next) : Next machine world next := by
  have turned {queue : List TaskId} {turn : TaskId × Change × List TaskId}
      (found : machine.turn? world queue = some turn) :
      Next machine world (world.afterTurn machine turn) := by
    obtain ⟨task, change, rest⟩ := turn
    obtain ⟨clock, tasks⟩ := afterTurn_eq machine world task change rest
    exact .move (Machine.turn?_stepTask? found) clock tasks
  rw [step?] at stepped
  split at stepped
  · cases stepped
    exact turned ‹_›
  · split at stepped
    · cases stepped
      exact turned ‹_›
    · rename_i asleep
      obtain ⟨wake, found, rfl⟩ := Option.map_eq_some_iff.mp stepped
      exact .tick (Machine.awake_eq_nil asleep) found rfl

/-- While something may happen next, the run makes a step. -/
theorem Next.step? (step : Next machine world next) : ∃ later, world.step? machine = some later := by
  rw [World.step?]
  split
  · exact ⟨_, rfl⟩
  · split
    · exact ⟨_, rfl⟩
    · rename_i asleep
      cases step with
      | @move task change moved _ _ =>
          have listed := Machine.mem_awake.mpr (Option.isSome_of_eq_some moved)
          rw [Machine.awake_eq_nil asleep] at listed
          cases listed
      | tick _ wakes _ =>
          rw [wakes]
          exact ⟨_, rfl⟩

theorem May.imp (may : May machine ends world)
    (le : ∀ outcome moment, ends outcome moment → ends' outcome moment) :
    May machine ends' world := by
  induction may with
  | now done as => exact .now done (le _ _ as)
  | later going step _ ih => exact .later going step ih

theorem Must.may (must : Must machine ends world) : May machine ends world := by
  induction must with
  | now done as => exact .now done as
  | later going some _ ih =>
      obtain ⟨next, step⟩ := some
      exact .later going step (ih next step)

/-- What must come does so after each step. -/
theorem Must.after (must : Must machine ends world) (going : world.outcome? = none)
    (step : Next machine world next) : Must machine ends next := by
  cases must with
  | now done _ => cases going.symm.trans done
  | later _ _ all => exact all next step

/-- The outcome that the run has is one that it may have. -/
theorem may_of_toOutcome? {fuel : Nat} {outcome : Outcome}
    (found : world.toOutcome? machine fuel = some (.ok outcome, last)) :
    May machine (fun result moment => result = outcome ∧ moment = last.clock) world := by
  induction fuel generalizing world with
  | zero => cases found
  | succ fuel ih =>
      rw [toOutcome?] at found
      split at found
      · cases found
        exact .now ‹_› ⟨rfl, rfl⟩
      · split at found
        · exact .later ‹_› (step?_next ‹_›) (ih found)
        · cases found

/-- A run comes to what it must come to. -/
theorem Must.toOutcome? (must : Must machine ends world) : ∃ fuel outcome last,
    world.toOutcome? machine fuel = some (.ok outcome, last) ∧ ends outcome last.clock := by
  induction must with
  | @now world outcome done as =>
      refine ⟨1, outcome, world, ?_, as⟩
      rw [World.toOutcome?, done]
  | @later world going some _ ih =>
      obtain ⟨next, step⟩ := some
      obtain ⟨later, stepped⟩ := step.step?
      obtain ⟨fuel, outcome, last, found, as⟩ := ih later (step?_next stepped)
      refine ⟨fuel + 1, outcome, last, ?_, as⟩
      rw [World.toOutcome?, going, stepped]
      exact found

theorem may_iff_of_outcome? {result : Except Defect Outcome} (found : world.outcome? = some result) :
    May machine ends world ↔ ∃ outcome, result = .ok outcome ∧ ends outcome world.clock := by
  constructor
  · intro may
    cases may with
    | now done as => exact ⟨_, Option.some.inj (found.symm.trans done), as⟩
    | later going _ _ => cases going.symm.trans found
  · rintro ⟨outcome, rfl, as⟩
    exact .now found as

theorem must_iff_of_outcome? {result : Except Defect Outcome} (found : world.outcome? = some result) :
    Must machine ends world ↔ ∃ outcome, result = .ok outcome ∧ ends outcome world.clock := by
  refine ⟨fun must => (may_iff_of_outcome? found).mp must.may, ?_⟩
  rintro ⟨outcome, rfl, as⟩
  exact .now found as

/-! Two runs whose steps go together. -/

/-- Runs may and must end in like ways if they do after their first steps. -/
theorem after_next {machine' : Machine} {other : World} (going : world.outcome? = none)
    (going' : other.outcome? = none) (moves : ∃ next, Next machine world next)
    (moves' : ∃ next, Next machine' other next)
    (same : ∀ {next next'}, Next machine world next → Next machine' other next' →
      (May machine ends next ↔ May machine' ends' next') ∧
        (Must machine ends next ↔ Must machine' ends' next')) :
    (May machine ends world ↔ May machine' ends' other) ∧
      (Must machine ends world ↔ Must machine' ends' other) := by
  obtain ⟨next, step⟩ := moves
  obtain ⟨next', step'⟩ := moves'
  refine ⟨⟨fun may => ?_, fun may => ?_⟩, fun must => ?_, fun must => ?_⟩
  · cases may with
    | now done _ => cases going.symm.trans done
    | later _ first rest => exact .later going' step' ((same first step').1.mp rest)
  · cases may with
    | now done _ => cases going'.symm.trans done
    | later _ first rest => exact .later going step ((same step first).1.mpr rest)
  · exact .later going' ⟨next', step'⟩ fun later first =>
      (same step first).2.mp (must.after going step)
  · exact .later going ⟨next, step⟩ fun later first =>
      (same first step').2.mpr (must.after going' step')


/-- If each step of the one run may be made by the other, what the one may come to the other may. -/
theorem May.transfer {machine' : Machine} (same : World → World → Prop)
    (done : ∀ {world other}, same world other → ∀ outcome, world.outcome? = some (.ok outcome) →
      ends outcome world.clock → May machine' ends' other)
    (step : ∀ {world other next}, same world other → world.outcome? = none →
      Next machine world next → May machine ends next → May machine' ends' other ∨
        ∃ other', (May machine' ends' other' → May machine' ends' other) ∧ same next other')
    {other : World} (may : May machine ends world) (here : same world other) :
    May machine' ends' other := by
  induction may generalizing other with
  | now finished as => exact done here _ finished as
  | later going made rest ih =>
      rcases step here going made rest with already | ⟨other', back, there⟩
      · exact already
      · exact back (ih there)

/-- If each step of the other run is one that the one may make, or one of few of its own, what the
one must come to the other must come to. -/
theorem Must.transfer {machine' : Machine} (same : Nat → World → World → Prop)
    (going : ∀ {count world other}, same count world other → world.outcome? = none)
    (done : ∀ {count world other result}, same count world other → Must machine ends world →
      other.outcome? = some result → ∃ outcome, result = .ok outcome ∧ ends' outcome other.clock)
    (goes : ∀ {count world other}, same count world other → other.outcome? = none →
      (∃ next, Next machine world next) → ∃ next, Next machine' other next)
    (step : ∀ {count world other other'}, same count world other → other.outcome? = none →
      Next machine' other other' → (∃ fewer < count, same fewer world other') ∨
        ∃ next fewer, Next machine world next ∧ same fewer next other')
    (count : Nat) {other : World} (must : Must machine ends world)
    (here : same count world other) : Must machine' ends' other := by
  induction must generalizing count other with
  | now finished _ => cases (going here).symm.trans finished
  | @later world unfinished some all ih =>
      have whole : Must machine ends world := .later unfinished some all
      induction count using Nat.strong_induction_on generalizing other with
      | _ count inner =>
          cases ended : other.outcome? with
          | some result =>
              obtain ⟨outcome, rfl, as⟩ := done here whole ended
              exact .now ended as
          | none =>
              refine .later ended (goes here ended some) fun other' made => ?_
              rcases step here ended made with ⟨fewer, less, there⟩ | ⟨next, fewer, makes, there⟩
              · exact inner fewer less there
              · exact ih next makes _ there

end World

/-- In some order of turns, the routine has an outcome at a moment that are as asked for. -/
def Routine.May (routine : Routine) (registry : Registry) (argument : Value)
    (ends : Outcome → Nat → Prop) : Prop :=
  World.May ⟨registry, routine.library⟩ ends (World.start routine argument)

/-- In each order of turns, the routine has an outcome at a moment that are as asked for. -/
def Routine.Must (routine : Routine) (registry : Registry) (argument : Value)
    (ends : Outcome → Nat → Prop) : Prop :=
  World.Must ⟨registry, routine.library⟩ ends (World.start routine argument)

section
variable {routine : Routine} {registry : Registry} {argument : Value}
  {ends : Outcome → Nat → Prop}

theorem Routine.may_of_perform? {drain fuel : Nat} {report : Report}
    (performed : routine.perform? registry argument drain fuel = some (.ok report)) :
    routine.May registry argument fun outcome moment =>
      outcome = report.outcome ∧ moment = report.elapsed := by
  obtain ⟨outcome, first, found, rfl⟩ := perform?_eq_ok.mp performed
  exact World.may_of_toOutcome? found

theorem Routine.Must.perform? (must : routine.Must registry argument ends) (drain : Nat) :
    ∃ fuel report, routine.perform? registry argument drain fuel = some (.ok report) ∧
      ends report.outcome report.elapsed := by
  obtain ⟨fuel, outcome, last, found, as⟩ := World.Must.toOutcome? must
  exact ⟨fuel, _, perform?_eq_ok.mpr ⟨outcome, last, found, rfl⟩, as⟩

end

/-! Works that go their own way. -/

/-- The work has ended: with the outcome, or broken down if there is none. -/
def Work.Concludes : Option Outcome → Work → Prop
  | some outcome, work => work = .done outcome
  | none, work => ∃ defect, work = .broken defect

/-- Wherever `given` holds, the work has moves of its own, so many at most, until it is `final`. -/
def Work.Fated (machine : Machine) (given : World → Prop) (final : Work → Prop) :
    Nat → Work → Prop
  | 0, work => final work
  | count + 1, work => final work ∨ ∀ world, given world → ∃ change,
      machine.step? world work = some change ∧ change.started = [] ∧
        Fated machine given final count change.work

namespace Work

variable {machine : Machine} {given given' : World → Prop} {final final' : Work → Prop}
  {count count' : Nat} {work : Work} {verdict : Option Outcome} {world : World}

theorem Concludes.meet (concludes : work.Concludes verdict) : work.meet.Concludes verdict := by
  cases verdict with
  | some outcome =>
      obtain rfl : work = .done outcome := concludes
      rfl
  | none =>
      obtain ⟨defect, rfl⟩ := concludes
      exact ⟨.met, rfl⟩

theorem Concludes.ended (concludes : work.Concludes verdict) : work.ended? = some work := by
  cases verdict with
  | some outcome =>
      obtain rfl : work = .done outcome := concludes
      rfl
  | none =>
      obtain ⟨defect, rfl⟩ := concludes
      rfl

/-- A work that can move has not ended. -/
theorem ended?_of_step? {change : Change} (moved : machine.step? world work = some change) :
    work.ended? = none := by
  cases work with
  | done outcome => cases moved
  | broken defect => cases moved
  | _ => rfl

namespace Fated

theorem here (ends : final work) : work.Fated machine given final count := by
  cases count with
  | zero => exact ends
  | succ count => exact .inl ends

/-- A work that has a move is fated as what it becomes. -/
theorem step (moves : ∀ world, given world → ∃ change, machine.step? world work = some change ∧
    change.started = [] ∧ change.work.Fated machine given final count) :
    work.Fated machine given final (count + 1) := .inr moves

theorem succ (fated : work.Fated machine given final count) :
    work.Fated machine given final (count + 1) := by
  induction count generalizing work with
  | zero => exact .inl fated
  | succ count ih =>
      refine fated.imp_right fun moves world holds => ?_
      obtain ⟨change, moved, starts, rest⟩ := moves world holds
      exact ⟨change, moved, starts, ih rest⟩

theorem mono (fated : work.Fated machine given final count) (le : count ≤ count') :
    work.Fated machine given final count' := by
  induction le with
  | refl => exact fated
  | step _ ih => exact ih.succ

/-- It is fated so wherever more is given. -/
theorem under (fated : work.Fated machine given final count)
    (more : ∀ world, given' world → given world) : work.Fated machine given' final count := by
  induction count generalizing work with
  | zero => exact fated
  | succ count ih =>
      refine fated.imp_right fun moves world holds => ?_
      obtain ⟨change, moved, starts, rest⟩ := moves world (more world holds)
      exact ⟨change, moved, starts, ih rest⟩

/-- What a work is fated to be may be fated to be something else. -/
theorem trans (fated : work.Fated machine given final count)
    (next : ∀ work, final work → work.Fated machine given final' count') :
    work.Fated machine given final' (count + count') := by
  induction count generalizing work with
  | zero =>
      rw [Nat.zero_add]
      exact next work fated
  | succ count ih =>
      rcases fated with ends | moves
      · exact (next work ends).mono (Nat.le_add_left _ _)
      · rw [Nat.add_right_comm]
        refine .step fun world holds => ?_
        obtain ⟨change, moved, starts, rest⟩ := moves world holds
        exact ⟨change, moved, starts, ih rest⟩

/-- A work in a context in which its moves are those of the whole is fated together with it. -/
theorem context (context : Work → Work) (fated : work.Fated machine given final count)
    (inside : ∀ {world work change}, given world → machine.step? world work = some change →
      machine.step? world (context work) = some (change.within context))
    (next : ∀ work, final work → (context work).Fated machine given final' count') :
    (context work).Fated machine given final' (count + count') := by
  induction count generalizing work with
  | zero =>
      rw [Nat.zero_add]
      exact next work fated
  | succ count ih =>
      rcases fated with ends | moves
      · exact (next work ends).mono (Nat.le_add_left _ _)
      · rw [Nat.add_right_comm]
        refine .step fun world holds => ?_
        obtain ⟨change, moved, starts, rest⟩ := moves world holds
        exact ⟨change.within context, inside holds moved, starts, ih rest⟩

/-- Until it is final, a fated work can move. -/
theorem moves (fated : work.Fated machine given final count) (world : World) (holds : given world)
    (going : ¬final work) : ∃ change, ∃ fewer < count, machine.step? world work = some change ∧
      change.started = [] ∧ change.work.Fated machine given final fewer := by
  cases count with
  | zero => exact absurd fated going
  | succ count =>
      rcases fated with ends | moves
      · exact absurd ends going
      · obtain ⟨change, moved, starts, rest⟩ := moves world holds
        exact ⟨change, count, Nat.lt_succ_self count, moved, starts, rest⟩

theorem final_of_still (fated : work.Fated machine given final count) (world : World)
    (holds : given world) (still : machine.step? world work = none) : final work := by
  by_contra going
  obtain ⟨change, _, _, moved, _⟩ := fated.moves world holds going
  cases still.symm.trans moved

theorem meet (fated : work.Fated machine given final count)
    (closed : ∀ work, final work → final work.meet) (world : World) (holds : given world) :
    work.meet.Fated machine given final count := by
  cases work with
  | broken defect => exact .here (closed _ (fated.final_of_still _ holds rfl))
  | _ => exact fated

end Fated

end Work

namespace World

variable {machine : Machine} {world next : World} {task : TaskId} {work : Work}
  {ends : Outcome → Nat → Prop} {given : World → Prop} {verdict : Option Outcome} {count : Nat}

/-- What steps keep in any order. -/
def Steady (machine : Machine) (given : World → Prop) : Prop :=
  ∀ {world next : World}, given world → Next machine world next → given next

/-- A run that has ended, or else goes on. -/
theorem outcome?_of_concludes (there : world.tasks[0]? = some work)
    (concludes : work.Concludes verdict) : ∃ result, world.outcome? = some result ∧
      ∀ outcome, result = .ok outcome ↔ verdict = some outcome := by
  cases verdict with
  | some outcome =>
      obtain rfl : work = .done outcome := concludes
      refine ⟨_, outcome?_eq_ok.mpr there, fun other => ⟨fun same => ?_, fun same => ?_⟩⟩
      · cases same
        rfl
      · cases same
        rfl
  | none =>
      obtain ⟨defect, rfl⟩ := concludes
      exact ⟨_, outcome?_eq_error.mpr there, fun other => ⟨nofun, nofun⟩⟩

/-- The run goes on just as long as its own work has not ended. -/
theorem outcome?_eq_none_iff (there : world.tasks[0]? = some work) :
    world.outcome? = none ↔ work.ended? = none := by
  refine ⟨fun found => ?_, outcome?_eq_none there⟩
  cases work with
  | done outcome =>
      rw [outcome?_eq_ok.mpr there] at found
      cases found
  | broken defect =>
      rw [outcome?_eq_error.mpr there] at found
      cases found
  | _ => rfl

theorem not_concludes_of_outcome? (there : world.tasks[0]? = some work)
    (going : world.outcome? = none) : ¬work.Concludes verdict := by
  intro concludes
  obtain ⟨result, found, _⟩ := outcome?_of_concludes there concludes
  cases going.symm.trans found

/-- When the run has ended, it has ended as its own work is fated to. -/
theorem concludes_of_outcome? {result : Except Defect Outcome} (found : world.outcome? = some result)
    (there : world.tasks[0]? = some work)
    (fated : work.Fated machine given (Work.Concludes verdict) count) (holds : given world) :
    ∀ outcome, result = .ok outcome ↔ verdict = some outcome := by
  have concludes : work.Concludes verdict := by
    by_contra going
    obtain ⟨change, _, _, moved, _⟩ := fated.moves world holds going
    cases found.symm.trans (outcome?_eq_none there (Work.ended?_of_step? moved))
  obtain ⟨other, same, iff⟩ := outcome?_of_concludes there concludes
  obtain rfl := Option.some.inj (same.symm.trans found)
  exact iff

/-- A move of another task leaves the run as far as it was. -/
theorem run_after_other {change : Change} (same : next.tasks = world.tasksAfter task change)
    (there : world.tasks[0]? = some work) (differs : 0 ≠ task) {final : Work → Prop}
    (fated : work.Fated machine given final count) (holds : given world)
    (closed : ∀ work, final work → final work.meet) :
    (∃ later, next.tasks[0]? = some later ∧ later.Fated machine given final count) ∧
      (world.outcome? = none → next.outcome? = none) := by
  obtain ⟨later, now, met⟩ := getElem?_after_other same there differs
  rw [outcome?_eq_none_iff there, outcome?_eq_none_iff now]
  rcases met with rfl | rfl
  · exact ⟨⟨_, now, fated⟩, id⟩
  · refine ⟨⟨_, now, fated.meet closed _ holds⟩, fun going => ?_⟩
    cases work with
    | broken defect => cases going
    | _ => exact going

/-- A task that can move does, or another one does, which leaves it as it is. -/
theorem Next.elsewhere (step : Next machine world next) (there : world.tasks[task]? = some work)
    {change : Change} (moved : machine.step? world work = some change) :
    next.clock = world.clock ∧
      (next.tasks = world.tasksAfter task change ∨
        ∃ other change, other ≠ task ∧ machine.stepTask? world other = some change ∧
          next.tasks = world.tasksAfter other change ∧ next.tasks[task]? = some work) := by
  have own : machine.stepTask? world task = some change := by
    rw [Machine.stepTask?, there]
    exact moved
  cases step with
  | @move other change' moves clock tasks =>
      refine ⟨clock, ?_⟩
      by_cases same : other = task
      · subst same
        obtain rfl := Option.some.inj (own.symm.trans moves)
        exact .inl tasks
      · refine .inr ⟨other, change', same, moves, tasks, ?_⟩
        obtain ⟨later, now, met⟩ := getElem?_after_other tasks there (Ne.symm same)
        rw [now]
        rcases met with rfl | rfl
        · rfl
        · cases work with
          | broken defect => cases moved
          | _ => rfl
  | tick asleep wakes tasks =>
      have listed := Machine.mem_awake.mpr (Option.isSome_of_eq_some own)
      rw [asleep] at listed
      cases listed

/-- A run whose own work is fated may have its verdict without any time. -/
theorem may_of_fated {outcome : Outcome} (there : world.tasks[0]? = some work)
    (fated : work.Fated machine given (Work.Concludes (some outcome)) count) (holds : given world)
    (steady : Steady machine given) (as : ends outcome world.clock) : May machine ends world := by
  induction count generalizing world work with
  | zero =>
      obtain rfl : work = .done outcome := fated
      exact .now (outcome?_eq_ok.mpr there) as
  | succ count ih =>
      rcases fated with ended | moves
      · obtain rfl : work = .done outcome := ended
        exact .now (outcome?_eq_ok.mpr there) as
      · obtain ⟨change, moved, starts, rest⟩ := moves world holds
        have stepped : machine.stepTask? world 0 = some change := by
          rw [Machine.stepTask?, there]
          exact moved
        let next : World := ⟨world.clock, world.tasksAfter 0 change, [], []⟩
        have step : Next machine world next := .move stepped rfl rfl
        have same : next.tasks = world.tasksAfter 0 change := rfl
        have later := steady holds step
        obtain ⟨work', now, met⟩ := getElem?_after_moved same there
        refine .later (outcome?_eq_none there (Work.ended?_of_step? moved)) step ?_
        refine ih now ?_ later as
        rcases met with rfl | rfl
        · exact rest
        · exact rest.meet (fun _ => Work.Concludes.meet) _ later

/-- It may have no other. -/
theorem May.of_fated (may : May machine ends world) (there : world.tasks[0]? = some work)
    (fated : work.Fated machine given (Work.Concludes verdict) count) (holds : given world)
    (steady : Steady machine given) : ∃ outcome, verdict = some outcome ∧
      ends outcome world.clock := by
  induction may generalizing work count with
  | now found as =>
      obtain rfl := Option.some.inj (there.symm.trans (outcome?_eq_ok.mp found))
      obtain ⟨result, same, iff⟩ := outcome?_of_concludes there (fated.final_of_still _ holds rfl)
      obtain rfl := Option.some.inj (same.symm.trans found)
      exact ⟨_, (iff _).mp rfl, as⟩
  | @later world next going step _ ih =>
      obtain ⟨change, fewer, _, moved, _, rest⟩ :=
        fated.moves _ holds (not_concludes_of_outcome? there going)
      have later := steady holds step
      obtain ⟨clock, here | ⟨_, _, _, _, _, now⟩⟩ := step.elsewhere there moved
      · obtain ⟨work', now, met⟩ := getElem?_after_moved here there
        have fated' : work'.Fated machine given (Work.Concludes verdict) fewer := by
          rcases met with rfl | rfl
          · exact rest
          · exact rest.meet (fun _ => Work.Concludes.meet) _ later
        obtain ⟨outcome, same, as⟩ := ih now fated' later
        exact ⟨outcome, same, clock ▸ as⟩
      · obtain ⟨outcome, same, as⟩ := ih now fated later
        exact ⟨outcome, same, clock ▸ as⟩

end World

end Runbook
