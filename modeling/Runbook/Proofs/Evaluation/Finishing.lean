import Runbook.Proofs.Evaluation.Solitary
import Runbook.Proofs.Evaluation.Orders
import Runbook.Proofs.Evaluation.Sequel

/-!
When a solitary work has its outcome.

A solitary work moves as long as it can, and rests until the first moment that it waits for. So it
has its own time, whatever goes on beside it; and a run that performs nothing but the work has the
work's outcome at its time.
-/
namespace Runbook

/-- At the moment there is the work; by itself it has the outcome at the later moment, logging
that much on the way, after so many moves and rests. -/
inductive Work.Finishes (machine : Machine) :
    Nat → Work → List Logged → Outcome → Nat → Nat → Prop
  | now {clock : Nat} {outcome : Outcome} :
      Finishes machine clock (.done outcome) [] outcome clock 0
  | move {clock moment count : Nat} {work : Work} {change : Change} {log : List Logged}
      {outcome : Outcome} : machine.step? (.bare clock) work = some change →
      Finishes machine clock change.work log outcome moment count →
      Finishes machine clock work (change.events.map (⟨clock, ·⟩) ++ log) outcome moment (count + 1)
  | rest {clock later moment count : Nat} {work : Work} {log : List Logged} {outcome : Outcome} :
      machine.step? (.bare clock) work = none → clock < later → later ∈ work.wakes →
      (∀ wake ∈ work.wakes, later ≤ wake) →
      Finishes machine later work log outcome moment count →
      Finishes machine clock work log outcome moment (count + 1)

namespace Work.Finishes

variable {machine : Machine} {clock moment count : Nat} {work : Work} {log : List Logged}
  {outcome : Outcome}

theorem le (finishes : work.Finishes machine clock log outcome moment count) : clock ≤ moment := by
  induction finishes with
  | now => exact Nat.le_refl _
  | move _ _ ih => exact ih
  | rest _ less _ _ _ ih => exact Nat.le_trans (Nat.le_of_lt less) ih

theorem within {change : Change} {context : Work → Work}
    (moved : machine.step? (.bare clock) work = some (change.within context))
    (rest : (context change.work).Finishes machine clock log outcome moment count) :
    work.Finishes machine clock (change.events.map (⟨clock, ·⟩) ++ log) outcome moment
      (count + 1) := by
  have whole := Work.Finishes.move moved rest
  exact whole

end Work.Finishes

namespace World

variable {machine : Machine} {world next last : World} {work : Work} {change : Change}
  {outcome : Outcome}

/-! A run of one task. -/

theorem stepTask?_single (single : world.tasks = [work]) (task : TaskId) :
    machine.stepTask? world task = if task = 0 then machine.step? world work else none := by
  rw [Machine.stepTask?, single]
  cases task with
  | zero => rfl
  | succ task => rfl

theorem single_move (single : world.tasks = [work]) (moved : machine.step? world work = some change)
    (started : change.started = []) (met : change.met = none) :
    ∃ next, world.step? machine = some next ∧ next.clock = world.clock ∧
      next.tasks = [change.work] ∧
      next.log = world.log ++ change.events.map (⟨world.clock, ·⟩) := by
  have turned {queue : List TaskId} {turn : TaskId × Change × List TaskId}
      (found : machine.turn? world queue = some turn) :
      (world.afterTurn machine turn).clock = world.clock ∧
        (world.afterTurn machine turn).tasks = [change.work] ∧
        (world.afterTurn machine turn).log =
          world.log ++ change.events.map (⟨world.clock, ·⟩) := by
    obtain ⟨task, other, rest⟩ := turn
    have moves := Machine.turn?_stepTask? found
    rw [stepTask?_single single] at moves
    split at moves
    · rename_i zero
      subst zero
      obtain rfl := Option.some.inj (moved.symm.trans moves)
      obtain ⟨clock, tasks⟩ := afterTurn_eq machine world 0 change rest
      refine ⟨clock, ?_, ?_⟩
      · rw [tasks, tasksAfter, single, started, met]
        rfl
      · rw [afterTurn]
        split <;> rfl
    · cases moves
  rw [step?]
  split
  · exact ⟨_, rfl, turned ‹_›⟩
  · split
    · exact ⟨_, rfl, turned ‹_›⟩
    · rename_i asleep
      have awake : 0 ∈ machine.awake world := by
        rw [Machine.mem_awake, stepTask?_single single, if_pos rfl, moved]
        rfl
      rw [Machine.awake_eq_nil asleep] at awake
      cases awake

theorem single_still (single : world.tasks = [work]) (still : machine.step? world work = none) :
    world.step? machine =
      work.wakes.min?.map fun wake => { world with clock := wake, queue := [] } := by
  have none (queue : List TaskId) : machine.turn? world queue = none := by
    refine Machine.turn?_eq_none.mpr fun task _ => ?_
    rw [stepTask?_single single, still, ite_self]
  rw [step?, none, none, wake?, single, Work.wakesOfAll, Work.wakesOfAll, List.append_nil]

/-- With enough fuel, the run has the outcome in its last world. -/
def Comes (machine : Machine) (world : World) (outcome : Outcome) (last : World) : Prop :=
  ∃ enough, ∀ fuel, enough ≤ fuel → world.toOutcome? machine fuel = some (.ok outcome, last)

theorem Comes.here (ended : world.outcome? = some (.ok outcome)) :
    Comes machine world outcome world := by
  refine ⟨1, fun fuel enough => ?_⟩
  obtain ⟨fuel, rfl⟩ := Nat.exists_eq_add_of_le' enough
  rw [toOutcome?, ended]

theorem Comes.step (going : world.outcome? = none) (stepped : world.step? machine = some next)
    (comes : Comes machine next outcome last) : Comes machine world outcome last := by
  obtain ⟨enough, comes⟩ := comes
  refine ⟨enough + 1, fun fuel more => ?_⟩
  obtain ⟨fuel, rfl⟩ := Nat.exists_eq_add_of_le' (Nat.le_of_add_left_le more)
  rw [toOutcome?, going, stepped]
  exact comes fuel (Nat.le_of_add_le_add_right more)

/-- Whatever fuel lets the run end, it ends so. -/
theorem Comes.unique (comes : Comes machine world outcome last) {fuel : Nat}
    {found : Except Defect Outcome × World} (finds : world.toOutcome? machine fuel = some found) :
    found = (.ok outcome, last) := by
  obtain ⟨enough, comes⟩ := comes
  have more := toOutcome?_more finds (Nat.le_max_left fuel enough)
  exact Option.some.inj (more.symm.trans (comes _ (Nat.le_max_right fuel enough)))

variable {allowed : Need → Prop} {frame : Frame} {index : Nat}

/-- A body whose last work has its outcome ends with it. -/
theorem comes_of_done (fixed : Given frame.bindings)
    (single : world.tasks = [.body frame (.done outcome) index []]) :
    ∃ last, Comes machine world outcome last ∧ last.tasks = [.done outcome] ∧
      last.clock = world.clock ∧
      last.log = world.log ++ [⟨world.clock, .finished outcome.isOk⟩] := by
  have going : world.outcome? = none := outcome?_eq_none (by rw [single]; rfl) rfl
  have ends {world : World} {work : Work} (single : world.tasks = [work])
      (going : world.outcome? = none)
      (moved : machine.step? world work = some (.finish outcome)) :
      ∃ last, Comes machine world outcome last ∧ last.tasks = [.done outcome] ∧
        last.clock = world.clock ∧
        last.log = world.log ++ [⟨world.clock, .finished outcome.isOk⟩] := by
    obtain ⟨last, stepped, clock, tasks, log⟩ := single_move single moved rfl rfl
    refine ⟨last, (Comes.here ?_).step going stepped, tasks, clock, log⟩
    rw [outcome?, tasks]
    rfl
  cases outcome with
  | error failure => exact ends single going rfl
  | ok value =>
      have moved : machine.step? world (.body frame (.done (.ok value)) index []) =
          some (.become (.settle [] value)) := by
        rw [← Given.asked fixed]
        rfl
      obtain ⟨next, stepped, clock, tasks, log⟩ := single_move single moved rfl rfl
      have going' : next.outcome? = none := outcome?_eq_none (by rw [tasks]; rfl) rfl
      obtain ⟨last, comes, ended, late, told⟩ := ends tasks going' rfl
      refine ⟨last, comes.step going stepped, ended, late.trans clock, ?_⟩
      rw [told, log, clock]
      exact congrArg (· ++ _) (List.append_nil world.log)

variable {work : Work} (idle : machine.Idle allowed) (fixed : Given frame.bindings)
  (solitary : work.Solitary machine.registry allowed)
  (single : world.tasks = [.body frame work index []])

include idle solitary single in
/-- A run that performs one solitary work moves with it. -/
theorem lone_move (moved : machine.step? (.bare world.clock) work = some change) :
    change.Solitary machine.registry allowed ∧ ∃ next, world.step? machine = some next ∧
      next.clock = world.clock ∧ next.tasks = [.body frame change.work index []] ∧
      next.log = world.log ++ change.events.map (⟨world.clock, ·⟩) := by
  obtain ⟨alike, moves⟩ := solitary.moves idle world
  have first := alike.trans moved
  have changed := moves change first
  have whole : machine.step? world (.body frame work index []) =
      some (change.within (.body frame · index [])) := by
    rw [Machine.step?_body frame index [] (Work.ended?_of_step? moved), first]
    rfl
  exact ⟨changed, single_move single whole changed.started changed.met⟩

include idle solitary single in
/-- A run that performs one solitary work rests with it. -/
theorem lone_rest (going : work.ended? = none)
    (still : machine.step? (.bare world.clock) work = none) :
    world.step? machine =
      work.wakes.min?.map fun wake => { world with clock := wake, queue := [] } := by
  have whole : machine.step? world (.body frame work index []) = none := by
    rw [Machine.step?_body frame index [] going, (solitary.moves idle world).1, still]
    rfl
  rw [single_still single whole, Work.wakes]

include idle fixed solitary single in
/-- A run that performs one solitary work has its outcome at its time. -/
theorem comes_of_finishes {clock moment count : Nat} {log : List Logged}
    (finishes : work.Finishes machine clock log outcome moment count)
    (same : world.clock = clock) :
    ∃ last, Comes machine world outcome last ∧ last.tasks = [.done outcome] ∧
      last.clock = moment ∧
      last.log = world.log ++ log ++ [⟨moment, .finished outcome.isOk⟩] := by
  have going : world.outcome? = none := outcome?_eq_none (by rw [single]; rfl) rfl
  induction finishes generalizing world with
  | now =>
      obtain ⟨last, comes, ended, late, told⟩ := comes_of_done fixed single
      rw [same] at late told
      exact ⟨last, comes, ended, late, by rw [told, List.append_nil]⟩
  | @move clock moment count work change log outcome moved rest ih =>
      subst same
      obtain ⟨changed, next, stepped, late, tasks, told⟩ := lone_move idle solitary single moved
      have going' : next.outcome? = none := outcome?_eq_none (by rw [tasks]; rfl) rfl
      obtain ⟨last, comes, ended, late', told'⟩ := ih changed.work tasks late going'
      refine ⟨last, comes.step going stepped, ended, late', ?_⟩
      rw [told', told, List.append_assoc world.log]
  | @rest clock later moment count work log outcome still _ awaited first rest ih =>
      subst same
      have unfinished : work.ended? = none := by
        cases work with
        | done outcome => cases awaited
        | broken defect => cases awaited
        | _ => rfl
      have stepped := lone_rest idle solitary single unfinished still
      rw [List.min?_eq_some_iff.mpr ⟨awaited, first⟩] at stepped
      let next : World := { world with clock := later, queue := [] }
      obtain ⟨last, comes, ended, late, told⟩ := @ih next solitary single rfl going
      exact ⟨last, comes.step going stepped, ended, late, told⟩

include idle fixed solitary single in
/-- If a run that performs one solitary work has an outcome, so has the work, and at that time. -/
theorem finishes_of_toOutcome? {fuel : Nat}
    (found : world.toOutcome? machine fuel = some (.ok outcome, last)) :
    ∃ log count, work.Finishes machine world.clock log outcome last.clock count := by
  have going : world.outcome? = none := outcome?_eq_none (by rw [single]; rfl) rfl
  induction fuel generalizing world work with
  | zero => cases found
  | succ fuel ih =>
      have whole := found
      rw [toOutcome?, going] at found
      cases ended : work.ended? with
      | some other =>
          cases work with
          | done result =>
              obtain ⟨_, comes, _, late, _⟩ := comes_of_done fixed single
              cases comes.unique whole
              rw [← late]
              exact ⟨[], 0, .now⟩
          | broken defect =>
              have moved : machine.step? world (.body frame (.broken defect) index []) =
                some (.become (.broken defect)) := rfl
              obtain ⟨next, stepped, _, tasks, _⟩ := single_move single moved rfl rfl
              rw [stepped] at found
              have broken : next.outcome? = some (.error defect) :=
                outcome?_eq_error.mpr (by rw [tasks]; rfl)
              obtain ⟨reaches, ends⟩ := toOutcome?_reaches found
              obtain ⟨_, breaks⟩ := Reaches.broken reaches broken
              cases breaks.symm.trans ends
          | _ => cases ended
      | none =>
          cases moved : machine.step? (.bare world.clock) work with
          | some change =>
              obtain ⟨changed, next, stepped, late, tasks, _⟩ :=
                lone_move idle solitary single moved
              rw [stepped] at found
              have going' : next.outcome? = none := outcome?_eq_none (by rw [tasks]; rfl) rfl
              obtain ⟨log, count, finishes⟩ := ih changed.work tasks found going'
              rw [late] at finishes
              exact ⟨_, _, .move moved finishes⟩
          | none =>
              rw [lone_rest idle solitary single ended moved] at found
              cases next : work.wakes.min? with
              | none =>
                  rw [next] at found
                  cases found
              | some later =>
                  rw [next] at found
                  obtain ⟨awaited, first⟩ := List.min?_eq_some_iff.mp next
                  have less : world.clock < later := by
                    by_contra past
                    have come := Nat.le_of_not_lt past
                    exact @Machine.due _ (.bare world.clock) _ come work awaited moved
                  obtain ⟨log, count, finishes⟩ :=
                    @ih { world with clock := later, queue := [] } work solitary single found going
                  exact ⟨log, count + 1, .rest moved less awaited first finishes⟩

end World

end Runbook
