import Runbook.Proofs.Evaluation.Orders
import Runbook.Proofs.Evaluation.Sequel

/-!
A group of names that is bound to steps and then read back.

The task of the binding does in one run what the run itself does in the other, where the steps are
performed without names. All that they start is paired. What reads the names can only wait for that
task, and from the moment at which it ends has moves of its own that nothing else has a say in.
-/
namespace Runbook

/-- Other tasks than the one that moves are kept. -/
theorem World.Kept.after {world next : World} {task moved : TaskId} {work : Work} {change : Change}
    (same : next.tasks = world.tasksAfter moved change) (there : world.tasks[task]? = some work)
    (differs : task ≠ moved) : world.Kept next task := by
  obtain ⟨later, now, met⟩ := getElem?_after_other same there differs
  refine ⟨work, there, ?_⟩
  rw [now]
  exact met.imp (congrArg some) (congrArg some)

/-- All tasks of two worlds are paired with like works, but for those that each has of its own. -/
structure World.Shared (pairs : Pairing) (own own' : List TaskId) (world world' : World) : Prop where
  clock : world'.clock = world.clock
  paired : World.Paired Comparison.everything pairs world world'
  lefts : ∀ task, task ∈ pairs.lefts ↔ task < world.tasks.length ∧ task ∉ own
  rights : ∀ task, task ∈ pairs.rights ↔ task < world'.tasks.length ∧ task ∉ own'
  known : ∀ task ∈ own, task < world.tasks.length
  known' : ∀ task ∈ own', task < world'.tasks.length

namespace World.Shared

variable {machine : Machine} {pairs more : Pairing} {own own' : List TaskId}
  {world world' next next' : World} {task task' : TaskId} {one other : Work}
  {change change' : Change}

/-- Like works can move in both worlds or in none, and become like works. -/
theorem rel (machine : Machine) (shared : world.Shared pairs own own' world')
    (alike : one.Alike Comparison.everything pairs other) :
    Option.Rel (fun change change' => ∃ more, Change.Alike
        (world.ground Comparison.everything pairs world') more change change')
      (machine.step? world one) (machine.step? world' other) := by
  have timely : one.Timely Comparison.everything world world' other := by
    refine ⟨fun _ _ _ _ => ⟨nofun, nofun⟩, fun _ _ _ _ => ⟨nofun, nofun⟩, fun moment _ => ?_⟩
    rw [shared.clock]
  have moved := Machine.step?_alike (Comparison.everything_lawful machine) shared.paired one alike
    timely
  generalize machine.step? world one = change at moved ⊢
  generalize machine.step? world' other = change' at moved ⊢
  cases moved with
  | none => exact .none
  | some same => exact .some (same shared.clock.symm fun _ _ _ _ _ _ => trivial)

theorem relTask (machine : Machine) (shared : world.Shared pairs own own' world') {pair : Nat × Nat}
    (inside : pair ∈ pairs) :
    Option.Rel (fun change change' => ∃ more, Change.Alike
        (world.ground Comparison.everything pairs world') more change change')
      (machine.stepTask? world pair.1) (machine.stepTask? world' pair.2) := by
  obtain ⟨one, other, there, there', alike⟩ := shared.paired.there inside
  rw [Machine.stepTask?, Machine.stepTask?, there, there']
  exact shared.rel machine alike

/-- After like moves of two tasks that are paired, or of each world's own, all others are paired. -/
theorem both (shared : world.Shared pairs own own' world')
    (turn : (task, task') ∈ pairs ∨ task ∈ own ∧ task' ∈ own')
    (there : world.tasks[task]? = some one) (there' : world'.tasks[task']? = some other)
    (clock : next.clock = world.clock) (clock' : next'.clock = world'.clock)
    (same : next.tasks = world.tasksAfter task change)
    (same' : next'.tasks = world'.tasksAfter task' change')
    (grown : (world.ground Comparison.everything pairs world').Grown more change.started
      change'.started)
    (works : (task, task') ∈ pairs → change.work.Alike Comparison.everything more change'.work) :
    next.Shared more own own' next' := by
  have length : next.tasks.length = world.tasks.length + change.started.length := by
    rw [same, length_tasksAfter]
  have length' : next'.tasks.length = world'.tasks.length + change'.started.length := by
    rw [same', length_tasksAfter]
  refine ⟨?_, ?_, fun other => ⟨fun inside => ?_, fun found => ?_⟩,
    fun other => ⟨fun inside => ?_, fun found => ?_⟩, fun other inside => ?_,
    fun other inside => ?_⟩
  · rw [clock, clock', shared.clock]
  · refine World.paired_after (fun pair inside => ?_) there there' same same' grown works
    rcases turn with paired | ⟨mine, mine'⟩
    · exact shared.paired.ordered.eq_iff inside paired
    · refine iff_of_false (fun moved => ?_) fun moved => ?_
      · exact ((shared.lefts _).mp (Pairing.mem_lefts.mpr ⟨_, inside⟩)).2 (moved ▸ mine)
      · exact ((shared.rights _).mp (Pairing.mem_rights.mpr ⟨_, inside⟩)).2 (moved ▸ mine')
  · obtain ⟨counterpart, inside⟩ := Pairing.mem_lefts.mp inside
    rcases grown.fresh _ inside with known | fresh
    · obtain ⟨below, apart⟩ := (shared.lefts other).mp (Pairing.mem_lefts.mpr ⟨_, known⟩)
      exact ⟨length ▸ Nat.lt_add_right _ below, apart⟩
    · obtain ⟨below, _⟩ := grown.below inside
      rw [List.length_append] at below
      exact ⟨length ▸ below, fun mine => absurd (shared.known _ mine) (Nat.not_lt_of_le fresh.1)⟩
  · by_cases below : other < world.tasks.length
    · obtain ⟨counterpart, inside⟩ :=
        Pairing.mem_lefts.mp ((shared.lefts other).mpr ⟨below, found.2⟩)
      exact Pairing.mem_lefts.mpr ⟨counterpart, grown.keeps inside⟩
    · refine Pairing.mem_lefts.mpr (grown.whole₁ other ?_ ⟨trivial, Nat.le_of_not_lt below⟩)
      rw [List.length_append]
      exact length ▸ found.1
  · obtain ⟨counterpart, inside⟩ := Pairing.mem_rights.mp inside
    rcases grown.fresh _ inside with known | fresh
    · obtain ⟨below, apart⟩ := (shared.rights other).mp (Pairing.mem_rights.mpr ⟨_, known⟩)
      exact ⟨length' ▸ Nat.lt_add_right _ below, apart⟩
    · obtain ⟨_, below⟩ := grown.below inside
      rw [List.length_append] at below
      exact ⟨length' ▸ below, fun mine => absurd (shared.known' _ mine) (Nat.not_lt_of_le fresh.2)⟩
  · by_cases below : other < world'.tasks.length
    · obtain ⟨counterpart, inside⟩ :=
        Pairing.mem_rights.mp ((shared.rights other).mpr ⟨below, found.2⟩)
      exact Pairing.mem_rights.mpr ⟨counterpart, grown.keeps inside⟩
    · refine Pairing.mem_rights.mpr (grown.whole₂ other ?_ ⟨trivial, Nat.le_of_not_lt below⟩)
      rw [List.length_append]
      exact length' ▸ found.1
  · exact length ▸ Nat.lt_add_right _ (shared.known other inside)
  · exact length' ▸ Nat.lt_add_right _ (shared.known' other inside)

/-- A task of the first world's own moves, and starts nothing. -/
theorem left (shared : world.Shared pairs own own' world') (mine : task ∈ own)
    (clock : next.clock = world.clock) (same : next.tasks = world.tasksAfter task change)
    (starts : change.started = []) : next.Shared pairs own own' world' := by
  have length : next.tasks.length = world.tasks.length := by
    rw [same, length_tasksAfter, starts, List.length_nil, Nat.add_zero]
  refine ⟨by rw [clock, shared.clock], ?_, length ▸ shared.lefts, shared.rights,
    length ▸ shared.known, shared.known'⟩
  refine Kept.paired shared.paired (fun pair inside => ?_) fun pair inside => ?_
  · obtain ⟨work, _, there, _, _⟩ := shared.paired.there inside
    have differs : pair.1 ≠ task := fun moved =>
      ((shared.lefts _).mp (Pairing.mem_lefts.mpr ⟨_, inside⟩)).2 (moved ▸ mine)
    exact .after same there differs
  · obtain ⟨_, work, _, there, _⟩ := shared.paired.there inside
    exact .refl there

theorem right (shared : world.Shared pairs own own' world') (mine : task' ∈ own')
    (clock : next'.clock = world'.clock) (same : next'.tasks = world'.tasksAfter task' change')
    (starts : change'.started = []) : world.Shared pairs own own' next' := by
  have length : next'.tasks.length = world'.tasks.length := by
    rw [same, length_tasksAfter, starts, List.length_nil, Nat.add_zero]
  refine ⟨by rw [clock, shared.clock], ?_, shared.lefts, length ▸ shared.rights,
    shared.known, length ▸ shared.known'⟩
  refine Kept.paired shared.paired (fun pair inside => ?_) fun pair inside => ?_
  · obtain ⟨work, _, there, _, _⟩ := shared.paired.there inside
    exact .refl there
  · obtain ⟨_, work, _, there, _⟩ := shared.paired.there inside
    have differs : pair.2 ≠ task' := fun moved =>
      ((shared.rights _).mp (Pairing.mem_rights.mpr ⟨_, inside⟩)).2 (moved ▸ mine)
    exact .after same there differs

theorem tick (shared : world.Shared pairs own own' world') (same : next.tasks = world.tasks)
    (same' : next'.tasks = world'.tasks) (clock : next'.clock = next.clock) :
    next.Shared pairs own own' next' := by
  refine ⟨clock, ?_, same ▸ shared.lefts, same' ▸ shared.rights, same ▸ shared.known,
    same' ▸ shared.known'⟩
  refine Kept.paired shared.paired (fun pair inside => ?_) fun pair inside => ?_
  · obtain ⟨work, _, there, _, _⟩ := shared.paired.there inside
    exact ⟨work, there, .inl (same ▸ there)⟩
  · obtain ⟨_, work, _, there, _⟩ := shared.paired.there inside
    exact ⟨work, there, .inl (same' ▸ there)⟩

/-- When nothing can move in the one world, nothing can in the other but what is its own. -/
theorem asleep (shared : world.Shared pairs own own' world') (none : machine.awake world = [])
    (still : ∀ task ∈ own', machine.stepTask? world' task = Option.none) :
    machine.awake world' = [] := by
  refine List.eq_nil_iff_forall_not_mem.mpr fun task listed => ?_
  have moves := Machine.mem_awake.mp listed
  by_cases mine : task ∈ own'
  · rw [still task mine] at moves
    cases moves
  · obtain ⟨other, inside⟩ := Pairing.mem_rights.mp ((shared.rights task).mpr
      ⟨List.mem_range.mp (List.mem_filter.mp listed).1, mine⟩)
    have same := shared.relTask machine inside
    generalize first : machine.stepTask? world other = change at same
    generalize machine.stepTask? world' task = change' at same moves
    cases same with
    | none => cases moves
    | some _ =>
        have listed := Machine.mem_awake.mpr (Option.isSome_of_eq_some first)
        rw [none] at listed
        cases listed

theorem asleep' (shared : world.Shared pairs own own' world') (none : machine.awake world' = [])
    (still : ∀ task ∈ own, machine.stepTask? world task = Option.none) :
    machine.awake world = [] := by
  refine List.eq_nil_iff_forall_not_mem.mpr fun task listed => ?_
  have moves := Machine.mem_awake.mp listed
  by_cases mine : task ∈ own
  · rw [still task mine] at moves
    cases moves
  · obtain ⟨other, inside⟩ := Pairing.mem_lefts.mp ((shared.lefts task).mpr
      ⟨List.mem_range.mp (List.mem_filter.mp listed).1, mine⟩)
    have same := shared.relTask machine inside
    generalize machine.stepTask? world task = change at same moves
    generalize second : machine.stepTask? world' other = change' at same
    cases same with
    | none => cases moves
    | some _ =>
        have listed := Machine.mem_awake.mpr (Option.isSome_of_eq_some second)
        rw [none] at listed
        cases listed

/-- The same moment is waited for next, if it is by the tasks that are not paired. -/
theorem wake? (shared : world.Shared pairs own own' world')
    (same : ∀ moment, (∃ task ∈ own, ∃ work, world.tasks[task]? = some work ∧ moment ∈ work.wakes) ↔
      ∃ task ∈ own', ∃ work, world'.tasks[task]? = some work ∧ moment ∈ work.wakes) :
    world'.wake? = world.wake? := by
  refine min?_congr fun moment => ?_
  rw [Work.mem_wakesOfAll, Work.mem_wakesOfAll]
  constructor
  · intro awaited
    obtain ⟨work, among, inside⟩ := awaited
    obtain ⟨task, there⟩ := List.mem_iff_getElem?.mp among
    by_cases mine : task ∈ own'
    · obtain ⟨_, _, work, there, inside⟩ := (same moment).mpr ⟨task, mine, work, there, inside⟩
      exact ⟨work, List.mem_of_getElem? there, inside⟩
    · obtain ⟨other, paired⟩ := Pairing.mem_rights.mp ((shared.rights task).mpr
        ⟨(List.getElem?_eq_some_iff.mp there).1, mine⟩)
      obtain ⟨one, _, found, there', alike⟩ := shared.paired.there paired
      obtain rfl := Option.some.inj (there.symm.trans there')
      exact ⟨one, List.mem_of_getElem? found, Work.wakes_alike one alike ▸ inside⟩
  · intro awaited
    obtain ⟨work, among, inside⟩ := awaited
    obtain ⟨task, there⟩ := List.mem_iff_getElem?.mp among
    by_cases mine : task ∈ own
    · obtain ⟨_, _, work, there, inside⟩ := (same moment).mp ⟨task, mine, work, there, inside⟩
      exact ⟨work, List.mem_of_getElem? there, inside⟩
    · obtain ⟨other, paired⟩ := Pairing.mem_lefts.mp ((shared.lefts task).mpr
        ⟨(List.getElem?_eq_some_iff.mp there).1, mine⟩)
      obtain ⟨_, two, there', found, alike⟩ := shared.paired.there paired
      obtain rfl := Option.some.inj (there.symm.trans there')
      exact ⟨two, List.mem_of_getElem? found, Work.wakes_alike work alike ▸ inside⟩

end World.Shared

namespace Work

variable {machine : Machine} {given : World → Prop} {verdict : Option Outcome} {work other : Work}

theorem Concludes.alike {like : Likeness} {pairs : Pairing} (concludes : work.Concludes verdict)
    (alike : work.Alike like pairs other) : other.Concludes verdict := by
  cases verdict with
  | some outcome =>
      obtain rfl : work = .done outcome := concludes
      cases alike
      rfl
  | none =>
      obtain ⟨defect, rfl⟩ := concludes
      cases alike with
      | broken _ other => exact ⟨other, rfl⟩

/-- What has failed or broken down has come to no value. -/
theorem concludes_of_failed? {failed : Work} (fails : work.failed? = some failed) :
    ∃ verdict, failed.Concludes verdict ∧ ∀ value, verdict ≠ some (.ok value) := by
  cases work with
  | done outcome =>
      cases outcome with
      | ok value => cases fails
      | error failure =>
          cases fails
          exact ⟨some (.error failure), rfl, nofun⟩
  | broken defect =>
      cases fails
      exact ⟨none, ⟨defect, rfl⟩, nofun⟩
  | _ => cases fails

/-- Works that all have values are these values. -/
theorem eq_map_of_collected {members : List Work} {values : List Value}
    (collected : members.mapM value? = some values) :
    members = values.map fun value => .done (.ok value) := by
  induction members generalizing values with
  | nil =>
      cases collected
      rfl
  | cons first members ih =>
      obtain ⟨value, rfl⟩ := done_of_collected collected List.mem_cons_self
      rw [List.mapM_cons] at collected
      obtain ⟨_, here, rest⟩ := Option.bind_eq_some_iff.mp collected
      obtain ⟨others, later, same⟩ := Option.bind_eq_some_iff.mp rest
      cases here
      cases same
      rw [List.map_cons, ← ih later]

/-- The last entry of a body whose frame leaves nothing gives the body its outcome. -/
theorem Concludes.body {frame : Frame} {index : Nat} (concludes : work.Concludes verdict)
    (asked : frame.unobserved = []) :
    (Work.body frame work index []).Fated machine given (Concludes verdict) 2 := by
  cases verdict with
  | none =>
      obtain ⟨defect, rfl⟩ := concludes
      exact .step fun _ _ => ⟨_, rfl, rfl, .here ⟨defect, rfl⟩⟩
  | some outcome =>
      obtain rfl : work = .done outcome := concludes
      cases outcome with
      | error failure => exact .step fun _ _ => ⟨_, rfl, rfl, .here rfl⟩
      | ok value =>
          refine .step fun _ _ => ⟨_, rfl, rfl, .step fun _ _ => ⟨.finish (.ok value), ?_, rfl, rfl⟩⟩
          rw [Change.become, asked]
          rfl

end Work

/-- What gathers values goes on to gather so many, or has them all or never will. -/
theorem Moves.gathers {machine : Machine} {world : World} {shape : Shape} {members : List Work}
    {change : Change} (moves : Moves machine world (.gather shape members) change) :
    (∃ later, change.work = .gather shape later ∧ later.length = members.length) ∨
      change.started = [] ∧ ∃ verdict, change.work.Concludes verdict ∧ ∀ value,
        verdict = some (.ok value) → ∃ values : List Value,
          members = values.map (fun value => .done (.ok value)) ∧ value = shape.collect values := by
  cases moves with
  | spoil spoiled =>
      obtain ⟨_, _, fails⟩ := spoiled_mem spoiled
      obtain ⟨verdict, concludes, none⟩ := Work.concludes_of_failed? fails
      exact .inr ⟨rfl, verdict, concludes, fun value same => absurd same (none value)⟩
  | @collect _ _ values collected =>
      refine .inr ⟨rfl, some (.ok (shape.collect values)), rfl, fun value same => ?_⟩
      cases same
      exact ⟨values, Work.eq_map_of_collected collected, rfl⟩
  | @member _ before member after change _ =>
      refine .inl ⟨_, rfl, ?_⟩
      rw [List.length_append, List.length_append]
      rfl

/-- In the world the task has ended so. -/
def World.CameTo (task : TaskId) (verdict : Option Outcome) (world : World) : Prop :=
  ∃ work, world.tasks[task]? = some work ∧ work.Concludes verdict

/-- The end of a task is there to stay. -/
theorem World.CameTo.steady {machine : Machine} {task : TaskId} {verdict : Option Outcome} :
    World.Steady machine (World.CameTo task verdict) := by
  intro world next ended step
  obtain ⟨work, there, concludes⟩ := ended
  obtain ⟨later, origin, now, met, source⟩ := step.goes.stands there
  have same : origin = work := by
    rcases source with same | ⟨change, moves, _⟩
    · exact same
    · have ends := concludes.ended
      cases moves <;> cases ends
  subst same
  rcases met with rfl | rfl
  · exact ⟨_, now, concludes⟩
  · exact ⟨_, now, concludes.meet⟩

/-- What several works that are gathered can come to. -/
def Collected (size : Nat) (verdict : Option Outcome) : Prop :=
  ∀ value, verdict = some (.ok value) →
    ∃ values : List Value, values.length = size ∧ value = .ofResults values

/-- A group of names, and what reads them. -/
structure Group where
  machine : Machine
  /-- The task that gives the values of the names. -/
  task : TaskId
  /-- How many names there are. -/
  size : Nat
  /-- What the run has still to do once all bindings are made. -/
  reader : Work
  /-- What it makes of the outcome of the task. -/
  readout : Outcome → Outcome
  bound : 0 < task
  waits : ∀ world : World, world.tasks[task]?.bind Work.ended? = none →
    machine.step? world reader = none
  idle : reader.wakes = []
  going : reader.ended? = none
  reads : ∀ verdict, Collected size verdict → ∃ count, reader.Fated machine
    (World.CameTo task verdict) (Work.Concludes (verdict.map readout)) count

namespace Group

variable {group : Group} {pairs : Pairing} {count count' : Nat} {frame : Frame}
  {ones others : List Work} {verdict : Option Outcome} {plain bound next : World}

/-- The task gathers the values of the steps, as the plain run does itself; the run that has bound
them comes to what reads the names. -/
structure Before (group : Group) (pairs : Pairing) (frame : Frame) (ones others : List Work)
    (count : Nat) (plain bound : World) : Prop where
  shared : plain.Shared pairs [0] [0, group.task] bound
  size : ones.length = group.size
  alike : List.Forall₂ (Work.Alike Comparison.everything pairs) ones others
  asked : frame.unobserved = []
  plain : plain.tasks[0]? = some (.body frame (.gather .results ones) 1 [])
  bound : ∃ work ahead, bound.tasks[0]? = some work ∧
    work.Fated group.machine (fun _ => True) (· = group.reader) ahead ∧
    (count = ahead ∧ bound.tasks[group.task]? = some (.gather .results others) ∨
      count = ahead + 1 ∧ bound.tasks[group.task]? = some (.fresh (.gather .results others)))

/-- All values have been gathered, or will never be. -/
structure After (group : Group) (pairs : Pairing) (verdict : Option Outcome) (count count' : Nat)
    (plain bound : World) : Prop where
  shared : plain.Shared pairs [0] [0, group.task] bound
  plain : ∃ work, plain.tasks[0]? = some work ∧
    work.Fated group.machine (fun _ => True) (Work.Concludes verdict) count
  ended : bound.CameTo group.task verdict
  bound : ∃ work, bound.tasks[0]? = some work ∧ work.Fated group.machine
    (World.CameTo group.task verdict) (Work.Concludes (verdict.map group.readout)) count'

/-- A work that comes to what reads the names has not ended. -/
theorem going_of_fated {work : Work}
    (fated : work.Fated group.machine (fun _ => True) (· = group.reader) count) :
    work.ended? = none := by
  by_cases same : work = group.reader
  · exact same ▸ group.going
  · obtain ⟨change, _, _, moved, _⟩ := fated.moves ⟨0, [], [], []⟩ trivial same
    exact Work.ended?_of_step? moved

namespace Before

variable {more : Pairing} {plain' bound' : World} {task task' : TaskId} {change change' : Change}

/-- Each next world of the one run has its counterpart. -/
def Matched (group : Group) (count : Nat) (plain bound : World) : Prop :=
  (∃ pairs frame ones others, group.Before pairs frame ones others count plain bound) ∨
    plain.outcome? = none ∧ bound.outcome? = none ∧
      ∃ pairs verdict count count', group.After pairs verdict count count' plain bound

/-- Paired tasks move. -/
theorem moved (before : group.Before pairs frame ones others count plain bound)
    (inside : (task, task') ∈ pairs) {one other : Work} (there : plain.tasks[task]? = some one)
    (there' : bound.tasks[task']? = some other)
    (alike : Change.Alike (plain.ground Comparison.everything pairs bound) more change change')
    (clock : plain'.clock = plain.clock) (same : plain'.tasks = plain.tasksAfter task change)
    (clock' : bound'.clock = bound.clock) (same' : bound'.tasks = bound.tasksAfter task' change') :
    group.Before more frame ones others count plain' bound' := by
  have apart : task ∉ [0] :=
    ((before.shared.lefts task).mp (Pairing.mem_lefts.mpr ⟨_, inside⟩)).2
  have apart' : task' ∉ [0, group.task] :=
    ((before.shared.rights task').mp (Pairing.mem_rights.mpr ⟨_, inside⟩)).2
  rw [List.mem_singleton] at apart
  rw [List.mem_cons, List.mem_singleton, not_or] at apart'
  obtain ⟨work, ahead, run, fated, source⟩ := before.bound
  refine ⟨before.shared.both (.inl inside) there there' clock clock' same same' alike.grown
    fun _ => alike.work, before.size, Work.alikeAll_mono alike.grown.keeps ones before.alike,
    before.asked, World.getElem?_stays (Ne.symm apart) same before.plain rfl, work, ahead,
    World.getElem?_stays (Ne.symm apart'.1) same' run (going_of_fated fated), fated, ?_⟩
  refine source.imp (And.imp_right fun found => ?_) (And.imp_right fun found => ?_)
  · exact World.getElem?_stays (Ne.symm apart'.2) same' found rfl
  · exact World.getElem?_stays (Ne.symm apart'.2) same' found rfl

/-- The task of the binding moves, and the plain run does so itself. -/
theorem gathered (before : group.Before pairs frame ones others count plain bound)
    (source : bound.tasks[group.task]? = some (.gather .results others))
    (moved : group.machine.step? plain (.gather .results ones) = some change)
    (alike : Change.Alike (plain.ground Comparison.everything pairs bound) more change change')
    (clock : plain'.clock = plain.clock)
    (same : plain'.tasks = plain.tasksAfter 0 (change.within (.body frame · 1 [])))
    (clock' : bound'.clock = bound.clock)
    (same' : bound'.tasks = bound.tasksAfter group.task change') :
    Matched group count plain' bound' := by
  have shared : plain'.Shared more [0] [0, group.task] bound' := by
    refine before.shared.both (.inr ⟨List.mem_singleton_self _, List.mem_cons_of_mem _
      (List.mem_singleton_self _)⟩) before.plain source clock clock' same same' alike.grown
      fun inside => ?_
    have apart := ((before.shared.lefts 0).mp (Pairing.mem_lefts.mpr ⟨_, inside⟩)).2
    exact absurd (List.mem_singleton_self _) apart
  obtain ⟨work, ahead, run, fated, ⟨rfl, _⟩ | ⟨_, other⟩⟩ := before.bound
  case inr => cases source.symm.trans other
  have run := World.getElem?_stays (Nat.ne_of_lt group.bound) same' run (going_of_fated fated)
  have main : plain'.tasks[0]? = some (.body frame change.work 1 []) := by
    obtain ⟨later, now, rfl | rfl⟩ := World.getElem?_after_moved same before.plain
    · exact now
    · exact now
  obtain ⟨later, now, met⟩ := World.getElem?_after_moved same' source
  rcases (Machine.step?_moves _ moved).gathers with ⟨members, gathers, size⟩ | ⟨_, found⟩
  · have both := alike.work
    rw [gathers] at both main
    generalize change'.work = other at both met
    cases both with
    | @gather _ members' _ both =>
        refine .inl ⟨more, frame, members, members', shared, size.trans before.size, both,
          before.asked, main, work, count, run, fated, .inl ⟨rfl, ?_⟩⟩
        rcases met with rfl | rfl
        · exact now
        · exact now
  · obtain ⟨verdict, concludes, values⟩ := found
    have collected : Collected group.size verdict := by
      intro value same
      obtain ⟨values, all, rfl⟩ := values value same
      refine ⟨values, ?_, rfl⟩
      rw [← before.size, all, List.length_map]
    obtain ⟨least, reads⟩ := group.reads verdict collected
    refine .inr ⟨World.outcome?_eq_none main rfl, World.outcome?_eq_none run (going_of_fated fated),
      more, verdict, 2, count + least, shared, ⟨_, main, concludes.body before.asked⟩,
      ⟨later, now, ?_⟩, work, run, (fated.under fun _ _ => trivial).trans ?_⟩
    · rcases met with rfl | rfl
      · exact concludes.alike alike.work
      · exact (concludes.alike alike.work).meet
    · rintro _ rfl
      exact reads

theorem stepTask?_plain (before : group.Before pairs frame ones others count plain bound) :
    group.machine.stepTask? plain 0 =
      (group.machine.step? plain (.gather .results ones)).map (·.within (.body frame · 1 [])) := by
  rw [Machine.stepTask?, before.plain, Option.bind_some, Machine.step?_body frame 1 [] rfl]

/-- The run that has bound the names has nothing more to do by itself. -/
theorem settled (before : group.Before pairs frame ones others 0 plain bound) :
    bound.tasks[0]? = some group.reader ∧
      bound.tasks[group.task]? = some (.gather .results others) := by
  obtain ⟨work, ahead, run, fated, ⟨rfl, source⟩ | ⟨more, _⟩⟩ := before.bound
  · obtain rfl : work = group.reader := fated
    exact ⟨run, source⟩
  · cases more

/-- What reads the names waits. -/
theorem reader_still (before : group.Before pairs frame ones others count plain bound) :
    group.machine.step? bound group.reader = none := by
  obtain ⟨_, _, _, _, ⟨_, source⟩ | ⟨_, source⟩⟩ := before.bound
  · refine group.waits bound ?_
    rw [source]
    rfl
  · refine group.waits bound ?_
    rw [source]
    rfl

/-- When nothing can move in the run that has bound the names, it has nothing more to do. -/
theorem of_asleep (before : group.Before pairs frame ones others count plain bound)
    (none : group.machine.awake bound = []) : group.Before pairs frame ones others 0 plain bound := by
  have still (task : TaskId) : group.machine.stepTask? bound task = Option.none := by
    cases moved : group.machine.stepTask? bound task with
    | none => rfl
    | some change =>
        have listed := Machine.mem_awake.mpr (Option.isSome_of_eq_some moved)
        rw [none] at listed
        cases listed
  obtain ⟨work, ahead, run, fated, source⟩ := before.bound
  have waits := still 0
  rw [Machine.stepTask?, run] at waits
  obtain rfl := fated.final_of_still bound trivial waits
  refine { before with bound := ⟨_, 0, run, rfl, ?_⟩ }
  rcases source with ⟨_, source⟩ | ⟨_, source⟩
  · exact .inl ⟨rfl, source⟩
  · have waits := still group.task
    rw [Machine.stepTask?, source] at waits
    cases waits

/-- Both wait for the same moment. -/
theorem wake? (before : group.Before pairs frame ones others 0 plain bound) :
    bound.wake? = plain.wake? := by
  obtain ⟨run, source⟩ := before.settled
  refine before.shared.wake? fun moment => ⟨fun awaited => ?_, fun awaited => ?_⟩
  · obtain ⟨task, mine, work, there, inside⟩ := awaited
    obtain rfl := List.mem_singleton.mp mine
    obtain rfl := Option.some.inj (before.plain.symm.trans there)
    refine ⟨group.task, List.mem_cons_of_mem _ (List.mem_singleton_self _), _, source, ?_⟩
    rw [Work.wakes, Work.wakes, Work.wakesOfAll_alike ones before.alike] at inside
    rw [Work.wakes]
    exact inside
  · obtain ⟨task, mine, work, there, inside⟩ := awaited
    rcases List.mem_cons.mp mine with rfl | mine
    · obtain rfl := Option.some.inj (run.symm.trans there)
      rw [group.idle] at inside
      cases inside
    · obtain rfl := List.mem_singleton.mp mine
      obtain rfl := Option.some.inj (source.symm.trans there)
      refine ⟨0, List.mem_singleton_self _, _, before.plain, ?_⟩
      rw [Work.wakes] at inside
      rw [Work.wakes, Work.wakes, Work.wakesOfAll_alike ones before.alike]
      exact inside

/-- What reads the names moves, and has less to do. -/
theorem run_moved (before : group.Before pairs frame ones others count plain bound)
    (moved : group.machine.stepTask? bound 0 = some change) (clock : bound'.clock = bound.clock)
    (same : bound'.tasks = bound.tasksAfter 0 change) :
    ∃ fewer < count, group.Before pairs frame ones others fewer plain bound' := by
  obtain ⟨work, ahead, run, fated, source⟩ := before.bound
  rw [Machine.stepTask?, run, Option.bind_some] at moved
  have unfinished : work ≠ group.reader := by
    rintro rfl
    cases before.reader_still.symm.trans moved
  obtain ⟨other, fewer, less, moves, starts, rest⟩ :=
    fated.moves bound trivial unfinished
  obtain rfl : other = change := Option.some.inj (moves.symm.trans moved)
  have run : bound'.tasks[0]? = some other.work := by
    obtain ⟨later, now, met⟩ := World.getElem?_after_moved same run
    have going := going_of_fated rest
    rcases met with rfl | rfl
    · exact now
    · rw [now]
      cases ended : other.work with
      | broken defect =>
          rw [ended] at going
          cases going
      | _ => rfl
  have stays {work : Work} (there : bound.tasks[group.task]? = some work)
      (going : work.ended? = none) : bound'.tasks[group.task]? = some work :=
    World.getElem?_stays (Nat.ne_of_gt group.bound) same there going
  have shared := before.shared.right List.mem_cons_self clock same starts
  rcases source with ⟨rfl, source⟩ | ⟨rfl, source⟩
  · exact ⟨fewer, less, { before with
      shared := shared
      bound := ⟨_, fewer, run, rest, .inl ⟨rfl, stays source rfl⟩⟩ }⟩
  · exact ⟨fewer + 1, Nat.succ_lt_succ less, { before with
      shared := shared
      bound := ⟨_, fewer, run, rest, .inr ⟨rfl, stays source rfl⟩⟩ }⟩

/-- The task of the binding begins. -/
theorem begun (before : group.Before pairs frame ones others count plain bound)
    (source : bound.tasks[group.task]? = some (.fresh (.gather .results others)))
    (clock : bound'.clock = bound.clock)
    (same : bound'.tasks = bound.tasksAfter group.task (.become (.gather .results others))) :
    ∃ fewer < count, group.Before pairs frame ones others fewer plain bound' := by
  obtain ⟨work, ahead, run, fated, ⟨_, other⟩ | ⟨rfl, _⟩⟩ := before.bound
  · cases source.symm.trans other
  · have now : bound'.tasks[group.task]? = some (.gather .results others) := by
      obtain ⟨later, now, rfl | rfl⟩ := World.getElem?_after_moved same source
      · exact now
      · exact now
    refine ⟨ahead, Nat.lt_succ_self _, { before with
      shared := before.shared.right (List.mem_cons_of_mem _ (List.mem_singleton_self _)) clock same
        rfl
      bound := ⟨work, ahead, ?_, fated, .inl ⟨rfl, now⟩⟩ }⟩
    exact World.getElem?_stays (Nat.ne_of_lt group.bound) same run (going_of_fated fated)

/-- The task of the binding moves: it only begins, or the plain run moves so too. -/
theorem source_moved (before : group.Before pairs frame ones others count plain bound)
    (moved : group.machine.stepTask? bound group.task = some change)
    (clock : bound'.clock = bound.clock)
    (same : bound'.tasks = bound.tasksAfter group.task change) :
    (∃ fewer < count, group.Before pairs frame ones others fewer plain bound') ∨
      ∃ plain' later, World.Next group.machine plain plain' ∧
        Matched group later plain' bound' := by
  obtain ⟨_, _, _, _, ⟨_, source⟩ | ⟨_, source⟩⟩ := before.bound
  · rw [Machine.stepTask?, source, Option.bind_some] at moved
    have alike := before.shared.rel group.machine (.gather .results before.alike)
    have own := before.stepTask?_plain
    rw [moved] at alike
    generalize found : group.machine.step? plain (.gather .results ones) = first at alike own
    cases alike with
    | some alike =>
        obtain ⟨more, alike⟩ := alike
        refine .inr ⟨⟨plain.clock, _, [], []⟩, count, .move own rfl rfl, ?_⟩
        exact before.gathered source found alike rfl rfl clock same
  · rw [Machine.stepTask?, source] at moved
    cases moved
    exact .inl (before.begun source clock same)

/-- Nothing can move in the run that has bound the names, so nothing can in the plain one. -/
theorem asleep (before : group.Before pairs frame ones others 0 plain bound)
    (none : group.machine.awake bound = []) : group.machine.awake plain = [] := by
  refine before.shared.asleep' none fun task mine => ?_
  obtain rfl := List.mem_singleton.mp mine
  have alike := before.shared.rel group.machine (.gather .results before.alike)
  have still : group.machine.step? bound (.gather .results others) = Option.none := by
    cases moved : group.machine.step? bound (.gather .results others) with
    | none => rfl
    | some change =>
        have listed : group.task ∈ group.machine.awake bound := by
          refine Machine.mem_awake.mpr ?_
          rw [Machine.stepTask?, before.settled.2, Option.bind_some, moved]
          rfl
        rw [none] at listed
        cases listed
  rw [before.stepTask?_plain]
  rw [still] at alike
  generalize group.machine.step? plain (.gather .results ones) = first at alike
  cases alike
  rfl

/-- Nothing can move in the plain run, so nothing can in the other. -/
theorem asleep' (before : group.Before pairs frame ones others 0 plain bound)
    (none : group.machine.awake plain = []) : group.machine.awake bound = [] := by
  obtain ⟨run, source⟩ := before.settled
  refine before.shared.asleep none fun task mine => ?_
  rcases List.mem_cons.mp mine with rfl | mine
  · rw [Machine.stepTask?, run]
    exact before.reader_still
  · obtain rfl := List.mem_singleton.mp mine
    have alike := before.shared.rel group.machine (.gather .results before.alike)
    have still : group.machine.step? plain (.gather .results ones) = Option.none := by
      cases moved : group.machine.step? plain (.gather .results ones) with
      | none => rfl
      | some change =>
          have listed : 0 ∈ group.machine.awake plain := by
            refine Machine.mem_awake.mpr ?_
            rw [before.stepTask?_plain, moved]
            rfl
          rw [none] at listed
          cases listed
    rw [Machine.stepTask?, source, Option.bind_some]
    rw [still] at alike
    generalize group.machine.step? bound (.gather .results others) = second at alike ⊢
    cases alike
    rfl

theorem tick (before : group.Before pairs frame ones others 0 plain bound)
    (same : plain'.tasks = plain.tasks) (same' : bound'.tasks = bound.tasks)
    (clock : bound'.clock = plain'.clock) :
    group.Before pairs frame ones others 0 plain' bound' := by
  obtain ⟨run, source⟩ := before.settled
  exact { before with
    shared := before.shared.tick same same' clock
    plain := same ▸ before.plain
    bound := ⟨_, 0, same' ▸ run, rfl, .inl ⟨rfl, same' ▸ source⟩⟩ }

/-- What reads the names makes a move of its own, or the plain run makes the same one. -/
theorem boundStep (before : group.Before pairs frame ones others count plain bound)
    (step : World.Next group.machine bound bound') :
    (∃ fewer < count, group.Before pairs frame ones others fewer plain bound') ∨
      ∃ plain' later, World.Next group.machine plain plain' ∧
        Matched group later plain' bound' := by
  cases step with
  | @move task' change' moved clock' same' =>
      by_cases mine : task' ∈ [0, group.task]
      · rcases List.mem_cons.mp mine with rfl | mine
        · exact .inl (before.run_moved moved clock' same')
        · obtain rfl := List.mem_singleton.mp mine
          exact before.source_moved moved clock' same'
      · obtain ⟨other, there', _⟩ := Option.bind_eq_some_iff.mp moved
        obtain ⟨task, inside⟩ := Pairing.mem_rights.mp ((before.shared.rights task').mpr
          ⟨(List.getElem?_eq_some_iff.mp there').1, mine⟩)
        have same := before.shared.relTask group.machine inside
        rw [moved] at same
        generalize found : group.machine.stepTask? plain task = change at same
        cases same with
        | some alike =>
            obtain ⟨more, alike⟩ := alike
            obtain ⟨one, there, _⟩ := Option.bind_eq_some_iff.mp found
            exact .inr ⟨⟨plain.clock, _, [], []⟩, count, .move found rfl rfl, .inl ⟨more, frame, ones,
              others, before.moved inside there there' alike rfl rfl clock' same'⟩⟩
  | tick asleep wakes same' =>
      have before := before.of_asleep asleep
      exact .inr ⟨⟨bound'.clock, plain.tasks, [], []⟩, 0,
        .tick (before.asleep asleep) (before.wake? ▸ wakes) rfl,
        .inl ⟨pairs, frame, ones, others, before.tick rfl same' rfl⟩⟩

/-- Once nothing is left to do in the other run, it makes each move of the plain one. -/
theorem plainStep (before : group.Before pairs frame ones others 0 plain bound)
    (step : World.Next group.machine plain plain') :
    ∃ bound', World.Next group.machine bound bound' ∧ Matched group 0 plain' bound' := by
  cases step with
  | @move task change moved clock same =>
      by_cases mine : task ∈ [0]
      · obtain rfl := List.mem_singleton.mp mine
        have alike := before.shared.rel group.machine (.gather .results before.alike)
        rw [before.stepTask?_plain] at moved
        obtain ⟨inner, first, rfl⟩ := Option.map_eq_some_iff.mp moved
        rw [first] at alike
        generalize found : group.machine.step? bound (.gather .results others) = second at alike
        cases alike with
        | @some _ change' alike =>
            obtain ⟨more, alike⟩ := alike
            have source := before.settled.2
            have moved : group.machine.stepTask? bound group.task = some change' := by
              rw [Machine.stepTask?, source]
              exact found
            exact ⟨⟨bound.clock, _, [], []⟩, .move moved rfl rfl,
              before.gathered source first alike clock same rfl rfl⟩
      · obtain ⟨one, there, _⟩ := Option.bind_eq_some_iff.mp moved
        obtain ⟨task', inside⟩ := Pairing.mem_lefts.mp ((before.shared.lefts task).mpr
          ⟨(List.getElem?_eq_some_iff.mp there).1, mine⟩)
        have both := before.shared.relTask group.machine inside
        rw [moved] at both
        generalize found : group.machine.stepTask? bound task' = change' at both
        cases both with
        | some alike =>
            obtain ⟨more, alike⟩ := alike
            obtain ⟨other, there', _⟩ := Option.bind_eq_some_iff.mp found
            exact ⟨⟨bound.clock, _, [], []⟩, .move found rfl rfl, .inl ⟨more, frame, ones, others,
              before.moved inside there there' alike clock same rfl rfl⟩⟩
  | tick asleep wakes same =>
      exact ⟨⟨plain'.clock, bound.tasks, [], []⟩,
        .tick (before.asleep' asleep) (before.wake? ▸ wakes) rfl,
        .inl ⟨pairs, frame, ones, others, before.tick same rfl rfl⟩⟩

end Before

namespace After

variable {more : Pairing} {plain' bound' : World} {task task' : TaskId} {change change' : Change}

/-- Paired tasks move. -/
theorem moved (after : group.After pairs verdict count count' plain bound)
    (inside : (task, task') ∈ pairs) (moved : group.machine.stepTask? plain task = some change)
    (moved' : group.machine.stepTask? bound task' = some change')
    (alike : Change.Alike (plain.ground Comparison.everything pairs bound) more change change')
    (clock : plain'.clock = plain.clock) (same : plain'.tasks = plain.tasksAfter task change)
    (clock' : bound'.clock = bound.clock) (same' : bound'.tasks = bound.tasksAfter task' change') :
    group.After more verdict count count' plain' bound' ∧
      (plain.outcome? = none → plain'.outcome? = none) ∧
      (bound.outcome? = none → bound'.outcome? = none) := by
  have apart : task ∉ [0] :=
    ((after.shared.lefts task).mp (Pairing.mem_lefts.mpr ⟨_, inside⟩)).2
  have apart' : task' ∉ [0, group.task] :=
    ((after.shared.rights task').mp (Pairing.mem_rights.mpr ⟨_, inside⟩)).2
  rw [List.mem_singleton] at apart
  rw [List.mem_cons, List.mem_singleton, not_or] at apart'
  obtain ⟨one, there, _⟩ := Option.bind_eq_some_iff.mp moved
  obtain ⟨other, there', _⟩ := Option.bind_eq_some_iff.mp moved'
  obtain ⟨work, run, fated⟩ := after.plain
  obtain ⟨work', run', fated'⟩ := after.bound
  have met {verdict : Option Outcome} : ∀ work : Work, work.Concludes verdict →
      work.meet.Concludes verdict := fun _ => Work.Concludes.meet
  obtain ⟨plain, goes⟩ := World.run_after_other same run (Ne.symm apart) fated trivial met
  obtain ⟨bound, goes'⟩ := World.run_after_other same' run' (Ne.symm apart'.1) fated' after.ended met
  refine ⟨⟨after.shared.both (.inl inside) there there' clock clock' same same' alike.grown
    fun _ => alike.work, plain, ?_, bound⟩, goes, goes'⟩
  exact World.CameTo.steady after.ended (.move moved' clock' same')

/-- What reads the names makes a move of its own, or the plain run makes the same one. -/
theorem boundStep (after : group.After pairs verdict count count' plain bound)
    (going : bound.outcome? = none) (step : World.Next group.machine bound bound') :
    (∃ fewer < count', group.After pairs verdict count fewer plain bound') ∨
      ∃ more plain', World.Next group.machine plain plain' ∧
        (plain.outcome? = none → plain'.outcome? = none) ∧
        group.After more verdict count count' plain' bound' := by
  obtain ⟨work, run, fated⟩ := after.bound
  have unfinished : ¬work.Concludes (verdict.map group.readout) :=
    World.not_concludes_of_outcome? run going
  obtain ⟨change, fewer, less, moves, starts, rest⟩ := fated.moves _ after.ended unfinished
  obtain ⟨clock, here | ⟨task', change', differs, moved, same, _⟩⟩ := step.elsewhere run moves
  · obtain ⟨later, now, met⟩ := World.getElem?_after_moved here run
    have ended := World.CameTo.steady after.ended step
    refine .inl ⟨fewer, less, after.shared.right List.mem_cons_self clock here starts, after.plain,
      ended, later, now, ?_⟩
    rcases met with rfl | rfl
    · exact rest
    · exact rest.meet (fun _ => Work.Concludes.meet) _ ended
  · obtain ⟨other, there, moving⟩ := Option.bind_eq_some_iff.mp moved
    have apart : task' ≠ group.task := by
      rintro rfl
      obtain ⟨ended, found, concludes⟩ := after.ended
      obtain rfl := Option.some.inj (found.symm.trans there)
      cases (Work.ended?_of_step? moving).symm.trans concludes.ended
    have stray : task' ∉ [0, group.task] := by
      rw [List.mem_cons, List.mem_singleton, not_or]
      exact ⟨differs, apart⟩
    obtain ⟨task, inside⟩ := Pairing.mem_rights.mp ((after.shared.rights task').mpr
      ⟨(List.getElem?_eq_some_iff.mp there).1, stray⟩)
    have both := after.shared.relTask group.machine inside
    rw [moved] at both
    generalize found : group.machine.stepTask? plain task = first at both
    cases both with
    | @some first _ alike =>
        obtain ⟨more, alike⟩ := alike
        let plain' : World := ⟨plain.clock, plain.tasksAfter task first, [], []⟩
        have clock' : plain'.clock = plain.clock := rfl
        have same' : plain'.tasks = plain.tasksAfter task first := rfl
        obtain ⟨after, goes, _⟩ := after.moved inside found moved alike clock' same' clock same
        exact .inr ⟨more, plain', .move found rfl rfl, goes, after⟩

/-- The plain run makes a move of its own, or the other makes the same one. -/
theorem plainStep (after : group.After pairs verdict count count' plain bound)
    (going : plain.outcome? = none) (step : World.Next group.machine plain plain') :
    (∃ fewer < count, group.After pairs verdict fewer count' plain' bound) ∨
      ∃ more bound', World.Next group.machine bound bound' ∧
        (bound.outcome? = none → bound'.outcome? = none) ∧
        group.After more verdict count count' plain' bound' := by
  obtain ⟨work, run, fated⟩ := after.plain
  have unfinished : ¬work.Concludes verdict :=
    World.not_concludes_of_outcome? run going
  obtain ⟨change, fewer, less, moves, starts, rest⟩ := fated.moves plain trivial unfinished
  obtain ⟨clock, here | ⟨task, change', differs, moved, same, _⟩⟩ := step.elsewhere run moves
  · obtain ⟨later, now, met⟩ := World.getElem?_after_moved here run
    refine .inl ⟨fewer, less, after.shared.left (List.mem_singleton_self _) clock here starts,
      ⟨later, now, ?_⟩, after.ended, after.bound⟩
    rcases met with rfl | rfl
    · exact rest
    · exact rest.meet (fun _ => Work.Concludes.meet) plain trivial
  · obtain ⟨other, there, _⟩ := Option.bind_eq_some_iff.mp moved
    obtain ⟨task', inside⟩ := Pairing.mem_lefts.mp ((after.shared.lefts task).mpr
      ⟨(List.getElem?_eq_some_iff.mp there).1, mt List.mem_singleton.mp differs⟩)
    have both := after.shared.relTask group.machine inside
    rw [moved] at both
    generalize found : group.machine.stepTask? bound task' = second at both
    cases both with
    | @some _ second alike =>
        obtain ⟨more, alike⟩ := alike
        let bound' : World := ⟨bound.clock, bound.tasksAfter task' second, [], []⟩
        have clock' : bound'.clock = bound.clock := rfl
        have same' : bound'.tasks = bound.tasksAfter task' second := rfl
        obtain ⟨after, _, goes⟩ := after.moved inside moved found alike clock same clock' same'
        exact .inr ⟨more, bound', .move found rfl rfl, goes, after⟩

/-- Both may end now, as the task of the binding has, and in no other way. -/
theorem may_iff {ends : Outcome → Nat → Prop}
    (after : group.After pairs verdict count count' plain bound) :
    World.May group.machine ends bound ↔
      World.May group.machine (fun outcome moment => ends (group.readout outcome) moment) plain := by
  obtain ⟨work, run, fated⟩ := after.plain
  obtain ⟨work', run', fated'⟩ := after.bound
  constructor
  · intro may
    obtain ⟨result, same, as⟩ := may.of_fated run' fated' after.ended World.CameTo.steady
    obtain ⟨outcome, rfl, rfl⟩ := Option.map_eq_some_iff.mp same
    rw [after.shared.clock] at as
    exact World.may_of_fated run fated trivial (fun _ _ => trivial) as
  · intro may
    obtain ⟨outcome, rfl, as⟩ := may.of_fated run fated trivial fun _ _ => trivial
    rw [← after.shared.clock] at as
    exact World.may_of_fated run' fated' after.ended World.CameTo.steady as

/-- If the plain run must end as asked for, the other has done so when it has ended. -/
theorem bound_ends {ends : Outcome → Nat → Prop} {result : Except Defect Outcome}
    (after : group.After pairs verdict count count' plain bound)
    (must : World.Must group.machine (fun outcome moment => ends (group.readout outcome) moment)
      plain) (found : bound.outcome? = some result) :
    ∃ outcome, result = .ok outcome ∧ ends outcome bound.clock := by
  obtain ⟨work, run, fated⟩ := after.plain
  obtain ⟨work', run', fated'⟩ := after.bound
  obtain ⟨outcome, rfl, as⟩ := must.may.of_fated run fated trivial fun _ _ => trivial
  refine ⟨group.readout outcome, ?_, after.shared.clock ▸ as⟩
  exact (World.concludes_of_outcome? found run' fated' after.ended _).mpr rfl

/-- If the other run must end as asked for, the plain one has done so when it has ended. -/
theorem plain_ends {ends : Outcome → Nat → Prop} {result : Except Defect Outcome}
    (after : group.After pairs verdict count count' plain bound)
    (must : World.Must group.machine ends bound) (found : plain.outcome? = some result) :
    ∃ outcome, result = .ok outcome ∧ ends (group.readout outcome) plain.clock := by
  obtain ⟨work, run, fated⟩ := after.plain
  obtain ⟨outcome, rfl, as⟩ := (after.may_iff.mp must.may).of_fated run fated trivial fun _ _ =>
    trivial
  exact ⟨outcome, (World.concludes_of_outcome? found run fated trivial _).mpr rfl, as⟩

/-- While it has not ended, the run that reads the names can move. -/
theorem bound_goes (after : group.After pairs verdict count count' plain bound)
    (going : bound.outcome? = none) : ∃ next, World.Next group.machine bound next := by
  obtain ⟨work, run, fated⟩ := after.bound
  obtain ⟨change, _, _, moved, _⟩ :=
    fated.moves _ after.ended (World.not_concludes_of_outcome? run going)
  have step : group.machine.stepTask? bound 0 = some change := by
    rw [Machine.stepTask?, run]
    exact moved
  exact ⟨⟨bound.clock, bound.tasksAfter 0 change, [], []⟩, .move step rfl rfl⟩

theorem plain_goes (after : group.After pairs verdict count count' plain bound)
    (going : plain.outcome? = none) : ∃ next, World.Next group.machine plain next := by
  obtain ⟨work, run, fated⟩ := after.plain
  obtain ⟨change, _, _, moved, _⟩ :=
    fated.moves plain trivial (World.not_concludes_of_outcome? run going)
  have step : group.machine.stepTask? plain 0 = some change := by
    rw [Machine.stepTask?, run]
    exact moved
  exact ⟨⟨plain.clock, plain.tasksAfter 0 change, [], []⟩, .move step rfl rfl⟩

end After

namespace Before

theorem bound_going (before : group.Before pairs frame ones others count plain bound) :
    bound.outcome? = none := by
  obtain ⟨work, ahead, run, fated, _⟩ := before.bound
  exact World.outcome?_eq_none run (going_of_fated fated)

theorem plain_going (before : group.Before pairs frame ones others count plain bound) :
    plain.outcome? = none := World.outcome?_eq_none before.plain rfl

/-- What reads the names has nothing to do by itself, or can do something of it. -/
theorem own (before : group.Before pairs frame ones others count plain bound) :
    group.Before pairs frame ones others 0 plain bound ∨
      ∃ bound', World.Next group.machine bound bound' ∧
        ∃ fewer < count, group.Before pairs frame ones others fewer plain bound' := by
  obtain ⟨work, ahead, run, fated, source⟩ := before.bound
  by_cases final : work = group.reader
  · subst final
    rcases source with ⟨_, source⟩ | ⟨rfl, source⟩
    · exact .inl { before with bound := ⟨_, 0, run, rfl, .inl ⟨rfl, source⟩⟩ }
    · have moved : group.machine.stepTask? bound group.task =
          some (.become (.gather .results others)) := by
        rw [Machine.stepTask?, source]
        rfl
      exact .inr ⟨⟨bound.clock, bound.tasksAfter group.task (.become (.gather .results others)), [],
        []⟩, .move moved rfl rfl, before.begun source rfl rfl⟩
  · obtain ⟨change, _, _, moves, _⟩ := fated.moves bound trivial final
    have moved : group.machine.stepTask? bound 0 = some change := by
      rw [Machine.stepTask?, run]
      exact moves
    exact .inr ⟨⟨bound.clock, bound.tasksAfter 0 change, [], []⟩, .move moved rfl rfl,
      before.run_moved moved rfl rfl⟩

/-- What reads the names may do first what it has to do by itself. -/
theorem ahead (before : group.Before pairs frame ones others count plain bound) :
    ∃ bound', group.Before pairs frame ones others 0 plain bound' ∧
      ∀ ends, (World.May group.machine ends bound' → World.May group.machine ends bound) ∧
        (World.Must group.machine ends bound → World.Must group.machine ends bound') := by
  induction count using Nat.strong_induction_on generalizing bound with
  | _ count ih =>
      rcases before.own with before | ⟨next, step, fewer, less, later⟩
      · exact ⟨bound, before, fun _ => ⟨id, id⟩⟩
      · obtain ⟨last, settled, back⟩ := ih fewer less later
        refine ⟨last, settled, fun ends => ⟨fun may => ?_, fun must => ?_⟩⟩
        · exact .later before.bound_going step ((back ends).1 may)
        · exact (back ends).2 (must.after before.bound_going step)

variable {ends : Outcome → Nat → Prop}

theorem may_plain (before : group.Before pairs frame ones others count plain bound)
    (may : World.May group.machine ends bound) :
    World.May group.machine (fun outcome moment => ends (group.readout outcome) moment) plain := by
  refine World.May.transfer (fun bound plain => ∃ pairs frame ones others count,
    group.Before pairs frame ones others count plain bound) ?_ ?_ may ⟨_, _, _, _, _, before⟩
  · intro bound plain here outcome found
    obtain ⟨_, _, _, _, _, before⟩ := here
    cases before.bound_going.symm.trans found
  · intro bound plain next here going made rest
    obtain ⟨_, _, _, _, _, before⟩ := here
    rcases before.boundStep made with ⟨fewer, _, later⟩ | ⟨plain', count, step, matched⟩
    · exact .inr ⟨plain, id, _, _, _, _, _, later⟩
    · rcases matched with ⟨_, _, _, _, later⟩ | ⟨_, _, _, _, _, _, after⟩
      · exact .inr ⟨plain', .later before.plain_going step, _, _, _, _, count, later⟩
      · exact .inl (.later before.plain_going step (after.may_iff.mp rest))

theorem may_bound (before : group.Before pairs frame ones others count plain bound)
    (may : World.May group.machine (fun outcome moment => ends (group.readout outcome) moment)
      plain) : World.May group.machine ends bound := by
  refine World.May.transfer (fun plain bound => ∃ pairs frame ones others count,
    group.Before pairs frame ones others count plain bound) ?_ ?_ may ⟨_, _, _, _, _, before⟩
  · intro plain bound here outcome found
    obtain ⟨_, _, _, _, _, before⟩ := here
    cases before.plain_going.symm.trans found
  · intro plain bound next here going made rest
    obtain ⟨_, _, _, _, _, before⟩ := here
    obtain ⟨bound', before, back⟩ := before.ahead
    obtain ⟨next', step, matched⟩ := before.plainStep made
    rcases matched with ⟨_, _, _, _, later⟩ | ⟨_, _, _, _, _, _, after⟩
    · refine .inr ⟨next', fun may => (back ends).1 (.later before.bound_going step may), ?_⟩
      exact ⟨_, _, _, _, 0, later⟩
    · exact .inl ((back ends).1 (.later before.bound_going step (after.may_iff.mpr rest)))

theorem must_bound (before : group.Before pairs frame ones others count plain bound)
    (must : World.Must group.machine (fun outcome moment => ends (group.readout outcome) moment)
      plain) : World.Must group.machine ends bound := by
  refine World.Must.transfer (fun count plain bound =>
    (∃ pairs frame ones others, group.Before pairs frame ones others count plain bound) ∨
      plain.outcome? = none ∧ ∃ pairs verdict more,
        group.After pairs verdict more count plain bound) ?_ ?_ ?_ ?_ count must
    (.inl ⟨_, _, _, _, before⟩)
  · intro count plain bound here
    rcases here with ⟨_, _, _, _, before⟩ | ⟨going, _⟩
    · exact before.plain_going
    · exact going
  · intro count plain bound result here must found
    rcases here with ⟨_, _, _, _, before⟩ | ⟨_, _, _, _, after⟩
    · cases before.bound_going.symm.trans found
    · exact after.bound_ends must found
  · intro count plain bound here going moves
    rcases here with ⟨_, _, _, _, before⟩ | ⟨_, _, _, _, after⟩
    · rcases before.own with settled | ⟨next, step, _⟩
      · obtain ⟨plain', step⟩ := moves
        obtain ⟨bound', step, _⟩ := settled.plainStep step
        exact ⟨bound', step⟩
      · exact ⟨next, step⟩
    · exact after.bound_goes going
  · intro count plain bound bound' here going step
    rcases here with ⟨_, _, _, _, before⟩ | ⟨run, _, _, _, after⟩
    · rcases before.boundStep step with ⟨fewer, less, later⟩ | ⟨plain', count, step, matched⟩
      · exact .inl ⟨fewer, less, .inl ⟨_, _, _, _, later⟩⟩
      · rcases matched with ⟨_, _, _, _, later⟩ | ⟨run, _, _, _, _, count, after⟩
        · exact .inr ⟨plain', count, step, .inl ⟨_, _, _, _, later⟩⟩
        · exact .inr ⟨plain', count, step, .inr ⟨run, _, _, _, after⟩⟩
    · rcases after.boundStep going step with ⟨fewer, less, later⟩ | ⟨_, plain', step, goes, later⟩
      · exact .inl ⟨fewer, less, .inr ⟨run, _, _, _, later⟩⟩
      · exact .inr ⟨plain', count, step, .inr ⟨goes run, _, _, _, later⟩⟩

theorem must_plain (before : group.Before pairs frame ones others count plain bound)
    (must : World.Must group.machine ends bound) :
    World.Must group.machine (fun outcome moment => ends (group.readout outcome) moment) plain := by
  obtain ⟨bound, before, back⟩ := before.ahead
  refine World.Must.transfer (fun count bound plain =>
    (∃ pairs frame ones others, group.Before pairs frame ones others 0 plain bound) ∨
      bound.outcome? = none ∧ ∃ pairs verdict more,
        group.After pairs verdict count more plain bound) ?_ ?_ ?_ ?_ 0 ((back ends).2 must)
    (.inl ⟨_, _, _, _, before⟩)
  · intro count bound plain here
    rcases here with ⟨_, _, _, _, before⟩ | ⟨going, _⟩
    · exact before.bound_going
    · exact going
  · intro count bound plain result here must found
    rcases here with ⟨_, _, _, _, before⟩ | ⟨_, _, _, _, after⟩
    · cases before.plain_going.symm.trans found
    · exact after.plain_ends must found
  · intro count bound plain here going moves
    rcases here with ⟨_, _, _, _, before⟩ | ⟨_, _, _, _, after⟩
    · obtain ⟨bound', step⟩ := moves
      rcases before.boundStep step with ⟨_, less, _⟩ | ⟨plain', _, step, _⟩
      · cases less
      · exact ⟨plain', step⟩
    · exact after.plain_goes going
  · intro count bound plain plain' here going step
    rcases here with ⟨_, _, _, _, before⟩ | ⟨run, _, _, _, after⟩
    · obtain ⟨bound', step, matched⟩ := before.plainStep step
      rcases matched with ⟨_, _, _, _, later⟩ | ⟨_, run, _, _, count, _, after⟩
      · exact .inr ⟨bound', 0, step, .inl ⟨_, _, _, _, later⟩⟩
      · exact .inr ⟨bound', count, step, .inr ⟨run, _, _, _, after⟩⟩
    · rcases after.plainStep going step with ⟨fewer, less, later⟩ | ⟨_, bound', step, goes, later⟩
      · exact .inl ⟨fewer, less, .inr ⟨run, _, _, _, later⟩⟩
      · exact .inr ⟨bound', count, step, .inr ⟨goes run, _, _, _, later⟩⟩

end Before

end Group

end Runbook
