import Runbook.Proofs.Evaluation.Agreement
import Runbook.Proofs.Evaluation.Due
import Runbook.Proofs.Evaluation.Moments

/-!
How long runs take.

What is due stays due when the clock moves, since nothing that is waited for is due before the next
moment that a work waits for. So a run that has a value has it at the moment that its timetable says.
-/
namespace Runbook

/-- The arrival, as far as is known at that moment. -/
def Arrival.since (now : Nat) (given : Arrival) : Arrival := ⟨given.value, max now given.moment⟩

theorem Arrival.since_eq {now : Nat} {given : Arrival} (le : now ≤ given.moment) :
    given.since now = given := by
  rw [since, Nat.max_eq_right le]

theorem latest_since {now later : Nat} (le : now ≤ later) (parts : List Arrival) :
    latest later (parts.map (Arrival.since later)) = max later (latest now parts) := by
  induction parts with
  | nil => exact (Nat.max_eq_left le).symm
  | cons part parts ih =>
      rw [List.map_cons, latest_cons, latest_cons, ih]
      simp only [Arrival.since]
      omega

variable {machine : Machine} {footing : Footing machine} {arrivals : List Arrival}
  {world next : World}

/-- None of the tasks is there before the moment, and none of the other moments comes before it. -/
structure Work.Awaits (arrivals : List Arrival) (world : World) (later : Nat) (awaits : List TaskId)
    (wakes : List Nat) : Prop where
  tasks : ∀ task ∈ awaits, world.tasks[task]?.bind Work.ended? = none →
    ∀ given, arrivals[task]? = some given → later ≤ given.moment
  wakes : ∀ moment ∈ wakes, later ≤ moment

mutual

/-- A work that cannot move is due as before when the clock has moved, and not sooner. -/
theorem Work.due_later {later : Nat} (come : world.clock ≤ later) :
    ∀ (work : Work) {given : Arrival}, Machine.step? machine world work = none →
      Work.Awaits arrivals world later work.awaits work.wakes →
      work.Due machine arrivals world.clock given →
        work.Due machine arrivals later (given.since later) ∧
          (work.ended? = none → later ≤ given.moment)
  | .done outcome, _, _, _, due => by
      obtain ⟨rfl, moment⟩ := due
      refine ⟨⟨rfl, ?_⟩, nofun⟩
      rw [Arrival.since, moment, Nat.max_eq_left come]
  | .broken _, _, _, _, due | .race _ _, _, _, _, due => due.elim
  | .fresh work, _, still, _, _ => by cases still
  | .wait task, _, still, awaits, due => by
      rw [Machine.step?, Option.map_eq_none_iff] at still
      obtain ⟨awaited, there, rfl⟩ := due
      have after := awaits.tasks task List.mem_cons_self still awaited there
      refine ⟨⟨awaited, there, ?_⟩, fun _ => after.trans (Nat.le_max_right _ _)⟩
      rw [Arrival.since, Nat.max_eq_right (come.trans after), Nat.max_eq_right after]
  | .sleep wake outcome, _, _, awaits, due => by
      obtain ⟨rfl, moment⟩ := due
      have after := awaits.wakes wake List.mem_cons_self
      rw [Nat.max_eq_right (come.trans after)] at moment
      refine ⟨⟨rfl, ?_⟩, fun _ => after.trans moment.ge⟩
      rw [Arrival.since, moment]
  | .after source next, _, still, awaits, due => by
      obtain ⟨going, part⟩ := Machine.step?_after_eq_none still
      obtain ⟨first, dues, makes⟩ := due
      obtain ⟨again, after⟩ := due_later come source part awaits dues
      rw [Arrival.since_eq (after going)] at again
      have last := (after going).trans makes.le
      rw [Arrival.since_eq last]
      exact ⟨⟨first, again, makes⟩, fun _ => last⟩
  | .gather shape members, _, still, awaits, due => by
      obtain ⟨going, still⟩ := Machine.step?_gather_eq_none still
      obtain ⟨parts, all, rfl⟩ := due
      obtain ⟨again, after⟩ := dueAll_later come members still awaits all
      refine ⟨⟨_, again, ?_⟩, fun _ => after going⟩
      rw [latest_since come, List.map_map, Arrival.since]
      rfl
  | .body frame current index entries, _, still, awaits, due => by
      obtain ⟨going, part⟩ := Machine.step?_body_eq_none still
      obtain ⟨diary, first, depth, dates, dues, body⟩ := due
      obtain ⟨again, after⟩ := due_later come current part awaits dues
      rw [Arrival.since_eq (after going)] at again
      have last := (after going).trans
        (Machine.scheduleBody_le (Machine.scheduleUpTo_lasts depth) body)
      have dates := dates.later [] come
      rw [List.append_nil] at dates
      rw [Arrival.since_eq last]
      exact ⟨⟨diary, first, depth, dates, again, body⟩, fun _ => last⟩
  | .settle [] result, _, still, _, _ => by
      rw [Machine.step?] at still
      cases still
  | .settle ((task, count) :: bindings) result, _, still, awaits, due => by
      obtain ⟨parts, all, rfl⟩ := due
      have moment : latest later parts = max later (latest world.clock parts) := by
        rw [← latest_max, Nat.max_eq_left come]
      refine ⟨⟨parts, all, ?_⟩, fun _ => ?_⟩
      · rw [Arrival.since, moment]
      · cases all with
        | @cons _ first _ rest settled others =>
            rw [Machine.step?, Option.map_eq_none_iff] at still
            have unfinished : world.tasks[task]?.bind Work.ended? = none := by
              rw [Option.bind_eq_none_iff] at still ⊢
              exact fun work there => Machine.settle_eq_none (still work there)
            have after := awaits.tasks task List.mem_cons_self unfinished first settled.1
            exact after.trans (le_latest_of_mem List.mem_cons_self)

theorem Work.dueAll_later {later : Nat} (come : world.clock ≤ later) :
    ∀ (works : List Work) {parts : List Arrival},
      (∀ work ∈ works, Machine.step? machine world work = none) →
      Work.Awaits arrivals world later (Work.awaitsOfAll works) (Work.wakesOfAll works) →
      Work.dueAll machine arrivals world.clock works parts →
        Work.dueAll machine arrivals later works (parts.map (Arrival.since later)) ∧
          ((∃ work ∈ works, work.ended? = none) → later ≤ latest world.clock parts)
  | [], [], _, _, _ => ⟨trivial, fun ⟨_, member, _⟩ => nomatch member⟩
  | [], _ :: _, _, _, due => due.elim
  | _ :: _, [], _, _, due => due.elim
  | work :: works, part :: parts, still, awaits, due => by
      rw [List.forall_mem_cons] at still
      rw [Work.awaitsOfAll, Work.wakesOfAll] at awaits
      obtain ⟨tasks, wakes⟩ := awaits
      rw [List.forall_mem_append] at tasks wakes
      obtain ⟨here, after⟩ := due_later come work still.1 ⟨tasks.1, wakes.1⟩ due.1
      obtain ⟨rest, afters⟩ := dueAll_later come works still.2 ⟨tasks.2, wakes.2⟩ due.2
      refine ⟨⟨here, rest⟩, fun going => ?_⟩
      rw [latest_cons]
      rw [List.exists_mem_cons_iff] at going
      rcases going with first | others
      · exact (after first).trans (Nat.le_max_left _ _)
      · exact (afters others).trans (Nat.le_max_right _ _)

end

namespace World

variable {parent : Nat → Nat}

/-- A work awaits nothing before the next moment, if the tasks that it may wait for do not end
before. -/
theorem Ordered.awaits_later (ordered : world.Ordered parent) {later : Nat}
    (wakes : world.wake? = some later) {task : Nat} {work : Work}
    (there : world.tasks[task]? = some work)
    (ahead : ∀ other : Nat, world.MayWait parent task other → ∀ (work : Work) (given : Arrival),
      world.tasks[other]? = some work → arrivals[other]? = some given → work.ended? = none →
        later ≤ given.moment) :
    Work.Awaits arrivals world later work.awaits work.wakes := by
  refine ⟨fun other mem unfinished given arrives => ?_, fun moment mem => ?_⟩
  · have waiting := ordered.awaits task work there other mem
    have present := List.getElem?_eq_getElem waiting.lt
    rw [present] at unfinished
    exact ahead other waiting _ given present arrives unfinished
  · have among := Work.mem_wakesOfAll.mpr ⟨work, List.mem_of_getElem? there, mem⟩
    exact (List.min?_eq_some_iff.mp wakes).2 moment among

/-- When no task can move, none is there before the next moment that a work waits for. -/
theorem Punctual.ahead (punctual : world.Punctual machine arrivals)
    (ordered : world.Ordered parent) (asleep : machine.awake world = []) {later : Nat}
    (come : world.clock ≤ later) (wakes : world.wake? = some later) (task : Nat) (work : Work)
    (given : Arrival) (there : world.tasks[task]? = some work)
    (arrives : arrivals[task]? = some given) (going : work.ended? = none) :
    later ≤ given.moment := by
  have still : Machine.step? machine world work = none := by
    have none := not_awake asleep task
    rwa [Machine.stepTask?, there] at none
  have awaits := ordered.awaits_later wakes there fun other waiting work given there arrives going =>
    punctual.ahead ordered asleep come wakes other work given there arrives going
  rcases punctual.meets task work given there arrives with due | ⟨rfl, _⟩
  · exact (Work.due_later come work still awaits due).2 going
  · cases going
termination_by (world.tasks.length - parent task, task)
decreasing_by
  have own := ordered.parents task
  have others := ordered.parents other
  rcases waiting with ⟨_, owned⟩ | ⟨_, before, beside⟩
  · exact Prod.Lex.left _ _ (by omega)
  · rw [beside]
    exact Prod.Lex.right _ before

/-- Tasks end as they are due when the clock has moved. -/
theorem Punctual.tick (punctual : world.Punctual machine arrivals) (ordered : world.Ordered parent)
    (asleep : machine.awake world = []) (come : world.clock ≤ next.clock)
    (wakes : world.wake? = some next.clock) (same : next.tasks = world.tasks) :
    next.Punctual machine arrivals := by
  refine ⟨same ▸ punctual.length, fun task work given there arrives => ?_⟩
  rw [same] at there
  have still : Machine.step? machine world work = none := by
    have none := not_awake asleep task
    rwa [Machine.stepTask?, there] at none
  rcases punctual.meets task work given there arrives with due | ⟨rfl, before⟩
  · have awaits := ordered.awaits_later wakes there fun other _ =>
      punctual.ahead ordered asleep come wakes other
    obtain ⟨later, after⟩ := Work.due_later come work still awaits due
    cases ends : work.ended? with
    | none =>
        rw [Arrival.since_eq (after ends)] at later
        exact .inl later
    | some ended =>
        cases work with
        | done outcome =>
            obtain ⟨rfl, moment⟩ := due
            exact .inr ⟨rfl, moment.le.trans come⟩
        | broken defect => exact due.elim
        | _ => cases ends
  · exact .inr ⟨rfl, before.trans come⟩

/-- Tasks end as they are due after a move of one of them. -/
theorem Punctual.move (calm : ¬footing.races) (punctual : world.Punctual machine arrivals)
    (sound : world.Sound footing parent) {task : Nat} {work : Work} {change : Change}
    (there : world.tasks[task]? = some work) (moves : Moves machine world work change)
    (clock : next.clock = world.clock)
    (same : next.tasks = world.tasks.set task change.work ++ change.started) :
    ∃ more, next.Punctual machine (arrivals ++ more) := by
  have below := (List.getElem?_eq_some_iff.mp there).1
  rw [← punctual.length] at below
  have arrives := List.getElem?_eq_getElem below
  have due : work.Due machine arrivals world.clock arrivals[task] := by
    rcases punctual.meets task work _ there arrives with due | ⟨rfl, _⟩
    · exact due
    · cases moves
  obtain ⟨more, kept, started⟩ := moves.due calm (sound.works task work there) sound.unbroken
    punctual due
  refine ⟨more, ?_, fun other found given member arrival => ?_⟩
  · rw [same, List.length_append, List.length_append, List.length_set, punctual.length,
      Work.dueAll_length started]
  · rw [same] at member
    rw [clock]
    rcases getElem?_moved member with ⟨rfl, rfl⟩ | ⟨_, stays⟩ | ⟨index, rfl, begun⟩
    · rw [List.getElem?_append_left below, arrives] at arrival
      obtain rfl := Option.some.inj arrival
      exact .inl kept
    · have inside := (List.getElem?_eq_some_iff.mp stays).1
      rw [← punctual.length] at inside
      rw [List.getElem?_append_left inside] at arrival
      exact (punctual.meets other found given stays arrival).imp_left fun due => due.append more
    · rw [← punctual.length, List.getElem?_append_right (Nat.le_add_right _ _),
        Nat.add_sub_cancel_left] at arrival
      exact .inl (Work.dueAll_getElem? started begun arrival)

theorem ended?_of_outcome? {work : Work} (there : world.tasks[0]? = some work)
    (going : world.outcome? = none) : work.ended? = none := by
  cases work with
  | done outcome => cases going.symm.trans (outcome?_eq_ok.mpr there)
  | broken defect => cases going.symm.trans (outcome?_eq_error.mpr there)
  | _ => rfl

/-- A run comes to its outcome at the moment at which its own task ends. -/
theorem Punctual.elapsed (calm : ¬footing.races) (sound : world.Sound footing parent)
    (punctual : world.Punctual machine arrivals) {given : Arrival} (first : arrivals[0]? = some given)
    (early : world.clock ≤ given.moment) {fuel : Nat} {outcome : Except Defect Outcome}
    {last : World} (found : world.toOutcome? machine fuel = some (outcome, last)) :
    outcome = .ok (.ok given.value) ∧ last.clock = given.moment := by
  induction fuel generalizing world arrivals parent with
  | zero => cases found
  | succ fuel ih =>
      rw [toOutcome?] at found
      split at found
      · rename_i result ends
        cases found
        cases outcome with
        | ok outcome =>
            obtain ⟨rfl, come⟩ := punctual.done (outcome?_eq_ok.mp ends) first
            exact ⟨rfl, Nat.le_antisymm early come⟩
        | error defect => exact absurd (outcome?_eq_error.mp ends) (sound.unbroken 0 defect)
      · rename_i going
        have below := (List.getElem?_eq_some_iff.mp first).1
        split at found
        · rename_i next stepped
          have goes := step?_goes stepped
          have come := goes.clock_le
          cases goes with
          | tick asleep wakes same =>
              have there := List.getElem?_eq_getElem (punctual.length ▸ below)
              refine ih (sound.same same) (punctual.tick sound.ordered asleep come wakes same) first
                ?_ found
              exact punctual.ahead sound.ordered asleep come wakes 0 _ given there first
                (ended?_of_outcome? there going)
          | move there moves clock same =>
              obtain ⟨tasks, kept⟩ := move_sound sound there moves same
              obtain ⟨more, punctual⟩ := punctual.move calm sound there moves clock tasks
              exact ih kept punctual ((List.getElem?_append_left below).trans first)
                (clock ▸ early) found
        · cases found

theorem start_punctual {routine : Routine} {argument : Value} {depth : Nat} {given : Arrival}
    (gives : machine.timetable depth routine argument = .ok given) :
    (World.start routine argument).Punctual machine [given] := by
  refine ⟨rfl, fun task work arrival there arrives => ?_⟩
  cases task with
  | zero =>
      obtain rfl := Option.some.inj there
      obtain rfl := Option.some.inj arrives
      exact .inl (@enter_due machine _ _ routine ⟨argument, 0⟩ given gives)
  | succ task => cases there

end World

namespace Routine

variable {registry later : Registry} {routine : Routine}

/-- The time that a calm routine takes until it has a value is that of its timetable, be calls
nested up to this or that depth. -/
theorem elapsed_critical (built : registry.Built) (compiles : Compiles registry routine)
    (grown : registry.Grown later) (calm : routine.Calm) {argument value : Value}
    {drain fuel : Nat} {report : Report}
    (performed : routine.perform? later argument drain fuel = some (.ok report))
    (has : report.outcome = .ok value) :
    (∃ depth, Machine.timetable ⟨later, routine.library⟩ depth routine argument =
      .ok ⟨value, report.elapsed⟩) ∧
    ∀ depth given, Machine.timetable ⟨later, routine.library⟩ depth routine argument = .ok given →
      given = ⟨value, report.elapsed⟩ := by
  obtain ⟨footing, still, supported⟩ := calm.footing built compiles grown
  rw [perform?] at performed
  split at performed
  · cases performed
  · cases performed
  · rename_i outcome last found
    cases performed
    obtain rfl : outcome = .ok value := has
    have unique (depth : Nat) (given : Arrival)
        (gives : Machine.timetable ⟨later, routine.library⟩ depth routine argument = .ok given) :
        given = ⟨value, last.clock⟩ := by
      obtain ⟨parent, sound⟩ := World.start_sound supported argument
      obtain ⟨same, moment⟩ := (World.start_punctual gives).elapsed still sound rfl
        (Nat.zero_le _) found
      obtain ⟨result, elapsed⟩ := given
      cases same
      rw [moment]
    obtain ⟨depth, gives⟩ := evaluates still supported found
    obtain ⟨moment, scheduled⟩ := Machine.run_scheduled gives
    exact ⟨⟨depth, scheduled.trans (congrArg Except.ok (unique depth _ scheduled))⟩, unique⟩

end Routine

/-- A procedure with two bindings that go on together. -/
def Procedure.meeting : Procedure :=
  ⟨0, "main", [], none, [
    .assignment 0 ["a"] (.application 0 "sleep" (.amount 0 (.number 30))),
    .assignment 0 ["b"] (.application 0 "sleep" (.amount 0 (.number 50))),
    .execute 0 (.operation 0 .waitBoth (.reference 0 ["a"]) (.reference 0 ["b"]))]⟩

/-- What it compiles to. -/
def Routine.meeting : Routine :=
  let sequence : Sequence := [
    ⟨.inherit, .bind [⟨0, "a"⟩] (.invoke "sleep" (.literal (.quantity (.number 30))))⟩,
    ⟨.inherit, .bind [⟨1, "b"⟩] (.invoke "sleep" (.literal (.quantity (.number 50))))⟩,
    ⟨.inherit, .invoke "wait_both"
      (.tuple [.tuple [.read ⟨0, "a"⟩], .tuple [.read ⟨1, "b"⟩]])⟩]
  ⟨.meeting, [], sequence, [(0, ⟨.meeting, [], sequence, []⟩)]⟩

/-- Bindings do not wait for each other: the time is that of the longer one. -/
theorem Routine.elapsed_critical_meeting :
    Document.compile ⟨[.meeting]⟩ ⟨"", ""⟩ Registry.standard.names = .ok meeting ∧
    ∃ report, meeting.perform? .standard .unit 0 40 = some (.ok report) ∧
      report.outcome = .ok (.parallel [.unit, .unit]) ∧ report.elapsed = 50 ∧
      ∃ depth, Machine.timetable ⟨.standard, meeting.library⟩ depth meeting .unit =
        .ok ⟨.parallel [.unit, .unit], 50⟩ := by
  have calm : meeting.Calm := .of_library (by decide) (by decide)
  have performed : ∃ report, meeting.perform? .standard .unit 0 40 = some (.ok report) ∧
      report.outcome = .ok (.parallel [.unit, .unit]) ∧ report.elapsed = 50 := ⟨_, rfl, rfl, rfl⟩
  obtain ⟨report, performed, has, time⟩ := performed
  obtain ⟨scheduled, _⟩ := elapsed_critical (.inr .refl)
    (@Compiles.document _ _ ⟨[.meeting]⟩ ⟨"", ""⟩ rfl) .refl calm performed has
  rw [time] at scheduled
  exact ⟨rfl, report, performed, has, time, scheduled⟩

end Runbook
