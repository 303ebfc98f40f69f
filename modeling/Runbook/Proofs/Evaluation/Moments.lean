import Runbook.Proofs.Evaluation.Turns
import Mathlib.Data.ENat.Lattice

/-!
Runs up to a moment.

A run comes through a moment if there is a last world of it up to then. Runs that never do so go on
forever without their clock; any other passes one moment after the other until it stops. What a run
reports is a matter of the last world up to the end of the time that is asked for.
-/
namespace Runbook

namespace World

variable {machine : Machine} {world middle next last other : World} {moment count : Nat}

/-- A run comes to a world in so many steps. -/
inductive Steps (machine : Machine) : Nat → World → World → Prop
  | refl {world : World} : Steps machine 0 world world
  | head {count : Nat} {world next last : World} : world.step? machine = some next →
      Steps machine count next last → Steps machine (count + 1) world last

theorem Steps.reaches (steps : Steps machine count world last) : world.Reaches machine last := by
  induction steps with
  | refl => exact .refl
  | head stepped _ ih => exact .head stepped ih

theorem Reaches.steps (reaches : world.Reaches machine last) :
    ∃ count, Steps machine count world last := by
  induction reaches using Relation.ReflTransGen.head_induction_on with
  | refl => exact ⟨0, .refl⟩
  | head stepped _ ih =>
      obtain ⟨count, steps⟩ := ih
      exact ⟨count + 1, .head stepped steps⟩

/-- A run that comes to one world and to another comes to the one on its way to the other, or to
the other first. -/
theorem Steps.split (steps : Steps machine count world last)
    (reaches : world.Reaches machine other) :
    (∃ rest, rest ≤ count ∧ Steps machine rest other last) ∨ last.Reaches machine other := by
  induction steps with
  | refl => exact .inr reaches
  | @head count world next last stepped rest ih =>
      rcases reaches.cases_head with same | ⟨after, again, beyond⟩
      · rw [← same]
        exact .inl ⟨count + 1, Nat.le_refl _, .head stepped rest⟩
      · obtain rfl := Option.some.inj (again.symm.trans stepped)
        exact (ih beyond).imp_left fun found =>
          found.imp fun _ known => ⟨Nat.le_succ_of_le known.1, known.2⟩

/-- Of two worlds of a run one comes first. -/
theorem Reaches.total (one : world.Reaches machine next) (two : world.Reaches machine other) :
    next.Reaches machine other ∨ other.Reaches machine next := by
  obtain ⟨count, steps⟩ := two.steps
  rcases steps.split one with ⟨_, _, rest⟩ | after
  · exact .inl rest.reaches
  · exact .inr after

/-- The clock never goes back. -/
theorem Goes.clock_le (goes : world.Goes machine next) : world.clock ≤ next.clock := by
  cases goes with
  | move _ _ same _ => exact Nat.le_of_eq same.symm
  | tick asleep wakes _ =>
      obtain ⟨work, inside, awaited⟩ := Work.mem_wakesOfAll.mp (List.min?_mem wakes)
      obtain ⟨task, there⟩ := List.mem_iff_getElem?.mp inside
      by_contra past
      have due := @Machine.due machine world _ (Nat.le_of_not_le past) work awaited
      have awake : task ∈ machine.awake world := by
        rw [Machine.mem_awake, Machine.stepTask?, there, Option.bind_some]
        exact Option.isSome_iff_ne_none.mpr due
      rw [asleep] at awake
      cases awake

theorem Reaches.clock_le (reaches : world.Reaches machine last) : world.clock ≤ last.clock := by
  induction reaches with
  | refl => exact Nat.le_refl _
  | tail _ stepped ih => exact Nat.le_trans ih (step?_goes stepped).clock_le

/-- What is logged in a step has the moment of the world, and the clock stays then. -/
theorem step?_log (stepped : world.step? machine = some next) :
    ∃ events, next.log = world.log ++ events ∧
      ∀ logged ∈ events, logged.ms = world.clock ∧ next.clock = world.clock := by
  have turned (turn : TaskId × Change × List TaskId) :
      ∃ events, (world.afterTurn machine turn).log = world.log ++ events ∧
        ∀ logged ∈ events, logged.ms = world.clock ∧
          (world.afterTurn machine turn).clock = world.clock := by
    obtain ⟨task, change, queue⟩ := turn
    refine ⟨change.events.map (⟨world.clock, ·⟩), ?_, fun logged inside => ?_⟩
    · rw [afterTurn]
      split
      · rfl
      · rfl
    · obtain ⟨event, _, rfl⟩ := List.mem_map.mp inside
      exact ⟨rfl, (afterTurn_eq machine world task change queue).1⟩
  rw [step?] at stepped
  split at stepped
  · cases stepped
    exact turned _
  · split at stepped
    · cases stepped
      exact turned _
    · obtain ⟨wake, _, rfl⟩ := Option.map_eq_some_iff.mp stepped
      exact ⟨[], (List.append_nil _).symm, List.forall_mem_nil _⟩

/-- What a run logs between two worlds happens in that time. -/
theorem Reaches.log (reaches : world.Reaches machine last) :
    ∃ events, last.log = world.log ++ events ∧
      ∀ logged ∈ events, world.clock ≤ logged.ms ∧ logged.ms ≤ last.clock := by
  induction reaches with
  | refl => exact ⟨[], (List.append_nil _).symm, List.forall_mem_nil _⟩
  | @tail middle last reaches stepped ih =>
      obtain ⟨events, before, within⟩ := ih
      obtain ⟨more, after, now⟩ := step?_log stepped
      have later := (step?_goes stepped).clock_le
      refine ⟨events ++ more, ?_, List.forall_mem_append.mpr ⟨?_, ?_⟩⟩
      · rw [after, before, List.append_assoc]
      · exact fun logged inside => ⟨(within logged inside).1,
          Nat.le_trans (within logged inside).2 later⟩
      · intro logged inside
        rw [(now logged inside).1]
        exact ⟨Reaches.clock_le reaches, later⟩

theorem outcome?_eq_ok {outcome : Outcome} :
    world.outcome? = some (.ok outcome) ↔ world.tasks[0]? = some (.done outcome) := by
  rw [outcome?]
  cases world.tasks with
  | nil => exact iff_of_false (fun same => by cases same) (fun same => by cases same)
  | cons work works =>
      rw [List.getElem?_cons_zero]
      cases work with
      | done other => simp only [Option.some.injEq, Except.ok.injEq, Work.done.injEq]
      | _ => exact iff_of_false (fun same => by cases same) (fun same => by cases same)

theorem outcome?_eq_error {defect : Defect} :
    world.outcome? = some (.error defect) ↔ world.tasks[0]? = some (.broken defect) := by
  rw [outcome?]
  cases world.tasks with
  | nil => exact iff_of_false (fun same => by cases same) (fun same => by cases same)
  | cons work works =>
      rw [List.getElem?_cons_zero]
      cases work with
      | broken other => simp only [Option.some.injEq, Except.error.injEq, Work.broken.injEq]
      | _ => exact iff_of_false (fun same => by cases same) (fun same => by cases same)

theorem outcome?_eq_none {work : Work} (there : world.tasks[0]? = some work)
    (going : work.ended? = none) : world.outcome? = none := by
  cases outcome : world.outcome? with
  | none => rfl
  | some result =>
      cases result with
      | ok outcome =>
          cases there.symm.trans (outcome?_eq_ok.mp ‹_›)
          cases going
      | error defect =>
          cases there.symm.trans (outcome?_eq_error.mp ‹_›)
          cases going

/-- An outcome is final. -/
theorem Reaches.outcome {outcome : Outcome} (reaches : world.Reaches machine last)
    (ends : world.outcome? = some (.ok outcome)) : last.outcome? = some (.ok outcome) := by
  rw [outcome?_eq_ok] at ends ⊢
  exact reaches.keeps (fun holds goes => goes.done holds) ends

/-- A run that has broken down stays so. -/
theorem Reaches.broken {defect : Defect} (reaches : world.Reaches machine last)
    (ends : world.outcome? = some (.error defect)) :
    ∃ defect, last.outcome? = some (.error defect) := by
  induction reaches with
  | refl => exact ⟨defect, ends⟩
  | tail _ stepped ih =>
      obtain ⟨defect, broken⟩ := ih
      rw [outcome?_eq_error] at broken
      rcases (step?_goes stepped).ended broken rfl with same | met
      · exact ⟨defect, outcome?_eq_error.mpr same⟩
      · exact ⟨.met, outcome?_eq_error.mpr met⟩

theorem toMoment_reaches (machine : Machine) (limit fuel : Nat) (world : World) :
    world.Reaches machine (world.toMoment machine limit fuel) := by
  induction fuel generalizing world with
  | zero => exact .refl
  | succ fuel ih =>
      rw [toMoment]
      split
      · exact .refl
      · rename_i next stepped
        split
        · exact .refl
        · exact .head stepped (ih next)

/-- Nothing more happens in a run up to the moment. -/
structure Rests (machine : Machine) (moment : Nat) (world : World) : Prop where
  come : world.clock ≤ moment
  still : ∀ next, world.step? machine = some next → moment < next.clock

/-- A run that has not yet come to its last world up to the moment comes to the next one. -/
theorem Steps.nearer (steps : Steps machine count world last) (rests : Rests machine moment last)
    (stepped : world.step? machine = some next) (early : next.clock ≤ moment) :
    ∃ rest, rest < count ∧ Steps machine rest next last := by
  cases steps with
  | refl => exact absurd early (Nat.not_le_of_lt (rests.still next stepped))
  | @head count _ after _ again rest =>
      obtain rfl := Option.some.inj (again.symm.trans stepped)
      exact ⟨count, Nat.lt_succ_self _, rest⟩

/-- A run comes through the moment, and `last` is its last world up to then. -/
structure Through (machine : Machine) (moment : Nat) (world last : World) : Prop extends
    Rests machine moment last where
  reaches : world.Reaches machine last

namespace Through

/-- After the last world up to a moment no other comes before it has passed. -/
theorem eq_of_reaches (through : Through machine moment world last)
    (reaches : last.Reaches machine next) (come : next.clock ≤ moment) : next = last := by
  cases reaches.cases_head with
  | inl same => exact same.symm
  | inr more =>
      obtain ⟨after, stepped, rest⟩ := more
      have passed := Nat.lt_of_lt_of_le (through.still after stepped) (Reaches.clock_le rest)
      exact absurd come (Nat.not_le_of_lt passed)

/-- Each world up to the moment comes before the last. -/
theorem later (through : Through machine moment world last) (reaches : world.Reaches machine next)
    (come : next.clock ≤ moment) : Through machine moment next last := by
  refine ⟨through.toRests, ?_⟩
  rcases through.reaches.total reaches with after | before
  · rw [through.eq_of_reaches after come]
    exact .refl
  · exact before

/-- After the last world up to a moment nothing is logged that happens up to then. -/
theorem log (through : Through machine moment world last) (reaches : last.Reaches machine next) :
    ∃ events, next.log = last.log ++ events ∧ ∀ logged ∈ events, moment < logged.ms := by
  cases reaches.cases_head with
  | inl same =>
      rw [← same]
      exact ⟨[], (List.append_nil _).symm, List.forall_mem_nil _⟩
  | inr more =>
      obtain ⟨after, stepped, rest⟩ := more
      have passed := through.still after stepped
      obtain ⟨events, first, now⟩ := step?_log stepped
      obtain ⟨others, second, within⟩ := Reaches.log rest
      refine ⟨events ++ others, ?_, List.forall_mem_append.mpr ⟨fun logged inside => ?_, ?_⟩⟩
      · rw [second, first, List.append_assoc]
      · rw [(now logged inside).2] at passed
        exact absurd through.come (Nat.not_le_of_lt passed)
      · exact fun logged inside => Nat.lt_of_lt_of_le passed (within logged inside).1

end Through

/-- A run that stops for the moment has come to its last world up to then. -/
theorem Through.of_toMoment {limit fuel clock : Nat} {wake : Option Nat}
    (same : world.toMoment machine limit fuel = last) (now : last.clock = clock)
    (next : (last.step? machine).map World.clock = wake) (come : clock ≤ moment)
    (late : ∀ later ∈ wake, moment < later) : Through machine moment world last := by
  refine ⟨⟨?_, fun after stepped => late after.clock ?_⟩, ?_⟩
  · rw [now]
    exact come
  · rw [← next, stepped]
    rfl
  · rw [← same]
    exact toMoment_reaches machine limit fuel world

/-- With enough fuel, a run to a later moment goes on from there. -/
theorem Steps.toMoment_reaches (steps : Steps machine count world last) {fuel : Nat}
    (come : last.clock ≤ moment) (enough : count ≤ fuel) :
    last.Reaches machine (world.toMoment machine moment fuel) := by
  induction steps generalizing fuel with
  | refl => exact World.toMoment_reaches machine moment fuel _
  | head stepped rest ih =>
      cases fuel with
      | zero => exact absurd enough (Nat.not_succ_le_zero _)
      | succ fuel =>
          have early := Nat.le_trans (Reaches.clock_le rest.reaches) come
          rw [World.toMoment, stepped]
          dsimp only
          rw [if_neg (Nat.not_lt_of_le early)]
          exact ih come (Nat.le_of_succ_le_succ enough)

/-- With enough fuel, a run that comes to an outcome has the first one. -/
theorem Steps.toOutcome? (steps : Steps machine count world last)
    (ends : last.outcome?.isSome) :
    ∃ outcome first, world.Reaches machine first ∧ first.Reaches machine last ∧
      first.outcome? = some outcome ∧
      ∀ fuel, count < fuel → world.toOutcome? machine fuel = some (outcome, first) := by
  induction steps with
  | refl =>
      obtain ⟨outcome, ends⟩ := Option.isSome_iff_exists.mp ends
      refine ⟨outcome, _, .refl, .refl, ends, fun fuel enough => ?_⟩
      cases fuel with
      | zero => exact absurd enough (Nat.not_lt_zero _)
      | succ fuel => rw [World.toOutcome?, ends]
  | @head count world next last stepped rest ih =>
      cases now : world.outcome? with
      | some outcome =>
          refine ⟨outcome, world, .refl, .head stepped rest.reaches, now, fun fuel enough => ?_⟩
          cases fuel with
          | zero => exact absurd enough (Nat.not_lt_zero _)
          | succ fuel => rw [World.toOutcome?, now]
      | none =>
          obtain ⟨found, first, before, after, ends, run⟩ := ih ends
          refine ⟨found, first, .head stepped before, after, ends, fun fuel enough => ?_⟩
          cases fuel with
          | zero => exact absurd enough (Nat.not_lt_zero _)
          | succ fuel =>
              rw [World.toOutcome?, now, stepped]
              exact run fuel (Nat.lt_of_succ_lt_succ enough)

end World

/-- The events of a log that are not of interest only to who traces the run. -/
def heard (log : List Logged) : List Logged := log.filter fun logged => !logged.event.isTrace

theorem heard_append (first rest : List Logged) :
    heard (first ++ rest) = heard first ++ heard rest :=
  List.filter_append first rest

namespace Routine

open World (Through)

variable {routine : Routine} {registry : Registry} {argument : Value} {horizon : Nat}

/-- Up to the horizon, a run has no outcome before that time, and that outcome from then on; it has
none ever if the time is `⊤`. Nothing keeps the clock from coming to the horizon. -/
structure Ends (routine : Routine) (registry : Registry) (argument : Value) (horizon : Nat)
    (time : ℕ∞) (outcome : Outcome) : Prop where
  comes : ∀ moment ≤ horizon, ∃ last,
    Through ⟨registry, routine.library⟩ moment (World.start routine argument) last ∧
      (time ≤ moment → last.outcome? = some (.ok outcome)) ∧
      (moment < time → last.outcome? = none)
  reports : ∀ elapsed ≤ horizon, time = elapsed → ∃ fuel, ∀ more, fuel ≤ more → ∀ drain, ∃ log,
    routine.perform? registry argument drain more = some (.ok ⟨outcome, elapsed, log⟩)

/-- What a run has at the end of each moment is reported. -/
theorem Ends.of_comes {time : ℕ∞} {outcome : Outcome}
    (comes : ∀ moment ≤ horizon, ∃ last,
      Through ⟨registry, routine.library⟩ moment (World.start routine argument) last ∧
        (time ≤ moment → last.outcome? = some (.ok outcome)) ∧
        (moment < time → last.outcome? = none)) :
    routine.Ends registry argument horizon time outcome := by
  refine ⟨comes, fun elapsed within same => ?_⟩
  obtain ⟨last, through, ends, _⟩ := comes elapsed within
  have ends := ends (le_of_eq same)
  obtain ⟨count, steps⟩ := through.reaches.steps
  obtain ⟨result, first, before, after, found, run⟩ :=
    steps.toOutcome? (Option.isSome_iff_exists.mpr ⟨_, ends⟩)
  have result : result = .ok outcome := by
    cases result with
    | ok other =>
        have again := after.outcome found
        exact (Option.some.inj (again.symm.trans ends))
    | error defect =>
        obtain ⟨other, broken⟩ := after.broken found
        cases broken.symm.trans ends
  rw [result] at run found
  -- at the end of an earlier moment there is no outcome
  have moment : first.clock = elapsed := by
    refine Nat.le_antisymm (Nat.le_trans (World.Reaches.clock_le after) through.come) ?_
    by_contra early
    have early := Nat.lt_of_not_le early
    obtain ⟨middle, passes, _, none⟩ := comes first.clock (Nat.le_trans (Nat.le_of_lt early) within)
    have still := (passes.later before (Nat.le_refl _)).reaches.outcome found
    rw [none (same ▸ ENat.natCast_lt_natCast.mpr early)] at still
    cases still
  refine ⟨count + 1, fun more enough drain => ?_⟩
  rw [← moment]
  exact ⟨_, perform?_eq_ok.mpr ⟨outcome, first, run more enough, rfl⟩⟩

/-- Up to the moment, a run tells those events. -/
structure Tells (routine : Routine) (registry : Registry) (argument : Value) (moment : Nat)
    (events : List Logged) : Prop where
  comes : ∃ last, Through ⟨registry, routine.library⟩ moment (World.start routine argument) last ∧
    (∀ defect, last.outcome? ≠ some (.error defect)) ∧ heard last.log = events
  reports : ∃ fuel, ∀ more, fuel ≤ more → ∀ drain report,
    routine.perform? registry argument drain more = some (.ok report) →
      moment ≤ report.elapsed + drain →
      (heard report.log).filter (fun logged => decide (logged.ms ≤ moment)) = events

/-- What a run has told at the end of a moment is reported. -/
theorem Tells.of_comes {moment : Nat} {last : World}
    (through : Through ⟨registry, routine.library⟩ moment (World.start routine argument) last)
    (whole : ∀ defect, last.outcome? ≠ some (.error defect)) :
    routine.Tells registry argument moment (heard last.log) := by
  refine ⟨⟨last, through, whole, rfl⟩, ?_⟩
  obtain ⟨count, steps⟩ := through.reaches.steps
  refine ⟨count, fun more enough drain report reports late => ?_⟩
  obtain ⟨outcome, first, found, rfl⟩ := perform?_eq_ok.mp reports
  have before := (World.toOutcome?_reaches found).1
  -- the last world that is reported comes after the last one up to the moment
  have beyond : last.Reaches ⟨registry, routine.library⟩
      (first.toMoment ⟨registry, routine.library⟩ (first.clock + drain) more) := by
    rcases steps.split before with ⟨rest, fewer, steps⟩ | after
    · exact steps.toMoment_reaches (Nat.le_trans through.come late) (Nat.le_trans fewer enough)
    · exact after.trans (World.toMoment_reaches _ _ _ _)
  obtain ⟨events, log, later⟩ := through.log beyond
  obtain ⟨earlier, start, within⟩ := through.reaches.log
  have early : ∀ logged ∈ last.log, logged.ms ≤ moment := by
    intro logged inside
    rw [start] at inside
    rcases List.mem_append.mp inside with first | rest
    · obtain ⟨event, _, rfl⟩ := List.mem_map.mp first
      exact Nat.zero_le _
    · exact Nat.le_trans (within logged rest).2 through.come
  dsimp only
  rw [log, heard_append, List.filter_append,
    List.filter_eq_self.mpr fun logged inside => ?_,
    List.filter_eq_nil_iff.mpr fun logged inside => ?_,
    List.append_nil]
  · rw [decide_eq_true_eq]
    exact Nat.not_le_of_lt (later logged (List.mem_filter.mp inside).1)
  · exact decide_eq_true (early logged (List.mem_filter.mp inside).1)

end Routine

end Runbook
