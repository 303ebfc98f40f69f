import Runbook.Proofs.Evaluation.Gathering
import Runbook.Registry.Rehearsal

/-!
Steps that are performed together fail fast.

If steps start no tasks, each of them comes by itself to an outcome at some moment, and these decide
what comes of performing them together: the values of all when the last of them has one, or else the
earliest failure when it is there. The steps that have not ended by then are dropped. Only when more
steps are gathered than at once, failures wait for the steps before them.
-/
namespace Runbook

/-- The step performs steps together, and makes a value of that shape of theirs. -/
inductive Step.Gathers : Step → Shape → List Step → Prop
  | tuple (steps : List Step) : Gathers (.tuple steps) .results steps
  | tablet (fields : List (Label × Step)) :
      Gathers (.literal (.tablet fields)) (.tablet (fields.map Prod.fst)) (fields.map Prod.snd)

namespace Step.Gathers

variable {registry : Registry} {allowed : Need → Prop} {frame : Frame} {setting : Setting}
  {together : Step} {shape : Shape} {steps : List Step}

theorem merely (gathers : together.Gathers shape steps) {works : List Work}
    (each : List.Forall₂ (fun step work =>
      SetUp.Merely (setUp registry setting step) frame (.ok work)) steps works) :
    SetUp.Merely (setUp registry setting together) frame (.ok (.gather shape works)) := by
  cases gathers with
  | tuple =>
      rw [setUp]
      exact (SetUp.merely_setUpAll setting each).bind (.pure _)
  | tablet fields =>
      rw [setUp, setUpLiteral]
      exact (SetUp.merely_setUpFields setting each).bind (.pure _)

theorem starts (gathers : together.Gathers shape steps) :
    together.starts registry = stepsStarts registry steps := by
  cases gathers with
  | tuple => rfl
  | tablet fields => rw [Step.starts, Literal.starts, fieldsStarts_eq]

theorem needs (gathers : together.Gathers shape steps) : together.needs = stepsNeeds steps := by
  cases gathers with
  | tuple => rfl
  | tablet fields => rw [Step.needs, Literal.needs, fieldsNeeds_eq]

end Step.Gathers

/-- Steps that are performed together are idle if each of them is. -/
theorem Step.forall_idle {registry : Registry} {allowed : Need → Prop} {steps : List Step} :
    (∀ step ∈ steps, step.Idle registry allowed) ↔
      stepsStarts registry steps = 0 ∧ ∀ need ∈ stepsNeeds steps, allowed need := by
  induction steps with
  | nil => exact iff_of_true (List.forall_mem_nil _) ⟨rfl, List.forall_mem_nil _⟩
  | cons step steps ih =>
      rw [List.forall_mem_cons, ih, stepsStarts, Nat.add_eq_zero_iff, stepsNeeds,
        List.forall_mem_append]
      constructor
      · rintro ⟨first, starts, needs⟩
        exact ⟨⟨first.starts, starts⟩, first.needs, needs⟩
      · rintro ⟨⟨starts, more⟩, needs, others⟩
        exact ⟨⟨starts, needs⟩, more, others⟩

theorem Step.Gathers.idle_iff {registry : Registry} {allowed : Need → Prop} {together : Step}
    {shape : Shape} {steps : List Step} (gathers : together.Gathers shape steps) :
    together.Idle registry allowed ↔ ∀ step ∈ steps, step.Idle registry allowed := by
  rw [Step.forall_idle, ← gathers.starts, ← gathers.needs]
  exact ⟨fun idle => ⟨idle.starts, idle.needs⟩, fun parts => ⟨parts.1, parts.2⟩⟩

/-- The log is of the time that the work takes. -/
theorem Work.Finishes.within_time {machine : Machine} {clock moment count : Nat} {work : Work}
    {log : List Logged} {outcome : Outcome}
    (finishes : work.Finishes machine clock log outcome moment count) :
    ∀ logged ∈ log, logged.ms ≤ moment := by
  induction finishes with
  | now => exact List.forall_mem_nil _
  | move _ rest ih =>
      refine List.forall_mem_append.mpr ⟨fun logged inside => ?_, ih⟩
      obtain ⟨event, _, rfl⟩ := List.mem_map.mp inside
      exact rest.le
  | rest _ _ _ _ _ ih => exact ih

namespace Routine

variable {routine : Routine} {registry : Registry} {argument : Value} {setting : Setting}
  {step : Step} {given : List Binding}

/-- No routine that can come to be performed starts a task. -/
def Idle (routine : Routine) (registry : Registry) : Prop :=
  ∀ other, routine.Reaches other → stepsStarts registry (other.sequence.map Entry.step) = 0

/-- What routines need that can come to be performed. -/
def Allows (routine : Routine) (need : Need) : Prop :=
  ∃ other, routine.Reaches other ∧ need ∈ other.needs

theorem Idle.entry (idle : routine.Idle registry) {other : Routine} (reaches : routine.Reaches other)
    {entry : Entry} (inside : entry ∈ other.sequence) :
    entry.step.Idle registry routine.Allows :=
  Step.forall_idle.mpr ⟨idle other reaches, fun _ needed => ⟨other, reaches, needed⟩⟩ entry.step
    (List.mem_map_of_mem inside)

theorem Idle.machine (idle : routine.Idle registry) :
    Machine.Idle ⟨registry, routine.library⟩ routine.Allows := by
  intro callee called allowed found entry inside
  obtain ⟨caller, reaches, needs⟩ := allowed
  exact idle.entry (reaches.tail ⟨callee, needs, found⟩) inside

/-- A routine is idle if it and those of its library are. -/
theorem Idle.of_library (own : stepsStarts registry (routine.sequence.map Entry.step) = 0)
    (others : ∀ entry ∈ routine.library,
      stepsStarts registry (entry.2.sequence.map Entry.step) = 0) : routine.Idle registry := by
  intro other reaches
  cases reaches with
  | refl => exact own
  | tail _ calls =>
      obtain ⟨callee, _, found⟩ := calls
      exact others (callee, other) (Library.mem_of_get? found)

/-- Performed by itself, the step comes to the ending. -/
def ComesTo (routine : Routine) (registry : Registry) (argument : Value) (setting : Setting)
    (step : Step) (ending : Ending) : Prop :=
  ∃ drain fuel report,
    (routine.running [⟨setting, step⟩]).perform? registry argument drain fuel =
      some (.ok report) ∧ report.outcome = ending.outcome ∧ report.elapsed = ending.moment

/-- What is reported of a step that comes to the ending by itself. -/
def reportOf (routine : Routine) (setting : Setting) (log : List Logged) (ending : Ending) :
    Report :=
  ⟨ending.outcome, ending.moment, ⟨0, .entered routine.procedure.name⟩ ::
    ⟨0, .starting 0 setting⟩ :: log ++ [⟨ending.moment, .finished ending.outcome.isOk⟩]⟩

end Routine

namespace World

variable {machine : Machine} {allowed : Need → Prop} {given : List Binding} {setting : Setting}
  {step : Step}

section
variable (log : List Logged) (idle : step.Idle machine.registry allowed)
include idle

/-- A run that performs one step begins with its work. -/
theorem opening_merely {work : Work}
    (made : SetUp.Merely (setUp machine.registry setting step) ⟨given⟩ (.ok work)) :
    ∃ next, (World.opening given [⟨setting, step⟩] log).step? machine = some next ∧
      next.clock = 0 ∧ next.tasks = [.body ⟨given⟩ work 1 []] ∧
      next.log = log ++ [⟨0, .starting 0 setting⟩] := by
  let entry : Entry := ⟨setting, step⟩
  have entry_idle : entry.step.Idle machine.registry allowed := idle
  have begins := Machine.begin_merely entry_idle made 1 0 []
  have moved : machine.step? (World.opening given [entry] log)
      (.body ⟨given⟩ (.done (.ok .unit)) 0 [entry]) = some _ := congrArg some begins
  exact single_move rfl moved rfl rfl

theorem opening_broken {defect : Defect}
    (made : SetUp.Merely (setUp machine.registry setting step) ⟨given⟩ (.error defect)) :
    ∃ next, (World.opening given [⟨setting, step⟩] log).step? machine = some next ∧
      next.outcome? = some (.error defect) := by
  let entry : Entry := ⟨setting, step⟩
  have entry_idle : entry.step.Idle machine.registry allowed := idle
  have begins := Machine.begin_broken entry_idle made 1 0 []
  have moved : machine.step? (World.opening given [entry] log)
      (.body ⟨given⟩ (.done (.ok .unit)) 0 [entry]) = some _ := congrArg some begins
  obtain ⟨next, stepped, _, tasks, _⟩ := single_move rfl moved rfl rfl
  exact ⟨next, stepped, outcome?_eq_error.mpr (by rw [tasks]; rfl)⟩

variable (library : machine.Idle allowed) (fixed : Given given)
include library fixed

/-- A run that performs one step ends as its work does. -/
theorem opening_comes {work : Work} {told : List Logged} {outcome : Outcome} {moment count : Nat}
    (made : SetUp.Merely (setUp machine.registry setting step) ⟨given⟩ (.ok work))
    (finishes : work.Finishes machine 0 told outcome moment count) :
    ∃ last, Comes machine (.opening given [⟨setting, step⟩] log) outcome last ∧
      last.step? machine = none ∧ last.clock = moment ∧
      last.log = log ++ [⟨0, .starting 0 setting⟩] ++ told ++
        [⟨moment, .finished outcome.isOk⟩] := by
  have lone := (SetUp.forms_setUp fixed setting step idle).of_ok made
  obtain ⟨next, stepped, clock, tasks, logged⟩ := opening_merely log idle made
  obtain ⟨last, comes, ended, late, told⟩ :=
    comes_of_finishes library fixed lone.1 tasks finishes clock
  refine ⟨last, comes.step rfl stepped, ?_, late, by rw [told, logged]⟩
  rw [single_still ended rfl]
  rfl

/-- If a run that performs one step has an outcome, so has its work. -/
theorem opening_finishes {fuel : Nat} {outcome : Outcome} {last : World}
    (found : (World.opening given [⟨setting, step⟩] log).toOutcome? machine fuel =
      some (.ok outcome, last)) :
    ∃ work told count,
      SetUp.Merely (setUp machine.registry setting step) ⟨given⟩ (.ok work) ∧
      SetUp.Lone machine.registry allowed work ∧
      work.Finishes machine 0 told outcome last.clock count := by
  obtain ⟨result, made, kinds⟩ := SetUp.forms_setUp fixed setting step idle
  have going : (World.opening given [⟨setting, step⟩] log).outcome? = none := rfl
  cases fuel with
  | zero => cases found
  | succ fuel =>
      rw [toOutcome?, going] at found
      cases result with
      | error defect =>
          obtain ⟨next, stepped, broken⟩ := opening_broken log idle made
          rw [stepped] at found
          obtain ⟨reaches, ends⟩ := toOutcome?_reaches found
          obtain ⟨_, breaks⟩ := Reaches.broken reaches broken
          cases breaks.symm.trans ends
      | ok work =>
          have lone := kinds work rfl
          obtain ⟨next, stepped, clock, tasks, _⟩ := opening_merely log idle made
          rw [stepped] at found
          obtain ⟨told, count, finishes⟩ :=
            finishes_of_toOutcome? library fixed lone.1 tasks found
          exact ⟨work, told, count, made, lone, clock ▸ finishes⟩

end

end World

namespace Routine

variable {routine : Routine} {registry : Registry} {argument : Value} {setting : Setting}
  {step : Step} {steps : List Step} {given : List Binding} {allowed : Need → Prop}

/-- Performing the routine with enough fuel has the report, and never another result, for however
long it is looked at. -/
def Reports (routine : Routine) (registry : Registry) (argument : Value) (report : Report) : Prop :=
  ∀ drain, (∃ fuel, routine.perform? registry argument drain fuel = some (.ok report)) ∧
    ∀ fuel result, routine.perform? registry argument drain fuel = some result →
      result = .ok report

theorem Reports.unique {report other : Report} (reports : routine.Reports registry argument report)
    (again : routine.Reports registry argument other) : report = other := by
  obtain ⟨⟨fuel, found⟩, _⟩ := reports 0
  exact Except.ok.inj ((again 0).2 fuel _ found)

/-- A run that comes to an outcome and sleeps then is reported in one way. -/
theorem reports_of_comes {outcome : Outcome} {last : World}
    (comes : World.Comes ⟨registry, routine.library⟩ (World.start routine argument) outcome last)
    (asleep : last.step? ⟨registry, routine.library⟩ = none) :
    routine.Reports registry argument ⟨outcome, last.clock, last.log⟩ := by
  intro drain
  have rests (limit fuel : Nat) := World.toMoment_of_asleep asleep limit fuel
  constructor
  · obtain ⟨enough, found⟩ := comes
    refine ⟨enough, perform?_eq_ok.mpr ⟨outcome, last, found enough (Nat.le_refl _), ?_⟩⟩
    rw [rests]
  · intro fuel result performed
    rw [perform?] at performed
    split at performed
    · cases performed
    · cases comes.unique ‹_›
    · cases comes.unique ‹_›
      rw [rests] at performed
      exact (Option.some.inj performed).symm

theorem reportOf_in_time {machine : Machine} {work : Work} {log : List Logged} {ending : Ending}
    {count : Nat}
    (finishes : work.Finishes machine 0 log ending.outcome ending.moment count) :
    ∀ logged ∈ (routine.reportOf setting log ending).log, logged.ms ≤ ending.moment := by
  refine List.forall_mem_append.mpr ⟨?_, List.forall_mem_singleton.mpr (Nat.le_refl _)⟩
  exact List.forall_mem_cons.mpr ⟨Nat.zero_le _,
    List.forall_mem_cons.mpr ⟨Nat.zero_le _, finishes.within_time⟩⟩

/-- Setting up the step in a routine with these parameters makes the work, and the work has the
ending by itself. -/
structure Finishes (routine : Routine) (registry : Registry) (setting : Setting)
    (given : List Binding) (step : Step) (work : Work) (told : List Logged) (ending : Ending)
    (count : Nat) : Prop where
  made : SetUp.Merely (setUp registry setting step) ⟨given⟩ (.ok work)
  finishes : work.Finishes ⟨registry, routine.library⟩ 0 told ending.outcome ending.moment count

section
variable (idle : step.Idle registry allowed)
  (library : Machine.Idle ⟨registry, routine.library⟩ allowed) (fixed : Given given)
  (opens : ∀ sequence, World.start (routine.running sequence) argument =
    .opening given sequence [⟨0, .entered routine.procedure.name⟩])
include idle library fixed opens

/-- A step whose work has an ending is reported with it, and with nothing else. -/
theorem Finishes.reports {work : Work} {told : List Logged} {ending : Ending} {count : Nat}
    (finishes : routine.Finishes registry setting given step work told ending count) :
    (routine.running [⟨setting, step⟩]).Reports registry argument
      (routine.reportOf setting told ending) := by
  obtain ⟨last, comes, asleep, late, logged⟩ :=
    World.opening_comes [⟨0, .entered routine.procedure.name⟩] idle library fixed finishes.made
      finishes.finishes
  rw [← opens] at comes
  have reports := @reports_of_comes (routine.running [⟨setting, step⟩]) _ _ _ last comes asleep
  rw [late, logged] at reports
  exact reports

/-- A step that comes to an ending is set up to a work that has it. -/
theorem ComesTo.finishes {ending : Ending}
    (comes : routine.ComesTo registry argument setting step ending) : ∃ work told count,
      SetUp.Lone registry allowed work ∧
      routine.Finishes registry setting given step work told ending count := by
  obtain ⟨drain, fuel, report, performed, outcome, elapsed⟩ := comes
  obtain ⟨_, last, found, rfl⟩ := perform?_eq_ok.mp performed
  rw [opens] at found
  obtain ⟨work, told, count, made, lone, finishes⟩ :=
    World.opening_finishes _ idle library fixed found
  refine ⟨work, told, count, lone, made, ?_⟩
  rw [← outcome, ← elapsed]
  exact finishes

end

variable {together : Step} {shape : Shape} {endings : List Ending}

section
variable (library : Machine.Idle ⟨registry, routine.library⟩ allowed) (fixed : Given given)
  (opens : ∀ sequence, World.start (routine.running sequence) argument =
    .opening given sequence [⟨0, .entered routine.procedure.name⟩])
include library fixed opens

/-- Steps that come to endings by themselves are set up to works that head for them. -/
theorem all_head (idle : ∀ step ∈ steps, step.Idle registry allowed)
    (alone : List.Forall₂ (routine.ComesTo registry argument setting) steps endings) :
    ∃ works count,
      List.Forall₂ (fun step work => SetUp.Merely (setUp registry setting step) ⟨given⟩ (.ok work))
        steps works ∧
      (∀ work ∈ works, work.failed? = none) ∧
      AllHeadFor ⟨registry, routine.library⟩ allowed 0 works endings count := by
  induction alone with
  | nil => exact ⟨[], 0, .nil, List.forall_mem_nil _, .nil⟩
  | cons first _ ih =>
      obtain ⟨here, others⟩ := List.forall_mem_cons.mp idle
      obtain ⟨work, told, moves, lone, its⟩ := first.finishes here library fixed opens
      obtain ⟨works, count, made, whole, all⟩ := ih others
      exact ⟨work :: works, moves + count, .cons its.made made,
        List.forall_mem_cons.mpr ⟨lone.2, whole⟩, .cons (.ahead lone.1 its.finishes) all⟩

/-- If one of them fails without waiting, and none before it does, then performing them together is
reported in the same way whatever stands behind it. -/
theorem fails_at_once {before : List Step} {earlier : List Ending} {failure : Failure}
    (idle : ∀ other ∈ before ++ [step], other.Idle registry allowed)
    (alone : List.Forall₂ (routine.ComesTo registry argument setting) before earlier)
    (fails : routine.ComesTo registry argument setting step ⟨.error failure, 0⟩)
    (first : ∀ failure, ⟨.error failure, 0⟩ ∉ earlier) :
    ∃ log, ∀ (together : Step) (shape : Shape) (behind : List Step) (later : List Ending),
      (∀ other ∈ behind, other.Idle registry allowed) →
      List.Forall₂ (routine.ComesTo registry argument setting) behind later →
      together.Gathers shape (before ++ step :: behind) →
      (earlier.length + 1 + behind.length ≤ Work.gatheredAtOnce ∨
        ∀ ending ∈ earlier, ∃ value, ending = ⟨.ok value, 0⟩) →
      (routine.running [⟨setting, together⟩]).Reports registry argument
        (routine.reportOf setting log ⟨.error failure, 0⟩) := by
  obtain ⟨idle', here⟩ := List.forall_mem_append.mp idle
  have here := here step (List.mem_singleton_self _)
  obtain ⟨works, count, made, whole, all⟩ := all_head library fixed opens idle' alone
  obtain ⟨work, told, moves, lone, its⟩ := fails.finishes here library fixed opens
  have heads : work.HeadsFor ⟨registry, routine.library⟩ allowed 0 ⟨.error failure, 0⟩ moves :=
    .ahead lone.1 its.finishes
  have none : NoneFails 0 earlier := by
    intro ending inside failure same
    obtain ⟨outcome, moment⟩ := ending
    subst same
    refine Nat.pos_of_ne_zero fun zero => ?_
    subst zero
    exact first failure inside
  obtain ⟨log, finishes⟩ := all.at_once library none (heads.going rfl lone.2) its.finishes
  refine ⟨log, fun together shape behind later idle alone gathers looks => ?_⟩
  obtain ⟨others, _, made', whole', all'⟩ := all_head library fixed opens idle alone
  have looks : earlier.length + 1 + others.length ≤ Work.gatheredAtOnce ∨
      ∀ ending ∈ earlier, ∃ value, ending.outcome = .ok value ∧ ending.moment ≤ 0 := by
    rw [← made'.length_eq]
    refine looks.imp_right fun values ending inside => ?_
    obtain ⟨value, rfl⟩ := values ending inside
    exact ⟨value, rfl, Nat.le_refl _⟩
  obtain ⟨count, ends⟩ := finishes shape others whole' looks
  have together_idle := gathers.idle_iff.mpr
    (List.forall_mem_append.mpr ⟨idle', List.forall_mem_cons.mpr ⟨here, idle⟩⟩)
  have works_made := gathers.merely (List.rel_append made (.cons its.made made'))
  exact (Finishes.mk works_made ends).reports together_idle library fixed opens

end

/-- Steps that start no tasks fail fast when they are performed together. What they come to by
themselves decides what they come to together and when, nothing is heard after it, and if one fails
without waiting then those behind it have had no turn. -/
theorem gathers_fail_fast (fits : routine.Fits argument) (gathers : together.Gathers shape steps)
    (idle : (routine.running [⟨setting, together⟩]).Idle registry)
    (alone : List.Forall₂ (routine.ComesTo registry argument setting) steps endings) :
    ∃ report, (routine.running [⟨setting, together⟩]).Reports registry argument report ∧
      EndsTogether shape endings ⟨report.outcome, report.elapsed⟩ ∧
      (∀ logged ∈ report.log, logged.ms ≤ report.elapsed) ∧
      ∀ before step behind earlier failure later, steps = before ++ step :: behind →
        endings = earlier ++ ⟨.error failure, 0⟩ :: later → before.length = earlier.length →
        (∀ failure, ⟨.error failure, 0⟩ ∉ earlier) →
        (steps.length ≤ Work.gatheredAtOnce ∨
          ∀ ending ∈ earlier, ∃ value, ending = ⟨.ok value, 0⟩) →
        report.outcome = .error failure ∧ report.elapsed = 0 ∧
          ∀ cut shape, cut.Gathers shape (before ++ [step]) →
            (routine.running [⟨setting, cut⟩]).Reports registry argument report := by
  obtain ⟨given, fixed, opens⟩ := fits.opening
  have library : Machine.Idle ⟨registry, routine.library⟩ _ := idle.machine
  have whole : together.Idle registry _ := idle.entry .refl List.mem_cons_self
  have each := gathers.idle_iff.mp whole
  obtain ⟨works, count, made, unfailed, all⟩ := all_head library fixed opens each alone
  obtain ⟨ending, ends⟩ := exists_endsTogether shape endings
  have ordered : AllHeadFor.Ordered ⟨registry, routine.library⟩ 0 works := by
    intro _ place work failed there fails
    cases (unfailed work (List.mem_of_getElem? there)).symm.trans fails
  obtain ⟨told, moves, finishes⟩ : ∃ told moves, (Work.gather shape works).Finishes
      ⟨registry, routine.library⟩ 0 told ending.outcome ending.moment moves :=
    all.finishes library ends.decides (Nat.zero_le _) ordered
  have reports := (Finishes.mk (gathers.merely made) finishes).reports whole library fixed opens
  refine ⟨_, reports, ends, reportOf_in_time finishes, ?_⟩
  intro before step behind earlier failure later split split' same first looks
  subst split split'
  obtain ⟨each', others⟩ := List.forall_mem_append.mp each
  obtain ⟨here, behind_idle⟩ := List.forall_mem_cons.mp others
  have alone' := List.forall₂_take_append _ _ _ alone
  have rest := List.forall₂_drop_append _ _ _ alone
  rw [← same, List.take_left] at alone'
  rw [← same, List.drop_left] at rest
  obtain ⟨fails, later_alone⟩ := List.forall₂_cons.mp rest
  obtain ⟨log, told⟩ := fails_at_once library fixed opens (List.forall_mem_append.mpr
    ⟨each', List.forall_mem_singleton.mpr here⟩) alone' fails first
  have length : (before ++ step :: behind).length = earlier.length + 1 + behind.length := by
    rw [List.length_append, List.length_cons, same]
    omega
  rw [reports.unique
    (told together shape behind later behind_idle later_alone gathers (length ▸ looks))]
  refine ⟨rfl, rfl, fun cut other cuts => ?_⟩
  refine told cut other [] [] (List.forall_mem_nil _) .nil cuts (looks.imp_left fun few => ?_)
  exact (Nat.add_le_add_left (Nat.zero_le _) _).trans (length ▸ few)

end Routine

/-- A routine that can call one that fails. -/
def Routine.carrying : Routine :=
  let dropping : Routine :=
    ⟨.serving, [⟨0, "x"⟩], [⟨.inherit, .invoke "fail" (.read ⟨0, "x"⟩)⟩], []⟩
  ⟨.serving, [⟨0, "x"⟩], [], [(0, dropping)]⟩

/-- Steps of which the second fails without waiting, with one before it that waits and one behind it
that writes. -/
def Step.spilling : List Step :=
  [.nap, .call 0 (.read ⟨0, "x"⟩), .invoke "write" (.read ⟨0, "x"⟩)]

theorem Routine.gathers_fail_fast_spilling :
    let running (steps : List Step) := carrying.running [⟨.inherit, .tuple steps⟩]
    let endings : List Ending :=
      [⟨.ok .unit, 5⟩, ⟨.error (.builtin "fail" "tea"), 0⟩, ⟨.ok .unit, 0⟩]
    carrying.Fits (.text "tea") ∧ (running Step.spilling).Idle .standard ∧
    List.Forall₂ (carrying.ComesTo .standard (.text "tea") .inherit) Step.spilling endings ∧
    ∃ report, (running Step.spilling).Reports .standard (.text "tea") report ∧
      report.outcome = .error (.builtin "fail" "tea") ∧ report.elapsed = 0 ∧
      (running (Step.spilling.take 2)).Reports .standard (.text "tea") report := by
  have fits : carrying.Fits (.text "tea") := .inr ⟨_, rfl⟩
  have idle : (carrying.running [⟨.inherit, .tuple Step.spilling⟩]).Idle .standard :=
    .of_library rfl (List.forall_mem_singleton.mpr rfl)
  have alone : List.Forall₂ (carrying.ComesTo .standard (.text "tea") .inherit) Step.spilling
      [⟨.ok .unit, 5⟩, ⟨.error (.builtin "fail" "tea"), 0⟩, ⟨.ok .unit, 0⟩] :=
    .cons ⟨0, 20, _, rfl, rfl, rfl⟩ (.cons ⟨0, 20, _, rfl, rfl, rfl⟩
      (.cons ⟨0, 20, _, rfl, rfl, rfl⟩ .nil))
  obtain ⟨report, reports, _, _, at_once⟩ :=
    gathers_fail_fast fits (.tuple Step.spilling) idle alone
  obtain ⟨fails, now, cut⟩ := at_once [.nap] _ _ [⟨.ok .unit, 5⟩] _ _ rfl rfl rfl
    (fun failure inside => by cases List.mem_singleton.mp inside) (.inl (by decide))
  exact ⟨fits, idle, alone, report, reports, fails, now, cut _ _ (.tuple _)⟩

/-- Steps of which the first is slow and the last fails in the meantime, and many between them. -/
def Step.crowd : List Step :=
  let number (n : Nat) : Step := .literal (.quantity (.number (.ofNat n)))
  .invoke "slow" (number 10) :: (List.range 29).map number ++ [.invoke "first" (number 5)]

/-- Of more steps than are gathered at once, the only failure waits for those before it. -/
theorem Routine.gathers_fail_fast_crowded :
    let registry := (Registry.standard.rehearse "slow" .delay).rehearse "first" .failAfter
    let ends (step : Step) :=
      ((lone step).perform? registry .unit 0 100).map
        (Except.map fun report => (report.outcome, report.elapsed))
    let number (n : Nat) : Value := .quantity (.number (.ofNat n))
    let labels := (List.range 31).map fun n => "a" ++ toString n
    stepsStarts registry Step.crowd = 0 ∧
    Step.crowd.map ends = some (.ok (.ok (number 10), 10)) ::
      ((List.range 29).map fun n => some (.ok (.ok (number n), 0))) ++
      [some (.ok (.error (.builtin "first" "5"), 5))] ∧
    ends (.literal (.tablet (labels.zip Step.crowd))) =
      some (.ok (.error (.builtin "first" "5"), 10)) := by
  decide +kernel

end Runbook
