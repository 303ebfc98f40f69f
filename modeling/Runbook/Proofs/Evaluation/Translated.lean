import Runbook.Proofs.Evaluation.Translation
import Runbook.Proofs.Evaluation.Moments

/-!
Runs under a translation.

A translated work makes the translated move of the work, so each world of a translated run is that
of the run, translated. What differs in its numbers, in its settings or in the moment at which it
begins goes on alike, and only traces and defects show the difference.
-/
namespace Runbook

section
variable (t : Translation)

def Change.translate (change : Change) : Change where
  work := change.work.translate t
  started := change.started.map (Work.translate t)
  events := change.events.map (Event.translate t)
  met := change.met

def Logged.translate (logged : Logged) : Logged := ⟨logged.ms + t.late, logged.event.translate t⟩

def World.translate (world : World) : World where
  clock := world.clock + t.late
  tasks := world.tasks.map (Work.translate t)
  queue := world.queue
  log := world.log.map (Logged.translate t)

namespace Work

@[simp] theorem value?_translate (work : Work) : (work.translate t).value? = work.value? := by
  cases work with
  | done outcome => rfl
  | _ => rfl

@[simp] theorem broken?_translate (work : Work) :
    (work.translate t).broken? = work.broken?.map (translate t) := by
  cases work <;> rfl

@[simp] theorem failed?_translate (work : Work) :
    (work.translate t).failed? = work.failed?.map (translate t) := by
  cases work with
  | done outcome => cases outcome <;> rfl
  | _ => rfl

@[simp] theorem ended?_translate (work : Work) :
    (work.translate t).ended? = work.ended?.map (translate t) := by
  cases work <;> rfl

@[simp] theorem meet_translate (work : Work) :
    (work.translate t).meet = work.meet.translate t := by
  cases work <;> rfl

theorem mapM_value?_translate (members : List Work) :
    (members.map (translate t)).mapM value? = members.mapM value? := by
  rw [List.mapM_map]
  exact congrArg (members.mapM ·) (funext (value?_translate t))

theorem findSome?_translate {ask : Work → Option Work}
    (same : ∀ work, ask (work.translate t) = (ask work).map (translate t)) (members : List Work) :
    (members.map (translate t)).findSome? ask = (members.findSome? ask).map (translate t) := by
  induction members with
  | nil => rfl
  | cons work members ih =>
      rw [List.map_cons, List.findSome?_cons, List.findSome?_cons, same, ih]
      cases ask work <;> rfl

theorem spoiled?_translate (members : List Work) :
    spoiled? (members.map (translate t)) = (spoiled? members).map (translate t) := by
  rw [spoiled?, spoiled?, List.length_map, findSome?_translate t (failed?_translate t),
    findSome?_translate t (broken?_translate t)]
  split
  · rfl
  · cases members.findSome? broken? with
    | some defect => rfl
    | none =>
        have waiting : (fun work => work.value?.isSome) ∘ translate t =
            fun work => work.value?.isSome := by
          funext work
          exact congrArg Option.isSome (value?_translate t work)
        simp only [Option.map_none]
        rw [List.dropWhile_map, waiting, List.head?_map]
        cases (members.dropWhile fun work => work.value?.isSome).head? with
        | none => rfl
        | some work => exact failed?_translate t work

mutual

theorem wakes_translate : ∀ work : Work,
    (work.translate t).wakes = work.wakes.map (· + t.late)
  | .done _ | .broken _ | .wait _ | .race _ _ | .sleep _ _ | .settle _ _ => rfl
  | .fresh work => work.wakes_translate
  | .after source _ => source.wakes_translate
  | .gather _ members => wakesOfAll_translate members
  | .body _ current _ _ => current.wakes_translate

theorem wakesOfAll_translate : ∀ works : List Work,
    wakesOfAll (worksTranslate t works) = (wakesOfAll works).map (· + t.late)
  | [] => rfl
  | work :: works => by
      rw [worksTranslate, wakesOfAll, wakesOfAll, work.wakes_translate,
        wakesOfAll_translate works, List.map_append]

end

end Work

theorem Response.events_translate (response : Response) :
    response.events.map (Event.translate t) = response.events := by
  rw [Response.events, List.map_map]
  rfl

theorem told_translate (events : List Event) :
    told (events.map (Event.translate t)) = told events := by
  induction events with
  | nil => rfl
  | cons event events ih =>
      cases event with
      | said channel value => exact congrArg (Event.said channel value :: ·) ih
      | _ => exact ih

end

section
variable {t : Translation}

/-- A move of a translated work in a translated context. -/
theorem Change.map_within_translate {context other : Work → Work} (moved : Option Change)
    (same : ∀ work : Work, other (work.translate t) = (context work).translate t) :
    (moved.map (translate t)).map (·.within other) =
      (moved.map (·.within context)).map (translate t) := by
  cases moved with
  | none => rfl
  | some change => exact congrArg (fun work => some { change.translate t with work }) (same _)

theorem Value.split_count {first second : Nat} (same : first = second) (value : Value) :
    (value.split first).map Subtype.val = (value.split second).map Subtype.val := by
  subst same
  rfl

theorem enter_translate {routine other : Routine}
    (script : other.script = routine.script.translate t) (argument : Value) :
    enter other argument = (enter routine argument).translate t := by
  obtain ⟨procedure, parameters, sequence, library⟩ := routine
  obtain ⟨again, others, entries, members⟩ := other
  rw [Routine.script, Routine.script, Script.translate, Script.mk.injEq] at script
  obtain ⟨name, rfl, rfl⟩ := script
  simp only at name
  simp only [enter, name, List.isEmpty_map]
  split
  · rfl
  · have length : (parameters.map t.numbers.name).length = parameters.length := List.length_map _
    have same := argument.split_count length
    cases first : argument.split (parameters.map t.numbers.name).length with
    | ok values =>
        cases second : argument.split parameters.length with
        | ok others =>
            rw [first, second] at same
            have equal : values.val = others.val := Except.ok.inj same
            simp only [equal, Frame.ofParameters_renumber]
            rfl
        | error failure =>
            rw [first, second] at same
            cases same
    | error failure =>
        cases second : argument.split parameters.length with
        | ok others =>
            rw [first, second] at same
            cases same
        | error other =>
            rw [first, second] at same
            cases same
            rfl

end

/-- The second machine has the routines of the first, translated. -/
structure Machine.Translates (t : Translation) (machine other : Machine) : Prop where
  registry : other.registry = machine.registry
  library : ∀ callee, (other.library.get? (t.numbers.callee callee)).map Routine.script =
    (machine.library.get? callee).map fun routine => routine.script.translate t

theorem Machine.translates_delaying (machine : Machine) (late : Nat) :
    machine.Translates (.delaying late) machine where
  registry := rfl
  library callee := by
    simp only [Script.translate_delaying]
    rfl

/-- It is later in the second world, which has as many tasks; the same have ended, translated. -/
structure World.Translates (t : Translation) (world other : World) : Prop where
  clock : other.clock = world.clock + t.late
  count : other.tasks.length = world.tasks.length
  ends : ∀ task : TaskId, other.tasks[task]?.bind Work.ended? =
    (world.tasks[task]?.bind Work.ended?).map (Work.translate t)

namespace Machine

variable {t : Translation} {machine machine' : Machine} {world other : World}

section
variable (machines : machine.Translates t machine')
include machines

theorem goOn_translate (clock : Nat) (value : Value) (next : Continuation) :
    machine'.goOn (clock + t.late) value (next.renumber t.numbers) =
      (machine.goOn clock value next).translate t := by
  have performs (primitive : Primitive) {events : List Event}
      (same : events.map (Event.translate t) = events) :
      goOn.perform (clock + t.late) value primitive events =
        (goOn.perform clock value primitive events).translate t := by
    simp only [goOn.perform, Change.translate, List.map_append, same, Response.events_translate]
    split
    · rfl
    · rw [Nat.add_right_comm]
      rfl
  cases next with
  | pick names place =>
      rw [Continuation.renumber, goOn, goOn]
      split <;> rfl
  | call callee =>
      have found := machines.library callee
      rw [Continuation.renumber, goOn, goOn]
      cases first : machine.library.get? callee with
      | none =>
          rw [first, Option.map_none, Option.map_eq_none_iff] at found
          rw [found]
          rfl
      | some routine =>
          rw [first, Option.map_some, Option.map_eq_some_iff] at found
          obtain ⟨other, second, script⟩ := found
          rw [second]
          exact enter_translate script value
  | invoke primitive => exact performs primitive rfl
  | join primitive => exact performs primitive rfl

theorem begin_translate (next : TaskId) (frame : Frame) (index : Nat) (entry : Entry)
    (entries : List Entry) :
    machine'.begin next (frame.renumber t.numbers) index (entry.translate t)
        (entries.map (Entry.translate t)) =
      (machine.begin next frame index entry entries).translate t := by
  have same : (setUpEntry machine.registry index entries.isEmpty (entry.translate t)).run.run
      ⟨frame.renumber t.numbers, next, [], []⟩ = _ :=
    SetUp.setUpEntry_translates index entries.isEmpty entry ⟨frame, next, [], []⟩
  simp only [begin, List.isEmpty_map, machines.registry]
  rw [same]
  cases (setUpEntry machine.registry index entries.isEmpty entry).run.run ⟨frame, next, [], []⟩ with
  | mk result after => cases result <;> rfl

end

theorem settle_ended? (count : Nat) (bindings : List (TaskId × Nat)) (result : Value)
    (found : Option Work) : found.bind (settle count bindings result) =
      (found.bind Work.ended?).bind (settle count bindings result) := by
  cases found with
  | none => rfl
  | some work => cases work <;> rfl

theorem settle_translate (count : Nat) (bindings : List (TaskId × Nat)) (result : Value)
    (work : Work) :
    settle count bindings result (work.translate t) =
      (settle count bindings result work).map (Change.translate t) := by
  cases work with
  | done outcome =>
      cases outcome with
      | ok value =>
          rw [Work.translate, settle]
          split <;> rfl
      | error failure => rfl
  | _ => rfl

theorem race_translate {left right left' right' : Option Work}
    (first : left'.bind Work.ended? = (left.bind Work.ended?).map (Work.translate t))
    (second : right'.bind Work.ended? = (right.bind Work.ended?).map (Work.translate t)) :
    race left' right' = (race left right).map (Work.translate t) := by
  rw [race, race, first, second]
  cases left.bind Work.ended? with
  | some winner =>
      cases winner with
      | done outcome => cases outcome <;> rfl
      | _ => rfl
  | none =>
      cases right.bind Work.ended? with
      | none => rfl
      | some winner =>
          cases winner with
          | done outcome => cases outcome <;> rfl
          | _ => rfl

mutual

/-- A translated work makes the translated move of the work. -/
theorem step?_translate (machines : machine.Translates t machine')
    (worlds : world.Translates t other) : ∀ work : Work,
    machine'.step? other (work.translate t) = (machine.step? world work).map (Change.translate t)
  | .done _ | .broken _ | .fresh _ => rfl
  | .wait task => by
      rw [Work.translate, step?, step?, worlds.ends]
      cases world.tasks[task]?.bind Work.ended? <;> rfl
  | .race left right => by
      rw [Work.translate, step?, step?, race_translate (worlds.ends left) (worlds.ends right)]
      cases race world.tasks[left]? world.tasks[right]? <;> rfl
  | .sleep wake outcome => by
      rw [Work.translate, step?, step?, worlds.clock]
      simp only [Nat.add_le_add_iff_right]
      split <;> rfl
  | .after source next => by
      have part := step?_translate machines worlds source
      cases ends : source.ended? with
      | none =>
          have waits : (source.translate t).ended? = none := by
            rw [source.ended?_translate, ends, Option.map_none]
          rw [Work.translate, step?_after _ waits, step?_after _ ends, part]
          exact Change.map_within_translate _ fun _ => rfl
      | some ended =>
          cases source with
          | done outcome =>
              cases outcome with
              | ok value =>
                  rw [Work.translate, Work.translate, step?, step?, worlds.clock]
                  exact congrArg some (goOn_translate machines world.clock value next)
              | error failure => rfl
          | broken defect => rfl
          | _ => cases ends
  | .gather shape members => by
      rw [Work.translate, step?, step?, worksTranslate_eq_map, Work.spoiled?_translate,
        Work.mapM_value?_translate]
      cases Work.spoiled? members with
      | some failed => rfl
      | none =>
          cases members.mapM Work.value? with
          | some values => rfl
          | none =>
              refine stepFirst?_translate machines worlds members fun others => ?_
              rw [Work.translate, worksTranslate_eq_map]
  | .body frame current index entries => by
      have part := step?_translate machines worlds current
      cases ends : current.ended? with
      | none =>
          have waits : (current.translate t).ended? = none := by
            rw [current.ended?_translate, ends, Option.map_none]
          rw [Work.translate, step?_body _ _ _ waits, step?_body _ _ _ ends, part]
          exact Change.map_within_translate _ fun _ => rfl
      | some ended =>
          cases current with
          | done outcome =>
              cases outcome with
              | ok value =>
                  cases entries with
                  | nil =>
                      rw [Work.translate, Work.translate, List.map_nil, step?, step?,
                        Frame.unobserved_renumber]
                      rfl
                  | cons entry entries =>
                      rw [Work.translate, Work.translate, List.map_cons, step?, step?,
                        worlds.count]
                      exact congrArg some (begin_translate machines _ frame index entry entries)
              | error failure => rfl
          | broken defect => rfl
          | _ => cases ends
  | .settle [] result => rfl
  | .settle ((task, count) :: bindings) result => by
      rw [Work.translate, step?, step?, settle_ended?, worlds.ends,
        settle_ended? count bindings result world.tasks[task]?]
      cases world.tasks[task]?.bind Work.ended? with
      | none => rfl
      | some work =>
          simp only [Option.map_some, Option.bind_some, settle_translate]
          cases settle count bindings result work <;> rfl

theorem stepFirst?_translate (machines : machine.Translates t machine')
    (worlds : world.Translates t other) : ∀ (works : List Work)
    {context context' : List Work → Work},
    (∀ works, context' (works.map (Work.translate t)) = (context works).translate t) →
      machine'.stepFirst? other context' (works.map (Work.translate t)) =
        (machine.stepFirst? world context works).map (Change.translate t)
  | [], _, _, _ => rfl
  | work :: works, context, context', same => by
      rw [List.map_cons, stepFirst?, stepFirst?, step?_translate machines worlds work]
      cases machine.step? world work with
      | some change =>
          exact Change.map_within_translate (some change) fun work => same (work :: works)
      | none =>
          exact stepFirst?_translate machines worlds works fun later => same (work :: later)

end

end Machine

/-! Translated worlds. -/

theorem World.translates (t : Translation) (world : World) :
    world.Translates t (world.translate t) where
  clock := rfl
  count := List.length_map _
  ends task := by
    rw [translate, List.getElem?_map]
    cases world.tasks[task]? with
    | none => rfl
    | some work => exact work.ended?_translate t

/-- What a turn has, translated. -/
def Machine.translateTurn (t : Translation) : TaskId × Change × List TaskId →
    TaskId × Change × List TaskId
  | (task, change, queue) => (task, change.translate t, queue)

theorem min?_later (moments : List Nat) (late : Nat) :
    (moments.map (· + late)).min? = moments.min?.map (· + late) := by
  cases first : moments.min? with
  | none =>
      rw [List.min?_eq_none_iff.mp first]
      rfl
  | some moment =>
      obtain ⟨inside, least⟩ := List.min?_eq_some_iff.mp first
      refine List.min?_eq_some_iff.mpr ⟨List.mem_map.mpr ⟨moment, inside, rfl⟩, fun other mem => ?_⟩
      obtain ⟨other, among, rfl⟩ := List.mem_map.mp mem
      exact Nat.add_le_add_right (least other among) late

section
variable {t : Translation} {machine machine' : Machine}

namespace World

theorem modify_translate (works : List Work) (task : TaskId) :
    (works.map (Work.translate t)).modify task Work.meet =
      (works.modify task Work.meet).map (Work.translate t) := by
  induction works generalizing task with
  | nil => cases task <;> rfl
  | cons work works ih =>
      cases task with
      | zero => exact congrArg (· :: works.map _) (work.meet_translate t)
      | succ task => exact congrArg (work.translate t :: ·) (ih task)

theorem tasksAfter_translate (world : World) (task : TaskId) (change : Change) :
    (world.translate t).tasksAfter task (change.translate t) =
      (world.tasksAfter task change).map (Work.translate t) := by
  obtain ⟨work, started, events, met⟩ := change
  cases met with
  | none =>
      simp only [tasksAfter, translate, Change.translate, Option.elim_none, List.map_append,
        List.map_set]
  | some met =>
      simp only [tasksAfter, translate, Change.translate, Option.elim_some, List.map_append,
        ← List.map_set, modify_translate]

theorem apply_translate (world : World) (task : TaskId) (change : Change) (queue : List TaskId) :
    (world.translate t).apply task (change.translate t) queue =
      (world.apply task change queue).translate t := by
  have tasks := @tasksAfter_translate t world task change
  change World.mk _ _ _ _ = World.mk _ _ _ _
  rw [World.mk.injEq]
  refine ⟨rfl, tasks, ?_, ?_⟩
  · simp only [apply, translate, Change.translate, List.length_map]
  · simp only [apply, translate, Change.translate, List.map_append, List.map_map]
    rfl

theorem wake?_translate (world : World) :
    (world.translate t).wake? = world.wake?.map (· + t.late) := by
  rw [wake?, wake?, translate, ← worksTranslate_eq_map, Work.wakesOfAll_translate, min?_later]

theorem outcome?_translate (world : World) : (world.translate t).outcome? =
    world.outcome?.map (Except.mapError (Defect.renumber t.numbers)) := by
  obtain ⟨clock, tasks, queue, log⟩ := world
  cases tasks with
  | nil => rfl
  | cons work tasks => cases work <;> rfl

end World

variable (machines : machine.Translates t machine')
include machines

namespace Machine

variable (world : World)

theorem stepTask?_translate (task : TaskId) :
    machine'.stepTask? (world.translate t) task =
      (machine.stepTask? world task).map (Change.translate t) := by
  rw [stepTask?, stepTask?, World.translate, List.getElem?_map]
  cases world.tasks[task]? with
  | none => rfl
  | some work => exact step?_translate machines (world.translates t) work

theorem turn?_translate (queue : List TaskId) :
    machine'.turn? (world.translate t) queue =
      (machine.turn? world queue).map (translateTurn t) := by
  induction queue with
  | nil => rfl
  | cons task queue ih =>
      rw [turn?, turn?, stepTask?_translate machines]
      cases machine.stepTask? world task with
      | some change => rfl
      | none => exact ih

theorem awake_translate : machine'.awake (world.translate t) = machine.awake world := by
  rw [awake, awake, World.translate, List.length_map]
  congr 1
  funext task
  exact (congrArg Option.isSome (stepTask?_translate machines world task)).trans Option.isSome_map

end Machine

namespace World

theorem afterTurn_translate (world : World) (turn : TaskId × Change × List TaskId) :
    (world.translate t).afterTurn machine' (Machine.translateTurn t turn) =
      (world.afterTurn machine turn).translate t := by
  obtain ⟨task, change, queue⟩ := turn
  have ends : (change.translate t).work.ended?.isSome = change.work.ended?.isSome :=
    (congrArg Option.isSome (change.work.ended?_translate t)).trans Option.isSome_map
  rw [Machine.translateTurn, afterTurn, afterTurn, ends, apply_translate]
  split
  · rw [enqueue, enqueue, Machine.awake_translate machines]
    rfl
  · rfl

/-- A translated world makes the translated step of the world. -/
theorem step?_translate (world : World) :
    (world.translate t).step? machine' = (world.step? machine).map (translate t) := by
  have queue : (world.translate t).queue = world.queue := rfl
  rw [step?, step?, queue, Machine.awake_translate machines, Machine.turn?_translate machines,
    Machine.turn?_translate machines, wake?_translate]
  cases machine.turn? world world.queue with
  | some turn => exact congrArg some (afterTurn_translate machines world turn)
  | none =>
      cases machine.turn? world (machine.awake world) with
      | some turn => exact congrArg some (afterTurn_translate machines world turn)
      | none =>
          simp only [Option.map_none, Option.map_map]
          rfl

theorem toOutcome?_translate (fuel : Nat) (world : World) :
    (world.translate t).toOutcome? machine' fuel = (world.toOutcome? machine fuel).map
      (Prod.map (Except.mapError (Defect.renumber t.numbers)) (translate t)) := by
  induction fuel generalizing world with
  | zero => rfl
  | succ fuel ih =>
      rw [toOutcome?, toOutcome?, outcome?_translate, step?_translate machines]
      cases world.outcome? with
      | some outcome => rfl
      | none =>
          cases world.step? machine with
          | none => rfl
          | some next => exact ih next

theorem toMoment_translate (limit fuel : Nat) (world : World) :
    (world.translate t).toMoment machine' (limit + t.late) fuel =
      (world.toMoment machine limit fuel).translate t := by
  induction fuel generalizing world with
  | zero => rfl
  | succ fuel ih =>
      rw [toMoment, toMoment, step?_translate machines]
      cases world.step? machine with
      | none => rfl
      | some next =>
          have clock : (next.translate t).clock = next.clock + t.late := rfl
          simp only [Option.map_some, clock, Nat.add_lt_add_iff_right]
          split
          · rfl
          · exact ih next

end World

end

/-- The report, translated. -/
def Report.translate (t : Translation) (report : Report) : Report :=
  ⟨report.outcome, report.elapsed + t.late, report.log.map (Logged.translate t)⟩

section
variable {t : Translation} (prompt : t.late = 0)
include prompt

theorem World.start_translate {routine other : Routine}
    (script : other.script = routine.script.translate t) (argument : Value) :
    World.start other argument = (World.start routine argument).translate t := by
  rw [start, start, enter_translate script]
  simp only [translate, Change.translate, List.map_cons, List.map_nil, List.map_map, prompt]
  refine congrArg (World.mk 0 _ _) (List.map_congr_left fun event _ => ?_)
  exact congrArg (Logged.mk · (event.translate t)) (by rw [prompt])

/-- A translated routine that begins at once is performed as the routine is. -/
theorem Routine.perform?_translate {routine other : Routine}
    (script : other.script = routine.script.translate t) (registry : Registry)
    (library : Machine.Translates t ⟨registry, routine.library⟩ ⟨registry, other.library⟩)
    (argument : Value) (drain fuel : Nat) :
    other.perform? registry argument drain fuel =
      (routine.perform? registry argument drain fuel).map fun result =>
        (result.map (Report.translate t)).mapError (Defect.renumber t.numbers) := by
  rw [Routine.perform?, Routine.perform?, World.start_translate prompt script,
    World.toOutcome?_translate library]
  cases (World.start routine argument).toOutcome? ⟨registry, routine.library⟩ fuel with
  | none => rfl
  | some found =>
      obtain ⟨result, world⟩ := found
      cases result with
      | error defect => rfl
      | ok outcome =>
          have log := congrArg World.log (World.toMoment_translate library (world.clock + drain)
            fuel world)
          rw [Nat.add_right_comm] at log
          exact congrArg (fun log => some (Except.ok (Report.mk outcome _ log))) log

end

end Runbook
