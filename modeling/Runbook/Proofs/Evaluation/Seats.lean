import Runbook.Proofs.Evaluation.Filling
import Runbook.Proofs.Evaluation.Owed
import Runbook.Proofs.Evaluation.Underway

/-!
Where the works of steps stand.

Each step of an entry is set up to a work of its own. Its seat is in the work of the entry, or in a
task that is started for a binding or an operand around the step, and the place of the step decides
which. The work stays there until it goes on with the value that it waits for. From then on nothing
stands there that was set up, so that it never goes on again.
-/
namespace Runbook

/-- The work of that number among those whose values a work waits for. -/
def Work.operand? : Work → Nat → Option Work
  | .after source _, 0 => some source
  | .gather _ members, index => members[index]?
  | _, _ => none

/-- The work that the numbers lead to, each time to one whose value is waited for. -/
def Work.seat? : List Nat → Work → Option Work
  | [], work => some work
  | index :: path, work => (work.operand? index).bind (seat? path)

/-- Is it the work of a step that has still to begin, or that goes on when others have values? -/
def Work.composed : Work → Bool
  | .fresh _ | .after _ _ | .gather _ _ => true
  | _ => false

/-- Where the numbers lead, or on the way there, the work of a step has gone on. -/
def Work.Spent : List Nat → Work → Prop
  | [], work => work.composed = false
  | index :: path, work =>
    work.composed = false ∨ ∃ inner, work.operand? index = some inner ∧ Spent path inner

theorem Work.uncomposed_of_ended {work ended : Work} (ends : work.ended? = some ended) :
    work.composed = false := by
  cases work with
  | done outcome => rfl
  | broken defect => rfl
  | _ => cases ends

namespace Machine

theorem enter_uncomposed (routine : Routine) (argument : Value) :
    (enter routine argument).work.composed = false := by
  rcases Moves.enter_cases routine argument with ⟨frame, same⟩ | ⟨outcome, same⟩
  · rw [same]
    rfl
  · rw [same]
    rfl

variable (machine : Machine) (clock : Nat) (value : Value) (next : Continuation)

theorem goOn_uncomposed : (machine.goOn clock value next).work.composed = false := by
  rcases @Moves.goOn_cases machine clock value next with
    ⟨ended, same, ends⟩ | ⟨wake, outcome, same⟩ | ⟨callee, routine, _, _, same⟩
  · rw [same]
    exact Work.uncomposed_of_ended ends
  · rw [same]
    rfl
  · rw [same]
    exact enter_uncomposed routine value

theorem goOn_met : (machine.goOn clock value next).met = none := by
  cases next with
  | pick names place =>
      rw [goOn]
      split <;> rfl
  | call callee =>
      rw [goOn]
      split
      · rw [enter]
        dsimp only
        split
        · rfl
        · split <;> rfl
      · rfl
  | invoke primitive => rfl
  | join primitive => rfl

end Machine

variable {machine : Machine} {world : World} {work : Work} {change : Change} {path : List Nat}

/-- What waits for nothing is not composed any more, and stays so. -/
theorem Moves.uncomposed (moves : Moves machine world work change)
    (plain : work.composed = false) : change.work.composed = false := by
  cases moves with
  | fresh => cases plain
  | wait _ ends => exact Work.uncomposed_of_ended ends
  | race won => exact Work.uncomposed_of_ended (Machine.race_ended won)
  | goOn => cases plain
  | source _ => cases plain
  | spoil _ => cases plain
  | member _ => cases plain
  | begin =>
      rcases machine.begin_sets _ _ _ _ _ with ⟨_, _, _, _, same, _⟩ | ⟨_, _, _, same⟩
      · rw [same]
        rfl
      · rw [same]
        rfl
  | settle _ settles =>
      rcases settle_cases settles with rfl | ⟨ended, _, ends, rfl⟩
      · rfl
      · exact Work.uncomposed_of_ended ends
  | _ => rfl

/-- When a work moves, what it waits for stays or moves, or the work is through with it: for a value
that it has, or for a failure. -/
theorem Moves.operand {inner : Work} {index : Nat} (moves : Moves machine world work change)
    (there : work.operand? index = some inner) :
    (change.work.composed = false ∧ (change.work.Doomed ∨ ∃ value, inner = .done (.ok value))) ∨
    ∃ later, change.work.operand? index = some later ∧ (later = inner ∨
      ∃ part, Moves machine world inner part ∧ later = part.work ∧ part.met = change.met) := by
  cases moves with
  | @goOn value next =>
      cases index with
      | zero =>
          cases there
          exact .inl ⟨machine.goOn_uncomposed _ value next, .inr ⟨value, rfl⟩⟩
      | succ index => cases there
  | fail => exact .inl ⟨rfl, .inl .fails⟩
  | breaks => exact .inl ⟨rfl, .inl .breaks⟩
  | @source source next part moves =>
      cases index with
      | zero =>
          cases there
          exact .inr ⟨part.work, rfl, .inr ⟨part, moves, rfl, rfl⟩⟩
      | succ index => cases there
  | spoil spoiled =>
      obtain ⟨_, _, fails⟩ := spoiled_mem spoiled
      exact .inl ⟨Work.uncomposed_of_ended (Work.ended?_of_failed? fails),
        .inl (Work.doomed_of_failed? fails)⟩
  | collect collected =>
      exact .inl ⟨rfl, .inr (Work.done_of_collected collected (List.mem_of_getElem? there))⟩
  | @member shape before member after part moves =>
      refine .inr ?_
      rcases getElem?_replaced there with ⟨rfl, rfl⟩ | same
      · exact ⟨part.work, getElem?_middle before _ after, .inr ⟨part, moves, rfl, rfl⟩⟩
      · exact ⟨inner, same part.work, .inl rfl⟩
  | _ => cases index <;> cases there

namespace Work

theorem doomed_of_operand {inner : Work} {index : Nat} (there : work.operand? index = some inner)
    (doomed : inner.Doomed) : work.Doomed := by
  cases work with
  | after source next =>
      cases index with
      | zero =>
          cases there
          exact .source doomed
      | succ index => cases there
  | gather shape members => exact .member (List.mem_of_getElem? there) doomed
  | _ => cases there

theorem composed_of_operand {inner : Work} {index : Nat}
    (there : work.operand? index = some inner) : work.composed = true := by
  cases work with
  | after source next => rfl
  | gather shape members => rfl
  | _ => cases there

/-- Where the work of a step stands, none has gone on. -/
theorem Spent.seat {inner : Work} (spent : work.Spent path)
    (there : work.seat? path = some inner) : inner.composed = false := by
  induction path generalizing work with
  | nil =>
      cases there
      exact spent
  | cons index path ih =>
      obtain ⟨outer, within, there⟩ := Option.bind_eq_some_iff.mp there
      rcases spent with plain | ⟨other, same, spent⟩
      · rw [composed_of_operand within] at plain
        cases plain
      · obtain rfl := Option.some.inj (same.symm.trans within)
        exact ih spent there

theorem spent_of_seat {inner : Work} (there : work.seat? path = some inner)
    (plain : inner.composed = false) : work.Spent path := by
  induction path generalizing work with
  | nil =>
      cases there
      exact plain
  | cons index path ih =>
      obtain ⟨outer, within, there⟩ := Option.bind_eq_some_iff.mp there
      exact .inr ⟨outer, within, ih there⟩

theorem Spent.meet (spent : work.Spent path) : work.meet.Spent path := by
  cases work with
  | broken defect =>
      cases path with
      | nil => rfl
      | cons index path => exact .inl rfl
  | _ => exact spent

theorem composed_of_seat {inner : Work} (there : work.seat? path = some inner)
    (composed : inner.composed = true) : work.composed = true := by
  cases path with
  | nil =>
      cases there
      exact composed
  | cons index path =>
      obtain ⟨_, within, _⟩ := Option.bind_eq_some_iff.mp there
      exact composed_of_operand within

end Work

/-- What has gone on does not come back. -/
theorem Moves.spent (moves : Moves machine world work change) (spent : work.Spent path) :
    change.work.Spent path := by
  induction path generalizing work change with
  | nil => exact moves.uncomposed spent
  | cons index path ih =>
      rcases spent with plain | ⟨inner, within, spent⟩
      · exact .inl (moves.uncomposed plain)
      · rcases moves.operand within with ⟨plain, _⟩ | ⟨_, later, rfl | ⟨part, moves, rfl, _⟩⟩
        · exact .inl plain
        · exact .inr ⟨_, later, spent⟩
        · exact .inr ⟨_, later, ih moves spent⟩

/-- The work of a step stays at its seat until it goes on with a value, unless a failure overtakes
it. -/
theorem Moves.seat {source : Work} {next : Continuation} (moves : Moves machine world work change)
    (there : work.seat? path = some (.after source next)) :
    (∃ later, change.work.seat? path = some (.after later next)) ∨
    (∃ value, source = .done (.ok value) ∧ change.met = none ∧
      change.work.seat? path = some (machine.goOn world.clock value next).work) ∨
    change.work.Doomed := by
  induction path generalizing work change with
  | nil =>
      cases there
      cases moves with
      | goOn => exact .inr (.inl ⟨_, rfl, machine.goOn_met _ _ next, rfl⟩)
      | fail => exact .inr (.inr .fails)
      | breaks => exact .inr (.inr .breaks)
      | source _ => exact .inl ⟨_, rfl⟩
  | cons index path ih =>
      obtain ⟨inner, within, there⟩ := Option.bind_eq_some_iff.mp there
      rcases moves.operand within with
        ⟨_, doomed | ⟨value, rfl⟩⟩ | ⟨_, later, rfl | ⟨part, moves, rfl, met⟩⟩
      · exact .inr (.inr doomed)
      · cases Work.composed_of_seat there rfl
      · exact .inl ⟨source, Option.bind_eq_some_iff.mpr ⟨_, later, there⟩⟩
      · rcases ih moves there with ⟨still, there⟩ | ⟨value, has, none, there⟩ | doomed
        · exact .inl ⟨still, Option.bind_eq_some_iff.mpr ⟨_, later, there⟩⟩
        · exact .inr (.inl ⟨value, has, met.symm.trans none,
            Option.bind_eq_some_iff.mpr ⟨_, later, there⟩⟩)
        · exact .inr (.inr (Work.doomed_of_operand later doomed))

/-- A place among the works that an entry is set up to: the task, if it is in one of those that are
started, in their order; and from there the numbers that lead to it. -/
structure Seat where
  task : Option Nat
  path : List Nat

namespace Seat

/-- The place when its work is the operand of that number of another. -/
def under (seat : Seat) (index : Nat) : Seat :=
  ⟨seat.task, if seat.task.isNone then index :: seat.path else seat.path⟩

/-- The place when its work is started as the task of that number. -/
def startedAs (seat : Seat) (number : Nat) : Seat := ⟨some (seat.task.getD number), seat.path⟩

/-- The place when so many tasks are started before. -/
def behind (seat : Seat) (count : Nat) : Seat := ⟨seat.task.map (count + ·), seat.path⟩

theorem behind_zero (seat : Seat) : seat.behind 0 = seat := by
  obtain ⟨task, path⟩ := seat
  cases task with
  | none => rfl
  | some number => exact congrArg (fun task => Seat.mk (some task) path) (Nat.zero_add number)

/-- At the place there is the inner work, when the step is set up to the work and starts tasks. -/
def Holds (seat : Seat) (work : Work) (started : List Work) (inner : Work) : Prop :=
  seat.task.elim (work.seat? seat.path = some inner) fun number =>
    ∃ other, started[number]? = some (.fresh other) ∧ other.seat? seat.path = some inner

variable {seat : Seat} {work inner outer : Work} {started : List Work}

theorem Holds.append (holds : seat.Holds work started inner) (more : List Work) :
    seat.Holds work (started ++ more) inner := by
  obtain ⟨task, path⟩ := seat
  cases task with
  | none => exact holds
  | some number =>
      obtain ⟨other, there, inside⟩ := holds
      have below := (List.getElem?_eq_some_iff.mp there).1
      exact ⟨other, (List.getElem?_append_left below).trans there, inside⟩

theorem Holds.under {index : Nat} (holds : seat.Holds work started inner)
    (operand : outer.operand? index = some work) :
    (seat.under index).Holds outer started inner := by
  obtain ⟨task, path⟩ := seat
  cases task with
  | none => exact Option.bind_eq_some_iff.mpr ⟨work, operand, holds⟩
  | some number => exact holds

theorem Holds.startedAs (holds : seat.Holds work started inner) (outer : Work) :
    (seat.startedAs started.length).Holds outer (started ++ [.fresh work]) inner := by
  have more := holds.append [.fresh work]
  obtain ⟨task, path⟩ := seat
  cases task with
  | none => exact ⟨work, getElem?_middle started _ [], holds⟩
  | some number => exact more

theorem Holds.behind (holds : seat.Holds work started inner) (first : List Work) :
    (seat.behind first.length).Holds work (first ++ started) inner := by
  obtain ⟨task, path⟩ := seat
  cases task with
  | none => exact holds
  | some number =>
      obtain ⟨other, there, inside⟩ := holds
      refine ⟨other, ?_, inside⟩
      rw [List.getElem?_append_right (Nat.le_add_right _ _), Nat.add_sub_cancel_left]
      exact there

end Seat

namespace Step.Context

/-- Where the work of the step at the place comes to stand. Is the whole the argument of an
operator? Then a pair of operands is started as tasks. -/
def seatIn (registry : Registry) (step : Step) : Context → Bool → Seat
  | .here, _ => ⟨none, []⟩
  | .bind _ inner, _ =>
    (inner.seatIn registry step false).startedAs ((inner.fill step).starts registry)
  | .call _ inner, _ => (inner.seatIn registry step false).under 0
  | .invoke primitive inner, _ =>
    (inner.seatIn registry step (registry.operates primitive)).under 0
  | .tuple before inner after, operated =>
    let seat := inner.seatIn registry step false
    if operated && before.length + after.length == 1 then
      (seat.startedAs ((inner.fill step).starts registry)).behind
        (stepsStarts registry before + before.length)
    else (seat.under before.length).behind (stepsStarts registry before)
  | .tablet before _ inner _, _ =>
    ((inner.seatIn registry step false).under before.length).behind (fieldsStarts registry before)

/-- Where the work of the step at the place comes to stand when the whole step is set up. -/
def seat (registry : Registry) (step : Step) (context : Context) : Seat :=
  context.seatIn registry step false

variable {registry : Registry} {step : Step}

section
variable {name : Identifier} (operates : registry.operates name = true) {before after : List Step}
  {inner : Context} {left right : Step} (same : before ++ inner.fill step :: after = [left, right])
include operates same

theorem seat_operand : (invoke name (.tuple before inner after)).seat registry step =
    ((inner.seat registry step).startedAs ((inner.fill step).starts registry)).behind
      (stepsStarts registry before + before.length) := by
  have one : (before.length + after.length == 1) = true := by
    rcases pair_cases same with ⟨rfl, _, rfl⟩ | ⟨rfl, _, rfl⟩ <;> rfl
  rw [seat, seatIn, seatIn, operates, one]
  rfl

theorem starts_operand : (invoke name (.tuple before inner after)).starts registry =
    stepsStarts registry before + inner.starts registry + before.length := by
  rcases pair_cases same with ⟨rfl, _, rfl⟩ | ⟨rfl, _, rfl⟩
  · rw [starts_first, stepsStarts, Nat.zero_add]
    rfl
  · rw [starts_second operates, stepsStarts, stepsStarts, Nat.add_zero, List.length_singleton,
      Nat.add_assoc, Nat.add_comm 1]

end

/-- Only a pair of operands is set up in another way as an argument. -/
theorem seatIn_eq {context : Context} {operated : Bool}
    (whole : operated = true → ∀ left right, context.fill step ≠ .tuple [left, right]) :
    context.seatIn registry step operated = context.seat registry step := by
  cases context with
  | tuple before inner after =>
      cases operated with
      | false => rfl
      | true =>
          have more : (before.length + after.length == 1) = false := by
            refine beq_false_of_ne fun one => ?_
            rcases Nat.add_eq_one_iff.mp one with ⟨none, some⟩ | ⟨some, none⟩
            · obtain rfl := List.length_eq_zero_iff.mp none
              obtain ⟨right, rfl⟩ := List.length_eq_one_iff.mp some
              exact whole rfl _ right rfl
            · obtain ⟨left, rfl⟩ := List.length_eq_one_iff.mp some
              obtain rfl := List.length_eq_zero_iff.mp none
              exact whole rfl left _ rfl
          rw [seat, seatIn, seatIn, more, Bool.and_false, Bool.and_false]
  | _ => rfl

end Step.Context

/-- The bindings, whether a step has asked for them or not. -/
def Frame.wires (frame : Frame) : List Binding := frame.bindings.map Binding.observe

/-- All bindings of the first frame are in the later one, before its others. -/
def Frame.Grows (frame later : Frame) : Prop := frame.wires <+: later.wires

namespace Frame

theorem Grows.refl (frame : Frame) : frame.Grows frame := List.prefix_rfl

theorem Grows.trans {frame middle later : Frame} (first : frame.Grows middle)
    (rest : middle.Grows later) : frame.Grows later := List.IsPrefix.trans first rest

theorem grows_add (frame : Frame) (binding : Binding) : frame.Grows (frame.add binding) := by
  rw [Grows, wires, wires, add, List.map_append]
  exact List.prefix_append _ _

theorem wires_observeIn? {name : Name} {bindings observed : List Binding}
    (found : observeIn? name bindings = some observed) :
    observed.map Binding.observe = bindings.map Binding.observe := by
  induction bindings generalizing observed with
  | nil => cases found
  | cons binding bindings ih =>
      rw [observeIn?] at found
      split at found
      · rename_i later inside
        cases found
        rw [List.map_cons, List.map_cons, ih inside]
      · split at found
        · cases found
          rw [List.map_cons, List.map_cons, Binding.observe_observe]
        · cases found

theorem wires_observe (frame : Frame) (name : Name) : (frame.observe name).wires = frame.wires := by
  rw [wires, observe]
  cases found : observeIn? name frame.bindings with
  | none => rfl
  | some observed => exact wires_observeIn? found

theorem grows_observe (frame : Frame) (name : Name) : frame.Grows (frame.observe name) := by
  rw [Grows, wires_observe]

end Frame

theorem SetsUp.grows {registry : Registry} {frame after : Frame} {next : TaskId}
    {steps : List Step} {works started : List Work}
    (sets : SetsUp registry frame next steps works started after) : frame.Grows after := by
  induction sets with
  | nil => exact .refl _
  | cons _ _ first rest => exact first.trans rest
  | constant _ => exact .refl _
  | tablet _ ih => exact ih
  | bind _ ih => exact ih.trans (Frame.grows_add _ _)
  | call _ ih => exact ih
  | invoke _ _ ih => exact ih
  | operands _ _ _ _ first second => exact first.trans second
  | tuple _ ih => exact ih
  | parameter _ => exact .refl _
  | read _ => exact Frame.grows_observe _ _

namespace SetUp

/-- From one state to the other these tasks are started, and bindings are only added. -/
structure Adds (before after : State) (started : List Work) : Prop where
  tasks : after.started = before.started ++ started
  next : after.next = before.next + started.length
  frame : before.frame.Grows after.frame

variable {registry : Registry} {setting : Setting} {before middle after : State}
  {started more : List Work}

theorem Makes.adds {steps : List Step} {works : List Work}
    (makes : Makes registry before steps works after) : ∃ started, Adds before after started := by
  obtain ⟨started, sets, next, whole, _⟩ := makes
  exact ⟨started, whole, next, sets.grows⟩

theorem Adds.refl (state : State) : Adds state state [] where
  tasks := (List.append_nil _).symm
  next := rfl
  frame := .refl _

theorem Adds.trans (first : Adds before middle started) (rest : Adds middle after more) :
    Adds before after (started ++ more) where
  tasks := by rw [rest.tasks, first.tasks, List.append_assoc]
  next := by rw [rest.next, first.next, List.length_append, Nat.add_assoc]
  frame := first.frame.trans rest.frame

theorem Adds.unique (first : Adds before after started) (again : Adds before after more) :
    started = more :=
  List.append_cancel_left (first.tasks.symm.trans again.tasks)

theorem Adds.reported {event : Event} {result : Unit} (adds : Adds before after started)
    (gives : (report event).Gives before result middle) : Adds middle after started := by
  cases gives
  exact ⟨adds.tasks, adds.next, adds.frame⟩

theorem adds_setUp {step : Step} {work : Work}
    (gives : (setUp registry setting step).Gives before work after) :
    ∃ started, Adds before after started ∧ started.length = step.starts registry := by
  obtain ⟨started, adds⟩ := (setUp_makes setting step gives).adds
  have counts := setUp_starts setting step gives
  exact ⟨started, adds, Nat.add_left_cancel (adds.next.symm.trans counts)⟩

theorem adds_setUpAll {steps : List Step} {works : List Work}
    (gives : (setUpAll registry setting steps).Gives before works after) :
    ∃ started, Adds before after started ∧ started.length = stepsStarts registry steps := by
  obtain ⟨started, adds⟩ := (setUpAll_makes setting steps gives).adds
  have counts := setUpAll_starts setting steps gives
  exact ⟨started, adds, Nat.add_left_cancel (adds.next.symm.trans counts)⟩

theorem adds_start {work : Work} {task : TaskId} (gives : (start work).Gives before task after) :
    Adds before after [.fresh work] := by
  cases gives
  exact ⟨rfl, rfl, .refl _⟩

theorem adds_bind {names : List Name} {observed : Bool} {work : Work} {task : TaskId}
    (gives : (SetUp.bind names observed work).Gives before task after) :
    Adds before after [.fresh work] := by
  cases gives
  exact ⟨rfl, rfl, Frame.grows_add _ _⟩

/-- A name that is read is a parameter with its value, or the value of a task is waited for. -/
theorem read_cases {name : Name} {work : Work} (gives : (read name).Gives before work after) :
    (∃ other value place,
      before.frame.find? name = some ⟨.parameter other value, place⟩ ∧
        work = .done (.ok value) ∧ after = before) ∨
    ∃ names task observed place,
      before.frame.find? name = some ⟨.started names task observed, place⟩ ∧
        work = .after (.wait task) (.pick names.length place) ∧
        after = { before with frame := before.frame.observe name } := by
  obtain ⟨got, middle, fetched, gives⟩ := gives_bind_iff.mp gives
  cases fetched
  split at gives
  · cases gives
  · rename_i other value place found
    cases gives
    exact .inl ⟨other, value, place, found, rfl, rfl⟩
  · rename_i names task observed place found
    cases gives
    exact .inr ⟨names, task, observed, place, found, rfl, rfl⟩

theorem adds_read {name : Name} {work : Work} (gives : (read name).Gives before work after) :
    Adds before after [] := by
  rcases read_cases gives with ⟨_, _, _, _, _, rfl⟩ | ⟨_, _, _, _, _, _, rfl⟩
  · exact .refl _
  · exact ⟨(List.append_nil _).symm, rfl, Frame.grows_observe _ _⟩

/-- Between two states on the way from `before` to `after` a step is set up to the inner work, when
so many tasks have been started; and the inner work has the seat in the whole one. -/
structure Seated (seat : Seat) (count : Nat) (began : State) (inner : Work) (ended before : State)
    (work : Work) (after : State) (started : List Work) : Prop where
  next : began.next = before.next + count
  early : before.frame.Grows began.frame
  late : ended.frame.Grows after.frame
  holds : seat.Holds work started inner

section
variable {step : Step} {context : Step.Context} {began ended : State} {seat : Seat} {count : Nat}
  {work inner outer : Work}

namespace Seated

theorem under {index : Nat}
    (seated : Seated seat count began inner ended before work after started)
    (operand : outer.operand? index = some work) :
    Seated (seat.under index) count began inner ended before outer after started :=
  ⟨seated.next, seated.early, seated.late, seated.holds.under operand⟩

theorem later (seated : Seated seat count began inner ended before work middle started)
    (adds : Adds middle after more) :
    Seated seat count began inner ended before work after (started ++ more) :=
  ⟨seated.next, seated.early, seated.late.trans adds.frame, seated.holds.append more⟩

theorem earlier (adds : Adds before middle started)
    (seated : Seated seat count began inner ended middle work after more) :
    Seated (seat.behind started.length) (started.length + count) began inner ended before work after
      (started ++ more) :=
  ⟨by rw [seated.next, adds.next, Nat.add_assoc], adds.frame.trans seated.early, seated.late,
    seated.holds.behind started⟩

theorem startedAs (seated : Seated seat count began inner ended before work middle started)
    (adds : Adds middle after [.fresh work]) (outer : Work) :
    Seated (seat.startedAs started.length) count began inner ended before outer after
      (started ++ [.fresh work]) :=
  ⟨seated.next, seated.early, seated.late.trans adds.frame, seated.holds.startedAs outer⟩

end Seated

/-- The step of a binding is set up and then started as a task. -/
theorem seated_bound {names : List Name} {observed : Bool} {task : TaskId}
    (within : (setUp registry setting step).Gives before work middle)
    (binds : (SetUp.bind names observed work).Gives middle task after)
    (adds : Adds before after started) (outer : Work)
    (seated : ∀ {started : List Work}, Adds before middle started →
      Seated seat count began inner ended before work middle started) :
    Seated (seat.startedAs (step.starts registry)) count began inner ended before outer after
      started := by
  obtain ⟨begun, adds', length⟩ := adds_setUp within
  have more := adds_bind binds
  obtain rfl := adds.unique (adds'.trans more)
  rw [← length]
  exact (seated adds').startedAs more outer

/-- Steps that are performed together are set up one after the other. -/
theorem seated_among {first rest : List Step} {works firsts : List Work}
    (gives : (setUpAll registry setting (first ++ step :: rest)).Gives before works after)
    (adds : Adds before after started)
    (begins : (setUpAll registry setting first).Gives before firsts middle)
    (seated : ∀ {work : Work} {after : State} {started : List Work},
      (setUp registry setting step).Gives middle work after → Adds middle after started →
      Seated seat count began inner ended middle work after started) (shape : Shape) :
    Seated ((seat.under first.length).behind (stepsStarts registry first))
      (stepsStarts registry first + count) began inner ended before (.gather shape works) after
      started := by
  obtain ⟨_, _, work, _, lasts, gives₁, within, gives₂, rfl, length⟩ := gives_among gives
  obtain ⟨rfl, rfl⟩ := begins.unique gives₁
  obtain ⟨started₁, adds₁, length₁⟩ := adds_setUpAll gives₁
  obtain ⟨started₂, adds₂, _⟩ := adds_setUp within
  obtain ⟨started₃, adds₃, _⟩ := adds_setUpAll gives₂
  obtain rfl := adds.unique (adds₁.trans (adds₂.trans adds₃))
  have operand : (Work.gather shape (firsts ++ work :: lasts)).operand? first.length = some work :=
    length ▸ getElem?_middle firsts work lasts
  rw [← length₁]
  exact (((seated within adds₂).later adds₃).under operand).earlier adds₁

/-- When the whole step is set up and it has been the turn of the step at the place, the work of
that has its seat in the whole one. -/
theorem Arrives.seated (arrives : Arrives registry setting step context before began)
    (sets : (setUp registry setting step).Gives began inner ended)
    (gives : (setUp registry setting (context.fill step)).Gives before work after)
    (adds : Adds before after started) :
    Seated (context.seat registry step) (context.starts registry) began inner ended before work
      after started := by
  induction arrives generalizing work after started with
  | here =>
      obtain ⟨rfl, rfl⟩ := sets.unique gives
      exact ⟨rfl, .refl _, .refl _, rfl⟩
  | bind _ ih =>
      rw [Step.Context.fill, setUp] at gives
      obtain ⟨_, _, reports, rest⟩ := gives_bind_iff.mp gives
      obtain ⟨_, _, within, last⟩ := gives_bind_iff.mp rest
      obtain ⟨task, _, binds, waits⟩ := gives_bind_iff.mp last
      have adds := adds.reported reports
      cases reports
      cases waits
      have here := seated_bound within binds adds (.wait task) fun adds => ih sets within adds
      exact ⟨here.next, here.early, here.late, here.holds⟩
  | call _ ih =>
      rw [Step.Context.fill, setUp] at gives
      obtain ⟨work, _, within, gives⟩ := gives_bind_iff.mp gives
      cases gives
      exact (ih sets within adds).under rfl
  | @invoke name primitive context _ _ found whole _ ih =>
      have operates := Registry.operates_eq found
      rw [Step.Context.fill, setUp_invoke found whole] at gives
      obtain ⟨work, _, within, gives⟩ := gives_bind_iff.mp gives
      cases gives
      have operand : (Work.after work (.invoke primitive)).operand? 0 = some work := rfl
      have here := (ih sets within adds).under operand
      have plain : context.seatIn registry step (registry.operates name) =
          context.seat registry step := by
        refine Step.Context.seatIn_eq fun operated left right => ?_
        rw [operates, Option.isSome_iff_exists] at operated
        obtain ⟨operator, performs⟩ := operated
        exact whole operator left right performs
      have none : ¬(context.isSecond && registry.operates name) = true := by
        rw [Bool.and_eq_true, operates, Option.isSome_iff_exists]
        rintro ⟨second, operator, performs⟩
        obtain ⟨left, context, rfl⟩ := Step.Context.isSecond_iff.mp second
        exact whole operator left _ performs rfl
      rw [Step.Context.seat, Step.Context.seatIn, plain, Step.Context.starts, if_neg none]
      exact here
  | @left name primitive operator context other _ _ found performs _ ih =>
      have operates : registry.operates name = true := by
        rw [Registry.operates_eq found, performs]
        rfl
      rw [Step.Context.fill, Step.Context.fill, List.nil_append, setUp_operands found performs]
        at gives
      obtain ⟨work₁, _, within, gives⟩ := gives_bind_iff.mp gives
      obtain ⟨task₁, _, starts₁, gives⟩ := gives_bind_iff.mp gives
      obtain ⟨work₂, _, gives₂, gives⟩ := gives_bind_iff.mp gives
      obtain ⟨task₂, _, starts₂, gives⟩ := gives_bind_iff.mp gives
      cases gives
      obtain ⟨started₁, adds₁, length₁⟩ := adds_setUp within
      obtain ⟨started₂, adds₂, _⟩ := adds_setUp gives₂
      have fresh₁ := adds_start starts₁
      have fresh₂ := adds_start starts₂
      obtain rfl := adds.unique ((adds₁.trans fresh₁).trans (adds₂.trans fresh₂))
      have here := ((ih sets within adds₁).startedAs fresh₁
        (.after (operator.await task₁ task₂) (.join primitive))).later (adds₂.trans fresh₂)
      have pair : [] ++ context.fill step :: [other] = [context.fill step, other] := rfl
      rw [Step.Context.seat_operand operates pair, Step.Context.starts_operand operates pair,
        stepsStarts, List.length_nil, Seat.behind_zero, Nat.zero_add, Nat.add_zero, ← length₁]
      exact here
  | @right name primitive operator context other _ task _ _ _ _ found performs first starts _ ih =>
      have operates : registry.operates name = true := by
        rw [Registry.operates_eq found, performs]
        rfl
      rw [Step.Context.fill, Step.Context.fill, List.singleton_append,
        setUp_operands found performs] at gives
      obtain ⟨work₁, _, gives₁, gives⟩ := gives_bind_iff.mp gives
      obtain ⟨rfl, rfl⟩ := first.unique gives₁
      obtain ⟨task₁, _, starts₁, gives⟩ := gives_bind_iff.mp gives
      obtain ⟨rfl, rfl⟩ := starts.unique starts₁
      obtain ⟨work₂, _, within, gives⟩ := gives_bind_iff.mp gives
      obtain ⟨task₂, _, starts₂, gives⟩ := gives_bind_iff.mp gives
      cases gives
      obtain ⟨started₁, adds₁, length₁⟩ := adds_setUp gives₁
      obtain ⟨started₂, adds₂, length₂⟩ := adds_setUp within
      have fresh₁ := adds_start starts₁
      have fresh₂ := adds_start starts₂
      obtain rfl := adds.unique ((adds₁.trans fresh₁).trans (adds₂.trans fresh₂))
      have here := ((ih sets within adds₂).startedAs fresh₂
        (.after (operator.await task task₂) (.join primitive))).earlier (adds₁.trans fresh₁)
      rw [length₂, List.length_append, length₁, List.length_singleton] at here
      have pair : [other] ++ context.fill step :: [] = [other, context.fill step] := rfl
      rw [Step.Context.seat_operand operates pair, Step.Context.starts_operand operates pair,
        stepsStarts, stepsStarts, List.length_singleton, Nat.add_zero, Nat.add_right_comm]
      exact here
  | tuple begins _ ih =>
      rw [Step.Context.fill, setUp] at gives
      obtain ⟨works, _, within, gives⟩ := gives_bind_iff.mp gives
      cases gives
      rw [Step.Context.seat, Step.Context.seatIn, Bool.false_and, if_neg Bool.false_ne_true]
      exact seated_among within adds begins (fun gives adds => ih sets gives adds) _
  | @tablet first label context _ _ _ _ _ begins _ ih =>
      rw [Step.Context.fill, setUp, setUpLiteral] at gives
      obtain ⟨works, _, within, gives⟩ := gives_bind_iff.mp gives
      cases gives
      rw [setUpFields_eq] at begins within
      rw [List.map_append, List.map_cons] at within
      have length : first.length = (first.map Prod.snd).length := (List.length_map _).symm
      rw [Step.Context.seat, Step.Context.seatIn, Step.Context.starts, fieldsStarts_eq, length]
      exact seated_among within adds begins (fun gives adds => ih sets gives adds) _

/-- Any other entry than a binding is set up as its step. -/
theorem setUpEntry_other (other : ∀ names inner, step ≠ .bind names inner) (index : Nat)
    (isLast : Bool) : setUpEntry registry index isLast ⟨setting, step⟩ = (do
      SetUp.report (.starting index setting)
      setUp registry setting step) := by
  cases step with
  | bind names inner => exact absurd rfl (other names inner)
  | _ => rfl

/-- When an entry is set up, it has been the turn of the step at the place in it, and its work has
its seat. -/
theorem seated_entry (single : ∀ steps, step ≠ .tuple steps)
    (other : ∀ names inner, step ≠ .bind names inner) (context : Step.Context) {index : Nat}
    {isLast : Bool}
    (gives : (setUpEntry registry index isLast ⟨setting, context.fill step⟩).Gives
      before work after)
    (adds : Adds before after started) :
    ∃ began inner ended, Arrives registry setting step context
        { before with events := before.events ++ [.starting index setting] } began ∧
      (setUp registry setting step).Gives began inner ended ∧
      Seated (context.seat registry step) (context.starts registry) began inner ended before work
        after started := by
  by_cases binds : ∃ names inner, context = .bind names inner
  · obtain ⟨names, context, rfl⟩ := binds
    obtain ⟨_, _, begins, rest⟩ := gives_bind_iff.mp gives
    obtain ⟨_, _, reports, rest⟩ := gives_bind_iff.mp rest
    obtain ⟨inside, _, within, rest⟩ := gives_bind_iff.mp rest
    obtain ⟨task, last, binds, ends⟩ := gives_bind_iff.mp rest
    obtain rfl : last = after := by cases isLast <;> exact (Prod.mk.inj ends).2
    have adds := (adds.reported begins).reported reports
    cases begins
    cases reports
    obtain ⟨began, inner, ended, arrives, sets⟩ := setUp_arrives setting single context within
    have here := seated_bound within binds adds work fun adds => arrives.seated sets within adds
    exact ⟨began, inner, ended, .bind arrives, sets, here.next, here.early, here.late, here.holds⟩
  · have plain : ∀ names inner, context.fill step ≠ .bind names inner := by
      cases context with
      | here => exact other
      | bind names inner => exact absurd ⟨names, inner, rfl⟩ binds
      | _ => nofun
    rw [setUpEntry_other plain] at gives
    obtain ⟨_, _, reports, gives⟩ := gives_bind_iff.mp gives
    have adds := adds.reported reports
    cases reports
    obtain ⟨began, inner, ended, arrives, sets⟩ := setUp_arrives setting single context gives
    have here := arrives.seated sets gives adds
    exact ⟨began, inner, ended, arrives, sets, here.next, here.early, here.late, here.holds⟩

end

end SetUp

end Runbook
