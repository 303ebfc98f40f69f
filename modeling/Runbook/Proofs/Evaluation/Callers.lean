import Runbook.Proofs.Evaluation.Compiled
import Runbook.Proofs.Evaluation.Sowing

/-!
Whose calls a run makes.

Each body of a run is that of an invocation, and performs its entries in their order. So whatever a
work of the run goes on to call, a step of an invocation has been set up to call it there; and
wherever an operation or a procedure is called, such a step calls it, the one time that it does so.
-/
namespace Runbook

section
variable {machine : Machine} {world : World} {work outer inner : Work} {change : Change}
  {index : Nat}

namespace Work

/-- What stands at a place is what a task waits for, or what the entry that a body performs does. -/
theorem seat_or_entry {place : List Nat} (there : work.part? place = some inner) :
    work.seat? place = some inner ∨ ∃ outer path frame current index entries,
      place = outer ++ 0 :: path ∧ work.part? outer = some (.body frame current index entries) ∧
        current.seat? path = some inner := by
  induction place generalizing work with
  | nil => exact .inl there
  | cons index place ih =>
      obtain ⟨part, inside, there⟩ := Option.bind_eq_some_iff.mp there
      rcases ih there with seated |
        ⟨outer, path, frame, current, count, entries, rfl, found, seated⟩
      · cases work with
        | gather shape members => exact .inl (Option.bind_eq_some_iff.mpr ⟨part, inside, seated⟩)
        | after source next =>
            cases index with
            | zero => exact .inl (Option.bind_eq_some_iff.mpr ⟨part, inside, seated⟩)
            | succ index => cases inside
        | body frame current count entries =>
            cases index with
            | zero =>
                cases inside
                exact .inr ⟨[], place, frame, part, count, entries, rfl, rfl, seated⟩
            | succ index => cases inside
        | _ => cases inside
      · exact .inr ⟨index :: outer, path, frame, current, count, entries, rfl,
          Option.bind_eq_some_iff.mpr ⟨part, inside, found⟩, seated⟩

/-- No defect is met inside a work where none is met. -/
theorem defects_inner (inside : work.inner? index = some inner) (none : work.defects = []) :
    inner.defects = [] := by
  cases work with
  | gather shape members =>
      have among := List.mem_of_getElem? inside
      clear inside
      rw [defects] at none
      induction members with
      | nil => cases among
      | cons first members ih =>
          rw [defectsOfAll, List.append_eq_nil_iff] at none
          rcases List.mem_cons.mp among with rfl | among
          · exact none.1
          · exact ih none.2 among
  | after source next =>
      cases index with
      | zero =>
          cases inside
          exact none
      | succ index => cases inside
  | body frame current count entries =>
      cases index with
      | zero =>
          cases inside
          exact none
      | succ index => cases inside
  | _ => cases inside

end Work

namespace Moves

/-- When what a work waits for moves at its seat, what stands there afterwards stands at the seat.
-/
theorem seat_of_part {path : List Nat} {source after : Work} {use : Continuation}
    (moves : Moves machine world work change) (there : work.seat? path = some (.after source use))
    (later : change.work.part? path = some after) : change.work.seat? path = some after := by
  induction path generalizing work change with
  | nil => exact later
  | cons index path ih =>
      obtain ⟨inner, operand, seated⟩ := Option.bind_eq_some_iff.mp there
      obtain ⟨outer, inside, stands⟩ := Option.bind_eq_some_iff.mp later
      have finished {ended : Work} (ends : change.work.ended? = some ended) :
          change.work.seat? (index :: path) = some after := by
        rw [Work.inner?_ended ends] at inside
        cases inside
      have waiting : ∀ outcome, inner ≠ .done outcome := by
        rintro outcome rfl
        cases path <;> cases seated
      cases moves with
      | @source source next part moves =>
          cases index with
          | zero =>
              cases operand
              cases inside
              exact Option.bind_eq_some_iff.mpr ⟨part.work, rfl, ih moves seated stands⟩
          | succ index => cases operand
      | @member shape earlier member others part moves =>
          rcases getElem?_replaced operand with ⟨rfl, rfl⟩ | same
          · have here := getElem?_middle earlier part.work others
            obtain rfl := Option.some.inj (here.symm.trans inside)
            exact Option.bind_eq_some_iff.mpr ⟨part.work, here, ih moves seated stands⟩
          · obtain rfl := Option.some.inj ((same part.work).symm.trans inside)
            refine Option.bind_eq_some_iff.mpr ⟨inner, same part.work, ?_⟩
            rw [Work.part?_of_seat seated] at stands
            rw [seated, stands]
      | goOn =>
          cases index with
          | zero =>
              cases operand
              exact absurd rfl (waiting _)
          | succ index => cases operand
      | fail => exact finished rfl
      | breaks => exact finished rfl
      | collect => exact finished rfl
      | spoil spoiled =>
          obtain ⟨_, _, fails⟩ := spoiled_mem spoiled
          exact finished (Work.ended?_of_failed? fails)
      | _ => cases operand

/-- The tasks that a move starts are those of an entry that some part of the work begins. -/
theorem starts (moves : Moves machine world work change) :
    change.started = [] ∨ ∃ place frame value index entry entries,
      work.part? place = some (.body frame (.done (.ok value)) index (entry :: entries)) ∧
      change.work.part? place =
        some (machine.begin world.tasks.length frame index entry entries).work ∧
      change.started = (machine.begin world.tasks.length frame index entry entries).started := by
  induction moves with
  | goOn => exact .inl (goOn_started _ _ _)
  | source _ ih =>
      refine ih.imp_right ?_
      rintro ⟨place, rest⟩
      exact ⟨0 :: place, rest⟩
  | current _ ih =>
      refine ih.imp_right ?_
      rintro ⟨place, rest⟩
      exact ⟨0 :: place, rest⟩
  | @member shape earlier member others part _ ih =>
      refine ih.imp_right ?_
      rintro ⟨place, frame, value, index, entry, entries, there, later, same⟩
      refine ⟨earlier.length :: place, frame, value, index, entry, entries, ?_, ?_, same⟩
      · exact Option.bind_eq_some_iff.mpr ⟨member, getElem?_middle earlier member others, there⟩
      · exact Option.bind_eq_some_iff.mpr ⟨_, getElem?_middle earlier part.work others, later⟩
  | @begin frame value index entry entries =>
      exact .inr ⟨[], frame, value, index, entry, entries, rfl, rfl, rfl⟩
  | settle _ settles =>
      rcases settle_cases settles with rfl | ⟨_, _, _, rfl⟩
      · exact .inl rfl
      · exact .inl rfl
  | _ => exact .inl rfl

end Moves

end

/-- In the world, a step of an invocation calls so at the place in a task that was started with its
entry. -/
inductive World.Planted (machine : Machine) (main : Routine) (argument : Value) (world : World)
    (task : TaskId) (path : List Nat) (use : Continuation) : Prop
  | seat {routine : Routine} {owner : TaskId} {place : List Nat} {start : World} {site : Site}
      {step : Step} {count number : Nat} {now begun : Standing} :
      Opens machine main argument routine owner place start →
      routine.sequence = site.sequence step → step.Uses machine.registry use →
      (⟨start, []⟩ : Standing).after? machine owner place count = some now →
      Standing.Begins machine owner place site.before.length now begun →
      begun.world.Reaches machine world →
      site.context.seat machine.registry step = ⟨some number, path⟩ →
      task = now.world.tasks.length + number → Planted machine main argument world task path use

/-- A step of the entry of that number calls so at the place in the work of the entry. -/
def Routine.CallsAt (routine : Routine) (registry : Registry) (index : Nat) (path : List Nat)
    (use : Continuation) : Prop :=
  ∃ (site : Site) (step : Step), routine.sequence = site.sequence step ∧
    site.before.length = index ∧ step.Uses registry use ∧
      site.context.seat registry step = ⟨none, path⟩

/-- The work that the invocation performs before the entry of that number calls only for the steps
of the entry that it has begun last. -/
inductive Performs (machine : Machine) (routine : Routine) (task : TaskId) (place : List Nat)
    (start : World) (now : Standing) : Nat → Work → Prop
  | first : Performs machine routine task place start now 0 (.done (.ok .unit))
  | entry {index count more : Nat} {before begun : Standing} {current : Work} :
      (⟨start, []⟩ : Standing).after? machine task place count = some before →
      Standing.Begins machine task place index before begun →
      begun.after? machine task place more = some now →
      current.CallsOnly (routine.CallsAt machine.registry index) →
      Performs machine routine task place start now (index + 1) current

/-- What the works of the world have still to call, they call for the steps of invocations. -/
structure World.Ruled (machine : Machine) (main : Routine) (argument : Value) (world : World) :
    Prop where
  bodies : ∀ (task : TaskId) (place : List Nat) (frame : Frame) (current : Work) (index : Nat)
    (entries : List Entry), world.part? task place = some (.body frame current index entries) →
      ∃ routine start count bound, Opens machine main argument routine task place start ∧
        (⟨start, []⟩ : Standing).after? machine task place count = some ⟨world, bound⟩ ∧
        routine.sequence.drop index = entries ∧
        Performs machine routine task place start ⟨world, bound⟩ index current
  tasks : ∀ (task : TaskId) (work : Work), world.tasks[task]? = some work →
    (∃ inner, work = .fresh inner ∧ inner.CallsOnly (world.Planted machine main argument task)) ∨
      work.CallsOnly (world.Planted machine main argument task)

section
variable {machine : Machine} {main routine : Routine} {argument : Value} {world next start : World}
  {task : TaskId} {place : List Nat} {now later begun : Standing} {count index : Nat}
  {work current : Work}

/-- No defect is met where there is none. -/
theorem Work.eq_of_met (met : current = work ∨ current = work.meet) (whole : current.defects = []) :
    current = work := by
  rcases met with same | same
  · exact same
  · cases work with
    | broken defect =>
        rw [same] at whole
        cases whole
    | _ => exact same

/-- A step that an entry of a sequence calls for has its site there. -/
theorem Step.Seats.site {registry : Registry} {sequence : Sequence} {entry : Entry}
    {entries : List Entry} {seat : Seat} {use : Continuation}
    (ahead : sequence.drop index = entry :: entries) (seats : entry.step.Seats registry seat use) :
    ∃ (site : Site) (step : Step), sequence = site.sequence step ∧ site.before.length = index ∧
      step.Uses registry use ∧ site.context.seat registry step = seat := by
  obtain ⟨context, step, same, uses, there⟩ := seats
  have below : index < sequence.length := by
    rw [← Nat.not_le, ← List.drop_eq_nil_iff, ahead]
    exact List.cons_ne_nil _ _
  refine ⟨⟨sequence.take index, entry.setting, context, entries⟩, step, ?_,
    List.length_take_of_le (Nat.le_of_lt below), uses, there⟩
  rw [Site.sequence, same]
  change sequence = sequence.take index ++ entry :: entries
  rw [← ahead, List.take_append_drop]

/-- An entry that an invocation begins is set up to works that call only for its steps. -/
theorem Standing.Begins.sows {frame : Frame} {entry : Entry} {entries : List Entry}
    {state : SetUp.State} (begins : Begins machine task place index now begun)
    (opens : Opens machine main argument routine task place start)
    (found : (⟨start, []⟩ : Standing).after? machine task place count = some now)
    (ahead : routine.sequence.drop index = entry :: entries)
    (gives : (setUpEntry machine.registry index entries.isEmpty entry).Gives
      ⟨frame, now.world.tasks.length, [], []⟩ work state) :
    work.CallsOnly (routine.CallsAt machine.registry index) ∧
      ∀ (number : Nat) (other : Work), state.started[number]? = some other →
        ∃ inner, other = .fresh inner ∧ inner.CallsOnly
          (begun.world.Planted machine main argument (now.world.tasks.length + number)) := by
  obtain ⟨started, adds⟩ := SetUp.adds_setUpEntry gives
  obtain rfl : state.started = started := adds.tasks
  have sows := SetUp.setUpEntry_sows gives adds
  refine ⟨sows.own.mono fun path use seats => seats.site ahead, fun number other there => ?_⟩
  obtain ⟨inner, rfl, only⟩ := sows.tasks number other there
  refine ⟨inner, rfl, only.mono fun path use seats => ?_⟩
  obtain ⟨site, step, inside, rfl, uses, seat⟩ := seats.site ahead
  exact ⟨opens, inside, uses, found, begins, .refl, seat, rfl⟩

namespace Performs

theorem goesOn (performs : Performs machine routine task place start now index work)
    (goes : GoesOn machine task place now later) :
    Performs machine routine task place start later index work := by
  cases performs with
  | first => exact .first
  | entry found begins rest only => exact .entry found begins (Standing.after?_snoc rest goes) only

theorem moves {change : Change}
    (performs : Performs machine routine task place start now index work)
    (moves : Moves machine world work change) :
    Performs machine routine task place start now index change.work := by
  cases performs with
  | first => cases moves
  | entry found begins rest only => exact .entry found begins rest (moves.callsOnly only)

end Performs

namespace World

theorem Planted.step {path : List Nat} {use : Continuation}
    (planted : world.Planted machine main argument task path use)
    (stepped : world.step? machine = some next) :
    next.Planted machine main argument task path use := by
  obtain ⟨opens, inside, uses, found, begins, reaches, seat, same⟩ := planted
  exact ⟨opens, inside, uses, found, begins, reaches.tail stepped, seat, same⟩

theorem ruled_start : (World.start main argument).Ruled machine main argument := by
  constructor
  · intro task place frame current index entries there
    obtain ⟨work, stands, there⟩ := Option.bind_eq_some_iff.mp there
    cases task with
    | succ task => cases stands
    | zero =>
        cases stands
        cases place with
        | cons index place => cases Moves.enter_part there
        | nil =>
            have entered := Option.some.inj there
            rcases Moves.enter_cases main argument with ⟨first, same⟩ | ⟨outcome, same⟩
            · cases same.symm.trans entered
              exact ⟨main, _, 0, [], .run rfl rfl rfl, rfl, rfl, .first⟩
            · cases same.symm.trans entered
  · intro task work stands
    cases task with
    | succ task => cases stands
    | zero =>
        cases stands
        exact .inr (.of_uncomposed (Machine.enter_uncomposed main argument))

/-- A body that stands in a world after a step goes on with its entries, or a call has entered it.
-/
theorem Ruled.bodies_step (ruled : world.Ruled machine main argument)
    (reaches : (World.start main argument).Reaches machine world)
    (stepped : world.step? machine = some next) {frame : Frame} {entries : List Entry}
    (there : next.part? task place = some (.body frame current index entries)) :
    ∃ routine start count bound, Opens machine main argument routine task place start ∧
      (⟨start, []⟩ : Standing).after? machine task place count = some ⟨next, bound⟩ ∧
      routine.sequence.drop index = entries ∧
      Performs machine routine task place start ⟨next, bound⟩ index current := by
  rcases reaches.body_origin stepped there with
    ⟨earlier, inner, before, ahead, stood, _⟩ | ⟨value, callee, routine, waits, found, entered⟩
  · obtain ⟨routine, start, count, bound, opens, found, drops, performs⟩ :=
      ruled.bodies _ _ _ _ _ _ stood
    have goesOn : GoesOn machine task place ⟨world, bound⟩ ⟨next, bound ++
        (Work.body earlier inner before ahead).binds (.body frame current index entries)⟩ :=
      ⟨stepped, _, _, stood, rfl, there, rfl⟩
    suffices goes : routine.sequence.drop index = entries ∧
        Performs machine routine task place start ⟨next, _⟩ index current from
      ⟨routine, start, _, _, opens, Standing.after?_snoc found goesOn, goes⟩
    rcases (step?_goes stepped).part stood rfl there with same | ⟨change, moves, same⟩
    · cases same
      exact ⟨drops, performs.goesOn goesOn⟩
    · replace same := Work.eq_of_going same rfl
      cases moves with
      | last => cases same
      | bodyFails => cases same
      | bodyBreaks => cases same
      | current moves =>
          cases same
          exact ⟨drops, (performs.moves moves).goesOn goesOn⟩
      | @begin _ value _ entry ahead =>
          rcases machine.begin_cases world.tasks.length earlier before entry ahead with
            ⟨work, state, gives, begun⟩ | ⟨_, _, _, breaks⟩
          · rw [begun] at same
            cases same
            have begins : Standing.Begins machine task place before ⟨world, bound⟩ ⟨next, _⟩ :=
              ⟨goesOn, ⟨earlier, value, _, stood⟩, current, performing there⟩
            refine ⟨?_, .entry found begins (Standing.after?_zero _)
              (begins.sows opens found drops gives).1⟩
            rw [← List.tail_drop, drops, List.tail_cons]
          · rw [breaks] at same
            cases same
  · rcases Moves.enter_cases routine value with ⟨first, same⟩ | ⟨outcome, same⟩
    · cases same.symm.trans entered
      exact ⟨routine, next, 0, [],
        .call reaches stepped waits found (there.trans (congrArg some same.symm)), rfl, rfl, .first⟩
    · cases same.symm.trans entered

/-- The tasks that a move starts call only for steps of the entry that it begins. -/
theorem Ruled.started (ruled : world.Ruled machine main argument)
    (stepped : world.step? machine = some next) {change : Change}
    (there : world.tasks[task]? = some work) (moves : Moves machine world work change)
    (same : next.tasks[task]? = some change.work) (whole : change.work.defects = [])
    {number : Nat} (starts : change.started[number]? = some current) :
    ∃ inner, current = .fresh inner ∧
      inner.CallsOnly (next.Planted machine main argument (world.tasks.length + number)) := by
  rcases moves.starts with none | ⟨place, frame, value, index, entry, entries, before, after, begun⟩
  · rw [none] at starts
    cases starts
  · have stood : world.part? task place = some (.body frame (.done (.ok value)) index
        (entry :: entries)) := by
      rw [World.part?, there]
      exact before
    have stands : next.part? task place =
        some (machine.begin world.tasks.length frame index entry entries).work := by
      rw [World.part?, same]
      exact after
    obtain ⟨routine, start, count, bound, opens, found, drops, _⟩ := ruled.bodies _ _ _ _ _ _ stood
    rcases machine.begin_cases world.tasks.length frame index entry entries with
      ⟨work, state, gives, begins⟩ | ⟨defect, _, _, broken⟩
    · rw [begins] at stands begun
      have begins : Standing.Begins machine task place index ⟨world, bound⟩ ⟨next, _⟩ :=
        ⟨⟨stepped, _, _, stood, rfl, stands, rfl⟩, ⟨frame, value, _, stood⟩, work,
          performing stands⟩
      rw [begun] at starts
      exact (begins.sows opens found drops gives).2 number current starts
    · rw [broken] at after
      cases Work.inside Work.defects_inner after whole

/-- What the tasks have still to call, they call for steps of invocations. -/
theorem Ruled.tasks_step (ruled : world.Ruled machine main argument)
    (stepped : world.step? machine = some next) (whole : ∀ work ∈ next.tasks, work.defects = [])
    (there : next.tasks[task]? = some work) :
    (∃ inner, work = .fresh inner ∧ inner.CallsOnly (next.Planted machine main argument task)) ∨
      work.CallsOnly (next.Planted machine main argument task) := by
  have still {task : TaskId} {work : Work} (there : world.tasks[task]? = some work) :
      (∃ inner, work = .fresh inner ∧ inner.CallsOnly (next.Planted machine main argument task)) ∨
        work.CallsOnly (next.Planted machine main argument task) := by
    have later : ∀ path use, world.Planted machine main argument task path use →
        next.Planted machine main argument task path use := fun _ _ planted => planted.step stepped
    rcases ruled.tasks task work there with ⟨inner, rfl, only⟩ | only
    · exact .inl ⟨inner, rfl, only.mono later⟩
    · exact .inr (only.mono later)
  cases step?_goes stepped with
  | tick _ _ same => exact still (same ▸ there)
  | @move moved before change first moves _ same =>
      have sound := whole work (List.mem_of_getElem? there)
      have now := there
      rw [same] at there
      obtain ⟨origin, met, source⟩ := getElem?_tasksAfter there
      obtain rfl := Work.eq_of_met met sound
      rcases source with ⟨rfl, rfl⟩ | ⟨_, stays⟩ | ⟨number, rfl, starts⟩
      · rcases still first with ⟨inner, rfl, only⟩ | only
        · cases moves with
          | fresh => exact .inr only
        · exact .inr (moves.callsOnly only)
      · exact still stays
      · obtain ⟨later, stands, met⟩ := getElem?_after_moved same first
        have sound := whole later (List.mem_of_getElem? stands)
        obtain rfl := Work.eq_of_met met sound
        exact .inl (ruled.started stepped first moves stands sound starts)

/-- In a run without defects, what the works have still to call, they call for steps of
invocations. -/
theorem Reaches.ruled (reaches : (World.start main argument).Reaches machine world)
    (whole : ∀ world, (World.start main argument).Reaches machine world →
      ∀ work ∈ world.tasks, work.defects = []) : world.Ruled machine main argument := by
  induction reaches with
  | refl => exact ruled_start
  | tail reaches stepped ih =>
      exact ⟨fun _ _ _ _ _ _ there => ih.bodies_step reaches stepped there,
        fun _ _ there => ih.tasks_step stepped (whole _ (reaches.tail stepped)) there⟩

/-- What goes on with a value has moved at its seat. -/
theorem Goes.seat {value : Value} {use : Continuation} {outer : List Nat} {path : List Nat}
    (goes : world.Goes machine next) (there : world.part? task outer = some work)
    (seat : work.seat? path = some (.after (.done (.ok value)) use))
    (later : next.part? task (outer ++ path) = some (machine.goOn world.clock value use).work) :
    ∃ after, next.part? task outer = some after ∧
      after.seat? path = some (machine.goOn world.clock value use).work := by
  obtain ⟨whole, stands, inside⟩ := Option.bind_eq_some_iff.mp later
  rw [Work.part?_append] at inside
  obtain ⟨after, here, inside⟩ := Option.bind_eq_some_iff.mp inside
  have now : next.part? task outer = some after := Option.bind_eq_some_iff.mpr ⟨whole, stands, here⟩
  have going : work.ended? = none := by
    by_contra ended
    obtain ⟨ended, ends⟩ := Option.ne_none_iff_exists'.mp ended
    cases (Work.uncomposed_of_ended ends).symm.trans (Work.composed_of_seat seat rfl)
  refine ⟨after, now, ?_⟩
  rcases goes.part there going now with rfl | ⟨change, moves, met⟩
  · have gone := machine.goOn_uncomposed world.clock value use
    rw [Work.part?_of_seat seat] at inside
    rw [← Option.some.inj inside] at gone
    cases gone
  · cases path with
    | nil => exact inside
    | cons index path =>
        have going : after.ended? = none := by
          by_contra ended
          obtain ⟨ended, ends⟩ := Option.ne_none_iff_exists'.mp ended
          rw [Work.part?, Work.inner?_ended ends] at inside
          cases inside
        obtain rfl := Work.eq_of_going met going
        exact moves.seat_of_part seat inside

/-- What goes on with a value in the work of an entry has moved at its seat there. -/
theorem Goes.performing {value : Value} {use : Continuation} {outer : List Nat} {path : List Nat}
    {frame : Frame} {entries : List Entry} (goes : world.Goes machine next)
    (there : world.part? task outer = some (.body frame current (index + 1) entries))
    (seat : current.seat? path = some (.after (.done (.ok value)) use))
    (later : next.part? task (outer ++ 0 :: path) =
      some (machine.goOn world.clock value use).work) :
    ∃ after, next.part? task outer = some (.body frame after (index + 1) entries) ∧
      after.seat? path = some (machine.goOn world.clock value use).work := by
  have inside : world.part? task (outer ++ [0]) = some current := by
    obtain ⟨whole, stands, body⟩ := Option.bind_eq_some_iff.mp there
    rw [part?, stands, Option.bind_some, Work.part?_append, body]
    rfl
  rw [List.append_cons] at later
  obtain ⟨after, now, gone⟩ := goes.seat inside seat later
  refine ⟨after, ?_, gone⟩
  obtain ⟨whole, stands, now⟩ := Option.bind_eq_some_iff.mp now
  rw [Work.part?_append] at now
  obtain ⟨body, here, now⟩ := Option.bind_eq_some_iff.mp now
  have here : next.part? task outer = some body := Option.bind_eq_some_iff.mpr ⟨whole, stands, here⟩
  have going : body.ended? = none := by
    by_contra ended
    obtain ⟨ended, ends⟩ := Option.ne_none_iff_exists'.mp ended
    rw [Work.part?, Work.inner?_ended ends] at now
    cases now
  have waiting : ∀ outcome, current ≠ .done outcome := by
    rintro outcome rfl
    cases path <;> cases seat
  rcases goes.part there rfl here with rfl | ⟨change, moves, met⟩
  · cases now
    exact here
  · obtain rfl := Work.eq_of_going met going
    cases moves with
    | current moves =>
        cases now
        exact here
    | begin => exact absurd rfl (waiting _)
    | last => exact absurd rfl (waiting _)
    | bodyFails => exact absurd rfl (waiting _)
    | bodyBreaks => cases path <;> cases seat

/-- Each call in a run without defects is that of a step of an invocation. -/
theorem CallsAt.caller {use : Continuation} (calls : world.CallsAt machine task place use)
    (reaches : (World.start main argument).Reaches machine world)
    (whole : ∀ world, (World.start main argument).Reaches machine world →
      ∀ work ∈ world.tasks, work.defects = []) :
    ∃ (routine : Routine) (owner : TaskId) (own : List Nat) (start : World) (site : Site)
      (step : Step) (count : Nat), Opens machine main argument routine owner own start ∧
        routine.sequence = site.sequence step ∧ step.Uses machine.registry use ∧
        World.Steps machine count start world ∧
        site.Calls machine owner own start step count task place := by
  obtain ⟨calls, next, value, stepped, there, later⟩ := calls
  have ruled := reaches.ruled whole
  have goes := step?_goes stepped
  obtain ⟨work, stands, inside⟩ := Option.bind_eq_some_iff.mp there
  rcases Work.seat_or_entry inside with
    seat | ⟨outer, path, frame, current, count, entries, rfl, found, seat⟩
  · have whole : world.part? task [] = some work := by
      rw [part?, stands]
      rfl
    obtain ⟨after, now, gone⟩ := goes.seat whole seat later
    rcases ruled.tasks task work stands with ⟨inner, rfl, _⟩ | only
    · cases place <;> cases seat
    · obtain ⟨opens, same, uses, found, begins, rest, position, rfl⟩ := only _ _ seat calls
      obtain ⟨count, steps⟩ := rest.steps
      obtain ⟨later, same', there⟩ := Option.bind_eq_some_iff.mp now
      cases there
      have carries := CarriesOut.started found begins steps stands
      exact ⟨_, _, _, _, _, _, _, opens, same, uses, carries.steps, world, next, use, value, uses,
        .of_seat position carries seat,
        .of_seat position (.started found begins (steps.append (.head stepped .refl)) same') gone⟩
  · have stood : world.part? task outer = some (.body frame current count entries) :=
      Option.bind_eq_some_iff.mpr ⟨work, stands, found⟩
    obtain ⟨routine, start, before, bound, opens, reached, _, performs⟩ :=
      ruled.bodies _ _ _ _ _ _ stood
    rw [List.append_cons]
    cases performs with
    | first => cases path <;> cases seat
    | @entry index earlier more _ begun _ first begins rest only =>
        obtain ⟨site, step, inside, rfl, uses, position⟩ := only _ _ seat calls
        obtain ⟨after, entry, gone⟩ := goes.performing stood seat later
        have goesOn : GoesOn machine task outer ⟨world, bound⟩ ⟨next, _⟩ :=
          ⟨stepped, _, _, stood, rfl, entry, rfl⟩
        have carries : CarriesOut machine task outer start site.before.length none
            (earlier + 1 + more) world task (outer ++ [0]) current :=
          .own first begins rest (performing stood)
        have moved : CarriesOut machine task outer start site.before.length none
            (earlier + 1 + (more + 1)) next task (outer ++ [0]) after :=
          .own first begins (Standing.after?_snoc rest goesOn) (performing entry)
        exact ⟨_, _, _, _, _, _, _, opens, inside, uses, carries.steps, world, next, use, value,
          uses, .of_seat position carries seat, .of_seat position moved gone⟩

end World

end

end Runbook
